/-!
# Animations

Settings that describe how an element comes alive. They are on or off; while they are on, they
determine a descriptor in which every parameter that the kind of animation takes has a value.
A preview counts how often an animation was asked to play again.
-/
set_option autoImplicit false

namespace PageEditor

/-! ## Settings -/

inductive AnimationKind
  | fade | slide | scale | rotate | bounce | pulse | shake
  deriving DecidableEq, Repr

inductive AnimationTrigger
  | load | hover | click | inView
  deriving DecidableEq, Repr

inductive Direction
  | up | down | left | right
  deriving DecidableEq, Repr

namespace AnimationKind

def all : List AnimationKind := [fade, slide, scale, rotate, bounce, pulse, shake]

def name : AnimationKind → String
  | fade => "fade"
  | slide => "slide"
  | scale => "scale"
  | rotate => "rotate"
  | bounce => "bounce"
  | pulse => "pulse"
  | shake => "shake"

def ofName? (s : String) : Option AnimationKind := all.find? (·.name == s)

theorem ofName?_name (k : AnimationKind) : ofName? k.name = some k := by
  cases k <;> decide

end AnimationKind

namespace AnimationTrigger

def all : List AnimationTrigger := [load, hover, click, inView]

def name : AnimationTrigger → String
  | load => "load"
  | hover => "hover"
  | click => "click"
  | inView => "inView"

def ofName? (s : String) : Option AnimationTrigger := all.find? (·.name == s)

theorem ofName?_name (t : AnimationTrigger) : ofName? t.name = some t := by
  cases t <;> decide

end AnimationTrigger

namespace Direction

def all : List Direction := [up, down, left, right]

def name : Direction → String
  | up => "up"
  | down => "down"
  | left => "left"
  | right => "right"

def ofName? (s : String) : Option Direction := all.find? (·.name == s)

theorem ofName?_name (d : Direction) : ofName? d.name = some d := by
  cases d <;> decide

end Direction

/-- Times are in seconds. The last four settings matter to some kinds only. -/
structure Animation where
  enabled : Bool
  kind : AnimationKind
  trigger : AnimationTrigger
  duration : Float
  delay : Float := 0.0
  repeats : UInt32 := 0
  ease : String := "easeOut"
  direction : Option Direction := none
  distance : Option Float := none
  angle : Option Float := none
  intensity : Option Float := none

namespace Animation

/-- Equality of settings that may be missing, by the numbers' own equality. -/
def sameNumber : Option Float → Option Float → Bool
  | none, none => true
  | some x, some y => x == y
  | _, _ => false

/-- Equality of settings; the two zeros are equal. -/
def same (a b : Animation) : Bool :=
  a.enabled == b.enabled && a.kind == b.kind && a.trigger == b.trigger
    && a.duration == b.duration && a.delay == b.delay && a.repeats == b.repeats
    && a.ease == b.ease && a.direction == b.direction && sameNumber a.distance b.distance
    && sameNumber a.angle b.angle && sameNumber a.intensity b.intensity

def enable (a : Animation) : Animation := { a with enabled := true }

def disable (a : Animation) : Animation := { a with enabled := false }

end Animation

/-! ## Descriptors -/

/-- The parameters that a kind of animation takes. -/
inductive AnimationParams
  | fade
  | slide (direction : Direction) (distance : Float)
  | scale (intensity : Float)
  | rotate (angle : Float)
  | bounce (distance : Float)
  | pulse (intensity : Float)
  | shake (intensity : Float)

structure Timing where
  duration : Float
  delay : Float
  repeats : UInt32
  ease : String

/-- An animation with every parameter settled. -/
structure AnimationDescriptor where
  trigger : AnimationTrigger
  timing : Timing
  params : AnimationParams

/-- The larger one of a number and zero. -/
def atLeastZero (x : Float) : Float := if 0.0 < x then x else 0.0

namespace Animation

/-- The parameters of the kind; one that was not set has a default of its kind. -/
def params (a : Animation) : AnimationParams :=
  match a.kind with
  | .fade => .fade
  | .slide => .slide (a.direction.getD .up) (a.distance.getD 50.0)
  | .scale => .scale (a.intensity.getD 0.8)
  | .rotate => .rotate (a.angle.getD 180.0)
  | .bounce => .bounce (a.distance.getD 20.0)
  | .pulse => .pulse (a.intensity.getD 1.1)
  | .shake => .shake (a.intensity.getD 10.0)

def descriptor (a : Animation) : AnimationDescriptor where
  trigger := a.trigger
  timing := ⟨atLeastZero a.duration, atLeastZero a.delay, a.repeats, a.ease⟩
  params := a.params

/-- The descriptor of an animation that is on. -/
def descriptor? (a : Animation) : Option AnimationDescriptor :=
  if a.enabled then some a.descriptor else none

end Animation

/-! ## Previews -/

/-- How often a preview was asked to play again. -/
structure AnimationPreview where
  count : UInt64 := 0
  deriving DecidableEq, Repr

def AnimationPreview.replay (p : AnimationPreview) : AnimationPreview := ⟨p.count + 1⟩

end PageEditor
