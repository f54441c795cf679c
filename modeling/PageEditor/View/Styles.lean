import PageEditor.Component.Catalog

/-!
# Styles in use

The class tokens of the components that a page shows, grouped by family. Families and tokens come in
the order of their first use.
-/
set_option autoImplicit false

namespace PageEditor

/-- The tokens of a family. -/
structure FamilyStyle where
  family : Family
  classTokens : List String
  deriving DecidableEq, Repr

/-- Families with their tokens. -/
structure Styles where
  groups : List FamilyStyle := []
  deriving DecidableEq, Repr

namespace Styles

/-- Adds the tokens that are new. -/
def addTokens (old new : List String) : List String :=
  new.foldl (fun ts t => if t ∈ ts then ts else ts ++ [t]) old

/-- Adds tokens to the group of a family, which is made at the end if it is not there. -/
def addTo (family : Family) (tokens : List String) : List FamilyStyle → List FamilyStyle
  | [] => [⟨family, addTokens [] tokens⟩]
  | g :: gs =>
    if g.family = family then ⟨family, addTokens g.classTokens tokens⟩ :: gs
    else g :: addTo family tokens gs

/-- Takes note of a component. -/
def record (s : Styles) (d : Descriptor) : Styles := ⟨addTo d.family d.classTokens s.groups⟩

end Styles

end PageEditor
