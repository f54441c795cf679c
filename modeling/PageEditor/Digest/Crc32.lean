/-!
# Cyclic redundancy checks

The 32-bit check of a byte string with the reflected polynomial `EDB88320`, written in lower-case
hexadecimal digits.
-/
set_option autoImplicit false

namespace PageEditor.Digest

/-- Divides by the polynomial, one bit at a time. -/
def crcStep (r : UInt32) : UInt32 :=
  if r &&& 1 = 1 then (r >>> 1) ^^^ 0xEDB88320 else r >>> 1

/-- Takes one byte in. -/
def crcByte (r : UInt32) (b : UInt8) : UInt32 :=
  crcStep (crcStep (crcStep (crcStep (crcStep (crcStep (crcStep (crcStep (r ^^^ b.toUInt32))))))))

/-- The check of a byte string. -/
def crc32 (bytes : List UInt8) : UInt32 :=
  bytes.foldl crcByte 0xFFFFFFFF ^^^ 0xFFFFFFFF

/-- A number in hexadecimal digits, none of them in front superfluous. -/
def hexText (n : Nat) : String := String.ofList (Nat.toDigits 16 n)

end PageEditor.Digest
