import PageEditor.Text.Extender
import PageEditor.Text.Hex
import PageEditor.Text.Printable

/-!
# Quoted texts

Texts in quotes for a reader's eye. Whatever could not be seen, or would hide in the character
before it, is escaped.
-/
set_option autoImplicit false

namespace PageEditor.Text

/-- How a character is shown in a quoted text. -/
def quotedChar (c : Char) : List Char :=
  if c.toNat = 0 then ['\\', '0']
  else if c = '\t' then ['\\', 't']
  else if c = '\r' then ['\\', 'r']
  else if c = '\n' then ['\\', 'n']
  else if c = '"' ∨ c = '\\' then ['\\', c]
  else if isPrintable c ∧ ¬isExtender c then [c]
  else '\\' :: 'u' :: '\x7b' :: Nat.toDigits 16 c.toNat ++ ['\x7d']

def quoted (s : String) : String := String.ofList ('"' :: s.toList.flatMap quotedChar ++ ['"'])

end PageEditor.Text
