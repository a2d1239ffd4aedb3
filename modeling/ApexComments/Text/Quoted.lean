import ApexComments.Text.Printable

/-!
# Quoted texts

Messages show file names and argument values in quotes: single ones, or double ones where the text
holds a single quote and no double one. The quote, the backslash and all that is not printable is
escaped.
-/
namespace ApexComments.Text

/-- The number in base sixteen, filled up with zeros to the width. -/
def hex (width n : Nat) : Text :=
  let digits := Nat.toDigits 16 n
  (List.replicate (width - digits.length) '0' ++ digits).map .char

/-- A character inside the given quotes. -/
def quotedChar (mark c : CodePoint) : Text :=
  if c = mark || c = '\\' then ['\\', c]
  else if c = '\t' then ['\\', 't']
  else if c = '\n' then ['\\', 'n']
  else if c = '\r' then ['\\', 'r']
  else if isPrintable c then [c]
  else if c.toNat < 0x100 then '\\' :: 'x' :: hex 2 c.toNat
  else if c.toNat < 0x10000 then '\\' :: 'u' :: hex 4 c.toNat
  else '\\' :: 'U' :: hex 8 c.toNat

/-- The quotation mark for a text. -/
def quoteMark (text : Text) : CodePoint :=
  if text.contains '\x27' && !text.contains '"' then '"' else '\x27'

/-- The text in quotes. -/
def quoted (text : Text) : Text :=
  let mark := quoteMark text
  mark :: text.flatMap (quotedChar mark) ++ [mark]

end ApexComments.Text
