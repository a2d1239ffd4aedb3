import ApexComments.Text.Basic

/-!
# Keywords

File suffixes, switches and level names are ASCII keywords compared without regard to case. Outside
ASCII only those letters matter whose capitals are ASCII letters: the dotless i, the long s, the sharp
s and the ligatures of Latin letters. The Kelvin sign and the dotted capital I have small forms that
reach ASCII, but no keyword holds a k and the second brings a combining dot with it.
-/
namespace ApexComments.Text

/-- A small ASCII letter for a capital one, and every other code point as it is. -/
def small : CodePoint → CodePoint
  | .char c => .char c.toLower
  | .surrogate offset => .surrogate offset

/-- The text with its ASCII capitals made small. -/
def lowered (text : Text) : Text := text.map small

/-- The letters outside ASCII with the ASCII capitals that they have. -/
def asciiCapitals : List (Nat × Text) :=
  [(0xDF, ['S', 'S']), (0x131, ['I']), (0x17F, ['S']), (0xFB00, ['F', 'F']), (0xFB01, ['F', 'I']),
    (0xFB02, ['F', 'L']), (0xFB03, ['F', 'F', 'I']), (0xFB04, ['F', 'F', 'L']), (0xFB05, ['S', 'T']),
    (0xFB06, ['S', 'T'])]

/-- The capitals of a letter, where they are ASCII. -/
def capitals : CodePoint → Text
  | .char c => (asciiCapitals.lookup c.toNat).getD [c.toUpper]
  | .surrogate offset => [.surrogate offset]

/-- The text with the letters that have ASCII capitals made capital. -/
def raised (text : Text) : Text := text.flatMap capitals

end ApexComments.Text
