import ApexComments.Text.Blank

/-!
# Numerals

An integer is written with an optional sign and the decimal digits of any script, a single
underscore being allowed between two digits, and blanks around the whole.
-/
namespace ApexComments.Text

/-- The zero of each run of ten decimal digits, in increasing order. -/
def decimalZeros : List Nat := [
  0x30, 0x660, 0x6F0, 0x7C0, 0x966, 0x9E6, 0xA66, 0xAE6, 0xB66, 0xBE6, 0xC66, 0xCE6, 0xD66, 0xDE6,
  0xE50, 0xED0, 0xF20, 0x1040, 0x1090, 0x17E0, 0x1810, 0x1946, 0x19D0, 0x1A80, 0x1A90, 0x1B50,
  0x1BB0, 0x1C40, 0x1C50, 0xA620, 0xA8D0, 0xA900, 0xA9D0, 0xA9F0, 0xAA50, 0xABF0, 0xFF10, 0x104A0,
  0x10D30, 0x11066, 0x110F0, 0x11136, 0x111D0, 0x112F0, 0x11450, 0x114D0, 0x11650, 0x116C0,
  0x11730, 0x118E0, 0x11950, 0x11C50, 0x11D50, 0x11DA0, 0x16A60, 0x16AC0, 0x16B50, 0x1D7CE,
  0x1D7D8, 0x1D7E2, 0x1D7EC, 0x1D7F6, 0x1E140, 0x1E2F0, 0x1E950, 0x1FBF0]

/-- The value of a decimal digit of any script. -/
def digitValue? (c : CodePoint) : Option Nat :=
  (decimalZeros.find? fun base => base ≤ c.toNat && c.toNat < base + 10).map (c.toNat - ·)

/-- Whether the character is a decimal digit of any script. -/
def isDecimalDigit (c : CodePoint) : Bool := (digitValue? c).isSome

/-- Blanks that may surround a numeral: every blank but the four information separators. -/
def isNumeralBlank (c : CodePoint) : Bool := isBlank c && !(0x1C ≤ c.toNat && c.toNat ≤ 0x1F)

/-- The most digits that a numeral may have. -/
def numeralDigits : Nat := 4300

/-- Goes on reading the number of which `value` has been read; a digit came last. -/
def readDigits? (value : Nat) : Text → Option Nat
  | [] => some value
  | c :: rest =>
    if c = '_' then
      match rest with
      | [] => none
      | digit :: later => (digitValue? digit).bind fun d => readDigits? (10 * value + d) later
    else (digitValue? c).bind fun d => readDigits? (10 * value + d) rest

/-- The number that a run of digits writes. -/
def natural? : Text → Option Nat
  | [] => none
  | c :: rest => (digitValue? c).bind fun d => readDigits? d rest

/-- The integer that a numeral writes, or nothing where the text is no numeral. -/
def integer? (text : Text) : Option Int :=
  let bare := ((text.dropWhile isNumeralBlank).reverse.dropWhile isNumeralBlank).reverse
  if numeralDigits < bare.countP isDecimalDigit then none
  else match bare with
    | '+' :: digits => (natural? digits).map Int.ofNat
    | '-' :: digits => (natural? digits).map fun n => -Int.ofNat n
    | digits => (natural? digits).map Int.ofNat

end ApexComments.Text
