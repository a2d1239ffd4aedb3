import ApexComments.Text.Basic

/-!
# Blank characters

Comment text is trimmed by the blank characters of every script: the ASCII spaces and separators,
the no-break space and the spaces of the general punctuation block. Source bytes between tokens know
the six ASCII blanks only.
-/
namespace ApexComments.Text

/-- A blank code point: white space or a separator of information, lines or paragraphs. -/
def isBlank (c : CodePoint) : Bool :=
  let n := c.toNat
  (0x09 ≤ n && n ≤ 0x0D) || (0x1C ≤ n && n ≤ 0x20) || n == 0x85 || n == 0xA0 || n == 0x1680 ||
    (0x2000 ≤ n && n ≤ 0x200A) || n == 0x2028 || n == 0x2029 || n == 0x202F || n == 0x205F ||
    n == 0x3000

/-- A blank source byte: tab to carriage return, or space. -/
def isBlankByte (b : UInt8) : Bool :=
  (9 ≤ b.toNat && b.toNat ≤ 13) || b.toNat == 32

/-- The text from its first character that is not blank. -/
def trimStart (text : Text) : Text := text.dropWhile isBlank

/-- The text up to its last character that is not blank. -/
def trimEnd (text : Text) : Text := (text.reverse.dropWhile isBlank).reverse

/-- The text without the blanks at either end. -/
def trim (text : Text) : Text := trimEnd (trimStart text)

/-- Whether a text holds nothing but blanks. -/
def allBlank (text : Text) : Bool := text.all isBlank

@[simp] theorem trim_nil : trim [] = [] := rfl

end ApexComments.Text
