import ApexComments.Json.Basic
import ApexComments.OrderedMap
import ApexComments.Text.Numeral

/-!
# Reading JSON

A document is read from its text, blanks being allowed between its parts. Of several fields of one
name the last value counts, in the place of the first. What cannot be read is reported with the line,
the column and the offset of the place where reading stopped. Integers of too many digits and arrays and
objects that lie too deep in one another stop the reading too.
-/
namespace ApexComments.Json

open Text

/-- Why a text is no document. -/
inductive ReadFault where
  | byteOrderMark
  | expectingValue
  | expectingName
  | expectingColon
  | expectingComma
  | unterminatedText
  | invalidControl
  | invalidEscape
  | invalidUnicodeEscape
  | extraData
  deriving DecidableEq, Repr

/-- The words for a fault. -/
def ReadFault.label : ReadFault → Text
  | byteOrderMark => "Unexpected UTF-8 BOM (decode using utf-8-sig)"
  | expectingValue => "Expecting value"
  | expectingName => "Expecting property name enclosed in double quotes"
  | expectingColon => "Expecting ':' delimiter"
  | expectingComma => "Expecting ',' delimiter"
  | unterminatedText => "Unterminated string starting at"
  | invalidControl => "Invalid control character at"
  | invalidEscape => "Invalid \\escape"
  | invalidUnicodeEscape => "Invalid \\uXXXX escape"
  | extraData => "Extra data"

/-- What stops the reading of a text. -/
inductive ReadError where
  /-- A fault, with the number of characters from its place to the end of the text. -/
  | fault (what : ReadFault) (remaining : Nat)
  /-- An integer has more digits than a numeral may have. -/
  | tooManyDigits (digits : Nat)
  /-- An array lies too deep. -/
  | arrayTooDeep
  /-- An object lies too deep. -/
  | objectTooDeep
  deriving DecidableEq, Repr

namespace ReadError

/-- The words for a fault in a text: what is wrong, and where. -/
def describe (source : Text) (what : ReadFault) (remaining : Nat) : Text :=
  let offset := source.length - remaining
  let before := source.take offset
  let line := before.count (.char '\n') + 1
  let column := (before.reverse.takeWhile (· != CodePoint.char '\n')).length + 1
  what.label ++ ": line " ++ ofNat line ++ " column " ++ ofNat column ++
    " (char " ++ ofNat offset ++ ")"

/-- The words for what stopped the reading of a text. -/
def message (source : Text) : ReadError → Text
  | .fault what remaining => describe source what remaining
  | .tooManyDigits digits =>
    "Exceeds the limit (" ++ ofNat numeralDigits ++
      " digits) for integer string conversion: value has " ++ ofNat digits ++
      " digits; use sys.set_int_max_str_digits() to increase the limit"
  | .arrayTooDeep =>
    "maximum recursion depth exceeded while decoding a JSON array from a unicode string"
  | .objectTooDeep =>
    "maximum recursion depth exceeded while decoding a JSON object from a unicode string"

end ReadError

/-- The blanks between the parts of a document. -/
def isSpace (c : CodePoint) : Bool := c == ' ' || c == '\t' || c == '\n' || c == '\r'

/-- The text from the next character that is no blank. -/
def skipSpace (source : Text) : Text := source.dropWhile isSpace

/-- The value of a digit in base sixteen. -/
def hexValue? (c : CodePoint) : Option Nat :=
  let n := c.toNat
  if 0x30 ≤ n ∧ n ≤ 0x39 then some (n - 0x30)
  else if 0x61 ≤ n ∧ n ≤ 0x66 then some (n - 0x57)
  else if 0x41 ≤ n ∧ n ≤ 0x46 then some (n - 0x37)
  else none

/-- The number that four digits in base sixteen write. -/
def hexQuad? (a b c d : CodePoint) : Option Nat :=
  match hexValue? a, hexValue? b, hexValue? c, hexValue? d with
  | some a, some b, some c, some d => some (((a * 16 + b) * 16 + c) * 16 + d)
  | _, _, _, _ => none

/-- The character that an escape of one letter stands for. -/
def escapeOf? (c : CodePoint) : Option CodePoint :=
  if c = '"' then some '"'
  else if c = '\\' then some '\\'
  else if c = '/' then some '/'
  else if c = 'b' then some (.char (.ofNat 8))
  else if c = 'f' then some (.char (.ofNat 12))
  else if c = 'n' then some '\n'
  else if c = 'r' then some '\r'
  else if c = 't' then some '\t'
  else none

/-- The character that a pair of surrogates means. -/
def charOfPair (high low : Nat) : CodePoint := .ofNat (0x10000 + (high - 0xD800) * 0x400 + (low - 0xDC00))

/-- Puts a character before the text that is read next. -/
def prepend (c : CodePoint) : Except ReadError (Text × Text) → Except ReadError (Text × Text)
  | .ok (value, rest) => .ok (c :: value, rest)
  | .error error => .error error

/-- The second half of a surrogate pair, where one is written at the start of a text. -/
def lowHalf? (after : Text) : Except ReadError (Option Nat) :=
  match after with
  | '\\' :: 'u' :: a :: b :: c :: d :: _ :: rest =>
    match hexQuad? a b c d with
    | none => .error (.fault .invalidUnicodeEscape (rest.length + 6))
    | some unit => .ok (if 0xDC00 ≤ unit ∧ unit ≤ 0xDFFF then some unit else none)
  | _ => .ok none

/-- The code point that an escape by number means and how many it takes after its letter. A pair of
surrogates means one character. -/
def unicodeEscape (digits : Text) : Except ReadError (CodePoint × Nat) :=
  match digits with
  | a :: b :: c :: d :: next :: rest =>
    match hexQuad? a b c d with
    | none => .error (.fault .invalidUnicodeEscape (digits.length + 1))
    | some unit =>
      if 0xD800 ≤ unit ∧ unit ≤ 0xDBFF then
        match lowHalf? (next :: rest) with
        | .error error => .error error
        | .ok (some low) => .ok (charOfPair unit low, 10)
        | .ok none => .ok (.ofNat unit, 4)
      else .ok (.ofNat unit, 4)
  | _ => .error (.fault .invalidUnicodeEscape (digits.length + 1))

/-- The code point that an escape means and how many it takes after its backslash. -/
def readEscape (opened : Nat) : Text → Except ReadError (CodePoint × Nat)
  | [] => .error (.fault .unterminatedText opened)
  | c :: rest =>
    if c = 'u' then (unicodeEscape rest).map fun (meant, taken) => (meant, taken + 1)
    else match escapeOf? c with
      | some meant => .ok (meant, 1)
      | none => .error (.fault .invalidEscape (rest.length + 2))

/-- Reads a text up to its closing quote, after `taken` more characters of the escape read last;
`opened` tells where the text was opened. -/
def readText (opened taken : Nat) : Text → Except ReadError (Text × Text)
  | [] => .error (.fault .unterminatedText opened)
  | c :: rest =>
    match taken with
    | more + 1 => readText opened more rest
    | 0 =>
      if c = '"' then .ok ([], rest)
      else if c = '\\' then
        match readEscape opened rest with
        | .error error => .error error
        | .ok (meant, taken) => prepend meant (readText opened taken rest)
      else if c.toNat < 0x20 then .error (.fault .invalidControl (rest.length + 1))
      else prepend c (readText opened 0 rest)

/-- An ASCII digit. -/
def isDigit (c : CodePoint) : Bool := 0x30 ≤ c.toNat && c.toNat ≤ 0x39

/-- The fraction at the start of a text: a point and one or more digits. -/
def fraction (source : Text) : Text :=
  match source with
  | '.' :: rest => let digits := rest.takeWhile isDigit; if digits.isEmpty then [] else '.' :: digits
  | _ => []

/-- The exponent at the start of a text: its mark, a sign if there is one, and one or more digits. -/
def exponent (source : Text) : Text :=
  match source with
  | c :: rest =>
    if c = 'e' ∨ c = 'E' then
      let sign := (rest.take 1).filter fun s : CodePoint => s == '+' || s == '-'
      let digits := (rest.drop sign.length).takeWhile isDigit
      if digits.isEmpty then [] else c :: sign ++ digits
    else []
  | [] => []

/-- The digits of the whole part of a number: one zero, or digits that start with none. -/
def wholeDigits (source : Text) : Text :=
  match source with
  | '0' :: _ => ['0']
  | _ => source.takeWhile isDigit

/-- The number that ASCII digits write. -/
def digitsValue (digits : Text) : Nat := digits.foldl (fun value c => 10 * value + (c.toNat - 48)) 0

/-- The integer of whole digits with or without a sign. -/
def integerOf (negative : Bool) (digits : Text) : Except ReadError Json :=
  if numeralDigits < digits.length then .error (.tooManyDigits digits.length)
  else
    let value := Int.ofNat (digitsValue digits)
    .ok (integer (if negative then -value else value))

/-- Reads a number. -/
def readNumber (source : Text) : Except ReadError (Json × Text) :=
  let negative := source.head? == some '-'
  let unsigned := if negative then source.drop 1 else source
  let whole := wholeDigits unsigned
  if whole.isEmpty then .error (.fault .expectingValue source.length)
  else
    let after := unsigned.drop whole.length
    let part := fraction after
    let power := exponent (after.drop part.length)
    let rest := after.drop (part.length + power.length)
    if part.isEmpty && power.isEmpty then (integerOf negative whole).map (·, rest)
    else .ok (literal (source.take (source.length - rest.length)), rest)

/-- The words that stand for a value, with what they stand for. -/
def words : List (Text × Json) :=
  [("null", null), ("true", bool true), ("false", bool false),
    ("NaN", literal "NaN"), ("Infinity", literal "Infinity"),
    ("-Infinity", literal "-Infinity")]

/-- Reads a word. -/
def readWord? (source : Text) : Option (Json × Text) :=
  (words.find? fun word => word.1.isPrefixOf source).map fun word =>
    (word.2, source.drop word.1.length)

mutual

/-- Reads a value at the start of a text. The fuel bounds the number of nested steps; `depth` is the
number of arrays and objects that may still be opened in one another. -/
def readValue (fuel depth : Nat) (source : Text) : Except ReadError (Json × Text) :=
  match fuel with
  | 0 => .error (.fault .expectingValue source.length)
  | fuel + 1 =>
    match source with
    | '"' :: rest =>
      match readText source.length 0 rest with
      | .ok (value, rest) => .ok (text value, rest)
      | .error error => .error error
    | '[' :: rest =>
      match depth with
      | 0 => .error .arrayTooDeep
      | depth + 1 =>
        match skipSpace rest with
        | ']' :: rest => .ok (array [], rest)
        | rest => readItems fuel depth [] rest
    | '{' :: rest =>
      match depth with
      | 0 => .error .objectTooDeep
      | depth + 1 =>
        match skipSpace rest with
        | '}' :: rest => .ok (object [], rest)
        | rest => readFields fuel depth .empty rest
    | source =>
      match readWord? source with
      | some answer => .ok answer
      | none => readNumber source

/-- Reads the items of an array; those read already come last first. -/
def readItems (fuel depth : Nat) (reversed : List Json) (source : Text) :
    Except ReadError (Json × Text) :=
  match fuel with
  | 0 => .error (.fault .expectingValue source.length)
  | fuel + 1 =>
    match readValue fuel depth source with
    | .error error => .error error
    | .ok (item, rest) =>
      match skipSpace rest with
      | ']' :: rest => .ok (array (item :: reversed).reverse, rest)
      | ',' :: rest => readItems fuel depth (item :: reversed) (skipSpace rest)
      | rest => .error (.fault .expectingComma rest.length)

/-- Reads the fields of an object after those read already. -/
def readFields (fuel depth : Nat) (fields : OrderedMap Text Json) (source : Text) :
    Except ReadError (Json × Text) :=
  match fuel with
  | 0 => .error (.fault .expectingValue source.length)
  | fuel + 1 =>
    match source with
    | '"' :: rest =>
      match readText source.length 0 rest with
      | .error error => .error error
      | .ok (name, rest) =>
        match skipSpace rest with
        | ':' :: rest =>
          match readValue fuel depth (skipSpace rest) with
          | .error error => .error error
          | .ok (value, rest) =>
            let fields := fields.insert name value
            match skipSpace rest with
            | '}' :: rest => .ok (object fields.entries, rest)
            | ',' :: rest => readFields fuel depth fields (skipSpace rest)
            | rest => .error (.fault .expectingComma rest.length)
        | rest => .error (.fault .expectingColon rest.length)
    | rest => .error (.fault .expectingName rest.length)

end

/-- Reads a text that holds one document and nothing else. -/
def parse (source : Text) : Except ReadError Json :=
  if source.head? == some (.ofNat 0xFEFF) then .error (.fault .byteOrderMark source.length)
  else match readValue (2 * source.length + 2) nestingLimit (skipSpace source) with
    | .error error => .error error
    | .ok (document, rest) =>
      let rest := skipSpace rest
      if rest.isEmpty then .ok document else .error (.fault .extraData rest.length)

end ApexComments.Json
