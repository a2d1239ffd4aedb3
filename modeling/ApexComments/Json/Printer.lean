import ApexComments.Json.Basic
import ApexComments.Text.Numeral
import ApexComments.Text.Quoted

/-!
# Printing JSON

Every item and every field stands on a line of its own, two blanks deeper than what holds it. Empty
arrays and objects stay on one line. Of the characters in a text, quotes, backslashes and controls
are escaped, and nothing else. Each part is written before the text that follows it, so that no text is
gone over again. Integers of too many digits and arrays and objects that lie too deep in one another are not
printed.
-/
namespace ApexComments.Json

open Text

/-- Why a document is not printed. -/
inductive PrintFault where
  /-- An integer has more digits than a numeral may have. -/
  | tooManyDigits
  /-- An array or an object lies too deep. -/
  | tooDeep
  deriving DecidableEq, Repr

/-- The words for a document that is not printed. -/
def PrintFault.message : PrintFault → Text
  | tooManyDigits => "Exceeds the limit (" ++ Text.ofNat numeralDigits ++
      " digits) for integer string conversion; use sys.set_int_max_str_digits() to increase the limit"
  | tooDeep => "maximum recursion depth exceeded while calling a Python object"

mutual

/-- What comes first, as the document is printed, of all that keeps it from being printed. There is `room` for so
many arrays and objects one inside the other. -/
def printFault? (room : Nat) : Json → Option PrintFault
  | integer value => if Nat.pow 10 numeralDigits ≤ value.natAbs then some .tooManyDigits else none
  | array items => match room with
    | 0 => some .tooDeep
    | room + 1 => printFaultOfItems? room items
  | object fields => match room with
    | 0 => some .tooDeep
    | room + 1 => printFaultOfFields? room fields
  | _ => none

/-- What comes first of all that keeps items from being printed. -/
def printFaultOfItems? (room : Nat) : List Json → Option PrintFault
  | [] => none
  | item :: items => (printFault? room item).or (printFaultOfItems? room items)

/-- What comes first of all that keeps fields from being printed. -/
def printFaultOfFields? (room : Nat) : List (Text × Json) → Option PrintFault
  | [] => none
  | (_, value) :: fields => (printFault? room value).or (printFaultOfFields? room fields)

end

/-- A character inside a text. -/
def escapedChar (c : CodePoint) : Text :=
  if c = '"' then ['\\', '"']
  else if c = '\\' then ['\\', '\\']
  else if c = '\n' then ['\\', 'n']
  else if c = '\r' then ['\\', 'r']
  else if c = '\t' then ['\\', 't']
  else if c.toNat = 8 then ['\\', 'b']
  else if c.toNat = 12 then ['\\', 'f']
  else if c.toNat < 0x20 then '\\' :: 'u' :: hex 4 c.toNat
  else [c]

/-- A text in quotes, before what follows it. -/
def quotedBefore (rest : Text) (value : Text) : Text :=
  CodePoint.char '"' :: value.flatMap escapedChar ++ CodePoint.char '"' :: rest

/-- The start of a line at a depth, before what follows it. -/
def newlineBefore (rest : Text) (depth : Nat) : Text :=
  CodePoint.char '\n' :: List.replicate (2 * depth) (CodePoint.char ' ') ++ rest

mutual

/-- A document, before what follows it. Its items stand one deeper than the given depth. -/
def printBefore (rest : Text) (depth : Nat) : Json → Text
  | null => 'n' :: 'u' :: 'l' :: 'l' :: rest
  | bool true => 't' :: 'r' :: 'u' :: 'e' :: rest
  | bool false => 'f' :: 'a' :: 'l' :: 's' :: 'e' :: rest
  | integer value => ofInt value ++ rest
  | literal written => written ++ rest
  | text value => quotedBefore rest value
  | array [] => '[' :: ']' :: rest
  | array (item :: items) =>
    let close := newlineBefore (']' :: rest) depth
    let later := printItemsBefore close (depth + 1) items
    '[' :: newlineBefore (printBefore later (depth + 1) item) (depth + 1)
  | object [] => '{' :: '}' :: rest
  | object ((name, value) :: fields) =>
    let close := newlineBefore ('}' :: rest) depth
    let later := printFieldsBefore close (depth + 1) fields
    let first := quotedBefore (':' :: ' ' :: printBefore later (depth + 1) value) name
    '{' :: newlineBefore first (depth + 1)

/-- The items of an array after the first, before what follows them. -/
def printItemsBefore (rest : Text) (depth : Nat) : List Json → Text
  | [] => rest
  | item :: items =>
    ',' :: newlineBefore (printBefore (printItemsBefore rest depth items) depth item) depth

/-- The fields of an object after the first, before what follows them. -/
def printFieldsBefore (rest : Text) (depth : Nat) : List (Text × Json) → Text
  | [] => rest
  | (name, value) :: fields =>
    let later := printFieldsBefore rest depth fields
    ',' :: newlineBefore (quotedBefore (':' :: ' ' :: printBefore later depth value) name) depth

end

/-- The text of a document, if it can be printed. -/
def print (document : Json) : Except PrintFault Text :=
  match document.printFault? nestingLimit with
  | some fault => .error fault
  | none => .ok (printBefore [] 0 document)

end ApexComments.Json
