import ApexComments.OrderedMap
import ApexComments.Text.Blank
import ApexComments.Text.Line

/-!
# Variable files

A file of variables gives one to a line: a name, an equals sign and a value, with or without quotes.
A name without a value gives none. Lines that cannot be read are passed over.
-/
namespace ApexComments.EnvFile

open Text

/-- A blank that does not end the line. -/
def isInline (c : CodePoint) : Bool := isBlank c && c != '\n'

/-- A character of a name without quotes. -/
def isNameChar (c : CodePoint) : Bool := !(c == '=' || c == '#' || isBlank c)

/-- What follows the present line. -/
def nextLine (source : Text) : Text := (source.dropWhile (· != CodePoint.char '\n')).drop 1

/-- Drops the word that marks a variable for export, with the blanks after it. -/
def dropExport (source : Text) : Text :=
  let marker : Text := ['e', 'x', 'p', 'o', 'r', 't']
  let rest := source.drop marker.length
  if marker.isPrefixOf source && (rest.head?.map isInline).getD false then rest.dropWhile isInline
  else source

/-- A text in quotes at the start of the source, with what comes after the closing quote. -/
def quoted? (mark : CodePoint) (source : Text) : Option (Text × Text) :=
  match source.dropWhile (· != mark) with
  | [] => none
  | _ :: rest => some (source.takeWhile (· != mark), rest)

/-- A value without quotes up to a comment that blanks set off. -/
def dropComment : Text → Text
  | [] => []
  | c :: rest =>
    if isBlank c && (rest.dropWhile isBlank).head? == some '#' then [] else c :: dropComment rest

/-- The value after an equals sign: what stands in quotes, or else the line up to a comment that blanks
set off. Blanks right after the equals sign set a comment off too, and the value is then empty. -/
def value? (source : Text) : Option (Text × Text) :=
  match source.dropWhile isInline with
  | '\x27' :: rest => quoted? '\x27' rest
  | '"' :: rest => quoted? '"' rest
  | _ => some (trim (dropComment (source.takeWhile (· != CodePoint.char '\n'))),
      source.dropWhile (· != CodePoint.char '\n'))

/-- The name at the start of the source; a comment has none. -/
def name? : Text → Option (Option Text × Text)
  | '#' :: rest => some (none, '#' :: rest)
  | '\x27' :: rest => match quoted? '\x27' rest with
    | some (c :: name, rest) => some (some (c :: name), rest)
    | _ => none
  | source =>
    let name := source.takeWhile isNameChar
    if name.isEmpty then none else some (some name, source.dropWhile isNameChar)

/-- What follows a binding, if nothing but a comment stands after it on its line. -/
def lineEnd? (source : Text) : Option Text :=
  let rest := source.dropWhile isInline
  let rest := if rest.head? == some '#' then rest.dropWhile (· != CodePoint.char '\n') else rest
  match rest with
  | [] => some []
  | '\n' :: later => some later
  | _ => none

/-- The binding at the start of the source, if it can be read, and what follows it. -/
def binding (source : Text) : Option (Text × Option Text) × Text :=
  let source := dropExport source
  match name? source with
  | none => (none, nextLine source)
  | some (name, rest) =>
    let rest := rest.dropWhile isInline
    let value := match rest with
      | '=' :: later => (value? later).map fun (value, rest) => (some value, rest)
      | rest => some (none, rest)
    match value with
    | none => (none, nextLine rest)
    | some (value, rest) =>
      match lineEnd? rest with
      | none => (none, nextLine rest)
      | some later => (name.map (·, value), later)

/-- The bindings of the source in order; the fuel bounds their number. -/
def bindings (fuel : Nat) (source : Text) : List (Text × Option Text) :=
  match fuel, source.dropWhile isBlank with
  | 0, _ => []
  | _, [] => []
  | fuel + 1, source =>
    let (bound, rest) := binding source
    bound.toList ++ bindings fuel rest

/-- The variables that a file gives. Of several bindings of one name the last counts, even if it
gives no value. -/
def parse (source : Text) : List (Text × Text) :=
  let source := unifyNewlines source
  (OrderedMap.ofList (bindings source.length source)).entries.filterMap fun (name, value) =>
    value.map (name, ·)

end ApexComments.EnvFile
