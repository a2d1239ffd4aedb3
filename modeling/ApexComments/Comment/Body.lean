import ApexComments.Comment.Marker
import ApexComments.OrderedMap
import ApexComments.Text.Word

/-!
# Comment bodies

The content of a comment is a description followed by tag lines. A tag line is an at sign, a
word, blanks and a value. Lines after the first tag line that are none themselves are left out.
-/
namespace ApexComments.Comment

open Text

/-- A line `@name value` of a comment. -/
structure TagLine where
  name : Text
  value : Text
  deriving DecidableEq, Repr

/-- Reads a trimmed line as a tag line. -/
def TagLine.read? : Text → Option TagLine
  | '@' :: line =>
    let name := line.takeWhile isWordChar
    match name, line.dropWhile isWordChar with
    | _ :: _, c :: rest => if isBlank c then some ⟨name, trim (trimStart rest)⟩ else none
    | _, _ => none
  | _ => none

/-- What a comment says: its description, and its tag lines in order. -/
structure Body where
  description : Text
  tagLines : List TagLine
  deriving DecidableEq, Repr

namespace Body

/-- Whether a trimmed line belongs to the description where no tag line came before. -/
def isProse (line : Text) : Bool := (TagLine.read? line).isNone

/-- Reads the raw text of a comment. -/
def parse (raw : Text) : Body :=
  let trimmed := (lines (content raw)).map trim
  let prose := (trimmed.takeWhile isProse).filter fun line => !line.isEmpty
  { description := trim (joinWith [' '] prose)
    tagLines := trimmed.filterMap TagLine.read? }

/-- Every value of each tag name, names in order of first occurrence. -/
def tagValues (body : Body) : OrderedMap Text (List Text) :=
  .group (body.tagLines.map fun tag => (tag.name, tag.value))

/-- The last value of each tag name, names in order of first occurrence. -/
def tags (body : Body) : OrderedMap Text Text :=
  body.tagValues.mapValues fun values => values.getLastD []

end Body

end ApexComments.Comment
