import ApexComments.Comment.Body
import ApexComments.Token

/-!
# Documentation comments

The decoded comment of a declaration: where it stands, what it describes, and the tags that have
fields of their own.
-/
namespace ApexComments

open Text Comment

/-- A decoded documentation comment. `tags` keeps the last value of each tag name, `tagValues` all of
them. -/
structure DocComment where
  location : Location
  description : Text := []
  params : OrderedMap Text Text := .empty
  returnDescription : Option Text := none
  author : Option Text := none
  deprecated : Option Text := none
  tags : OrderedMap Text Text := .empty
  tagValues : OrderedMap Text (List Text) := .empty
  deriving DecidableEq

/-- Parameter names with their descriptions. -/
abbrev Params := OrderedMap Text Text

namespace Params

/-- The tag that describes a parameter. -/
def tagName : Text := ['p', 'a', 'r', 'a', 'm']

/-- The first word of a value and what follows the blanks after it. -/
def readEntry (value : Text) : Text × Text :=
  let bare := trimStart value
  (bare.takeWhile fun c => !isBlank c, trimStart (bare.dropWhile fun c => !isBlank c))

/-- The parameters that the values describe, the last description of a name winning. Values without
a word describe none. -/
def ofValues (values : List Text) : Params :=
  .ofList ((values.map readEntry).filter fun param => !param.1.isEmpty)

/-- The parameter of the one value kept for the tag: at most one. -/
def ofTags (tags : OrderedMap Text Text) : Params := ofValues (tags.get? tagName).toList

/-- The parameters of every value of the tag. -/
def ofTagValues (tagValues : OrderedMap Text (List Text)) : Params :=
  ofValues ((tagValues.get? tagName).getD [])

end Params

/-- The value of a tag unless it is blank. -/
def tagText? (tags : OrderedMap Text Text) (name : Text) : Option Text :=
  (tags.get? name).filter fun value => !allBlank value

namespace DocComment

/-- Decodes the comment in a token; `everyParam` asks for the parameters of every `@param` line
instead of the last one. -/
def ofToken (token : Token) (everyParam : Bool) : DocComment :=
  let body := Body.parse token.text
  let tags := body.tags
  { location := .ofToken token
    description := body.description
    params := if everyParam then Params.ofTagValues body.tagValues else Params.ofTags tags
    returnDescription := tagText? tags ['r', 'e', 't', 'u', 'r', 'n']
    author := tagText? tags ['a', 'u', 't', 'h', 'o', 'r']
    deprecated := tagText? tags ['d', 'e', 'p', 'r', 'e', 'c', 'a', 't', 'e', 'd']
    tags := tags
    tagValues := body.tagValues }

end DocComment

end ApexComments
