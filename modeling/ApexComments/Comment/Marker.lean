import ApexComments.Text.Blank
import ApexComments.Text.Line

/-!
# Comment markers

A documentation comment is a block opened by `/**`, a line opened by `///`, or any comment that
mentions the reserved marker. The content of a comment is its lines without the markers and the gutter
of asterisks.
-/
namespace ApexComments.Comment

open Text

/-- Opens a documentation block. -/
def blockOpen : Text := ['/', '*', '*']

/-- Closes a block. -/
def blockClose : Text := ['*', '/']

/-- Stands before the text on the middle lines of a block. -/
def gutter : Text := ['*']

/-- Opens a documentation line. -/
def lineOpen : Text := ['/', '/', '/']

/-- A whole block on one line in which the opener and the closer share their asterisk. -/
def emptyBlock : Text := ['/', '*', '*', '/']

/-- Marks a documentation comment wherever it stands in it. -/
def reservedMarker : Text := ['@', 'a', 'p', 'e', 'x', 'd', 'o', 'c']

/-- Whether the reserved marker occurs in the text. -/
def mentionsReserved (text : Text) : Bool := mentions reservedMarker text

/-- Whether the text of a comment is a documentation comment. -/
def isDoc (text : Text) : Bool :=
  let bare := trim text
  blockOpen.isPrefixOf bare || lineOpen.isPrefixOf bare || mentionsReserved bare

/-- A line without its blanks and its markers. Opener, closer, gutter and line marker are taken off
in this order, each once. -/
def lineContent (line : Text) : Text :=
  let bare := trim line
  if bare = emptyBlock then []
  else
    let inner := dropTrailing blockClose (dropLeading blockOpen bare)
    trim (dropLeading lineOpen (dropLeading gutter inner))

/-- The text of a comment: every line without its markers, the whole trimmed. -/
def content (raw : Text) : Text := trim (joinLines ((lines raw).map lineContent))

end ApexComments.Comment
