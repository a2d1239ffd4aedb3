import ApexComments.Text.Basic

/-!
# Tokens

A token is a stretch of source text with its place: its position in the stream, the line (from 1)
and the column (from 0) at which it starts, and the offset of its first byte. Channel 0 holds the
significant tokens; comments and blanks are hidden on another channel.
-/
namespace ApexComments

/-- A stretch of source text with its place in the stream and in the source. -/
structure Token where
  text : Text
  index : Int
  line : Int
  column : Int
  channel : Int := 0
  kind : String := ""
  startByte : Int := -1
  deriving DecidableEq, Repr

/-- Whether the token stands outside the significant channel. -/
def Token.isHidden (token : Token) : Bool := token.channel != 0

/-- The channel of the tokens that a stream hides. -/
def Token.hiddenChannel : Int := 1

/-- The span of a stretch of text: lines from 1, columns from 0, the end exclusive. -/
structure Location where
  startLine : Int
  startColumn : Int
  endLine : Int
  endColumn : Int
  deriving DecidableEq, Repr

/-- The part of a text after its last line feed. -/
def lastLine (text : Text) : Text := (text.reverse.takeWhile (· != CodePoint.char '\n')).reverse

/-- The span of a token: each line feed in its text starts a line at column 0. -/
def Location.ofToken (token : Token) : Location where
  startLine := token.line
  startColumn := token.column
  endLine := token.line + token.text.count (.char '\n')
  endColumn :=
    if token.text.contains '\n' then (lastLine token.text).length
    else token.column + token.text.length

end ApexComments
