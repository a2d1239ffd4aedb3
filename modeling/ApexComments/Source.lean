import ApexComments.Syntax.Parser
import ApexComments.Syntax.Piece
import ApexComments.Token.Lookup

/-!
# Lookups in a source

A source is tokenized by way of its syntax tree; the comment of a declaration is then looked up by
the index of its first token or by its place in the source. A source that cannot be parsed has no
comments.
-/
namespace ApexComments.Source

open Text

/-- The token stream of a source. -/
def tokenize (parser : Parser) (source : Text) : Except ParseFailure (Logged TokenStream) :=
  let bytes := utf8 source
  (parser bytes).map fun tree =>
    let stream := TokenStream.ofTree bytes.toArray tree
    ⟨stream, [⟨.debug, "Tokenized " ++ ofNat bytes.length ++ " bytes into " ++ ofNat stream.size ++
      " tokens"⟩]⟩

/-- Asks the token stream of a source; there is no answer where it has none. -/
def lookUp {α : Type} (parser : Parser) (source : Text) (ask : TokenStream → Logged (Option α)) :
    Logged (Option α) :=
  match tokenize parser source with
  | .error fault => ⟨none, [⟨.debug, "Tokenization failed: " ++ fault.message⟩]⟩
  | .ok stream => stream.andThen ask

/-- The span of the comment attached to the token at the index. -/
def docSpan (parser : Parser) (source : Text) (anchor : Int) : Logged (Option Location) :=
  lookUp parser source fun stream => stream.hiddenTokens.docSpan anchor

/-- The comment attached to the token at the index. -/
def docComment (parser : Parser) (source : Text) (everyParam : Bool) (anchor : Int) :
    Logged (Option DocComment) :=
  lookUp parser source fun stream => stream.hiddenTokens.docComment everyParam anchor

/-- The comment of the declaration whose first token is the first significant one at or after the
place. -/
def docCommentAt (parser : Parser) (source : Text) (everyParam : Bool) (line column : Int) :
    Logged (Option DocComment) :=
  lookUp parser source fun stream =>
    match stream.firstFrom line column with
    | none => .quiet none
    | some anchor => stream.hiddenTokens.docComment everyParam anchor

end ApexComments.Source
