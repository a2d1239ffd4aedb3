import ApexComments.Comment.Doc
import ApexComments.Log
import ApexComments.Token.Stream

/-!
# Looking up the comment of a declaration

The comment of a declaration is the documentation comment nearest before its first significant
token. A lookup asks a token source for the hidden tokens left of that anchor and right of the token
before it; of the documentation comments among both, the one of greatest index is taken. Any source
that answers these two questions will do, and it may fail to.
-/
namespace ApexComments

/-- Why a lookup has no answer. -/
inductive LookupError where
  /-- The anchor lies outside the stream. -/
  | outOfRange (fault : OutOfRange)
  /-- A token has no text to look at. -/
  | unreadable
  /-- The token source failed for a reason of its own. -/
  | failed (message : Text)
  deriving DecidableEq, Repr

/-- The words for a failed lookup. -/
def LookupError.message : LookupError → Text
  | outOfRange fault => fault.message
  | unreadable => "'NoneType' object has no attribute 'strip'"
  | failed message => message

/-- What a lookup asks of a token source: the hidden tokens directly left and directly right of an
index. A token without text is `none`. -/
structure HiddenTokens where
  left : Int → Except LookupError (List (Option Token))
  right : Int → Except LookupError (List (Option Token))

/-- A token stream as a token source. -/
def TokenStream.hiddenTokens (stream : TokenStream) : HiddenTokens where
  left index := match stream.hiddenLeft index with
    | .ok run => .ok ((run.getD []).map some)
    | .error fault => .error (.outOfRange fault)
  right index := match stream.hiddenRight index with
    | .ok run => .ok ((run.getD []).map some)
    | .error fault => .error (.outOfRange fault)

namespace HiddenTokens

/-- The hidden tokens before the anchor: those left of it, then those right of the token before it.
The two runs may overlap. -/
def candidates (source : HiddenTokens) (anchor : Int) : Except LookupError (List (Option Token)) :=
  match source.left anchor with
  | .error fault => .error fault
  | .ok before =>
    if 0 < anchor then
      match source.right (anchor - 1) with
      | .error fault => .error fault
      | .ok after => .ok (before ++ after)
    else .ok before

/-- The tokens themselves, if all of them have text. -/
def readable : List (Option Token) → Except LookupError (List Token)
  | [] => .ok []
  | none :: _ => .error .unreadable
  | some token :: rest => (readable rest).map (token :: ·)

/-- The token of greatest index; of several, the first. -/
def latest? : List Token → Option Token
  | [] => none
  | token :: rest => match latest? rest with
    | none => some token
    | some later => if token.index < later.index then some later else some token

/-- The documentation comment attached to the anchor. -/
def nearestDoc (source : HiddenTokens) (anchor : Int) : Except LookupError (Option Token) :=
  match source.candidates anchor with
  | .error fault => .error fault
  | .ok tokens =>
    (readable tokens).map fun tokens => latest? (tokens.filter fun token => Comment.isDoc token.text)

/-- Turns a failed lookup into an absent answer, with a row that says what failed. -/
def orAbsent {α : Type} (what : Text) (anchor : Int) :
    Except LookupError (Option α) → Logged (Option α)
  | .ok answer => .quiet answer
  | .error fault =>
    ⟨none, [⟨.debug, what ++ " failed at token " ++ Text.ofInt anchor ++ ": " ++ fault.message⟩]⟩

/-- The span of the comment attached to the anchor. -/
def docSpan (source : HiddenTokens) (anchor : Int) : Logged (Option Location) :=
  orAbsent "ApexDoc address lookup" anchor ((source.nearestDoc anchor).map (·.map .ofToken))

/-- The decoded comment attached to the anchor. -/
def docComment (source : HiddenTokens) (everyParam : Bool) (anchor : Int) :
    Logged (Option DocComment) :=
  orAbsent "ApexDoc lookup" anchor
    ((source.nearestDoc anchor).map (·.map (DocComment.ofToken · everyParam)))

end HiddenTokens

end ApexComments
