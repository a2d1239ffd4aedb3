import ApexComments.Token

/-!
# Token streams

A stream is a list of tokens in which each token carries its own position. Between two significant
tokens lies a run of hidden ones; the lookups ask for the run before or after a position, and for
the significant token at or after a place in the source.
-/
namespace ApexComments

/-- A token whose index is not its position. -/
structure Misplaced where
  position : Nat
  index : Int
  deriving DecidableEq, Repr

/-- The words for a misplaced token. -/
def Misplaced.message (fault : Misplaced) : Text :=
  "Token at position " ++ Text.ofNat fault.position ++ " has token_index " ++ Text.ofInt fault.index

/-- An index outside a stream of the given size. -/
structure OutOfRange where
  index : Int
  size : Nat
  deriving DecidableEq, Repr

/-- The words for an index outside the stream. -/
def OutOfRange.message (fault : OutOfRange) : Text :=
  Text.ofInt fault.index ++ " not in 0.." ++ Text.ofInt (fault.size - 1)

/-- The first token from the position on whose index is not its position. -/
def Misplaced.first? (position : Nat) : List Token → Option Misplaced
  | [] => none
  | token :: rest =>
    if token.index = position then first? (position + 1) rest else some ⟨position, token.index⟩

theorem Misplaced.index_of_first?_eq_none {tokens : List Token} {position : Nat}
    (placed : Misplaced.first? position tokens = none) (i : Nat) (inside : i < tokens.length) :
    tokens[i].index = (position + i : Nat) := by
  induction tokens generalizing position i with
  | nil => simp at inside
  | cons token rest ih =>
    rw [first?] at placed
    split at placed
    · next here =>
      cases i with
      | zero => simpa using here
      | succ j =>
        have later := ih placed j (by simpa using inside)
        rw [List.getElem_cons_succ, later]
        congr 1
        omega
    · simp at placed

/-- A list of tokens, each with its position as index. -/
@[ext] structure TokenStream where
  tokens : List Token
  /-- Every token carries its position. -/
  indexed : ∀ (i : Nat) (inside : i < tokens.length), tokens[i].index = i

namespace TokenStream

/-- The stream of the tokens, or the first token that is misplaced. -/
def ofTokens (tokens : List Token) : Except Misplaced TokenStream :=
  match found : Misplaced.first? 0 tokens with
  | some fault => .error fault
  | none => .ok ⟨tokens, fun i inside => by
      simpa using Misplaced.index_of_first?_eq_none found i inside⟩

/-- The number of tokens. -/
def size (stream : TokenStream) : Nat := stream.tokens.length

/-- The position that an index names. -/
def position (stream : TokenStream) (index : Int) : Except OutOfRange (Fin stream.size) :=
  if inside : 0 ≤ index ∧ index < stream.size then .ok ⟨index.toNat, by omega⟩
  else .error ⟨index, stream.size⟩

/-- The token at an index. -/
def get (stream : TokenStream) (index : Int) : Except OutOfRange Token :=
  (stream.position index).map fun i => stream.tokens.get i

/-- The hidden tokens directly before a position. -/
def leftRun (stream : TokenStream) (i : Nat) : List Token :=
  ((stream.tokens.take i).reverse.takeWhile Token.isHidden).reverse

/-- The hidden tokens directly after a position. -/
def rightRun (stream : TokenStream) (i : Nat) : List Token :=
  (stream.tokens.drop (i + 1)).takeWhile Token.isHidden

/-- A run that holds a token; an empty run counts as none. -/
def someRun (run : List Token) : Option (List Token) := if run.isEmpty then none else some run

/-- The run of hidden tokens that ends before an index, if any. -/
def hiddenLeft (stream : TokenStream) (index : Int) : Except OutOfRange (Option (List Token)) :=
  (stream.position index).map fun i => someRun (stream.leftRun i)

/-- The run of hidden tokens that starts after an index, if any. -/
def hiddenRight (stream : TokenStream) (index : Int) : Except OutOfRange (Option (List Token)) :=
  (stream.position index).map fun i => someRun (stream.rightRun i)

/-- The last significant token before a position. -/
def significantBefore (stream : TokenStream) (i : Nat) : Option Token :=
  (stream.tokens.take i).reverse.find? fun token => !token.isHidden

/-- The last significant token before an index, if any. -/
def lastBefore (stream : TokenStream) (index : Int) : Except OutOfRange (Option Token) :=
  (stream.position index).map fun i => stream.significantBefore i

/-- The position of the first significant token that starts at or after a line and column. -/
def firstFrom (stream : TokenStream) (line column : Int) : Option Nat :=
  stream.tokens.findIdx? fun token =>
    !token.isHidden && (line < token.line || (line == token.line && column ≤ token.column))

/-- The position of the first significant token that starts at or after a byte offset. -/
def firstFromByte (stream : TokenStream) (offset : Int) : Option Nat :=
  stream.tokens.findIdx? fun token => !token.isHidden && offset ≤ token.startByte

end TokenStream

end ApexComments
