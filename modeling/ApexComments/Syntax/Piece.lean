import ApexComments.Syntax.Place
import ApexComments.Syntax.Tree
import ApexComments.Token.Stream

/-!
# Source pieces

The leaves of a syntax tree are laid out over the source bytes without gap or overlap: a leaf that
starts inside an earlier one is passed over, and the bytes between two leaves become a piece of their
own. Documentation lines on consecutive lines are then fused into one piece. The pieces, decoded and
numbered, are the token stream of the source.
-/
namespace ApexComments

open Text

/-- A stretch of the source that becomes one token. -/
structure Piece where
  start : Nat
  stop : Nat
  kind : String
  hidden : Bool
  deriving DecidableEq, Repr

namespace Piece

/-- The bytes of a piece. -/
def bytes (source : Array UInt8) (piece : Piece) : List UInt8 := slice source piece.start piece.stop

/-- The piece between two leaves: hidden where it is blank. -/
def ofGap (source : Array UInt8) (start stop : Nat) : Piece :=
  if blankBytes (slice source start stop) then ⟨start, stop, "whitespace", true⟩
  else ⟨start, stop, "unknown", false⟩

/-- Comments are told apart by how they open. -/
def commentKind (bytes : List UInt8) : String :=
  if [47, 42].isPrefixOf bytes then "block_comment" else "line_comment"

/-- The piece of a leaf: hidden where it is a comment. -/
def ofLeaf (source : Array UInt8) (leaf : SyntaxNode) : Piece :=
  if leaf.isComment then
    ⟨leaf.start, leaf.stop, commentKind (slice source leaf.start leaf.stop), true⟩
  else ⟨leaf.start, leaf.stop, leaf.kind, false⟩

/-- The gap between two offsets, if there is one. -/
def gapBetween (source : Array UInt8) (start stop : Nat) : List Piece :=
  if start < stop then [ofGap source start stop] else []

/-- Lays the leaves out over the source from the cursor on. -/
def layOut (source : Array UInt8) (cursor : Nat) : List SyntaxNode → List Piece
  | [] => gapBetween source cursor source.size
  | leaf :: rest =>
    if leaf.start < cursor then layOut source cursor rest
    else gapBetween source cursor leaf.start ++ ofLeaf source leaf :: layOut source leaf.stop rest

/-- A comment that is a documentation line. -/
def isDocLine (source : Array UInt8) (piece : Piece) : Bool :=
  piece.kind == "line_comment" && [47, 47, 47].isPrefixOf (piece.bytes source)

/-- Blanks that go from one line to the next. -/
def isLineStep (source : Array UInt8) (piece : Piece) : Bool :=
  piece.kind == "whitespace" && lineFeeds (piece.bytes source) == 1

/-- Cuts the pieces into groups: the longest runs of documentation lines on consecutive lines, and
every other piece by itself. -/
def docLineGroups (source : Array UInt8) : List Piece → List (List Piece)
  | [] => []
  | piece :: rest =>
    match docLineGroups source rest with
    | [step] :: (next :: run) :: groups =>
      if isDocLine source piece && isLineStep source step && isDocLine source next then
        (piece :: step :: next :: run) :: groups
      else [piece] :: [step] :: (next :: run) :: groups
    | groups => [piece] :: groups

/-- A group as one piece. -/
def fuse : List Piece → Option Piece
  | [] => none
  | [piece] => some piece
  | first :: second :: rest =>
    some ⟨first.start, (rest.getLastD second).stop, "doc_line_comment", true⟩

/-- The pieces with each run of documentation lines as one piece. -/
def fuseDocLines (source : Array UInt8) (pieces : List Piece) : List Piece :=
  (docLineGroups source pieces).filterMap fuse

/-- The pieces of a source with the given syntax tree. -/
def ofTree (source : Array UInt8) (tree : SyntaxTree) : List Piece :=
  fuseDocLines source (layOut source 0 tree.leaves)

/-- The token of the piece at a position of the stream. -/
def toToken (source : Array UInt8) (position : Nat) (piece : Piece) : Token where
  text := decode (piece.bytes source)
  index := position
  line := Place.lineAt source piece.start
  column := Place.columnAt source piece.start
  channel := if piece.hidden then Token.hiddenChannel else 0
  kind := piece.kind
  startByte := piece.start

/-- The token of a piece, its place found by the starts of the lines. -/
def toTokenBy (source : Array UInt8) (starts : List Nat) (position : Nat) (piece : Piece) : Token :=
  let (line, column) := Place.find source starts piece.start
  { text := decode (piece.bytes source)
    index := position
    line := line
    column := column
    channel := if piece.hidden then Token.hiddenChannel else 0
    kind := piece.kind
    startByte := piece.start }

theorem toTokenBy_lineStarts (source : Array UInt8) :
    toTokenBy source (Place.lineStarts source) = toToken source := by
  funext position piece
  rw [toTokenBy, Place.find_lineStarts]
  rfl

end Piece

/-- The stream of the pieces, numbered in order. -/
def TokenStream.ofPieces (source : Array UInt8) (pieces : List Piece) : TokenStream where
  tokens := pieces.mapIdx (Piece.toTokenBy source (Place.lineStarts source))
  indexed := by
    intro i inside
    simp [Piece.toTokenBy_lineStarts, Piece.toToken]

theorem TokenStream.tokens_ofPieces (source : Array UInt8) (pieces : List Piece) :
    (ofPieces source pieces).tokens = pieces.mapIdx (Piece.toToken source) :=
  congrArg pieces.mapIdx (Piece.toTokenBy_lineStarts source)

/-- The token stream of a source with the given syntax tree. -/
def TokenStream.ofTree (source : Array UInt8) (tree : SyntaxTree) : TokenStream :=
  .ofPieces source (Piece.ofTree source tree)

end ApexComments
