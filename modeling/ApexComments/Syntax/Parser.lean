import ApexComments.Syntax.Tree
import ApexComments.Text.Basic

/-!
# Parsers

A parser gives the syntax tree of the bytes of a source, or says why it has none; any will do. The
one here reads sources that hold comments, semicolons and blanks only.
-/
namespace ApexComments

/-- Why a parser has no tree. -/
structure ParseFailure where
  message : Text
  deriving DecidableEq, Repr

/-- Gives the syntax tree of a source. -/
abbrev Parser := List UInt8 → Except ParseFailure SyntaxTree

/-- The failure of a parser that does not know the source. -/
def ParseFailure.unknownSource : ParseFailure := ⟨"no parse tree"⟩

namespace Trivia

/-- Where in the source the reader stands; `start` is the offset at which a comment began. -/
inductive State where
  | outside
  | slash (start : Nat)
  | lineComment (start : Nat)
  | blockComment (start : Nat) (afterStar : Bool)
  deriving DecidableEq, Repr

/-- A node without children. -/
def leaf (kind : String) (start stop : Nat) : SyntaxNode :=
  ⟨kind, start, stop, false, false, none⟩

/-- Puts a leaf before those that follow. -/
def before (first : SyntaxNode) (rest : Option (List SyntaxNode)) : Option (List SyntaxNode) :=
  rest.map (first :: ·)

/-- The leaves from the offset on; none where something else than comments, semicolons and blanks
comes. A line comment ends before the line feed; a block comment ends with the first closer after its
opener. -/
def leavesFrom (offset : Nat) (state : State) : List UInt8 → Option (List SyntaxNode)
  | [] => match state with
    | .outside => some []
    | .lineComment start => some [leaf "line_comment" start offset]
    | _ => none
  | b :: rest =>
    match state with
    | .outside =>
      if b = 59 then before (leaf ";" offset (offset + 1)) (leavesFrom (offset + 1) .outside rest)
      else if b = 47 then leavesFrom (offset + 1) (.slash offset) rest
      else if b = 32 || b = 9 || b = 10 || b = 13 then leavesFrom (offset + 1) .outside rest
      else none
    | .slash start =>
      if b = 47 then leavesFrom (offset + 1) (.lineComment start) rest
      else if b = 42 then leavesFrom (offset + 1) (.blockComment start false) rest
      else none
    | .lineComment start =>
      if b = 10 then before (leaf "line_comment" start offset) (leavesFrom (offset + 1) .outside rest)
      else leavesFrom (offset + 1) (.lineComment start) rest
    | .blockComment start afterStar =>
      if afterStar && b = 47 then
        before (leaf "block_comment" start (offset + 1)) (leavesFrom (offset + 1) .outside rest)
      else leavesFrom (offset + 1) (.blockComment start (b = 42)) rest

/-- Reads sources of comments, semicolons and blanks. The root of a source without leaves is empty,
so that it is no leaf itself. -/
def parse : Parser := fun source =>
  match leavesFrom 0 .outside source with
  | none => .error .unknownSource
  | some [] => .ok (.node (leaf "program" 0 0) [])
  | some leaves => .ok (.node (leaf "program" 0 source.length) (leaves.map (.node · [])))

end Trivia

end ApexComments
