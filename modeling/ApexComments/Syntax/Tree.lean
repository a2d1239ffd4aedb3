/-!
# Syntax trees

A parser describes a source by a tree of nodes. Each node spans a stretch of the source bytes; spans
need not be nested or ordered. A node may be missing (made up by error recovery, without width) or
hold an error.
-/
namespace ApexComments

/-- What a parser says of one node. -/
structure SyntaxNode where
  /-- The grammar's name for the node. -/
  kind : String
  start : Nat
  stop : Nat
  /-- Error recovery made the node up. -/
  missing : Bool
  /-- An error lies in the node or below it. -/
  hasError : Bool
  /-- The part that the node plays in its parent. -/
  field : Option String
  deriving DecidableEq, Repr

namespace SyntaxNode

/-- Comments, of whatever form. -/
def isComment (node : SyntaxNode) : Bool :=
  node.kind == "line_comment" || node.kind == "block_comment" || node.kind == "comment"

/-- Nodes that are one token even where the parser gives them children. -/
def isAtomic (node : SyntaxNode) : Bool :=
  node.isComment || node.kind == "string_literal" || node.kind == "character_literal" ||
    node.kind == "text_block"

/-- Whether the node covers no byte. -/
def isEmpty (node : SyntaxNode) : Bool := node.stop ≤ node.start

end SyntaxNode

/-- A node with the trees below it, in order. -/
inductive SyntaxTree where
  | node (root : SyntaxNode) (children : List SyntaxTree)
  deriving Repr

namespace SyntaxTree

/-- The topmost node. -/
def root : SyntaxTree → SyntaxNode
  | node root _ => root

/-- The trees directly below the topmost node. -/
def children : SyntaxTree → List SyntaxTree
  | node _ children => children

/-- The first child that plays the part. -/
def childByField? (tree : SyntaxTree) (field : String) : Option SyntaxTree :=
  tree.children.find? fun child => child.root.field == some field

mutual

/-- The leaves in source order of the tree: nodes with some width that have no children or are
atomic. Nothing is looked for below an empty or an atomic node. -/
def leaves : SyntaxTree → List SyntaxNode
  | node root children =>
    if root.isEmpty then []
    else if children.isEmpty || root.isAtomic then [root]
    else leavesOfAll children

/-- The leaves of several trees, one tree after the other. -/
def leavesOfAll : List SyntaxTree → List SyntaxNode
  | [] => []
  | tree :: rest => leaves tree ++ leavesOfAll rest

end

/-- A tree in its surroundings: its parent's node and its siblings, those before it nearest first. -/
structure Site where
  parent : Option SyntaxNode
  before : List SyntaxTree
  tree : SyntaxTree
  after : List SyntaxTree
  deriving Repr

mutual

/-- Every tree below a tree and itself, in pre-order, each in its surroundings. -/
def sitesWithin (parent : Option SyntaxNode) (before after : List SyntaxTree) :
    SyntaxTree → List Site
  | node root children =>
    ⟨parent, before, node root children, after⟩ :: sitesAmong root [] children

/-- The sites of trees that stand side by side after the given siblings. -/
def sitesAmong (parent : SyntaxNode) (before : List SyntaxTree) : List SyntaxTree → List Site
  | [] => []
  | tree :: rest => sitesWithin (some parent) before rest tree ++ sitesAmong parent (tree :: before) rest

end

/-- Every node of the tree in pre-order, with its surroundings. -/
def sites (tree : SyntaxTree) : List Site := sitesWithin none [] [] tree

end SyntaxTree

end ApexComments
