import ApexComments.Source
import ApexComments.Text.Word

/-!
# Declarations

The declarations of a source are nodes of its syntax tree. Each is anchored at its first significant
token. The grammar does not know every modifier, and its error recovery makes some of them up into
declarations of their own or into errors before the declaration proper. Such a spill is no
declaration, and the anchor of the declaration that follows is moved back over it.
-/
namespace ApexComments

open Text

/-- The kinds of declaration that carry documentation. -/
inductive DeclarationKind where
  | classType
  | interfaceType
  | enumType
  | constructor
  | method
  | field
  deriving DecidableEq, Repr

namespace DeclarationKind

/-- The word for a kind. -/
def label : DeclarationKind → Text
  | classType => "class"
  | interfaceType => "interface"
  | enumType => "enum"
  | constructor => "constructor"
  | method => "method"
  | field => "field"

/-- The kind of declaration that the grammar's name for a node stands for. -/
def ofNodeKind? (kind : String) : Option DeclarationKind :=
  if kind = "class_declaration" then some classType
  else if kind = "interface_declaration" then some interfaceType
  else if kind = "enum_declaration" then some enumType
  else if kind = "constructor_declaration" then some constructor
  else if kind = "method_declaration" then some method
  else if kind = "field_declaration" then some field
  else if kind = "constant_declaration" then some field
  else none

end DeclarationKind

namespace SyntaxNode

/-- The text of a node. -/
def text (source : Array UInt8) (node : SyntaxNode) : Text := decode (slice source node.start node.stop)

/-- Whether only blanks lie between the end of one node and the start of another. -/
def touches (source : Array UInt8) (left right : SyntaxNode) : Bool :=
  blankBytes (slice source left.stop right.start)

/-- Whether the node is of a kind that carries documentation. -/
def isDeclaration (node : SyntaxNode) : Bool := (DeclarationKind.ofNodeKind? node.kind).isSome

/-- A missing node, or an error that holds no brace and no semicolon: nothing but stray modifiers. -/
def isStrayModifiers (source : Array UInt8) (node : SyntaxNode) : Bool :=
  node.missing ||
    (node.kind == "ERROR" && !(node.text source).any fun c => c == '{' || c == '}' || c == ';')

/-- A declaration of a kind that error recovery makes up out of modifiers. -/
def isFieldLike (node : SyntaxNode) : Bool :=
  node.kind == "field_declaration" || node.kind == "local_variable_declaration" ||
    node.kind == "constant_declaration"

/-- A node with an error whose text does not end in a semicolon. -/
def isCutShort (source : Array UInt8) (node : SyntaxNode) : Bool :=
  node.hasError && (trimEnd (node.text source)).getLast? != some ';'

/-- Modifiers that error recovery set apart from their declaration. -/
def isDetachedModifiers (source : Array UInt8) (node : SyntaxNode) : Bool :=
  if node.isFieldLike then node.isCutShort source else node.isStrayModifiers source

end SyntaxNode

namespace SyntaxTree

/-- Whether a declaration follows with nothing but stray modifiers between. -/
def declarationFollows (source : Array UInt8) (current : SyntaxNode) : List SyntaxTree → Bool
  | [] => false
  | next :: rest =>
    if next.root.isStrayModifiers source && current.touches source next.root then
      declarationFollows source next.root rest
    else next.root.isDeclaration && current.touches source next.root

/-- The start of the farthest node reached by stepping back over detached modifiers. -/
def modifiersStart? (source : Array UInt8) (current : SyntaxNode) : List SyntaxTree → Option Nat
  | [] => none
  | previous :: rest =>
    if previous.root.isDetachedModifiers source && previous.root.touches source current then
      some ((modifiersStart? source previous.root rest).getD previous.root.start)
    else none

namespace Site

/-- A declaration made up of the modifiers of the declaration after it. -/
def isSpill (source : Array UInt8) (site : Site) : Bool :=
  site.tree.root.isFieldLike && site.tree.root.isCutShort source &&
    declarationFollows source site.tree.root site.after

/-- How far back the header of a declaration may reach: to the start of the detached modifiers
before it, or of the error that holds it. -/
def floor? (source : Array UInt8) (site : Site) : Option Nat :=
  let modifiers := modifiersStart? source site.tree.root site.before
  match site.parent with
  | some parent =>
    if parent.kind = "ERROR" then
      some (match modifiers with
        | some start => min start parent.start
        | none => parent.start)
    else modifiers
  | none => modifiers

end Site

end SyntaxTree

/-- Tokens that end a statement or open or close a block. -/
def Token.isStatementBreak (token : Token) : Bool :=
  token.text == (['{'] : Text) || token.text == (['}'] : Text) || token.text == ([';'] : Text)

/-- Walks back over the tokens, nearest first, of which the next stands at position `rest.length`:
blanks are passed, and tokens of the header are taken in. `reached` is the position taken in last. -/
def headerStart (floor : Int) (reached : Nat) : List Token → Nat
  | [] => reached
  | token :: rest =>
    if token.isHidden && allBlank token.text then headerStart floor reached rest
    else if token.isHidden || token.startByte < floor || token.isStatementBreak then reached
    else headerStart floor rest.length rest

namespace TokenStream

/-- Moves an anchor back over the tokens of its header: up to a comment, a statement break or the
floor. An anchor up to one past the last token is inside. -/
def widen (stream : TokenStream) (anchor : Int) (floor : Int) : Except OutOfRange Int :=
  if anchor ≤ 0 then .ok anchor
  else if stream.size < anchor then .error ⟨anchor - 1, stream.size⟩
  else .ok (headerStart floor anchor.toNat (stream.tokens.take anchor.toNat).reverse)

end TokenStream

/-- A declaration with the token that it is anchored at. -/
structure Anchor where
  kind : DeclarationKind
  name : Option Text
  index : Nat
  line : Int
  deriving DecidableEq, Repr

namespace SyntaxTree

/-- The word before the parameter list of a declaration, if it lies in the declaration. -/
def callableName? (stream : TokenStream) (tree : SyntaxTree) : Option Text :=
  match tree.childByField? "parameters" with
  | none => none
  | some params =>
    match stream.firstFromByte params.root.start with
    | none => none
    | some i =>
      match stream.significantBefore i with
      | none => none
      | some token =>
        if tree.root.start ≤ token.startByte && isWord token.text then some token.text else none

/-- The node that the grammar marks as the name of a declaration. -/
def nameNode? (tree : SyntaxTree) : Option SyntaxNode :=
  match tree.childByField? "name" with
  | some name => some name.root
  | none =>
    match tree.childByField? "declarator" with
    | some declarator => (declarator.childByField? "name").map root
    | none => none

/-- The name of a declaration. -/
def declaredName? (source : Array UInt8) (stream : TokenStream) (tree : SyntaxTree) : Option Text :=
  match tree.callableName? stream with
  | some name => some name
  | none => tree.nameNode?.map (·.text source)

end SyntaxTree

namespace Anchor

/-- The anchored position of a declaration: its first significant token, moved back over the
detached modifiers before it. -/
def positionOf? (source : Array UInt8) (stream : TokenStream) (site : SyntaxTree.Site) : Option Nat :=
  (stream.firstFromByte site.tree.root.start).map fun first =>
    match site.floor? source with
    | none => first
    | some floor => headerStart floor first (stream.tokens.take first).reverse

/-- The anchor of the node at a site, if it is a declaration, no spill, and a significant token starts
at or after it. -/
def ofSite? (source : Array UInt8) (stream : TokenStream) (site : SyntaxTree.Site) : Option Anchor :=
  match DeclarationKind.ofNodeKind? site.tree.root.kind with
  | none => none
  | some kind =>
    if site.isSpill source then none
    else match positionOf? source stream site with
      | none => none
      | some i => (stream.tokens[i]?).map fun token =>
          ⟨kind, site.tree.declaredName? source stream, i, token.line⟩

/-- The row logged for a spill. -/
def spillRow? (source : Array UInt8) (site : SyntaxTree.Site) : Option LogRow :=
  if site.tree.root.isDeclaration && site.isSpill source then
    some ⟨.debug, "Skipping recovered modifiers at line " ++
      Text.ofNat (Place.lineAt source site.tree.root.start)⟩
  else none

end Anchor

/-- The token stream of a source and the anchors of its declarations. -/
structure Scan where
  stream : TokenStream
  anchors : List Anchor

namespace Scan

/-- Anchors in the order of their positions; those of one position keep the order of the tree. -/
def ordered (anchors : List Anchor) : List Anchor :=
  anchors.mergeSort fun a b => a.index ≤ b.index

/-- Scans the bytes of a source with its syntax tree. -/
def ofTree (source : Array UInt8) (tree : SyntaxTree) : Logged Scan :=
  let stream := TokenStream.ofTree source tree
  let anchors := ordered (tree.sites.filterMap (Anchor.ofSite? source stream))
  { value := ⟨stream, anchors⟩
    rows := tree.sites.filterMap (Anchor.spillRow? source) ++
      [⟨.debug, "Found " ++ Text.ofNat anchors.length ++ " declarations"⟩] }

/-- Scans a source. -/
def ofSource (parser : Parser) (source : Text) : Except ParseFailure (Logged Scan) :=
  let bytes := utf8 source
  (parser bytes).map (ofTree bytes.toArray)

end Scan

end ApexComments
