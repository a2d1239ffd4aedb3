import ApexComments.Proofs.Nesting
import ApexComments.Proofs.Tiling

/-!
# What is hidden

Bytes are hidden in three ways: in the piece of a comment, in a blank gap, and in a fused piece, which holds
comments and blank gaps only (`Piece.of_mem_docLineGroups`). So no byte of code is hidden. In a well-nested tree
no leaf is passed over, and every leaf that is no comment stays a token of its own.
-/
namespace ApexComments

open Text

namespace Piece

variable {source : Array UInt8} {leaves : List SyntaxNode} {piece : Piece} {cursor offset : Nat}

/-! ## Where pieces come from -/

/-- A piece as it is laid out: that of a leaf, or that of a gap. -/
def Laid (source : Array UInt8) (leaves : List SyntaxNode) (piece : Piece) : Prop :=
  (∃ leaf ∈ leaves, piece = ofLeaf source leaf) ∨ ∃ start stop, piece = ofGap source start stop

theorem laid_of_mem_gapBetween {start stop : Nat} (member : piece ∈ gapBetween source start stop) :
    Laid source leaves piece := by
  rw [gapBetween] at member
  split at member
  · exact .inr ⟨start, stop, List.mem_singleton.mp member⟩
  · simp at member

theorem laid_of_mem_layOut (member : piece ∈ layOut source cursor leaves) : Laid source leaves piece := by
  induction leaves generalizing cursor with
  | nil => exact laid_of_mem_gapBetween member
  | cons leaf rest ih =>
    have among {cursor : Nat} (later : piece ∈ layOut source cursor rest) : Laid source (leaf :: rest) piece := by
      rcases ih later with ⟨other, isLeaf, same⟩ | gap
      · exact .inl ⟨other, List.mem_cons_of_mem leaf isLeaf, same⟩
      · exact .inr gap
    rw [layOut] at member
    split at member
    · exact among member
    · rcases List.mem_append.mp member with gap | onward
      · exact laid_of_mem_gapBetween gap
      · rcases List.mem_cons.mp onward with same | later
        · exact .inl ⟨leaf, List.mem_cons_self, same⟩
        · exact among later

theorem ofLeaf_hidden (source : Array UInt8) (leaf : SyntaxNode) : (ofLeaf source leaf).hidden = leaf.isComment := by
  rw [ofLeaf]
  split
  · next comment => exact comment.symm
  · next code => simpa using code

theorem ofLeaf_kind {leaf : SyntaxNode} (code : leaf.isComment = false) : (ofLeaf source leaf).kind = leaf.kind := by
  rw [ofLeaf, if_neg (by simp [code])]

theorem hidden_of_isDocLine (laid : Laid source leaves piece) (isLine : isDocLine source piece = true) :
    piece.hidden = true := by
  have kind : piece.kind = "line_comment" := by
    simp only [isDocLine, Bool.and_eq_true, beq_iff_eq] at isLine
    exact isLine.1
  rcases laid with ⟨leaf, -, rfl⟩ | ⟨start, stop, rfl⟩
  · rw [ofLeaf_hidden]
    by_contra code
    have noComment : leaf.isComment = false := by simpa using code
    rw [ofLeaf_kind noComment] at kind
    simp [SyntaxNode.isComment, kind] at noComment
  · rw [ofGap] at kind
    split at kind <;> simp at kind

theorem hidden_of_isLineStep (laid : Laid source leaves piece) (noBlank : ∀ leaf ∈ leaves, leaf.kind ≠ "whitespace")
    (isStep : isLineStep source piece = true) : piece.hidden = true := by
  have kind : piece.kind = "whitespace" := by
    simp only [isLineStep, Bool.and_eq_true, beq_iff_eq] at isStep
    exact isStep.1
  rcases laid with ⟨leaf, member, rfl⟩ | ⟨start, stop, rfl⟩
  · rw [ofLeaf_hidden]
    by_contra code
    have noComment : leaf.isComment = false := by simpa using code
    rw [ofLeaf_kind noComment] at kind
    exact noBlank leaf member kind
  · rw [ofGap] at kind ⊢
    split at kind
    · rw [if_pos (by assumption)]
    · simp at kind

/-- The byte at an offset is blank, or one of the comments holds it. -/
def NoCodeAt (source : Array UInt8) (leaves : List SyntaxNode) (offset : Nat) : Prop :=
  (∃ byte, source[offset]? = some byte ∧ isBlankByte byte = true) ∨
    ∃ leaf ∈ leaves, leaf.isComment = true ∧ leaf.start ≤ offset ∧ offset < leaf.stop

theorem mem_slice {start stop : Nat} (low : start ≤ offset) (high : offset < stop) {byte : UInt8}
    (here : source[offset]? = some byte) : byte ∈ slice source start stop := by
  rw [slice_eq_drop_take]
  refine List.mem_of_getElem? (i := offset - start) ?_
  rw [List.getElem?_drop, List.getElem?_take, if_pos (by omega), show start + (offset - start) = offset by omega,
    Array.getElem?_toList, here]

theorem noCodeAt_of_hidden (laid : Laid source leaves piece) (hidden : piece.hidden = true)
    (low : piece.start ≤ offset) (high : offset < piece.stop) (inside : offset < source.size) :
    NoCodeAt source leaves offset := by
  rcases laid with ⟨leaf, member, rfl⟩ | ⟨start, stop, rfl⟩
  · rw [ofLeaf_hidden] at hidden
    rw [ofLeaf_start] at low
    rw [ofLeaf_stop] at high
    exact .inr ⟨leaf, member, hidden, low, high⟩
  · rw [ofGap_start] at low
    rw [ofGap_stop] at high
    rw [ofGap] at hidden
    split at hidden
    · next blank =>
      have here : source[offset]? = some source[offset] := Array.getElem?_eq_getElem inside
      exact .inl ⟨source[offset], here, List.all_eq_true.mp blank _ (mem_slice low high here)⟩
    · cases hidden

/-! ## What is fused -/

/-- A group of several pieces holds documentation lines and the blanks between them only. -/
theorem of_mem_docLineGroups {pieces group : List Piece} (member : group ∈ docLineGroups source pieces) :
    (∃ piece, group = [piece]) ∨
      ∀ piece ∈ group, isDocLine source piece = true ∨ isLineStep source piece = true := by
  induction pieces generalizing group with
  | nil => simp [docLineGroups] at member
  | cons piece rest ih =>
    rw [docLineGroups] at member
    split at member
    · next step next run groups grouped =>
      rw [grouped] at ih
      split at member
      · next fits =>
        simp only [Bool.and_eq_true] at fits
        obtain ⟨⟨isLine, isStep⟩, isNext⟩ := fits
        rcases List.mem_cons.mp member with rfl | later
        · refine .inr (List.forall_mem_cons.mpr ⟨.inl isLine, List.forall_mem_cons.mpr ⟨.inr isStep, ?_⟩⟩)
          -- The group that is put on to is a single documentation line or a run already.
          rcases @ih (next :: run) (by simp) with ⟨only, single⟩ | all
          · obtain ⟨-, rfl⟩ := List.cons.inj single
            exact List.forall_mem_singleton.mpr (.inl isNext)
          · exact all
        · exact ih (by simp [later])
      · rcases List.mem_cons.mp member with rfl | later
        · exact .inl ⟨piece, rfl⟩
        · exact ih later
    · rcases List.mem_cons.mp member with rfl | later
      · exact .inl ⟨piece, rfl⟩
      · exact ih later

private theorem exists_tiles_of_mem {groups : List (List Piece)} {group : List Piece} {start stop : Nat}
    (tiles : Tiles start groups.flatten stop) (member : group ∈ groups) : ∃ low high, Tiles low group high := by
  obtain ⟨front, back, rfl⟩ := List.append_of_mem member
  rw [List.flatten_append, List.flatten_cons] at tiles
  obtain ⟨low, -, onward⟩ := tiles_append_iff.mp tiles
  obtain ⟨high, here, -⟩ := tiles_append_iff.mp onward
  exact ⟨low, high, here⟩

/-- The pieces of a group tile the piece that they are fused into. -/
theorem exists_fused {pieces group : List Piece} {start stop : Nat} (tiles : Tiles start pieces stop)
    (member : group ∈ docLineGroups source pieces) :
    ∃ piece, fuse group = some piece ∧ Tiles piece.start group piece.stop := by
  rw [← flatten_docLineGroups source pieces] at tiles
  obtain ⟨low, high, here⟩ := exists_tiles_of_mem tiles member
  obtain ⟨piece, fused, begins, -, ends⟩ := exists_fuse_of_tiles (ne_nil_of_mem_docLineGroups member) here
  have same : piece.stop = high := ends
  refine ⟨piece, fused, ?_⟩
  rw [begins, same]
  exact here

theorem Tiles.exists_holding {pieces : List Piece} {start stop : Nat} (tiles : Tiles start pieces stop)
    (low : start ≤ offset) (high : offset < stop) : ∃ piece ∈ pieces, piece.start ≤ offset ∧ offset < piece.stop := by
  induction pieces generalizing start with
  | nil =>
    have same : start = stop := tiles
    omega
  | cons first rest ih =>
    obtain ⟨begins, -, later⟩ := tiles
    by_cases here : offset < first.stop
    · exact ⟨first, List.mem_cons_self, by omega, here⟩
    · obtain ⟨piece, member, holds⟩ := ih later (by omega)
      exact ⟨piece, List.mem_cons_of_mem first member, holds⟩

/-! ## The pieces of a tree -/

section tree

variable {tree : SyntaxTree} {leaf : SyntaxNode}

theorem laid_of_mem_group {group : List Piece} (among : group ∈ docLineGroups source (layOut source 0 tree.leaves))
    (member : piece ∈ group) : Laid source tree.leaves piece := by
  refine @laid_of_mem_layOut source tree.leaves piece 0 ?_
  rw [← flatten_docLineGroups source (layOut source 0 tree.leaves)]
  exact List.mem_flatten.mpr ⟨group, among, member⟩

/-- All pieces of a group are hidden, unless the group is a single piece. -/
theorem hidden_of_mem_group (noBlank : tree.Every fun node => node.kind ≠ "whitespace") {group : List Piece}
    (among : group ∈ docLineGroups source (layOut source 0 tree.leaves)) :
    (∃ piece, group = [piece]) ∨ ∀ piece ∈ group, piece.hidden = true := by
  rcases of_mem_docLineGroups among with single | lines
  · exact .inl single
  · refine .inr fun piece member => ?_
    have laid := laid_of_mem_group among member
    rcases lines piece member with isLine | isStep
    · exact hidden_of_isDocLine laid isLine
    · exact hidden_of_isLineStep laid (fun leaf isLeaf => (noBlank.of_mem_leaves isLeaf).2) isStep

variable (inside : tree.Every fun node => node.start ≤ source.size ∧ node.stop ≤ source.size)
include inside

/-- No hidden piece holds a byte of code. -/
theorem noCodeAt_of_mem_ofTree (noBlank : tree.Every fun node => node.kind ≠ "whitespace")
    (member : piece ∈ ofTree source tree) (hidden : piece.hidden = true) (low : piece.start ≤ offset)
    (high : offset < piece.stop) : NoCodeAt source tree.leaves offset := by
  have bound := ((tiles_ofTree inside).bounds piece member).2.2
  obtain ⟨group, among, fused⟩ := List.mem_filterMap.mp member
  obtain ⟨whole, same, tiles⟩ := exists_fused (tiles_layOut_leaves inside) among
  obtain rfl : whole = piece := Option.some.inj (same.symm.trans fused)
  rcases hidden_of_mem_group noBlank among with ⟨only, rfl⟩ | allHidden
  · obtain rfl : only = whole := Option.some.inj fused
    exact noCodeAt_of_hidden (laid_of_mem_group among List.mem_cons_self) hidden low high (by omega)
  · obtain ⟨part, isPart, begins, ends⟩ := tiles.exists_holding low high
    exact noCodeAt_of_hidden (laid_of_mem_group among isPart) (allHidden part isPart) begins ends (by omega)

omit inside in
/-- Leaves that follow one another are all laid out. -/
theorem ofLeaf_mem_layOut (ordered : leaves.Pairwise fun leaf later => leaf.stop ≤ later.start)
    (ahead : ∀ leaf ∈ leaves, cursor ≤ leaf.start) (member : leaf ∈ leaves) :
    ofLeaf source leaf ∈ layOut source cursor leaves := by
  induction leaves generalizing cursor with
  | nil => simp at member
  | cons first rest ih =>
    obtain ⟨behind, others⟩ := List.pairwise_cons.mp ordered
    have here := ahead first List.mem_cons_self
    rw [layOut, if_neg (by omega)]
    refine List.mem_append_right _ ?_
    rcases List.mem_cons.mp member with rfl | later
    · exact List.mem_cons_self
    · exact List.mem_cons_of_mem _ (ih others behind later)

theorem exists_group_of_leaf (nested : tree.WellNested) (member : leaf ∈ tree.leaves) :
    ∃ group ∈ docLineGroups source (layOut source 0 tree.leaves), ofLeaf source leaf ∈ group ∧
      ∃ piece ∈ ofTree source tree, fuse group = some piece ∧ Tiles piece.start group piece.stop := by
  have laidOut := @ofLeaf_mem_layOut source tree.leaves 0 leaf nested.pairwise_leaves (by simp) member
  rw [← flatten_docLineGroups source (layOut source 0 tree.leaves)] at laidOut
  obtain ⟨group, among, inGroup⟩ := List.mem_flatten.mp laidOut
  obtain ⟨piece, fused, tiles⟩ := exists_fused (tiles_layOut_leaves inside) among
  exact ⟨group, among, inGroup, piece, List.mem_filterMap.mpr ⟨group, among, fused⟩, fused, tiles⟩

/-- A comment of a well-nested tree lies in one hidden piece. -/
theorem exists_hidden_of_leaf (nested : tree.WellNested) (member : leaf ∈ tree.leaves)
    (comment : leaf.isComment = true) :
    ∃ piece ∈ ofTree source tree, piece.hidden = true ∧ piece.start ≤ leaf.start ∧ leaf.stop ≤ piece.stop := by
  obtain ⟨group, among, inGroup, piece, isPiece, fused, tiles⟩ := exists_group_of_leaf inside nested member
  obtain ⟨begins, -, ends⟩ := tiles.bounds _ inGroup
  rw [ofLeaf_start] at begins
  rw [ofLeaf_stop] at ends
  refine ⟨piece, isPiece, ?_, begins, ends⟩
  match group, fused with
  | [only], fused =>
    obtain rfl : only = piece := Option.some.inj fused
    rw [← List.mem_singleton.mp inGroup, ofLeaf_hidden]
    exact comment
  | first :: second :: rest, fused =>
    obtain rfl := Option.some.inj fused
    rfl

/-- Every other leaf of a well-nested tree is a piece of its own. -/
theorem ofLeaf_mem_ofTree (noBlank : tree.Every fun node => node.kind ≠ "whitespace") (nested : tree.WellNested)
    (member : leaf ∈ tree.leaves) (code : leaf.isComment = false) : ofLeaf source leaf ∈ ofTree source tree := by
  obtain ⟨group, among, inGroup, piece, isPiece, fused, -⟩ := exists_group_of_leaf inside nested member
  rcases hidden_of_mem_group noBlank among with ⟨only, rfl⟩ | allHidden
  · obtain rfl : only = piece := Option.some.inj fused
    rwa [List.mem_singleton.mp inGroup]
  · have hidden := allHidden _ inGroup
    rw [ofLeaf_hidden, code] at hidden
    cases hidden

end tree

end Piece

/-! ## The tokens -/

theorem Piece.isHidden_toToken (source : Array UInt8) (k : Nat) (piece : Piece) :
    (piece.toToken source k).isHidden = piece.hidden := by
  cases hidden : piece.hidden <;> simp [toToken, Token.isHidden, Token.hiddenChannel, hidden]

/-- The token at a position holds the byte at an offset. -/
def HoldsByte (size : Nat) (tokens : List Token) (k offset : Nat) : Prop :=
  startAt size tokens k ≤ offset ∧ offset < startAt size tokens (k + 1)

namespace TokenStream

variable {source : Array UInt8} {tree : SyntaxTree} {piece : Piece} {j k offset : Nat}

theorem token_of_piece (here : (Piece.ofTree source tree)[k]? = some piece) :
    (ofTree source tree).tokens[k]? = some (piece.toToken source k) := by
  rw [getElem?_ofTree, here]
  rfl

theorem exists_piece_of_holdsByte (holds : HoldsByte source.size (ofTree source tree).tokens k offset) :
    ∃ piece, (Piece.ofTree source tree)[k]? = some piece := by
  cases here : (Piece.ofTree source tree)[k]? with
  | some piece => exact ⟨piece, rfl⟩
  | none =>
    have beyond : (Piece.ofTree source tree)[k + 1]? = none := by
      rw [List.getElem?_eq_none_iff] at here ⊢
      omega
    rw [HoldsByte, startAt_ofTree, startAt_ofTree, here, beyond] at holds
    simp at holds
    omega

section tiles

variable (tiles : Piece.Tiles 0 (Piece.ofTree source tree) source.size)
include tiles

theorem holdsByte_iff (here : (Piece.ofTree source tree)[k]? = some piece) :
    HoldsByte source.size (ofTree source tree).tokens k offset ↔ piece.start ≤ offset ∧ offset < piece.stop := by
  rw [HoldsByte, startAt_ofTree, startAt_ofTree, ← tiles.stop_eq here, here]
  rfl

/-- No two tokens hold one byte. -/
theorem eq_of_holdsByte (one : HoldsByte source.size (ofTree source tree).tokens j offset)
    (other : HoldsByte source.size (ofTree source tree).tokens k offset) : j = k := by
  obtain ⟨first, here⟩ := exists_piece_of_holdsByte one
  obtain ⟨second, there⟩ := exists_piece_of_holdsByte other
  rw [holdsByte_iff tiles here] at one
  rw [holdsByte_iff tiles there] at other
  rcases Nat.lt_trichotomy j k with before | same | after
  · have := tiles.stop_le_start here there before
    omega
  · exact same
  · have := tiles.stop_le_start there here after
    omega

/-- The token of a piece that holds all bytes of a leaf is the only one that holds any of them. -/
theorem holdsByte_iff_eq {leaf : SyntaxNode} (here : (Piece.ofTree source tree)[k]? = some piece)
    (begins : piece.start ≤ leaf.start) (ends : leaf.stop ≤ piece.stop) (low : leaf.start ≤ offset)
    (high : offset < leaf.stop) : HoldsByte source.size (ofTree source tree).tokens j offset ↔ j = k := by
  have holds : HoldsByte source.size (ofTree source tree).tokens k offset :=
    (holdsByte_iff tiles here).mpr ⟨by omega, by omega⟩
  constructor
  · intro other
    exact eq_of_holdsByte tiles other holds
  · rintro rfl
    exact holds

end tiles

variable (inside : tree.Every fun node => node.start ≤ source.size ∧ node.stop ≤ source.size)
  (noBlank : tree.Every fun node => node.kind ≠ "whitespace")
include inside noBlank

theorem noCodeAt_of_isHidden {token : Token} (isToken : (ofTree source tree).tokens[k]? = some token)
    (hidden : token.isHidden = true) (holds : HoldsByte source.size (ofTree source tree).tokens k offset) :
    Piece.NoCodeAt source tree.leaves offset := by
  obtain ⟨piece, here⟩ := exists_piece_of_holdsByte holds
  obtain rfl : piece.toToken source k = token := Option.some.inj ((token_of_piece here).symm.trans isToken)
  rw [Piece.isHidden_toToken] at hidden
  obtain ⟨low, high⟩ := (holdsByte_iff (Piece.tiles_ofTree inside) here).mp holds
  exact Piece.noCodeAt_of_mem_ofTree inside noBlank (List.mem_of_getElem? here) hidden low high

theorem exists_significant_of_code (within : offset < source.size)
    (code : ¬ Piece.NoCodeAt source tree.leaves offset) :
    ∃ (k : Nat) (token : Token), (ofTree source tree).tokens[k]? = some token ∧ token.isHidden = false ∧
      HoldsByte source.size (ofTree source tree).tokens k offset := by
  have tiles := Piece.tiles_ofTree inside
  obtain ⟨piece, member, low, high⟩ := tiles.exists_holding (Nat.zero_le offset) within
  obtain ⟨k, here⟩ := List.getElem?_of_mem member
  refine ⟨k, _, token_of_piece here, ?_, (holdsByte_iff tiles here).mpr ⟨low, high⟩⟩
  rw [Piece.isHidden_toToken]
  by_contra hidden
  exact code (Piece.noCodeAt_of_mem_ofTree inside noBlank member (by simpa using hidden) low high)

/-- Each leaf of a well-nested tree has a token to itself, or one that it shares with other comments. -/
theorem exists_token_of_leaf (nested : tree.WellNested) {leaf : SyntaxNode} (member : leaf ∈ tree.leaves) :
    ∃ (k : Nat) (token : Token), (ofTree source tree).tokens[k]? = some token ∧ token.isHidden = leaf.isComment ∧
      (∀ offset, leaf.start ≤ offset → offset < leaf.stop →
        ∀ j, HoldsByte source.size (ofTree source tree).tokens j offset ↔ j = k) ∧
      (leaf.isComment = false → token.kind = leaf.kind ∧ token.startByte = leaf.start ∧
        startAt source.size (ofTree source tree).tokens (k + 1) = leaf.stop) := by
  have tiles := Piece.tiles_ofTree inside
  by_cases comment : leaf.isComment = true
  · obtain ⟨piece, isPiece, hidden, begins, ends⟩ := Piece.exists_hidden_of_leaf inside nested member comment
    obtain ⟨k, here⟩ := List.getElem?_of_mem isPiece
    refine ⟨k, _, token_of_piece here, ?_, ?_, ?_⟩
    · rw [Piece.isHidden_toToken, hidden, comment]
    · intro offset low high j
      exact holdsByte_iff_eq tiles here begins ends low high
    · intro code
      simp [comment] at code
  · have code : leaf.isComment = false := by simpa using comment
    obtain ⟨k, here⟩ := List.getElem?_of_mem (Piece.ofLeaf_mem_ofTree inside noBlank nested member code)
    have begins := Piece.ofLeaf_start source leaf
    have ends := Piece.ofLeaf_stop source leaf
    refine ⟨k, _, token_of_piece here, ?_, ?_, ?_⟩
    · rw [Piece.isHidden_toToken, Piece.ofLeaf_hidden]
    · intro offset low high j
      exact holdsByte_iff_eq tiles here (Nat.le_of_eq begins) (Nat.le_of_eq ends.symm) low high
    · intro _
      refine ⟨Piece.ofLeaf_kind code, congrArg Nat.cast begins, ?_⟩
      rw [startAt_ofTree, ← tiles.stop_eq here, ends]

end TokenStream

namespace Source

/-- No code is hidden and no comment is shown. In a source tokenized by a syntax tree inside it, without nodes of the
kind that blank gaps have, a hidden token holds blank bytes and bytes of comments only, so every other byte is in a
significant token. In a well-nested tree, moreover, one hidden token holds all bytes of a comment, and every other
leaf is a significant token of its kind, with the bytes of the leaf and no others. -/
theorem tokenize_hides_no_code (parser : Parser) (source : Text) {tree : SyntaxTree}
    (parsed : parser (utf8 source) = .ok tree)
    (inside : tree.Every fun node => node.start ≤ (utf8 source).length ∧ node.stop ≤ (utf8 source).length)
    (noBlank : tree.Every fun node => node.kind ≠ "whitespace") :
    ∃ logged, tokenize parser source = .ok logged ∧
      (∀ (k : Nat) (token : Token), logged.value.tokens[k]? = some token → token.isHidden = true →
        ∀ offset, HoldsByte (utf8 source).length logged.value.tokens k offset →
          Piece.NoCodeAt (utf8 source).toArray tree.leaves offset) ∧
      (∀ offset, offset < (utf8 source).length → ¬ Piece.NoCodeAt (utf8 source).toArray tree.leaves offset →
        ∃ (k : Nat) (token : Token), logged.value.tokens[k]? = some token ∧ token.isHidden = false ∧
          HoldsByte (utf8 source).length logged.value.tokens k offset) ∧
      (tree.WellNested → ∀ leaf ∈ tree.leaves, ∃ (k : Nat) (token : Token),
        logged.value.tokens[k]? = some token ∧ token.isHidden = leaf.isComment ∧
        (∀ offset, leaf.start ≤ offset → offset < leaf.stop →
          ∀ j, HoldsByte (utf8 source).length logged.value.tokens j offset ↔ j = k) ∧
        (leaf.isComment = false → token.kind = leaf.kind ∧ token.startByte = leaf.start ∧
          startAt (utf8 source).length logged.value.tokens (k + 1) = leaf.stop)) := by
  have bounded : tree.Every fun node =>
      node.start ≤ (utf8 source).toArray.size ∧ node.stop ≤ (utf8 source).toArray.size := inside
  refine ⟨_, by rw [tokenize, parsed]; rfl, ?_, ?_, ?_⟩
  · intro k token isToken hidden offset holds
    exact TokenStream.noCodeAt_of_isHidden bounded noBlank isToken hidden holds
  · intro offset within code
    exact TokenStream.exists_significant_of_code bounded noBlank within code
  · intro nested leaf member
    exact TokenStream.exists_token_of_leaf bounded noBlank nested member

/-- Two documentation lines and a class. -/
private def fusedLines : Text := ['/', '/', '/', 'a', '\n', '/', '/', '/', 'b', '\n', 'c']

private def fusedLinesTree : SyntaxTree :=
  .node (Trivia.leaf "program" 0 11) [.node (Trivia.leaf "line_comment" 0 4) [],
    .node (Trivia.leaf "line_comment" 5 9) [], .node (Trivia.leaf "class_declaration" 10 11) []]

/-- The documentation lines and the line feed between them are one hidden token, and the class is the third. -/
theorem tokenize_hides_no_code_doc_lines :
    fusedLinesTree.WellNested ∧
    ∃ logged, tokenize (fun _ => .ok fusedLinesTree) fusedLines = .ok logged ∧
      logged.value.tokens.map (fun token => (token.startByte, token.isHidden)) =
        [(0, true), (9, true), (10, false)] ∧
      ∀ leaf ∈ fusedLinesTree.leaves, ∃ (k : Nat) (token : Token),
        logged.value.tokens[k]? = some token ∧ token.isHidden = leaf.isComment := by
  have nested : fusedLinesTree.WellNested := by decide
  obtain ⟨logged, tokenized, -, -, leaves⟩ :=
    tokenize_hides_no_code (fun _ => .ok fusedLinesTree) fusedLines rfl (by decide) (by decide)
  refine ⟨nested, logged, tokenized, ?_, ?_⟩
  · obtain rfl := Except.ok.inj tokenized
    decide +kernel
  · intro leaf member
    obtain ⟨k, token, isToken, hidden, -⟩ := leaves nested leaf member
    exact ⟨k, token, isToken, hidden⟩

end Source

end ApexComments
