import ApexComments.Proofs.Decoding
import ApexComments.Proofs.Nodes
import ApexComments.Source

/-!
# The tokens of a source tile it

Whatever the shape of the syntax tree, the pieces laid out for it follow each other over the source
without gap or overlap, and none is empty (`tiles_ofTree`); fusing documentation lines keeps this. So
each token holds the bytes up to the start of the next one. Put together, the texts of the tokens are
the characters of the source without those that a token boundary cuts. Surrogates have no bytes and
come back in no token.
-/
namespace ApexComments

open Text

namespace Piece

/-- The pieces cover the bytes from one offset up to another: each starts where the one before it
ends, and none is empty. -/
def Tiles (start : Nat) : List Piece → Nat → Prop
  | [], stop => start = stop
  | piece :: rest, stop => piece.start = start ∧ piece.start < piece.stop ∧ Tiles piece.stop rest stop

theorem tiles_append_iff {start stop : Nat} {front back : List Piece} :
    Tiles start (front ++ back) stop ↔ ∃ middle, Tiles start front middle ∧ Tiles middle back stop := by
  induction front generalizing start with
  | nil =>
    constructor
    · intro tiles
      exact ⟨start, rfl, tiles⟩
    · rintro ⟨middle, rfl, tiles⟩
      exact tiles
  | cons piece front ih =>
    constructor
    · rintro ⟨begins, wide, rest⟩
      obtain ⟨middle, before, after⟩ := ih.mp rest
      exact ⟨middle, ⟨begins, wide, before⟩, after⟩
    · rintro ⟨middle, ⟨begins, wide, before⟩, after⟩
      exact ⟨begins, wide, ih.mpr ⟨middle, before, after⟩⟩

theorem Tiles.start_of_head? {start stop : Nat} {pieces : List Piece} (tiles : Tiles start pieces stop)
    {piece : Piece} (first : pieces.head? = some piece) : piece.start = start := by
  obtain ⟨rest, rfl⟩ := List.head?_eq_some_iff.mp first
  exact tiles.1

theorem Tiles.start_le {start stop : Nat} {pieces : List Piece} (tiles : Tiles start pieces stop) :
    start ≤ stop := by
  induction pieces generalizing start with
  | nil => exact Nat.le_of_eq tiles
  | cons piece rest ih =>
    obtain ⟨begins, wide, later⟩ := tiles
    have := ih later
    omega

/-- No piece of a tiling is empty or reaches beyond its ends. -/
theorem Tiles.bounds {start stop : Nat} {pieces : List Piece} (tiles : Tiles start pieces stop) :
    ∀ piece ∈ pieces, start ≤ piece.start ∧ piece.start < piece.stop ∧ piece.stop ≤ stop := by
  induction pieces generalizing start with
  | nil => simp
  | cons first rest ih =>
    obtain ⟨begins, wide, later⟩ := tiles
    have order := later.start_le
    intro piece member
    rcases List.mem_cons.mp member with rfl | among
    · exact ⟨by omega, wide, order⟩
    · have := ih later piece among
      omega

theorem Tiles.pairwise_start {start stop : Nat} {pieces : List Piece} (tiles : Tiles start pieces stop) :
    pieces.Pairwise fun piece later => piece.start < later.start := by
  induction pieces generalizing start with
  | nil => exact List.Pairwise.nil
  | cons first rest ih =>
    obtain ⟨-, wide, later⟩ := tiles
    refine List.pairwise_cons.mpr ⟨?_, ih later⟩
    intro piece member
    have := later.bounds piece member
    omega

/-- A piece ends where the next one starts, and the last one at the end of the tiling. -/
theorem Tiles.stop_eq {start stop : Nat} {pieces : List Piece} (tiles : Tiles start pieces stop) {k : Nat}
    {piece : Piece} (here : pieces[k]? = some piece) :
    piece.stop = (pieces[k + 1]?.map Piece.start).getD stop := by
  induction pieces generalizing start k with
  | nil => simp at here
  | cons first rest ih =>
    obtain ⟨-, -, later⟩ := tiles
    cases k with
    | succ k => exact ih later here
    | zero =>
      obtain rfl : first = piece := by simpa using here
      cases rest with
      | nil => exact later
      | cons next others => exact later.1.symm

theorem Tiles.stop_le_start {start stop : Nat} {pieces : List Piece} (tiles : Tiles start pieces stop) {i j : Nat}
    {piece later : Piece} (here : pieces[i]? = some piece) (there : pieces[j]? = some later) (order : i < j) :
    piece.stop ≤ later.start := by
  induction pieces generalizing start i j with
  | nil => simp at here
  | cons first rest ih =>
    obtain ⟨-, -, onward⟩ := tiles
    obtain ⟨j, rfl⟩ := Nat.exists_eq_succ_of_ne_zero (Nat.ne_zero_of_lt order)
    cases i with
    | succ i => exact ih onward here there (by omega)
    | zero =>
      obtain rfl : first = piece := by simpa using here
      exact (onward.bounds later (List.mem_of_getElem? there)).1

/-- What holds of the starts of all pieces and of the end of the tiling holds of the ends of all
pieces. -/
theorem Tiles.stop_of_mem {start stop : Nat} {pieces : List Piece} (tiles : Tiles start pieces stop)
    {condition : Nat → Prop} (starts : ∀ piece ∈ pieces, condition piece.start) (last : condition stop) :
    ∀ piece ∈ pieces, condition piece.stop := by
  intro piece member
  obtain ⟨k, here⟩ := List.getElem?_of_mem member
  rw [tiles.stop_eq here]
  cases following : pieces[k + 1]? with
  | none => exact last
  | some next => exact starts next (List.mem_of_getElem? following)

/-! ## Laying out and fusing -/

theorem ofGap_start (source : Array UInt8) (start stop : Nat) : (ofGap source start stop).start = start := by
  rw [ofGap]
  split <;> rfl

theorem ofGap_stop (source : Array UInt8) (start stop : Nat) : (ofGap source start stop).stop = stop := by
  rw [ofGap]
  split <;> rfl

theorem ofLeaf_start (source : Array UInt8) (leaf : SyntaxNode) : (ofLeaf source leaf).start = leaf.start := by
  rw [ofLeaf]
  split <;> rfl

theorem ofLeaf_stop (source : Array UInt8) (leaf : SyntaxNode) : (ofLeaf source leaf).stop = leaf.stop := by
  rw [ofLeaf]
  split <;> rfl

theorem tiles_gapBetween (source : Array UInt8) {start stop : Nat} (order : start ≤ stop) :
    Tiles start (gapBetween source start stop) stop := by
  rw [gapBetween]
  split
  · next wide =>
    refine ⟨ofGap_start source start stop, ?_, ofGap_stop source start stop⟩
    rw [ofGap_start, ofGap_stop]
    exact wide
  · exact Nat.le_antisymm order (by omega)

/-- The cursor never passes the end of the source, and behind it everything is covered. -/
theorem tiles_layOut (source : Array UInt8) {leaves : List SyntaxNode}
    (bounded : ∀ leaf ∈ leaves, leaf.start < leaf.stop ∧ leaf.stop ≤ source.size) {cursor : Nat}
    (inside : cursor ≤ source.size) : Tiles cursor (layOut source cursor leaves) source.size := by
  induction leaves generalizing cursor with
  | nil => exact tiles_gapBetween source inside
  | cons leaf rest ih =>
    have later : ∀ other ∈ rest, other.start < other.stop ∧ other.stop ≤ source.size :=
      fun other member => bounded other (List.mem_cons_of_mem leaf member)
    obtain ⟨wide, ends⟩ := bounded leaf List.mem_cons_self
    rw [layOut]
    split
    · exact ih later inside
    · refine tiles_append_iff.mpr ⟨leaf.start, tiles_gapBetween source (by omega), ?_⟩
      refine ⟨ofLeaf_start source leaf, ?_, ?_⟩
      · rw [ofLeaf_start, ofLeaf_stop]
        exact wide
      · rw [ofLeaf_stop]
        exact ih later ends

theorem flatten_docLineGroups (source : Array UInt8) (pieces : List Piece) :
    (docLineGroups source pieces).flatten = pieces := by
  induction pieces with
  | nil => rfl
  | cons piece rest ih =>
    rw [docLineGroups]
    split
    · next step next run groups grouped =>
      rw [grouped] at ih
      split <;> simpa using ih
    · simpa using ih

theorem ne_nil_of_mem_docLineGroups {source : Array UInt8} {pieces group : List Piece}
    (member : group ∈ docLineGroups source pieces) : group ≠ [] := by
  induction pieces with
  | nil => simp [docLineGroups] at member
  | cons piece rest ih =>
    rw [docLineGroups] at member
    split at member
    · next step next run groups grouped =>
      rw [grouped] at ih
      split at member
      · rcases List.mem_cons.mp member with rfl | later
        · simp
        · exact ih (by simp [later])
      · rcases List.mem_cons.mp member with rfl | later
        · simp
        · exact ih later
    · rcases List.mem_cons.mp member with rfl | later
      · simp
      · exact ih later

private theorem Tiles.getLastD_stop {start stop : Nat} {piece : Piece} {rest : List Piece}
    (tiles : Tiles start (piece :: rest) stop) : (rest.getLastD piece).stop = stop := by
  induction rest generalizing start piece with
  | nil => exact tiles.2.2
  | cons next others ih =>
    rw [List.getLastD_cons]
    exact ih tiles.2.2

/-- A group of pieces fuses into one piece that covers the same bytes. -/
theorem exists_fuse_of_tiles {start stop : Nat} {group : List Piece} (nonempty : group ≠ [])
    (tiles : Tiles start group stop) :
    ∃ piece, fuse group = some piece ∧ Tiles start [piece] stop := by
  match group, tiles with
  | [], _ => exact absurd rfl nonempty
  | [piece], tiles => exact ⟨piece, rfl, tiles⟩
  | first :: second :: rest, tiles =>
    have last := Tiles.getLastD_stop tiles.2.2
    obtain ⟨begins, wide, later⟩ := tiles
    have order := later.start_le
    refine ⟨_, rfl, begins, ?_, last⟩
    simp only [last]
    omega

theorem tiles_filterMap_fuse {groups : List (List Piece)} (nonempty : ∀ group ∈ groups, group ≠ [])
    {start stop : Nat} (tiles : Tiles start groups.flatten stop) :
    Tiles start (groups.filterMap fuse) stop := by
  induction groups generalizing start with
  | nil => exact tiles
  | cons group groups ih =>
    rw [List.flatten_cons] at tiles
    obtain ⟨middle, here, later⟩ := tiles_append_iff.mp tiles
    obtain ⟨piece, fused, tile⟩ := exists_fuse_of_tiles (nonempty group List.mem_cons_self) here
    have onward := ih (fun other member => nonempty other (List.mem_cons_of_mem group member)) later
    rw [List.filterMap_cons_some fused]
    exact tiles_append_iff.mpr ⟨middle, tile, onward⟩

theorem tiles_fuseDocLines (source : Array UInt8) {pieces : List Piece} {start stop : Nat}
    (tiles : Tiles start pieces stop) : Tiles start (fuseDocLines source pieces) stop := by
  refine tiles_filterMap_fuse (fun group member => ne_nil_of_mem_docLineGroups member) ?_
  rw [flatten_docLineGroups]
  exact tiles

section tree

variable {source : Array UInt8} {tree : SyntaxTree}
  (inside : tree.Every fun node => node.start ≤ source.size ∧ node.stop ≤ source.size)
include inside

theorem tiles_layOut_leaves : Tiles 0 (layOut source 0 tree.leaves) source.size := by
  refine tiles_layOut source ?_ (Nat.zero_le _)
  intro leaf member
  obtain ⟨wide, -, ends⟩ := inside.of_mem_leaves member
  exact ⟨wide, ends⟩

/-- The pieces of a syntax tree inside the source tile the source. -/
theorem tiles_ofTree : Tiles 0 (ofTree source tree) source.size :=
  tiles_fuseDocLines source (tiles_layOut_leaves inside)

end tree

/-! ## Where pieces start -/

private theorem start_of_mem_layOut {source : Array UInt8} {leaves : List SyntaxNode} {condition : Nat → Prop}
    (bounds : ∀ leaf ∈ leaves, condition leaf.start ∧ condition leaf.stop) {cursor : Nat}
    (here : condition cursor) : ∀ piece ∈ layOut source cursor leaves, condition piece.start := by
  have gap (start stop : Nat) (begins : condition start) :
      ∀ piece ∈ gapBetween source start stop, condition piece.start := by
    intro piece member
    rw [gapBetween] at member
    split at member
    · obtain rfl := List.mem_singleton.mp member
      rw [ofGap_start]
      exact begins
    · simp at member
  induction leaves generalizing cursor with
  | nil => exact gap cursor source.size here
  | cons leaf rest ih =>
    have later : ∀ other ∈ rest, condition other.start ∧ condition other.stop :=
      fun other member => bounds other (List.mem_cons_of_mem leaf member)
    obtain ⟨begins, ends⟩ := bounds leaf List.mem_cons_self
    rw [layOut]
    split
    · exact ih later here
    · intro piece member
      rcases List.mem_append.mp member with among | onward
      · exact gap cursor leaf.start here piece among
      · rcases List.mem_cons.mp onward with rfl | after
        · rw [ofLeaf_start]
          exact begins
        · exact ih later ends piece after

private theorem exists_start_of_fuse {group : List Piece} {piece : Piece} (fused : fuse group = some piece) :
    ∃ first ∈ group, first.start = piece.start := by
  match group, fused with
  | [only], fused =>
    obtain rfl : only = piece := by simpa [fuse] using fused
    exact ⟨only, by simp, rfl⟩
  | first :: second :: rest, fused =>
    refine ⟨first, by simp, ?_⟩
    obtain rfl := Option.some.inj fused
    rfl

/-- What holds of offset 0 and of the ends of all nodes holds of the starts of all pieces. -/
theorem start_of_mem_ofTree {source : Array UInt8} {tree : SyntaxTree} {condition : Nat → Prop}
    (origin : condition 0) (every : tree.Every fun node => condition node.start ∧ condition node.stop) :
    ∀ piece ∈ ofTree source tree, condition piece.start := by
  intro piece member
  obtain ⟨group, among, fused⟩ := List.mem_filterMap.mp member
  obtain ⟨first, isFirst, begins⟩ := exists_start_of_fuse fused
  have laidOut : first ∈ layOut source 0 tree.leaves := by
    rw [← flatten_docLineGroups source (layOut source 0 tree.leaves)]
    exact List.mem_flatten.mpr ⟨group, among, isFirst⟩
  rw [← begins]
  exact start_of_mem_layOut (fun leaf isLeaf => (every.of_mem_leaves isLeaf).2) origin first laidOut

/-! ## The texts of the pieces -/

/-- Two selections of a list, all of the first before all of the second, together are the selection
by either. -/
private theorem filter_append_filter {α : Type} {first second either : α → Bool} {members : List α}
    (ordered : members.Pairwise fun x y => second x = true → first y = false)
    (apart : ∀ x ∈ members, first x = true → second x = false)
    (joint : ∀ x ∈ members, either x = (first x || second x)) :
    members.filter first ++ members.filter second = members.filter either := by
  induction members with
  | nil => rfl
  | cons x rest ih =>
    obtain ⟨here, later⟩ := List.pairwise_cons.mp ordered
    have onward := ih later (fun y member => apart y (List.mem_cons_of_mem x member))
      (fun y member => joint y (List.mem_cons_of_mem x member))
    have chosen := joint x List.mem_cons_self
    cases inFirst : first x with
    | true =>
      have notSecond := apart x List.mem_cons_self inFirst
      simp [inFirst, notSecond, chosen, onward]
    | false =>
      cases inSecond : second x with
      | false => simp [inFirst, inSecond, chosen, onward]
      | true =>
        have none : rest.filter first = [] := by
          rw [List.filter_eq_nil_iff]
          intro y member
          simp [here y member inSecond]
        rw [none, List.nil_append] at onward
        simp [inFirst, inSecond, chosen, onward, none]

private theorem isCutAt_eq_true {place : Nat × Char} {cut : Nat} :
    isCutAt place cut = true ↔ place.1 < cut ∧ cut < place.1 + (utf8Char place.2).length := by
  simp [isCutAt]

/-- A character that no piece starts inside lies in the first piece or after it. -/
private theorem Tiles.kept_iff {start stop : Nat} {piece : Piece} {rest : List Piece}
    (tiles : Tiles start (piece :: rest) stop) (place : Nat × Char) :
    (liesWithin start stop place && !((piece :: rest).map Piece.start).any (isCutAt place)) =
      (liesWithin piece.start piece.stop place ||
        (liesWithin piece.stop stop place && !(rest.map Piece.start).any (isCutAt place))) := by
  obtain ⟨rfl, wide, later⟩ := tiles
  have order := later.start_le
  have further := later.bounds
  rw [Bool.eq_iff_iff]
  simp only [Bool.and_eq_true, Bool.or_eq_true, liesWithin, decide_eq_true_eq, Bool.not_eq_true', List.any_eq_false,
    List.map_cons, List.forall_mem_cons, List.forall_mem_map, isCutAt_eq_true]
  constructor
  · rintro ⟨⟨begins, ends⟩, -, spared⟩
    -- The next piece starts where the first ends, unless that is the end of the stretch.
    have around : place.1 + (utf8Char place.2).length ≤ piece.stop ∨ piece.stop ≤ place.1 := by
      cases rest with
      | nil =>
        have same : piece.stop = stop := later
        omega
      | cons next others =>
        have here := spared next List.mem_cons_self
        have same : next.start = piece.stop := later.1
        omega
    rcases around with before | after
    · exact .inl ⟨begins, before⟩
    · exact .inr ⟨⟨after, ends⟩, spared⟩
  · rintro (⟨begins, before⟩ | ⟨⟨after, ends⟩, spared⟩)
    · refine ⟨⟨begins, by omega⟩, by omega, ?_⟩
      intro other member
      have := further other member
      omega
    · exact ⟨⟨by omega, ends⟩, by omega, spared⟩

/-- The texts of pieces that tile a stretch of the bytes, put together: the characters inside the
stretch that no piece starts inside. -/
theorem Tiles.flatMap_decode (source : Text) {start stop : Nat} {pieces : List Piece}
    (tiles : Tiles start pieces stop) :
    pieces.flatMap (fun piece => decode (((utf8 source).take piece.stop).drop piece.start)) =
      ofPlaced ((placed source).filter fun place =>
        liesWithin start stop place && !(pieces.map Piece.start).any (isCutAt place)) := by
  induction pieces generalizing start with
  | nil =>
    obtain rfl : start = stop := tiles
    have none : ((placed source).filter fun place =>
        liesWithin start start place && !(([] : List Piece).map Piece.start).any (isCutAt place)) = [] := by
      rw [List.filter_eq_nil_iff]
      intro place member
      have width := utf8Char_length_pos place.2
      simp [liesWithin]
      omega
    rw [none]
    rfl
  | cons piece rest ih =>
    have later := tiles.2.2
    rw [List.flatMap_cons, ih later, decode_take_drop, ofPlaced, ofPlaced, ← List.map_append]
    refine congrArg ofPlaced (filter_append_filter ?_ ?_ fun place _ => tiles.kept_iff place)
    · refine (pairwise_placed source).imp ?_
      intro place other order onward
      have width := utf8Char_length_pos place.2
      simp only [Bool.and_eq_true, liesWithin, decide_eq_true_eq] at onward
      simp only [liesWithin, Bool.and_eq_false_iff, decide_eq_false_iff_not]
      omega
    · intro place member here
      have width := utf8Char_length_pos place.2
      simp only [Bool.and_eq_true, liesWithin, decide_eq_true_eq] at here
      simp only [liesWithin, Bool.and_eq_false_iff, decide_eq_false_iff_not]
      omega

end Piece

/-! ## The token stream -/

/-- The offset at which the token at a position starts; past the last token, the size of the
source. -/
def startAt (size : Nat) (tokens : List Token) (k : Nat) : Nat :=
  (tokens[k]?.map fun token => token.startByte.toNat).getD size

/-- The tokens tile a source: they start at its first byte, one after the other, and each holds the
bytes up to the start of the next one. -/
structure Tiling (source : Text) (tokens : List Token) : Prop where
  nil_iff : tokens = [] ↔ withoutSurrogates source = []
  first_start : ∀ token ∈ tokens.head?, token.startByte = 0
  ascending : tokens.Pairwise fun token later => token.startByte < later.startByte
  index_eq : ∀ (k : Nat) (token : Token), tokens[k]? = some token → token.index = k
  text_eq : ∀ (k : Nat) (token : Token), tokens[k]? = some token →
    token.text = decode (((utf8 source).take (startAt (utf8 source).length tokens (k + 1))).drop
      token.startByte.toNat)

theorem TokenStream.getElem?_ofTree {source : Array UInt8} {tree : SyntaxTree} (k : Nat) :
    (TokenStream.ofTree source tree).tokens[k]? =
      (Piece.ofTree source tree)[k]?.map (Piece.toToken source k) := by
  rw [TokenStream.ofTree, TokenStream.tokens_ofPieces, List.getElem?_mapIdx]

theorem startAt_ofTree {source : Array UInt8} {tree : SyntaxTree} (size k : Nat) :
    startAt size (TokenStream.ofTree source tree).tokens k =
      ((Piece.ofTree source tree)[k]?.map Piece.start).getD size := by
  rw [startAt, TokenStream.getElem?_ofTree, Option.map_map]
  rfl

theorem TokenStream.pairwise_startByte_ofTree {source : Array UInt8} {tree : SyntaxTree} {stop : Nat}
    (tiles : Piece.Tiles 0 (Piece.ofTree source tree) stop) :
    (TokenStream.ofTree source tree).tokens.Pairwise fun token later => token.startByte < later.startByte := by
  rw [TokenStream.ofTree, TokenStream.tokens_ofPieces, List.pairwise_iff_getElem]
  intro i j first second order
  simp only [List.length_mapIdx] at first second
  have ascending := List.pairwise_iff_getElem.mp tiles.pairwise_start i j first second order
  simpa [Piece.toToken] using ascending

theorem Piece.toToken_text (source : Text) (k : Nat) (piece : Piece) :
    (piece.toToken (utf8 source).toArray k).text =
      decode (((utf8 source).take piece.stop).drop piece.start) := by
  rw [toToken, bytes, slice_eq_drop_take]

theorem tiling_ofTree {source : Text} {tree : SyntaxTree}
    (tiles : Piece.Tiles 0 (Piece.ofTree (utf8 source).toArray tree) (utf8 source).length) :
    Tiling source (TokenStream.ofTree (utf8 source).toArray tree).tokens := by
  refine ⟨?_, ?_, ?_, ?_, ?_⟩
  · rw [TokenStream.ofTree, TokenStream.tokens_ofPieces, List.mapIdx_eq_nil_iff, ← utf8_eq_nil_iff]
    cases pieces : Piece.ofTree (utf8 source).toArray tree with
    | nil =>
      rw [pieces] at tiles
      have empty : 0 = (utf8 source).length := tiles
      simp [List.length_eq_zero_iff.mp empty.symm]
    | cons piece rest =>
      rw [pieces] at tiles
      have ends := tiles.bounds piece List.mem_cons_self
      have some : utf8 source ≠ [] := List.ne_nil_of_length_pos (by omega)
      simp [some]
  · intro token first
    rw [List.head?_eq_getElem?, TokenStream.getElem?_ofTree] at first
    obtain ⟨piece, here, rfl⟩ := Option.map_eq_some_iff.mp first
    rw [← List.head?_eq_getElem?] at here
    simp [Piece.toToken, tiles.start_of_head? here]
  · exact TokenStream.pairwise_startByte_ofTree tiles
  · intro k token here
    rw [TokenStream.getElem?_ofTree] at here
    obtain ⟨piece, -, rfl⟩ := Option.map_eq_some_iff.mp here
    rfl
  · intro k token here
    rw [TokenStream.getElem?_ofTree] at here
    obtain ⟨piece, there, rfl⟩ := Option.map_eq_some_iff.mp here
    rw [startAt_ofTree, ← tiles.stop_eq there, Piece.toToken_text]
    rfl

/-- What a token takes over from its piece, whatever its position. -/
private theorem TokenStream.map_ofTree {α : Type} {source : Array UInt8} (tree : SyntaxTree)
    {ofToken : Token → α} {ofPiece : Piece → α}
    (same : ∀ (k : Nat) (piece : Piece), ofToken (piece.toToken source k) = ofPiece piece) :
    (TokenStream.ofTree source tree).tokens.map ofToken = (Piece.ofTree source tree).map ofPiece := by
  apply List.ext_getElem?
  intro k
  rw [List.getElem?_map, List.getElem?_map, TokenStream.getElem?_ofTree, Option.map_map]
  exact congrArg (Option.map · _) (funext (same k))

theorem flatMap_text_ofTree {source : Text} {tree : SyntaxTree}
    (tiles : Piece.Tiles 0 (Piece.ofTree (utf8 source).toArray tree) (utf8 source).length) :
    (TokenStream.ofTree (utf8 source).toArray tree).tokens.flatMap Token.text =
      uncut ((Piece.ofTree (utf8 source).toArray tree).map Piece.start) source := by
  have texts := TokenStream.map_ofTree tree (Piece.toToken_text source)
  rw [List.flatMap_def, texts, ← List.flatMap_def, tiles.flatMap_decode source, uncut]
  refine congrArg ofPlaced (List.filter_congr ?_)
  intro place member
  have ends := end_le_of_mem_placed member
  simp [liesWithin, ends]

namespace Source

/-- A source tokenized by a syntax tree inside it is tiled by the tokens. Their texts together are the
characters of the source without those that a token starts inside, and all of them where all nodes start
and end between characters. -/
theorem tokenize_tiles (parser : Parser) (source : Text) {tree : SyntaxTree}
    (parsed : parser (utf8 source) = .ok tree)
    (inside : tree.Every fun node =>
      node.start ≤ (utf8 source).length ∧ node.stop ≤ (utf8 source).length) :
    ∃ logged, tokenize parser source = .ok logged ∧
      Tiling source logged.value.tokens ∧
      logged.value.tokens.flatMap Token.text =
        uncut (logged.value.tokens.map fun token => token.startByte.toNat) source ∧
      (tree.Every (fun node => Boundary source node.start ∧ Boundary source node.stop) →
        logged.value.tokens.flatMap Token.text = withoutSurrogates source) := by
  have tiles : Piece.Tiles 0 (Piece.ofTree (utf8 source).toArray tree) (utf8 source).length :=
    Piece.tiles_ofTree inside
  have starts : (TokenStream.ofTree (utf8 source).toArray tree).tokens.map (fun token => token.startByte.toNat) =
      (Piece.ofTree (utf8 source).toArray tree).map Piece.start :=
    TokenStream.map_ofTree tree fun k piece => rfl
  have texts := flatMap_text_ofTree tiles
  refine ⟨_, by rw [tokenize, parsed]; rfl, tiling_ofTree tiles, ?_, ?_⟩
  · rw [starts]
    exact texts
  · intro aligned
    refine texts.trans (uncut_of_boundaries ?_)
    intro cut member
    obtain ⟨piece, isPiece, rfl⟩ := List.mem_map.mp member
    exact Piece.start_of_mem_ofTree ⟨[], source, rfl, rfl⟩ aligned piece isPiece

/-- A leaf that ends inside the first of two characters: that character is lost. -/
theorem tokenize_tiles_inside_character :
    (SyntaxTree.node (Trivia.leaf "program" 0 3) [.node (Trivia.leaf "identifier" 0 1) []]).Every
      (fun node => node.start ≤ (utf8 ['é', ';']).length ∧ node.stop ≤ (utf8 ['é', ';']).length) ∧
    ∃ logged, tokenize
        (fun _ => .ok (.node (Trivia.leaf "program" 0 3) [.node (Trivia.leaf "identifier" 0 1) []]))
        ['é', ';'] = .ok logged ∧
      Tiling ['é', ';'] logged.value.tokens ∧
      logged.value.tokens.flatMap Token.text =
        uncut (logged.value.tokens.map fun token => token.startByte.toNat) ['é', ';'] := by
  refine ⟨by decide, ?_⟩
  obtain ⟨logged, tokenized, tiling, texts, -⟩ := tokenize_tiles
    (fun _ => .ok (.node (Trivia.leaf "program" 0 3) [.node (Trivia.leaf "identifier" 0 1) []]))
    ['é', ';'] rfl (by decide)
  exact ⟨logged, tokenized, tiling, texts⟩

/-- A source of one surrogate is not empty but has no token, and of a surrogate and a semicolon only the
semicolon comes back, where all nodes start and end between characters. -/
theorem tokenize_drops_surrogates :
    (∃ logged, tokenize (fun _ => .ok (.node (Trivia.leaf "program" 0 0) [])) [.surrogate 0] = .ok logged ∧
      logged.value.tokens = []) ∧
    (SyntaxTree.node (Trivia.leaf "program" 0 1) [.node (Trivia.leaf ";" 0 1) []]).Every
      (fun node => Boundary [.surrogate 0, ';'] node.start ∧ Boundary [.surrogate 0, ';'] node.stop) ∧
    ∃ logged, tokenize (fun _ => .ok (.node (Trivia.leaf "program" 0 1) [.node (Trivia.leaf ";" 0 1) []]))
        [.surrogate 0, ';'] = .ok logged ∧
      logged.value.tokens.flatMap Token.text = [';'] := by
  refine ⟨⟨_, rfl, rfl⟩, by decide, _, rfl, rfl⟩

end Source

end ApexComments
