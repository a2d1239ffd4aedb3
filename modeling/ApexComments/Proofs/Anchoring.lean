import ApexComments.Declaration
import ApexComments.Proofs.Association
import ApexComments.Proofs.Nodes

/-!
# The anchors of declarations

A scan anchors each declaration of a source once: the declarations that are no spill and have a
significant token at or after their start are listed, in the order of their anchored tokens and, at
one token, of the tree. No step of a scan can fail: a scan that checks the numbering of the tokens and
every index it asks the stream for gives the same result (`Scan.checked_eq`).
-/
namespace ApexComments

open Text

namespace TokenStream

/-- The first significant token that starts at or after a byte offset. -/
def IsFirstFrom (stream : TokenStream) (offset : Int) (token : Token) : Prop :=
  token ∈ stream.tokens ∧ token.isHidden = false ∧ offset ≤ token.startByte ∧
    ∀ other ∈ stream.tokens, other.isHidden = false → offset ≤ other.startByte → token.index ≤ other.index

end TokenStream

/-- A declaration that is no spill, with a significant token at or after its start. -/
def SyntaxTree.Site.IsRealDeclaration (source : Array UInt8) (stream : TokenStream) (site : SyntaxTree.Site) : Prop :=
  site.tree.root.isDeclaration = true ∧ site.isSpill source = false ∧
    ∃ token ∈ stream.tokens, token.isHidden = false ∧ (site.tree.root.start : Int) ≤ token.startByte

/-- What the anchor of a declaration says: its kind and name, and a significant token of the stream,
not after the first one from the start of the declaration, with that token's line. -/
structure Anchor.Fits (source : Array UInt8) (stream : TokenStream) (site : SyntaxTree.Site) (anchor : Anchor) :
    Prop where
  kind : DeclarationKind.ofNodeKind? site.tree.root.kind = some anchor.kind
  name : anchor.name = site.tree.declaredName? source stream
  token : ∃ token, stream.get anchor.index = .ok token ∧ token.isHidden = false ∧ anchor.line = token.line
  bound : ∃ first, stream.IsFirstFrom site.tree.root.start first ∧ anchor.index ≤ first.index

/-! ## The first token of a declaration -/

namespace TokenStream

variable {stream : TokenStream}

theorem get_of_getElem? {k : Nat} {token : Token} (here : stream.tokens[k]? = some token) :
    stream.get k = .ok token :=
  get_eq_ok_iff.mpr ⟨List.mem_of_getElem? here, index_of_getElem? here⟩

theorem firstFromByte_eq_some {offset : Int} {k : Nat} (found : stream.firstFromByte offset = some k) :
    ∃ first, stream.tokens[k]? = some first ∧ stream.IsFirstFrom offset first := by
  obtain ⟨inside, here, before⟩ := List.findIdx?_eq_some_iff_getElem.mp found
  have there := List.getElem?_eq_getElem inside
  simp only [Bool.and_eq_true, Bool.not_eq_true', decide_eq_true_eq] at here before
  refine ⟨stream.tokens[k], there, List.mem_of_getElem? there, here.1, here.2, ?_⟩
  intro other member shown from_offset
  obtain ⟨j, isThere, -, index⟩ := exists_index_of_mem member
  rw [index_of_getElem? there, index]
  by_contra earlier
  obtain ⟨within, rfl⟩ := List.getElem?_eq_some_iff.mp isThere
  exact before j (by omega) ⟨shown, from_offset⟩

theorem firstFromByte_eq_none_iff {offset : Int} :
    stream.firstFromByte offset = none ↔
      ¬ ∃ token ∈ stream.tokens, token.isHidden = false ∧ offset ≤ token.startByte := by
  rw [firstFromByte, List.findIdx?_eq_none_iff]
  simp

end TokenStream

/-- Walking back over a header either stays or comes to the position of a significant token. -/
theorem headerStart_cases (floor : Int) (reached : Nat) (tokens : List Token) :
    headerStart floor reached tokens = reached ∨
      ∃ token, tokens.reverse[headerStart floor reached tokens]? = some token ∧ token.isHidden = false := by
  induction tokens generalizing reached with
  | nil => exact .inl rfl
  | cons token rest ih =>
    have earlier {i : Nat} {found : Token} (here : rest.reverse[i]? = some found) :
        (token :: rest).reverse[i]? = some found := by
      obtain ⟨inside, -⟩ := List.getElem?_eq_some_iff.mp here
      rw [List.reverse_cons, List.getElem?_append_left inside, here]
    rw [headerStart]
    split
    · rcases ih reached with stays | ⟨found, here, shown⟩
      · exact .inl stays
      · exact .inr ⟨found, earlier here, shown⟩
    · split
      · exact .inl rfl
      · next passed =>
        simp only [Bool.or_eq_true, not_or, Bool.not_eq_true] at passed
        rcases ih rest.length with stays | ⟨found, here, shown⟩
        · refine .inr ⟨token, ?_, passed.1.1⟩
          rw [stays]
          simp
        · exact .inr ⟨found, earlier here, shown⟩

namespace Anchor

variable {source : Array UInt8} {stream : TokenStream} {site : SyntaxTree.Site}

theorem positionOf?_eq_some {i : Nat} (found : positionOf? source stream site = some i) :
    ∃ token first, stream.tokens[i]? = some token ∧ token.isHidden = false ∧
      stream.IsFirstFrom site.tree.root.start first ∧ (i : Int) ≤ first.index := by
  obtain ⟨k, start, position⟩ := Option.map_eq_some_iff.mp found
  obtain ⟨first, here, isFirst⟩ := TokenStream.firstFromByte_eq_some start
  have index := TokenStream.index_of_getElem? here
  cases reach : site.floor? source with
  | none =>
    obtain rfl : k = i := by simpa [reach] using position
    exact ⟨first, first, here, isFirst.2.1, isFirst, by omega⟩
  | some floor =>
    replace position : headerStart floor k (stream.tokens.take k).reverse = i := by simpa [reach] using position
    -- A walk back that moves at all ends on a token before the first one.
    rcases headerStart_cases floor k (stream.tokens.take k).reverse with stays | ⟨token, back, shown⟩
    · obtain rfl : k = i := by omega
      exact ⟨first, first, here, isFirst.2.1, isFirst, by omega⟩
    · rw [List.reverse_reverse, position] at back
      obtain ⟨inside, -⟩ := List.getElem?_eq_some_iff.mp back
      rw [List.length_take] at inside
      rw [List.getElem?_take_of_lt (by omega)] at back
      exact ⟨token, first, back, shown, isFirst, by omega⟩

theorem positionOf?_isSome_iff : (positionOf? source stream site).isSome ↔
    ∃ token ∈ stream.tokens, token.isHidden = false ∧ (site.tree.root.start : Int) ≤ token.startByte := by
  rw [positionOf?, Option.isSome_map, Option.isSome_iff_ne_none, ne_eq, TokenStream.firstFromByte_eq_none_iff,
    not_not]

theorem ofSite?_isSome_iff : (ofSite? source stream site).isSome ↔ site.IsRealDeclaration source stream := by
  rw [SyntaxTree.Site.IsRealDeclaration, ← positionOf?_isSome_iff, ofSite?, SyntaxNode.isDeclaration]
  cases DeclarationKind.ofNodeKind? site.tree.root.kind with
  | none => simp
  | some kind =>
    cases site.isSpill source with
    | true => simp
    | false =>
      cases position : positionOf? source stream site with
      | none => simp
      | some i =>
        obtain ⟨token, -, here, -⟩ := positionOf?_eq_some position
        simp [here]

theorem fits_of_ofSite? {anchor : Anchor} (found : ofSite? source stream site = some anchor) :
    anchor.Fits source stream site := by
  rw [ofSite?] at found
  split at found
  · cases found
  · next kind isKind =>
    split at found
    · cases found
    · split at found
      · cases found
      · next i position =>
        obtain ⟨token, first, here, shown, isFirst, bound⟩ := positionOf?_eq_some position
        rw [here] at found
        obtain rfl := Option.some.inj found
        exact ⟨isKind, rfl, ⟨token, TokenStream.get_of_getElem? here, shown, rfl⟩, first, isFirst, bound⟩

end Anchor

/-! ## Scanning with every step checked -/

/-- Why a step of a scan would fail. -/
inductive ScanFault where
  /-- A token is not at its position. -/
  | misplaced (fault : Misplaced)
  /-- The stream was asked for a token that it does not have. -/
  | outOfRange (fault : OutOfRange)
  deriving DecidableEq, Repr

/-- The word before the parameter list of a declaration, looked up by a checked index. -/
def SyntaxTree.checkedCallableName? (stream : TokenStream) (tree : SyntaxTree) : Except OutOfRange (Option Text) :=
  match tree.childByField? "parameters" with
  | none => .ok none
  | some params =>
    match stream.firstFromByte params.root.start with
    | none => .ok none
    | some i => (stream.lastBefore i).map fun before =>
      before.bind fun token =>
        if tree.root.start ≤ token.startByte && isWord token.text then some token.text else none

/-- The anchored position of a declaration, moved back by checked indices. -/
def Anchor.checkedPosition? (source : Array UInt8) (stream : TokenStream) (site : SyntaxTree.Site) :
    Except OutOfRange (Option Int) :=
  match stream.firstFromByte site.tree.root.start with
  | none => .ok none
  | some first =>
    match site.floor? source with
    | none => .ok (some first)
    | some floor => (stream.widen first floor).map some

/-- The anchor of the node at a site, with every index checked. -/
def Anchor.checked? (source : Array UInt8) (stream : TokenStream) (site : SyntaxTree.Site) :
    Except OutOfRange (Option Anchor) :=
  match DeclarationKind.ofNodeKind? site.tree.root.kind with
  | none => .ok none
  | some kind =>
    if site.isSpill source then .ok none
    else
      match Anchor.checkedPosition? source stream site with
      | .error fault => .error fault
      | .ok none => .ok none
      | .ok (some i) =>
        match site.tree.checkedCallableName? stream, stream.get i with
        | .error fault, _ => .error fault
        | _, .error fault => .error fault
        | .ok callable, .ok token =>
          .ok (some ⟨kind, callable.or (site.tree.nameNode?.map (·.text source)), i.toNat, token.line⟩)

/-- Scans the bytes of a source: the tokens are numbered and the numbering is checked, the nodes are
visited by a stack, and every index is checked. -/
def Scan.checked (source : Array UInt8) (tree : SyntaxTree) : Except ScanFault Scan :=
  match TokenStream.ofTokens ((Piece.ofTree source tree).mapIdx (Piece.toToken source)) with
  | .error fault => .error (.misplaced fault)
  | .ok stream =>
    match (SyntaxTree.walk [SyntaxTree.Site.top tree]).filterMapM (Anchor.checked? source stream) with
    | .error fault => .error (.outOfRange fault)
    | .ok anchors => .ok ⟨stream, Scan.ordered anchors⟩

theorem Misplaced.first?_eq_none {tokens : List Token} {position : Nat}
    (numbered : ∀ (i : Nat) (inside : i < tokens.length), tokens[i].index = (position + i : Nat)) :
    Misplaced.first? position tokens = none := by
  induction tokens generalizing position with
  | nil => rfl
  | cons token rest ih =>
    have here : token.index = position := numbered 0 (Nat.zero_lt_succ _)
    rw [first?, if_pos here]
    apply ih
    intro i inside
    have later := numbered (i + 1) (Nat.succ_lt_succ inside)
    rw [List.getElem_cons_succ] at later
    rw [later]
    congr 1
    omega

theorem TokenStream.ofTokens_tokens (stream : TokenStream) : TokenStream.ofTokens stream.tokens = .ok stream := by
  have numbered : Misplaced.first? 0 stream.tokens = none := by
    apply Misplaced.first?_eq_none
    intro i inside
    rw [stream.indexed i inside, Nat.zero_add]
  rw [ofTokens]
  split
  · next fault found =>
    rw [numbered] at found
    cases found
  · rfl

theorem TokenStream.widen_of_inside {stream : TokenStream} {first : Nat} (inside : first ≤ stream.size) (floor : Int) :
    stream.widen first floor = .ok (headerStart floor first (stream.tokens.take first).reverse) := by
  rw [widen]
  split
  · obtain rfl : first = 0 := by omega
    rfl
  · rw [if_neg (by omega), Int.toNat_natCast]

section

variable {source : Array UInt8} {stream : TokenStream}

theorem SyntaxTree.checkedCallableName?_eq (tree : SyntaxTree) :
    tree.checkedCallableName? stream = .ok (tree.callableName? stream) := by
  rw [checkedCallableName?, callableName?]
  cases tree.childByField? "parameters" with
  | none => rfl
  | some params =>
    cases start : stream.firstFromByte params.root.start with
    | none => simp [start]
    | some i =>
      obtain ⟨first, here, -⟩ := TokenStream.firstFromByte_eq_some start
      have inside : i < stream.size := (List.getElem?_eq_some_iff.mp here).1
      have before : stream.lastBefore i = .ok (stream.significantBefore i) := by
        rw [TokenStream.lastBefore, TokenStream.position_of_inside inside]
        rfl
      simp only [start, before]
      cases stream.significantBefore i <;> rfl

theorem Anchor.checkedPosition?_eq (site : SyntaxTree.Site) :
    Anchor.checkedPosition? source stream site =
      .ok ((Anchor.positionOf? source stream site).map Nat.cast) := by
  rw [checkedPosition?, positionOf?]
  cases start : stream.firstFromByte site.tree.root.start with
  | none => rfl
  | some first =>
    obtain ⟨token, here, -⟩ := TokenStream.firstFromByte_eq_some start
    have inside : first < stream.size := (List.getElem?_eq_some_iff.mp here).1
    cases site.floor? source with
    | none => rfl
    | some floor =>
      simp only [TokenStream.widen_of_inside (Nat.le_of_lt inside)]
      rfl

theorem Anchor.checked?_eq (site : SyntaxTree.Site) :
    Anchor.checked? source stream site = .ok (Anchor.ofSite? source stream site) := by
  rw [checked?, ofSite?]
  cases DeclarationKind.ofNodeKind? site.tree.root.kind with
  | none => rfl
  | some kind =>
    cases site.isSpill source with
    | true => rfl
    | false =>
      rw [checkedPosition?_eq]
      cases position : positionOf? source stream site with
      | none => simp
      | some i =>
        obtain ⟨token, -, here, -⟩ := positionOf?_eq_some position
        have got := TokenStream.get_of_getElem? here
        simp only [SyntaxTree.checkedCallableName?_eq, Option.map_some, got, here, SyntaxTree.declaredName?]
        cases site.tree.callableName? stream <;> rfl

end

private theorem filterMapM_eq_ok {α β ε : Type} {f : α → Except ε (Option β)} {g : α → Option β}
    (each : ∀ a, f a = .ok (g a)) (l : List α) : l.filterMapM f = .ok (l.filterMap g) := by
  induction l with
  | nil => rfl
  | cons a rest ih =>
    rw [List.filterMapM_cons, each, List.filterMap_cons]
    simp only [ih]
    cases g a <;> rfl

/-- No check of a scan fails. -/
theorem Scan.checked_eq (source : Array UInt8) (tree : SyntaxTree) :
    Scan.checked source tree = .ok (Scan.ofTree source tree).value := by
  have numbered : TokenStream.ofTokens ((Piece.ofTree source tree).mapIdx (Piece.toToken source)) =
      .ok (TokenStream.ofTree source tree) := by
    rw [← TokenStream.tokens_ofPieces]
    exact TokenStream.ofTokens_tokens _
  have visited := filterMapM_eq_ok (@Anchor.checked?_eq source (TokenStream.ofTree source tree)) tree.sites
  rw [checked, numbered]
  simp only [SyntaxTree.walk_top, visited]
  rfl

/-! ## The order of the anchors -/

/-- Sorting by a key keeps the order of elements of one key. -/
theorem pairwise_mergeSort_of_pairwise {α : Type} (key : α → Nat) {before : α → α → Prop} {l : List α}
    (order : l.Pairwise before) :
    (l.mergeSort fun a b => key a ≤ key b).Pairwise fun a b => key a < key b ∨ key a = key b ∧ before a b := by
  have trans (a b c : α) : decide (key a ≤ key b) → decide (key b ≤ key c) → decide (key a ≤ key c) := by
    simpa using fun first second => Nat.le_trans first second
  have total (a b : α) : decide (key a ≤ key b) || decide (key b ≤ key a) := by
    simpa using Nat.le_total (key a) (key b)
  induction l with
  | nil => simp
  | cons a rest ih =>
    obtain ⟨first, others⟩ := List.pairwise_cons.mp order
    -- The head of the list is put in behind all that is less and before all the rest.
    obtain ⟨left, right, sorted, remaining, less⟩ := List.mergeSort_cons trans total a rest
    have ascending := List.pairwise_mergeSort trans total (a :: rest)
    have stable := ih others
    rw [sorted] at ascending ⊢
    rw [remaining] at stable
    obtain ⟨stableLeft, stableRight, across⟩ := List.pairwise_append.mp stable
    have above := (List.pairwise_cons.mp (List.pairwise_append.mp ascending).2.1).1
    refine List.pairwise_append.mpr ⟨stableLeft, List.pairwise_cons.mpr ⟨?_, stableRight⟩, ?_⟩
    · intro b member
      have ordered : key a ≤ key b := by simpa using above b member
      have isRest : b ∈ rest.mergeSort fun a b => key a ≤ key b := by
        rw [remaining]
        exact List.mem_append_right left member
      rcases Nat.lt_or_eq_of_le ordered with lower | same
      · exact .inl lower
      · exact .inr ⟨same, first b (List.mem_mergeSort.mp isRest)⟩
    · intro b isLeft c member
      rcases List.mem_cons.mp member with rfl | isRight
      · exact .inl (by simpa using less b isLeft)
      · exact across b isLeft c isRight

namespace Scan

/-- The anchored nodes of a tree, each by its path, in pre-order. -/
def pathAnchors (source : Array UInt8) (tree : SyntaxTree) : List (List Nat × Anchor) :=
  tree.paths.filterMap fun path =>
    ((tree.siteAt? path).bind (Anchor.ofSite? source (TokenStream.ofTree source tree))).map (path, ·)

variable {source : Array UInt8} {tree : SyntaxTree}

theorem mem_pathAnchors_iff {path : List Nat} {anchor : Anchor} :
    (path, anchor) ∈ pathAnchors source tree ↔ ∃ site, tree.siteAt? path = some site ∧
      Anchor.ofSite? source (TokenStream.ofTree source tree) site = some anchor := by
  rw [pathAnchors, List.mem_filterMap]
  constructor
  · rintro ⟨other, -, found⟩
    obtain ⟨_, bound, pair⟩ := Option.map_eq_some_iff.mp found
    obtain ⟨rfl, rfl⟩ := Prod.mk.inj pair
    exact Option.bind_eq_some_iff.mp bound
  · rintro ⟨site, reached, found⟩
    exact ⟨path, SyntaxTree.mem_paths_of_siteAt? reached, by simp [reached, found]⟩

theorem map_snd_pathAnchors (source : Array UInt8) (tree : SyntaxTree) :
    (pathAnchors source tree).map Prod.snd =
      tree.sites.filterMap (Anchor.ofSite? source (TokenStream.ofTree source tree)) := by
  have sites := congrArg (List.filterMap (Option.bind · (Anchor.ofSite? source (TokenStream.ofTree source tree))))
    tree.map_siteAt?_paths
  rw [List.filterMap_map, List.filterMap_map] at sites
  rw [pathAnchors, List.map_filterMap]
  simp only [Option.map_map, Function.comp_def, Option.map_id'] at sites ⊢
  exact sites

theorem pairwise_pathAnchors (source : Array UInt8) (tree : SyntaxTree) :
    (pathAnchors source tree).Pairwise fun row other => row.1 < other.1 := by
  refine List.Pairwise.filterMap _ ?_ tree.pairwise_paths
  intro path other before row isRow otherRow isOther
  obtain ⟨_, -, rfl⟩ := Option.map_eq_some_iff.mp isRow
  obtain ⟨_, -, rfl⟩ := Option.map_eq_some_iff.mp isOther
  exact before

/-- The anchors of a scan, each with the path of its node. -/
def rows (source : Array UInt8) (tree : SyntaxTree) : List (List Nat × Anchor) :=
  (pathAnchors source tree).mergeSort fun row other => row.2.index ≤ other.2.index

theorem mem_rows_iff {path : List Nat} {anchor : Anchor} :
    (path, anchor) ∈ rows source tree ↔ ∃ site, tree.siteAt? path = some site ∧
      Anchor.ofSite? source (TokenStream.ofTree source tree) site = some anchor := by
  rw [rows, List.mem_mergeSort, mem_pathAnchors_iff]

theorem map_snd_rows (source : Array UInt8) (tree : SyntaxTree) :
    (rows source tree).map Prod.snd = (ofTree source tree).value.anchors := by
  have sorted : (rows source tree).map Prod.snd = ordered ((pathAnchors source tree).map Prod.snd) :=
    List.map_mergeSort fun row _ other _ => rfl
  rw [sorted, map_snd_pathAnchors]
  rfl

theorem pairwise_rows (source : Array UInt8) (tree : SyntaxTree) :
    (rows source tree).Pairwise fun row other =>
      row.2.index < other.2.index ∨ row.2.index = other.2.index ∧ row.1 < other.1 :=
  pairwise_mergeSort_of_pairwise (fun row => row.2.index) (pairwise_pathAnchors source tree)

/-- Two rows of one node are one row. -/
theorem nodup_map_fst_rows (source : Array UInt8) (tree : SyntaxTree) : ((rows source tree).map Prod.fst).Nodup := by
  have distinct : (pathAnchors source tree).Pairwise fun row other => row.1 ≠ other.1 := by
    refine (pairwise_pathAnchors source tree).imp ?_
    intro row other before same
    exact List.lt_irrefl _ (same ▸ before)
  have perm := List.mergeSort_perm (pathAnchors source tree) fun row other => decide (row.2.index ≤ other.2.index)
  exact (perm.map Prod.fst).nodup_iff.mpr (List.pairwise_map.mpr distinct)

/-- Every anchor of a scan stands at a significant token and has its line. -/
theorem exists_token_of_mem_anchors {anchor : Anchor} (member : anchor ∈ (ofTree source tree).value.anchors) :
    ∃ token, (TokenStream.ofTree source tree).get anchor.index = .ok token ∧ token.isHidden = false ∧
      anchor.line = token.line := by
  obtain ⟨site, -, found⟩ := List.mem_filterMap.mp (List.mem_mergeSort.mp member)
  exact (Anchor.fits_of_ofSite? found).token

theorem pairwise_index_anchors (source : Array UInt8) (tree : SyntaxTree) :
    (ofTree source tree).value.anchors.Pairwise fun anchor later => anchor.index ≤ later.index := by
  have unordered : (tree.sites.filterMap (Anchor.ofSite? source (TokenStream.ofTree source tree))).Pairwise
      fun _ _ => True := List.pairwise_of_forall fun _ _ => trivial
  refine (pairwise_mergeSort_of_pairwise Anchor.index unordered).imp ?_
  intro anchor later order
  omega

/-- A scan of a parsed source never fails, and its anchors are those of the declarations that are no
spill and have a significant token at or after their start: one for each, with a significant token not
after that one, in the order of their tokens and, at one token, in pre-order. -/
theorem ofSource_anchors_exact (parser : Parser) (source : Text) {tree : SyntaxTree}
    (parsed : parser (utf8 source) = .ok tree) :
    ∃ logged, ofSource parser source = .ok logged ∧
      checked (utf8 source).toArray tree = .ok logged.value ∧
      logged.value.stream = TokenStream.ofTree (utf8 source).toArray tree ∧
      ∃ rows : List (List Nat × Anchor), logged.value.anchors = rows.map Prod.snd ∧
        (rows.map Prod.fst).Nodup ∧
        (∀ path, path ∈ rows.map Prod.fst ↔
          ∃ site, tree.siteAt? path = some site ∧ site.IsRealDeclaration (utf8 source).toArray logged.value.stream) ∧
        (∀ row ∈ rows, ∃ site, tree.siteAt? row.1 = some site ∧
          row.2.Fits (utf8 source).toArray logged.value.stream site) ∧
        rows.Pairwise fun row other =>
          row.2.index < other.2.index ∨ row.2.index = other.2.index ∧ row.1 < other.1 := by
  let bytes := (utf8 source).toArray
  refine ⟨ofTree bytes tree, by rw [ofSource, parsed]; rfl, checked_eq bytes tree, rfl, rows bytes tree,
    (map_snd_rows bytes tree).symm, nodup_map_fst_rows bytes tree, ?_, ?_, pairwise_rows bytes tree⟩
  · intro path
    rw [List.mem_map]
    constructor
    · rintro ⟨⟨_, anchor⟩, member, rfl⟩
      obtain ⟨site, reached, found⟩ := mem_rows_iff.mp member
      exact ⟨site, reached, Anchor.ofSite?_isSome_iff.mp (Option.isSome_of_mem found)⟩
    · rintro ⟨site, reached, real⟩
      obtain ⟨anchor, found⟩ := Option.isSome_iff_exists.mp (Anchor.ofSite?_isSome_iff.mpr real)
      exact ⟨(path, anchor), mem_rows_iff.mpr ⟨site, reached, found⟩, rfl⟩
  · rintro ⟨path, anchor⟩ member
    obtain ⟨site, reached, found⟩ := mem_rows_iff.mp member
    exact ⟨site, reached, Anchor.fits_of_ofSite? found⟩

/-- A word that is taken for a field of its own, before a class. -/
private def strayWord : SyntaxTree :=
  .node (Trivia.leaf "program" 0 5) [
    .node { Trivia.leaf "field_declaration" 0 1 with hasError := true } [.node (Trivia.leaf "identifier" 0 1) []],
    .node (Trivia.leaf "class_declaration" 2 5) [.node (Trivia.leaf "identifier" 2 3) [],
      .node (Trivia.leaf "class_body" 3 5) []]]

/-- The class is anchored, the field is not. -/
theorem ofSource_anchors_exact_spill :
    ∃ logged, ofSource (fun _ => .ok strayWord) ['p', ' ', 'c', '{', '}'] = .ok logged ∧
      checked (utf8 ['p', ' ', 'c', '{', '}']).toArray strayWord = .ok logged.value ∧
      ∃ rows : List (List Nat × Anchor), logged.value.anchors = rows.map Prod.snd ∧
        [1] ∈ rows.map Prod.fst ∧ [0] ∉ rows.map Prod.fst := by
  obtain ⟨logged, scanned, noFault, stream, rows, anchors, -, listed, -, -⟩ :=
    ofSource_anchors_exact (fun _ => .ok strayWord) ['p', ' ', 'c', '{', '}'] rfl
  refine ⟨logged, scanned, noFault, rows, anchors, ?_, ?_⟩
  · rw [listed, stream]
    exact ⟨_, rfl, by decide, by decide, by decide⟩
  · rw [listed]
    rintro ⟨site, reached, -, noSpill, -⟩
    obtain rfl := Option.some.inj reached
    revert noSpill
    decide

end Scan

end ApexComments
