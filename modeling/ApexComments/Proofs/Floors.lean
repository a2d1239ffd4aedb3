import ApexComments.Proofs.Ancestors
import ApexComments.Proofs.Coverage
import ApexComments.Proofs.Headers

/-!
# Where declarations are anchored

The header of a declaration reaches back to its floor at most, the start of a sibling before it or of the error that
holds it (`SyntaxTree.Site.floor?_eq_some`). So an anchor stands behind every bound that its declaration and the floor
keep to (`Anchor.le_startByte`). In a well-nested tree the floor is not behind the declaration, whose anchor is the
token of its first leaf or, moved back, a token from the floor on. Inside another declaration the floor is not before
that one, so the outer declaration comes first.
-/
namespace ApexComments

open Text

/-! ## Floors -/

namespace SyntaxTree

variable {source : Array UInt8} {tree : SyntaxTree} {path further : List Nat} {site above : Site} {floor : Nat}

theorem exists_of_modifiersStart? {current : SyntaxNode} {before : List SyntaxTree}
    (found : modifiersStart? source current before = some floor) : ∃ tree ∈ before, tree.root.start = floor := by
  rw [modifiersStart?_eq] at found
  obtain ⟨node, last, rfl⟩ := Option.map_eq_some_iff.mp found
  have back : modifiersBack source current before <+: before.map root := modifiersBack_prefix current before
  obtain ⟨tree, isBefore, rfl⟩ := List.mem_map.mp (back.subset (List.mem_of_getLast? last))
  exact ⟨tree, isBefore, rfl⟩

/-- A floor is the start of a sibling before the node, or that of its parent. -/
theorem Site.floor?_eq_some (found : site.floor? source = some floor) :
    (∃ tree ∈ site.before, tree.root.start = floor) ∨ ∃ parent ∈ site.parent, parent.start = floor := by
  rw [Site.floor?] at found
  cases holder : site.parent with
  | none =>
    simp only [holder] at found
    exact .inl (exists_of_modifiersStart? found)
  | some parent =>
    simp only [holder] at found
    split at found
    · cases modifiers : modifiersStart? source site.tree.root site.before with
      | none =>
        simp only [modifiers] at found
        exact .inr ⟨parent, rfl, Option.some.inj found⟩
      | some start =>
        simp only [modifiers] at found
        rcases Nat.le_total start parent.start with lower | higher
        · rw [Nat.min_eq_left lower] at found
          exact .inl (exists_of_modifiersStart? (modifiers.trans found))
        · rw [Nat.min_eq_right higher] at found
          exact .inr ⟨parent, rfl, Option.some.inj found⟩
    · exact .inl (exists_of_modifiersStart? found)

theorem WellNested.floor?_le (nested : tree.WellNested) (reached : tree.siteAt? path = some site)
    (found : site.floor? source = some floor) : floor ≤ site.tree.root.start := by
  rcases Site.floor?_eq_some found with ⟨sibling, isBefore, rfl⟩ | ⟨parent, isParent, rfl⟩
  · exact nested.start_le_of_mem_before reached isBefore
  · exact ((nested site (mem_sites_of_siteAt? reached)).2.1 parent isParent).1

/-- No node starts before its parent. -/
def StartsInside (tree : SyntaxTree) : Prop :=
  ∀ site ∈ tree.sites, ∀ parent ∈ site.parent, parent.start ≤ site.tree.root.start

instance (tree : SyntaxTree) : Decidable tree.StartsInside :=
  inferInstanceAs (Decidable (∀ site ∈ tree.sites, ∀ parent ∈ site.parent, parent.start ≤ site.tree.root.start))

namespace StartsInside

variable (starts : tree.StartsInside)
include starts

theorem start_le (reachedAbove : tree.siteAt? path = some above)
    (reached : tree.siteAt? (path ++ further) = some site) : above.tree.root.start ≤ site.tree.root.start := by
  refine rel_of_siteAt? (fun outer inner => outer.start ≤ inner.start) (fun node => Nat.le_refl _) ?_ starts
    reachedAbove reached
  intro outer node inner before behind
  exact Nat.le_trans before behind

/-- The floor of a node is not before any of its ancestors: siblings and parent are below that ancestor, or the
ancestor itself. -/
theorem le_floor? (reachedAbove : tree.siteAt? path = some above) (reached : tree.siteAt? (path ++ further) = some site)
    (proper : further ≠ []) (found : site.floor? source = some floor) : above.tree.root.start ≤ floor := by
  obtain ⟨way, i, rfl⟩ := (List.eq_nil_or_concat' further).resolve_left proper
  rw [← List.append_assoc] at reached
  obtain ⟨holder, reachedHolder, isChild⟩ := siteAt?_append_singleton_iff.mp reached
  obtain ⟨isParent, -, children⟩ := Site.child?_eq_some_iff.mp isChild
  have within := starts.start_le reachedAbove reachedHolder
  rcases Site.floor?_eq_some found with ⟨sibling, isBefore, rfl⟩ | ⟨parent, here, rfl⟩
  · obtain ⟨j, other, reachedOther, -, rfl⟩ :=
      exists_siteAt?_of_mem_children reachedHolder (show sibling ∈ _ by rw [children]; simp [isBefore])
    exact Nat.le_trans within (starts.start_le reachedHolder reachedOther)
  · obtain rfl : holder.tree.root = parent := Option.some.inj (isParent.symm.trans here)
    exact within

end StartsInside

end SyntaxTree

/-! ## The token at a leaf -/

section leaf

variable {source : Array UInt8} {tree : SyntaxTree} {leaf : SyntaxNode}

theorem Piece.text_toToken_ofLeaf (source : Array UInt8) (leaf : SyntaxNode) (k : Nat) :
    ((ofLeaf source leaf).toToken source k).text = leaf.text source := by
  rw [toToken, bytes, ofLeaf_start, ofLeaf_stop, SyntaxNode.text]

theorem Piece.startByte_toToken_ofLeaf (source : Array UInt8) (leaf : SyntaxNode) (k : Nat) :
    ((ofLeaf source leaf).toToken source k).startByte = leaf.start := by
  rw [toToken, ofLeaf_start]

theorem Piece.isHidden_toToken_ofLeaf (source : Array UInt8) (leaf : SyntaxNode) (k : Nat) :
    ((ofLeaf source leaf).toToken source k).isHidden = leaf.isComment := by
  rw [isHidden_toToken, ofLeaf_hidden]

theorem TokenStream.startByte_le {stream : TokenStream} {i k : Nat} {token later : Token}
    (ascending : stream.tokens.Pairwise fun token later => token.startByte < later.startByte)
    (here : stream.tokens[i]? = some token) (there : stream.tokens[k]? = some later) (order : i ≤ k) :
    token.startByte ≤ later.startByte := by
  rcases Nat.lt_or_eq_of_le order with before | rfl
  · obtain ⟨insideHere, rfl⟩ := List.getElem?_eq_some_iff.mp here
    obtain ⟨insideThere, rfl⟩ := List.getElem?_eq_some_iff.mp there
    exact Int.le_of_lt (List.pairwise_iff_getElem.mp ascending i k insideHere insideThere before)
  · obtain rfl := Option.some.inj (here.symm.trans there)
    exact Int.le_refl _

/-- A significant token is the first one from its own start on. -/
theorem TokenStream.firstFromByte_startByte {stream : TokenStream} {k : Nat} {token : Token}
    (ascending : stream.tokens.Pairwise fun token later => token.startByte < later.startByte)
    (here : stream.tokens[k]? = some token) (shown : token.isHidden = false) :
    stream.firstFromByte token.startByte = some k := by
  obtain ⟨inside, rfl⟩ := List.getElem?_eq_some_iff.mp here
  refine List.findIdx?_eq_some_iff_getElem.mpr ⟨inside, by simp [shown], ?_⟩
  intro j earlier
  have before := List.pairwise_iff_getElem.mp ascending j k (Nat.lt_trans earlier inside) inside earlier
  simp only [Bool.and_eq_true, decide_eq_true_eq, not_and, Int.not_le]
  exact fun _ => before

/-- In a well-nested tree, a leaf that is no comment is the first significant token from its start on. -/
theorem TokenStream.exists_firstFromByte_leaf
    (inside : tree.Every fun node => node.start ≤ source.size ∧ node.stop ≤ source.size)
    (noBlank : tree.Every fun node => node.kind ≠ "whitespace") (nested : tree.WellNested)
    (member : leaf ∈ tree.leaves) (code : leaf.isComment = false) :
    ∃ k, (Piece.ofTree source tree)[k]? = some (Piece.ofLeaf source leaf) ∧
      (ofTree source tree).firstFromByte leaf.start = some k := by
  obtain ⟨k, here⟩ := List.getElem?_of_mem (Piece.ofLeaf_mem_ofTree inside noBlank nested member code)
  have first := firstFromByte_startByte (pairwise_startByte_ofTree (Piece.tiles_ofTree inside)) (token_of_piece here)
    ((Piece.isHidden_toToken_ofLeaf source leaf k).trans code)
  rw [Piece.startByte_toToken_ofLeaf] at first
  exact ⟨k, here, first⟩

end leaf

/-! ## Anchors -/

theorem TokenStream.IsHeader.floor_le {stream : TokenStream} {floor anchor start : Int} {token : Token}
    (header : stream.IsHeader floor anchor start) (earlier : start < anchor) (got : stream.get start = .ok token) :
    floor ≤ token.startByte := by
  obtain ⟨first, gotFirst, shown⟩ := header.opens earlier
  obtain rfl : token = first := Except.ok.inj (got.symm.trans gotFirst)
  obtain ⟨member, index⟩ := get_eq_ok_iff.mp got
  rcases header.within token member (by omega) (by omega) with ⟨hidden, -⟩ | joins
  · simp [hidden] at shown
  · exact joins.2.1

namespace Anchor

variable {source : Array UInt8} {stream : TokenStream} {site : SyntaxTree.Site} {anchor : Anchor}

theorem positionOf?_of_ofSite? (found : ofSite? source stream site = some anchor) :
    positionOf? source stream site = some anchor.index := by
  rw [ofSite?] at found
  split at found
  · cases found
  · split at found
    · cases found
    · split at found
      · cases found
      · next i position =>
        obtain ⟨token, -, rfl⟩ := Option.map_eq_some_iff.mp found
        exact position

/-- A position is that of the first significant token of the declaration or, where there is a floor, what widening
comes to from there. -/
theorem positionOf?_cases {i : Nat} (position : positionOf? source stream site = some i) :
    ∃ k : Nat, stream.firstFromByte site.tree.root.start = some k ∧
      (site.floor? source = none ∧ i = k ∨ ∃ floor : Nat, site.floor? source = some floor ∧
        stream.widen k floor = .ok i ∧ stream.IsHeader floor k i) := by
  obtain ⟨k, first, moved⟩ := Option.map_eq_some_iff.mp position
  refine ⟨k, first, ?_⟩
  cases reach : site.floor? source with
  | none => exact .inl ⟨rfl, by simpa [reach] using moved.symm⟩
  | some floor =>
    replace moved : headerStart floor k (stream.tokens.take k).reverse = i := by simpa [reach] using moved
    obtain ⟨token, here, -⟩ := TokenStream.firstFromByte_eq_some first
    have inside : k < stream.size := (List.getElem?_eq_some_iff.mp here).1
    have widened := TokenStream.widen_of_inside (Nat.le_of_lt inside) floor
    rw [moved] at widened
    obtain ⟨start, again, header, -⟩ :=
      TokenStream.exists_widen (Int.natCast_nonneg k) (Int.ofNat_le.mpr (Nat.le_of_lt inside)) floor
    obtain rfl : start = i := Except.ok.inj (again.symm.trans widened)
    exact .inr ⟨floor, rfl, widened, header⟩

/-- The anchored token does not start before a bound that the declaration and its floor keep to. -/
theorem le_startByte {low : Int} {i : Nat} {token : Token} (position : positionOf? source stream site = some i)
    (here : stream.tokens[i]? = some token) (start : low ≤ site.tree.root.start)
    (floors : ∀ floor, site.floor? source = some floor → low ≤ floor) : low ≤ token.startByte := by
  obtain ⟨k, first, way⟩ := positionOf?_cases position
  obtain ⟨initial, there, -, -, behind, -⟩ := TokenStream.firstFromByte_eq_some first
  have initially (same : i = k) : low ≤ token.startByte := by
    obtain rfl : initial = token := Option.some.inj (there.symm.trans (same ▸ here))
    exact Int.le_trans start behind
  rcases way with ⟨-, same⟩ | ⟨floor, found, -, header⟩
  · exact initially same
  · -- Only a token that has been moved back need not start behind the declaration.
    rcases Int.lt_or_eq_of_le header.le with earlier | same
    · exact Int.le_trans (floors floor found) (header.floor_le earlier (TokenStream.get_of_getElem? here))
    · exact initially (by omega)

/-- Widening from a token comes to one between the floor and that token. -/
theorem widened_between {i k floor : Nat} {token : Token} (position : positionOf? source stream site = some i)
    (ascending : stream.tokens.Pairwise fun token later => token.startByte < later.startByte)
    (first : stream.firstFromByte site.tree.root.start = some k) (here : stream.tokens[k]? = some token)
    (found : site.floor? source = some floor) (before : floor ≤ site.tree.root.start) :
    stream.widen k floor = .ok i ∧ ∃ widened, stream.get i = .ok widened ∧ floor ≤ widened.startByte ∧
      widened.startByte ≤ token.startByte := by
  obtain ⟨j, again, way⟩ := positionOf?_cases position
  obtain rfl : k = j := Option.some.inj (first.symm.trans again)
  rcases way with ⟨none, -⟩ | ⟨other, same, widened, header⟩
  · simp [found] at none
  · obtain rfl : floor = other := Option.some.inj (found.symm.trans same)
    obtain ⟨anchored, -, there, -⟩ := positionOf?_eq_some position
    have low : floor ≤ anchored.startByte := by
      refine le_startByte position there (Int.ofNat_le.mpr before) fun other reach => ?_
      obtain rfl : floor = other := Option.some.inj (found.symm.trans reach)
      exact Int.le_refl _
    have high := TokenStream.startByte_le ascending there here (Int.ofNat_le.mp header.le)
    exact ⟨widened, anchored, TokenStream.get_of_getElem? there, low, high⟩

end Anchor

/-! ## Declarations and their first leaves -/

namespace Scan

variable {source : Array UInt8} {tree : SyntaxTree}

theorem mem_anchors_of_ofSite? {site : SyntaxTree.Site} {anchor : Anchor} (member : site ∈ tree.sites)
    (found : Anchor.ofSite? source (TokenStream.ofTree source tree) site = some anchor) :
    anchor ∈ (ofTree source tree).value.anchors :=
  List.mem_mergeSort.mpr (List.mem_filterMap.mpr ⟨site, member, found⟩)

/-- In a source with a well-nested tree inside it, without nodes of the kind that blank gaps have, take a declaration
in code that is no spill and whose first leaf is no comment and starts where the declaration starts. It is reported, and
before widening its anchor is the token of that leaf. Where it has a floor, the floor is not behind its start, and the
token that widening comes to starts between the two. -/
theorem ofSource_anchor_exact (parser : Parser) (source : Text) {tree : SyntaxTree}
    (parsed : parser (utf8 source) = .ok tree)
    (inside : tree.Every fun node => node.start ≤ (utf8 source).length ∧ node.stop ≤ (utf8 source).length)
    (noBlank : tree.Every fun node => node.kind ≠ "whitespace") (nested : tree.WellNested)
    {path : List Nat} {site : SyntaxTree.Site} {leaf : SyntaxNode} (reached : tree.siteAt? path = some site)
    (declares : site.tree.root.isDeclaration = true) (noSpill : site.isSpill (utf8 source).toArray = false)
    (inCode : tree.InCode path) (first : site.tree.leaves.head? = some leaf) (code : leaf.isComment = false)
    (starts : leaf.start = site.tree.root.start) :
    ∃ logged anchor, ofSource parser source = .ok logged ∧ anchor ∈ logged.value.anchors ∧
      Anchor.ofSite? (utf8 source).toArray logged.value.stream site = some anchor ∧
      ∃ (k : Nat) (token : Token), logged.value.stream.firstFromByte site.tree.root.start = some k ∧
        logged.value.stream.get k = .ok token ∧ token.kind = leaf.kind ∧
        token.startByte = site.tree.root.start ∧ token.text = leaf.text (utf8 source).toArray ∧
        (site.floor? (utf8 source).toArray = none → anchor.index = k) ∧
        ∀ floor, site.floor? (utf8 source).toArray = some floor → floor ≤ site.tree.root.start ∧
          logged.value.stream.widen k floor = .ok anchor.index ∧
          ∃ widened, logged.value.stream.get anchor.index = .ok widened ∧ floor ≤ widened.startByte ∧
            widened.startByte ≤ site.tree.root.start := by
  let bytes := (utf8 source).toArray
  let stream := TokenStream.ofTree bytes tree
  have bounded : tree.Every fun node => node.start ≤ bytes.size ∧ node.stop ≤ bytes.size := inside
  have ascending := TokenStream.pairwise_startByte_ofTree (Piece.tiles_ofTree bounded)
  have isLeaf := nested.mem_leaves_of_inCode reached inCode (List.mem_of_mem_head? first)
  obtain ⟨k, piece, fromLeaf⟩ := TokenStream.exists_firstFromByte_leaf bounded noBlank nested isLeaf code
  have here := TokenStream.token_of_piece piece
  have begins := Piece.startByte_toToken_ofLeaf bytes leaf k
  rw [starts] at fromLeaf begins
  obtain ⟨token, there, member, shown, behind, -⟩ := TokenStream.firstFromByte_eq_some fromLeaf
  obtain ⟨anchor, found⟩ := Option.isSome_iff_exists.mp
    (Anchor.ofSite?_isSome_iff.mpr ⟨declares, noSpill, token, member, shown, behind⟩)
  have position := Anchor.positionOf?_of_ofSite? found
  refine ⟨ofTree bytes tree, anchor, by rw [ofSource, parsed]; rfl,
    mem_anchors_of_ofSite? (SyntaxTree.mem_sites_of_siteAt? reached) found, found, k, _, fromLeaf,
    TokenStream.get_of_getElem? here, Piece.ofLeaf_kind code, begins, Piece.text_toToken_ofLeaf bytes leaf k, ?_, ?_⟩
  · intro none
    obtain ⟨j, again, ⟨-, same⟩ | ⟨floor, reach, -⟩⟩ := Anchor.positionOf?_cases position
    · exact same.trans (Option.some.inj (again.symm.trans fromLeaf))
    · cases none.symm.trans reach
  · intro floor reach
    have before := nested.floor?_le reached reach
    have between := Anchor.widened_between position ascending fromLeaf here reach before
    rw [begins] at between
    exact ⟨before, between⟩

/-- A word that is taken for a field of its own, behind a comment and before a class. -/
private def strayHeader : Text := ['/', '*', '*', '/', 'p', ' ', 'c', '{', '}']

private def strayHeaderTree : SyntaxTree :=
  .node (Trivia.leaf "program" 0 9) [
    .node (Trivia.leaf "block_comment" 0 4) [],
    .node { Trivia.leaf "field_declaration" 4 5 with hasError := true } [.node (Trivia.leaf "identifier" 4 5) []],
    .node (Trivia.leaf "class_declaration" 6 9) [.node (Trivia.leaf "identifier" 6 7) [],
      .node (Trivia.leaf "class_body" 7 9) []]]

/-- The class starts with its name, and its anchor is moved back to the word, where the floor is. -/
theorem ofSource_anchor_exact_stray_header :
    strayHeaderTree.WellNested ∧ strayHeaderTree.InCode [2] ∧
    ∃ logged anchor, ofSource (fun _ => .ok strayHeaderTree) strayHeader = .ok logged ∧
      anchor ∈ logged.value.anchors ∧
      ∃ (k : Nat) (token widened : Token), logged.value.stream.firstFromByte 6 = some k ∧
        logged.value.stream.get k = .ok token ∧ token.text = ['c'] ∧
        logged.value.stream.get anchor.index = .ok widened ∧ 4 ≤ widened.startByte ∧ widened.startByte ≤ 6 := by
  have nested : strayHeaderTree.WellNested := by decide
  have inCode : strayHeaderTree.InCode [2] := by decide
  have reached : strayHeaderTree.siteAt? [2] = some _ := rfl
  obtain ⟨logged, anchor, scanned, member, -, k, token, first, got, -, -, text, -, widened⟩ :=
    ofSource_anchor_exact (fun _ => .ok strayHeaderTree) strayHeader rfl (by decide) (by decide) nested reached
      (by decide) (by decide) inCode rfl rfl rfl
  obtain ⟨-, -, last, gotLast, low, high⟩ := widened 4 (by decide)
  refine ⟨nested, inCode, logged, anchor, scanned, member, k, token, last, first, got, ?_, gotLast, low, high⟩
  rw [text]
  decide

end Scan

/-! ## Declarations in declarations -/

/-- A declaration is not anchored behind one that it holds: the anchor of the inner one is a significant token from the
start of the outer one on, and the outer one is not anchored behind the first such token. -/
theorem Anchor.index_le_of_ancestor {source : Array UInt8} {stream : TokenStream} {tree : SyntaxTree}
    {path further : List Nat} {above site : SyntaxTree.Site} {outer inner : Anchor} (starts : tree.StartsInside)
    (reachedAbove : tree.siteAt? path = some above) (reached : tree.siteAt? (path ++ further) = some site)
    (proper : further ≠ []) (foundAbove : ofSite? source stream above = some outer)
    (found : ofSite? source stream site = some inner) : outer.index ≤ inner.index := by
  have position := positionOf?_of_ofSite? found
  obtain ⟨token, -, here, shown, -⟩ := positionOf?_eq_some position
  have behind : above.tree.root.start ≤ token.startByte := by
    refine le_startByte position here (Int.ofNat_le.mpr (starts.start_le reachedAbove reached)) fun floor reach => ?_
    exact Int.ofNat_le.mpr (starts.le_floor? reachedAbove reached proper reach)
  obtain ⟨first, isFirst, bound⟩ := (fits_of_ofSite? foundAbove).bound
  have minimal := isFirst.2.2.2 token (List.mem_of_getElem? here) shown behind
  rw [TokenStream.index_of_getElem? here] at minimal
  omega

namespace Scan

variable {source : Array UInt8} {tree : SyntaxTree}

/-- A row that is not of a greater index stands before the rows of the nodes below its own. -/
theorem lt_of_isPrefix {i j : Nat} {outer inner : List Nat} {first second : Anchor}
    (here : (rows source tree)[i]? = some (outer, first)) (there : (rows source tree)[j]? = some (inner, second))
    (below : outer <+: inner) (proper : outer ≠ inner) (order : first.index ≤ second.index) : i < j := by
  obtain ⟨insideHere, isHere⟩ := List.getElem?_eq_some_iff.mp here
  obtain ⟨insideThere, isThere⟩ := List.getElem?_eq_some_iff.mp there
  rcases Nat.lt_trichotomy i j with earlier | rfl | later
  · exact earlier
  · exact absurd (congrArg Prod.fst (isHere.symm.trans isThere)) proper
  · -- Of one index, the rows stand in the order of their paths, and a path comes after what it begins with.
    have swapped := List.pairwise_iff_getElem.mp (pairwise_rows source tree) j i insideThere insideHere later
    rw [isHere, isThere] at swapped
    rcases swapped with less | ⟨-, before⟩
    · exact absurd order (Nat.not_le.mpr less)
    · exact absurd before below.le

/-- Enclosing declarations come first. In a source with a tree in which no node starts before its parent, the anchors
are listed one for each reported node, and where a reported node is a proper ancestor of another one, its index is not
greater and it stands before the other in the list. -/
theorem ofSource_outer_first (parser : Parser) (source : Text) {tree : SyntaxTree}
    (parsed : parser (utf8 source) = .ok tree) (starts : tree.StartsInside) :
    ∃ logged, ofSource parser source = .ok logged ∧
      ∃ rows : List (List Nat × Anchor), logged.value.anchors = rows.map Prod.snd ∧
        (rows.map Prod.fst).Nodup ∧
        (∀ path anchor, (path, anchor) ∈ rows ↔ ∃ site, tree.siteAt? path = some site ∧
          Anchor.ofSite? (utf8 source).toArray logged.value.stream site = some anchor) ∧
        ∀ (i j : Nat) (outer inner : List Nat) (first second : Anchor), rows[i]? = some (outer, first) →
          rows[j]? = some (inner, second) → outer <+: inner → outer ≠ inner → first.index ≤ second.index ∧ i < j := by
  let bytes := (utf8 source).toArray
  refine ⟨ofTree bytes tree, by rw [ofSource, parsed]; rfl, rows bytes tree, (map_snd_rows bytes tree).symm,
    nodup_map_fst_rows bytes tree, fun path anchor => mem_rows_iff, ?_⟩
  intro i j outer inner first second here there below proper
  obtain ⟨above, reachedAbove, foundAbove⟩ := mem_rows_iff.mp (List.mem_of_getElem? here)
  obtain ⟨site, reached, found⟩ := mem_rows_iff.mp (List.mem_of_getElem? there)
  obtain ⟨further, rfl⟩ := below
  have order := Anchor.index_le_of_ancestor starts reachedAbove reached (by simpa using proper) foundAbove found
  exact ⟨order, lt_of_isPrefix here there ⟨further, rfl⟩ proper order⟩

/-- A class that is an error all over: a word and a method. -/
private def strayMethodTree : SyntaxTree :=
  .node (Trivia.leaf "program" 0 3) [.node (Trivia.leaf "class_declaration" 0 3) [.node (Trivia.leaf "ERROR" 0 3) [
    .node (Trivia.leaf "identifier" 0 1) [],
    .node (Trivia.leaf "method_declaration" 2 3) [.node (Trivia.leaf "identifier" 2 3) []]]]]

/-- The anchor of the method is moved back to the word, where the class is anchored, and the class comes first. -/
theorem ofSource_outer_first_stray_method :
    strayMethodTree.StartsInside ∧
    ∃ logged, ofSource (fun _ => .ok strayMethodTree) ['g', ' ', 'm'] = .ok logged ∧
      ∃ rows : List (List Nat × Anchor), logged.value.anchors = rows.map Prod.snd ∧
        ∃ (i j : Nat) (first second : Anchor), rows[i]? = some ([0], first) ∧ rows[j]? = some ([0, 0, 1], second) ∧
          first.index = second.index ∧ i < j := by
  have starts : strayMethodTree.StartsInside := by decide
  obtain ⟨logged, scanned, rows, anchors, -, listed, order⟩ :=
    ofSource_outer_first (fun _ => .ok strayMethodTree) ['g', ' ', 'm'] rfl starts
  obtain rfl := Except.ok.inj scanned
  have outer : ([0], ⟨.classType, none, 0, 1⟩) ∈ rows := (listed _ _).mpr ⟨_, rfl, by decide +kernel⟩
  have inner : ([0, 0, 1], ⟨.method, none, 0, 1⟩) ∈ rows := (listed _ _).mpr ⟨_, rfl, by decide +kernel⟩
  obtain ⟨i, here⟩ := List.getElem?_of_mem outer
  obtain ⟨j, there⟩ := List.getElem?_of_mem inner
  exact ⟨starts, _, rfl, rows, anchors, i, j, _, _, here, there, rfl,
    (order i j _ _ _ _ here there (by decide) (by decide)).2⟩

end Scan

end ApexComments
