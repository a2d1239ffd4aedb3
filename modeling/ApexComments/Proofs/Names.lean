import ApexComments.Proofs.Floors

/-!
# The names of callables

A method or a constructor is named by the word before its parameter list or, where there is none, by the node that the
grammar marks as its name. Where that node is in place, with nothing but blanks and comments up to the parameters, the
significant token before the parameters is the token of the name, or a blank that is no word
(`SyntaxTree.NameInPlace.exists_before`). So both ways come to one name.
-/
namespace ApexComments

open Text

/-! ## Blanks are no words -/

theorem Text.isWordChar_of_isBlankByte {b : UInt8} (blank : isBlankByte b = true) :
    isWordChar (.char (.ofNat b.toNat)) = false := by
  simp only [isBlankByte, Bool.or_eq_true, Bool.and_eq_true, decide_eq_true_eq, beq_iff_eq] at blank
  generalize b.toNat = n at blank
  have values : n = 9 ∨ n = 10 ∨ n = 11 ∨ n = 12 ∨ n = 13 ∨ n = 32 := by omega
  rcases values with rfl | rfl | rfl | rfl | rfl | rfl <;> decide

theorem isWord_decode_of_blankBytes {bytes : List UInt8} (blank : blankBytes bytes = true) :
    isWord (decode bytes) = false := by
  cases bytes with
  | nil => rfl
  | cons b rest =>
    have first : isBlankByte b = true := List.all_eq_true.mp blank b List.mem_cons_self
    have ascii : b.toNat < 0x80 := by
      simp only [isBlankByte, Bool.or_eq_true, Bool.and_eq_true, decide_eq_true_eq, beq_iff_eq] at first
      omega
    rw [decode_eq_decodeAfter, decodeAfter, headChar?_of_lt ascii]
    simp [isWord, isWordChar_of_isBlankByte first]

/-! ## Significant tokens without code -/

namespace Piece

variable {source : Array UInt8} {tree : SyntaxTree} {piece : Piece} {k : Nat}

theorem exists_offset_of_mem_slice {start stop : Nat} {byte : UInt8} (member : byte ∈ slice source start stop) :
    ∃ offset, start ≤ offset ∧ offset < stop ∧ source[offset]? = some byte := by
  obtain ⟨i, here⟩ := List.getElem?_of_mem member
  rw [slice_eq_drop_take, List.getElem?_drop, List.getElem?_take] at here
  split at here
  · next inside => exact ⟨start + i, Nat.le_add_right start i, inside, by simpa using here⟩
  · cases here

theorem eq_singleton_of_fuse {group : List Piece} (fused : fuse group = some piece) (shown : piece.hidden = false) :
    group = [piece] := by
  rcases group with _ | ⟨first, _ | ⟨second, rest⟩⟩
  · cases fused
  · rw [Option.some.inj fused]
  · obtain rfl := Option.some.inj fused
    cases shown

/-- A significant piece of blanks is a leaf: a gap of blanks is hidden. -/
theorem exists_leaf_of_blankBytes (member : piece ∈ ofTree source tree) (shown : piece.hidden = false)
    (blank : blankBytes (piece.bytes source) = true) :
    ∃ leaf ∈ tree.leaves, leaf.isComment = false ∧ piece = ofLeaf source leaf := by
  obtain ⟨group, among, fused⟩ := List.mem_filterMap.mp member
  obtain rfl := eq_singleton_of_fuse fused shown
  rcases laid_of_mem_group among List.mem_cons_self with ⟨leaf, isLeaf, rfl⟩ | ⟨start, stop, rfl⟩
  · rw [ofLeaf_hidden] at shown
    exact ⟨leaf, isLeaf, shown, rfl⟩
  · rw [bytes, ofGap_start, ofGap_stop] at blank
    rw [ofGap, if_pos blank] at shown
    cases shown

variable (inside : tree.Every fun node => node.start ≤ source.size ∧ node.stop ≤ source.size)
  (noBlank : tree.Every fun node => node.kind ≠ "whitespace")
include inside noBlank

/-- A significant piece holds no byte of a comment, so one without code is blank. -/
theorem blankBytes_of_noCodeAt (nested : tree.WellNested) (here : (ofTree source tree)[k]? = some piece)
    (shown : piece.hidden = false)
    (noCode : ∀ offset, piece.start ≤ offset → offset < piece.stop → NoCodeAt source tree.leaves offset) :
    blankBytes (piece.bytes source) = true := by
  refine List.all_eq_true.mpr fun byte member => ?_
  obtain ⟨offset, low, high, isByte⟩ := exists_offset_of_mem_slice member
  rcases noCode offset low high with ⟨other, isOther, blank⟩ | ⟨comment, isLeaf, isComment, begins, ends⟩
  · obtain rfl : other = byte := Option.some.inj (isOther.symm.trans isByte)
    exact blank
  · obtain ⟨j, token, there, hidden, only, -⟩ := TokenStream.exists_token_of_leaf inside noBlank nested isLeaf
    have holds := (TokenStream.holdsByte_iff (tiles_ofTree inside) here).mpr ⟨low, high⟩
    obtain rfl : k = j := (only offset begins ends k).mp holds
    obtain rfl := Option.some.inj ((TokenStream.token_of_piece here).symm.trans there)
    rw [isHidden_toToken, shown, isComment] at hidden
    cases hidden

end Piece

/-! ## The token before the parameters -/

/-- The significant token before a position is not before any other one. -/
theorem TokenStream.exists_significantBefore {stream : TokenStream} {i m : Nat} {token : Token}
    (here : stream.tokens[m]? = some token) (shown : token.isHidden = false) (order : m < i) :
    ∃ (k : Nat) (last : Token), stream.significantBefore i = some last ∧ stream.tokens[k]? = some last ∧
      last.isHidden = false ∧ m ≤ k ∧ k < i := by
  have member := List.mem_of_getElem? here
  have index := index_of_getElem? here
  cases before : stream.significantBefore i with
  | none =>
    have hidden := significantBefore_eq_none_iff.mp before token member (by omega)
    simp [shown] at hidden
  | some last =>
    obtain ⟨isToken, below, lastShown, between⟩ := significantBefore_eq_some before
    obtain ⟨k, there, -, position⟩ := exists_index_of_mem isToken
    refine ⟨k, last, rfl, there, lastShown, ?_, by omega⟩
    by_contra earlier
    have hidden := between token member (by omega) (by omega)
    simp [shown] at hidden

namespace SyntaxTree

variable {source : Array UInt8} {stream : TokenStream} {tree callable name params : SyntaxTree} {path : List Nat}
  {site : Site} {leaf opening : SyntaxNode}

/-- Leaves behind a leaf beside them are leaves of the tree: a comment or a literal around both would be the first leaf
itself, and hold nothing behind it. -/
theorem WellNested.mem_leaves_beside (nested : tree.WellNested) (reached : tree.siteAt? path = some site)
    (isName : name ∈ site.tree.children) (isParams : params ∈ site.tree.children) (isLeaf : name.root ∈ tree.leaves)
    (wide : name.root.start < name.root.stop) (order : name.root.stop ≤ params.root.start)
    (member : leaf ∈ params.leaves) : leaf ∈ tree.leaves := by
  obtain ⟨j, beside, reachedBeside, -, rfl⟩ := exists_siteAt?_of_mem_children reached isParams
  rcases nested.mem_leaves_or reachedBeside member with found | ⟨k, short, above, reachedAbove, -, isAbove⟩
  · exact found
  · have upTo : k ≤ path.length := by simpa [Nat.lt_succ_iff] using short
    rw [List.take_append_of_le_length upTo] at reachedAbove
    have around := nested.encloses reachedAbove ((List.take_append_drop k path).symm ▸ reached)
    have aroundName := nested.encloses_child reached isName
    have aroundParams := nested.encloses_child reached isParams
    have paramsWide := Site.start_lt_stop_of_mem_leaves member
    simp only [SyntaxNode.Encloses] at around aroundName aroundParams
    have same := nested.eq_of_mem_leaves isAbove isLeaf (by omega) (by omega)
    rw [same] at around
    omega

/-- The name of a callable is in place: the grammar marks a name and parameters, the name is a leaf before the
parameters, which begin with a leaf, and between the two are blanks and comments only. -/
structure NameInPlace (source : Array UInt8) (tree callable name params : SyntaxTree) (opening : SyntaxNode) :
    Prop where
  isName : callable.childByField? "name" = some name
  isParams : callable.childByField? "parameters" = some params
  isLeaf : name.root ∈ tree.leaves
  code : name.root.isComment = false
  before : name.root.stop ≤ params.root.start
  opens : params.leaves.head? = some opening
  openingCode : opening.isComment = false
  openingStart : opening.start = params.root.start
  noCode : ∀ offset, name.root.stop ≤ offset → offset < params.root.start → Piece.NoCodeAt source tree.leaves offset

theorem callableName?_of_before {i : Nat} {token : Token} (isParams : callable.childByField? "parameters" = some params)
    (first : stream.firstFromByte params.root.start = some i) (before : stream.significantBefore i = some token) :
    callable.callableName? stream =
      if callable.root.start ≤ token.startByte && isWord token.text then some token.text else none := by
  simp only [callableName?, isParams, first, before]

namespace NameInPlace

variable (inside : tree.Every fun node => node.start ≤ source.size ∧ node.stop ≤ source.size)
  (noBlank : tree.Every fun node => node.kind ≠ "whitespace") (nested : tree.WellNested)
include inside noBlank nested

omit noBlank in
theorem opening_mem_leaves (inPlace : NameInPlace source tree site.tree name params opening)
    (reached : tree.siteAt? path = some site) : opening ∈ tree.leaves :=
  nested.mem_leaves_beside reached (List.mem_of_find?_eq_some inPlace.isName)
    (List.mem_of_find?_eq_some inPlace.isParams) inPlace.isLeaf (inside.of_mem_leaves inPlace.isLeaf).1 inPlace.before
    (List.mem_of_mem_head? inPlace.opens)

/-- A significant piece between the name and the parameters is no word, but a leaf of blanks. -/
theorem exists_leaf_between {piece : Piece} {k : Nat} (inPlace : NameInPlace source tree callable name params opening)
    (here : (Piece.ofTree source tree)[k]? = some piece) (shown : piece.hidden = false)
    (low : name.root.stop ≤ piece.start) (high : piece.stop ≤ params.root.start) :
    isWord (piece.toToken source k).text = false ∧ ∃ leaf ∈ tree.leaves, leaf.isComment = false ∧
      name.root.stop ≤ leaf.start ∧ leaf.stop ≤ params.root.start := by
  have blank : blankBytes (piece.bytes source) = true := by
    refine Piece.blankBytes_of_noCodeAt inside noBlank nested here shown fun offset begins ends => ?_
    exact inPlace.noCode offset (Nat.le_trans low begins) (Nat.lt_of_lt_of_le ends high)
  obtain ⟨leaf, isLeaf, code, rfl⟩ := Piece.exists_leaf_of_blankBytes (List.mem_of_getElem? here) shown blank
  rw [Piece.ofLeaf_start] at low
  rw [Piece.ofLeaf_stop] at high
  exact ⟨isWord_decode_of_blankBytes blank, leaf, isLeaf, code, low, high⟩

/-- The significant token before the parameters is that of the name or, behind it, a leaf of blanks. -/
theorem exists_before (inPlace : NameInPlace source tree site.tree name params opening)
    (reached : tree.siteAt? path = some site) :
    ∃ (i : Nat) (token : Token), (TokenStream.ofTree source tree).firstFromByte params.root.start = some i ∧
      (TokenStream.ofTree source tree).significantBefore i = some token ∧
      (token.startByte = name.root.start ∧ token.text = name.root.text source ∨
        isWord token.text = false ∧ ∃ leaf ∈ tree.leaves, leaf.isComment = false ∧
          name.root.stop ≤ leaf.start ∧ leaf.stop ≤ params.root.start) := by
  have tiles := Piece.tiles_ofTree inside
  have isOpening := inPlace.opening_mem_leaves inside nested reached
  obtain ⟨m, namePiece, -⟩ :=
    TokenStream.exists_firstFromByte_leaf inside noBlank nested inPlace.isLeaf inPlace.code
  obtain ⟨i, openingPiece, first⟩ :=
    TokenStream.exists_firstFromByte_leaf inside noBlank nested isOpening inPlace.openingCode
  rw [inPlace.openingStart] at first
  have nameToken := TokenStream.token_of_piece namePiece
  have order : m < i := by
    by_contra later
    have starts := TokenStream.startByte_le (TokenStream.pairwise_startByte_ofTree tiles)
      (TokenStream.token_of_piece openingPiece) nameToken (Nat.not_lt.mp later)
    rw [Piece.startByte_toToken_ofLeaf, Piece.startByte_toToken_ofLeaf, inPlace.openingStart] at starts
    have wide := (inside.of_mem_leaves inPlace.isLeaf).1
    have before := inPlace.before
    omega
  have nameShown := (Piece.isHidden_toToken_ofLeaf source name.root m).trans inPlace.code
  obtain ⟨k, last, before, there, shown, behind, below⟩ :=
    TokenStream.exists_significantBefore nameToken nameShown order
  refine ⟨i, last, first, before, ?_⟩
  -- Between the token of the name and that of the parameters there is no code to be a word.
  rcases Nat.eq_or_lt_of_le behind with rfl | later
  · obtain rfl := Option.some.inj (nameToken.symm.trans there)
    exact .inl ⟨Piece.startByte_toToken_ofLeaf source name.root m, Piece.text_toToken_ofLeaf source name.root m⟩
  · rw [TokenStream.getElem?_ofTree] at there
    obtain ⟨piece, here, rfl⟩ := Option.map_eq_some_iff.mp there
    rw [Piece.isHidden_toToken] at shown
    have low := tiles.stop_le_start namePiece here later
    have high := tiles.stop_le_start here openingPiece below
    rw [Piece.ofLeaf_stop] at low
    rw [Piece.ofLeaf_start, inPlace.openingStart] at high
    exact .inr (inPlace.exists_leaf_between inside noBlank nested here shown low high)

/-- A word before the parameters is the name. There is none where the name is no word, or where a leaf of blanks is
behind it. -/
theorem callableName?_cases (inPlace : NameInPlace source tree site.tree name params opening)
    (reached : tree.siteAt? path = some site) :
    site.tree.callableName? (TokenStream.ofTree source tree) = some (name.root.text source) ∨
      site.tree.callableName? (TokenStream.ofTree source tree) = none ∧ (isWord (name.root.text source) = false ∨
        ∃ leaf ∈ tree.leaves, leaf.isComment = false ∧ name.root.stop ≤ leaf.start ∧
          leaf.stop ≤ params.root.start) := by
  obtain ⟨i, token, first, before, ⟨begins, text⟩ | ⟨noWord, between⟩⟩ :=
    inPlace.exists_before inside noBlank nested reached
  · have within := (nested.encloses_child reached (List.mem_of_find?_eq_some inPlace.isName)).1
    rw [callableName?_of_before inPlace.isParams first before, begins, text]
    cases word : isWord (name.root.text source) with
    | true => exact .inl (by simp [within])
    | false => exact .inr (by simp)
  · rw [callableName?_of_before inPlace.isParams first before, noWord]
    exact .inr ⟨by simp, .inr between⟩

theorem declaredName?_eq (inPlace : NameInPlace source tree site.tree name params opening)
    (reached : tree.siteAt? path = some site) :
    site.tree.declaredName? source (TokenStream.ofTree source tree) = some (name.root.text source) := by
  rw [declaredName?]
  rcases inPlace.callableName?_cases inside noBlank nested reached with word | ⟨noWord, -⟩
  · rw [word]
  · rw [noWord, nameNode?, inPlace.isName, Option.map_some]

end NameInPlace

end SyntaxTree

namespace Scan

/-- Both ways of naming a callable agree. In a source with a well-nested tree inside it, without nodes of the kind that
blank gaps have, take a node whose name is in place. The name that a scan gives it is the text of the node that the
grammar marks. Where that text is a word and all leaves up to the parameters are comments, it is the word before the
parameters already. -/
theorem ofSource_names_agree (parser : Parser) (source : Text) {tree : SyntaxTree}
    (parsed : parser (utf8 source) = .ok tree)
    (inside : tree.Every fun node => node.start ≤ (utf8 source).length ∧ node.stop ≤ (utf8 source).length)
    (noBlank : tree.Every fun node => node.kind ≠ "whitespace") (nested : tree.WellNested)
    {path : List Nat} {site : SyntaxTree.Site} {name params : SyntaxTree} {opening : SyntaxNode}
    (reached : tree.siteAt? path = some site)
    (inPlace : SyntaxTree.NameInPlace (utf8 source).toArray tree site.tree name params opening) :
    ∃ logged, ofSource parser source = .ok logged ∧
      site.tree.declaredName? (utf8 source).toArray logged.value.stream =
        some (name.root.text (utf8 source).toArray) ∧
      (∀ anchor, Anchor.ofSite? (utf8 source).toArray logged.value.stream site = some anchor →
        anchor.name = some (name.root.text (utf8 source).toArray)) ∧
      (isWord (name.root.text (utf8 source).toArray) = true →
        (∀ leaf ∈ tree.leaves, name.root.stop ≤ leaf.start → leaf.stop ≤ params.root.start → leaf.isComment = true) →
        site.tree.callableName? logged.value.stream = some (name.root.text (utf8 source).toArray)) := by
  let bytes := (utf8 source).toArray
  have bounded : tree.Every fun node => node.start ≤ bytes.size ∧ node.stop ≤ bytes.size := inside
  have declared := inPlace.declaredName?_eq bounded noBlank nested reached
  refine ⟨ofTree bytes tree, by rw [ofSource, parsed]; rfl, declared, ?_, ?_⟩
  · intro anchor found
    exact (Anchor.fits_of_ofSite? found).name.trans declared
  · intro isName comments
    rcases inPlace.callableName?_cases bounded noBlank nested reached with
      word | ⟨-, noWord | ⟨leaf, isLeaf, code, low, high⟩⟩
    · exact word
    · cases isName.symm.trans noWord
    · cases (comments leaf isLeaf low high).symm.trans code

/-- A method with a comment between its name and its parameters. -/
private def commentedName : Text := ['m', '/', '*', '*', '/', ' ', '(', ')']

private def nameTree : SyntaxTree := .node { Trivia.leaf "identifier" 0 1 with field := some "name" } []

private def parametersTree : SyntaxTree :=
  .node { Trivia.leaf "formal_parameters" 6 8 with field := some "parameters" } [
    .node (Trivia.leaf "(" 6 7) [], .node (Trivia.leaf ")" 7 8) []]

private def commentedNameTree : SyntaxTree :=
  .node (Trivia.leaf "program" 0 8) [.node (Trivia.leaf "method_declaration" 0 8) [
    nameTree, .node (Trivia.leaf "block_comment" 1 5) [], parametersTree]]

/-- The method has the name that the grammar marks, and it is the word before the parameters. -/
theorem ofSource_names_agree_commented :
    commentedNameTree.WellNested ∧
    ∃ logged site, ofSource (fun _ => .ok commentedNameTree) commentedName = .ok logged ∧
      commentedNameTree.siteAt? [0] = some site ∧
      site.tree.declaredName? (utf8 commentedName).toArray logged.value.stream = some "m" ∧
      site.tree.callableName? logged.value.stream = some "m" := by
  have nested : commentedNameTree.WellNested := by decide
  have reached : commentedNameTree.siteAt? [0] = some _ := rfl
  have noCode (offset : Nat) (low : 1 ≤ offset) (high : offset < 6) :
      Piece.NoCodeAt (utf8 commentedName).toArray commentedNameTree.leaves offset := by
    by_cases comment : offset < 5
    · exact .inr ⟨Trivia.leaf "block_comment" 1 5, by decide, rfl, low, comment⟩
    · obtain rfl : offset = 5 := by omega
      exact .inl ⟨32, by decide, by decide⟩
  obtain ⟨logged, scanned, declared, -, word⟩ :=
    ofSource_names_agree (fun _ => .ok commentedNameTree) commentedName rfl (by decide) (by decide) nested reached
      ⟨rfl, rfl, by decide, rfl, by decide, rfl, rfl, rfl, noCode⟩
  have text : nameTree.root.text (utf8 commentedName).toArray = ['m'] := by decide
  rw [text] at declared word
  exact ⟨nested, logged, _, scanned, reached, declared, word (by decide) (by decide)⟩

end Scan

end ApexComments
