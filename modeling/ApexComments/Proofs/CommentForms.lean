import ApexComments.Proofs.Association
import ApexComments.Proofs.CommentLines
import ApexComments.Proofs.FusedLines

/-!
# Block comments and line comments

The same lines can be written in one block or each behind a line marker. Both are read the same
(`parse_docLines_eq_parse_block`), and in front of a declaration both are the one comment of it: the
documentation lines are fused, and the lookup finds the whole of them as it finds the block.
-/
namespace ApexComments

open Text Comment

/-! ## Lines that say the same -/

namespace Comment

/-- A documentation line that says the text. -/
def docLine (said : Text) : Text := lineOpen ++ CodePoint.char ' ' :: said

theorem lines_joinWith_indent {indent : Text} (inLine : CodePoint.char '\n' ∉ indent) {first : Text} {rest : List Text}
    (single : ∀ line ∈ first :: rest, CodePoint.char '\n' ∉ line) :
    lines (joinWith (CodePoint.char '\n' :: indent) (first :: rest)) = first :: rest.map (indent ++ ·) := by
  induction rest generalizing first with
  | nil => exact lines_of_not_mem (single first List.mem_cons_self)
  | cons next rest ih =>
    obtain ⟨here, later⟩ := List.forall_mem_cons.mp single
    have onward := @lines_append indent _ [] _ _ _ (lines_of_not_mem inLine) (ih later)
    rw [joinWith_cons_cons, List.append_assoc, List.cons_append, lines_append_feed here, onward]
    rfl

/-- Documentation lines say what stands behind their markers, less the blank lines. -/
theorem contents_docLines {indent : Text} (inLine : CodePoint.char '\n' ∉ indent)
    (blank : ∀ c ∈ indent, isBlank c = true) {said : List Text} (some : said ≠ [])
    (single : ∀ line ∈ said, CodePoint.char '\n' ∉ line) :
    contents (joinWith (CodePoint.char '\n' :: indent) (said.map docLine)) =
      (said.map saidBehind).filter fun line => !line.isEmpty := by
  obtain ⟨first, rest, rfl⟩ := List.exists_cons_of_ne_nil some
  have docSingle : ∀ line ∈ docLine first :: rest.map docLine, CodePoint.char '\n' ∉ line := by
    rw [← List.map_cons, List.forall_mem_map]
    intro line member
    simp [docLine, lineOpen, single line member]
  have firstContent : lineContent (docLine first) = saidBehind first := @lineContent_lineOpen [] (by simp) first
  have contentsLater : ((rest.map docLine).map (indent ++ ·)).map lineContent = rest.map saidBehind := by
    rw [List.map_map, List.map_map]
    exact List.map_congr_left fun line _ => lineContent_lineOpen blank line
  rw [contents, List.map_cons, lines_joinWith_indent inLine docSingle, List.map_cons, contentsLater, firstContent,
    List.map_cons]

/-- The same lines in a block and behind line markers are read the same. -/
theorem parse_docLines_eq_parse_block {indent : Text} (inLine : CodePoint.char '\n' ∉ indent)
    (blank : ∀ c ∈ indent, isBlank c = true) {said : List Text} (some : said ≠ [])
    (single : ∀ line ∈ said, CodePoint.char '\n' ∉ line) :
    Body.parse (joinWith (CodePoint.char '\n' :: indent) (said.map docLine)) = Body.parse (block indent said) := by
  rw [Body.parse_eq_ofContents, Body.parse_eq_ofContents, contents_docLines inLine blank some single,
    contents_block inLine blank single]

theorem withoutSurrogates_joinWith (separator : Text) (parts : List Text) :
    withoutSurrogates (joinWith separator parts) =
      joinWith (withoutSurrogates separator) (parts.map withoutSurrogates) := by
  induction parts with
  | nil => rfl
  | cons part rest ih =>
    cases rest with
    | nil => rfl
    | cons next rest =>
      rw [joinWith_cons_cons, withoutSurrogates_append, withoutSurrogates_append, ih]
      rfl

/-- A block without its surrogates says its lines without theirs. -/
theorem withoutSurrogates_block {indent : Text} (characters : withoutSurrogates indent = indent) (said : List Text) :
    withoutSurrogates (block indent said) = block indent (said.map withoutSurrogates) := by
  have lines : withoutSurrogates (said.flatMap fun line => indent ++ [CodePoint.char ' '] ++ gutter ++
      [CodePoint.char ' '] ++ line ++ [CodePoint.char '\n']) =
      (said.map withoutSurrogates).flatMap fun line => indent ++ [CodePoint.char ' '] ++ gutter ++
        [CodePoint.char ' '] ++ line ++ [CodePoint.char '\n'] := by
    rw [withoutSurrogates, List.filter_flatMap, List.flatMap_map]
    refine List.flatMap_congr fun line _ => ?_
    rw [← withoutSurrogates]
    simp only [withoutSurrogates_append, characters]
    rfl
  simp only [block, withoutSurrogates_append, characters, lines]
  rfl

theorem isDoc_of_opens {marker text : Text} (marks : marker = blockOpen ∨ marker = lineOpen) (opens : marker <+: text) :
    isDoc text = true := by
  obtain ⟨rest, rfl⟩ := opens
  have trimmed : Trimmed marker := by
    rcases marks with rfl | rfl <;> decide
  have some : marker ≠ [] := by
    rcases marks with rfl | rfl <;> decide
  rw [isDoc, trim_trimmed_append trimmed some]
  rcases marks with rfl | rfl <;> simp

theorem isDoc_eq_false_of_blank {text : Text} (blank : ∀ c ∈ text, isBlank c = true) : isDoc text = false := by
  rw [isDoc, trim_eq_nil blank]
  rfl

end Comment

/-! ## Sources with either form -/

/-- The leaves of a declaration under a block. -/
def blockForm (indent : Text) (said : List Text) (declaration : Leaf) : List Leaf :=
  [⟨"block_comment", block indent said⟩, declaration]

/-- The leaves of a declaration under documentation lines. -/
def lineForm (said : List Text) (declaration : Leaf) : List Leaf :=
  said.map (fun line => ⟨"line_comment", docLine line⟩) ++ [declaration]

theorem source_lineForm {separator : Text} {said : List Text} (some : said ≠ []) (declaration : Leaf) :
    Leaf.source separator (lineForm said declaration) =
      joinWith separator (said.map docLine) ++ separator ++ declaration.text := by
  have texts : (lineForm said declaration).map Leaf.text = said.map docLine ++ [declaration.text] := by
    simp [lineForm, Function.comp_def]
  rw [Leaf.source, texts, joinWith_append_singleton separator (mt List.map_eq_nil_iff.mp some)]

section margin

variable {indent : Text} (margin : ∀ c ∈ indent, c = ' ' ∨ c = '\t')
include margin

theorem not_feed_of_margin : CodePoint.char '\n' ∉ indent := by
  intro feed
  rcases margin _ feed with same | same <;> exact absurd same (by decide)

theorem isBlank_of_margin : ∀ c ∈ CodePoint.char '\n' :: indent, isBlank c = true := by
  refine List.forall_mem_cons.mpr ⟨by decide, ?_⟩
  intro c member
  rcases margin c member with rfl | rfl <;> decide

theorem withoutSurrogates_of_margin : withoutSurrogates indent = indent := by
  rw [withoutSurrogates_eq_self_iff]
  intro c member
  rcases margin c member with rfl | rfl <;> rfl

theorem stepsOneLine_of_margin : Piece.StepsOneLine (CodePoint.char '\n' :: indent) := by
  have none := List.count_eq_zero_of_not_mem (not_feed_of_margin margin)
  refine ⟨?_, by rw [lineFeeds_utf8, List.count_cons_self, none]⟩
  rw [blankBytes, utf8, List.all_flatMap, List.all_eq_true]
  intro c member
  rcases List.mem_cons.mp member with rfl | among
  · decide
  · rcases margin c among with rfl | rfl <;> decide

end margin

theorem TokenStream.nearestDoc_of_tokens {stream : TokenStream} {doc gap anchor : Token}
    (tokens : stream.tokens = [doc, gap, anchor]) (hidden : doc.isHidden = true) (alsoHidden : gap.isHidden = true)
    (shown : anchor.isHidden = false) (isDoc : Comment.isDoc doc.text = true) (noDoc : Comment.isDoc gap.text = false) :
    stream.hiddenTokens.nearestDoc anchor.index = .ok (some doc) := by
  have index : anchor.index = (2 : Nat) := index_of_getElem? (by rw [tokens]; rfl)
  have candidates : stream.candidates 2 = [doc, gap] := by
    simp [TokenStream.candidates, leftRun, rightRun, tokens, hidden, alsoHidden, shown]
  rw [index, nearestDoc_of_inside (by simp [size, tokens]), candidates]
  simp [isDoc, noDoc, HiddenTokens.latest?]

namespace Source

/-- The declaration is the one significant token of the source, and the comment attached to it is
decoded as given. -/
def Documents (parser : Parser) (source declaration : Text) (everyParam : Bool) (doc : DocComment) : Prop :=
  ∃ stream anchor, tokenize parser source = .ok stream ∧
    (stream.value.tokens.filter fun token => !token.isHidden) = [anchor] ∧ anchor.text = declaration ∧
    (stream.value.hiddenTokens.docComment everyParam anchor.index).value = some doc

theorem exists_documents {parser : Parser} {source comment separator : Text} {declaration : Leaf} {tree : SyntaxTree}
    (parsed : parser (utf8 source) = .ok tree) (whole : source = comment ++ separator ++ declaration.text)
    (isDoc : Comment.isDoc (withoutSurrogates comment) = true) (blank : ∀ c ∈ separator, isBlank c = true)
    {edge : Nat} {run : List Piece}
    (documented : Piece.Documented (utf8 source).toArray separator declaration 0 edge run
      (Piece.docLineGroups (utf8 source).toArray (Piece.layOut (utf8 source).toArray 0 tree.leaves)))
    (everyParam : Bool) :
    ∃ token : Token, token.text = withoutSurrogates comment ∧
      Documents parser source (withoutSurrogates declaration.text) everyParam
        (DocComment.ofToken token everyParam) := by
  obtain ⟨doc, gap, anchor, tokens, ⟨reads, hidden⟩, ⟨separates, alsoHidden⟩, declares, shown⟩ :=
    TokenStream.tokens_of_documented whole documented
  have noDoc : Comment.isDoc (withoutSurrogates separator) = false :=
    isDoc_eq_false_of_blank fun c member => blank c (List.mem_of_mem_filter member)
  have found := TokenStream.nearestDoc_of_tokens tokens hidden alsoHidden shown (by rw [reads, isDoc])
    (by rw [separates, noDoc])
  refine ⟨doc, reads, _, anchor, by rw [tokenize, parsed]; rfl, ?_, declares, ?_⟩
  · simp [tokens, hidden, alsoHidden, shown]
  · simp only [HiddenTokens.docComment, found]
    rfl

theorem exists_documents_block {parser : Parser} {indent : Text} {said : List Text} {declaration : Leaf}
    {tree : SyntaxTree} (margin : ∀ c ∈ indent, c = ' ' ∨ c = '\t') (significant : ¬ declaration.IsComment)
    (parsed : parser (utf8 (Leaf.source (CodePoint.char '\n' :: indent) (blockForm indent said declaration))) =
      .ok tree)
    (leaves : tree.HasLeaves (CodePoint.char '\n' :: indent) (blockForm indent said declaration)) (everyParam : Bool) :
    ∃ token : Token, token.text = block indent (said.map withoutSurrogates) ∧
      Documents parser (Leaf.source (CodePoint.char '\n' :: indent) (blockForm indent said declaration))
        (withoutSurrogates declaration.text) everyParam (DocComment.ofToken token everyParam) := by
  have said_eq := withoutSurrogates_block (withoutSurrogates_of_margin margin) said
  have opens : blockOpen <+: withoutSurrogates (block indent said) := by
    rw [said_eq]
    simp [block]
  have nonempty : utf8 (block indent said) ≠ [] := by
    rw [Ne, utf8_eq_nil_iff]
    intro none
    rw [none] at opens
    exact absurd opens (by decide)
  obtain ⟨piece, edge, -, documented⟩ := @Piece.documented_comment _ _ _ _ [] _ (stepsOneLine_of_margin margin)
    (.inr (.inl rfl)) nonempty significant rfl leaves
  rw [← said_eq]
  exact exists_documents parsed rfl (isDoc_of_opens (.inl rfl) opens) (isBlank_of_margin margin) documented everyParam

theorem exists_documents_lines {parser : Parser} {indent : Text} {said : List Text} {declaration : Leaf}
    {tree : SyntaxTree} (margin : ∀ c ∈ indent, c = ' ' ∨ c = '\t') (some : said ≠ [])
    (significant : ¬ declaration.IsComment)
    (parsed : parser (utf8 (Leaf.source (CodePoint.char '\n' :: indent) (lineForm said declaration))) = .ok tree)
    (leaves : tree.HasLeaves (CodePoint.char '\n' :: indent) (lineForm said declaration)) (everyParam : Bool) :
    ∃ token : Token,
      token.text = joinWith (CodePoint.char '\n' :: indent) ((said.map withoutSurrogates).map docLine) ∧
      Documents parser (Leaf.source (CodePoint.char '\n' :: indent) (lineForm said declaration))
        (withoutSurrogates declaration.text) everyParam (DocComment.ofToken token everyParam) := by
  have said_eq : withoutSurrogates (joinWith (CodePoint.char '\n' :: indent) (said.map docLine)) =
      joinWith (CodePoint.char '\n' :: indent) ((said.map withoutSurrogates).map docLine) := by
    rw [withoutSurrogates_joinWith, withoutSurrogates_char, withoutSurrogates_of_margin margin, List.map_map,
      List.map_map]
    rfl
  have whole := @source_lineForm (CodePoint.char '\n' :: indent) said some declaration
  obtain ⟨first, rest, rfl⟩ := List.exists_cons_of_ne_nil some
  have docLines : ∀ leaf ∈ (first :: rest).map (fun line => (⟨"line_comment", docLine line⟩ : Leaf)),
      leaf.IsDocLine := by
    rw [List.forall_mem_map]
    exact fun line _ => ⟨rfl, List.prefix_append _ _⟩
  have opens : lineOpen <+:
      withoutSurrogates (joinWith (CodePoint.char '\n' :: indent) ((first :: rest).map docLine)) := by
    rw [said_eq]
    cases rest with
    | nil => simp [docLine]
    | cons next rest => simp [docLine, joinWith_cons_cons]
  obtain ⟨piece, edge, run, -, documented⟩ := @Piece.documented_docLines _ _ _ _ _ [] _ (stepsOneLine_of_margin margin)
    docLines significant rfl leaves
  rw [← said_eq]
  exact exists_documents parsed whole (isDoc_of_opens (.inr rfl) opens) (isBlank_of_margin margin) documented everyParam

/-- The same lines above the same declaration, once in a block and once behind line markers, are the same
comment but for its place. -/
theorem documents_block_lines (parser : Parser) {indent : Text} {said : List Text} {declaration : Leaf}
    (margin : ∀ c ∈ indent, c = ' ' ∨ c = '\t') (some : said ≠ []) (single : ∀ line ∈ said, CodePoint.char '\n' ∉ line)
    (significant : ¬ declaration.IsComment) {blockTree lineTree : SyntaxTree}
    (blockParsed : parser (utf8 (Leaf.source (CodePoint.char '\n' :: indent) (blockForm indent said declaration))) =
      .ok blockTree)
    (blockLeaves : blockTree.HasLeaves (CodePoint.char '\n' :: indent) (blockForm indent said declaration))
    (lineParsed : parser (utf8 (Leaf.source (CodePoint.char '\n' :: indent) (lineForm said declaration))) =
      .ok lineTree)
    (lineLeaves : lineTree.HasLeaves (CodePoint.char '\n' :: indent) (lineForm said declaration)) (everyParam : Bool) :
    ∃ asBlock asLines : DocComment,
      Documents parser (Leaf.source (CodePoint.char '\n' :: indent) (blockForm indent said declaration))
        (withoutSurrogates declaration.text) everyParam asBlock ∧
      Documents parser (Leaf.source (CodePoint.char '\n' :: indent) (lineForm said declaration))
        (withoutSurrogates declaration.text) everyParam asLines ∧
      asLines = { asBlock with location := asLines.location } := by
  obtain ⟨blockToken, blockText, asBlock⟩ :=
    exists_documents_block margin significant blockParsed blockLeaves everyParam
  obtain ⟨lineToken, lineText, asLines⟩ :=
    exists_documents_lines margin some significant lineParsed lineLeaves everyParam
  have blanks := isBlank_of_margin margin
  rw [List.forall_mem_cons] at blanks
  have alsoSome : said.map withoutSurrogates ≠ [] := mt List.map_eq_nil_iff.mp some
  have alsoSingle : ∀ line ∈ said.map withoutSurrogates, CodePoint.char '\n' ∉ line := by
    rw [List.forall_mem_map]
    exact fun line member feed => single line member (List.mem_of_mem_filter feed)
  have same : Body.parse lineToken.text = Body.parse blockToken.text := by
    rw [blockText, lineText]
    exact parse_docLines_eq_parse_block (not_feed_of_margin margin) blanks.2 alsoSome alsoSingle
  refine ⟨_, _, asBlock, asLines, ?_⟩
  simp only [DocComment.ofToken, same]

/-- Four lines: one that begins like a gutter and ends in a blank, an empty one, one that begins like a line marker
and ends in a carriage return, and a tag with a surrogate in its value. -/
theorem documents_block_lines_markers :
    let said : List Text := [['*', ' ', 'a', ' '], [], ['/', '/', '/', 'b', '\r'], ['@', 'p', ' ', .surrogate 0, 'x']]
    let declaration : Leaf := ⟨";", [';']⟩
    (∀ line ∈ said, CodePoint.char '\n' ∉ line) ∧ ¬ declaration.IsComment ∧
    ∃ asBlock asLines : DocComment,
      Documents Trivia.parse (Leaf.source ['\n', '\t'] (blockForm ['\t'] said declaration)) [';'] true asBlock ∧
      Documents Trivia.parse (Leaf.source ['\n', '\t'] (lineForm said declaration)) [';'] true asLines ∧
      asLines = { asBlock with location := asLines.location } := by
  intro said declaration
  have single : ∀ line ∈ said, CodePoint.char '\n' ∉ line := by decide
  have significant : ¬ declaration.IsComment := by simp [declaration, Leaf.IsComment]
  have blockParsed : Trivia.parse (utf8 (Leaf.source ['\n', '\t'] (blockForm ['\t'] said declaration))) =
      .ok (.node (Trivia.leaf "program" 0 44)
        [.node (Trivia.leaf "block_comment" 0 41) [], .node (Trivia.leaf ";" 43 44) []]) := rfl
  have lineParsed : Trivia.parse (utf8 (Leaf.source ['\n', '\t'] (lineForm said declaration))) =
      .ok (.node (Trivia.leaf "program" 0 38)
        [.node (Trivia.leaf "line_comment" 0 8) [], .node (Trivia.leaf "line_comment" 10 14) [],
          .node (Trivia.leaf "line_comment" 16 25) [], .node (Trivia.leaf "line_comment" 27 35) [],
          .node (Trivia.leaf ";" 37 38) []]) := rfl
  have margin : ∀ c ∈ [CodePoint.char '\t'], c = ' ' ∨ c = '\t' := List.forall_mem_singleton.mpr (.inr rfl)
  exact ⟨single, significant, documents_block_lines Trivia.parse margin (by decide) single significant
    blockParsed rfl lineParsed rfl true⟩

end Source

end ApexComments
