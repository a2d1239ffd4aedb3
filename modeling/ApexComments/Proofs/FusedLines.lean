import ApexComments.Comment.Marker
import ApexComments.Proofs.Spans

/-!
# Documented declarations in pieces

A source that is nothing but comments and a declaration, each on a line of its own, is laid out as
the comments, the blanks between them and the declaration. However many documentation lines there are,
they are fused into one piece: the pieces are a comment, a gap and the declaration (`Documented`).
-/
namespace ApexComments

open Text

/-- A leaf as it is written: its kind and its text. -/
structure Leaf where
  kind : String
  text : Text
  deriving DecidableEq, Repr

namespace Leaf

/-- The source in which the leaves stand one after the other with a separator between each two. -/
def source (separator : Text) (leaves : List Leaf) : Text := joinWith separator (leaves.map text)

/-- The kinds and the spans of the leaves in their source, where the first one starts at the offset. -/
def spans (separator : Text) (offset : Nat) : List Leaf → List (String × Nat × Nat)
  | [] => []
  | leaf :: rest =>
    let stop := offset + (utf8 leaf.text).length
    (leaf.kind, offset, stop) :: spans separator (stop + (utf8 separator).length) rest

/-- A leaf of one of the kinds that comments have. -/
def IsComment (leaf : Leaf) : Prop := leaf.kind = "line_comment" ∨ leaf.kind = "block_comment" ∨ leaf.kind = "comment"

/-- A line comment that opens with the marker of a documentation line. -/
structure IsDocLine (leaf : Leaf) : Prop where
  kind : leaf.kind = "line_comment"
  opens : Comment.lineOpen <+: leaf.text

theorem IsDocLine.nonempty {leaf : Leaf} (isDocLine : leaf.IsDocLine) : utf8 leaf.text ≠ [] := by
  obtain ⟨rest, text⟩ := isDocLine.opens
  rw [← text, utf8_append]
  exact List.append_ne_nil_of_left_ne_nil (by decide) _

theorem source_cons_cons (separator : Text) (leaf next : Leaf) (rest : List Leaf) :
    source separator (leaf :: next :: rest) = leaf.text ++ separator ++ source separator (next :: rest) := rfl

theorem isComment_iff {leaf : Leaf} {node : SyntaxNode} (kind : node.kind = leaf.kind) :
    node.isComment = true ↔ leaf.IsComment := by
  simp [SyntaxNode.isComment, IsComment, kind, or_assoc]

end Leaf

/-- The kind of a node, and where it starts and stops. -/
def SyntaxNode.span (node : SyntaxNode) : String × Nat × Nat := (node.kind, node.start, node.stop)

theorem SyntaxNode.span_eq_iff {node : SyntaxNode} {kind : String} {start stop : Nat} :
    node.span = (kind, start, stop) ↔ node.kind = kind ∧ node.start = start ∧ node.stop = stop := by
  simp [span]

/-- The tree has the leaves, as they stand in their source, and no others. -/
def SyntaxTree.HasLeaves (tree : SyntaxTree) (separator : Text) (leaves : List Leaf) : Prop :=
  tree.leaves.map SyntaxNode.span = Leaf.spans separator 0 leaves

namespace Piece

variable {source : Array UInt8} {separator : Text}

theorem slice_of_split {passed bytes after : List UInt8} (whole : source.toList = passed ++ (bytes ++ after)) :
    slice source passed.length (passed.length + bytes.length) = bytes := by
  rw [slice_eq_drop_take, whole, ← List.append_assoc, ← List.length_append, List.take_left, List.drop_left]

theorem slice_behind {passed bytes gap after : List UInt8}
    (whole : source.toList = passed ++ (bytes ++ (gap ++ after))) :
    slice source (passed.length + bytes.length) (passed.length + bytes.length + gap.length) = gap := by
  rw [← List.append_assoc] at whole
  have cut := slice_of_split whole
  rwa [List.length_append] at cut

/-- A separator that leads from one line to the next. -/
structure StepsOneLine (separator : Text) : Prop where
  blank : blankBytes (utf8 separator) = true
  feed : lineFeeds (utf8 separator) = 1

theorem StepsOneLine.length_pos (line : StepsOneLine separator) : 0 < (utf8 separator).length := by
  refine List.length_pos_of_ne_nil fun none => ?_
  have feed := line.feed
  simp [none, lineFeeds] at feed

/-- The piece of a separator that starts at the offset. -/
def stepAt (separator : Text) (offset : Nat) : Piece :=
  ⟨offset, offset + (utf8 separator).length, "whitespace", true⟩

theorem isLineStep_stepAt {passed bytes after : List UInt8} (line : StepsOneLine separator)
    (whole : source.toList = passed ++ (bytes ++ (utf8 separator ++ after))) :
    isLineStep source (stepAt separator (passed.length + bytes.length)) = true := by
  simp [isLineStep, Piece.bytes, stepAt, slice_behind whole, line.feed]

/-! ## One leaf after the other -/

theorem layOut_cons_cons {leaf next : SyntaxNode} {rest : List SyntaxNode} {passed bytes after : List UInt8}
    (line : StepsOneLine separator) (whole : source.toList = passed ++ (bytes ++ (utf8 separator ++ after)))
    (starts : leaf.start = passed.length) (stops : leaf.stop = passed.length + bytes.length)
    (follows : next.start = leaf.stop + (utf8 separator).length) :
    layOut source passed.length (leaf :: next :: rest) =
      ofLeaf source leaf :: stepAt separator leaf.stop :: layOut source next.start (next :: rest) := by
  have wide := line.length_pos
  have gap : gapBetween source leaf.stop next.start = [stepAt separator leaf.stop] := by
    rw [gapBetween, if_pos (by omega), ofGap, follows, stops, slice_behind whole, if_pos line.blank, stepAt]
  have none (start : Nat) : gapBetween source start start = [] := if_neg (by omega)
  rw [← starts, layOut, if_neg (by omega), none, List.nil_append, layOut, if_neg (by omega), gap, layOut,
    if_neg (by omega), none]
  rfl

theorem layOut_singleton {leaf : SyntaxNode} (stops : leaf.stop = source.size) :
    layOut source leaf.start [leaf] = [ofLeaf source leaf] := by
  rw [layOut, if_neg (by omega), layOut, gapBetween, gapBetween, if_neg (by omega), if_neg (by omega)]
  rfl

/-! ## Groups -/

theorem docLineGroups_cons_of_not_docLine {piece : Piece} (other : isDocLine source piece = false) (rest : List Piece) :
    docLineGroups source (piece :: rest) = [piece] :: docLineGroups source rest := by
  rw [docLineGroups]
  split
  · next step next run groups grouped => rw [other, Bool.false_and, Bool.false_and, if_neg (by simp), grouped]
  · rfl

theorem isDocLine_of_kind {piece : Piece} (kind : piece.kind ≠ "line_comment") : isDocLine source piece = false := by
  simp [isDocLine, kind]

theorem isDocLine_of_isLineStep {piece : Piece} (isStep : isLineStep source piece = true) :
    isDocLine source piece = false := by
  refine isDocLine_of_kind fun line => ?_
  simp [isLineStep, line] at isStep

/-- A documentation line before a run, one line above it, joins the run. -/
theorem docLineGroups_join {piece step next : Piece} {rest run : List Piece} {groups : List (List Piece)}
    (isLine : isDocLine source piece = true) (isStep : isLineStep source step = true)
    (isNext : isDocLine source next = true) (grouped : docLineGroups source rest = (next :: run) :: groups) :
    docLineGroups source (piece :: step :: rest) = (piece :: step :: next :: run) :: groups := by
  have onward := docLineGroups_cons_of_not_docLine (isDocLine_of_isLineStep isStep) rest
  rw [grouped] at onward
  rw [docLineGroups, onward]
  simp [isLine, isStep, isNext]

/-- A comment before anything but a documentation line stays by itself. -/
theorem docLineGroups_alone {piece step last : Piece} (isStep : step.kind ≠ "line_comment")
    (isLast : isDocLine source last = false) :
    docLineGroups source [piece, step, last] = [[piece], [step], [last]] := by
  have onward : docLineGroups source [step, last] = [[step], [last]] := by
    rw [docLineGroups_cons_of_not_docLine (isDocLine_of_kind isStep), docLineGroups_cons_of_not_docLine isLast]
    rfl
  rw [docLineGroups, onward]
  simp [isLast]

/-! ## Comments and a declaration -/

/-- The groups from an offset on are a comment up to an edge, the separator behind it, and a declaration
up to the end of the source. -/
structure Documented (source : Array UInt8) (separator : Text) (declaration : Leaf) (offset edge : Nat)
    (run : List Piece) (groups : List (List Piece)) : Prop where
  tiles : Tiles offset run edge
  hidden : ∀ piece ∈ run, piece.hidden = true
  groups_eq : groups = [run, [stepAt separator edge],
    [⟨edge + (utf8 separator).length, source.size, declaration.kind, false⟩]]
  size_eq : edge + (utf8 separator).length + (utf8 declaration.text).length = source.size

/-- The piece of a comment leaf: hidden, with the bytes of the leaf, from the offset up to the edge. -/
structure IsCommentPiece (source : Array UInt8) (comment : Leaf) (offset edge : Nat) (piece : Piece) : Prop where
  tiles : Tiles offset [piece] edge
  bytes_eq : piece.bytes source = utf8 comment.text
  kind_eq : piece.kind = commentKind (utf8 comment.text)
  hidden : piece.hidden = true

theorem IsCommentPiece.isDocLine {comment : Leaf} {offset edge : Nat} {piece : Piece}
    (isPiece : IsCommentPiece source comment offset edge piece) (isDocLine : comment.IsDocLine) :
    piece.isDocLine source = true := by
  obtain ⟨rest, text⟩ := isDocLine.opens
  rw [Piece.isDocLine, isPiece.kind_eq, isPiece.bytes_eq, ← text, utf8_append]
  rfl

theorem isCommentPiece_ofLeaf {comment : Leaf} {node : SyntaxNode} {passed after : List UInt8}
    (isComment : comment.IsComment) (nonempty : utf8 comment.text ≠ [])
    (whole : source.toList = passed ++ (utf8 comment.text ++ after)) (kind : node.kind = comment.kind)
    (starts : node.start = passed.length) (stops : node.stop = passed.length + (utf8 comment.text).length) :
    IsCommentPiece source comment passed.length node.stop (ofLeaf source node) := by
  have positive := List.length_pos_of_ne_nil nonempty
  have text : slice source node.start node.stop = utf8 comment.text := by
    rw [starts, stops]
    exact slice_of_split whole
  rw [ofLeaf, if_pos ((Leaf.isComment_iff kind).mpr isComment), text]
  refine ⟨⟨starts, ?_, rfl⟩, text, rfl, rfl⟩
  simp only
  omega

/-- A comment in front of another leaf: its piece, the step to the next line, and what follows. -/
theorem exists_layOut_comment {comment next : Leaf} {rest : List Leaf} {passed : List UInt8} {nodes : List SyntaxNode}
    (line : StepsOneLine separator) (isComment : comment.IsComment) (nonempty : utf8 comment.text ≠ [])
    (whole : source.toList = passed ++ utf8 (Leaf.source separator (comment :: next :: rest)))
    (spans : nodes.map SyntaxNode.span = Leaf.spans separator passed.length (comment :: next :: rest)) :
    ∃ piece edge others, IsCommentPiece source comment passed.length edge piece ∧
      isLineStep source (stepAt separator edge) = true ∧
      edge + (utf8 separator).length = (passed ++ utf8 comment.text ++ utf8 separator).length ∧
      others.map SyntaxNode.span =
        Leaf.spans separator (passed ++ utf8 comment.text ++ utf8 separator).length (next :: rest) ∧
      layOut source passed.length nodes =
        piece :: stepAt separator edge ::
          layOut source (passed ++ utf8 comment.text ++ utf8 separator).length others := by
  obtain ⟨node, others, rfl, here, later⟩ := List.map_eq_cons_iff.mp spans
  obtain ⟨following, behind, rfl, there, -⟩ := List.map_eq_cons_iff.mp later
  obtain ⟨kind, starts, stops⟩ := SyntaxNode.span_eq_iff.mp here
  obtain ⟨-, follows, -⟩ := SyntaxNode.span_eq_iff.mp there
  have offset : (passed ++ utf8 comment.text ++ utf8 separator).length = following.start := by
    rw [List.length_append, List.length_append, follows]
  rw [Leaf.source_cons_cons, utf8_append, utf8_append, List.append_assoc] at whole
  refine ⟨ofLeaf source node, node.stop, following :: behind,
    isCommentPiece_ofLeaf isComment nonempty whole kind starts stops, ?_, ?_, ?_, ?_⟩
  · rw [stops]
    exact isLineStep_stepAt line whole
  · rw [offset, follows, stops]
  · rw [later, offset, follows]
  · rw [layOut_cons_cons line whole starts stops (by rw [follows, stops]), offset]

theorem layOut_declaration {declaration : Leaf} {passed : List UInt8} {nodes : List SyntaxNode}
    (significant : ¬ declaration.IsComment) (whole : source.toList = passed ++ utf8 declaration.text)
    (spans : nodes.map SyntaxNode.span = Leaf.spans separator passed.length [declaration]) :
    layOut source passed.length nodes = [⟨passed.length, source.size, declaration.kind, false⟩] := by
  obtain ⟨node, others, rfl, here, none⟩ := List.map_eq_cons_iff.mp spans
  obtain rfl := List.map_eq_nil_iff.mp none
  obtain ⟨kind, starts, stops⟩ := SyntaxNode.span_eq_iff.mp here
  have ends : node.stop = source.size := by
    rw [stops, ← Array.length_toList, whole, List.length_append]
  have shown : ¬ node.isComment = true := mt (Leaf.isComment_iff kind).mp significant
  rw [← starts, layOut_singleton ends, ofLeaf, if_neg shown, ends, kind]

theorem documented_comment {comment declaration : Leaf} {passed : List UInt8} {nodes : List SyntaxNode}
    (line : StepsOneLine separator) (isComment : comment.IsComment) (nonempty : utf8 comment.text ≠ [])
    (significant : ¬ declaration.IsComment)
    (whole : source.toList = passed ++ utf8 (Leaf.source separator [comment, declaration]))
    (spans : nodes.map SyntaxNode.span = Leaf.spans separator passed.length [comment, declaration]) :
    ∃ piece edge, IsCommentPiece source comment passed.length edge piece ∧
      Documented source separator declaration passed.length edge [piece]
        (docLineGroups source (layOut source passed.length nodes)) := by
  obtain ⟨piece, edge, others, isPiece, -, offset, later, laidOut⟩ :=
    exists_layOut_comment line isComment nonempty whole spans
  have onward : source.toList = passed ++ utf8 comment.text ++ utf8 separator ++ utf8 declaration.text := by
    rw [whole, Leaf.source_cons_cons, utf8_append, utf8_append]
    simp [Leaf.source]
  have noLine : declaration.kind ≠ "line_comment" := fun kind => significant (.inl kind)
  refine ⟨piece, edge, isPiece, isPiece.tiles, by simp [isPiece.hidden], ?_, ?_⟩
  · rw [laidOut, layOut_declaration significant onward later, ← offset]
    exact docLineGroups_alone (by simp [stepAt]) (isDocLine_of_kind noLine)
  · simp only [offset, ← Array.length_toList, onward, List.length_append]

/-- Documentation lines in front of a declaration, however many: all of them are one run. -/
theorem documented_docLines {first declaration : Leaf} {rest : List Leaf} {passed : List UInt8}
    {nodes : List SyntaxNode} (line : StepsOneLine separator) (docLines : ∀ leaf ∈ first :: rest, leaf.IsDocLine)
    (significant : ¬ declaration.IsComment)
    (whole : source.toList = passed ++ utf8 (Leaf.source separator (first :: rest ++ [declaration])))
    (spans : nodes.map SyntaxNode.span = Leaf.spans separator passed.length (first :: rest ++ [declaration])) :
    ∃ piece edge run, isDocLine source piece = true ∧
      Documented source separator declaration passed.length edge (piece :: run)
        (docLineGroups source (layOut source passed.length nodes)) := by
  -- Each line joins the run of the lines after it, so the run has to start with a documentation line.
  induction rest generalizing first passed nodes with
  | nil =>
    have here := docLines first List.mem_cons_self
    obtain ⟨piece, edge, isPiece, documented⟩ :=
      documented_comment line (.inl here.kind) here.nonempty significant whole spans
    exact ⟨piece, edge, [], isPiece.isDocLine here, documented⟩
  | cons second rest ih =>
    obtain ⟨here, others⟩ := List.forall_mem_cons.mp docLines
    obtain ⟨piece, edge, nodes, isPiece, isStep, offset, later, laidOut⟩ :=
      exists_layOut_comment line (.inl here.kind) here.nonempty whole spans
    have onward : source.toList = passed ++ utf8 first.text ++ utf8 separator ++
        utf8 (Leaf.source separator (second :: rest ++ [declaration])) := by
      rw [whole, List.cons_append, List.cons_append, Leaf.source_cons_cons, utf8_append, utf8_append]
      simp
    obtain ⟨next, last, run, isNext, documented⟩ := ih others onward later
    refine ⟨piece, last, stepAt separator edge :: next :: run, isPiece.isDocLine here, ?_, ?_, ?_, documented.size_eq⟩
    · refine (@tiles_append_iff _ _ [piece] _).mpr ⟨edge, isPiece.tiles, rfl, ?_, ?_⟩
      · exact Nat.lt_add_of_pos_right line.length_pos
      · simp only [stepAt, offset]
        exact documented.tiles
    · exact List.forall_mem_cons.mpr ⟨isPiece.hidden, List.forall_mem_cons.mpr ⟨rfl, documented.hidden⟩⟩
    · rw [laidOut, docLineGroups_join (isPiece.isDocLine here) isStep isNext documented.groups_eq]

theorem hidden_of_fuse {group : List Piece} (hidden : ∀ piece ∈ group, piece.hidden = true) {piece : Piece}
    (fused : fuse group = some piece) : piece.hidden = true := by
  match group, fused with
  | [only], fused =>
    obtain rfl : only = piece := by simpa [fuse] using fused
    exact hidden only List.mem_cons_self
  | first :: second :: rest, fused =>
    obtain rfl := Option.some.inj fused
    rfl

/-- The comment in front of a declaration is one hidden piece. -/
theorem Documented.exists_fuseDocLines {declaration : Leaf} {offset edge : Nat} {run pieces : List Piece}
    (documented : Documented source separator declaration offset edge run (docLineGroups source pieces)) :
    ∃ piece, piece.start = offset ∧ piece.stop = edge ∧ piece.hidden = true ∧
      fuseDocLines source pieces =
        [piece, stepAt separator edge, ⟨edge + (utf8 separator).length, source.size, declaration.kind, false⟩] := by
  have nonempty : run ≠ [] := by
    refine @ne_nil_of_mem_docLineGroups source pieces run ?_
    rw [documented.groups_eq]
    exact List.mem_cons_self
  obtain ⟨piece, fused, starts, -, stops⟩ := exists_fuse_of_tiles nonempty documented.tiles
  refine ⟨piece, starts, stops, hidden_of_fuse documented.hidden fused, ?_⟩
  rw [fuseDocLines, documented.groups_eq, List.filterMap_cons_some fused]
  rfl

theorem text_toToken {whole before part after : Text} (split : whole = before ++ part ++ after) {piece : Piece}
    (starts : (utf8 before).length = piece.start) (stops : (utf8 (before ++ part)).length = piece.stop) (k : Nat) :
    (piece.toToken (utf8 whole).toArray k).text = withoutSurrogates part := by
  subst split
  exact (toToken_of_parts after k starts stops).1

end Piece

/-- The tokens of a documented declaration: the whole comment, the separator, and the declaration. -/
theorem TokenStream.tokens_of_documented {source comment separator : Text} {declaration : Leaf} {tree : SyntaxTree}
    {edge : Nat} {run : List Piece} (whole : source = comment ++ separator ++ declaration.text)
    (documented : Piece.Documented (utf8 source).toArray separator declaration 0 edge run
      (Piece.docLineGroups (utf8 source).toArray (Piece.layOut (utf8 source).toArray 0 tree.leaves))) :
    ∃ doc gap anchor, (TokenStream.ofTree (utf8 source).toArray tree).tokens = [doc, gap, anchor] ∧
      (doc.text = withoutSurrogates comment ∧ doc.isHidden = true) ∧
      (gap.text = withoutSurrogates separator ∧ gap.isHidden = true) ∧
      anchor.text = withoutSurrogates declaration.text ∧ anchor.isHidden = false := by
  obtain ⟨piece, starts, stops, hidden, pieces⟩ := documented.exists_fuseDocLines
  have size : (utf8 source).toArray.size = (utf8 (comment ++ separator ++ declaration.text)).length := by simp [whole]
  obtain rfl : edge = (utf8 comment).length := by
    have total := documented.size_eq
    rw [utf8_append, utf8_append, List.length_append, List.length_append] at size
    omega
  refine ⟨_, _, _, by rw [ofTree, tokens_ofPieces, Piece.ofTree, pieces]; rfl, ⟨?_, ?_⟩, ⟨?_, ?_⟩, ?_, ?_⟩
  · exact Piece.text_toToken (show source = [] ++ comment ++ (separator ++ declaration.text) by simp [whole])
      starts.symm stops.symm 0
  · simp [Piece.toToken, Token.isHidden, Token.hiddenChannel, hidden]
  · exact Piece.text_toToken whole rfl (by simp [Piece.stepAt]) 1
  · rfl
  · refine Piece.text_toToken (show source = comment ++ separator ++ declaration.text ++ [] by simp [whole]) ?_ ?_ 2
    · simp
    · exact size.symm
  · rfl

end ApexComments
