import ApexComments.Proofs.Anchoring
import ApexComments.Proofs.Spans
import Mathlib.Data.Prod.Lex

/-!
# Places along a stream

Places in a source are in order by line and, on one line, by column. Where the syntax tree cuts no
character, no token is empty and each ends where the next one starts (`contiguous_ofTree`), so the places
of the tokens ascend along the stream (`Contiguous.stop_le_place`). A place is then looked up by the first
significant token that does not start before it, and every place after the significant token before that
one leads to the same comment as the token itself.
-/
namespace ApexComments

open Text

/-- The place at which a token starts. -/
def Token.place (token : Token) : Int ×ₗ Int := toLex (token.line, token.column)

namespace Location

/-- The place at which a span starts. -/
def start (location : Location) : Int ×ₗ Int := toLex (location.startLine, location.startColumn)

/-- The place at which a span ends; it lies behind the span. -/
def stop (location : Location) : Int ×ₗ Int := toLex (location.endLine, location.endColumn)

/-- Whether a place lies in a span. -/
def Holds (location : Location) (place : Int ×ₗ Int) : Prop := location.start ≤ place ∧ place < location.stop

theorem place_lt_stop_ofToken {token : Token} (nonempty : token.text ≠ []) :
    token.place < (ofToken token).stop := by
  have length := List.length_pos_iff.mpr nonempty
  rw [Token.place, stop, Prod.Lex.toLex_lt_toLex]
  by_cases feed : CodePoint.char '\n' ∈ token.text
  · have feeds := List.count_pos_iff.mpr feed
    refine .inl ?_
    simp only [ofToken]
    omega
  · refine .inr ⟨?_, ?_⟩
    · simp [ofToken, List.count_eq_zero.mpr feed]
    · simp only [ofToken, List.contains_iff_mem, feed, if_false]
      omega

end Location

namespace TokenStream

/-- No token is empty, and each ends where the next one starts. -/
structure Contiguous (stream : TokenStream) : Prop where
  nonempty : ∀ token ∈ stream.tokens, token.text ≠ []
  stop_eq : ∀ (k : Nat) (token next : Token), stream.tokens[k]? = some token → stream.tokens[k + 1]? = some next →
    (Location.ofToken token).stop = next.place

theorem contiguous_ofTree {source : Text} {tree : SyntaxTree}
    (aligned : tree.Every fun node => Boundary source node.start ∧ Boundary source node.stop) :
    (ofTree (utf8 source).toArray tree).Contiguous := by
  constructor
  · intro token member
    obtain ⟨k, here⟩ := List.getElem?_of_mem member
    rw [getElem?_ofTree] at here
    obtain ⟨piece, there, rfl⟩ := Option.map_eq_some_iff.mp here
    have isPiece := List.mem_of_getElem? there
    have wide := ((Piece.tiles_of_aligned aligned).bounds piece isPiece).2.1
    obtain ⟨before, part, after, rfl, starts, stops⟩ := Piece.exists_parts aligned isPiece
    rw [(Piece.toToken_of_parts after k starts stops).1, Ne, ← utf8_eq_nil_iff]
    intro none
    rw [utf8_append, none, List.append_nil] at stops
    omega
  · intro k token next here following
    obtain ⟨line, column⟩ := end_eq_next_ofTree aligned here following
    rw [Location.stop, line, column]
    rfl

variable {stream : TokenStream}

/-- Tokens follow each other: the span of a token ends at or before the start of every later one. -/
theorem Contiguous.stop_le_place (contiguous : stream.Contiguous) {token later : Token}
    (member : token ∈ stream.tokens) (alsoMember : later ∈ stream.tokens) (order : token.index < later.index) :
    (Location.ofToken token).stop ≤ later.place := by
  obtain ⟨i, here, -, index⟩ := exists_index_of_mem member
  obtain ⟨j, there, -, laterIndex⟩ := exists_index_of_mem alsoMember
  have steps : i + 1 ≤ j := by omega
  clear order laterIndex alsoMember
  -- The induction goes from the next token on; each step passes a token that is not empty.
  induction j, steps using Nat.le_induction generalizing later with
  | base => exact (contiguous.stop_eq i token later here there).le
  | succ j _ ih =>
    obtain ⟨passed, between⟩ : ∃ passed, stream.tokens[j]? = some passed := by
      obtain ⟨inside, -⟩ := List.getElem?_eq_some_iff.mp there
      exact ⟨_, List.getElem?_eq_getElem (by omega)⟩
    have wide := Location.place_lt_stop_ofToken (contiguous.nonempty passed (List.mem_of_getElem? between))
    calc (Location.ofToken token).stop
        ≤ passed.place := ih between
      _ ≤ (Location.ofToken passed).stop := wide.le
      _ = later.place := contiguous.stop_eq j passed later between there

theorem Contiguous.place_lt_place (contiguous : stream.Contiguous) {token later : Token}
    (member : token ∈ stream.tokens) (alsoMember : later ∈ stream.tokens) (order : token.index < later.index) :
    token.place < later.place :=
  (Location.place_lt_stop_ofToken (contiguous.nonempty token member)).trans_le
    (contiguous.stop_le_place member alsoMember order)

/-! ## The token of a place -/

private theorem isFrom_iff {line column : Int} {token : Token} :
    (!token.isHidden && (line < token.line || (line == token.line && column ≤ token.column))) = true ↔
      token.isHidden = false ∧ toLex (line, column) ≤ token.place := by
  rw [Token.place, Prod.Lex.toLex_le_toLex]
  simp

/-- A place leads to a significant token that does not start before it, if all significant tokens before
that token do. -/
theorem Contiguous.firstFrom_eq_some (contiguous : stream.Contiguous) {i : Nat} {anchor : Token}
    (got : stream.get i = .ok anchor) (shown : anchor.isHidden = false) {line column : Int}
    (upTo : toLex (line, column) ≤ anchor.place)
    (beyond : ∀ previous, stream.significantBefore i = some previous → previous.place < toLex (line, column)) :
    stream.firstFrom line column = some i := by
  obtain ⟨member, index⟩ := get_eq_ok_iff.mp got
  obtain ⟨k, here, inside, isIndex⟩ := exists_index_of_mem member
  obtain rfl : i = k := by omega
  obtain ⟨_, rfl⟩ := List.getElem?_eq_some_iff.mp here
  rw [firstFrom, List.findIdx?_eq_some_iff_getElem]
  refine ⟨inside, isFrom_iff.mpr ⟨shown, upTo⟩, ?_⟩
  intro j before reached
  obtain ⟨significant, fromPlace⟩ := isFrom_iff.mp reached
  have isToken : stream.tokens[j] ∈ stream.tokens := List.getElem_mem _
  have itsIndex : (stream.tokens[j]).index = j := stream.indexed j _
  cases last : stream.significantBefore i with
  | none =>
    have hidden := significantBefore_eq_none_iff.mp last _ isToken (by omega)
    simp [hidden] at significant
  | some previous =>
    obtain ⟨isPrevious, -, -, between⟩ := significantBefore_eq_some last
    have reach : stream.tokens[j].index ≤ previous.index := by
      by_contra after
      have hidden := between _ isToken (by omega) (by omega)
      simp [hidden] at significant
    have notAfter : stream.tokens[j].place ≤ previous.place := by
      rcases Int.lt_or_eq_of_le reach with earlier | same
      · exact (contiguous.place_lt_place isToken isPrevious earlier).le
      · rw [eq_of_index_eq isToken isPrevious same]
    exact absurd (beyond previous last) (not_lt.mpr (fromPlace.trans notAfter))

/-- A token of the hidden run before an anchor starts after the significant token before the anchor. -/
theorem Contiguous.place_lt_of_runBefore (contiguous : stream.Contiguous) {i : Nat} {hidden previous : Token}
    (run : stream.RunBefore i hidden) (last : stream.significantBefore i = some previous) :
    previous.place < hidden.place := by
  obtain ⟨member, -, between⟩ := run
  obtain ⟨isPrevious, before, shown, -⟩ := significantBefore_eq_some last
  refine contiguous.place_lt_place isPrevious member ?_
  by_contra after
  have alsoHidden := between previous isPrevious (by omega) before
  simp [alsoHidden] at shown

/-- The place of an anchor and every place inside the hidden run before it lead to the anchor. -/
theorem Contiguous.firstFrom_of_front (contiguous : stream.Contiguous) {i : Nat} {anchor : Token}
    (got : stream.get i = .ok anchor) (shown : anchor.isHidden = false) {line column : Int}
    (front : toLex (line, column) = anchor.place ∨
      ∃ hidden, stream.RunBefore i hidden ∧ (Location.ofToken hidden).Holds (toLex (line, column))) :
    stream.firstFrom line column = some i := by
  obtain ⟨member, index⟩ := get_eq_ok_iff.mp got
  rcases front with here | ⟨hidden, run, after, before⟩
  · refine contiguous.firstFrom_eq_some got shown here.le ?_
    intro previous last
    obtain ⟨isPrevious, earlier, -, -⟩ := significantBefore_eq_some last
    rw [here]
    exact contiguous.place_lt_place isPrevious member (by omega)
  · have upTo := contiguous.stop_le_place run.1 member (by rw [index]; exact run.2.1)
    refine contiguous.firstFrom_eq_some got shown (before.trans_le upTo).le ?_
    intro previous last
    exact (contiguous.place_lt_of_runBefore run last).trans_le after

end TokenStream

namespace Source

theorem docCommentAt_of_firstFrom {parser : Parser} {source : Text} {tree : SyntaxTree}
    (parsed : parser (utf8 source) = .ok tree) {line column : Int} {i : Nat}
    (leads : (TokenStream.ofTree (utf8 source).toArray tree).firstFrom line column = some i) (everyParam : Bool) :
    docCommentAt parser source everyParam line column = docComment parser source everyParam i := by
  simp only [docCommentAt, docComment, lookUp, tokenize, parsed, Except.map, Logged.andThen, leads]

/-- In a source whose syntax tree cuts no character, a significant token is found from every place up to
its own that lies after the significant token before it. So the place of an anchor, and any place in the
blanks and comments in front of it, leads to the comment of the declaration anchored there. -/
theorem docCommentAt_eq_docComment (parser : Parser) (source : Text) {tree : SyntaxTree}
    (parsed : parser (utf8 source) = .ok tree)
    (aligned : tree.Every fun node => Boundary source node.start ∧ Boundary source node.stop) (everyParam : Bool) :
    (∃ logged, tokenize parser source = .ok logged ∧
      ∀ (i : Int) (token : Token), logged.value.get i = .ok token → token.isHidden = false →
        ∀ line column : Int, toLex (line, column) ≤ token.place →
          (∀ previous, logged.value.lastBefore i = .ok (some previous) → previous.place < toLex (line, column)) →
          docCommentAt parser source everyParam line column = docComment parser source everyParam i) ∧
    ∃ scan, Scan.ofSource parser source = .ok scan ∧
      ∀ anchor ∈ scan.value.anchors, ∃ token, scan.value.stream.get anchor.index = .ok token ∧
        ∀ line column : Int,
          (toLex (line, column) = token.place ∨
            ∃ hidden, scan.value.stream.RunBefore anchor.index hidden ∧
              (Location.ofToken hidden).Holds (toLex (line, column))) →
          (docCommentAt parser source everyParam line column).value =
            (scan.value.stream.hiddenTokens.docComment everyParam anchor.index).value := by
  have contiguous := TokenStream.contiguous_ofTree aligned
  refine ⟨⟨_, by rw [tokenize, parsed]; rfl, ?_⟩, _, by rw [Scan.ofSource, parsed]; rfl, ?_⟩
  · intro i token got shown line column upTo beyond
    obtain ⟨member, rfl⟩ := TokenStream.get_eq_ok_iff.mp got
    obtain ⟨k, -, inside, index⟩ := TokenStream.exists_index_of_mem member
    rw [index] at got beyond ⊢
    refine docCommentAt_of_firstFrom parsed (contiguous.firstFrom_eq_some got shown upTo ?_) everyParam
    intro previous last
    apply beyond previous
    rw [TokenStream.lastBefore, TokenStream.position_of_inside inside]
    exact congrArg Except.ok last
  · intro anchor member
    obtain ⟨token, got, shown, -⟩ := Scan.exists_token_of_mem_anchors member
    refine ⟨token, got, ?_⟩
    intro line column front
    rw [docCommentAt_of_firstFrom parsed (contiguous.firstFrom_of_front got shown front) everyParam]
    simp only [docComment, lookUp, tokenize, parsed, Except.map, Logged.andThen]
    rfl

/-- A word, a comment with a character of two bytes right behind it, and a class on the next line. -/
private def documentedClass : Text := ['a', '/', '*', '*', 'é', '*', '/', '\n', 'c']

private def documentedClassTree : SyntaxTree :=
  .node (Trivia.leaf "program" 0 10) [.node (Trivia.leaf "identifier" 0 1) [],
    .node (Trivia.leaf "block_comment" 1 8) [], .node (Trivia.leaf "class_declaration" 9 10) []]

/-- A place inside the comment leads to the class on the next line. -/
theorem docCommentAt_eq_docComment_inside_comment :
    documentedClassTree.Every (fun node =>
      Boundary documentedClass node.start ∧ Boundary documentedClass node.stop) ∧
    docCommentAt (fun _ => .ok documentedClassTree) documentedClass false 1 4 =
      docComment (fun _ => .ok documentedClassTree) documentedClass false 3 ∧
    (docComment (fun _ => .ok documentedClassTree) documentedClass false 3).value.map DocComment.location =
      some ⟨1, 1, 1, 7⟩ := by
  have aligned : documentedClassTree.Every fun node =>
      Boundary documentedClass node.start ∧ Boundary documentedClass node.stop := by decide
  obtain ⟨⟨logged, tokenized, agree⟩, -⟩ :=
    docCommentAt_eq_docComment (fun _ => .ok documentedClassTree) documentedClass rfl aligned false
  obtain rfl := Except.ok.inj tokenized
  refine ⟨aligned, agree 3 ⟨['c'], 3, 2, 0, 0, "class_declaration", 9⟩ rfl rfl 1 4 (by decide) ?_, rfl⟩
  intro previous last
  obtain rfl : (⟨['a'], 0, 1, 0, 0, "identifier", 0⟩ : Token) = previous := Option.some.inj (Except.ok.inj last)
  decide

end Source

end ApexComments
