import ApexComments.Proofs.Association
import ApexComments.Proofs.Tiling

/-!
# Spans delimit the tokens

The place of a token is found from the bytes before it, and the end of its span from its own text. Where
the syntax tree cuts no character, both agree with the lines of the source without its surrogates: the
span of a token delimits the token there, and ends where the next token starts.
-/
namespace ApexComments

open Text

/-- The number of characters before a line and column: the lines before, each with its line feed, and
the column. -/
def Text.charsBefore (text : Text) (line column : Int) : Nat :=
  (((lines text).take (line.toNat - 1)).flatMap (· ++ [CodePoint.char '\n'])).length + column.toNat

/-- A line, from 1, and a column, from 0, that lie in the text. -/
def Text.HasPlace (text : Text) (line column : Int) : Prop :=
  1 ≤ line ∧ 0 ≤ column ∧ ∃ content, (lines text)[line.toNat - 1]? = some content ∧ column ≤ content.length

/-- The part of a text that lies in a span. -/
def Location.cut (location : Location) (text : Text) : Text :=
  (text.take (charsBefore text location.endLine location.endColumn)).drop
    (charsBefore text location.startLine location.startColumn)

/-- The span covers a part of the source: it starts right after the text before that part, and what
it cuts out of the source is the part. -/
structure Location.Delimits (location : Location) (source before part : Text) : Prop where
  start_place : source.HasPlace location.startLine location.startColumn
  end_place : source.HasPlace location.endLine location.endColumn
  start_eq : charsBefore source location.startLine location.startColumn = before.length
  cut_eq : location.cut source = part

/-! ## Lines of a text and of its bytes -/

/-- What follows the last separator of two parts together: it lies in the second part if that holds
one. -/
private theorem lastPart_append {α : Type} [DecidableEq α] (separator : α) (front back : List α) :
    ((front ++ back).reverse.takeWhile (· != separator)).reverse =
      if separator ∈ back then (back.reverse.takeWhile (· != separator)).reverse
      else (front.reverse.takeWhile (· != separator)).reverse ++ back := by
  rw [List.reverse_append, List.takeWhile_append]
  by_cases held : separator ∈ back
  · have part : (back.reverse.takeWhile (· != separator)).length ≠ back.reverse.length := by
      intro same
      have whole := List.takeWhile_eq_self_iff.mp ((List.takeWhile_prefix _).eq_of_length same)
      simpa using whole separator (List.mem_reverse.mpr held)
    rw [if_neg part, if_pos held]
  · have whole : back.reverse.takeWhile (· != separator) = back.reverse := by
      rw [List.takeWhile_eq_self_iff]
      intro x member
      have other : x ≠ separator := fun same => held (same ▸ List.mem_reverse.mp member)
      simpa using other
    rw [whole, if_pos rfl, if_neg held, List.reverse_append, List.reverse_reverse]

theorem lastLine_append (front back : Text) :
    lastLine (front ++ back) = if CodePoint.char '\n' ∈ back then lastLine back else lastLine front ++ back :=
  lastPart_append (CodePoint.char '\n') front back

theorem lineTail_append (front back : List UInt8) :
    lineTail (front ++ back) = if 10 ∈ back then lineTail back else lineTail front ++ back :=
  lastPart_append 10 front back

theorem lastLine_of_not_mem {text : Text} (single : CodePoint.char '\n' ∉ text) : lastLine text = text := by
  simpa [single, lastLine] using lastLine_append [] text

/-- A line feed is a byte by itself and no part of another character. -/
theorem mem_utf8Char_iff {c : Char} : 10 ∈ utf8Char c ↔ c = '\n' := by
  obtain ⟨lead, tails, bytes, encodes⟩ := utf8Char_encodes c
  constructor
  · intro member
    rw [bytes] at member
    rcases List.mem_cons.mp member with rfl | continuation
    · have read := encodes.reads []
      rw [headChar?_of_lt (by decide)] at read
      exact (Prod.mk.inj (Option.some.inj read)).1.symm
    · have tail := encodes.all_tails 10 continuation
      simp [isTail] at tail
  · rintro rfl
    decide

theorem mem_utf8Point_iff {c : CodePoint} : 10 ∈ utf8Point c ↔ c = '\n' := by
  cases c with
  | char c => simpa using mem_utf8Char_iff
  | surrogate _ => simp

theorem lineFeeds_utf8 (text : Text) : lineFeeds (utf8 text) = text.count (CodePoint.char '\n') := by
  induction text with
  | nil => rfl
  | cons c rest ih =>
    rw [utf8_cons, lineFeeds, List.count_append, ← lineFeeds, ← lineFeeds, ih]
    by_cases feed : c = '\n'
    · subst feed
      rw [List.count_cons_self, Nat.add_comm]
      rfl
    · have none : lineFeeds (utf8Point c) = 0 := List.count_eq_zero.mpr fun member => feed (mem_utf8Point_iff.mp member)
      rw [List.count_cons_of_ne feed, none, Nat.zero_add]

theorem lineTail_utf8 (text : Text) : lineTail (utf8 text) = utf8 (lastLine text) := by
  induction text using List.reverseRecOn with
  | nil => rfl
  | append_singleton text c ih =>
    rw [utf8_append, lineTail_append, lastLine_append]
    simp only [utf8_cons, utf8_nil, List.append_nil, mem_utf8Point_iff, List.mem_singleton,
      @eq_comm _ (CodePoint.char '\n')]
    by_cases feed : c = '\n'
    · subst feed
      rfl
    · simp [feed, ih]

theorem mem_of_mem_lastLine {text : Text} {c : CodePoint} (member : c ∈ lastLine text) : c ∈ text :=
  List.mem_reverse.mp ((List.takeWhile_prefix _).subset (List.mem_reverse.mp member))

theorem Place.lineAt_utf8 (before after : Text) :
    Place.lineAt (utf8 (before ++ after)).toArray (utf8 before).length =
      (withoutSurrogates before).count (CodePoint.char '\n') + 1 := by
  rw [Place.lineAt, utf8_append, List.take_left, ← utf8_withoutSurrogates before, lineFeeds_utf8]

theorem Place.columnAt_utf8 (before after : Text) :
    Place.columnAt (utf8 (before ++ after)).toArray (utf8 before).length =
      (lastLine (withoutSurrogates before)).length := by
  have characters : withoutSurrogates (lastLine (withoutSurrogates before)) = lastLine (withoutSurrogates before) :=
    withoutSurrogates_eq_self_iff.mpr fun _ member => isSurrogate_of_mem_withoutSurrogates (mem_of_mem_lastLine member)
  rw [Place.columnAt, utf8_append, List.take_left, ← utf8_withoutSurrogates before, lineTail_utf8, decode_utf8,
    characters]

/-! ## From characters to lines and columns -/

/-- The lines of a text in two parts: as many lines are passed as the first part has line feeds, and
the line after them goes on from the last line of the first part. -/
private theorem lines_append_split (before after : Text) :
    ∃ passed content later, lines (before ++ after) = passed ++ content :: later ∧
      passed.length = before.count (CodePoint.char '\n') ∧ (lastLine before).length ≤ content.length ∧
      (passed.flatMap (· ++ [CodePoint.char '\n'])).length + (lastLine before).length = before.length := by
  induction before with
  | nil =>
    obtain ⟨content, later, split⟩ := List.exists_cons_of_ne_nil (splitOn_ne_nil '\n' after)
    exact ⟨[], content, later, split, rfl, Nat.zero_le _, rfl⟩
  | cons c before ih =>
    obtain ⟨passed, content, later, split, feeds, within, total⟩ := ih
    have lastLine_eq := lastLine_append [c] before
    rw [List.singleton_append] at lastLine_eq
    by_cases feed : c = '\n'
    · subst feed
      have kept : lastLine (CodePoint.char '\n' :: before) = lastLine before := by
        rw [lastLine_eq]
        split
        · rfl
        · next single => rw [lastLine_of_not_mem single]; rfl
      refine ⟨[] :: passed, content, later, ?_, ?_, ?_, ?_⟩
      · rw [List.cons_append, lines, splitOn, if_pos rfl, ← lines, split, List.cons_append]
      · rw [List.length_cons, List.count_cons_self, feeds]
      · rw [kept]
        exact within
      · rw [kept, List.flatMap_cons, List.nil_append, List.singleton_append, List.length_cons, List.length_cons]
        omega
    · have count : (c :: before).count (CodePoint.char '\n') = before.count (CodePoint.char '\n') :=
        List.count_cons_of_ne feed
      cases passed with
      | nil =>
        -- The first line feed is still to come: the character joins the line of the place.
        have single : CodePoint.char '\n' ∉ before := List.count_eq_zero.mp feeds.symm
        have joined : lastLine (c :: before) = c :: before := lastLine_of_not_mem (by simp [single, Ne.symm feed])
        rw [lastLine_of_not_mem single] at within
        refine ⟨[], c :: content, later, ?_, by rw [count, ← feeds], ?_, by simp [joined]⟩
        · rw [List.cons_append, lines, splitOn, if_neg feed, ← lines, split]
          rfl
        · rw [joined, List.length_cons, List.length_cons]
          omega
      | cons first others =>
        have held : CodePoint.char '\n' ∈ before := List.count_pos_iff.mp (by rw [← feeds]; simp)
        rw [if_pos held] at lastLine_eq
        refine ⟨(c :: first) :: others, content, later, ?_, ?_, ?_, ?_⟩
        · rw [List.cons_append, lines, splitOn, if_neg feed, ← lines, split]
          rfl
        · rw [count, ← feeds, List.length_cons, List.length_cons]
        · rw [lastLine_eq]
          exact within
        · rw [lastLine_eq, List.length_cons, ← total]
          simp only [List.flatMap_cons, List.cons_append, List.length_cons]
          omega

theorem Text.hasPlace_after (before after : Text) :
    Text.HasPlace (before ++ after) (before.count (CodePoint.char '\n') + 1 : Nat) (lastLine before).length := by
  obtain ⟨passed, content, later, split, feeds, within, -⟩ := lines_append_split before after
  refine ⟨by omega, by omega, content, ?_, by omega⟩
  rw [split, Int.toNat_natCast, Nat.add_sub_cancel, ← feeds]
  simp

theorem Text.charsBefore_after (before after : Text) :
    Text.charsBefore (before ++ after) (before.count (CodePoint.char '\n') + 1 : Nat) (lastLine before).length =
      before.length := by
  obtain ⟨passed, content, later, split, feeds, -, total⟩ := lines_append_split before after
  rw [Text.charsBefore, split, Int.toNat_natCast, Int.toNat_natCast, Nat.add_sub_cancel, ← feeds, List.take_left]
  exact total

/-! ## Tokens in the source -/

/-- The span is that of the token in the source: it delimits the text of the token where the bytes of
the token start. -/
def Location.Marks (location : Location) (source : Text) (token : Token) : Prop :=
  ∃ before after, source = before ++ token.text ++ after ∧ ((utf8 before).length : Int) = token.startByte ∧
    location.Delimits source before token.text

theorem Location.ofToken_end {token : Token} {before : Text}
    (line : token.line = (before.count (CodePoint.char '\n') + 1 : Nat))
    (column : token.column = (lastLine before).length) :
    (Location.ofToken token).endLine = ((before ++ token.text).count (CodePoint.char '\n') + 1 : Nat) ∧
      (Location.ofToken token).endColumn = (lastLine (before ++ token.text)).length := by
  constructor
  · simp only [Location.ofToken, line, List.count_append]
    omega
  · rw [lastLine_append]
    by_cases feed : CodePoint.char '\n' ∈ token.text
    · simp [Location.ofToken, feed]
    · simp [Location.ofToken, feed, column]

theorem Location.delimits_ofToken {token : Token} {before : Text} (after : Text)
    (line : token.line = (before.count (CodePoint.char '\n') + 1 : Nat))
    (column : token.column = (lastLine before).length) :
    (Location.ofToken token).Delimits (before ++ token.text ++ after) before token.text := by
  obtain ⟨endLine, endColumn⟩ := Location.ofToken_end line column
  have startLine : (Location.ofToken token).startLine = (before.count (CodePoint.char '\n') + 1 : Nat) := line
  have startColumn : (Location.ofToken token).startColumn = (lastLine before).length := column
  have start := charsBefore_after before (token.text ++ after)
  rw [← List.append_assoc, ← startLine, ← startColumn] at start
  have stop := charsBefore_after (before ++ token.text) after
  rw [← endLine, ← endColumn] at stop
  refine ⟨?_, ?_, start, ?_⟩
  · rw [startLine, startColumn, List.append_assoc]
    exact hasPlace_after before (token.text ++ after)
  · rw [endLine, endColumn]
    exact hasPlace_after (before ++ token.text) after
  · rw [Location.cut, start, stop, List.take_left, List.drop_left]

theorem Piece.tiles_of_aligned {source : Text} {tree : SyntaxTree}
    (aligned : tree.Every fun node => Boundary source node.start ∧ Boundary source node.stop) :
    Piece.Tiles 0 (Piece.ofTree (utf8 source).toArray tree) (utf8 source).length :=
  Piece.tiles_ofTree (aligned.imp fun _ ends => ⟨ends.1.le_length, ends.2.le_length⟩)

/-- The pieces of a tree that cuts no character end between characters too. -/
theorem Piece.exists_parts {source : Text} {tree : SyntaxTree}
    (aligned : tree.Every fun node => Boundary source node.start ∧ Boundary source node.stop) {piece : Piece}
    (member : piece ∈ Piece.ofTree (utf8 source).toArray tree) :
    ∃ before part after, source = before ++ part ++ after ∧ (utf8 before).length = piece.start ∧
      (utf8 (before ++ part)).length = piece.stop := by
  have tiles := Piece.tiles_of_aligned aligned
  have starts : ∀ piece ∈ Piece.ofTree (utf8 source).toArray tree, Boundary source piece.start :=
    Piece.start_of_mem_ofTree ⟨[], source, rfl, rfl⟩ aligned
  have stops := tiles.stop_of_mem starts ⟨source, [], by simp, rfl⟩
  have wide := (tiles.bounds piece member).2.1
  exact (starts piece member).split (stops piece member) (Nat.le_of_lt wide)

theorem Piece.toToken_of_parts {before part : Text} (after : Text) {piece : Piece} (k : Nat)
    (starts : (utf8 before).length = piece.start) (stops : (utf8 (before ++ part)).length = piece.stop) :
    (piece.toToken (utf8 (before ++ part ++ after)).toArray k).text = withoutSurrogates part ∧
      (piece.toToken (utf8 (before ++ part ++ after)).toArray k).line =
        ((withoutSurrogates before).count (CodePoint.char '\n') + 1 : Nat) ∧
      (piece.toToken (utf8 (before ++ part ++ after)).toArray k).column =
        (lastLine (withoutSurrogates before)).length := by
  refine ⟨?_, ?_, ?_⟩
  · rw [Piece.toToken_text, ← starts, ← stops, decode_between]
  · rw [Piece.toToken, ← starts, List.append_assoc, Place.lineAt_utf8]
  · rw [Piece.toToken, ← starts, List.append_assoc, Place.columnAt_utf8]

theorem marks_ofTree {source : Text} {tree : SyntaxTree}
    (aligned : tree.Every fun node => Boundary source node.start ∧ Boundary source node.stop) {token : Token}
    (member : token ∈ (TokenStream.ofTree (utf8 source).toArray tree).tokens) :
    (Location.ofToken token).Marks (withoutSurrogates source) token := by
  obtain ⟨k, here⟩ := List.getElem?_of_mem member
  rw [TokenStream.getElem?_ofTree] at here
  obtain ⟨piece, there, rfl⟩ := Option.map_eq_some_iff.mp here
  obtain ⟨before, part, after, rfl, starts, stops⟩ := Piece.exists_parts aligned (List.mem_of_getElem? there)
  obtain ⟨text, line, column⟩ := Piece.toToken_of_parts after k starts stops
  have delimits := Location.delimits_ofToken (withoutSurrogates after) line column
  refine ⟨withoutSurrogates before, withoutSurrogates after, ?_, ?_, ?_⟩
  · rw [text, withoutSurrogates_append, withoutSurrogates_append]
  · rw [utf8_withoutSurrogates, starts]
    rfl
  · simpa only [text, withoutSurrogates_append] using delimits

theorem end_eq_next_ofTree {source : Text} {tree : SyntaxTree}
    (aligned : tree.Every fun node => Boundary source node.start ∧ Boundary source node.stop) {k : Nat}
    {token next : Token} (here : (TokenStream.ofTree (utf8 source).toArray tree).tokens[k]? = some token)
    (following : (TokenStream.ofTree (utf8 source).toArray tree).tokens[k + 1]? = some next) :
    (Location.ofToken token).endLine = next.line ∧ (Location.ofToken token).endColumn = next.column := by
  rw [TokenStream.getElem?_ofTree] at here following
  obtain ⟨piece, there, rfl⟩ := Option.map_eq_some_iff.mp here
  obtain ⟨nextPiece, nextThere, rfl⟩ := Option.map_eq_some_iff.mp following
  have adjacent := (Piece.tiles_of_aligned aligned).stop_eq there
  rw [nextThere] at adjacent
  obtain ⟨before, part, after, rfl, starts, stops⟩ := Piece.exists_parts aligned (List.mem_of_getElem? there)
  obtain ⟨text, line, column⟩ := Piece.toToken_of_parts after k starts stops
  obtain ⟨endLine, endColumn⟩ := Location.ofToken_end line column
  have nextStart : (utf8 (before ++ part)).length = nextPiece.start := stops.trans adjacent
  rw [endLine, endColumn, text, Piece.toToken, ← nextStart, Place.lineAt_utf8, Place.columnAt_utf8,
    withoutSurrogates_append]
  exact ⟨rfl, rfl⟩

namespace Source

/-- In a source tokenized by a tree that cuts no character, the span of every token marks the token in
the source without its surrogates, the first one starts at the first place, and each ends where the next one
starts. So a span that a lookup gives marks the documentation comment found. -/
theorem tokenize_spans_exact (parser : Parser) (source : Text) {tree : SyntaxTree}
    (parsed : parser (utf8 source) = .ok tree)
    (aligned : tree.Every fun node => Boundary source node.start ∧ Boundary source node.stop) :
    ∃ logged, tokenize parser source = .ok logged ∧
      (∀ token ∈ logged.value.tokens, (Location.ofToken token).Marks (withoutSurrogates source) token) ∧
      (∀ token ∈ logged.value.tokens.head?, token.line = 1 ∧ token.column = 0) ∧
      (∀ (k : Nat) (token next : Token), logged.value.tokens[k]? = some token →
        logged.value.tokens[k + 1]? = some next →
        (Location.ofToken token).endLine = next.line ∧ (Location.ofToken token).endColumn = next.column) ∧
      (∀ anchor location, (logged.value.hiddenTokens.docSpan anchor).value = some location →
        ∃ token ∈ logged.value.tokens, logged.value.hiddenTokens.nearestDoc anchor = .ok (some token) ∧
          location.Marks (withoutSurrogates source) token) ∧
      (∀ everyParam anchor comment,
        (logged.value.hiddenTokens.docComment everyParam anchor).value = some comment →
        ∃ token ∈ logged.value.tokens, logged.value.hiddenTokens.nearestDoc anchor = .ok (some token) ∧
          comment.location.Marks (withoutSurrogates source) token) := by
  have marks : ∀ token ∈ (TokenStream.ofTree (utf8 source).toArray tree).tokens,
      (Location.ofToken token).Marks (withoutSurrogates source) token := fun token member => marks_ofTree aligned member
  refine ⟨_, by rw [tokenize, parsed]; rfl, marks, ?_, ?_, ?_, ?_⟩
  · intro token first
    rw [List.head?_eq_getElem?, TokenStream.getElem?_ofTree] at first
    obtain ⟨piece, here, rfl⟩ := Option.map_eq_some_iff.mp first
    rw [← List.head?_eq_getElem?] at here
    have origin := (Piece.tiles_of_aligned aligned).start_of_head? here
    simp [Piece.toToken, origin, Place.lineAt, Place.columnAt, lineFeeds, lineTail]
  · intro k token next here following
    exact end_eq_next_ofTree aligned here following
  · intro anchor location given
    obtain ⟨token, found, rfl⟩ := HiddenTokens.orAbsent_eq_some given
    have member := TokenStream.mem_tokens_of_nearestDoc found
    exact ⟨token, member, found, marks token member⟩
  · intro everyParam anchor comment given
    obtain ⟨token, found, rfl⟩ := HiddenTokens.orAbsent_eq_some given
    have member := TokenStream.mem_tokens_of_nearestDoc found
    exact ⟨token, member, found, marks token member⟩

/-- Two documentation lines with a character of two bytes and one of four, and a semicolon. -/
private def twoDocLines : Text := ['/', '/', '/', 'é', '\n', '/', '/', '/', '😀', '\n', ';']

private def twoDocLinesTree : SyntaxTree :=
  .node (Trivia.leaf "program" 0 15) [.node (Trivia.leaf "line_comment" 0 5) [],
    .node (Trivia.leaf "line_comment" 6 13) [], .node (Trivia.leaf ";" 14 15) []]

/-- The two lines are one comment, whose span from the first to the second line is found from the
semicolon. -/
theorem tokenize_spans_exact_two_lines :
    twoDocLinesTree.Every (fun node => Boundary twoDocLines node.start ∧ Boundary twoDocLines node.stop) ∧
    ∃ logged, tokenize (fun _ => .ok twoDocLinesTree) twoDocLines = .ok logged ∧
      (logged.value.hiddenTokens.docSpan 2).value = some ⟨1, 0, 2, 4⟩ ∧
      ∃ token ∈ logged.value.tokens, (⟨1, 0, 2, 4⟩ : Location).Marks twoDocLines token := by
  have aligned : twoDocLinesTree.Every fun node =>
      Boundary twoDocLines node.start ∧ Boundary twoDocLines node.stop := by decide
  obtain ⟨logged, tokenized, -, -, -, spans, -⟩ :=
    tokenize_spans_exact (fun _ => .ok twoDocLinesTree) twoDocLines rfl aligned
  have given : (logged.value.hiddenTokens.docSpan 2).value = some ⟨1, 0, 2, 4⟩ := by
    obtain rfl := Except.ok.inj tokenized
    rfl
  obtain ⟨token, member, -, marks⟩ := spans 2 ⟨1, 0, 2, 4⟩ given
  exact ⟨aligned, logged, tokenized, given, token, member, marks⟩

/-- A blank and a semicolon behind a surrogate: the span of the blank is that of the first place, where the source
has the surrogate. -/
theorem tokenize_spans_behind_surrogate :
    (SyntaxTree.node (Trivia.leaf "program" 0 2) [.node (Trivia.leaf ";" 1 2) []]).Every (fun node =>
      Boundary [.surrogate 0, ' ', ';'] node.start ∧ Boundary [.surrogate 0, ' ', ';'] node.stop) ∧
    ∃ logged token, tokenize (fun _ => .ok (.node (Trivia.leaf "program" 0 2) [.node (Trivia.leaf ";" 1 2) []]))
        [.surrogate 0, ' ', ';'] = .ok logged ∧
      token ∈ logged.value.tokens ∧ token.text = [' '] ∧
      (Location.ofToken token).cut [.surrogate 0, ' ', ';'] = [.surrogate 0] := by
  refine ⟨by decide, _, ⟨[' '], 0, 1, 0, 1, "whitespace", 0⟩, rfl, ?_, rfl, by decide⟩
  exact List.mem_of_getElem? (show _[0]? = _ from rfl)

end Source

end ApexComments
