import ApexComments.Proofs.Rows

/-!
# Line numbers agree

Three counts of lines meet in a row. The line of a token is counted in the bytes before it, the line in
which a comment ends by the line feeds of its text, and the lines of a file by every character that ends
a line. Lenient decoding neither loses a line feed nor makes one up (`count_feed_decode`), so the first
two agree even where the syntax tree cuts characters; and an offset inside the source lies in a line that
the third counts (`lineAt_le_lineCount`).
-/
namespace ApexComments

open Text

namespace Text

/-! ## Line feeds among the bytes -/

private theorem ofNat_eq_feed_iff {n : Nat} : Char.ofNat n = '\n' ↔ n = 10 := by
  constructor
  · intro feed
    by_cases valid : n.isValidChar
    · rw [Char.ofNat, dif_pos valid] at feed
      exact congrArg Char.toNat feed
    · rw [Char.ofNat, dif_neg valid] at feed
      exact absurd feed (by decide)
  · rintro rfl
    rfl

private theorem ofNat_eq_feed_iff_of_high {lead : UInt8} {value : Nat} (leads : 0x80 ≤ lead.toNat)
    (high : 0x80 ≤ value) :
    Char.ofNat value = '\n' ↔ lead = 10 := by
  constructor
  · intro feed
    have := ofNat_eq_feed_iff.mp feed
    omega
  · rintro rfl
    exact absurd leads (by decide)

private theorem isSecond_bounds {lead second : UInt8} (fits : isSecond lead second = true) :
    isTail second = true ∧ (lead.toNat = 0xE0 → 0xA0 ≤ second.toNat) ∧ (lead.toNat = 0xF0 → 0x90 ≤ second.toNat) := by
  simp only [isSecond, Bool.and_eq_true] at fits
  refine ⟨fits.1.1.1.1, ?_, ?_⟩
  · intro lowest
    simpa [lowest] using fits.1.1.1.2
  · intro lowest
    simpa [lowest] using fits.1.2

private theorem le_of_tailsAfter {lead : UInt8} {more : Nat} (asks : tailsAfter lead = some (more + 1)) :
    0xC2 ≤ lead.toNat ∧ (1 ≤ more → 0xE0 ≤ lead.toNat) ∧ (2 ≤ more → 0xF0 ≤ lead.toNat) := by
  unfold tailsAfter at asks
  grind

/-- A byte is read as a line feed where it is one and nowhere else, and no byte taken with it is one. -/
private theorem headChar?_feed {lead : UInt8} {after : List UInt8} {c : Char} {tails : Nat}
    (read : headChar? lead after = some (c, tails)) :
    (c = '\n' ↔ lead = 10) ∧ ∀ b ∈ after.take tails, isTail b = true := by
  unfold headChar? at read
  split at read
  · obtain ⟨rfl, rfl⟩ := Prod.mk.inj (Option.some.inj read)
    exact ⟨ofNat_eq_feed_iff.trans (UInt8.toNat_inj (b := 10)), by simp⟩
  · next asks =>
    split at read
    · next fits =>
      obtain ⟨rfl, rfl⟩ := Prod.mk.inj (Option.some.inj read)
      have high := le_of_tailsAfter asks
      obtain ⟨tail, -⟩ := isSecond_bounds fits
      exact ⟨ofNat_eq_feed_iff_of_high (by omega) (by omega), by simp [tail]⟩
    · cases read
  · next asks =>
    split at read
    · next fits =>
      obtain ⟨rfl, rfl⟩ := Prod.mk.inj (Option.some.inj read)
      obtain ⟨second, third⟩ := Bool.and_eq_true_iff.mp fits
      have high := le_of_tailsAfter asks
      obtain ⟨tail, lowest, -⟩ := isSecond_bounds second
      exact ⟨ofNat_eq_feed_iff_of_high (by omega) (by omega), by simp [tail, third]⟩
    · cases read
  · next asks =>
    split at read
    · next fits =>
      obtain ⟨rfl, rfl⟩ := Prod.mk.inj (Option.some.inj read)
      obtain ⟨front, fourth⟩ := Bool.and_eq_true_iff.mp fits
      obtain ⟨second, third⟩ := Bool.and_eq_true_iff.mp front
      have high := le_of_tailsAfter asks
      obtain ⟨tail, -, lowest⟩ := isSecond_bounds second
      exact ⟨ofNat_eq_feed_iff_of_high (by omega) (by omega), by simp [tail, third, fourth]⟩
    · cases read
  · cases read

private theorem count_feed_decodeAfter {taken : Nat} {bytes : List UInt8}
    (continuation : ∀ b ∈ bytes.take taken, isTail b = true) :
    (decodeAfter taken bytes).count (CodePoint.char '\n') = lineFeeds bytes := by
  induction bytes generalizing taken with
  | nil => rfl
  | cons b rest ih =>
    cases taken with
    | succ more =>
      rw [List.take_succ_cons, List.forall_mem_cons] at continuation
      have other : b ≠ 10 := by
        rintro rfl
        exact absurd continuation.1 (by decide)
      rw [decodeAfter, ih continuation.2, lineFeeds, lineFeeds, List.count_cons_of_ne other]
    | zero =>
      cases read : headChar? b rest with
      | none =>
        have other : b ≠ 10 := by
          rintro rfl
          simp [headChar?_of_lt] at read
        have onward := ih (by simp : ∀ b ∈ rest.take 0, isTail b = true)
        simp only [decodeAfter, read, onward, lineFeeds, List.count_cons_of_ne other]
      | some found =>
        obtain ⟨feed, later⟩ := headChar?_feed read
        simp only [decodeAfter, read, lineFeeds, List.count_cons, ih later, beq_iff_eq, CodePoint.char.injEq, feed]

/-- Decoding keeps the line feeds: none is dropped with the bytes of a cut character, and none comes from
other bytes. -/
theorem count_feed_decode (bytes : List UInt8) : (decode bytes).count (CodePoint.char '\n') = lineFeeds bytes := by
  rw [decode_eq_decodeAfter]
  exact count_feed_decodeAfter (by simp)

/-! ## Lines counted from either side -/

/-- Before an offset inside the bytes of a text there are as many line feeds as before the character that
the offset lies in. -/
private theorem exists_lineFeeds_take {text : Text} {offset : Nat} (inside : offset < (utf8 text).length) :
    ∃ before c after, text = before ++ c :: after ∧
      lineFeeds ((utf8 text).take offset) = before.count (CodePoint.char '\n') := by
  induction text generalizing offset with
  | nil => simp at inside
  | cons c rest ih =>
    rw [utf8_cons, List.length_append] at inside
    by_cases here : offset < (utf8Point c).length
    · refine ⟨[], c, rest, rfl, List.count_eq_zero.mpr ?_⟩
      rw [utf8_cons, List.take_append_of_le_length (Nat.le_of_lt here)]
      intro member
      obtain rfl := mem_utf8Point_iff.mp (List.mem_of_mem_take member)
      obtain rfl : offset = 0 := Nat.lt_one_iff.mp here
      simp at member
    · obtain ⟨later, rfl⟩ := Nat.exists_eq_add_of_le (Nat.not_lt.mp here)
      obtain ⟨before, d, after, rfl, feeds⟩ := ih (by omega : later < (utf8 rest).length)
      refine ⟨c :: before, d, after, rfl, ?_⟩
      have first := lineFeeds_utf8 [c]
      simp only [utf8_cons, utf8_nil, List.append_nil, lineFeeds] at first feeds ⊢
      rw [List.take_length_add_append, List.count_append, first, feeds, ← List.count_append, List.singleton_append]

private theorem ended_le_lineCountFrom (ended : Nat) (begun : Bool) (text : Text) :
    ended + begun.toNat ≤ lineCountFrom ended begun text := by
  fun_induction lineCountFrom ended begun text with
  | case1 ended => rfl
  | case2 ended begun empty => simp [empty]
  | case3 ended begun rest ih =>
    have one := begun.toNat_le
    omega
  | case4 ended begun c rest _ ends ih =>
    have one := begun.toNat_le
    omega
  | case5 ended begun c rest _ goesOn ih =>
    have one := begun.toNat_le
    rw [Bool.toNat_true] at ih
    omega

/-- Every line feed before a character ends a line, and the character itself lies in one more. -/
private theorem lt_lineCountFrom (ended : Nat) (begun : Bool) {text before after : Text} {c : CodePoint}
    (whole : text = before ++ c :: after) :
    ended + before.count (CodePoint.char '\n') < lineCountFrom ended begun text := by
  fun_induction lineCountFrom ended begun text generalizing before with
  | case1 ended => simp at whole
  | case2 ended begun empty => simp at whole
  | case3 ended begun rest ih =>
    have later := ended_le_lineCountFrom (ended + 1) false rest
    match before, whole with
    | [], _ => exact later
    | [_], whole =>
      obtain ⟨rfl, -⟩ := List.cons.inj whole
      exact later
    | _ :: _ :: before, whole =>
      obtain ⟨rfl, others⟩ := List.cons.inj whole
      obtain ⟨rfl, onward⟩ := List.cons.inj others
      have := ih onward
      simp
      omega
  | case4 ended begun d rest _ ends ih =>
    have later := ended_le_lineCountFrom (ended + 1) false rest
    match before, whole with
    | [], _ => exact later
    | _ :: before, whole =>
      obtain ⟨rfl, onward⟩ := List.cons.inj whole
      have := ih onward
      rw [List.count_cons]
      split <;> omega
  | case5 ended begun d rest _ goesOn ih =>
    have later := ended_le_lineCountFrom ended true rest
    match before, whole with
    | [], _ => exact later
    | _ :: before, whole =>
      obtain ⟨rfl, onward⟩ := List.cons.inj whole
      have other : d ≠ '\n' := by
        rintro rfl
        exact goesOn (by decide)
      rw [List.count_cons_of_ne other]
      exact ih onward

end Text

namespace Place

theorem lineAt_eq_add (source : Array UInt8) {start stop : Nat} (order : start ≤ stop) :
    lineAt source stop = lineAt source start + lineFeeds (slice source start stop) := by
  have split := List.take_append_drop start (source.toList.take stop)
  rw [List.take_take, Nat.min_eq_left order, ← slice_eq_drop_take] at split
  rw [lineAt, lineAt, ← split, lineFeeds, List.count_append, Nat.add_right_comm]
  rfl

/-- An offset inside a text lies in one of the lines of the text. -/
theorem lineAt_le_lineCount {text : Text} {offset : Nat} (inside : offset < (utf8 text).length) :
    lineAt (utf8 text).toArray offset ≤ lineCount text := by
  obtain ⟨before, c, after, whole, feeds⟩ := exists_lineFeeds_take inside
  have counted := lt_lineCountFrom 0 false whole
  rw [lineAt, feeds, lineCount]
  omega

end Place

/-- The line in which a token ends is that of the byte after it, whatever was dropped from its text. -/
theorem Piece.endLine_toToken (source : Array UInt8) (k : Nat) {piece : Piece} (order : piece.start ≤ piece.stop) :
    (Location.ofToken (piece.toToken source k)).endLine = Place.lineAt source piece.stop := by
  rw [Place.lineAt_eq_add source order, ← count_feed_decode]
  rfl

/-! ## The lines of a row -/

/-- The comment of a row stands on lines of the file, not below the line of the declaration. -/
def DeclarationRow.LinesAgree (row : DeclarationRow) (total : Nat) : Prop :=
  1 ≤ row.location.startLine ∧ row.location.startLine ≤ row.location.endLine ∧
    row.location.endLine ≤ row.line ∧ row.line ≤ total

namespace Extraction

variable {task : Extraction} {file : Text} {row : DeclarationRow}

theorem linesAgree_of_mem_docs {source : Text} {tree : SyntaxTree}
    (inside : tree.Every fun node => node.start ≤ (utf8 source).length ∧ node.stop ≤ (utf8 source).length)
    (member : row ∈ (task.ofScan file source (Scan.ofTree (utf8 source).toArray tree).value).value.docs) :
    row.LinesAgree (lineCount source) := by
  rw [docs_ofScan] at member
  obtain ⟨anchor, isAnchor, found⟩ := List.mem_filterMap.mp member
  obtain ⟨doc, nearest, rfl⟩ := row_eq_some found
  obtain ⟨token, got, shown, line⟩ := Scan.exists_token_of_mem_anchors isAnchor
  obtain ⟨isDoc, before, -⟩ := TokenStream.runBefore_of_nearestDoc got shown nearest
  obtain ⟨isToken, index⟩ := TokenStream.get_eq_ok_iff.mp got
  obtain ⟨i, here⟩ := List.getElem?_of_mem isDoc
  obtain ⟨j, there⟩ := List.getElem?_of_mem isToken
  rw [TokenStream.getElem?_ofTree] at here there
  obtain ⟨piece, isPiece, rfl⟩ := Option.map_eq_some_iff.mp here
  obtain ⟨later, isLater, rfl⟩ := Option.map_eq_some_iff.mp there
  have order : i < j := by
    have : (i : Int) < anchor.index := before
    have : (j : Int) = anchor.index := index
    omega
  have tiles : Piece.Tiles 0 (Piece.ofTree (utf8 source).toArray tree) (utf8 source).length := Piece.tiles_ofTree inside
  have wide := (tiles.bounds piece (List.mem_of_getElem? isPiece)).2.1
  have laterBounds := tiles.bounds later (List.mem_of_getElem? isLater)
  have apart := tiles.stop_le_start isPiece isLater order
  have ends : (Location.ofToken (piece.toToken (utf8 source).toArray i)).endLine = _ :=
    Piece.endLine_toToken (utf8 source).toArray i (Nat.le_of_lt wide)
  have down := Place.lineAt_eq_add (utf8 source).toArray (Nat.le_of_lt wide)
  have further := Place.lineAt_eq_add (utf8 source).toArray apart
  have counted := Place.lineAt_le_lineCount (by omega : later.start < (utf8 source).length)
  have first : 1 ≤ Place.lineAt (utf8 source).toArray piece.start := Nat.succ_pos _
  simp only [DeclarationRow.LinesAgree, rowOf, ends, line]
  simp only [Location.ofToken, Piece.toToken]
  omega

/-- In a file whose syntax tree lies inside its bytes, cutting characters or not, the comment of a row
starts on line 1 or below, ends on its first line or below, and not below the line of its declaration,
which is one of the lines of the file. -/
theorem ofFile_lines_agree (task : Extraction) (parser : Parser) (disk : Disk) (root path : Path)
    (inside : ∀ contents, disk.read path = .ok contents →
      ∀ tree, parser (utf8 (sourceText contents)) = .ok tree →
        tree.Every fun node =>
          node.start ≤ (utf8 (sourceText contents)).length ∧ node.stop ≤ (utf8 (sourceText contents)).length)
    {logged : Logged FilePayload} (extracted : task.ofFile parser disk root path = .ok logged) :
    ∀ row ∈ logged.value.docs, row.LinesAgree logged.value.totalLines ∧
      ∃ contents, disk.read path = .ok contents ∧ logged.value.totalLines = lineCount (sourceText contents) := by
  intro row member
  rcases ofFile_eq_ok extracted with none | ⟨contents, tree, file, read, parsed, payload⟩
  · simp [none] at member
  · have total : logged.value.totalLines = lineCount (sourceText contents) := by
      rw [payload]
      rfl
    rw [payload] at member
    rw [total]
    exact ⟨linesAgree_of_mem_docs (inside contents read tree parsed) member, contents, read, rfl⟩

/-- A documented declaration, cut inside its first character: the first byte went to the comment. -/
private def cutDeclaration : Text := ['/', '*', '*', '\n', '*', '/', 'é', ';']

private def cutDeclarationTree : SyntaxTree :=
  .node (Trivia.leaf "program" 0 9) [.node (Trivia.leaf "block_comment" 0 7) [],
    .node (Trivia.leaf "class_declaration" 7 9) []]

private def cutDeclarationFile : ByteArray := ⟨#[47, 42, 42, 10, 42, 47, 195, 169, 59]⟩

private theorem sourceText_cutDeclarationFile : sourceText cutDeclarationFile = cutDeclaration := by decide +kernel

private theorem anchors_cutDeclaration :
    (Scan.ofTree (utf8 cutDeclaration).toArray cutDeclarationTree).value.anchors = [⟨.classType, none, 1, 2⟩] :=
  List.mergeSort_of_pairwise (by decide)

/-- The comment ends on line 2, where the declaration and the file end too. -/
theorem ofFile_lines_agree_cut_character :
    ∃ logged, ofFile ⟨true, false⟩ (fun _ => .ok cutDeclarationTree)
        (.free (.directory [("a.cls", .file cutDeclarationFile)]) []) ⟨false, []⟩ ⟨false, ["a.cls"]⟩ = .ok logged ∧
      (logged.value.docs.map fun row => (row.location, row.line)) = [(⟨1, 0, 2, 2⟩, 2)] ∧
      ∀ row ∈ logged.value.docs, row.LinesAgree logged.value.totalLines := by
  refine ⟨ofSource ⟨true, false⟩ (fun _ => .ok cutDeclarationTree) "a.cls" (sourceText cutDeclarationFile), rfl, ?_,
    fun row member => (ofFile_lines_agree ⟨true, false⟩ (fun _ => .ok cutDeclarationTree)
      (.free (.directory [("a.cls", .file cutDeclarationFile)]) []) ⟨false, []⟩ ⟨false, ["a.cls"]⟩ ?_ rfl row member).1⟩
  · have rows := docs_ofScan ⟨true, false⟩ "a.cls" cutDeclaration
      (Scan.ofTree (utf8 cutDeclaration).toArray cutDeclarationTree).value
    rw [anchors_cutDeclaration] at rows
    rw [sourceText_cutDeclarationFile]
    exact congrArg (List.map fun row => (row.location, row.line)) rows
  · intro contents read tree parsed
    obtain rfl := Except.ok.inj read
    obtain rfl := Except.ok.inj parsed
    rw [sourceText_cutDeclarationFile]
    decide

end Extraction

end ApexComments
