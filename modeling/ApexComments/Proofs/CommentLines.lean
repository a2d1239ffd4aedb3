import ApexComments.Comment.Body
import ApexComments.Proofs.Grouping
import ApexComments.Proofs.Trimming

/-!
# What a comment says, line by line

Only the contents of the lines of a comment count, and of these only the ones that are not empty
(`parse_eq_ofContents`): the trimming and splitting of the content as a whole adds nothing. A line behind
a gutter or behind a line marker has the text after the marker as its content, trimmed, whatever that
text starts with. No word character is blank, so the name of a tag ends at the first blank
(`read?_of_form`). So a comment written line by line is read back as it was written.
-/
namespace ApexComments.Text

/-! ## Blanks and words -/

/-- The blank code points beyond ASCII, as inclusive ranges. -/
def blankRanges : List (Nat × Nat) := [
  (0x85, 0x85), (0xA0, 0xA0), (0x1680, 0x1680), (0x2000, 0x200A), (0x2028, 0x2029), (0x202F, 0x202F), (0x205F, 0x205F),
  (0x3000, 0x3000)]

theorem isBlank_cases {c : CodePoint} (blank : isBlank c = true) :
    c.toNat ∈ List.range' 0x09 5 ++ List.range' 0x1C 5 ∨
      ∃ range ∈ blankRanges, range.1 ≤ c.toNat ∧ c.toNat ≤ range.2 := by
  simp only [isBlank, Bool.or_eq_true, Bool.and_eq_true, decide_eq_true_eq, beq_iff_eq] at blank
  simp only [blankRanges, List.exists_mem_cons_iff, List.mem_append, List.mem_range'_1]
  omega

/-- No range of word characters meets a range of blanks. -/
theorem blankRanges_apart : (blankRanges.all fun blank => wordRanges.all fun word =>
    Nat.blt word.2 blank.1 || Nat.blt blank.2 word.1) = true := by
  decide +kernel

theorem isWordChar_of_isBlank {c : CodePoint} (blank : isBlank c = true) : isWordChar c = false := by
  rcases isBlank_cases blank with ascii | ⟨blanks, isRange, low, high⟩
  · have none : ∀ n ∈ List.range' 0x09 5 ++ List.range' 0x1C 5, isWordChar (.ofNat n) = false := by decide
    rw [← CodePoint.ofNat_toNat c]
    exact none c.toNat ascii
  · have least : ∀ range ∈ blankRanges, 0x80 ≤ range.1 := by decide
    have beyond : ¬ c.toNat < 0x80 := by
      have := least blanks isRange
      omega
    have aside : (wordRanges.any fun range => range.1 ≤ c.toNat && c.toNat ≤ range.2) = false := ?_
    · cases c with
      | surrogate _ => rfl
      | char c => exact (if_neg beyond).trans aside
    rw [List.any_eq_false]
    rintro ⟨first, last⟩ member
    have apart := List.all_eq_true.mp (List.all_eq_true.mp blankRanges_apart blanks isRange) ⟨first, last⟩ member
    simp only [Bool.or_eq_true, Nat.blt_eq, Bool.and_eq_true, decide_eq_true_eq] at apart ⊢
    omega

end ApexComments.Text

namespace ApexComments.Comment

open Text

/-! ## The contents of lines -/

theorem mem_of_mem_lineContent {line : Text} {c : CodePoint} (member : c ∈ lineContent line) : c ∈ line := by
  have leading {marker text : Text} (inside : c ∈ dropLeading marker text) : c ∈ text := by
    rw [dropLeading] at inside
    split at inside
    · exact List.mem_of_mem_drop inside
    · exact inside
  have trailing {marker text : Text} (inside : c ∈ dropTrailing marker text) : c ∈ text := by
    rw [dropTrailing] at inside
    split at inside
    · exact List.mem_of_mem_take inside
    · exact inside
  rw [lineContent] at member
  split at member
  · simp at member
  · exact mem_of_mem_trim (leading (trailing (leading (leading (mem_of_mem_trim member)))))

theorem trim_lineContent (line : Text) : trim (lineContent line) = lineContent line := by
  rw [lineContent]
  split
  · rfl
  · exact trim_trim _

theorem lineContent_congr {line other : Text} (same : trim line = trim other) :
    lineContent line = lineContent other := by
  rw [lineContent, lineContent, same]

/-- The contents of the lines of a comment that are not empty. -/
def contents (raw : Text) : List Text := ((lines raw).map lineContent).filter fun line => !line.isEmpty

theorem nonblankLines_content (raw : Text) : nonblankLines (content raw) = contents raw := by
  have single : ∀ part ∈ (lines raw).map lineContent, CodePoint.char '\n' ∉ part := by
    intro part member feed
    obtain ⟨line, among, rfl⟩ := List.mem_map.mp member
    exact (mem_of_mem_lines among (mem_of_mem_lineContent feed)).2 rfl
  have some : (lines raw).map lineContent ≠ [] := mt List.map_eq_nil_iff.mp (splitOn_ne_nil '\n' raw)
  have trimmed : ((lines raw).map lineContent).map trim = (lines raw).map lineContent := by
    simp [Function.comp_def, trim_lineContent]
  rw [content, nonblankLines_trim, nonblankLines, lines_joinLines some single, trimmed, contents]

/-! ## Bodies from contents -/

/-- What contents that are not empty say together. -/
def Body.ofContents (contents : List Text) : Body where
  description := trim (joinWith [CodePoint.char ' '] (contents.takeWhile isProse))
  tagLines := contents.filterMap TagLine.read?

/-- Where all that is left out passes the first test, leaving out and taking a front commute. -/
private theorem filter_takeWhile {α : Type} {kept front : α → Bool} (passes : ∀ a, kept a = false → front a = true)
    (l : List α) : (l.takeWhile front).filter kept = (l.filter kept).takeWhile front := by
  induction l with
  | nil => rfl
  | cons a rest ih =>
    cases keeps : kept a with
    | false => simp [keeps, passes a keeps, ih]
    | true =>
      cases inFront : front a with
      | false => simp [keeps, inFront]
      | true => simp [keeps, inFront, ih]

theorem Body.parse_eq_ofContents (raw : Text) : Body.parse raw = Body.ofContents (contents raw) := by
  -- An empty line is prose and no tag line, so neither field changes where it is left out first.
  have prose : ∀ line : Text, (!line.isEmpty) = false → isProse line = true := by
    intro line empty
    obtain rfl : line = [] := by simpa using empty
    rfl
  rw [← nonblankLines_content, Body.parse, Body.ofContents, nonblankLines, List.filterMap_filter,
    filter_takeWhile prose]
  congr 1
  refine List.filterMap_congr fun line _ => ?_
  cases line <;> rfl

/-! ## Lines behind a marker -/

/-- Behind a blank, a text ends a block only by itself. -/
private theorem closes_of_append {front text : Text} (closes : blockClose <:+ front ++ CodePoint.char ' ' :: text) :
    blockClose <:+ text := by
  obtain ⟨start, whole⟩ := closes
  rcases List.append_eq_append_iff.mp whole with ⟨extra, -, back⟩ | ⟨extra, -, back⟩
  · have blank : CodePoint.char ' ' ∈ blockClose := by
      rw [back]
      simp
    exact absurd blank (by decide)
  · cases extra with
    | nil => simp [blockClose] at back
    | cons c extra => exact ⟨extra, (List.cons.inj back).2.symm⟩

/-- What a line says by the text behind its marker: the text less the closer that it may end in. -/
def saidBehind (text : Text) : Text := trim (dropTrailing blockClose (trimEnd text))

theorem saidBehind_of_opened {text : Text} (opened : ¬ blockClose <:+ trimEnd text) : saidBehind text = trim text := by
  rw [saidBehind, dropTrailing, if_neg (by simpa using opened), trim_trimEnd]

private theorem dropTrailing_marked (text marker : Text) : dropTrailing marker (text ++ marker) = text := by
  rw [dropTrailing, if_pos (by simp), List.length_append, Nat.add_sub_cancel, List.take_left]

/-- The closer is taken off the text behind a marker as if it stood alone. -/
private theorem dropTrailing_append (front text : Text) :
    dropTrailing blockClose (front ++ CodePoint.char ' ' :: text) =
      front ++ CodePoint.char ' ' :: dropTrailing blockClose text := by
  by_cases closes : blockClose <:+ text
  · obtain ⟨start, rfl⟩ := closes
    have whole : front ++ CodePoint.char ' ' :: (start ++ blockClose) =
        (front ++ CodePoint.char ' ' :: start) ++ blockClose := by simp
    rw [whole, dropTrailing_marked, dropTrailing_marked]
  · have alsoOpened : ¬ blockClose <:+ front ++ CodePoint.char ' ' :: text := mt closes_of_append closes
    rw [dropTrailing, dropTrailing, if_neg (by simpa using alsoOpened), if_neg (by simpa using closes)]

/-- A line behind a marker that opens no block and is taken off says what stands after the marker. -/
private theorem lineContent_marked {blanks marker : Text} (blank : ∀ c ∈ blanks, isBlank c = true)
    (trimmed : Trimmed marker) (some : marker ≠ []) (alone : lineContent marker = [])
    (noBlock : ∀ rest, ¬ blockOpen <+: marker ++ CodePoint.char ' ' :: rest)
    (off : ∀ rest, dropLeading lineOpen (dropLeading gutter (marker ++ CodePoint.char ' ' :: rest)) =
      CodePoint.char ' ' :: rest)
    (text : Text) : lineContent (blanks ++ (marker ++ CodePoint.char ' ' :: text)) = saidBehind text := by
  have marked : trim (blanks ++ (marker ++ CodePoint.char ' ' :: text)) =
      marker ++ trimEnd (CodePoint.char ' ' :: text) := by
    rw [trim_blanks_append blank, trim_trimmed_append trimmed some]
  -- Where only blanks follow the marker, trimming takes the blank behind it as well.
  by_cases none : trimEnd text = []
  · have allBlank : trimEnd (CodePoint.char ' ' :: text) = [] :=
      trimEnd_eq_nil_iff.mpr (List.forall_mem_cons.mpr ⟨rfl, trimEnd_eq_nil_iff.mp none⟩)
    rw [allBlank, List.append_nil] at marked
    rw [lineContent_congr (marked.trans (trim_eq_self trimmed).symm), alone, saidBehind, none]
    rfl
  · have kept : trimEnd (CodePoint.char ' ' :: text) = CodePoint.char ' ' :: trimEnd text :=
      @trimEnd_append_of_shown [' '] text none
    have other : marker ++ CodePoint.char ' ' :: trimEnd text ≠ emptyBlock := by
      intro same
      exact noBlock (trimEnd text) (by rw [same]; decide)
    have noOpen : dropLeading blockOpen (marker ++ CodePoint.char ' ' :: trimEnd text) =
        marker ++ CodePoint.char ' ' :: trimEnd text :=
      if_neg (by simpa using noBlock (trimEnd text))
    simp only [lineContent, marked, kept, if_neg other, noOpen, dropTrailing_append, off]
    exact @trim_blanks_append _ [' '] (List.forall_mem_singleton.mpr rfl)

theorem lineContent_gutter {blanks : Text} (blank : ∀ c ∈ blanks, isBlank c = true) (text : Text) :
    lineContent (blanks ++ (gutter ++ CodePoint.char ' ' :: text)) = saidBehind text := by
  refine lineContent_marked blank (by decide) (by decide) (by decide) ?_ ?_ text
  · intro rest
    simp [blockOpen, gutter]
  · intro rest
    simp [dropLeading, gutter, lineOpen]

theorem lineContent_lineOpen {blanks : Text} (blank : ∀ c ∈ blanks, isBlank c = true) (text : Text) :
    lineContent (blanks ++ (lineOpen ++ CodePoint.char ' ' :: text)) = saidBehind text := by
  refine lineContent_marked blank (by decide) (by decide) (by decide) ?_ ?_ text
  · intro rest
    simp [blockOpen, lineOpen]
  · intro rest
    simp [dropLeading, gutter, lineOpen]

/-! ## Blocks with a gutter -/

/-- A block that says the lines, each behind a gutter. -/
def block (indent : Text) (said : List Text) : Text :=
  blockOpen ++ [CodePoint.char '\n'] ++
    said.flatMap (fun line =>
      indent ++ [CodePoint.char ' '] ++ gutter ++ [CodePoint.char ' '] ++ line ++ [CodePoint.char '\n']) ++
    indent ++ [CodePoint.char ' '] ++ blockClose

theorem lines_block {indent : Text} (inLine : CodePoint.char '\n' ∉ indent) {said : List Text}
    (single : ∀ line ∈ said, CodePoint.char '\n' ∉ line) :
    lines (block indent said) =
      blockOpen :: said.map (fun line => (indent ++ [CodePoint.char ' ']) ++ (gutter ++ CodePoint.char ' ' :: line)) ++
      [indent ++ [CodePoint.char ' '] ++ blockClose] := by
  let rows := blockOpen :: said.map fun line =>
    (indent ++ [CodePoint.char ' ']) ++ (gutter ++ CodePoint.char ' ' :: line)
  have ended : block indent said =
      rows.flatMap (· ++ [CodePoint.char '\n']) ++ (indent ++ [CodePoint.char ' '] ++ blockClose) := by
    simp [block, rows, List.flatMap_map]
  have rowSingle : ∀ row ∈ rows, CodePoint.char '\n' ∉ row := by
    intro row member
    rcases List.mem_cons.mp member with rfl | among
    · decide
    · obtain ⟨line, isLine, rfl⟩ := List.mem_map.mp among
      simp [inLine, single line isLine, gutter]
  rw [ended, lines_flatMap_append rowSingle, lines_of_not_mem (by simp [inLine, blockClose])]

/-- A block says what its lines say behind their gutters, less the blank ones. -/
theorem contents_block {indent : Text} (inLine : CodePoint.char '\n' ∉ indent) (blank : ∀ c ∈ indent, isBlank c = true)
    {said : List Text} (single : ∀ line ∈ said, CodePoint.char '\n' ∉ line) :
    contents (block indent said) = (said.map saidBehind).filter fun line => !line.isEmpty := by
  have margin : ∀ c ∈ indent ++ [CodePoint.char ' '], isBlank c = true :=
    List.forall_mem_append.mpr ⟨blank, List.forall_mem_singleton.mpr rfl⟩
  have opener : lineContent blockOpen = [] := by decide
  have closer : lineContent (indent ++ [CodePoint.char ' '] ++ blockClose) = [] := by
    rw [lineContent_congr (trim_blanks_append margin)]
    decide
  have middle : (said.map fun line => (indent ++ [CodePoint.char ' ']) ++ (gutter ++ CodePoint.char ' ' :: line)).map
      lineContent = said.map saidBehind := by
    rw [List.map_map]
    exact List.map_congr_left fun line _ => lineContent_gutter margin line
  rw [contents, lines_block inLine single, List.map_append, List.map_cons, middle, opener, List.map_singleton, closer]
  simp

/-! ## Writing a comment and reading it back -/

/-- A text that can stand on a line of a block by itself. -/
structure IsWritable (line : Text) : Prop where
  nonempty : line ≠ []
  single : CodePoint.char '\n' ∉ line
  trimmed : Trimmed line
  opened : ¬ blockClose <:+ line

theorem isWritable_iff {line : Text} :
    IsWritable line ↔ line ≠ [] ∧ CodePoint.char '\n' ∉ line ∧ Trimmed line ∧ ¬ blockClose <:+ line :=
  ⟨fun ⟨nonempty, single, trimmed, opened⟩ => ⟨nonempty, single, trimmed, opened⟩,
    fun ⟨nonempty, single, trimmed, opened⟩ => ⟨nonempty, single, trimmed, opened⟩⟩

instance (line : Text) : Decidable (IsWritable line) := decidable_of_iff _ isWritable_iff.symm

/-- The form of a tag line: an at sign, a word, a blank, and whatever follows. -/
def HasTagForm (line : Text) : Prop :=
  ∃ name blank rest, line = CodePoint.char '@' :: name ++ blank :: rest ∧ name ≠ [] ∧
    (∀ c ∈ name, isWordChar c = true) ∧ isBlank blank = true

/-- The line that a tag is written as. -/
def tagText (tag : Text × Text) : Text := CodePoint.char '@' :: tag.1 ++ CodePoint.char ' ' :: tag.2

/-- A comment with a line for each line of the description and for each tag. -/
def written (description : List Text) (tags : List (Text × Text)) : Text :=
  block [] (description ++ tags.map tagText)

theorem hasTagForm_of_read? {line : Text} (read : (TagLine.read? line).isSome = true) : HasTagForm line := by
  unfold TagLine.read? at read
  split at read
  · next line =>
    simp only at read
    split at read
    · next c name blank rest word after =>
      have isBlank : isBlank blank = true := by
        by_contra other
        simp [other] at read
      refine ⟨line.takeWhile isWordChar, blank, rest, ?_, by simp [word], fun c => List.mem_takeWhile_imp, isBlank⟩
      rw [List.cons_append, ← after, List.takeWhile_append_dropWhile]
    · simp at read
  · simp at read

/-- Behind a word, the first blank ends the name. -/
theorem read?_of_form {name rest : Text} {blank : CodePoint} (named : name ≠ [])
    (word : ∀ c ∈ name, isWordChar c = true) (isBlank : isBlank blank = true) :
    TagLine.read? (CodePoint.char '@' :: name ++ blank :: rest) = some ⟨name, trim (trimStart rest)⟩ := by
  have ends : ¬ isWordChar blank = true := by simp [isWordChar_of_isBlank isBlank]
  have taken : (name ++ blank :: rest).takeWhile isWordChar = name := by
    rw [List.takeWhile_append_of_pos word, List.takeWhile_cons_of_neg ends, List.append_nil]
  have left : (name ++ blank :: rest).dropWhile isWordChar = blank :: rest := by
    rw [List.dropWhile_append_of_pos word, List.dropWhile_cons_of_neg ends]
  obtain ⟨c, later, rfl⟩ := List.exists_cons_of_ne_nil named
  rw [List.cons_append, TagLine.read?]
  simp only [taken, left, isBlank, if_true]

theorem isSome_read?_iff {line : Text} : (TagLine.read? line).isSome = true ↔ HasTagForm line := by
  constructor
  · exact hasTagForm_of_read?
  · rintro ⟨name, blank, rest, rfl, some, word, isBlank⟩
    rw [read?_of_form some word isBlank]
    rfl

instance (line : Text) : Decidable (HasTagForm line) := decidable_of_iff _ isSome_read?_iff

theorem isProse_eq : Body.isProse = fun line => decide (¬ HasTagForm line) := by
  funext line
  rw [Body.isProse, Bool.eq_iff_iff, decide_eq_true_eq, ← isSome_read?_iff]
  simp

theorem isProse_of_not_hasTagForm {line : Text} (other : ¬ HasTagForm line) : Body.isProse line = true := by
  simpa [isProse_eq] using other

theorem read?_tagText {tag : Text × Text} (nonempty : tag.1 ≠ []) (word : ∀ c ∈ tag.1, isWordChar c = true)
    (trimmed : Trimmed tag.2) : TagLine.read? (tagText tag) = some ⟨tag.1, tag.2⟩ := by
  rw [tagText, read?_of_form nonempty word (by decide), trimStart_eq_self trimmed.first, trim_eq_self trimmed]

theorem isWritable_tagText {tag : Text × Text} (word : ∀ c ∈ tag.1, isWordChar c = true)
    (writable : IsWritable tag.2) : IsWritable (tagText tag) := by
  obtain ⟨name, value⟩ := tag
  refine ⟨by simp [tagText], ?_, ⟨?_, ?_⟩, ?_⟩
  · intro feed
    rw [tagText, List.mem_append, List.mem_cons, List.mem_cons] at feed
    rcases feed with (sign | inName) | (blank | inValue)
    · exact absurd sign (by decide)
    · exact absurd (word _ inName) (by decide)
    · exact absurd blank (by decide)
    · exact writable.single inValue
  · rintro c ⟨⟩
    decide
  · have shown : (tagText (name, value)).getLast? = value.getLast? := by
      rw [tagText, List.append_cons, List.getLast?_append_of_ne_nil _ writable.nonempty]
    rw [shown]
    exact writable.trimmed.last
  · exact fun closes => writable.opened (closes_of_append closes)

theorem contents_block_of_isWritable {said : List Text} (writable : ∀ line ∈ said, IsWritable line) :
    contents (block [] said) = said := by
  have whole : said.map saidBehind = said := by
    conv_rhs => rw [← List.map_id said]
    refine List.map_congr_left fun line member => ?_
    have opened : ¬ blockClose <:+ trimEnd line := by
      rw [trimEnd_eq_self (writable line member).trimmed.last]
      exact (writable line member).opened
    exact (saidBehind_of_opened opened).trans (trim_eq_self (writable line member).trimmed)
  rw [contents_block (by simp) (by simp) fun line member => (writable line member).single, whole,
    List.filter_eq_self]
  intro line member
  simpa using (writable line member).nonempty

/-- A tag that a line of a block can give: a word for its name and a text for its value. -/
structure IsTag (tag : Text × Text) : Prop where
  named : tag.1 ≠ []
  word : ∀ c ∈ tag.1, isWordChar c = true
  value : IsWritable tag.2

theorem isTag_iff {tag : Text × Text} : IsTag tag ↔ tag.1 ≠ [] ∧ tag.1.all isWordChar = true ∧ IsWritable tag.2 := by
  rw [List.all_eq_true]
  exact ⟨fun ⟨named, word, value⟩ => ⟨named, word, value⟩, fun ⟨named, word, value⟩ => ⟨named, word, value⟩⟩

instance (tag : Text × Text) : Decidable (IsTag tag) := decidable_of_iff _ isTag_iff.symm

theorem filterMap_read?_tagText {tags : List (Text × Text)} (areTags : ∀ tag ∈ tags, IsTag tag) :
    (tags.map tagText).filterMap TagLine.read? = tags.map fun tag => ⟨tag.1, tag.2⟩ := by
  induction tags with
  | nil => rfl
  | cons tag rest ih =>
    obtain ⟨here, later⟩ := List.forall_mem_cons.mp areTags
    rw [List.map_cons, List.filterMap_cons, read?_tagText here.named here.word here.value.trimmed, ih later]
    rfl

/-- The description ends where the tags begin. -/
theorem takeWhile_isProse_tagText {description : List Text} {tags : List (Text × Text)}
    (prose : ∀ line ∈ description, ¬ HasTagForm line) (areTags : ∀ tag ∈ tags, IsTag tag) :
    (description ++ tags.map tagText).takeWhile Body.isProse = description := by
  rw [List.takeWhile_append_of_pos fun line member => isProse_of_not_hasTagForm (prose line member)]
  cases tags with
  | nil => simp
  | cons tag rest =>
    have here := areTags tag List.mem_cons_self
    have stops : Body.isProse (tagText tag) = false := by
      rw [Body.isProse, read?_tagText here.named here.word here.value.trimmed]
      rfl
    rw [List.map_cons, List.takeWhile_cons_of_neg (by simp [stops]), List.append_nil]

namespace Body

/-- Each tag name keeps the last of its values. -/
theorem get?_tags (body : Body) (name : Text) :
    body.tags.get? name =
      (OrderedMap.valuesOf name (body.tagLines.map fun tag => (tag.name, tag.value))).getLast? := by
  have groups := OrderedMap.groups_group (body.tagLines.map fun tag => (tag.name, tag.value))
  rw [tags, OrderedMap.get?_mapValues]
  by_cases known : name ∈ body.tagValues.keys
  · have some := mt OrderedMap.valuesOf_eq_nil_iff.mp (not_not_intro ((groups.mem_keys name).mp known))
    rw [tagValues, groups.get name known, Option.map_some, List.getLast?_eq_some_getLast some,
      List.getLastD_eq_getLast?, List.getLast?_eq_some_getLast some, Option.getD_some]
  · have none := OrderedMap.valuesOf_eq_nil_iff.mpr (mt (groups.mem_keys name).mpr known)
    rw [OrderedMap.get?_eq_none_of_not_mem known, none]
    rfl

/-- A comment is read back as it was written: its description in one line, the tag names in the order
in which they first come, all values of each name, and the last of them. -/
theorem parse_written {description : List Text} {tags : List (Text × Text)}
    (writable : ∀ line ∈ description, IsWritable line) (prose : ∀ line ∈ description, ¬ HasTagForm line)
    (areTags : ∀ tag ∈ tags, IsTag tag) :
    let body := parse (written description tags)
    body.description = joinWith [CodePoint.char ' '] description ∧ body.tagValues.Groups tags ∧
      body.tags.keys = body.tagValues.keys ∧
      ∀ name, body.tags.get? name = (OrderedMap.valuesOf name tags).getLast? := by
  have allWritable : ∀ line ∈ description ++ tags.map tagText, IsWritable line := by
    refine List.forall_mem_append.mpr ⟨writable, List.forall_mem_map.mpr ?_⟩
    exact fun tag member => isWritable_tagText (areTags tag member).word (areTags tag member).value
  have none : description.filterMap TagLine.read? = [] := by
    rw [List.filterMap_eq_nil_iff]
    exact fun line member => Option.isNone_iff_eq_none.mp (isProse_of_not_hasTagForm (prose line member))
  have isTrimmed : Trimmed (joinWith [CodePoint.char ' '] description) :=
    trimmed_joinWith [CodePoint.char ' '] (fun line member => (writable line member).nonempty)
      fun line member => (writable line member).trimmed
  have parsed : parse (written description tags) =
      ⟨joinWith [CodePoint.char ' '] description, tags.map fun tag => ⟨tag.1, tag.2⟩⟩ := by
    rw [parse_eq_ofContents, written, contents_block_of_isWritable allWritable, ofContents,
      takeWhile_isProse_tagText prose areTags, trim_eq_self isTrimmed, List.filterMap_append, none,
      filterMap_read?_tagText areTags, List.nil_append]
  have pairs : (parse (written description tags)).tagLines.map (fun tag => (tag.name, tag.value)) = tags := by
    rw [parsed]
    simp [Function.comp_def]
  refine ⟨by rw [parsed], ?_, OrderedMap.keys_mapValues _ _, ?_⟩
  · rw [tagValues, pairs]
    exact OrderedMap.groups_group tags
  · intro name
    rw [get?_tags, pairs]

/-- Lines that begin like a gutter, a line marker, an opener or a tag, and a name that comes twice. -/
theorem parse_written_markers :
    let description : List Text := [['*', ' ', 'a'], ['/', '/', '/'], ['/', '*', '*', 'b'], ['@', ' ', 'c']]
    let tags : List (Text × Text) := [(['p'], ['*', '/', 'x']), (['q'], ['@', 'p', ' ', 'y']), (['p'], ['z'])]
    (∀ line ∈ description, IsWritable line) ∧ (∀ line ∈ description, ¬ HasTagForm line) ∧ (∀ tag ∈ tags, IsTag tag) ∧
      (parse (written description tags)).description = joinWith [CodePoint.char ' '] description ∧
      (parse (written description tags)).tagValues.get? ['p'] = some ([['*', '/', 'x'], ['z']] : List Text) ∧
      (parse (written description tags)).tags.get? ['p'] = some (['z'] : Text) := by
  intro description tags
  have writable : ∀ line ∈ description, IsWritable line := by decide
  have prose : ∀ line ∈ description, ¬ HasTagForm line := by
    rintro line member ⟨name, blank, rest, rfl, named, word, -⟩
    obtain ⟨c, name, rfl⟩ := List.exists_cons_of_ne_nil named
    obtain ⟨rfl, -⟩ : c = ' ' ∧ name ++ blank :: rest = ['c'] := by simpa [description] using member
    exact absurd (word ' ' List.mem_cons_self) (by decide)
  have areTags : ∀ tag ∈ tags, IsTag tag := by decide
  obtain ⟨said, groups, -, last⟩ := parse_written writable prose areTags
  refine ⟨writable, prose, areTags, said, groups.get ['p'] ?_, last ['p']⟩
  exact (groups.mem_keys ['p']).mpr (by decide)

end Body

end ApexComments.Comment
