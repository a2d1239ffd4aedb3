import ApexComments.Proofs.CommentLines
import Mathlib.Data.List.Forall2
import Mathlib.Data.List.Induction

/-!
# The tags of a comment

A tag line is an at sign, a word, blanks and a value (`Spells`). A trimmed line spells one tag at most, the one it is
read as (`read?_eq_some_iff`). A comment is read line by line (`Reading.step`): once a
tag line has been seen, lines that are none change nothing any more (`Reading.step_of_passed`). So every tag line
counts, under its name and in its place, and the lines passed over may as well be deleted.
-/
namespace ApexComments.Comment

open Text

variable {line : Text} {tag : Text × Text}

/-! ## What a tag line spells -/

/-- The line is an at sign, the name of the tag, blanks and the value of the tag. -/
structure Spells (line : Text) (tag : Text × Text) : Prop where
  word : isWord tag.1 = true
  bare : ∀ c ∈ tag.2.head?, isBlank c = false
  split : ∃ blanks, blanks ≠ [] ∧ (∀ c ∈ blanks, isBlank c = true) ∧
    line = CodePoint.char '@' :: tag.1 ++ blanks ++ tag.2

theorem isWord_iff {name : Text} : isWord name = true ↔ name ≠ [] ∧ ∀ c ∈ name, isWordChar c = true := by
  simp [isWord]

/-- The value of a tag goes on to the end of its line, so it is trimmed where the line is. -/
theorem Spells.value (trimmed : Trimmed line) (spells : Spells line tag) : tag.2 ≠ [] ∧ Trimmed tag.2 := by
  obtain ⟨blanks, some, blank, rfl⟩ := spells.split
  have nonempty : tag.2 ≠ [] := by
    intro none
    have last : blanks.getLast some ∈ (CodePoint.char '@' :: tag.1 ++ blanks ++ tag.2).getLast? := by
      rw [none, List.append_nil, List.getLast?_append_of_ne_nil _ some, List.getLast?_eq_some_getLast some]
      rfl
    have shown := trimmed.last _ last
    rw [blank _ (List.getLast_mem some)] at shown
    cases shown
  refine ⟨nonempty, spells.bare, ?_⟩
  rw [← List.getLast?_append_of_ne_nil _ nonempty]
  exact trimmed.last

/-- A trimmed line is read as the tag that it spells. -/
theorem read?_eq_some_iff {tag : TagLine} (trimmed : Trimmed line) :
    TagLine.read? line = some tag ↔ Spells line (tag.name, tag.value) := by
  constructor
  · intro read
    obtain ⟨name, blank, rest, rfl, some, word, isBlank⟩ := hasTagForm_of_read? (by rw [read]; rfl)
    rw [read?_of_form some word isBlank] at read
    obtain ⟨blanks, split, areBlank, shown⟩ := exists_trimStart_split rest
    have spells : Spells (CodePoint.char '@' :: name ++ blank :: rest) (name, trimStart rest) := by
      refine ⟨isWord_iff.mpr ⟨some, word⟩, shown, blank :: blanks, by simp, ?_, by simpa using split⟩
      exact List.forall_mem_cons.mpr ⟨isBlank, areBlank⟩
    rw [trim_eq_self (spells.value trimmed).2] at read
    rwa [← Option.some.inj read]
  · intro spells
    obtain ⟨some, word⟩ := isWord_iff.mp spells.word
    obtain ⟨-, isTrimmed⟩ := spells.value trimmed
    obtain ⟨blanks, someBlank, areBlank, rfl⟩ := spells.split
    obtain ⟨blank, later, rfl⟩ := List.exists_cons_of_ne_nil someBlank
    obtain ⟨isBlank, laterBlank⟩ := List.forall_mem_cons.mp areBlank
    have form : CodePoint.char '@' :: tag.name ++ (blank :: later) ++ tag.value =
        CodePoint.char '@' :: tag.name ++ blank :: (later ++ tag.value) := by
      simp
    rw [form, read?_of_form some word isBlank, trimStart_append laterBlank, trimStart_eq_self spells.bare,
      trim_eq_self isTrimmed]

/-- The lines of the content of a comment, trimmed. -/
def contentLines (raw : Text) : List Text := (lines (content raw)).map trim

/-- The tags are those that the tag lines of the comment spell, one each, in order. -/
def TagsOf (raw : Text) (tags : List (Text × Text)) : Prop :=
  List.Forall₂ Spells ((contentLines raw).filter fun line => HasTagForm line) tags

/-- The names and values of the tag lines that were read. -/
def Body.told (body : Body) : List (Text × Text) := body.tagLines.map fun tag => (tag.name, tag.value)

theorem forall₂_spells_iff {given : List Text} (trimmed : ∀ line ∈ given, Trimmed line) {tags : List (Text × Text)} :
    List.Forall₂ Spells (given.filter fun line => HasTagForm line) tags ↔
      tags = (given.filterMap TagLine.read?).map fun tag => (tag.name, tag.value) := by
  induction given generalizing tags with
  | nil => simp
  | cons line rest ih =>
    obtain ⟨here, later⟩ := List.forall_mem_cons.mp trimmed
    cases read : TagLine.read? line with
    | none =>
      have noForm : ¬ HasTagForm line := by simp [← isSome_read?_iff, read]
      rw [List.filter_cons_of_neg (by simpa using noForm), List.filterMap_cons, read]
      exact ih later
    | some tag =>
      have hasForm : HasTagForm line := isSome_read?_iff.mp (by rw [read]; rfl)
      rw [List.filter_cons_of_pos (by simpa using hasForm), List.filterMap_cons, read, List.forall₂_cons_left_iff]
      constructor
      · rintro ⟨⟨name, value⟩, others, spells, onward, rfl⟩
        have same : TagLine.read? line = some ⟨name, value⟩ := (read?_eq_some_iff here).mpr spells
        obtain rfl : tag = ⟨name, value⟩ := Option.some.inj (read.symm.trans same)
        rw [(ih later).mp onward]
        rfl
      · rintro rfl
        exact ⟨_, _, (read?_eq_some_iff here).mp read, (ih later).mpr rfl, rfl⟩

/-- The tag lines of a comment spell the tags that are read, and no others. -/
theorem tagsOf_iff {raw : Text} {tags : List (Text × Text)} : TagsOf raw tags ↔ tags = (Body.parse raw).told := by
  refine forall₂_spells_iff ?_
  intro line member
  obtain ⟨part, -, rfl⟩ := List.mem_map.mp member
  exact trimmed_trim part

/-! ## Reading line by line -/

/-- What the lines read so far have given, and whether a further line may belong to the description. -/
structure Reading where
  prose : List Text
  tagLines : List TagLine
  inDescription : Bool

namespace Reading

/-- Before the first line. -/
def start : Reading := ⟨[], [], true⟩

/-- Takes in one line. -/
def step (reading : Reading) (line : Text) : Reading :=
  match TagLine.read? line with
  | some tag => { reading with tagLines := reading.tagLines ++ [tag], inDescription := false }
  | none =>
    if reading.inDescription && !line.isEmpty then { reading with prose := reading.prose ++ [line] } else reading

/-- Takes in lines one after the other. -/
def run (given : List Text) : Reading := given.foldl step start

/-- What has been read, as a body. -/
def body (reading : Reading) : Body := ⟨trim (joinWith [' '] reading.prose), reading.tagLines⟩

/-- The prose is that before the first tag line less empty lines, every tag line counts, and the description goes on
while there is no tag line. -/
structure Reads (given : List Text) (reading : Reading) : Prop where
  prose : reading.prose = (given.takeWhile Body.isProse).filter fun line => !line.isEmpty
  tagLines : reading.tagLines = given.filterMap TagLine.read?
  inDescription : reading.inDescription = given.all Body.isProse

variable {given : List Text} {reading : Reading}

theorem takeWhile_append_singleton (given : List Text) (line : Text) :
    (given ++ [line]).takeWhile Body.isProse =
      if given.all Body.isProse && Body.isProse line then given ++ [line] else given.takeWhile Body.isProse := by
  by_cases allProse : given.all Body.isProse = true
  · have each := List.all_eq_true.mp allProse
    rw [List.takeWhile_append_of_pos each, List.takeWhile_eq_self_iff.mpr each]
    cases prose : Body.isProse line <;> simp [allProse, prose]
  · simp only [Bool.not_eq_true] at allProse
    obtain ⟨first, member, isTag⟩ := List.all_eq_false.mp allProse
    have short : (given.takeWhile Body.isProse).length ≠ given.length := by
      intro whole
      have same := (List.takeWhile_prefix Body.isProse (l := given)).eq_of_length whole
      exact isTag (List.takeWhile_eq_self_iff.mp same first member)
    rw [List.takeWhile_append, if_neg short, allProse]
    rfl

/-- One line more. -/
theorem Reads.step (reads : Reads given reading) (line : Text) : Reads (given ++ [line]) (reading.step line) := by
  obtain ⟨prose, tagLines, inDescription⟩ := reading
  obtain ⟨ofProse, ofTags, ofMode⟩ := reads
  simp only at ofProse ofTags ofMode
  cases read : TagLine.read? line with
  | some tag =>
    have isTag : Body.isProse line = false := by simp [Body.isProse, read]
    have taken : step ⟨prose, tagLines, inDescription⟩ line = ⟨prose, tagLines ++ [tag], false⟩ := by
      simp [Reading.step, read]
    rw [taken]
    exact ⟨by simp [ofProse, takeWhile_append_singleton, isTag], by simp [ofTags, read], by simp [isTag]⟩
  | none =>
    have isProse : Body.isProse line = true := by simp [Body.isProse, read]
    -- The line counts only where no tag line came before it, and there only if it is not empty.
    cases mode : given.all Body.isProse with
    | false =>
      have passed : step ⟨prose, tagLines, inDescription⟩ line = ⟨prose, tagLines, inDescription⟩ := by
        simp [Reading.step, read, ofMode, mode]
      rw [passed]
      exact ⟨by simp [ofProse, takeWhile_append_singleton, mode], by simp [ofTags, read], by simp [ofMode, mode]⟩
    | true =>
      have whole : given.takeWhile Body.isProse = given := List.takeWhile_eq_self_iff.mpr (List.all_eq_true.mp mode)
      have taken : step ⟨prose, tagLines, inDescription⟩ line =
          ⟨prose ++ [line].filter fun line => !line.isEmpty, tagLines, inDescription⟩ := by
        cases empty : line.isEmpty <;> simp [Reading.step, read, ofMode, mode, empty]
      rw [taken]
      exact ⟨by simp [ofProse, takeWhile_append_singleton, mode, isProse, whole], by simp [ofTags, read],
        by simp [ofMode, mode, isProse]⟩

theorem run_append_singleton (given : List Text) (line : Text) : run (given ++ [line]) = (run given).step line := by
  rw [run, List.foldl_append]
  rfl

theorem reads_run (given : List Text) : Reads given (run given) := by
  induction given using List.reverseRecOn with
  | nil => exact ⟨rfl, rfl, rfl⟩
  | append_singleton given line ih =>
    rw [run_append_singleton]
    exact ih.step line

theorem step_of_passed (ended : reading.inDescription = false) (other : ¬ HasTagForm line) :
    reading.step line = reading := by
  have none : TagLine.read? line = none := by simpa [← isSome_read?_iff] using other
  simp [step, none, ended]

theorem inDescription_run_of_mem {line : Text} (member : line ∈ given) (isTag : HasTagForm line) :
    (run given).inDescription = false := by
  rw [(reads_run given).inDescription, List.all_eq_false]
  exact ⟨line, member, by simpa [isProse_eq] using isTag⟩

/-- Behind a tag line, a line that is none may be left out. -/
theorem run_of_passed {before after : List Text} {earlier line : Text} (member : earlier ∈ before)
    (isTag : HasTagForm earlier) (other : ¬ HasTagForm line) :
    run (before ++ line :: after) = run (before ++ after) := by
  have passed : (run before).step line = run before := step_of_passed (inDescription_run_of_mem member isTag) other
  rw [run, run, List.foldl_append, List.foldl_append, List.foldl_cons, ← run, passed]

/-- Empty lines give nothing. -/
theorem run_filter (given : List Text) : run (given.filter fun line => !line.isEmpty) = run given := by
  induction given using List.reverseRecOn with
  | nil => rfl
  | append_singleton given line ih =>
    rw [List.filter_append, run_append_singleton, ← ih]
    cases line with
    | nil => simp [step, TagLine.read?]
    | cons c line => exact run_append_singleton _ _

/-- A comment is what the contents of its lines give one after the other: trimming the whole of them adds nothing. -/
theorem parse_eq_body_run (raw : Text) : Body.parse raw = (run ((lines raw).map lineContent)).body := by
  have reads := reads_run (contentLines raw)
  have same : run (contentLines raw) = run ((lines raw).map lineContent) := by
    rw [← run_filter ((lines raw).map lineContent), ← contents, ← nonblankLines_content, ← run_filter]
    rfl
  rw [← same, body, reads.prose, reads.tagLines]
  rfl

end Reading

/-! ## All tags and no others -/

namespace Body

theorem description_eq (raw : Text) :
    (parse raw).description = joinWith [' ']
      (((contentLines raw).takeWhile fun line => ¬ HasTagForm line).filter fun line => !line.isEmpty) := by
  rw [← isProse_eq, parse, ← contentLines]
  apply trim_eq_self
  apply trimmed_joinWith
  · intro line member
    simpa using (List.mem_filter.mp member).2
  · intro line member
    have among := (List.takeWhile_prefix isProse).subset (List.mem_filter.mp member).1
    obtain ⟨part, -, rfl⟩ := List.mem_map.mp among
    exact trimmed_trim part

theorem groups_tagValues (body : Body) : body.tagValues.Groups body.told := OrderedMap.groups_group body.told

theorem get?_tagValues_eq_none_iff (body : Body) (name : Text) :
    body.tagValues.get? name = none ↔ name ∉ body.told.map Prod.fst := by
  change (OrderedMap.group body.told).get? name = none ↔ _
  rw [OrderedMap.get?_group]
  split
  · next known => simp [known]
  · next absent => simp [absent]

theorem get?_tags_eq_bind (body : Body) (name : Text) :
    body.tags.get? name = (body.tagValues.get? name).bind List.getLast? := by
  rw [get?_tags, tagValues, OrderedMap.get?_group]
  split
  · rfl
  · next absent => simp [OrderedMap.valuesOf_eq_nil_iff.mpr absent]

theorem parse_joinLines_of_passed {raw : Text} {before after : List Text} {earlier line : Text}
    (split : lines raw = before ++ line :: after) (member : earlier ∈ before)
    (isTag : HasTagForm (lineContent earlier)) (other : ¬ HasTagForm (lineContent line)) :
    parse (joinLines (before ++ after)) = parse raw := by
  have single : ∀ part ∈ before ++ after, CodePoint.char '\n' ∉ part := by
    intro part among feed
    have ofRaw : part ∈ lines raw := by
      rw [split]
      rcases List.mem_append.mp among with front | back
      · exact List.mem_append_left _ front
      · exact List.mem_append_right _ (List.mem_cons_of_mem line back)
    exact (mem_of_mem_lines ofRaw feed).2 rfl
  have left : lines (joinLines (before ++ after)) = before ++ after :=
    lines_joinLines (List.append_ne_nil_of_left_ne_nil (List.ne_nil_of_mem member) after) single
  rw [Reading.parse_eq_body_run, Reading.parse_eq_body_run, left, split, List.map_append, List.map_append,
    List.map_cons, Reading.run_of_passed (List.mem_map_of_mem member) isTag other]

/-- Every tag line of a comment counts, under its name and in its place, and only lines before the first of them
describe. -/
theorem parse_keeps_tags (raw : Text) :
    let body := parse raw
    ∃ tags, (∀ other, TagsOf raw other ↔ other = tags) ∧ body.tagValues.Groups tags ∧
      (∀ name, body.tagValues.get? name = none ↔ name ∉ tags.map Prod.fst) ∧
      body.tags.keys = body.tagValues.keys ∧
      (∀ name, body.tags.get? name = (body.tagValues.get? name).bind List.getLast?) ∧
      body.description = joinWith [' ']
        (((contentLines raw).takeWhile fun line => ¬ HasTagForm line).filter fun line => !line.isEmpty) ∧
      ∀ before line after, lines raw = before ++ line :: after →
        (∃ earlier ∈ before, HasTagForm (lineContent earlier)) → ¬ HasTagForm (lineContent line) →
        parse (joinLines (before ++ after)) = body := by
  intro body
  refine ⟨body.told, fun other => tagsOf_iff, body.groups_tagValues, body.get?_tagValues_eq_none_iff,
    OrderedMap.keys_mapValues _ _, body.get?_tags_eq_bind, description_eq raw, ?_⟩
  rintro before line after split ⟨earlier, member, isTag⟩ other
  exact parse_joinLines_of_passed split member isTag other

/-- A name that comes twice, with a line between that is passed over. -/
theorem parse_keeps_tags_passed_line :
    let raw : Text := ['@', 'p', ' ', 'x', '\n', 'm', '\n', '@', 'p', '\t', 'z']
    let first : Text := ['@', 'p', ' ', 'x']
    let line : Text := ['m']
    let second : Text := ['@', 'p', '\t', 'z']
    lines raw = [first] ++ line :: [second] ∧
      HasTagForm (lineContent first) ∧ ¬ HasTagForm (lineContent line) ∧
      (parse raw).tagValues.get? ['p'] = some ([['x'], ['z']] : List Text) ∧
      parse (joinLines [first, second]) = parse raw := by
  intro raw first line second
  have split : lines raw = [first] ++ line :: [second] := by decide
  have isTag : HasTagForm (lineContent first) := by decide
  have other : ¬ HasTagForm (lineContent line) := by decide
  obtain ⟨tags, only, groups, -, -, -, -, passed⟩ := parse_keeps_tags raw
  have told : ([(['p'], ['x']), (['p'], ['z'])] : List (Text × Text)) = tags := (only _).mp (tagsOf_iff.mpr (by decide))
  rw [← told] at groups
  have both := groups.get ['p'] ((groups.mem_keys ['p']).mpr (by decide))
  have shorter := passed _ _ _ split ⟨_, List.mem_singleton_self _, isTag⟩ other
  exact ⟨split, isTag, other, both, shorter⟩

end Body

end ApexComments.Comment
