import ApexComments.Extraction
import ApexComments.Proofs.Grouping
import ApexComments.Proofs.Trimming

/-!
# Places without comments

A comment that is only located stands where the same comment stands when it is decoded. Decoding takes
last values, looks tags up and takes values apart, and none of these steps can fail (`checked_eq`); so
the two lookups fail only where no comment is found, and an extraction of places alone has the rows of a
full one without what the comments say.
-/
namespace ApexComments

open Text Comment

/-! ## Decoding with every step checked -/

/-- Why a step of decoding a comment would fail. -/
inductive DecodeFault where
  /-- A tag name has no value. -/
  | noValue (name : Text)
  /-- The comment does not have the tag. -/
  | noTag (name : Text)
  /-- The value of a parameter line does not have the part. -/
  | noPart (position : Nat)
  deriving DecidableEq, Repr

/-- The last value of each name, if each has one. -/
def Comment.Body.lastValues : List (Text × List Text) → Except DecodeFault (List (Text × Text))
  | [] => .ok []
  | (name, values) :: rest => match values.getLast? with
    | none => .error (.noValue name)
    | some value => (lastValues rest).map ((name, value) :: ·)

/-- All values of each tag name, gathered line by line. -/
def Comment.Body.gathered (body : Body) : OrderedMap Text (List Text) :=
  .gather (body.tagLines.map fun tag => (tag.name, tag.value))

/-- The tags of a comment, each last value checked. -/
def Comment.Body.checkedTags (body : Body) : Except DecodeFault (OrderedMap Text Text) :=
  (lastValues body.gathered.entries).map .ofList

namespace Params

/-- The first word of a value and what follows it, each only if there is such. -/
def parts (value : Text) : List Text :=
  [(readEntry value).1, (readEntry value).2].filter fun part => !part.isEmpty

/-- The part at a position, which must be there. -/
def part (value : Text) (position : Nat) : Except DecodeFault Text :=
  match (parts value)[position]? with
  | none => .error (.noPart position)
  | some part => .ok part

/-- The entry of a value, its parts taken by checked positions. -/
def checkedEntry (value : Text) : Except DecodeFault (Text × Text) :=
  match (parts value).length with
  | 0 => .ok ([], [])
  | 1 => (part value 0).map fun name => (name, [])
  | _ => (part value 0).bind fun name => (part value 1).map fun description => (name, description)

/-- The parameters that the values describe, each value taken apart by checked positions. -/
def checkedOfValues (values : List Text) : Except DecodeFault Params :=
  (values.mapM checkedEntry).map fun entries => .ofList (entries.filter fun param => !param.1.isEmpty)

/-- The parameter of the one value kept for the tag, which is looked up where the comment has it. -/
def checkedOfTags (tags : OrderedMap Text Text) : Except DecodeFault Params :=
  if tagName ∈ tags.keys then
    match tags.get? tagName with
    | none => .error (.noTag tagName)
    | some value => checkedOfValues [value]
  else .ok .empty

end Params

/-- Decodes the comment in a token, with every step checked. -/
def DocComment.checked (token : Token) (everyParam : Bool) : Except DecodeFault DocComment :=
  let body := Body.parse token.text
  body.checkedTags.bind fun tags =>
    (if everyParam then Params.checkedOfValues ((body.gathered.get? Params.tagName).getD [])
      else Params.checkedOfTags tags).map fun params =>
      { location := .ofToken token
        description := body.description
        params := params
        returnDescription := tagText? tags ['r', 'e', 't', 'u', 'r', 'n']
        author := tagText? tags ['a', 'u', 't', 'h', 'o', 'r']
        deprecated := tagText? tags ['d', 'e', 'p', 'r', 'e', 'c', 'a', 't', 'e', 'd']
        tags := tags
        tagValues := body.gathered }

/-! ## No step of decoding fails -/

theorem Comment.Body.lastValues_eq {entries : List (Text × List Text)} (some : ∀ entry ∈ entries, entry.2 ≠ []) :
    lastValues entries = .ok (entries.map fun entry => (entry.1, entry.2.getLastD [])) := by
  induction entries with
  | nil => rfl
  | cons entry rest ih =>
    obtain ⟨name, values⟩ := entry
    obtain ⟨here, later⟩ := List.forall_mem_cons.mp some
    rw [lastValues, List.getLast?_eq_some_getLast here, ih later, List.map_cons, List.getLastD_eq_getLast?,
      List.getLast?_eq_some_getLast here]
    rfl

theorem Comment.Body.gathered_eq (body : Body) : body.gathered = body.tagValues := OrderedMap.gather_eq_group _

theorem Comment.Body.checkedTags_eq (body : Body) : body.checkedTags = .ok body.tags := by
  have some : ∀ entry ∈ body.tagValues.entries, entry.2 ≠ [] :=
    fun entry member => OrderedMap.ne_nil_of_mem_entries_group member
  rw [checkedTags, gathered_eq, lastValues_eq some]
  exact congrArg Except.ok (OrderedMap.ofList_entries body.tags)

namespace Params

/-- A value without a first word is blank, so nothing follows it. -/
theorem readEntry_snd_eq_nil {value : Text} (none : (readEntry value).1 = []) : (readEntry value).2 = [] := by
  obtain ⟨-, -, -, first⟩ := exists_trimStart_split value
  cases bare : trimStart value with
  | nil =>
    rw [readEntry, bare]
    rfl
  | cons c rest =>
    have shown : isBlank c = false := first c (by rw [bare]; rfl)
    simp [readEntry, bare, shown] at none

/-- A value is taken apart at positions that it has. -/
theorem checkedEntry_eq (value : Text) : checkedEntry value = .ok (readEntry value) := by
  cases entry : readEntry value with
  | mk word rest =>
    by_cases noWord : word = []
    · have noRest : rest = [] := by
        have none := @readEntry_snd_eq_nil value
        rw [entry] at none
        exact none noWord
      simp [checkedEntry, parts, entry, noWord, noRest]
    · by_cases noRest : rest = []
      · simp [checkedEntry, part, parts, entry, noWord, noRest, Except.map]
      · simp [checkedEntry, part, parts, entry, noWord, noRest, Except.map, Except.bind]

theorem checkedOfValues_eq (values : List Text) : checkedOfValues values = .ok (ofValues values) := by
  have entries : values.mapM checkedEntry = .ok (values.map readEntry) := by
    induction values with
    | nil => rfl
    | cons value rest ih =>
      rw [List.mapM_cons, checkedEntry_eq, ih]
      rfl
  rw [checkedOfValues, entries]
  rfl

/-- The tag is looked up only where the comment has it. -/
theorem checkedOfTags_eq (tags : OrderedMap Text Text) : checkedOfTags tags = .ok (ofTags tags) := by
  rw [checkedOfTags, ofTags]
  by_cases known : tagName ∈ tags.keys
  · obtain ⟨value, found⟩ := OrderedMap.exists_get?_of_mem known
    simp only [if_pos known, found, checkedOfValues_eq]
    rfl
  · rw [if_neg known, OrderedMap.get?_eq_none_of_not_mem known]
    rfl

end Params

/-- Decoding a comment never fails. -/
theorem DocComment.checked_eq (token : Token) (everyParam : Bool) :
    DocComment.checked token everyParam = .ok (DocComment.ofToken token everyParam) := by
  simp only [DocComment.checked, Body.gathered_eq, Body.checkedTags_eq, Params.checkedOfValues_eq,
    Params.checkedOfTags_eq]
  cases everyParam <;> rfl

/-! ## The two lookups -/

namespace HiddenTokens

/-- The comment attached to the anchor, decoded with every step checked; where anything fails, there
is none. -/
def checkedComment (source : HiddenTokens) (everyParam : Bool) (anchor : Int) : Option DocComment :=
  match source.nearestDoc anchor with
  | .error _ => none
  | .ok none => none
  | .ok (some token) => (DocComment.checked token everyParam).toOption

theorem value_docComment (source : HiddenTokens) (everyParam : Bool) (anchor : Int) :
    (source.docComment everyParam anchor).value = source.checkedComment everyParam anchor := by
  rw [docComment, checkedComment]
  cases source.nearestDoc anchor with
  | error fault => rfl
  | ok found =>
    cases found with
    | none => rfl
    | some token =>
      simp only [DocComment.checked_eq]
      rfl

theorem value_docSpan (source : HiddenTokens) (everyParam : Bool) (anchor : Int) :
    (source.docSpan anchor).value = (source.docComment everyParam anchor).value.map DocComment.location := by
  -- Both lookups ask for the same token, and only that question can fail.
  rw [docSpan, docComment]
  cases source.nearestDoc anchor with
  | error fault => rfl
  | ok found => cases found <;> rfl

end HiddenTokens

/-! ## Rows and payloads -/

/-- The row without what its comment says. -/
def DeclarationRow.withoutDoc (row : DeclarationRow) : DeclarationRow := { row with doc := none }

/-- The payload with every row without what its comment says. -/
def FilePayload.withoutDocs (payload : FilePayload) : FilePayload :=
  { payload with docs := payload.docs.map DeclarationRow.withoutDoc }

theorem Logged.value_all {α : Type} (computations : List (Logged α)) :
    (Logged.all computations).value = computations.map Logged.value := by
  induction computations with
  | nil => rfl
  | cons logged rest ih =>
    rw [List.map_cons, ← ih]
    rfl

namespace Extraction

variable (everyParam : Bool)

theorem value_row (file : Text) (stream : TokenStream) (anchor : Anchor) :
    (row ⟨true, everyParam⟩ file stream anchor).value =
      (row ⟨false, everyParam⟩ file stream anchor).value.map DeclarationRow.withoutDoc := by
  have located := stream.hiddenTokens.value_docSpan everyParam anchor.index
  simp only [row, lookUp, Logged.map, if_true, Bool.false_eq_true, if_false, located]
  cases (stream.hiddenTokens.docComment everyParam anchor.index).value <;> rfl

theorem value_ofScan (file source : Text) (scan : Scan) :
    (ofScan ⟨true, everyParam⟩ file source scan).value =
      (ofScan ⟨false, everyParam⟩ file source scan).value.withoutDocs := by
  have rows : (Logged.all (scan.anchors.map (row ⟨true, everyParam⟩ file scan.stream))).value =
      (Logged.all (scan.anchors.map (row ⟨false, everyParam⟩ file scan.stream))).value.map
        (Option.map DeclarationRow.withoutDoc) := by
    simp only [Logged.value_all, List.map_map]
    exact List.map_congr_left fun anchor _ => value_row everyParam file scan.stream anchor
  have kept (found : List (Option DeclarationRow)) :
      (found.map (Option.map DeclarationRow.withoutDoc)).filterMap id =
        (found.filterMap id).map DeclarationRow.withoutDoc := by
    rw [List.filterMap_map, List.map_filterMap]
    rfl
  simp only [ofScan, Logged.map, rows, kept, FilePayload.withoutDocs, List.length_map]

theorem value_ofSource (parser : Parser) (file source : Text) :
    (ofSource ⟨true, everyParam⟩ parser file source).value =
      (ofSource ⟨false, everyParam⟩ parser file source).value.withoutDocs := by
  rw [ofSource, ofSource]
  cases Scan.ofSource parser source with
  | error fault => rfl
  | ok scan => exact value_ofScan everyParam file source scan.value

theorem value_ofContents (parser : Parser) (path : Path) (file : Text) (read : Except FileError ByteArray) :
    (ofContents ⟨true, everyParam⟩ parser path file read).map Logged.value =
      (ofContents ⟨false, everyParam⟩ parser path file read).map fun logged => logged.value.withoutDocs := by
  cases read with
  | error fault => cases fault <;> rfl
  | ok contents => exact congrArg Except.ok (value_ofSource everyParam parser file (sourceText contents))

end Extraction

/-- Whatever the token source does, a comment is located exactly where one is decoded, and there; the
decoding behind it never fails. So extracting places alone gives the payload of a full extraction, less
what the comments say. -/
theorem addressOnly_eq_withoutDocs :
    (∀ (source : HiddenTokens) (everyParam : Bool) (anchor : Int),
      (source.docSpan anchor).value = (source.docComment everyParam anchor).value.map DocComment.location ∧
      (source.docComment everyParam anchor).value = source.checkedComment everyParam anchor) ∧
    (∀ (token : Token) (everyParam : Bool),
      DocComment.checked token everyParam = .ok (DocComment.ofToken token everyParam)) ∧
    ∀ (parser : Parser) (disk : Disk) (root path : Path) (everyParam : Bool),
      (Extraction.ofFile ⟨true, everyParam⟩ parser disk root path).map Logged.value =
        (Extraction.ofFile ⟨false, everyParam⟩ parser disk root path).map fun logged => logged.value.withoutDocs := by
  refine ⟨?_, DocComment.checked_eq, ?_⟩
  · intro source everyParam anchor
    exact ⟨source.value_docSpan everyParam anchor, source.value_docComment everyParam anchor⟩
  · intro parser disk root path everyParam
    rw [Extraction.ofFile, Extraction.ofFile]
    cases Extraction.payloadPath disk root path with
    | error fault => rfl
    | ok file => exact Extraction.value_ofContents everyParam parser path file (disk.read path)

end ApexComments
