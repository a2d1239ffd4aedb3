import ApexComments.Comment.Doc
import ApexComments.Proofs.TagLines

/-!
# The fields of a documentation comment

What is read from a comment is in normal form (`Body.normal_parse`): the description and the values are trimmed
texts on one line, and no value is empty. So a tag that a comment has is never held to be blank, and the fields
of a decoded comment are the last values of their tags. A value of a parameter line is a word and what follows
the blanks after it (`Params.IsEntry`). The parameters of every such line are those entries with the last
description of each name, and the parameter of the last line is the last entry of them.
-/
namespace ApexComments

open Text Comment OrderedMap

/-! ## Normal form -/

/-- A text on one line without blanks at its ends. -/
structure Text.OneLine (text : Text) : Prop where
  single : CodePoint.char '\n' ∉ text
  trimmed : Trimmed text

namespace Comment

/-- A tag whose name is a word and whose value is a text on one line. -/
structure NormalTag (tag : Text × Text) : Prop where
  word : isWord tag.1 = true
  nonempty : tag.2 ≠ []
  value : OneLine tag.2

namespace Body

/-- The description is on one line, and both maps hold normal tags only. -/
structure Normal (body : Body) : Prop where
  description : OneLine body.description
  names : ∀ name ∈ body.tagValues.keys, isWord name = true
  values : ∀ entry ∈ body.tagValues.entries, ∀ value ∈ entry.2, NormalTag (entry.1, value)
  tags : ∀ tag ∈ body.tags.entries, NormalTag tag

theorem oneLine_of_mem_contentLines {raw line : Text} (member : line ∈ contentLines raw) : OneLine line := by
  obtain ⟨part, among, rfl⟩ := List.mem_map.mp member
  refine ⟨?_, trimmed_trim part⟩
  intro feed
  exact (mem_of_mem_lines among (mem_of_mem_trim feed)).2 rfl

theorem normalTag_of_spells {line : Text} {tag : Text × Text} (oneLine : OneLine line) (spells : Spells line tag) :
    NormalTag tag := by
  obtain ⟨nonempty, trimmed⟩ := spells.value oneLine.trimmed
  refine ⟨spells.word, nonempty, ?_, trimmed⟩
  intro feed
  obtain ⟨blanks, -, -, rfl⟩ := spells.split
  exact oneLine.single (List.mem_append_right _ feed)

theorem normalTag_of_mem_told {raw : Text} {tag : Text × Text} (member : tag ∈ (parse raw).told) : NormalTag tag := by
  obtain ⟨tagLine, among, rfl⟩ := List.mem_map.mp member
  obtain ⟨line, isLine, read⟩ := List.mem_filterMap.mp among
  have oneLine := oneLine_of_mem_contentLines isLine
  exact normalTag_of_spells oneLine ((read?_eq_some_iff oneLine.trimmed).mp read)

/-- The last value of a name is one of its values. -/
theorem mem_told_of_mem_tags {body : Body} {tag : Text × Text} (member : tag ∈ body.tags.entries) :
    tag ∈ body.told := by
  obtain ⟨entry, among, rfl⟩ := List.mem_map.mp member
  have some := ne_nil_of_mem_entries_group among
  have last : entry.2.getLastD [] ∈ entry.2 := by
    rw [List.getLastD_eq_getLast?, List.getLast?_eq_some_getLast some]
    exact List.getLast_mem some
  rw [eq_valuesOf_of_mem_entries among] at last ⊢
  exact mem_valuesOf_iff.mp last

theorem normal_parse (raw : Text) : (parse raw).Normal := by
  refine ⟨⟨?_, ?_⟩, ?_, ?_, ?_⟩
  · rw [description_eq, mem_joinWith_iff (by decide)]
    rintro ⟨line, member, feed⟩
    have among := (List.takeWhile_prefix _).subset (List.mem_filter.mp member).1
    exact (oneLine_of_mem_contentLines among).single feed
  · simp only [parse, trimmed_trim]
  · intro name known
    obtain ⟨tag, member, rfl⟩ := List.mem_map.mp (((parse raw).groups_tagValues.mem_keys name).mp known)
    exact (normalTag_of_mem_told member).word
  · intro entry member value among
    rw [eq_valuesOf_of_mem_entries member] at among
    exact normalTag_of_mem_told (mem_valuesOf_iff.mp among)
  · intro tag member
    exact normalTag_of_mem_told (mem_told_of_mem_tags member)

theorem normalTag_of_get?_tags {raw name value : Text} (found : (parse raw).tags.get? name = some value) :
    NormalTag (name, value) := by
  rw [get?_tags] at found
  exact normalTag_of_mem_told (mem_valuesOf_iff.mp (List.mem_of_getLast? found))

end Body

theorem NormalTag.allBlank_eq_false {tag : Text × Text} (normal : NormalTag tag) : allBlank tag.2 = false := by
  obtain ⟨c, rest, value⟩ := List.exists_cons_of_ne_nil normal.nonempty
  have shown : isBlank c = false := normal.value.trimmed.first c (by rw [value]; rfl)
  simp [allBlank, value, shown]

/-- No tag that a comment has is left out for being blank. -/
theorem tagText?_tags (raw name : Text) : tagText? (Body.parse raw).tags name = (Body.parse raw).tags.get? name := by
  rw [tagText?]
  cases found : (Body.parse raw).tags.get? name with
  | none => rfl
  | some value =>
    have shown : allBlank value = false := (Body.normalTag_of_get?_tags found).allBlank_eq_false
    simp [shown]

end Comment

/-! ## Parameters -/

namespace Params

/-- The entry of a value: its first word, and what follows the blanks after it. Where no blank follows, the word is
all. -/
structure IsEntry (value : Text) (entry : Text × Text) : Prop where
  named : entry.1 ≠ []
  word : ∀ c ∈ entry.1, isBlank c = false
  bare : ∀ c ∈ entry.2.head?, isBlank c = false
  split : ∃ blanks, (∀ c ∈ blanks, isBlank c = true) ∧ (blanks = [] → entry.2 = []) ∧
    value = entry.1 ++ blanks ++ entry.2

/-- The entries of the parameter lines of a comment, in order. -/
def EntriesOf (raw : Text) (entries : List (Text × Text)) : Prop :=
  ∃ tags, TagsOf raw tags ∧ List.Forall₂ IsEntry (valuesOf tagName tags) entries

/-- No entry where there is no value, and else the entry of the last one alone. -/
def OfLast (values : List Text) (params : Params) : Prop :=
  match values.getLast? with
  | none => params.entries = []
  | some value => ∃ entry, IsEntry value entry ∧ params.entries = [entry]

theorem readEntry_of_isEntry {value : Text} {entry : Text × Text} (isEntry : IsEntry value entry) :
    readEntry value = entry := by
  obtain ⟨name, description⟩ := entry
  obtain ⟨named, word, bare, blanks, blank, alone, rfl⟩ := isEntry
  simp only at named word bare blank alone
  have shown : ∀ c ∈ name, (!isBlank c) = true := by simpa using word
  have starts : trimStart (name ++ blanks ++ description) = name ++ (blanks ++ description) := by
    obtain ⟨c, rest, rfl⟩ := List.exists_cons_of_ne_nil named
    rw [List.append_assoc]
    refine trimStart_eq_self ?_
    rintro _ ⟨⟩
    exact word c List.mem_cons_self
  have stops : (blanks ++ description).takeWhile (fun c => !isBlank c) = [] ∧
      (blanks ++ description).dropWhile (fun c => !isBlank c) = blanks ++ description := by
    cases blanks with
    | nil => simp [alone rfl]
    | cons c rest => simp [blank c List.mem_cons_self]
  rw [readEntry, starts, List.takeWhile_append_of_pos shown, List.dropWhile_append_of_pos shown, stops.1, stops.2,
    trimStart_append blank, trimStart_eq_self bare, List.append_nil]

theorem isEntry_readEntry {value : Text} (some : value ≠ []) (trimmed : Trimmed value) :
    IsEntry value (readEntry value) := by
  have starts : trimStart value = value := trimStart_eq_self trimmed.first
  obtain ⟨blanks, split, blank, shown⟩ := exists_trimStart_split (value.dropWhile fun c => !isBlank c)
  rw [readEntry, starts]
  refine ⟨?_, ?_, shown, blanks, blank, ?_, ?_⟩
  · obtain ⟨c, rest, rfl⟩ := List.exists_cons_of_ne_nil some
    have first : isBlank c = false := trimmed.first c rfl
    simp [first]
  · intro c member
    simpa using List.mem_takeWhile_imp member
  · -- The word ended before a blank, so only the end of the value can follow it at once.
    rintro rfl
    rw [List.nil_append] at split
    rw [← split] at shown ⊢
    cases left : value.dropWhile (fun c => !isBlank c) with
    | nil => rfl
    | cons c rest =>
      have stopped := List.head?_dropWhile_not (fun c => !isBlank c) value
      have first := shown c (by rw [left]; rfl)
      simp [left, first] at stopped
  · rw [List.append_assoc, ← split, List.takeWhile_append_dropWhile]

theorem forall₂_isEntry_iff {values : List Text} (normal : ∀ value ∈ values, value ≠ [] ∧ Trimmed value)
    {entries : List (Text × Text)} : List.Forall₂ IsEntry values entries ↔ entries = values.map readEntry := by
  induction values generalizing entries with
  | nil => simp
  | cons value rest ih =>
    obtain ⟨⟨some, trimmed⟩, later⟩ := List.forall_mem_cons.mp normal
    rw [List.forall₂_cons_left_iff]
    constructor
    · rintro ⟨entry, others, isEntry, onward, rfl⟩
      rw [List.map_cons, readEntry_of_isEntry isEntry, (ih later).mp onward]
    · rintro rfl
      exact ⟨_, _, isEntry_readEntry some trimmed, (ih later).mpr rfl, rfl⟩

theorem ofLast_of_entries {values : List Text} (normal : ∀ value ∈ values, value ≠ [] ∧ Trimmed value) {params : Params}
    (entries : params.entries = (values.map readEntry).getLast?.toList) : OfLast values params := by
  rw [List.getLast?_map] at entries
  unfold OfLast
  cases last : values.getLast? with
  | none => simpa [last] using entries
  | some value =>
    obtain ⟨some, trimmed⟩ := normal value (List.mem_of_getLast? last)
    exact ⟨_, isEntry_readEntry some trimmed, by simpa [last] using entries⟩

theorem OfLast.length_eq_one_iff {values : List Text} {params : Params} (ofLast : OfLast values params) :
    params.entries.length = 1 ↔ values ≠ [] := by
  unfold OfLast at ofLast
  split at ofLast
  · next none => simp [ofLast, List.getLast?_eq_none_iff.mp none]
  · next value last =>
    obtain ⟨entry, -, entries⟩ := ofLast
    have some : values ≠ [] := List.ne_nil_of_mem (List.mem_of_getLast? last)
    simp [entries, some]

theorem ofValues_eq {values : List Text} (normal : ∀ value ∈ values, value ≠ [] ∧ Trimmed value) :
    ofValues values = .ofList (values.map readEntry) := by
  have kept : ((values.map readEntry).filter fun param => !param.1.isEmpty) = values.map readEntry := by
    rw [List.filter_eq_self]
    intro entry member
    obtain ⟨value, among, rfl⟩ := List.mem_map.mp member
    obtain ⟨some, trimmed⟩ := normal value among
    simpa using (isEntry_readEntry some trimmed).named
  rw [ofValues, kept]

/-- The entries that are read from the parameter lines of a comment. -/
def entriesIn (raw : Text) : List (Text × Text) := (valuesOf tagName (Body.parse raw).told).map readEntry

theorem normal_values {raw name value : Text} (member : value ∈ valuesOf name (Body.parse raw).told) :
    value ≠ [] ∧ Trimmed value := by
  have normal := Body.normalTag_of_mem_told (mem_valuesOf_iff.mp member)
  exact ⟨normal.nonempty, normal.value.trimmed⟩

/-- The parameter lines of a comment have the entries that are read from them, and no others. -/
theorem entriesOf_iff {raw : Text} {entries : List (Text × Text)} :
    EntriesOf raw entries ↔ entries = entriesIn raw := by
  constructor
  · rintro ⟨tags, told, each⟩
    rw [tagsOf_iff.mp told] at each
    exact (forall₂_isEntry_iff fun value => normal_values).mp each
  · rintro rfl
    exact ⟨_, tagsOf_iff.mpr rfl, (forall₂_isEntry_iff fun value => normal_values).mpr rfl⟩

theorem ofTagValues_eq (raw : Text) : ofTagValues (Body.parse raw).tagValues = .ofList (entriesIn raw) := by
  have values : ((Body.parse raw).tagValues.get? tagName).getD [] = valuesOf tagName (Body.parse raw).told :=
    getD_get?_group _ _
  rw [ofTagValues, values, ofValues_eq fun value => normal_values]
  rfl

theorem entries_ofTags (raw : Text) : (ofTags (Body.parse raw).tags).entries = (entriesIn raw).getLast?.toList := by
  have normal : ∀ value ∈ ((Body.parse raw).tags.get? tagName).toList, value ≠ [] ∧ Trimmed value := by
    intro value member
    have tag := Body.normalTag_of_get?_tags (Option.mem_toList.mp member)
    exact ⟨tag.nonempty, tag.value.trimmed⟩
  rw [ofTags, ofValues_eq normal, Body.get?_tags, ← Body.told, entriesIn, List.getLast?_map]
  cases (valuesOf tagName (Body.parse raw).told).getLast? with
  | none => rfl
  | some value => rfl

end Params

/-! ## Decoded comments -/

namespace DocComment

/-- The fields of a comment that are the values of tags: absent without a tag line of the name, and else the value of
the last one. -/
structure FollowsTags (doc : DocComment) (tags : List (Text × Text)) : Prop where
  returnDescription : doc.returnDescription = (valuesOf (['r', 'e', 't', 'u', 'r', 'n'] : Text) tags).getLast?
  author : doc.author = (valuesOf (['a', 'u', 't', 'h', 'o', 'r'] : Text) tags).getLast?
  deprecated : doc.deprecated = (valuesOf (['d', 'e', 'p', 'r', 'e', 'c', 'a', 't', 'e', 'd'] : Text) tags).getLast?

theorem followsTags_ofToken (token : Token) (everyParam : Bool) :
    (ofToken token everyParam).FollowsTags (Body.parse token.text).told := by
  have field (name : Text) :
      tagText? (Body.parse token.text).tags name = (valuesOf name (Body.parse token.text).told).getLast? := by
    rw [tagText?_tags, Body.get?_tags, ← Body.told]
  constructor
  · simp only [ofToken, field]
  · simp only [ofToken, field]
  · simp only [ofToken, field]

theorem params_ofToken_true (token : Token) : (ofToken token true).params = .ofList (Params.entriesIn token.text) := by
  simp only [ofToken, if_true, Params.ofTagValues_eq]

theorem entries_params_ofToken_false (token : Token) :
    (ofToken token false).params.entries = (Params.entriesIn token.text).getLast?.toList := by
  simp only [ofToken, Bool.false_eq_true, if_false, Params.entries_ofTags]

/-- What a comment says is in normal form, and its fields follow from its tag lines: no value that is there is held to
be blank, and the one parameter is that of the last parameter line. -/
theorem ofToken_normal (token : Token) :
    let body := Body.parse token.text
    body.Normal ∧ (∀ name, tagText? body.tags name = body.tags.get? name) ∧
      ∃ tags, (∀ other, TagsOf token.text other ↔ other = tags) ∧
        (∀ everyParam, (ofToken token everyParam).FollowsTags tags) ∧
        ((ofToken token false).params.entries.length = 1 ↔ Params.tagName ∈ tags.map Prod.fst) ∧
        Params.OfLast (valuesOf Params.tagName tags) (ofToken token false).params := by
  intro body
  have last : Params.OfLast (valuesOf Params.tagName body.told) (ofToken token false).params :=
    Params.ofLast_of_entries (fun value => Params.normal_values) (entries_params_ofToken_false token)
  refine ⟨Body.normal_parse token.text, tagText?_tags token.text, body.told, fun other => tagsOf_iff,
    followsTags_ofToken token, ?_, last⟩
  rw [last.length_eq_one_iff, Ne, valuesOf_eq_nil_iff, not_not]

theorem ofToken_false_eq (token : Token) :
    ofToken token false = { ofToken token true with params := (ofToken token false).params } := by
  simp only [ofToken]

/-- The parameters of every line extend that of the last one: they are the entries of all lines with the last
description of each name, and the comments are the same but for them. -/
theorem ofToken_every_param (token : Token) :
    let every := ofToken token true
    let last := ofToken token false
    last = { every with params := last.params } ∧
      ∃ entries, (∀ other, Params.EntriesOf token.text other ↔ other = entries) ∧ every.params.KeepsLast entries ∧
        [] ∉ every.params.keys ∧ last.params.entries = entries.getLast?.toList ∧
        ∀ name description, last.params.get? name = some description → every.params.get? name = some description := by
  intro every last
  have ofLast := entries_params_ofToken_false token
  have keepsLast : every.params.KeepsLast (Params.entriesIn token.text) := by
    rw [params_ofToken_true]
    exact keepsLast_ofList _
  refine ⟨ofToken_false_eq token, Params.entriesIn token.text, fun other => Params.entriesOf_iff, keepsLast, ?_, ofLast,
    ?_⟩
  · intro known
    obtain ⟨entry, member, none⟩ := List.mem_map.mp ((keepsLast.mem_keys []).mp known)
    obtain ⟨value, among, rfl⟩ := List.mem_map.mp member
    obtain ⟨some, trimmed⟩ := Params.normal_values among
    exact (Params.isEntry_readEntry some trimmed).named none
  · intro name description found
    have member := mem_entries_of_get? found
    rw [ofLast, Option.mem_toList] at member
    exact keepsLast.get_last member

end DocComment

end ApexComments
