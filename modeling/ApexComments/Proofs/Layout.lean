import ApexComments.Proofs.CommentLines
import Mathlib.Data.List.Forall2

/-!
# The layout of a comment

Markers are looked for in a line without the blanks around it, and a line of blanks has no content. So a comment is
read from its lines that are not blank, trimmed (`parse_of_nonblankLines`), and blanks put at the ends of its lines or
blank lines put between them (`Relaid`) change nothing of what it says.
-/
namespace ApexComments.Comment

open Text

variable {raw other line before after : Text} {given laid : List Text}

/-- Blanks that end no line. -/
def IsPadding (text : Text) : Prop := ∀ c ∈ text, isBlank c = true ∧ c ≠ '\n'

instance (text : Text) : Decidable (IsPadding text) :=
  List.decidableBAll (fun c => isBlank c = true ∧ c ≠ '\n') text

/-- The lines with blanks put at either end of some of them, and with blank lines put in anywhere. -/
inductive Relaid : List Text → List Text → Prop
  | done : Relaid [] []
  | padded {before line after : Text} {given laid : List Text} (front : IsPadding before) (back : IsPadding after)
      (rest : Relaid given laid) : Relaid (line :: given) ((before ++ line ++ after) :: laid)
  | inserted {blanks : Text} {given laid : List Text} (padding : IsPadding blanks) (rest : Relaid given laid) :
      Relaid given (blanks :: laid)

/-- Two comments have one description, the same tags, and the same values of each. -/
structure SaysSame (raw other : Text) : Prop where
  description : (Body.parse raw).description = (Body.parse other).description
  tags : (Body.parse raw).tags = (Body.parse other).tags
  tagValues : (Body.parse raw).tagValues = (Body.parse other).tagValues

/-! ## Lines that are not blank -/

theorem IsPadding.blank (padding : IsPadding line) : ∀ c ∈ line, isBlank c = true :=
  fun c member => (padding c member).1

theorem IsPadding.single (padding : IsPadding line) : CodePoint.char '\n' ∉ line :=
  fun feed => (padding '\n' feed).2 rfl

theorem trim_padded (front : IsPadding before) (back : IsPadding after) :
    trim (before ++ line ++ after) = trim line := by
  rw [trim_append_blanks back.blank, trim_blanks_append front.blank]

theorem lineContent_trim (line : Text) : lineContent (trim line) = lineContent line :=
  lineContent_congr (trim_trim line)

/-- What a comment says is said by its lines that are not blank. -/
theorem contents_eq (raw : Text) :
    contents raw = ((nonblankLines raw).map lineContent).filter fun line => !line.isEmpty := by
  rw [contents, nonblankLines]
  induction lines raw with
  | nil => rfl
  | cons line rest ih =>
    by_cases blank : trim line = []
    · have none : lineContent line = [] := by
        rw [← lineContent_trim, blank]
        rfl
      simp [blank, none, ih]
    · by_cases bare : lineContent line = []
      · simp [blank, lineContent_trim, bare, ih]
      · simp [blank, lineContent_trim, bare, ih]

theorem parse_of_nonblankLines (same : nonblankLines raw = nonblankLines other) :
    Body.parse raw = Body.parse other := by
  rw [Body.parse_eq_ofContents, Body.parse_eq_ofContents, contents_eq, contents_eq, same]

theorem saysSame_of_nonblankLines (same : nonblankLines raw = nonblankLines other) : SaysSame raw other := by
  have read := parse_of_nonblankLines same
  exact ⟨congrArg Body.description read, congrArg Body.tags read, congrArg Body.tagValues read⟩

/-! ## Lines laid out anew -/

theorem Relaid.nonblank_eq (relaid : Relaid given laid) :
    ((laid.map trim).filter fun line => !line.isEmpty) = (given.map trim).filter fun line => !line.isEmpty := by
  induction relaid with
  | done => rfl
  | padded front back _ ih =>
    rw [List.map_cons, List.map_cons, trim_padded front back, List.filter_cons, List.filter_cons, ih]
  | inserted padding _ ih =>
    rw [List.map_cons, trim_eq_nil padding.blank, ← ih]
    rfl

theorem Relaid.single (relaid : Relaid given laid) (single : ∀ line ∈ given, CodePoint.char '\n' ∉ line) :
    ∀ line ∈ laid, CodePoint.char '\n' ∉ line := by
  induction relaid with
  | done => simp
  | padded front back _ ih =>
    obtain ⟨here, later⟩ := List.forall_mem_cons.mp single
    refine List.forall_mem_cons.mpr ⟨?_, ih later⟩
    simp [front.single, here, back.single]
  | inserted padding _ ih => exact List.forall_mem_cons.mpr ⟨padding.single, ih single⟩

theorem Relaid.ne_nil (relaid : Relaid given laid) (some : given ≠ []) : laid ≠ [] := by
  cases relaid with
  | done => exact absurd rfl some
  | padded => simp
  | inserted => simp

/-- The text of the new lines has these lines. -/
theorem Relaid.lines_joinLines (relaid : Relaid (lines raw) laid) : lines (joinLines laid) = laid := by
  refine Text.lines_joinLines (relaid.ne_nil (splitOn_ne_nil '\n' raw)) (relaid.single ?_)
  intro line member feed
  exact (mem_of_mem_lines member feed).2 rfl

theorem Relaid.saysSame (relaid : Relaid (lines raw) laid) : SaysSame (joinLines laid) raw := by
  apply saysSame_of_nonblankLines
  rw [nonblankLines, relaid.lines_joinLines, relaid.nonblank_eq, nonblankLines]

/-- Lines that come to end in a carriage return are lines laid out anew. -/
theorem relaid_carriageReturns (single : ∀ line ∈ given, CodePoint.char '\n' ∉ line) (some : given ≠ []) :
    Relaid given (lines (joinWith ['\r', '\n'] given)) := by
  induction given with
  | nil => exact absurd rfl some
  | cons line rest ih =>
    obtain ⟨here, later⟩ := List.forall_mem_cons.mp single
    cases rest with
    | nil =>
      have alone : lines line = [[] ++ line ++ []] := by simp [lines_of_not_mem here]
      rw [joinWith_singleton, alone]
      exact .padded (by decide) (by decide) .done
    | cons next rest =>
      have split : joinWith ['\r', '\n'] (line :: next :: rest) =
          ([] ++ line ++ [CodePoint.char '\r']) ++ CodePoint.char '\n' :: joinWith ['\r', '\n'] (next :: rest) := by
        simp [joinWith_cons_cons]
      rw [split, lines_append_feed (by simp [here])]
      exact .padded (by decide) (by decide) (ih later (by simp))

theorem map_trim_of_reindented
    (reindented : List.Forall₂ (fun line again => trimStart line = trimStart again) given laid) :
    laid.map trim = given.map trim := by
  induction reindented with
  | nil => rfl
  | cons same _ ih => rw [List.map_cons, List.map_cons, trim, trim, same, ih]

/-- The layout of a comment carries no meaning: however blanks are put at the ends of its lines and blank lines between
them, it says the same. So it does with its lines ended by carriage returns as well, and with any other indentation. -/
theorem saysSame_of_layout (raw : Text) :
    (∀ laid, Relaid (lines raw) laid → SaysSame (joinLines laid) raw) ∧
      SaysSame (joinWith ['\r', '\n'] (lines raw)) raw ∧
      ∀ other, List.Forall₂ (fun line again => trimStart line = trimStart again) (lines raw) (lines other) →
        SaysSame other raw := by
  refine ⟨fun laid relaid => relaid.saysSame, ?_, ?_⟩
  · have single : ∀ line ∈ lines raw, CodePoint.char '\n' ∉ line := fun line member feed =>
      (mem_of_mem_lines member feed).2 rfl
    have ended := (relaid_carriageReturns single (splitOn_ne_nil '\n' raw)).saysSame
    rwa [joinLines_lines] at ended
  · intro other reindented
    apply saysSame_of_nonblankLines
    rw [nonblankLines, nonblankLines, map_trim_of_reindented reindented]

/-- A block of one line that is empty, prose and a tag, with a tab, an em space, a carriage return, a no-break space and
a separator around them, and two blank lines between. -/
theorem saysSame_of_layout_spread :
    let raw : Text := joinLines [['/', '*', '*', '/'], ['*', ' ', 'a'], ['@', 'p', ' ', 'x']]
    let laid : List Text := [['\t', '/', '*', '*', '/', '\u2003'], ['\r'], ['*', ' ', 'a', '\r'], [],
      ['\u00a0', '@', 'p', ' ', 'x', '\x1c']]
    let indented : Text := joinLines [['/', '*', '*', '/'], ['\t', '*', ' ', 'a'], [' ', ' ', '@', 'p', ' ', 'x']]
    Relaid (lines raw) laid ∧ (Body.parse (joinLines laid)).description = ['a'] ∧
      (Body.parse (joinLines laid)).tagValues.get? ['p'] = some ([['x']] : List Text) ∧
      (Body.parse indented).tags.get? ['p'] = some (['x'] : Text) := by
  intro raw laid indented
  have tag : Relaid [['@', 'p', ' ', 'x']] [['\u00a0', '@', 'p', ' ', 'x', '\x1c']] :=
    @Relaid.padded ['\u00a0'] _ ['\x1c'] _ _ (by decide) (by decide) .done
  have prose : Relaid [['*', ' ', 'a'], ['@', 'p', ' ', 'x']]
      [['*', ' ', 'a', '\r'], [], ['\u00a0', '@', 'p', ' ', 'x', '\x1c']] :=
    @Relaid.padded [] _ ['\r'] _ _ (by decide) (by decide) (.inserted (by decide) tag)
  have relaid : Relaid (lines raw) laid :=
    @Relaid.padded ['\t'] ['/', '*', '*', '/'] ['\u2003'] _ _ (by decide) (by decide) (.inserted (by decide) prose)
  obtain ⟨anyLayout, -, anyIndentation⟩ := saysSame_of_layout raw
  have same := anyLayout laid relaid
  have alsoSame := anyIndentation indented (.cons rfl (.cons rfl (.cons rfl .nil)))
  refine ⟨relaid, same.description.trans (by decide), ?_, ?_⟩
  · rw [same.tagValues]
    decide
  · rw [alsoSame.tags]
    decide

end ApexComments.Comment
