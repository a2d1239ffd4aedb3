import ApexComments.Text.Blank
import ApexComments.Text.Line
import Mathlib.Data.List.Basic
import Mathlib.Data.List.TakeWhile

/-!
# Trimmed texts and their lines

Blanks put at either end of a text are trimmed off again, and trimming leaves a text alone that has
none there. A text splits into its lines and these join again to the text. Taken together: whichever
blanks, line feeds included, stand around a text, its lines that are not blank stay the same
(`nonblankLines_trim`).
-/
namespace ApexComments.Text

/-- No blank stands at either end of the text. -/
structure Trimmed (text : Text) : Prop where
  first : ∀ c ∈ text.head?, isBlank c = false
  last : ∀ c ∈ text.getLast?, isBlank c = false

variable {text blanks : Text}

theorem trimmed_iff : Trimmed text ↔
    (text.head?.all fun c => !isBlank c) = true ∧ (text.getLast?.all fun c => !isBlank c) = true := by
  simp only [Option.all_eq_true, Bool.not_eq_true']
  exact ⟨fun trimmed => ⟨trimmed.first, trimmed.last⟩, fun ends => ⟨ends.1, ends.2⟩⟩

instance (text : Text) : Decidable (Trimmed text) := decidable_of_iff _ trimmed_iff.symm

/-! ## Trimming -/

theorem trimStart_append (blank : ∀ c ∈ blanks, isBlank c = true) : trimStart (blanks ++ text) = trimStart text :=
  List.dropWhile_append_of_pos blank

theorem trimStart_eq_self (first : ∀ c ∈ text.head?, isBlank c = false) : trimStart text = text := by
  cases text with
  | nil => rfl
  | cons c rest => exact List.dropWhile_cons_of_neg (by simp [first c rfl])

theorem trimEnd_eq_reverse (text : Text) : trimEnd text = (trimStart text.reverse).reverse := rfl

theorem trimEnd_append (blank : ∀ c ∈ blanks, isBlank c = true) : trimEnd (text ++ blanks) = trimEnd text := by
  rw [trimEnd_eq_reverse, List.reverse_append, trimStart_append (by simpa using blank)]
  rfl

theorem trimEnd_eq_self (last : ∀ c ∈ text.getLast?, isBlank c = false) : trimEnd text = text := by
  rw [trimEnd_eq_reverse, trimStart_eq_self, List.reverse_reverse]
  simpa using last

/-- A character that is not blank keeps all before it. -/
theorem trimEnd_append_of_shown {front back : Text} (shown : trimEnd back ≠ []) :
    trimEnd (front ++ back) = front ++ trimEnd back := by
  have some : trimStart back.reverse ≠ [] := by simpa [trimEnd_eq_reverse] using shown
  rw [trimEnd_eq_reverse, List.reverse_append, trimStart, List.dropWhile_append,
    if_neg (by simpa [trimStart] using some)]
  simp [trimEnd_eq_reverse, trimStart]

/-- What trimming takes off the front is blank. -/
theorem exists_trimStart_split (text : Text) :
    ∃ blanks, text = blanks ++ trimStart text ∧ (∀ c ∈ blanks, isBlank c = true) ∧
      ∀ c ∈ (trimStart text).head?, isBlank c = false := by
  refine ⟨text.takeWhile isBlank, List.takeWhile_append_dropWhile.symm, fun c => List.mem_takeWhile_imp, ?_⟩
  intro c first
  rw [Option.mem_def] at first
  have stopped := List.head?_dropWhile_not isBlank text
  rw [← trimStart, first] at stopped
  simpa using stopped

/-- What trimming takes off the back is blank. -/
theorem exists_trimEnd_split (text : Text) :
    ∃ blanks, text = trimEnd text ++ blanks ∧ (∀ c ∈ blanks, isBlank c = true) ∧
      ∀ c ∈ (trimEnd text).getLast?, isBlank c = false := by
  obtain ⟨blanks, split, blank, shown⟩ := exists_trimStart_split text.reverse
  refine ⟨blanks.reverse, ?_, by simpa using blank, by simpa [trimEnd_eq_reverse] using shown⟩
  rw [trimEnd_eq_reverse, ← List.reverse_append, ← split, List.reverse_reverse]

theorem trimEnd_eq_nil_iff : trimEnd text = [] ↔ ∀ c ∈ text, isBlank c = true := by
  constructor
  · intro none
    obtain ⟨blanks, split, blank, -⟩ := exists_trimEnd_split text
    rw [none, List.nil_append] at split
    rwa [split]
  · intro blank
    exact @trimEnd_append [] text blank

/-- What trimming takes off either end is blank, and no blank is left there. -/
theorem exists_trim_split (text : Text) :
    ∃ before after, text = before ++ trim text ++ after ∧ (∀ c ∈ before, isBlank c = true) ∧
      (∀ c ∈ after, isBlank c = true) ∧ Trimmed (trim text) := by
  obtain ⟨before, front, blank, first⟩ := exists_trimStart_split text
  obtain ⟨after, back, alsoBlank, last⟩ := exists_trimEnd_split (trimStart text)
  refine ⟨before, after, ?_, blank, alsoBlank, ?_, last⟩
  · rw [trim, List.append_assoc, ← back, ← front]
  · intro c isFirst
    refine first c ?_
    rw [Option.mem_def] at isFirst ⊢
    rw [back, List.head?_append, ← trim, isFirst]
    rfl

/-- Between blanks, what has no blank at its own ends is what trimming leaves. -/
theorem trim_eq {before core after : Text} (blank : ∀ c ∈ before, isBlank c = true)
    (alsoBlank : ∀ c ∈ after, isBlank c = true) (trimmed : Trimmed core) : trim (before ++ core ++ after) = core := by
  rw [trim, List.append_assoc, trimStart_append blank]
  cases core with
  | nil =>
    rw [List.nil_append, ← List.append_nil after, trimStart_append alsoBlank]
    rfl
  | cons c rest =>
    have first : trimStart (c :: rest ++ after) = c :: rest ++ after := trimStart_eq_self trimmed.first
    rw [first, trimEnd_append alsoBlank, trimEnd_eq_self trimmed.last]

theorem trim_eq_self (trimmed : Trimmed text) : trim text = text := by
  simpa using @trim_eq [] text [] (by simp) (by simp) trimmed

theorem trimmed_trim (text : Text) : Trimmed (trim text) := by
  obtain ⟨-, -, -, -, -, trimmed⟩ := exists_trim_split text
  exact trimmed

theorem trim_trim (text : Text) : trim (trim text) = trim text := trim_eq_self (trimmed_trim text)

theorem mem_of_mem_trim {c : CodePoint} (member : c ∈ trim text) : c ∈ text := by
  obtain ⟨before, after, split, -⟩ := exists_trim_split text
  rw [split]
  simp [member]

theorem trim_blanks_append (blank : ∀ c ∈ blanks, isBlank c = true) : trim (blanks ++ text) = trim text := by
  rw [trim, trimStart_append blank, trim]

theorem trim_append_blanks (blank : ∀ c ∈ blanks, isBlank c = true) : trim (text ++ blanks) = trim text := by
  obtain ⟨before, after, split, front, back, trimmed⟩ := exists_trim_split text
  have around := trim_eq front (List.forall_mem_append.mpr ⟨back, blank⟩) trimmed
  rw [← List.append_assoc, ← split] at around
  exact around

/-- A text without blanks at its ends keeps its place in front of what follows it. -/
theorem trim_trimmed_append {front rest : Text} (trimmed : Trimmed front) (some : front ≠ []) :
    trim (front ++ rest) = front ++ trimEnd rest := by
  obtain ⟨c, later, rfl⟩ := List.exists_cons_of_ne_nil some
  have first : trimStart (c :: later ++ rest) = c :: later ++ rest := trimStart_eq_self trimmed.first
  rw [trim, first]
  by_cases none : trimEnd rest = []
  · rw [trimEnd_append (trimEnd_eq_nil_iff.mp none), trimEnd_eq_self trimmed.last, none, List.append_nil]
  · exact trimEnd_append_of_shown none

theorem trim_eq_nil (blank : ∀ c ∈ text, isBlank c = true) : trim text = [] := by
  simpa using @trim_blanks_append [] text blank

theorem trim_trimEnd (text : Text) : trim (trimEnd text) = trim text := by
  obtain ⟨blanks, split, blank, -⟩ := exists_trimEnd_split text
  have same := @trim_append_blanks (trimEnd text) blanks blank
  rw [← split] at same
  exact same.symm

theorem joinWith_cons_ne_nil (separator : Text) {part : Text} (some : part ≠ []) (rest : List Text) :
    joinWith separator (part :: rest) ≠ [] := by
  cases rest with
  | nil => exact some
  | cons next rest =>
    rw [joinWith_cons_cons, List.append_assoc]
    exact List.append_ne_nil_of_left_ne_nil some _

theorem joinWith_append_singleton (separator : Text) {parts : List Text} (some : parts ≠ []) (last : Text) :
    joinWith separator (parts ++ [last]) = joinWith separator parts ++ separator ++ last := by
  induction parts with
  | nil => exact absurd rfl some
  | cons part parts ih =>
    cases parts with
    | nil => rfl
    | cons next rest =>
      rw [List.cons_append, List.cons_append, joinWith_cons_cons, ← List.cons_append, ih (by simp), joinWith_cons_cons]
      simp only [List.append_assoc]

theorem mem_joinWith_iff {separator : Text} {parts : List Text} {c : CodePoint} (other : c ∉ separator) :
    c ∈ joinWith separator parts ↔ ∃ part ∈ parts, c ∈ part := by
  induction parts with
  | nil => simp
  | cons part parts ih =>
    cases parts with
    | nil => simp
    | cons next parts =>
      rw [joinWith_cons_cons, List.mem_append, List.mem_append, ih]
      simp [other]

theorem trimmed_joinWith (separator : Text) {parts : List Text} (some : ∀ part ∈ parts, part ≠ [])
    (trimmed : ∀ part ∈ parts, Trimmed part) : Trimmed (joinWith separator parts) := by
  induction parts with
  | nil => exact ⟨by simp, by simp⟩
  | cons part rest ih =>
    obtain ⟨here, later⟩ := List.forall_mem_cons.mp some
    obtain ⟨isTrimmed, others⟩ := List.forall_mem_cons.mp trimmed
    cases rest with
    | nil => exact isTrimmed
    | cons next rest =>
      have onward := ih later others
      obtain ⟨c, characters, rfl⟩ := List.exists_cons_of_ne_nil here
      rw [joinWith_cons_cons]
      refine ⟨isTrimmed.first, ?_⟩
      rw [List.getLast?_append_of_ne_nil _ (joinWith_cons_ne_nil separator (later next List.mem_cons_self) rest)]
      exact onward.last

/-! ## Splitting and joining -/

section splitting

variable {separator : CodePoint} {part : Text}

theorem splitOn_cons_separator (separator : CodePoint) (text : Text) :
    splitOn separator (separator :: text) = [] :: splitOn separator text := by
  rw [splitOn, if_pos rfl]

theorem splitOn_cons {c : CodePoint} (other : c ≠ separator) {first : Text} {later : List Text}
    (split : splitOn separator text = first :: later) : splitOn separator (c :: text) = (c :: first) :: later := by
  rw [splitOn, if_neg other, split]

theorem splitOn_append_separator (whole : separator ∉ part) (rest : Text) :
    splitOn separator (part ++ separator :: rest) = part :: splitOn separator rest := by
  induction part with
  | nil => exact splitOn_cons_separator separator rest
  | cons c part ih =>
    simp only [List.mem_cons, not_or] at whole
    exact splitOn_cons (Ne.symm whole.1) (ih whole.2)

theorem splitOn_of_not_mem (whole : separator ∉ part) : splitOn separator part = [part] := by
  induction part with
  | nil => rfl
  | cons c part ih =>
    simp only [List.mem_cons, not_or] at whole
    exact splitOn_cons (Ne.symm whole.1) (ih whole.2)

/-- Parts without the separator are the parts of the text that they join to. -/
theorem splitOn_joinWith {parts : List Text} (some : parts ≠ []) (whole : ∀ part ∈ parts, separator ∉ part) :
    splitOn separator (joinWith [separator] parts) = parts := by
  induction parts with
  | nil => exact absurd rfl some
  | cons part rest ih =>
    obtain ⟨here, later⟩ := List.forall_mem_cons.mp whole
    cases rest with
    | nil => exact splitOn_of_not_mem here
    | cons next others =>
      rw [joinWith_cons_cons, List.append_assoc, List.singleton_append, splitOn_append_separator here]
      exact congrArg (part :: ·) (ih (by simp) later)

theorem mem_of_mem_splitOn (member : part ∈ splitOn separator text) {c : CodePoint} (among : c ∈ part) :
    c ∈ text ∧ c ≠ separator := by
  induction text generalizing part with
  | nil =>
    obtain rfl : part = [] := by simpa using member
    simp at among
  | cons d text ih =>
    by_cases here : d = separator
    · subst here
      rw [splitOn_cons_separator] at member
      rcases List.mem_cons.mp member with rfl | later
      · simp at among
      · obtain ⟨isText, other⟩ := ih later among
        exact ⟨List.mem_cons_of_mem _ isText, other⟩
    · obtain ⟨first, later, split⟩ := List.exists_cons_of_ne_nil (splitOn_ne_nil separator text)
      rw [splitOn_cons here split] at member
      rw [split] at ih
      rcases List.mem_cons.mp member with rfl | onward
      · rcases List.mem_cons.mp among with rfl | inside
        · exact ⟨List.mem_cons_self, here⟩
        · obtain ⟨isText, other⟩ := ih List.mem_cons_self inside
          exact ⟨List.mem_cons_of_mem _ isText, other⟩
      · obtain ⟨isText, other⟩ := ih (List.mem_cons_of_mem _ onward) among
        exact ⟨List.mem_cons_of_mem _ isText, other⟩

end splitting

/-! ## Lines -/

theorem lines_cons_feed (text : Text) : lines (CodePoint.char '\n' :: text) = [] :: lines text :=
  splitOn_cons_separator '\n' text

theorem lines_cons {c : CodePoint} (other : c ≠ '\n') {first : Text} {later : List Text}
    (split : lines text = first :: later) : lines (c :: text) = (c :: first) :: later :=
  splitOn_cons other split

theorem exists_lines_eq_cons (text : Text) : ∃ first later, lines text = first :: later :=
  List.exists_cons_of_ne_nil (splitOn_ne_nil '\n' text)

theorem lines_append_feed {line : Text} (single : CodePoint.char '\n' ∉ line) (rest : Text) :
    lines (line ++ CodePoint.char '\n' :: rest) = line :: lines rest :=
  splitOn_append_separator single rest

theorem lines_of_not_mem {line : Text} (single : CodePoint.char '\n' ∉ line) : lines line = [line] :=
  splitOn_of_not_mem single

theorem lines_joinLines {parts : List Text} (some : parts ≠ []) (single : ∀ part ∈ parts, CodePoint.char '\n' ∉ part) :
    lines (joinLines parts) = parts :=
  splitOn_joinWith some single

/-- Lines each ended by a line feed split back into the same lines and what follows them. -/
theorem lines_flatMap_append {parts : List Text} (single : ∀ part ∈ parts, CodePoint.char '\n' ∉ part) (rest : Text) :
    lines (parts.flatMap (· ++ [CodePoint.char '\n']) ++ rest) = parts ++ lines rest := by
  induction parts with
  | nil => rfl
  | cons part parts ih =>
    obtain ⟨here, later⟩ := List.forall_mem_cons.mp single
    rw [List.flatMap_cons, List.append_assoc, List.append_assoc, List.singleton_append, lines_append_feed here,
      ih later]
    rfl

theorem mem_of_mem_lines {line : Text} (member : line ∈ lines text) {c : CodePoint} (among : c ∈ line) :
    c ∈ text ∧ c ≠ '\n' :=
  mem_of_mem_splitOn member among

/-- A text in two parts: the last line of the first part goes on in the first line of the second. -/
theorem lines_append {front back : Text} {earlier later : List Text} {last first : Text}
    (ofFront : lines front = earlier ++ [last]) (ofBack : lines back = first :: later) :
    lines (front ++ back) = earlier ++ (last ++ first) :: later := by
  induction front generalizing earlier last with
  | nil =>
    obtain ⟨rfl, rfl⟩ : earlier = [] ∧ last = [] := by
      cases earlier with
      | nil => exact ⟨rfl, (List.singleton_inj.mp ofFront).symm⟩
      | cons _ _ => simp [lines] at ofFront
    exact ofBack
  | cons c front ih =>
    obtain ⟨part, parts, split⟩ := exists_lines_eq_cons front
    by_cases feed : c = '\n'
    · subst feed
      rw [lines_cons_feed, split] at ofFront
      cases earlier with
      | nil => simp at ofFront
      | cons none earlier =>
        obtain ⟨rfl, rest⟩ := List.cons.inj ofFront
        rw [List.cons_append, lines_cons_feed, ih (split.trans rest)]
        rfl
    · rw [lines_cons feed split] at ofFront
      cases earlier with
      | nil =>
        obtain ⟨rfl, rfl⟩ := List.cons.inj ofFront
        exact lines_cons feed (@ih [] part split)
      | cons line earlier =>
        obtain ⟨rfl, rfl⟩ := List.cons.inj ofFront
        exact lines_cons feed (@ih (part :: earlier) _ split)

/-- The lines of a text that are not blank, trimmed. -/
def nonblankLines (text : Text) : List Text := ((lines text).map trim).filter fun line => !line.isEmpty

private theorem nonblank_of_blank {parts : List Text} (blank : ∀ part ∈ parts, ∀ c ∈ part, isBlank c = true) :
    ((parts.map trim).filter fun line => !line.isEmpty) = [] := by
  rw [List.filter_eq_nil_iff]
  intro line member
  obtain ⟨part, among, rfl⟩ := List.mem_map.mp member
  simp [trim_eq_nil (blank part among)]

theorem nonblankLines_blanks_append (blank : ∀ c ∈ blanks, isBlank c = true) :
    nonblankLines (blanks ++ text) = nonblankLines text := by
  obtain ⟨earlier, last, ofFront⟩ := List.eq_nil_or_concat' (lines blanks) |>.resolve_left (splitOn_ne_nil _ _)
  obtain ⟨first, later, ofBack⟩ := exists_lines_eq_cons text
  have inside : ∀ part ∈ lines blanks, ∀ c ∈ part, isBlank c = true :=
    fun part member c among => blank c (mem_of_mem_lines member among).1
  rw [ofFront, List.forall_mem_append, List.forall_mem_singleton] at inside
  rw [nonblankLines, nonblankLines, lines_append ofFront ofBack, ofBack, List.map_append, List.filter_append,
    nonblank_of_blank inside.1, List.map_cons, List.map_cons, trim_blanks_append inside.2, List.nil_append]

theorem nonblankLines_append_blanks (blank : ∀ c ∈ blanks, isBlank c = true) :
    nonblankLines (text ++ blanks) = nonblankLines text := by
  obtain ⟨earlier, last, ofFront⟩ := List.eq_nil_or_concat' (lines text) |>.resolve_left (splitOn_ne_nil _ _)
  obtain ⟨first, later, ofBack⟩ := exists_lines_eq_cons blanks
  have inside : ∀ part ∈ lines blanks, ∀ c ∈ part, isBlank c = true :=
    fun part member c among => blank c (mem_of_mem_lines member among).1
  rw [ofBack, List.forall_mem_cons] at inside
  have same : (earlier ++ [last ++ first]).map trim = (earlier ++ [last]).map trim := by
    simp [trim_append_blanks inside.1]
  -- Only the line in which the text ends goes on, and what it goes on with is trimmed off.
  rw [nonblankLines, nonblankLines, lines_append ofFront ofBack, ofFront, List.append_cons, List.map_append,
    List.filter_append, nonblank_of_blank inside.2, List.append_nil, same]

theorem nonblankLines_trim (text : Text) : nonblankLines (trim text) = nonblankLines text := by
  obtain ⟨before, after, split, front, back, -⟩ := exists_trim_split text
  have around := @nonblankLines_append_blanks (before ++ trim text) after back
  rw [← split, nonblankLines_blanks_append front] at around
  exact around.symm

end ApexComments.Text
