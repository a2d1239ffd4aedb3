import ApexComments.Proofs.Association
import Mathlib.Data.List.Sort

/-!
# The hidden runs of a stream

Three lookups look at the hidden tokens beside a position: to its left, to its right, and back to the significant token
before it. They see one and the same cut of the stream. The run between two significant tokens is that of the second
from its left and that of the first from its right (`leftRun_eq_between`, `rightRun_eq_between`); and the runs with
their tokens, and the run at the end, are the stream (`tokens_eq_interleaved`).
-/
namespace ApexComments.TokenStream

variable {stream : TokenStream} {token previous anchor : Token} {i k : Nat}

/-- The significant tokens, in order. -/
def significant (stream : TokenStream) : List Token := stream.tokens.filter fun token => !token.isHidden

/-- The tokens whose indices lie strictly between two. -/
def between (stream : TokenStream) (low high : Int) : List Token :=
  stream.tokens.filter fun token => decide (low < token.index) && decide (token.index < high)

/-- The tokens that a lookup of a run gives; there are none where it gives no run. -/
def runOf : Except OutOfRange (Option (List Token)) → List Token
  | .ok (some run) => run
  | _ => []

/-- The run after the last significant token; all tokens, where none is significant. -/
def trailingRun (stream : TokenStream) : List Token :=
  match stream.significant.getLast? with
  | some last => runOf (stream.hiddenRight last.index)
  | none => stream.tokens

theorem mem_significant_iff : token ∈ stream.significant ↔ token ∈ stream.tokens ∧ token.isHidden = false := by
  simp [significant]

theorem runOf_hiddenLeft (inside : i < stream.size) : runOf (stream.hiddenLeft i) = stream.leftRun i := by
  rw [hiddenLeft_of_inside inside]
  cases stream.leftRun i <;> rfl

theorem runOf_hiddenRight (inside : i < stream.size) : runOf (stream.hiddenRight i) = stream.rightRun i := by
  rw [hiddenRight_of_inside inside]
  cases stream.rightRun i <;> rfl

theorem lastBefore_of_inside (inside : i < stream.size) : stream.lastBefore i = .ok (stream.significantBefore i) := by
  rw [lastBefore, position_of_inside inside]
  rfl

theorem hiddenRight_of_outside {index : Int} (outside : ¬ (0 ≤ index ∧ index < stream.size)) :
    stream.hiddenRight index = .error ⟨index, stream.size⟩ := by
  rw [hiddenRight, position_of_outside outside]
  rfl

theorem lastBefore_of_outside {index : Int} (outside : ¬ (0 ≤ index ∧ index < stream.size)) :
    stream.lastBefore index = .error ⟨index, stream.size⟩ := by
  rw [lastBefore, position_of_outside outside]
  rfl

/-- A lookup that answers inside the stream, and says outside that it is there, fails exactly outside. -/
theorem eq_error_iff {α : Type} {lookup : Except OutOfRange α} {index : Int} {fault : OutOfRange}
    (answers : ∀ i : Nat, index = i → i < stream.size → ∃ answer, lookup = .ok answer)
    (fails : ¬ (0 ≤ index ∧ index < stream.size) → lookup = .error ⟨index, stream.size⟩) :
    lookup = .error fault ↔ ¬ (0 ≤ index ∧ index < stream.size) ∧ fault = ⟨index, stream.size⟩ := by
  by_cases inside : 0 ≤ index ∧ index < stream.size
  · obtain ⟨answer, found⟩ := answers index.toNat (by omega) (by omega)
    simp [found, inside]
  · simp [fails inside, inside, eq_comm]

/-! ## Runs between significant tokens -/

theorem pairwise_index (stream : TokenStream) :
    stream.tokens.Pairwise fun token later => token.index < later.index := by
  rw [List.pairwise_iff_getElem]
  intro j k first second less
  rw [stream.indexed j first, stream.indexed k second]
  omega

/-- A part of the stream is known by the indices in it. -/
theorem eq_between_of_mem_iff {run : List Token} {low high : Int} (part : run.Sublist stream.tokens)
    (mem : ∀ token, token ∈ run ↔ token ∈ stream.tokens ∧ low < token.index ∧ token.index < high) :
    run = stream.between low high := by
  have irrefl : Std.Irrefl fun token later : Token => token.index < later.index := ⟨fun token => Int.lt_irrefl _⟩
  have antisymm : Std.Antisymm fun token later : Token => token.index < later.index :=
    ⟨fun token later before after => absurd (Int.lt_trans before after) (Int.lt_irrefl _)⟩
  refine List.Pairwise.eq_of_mem_iff (stream.pairwise_index.sublist part)
    (stream.pairwise_index.sublist List.filter_sublist) ?_
  intro token
  rw [mem, between, List.mem_filter]
  simp

theorem leftRun_sublist (stream : TokenStream) (i : Nat) : (stream.leftRun i).Sublist stream.tokens := by
  have taken : ((stream.tokens.take i).reverse.takeWhile Token.isHidden).Sublist (stream.tokens.take i).reverse :=
    List.takeWhile_sublist Token.isHidden
  have reversed := taken.reverse
  rw [List.reverse_reverse] at reversed
  exact reversed.trans (List.take_sublist i stream.tokens)

theorem rightRun_sublist (stream : TokenStream) (i : Nat) : (stream.rightRun i).Sublist stream.tokens :=
  (List.takeWhile_sublist Token.isHidden).trans (List.drop_sublist (i + 1) stream.tokens)

/-- The run before a position reaches back to the significant token before it. -/
theorem leftRun_eq_between (inside : i ≤ stream.size) (found : stream.significantBefore i = some previous) :
    stream.leftRun i = stream.between previous.index i := by
  obtain ⟨isToken, before, shown, hidden⟩ := significantBefore_eq_some found
  refine eq_between_of_mem_iff (leftRun_sublist stream i) ?_
  intro token
  rw [mem_leftRun_iff inside]
  constructor
  · rintro ⟨member, near, allHidden⟩
    refine ⟨member, ?_, near⟩
    by_contra behind
    have previousHidden := allHidden previous isToken (by omega) before
    simp [previousHidden] at shown
  · rintro ⟨member, after, near⟩
    refine ⟨member, near, ?_⟩
    intro other isOther low high
    exact hidden other isOther (by omega) high

/-- Without a significant token before it, all tokens before a position are its run. -/
theorem leftRun_eq_take (none : stream.significantBefore i = none) : stream.leftRun i = stream.tokens.take i := by
  have allHidden : ∀ token ∈ (stream.tokens.take i).reverse, token.isHidden = true := by
    intro token member
    obtain ⟨isToken, before⟩ := mem_take_iff.mp (List.mem_reverse.mp member)
    exact significantBefore_eq_none_iff.mp none token isToken before
  rw [leftRun, List.takeWhile_eq_self_iff.mpr allHidden, List.reverse_reverse]

/-- The run after a significant token goes on to the next one, or to the end. -/
theorem rightRun_eq_between (found : stream.significantBefore i = some previous) (index : previous.index = k)
    (ends : ∀ token ∈ stream.tokens, token.index = i → token.isHidden = false) :
    stream.rightRun k = stream.between previous.index i := by
  obtain ⟨isToken, before, shown, hidden⟩ := significantBefore_eq_some found
  obtain ⟨j, -, inside, isIndex⟩ := exists_index_of_mem isToken
  obtain rfl : k = j := by omega
  refine eq_between_of_mem_iff (rightRun_sublist stream k) ?_
  intro token
  rw [mem_rightRun_iff inside, index]
  constructor
  · rintro ⟨member, after, allHidden⟩
    refine ⟨member, after, ?_⟩
    by_contra beyond
    obtain ⟨_, -, within, itsIndex⟩ := exists_index_of_mem member
    obtain ⟨last, there⟩ : ∃ token, stream.tokens[i]? = some token :=
      ⟨_, List.getElem?_eq_getElem (show i < stream.size by omega)⟩
    have lastIndex := index_of_getElem? there
    have isLast := List.mem_of_getElem? there
    have lastShown := ends last isLast lastIndex
    rw [allHidden last isLast (by omega) (by omega)] at lastShown
    cases lastShown
  · rintro ⟨member, after, near⟩
    refine ⟨member, after, ?_⟩
    intro other isOther low high
    exact hidden other isOther (by omega) (by omega)

theorem getLast?_significant (stream : TokenStream) :
    stream.significant.getLast? = stream.significantBefore stream.size := by
  rw [significant, significantBefore, size, List.take_length, ← List.head?_filter, List.filter_reverse,
    List.head?_reverse]

/-- What follows the last significant token is the run before the end. -/
theorem trailingRun_eq (stream : TokenStream) : stream.trailingRun = stream.leftRun stream.size := by
  rw [trailingRun, getLast?_significant]
  cases found : stream.significantBefore stream.size with
  | none => rw [leftRun_eq_take found, size, List.take_length]
  | some last =>
    obtain ⟨isToken, -⟩ := significantBefore_eq_some found
    obtain ⟨k, -, inside, index⟩ := exists_index_of_mem isToken
    have noneAtEnd : ∀ token ∈ stream.tokens, token.index = stream.size → token.isHidden = false := by
      intro token member atEnd
      obtain ⟨j, -, within, itsIndex⟩ := exists_index_of_mem member
      omega
    simp only [index, runOf_hiddenRight inside]
    rw [leftRun_eq_between (Nat.le_refl _) found, rightRun_eq_between found index noneAtEnd]

/-! ## The stream from its runs -/

theorem leftRun_succ_of_hidden (here : stream.tokens[k]? = some token) (hidden : token.isHidden = true) :
    stream.leftRun (k + 1) = stream.leftRun k ++ [token] := by
  rw [leftRun, reverse_take_succ here, List.takeWhile_cons_of_pos hidden, List.reverse_cons, leftRun]

theorem leftRun_succ_of_significant (here : stream.tokens[k]? = some token) (shown : token.isHidden = false) :
    stream.leftRun (k + 1) = [] := by
  rw [leftRun, reverse_take_succ here, List.takeWhile_cons_of_neg (by simp [shown]), List.reverse_nil]

/-- Up to a position, the significant tokens with the runs before them, and the run before the position, are all
tokens. A hidden token goes on the last run; a significant one ends it. -/
theorem take_eq_interleaved (inside : k ≤ stream.size) :
    stream.tokens.take k =
      ((stream.tokens.take k).filter fun token => !token.isHidden).flatMap
        (fun token => runOf (stream.hiddenLeft token.index) ++ [token]) ++ stream.leftRun k := by
  induction k with
  | zero => rfl
  | succ k ih =>
    obtain ⟨token, here⟩ : ∃ token, stream.tokens[k]? = some token :=
      ⟨_, List.getElem?_eq_getElem (show k < stream.size by omega)⟩
    have taken : stream.tokens.take (k + 1) = stream.tokens.take k ++ [token] := by
      rw [List.take_add_one, here]
      rfl
    have earlier := ih (by omega)
    rw [taken, List.filter_append, List.flatMap_append]
    by_cases hidden : token.isHidden = true
    · rw [leftRun_succ_of_hidden here hidden]
      simp [hidden, ← List.append_assoc, ← earlier]
    · have shown : token.isHidden = false := by simpa using hidden
      have run : runOf (stream.hiddenLeft token.index) = stream.leftRun k := by
        rw [index_of_getElem? here, runOf_hiddenLeft (by omega)]
      rw [leftRun_succ_of_significant here shown]
      simp [shown, run, ← List.append_assoc, ← earlier]

theorem tokens_eq_interleaved (stream : TokenStream) :
    stream.tokens = stream.significant.flatMap (fun token => runOf (stream.hiddenLeft token.index) ++ [token]) ++
      stream.trailingRun := by
  have whole := take_eq_interleaved (Nat.le_refl stream.size)
  rw [size, List.take_length] at whole
  rw [trailingRun_eq]
  exact whole

/-- A significant token keeps what lies before it out of the runs behind it. -/
theorem not_mem_leftRun_of_lt {j : Nat} (inside : j ≤ stream.size) (isAnchor : anchor ∈ stream.significant)
    (index : anchor.index = i) (less : i < j) (before : token.index < i) : token ∉ stream.leftRun j := by
  intro member
  obtain ⟨isToken, shown⟩ := mem_significant_iff.mp isAnchor
  obtain ⟨-, -, hidden⟩ := (mem_leftRun_iff inside).mp member
  have anchorHidden := hidden anchor isToken (by omega) (by omega)
  simp [anchorHidden] at shown

theorem exists_leftRun_of_significant (isAnchor : anchor ∈ stream.significant) :
    ∃ i : Nat, anchor.index = i ∧ i < stream.size ∧ runOf (stream.hiddenLeft anchor.index) = stream.leftRun i := by
  obtain ⟨i, -, inside, index⟩ := exists_index_of_mem (mem_significant_iff.mp isAnchor).1
  exact ⟨i, index, inside, by rw [index, runOf_hiddenLeft inside]⟩

theorem eq_of_mem_runs {other : Token} (isAnchor : anchor ∈ stream.significant) (isOther : other ∈ stream.significant)
    (member : token ∈ runOf (stream.hiddenLeft anchor.index))
    (also : token ∈ runOf (stream.hiddenLeft other.index)) : anchor = other := by
  obtain ⟨i, index, inside, run⟩ := exists_leftRun_of_significant isAnchor
  obtain ⟨j, otherIndex, within, otherRun⟩ := exists_leftRun_of_significant isOther
  rw [run] at member
  rw [otherRun] at also
  have before := ((mem_leftRun_iff (Nat.le_of_lt inside)).mp member).2.1
  have otherBefore := ((mem_leftRun_iff (Nat.le_of_lt within)).mp also).2.1
  rcases Nat.lt_trichotomy i j with less | same | more
  · exact absurd also (not_mem_leftRun_of_lt (Nat.le_of_lt within) isAnchor index less before)
  · exact eq_of_index_eq (mem_significant_iff.mp isAnchor).1 (mem_significant_iff.mp isOther).1 (by omega)
  · exact absurd member (not_mem_leftRun_of_lt (Nat.le_of_lt inside) isOther otherIndex more otherBefore)

theorem not_mem_trailingRun (isAnchor : anchor ∈ stream.significant)
    (member : token ∈ runOf (stream.hiddenLeft anchor.index)) : token ∉ stream.trailingRun := by
  obtain ⟨i, index, inside, run⟩ := exists_leftRun_of_significant isAnchor
  rw [run] at member
  rw [trailingRun_eq]
  exact not_mem_leftRun_of_lt (Nat.le_refl _) isAnchor index inside
    ((mem_leftRun_iff (Nat.le_of_lt inside)).mp member).2.1

/-- A hidden token belongs to one significant token, or to none and to the end. -/
theorem belongs_once (member : token ∈ stream.tokens) (hidden : token.isHidden = true) :
    ((∃! anchor, anchor ∈ stream.significant ∧ token ∈ runOf (stream.hiddenLeft anchor.index)) ∧
        token ∉ stream.trailingRun) ∨
      (token ∈ stream.trailingRun ∧ ∀ anchor ∈ stream.significant, token ∉ runOf (stream.hiddenLeft anchor.index)) := by
  have placed := member
  rw [tokens_eq_interleaved stream, List.mem_append, List.mem_flatMap] at placed
  rcases placed with ⟨anchor, isAnchor, inRun⟩ | trails
  · have run : token ∈ runOf (stream.hiddenLeft anchor.index) := by
      rcases List.mem_append.mp inRun with inside | single
      · exact inside
      · have shown := (mem_significant_iff.mp isAnchor).2
        rw [← List.mem_singleton.mp single, hidden] at shown
        cases shown
    refine .inl ⟨⟨anchor, ⟨isAnchor, run⟩, ?_⟩, not_mem_trailingRun isAnchor run⟩
    rintro other ⟨isOther, also⟩
    exact eq_of_mem_runs isOther isAnchor also run
  · exact .inr ⟨trails, fun anchor isAnchor inRun => not_mem_trailingRun isAnchor inRun trails⟩

/-- The three lookups see one cut of the stream. The run to the left of a significant token is that to the right of the
significant token before it, and holds all tokens between the two; without a token before it, all up to there. Each
hidden token is in one such run or in the run at the end, and the runs between the significant tokens give back the
stream. No lookup fails but outside the stream. -/
theorem runs_partition (stream : TokenStream) :
    (∀ (i : Int) (anchor : Token), stream.get i = .ok anchor → anchor.isHidden = false →
      (∀ previous, stream.lastBefore i = .ok (some previous) →
        previous ∈ stream.significant ∧ previous.index < i ∧
        stream.hiddenLeft i = .ok (someRun (stream.between previous.index i)) ∧
        stream.hiddenRight previous.index = .ok (someRun (stream.between previous.index i))) ∧
      (stream.lastBefore i = .ok none → stream.hiddenLeft i = .ok (someRun (stream.tokens.take i.toNat)))) ∧
    (∀ token ∈ stream.tokens, token.isHidden = true →
      ((∃! anchor, anchor ∈ stream.significant ∧ token ∈ runOf (stream.hiddenLeft anchor.index)) ∧
          token ∉ stream.trailingRun) ∨
        (token ∈ stream.trailingRun ∧
          ∀ anchor ∈ stream.significant, token ∉ runOf (stream.hiddenLeft anchor.index))) ∧
    stream.tokens = stream.significant.flatMap (fun token => runOf (stream.hiddenLeft token.index) ++ [token]) ++
      stream.trailingRun ∧
    ∀ (i : Int) (fault : OutOfRange),
      (stream.hiddenLeft i = .error fault ↔ ¬ (0 ≤ i ∧ i < stream.size) ∧ fault = ⟨i, stream.size⟩) ∧
      (stream.hiddenRight i = .error fault ↔ ¬ (0 ≤ i ∧ i < stream.size) ∧ fault = ⟨i, stream.size⟩) ∧
      (stream.lastBefore i = .error fault ↔ ¬ (0 ≤ i ∧ i < stream.size) ∧ fault = ⟨i, stream.size⟩) := by
  refine ⟨?_, fun token => belongs_once, tokens_eq_interleaved stream, ?_⟩
  · intro i anchor got shown
    obtain ⟨member, rfl⟩ := get_eq_ok_iff.mp got
    obtain ⟨k, -, inside, index⟩ := exists_index_of_mem member
    rw [index, lastBefore_of_inside inside, hiddenLeft_of_inside inside]
    refine ⟨?_, ?_⟩
    · intro previous answer
      have found := Except.ok.inj answer
      obtain ⟨isToken, before, significant, -⟩ := significantBefore_eq_some found
      obtain ⟨j, -, within, itsIndex⟩ := exists_index_of_mem isToken
      have ends : ∀ token ∈ stream.tokens, token.index = k → token.isHidden = false := by
        intro token isOther same
        rw [eq_of_index_eq isOther member (by omega)]
        exact shown
      refine ⟨mem_significant_iff.mpr ⟨isToken, significant⟩, before, ?_, ?_⟩
      · rw [leftRun_eq_between (Nat.le_of_lt inside) found]
      · rw [← rightRun_eq_between found itsIndex ends, itsIndex, hiddenRight_of_inside within]
    · intro answer
      rw [leftRun_eq_take (Except.ok.inj answer), Int.toNat_natCast]
  · intro i fault
    refine ⟨eq_error_iff ?_ hiddenLeft_of_outside, eq_error_iff ?_ hiddenRight_of_outside,
      eq_error_iff ?_ lastBefore_of_outside⟩
    · rintro k rfl inside
      exact ⟨_, hiddenLeft_of_inside inside⟩
    · rintro k rfl inside
      exact ⟨_, hiddenRight_of_inside inside⟩
    · rintro k rfl inside
      exact ⟨_, lastBefore_of_inside inside⟩

/-- A comment, a word and a semicolon side by side, two hidden tokens, a bracket, and a blank at the end. -/
private def scattered : TokenStream where
  tokens := [⟨['/', '/'], 0, 1, 0, 1, "line_comment", 0⟩, ⟨['a'], 1, 2, 0, 0, "identifier", 3⟩,
    ⟨[';'], 2, 2, 1, 0, ";", 4⟩, ⟨[' '], 3, 2, 2, 1, "whitespace", 5⟩,
    ⟨['/', '*', '*', '/'], 4, 2, 3, 1, "block_comment", 6⟩, ⟨['('], 5, 2, 7, 0, "(", 10⟩,
    ⟨[' '], 6, 2, 8, 1, "whitespace", 11⟩]
  indexed := by decide

/-- The bracket sees the two hidden tokens that the semicolon sees behind it; the semicolon sees none before it, and the
word sees the comment at the start. The comment between belongs to the bracket alone, the last blank to the end. -/
theorem runs_partition_scattered :
    (scattered.hiddenLeft 5 = .ok (some [⟨[' '], 3, 2, 2, 1, "whitespace", 5⟩,
        ⟨['/', '*', '*', '/'], 4, 2, 3, 1, "block_comment", 6⟩]) ∧
      scattered.hiddenRight 2 = scattered.hiddenLeft 5) ∧
    scattered.hiddenLeft 2 = .ok none ∧
    scattered.hiddenLeft 1 = .ok (some [⟨['/', '/'], 0, 1, 0, 1, "line_comment", 0⟩]) ∧
    (∃! anchor, anchor ∈ scattered.significant ∧
      ⟨['/', '*', '*', '/'], 4, 2, 3, 1, "block_comment", 6⟩ ∈ runOf (scattered.hiddenLeft anchor.index)) ∧
    ⟨[' '], 6, 2, 8, 1, "whitespace", 11⟩ ∈ scattered.trailingRun := by
  obtain ⟨lookups, belongs, -, -⟩ := runs_partition scattered
  obtain ⟨-, -, left, right⟩ := (lookups 5 ⟨['('], 5, 2, 7, 0, "(", 10⟩ rfl rfl).1 ⟨[';'], 2, 2, 1, 0, ";", 4⟩ rfl
  obtain ⟨-, -, beside, -⟩ := (lookups 2 ⟨[';'], 2, 2, 1, 0, ";", 4⟩ rfl rfl).1 ⟨['a'], 1, 2, 0, 0, "identifier", 3⟩ rfl
  have first := (lookups 1 ⟨['a'], 1, 2, 0, 0, "identifier", 3⟩ rfl rfl).2 rfl
  refine ⟨⟨left, right.trans left.symm⟩, beside, first, ?_, ?_⟩
  · rcases belongs ⟨['/', '*', '*', '/'], 4, 2, 3, 1, "block_comment", 6⟩ (by decide) rfl with ⟨once, -⟩ | ⟨trails, -⟩
    · exact once
    · exact absurd trails (by decide)
  · rcases belongs ⟨[' '], 6, 2, 8, 1, "whitespace", 11⟩ (by decide) rfl with
      ⟨⟨anchor, ⟨isAnchor, inRun⟩, -⟩, -⟩ | ⟨trails, -⟩
    · revert anchor
      decide
    · exact trails

end ApexComments.TokenStream
