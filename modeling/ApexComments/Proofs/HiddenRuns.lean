import ApexComments.Token.Stream
import Mathlib.Data.List.Basic
import Mathlib.Data.List.TakeWhile

/-!
# Runs of hidden tokens

The tokens of a stream are named by their indices. A run is the longest stretch of hidden tokens that
ends before a position, or starts after one: a token belongs to it where nothing but hidden tokens
lies between the two (`mem_leftRun_iff`, `mem_rightRun_iff`).
-/
namespace ApexComments.TokenStream

variable {stream : TokenStream}

/-! ## Tokens by index -/

theorem index_of_getElem? {k : Nat} {token : Token} (here : stream.tokens[k]? = some token) :
    token.index = k := by
  obtain ⟨inside, rfl⟩ := List.getElem?_eq_some_iff.mp here
  exact stream.indexed k inside

theorem exists_index_of_mem {token : Token} (member : token ∈ stream.tokens) :
    ∃ k : Nat, stream.tokens[k]? = some token ∧ k < stream.size ∧ token.index = k := by
  obtain ⟨k, here⟩ := List.getElem?_of_mem member
  exact ⟨k, here, (List.getElem?_eq_some_iff.mp here).1, index_of_getElem? here⟩

/-- Two tokens of one index are the same token. -/
theorem eq_of_index_eq {token other : Token} (member : token ∈ stream.tokens) (also : other ∈ stream.tokens)
    (same : token.index = other.index) : token = other := by
  obtain ⟨k, here, -, index⟩ := exists_index_of_mem member
  obtain ⟨j, there, -, otherIndex⟩ := exists_index_of_mem also
  obtain rfl : k = j := by omega
  exact Option.some.inj (here.symm.trans there)

/-- The tokens between two parts of a stream are those whose indices lie between. -/
theorem mem_middle_iff {front middle back : List Token} (whole : stream.tokens = front ++ middle ++ back)
    {token : Token} :
    token ∈ middle ↔ token ∈ stream.tokens ∧ (front.length : Int) ≤ token.index ∧
      token.index < (front.length + middle.length : Nat) := by
  constructor
  · intro member
    obtain ⟨k, here⟩ := List.getElem?_of_mem member
    obtain ⟨inside, -⟩ := List.getElem?_eq_some_iff.mp here
    have there : stream.tokens[front.length + k]? = some token := by
      rw [whole, List.append_assoc, List.getElem?_append_right (by omega), Nat.add_sub_cancel_left,
        List.getElem?_append_left inside, here]
    have index := index_of_getElem? there
    exact ⟨List.mem_of_getElem? there, by omega, by omega⟩
  · rintro ⟨member, low, high⟩
    obtain ⟨k, here, -, index⟩ := exists_index_of_mem member
    rw [whole, List.append_assoc, List.getElem?_append_right (by omega),
      List.getElem?_append_left (by omega)] at here
    exact List.mem_of_getElem? here

theorem reverse_take_succ {k : Nat} {token : Token} (here : stream.tokens[k]? = some token) :
    (stream.tokens.take (k + 1)).reverse = token :: (stream.tokens.take k).reverse := by
  rw [List.take_add_one, here]
  simp

/-! ## The run before a position -/

private theorem leftRun_split (stream : TokenStream) (i : Nat) :
    ∃ front, stream.tokens = front ++ stream.leftRun i ++ stream.tokens.drop i ∧
      ∀ token ∈ front.getLast?, token.isHidden = false := by
  refine ⟨((stream.tokens.take i).reverse.dropWhile Token.isHidden).reverse, ?_, ?_⟩
  · rw [leftRun, ← List.reverse_append, List.takeWhile_append_dropWhile, List.reverse_reverse,
      List.take_append_drop]
  · intro token last
    rw [List.getLast?_reverse, Option.mem_def] at last
    have stopped := List.head?_dropWhile_not Token.isHidden (stream.tokens.take i).reverse
    rw [last] at stopped
    exact stopped

theorem isHidden_of_mem_leftRun {i : Nat} {token : Token} (member : token ∈ stream.leftRun i) :
    token.isHidden = true :=
  List.mem_takeWhile_imp (List.mem_reverse.mp member)

theorem mem_leftRun_iff {i : Nat} (inside : i ≤ stream.size) {token : Token} :
    token ∈ stream.leftRun i ↔ token ∈ stream.tokens ∧ token.index < i ∧
      ∀ other ∈ stream.tokens, token.index ≤ other.index → other.index < i → other.isHidden = true := by
  obtain ⟨front, whole, edge⟩ := leftRun_split stream i
  have length : front.length + (stream.leftRun i).length = i := by
    have total := congrArg List.length whole
    simp only [List.length_append, List.length_drop] at total
    rw [size] at inside
    omega
  rw [mem_middle_iff whole, length]
  constructor
  · rintro ⟨member, low, high⟩
    refine ⟨member, high, ?_⟩
    intro other among after before
    exact isHidden_of_mem_leftRun ((mem_middle_iff whole).mpr ⟨among, by omega, by omega⟩)
  · rintro ⟨member, high, between⟩
    refine ⟨member, ?_, high⟩
    by_contra beyond
    -- The last token in front of the run would lie between the token and the position.
    obtain ⟨start, last, rfl⟩ : ∃ start last, front = start ++ [last] := by
      rcases List.eq_nil_or_concat' front with rfl | split
      · obtain ⟨k, -, -, index⟩ := exists_index_of_mem member
        simp at beyond
        omega
      · exact split
    have here : stream.tokens[start.length]? = some last := by
      rw [whole]
      simp
    have index := index_of_getElem? here
    have shown := edge last (by simp)
    have hidden := between last (List.mem_of_getElem? here) (by simp at beyond; omega) (by simp at length; omega)
    simp [hidden] at shown

/-! ## The run after a position -/

private theorem rightRun_split (stream : TokenStream) (i : Nat) :
    ∃ back, stream.tokens = stream.tokens.take (i + 1) ++ stream.rightRun i ++ back ∧
      ∀ token ∈ back.head?, token.isHidden = false := by
  refine ⟨(stream.tokens.drop (i + 1)).dropWhile Token.isHidden, ?_, ?_⟩
  · rw [rightRun, List.append_assoc, List.takeWhile_append_dropWhile, List.take_append_drop]
  · intro token first
    rw [Option.mem_def] at first
    have stopped := List.head?_dropWhile_not Token.isHidden (stream.tokens.drop (i + 1))
    rw [first] at stopped
    exact stopped

theorem isHidden_of_mem_rightRun {i : Nat} {token : Token} (member : token ∈ stream.rightRun i) :
    token.isHidden = true :=
  List.mem_takeWhile_imp member

theorem mem_rightRun_iff {i : Nat} (inside : i < stream.size) {token : Token} :
    token ∈ stream.rightRun i ↔ token ∈ stream.tokens ∧ i < token.index ∧
      ∀ other ∈ stream.tokens, i < other.index → other.index ≤ token.index → other.isHidden = true := by
  obtain ⟨back, whole, edge⟩ := rightRun_split stream i
  have length : (stream.tokens.take (i + 1)).length = i + 1 := by
    rw [List.length_take]
    rw [size] at inside
    omega
  rw [mem_middle_iff whole, length]
  constructor
  · rintro ⟨member, low, high⟩
    refine ⟨member, by omega, ?_⟩
    intro other among after before
    exact isHidden_of_mem_rightRun ((mem_middle_iff whole).mpr ⟨among, by omega, by omega⟩)
  · rintro ⟨member, low, between⟩
    refine ⟨member, by omega, ?_⟩
    by_contra beyond
    -- The first token behind the run would lie between the position and the token.
    obtain ⟨k, -, within, index⟩ := exists_index_of_mem member
    obtain ⟨first, rest, rfl⟩ : ∃ first rest, back = first :: rest := by
      refine List.exists_cons_of_length_pos ?_
      have total := congrArg List.length whole
      simp only [List.length_append, length] at total
      rw [size] at within
      omega
    have here : stream.tokens[i + 1 + (stream.rightRun i).length]? = some first := by
      rw [whole, List.getElem?_append_right (by simp [length])]
      simp [length]
    have firstIndex := index_of_getElem? here
    have shown := edge first rfl
    have hidden := between first (List.mem_of_getElem? here) (by omega) (by omega)
    simp [hidden] at shown

/-! ## The significant token before a position -/

theorem mem_take_iff {i : Nat} {token : Token} :
    token ∈ stream.tokens.take i ↔ token ∈ stream.tokens ∧ token.index < i := by
  have whole : stream.tokens = [] ++ stream.tokens.take i ++ stream.tokens.drop i := by simp
  rw [mem_middle_iff whole]
  simp only [List.length_nil, List.length_take, Nat.zero_add]
  constructor
  · rintro ⟨member, -, high⟩
    exact ⟨member, by omega⟩
  · rintro ⟨member, high⟩
    obtain ⟨k, -, inside, index⟩ := exists_index_of_mem member
    rw [size] at inside
    exact ⟨member, by omega, by omega⟩

theorem significantBefore_eq_none_iff {i : Nat} :
    stream.significantBefore i = none ↔ ∀ token ∈ stream.tokens, token.index < i → token.isHidden = true := by
  simp only [significantBefore, List.find?_eq_none, List.mem_reverse, mem_take_iff, Bool.not_eq_true',
    Bool.not_eq_false, and_imp]

/-- The significant token before a position: only hidden tokens follow it up to there. -/
theorem significantBefore_eq_some {i : Nat} {token : Token} (found : stream.significantBefore i = some token) :
    token ∈ stream.tokens ∧ token.index < i ∧ token.isHidden = false ∧
      ∀ other ∈ stream.tokens, token.index < other.index → other.index < i → other.isHidden = true := by
  obtain ⟨shown, after, before, split, hidden⟩ := List.find?_eq_some_iff_append.mp found
  have taken : stream.tokens.take i = before.reverse ++ token :: after.reverse := by
    have reversed := congrArg List.reverse split
    simpa using reversed
  have here : stream.tokens[before.length]? = some token := by
    rw [← List.take_append_drop i stream.tokens, taken]
    simp
  have index := index_of_getElem? here
  obtain ⟨member, near⟩ := mem_take_iff.mp (show token ∈ stream.tokens.take i by simp [taken])
  refine ⟨member, near, by simpa using shown, ?_⟩
  intro other isToken low high
  have among := mem_take_iff.mpr ⟨isToken, high⟩
  rw [taken, List.mem_append, List.mem_cons] at among
  rcases among with earlier | rfl | later
  · have whole : stream.tokens = [] ++ before.reverse ++ (token :: after.reverse ++ stream.tokens.drop i) := by
      rw [List.nil_append, ← List.append_assoc, ← taken, List.take_append_drop]
    have behind := ((mem_middle_iff whole).mp earlier).2.2
    simp only [List.length_nil, List.length_reverse, Nat.zero_add] at behind
    omega
  · omega
  · simpa using hidden other (List.mem_reverse.mp later)

end ApexComments.TokenStream
