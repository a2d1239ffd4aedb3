import ApexComments.Proofs.HiddenRuns
import ApexComments.Token.Lookup

/-!
# The comment attached to a token

The lookup joins the hidden run left of an anchor with the one right of the token before the anchor
and takes the documentation comment of greatest index. Before a significant anchor the second run is
empty, so the nearest documentation comment of the run before it is found; at a hidden anchor the two
runs together are the run that the anchor lies in (`mem_candidates_iff`).
-/
namespace ApexComments

open HiddenTokens

/-! ## The latest of several tokens -/

theorem HiddenTokens.latest?_eq_none_iff {tokens : List Token} : latest? tokens = none ↔ tokens = [] := by
  cases tokens with
  | nil => simp [latest?]
  | cons token rest =>
    rw [latest?]
    split
    · simp
    · split <;> simp

/-- The latest token is one of the tokens, and none has a greater index. -/
theorem HiddenTokens.latest?_eq_some {tokens : List Token} {token : Token} (found : latest? tokens = some token) :
    token ∈ tokens ∧ ∀ other ∈ tokens, other.index ≤ token.index := by
  induction tokens generalizing token with
  | nil => simp [latest?] at found
  | cons first rest ih =>
    rw [latest?] at found
    split at found
    · next none_later =>
      obtain rfl := Option.some.inj found
      obtain rfl := latest?_eq_none_iff.mp none_later
      simp
    · next later latest =>
      obtain ⟨among, greatest⟩ := ih latest
      split at found
      · next less =>
        obtain rfl := Option.some.inj found
        refine ⟨List.mem_cons_of_mem first among, ?_⟩
        intro other member
        rcases List.mem_cons.mp member with rfl | after
        · omega
        · exact greatest other after
      · next notLess =>
        obtain rfl := Option.some.inj found
        refine ⟨List.mem_cons_self, ?_⟩
        intro other member
        rcases List.mem_cons.mp member with rfl | after
        · exact Int.le_refl _
        · have := greatest other after
          omega

theorem HiddenTokens.readable_map_some (tokens : List Token) : readable (tokens.map some) = .ok tokens := by
  induction tokens with
  | nil => rfl
  | cons token rest ih => simp [readable, ih, Except.map]

/-- What a lookup gives is taken from the comment found. -/
theorem HiddenTokens.orAbsent_eq_some {α : Type} {what : Text} {anchor : Int}
    {answer : Except LookupError (Option Token)} {read : Token → α} {value : α}
    (given : (orAbsent what anchor (answer.map (·.map read))).value = some value) :
    ∃ token, answer = .ok (some token) ∧ value = read token := by
  cases answer with
  | error fault => simp [Except.map, orAbsent] at given
  | ok found =>
    cases found with
    | none => simp [Except.map, orAbsent, Logged.quiet] at given
    | some token =>
      refine ⟨token, rfl, ?_⟩
      simpa [Except.map, orAbsent, Logged.quiet] using given.symm

/-! ## The candidates of an anchor -/

namespace TokenStream

/-- The hidden tokens among which the comment of an anchor is looked for. -/
def candidates (stream : TokenStream) (i : Nat) : List Token :=
  stream.leftRun i ++ if 0 < i then stream.rightRun (i - 1) else []

variable {stream : TokenStream}

theorem position_of_inside {i : Nat} (inside : i < stream.size) : stream.position i = .ok ⟨i, inside⟩ := by
  rw [position, dif_pos (by omega)]
  rfl

theorem position_of_outside {i : Int} (outside : ¬ (0 ≤ i ∧ i < stream.size)) :
    stream.position i = .error ⟨i, stream.size⟩ := by
  rw [position, dif_neg outside]

theorem hiddenLeft_of_inside {i : Nat} (inside : i < stream.size) :
    stream.hiddenLeft i = .ok (someRun (stream.leftRun i)) := by
  rw [hiddenLeft, position_of_inside inside]
  rfl

theorem hiddenRight_of_inside {i : Nat} (inside : i < stream.size) :
    stream.hiddenRight i = .ok (someRun (stream.rightRun i)) := by
  rw [hiddenRight, position_of_inside inside]
  rfl

theorem hiddenLeft_of_outside {i : Int} (outside : ¬ (0 ≤ i ∧ i < stream.size)) :
    stream.hiddenLeft i = .error ⟨i, stream.size⟩ := by
  rw [hiddenLeft, position_of_outside outside]
  rfl

theorem getD_someRun (run : List Token) : (someRun run).getD [] = run := by
  cases run <;> rfl

private theorem hiddenTokens_left {i : Nat} (inside : i < stream.size) :
    stream.hiddenTokens.left i = .ok ((stream.leftRun i).map some) := by
  simp only [hiddenTokens, hiddenLeft_of_inside inside, getD_someRun]

private theorem hiddenTokens_right {i : Nat} (inside : i < stream.size) :
    stream.hiddenTokens.right i = .ok ((stream.rightRun i).map some) := by
  simp only [hiddenTokens, hiddenRight_of_inside inside, getD_someRun]

/-- A lookup inside the stream gives the latest documentation comment among the candidates. -/
theorem nearestDoc_of_inside {i : Nat} (inside : i < stream.size) :
    stream.hiddenTokens.nearestDoc i =
      .ok (latest? ((stream.candidates i).filter fun token => Comment.isDoc token.text)) := by
  have found : stream.hiddenTokens.candidates i = .ok ((stream.candidates i).map some) := by
    rw [HiddenTokens.candidates, hiddenTokens_left inside, candidates]
    by_cases positive : 0 < i
    · have before : ((i : Int) - 1) = (i - 1 : Nat) := by omega
      simp only [before, hiddenTokens_right (show i - 1 < stream.size by omega), positive, if_true,
        Int.natCast_pos, List.map_append]
    · simp [positive]
  rw [nearestDoc, found]
  simp only [readable_map_some, Except.map]

theorem nearestDoc_of_outside {i : Int} (outside : ¬ (0 ≤ i ∧ i < stream.size)) :
    stream.hiddenTokens.nearestDoc i = .error (.outOfRange ⟨i, stream.size⟩) := by
  simp only [nearestDoc, HiddenTokens.candidates, hiddenTokens, hiddenLeft_of_outside outside]

/-- The run that ends right before an index: nothing but hidden tokens lies from the token up to the
index. -/
def RunBefore (stream : TokenStream) (i : Int) (token : Token) : Prop :=
  token ∈ stream.tokens ∧ token.index < i ∧
    ∀ other ∈ stream.tokens, token.index ≤ other.index → other.index < i → other.isHidden = true

/-- The run in which an index lies: nothing but hidden tokens lies between the token and the index,
both included. -/
def RunAround (stream : TokenStream) (i : Int) (token : Token) : Prop :=
  token ∈ stream.tokens ∧
    ∀ other ∈ stream.tokens, min i token.index ≤ other.index → other.index ≤ max i token.index →
      other.isHidden = true

theorem mem_tokens_of_mem_candidates {i : Nat} (inside : i < stream.size) {token : Token}
    (member : token ∈ stream.candidates i) : token ∈ stream.tokens := by
  rcases List.mem_append.mp member with left | right
  · exact ((mem_leftRun_iff (Nat.le_of_lt inside)).mp left).1
  · split at right
    · exact ((mem_rightRun_iff (show i - 1 < stream.size by omega)).mp right).1
    · simp at right

/-- Right of the token before a significant anchor there is no hidden token. -/
theorem rightRun_eq_nil {i : Nat} (positive : 0 < i) (inside : i < stream.size) {anchor : Token}
    (member : anchor ∈ stream.tokens) (index : anchor.index = i) (shown : anchor.isHidden = false) :
    stream.rightRun (i - 1) = [] := by
  rw [List.eq_nil_iff_forall_not_mem]
  intro token isRight
  obtain ⟨-, after, between⟩ := (mem_rightRun_iff (show i - 1 < stream.size by omega)).mp isRight
  have hidden := between anchor member (by omega) (by omega)
  simp [hidden] at shown

theorem mem_candidates_of_significant {i : Nat} (inside : i < stream.size) {anchor : Token}
    (member : anchor ∈ stream.tokens) (index : anchor.index = i) (shown : anchor.isHidden = false) {token : Token} :
    token ∈ stream.candidates i ↔ stream.RunBefore i token := by
  have onlyLeft : stream.candidates i = stream.leftRun i := by
    rw [candidates]
    split
    · next positive => rw [rightRun_eq_nil positive inside member index shown, List.append_nil]
    · rw [List.append_nil]
  rw [onlyLeft]
  exact mem_leftRun_iff (Nat.le_of_lt inside)

theorem mem_candidates_of_hidden {i : Nat} (positive : 0 < i) (inside : i < stream.size) {anchor : Token}
    (member : anchor ∈ stream.tokens) (index : anchor.index = i) (hidden : anchor.isHidden = true) {token : Token} :
    token ∈ stream.candidates i ↔ stream.RunAround i token := by
  rw [candidates, if_pos positive, List.mem_append, mem_leftRun_iff (Nat.le_of_lt inside),
    mem_rightRun_iff (show i - 1 < stream.size by omega)]
  constructor
  · rintro (⟨among, before, between⟩ | ⟨among, after, between⟩)
    · refine ⟨among, ?_⟩
      intro other isToken low high
      by_cases here : other.index = i
      · rw [eq_of_index_eq isToken member (by omega)]
        exact hidden
      · exact between other isToken (by omega) (by omega)
    · refine ⟨among, ?_⟩
      intro other isToken low high
      exact between other isToken (by omega) (by omega)
  · rintro ⟨among, between⟩
    by_cases before : token.index < i
    · refine .inl ⟨among, before, ?_⟩
      intro other isToken low high
      exact between other isToken (by omega) (by omega)
    · refine .inr ⟨among, by omega, ?_⟩
      intro other isToken low high
      exact between other isToken (by omega) (by omega)

/-! ## What a lookup finds -/

theorem nearestDoc_eq_some_iff {i : Nat} (inside : i < stream.size) {doc : Token} :
    stream.hiddenTokens.nearestDoc i = .ok (some doc) ↔
      doc ∈ stream.candidates i ∧ Comment.isDoc doc.text = true ∧
        ∀ other ∈ stream.candidates i, Comment.isDoc other.text = true → other.index ≤ doc.index := by
  rw [nearestDoc_of_inside inside]
  constructor
  · intro found
    obtain ⟨member, greatest⟩ := latest?_eq_some (Except.ok.inj found)
    obtain ⟨candidate, isDoc⟩ := List.mem_filter.mp member
    refine ⟨candidate, isDoc, ?_⟩
    intro other among alsoDoc
    exact greatest other (List.mem_filter.mpr ⟨among, alsoDoc⟩)
  · rintro ⟨candidate, isDoc, greatest⟩
    have member : doc ∈ (stream.candidates i).filter fun token => Comment.isDoc token.text :=
      List.mem_filter.mpr ⟨candidate, isDoc⟩
    cases found : latest? ((stream.candidates i).filter fun token => Comment.isDoc token.text) with
    | none =>
      rw [latest?_eq_none_iff.mp found] at member
      simp at member
    | some latest =>
      obtain ⟨isCandidate, latestGreatest⟩ := latest?_eq_some found
      obtain ⟨among, alsoDoc⟩ := List.mem_filter.mp isCandidate
      have low := greatest latest among alsoDoc
      have high := latestGreatest doc member
      rw [eq_of_index_eq (mem_tokens_of_mem_candidates inside among)
        (mem_tokens_of_mem_candidates inside candidate) (by omega)]

theorem nearestDoc_eq_none_iff {i : Nat} (inside : i < stream.size) :
    stream.hiddenTokens.nearestDoc i = .ok none ↔
      ∀ token ∈ stream.candidates i, Comment.isDoc token.text = false := by
  rw [nearestDoc_of_inside inside, Except.ok.injEq, latest?_eq_none_iff, List.filter_eq_nil_iff]
  simp only [Bool.not_eq_true]

theorem mem_tokens_of_nearestDoc {i : Int} {doc : Token}
    (found : stream.hiddenTokens.nearestDoc i = .ok (some doc)) : doc ∈ stream.tokens := by
  by_cases inside : 0 ≤ i ∧ i < stream.size
  · obtain ⟨k, rfl⟩ := Int.eq_ofNat_of_zero_le inside.1
    have within : k < stream.size := by omega
    exact mem_tokens_of_mem_candidates within ((nearestDoc_eq_some_iff within).mp found).1
  · rw [nearestDoc_of_outside inside] at found
    cases found

theorem get_eq_ok_iff {i : Int} {token : Token} :
    stream.get i = .ok token ↔ token ∈ stream.tokens ∧ token.index = i := by
  constructor
  · intro got
    by_cases inside : 0 ≤ i ∧ i < stream.size
    · obtain ⟨k, rfl⟩ := Int.eq_ofNat_of_zero_le inside.1
      have within : k < stream.size := by omega
      rw [get, position_of_inside within] at got
      obtain rfl := Except.ok.inj got
      exact ⟨List.getElem_mem within, stream.indexed k within⟩
    · rw [get, position_of_outside inside] at got
      cases got
  · rintro ⟨member, rfl⟩
    obtain ⟨k, here, within, index⟩ := exists_index_of_mem member
    rw [index, get, position_of_inside within]
    obtain ⟨inside, rfl⟩ := List.getElem?_eq_some_iff.mp here
    rfl

theorem runBefore_of_nearestDoc {stream : TokenStream} {i : Nat} {anchor doc : Token}
    (got : stream.get i = .ok anchor) (shown : anchor.isHidden = false)
    (found : stream.hiddenTokens.nearestDoc i = .ok (some doc)) : stream.RunBefore i doc := by
  obtain ⟨member, index⟩ := get_eq_ok_iff.mp got
  obtain ⟨k, -, inside, isIndex⟩ := exists_index_of_mem member
  obtain rfl : i = k := by omega
  exact (mem_candidates_of_significant inside member index shown).mp ((nearestDoc_eq_some_iff inside).mp found).1

/-- The hidden run around an index is the run before the next significant token. -/
theorem runAround_iff_runBefore {i : Int} {next : Token} (member : next ∈ stream.tokens)
    (shown : next.isHidden = false) (after : i < next.index)
    (first : ∀ other ∈ stream.tokens, i ≤ other.index → other.index < next.index → other.isHidden = true)
    {token : Token} : stream.RunAround i token ↔ stream.RunBefore next.index token := by
  constructor
  · rintro ⟨among, between⟩
    have before : token.index < next.index := by
      by_contra beyond
      have hidden := between next member (by omega) (by omega)
      simp [hidden] at shown
    refine ⟨among, before, ?_⟩
    intro other isToken low high
    by_cases near : other.index ≤ max i token.index
    · exact between other isToken (by omega) near
    · exact first other isToken (by omega) high
  · rintro ⟨among, before, between⟩
    refine ⟨among, ?_⟩
    intro other isToken low high
    by_cases here : i ≤ other.index
    · exact first other isToken here (by omega)
    · exact between other isToken (by omega) (by omega)

theorem nearestDoc_eq_error_iff {i : Int} {fault : LookupError} :
    stream.hiddenTokens.nearestDoc i = .error fault ↔
      ¬ (0 ≤ i ∧ i < stream.size) ∧ fault = .outOfRange ⟨i, stream.size⟩ := by
  by_cases inside : 0 ≤ i ∧ i < stream.size
  · obtain ⟨k, rfl⟩ := Int.eq_ofNat_of_zero_le inside.1
    rw [nearestDoc_of_inside (show k < stream.size by omega)]
    simp [inside]
  · rw [nearestDoc_of_outside inside]
    simp [inside, eq_comm]

/-- The last documentation comment of the run before an index is the nearest one: only hidden tokens
that are no documentation comments follow it. -/
theorem lastDoc_runBefore_iff {i : Int} {doc : Token} :
    (stream.RunBefore i doc ∧ Comment.isDoc doc.text = true ∧
      ∀ other, stream.RunBefore i other → Comment.isDoc other.text = true → other.index ≤ doc.index) ↔
    doc ∈ stream.tokens ∧ doc.index < i ∧ Comment.isDoc doc.text = true ∧ doc.isHidden = true ∧
      ∀ other ∈ stream.tokens, doc.index < other.index → other.index < i →
        other.isHidden = true ∧ Comment.isDoc other.text = false := by
  constructor
  · rintro ⟨⟨member, before, between⟩, isDoc, last⟩
    refine ⟨member, before, isDoc, between doc member (by omega) before, ?_⟩
    intro other isToken after near
    refine ⟨between other isToken (by omega) near, ?_⟩
    by_contra alsoDoc
    have run : stream.RunBefore i other :=
      ⟨isToken, near, fun third among low high => between third among (by omega) high⟩
    have := last other run (by simpa using alsoDoc)
    omega
  · rintro ⟨member, before, isDoc, hidden, nearest⟩
    refine ⟨⟨member, before, ?_⟩, isDoc, ?_⟩
    · intro other isToken low high
      by_cases same : doc.index = other.index
      · rw [← eq_of_index_eq member isToken same]
        exact hidden
      · exact (nearest other isToken (by omega) high).1
    · rintro other ⟨isToken, near, -⟩ alsoDoc
      by_contra beyond
      have noDoc := (nearest other isToken (by omega) near).2
      simp [alsoDoc] at noDoc

/-- Lookups with the same candidates find the same. -/
private theorem nearestDoc_congr {i j : Nat} (inside : i < stream.size) (also : j < stream.size)
    (same : ∀ token, token ∈ stream.candidates i ↔ token ∈ stream.candidates j) :
    stream.hiddenTokens.nearestDoc i = stream.hiddenTokens.nearestDoc j := by
  cases found : latest? ((stream.candidates i).filter fun token => Comment.isDoc token.text) with
  | none =>
    have here : stream.hiddenTokens.nearestDoc i = .ok none := by rw [nearestDoc_of_inside inside, found]
    have there : stream.hiddenTokens.nearestDoc j = .ok none := by
      rw [nearestDoc_eq_none_iff inside] at here
      exact (nearestDoc_eq_none_iff also).mpr fun token member => here token ((same token).mpr member)
    rw [here, there]
  | some doc =>
    have here : stream.hiddenTokens.nearestDoc i = .ok (some doc) := by rw [nearestDoc_of_inside inside, found]
    have there : stream.hiddenTokens.nearestDoc j = .ok (some doc) := by
      obtain ⟨member, isDoc, last⟩ := (nearestDoc_eq_some_iff inside).mp here
      refine (nearestDoc_eq_some_iff also).mpr ⟨(same doc).mp member, isDoc, ?_⟩
      intro other among
      exact last other ((same other).mpr among)
    rw [here, there]

/-- A lookup fails exactly outside the stream. At a significant anchor it finds the nearest
documentation comment of the hidden run before the anchor, and the second run adds nothing; at a
hidden anchor after the first token it finds the last one of the run in which the anchor lies, as the
next significant token does. -/
theorem nearestDoc_exact (stream : TokenStream) (i : Int) :
    (∀ fault, stream.hiddenTokens.nearestDoc i = .error fault ↔
      ¬ (0 ≤ i ∧ i < stream.size) ∧ fault = .outOfRange ⟨i, stream.size⟩) ∧
    (∀ anchor, stream.get i = .ok anchor → anchor.isHidden = false →
      (∀ doc, stream.hiddenTokens.nearestDoc i = .ok (some doc) ↔
        doc ∈ stream.tokens ∧ doc.index < i ∧ Comment.isDoc doc.text = true ∧ doc.isHidden = true ∧
          ∀ other ∈ stream.tokens, doc.index < other.index → other.index < i →
            other.isHidden = true ∧ Comment.isDoc other.text = false) ∧
      (stream.hiddenTokens.nearestDoc i = .ok none ↔
        ∀ token, stream.RunBefore i token → Comment.isDoc token.text = false) ∧
      (0 < i → stream.hiddenRight (i - 1) = .ok none)) ∧
    (∀ anchor, stream.get i = .ok anchor → anchor.isHidden = true → 1 ≤ i →
      (∀ doc, stream.hiddenTokens.nearestDoc i = .ok (some doc) ↔
        stream.RunAround i doc ∧ Comment.isDoc doc.text = true ∧
          ∀ other, stream.RunAround i other → Comment.isDoc other.text = true → other.index ≤ doc.index) ∧
      (stream.hiddenTokens.nearestDoc i = .ok none ↔
        ∀ token, stream.RunAround i token → Comment.isDoc token.text = false) ∧
      ∀ next ∈ stream.tokens, next.isHidden = false → i < next.index →
        (∀ other ∈ stream.tokens, i ≤ other.index → other.index < next.index → other.isHidden = true) →
        stream.hiddenTokens.nearestDoc i = stream.hiddenTokens.nearestDoc next.index) := by
  refine ⟨fun fault => nearestDoc_eq_error_iff, ?_, ?_⟩
  · intro anchor got shown
    obtain ⟨member, rfl⟩ := get_eq_ok_iff.mp got
    obtain ⟨k, -, inside, index⟩ := exists_index_of_mem member
    have run (token : Token) : token ∈ stream.candidates k ↔ stream.RunBefore k token :=
      mem_candidates_of_significant inside member index shown
    rw [index]
    refine ⟨?_, ?_, ?_⟩
    · intro doc
      rw [nearestDoc_eq_some_iff inside, ← lastDoc_runBefore_iff]
      simp only [run]
    · rw [nearestDoc_eq_none_iff inside]
      simp only [run]
    · intro positive
      have before : (k : Int) - 1 = (k - 1 : Nat) := by omega
      rw [before, hiddenRight_of_inside (by omega), rightRun_eq_nil (by omega) inside member index shown]
      rfl
  · intro anchor got hidden positive
    obtain ⟨member, rfl⟩ := get_eq_ok_iff.mp got
    obtain ⟨k, -, inside, index⟩ := exists_index_of_mem member
    have around (token : Token) : token ∈ stream.candidates k ↔ stream.RunAround k token :=
      mem_candidates_of_hidden (by omega) inside member index hidden
    rw [index]
    refine ⟨?_, ?_, ?_⟩
    · intro doc
      rw [nearestDoc_eq_some_iff inside]
      simp only [around]
    · rw [nearestDoc_eq_none_iff inside]
      simp only [around]
    · intro next among shown after first
      obtain ⟨n, -, within, nextIndex⟩ := exists_index_of_mem among
      rw [nextIndex]
      refine nearestDoc_congr inside within ?_
      intro token
      rw [around, mem_candidates_of_significant within among nextIndex shown, ← nextIndex]
      exact runAround_iff_runBefore among shown after first

/-- Two documentation comments and a line feed before a semicolon. -/
private def twiceDocumented : TokenStream where
  tokens := [⟨['/', '/', '/', 'a'], 0, 1, 0, 1, "line_comment", 0⟩,
    ⟨['/', '*', '*', '/'], 1, 1, 4, 1, "block_comment", 4⟩, ⟨['\n'], 2, 1, 8, 1, "whitespace", 8⟩,
    ⟨[';'], 3, 2, 0, 0, ";", 9⟩]
  indexed := by decide

/-- The nearer of two documentation comments is found, from the semicolon as from the line feed. -/
theorem nearestDoc_exact_nearer :
    (twiceDocumented.get 3 = .ok ⟨[';'], 3, 2, 0, 0, ";", 9⟩ ∧
      twiceDocumented.hiddenTokens.nearestDoc 3 =
        .ok (some ⟨['/', '*', '*', '/'], 1, 1, 4, 1, "block_comment", 4⟩)) ∧
    (twiceDocumented.get 2 = .ok ⟨['\n'], 2, 1, 8, 1, "whitespace", 8⟩ ∧
      twiceDocumented.hiddenTokens.nearestDoc 2 = twiceDocumented.hiddenTokens.nearestDoc 3) := by
  have semicolon : twiceDocumented.get 3 = .ok ⟨[';'], 3, 2, 0, 0, ";", 9⟩ := rfl
  have feed : twiceDocumented.get 2 = .ok ⟨['\n'], 2, 1, 8, 1, "whitespace", 8⟩ := rfl
  refine ⟨⟨semicolon, ?_⟩, feed, ?_⟩
  · exact (((nearestDoc_exact twiceDocumented 3).2.1 _ semicolon rfl).1 _).mpr (by decide)
  · exact ((nearestDoc_exact twiceDocumented 2).2.2 _ feed rfl (by decide)).2.2
      ⟨[';'], 3, 2, 0, 0, ";", 9⟩ (by decide) rfl (by decide) (by decide)

end TokenStream

end ApexComments
