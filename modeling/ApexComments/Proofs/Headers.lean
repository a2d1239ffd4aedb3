import ApexComments.Proofs.Anchoring
import ApexComments.Proofs.CommentForms

/-!
# Headers of declarations

An anchor is moved back over the tokens of its header. What counts as a header is said without the walk
(`TokenStream.IsHeader`); the walk comes to the longest one, and where it stops the reason is at hand
(`TokenStream.Stops`). Any position with such a reason is the start of the longest header, so what follows for
floors and comments needs no second walk (`TokenStream.le_of_stops`).
-/
namespace ApexComments

open Text

namespace Token

variable {token : Token} {floor : Int}

/-- A hidden token of blanks, which a header passes over. -/
def IsSpacing (token : Token) : Prop := token.isHidden = true ∧ allBlank token.text = true

/-- A significant token that belongs to a header: it starts at the floor or later, and it is no statement break. -/
def Joins (floor : Int) (token : Token) : Prop :=
  token.isHidden = false ∧ floor ≤ token.startByte ∧ token.isStatementBreak = false

/-- A token that bounds a header: a hidden one that is not blank, a significant one that starts before the floor,
or a significant statement break. -/
def Bounds (floor : Int) (token : Token) : Prop :=
  (token.isHidden = true ∧ allBlank token.text = false) ∨ (token.isHidden = false ∧ token.startByte < floor) ∨
    (token.isHidden = false ∧ token.isStatementBreak = true)

theorem not_bounds_of_isSpacing (spacing : token.IsSpacing) : ¬ token.Bounds floor := by
  obtain ⟨hidden, blank⟩ := spacing
  simp [Bounds, hidden, blank]

theorem not_bounds_of_joins (joins : token.Joins floor) : ¬ token.Bounds floor := by
  obtain ⟨shown, low, through⟩ := joins
  simp [Bounds, shown, through, low]

theorem Joins.mono {higher : Int} (joins : token.Joins higher) (order : floor ≤ higher) : token.Joins floor :=
  ⟨joins.1, Int.le_trans order joins.2.1, joins.2.2⟩

end Token

theorem headerStart_of_isSpacing {token : Token} (spacing : token.IsSpacing) (floor : Int) (reached : Nat)
    (rest : List Token) : headerStart floor reached (token :: rest) = headerStart floor reached rest := by
  rw [headerStart, if_pos (by simp [spacing.1, spacing.2])]

theorem headerStart_of_joins {token : Token} {floor : Int} (joins : token.Joins floor) (reached : Nat)
    (rest : List Token) : headerStart floor reached (token :: rest) = headerStart floor rest.length rest := by
  obtain ⟨shown, low, through⟩ := joins
  rw [headerStart, if_neg (by simp [shown]), if_neg (by simp [shown, low, through])]

theorem headerStart_of_bounds {token : Token} {floor : Int} (bounds : token.Bounds floor) (reached : Nat)
    (rest : List Token) : headerStart floor reached (token :: rest) = reached := by
  rcases bounds with ⟨hidden, text⟩ | ⟨shown, low⟩ | ⟨shown, ends⟩
  · rw [headerStart, if_neg (by simp [text]), if_pos (by simp [hidden])]
  · rw [headerStart, if_neg (by simp [shown]), if_pos (by simp [low])]
  · rw [headerStart, if_neg (by simp [shown]), if_pos (by simp [ends])]

theorem Token.isSpacing_or (token : Token) (floor : Int) :
    token.IsSpacing ∨ token.Joins floor ∨ token.Bounds floor := by
  by_cases hidden : token.isHidden = true
  · by_cases blank : allBlank token.text = true
    · exact .inl ⟨hidden, blank⟩
    · exact .inr (.inr (.inl ⟨hidden, by simpa using blank⟩))
  · have shown : token.isHidden = false := by simpa using hidden
    by_cases low : token.startByte < floor
    · exact .inr (.inr (.inr (.inl ⟨shown, low⟩)))
    · by_cases ends : token.isStatementBreak = true
      · exact .inr (.inr (.inr (.inr ⟨shown, ends⟩)))
      · exact .inr (.inl ⟨shown, by omega, by simpa using ends⟩)

namespace TokenStream

variable {stream : TokenStream} {floor : Int}

/-- The tokens from a start up to the anchor may stand in a header, and the first of them is significant. -/
structure IsHeader (stream : TokenStream) (floor anchor start : Int) : Prop where
  nonneg : 0 ≤ start
  le : start ≤ anchor
  within : ∀ token ∈ stream.tokens, start ≤ token.index → token.index < anchor → token.IsSpacing ∨ token.Joins floor
  opens : start < anchor → ∃ token, stream.get start = .ok token ∧ token.isHidden = false

/-- Going back over blank hidden tokens leads to the start of the stream, or to a token that bounds a header. -/
def Stops (stream : TokenStream) (floor start : Int) : Prop :=
  ∃ reached, 0 ≤ reached ∧ reached ≤ start ∧
    (∀ token ∈ stream.tokens, reached ≤ token.index → token.index < start → token.IsSpacing) ∧
    (reached = 0 ∨ ∃ token ∈ stream.tokens, token.index + 1 = reached ∧ token.Bounds floor)

theorem IsHeader.refl {anchor : Int} (nonneg : 0 ≤ anchor) : stream.IsHeader floor anchor anchor :=
  ⟨nonneg, Int.le_refl anchor, fun _ _ low _ => absurd low (by omega), fun less => absurd less (Int.lt_irrefl anchor)⟩

theorem IsHeader.mono {higher anchor start : Int} (header : stream.IsHeader higher anchor start)
    (order : floor ≤ higher) : stream.IsHeader floor anchor start := by
  refine ⟨header.nonneg, header.le, ?_, header.opens⟩
  intro token member low high
  exact (header.within token member low high).imp_right fun joins => joins.mono order

/-- No header starts before a position with a reason to stop. -/
theorem le_of_stops {anchor start other : Int} (header : stream.IsHeader floor anchor other) (below : start ≤ anchor)
    (stops : stream.Stops floor start) : start ≤ other := by
  by_contra earlier
  obtain ⟨reached, -, upTo, spacing, why⟩ := stops
  obtain ⟨token, got, shown⟩ := header.opens (by omega)
  obtain ⟨member, index⟩ := get_eq_ok_iff.mp got
  -- The first token of the other header is significant, so it lies before the blanks.
  have before : token.index < reached := by
    by_contra inside
    have hidden := (spacing token member (by omega) (by omega)).1
    simp [hidden] at shown
  have low := header.nonneg
  rcases why with top | ⟨last, isToken, next, bounds⟩
  · omega
  · rcases header.within last isToken (by omega) (by omega) with blank | joins
    · exact Token.not_bounds_of_isSpacing blank bounds
    · exact Token.not_bounds_of_joins joins bounds

/-- The induction is on the position that the walk has come to; from there up to the position reached, all is
blank. -/
theorem isHeader_headerStart {anchor k reached : Nat} (inside : anchor ≤ stream.size) (behind : k ≤ reached)
    (header : stream.IsHeader floor anchor reached)
    (spacing : ∀ token ∈ stream.tokens, k ≤ token.index → token.index < reached → token.IsSpacing) :
    stream.IsHeader floor anchor (headerStart floor reached (stream.tokens.take k).reverse) ∧
      stream.Stops floor (headerStart floor reached (stream.tokens.take k).reverse) := by
  induction k generalizing reached with
  | zero =>
    refine ⟨header, 0, Int.le_refl 0, header.nonneg, ?_, .inl rfl⟩
    intro token member low
    exact spacing token member (by omega)
  | succ k ih =>
    have upTo := header.le
    have exists_token : k < stream.tokens.length := by
      rw [size] at inside
      omega
    obtain ⟨token, here⟩ : ∃ token, stream.tokens[k]? = some token := ⟨_, List.getElem?_eq_getElem exists_token⟩
    have member := List.mem_of_getElem? here
    have index := index_of_getElem? here
    -- What is known of the tokens after this one, and how it is known of this one.
    have extend {known : Token → Prop} {bound : Int} (this : known token)
        (later : ∀ other ∈ stream.tokens, ((k + 1 : Nat) : Int) ≤ other.index → other.index < bound → known other) :
        ∀ other ∈ stream.tokens, (k : Int) ≤ other.index → other.index < bound → known other := by
      intro other isToken low high
      by_cases same : other.index = k
      · rwa [eq_of_index_eq isToken member (by omega)]
      · exact later other isToken (by omega) high
    rw [reverse_take_succ here]
    rcases token.isSpacing_or floor with blank | joins | bounds
    · rw [headerStart_of_isSpacing blank]
      exact ih (by omega) header (extend blank spacing)
    · have length : (stream.tokens.take k).reverse.length = k := by
        rw [List.length_reverse, List.length_take]
        omega
      rw [headerStart_of_joins joins, length]
      refine ih (Nat.le_refl k) ⟨by omega, by omega, extend (.inr joins) ?_, ?_⟩ ?_
      · intro other isToken low high
        by_cases taken : (reached : Int) ≤ other.index
        · exact header.within other isToken taken high
        · exact .inl (spacing other isToken low (by omega))
      · intro _
        exact ⟨token, get_eq_ok_iff.mpr ⟨member, index⟩, joins.1⟩
      · intro other _ low high
        omega
    · rw [headerStart_of_bounds bounds]
      refine ⟨header, ((k + 1 : Nat) : Int), by omega, by omega, spacing, .inr ⟨token, member, ?_, bounds⟩⟩
      rw [index]
      omega

/-- Widening comes to a header that nothing goes on before. -/
theorem exists_widen {anchor : Int} (low : 0 ≤ anchor) (high : anchor ≤ stream.size) (floor : Int) :
    ∃ start, stream.widen anchor floor = .ok start ∧ stream.IsHeader floor anchor start ∧ stream.Stops floor start := by
  obtain ⟨k, rfl⟩ := Int.eq_ofNat_of_zero_le low
  have inside : k ≤ stream.size := by omega
  refine ⟨_, widen_of_inside inside floor, ?_⟩
  refine isHeader_headerStart inside (Nat.le_refl k) (.refl low) ?_
  intro token _ above below
  omega

/-! ## Headers and comments -/

theorem isDoc_of_nearestDoc {i : Int} {doc : Token} (found : stream.hiddenTokens.nearestDoc i = .ok (some doc)) :
    Comment.isDoc doc.text = true := by
  by_cases inside : 0 ≤ i ∧ i < stream.size
  · obtain ⟨k, rfl⟩ := Int.eq_ofNat_of_zero_le inside.1
    exact ((nearestDoc_eq_some_iff (show k < stream.size by omega)).mp found).2.1
  · rw [nearestDoc_of_outside inside] at found
    cases found

/-- No header reaches over the comment of a significant anchor. -/
theorem IsHeader.eq_of_nearestDoc {anchor start : Int} {token doc : Token} (header : stream.IsHeader floor anchor start)
    (got : stream.get anchor = .ok token) (shown : token.isHidden = false)
    (found : stream.hiddenTokens.nearestDoc anchor = .ok (some doc)) : start = anchor := by
  obtain ⟨k, rfl⟩ := Int.eq_ofNat_of_zero_le (Int.le_trans header.nonneg header.le)
  obtain ⟨isDoc, before, between⟩ := runBefore_of_nearestDoc got shown found
  have upTo := header.le
  by_contra earlier
  obtain ⟨first, gotFirst, firstShown⟩ := header.opens (by omega)
  obtain ⟨member, index⟩ := get_eq_ok_iff.mp gotFirst
  have passed : first.index < doc.index := by
    by_contra inside
    have hidden := between first member (by omega) (by omega)
    simp [hidden] at firstShown
  rcases header.within doc isDoc (by omega) before with ⟨-, blank⟩ | ⟨docShown, -⟩
  · have noDoc := Comment.isDoc_eq_false_of_blank (List.all_eq_true.mp blank)
    simp [isDoc_of_nearestDoc found] at noDoc
  · have hidden := between doc isDoc (Int.le_refl _) before
    simp [hidden] at docShown

/-- A lookup finds a comment in front of the index, or at the index and behind it; nothing but hidden tokens lies
between the two. -/
theorem hidden_of_nearestDoc {i : Int} {doc : Token} (found : stream.hiddenTokens.nearestDoc i = .ok (some doc)) :
    (doc.index < i ∧ ∀ token ∈ stream.tokens, doc.index ≤ token.index → token.index < i → token.isHidden = true) ∨
      (i ≤ doc.index ∧ ∀ token ∈ stream.tokens, i ≤ token.index → token.index ≤ doc.index → token.isHidden = true) := by
  by_cases inside : 0 ≤ i ∧ i < stream.size
  · obtain ⟨k, rfl⟩ := Int.eq_ofNat_of_zero_le inside.1
    have within : k < stream.size := by omega
    rcases List.mem_append.mp ((nearestDoc_eq_some_iff within).mp found).1 with left | right
    · exact .inl ((mem_leftRun_iff (by omega)).mp left).2
    · split at right
      · next positive =>
        obtain ⟨-, after, between⟩ := (mem_rightRun_iff (show k - 1 < stream.size by omega)).mp right
        refine .inr ⟨by omega, ?_⟩
        intro token member low high
        exact between token member (by omega) high
      · simp at right
  · rw [nearestDoc_of_outside inside] at found
    cases found

/-- Between the start of a header and the comment found there lie hidden tokens only, so from the anchor to the
comment there are none but hidden tokens and those of the header. -/
theorem IsHeader.joins_of_nearestDoc {anchor start : Int} {doc token : Token}
    (header : stream.IsHeader floor anchor start) (found : stream.hiddenTokens.nearestDoc start = .ok (some doc))
    (member : token ∈ stream.tokens)
    (between : (doc.index < token.index ∧ token.index < anchor) ∨ (anchor ≤ token.index ∧ token.index < doc.index)) :
    token.isHidden = true ∨ token.Joins floor := by
  have upTo := header.le
  rcases hidden_of_nearestDoc found with ⟨before, hidden⟩ | ⟨after, hidden⟩
  · by_cases early : token.index < start
    · exact .inl (hidden token member (by omega) early)
    · exact (header.within token member (by omega) (by omega)).imp_left And.left
  · by_cases less : start < anchor
    · -- The header starts with a significant token, so no comment is found at its start or behind it.
      obtain ⟨first, got, shown⟩ := header.opens less
      obtain ⟨isToken, index⟩ := get_eq_ok_iff.mp got
      have hiddenFirst := hidden first isToken (by omega) (by omega)
      simp [hiddenFirst] at shown
    · exact .inl (hidden token member (by omega) (by omega))

/-- Widening an anchor inside the stream, or one past its end, succeeds. It comes to the longest header and stops
for a reason. So widening again changes nothing, and a higher floor leads no further back. A significant
anchor with a comment of its own stays, and no comment is reached across a statement break or a
significant token before the floor. -/
theorem widen_exact (stream : TokenStream) (anchor floor : Int) (low : 0 ≤ anchor) (high : anchor ≤ stream.size) :
    ∃ start, stream.widen anchor floor = .ok start ∧ stream.IsHeader floor anchor start ∧
      (∀ other, stream.IsHeader floor anchor other → start ≤ other) ∧ stream.Stops floor start ∧
      stream.widen start floor = .ok start ∧
      (∀ higher, floor ≤ higher → ∃ later, stream.widen anchor higher = .ok later ∧ start ≤ later) ∧
      (∀ token doc, stream.get anchor = .ok token → token.isHidden = false →
        stream.hiddenTokens.nearestDoc anchor = .ok (some doc) → start = anchor) ∧
      ∀ doc, stream.hiddenTokens.nearestDoc start = .ok (some doc) → ∀ token ∈ stream.tokens,
        (doc.index < token.index ∧ token.index < anchor) ∨ (anchor ≤ token.index ∧ token.index < doc.index) →
        token.isHidden = true ∨ token.Joins floor := by
  obtain ⟨start, widened, header, stops⟩ := exists_widen low high floor
  have least : ∀ other, stream.IsHeader floor anchor other → start ≤ other :=
    fun other isHeader => le_of_stops isHeader header.le stops
  refine ⟨start, widened, header, least, stops, ?_, ?_, ?_, ?_⟩
  · obtain ⟨again, rewidened, inner, -⟩ := exists_widen header.nonneg (Int.le_trans header.le high) floor
    have same : again = start := Int.le_antisymm inner.le (le_of_stops inner (Int.le_refl start) stops)
    rw [rewidened, same]
  · intro higher order
    obtain ⟨later, rewidened, shorter, -⟩ := exists_widen low high higher
    exact ⟨later, rewidened, least later (shorter.mono order)⟩
  · intro token doc got shown found
    exact header.eq_of_nearestDoc got shown found
  · intro doc found token member between
    exact header.joins_of_nearestDoc found member between

/-- A statement's end, a comment, and two words on the next line. -/
private def recoveredHeader : TokenStream where
  tokens := [⟨[';'], 0, 1, 0, 0, ";", 0⟩, ⟨['/', '*', '*', '/'], 1, 1, 1, 1, "block_comment", 1⟩,
    ⟨['\n'], 2, 1, 5, 1, "whitespace", 5⟩, ⟨['g'], 3, 2, 0, 0, "identifier", 6⟩,
    ⟨[' '], 4, 2, 1, 1, "whitespace", 7⟩, ⟨['c'], 5, 2, 2, 0, "class", 8⟩]
  indexed := by decide

/-- The first word is taken in and the comment found from there; under a floor at the second word, it is not. -/
theorem widen_exact_recovered :
    (recoveredHeader.widen 5 2 = .ok 3 ∧ recoveredHeader.widen 3 2 = .ok 3 ∧
      recoveredHeader.hiddenTokens.nearestDoc 3 =
        .ok (some ⟨['/', '*', '*', '/'], 1, 1, 1, 1, "block_comment", 1⟩)) ∧
    recoveredHeader.widen 5 8 = .ok 5 := by
  obtain ⟨start, widened, -, -, -, again, -, -⟩ := widen_exact recoveredHeader 5 2 (by decide) (by decide)
  obtain ⟨other, bounded, -⟩ := widen_exact recoveredHeader 5 8 (by decide) (by decide)
  obtain rfl : 3 = start := Except.ok.inj widened
  obtain rfl : 5 = other := Except.ok.inj bounded
  exact ⟨⟨widened, again, rfl⟩, bounded⟩

end TokenStream

end ApexComments
