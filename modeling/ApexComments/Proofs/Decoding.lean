import ApexComments.Text.Utf8
import Mathlib.Data.List.Infix

/-!
# Decoding a stretch of an encoded text

A text is encoded and a stretch of its bytes is decoded again. The stretch may begin and end inside
a character. What comes back are the characters whose bytes all lie in the stretch
(`decode_take_drop`): the bytes of a character that the stretch cuts are dropped, and none of them is
taken for another character. Surrogates have no bytes, so none comes back.
-/
namespace ApexComments.Text

/-- The characters of a text, each with the offset of its first byte; the bytes of the text start at
the given offset. -/
def placedFrom (offset : Nat) : Text → List (Nat × Char)
  | [] => []
  | .char c :: rest => (offset, c) :: placedFrom (offset + (utf8Char c).length) rest
  | .surrogate _ :: rest => placedFrom offset rest

/-- The characters of a text, each with the offset of its first byte. -/
def placed (text : Text) : List (Nat × Char) := placedFrom 0 text

/-- The text of placed characters. -/
def ofPlaced (places : List (Nat × Char)) : Text := places.map fun place => .char place.2

@[simp] theorem ofPlaced_nil : ofPlaced [] = [] := rfl

/-- Whether all bytes of a placed character lie from one offset up to another. -/
def liesWithin (start stop : Nat) (place : Nat × Char) : Bool :=
  start ≤ place.1 && place.1 + (utf8Char place.2).length ≤ stop

/-- Whether an offset lies strictly inside the bytes of a placed character. -/
def isCutAt (place : Nat × Char) (cut : Nat) : Bool :=
  place.1 < cut && cut < place.1 + (utf8Char place.2).length

/-- The characters of a text without those inside which one of the cuts lies. -/
def uncut (cuts : List Nat) (text : Text) : Text :=
  ofPlaced ((placed text).filter fun place => !cuts.any (isCutAt place))

/-- An offset into the bytes of a text that lies between two characters or at an end. -/
def Boundary (text : Text) (offset : Nat) : Prop :=
  ∃ before after, text = before ++ after ∧ (utf8 before).length = offset

theorem boundary_iff_mem_inits {text : Text} {offset : Nat} :
    Boundary text offset ↔ offset ∈ text.inits.map fun before => (utf8 before).length := by
  constructor
  · rintro ⟨before, after, rfl, rfl⟩
    exact List.mem_map_of_mem ((List.mem_inits _ _).mpr (List.prefix_append before after))
  · intro member
    obtain ⟨before, initial, length⟩ := List.mem_map.mp member
    obtain ⟨after, whole⟩ := (List.mem_inits _ _).mp initial
    exact ⟨before, after, whole.symm, length⟩

instance (text : Text) (offset : Nat) : Decidable (Boundary text offset) :=
  decidable_of_iff _ boundary_iff_mem_inits.symm

@[simp] theorem utf8_nil : utf8 [] = [] := rfl

@[simp] theorem utf8_cons (c : CodePoint) (rest : Text) : utf8 (c :: rest) = utf8Point c ++ utf8 rest := rfl

@[simp] theorem utf8_append (before after : Text) : utf8 (before ++ after) = utf8 before ++ utf8 after :=
  List.flatMap_append

@[simp] theorem withoutSurrogates_append (before after : Text) :
    withoutSurrogates (before ++ after) = withoutSurrogates before ++ withoutSurrogates after :=
  List.filter_append before after

@[simp] theorem withoutSurrogates_nil : withoutSurrogates [] = [] := rfl

@[simp] theorem withoutSurrogates_char (c : Char) (rest : Text) :
    withoutSurrogates (.char c :: rest) = .char c :: withoutSurrogates rest := rfl

@[simp] theorem withoutSurrogates_surrogate (offset : Fin 0x800) (rest : Text) :
    withoutSurrogates (.surrogate offset :: rest) = withoutSurrogates rest := rfl

theorem withoutSurrogates_eq_self_iff {text : Text} :
    withoutSurrogates text = text ↔ ∀ c ∈ text, c.isSurrogate = false := by
  simp [withoutSurrogates, List.filter_eq_self]

theorem isSurrogate_of_mem_withoutSurrogates {text : Text} {c : CodePoint} (member : c ∈ withoutSurrogates text) :
    c.isSurrogate = false := by
  simpa using List.of_mem_filter member

/-- The bytes of a text are those of its characters. -/
@[simp] theorem utf8_withoutSurrogates (text : Text) : utf8 (withoutSurrogates text) = utf8 text := by
  induction text with
  | nil => rfl
  | cons c rest ih => cases c <;> simp [ih]

/-! ## The bytes of one character -/

/-- A lead byte and the continuation bytes after it that are read as a character. -/
structure Encodes (lead : UInt8) (tails : List UInt8) (c : Char) : Prop where
  lead_not_tail : isTail lead = false
  all_tails : ∀ b ∈ tails, isTail b = true
  asks : tailsAfter lead = some tails.length
  reads : ∀ rest, headChar? lead (tails ++ rest) = some (c, tails.length)

private theorem toNat_byte {n : Nat} (small : n < 256) : (UInt8.ofNat n).toNat = n := by
  simp [Nat.mod_eq_of_lt small]

private theorem toNat_tail (n : Nat) : (UInt8.ofNat (0x80 + n % 64)).toNat = 0x80 + n % 64 :=
  toNat_byte (by omega)

private theorem isTail_tail (n : Nat) : isTail (.ofNat (0x80 + n % 64)) = true := by
  simp only [isTail, toNat_tail, Bool.and_eq_true, decide_eq_true_eq]
  omega

private theorem isTail_of_le {b : UInt8} (high : 0xC0 ≤ b.toNat) : isTail b = false := by
  simp only [isTail, Bool.and_eq_false_iff, decide_eq_false_iff_not]
  omega

private theorem encodes_one {c : Char} (high : c.toNat < 0x80) : Encodes (.ofNat c.toNat) [] c := by
  have lead : (UInt8.ofNat c.toNat).toNat = c.toNat := toNat_byte (by omega)
  refine ⟨?_, by simp, by simp [tailsAfter, lead, high], ?_⟩
  · simp only [isTail, lead, Bool.and_eq_false_iff, decide_eq_false_iff_not]
    omega
  · intro rest
    rw [headChar?_of_lt (by omega), lead, Char.ofNat_toNat]
    rfl

private theorem encodes_two {c : Char} (low : 0x80 ≤ c.toNat) (high : c.toNat < 0x800) :
    Encodes (.ofNat (0xC0 + c.toNat / 64)) [.ofNat (0x80 + c.toNat % 64)] c := by
  have lead : (UInt8.ofNat (0xC0 + c.toNat / 64)).toNat = 0xC0 + c.toNat / 64 := toNat_byte (by omega)
  have asks : tailsAfter (.ofNat (0xC0 + c.toNat / 64)) = some 1 := by
    simp only [tailsAfter, lead]
    rw [if_neg (by omega), if_neg (by omega), if_pos (by omega)]
  have fits : isSecond (.ofNat (0xC0 + c.toNat / 64)) (.ofNat (0x80 + c.toNat % 64)) = true := by
    simp only [isSecond, isTail_tail, lead]
    simp
    omega
  have value : (0xC0 + c.toNat / 64 - 0xC0) * 64 + (0x80 + c.toNat % 64 - 0x80) = c.toNat := by omega
  refine ⟨isTail_of_le (by omega), List.forall_mem_singleton.mpr (isTail_tail _), asks, ?_⟩
  intro rest
  simp only [headChar?, asks, List.cons_append, List.nil_append, fits, if_true, lead, toNat_tail, value,
    Char.ofNat_toNat, List.length_singleton]

private theorem encodes_three {c : Char} (low : 0x800 ≤ c.toNat) (high : c.toNat < 0x10000) :
    Encodes (.ofNat (0xE0 + c.toNat / 4096))
      [.ofNat (0x80 + c.toNat / 64 % 64), .ofNat (0x80 + c.toNat % 64)] c := by
  have valid : c.toNat < 0xD800 ∨ (0xDFFF < c.toNat ∧ c.toNat < 0x110000) := c.valid
  have lead : (UInt8.ofNat (0xE0 + c.toNat / 4096)).toNat = 0xE0 + c.toNat / 4096 :=
    toNat_byte (by omega)
  have asks : tailsAfter (.ofNat (0xE0 + c.toNat / 4096)) = some 2 := by
    simp only [tailsAfter, lead]
    rw [if_neg (by omega), if_neg (by omega), if_neg (by omega), if_pos (by omega)]
  have fits : isSecond (.ofNat (0xE0 + c.toNat / 4096)) (.ofNat (0x80 + c.toNat / 64 % 64)) = true := by
    simp only [isSecond, isTail_tail, lead, toNat_tail]
    simp
    omega
  have value : (0xE0 + c.toNat / 4096 - 0xE0) * 4096 + (0x80 + c.toNat / 64 % 64 - 0x80) * 64 +
      (0x80 + c.toNat % 64 - 0x80) = c.toNat := by omega
  refine ⟨isTail_of_le (by omega), ?_, asks, ?_⟩
  · exact List.forall_mem_cons.mpr ⟨isTail_tail _, List.forall_mem_singleton.mpr (isTail_tail _)⟩
  · intro rest
    simp only [headChar?, asks, List.cons_append, List.nil_append, fits, isTail_tail, Bool.and_self, if_true,
      lead, toNat_tail, value, Char.ofNat_toNat, List.length_cons, List.length_nil]

private theorem encodes_four {c : Char} (low : 0x10000 ≤ c.toNat) :
    Encodes (.ofNat (0xF0 + c.toNat / 262144))
      [.ofNat (0x80 + c.toNat / 4096 % 64), .ofNat (0x80 + c.toNat / 64 % 64),
        .ofNat (0x80 + c.toNat % 64)] c := by
  have valid : c.toNat < 0xD800 ∨ (0xDFFF < c.toNat ∧ c.toNat < 0x110000) := c.valid
  have lead : (UInt8.ofNat (0xF0 + c.toNat / 262144)).toNat = 0xF0 + c.toNat / 262144 :=
    toNat_byte (by omega)
  have asks : tailsAfter (.ofNat (0xF0 + c.toNat / 262144)) = some 3 := by
    simp only [tailsAfter, lead]
    rw [if_neg (by omega), if_neg (by omega), if_neg (by omega), if_neg (by omega), if_pos (by omega)]
  have fits : isSecond (.ofNat (0xF0 + c.toNat / 262144)) (.ofNat (0x80 + c.toNat / 4096 % 64)) = true := by
    simp only [isSecond, isTail_tail, lead, toNat_tail]
    simp
    omega
  have value : (0xF0 + c.toNat / 262144 - 0xF0) * 262144 + (0x80 + c.toNat / 4096 % 64 - 0x80) * 4096 +
      (0x80 + c.toNat / 64 % 64 - 0x80) * 64 + (0x80 + c.toNat % 64 - 0x80) = c.toNat := by omega
  refine ⟨isTail_of_le (by omega), ?_, asks, ?_⟩
  · exact List.forall_mem_cons.mpr ⟨isTail_tail _,
      List.forall_mem_cons.mpr ⟨isTail_tail _, List.forall_mem_singleton.mpr (isTail_tail _)⟩⟩
  · intro rest
    simp only [headChar?, asks, List.cons_append, List.nil_append, fits, isTail_tail, Bool.and_self, if_true,
      lead, toNat_tail, value, Char.ofNat_toNat, List.length_cons, List.length_nil]

/-- The bytes of a character are a lead byte and continuation bytes that are read as that character,
whatever follows them. -/
theorem utf8Char_encodes (c : Char) :
    ∃ lead tails, utf8Char c = lead :: tails ∧ Encodes lead tails c := by
  by_cases one : c.toNat < 0x80
  · exact ⟨_, _, by rw [utf8Char, if_pos one], encodes_one one⟩
  · by_cases two : c.toNat < 0x800
    · exact ⟨_, _, by rw [utf8Char, if_neg one, if_pos two], encodes_two (by omega) two⟩
    · by_cases three : c.toNat < 0x10000
      · exact ⟨_, _, by rw [utf8Char, if_neg one, if_neg two, if_pos three], encodes_three (by omega) three⟩
      · exact ⟨_, _, by rw [utf8Char, if_neg one, if_neg two, if_neg three], encodes_four (by omega)⟩

theorem utf8Char_length_pos (c : Char) : 0 < (utf8Char c).length := by
  obtain ⟨lead, tails, bytes, -⟩ := utf8Char_encodes c
  simp [bytes]

/-- A text without a character has no bytes. -/
theorem utf8_eq_nil_iff {text : Text} : utf8 text = [] ↔ withoutSurrogates text = [] := by
  induction text with
  | nil => simp
  | cons c rest ih =>
    cases c with
    | surrogate offset => simp [ih]
    | char c =>
      have width := utf8Char_length_pos c
      simp [List.ne_nil_of_length_pos width]

/-! ## Reading on after a character and after the rest of one -/

private theorem headChar?_of_isTail {b : UInt8} (continuation : isTail b = true) (after : List UInt8) :
    headChar? b after = none := by
  simp only [isTail, Bool.and_eq_true, decide_eq_true_eq] at continuation
  have asks : tailsAfter b = none := by
    simp only [tailsAfter]
    rw [if_neg (by omega), if_pos (by omega)]
  simp [headChar?, asks]

/-- A lead byte without all its continuation bytes starts no character. -/
private theorem headChar?_of_short {lead : UInt8} {tails : Nat} {after : List UInt8}
    (asks : tailsAfter lead = some tails) (short : after.length < tails) : headChar? lead after = none := by
  unfold headChar?
  rw [asks]
  split
  · next none =>
    cases none
    exact absurd short (Nat.not_lt_zero _)
  · next one =>
    cases one
    simp only [List.length_cons] at short
    omega
  · next two =>
    cases two
    simp only [List.length_cons] at short
    omega
  · next three =>
    cases three
    simp only [List.length_cons] at short
    omega
  · rfl

private theorem decodeAfter_length_append (taken rest : List UInt8) :
    decodeAfter taken.length (taken ++ rest) = decodeAfter 0 rest := by
  induction taken with
  | nil => rfl
  | cons b taken ih => rw [List.length_cons, List.cons_append, decodeAfter, ih]

@[simp] theorem decode_nil : decode [] = [] := rfl

theorem decode_utf8Char_append (c : Char) (rest : List UInt8) :
    decode (utf8Char c ++ rest) = .char c :: decode rest := by
  obtain ⟨lead, tails, bytes, encodes⟩ := utf8Char_encodes c
  simp only [decode_eq_decodeAfter, bytes, List.cons_append]
  rw [decodeAfter, encodes.reads]
  exact congrArg (CodePoint.char c :: ·) (decodeAfter_length_append tails rest)

/-- Continuation bytes without their lead are dropped. -/
theorem decode_tails_append {tails : List UInt8} (continuation : ∀ b ∈ tails, isTail b = true)
    (rest : List UInt8) : decode (tails ++ rest) = decode rest := by
  simp only [decode_eq_decodeAfter]
  induction tails with
  | nil => rfl
  | cons b tails ih =>
    rw [List.cons_append, decodeAfter, headChar?_of_isTail (continuation b (by simp))]
    exact ih (fun other member => continuation other (by simp [member]))

/-- The first bytes of a character without its last are dropped. -/
theorem decode_take_utf8Char {c : Char} {count : Nat} (short : count < (utf8Char c).length) :
    decode ((utf8Char c).take count) = [] := by
  obtain ⟨lead, tails, bytes, encodes⟩ := utf8Char_encodes c
  rw [bytes] at short ⊢
  cases count with
  | zero => rfl
  | succ taken =>
    have fewer : (tails.take taken).length < tails.length := by
      simp only [List.length_take, List.length_cons] at short ⊢
      omega
    have onlyTails : ∀ b ∈ tails.take taken, isTail b = true :=
      fun b member => encodes.all_tails b (List.mem_of_mem_take member)
    have dropped := decode_tails_append onlyTails []
    rw [List.take_succ_cons, decode_eq_decodeAfter, decodeAfter, headChar?_of_short encodes.asks fewer,
      ← decode_eq_decodeAfter]
    simpa using dropped

/-- The last bytes of a character without its first are continuation bytes. -/
theorem isTail_of_mem_drop_utf8Char {c : Char} {count : Nat} (beyond : 0 < count) :
    ∀ b ∈ (utf8Char c).drop count, isTail b = true := by
  obtain ⟨lead, tails, bytes, encodes⟩ := utf8Char_encodes c
  intro b member
  obtain ⟨dropped, rfl⟩ := Nat.exists_eq_succ_of_ne_zero (Nat.ne_of_gt beyond)
  rw [bytes, List.drop_succ_cons] at member
  exact encodes.all_tails b (List.mem_of_mem_drop member)

theorem decode_utf8_append (text : Text) (rest : List UInt8) :
    decode (utf8 text ++ rest) = withoutSurrogates text ++ decode rest := by
  induction text with
  | nil => rfl
  | cons c text ih =>
    cases c with
    | surrogate offset => exact ih
    | char c =>
      rw [utf8_cons, utf8Point_char, List.append_assoc, decode_utf8Char_append, ih, withoutSurrogates_char,
        List.cons_append]

/-- Decoding undoes encoding, but for the surrogates. -/
theorem decode_utf8 (text : Text) : decode (utf8 text) = withoutSurrogates text := by
  simpa using decode_utf8_append text []

/-! ## Stretches of the bytes -/

private theorem le_of_mem_placedFrom {text : Text} {offset : Nat} {place : Nat × Char}
    (member : place ∈ placedFrom offset text) : offset ≤ place.1 := by
  induction text generalizing offset with
  | nil => simp [placedFrom] at member
  | cons c rest ih =>
    cases c with
    | surrogate _ => exact ih member
    | char c =>
      rcases List.mem_cons.mp member with rfl | later
      · exact Nat.le_refl _
      · exact Nat.le_trans (Nat.le_add_right _ _) (ih later)

private theorem filter_liesWithin_eq_nil {text : Text} {offset start stop : Nat} (beyond : stop ≤ offset) :
    (placedFrom offset text).filter (liesWithin start stop) = [] := by
  rw [List.filter_eq_nil_iff]
  intro place member
  have after := le_of_mem_placedFrom member
  have width := utf8Char_length_pos place.2
  simp only [liesWithin, Bool.and_eq_true, decide_eq_true_eq]
  omega

/-- The stretch is given by absolute offsets while the bytes of the text start at `offset`: the
induction is on the text, and the offset moves on by the width of the character passed. -/
private theorem decode_take_drop_from (text : Text) (offset start stop : Nat) :
    decode (((utf8 text).take (stop - offset)).drop (start - offset)) =
      ofPlaced ((placedFrom offset text).filter (liesWithin start stop)) := by
  induction text generalizing offset with
  | nil => simp [placedFrom, ofPlaced]
  | cons c rest ih =>
    cases c with
    | surrogate _ => exact ih offset
    | char c =>
      have width := utf8Char_length_pos c
      have later := ih (offset + (utf8Char c).length)
      rw [← Nat.sub_sub, ← Nat.sub_sub] at later
      rw [utf8_cons, utf8Point_char, placedFrom, List.take_append, List.drop_append]
      by_cases fits : offset + (utf8Char c).length ≤ stop
      · have whole : (utf8Char c).take (stop - offset) = utf8Char c := List.take_of_length_le (by omega)
        rw [whole]
        by_cases begins : start ≤ offset
        · have inside : liesWithin start stop (offset, c) = true := by simp [liesWithin, begins, fits]
          rw [List.filter_cons_of_pos inside, ofPlaced, List.map_cons, ← ofPlaced, ← later]
          rw [show start - offset = 0 by omega, List.drop_zero, decode_utf8Char_append, Nat.zero_sub]
        · have outside : ¬ liesWithin start stop (offset, c) = true := by simp [liesWithin, begins]
          rw [List.filter_cons_of_neg outside, ← later]
          exact decode_tails_append (isTail_of_mem_drop_utf8Char (by omega)) _
      · have outside : ¬ liesWithin start stop (offset, c) = true := by simp [liesWithin, fits]
        rw [List.filter_cons_of_neg outside, filter_liesWithin_eq_nil (by omega)]
        rw [show stop - offset - (utf8Char c).length = 0 by omega, List.take_zero, List.drop_nil, List.append_nil]
        by_cases begins : start ≤ offset
        · rw [show start - offset = 0 by omega, List.drop_zero]
          exact decode_take_utf8Char (by omega)
        · have onlyTails : ∀ b ∈ ((utf8Char c).take (stop - offset)).drop (start - offset), isTail b = true := by
            intro b member
            rw [List.drop_take] at member
            exact isTail_of_mem_drop_utf8Char (by omega) b (List.mem_of_mem_take member)
          simpa using decode_tails_append onlyTails []

/-- Decoding a stretch of the bytes of a text gives the characters that lie in it as a whole. -/
theorem decode_take_drop (text : Text) (start stop : Nat) :
    decode (((utf8 text).take stop).drop start) = ofPlaced ((placed text).filter (liesWithin start stop)) :=
  decode_take_drop_from text 0 start stop

/-- A stretch between two boundaries holds the characters between them. -/
theorem decode_between (before text after : Text) :
    decode (((utf8 (before ++ text ++ after)).take (utf8 (before ++ text)).length).drop (utf8 before).length) =
      withoutSurrogates text := by
  rw [utf8_append (before ++ text), List.take_left, utf8_append, List.drop_left, decode_utf8]

private theorem placedFrom_append (before after : Text) (offset : Nat) :
    placedFrom offset (before ++ after) =
      placedFrom offset before ++ placedFrom (offset + (utf8 before).length) after := by
  induction before generalizing offset with
  | nil => rfl
  | cons c before ih =>
    cases c with
    | surrogate _ => exact ih offset
    | char c =>
      simp only [List.cons_append, placedFrom, ih, utf8_cons, utf8Point_char, List.length_append, Nat.add_assoc]

private theorem end_le_of_mem_placedFrom {text : Text} {offset : Nat} {place : Nat × Char}
    (member : place ∈ placedFrom offset text) :
    place.1 + (utf8Char place.2).length ≤ offset + (utf8 text).length := by
  induction text generalizing offset with
  | nil => simp [placedFrom] at member
  | cons c rest ih =>
    cases c with
    | surrogate _ => exact ih member
    | char c =>
      rw [utf8_cons, utf8Point_char, List.length_append]
      rcases List.mem_cons.mp member with rfl | later
      · simp only
        omega
      · have := ih later
        omega

theorem end_le_of_mem_placed {text : Text} {place : Nat × Char} (member : place ∈ placed text) :
    place.1 + (utf8Char place.2).length ≤ (utf8 text).length := by
  simpa using end_le_of_mem_placedFrom member

/-- The characters of a text stand one after the other. -/
theorem pairwise_placed (text : Text) :
    (placed text).Pairwise fun place later => place.1 + (utf8Char place.2).length ≤ later.1 := by
  have from_offset (offset : Nat) : (placedFrom offset text).Pairwise
      fun place later => place.1 + (utf8Char place.2).length ≤ later.1 := by
    induction text generalizing offset with
    | nil => exact List.Pairwise.nil
    | cons c rest ih =>
      cases c with
      | surrogate _ => exact ih offset
      | char c => exact List.pairwise_cons.mpr ⟨fun place later => le_of_mem_placedFrom later, ih _⟩
  exact from_offset 0

theorem Boundary.le_length {text : Text} {offset : Nat} (boundary : Boundary text offset) :
    offset ≤ (utf8 text).length := by
  obtain ⟨before, after, rfl, rfl⟩ := boundary
  simp

/-- Two boundaries part a text in three. -/
theorem Boundary.split {text : Text} {start stop : Nat} (first : Boundary text start) (second : Boundary text stop)
    (order : start ≤ stop) :
    ∃ before part after, text = before ++ part ++ after ∧ (utf8 before).length = start ∧
      (utf8 (before ++ part)).length = stop := by
  obtain ⟨before, rest, rfl, rfl⟩ := first
  obtain ⟨upTo, after, whole, rfl⟩ := second
  have one : before <+: before ++ rest := List.prefix_append before rest
  have two : upTo <+: before ++ rest := ⟨after, whole.symm⟩
  rcases List.prefix_or_prefix_of_prefix one two with ⟨part, rfl⟩ | ⟨extra, rfl⟩
  · exact ⟨before, part, after, whole, rfl, rfl⟩
  · refine ⟨upTo ++ extra, [], rest, by simp, rfl, ?_⟩
    simp only [utf8_append, List.length_append, List.append_nil] at order ⊢
    omega

/-- No character is cut at a boundary. -/
theorem Boundary.not_isCutAt {text : Text} {cut : Nat} (boundary : Boundary text cut) {place : Nat × Char}
    (member : place ∈ placed text) : isCutAt place cut = false := by
  obtain ⟨before, after, rfl, rfl⟩ := boundary
  simp only [isCutAt, Bool.and_eq_false_iff, decide_eq_false_iff_not]
  rw [placed, placedFrom_append] at member
  rcases List.mem_append.mp member with earlier | later
  · have := end_le_of_mem_placedFrom earlier
    omega
  · have := le_of_mem_placedFrom later
    omega

private theorem ofPlaced_placedFrom (text : Text) (offset : Nat) :
    ofPlaced (placedFrom offset text) = withoutSurrogates text := by
  induction text generalizing offset with
  | nil => rfl
  | cons c rest ih =>
    cases c with
    | surrogate _ => exact ih offset
    | char c => exact congrArg (CodePoint.char c :: ·) (ih _)

/-- Only surrogates are lost where all cuts are boundaries. -/
theorem uncut_of_boundaries {text : Text} {cuts : List Nat} (boundaries : ∀ cut ∈ cuts, Boundary text cut) :
    uncut cuts text = withoutSurrogates text := by
  have kept : ((placed text).filter fun place => !cuts.any (isCutAt place)) = placed text := by
    rw [List.filter_eq_self]
    intro place member
    have spared : cuts.any (isCutAt place) = false := by
      rw [List.any_eq_false]
      intro cut isCut
      simp [(boundaries cut isCut).not_isCutAt member]
    simp [spared]
  rw [uncut, kept]
  exact ofPlaced_placedFrom text 0

end ApexComments.Text
