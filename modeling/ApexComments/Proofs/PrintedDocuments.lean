import ApexComments.Json.Printer
import ApexComments.Json.Reader
import ApexComments.Proofs.Grouping
import Mathlib.Algebra.Group.Nat.Defs

/-!
# Printed documents are read back

Every part of a printed document is read back from where it stands: a text from its escapes, an integer from
its digits, the items and fields of arrays and objects from between the blanks that lay them out. The proof
goes by the shape of the document and carries the text that follows along, with as much fuel as twice the
length of what is left to read. The one thing that keeps a plain document from being printed is an integer with
more digits than a numeral may have (`print_eq_ok_iff`), and the reader takes all others (`parse_print`).
-/
namespace ApexComments.Json

open Text

/-- Documents whose numbers are integers, with no name twice in an object and at most `depth` arrays and
objects in one another. -/
inductive Plain : Nat → Json → Prop
  | null {depth : Nat} : Plain depth .null
  | bool {depth : Nat} (value : Bool) : Plain depth (.bool value)
  | integer {depth : Nat} (value : Int) : Plain depth (.integer value)
  | text {depth : Nat} (value : Text) : Plain depth (.text value)
  | array {depth : Nat} {items : List Json} (each : ∀ item ∈ items, Plain depth item) :
      Plain (depth + 1) (.array items)
  | object {depth : Nat} {fields : List (Text × Json)} (distinct : (fields.map Prod.fst).Nodup)
      (each : ∀ field ∈ fields, Plain depth field.2) : Plain (depth + 1) (.object fields)

mutual

/-- The integers of a document in the order in which they are printed. -/
def integers : Json → List Int
  | integer value => [value]
  | array items => integersOfItems items
  | object fields => integersOfFields fields
  | _ => []

def integersOfItems : List Json → List Int
  | [] => []
  | item :: items => integers item ++ integersOfItems items

def integersOfFields : List (Text × Json) → List Int
  | [] => []
  | (_, value) :: fields => integers value ++ integersOfFields fields

end

mutual

/-- The texts of a document, the names of fields among them, in the order in which they are printed. -/
def texts : Json → List Text
  | text value => [value]
  | array items => textsOfItems items
  | object fields => textsOfFields fields
  | _ => []

def textsOfItems : List Json → List Text
  | [] => []
  | item :: items => texts item ++ textsOfItems items

def textsOfFields : List (Text × Json) → List Text
  | [] => []
  | (name, value) :: fields => name :: texts value ++ textsOfFields fields

end

theorem mem_integersOfItems {items : List Json} {value : Int} :
    value ∈ integersOfItems items ↔ ∃ item ∈ items, value ∈ item.integers := by
  induction items with
  | nil => simp [integersOfItems]
  | cons item items ih => simp [integersOfItems, ih]

theorem mem_integersOfFields {fields : List (Text × Json)} {value : Int} :
    value ∈ integersOfFields fields ↔ ∃ field ∈ fields, value ∈ field.2.integers := by
  induction fields with
  | nil => simp [integersOfFields]
  | cons field fields ih => simp [integersOfFields, ih]

/-! ## What can be printed -/

theorem printFaultOfItems?_eq_none_iff {room : Nat} {items : List Json} :
    printFaultOfItems? room items = none ↔ ∀ item ∈ items, item.printFault? room = none := by
  induction items with
  | nil => simp [printFaultOfItems?]
  | cons item items ih => simp [printFaultOfItems?, ih]

theorem printFaultOfFields?_eq_none_iff {room : Nat} {fields : List (Text × Json)} :
    printFaultOfFields? room fields = none ↔ ∀ field ∈ fields, field.2.printFault? room = none := by
  induction fields with
  | nil => simp [printFaultOfFields?]
  | cons field fields ih => simp [printFaultOfFields?, ih]

theorem printFault?_eq_none_iff {depth : Nat} {document : Json} (plain : Plain depth document) :
    document.printFault? depth = none ↔ ∀ value ∈ document.integers, value.natAbs < 10 ^ numeralDigits := by
  induction plain with
  | null => simp [printFault?, integers]
  | bool value => simp [printFault?, integers]
  | integer value => simp [printFault?, integers]
  | text value => simp [printFault?, integers]
  | @array depth items each ih =>
    rw [printFault?, printFaultOfItems?_eq_none_iff, integers]
    simp only [mem_integersOfItems]
    exact ⟨fun short value ⟨item, member, inside⟩ => (ih item member).mp (short item member) value inside,
      fun short item member => (ih item member).mpr fun value inside => short value ⟨item, member, inside⟩⟩
  | @object depth fields distinct each ih =>
    rw [printFault?, printFaultOfFields?_eq_none_iff, integers]
    simp only [mem_integersOfFields]
    exact ⟨fun short value ⟨field, member, inside⟩ => (ih field member).mp (short field member) value inside,
      fun short field member => (ih field member).mpr fun value inside => short value ⟨field, member, inside⟩⟩

theorem printFault?_of_items {room : Nat} {items : List Json} {fault : PrintFault}
    (found : printFaultOfItems? room items = some fault) : ∃ item ∈ items, item.printFault? room = some fault := by
  induction items with
  | nil => simp [printFaultOfItems?] at found
  | cons item items ih =>
    rcases Option.or_eq_some_iff.mp found with here | ⟨-, later⟩
    · exact ⟨item, List.mem_cons_self, here⟩
    · obtain ⟨other, member, there⟩ := ih later
      exact ⟨other, List.mem_cons_of_mem item member, there⟩

theorem printFault?_of_fields {room : Nat} {fields : List (Text × Json)} {fault : PrintFault}
    (found : printFaultOfFields? room fields = some fault) :
    ∃ field ∈ fields, field.2.printFault? room = some fault := by
  induction fields with
  | nil => simp [printFaultOfFields?] at found
  | cons field fields ih =>
    rcases Option.or_eq_some_iff.mp found with here | ⟨-, later⟩
    · exact ⟨field, List.mem_cons_self, here⟩
    · obtain ⟨other, member, there⟩ := ih later
      exact ⟨other, List.mem_cons_of_mem field member, there⟩

/-- Nothing in a plain document lies too deep, so the only fault that it can have is an integer. -/
theorem eq_tooManyDigits_of_plain {depth : Nat} {document : Json} (plain : Plain depth document) {fault : PrintFault}
    (found : document.printFault? depth = some fault) : fault = .tooManyDigits := by
  induction plain with
  | null => simp [printFault?] at found
  | bool value => simp [printFault?] at found
  | integer value =>
    rw [printFault?] at found
    split at found
    · exact (Option.some.inj found).symm
    · cases found
  | text value => simp [printFault?] at found
  | array each ih =>
    obtain ⟨item, member, there⟩ := printFault?_of_items found
    exact ih item member there
  | object distinct each ih =>
    obtain ⟨field, member, there⟩ := printFault?_of_fields found
    exact ih field member there

theorem print_of_long {document : Json} (plain : Plain nestingLimit document) {value : Int}
    (member : value ∈ document.integers) (long : 10 ^ numeralDigits ≤ value.natAbs) :
    document.print = .error .tooManyDigits := by
  cases found : document.printFault? nestingLimit with
  | none => exact absurd ((printFault?_eq_none_iff plain).mp found value member) (Nat.not_lt.mpr long)
  | some fault =>
    obtain rfl := eq_tooManyDigits_of_plain plain found
    rw [print, found]

theorem print_eq_ok_iff {document : Json} {source : Text} (plain : Plain nestingLimit document) :
    document.print = .ok source ↔
      (∀ value ∈ document.integers, value.natAbs < 10 ^ numeralDigits) ∧ printBefore [] 0 document = source := by
  rw [← printFault?_eq_none_iff plain, print]
  cases document.printFault? nestingLimit with
  | none => simp
  | some fault => simp

/-! ## Integers -/

/-- The digits of an integer without its sign. -/
def digitsOf (value : Int) : Text := (Nat.toDigits 10 value.natAbs).map .char

theorem ofInt_of_nonneg {value : Int} (sign : 0 ≤ value) : ofInt value = digitsOf value := by
  obtain ⟨n, rfl⟩ := Int.eq_ofNat_of_zero_le sign
  show (toString n).toList.map CodePoint.char = _
  simp [digitsOf]

theorem ofInt_of_neg {value : Int} (sign : value < 0) : ofInt value = CodePoint.char '-' :: digitsOf value := by
  obtain ⟨n, rfl⟩ := Int.eq_negSucc_of_lt_zero sign
  show ("-" ++ toString (n + 1)).toList.map CodePoint.char = _
  simp [digitsOf]

theorem digitsOf_ne_nil (value : Int) : digitsOf value ≠ [] := by
  rw [digitsOf, ne_eq, List.map_eq_nil_iff]
  exact Nat.toDigits_ne_nil

theorem isDigit_of_mem_digitsOf {value : Int} {c : CodePoint} (member : c ∈ digitsOf value) : isDigit c = true := by
  obtain ⟨d, digit, rfl⟩ := List.mem_map.mp member
  have decimal := Nat.isDigit_of_mem_toDigits (by decide) (by decide) digit
  simp only [Char.isDigit, ge_iff_le, Bool.and_eq_true, decide_eq_true_eq] at decimal
  rw [isDigit, CodePoint.toNat_char, Bool.and_eq_true]
  exact ⟨decide_eq_true decimal.1, decide_eq_true decimal.2⟩

theorem digitsValue_digitsOf (value : Int) : digitsValue (digitsOf value) = value.natAbs := by
  have read := @Nat.ofDigitChars_ten_toDigits value.natAbs
  rw [Nat.ofDigitChars_eq_foldl] at read
  rw [digitsValue, digitsOf, List.foldl_map]
  exact read

/-- The bound on the integer as a bound on its digits. -/
theorem length_digitsOf_le {value : Int} (short : value.natAbs < 10 ^ numeralDigits) :
    (digitsOf value).length ≤ numeralDigits := by
  rw [digitsOf, List.length_map]
  exact (Nat.length_toDigits_le_iff (by decide) (by decide)).mpr short

private theorem toDigits_of_head?_zero {n : Nat} (zero : (Nat.toDigits 10 n).head? = some '0') :
    Nat.toDigits 10 n = ['0'] := by
  induction n using Nat.strongRecOn with
  | ind n ih =>
    by_cases small : n < 10
    · rw [Nat.toDigits_of_lt_base small] at zero ⊢
      simpa using zero
    · rw [Nat.toDigits_of_base_le (by decide) (by omega), List.head?_append_of_ne_nil _ Nat.toDigits_ne_nil] at zero
      have front := ih (n / 10) (by omega) zero
      have value := @Nat.ofDigitChars_ten_toDigits (n / 10)
      rw [front] at value
      simp [Nat.ofDigitChars_cons] at value
      omega

/-- What follows a value in a printed document: nothing, a comma or the end of the line. -/
def Follows (rest : Text) : Prop := ∀ c ∈ rest.head?, c = ',' ∨ c = '\n'

theorem wholeDigits_digitsOf {rest : Text} (follows : Follows rest) (value : Int) :
    wholeDigits (digitsOf value ++ rest) = digitsOf value := by
  by_cases zero : (Nat.toDigits 10 value.natAbs).head? = some '0'
  · rw [digitsOf, toDigits_of_head?_zero zero]
    rfl
  · have stops : rest.takeWhile isDigit = [] := by
      cases rest with
      | nil => rfl
      | cons c rest => rcases follows c rfl with rfl | rfl <;> rfl
    unfold wholeDigits
    split
    · next source =>
      have head := congrArg List.head? source
      rw [List.head?_append_of_ne_nil _ (digitsOf_ne_nil value), digitsOf, List.head?_map] at head
      simp [zero] at head
    · rw [List.takeWhile_append_of_pos fun c member => isDigit_of_mem_digitsOf member, stops, List.append_nil]

theorem integerOf_digitsOf {value : Int} (short : value.natAbs < 10 ^ numeralDigits) :
    integerOf (decide (value < 0)) (digitsOf value) = .ok (integer value) := by
  rw [integerOf, if_neg (Nat.not_lt.mpr (length_digitsOf_le short))]
  simp only [digitsValue_digitsOf]
  congr 2
  by_cases sign : value < 0
  · rw [if_pos (decide_eq_true sign), Int.ofNat_eq_natCast]
    omega
  · rw [if_neg (by simpa using sign), Int.ofNat_eq_natCast]
    omega

theorem readNumber_ofInt {rest : Text} (follows : Follows rest) {value : Int}
    (short : value.natAbs < 10 ^ numeralDigits) : readNumber (ofInt value ++ rest) = .ok (integer value, rest) := by
  have noPart : fraction rest = [] := by
    cases rest with
    | nil => rfl
    | cons c rest => rcases follows c rfl with rfl | rfl <;> rfl
  have noPower : exponent rest = [] := by
    cases rest with
    | nil => rfl
    | cons c rest => rcases follows c rfl with rfl | rfl <;> rfl
  have whole := wholeDigits_digitsOf follows value
  have result := integerOf_digitsOf short
  by_cases sign : value < 0
  · simp only [sign, decide_true] at result
    simp [ofInt_of_neg sign, readNumber, whole, digitsOf_ne_nil, noPart, noPower, result, Except.map]
  · obtain ⟨d, more, digits⟩ := List.exists_cons_of_ne_nil (digitsOf_ne_nil value)
    have positive : (d == CodePoint.char '-') = false := by
      rw [beq_eq_false_iff_ne]
      rintro rfl
      have digit : isDigit (CodePoint.char '-') = true := isDigit_of_mem_digitsOf (digits ▸ List.mem_cons_self)
      exact absurd digit (by decide)
    simp only [sign, decide_false, digits] at result
    rw [digits, List.cons_append] at whole
    simp [ofInt_of_nonneg (Int.not_lt.mp sign), digits, readNumber, positive, whole, noPart, noPower, result,
      Except.map]

/-! ## Texts -/

private theorem hex_of_lt : ∀ n < 32, hex 4 n = ['0', '0', Nat.digitChar (n / 16), Nat.digitChar (n % 16)] ∧
    hexQuad? '0' '0' (Nat.digitChar (n / 16)) (Nat.digitChar (n % 16)) = some n := by decide

private theorem readText_letter (opened : Nat) {letter meant : CodePoint} (other : letter ≠ 'u')
    (escape : escapeOf? letter = some meant) (after : Text) :
    readText opened 0 (CodePoint.char '\\' :: letter :: after) = prepend meant (readText opened 0 after) := by
  simp [readText, readEscape, other, escape]

theorem readText_escapedChar (opened : Nat) (c : CodePoint) {after : Text} (more : after ≠ []) :
    readText opened 0 (escapedChar c ++ after) = prepend c (readText opened 0 after) := by
  unfold escapedChar
  split
  · subst_vars; exact readText_letter opened (by decide) rfl after
  split
  · subst_vars; exact readText_letter opened (by decide) rfl after
  split
  · subst_vars; exact readText_letter opened (by decide) rfl after
  split
  · subst_vars; exact readText_letter opened (by decide) rfl after
  split
  · subst_vars; exact readText_letter opened (by decide) rfl after
  split
  · next backspace =>
    obtain rfl : c = .ofNat 8 := by rw [← backspace, CodePoint.ofNat_toNat]
    exact readText_letter opened (by decide) rfl after
  split
  · next formFeed =>
    obtain rfl : c = .ofNat 12 := by rw [← formFeed, CodePoint.ofNat_toNat]
    exact readText_letter opened (by decide) rfl after
  split
  · next control =>
    -- The reader asks for a character behind the four digits; the closing quote is one at least.
    obtain ⟨next, after, rfl⟩ := List.exists_cons_of_ne_nil more
    obtain ⟨digits, unit⟩ := hex_of_lt c.toNat control
    have low : ¬ (0xD800 ≤ c.toNat ∧ c.toNat ≤ 0xDBFF) := by omega
    simp [digits, readText, readEscape, unicodeEscape, unit, low, Except.map]
  · simp [readText, *]

theorem readText_quoted (opened : Nat) (value rest : Text) :
    readText opened 0 (value.flatMap escapedChar ++ CodePoint.char '"' :: rest) = .ok (value, rest) := by
  induction value with
  | nil => simp [readText]
  | cons c value ih =>
    rw [List.flatMap_cons, List.append_assoc, readText_escapedChar opened c (by simp), ih]
    rfl

/-! ## How a printed document starts -/

/-- The characters with which a printed value may start. -/
def startsValue (c : CodePoint) : Bool := isDigit c || (['n', 't', 'f', '"', '[', '{', '-'] : Text).contains c

theorem startsValue_apart {c other : CodePoint} (starts : startsValue c = true) (no : startsValue other = false) :
    c ≠ other := by
  rintro rfl
  simp [no] at starts

/-- Some characters before what follows, without a carriage return. -/
def Extends (printed rest : Text) : Prop := ∃ part, printed = part ++ rest ∧ CodePoint.char '\r' ∉ part

/-- Some characters before what follows, without a carriage return; the first of them starts a value. -/
def Opens (printed rest : Text) : Prop :=
  ∃ first part, printed = first :: part ++ rest ∧ CodePoint.char '\r' ∉ first :: part ∧ startsValue first = true

section Extents

variable {printed middle rest after : Text} {c : CodePoint}

theorem Extends.refl (rest : Text) : Extends rest rest := ⟨[], rfl, by simp⟩

theorem Extends.trans (outer : Extends printed middle) (inner : Extends middle rest) : Extends printed rest := by
  obtain ⟨front, rfl, clean⟩ := outer
  obtain ⟨back, rfl, also⟩ := inner
  exact ⟨front ++ back, by rw [List.append_assoc], by simp [clean, also]⟩

theorem Extends.cons (inner : Extends printed rest) (other : c ≠ '\r') : Extends (c :: printed) rest := by
  obtain ⟨part, rfl, clean⟩ := inner
  exact ⟨c :: part, rfl, by simp [clean, other.symm]⟩

theorem Extends.length_le (inner : Extends printed rest) : rest.length ≤ printed.length := by
  obtain ⟨part, rfl, -⟩ := inner
  simp

theorem Extends.opens (inner : Extends printed rest) (starts : startsValue c = true) : Opens (c :: printed) rest := by
  obtain ⟨part, rfl, clean⟩ := inner
  have other := startsValue_apart starts (by decide : startsValue '\r' = false)
  exact ⟨c, part, rfl, by simp [clean, other.symm], starts⟩

theorem Opens.extends (opens : Opens printed rest) : Extends printed rest := by
  obtain ⟨first, part, rfl, clean, -⟩ := opens
  exact ⟨first :: part, rfl, clean⟩

theorem Opens.length_lt (opens : Opens printed rest) : rest.length < printed.length := by
  obtain ⟨first, part, rfl, -⟩ := opens
  rw [List.length_append, List.length_cons]
  omega

theorem Opens.ne_cons (opens : Opens printed rest) (no : startsValue c = false) : printed ≠ c :: after := by
  obtain ⟨first, part, rfl, -, starts⟩ := opens
  intro same
  exact startsValue_apart starts no (List.cons.inj same).1

theorem skipSpace_cons (shown : isSpace c = false) : skipSpace (c :: rest) = c :: rest := by
  simp [skipSpace, shown]

theorem Opens.skipSpace_eq (opens : Opens printed rest) : skipSpace printed = printed := by
  obtain ⟨first, part, rfl, -, starts⟩ := opens
  have shown : isSpace first = false := by
    simp [isSpace, startsValue_apart starts (by decide : startsValue ' ' = false),
      startsValue_apart starts (by decide : startsValue '\t' = false),
      startsValue_apart starts (by decide : startsValue '\n' = false),
      startsValue_apart starts (by decide : startsValue '\r' = false)]
  exact skipSpace_cons shown

end Extents

theorem extends_newlineBefore (rest : Text) (depth : Nat) : Extends (newlineBefore rest depth) rest :=
  ⟨CodePoint.char '\n' :: List.replicate (2 * depth) ' ', rfl, by simp⟩

theorem skipSpace_newlineBefore (rest : Text) (depth : Nat) :
    skipSpace (newlineBefore rest depth) = skipSpace rest := by
  rw [newlineBefore, skipSpace, List.dropWhile_append_of_pos]
  · rfl
  · intro c member
    rcases List.mem_cons.mp member with rfl | blank
    · rfl
    · rw [List.eq_of_mem_replicate blank]
      rfl

theorem not_mem_escapedChar (c : CodePoint) : CodePoint.char '\r' ∉ escapedChar c := by
  unfold escapedChar
  split_ifs with _ _ _ feed _ _ _ control
  all_goals try decide
  · rw [(hex_of_lt c.toNat control).1]
    simp
  · simpa using Ne.symm feed

theorem opens_quotedBefore (rest value : Text) : Opens (quotedBefore rest value) rest := by
  refine ⟨'"', value.flatMap escapedChar ++ [CodePoint.char '"'], by simp [quotedBefore], ?_, by decide⟩
  simp [not_mem_escapedChar]

theorem Extends.named {printed rest : Text} (inner : Extends printed rest) (name : Text) :
    Extends (quotedBefore (CodePoint.char ':' :: CodePoint.char ' ' :: printed) name) rest := by
  have blank : Extends (CodePoint.char ' ' :: printed) rest := inner.cons (by decide)
  have colon : Extends (CodePoint.char ':' :: CodePoint.char ' ' :: printed) rest := blank.cons (by decide)
  exact (opens_quotedBefore _ name).extends.trans colon

theorem opens_ofInt (value : Int) (rest : Text) : Opens (ofInt value ++ rest) rest := by
  have clean : CodePoint.char '\r' ∉ digitsOf value := fun member => absurd (isDigit_of_mem_digitsOf member) (by decide)
  by_cases sign : value < 0
  · rw [ofInt_of_neg sign]
    exact ⟨'-', digitsOf value, rfl, by simp [clean], by decide⟩
  · obtain ⟨d, more, digits⟩ := List.exists_cons_of_ne_nil (digitsOf_ne_nil value)
    have digit : isDigit d = true := isDigit_of_mem_digitsOf (digits ▸ List.mem_cons_self)
    rw [digits] at clean
    rw [ofInt_of_nonneg (Int.not_lt.mp sign), digits]
    exact ⟨d, more, rfl, clean, by simp [startsValue, digit]⟩

theorem extends_printItemsBefore {items : List Json} (rest : Text) (level : Nat)
    (each : ∀ item ∈ items, ∀ rest, Opens (printBefore rest level item) rest) :
    Extends (printItemsBefore rest level items) rest := by
  induction items with
  | nil =>
    rw [printItemsBefore]
    exact .refl rest
  | cons item items ih =>
    rw [printItemsBefore]
    have later := ih fun other member => each other (List.mem_cons_of_mem item member)
    have first := (each item List.mem_cons_self _).extends.trans later
    exact ((extends_newlineBefore _ level).trans first).cons (by decide)

theorem extends_printFieldsBefore {fields : List (Text × Json)} (rest : Text) (level : Nat)
    (each : ∀ field ∈ fields, ∀ rest, Opens (printBefore rest level field.2) rest) :
    Extends (printFieldsBefore rest level fields) rest := by
  induction fields with
  | nil =>
    rw [printFieldsBefore]
    exact .refl rest
  | cons field fields ih =>
    obtain ⟨name, value⟩ := field
    rw [printFieldsBefore]
    have later := ih fun other member => each other (List.mem_cons_of_mem _ member)
    have first := (each (name, value) List.mem_cons_self _).extends.trans later
    exact ((extends_newlineBefore _ level).trans (first.named name)).cons (by decide)

theorem opens_printBefore {depth : Nat} {document : Json} (plain : Plain depth document) (rest : Text) (level : Nat) :
    Opens (printBefore rest level document) rest := by
  induction plain generalizing rest level with
  | null => exact ⟨'n', ['u', 'l', 'l'], by rw [printBefore]; rfl, by decide, by decide⟩
  | bool value =>
    cases value with
    | true => exact ⟨'t', ['r', 'u', 'e'], by rw [printBefore]; rfl, by decide, by decide⟩
    | false => exact ⟨'f', ['a', 'l', 's', 'e'], by rw [printBefore]; rfl, by decide, by decide⟩
  | integer value =>
    rw [printBefore]
    exact opens_ofInt value rest
  | text value =>
    rw [printBefore]
    exact opens_quotedBefore rest value
  | @array depth items each ih =>
    cases items with
    | nil => exact ⟨'[', [']'], by rw [printBefore]; rfl, by decide, by decide⟩
    | cons item items =>
      rw [printBefore]
      have close := (extends_newlineBefore (CodePoint.char ']' :: rest) level).trans
        ((Extends.refl rest).cons (by decide))
      have later := (extends_printItemsBefore _ (level + 1) fun other member rest =>
        ih other (List.mem_cons_of_mem item member) rest (level + 1)).trans close
      have first := (ih item List.mem_cons_self _ (level + 1)).extends.trans later
      exact ((extends_newlineBefore _ (level + 1)).trans first).opens (by decide)
  | @object depth fields distinct each ih =>
    cases fields with
    | nil => exact ⟨'{', ['}'], by rw [printBefore]; rfl, by decide, by decide⟩
    | cons field fields =>
      obtain ⟨name, value⟩ := field
      rw [printBefore]
      have close := (extends_newlineBefore (CodePoint.char '}' :: rest) level).trans
        ((Extends.refl rest).cons (by decide))
      have later := (extends_printFieldsBefore _ (level + 1) fun other member rest =>
        ih other (List.mem_cons_of_mem _ member) rest (level + 1)).trans close
      have first := (ih (name, value) List.mem_cons_self _ (level + 1)).extends.trans later
      exact ((extends_newlineBefore _ (level + 1)).trans (first.named name)).opens (by decide)

/-! ## The surrogates of a printed document -/

section Surrogates

variable {offset : Fin 0x800}

theorem surrogate_mem_escapedChar {c : CodePoint} : .surrogate offset ∈ escapedChar c ↔ .surrogate offset = c := by
  cases c with
  | surrogate other =>
    have shown : escapedChar (.surrogate other) = [.surrogate other] := by
      have least : 0xD800 ≤ (CodePoint.surrogate other).toNat := Nat.le_add_right _ _
      simp only [escapedChar, reduceCtorEq, if_false]
      rw [if_neg (by omega), if_neg (by omega), if_neg (by omega)]
    rw [shown, List.mem_singleton]
  | char c =>
    simp only [reduceCtorEq, iff_false]
    unfold escapedChar
    split_ifs with _ _ _ _ _ _ _ control
    all_goals try simp
    · rw [(hex_of_lt c.toNat control).1]
      simp

theorem surrogate_mem_quotedBefore {rest value : Text} :
    .surrogate offset ∈ quotedBefore rest value ↔ .surrogate offset ∈ value ∨ .surrogate offset ∈ rest := by
  simp [quotedBefore, surrogate_mem_escapedChar]

theorem surrogate_mem_newlineBefore {rest : Text} {depth : Nat} :
    .surrogate offset ∈ newlineBefore rest depth ↔ .surrogate offset ∈ rest := by
  simp [newlineBefore]

theorem surrogate_mem_printItemsBefore {items : List Json} (rest : Text) (level : Nat)
    (each : ∀ item ∈ items, ∀ rest, .surrogate offset ∈ printBefore rest level item ↔
      (∃ text ∈ item.texts, .surrogate offset ∈ text) ∨ .surrogate offset ∈ rest) :
    .surrogate offset ∈ printItemsBefore rest level items ↔
      (∃ text ∈ textsOfItems items, .surrogate offset ∈ text) ∨ .surrogate offset ∈ rest := by
  induction items with
  | nil => simp [printItemsBefore, textsOfItems]
  | cons item items ih =>
    have later := ih fun other member => each other (List.mem_cons_of_mem item member)
    simp only [printItemsBefore, List.mem_cons, reduceCtorEq, false_or, surrogate_mem_newlineBefore,
      each item List.mem_cons_self, later, textsOfItems, List.mem_append, or_and_right, exists_or, or_assoc]

theorem surrogate_mem_printFieldsBefore {fields : List (Text × Json)} (rest : Text) (level : Nat)
    (each : ∀ field ∈ fields, ∀ rest, .surrogate offset ∈ printBefore rest level field.2 ↔
      (∃ text ∈ field.2.texts, .surrogate offset ∈ text) ∨ .surrogate offset ∈ rest) :
    .surrogate offset ∈ printFieldsBefore rest level fields ↔
      (∃ text ∈ textsOfFields fields, .surrogate offset ∈ text) ∨ .surrogate offset ∈ rest := by
  induction fields with
  | nil => simp [printFieldsBefore, textsOfFields]
  | cons field fields ih =>
    obtain ⟨name, value⟩ := field
    have later := ih fun other member => each other (List.mem_cons_of_mem _ member)
    simp only [printFieldsBefore, List.mem_cons, reduceCtorEq, false_or, surrogate_mem_newlineBefore,
      surrogate_mem_quotedBefore, each (name, value) List.mem_cons_self, later, textsOfFields, List.mem_append,
      or_and_right, exists_or, exists_eq_left, or_assoc, List.cons_append]

theorem surrogate_mem_printBefore {depth : Nat} {document : Json} (plain : Plain depth document) (rest : Text)
    (level : Nat) : .surrogate offset ∈ printBefore rest level document ↔
      (∃ text ∈ document.texts, .surrogate offset ∈ text) ∨ .surrogate offset ∈ rest := by
  induction plain generalizing rest level with
  | null => simp [printBefore, texts]
  | bool value => cases value <;> simp [printBefore, texts]
  | integer value => simp [printBefore, texts, ofInt, ofString]
  | text value => simp [printBefore, texts, surrogate_mem_quotedBefore]
  | @array depth items each ih =>
    cases items with
    | nil => simp [printBefore, texts, textsOfItems]
    | cons item items =>
      have later := surrogate_mem_printItemsBefore (newlineBefore (CodePoint.char ']' :: rest) level) (level + 1)
        fun other member rest => ih other (List.mem_cons_of_mem item member) rest (level + 1)
      simp [printBefore, surrogate_mem_newlineBefore, ih item List.mem_cons_self, later, texts, textsOfItems,
        or_and_right, exists_or, or_assoc]
  | @object depth fields distinct each ih =>
    cases fields with
    | nil => simp [printBefore, texts, textsOfFields]
    | cons field fields =>
      obtain ⟨name, value⟩ := field
      have later := surrogate_mem_printFieldsBefore (newlineBefore (CodePoint.char '}' :: rest) level) (level + 1)
        fun other member rest => ih other (List.mem_cons_of_mem _ member) rest (level + 1)
      simp [printBefore, surrogate_mem_newlineBefore, surrogate_mem_quotedBefore, ih (name, value) List.mem_cons_self,
        later, texts, textsOfFields, or_and_right, exists_or, or_assoc]

end Surrogates

/-! ## Reading what was printed -/

/-- The document is read back from where it is printed. -/
def ReadsBack (depth : Nat) (document : Json) : Prop :=
  ∀ (fuel level : Nat) (rest : Text), Follows rest → 2 * (printBefore rest level document).length ≤ fuel →
    readValue fuel depth (printBefore rest level document) = .ok (document, rest)

section Reading

variable {depth level fuel : Nat} {close rest after : Text}

theorem readValue_of_other {c : CodePoint} (text : c ≠ '"') (array : c ≠ '[') (object : c ≠ '{') :
    readValue (fuel + 1) depth (c :: rest) = match readWord? (c :: rest) with
      | some answer => .ok answer
      | none => readNumber (c :: rest) := by
  rw [readValue.eq_def]
  simp only
  split
  · next same => exact absurd (List.cons.inj same).1 text
  · next same => exact absurd (List.cons.inj same).1 array
  · next same => exact absurd (List.cons.inj same).1 object
  · rfl

theorem readValue_ofInt (follows : Follows rest) {value : Int} (short : value.natAbs < 10 ^ numeralDigits) :
    readValue (fuel + 1) depth (ofInt value ++ rest) = .ok (integer value, rest) := by
  obtain ⟨d, more, digits⟩ := List.exists_cons_of_ne_nil (digitsOf_ne_nil value)
  have digit : isDigit d = true := isDigit_of_mem_digitsOf (digits ▸ List.mem_cons_self)
  have apart (other : CodePoint) (no : isDigit other = false) : other ≠ d := by
    rintro rfl
    simp [no] at digit
  rw [← readNumber_ofInt follows short]
  by_cases sign : value < 0
  · have noWord : readWord? (CodePoint.char '-' :: d :: more ++ rest) = none := by
      simp [readWord?, words, ofString, apart 'I' (by decide)]
    rw [ofInt_of_neg sign, digits, List.cons_append, readValue_of_other (by decide) (by decide) (by decide),
      ← List.cons_append, noWord]
  · have noWord : readWord? (d :: more ++ rest) = none := by
      simp [readWord?, words, ofString, apart 'n' (by decide), apart 't' (by decide), apart 'f' (by decide),
        apart 'N' (by decide), apart 'I' (by decide), apart '-' (by decide)]
    rw [ofInt_of_nonneg (Int.not_lt.mp sign), digits, List.cons_append,
      readValue_of_other (apart '"' (by decide)).symm (apart '[' (by decide)).symm (apart '{' (by decide)).symm,
      ← List.cons_append, noWord]

theorem follows_printItemsBefore (ends : Follows close) (items : List Json) :
    Follows (printItemsBefore close level items) := by
  cases items with
  | nil =>
    rw [printItemsBefore]
    exact ends
  | cons item items => simp [printItemsBefore, Follows]

theorem follows_printFieldsBefore (ends : Follows close) (fields : List (Text × Json)) :
    Follows (printFieldsBefore close level fields) := by
  cases fields with
  | nil =>
    rw [printFieldsBefore]
    exact ends
  | cons field fields => simp [printFieldsBefore, Follows]

private theorem readItems_step {item : Json} (reads : ReadsBack depth item) (follows : Follows after)
    (enough : 2 * (printBefore after level item).length ≤ fuel) (reversed : List Json) :
    readItems (fuel + 1) depth reversed (printBefore after level item) =
      match skipSpace after with
      | CodePoint.char ']' :: rest => .ok (array (item :: reversed).reverse, rest)
      | CodePoint.char ',' :: rest => readItems fuel depth (item :: reversed) (skipSpace rest)
      | rest => .error (.fault .expectingComma rest.length) := by
  rewrite [readItems, reads fuel level after follows enough]
  rfl

theorem readItems_printed (level fuel : Nat) {items : List Json} {item : Json} (ends : Follows close)
    (closes : skipSpace close = CodePoint.char ']' :: rest) (plain : ∀ other ∈ item :: items, Plain depth other)
    (each : ∀ other ∈ item :: items, ReadsBack depth other) (reversed : List Json)
    (enough : 2 * (printBefore (printItemsBefore close level items) level item).length < fuel) :
    readItems fuel depth reversed (printBefore (printItemsBefore close level items) level item) =
      .ok (array (reversed.reverse ++ item :: items), rest) := by
  obtain ⟨fuel, rfl⟩ := Nat.exists_eq_add_of_le' (show 1 ≤ fuel by omega)
  have here := each item List.mem_cons_self
  induction items generalizing item reversed fuel with
  | nil =>
    rw [readItems_step here (follows_printItemsBefore ends []) (by omega)]
    simp [printItemsBefore, closes]
  | cons next items ih =>
    have shorter := (opens_printBefore (plain item List.mem_cons_self) (printItemsBefore close level (next :: items))
      level).length_lt
    have onward := opens_printBefore (plain next (by simp)) (printItemsBefore close level items) level
    have line := (extends_newlineBefore (printBefore (printItemsBefore close level items) level next) level).length_le
    rw [readItems_step here (follows_printItemsBefore ends _) (by omega)]
    rw [printItemsBefore] at enough shorter
    rw [List.length_cons] at shorter
    obtain ⟨fuel, rfl⟩ := Nat.exists_eq_add_of_le' (show 1 ≤ fuel by omega)
    have later := ih (fun other member => plain other (List.mem_cons_of_mem item member))
      (fun other member => each other (List.mem_cons_of_mem item member)) (item :: reversed) fuel (by omega)
      (each next (by simp))
    rw [printItemsBefore, skipSpace_cons (by decide)]
    simp only [skipSpace_newlineBefore, onward.skipSpace_eq, later, List.reverse_cons, List.append_assoc,
      List.singleton_append]

private theorem readFields_step {name : Text} {value : Json} (plain : Plain depth value)
    (reads : ReadsBack depth value) (follows : Follows after)
    (enough : 2 * (printBefore after level value).length ≤ fuel) (before : OrderedMap Text Json) :
    readFields (fuel + 1) depth before
        (quotedBefore (CodePoint.char ':' :: CodePoint.char ' ' :: printBefore after level value) name) =
      match skipSpace after with
      | CodePoint.char '}' :: rest => .ok (object (before.insert name value).entries, rest)
      | CodePoint.char ',' :: rest => readFields fuel depth (before.insert name value) (skipSpace rest)
      | rest => .error (.fault .expectingComma rest.length) := by
  have colon : skipSpace (CodePoint.char ':' :: CodePoint.char ' ' :: printBefore after level value) =
      CodePoint.char ':' :: CodePoint.char ' ' :: printBefore after level value :=
    skipSpace_cons (by decide)
  have blank : skipSpace (CodePoint.char ' ' :: printBefore after level value) = printBefore after level value :=
    (opens_printBefore plain after level).skipSpace_eq
  rw [quotedBefore, List.cons_append, readFields, readText_quoted]
  simp only [colon, blank]
  rewrite [reads fuel level after follows enough]
  rfl

theorem readFields_printed (level fuel : Nat) {fields : List (Text × Json)} {name : Text} {value : Json}
    (ends : Follows close) (closes : skipSpace close = CodePoint.char '}' :: rest)
    (plain : ∀ field ∈ (name, value) :: fields, Plain depth field.2)
    (each : ∀ field ∈ (name, value) :: fields, ReadsBack depth field.2) (before : OrderedMap Text Json)
    (distinct : ((before.entries ++ (name, value) :: fields).map Prod.fst).Nodup)
    (enough : 2 * (printBefore (printFieldsBefore close level fields) level value).length < fuel) :
    readFields fuel depth before
        (quotedBefore (CodePoint.char ':' :: CodePoint.char ' ' ::
          printBefore (printFieldsBefore close level fields) level value) name) =
      .ok (object (before.entries ++ (name, value) :: fields), rest) := by
  obtain ⟨fuel, rfl⟩ := Nat.exists_eq_add_of_le' (show 1 ≤ fuel by omega)
  have here : Plain depth value := plain (name, value) List.mem_cons_self
  have reads : ReadsBack depth value := each (name, value) List.mem_cons_self
  have inserted : (before.insert name value).entries = before.entries ++ [(name, value)] :=
    OrderedMap.entries_insert_of_nodup distinct
  induction fields generalizing name value before fuel with
  | nil =>
    rw [readFields_step here reads (follows_printFieldsBefore ends []) (by omega)]
    simp [printFieldsBefore, closes, inserted]
  | cons next fields ih =>
    obtain ⟨nextName, nextValue⟩ := next
    have shorter := (opens_printBefore here (printFieldsBefore close level ((nextName, nextValue) :: fields))
      level).length_lt
    have named := opens_quotedBefore (CodePoint.char ':' :: CodePoint.char ' ' ::
      printBefore (printFieldsBefore close level fields) level nextValue) nextName
    have line := ((extends_newlineBefore _ level).trans named.extends).length_le
    rw [readFields_step here reads (follows_printFieldsBefore ends _) (by omega)]
    rw [printFieldsBefore] at enough shorter
    simp only [List.length_cons] at shorter line
    obtain ⟨fuel, rfl⟩ := Nat.exists_eq_add_of_le' (show 1 ≤ fuel by omega)
    have onward : (((before.insert name value).entries ++ (nextName, nextValue) :: fields).map Prod.fst).Nodup := by
      rwa [inserted, List.append_assoc]
    have later := ih (fun other member => plain other (List.mem_cons_of_mem _ member))
      (fun other member => each other (List.mem_cons_of_mem _ member)) (before.insert name value) onward fuel (by omega)
      (plain (nextName, nextValue) (by simp)) (each (nextName, nextValue) (by simp))
      (OrderedMap.entries_insert_of_nodup onward)
    rw [printFieldsBefore, skipSpace_cons (by decide)]
    simp only [skipSpace_newlineBefore, named.skipSpace_eq, later, inserted, List.append_assoc, List.singleton_append]

theorem readsBack_array {items : List Json} (plain : ∀ item ∈ items, Plain depth item)
    (each : ∀ item ∈ items, ReadsBack depth item) : ReadsBack (depth + 1) (array items) := by
  intro fuel level rest _ enough
  cases items with
  | nil =>
    rw [printBefore] at enough ⊢
    simp only [List.length_cons] at enough
    obtain ⟨fuel, rfl⟩ := Nat.exists_eq_add_of_le' (show 1 ≤ fuel by omega)
    rw [readValue]
    simp [skipSpace, isSpace]
  | cons item items =>
    have closes : skipSpace (newlineBefore (CodePoint.char ']' :: rest) level) = CodePoint.char ']' :: rest :=
      skipSpace_newlineBefore _ level
    have opens := opens_printBefore (plain item List.mem_cons_self)
      (printItemsBefore (newlineBefore (CodePoint.char ']' :: rest) level) (level + 1) items) (level + 1)
    have line := (extends_newlineBefore (printBefore (printItemsBefore (newlineBefore (CodePoint.char ']' :: rest)
      level) (level + 1) items) (level + 1) item) (level + 1)).length_le
    rw [printBefore] at enough ⊢
    rw [List.length_cons] at enough
    obtain ⟨fuel, rfl⟩ := Nat.exists_eq_add_of_le' (show 1 ≤ fuel by omega)
    have read := readItems_printed (level + 1) fuel (by simp [Follows, newlineBefore]) closes plain
      each [] (by omega)
    rw [readValue]
    simp only [skipSpace_newlineBefore, opens.skipSpace_eq]
    split
    · next same => exact absurd same (opens.ne_cons (by decide))
    · exact read

theorem readsBack_object {fields : List (Text × Json)} (distinct : (fields.map Prod.fst).Nodup)
    (plain : ∀ field ∈ fields, Plain depth field.2) (each : ∀ field ∈ fields, ReadsBack depth field.2) :
    ReadsBack (depth + 1) (object fields) := by
  intro fuel level rest _ enough
  cases fields with
  | nil =>
    rw [printBefore] at enough ⊢
    simp only [List.length_cons] at enough
    obtain ⟨fuel, rfl⟩ := Nat.exists_eq_add_of_le' (show 1 ≤ fuel by omega)
    rw [readValue]
    simp [skipSpace, isSpace]
  | cons field fields =>
    obtain ⟨name, value⟩ := field
    have closes : skipSpace (newlineBefore (CodePoint.char '}' :: rest) level) = CodePoint.char '}' :: rest :=
      skipSpace_newlineBefore _ level
    have named := opens_quotedBefore (CodePoint.char ':' :: CodePoint.char ' ' :: printBefore (printFieldsBefore
      (newlineBefore (CodePoint.char '}' :: rest) level) (level + 1) fields) (level + 1) value) name
    have line := ((extends_newlineBefore _ (level + 1)).trans named.extends).length_le
    rw [printBefore] at enough ⊢
    simp only [List.length_cons] at enough line
    obtain ⟨fuel, rfl⟩ := Nat.exists_eq_add_of_le' (show 1 ≤ fuel by omega)
    have read := readFields_printed (level + 1) fuel (by simp [Follows, newlineBefore]) closes plain
      each .empty distinct (by omega)
    rw [readValue]
    simp only [skipSpace_newlineBefore, named.skipSpace_eq]
    split
    · next same => exact absurd same (named.ne_cons (by decide))
    · exact read

end Reading

private theorem readsBack_word {depth : Nat} {document : Json} (c : CodePoint) (letters : Text)
    (printed : ∀ rest level, printBefore rest level document = c :: letters ++ rest)
    (text : c ≠ '"') (array : c ≠ '[') (object : c ≠ '{')
    (found : ∀ rest, readWord? (c :: letters ++ rest) = some (document, rest)) : ReadsBack depth document := by
  intro fuel level rest _ enough
  rw [printed, List.cons_append, List.length_cons] at enough
  obtain ⟨fuel, rfl⟩ := Nat.exists_eq_add_of_le' (show 1 ≤ fuel by omega)
  rw [printed, List.cons_append, readValue_of_other text array object, ← List.cons_append, found]

theorem readsBack {depth : Nat} {document : Json} (plain : Plain depth document)
    (short : ∀ value ∈ document.integers, value.natAbs < 10 ^ numeralDigits) : ReadsBack depth document := by
  induction plain with
  | null =>
    refine readsBack_word 'n' ['u', 'l', 'l'] (fun _ _ => by simp [printBefore]) (by decide) (by decide) (by decide)
      fun _ => ?_
    simp [readWord?, words, ofString]
  | bool value =>
    cases value with
    | true =>
      refine readsBack_word 't' ['r', 'u', 'e'] (fun _ _ => by simp [printBefore]) (by decide) (by decide) (by decide)
        fun _ => ?_
      simp [readWord?, words, ofString]
    | false =>
      refine readsBack_word 'f' ['a', 'l', 's', 'e'] (fun _ _ => by simp [printBefore]) (by decide) (by decide)
        (by decide) fun _ => ?_
      simp [readWord?, words, ofString]
  | integer value =>
    intro fuel level rest follows enough
    have opens := (opens_ofInt value rest).length_lt
    rw [printBefore] at enough ⊢
    obtain ⟨fuel, rfl⟩ := Nat.exists_eq_add_of_le' (show 1 ≤ fuel by omega)
    exact readValue_ofInt follows (short value (by simp [integers]))
  | text value =>
    intro fuel level rest _ enough
    rw [printBefore, quotedBefore, List.cons_append] at enough ⊢
    rw [List.length_cons] at enough
    obtain ⟨fuel, rfl⟩ := Nat.exists_eq_add_of_le' (show 1 ≤ fuel by omega)
    rw [readValue, readText_quoted]
  | array each ih =>
    rw [integers] at short
    exact readsBack_array each fun item member => ih item member fun value inside =>
      short value (mem_integersOfItems.mpr ⟨item, member, inside⟩)
  | object distinct each ih =>
    rw [integers] at short
    exact readsBack_object distinct each fun field member => ih field member fun value inside =>
      short value (mem_integersOfFields.mpr ⟨field, member, inside⟩)

section Printed

variable {document : Json} {source : Text} (plain : Plain nestingLimit document) (printed : document.print = .ok source)
include plain printed

/-- A printed document is read as it was. -/
theorem parse_print : parse source = .ok document := by
  obtain ⟨short, rfl⟩ := (print_eq_ok_iff plain).mp printed
  have opens : Opens (printBefore [] 0 document) [] := opens_printBefore plain [] 0
  have read := readsBack plain short (2 * (printBefore [] 0 document).length + 2) 0 [] (by simp [Follows]) (by omega)
  have noMark : ((printBefore [] 0 document).head? == some (.ofNat 0xFEFF)) = false := by
    rw [beq_eq_false_iff_ne]
    intro mark
    obtain ⟨after, same⟩ := List.head?_eq_some_iff.mp mark
    exact opens.ne_cons (by decide) same
  rw [parse, noMark, opens.skipSpace_eq, read]
  rfl

/-- There is no carriage return in a printed document. -/
theorem not_mem_print : CodePoint.char '\r' ∉ source := by
  obtain ⟨-, rfl⟩ := (print_eq_ok_iff plain).mp printed
  obtain ⟨part, same, clean⟩ := (opens_printBefore plain [] 0).extends
  rw [same, List.append_nil]
  exact clean

/-- The surrogates of a printed document are those of its texts. -/
theorem surrogate_mem_print {offset : Fin 0x800} :
    .surrogate offset ∈ source ↔ ∃ text ∈ document.texts, .surrogate offset ∈ text := by
  obtain ⟨-, rfl⟩ := (print_eq_ok_iff plain).mp printed
  simp [surrogate_mem_printBefore plain]

end Printed

end ApexComments.Json
