import ApexComments.Proofs.PrintedDocuments
import ApexComments.Proofs.Storage
import ApexComments.Report

/-!
# Reports are read back

A report that is written to a file is read back from it with all its fields in their order: no carriage return
stands in a printed document, so unifying newlines changes nothing, and a printed document is read as it was. What
stands in the way of a report is an integer with too many digits, which is not printed, or a surrogate in a text,
which has no bytes; there is nothing else (`Report.write_then_read`).
-/
namespace ApexComments

open Text Json

/-! ## The documents of payloads -/

theorem Json.Plain.mono {depth deeper : Nat} {document : Json} (plain : Plain depth document) (more : depth ≤ deeper) :
    Plain deeper document := by
  induction plain generalizing deeper with
  | null => exact .null
  | bool value => exact .bool value
  | integer value => exact .integer value
  | text value => exact .text value
  | array each ih =>
    obtain ⟨deeper, rfl⟩ := Nat.exists_eq_add_of_le' (Nat.le_trans (Nat.le_add_left 1 _) more)
    exact .array fun item member => ih item member (by omega)
  | object distinct each ih =>
    obtain ⟨deeper, rfl⟩ := Nat.exists_eq_add_of_le' (Nat.le_trans (Nat.le_add_left 1 _) more)
    exact .object distinct fun field member => ih field member (by omega)

theorem plain_ofText? (value : Option Text) : Plain 0 (.ofText? value) := by
  cases value with
  | none => exact .null
  | some value => exact .text value

theorem Location.plain_toJson (location : Location) : Plain 1 location.toJson := by
  refine .object (by simp) ?_
  simp only [List.forall_mem_cons]
  exact ⟨.integer _, .integer _, .integer _, .integer _, by simp⟩

theorem plain_mapValues {α : Type} {depth : Nat} (map : OrderedMap Text α) {toJson : α → Json}
    (each : ∀ value, Plain depth (toJson value)) :
    Plain (depth + 1) (.object (map.entries.map fun entry => (entry.1, toJson entry.2))) := by
  refine .object (by simpa [Function.comp_def] using map.distinct) ?_
  intro field member
  obtain ⟨entry, -, rfl⟩ := List.mem_map.mp member
  exact each entry.2

theorem DocComment.plain_toJson (doc : DocComment) : Plain 3 doc.toJson := by
  have texts (map : OrderedMap Text Text) : Plain 2 (textsToJson map) :=
    plain_mapValues map fun value => .text value
  have values : Plain 2 (.object (doc.tagValues.entries.map fun entry => (entry.1, .array (entry.2.map .text)))) := by
    refine plain_mapValues doc.tagValues fun values => .array ?_
    intro item member
    obtain ⟨value, -, rfl⟩ := List.mem_map.mp member
    exact .text value
  refine .object (by simp) ?_
  simp only [List.forall_mem_cons]
  exact ⟨doc.location.plain_toJson.mono (by decide), .text _, texts _, (plain_ofText? _).mono (by decide),
    (plain_ofText? _).mono (by decide), (plain_ofText? _).mono (by decide), texts _, values, by simp⟩

theorem DeclarationRow.plain_toJson (row : DeclarationRow) : Plain 4 row.toJson := by
  refine .object (by simp) ?_
  simp only [List.forall_mem_cons]
  refine ⟨.text _, .text _, (plain_ofText? _).mono (by decide), .integer _, .integer _,
    row.location.plain_toJson.mono (by decide), ?_, by simp⟩
  cases row.doc with
  | none => exact .null
  | some doc => exact doc.plain_toJson

theorem FilePayload.plain_toJson (payload : FilePayload) : Plain 6 payload.toJson := by
  refine .object (by simp) ?_
  simp only [List.forall_mem_cons]
  refine ⟨.text _, .text _, .integer _, .integer _, .integer _, .array ?_, by simp⟩
  intro item member
  obtain ⟨row, -, rfl⟩ := List.mem_map.mp member
  exact row.plain_toJson

namespace Report

theorem plain_ofPayloads (payloads : List FilePayload) : Plain nestingLimit (ofPayloads payloads) := by
  have shallow : Plain 7 (ofPayloads payloads) := by
    refine .array ?_
    intro item member
    obtain ⟨payload, -, rfl⟩ := List.mem_map.mp member
    exact payload.plain_toJson
  exact shallow.mono (by decide)

/-! ## Written and read -/

variable {disk later : Disk} {path : Path} {report : Json}

theorem write_eq_ok_iff : write disk path report = (later, .ok ()) ↔
    ∃ made source bytes, disk.ensureDirectory path.parent = (made, .ok ()) ∧ report.print = .ok source ∧
      encodeStrict source = .ok bytes ∧ made.write path ⟨bytes.toArray⟩ = .ok later := by
  rw [write]
  obtain ⟨made, fault | ⟨⟩⟩ := disk.ensureDirectory path.parent
  · simp
  cases report.print with
  | error fault => simp
  | ok source =>
    cases encoded : encodeStrict source with
    | error error =>
      simp only [encoded, Except.toOption, Except.mapError, Except.map]
      split <;> simp [encoded]
    | ok bytes =>
      cases written : made.write path ⟨bytes.toArray⟩ <;>
        simp [encoded, written, Except.toOption, Except.mapError, Except.map]

/-- The report can be written to the path and is read back as it was. The file holds some text, and the report is
printed as this text with a line feed after it. -/
def Kept (disk : Disk) (path : Path) (report : Json) : Prop :=
  ∃ later, write disk path report = (later, .ok ()) ∧ read later path = .ok report ∧
    ∃ contents source, later.read path = .ok contents ∧ decodeStrict contents.toList = .ok source ∧
      printed report = .ok (source ++ [CodePoint.char '\n'])

/-- Every integer has at most as many digits as a numeral may have, and no text holds a surrogate. -/
def Keepable (report : Json) : Prop :=
  (∀ value ∈ report.integers, value.natAbs < 10 ^ numeralDigits) ∧
    ∀ text ∈ report.texts, ∀ c ∈ text, c.isSurrogate = false

theorem keepable_iff (plain : Plain nestingLimit report) :
    Keepable report ↔ ∃ source bytes, report.print = .ok source ∧ encodeStrict source = .ok bytes := by
  constructor
  · rintro ⟨short, characters⟩
    have printed := (print_eq_ok_iff plain).mpr ⟨short, rfl⟩
    refine ⟨_, _, printed, encodeStrict_eq_ok_iff.mpr ⟨?_, rfl⟩⟩
    intro c member
    cases c with
    | char c => rfl
    | surrogate offset =>
      obtain ⟨text, inside, there⟩ := (surrogate_mem_print plain printed).mp member
      exact characters text inside _ there
  · rintro ⟨source, bytes, printed, encoded⟩
    refine ⟨((print_eq_ok_iff plain).mp printed).1, ?_⟩
    intro text inside c member
    cases c with
    | char c => rfl
    | surrogate offset =>
      exact (encodeStrict_eq_ok_iff.mp encoded).1 _ ((surrogate_mem_print plain printed).mpr ⟨text, inside, member⟩)

/-- The bytes of a printed report are read as the report. -/
theorem ofText_of_print {source : Text} (plain : Plain nestingLimit report) (printed : report.print = .ok source) :
    ofText source = .ok report := by
  rw [ofText, unifyNewlines_of_not_mem (not_mem_print plain printed), parse_print plain printed]

theorem kept_iff (home : disk.root.HasDirectory disk.workingDirectory) (writable : disk.Writable path)
    (readable : disk.Readable path) (plain : Plain nestingLimit report) : Kept disk path report ↔ Keepable report := by
  rw [keepable_iff plain]
  constructor
  · rintro ⟨later, written, -⟩
    obtain ⟨made, source, bytes, -, printed, encoded, -⟩ := write_eq_ok_iff.mp written
    exact ⟨source, bytes, printed, encoded⟩
  · rintro ⟨source, bytes, printed, encoded⟩
    have named := writable.components_ne_nil home
    obtain ⟨made, ensured, emptied, writing⟩ := writable
    obtain ⟨place, reached, free, granted, -⟩ := Disk.write_eq_ok_iff.mp writing
    have written : made.write path ⟨bytes.toArray⟩ = .ok _ :=
      Disk.write_eq_ok_iff.mpr ⟨place, reached, free, granted, rfl⟩
    have contents := Disk.read_of_write named (readable made ensured) written
    obtain ⟨characters, rfl⟩ := encodeStrict_eq_ok_iff.mp encoded
    have decoded : decodeStrict (ByteArray.mk (utf8 source).toArray).toList = .ok source := by
      rw [toList_bytes, decodeStrict_utf8, withoutSurrogates_eq_self_iff.mpr characters]
    refine ⟨_, write_eq_ok_iff.mpr ⟨made, source, _, ensured, printed, encoded, written⟩, ?_, _, source, contents,
      decoded, ?_⟩
    · rw [read, contents]
      simp only [decoded, ofText_of_print plain printed]
    · rw [Report.printed, printed]
      rfl

theorem write_of_long (writable : disk.Writable path) (plain : Plain nestingLimit report) {value : Int}
    (member : value ∈ report.integers) (long : 10 ^ numeralDigits ≤ value.natAbs) :
    write disk path report = ((disk.ensureDirectory path.parent).1, .error (.document .tooManyDigits)) ∧
      printed report = .error .tooManyDigits := by
  obtain ⟨made, ensured, -⟩ := writable
  rw [write, printed, print_of_long plain member long, ensured]
  exact ⟨rfl, rfl⟩

/-- On a disk with its working directory, a path that can be written to and read from keeps a list of payloads
exactly where none of their integers has more digits than a numeral may have and no surrogate is in their texts. The
same goes for every other document of null, truth values, integers and texts, in arrays and objects that lie not too
deep in one another, where no object has a name twice. With an integer of too many digits such a document is not
printed, and no file is written. -/
theorem write_then_read (disk : Disk) (path : Path) (home : disk.root.HasDirectory disk.workingDirectory)
    (writable : disk.Writable path) (readable : disk.Readable path) :
    (∀ payloads : List FilePayload, Kept disk path (ofPayloads payloads) ↔ Keepable (ofPayloads payloads)) ∧
    (∀ report : Json, Plain nestingLimit report → (Kept disk path report ↔ Keepable report)) ∧
    ∀ report : Json, Plain nestingLimit report →
      ∀ value ∈ report.integers, 10 ^ numeralDigits ≤ value.natAbs →
        write disk path report = ((disk.ensureDirectory path.parent).1, .error (.document .tooManyDigits)) ∧
          printed report = .error .tooManyDigits :=
  ⟨fun payloads => kept_iff home writable readable (plain_ofPayloads payloads),
    fun _ plain => kept_iff home writable readable plain,
    fun _ plain _ member long => write_of_long writable plain member long⟩

private def emptyDisk : Disk := .free (.directory []) []

private def reportPath : Path := ⟨false, ["out", "r.j"]⟩

private theorem writable_reportPath : emptyDisk.Writable reportPath := ⟨_, rfl, _, rfl⟩

private theorem readable_reportPath : emptyDisk.Readable reportPath := by
  intro made ensured place _
  obtain rfl : (emptyDisk.ensureDirectory reportPath.parent).1 = made := congrArg Prod.fst ensured
  rfl

/-- Every character that the printer escapes, and a line separator that it does not. -/
private def hardText : Text := ['"', '\\', '/', '\x00', '\x08', '\t', '\n', '\x0c', '\r', '\n', '\r', '\u2028', '\x7f']

private def hardDoc : DocComment where
  location := ⟨1, 0, 2, -3⟩
  description := hardText
  params := .ofList [(['b'], hardText), ([], []), (['a'], hardText)]
  returnDescription := none
  author := some hardText
  deprecated := some []
  tags := .ofList [(hardText, ['z']), (['a'], ['y'])]
  tagValues := .ofList [(hardText, [['z'], hardText]), (['a'], [])]

private def hardPayload : FilePayload where
  path := hardText
  totalLines := 12
  declarationCount := 3
  documentedCount := 2
  docs := [⟨hardText, .method, none, 4, 5, ⟨1, 0, 2, -3⟩, some hardDoc⟩,
    ⟨[], .classType, some hardText, -1, 0, ⟨1, 0, 1, 7⟩, none⟩]

/-- A report full of escapes, written into a directory that is made for it. -/
theorem write_then_read_hard_texts :
    emptyDisk.Writable reportPath ∧ emptyDisk.Readable reportPath ∧
      Kept emptyDisk reportPath (ofPayloads [hardPayload, .minimal hardText]) := by
  have home : emptyDisk.root.HasDirectory emptyDisk.workingDirectory := ⟨[], rfl⟩
  have integers : (ofPayloads [hardPayload, .minimal hardText]).integers =
      [12, 3, 2, 4, 5, 1, 0, 2, -3, 1, 0, 2, -3, -1, 0, 1, 0, 1, 7, 0, 0, 0] := by rfl
  have digits : ∀ value ∈ (ofPayloads [hardPayload, .minimal hardText]).integers, value.natAbs < 10 ^ 2 := by
    rw [integers]
    decide
  have characters :
      ∀ text ∈ (ofPayloads [hardPayload, .minimal hardText]).texts, ∀ c ∈ text, c.isSurrogate = false := by
    decide
  refine ⟨writable_reportPath, readable_reportPath,
    ((write_then_read emptyDisk reportPath home writable_reportPath readable_reportPath).1 _).mpr ⟨?_, characters⟩⟩
  intro value member
  exact (digits value member).trans_le (Nat.pow_le_pow_right (by decide) (by decide))

/-- One digit more than a numeral may have, and the report is neither written nor read back. -/
theorem write_then_read_long_integer :
    emptyDisk.root.HasDirectory emptyDisk.workingDirectory ∧ emptyDisk.Writable reportPath ∧
      emptyDisk.Readable reportPath ∧
      ¬ Kept emptyDisk reportPath (ofPayloads [{ FilePayload.minimal [] with totalLines := 10 ^ numeralDigits }]) := by
  have home : emptyDisk.root.HasDirectory emptyDisk.workingDirectory := ⟨[], rfl⟩
  refine ⟨home, writable_reportPath, readable_reportPath, ?_⟩
  rw [kept_iff home writable_reportPath readable_reportPath (plain_ofPayloads _)]
  rintro ⟨short, -⟩
  have listed (lines : Nat) :
      (lines : Int) ∈ (ofPayloads [{ FilePayload.minimal [] with totalLines := lines }]).integers := by
    simp [ofPayloads, FilePayload.toJson, Json.integers, integersOfItems, integersOfFields]
  have long := short _ (listed (10 ^ numeralDigits))
  rw [Int.natAbs_natCast] at long
  exact Nat.lt_irrefl _ long

end Report

end ApexComments
