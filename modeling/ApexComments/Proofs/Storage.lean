import ApexComments.File.Tree
import ApexComments.Proofs.Decoding
import ApexComments.Text.Line

/-!
# What is written is read back

A text without carriage returns comes back from its bytes, strictly read and with its newlines unified. A file
comes back from the disk that it was written to (`Disk.read_of_write`): the file is put where nothing or another
file was, so every directory that the path went through is still one, and the path leads to the same place again.
-/
namespace ApexComments

/-! ## Bytes and texts -/

private theorem toListLoop_eq (bytes : ByteArray) (i : Nat) (reversed : List UInt8) :
    ByteArray.toList.loop bytes i reversed = reversed.reverse ++ bytes.data.toList.drop i := by
  fun_induction ByteArray.toList.loop bytes i reversed with
  | case1 i reversed inside ih =>
    have here : i < bytes.data.toList.length := inside
    rw [ih, List.drop_eq_getElem_cons here]
    simp [ByteArray.get!, getElem!_pos bytes.data i inside]
  | case2 i reversed outside =>
    have beyond : bytes.data.toList.length ≤ i := Nat.le_of_not_lt outside
    rw [List.drop_eq_nil_of_le beyond, List.append_nil]

theorem toList_bytes (bytes : List UInt8) : (ByteArray.mk bytes.toArray).toList = bytes := by
  rw [ByteArray.toList, toListLoop_eq]
  rfl

namespace Text

private theorem decodeStrictAfter_length_append (position : Nat) (taken rest : List UInt8) :
    decodeStrictAfter position taken.length (taken ++ rest) = decodeStrictAfter (position + taken.length) 0 rest := by
  induction taken generalizing position with
  | nil => rfl
  | cons b taken ih =>
    rw [List.length_cons, List.cons_append, decodeStrictAfter, ih]
    congr 1
    omega

private theorem decodeStrictAfter_utf8 (position : Nat) (text : Text) :
    decodeStrictAfter position 0 (utf8 text) = .ok (withoutSurrogates text) := by
  induction text generalizing position with
  | nil => rfl
  | cons c text ih =>
    cases c with
    | surrogate offset => simpa using ih position
    | char c =>
      obtain ⟨lead, tails, bytes, encodes⟩ := utf8Char_encodes c
      rw [utf8_cons, utf8Point_char, bytes, List.cons_append, decodeStrictAfter, encodes.reads]
      simp only [decodeStrictAfter_length_append, ih, Except.map, withoutSurrogates_char]

theorem decodeStrict_utf8 (text : Text) : decodeStrict (utf8 text) = .ok (withoutSurrogates text) :=
  decodeStrictAfter_utf8 0 text

theorem encodeFault?_eq_none_iff {spared : CodePoint → Bool} (position : Nat) {text : Text} :
    encodeFault? spared position text = none ↔ ∀ c ∈ text, c.isSurrogate = true → spared c = true := by
  induction text generalizing position with
  | nil => simp [encodeFault?]
  | cons c text ih =>
    rw [encodeFault?, List.forall_mem_cons, ← ih (position + 1)]
    cases c.isSurrogate <;> cases spared c <;> simp

/-- A text has bytes exactly where no surrogate is in it. -/
theorem encodeStrict_eq_ok_iff {text : Text} {bytes : List UInt8} :
    encodeStrict text = .ok bytes ↔ (∀ c ∈ text, c.isSurrogate = false) ∧ utf8 text = bytes := by
  have clean : (∀ c ∈ text, c.isSurrogate = false) ↔ encodeFault? (fun _ => false) 0 text = none := by
    simp [encodeFault?_eq_none_iff]
  rw [encodeStrict, clean]
  cases encodeFault? (fun _ => false) 0 text <;> simp

private theorem unifyNewlinesOnto_of_not_mem (written : Text) {text : Text} (clean : CodePoint.char '\r' ∉ text) :
    unifyNewlinesOnto written text = written.reverse ++ text := by
  induction text generalizing written with
  | nil => simp [unifyNewlinesOnto]
  | cons c text ih =>
    rw [List.mem_cons, not_or] at clean
    have other : c ≠ '\r' := Ne.symm clean.1
    rw [unifyNewlinesOnto.eq_3 _ _ _ fun _ first _ => other first, if_neg other, ih _ clean.2]
    simp

theorem unifyNewlines_of_not_mem {text : Text} (clean : CodePoint.char '\r' ∉ text) : unifyNewlines text = text :=
  unifyNewlinesOnto_of_not_mem [] clean

end Text

/-! ## Places in a tree -/

namespace FileTree

/-- There is a directory at the place. -/
def HasDirectory (tree : FileTree) (place : List Text) : Prop := ∃ entries, tree.at? place = some (.directory entries)

theorem at?_append (tree : FileTree) (upper lower : List Text) :
    tree.at? (upper ++ lower) = (tree.at? upper).bind (·.at? lower) := by
  induction upper generalizing tree with
  | nil => rfl
  | cons name upper ih =>
    cases tree with
    | file contents => rfl
    | directory entries =>
      simp only [List.cons_append, at?]
      cases entries.lookup name with
      | none => rfl
      | some entry => exact ih entry

theorem not_hasDirectory_file (contents : ByteArray) (place : List Text) : ¬ (file contents).HasDirectory place := by
  rintro ⟨entries, found⟩
  cases place with
  | nil => simp [at?] at found
  | cons name rest => simp [at?] at found

theorem hasDirectory_cons {entries : List (Text × FileTree)} {name : Text} {rest : List Text} :
    (directory entries).HasDirectory (name :: rest) ↔
      ∃ entry, entries.lookup name = some entry ∧ entry.HasDirectory rest := by
  unfold HasDirectory
  rw [at?]
  cases entries.lookup name <;> simp

theorem HasDirectory.top {tree : FileTree} {place : List Text} (here : tree.HasDirectory place) :
    tree.HasDirectory [] := by
  cases tree with
  | file contents => exact absurd here (not_hasDirectory_file contents place)
  | directory entries => exact ⟨entries, rfl⟩

theorem HasDirectory.dropLast {tree : FileTree} {place : List Text} (here : tree.HasDirectory place) :
    tree.HasDirectory place.dropLast := by
  rcases List.eq_nil_or_concat place with rfl | ⟨upper, name, rfl⟩
  · exact here
  · obtain ⟨entries, found⟩ := here
    rw [List.concat_eq_append, at?_append] at found
    obtain ⟨above, upperFound, -⟩ := Option.bind_eq_some_iff.mp found
    rw [List.concat_eq_append, List.dropLast_concat]
    cases above with
    | file contents => simp [upperFound, at?] at found
    | directory others => exact ⟨others, upperFound⟩

/-- What is put into a directory is found there. -/
theorem at?_putAt {tree : FileTree} {upper : List Text} (here : tree.HasDirectory upper) (name : Text)
    (new : FileTree) : (tree.putAt new (upper ++ [name])).at? (upper ++ [name]) = some new := by
  induction upper generalizing tree with
  | nil =>
    cases tree with
    | file contents => exact absurd here (not_hasDirectory_file contents [])
    | directory entries => simp [putAt, at?, lookup_putEntry]
  | cons first upper ih =>
    cases tree with
    | file contents => exact absurd here (not_hasDirectory_file contents _)
    | directory entries =>
      obtain ⟨entry, there, below⟩ := hasDirectory_cons.mp here
      simp only [List.cons_append, putAt, at?, there, Option.getD_some, lookup_putEntry, if_true]
      exact ih below

/-- A directory stays one when something is put where none is. -/
theorem hasDirectory_putAt {tree : FileTree} {place other : List Text} (free : ¬ tree.HasDirectory place)
    (new : FileTree) (here : tree.HasDirectory other) : (tree.putAt new place).HasDirectory other := by
  induction place generalizing tree other with
  | nil =>
    cases tree with
    | file contents => exact absurd here (not_hasDirectory_file contents other)
    | directory entries => exact absurd ⟨entries, rfl⟩ free
  | cons name rest ih =>
    cases tree with
    | file contents => exact absurd here (not_hasDirectory_file contents other)
    | directory entries =>
      cases other with
      | nil => exact ⟨_, rfl⟩
      | cons first more =>
        obtain ⟨entry, there, below⟩ := hasDirectory_cons.mp here
        rw [putAt, hasDirectory_cons]
        by_cases same : first = name
        · subst same
          have stillFree : ¬ entry.HasDirectory rest := fun taken => free (hasDirectory_cons.mpr ⟨entry, there, taken⟩)
          exact ⟨entry.putAt new rest, by simp [lookup_putEntry, there], ih stillFree below⟩
        · exact ⟨entry, by simp [lookup_putEntry, same, there], below⟩

end FileTree

/-! ## Ways on a disk -/

namespace Disk

variable {disk later : Disk} {path : Path} {place next final : List Text} {component : Text} {components : List Text}

theorem step_eq_ok_iff : disk.step place component = .ok next ↔
    disk.root.HasDirectory place ∧ disk.refusal .search place = none ∧
    ((component = (['.', '.'] : Text) ∧ next = place.dropLast) ∨
      (component ≠ (['.', '.'] : Text) ∧ (Text.nameBytes component).length ≤ nameLimit ∧
        next = place ++ [component])) := by
  rw [step, FileTree.HasDirectory]
  cases found : disk.root.at? place with
  | none => simp
  | some tree =>
    cases tree with
    | file contents => simp
    | directory entries =>
      cases disk.refusal .search place with
      | some error => simp
      | none =>
        by_cases up : component = (['.', '.'] : Text)
        · simp [up, eq_comm]
        · by_cases long : nameLimit < (Text.nameBytes component).length
          · simp [up, long, Nat.not_le_of_lt long]
          · simp [up, long, Nat.le_of_not_lt long, eq_comm]

/-- A way on a disk is one on every disk that has its directories too and refuses the same. -/
theorem walk_of_directories (kept : ∀ place, disk.root.HasDirectory place → later.root.HasDirectory place)
    (same : later.refusal = disk.refusal) (walked : disk.walk place components = .ok final) :
    later.walk place components = .ok final := by
  induction components generalizing place with
  | nil => exact walked
  | cons component components ih =>
    rw [walk] at walked ⊢
    cases stepped : disk.step place component with
    | error fault => simp [stepped] at walked
    | ok next =>
      simp only [stepped] at walked
      obtain ⟨here, granted, how⟩ := step_eq_ok_iff.mp stepped
      rw [step_eq_ok_iff.mpr ⟨kept place here, same ▸ granted, how⟩]
      exact ih walked

/-- A way of one step or more ends at a directory or in one. -/
theorem walk_ends (some : components ≠ []) (walked : disk.walk place components = .ok final) :
    disk.root.HasDirectory final ∨ ∃ upper name, disk.root.HasDirectory upper ∧ final = upper ++ [name] := by
  induction components generalizing place with
  | nil => exact absurd rfl some
  | cons component components ih =>
    rw [walk] at walked
    cases stepped : disk.step place component with
    | error fault => simp [stepped] at walked
    | ok next =>
      simp only [stepped] at walked
      cases components with
      | cons second components => exact ih (by simp) walked
      | nil =>
        obtain rfl : next = final := Except.ok.inj walked
        obtain ⟨here, -, ⟨-, rfl⟩ | ⟨-, -, rfl⟩⟩ := step_eq_ok_iff.mp stepped
        · exact .inl here.dropLast
        · exact .inr ⟨place, component, here, rfl⟩

theorem place_of_directories (reached : disk.place path = .ok place)
    (home : later.workingDirectory = disk.workingDirectory)
    (kept : ∀ place, disk.root.HasDirectory place → later.root.HasDirectory place)
    (same : later.refusal = disk.refusal) : later.place path = .ok place := by
  rw [Disk.place] at reached ⊢
  split at reached
  · cases reached
  split at reached
  · cases reached
  rw [home]
  simp only [*, if_false]
  exact walk_of_directories kept same reached

theorem walk_of_place (reached : disk.place path = .ok place) :
    disk.walk (if path.rooted then [] else disk.workingDirectory) path.components = .ok place := by
  rw [Disk.place] at reached
  split at reached
  · cases reached
  split at reached
  · cases reached
  exact reached

/-! ## Files -/

theorem write_eq_ok_iff {contents : ByteArray} : disk.write path contents = .ok later ↔
    ∃ place, disk.place path = .ok place ∧ ¬ disk.root.HasDirectory place ∧ disk.refusal .write place = none ∧
      later = { disk with root := disk.root.putAt (.file contents) place } := by
  rw [write, change]
  cases disk.place path with
  | error fault => simp
  | ok place =>
    simp only [Except.ok.injEq, exists_eq_left', FileTree.HasDirectory]
    cases disk.root.at? place with
    | none => cases disk.refusal .write place <;> simp [eq_comm]
    | some tree =>
      cases tree with
      | directory entries => simp
      | file old => cases disk.refusal .write place <;> simp [eq_comm]

/-- A file is read as it was written, where it may be read. A path without components leads to a directory, or to
nothing that could hold a file. -/
theorem read_of_write {contents : ByteArray} (named : path.components ≠ [])
    (readable : ∀ place, disk.place path = .ok place → disk.refusal .read place = none)
    (written : disk.write path contents = .ok later) : later.read path = .ok contents := by
  obtain ⟨place, reached, free, -, rfl⟩ := write_eq_ok_iff.mp written
  have again : { disk with root := disk.root.putAt (.file contents) place : Disk }.place path = .ok place :=
    place_of_directories reached rfl (fun _ here => FileTree.hasDirectory_putAt free _ here) rfl
  rcases walk_ends named (walk_of_place reached) with taken | ⟨upper, name, here, rfl⟩
  · exact absurd taken free
  · rw [read, reach, again]
    simp only [grant, FileTree.at?_putAt here name, readable _ reached]

/-- The path can be written to: the directories that lead to it are there or can be made, and a file can be
put there then. -/
def Writable (disk : Disk) (path : Path) : Prop :=
  ∃ made, disk.ensureDirectory path.parent = (made, .ok ()) ∧ ∃ later, made.write path .empty = .ok later

/-- Once the directories that lead to the path are there, the system does not refuse to read at it. -/
def Readable (disk : Disk) (path : Path) : Prop :=
  ∀ made, disk.ensureDirectory path.parent = (made, .ok ()) →
    ∀ place, made.place path = .ok place → made.refusal .read place = none

/-- Only on a disk without its working directory could a path without components be written to. -/
theorem Writable.components_ne_nil (writable : disk.Writable path)
    (home : disk.root.HasDirectory disk.workingDirectory) : path.components ≠ [] := by
  obtain ⟨rooted, components⟩ := path
  rintro rfl
  obtain ⟨made, ensured, later, written⟩ := writable
  obtain ⟨start, reached, entries, there⟩ : ∃ start, disk.place ⟨rooted, []⟩ = .ok start ∧
      disk.root.HasDirectory start := by
    cases rooted with
    | true => exact ⟨[], rfl, home.top⟩
    | false => exact ⟨disk.workingDirectory, rfl, home⟩
  have parent : (⟨rooted, []⟩ : Path).parent = ⟨rooted, []⟩ := rfl
  obtain rfl : disk = made := by
    have same := congrArg Prod.fst ensured
    simpa [parent, ensureDirectory, ensureFrom, ensureOne, makeDirectory, reached, there] using same
  obtain ⟨place, again, free, -, -⟩ := write_eq_ok_iff.mp written
  obtain rfl : start = place := Except.ok.inj (reached.symm.trans again)
  exact free ⟨entries, there⟩

end Disk

end ApexComments
