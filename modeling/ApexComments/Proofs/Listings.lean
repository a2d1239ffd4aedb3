import ApexComments.Extraction
import ApexComments.Proofs.Ways
import Mathlib.Data.List.Lex
import Mathlib.Order.Lattice

/-!
# Listed sources

The comparisons that sort a listing are the lexicographic orders of names and of lists of names
(`nameInOrder_iff`, `inOrder_iff`), so the sources under a directory are listed in the order of their
paths. What is found by going through the directories is looked up path by path; the listing is what is a
source among it, and there is none if one of the paths cannot be asked about (`take_eq`, `isOk_take_iff`). So each
listed source has a path that can be looked up, and extracting it fails on no disk on which the root can be asked about
(`exists_ofFile_of_mem_sources`).
-/
namespace ApexComments

open Text

/-- Code points in the order of their numbers. -/
instance : LinearOrder CodePoint := LinearOrder.lift' CodePoint.toNat fun _ _ => CodePoint.toNat_inj.mp

theorem CodePoint.lt_iff {c d : CodePoint} : c < d ↔ c.toNat < d.toNat := Iff.rfl

/-! ## The order of a listing -/

namespace Listing

theorem nameInOrder_iff {a b : Text} : nameInOrder a b = true ↔ a ≤ b := by
  induction a generalizing b with
  | nil => simp [nameInOrder, ← not_lt]
  | cons c a ih =>
    cases b with
    | nil => simp [nameInOrder, ← not_lt]
    | cons d b =>
      rw [nameInOrder, ← not_lt, List.cons_lt_cons_iff]
      by_cases same : c = d
      · subst same
        simp [ih]
      · have apart : c.toNat ≠ d.toNat := fun equal => same (CodePoint.toNat_inj.mp equal)
        simp only [same, if_false, decide_eq_true_eq, Ne.symm same, false_and, or_false, CodePoint.lt_iff]
        omega

theorem inOrder_iff {a b : List Text} : inOrder a b = true ↔ a ≤ b := by
  induction a generalizing b with
  | nil => simp [inOrder, ← not_lt]
  | cons name a ih =>
    cases b with
    | nil => simp [inOrder, ← not_lt]
    | cons other b =>
      rw [inOrder, ← not_lt, List.cons_lt_cons_iff]
      by_cases same : name = other
      · subst same
        simp [ih]
      · simp [same, Ne.symm same, nameInOrder_iff]

theorem pairwise_mergeSort (places : List (List Text)) :
    (places.mergeSort inOrder).Pairwise fun names later => names ≤ later := by
  refine (List.pairwise_mergeSort ?_ ?_ _).imp fun order => inOrder_iff.mp order
  · intro a b c first second
    rw [inOrder_iff] at first second ⊢
    exact first.trans second
  · intro a b
    rw [Bool.or_eq_true, inOrder_iff, inOrder_iff]
    exact le_total a b

theorem mergeSort_eq {places sorted : List (List Text)} (perm : places.Perm sorted)
    (ordered : sorted.Pairwise fun names later => names ≤ later) : places.mergeSort inOrder = sorted :=
  List.Perm.eq_of_pairwise (fun _ _ _ _ before after => le_antisymm before after) (pairwise_mergeSort places) ordered
    ((List.mergeSort_perm places inOrder).trans perm)

theorem append_le_append (front : List Text) {a b : List Text} (order : a ≤ b) : front ++ a ≤ front ++ b := by
  induction front with
  | nil => exact order
  | cons name front ih => exact List.cons_le_cons name ih

theorem append_lt_append (front : List Text) {a b : List Text} (order : a < b) : front ++ a < front ++ b := by
  refine lt_of_le_of_ne (append_le_append front order.le) ?_
  intro same
  exact order.ne (List.append_cancel_left same)

/-! ## The sources among paths -/

variable {disk : Disk} {root path : Path} {room : Nat} {paths listed : List Path} {entries : List (Text × FileTree)}
  {contents : ByteArray}

/-- The bytes of the file that a path leads to, if it leads to one. -/
def contents? (disk : Disk) (path : Path) : Option ByteArray :=
  match disk.find path with
  | .ok (.file contents) => some contents
  | _ => none

theorem contents?_eq_some_iff : contents? disk path = some contents ↔ disk.find path = .ok (.file contents) := by
  rw [contents?]
  cases disk.find path with
  | error fault => simp
  | ok tree => cases tree <;> simp

/-- Whether the path leads to a source of which something holds. -/
def isSourceWith (disk : Disk) (holds : ByteArray → Bool) (path : Path) : Bool :=
  path.isSource && (contents? disk path).any holds

theorem isSourceWith_iff {holds : ByteArray → Bool} : isSourceWith disk holds path = true ↔
    ∃ contents, disk.find path = .ok (.file contents) ∧ path.isSource = true ∧ holds contents = true := by
  rw [isSourceWith, Bool.and_eq_true, Option.any_eq_true]
  simp only [contents?_eq_some_iff]
  exact ⟨fun ⟨source, held, found, here⟩ => ⟨held, found, source, here⟩,
    fun ⟨held, found, source, here⟩ => ⟨source, held, found, here⟩⟩

theorem take_cons_of_file (found : disk.find path = .ok (.file contents)) : take disk (path :: paths) =
    if !path.isSource then take disk paths
    else if isOversized contents then (Logged.mk () [oversizedRow path]).andThen fun () => take disk paths
    else (take disk paths).map (·.map (path :: ·)) := by
  rw [take, Disk.isFile_eq_true_iff.mpr ⟨contents, found⟩, found]

theorem take_cons_of_other (asked : disk.isFile path = .ok false) : take disk (path :: paths) = take disk paths := by
  rw [take, asked]

theorem contents?_of_other (asked : disk.isFile path = .ok false) : contents? disk path = none := by
  refine Option.eq_none_iff_forall_ne_some.mpr fun contents held => ?_
  have file := Disk.isFile_eq_true_iff.mpr ⟨contents, contents?_eq_some_iff.mp held⟩
  rw [asked] at file
  cases file

/-- Where all paths can be asked about, the sources among them are taken that have a size to be taken, and there is a
warning about each of the others. -/
theorem take_eq (asked : ∀ path ∈ paths, ∃ answer, disk.isFile path = .ok answer) :
    take disk paths = ⟨.ok (paths.filter (isSourceWith disk (!isOversized ·))),
      (paths.filter (isSourceWith disk isOversized)).map oversizedRow⟩ := by
  induction paths with
  | nil => rfl
  | cons path paths ih =>
    obtain ⟨⟨answer, here⟩, others⟩ := List.forall_mem_cons.mp asked
    have later := ih others
    cases answer with
    | false =>
      have passed (holds : ByteArray → Bool) : isSourceWith disk holds path = false := by
        simp [isSourceWith, contents?_of_other here]
      rw [take_cons_of_other here, later, List.filter_cons, List.filter_cons, passed, passed]
      rfl
    | true =>
      obtain ⟨contents, found⟩ := Disk.isFile_eq_true_iff.mp here
      have held (holds : ByteArray → Bool) : isSourceWith disk holds path = (path.isSource && holds contents) := by
        rw [isSourceWith, contents?_eq_some_iff.mpr found, Option.any_some]
      rw [take_cons_of_file found, later, List.filter_cons, List.filter_cons, held, held]
      cases path.isSource <;> cases isOversized contents <;> rfl

theorem exists_of_take_error {fault : ListingError} (failed : (take disk paths).value = .error fault) :
    ∃ path ∈ paths, ∃ error, fault = .file error ∧ disk.isFile path = .error error := by
  induction paths with
  | nil => cases failed
  | cons path paths ih =>
    have later (rest : (take disk paths).value = .error fault) :
        ∃ path' ∈ path :: paths, ∃ error, fault = .file error ∧ disk.isFile path' = .error error := by
      obtain ⟨other, member, error, reason⟩ := ih rest
      exact ⟨other, List.mem_cons_of_mem path member, error, reason⟩
    cases asked : disk.isFile path with
    | error error =>
      rw [take, asked] at failed
      exact ⟨path, List.mem_cons_self, error, (Except.error.inj failed).symm, asked⟩
    | ok answer =>
      cases answer with
      | false =>
        rw [take_cons_of_other asked] at failed
        exact later failed
      | true =>
        obtain ⟨contents, found⟩ := Disk.isFile_eq_true_iff.mp asked
        rw [take_cons_of_file found] at failed
        split_ifs at failed
        · exact later failed
        · exact later failed
        · cases rest : (take disk paths).value with
          | error other =>
            obtain rfl : other = fault := by simpa [Logged.map, rest, Except.map] using failed
            exact later rest
          | ok others => simp [Logged.map, rest, Except.map] at failed

/-- One path that cannot be asked about, and nothing is taken. -/
theorem isOk_take_iff : (∃ listed, (take disk paths).value = .ok listed) ↔
    ∀ path ∈ paths, ∃ answer, disk.isFile path = .ok answer := by
  constructor
  · rintro ⟨listed, taken⟩
    induction paths generalizing listed with
    | nil => simp
    | cons path paths ih =>
      cases asked : disk.isFile path with
      | error fault =>
        rw [take, asked] at taken
        cases taken
      | ok answer =>
        refine List.forall_mem_cons.mpr ⟨⟨answer, asked⟩, ?_⟩
        cases answer with
        | false =>
          rw [take_cons_of_other asked] at taken
          exact ih listed taken
        | true =>
          obtain ⟨contents, found⟩ := Disk.isFile_eq_true_iff.mp asked
          rw [take_cons_of_file found] at taken
          split_ifs at taken
          · exact ih listed taken
          · exact ih listed taken
          · cases rest : (take disk paths).value with
            | error fault => simp [Logged.map, rest, Except.map] at taken
            | ok others => exact ih others rest
  · intro asked
    exact ⟨_, congrArg Logged.value (take_eq asked)⟩

/-! ## The sources under a directory -/

theorem sources_of_directory (found : disk.find root = .ok (.directory entries)) :
    sources room disk root = match search disk root room [] with
      | .error fault => .quiet (.error fault)
      | .ok places => take disk ((places.mergeSort inOrder).map root.below) := by
  have noFile : disk.isFile root = .ok false := by
    rw [Disk.isFile, Disk.ask, found]
    rfl
  have isThere : disk.isDirectory root = .ok true := by
    rw [Disk.isDirectory, Disk.ask, found]
    rfl
  rewrite [sources, noFile, isThere]
  rfl

/-- What is found is looked up in order. -/
theorem sources_of_sorted {places sorted : List (List Text)} (found : disk.find root = .ok (.directory entries))
    (searched : search disk root room [] = .ok places) (perm : places.Perm sorted)
    (ordered : sorted.Pairwise fun names later => inOrder names later = true) :
    sources room disk root = take disk (sorted.map root.below) := by
  rw [sources_of_directory found, searched]
  simp only [mergeSort_eq perm (ordered.imp fun order => inOrder_iff.mp order)]

/-- A listing of a directory is that of the paths found under it, which can all be asked about. -/
theorem exists_search_of_sources (found : disk.find root = .ok (.directory entries))
    (listing : (sources room disk root).value = .ok listed) : ∃ places, search disk root room [] = .ok places ∧
      (∀ names ∈ places, ∃ answer, disk.isFile (root.below names) = .ok answer) ∧
      listed = ((places.mergeSort inOrder).map root.below).filter (isSourceWith disk (!isOversized ·)) := by
  rw [sources_of_directory found] at listing
  cases searched : search disk root room [] with
  | error fault =>
    rw [searched] at listing
    cases listing
  | ok places =>
    rw [searched] at listing
    have asked := isOk_take_iff.mp ⟨listed, listing⟩
    simp only [take_eq asked] at listing
    refine ⟨places, rfl, ?_, (Except.ok.inj listing).symm⟩
    intro names member
    exact asked _ (List.mem_map_of_mem (List.mem_mergeSort.mpr member))

/-- The sources under a directory are listed in the order of their components. -/
theorem pairwise_sources (found : disk.find root = .ok (.directory entries))
    (listing : (sources room disk root).value = .ok listed) :
    listed.Pairwise fun path later => path.components ≤ later.components := by
  obtain ⟨places, -, -, rfl⟩ := exists_search_of_sources found listing
  refine List.Pairwise.filter _ (List.pairwise_map.mpr ((pairwise_mergeSort places).imp ?_))
  intro names later order
  exact append_le_append root.components order

theorem exists_names_of_mem_sources (found : disk.find root = .ok (.directory entries))
    (listing : (sources room disk root).value = .ok listed) (member : path ∈ listed) :
    ∃ names contents, path = root.below names ∧ disk.find path = .ok (.file contents) := by
  obtain ⟨places, -, -, rfl⟩ := exists_search_of_sources found listing
  obtain ⟨among, source⟩ := List.mem_filter.mp member
  obtain ⟨names, -, rfl⟩ := List.mem_map.mp among
  obtain ⟨contents, here, -⟩ := isSourceWith_iff.mp source
  exact ⟨names, contents, rfl, here⟩

end Listing

/-! ## Extracting what was listed -/

namespace Extraction

variable {task : Extraction} {parser : Parser} {disk : Disk} {root : Path} {names : List Text}

theorem exists_payloadPath_below (asked : ∃ answer, disk.isFile root = .ok answer) (names : List Text) :
    ∃ file, payloadPath disk root (root.below names) = .ok file := by
  obtain ⟨answer, asked⟩ := asked
  rw [payloadPath, asked]
  cases answer with
  | true => exact ⟨_, rfl⟩
  | false => exact ⟨slashed ⟨false, names⟩, by rw [Path.relativeTo_below]⟩

theorem exists_ofContents {path : Path} (usable : Disk.unusable? path.text = none) (file : Text) :
    ∃ logged, task.ofContents parser path file (disk.read path) = .ok logged := by
  cases reading : disk.read path with
  | ok contents => exact ⟨_, rfl⟩
  | error fault =>
    have numbered : fault.number?.isNone = false :=
      Option.isNone_eq_false_iff.mpr (Option.ne_none_iff_isSome.mp (Disk.number?_of_read usable reading))
    exact ⟨_, by rw [ofContents, numbered]; rfl⟩

/-- A file under a root that can be asked about has a payload, if it can be looked up at all. -/
theorem exists_ofFile_below (asked : ∃ answer, disk.isFile root = .ok answer)
    (usable : Disk.unusable? (root.below names).text = none) :
    ∃ logged, task.ofFile parser disk root (root.below names) = .ok logged := by
  obtain ⟨file, located⟩ := exists_payloadPath_below asked names
  rw [ofFile, located]
  exact exists_ofContents usable file

end Extraction

namespace Listing

/-- Extracting a source listed under a directory gives a payload on any disk on which the directory can be asked
about. -/
theorem exists_ofFile_of_mem_sources {disk later : Disk} {room : Nat} {root path : Path} {listed : List Path}
    {entries : List (Text × FileTree)} (found : disk.find root = .ok (.directory entries))
    (listing : (sources room disk root).value = .ok listed) (member : path ∈ listed)
    (asked : ∃ answer, later.isFile root = .ok answer) (task : Extraction) (parser : Parser) :
    ∃ logged, task.ofFile parser later root path = .ok logged := by
  obtain ⟨names, contents, rfl, here⟩ := exists_names_of_mem_sources found listing member
  exact Extraction.exists_ofFile_below asked (Disk.fits_of_reach here).usable

end Listing

end ApexComments
