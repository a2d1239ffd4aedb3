import ApexComments.Proofs.Searches

/-!
# Every source once

A name is that of a source if it is something and then one of two endings (`Path.isSourceName_iff`). A tree can be
listed if going through it comes to an end and all that it comes to can be asked about (`isOk_sources_iff`). What is
listed then, and what is warned of, are the sources among it, each once and in strict order (`lists_of_search`);
otherwise there is a reason why not (`hinders_of_sources`). The order in which directories give their entries is not
seen in a listing (`sources_of_alike`), and where the system refuses nothing only the depth of directories and the
length of paths stand against one (`listable_iff_of_free`).
-/
namespace ApexComments

open Text

/-! ## Names of sources -/

namespace Path

/-- Something, and then the ending of a class or of a trigger, in capitals or not. -/
def NamesSource (name : Text) : Prop :=
  ∃ stem ending : Text, name = stem ++ ending ∧ stem ≠ [] ∧ (lowered ending = ".cls" ∨ lowered ending = ".trigger")

theorem suffixOf_append {stem ending : Text} (named : stem ≠ []) (nonempty : ending ≠ [])
    (undotted : CodePoint.char '.' ∉ ending) :
    suffixOf (stem ++ CodePoint.char '.' :: ending) = CodePoint.char '.' :: ending := by
  have tail :
      ((stem ++ CodePoint.char '.' :: ending).reverse.takeWhile (· != CodePoint.char '.')).reverse = ending := by
    rw [List.reverse_append, List.reverse_cons, List.append_assoc, List.takeWhile_append_of_pos]
    · simp
    · intro c member
      simpa using fun dot : c = '.' => undotted (dot ▸ List.mem_reverse.mp member)
  have longer : 0 < stem.length := List.length_pos_iff.mpr named
  rw [suffixOf, tail, if_neg]
  rw [Bool.or_eq_true, List.isEmpty_iff, decide_eq_true_eq, List.length_append, List.length_cons]
  rintro (none | short)
  · exact nonempty none
  · omega

theorem exists_append_suffixOf {name : Text} (suffixed : suffixOf name ≠ []) :
    ∃ stem, stem ≠ [] ∧ name = stem ++ suffixOf name := by
  rw [suffixOf] at suffixed ⊢
  split at suffixed
  · exact absurd rfl suffixed
  · next long =>
    rw [if_neg long]
    simp only [Bool.or_eq_true, decide_eq_true_eq, not_or, List.length_reverse] at long
    have split : name = (name.reverse.dropWhile (· != CodePoint.char '.')).reverse ++
        (name.reverse.takeWhile (· != CodePoint.char '.')).reverse := by
      rw [← List.reverse_append, List.takeWhile_append_dropWhile, List.reverse_reverse]
    have lengths := congrArg List.length split
    rw [List.length_append, List.length_reverse, List.length_reverse] at lengths
    cases upper : name.reverse.dropWhile (· != CodePoint.char '.') with
    | nil =>
      rw [upper, List.length_nil] at lengths
      omega
    | cons mark above =>
      rw [upper] at lengths split
      have stopped := List.head?_dropWhile_not (· != CodePoint.char '.') name.reverse
      rw [upper] at stopped
      obtain rfl : mark = '.' := by simpa using stopped
      refine ⟨above.reverse, ?_, by simpa using split⟩
      intro none
      rw [List.reverse_eq_nil_iff.mp none, List.length_singleton] at lengths
      omega

theorem eq_dot_of_small {c : CodePoint} (lowers : small c = '.') : c = '.' := by
  cases c with
  | surrogate offset => cases lowers
  | char c =>
    have small : c.toLower = '.' := CodePoint.char.inj lowers
    delta Char.toLower at small
    split at small
    · next capital =>
      have value := congrArg Char.val small
      simp only [UInt32.ext_iff] at value
      simp [UInt32.le_iff_toNat_le, UInt32.toNat_add] at capital value
      omega
    · rw [small]

theorem exists_cons_of_lowered {ending rest : Text} (lowers : lowered ending = CodePoint.char '.' :: rest)
    (undotted : CodePoint.char '.' ∉ rest) :
    ∃ tail, ending = CodePoint.char '.' :: tail ∧ tail.length = rest.length ∧ CodePoint.char '.' ∉ tail := by
  obtain ⟨mark, tail, rfl, dot, rfl⟩ := List.map_eq_cons_iff.mp lowers
  obtain rfl := eq_dot_of_small dot
  refine ⟨tail, rfl, (List.length_map _).symm, ?_⟩
  intro member
  exact undotted (List.mem_map.mpr ⟨'.', member, rfl⟩)

theorem isSourceName_iff {name : Text} : isSourceName name = true ↔ NamesSource name := by
  rw [isSourceName, Bool.or_eq_true, beq_iff_eq, beq_iff_eq]
  constructor
  · intro ends
    have suffixed : suffixOf name ≠ [] := by
      intro none
      rw [none] at ends
      revert ends
      decide
    obtain ⟨stem, named, split⟩ := exists_append_suffixOf suffixed
    exact ⟨stem, suffixOf name, split, named, ends⟩
  · rintro ⟨stem, ending, rfl, named, ends⟩
    have whole : suffixOf (stem ++ ending) = ending := by
      obtain ⟨rest, some, undotted, lowers⟩ :
          ∃ rest : Text, rest ≠ [] ∧ CodePoint.char '.' ∉ rest ∧ lowered ending = CodePoint.char '.' :: rest := by
        rcases ends with ends | ends
        · exact ⟨"cls", by decide, by decide, ends⟩
        · exact ⟨"trigger", by decide, by decide, ends⟩
      obtain ⟨tail, rfl, same, alsoUndotted⟩ := exists_cons_of_lowered lowers undotted
      refine suffixOf_append named ?_ alsoUndotted
      rintro rfl
      exact some (List.length_eq_zero_iff.mp same.symm)
    rw [whole]
    exact ends

end Path

namespace Listing

/-! ## Exact listings -/

/-- The tree under a root can be listed: no directory that is come to lies deeper than there is room for, each can be
listed or may not be, and all that is come to can be asked about. -/
structure Listable (room : Nat) (disk : Disk) (root : Path) (tree : FileTree) : Prop where
  near (names : List Text) : Reaches disk root [] names → tree.HasDirectory names → names.length < room
  granted (names : List Text) : Reaches disk root [] names → tree.HasDirectory names →
    ∀ fault, disk.entries (root.below names) = .error fault → fault.isDenied = true
  asked (names : List Text) : names ≠ [] → Reaches disk root [] names →
    ∃ answer, disk.isFile (root.below names) = .ok answer

/-- Why the tree under a root cannot be listed. -/
inductive Hinders (room : Nat) (disk : Disk) (root : Path) (tree : FileTree) : ListingError → Prop
  | tooDeep {names : List Text} : Reaches disk root [] names → tree.HasDirectory names → names.length = room →
      Hinders room disk root tree .tooDeep
  | unlisted {names : List Text} {fault : FileError} : Reaches disk root [] names → tree.HasDirectory names →
      disk.entries (root.below names) = .error fault → fault.isDenied = false →
      Hinders room disk root tree (.file fault)
  | unasked {names : List Text} {fault : FileError} : names ≠ [] → Reaches disk root [] names →
      disk.isFile (root.below names) = .error fault → Hinders room disk root tree (.file fault)

/-- The paths are those of the sources that are come to under a root and have a size to be taken, each once and in
order. -/
structure Lists (disk : Disk) (root : Path) (tree : FileTree) (taken : Nat → Prop) (paths : List Path) : Prop where
  ordered : paths.Pairwise fun path later => path.components < later.components
  members (path : Path) : path ∈ paths ↔ ∃ names contents, path = root.below names ∧ Reaches disk root [] names ∧
    tree.at? names = some (.file contents) ∧ Path.NamesSource path.name ∧ taken contents.size

theorem isOversized_iff {contents : ByteArray} : isOversized contents = true ↔ 10 * 1024 * 1024 < contents.size := by
  rw [isOversized, decide_eq_true_eq]
  rfl

section Exact

variable {disk : Disk} {root : Path} {room : Nat} {places : List (List Text)} {entries : List (Text × FileTree)}
  (found : disk.find root = .ok (.directory entries)) (distinct : (FileTree.directory entries).NamesDistinct)
  (proper : (FileTree.directory entries).NamesProper)
include found distinct proper

theorem mem_search_top_iff (searched : search disk root room [] = .ok places) {names : List Text} :
    names ∈ places ↔ names ≠ [] ∧ Reaches disk root [] names := by
  rw [mem_search_iff found distinct proper ⟨entries, rfl⟩ searched]
  simp

theorem lists_of_search (searched : search disk root room [] = .ok places)
    (asked : ∀ names ∈ places, ∃ answer, disk.isFile (root.below names) = .ok answer) {holds : ByteArray → Bool}
    {taken : Nat → Prop} (exactly : ∀ contents, holds contents = true ↔ taken contents.size) :
    Lists disk root (.directory entries) taken
      (((places.mergeSort inOrder).map root.below).filter (isSourceWith disk holds)) where
  ordered := by
    refine List.Pairwise.filter _ (List.pairwise_map.mpr ?_)
    have unique : (places.mergeSort inOrder).Nodup :=
      (List.mergeSort_perm places inOrder).nodup_iff.mpr (nodup_search found distinct proper ⟨entries, rfl⟩ searched)
    refine (pairwise_mergeSort places).imp₂ ?_ unique
    intro names later order apart
    exact append_lt_append root.components (lt_of_le_of_ne order apart)
  members := by
    intro path
    have reached := @mem_search_top_iff disk root room places entries found distinct proper searched
    simp only [List.mem_filter, List.mem_map, List.mem_mergeSort, isSourceWith_iff, Path.isSource,
      Path.isSourceName_iff, exactly]
    constructor
    · rintro ⟨⟨names, member, rfl⟩, contents, here, source, size⟩
      have reaches := (reached.mp member).2
      obtain ⟨tree, there⟩ := exists_at?_of_reaches found distinct proper rfl reaches
      have held := Disk.at?_of_reach found (proper.isName distinct there) here
      exact ⟨names, contents, rfl, reaches, held, source, size⟩
    · rintro ⟨names, contents, rfl, reaches, held, source, size⟩
      have nonempty : names ≠ [] := by
        rintro rfl
        cases held
      have member := reached.mpr ⟨nonempty, reaches⟩
      obtain ⟨answer, answered⟩ := asked names member
      have here := Disk.find_of_isFile found (proper.isName distinct held) held answered
      exact ⟨⟨names, member, rfl⟩, contents, here, source, size⟩

theorem hinders_of_search {fault : ListingError} (failed : search disk root room [] = .error fault) :
    Hinders room disk root (.directory entries) fault := by
  obtain ⟨names, reaches, inside, ⟨rfl, depth⟩ | ⟨error, rfl, unlisted, undenied⟩⟩ :=
    exists_of_search_error found distinct proper ⟨entries, rfl⟩ failed
  · exact .tooDeep reaches inside depth
  · exact .unlisted reaches inside unlisted undenied

/-- Where there is no listing, there is a reason for it. -/
theorem hinders_of_sources {fault : ListingError} (failed : (sources room disk root).value = .error fault) :
    Hinders room disk root (.directory entries) fault := by
  rw [sources_of_directory found] at failed
  cases searched : search disk root room [] with
  | error other =>
    rw [searched] at failed
    obtain rfl := Except.error.inj failed
    exact hinders_of_search found distinct proper searched
  | ok places =>
    rw [searched] at failed
    obtain ⟨path, member, error, rfl, unasked⟩ := exists_of_take_error failed
    obtain ⟨names, among, rfl⟩ := List.mem_map.mp member
    obtain ⟨nonempty, reaches⟩ := (mem_search_top_iff found distinct proper searched).mp (List.mem_mergeSort.mp among)
    exact .unasked nonempty reaches unasked

theorem isOk_sources_iff :
    (∃ listed, (sources room disk root).value = .ok listed) ↔ Listable room disk root (.directory entries) := by
  constructor
  · rintro ⟨listed, listing⟩
    obtain ⟨places, searched, asked, -⟩ := exists_search_of_sources found listing
    have all (names : List Text) (reaches : Reaches disk root [] names)
        (inside : (FileTree.directory entries).HasDirectory names) :=
      near_of_search found distinct proper ⟨entries, rfl⟩ searched reaches inside
    refine ⟨fun names reaches inside => (all names reaches inside).1,
      fun names reaches inside => (all names reaches inside).2, fun names nonempty reaches => ?_⟩
    exact asked names ((mem_search_top_iff found distinct proper searched).mpr ⟨nonempty, reaches⟩)
  · intro listable
    cases listing : (sources room disk root).value with
    | ok listed => exact ⟨listed, rfl⟩
    | error fault =>
      cases hinders_of_sources found distinct proper listing with
      | tooDeep reaches inside depth => exact absurd (listable.near _ reaches inside) (Nat.not_lt.mpr depth.ge)
      | unlisted reaches inside failed undenied =>
        rw [listable.granted _ reaches inside _ failed] at undenied
        cases undenied
      | unasked nonempty reaches failed =>
        obtain ⟨answer, asked⟩ := listable.asked _ nonempty reaches
        rw [failed] at asked
        cases asked

theorem exists_sources (listable : Listable room disk root (.directory entries)) : ∃ listed skipped : List Path,
    sources room disk root = ⟨.ok listed, skipped.map oversizedRow⟩ ∧
      Lists disk root (.directory entries) (· ≤ 10 * 1024 * 1024) listed ∧
      Lists disk root (.directory entries) (10 * 1024 * 1024 < ·) skipped := by
  obtain ⟨listed, listing⟩ := (isOk_sources_iff found distinct proper).mpr listable
  obtain ⟨places, searched, asked, -⟩ := exists_search_of_sources found listing
  refine ⟨_, _, ?_, @lists_of_search disk root room places entries found distinct proper searched asked
    (!isOversized ·) _ ?_, @lists_of_search disk root room places entries found distinct proper searched asked
    isOversized _ ?_⟩
  · rw [sources_of_directory found, searched]
    refine take_eq fun path member => ?_
    obtain ⟨names, among, rfl⟩ := List.mem_map.mp member
    exact asked names (List.mem_mergeSort.mp among)
  · intro contents
    rw [Bool.not_eq_true', ← Bool.not_eq_true, isOversized_iff, Nat.not_lt]
  · intro contents
    exact isOversized_iff

theorem exists_fault (unlistable : ¬ Listable room disk root (.directory entries)) :
    ∃ fault rows, sources room disk root = ⟨.error fault, rows⟩ ∧
      Hinders room disk root (.directory entries) fault := by
  cases listing : sources room disk root with
  | mk value rows =>
    cases value with
    | error fault =>
      exact ⟨fault, rows, rfl, hinders_of_sources found distinct proper (congrArg Logged.value listing)⟩
    | ok listed =>
      exact absurd ((isOk_sources_iff found distinct proper).mp ⟨listed, congrArg Logged.value listing⟩) unlistable

end Exact

/-! ## Where nothing is refused -/

/-- No path under a root is longer than those that are looked up. -/
def PathsFit (root : Path) (tree : FileTree) : Prop :=
  ∀ names held, tree.at? names = some held → (nameBytes (root.below names).text).length ≤ Disk.pathLimit

section Free

variable {disk : Disk} {root : Path} {room : Nat} {entries : List (Text × FileTree)} {names : List Text}
  {held : FileTree} (found : disk.find root = .ok (.directory entries))
  (distinct : (FileTree.directory entries).NamesDistinct)
  (proper : (FileTree.directory entries).NamesProper)
include found distinct proper

/-- Where each directory that is come to can be listed, names lead to all that there is. -/
theorem reaches_of_at? (each : ∀ upper, Reaches disk root [] upper → (FileTree.directory entries).HasDirectory upper →
    ∃ inside, disk.entries (root.below upper) = .ok inside)
    (there : (FileTree.directory entries).at? names = some held) : Reaches disk root [] names := by
  -- The names are taken from the last one upwards: what lies above it is a directory that was come to before.
  induction names using List.reverseRecOn generalizing held with
  | nil => trivial
  | append_singleton upper name ih =>
    rw [FileTree.at?_append] at there
    obtain ⟨above, upperFound, below⟩ := Option.bind_eq_some_iff.mp there
    cases above with
    | file contents => cases below
    | directory others =>
      have reaches := ih upperFound
      obtain ⟨inside, listed⟩ := each upper reaches ⟨others, upperFound⟩
      have same := at?_of_entries found distinct proper upperFound listed
      obtain rfl : others = inside := by simpa using upperFound.symm.trans same
      cases distinct.of_at? upperFound with
      | directory unique further =>
        obtain ⟨entry, member, -⟩ := (FileTree.at?_directory_cons_eq_some_iff unique).mp below
        exact reaches_append.mpr ⟨reaches, others, listed, List.mem_map.mpr ⟨_, member, rfl⟩, trivial⟩

variable (free : ∀ access place, disk.refusal access place = none)
include free

theorem Listable.exists_entries (listable : Listable room disk root (.directory entries))
    (reaches : Reaches disk root [] names) (inside : (FileTree.directory entries).HasDirectory names) :
    ∃ others, disk.entries (root.below names) = .ok others := by
  obtain ⟨others, there⟩ := id inside
  have named := proper.isName distinct there
  rcases Disk.reach_below found named there .list with reached | ⟨-, failed⟩ | ⟨error, granting, further, refused, -⟩
  · exact ⟨others, Disk.entries_eq_ok_iff.mpr reached⟩
  · have long : disk.entries (root.below names) = .error .nameTooLong := by rw [Disk.entries, failed]
    cases listable.granted names reaches inside _ long
  · simp [free] at refused

/-- Where nothing is refused, all that there is under a directory that can be listed is come to. -/
theorem Listable.reaches (listable : Listable room disk root (.directory entries))
    (there : (FileTree.directory entries).at? names = some held) : Reaches disk root [] names :=
  reaches_of_at? found distinct proper
    (fun _ reaches inside => listable.exists_entries found distinct proper free reaches inside) there

/-- Where nothing is refused, a directory can be listed if no path under it is too long and no directory too deep. -/
theorem listable_iff_of_free : Listable room disk root (.directory entries) ↔ PathsFit root (.directory entries) ∧
    ∀ names, (FileTree.directory entries).HasDirectory names → names.length < room := by
  constructor
  · intro listable
    refine ⟨fun names held there => ?_, fun names inside => ?_⟩
    · have reaches := listable.reaches found distinct proper free there
      by_cases top : names = []
      · subst top
        have short := (Disk.fits_of_reach found).short
        rwa [← show root.below [] = root by simp [Path.below]] at short
      obtain ⟨answer, answered⟩ := listable.asked names top reaches
      have here := Disk.find_of_isFile found (proper.isName distinct there) there answered
      exact (Disk.fits_of_reach here).short
    · obtain ⟨others, there⟩ := id inside
      exact listable.near names (listable.reaches found distinct proper free there) inside
  · rintro ⟨fit, near⟩
    refine ⟨fun names _ => near names, fun names reaches inside fault failed => ?_, fun names _ reaches => ?_⟩
    · obtain ⟨others, there⟩ := inside
      have listed := Disk.entries_eq_ok_iff.mpr
        (Disk.reach_of_free found (proper.isName distinct there) there .list free (fit names _ there))
      rw [listed] at failed
      cases failed
    · obtain ⟨held, there⟩ := exists_at?_of_reaches found distinct proper rfl reaches
      rw [List.nil_append] at there
      have here : disk.find (root.below names) = .ok held :=
        Disk.reach_of_free found (proper.isName distinct there) there .ask free (fit names _ there)
      refine Disk.exists_isFile_iff.mpr fun fault failed => ?_
      rw [here] at failed
      cases failed

/-- Where nothing is refused, there is a directory too deep or a path too long if there is no listing. -/
theorem Hinders.eq_of_free {fault : ListingError} (hinders : Hinders room disk root (.directory entries) fault) :
    fault = .tooDeep ∨ fault = .file .nameTooLong := by
  cases hinders with
  | tooDeep => exact .inl rfl
  | unlisted reaches inside failed =>
    obtain ⟨others, there⟩ := inside
    rcases Disk.reach_below found (proper.isName distinct there) there .list with
      reached | ⟨-, long⟩ | ⟨error, granting, further, refused, -⟩
    · rw [Disk.entries_eq_ok_iff.mpr reached] at failed
      cases failed
    · rw [Disk.entries, long] at failed
      exact .inr (congrArg _ (Except.error.inj failed).symm)
    · simp [free] at refused
  | unasked nonempty reaches failed =>
    obtain ⟨held, there⟩ := exists_at?_of_reaches found distinct proper rfl reaches
    rw [List.nil_append] at there
    rcases Disk.reach_below found (proper.isName distinct there) there .ask with
      reached | ⟨-, long⟩ | ⟨error, granting, further, refused, -⟩
    · rw [Disk.isFile, Disk.ask, Disk.find, reached] at failed
      cases failed
    · rw [Disk.isFile, Disk.ask, Disk.find, long] at failed
      exact .inr (congrArg _ (Except.error.inj failed).symm)
    · simp [free] at refused

end Free

/-! ## Entries in another order -/

variable {disk other : Disk} {root : Path} {room : Nat}

section Congruence

variable {entries others : List (Text × FileTree)} {places : List (List Text)} (alike : disk.Alike other)
  (found : disk.find root = .ok (.directory entries)) (otherFound : other.find root = .ok (.directory others))
  (below : (FileTree.directory entries).Alike (.directory others)) (proper : (FileTree.directory entries).NamesProper)
include alike found otherFound below proper

/-- Going through the directories comes to the same places. -/
theorem search_perm (searched : search disk root room [] = .ok places) :
    ∃ otherPlaces, search other root room [] = .ok otherPlaces ∧ otherPlaces.Perm places := by
  have alsoProper : (FileTree.directory others).NamesProper := fun names member =>
    proper names ((below.mem_places_iff names).mp member)
  cases alsoSearched : search other root room [] with
  | ok otherPlaces =>
    refine ⟨otherPlaces, rfl, (List.perm_ext_iff_of_nodup
      (nodup_search otherFound below.alsoDistinct alsoProper ⟨others, rfl⟩ alsoSearched)
      (nodup_search found below.distinct proper ⟨entries, rfl⟩ searched)).mpr fun names => ?_⟩
    rw [mem_search_top_iff found below.distinct proper searched,
      mem_search_top_iff otherFound below.alsoDistinct alsoProper alsoSearched]
    exact and_congr_right fun _ => ⟨fun reaches => reaches.congr alike.symm, fun reaches => reaches.congr alike⟩
  | error fault =>
    obtain ⟨names, reaches, inside, reason⟩ :=
      exists_of_search_error otherFound below.alsoDistinct alsoProper ⟨others, rfl⟩ alsoSearched
    obtain ⟨near, granted⟩ := near_of_search found below.distinct proper ⟨entries, rfl⟩ searched
      (reaches.congr alike.symm) (below.symm.hasDirectory inside)
    rcases reason with ⟨-, depth⟩ | ⟨error, -, failed, undenied⟩
    · omega
    · rw [granted error (alike.symm.entries_eq_error failed)] at undenied
      cases undenied

end Congruence

/-- The order of the entries is not seen in a listing; where directories cannot be gone through, it may be seen in what
is told of. -/
theorem sources_of_alike {entries : List (Text × FileTree)} (alike : disk.Alike other)
    (found : disk.find root = .ok (.directory entries)) (proper : (FileTree.directory entries).NamesProper) :
    sources room other root = sources room disk root ∨ ∃ fault later,
      sources room disk root = .quiet (.error fault) ∧ sources room other root = .quiet (.error later) := by
  obtain ⟨others, otherFound, below⟩ : ∃ others, other.find root = .ok (.directory others) ∧
      (FileTree.directory entries).Alike (.directory others) := by
    rcases alike.reach_cases .ask root with ⟨fault, failed, -⟩ | ⟨held, file, -⟩ | ⟨again, others, here, there, below⟩
    · cases found.symm.trans failed
    · cases found.symm.trans file
    · obtain rfl : entries = again := by simpa using found.symm.trans here
      exact ⟨others, there, below⟩
  have alsoProper : (FileTree.directory others).NamesProper := fun names member =>
    proper names ((below.mem_places_iff names).mp member)
  rw [sources_of_directory found, sources_of_directory otherFound]
  cases searched : search disk root room [] with
  | ok places =>
    obtain ⟨otherPlaces, alsoSearched, perm⟩ := search_perm alike found otherFound below proper searched
    refine .inl ?_
    have sorted : otherPlaces.mergeSort inOrder = places.mergeSort inOrder :=
      mergeSort_eq (perm.trans (List.mergeSort_perm places inOrder).symm) (pairwise_mergeSort places)
    simp only [alsoSearched, sorted, alike.take_eq]
  | error fault =>
    cases alsoSearched : search other root room [] with
    | error later => exact .inr ⟨fault, later, rfl, rfl⟩
    | ok otherPlaces =>
      obtain ⟨places, alsoSearched, -⟩ := search_perm alike.symm otherFound found below.symm alsoProper alsoSearched
      rw [searched] at alsoSearched
      cases alsoSearched

/-! ## The listing of a directory -/

/-- A directory that can be listed gives the sources that are come to under it, once each and in order, and warnings of
the oversized ones; for one that cannot be there is a reason, and no listing. The order in which directories give their
entries does not matter, but for which of several reasons is told of where they cannot be gone through. Where the system
refuses nothing, all that is under the directory is come to, and the only reasons are directories that lie too deep and
paths that are too long. -/
theorem sources_exact {entries : List (Text × FileTree)} (distinct : disk.root.NamesDistinct)
    (found : disk.find root = .ok (.directory entries)) (proper : (FileTree.directory entries).NamesProper) :
    (Listable room disk root (.directory entries) → ∃ listed skipped : List Path,
      sources room disk root = ⟨.ok listed, skipped.map oversizedRow⟩ ∧
        Lists disk root (.directory entries) (· ≤ 10 * 1024 * 1024) listed ∧
        Lists disk root (.directory entries) (10 * 1024 * 1024 < ·) skipped) ∧
      (¬ Listable room disk root (.directory entries) → ∃ fault rows,
        sources room disk root = ⟨.error fault, rows⟩ ∧ Hinders room disk root (.directory entries) fault) ∧
      (∀ other : Disk, other.workingDirectory = disk.workingDirectory → other.refusal = disk.refusal →
        disk.root.Reordered other.root →
        (Listable room disk root (.directory entries) → sources room other root = sources room disk root) ∧
        (sources room other root = sources room disk root ∨ ∃ fault later,
          sources room disk root = .quiet (.error fault) ∧ sources room other root = .quiet (.error later))) ∧
      ((∀ access place, disk.refusal access place = none) →
        (Listable room disk root (.directory entries) ↔ PathsFit root (.directory entries) ∧
          ∀ names, (FileTree.directory entries).HasDirectory names → names.length < room) ∧
        (Listable room disk root (.directory entries) → ∀ names held,
          (FileTree.directory entries).at? names = some held → Reaches disk root [] names) ∧
        ∀ fault, Hinders room disk root (.directory entries) fault →
          fault = .tooDeep ∨ fault = .file .nameTooLong) := by
  have inside : (FileTree.directory entries).NamesDistinct := Disk.namesDistinct_of_find distinct found
  refine ⟨exists_sources found inside proper, exists_fault found inside proper, ?_, ?_⟩
  · intro other home refusal reordered
    have same := @sources_of_alike disk other root room entries ⟨reordered.alike distinct, home, refusal⟩ found proper
    refine ⟨fun listable => ?_, same⟩
    rcases same with same | ⟨fault, later, failed, -⟩
    · exact same
    · obtain ⟨listed, skipped, listing, -⟩ := exists_sources found inside proper listable
      cases failed.symm.trans listing
  · intro free
    exact ⟨listable_iff_of_free found inside proper free,
      fun listable names held there => listable.reaches found inside proper free there,
      fun fault hinders => hinders.eq_of_free found inside proper free⟩

/-- A file of so many bytes. -/
private def fileOf (size : Nat) : FileTree := .file ⟨Array.replicate size 0⟩

private def innerNames : List (Text × FileTree) :=
  [("huge.cls", fileOf 10485761), (".cls", fileOf 0), ("b.cls", fileOf 0)]

/-- Names in capitals, with nothing before the dot, or of a directory; a size at the limit and one above it. -/
private def mixedNames : List (Text × FileTree) :=
  [("z.TRIGGER", fileOf 10485760), ("a-b.cls", fileOf 0), ("d.cls", .directory []), ("a", .directory innerNames)]

private def mixed : Disk := .free (.directory [("src", .directory mixedNames)]) []

/-- The same files, with the entries of both directories the other way round. -/
private def turned : Disk := .free (.directory [("src", .directory [("a", .directory innerNames.reverse),
  ("d.cls", .directory []), ("a-b.cls", fileOf 0), ("z.TRIGGER", fileOf 10485760)])]) []

private def mixedRoot : Path := .ofText "src"

/-- A file of exactly ten megabytes is listed and one with a byte more is warned of. A directory is no source, nor is a
file whose name starts with its only dot. -/
theorem sources_exact_mixed_names : mixed.root.NamesDistinct ∧
    mixed.find mixedRoot = .ok (.directory mixedNames) ∧ (FileTree.directory mixedNames).NamesProper ∧
    Listable 990 mixed mixedRoot (.directory mixedNames) ∧
    mixed.root.Reordered turned.root ∧ sources 990 turned mixedRoot = sources 990 mixed mixedRoot ∧
    ∃ listed skipped : List Path, sources 990 mixed mixedRoot = ⟨.ok listed, skipped.map oversizedRow⟩ ∧
      mixedRoot.below ["z.TRIGGER"] ∈ listed ∧ mixedRoot.below ["a", "huge.cls"] ∈ skipped ∧
      mixedRoot.below ["d.cls"] ∉ listed ∧ mixedRoot.below ["a", ".cls"] ∉ listed := by
  have found : mixed.find mixedRoot = .ok (.directory mixedNames) := by
    have placed : mixed.place mixedRoot = .ok ["src"] := by decide +kernel
    exact Disk.reach_eq_ok_iff.mpr ⟨_, placed, rfl, rfl⟩
  have inside : (FileTree.directory mixedNames).NamesDistinct := by
    simp [mixedNames, innerNames, fileOf]
  have distinct : mixed.root.NamesDistinct := by simpa [mixed, Disk.free] using inside
  have proper : (FileTree.directory mixedNames).NamesProper := by decide +kernel
  have fit : PathsFit mixedRoot (.directory mixedNames) :=
    (FileTree.forall_at?_iff inside).mpr (by decide +kernel)
  have near : ∀ names, (FileTree.directory mixedNames).HasDirectory names → names.length < 990 := by
    have all : ∀ names held, (FileTree.directory mixedNames).at? names = some held → names.length < 990 :=
      (FileTree.forall_at?_iff inside).mpr (by decide +kernel)
    rintro names ⟨others, there⟩
    exact all names _ there
  have reordered : mixed.root.Reordered turned.root := by
    apply FileTree.Reordered.inside [] [] "src"
    apply FileTree.Reordered.trans (.entries (List.reverse_perm mixedNames).symm)
    exact .inside [] _ "a" (.entries (List.reverse_perm innerNames).symm)
  obtain ⟨exactly, -, regardless, free⟩ := @sources_exact mixed mixedRoot 990 mixedNames distinct found proper
  obtain ⟨iff, reaches, -⟩ := free fun _ _ => rfl
  have listable := iff.mpr ⟨fit, near⟩
  obtain ⟨listed, skipped, listing, lists, skips⟩ := exactly listable
  refine ⟨distinct, found, proper, listable, reordered, (regardless turned rfl rfl reordered).1 listable, listed,
    skipped, listing, ?_, ?_, ?_, ?_⟩
  · apply (lists.members _).mpr
    refine ⟨_, ⟨Array.replicate 10485760 0⟩, rfl, reaches listable _ _ rfl, rfl,
      ⟨"z", ".TRIGGER", rfl, by decide, .inr rfl⟩, ?_⟩
    simp [ByteArray.size]
  · apply (skips.members _).mpr
    refine ⟨_, ⟨Array.replicate 10485761 0⟩, rfl, reaches listable _ _ rfl, rfl,
      ⟨"huge", ".cls", rfl, by decide, .inl rfl⟩, ?_⟩
    simp [ByteArray.size]
  · intro member
    obtain ⟨names, contents, same, -, here, -⟩ := (lists.members _).mp member
    obtain rfl : names = ["d.cls"] := by simpa [Path.below, eq_comm] using same
    cases here
  · intro member
    obtain ⟨-, -, -, -, -, source, -⟩ := (lists.members _).mp member
    rw [← Path.isSourceName_iff] at source
    revert source
    decide +kernel

private def longName : Text := List.replicate 250 'n'

private def longSource : Text := List.replicate 40 (CodePoint.char 'A') ++ (".cls" : Text)

private def longPaths : Disk := .free (.directory [(longName, .directory [(longSource, .file .empty)])]) []

/-- The way into the directory and back out of it, fifteen times, and into it at last. -/
private def longRoot : Path := ⟨false, (List.replicate 15 [longName, (['.', '.'] : Text)]).flatten ++ [longName]⟩

/-- Directories one inside the other. -/
private def nested : Nat → FileTree
  | 0 => .directory []
  | depth + 1 => .directory [("d", nested depth)]

/-- A directory whose entries may not be given, with a source in it. -/
private def locked : Disk where
  root := .directory [("a", .directory [("B.cls", .file .empty)])]
  workingDirectory := []
  refusal access place := if access = .list ∧ place = ["a"] then some .permissionDenied else none

theorem nested_namesDistinct (depth : Nat) : (nested depth).NamesDistinct := by
  induction depth with
  | zero => simp [nested]
  | succ depth ih => simpa [nested] using ih

theorem nested_namesProper (depth : Nat) : (nested depth).NamesProper := by
  induction depth with
  | zero => simp [nested, FileTree.NamesProper, FileTree.places, FileTree.placesOfEntries]
  | succ depth ih =>
    have here : Path.IsName "d" := by decide
    intro names member
    have either : names = ["d"] ∨ ∃ rest ∈ (nested depth).places, ("d" : Text) :: rest = names := by
      simpa [nested, FileTree.places, FileTree.placesOfEntries] using member
    rcases either with rfl | ⟨rest, inside, rfl⟩
    · simpa using here
    · exact List.forall_mem_cons.mpr ⟨here, ih rest inside⟩

theorem nested_hasDirectory (depth : Nat) : (nested depth).HasDirectory (List.replicate depth "d") := by
  induction depth with
  | zero => exact ⟨[], rfl⟩
  | succ depth ih =>
    obtain ⟨entries, there⟩ := ih
    refine ⟨entries, ?_⟩
    rw [List.replicate_succ, nested, FileTree.at?_directory_cons]
    simpa using there

theorem exists_fault_of_nested (room : Nat) :
    ∃ fault rows, sources room (.free (nested room) []) ⟨false, []⟩ = ⟨.error fault, rows⟩ := by
  obtain ⟨entries, same⟩ : ∃ entries, nested room = .directory entries := by
    cases room <;> exact ⟨_, rfl⟩
  have found : (Disk.free (nested room) []).find ⟨false, []⟩ = .ok (.directory entries) := by
    rw [← same]
    rfl
  have distinct := same ▸ nested_namesDistinct room
  have proper := same ▸ nested_namesProper room
  have deep : (FileTree.directory entries).HasDirectory (List.replicate room "d") := same ▸ nested_hasDirectory room
  obtain ⟨fault, rows, failed, -⟩ := @exists_fault (.free (nested room) []) ⟨false, []⟩ room entries found distinct
    proper fun listable => by
      have near := ((listable_iff_of_free found distinct proper fun _ _ => rfl).mp listable).2 _ deep
      simp at near
  exact ⟨fault, rows, failed⟩

/-- A directory is found along a path that can just be looked up, but the path of the source in it cannot: the source
is not listed, nor is anything else. So it is with directories that lie too deep in one another. What is in a directory
that may not be listed is left out. -/
theorem sources_beyond_access :
    longPaths.root.NamesDistinct ∧ longPaths.find longRoot = .ok (.directory [(longSource, .file .empty)]) ∧
    Path.NamesSource longSource ∧ (∃ fault rows, sources 990 longPaths longRoot = ⟨.error fault, rows⟩) ∧
    (∃ fault rows, sources 990 (.free (nested 990) []) ⟨false, []⟩ = ⟨.error fault, rows⟩) ∧
    locked.root.NamesDistinct ∧ locked.find ⟨false, []⟩ = .ok locked.root ∧
    locked.root.at? ["a", "B.cls"] = some (.file .empty) ∧ sources 990 locked ⟨false, []⟩ = ⟨.ok [], []⟩ := by
  have placed : longPaths.place longRoot = .ok [longName] := by decide +kernel
  have held : longPaths.root.at? [longName] = some (.directory [(longSource, .file .empty)]) := by
    simp [longPaths, Disk.free, FileTree.at?]
  have found : longPaths.find longRoot = .ok (.directory [(longSource, .file .empty)]) :=
    Disk.reach_eq_ok_iff.mpr ⟨_, placed, held, rfl⟩
  have distinct : (FileTree.directory [(longSource, .file .empty)]).NamesDistinct := by simp
  have proper : (FileTree.directory [(longSource, .file .empty)]).NamesProper := by decide +kernel
  have unlistable : ¬ Listable 990 longPaths longRoot (.directory [(longSource, .file .empty)]) := by
    rw [listable_iff_of_free found distinct proper fun _ _ => rfl]
    rintro ⟨fit, -⟩
    have short := fit [longSource] (.file .empty) (by simp [FileTree.at?])
    revert short
    decide +kernel
  obtain ⟨fault, rows, failed, -⟩ := exists_fault found distinct proper unlistable
  have lockedFound : locked.find ⟨false, []⟩ = .ok locked.root := rfl
  refine ⟨by simp [longPaths, Disk.free], found,
    ⟨List.replicate 40 (CodePoint.char 'A'), ".cls", rfl, by decide, .inl rfl⟩, ⟨fault, rows, failed⟩,
    exists_fault_of_nested 990, by simp [locked], lockedFound, rfl, ?_⟩
  have searched : search locked ⟨false, []⟩ 990 [] = .ok [["a"]] := rfl
  rw [sources_of_sorted lockedFound searched (.refl _) (List.pairwise_singleton _ _)]
  rfl

end Listing

end ApexComments
