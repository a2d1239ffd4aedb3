import ApexComments.Proofs.Listings

/-!
# Going through directories

The directories under a root are gone through one inside the other. What that comes to is described by the way there:
names lead on from a directory where it can be listed and they are those of its entries (`Reaches`). Each place that
names lead to is come to, and none twice (`mem_search_iff`, `nodup_search`). If there is an end to it, no directory on
the way lies too deep and each can be listed or is passed over (`near_of_search`); if it fails, one of these fails for
some directory (`exists_of_search_error`). The order in which directories give their entries changes nothing of where
names lead to (`Reaches.congr`).
-/
namespace ApexComments

open Text

namespace FileTree

variable {tree : FileTree} {upper lower : List Text}

theorem HasDirectory.of_append (here : tree.HasDirectory (upper ++ lower)) : tree.HasDirectory upper := by
  obtain ⟨entries, found⟩ := here
  rw [at?_append] at found
  obtain ⟨above, upperFound, below⟩ := Option.bind_eq_some_iff.mp found
  cases above with
  | directory others => exact ⟨others, upperFound⟩
  | file contents => exact absurd ⟨entries, below⟩ (not_hasDirectory_file contents lower)

end FileTree

namespace Disk

theorem namesDistinct_of_find {disk : Disk} {path : Path} {tree : FileTree} (distinct : disk.root.NamesDistinct)
    (found : disk.find path = .ok tree) : tree.NamesDistinct := by
  obtain ⟨place, -, here, -⟩ := reach_eq_ok_iff.mp found
  exact distinct.of_at? here

theorem entries_eq_ok_iff {disk : Disk} {path : Path} {entries : List (Text × FileTree)} :
    disk.entries path = .ok entries ↔ disk.reach .list path = .ok (.directory entries) := by
  rw [Disk.entries]
  cases disk.reach .list path with
  | error fault => simp
  | ok tree => cases tree <;> simp

end Disk

namespace Listing

/-! ## Places that are reached -/

/-- The names lead on from a place under the root: each is that of an entry, and what is gone through to come to it may
be listed. -/
def Reaches (disk : Disk) (root : Path) (above : List Text) : List Text → Prop
  | [] => True
  | name :: rest => ∃ entries, disk.entries (root.below above) = .ok entries ∧ name ∈ entries.map Prod.fst ∧
      Reaches disk root (above ++ [name]) rest

variable {disk other : Disk} {root path : Path} {room : Nat} {above names rest : List Text} {name : Text}
  {entries : List (Text × FileTree)} {places : List (List Text)} {top : FileTree}

theorem reaches_append {more : List Text} : Reaches disk root above (rest ++ more) ↔
    Reaches disk root above rest ∧ Reaches disk root (above ++ rest) more := by
  induction rest generalizing above with
  | nil => simp [Reaches]
  | cons name rest ih =>
    rw [List.cons_append, Reaches, Reaches]
    simp only [ih, List.append_assoc, List.singleton_append]
    exact ⟨fun ⟨entries, listed, entry, onward, further⟩ => ⟨⟨entries, listed, entry, onward⟩, further⟩,
      fun ⟨⟨entries, listed, entry, onward⟩, further⟩ => ⟨entries, listed, entry, onward, further⟩⟩

section Gather

variable {ε α β : Type} {items : List β} {give : β → Except ε (List α)} {all : List α}

theorem isOk_gather_iff :
    (∃ all, gather (items.map give) = .ok all) ↔ ∀ item ∈ items, ∃ part, give item = .ok part := by
  induction items with
  | nil => simp [gather]
  | cons item items ih =>
    rw [List.forall_mem_cons, ← ih, List.map_cons]
    cases give item with
    | error fault => simp [gather]
    | ok part =>
      rw [gather]
      cases gather (items.map give) <;> simp [Except.map]

theorem gather_cons_eq_ok_iff {item : β} : gather ((item :: items).map give) = .ok all ↔
    ∃ part others, give item = .ok part ∧ gather (items.map give) = .ok others ∧ all = part ++ others := by
  rw [List.map_cons]
  cases give item with
  | error fault => simp [gather]
  | ok part =>
    rw [gather]
    cases gather (items.map give) <;> simp [Except.map, eq_comm]

theorem exists_of_gather_error {fault : ε} (failed : gather (items.map give) = .error fault) :
    ∃ item ∈ items, give item = .error fault := by
  induction items with
  | nil => cases failed
  | cons item items ih =>
    rw [List.map_cons] at failed
    cases given : give item with
    | error found =>
      rw [given, gather] at failed
      exact ⟨item, List.mem_cons_self, by rw [given, Except.error.inj failed]⟩
    | ok part =>
      rw [given, gather] at failed
      cases later : gather (items.map give) with
      | ok others => simp [later, Except.map] at failed
      | error found =>
        obtain rfl : found = fault := by simpa [later, Except.map] using failed
        obtain ⟨other, member, same⟩ := ih later
        exact ⟨other, List.mem_cons_of_mem item member, same⟩

theorem mem_gather (gathered : gather (items.map give) = .ok all) {found : α} :
    found ∈ all ↔ ∃ item ∈ items, ∃ part, give item = .ok part ∧ found ∈ part := by
  induction items generalizing all with
  | nil =>
    obtain rfl := Except.ok.inj gathered
    simp
  | cons item items ih =>
    obtain ⟨part, others, given, later, rfl⟩ := gather_cons_eq_ok_iff.mp gathered
    simp [given, ih later]

theorem nodup_gather (gathered : gather (items.map give) = .ok all) (unique : items.Nodup)
    (each : ∀ item ∈ items, ∀ part, give item = .ok part → part.Nodup)
    (apart : ∀ item ∈ items, ∀ other ∈ items, ∀ part more, give item = .ok part → give other = .ok more →
      ∀ found ∈ part, found ∈ more → item = other) : all.Nodup := by
  induction items generalizing all with
  | nil =>
    obtain rfl := Except.ok.inj gathered
    exact List.nodup_nil
  | cons item items ih =>
    obtain ⟨part, others, given, later, rfl⟩ := gather_cons_eq_ok_iff.mp gathered
    obtain ⟨new, unique⟩ := List.nodup_cons.mp unique
    refine List.nodup_append'.mpr ⟨each item List.mem_cons_self part given, ?_, ?_⟩
    · exact ih later unique (fun other member => each other (List.mem_cons_of_mem item member))
        fun first member second alsoMember => apart first (List.mem_cons_of_mem item member) second
          (List.mem_cons_of_mem item alsoMember)
    · refine List.disjoint_left.mpr fun found here there => ?_
      obtain ⟨other, member, more, alsoGiven, inside⟩ := (mem_gather later).mp there
      obtain rfl := apart item List.mem_cons_self other (List.mem_cons_of_mem item member) part more given alsoGiven
        found here inside
      exact new member

end Gather

theorem search_eq_ok_iff : search disk root (room + 1) above = .ok places ↔
    (∃ fault, disk.entries (root.below above) = .error fault ∧ fault.isDenied = true ∧ places = []) ∨
    ∃ entries inner, disk.entries (root.below above) = .ok entries ∧
      gather ((directoryNames entries).map fun name => search disk root room (above ++ [name])) = .ok inner ∧
      places = (entries.map fun entry => above ++ [entry.1]) ++ inner := by
  rw [search]
  cases disk.entries (root.below above) with
  | error fault =>
    by_cases denied : fault.isDenied = true
    · simp only [denied, if_true, Except.ok.injEq, Except.error.injEq, exists_eq_left', true_and, reduceCtorEq,
        false_and, exists_false, or_false]
      exact eq_comm
    · simp [denied]
  | ok entries =>
    simp only [Except.ok.injEq, exists_and_left, exists_eq_left', reduceCtorEq, false_and, exists_false, false_or]
    cases gather ((directoryNames entries).map fun name => search disk root room (above ++ [name])) with
    | error fault => simp [Except.map]
    | ok inner =>
      simp only [Except.map, Except.ok.injEq, exists_eq_left']
      exact eq_comm

theorem mem_names_of_mem_directoryNames (directory : name ∈ directoryNames entries) : name ∈ entries.map Prod.fst :=
  (List.filter_sublist.map Prod.fst).subset directory

/-- Nothing is reached through what cannot be listed. -/
theorem eq_nil_of_reaches {fault : FileError} (failed : disk.entries (root.below above) = .error fault)
    (reaches : Reaches disk root above rest) : rest = [] := by
  cases rest with
  | nil => rfl
  | cons name rest =>
    obtain ⟨entries, listed, -⟩ := reaches
    cases failed.symm.trans listed

section Search

variable (found : disk.find root = .ok top) (distinct : top.NamesDistinct) (proper : top.NamesProper)
include found distinct proper

theorem at?_of_entries {there : FileTree} (here : top.at? above = some there)
    (listed : disk.entries (root.below above) = .ok entries) : top.at? above = some (.directory entries) :=
  Disk.at?_of_reach found (proper.isName distinct here) (Disk.entries_eq_ok_iff.mp listed)

omit found proper in
theorem mem_directoryNames_iff (here : top.at? above = some (.directory entries)) :
    name ∈ directoryNames entries ↔ top.HasDirectory (above ++ [name]) := by
  cases distinct.of_at? here with
  | directory unique inside =>
    have below (tree : FileTree) : top.at? (above ++ [name]) = some tree ↔ (name, tree) ∈ entries := by
      rw [FileTree.at?_append, here, Option.bind_some, FileTree.at?_directory_cons_eq_some_iff unique]
      simp [FileTree.at?]
    simp only [directoryNames, FileTree.HasDirectory, below, List.mem_map, List.mem_filter, Prod.exists]
    constructor
    · rintro ⟨_, tree, ⟨member, directory⟩, rfl⟩
      cases tree with
      | file contents => cases directory
      | directory others => exact ⟨others, member⟩
    · rintro ⟨others, member⟩
      exact ⟨name, _, ⟨member, rfl⟩, rfl⟩

theorem exists_at?_of_reaches {there : FileTree} (here : top.at? above = some there)
    (reaches : Reaches disk root above rest) : ∃ tree, top.at? (above ++ rest) = some tree := by
  induction rest generalizing above there with
  | nil => exact ⟨there, by rw [List.append_nil, here]⟩
  | cons name rest ih =>
    obtain ⟨entries, listed, entry, onward⟩ := reaches
    have held := at?_of_entries found distinct proper here listed
    obtain ⟨⟨name, tree⟩, member, rfl⟩ := List.mem_map.mp entry
    cases distinct.of_at? held with
    | directory unique inside =>
      have next : top.at? (above ++ [name]) = some tree := by
        rw [FileTree.at?_append, held, Option.bind_some, FileTree.at?_directory_cons_eq_some_iff unique]
        exact ⟨tree, member, rfl⟩
      obtain ⟨last, reached⟩ := ih next onward
      exact ⟨last, by rwa [List.append_assoc] at reached⟩

/-- What going through the directories comes to are the places that names lead to. -/
theorem mem_search_iff (here : top.HasDirectory above) (searched : search disk root room above = .ok places) :
    names ∈ places ↔ ∃ rest, rest ≠ [] ∧ names = above ++ rest ∧ Reaches disk root above rest := by
  induction room generalizing above places with
  | zero => cases searched
  | succ room ih =>
    rcases search_eq_ok_iff.mp searched with ⟨fault, failed, -, rfl⟩ | ⟨entries, inner, listed, gathered, rfl⟩
    · simp only [List.not_mem_nil, false_iff]
      rintro ⟨rest, nonempty, -, reaches⟩
      exact nonempty (eq_nil_of_reaches failed reaches)
    · obtain ⟨others, there⟩ := here
      have held := at?_of_entries found distinct proper there listed
      have within (name : Text) : name ∈ directoryNames entries ↔ top.HasDirectory (above ++ [name]) :=
        mem_directoryNames_iff distinct held
      rw [List.mem_append, mem_gather gathered]
      constructor
      · rintro (entry | ⟨name, directory, part, inside, member⟩)
        · obtain ⟨⟨name, tree⟩, member, rfl⟩ := List.mem_map.mp entry
          exact ⟨[name], by simp, rfl, entries, listed, List.mem_map_of_mem member, trivial⟩
        · obtain ⟨rest, nonempty, rfl, reaches⟩ := (ih ((within name).mp directory) inside).mp member
          exact ⟨name :: rest, by simp, by simp, entries, listed, mem_names_of_mem_directoryNames directory, reaches⟩
      · rintro ⟨_ | ⟨name, rest⟩, nonempty, rfl, reaches⟩
        · exact absurd rfl nonempty
        obtain ⟨again, alsoListed, entry, onward⟩ := reaches
        obtain rfl : entries = again := Except.ok.inj (listed.symm.trans alsoListed)
        cases rest with
        | nil =>
          obtain ⟨⟨name, tree⟩, member, rfl⟩ := List.mem_map.mp entry
          exact .inl (List.mem_map.mpr ⟨(name, tree), member, rfl⟩)
        | cons next rest =>
          -- What is gone through is a directory, so it is among those that were gone through.
          obtain ⟨first, reached⟩ := exists_at?_of_reaches found distinct proper held
            (show Reaches disk root above [name] from ⟨entries, listed, entry, trivial⟩)
          obtain ⟨deeper, alsoDeeper, -⟩ := id onward
          have directory := (within name).mpr ⟨_, at?_of_entries found distinct proper reached alsoDeeper⟩
          obtain ⟨part, inside⟩ := isOk_gather_iff.mp ⟨inner, gathered⟩ name directory
          refine .inr ⟨name, directory, part, inside, ?_⟩
          exact (ih ((within name).mp directory) inside).mpr ⟨next :: rest, by simp, by simp, onward⟩

/-- No place is come to twice. -/
theorem nodup_search (here : top.HasDirectory above) (searched : search disk root room above = .ok places) :
    places.Nodup := by
  induction room generalizing above places with
  | zero => cases searched
  | succ room ih =>
    rcases search_eq_ok_iff.mp searched with ⟨fault, -, -, rfl⟩ | ⟨entries, inner, listed, gathered, rfl⟩
    · exact List.nodup_nil
    obtain ⟨others, there⟩ := here
    have held := at?_of_entries found distinct proper there listed
    have below (name : Text) (directory : name ∈ directoryNames entries) : top.HasDirectory (above ++ [name]) :=
      (mem_directoryNames_iff distinct held).mp directory
    have deeper (name : Text) (directory : name ∈ directoryNames entries) (part : List (List Text))
        (inside : search disk root room (above ++ [name]) = .ok part) (names : List Text) (member : names ∈ part) :
        ∃ rest, rest ≠ [] ∧ names = above ++ name :: rest := by
      obtain ⟨rest, nonempty, rfl, -⟩ :=
        (mem_search_iff found distinct proper (below name directory) inside).mp member
      exact ⟨rest, nonempty, by simp⟩
    cases distinct.of_at? held with
    | directory unique inside =>
      refine List.nodup_append'.mpr ⟨?_, ?_, ?_⟩
      · have entryNames :
            (entries.map fun entry => above ++ [entry.1]) = (entries.map Prod.fst).map (above ++ [·]) := by
          rw [List.map_map]
          rfl
        rw [entryNames]
        refine unique.map ?_
        intro name other same
        exact List.singleton_injective (List.append_cancel_left same)
      · have uniqueDirectories : (directoryNames entries).Nodup := (List.filter_sublist.map Prod.fst).nodup unique
        refine nodup_gather gathered uniqueDirectories (fun name directory part => ih (below name directory)) ?_
        intro name directory other alsoDirectory part more given alsoGiven names member alsoMember
        obtain ⟨rest, -, rfl⟩ := deeper name directory part given names member
        obtain ⟨others, -, same⟩ := deeper other alsoDirectory more alsoGiven _ alsoMember
        exact (List.cons.inj (List.append_cancel_left same)).1
      · refine List.disjoint_left.mpr ?_
        intro names entry member
        obtain ⟨⟨first, tree⟩, -, rfl⟩ := List.mem_map.mp entry
        obtain ⟨name, directory, part, inside, inPart⟩ := (mem_gather gathered).mp member
        obtain ⟨rest, nonempty, same⟩ := deeper name directory part inside _ inPart
        exact nonempty (List.cons.inj (List.append_cancel_left same)).2.symm

/-- Where it comes to an end, no directory that is come to lies too deep, and each can be listed or is passed over. -/
theorem near_of_search (here : top.HasDirectory above) (searched : search disk root room above = .ok places)
    (reaches : Reaches disk root above rest) (inside : top.HasDirectory (above ++ rest)) : rest.length < room ∧
      ∀ fault, disk.entries (root.below (above ++ rest)) = .error fault → fault.isDenied = true := by
  induction room generalizing above places rest with
  | zero => cases searched
  | succ room ih =>
    rcases search_eq_ok_iff.mp searched with ⟨fault, failed, denied, -⟩ | ⟨entries, inner, listed, gathered, -⟩
    · obtain rfl := eq_nil_of_reaches failed reaches
      refine ⟨Nat.succ_pos room, fun again alsoFailed => ?_⟩
      rw [List.append_nil, failed] at alsoFailed
      rwa [← Except.error.inj alsoFailed]
    · cases rest with
      | nil =>
        refine ⟨Nat.succ_pos room, fun fault failed => ?_⟩
        rw [List.append_nil, listed] at failed
        cases failed
      | cons name rest =>
        obtain ⟨others, there⟩ := here
        have held := at?_of_entries found distinct proper there listed
        obtain ⟨again, -, -, onward⟩ := reaches
        rw [← List.singleton_append, ← List.append_assoc] at inside ⊢
        have directory := (mem_directoryNames_iff distinct held).mpr inside.of_append
        obtain ⟨part, searchedOn⟩ := isOk_gather_iff.mp ⟨inner, gathered⟩ name directory
        obtain ⟨near, granted⟩ := ih inside.of_append searchedOn onward inside
        exact ⟨by simpa using near, granted⟩

/-- Where it ends with an error, there is a directory too deep, or one that cannot be listed for another reason than
that it may not be. -/
theorem exists_of_search_error {fault : ListingError} (here : top.HasDirectory above)
    (failed : search disk root room above = .error fault) :
    ∃ rest, Reaches disk root above rest ∧ top.HasDirectory (above ++ rest) ∧
      ((fault = .tooDeep ∧ rest.length = room) ∨ ∃ error, fault = .file error ∧
        disk.entries (root.below (above ++ rest)) = .error error ∧ error.isDenied = false) := by
  induction room generalizing above with
  | zero =>
    obtain rfl := Except.error.inj failed
    exact ⟨[], trivial, by rwa [List.append_nil], .inl ⟨rfl, rfl⟩⟩
  | succ room ih =>
    rw [search] at failed
    cases listed : disk.entries (root.below above) with
    | error error =>
      simp only [listed] at failed
      cases denied : error.isDenied with
      | true => simp [denied] at failed
      | false =>
        obtain rfl : ListingError.file error = fault := by simpa [denied] using failed
        exact ⟨[], trivial, by rwa [List.append_nil], .inr ⟨error, rfl, by rwa [List.append_nil], denied⟩⟩
    | ok entries =>
      obtain ⟨others, there⟩ := here
      have held := at?_of_entries found distinct proper there listed
      simp only [listed] at failed
      have inner : gather ((directoryNames entries).map fun name => search disk root room (above ++ [name])) =
          .error fault := by
        cases gathered : gather ((directoryNames entries).map fun name => search disk root room (above ++ [name])) with
        | ok inner => simp [gathered, Except.map] at failed
        | error found => simpa [gathered, Except.map] using failed
      obtain ⟨name, directory, failedOn⟩ := exists_of_gather_error inner
      obtain ⟨rest, reaches, inside, reason⟩ := ih ((mem_directoryNames_iff distinct held).mp directory) failedOn
      rw [List.append_assoc, List.singleton_append] at inside reason
      refine ⟨name :: rest, ⟨entries, listed, mem_names_of_mem_directoryNames directory, reaches⟩, inside, ?_⟩
      rwa [List.length_cons, Nat.add_right_cancel_iff]

end Search

end Listing

/-! ## Entries in another order -/

theorem FileTree.Alike.symm {tree other : FileTree} (alike : tree.Alike other) : other.Alike tree :=
  ⟨alike.alsoDistinct, alike.distinct, fun place => (alike.look_eq place).symm⟩

theorem FileTree.Alike.hasDirectory {tree other : FileTree} (alike : tree.Alike other) {names : List Text}
    (here : tree.HasDirectory names) : other.HasDirectory names := by
  obtain ⟨entries, found⟩ := here
  rcases alike.at?_cases names with ⟨absent, -⟩ | ⟨held, file, -⟩ | ⟨-, others, -, there, -⟩
  · rw [found] at absent
    cases absent
  · rw [found] at file
    cases file
  · exact ⟨others, there⟩

theorem FileTree.Alike.mem_entries {entries others : List (Text × FileTree)}
    (alike : (directory entries).Alike (directory others)) {name : Text} (entry : name ∈ entries.map Prod.fst) :
    name ∈ others.map Prod.fst := by
  obtain ⟨⟨name, tree⟩, member, rfl⟩ := List.mem_map.mp entry
  cases alike.distinct with
  | directory unique inside =>
    cases alike.alsoDistinct with
    | directory alsoUnique alsoInside =>
      have here : (directory entries).at? [name] = some tree :=
        (at?_directory_cons_eq_some_iff unique).mpr ⟨tree, member, rfl⟩
      have there := alike.look_eq [name]
      rw [look, look, here] at there
      obtain ⟨found, held, -⟩ := Option.map_eq_some_iff.mp there
      obtain ⟨again, alsoMember, -⟩ := (at?_directory_cons_eq_some_iff alsoUnique).mp held
      exact List.mem_map.mpr ⟨_, alsoMember, rfl⟩

namespace Disk

/-- Two disks with the same at every place, that are looked at from one directory and refuse the same. -/
structure Alike (disk other : Disk) : Prop where
  root : disk.root.Alike other.root
  home : other.workingDirectory = disk.workingDirectory
  refusal : other.refusal = disk.refusal

namespace Alike

variable {disk other : Disk} (alike : disk.Alike other)
include alike

theorem symm : other.Alike disk := ⟨alike.root.symm, alike.home.symm, alike.refusal.symm⟩

theorem step_eq (place : List Text) (component : Text) : other.step place component = disk.step place component := by
  rw [step, step, alike.refusal]
  rcases alike.root.at?_cases place with ⟨here, there⟩ | ⟨held, here, there⟩ | ⟨entries, others, here, there, -⟩
  all_goals rw [here, there]
  cases disk.refusal .search place <;> rfl

theorem walk_eq (place components : List Text) : other.walk place components = disk.walk place components := by
  induction components generalizing place with
  | nil => rfl
  | cons component components ih => simp only [walk, alike.step_eq, ih]

theorem reach_cases (access : Access) (path : Path) :
    (∃ fault, disk.reach access path = .error fault ∧ other.reach access path = .error fault) ∨
    (∃ contents, disk.reach access path = .ok (.file contents) ∧ other.reach access path = .ok (.file contents)) ∨
    ∃ entries others, disk.reach access path = .ok (.directory entries) ∧
      other.reach access path = .ok (.directory others) ∧ (FileTree.directory entries).Alike (.directory others) := by
  have placed : other.place path = disk.place path := by rw [place, place, alike.home, alike.walk_eq]
  rw [reach, reach, placed]
  cases disk.place path with
  | error fault => exact .inl ⟨fault, rfl, rfl⟩
  | ok place =>
    simp only [grant, alike.refusal]
    rcases alike.root.at?_cases place with ⟨here, there⟩ | ⟨held, here, there⟩ | ⟨entries, others, here, there, below⟩
    · exact .inl ⟨.notFound, by rw [here], by rw [there]⟩
    · rw [here, there]
      cases disk.refusal access place with
      | some error => exact .inl ⟨.refused error, rfl, rfl⟩
      | none => exact .inr (.inl ⟨held, rfl, rfl⟩)
    · rw [here, there]
      cases disk.refusal access place with
      | some error => exact .inl ⟨.refused error, rfl, rfl⟩
      | none => exact .inr (.inr ⟨entries, others, rfl, rfl, below⟩)

theorem isFile_eq (path : Path) : other.isFile path = disk.isFile path := by
  rw [isFile, isFile, ask, ask, find, find]
  rcases alike.reach_cases .ask path with ⟨fault, here, there⟩ | ⟨held, here, there⟩ | ⟨entries, others, here, there, -⟩
  all_goals rw [here, there]
  rfl

theorem entries_eq_error {path : Path} {fault : FileError} (failed : disk.entries path = .error fault) :
    other.entries path = .error fault := by
  rw [entries] at failed ⊢
  rcases alike.reach_cases .list path with
    ⟨error, here, there⟩ | ⟨held, here, there⟩ | ⟨entries, others, here, there, -⟩
  · rwa [there, ← here]
  · rwa [there, ← here]
  · rw [here] at failed
    cases failed

theorem take_eq (paths : List Path) : Listing.take other paths = Listing.take disk paths := by
  induction paths with
  | nil => rfl
  | cons path paths ih =>
    rw [Listing.take, Listing.take, alike.isFile_eq, ih, find, find]
    rcases alike.reach_cases .ask path with
      ⟨fault, here, there⟩ | ⟨held, here, there⟩ | ⟨entries, others, here, there, -⟩
    all_goals rw [here, there]
    cases disk.isFile path with
    | error fault => rfl
    | ok answer => cases answer <;> rfl

end Alike

end Disk

namespace Listing

variable {disk other : Disk} {root : Path} {room : Nat} {tree otherTree : FileTree}

theorem Reaches.congr (alike : disk.Alike other) {above names : List Text} (reaches : Reaches disk root above names) :
    Reaches other root above names := by
  induction names generalizing above with
  | nil => trivial
  | cons name rest ih =>
    obtain ⟨entries, listed, entry, onward⟩ := reaches
    have here := Disk.entries_eq_ok_iff.mp listed
    rcases alike.reach_cases .list (root.below above) with ⟨fault, failed, -⟩ | ⟨held, file, -⟩ |
      ⟨again, others, directory, there, below⟩
    · rw [here] at failed
      cases failed
    · rw [here] at file
      cases file
    · rw [here] at directory
      obtain rfl : entries = again := by simpa using directory
      exact ⟨others, Disk.entries_eq_ok_iff.mpr there, below.mem_entries entry, ih onward⟩

end Listing

end ApexComments
