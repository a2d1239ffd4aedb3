import ApexComments.Proofs.Storage
import Mathlib.Data.List.Nodup

/-!
# What is where in a tree

Where no directory has two entries of one name, going down the entries of a tree comes to the places that looking
places up one by one would find (`mem_places_iff`). A tree whose directories give their entries in other orders has
the same at each place (`Reordered.look_eq`), so nothing that is found by place can depend on such an order.
-/
namespace ApexComments

namespace FileTree

variable {tree other : FileTree} {entries others : List (Text × FileTree)} {name : Text} {names : List Text}
variable {contents : ByteArray}

/-- No directory of the tree has two entries of one name, as none on a disk does. -/
inductive NamesDistinct : FileTree → Prop
  | file (contents : ByteArray) : NamesDistinct (file contents)
  | directory {entries : List (Text × FileTree)} : (entries.map Prod.fst).Nodup →
      (∀ entry ∈ entries, NamesDistinct entry.2) → NamesDistinct (directory entries)

@[simp] theorem namesDistinct_file (contents : ByteArray) : (file contents).NamesDistinct := .file contents

@[simp] theorem namesDistinct_directory_iff : (directory entries).NamesDistinct ↔
    (entries.map Prod.fst).Nodup ∧ ∀ entry ∈ entries, entry.2.NamesDistinct := by
  constructor
  · rintro (_ | ⟨unique, inside⟩)
    exact ⟨unique, inside⟩
  · rintro ⟨unique, inside⟩
    exact .directory unique inside

/-- The bytes of a file; a directory has none. -/
def bytes? : FileTree → Option ByteArray
  | file contents => some contents
  | directory _ => none

/-- What can be seen at a place: nothing, a directory, or a file with its bytes. -/
def look (tree : FileTree) (place : List Text) : Option (Option ByteArray) := (tree.at? place).map bytes?

/-! ## Entries by their names -/

theorem lookup_eq_some_iff_mem (unique : (entries.map Prod.fst).Nodup) :
    entries.lookup name = some tree ↔ (name, tree) ∈ entries := by
  induction entries with
  | nil => simp
  | cons entry rest ih =>
    obtain ⟨first, held⟩ := entry
    rw [List.map_cons, List.nodup_cons] at unique
    by_cases same : name = first
    · subst same
      have absent : (name, tree) ∉ rest := fun member => unique.1 (List.mem_map.mpr ⟨_, member, rfl⟩)
      simp [absent, eq_comm]
    · have further : (name == first) = false := by simpa using same
      simp [List.lookup_cons, further, same, ih unique.2]

theorem lookup_eq_of_perm (unique : (entries.map Prod.fst).Nodup) (perm : entries.Perm others) (name : Text) :
    others.lookup name = entries.lookup name := by
  have alsoUnique : (others.map Prod.fst).Nodup := (perm.map Prod.fst).nodup_iff.mp unique
  apply Option.ext
  intro tree
  rw [lookup_eq_some_iff_mem unique, lookup_eq_some_iff_mem alsoUnique, perm.mem_iff]

theorem at?_directory_cons (entries : List (Text × FileTree)) (name : Text) (names : List Text) :
    (directory entries).at? (name :: names) = (entries.lookup name).bind (·.at? names) := by
  rw [at?]
  cases entries.lookup name <;> rfl

theorem at?_directory_cons_eq_some_iff (unique : (entries.map Prod.fst).Nodup) :
    (directory entries).at? (name :: names) = some tree ↔
      ∃ entry, (name, entry) ∈ entries ∧ entry.at? names = some tree := by
  rw [at?_directory_cons, Option.bind_eq_some_iff]
  simp only [lookup_eq_some_iff_mem unique]

theorem NamesDistinct.of_at? (distinct : tree.NamesDistinct) (found : tree.at? names = some other) :
    other.NamesDistinct := by
  induction names generalizing tree with
  | nil =>
    obtain rfl : tree = other := Option.some.inj found
    exact distinct
  | cons name names ih =>
    cases distinct with
    | file contents => simp [at?] at found
    | directory unique inside =>
      obtain ⟨entry, member, below⟩ := (at?_directory_cons_eq_some_iff unique).mp found
      exact ih (inside _ member) below

/-! ## Places -/

mutual

/-- The places below one, files and directories, each as the names that lead to it from there. -/
def places : FileTree → List (List Text)
  | file _ => []
  | directory entries => placesOfEntries entries

/-- The places at or below several entries. -/
def placesOfEntries : List (Text × FileTree) → List (List Text)
  | [] => []
  | (name, tree) :: rest => [name] :: (places tree).map (name :: ·) ++ placesOfEntries rest

end

theorem placesOfEntries_eq (entries : List (Text × FileTree)) : placesOfEntries entries =
    entries.flatMap fun entry => [entry.1] :: entry.2.places.map (entry.1 :: ·) := by
  induction entries with
  | nil => rfl
  | cons entry rest ih => rw [placesOfEntries, ih, List.flatMap_cons]

theorem mem_places_directory_cons : name :: names ∈ (directory entries).places ↔
    ∃ entry, (name, entry) ∈ entries ∧ (names = [] ∨ names ∈ entry.places) := by
  rw [places, placesOfEntries_eq]
  simp only [List.mem_flatMap, List.mem_cons, List.mem_map, List.cons.injEq, Prod.exists]
  constructor
  · rintro ⟨first, entry, member, ⟨rfl, here⟩ | ⟨rest, below, rfl, rfl⟩⟩
    · exact ⟨entry, member, .inl here⟩
    · exact ⟨entry, member, .inr below⟩
  · rintro ⟨entry, member, here | below⟩
    · exact ⟨name, entry, member, .inl ⟨rfl, here⟩⟩
    · exact ⟨name, entry, member, .inr ⟨names, below, rfl, rfl⟩⟩

/-- The places below a tree are those that something is found at. -/
theorem mem_places_iff (distinct : tree.NamesDistinct) :
    names ∈ tree.places ↔ names ≠ [] ∧ ∃ found, tree.at? names = some found := by
  induction distinct generalizing names with
  | file held => cases names <;> simp [places, at?]
  | directory unique inside ih =>
    cases names with
    | nil => simp [places, placesOfEntries_eq]
    | cons name names =>
      simp only [mem_places_directory_cons, at?_directory_cons_eq_some_iff unique]
      constructor
      · rintro ⟨entry, member, rfl | below⟩
        · exact ⟨by simp, entry, entry, member, rfl⟩
        · obtain ⟨-, found, there⟩ := (ih _ member).mp below
          exact ⟨by simp, found, entry, member, there⟩
      · rintro ⟨-, found, entry, member, there⟩
        by_cases here : names = []
        · exact ⟨entry, member, .inl here⟩
        · exact ⟨entry, member, .inr ((ih _ member).mpr ⟨here, found, there⟩)⟩

/-- What holds at the top and at every place below it holds wherever something is found. -/
theorem forall_at?_iff (distinct : tree.NamesDistinct) {P : List Text → Prop} :
    (∀ names held, tree.at? names = some held → P names) ↔ P [] ∧ ∀ names ∈ tree.places, P names := by
  constructor
  · intro all
    refine ⟨all [] tree rfl, fun names member => ?_⟩
    obtain ⟨-, held, there⟩ := (mem_places_iff distinct).mp member
    exact all names held there
  · rintro ⟨top, below⟩ names held there
    by_cases here : names = []
    · exact here ▸ top
    · exact below names ((mem_places_iff distinct).mpr ⟨here, held, there⟩)

/-! ## Entries in another order -/

/-- The same tree, with the entries of its directories given in other orders. -/
inductive Reordered : FileTree → FileTree → Prop
  | refl (tree : FileTree) : Reordered tree tree
  | entries {entries others : List (Text × FileTree)} : entries.Perm others →
      Reordered (directory entries) (directory others)
  | inside (before after : List (Text × FileTree)) (name : Text) {tree other : FileTree} : Reordered tree other →
      Reordered (directory (before ++ (name, tree) :: after)) (directory (before ++ (name, other) :: after))
  | trans {tree middle other : FileTree} : Reordered tree middle → Reordered middle other → Reordered tree other

theorem Reordered.namesDistinct (reordered : Reordered tree other) (distinct : tree.NamesDistinct) :
    other.NamesDistinct := by
  induction reordered with
  | refl tree => exact distinct
  | entries perm =>
    cases distinct with
    | directory unique inside =>
      exact .directory ((perm.map Prod.fst).nodup_iff.mp unique) fun entry member =>
        inside entry (perm.mem_iff.mpr member)
  | inside before after name reordered ih =>
    cases distinct with
    | directory unique inside =>
      refine .directory (by simpa using unique) ?_
      intro entry member
      rcases List.mem_append.mp member with earlier | here
      · exact inside entry (List.mem_append_left _ earlier)
      rcases List.mem_cons.mp here with rfl | later
      · exact ih (inside (name, _) (by simp))
      · exact inside entry (by simp [later])
  | trans first second ihFirst ihSecond => exact ihSecond (ihFirst distinct)

theorem Reordered.look_eq (reordered : Reordered tree other) (distinct : tree.NamesDistinct) (place : List Text) :
    other.look place = tree.look place := by
  induction reordered generalizing place with
  | refl tree => rfl
  | entries perm =>
    cases distinct with
    | directory unique inside =>
      cases place with
      | nil => rfl
      | cons name place => rw [look, look, at?_directory_cons, at?_directory_cons, lookup_eq_of_perm unique perm]
  | inside before after name reordered ih =>
    cases distinct with
    | directory unique inside =>
      cases place with
      | nil => rfl
      | cons first place =>
        -- An entry of this name that comes earlier hides the changed one in both trees.
        have within := ih (inside (name, _) (by simp)) place
        rw [look, look, at?_directory_cons, at?_directory_cons, List.lookup_append, List.lookup_append]
        cases before.lookup first with
        | some entry => rfl
        | none =>
          by_cases same : first = name
          · subst same
            simpa [look] using within
          · have further : (first == name) = false := by simpa using same
            simp [List.lookup_cons, further]
  | trans first second ihFirst ihSecond =>
    rw [ihSecond (first.namesDistinct distinct), ihFirst distinct]

/-- Two trees in which the same is found at every place. -/
structure Alike (tree other : FileTree) : Prop where
  distinct : tree.NamesDistinct
  alsoDistinct : other.NamesDistinct
  look_eq (place : List Text) : other.look place = tree.look place

theorem Reordered.alike (reordered : Reordered tree other) (distinct : tree.NamesDistinct) : Alike tree other :=
  ⟨distinct, reordered.namesDistinct distinct, reordered.look_eq distinct⟩

namespace Alike

/-- What is found at a place of one tree and of the other. -/
theorem at?_cases (alike : Alike tree other) (place : List Text) :
    (tree.at? place = none ∧ other.at? place = none) ∨
    (∃ contents, tree.at? place = some (file contents) ∧ other.at? place = some (file contents)) ∨
    ∃ entries others, tree.at? place = some (directory entries) ∧ other.at? place = some (directory others) ∧
      Alike (directory entries) (directory others) := by
  have here := alike.look_eq place
  rw [look, look] at here
  cases found : tree.at? place with
  | none =>
    rw [found] at here
    exact .inl ⟨rfl, Option.map_eq_none_iff.mp here⟩
  | some held =>
    rw [found] at here
    obtain ⟨otherHeld, foundThere, same⟩ := Option.map_eq_some_iff.mp here
    have below : Alike held otherHeld := by
      refine ⟨alike.distinct.of_at? found, alike.alsoDistinct.of_at? foundThere, ?_⟩
      intro further
      have deeper := alike.look_eq (place ++ further)
      rw [look, look, at?_append, at?_append, found, foundThere] at deeper
      exact deeper
    cases held with
    | file contents =>
      cases otherHeld with
      | file others =>
        obtain rfl : others = contents := Option.some.inj same
        exact .inr (.inl ⟨others, rfl, foundThere⟩)
      | directory others => cases same
    | directory entries =>
      cases otherHeld with
      | file contents => cases same
      | directory others => exact .inr (.inr ⟨entries, others, rfl, foundThere, below⟩)

theorem mem_places_iff (alike : Alike tree other) (names : List Text) : names ∈ other.places ↔ names ∈ tree.places := by
  rw [FileTree.mem_places_iff alike.distinct, FileTree.mem_places_iff alike.alsoDistinct]
  rcases alike.at?_cases names with ⟨here, there⟩ | ⟨held, here, there⟩ | ⟨entries, others, here, there, -⟩
  all_goals simp [here, there]

end Alike

end FileTree

end ApexComments
