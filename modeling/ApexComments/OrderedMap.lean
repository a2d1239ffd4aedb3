/-!
# Ordered maps

Tags and parameters are maps whose entries keep the order in which their keys first came: a key put
again keeps its place and takes the new value.
-/
namespace ApexComments

/-- Puts a value under a key in a list of entries: in the place of the key, else at the end. -/
def putEntry {κ α : Type} [DecidableEq κ] (key : κ) (value : α) : List (κ × α) → List (κ × α)
  | [] => [(key, value)]
  | (other, old) :: rest =>
    if other = key then (key, value) :: rest else (other, old) :: putEntry key value rest

theorem keys_putEntry {κ α : Type} [DecidableEq κ] (key : κ) (value : α) (entries : List (κ × α)) :
    (putEntry key value entries).map Prod.fst =
      if key ∈ entries.map Prod.fst then entries.map Prod.fst else entries.map Prod.fst ++ [key] := by
  induction entries with
  | nil => simp [putEntry]
  | cons entry rest ih =>
    obtain ⟨other, old⟩ := entry
    by_cases same : other = key
    · simp [putEntry, same]
    · have different : ¬ key = other := fun equal => same equal.symm
      by_cases later : key ∈ rest.map Prod.fst
      · simp only [putEntry, same, if_false, List.map_cons, ih, later, if_true, List.mem_cons, or_true]
      · simp only [putEntry, same, if_false, List.map_cons, ih, later, List.mem_cons, different,
          or_self, List.cons_append]

theorem lookup_putEntry {κ α : Type} [DecidableEq κ] [BEq κ] [LawfulBEq κ] (key : κ) (value : α)
    (entries : List (κ × α)) (sought : κ) :
    (putEntry key value entries).lookup sought = if sought = key then some value else entries.lookup sought := by
  induction entries with
  | nil =>
    by_cases here : sought = key
    · simp [putEntry, here]
    · have other : (sought == key) = false := by simpa using here
      simp [putEntry, List.lookup_cons, here, other]
  | cons entry rest ih =>
    obtain ⟨other, old⟩ := entry
    by_cases here : sought = other
    · subst here
      by_cases same : sought = key <;> simp [putEntry, same]
    · have further : (sought == other) = false := by simpa using here
      by_cases same : other = key
      · subst same
        simp [putEntry, List.lookup_cons, further, here]
      · simp [putEntry, List.lookup_cons, same, further, ih]

theorem nodup_eraseDups {κ : Type} [DecidableEq κ] (keys : List κ) : keys.eraseDups.Nodup := by
  match keys with
  | [] => simp
  | key :: rest =>
    rw [List.eraseDups_cons, List.nodup_cons]
    refine ⟨?_, nodup_eraseDups (rest.filter fun other => !other == key)⟩
    intro member
    simp [List.mem_eraseDups] at member
  termination_by keys.length
  decreasing_by
    have shorter := List.length_filter_le (fun other => !other == key) rest
    simp only [List.length_cons]
    omega

/-- Entries in the order of their keys' first coming, no key twice. -/
@[ext] structure OrderedMap (κ α : Type) where
  /-- The keys with their values, in order. -/
  entries : List (κ × α)
  /-- No key comes twice. -/
  distinct : (entries.map Prod.fst).Nodup

namespace OrderedMap

variable {κ α β : Type}

instance [DecidableEq κ] [DecidableEq α] : DecidableEq (OrderedMap κ α) := fun a b =>
  if same : a.entries = b.entries then .isTrue (OrderedMap.ext same)
  else .isFalse fun equal => same (congrArg entries equal)

/-- The map without entries. -/
def empty : OrderedMap κ α := ⟨[], by simp⟩

/-- The keys, in order. -/
def keys (map : OrderedMap κ α) : List κ := map.entries.map Prod.fst

/-- The value under a key. -/
def get? [DecidableEq κ] (map : OrderedMap κ α) (key : κ) : Option α := map.entries.lookup key

/-- The map with the value under the key; a key that is there keeps its place. -/
def insert [DecidableEq κ] (map : OrderedMap κ α) (key : κ) (value : α) : OrderedMap κ α where
  entries := putEntry key value map.entries
  distinct := by
    rw [keys_putEntry]
    have distinct := map.distinct
    split
    · exact distinct
    · next absent =>
      refine List.nodup_append.mpr ⟨distinct, by simp, ?_⟩
      intro a member b single
      rw [List.mem_singleton.mp single]
      exact fun equal => absent (equal ▸ member)

/-- The map that the pairs write one after the other. -/
def ofList [DecidableEq κ] (pairs : List (κ × α)) : OrderedMap κ α :=
  pairs.foldl (fun map pair => map.insert pair.1 pair.2) empty

/-- All values that the pairs give each key, in order. -/
def group [DecidableEq κ] (pairs : List (κ × α)) : OrderedMap κ (List α) where
  entries := (pairs.map Prod.fst).eraseDups.map fun key =>
    (key, (pairs.filter fun pair => pair.1 == key).map Prod.snd)
  distinct := by simpa [Function.comp_def] using nodup_eraseDups (pairs.map Prod.fst)

/-- The same keys in the same order with changed values. -/
def mapValues (f : α → β) (map : OrderedMap κ α) : OrderedMap κ β where
  entries := map.entries.map fun entry => (entry.1, f entry.2)
  distinct := by simpa [Function.comp_def] using map.distinct

@[simp] theorem keys_empty : (empty : OrderedMap κ α).keys = [] := rfl

theorem keys_insert [DecidableEq κ] (map : OrderedMap κ α) (key : κ) (value : α) :
    (map.insert key value).keys = if key ∈ map.keys then map.keys else map.keys ++ [key] :=
  keys_putEntry key value map.entries

theorem get?_insert [DecidableEq κ] (map : OrderedMap κ α) (key : κ) (value : α) (sought : κ) :
    (map.insert key value).get? sought = if sought = key then some value else map.get? sought :=
  lookup_putEntry key value map.entries sought

@[simp] theorem keys_mapValues (f : α → β) (map : OrderedMap κ α) :
    (map.mapValues f).keys = map.keys := by
  simp [keys, mapValues, Function.comp_def]

end OrderedMap

end ApexComments
