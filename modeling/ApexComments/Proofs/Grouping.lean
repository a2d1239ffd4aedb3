import ApexComments.OrderedMap
import Mathlib.Data.List.Basic
import Mathlib.Data.List.Induction

/-!
# Values grouped by key

Grouping pairs by key loses none of them: under each key stand all values that the pairs give it, in
their order, and the keys stand in the order in which they first come (`groups_group`). Gathering the
values pair by pair, each behind those seen before, comes to the same (`gather_eq_group`). Writing the pairs
one after the other keeps of each key the last value only (`keepsLast_ofList`).
-/
namespace ApexComments.OrderedMap

variable {κ α β : Type} [DecidableEq κ]

/-- The values that the pairs give a key, in order. -/
def valuesOf (key : κ) (pairs : List (κ × α)) : List α := (pairs.filter fun pair => pair.1 == key).map Prod.snd

/-- The map has the keys of the pairs in the order in which they first come, and under each of them all
its values in order. -/
structure Groups (map : OrderedMap κ (List α)) (pairs : List (κ × α)) : Prop where
  mem_keys : ∀ key, key ∈ map.keys ↔ key ∈ pairs.map Prod.fst
  order : map.keys.Pairwise fun key later => (pairs.map Prod.fst).idxOf key < (pairs.map Prod.fst).idxOf later
  get : ∀ key ∈ map.keys, map.get? key = some (valuesOf key pairs)

theorem valuesOf_eq_nil_iff {key : κ} {pairs : List (κ × α)} : valuesOf key pairs = [] ↔ key ∉ pairs.map Prod.fst := by
  simp only [valuesOf, List.map_eq_nil_iff, List.filter_eq_nil_iff, beq_iff_eq, List.mem_map, not_exists, not_and]

theorem mem_valuesOf_iff {key : κ} {value : α} {pairs : List (κ × α)} :
    value ∈ valuesOf key pairs ↔ (key, value) ∈ pairs := by
  constructor
  · intro member
    obtain ⟨⟨other, _⟩, kept, rfl⟩ := List.mem_map.mp member
    obtain ⟨among, same⟩ := List.mem_filter.mp kept
    obtain rfl : other = key := by simpa using same
    exact among
  · intro member
    exact List.mem_map.mpr ⟨(key, value), List.mem_filter.mpr ⟨member, by simp⟩, rfl⟩

theorem get?_eq_none_of_not_mem {map : OrderedMap κ α} {key : κ} (absent : key ∉ map.keys) : map.get? key = none := by
  rw [get?, List.lookup_eq_none_iff]
  intro entry member
  have other : key ≠ entry.1 := fun same => absent (same ▸ List.mem_map_of_mem member)
  simpa using other

theorem exists_get?_of_mem {map : OrderedMap κ α} {key : κ} (known : key ∈ map.keys) :
    ∃ value, map.get? key = some value := by
  rw [← Option.isSome_iff_exists, Option.isSome_iff_ne_none]
  intro none
  obtain ⟨entry, member, rfl⟩ := List.mem_map.mp known
  have other := List.lookup_eq_none_iff.mp none entry member
  simp at other

theorem mem_entries_of_get? {map : OrderedMap κ α} {key : κ} {value : α} (found : map.get? key = some value) :
    (key, value) ∈ map.entries := by
  obtain ⟨before, after, entries, -⟩ := List.lookup_eq_some_iff.mp found
  rw [entries]
  exact List.mem_append_right before List.mem_cons_self

theorem get?_mapValues (f : α → β) (map : OrderedMap κ α) (key : κ) :
    (map.mapValues f).get? key = (map.get? key).map f := by
  have entries (list : List (κ × α)) :
      (list.map fun entry => (entry.1, f entry.2)).lookup key = (list.lookup key).map f := by
    induction list with
    | nil => rfl
    | cons entry rest ih =>
      obtain ⟨other, value⟩ := entry
      rw [List.map_cons, List.lookup_cons, List.lookup_cons]
      cases key == other with
      | true => rfl
      | false => exact ih
  exact entries map.entries

theorem keys_group (pairs : List (κ × α)) : (group pairs).keys = (pairs.map Prod.fst).eraseDups := by
  simp [keys, group, Function.comp_def]

theorem eraseDups_append_singleton (keys : List κ) (last : κ) :
    (keys ++ [last]).eraseDups = if last ∈ keys then keys.eraseDups else keys.eraseDups ++ [last] := by
  rw [List.eraseDups_append]
  split
  · next known =>
    have none : [last].removeAll keys = [] := by simp [List.removeAll, known]
    simp [none]
  · next fresh =>
    have new : [last].removeAll keys = [last] := by simp [List.removeAll, fresh]
    simp [new, List.eraseDups_cons]

theorem pairwise_idxOf_eraseDups (keys : List κ) :
    keys.eraseDups.Pairwise fun key later => keys.idxOf key < keys.idxOf later := by
  -- A key that comes last anew stands behind all others; one that came before changes nothing.
  induction keys using List.reverseRecOn with
  | nil => simp
  | append_singleton keys last ih =>
    have earlier : keys.eraseDups.Pairwise fun key later =>
        (keys ++ [last]).idxOf key < (keys ++ [last]).idxOf later := by
      refine ih.imp_of_mem ?_
      intro key later member alsoMember before
      rw [List.mem_eraseDups] at member alsoMember
      rwa [List.idxOf_append_of_mem member, List.idxOf_append_of_mem alsoMember]
    rw [eraseDups_append_singleton]
    split
    · exact earlier
    · next fresh =>
      refine List.pairwise_append.mpr ⟨earlier, by simp, ?_⟩
      intro key member other single
      rw [List.mem_singleton.mp single]
      rw [List.mem_eraseDups] at member
      rw [List.idxOf_append_of_mem member, List.idxOf_append_of_notMem fresh]
      have inside := List.idxOf_lt_length_of_mem member
      omega

/-- Grouping loses no value and mixes none up. -/
theorem groups_group (pairs : List (κ × α)) : (group pairs).Groups pairs := by
  refine ⟨?_, ?_, ?_⟩
  · intro key
    rw [keys_group, List.mem_eraseDups]
  · rw [keys_group]
    exact pairwise_idxOf_eraseDups _
  · intro key member
    rw [keys_group] at member
    have found (keys : List κ) (among : key ∈ keys) :
        (keys.map fun key => (key, valuesOf key pairs)).lookup key = some (valuesOf key pairs) := by
      induction keys with
      | nil => simp at among
      | cons first rest ih =>
        rw [List.map_cons, List.lookup_cons]
        by_cases same : key = first
        · simp [same]
        · have other : (key == first) = false := by simpa using same
          simp only [other]
          exact ih (List.mem_of_ne_of_mem same among)
    exact found _ member

theorem get?_group (pairs : List (κ × α)) (key : κ) :
    (group pairs).get? key = if key ∈ pairs.map Prod.fst then some (valuesOf key pairs) else none := by
  have groups := groups_group pairs
  split
  · next known => exact groups.get key ((groups.mem_keys key).mpr known)
  · next absent => exact get?_eq_none_of_not_mem (mt (groups.mem_keys key).mp absent)

theorem eq_valuesOf_of_mem_entries {pairs : List (κ × α)} {entry : κ × List α}
    (member : entry ∈ (group pairs).entries) : entry.2 = valuesOf entry.1 pairs := by
  obtain ⟨key, -, rfl⟩ := List.mem_map.mp member
  rfl

theorem ne_nil_of_mem_entries_group {pairs : List (κ × α)} {entry : κ × List α}
    (member : entry ∈ (group pairs).entries) : entry.2 ≠ [] := by
  obtain ⟨key, known, rfl⟩ := List.mem_map.mp member
  rw [List.mem_eraseDups] at known
  exact mt valuesOf_eq_nil_iff.mp (not_not_intro known)

theorem putEntry_of_not_mem {key : κ} {entries : List (κ × α)} (fresh : key ∉ entries.map Prod.fst) (value : α) :
    putEntry key value entries = entries ++ [(key, value)] := by
  induction entries with
  | nil => rfl
  | cons entry rest ih =>
    rw [List.map_cons, List.mem_cons, not_or] at fresh
    rw [putEntry, if_neg (Ne.symm fresh.1), ih fresh.2]
    rfl

theorem entries_insert_of_nodup {map : OrderedMap κ α} {pair : κ × α} {rest : List (κ × α)}
    (distinct : ((map.entries ++ pair :: rest).map Prod.fst).Nodup) :
    (map.insert pair.1 pair.2).entries = map.entries ++ [pair] := by
  refine putEntry_of_not_mem ?_ pair.2
  intro member
  rw [List.map_append, List.map_cons, List.nodup_append] at distinct
  exact distinct.2.2 _ member _ List.mem_cons_self rfl

/-- Pairs of distinct keys are written as they come. -/
theorem entries_foldl_insert {pairs : List (κ × α)} {map : OrderedMap κ α}
    (distinct : ((map.entries ++ pairs).map Prod.fst).Nodup) :
    (pairs.foldl (fun map pair => map.insert pair.1 pair.2) map).entries = map.entries ++ pairs := by
  induction pairs generalizing map with
  | nil => simp
  | cons pair rest ih =>
    have written := entries_insert_of_nodup distinct
    rw [List.foldl_cons, ih (by rwa [written, List.append_assoc, List.singleton_append]), written, List.append_assoc]
    rfl

theorem ofList_entries (map : OrderedMap κ α) : ofList map.entries = map :=
  OrderedMap.ext (entries_foldl_insert map.distinct)

/-! ## Gathering -/

/-- Gathers the values of each key one after the other, each put behind those seen before. -/
def gather (pairs : List (κ × α)) : OrderedMap κ (List α) :=
  pairs.foldl (fun map pair => map.insert pair.1 ((map.get? pair.1).getD [] ++ [pair.2])) empty

theorem getD_get?_group (pairs : List (κ × α)) (key : κ) : ((group pairs).get? key).getD [] = valuesOf key pairs := by
  by_cases known : key ∈ (group pairs).keys
  · rw [(groups_group pairs).get key known]
    rfl
  · rw [get?_eq_none_of_not_mem known]
    exact (valuesOf_eq_nil_iff.mpr (mt ((groups_group pairs).mem_keys key).mpr known)).symm

theorem putEntry_map {key : κ} {keys : List κ} (distinct : keys.Nodup) (known : key ∈ keys) (values : κ → α)
    (value : α) :
    putEntry key value (keys.map fun other => (other, values other)) =
      keys.map fun other => (other, if other = key then value else values other) := by
  induction keys with
  | nil => simp at known
  | cons first rest ih =>
    obtain ⟨fresh, others⟩ := List.nodup_cons.mp distinct
    rw [List.map_cons, List.map_cons, putEntry]
    by_cases here : first = key
    · subst here
      have later : rest.map (fun other => (other, if other = first then value else values other)) =
          rest.map fun other => (other, values other) := by
        refine List.map_congr_left fun other member => ?_
        have different : other ≠ first := fun same => fresh (by rwa [← same])
        rw [if_neg different]
      rw [if_pos rfl, if_pos rfl, later]
    · rw [if_neg here, if_neg here, ih others (List.mem_of_ne_of_mem (Ne.symm here) known)]

theorem valuesOf_append_singleton (other : κ) (pairs : List (κ × α)) (pair : κ × α) :
    valuesOf other (pairs ++ [pair]) =
      if other = pair.1 then valuesOf pair.1 pairs ++ [pair.2] else valuesOf other pairs := by
  rw [valuesOf, List.filter_append, List.map_append]
  split
  · next same => simp [same, valuesOf]
  · next different => simp [Ne.symm different, valuesOf]

theorem group_append_singleton (pairs : List (κ × α)) (pair : κ × α) :
    group (pairs ++ [pair]) = (group pairs).insert pair.1 (((group pairs).get? pair.1).getD [] ++ [pair.2]) := by
  rw [getD_get?_group]
  apply OrderedMap.ext
  change ((pairs ++ [pair]).map Prod.fst).eraseDups.map (fun key => (key, valuesOf key (pairs ++ [pair]))) =
    putEntry pair.1 _ ((pairs.map Prod.fst).eraseDups.map fun key => (key, valuesOf key pairs))
  simp only [List.map_append, List.map_singleton, eraseDups_append_singleton, valuesOf_append_singleton]
  by_cases known : pair.1 ∈ pairs.map Prod.fst
  · rw [if_pos known, putEntry_map (nodup_eraseDups _) (List.mem_eraseDups.mpr known)]
  · have kept : (pairs.map Prod.fst).eraseDups.map
        (fun key => (key, if key = pair.1 then valuesOf pair.1 pairs ++ [pair.2] else valuesOf key pairs)) =
        (pairs.map Prod.fst).eraseDups.map fun key => (key, valuesOf key pairs) := by
      refine List.map_congr_left fun key member => ?_
      have different : key ≠ pair.1 := fun same => known (by rwa [← same, ← List.mem_eraseDups])
      rw [if_neg different]
    have fresh : pair.1 ∉ ((pairs.map Prod.fst).eraseDups.map fun key => (key, valuesOf key pairs)).map Prod.fst := by
      rw [List.map_map]
      simpa [Function.comp_def, List.mem_eraseDups] using known
    rw [if_neg known, List.map_append, kept, putEntry_of_not_mem fresh]
    simp

theorem gather_eq_group (pairs : List (κ × α)) : gather pairs = group pairs := by
  induction pairs using List.reverseRecOn with
  | nil => rfl
  | append_singleton pairs pair ih =>
    rw [group_append_singleton, ← ih, gather, List.foldl_append]
    rfl

/-! ## Last values -/

/-- The map has the keys of the pairs in the order in which they first come, and under each of them the last
of its values. -/
structure KeepsLast (map : OrderedMap κ α) (pairs : List (κ × α)) : Prop where
  mem_keys : ∀ key, key ∈ map.keys ↔ key ∈ pairs.map Prod.fst
  order : map.keys.Pairwise fun key later => (pairs.map Prod.fst).idxOf key < (pairs.map Prod.fst).idxOf later
  get : ∀ key, map.get? key = (valuesOf key pairs).getLast?

theorem ofList_append_singleton (pairs : List (κ × α)) (pair : κ × α) :
    ofList (pairs ++ [pair]) = (ofList pairs).insert pair.1 pair.2 := by
  rw [ofList, List.foldl_append]
  rfl

theorem keys_ofList (pairs : List (κ × α)) : (ofList pairs).keys = (pairs.map Prod.fst).eraseDups := by
  induction pairs using List.reverseRecOn with
  | nil => rfl
  | append_singleton pairs pair ih =>
    rw [ofList_append_singleton, keys_insert, ih, List.map_append, List.map_singleton, eraseDups_append_singleton]
    simp only [List.mem_eraseDups]

theorem get?_ofList (pairs : List (κ × α)) (key : κ) : (ofList pairs).get? key = (valuesOf key pairs).getLast? := by
  induction pairs using List.reverseRecOn with
  | nil => rfl
  | append_singleton pairs pair ih =>
    rw [ofList_append_singleton, get?_insert, ih, valuesOf_append_singleton]
    split
    · rw [List.getLast?_concat]
    · rfl

/-- Writing pairs one after the other keeps the last value of each key in the place of the first. -/
theorem keepsLast_ofList (pairs : List (κ × α)) : (ofList pairs).KeepsLast pairs := by
  refine ⟨?_, ?_, get?_ofList pairs⟩
  · intro key
    rw [keys_ofList, List.mem_eraseDups]
  · rw [keys_ofList]
    exact pairwise_idxOf_eraseDups _

theorem KeepsLast.get_last {map : OrderedMap κ α} {pairs : List (κ × α)} (keepsLast : map.KeepsLast pairs)
    {key : κ} {value : α} (isLast : pairs.getLast? = some (key, value)) : map.get? key = some value := by
  obtain ⟨front, rfl⟩ := List.getLast?_eq_some_iff.mp isLast
  rw [keepsLast.get, valuesOf_append_singleton, if_pos rfl, List.getLast?_concat]

end ApexComments.OrderedMap
