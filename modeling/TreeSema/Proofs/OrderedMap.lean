import Mathlib.Data.Finset.Card
import TreeSema.OrderedMap
import TreeSema.Proofs.Keyed

/-!
# Ordered maps: what setting keys does

* `OrderedMap.get?_set`: a key has the value that it was last set to.
* `OrderedMap.keys_set`, `OrderedMap.keys_ofList`: new keys stand behind the old ones.
* `OrderedMap.keys_set_of_mem`: a key that is there keeps its place.
* `OrderedMap.setAll_recalls`: what a map holds and answers after any calls.
-/
namespace TreeSema.OrderedMap

variable {α : Type} {m : OrderedMap α} {name : Ident} {value : α}

/-! ## One call -/

theorem mem_keys_iff : name ∈ m.keys ↔ ∃ i, m.index.lookup name = some i := by
  rw [List.mem_iff_getElem?]
  exact exists_congr fun i => (m.indexed name i).symm

/-- A key has the value with which it is listed. -/
theorem get?_eq_some_iff : m.get? name = some value ↔ (name, value) ∈ m.entries := by
  rw [get?, Option.bind_eq_some_iff, List.mem_iff_getElem?]
  refine exists_congr fun i => ?_
  rw [m.indexed, List.getElem?_map]
  cases m.entries[i]? <;> simp [Prod.ext_iff]

/-- The keys are the names that have a value. -/
theorem get?_isSome_iff : (m.get? name).isSome ↔ name ∈ m.keys := by
  simp [Option.isSome_iff_exists, get?_eq_some_iff, keys]

theorem keys_set_eq (m : OrderedMap α) (name : Ident) (value : α) :
    (m.set name value).keys = if name ∈ m.keys then m.keys else m.keys ++ [name] := by
  unfold set
  split
  · rename_i i hi
    rw [if_pos (mem_keys_iff.2 ⟨i, hi⟩)]
    exact map_modify m.entries i value
  · rename_i hnone
    rw [if_neg (by simp [mem_keys_iff, hnone])]
    simp [keys]

/-- A new key stands behind the old ones. -/
theorem keys_set (value : α) (h : name ∉ m.keys) : (m.set name value).keys = m.keys ++ [name] := by
  rw [keys_set_eq, if_neg h]

/-- A key that is there keeps its place. -/
theorem keys_set_of_mem (value : α) (h : name ∈ m.keys) : (m.set name value).keys = m.keys := by
  rw [keys_set_eq, if_pos h]

/-- The other entries stay as they are. -/
theorem mem_entries_set (m : OrderedMap α) (name : Ident) (value : α) (e : Ident × α) :
    e ∈ (m.set name value).entries ↔ e = (name, value) ∨ e ∈ m.entries ∧ e.1 ≠ name := by
  unfold set
  split
  · rename_i i hi
    -- the entry that is replaced is the only one with this key
    have hplace : ∀ j, m.entries[j]?.map (·.1) = some name ↔ i = j := fun j => by
      rw [← List.getElem?_map, ← m.indexed, hi, Option.some_inj]
    obtain ⟨old, hold, rfl⟩ := Option.map_eq_some_iff.1 ((hplace i).2 rfl)
    simp only [List.mem_iff_getElem?, List.getElem?_modify]
    constructor
    · rintro ⟨j, hj⟩
      by_cases hij : i = j
      · have he : (old.1, value) = e := by simpa [← hij, hold] using hj
        exact .inl he.symm
      · have hj : m.entries[j]? = some e := by simpa [hij] using hj
        exact .inr ⟨⟨j, hj⟩, fun he => hij ((hplace j).1 (by rw [hj, Option.map_some, he]))⟩
    · rintro (rfl | ⟨⟨j, hj⟩, hne⟩)
      · exact ⟨i, by simp [hold]⟩
      · have hij : i ≠ j := fun hij => hne (by rw [← hij, hold] at hj; cases hj; rfl)
        exact ⟨j, by simp [hij, hj]⟩
  · rename_i hnone
    have hnew : name ∉ m.keys := by simp [mem_keys_iff, hnone]
    have hne : e ∈ m.entries → e.1 ≠ name := fun he hname =>
      hnew (List.mem_map.2 ⟨e, he, hname⟩)
    rw [List.mem_append, List.mem_singleton, or_comm, and_iff_left_of_imp hne]

/-- A key has the value that it was last set to. -/
theorem get?_set (m : OrderedMap α) (name : Ident) (value : α) (key : Ident) :
    (m.set name value).get? key = if key = name then some value else m.get? key := by
  ext v
  rw [get?_eq_some_iff, mem_entries_set]
  by_cases h : key = name
  · simp [h, eq_comm]
  · simp [h, get?_eq_some_iff]

/-! ## Many calls -/

theorem ofList_concat (calls : List (Ident × α)) (e : Ident × α) :
    ofList (calls ++ [e]) = (ofList calls).set e.1 e.2 := by
  rw [ofList, setAll, List.foldl_concat]
  rfl

theorem keys_ofList_eq (calls : List (Ident × α)) :
    (ofList calls).keys = (calls.map (·.1)).eraseDups := by
  induction calls using List.reverseRecOn with
  | nil => rfl
  | append_singleton calls e ih =>
    rw [ofList_concat, keys_set_eq, ih, List.map_append, List.map_singleton, Keyed.eraseDups_concat]
    simp only [List.mem_eraseDups]

/-- Keys that are all different stand in the order in which they are given. -/
theorem keys_ofList {calls : List (Ident × α)} (h : (calls.map (·.1)).Nodup) :
    (ofList calls).keys = calls.map (·.1) := by
  rw [keys_ofList_eq, Keyed.eraseDups_of_nodup h]

/-- The last call for a key counts. -/
theorem get?_ofList (calls : List (Ident × α)) (name : Ident) :
    (ofList calls).get? name = calls.reverse.lookup name := by
  induction calls using List.reverseRecOn with
  | nil => rfl
  | append_singleton calls e ih =>
    rw [ofList_concat, get?_set, ih, List.reverse_concat, List.lookup_cons]
    by_cases h : name = e.1
    · simp [h]
    · simp [h, beq_false_of_ne h]

/-- What a map holds and answers after its keys were set by calls, one after the other. -/
structure Recalls (calls : List (Ident × α)) (m : OrderedMap α) : Prop where
  /-- Every key is listed once, in the order in which the keys were first set. -/
  keys : m.entries.map (·.1) = (calls.map (·.1)).eraseDups
  nodup : (m.entries.map (·.1)).Nodup
  /-- The index leads from a key to its place in the list. -/
  index : ∀ name i, m.index.lookup name = some i ↔ (calls.map (·.1)).eraseDups[i]? = some name
  /-- A key has the value of the last call for it. -/
  value : ∀ name value, m.get? name = some value ↔
    ∃ before after, calls = before ++ (name, value) :: after ∧ ∀ e ∈ after, name ≠ e.1
  missing : ∀ name, m.get? name = none ↔ name ∉ calls.map (·.1)
  /-- It is listed with that value. -/
  listed : ∀ name value, (name, value) ∈ m.entries ↔ m.get? name = some value
  size : m.size = (calls.map (·.1)).toFinset.card

/-- Of a map that is made from a list, and then changed by any calls, the list and the index stay in
step: the keys stand in the order in which they came first, each with its last value. -/
theorem setAll_recalls (given calls : List (Ident × α)) :
    ((ofList given).setAll calls).Recalls (given ++ calls) := by
  have hall : (ofList given).setAll calls = ofList (given ++ calls) := List.foldl_append.symm
  rw [hall]
  generalize given ++ calls = calls
  have hkeys : (ofList calls).entries.map (·.1) = (calls.map (·.1)).eraseDups :=
    keys_ofList_eq calls
  have hnodup := Keyed.nodup_eraseDups (calls.map (·.1))
  refine ⟨hkeys, hkeys ▸ hnodup, fun name i => hkeys ▸ (ofList calls).indexed name i,
    fun name value => ?_, fun name => ?_, fun _ _ => get?_eq_some_iff.symm, ?_⟩
  · rw [get?_ofList, List.lookup_eq_some_iff]
    -- the calls behind the last one for a key stand in front of it in reverse
    constructor
    · rintro ⟨after, before, hcalls, hafter⟩
      refine ⟨before.reverse, after.reverse, ?_, ?_⟩
      · rw [← List.reverse_reverse calls, hcalls]
        simp
      · simpa using hafter
    · rintro ⟨before, after, rfl, hafter⟩
      exact ⟨after.reverse, before.reverse, by simp, by simpa using hafter⟩
  · rw [← Option.not_isSome_iff_eq_none, get?_isSome_iff, keys_ofList_eq, List.mem_eraseDups]
  · rw [size, ← List.length_map, hkeys, ← List.toFinset_card_of_nodup hnodup]
    congr 1
    ext name
    simp

end TreeSema.OrderedMap
