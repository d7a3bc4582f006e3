import Mathlib.Data.List.Induction
import Mathlib.Data.List.Nodup

/-!
# Lists by key

A list may stand for a map: its elements have keys, and an element that is put into it takes the
place of the one with its key, or stands behind all others. Fields, metadata and the components of
literals are built in this way, one element after the other. What results has each key at the place
where it was put first, with the element that was put last.

* `Keyed.keys_put`, `Keyed.find?_put`: what one more element changes.
* `Keyed.keys_puts`, `Keyed.find?_puts`: the keys and elements that are there in the end.
* `Keyed.eq_of_find?`: lists with the same keys and the same element for each are the same.
-/
namespace TreeSema.Keyed

variable {α β κ : Type} [DecidableEq κ] {key : α → κ} {l l' : List α}

/-! ## Keys that stand once -/

theorem eraseDups_concat (ks : List κ) (k : κ) :
    (ks ++ [k]).eraseDups = if k ∈ ks then ks.eraseDups else ks.eraseDups ++ [k] := by
  rw [List.eraseDups_append, List.removeAll, List.filter_cons]
  by_cases h : k ∈ ks
  · simp [h]
  · simp [h, List.eraseDups_cons]

theorem nodup_eraseDups (ks : List κ) : ks.eraseDups.Nodup := by
  induction ks using List.reverseRecOn with
  | nil => simp
  | append_singleton ks k ih =>
    rw [eraseDups_concat]
    split
    · exact ih
    · rename_i h
      exact ih.append (List.nodup_singleton k) (by simpa using h)

theorem eraseDups_of_nodup {ks : List κ} (h : ks.Nodup) : ks.eraseDups = ks := by
  induction ks using List.reverseRecOn with
  | nil => rfl
  | append_singleton ks k ih =>
    obtain ⟨hks, -, hk⟩ := List.nodup_append.1 h
    rw [eraseDups_concat, if_neg fun hmem => hk k hmem k (List.mem_singleton_self k) rfl, ih hks]

theorem find?_eq_some_iff (h : (l.map key).Nodup) {a : α} {k : κ} :
    l.find? (key · == k) = some a ↔ a ∈ l ∧ key a = k := by
  refine ⟨fun hf => ⟨List.mem_of_find?_eq_some hf, ?_⟩, ?_⟩
  · have hk := List.find?_some hf
    exact eq_of_beq hk
  rintro ⟨ha, rfl⟩
  induction l with
  | nil => cases ha
  | cons b l ih =>
    obtain ⟨hb, hl⟩ := List.nodup_cons.1 h
    rw [List.find?_cons]
    rcases List.mem_cons.1 ha with rfl | ha
    · simp
    · have hne : key b ≠ key a := fun heq => hb (heq ▸ List.mem_map_of_mem ha)
      simp [beq_false_of_ne hne, ih hl ha]

/-- Where each key stands once, the first element with a key is the last. -/
theorem find?_reverse (h : (l.map key).Nodup) (k : κ) :
    l.reverse.find? (key · == k) = l.find? (key · == k) := by
  have hreverse : (l.reverse.map key).Nodup := by rwa [List.map_reverse, List.nodup_reverse]
  ext a
  rw [find?_eq_some_iff hreverse, find?_eq_some_iff h, List.mem_reverse]

theorem map_some_eq (h : (l.map key).Nodup) :
    l.map some = (l.map key).map fun k => l.find? (key · == k) := by
  rw [List.map_map]
  exact List.map_congr_left fun a ha => ((find?_eq_some_iff h).2 ⟨ha, rfl⟩).symm

/-- Lists with the same distinct keys and the same element for each are the same. -/
theorem eq_of_find? (h : (l.map key).Nodup) (hkeys : l.map key = l'.map key)
    (hfind : ∀ k, l.find? (key · == k) = l'.find? (key · == k)) : l = l' := by
  have hsome : l.map some = l'.map some := by
    rw [map_some_eq h, map_some_eq (hkeys ▸ h), hkeys]
    exact List.map_congr_left fun k _ => hfind k
  exact List.map_injective_iff.2 (fun _ _ => Option.some.inj) hsome

theorem find?_eq_lookup (l : List (κ × β)) (k : κ) :
    l.find? (·.1 == k) = (l.lookup k).map (Prod.mk k) := by
  induction l with
  | nil => rfl
  | cons e l ih =>
    obtain ⟨k', b⟩ := e
    rw [List.find?_cons, List.lookup_cons, ih]
    by_cases h : k' = k
    · simp [h]
    · simp [beq_false_of_ne h, beq_false_of_ne (Ne.symm h)]

theorem lookup_eq_find? (l : List (κ × β)) (k : κ) :
    l.lookup k = (l.find? (·.1 == k)).map Prod.snd := by
  rw [find?_eq_lookup]
  cases l.lookup k <;> rfl

/-! ## Putting elements -/

variable (key) in
/-- Puts an element in the place of the one with its key, or behind all others. -/
def put (a : α) : List α → List α
  | [] => [a]
  | b :: l => if key b = key a then a :: l else b :: put a l

variable (key) in
/-- Puts elements one after the other. -/
def puts (as : List α) : List α := as.foldl (fun l a => put key a l) []

theorem keys_put (a : α) (l : List α) :
    (put key a l).map key = if key a ∈ l.map key then l.map key else l.map key ++ [key a] := by
  induction l with
  | nil => rfl
  | cons b l ih =>
    unfold put
    by_cases h : key b = key a
    · simp [h]
    · simp only [h, if_false, List.map_cons, List.mem_cons, Ne.symm h, false_or, ih]
      split <;> rfl

theorem find?_put (a : α) (l : List α) (k : κ) :
    (put key a l).find? (key · == k) = if key a = k then some a else l.find? (key · == k) := by
  induction l with
  | nil => by_cases h : key a = k <;> simp [put, h]
  | cons b l ih =>
    unfold put
    by_cases h : key b = key a
    · by_cases hk : key a = k <;> simp [h, hk]
    · rw [if_neg h, List.find?_cons, List.find?_cons, ih]
      by_cases hb : key b = k
      · simp [hb, show key a ≠ k from fun ha => h (hb.trans ha.symm)]
      · simp [beq_false_of_ne hb]

theorem puts_concat (as : List α) (a : α) : puts key (as ++ [a]) = put key a (puts key as) := by
  simp [puts]

theorem keys_puts (as : List α) : (puts key as).map key = (as.map key).eraseDups := by
  induction as using List.reverseRecOn with
  | nil => rfl
  | append_singleton as a ih =>
    rw [puts_concat, keys_put, ih, List.map_append, List.map_singleton, eraseDups_concat]
    simp only [List.mem_eraseDups]

variable (key) in
theorem nodup_puts (as : List α) : ((puts key as).map key).Nodup := by
  rw [keys_puts]
  exact nodup_eraseDups _

theorem find?_puts (as : List α) (k : κ) :
    (puts key as).find? (key · == k) = as.reverse.find? (key · == k) := by
  induction as using List.reverseRecOn with
  | nil => rfl
  | append_singleton as a ih =>
    rw [puts_concat, find?_put, ih, List.reverse_append, List.reverse_singleton,
      List.singleton_append, List.find?_cons]
    by_cases h : key a = k
    · simp [h]
    · simp [h, beq_false_of_ne h]

end TreeSema.Keyed
