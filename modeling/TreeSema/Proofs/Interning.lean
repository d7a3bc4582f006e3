import TreeSema.Interner
import TreeSema.Proofs.Keyed

/-!
# The numbers of texts

An interner keeps a map from texts to numbers and a list from numbers to texts. After any calls the
list holds the texts that were given, each once and in the order in which they came first, and the
map says where they stand in it; so the two undo each other, and later calls only add to them.

* `Interner.Lists`: what the map and the list agree on.
* `Interner.Lists.intern_new`, `Interner.Lists.intern_mem`: one call keeps them in step.
* `Interner.calls_faithful`: the numbers that calls give, and what is known of them afterwards.
-/
namespace TreeSema.Interner

variable {t : Interner} {known : List String} {s : String}

/-- The numbers that texts get one after the other from an interner that is empty at first, and the
interner after that. -/
def calls (texts : List String) : List Nat × Interner :=
  texts.foldl (fun r text => (r.1 ++ [(r.2.intern text).1], (r.2.intern text).2)) ([], empty)

/-- The texts with a number are these, each with its place among them. -/
structure Lists (t : Interner) (known : List String) : Prop where
  texts : t.names = known.toArray
  lookup : ∀ s, t.lookup? s = if s ∈ known then some (known.idxOf s + 1) else none

namespace Lists

theorem size (h : t.Lists known) : t.size = known.length := by simp [Interner.size, h.texts]

theorem name (h : t.Lists known) (hs : s ∈ known) : t.name (known.idxOf s + 1) = s := by
  simp [Interner.name, h.texts, List.idxOf_lt_length_of_mem hs]

/-- A text with a number gets it again. -/
theorem intern_mem (h : t.Lists known) (hs : s ∈ known) : t.intern s = (known.idxOf s + 1, t) := by
  simp [Interner.intern, h.lookup, hs]

/-- A text without a number gets the next one. -/
theorem intern_new (h : t.Lists known) (hs : s ∉ known) :
    (t.intern s).1 = known.length + 1 ∧ (t.intern s).2.Lists (known ++ [s]) := by
  have hnone : t.lookup? s = none := by rw [h.lookup, if_neg hs]
  have hintern : t.intern s
      = (known.length + 1, ⟨t.ids.insert s (known.length + 1), t.names.push s⟩) := by
    simp [Interner.intern, hnone, h.texts]
  rw [hintern]
  refine ⟨rfl, by simp [h.texts], fun s' => ?_⟩
  have hother : t.ids[s']? = if s' ∈ known then some (known.idxOf s' + 1) else none := h.lookup s'
  rw [lookup?, Std.HashMap.getElem?_insert, hother]
  by_cases heq : s = s'
  · subst heq
    simp [List.idxOf_append_of_notMem hs]
  · by_cases hmem : s' ∈ known
    · simp [heq, hmem, List.idxOf_append_of_mem hmem]
    · simp [heq, hmem, Ne.symm heq]

/-- The number of a text leads back to it. -/
theorem name_intern (h : t.Lists known) (s : String) : (t.intern s).2.name (t.intern s).1 = s := by
  by_cases hs : s ∈ known
  · rw [h.intern_mem hs]
    exact h.name hs
  · obtain ⟨hid, hlists⟩ := h.intern_new hs
    have hname := hlists.name (s := s) (by simp)
    rwa [List.idxOf_append_of_notMem hs, List.idxOf_cons_self, Nat.add_zero, ← hid] at hname

end Lists

/-! ## Calls -/

theorem calls_concat (texts : List String) (s : String) : calls (texts ++ [s])
    = ((calls texts).1 ++ [((calls texts).2.intern s).1], ((calls texts).2.intern s).2) := by
  rw [calls, List.foldl_concat]
  rfl

/-- After any calls the texts that were given are listed in the order in which they came first, and
every call has given the place of its text among them. -/
theorem calls_lists (texts : List String) : (calls texts).2.Lists texts.eraseDups ∧
    (calls texts).1 = texts.map fun s => texts.eraseDups.idxOf s + 1 := by
  induction texts using List.reverseRecOn with
  | nil => exact ⟨⟨rfl, fun s => by simp [calls, lookup?, empty]⟩, rfl⟩
  | append_singleton texts s ih =>
    obtain ⟨hlists, hids⟩ := ih
    rw [calls_concat, Keyed.eraseDups_concat, List.map_append, List.map_singleton]
    split
    · rename_i hs
      rw [hlists.intern_mem (List.mem_eraseDups.2 hs), hids]
      exact ⟨hlists, rfl⟩
    · rename_i hs
      have hnew : s ∉ texts.eraseDups := fun h => hs (List.mem_eraseDups.1 h)
      obtain ⟨hid, hlists'⟩ := hlists.intern_new hnew
      have hold : texts.map (fun s' => texts.eraseDups.idxOf s' + 1)
          = texts.map fun s' => (texts.eraseDups ++ [s]).idxOf s' + 1 := by
        refine List.map_congr_left fun s' hs' => ?_
        rw [List.idxOf_append_of_mem (List.mem_eraseDups.2 hs')]
      refine ⟨hlists', ?_⟩
      rw [hid, hids, hold, List.idxOf_append_of_notMem hnew, List.idxOf_cons_self, Nat.add_zero]

/-- The numbers are given out one after the other, from 1 on. -/
theorem calls_order (texts : List String) :
    (calls texts).1.eraseDups = List.range' 1 (calls texts).2.size := by
  induction texts using List.reverseRecOn with
  | nil => rfl
  | append_singleton texts s ih =>
    obtain ⟨hlists, hids⟩ := calls_lists texts
    rw [calls_concat, Keyed.eraseDups_concat]
    by_cases hs : s ∈ texts.eraseDups
    · rw [hlists.intern_mem hs, if_pos, ih]
      rw [hids]
      exact List.mem_map.2 ⟨s, List.mem_eraseDups.1 hs, rfl⟩
    · obtain ⟨hid, hlists'⟩ := hlists.intern_new hs
      have hsize : ((calls texts).2.intern s).2.size = (calls texts).2.size + 1 := by
        simp [hlists'.size, hlists.size]
      have hnew : ((calls texts).2.intern s).1 ∉ (calls texts).1 := by
        rw [← List.mem_eraseDups, ih, hid, hlists.size, List.mem_range'_1]
        omega
      rw [if_neg hnew, ih, hid, hsize, ← hlists.size, List.range'_1_concat, Nat.add_comm 1]

theorem calls_later (texts later : List String) :
    (calls texts).1 <+: (calls (texts ++ later)).1 := by
  induction later using List.reverseRecOn with
  | nil => simp
  | append_singleton later s ih =>
    rw [← List.append_assoc, calls_concat]
    exact ih.trans (List.prefix_append _ _)

/-- A text is found just if it was given, with the number that it got. -/
theorem lookup?_calls (texts : List String) (s : String) (id : Nat) :
    (calls texts).2.lookup? s = some id ↔ (s, id) ∈ texts.zip (calls texts).1 := by
  obtain ⟨hlists, hids⟩ := calls_lists texts
  have hzip : ∀ f : String → Nat, (s, id) ∈ texts.zip (texts.map f) ↔ s ∈ texts ∧ f s = id := by
    intro f
    rw [← List.map_prod_left_eq_zip, List.mem_map]
    constructor
    · rintro ⟨s', hs', heq⟩
      cases heq
      exact ⟨hs', rfl⟩
    · rintro ⟨hs, rfl⟩
      exact ⟨s, hs, rfl⟩
  rw [hlists.lookup, hids, hzip, ← List.mem_eraseDups (l := texts)]
  split
  · rename_i hs
    simp [hs]
  · rename_i hs
    simp [hs]

/-! ## What calls leave -/

/-- The numbers that calls for some texts gave, and the interner after them. -/
structure Faithful (texts : List String) (ids : List Nat) (t : Interner) : Prop where
  /-- The numbers are 1, 2, …, in the order in which texts came first. -/
  order : ids.eraseDups = List.range' 1 t.size
  size : t.size = texts.eraseDups.length
  /-- The number of a call leads back to its text. -/
  names : ids.map t.name = texts
  name : ∀ s, (t.intern s).2.name (t.intern s).1 = s
  /-- Calls gave the same number just if they were for the same text. -/
  same : ∀ i j : Nat, ids[i]? = ids[j]? ↔ texts[i]? = texts[j]?
  /-- A text is found just if it was given, with the number that it got. -/
  lookup : ∀ s id, t.lookup? s = some id ↔ (s, id) ∈ texts.zip ids

/-- Texts have the numbers that they had, and numbers stand for the texts that they stood for. -/
structure Keeps (t t' : Interner) : Prop where
  lookup : ∀ s id, t.lookup? s = some id → t'.lookup? s = some id ∧ t'.intern s = (id, t')
  name : ∀ id ≤ t.size, t'.name id = t.name id

theorem faithful_calls (texts : List String) : Faithful texts (calls texts).1 (calls texts).2 := by
  obtain ⟨hlists, hids⟩ := calls_lists texts
  have hnames : (calls texts).1.map (calls texts).2.name = texts := by
    rw [hids, List.map_map]
    refine (List.map_congr_left fun s hs => ?_).trans (List.map_id texts)
    exact hlists.name (List.mem_eraseDups.2 hs)
  refine ⟨calls_order texts, hlists.size, hnames, hlists.name_intern, fun i j => ⟨fun h => ?_,
    fun h => ?_⟩, lookup?_calls texts⟩
  · conv_lhs => rw [← hnames, List.getElem?_map, h]
    conv_rhs => rw [← hnames, List.getElem?_map]
  · rw [hids, List.getElem?_map, List.getElem?_map, h]

theorem keeps_calls (texts later : List String) :
    (calls texts).2.Keeps (calls (texts ++ later)).2 where
  lookup s id hs := by
    have hfound : (calls (texts ++ later)).2.lookup? s = some id := by
      obtain ⟨more, hmore⟩ := calls_later texts later
      have hlen : texts.length = (calls texts).1.length := by
        rw [(calls_lists texts).2, List.length_map]
      rw [lookup?_calls, ← hmore, List.zip_append hlen]
      exact List.mem_append_left _ ((lookup?_calls texts s id).1 hs)
    exact ⟨hfound, by simp [intern, hfound]⟩
  name id hid := by
    have hlists := (calls_lists texts).1
    have hlists' := (calls_lists (texts ++ later)).1
    rw [hlists.size] at hid
    cases id with
    | zero => rfl
    | succ n => simp [name, hlists.texts, hlists'.texts, List.eraseDups_append,
        List.getElem?_append_left hid]

/-- After any calls texts and numbers stand for each other, and later calls only add to them. -/
theorem calls_faithful (texts later : List String) :
    Faithful texts (calls texts).1 (calls texts).2 ∧
      (calls texts).1 <+: (calls (texts ++ later)).1 ∧
      (calls texts).2.Keeps (calls (texts ++ later)).2 :=
  ⟨faithful_calls texts, calls_later texts later, keeps_calls texts later⟩

end TreeSema.Interner
