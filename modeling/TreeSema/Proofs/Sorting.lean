import TreeSema.Diagnostic
import Mathlib.Data.Prod.Lex
import Mathlib.Data.String.Basic

/-!
# Diagnostics in order

Diagnostics are displayed in the order of their locations. The order of units is that of their
UTF-8 bytes: the encoding of a character starts with its most significant bits, and longer encodings
start with greater bytes, so that bytes compare as the characters do.

What is sorted has the diagnostics of each location in the order in which they were reported, and
there is only one such list. So it makes no difference whether parts are sorted before they are put
together.

* `Text.bytes_lt_iff`: texts compare as their bytes do.
* `Location.before_iff_key`: locations are ordered by a key.
* `eq_of_pairwise_of_filter`: a sorted list is known by its parts with equal keys.
* `Diagnostics.sort_unique`: sorting gives the one list that is sorted and stable.
-/
namespace TreeSema

/-! ## The order of texts -/

namespace Text

/-- The UTF-8 bytes of a text. -/
def bytes (s : String) : List UInt8 := s.toByteArray.data.toList

theorem bytes_eq (s : String) : bytes s = s.toList.flatMap String.utf8EncodeChar := by
  rw [bytes, ← String.utf8Encode_toList, List.utf8Encode, List.data_toByteArray]

theorem byte_lt {a b : Nat} (ha : a < 256) (hb : b < 256) :
    UInt8.ofNat a < UInt8.ofNat b ↔ a < b := by
  rw [UInt8.lt_iff_toNat_lt, UInt8.toNat_ofNat', UInt8.toNat_ofNat']
  omega

theorem byte_eq {a b : Nat} (ha : a < 256) (hb : b < 256) :
    UInt8.ofNat a = UInt8.ofNat b ↔ a = b := by
  rw [← UInt8.toNat_inj, UInt8.toNat_ofNat', UInt8.toNat_ofNat']
  omega

/-- Six bits more to compare. -/
theorem lt_iff_sextet {v w : Nat} :
    v < w ↔ v / 64 < w / 64 ∨ v / 64 = w / 64 ∧ v % 64 < w % 64 := by
  omega

theorem toNat_val_lt (c : Char) : c.val.toNat < 0x110000 := by
  rcases c.valid with h | h
  · exact Nat.lt_trans h (by decide)
  · exact h.2

/-- A smaller character has smaller bytes, whatever comes after them. -/
theorem encode_lt {c d : Char} (h : c < d) (r r' : List UInt8) :
    String.utf8EncodeChar c ++ r < String.utf8EncodeChar d ++ r' := by
  have hc := toNat_val_lt c
  have hd := toNat_val_lt d
  have hlt : c.val.toNat < d.val.toNat := h
  unfold String.utf8EncodeChar
  dsimp only
  split_ifs
  all_goals
    simp (disch := omega) only [List.cons_append, List.nil_append, List.cons_lt_cons_iff, byte_lt,
      byte_eq]
  iterate 15 omega
  -- two characters of four bytes each
  rw [lt_iff_sextet, lt_iff_sextet, lt_iff_sextet] at hlt
  simp only [Nat.div_div_eq_div_mul, Nat.reduceMul] at hlt
  rcases hlt with ((hlt | hlt) | hlt) | hlt
  · exact .inl (by omega)
  · exact .inr ⟨by omega, .inl (by omega)⟩
  · exact .inr ⟨by omega, .inr ⟨by omega, .inl (by omega)⟩⟩
  · exact .inr ⟨by omega, .inr ⟨by omega, .inr ⟨by omega, .inl (by omega)⟩⟩⟩

theorem encode_ne_nil (c : Char) : String.utf8EncodeChar c ≠ [] := by
  unfold String.utf8EncodeChar
  dsimp only
  split_ifs <;> simp

theorem flatMap_lt {cs ds : List Char} (h : cs < ds) :
    cs.flatMap String.utf8EncodeChar < ds.flatMap String.utf8EncodeChar := by
  induction cs generalizing ds with
  | nil =>
    cases ds with
    | nil => exact absurd h (List.lt_irrefl _)
    | cons d ds =>
      obtain ⟨b, bs, hb⟩ := List.exists_cons_of_ne_nil (encode_ne_nil d)
      simp [hb]
  | cons c cs ih =>
    cases ds with
    | nil => exact absurd h (by simp)
    | cons d ds =>
      simp only [List.flatMap_cons]
      rcases List.cons_lt_cons_iff.1 h with hcd | ⟨rfl, hrest⟩
      · exact encode_lt hcd _ _
      · exact List.append_left_lt (ih hrest)

/-- Texts compare as their bytes do. -/
theorem bytes_lt_iff {s t : String} : bytes s < bytes t ↔ s < t := by
  rw [bytes_eq, bytes_eq, String.lt_iff_toList_lt]
  refine ⟨fun h => ?_, flatMap_lt⟩
  rcases lt_trichotomy s.toList t.toList with hlt | heq | hgt
  · exact hlt
  · exact absurd h (by simp [heq])
  · exact absurd h (List.lt_asymm (flatMap_lt hgt))

end Text

/-! ## The order of locations -/

namespace Location

/-- What locations are compared by. -/
def key (l : Location) : List Char ×ₗ Int ×ₗ Int := toLex (l.unit.toList, toLex (l.line, l.col))

theorem key_inj {l m : Location} : l.key = m.key ↔ l = m := by
  obtain ⟨unit, line, col⟩ := l
  obtain ⟨unit', line', col'⟩ := m
  simp [key, String.toList_inj]

theorem before_iff_key {l m : Location} : l.before m = true ↔ l.key < m.key := by
  rw [key, key, Prod.Lex.toLex_lt_toLex, Prod.Lex.toLex_lt_toLex, before]
  by_cases hunit : l.unit = m.unit
  · by_cases hline : l.line = m.line
    · simp [hunit, hline]
    · simp [hunit, hline]
  · have hne : l.unit.toList ≠ m.unit.toList := fun h => hunit (String.toList_inj.1 h)
    simp only [hunit, hne, ne_eq, not_false_iff, if_true, decide_eq_true_eq, false_and, or_false]
    rfl

theorem not_before_iff {l m : Location} : m.before l = false ↔ l.key ≤ m.key := by
  rw [← Bool.not_eq_true, before_iff_key, not_lt]

end Location


/-! ## Sorting -/

section Parts

variable {α κ : Type} [DecidableEq κ] {f : α → κ} {r : α → α → Prop} {l l' : List α}

theorem mem_of_filter (h : ∀ k, l.filter (f · = k) = l'.filter (f · = k)) {a : α} (ha : a ∈ l) :
    a ∈ l' := by
  have hpart : a ∈ l.filter (f · = f a) := by simpa using ha
  rw [h (f a)] at hpart
  exact List.mem_of_mem_filter hpart

/-- A sorted list is known by its parts with equal keys. -/
theorem eq_of_pairwise_of_filter (hr : ∀ a b, r a b → r b a → f a = f b) (h : l.Pairwise r)
    (h' : l'.Pairwise r) (hparts : ∀ k, l.filter (f · = k) = l'.filter (f · = k)) : l = l' := by
  induction l generalizing l' with
  | nil =>
    refine (List.eq_nil_iff_forall_not_mem.2 fun a ha => ?_).symm
    exact List.not_mem_nil (mem_of_filter (fun k => (hparts k).symm) ha)
  | cons a l ih =>
    have ha : a ∈ l' := mem_of_filter hparts List.mem_cons_self
    cases l' with
    | nil => exact absurd ha List.not_mem_nil
    | cons b l' =>
      have hb : b ∈ a :: l := mem_of_filter (fun k => (hparts k).symm) List.mem_cons_self
      -- both lists start with the least key, and with the first element that has it
      have hkey : f a = f b := by
        rcases List.mem_cons.1 ha with rfl | ha
        · rfl
        · rcases List.mem_cons.1 hb with rfl | hb
          · rfl
          · exact hr a b (List.rel_of_pairwise_cons h hb) (List.rel_of_pairwise_cons h' ha)
      have hheads := hparts (f b)
      simp only [List.filter_cons, hkey, decide_true, if_true] at hheads
      obtain ⟨rfl, -⟩ := List.cons.inj hheads
      refine congrArg (a :: ·) (ih h.of_cons h'.of_cons fun k => ?_)
      have hk := hparts k
      simp only [List.filter_cons] at hk
      split at hk
      · exact (List.cons.inj hk).2
      · exact hk

end Parts

namespace Diagnostics

open Location (not_before_iff)

/-- No later diagnostic is located before an earlier one. -/
def Ordered (ds : Diagnostics) : Prop := ds.Pairwise fun d e => e.loc.before d.loc = false

/-- The diagnostics at one location, in order. -/
def located (ds : Diagnostics) (loc : Location) : Diagnostics := ds.filter (·.loc = loc)

theorem sort_perm (ds : Diagnostics) : (sort ds).Perm ds := List.mergeSort_perm ds _

theorem not_before_trans (a b c : Diagnostic) (h : (!b.loc.before a.loc) = true)
    (h' : (!c.loc.before b.loc) = true) : (!c.loc.before a.loc) = true := by
  simp only [Bool.not_eq_true', not_before_iff] at h h' ⊢
  exact h.trans h'

theorem not_before_total (a b : Diagnostic) : (!b.loc.before a.loc || !a.loc.before b.loc) = true := by
  simp only [Bool.or_eq_true, Bool.not_eq_true', not_before_iff]
  exact le_total _ _

theorem sort_ordered (ds : Diagnostics) : Ordered (sort ds) := by
  have hsorted := List.pairwise_mergeSort not_before_trans not_before_total ds
  exact hsorted.imp fun h => by simpa using h

theorem located_sort (ds : Diagnostics) (loc : Location) :
    located (sort ds) loc = located ds loc := by
  have hequal : (located ds loc).Pairwise fun d e => (!e.loc.before d.loc) = true := by
    refine List.pairwise_of_forall_mem_list fun d hd e he => ?_
    rw [Bool.not_eq_true', not_before_iff, of_decide_eq_true (List.mem_filter.1 hd).2,
      of_decide_eq_true (List.mem_filter.1 he).2]
  have hsorted : (located ds loc).Sublist (sort ds) :=
    List.sublist_mergeSort not_before_trans not_before_total hequal List.filter_sublist
  have hpart : (located ds loc).Sublist (located (sort ds) loc) := by
    simpa only [located, List.filter_filter, Bool.and_self] using hsorted.filter (·.loc = loc)
  exact (hpart.eq_of_length ((sort_perm ds).filter _).length_eq.symm).symm

theorem eq_sort_iff {ds es : Diagnostics} :
    es = sort ds ↔ es.Perm ds ∧ Ordered es ∧ ∀ loc, located es loc = located ds loc := by
  constructor
  · rintro rfl
    exact ⟨sort_perm ds, sort_ordered ds, located_sort ds⟩
  · rintro ⟨-, hordered, hlocated⟩
    refine eq_of_pairwise_of_filter (fun d e hde hed => ?_) hordered (sort_ordered ds) fun loc =>
      (hlocated loc).trans (located_sort ds loc).symm
    exact Location.key_inj.1 (le_antisymm (not_before_iff.1 hde) (not_before_iff.1 hed))

/-- What is put together from sorted parts is sorted like what is put together from the parts. -/
theorem sort_flatten (parts : List Diagnostics) :
    sort (parts.map sort).flatten = sort parts.flatten := by
  have hperm : (parts.map sort).flatten.Perm parts.flatten := by
    induction parts with
    | nil => exact .nil
    | cons ds parts ih => exact (sort_perm ds).append ih
  refine eq_sort_iff.2 ⟨(sort_perm _).trans hperm, sort_ordered _, fun loc => ?_⟩
  rw [located_sort, located, located, List.filter_flatten, List.filter_flatten, List.map_map]
  exact congrArg List.flatten (List.map_congr_left fun ds _ => located_sort ds loc)

/-- Locations are strictly ordered by unit, as bytes, then by line, then by column. Sorting gives the
one rearrangement in which no location comes before an earlier one and the diagnostics at each
location are in the order in which they were. Sorting parts before they are put together makes no
difference. -/
theorem sort_stable (ds : Diagnostics) :
    (∀ l m : Location, l.before m = true ↔
      Text.bytes l.unit < Text.bytes m.unit ∨
        l.unit = m.unit ∧ (l.line < m.line ∨ l.line = m.line ∧ l.col < m.col)) ∧
    (∀ l : Location, l.before l = false) ∧
    (∀ l m n : Location, l.before m = true → m.before n = true → l.before n = true) ∧
    (∀ l m : Location, l.before m = true ∨ l = m ∨ m.before l = true) ∧
    (∀ es, es = sort ds ↔
      es.Perm ds ∧ Ordered es ∧ ∀ loc, located es loc = located ds loc) ∧
    ∀ parts : List Diagnostics, sort (parts.map sort).flatten = sort parts.flatten := by
  refine ⟨fun l m => ?_, fun l => ?_, fun l m n h h' => ?_, fun l m => ?_, fun es => eq_sort_iff,
    sort_flatten⟩
  · rw [Location.before_iff_key, Location.key, Location.key, Prod.Lex.toLex_lt_toLex,
      Prod.Lex.toLex_lt_toLex, Text.bytes_lt_iff, String.toList_inj, String.lt_iff_toList_lt]
  · exact not_before_iff.2 le_rfl
  · rw [Location.before_iff_key] at h h' ⊢
    exact h.trans h'
  · rw [Location.before_iff_key, Location.before_iff_key, ← Location.key_inj]
    exact lt_trichotomy _ _

end Diagnostics

end TreeSema
