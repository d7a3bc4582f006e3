import Mathlib.Data.List.Forall2

/-!
# Lists related member by member

Tables, trees and documents are compared list by list, with `List.Forall₂`. These are the facts
about it that the library does not have.
-/
namespace TreeSema

variable {α β γ : Type} {R : α → β → Prop} {as : List α} {bs : List β}

theorem exists_of_forall₂_right (h : List.Forall₂ R as bs) {b : β} (hb : b ∈ bs) :
    ∃ a ∈ as, R a b := by
  induction h with
  | nil => cases hb
  | cons hab _ ih =>
    rcases List.mem_cons.1 hb with rfl | hb
    · exact ⟨_, .head _, hab⟩
    · obtain ⟨a, ha, hr⟩ := ih hb
      exact ⟨a, .tail _ ha, hr⟩

theorem exists_of_forall₂_left (h : List.Forall₂ R as bs) {a : α} (ha : a ∈ as) :
    ∃ b ∈ bs, R a b :=
  exists_of_forall₂_right h.flip ha

/-- Some list is related to a given one if and only if each member has something to go with. -/
theorem exists_forall₂_iff : (∃ bs, List.Forall₂ R as bs) ↔ ∀ a ∈ as, ∃ b, R a b := by
  constructor
  · rintro ⟨bs, h⟩ a ha
    obtain ⟨b, -, hab⟩ := exists_of_forall₂_left h ha
    exact ⟨b, hab⟩
  · intro h
    induction as with
    | nil => exact ⟨[], .nil⟩
    | cons a as ih =>
      obtain ⟨⟨b, hb⟩, has⟩ := List.forall_mem_cons.1 h
      obtain ⟨bs, hbs⟩ := ih has
      exact ⟨b :: bs, .cons hb hbs⟩

/-- Two relations in a row on the members of lists are one, if they are on those of the first. -/
theorem forall₂_comp {S : β → γ → Prop} {T : α → γ → Prop} {cs} (h : List.Forall₂ R as bs)
    (h' : List.Forall₂ S bs cs) (hcomp : ∀ a ∈ as, ∀ b c, R a b → S b c → T a c) :
    List.Forall₂ T as cs := by
  induction h generalizing cs with
  | nil =>
    cases h'
    exact .nil
  | cons hab _ ih =>
    cases h' with
    | cons hbc hrest =>
      obtain ⟨hhead, htail⟩ := List.forall_mem_cons.1 hcomp
      exact .cons (hhead _ _ hab hbc) (ih hrest htail)

theorem forall₂_unique {S : α → β → Prop} (hRS : ∀ a b b', R a b → S a b' → b = b') {bs'}
    (h : List.Forall₂ R as bs) (h' : List.Forall₂ S as bs') : bs = bs' := by
  have hflip : List.Forall₂ (fun b a => R a b) bs as := h.flip
  rw [← List.forall₂_eq_eq_eq]
  exact forall₂_comp hflip h' fun _ _ a _ hab => hRS a _ _ hab

end TreeSema
