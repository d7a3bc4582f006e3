import TreeSema.Proofs.OrderedMap
import TreeSema.Proofs.Step

/-!
# The numbers of an enum

The values of an enum are numbered in the order in which they are written, each with the number that
is given or else with one more than the value before it has, whether that one came into the enum or
not. Analysis counts in 64 bits, so that the count wraps around after the greatest number. It takes
more values than an enum can have to get from there into the range of the values of an enum, and so no
value comes in with a number that wrapped around.

* `EnumItem.numbered`: the numbers as they are meant, integers of any size.
* `fits32_wrap64`: a number that wrapped around is out of range.
* `enumValues_run`: what the values of an enum leave behind, in whatever order good and bad ones
  stand.
* `enum_numbered`: an enum has the names that occur with a number in range, each with the first of
  these numbers, and everything else that is written in it is reported once.
-/
namespace TreeSema

/-! ## Numbers as they are meant -/

/-- A value as it is written in an enum, with the number that it is meant to have. -/
abbrev Occurrence := EnumItem × Int

/-- The values of an enum with their numbers, where `next` is the number of one that has none of its
own. -/
def EnumItem.numbered (next : Int) : List EnumItem → List Occurrence
  | [] => []
  | v :: rest =>
    let number := if v.explicit then v.value else next
    (v, number) :: numbered (number + 1) rest

/-- The members of a list, each with those before it, where `before` come first of all. -/
def preceded {α : Type} (before : List α) : List α → List (List α × α)
  | [] => []
  | a :: rest => (before, a) :: preceded (before ++ [a]) rest

theorem preceded_append {α : Type} (before l r : List α) :
    preceded before (l ++ r) = preceded before l ++ preceded (before ++ l) r := by
  induction l generalizing before with
  | nil => simp [preceded]
  | cons a l ih => simp [preceded, ih]

namespace Occurrence

/-- Does a value have a number that a value of an enum can have? -/
def inRange (o : Occurrence) : Bool := -0x80000000 ≤ o.2 && o.2 < 0x80000000

/-- Does a value bring a name into the enum, if nothing before it does? -/
def brings (name : Ident) (o : Occurrence) : Bool := o.1.name == name && o.inRange

/-- Is a name in the enum after some values? -/
def taken (before : List Occurrence) (name : Ident) : Bool := before.any (brings name)

/-- Does a value come into the enum, after those before it? -/
def enters (p : List Occurrence × Occurrence) : Bool := p.2.inRange && !taken p.1 p.2.1.name

/-- What is reported of a value that does not come in: its name is there already, or its number is out
of range. -/
def fault (owner : Ident) (p : List Occurrence × Occurrence) : Finding :=
  ⟨p.2.1.loc, if taken p.1 p.2.1.name then .redefined p.2.1.name
    else .enumOverflow (Text.wrap64 p.2.2) [owner, p.2.1.name]⟩

/-- A value as the enum holds it. -/
def asMember (owner : Ident) (o : Occurrence) : EnumMember := ⟨owner, o.2, o.1.loc⟩

end Occurrence

/-! ## Counting in 64 bits -/

namespace Text

theorem wrap64_of_fits64 {n : Int} (h : fits64 n = true) : wrap64 n = n := by
  simp only [fits64, Bool.and_eq_true, decide_eq_true_eq] at h
  unfold wrap64
  omega

theorem wrap64_add_one (n : Int) : wrap64 (wrap64 n + 1) = wrap64 (n + 1) := by
  unfold wrap64
  omega

end Text

namespace Analysis

open Occurrence

/-- The greatest number that is given is followed by less than 2⁶² others, none of which is in range
after it has wrapped around. -/
theorem fits32_wrap64 {v} {n : Int} (hlow : -0x8000000000000000 ≤ n)
    (hhigh : n < 0x8000000000000000 + 0x4000000000000000) :
    fits32 (Text.wrap64 n) = inRange (v, n) := by
  unfold fits32 inRange Text.wrap64
  rw [Bool.eq_iff_iff]
  simp only [Bool.and_eq_true, decide_eq_true_eq]
  omega

theorem wrap64_of_inRange {o : Occurrence} (h : o.inRange = true) : Text.wrap64 o.2 = o.2 := by
  simp only [inRange, Bool.and_eq_true, decide_eq_true_eq] at h
  unfold Text.wrap64
  omega

/-! ## What the values leave behind -/

/-- An enum after some of its values. -/
structure Records (owner : Ident) (before : List Occurrence) (d : EnumBody) : Prop where
  values : ∀ name, d.values.get? name = (before.find? (brings name)).map (asMember owner)
  order : d.order = ((preceded [] before).filter enters).map (·.2.1.name)
  keys : d.values.keys = d.order
  nodup : d.order.Nodup

theorem records_nil (owner : Ident) : Records owner [] ⟨.empty, []⟩ :=
  ⟨fun _ => rfl, rfl, rfl, .nil⟩

namespace Records

variable {owner : Ident} {before : List Occurrence} {d : EnumBody} {o : Occurrence}

theorem contains (h : Records owner before d) (name : Ident) :
    d.values.contains name = taken before name := by
  rw [OrderedMap.contains, h.values, Option.isSome_map, List.isSome_find?, taken]

/-- A value that does not come in leaves the enum as it is. -/
theorem pass (h : Records owner before d) (ho : enters (before, o) = false) :
    Records owner (before ++ [o]) d where
  values name := by
    rw [h.values, List.find?_append]
    cases hfind : before.find? (brings name) with
    | some first => rfl
    | none =>
      -- a value out of range brings nothing, and one whose name is taken does not bring this name
      have hno : brings name o = false := by
        by_contra hbrings
        obtain ⟨hname, hrange⟩ := Bool.and_eq_true_iff.1 (Bool.not_eq_false _ ▸ hbrings)
        have htaken : taken before o.1.name = true := by
          simpa [enters, hrange] using ho
        obtain ⟨first, hmem, hfirst⟩ := List.any_eq_true.1 htaken
        rw [eq_of_beq hname] at hfirst
        exact List.find?_eq_none.1 hfind first hmem hfirst
      simp [hno]
  order := by
    rw [h.order, preceded_append]
    simp [preceded, ho]
  keys := h.keys
  nodup := h.nodup

/-- A value that comes in stands behind the others. -/
theorem enter (h : Records owner before d) (ho : enters (before, o) = true) :
    Records owner (before ++ [o])
      ⟨d.values.set o.1.name (asMember owner o), d.order ++ [o.1.name]⟩ := by
  obtain ⟨hrange, hfree⟩ := Bool.and_eq_true_iff.1 ho
  have hfree : taken before o.1.name = false := by simpa using hfree
  have hnew : o.1.name ∉ d.values.keys := by
    rw [← OrderedMap.get?_isSome_iff]
    simpa [OrderedMap.contains, hfree] using h.contains o.1.name
  refine ⟨fun name => ?_, ?_, ?_, ?_⟩
  · rw [OrderedMap.get?_set, List.find?_append, h.values]
    by_cases hname : name = o.1.name
    · subst hname
      have hnone : before.find? (brings o.1.name) = none := by
        rw [List.find?_eq_none]
        exact List.any_eq_false.1 hfree
      simp [hnone, brings, hrange]
    · have hno : brings name o = false := by simp [brings, Ne.symm hname]
      simp [hname, hno]
  · rw [preceded_append]
    simp [preceded, ho, h.order]
  · rw [OrderedMap.keys_set _ hnew, h.keys]
  · simpa using h.nodup.concat (h.keys ▸ hnew)

end Records

/-- One value: it comes into the enum, or it is reported. The next one is counted on from its number
in either case. -/
theorem enumValues_cons {owner before d} (hd : Records owner before d) {v : EnumItem}
    {next number : Int} (hvalue : (if v.explicit then v.value else next) = Text.wrap64 number)
    (hlow : -0x8000000000000000 ≤ number) (hhigh : number < 0x8000000000000000 + 0x4000000000000000)
    (rest : List EnumItem) (s : State) :
    ∃ d₁, Records owner (before ++ [(v, number)]) d₁ ∧
      enumValues owner next d (v :: rest) s =
        enumValues owner (Text.wrap64 (number + 1)) d₁ rest { s with
          findings := s.findings ++
            ([(before, v, number)].filter fun p => !enters p).map (fault owner) } := by
  rw [enumValues]
  simp only [hvalue, Text.wrap64_add_one, hd.contains, fits32_wrap64 (v := v) hlow hhigh]
  cases htaken : taken before v.name with
  | true =>
    have hpass : enters (before, v, number) = false := by simp [enters, htaken]
    refine ⟨d, hd.pass hpass, ?_⟩
    rw [if_pos rfl, bind_apply, report_apply]
    simp [hpass, fault, htaken]
  | false =>
    cases hrange : inRange (v, number) with
    | false =>
      have hpass : enters (before, v, number) = false := by simp [enters, hrange]
      refine ⟨d, hd.pass hpass, ?_⟩
      rw [if_neg (by simp), if_pos (by simp), bind_apply, report_apply]
      simp [hpass, fault, htaken]
    | true =>
      have henter : enters (before, v, number) = true := by simp [enters, hrange, htaken]
      refine ⟨_, hd.enter henter, ?_⟩
      rw [if_neg (by simp), if_neg (by simp), wrap64_of_inRange hrange]
      simp [henter, asMember]

/-- The values of an enum after those in `before`. What analysis counts is the number of the next
value, wrapped around; that is at most as far above the greatest number that can be given as there are
values in front of it. -/
theorem enumValues_run (owner : Ident) (items : List EnumItem) (before : List Occurrence) (n : Int)
    (d : EnumBody) (s : State) (hd : Records owner before d)
    (hcount : before.length + items.length < 0x4000000000000000)
    (hlow : -0x8000000000000000 ≤ n) (hhigh : n ≤ 0x8000000000000000 + before.length)
    (hitems : ∀ v ∈ items, Text.fits64 v.value = true) :
    ∃ d', Records owner (before ++ EnumItem.numbered n items) d' ∧
      enumValues owner (Text.wrap64 n) d items s = (d', { s with
        findings := s.findings ++ ((preceded before (EnumItem.numbered n items)).filter
          fun p => !enters p).map (fault owner) }) := by
  induction items generalizing before n d s with
  | nil =>
    refine ⟨d, by simpa [EnumItem.numbered] using hd, ?_⟩
    simp [EnumItem.numbered, preceded, enumValues, pure_apply]
  | cons v rest ih =>
    obtain ⟨hv, hrest⟩ := List.forall_mem_cons.1 hitems
    have hgiven : -0x8000000000000000 ≤ v.value ∧ v.value < 0x8000000000000000 := by
      simpa [Text.fits64] using hv
    rw [List.length_cons] at hcount
    obtain ⟨number, hnumber⟩ : ∃ x, x = if v.explicit then v.value else n := ⟨_, rfl⟩
    have hvalue : (if v.explicit then v.value else Text.wrap64 n) = Text.wrap64 number := by
      rw [hnumber]
      split
      · exact (Text.wrap64_of_fits64 hv).symm
      · rfl
    have hbounds : -0x8000000000000000 ≤ number ∧ number ≤ 0x8000000000000000 + before.length := by
      rw [hnumber]
      split <;> omega
    obtain ⟨d₁, hd₁, hstep⟩ := enumValues_cons hd hvalue hbounds.1 (by omega) rest s
    obtain ⟨d', hd', hrun⟩ := ih (before ++ [(v, number)]) (number + 1) d₁ _ hd₁
      (by simp; omega) (by omega) (by simp; omega) hrest
    have hall : EnumItem.numbered n (v :: rest)
        = [(v, number)] ++ EnumItem.numbered (number + 1) rest := by
      rw [hnumber]
      rfl
    refine ⟨d', by rwa [hall, ← List.append_assoc], ?_⟩
    rw [hstep, hrun, hall, preceded_append]
    simp only [preceded, List.filter_append, List.map_append, List.append_assoc]

/-- An enum whose name is free, with less than 2⁶² values, is put into the table. It has the names
that occur with a number in range, each with the first such number and once, in the order in which
they come in. Every other value that is written is reported once and for all: as one of a name that is
there already, or else as one that does not fit. -/
theorem enum_numbered (h : Head) (s : State) (hfree : s.table.lookup h.name = none)
    (hcount : h.values.length < 0x4000000000000000)
    (hitems : ∀ v ∈ h.values, Text.fits64 v.value = true) :
    let all := EnumItem.numbered 0 h.values
    ∃ d : EnumBody,
      enum h s = ((), { s with
        table := s.table.insert (.definition h.name (.enumDef d) h.loc)
        findings := s.findings ++
          ((preceded [] all).filter fun p => !enters p).map (fault h.name) }) ∧
      (∀ name, d.values.get? name = (all.find? (brings name)).map (asMember h.name)) ∧
      d.order = ((preceded [] all).filter enters).map (·.2.1.name) ∧
      d.order.Nodup ∧
      ∀ name, name ∈ d.order ↔ ∃ o ∈ all, o.1.name = name ∧ o.inRange = true := by
  intro all
  obtain ⟨d, hd, hrun⟩ := enumValues_run h.name h.values [] 0 ⟨.empty, []⟩ s (records_nil _)
    (by simpa using hcount) (by decide) (by decide) hitems
  refine ⟨d, ?_, hd.values, hd.order, hd.nodup, fun name => ?_⟩
  · unfold enum
    rw [bind_apply, redefined_free hfree]
    exact congrArg (fun r => insert (.definition h.name (.enumDef r.1) h.loc) r.2) hrun
  · rw [← hd.keys, ← OrderedMap.get?_isSome_iff, hd.values, Option.isSome_map, List.isSome_find?]
    simp [brings, all]

/-- The count wraps around after the first value, and the second is reported. Its name comes again
further on and comes in then; one that is there already is reported, in range or not. -/
theorem enum_numbered_wraps :
    let item : String → Int → Bool → EnumItem := fun x value explicit => ⟨.name x, value, explicit, {}⟩
    let h : Head := { kind := .enumDef, loc := {}, name := .name "E", values :=
      [item "max" 0x7fffffffffffffff true, item "over" 0 false, item "least" (-0x80000000) true,
        item "over" 0 false, item "least" 0x80000000 true] }
    h.values.length < 0x4000000000000000 ∧ (∀ v ∈ h.values, Text.fits64 v.value = true) ∧
      ∃ d : EnumBody, enum h {} = ((), {
        table := .insert .empty (.definition h.name (.enumDef d) h.loc)
        findings := [⟨{}, .enumOverflow 0x7fffffffffffffff [.name "E", .name "max"]⟩,
          ⟨{}, .enumOverflow (-0x8000000000000000) [.name "E", .name "over"]⟩,
          ⟨{}, .redefined (.name "least")⟩] }) ∧
        d.order = [.name "least", .name "over"] ∧
        d.values.get? (.name "least") = some ⟨.name "E", -0x80000000, {}⟩ ∧
        d.values.get? (.name "over") = some ⟨.name "E", -0x7fffffff, {}⟩ ∧
        d.values.get? (.name "max") = none := by
  intro item h
  have hcount : h.values.length < 0x4000000000000000 := by decide
  have hitems : ∀ v ∈ h.values, Text.fits64 v.value = true := by decide
  obtain ⟨d, hrun, hvalues, horder, -⟩ := enum_numbered h {} rfl hcount hitems
  refine ⟨hcount, hitems, d, hrun, horder, ?_, ?_, ?_⟩ <;>
    · rw [hvalues]
      rfl

end Analysis

end TreeSema
