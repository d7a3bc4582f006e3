import TreeSema.Proofs.RoundTrip.Grammar
import Mathlib.Logic.Relation

/-!
# The parts of a datum

The children of a datum are what it holds and the values of its metadata. Its parts are the datum
itself, its children, their children and so on.

* `Datum.induction_on_children`: what passes from the children to the datum holds of every datum.
* `Derives.key`: every key in a datum is among its tokens.
* `Derives.part`: the tokens of a part stand together among the tokens of the whole.
-/
namespace TreeSema

variable {c d : Datum} {P : Datum → Prop} {ts : List Token}

namespace Datum

/-- What the datum holds, and the values of its metadata. -/
def children (d : Datum) : List Datum := d.contents ++ d.notes.map Prod.snd

theorem mem_children_of_content (h : c ∈ d.contents) : c ∈ d.children :=
  List.mem_append_left _ h

theorem mem_children_of_note {key : String} (h : (key, c) ∈ d.notes) : c ∈ d.children :=
  List.mem_append_right _ (List.mem_map.2 ⟨_, h, rfl⟩)

/-- `e` is `d` or lies somewhere in it. -/
def Part (d e : Datum) : Prop := Relation.ReflTransGen (fun x c => c ∈ x.children) d e

theorem Part.self (d : Datum) : d.Part d := .refl

theorem Part.of_child {e} (hc : c ∈ d.children) (h : c.Part e) : d.Part e := .head hc h

/-- What passes from a datum to its children passes to its parts. -/
theorem Part.inherits (hchild : ∀ {d c}, P d → c ∈ d.children → P c) {e} (h : d.Part e) (hd : P d) :
    P e := by
  induction h with
  | refl => exact hd
  | tail _ hc ih => exact hchild ih hc

/-- The property holds of all parts of the datum. -/
def Every (P : Datum → Prop) (d : Datum) : Prop := ∀ e, d.Part e → P e

namespace Every

theorem self (h : d.Every P) : P d := h d (.self d)

theorem child (h : d.Every P) (hc : c ∈ d.children) : c.Every P := fun e he => h e (.of_child hc he)

end Every

theorem every_iff : d.Every P ↔ P d ∧ ∀ c ∈ d.children, c.Every P := by
  refine ⟨fun h => ⟨h.self, fun c hc => h.child hc⟩, fun h e he => ?_⟩
  rcases Relation.ReflTransGen.cases_head he with rfl | ⟨c, hc, he⟩
  · exact h.1
  · exact h.2 c hc e he

section Every

variable {pos : Text.Pos} {notes entries : List (String × Datum)} {items : List Datum}

@[simp] theorem every_atom {sort} {text : String} :
    (atom pos notes sort text).Every P ↔
      P (atom pos notes sort text) ∧ ∀ e ∈ notes, e.2.Every P := by
  rw [every_iff, children, List.forall_mem_append, List.forall_mem_map]
  simp [contents, Datum.notes]

@[simp] theorem every_list : (list pos notes items).Every P ↔
    P (list pos notes items) ∧ (∀ c ∈ items, c.Every P) ∧ ∀ e ∈ notes, e.2.Every P := by
  rw [every_iff, children, List.forall_mem_append, List.forall_mem_map]
  rfl

@[simp] theorem every_array : (array pos notes items).Every P ↔
    P (array pos notes items) ∧ (∀ c ∈ items, c.Every P) ∧ ∀ e ∈ notes, e.2.Every P := by
  rw [every_iff, children, List.forall_mem_append, List.forall_mem_map]
  rfl

@[simp] theorem every_map : (map pos notes entries).Every P ↔
    P (map pos notes entries) ∧ (∀ e ∈ entries, e.2.Every P) ∧ ∀ e ∈ notes, e.2.Every P := by
  rw [every_iff, children, List.forall_mem_append, List.forall_mem_map, contents,
    List.forall_mem_map]
  rfl

end Every

/-! ## Induction -/

theorem sizeOf_lt_of_entry {e : String × Datum} {es : List (String × Datum)} (h : e ∈ es) :
    sizeOf e.2 < sizeOf es := by
  have hlist := List.sizeOf_lt_of_mem h
  obtain ⟨key, d⟩ := e
  simp only [Prod.mk.sizeOf_spec] at hlist ⊢
  omega

theorem sizeOf_lt_of_mem_children (h : c ∈ d.children) : sizeOf c < sizeOf d := by
  rcases List.mem_append.1 h with h | h
  · cases d with
    | list pos notes items | array pos notes items =>
      have hlt : sizeOf c < sizeOf items := List.sizeOf_lt_of_mem h
      simp only [list.sizeOf_spec, array.sizeOf_spec]
      omega
    | map pos notes entries =>
      obtain ⟨e, he, rfl⟩ := List.mem_map.1 h
      have hlt := sizeOf_lt_of_entry he
      simp only [map.sizeOf_spec]
      omega
    | absent | atom | unknown => exact absurd h List.not_mem_nil
  · obtain ⟨e, he, rfl⟩ := List.mem_map.1 h
    have hlt := sizeOf_lt_of_entry he
    cases d with
    | absent => exact absurd he List.not_mem_nil
    | atom | list | array | map | unknown =>
      simp only [notes] at hlt
      simp only [atom.sizeOf_spec, list.sizeOf_spec, array.sizeOf_spec, map.sizeOf_spec,
        unknown.sizeOf_spec]
      omega

/-- What passes from the children to the datum holds of every datum. -/
theorem induction_on_children (step : ∀ d, (∀ c ∈ d.children, P c) → P d) (d : Datum) : P d :=
  step d fun c _ => induction_on_children step c
  termination_by sizeOf d
  decreasing_by exact sizeOf_lt_of_mem_children ‹_›

/-- The keys of a map. -/
def keys : Datum → List String
  | map _ _ entries => entries.map Prod.fst
  | _ => []

end Datum

/-! ## The tokens of a part -/

/-- Some of the tokens, standing together, derive the datum. -/
def DerivesAmong (ts : List Token) (d : Datum) : Prop := ∃ ts', ts' <:+: ts ∧ Derives ts' d

theorem Derives.among (h : Derives ts d) : DerivesAmong ts d :=
  ⟨ts, List.infix_rfl, h⟩

theorem DerivesAmong.widen {ts'} (h : DerivesAmong ts d) (hts : ts <:+: ts') :
    DerivesAmong ts' d := by
  obtain ⟨ts₀, hts₀, hd⟩ := h
  exact ⟨ts₀, hts₀.trans hts, hd⟩

theorem DerivesElements.among : ∀ {ts : List Token} {items : List Datum},
    DerivesElements ts items → ∀ d ∈ items, DerivesAmong ts d
  | _, _, .nil => by simp
  | _, _, .element hd helements => by
    refine List.forall_mem_cons.2 ⟨hd.among.widen (List.infix_append' [] _ _), fun d hmem => ?_⟩
    exact (helements.among d hmem).widen (List.suffix_append _ _).isInfix

/-- The key of the entry is among the tokens, and some of them derive its value. -/
def EntryAmong (ts : List Token) (e : String × Datum) : Prop :=
  (∃ p, ⟨p, .symbol e.1⟩ ∈ ts) ∧ DerivesAmong ts e.2

theorem EntryAmong.widen {ts' e} (h : EntryAmong ts e) (hts : ts <:+: ts') : EntryAmong ts' e := by
  obtain ⟨⟨p, hp⟩, hd⟩ := h
  exact ⟨⟨p, hts.subset hp⟩, hd.widen hts⟩

theorem DerivesEntries.among : ∀ {ts : List Token} {entries : List (String × Datum)},
    DerivesEntries ts entries → ∀ e ∈ entries, EntryAmong ts e
  | _, _, .nil => by simp
  | _, _, @DerivesEntries.last p q key ts _ hd => by
    have hvalue : ts <:+: ⟨p, .symbol key⟩ :: ⟨q, .colon⟩ :: ts :=
      ⟨[⟨p, .symbol key⟩, ⟨q, .colon⟩], [], by simp⟩
    exact List.forall_mem_singleton.2 ⟨⟨p, .head _⟩, hd.among.widen hvalue⟩
  | _, _, @DerivesEntries.entry p q r key ts ts' _ _ hd hentries => by
    have hfirst : ts <:+: ⟨p, .symbol key⟩ :: ⟨q, .colon⟩ :: (ts ++ ⟨r, .comma⟩ :: ts') :=
      ⟨[⟨p, .symbol key⟩, ⟨q, .colon⟩], ⟨r, .comma⟩ :: ts', by simp⟩
    have hrest : ts' <:+: ⟨p, .symbol key⟩ :: ⟨q, .colon⟩ :: (ts ++ ⟨r, .comma⟩ :: ts') :=
      ⟨⟨p, .symbol key⟩ :: ⟨q, .colon⟩ :: (ts ++ [⟨r, .comma⟩]), [], by simp⟩
    refine List.forall_mem_cons.2 ⟨⟨⟨p, .head _⟩, hd.among.widen hfirst⟩, fun e he => ?_⟩
    exact (hentries.among e he).widen hrest

theorem DerivesItems.among : ∀ {ts : List Token} {given : List (String × Datum)}
    {items : List Datum}, DerivesItems ts given items →
    (∀ d ∈ items, DerivesAmong ts d) ∧ ∀ e ∈ given, EntryAmong ts e
  | _, _, _, .nil => by simp
  | _, _, _, .item hd hitems => by
    obtain ⟨hrest, hgiven⟩ := hitems.among
    have hsuffix := fun ts ts' : List Token => (List.suffix_append ts ts').isInfix
    refine ⟨List.forall_mem_cons.2 ⟨hd.among.widen (List.infix_append' [] _ _), fun d hmem => ?_⟩,
      fun e he => ?_⟩
    · exact (hrest d hmem).widen (hsuffix _ _)
    · exact (hgiven e he).widen (hsuffix _ _)
  | _, _, _, @DerivesItems.note p q r _ _ ts ts' _ hentries hitems => by
    obtain ⟨hrest, hgiven⟩ := hitems.among
    have hnote : ts <:+: ⟨p, .caret⟩ :: ⟨q, .openBrace⟩ :: (ts ++ ⟨r, .closeBrace⟩ :: ts') :=
      ⟨[⟨p, .caret⟩, ⟨q, .openBrace⟩], ⟨r, .closeBrace⟩ :: ts', by simp⟩
    have hmore : ts' <:+: ⟨p, .caret⟩ :: ⟨q, .openBrace⟩ :: (ts ++ ⟨r, .closeBrace⟩ :: ts') :=
      ⟨⟨p, .caret⟩ :: ⟨q, .openBrace⟩ :: (ts ++ [⟨r, .closeBrace⟩]), [], by simp⟩
    refine ⟨fun d hd => (hrest d hd).widen hmore, List.forall_mem_append.2 ⟨fun e he => ?_, ?_⟩⟩
    · exact (hentries.among e he).widen hnote
    · exact fun e he => (hgiven e he).widen hmore

/-- What stands between the tokens that enclose a datum. -/
theorem infix_enclosed (t t' : Token) (ts : List Token) : ts <:+: t :: (ts ++ [t']) :=
  ⟨[t], [t'], by simp⟩

/-- Every key in a datum is among its tokens. -/
theorem Derives.key (h : Derives ts d) {key : String}
    (hkey : key ∈ d.keys ++ d.notes.map Prod.fst) : ∃ p, ⟨p, .symbol key⟩ ∈ ts := by
  cases h with
  | symbol | string | integer | ellipsis | array => exact absurd hkey List.not_mem_nil
  | list p q hitems hmerged =>
    obtain ⟨e, he, rfl⟩ := List.mem_map.1 hkey
    exact ((hitems.among.2 e (hmerged.subset he)).widen (infix_enclosed _ _ _)).1
  | map p q hentries =>
    obtain ⟨e, he, rfl⟩ := List.mem_map.1 ((List.mem_append.1 hkey).resolve_right List.not_mem_nil)
    exact ((hentries.among e he).widen (infix_enclosed _ _ _)).1

theorem Derives.child (h : Derives ts d) (hc : c ∈ d.children) : DerivesAmong ts c := by
  rcases List.mem_append.1 hc with hc | hc
  · cases h with
    | symbol | string | integer | ellipsis => exact absurd hc List.not_mem_nil
    | list p q hitems => exact (hitems.among.1 c hc).widen (infix_enclosed _ _ _)
    | map p q hentries =>
      obtain ⟨e, he, rfl⟩ := List.mem_map.1 hc
      exact (hentries.among e he).2.widen (infix_enclosed _ _ _)
    | array p q helements => exact (helements.among c hc).widen (infix_enclosed _ _ _)
  · cases h with
    | symbol | string | integer | ellipsis | map | array => exact absurd hc List.not_mem_nil
    | list p q hitems hmerged =>
      obtain ⟨e, he, rfl⟩ := List.mem_map.1 hc
      exact (hitems.among.2 e (hmerged.subset he)).2.widen (infix_enclosed _ _ _)

/-- The tokens of a part stand together among the tokens of the whole. -/
theorem Derives.part {e} (h : Derives ts d) (he : d.Part e) : DerivesAmong ts e := by
  refine he.inherits (P := DerivesAmong ts) (fun {d c} hd hc => ?_) h.among
  obtain ⟨ts', hts', hd⟩ := hd
  exact (hd.child hc).widen hts'

end TreeSema
