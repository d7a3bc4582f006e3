import TreeSema.Proofs.RoundTrip.Legible
import TreeSema.Proofs.Trace.Stmt

/-!
# Complete trees

A tree is complete if every node that analysis can come to is there and has the operands that its
rule takes. Reading sees to that, since a node with too few operands is no node of its kind, and
analysis keeps it so: a node is kept with as many operands, or a chain is replaced by a node that
takes none.

* `Node.Complete`: such a tree; `hereditary_complete`: all that analysis comes to in it is complete.
* `Node.complete_of_read`: a tree that was read is complete.
* `exprAt_complete`: analysis of an expression leaves it complete.
-/
namespace TreeSema

namespace Node

/-- Every node is there that analysis can come to, with the operands that its rule takes. -/
inductive Complete : Node → Prop
  | mk {h : Head} {cs : List Node} {fs b}
      (arity : h.kind.arity ≤ cs.length) (operands : ∀ c ∈ cs, Complete c)
      (components : h.kind = .call ∨ h.kind = .lit → ∀ f ∈ fs, Complete f.value)
      (body : b ≠ .absent → Complete b) : Complete (.mk h cs fs b)

namespace Complete

variable {n : Node} {h : Head} {cs : List Node} {fs : List (Component Node)} {b : Node}

theorem ne_absent (hn : n.Complete) : n ≠ .absent := by
  rintro rfl
  cases hn

theorem supplied (hn : n.Complete) : n.Supplied := by
  cases hn with
  | mk arity _ _ _ => exact arity

theorem operands (hn : (Node.mk h cs fs b).Complete) : ∀ c ∈ cs, c.Complete := by
  cases hn with
  | mk _ operands _ _ => exact operands

theorem components (hn : (Node.mk h cs fs b).Complete) (hk : h.kind = .call ∨ h.kind = .lit) :
    ∀ f ∈ fs, f.value.Complete := by
  cases hn with
  | mk _ _ components _ => exact components hk

theorem body (hn : (Node.mk h cs fs b).Complete) (hb : b ≠ .absent) : b.Complete := by
  cases hn with
  | mk _ _ _ body => exact body hb

/-- A node that takes no operands, and of which the parts are not come to. -/
theorem of_arity (harity : h.kind.arity = 0) (hk : ¬ (h.kind = .call ∨ h.kind = .lit))
    (hcs : ∀ c ∈ cs, c.Complete) : (Node.mk h cs fs .absent).Complete :=
  .mk (harity ▸ Nat.zero_le _) hcs (absurd · hk) (absurd rfl ·)

end Complete

theorem hereditary_complete : Hereditary Complete where
  operands hn := hn.operands
  components hn := hn.components
  body {_ _ _ b} hn := by
    cases b with
    | absent => exact fun _ hc => absurd hc List.not_mem_nil
    | mk => exact (hn.body (by simp)).operands

theorem complete_no_gap : ¬ Gap Complete := fun ⟨_, hn, hlacks⟩ => hlacks hn.supplied

end Node

/-! ## Trees that were read -/

theorem Head.Takes.arity {h : Head} {count : Nat} (ht : h.Takes count) :
    h.kind.arity ≤ count := by
  unfold Head.Takes at ht
  cases hk : h.kind with
  | binary | assign | dot | path | unary | ref | cast =>
    rw [hk] at ht
    exact Nat.le_of_eq ht.symm
  | whileLoop | index | loop | deref | ifThen =>
    rw [hk] at ht
    simp only [TreeReader.takes, Bool.or_eq_true, beq_iff_eq] at ht
    simp only [Kind.arity]
    omega
  | _ => exact Nat.zero_le _

namespace Node

variable {op word text : String → Prop} {size : Nat → Prop}

/-- A tree that is built by the rules of trees is complete. -/
theorem Formed.complete : ∀ {n : Node}, n.Formed op word text size → n.Complete
  | .absent, hn => nomatch hn
  | .mk h cs fs b, hn => by
    refine .mk (every_mk.1 hn.wellFormed).1.takes.arity (fun c hc => ?_) (fun hk f hf => ?_)
      fun hb => ?_
    · have hsize := List.sizeOf_lt_of_mem hc
      exact (hn.children c hc).complete
    · have hsize := List.sizeOf_lt_of_mem hf
      have hvalue : sizeOf f.value < sizeOf f := by
        cases f
        simp
        omega
      have hgiven := hn.given (by rcases hk with hk | hk <;> simp [hk]) f hf
      exact hgiven.2.complete
    · exact (hn.body hb).complete
termination_by n => sizeOf n

theorem complete_of_read {src unit : String} {tree : Node} (h : read src unit = .ok tree) :
    tree.Complete := (sourced_of_read h).1.complete

end Node

namespace Analysis

/-! ## Trees that analysis leaves -/

/-- Analysis leaves a tree complete, and puts nothing where nothing was. -/
def KeepsComplete (n n' : Node) : Prop :=
  (n.Complete → n'.Complete) ∧ (n = .absent → n' = .absent)

theorem KeepsComplete.all {cs cs'} (h : List.Forall₂ KeepsComplete cs cs')
    (hcs : ∀ c ∈ cs, c.Complete) : ∀ c ∈ cs', c.Complete := by
  intro c' hc'
  obtain ⟨c, hc, hkeeps⟩ := exists_of_forall₂_right h hc'
  exact hkeeps.1 (hcs c hc)

theorem KeepsComplete.fields {fs fs'} (h : List.Forall₂ (Component.Lift KeepsComplete) fs fs')
    (hfs : ∀ f ∈ fs, f.value.Complete) : ∀ f ∈ fs', f.value.Complete := by
  intro f' hf'
  obtain ⟨f, hf, hkeeps⟩ := exists_of_forall₂_right h hf'
  cases hkeeps with
  | mk hvalue => exact hvalue.1 (hfs _ hf)

theorem keepsComplete_rewriting : Rewriting (fun _ => True) KeepsComplete where
  refl _ := ⟨id, id⟩
  keep {h cs cs' fs fs' b b'} hcs hfs hb := by
    refine ⟨fun hn => .mk ?_ ?_ (fun hk => ?_) fun hb' => ?_, nofun⟩
    · exact hcs.length_eq ▸ hn.supplied
    · exact KeepsComplete.all hcs hn.operands
    · exact KeepsComplete.fields hfs (hn.components hk)
    · exact hb.1 (hn.body fun habsent => hb' (hb.2 habsent))
  replace {n n' path tail} hkind hchain h _ := by
    refine ⟨fun hn => ?_, fun habsent => by rw [habsent] at hkind; cases hkind⟩
    have htail : ∀ t, tail = some t → t.Complete := fun t ht =>
      Node.hereditary_complete.inherited.tail hn (ht ▸ hchain)
    cases h with
    | number | literal | emptyArm | tupleArm | structArm =>
      exact .of_arity rfl nofun (List.forall_mem_nil _)
    | call _ _ hcs =>
      exact .of_arity rfl nofun (KeepsComplete.all hcs (htail _ rfl).operands)
    | callByName hk _ hfs horder =>
      obtain ⟨_, _, sig, -, -, -, -, hgiven⟩ := horder
      have hvalues := KeepsComplete.fields hfs ((htail _ rfl).components (.inl hk))
      refine .of_arity rfl nofun fun a ha => ?_
      obtain ⟨p, -, hp⟩ := exists_of_forall₂_right hgiven ha
      obtain ⟨f, hf, -, rfl⟩ := givenValue?_eq_some hp
      exact hvalues f (mem_of_mem_kept hf)

/-- Analysis of an expression leaves it complete. -/
theorem exprAt_complete (cfg : Config) (k : Nat) {n : Node} (hn : n.Complete) (expected : Ty)
    (s : State) : (exprAt cfg k n expected s).1.1.Complete :=
  have hkeeps := exprAt_relates trivial_kept.toStable keepsComplete_rewriting cfg k n expected
  (hkeeps s trivial).2.1 hn

end Analysis

end TreeSema
