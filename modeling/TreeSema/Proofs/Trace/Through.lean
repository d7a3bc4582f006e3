import TreeSema.Proofs.Chain
import TreeSema.Proofs.Shape
import TreeSema.Proofs.Step
import TreeSema.Proofs.Trace.Parts

/-!
# Steps that go through their parts

Between the tasks that a rule for expressions leaves to the level below nothing happens to a state
but that findings are added. So the tasks that are listed for a rule are all that it leaves, and
whatever else changes in the course of an expression is changed by one of them. The one exception is
an assignment to a name, which marks the variable as having a value when its own value was accepted.

* `Hereditary`, `Inherited`: properties of trees that hold of what analysis comes to.
* `Through`: from one state to another through tasks.
* `Yields`: a step goes through its parts, from whatever state.
-/
namespace TreeSema

/-- A property of trees that holds of what analysis comes to in a tree of which it holds: the
operands of a node, what is given to a call or a literal, and the statements of a body. -/
structure Hereditary (P : Node → Prop) : Prop where
  operands : ∀ {h : Head} {cs fs b}, P (.mk h cs fs b) → ∀ c ∈ cs, P c
  components : ∀ {h : Head} {cs fs b},
    P (.mk h cs fs b) → h.kind = .call ∨ h.kind = .lit → ∀ f ∈ fs, P f.value
  body : ∀ {h : Head} {cs fs b}, P (.mk h cs fs b) → ∀ c ∈ b.children, P c

/-- Does a node of this kind put something around what is in it: a module, a function, a loop or an
unsafe block? -/
def Kind.encloses : Kind → Bool
  | .moduleDef | .funcDef | .unsafeBlock | .whileLoop | .loop => true
  | _ => false

/-- A property of trees that holds of what analysis comes to in an expression of which it holds. It
need not go into what stands around something. -/
structure Inherited (P : Node → Prop) : Prop where
  operands : ∀ {h : Head} {cs fs b}, P (.mk h cs fs b) → h.kind.encloses = false → ∀ c ∈ cs, P c
  components : ∀ {h : Head} {cs fs b},
    P (.mk h cs fs b) → h.kind = .call ∨ h.kind = .lit → ∀ f ∈ fs, P f.value

theorem hereditary_every (p : Node → Prop) : Hereditary (Node.Every p) where
  operands h := (Node.every_mk.1 h).2.1
  components h _ := (Node.every_mk.1 h).2.2.1
  body {_ _ _ b} h := by
    have hb := (Node.every_mk.1 h).2.2.2
    cases b with
    | absent => exact fun _ hc => absurd hc List.not_mem_nil
    | mk h cs fs b => exact (Node.every_mk.1 hb).2.1

theorem hereditary_true : Hereditary fun _ => True :=
  ⟨fun _ _ _ => trivial, fun _ _ _ _ => trivial, fun _ _ _ => trivial⟩

/-! ## Operands that are there -/

/-- The number of operands that the rule for a kind of node takes. -/
def Kind.arity : Kind → Nat
  | .binary | .assign | .index | .dot | .path => 2
  | .unary | .ref | .deref | .cast | .ifThen | .whileLoop | .loop => 1
  | _ => 0

/-- A node that has the operands that its rule takes. -/
def Node.Supplied : Node → Prop
  | .absent => False
  | .mk h cs _ _ => h.kind.arity ≤ cs.length

theorem Node.Supplied.arity {n : Node} (h : n.Supplied) {kind : Kind} (hk : n.kind? = some kind) :
    kind.arity ≤ n.children.length := by
  cases n with
  | absent => cases hk
  | mk head cs fs b => exact Option.some.inj hk ▸ h

/-- Among the trees with a property there is one that lacks an operand. -/
def Gap (P : Node → Prop) : Prop := ∃ n, P n ∧ ¬ n.Supplied

/-- The name that an assignment assigns to, if its target is one. -/
def Node.assigned? : Node → Option Ident
  | .mk h (target :: _ :: _) _ _ =>
    if h.kind = .assign ∧ target.kind? = some .ident then some target.head.name else none
  | _ => none

theorem Node.length_of_assigned {h} {cs : List Node} {fs b x}
    (hx : (Node.mk h cs fs b).assigned? = some x) : 2 ≤ cs.length := by
  rcases cs with _ | ⟨target, _ | ⟨value, rest⟩⟩
  · cases hx
  · cases hx
  · simp

theorem Hereditary.children {P : Node → Prop} (hP : Hereditary P) {n : Node} (hn : P n) :
    ∀ c ∈ n.children, P c := by
  cases n with
  | absent => exact fun _ hc => absurd hc List.not_mem_nil
  | mk h cs fs b => exact hP.operands hn

theorem Hereditary.inherited {P : Node → Prop} (hP : Hereditary P) : Inherited P :=
  ⟨fun hn _ => hP.operands hn, hP.components⟩

/-- A chain puts nothing around what is in it. -/
theorem Node.Writes.encloses {h : Head} {cs fs b c} (hw : (Node.mk h cs fs b).Writes c) :
    h.kind.encloses = false := by
  cases hw with
  | name hk => rw [hk]; rfl
  | built hk => rcases hk with hk | hk <;> rw [hk] <;> rfl
  | access hk _ _ => rcases hk with hk | hk <;> rw [hk] <;> rfl

namespace Inherited

variable {P : Node → Prop} (hP : Inherited P)

include hP

theorem children {n : Node} (hn : P n) {kind : Kind} (hk : n.kind? = some kind)
    (hinside : kind.encloses = false) : ∀ c ∈ n.children, P c := by
  cases n with
  | absent => cases hk
  | mk h cs fs b => exact hP.operands hn (Option.some.inj hk ▸ hinside)

theorem pair {h : Head} {left right rest fs b} (hn : P (.mk h (left :: right :: rest) fs b))
    (hk : h.kind.encloses = false) : P left ∧ P right :=
  ⟨hP.operands hn hk left (by simp), hP.operands hn hk right (by simp)⟩

/-- What stands at the end of a chain is in the chain. -/
theorem tail {n tail : Node} {path} (hn : P n) (hchain : n.chain? = some ⟨path, some tail⟩) :
    P tail := by
  have hw := Node.chain?_eq_some_iff.1 hchain
  rcases hw.end_cases with ⟨rfl, -⟩ | ⟨_, _, _, _, _, rfl, -⟩
  · exact hn
  · exact (hP.pair hn hw.encloses).2

end Inherited

namespace Analysis

variable {α β : Type} {below : ExprRule} {P : Node → Prop}

/-- The variable with a name has a value. -/
def State.marked (s : State) (name : Ident) : State :=
  { s with table := s.table.modify name .withValue }

/-! ## Steps that only report -/

/-- Findings were added, and nothing else was changed. That an operand is missing is reported only if
a node that `P` holds of lacks one. -/
def State.Notes (P : Node → Prop) (s s' : State) : Prop :=
  ∃ fs : List Finding, (∀ f ∈ fs, f.cause.isMissing → Gap P) ∧
    s' = { s with findings := s.findings ++ fs }

theorem State.Notes.refl (s : State) : s.Notes P s := ⟨[], List.forall_mem_nil _, by simp⟩

theorem State.Notes.trans {s₁ s₂ s₃ : State} (h : s₁.Notes P s₂) (h' : s₂.Notes P s₃) :
    s₁.Notes P s₃ := by
  obtain ⟨fs, hfs, rfl⟩ := h
  obtain ⟨fs', hfs', rfl⟩ := h'
  exact ⟨fs ++ fs', List.forall_mem_append.2 ⟨hfs, hfs'⟩, by simp⟩

theorem State.Notes.table {s s' : State} (h : s.Notes P s') : s'.table = s.table := by
  obtain ⟨fs, -, rfl⟩ := h
  rfl

/-- A step that only reports, and not that an operand is missing. -/
def Quiet (m : Analysis α) : Prop := ∀ ⦃P : Node → Prop⦄ (s : State), s.Notes P (m s).2

namespace Quiet

variable {m : Analysis α} {f : α → Analysis β}

theorem pure (a : α) : Quiet (Pure.pure a) := fun _ => State.Notes.refl

theorem bind (hm : Quiet m) (hf : ∀ a, Quiet (f a)) : Quiet (m >>= f) :=
  fun _ s => (hm s).trans (hf _ _)

theorem symbols {f : Symbols → Analysis β} (hf : ∀ t, Quiet (f t)) :
    Quiet (Analysis.symbols >>= f) := fun _ s => hf _ s

theorem report (loc : Location) (cause : Cause) (h : cause.isMissing = false) :
    Quiet (Analysis.report loc cause) :=
  fun _ _ => ⟨[⟨loc, cause⟩], List.forall_mem_singleton.2 (by simp [h]), rfl⟩

theorem report_pure (loc : Location) (cause : Cause) (a : α)
    (h : cause.isMissing = false) : Quiet (do Analysis.report loc cause; return a) :=
  (report loc cause h).bind fun _ => .pure a

theorem run (hm : Quiet m) (s : State) :
    ∃ fs, (m s).2 = { s with findings := s.findings ++ fs } := by
  obtain ⟨fs, -, hfs⟩ := hm (P := fun _ => True) s
  exact ⟨fs, hfs⟩

theorem table (hm : Quiet m) (s : State) : (m s).2.table = s.table :=
  State.Notes.table (hm (P := fun _ => True) s)

end Quiet

/-- What a check reports is not that an operand is missing. -/
theorem State.notes_reports (s : State) (P : Node → Prop) : Reports fun _ => s.Notes P where
  fault loc cause hc hs := by
    have hpresent : cause.isMissing = false := by simp_all [Cause.isFault]
    exact hs.trans (Quiet.report loc cause hpresent _)
  warning loc cause hc hs := by
    have hpresent : cause.isMissing = false := by
      unfold Cause.isMissing
      split
      · cases hc
      · rfl
    exact hs.trans (Quiet.report loc cause hpresent _)

theorem Quiet.of_check {before : Bool} {m} {ok : α → Bool} {Q : α → Prop}
    (h : ∀ {I : Bool → State → Prop}, Reports I → Judges I before m ok Q) : Quiet m :=
  fun P s => (h (s.notes_reports P) s (.refl s)).1

/-! ## Steps that go through their parts -/

variable (below P) in
/-- From one state to another through tasks, all of which are expressions that `P` holds of. Between
them findings are added. -/
inductive Through : State → List Task → State → Prop
  | done {s s' : State} (notes : s.Notes P s') : Through s [] s'
  | task {s s₁ s' : State} {n expected ts} (hn : P n)
      (notes : s.Notes P s₁) (rest : Through (below n expected s₁).2 ts s') :
    Through s (.expr n expected s₁ :: ts) s'

namespace Through

variable {s s₁ s' : State} {ts ts' : List Task}

theorem notes_left (h : s.Notes P s₁) (hts : Through below P s₁ ts s') : Through below P s ts s' := by
  cases hts with
  | done notes => exact .done (h.trans notes)
  | task hn notes rest => exact .task hn (h.trans notes) rest

theorem append (h : Through below P s ts s₁) (h' : Through below P s₁ ts' s') :
    Through below P s (ts ++ ts') s' := by
  induction h with
  | done notes => exact h'.notes_left notes
  | task hn notes _ ih => exact .task hn notes (ih h')

end Through

/-- What reporting keeps and the tasks keep holds wherever a task is come to. -/
theorem Through.stable {I : State → Prop} (hI : Stable I)
    (hb : ∀ n expected, Ensures I (below n expected) fun _ => True) {s s' ts}
    (h : Through below P s ts s') (hs : I s) :
    I s' ∧ ∀ t ∈ ts, ∃ n expected s₁, t = .expr n expected s₁ ∧ P n ∧ I s₁ := by
  have hnotes : ∀ {s s' : State}, s.Notes P s' → I s → I s' := by
    rintro s _ ⟨fs, -, rfl⟩ hs
    induction fs generalizing s with
    | nil => simpa using hs
    | cons f fs ih => simpa using ih (hI.report f hs)
  induction h with
  | done notes => exact ⟨hnotes notes hs, List.forall_mem_nil _⟩
  | @task s s₁ s' n expected ts hn notes _ ih =>
    have hs₁ := hnotes notes hs
    obtain ⟨hs', hts⟩ := ih (hb n expected s₁ hs₁).1
    exact ⟨hs', List.forall_mem_cons.2 ⟨⟨n, expected, s₁, rfl, hn, hs₁⟩, hts⟩⟩

variable (below P) in
/-- A step goes through its parts, from whatever state. -/
def Yields (m : Analysis α) (ps : Parts) : Prop := ∀ s, Through below P s (ps s) (m s).2

theorem below_yields {n} (hn : P n) (expected : Ty) :
    Yields below P (below n expected) (.expr n expected) :=
  fun s => .task hn (.refl s) (.done (.refl _))

/-- That an operand is missing is reported for a node that lacks one. -/
theorem missing_yields (hgap : Gap P) (loc : Location) (a : α) :
    Yields below P (do report loc (.defect .missingOperand); return a) .none :=
  fun _ => .done ⟨[_], fun _ _ _ => hgap, rfl⟩

theorem missingOperand_yields (hgap : Gap P) (loc : Location) (cs : List Node) (failed : α) :
    Yields below P (missingOperand loc cs failed) .none := missing_yields hgap loc _

end Analysis

end TreeSema
