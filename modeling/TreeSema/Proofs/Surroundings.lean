import TreeSema.Proofs.Needs.Run
import TreeSema.Proofs.Respect

/-!
# The context of a scope mirrors the text around it

Around a node of a module stand functions, loops and unsafe blocks. Whenever analysis comes to a node,
the innermost open scope and the functions that are open say just which: whether unsafe operations are
allowed, whether a function is around the node, whether a loop is around it in the innermost function,
and what the functions return. So a jump is reported just if no loop of its function is around it, and
a return just if no function is.

* `Frame`, `Lies`: what stands around a node, by the text alone.
* `placedMoments`: the moments of a run over a module, with what is put around the node on the way.
* `Task.parts_stand`: what a task leaves stands where the text says, if the task does.
* `surroundings_mirrored`: so does everything that a run comes to.
-/
namespace TreeSema

/-- What can stand around a node in a module. -/
inductive Frame where
  | function (isUnsafe : Bool) (result : Ty)
  | loop
  | unsafeBlock

namespace Frame

def isUnsafe : Frame → Bool
  | function isUnsafe _ => isUnsafe
  | loop => false
  | unsafeBlock => true

def isLoop : Frame → Bool
  | loop => true
  | _ => false

/-- What a function returns. -/
def result? : Frame → Option Ty
  | function _ result => some result
  | _ => none

def isFunction (f : Frame) : Bool := f.result?.isSome

end Frame

/-- Is there a loop around a node in the innermost function around it? -/
def inLoop (frames : List Frame) : Bool := (frames.takeWhile (!·.isFunction)).any Frame.isLoop

/-- What a node puts around the statements in it. -/
def Node.frames (n : Node) : List Frame :=
  match n.kind? with
  | some .funcDef => [.function n.head.isUnsafe n.head.type]
  | some .unsafeBlock => [.unsafeBlock]
  | some .whileLoop | some .loop => [.loop]
  | _ => []

/-- Among the statements `ns` of a module, and in no module inside it, the given node has the given
frames around it, the innermost first. The condition of a loop stands outside the loop. -/
inductive Lies (ns : List Node) : List Frame → Node → Prop
  | top {n} (hn : n ∈ ns) : Lies ns [] n
  | operand {frames} {h : Head} {cs fs b n}
      (outer : Lies ns frames (.mk h cs fs b)) (hk : h.kind.encloses = false)
      (hn : n ∈ cs) : Lies ns frames n
  | component {frames} {h : Head} {cs fs b} {f : Component Node}
      (outer : Lies ns frames (.mk h cs fs b))
      (hk : h.kind = .call ∨ h.kind = .lit) (hf : f ∈ fs) : Lies ns frames f.value
  | function {frames} {h : Head} {cs fs} {b n : Node}
      (outer : Lies ns frames (.mk h cs fs b)) (hk : h.kind = .funcDef)
      (hn : n ∈ b.children) : Lies ns (.function h.isUnsafe h.type :: frames) n
  | unsafeBlock {frames} {h : Head} {cs fs b n}
      (outer : Lies ns frames (.mk h cs fs b)) (hk : h.kind = .unsafeBlock)
      (hn : n ∈ cs) : Lies ns (.unsafeBlock :: frames) n
  | condition {frames} {h : Head} {rest fs b n}
      (outer : Lies ns frames (.mk h (n :: rest) fs b)) (hk : h.kind = .whileLoop) :
    Lies ns frames n
  | loopBody {frames} {h : Head} {skipped fs b n}
      (outer : Lies ns frames (.mk h (skipped ++ [n]) fs b))
      (hk : h.kind = .loop ∨ h.kind = .whileLoop ∧ skipped ≠ []) : Lies ns (.loop :: frames) n

theorem lies_inherited (ns : List Node) (frames : List Frame) : Inherited (Lies ns frames) :=
  ⟨fun hn hk _ hc => .operand hn hk hc, fun hn hk _ hf => .component hn hk hf⟩

namespace Lies

variable {ns : List Node} {frames : List Frame} {n : Node}

/-- The statements of a block stand where the block does. -/
theorem block (h : Lies ns frames n) (hk : n.kind? = some .block) :
    ∀ c ∈ n.children, Lies ns frames c :=
  (lies_inherited ns frames).children h hk rfl

theorem loopNodes (h : Lies ns frames n) : ∀ c ∈ Analysis.loopNodes n, Lies ns frames c := by
  unfold Analysis.loopNodes
  split
  · rename_i hk
    exact h.block hk
  · exact List.forall_mem_singleton.2 h

end Lies

namespace Analysis

variable {cfg : Config} {schedule : Schedule} {P : Node → Prop} {s s' s₁ : State} {ts : List Task}
  {k : Nat} {ns : List Node} {frames : List Frame}

/-! ## What is open -/

/-- Expressions leave open what is open. -/
theorem Through.sameOpen (h : Through (exprAt cfg k) P s ts s') (hs : s.table.Sound) :
    s.SameOpen s' ∧ ∀ t ∈ ts, ∃ n expected s₁, t = .expr n expected s₁ ∧ P n ∧ s.SameOpen s₁ :=
  h.stable (sameOpen_stable s)
    (fun n expected => exprAt_relates (sameOpen_stable s) (trivial_rewriting _) cfg k n expected)
    (.refl hs)

/-- The statements of a body are come to with the same scopes and functions open. -/
theorem bodyParts_sameOpen {nodes} (hs : s.table.Sound) :
    ∀ t ∈ bodyParts cfg (belowAt cfg schedule k) nodes s,
      ∃ run n s₁, t = .stmt run n s₁ ∧ n ∈ nodes ∧ s.SameOpen s₁ := by
  have hslots : ∀ (slots : List (Option ModuleRun × Node)) {s : State}, s.table.Sound →
      (∀ slot ∈ slots, AheadOf (belowAt cfg schedule k) slot) →
      ∀ t ∈ statementsParts (belowAt cfg schedule k) slots s,
        ∃ run n s₁, t = .stmt run n s₁ ∧ (run, n) ∈ slots ∧ s.SameOpen s₁ := by
    intro slots
    induction slots with
    | nil => exact fun _ _ => List.forall_mem_nil _
    | cons slot rest ih =>
      intro s hs hahead
      obtain ⟨hslot, hrest⟩ := List.forall_mem_cons.1 hahead
      refine List.forall_mem_append.2 ⟨List.forall_mem_singleton.2 ?_, fun t ht => ?_⟩
      · exact ⟨slot.1, slot.2, s, rfl, .head _, .refl hs⟩
      · have hafter : s.SameOpen (stmtAt cfg schedule k slot.1 slot.2 s).2 :=
          Task.after_sameOpen (P := fun _ => True) (t := .stmt slot.1 slot.2 s) ⟨trivial, hslot⟩ hs
        obtain ⟨run, n, s₁, rfl, hmem, hsame⟩ := ih hafter.sound hrest t ht
        exact ⟨run, n, s₁, rfl, .tail _ hmem, hafter.trans hsame⟩
  intro t ht
  obtain ⟨run, n, s₁, rfl, hmem, hsame⟩ :=
    hslots _ hs (lookAhead_aheadOf cfg (belowAt cfg schedule k) nodes) t ht
  exact ⟨run, n, s₁, rfl, mem_of_lookAhead hmem, hsame⟩

/-! ## What the innermost scope says -/

/-- The innermost scope and the open functions say what is around a node. -/
structure Mirrors (frames : List Frame) (s : State) : Prop where
  safety : s.table.context.safety = if frames.any Frame.isUnsafe then .unsafely else .safe
  inFunction : s.table.context.inFunction = frames.any Frame.isFunction
  inLoop : s.table.context.inLoop = inLoop frames
  returns : s.returns = frames.filterMap Frame.result?

namespace Mirrors

theorem start : Mirrors [] {} := ⟨rfl, rfl, rfl, rfl⟩

theorem of_sameOpen (h : Mirrors frames s) (hs : s.SameOpen s') : Mirrors frames s' := by
  obtain ⟨safety, inFunction, inLoop, returns⟩ := h
  have hcontext : s'.table.context = s.table.context := Table.context_of_contexts hs.contexts
  exact ⟨hcontext ▸ safety, hcontext ▸ inFunction, hcontext ▸ inLoop, hs.returns.trans returns⟩

/-- A block stands in the function and the loop of the scope around it. -/
theorem block (h : Mirrors frames s) :
    Mirrors frames { s with table := s.table.enter { s.table.context with safety := .inherited } } :=
  ⟨h.safety, h.inFunction, h.inLoop, h.returns⟩

theorem unsafeBlock (h : Mirrors frames s) : Mirrors (.unsafeBlock :: frames)
    { s with table := s.table.enter { s.table.context with safety := .unsafely } } :=
  ⟨rfl, h.inFunction, h.inLoop, h.returns⟩

theorem loop (h : Mirrors frames s) : Mirrors (.loop :: frames)
    { s with table := s.table.enter (loopContext s) } :=
  ⟨h.safety, h.inFunction, rfl, h.returns⟩

/-- In the body of a function no loop around the function counts. -/
theorem function (h : Head) (hm : Mirrors frames s) :
    Mirrors (.function h.isUnsafe h.type :: frames)
      { s with table := s.table.enter (functionContext h), returns := h.type :: s.returns } where
  safety := by
    have hsafety := hm.safety
    unfold functionContext
    cases h.isUnsafe with
    | true => rfl
    | false => exact hsafety
  inFunction := rfl
  inLoop := rfl
  returns := congrArg (h.type :: ·) hm.returns

end Mirrors

/-- The body of a function starts with the function open, and with nothing else that was not. -/
theorem functionStart_sameOpen {h : Head} (hk : h.kind = .funcDef)
    (hfree : s.table.lookup h.name = none) (hs : s.table.Sound) : ∃ s₁, s.SameOpen s₁ ∧
      State.SameOpen { s₁ with table := s₁.table.enter (functionContext h)
                               returns := h.type :: s₁.returns } (functionStart h s) := by
  have hmoves : Moves (belowAt {} .written 0) (fun _ => True) s [] _ :=
    declareFunction_moves hk hfree (functionFlags h .plain)
  have hdeclared := (hmoves.sameOpen hs).1
  refine ⟨_, hdeclared, ?_⟩
  unfold functionStart
  generalize declareFunction h (functionFlags h .plain) s = declared at hdeclared
  have hbinds : Moving (belowAt {} .written 0) (fun _ => True)
      (bindFormals (declared.1.zip (h.params.map (·.loc)))) .none := bindFormals_moving _
  have hbound := ((hbinds { declared.2 with
    table := declared.2.table.enter (functionContext h) }).sameOpen (hdeclared.sound.enter _)).1
  exact ⟨hbound.sound, hbound.contexts, congrArg (h.type :: ·) hbound.returns⟩

/-! ## Parts of tasks -/

variable (ns frames) in
/-- A task is come to where the text says that its node stands. -/
structure Task.Stands (t : Task) : Prop where
  lies : Lies ns frames t.node
  sound : t.state.table.Sound
  mirrors : Mirrors frames t.state

def Task.isStmt : Task → Bool
  | .stmt .. => true
  | .expr .. => false

/-- What a task puts around one that it leaves. Around an expression nothing is put. -/
def Task.opens (t t' : Task) : List Frame := if t.isStmt && t'.isStmt then t.node.frames else []

theorem Task.opens_of_stmt (run : Option ModuleRun) (n : Node) (s : State) (t' : Task) :
    (Task.stmt run n s).opens t' = if t'.isStmt then n.frames else [] := rfl

theorem Task.opens_of_expr (t : Task) {t' : Task} (h : t'.isStmt = false) : t.opens t' = [] := by
  simp [opens, h]

/-- The statements of a body stand where the body starts. -/
theorem bodyParts_stand {nodes} (hnodes : ∀ n ∈ nodes, Lies ns frames n) (hs : s.table.Sound)
    (hm : Mirrors frames s) :
    ∀ t ∈ bodyParts cfg (belowAt cfg schedule k) nodes s,
      t.isStmt = true ∧ t.Stands ns frames := by
  intro t ht
  obtain ⟨run, n, s₁, rfl, hn, hsame⟩ := bodyParts_sameOpen hs t ht
  exact ⟨rfl, hnodes n hn, hsame.sound, hm.of_sameOpen hsame⟩

/-- Expressions stand where they are left. -/
theorem Through.stand (h : Through (exprAt cfg k) (Lies ns frames) s ts s') (hs : s.table.Sound)
    (hm : Mirrors frames s) : ∀ t ∈ ts, t.isStmt = false ∧ t.Stands ns frames := by
  intro t ht
  obtain ⟨n, expected, s₁, rfl, hn, hsame⟩ := (h.sameOpen hs).2 t ht
  exact ⟨rfl, hn, hsame.sound, hm.of_sameOpen hsame⟩

/-- An operand alone. -/
theorem firstPart_stand {cs} (hcs : ∀ c ∈ cs, Lies ns frames c) (expected : Ty) (hs : s.table.Sound)
    (hm : Mirrors frames s) :
    ∀ t ∈ firstPart expected cs s, t.isStmt = false ∧ t.Stands ns frames := by
  cases cs with
  | nil => exact List.forall_mem_nil _
  | cons c rest =>
    exact List.forall_mem_singleton.2 ⟨rfl, hcs c (.head _), hs, hm⟩

variable (cfg k) in
theorem exprOf_sameOpen (type : Ty) (n : Node) (hs : s.table.Sound) :
    s.SameOpen (exprOf (exprAt cfg k) type n s).2 :=
  (exprOf_relates (sameOpen_stable s) (trivial_rewriting _)
    (exprAt_relates (sameOpen_stable s) (trivial_rewriting _) cfg k)
    type n s (.refl hs)).1

theorem variableParts_stand (h : Head) (storage : Storage) {cs} (hcs : ∀ c ∈ cs, Lies ns frames c)
    (hs : s.table.Sound) (hm : Mirrors frames s) :
    ∀ t ∈ variableParts h storage cs s, t.isStmt = false ∧ t.Stands ns frames := by
  unfold variableParts Parts.following Parts.andThen
  rcases redefined_run h.name h.loc s with ⟨-, hrun⟩ | ⟨e, -, hrun⟩
  · rw [hrun]
    simp only [Bool.false_eq_true, if_false, Parts.none, List.nil_append]
    split
    · exact firstPart_stand hcs _ hs hm
    · have hchecked := (checkType_quiet (P := fun _ => True) h.loc h.type s).sameOpen hs
      have hbound := hchecked.trans (.insert hchecked.sound h.name
        ⟨h.type, h.mutable && storage != .constant, storage, storage == .static⟩ h.loc)
      exact firstPart_stand hcs _ hbound.sound (hm.of_sameOpen hbound)
  · rw [hrun]
    exact List.forall_mem_nil _

/-- The branches of a conditional stand where it does. -/
theorem branchesParts_stand {cs} (hcs : ∀ c ∈ cs, Lies ns frames c) (hs : s.table.Sound)
    (hm : Mirrors frames s) :
    ∀ t ∈ branchesParts cfg (belowAt cfg schedule k) cs s,
      t.isStmt = true ∧ t.Stands ns frames := by
  induction cs generalizing s with
  | nil => exact List.forall_mem_nil _
  | cons n rest ih =>
    obtain ⟨hn, hrest⟩ := List.forall_mem_cons.1 hcs
    refine List.forall_mem_append.2 ⟨?_, ?_⟩
    · unfold branchParts
      split
      · rename_i hblock
        exact bodyParts_stand (hn.block hblock) hs hm
      · exact List.forall_mem_singleton.2 ⟨rfl, hn, hs, hm⟩
    · have hmoves : Moving (belowAt cfg schedule k) (fun _ => True) (branch cfg _ n) _ :=
        branch_moving hereditary_true trivial
      have hbranch := ((hmoves s).sameOpen hs).1
      exact ih hrest hbranch.sound (hm.of_sameOpen hbranch)

/-- The statements of the body of a loop stand in the loop. -/
theorem loopBodyParts_stand {n} (hn : Lies ns (.loop :: frames) n) (skipped : List Node)
    (hs : s.table.Sound) (hm : Mirrors frames s) :
    ∀ t ∈ loopBodyParts cfg (belowAt cfg schedule k) (skipped ++ [n]) s,
      t.isStmt = true ∧ t.Stands ns (.loop :: frames) := by
  induction skipped with
  | nil => exact bodyParts_stand hn.loopNodes (hs.enter _) hm.loop
  | cons c rest ih =>
    obtain ⟨m, more, hmore⟩ : ∃ m more, rest ++ [n] = m :: more := by
      cases rest with
      | nil => exact ⟨n, [], rfl⟩
      | cons m more => exact ⟨m, more ++ [n], rfl⟩
    have hskips : loopBodyParts cfg (belowAt cfg schedule k) (c :: m :: more)
        = loopBodyParts cfg (belowAt cfg schedule k) (m :: more) := rfl
    rw [List.cons_append, hmore, hskips, ← hmore]
    exact ih

theorem loopParts_stand {h : Head} {cs fs b} (hn : Lies ns frames (.mk h cs fs b))
    (hk : h.kind = .whileLoop ∨ h.kind = .loop) (hs : s.table.Sound) (hm : Mirrors frames s) :
    ∀ t ∈ loopParts cfg (belowAt cfg schedule k) h cs s,
      t.Stands ns ((if t.isStmt then [.loop] else []) ++ frames) := by
  have hinside : ∀ {s : State}, s.table.Sound → Mirrors frames s → ∀ skipped n,
      (∃ front, cs = front ++ skipped ++ [n] ∧
        (h.kind = .loop ∨ h.kind = .whileLoop ∧ front ++ skipped ≠ [])) →
      ∀ t ∈ loopBodyParts cfg (belowAt cfg schedule k) (skipped ++ [n]) s,
        t.Stands ns ((if t.isStmt then [.loop] else []) ++ frames) := by
    rintro s hs hm skipped n ⟨front, rfl, hkind⟩ t ht
    obtain ⟨hstmt, hstands⟩ := loopBodyParts_stand (.loopBody hn hkind) skipped hs hm t ht
    rw [hstmt]
    exact hstands
  cases cs with
  | nil => exact List.forall_mem_nil _
  | cons first rest =>
    unfold loopParts
    split
    · rename_i hwhile
      refine List.forall_mem_append.2 ⟨List.forall_mem_singleton.2 ?_, ?_⟩
      · exact ⟨.condition hn hwhile, hs, hm⟩
      · have hcondition := exprOf_sameOpen cfg k (.basic .bool) first hs
        rcases List.eq_nil_or_concat' rest with rfl | ⟨skipped, n, rfl⟩
        · exact List.forall_mem_nil _
        · exact hinside hcondition.sound (hm.of_sameOpen hcondition) skipped n
            ⟨[first], by simp, .inr ⟨hwhile, by simp⟩⟩
    · rename_i hwhile
      obtain ⟨skipped, n, hcs⟩ := (List.eq_nil_or_concat' (first :: rest)).resolve_left (by simp)
      have hbody := hinside hs hm skipped n ⟨[], hcs, .inl (hk.resolve_left hwhile)⟩
      rwa [← hcs] at hbody

/-- An expression goes through its parts, up to the mark of an assignment. -/
theorem exprParts_through (hP : Inherited P) (below : ExprRule) (expected : Ty) {n} (hn : P n)
    (s : State) : ∃ s₁, Through below P s (exprParts below expected n s) s₁ := by
  by_cases hk : n.kind? = some .assign
  · cases n with
    | absent => cases hk
    | mk h cs fs b =>
      have hassign : h.kind = .assign := Option.some.inj hk
      have hgap : cs.length < 2 → Gap P := fun hlacks =>
        ⟨_, hn, fun hsupplied => absurd (hsupplied.arity hk) (Nat.not_le.2 hlacks)⟩
      obtain ⟨s₁, hthrough, -⟩ := assign_through below hP hassign
        (hP.operands hn (hassign ▸ rfl)) hgap fs b s
      refine ⟨s₁, ?_⟩
      simpa only [exprParts, hassign] using hthrough
  · exact ⟨_, exprStep_yields hP expected hn hk s⟩

variable (cfg k) in
theorem exprParts_stand {n} (hn : Lies ns frames n) (expected : Ty) (hs : s.table.Sound)
    (hm : Mirrors frames s) : ∀ t ∈ exprParts (exprAt cfg k) expected n s,
      t.isStmt = false ∧ t.Stands ns frames := by
  obtain ⟨s₁, hthrough⟩ := exprParts_through (lies_inherited ns frames) (exprAt cfg k) expected hn s
  exact hthrough.stand hs hm

/-- What a task leaves stands where the text says, if the task does. -/
theorem Task.parts_stand {t : Task} (h : t.Stands ns frames) :
    ∀ t' ∈ t.parts cfg (belowAt cfg schedule k), t'.Stands ns (t.opens t' ++ frames) := by
  obtain ⟨hn, hs, hm⟩ := h
  have hexprs : ∀ {ts : List Task}, (∀ t' ∈ ts, t'.isStmt = false ∧ t'.Stands ns frames) →
      ∀ t' ∈ ts, t'.Stands ns (t.opens t' ++ frames) := by
    intro ts hts t' ht'
    obtain ⟨hexpr, hstands⟩ := hts t' ht'
    rwa [t.opens_of_expr hexpr]
  cases t with
  | expr n expected s => exact hexprs (exprParts_stand cfg k hn expected hs hm)
  | stmt run n s =>
    have hstmts : ∀ {ts : List Task} (opened : List Frame), n.frames = opened →
        (∀ t' ∈ ts, t'.isStmt = true ∧ t'.Stands ns (opened ++ frames)) →
        ∀ t' ∈ ts, t'.Stands ns ((Task.stmt run n s).opens t' ++ frames) := by
      intro ts opened hopened hts t' ht'
      obtain ⟨hstmt, hstands⟩ := hts t' ht'
      rwa [opens_of_stmt, hstmt, if_pos rfl, hopened]
    cases n with
    | absent => exact List.forall_mem_nil _
    | mk h cs fs b =>
      have hcs : h.kind.encloses = false → ∀ c ∈ cs, Lies ns frames c :=
        (lies_inherited ns frames).operands hn
      have hloop : h.kind = .whileLoop ∨ h.kind = .loop →
          ∀ t' ∈ loopParts cfg (belowAt cfg schedule k) h cs s,
            t'.Stands ns ((if t'.isStmt then [.loop] else []) ++ frames) :=
        fun hk => loopParts_stand hn hk hs hm
      dsimp only [Task.parts, stmtParts]
      cases hk : h.kind with
      | funcDef =>
        refine hstmts [.function h.isUnsafe h.type]
          (by simp [Node.frames, Node.kind?, hk, Node.head]) ?_
        dsimp only [functionParts]
        split
        · exact List.forall_mem_nil _
        · rename_i hopen
          have hfree : s.table.lookup h.name = none := by
            cases hlookup : s.table.lookup h.name with
            | none => rfl
            | some e => simp [hlookup] at hopen
          obtain ⟨s₁, hdeclared, hstart⟩ := functionStart_sameOpen hk hfree hs
          exact bodyParts_stand (fun c hc => .function hn hk hc) hstart.sound
            (((hm.of_sameOpen hdeclared).function h).of_sameOpen hstart)
      | varDef | staticDef | constDef => exact hexprs (variableParts_stand h _ (hcs (hk ▸ rfl)) hs hm)
      | block =>
        refine hstmts [] (by simp [Node.frames, Node.kind?, hk]) ?_
        exact bodyParts_stand (hcs (hk ▸ rfl)) (hs.enter _) hm.block
      | unsafeBlock =>
        refine hstmts [.unsafeBlock] (by simp [Node.frames, Node.kind?, hk]) ?_
        exact bodyParts_stand (fun c hc => .unsafeBlock hn hk hc) (hs.enter _) hm.unsafeBlock
      | ifThen =>
        cases cs with
        | nil => exact List.forall_mem_nil _
        | cons condition rest =>
          obtain ⟨hcondition, hrest⟩ := List.forall_mem_cons.1 (hcs (hk ▸ rfl))
          have hchecked := exprOf_sameOpen cfg k (.basic .bool) condition hs
          refine List.forall_mem_append.2 ⟨hexprs (List.forall_mem_singleton.2 ?_), ?_⟩
          · exact ⟨rfl, hcondition, hs, hm⟩
          · refine hstmts [] (by simp [Node.frames, Node.kind?, hk]) ?_
            exact branchesParts_stand hrest hchecked.sound (hm.of_sameOpen hchecked)
      | whileLoop =>
        have hframes : (Node.mk h cs fs b).frames = [.loop] := by simp [Node.frames, Node.kind?, hk]
        rw [← hframes] at hloop
        exact hloop (.inl hk)
      | loop =>
        have hframes : (Node.mk h cs fs b).frames = [.loop] := by simp [Node.frames, Node.kind?, hk]
        rw [← hframes] at hloop
        exact hloop (.inr hk)
      | returnValue =>
        refine hexprs ?_
        dsimp only [returnParts]
        split
        · exact firstPart_stand (hcs (hk ▸ rfl)) _ hs hm
        · exact List.forall_mem_nil _
      | assign =>
        have hparts := exprParts_stand cfg k (n := .mk h cs fs b) hn .unknown hs hm
        simp only [exprParts, hk] at hparts
        exact hexprs hparts
      | moduleDef | structDef | unionDef | enumDef | variantDef | externBlock | aliasDef | breakLoop
      | continueLoop | program => exact List.forall_mem_nil _
      | _ => exact hexprs (List.forall_mem_singleton.2 ⟨rfl, hn, hs, hm⟩)

/-! ## Jumps and returns -/

/-- Among what a step adds to the findings, none is about a return outside a function. -/
def Returnless {α : Type} (m : Analysis α) : Prop :=
  ∀ s, ∃ found, (m s).2.findings = s.findings ++ found ∧ ∀ f ∈ found, f.cause ≠ .outsideFunction

namespace Returnless

variable {α β : Type} {m : Analysis α} {f : α → Analysis β}

theorem of_findings (h : ∀ s, (m s).2.findings = s.findings) : Returnless m :=
  fun s => ⟨[], by rw [h, List.append_nil], List.forall_mem_nil _⟩

theorem pure (a : α) : Returnless (Pure.pure a) := of_findings fun _ => rfl

theorem bind (hm : Returnless m) (hf : ∀ a, Returnless (f a)) : Returnless (m >>= f) := by
  intro s
  obtain ⟨found, hfound, hnone⟩ := hm s
  obtain ⟨more, hmore, hnone'⟩ := hf (m s).1 (m s).2
  refine ⟨found ++ more, ?_, List.forall_mem_append.2 ⟨hnone, hnone'⟩⟩
  rw [bind_apply, hmore, hfound, List.append_assoc]

/-- Nothing need be said of a second step. -/
theorem respected : Respected Eq fun _ m _ => Returnless m := by
  refine .of_same pure bind (of_findings fun _ => rfl) fun loc cause hcause s => ?_
  refine ⟨[⟨loc, cause⟩], rfl, List.forall_mem_singleton.2 ?_⟩
  rintro rfl
  cases hcause

/-- There is no return in an expression. -/
theorem exprAt (cfg : Config) : ∀ (k : Nat) (n : Node) (expected : Ty),
    Returnless (Analysis.exprAt cfg k n expected)
  | 0, n, expected => by
    intro s
    change ∃ found, (refuse cfg n.loc s).2.findings = _ ∧ _
    unfold refuse
    rw [bind_apply, get_apply]
    cases s.depthReported with
    | true => exact ⟨[], (List.append_nil _).symm, List.forall_mem_nil _⟩
    | false => exact ⟨[⟨n.loc, .tooDeep cfg.depthLimit⟩], rfl, List.forall_mem_singleton.2 nofun⟩
  | k + 1, n, expected => by
    have hbelow := exprAt cfg k
    have hassign := @Respected.assignName _ (Analysis.exprAt cfg k) (Analysis.exprAt cfg k) respected
      (fun _ => of_findings fun _ => rfl) hbelow
    exact @Respected.exprStep _ _ respected (Analysis.exprAt cfg k) (Analysis.exprAt cfg k) hbelow
      hassign expected n

theorem exprOf (cfg : Config) (k : Nat) (type : Ty) (n : Node) :
    Returnless (Analysis.exprOf (Analysis.exprAt cfg k) type n) := by
  refine (exprAt cfg k n type).bind fun ⟨n', actual⟩ => ?_
  cases actual with
  | none => exact pure _
  | some actual => exact bind (respected.accepts _ _ _) fun _ => pure _

end Returnless

/-- A jump is reported outside a loop, and nothing else is done. -/
theorem jump_run (h : Head) (s : State) : (jump h s).2.findings =
    s.findings ++ if s.table.context.inLoop then [] else [⟨h.loc, .outsideLoop h.kind⟩] := by
  unfold jump
  rw [bind_apply, symbols_apply]
  cases s.table.context.inLoop with
  | true => exact (List.append_nil _).symm
  | false => rfl

/-- A return outside a function is reported, and its value is left alone. -/
theorem returnStmt_outside (below : ExprRule) (h : Head) (cs : List Node)
    (hs : s.table.context.inFunction = false) :
    (returnStmt below h cs s).2.findings = s.findings ++ [⟨h.loc, .outsideFunction⟩] := by
  unfold returnStmt
  rw [bind_apply, get_apply, bind_apply, symbols_apply]
  dsimp only
  rw [hs]
  cases s.returns <;> rfl

/-- In a function a return is not reported, whatever is said of its value. -/
theorem returnStmt_inside (h : Head) (cs : List Node) {result outer}
    (hs : s.table.context.inFunction = true) (hreturns : s.returns = result :: outer) :
    ∃ found, (returnStmt (exprAt cfg k) h cs s).2.findings = s.findings ++ found ∧
      ∀ f ∈ found, f.cause ≠ .outsideFunction := by
  unfold returnStmt
  rw [bind_apply, get_apply, bind_apply, symbols_apply]
  dsimp only
  rw [hs, hreturns]
  cases cs with
  | nil =>
    have haccepts := Returnless.respected.accepts result .unit h.loc
    exact (haccepts.bind fun _ => .pure _) s
  | cons value rest => exact ((Returnless.exprOf cfg k result value).bind fun _ => .pure _) s

/-! ## Whole runs -/

variable (cfg schedule) in
/-- The moments of a task, each with what stands around it. -/
def Task.placed : Nat → List Frame → Task → List (List Frame × Moment)
  | 0, frames, t => [(frames, ⟨0, t⟩)]
  | k + 1, frames, t => (frames, ⟨k + 1, t⟩) ::
      (t.parts cfg (belowAt cfg schedule k)).flatMap fun t' => placed k (t.opens t' ++ frames) t'

variable (cfg schedule) in
/-- The moments of the analysis of the statements of a module, each with what stands around it. -/
def placedMoments (k : Nat) (nodes : List Node) : List (List Frame × Moment) :=
  (bodyParts cfg (belowAt cfg schedule k) nodes {}).flatMap (Task.placed cfg schedule k [])

theorem Task.map_placed : ∀ (k : Nat) (frames : List Frame) (t : Task),
    (t.placed cfg schedule k frames).map (·.2) = t.moments cfg schedule k
  | 0, _, _ => rfl
  | k + 1, frames, t => by
    rw [placed, moments, List.map_cons, List.map_flatMap]
    simp only [map_placed k]

theorem map_placedMoments (k : Nat) (nodes : List Node) :
    (placedMoments cfg schedule k nodes).map (·.2) = bodyMoments cfg schedule k nodes {} := by
  rw [placedMoments, bodyMoments, List.map_flatMap]
  simp only [Task.map_placed]

/-- Whatever a task comes to stands where the text says. By induction on the levels left. -/
theorem Task.placed_stand : ∀ (k : Nat) {frames : List Frame} {t : Task}, t.Stands ns frames →
    ∀ p ∈ t.placed cfg schedule k frames, p.2.task.Stands ns p.1
  | 0, _, _, h => List.forall_mem_singleton.2 h
  | k + 1, frames, t, h => by
    refine List.forall_mem_cons.2 ⟨h, fun p hp => ?_⟩
    obtain ⟨t', ht', hp⟩ := List.mem_flatMap.1 hp
    exact placed_stand k (parts_stand h t' ht') p hp

theorem placedMoments_stand :
    ∀ p ∈ placedMoments cfg schedule k ns, p.2.task.Stands ns p.1 := by
  intro p hp
  obtain ⟨t, ht, hp⟩ := List.mem_flatMap.1 hp
  have hstart := bodyParts_stand (fun _ hn => .top hn) Symbols.Sound.empty .start t ht
  exact Task.placed_stand k hstart.2 p hp

/-- Where a function is around a node, the innermost one says what is to be returned. -/
theorem Mirrors.result (h : Mirrors frames s) (hf : frames.any Frame.isFunction = true) :
    ∃ result outer, s.returns = result :: outer := by
  obtain ⟨f, hmem, hfunction⟩ := List.any_eq_true.1 hf
  obtain ⟨result, hresult⟩ := Option.isSome_iff_exists.1 hfunction
  have hin : result ∈ s.returns := by
    rw [h.returns]
    exact List.mem_filterMap.2 ⟨f, hmem, hresult⟩
  cases hreturns : s.returns with
  | nil =>
    rw [hreturns] at hin
    cases hin
  | cons result outer => exact ⟨result, outer, rfl⟩

section Reports

variable {run : Option ModuleRun} {n : Node} (hm : Mirrors frames s)

include hm

/-- A jump is reported just if no loop is around it in its function. -/
theorem Mirrors.jump (hk : n.kind? = some .breakLoop ∨ n.kind? = some .continueLoop) :
    (stmtAt cfg schedule (k + 1) run n s).2.findings = s.findings ++
      if TreeSema.inLoop frames then [] else [⟨n.loc, .outsideLoop n.head.kind⟩] := by
  cases n with
  | absent => rcases hk with hk | hk <;> cases hk
  | mk h cs fs b =>
    have hrun : (stmtAt cfg schedule (k + 1) run (.mk h cs fs b) s).2 = (Analysis.jump h s).2 := by
      rcases hk with hk | hk
      · simp only [stmtAt_succ, stmtStep, Option.some.inj hk]
        rfl
      · simp only [stmtAt_succ, stmtStep, Option.some.inj hk]
        rfl
    rw [hrun, jump_run, hm.inLoop]
    rfl

/-- A return is reported just if no function is around it. -/
theorem Mirrors.return (hk : n.kind? = some .returnValue) : ∃ found,
    (stmtAt cfg schedule (k + 1) run n s).2.findings = s.findings ++ found ∧
    (frames.any Frame.isFunction = false → found = [⟨n.loc, .outsideFunction⟩]) ∧
    (frames.any Frame.isFunction = true → ∀ f ∈ found, f.cause ≠ .outsideFunction) := by
  cases n with
  | absent => cases hk
  | mk h cs fs b =>
    have hrun : (stmtAt cfg schedule (k + 1) run (.mk h cs fs b) s).2
        = (returnStmt (exprAt cfg k) h cs s).2 := by
      simp only [stmtAt_succ, stmtStep, Option.some.inj hk]
      rfl
    rw [hrun]
    cases hf : frames.any Frame.isFunction with
    | false =>
      have hreport := returnStmt_outside (exprAt cfg k) h cs (hm.inFunction.trans hf)
      exact ⟨_, hreport, fun _ => rfl, fun h => absurd h Bool.false_ne_true⟩
    | true =>
      obtain ⟨result, outer, hreturns⟩ := hm.result hf
      obtain ⟨found, hfound, hnone⟩ :=
        returnStmt_inside h cs (hm.inFunction.trans hf) hreturns
      exact ⟨found, hfound, fun h => absurd h.symm Bool.false_ne_true, fun _ => hnone⟩

end Reports

/-- The context in which analysis comes to a node mirrors the text. Wherever the analysis of a program
gets to the statements of the program or of a module, each moment of the run over them has what the
statements on the way put around the node, and by the text alone that is around it. The innermost
scope and the open functions say just that: unsafe operations are allowed if an unsafe block or an
unsafe function is around the node, functions and loops are seen if they are around it, and what is
to be returned is what the functions say, from the innermost one on. So a jump is reported just if no
loop is around it in its function, and a return just if no function is. -/
theorem surroundings_mirrored (cfg : Config) (schedule : Schedule) (tree : Node) :
    ∀ l ns, Visits cfg schedule tree l ns (.body l ns) {} →
    (placedMoments cfg schedule l ns).map (·.2) = bodyMoments cfg schedule l ns {} ∧
    ∀ frames m, (frames, m) ∈ placedMoments cfg schedule l ns →
      Lies ns frames m.task.node ∧ Mirrors frames m.task.state ∧
      ∀ k run n s, m = ⟨k + 1, .stmt run n s⟩ →
        (n.kind? = some .breakLoop ∨ n.kind? = some .continueLoop →
          (stmtAt cfg schedule (k + 1) run n s).2.findings = s.findings ++
            if inLoop frames then [] else [⟨n.loc, .outsideLoop n.head.kind⟩]) ∧
        (n.kind? = some .returnValue → ∃ found,
          (stmtAt cfg schedule (k + 1) run n s).2.findings = s.findings ++ found ∧
          (frames.any Frame.isFunction = false → found = [⟨n.loc, .outsideFunction⟩]) ∧
          (frames.any Frame.isFunction = true → ∀ f ∈ found, f.cause ≠ .outsideFunction)) := by
  intro l ns _
  refine ⟨map_placedMoments l ns, fun frames m hmem => ?_⟩
  obtain ⟨hlies, -, hmirrors⟩ := placedMoments_stand (frames, m) hmem
  refine ⟨hlies, hmirrors, ?_⟩
  rintro k run n s rfl
  exact ⟨hmirrors.jump, hmirrors.return⟩

/-- In an unsafe function inside a loop, the loop does not count: a jump there is reported, while one
beside the function is not. -/
theorem surroundings_mirrored_functionInLoop :
    let jump : Node := .leaf { kind := .breakLoop, loc := {} }
    let block : List Node → Node := .ofChildren { kind := .block, loc := {} }
    let function : Node := .mk
      { kind := .funcDef, loc := {}, name := .name "f", type := .basic .i32, isUnsafe := true } [] []
      (block [jump])
    let tree : Node := .ofChildren { kind := .program, loc := {} }
      [.ofChildren { kind := .loop, loc := {} } [block [jump, function]]]
    let cfg : Config := { maxDepth := 4 }
    ((placedMoments cfg .written 4 tree.children).map fun p => (p.2.task.node.kind?, inLoop p.1))
      = [(some .loop, false), (some .breakLoop, true), (some .funcDef, true),
          (some .breakLoop, false)] ∧
    ∃ frames run s, (frames, ⟨2, .stmt run jump s⟩) ∈ placedMoments cfg .written 4 tree.children ∧
      s.table.context = ⟨.unsafely, true, false⟩ ∧ s.returns = [.basic .i32] ∧
      (stmtAt cfg .written 2 run jump s).2.findings
        = s.findings ++ [⟨{}, .outsideLoop .breakLoop⟩] := by
  intro jump block function tree cfg
  obtain ⟨-, hmirrored⟩ := surroundings_mirrored cfg .written tree 4 tree.children (.program rfl)
  refine ⟨rfl, [.function true (.basic .i32), .loop], none, _,
    .tail _ (.tail _ (.tail _ (.head _))), ?_⟩
  obtain ⟨-, hmirrors, hreported⟩ := hmirrored [.function true (.basic .i32), .loop] _
    (.tail _ (.tail _ (.tail _ (.head _))))
  exact ⟨rfl, hmirrors.returns, (hreported 1 none jump _ rfl).1 (.inl rfl)⟩

end Analysis

end TreeSema
