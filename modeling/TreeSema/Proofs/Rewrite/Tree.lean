import TreeSema.Proofs.Lawful
import TreeSema.Proofs.RoundTrip.Source

/-!
# The tree that analysis returns

Analysis rewrites access syntax and nothing else. A call, a literal, a dot or a path may be replaced
by a number, a typed literal or a typed call at the same location; every other node keeps all that
it says itself, and as many nodes below it. What a replaced node held is found again in its
replacement: the arguments or components, each once, but for components that are followed by
another one of their name.

* `Rewrites`: what one tree is to another of which analysis makes it.
* `analyzeBy_rewrites`: analysis of a tree that was read rewrites it.
-/
namespace TreeSema

namespace Node

/-- A name, or names with dots or path signs between them, and nothing below them. -/
inductive PlainPath : Node → Prop
  | name {h : Head} (hkind : h.kind = .ident) : PlainPath (.mk h [] [] .absent)
  | access {h last : Head} {left} (hkind : h.kind = .dot ∨ h.kind = .path)
      (hleft : PlainPath left) (hlast : last.kind = .ident) :
    PlainPath (.mk h [left, .mk last [] [] .absent] [] .absent)

/-- A call or a literal that holds nothing but its arguments or components. -/
inductive Built : Node → Prop
  | call {h : Head} {cs} (hkind : h.kind = .call) (hnamed : h.named = false) :
    Built (.mk h cs [] .absent)
  | callByName {h : Head} {fs} (hkind : h.kind = .call)
      (hnamed : h.named = true) : Built (.mk h [] fs .absent)
  | lit {h : Head} {fs} (hkind : h.kind = .lit) : Built (.mk h [] fs .absent)

/-- The call or literal at the end of a chain, which holds nothing but that and names. -/
inductive EndsIn : Node → Option Node → Prop
  | names {n} (h : PlainPath n) : EndsIn n none
  | built {n} (h : Built n) : EndsIn n (some n)
  | access {h : Head} {left tail} (hkind : h.kind = .dot ∨ h.kind = .path)
      (hleft : PlainPath left) (htail : Built tail) :
    EndsIn (.mk h [left, tail] [] .absent) (some tail)

/-! A chain that was read has no room for anything else. -/

theorem Shaped.access {h : Head} {cs fs b} (hs : (Node.mk h cs fs b).Shaped)
    (hk : h.kind = .dot ∨ h.kind = .path) :
    ∃ left right, cs = [left, right] ∧ fs = [] ∧ b = .absent := by
  obtain ⟨hlen, hrest⟩ := hs.fixed 2 (by rcases hk with hk | hk <;> rw [hk] <;> rfl)
  obtain ⟨left, right, rfl⟩ := List.length_eq_two.1 hlen
  exact ⟨left, right, rfl, hrest⟩

theorem Shaped.name {h : Head} {cs fs b} (hs : (Node.mk h cs fs b).Shaped) (hk : h.kind = .ident) :
    cs = [] ∧ fs = [] ∧ b = .absent := by
  obtain ⟨hlen, hrest⟩ := hs.fixed 0 (hk ▸ rfl)
  exact ⟨List.length_eq_zero_iff.1 hlen, hrest⟩

theorem Shaped.built {n : Node} (hs : n.Shaped) (hk : n.kind? = some .call ∨ n.kind? = some .lit) :
    Built n := by
  cases hs with
  | absent => rcases hk with hk | hk <;> cases hk
  | @mk h cs fs b ops fields body =>
    have hkind : h.kind = .call ∨ h.kind = .lit := by simpa [kind?] using hk
    obtain rfl : b = .absent := Shaped.body_absent (.mk ops fields body)
      (by rcases hkind with hk' | hk' <;> simp [hk'])
    rcases hkind with hk' | hk'
    · rw [Head.Takes, hk'] at ops
      simp only [Head.Admits, hk'] at fields
      cases hn : h.named with
      | true =>
        obtain rfl := List.length_eq_zero_iff.1 (ops hn)
        exact .callByName hk' hn
      | false =>
        obtain rfl : fs = [] := List.eq_nil_iff_forall_not_mem.2 fun f hf => by
          simpa [hn] using fields f hf
        exact .call hk' hn
    · rw [Head.Takes, hk'] at ops
      obtain rfl := List.length_eq_zero_iff.1 ops
      exact .lit hk'

theorem Writes.plainPath {n : Node} {c : Chain} (h : n.Writes c) (hw : n.WellFormed)
    (hc : c.tail = none) : PlainPath n := by
  induction h with
  | name hk =>
    obtain ⟨rfl, rfl, rfl⟩ := (every_mk.1 hw).1.name hk
    exact .name hk
  | built hk => cases hc
  | @access h left right rest fs b path c hk _ hright ih =>
    obtain ⟨hs, hcs, -, -⟩ := every_mk.1 hw
    obtain ⟨l, r, he, rfl, rfl⟩ := hs.access hk
    cases he
    have hl := hcs left (by simp)
    have hr := hcs right (by simp)
    cases hright with
    | name hkr =>
      obtain ⟨rfl, rfl, rfl⟩ := (every_mk.1 hr).1.name hkr
      exact .access hk (ih hl rfl) hkr
    | built => cases hc
    | assigned => cases hc

/-- A chain that was read ends in its call or literal, or is made of names. -/
theorem Writes.endsIn {n : Node} {c : Chain} (h : n.Writes c) (hw : n.WellFormed)
    (hkind : ∀ tail, c.tail = some tail → tail.kind? = some .call ∨ tail.kind? = some .lit) :
    EndsIn n c.tail := by
  cases h with
  | name hk => exact .names ((Writes.name hk).plainPath hw rfl)
  | built hk => exact .built ((every_mk.1 hw).1.built (hkind _ rfl))
  | @access h left right rest fs b path c hk hleft hright =>
    obtain ⟨hs, hcs, -, -⟩ := every_mk.1 hw
    obtain ⟨l, r, he, rfl, rfl⟩ := hs.access hk
    cases he
    have hl := hleft.plainPath (hcs left (by simp)) rfl
    have hr := hcs right (by simp)
    cases hright with
    | name hr' => exact .names ((Writes.access hk hleft (.name hr')).plainPath hw rfl)
    | built hr' => exact .access hk hl ((every_mk.1 hr).1.built (hkind _ rfl))
    | assigned hr' _ => exact .access hk hl ((every_mk.1 hr).1.built (hkind _ rfl))

end Node

namespace Analysis

/-- Arguments put in the order of parameters: the last value given for each name. -/
def Reordered (given : List (Component Node)) (args : List Node) : Prop :=
  args.Perm ((kept given).map (·.value))

/-- A tree and what analysis makes of it. -/
inductive Rewrites : Node → Node → Prop
  | absent : Rewrites .absent .absent
  /-- A node is kept, with what is made of the nodes below. -/
  | keep {h cs cs' fs fs' b b'}
      (hcs : List.Forall₂ Rewrites cs cs') (hfs : List.Forall₂ (Component.Lift Rewrites) fs fs')
      (hb : Rewrites b b') : Rewrites (.mk h cs fs b) (.mk h cs' fs' b')
  /-- A chain is replaced by what it means, which holds what is made of the operands at its end. -/
  | replace {n n' : Node} {tail} (hkind : n.kind?.any Kind.isChain)
      (hend : n.EndsIn tail)
      (h : Replacement (List.Forall₂ Rewrites) (List.Forall₂ (Component.Lift Rewrites)) Reordered
        tail n.loc n') : Rewrites n n'

mutual

theorem Rewrites.refl : ∀ n : Node, Rewrites n n
  | .absent => .absent
  | .mk _ cs fs b => .keep (Rewrites.refl_all cs) (Rewrites.refl_fields fs) (Rewrites.refl b)

theorem Rewrites.refl_all : ∀ cs : List Node, List.Forall₂ Rewrites cs cs
  | [] => .nil
  | c :: cs => .cons (Rewrites.refl c) (Rewrites.refl_all cs)

theorem Rewrites.refl_fields : ∀ fs : List (Component Node),
    List.Forall₂ (Component.Lift Rewrites) fs fs
  | [] => .nil
  | ⟨_, _, value, _⟩ :: fs => .cons (.mk (Rewrites.refl value)) (Rewrites.refl_fields fs)

end

/-- What takes the place of a chain goes with a call, a literal or nothing at the end of the
chain. -/
theorem Replacement.tail_kind {All : List Node → List Node → Prop}
    {Named : List (Component Node) → List (Component Node) → Prop}
    {Order : List (Component Node) → List Node → Prop} {loc t n}
    (h : Replacement All Named Order t loc n) {tail : Node} (ht : t = some tail) :
    tail.kind? = some .call ∨ tail.kind? = some .lit := by
  cases h with
  | number => cases ht
  | literal hk | structArm hk => cases ht; exact .inr (congrArg some hk)
  | tupleArm hk | call hk | callByName hk => cases ht; exact .inl (congrArg some hk)
  | emptyArm hnothing =>
    subst ht
    simp only [carriesNothing, Bool.and_eq_true, Bool.or_eq_true, beq_iff_eq] at hnothing
    exact hnothing.1.1

/-- The relation that analysis is shown to keep: trees of the shape of those that were read are
rewritten. -/
def RewritesShaped (n n' : Node) : Prop := n.WellFormed → Rewrites n n'

theorem RewritesShaped.all {cs cs'} (h : List.Forall₂ RewritesShaped cs cs')
    (hw : ∀ c ∈ cs, c.WellFormed) : List.Forall₂ Rewrites cs cs' := by
  induction h with
  | nil => exact .nil
  | cons hc _ ih =>
    obtain ⟨hw, hrest⟩ := List.forall_mem_cons.1 hw
    exact .cons (hc hw) (ih hrest)

theorem RewritesShaped.fields {fs fs'} (h : List.Forall₂ (Component.Lift RewritesShaped) fs fs')
    (hw : ∀ f ∈ fs, f.value.WellFormed) : List.Forall₂ (Component.Lift Rewrites) fs fs' := by
  induction h with
  | nil => exact .nil
  | cons hf _ ih =>
    obtain ⟨hw, hrest⟩ := List.forall_mem_cons.1 hw
    cases hf with
    | mk hv => exact .cons (.mk (hv hw)) (ih hrest)

/-- The end of a well-formed chain is well-formed. -/
theorem wellFormed_tail {n tail : Node} (hend : n.EndsIn (some tail)) (hw : n.WellFormed) :
    tail.WellFormed := by
  cases hend with
  | built _ => exact hw
  | access _ _ _ => exact (Node.every_mk.1 hw).2.1 _ (by simp)

theorem rewritesShaped_rewriting : Rewriting State.Lawful RewritesShaped where
  refl n _ := Rewrites.refl n
  keep hcs hfs hb hw := by
    obtain ⟨-, hwcs, hwfs, hwb⟩ := Node.every_mk.1 hw
    exact .keep (RewritesShaped.all hcs hwcs) (RewritesShaped.fields hfs hwfs) (hb hwb)
  replace hkind hchain h _ hw := by
    have hend := (Node.chain?_eq_some_iff.1 hchain).endsIn hw fun _ ht => h.tail_kind ht
    refine .replace hkind hend (h.mono ?_ ?_ fun ho => ho.perm)
    · rintro hd cs cs' fs b rfl hcs
      have hwt := Node.every_mk.1 (wellFormed_tail hend hw)
      exact RewritesShaped.all hcs hwt.2.1
    · rintro hd cs fs fs' b rfl hfs
      have hwt := Node.every_mk.1 (wellFormed_tail hend hw)
      exact RewritesShaped.fields hfs hwt.2.2.1

/-- Analysis of a tree that was read rewrites its access syntax and nothing else, whatever it
reports. -/
theorem analyzeBy_rewrites {src unit : String} {tree : Node} (hread : Node.read src unit = .ok tree)
    (schedule : Schedule) (cfg : Config) : Rewrites tree (tree.analyzeBy schedule cfg).tree :=
  have h := program_relates cfg schedule lawful_kept lawful_init rewritesShaped_rewriting tree
  (h {} lawful_init).2 (Node.read_wellFormed hread)

/-- A call by name with an argument given twice. -/
def repeatedArgument : String :=
  "(program (fn f (params (a i32)) i32) (var x i32 (call f \x7ba: 1, a: 2\x7d)))"

theorem analyzeBy_rewrites_repeatedArgument : ∃ tree, Node.read repeatedArgument "m" = .ok tree ∧
    Rewrites tree (tree.analyzeBy .written {}).tree := by
  have hok : (Node.read repeatedArgument "m").isOk = true := by decide +kernel
  rcases hread : Node.read repeatedArgument "m" with e | tree
  · rw [hread] at hok
    cases hok
  · exact ⟨tree, rfl, analyzeBy_rewrites hread .written {}⟩

end Analysis

end TreeSema
