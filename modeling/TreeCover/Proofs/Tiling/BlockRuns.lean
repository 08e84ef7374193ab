import TreeCover.Proofs.Labels.Drawing
import TreeCover.Proofs.Tiling.PhiEdges
import TreeCover.Proofs.Tiling.Values
import TreeCover.Proofs.Tiling.Visits

/-!
# Execution of blocks

The code that is selected for a block does what the block does. The machine comes to the block with what has
been computed before in its registers. Root after root is visited, and in between the machine is where the
evaluation of the block is: it has the same memory, has done the same, and holds in its registers what has
been computed since. What is handed to phis keeps its value, since nothing is stored and no function is
called after that. The last root is the terminator, and leaves the block where the evaluation does.

Main statements: `Midway.visit`, for one root, `Midway.visits`, for several, and `selectBlock_executes`.
-/

namespace TreeCover

open Ir Machine Machine.Core Work

variable {text : String} {fs : List Func} {f : Func} {s : Session} {next : InstId}
  {os : List (Ir.Operand Value)} {trees : List (List NodeId)} {roots done done' rest : List NodeId}
  {w v v₀ t t' u u' : Workspace} {k r : NodeId} {a base : Application} {as below : List Application}
  {goal : Nonterminal} {bound : Bound} {x : Unit} {b succ : BlockId} {V : NodeId → Word} {n n' m : Nat}
  {s₁ s₂ : Core} {c : Callee} {σ : World} {F : Frame} {o o₀ o' : Observed} {now after st st' : BlockState}
  {dst : VReg} {y : Machine.Operand} {is : List Machine.Inst} {pre post : List (InstId × ResolvedInst)}

/-- Where selection is when it has visited some roots of a block. -/
theorem Work.Comes.of_selectBlock (hbefore : Work.selectAll (trees.take b) w = .ok () v₀)
    (hb : trees[b]? = some (done ++ r :: rest))
    (hdone : selectBlock done (turned (trees.take b) v₀) = .ok () t) : Comes trees w r t := by
  refine ⟨trees.take b, done, rest, trees.drop (b + 1), v₀, ?_, hbefore, hdone⟩
  obtain ⟨hlt, hget⟩ := List.getElem?_eq_some_iff.mp hb
  rw [← hget, ← List.drop_eq_getElem_cons hlt, List.take_append_drop]

/-! ## Arguments -/

/-- The words of the arguments stay in memory while block `b` is evaluated from `st`. -/
def KeepsArguments (f : Func) (A : Arithmetic) (σ : World) (b : BlockId) (st : BlockState) (s : Core) :
    Prop :=
  ∀ pre post now, f.blockInsts b = pre ++ post → f.evalInsts A σ pre st = some now →
    ∀ idx < f.params.length, now.mem.word (s.address (argumentSlot idx)) = σ.args idx

theorem Stage.arguments (h : Stage f w σ b st st' done rest pre post now)
    (hargs : KeepsArguments f .machine σ b st s₁) (hframe : s₂.regs (.phys .rbp) = s₁.regs (.phys .rbp)) :
    ∀ idx < f.params.length, now.mem.word (s₂.address (argumentSlot idx)) = σ.args idx := by
  intro idx hidx
  rw [argumentSlot, address_frame_congr hframe]
  exact hargs pre post now h.insts h.before idx hidx

/-- The node of an argument has its place. -/
theorem Planted.argument (hp : Planted f trees w) {idx : Nat} (hop : (w.forest.node k).op = .arg idx) :
    idx < f.params.length ∧ (w.forest.node k).slot = .mem (argumentSlot idx) := by
  cases (hp.building.nodes k (Forest.lt_size_of_op hop NodeOp.noConfusion)).shape with
  | argument hp his =>
    obtain rfl := NodeOp.arg.inj (his.op.symm.trans hop)
    exact ⟨(List.getElem?_eq_some_iff.mp hp).1, Node.slot_of_core his.2⟩
  | constant his | label his | pad his | phi _ his | phiUse _ _ his | args his | inst _ _ his
    | phiMove _ _ _ his => exact absurd (his.op.symm.trans hop) NodeOp.noConfusion

theorem Planted.holds_arguments (hp : Planted f trees w) (hheld : w.forest.HoldsOn t.forest)
    (hargs : ∀ idx < f.params.length, s₁.mem.word (s₁.address (argumentSlot idx)) = σ.args idx) :
    ∀ k idx m, (t.forest.node k).op = .arg idx → (t.forest.node k).slot = .mem m →
      s₁.mem.word (s₁.address m) = σ.args idx := by
  intro k idx m hop hm
  rw [hheld.skeleton.op] at hop
  obtain ⟨hidx, hslot⟩ := hp.argument hop
  rw [(hheld.held k fun o ho ↦ NodeOp.noConfusion (hop.symm.trans ho)).2, hslot] at hm
  exact Slot.mem.inj hm ▸ hargs idx hidx

/-! ## On the way through a block -/

/-- Operand `y` reads the value that block `b` copies into the phi with the register `dst` of block
`succ`. -/
def ReadsCopy (f : Func) (w : Workspace) (V : NodeId → Word) (b : BlockId) (done : List NodeId) (n : VReg)
    (s : Core) (succ : BlockId) (dst : VReg) (y : Machine.Operand) : Prop :=
  ∃ r ∈ done, ∃ id i k kid, (id, i) ∈ f.blockPhis succ ∧ w.Is r (.ofPhiMove b succ id i k kid) ∧
    (w.forest.node k).slot = .vreg dst ∧ s.read 8 y = some (V (w.forest.owner kid)) ∧ y.Steady ∧
      ∀ x ∈ y.vregs, x < n

theorem ReadsCopy.later (h : ReadsCopy f w V b done n s₁ succ dst y) (hspares : Spares (n ≤ ·) s₁ s₂)
    (hle : n ≤ n') (hdone : done ⊆ done') : ReadsCopy f w V b done' n' s₂ succ dst y := by
  obtain ⟨r, hr, id, i, k, kid, hi, his, hslot, hread, hsteady, hbelow⟩ := h
  refine ⟨r, hdone hr, id, i, k, kid, hi, his, hslot, ?_, hsteady,
    fun x hx ↦ Nat.lt_of_lt_of_le (hbelow x hx) hle⟩
  rw [hspares.read hsteady (fun x hx ↦ Nat.not_le.mpr (hbelow x hx)), hread]

/-- The state `o` of the machine when the roots `done` of block `b` have been visited, from where it was
entered in the state `o₀`, and the block has been evaluated up to `now`. -/
structure Midway (f : Func) (w : Workspace) (σ : World) (F : Frame) (V : NodeId → Word) (c : Callee)
    (m b : Nat) (o₀ : Observed) (done : List NodeId) (t : Workspace) (now : BlockState) (o : Observed) : Prop where
  ready : Ready w.forest σ F V m b t o.core
  mem : o.core.mem = now.mem
  deeds : o.deeds = now.deeds
  stack : o.stack = []
  frame : o.core.regs (.phys .rbp) = o₀.core.regs (.phys .rbp)
  code : Observed.run σ c (instsAt t.code.blocks b) o₀ = some o
  straight : ∀ i ∈ instsAt t.code.blocks b, i.isStraight = true
  inputs : ∀ succ, ∀ phi ∈ phisAt t.code.blocks succ, ∀ y, (y, b) ∈ phi.incoming →
    ReadsCopy f w V b done t.code.vregs o.core succ phi.dst y

theorem Traced.instsAt (he : Traced w t r as t' goal u bound u') (b : BlockId) :
    instsAt t'.code.blocks b = instsAt t.code.blocks b ++
      if b = t.code.current then as.flatMap (·.code) else [] := by
  rw [he.code, he.trail.code.2.2, he.code_eq]

namespace Midway

theorem current (h : Midway f w σ F V c m b o₀ done t now o) : t.code.current = b :=
  Nat.succ.inj (h.ready.assigning.current (Nat.succ_pos b))

/-- Quiet code for one more root. -/
theorem quiet (h : Midway f w σ F V c m b o₀ done t now o) (hquiet : Quiet is)
    (hrun : Core.run c is o.core = some s₁) (hspares : Spares (t.code.vregs ≤ ·) o.core s₁)
    (hready : Ready w.forest σ F V m b t' s₁) (hle : t.code.vregs ≤ t'.code.vregs)
    (hcode : TreeCover.instsAt t'.code.blocks b = TreeCover.instsAt t.code.blocks b ++ is)
    (hphis : ∀ succ, phisAt t'.code.blocks succ = phisAt t.code.blocks succ)
    (hmem : after.mem = now.mem ∧ after.deeds = now.deeds) :
    Midway f w σ F V c m b o₀ (done ++ [r]) t' after (o.withCore s₁) where
  ready := hready
  mem := hspares.mem.trans (h.mem.trans hmem.1.symm)
  deeds := h.deeds.trans hmem.2.symm
  stack := h.stack
  frame := hspares.frame.trans h.frame
  code := by
    rw [hcode, Observed.run_append, h.code, Option.bind_some,
      Observed.run_quiet fun i hi ↦ (hquiet i hi).1, hrun]
    rfl
  straight := by
    rw [hcode]
    exact List.forall_mem_append.mpr ⟨h.straight, fun i hi ↦ (hquiet i hi).2⟩
  inputs succ phi hphi y hy := by
    rw [hphis] at hphi
    exact (h.inputs succ phi hphi y hy).later hspares hle (List.subset_append_left _ _)

section

variable (hparse : parse text = .ok fs) (hf : f ∈ fs)
  (hbuild : buildForest f (.start f s) = .ok trees w)
  (hvoid : ∀ {p q}, q ∈ w.forest.kidOwners p → ¬ w.forest.IsVoidCall q) (hcasts : f.CastsExtend)
  (hcomes : Comes trees w r t) (hb : trees[b]? = some (done ++ r :: rest))
  (hstage : Stage f w σ b st st' done (r :: rest) pre post now) (hrooms : w.Roomy σ st'.values)
  (h : Midway f w σ F (w.forest.worth σ st'.values) c m b o₀ done t now o)
include hparse hf hbuild hvoid hcasts hcomes hb hstage hrooms h

/-- What the visit of the root goes by means what it says. -/
theorem means (he : Traced w t r as t' goal u bound u') : ∀ k, u.forest.Beneath r k →
    u.forest.Means σ o.core.mem (w.forest.worth σ st'.values) k ∧ u.forest.Casts k := fun _ hk ↦
  h.mem ▸ hstage.means hparse hf hbuild hvoid hcomes hb hrooms hcasts he hk

variable (hvisit : selectTree r t = .ok x t') (hF : F.Addressed) (hextends : t'.code.frame.Extends F)
include hvisit hF hextends

/-- A root that only computes. -/
theorem visit_computes (hfinal : (w.forest.node r).op.isFinal = false) : ∃ pre' post' next o',
    Stage f w σ b st st' (done ++ [r]) rest pre' post' next ∧
      Midway f w σ F (w.forest.worth σ st'.values) c m b o₀ (done ++ [r]) t' next o' := by
  obtain ⟨hp, -⟩ := buildForest_planted hbuild
  have hmove : (w.forest.node r).op ≠ .phiMove := fun hop ↦ by
    rw [hop] at hfinal
    exact Bool.noConfusion hfinal
  obtain ⟨op, hop⟩ := ((hp.block b _ hb).op r (by simp)).resolve_left hmove
  obtain ⟨x, post', next, -, hresults, hxb, hnext, hstage'⟩ := hstage.step ⟨op, hop⟩
  have hquiet : x.2.opcode.writesMemory = false := by
    rw [hp.building.op_of_results hresults hxb] at hfinal
    generalize x.2.opcode = opcode at hfinal
    cases opcode <;> first | rfl | exact Bool.noConfusion hfinal
  have hmem := Func.mem_evalInst hnext hquiet
  obtain ⟨hheld, hphis⟩ :=
    selectTree_keepsPhis hp (buildForest_recorded hbuild) h.ready.held.skeleton hmove hvisit
  obtain ⟨as, -, ⟨-, -, hcode, hvalues⟩ | ⟨goal, u, b', u', he⟩⟩ :=
    selectTree_trail hp (hcomes.marked hbuild) hvisit
  · exact ⟨_, _, next, _, hstage', h.quiet (show Quiet [] from List.forall_mem_nil _) rfl (.refl _)
      (h.ready.same hcode hheld.skeleton hvalues) (hcode ▸ Nat.le_refl _) (by rw [hcode, List.append_nil])
      hphis hmem⟩
  · obtain ⟨hquiet', s₁, hrun, hspares, hready, hle⟩ := he.runs (c := c) hparse hf hbuild hcomes hvoid
      (h.means hparse hf hbuild hvoid hcasts hcomes hb hstage hrooms he) h.ready hF hextends hfinal
    exact ⟨_, _, next, _, hstage', h.quiet hquiet' hrun hspares hready hle
      (by rw [he.instsAt, if_pos h.current.symm]) hphis hmem⟩

/-- A root that does more than to compute is emitted. -/
theorem exists_brink (hfinal : (w.forest.node r).op.isFinal = true) :
    ∃ as goal u bound u' below base s₁, Traced w t r as t' goal u bound u' ∧
      Brink σ F (w.forest.worth σ st'.values) m b c r as u u' o.core below base s₁ := by
  obtain ⟨hp, -⟩ := buildForest_planted hbuild
  obtain ⟨goal, u, hstarts⟩ := exists_starts_of_isFinal hparse hf hbuild hcomes hfinal hvisit
  obtain ⟨as, -, ⟨-, hnone, -⟩ | ⟨goal, u, bound, u', he⟩⟩ :=
    selectTree_trail hp (hcomes.marked hbuild) hvisit
  · exact absurd hstarts (hnone goal u)
  obtain ⟨below, base, s₁, hbrink⟩ := he.brink (c := c) hparse hf hbuild hcomes hvoid
    (h.means hparse hf hbuild hvoid hcasts hcomes hb hstage hrooms he) h.ready hF hextends hfinal
  exact ⟨as, goal, u, bound, u', below, base, s₁, he, hbrink⟩

omit hvoid hcasts hcomes hrooms hstage hvisit hF hextends in
/-- Nothing has been handed to phis when something with a side effect is done. -/
theorem no_inputs (hside : (w.forest.node r).hasSideEffect = true) :
    ∀ succ, ∀ phi ∈ phisAt t.code.blocks succ, ∀ y, (y, b) ∉ phi.incoming := by
  intro succ phi hphi y hy
  obtain ⟨hp, -⟩ := buildForest_planted hbuild
  have hwell : f.WellFormed := parse_reads hparse (fun _ ↦ readLines_wellFormed nofun) f hf
  obtain ⟨r', hr', id, i, k, kid, -, his, -⟩ := h.inputs succ phi hphi y hy
  have hlt : r < r' := (buildForest_logged hwell hbuild).last b _ hb r' (List.mem_append_left _ hr') r
    (by simp) his.op hside
  have hlt' : r' < r := (List.pairwise_append.mp (hp.block b _ hb).sorted).2.2 r' hr' r List.mem_cons_self
  exact Nat.lt_asymm hlt hlt'

omit hvoid hcasts hcomes hrooms hstage hextends in
/-- A root that is done for its effect, once its code has run. -/
theorem visit_effect {after : BlockState} (hside : (w.forest.node r).hasSideEffect = true)
    (hargs : KeepsArguments f .machine σ b st o₀.core)
    {pre' post' : List (InstId × ResolvedInst)}
    (hstage' : Stage f w σ b st st' (done ++ [r]) rest pre' post' after)
    (he : Traced w t r as t' goal u bound u')
    (hbrink : Brink σ F (w.forest.worth σ st'.values) m b c r as u u' o.core below base s₁)
    (hphi : base.rule.action ≠ .phiInput) (hstraight : ∀ i ∈ base.code, i.isStraight = true)
    (hrun : Observed.run σ c base.code (o.withCore s₁) = some o')
    (hvirt : ∀ x < base.before.code.vregs, o'.core.regs (.virt x) = s₁.regs (.virt x))
    (hframe : o'.core.regs (.phys .rbp) = s₁.regs (.phys .rbp))
    (hholds : base.result.Holds u.forest (w.forest.worth σ st'.values) o'.core r)
    (hmem : o'.core.mem = after.mem) (hdeeds : o'.deeds = after.deeds) (hstack : o'.stack = []) :
    Midway f w σ F (w.forest.worth σ st'.values) c m b o₀ (done ++ [r]) t' after o' := by
  obtain ⟨hp, -⟩ := buildForest_planted hbuild
  have hmove : (w.forest.node r).op ≠ .phiMove := fun hop ↦ by
    rw [Node.hasSideEffect, Node.opcode?, hop] at hside
    exact Bool.noConfusion hside
  have hphis :=
    (selectTree_keepsPhis hp (buildForest_recorded hbuild) h.ready.held.skeleton hmove hvisit).phis
  have hrbp : o'.core.regs (.phys .rbp) = o₀.core.regs (.phys .rbp) :=
    hframe.trans (hbrink.spares.frame.trans h.frame)
  have hheld : w.forest.HoldsOn base.before.forest :=
    (h.ready.held.trans (.of_sameValues he.starts.sameValues.1 he.values)).trans hbrink.ready.held
  have hready := hbrink.ready.moved hF hvirt hframe
    (hp.holds_arguments hheld (hmem ▸ hstage'.arguments hargs hrbp))
  obtain ⟨hready', -⟩ := hbrink.settles hphi hready hholds
  have hcode : instsAt t'.code.blocks b =
      instsAt t.code.blocks b ++ (below.flatMap (·.code) ++ base.code) := by
    rw [he.instsAt, if_pos h.current.symm, hbrink.peaks.code]
  refine ⟨he.ready_after h.ready hready', hmem, hdeeds, hstack, hrbp, ?_, ?_, fun succ phi hmem y hy ↦ ?_⟩
  · rw [hcode, Observed.run_append, h.code, Option.bind_some, Observed.run_append,
      Observed.run_quiet fun i hi ↦ (hbrink.quiet i hi).1, hbrink.run]
    exact hrun
  · rw [hcode]
    exact List.forall_mem_append.mpr ⟨h.straight, List.forall_mem_append.mpr
      ⟨fun i hi ↦ (hbrink.quiet i hi).2, hstraight⟩⟩
  · rw [hphis] at hmem
    exact absurd hy (h.no_inputs hparse hf hbuild hb hside succ phi hmem y)

/-- A store. -/
theorem visit_store (hargs : KeepsArguments f .machine σ b st o₀.core)
    (hop : (w.forest.node r).op = .inst .store) : ∃ pre' post' next o',
    Stage f w σ b st st' (done ++ [r]) rest pre' post' next ∧
      Midway f w σ F (w.forest.worth σ st'.values) c m b o₀ (done ++ [r]) t' next o' := by
  obtain ⟨hp, -⟩ := buildForest_planted hbuild
  have hside : (w.forest.node r).hasSideEffect = true := by
    rw [Node.hasSideEffect, Node.opcode?, hop]
    rfl
  obtain ⟨as, goal, u, bound, u', below, base, s₁, he, hbrink⟩ := h.exists_brink hparse hf hbuild hvoid
    hcasts hcomes hb hstage hrooms hvisit hF hextends (hop ▸ rfl)
  obtain ⟨x, post', next, -, hresults, hxb, hnext, hstage'⟩ := hstage.step ⟨_, hop⟩
  have hopcode : x.2.opcode = .store :=
    NodeOp.inst.inj ((hp.building.op_of_results hresults hxb).symm.trans hop)
  obtain ⟨kids, his, hkids⟩ := hp.of_results hresults hxb (hopcode ▸ Opcode.noConfusion)
  cases hoperation : x.2.operation with
  | store v a =>
    rw [hoperation] at hkids
    obtain ⟨p, q, ⟨hp', hpr⟩, ⟨hq, hqr⟩, rfl⟩ := exists_of_forall₂_two
      (hkids.places Opcode.noConfusion Opcode.noConfusion)
    rw [Func.evalInst, hoperation] at hnext
    obtain rfl := Option.some.inj hnext
    have hvalue : ∀ {y j}, w.Denotes f (.operand y) j → j < r → w.forest.worth σ st'.values
        (w.forest.owner j) = Arithmetic.machine.operand σ now y := fun hdenotes hlt ↦
      (hdenotes.worth hp.building hrooms).trans (hstage.operand_eq hp hb hdenotes hlt)
    have haction : base.rule.action = .store := (Grammar.action_of_final base.rule hbrink.fits.mem).2.1
      (hbrink.head? ((he.skeleton.op r).trans hop))
    have hphi : base.rule.action ≠ .phiInput := haction ▸ Action.noConfusion
    have hexpands := hbrink.expands hphi
    obtain ⟨hresult, p', q', hpq, hrun⟩ := hbrink.fits.stores (σ := σ) (c := c) (o := o.withCore s₁)
      hbrink.peaks.ready.later hbrink.kids hexpands haction
    rw [he.skeleton.kidOwners, Forest.kidOwners, Node.kids_of_core his.2] at hpq
    obtain ⟨rfl, hq'⟩ := List.cons.inj hpq
    obtain rfl := List.singleton_inj.mp hq'
    have hwidth : (u.forest.node r).width = x.2.ty.bits := by
      rw [he.skeleton.width, Node.width_of_core his.2, Node.ofInst, hopcode]
      rfl
    rw [hwidth, hvalue hp' hpr, hvalue hq hqr] at hrun
    refine ⟨_, _, _, _, hstage', h.visit_effect hparse hf hbuild hb hvisit hF hside hargs hstage' he hbrink
      hphi (hexpands.isStraight (Or.inl haction)) hrun (fun _ _ ↦ rfl) rfl (hresult ▸ trivial) ?_ ?_ ?_⟩
    · exact congrArg (fun mem : Memory ↦ mem.store _ _ _) (hbrink.spares.mem.trans h.mem)
    · exact congrArg (· ++ _) h.deeds
    · exact h.stack
  | _ =>
    rw [Inst.opcode, hoperation] at hopcode
    exact absurd hopcode Opcode.noConfusion

/-- A call. -/
theorem visit_call (hargs : KeepsArguments f .machine σ b st o₀.core)
    (hfew : ∀ x ∈ f.blockInsts b, ∀ callee args, x.2.operation = .call callee args →
      8 * args.length < 2 ^ 31)
    (hop : (w.forest.node r).op = .inst .call) : ∃ pre' post' next o',
    Stage f w σ b st st' (done ++ [r]) rest pre' post' next ∧
      Midway f w σ F (w.forest.worth σ st'.values) c m b o₀ (done ++ [r]) t' next o' := by
  obtain ⟨hp, -⟩ := buildForest_planted hbuild
  have hside : (w.forest.node r).hasSideEffect = true := by
    rw [Node.hasSideEffect, Node.opcode?, hop]
    rfl
  obtain ⟨as, goal, u, bound, u', below, base, s₁, he, hbrink⟩ := h.exists_brink hparse hf hbuild hvoid
    hcasts hcomes hb hstage hrooms hvisit hF hextends (hop ▸ rfl)
  obtain ⟨x, post', next, rfl, hresults, hxb, hnext, hstage'⟩ := hstage.step ⟨_, hop⟩
  have hopcode : x.2.opcode = .call :=
    NodeOp.inst.inj ((hp.building.op_of_results hresults hxb).symm.trans hop)
  obtain ⟨kids, his, hkids⟩ := hp.of_results hresults hxb (hopcode ▸ Opcode.noConfusion)
  cases hoperation : x.2.operation with
  | call callee args =>
    rw [hoperation] at hkids
    rw [Func.evalInst, hoperation] at hnext
    obtain rfl := Option.some.inj hnext
    cases hkids with
    | other hnot => exact absurd rfl hnot
    | @call _ _ operands hlist hoperands hold =>
      have haction : base.rule.action = .call :=
        (Grammar.action_of_final base.rule hbrink.fits.mem).2.2.1
          (hbrink.head? ((he.skeleton.op r).trans hop))
      have hphi : base.rule.action ≠ .phiInput := haction ▸ Action.noConfusion
      have hexpands := hbrink.expands hphi
      obtain ⟨q, hq, hcalls⟩ := hbrink.fits.calls (σ := σ) (c := c) (o := o.withCore s₁)
        hbrink.peaks.ready.later hbrink.kids hexpands haction h.stack
      have howner : w.forest.owner (r + 1) = r + 1 :=
        Forest.owner_of_target (Node.target_of_core hlist.2)
      rw [he.skeleton.kidOwners, Forest.kidOwners, Node.kids_of_core his.2] at hq
      obtain rfl : r + 1 = q := howner.symm.trans (List.singleton_inj.mp hq)
      have hlistKids : u.forest.kidOwners (r + 1) = operands.map w.forest.owner := by
        rw [he.skeleton.kidOwners, Forest.kidOwners, Node.kids_of_core hlist.2]
        rfl
      have hcallee : (u.forest.node r).callee = some callee := by
        have hnode : (u.forest.node r).callee = x.2.operation.callee? :=
          (congrArg Node.callee (he.skeleton.node r) : _).trans (congrArg Node.callee his.2 : _)
        rw [hnode, hoperation]
        rfl
      have hoperands' := List.forall₂_map_left_iff.mp hoperands
      have hvalues : (u.forest.kidOwners (r + 1)).map (w.forest.worth σ st'.values) =
          args.map (Arithmetic.machine.operand σ now) := by
        have heq : List.Forall₂ (· = ·) ((operands.map w.forest.owner).map (w.forest.worth σ st'.values))
            (args.map (Arithmetic.machine.operand σ now)) := by
          rw [List.map_map, List.forall₂_map_left_iff, List.forall₂_map_right_iff]
          exact (forall₂_mem hoperands').flip.imp fun y j hy ↦ (hy.2.2.worth hp.building hrooms).trans
            (hstage.operand_eq hp hb hy.2.2 (hold _ hy.2.1))
        rw [hlistKids]
        exact List.forall₂_eq_eq_eq ▸ heq
      have hlength : 8 * (u.forest.kidOwners (r + 1)).length < 2 ^ 31 := by
        rw [hlistKids, List.length_map, ← hoperands'.length_eq]
        exact hfew x hxb callee args hoperation
      obtain ⟨s₂, hrun, hmem, hresult, hvirt, hframe⟩ := hcalls hlength
      rw [hcallee, hvalues] at hrun
      rw [hcallee, hvalues, Observed.core_withCore, hbrink.spares.mem, h.mem] at hmem hresult
      have hworth : w.forest.worth σ st'.values r = (σ.call callee (args.map
          (Arithmetic.machine.operand σ now)) now.mem).2 := by
        rw [Forest.worth, hop, hresults.2.2]
        exact (hstage'.values_eq (i := x.2) (by simp)).trans BlockState.values_define_self
      refine ⟨_, _, _, _, hstage', h.visit_effect hparse hf hbuild hb hvisit hF hside hargs hstage' he hbrink
        hphi (hexpands.isStraight (Or.inr haction)) hrun (fun u hu ↦ hvirt u (Nat.ne_of_lt hu)) hframe ?_ hmem
        (congrArg (· ++ _) h.deeds) rfl⟩
      rcases hresult with hnone | ⟨hreg, hvalue⟩
      · exact hnone ▸ trivial
      · rw [hreg]
        exact hvalue.trans hworth.symm
  | _ =>
    rw [Inst.opcode, hoperation] at hopcode
    exact absurd hopcode Opcode.noConfusion

/-- A copy into a phi. -/
theorem visit_copy (hop : (w.forest.node r).op = .phiMove) : ∃ o',
    Stage f w σ b st st' (done ++ [r]) rest pre post now ∧
      Midway f w σ F (w.forest.worth σ st'.values) c m b o₀ (done ++ [r]) t' now o' := by
  obtain ⟨hp, -⟩ := buildForest_planted hbuild
  obtain ⟨as, goal, u, bound, u', below, base, s₁, he, hbrink⟩ := h.exists_brink hparse hf hbuild hvoid
    hcasts hcomes hb hstage hrooms hvisit hF hextends (hop ▸ rfl)
  have haction : base.rule.action = .phiInput := (Grammar.action_of_final base.rule hbrink.fits.mem).1
    (hbrink.head? ((he.skeleton.op r).trans hop))
  -- the operand that is recorded reads the value of the copy
  obtain ⟨-, leafGoal, hgoal, hphiGoal⟩ := Grammar.tile_phiInput base.rule hbrink.fits.mem haction
  obtain ⟨q, hleaves, hkidOwners, -⟩ :=
    Pattern.leaves_of_phiGoal hphiGoal hbrink.fits.fits (.refl u.forest)
  have hkids := hbrink.kids
  rw [← base.rule.pattern.takeLeaves_fst r u.forest (.refl _), hleaves] at hkids
  obtain ⟨z, hz, hkids⟩ := exists_of_forall₂_one hkids
  obtain ⟨k', s, dst, y, htarget, hdst, hy, hnone, hafter⟩ := applyRule_phiInput haction base.runs
  rw [hkids] at hy
  obtain ⟨hread, hsteady, hbelow, -⟩ := hz.operand hgoal hy
  have hheld : w.forest.HoldsOn base.before.forest :=
    (h.ready.held.trans (.of_sameValues he.starts.sameValues.1 he.values)).trans hbrink.ready.held
  obtain ⟨b', succ, id, i, k, kid, -, hi, -, hk, his, -⟩ :=
    (hp.building.nodes r (Forest.lt_size_of_op hop NodeOp.noConfusion)).shape.of_phiMove hop
  obtain rfl : b' = b := Option.some.inj
    ((Node.block_of_core his.2).symm.trans ((hp.block b _ hb).block r (by simp)))
  obtain rfl : q = w.forest.owner kid := by
    rw [he.skeleton.kidOwners, Forest.kidOwners, Node.kids_of_core his.2] at hkidOwners
    exact (List.singleton_inj.mp hkidOwners).symm
  rw [hbrink.peaks.node, hheld.skeleton.phiTarget, Node.phiTarget_of_core his.2] at htarget
  obtain ⟨rfl, rfl⟩ := Prod.mk.inj (Option.some.inj htarget)
  obtain ⟨dst', hphi, -⟩ := hp.phi_register hi hk
  have hslot : (w.forest.node k).slot = .vreg dst :=
    (hheld.held k fun o ho ↦ NodeOp.noConfusion (hphi.op.symm.trans ho)).2.symm.trans hdst
  obtain ⟨hready, hcode⟩ := hbrink.records haction
  rw [← he.code, hafter] at hcode
  have hinsts : instsAt t'.code.blocks b' =
      instsAt t.code.blocks b' ++ below.flatMap (·.code) := by
    rw [he.instsAt, if_pos h.current.symm, hbrink.peaks.code, base.code_phiInput haction, List.append_nil]
  have hcurrent : base.before.code.current = b' :=
    Nat.succ.inj (hbrink.ready.assigning.current (Nat.succ_pos _))
  have hvregs : t'.code.vregs = base.before.code.vregs := by rw [hcode]; rfl
  have hspares := hbrink.spares
  have hle := hbrink.vregs
  rw [he.code_eq] at hspares hle
  have hdone : done ⊆ done ++ [r] := List.subset_append_left _ _
  refine ⟨o.withCore s₁, hstage.copy hop, he.ready_after h.ready hready, hspares.mem.trans h.mem, h.deeds,
    h.stack, hspares.frame.trans h.frame, ?_, ?_, fun succ' phi hphi y' hy' ↦ ?_⟩
  · rw [hinsts, Observed.run_append, h.code, Option.bind_some,
      Observed.run_quiet fun i hi ↦ (hbrink.quiet i hi).1, hbrink.run]
    rfl
  · rw [hinsts]
    exact List.forall_mem_append.mpr ⟨h.straight, fun i hi ↦ (hbrink.quiet i hi).2⟩
  · have hold : ∀ phi ∈ phisAt base.before.code.blocks succ', ∀ y, (y, b') ∈ phi.incoming →
        ReadsCopy f w (w.forest.worth σ st'.values) b' (done ++ [r]) t'.code.vregs s₁ succ' phi.dst y := by
      intro phi hphi y hy
      rw [hbrink.phis, he.code_eq] at hphi
      exact (h.inputs succ' phi hphi y hy).later hspares (hvregs ▸ hle) hdone
    rw [hcode, Code.phisAt_addPhiInput, hcurrent] at hphi
    split at hphi
    next hsucc =>
      subst hsucc
      rcases Code.exists_mem_addInput.mp ⟨phi, hphi, rfl, hy'⟩ with
        ⟨phi', hphi', hdst', hy'⟩ | ⟨hdst', heq, -⟩
      · exact hdst' ▸ hold phi' hphi' y' hy'
      · obtain rfl := (Prod.mk.inj heq).1
        rw [hdst']
        exact ⟨r, by simp, id, i, k, kid, hi, his, hslot, hread, hsteady, hvregs ▸ hbelow⟩
    next => exact hold phi hphi y' hy'

/-- **Visits.** A root that does not leave the block. -/
theorem visit (hargs : KeepsArguments f .machine σ b st o₀.core)
    (hfew : ∀ x ∈ f.blockInsts b, ∀ callee args, x.2.operation = .call callee args →
      8 * args.length < 2 ^ 31)
    (hstays : (w.forest.node r).op ≠ .inst .br ∧ (w.forest.node r).op ≠ .inst .ret) :
    ∃ pre' post' next o', Stage f w σ b st st' (done ++ [r]) rest pre' post' next ∧
      Midway f w σ F (w.forest.worth σ st'.values) c m b o₀ (done ++ [r]) t' next o' := by
  cases hfinal : (w.forest.node r).op.isFinal with
  | false =>
    exact h.visit_computes hparse hf hbuild hvoid hcasts hcomes hb hstage hrooms hvisit hF hextends hfinal
  | true =>
    cases hop : (w.forest.node r).op with
    | phiMove =>
      obtain ⟨o', h'⟩ :=
        h.visit_copy hparse hf hbuild hvoid hcasts hcomes hb hstage hrooms hvisit hF hextends hop
      exact ⟨_, _, _, o', h'⟩
    | inst o =>
      cases o with
      | store =>
        exact h.visit_store hparse hf hbuild hvoid hcasts hcomes hb hstage hrooms hvisit hF hextends hargs hop
      | call =>
        exact h.visit_call hparse hf hbuild hvoid hcasts hcomes hb hstage hrooms hvisit hF hextends hargs hfew
          hop
      | br => exact absurd hop hstays.1
      | ret => exact absurd hop hstays.2
      | _ =>
        rw [hop] at hfinal
        exact absurd hfinal Bool.false_ne_true
    | _ =>
      rw [hop] at hfinal
      exact absurd hfinal Bool.false_ne_true

end

section

variable (hparse : parse text = .ok fs) (hf : f ∈ fs)
  (hbuild : buildForest f (.start f s) = .ok trees w)
  (hvoid : ∀ {p q}, q ∈ w.forest.kidOwners p → ¬ w.forest.IsVoidCall q) (hcasts : f.CastsExtend)
  (hbefore : selectAll (trees.take b) w = .ok () v₀) (hrooms : w.Roomy σ st'.values) (hF : F.Addressed)
  (hargs : KeepsArguments f .machine σ b st o₀.core)
  (hfew : ∀ x ∈ f.blockInsts b, ∀ callee args, x.2.operation = .call callee args →
    8 * args.length < 2 ^ 31)
include hparse hf hbuild hvoid hcasts hbefore hrooms hF hargs hfew

/-- **Runs.** Some roots that do not leave the block. -/
theorem visits {mid : List NodeId} (hb : trees[b]? = some (done ++ (mid ++ rest)))
    (hdone : selectBlock done (turned (trees.take b) v₀) = .ok () t)
    (hselect : selectBlock mid t = .ok () t') (hextends : t'.code.frame.Extends F)
    (hstays : ∀ r ∈ mid, (w.forest.node r).op ≠ .inst .br ∧ (w.forest.node r).op ≠ .inst .ret)
    (hstage : Stage f w σ b st st' done (mid ++ rest) pre post now)
    (h : Midway f w σ F (w.forest.worth σ st'.values) c m b o₀ done t now o) :
    ∃ pre' post' next o', Stage f w σ b st st' (done ++ mid) rest pre' post' next ∧
      Midway f w σ F (w.forest.worth σ st'.values) c m b o₀ (done ++ mid) t' next o' := by
  induction mid generalizing done t pre post now o with
  | nil =>
    obtain ⟨-, rfl⟩ := pure_eq_ok.mp hselect
    rw [List.append_nil]
    exact ⟨_, _, _, _, hstage, h⟩
  | cons r mid ih =>
    obtain ⟨_, t₁, hvisit, hmid⟩ := bind_eq_ok.mp hselect
    have hcomes := Comes.of_selectBlock hbefore hb hdone
    have hone : selectBlock [r] t = .ok () t₁ := bind_eq_ok.mpr ⟨_, t₁, hvisit, rfl⟩
    have hkeeps : t₁.code.frame.Extends t'.code.frame := by
      refine forM_induct (P := fun u ↦ t₁.code.frame.Extends u.code.frame) hmid (.refl _)
        fun _ _ _ _ _ ↦ (keptBySelection_extends _).selectTree
    obtain ⟨pre', post', next, o', hstage', h'⟩ := h.visit hparse hf hbuild hvoid hcasts hcomes hb hstage
      hrooms hvisit hF (hkeeps.trans hextends) hargs hfew (hstays r List.mem_cons_self)
    obtain ⟨pre'', post'', next', o'', hlast⟩ := ih (by simpa using hb)
      (forM_append_eq_ok.mpr ⟨t, hdone, hone⟩) hmid
      (fun r hr ↦ hstays r (List.mem_cons_of_mem _ hr)) hstage' h'
    refine ⟨pre'', post'', next', o'', ?_⟩
    simpa using hlast

end

end Midway

/-! ## Before a block -/

/-- A visit has code in its own block only. -/
theorem selectTree_instsAt (hbuild : buildForest f (.start f s) = .ok trees w) (hcomes : Comes trees w r t)
    (hvisit : selectTree r t = .ok x t') (hb : b ≠ t.code.current) :
    instsAt t'.code.blocks b = instsAt t.code.blocks b := by
  obtain ⟨hp, -⟩ := buildForest_planted hbuild
  obtain ⟨as, -, ⟨-, -, hcode, -⟩ | ⟨goal, u, b', u', he⟩⟩ := selectTree_trail hp (hcomes.marked hbuild) hvisit
  · rw [hcode]
  · rw [he.instsAt, if_neg hb, List.append_nil]

section

variable (hbuild : buildForest f (.start f s) = .ok trees w)
  (hbefore : selectAll (trees.take b) w = .ok x v₀)
include hbuild hbefore

/-- Selection has turned to the blocks before. -/
theorem selectAll_turns (hb : b < trees.length) :
    Assigning (fun _ ↦ True) trees.length b v₀ ∧ instsAt v₀.code.blocks b = [] := by
  obtain ⟨hp, hlength⟩ := buildForest_planted hbuild
  have htake : (trees.take b).length = b := List.length_take_of_le (Nat.le_of_lt hb)
  have hend := selectAll_induct (P := fun n t ↦ Assigning (fun _ ↦ True) trees.length n t ∧
      ∀ b', n ≤ b' → instsAt t.code.blocks b' = []) hbefore
    ⟨hp.assigning hlength, fun b' _ ↦ hp.declared.blank.insts b'⟩ ?_ ?_
  · rw [htake] at hend
    exact ⟨hend.1, hend.2 b (Nat.le_refl b)⟩
  · intro n t hn ⟨hassigning, hempty⟩
    refine ⟨hassigning.beginBlock (Nat.lt_of_lt_of_le hn (List.length_take_le' ..)) _, fun b' hb' ↦ ?_⟩
    rw [(Code.SameBodies.beginBlock t.code n _).instsAt]
    exact hempty b' (Nat.le_of_succ_le hb')
  · intro n root t t' hcomes ⟨hassigning, hempty⟩ hvisit
    refine ⟨hassigning.selectTree (fun _ _ _ _ _ _ _ _ _ _ ↦ trivial) hvisit, fun b' hb' ↦ ?_⟩
    have hcurrent : b' ≠ t.code.current := fun heq ↦
      absurd (hassigning.current (Nat.succ_pos n)) (Nat.ne_of_gt (Nat.lt_succ_of_le (heq ▸ hb')))
    rw [selectTree_instsAt hbuild hcomes.of_take hvisit hcurrent]
    exact hempty b' hb'

/-- Nothing comes from a block to which selection has not turned. -/
theorem selectAll_no_inputs (hb : trees[b]? = some roots) :
    ∀ phi ∈ phisAt v₀.code.blocks succ, ∀ y, (y, b) ∉ phi.incoming := by
  obtain ⟨hp, -⟩ := buildForest_planted hbuild
  obtain ⟨inputs, hhanded⟩ :=
    hp.handed (buildForest_recorded hbuild) (fun _ _ h ↦ Comes.of_take h) hbefore
  intro phi hphi y hy
  rw [hhanded.phis] at hphi
  obtain ⟨phi', hphi', rfl⟩ := List.mem_map.mp hphi
  rw [Phi.taking, hp.declared.blank.inputs succ phi' hphi', List.nil_append] at hy
  obtain ⟨e, he, heq⟩ := List.mem_map.mp hy
  obtain ⟨r, hr, id, i, k, kid, a, his, -⟩ :=
    exists_of_forall₂ hhanded.copies (List.mem_of_mem_filter he)
  obtain rfl : e.pred = b := (Prod.mk.inj heq).2
  -- the copy is a root of the block
  have hr' : r ∈ (trees.take e.pred).flatten := List.mem_of_mem_filter hr
  have hsorted := hp.sorted
  rw [← List.take_append_drop e.pred trees, List.flatten_append, List.pairwise_append] at hsorted
  have hmem : r ∈ roots := by
    have hmem := hp.mem_block_iff.mp ⟨(List.take_sublist _ _).flatten.subset hr', Node.block_of_core his.2⟩
    rwa [hb] at hmem
  exact Nat.lt_irrefl r (hsorted.2.2 r hr' r (List.mem_flatten.mpr
    ⟨roots, List.mem_of_getElem? (i := 0) (by simpa using hb), hmem⟩))

end

/-- The machine comes in the state `o` to block `b`, which is selected from `v₀` to `v` and evaluated from
`st`: what has been computed is in its registers, and allocas have the room that the frame gives them. -/
structure Enters (f : Func) (w v₀ v : Workspace) (σ : World) (b : BlockId) (st : BlockState)
    (o : Observed) : Prop where
  mem : o.core.mem = st.mem
  deeds : o.deeds = st.deeds
  stack : o.stack = []
  values : ∀ k x, (v₀.forest.node k).computed = true → (v₀.forest.node k).slot = .vreg x →
    o.core.regs (.virt x) = w.forest.worth σ st.values k
  rooms : ∀ id m, v.code.frame.slot? (.value id) = some m → o.core.address m = σ.slots id
  allocas : ∀ b' id i, b' ≠ b → (id, i) ∈ f.blockInsts b' → i.opcode = .alloca →
    st.values id = σ.slots id

theorem Enters.midway (h : Enters f w v₀ v σ b st o) (hbuild : buildForest f (.start f s) = .ok trees w)
    (hbefore : selectAll (trees.take b) w = .ok x v₀) (hb : trees[b]? = some roots)
    (heval : f.evalInsts .machine σ (f.blockInsts b) st = some st')
    (hargs : KeepsArguments f .machine σ b st o.core) :
    Midway f w σ v.code.frame (w.forest.worth σ st'.values) c trees.length b o [] (turned (trees.take b) v₀)
      st o := by
  obtain ⟨hp, -⟩ := buildForest_planted hbuild
  obtain ⟨hlt, -⟩ := List.getElem?_eq_some_iff.mp hb
  obtain ⟨hassigning, hempty⟩ := selectAll_turns hbuild hbefore hlt
  obtain ⟨inputs, hhanded⟩ :=
    hp.handed (buildForest_recorded hbuild) (fun _ _ h ↦ Comes.of_take h) hbefore
  have htake : (trees.take b).length = b := List.length_take_of_le (Nat.le_of_lt hlt)
  have hcomplete := (keptByVisits_complete hp.building.flat trees.flatten).selectAll
    ⟨_, by rw [← List.flatten_append, List.take_append_drop]⟩ ⟨.refl _, hp.complete⟩ hbefore
  have hcode := Code.SameBodies.beginBlock v₀.code b (blockLabel? v₀ b)
  rw [turned, htake]
  refine ⟨⟨hassigning.beginBlock hlt _, hcomplete.2.slotted, hhanded.forest, ?_, ?_, h.rooms⟩, h.mem, h.deeds,
    h.stack, rfl, ?_, ?_, ?_⟩
  · intro k x hk hx
    rw [worth_of_computed hbuild hb hbefore heval hk]
    exact h.values k x hk hx
  · refine hp.holds_arguments hhanded.forest fun idx hidx ↦ ?_
    rw [h.mem]
    exact hargs [] _ st rfl rfl idx hidx
  · rw [hcode.instsAt, hempty]
    rfl
  · rw [hcode.instsAt, hempty]
    exact List.forall_mem_nil _
  · intro succ phi hphi y hy
    rw [hcode.phisAt] at hphi
    exact absurd hy (selectAll_no_inputs hbuild hbefore hb phi hphi y)

/-! ## Leaving a block -/

/-- The last root of a block is its terminator, and the others stay in the block. -/
theorem TreesOf.terminated (h : TreesOf f b w roots) (hw : w.Building f)
    {is : List (InstId × ResolvedInst)} {last : InstId × ResolvedInst}
    (hinsts : f.blockInsts b = is ++ [last]) (hnone : ∀ x ∈ is, x.2.opcode.isTerminator = false) :
    ∃ body r, roots = body ++ [r] ∧ w.Results last.1 r ∧
      ∀ r' ∈ body, (w.forest.node r').op ≠ .inst .br ∧ (w.forest.node r').op ≠ .inst .ret := by
  have hresults := h.results
  obtain ⟨body, r, rfl⟩ : ∃ body r, roots = body ++ [r] := by
    rcases List.eq_nil_or_concat roots with rfl | hconcat
    · rw [hinsts] at hresults
      exact absurd (List.forall₂_nil_left_iff.mp hresults) (by simp)
    · simpa using hconcat
  have hinst : (w.forest.node r).opcode?.isSome = true := by
    obtain ⟨r', hr', hle, o, ho⟩ := h.last r (by simp)
    rcases List.mem_append.mp hr' with hbody | hr'
    · have hlt := (List.pairwise_append.mp h.sorted).2.2 r' hbody r List.mem_cons_self
      exact absurd hle (Nat.not_le.mpr hlt)
    · rw [← List.mem_singleton.mp hr', Node.opcode?, ho]
      rfl
  rw [List.filter_append, List.filter_singleton, hinst] at hresults
  obtain ⟨pre, post, heq, hpre, hpost⟩ := exists_append_of_forall₂ hresults
  obtain ⟨x, hx, rfl⟩ := exists_of_forall₂_one hpost
  obtain ⟨rfl, hlast⟩ := List.append_inj' (hinsts.symm.trans heq) rfl
  obtain rfl := List.singleton_inj.mp hlast
  refine ⟨body, r, rfl, hx, fun r' hr' ↦ ?_⟩
  suffices hstays : ∀ o, (w.forest.node r').op = .inst o → o.isTerminator = false by
    exact ⟨fun hop ↦ absurd (hstays _ hop) (by decide), fun hop ↦ absurd (hstays _ hop) (by decide)⟩
  intro o ho
  obtain ⟨y, hy, hresult⟩ := exists_of_forall₂ hpre.flip
    (List.mem_filter.mpr ⟨hr', by rw [Node.opcode?, ho]; rfl⟩)
  have hop := hw.op_of_results hresult (hinsts ▸ List.mem_append_left _ hy : y ∈ f.blockInsts b)
  rw [NodeOp.inst.inj (ho.symm.trans hop)]
  exact hnone y hy

/-- The machine leaves a block in the state `s` the way in which the evaluation of the block does. -/
def Leaves (w : Workspace) (s : Core) : Departure → Observed.Exit → Prop
  | .goto succ, .goto l => blockLabel? w succ = some l
  | .ret value, .ret => ∀ z ∈ value, s.regs (.phys .rax) = z
  | _, _ => False

/-- The node of an operand is no label. -/
theorem Workspace.Denotes.op_ne_label {p : Ir.Operand Value} {j : NodeId} (h : w.Denotes f (.operand p) j)
    (hw : w.Building f) : (w.forest.node (w.forest.owner j)).op ≠ .label := by
  cases h with
  | int _ his | float his | arg _ his =>
    rw [Forest.owner_of_target (Node.target_of_core his.2), his.op]
    exact NodeOp.noConfusion
  | inst hk =>
    obtain ⟨hlt, ⟨o, ho⟩, -⟩ := hk
    rcases hw.owner hlt with howner | ⟨b, id, i, v, his⟩
    · rw [howner, ho]
      exact NodeOp.noConfusion
    · rw [his.op]
      exact NodeOp.noConfusion

/-- The node of a block's label. -/
theorem Workspace.Denotes.blockLabel? {succ : BlockId} {j : NodeId} (h : w.Denotes f (.block succ) j)
    (hheld : w.forest.HoldsOn u.forest) : w.forest.owner j = j ∧
      ∀ l, (u.forest.node j).slot = .label l → Work.blockLabel? w succ = some l := by
  cases h with
  | block hlabel his =>
    refine ⟨Forest.owner_of_target (Node.target_of_core his.2), fun l hl ↦ ?_⟩
    rw [(hheld.held j fun o ho ↦ NodeOp.noConfusion (his.op.symm.trans ho)).2] at hl
    exact blockLabel?_eq_some.mpr ⟨j, hlabel, hl⟩

/-- The leaves of a rule for an instruction. -/
theorem Rule.Matches.leaves_of_inst {g : Forest} {rule : Rule} {op : Opcode} {goals : List Nonterminal}
    (h : rule.Matches g k) (hp : rule.pattern.inst? = some (op, goals)) :
    rule.pattern.leaves g k = (g.kidOwners k).zip goals := by
  rw [← rule.pattern.takeLeaves_fst k g (.refl g)]
  exact (Pattern.leaves_of_inst hp h.fits (.refl g)).1

theorem Brink.op_label (h : Brink σ F V m n c r as u u' s₁ below base s₂)
    (hls : u.labels.Derives u.forest) {q : NodeId} (hq : (q, .label) ∈ base.rule.pattern.leaves u.forest r) :
    (u.forest.node q).op = .label := by
  obtain ⟨u₁, -, -, -, htrail⟩ := h.peaks.leaves
  exact htrail.label hls _ hq rfl

/-- Code that leaves a block where the evaluation of the block has come to the terminator `i`. -/
def Departs (w : Workspace) (σ : World) (c : Callee) (st : BlockState) (i : ResolvedInst)
    (is : List Machine.Inst) (o : Observed) : Prop :=
  ∃ d exit s, Arithmetic.machine.departure? σ st i = some d ∧ Spares (fun _ ↦ False) o.core s ∧
    Observed.exec σ c is o = some (o.withCore s, exit) ∧ Leaves w s d exit

namespace Brink

section

variable {i : ResolvedInst} {kids : List NodeId} (hheld : w.forest.HoldsOn u.forest)
  (hls : u.labels.Derives u.forest)
  (h : Brink σ F (w.forest.worth σ st'.values) m n c r as u u' s₁ below base s₂)
  (hkidOwners : u.forest.kidOwners r = kids.map w.forest.owner) (hkids : w.HasKids f r i.operation kids)
include hheld hls h hkidOwners hkids

/-- A terminator that goes to one block. -/
theorem departs_br (hoperation : i.operation = .br succ)
    (haction : base.rule.action ∈ [.jump, .branchCond, .branchTest]) :
    Departs w σ c st' i base.code (o.withCore s₂) := by
  have hmem := h.fits.mem
  have hleaf := @h.op_label
  rw [hoperation] at hkids
  cases hkids with
  | other _ hnot => exact absurd rfl (hnot succ)
  | @br _ kid hkid _ hfirst =>
    obtain ⟨howner, hlabel⟩ := hkid.blockLabel? hheld
    have hpad : w.forest.owner (r + 1) = r + 1 := Forest.owner_of_target (Node.target_of_core hfirst.2)
    simp only [List.map, howner, hpad] at hkidOwners
    simp only [List.mem_cons, List.not_mem_nil, or_false] at haction
    rcases haction with haction | haction
    · obtain ⟨p, _, _, l, heq, hl, hexec⟩ := h.fits.jumps (σ := σ) (c := c) (o := o.withCore s₂) h.kids
        (h.expands (haction ▸ Action.noConfusion)) haction
      obtain ⟨rfl, -⟩ := List.cons.inj (hkidOwners.symm.trans heq)
      exact ⟨.goto succ, _, s₂, by rw [Arithmetic.departure?, hoperation], .refl _, hexec, hlabel l hl⟩
    · -- the second child would be a label
      have hgoals : ∃ goal, base.rule.pattern.inst? = some (.br, [goal, .label, .label]) :=
        haction.elim (fun h ↦ ⟨_, (Grammar.tile_branchCond _ hmem h).2⟩)
          fun h ↦ ⟨_, (Grammar.tile_branchTest _ hmem h).2⟩
      obtain ⟨goal, hgoals⟩ := hgoals
      have hop := hleaf hls (q := r + 1) (by simp [h.fits.leaves_of_inst hgoals, hkidOwners])
      rw [hheld.skeleton.op, hfirst.op] at hop
      exact absurd hop NodeOp.noConfusion

variable (hw : w.Building f) (hrooms : w.Roomy σ st'.values)
include hw hrooms

/-- A terminator that goes to one of two blocks. -/
theorem departs_condBr {z : Ir.Operand Value} {e : BlockId} (hoperation : i.operation = .condBr z succ e)
    (haction : base.rule.action ∈ [.jump, .branchCond, .branchTest]) :
    Departs w σ c st' i base.code (o.withCore s₂) := by
  have hmem := h.fits.mem
  have hleaf := @h.op_label
  rw [hoperation] at hkids
  cases hkids with
  | other _ _ hkids =>
    obtain ⟨p, q, q', hp, hq, hq', rfl⟩ := exists_of_forall₂_three hkids
    obtain ⟨howner, hlabel⟩ := hq.blockLabel? hheld
    obtain ⟨howner', hlabel'⟩ := hq'.blockLabel? hheld
    simp only [List.map, howner, howner'] at hkidOwners
    simp only [List.mem_cons, List.not_mem_nil, or_false] at haction
    rcases haction with haction | haction
    · -- the first child would be a label
      have hgoals := (Grammar.tile_jump _ hmem haction).2
      have hop := hleaf hls (q := w.forest.owner p) (by simp [h.fits.leaves_of_inst hgoals, hkidOwners])
      exact absurd ((hheld.skeleton.op _).symm.trans hop) (hp.op_ne_label hw)
    · obtain ⟨p', q₁, q₂, l, l', s₃, heq, hl, hl', hspares, hexec⟩ := h.fits.branches (σ := σ) (c := c)
        (o := o.withCore s₂) h.kids (h.expands (by rcases haction with h | h <;> rw [h] <;> decide)) haction
      rw [hkidOwners] at heq
      obtain ⟨rfl, rfl, rfl, -⟩ := heq
      rw [hp.worth hw hrooms] at hexec
      refine ⟨.goto (if Arithmetic.machine.test (Arithmetic.machine.operand σ st' z) then succ else e), _, s₃,
        by rw [Arithmetic.departure?, hoperation], hspares, hexec, ?_⟩
      rw [Arithmetic.machine]
      simp only [decide_eq_true_eq]
      split
      · exact hlabel l hl
      · exact hlabel' l' hl'

omit hheld hls in
/-- A terminator that leaves the function. -/
theorem departs_ret {value : Option (Ir.Operand Value)} (hoperation : i.operation = .ret value)
    (haction : base.rule.action = .ret) : Departs w σ c st' i base.code (o.withCore s₂) := by
  obtain ⟨s₃, hspares, hexec, hresult⟩ := h.fits.returns (σ := σ) (c := c) (o := o.withCore s₂) h.kids
    (h.expands (haction ▸ Action.noConfusion)) haction
  refine ⟨.ret (value.map (Arithmetic.machine.operand σ st')), _, s₃,
    by rw [Arithmetic.departure?, hoperation], hspares, hexec, fun y hy ↦ ?_⟩
  obtain ⟨z, rfl, rfl⟩ := Option.map_eq_some_iff.mp hy
  rw [hoperation] at hkids
  obtain ⟨p, ⟨hp, -⟩, rfl⟩ := exists_of_forall₂_one (hkids.places Opcode.noConfusion Opcode.noConfusion)
  rw [hresult _ hkidOwners]
  exact hp.worth hw hrooms

end

/-- What a terminator does. -/
theorem departs {x : InstId × ResolvedInst} (hp : Planted f trees w) (hk : w.Results x.1 r)
    (hi : x ∈ f.blockInsts b) (hterminator : x.2.opcode.isTerminator = true) (hrooms : w.Roomy σ st'.values)
    (hheld : w.forest.HoldsOn u.forest) (hls : u.labels.Derives u.forest)
    (h : Brink σ F (w.forest.worth σ st'.values) m n c r as u u' s₁ below base s₂) :
    base.rule.action ∈ [.jump, .branchCond, .branchTest, .ret] ∧
      Departs w σ c st' x.2 base.code (o.withCore s₂) := by
  have hop := hp.building.op_of_results hk hi
  obtain ⟨kids, his, hkids⟩ := hp.of_results hk hi fun hphi ↦ by
    rw [hphi] at hterminator
    exact Bool.false_ne_true hterminator
  obtain ⟨-, -, -, hbr, hret⟩ := Grammar.action_of_final base.rule h.fits.mem
  have hhead := h.head? ((hheld.skeleton.op r).trans hop)
  have hkidOwners : u.forest.kidOwners r = kids.map w.forest.owner := by
    rw [hheld.skeleton.kidOwners, Forest.kidOwners, Node.kids_of_core his.2]
    rfl
  have hterm : ∀ {action : Action}, action ∈ [.jump, .branchCond, .branchTest] →
      action ∈ [.jump, .branchCond, .branchTest, .ret] := fun h ↦ List.mem_append_left [Action.ret] h
  rw [Inst.opcode] at hterminator hhead
  cases hoperation : x.2.operation with
  | br succ =>
    rw [hoperation] at hhead
    exact ⟨hterm (hbr hhead), h.departs_br hheld hls hkidOwners hkids hoperation (hbr hhead)⟩
  | condBr z t e =>
    rw [hoperation] at hhead
    exact ⟨hterm (hbr hhead), h.departs_condBr hheld hls hkidOwners hkids hp.building hrooms
      hoperation (hbr hhead)⟩
  | ret value =>
    rw [hoperation] at hhead
    have haction := hret hhead
    exact ⟨by rw [haction]; decide,
      h.departs_ret hkidOwners hkids hp.building hrooms hoperation haction⟩
  | _ =>
    rw [hoperation] at hterminator
    exact absurd hterminator Bool.false_ne_true

end Brink

/-- The machine has left block `b`, which was entered in the state `o₀`, in the state `o`, where its
evaluation ends in `st`: it goes where the block goes, and what has been computed and what is handed to
phis is at hand. -/
structure Exits (f : Func) (A : Arithmetic) (w v : Workspace) (σ : World) (b : BlockId) (st : BlockState)
    (o₀ o : Observed) (exit : Observed.Exit) : Prop where
  mem : o.core.mem = st.mem
  deeds : o.deeds = st.deeds
  stack : o.stack = []
  frame : o.core.regs (.phys .rbp) = o₀.core.regs (.phys .rbp)
  values : ∀ k x, (v.forest.node k).computed = true → (v.forest.node k).slot = .vreg x →
    o.core.regs (.virt x) = w.forest.worth σ st.values k
  departs : ∃ d, f.departure? A σ b st = some d ∧ Leaves w o.core d exit
  inputs : ∀ succ, List.Forall₂ (fun x phi ↦ ∀ y, (y, b) ∈ phi.incoming →
    ∃ value, x.2.operation.incoming.find? (·.2 == b) = some (value, b) ∧
      o.core.read 8 y = some (A.operand σ st value))
    (f.blockPhis succ) (phisAt v.code.blocks succ)

section

variable (hparse : parse text = .ok fs) (hf : f ∈ fs)
  (hbuild : buildForest f (.start f s) = .ok trees w)
  (hvoid : ∀ {p q}, q ∈ w.forest.kidOwners p → ¬ w.forest.IsVoidCall q) (hcasts : f.CastsExtend)
include hparse hf hbuild hvoid hcasts

/-- The terminator. -/
theorem Midway.leaves {x : InstId × ResolvedInst} (hcomes : Comes trees w r t)
    (hb : trees[b]? = some (done ++ [r])) (hstage : Stage f w σ b st st' done [r] pre [x] now)
    (hterminator : x.2.opcode.isTerminator = true)
    (hrooms : w.Roomy σ st'.values) (h : Midway f w σ F (w.forest.worth σ st'.values) c m b o₀ done t now o)
    (hvisit : selectTree r t = .ok () t') (hF : F.Addressed) (hextends : t'.code.frame.Extends F) :
    ∃ o' exit, Observed.exec σ c (instsAt t'.code.blocks b) o₀ = some (o', exit) ∧
      Ready w.forest σ F (w.forest.worth σ st'.values) m b t' o'.core ∧ o'.core.mem = st'.mem ∧
      o'.deeds = st'.deeds ∧ o'.stack = [] ∧ o'.core.regs (.phys .rbp) = o₀.core.regs (.phys .rbp) ∧
      (∃ d, f.departure? .machine σ b st' = some d ∧ Leaves w o'.core d exit) ∧
      ∀ succ, ∀ phi ∈ phisAt t'.code.blocks succ, ∀ y, (y, b) ∈ phi.incoming →
        ReadsCopy f w (w.forest.worth σ st'.values) b done t'.code.vregs o'.core succ phi.dst y := by
  obtain ⟨hp, -⟩ := buildForest_planted hbuild
  have hxb : x ∈ f.blockInsts b := hstage.insts ▸ by simp
  obtain ⟨r', hr', hresults⟩ := exists_of_forall₂ hstage.left List.mem_cons_self
  obtain rfl := List.mem_singleton.mp (List.mem_of_mem_filter hr')
  have hop := hp.building.op_of_results hresults hxb
  have hkinds : (w.forest.node r').op.isFinal = true ∧ (w.forest.node r').op ≠ .phiMove ∧
      x.2.opcode.writesMemory = false := by
    rw [hop]
    generalize x.2.opcode = opcode at hterminator
    cases opcode <;> first | exact absurd hterminator Bool.false_ne_true | exact ⟨rfl, NodeOp.noConfusion, rfl⟩
  obtain ⟨hfinal, hmove, hquiet⟩ := hkinds
  obtain ⟨as, goal, u, bound, u', below, base, s₁, he, hbrink⟩ := h.exists_brink hparse hf hbuild hvoid
    hcasts hcomes hb hstage hrooms hvisit hF hextends hfinal
  have hheld := h.ready.held.trans (.of_sameValues he.starts.sameValues.1 he.values)
  obtain ⟨haction, d, exit, s₂, hdeparture, hspares, hexec, hleaves⟩ :=
    hbrink.departs (c := c) (o := o) hp hresults hxb hterminator hrooms hheld he.derives
  have hphi : base.rule.action ≠ .phiInput := fun h ↦ absurd (h ▸ haction) (by decide)
  have hready := hbrink.ready.spared hF (hspares.mono fun _ h ↦ h.elim)
  obtain ⟨hready', hle⟩ := hbrink.settles hphi hready ((hbrink.expands hphi).eq_none haction ▸ trivial)
  have hphis :=
    (selectTree_keepsPhis hp (buildForest_recorded hbuild) h.ready.held.skeleton hmove hvisit).phis
  obtain ⟨hmem, hdeeds⟩ := Func.mem_evalInsts hstage.after fun y hy ↦ by
    rwa [List.mem_singleton.mp hy]
  have hvregs : t.code.vregs ≤ t'.code.vregs := by
    rw [he.code, ← he.code_eq]
    exact hbrink.vregs.trans hle
  have hall := hbrink.spares.trans (hspares.mono fun _ h ↦ h.elim)
  refine ⟨o.withCore s₂, exit, ?_, he.ready_after h.ready hready', hall.mem.trans (h.mem.trans hmem.symm),
    h.deeds.trans hdeeds.symm, h.stack, hall.frame.trans h.frame, ⟨d, ?_, hleaves⟩,
    fun succ phi hmem y hy ↦ ?_⟩
  · have hrun : Observed.run σ c (instsAt t.code.blocks b ++ below.flatMap (·.code)) o₀ =
        some (o.withCore s₁) := by
      rw [Observed.run_append, h.code, Option.bind_some,
        Observed.run_quiet fun i hi ↦ (hbrink.quiet i hi).1, hbrink.run]
      rfl
    rw [he.instsAt, if_pos h.current.symm, hbrink.peaks.code, ← List.append_assoc, Observed.exec_append _ hrun
      (List.forall_mem_append.mpr ⟨h.straight, fun i hi ↦ (hbrink.quiet i hi).2⟩), hexec,
      Observed.withCore_withCore]
  · rw [Func.departure?, hstage.insts, List.getLast?_concat, Option.bind_some, hdeparture]
  · rw [hphis] at hmem
    exact (h.inputs succ phi hmem y hy).later (he.code_eq ▸ hall) hvregs (List.Subset.refl _)

/-- **Blocks.** The code that is selected for a block does what the block does. -/
theorem selectBlock_executes (hbefore : selectAll (trees.take b) w = .ok () v₀)
    (hb : trees[b]? = some roots) (hblock : selectBlock roots (turned (trees.take b) v₀) = .ok () v)
    (hfew : ∀ x ∈ f.blockInsts b, ∀ callee args, x.2.operation = .call callee args →
      8 * args.length < 2 ^ 31)
    (heval : f.evalInsts .machine σ (f.blockInsts b) st = some st')
    (hargs : KeepsArguments f .machine σ b st o.core) (henters : Enters f w v₀ v σ b st o) :
    ∃ o' exit, Observed.exec σ c (instsAt v.code.blocks b) o = some (o', exit) ∧
      Exits f .machine w v σ b st' o o' exit := by
  obtain ⟨hp, hlength⟩ := buildForest_planted hbuild
  obtain ⟨hlt, hget⟩ := List.getElem?_eq_some_iff.mp hb
  have hwell : f.WellFormed := parse_reads hparse (fun _ ↦ readLines_wellFormed nofun) f hf
  obtain ⟨is, last, hinsts, hlast, hnone⟩ := hwell.blockInsts (hlength ▸ hlt)
  obtain ⟨body, r, rfl, hresults, hstays⟩ := (hp.block b _ hb).terminated hp.building hinsts hnone
  obtain ⟨t, hbody, hroot⟩ := forM_append_eq_ok.mp hblock
  obtain ⟨_, _, hvisit, hnil⟩ := bind_eq_ok.mp hroot
  obtain ⟨-, rfl⟩ := pure_eq_ok.mp hnil
  have hrooms := hp.roomy hb heval henters.allocas
  have hstart := henters.midway (c := c) hbuild hbefore hb heval hargs
  have hF : v.code.frame.Addressed := Assigning.frame <| forM_induct
    (P := Assigning (fun _ ↦ True) trees.length (b + 1)) hblock hstart.ready.assigning
    fun _ _ _ _ _ h ↦ h.selectTree fun _ _ _ _ _ _ _ _ _ _ ↦ trivial
  have hextends : t.code.frame.Extends v.code.frame :=
    (keptBySelection_extends _).selectTree (.refl _) hvisit
  -- all roots but the last one
  obtain ⟨pre, post, now, o₁, hstage, hmidway⟩ := Midway.visits hparse hf hbuild hvoid hcasts hbefore hrooms hF
    hargs hfew (show trees[b]? = some ([] ++ _) from hb) rfl hbody hextends hstays
    ⟨rfl, .nil, (hp.block b _ hb).results, rfl, heval⟩ hstart
  rw [List.nil_append] at hstage hmidway
  -- the terminator
  obtain ⟨x, hx⟩ : ∃ x, post = [x] := by
    refine List.length_eq_one_iff.mp ?_
    rw [← hstage.left.length_eq, List.filter_singleton, Node.opcode?,
      hp.building.op_of_results hresults (hinsts ▸ by simp : last ∈ f.blockInsts b)]
    rfl
  subst hx
  obtain ⟨-, heq⟩ := List.append_inj' (hinsts.symm.trans hstage.insts) rfl
  obtain rfl := List.singleton_inj.mp heq
  obtain ⟨o', exit, hexec, hready, hmem, hdeeds, hstack, hframe, hdeparts, hinputs⟩ :=
    Midway.leaves hparse hf hbuild hvoid hcasts (.of_selectBlock hbefore hb hbody) hb hstage hlast hrooms
      hmidway hvisit hF (.refl _)
  refine ⟨o', exit, hexec, hmem, hdeeds, hstack, hframe, hready.agrees.computed, hdeparts, fun succ ↦ ?_⟩
  -- what is handed to phis
  have htake : trees.take (b + 1) = trees.take b ++ [body ++ [r]] := by
    rw [List.take_succ_eq_append_getElem hlt, hget]
  obtain ⟨inputs, hhanded⟩ := hp.handed (buildForest_recorded hbuild)
    (fun _ _ h ↦ Comes.of_take (b := b + 1) (htake ▸ h)) (selectAll_concat.mpr ⟨v₀, hbefore, hblock⟩)
  rw [hhanded.phis, List.forall₂_map_right_iff]
  refine List.forall₂_iff_zip.mpr ⟨(hp.declared.phis succ).length_eq, fun {x phi} hx y hy ↦ ?_⟩
  obtain ⟨r', -, id, i, k, kid, hi, his, hslot, hread, -⟩ := hinputs succ (phi.taking succ inputs)
    (hhanded.phis succ ▸ List.mem_map_of_mem (List.of_mem_zip hx).2) y hy
  obtain ⟨value, hfind, hk, hdenotes⟩ := hp.of_copy his hi
  obtain rfl := hp.eq_of_register hx hi hk hslot
  exact ⟨value, hfind, hread.trans (congrArg some (hdenotes.worth hp.building hrooms))⟩

end

end TreeCover
