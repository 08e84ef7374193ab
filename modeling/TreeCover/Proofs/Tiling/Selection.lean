import TreeCover.Proofs.Tiling.Expansion
import TreeCover.Proofs.Tiling.Selecting
import TreeCover.Proofs.Tiling.ReduceStep

/-!
# Selection

The visit of a root keeps the invariant of selection, whether the root is passed over, left to its
consumers or emitted. So once all roots have been visited, the code reads only what its blocks know.
-/

namespace TreeCover

open Ir Machine Work

variable {f : Func} {trees : List (List NodeId)} {w₀ w w₁ w' : Workspace} {rest roots : List NodeId}
  {g : Forest} {a b : BlockId} {k r : NodeId} {v : VReg} {nt : Nonterminal} {o : Opcode}
  {labels : Labels} {session : Session} {fuel : Nat} {result : Bound} {u : Unit}
  {mine : NodeId → Prop} {avail : VReg → Prop}

/-! ## Copies into phis -/

theorem Grammar.action_of_phiMove : ∀ r ∈ Grammar.rules, r.pattern.head? = some .phiMove →
    r.action = .phiInput := by decide

/-- The rule by which the copy into a phi is reduced is one for such copies. -/
theorem head?_of_phiMove {rule : Rule} {kids : List Bound} (hlabels : w.labels.Sound w.forest)
    (howner : w.forest.owner r = r) (hnew : (w.forest.node r).computed = false)
    (hop : (w.forest.node r).op = .phiMove) (hmatches : rule.Matches w.forest r)
    (hkids : (rule.pattern.takeLeaves r w.forest).1.mapM (reduceLeaf fuel) (w.took rule r nt)
      = .ok kids w₁) : rule.pattern.head? = some .phiMove := by
  have hnode : (w.forest.node r).head? = some .phiMove := by rw [Node.head?, hnew, hop]; rfl
  cases hp : rule.pattern with
  | nt s =>
    rw [Workspace.took, hp, Pattern.takeLeaves] at hkids
    obtain ⟨b₁, _, _, hs, -⟩ := mapM_cons_eq_ok.mp hkids
    have hstill : w.forest.Progress (fun _ ↦ False) (fun _ ↦ False) (fun _ _ ↦ False)
      w.forest := .refl _
    have hstmt : s = .stmt := reduceFrom_barren
      (w := { w with session := w.session.report _ }) hlabels howner hstill hnew
      (by rw [hop]; rfl) hs
    exact absurd hstmt fun hs ↦ Grammar.source?_rules rule hmatches.1
      (by simp [hp, hs, Pattern.source?])
  | op head ps => exact (hmatches.2.head? (hp ▸ rfl)).symm.trans hnode
  | variadic head goal => exact (hmatches.2.head? (hp ▸ rfl)).symm.trans hnode

/-- The copy into a phi is reduced by a rule for such copies. -/
theorem reduceFrom_phiMove (hlabels : w.labels.Sound w.forest) (howner : w.forest.owner r = r)
    (hnew : (w.forest.node r).computed = false) (hop : (w.forest.node r).op = .phiMove)
    (h : reduceFrom fuel r nt w = .ok result w') :
    ∃ fuel rule kids w₁, rule.Matches w.forest r ∧ rule.pattern.head? = some .phiMove ∧
      (rule.pattern.takeLeaves r w.forest).1.mapM (reduceLeaf fuel) (w.took rule r nt) = .ok kids w₁ ∧
      applyRule rule r kids w₁ = .ok result w' := by
  cases fuel with
  | zero => exact absurd h failCovering_ne_ok
  | succ fuel =>
    rcases reduceFrom_cases howner h with
      ⟨hreuse, -⟩ | ⟨rule, kids, w₁, w₂, -, hrule, hkids, happly, hmark⟩
    · exact absurd ((Node.reuse?_of_not_computed hnew nt).symm.trans hreuse) (by simp)
    · obtain ⟨hmatches, -⟩ := hlabels.rule hrule
      have hhead := head?_of_phiMove hlabels howner hnew hop hmatches hkids
      refine ⟨fuel, rule, kids, w₁, hmatches, hhead, hkids, ?_⟩
      obtain ⟨_, _, _, _, -, -, -, rfl, -⟩ :=
        applyRule_phiInput (Grammar.action_of_phiMove rule hmatches.1 hhead) happly
      rcases hmark with ⟨_, _, -, hreg, -⟩ | ⟨-, rfl⟩
      · exact absurd hreg (by simp)
      · exact happly

/-! ## Sites -/

theorem Forest.SameSkeleton.isVoidCall {f f' : Forest} (h : f.SameSkeleton f') :
    f'.IsVoidCall k ↔ f.IsVoidCall k := by
  rw [IsVoidCall, h.op, h.width, IsVoidCall]

theorem Forest.SameSkeleton.isFree {f f' : Forest} (h : f.SameSkeleton f') :
    f'.IsFree k ↔ f.IsFree k := by
  rw [IsFree, h.op, h.isVoidCall, IsFree]

namespace Selecting

section

variable (hp : Planted f trees w₀) (h : Selecting trees w₀ (r :: rest) w.code w.forest)
include hp h

theorem site (mine : NodeId → Prop) :
    Site w.forest mine (w.forest.Usable mine fun _ ↦ True) where
  flat := h.flat hp
  barren k hk := by
    rw [h.forest.skeleton.op] at hk
    refine h.not_computed hp (fun hop ↦ ?_) fun _ ↦ hk
    rw [hop] at hk
    exact absurd hk (by decide)
  argument k i m hop hslot := by
    rw [h.forest.skeleton.op] at hop
    have hlt : k < w₀.forest.size := Forest.lt_size_of_op hop NodeOp.noConfusion
    have hcomputed := h.not_computed hp (k := k) (by rw [hop]; exact NodeOp.noConfusion)
      fun ⟨o, ho⟩ ↦ absurd (hop.symm.trans ho) NodeOp.noConfusion
    rw [h.forest.slots k hcomputed] at hslot
    exact (hp.building.nodes k hlt).shape.argument_slot hop hslot
  touched _ hk := hk

omit hp in
theorem reducing (hlabels : w.labels.Sound w.forest)
    (hcurrent : w.code.current < w.code.blocks.length) :
    Reducing w.forest mine (w.forest.Usable mine fun _ ↦ True) avail w :=
  ⟨.refl _, hlabels, h.draft.frame, hcurrent⟩

/-- What the work on the tree of a root leaves. -/
theorem runs (hcurrent : w.code.current < w.code.blocks.length)
    (hruns : Runs w.forest (MayEmit w₀.forest w.code.current rest)
      (w.forest.Usable (MayEmit w₀.forest w.code.current rest) fun _ ↦ True)
      (Supplied w.code.blocks w.forest.HoldsAlloca w.code.current) w w') :
    Persists w.code w.forest w'.code w'.forest ∧ Drafted w₀.code w'.code w'.forest ∧
      w.forest.Progress (fun k ↦ k ∉ rest)
        (fun k ↦ k ∈ rest → (w₀.forest.node k).op.isBarren = true)
        (HeldIn w₀.forest w'.code.blocks w'.forest) w'.forest := by
  have hskeleton := h.forest.skeleton
  have haddresses : ∀ v, w.forest.HoldsAlloca v → w'.forest.HoldsAlloca v :=
    fun v ↦ hruns.forest.holdsAlloca
  obtain ⟨is, hemits, hreads, hfresh⟩ := hruns.code
  have hpersists : Persists w.code w.forest w'.code w'.forest :=
    Persists.emits hemits hcurrent haddresses
  refine ⟨hpersists, h.draft.emits hemits hcurrent haddresses hreads hfresh,
    hruns.forest.imp (fun _ hk ↦ hk.1) (fun k husable hk ↦ ?_)
    fun k v hk hcomputed hslot hholds ↦ ?_⟩
  · cases hbarren : (w₀.forest.node k).op.isBarren with
    | true => rfl
    | false =>
      exfalso
      obtain ⟨-, hop⟩ := hp.root (h.suffix.subset (List.mem_cons_of_mem r hk))
      obtain ⟨o, ho⟩ := hop.resolve_left fun hop ↦ by
        rw [hop] at hbarren
        exact absurd hbarren (by decide)
      have hop' := (hskeleton.op k).trans ho
      cases husable.2 (by rw [hskeleton.op]; exact hbarren) with
      | computed hcomputed =>
        obtain ⟨hrest, -⟩ := h.marked hp (by rw [ho]; exact NodeOp.noConfusion) hcomputed
        exact hrest (List.mem_cons_of_mem r hk)
      | leaf _ hleaf =>
        rw [hop'] at hleaf
        exact absurd hleaf (by simp [NodeOp.isLeaf])
      | inner _ hinner =>
        rcases hinner with hargs | ⟨hmay, -⟩
        · exact absurd (hargs.symm.trans hop') NodeOp.noConfusion
        · exact hmay.1 hk
  · refine ⟨?_, ?_, fun hvoid ↦ hholds.wide (hskeleton.isVoidCall.mpr hvoid), fun b hb ↦ ?_⟩
    · obtain ⟨o, ho⟩ := hholds.inst
      exact ⟨o, (hskeleton.op k).symm.trans ho⟩
    · rw [← hskeleton.op]
      exact hholds.value
    · have hwritten : (w₀.forest.node k).op = .inst .alloca →
          Knows w'.code.blocks w'.forest b v := by
        intro halloca
        have hop := (hskeleton.op k).trans halloca
        have hholds' : w'.forest.HoldsAlloca v :=
          ⟨k, (hruns.forest.skeleton.op k).trans hop, hcomputed, hslot⟩
        exact hholds'.knows (hholds.address hop) b
      rcases hb with halloca | hblock
      · exact hwritten halloca
      · rcases hk.2 with hcurrent' | halloca | hvoid
        · obtain rfl := Option.some.inj (hcurrent'.symm.trans hblock)
          refine hholds.known.imp hpersists.supplied fun hw ↦ ?_
          rw [Workspace.Written, hemits.current] at hw
          exact hw
        · exact hwritten halloca
        · exact absurd (hskeleton.isVoidCall.mpr hvoid) hholds.wide

/-! ## Instructions -/

omit hp in
theorem owner_root (htarget : (w₀.forest.node r).target = none) : w.forest.owner r = r :=
  Forest.owner_of_target ((h.forest.skeleton.target r).trans htarget)

omit hp in
/-- A value that is wanted elsewhere is reduced to a register. -/
theorem goalOf_value (hop : (w₀.forest.node r).op = .inst o) (hne : o ≠ .alloca)
    (hbarren : (w₀.forest.node r).op.isBarren = false)
    (htarget : (w₀.forest.node r).target = none) (hrefs : 0 < (w₀.forest.node r).refs) :
    goalOf w.forest r = .reg := by
  have hrefs' : 0 < w.forest.refs r := by
    rw [Forest.refs, h.owner_root htarget, h.forest.refs r fun ht ↦ ?_]
    · exact hrefs
    · exact absurd (hbarren.symm.trans (ht List.mem_cons_self)) (by simp)
  have hvalue : (w.forest.node r).opcode?.any
      (fun op ↦ op.isDefinition && decide (op ≠ .alloca)) = true := by
    rw [Node.opcode?, h.forest.skeleton.op, hop]
    rw [hop] at hbarren
    cases o <;> simp_all [Opcode.isDefinition, NodeOp.isBarren]
  rw [goalOf, hvalue]
  simp [hrefs']

/-- Emitting the tree of an instruction. -/
theorem emit_inst (hssa : f.IsSsa) (hop : (w₀.forest.node r).op = .inst o)
    (htarget : (w₀.forest.node r).target = none)
    (hblock : (w₀.forest.node r).block = some w.code.current)
    (hcurrent : w.code.current < w.code.blocks.length) (hlabels : w.labels.Sound w.forest)
    (hreduce : reduceFrom fuel r (goalOf w.forest r) w = .ok result w') :
    Selecting trees w₀ rest w'.code w'.forest ∧ w'.code.current = w.code.current := by
  have hready := h.ready hp hssa hop htarget hblock (Nat.le_refl r)
  have hw : Reducing w.forest (MayEmit w₀.forest w.code.current rest) _
      (Supplied w.code.blocks w.forest.HoldsAlloca w.code.current) w :=
    h.reducing hlabels hcurrent
  obtain ⟨hruns, hresult⟩ := reduceFrom_ready (h.site hp _) hw (h.owner_root htarget) hready hreduce
  obtain ⟨hpersists, hdraft, hprogress⟩ := h.runs hp hcurrent hruns
  have hcurrent' : w'.code.current = w.code.current := by
    obtain ⟨is, hemits, -⟩ := hruns.code
    exact hemits.current
  refine ⟨h.advance hpersists hdraft hprogress
    (fun a o' hop' hne hbarren hblock' _ hrefs ↦ ?_) fun b succ id i phi kid his ↦ ?_, hcurrent'⟩
  · obtain rfl := Option.some.inj (hblock.symm.trans hblock')
    have hgoal := h.goalOf_value hop' hne hbarren htarget hrefs
    refine (hresult.ready (Or.inl hgoal)).mono (fun k hk ↦
      ⟨hk.1.1, h.forest.skeleton.isFree.mp hk.2⟩) fun v hv ↦ ?_
    refine hv.imp hpersists.supplied fun hw ↦ ?_
    rw [Workspace.Written, hcurrent'] at hw
    exact hw
  · exact absurd (hop.symm.trans (Node.op_of_core his.2)) NodeOp.noConfusion

/-- Emitting the tree of a copy into a phi. -/
theorem emit_phiMove (hssa : f.IsSsa) (hop : (w₀.forest.node r).op = .phiMove)
    (hblock : (w₀.forest.node r).block = some w.code.current)
    (hcurrent : w.code.current < w.code.blocks.length) (hlabels : w.labels.Sound w.forest)
    (hreduce : reduceFrom fuel r nt w = .ok result w') :
    Selecting trees w₀ rest w'.code w'.forest ∧ w'.code.current = w.code.current := by
  have hskeleton := h.forest.skeleton
  have hlt := (hp.root (h.suffix.subset List.mem_cons_self)).1
  have hbuilt := hp.building.nodes r hlt
  obtain ⟨b, succ, id, i, phi, kid, value, hi, hvalue, hphi, his, hkid, hold⟩ :=
    hbuilt.shape.of_phiMove hop
  obtain rfl : b = w.code.current :=
    Option.some.inj ((Node.block_of_core his.2).symm.trans hblock)
  have hnew := h.not_computed hp (k := r) (by rw [hop]; exact NodeOp.noConfusion)
    fun _ ↦ by rw [hop]; rfl
  have howner : w.forest.owner r = r := h.owner_root (Node.target_of_core his.2)
  obtain ⟨fuel', rule, kids, w₁, hmatches, hhead, hkids, happly⟩ :=
    reduceFrom_phiMove hlabels howner hnew ((hskeleton.op r).trans hop) hreduce
  have hsite := h.site hp (MayEmit w₀.forest w.code.current rest)
  have hw : Reducing w.forest (MayEmit w₀.forest w.code.current rest) _
      (Supplied w.code.blocks w.forest.HoldsAlloca w.code.current) w :=
    h.reducing hlabels hcurrent
  -- the operand
  have husable : ∀ c ∈ w.forest.kidOwners r, w.forest.Usable
      (MayEmit w₀.forest w.code.current rest)
      (w.Known (Supplied w.code.blocks w.forest.HoldsAlloca w.code.current)) c := by
    intro c hc
    rw [Forest.kidOwners, hskeleton.kids, Node.kids_of_core his.2] at hc
    obtain rfl : c = w.forest.owner kid := List.mem_singleton.mp hc
    refine ⟨hsite.flat.owner_owner kid, h.ready_operand hp hkid
      (hssa.serves_incoming (Func.mem_blockInsts_of_phi hi).1 hvalue) (hbuilt.used kid ?_) hold
      fun o ho ht hb ↦ h.ready hp hssa ho ht hb (Nat.le_of_lt hold)⟩
    rw [Node.kids_of_core his.2]
    exact List.mem_singleton_self kid
  obtain ⟨hleaves, hprogress⟩ := rule.takeLeaves_ready hsite.flat
    (fun c hc ↦ hsite.touched c (hc.mono (fun _ hk ↦ hk) fun _ _ ↦ trivial)) hmatches (.refl _)
    husable fun s hs ↦ by rw [hs] at hhead; exact absurd hhead (by simp [Pattern.head?])
  have hruns₀ : Runs w.forest (MayEmit w₀.forest w.code.current rest) _
      (Supplied w.code.blocks w.forest.HoldsAlloca w.code.current) w
      (w.took rule r nt) :=
    ⟨⟨[], ⟨rfl, (modify_append_nil _ _).symm, Nat.le_refl _, .refl _, rfl, rfl, rfl⟩, trivial,
      fun _ hv ↦ absurd hv List.not_mem_nil⟩, hprogress⟩
  obtain ⟨hruns₁, hresults⟩ := reduceLeaves hsite
    (fun hw howner hready h ↦ reduceFrom_ready hsite hw howner hready h) (hw.runs hruns₀) hleaves hkids
  have hruns := hruns₀.trans hruns₁ hcurrent
  obtain ⟨hpersists, hdraft, hprogress⟩ := h.runs hp hcurrent hruns
  have hcurrent' : w₁.code.current = w.code.current := by
    obtain ⟨is, hemits, -⟩ := hruns.code
    exact hemits.current
  -- the input of the phi
  obtain ⟨phi', succ', dst, value', htarget, hslot, hvalue', -, rfl⟩ :=
    applyRule_phiInput (Grammar.action_of_phiMove rule hmatches.1 hhead) happly
  rw [hprogress.skeleton.phiTarget, hskeleton.phiTarget, Node.phiTarget_of_core his.2] at htarget
  obtain ⟨rfl, rfl⟩ := Prod.mk.inj (Option.some.inj htarget)
  obtain ⟨v, hreg, hv⟩ := hp.phi_register hi hphi
  obtain rfl : v = dst := by
    have hkept := h.forest.keeps phi (Node.computed_of_core hreg.2)
    have hslot' := ((hprogress.keeps phi hkept.1).2.trans hkept.2).trans (Node.slot_of_core hreg.2)
    exact Slot.vreg.inj (hslot'.symm.trans hslot)
  have hknown : ∀ u ∈ value'.vregs, Knows w₁.code.blocks w₁.forest w₁.code.current u := by
    obtain ⟨result, hresult, hoperand⟩ := Option.bind_eq_some_iff.mp hvalue'
    intro u hu
    obtain ⟨leaf, -, hleaf⟩ := hresults.exists (List.mem_of_getElem? hresult)
    rw [(asOperand_eq_ok (asOperand_ok_iff (r := rule) (w := w₁) |>.mpr ⟨hoperand, rfl⟩)).2] at hu
    exact (hleaf.known u hu).imp_left fun hs ↦ hcurrent'.symm ▸ hpersists.supplied hs
  have hpersists' := Persists.addPhiInput w₁.code w₁.forest succ v value'
  refine ⟨h.advance (hpersists.trans hpersists') (hdraft.addPhiInput hknown)
    (hprogress.mono (fun _ hk ↦ hk) (fun _ hk ↦ hk) fun k v hv ↦ hv.persists hpersists')
    (fun a o hop' ↦ ?_) fun b' succ' id' i' phi' kid' his' ↦ ?_, hcurrent'⟩
  · exact absurd (hop.symm.trans hop') NodeOp.noConfusion
  · have heq := his.eq his'
    obtain rfl := Option.some.inj (congrArg Node.block heq : _)
    obtain ⟨rfl, rfl⟩ := Prod.mk.inj (Option.some.inj (congrArg Node.phiTarget heq : _))
    exact ⟨v, value', Node.slot_of_core hreg.2, Code.feeds_addPhiInput.mpr (Or.inr
      ⟨⟨hcurrent'.symm, rfl, rfl, rfl⟩, (hdraft.phis _ v).mpr hv⟩)⟩

/-- **Roots.** The visit of a root keeps the invariant. -/
theorem selectTree (hssa : f.IsSsa)
    (hblock : (w₀.forest.node r).block = some w.code.current)
    (hcurrent : w.code.current < w.code.blocks.length) (hx : selectTree r w = .ok u w') :
    Selecting trees w₀ rest w'.code w'.forest ∧ w'.code.current = w.code.current := by
  have hskeleton := h.forest.skeleton
  obtain ⟨hlt, hroot⟩ := hp.root (h.suffix.subset List.mem_cons_self)
  have hdef : (w₀.forest.node r).op ≠ .phiDef := by
    rcases hroot with hop | ⟨o, hop⟩ <;> rw [hop] <;> exact NodeOp.noConfusion
  have hnew : (w.forest.node r).computed = false := by
    by_contra hnot
    exact (h.marked hp hdef (by simpa using hnot)).1 List.mem_cons_self
  rcases selectTree_ok hx with ⟨hdone, rfl⟩ | ⟨hdone, e, w₁, he, hemit⟩
  · -- the node of a phi
    obtain ⟨t, ht⟩ : ∃ t, (w₀.forest.node r).target = some t := by
      rw [hnew, Bool.or_false, hskeleton.target] at hdone
      exact Option.isSome_iff_exists.mp hdone
    refine ⟨h.advance (.refl _ _) h.draft (.refl _) (fun a o hop _ hbarren ↦ ?_)
      fun b succ id i phi kid his ↦ ?_, rfl⟩
    · obtain ⟨_, _, _, -, ⟨-, _, his, -⟩ | ⟨-, _, his, -⟩⟩ :=
        (hp.building.nodes r hlt).shape.of_inst hop
      · rw [Node.op_of_core his.2] at hbarren
        exact absurd hbarren (by simp [Node.ofPhiUse, NodeOp.isBarren])
      · exact absurd (ht.symm.trans (Node.target_of_core his.2)) (by simp [Node.ofInst])
    · exact absurd (ht.symm.trans (Node.target_of_core his.2)) (by simp [Node.ofPhiMove])
  · have htarget : (w₀.forest.node r).target = none := by
      rw [hnew, Bool.or_false, hskeleton.target] at hdone
      simpa using hdone
    obtain ⟨rfl, large, rfl⟩ := shouldEmit_ok he
    have hstill : w.forest.Progress (fun _ ↦ False) (fun _ ↦ False) (fun _ _ ↦ False)
        (w.forest.refreshLevel r).2 := w.forest.progress_refreshLevel r
    have h₁ : Selecting trees w₀ (r :: rest) w.code (w.forest.refreshLevel r).2 :=
      h.settle (.of_progress hstill) (h.draft.of_progress hstill) (w.forest.progress_refreshLevel r)
    rcases hemit with ⟨-, hemit⟩ | ⟨hnot, session, rfl⟩
    · obtain ⟨fuel, labels, session, result, w₁, hsound, hreduce, hcode, hforest⟩ :=
        selectRoot_ok hemit
      rw [hcode, hforest]
      rcases hroot with hop | ⟨o, hop⟩
      · exact emit_phiMove (w := { w with forest := _, labels, session }) hp h₁ hssa hop hblock
          hcurrent hsound hreduce
      · exact emit_inst (w := { w with forest := _, labels, session }) hp h₁ hssa hop htarget hblock
          hcurrent hsound hreduce
    · simp only [Bool.or_eq_false_iff, decide_eq_false_iff_not, Bool.and_eq_false_iff] at hnot
      obtain ⟨⟨⟨⟨hrefs, -⟩, -⟩, hescapes⟩, -⟩ := hnot
      refine ⟨h₁.advance (.refl _ _) h₁.draft (.refl _) (fun a o hop hne _ _ hleaves _ ↦ ?_)
        fun b succ id i phi kid his ↦ ?_, rfl⟩
      · rw [h₁.forest.skeleton.escapes, Node.opcode?, h₁.forest.skeleton.op, hop] at hescapes
        simp [hleaves, hne] at hescapes
      · have hzero := (hp.building.nodes r hlt).moves (Node.op_of_core his.2)
        rw [Forest.refs, Forest.owner_of_target ((h₁.forest.skeleton.target r).trans htarget)] at hrefs
        exact absurd (Nat.le_zero.mp (hzero ▸ h₁.forest.refs_le r)) hrefs

end

/-! ## Blocks -/

theorem current_lt (hp : Planted f trees w₀) (h : Selecting trees w₀ rest w.code w.forest)
    (hb : b < f.blocks.length) : b < w.code.blocks.length := by
  have hlength := congrArg List.length h.draft.succs
  rw [List.length_map, List.length_map, hp.declared.blank.length] at hlength
  exact hlength ▸ hb

/-- The roots of a block, one after the other. -/
theorem selectBlock (hp : Planted f trees w₀)
    (h : Selecting trees w₀ (roots ++ rest) w.code w.forest) (hssa : f.IsSsa)
    (hblock : ∀ r ∈ roots, (w₀.forest.node r).block = some w.code.current)
    (hcurrent : w.code.current < f.blocks.length) (hx : Work.selectBlock roots w = .ok u w') :
    Selecting trees w₀ rest w'.code w'.forest := by
  induction roots generalizing w u with
  | nil =>
    obtain ⟨-, rfl⟩ := pure_eq_ok.mp hx
    exact h
  | cons r roots ih =>
    obtain ⟨_, w₁, hr, hroots⟩ := bind_eq_ok.mp hx
    obtain ⟨hfirst, hrest⟩ := List.forall_mem_cons.mp hblock
    obtain ⟨h₁, hcurrent₁⟩ := selectTree hp h hssa hfirst (h.current_lt hp hcurrent) hr
    exact ih h₁ (hcurrent₁ ▸ hrest) (hcurrent₁ ▸ hcurrent) hroots

/-- Before the first root. -/
theorem start (hp : Planted f trees w₀) :
    Selecting trees w₀ trees.flatten w₀.code w₀.forest where
  suffix := List.suffix_rfl
  draft := by
    have hblank := hp.declared.blank
    have hwrites : ∀ b v, ¬ WritesIn w₀.code.blocks b v := by
      rintro b v ⟨i, hi, -⟩
      rw [hblank.insts] at hi
      exact absurd hi List.not_mem_nil
    refine ⟨fun b k i hi ↦ ?_, fun b s v o ⟨phi, hphi, _, ho⟩ ↦ ?_,
      fun b v hw ↦ absurd hw (hwrites b v), fun e _ v he ↦ absurd he (hwrites e v),
      fun _ _ ↦ .rfl, rfl, Nat.le_refl _, ?_⟩
    · rw [hblank.insts] at hi
      exact absurd hi (by simp)
    · rw [hblank.inputs s phi hphi] at ho
      exact absurd ho List.not_mem_nil
    · rw [hblank.frame]
      exact fun s hs ↦ absurd hs List.not_mem_nil
  forest := .refl _
  visited k _ o hk hop := absurd (hp.mem_flatten hop) hk
  fed k hk hrest := absurd hk hrest

/-- **Selection.** Once all trees have been visited, the code is a draft without anything left. -/
theorem selectAll (hp : Planted f trees w₀) (hssa : f.IsSsa)
    (hlength : trees.length = f.blocks.length) (hx : Work.selectAll trees w₀ = .ok u w') :
    Selecting trees w₀ [] w'.code w'.forest := by
  have hall := forM_induct_idx
    (P := fun k (t : Workspace) ↦ Selecting trees w₀ (trees.drop k).flatten t.code t.forest) hx
    (start hp) fun k x hk t u t' ht hstep ↦ ?_
  · rwa [List.length_zipIdx, List.drop_length, List.flatten_nil] at hall
  · obtain ⟨roots, b⟩ := x
    rw [List.getElem?_zipIdx, Option.map_eq_some_iff] at hk
    obtain ⟨_, hroots, heq⟩ := hk
    rw [Nat.zero_add, Prod.mk.injEq] at heq
    obtain ⟨rfl, rfl⟩ := heq
    obtain ⟨hlt, rfl⟩ := List.getElem?_eq_some_iff.mp hroots
    simp only [modifyCode, bind_eq_ok, get_eq_ok, modify_eq_ok] at hstep
    obtain ⟨_, _, ⟨rfl, rfl⟩, _, _, rfl, hblock⟩ := hstep
    rename Workspace => t
    have hsame := Code.SameBodies.beginBlock t.code k (blockLabel? t k)
    rw [List.drop_eq_getElem_cons hlt, List.flatten_cons] at ht
    have ht' := ht.settle (.same hsame t.forest) (ht.draft.same hsame) (.refl _)
    exact selectBlock (w := { t with code := t.code.beginBlock k (blockLabel? t k) }) hp ht' hssa
      (hp.block k _ hroots).block (hlength ▸ hlt) hblock

end Selecting

end TreeCover
