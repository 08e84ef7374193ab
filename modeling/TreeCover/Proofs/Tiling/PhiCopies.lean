import TreeCover.Proofs.Tiling.PhiInputs

/-!
# Copies into phis

The visit of a copy into a phi reduces the value that the copy is about, and hands the result to the
phi. No other visit hands on anything, so in the end the phis hold one input for each copy, in the order
of the copies. Main statement: `selectAll_handed`.
-/

namespace TreeCover

open Ir Machine Work

variable {f : Func} {trees : List (List NodeId)} {next : InstId} {os : List (Ir.Operand Value)}
  {g : Forest} {w v v' u u' : Workspace} {fuel : Nat} {id : InstId} {i : ResolvedInst}
  {k kid r root : NodeId} {nt goal : Nonterminal} {b s : BlockId} {x : VReg}
  {o : Machine.Operand} {z : Unit} {m : Mem} {a : Application}

/-! ## Values of copies -/

/-- A copy is about the first value that its phi lists for the block. -/
theorem Planted.of_copy (hp : Planted f trees w) (his : w.Is r (.ofPhiMove b s id i k kid))
    (hi : (id, i) ∈ f.blockPhis s) : ∃ value, i.operation.incoming.find? (·.2 == b) = some (value, b) ∧
      w.defs.phis.lookup id = some k ∧ w.Denotes f (.operand value) kid := by
  cases (hp.building.nodes r his.1).shape with
  | @phiMove b' s' id' i' phi kid' n value hi' hvalue hphi his' hkid hold =>
    have heq := his.eq his'
    obtain rfl := Option.some.inj (congrArg Node.source heq : _)
    obtain rfl := Option.some.inj (congrArg Node.block heq : _)
    obtain ⟨rfl, rfl⟩ := Prod.mk.inj (Option.some.inj (congrArg Node.phiTarget heq : _))
    obtain ⟨rfl, -⟩ := List.cons.inj (congrArg Node.kids heq : _)
    obtain ⟨-, rfl⟩ := Func.blockInsts_unique (Func.mem_blockInsts_of_phi hi).1
      (Func.mem_blockInsts_of_phi hi').1
    refine ⟨value, ?_, hphi, hkid⟩
    have hfind : (i.operation.incoming.zipIdx.map Prod.fst).find? (·.2 == b) = some (value, b) := by
      rw [List.find?_map, Function.comp_def, hvalue, Option.map_some]
    rwa [List.zipIdx_map_fst] at hfind
  | argument _ h | constant h | label h | pad h | phi _ h | phiUse _ _ h | args h | inst _ _ h =>
    exact absurd (his.op.symm.trans h.op) NodeOp.noConfusion

/-! ## Rules for copies -/

theorem Grammar.lhs_of_address : ∀ r ∈ Grammar.rules,
    r.action ∈ [.addrBase, .frameSlot, .addrDisp, .addrIndex] → r.lhs ∈ [.addr, .stmt] := by decide

/-- An address does not come where a register, a place in memory or a constant was asked for. -/
theorem reduceFrom_address (hlabels : w.labels.Sound g)
    (h : reduceFrom fuel k nt w = .ok (.addr m) v) : nt ∈ [.addr, .stmt] := by
  cases fuel with
  | zero => exact absurd h failCovering_ne_ok
  | succ fuel =>
    rcases reduceFrom_eq_ok h with ⟨hreuse, -⟩ | ⟨a, hends, hresult, -⟩
    · unfold Node.reuse? at hreuse
      split at hreuse <;> simp_all
    · obtain ⟨hmatches, rfl⟩ := hlabels.rule hends.rule
      by_cases hphi : a.rule.action = .phiInput
      · obtain ⟨_, _, _, _, -, -, -, hnone, -⟩ := applyRule_phiInput hphi a.runs
        exact absurd (hnone.symm.trans hresult) Bound.noConfusion
      · obtain ⟨is, hexpands, -⟩ := applyRule_expands a.runs hphi
        rw [hresult] at hexpands
        refine Grammar.lhs_of_address a.rule hmatches.mem ?_
        generalize a.rule.action = action at hexpands
        cases hexpands <;> simp

/-! ## Visits of copies -/

/-- The application was given the operand `o` for the value of a copy, the node `kid`. -/
def Application.Gives (a : Application) (g : Forest) (kid : NodeId) (o : Machine.Operand) : Prop :=
  ∃ goal bound, a.rule.pattern.leaves g a.node = [(g.owner kid, goal)] ∧ a.kids = [bound] ∧
    bound.operand? = some o ∧ ∀ m, bound ≠ .addr m

section

variable (hp : Planted f trees w) (hrec : w.Recorded next os trees.flatten)
include hp hrec

/-- The reduction of a copy ends with the record of an input: what its value has been reduced to. -/
theorem Application.Ends.copy (h : a.Ends fuel r goal u)
    (hsound : u.labels.Sound u.forest) (hholds : w.forest.HoldsOn u.forest)
    (his : w.Is r (.ofPhiMove b s id i k kid)) (hslot : (w.forest.node k).slot = .vreg x)
    (hphi : (w.forest.node k).op = .phiDef) :
    a.node = r ∧ KeepsPhis u a.before ∧ a.before.code.current = u.code.current ∧ ∃ o,
      a.Gives w.forest kid o ∧ a.after = { a.before with code := a.before.code.addPhiInput s x o } := by
  have howner : u.forest.owner r = r :=
    Forest.owner_of_target ((hholds.skeleton.target r).trans (Node.target_of_core his.2))
  have hop : (u.forest.node r).op = .phiMove := (hholds.skeleton.op r).trans his.op
  have hnew : (u.forest.node r).computed = false := by
    refine (hholds.held r fun o ho ↦ ?_).1.trans
      (hp.computed (by rw [his.op]; exact NodeOp.noConfusion))
    exact absurd (his.op.symm.trans ho) NodeOp.noConfusion
  obtain rfl : a.node = r := h.node.trans howner
  obtain ⟨hmatches, -⟩ := hsound.rule h.rule
  have haction := Grammar.action_of_phiMove a.rule hmatches.mem
    (head?_of_phiMove hsound howner hnew hop hmatches h.kids)
  obtain ⟨-, leafGoal, hgoal, hphiGoal⟩ := Grammar.tile_phiInput a.rule hmatches.mem haction
  obtain ⟨c, hleaves, hkidOwners, -⟩ :=
    Pattern.leaves_of_phiGoal hphiGoal hmatches.fits (.refl u.forest)
  obtain rfl : c = w.forest.owner kid := by
    rw [hholds.skeleton.kidOwners, Forest.kidOwners, Node.kids_of_core his.2] at hkidOwners
    exact (List.singleton_inj.mp hkidOwners).symm
  have hkids := h.kids
  rw [hleaves] at hkids
  obtain ⟨bound, t, _, hleaf, hnil, hbound⟩ := mapM_cons_eq_ok.mp hkids
  obtain ⟨rfl, hbefore⟩ := mapM_nil_eq_ok.mp hnil
  rw [← hbefore] at hleaf
  -- the value is no copy itself, so its reduction hands nothing on
  have htook := KeepsPhis.took u a.rule a.node goal
  have hplain : u.forest.Plain (w.forest.owner kid) :=
    hp.plain_kid hrec hholds.skeleton (hkidOwners ▸ List.mem_singleton_self _)
  have hreduces : Reduces u.forest u.forest.Plain (w.forest.owner kid) (u.took a.rule a.node goal) :=
    ⟨hsound, htook.forest.skeleton, hplain.1.symm ▸ hplain⟩
  have hkept := htook.trans <|
    reduceFrom_keepsPhis (fun p _ c hc ↦ hp.plain_kid hrec hholds.skeleton hc) hreduces hleaf
  have hcurrent : a.before.code.current = (u.took a.rule a.node goal).code.current :=
    reduceFrom_current hleaf
  obtain ⟨k', s', dst, o, htarget, hdst, ho, -, hafter⟩ := applyRule_phiInput haction a.runs
  rw [(hholds.trans hkept.forest).skeleton.phiTarget, Node.phiTarget_of_core his.2] at htarget
  obtain ⟨rfl, rfl⟩ := Prod.mk.inj (Option.some.inj htarget)
  obtain rfl : x = dst := by
    refine Slot.vreg.inj (hslot.symm.trans (Eq.trans (Eq.symm ?_) hdst))
    exact ((hholds.trans hkept.forest).held k (by simp [hphi])).2
  rw [hbound] at ho
  refine ⟨rfl, hkept, hcurrent, o, ⟨leafGoal, bound, ?_, hbound, ho, ?_⟩, hafter⟩
  · rw [← hleaves, Pattern.takeLeaves_fst _ _ _ hholds.skeleton]
  · rintro m rfl
    have hmem := reduceFrom_address hreduces.labels hleaf
    simp only [List.mem_cons, List.not_mem_nil, or_false] at hgoal hmem
    rcases hgoal with rfl | rfl | rfl <;> exact hmem.elim Nonterminal.noConfusion Nonterminal.noConfusion

/-- The visit of a copy makes it: nobody else could, and there is no reason to pass it over. -/
theorem Planted.copy_starts (hcomes : Comes trees w r v) (hholds : w.forest.HoldsOn v.forest)
    (hop : (w.forest.node r).op = .phiMove) (h : selectTree r v = .ok z v') :
    ∃ goal u b u', Starts r goal v u ∧ reduce r goal u = .ok b u' ∧ v'.code = u'.code ∧
      v'.forest = u'.forest := by
  have hne : (w.forest.node r).op ≠ .inst .phi := by rw [hop]; exact NodeOp.noConfusion
  have hnew : (v.forest.node r).computed = false :=
    (hholds.held r (by simp [hop])).1.trans (hp.computed (by rw [hop]; exact NodeOp.noConfusion))
  rcases selectTree_eq_ok h with ⟨-, -, ⟨hskip, -⟩ | ⟨v₁, hemit, -⟩⟩ | hstarts
  · rw [hholds.skeleton.target, hp.target_of_ne_phi hne, hnew] at hskip
    exact absurd hskip Bool.false_ne_true
  · obtain ⟨_, _, -, hvisited⟩ := (Visited.kept hp).comes (.start hp hrec) hcomes
    exact absurd (hvisited.mayWait hemit) (hp.not_mayWait_phiMove hrec hop)
  · exact hstarts

/-- **Visits of copies.** The visit of a copy hands the phi what its value is reduced to. -/
theorem selectTree_copy (hcomes : Comes trees w r v) (hholds : w.forest.HoldsOn v.forest)
    (his : w.Is r (.ofPhiMove b s id i k kid)) (hslot : (w.forest.node k).slot = .vreg x)
    (hphi : (w.forest.node k).op = .phiDef) (h : selectTree r v = .ok z v') :
    ∃ a o, Applies trees w a ∧ a.node = r ∧ a.Gives w.forest kid o ∧ v.forest.HoldsOn v'.forest ∧
      ∀ t, phisAt v'.code.blocks t = if s = t then Code.addInput x (o, v.code.current)
        (phisAt v.code.blocks t) else phisAt v.code.blocks t := by
  obtain ⟨goal, u, b', u', hstarts, hrun, hcode, hforest⟩ :=
    hp.copy_starts hrec hcomes hholds his.op h
  have hvu : KeepsPhis v u := .starts hstarts
  have hwu := hholds.trans hvu.forest
  obtain ⟨-, -, hsound⟩ := hstarts.labels
  rw [reduce_eq] at hrun
  obtain ⟨fuel, hfuel⟩ : ∃ fuel, (u.forest.size + 1) * (Nonterminal.all.length + 1) = fuel + 1 :=
    ⟨_, (Nat.succ_pred_eq_of_pos (by simp)).symm⟩
  rw [hfuel] at hrun
  rcases reduceFrom_eq_ok hrun with ⟨hreuse, -⟩ | ⟨a, hends, -, hsettle⟩
  · have hcomputed := (Node.reuse?_cases hreuse).1
    rw [Forest.owner_of_target ((hwu.skeleton.target r).trans (Node.target_of_core his.2)),
      (hwu.held r fun o ho ↦ absurd (his.op.symm.trans ho) NodeOp.noConfusion).1,
      hp.computed (by rw [his.op]; exact NodeOp.noConfusion)] at hcomputed
    exact absurd hcomputed Bool.false_ne_true
  · obtain ⟨rfl, hbefore, hcurrent, o, hgives, hafter⟩ :=
      hends.copy hp hrec hsound hwu his hslot hphi
    have hvb := hvu.trans hbefore
    have hu' := KeepsPhis.settle hsettle
    have happlies : Applies trees w a :=
      ⟨_, goal, v, u, fuel, _, goal, u, hcomes, hstarts, hfuel ▸ .self, hends⟩
    refine ⟨a, o, happlies, rfl, hgives, ?_, fun t ↦ ?_⟩
    · have hforest' : a.after.forest = a.before.forest := by rw [hafter]
      exact hforest ▸ hvb.forest.trans (hforest' ▸ hu'.forest)
    · obtain ⟨labels, session, hu⟩ := hstarts.state
      rw [hcode, hu'.phis, hafter, Code.phisAt_addPhiInput, hcurrent, hvb.phis, hu]

end

/-! ## Selection -/

/-- The node `r` is the copy that hands on the input `e`: it has the register of the phi, and the operand
is what it was given for its value. -/
def HandsOn (trees : List (List NodeId)) (w : Workspace) (r : NodeId) (e : PhiInput) : Prop :=
  ∃ id i k kid a, w.Is r (.ofPhiMove e.pred e.succ id i k kid) ∧
    (w.forest.node k).slot = .vreg e.dst ∧ Applies trees w a ∧ a.node = r ∧
      a.Gives w.forest kid e.operand

/-- Selection from `w` has visited the roots `done`, and handed the inputs to phis, one for each copy. -/
structure Handed (trees : List (List NodeId)) (w : Workspace) (done : List NodeId)
    (inputs : List PhiInput) (v : Workspace) : Prop where
  forest : w.forest.HoldsOn v.forest
  copies : List.Forall₂ (HandsOn trees w)
    (done.filter fun r ↦ (w.forest.node r).op = .phiMove) inputs
  phis : ∀ s, phisAt v.code.blocks s = (phisAt w.code.blocks s).map (·.taking s inputs)

namespace Handed

variable {done : List NodeId} {inputs : List PhiInput}

theorem start (trees : List (List NodeId)) (w : Workspace) : Handed trees w [] [] w where
  forest := .refl _
  copies := .nil
  phis s := by simp only [Phi.taking_nil, List.map_id']

theorem keeps (h : Handed trees w done inputs v) (hkeeps : KeepsPhis v v') :
    Handed trees w done inputs v' where
  forest := h.forest.trans hkeeps.forest
  copies := h.copies
  phis s := (hkeeps.phis s).trans (h.phis s)

/-- Turning to a block. -/
theorem beginBlock (h : Handed trees w done inputs v) (label : Option LabelId) :
    Handed trees w done inputs { v with code := v.code.beginBlock b label } :=
  h.keeps ⟨.refl _, (Code.SameBodies.beginBlock v.code b label).phisAt⟩

variable (hp : Planted f trees w) (hrec : w.Recorded next os trees.flatten)
include hp hrec

/-- The visit of a copy. -/
theorem copy (h : Handed trees w done inputs v) (hcomes : Comes trees w root v)
    (hop : (w.forest.node root).op = .phiMove) (hvisit : selectTree root v = .ok z v') :
    ∃ e, Handed trees w (done ++ [root]) (inputs ++ [e]) v' := by
  obtain ⟨b, s, id, i, k, kid, -, hi, -, hk, his, -⟩ :=
    (hp.building.nodes root (Forest.lt_size_of_op hop NodeOp.noConfusion)).shape.of_phiMove hop
  obtain ⟨x, hphi, -⟩ := hp.phi_register hi hk
  have hslot : (w.forest.node k).slot = .vreg x := Node.slot_of_core hphi.2
  obtain ⟨a, o, happlies, hnode, hgives, hforest, hphis⟩ :=
    selectTree_copy hp hrec hcomes h.forest his hslot hphi.op hvisit
  -- the copy belongs to the block that is being selected
  obtain rfl : b = v.code.current := by
    obtain ⟨roots, hroots, hmem⟩ := hcomes.current
    have hblock := (hp.block _ roots hroots).block root hmem
    exact Option.some.inj ((Node.block_of_core his.2).symm.trans hblock)
  refine ⟨⟨v.code.current, s, x, o⟩, h.forest.trans hforest, ?_, fun t ↦ ?_⟩
  · rw [List.filter_append, List.filter_singleton, decide_eq_true hop]
    exact List.rel_append h.copies (.cons ⟨id, i, k, kid, a, his, hslot, happlies, hnode, hgives⟩ .nil)
  · rw [hphis, h.phis]
    split
    next hst =>
      subst hst
      have hnodup := hp.declared.blank.nodup s
      rw [Code.addInput_eq_map (by simpa [Function.comp_def] using hnodup), List.map_map]
      refine List.map_congr_left fun phi _ ↦ ?_
      rw [Function.comp_apply, Phi.taking_concat]
      exact if_congr (by simp [eq_comm]) rfl rfl
    next hst =>
      refine List.map_congr_left fun phi _ ↦ ?_
      rw [Phi.taking_concat, if_neg fun h ↦ hst h.1]

end Handed

/-- A selection that comes to some of the roots of `trees` hands on one input for each copy, in order. -/
theorem Planted.handed (hp : Planted f trees w) (hrec : w.Recorded next os trees.flatten)
    {some : List (List NodeId)} (hsub : ∀ r t, Comes some w r t → Comes trees w r t)
    (h : selectAll some w = .ok z v) : ∃ inputs, Handed trees w some.flatten inputs v := by
  refine selectAll_visits (P := fun done _ v ↦ ∃ inputs, Handed trees w done inputs v) h
    ⟨[], .start trees w⟩ (fun done _ t b label ⟨inputs, ht⟩ ↦ ⟨inputs, ht.beginBlock label⟩)
    fun done _ root t t' hcomes ⟨inputs, ht⟩ hvisit ↦ ?_
  by_cases hop : (w.forest.node root).op = .phiMove
  · obtain ⟨e, he⟩ := ht.copy hp hrec (hsub root t hcomes) hop hvisit
    exact ⟨_, he⟩
  · have hkeeps := ht.keeps (selectTree_keepsPhis hp hrec ht.forest.skeleton hop hvisit)
    refine ⟨inputs, hkeeps.forest, ?_, hkeeps.phis⟩
    rw [List.filter_append, List.filter_singleton, decide_eq_false hop, cond_false, List.append_nil]
    exact hkeeps.copies

/-- **Selection.** In the end the phis hold one input for each copy, in order. -/
theorem selectAll_handed (hp : Planted f trees w) (hrec : w.Recorded next os trees.flatten)
    (h : selectAll trees w = .ok z v) : ∃ inputs, Handed trees w trees.flatten inputs v :=
  hp.handed hrec (fun _ _ h ↦ h) h

end TreeCover
