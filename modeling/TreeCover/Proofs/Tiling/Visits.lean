import TreeCover.Proofs.Machine.Observed
import TreeCover.Proofs.Tiling.MemoryRuns
import TreeCover.Proofs.Tiling.TrailRuns

/-!
# What visits execute

The code of an application that does more than to compute, on an observed machine: it stores a value, calls
a function with the values of its arguments, or leaves the block, once the leaves of its rule have been
reduced to results that hold.

The visit of a root that only computes executes quiet code. A root that does more, because it stores, calls
a function, leaves the block or hands a value to a phi, is always emitted: first all is computed that it is
given, and then comes the one action that is more than that.

Main statements: `Traced.runs` and `Traced.brink`.
-/

namespace TreeCover

open Ir Machine Machine.Core Work

section

variable {g h : Forest} {σ : World} {frame : Frame} {V : NodeId → Word} {c : Callee} {s s' : Core}
  {o : Observed} {k p q : NodeId} {r : Rule} {kids : List Bound} {b : Bound} {n v : VReg} {l : LabelId}
  {is : List Machine.Inst}

/-! ## Rules -/

/-- Whether a node is for an instruction that does more than to compute, or for a copy into a phi. -/
def NodeOp.isFinal : NodeOp → Bool
  | .phiMove | .inst .store | .inst .call | .inst .br | .inst .ret => true
  | _ => false

/-- The rules with such actions are those for such nodes. -/
theorem Grammar.head_of_final : ∀ r ∈ Grammar.rules, r.action.computes = false →
    r.pattern.head? ∈ [Head.phiMove, .inst .store, .inst .call, .inst .br, .inst .ret].map some := by decide

theorem Grammar.action_of_final : ∀ r ∈ Grammar.rules,
    (r.pattern.head? = some .phiMove → r.action = .phiInput) ∧
    (r.pattern.head? = some (.inst .store) → r.action = .store) ∧
    (r.pattern.head? = some (.inst .call) → r.action = .call) ∧
    (r.pattern.head? = some (.inst .br) → r.action ∈ [.jump, .branchCond, .branchTest]) ∧
    (r.pattern.head? = some (.inst .ret) → r.action = .ret) := by decide

/-- The node of such an application is for such an instruction. -/
theorem Rule.Matches.isFinal (hmatches : r.Matches g k) (haction : r.action.computes = false) :
    (g.node k).op.isFinal = true := by
  have hhead := Grammar.head_of_final r hmatches.mem haction
  simp only [List.map_cons, List.map_nil, List.mem_cons, List.not_mem_nil, or_false] at hhead
  rcases hhead with hhead | hhead | hhead | hhead | hhead
  · rw [(head?_phiMove (hmatches.fits.head? hhead)).2]
    rfl
  all_goals
    rw [(TreeCover.head?_inst (hmatches.fits.head? hhead)).2]
    rfl

/-- A rule that is no chain rule has the head of its node. -/
theorem Rule.Matches.head?_eq (hmatches : r.Matches g k) (hsource : r.pattern.source? = none) :
    r.pattern.head? = (g.node k).head? := by
  obtain ⟨head, hhead⟩ := Pattern.head?_of_source hsource
  rw [hhead, hmatches.fits.head? hhead]

/-! ## Moves to the register for results -/

theorem step_move_phys {i : Machine.Inst} {x : Machine.Operand} {q : PhysReg} {w : Word}
    (hname : i.mnemonic = "movq") (hops : i.operands = [x, .phys q]) (hfits : fits false x = true)
    (hread : s.read 8 x = some w) : s.step c i = some (s.setReg (.phys q) w) := by
  rw [step_move (by decide : 8 ∈ [1, 2, 4, 8]) hname hops, perform_move (encodable_to_phys hfits), hread,
    Option.bind_some, write_phys]

theorem step_loadConstant {w : Word} {q : PhysReg} :
    s.step c (loadConstant w (.phys q)) = some (s.setReg (.phys q) w) := by
  rw [loadConstant]
  split
  next hfits => exact step_move_phys rfl rfl (by rw [fits, hfits]; rfl) (read_imm s w)
  next =>
    have hform : formOf "movabsq" 2 = some { Form.move 8 with regTarget := true, wide := true } :=
      rfl
    rw [step_of_form "movabsq" [.imm w, .phys q] rfl rfl (by decide) (by decide) hform, perform,
      if_pos (encodable_to_phys rfl)]
    simp only [gather, use, read_imm, Form.move, Option.bind_eq_bind, Option.bind_some,
      Option.pure_def]
    rw [finish_of_last rfl rfl rfl]
    exact write_phys _ _ _

/-! ## Stores and calls -/

theorem accessBytes_mem (bits : Nat) : accessBytes bits ∈ [1, 2, 4, 8] := by
  rw [accessBytes]
  split_ifs <;> decide

theorem isStraight_callCode (name : String) (os : List Machine.Operand) (result? : Option VReg) :
    ∀ i ∈ callCode name os result?, i.isStraight = true := by
  intro i hi
  simp only [callCode, popCode, List.mem_append, List.mem_map, List.mem_reverse, List.mem_cons,
    Option.mem_toList, Option.map_eq_some_iff] at hi
  rcases hi with (⟨o, -, rfl⟩ | rfl | hi) | ⟨dst, -, rfl⟩
  · rfl
  · rfl
  · split at hi
    next => exact absurd hi List.not_mem_nil
    next => exact List.mem_singleton.mp hi ▸ rfl
  · rfl

/-- Stores and calls do not leave the block. -/
theorem Expands.isStraight {node : Node} {action : Action} (h : Expands node frame kids v action is b)
    (haction : action = .store ∨ action = .call) : ∀ i ∈ is, i.isStraight = true := by
  cases h with
  | storeReg | storeImm => exact List.forall_mem_singleton.mpr rfl
  | call | callVoid => exact isStraight_callCode _ _ _
  | extendWhole => exact List.forall_mem_nil _
  | _ => exact haction.elim Action.noConfusion Action.noConfusion

/-- Nothing comes of terminators. -/
theorem Expands.eq_none {node : Node} {action : Action} (h : Expands node frame kids v action is b)
    (haction : action ∈ [.jump, .branchCond, .branchTest, .ret]) : b = .none := by
  cases h with
  | jump | branchCond | branchTest | retVoid | retImm | ret => rfl
  | extendWhole h => exact absurd haction (by rcases h with rfl | rfl <;> decide)
  | _ => exact absurd haction (by simp)

section

variable (hmatches : r.Matches g k) (hlater : g.Later h)
  (hkids : List.Forall₂ (Fits g V n o.core) (r.pattern.leaves g k) kids)
  (hexpands : Expands (h.node k) frame kids v r.action is b)
include hmatches hlater hkids hexpands

/-- Stores. -/
theorem Rule.Matches.stores (haction : r.action = .store) : b = .none ∧ ∃ p q, g.kidOwners k = [p, q] ∧
    let bytes := accessBytes (g.node k).width
    Observed.run σ c is o = some
      { o with
        core := o.core.store (V q) bytes (V p)
        deeds := o.deeds ++ [.store (V q) bytes (lowBytes bytes (V p))] } := by
  have hwidth : (h.node k).width = (g.node k).width := hlater.skeleton.width k
  have hbytes := accessBytes_mem (g.node k).width
  have hp := (Grammar.tile_store r hmatches.mem haction).2
  rw [haction] at hexpands
  cases hexpands with
  | @storeReg u m hu hm =>
    rw [hwidth]
    rcases hp with hp | ⟨hp, -⟩
    · obtain ⟨-, -, p, q, _, _, hpq, rfl, hx, hy⟩ := hmatches.two_kids hkids hp
      obtain rfl := Option.some.inj hu
      obtain ⟨m', rfl⟩ := hy.serves.suits
      obtain rfl : m' = m := Option.some.inj hm
      refine ⟨rfl, p, q, hpq, ?_⟩
      rw [← hy.holds.2, ← show o.core.regs (.virt u) = V p from hx.holds]
      exact (Observed.run_singleton).trans (Observed.step_store hbytes rfl rfl rfl rfl (by
        rw [Core.read, if_pos rfl]))
    · obtain ⟨-, -, _, _, _, _, -, rfl, hx, -⟩ := hmatches.two_kids hkids hp
      obtain rfl := Option.some.inj hu
      obtain ⟨z, hz⟩ := hx.serves.suits
      exact Bound.noConfusion hz
  | @storeImm z m hz hm =>
    rw [hwidth]
    rcases hp with hp | ⟨hp, hguard⟩
    · obtain ⟨-, -, _, _, _, _, -, rfl, hx, -⟩ := hmatches.two_kids hkids hp
      obtain rfl := Option.some.inj hz
      obtain ⟨u, hu⟩ := hx.serves.suits
      exact Bound.noConfusion hu
    · obtain ⟨-, -, p, q, _, _, hpq, rfl, hx, hy⟩ := hmatches.two_kids hkids hp
      obtain rfl := Option.some.inj hz
      obtain ⟨m', rfl⟩ := hy.serves.suits
      obtain rfl : m' = m := Option.some.inj hm
      refine ⟨rfl, p, q, hpq, ?_⟩
      rw [← hy.holds.2, ← show z = V p from hx.holds]
      exact (Observed.run_singleton).trans (Observed.step_store hbytes rfl rfl
        (hx.guarded hmatches hlater.flat 0 (by rw [hpq]; rfl) hguard rfl) rfl rfl)
  | extendWhole h => exact absurd h (by simp)

/-- Calls. -/
theorem Rule.Matches.calls (haction : r.action = .call) (hstack : o.stack = []) :
    ∃ q, g.kidOwners k = [q] ∧ (8 * (g.kidOwners q).length < 2 ^ 31 →
      let args := (g.kidOwners q).map V
      let result := σ.call ((g.node k).callee.getD "") args o.core.mem
      ∃ s', Observed.run σ c is o =
          some ⟨s', [], o.deeds ++ [.call ((g.node k).callee.getD "") args]⟩ ∧
        s'.mem = result.1 ∧ (b = .none ∨ b = .reg v ∧ s'.regs (.virt v) = result.2) ∧
        (∀ u, u ≠ v → s'.regs (.virt u) = o.core.regs (.virt u)) ∧
        s'.regs (.phys .rbp) = o.core.regs (.phys .rbp)) := by
  have hcallee : (h.node k).callee = (g.node k).callee :=
    (congrArg Node.callee (hlater.skeleton.node k) :)
  obtain ⟨-, -, q, x, hq, rfl, hx⟩ :=
    hmatches.one_kid hkids (Grammar.tile_call r hmatches.mem haction).2
  refine ⟨q, hq, fun hfew ↦ ?_⟩
  obtain ⟨bs, rfl, -⟩ := hx.serves.suits
  obtain ⟨vs, rfl, hvs⟩ := hx.holds
  have hlength : vs.length = (g.kidOwners q).length := by
    simpa using congrArg List.length hvs
  have hoperands : ∀ {os : List Machine.Operand}, List.Forall₂ (fun b o ↦ b.operand? = some o)
      (vs.map Bound.reg) os → os = vs.map Operand.vreg := by
    intro os hos
    have heq : List.Forall₂ (· = ·) (vs.map Operand.vreg) os := List.forall₂_map_left_iff.mpr
      ((List.forall₂_map_left_iff.mp hos).imp fun _ _ h ↦ Option.some.inj h)
    exact (List.forall₂_eq_eq_eq ▸ heq : vs.map Operand.vreg = os).symm
  rw [haction] at hexpands
  cases hexpands with
  | callVoid hargs hos hwidth =>
    obtain rfl := Bound.args.inj (Option.some.inj hargs)
    obtain rfl := hoperands hos
    obtain ⟨s', hrun, hmem, -, hregs, hframe⟩ := Observed.run_callCode (σ := σ) (c := c) (o := o)
      ((h.node k).callee.getD "") none rfl hstack (hlength ▸ hfew)
    rw [hvs, hcallee] at hrun hmem
    rw [hcallee]
    exact ⟨s', hrun, hmem, Or.inl rfl, fun u _ ↦ hregs u (by simp), hframe⟩
  | call hargs hos hwidth =>
    obtain rfl := Bound.args.inj (Option.some.inj hargs)
    obtain rfl := hoperands hos
    obtain ⟨s', hrun, hmem, hresult, hregs, hframe⟩ := Observed.run_callCode (σ := σ) (c := c) (o := o)
      ((h.node k).callee.getD "") (some v) rfl hstack (hlength ▸ hfew)
    rw [hvs, hcallee] at hrun hmem hresult
    rw [hcallee]
    exact ⟨s', hrun, hmem, Or.inr ⟨rfl, hresult v rfl⟩,
      fun u hu ↦ hregs u fun heq ↦ hu (Option.some.inj heq).symm, hframe⟩
  | extendWhole h => exact absurd h (by simp)

/-! ## Terminators -/

omit hlater

/-- Jumps. -/
theorem Rule.Matches.jumps (haction : r.action = .jump) : ∃ p q q' l, g.kidOwners k = [p, q, q'] ∧
    (g.node p).slot = .label l ∧ Observed.exec σ c is o = some (o, .goto l) := by
  obtain ⟨-, p, q, q', x, _, _, hpq, rfl, hx, -, -⟩ :=
    hmatches.three_kids hkids (Grammar.tile_jump r hmatches.mem haction).2
  rw [haction] at hexpands
  cases hexpands with
  | @jump l hl =>
    obtain rfl := Option.some.inj hl
    exact ⟨p, q, q', l, hpq, hx.holds, Observed.exec_jump⟩
  | extendWhole h => exact absurd h (by simp)

/-- Branches go by whether their value is zero. -/
theorem Rule.Matches.branches (haction : r.action = .branchCond ∨ r.action = .branchTest) :
    ∃ p q q' l l' s', g.kidOwners k = [p, q, q'] ∧ (g.node q).slot = .label l ∧
      (g.node q').slot = .label l' ∧ Spares (fun _ ↦ False) o.core s' ∧
      Observed.exec σ c is o = some (o.withCore s', .goto (if V p ≠ 0 then l else l')) := by
  have htruth : ∀ t, (truth t ≠ 0) = (t = true) := by decide
  rcases haction with haction | haction
  · obtain ⟨-, p, q, q', x, y, z, hpq, rfl, hx, hy, hz⟩ :=
      hmatches.three_kids hkids (Grammar.tile_branchCond r hmatches.mem haction).2
    rw [haction] at hexpands
    cases hexpands with
    | @branchCond t l l' ht hl hl' =>
      obtain rfl := Option.some.inj ht
      obtain rfl := Option.some.inj hl
      obtain rfl := Option.some.inj hl'
      refine ⟨p, q, q', l, l', o.core, hpq, hy.holds, hz.holds, .refl _, ?_⟩
      have hholds : truth (o.core.flags.holds t) = V p := hx.holds
      rw [Observed.exec_branch (p := t) (jumpCondition?_jumpMnemonic t), Observed.exec_jump, ← hholds]
      simp only [htruth, Observed.withCore_core]
      split <;> rfl
    | extendWhole h => exact absurd h (by simp)
  · obtain ⟨-, p, q, q', x, y, z, hpq, rfl, hx, hy, hz⟩ :=
      hmatches.three_kids hkids (Grammar.tile_branchTest r hmatches.mem haction).2
    rw [haction] at hexpands
    cases hexpands with
    | @branchTest u l l' hu hl hl' =>
      obtain rfl := Option.some.inj hu
      obtain rfl := Option.some.inj hl
      obtain rfl := Option.some.inj hl'
      have hholds : o.core.regs (.virt u) = V p := hx.holds
      obtain ⟨f, hf⟩ : ∃ f, f = Flags.ofResult (V p &&& V p) false false := ⟨_, rfl⟩
      refine ⟨p, q, q', l, l', o.core.setFlags f, hpq, hy.holds, hz.holds, .setFlags _ _, ?_⟩
      have htest : Observed.run σ c [{ mnemonic := "testq", operands := [.vreg u, .vreg u] }] o =
          some (o.withCore (o.core.setFlags f)) := by
        rw [Observed.run_singleton, Observed.step_quiet rfl, step_test, hholds, hf]
        rfl
      have hexec := Observed.exec_append [branchTo "jne" l, jumpTo l'] htest (by simp [Inst.isStraight])
      rw [List.singleton_append] at hexec
      rw [hexec, Observed.exec_branch (p := .ne) rfl, Observed.exec_jump, Observed.core_withCore,
        flags_setFlags, hf, Flags.holds_ne_test]
      simp only [decide_eq_true_eq]
      split <;> rfl
    | extendWhole h => exact absurd h (by simp)

/-- Returns. -/
theorem Rule.Matches.returns (haction : r.action = .ret) : ∃ s', Spares (fun _ ↦ False) o.core s' ∧
    Observed.exec σ c is o = some (o.withCore s', .ret) ∧
      ∀ p, g.kidOwners k = [p] → s'.regs (.phys .rax) = V p := by
  -- a constant or a register is moved to the register for the result
  have hmove : ∀ {i : Machine.Inst} {w : Word}, i.isQuiet = true → i.isStraight = true →
      o.core.step c i = some (o.core.setReg (.phys .rax) w) →
      Observed.exec σ c [i, { mnemonic := "ret", operands := [], kind := .ret }] o =
        some (o.withCore (o.core.setReg (.phys .rax) w), .ret) := by
    intro i w hquiet hstraight hstep
    have hrun : Observed.run σ c [i] o = some (o.withCore (o.core.setReg (.phys .rax) w)) := by
      rw [Observed.run_singleton, Observed.step_quiet hquiet, hstep]
      rfl
    have hexec := Observed.exec_append [{ mnemonic := "ret", operands := [], kind := .ret }] hrun
      (by simpa using hstraight)
    rw [List.singleton_append] at hexec
    rw [hexec, Observed.exec_ret]
  have hspares : ∀ w, Spares (fun _ ↦ False) o.core (o.core.setReg (.phys .rax) w) := fun w ↦
    .setPhys _ w (by decide) (by decide)
  obtain ⟨-, goals, hgoals, hp⟩ := Grammar.tile_ret r hmatches.mem haction
  obtain ⟨hleaves, hlength, -⟩ := Pattern.leaves_of_inst hp hmatches.fits (.refl g)
  rw [r.pattern.takeLeaves_fst k g (.refl g)] at hleaves
  rw [hleaves] at hkids
  have hcases : kids = [] ∧ g.kidOwners k = [] ∨ ∃ p goal x, g.kidOwners k = [p] ∧
      goal ∈ [Nonterminal.reg, .mem, .imm] ∧ kids = [x] ∧ Fits g V n o.core (p, goal) x := by
    simp only [List.mem_cons, List.not_mem_nil, or_false] at hgoals
    rcases hgoals with rfl | rfl | rfl
    · rw [List.zip_nil_right, List.forall₂_nil_left_iff] at hkids
      exact Or.inl ⟨hkids, List.eq_nil_of_length_eq_zero hlength⟩
    all_goals
      obtain ⟨p, hp⟩ := List.length_eq_one_iff.mp hlength
      rw [hp] at hkids
      obtain ⟨x, hx, rfl⟩ := exists_of_forall₂_one hkids
      exact Or.inr ⟨p, _, x, hp, by decide, rfl, hx⟩
  rw [haction] at hexpands
  rcases hcases with ⟨rfl, hnil⟩ | ⟨p, goal, x, hpk, hgoal, rfl, hx⟩
  · cases hexpands with
    | retVoid => exact ⟨o.core, .refl _, Observed.exec_ret, fun p hpk ↦ by simp [hnil] at hpk⟩
    | retImm hw => exact absurd hw (by simp)
    | ret hx => exact absurd hx (by simp)
    | extendWhole h => exact absurd h (by simp)
  · have hresult : ∀ q, g.kidOwners k = [q] →
        (o.core.setReg (.phys .rax) (V p)).regs (.phys .rax) = V q := by
      intro q hqk
      rw [List.singleton_inj.mp (hpk.symm.trans hqk)]
      exact regs_setReg_self
    cases hexpands with
    | retVoid hnil => exact absurd hnil (by simp)
    | @retImm w hw =>
      obtain rfl := Option.some.inj hw
      have hplain : (loadConstant w (.phys .rax)).isQuiet = true ∧
          (loadConstant w (.phys .rax)).isStraight = true := by
        rw [loadConstant]
        split <;> exact ⟨rfl, rfl⟩
      have hw : w = V p := hx.holds
      exact ⟨_, hspares _, hmove hplain.1 hplain.2 (hw ▸ step_loadConstant), hresult⟩
    | @ret y hy hvariable =>
      obtain ⟨hread, -, -, ⟨z, -, rfl, -⟩ | hfits⟩ := hx.operand hgoal hy
      · exact absurd rfl (hvariable z)
      · exact ⟨_, hspares _, hmove rfl rfl (step_move_phys rfl rfl hfits hread), hresult⟩
    | extendWhole h => exact absurd h (by simp)

end

end

variable {text : String} {fs : List Func} {f : Func} {s : Session} {next : InstId}
  {os : List (Ir.Operand Value)} {trees : List (List NodeId)} {w v t t' u u' : Workspace}
  {k r : NodeId} {a base : Application} {as below : List Application} {goal : Nonterminal} {bound : Bound}
  {g : Forest} {S : NodeId → Prop} {x : Unit}

/-! ## Roots that are always emitted -/

/-- What nobody reads is not computed while others are reduced. -/
theorem keptByReduction_not_computed (g : Forest) (hk : ¬ S k) :
    KeptByReduction g S fun f f' ↦ (f.node k).computed = false → (f'.node k).computed = false where
  refl _ h := h
  trans _ _ _ h h' := h' ∘ h
  release f id _ _ h := (f.computed_releaseKids id k).trans h
  roles f f' h hnew := by
    obtain ⟨roles, heq⟩ := h.2 k
    rw [heq]
    exact hnew
  mark f id v o hid _ hnew := by
    rcases f.node_update_cases id k fun n ↦
      { n with computed := true, slot := .vreg v, roles := { n.roles with register := true } }
      with ⟨rfl, -⟩ | hnode
    · exact absurd hid hk
    · exact hnode ▸ hnew

theorem keptByVisits_not_computed (hflat : w.forest.Flat) (hk : ∀ p, k ∉ w.forest.kidOwners p)
    (all : List NodeId) : KeptByVisits all fun done v ↦ w.forest.SameSkeleton v.forest ∧
      (k ∉ done → (v.forest.node k).computed = false) where
  block _ _ _ _ h := h
  root done root v v' _ hv h := by
    obtain ⟨hskeleton, hnew⟩ := hv
    rcases selectTree_eq_ok h with
      ⟨-, -, ⟨-, hforest⟩ | ⟨v₁, hemit, hforest⟩⟩ | ⟨goal, u, b, u', hstarts, hrun, -, hforest⟩
    · exact hforest ▸ ⟨hskeleton, fun hdone ↦ hnew fun hk ↦ hdone (List.mem_append_left _ hk)⟩
    · obtain ⟨rfl, -⟩ := shouldEmit_ok hemit
      rw [hforest]
      refine ⟨hskeleton.trans (v.forest.settles_refreshLevel root).skeleton, fun hdone ↦ ?_⟩
      rw [((v.forest.sameValues_refreshLevel root) k).computed]
      exact hnew fun hk ↦ hdone (List.mem_append_left _ hk)
    · obtain ⟨hvu, hvalues, -⟩ := hstarts.sameValues
      have hwu := hskeleton.trans hvu
      have hflat' := hwu.flat hflat
      have howner : u.forest.owner root = root := (hvu.owner root).trans
        (Forest.owner_of_target hstarts.labels.1)
      -- the nodes that are reduced are the root and operands
      obtain ⟨S, hS⟩ : ∃ S : NodeId → Prop, S = fun j ↦
        u.forest.owner j = j ∧ (j = root ∨ ∃ p, j ∈ w.forest.kidOwners p) := ⟨_, rfl⟩
      have hclosed : u.forest.ClosedUnderKids S := by
        intro p _ c hc
        have hc' := hc
        obtain ⟨j, -, rfl⟩ := List.mem_map.mp hc
        exact hS ▸ ⟨hflat'.owner_owner j, Or.inr ⟨p, hwu.kidOwners p ▸ hc'⟩⟩
      have hother : k ∉ done ++ [root] → ¬ S k := by
        rw [hS]
        rintro hdone ⟨-, rfl | ⟨p, hp⟩⟩
        · exact hdone (by simp)
        · exact hk p hp
      have hroot : S (u.forest.owner root) := by rw [hS, howner]; exact ⟨howner, Or.inl rfl⟩
      have hself : ∀ j, S j → u.forest.owner j = j := by rw [hS]; exact fun _ h ↦ h.1
      rw [reduce_eq] at hrun
      have hreduces : Reduces u.forest S root u := ⟨hstarts.labels.2.2, .refl _, hroot⟩
      rw [hforest]
      refine ⟨hwu.trans ((keptByReduction_accesses u.forest S).reduceFrom hclosed hself hreduces hrun).2.2,
        fun hdone ↦ ?_⟩
      refine ((keptByReduction_not_computed u.forest (hother hdone)).reduceFrom hclosed hself
        hreduces hrun).1 ?_
      rw [(hvalues k).computed]
      exact hnew fun hk ↦ hdone (List.mem_append_left _ hk)

/-- What a rule does at a call that does more than to compute is the call. -/
theorem Rule.Matches.isEffect_of_call {rule : Rule} (hmatches : rule.Matches g k)
    (hop : (g.node k).op = .inst .call) (haction : rule.action.computes = false) : rule.action.isEffect = true := by
  have hhead := Grammar.head_of_final rule hmatches.mem haction
  simp only [List.map_cons, List.map_nil, List.mem_cons, List.not_mem_nil, or_false] at hhead
  rcases hhead with hhead | hhead | hhead | hhead | hhead
  · exact absurd ((head?_phiMove (hmatches.fits.head? hhead)).2.symm.trans hop) NodeOp.noConfusion
  all_goals
    obtain hop' := NodeOp.inst.inj ((TreeCover.head?_inst (hmatches.fits.head? hhead)).2.symm.trans hop)
  · exact absurd hop' Opcode.noConfusion
  · rw [(Grammar.action_of_final rule hmatches.mem).2.2.1 hhead]
    rfl
  all_goals exact absurd hop' Opcode.noConfusion

section

variable (hparse : parse text = .ok fs) (hf : f ∈ fs)
  (hbuild : buildForest f (.start f s) = .ok trees w) (hcomes : Comes trees w r t)
include hbuild hcomes

/-- A root that nobody reads is not computed before its visit. -/
theorem Work.Comes.not_computed (hop : (w.forest.node r).op ≠ .phiDef)
    (hr : ∀ p, r ∉ w.forest.kidOwners p) : (t.forest.node r).computed = false := by
  obtain ⟨hp, -⟩ := buildForest_planted hbuild
  obtain ⟨done, later, hall, -, hnew⟩ :=
    (keptByVisits_not_computed hp.building.flat hr trees.flatten).comes
      ⟨.refl _, fun _ ↦ hp.computed hop⟩ hcomes
  refine hnew fun hdone ↦ Nat.lt_irrefl r ?_
  have hsorted := hp.sorted
  rw [hall] at hsorted
  exact (List.pairwise_append.mp hsorted).2.2 r hdone r List.mem_cons_self

include hparse hf

/-- What does more than to compute is emitted when it is visited. -/
theorem exists_starts_of_isFinal (hfinal : (w.forest.node r).op.isFinal = true)
    (hvisit : selectTree r t = .ok x t') : ∃ goal u, Starts r goal t u := by
  obtain ⟨hp, -⟩ := buildForest_planted hbuild
  have hrec := buildForest_recorded hbuild
  have hread : ∀ {o}, (w.forest.node r).op = .inst o → o.isDefinition = false →
      ∀ p, r ∉ w.forest.kidOwners p := fun hop hvalue p hkid ↦
    Bool.false_ne_true (hvalue.symm.trans (isDefinition_of_kid hparse hf hbuild hkid hop))
  have hlone : (w.forest.node r).op ≠ .inst .phi → (w.forest.node r).op ≠ .phiDef →
      (∀ p, r ∉ w.forest.kidOwners p) → ∃ goal u, Starts r goal t u := fun hphi hdef hr ↦ by
    refine starts_of_not_mayWait hbuild hcomes hvisit hphi
      (hcomes.not_computed hbuild hdef hr) fun hwait ↦ ?_
    obtain ⟨p, hkid⟩ := hwait.consumed
    rw [Forest.owner_of_target (hp.target_of_ne_phi hphi)] at hkid
    exact hr p hkid
  have heffect : ∀ {o}, (w.forest.node r).op = .inst o → o.writesMemory = true →
      ∃ goal u, Starts r goal t u := fun hop hwrites ↦
    exists_starts hbuild hcomes hvisit hop (Or.inr hwrites) fun hwait ↦ by
      have hside := hwait.effect
      rw [Node.hasSideEffect, Node.opcode?, hop] at hside
      exact Bool.false_ne_true (hside.symm.trans hwrites)
  cases hop : (w.forest.node r).op with
  | phiMove =>
    exact hlone (by simp [hop]) (by simp [hop]) fun p ↦ hp.not_kid_phiMove hrec hop p
  | inst o =>
    rw [hop] at hfinal
    cases o with
    | store | call => exact heffect hop rfl
    | br | ret => exact hlone (by simp [hop]) (by simp [hop]) (hread hop rfl)
    | _ => exact absurd hfinal Bool.false_ne_true
  | _ =>
    rw [hop] at hfinal
    exact absurd hfinal Bool.false_ne_true

variable (hvoid : ∀ {p q}, q ∈ w.forest.kidOwners p → ¬ w.forest.IsVoidCall q)
  (he : Traced w t r as t' goal u bound u')
include hvoid he

/-- What does more than to compute is done for the root, which stands for that. -/
theorem Traced.final_of_not_computes (ha : a ∈ as) (haction : a.rule.action.computes = false) :
    a.node = r ∧ (w.forest.node r).op.isFinal = true := by
  obtain ⟨hp, -⟩ := buildForest_planted hbuild
  have hmatches := he.matches_rule ha
  have hfinal := hmatches.isFinal haction
  rw [he.skeleton.op] at hfinal
  suffices hnode : a.node = r from ⟨hnode, hnode ▸ hfinal⟩
  by_cases heffect : a.rule.action.isEffect = true
  · exact he.node_of_isEffect hparse hf hbuild hvoid hcomes ha heffect
  refine (he.beneath ha).resolve_right fun ⟨p, _, hkid⟩ ↦ ?_
  rw [he.skeleton.kidOwners] at hkid
  cases hop : (w.forest.node a.node).op with
  | phiMove => exact hp.not_kid_phiMove (buildForest_recorded hbuild) hop p hkid
  | inst o =>
    have hvalue := isDefinition_of_kid hparse hf hbuild hkid hop
    rw [hop] at hfinal
    cases o with
    | call => exact heffect (hmatches.isEffect_of_call ((he.skeleton.op _).trans hop) haction)
    | store | br | ret => exact Bool.false_ne_true hvalue
    | _ => exact Bool.false_ne_true hfinal
  | _ =>
    rw [hop] at hfinal
    exact Bool.false_ne_true hfinal

end

/-! ## What is below a root -/

section

variable {σ : World} {F : Frame} {V : NodeId → Word} {m n : Nat} {s₀ s₁ s₂ : Core} {c : Callee}

theorem Traced.ready_before (he : Traced w t r as t' goal u bound u')
    (h : Ready w.forest σ F V m n t s₁) : Ready u.forest σ F V m n u s₁ :=
  (h.same he.code_eq he.starts.sameValues.1 he.values).seen (.refl _)

theorem Traced.ready_after (he : Traced w t r as t' goal u bound u')
    (h : Ready w.forest σ F V m n t s₁) (h' : Ready u.forest σ F V m n u' s₂) :
    Ready w.forest σ F V m n t' s₂ := by
  have hheld := (h.held.trans (.of_sameValues he.starts.sameValues.1 he.values)).trans h'.held
  exact (h'.seen hheld).same he.code (he.forest ▸ .refl _) (he.forest ▸ .refl _)

/-- The state `s₁`, in which everything below the root has been computed that `base` is given, which does
more than to compute. -/
structure Brink (σ : World) (F : Frame) (V : NodeId → Word) (m n : Nat) (c : Callee) (r : NodeId)
    (as : List Application) (u u' : Workspace) (s : Core) (below : List Application) (base : Application)
    (s₁ : Core) : Prop where
  peaks : Peaks u.forest u.labels r u as u' below base
  new : (u.forest.node r).computed = false
  fits : base.rule.Matches u.forest r
  computes : ∀ a ∈ below, a.rule.action.computes = true
  quiet : Quiet (below.flatMap (·.code))
  run : Core.run c (below.flatMap (·.code)) s = some s₁
  spares : Spares (u.code.vregs ≤ ·) s s₁
  ready : Ready u.forest σ F V m n base.before s₁
  vregs : u.code.vregs ≤ base.before.code.vregs
  kids : List.Forall₂ (Fits u.forest V base.before.code.vregs s₁)
    (base.rule.pattern.leaves u.forest r) base.kids

namespace Brink

variable (h : Brink σ F V m n c r as u u' s₀ below base s₁)
include h

/-- The rule is one for the root. -/
theorem head? {op : NodeOp} (hop : (u.forest.node r).op = op) :
    base.rule.pattern.head? = ({ op, width := 0 } : Node).head? := by
  rw [h.fits.head?_eq h.peaks.head, Node.head?, Node.head?, h.new, hop]

theorem extends_frame : base.before.code.frame.Extends u'.code.frame := by
  obtain ⟨u₁, hsettle, hcode, -⟩ := h.peaks.settles
  rw [hcode, code_settle hsettle]
  exact Application.extends_frame h.fits.mem

/-- The leaves name registers that have been drawn. -/
theorem below_vregs : ∀ kid ∈ base.kids, ∀ x ∈ kid.vregs, x < base.before.code.vregs := by
  intro kid hkid
  obtain ⟨leaf, -, hfits⟩ := exists_of_forall₂ h.kids hkid
  exact hfits.below

/-- The rest of the visit, if the result of `base` holds. -/
theorem settles (hphi : base.rule.action ≠ .phiInput)
    (h₂ : Ready u.forest σ F V m n base.before s₂) (hholds : base.result.Holds u.forest V s₂ r) :
    Ready u.forest σ F V m n u' s₂ ∧ base.before.code.vregs ≤ u'.code.vregs := by
  obtain ⟨u₁, hsettle, hcode, hskeleton, hvalues⟩ := h.peaks.settles
  obtain ⟨-, hle, hresult⟩ := h₂.assigning.apply trivial h.below_vregs
  have hsettled := (h₂.apply hphi h.below_vregs).settle hresult hholds hsettle
  refine ⟨hsettled.same hcode hskeleton hvalues, ?_⟩
  rw [hcode, code_settle hsettle]
  exact hle

/-- The rest of the visit of a copy into a phi. -/
theorem records (hphi : base.rule.action = .phiInput) :
    Ready u.forest σ F V m n u' s₁ ∧ u'.code = base.after.code := by
  obtain ⟨_, _, _, _, -, -, -, hnone, hafter⟩ := applyRule_phiInput hphi base.runs
  obtain ⟨u₁, hsettle, hcode, hskeleton, hvalues⟩ := h.peaks.settles
  have hready : Ready u.forest σ F V m n base.after s₁ :=
    { h.ready with
      assigning := (h.ready.assigning.apply trivial h.below_vregs).1
      slotted := by rw [hafter]; exact h.ready.slotted
      held := by rw [hafter]; exact h.ready.held
      agrees := by rw [hafter]; exact h.ready.agrees }
  obtain rfl : u₁ = base.after := (settle_eq_ok hsettle).2.resolve_right fun ⟨_, _, _, hreg, _⟩ ↦
    Bound.noConfusion (hnone.symm.trans hreg)
  exact ⟨hready.same hcode hskeleton hvalues, hcode⟩

/-- The code of `base`. -/
theorem expands (hphi : base.rule.action ≠ .phiInput) :
    Expands (base.before.forest.node r) base.before.code.frame base.kids base.before.code.vregs
      base.rule.action base.code base.result := by
  obtain ⟨is, hexpands, hemits, -⟩ := applyRule_expands base.runs hphi
  obtain rfl := Application.code_of_instsAt (hemits.instsAt h.ready.assigning.inside.2)
  rwa [h.peaks.node] at hexpands

/-- Nothing has been handed to phis yet. -/
theorem phis (succ : BlockId) :
    phisAt base.before.code.blocks succ = phisAt u.code.blocks succ := by
  obtain ⟨u₁, hcode, -, -, htrail⟩ := h.peaks.leaves
  have hkeeps := htrail.keepsPhis fun a ha hphi ↦ by
    have hcomputes := h.computes a ha
    rw [hphi] at hcomputes
    exact Bool.noConfusion hcomputes
  rw [hkeeps.phis, hcode]

end Brink

end

section

variable {σ : World} {F : Frame} {V : NodeId → Word} {m n : Nat} {s₀ : Core} {c : Callee}
  (hparse : parse text = .ok fs) (hf : f ∈ fs)
  (hbuild : buildForest f (.start f s) = .ok trees w) (hcomes : Comes trees w r t)
  (hvoid : ∀ {p q}, q ∈ w.forest.kidOwners p → ¬ w.forest.IsVoidCall q)
  (he : Traced w t r as t' goal u bound u')
  (hmeans : ∀ k, u.forest.Beneath r k → u.forest.Means σ s₀.mem V k ∧ u.forest.Casts k)
  (hready : Ready w.forest σ F V m n t s₀) (hF : F.Addressed) (hextends : t'.code.frame.Extends F)
include hparse hf hbuild hcomes hvoid he hmeans hready hF hextends

/-- The visit of a root that only computes. -/
theorem Traced.runs (hfinal : (w.forest.node r).op.isFinal = false) :
    Quiet (as.flatMap (·.code)) ∧ ∃ s₁, Core.run c (as.flatMap (·.code)) s₀ = some s₁ ∧
      Spares (t.code.vregs ≤ ·) s₀ s₁ ∧ Ready w.forest σ F V m n t' s₁ ∧
      t.code.vregs ≤ t'.code.vregs := by
  have hcomputes : ∀ a ∈ as, a.rule.action.computes = true := fun a ha ↦ by
    by_contra hnot
    exact Bool.false_ne_true (hfinal.symm.trans
      (he.final_of_not_computes hparse hf hbuild hcomes hvoid ha (by simpa using hnot)).2)
  obtain ⟨s₁, hrun, hspares, hready', hle, -⟩ := he.trail.runs (c := c) he.derives hF hmeans hcomputes
    (fun goal hgoal ↦ Or.inl (by rw [List.mem_singleton.mp hgoal])) (List.pairwise_singleton _ _)
    (he.ready_before hready) (he.code ▸ hextends)
  rw [he.code_eq] at hspares hle
  exact ⟨quiet_of_computes fun a ha ↦ ⟨(he.matches_rule ha).mem, hcomputes a ha⟩, s₁, hrun, hspares,
    he.ready_after hready hready', he.code ▸ hle⟩

/-- The visit of a root that does more. -/
theorem Traced.brink (hfinal : (w.forest.node r).op.isFinal = true) :
    ∃ below base s₁, Brink σ F V m n c r as u u' s₀ below base s₁ := by
  obtain ⟨-, hnot⟩ := Bool.or_eq_false_iff.mp he.starts.1
  have hnew : (u.forest.node r).computed = false := (he.values r).computed.trans hnot
  obtain ⟨-, -, -, -, hgoal⟩ := he.starts.labeled
  have hhead : (u.forest.node r).head? ∈ Grammar.finalHeads.map some := by
    rw [← he.skeleton.op] at hfinal
    cases hop : (u.forest.node r).op with
    | phiMove =>
      rw [Node.head?, hnew, hop]
      decide
    | inst o =>
      rw [hop] at hfinal
      cases o with
      | store | call | br | ret =>
        rw [Node.head?, hnew, hop]
        decide
      | _ => exact absurd hfinal Bool.false_ne_true
    | _ =>
      rw [hop] at hfinal
      exact absurd hfinal Bool.false_ne_true
  obtain ⟨below, base, hpeaks⟩ := he.trail.peaks he.derives hnew hgoal hhead
  have hmatches : base.rule.Matches u.forest r := hpeaks.node ▸ he.matches_rule hpeaks.base_mem
  have howner : u.forest.owner r = r := (he.skeleton.owner r).trans (he.owner hbuild hcomes)
  have hcomputes : ∀ a ∈ below, a.rule.action.computes = true := fun a ha ↦ by
    by_contra hnot
    obtain ⟨hnode, -⟩ := he.final_of_not_computes hparse hf hbuild hcomes hvoid (hpeaks.mem a ha)
      (by simpa using hnot)
    obtain ⟨_, -, -, -, htrail⟩ := hpeaks.leaves
    exact htrail.node_ne he.derives he.falls hmatches howner hpeaks.head a ha hnode
  obtain ⟨u₁, hsettle, hcode, -⟩ := hpeaks.settles
  have hbefore : base.before.code.frame.Extends F := by
    refine (Application.extends_frame hmatches.mem).trans ?_
    rwa [← code_settle hsettle, ← hcode, ← he.code]
  obtain ⟨s₁, hrun, hspares, hready', hle, hkids⟩ := hpeaks.runs (c := c) he.derives hF hmeans
    (he.ready_before hready) hmatches hcomputes hbefore
  exact ⟨below, base, s₁, hpeaks, hnew, hmatches, hcomputes, quiet_of_computes fun a ha ↦
    ⟨(he.matches_rule (hpeaks.mem a ha)).mem, hcomputes a ha⟩, hrun, hspares, hready', hle, hkids⟩

end

end TreeCover
