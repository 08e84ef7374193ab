import TreeCover.Proofs.Convention.Threads
import TreeCover.Proofs.Machine.Observed
import TreeCover.Proofs.Tiling.Meaning
import TreeCover.Proofs.Tiling.MemoryAccesses
import TreeCover.Proofs.Tiling.SharedValues
import TreeCover.Proofs.Tiling.SingleAssignment
import TreeCover.Proofs.Tiling.Trails

/-!
# Execution of trails

The code of a trail is executed application by application. If the actions only compute, then every goal
is reduced to a result that holds, and nothing is touched but registers that are drawn on the way. What is
done for its effect is done last: the trail of a root goes below it first, and nothing that follows the
action for the root has code.

Main statement: `Trail.runs`.
-/

namespace TreeCover

open Ir Machine Machine.Core Work

variable {g : Forest} {σ : World} {F : Frame} {V : NodeId → Word} {c : Callee} {s s' : Core}
  {k r : NodeId} {nt : Nonterminal} {goals : List (NodeId × Nonterminal)} {rule : Rule} {a : Application}
  {as : List Application} {ls : Labels} {w w' : Workspace} {b : Bound} {bs kids : List Bound} {m n : Nat}
  {node : Node} {frame : Frame} {v : VReg} {is : List Machine.Inst} {rank : NodeId → Nat}

/-! ## Quiet code -/

theorem Machine.Inst.Calm.isQuiet {i : Machine.Inst} (h : i.Calm) (heffect : i.hasSideEffect = false) :
    i.isQuiet = true := by
  have hcall : i.mnemonic ≠ "call" := fun heq ↦ h.name (by rw [heq]; decide)
  have hpush : i.mnemonic ≠ "pushq" := fun heq ↦ h.name (by rw [heq]; decide)
  rw [Inst.isQuiet, decide_eq_true hcall, decide_eq_true hpush]
  cases hlast : i.operands.getLast? with
  | none => rfl
  | some o =>
    cases h.target o hlast with
    | virt => rfl
    | phys _ hr =>
      simp only [List.mem_cons, List.not_mem_nil, or_false] at hr
      rcases hr with rfl | rfl <;> rfl
    | mem hstores =>
      obtain ⟨-, src, rfl⟩ := hstores
      exact absurd (heffect.symm.trans (Inst.hasSideEffect_of_isStore (isStore_mov _ src _))) (by decide)

/-- Code that touches registers only. -/
def Quiet (is : List Machine.Inst) : Prop := ∀ i ∈ is, i.isQuiet = true ∧ i.isStraight = true

/-- Actions that only compute have quiet code. -/
theorem Expands.isQuiet {action : Action} (h : Expands node frame kids v action is b)
    (hknown : action.isKnown = true) (hcomputes : action.computes = true) : Quiet is := by
  have hcalm : action.isCalm = true := by
    cases action <;> first | rfl | exact absurd hcomputes (by decide)
  have hstore : action ≠ .store := fun h ↦ absurd (h ▸ hcomputes) (by decide)
  have hcall : action ≠ .call := fun h ↦ absurd (h ▸ hcomputes) (by decide)
  intro i hi
  have hi' := h.calm hknown hcalm i hi
  exact ⟨hi'.isQuiet (h.quiet hstore hcall i hi), Inst.isStraight_of_plain hi'.plain⟩

/-! ## Goals -/

/-- No goal after a condition has code. -/
def Flagged (goals : List (NodeId × Nonterminal)) : Prop :=
  goals.Pairwise fun x y ↦ x.2 = .cond → y.2 ∈ [.label, .dummy]

theorem Grammar.goals_of_cond : ∀ r ∈ Grammar.rules, .cond ∈ r.pattern.goals →
    r.pattern.source? = some .cond ∨ r.pattern.inst? = some (.br, [.cond, .label, .label]) := by decide

theorem Rule.Matches.flagged (hmatches : rule.Matches g k) : Flagged (rule.pattern.leaves g k) := by
  rw [← rule.pattern.takeLeaves_fst k g (.refl g)]
  by_cases hcond : .cond ∈ rule.pattern.goals
  · rcases Grammar.goals_of_cond rule hmatches.mem hcond with hp | hp
    · rw [Pattern.leaves_of_source hp]
      exact List.pairwise_singleton _ _
    · obtain ⟨hleaves, hlength, -, -⟩ := Pattern.leaves_of_inst hp hmatches.fits (.refl g)
      obtain ⟨p, q, q', hkids⟩ := List.length_eq_three.mp hlength
      rw [hleaves, hkids]
      simp [Flagged]
  · refine List.pairwise_of_forall_mem_list fun x hx _ _ heq ↦ absurd ?_ hcond
    exact heq ▸ rule.pattern.goal_mem k g x hx

theorem Node.ne_cond_of_reuse {p : Ir.Predicate} (h : node.reuse? nt = some b) : b ≠ .cond p := by
  rintro rfl
  unfold Node.reuse? at h
  split at h <;> exact absurd h (by simp)

/-- Only a comparison gives a condition. -/
theorem Application.of_cond (ha : a.rule ∈ Grammar.rules) {p : Ir.Predicate}
    (hresult : a.result = .cond p) : a.rule.lhs = .cond := by
  by_cases hphi : a.rule.action = .phiInput
  · obtain ⟨-, -, -, -, -, -, -, hnone, -⟩ := applyRule_phiInput hphi a.runs
    exact absurd (hresult.symm.trans hnone) Bound.noConfusion
  obtain ⟨is, hexpands, -⟩ := applyRule_expands a.runs hphi
  rw [hresult] at hexpands
  refine (Grammar.tile_compare a.rule ha ?_).1
  generalize a.rule.action = action at hexpands
  cases hexpands
  rfl

theorem Grammar.action_of_goal : ∀ r ∈ Grammar.rules, r.lhs ∈ [.label, .dummy] →
    r.action.isSilent = true ∧ (r.pattern.isLeaf .label = true ∨ r.pattern.isLeaf .dummy = true) := by
  decide

theorem Grammar.isLeaf_of_label : ∀ r ∈ Grammar.rules, r.lhs = .label → r.pattern.isLeaf .label = true := by
  decide

/-- Goals that are reduced without code. -/
theorem Trail.silent (hls : ls.Derives g) (h : Trail g ls goals w bs w' as)
    (hgoals : ∀ goal ∈ goals, goal.2 ∈ [.label, .dummy]) : ∀ a ∈ as, a.code = [] := by
  induction h with
  | nil => exact List.forall_mem_nil _
  | found _ _ _ ih => exact ih (List.forall_mem_cons.mp hgoals).2
  | @made _ _ _ _ a _ _ _ _ _ _ _ rule _ _ _ ihl ihr =>
    obtain ⟨hlhs, hgoals⟩ := List.forall_mem_cons.mp hgoals
    obtain ⟨hsilent, hleaf⟩ := Grammar.action_of_goal a.rule (hls.sound.rule rule).1.mem hlhs
    have hnil : a.rule.pattern.leaves g a.node = [] := by
      rw [← a.rule.pattern.takeLeaves_fst a.node g (.refl g)]
      exact hleaf.elim (fun h ↦ (Pattern.leaves_of_isLeaf h).1) fun h ↦ (Pattern.leaves_of_isLeaf h).1
    rw [hnil] at ihl
    exact List.forall_mem_append.mpr ⟨ihl (List.forall_mem_nil _),
      List.forall_mem_cons.mpr ⟨a.code_of_isSilent hsilent, ihr hgoals⟩⟩

/-- The goals that are labels are those of labels. -/
theorem Trail.label (hls : ls.Derives g) (h : Trail g ls goals w bs w' as) :
    ∀ goal ∈ goals, goal.2 = .label → (g.node goal.1).op = .label := by
  induction h with
  | nil => exact fun _ hgoal ↦ absurd hgoal List.not_mem_nil
  | found _ hfound _ ih =>
    refine List.forall_mem_cons.mpr ⟨?_, ih⟩
    rintro rfl
    unfold Node.reuse? at hfound
    split at hfound <;> simp_all
  | @made _ _ _ _ a _ _ _ _ _ _ _ rule _ _ _ _ ih =>
    refine List.forall_mem_cons.mpr ⟨fun hlhs ↦ ?_, ih⟩
    obtain ⟨hmatches, -⟩ := hls.sound.rule rule
    have hleaf := Grammar.isLeaf_of_label a.rule hmatches.mem hlhs
    exact (head?_label (hmatches.fits.head? (Pattern.leaves_of_isLeaf (k := a.node) (f := g) hleaf).2)).2

/-! ## States -/

theorem Machine.Core.address_frame_congr (h : s'.regs (.phys .rbp) = s.regs (.phys .rbp)) {d : Int} :
    s'.address (.frame d) = s.address (.frame d) := by
  simp only [Core.address, Mem.frame, Mem.based, h]

section

variable {f f' : Forest}

theorem Agrees.same (h : Agrees σ F V f s) (hsame : f.SameValues f') : Agrees σ F V f' s where
  computed k v hk hv := h.computed k v ((hsame k).computed.symm.trans hk) ((hsame k).slot.symm.trans hv)
  args k idx m hop hm := h.args k idx m ((hsame k).op.symm.trans hop) ((hsame k).slot.symm.trans hm)
  rooms := h.rooms

/-- The values of computed nodes are in registers that have been drawn. -/
theorem Agrees.moved (h : Agrees σ F V f s) (hslots : f.SlotsBelow n) (hF : F.Addressed)
    (hvirt : ∀ x < n, s'.regs (.virt x) = s.regs (.virt x))
    (hframe : s'.regs (.phys .rbp) = s.regs (.phys .rbp))
    (hargs : ∀ k idx m, (f.node k).op = .arg idx → (f.node k).slot = .mem m →
      s'.mem.word (s'.address m) = σ.args idx) : Agrees σ F V f s' where
  computed k v hk hv :=
    (hvirt v (hslots k v (by rw [hv]; exact List.mem_singleton_self v))).trans (h.computed k v hk hv)
  args := hargs
  rooms i m hm := by
    obtain ⟨_, _, hslots, -⟩ := List.lookup_eq_some_iff.mp hm
    obtain ⟨d, rfl⟩ : ∃ d, m = .frame d :=
      hF (.value i, m) (hslots ▸ List.mem_append_right _ List.mem_cons_self)
    rw [address_frame_congr hframe]
    exact h.rooms i _ hm

/-- Registers that are drawn later are not those of computed nodes. -/
theorem Agrees.spared (h : Agrees σ F V f s) (hslotted : f.Slotted) (hslots : f.SlotsBelow n)
    (hF : F.Addressed) (hspares : Spares (n ≤ ·) s s') : Agrees σ F V f s' := by
  refine h.moved hslots hF (fun x hx ↦ hspares.virt x (Nat.not_le.mpr hx)) hspares.frame
    fun k idx m hop hm ↦ ?_
  obtain ⟨d, hd⟩ := (hslotted k).argument idx hop
  obtain rfl := Slot.mem.inj (hm.symm.trans hd)
  rw [hspares.mem, address_frame_congr hspares.frame]
  exact h.args k idx _ hop hm

end

/-- The workspace `w` and the state `s` of the machine between two steps of a reduction along labels for
`g`. -/
structure Ready (g : Forest) (σ : World) (F : Frame) (V : NodeId → Word) (m n : Nat) (w : Workspace)
    (s : Core) : Prop where
  assigning : Assigning (fun _ ↦ True) m (n + 1) w
  slotted : w.forest.Slotted
  held : g.HoldsOn w.forest
  agrees : Agrees σ F V w.forest s

namespace Ready

theorem same (h : Ready g σ F V m n w s) (hcode : w'.code = w.code)
    (hskeleton : w.forest.SameSkeleton w'.forest) (hsame : w.forest.SameValues w'.forest) :
    Ready g σ F V m n w' s where
  assigning := h.assigning.same hcode hsame
  slotted := h.slotted.same hsame
  held := h.held.trans (.of_sameValues hskeleton hsame)
  agrees := h.agrees.same hsame

/-- What is computed on the way is computed for those who look at an earlier forest. -/
theorem seen {g' : Forest} (h : Ready g σ F V m n w s) (hheld : g'.HoldsOn w.forest) :
    Ready g' σ F V m n w s :=
  { h with held := hheld }

theorem moved (h : Ready g σ F V m n w s) (hF : F.Addressed)
    (hvirt : ∀ x < w.code.vregs, s'.regs (.virt x) = s.regs (.virt x))
    (hframe : s'.regs (.phys .rbp) = s.regs (.phys .rbp))
    (hargs : ∀ k idx m, (w.forest.node k).op = .arg idx → (w.forest.node k).slot = .mem m →
      s'.mem.word (s'.address m) = σ.args idx) : Ready g σ F V m n w s' :=
  { h with agrees := h.agrees.moved h.assigning.slots hF hvirt hframe hargs }

theorem took (h : Ready g σ F V m n w s) (rule : Rule) (k : NodeId) (nt : Nonterminal) :
    Ready g σ F V m n (w.took rule k nt) s :=
  h.same rfl (rule.pattern.sameSkeleton_takeLeaves k w.forest)
    (w.forest.sameValues_takeLeaves rule.pattern k)

theorem spared (h : Ready g σ F V m n w s) (hF : F.Addressed)
    (hspares : Spares (w.code.vregs ≤ ·) s s') : Ready g σ F V m n w s' :=
  { h with agrees := h.agrees.spared h.slotted h.assigning.slots hF hspares }

/-- An application whose leaves name registers that have been drawn. -/
theorem apply (h : Ready g σ F V m n a.before s) (hphi : a.rule.action ≠ .phiInput)
    (hkids : ∀ kid ∈ a.kids, ∀ x ∈ kid.vregs, x < a.before.code.vregs) :
    Ready g σ F V m n a.after s := by
  obtain ⟨-, hinside⟩ := h.assigning.inside
  obtain ⟨-, -, hforest⟩ := a.emits hphi hinside
  exact ⟨(h.assigning.apply trivial hkids).1, h.slotted.same hforest.sameValues,
    h.held.trans (.of_sameValues (Forest.sameSkeleton_roles hforest) hforest.sameValues),
    h.agrees.same hforest.sameValues⟩

/-- An instruction remembers the register that it is in. -/
theorem settle (h : Ready g σ F V m n w s) (hbelow : ∀ x ∈ b.vregs, x < w.code.vregs)
    (hholds : b.Holds g V s k) (hsettle : Work.settle k nt b w = .ok b w') :
    Ready g σ F V m n w' s := by
  have hassigning := (h.assigning.settle hbelow hsettle).1
  obtain ⟨-, rfl | ⟨v, o, -, rfl, hop, rfl⟩⟩ := settle_eq_ok hsettle
  · exact h
  refine ⟨hassigning, h.slotted.mark hop v,
    h.held.trans (.update (Forest.sameSkeleton_update _ _ fun _ ↦ rfl) hop), ?_, ?_, h.agrees.rooms⟩
  · intro j u hj hu
    rcases w.forest.node_update_cases k j fun n ↦
        { n with computed := true, slot := .vreg v, roles := { n.roles with register := true } }
      with ⟨rfl, hnode⟩ | hnode
    · rw [hnode] at hu
      exact Slot.vreg.inj hu ▸ hholds
    · exact h.agrees.computed j u (hnode ▸ hj) (hnode ▸ hu)
  · intro j idx m hj hm
    rcases w.forest.node_update_cases k j fun n ↦
        { n with computed := true, slot := .vreg v, roles := { n.roles with register := true } }
      with ⟨rfl, hnode⟩ | hnode
    · rw [hnode] at hj
      exact absurd (hj.symm.trans hop) NodeOp.noConfusion
    · exact h.agrees.args j idx m (hnode ▸ hj) (hnode ▸ hm)

end Ready

/-! ## Runs -/

/-- Selection adds to the frame. -/
theorem Application.extends_frame (ha : a.rule ∈ Grammar.rules) :
    a.before.code.frame.Extends a.after.code.frame :=
  (keptBySelection_extends a.before.code.frame).action a.rule ha _ _ _ _ _ (.refl _) a.runs

theorem Trail.extends_frame (hls : ls.Derives g) (h : Trail g ls goals w bs w' as) :
    w.code.frame.Extends w'.code.frame := by
  induction h with
  | nil => exact .refl _
  | found _ _ _ ih => exact ih
  | made _ _ _ _ rule _ settles _ ihl ihr =>
    have hafter := Application.extends_frame (hls.sound.rule rule).1.mem
    rw [← code_settle settles] at hafter
    exact (ihl.trans hafter).trans ihr

section

variable (hls : ls.Derives g) (hF : F.Addressed)
  (hmeans : ∀ k, g.Beneath r k → g.Means σ s.mem V k ∧ g.Casts k)
include hls hF hmeans

omit hls in
/-- One application that only computes, once its leaves hold. -/
theorem Application.executes (hready : Ready g σ F V m n a.before s) (hlater : g.Later a.before.forest)
    (howner : g.owner a.node = a.node) (hmatches : a.rule.Matches g a.node)
    (hbeneath : g.Beneath r a.node) (hcomputes : a.rule.action.computes = true)
    (hextends : a.after.code.frame.Extends F)
    (hkids : List.Forall₂ (Fits g V a.before.code.vregs s) (a.rule.pattern.leaves g a.node) a.kids) :
    ∃ s', Core.run c a.code s = some s' ∧ Spares (· = a.before.code.vregs) s s' ∧
      Ready g σ F V m n a.after s' ∧ a.before.code.vregs ≤ a.after.code.vregs ∧
      Fits g V a.after.code.vregs s' (a.node, a.rule.lhs) a.result := by
  have hphi : a.rule.action ≠ .phiInput := fun h ↦ absurd (h ▸ hcomputes) (by decide)
  have hcall : a.rule.action ≠ .call := fun h ↦ absurd (h ▸ hcomputes) (by decide)
  have hnear : ∀ j, j = a.node ∨ (g.node a.node).computed = false ∧ j ∈ g.kidOwners a.node →
      g.Means σ s.mem V j := by
    rintro j (rfl | ⟨hnew, hj⟩)
    · exact (hmeans _ hbeneath).1
    · exact (hmeans j (Or.inr ⟨_, hbeneath.hangsBelow hnew, hj⟩)).1
  obtain ⟨is, hemits, s', hrun, hspares, hholds⟩ := hmatches.makes (c := c) hlater hkids a.runs
    hready.held hready.agrees hF hextends hnear (hmeans _ hbeneath).2 (Nat.le_refl _) hcomputes
  obtain ⟨-, hinside⟩ := hready.assigning.inside
  obtain rfl := code_of_instsAt (hemits.instsAt hinside)
  have hbelow : ∀ kid ∈ a.kids, ∀ x ∈ kid.vregs, x < a.before.code.vregs := by
    intro kid hkid
    obtain ⟨leaf, -, hfits⟩ := exists_of_forall₂ hkids hkid
    exact hfits.below
  obtain ⟨-, hle, hresult⟩ := hready.assigning.apply trivial hbelow
  refine ⟨s', hrun, hspares, (hready.spared hF (hspares.mono ?_)).apply hphi hbelow, hle, ?_, hholds,
    hresult⟩
  · rintro x rfl
    exact Nat.le_refl _
  · exact hmatches.serves hlater howner (Fits.allServe hkids) (fun h ↦ absurd h hcall) a.runs

/-- **Trails.** -/
theorem Trail.runs (h : Trail g ls goals w bs w' as) (hcomputes : ∀ a ∈ as, a.rule.action.computes = true)
    (hgoals : ∀ goal ∈ goals, g.Beneath r goal.1) (hflagged : Flagged goals)
    (hready : Ready g σ F V m n w s) (hextends : w'.code.frame.Extends F) :
    ∃ s', Core.run c (as.flatMap (·.code)) s = some s' ∧ Spares (w.code.vregs ≤ ·) s s' ∧
      Ready g σ F V m n w' s' ∧ w.code.vregs ≤ w'.code.vregs ∧
      List.Forall₂ (Fits g V w'.code.vregs s') goals bs := by
  induction h generalizing s with
  | nil => exact ⟨s, rfl, .refl s, hready, Nat.le_refl _, .nil⟩
  | @found k nt goals w w' b bs as _ hfound rest ih =>
    obtain ⟨-, hgoals⟩ := List.forall_mem_cons.mp hgoals
    obtain ⟨-, hflagged⟩ := List.pairwise_cons.mp hflagged
    obtain ⟨s', hrun, hspares, hready', hle, hfits⟩ :=
      ih hmeans hcomputes hgoals hflagged hready hextends
    refine ⟨s', hrun, hspares, hready', hle, .cons ?_ hfits⟩
    obtain ⟨hcomputed, -, v, hslot, hsub⟩ := Node.reuse?_cases hfound
    have hhere : Fits g V w.code.vregs s (k, nt) b := by
      refine ⟨.of_reuse hfound, .of_reuse hfound fun v hv ↦ hready.agrees.computed k v hcomputed hv,
        fun x hx ↦ hready.assigning.slots k x ?_⟩
      rw [hslot]
      exact hsub hx
    exact hhere.later hspares hle fun _ ↦ Node.ne_cond_of_reuse hfound
  | @made goals w u w' a bs as as' underway ready self pending rule leaves settles rest ihl ihr =>
    obtain ⟨hnode, hgoals⟩ := List.forall_mem_cons.mp hgoals
    obtain ⟨hafter, hflagged⟩ := List.pairwise_cons.mp hflagged
    obtain ⟨hbelow, hrest⟩ := List.forall_mem_append.mp hcomputes
    obtain ⟨hself, hrest⟩ := List.forall_mem_cons.mp hrest
    obtain ⟨hmatches, -⟩ := hls.sound.rule rule
    have hsettled := code_settle settles
    have hextends₂ : a.after.code.frame.Extends F := hsettled ▸ (rest.extends_frame hls).trans hextends
    have hextends₁ := (Application.extends_frame hmatches.mem).trans hextends₂
    -- the leaves, the rule, and the goals that follow
    obtain ⟨s₁, hrun₁, hspares₁, hready₁, hle₁, hkids⟩ := ihl hmeans hbelow
      (fun leaf hleaf ↦ hnode.leaf hmatches hleaf) hmatches.flagged (hready.took _ _ _) hextends₁
    obtain ⟨s₂, hrun₂, hspares₂, hready₂, hle₂, hresult⟩ := Application.executes (c := c) hF
      (hspares₁.mem ▸ hmeans) hready₁ ready.later self hmatches hnode hself hextends₂ hkids
    have hspares : Spares (w.code.vregs ≤ ·) s s₂ :=
      hspares₁.trans (hspares₂.mono fun x hx ↦ hx ▸ hle₁)
    have hready₃ := hready₂.settle hresult.below hresult.holds settles
    obtain ⟨s₃, hrun₃, hspares₃, hready₄, hle₃, hfits⟩ :=
      ihr (hspares.mem ▸ hmeans) hrest hgoals hflagged hready₃ hextends
    rw [hsettled] at hspares₃ hle₃
    have hle : w.code.vregs ≤ a.after.code.vregs := Nat.le_trans hle₁ hle₂
    refine ⟨s₃, ?_, hspares.trans (hspares₃.mono fun x hx ↦ Nat.le_trans hle hx), hready₄,
      Nat.le_trans hle hle₃, .cons ?_ hfits⟩
    · rw [List.flatMap_append, List.flatMap_cons, Core.run_append, hrun₁, Option.bind_some,
        Core.run_append, hrun₂, Option.bind_some, hrun₃]
    · by_cases hcond : ∃ p, a.result = .cond p
      · -- what comes after a condition has no code
        obtain ⟨p, hp⟩ := hcond
        have hlhs := Application.of_cond hmatches.mem hp
        have hsilent := rest.silent hls fun y hy ↦ hafter y hy hlhs
        have hnil : as'.flatMap (·.code) = [] := List.flatMap_eq_nil_iff.mpr hsilent
        rw [hnil] at hrun₃
        obtain rfl := Option.some.inj hrun₃
        exact ⟨hresult.serves, hresult.holds, fun x hx ↦ Nat.lt_of_lt_of_le (hresult.below x hx) hle₃⟩
      · exact hresult.later hspares₃ hle₃ fun p hp ↦ hcond ⟨p, hp⟩

end

/-- The code of applications that only compute is quiet. -/
theorem quiet_of_computes (has : ∀ a ∈ as, a.rule ∈ Grammar.rules ∧ a.rule.action.computes = true) :
    Quiet (as.flatMap (·.code)) := by
  intro i hi
  obtain ⟨a, ha, hi⟩ := List.mem_flatMap.mp hi
  obtain ⟨hmem, hcomputes⟩ := has a ha
  obtain ⟨is, hexpands, rfl | hnil⟩ :=
    a.code_cases fun hphi ↦ absurd (hphi ▸ hcomputes) (by decide)
  · exact hexpands.isQuiet (Grammar.isKnown a.rule hmem) hcomputes i hi
  · exact absurd (hnil ▸ hi) List.not_mem_nil

/-! ## Effects -/

/-- A trail for node `k`, which is done for its effect: what is below comes first, then the application
`base` for the node, and what follows changes nothing that matters. -/
structure Peaks (g : Forest) (ls : Labels) (k : NodeId) (w : Workspace) (as : List Application)
    (w' : Workspace) (below : List Application) (base : Application) : Prop where
  mem : ∀ a ∈ below, a ∈ as
  base_mem : base ∈ as
  node : base.node = k
  head : base.rule.pattern.source? = none
  ready : Underway g ls base.before
  code : as.flatMap (·.code) = below.flatMap (·.code) ++ base.code
  leaves : ∃ u, u.code = w.code ∧ w.forest.SameSkeleton u.forest ∧ w.forest.SameValues u.forest ∧
    Trail g ls (base.rule.pattern.leaves g k) u base.kids base.before below
  settles : ∃ u, settle k base.rule.lhs base.result base.after = .ok base.result u ∧ w'.code = u.code ∧
    u.forest.SameSkeleton w'.forest ∧ u.forest.SameValues w'.forest

/-- The reduction of a node for which nothing is found ends with the application of its rule. -/
theorem Trail.cases_last (h : Trail g ls [(k, nt)] w bs w' as)
    (hnew : (w.forest.node k).computed = false) : ∃ below a, as = below ++ [a] ∧ a.node = k ∧
      ls.rule? k nt = some a.rule ∧ Underway g ls a.before ∧ bs = [a.result] ∧
      Trail g ls (a.rule.pattern.leaves g k) (w.took a.rule k nt) a.kids a.before below ∧
      settle k nt a.result a.after = .ok a.result w' := by
  cases h with
  | found _ hfound => exact absurd hfound (by simp [Node.reuse?_of_not_computed hnew])
  | made _ ready _ _ rule leaves settles rest =>
    cases rest
    exact ⟨_, _, rfl, rfl, rule, ready, rfl, leaves, settles⟩

/-- The reduction of a node that is done for its effect. -/
theorem Trail.peaks (hls : ls.Derives g) (h : Trail g ls [(k, nt)] w bs w' as)
    (hnew : (w.forest.node k).computed = false) (hgoal : nt = .reg ∨ nt = .stmt)
    (hhead : (g.node k).head? ∈ Grammar.finalHeads.map some) :
    ∃ below base, Peaks g ls k w as w' below base := by
  have htook (u : Workspace) (rule : Rule) (nt : Nonterminal) :
      u.forest.SameSkeleton (u.took rule k nt).forest ∧ u.forest.SameValues (u.took rule k nt).forest :=
    ⟨rule.pattern.sameSkeleton_takeLeaves k u.forest, u.forest.sameValues_takeLeaves rule.pattern k⟩
  obtain ⟨below, a, rfl, hnode, hrule, hready, -, hleaves, hsettle⟩ := h.cases_last hnew
  obtain ⟨hmatches, rfl⟩ := hls.sound.rule hrule
  cases hsource : a.rule.pattern.source? with
  | none =>
    exact ⟨below, a, fun a ha ↦ List.mem_append_left _ ha, by simp, hnode, hsource, hready, by simp,
      ⟨w.took a.rule k a.rule.lhs, rfl, (htook _ _ _).1, (htook _ _ _).2, hleaves⟩,
      ⟨w', hsettle, rfl, .refl _, .refl _⟩⟩
  | some goal =>
    -- the register of the node is discarded
    rcases hgoal with hlhs | hlhs <;> rw [hlhs] at hrule
    · exact absurd (hsource.symm.trans (hls.register_source hhead hrule)) (by simp)
    obtain ⟨rfl, haction⟩ := Grammar.chain_of_stmt a.rule hmatches.mem goal hsource hlhs
    rw [← a.rule.pattern.takeLeaves_fst k g (.refl g), Pattern.leaves_of_source hsource] at hleaves
    obtain ⟨below, base, rfl, hbase, hrule', hready', hkids, hleaves', hsettle'⟩ :=
      hleaves.cases_last ((((htook w a.rule _).2 k).computed).trans hnew)
    obtain ⟨-, hlhs'⟩ := hls.sound.rule hrule'
    have hafter : a.after = a.before := by
      have hruns := a.runs
      rw [applyRule, haction] at hruns
      exact (pure_eq_ok.mp hruns).2
    have hw' : w' = a.before := by
      rcases (settle_eq_ok hsettle).2 with rfl | ⟨_, _, hreg, -⟩
      · exact hafter
      · exact absurd (hreg.symm.trans hlhs) (by decide)
    have hcode : a.code = [] := a.code_of_isSilent (by rw [haction]; rfl)
    refine ⟨below, base, fun a ha ↦ by simp [ha], by simp, hbase, ?_, hready', by simp [hcode],
      ⟨(w.took a.rule k a.rule.lhs).took base.rule k .reg, rfl, (htook _ _ _).1.trans (htook _ _ _).1,
        (htook _ _ _).2.trans (htook _ _ _).2, hleaves'⟩,
      ⟨a.before, hlhs' ▸ hsettle', by rw [hw'], hw' ▸ .refl _, hw' ▸ .refl _⟩⟩
    exact hls.register_source hhead hrule'

/-- What is below such a node is computed first. -/
theorem Peaks.runs {below : List Application} {base : Application}
    (h : Peaks g ls k w as w' below base) (hls : ls.Derives g) (hF : F.Addressed)
    (hmeans : ∀ j, g.Beneath k j → g.Means σ s.mem V j ∧ g.Casts j) (hready : Ready g σ F V m n w s)
    (hmatches : base.rule.Matches g k) (hcomputes : ∀ a ∈ below, a.rule.action.computes = true)
    (hextends : base.before.code.frame.Extends F) :
    ∃ s', Core.run c (below.flatMap (·.code)) s = some s' ∧ Spares (w.code.vregs ≤ ·) s s' ∧
      Ready g σ F V m n base.before s' ∧ w.code.vregs ≤ base.before.code.vregs ∧
      List.Forall₂ (Fits g V base.before.code.vregs s') (base.rule.pattern.leaves g k) base.kids := by
  obtain ⟨u, hcode, hskeleton, hvalues, htrail⟩ := h.leaves
  have hrun := htrail.runs (c := c) hls hF hmeans hcomputes
    (fun leaf hleaf ↦ Forest.Beneath.leaf (Or.inl rfl) hmatches hleaf) hmatches.flagged
    (hready.same hcode hskeleton hvalues) hextends
  rwa [hcode] at hrun

/-- Only copies hand anything to phis. -/
theorem Trail.keepsPhis (h : Trail g ls goals w bs w' as) (has : ∀ a ∈ as, a.rule.action ≠ .phiInput) :
    KeepsPhis w w' := by
  induction h with
  | nil => exact .refl _
  | found _ _ _ ih => exact ih has
  | made _ _ _ _ _ _ settles _ ihl ihr =>
    obtain ⟨hbelow, hrest⟩ := List.forall_mem_append.mp has
    obtain ⟨hself, hrest⟩ := List.forall_mem_cons.mp hrest
    exact ((((KeepsPhis.took _ _ _ _).trans (ihl hbelow)).trans (.apply hself)).trans
      (.settle settles)).trans (ihr hrest)

end TreeCover
