import TreeCover.Proofs.Reading.Named
import TreeCover.Proofs.Tiling.Comparisons

/-!
# Values with several readers

The code that computes a value is emitted once at most: to leave the value in a register, and to compare.
All consumers name this register, unless selection left the value to its consumers when it came to it; then
a consumer may take it as a part of its own operands, without code for the value. Main statement:
`selectAll_computesOnce`.
-/

namespace TreeCover

open Ir Machine Work

variable {text : String} {fs : List Func} {f : Func} {s : Session} {next : InstId}
  {os : List (Ir.Operand Value)} {trees : List (List NodeId)} {g : Forest} {w v t : Workspace}
  {k p q r root : NodeId} {id : InstId} {i : ResolvedInst} {b : BlockId} {a a' : Application}
  {V : NodeId → Workspace → Prop} {goals : List (NodeId × Nonterminal)} {as : List Application}
  {goal : Nonterminal} {n : Node} {frame : Frame} {kids : List Bound} {x : VReg} {action : Action}
  {is : List Machine.Inst} {result : Bound}

/-! ## Actions without code -/

/-- Actions that combine the results of the leaves and emit nothing. -/
def Action.isSilent : Action → Bool
  | .immediate | .register | .memory | .label | .nothing | .addrBase | .discard | .fold | .frameSlot
  | .addrDisp | .addrIndex | .memFromAddr | .rename | .arguments | .phiInput => true
  | _ => false

theorem Expands.of_isSilent (h : Expands n frame kids x action is result)
    (hsilent : action.isSilent = true) : is = [] := by
  cases h with
  | extendWhole => rfl
  | _ => first | rfl | exact absurd hsilent Bool.false_ne_true

/-- One instruction at most leaves a load in a register. -/
theorem Expands.length_le_one (h : Expands n frame kids x action is result)
    (haction : action ∈ [.load, .loadMem, .loadImm, .lea]) : is.length ≤ 1 := by
  cases h with
  | extendWhole => exact Nat.zero_le 1
  | load | loadMem | loadMemReg | loadImm | lea | leaBase => simp
  | _ => exact absurd haction (by simp)

/-- The code of an application is that of its action, or it has none. -/
theorem Application.code_cases (hphi : a.rule.action ≠ .phiInput) : ∃ is,
    Expands (a.before.forest.node a.node) a.before.code.frame a.kids a.before.code.vregs
      a.rule.action is a.result ∧ (a.code = is ∨ a.code = []) := by
  obtain ⟨is, hexpands, hemits, -⟩ := applyRule_expands a.runs hphi
  refine ⟨is, hexpands, ?_⟩
  by_cases hcurrent : a.before.code.current < a.before.code.blocks.length
  · exact Or.inl (code_of_instsAt (hemits.instsAt hcurrent))
  · have hbeyond : a.after.code.blocks.length ≤ a.before.code.current := by
      rw [hemits.blocks, List.length_modify]
      exact Nat.le_of_not_lt hcurrent
    refine Or.inr (List.drop_eq_nil_of_le ?_)
    rw [block, instsAt, List.getElem?_eq_none hbeyond]
    exact Nat.zero_le _

namespace Application

theorem code_of_isSilent (h : a.rule.action.isSilent = true) : a.code = [] := by
  by_cases hphi : a.rule.action = .phiInput
  · exact a.code_phiInput hphi
  · obtain ⟨is, hexpands, hcode⟩ := a.code_cases hphi
    obtain rfl := hexpands.of_isSilent h
    exact hcode.elim id id

theorem length_code_le (h : a.rule.action ∈ [.load, .loadMem, .loadImm, .lea]) : a.code.length ≤ 1 := by
  have hphi : a.rule.action ≠ .phiInput := fun hphi ↦ absurd h (by simp [hphi])
  obtain ⟨is, hexpands, rfl | hcode⟩ := a.code_cases hphi
  · exact hexpands.length_le_one h
  · exact hcode ▸ Nat.zero_le 1

end Application

namespace Grammar

theorem isSilent_of_lhs : ∀ r ∈ rules, r.lhs ≠ .reg → r.lhs ≠ .cond → r.lhs ≠ .stmt →
    r.action.isSilent = true := by decide

theorem heads_of_stmt : ∀ r ∈ rules, r.lhs = .stmt →
    r.action.isSilent = true ∨ ∃ o ∈ [.store, .br, .ret, .call], r.pattern.head? = some (.inst o) := by
  decide

theorem action_of_load : ∀ r ∈ rules, r.lhs = .reg → r.pattern.head? = some (.inst .load) →
    r.action = .load := by decide

theorem action_of_chain : ∀ r ∈ rules, r.lhs = .reg → r.pattern.source?.isSome = true →
    r.pattern.source? = some .cond ∨ r.action ∈ [.load, .loadMem, .loadImm, .lea] := by decide

end Grammar

/-! ## Values that are read twice -/

/-- A node whose value is read at two or more positions: a phi, an alloca, or another value that is
wanted. -/
structure Forest.Shared (g : Forest) (k : NodeId) : Prop where
  value : g.HasValue k
  kind : (g.node k).op = .phiDef ∨ (g.node k).op = .inst .alloca ∨ g.Wanted k
  twice : 2 ≤ g.positions k

/-- Code for a value is that of a rule for a register or of a comparison. -/
theorem Application.Follows.of_code (h : a.Follows w t v r) (hk : w.forest.Shared a.node)
    (hstmt : a.rule.lhs = .stmt → ¬ w.forest.Wanted a.node) (hcode : a.code ≠ []) :
    a.rule.lhs = .reg ∧ (w.forest.node a.node).op ≠ .phiDef ∨
      a.rule.lhs = .cond ∧ (w.forest.node a.node).op = .inst .icmp := by
  obtain ⟨g, ls, hskeleton, -, hls, hrule⟩ := h.labels
  have hmatches := (hls.sound.rule hrule).1
  have hloud : ¬ a.rule.action.isSilent = true := fun hsilent ↦ hcode (a.code_of_isSilent hsilent)
  have hinst : ∀ {o}, a.rule.pattern.head? = some (.inst o) → (w.forest.node a.node).op = .inst o :=
    fun hp ↦ (hskeleton.op a.node).symm.trans (head?_inst (hmatches.fits.head? hp)).2
  cases hlhs : a.rule.lhs with
  | reg =>
    refine Or.inl ⟨rfl, fun hphi ↦ hloud ?_⟩
    rw [hlhs] at hrule
    rw [hls.action_of_phi ((hskeleton.op a.node).trans hphi) hrule]
    rfl
  | cond => exact Or.inr ⟨rfl, hinst (Grammar.heads_of_cond a.rule hmatches.mem hlhs)⟩
  | stmt =>
    -- the rules for statements with code are not for values
    obtain ⟨o, ho, hp⟩ := (Grammar.heads_of_stmt a.rule hmatches.mem hlhs).resolve_left hloud
    rcases hk.kind with hop | hop | hwanted
    · exact absurd (hop.symm.trans (hinst hp)) NodeOp.noConfusion
    · obtain rfl := NodeOp.inst.inj (hop.symm.trans (hinst hp))
      exact absurd ho (by decide)
    · exact absurd hwanted (hstmt hlhs)
  | _ => exact absurd (Grammar.isSilent_of_lhs a.rule hmatches.mem (by simp [hlhs]) (by simp [hlhs])
      (by simp [hlhs])) hloud

/-- A load is one instruction at most. -/
theorem Application.Follows.length_code_le (h : a.Follows w t v r)
    (hop : (w.forest.node a.node).op = .inst .load) (hlhs : a.rule.lhs = .reg) : a.code.length ≤ 1 := by
  obtain ⟨g, ls, hskeleton, -, hls, hrule⟩ := h.labels
  have hmatches := (hls.sound.rule hrule).1
  rw [← hskeleton.op] at hop
  cases hsource : a.rule.pattern.source? with
  | some goal =>
    refine a.length_code_le ((Grammar.action_of_chain a.rule hmatches.mem hlhs
      (by simp [hsource])).resolve_left fun hcond ↦ ?_)
    -- only comparisons are conditions
    obtain ⟨rule, hrule'⟩ := hls.source hrule hcond
    obtain ⟨hmatches', hlhs'⟩ := hls.sound.rule hrule'
    have hicmp := (head?_inst (hmatches'.fits.head? (Grammar.heads_of_cond rule hmatches'.mem hlhs'))).2
    exact absurd (hop.symm.trans hicmp) (by simp)
  | none =>
    obtain ⟨head, hp⟩ := Pattern.head?_of_source hsource
    have hhead := hmatches.fits.head? hp
    have hvalue : g.HasValue a.node := Or.inr ⟨⟨_, hop⟩, fun ⟨hcall, _⟩ ↦ by simp [hop] at hcall⟩
    rcases hvalue.head_cases hhead with rfl | ⟨o, rfl⟩
    · rw [a.code_of_isSilent (by rw [Grammar.action_of_inRegister a.rule hmatches.mem hp]; rfl)]
      exact Nat.zero_le 1
    · obtain rfl := NodeOp.inst.inj ((head?_inst hhead).2.symm.trans hop)
      exact a.length_code_le (by simp [Grammar.action_of_load a.rule hmatches.mem hlhs hp])

/-! ## Consumers -/

/-- An application that is made in the visit of a root is made under it. -/
theorem Work.Comes.under (hbuild : buildForest f (.start f s) = .ok trees w)
    (hcomes : Comes trees w root t) (hmakes : VisitMakes root t a) :
    w.forest.Under root a.node := by
  obtain ⟨goal, u, hstarts, m, id, nt, u', hcalls, hends⟩ := hmakes
  obtain ⟨hp, -⟩ := buildForest_planted hbuild
  obtain ⟨-, -, hreduces, -⟩ :=
    Visited.calls hp (.start hp (buildForest_recorded hbuild)) hcomes hstarts hcalls
  rw [hends.node, hreduces.skeleton.owner]
  exact hreduces.mem

namespace Planted

/-- An instruction other than a call comes before the root above its readers. -/
theorem lt_of_under (hp : Planted f trees w) (hrec : w.Recorded next os trees.flatten) {o : Opcode}
    (hunder : w.forest.Under root p) (hkid : k ∈ w.forest.kidOwners p)
    (hop : (w.forest.node k).op = .inst o) (hcall : o ≠ .call) : k < root := by
  have howner : w.forest.owner k = k := by
    obtain ⟨c, -, rfl⟩ := List.mem_map.mp hkid
    exact hp.building.flat.owner_owner c
  have hlt : k < p := hp.lt_of_root hrec (hp.mem_flatten hop) (howner.symm ▸ hkid)
  rcases hunder.below with hle | ⟨rfl, hargs⟩ | hnil
  · exact Nat.lt_of_lt_of_le hlt hle
  · -- the root is the call that has these arguments
    obtain ⟨r, hr, heq, -⟩ :=
      hp.exists_call hrec (Forest.lt_size_of_op hargs NodeOp.noConfusion) hargs
    obtain rfl := Nat.succ.inj heq
    refine Nat.lt_of_le_of_ne (Nat.le_of_lt_succ hlt) ?_
    rintro rfl
    exact hcall (NodeOp.inst.inj (hop.symm.trans hr))
  · rw [Forest.kidOwners, hnil] at hkid
    exact absurd hkid List.not_mem_nil

/-- A leaf of a rule is the node of the rule, or a child of a node of the tree. -/
theorem leaf_cases (hp : Planted f trees w) (hunder : w.forest.Under root p) {pattern : Pattern}
    (hleaf : (k, goal) ∈ pattern.leaves w.forest p) :
    k = p ∨ ∃ q, w.forest.Under root q ∧ k ∈ w.forest.kidOwners q := by
  have hclosed : w.forest.ClosedUnderKids fun k ↦ w.forest.Under root k ∧
      (k = p ∨ ∃ q, w.forest.Under root q ∧ k ∈ w.forest.kidOwners q) :=
    fun q hq c hc ↦ ⟨hp.closed_under root q hq.1 c hc, Or.inr ⟨q, hq.1, hc⟩⟩
  rw [← pattern.takeLeaves_fst p w.forest (.refl _)] at hleaf
  exact (pattern.takeLeaves_mem hclosed p w.forest (.refl _) ⟨hunder, Or.inl rfl⟩ _ hleaf).2

end Planted

theorem Node.Inlines.op (h : n.Inlines goal) : ∃ o, n.op = .inst o ∧ o ≠ .call := by
  cases goal with
  | mem => exact ⟨_, h.1, Opcode.noConfusion⟩
  | addr => exact h.elim (fun hop ↦ ⟨_, hop, Opcode.noConfusion⟩) fun hop ↦ ⟨_, hop, Opcode.noConfusion⟩
  | imm =>
    obtain ⟨o, -, hop⟩ := h
    exact ⟨_, hop, Opcode.noConfusion⟩
  | cond => exact ⟨_, h, Opcode.noConfusion⟩
  | _ => exact h.elim

/-- A value that a consumer takes before it is in a register was left to its consumers, unless it is the
address of an alloca. -/
theorem Forest.Shared.postponed (hk : w.forest.Shared k)
    (hbuild : buildForest f (.start f s) = .ok trees w) (hcomes : Comes trees w root t)
    (hunder : w.forest.Under root p) (hkid : k ∈ w.forest.kidOwners p) {o : Opcode}
    (hop : (w.forest.node k).op = .inst o) (hcall : o ≠ .call)
    (hnew : (t.forest.node k).computed = false) : Postpones trees w k ∨ o = .alloca := by
  rcases hk.kind with hphi | halloca | hwanted
  · exact absurd (hphi.symm.trans hop) NodeOp.noConfusion
  · exact Or.inr (NodeOp.inst.inj (hop.symm.trans halloca))
  · exact Or.inl (postpones_of_lt hbuild hcomes hwanted
      ((buildForest_planted hbuild).1.lt_of_under (buildForest_recorded hbuild) hunder hkid hop hcall) hnew)

/-! ## Values that are computed once -/

/-- A rule that takes the children of its node: no chain rule, and not that for what is in a register. -/
def Rule.TakesKids (r : Rule) : Prop := r.pattern.source? = none ∧ r.action ≠ .register

/-- What a selection of `trees` from `w` does about the value of the node `k`. -/
structure ComputesOnce (trees : List (List NodeId)) (w : Workspace) (k : NodeId) : Prop where
  /-- Code for the value leaves it in a register, or is a comparison. -/
  code : ∀ a, Applies trees w a → a.node = k → a.code ≠ [] →
    a.rule.lhs = .reg ∨ a.rule.lhs = .cond ∧ (w.forest.node k).op = .inst .icmp
  /-- Each of these is emitted once at most. -/
  once : ∀ a a', Applies trees w a → Applies trees w a' → a.node = k → a'.node = k →
    a.code ≠ [] → a.rule.lhs = a'.rule.lhs → a = a'
  /-- A load is one instruction at most. -/
  load : (w.forest.node k).op = .inst .load → ∀ a, Applies trees w a → a.node = k → a.code.length ≤ 1
  /-- Consumers are given the value, unless it is a shift that was left to its consumers and is taken as
  the scale of an address, … -/
  given : ∀ a, Applies trees w a → a.rule.TakesKids → k ∈ w.forest.kidOwners a.node →
    (∃ goal, (k, goal) ∈ a.rule.pattern.leaves w.forest a.node) ∨
      a.rule.pattern.isScaledIndex = true ∧ (w.forest.node k).op = .inst (.binary .shl) ∧
        Postpones trees w k
  /-- … in one and the same register, unless it is an alloca or was left to its consumers: then a load of
  64 bits may be given by its place in memory, an alloca or addition as an address and arithmetic on
  constants as a constant. -/
  bound : ∃ x, (∀ a, Applies trees w a → a.node = k → a.rule.lhs = .reg → a.result.Names x) ∧
    ∀ a, Applies trees w a → a.node ≠ k → ∀ goal b,
      ((k, goal), b) ∈ (a.rule.pattern.leaves w.forest a.node).zip a.kids → b.Names x ∨
        (w.forest.node k).Inlines goal ∧ goal ≠ .cond ∧
          (Postpones trees w k ∨ (w.forest.node k).op = .inst .alloca)

namespace Chronicle

variable (hbuild : buildForest f (.start f s) = .ok trees w) (hwell : f.WellFormed)
  (h : Chronicle w (Comes trees w) v goals as) (hk : w.forest.Shared k)
include h

theorem exists_follows (ha : Applies trees w a) :
    a ∈ as ∧ ∃ r t, Comes trees w r t ∧ VisitMakes r t a ∧ a.Follows w t v r := by
  obtain ⟨r, t, hcomes, hmakes⟩ := applies_iff.mp ha
  exact ⟨(h.mem a).mp ⟨r, t, hcomes, hmakes⟩, r, t, hcomes, hmakes, h.follows r t a hcomes hmakes⟩

/-- A value that is wanted is not reduced as a statement. -/
theorem not_wanted_of_stmt (ha : Applies trees w a) (hlhs : a.rule.lhs = .stmt) :
    ¬ w.forest.Wanted a.node := by
  have hrules : ∀ a ∈ as, a.rule ∈ Grammar.rules := by
    intro a ha
    obtain ⟨r, t, hcomes, hmakes⟩ := (h.mem a).mpr ha
    obtain ⟨g, ls, -, -, hls, hrule⟩ := (h.follows r t a hcomes hmakes).labels
    exact (hls.sound.rule hrule).1.mem
  have hgoal := h.goals _ (h.history.mem_goals_of_stmt hrules (h.exists_follows ha).1 hlhs)
  exact (hgoal.resolve_left Nonterminal.noConfusion).2

include hk

theorem of_code (ha : Applies trees w a) (hnode : a.node = k) (hcode : a.code ≠ []) :
    a.rule.lhs = .reg ∧ (w.forest.node k).op ≠ .phiDef ∨
      a.rule.lhs = .cond ∧ (w.forest.node k).op = .inst .icmp := by
  obtain ⟨-, r, t, -, -, hfollows⟩ := h.exists_follows ha
  subst hnode
  exact hfollows.of_code hk (h.not_wanted_of_stmt ha) hcode

/-- What leaves the value in a register leaves it in the register that the node has in the end. -/
theorem names (ha : Applies trees w a) (hnode : a.node = k) (hlhs : a.rule.lhs = .reg) :
    ∃ x, (v.forest.node k).slot = .vreg x ∧ a.result.Names x := by
  have htaken := h.history.results a (h.exists_follows ha).1 (by simp [hlhs])
  rw [hnode, hlhs] at htaken
  obtain ⟨x, -, hslot, hx⟩ := (htaken hk.value).resolve_right fun hinlines ↦ hinlines.2
  exact ⟨x, hslot, hx⟩

include hbuild hwell

theorem once (ha : Applies trees w a) (ha' : Applies trees w a') (hnode : a.node = k)
    (hnode' : a'.node = k) (hcode : a.code ≠ []) (hlhs : a.rule.lhs = a'.rule.lhs) : a = a' := by
  have hmem := (h.exists_follows ha).1
  have hmem' := (h.exists_follows ha').1
  have hreg : (w.forest.node k).op ≠ .phiDef → timesMade as k .reg ≤ 1 := by
    intro hphi
    have hcount := h.history.registers k hk.value hphi
    have hle := Bool.toNat_le (v.forest.node k).computed
    omega
  rcases h.of_code hk ha hnode hcode with ⟨hlhs₁, hphi⟩ | ⟨hlhs₁, hicmp⟩
  · exact eq_of_timesMade (hreg hphi) hmem hmem' hnode hlhs₁ hnode' (hlhs.symm.trans hlhs₁)
  · refine eq_of_timesMade (Nat.le_trans (timesMade_cond_le hbuild hwell hicmp hk.twice h) (hreg ?_))
      hmem hmem' hnode hlhs₁ hnode' (hlhs.symm.trans hlhs₁)
    simp [hicmp]

omit hwell in
theorem given (ha : Applies trees w a) (htakes : a.rule.TakesKids)
    (hkid : k ∈ w.forest.kidOwners a.node) :
    (∃ goal, (k, goal) ∈ a.rule.pattern.leaves w.forest a.node) ∨
      a.rule.pattern.isScaledIndex = true ∧ (w.forest.node k).op = .inst (.binary .shl) ∧
        Postpones trees w k := by
  obtain ⟨-, r, t, hcomes, hmakes, hfollows⟩ := h.exists_follows ha
  obtain ⟨g, ls, hskeleton, hvalues, hls, hrule⟩ := hfollows.labels
  rw [← Pattern.leaves_of_sameSkeleton _ _ hskeleton]
  refine ((hls.sound.rule hrule).1.kid_cases htakes.1 htakes.2
    ((hskeleton.kidOwners a.node).symm ▸ hkid)).imp_right fun ⟨hscaled, hnew, hop⟩ ↦ ?_
  rw [hskeleton.op] at hop
  refine ⟨hscaled, hop, (hk.postponed hbuild hcomes (hcomes.under hbuild hmakes) hkid hop
    Opcode.noConfusion ?_).resolve_right Opcode.noConfusion⟩
  exact (hvalues k).computed.symm.trans hnew

theorem bound (ha : Applies trees w a) (hne : a.node ≠ k) {b : Bound}
    (hb : ((k, goal), b) ∈ (a.rule.pattern.leaves w.forest a.node).zip a.kids) :
    (∃ x, (v.forest.node k).slot = .vreg x ∧ b.Names x) ∨
      (w.forest.node k).Inlines goal ∧ goal ≠ .cond ∧
        (Postpones trees w k ∨ (w.forest.node k).op = .inst .alloca) := by
  obtain ⟨-, r, t, hcomes, hmakes, hfollows⟩ := h.exists_follows ha
  obtain ⟨hp, -⟩ := buildForest_planted hbuild
  obtain ⟨_, _, -, hvisited⟩ := (Visited.kept hp).comes (.start hp (buildForest_recorded hbuild)) hcomes
  have hskeleton := hvisited.skeleton
  have hleaf := (List.of_mem_zip hb).1
  refine ((List.forall₂_iff_zip.mp hfollows.takes).2 hb (hskeleton.hasValue_iff.mpr hk.value)).imp
    (fun ⟨x, _, hslot, hx⟩ ↦ ⟨x, hslot, hx⟩) fun ⟨hnew, hinlines⟩ ↦ ?_
  rw [hskeleton.inlines_iff] at hinlines
  refine ⟨hinlines, ?_, ?_⟩
  · rintro rfl
    exact not_asked_cond hbuild hwell hinlines hk.twice hcomes hfollows hne hleaf
  · have hunder := hcomes.under hbuild hmakes
    obtain ⟨o, hop, hcall⟩ := hinlines.op
    obtain ⟨q, hq, hkid⟩ := (hp.leaf_cases hunder hleaf).resolve_left (Ne.symm hne)
    rw [hop]
    exact (hk.postponed hbuild hcomes hq hkid hop hcall hnew).imp_right (congrArg _)

/-- **Values that are read twice.** -/
theorem computesOnce : ComputesOnce trees w k where
  code a ha hnode hcode := (h.of_code hk ha hnode hcode).imp_left And.left
  once a a' ha ha' hnode hnode' hcode hlhs := h.once hbuild hwell hk ha ha' hnode hnode' hcode hlhs
  load hop a ha hnode := by
    by_cases hcode : a.code = []
    · exact hcode ▸ Nat.zero_le 1
    · rcases h.of_code hk ha hnode hcode with ⟨hlhs, -⟩ | ⟨-, hicmp⟩
      · obtain ⟨-, r, t, -, -, hfollows⟩ := h.exists_follows ha
        exact hfollows.length_code_le (hnode ▸ hop) hlhs
      · exact absurd (hop.symm.trans hicmp) (by simp)
  given a ha htakes hkid := h.given hbuild hk ha htakes hkid
  bound := by
    obtain ⟨x, hslot⟩ : ∃ x, ∀ y, (v.forest.node k).slot = .vreg y → y = x := by
      cases hslot : (v.forest.node k).slot with
      | vreg x => exact ⟨x, fun y hy ↦ (Slot.vreg.inj hy).symm⟩
      | _ => exact ⟨0, fun y hy ↦ nomatch hy⟩
    refine ⟨x, fun a ha hnode hlhs ↦ ?_, fun a ha hne goal b hb ↦ ?_⟩
    · obtain ⟨y, hy, hnames⟩ := h.names hk ha hnode hlhs
      exact hslot y hy ▸ hnames
    · exact (h.bound hbuild hwell hk ha hne hb).imp_left fun ⟨y, hy, hnames⟩ ↦ hslot y hy ▸ hnames

end Chronicle

/-! ## Results of instructions -/

/-- What is read is the result of an instruction with a name. -/
theorem Ir.Func.ReadIn.defines (hwell : f.WellFormed) (h : f.ReadIn id b) :
    ∃ i ∈ f.insts, f.inst? id = some i ∧ i.name.isSome = true := by
  obtain ⟨c, reader, i, hi, hread⟩ := h
  have hplace : .operand (.value (.inst id)) ∈ i.operation.places := by
    generalize i.operation = operation at hread ⊢
    cases operation with
    | phi incoming => exact List.mem_flatMap.mpr ⟨_, hread, List.mem_cons_self⟩
    | _ =>
      obtain ⟨o, ho, heq⟩ := List.mem_map.mp hread
      obtain ⟨place, hplace, hoperand⟩ := List.mem_filterMap.mp ho
      obtain rfl := (Prod.mk.inj heq).1
      cases place with
      | operand o => exact Option.some.inj hoperand ▸ hplace
      | block c => exact absurd hoperand (by simp [Place.operand?])
  obtain ⟨j, hj, hname⟩ := hwell.values i (Func.mem_insts_of_mem hi).2 _ hplace
  exact ⟨j, List.mem_of_getElem? hj, hj, hname⟩

/-- The node that has the value of an instruction that is read twice. -/
theorem Forest.Shared.of_reads (hp : Planted f trees w)
    (hrec : w.Recorded next ((List.range f.blocks.length).flatMap f.blockOperands) trees.flatten)
    (hwell : f.WellFormed)
    (hnames : ∀ i ∈ f.insts, i.name.isSome = true → i.opcode.isDefinition = true)
    (hi : f.inst? id = some i) (hresult : i.opcode = .call → i.ty.bits ≠ 0) (htwo : 2 ≤ f.reads id)
    (hj : w.defs.values.lookup (.inst id) = some k) : w.forest.Shared (w.forest.owner k) := by
  have htwice : 2 ≤ w.forest.positions (w.forest.owner k) := by
    rw [← hrec.ledger.held, ← hrec.ledger.conserved]
    exact Nat.le_trans htwo (Nat.le_of_eq (hrec.named id k hj).symm)
  cases ht : (w.forest.node k).target with
  | some t =>
    obtain ⟨_, _, _, -, _, _, _, hphi⟩ := hp.of_alias ht
    rw [hp.building.flat.owner_alias ht] at htwice ⊢
    exact ⟨Or.inl hphi.op, Or.inl hphi.op, htwice⟩
  | none =>
    rw [Forest.owner_of_target ht] at htwice ⊢
    have hread : 0 < w.forest.positions k := Nat.lt_of_lt_of_le Nat.zero_lt_two htwice
    have hk := hp.building.results hj
    obtain ⟨o, hop⟩ := hk.2.1
    by_cases hphi : o = .phi
    · subst hphi
      have hvalue : w.forest.HasValue k := Or.inr ⟨⟨_, hop⟩, fun ⟨hcall, _⟩ ↦ by simp [hop] at hcall⟩
      exact ⟨hvalue, Or.inr (Or.inr ⟨hvalue, ⟨_, hop, rfl, Opcode.noConfusion⟩, ht, hread⟩), htwice⟩
    · obtain ⟨b, id', i', kids, hi', hopcode, his⟩ := hp.of_inst hop hphi
      obtain rfl : id' = id := Option.some.inj (his.source.symm.trans hk.2.2)
      obtain rfl : i' = i := Option.some.inj ((Func.mem_insts_of_mem hi').1.symm.trans hi)
      subst hopcode
      have hvalue : w.forest.HasValue k := by
        refine Or.inr ⟨⟨_, hop⟩, fun ⟨hcall, hwidth⟩ ↦ ?_⟩
        have hcall' : i'.opcode = .call := NodeOp.inst.inj (hop.symm.trans hcall)
        rw [Node.width_of_core his.2, Node.ofInst, hcall'] at hwidth
        exact hresult hcall' hwidth
      -- it has a name, since somebody reads it
      obtain ⟨p, -, -, hkid⟩ := Forest.exists_holder (hrec.ledger.held k ▸ hread)
      obtain ⟨_, _, -, -, -, -, hreadin⟩ := hp.reader hrec hk (by simpa [hop] using hphi) hkid
      obtain ⟨j, hjmem, hj', hname⟩ := hreadin.defines hwell
      obtain rfl : j = i' := Option.some.inj (hj'.symm.trans hi)
      refine ⟨hvalue, ?_, htwice⟩
      by_cases halloca : j.opcode = .alloca
      · exact Or.inr (Or.inl (hop.trans (congrArg _ halloca)))
      · exact Or.inr (Or.inr ⟨hvalue, ⟨_, hop, hnames j hjmem hname, halloca⟩, ht, hread⟩)

/-- **Sharing.** A value that is read twice is computed once, whatever the threshold. -/
theorem selectAll_computesOnce (hparse : parse text = .ok fs) (hf : f ∈ fs)
    (hbuild : buildForest f (.start f s) = .ok trees w) (hselect : selectAll trees w = .ok () v)
    (hi : f.inst? id = some i) (hresult : i.opcode = .call → i.ty.bits ≠ 0) (htwo : 2 ≤ f.reads id) :
    ∃ k, w.defs.values.lookup (.inst id) = some k ∧ ComputesOnce trees w (w.forest.owner k) := by
  have hwell : f.WellFormed := parse_reads hparse (fun _ ↦ readLines_wellFormed nofun) f hf
  have hrec := buildForest_recorded hbuild
  cases hk : w.defs.values.lookup (.inst id) with
  | none =>
    have hnone : f.reads id = 0 := hrec.unnamed id hk
    omega
  | some k =>
    obtain ⟨goals, as, hchronicle⟩ := selectAll_chronicle hbuild hselect
    exact ⟨k, rfl, hchronicle.computesOnce hbuild hwell <|
      .of_reads (buildForest_planted hbuild).1 hrec hwell (isDefinition_of_named hparse f hf) hi hresult
        htwo hk⟩

/-! ## A load that is read twice -/

/-- A function that reads the value of a load twice. The height of the load times its two readers is
within the threshold. -/
def rereadingText : String :=
  "define i64 @f(ptr %p) \x7b\n" ++
  "  %x = load i64, ptr %p\n" ++
  "  %y = sub i64 7, %x\n" ++
  "  %z = mul i64 %y, %x\n" ++
  "  ret i64 %z\n" ++
  "\x7d\n"

def rereading : Func where
  name := "f"
  ret := .int 64
  params := [⟨"p", .ptr⟩]
  blocks := [⟨"entry", [⟨some "x", .int 64, .load (.value (.arg 0))⟩,
    ⟨some "y", .int 64, .binary .sub (.int 7 64) (.value (.inst 0))⟩,
    ⟨some "z", .int 64, .binary .mul (.value (.inst 1)) (.value (.inst 0))⟩,
    ⟨none, .int 64, .ret (some (.value (.inst 2)))⟩]⟩]

theorem parse_rereading : parse rereadingText = .ok [rereading] := by
  rw [parse_eq_parseChars]
  unfold rereadingText
  simp only [String.toList_append, String.reduceToList]
  decide +kernel

/-- An instruction that reads memory through a register other than the frame pointer. -/
def readsThrough (i : Machine.Inst) : Bool :=
  i.operands.any fun
    | .mem ⟨.virt _, _, _⟩ => true
    | _ => false

/-- The instructions of the entry that read memory through a register. -/
def readersThrough (blocks : List Machine.Block) : List String :=
  ((instsAt blocks 0).filter readsThrough).map (·.mnemonic)

theorem rereading_selected : ∃ trees w v, buildForest rereading (.start rereading {}) = .ok trees w ∧
    selectAll trees w = .ok () v ∧ readersThrough v.code.blocks = ["subq", "imulq"] := by
  have hcheck : succeeds (fun _ v ↦ decide (readersThrough v.code.blocks = ["subq", "imulq"]))
      ((buildForest rereading >>= selectAll) (.start rereading {})) = true := by decide +kernel
  obtain ⟨_, v, hx, hreaders⟩ := exists_of_succeeds hcheck
  obtain ⟨trees, w, hbuild, hselect⟩ := bind_eq_ok.mp hx
  exact ⟨trees, w, v, hbuild, hselect, of_decide_eq_true hreaders⟩

/-- Both readers of the one load read its memory, and none has its value in a register. -/
theorem rereading_rereads : parse rereadingText = .ok [rereading] ∧
    (rereading.insts.map (·.opcode)).count .load = 1 ∧ rereading.reads 0 = 2 ∧
    ∃ trees w v, buildForest rereading (.start rereading {}) = .ok trees w ∧
      selectAll trees w = .ok () v ∧ readersThrough v.code.blocks = ["subq", "imulq"] :=
  ⟨parse_rereading, by decide, by decide, rereading_selected⟩

theorem rereading_computesOnce : parse rereadingText = .ok [rereading] ∧ rereading.reads 0 = 2 ∧
    ∃ trees w v k, buildForest rereading (.start rereading {}) = .ok trees w ∧
      selectAll trees w = .ok () v ∧ w.defs.values.lookup (.inst 0) = some k ∧
        ComputesOnce trees w (w.forest.owner k) := by
  obtain ⟨trees, w, v, hbuild, hselect, -⟩ := rereading_selected
  have htwo : rereading.reads 0 = 2 := by decide
  have hload : rereading.inst? 0 = some ⟨some "x", .int 64, .load (.value (.arg 0))⟩ := rfl
  obtain ⟨k, hk, honce⟩ := selectAll_computesOnce parse_rereading (List.mem_singleton_self _) hbuild
    hselect hload nofun (Nat.le_of_eq htwo.symm)
  exact ⟨parse_rereading, htwo, trees, w, v, k, hbuild, hselect, hk, honce⟩

end TreeCover
