import TreeCover.Proofs.Covering.Actions
import TreeCover.Proofs.Lists
import TreeCover.Proofs.Tiling.Slots

/-!
# Leaves that serve

What a leaf has been reduced to serves for its nonterminal: it is of the kind that the nonterminal
promises, and a constant is the one that guards have seen. If all leaves of a matching rule serve, its
action has a way to go, unless it would push a displacement out of range. Main statement:
`Rule.Matches.expands`.
-/

namespace TreeCover

open Ir Machine Work

variable {g f h : Forest} {k c : NodeId} {nt goal : Nonterminal} {r : Rule} {kids : List Bound}
  {b : Bound} {x y z : Word} {o : Opcode} {goals : List Nonterminal} {frame : Frame} {v : VReg}
  {w w' : Workspace}

/-! ## Results -/

/-- The kind of result that a nonterminal promises. -/
def Bound.Suits (b : Bound) : Nonterminal → Prop
  | .reg => b.IsReg
  | .imm => ∃ x, b = .imm x
  | .mem => b.IsReg ∨ ∃ m, b = .mem m
  | .addr => ∃ m, b = .addr m
  | .cond => ∃ p, b = .cond p
  | .label => ∃ l, b = .label l
  | .args => ∃ bs, b = .args bs ∧ ∀ b ∈ bs, b.IsReg
  | .stmt | .dummy => True

namespace Bound

theorem IsReg.operand? (hb : b.IsReg) : ∃ o, b.operand? = some o := by
  obtain ⟨v, rfl⟩ := hb
  exact ⟨_, rfl⟩

/-- What comes as the second operand of an instruction. -/
theorem Suits.operand? (hgoal : goal ∈ [Nonterminal.reg, .mem, .imm]) (hb : b.Suits goal) :
    ∃ o, b.operand? = some o := by
  simp only [List.mem_cons, List.not_mem_nil, or_false] at hgoal
  rcases hgoal with rfl | rfl | rfl
  · exact IsReg.operand? hb
  · rcases hb with hb | ⟨m, rfl⟩
    · exact hb.operand?
    · exact ⟨_, rfl⟩
  · obtain ⟨x, rfl⟩ := hb
    exact ⟨_, rfl⟩

/-- What is found in a node that is computed. -/
theorem Suits.of_reuse {n : Node} (hreuse : n.reuse? nt = some b) : b.Suits nt := by
  unfold Node.reuse? at hreuse
  split at hreuse
  next => exact Option.some.inj hreuse ▸ ⟨_, rfl⟩
  next => exact Option.some.inj hreuse ▸ Or.inl ⟨_, rfl⟩
  next => exact Option.some.inj hreuse ▸ ⟨_, rfl⟩
  next => trivial
  next => exact absurd hreuse (by simp)

end Bound

/-- A result that serves for a nonterminal, of a node of the labeled forest `g`. -/
structure Serves (g : Forest) (k : NodeId) (nt : Nonterminal) (b : Bound) : Prop where
  suits : b.Suits nt
  constant : ∀ x, b = .imm x → g.Fixes k x

theorem Serves.of_variable (hb : b.Suits nt) (hconstant : ∀ x, b ≠ .imm x) : Serves g k nt b :=
  ⟨hb, fun x hx ↦ absurd hx (hconstant x)⟩

/-- What is found in a node that is computed serves. -/
theorem Serves.of_reuse {n : Node} (hreuse : n.reuse? nt = some b) : Serves g k nt b := by
  refine .of_variable (.of_reuse hreuse) ?_
  rintro x rfl
  obtain ⟨_, _, v, _, _⟩ := Node.reuse?_cases hreuse
  unfold Node.reuse? at hreuse
  split at hreuse <;> exact absurd hreuse (by simp)

/-- Leaves that have been reduced to `kids`, which serve. -/
def AllServe (g : Forest) (leaves : List (NodeId × Nonterminal)) (kids : List Bound) : Prop :=
  List.Forall₂ (fun leaf b ↦ Serves g leaf.1 leaf.2 b) leaves kids

/-! ## Nodes -/

/-- Nodes with all that their actions look at. -/
structure Forest.Complete (h : Forest) : Prop where
  slotted : h.Slotted
  alloca : ∀ k, (h.node k).op = .inst .alloca → ∃ i, (h.node k).source = some i
  icmp : ∀ k, (h.node k).op = .inst .icmp → ∃ p, (h.node k).predicate = some p
  move : ∀ k, (h.node k).op = .phiMove →
    ∃ owner succ, (h.node k).phiTarget = some (owner, succ) ∧ (h.node owner).op = .phiDef

/-- A forest in which a tree that was labeled in `g` is being reduced: what was computed is. -/
structure Forest.Later (g h : Forest) : Prop where
  flat : g.Flat
  skeleton : g.SameSkeleton h
  computed : ∀ k, (g.node k).computed = true → (h.node k).computed = true
  complete : h.Complete

namespace Forest.Later

variable (hlater : g.Later h)
include hlater

theorem computed_of_head? (hk : (g.node k).head? = some .inRegister) :
    ∃ v, (h.node k).slot = .vreg v := by
  refine (hlater.complete.slotted k).computed ?_
  rcases head?_inRegister hk with hcomputed | hop
  · exact hlater.computed k hcomputed
  · exact (hlater.complete.slotted k).phi ((hlater.skeleton.op k).trans hop)

/-- A node is reduced to what its slot holds. -/
theorem expands_leaf (hmatches : r.Matches g k) (haction : r.action ∈
      [.immediate, .register, .memory, .label]) :
    ∃ is b, Expands (h.node k) frame kids v r.action is b := by
  have hslotted := hlater.complete.slotted k
  have hop := hlater.skeleton.op k
  simp only [List.mem_cons, List.not_mem_nil, or_false] at haction
  rcases haction with haction | haction | haction | haction <;> rw [haction]
  · obtain ⟨-, hleaf⟩ := Grammar.tile_immediate r hmatches.mem haction
    obtain ⟨-, himm⟩ := head?_imm
      (hmatches.fits.head? (Pattern.leaves_of_isLeaf (k := k) (f := g) hleaf).2)
    obtain ⟨c, -, hslot⟩ := hslotted.literal (hop.trans himm)
    exact ⟨_, _, .immediate hslot⟩
  · obtain ⟨-, hleaf⟩ := Grammar.tile_register r hmatches.mem haction
    obtain ⟨v, hslot⟩ := hlater.computed_of_head?
      (hmatches.fits.head? (Pattern.leaves_of_isLeaf (k := k) (f := g) hleaf).2)
    exact ⟨_, _, .register hslot⟩
  · obtain ⟨-, hleaf⟩ := Grammar.tile_memory r hmatches.mem haction
    obtain ⟨-, idx, harg⟩ := head?_arg
      (hmatches.fits.head? (Pattern.leaves_of_isLeaf (k := k) (f := g) hleaf).2)
    obtain ⟨d, hslot⟩ := hslotted.argument idx (hop.trans harg)
    exact ⟨_, _, .memory hslot⟩
  · obtain ⟨-, hleaf⟩ := Grammar.tile_label r hmatches.mem haction
    obtain ⟨-, hlabel⟩ := head?_label
      (hmatches.fits.head? (Pattern.leaves_of_isLeaf (k := k) (f := g) hleaf).2)
    obtain ⟨l, hslot⟩ := hslotted.label (hop.trans hlabel)
    exact ⟨_, _, .label hslot⟩

end Forest.Later

/-! ## Rules -/

namespace Grammar

theorem tile_fold_guarded : ∀ r ∈ rules, r.action = .fold → ∃ op ∈ foldable,
    r.pattern.inst? = some (.binary op, [.imm, .imm]) ∧ (op = .shl → r.guard = some .secondShift) := by
  decide

end Grammar

section Rule

variable (hmatches : r.Matches g k) (hkids : AllServe g (r.pattern.takeLeaves k g).1 kids)
include hmatches hkids

/-- The children of an instruction give what their nonterminals promise. -/
theorem AllServe.suits (hp : r.pattern.inst? = some (o, goals)) :
    List.Forall₂ (fun goal b ↦ b.Suits goal) goals kids := by
  obtain ⟨hleaves, hlength, -, -⟩ := Pattern.leaves_of_inst hp hmatches.fits (.refl g)
  rw [hleaves] at hkids
  exact (forall₂_of_zip hlength hkids).imp fun _ _ ⟨_, _, hb⟩ ↦ hb.suits

/-- A constant among the children of an instruction is the one that guards have seen. -/
theorem AllServe.fixes (hp : r.pattern.inst? = some (o, goals)) {idx : Nat}
    (hx : kids[idx]? = some (.imm x)) (hc : (g.kidOwners k)[idx]? = some c) : g.Fixes c x := by
  obtain ⟨hleaves, -, -, -⟩ := Pattern.leaves_of_inst hp hmatches.fits (.refl g)
  rw [hleaves] at hkids
  obtain ⟨⟨c', goal⟩, hleaf, hserves⟩ := exists_getElem?_of_forall₂ hkids hx
  obtain ⟨hc', -⟩ := List.getElem?_zip_eq_some.mp hleaf
  obtain rfl := Option.some.inj (hc.symm.trans hc')
  exact hserves.constant x rfl

/-- Constants that meet a guard fold. -/
theorem AllServe.folds (hflat : g.Flat) (haction : r.action = .fold) : ∃ op x y z,
    (g.node k).op = .inst (.binary op) ∧ kids = [.imm x, .imm y] ∧ op.fold? x y = some z := by
  obtain ⟨op, hop, hp, hguard⟩ := Grammar.tile_fold_guarded r hmatches.mem haction
  obtain ⟨-, hlength, -, hinst⟩ := Pattern.leaves_of_inst hp hmatches.fits (.refl g)
  obtain ⟨_, _, ⟨x, rfl⟩, ⟨y, rfl⟩, rfl⟩ := exists_of_forall₂_two (hkids.suits hmatches hp)
  suffices hfolds : ∃ z, op.fold? x y = some z from
    hfolds.elim fun z hz ↦ ⟨op, x, y, z, hinst, rfl, hz⟩
  by_cases hshift : op = .shl
  · have hadmits := hmatches.admits
    rw [Rule.admits, hguard hshift] at hadmits
    obtain ⟨c, hc⟩ : ∃ c, (g.kidOwners k)[1]? = some c :=
      ⟨_, List.getElem?_eq_getElem (by rw [hlength]; exact Nat.one_lt_two)⟩
    have hlt : y.toNat < 64 := of_decide_eq_true
      ((hkids.fixes hmatches hp rfl hc).of_kidConst (p := fun y ↦ y.toNat < 64) hflat hc hadmits)
    exact ⟨_, by rw [hshift, BinaryOp.fold?, if_pos hlt]⟩
  · simp only [foldable, List.mem_cons, List.not_mem_nil, or_false] at hop
    rcases hop with rfl | rfl | rfl | rfl | rfl | rfl | rfl
    all_goals first | exact ⟨_, rfl⟩ | exact absurd rfl hshift

end Rule

/-- A constant that leaves 32 bits when it is added to the displacement of an address. -/
def Overflowing (kids : List Bound) : Prop :=
  ∃ m x, kids[0]?.bind Bound.address? = some m ∧ kids[1]? = some (.imm x) ∧
    fitsSigned 32 (m.disp + x.toInt) = false

/-- **Rules.** If the leaves of a matching rule serve, its action has a way to go, unless it would push
a displacement out of range. -/
theorem Rule.Matches.expands (hmatches : r.Matches g k) (hlater : g.Later h)
    (hkids : AllServe g (r.pattern.takeLeaves k g).1 kids) (frame : Frame) (v : VReg) :
    (∃ is b, Expands (h.node k) frame kids v r.action is b) ∨
      r.action = .addrDisp ∧ Overflowing kids := by
  have hr := hmatches.mem
  have hsuits : ∀ {o goals}, r.pattern.inst? = some (o, goals) →
      List.Forall₂ (fun goal b ↦ b.Suits goal) goals kids := fun hp ↦ hkids.suits hmatches hp
  cases haction : r.action with
  | immediate | register | memory | label =>
    exact Or.inl (haction ▸ hlater.expands_leaf hmatches (by rw [haction]; decide))
  | nothing => exact Or.inl ⟨_, _, .nothing⟩
  | discard => exact Or.inl ⟨_, _, .discard⟩
  | arguments => exact Or.inl ⟨_, _, .arguments⟩
  | loadImm =>
    rw [Pattern.leaves_of_source (Grammar.tile_loadImm r hr haction).2] at hkids
    obtain ⟨_, hb, rfl⟩ := exists_of_forall₂_one hkids
    obtain ⟨x, rfl⟩ := hb.suits
    exact Or.inl ⟨_, _, .loadImm rfl⟩
  | loadMem =>
    rw [Pattern.leaves_of_source (Grammar.tile_loadMem r hr haction).2] at hkids
    obtain ⟨_, hb, rfl⟩ := exists_of_forall₂_one hkids
    rcases hb.suits with ⟨u, rfl⟩ | ⟨m, rfl⟩
    · exact Or.inl ⟨_, _, .loadMemReg rfl⟩
    · exact Or.inl ⟨_, _, .loadMem rfl⟩
  | lea =>
    rw [Pattern.leaves_of_source (Grammar.tile_lea r hr haction).2] at hkids
    obtain ⟨_, hb, rfl⟩ := exists_of_forall₂_one hkids
    obtain ⟨m, rfl⟩ := hb.suits
    exact Or.inl ⟨_, _, .lea (m := m) rfl⟩
  | addrBase =>
    rw [Pattern.leaves_of_source (Grammar.tile_addrBase r hr haction).2] at hkids
    obtain ⟨_, hb, rfl⟩ := exists_of_forall₂_one hkids
    obtain ⟨u, rfl⟩ := hb.suits
    exact Or.inl ⟨_, _, .addrBase (m := .based (.virt u) 0) rfl⟩
  | setCond =>
    rw [Pattern.leaves_of_source (Grammar.tile_setCond r hr haction).2] at hkids
    obtain ⟨_, hb, rfl⟩ := exists_of_forall₂_one hkids
    obtain ⟨p, rfl⟩ := hb.suits
    exact Or.inl ⟨_, _, .setCond rfl⟩
  | fold =>
    obtain ⟨op, x, y, z, hop, rfl, hz⟩ := hkids.folds hmatches hlater.flat haction
    have hopcode : (h.node k).opcode? = some (.binary op) := by
      rw [Node.opcode?, (hlater.skeleton.op k).trans hop]
    exact Or.inl ⟨_, _, .fold hopcode rfl rfl hz⟩
  | frameSlot =>
    obtain ⟨-, -, -, hop⟩ := Pattern.leaves_of_inst (Grammar.tile_frameSlot r hr haction).2
      hmatches.fits (.refl g)
    obtain ⟨i, hi⟩ := hlater.complete.alloca k ((hlater.skeleton.op k).trans hop)
    exact Or.inl ⟨_, _, .frameSlot hi⟩
  | addrDisp =>
    have hp := (Grammar.tile_addrDisp r hr haction).2
    obtain ⟨_, _, ⟨m, rfl⟩, ⟨x, rfl⟩, rfl⟩ := exists_of_forall₂_two (hsuits hp)
    have hfits : fitsImm32 x = true := by
      obtain ⟨-, hlength, -, -⟩ := Pattern.leaves_of_inst hp hmatches.fits (.refl g)
      have hadmits := hmatches.admits
      rw [Rule.admits, Grammar.guard_addrDisp r hr haction] at hadmits
      obtain ⟨c, hc⟩ : ∃ c, (g.kidOwners k)[1]? = some c :=
        ⟨_, List.getElem?_eq_getElem (by rw [hlength]; exact Nat.one_lt_two)⟩
      exact (hkids.fixes hmatches hp rfl hc).of_kidConst hlater.flat hc hadmits
    by_cases hrange : fitsSigned 32 (m.disp + x.toInt) = true
    · exact Or.inl ⟨_, _, .addrDisp (m := m) rfl rfl ⟨hfits, hrange⟩⟩
    · exact Or.inr ⟨rfl, m, x, rfl, rfl, Bool.eq_false_iff.mpr hrange⟩
  | addrIndex =>
    rcases (Grammar.tile_addrIndex r hr haction).2 with hp | ⟨hp, -⟩
    · obtain ⟨_, _, ⟨u, rfl⟩, ⟨u', rfl⟩, rfl⟩ := exists_of_forall₂_two (hsuits hp)
      exact Or.inl ⟨_, _, .addrIndex rfl rfl rfl⟩
    · obtain ⟨a, t, c, d, hleaves, -⟩ := Pattern.leaves_of_isScaledIndex hp hmatches.fits (.refl g)
      rw [hleaves] at hkids
      obtain ⟨_, _, _, ha, hc, hd, rfl⟩ := exists_of_forall₂_three hkids
      obtain ⟨u, rfl⟩ := ha.suits
      obtain ⟨u', rfl⟩ := hc.suits
      obtain ⟨x, rfl⟩ := hd.suits
      exact Or.inl ⟨_, _, .addrScaled rfl rfl rfl⟩
  | memFromAddr =>
    obtain ⟨_, ⟨m, rfl⟩, rfl⟩ := exists_of_forall₂_one
      (hsuits (Grammar.tile_memFromAddr r hr haction).2.1)
    exact Or.inl ⟨_, _, .memFromAddr (m := m) rfl⟩
  | load =>
    obtain ⟨_, ⟨m, rfl⟩, rfl⟩ := exists_of_forall₂_one (hsuits (Grammar.tile_load r hr haction).2)
    exact Or.inl ⟨_, _, .load (m := m) rfl⟩
  | store =>
    rcases (Grammar.tile_store r hr haction).2 with hp | ⟨hp, -⟩
    · obtain ⟨_, _, ⟨u, rfl⟩, ⟨m, rfl⟩, rfl⟩ := exists_of_forall₂_two (hsuits hp)
      exact Or.inl ⟨_, _, .storeReg (m := m) rfl rfl⟩
    · obtain ⟨_, _, ⟨x, rfl⟩, ⟨m, rfl⟩, rfl⟩ := exists_of_forall₂_two (hsuits hp)
      exact Or.inl ⟨_, _, .storeImm (m := m) rfl rfl⟩
  | binary mnemonic =>
    obtain ⟨-, _, -, -, goal, hgoal, hp, -⟩ := Grammar.tile_binary r hr (by rw [haction]; rfl)
    obtain ⟨_, _, ⟨u, rfl⟩, hb, rfl⟩ := exists_of_forall₂_two (hsuits hp)
    obtain ⟨o, ho⟩ := hb.operand? hgoal
    exact Or.inl ⟨_, _, .binary rfl ho⟩
  | mulImm =>
    obtain ⟨_, _, ⟨u, rfl⟩, ⟨x, rfl⟩, rfl⟩ :=
      exists_of_forall₂_two (hsuits (Grammar.tile_mulImm r hr haction).2.1)
    exact Or.inl ⟨_, _, .mulImm rfl rfl⟩
  | divide remainder =>
    obtain ⟨_, _, ⟨u, rfl⟩, ⟨u', rfl⟩, rfl⟩ :=
      exists_of_forall₂_two (hsuits (Grammar.tile_divide r hr remainder haction).2)
    exact Or.inl ⟨_, _, .divide rfl rfl⟩
  | shift mnemonic =>
    obtain ⟨-, _, -, -, hp⟩ := Grammar.tile_shift r hr (by rw [haction]; rfl)
    obtain ⟨_, _, ⟨u, rfl⟩, ⟨x, rfl⟩, rfl⟩ := exists_of_forall₂_two (hsuits hp)
    exact Or.inl ⟨_, _, .shift rfl rfl⟩
  | shiftByReg mnemonic =>
    obtain ⟨-, _, -, -, hp⟩ := Grammar.tile_shiftByReg r hr (by rw [haction]; rfl)
    obtain ⟨_, _, ⟨u, rfl⟩, ⟨u', rfl⟩, rfl⟩ := exists_of_forall₂_two (hsuits hp)
    exact Or.inl ⟨_, _, .shiftByReg rfl rfl⟩
  | compare =>
    obtain ⟨-, goal, hgoal, hp, -⟩ := Grammar.tile_compare r hr haction
    obtain ⟨-, -, -, hop⟩ := Pattern.leaves_of_inst hp hmatches.fits (.refl g)
    obtain ⟨_, _, ⟨u, rfl⟩, hb, rfl⟩ := exists_of_forall₂_two (hsuits hp)
    obtain ⟨o, ho⟩ := hb.operand? hgoal
    obtain ⟨p, hpred⟩ := hlater.complete.icmp k ((hlater.skeleton.op k).trans hop)
    exact Or.inl ⟨_, _, .compare rfl ho hpred⟩
  | signExtend =>
    obtain ⟨_, ⟨u, rfl⟩, rfl⟩ :=
      exists_of_forall₂_one (hsuits (Grammar.tile_signExtend r hr haction).2)
    exact Or.inl ⟨_, _, .extendWhole (Or.inl rfl) rfl⟩
  | zeroExtend =>
    obtain ⟨_, ⟨u, rfl⟩, rfl⟩ :=
      exists_of_forall₂_one (hsuits (Grammar.tile_zeroExtend r hr haction).2)
    exact Or.inl ⟨_, _, .extendWhole (Or.inr rfl) rfl⟩
  | rename =>
    obtain ⟨_, ⟨u, rfl⟩, rfl⟩ := exists_of_forall₂_one (hsuits (Grammar.tile_rename r hr haction).2)
    exact Or.inl ⟨_, _, .rename rfl⟩
  | jump =>
    obtain ⟨_, _, _, ⟨l, rfl⟩, -, -, rfl⟩ :=
      exists_of_forall₂_three (hsuits (Grammar.tile_jump r hr haction).2)
    exact Or.inl ⟨_, _, .jump rfl⟩
  | branchCond =>
    obtain ⟨_, _, _, ⟨p, rfl⟩, ⟨l, rfl⟩, ⟨l', rfl⟩, rfl⟩ :=
      exists_of_forall₂_three (hsuits (Grammar.tile_branchCond r hr haction).2)
    exact Or.inl ⟨_, _, .branchCond rfl rfl rfl⟩
  | branchTest =>
    obtain ⟨_, _, _, ⟨u, rfl⟩, ⟨l, rfl⟩, ⟨l', rfl⟩, rfl⟩ :=
      exists_of_forall₂_three (hsuits (Grammar.tile_branchTest r hr haction).2)
    exact Or.inl ⟨_, _, .branchTest rfl rfl rfl⟩
  | ret =>
    obtain ⟨-, goals, hgoals, hp⟩ := Grammar.tile_ret r hr haction
    have hall := hsuits hp
    simp only [List.mem_cons, List.not_mem_nil, or_false] at hgoals
    rcases hgoals with rfl | rfl | rfl
    · obtain rfl := List.forall₂_nil_left_iff.mp hall
      exact Or.inl ⟨_, _, .retVoid rfl⟩
    · obtain ⟨_, ⟨x, rfl⟩, rfl⟩ := exists_of_forall₂_one hall
      exact Or.inl ⟨_, _, .retImm rfl⟩
    · obtain ⟨_, ⟨u, rfl⟩, rfl⟩ := exists_of_forall₂_one hall
      exact Or.inl ⟨_, _, .ret (o := .vreg u) rfl fun _ ↦ Machine.Operand.noConfusion⟩
  | call =>
    obtain ⟨_, ⟨bs, rfl, hbs⟩, rfl⟩ := exists_of_forall₂_one (hsuits (Grammar.tile_call r hr haction).2)
    obtain ⟨os, hos⟩ := exists_forall₂ fun b hb ↦ (hbs b hb).operand?
    by_cases hwidth : (h.node k).width = 0
    · exact Or.inl ⟨_, _, .callVoid rfl hos hwidth⟩
    · exact Or.inl ⟨_, _, .call rfl hos hwidth⟩
  | phiInput =>
    obtain ⟨-, goal, hgoal, hp⟩ := Grammar.tile_phiInput r hr haction
    obtain ⟨c, hleaves, -⟩ := Pattern.leaves_of_phiGoal hp hmatches.fits (.refl g)
    obtain ⟨_, hb, rfl⟩ := exists_of_forall₂_one (hleaves ▸ hkids)
    obtain ⟨o, ho⟩ := hb.suits.operand? hgoal
    exact Or.inl ⟨_, _, .phiInput ho⟩

/-- The action of a matching rule whose leaves serve succeeds, unless it would push a displacement out
of range, and then it says so. -/
theorem Rule.Matches.applies (hmatches : r.Matches g k) (hlater : g.Later w.forest)
    (hkids : AllServe g (r.pattern.takeLeaves k g).1 kids) :
    Succeeds (applyRule r k kids) w ∨ r.action = .addrDisp ∧ Overflowing kids ∧
      applyRule r k kids w = .error (.binding "addr_disp" .displacementRange) w := by
  rcases hmatches.expands hlater hkids w.code.frame w.code.vregs with
    ⟨is, b, hexpands⟩ | ⟨haction, hover⟩
  · left
    by_cases hphi : r.action = .phiInput
    · obtain ⟨-, goal, -, hp⟩ := Grammar.tile_phiInput r hmatches.mem hphi
      obtain ⟨-, -, -, -, hop⟩ := Pattern.leaves_of_phiGoal hp hmatches.fits (.refl g)
      obtain ⟨owner, succ, htarget, howner⟩ :=
        hlater.complete.move k ((hlater.skeleton.op k).trans hop)
      obtain ⟨v, hslot⟩ := (hlater.complete.slotted owner).computed
        ((hlater.complete.slotted owner).phi howner)
      rw [hphi] at hexpands
      cases hexpands with
      | phiInput ho => exact succeeds_phiInput hphi ho htarget hslot
      | extendWhole h => exact absurd h (by simp)
    · exact hexpands.succeeds rfl hphi
  · obtain ⟨m, x, hm, hx, hrange⟩ := hover
    refine Or.inr ⟨haction, ⟨m, x, hm, hx, hrange⟩, ?_⟩
    rw [applyRule_overflow haction hm hx hrange, Grammar.name_addrDisp r hmatches.mem haction]

/-! ## Results of rules -/

/-- The actions of the rules for a nonterminal whose results are not computed. -/
def Nonterminal.actions : Nonterminal → List Action
  | .imm => [.immediate, .fold]
  | .mem => [.memory, .memFromAddr]
  | .addr => [.addrBase, .frameSlot, .addrDisp, .addrIndex]
  | .cond => [.compare]
  | .label => [.label]
  | .args => [.arguments]
  | .reg | .stmt | .dummy => []

theorem Grammar.action_of_lhs : ∀ r ∈ Grammar.rules, r.lhs ∈ [.reg, .stmt, .dummy] ∨
    r.action ∈ r.lhs.actions := by decide

theorem Nonterminal.phiInput_not_mem_actions (nt : Nonterminal) : .phiInput ∉ nt.actions := by
  cases nt <;> decide

/-- An expansion gives what its nonterminal promises. -/
theorem Expands.suits {n : Node} {action : Action} {is : List Machine.Inst}
    (h : Expands n frame kids v action is b) (haction : action ∈ nt.actions)
    (hkids : action = .arguments → ∀ b ∈ kids, b.IsReg) : b.Suits nt := by
  cases nt <;> simp only [Nonterminal.actions, List.mem_cons, List.not_mem_nil, or_false] at haction
  case imm =>
    rcases haction with rfl | rfl <;> cases h with
    | extendWhole h => exact absurd h (by simp)
    | _ => exact ⟨_, rfl⟩
  case mem =>
    rcases haction with rfl | rfl <;> cases h with
    | extendWhole h => exact absurd h (by simp)
    | _ => exact Or.inr ⟨_, rfl⟩
  case addr =>
    rcases haction with rfl | rfl | rfl | rfl <;> cases h with
    | extendWhole h => exact absurd h (by simp)
    | _ => exact ⟨_, rfl⟩
  case cond =>
    subst haction
    cases h with
    | extendWhole h => exact absurd h (by simp)
    | compare => exact ⟨_, rfl⟩
  case label =>
    subst haction
    cases h with
    | extendWhole h => exact absurd h (by simp)
    | label => exact ⟨_, rfl⟩
  case args =>
    subst haction
    cases h with
    | extendWhole h => exact absurd h (by simp)
    | arguments => exact ⟨_, rfl, hkids rfl⟩

/-- What the action of a matching rule gives is what the rule promises, but for the register of a call
without a result. -/
theorem Rule.Matches.suits_lhs (hmatches : r.Matches g k) (hsame : g.SameSkeleton w.forest)
    (hkids : AllServe g (r.pattern.takeLeaves k g).1 kids)
    (hvoid : r.action = .call → r.lhs = .reg → ¬ g.IsVoidCall k)
    (happly : applyRule r k kids w = .ok b w') : b.Suits r.lhs := by
  have hr := hmatches.mem
  rcases Grammar.action_of_lhs r hr with hlhs | haction
  · simp only [List.mem_cons, List.not_mem_nil, or_false] at hlhs
    rcases hlhs with hlhs | hlhs | hlhs <;> rw [hlhs]
    · rcases inRegister_of_lhs r hr hlhs with hreg | hcall
      · exact returns_applyRule hreg _ _ _ happly
      · obtain ⟨-, -, -, hop⟩ := Pattern.leaves_of_inst (Grammar.tile_call r hr hcall).2
          hmatches.fits (.refl g)
        rcases applyRule_call hcall happly with ⟨hwidth, -⟩ | ⟨-, hb⟩
        · exact absurd ⟨hop, (hsame.width k).symm.trans hwidth⟩ (hvoid hcall hlhs)
        · exact hb
    · trivial
    · trivial
  · have hphi : r.action ≠ .phiInput := fun h ↦ r.lhs.phiInput_not_mem_actions (h ▸ haction)
    obtain ⟨is, hexpands, -⟩ := applyRule_expands happly hphi
    refine hexpands.suits haction fun harguments b hb ↦ ?_
    rw [Pattern.leaves_of_isArguments (Grammar.tile_arguments r hr harguments).2 (.refl g)] at hkids
    obtain ⟨idx, hidx⟩ := List.mem_iff_getElem?.mp hb
    obtain ⟨leaf, hleaf, hserves⟩ := exists_getElem?_of_forall₂ hkids hidx
    obtain ⟨c, -, rfl⟩ := List.mem_map.mp (List.mem_of_getElem? hleaf)
    exact hserves.suits

/-- A matching rule whose leaves serve gives what serves. -/
theorem Rule.Matches.serves (hmatches : r.Matches g k) (hlater : g.Later w.forest)
    (howner : g.owner k = k) (hkids : AllServe g (r.pattern.takeLeaves k g).1 kids)
    (hvoid : r.action = .call → r.lhs = .reg → ¬ g.IsVoidCall k)
    (happly : applyRule r k kids w = .ok b w') : Serves g k r.lhs b := by
  refine ⟨hmatches.suits_lhs hlater.skeleton hkids hvoid happly, ?_⟩
  rintro x rfl
  by_cases hphi : r.action = .phiInput
  · obtain ⟨-, -, -, -, -, -, -, hb, -⟩ := applyRule_phiInput hphi happly
    exact absurd hb Bound.noConfusion
  obtain ⟨is, hexpands, -⟩ := applyRule_expands happly hphi
  rcases hexpands.constant_cases with ⟨haction, hslot⟩ | ⟨haction, op, y, z, hop, hy, hz, hx⟩
  · exact fixes_literal hmatches howner (hlater.skeleton.node k) haction (hlater.complete.slotted k) hslot
  · obtain ⟨-, o, -, hp⟩ := Grammar.tile_fold r hmatches.mem haction
    exact fixes_fold hmatches howner (hlater.skeleton.node k) hlater.flat haction hop
      (fun _ ↦ hkids.fixes hmatches hp hy) (fun _ ↦ hkids.fixes hmatches hp hz) hx

end TreeCover
