import TreeCover.Proofs.Machine.Operations
import TreeCover.Proofs.Tiling.Reduction

/-!
# Tiles

Most rules match one instruction whose children are leaves. What a rule of the grammar matches is
determined by its action up to a choice of nonterminals, and the tables below say so. They are checked
against the list of rules, and everything else that depends on the shapes of rules reads them here.
-/

namespace TreeCover

open Ir Machine

/-! ## Shapes -/

/-- The opcode and the nonterminals of the children, of a pattern that matches one instruction. -/
def Pattern.inst? : Pattern → Option (Opcode × List Nonterminal)
  | .op (.inst o) kids => (kids.mapM Pattern.source?).map fun goals ↦ (o, goals)
  | _ => none

/-- A pattern that matches a leaf. -/
def Pattern.isLeaf (h : Head) : Pattern → Bool
  | .op h' [] => h' = h
  | _ => false

def Action.isBinary : Action → Bool
  | .binary _ => true
  | _ => false

def Action.isShift : Action → Bool
  | .shift _ => true
  | _ => false

def Action.isShiftByReg : Action → Bool
  | .shiftByReg _ => true
  | _ => false

/-- The pattern of an index that is scaled. -/
def Pattern.isScaledIndex : Pattern → Bool
  | .op (.inst (.binary .add)) [.nt .reg, .op (.inst (.binary .shl)) [.nt .reg, .nt .imm]] => true
  | _ => false

/-- What the pattern of a copy into a phi asks of the value. -/
def Pattern.phiGoal? : Pattern → Option Nonterminal
  | .op .phiMove [.nt goal] => some goal
  | _ => none

/-- The opcodes that fold. -/
def foldable : List BinaryOp := [.add, .sub, .mul, .and, .or, .xor, .shl]

/-! ## Leaves -/

section Leaves

variable {p : Pattern} {f₁ f : Forest} {k : NodeId} {o : Opcode} {goals : List Nonterminal}
  {goal : Nonterminal} {h : Head}

theorem Pattern.length_of_source : ∀ (ps : List Pattern) (goals : List Nonterminal),
    ps.mapM Pattern.source? = some goals → ps.length = goals.length
  | [], goals, hps => by
    obtain rfl : goals = [] := by simpa using hps.symm
    rfl
  | p :: ps, goals, hps => by
    rw [List.mapM_cons] at hps
    obtain ⟨goal, -, hps⟩ := Option.bind_eq_some_iff.mp hps
    obtain ⟨goals', hgoals, hps⟩ := Option.bind_eq_some_iff.mp hps
    obtain rfl := Option.some.inj hps
    rw [List.length_cons, List.length_cons, length_of_source ps goals' hgoals]

theorem Pattern.takeKidLeaves_of_source : ∀ (ps : List Pattern) (goals : List Nonterminal)
    (ids : List NodeId) (f : Forest), ps.mapM Pattern.source? = some goals →
      Pattern.takeKidLeaves ps ids f = (ids.zip goals, f)
  | [], goals, ids, f, hps => by
    obtain rfl : goals = [] := by simpa using hps.symm
    rw [List.zip_nil_right, Pattern.takeKidLeaves]
    exact fun _ _ _ _ hnil ↦ absurd hnil (by simp)
  | p :: ps, goals, [], f, _ => by
    rw [List.zip_nil_left, Pattern.takeKidLeaves]
    exact fun _ _ _ _ _ hnil ↦ absurd hnil (by simp)
  | p :: ps, goals, id :: ids, f, hps => by
    rw [List.mapM_cons] at hps
    obtain ⟨goal, hgoal, hps⟩ := Option.bind_eq_some_iff.mp hps
    obtain ⟨goals', hgoals, hps⟩ := Option.bind_eq_some_iff.mp hps
    obtain rfl := Option.some.inj hps
    cases p with
    | nt s =>
      obtain rfl := Option.some.inj hgoal
      simp only [Pattern.takeKidLeaves, Pattern.takeLeaves,
        takeKidLeaves_of_source ps goals' ids f hgoals, List.zip_cons_cons, List.cons_append,
        List.nil_append]
    | _ => exact absurd hgoal (by simp [Pattern.source?])

/-- The leaves of a rule that matches one instruction are the children of its node. -/
theorem Pattern.leaves_of_inst (hp : p.inst? = some (o, goals)) (hfits : p.Fits f₁ k)
    (hskeleton : f₁.SameSkeleton f) :
    (p.takeLeaves k f).1 = (f₁.kidOwners k).zip goals ∧
      (f₁.kidOwners k).length = goals.length ∧ (f₁.node k).computed = false ∧
        (f₁.node k).op = .inst o := by
  unfold Pattern.inst? at hp
  split at hp
  next o' kids =>
    obtain ⟨goals', hgoals, heq⟩ := Option.map_eq_some_iff.mp hp
    obtain ⟨rfl, rfl⟩ := Prod.mk.inj heq
    rw [Pattern.Fits] at hfits
    have hlength := Pattern.length_of_source kids goals' hgoals
    refine ⟨?_, ?_, (head?_inst hfits.1).1, (head?_inst hfits.1).2⟩
    · rw [Pattern.takeLeaves, takeKidLeaves_of_source kids goals' _ f hgoals, hskeleton.kidOwners]
    · rw [Forest.kidOwners, List.length_map, (hfits.2 (by simp)).1, hlength]
  next => exact absurd hp (by simp)

theorem Pattern.leaves_of_isLeaf (hp : p.isLeaf h = true) :
    (p.takeLeaves k f).1 = [] ∧ p.head? = some h := by
  unfold Pattern.isLeaf at hp
  split at hp
  next h' =>
    refine ⟨?_, congrArg some (by simpa using hp)⟩
    rw [Pattern.takeLeaves, takeKidLeaves_of_source [] [] _ f rfl, List.zip_nil_right]
  next => exact absurd hp (by simp)

theorem Pattern.leaves_of_source (hp : p.source? = some goal) :
    p.takeLeaves k f = ([(k, goal)], f) := by
  unfold Pattern.source? at hp
  split at hp
  next => rw [Pattern.takeLeaves, Option.some.inj hp]
  next => exact absurd hp (by simp)

/-- The leaves of a scaled index: the base, and the operands of the shift. -/
theorem Pattern.leaves_of_isScaledIndex (hp : p.isScaledIndex = true) (hfits : p.Fits f₁ k)
    (hskeleton : f₁.SameSkeleton f) :
    ∃ a t x y, (p.takeLeaves k f).1 = [(a, .reg), (x, .reg), (y, .imm)] ∧
      f₁.kidOwners k = [a, t] ∧ f₁.kidOwners t = [x, y] ∧
      (f₁.node k).computed = false ∧ (f₁.node k).op = .inst (.binary .add) ∧
      (f₁.node t).computed = false ∧ (f₁.node t).op = .inst (.binary .shl) := by
  unfold Pattern.isScaledIndex at hp
  split at hp
  next =>
    simp only [Pattern.Fits] at hfits
    obtain ⟨hhead, hkids⟩ := hfits
    obtain ⟨hlength, hfit⟩ := hkids (by simp)
    obtain ⟨a, t, howners⟩ : ∃ a t, f₁.kidOwners k = [a, t] :=
      List.length_eq_two.mp (by rw [Forest.kidOwners, List.length_map, hlength]; rfl)
    rw [howners] at hfit
    simp only [Pattern.FitKids, Pattern.Fits] at hfit
    obtain ⟨-, ⟨hshift, hshiftKids⟩, -⟩ := hfit
    obtain ⟨hshiftLength, -⟩ := hshiftKids (by simp)
    obtain ⟨x, y, howners'⟩ : ∃ x y, f₁.kidOwners t = [x, y] :=
      List.length_eq_two.mp (by rw [Forest.kidOwners, List.length_map, hshiftLength]; rfl)
    refine ⟨a, t, x, y, ?_, howners, howners', (head?_inst hhead).1, (head?_inst hhead).2,
      (head?_inst hshift).1, (head?_inst hshift).2⟩
    simp only [Pattern.takeLeaves, hskeleton.kidOwners, howners, Pattern.takeKidLeaves, howners',
      List.cons_append, List.nil_append]
  next => exact absurd hp (by simp)

/-- The leaf of a copy into a phi. -/
theorem Pattern.leaves_of_phiGoal (hp : p.phiGoal? = some goal) (hfits : p.Fits f₁ k)
    (hskeleton : f₁.SameSkeleton f) :
    ∃ c, (p.takeLeaves k f).1 = [(c, goal)] ∧ f₁.kidOwners k = [c] ∧
      (f₁.node k).computed = false ∧ (f₁.node k).op = .phiMove := by
  unfold Pattern.phiGoal? at hp
  split at hp
  next goal' =>
    obtain rfl := Option.some.inj hp
    simp only [Pattern.Fits] at hfits
    obtain ⟨hhead, hkids⟩ := hfits
    obtain ⟨c, howners⟩ : ∃ c, f₁.kidOwners k = [c] :=
      List.length_eq_one_iff.mp (by rw [Forest.kidOwners, List.length_map, (hkids (by simp)).1]; rfl)
    refine ⟨c, ?_, howners, (head?_phiMove hhead).1, (head?_phiMove hhead).2⟩
    simp only [Pattern.takeLeaves, hskeleton.kidOwners, howners, Pattern.takeKidLeaves,
      List.append_nil]
  next => exact absurd hp (by simp)

/-- The leaves of an argument list: the arguments. -/
theorem Pattern.leaves_of_isArguments (hp : p.isArguments = true) (hskeleton : f₁.SameSkeleton f) :
    (p.takeLeaves k f).1 = (f₁.kidOwners k).map (·, .reg) := by
  unfold Pattern.isArguments at hp
  split at hp
  next => rw [Pattern.takeLeaves, hskeleton.kidOwners]
  next => exact absurd hp (by simp)

end Leaves

/-! ## Goals -/

mutual

/-- The nonterminals that a pattern asks for. -/
def Pattern.goals : Pattern → List Nonterminal
  | .nt goal => [goal]
  | .op _ kids => Pattern.kidGoals kids
  | .variadic _ goal => [goal]

/-- The nonterminals that patterns ask for. -/
def Pattern.kidGoals : List Pattern → List Nonterminal
  | [] => []
  | p :: ps => p.goals ++ Pattern.kidGoals ps

end

mutual

theorem Pattern.goal_mem : ∀ (p : Pattern) (id : NodeId) (f : Forest),
    ∀ leaf ∈ (p.takeLeaves id f).1, leaf.2 ∈ p.goals
  | .nt goal, id, f => by
    rw [Pattern.takeLeaves, Pattern.goals]
    exact List.forall_mem_singleton.mpr (List.mem_singleton_self goal)
  | .op _ kids, id, f => by
    rw [Pattern.takeLeaves, Pattern.goals]
    exact Pattern.goal_mem_kids kids (f.kidOwners id) f
  | .variadic _ goal, id, f => by
    rw [Pattern.takeLeaves, Pattern.goals]
    intro leaf hleaf
    obtain ⟨c, -, rfl⟩ := List.mem_map.mp hleaf
    exact List.mem_singleton_self goal

theorem Pattern.goal_mem_kids : ∀ (ps : List Pattern) (ids : List NodeId) (f : Forest),
    ∀ leaf ∈ (Pattern.takeKidLeaves ps ids f).1, leaf.2 ∈ Pattern.kidGoals ps
  | [], _, _ => by
    simp only [Pattern.takeKidLeaves]
    exact List.forall_mem_nil _
  | _ :: _, [], _ => by
    simp only [Pattern.takeKidLeaves]
    exact List.forall_mem_nil _
  | p :: ps, id :: ids, f => by
    rw [Pattern.takeKidLeaves, Pattern.kidGoals]
    refine List.forall_mem_append.mpr ⟨fun leaf hleaf ↦ ?_, fun leaf hleaf ↦ ?_⟩
    · exact List.mem_append_left _ (Pattern.goal_mem p id f leaf hleaf)
    · exact List.mem_append_right _ (Pattern.goal_mem_kids ps ids (p.takeLeaves id f).2 leaf hleaf)

end

/-! ## Tables -/

namespace Grammar

/-- Nothing is done for its effect within a tree. -/
theorem goals_rules : ∀ r ∈ rules, Nonterminal.stmt ∉ r.pattern.goals := by decide

theorem tile_immediate : ∀ r ∈ rules, r.action = .immediate →
    r.lhs = .imm ∧ r.pattern.isLeaf .imm = true := by decide

theorem tile_register : ∀ r ∈ rules, r.action = .register →
    r.lhs = .reg ∧ r.pattern.isLeaf .inRegister = true := by decide

theorem tile_memory : ∀ r ∈ rules, r.action = .memory →
    r.lhs = .mem ∧ r.pattern.isLeaf .arg = true := by decide

theorem tile_label : ∀ r ∈ rules, r.action = .label →
    r.lhs = .label ∧ r.pattern.isLeaf .label = true := by decide

theorem tile_nothing : ∀ r ∈ rules, r.action = .nothing →
    r.lhs = .dummy ∧ r.pattern.isLeaf .dummy = true := by decide

theorem tile_loadImm : ∀ r ∈ rules, r.action = .loadImm →
    r.lhs = .reg ∧ r.pattern.source? = some .imm := by decide

theorem tile_loadMem : ∀ r ∈ rules, r.action = .loadMem →
    r.lhs = .reg ∧ r.pattern.source? = some .mem := by decide

theorem tile_lea : ∀ r ∈ rules, r.action = .lea →
    r.lhs = .reg ∧ r.pattern.source? = some .addr := by decide

theorem tile_addrBase : ∀ r ∈ rules, r.action = .addrBase →
    r.lhs = .addr ∧ r.pattern.source? = some .reg := by decide

theorem tile_discard : ∀ r ∈ rules, r.action = .discard →
    r.lhs = .stmt ∧ r.pattern.source? = some .reg := by decide

theorem tile_setCond : ∀ r ∈ rules, r.action = .setCond →
    r.lhs = .reg ∧ r.pattern.source? = some .cond := by decide

theorem tile_fold : ∀ r ∈ rules, r.action = .fold →
    r.lhs = .imm ∧ ∃ op ∈ foldable, r.pattern.inst? = some (.binary op, [.imm, .imm]) := by decide

theorem tile_frameSlot : ∀ r ∈ rules, r.action = .frameSlot →
    r.lhs ∈ [.addr, .stmt] ∧ r.pattern.inst? = some (.alloca, []) := by decide

theorem tile_addrDisp : ∀ r ∈ rules, r.action = .addrDisp →
    r.lhs = .addr ∧ r.pattern.inst? = some (.binary .add, [.addr, .imm]) := by decide

theorem guard_addrDisp : ∀ r ∈ rules, r.action = .addrDisp → r.guard = some .secondImm32 := by
  decide

theorem name_addrDisp : ∀ r ∈ rules, r.action = .addrDisp → r.name = "addr_disp" := by decide

theorem tile_addrIndex : ∀ r ∈ rules, r.action = .addrIndex → r.lhs = .addr ∧
    (r.pattern.inst? = some (.binary .add, [.reg, .reg]) ∨
      r.pattern.isScaledIndex = true ∧ r.guard = some .secondScale) := by decide

theorem tile_memFromAddr : ∀ r ∈ rules, r.action = .memFromAddr →
    r.lhs = .mem ∧ r.pattern.inst? = some (.load, [.addr]) ∧ r.guard = some .wide := by decide

theorem tile_load : ∀ r ∈ rules, r.action = .load →
    r.lhs = .reg ∧ r.pattern.inst? = some (.load, [.addr]) := by decide

theorem tile_store : ∀ r ∈ rules, r.action = .store → r.lhs = .stmt ∧
    (r.pattern.inst? = some (.store, [.reg, .addr]) ∨
      r.pattern.inst? = some (.store, [.imm, .addr]) ∧ r.guard = some .firstImm32) := by decide

theorem tile_binary : ∀ r ∈ rules, r.action.isBinary = true →
    r.lhs = .reg ∧ ∃ x ∈ Core.binaryMnemonics, r.action = .binary x.2 ∧
      ∃ goal ∈ [Nonterminal.reg, .mem, .imm], r.pattern.inst? = some (.binary x.1, [.reg, goal]) ∧
        (goal = .imm → r.guard = some .secondImm32) := by decide

theorem tile_mulImm : ∀ r ∈ rules, r.action = .mulImm → r.lhs = .reg ∧
    r.pattern.inst? = some (.binary .mul, [.reg, .imm]) ∧ r.guard = some .secondImm32 := by decide

theorem tile_divide : ∀ r ∈ rules, ∀ remainder, r.action = .divide remainder → r.lhs = .reg ∧
    r.pattern.inst? =
      some (.binary (if remainder then .srem else .sdiv), [.reg, .reg]) := by decide

theorem tile_shift : ∀ r ∈ rules, r.action.isShift = true →
    r.lhs = .reg ∧ ∃ x ∈ Core.shiftMnemonics, r.action = .shift x.2 ∧
      r.pattern.inst? = some (.binary x.1, [.reg, .imm]) := by decide

theorem tile_shiftByReg : ∀ r ∈ rules, r.action.isShiftByReg = true →
    r.lhs = .reg ∧ ∃ x ∈ Core.shiftMnemonics, r.action = .shiftByReg x.2 ∧
      r.pattern.inst? = some (.binary x.1, [.reg, .reg]) := by decide

theorem tile_compare : ∀ r ∈ rules, r.action = .compare → r.lhs = .cond ∧
    ∃ goal ∈ [Nonterminal.reg, .mem, .imm], r.pattern.inst? = some (.icmp, [.reg, goal]) ∧
      (goal = .imm → r.guard = some .secondImm32) := by decide

theorem tile_signExtend : ∀ r ∈ rules, r.action = .signExtend →
    r.lhs = .reg ∧ r.pattern.inst? = some (.cast .sext, [.reg]) := by decide

theorem tile_zeroExtend : ∀ r ∈ rules, r.action = .zeroExtend →
    r.lhs = .reg ∧ r.pattern.inst? = some (.cast .zext, [.reg]) := by decide

theorem tile_rename : ∀ r ∈ rules, r.action = .rename →
    r.lhs = .reg ∧ r.pattern.inst? = some (.cast .trunc, [.reg]) := by decide

theorem tile_jump : ∀ r ∈ rules, r.action = .jump →
    r.lhs = .stmt ∧ r.pattern.inst? = some (.br, [.label, .dummy, .dummy]) := by decide

theorem tile_branchCond : ∀ r ∈ rules, r.action = .branchCond →
    r.lhs = .stmt ∧ r.pattern.inst? = some (.br, [.cond, .label, .label]) := by decide

theorem tile_branchTest : ∀ r ∈ rules, r.action = .branchTest →
    r.lhs = .stmt ∧ r.pattern.inst? = some (.br, [.reg, .label, .label]) := by decide

theorem tile_ret : ∀ r ∈ rules, r.action = .ret → r.lhs = .stmt ∧
    ∃ goals ∈ [[], [Nonterminal.imm], [.reg]], r.pattern.inst? = some (.ret, goals) := by decide

theorem tile_call : ∀ r ∈ rules, r.action = .call →
    r.lhs ∈ [.reg, .stmt] ∧ r.pattern.inst? = some (.call, [.args]) := by decide

theorem tile_phiInput : ∀ r ∈ rules, r.action = .phiInput → r.lhs = .stmt ∧
    ∃ goal ∈ [Nonterminal.reg, .mem, .imm], r.pattern.phiGoal? = some goal := by decide

theorem tile_arguments : ∀ r ∈ rules, r.action = .arguments →
    r.lhs = .args ∧ r.pattern.isArguments = true := by decide

end Grammar

end TreeCover
