import TreeCover.Proofs.Tiling.PhiCopies
import TreeCover.Proofs.Tiling.SharedValues
import TreeCover.Proofs.Tiling.VoidCalls

/-!
# Memory in the code of applications

A store or a call is one instruction in the code of one application, and other code has no side effects.
Memory is read in the application of a load, or in one that was given the place of a load or of an
argument for one of its leaves. Main statements: `Application.performs`, `Application.reads_of_code`.
-/

namespace TreeCover

open Ir Machine Work

variable {g : Forest} {k : NodeId} {nt : Nonterminal} {goals : List (NodeId × Nonterminal)}
  {as : List Application} {a : Application} {ls : Labels} {w w' : Workspace} {b : Bound}
  {bs kids : List Bound} {n : Node} {frame : Frame} {x : VReg} {action : Action}
  {i : Machine.Inst} {is : List Machine.Inst} {leaf : NodeId × Nonterminal}
  {m : Mem}

/-! ## Instructions -/

namespace Machine.Inst

/-- A move into memory. -/
def isStore (i : Inst) : Bool :=
  i.mnemonic ∈ ["movb", "movw", "movl", "movq"] && i.operands.getLast?.any (·.isMem)

/-- Whether an instruction is a call, or writes memory. -/
def hasSideEffect (i : Inst) : Bool := i.kind = .call || i.isStore || i.dst?.any (·.isMem)

/-- Whether an instruction reads memory where one of its operands says. -/
def readsMemory (i : Inst) : Bool :=
  i.mnemonic ≠ "leaq" && (if i.isStore then i.operands.dropLast else i.operands).any (·.isMem)

/-- The call of a function. -/
def callTo (callee : String) : Inst :=
  { mnemonic := "call", operands := [.symbol callee], kind := .call }

/-- The instruction that does what a node with a side effect stands for. -/
def Performs (i : Inst) (n : Node) : Prop :=
  n.op = .inst .store ∧ i.isStore = true ∧ i.mnemonic = moveMnemonic (accessBytes n.width) ∨
    n.op = .inst .call ∧ i = callTo (n.callee.getD "")

theorem Performs.of_sameSkeleton {g₀ : Forest} (hskeleton : g₀.SameSkeleton g)
    (h : i.Performs (g.node k)) : i.Performs (g₀.node k) := by
  have hcallee : (g.node k).callee = (g₀.node k).callee := (congrArg Node.callee (hskeleton.node k) :)
  rwa [Performs, hskeleton.op, hskeleton.width, hcallee] at h

theorem hasSideEffect_eq_false (hkind : i.kind ≠ .call)
    (hlast : i.operands.getLast?.any (·.isMem) = false) : i.hasSideEffect = false := by
  rw [hasSideEffect, isStore, dst?]
  split <;> simp [hkind, hlast]

theorem hasSideEffect_of_isStore (h : i.isStore = true) : i.hasSideEffect = true := by
  simp [hasSideEffect, h]

end Machine.Inst

/-! ## Templates -/

theorem isStore_mov (bytes : Nat) (o : Machine.Operand) (m : Mem) :
    Inst.isStore { mnemonic := moveMnemonic bytes, operands := [o, .mem m] } = true := by
  have hmnemonic : moveMnemonic bytes ∈ ["movb", "movw", "movl", "movq"] := by
    unfold moveMnemonic
    split <;> simp
  rw [Inst.isStore, decide_eq_true hmnemonic]
  rfl

theorem not_readsMemory_mov (bytes : Nat) {o : Machine.Operand} (m : Mem) (ho : o.isMem = false) :
    Inst.readsMemory { mnemonic := moveMnemonic bytes, operands := [o, .mem m] } = false := by
  rw [Inst.readsMemory, if_pos (isStore_mov bytes o m)]
  simp [ho]

/-- The only places in memory that the code of a call mentions are arguments. -/
theorem mem_of_callCode {callee : String} {os : List Machine.Operand} {result? : Option VReg} {m : Mem}
    (hi : i ∈ callCode callee os result?) (hm : .mem m ∈ i.operands) : .mem m ∈ os := by
  simp only [callCode, popCode, List.mem_append, List.mem_map, List.mem_reverse, List.mem_cons,
    Option.mem_toList, Option.map_eq_some_iff] at hi
  rcases hi with (⟨o, ho, rfl⟩ | rfl | hi) | ⟨dst, -, rfl⟩
  · exact List.mem_singleton.mp hm ▸ ho
  · exact absurd hm (by simp)
  · split at hi
    next => exact absurd hi List.not_mem_nil
    next =>
      obtain rfl := List.mem_singleton.mp hi
      exact absurd hm (by simp [Inst.update, Operand.phys])
  · exact absurd hm (by simp [moveTo, Inst.define, Operand.vreg, Operand.phys])

namespace Expands

/-- Other actions than stores and calls leave memory alone. -/
theorem quiet (h : Expands n frame kids x action is b) (hstore : action ≠ .store)
    (hcall : action ≠ .call) : ∀ i ∈ is, i.hasSideEffect = false := by
  have hquiet : ∀ is : List Machine.Inst, (∀ i ∈ is, i.kind ≠ .call ∧
      i.operands.getLast?.any (·.isMem) = false) → ∀ i ∈ is, i.hasSideEffect = false :=
    fun is his i hi ↦ Inst.hasSideEffect_eq_false (his i hi).1 (his i hi).2
  apply hquiet
  cases h with
  | storeReg | storeImm => exact absurd rfl hstore
  | call | callVoid => exact absurd rfl hcall
  | loadImm | retImm =>
    rw [loadConstant]
    split <;> simp [Inst.define, Inst.intoReg, Operand.isMem, Operand.vreg, Operand.phys]
  | signExtend | zeroExtend =>
    rw [extendInsts]
    split
    next => simp [moveTo, Inst.define, Inst.update, Operand.isMem, Operand.vreg]
    next => split <;> simp [Inst.define, Inst.intoReg, Operand.isMem, Operand.vreg]
  | _ =>
    simp [moveTo, jumpTo, branchTo, Inst.define, Inst.update, Inst.intoReg, Operand.isMem,
      Operand.vreg, Operand.phys]

theorem store (h : Expands n frame kids x .store is b) : ∃ i, is = [i] ∧ i.isStore = true ∧
    i.mnemonic = moveMnemonic (accessBytes n.width) := by
  cases h with
  | extendWhole h => exact absurd h (by simp)
  | storeReg => exact ⟨_, rfl, isStore_mov _ _ _, rfl⟩
  | storeImm => exact ⟨_, rfl, isStore_mov _ _ _, rfl⟩

theorem call_code (h : Expands n frame kids x .call is b) :
    is.filter (·.hasSideEffect) = [Inst.callTo (n.callee.getD "")] := by
  have hvoid : ∀ os, (callCode (n.callee.getD "") os none).filter (·.hasSideEffect) =
      [Inst.callTo (n.callee.getD "")] := by
    intro os
    have hpush : (os.reverse.map fun o ↦ ({ mnemonic := "pushq", operands := [o] } : Machine.Inst)).filter
        (·.hasSideEffect) = [] := by
      simp [List.filter_eq_nil_iff, Inst.hasSideEffect, Inst.isStore, Inst.dst?]
    have hpop : (popCode os.length).filter (·.hasSideEffect) = [] := by
      rw [popCode]
      split
      next => rfl
      next => simp [Inst.hasSideEffect, Inst.isStore, Inst.dst?, Inst.update, Operand.phys, Operand.isMem]
    rw [callCode, Option.map_none, Option.toList_none, List.append_nil, List.filter_append, hpush,
      List.nil_append, List.filter_cons_of_pos (by rfl), hpop]
    rfl
  cases h with
  | extendWhole h => exact absurd h (by simp)
  | call =>
    rw [callCode_append, List.filter_append, hvoid]
    rfl
  | callVoid => exact hvoid _

/-- A place in memory that an instruction reads is what some leaf gave, or the address of a load. -/
theorem reads (h : Expands n frame kids x action is b) (hi : i ∈ is) (hread : i.readsMemory = true)
    {m : Mem} (hm : .mem m ∈ i.operands) :
    action = .load ∧ kids[0]?.bind Bound.address? = some m ∨
      (action ≠ .arguments ∧ action ∉ [.load, .lea, .addrDisp, .memFromAddr, .store]) ∧
        ∃ kid ∈ kids, kid.operand? = some (.mem m) ∨
          ∃ bs, kid = .args bs ∧ ∃ b ∈ bs, b.operand? = some (.mem m) := by
  have hgiven : ∀ {idx : Nat}, kids[idx]?.bind Bound.operand? = some (.mem m) →
      ∃ kid ∈ kids, kid.operand? = some (.mem m) ∨
        ∃ bs, kid = .args bs ∧ ∃ b ∈ bs, b.operand? = some (.mem m) := by
    intro idx hbind
    obtain ⟨kid, hkid, hoperand⟩ := Option.bind_eq_some_iff.mp hbind
    exact ⟨kid, List.mem_of_getElem? hkid, Or.inl hoperand⟩
  have hnone : (∀ i ∈ is, ∀ m, .mem m ∉ i.operands) → False := fun hall ↦ hall i hi m hm
  cases h with
  | load hkid =>
    obtain rfl := List.mem_singleton.mp hi
    obtain rfl : m = _ := by simpa [Inst.define, Operand.vreg] using hm
    exact Or.inl ⟨rfl, hkid⟩
  | loadMem hkid =>
    obtain rfl := List.mem_singleton.mp hi
    obtain rfl : m = _ := by simpa [moveTo, Inst.define, Operand.vreg] using hm
    exact Or.inr ⟨by simp, hgiven (operand?_of_kid hkid rfl)⟩
  | binary _ hrhs =>
    obtain rfl : Machine.Operand.mem m = _ := by
      rcases List.mem_cons.mp hi with rfl | hi
      · exact absurd hm (by simp [moveTo, Inst.define, Operand.vreg])
      · obtain rfl := List.mem_singleton.mp hi
        simpa [Inst.update, Operand.vreg] using hm
    exact Or.inr ⟨by simp, hgiven hrhs⟩
  | compare _ hrhs =>
    obtain rfl := List.mem_singleton.mp hi
    obtain rfl : Machine.Operand.mem m = _ := by simpa [Operand.vreg] using hm
    exact Or.inr ⟨by simp, hgiven hrhs⟩
  | ret ho =>
    obtain rfl : Machine.Operand.mem m = _ := by
      rcases List.mem_cons.mp hi with rfl | hi
      · simpa [Inst.define, Operand.phys] using hm
      · obtain rfl := List.mem_singleton.mp hi
        exact absurd hm List.not_mem_nil
    exact Or.inr ⟨by simp, hgiven ho⟩
  | @callVoid args os hkid hos | @call args os hkid hos =>
    -- an argument is pushed
    obtain ⟨b, hb, hoperand⟩ := exists_of_forall₂ hos (mem_of_callCode hi hm)
    exact Or.inr ⟨by simp, _, List.mem_of_getElem? hkid, Or.inr ⟨args, rfl, b, hb, hoperand⟩⟩
  | lea =>
    obtain rfl := List.mem_singleton.mp hi
    exact absurd hread (by simp [Inst.readsMemory, Inst.intoReg, Inst.define])
  | storeReg | storeImm =>
    obtain rfl := List.mem_singleton.mp hi
    rw [not_readsMemory_mov _ _ rfl] at hread
    exact absurd hread Bool.false_ne_true
  | signExtend | zeroExtend =>
    refine (hnone ?_).elim
    rw [extendInsts]
    split
    next => simp [moveTo, Inst.define, Inst.update, Operand.vreg]
    next => split <;> simp [Inst.define, Inst.intoReg, Operand.vreg]
  | loadImm | retImm =>
    refine (hnone ?_).elim
    rw [loadConstant]
    split <;> simp [Inst.define, Inst.intoReg, Operand.vreg, Operand.phys]
  | _ =>
    refine (hnone ?_).elim
    simp [moveTo, jumpTo, branchTo, Inst.define, Inst.update, Inst.intoReg, Operand.vreg, Operand.phys]

/-- A load reads memory, and so does a move from a place in memory. -/
theorem exists_reads (h : Expands n frame kids x action is b)
    (haction : action = .load ∨ action = .loadMem ∧ ∃ m, kids = [.mem m]) :
    ∃ i ∈ is, i.readsMemory = true ∧ ∃ m, .mem m ∈ i.operands := by
  rcases haction with rfl | ⟨rfl, m, rfl⟩
  · cases h with
    | extendWhole h => exact absurd h (by simp)
    | load =>
      refine ⟨_, List.mem_singleton_self _, ?_, _, List.mem_cons_self⟩
      have hmnemonic : loadMnemonic n.width ≠ "leaq" := by
        unfold loadMnemonic
        split <;> decide
      simp [Inst.readsMemory, Inst.isStore, Inst.define, hmnemonic, Operand.vreg, Operand.isMem]
  · cases h with
    | extendWhole h => exact absurd h (by simp)
    | loadMemReg h => exact absurd h (by simp)
    | loadMem => exact ⟨_, List.mem_singleton_self _, rfl, _, List.mem_cons_self⟩

/-- What comes out of an action, if it is a place in memory, an address or a list. -/
theorem place_cases (h : Expands n frame kids x action is b) :
    (∀ m, b = .mem m → action = .memory ∨ action = .memFromAddr) ∧
      (∀ m, b = .addr m → action ∈ [.addrBase, .frameSlot, .addrDisp, .addrIndex]) ∧
        ∀ bs, b = .args bs → action = .arguments ∧ bs = kids := by
  cases h with
  | arguments => simp
  | memory | memFromAddr | addrBase | frameSlot | addrDisp | addrIndex | addrScaled => simp
  | _ => simp

end Expands

/-! ## Rules -/

/-- The actions for stores and calls. -/
def Action.isEffect : Action → Bool
  | .store | .call => true
  | _ => false

theorem Action.of_isEffect (h : action.isEffect = true) : action = .store ∨ action = .call := by
  unfold Action.isEffect at h
  split at h
  next => exact Or.inl rfl
  next => exact Or.inr rfl
  next => exact absurd h Bool.false_ne_true

namespace Grammar

theorem isEffect_iff : ∀ r ∈ rules, r.action.isEffect = true ↔
    r.pattern.head? = some (.inst .store) ∨ r.pattern.head? = some (.inst .call) := by decide

theorem isEffect_of_chain : ∀ r ∈ rules, r.pattern.source?.isSome = true →
    r.action.isEffect = false ∧ r.action ≠ .load := by decide

theorem action_of_mem : ∀ r ∈ rules, r.lhs = .mem → r.action = .memory ∨ r.action = .memFromAddr := by
  decide

theorem action_of_mem_source : ∀ r ∈ rules, r.pattern.source? = some .mem → r.action = .loadMem := by
  decide

theorem isEffect_of_mem : ∀ r ∈ rules, .mem ∈ r.pattern.goals → r.action.isEffect = false := by decide

theorem goals_of_load : ∀ r ∈ rules, r.action = .load →
    r.pattern.isArguments = false ∧ .mem ∉ r.pattern.goals := by decide

theorem asks_addr : ∀ r ∈ rules, .addr ∈ r.pattern.goals →
    r.action ∈ [.load, .lea, .addrDisp, .memFromAddr, .store] := by decide

theorem head_of_phiInput : ∀ r ∈ rules, r.action = .phiInput → r.pattern.head? = some .phiMove := by
  decide

theorem source_of_stmt : ∀ r ∈ rules, r.lhs = .stmt → r.pattern.head? ≠ some (.inst .load) ∧
    (r.pattern.source? = none ∨ r.pattern.source? = some .reg) := by decide

theorem action_of_isArguments : ∀ r ∈ rules, r.pattern.isArguments = true → r.action = .arguments := by
  decide

end Grammar

theorem Node.op_of_hasSideEffect (h : n.hasSideEffect = true) :
    n.op = .inst .store ∨ n.op = .inst .call := by
  rw [Node.hasSideEffect, Option.any_eq_true] at h
  obtain ⟨o, ho, hwrites⟩ := h
  rw [Node.opcode?_eq_some.mp ho]
  cases o with
  | store => exact Or.inl rfl
  | call => exact Or.inr rfl
  | _ => exact absurd hwrites Bool.false_ne_true

/-- A rule for a store or a call matches where one is pending. -/
theorem Rule.Matches.of_isEffect {r : Rule} (hmatches : r.Matches g k) (h : r.action.isEffect = true) :
    (g.node k).computed = false ∧ (g.node k).hasSideEffect = true := by
  rw [Node.hasSideEffect, Node.opcode?]
  rcases (Grammar.isEffect_iff r hmatches.mem).mp h with hhead | hhead <;>
    obtain ⟨hcomputed, hop⟩ := TreeCover.head?_inst (hmatches.fits.head? hhead) <;>
    exact ⟨hcomputed, by rw [hop]; rfl⟩

/-- Where one is pending, another rule only reduces it further. -/
theorem Rule.Matches.isEffect {r : Rule} (hmatches : r.Matches g k) (hsource : r.pattern.source? = none)
    (hnew : (g.node k).computed = false) (heffect : (g.node k).hasSideEffect = true) :
    r.action.isEffect = true := by
  obtain ⟨h, hh⟩ := Pattern.head?_of_source hsource
  have hhead := hmatches.fits.head? hh
  rw [Grammar.isEffect_iff r hmatches.mem, hh, ← hhead, Node.head?, hnew]
  rcases Node.op_of_hasSideEffect heffect with hop | hop <;> rw [hop] <;> decide

/-! ## Reductions -/

/-- What a leaf is given, if it is a place in memory, an address or a list. -/
structure Placed (g : Forest) (leaf : NodeId × Nonterminal) (b : Bound) : Prop where
  mem : ∀ m, b = .mem m → leaf.2 = .mem ∧
    ((g.node leaf.1).head? = some .arg ∨ (g.node leaf.1).head? = some (.inst .load))
  addr : ∀ m, b = .addr m → leaf.2 = .addr ∨ leaf.2 = .stmt
  args : ∀ bs, b = .args bs → ∀ b ∈ bs, ∀ m, b.operand? ≠ some (.mem m)

theorem Placed.of_reuse (hreuse : (w.forest.node k).reuse? nt = some b) : Placed g (k, nt) b := by
  unfold Node.reuse? at hreuse
  split at hreuse
  next => exact Option.some.inj hreuse ▸ ⟨by simp, by simp, by simp⟩
  next => exact Option.some.inj hreuse ▸ ⟨by simp, by simp, by simp⟩
  next => exact Option.some.inj hreuse ▸ ⟨by simp, by simp, by simp⟩
  next => exact Option.some.inj hreuse ▸ ⟨by simp, by simp, by simp⟩
  next => exact absurd hreuse (by simp)

theorem Placed.operand? (h : Placed g leaf b) (hgoal : leaf.2 ≠ .addr) (hstmt : leaf.2 ≠ .stmt) {m : Mem}
    (hb : b.operand? = some (.mem m)) : b = .mem m := by
  cases b with
  | mem m' => exact congrArg Bound.mem (Operand.mem.inj (Option.some.inj hb))
  | addr m' => exact ((h.addr m' rfl).elim hgoal hstmt).elim
  | _ => exact absurd hb (by simp [Bound.operand?])

theorem Application.placed (hmatches : a.rule.Matches g a.node)
    (hkids : List.Forall₂ (Placed g) (a.rule.pattern.leaves g a.node) a.kids) :
    Placed g (a.node, a.rule.lhs) a.result := by
  by_cases hphi : a.rule.action = .phiInput
  · obtain ⟨_, _, _, _, -, -, -, hresult, -⟩ := applyRule_phiInput hphi a.runs
    rw [hresult]
    exact ⟨by simp, by simp, by simp⟩
  obtain ⟨is, hexpands, -⟩ := applyRule_expands a.runs hphi
  obtain ⟨hmem, haddr, hargs⟩ := hexpands.place_cases
  refine ⟨fun m hm ↦ ?_, fun m hm ↦ ?_, fun bs hbs b hb m hm ↦ ?_⟩
  · have hlhs : a.rule.lhs = .mem := by
      rcases hmem m hm with haction | haction
      · exact (Grammar.tile_memory a.rule hmatches.mem haction).1
      · exact (Grammar.tile_memFromAddr a.rule hmatches.mem haction).1
    exact ⟨hlhs, (Grammar.heads_of_mem a.rule hmatches.mem hlhs).imp hmatches.fits.head?
      fun h ↦ hmatches.fits.head? h.1⟩
  · exact (by simpa using Grammar.lhs_of_address a.rule hmatches.mem (haddr m hm))
  · obtain ⟨haction, rfl⟩ := hargs bs hbs
    rw [← a.rule.pattern.takeLeaves_fst a.node g (.refl g), Pattern.leaves_of_isArguments
      (Grammar.tile_arguments a.rule hmatches.mem haction).2 (.refl g)] at hkids
    obtain ⟨idx, hidx⟩ := List.mem_iff_getElem?.mp hb
    obtain ⟨leaf, hleaf, hplaced⟩ := exists_getElem?_of_forall₂ hkids hidx
    obtain ⟨c, -, rfl⟩ := List.mem_map.mp (List.mem_of_getElem? hleaf)
    have hb := hplaced.operand? Nonterminal.noConfusion Nonterminal.noConfusion hm
    exact absurd (hplaced.mem m hb).1 Nonterminal.noConfusion

/-- A rule for a place in memory gives one. -/
theorem Application.exists_place (hrule : a.rule ∈ Grammar.rules) (hlhs : a.rule.lhs = .mem) :
    ∃ m, a.result = .mem m := by
  rcases Grammar.action_of_mem a.rule hrule hlhs with haction | haction
  · obtain ⟨m, -, hm, -⟩ := applyRule_memory haction a.runs
    exact ⟨m, hm⟩
  · obtain ⟨is, hexpands, -⟩ := applyRule_expands a.runs (by simp [haction])
    rw [haction] at hexpands
    generalize a.result = b at hexpands ⊢
    cases hexpands with
    | extendWhole h => exact absurd h (by simp)
    | memFromAddr => exact ⟨_, rfl⟩

/-- A pending load is reduced to a register by its instruction, or by a move from its place. -/
theorem Labels.Derives.load_register {r : Rule} (hls : ls.Derives g)
    (hhead : (g.node k).head? = some (.inst .load)) (hrule : ls.rule? k .reg = some r) :
    r.action = .load ∨ r.action = .loadMem ∧ r.pattern.source? = some .mem := by
  obtain ⟨hmatches, hlhs⟩ := hls.sound.rule hrule
  cases hsource : r.pattern.source? with
  | none =>
    obtain ⟨h, hh⟩ := Pattern.head?_of_source hsource
    obtain rfl := Option.some.inj ((hmatches.fits.head? hh).symm.trans hhead)
    exact Or.inl (Grammar.action_of_load r hmatches.mem hlhs hh)
  | some s =>
    obtain ⟨r', hrule'⟩ := hls.source hrule hsource
    obtain ⟨hmatches', rfl⟩ := hls.sound.rule hrule'
    have hother : ∀ {h}, r'.pattern.head? = some h → h = .inst .load := fun hh ↦
      Option.some.inj ((hmatches'.fits.head? hh).symm.trans hhead)
    rcases Grammar.chain_steps r hmatches.mem _ hsource with ⟨-, hs⟩ | ⟨-, haddr⟩
    · simp only [List.mem_cons, List.not_mem_nil, or_false] at hs
      rcases hs with hs | hs | hs | hs
      · rcases Grammar.heads_of_imm r' hmatches'.mem hs with hh | ⟨o, -, hh⟩ <;>
          exact absurd (hother hh) (by simp)
      · exact Or.inr ⟨Grammar.action_of_mem_source r hmatches.mem (hsource.trans (congrArg _ hs)), by rw [hs]⟩
      · rcases Grammar.heads_of_addr r' hmatches'.mem hs with hchain | hh | hh
        · -- from a register to an address and back
          refine absurd ?_ (hls.not_circular hrule (hsource.trans (congrArg _ hs)))
          rw [← hs, hrule']
          exact (Grammar.action_of_addr_source r' hmatches'.mem hs hchain).1
        · exact absurd (hother hh) (by simp)
        · exact absurd (hother hh) (by simp)
      · exact absurd (hother (Grammar.heads_of_cond r' hmatches'.mem hs)) (by simp)
    · rw [hlhs] at haddr
      exact absurd haddr (by decide)

namespace Trail

theorem placed (hls : ls.Derives g) (h : Trail g ls goals w bs w' as) :
    List.Forall₂ (Placed g) goals bs ∧
      ∀ a ∈ as, List.Forall₂ (Placed g) (a.rule.pattern.leaves g a.node) a.kids := by
  induction h with
  | nil => exact ⟨.nil, fun _ ha ↦ absurd ha List.not_mem_nil⟩
  | found _ hfound _ ih => exact ⟨.cons (.of_reuse hfound) ih.1, ih.2⟩
  | made _ _ _ _ rule _ _ _ ihl ihr =>
    exact ⟨.cons (Application.placed (hls.sound.rule rule).1 ihl.1) ihr.1,
      List.forall_mem_append.mpr ⟨ihl.2, List.forall_mem_cons.mpr ⟨ihl.1, ihr.2⟩⟩⟩

theorem sameSkeleton (h : Trail g ls goals w bs w' as) : ∀ a ∈ as, g.SameSkeleton a.before.forest := by
  induction h with
  | nil => exact fun _ ha ↦ absurd ha List.not_mem_nil
  | found _ _ _ ih => exact ih
  | made _ ready _ _ _ _ _ _ ihl ihr =>
    exact List.forall_mem_append.mpr ⟨ihl, List.forall_mem_cons.mpr ⟨ready.later.skeleton, ihr⟩⟩

/-- What a pending node gives for a place in memory is one. -/
theorem place (hls : ls.Derives g) (h : Trail g ls [(k, .mem)] w bs w' as)
    (hnew : (w.forest.node k).computed = false) : ∃ m, bs = [.mem m] := by
  generalize hgoals : [(k, Nonterminal.mem)] = goals at h
  cases h with
  | nil => exact absurd hgoals (by simp)
  | found _ hfound _ =>
    obtain ⟨⟨rfl, rfl⟩, -⟩ := by simpa using hgoals
    rw [Node.reuse?_of_not_computed hnew] at hfound
    exact absurd hfound (by simp)
  | made _ _ _ _ rule _ _ rest =>
    rename Application => a
    obtain ⟨⟨-, hlhs⟩, rfl⟩ := by simpa using hgoals
    cases rest
    obtain ⟨m, hm⟩ := a.exists_place (hls.sound.rule rule).1.mem hlhs.symm
    exact ⟨m, congrArg (fun b ↦ [b]) hm⟩

/-- A load is reduced to a register by its instruction, or by a move from its place in memory. -/
theorem loads (hls : ls.Derives g) (h : Trail g ls goals w bs w' as) :
    ∀ a ∈ as, a.rule.lhs = .reg → (g.node a.node).op = .inst .load → a.rule.action = .load ∨
      a.rule.action = .loadMem ∧ a.rule.pattern.leaves g a.node = [(a.node, .mem)] ∧
        ∃ m, a.kids = [.mem m] := by
  induction h with
  | nil => exact fun _ ha ↦ absurd ha List.not_mem_nil
  | found _ _ _ ih => exact ih
  | @made _ w _ _ a _ _ _ underway _ _ pending rule leaves _ _ ihl ihr =>
    refine List.forall_mem_append.mpr ⟨ihl, List.forall_mem_cons.mpr ⟨fun hlhs hop ↦ ?_, ihr⟩⟩
    rw [hlhs] at pending rule
    have hnew := underway.not_computed pending hop
    have hhead : (g.node a.node).head? = some (.inst .load) := by
      rw [Node.head?, Bool.eq_false_iff.mpr fun hk ↦
        Bool.false_ne_true (hnew.symm.trans (underway.later.computed a.node hk)), hop]
      rfl
    rcases hls.load_register hhead rule with haction | ⟨haction, hsource⟩
    · exact Or.inl haction
    · have hleaves : a.rule.pattern.leaves g a.node = [(a.node, .mem)] := by
        rw [← a.rule.pattern.takeLeaves_fst a.node g (.refl g), Pattern.leaves_of_source hsource]
      rw [hleaves] at leaves
      exact Or.inr ⟨haction, hleaves, leaves.place hls
        (((w.forest.sameValues_takeLeaves a.rule.pattern a.node) a.node).computed.trans hnew)⟩

/-- What is pending is reduced by an application to it, unless that is what a chain rule asks for. -/
theorem exists_last (h : Trail g ls [(k, nt)] w [b] w' as) (hnew : (w.forest.node k).computed = false) :
    ∃ a ∈ as, a.node = k ∧ a.rule.lhs = nt ∧ ls.rule? k nt = some a.rule ∧
      ∀ s, a.rule.pattern.source? = some s → ∃ u b as', as' ⊆ as ∧
        (u.forest.node k).computed = false ∧ Trail g ls [(k, s)] u [b] a.before as' := by
  generalize hgoals : [(k, nt)] = goals at h
  generalize hbs : [b] = bs at h
  cases h with
  | nil => exact absurd hgoals (by simp)
  | found _ hfound _ =>
    obtain ⟨⟨rfl, rfl⟩, -⟩ := by simpa using hgoals
    rw [Node.reuse?_of_not_computed hnew] at hfound
    exact absurd hfound (by simp)
  | @made _ _ _ _ a _ as as' _ _ _ _ rule leaves _ rest =>
    obtain ⟨⟨rfl, rfl⟩, rfl⟩ := by simpa using hgoals
    cases rest
    refine ⟨a, by simp, rfl, rfl, rule, fun s hsource ↦ ?_⟩
    have hleaf : a.rule.pattern.leaves g a.node = [(a.node, s)] := by
      rw [← a.rule.pattern.takeLeaves_fst a.node g (.refl g), Pattern.leaves_of_source hsource]
    rw [hleaf] at leaves
    obtain ⟨c, hkid⟩ := List.length_eq_one_iff.mp leaves.length.symm
    exact ⟨_, c, as, List.subset_append_left _ _,
      ((w.forest.sameValues_takeLeaves a.rule.pattern a.node) a.node).computed.trans hnew, hkid ▸ leaves⟩

/-- Where a load is emitted it is reduced to a register. -/
theorem exists_register (hls : ls.Derives g) (hhead : (g.node k).head? = some (.inst .load))
    (h : Trail g ls [(k, nt)] w [b] w' as) (hnew : (w.forest.node k).computed = false)
    (hnt : nt = .reg ∨ nt = .stmt) : ∃ a ∈ as, a.node = k ∧ a.rule.lhs = .reg := by
  obtain ⟨a, ha, hnode, hlhs, hrule, hsource⟩ := h.exists_last hnew
  rcases hnt with rfl | rfl
  · exact ⟨a, ha, hnode, hlhs⟩
  have hmatches := (hls.sound.rule hrule).1
  obtain ⟨hother, hnone | hreg⟩ := Grammar.source_of_stmt a.rule hmatches.mem hlhs
  · obtain ⟨head, hh⟩ := Pattern.head?_of_source hnone
    exact absurd (hh.trans ((hmatches.fits.head? hh).symm.trans hhead)) hother
  · obtain ⟨u, b, as', hsub, hnew, htrail⟩ := hsource _ hreg
    obtain ⟨a, ha, hnode, hlhs, -⟩ := htrail.exists_last hnew
    exact ⟨a, hsub ha, hnode, hlhs⟩

/-- The number of blocks stays. -/
theorem length_blocks (h : Trail g ls goals w bs w' as) :
    w'.code.blocks.length = w.code.blocks.length ∧
      ∀ a ∈ as, a.before.code.blocks.length = w.code.blocks.length := by
  induction h with
  | nil => exact ⟨rfl, fun _ ha ↦ absurd ha List.not_mem_nil⟩
  | found _ _ _ ih => exact ih
  | @made _ w u _ a _ as as' _ _ _ _ _ _ settles _ ihl ihr =>
    obtain ⟨hbefore, hbelow⟩ := ihl
    have hbefore : a.before.code.blocks.length = w.code.blocks.length := hbefore
    have hafter : u.code.blocks.length = w.code.blocks.length := by
      rw [code_settle settles, ← hbefore]
      by_cases hphi : a.rule.action = .phiInput
      · obtain ⟨_, _, _, _, -, -, -, -, hafter⟩ := applyRule_phiInput hphi a.runs
        rw [hafter]
        exact List.length_modify ..
      · obtain ⟨is, -, hemits, -⟩ := applyRule_expands a.runs hphi
        exact hemits.length
    exact ⟨ihr.1.trans hafter, List.forall_mem_append.mpr ⟨hbelow, List.forall_mem_cons.mpr
      ⟨hbefore, fun a ha ↦ (ihr.2 a ha).trans hafter⟩⟩⟩

end Trail

/-! ## Applications -/

namespace Application

/-- An application reads memory at `m` for a node: it is that of a load of the address `m`, or is given the
place `m` for the node. -/
def Reads (g : Forest) (a : Application) (k : NodeId) (m : Mem) : Prop :=
  a.node = k ∧ a.rule.action = .load ∧ a.kids[0]?.bind Bound.address? = some m ∨
    ((k, .mem), .mem m) ∈ (a.rule.pattern.leaves g a.node).zip a.kids

/-- **Effects.** An application of a store or a call emits one instruction with a side effect, which does
what the node says; other applications emit none. -/
theorem performs (hcurrent : a.before.code.current < a.before.code.blocks.length)
    (hmatches : a.rule.Matches g a.node) (hskeleton : g.SameSkeleton a.before.forest) :
    if a.rule.action.isEffect then ∃ i, a.code.filter (·.hasSideEffect) = [i] ∧ i.Performs (g.node a.node)
    else ∀ i ∈ a.code, i.hasSideEffect = false := by
  by_cases hphi : a.rule.action = .phiInput
  · rw [if_neg (by simp [hphi, Action.isEffect]), a.code_phiInput hphi]
    exact fun _ hi ↦ absurd hi List.not_mem_nil
  obtain ⟨is, hexpands, hemits, -⟩ := applyRule_expands a.runs hphi
  rw [code_of_instsAt (hemits.instsAt hcurrent)]
  by_cases hstore : a.rule.action = .store
  · rw [if_pos (by rw [hstore]; rfl)]
    obtain ⟨i, rfl, hi, hmnemonic⟩ := (hstore ▸ hexpands).store
    have hop : (g.node a.node).op = .inst .store := by
      rcases (Grammar.tile_store a.rule hmatches.mem hstore).2 with hp | ⟨hp, -⟩ <;>
        exact (Pattern.leaves_of_inst hp hmatches.fits (.refl g)).2.2.2
    refine ⟨i, List.filter_cons_of_pos (Inst.hasSideEffect_of_isStore hi), Or.inl ⟨hop, hi, ?_⟩⟩
    rw [hmnemonic, hskeleton.width]
  by_cases hcall : a.rule.action = .call
  · rw [if_pos (by rw [hcall]; rfl)]
    have hop := (Pattern.leaves_of_inst (Grammar.tile_call a.rule hmatches.mem hcall).2 hmatches.fits
      (.refl g)).2.2.2
    have hcallee : (a.before.forest.node a.node).callee = (g.node a.node).callee :=
      (congrArg Node.callee (hskeleton.node a.node) :)
    exact ⟨_, (hcall ▸ hexpands).call_code, Or.inr ⟨hop, by rw [hcallee]⟩⟩
  · rw [if_neg fun heffect ↦ (Action.of_isEffect heffect).elim hstore hcall]
    exact hexpands.quiet hstore hcall

/-- A load emits code that reads memory, and so does a move from a place in memory. -/
theorem exists_reads (hcurrent : a.before.code.current < a.before.code.blocks.length)
    (haction : a.rule.action = .load ∨ a.rule.action = .loadMem ∧ ∃ m, a.kids = [.mem m]) :
    ∃ i ∈ a.code, i.readsMemory = true ∧ ∃ m, .mem m ∈ i.operands := by
  have hphi : a.rule.action ≠ .phiInput := by rcases haction with h | ⟨h, -⟩ <;> simp [h]
  obtain ⟨is, hexpands, hemits, -⟩ := applyRule_expands a.runs hphi
  rw [code_of_instsAt (hemits.instsAt hcurrent)]
  exact hexpands.exists_reads haction

/-- An operand in memory comes from a leaf that was asked for one. -/
theorem reads_of_kid (hmatches : a.rule.Matches g a.node)
    (hplaced : List.Forall₂ (Placed g) (a.rule.pattern.leaves g a.node) a.kids)
    (harguments : a.rule.action ≠ .arguments)
    (haction : a.rule.action ∉ [.load, .lea, .addrDisp, .memFromAddr, .store]) {idx : Nat} {kid : Bound}
    (hkid : a.kids[idx]? = some kid) (hm : kid.operand? = some (.mem m)) : ∃ k, a.Reads g k m := by
  obtain ⟨leaf, hleaf, hplaced⟩ := exists_getElem?_of_forall₂ hplaced hkid
  have hargs : a.rule.pattern.isArguments = false := Bool.eq_false_iff.mpr fun hargs ↦
    harguments (Grammar.action_of_isArguments a.rule hmatches.mem hargs)
  have hgoal : leaf.2 ∈ a.rule.pattern.goals := by
    rw [← hmatches.leaf_goals hargs]
    exact List.mem_map_of_mem (List.mem_of_getElem? hleaf)
  have hmem : kid = .mem m := by
    refine hplaced.operand? (fun haddr ↦ ?_) (fun hstmt ↦ ?_) hm
    · exact haction (Grammar.asks_addr a.rule hmatches.mem (haddr ▸ hgoal))
    · exact Grammar.goals_rules a.rule hmatches.mem (hstmt ▸ hgoal)
  have hlhs := (hplaced.mem m hmem).1
  refine ⟨leaf.1, Or.inr (List.mem_of_getElem? (i := idx) ?_)⟩
  rw [List.getElem?_zip_eq_some, hleaf, hkid, hmem, ← hlhs]
  exact ⟨rfl, rfl⟩

/-- **Reads.** Code that reads memory does so for a load or an argument. -/
theorem reads_of_code (hmatches : a.rule.Matches g a.node)
    (hplaced : List.Forall₂ (Placed g) (a.rule.pattern.leaves g a.node) a.kids) (hi : i ∈ a.code)
    (hread : i.readsMemory = true) (hm : .mem m ∈ i.operands) : ∃ k, a.Reads g k m := by
  by_cases hphi : a.rule.action = .phiInput
  · rw [a.code_phiInput hphi] at hi
    exact absurd hi List.not_mem_nil
  obtain ⟨is, hexpands, hcode⟩ := a.code_cases hphi
  have hi : i ∈ is := by
    rcases hcode with hcode | hcode <;> rw [hcode] at hi
    · exact hi
    · exact absurd hi List.not_mem_nil
  rcases hexpands.reads hi hread hm with hload | ⟨⟨harguments, haction⟩, kid, hkid, hmem⟩
  · exact ⟨a.node, Or.inl ⟨rfl, hload⟩⟩
  obtain ⟨idx, hidx⟩ := List.mem_iff_getElem?.mp hkid
  have hm : kid.operand? = some (.mem m) := by
    refine hmem.resolve_right ?_
    rintro ⟨bs, rfl, b, hb, hm⟩
    obtain ⟨leaf, -, hplaced⟩ := exists_getElem?_of_forall₂ hplaced hidx
    exact hplaced.args bs rfl b hb m hm
  exact reads_of_kid hmatches hplaced harguments haction hidx hm

/-- An input of a phi that is in memory is read for a load or an argument. -/
theorem reads_of_input (hmatches : a.rule.Matches g a.node)
    (hplaced : List.Forall₂ (Placed g) (a.rule.pattern.leaves g a.node) a.kids)
    (hphi : a.rule.action = .phiInput) (hm : a.kids[0]?.bind Bound.operand? = some (.mem m)) :
    ∃ k, a.Reads g k m := by
  obtain ⟨kid, hkid, hm⟩ := Option.bind_eq_some_iff.mp hm
  exact reads_of_kid hmatches hplaced (by simp [hphi]) (by simp [hphi]) hkid hm

namespace Reads

/-- What is read is pending where the application is. -/
theorem head? (h : a.Reads g k m) (hmatches : a.rule.Matches g a.node)
    (hplaced : List.Forall₂ (Placed g) (a.rule.pattern.leaves g a.node) a.kids) :
    (g.node k).head? = some .arg ∨ (g.node k).head? = some (.inst .load) := by
  rcases h with ⟨rfl, hload, -⟩ | hm
  · obtain ⟨-, -, hcomputed, hop⟩ := Pattern.leaves_of_inst
      (Grammar.tile_load a.rule hmatches.mem hload).2 hmatches.fits (.refl g)
    right
    rw [Node.head?, hcomputed, hop]
    rfl
  · exact ((List.forall₂_iff_zip.mp hplaced).2 hm).mem m rfl |>.2

/-- Stores and calls read no memory themselves. -/
theorem isEffect (h : a.Reads g k m) (hmatches : a.rule.Matches g a.node) :
    a.rule.action.isEffect = false := by
  rcases h with ⟨-, hload, -⟩ | hm
  · rw [hload]
    rfl
  · cases hargs : a.rule.pattern.isArguments with
    | true =>
      rw [Grammar.action_of_isArguments a.rule hmatches.mem hargs]
      rfl
    | false =>
      refine Grammar.isEffect_of_mem a.rule hmatches.mem ?_
      rw [← hmatches.leaf_goals hargs]
      exact List.mem_map_of_mem (List.of_mem_zip hm).1

/-- A load reads its own memory. -/
theorem eq_node (h : a.Reads g k m) (hmatches : a.rule.Matches g a.node)
    (hload : a.rule.action = .load) : k = a.node := by
  rcases h with ⟨hk, -⟩ | hm
  · exact hk.symm
  · obtain ⟨hargs, hgoals⟩ := Grammar.goals_of_load a.rule hmatches.mem hload
    rw [← hmatches.leaf_goals hargs] at hgoals
    exact absurd (List.mem_map_of_mem (List.of_mem_zip hm).1) hgoals

theorem of_sameSkeleton {g₀ : Forest} (hskeleton : g₀.SameSkeleton g) :
    a.Reads g k m ↔ a.Reads g₀ k m := by
  rw [Reads, Reads, Pattern.leaves_of_sameSkeleton _ _ hskeleton]

end Reads

end Application

end TreeCover
