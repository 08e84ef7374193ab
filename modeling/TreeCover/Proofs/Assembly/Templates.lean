import TreeCover.Proofs.Assembly.Placeable

/-!
# Templates

The instructions that one action emits are a template, filled in with the results of a rule's leaves.
All addresses in these results start from virtual registers or from the frame pointer, and so do
those in the result of the action. Hence each instruction of a template can be placed where it stands,
which keeps its meaning.
-/

namespace TreeCover

open Machine Core Work

variable {a : Allocation} {vs : List VReg} {live : VReg → Nat} {s s' p p' : Core} {c : Callee}
  {o : Operand} {i : Inst} {is js : List Inst} {v : VReg} {w : Word} {m : Mem}

/-! ## Addresses of the frame -/

/-- An address in which the frame pointer is the only physical register. -/
def Machine.Mem.Framed (m : Mem) : Prop := ∀ q, .phys q ∈ m.regs → q = .rbp

theorem Machine.Mem.Framed.plain (h : m.Framed) : (Operand.mem m).Plain := by
  intro q hq
  rw [h q hq]
  decide

theorem Machine.Mem.framed_frame (d : Int) : (Mem.frame d).Framed := by
  simp [Mem.Framed, Mem.frame, Mem.based, Mem.regs]

theorem Machine.Mem.framed_based (v : VReg) (d : Int) : (Mem.based (.virt v) d).Framed := by
  simp [Mem.Framed, Mem.based, Mem.regs]

/-- The addresses in a result. -/
def Bound.mems : Bound → List Mem
  | mem m | addr m => [m]
  | args bs => bs.flatMap mems
  | _ => []

/-- A result whose addresses name no physical register but the frame pointer. -/
def Bound.Framed (b : Bound) : Prop := ∀ m ∈ b.mems, m.Framed

namespace Bound

variable {b : Bound} {bs : List Bound}

theorem framed_mem : (mem m).Framed ↔ m.Framed := by simp [Framed, mems]

theorem framed_addr : (addr m).Framed ↔ m.Framed := by simp [Framed, mems]

theorem framed_args : (args bs).Framed ↔ ∀ b ∈ bs, b.Framed := by
  simp only [Framed, mems, List.mem_flatMap]
  exact ⟨fun h b hb m hm ↦ h m ⟨b, hb, hm⟩, fun h m ⟨b, hb, hm⟩ ↦ h b hb m hm⟩

theorem framed_reg : (reg v).Framed := by simp [Framed, mems]

theorem framed_imm : (imm w).Framed := by simp [Framed, mems]

theorem framed_none : Bound.none.Framed := by simp [Framed, mems]

theorem Framed.address (h : b.Framed) (hm : b.address? = some m) : m.Framed := by
  cases b with
  | mem m' =>
    obtain rfl := Option.some.inj hm
    exact framed_mem.mp h
  | addr m' =>
    obtain rfl := Option.some.inj hm
    exact framed_addr.mp h
  | reg v =>
    obtain rfl := Option.some.inj hm
    exact Mem.framed_based v 0
  | _ => exact absurd hm (by simp [address?])

theorem Framed.operand (h : b.Framed) (ho : b.operand? = some o) : o.Source := by
  cases b with
  | mem m =>
    obtain rfl := Option.some.inj ho
    exact ⟨(framed_mem.mp h).plain, rfl⟩
  | addr m =>
    obtain rfl := Option.some.inj ho
    exact ⟨(framed_addr.mp h).plain, rfl⟩
  | reg v =>
    obtain rfl := Option.some.inj ho
    exact Operand.source_vreg
  | imm w =>
    obtain rfl := Option.some.inj ho
    exact Operand.source_imm
  | _ => exact absurd ho (by simp [operand?])

end Bound

/-! ## Templates -/

/-- The mnemonics of an action are those that the grammar uses. -/
def Action.isKnown : Action → Bool
  | .binary mnemonic => mnemonic ∈ Inst.binaryMnemonics
  | .shift mnemonic | .shiftByReg mnemonic => mnemonic ∈ Inst.shiftMnemonics
  | _ => true

theorem Grammar.isKnown : ∀ r ∈ Grammar.rules, r.action.isKnown = true := by decide

section Expansion

variable {node : Node} {frame : Frame} {kids : List Bound} {action : Action} {b : Bound}

theorem framed_kid (hkids : ∀ b ∈ kids, b.Framed) {idx : Nat}
    (hm : kids[idx]?.bind Bound.address? = some m) : m.Framed := by
  obtain ⟨b, hb, hm⟩ := Option.bind_eq_some_iff.mp hm
  exact (hkids b (List.mem_of_getElem? hb)).address hm

theorem source_kid (hkids : ∀ b ∈ kids, b.Framed) {idx : Nat}
    (ho : kids[idx]?.bind Bound.operand? = some o) : o.Source := by
  obtain ⟨b, hb, ho⟩ := Option.bind_eq_some_iff.mp ho
  exact (hkids b (List.mem_of_getElem? hb)).operand ho

theorem sources_args {args : List Bound} {os : List Operand} (hargs : ∀ b ∈ args, b.Framed)
    (hos : List.Forall₂ (fun b o ↦ b.operand? = some o) args os) : ∀ o ∈ os, o.Source := by
  induction hos with
  | nil => exact fun o ho ↦ absurd ho List.not_mem_nil
  | cons hbo _ ih =>
    rw [List.forall_mem_cons] at hargs ⊢
    exact ⟨hargs.1.operand hbo, ih hargs.2⟩

/-- The instructions of an action can be placed, and its result is framed again. -/
theorem Expands.placeable (h : Expands node frame kids v action is b)
    (hknown : action.isKnown = true) (hkids : ∀ b ∈ kids, b.Framed)
    (hslot : ∀ m, node.slot = .mem m → m.Framed) (hframe : frame.Addressed) :
    AllPlaceable is ∧ b.Framed := by
  have hmem : ∀ {idx : Nat} {m : Mem}, kids[idx]? = some (.mem m) → m.Framed := fun h ↦
    framed_kid hkids (by rw [h]; rfl)
  cases h with
  | immediate => exact ⟨trivial, Bound.framed_imm⟩
  | register => exact ⟨trivial, Bound.framed_reg⟩
  | memory h => exact ⟨trivial, Bound.framed_mem.mpr (hslot _ h)⟩
  | label => exact ⟨trivial, by simp [Bound.Framed, Bound.mems]⟩
  | nothing => exact ⟨trivial, Bound.framed_none⟩
  | discard => exact ⟨trivial, Bound.framed_none⟩
  | loadImm =>
    exact ⟨.of_settled (List.forall_mem_singleton.mpr Inst.settled_loadConstant), Bound.framed_reg⟩
  | loadMemReg => exact ⟨trivial, Bound.framed_reg⟩
  | loadMem h =>
    exact ⟨.of_settled (List.forall_mem_singleton.mpr (Inst.settled_moveTo ⟨(hmem h).plain, rfl⟩)),
      Bound.framed_reg⟩
  | leaBase => exact ⟨trivial, Bound.framed_reg⟩
  | lea h =>
    exact ⟨.of_settled (List.forall_mem_singleton.mpr (Inst.settled_lea (framed_kid hkids h).plain)),
      Bound.framed_reg⟩
  | addrBase h => exact ⟨trivial, Bound.framed_addr.mpr (framed_kid hkids h)⟩
  | setCond =>
    refine ⟨.of_settled (List.forall_mem_cons.mpr ⟨Inst.settled_set _,
      List.forall_mem_singleton.mpr (Inst.settled_extend (n := 1) ?_ ?_ rfl Operand.source_reg)⟩),
      Bound.framed_reg⟩
    · decide
    · decide
  | fold => exact ⟨trivial, Bound.framed_imm⟩
  | frameSlot =>
    obtain ⟨d, hd⟩ := (hframe.request _ _).1
    exact ⟨trivial, Bound.framed_addr.mpr (hd ▸ Mem.framed_frame d)⟩
  | addrDisp hm => exact ⟨trivial, Bound.framed_addr.mpr fun q hq ↦ framed_kid hkids hm q hq⟩
  | addrIndex | addrScaled =>
    exact ⟨trivial, Bound.framed_addr.mpr (by simp [Mem.Framed, indexedAddress, Mem.regs])⟩
  | memFromAddr h => exact ⟨trivial, Bound.framed_mem.mpr (framed_kid hkids h)⟩
  | load h =>
    exact ⟨.of_settled (List.forall_mem_singleton.mpr
      (Inst.settled_load _ (framed_kid hkids h).plain)), Bound.framed_reg⟩
  | storeReg _ hm | storeImm _ hm =>
    have hbytes : ∀ bits, accessBytes bits ∈ [1, 2, 4, 8] := by
      intro bits
      rw [accessBytes]
      split
      next => decide
      next => split <;> [decide; (split <;> decide)]
    exact ⟨.of_settled (List.forall_mem_singleton.mpr (Inst.settled_store (hbytes _)
      ⟨trivial, rfl⟩ rfl (framed_kid hkids hm).plain)), Bound.framed_none⟩
  | binary _ hrhs =>
    refine ⟨.of_settled (List.forall_mem_cons.mpr ⟨Inst.settled_moveTo Operand.source_vreg,
      List.forall_mem_singleton.mpr (Inst.settled_binary ?_ (source_kid hkids hrhs))⟩),
      Bound.framed_reg⟩
    exact of_decide_eq_true hknown
  | mulImm =>
    exact ⟨.of_settled (List.forall_mem_singleton.mpr Inst.settled_mulImm), Bound.framed_reg⟩
  | divide => exact ⟨Inst.allPlaceable_division, Bound.framed_reg⟩
  | shift =>
    refine ⟨.of_settled (List.forall_mem_cons.mpr ⟨Inst.settled_moveTo Operand.source_vreg,
      List.forall_mem_singleton.mpr (Inst.settled_shift ?_ Operand.source_imm rfl)⟩),
      Bound.framed_reg⟩
    exact of_decide_eq_true hknown
  | shiftByReg =>
    have hrcx : (Operand.reg (.phys .rcx) 1).Source :=
      ⟨(by decide : PhysReg.rcx ∈ .rax :: PhysReg.shared), rfl⟩
    refine ⟨.of_settled (List.forall_mem_cons.mpr ⟨Inst.settled_shiftAmount,
      List.forall_mem_cons.mpr ⟨Inst.settled_moveTo Operand.source_vreg,
        List.forall_mem_singleton.mpr (Inst.settled_shift ?_ hrcx rfl)⟩⟩), Bound.framed_reg⟩
    exact of_decide_eq_true hknown
  | compare _ hrhs =>
    refine ⟨.of_settled (List.forall_mem_singleton.mpr
      (Inst.settled_compare (by decide) (source_kid hkids hrhs))),
      by simp [Bound.Framed, Bound.mems]⟩
  | extendWhole => exact ⟨trivial, Bound.framed_reg⟩
  | signExtend | zeroExtend => exact ⟨.of_settled (Inst.settled_extendInsts _ _), Bound.framed_reg⟩
  | rename => exact ⟨trivial, Bound.framed_reg⟩
  | jump =>
    exact ⟨.of_settled (List.forall_mem_singleton.mpr (Inst.settled_jumpTo _)), Bound.framed_none⟩
  | @branchCond p l l' =>
    have hformed : formOf (jumpMnemonic p) 1 = none := by cases p <;> rfl
    exact ⟨.of_settled (List.forall_mem_cons.mpr ⟨Inst.settled_branchTo hformed l,
      List.forall_mem_singleton.mpr (Inst.settled_jumpTo l')⟩), Bound.framed_none⟩
  | @branchTest u l l' =>
    refine ⟨.of_settled (List.forall_mem_cons.mpr ⟨Inst.settled_compare ?_ Operand.source_vreg,
      List.forall_mem_cons.mpr ⟨Inst.settled_branchTo rfl l,
        List.forall_mem_singleton.mpr (Inst.settled_jumpTo l')⟩⟩), Bound.framed_none⟩
    decide
  | retVoid => exact ⟨⟨fun h ↦ absurd h (by simp), trivial⟩, Bound.framed_none⟩
  | retImm =>
    exact ⟨⟨fun _ ↦ Inst.placeable_constantToRax, fun h ↦ absurd h (by simp), trivial⟩,
      Bound.framed_none⟩
  | ret h =>
    exact ⟨⟨fun _ ↦ Inst.placeable_toRax (source_kid hkids h), fun h ↦ absurd h (by simp), trivial⟩,
      Bound.framed_none⟩
  | arguments => exact ⟨trivial, Bound.framed_args.mpr hkids⟩
  | callVoid h hos | call h hos =>
    have hargs := sources_args (Bound.framed_args.mp (hkids _ (List.mem_of_getElem? h))) hos
    first
      | exact ⟨allPlaceable_call hargs _, Bound.framed_none⟩
      | exact ⟨allPlaceable_call hargs _, Bound.framed_reg⟩
  | phiInput => exact ⟨trivial, Bound.framed_none⟩

end Expansion

/-! ## Placing what an action emits -/

namespace Placement

/-- An instruction that can be placed where it stands does on the machine what it does with virtual
registers. -/
theorem placeable_ok (hi : i.Placeable (Inst.carriesRax is)) (hplaces : a.Places vs)
    (hknown : ∀ u, u ∈ i.uses ∨ u ∈ i.defs → u ∈ vs)
    (hdistinct : ∀ t ∈ i.defs, ∀ u ∈ vs, 0 < live u → u ≠ t → a.location? u ≠ a.location? t)
    (hmirrors : a.Mirrors vs (i.need live) (Inst.carriesRax (i :: is)) s p)
    (hclear : ∀ z ∈ s.accesses i, ∀ x, Memory.InBytes z.1 z.2 x →
      ¬ a.Hides vs (p.regs (.phys .rbp)) x)
    (hcallee : i.kind = .call → c.BlindTo (a.Hides vs (p.regs (.phys .rbp))))
    (hstep : s.step c i = some s') :
    ∃ ps p', inst a i = .ok ps ∧ p.run c ps = some p' ∧
      a.Mirrors vs live (Inst.carriesRax is) s' p' ∧ a.Spares vs i.defs p p' := by
  have hreads : i.readsRax = true → Inst.carriesRax (i :: is) = true := fun h ↦ by
    rw [Inst.carriesRax, h, Bool.true_or]
  have hpast : i.writesRax = false → Inst.carriesRax is = true →
      Inst.carriesRax (i :: is) = true := fun hwrites hcarries ↦ by
    rw [Inst.carriesRax, hwrites, hcarries]
    simp
  cases hi with
  | rewritten hcall hpush hform hfree hwrites =>
    have hsetting : Setting a vs live (Inst.carriesRax (i :: is)) (Inst.carriesRax is) i s p := by
      refine ⟨hplaces, hknown, hdistinct, hmirrors, hclear, hreads, fun hcarries ↦ ?_, hfree⟩
      cases hw : i.writesRax with
      | false => exact Or.inl (hpast hw hcarries)
      | true => exact (hwrites hw).imp_left hreads
    have hformed := hstep
    rw [step_of_plain hcall hpush] at hformed
    obtain ⟨form, hformed, -⟩ := Option.bind_eq_some_iff.mp hformed
    exact hsetting.inst_ok (hform form hformed) hstep
  | push o hi ho =>
    subst hi
    have hcarries : Inst.carriesRax is = true → Inst.carriesRax (.push o :: is) = true := hpast rfl
    have hsetting : Setting a vs live (Inst.carriesRax (.push o :: is)) (Inst.carriesRax is)
        (.push o) s p := by
      refine ⟨hplaces, hknown, hdistinct, hmirrors, hclear, hreads, fun h ↦ Or.inl (hcarries h),
        fun hmay ↦ ?_⟩
      have hfew : [o].countP Operand.mayBeMem ≤ 1 := List.countP_le_length
      rw [Inst.mayUseRax, Inst.push, decide_eq_false (Nat.not_lt.mpr hfew)] at hmay
      exact absurd hmay (by simp)
    exact hsetting.push_ok ho hcarries hstep
  | call name hi =>
    subst hi
    have hsetting : Setting a vs live (Inst.carriesRax (.call name :: is)) false (.call name) s p :=
      ⟨hplaces, hknown, hdistinct, hmirrors, hclear, hreads, fun h ↦ absurd h Bool.false_ne_true,
        fun _ ↦ rfl⟩
    obtain ⟨ps, p', hps, hrun, hmirrors', hspares⟩ := hsetting.call_ok (hcallee rfl) hstep
    exact ⟨ps, p', hps, hrun, hmirrors'.mono (fun _ _ ↦ Nat.le_refl _) fun _ ↦ rfl, hspares⟩

end Placement

theorem Emits.insts {w w' : Workspace} (h : Emits w w' is) :
    w'.code.blocks.map (·.insts) = (w.code.blocks.map (·.insts)).modify w.code.current (· ++ is) := by
  rw [h.blocks]
  refine List.ext_getElem? fun c ↦ ?_
  rw [List.getElem?_modify, List.getElem?_map, List.getElem?_map, List.getElem?_modify]
  cases w.code.blocks[c]? with
  | none => rfl
  | some b => split <;> rfl

theorem Machine.Code.insts_addPhiInput (code : Code) (succ : Nat) (dst : VReg) (value : Operand) :
    (code.addPhiInput succ dst value).blocks.map (·.insts) = code.blocks.map (·.insts) := by
  refine List.ext_getElem? fun c ↦ ?_
  rw [Code.addPhiInput, Code.updateBlock, List.getElem?_map, List.getElem?_map,
    List.getElem?_modify]
  cases code.blocks[c]? with
  | none => rfl
  | some b => split <;> rfl

/-- **Placing instructions.** The instructions that a rule's action appends to the current block keep
their meaning when their registers are placed, jumps and returns apart.

Let every virtual register of `vs` have its home, a register that holds values or a slot of its own,
and let `live` say how many of its bytes are needed after an instruction `i`. If no register that is
needed then has the place that `i` writes, and no memory that `i` names is a slot, then from states
that mirror each other the instructions in place of `i` do what `i` does: every register that is
needed has its new value in its place, memory, flags, `rcx`, `rdx` and the stack are as `i` leaves
them, and so is `rax` whenever it carries a value to a later instruction of the action. No other home
changes. -/
theorem applyRule_placed {r : Rule} {id : NodeId} {kids : List Bound} {b : Bound}
    {w w' : Workspace} (hr : r ∈ Grammar.rules) (hkids : ∀ b ∈ kids, b.Framed)
    (hslot : ∀ m, (w.forest.node id).slot = .mem m → m.Framed) (hframe : w.code.frame.Addressed)
    (h : applyRule r id kids w = .ok b w') :
    ∃ is, w'.code.blocks.map (·.insts)
        = (w.code.blocks.map (·.insts)).modify w.code.current (· ++ is) ∧ b.Framed ∧
      ∀ before i after, is = before ++ i :: after → i.kind = .plain ∨ i.kind = .call →
        ∀ (a : Allocation) (vs : List VReg) (live : VReg → Nat) (c : Callee) (s s' p : Core),
          a.Places vs → (∀ u, u ∈ i.uses ∨ u ∈ i.defs → u ∈ vs) →
          (∀ t ∈ i.defs, ∀ u ∈ vs, 0 < live u → u ≠ t → a.location? u ≠ a.location? t) →
          a.Mirrors vs (i.need live) (Inst.carriesRax (i :: after)) s p →
          (∀ z ∈ s.accesses i, ∀ x, Memory.InBytes z.1 z.2 x →
            ¬ a.Hides vs (p.regs (.phys .rbp)) x) →
          (i.kind = .call → c.BlindTo (a.Hides vs (p.regs (.phys .rbp)))) →
          s.step c i = some s' →
          ∃ ps p', Placement.inst a i = .ok ps ∧ p.run c ps = some p' ∧
            a.Mirrors vs live (Inst.carriesRax after) s' p' ∧ a.Spares vs i.defs p p' := by
  have hresult : ∃ is, w'.code.blocks.map (·.insts)
      = (w.code.blocks.map (·.insts)).modify w.code.current (· ++ is) ∧ AllPlaceable is ∧
        b.Framed := by
    by_cases hphi : r.action = .phiInput
    · obtain ⟨owner, succ, dst, value, -, -, -, rfl, rfl⟩ := applyRule_phiInput hphi h
      refine ⟨[], ?_, trivial, Bound.framed_none⟩
      rw [w.code.insts_addPhiInput]
      simp only [List.append_nil]
      exact (List.modify_id _ _).symm
    · obtain ⟨is, hexpands, hemits, -⟩ := applyRule_expands h hphi
      obtain ⟨hall, hb⟩ := hexpands.placeable (Grammar.isKnown r hr) hkids hslot hframe
      exact ⟨is, hemits.insts, hall, hb⟩
  obtain ⟨is, hinsts, hall, hb⟩ := hresult
  refine ⟨is, hinsts, hb, fun before i after his hkind a vs live c s s' p hplaces hknown hdistinct
    hmirrors hclear hcallee hstep ↦ ?_⟩
  subst his
  exact Placement.placeable_ok (hall.of_append hkind) hplaces hknown hdistinct hmirrors hclear hcallee
    hstep

/-! ## An addition in the frame -/

/-- A function of one register, in which the next one is drawn. -/
def sumWorkspace : Workspace where
  code := { name := "sum", blocks := [{ id := 0, succs := [] }], vregs := 1 }
  session := {}

/-- Both registers of the addition live in the frame. -/
def sumPlaces : Allocation where
  decisions := [.spill 0 (.frame (-16)) true, .spill 1 (.frame (-24)) true]

/-- A frame at address 4096 in empty memory. -/
def sumState : Core where
  regs r := if r = .phys .rbp then 4096 else 0
  mem _ := 0
  flags := default

/-- A callee that does nothing. -/
def idleCallee : Callee where
  mem _ _ m := m
  regs _ _ _ _ := 0
  flags _ _ _ := default

/-- The addition of a word of the frame to a register in the frame goes through `rax`. -/
theorem sum_placed :
    ∃ b w' s' ps p', applyRule ⟨"add_mem", .reg, Grammar.bin .add .reg .mem, 2, none,
        .binary "addq"⟩ 0 [.reg 0, .mem (.frame (-8))] sumWorkspace = .ok b w' ∧
      sumState.step idleCallee (.update "addq" [.mem (.frame (-8)), .vreg 1]) = some s' ∧
      Placement.inst sumPlaces (.update "addq" [.mem (.frame (-8)), .vreg 1]) = .ok ps ∧
      sumState.run idleCallee ps = some p' ∧
      sumPlaces.Mirrors [0, 1] (fun u ↦ if u = 1 then 8 else 0) false s' p' := by
  have hkids : ∀ b ∈ [Bound.reg 0, .mem (.frame (-8))], b.Framed := by
    simp [Bound.framed_reg, Bound.framed_mem, Mem.framed_frame]
  obtain ⟨is, hinsts, -, hplaced⟩ := applyRule_placed (List.mem_of_getElem? (i := 27) rfl) hkids
    (fun m hm ↦ absurd hm (by simp [sumWorkspace, Forest.node])) (fun s hs ↦ absurd hs List.not_mem_nil)
    (rfl : applyRule ⟨"add_mem", .reg, Grammar.bin .add .reg .mem, 2, none, .binary "addq"⟩ 0
      [.reg 0, .mem (.frame (-8))] sumWorkspace = .ok _ _)
  have his : is = [moveTo 1 (.vreg 0)] ++ .update "addq" [.mem (.frame (-8)), .vreg 1] :: [] := by
    have hhead := congrArg List.head? hinsts
    exact (Option.some.inj hhead).symm
  have hslot : ∀ u ∈ [0, 1], sumPlaces.location? u = some (.stack (.frame (-16 - 8 * (u : Int)))) ∧
      sumState.content (.stack (.frame (-16 - 8 * (u : Int)))) = 0 ∧
      IsDisplacement (-16 - 8 * (u : Int)) := by
    simp only [List.forall_mem_cons, List.not_mem_nil, false_imp_iff, implies_true, and_true]
    exact ⟨⟨rfl, rfl, by decide⟩, rfl, rfl, by decide⟩
  have hdisp : ∀ u ∈ [0, 1], ∀ d, sumPlaces.location? u = some (.stack (.frame d)) →
      d = -16 - 8 * (u : Int) := by
    intro u hu d hd
    rw [(hslot u hu).1, Option.some.injEq, Location.stack.injEq] at hd
    exact (congrArg Mem.disp hd).symm
  have hplaces : sumPlaces.Places [0, 1] := by
    refine ⟨fun v hv ↦ ⟨_, (hslot v hv).1, _, rfl, (hslot v hv).2.2⟩, ?_⟩
    intro u hu v hv huv d e hd he
    rw [hdisp u hu d hd, hdisp v hv e he]
    simp only [List.mem_cons, List.not_mem_nil, or_false] at hu hv
    rcases hu with rfl | rfl <;> rcases hv with rfl | rfl
    · exact absurd rfl huv
    · exact Or.inr (by decide)
    · exact Or.inl (by decide)
    · exact absurd rfl huv
  have hmirrors : ∀ need carried, sumPlaces.Mirrors [0, 1] need carried sumState sumState := by
    intro need carried
    refine ⟨fun u hu l hl ↦ ?_, fun _ _ ↦ rfl, fun _ ↦ rfl, fun _ _ ↦ rfl, rfl⟩
    obtain rfl := Option.some.inj (hl.symm.trans (hslot u hu).1)
    rw [(hslot u hu).2.1]
    exact fun _ _ ↦ rfl
  have hclear : ∀ x, Memory.InBytes (4088 : Word) 8 x → ¬ sumPlaces.Hides [0, 1] 4096 x := by
    rintro x hx ⟨u, hu, d, hd, hin⟩
    have hapart : ∀ u ∈ [(0 : Nat), 1], Memory.Apart (4088 : Word)
        (4096 + BitVec.ofInt 64 (-16 - 8 * (u : Int))) := by
      simp only [List.forall_mem_cons, List.not_mem_nil, false_imp_iff, implies_true, and_true]
      exact ⟨⟨by decide, by decide⟩, by decide, by decide⟩
    rw [hdisp u hu d hd] at hin
    exact (hapart u hu).not_inBytes hx hin
  have hdefs : (Inst.update "addq" [.mem (.frame (-8)), .vreg 1]).defs = [1] := rfl
  have huses : (Inst.update "addq" [.mem (.frame (-8)), .vreg 1]).uses = [1] := rfl
  have hclear' : ∀ z ∈ sumState.accesses (.update "addq" [.mem (.frame (-8)), .vreg 1]),
      ∀ x, Memory.InBytes z.1 z.2 x → ¬ sumPlaces.Hides [0, 1] (sumState.regs (.phys .rbp)) x := by
    intro z hz
    have hz : z ∈ [((4088 : Word), 8)] := hz
    obtain rfl := List.mem_singleton.mp hz
    exact hclear
  obtain ⟨ps, p', hps, hrun, hmirrors', -⟩ := hplaced _ _ _ his (Or.inl rfl) sumPlaces [0, 1]
    (fun u ↦ if u = 1 then 8 else 0) idleCallee sumState _ sumState hplaces
    (by rw [hdefs, huses]; simp) (by rw [hdefs]; simp) (hmirrors _ _) hclear'
    (fun h ↦ absurd h (by decide)) rfl
  exact ⟨_, _, _, ps, p', rfl, rfl, hps, hrun, hmirrors'⟩

end TreeCover
