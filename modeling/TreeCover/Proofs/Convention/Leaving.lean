import TreeCover.Proofs.Convention.Runs

/-!
# Leaving a function

A function is left through an epilogue: the saved registers are fetched from their slots, the stack
pointer and the frame pointer are set back, and the return takes what is on top of the stack. What
has been executed of an epilogue is `LeavingFrom`; in front of the return it is all but the last
instruction, and then the registers are those that the function was entered with. So a run is in the
prologue, in the body or in an epilogue at any time: `Reaches.within`.
-/

namespace TreeCover

open Machine Work Assembly

namespace Invocation

variable {r : Invocation} {calls : String → List Operand → Prop} {p q : Stacked} {i : Inst}
  {is rest : List Inst} {x y y' : Point} {name : String} {os : List Operand} {s s' z : Core}
  {c : Callee}

/-! ## Epilogues -/

/-- Control is in an epilogue, of which `k` instructions have been executed from `x` on. -/
structure LeavingFrom (r : Invocation) (x : Core) (k : Nat) (y : Point) : Prop where
  beyond : r.start ≤ y.pc
  small : r.frameBytes < 2 ^ 31
  code : (epilogue r.saves).drop k <+: r.code.drop y.pc
  lt : k < (epilogue r.saves).length
  held : Held r.entry r.bytes r.regs 0 x
  core : Core.executeAll r.callee ((epilogue r.saves).take k) x = some y.core
  mem : y.core.mem = x.mem
  count : r.wordsAt y.pc = 0

/-- The instruction at which control is. -/
theorem LeavingFrom.inst {k : Nat} {x : Core} (h : r.LeavingFrom x k y)
    (hi : r.code[y.pc]? = some i) : (epilogue r.saves)[k]? = some i := by
  obtain ⟨j, hj⟩ : ∃ j, (epilogue r.saves)[k]? = some j := ⟨_, List.getElem?_eq_getElem h.lt⟩
  have hdrop : (epilogue r.saves).drop k = [j] ++ (epilogue r.saves).drop (k + 1) := by
    rw [List.drop_eq_getElem_cons h.lt, ← (List.getElem?_eq_some_iff.mp hj).2]
    rfl
  have hcode := h.code
  rw [hdrop] at hcode
  have hhere := singleton_prefix_drop_iff.mp (append_prefix_drop_iff.mp hcode).1
  rw [hj, ← hhere, hi]

theorem length_epilogue (saves : List Save) : (epilogue saves).length = saves.length + 3 := by
  rw [epilogue, List.length_append, List.length_map, List.length_reverse]
  rfl

/-- An instruction of an epilogue is a restore, or one of the last three. -/
theorem epilogue_cases {saves : List Save} {k : Nat} (h : (epilogue saves)[k]? = some i) :
    (∃ e ∈ saves, i = restoring e ∧ k < saves.length) ∨
      (k = saves.length ∧ i = .define "movq" [.phys .rbp, .phys .rsp]) ∨
      (k = saves.length + 1 ∧ i = .define "popq" [.phys .rbp]) ∨
      (k = saves.length + 2 ∧ i = { mnemonic := "ret", operands := [], kind := .ret }) := by
  have hlength : (saves.reverse.map restoring).length = saves.length := by
    rw [List.length_map, List.length_reverse]
  change (saves.reverse.map restoring ++ _)[k]? = _ at h
  by_cases hk : k < saves.length
  · rw [List.getElem?_append_left (hlength ▸ hk)] at h
    obtain ⟨e, he, rfl⟩ := List.mem_map.mp (List.mem_of_getElem? h)
    exact Or.inl ⟨e, List.mem_reverse.mp he, rfl, hk⟩
  · rw [List.getElem?_append_right (by omega), hlength] at h
    obtain ⟨d, hd⟩ : ∃ d, k = saves.length + d := ⟨k - saves.length, by omega⟩
    subst hd
    rw [Nat.add_sub_cancel_left] at h
    match d, h with
    | 0, h => exact Or.inr (Or.inl ⟨rfl, (Option.some.inj h).symm⟩)
    | 1, h => exact Or.inr (Or.inr (Or.inl ⟨rfl, (Option.some.inj h).symm⟩))
    | 2, h => exact Or.inr (Or.inr (Or.inr ⟨rfl, (Option.some.inj h).symm⟩))
    | d + 3, h => exact absurd h (by simp)

/-- An epilogue neither calls nor pushes, and writes no operand in memory. -/
theorem quiet_of_epilogue {saves : List Save} {k : Nat} (h : (epilogue saves)[k]? = some i) :
    i.mnemonic ≠ "call" ∧ i.mnemonic ≠ "pushq" ∧ ∀ m, i.operands.getLast? ≠ some (.mem m) := by
  rcases epilogue_cases h with ⟨e, -, rfl, -⟩ | ⟨-, rfl⟩ | ⟨-, rfl⟩ | ⟨-, rfl⟩
  · exact ⟨(by decide : "movq" ≠ _), (by decide : "movq" ≠ _), fun m hm ↦ by cases hm⟩
  · exact ⟨(by decide : "movq" ≠ _), (by decide : "movq" ≠ _), fun m hm ↦ by cases hm⟩
  · exact ⟨(by decide : "popq" ≠ _), (by decide : "popq" ≠ _), fun m hm ↦ by cases hm⟩
  · exact ⟨(by decide : "ret" ≠ _), (by decide : "ret" ≠ _), fun m hm ↦ by cases hm⟩

theorem written_epilogue {saves : List Save} {k : Nat} (h : (epilogue saves)[k]? = some i)
    (s : Core) : s.written i = [] := by
  obtain ⟨hcall, hpush, hlast⟩ := quiet_of_epilogue h
  exact Core.written_eq_nil hcall hpush hlast

theorem mem_epilogue {saves : List Save} {k : Nat} (h : (epilogue saves)[k]? = some i)
    (hs : s.execute c i = some s') : s'.mem = s.mem := by
  by_cases hpop : i.mnemonic = "popq"
  · rcases epilogue_cases h with ⟨e, -, rfl, -⟩ | ⟨-, rfl⟩ | ⟨-, rfl⟩ | ⟨-, rfl⟩
    · exact absurd hpop (by decide : "movq" ≠ _)
    · exact absurd hpop (by decide)
    · obtain rfl := Option.some.inj hs
      rfl
    · exact absurd hpop (by decide)
  · obtain ⟨hcall, hpush, -⟩ := quiet_of_epilogue h
    rw [Core.execute_of_ne hpop] at hs
    refine funext fun x ↦ (Core.step_frame hs hcall hpush).2 x fun z hz ↦ ?_
    rw [written_epilogue h] at hz
    exact absurd hz List.not_mem_nil

theorem LeavingFrom.next {k : Nat} {x : Core} (h : r.LeavingFrom x k y)
    (hnext : y.next r.callee r.code = some y') : r.LeavingFrom x (k + 1) y' := by
  obtain ⟨i, hi, -⟩ := Option.bind_eq_some_iff.mp hnext
  have hk := h.inst hi
  have hlength := length_epilogue r.saves
  -- behind a return there is no step
  have hstraight : i.isStraight = true ∧ k + 1 < (epilogue r.saves).length ∧
      i.stackWords 0 = 0 := by
    rcases epilogue_cases hk with ⟨e, -, rfl, hlt⟩ | ⟨rfl, rfl⟩ | ⟨rfl, rfl⟩ | ⟨rfl, rfl⟩
    · have hname : (restoring e).mnemonic ≠ "pushq" := (by decide : "movq" ≠ "pushq")
      refine ⟨rfl, by omega, ?_⟩
      rw [Inst.stackWords, if_neg hname]
      split <;> rfl
    · exact ⟨rfl, by omega, rfl⟩
    · exact ⟨rfl, by omega, rfl⟩
    · obtain ⟨pc, s⟩ := y
      rw [Point.next_ret hi rfl] at hnext
      exact absurd hnext (by simp)
  obtain ⟨hkind, hlt, hwords⟩ := hstraight
  have hs := hnext
  obtain ⟨pc, s⟩ := y
  rw [Point.next_straight hi hkind] at hs
  obtain ⟨s', hs', rfl⟩ := Option.map_eq_some_iff.mp hs
  refine ⟨Nat.le_succ_of_le h.beyond, h.small, ?_, hlt, h.held, ?_,
    (mem_epilogue hk hs').trans h.mem, ?_⟩
  · have hdrop : (epilogue r.saves).drop k = [i] ++ (epilogue r.saves).drop (k + 1) := by
      rw [List.drop_eq_getElem_cons h.lt, (List.getElem?_eq_some_iff.mp hk).2]
      rfl
    have hcode := h.code
    rw [hdrop] at hcode
    exact (append_prefix_drop_iff.mp hcode).2
  · rw [List.take_add_one, hk, Option.toList_some, Core.executeAll_append, h.core, Option.bind_some,
      Core.executeAll_cons, hs', Option.bind_some]
    rfl
  · rw [wordsAt_succ h.beyond hi, h.count, hwords]

/-- What an epilogue has restored before its last two instructions. -/
theorem LeavingFrom.restored {k : Nat} {x : Core} (hr : r.Proper calls) (h : r.LeavingFrom x k y)
    {n : Nat} (hn : n ≤ r.saves.length)
    (hz : Core.executeAll r.callee ((epilogue r.saves).take n) x = some z) :
    z.mem = x.mem ∧ (∀ q, q ∉ r.regs → z.regs (.phys q) = x.regs (.phys q)) ∧
      (n = r.saves.length → ∀ q ∈ r.regs, z.regs (.phys q) = r.entry.regs (.phys q)) := by
  have hregs : r.saves.map (·.1) = r.regs := regs_saveSlots r.bytes r.regs
  have htake : (epilogue r.saves).take n = (r.saves.reverse.take n).map restoring := by
    change (r.saves.reverse.map restoring ++ _).take n = _
    rw [List.take_append_of_le_length (by rwa [List.length_map, List.length_reverse]),
      List.map_take]
  have hmem {e : Save} (he : e ∈ r.saves.reverse.take n) : e ∈ r.saves :=
    List.mem_reverse.mp (List.mem_of_mem_take he)
  rw [htake] at hz
  obtain ⟨hsame, hothers, hwords⟩ := executeAll_restoring hz fun e he ↦ by
    obtain ⟨k, -, hk, hslot⟩ := mem_saveSlots (hmem he)
    exact ⟨fun heq ↦ hr.fits.reserved.2 (heq ▸ List.mem_of_getElem? hk), _, hslot⟩
  refine ⟨hsame, fun q hq ↦ hothers q fun hq' ↦ hq ?_, fun hall q hq ↦ ?_⟩
  · obtain ⟨e, he, rfl⟩ := List.mem_map.mp hq'
    exact hregs ▸ List.mem_map_of_mem (hmem he)
  · rw [← hregs] at hq
    obtain ⟨e, he, rfl⟩ := List.mem_map.mp hq
    have htakeAll : r.saves.reverse.take n = r.saves.reverse :=
      List.take_of_length_le (by rw [List.length_reverse, hall])
    rw [htakeAll] at hwords
    have hnodup : (r.saves.reverse.map (·.1)).Nodup := by
      rw [List.map_reverse, hregs]
      exact List.nodup_reverse.mpr hr.fits.nodup
    rw [hwords hnodup e (List.mem_reverse.mpr he)]
    obtain ⟨q, m⟩ := e
    obtain ⟨k, -, -, rfl⟩ := mem_saveSlots he
    have haddress : x.address (.frame (-(r.bytes + 8 * k : Nat))) =
        inFrame r.entry (-(r.bytes + 8 * k : Nat)) := by
      rw [Core.address_frame, Core.slot, h.held.rbp]
      rfl
    rw [haddress]
    exact h.held.kept (-(r.bytes + 8 * k : Nat), r.entry.regs (.phys q))
      (List.mem_cons_of_mem _ (List.mem_cons_of_mem _ (List.mem_map.mpr ⟨_, he, rfl⟩)))

/-- In front of its last two instructions an epilogue has left the stack alone. -/
theorem LeavingFrom.stack {k : Nat} {x : Core} (hr : r.Proper calls) (h : r.LeavingFrom x k y)
    (hi : r.code[y.pc]? = some i) (hpop : i.mnemonic ≠ "popq") (hret : i.kind ≠ .ret) :
    y.core.regs (.phys .rbp) = x.regs (.phys .rbp) ∧
      y.core.regs (.phys .rsp) = x.regs (.phys .rsp) := by
  have hk : k ≤ r.saves.length := by
    rcases epilogue_cases (h.inst hi) with ⟨e, -, -, hlt⟩ | ⟨rfl, -⟩ | ⟨-, rfl⟩ | ⟨-, rfl⟩
    · exact Nat.le_of_lt hlt
    · exact Nat.le_refl _
    · exact absurd rfl hpop
    · exact absurd rfl hret
  obtain ⟨-, hregs, -⟩ := h.restored hr hk h.core
  exact ⟨hregs _ hr.fits.reserved.2, hregs _ hr.fits.reserved.1⟩

/-- What a caller finds when a function returns. -/
structure Returned (entry s : Core) : Prop where
  rsp : s.regs (.phys .rsp) = entry.regs (.phys .rsp)
  rbp : s.regs (.phys .rbp) = entry.regs (.phys .rbp)
  allocatable : ∀ q ∈ PhysReg.allocatable, s.regs (.phys q) = entry.regs (.phys q)

theorem LeavingFrom.returned {k : Nat} {x : Core} (hr : r.Proper calls) (h : r.LeavingFrom x k y)
    (hi : r.code[y.pc]? = some i) (hret : i.kind = .ret) : Returned r.entry y.core := by
  have hk : k = r.saves.length + 2 := by
    rcases epilogue_cases (h.inst hi) with ⟨e, -, rfl, -⟩ | ⟨-, rfl⟩ | ⟨-, rfl⟩ | ⟨hk, -⟩
    · exact absurd hret (by simp [restoring, Inst.define])
    · exact absurd hret (by simp [Inst.define])
    · exact absurd hret (by simp [Inst.define])
    · exact hk
  have hsplit : (epilogue r.saves).take k = (epilogue r.saves).take r.saves.length ++
      [.define "movq" [.phys .rbp, .phys .rsp], .define "popq" [.phys .rbp]] := by
    have hlength : (r.saves.reverse.map restoring).length = r.saves.length := by
      rw [List.length_map, List.length_reverse]
    change (r.saves.reverse.map restoring ++ _).take k =
      (r.saves.reverse.map restoring ++ _).take r.saves.length ++ _
    rw [hk, ← hlength, List.take_left, List.take_length_add_append]
    rfl
  have hcore := h.core
  rw [hsplit, Core.executeAll_append] at hcore
  obtain ⟨z, hz, hlast⟩ := Option.bind_eq_some_iff.mp hcore
  obtain ⟨hmem, hothers, hrestored⟩ := h.restored hr (Nat.le_refl _) hz
  rw [Core.executeAll_cons, Core.execute_of_ne (by decide : "movq" ≠ _), Core.step_copy rfl rfl,
    Option.bind_some] at hlast
  have hfinal : y.core = (z.setReg (.phys .rsp) (z.regs (.phys .rbp))).pop .rbp :=
    (Option.some.inj hlast).symm
  have hframe : z.regs (.phys .rbp) = base r.entry := by
    rw [hothers _ hr.fits.reserved.2, h.held.rbp]
  refine ⟨?_, ?_, fun q hq ↦ ?_⟩
  · rw [hfinal, Core.pop, Core.regs_setReg_of_ne (by decide), Core.regs_setReg_self,
      Core.regs_setReg_self, hframe, base]
    bv_omega
  · have hword : x.mem.word (inFrame r.entry 0) = r.entry.regs (.phys .rbp) :=
      h.held.kept (0, r.entry.regs (.phys .rbp)) (List.mem_cons_of_mem _ List.mem_cons_self)
    have hzero : inFrame r.entry 0 = base r.entry := BitVec.add_zero _
    rw [hfinal, Core.pop, Core.regs_setReg_self, Core.regs_setReg_self, Core.mem_setReg, hmem, hframe,
      ← hword, hzero]
  · have hne : q ≠ .rsp ∧ q ≠ .rbp :=
      ⟨fun heq ↦ absurd (heq ▸ hq) (by decide), fun heq ↦ absurd (heq ▸ hq) (by decide)⟩
    rw [hfinal, Core.pop, Core.regs_setReg_of_ne (by simpa using hne.2),
      Core.regs_setReg_of_ne (by simpa using hne.1), Core.regs_setReg_of_ne (by simpa using hne.1)]
    by_cases hsaved : q ∈ r.regs
    · exact hrestored rfl q hsaved
    · rw [hothers q hsaved, h.held.unsaved q hq hsaved]

/-! ## Runs -/

/-- Where control is: in the prologue, in the body, or in an epilogue. -/
inductive Within (r : Invocation) (calls : String → List Operand → Prop) (y : Point) : Prop
  | entering (hlt : y.pc < r.start)
    (hcore : Core.executeAll r.callee ((prologue r.frameBytes r.saves).take y.pc) r.entry
      = some y.core)
  | body {p : Stacked} (h : r.InBody p y)
    (hcode : Finished r.allocation r.saves calls p (r.code.drop y.pc) .none)
  | leaving {x : Core} {k : Nat} (h : r.LeavingFrom x k y)

/-- At an instruction of the body control is in front of a step, or in an epilogue. -/
theorem InBody.cases (h : r.InBody p y)
    (hcode : Finished r.allocation r.saves calls p (r.code.drop y.pc) .none)
    (hi : r.code[y.pc]? = some i) :
    (∃ q, FinishedStep r.allocation calls p i q ∧
      Finished r.allocation r.saves calls q (r.code.drop (y.pc + 1)) .none) ∨
    p = .none ∧ r.LeavingFrom y.core 0 y := by
  obtain ⟨hlt, hget⟩ := List.getElem?_eq_some_iff.mp hi
  have hdrop : r.code.drop y.pc = i :: r.code.drop (y.pc + 1) := by
    rw [List.drop_eq_getElem_cons hlt, hget]
  generalize hall : r.code.drop y.pc = code at hcode
  cases hcode with
  | nil => exact absurd (hall.symm.trans hdrop) (by simp)
  | cons hstep hrest =>
    obtain ⟨rfl, rfl⟩ := List.cons.inj (hall.symm.trans hdrop)
    exact Or.inl ⟨_, hstep, hrest⟩
  | ret hrest =>
    refine Or.inr ⟨rfl, h.beyond, h.small, ?_, ?_, h.held, rfl, rfl, h.count⟩
    · rw [hall]
      exact List.prefix_append _ _
    · rw [length_epilogue]
      omega

theorem Within.next (hr : r.Proper calls) (hrespects : r.Respects) (hreach : r.Reaches y)
    (h : r.Within calls y) (hnext : y.next r.callee r.code = some y') : r.Within calls y' := by
  cases h with
  | entering hlt hcore =>
    obtain ⟨rest, hcode, hfinished⟩ := hr.code
    have hlength := r.length_prologue
    obtain ⟨i, hi⟩ : ∃ i, (prologue r.frameBytes r.saves)[y.pc]? = some i :=
      ⟨_, List.getElem?_eq_getElem (hlength.symm ▸ hlt)⟩
    have hi' : r.code[y.pc]? = some i := by
      rw [hcode, List.getElem?_append_left (hlength.symm ▸ hlt), hi]
    have hstraight := prologue_straight _ _ i (List.mem_of_getElem? hi)
    obtain ⟨pc, s⟩ := y
    rw [Point.next_straight hi' hstraight] at hnext
    obtain ⟨s', hs', rfl⟩ := Option.map_eq_some_iff.mp hnext
    have hexecuted : Core.executeAll r.callee ((prologue r.frameBytes r.saves).take (pc + 1)) r.entry
        = some s' := by
      rw [List.take_add_one, hi, Option.toList_some, Core.executeAll_append, hcore, Option.bind_some,
        Core.executeAll_cons, hs', Option.bind_some]
      rfl
    by_cases hlast : pc + 1 < r.start
    · exact .entering hlast hexecuted
    · have hpc : pc + 1 = r.start := Nat.le_antisymm hlt (Nat.le_of_not_lt hlast)
      rw [hpc, ← hlength, List.take_length] at hexecuted
      have hentered := entered_of_prologue hr.fits.bytes hr.frame hr.fits.reserved hexecuted
      have hdrop : r.code.drop (pc + 1) = rest := by
        rw [hpc, hcode, ← hlength, List.drop_left]
      refine .body (p := .none) ⟨Nat.le_of_eq hpc.symm, hentered.small, hentered.held, ?_,
        Nat.zero_le _, fun k o ho ↦ absurd ho (by simp [Stacked.none, Stacked.holding])⟩
        (by rw [hdrop]; exact hfinished)
      rw [wordsAt]
      have hempty : (r.code.take (pc + 1)).drop r.start = [] := by
        rw [hpc, List.drop_eq_nil_iff, List.length_take]
        omega
      dsimp only
      rw [hempty]
      rfl
  | body h hcode =>
    obtain ⟨i, hi, -⟩ := Option.bind_eq_some_iff.mp hnext
    rcases h.cases hcode hi with ⟨q, hstep, hrest⟩ | ⟨-, hleaving⟩
    · obtain ⟨q, hbody, hrest⟩ := h.next hr hrespects hreach hi hstep hrest hnext
      exact .body hbody hrest
    · exact .leaving (hleaving.next hnext)
  | leaving h => exact .leaving (h.next hnext)

/-- **Runs.** Wherever control gets from the first instruction on, it is within the function. -/
theorem Reaches.within (hr : r.Proper calls) (hrespects : r.Respects) (h : r.Reaches y) :
    r.Within calls y := by
  obtain ⟨n, v, hv⟩ := h
  have hinduct : ∀ {n x v y}, Steps r.callee r.code n x v y → r.Reaches x → r.Within calls x →
      r.Within calls y := by
    intro n x v y hv
    induction hv with
    | refl => exact fun _ h ↦ h
    | head hnext _ ih =>
      exact fun hx hwithin ↦ ih (hx.next hnext) (hwithin.next hr hrespects hx hnext)
  refine hinduct hv ⟨0, [], .refl _⟩ (.entering ?_ rfl)
  change 0 < 3 + r.regs.length
  omega

end Invocation

end TreeCover
