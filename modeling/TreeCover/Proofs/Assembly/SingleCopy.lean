import TreeCover.Proofs.Assembly.Places

/-!
# A single copy

A copy on an edge loads what its address needs into `r10` and `r11` and then writes one place, by
way of `rax` if both ends are in memory. Its effect is that of one assignment between places, with
one exception: the load of an index overwrites `r11`, so a base that is taken from there is read
after that load.
-/

namespace TreeCover

open Machine

variable {a : Allocation} {s s' : State} {vs : List VReg} {v u : VReg} {w x : Word} {r : Reg}
  {src : Operand}

/-- The registers that a copy may use on its way. -/
def scratchRegs : List PhysReg := [.valueScratch, .baseScratch, .indexScratch]

/-- Writing `w` to the place of `v` leads from `s` to `s'`, up to the scratch registers. -/
structure Wrote (a : Allocation) (v : VReg) (w : Word) (s s' : State) : Prop where
  value : a.valueIn s' (.virt v) = some w
  regs : ∀ r ∉ scratchRegs, a.location? v ≠ some (.register r) → s'.regs r = s.regs r
  mem : ∀ x, (∀ d, a.location? v = some (.stack (.frame d)) →
    ¬ Memory.InBytes (slotAddress s d) 8 x) → s'.mem x = s.mem x
  flags : s'.flags = s.flags

theorem not_mem_scratchRegs {r : PhysReg} (h : r ∈ PhysReg.allocatable) : r ∉ scratchRegs := by
  revert h
  cases r <;> decide

theorem rbp_not_mem_allocatable : PhysReg.rbp ∉ PhysReg.allocatable := by decide

theorem Allocation.Places.location_ne_rbp (h : a.Places vs) (hv : v ∈ vs) :
    a.location? v ≠ some (.register .rbp) := by
  intro heq
  rcases h.cases hv with ⟨r, hr, hl⟩ | ⟨d, hl, -⟩
  · rw [heq, Option.some.injEq, Location.register.injEq] at hl
    rw [← hl] at hr
    exact rbp_not_mem_allocatable hr
  · rw [heq] at hl
    exact absurd hl (by simp)

theorem Wrote.rbp (h : Wrote a v w s s') (hp : a.Places vs) (hv : v ∈ vs) :
    s'.regs .rbp = s.regs .rbp := h.regs .rbp (by decide) (hp.location_ne_rbp hv)

/-- Writing one place leaves all other places as they are. -/
theorem Wrote.valueIn_of_ne (h : Wrote a v w s s') (hp : a.Places vs) (hv : v ∈ vs) (hu : u ∈ vs)
    (hne : a.location? u ≠ a.location? v) : a.valueIn s' (.virt u) = a.valueIn s (.virt u) := by
  rcases hp.cases hu with ⟨r, hr, hl⟩ | ⟨d, hl, -⟩
  · rw [Allocation.valueIn_of_register hl, Allocation.valueIn_of_register hl,
      h.regs r (not_mem_scratchRegs hr) fun heq ↦ hne (hl.trans heq.symm)]
  · have hslot : slotAddress s' d = slotAddress s d := by
      rw [slotAddress, slotAddress, h.rbp hp hv]
    rw [Allocation.valueIn_of_slot hl, Allocation.valueIn_of_slot hl, hslot]
    refine congrArg some (Memory.word_congr fun x hx ↦ h.mem x fun e he ↦ ?_)
    exact (hp.apart_slots hu hv hne hl he).not_inBytes hx

/-! ## Sources -/

/-- A register that a source may mention while copies are made: one of `vs`, the frame pointer, or
`r11` in place of one that was parked there. -/
def IsPart (vs : List VReg) : Reg → Prop
  | .virt v => v ∈ vs
  | .phys r => r = .rbp ∨ r = .indexScratch

/-- A source of a copy while copies are made. -/
def IsCopySource (vs : List VReg) : Operand → Prop
  | .imm _ => True
  | .reg r width => width = 8 ∧ IsPart vs r
  | .mem m => ∀ r ∈ m.regs, IsPart vs r
  | _ => False

theorem IsCopySource.part (h : IsCopySource vs src) (hr : r ∈ src.regs) : IsPart vs r := by
  cases src with
  | reg r' width =>
    obtain rfl := List.mem_singleton.mp hr
    exact h.2
  | mem m => exact h r hr
  | imm w => exact absurd hr List.not_mem_nil
  | label id => exact h.elim
  | symbol name => exact h.elim

/-- Whether a register lives in the frame. -/
def isSpilled (a : Allocation) : Reg → Bool
  | .virt v => (a.location? v).any (·.isStack)
  | .phys _ => false

/-- The register whose slot is loaded into `r11` when a source is read. -/
def loadedIndex? (a : Allocation) : Operand → Option Reg
  | .mem m => (m.index.map (·.1)).filter (isSpilled a)
  | _ => none

/-- The content of `r11` when a source is read, after the loads that its address needs. -/
def indexScratchAfter (a : Allocation) (s : State) (src : Operand) : Word :=
  ((loadedIndex? a src).bind (a.valueIn s)).getD (s.regs .indexScratch)

/-- Values as `val` has them, but for `r11`, which holds `x`. -/
def withScratch (x : Word) (val : Reg → Option Word) (r : Reg) : Option Word :=
  if r = .phys .indexScratch then some x else val r

theorem withScratch_self (s : State) :
    withScratch (s.regs .indexScratch) (a.valueIn s) = a.valueIn s := by
  funext r
  rw [withScratch]
  split
  next h => rw [h]; rfl
  next => rfl

theorem exists_valueIn (hp : a.Places vs) (hr : IsPart vs r) (s : State) :
    ∃ w, a.valueIn s r = some w := by
  cases r with
  | phys r => exact ⟨s.regs r, rfl⟩
  | virt v =>
    rcases hp.cases hr with ⟨r, -, hl⟩ | ⟨d, hl, -⟩
    · exact ⟨_, Allocation.valueIn_of_register hl⟩
    · exact ⟨_, Allocation.valueIn_of_slot hl⟩

theorem exists_address {val : Reg → Option Word} {m : Mem}
    (h : ∀ r ∈ m.regs, ∃ w, val r = some w) : ∃ w, m.address val = some w := by
  obtain ⟨b, hb⟩ := h m.base List.mem_cons_self
  cases hindex : m.index with
  | none => exact ⟨_, by rw [Mem.address, hb, hindex]; rfl⟩
  | some part =>
    obtain ⟨i, hi⟩ := h part.1 (by simp [Mem.regs, hindex])
    exact ⟨_, by rw [Mem.address, hb, hindex]; simp only [hi]; rfl⟩

theorem exists_ref {val : Reg → Option Word} (hsrc : IsCopySource vs src)
    (h : ∀ r, IsPart vs r → ∃ w, val r = some w) : ∃ ref, src.ref val = some ref := by
  cases src with
  | imm w => exact ⟨_, rfl⟩
  | reg r width =>
    obtain ⟨rfl, hr⟩ := hsrc
    obtain ⟨w, hw⟩ := h r hr
    exact ⟨.word w, by rw [Operand.ref, if_pos rfl, hw]; rfl⟩
  | mem m =>
    obtain ⟨w, hw⟩ := exists_address fun r hr ↦ h r (hsrc r hr)
    exact ⟨.load w, by rw [Operand.ref, hw]; rfl⟩
  | label id => exact hsrc.elim
  | symbol name => exact hsrc.elim

/-! ## Loads for an address -/

/-- A part of an address that lives in a register needs no load. -/
private theorem addressReg_of_not_spilled (hp : a.Places vs) (hr : IsPart vs r)
    (h : isSpilled a r = false) (scratch : PhysReg) :
    ∃ p, Placement.addressReg a r scratch = .ok ([], .phys p) ∧ p ≠ .baseScratch ∧
      (p = .indexScratch ↔ r = .phys .indexScratch) ∧ ∀ s, a.valueIn s r = some (s.regs p) := by
  cases r with
  | phys q =>
    refine ⟨q, rfl, ?_, by simp, fun _ ↦ rfl⟩
    rcases hr with rfl | rfl <;> decide
  | virt v =>
    rcases hp.cases hr with ⟨q, hq, hl⟩ | ⟨d, hl, -⟩
    · have hscratch := not_mem_scratchRegs hq
      simp only [scratchRegs, List.mem_cons, List.not_mem_nil, or_false, not_or] at hscratch
      refine ⟨q, ?_, hscratch.2.1, by simp [hscratch.2.2], fun s ↦ ?_⟩
      · rw [Placement.addressReg, Allocation.locate, hl]
        rfl
      · exact Allocation.valueIn_of_register hl
    · rw [isSpilled, hl] at h
      exact absurd h (by simp [Location.isStack])

/-- A part of an address that lives in the frame is loaded into a scratch register. -/
private theorem addressReg_of_spilled (hp : a.Places vs) (hr : IsPart vs r)
    (h : isSpilled a r = true) (scratch : PhysReg) :
    ∃ loads, Placement.addressReg a r scratch = .ok (loads, .phys scratch) ∧
      ∀ s, ∃ w, a.valueIn s r = some w ∧ s.run loads = some (s.setReg scratch w) := by
  cases r with
  | phys q => exact absurd h (by simp [isSpilled])
  | virt v =>
    rcases hp.cases hr with ⟨q, -, hl⟩ | ⟨d, hl, -⟩
    · rw [isSpilled, hl] at h
      exact absurd h (by simp [Location.isStack])
    · refine ⟨[.define "movq" [.mem (.frame d), .phys scratch]], ?_, fun s ↦ ?_⟩
      · rw [Placement.addressReg, Allocation.locate, hl]
        rfl
      · refine ⟨_, Allocation.valueIn_of_slot hl, ?_⟩
        rw [State.run_cons, State.step_movq rfl rfl rfl]
        rfl

/-- Overwriting a scratch register changes no other part. -/
theorem valueIn_setReg (hp : a.Places vs) (hr : IsPart vs r) {q : PhysReg} (hq : q ∈ scratchRegs)
    (hne : r ≠ .phys q) (s : State) (w : Word) : a.valueIn (s.setReg q w) r = a.valueIn s r := by
  cases r with
  | phys p => exact congrArg some (s.regs_setReg_of_ne w fun heq ↦ hne (by rw [heq]))
  | virt v =>
    rcases hp.cases hr with ⟨p, hp, hl⟩ | ⟨d, hl, -⟩
    · rw [Allocation.valueIn_of_register hl, Allocation.valueIn_of_register hl,
        s.regs_setReg_of_ne w fun heq ↦ not_mem_scratchRegs hp (by rw [heq]; exact hq)]
    · have hrbp : (s.setReg q w).regs .rbp = s.regs .rbp :=
        s.regs_setReg_of_ne w fun heq ↦ absurd (heq ▸ hq) (by decide)
      rw [Allocation.valueIn_of_slot hl, Allocation.valueIn_of_slot hl, slotAddress, slotAddress,
        hrbp, State.mem_setReg]

/-- A state after loads into the scratch registers of addresses. -/
structure Loaded (s s₁ : State) : Prop where
  regs : ∀ r, r ≠ .baseScratch → r ≠ .indexScratch → s₁.regs r = s.regs r
  mem : s₁.mem = s.mem
  flags : s₁.flags = s.flags

theorem Loaded.refl (s : State) : Loaded s s := ⟨fun _ _ _ ↦ rfl, rfl, rfl⟩

theorem Loaded.setReg {s₁ : State} (h : Loaded s s₁) {q : PhysReg}
    (hq : q = .baseScratch ∨ q = .indexScratch) (w : Word) : Loaded s (s₁.setReg q w) := by
  refine ⟨fun r hb hi ↦ ?_, h.mem, h.flags⟩
  rw [s₁.regs_setReg_of_ne w (by rcases hq with rfl | rfl <;> assumption), h.regs r hb hi]

/-- The base of an address after the loads for it: a register with the base's value. -/
private theorem placed_base (hp : a.Places vs) (hr : IsPart vs r) :
    ∃ loads p, Placement.addressReg a r .baseScratch = .ok (loads, .phys p) ∧
      (p = .indexScratch ↔ r = .phys .indexScratch) ∧ ∀ s, ∃ s₁, s.run loads = some s₁ ∧
        Loaded s s₁ ∧ s₁.regs .indexScratch = s.regs .indexScratch ∧
        a.valueIn s r = some (s₁.regs p) ∧
        ∀ r', IsPart vs r' → a.valueIn s₁ r' = a.valueIn s r' := by
  cases h : isSpilled a r with
  | false =>
    obtain ⟨p, haddr, -, hindex, hval⟩ := addressReg_of_not_spilled hp hr h .baseScratch
    exact ⟨[], p, haddr, hindex, fun s ↦ ⟨s, rfl, .refl s, rfl, hval s, fun _ _ ↦ rfl⟩⟩
  | true =>
    obtain ⟨loads, haddr, hrun⟩ := addressReg_of_spilled hp hr h .baseScratch
    refine ⟨loads, .baseScratch, haddr, ⟨fun h ↦ absurd h (by decide), ?_⟩, fun s ↦ ?_⟩
    · rintro rfl
      exact absurd h (by simp [isSpilled])
    · obtain ⟨w, hw, hrun⟩ := hrun s
      refine ⟨_, hrun, (Loaded.refl s).setReg (Or.inl rfl) w, rfl, ?_, fun r' hr' ↦ ?_⟩
      · rw [hw, State.regs_setReg_self]
      · refine valueIn_setReg hp hr' (by decide) ?_ s w
        rintro rfl
        rcases hr' with h | h <;> exact absurd h (by decide)

/-- The index of an address after its load, which changes `r11` if there is one. -/
private theorem placed_index (hp : a.Places vs) (hr : IsPart vs r) :
    ∃ loads q, Placement.addressReg a r .indexScratch = .ok (loads, .phys q) ∧ ∀ s, ∃ x,
      s.run loads = some (s.setReg .indexScratch x) ∧
      x = ((Option.filter (isSpilled a) (some r)).bind (a.valueIn s)).getD
        (s.regs .indexScratch) ∧
      withScratch x (a.valueIn s) r = some ((s.setReg .indexScratch x).regs q) := by
  cases h : isSpilled a r with
  | false =>
    obtain ⟨q, haddr, -, hqi, hval⟩ := addressReg_of_not_spilled hp hr h .indexScratch
    refine ⟨[], q, haddr, fun s ↦ ⟨s.regs .indexScratch, by simp, ?_, ?_⟩⟩
    · rw [Option.filter_some_neg (by simp [h])]
      rfl
    · rw [withScratch_self, State.setReg_regs, hval]
  | true =>
    obtain ⟨loads, haddr, hrun⟩ := addressReg_of_spilled hp hr h .indexScratch
    refine ⟨loads, .indexScratch, haddr, fun s ↦ ?_⟩
    obtain ⟨w, hw, hrun⟩ := hrun s
    refine ⟨w, hrun, ?_, ?_⟩
    · rw [Option.filter_some_pos h, Option.bind_some, hw, Option.getD_some]
    · have hne : r ≠ .phys .indexScratch := by
        rintro rfl
        exact absurd h (by simp [isSpilled])
      rw [withScratch, if_neg hne, hw, State.regs_setReg_self]

/-- The address of a source after its loads is its address before, with `r11` as it is then. -/
theorem placed_address (hp : a.Places vs) {m : Mem} (hm : ∀ r ∈ m.regs, IsPart vs r) :
    ∃ loads m', Placement.address a m = .ok (loads, m') ∧ ∀ s, ∃ s₁, s.run loads = some s₁ ∧
      Loaded s s₁ ∧ s₁.regs .indexScratch = indexScratchAfter a s (.mem m) ∧
      m'.address s₁.reg
        = m.address (withScratch (indexScratchAfter a s (.mem m)) (a.valueIn s)) := by
  obtain ⟨loads, p, hbase, hpi, hrun⟩ := placed_base hp (hm m.base List.mem_cons_self)
  -- The base is read from `p`, which the load of an index changes only if it is `r11`.
  have hread : ∀ {s s₁ : State} (x : Word), a.valueIn s m.base = some (s₁.regs p) →
      withScratch x (a.valueIn s) m.base = some ((s₁.setReg .indexScratch x).regs p) := by
    intro s s₁ x hval
    rw [withScratch]
    split
    next h => rw [hpi.mpr h, State.regs_setReg_self]
    next h => rw [hval, State.regs_setReg_of_ne _ _ fun heq ↦ h (hpi.mp heq)]
  cases hindex : m.index with
  | none =>
    refine ⟨loads, { m with base := .phys p }, ?_, fun s ↦ ?_⟩
    · rw [Placement.address, hbase, hindex]
      rfl
    · obtain ⟨s₁, hs₁, hloaded, hsame, hval, -⟩ := hrun s
      have hafter : indexScratchAfter a s (.mem m) = s₁.regs .indexScratch := by
        rw [indexScratchAfter, loadedIndex?, hindex, hsame]
        rfl
      refine ⟨s₁, hs₁, hloaded, hafter.symm, ?_⟩
      rw [Mem.address, Mem.address, hindex, hafter, hread _ hval, State.setReg_regs]
      rfl
  | some part =>
    obtain ⟨r, scale⟩ := part
    have hr : IsPart vs r := hm r (by simp [Mem.regs, hindex])
    obtain ⟨more, q, haddr, hmore⟩ := placed_index hp hr
    refine ⟨loads ++ more, { m with base := .phys p, index := some (.phys q, scale) }, ?_,
      fun s ↦ ?_⟩
    · rw [Placement.address, hbase, hindex]
      simp only [haddr]
      rfl
    · obtain ⟨s₁, hs₁, hloaded, hsame, hval, hothers⟩ := hrun s
      obtain ⟨x, hx, hxval, hri⟩ := hmore s₁
      have hafter : indexScratchAfter a s (.mem m) = x := by
        rw [indexScratchAfter, loadedIndex?, hindex, hxval, hsame, Option.map_some]
        cases h : isSpilled a r with
        | false => rw [Option.filter_some_neg (by simp [h]), Option.bind_none, Option.bind_none]
        | true => rw [Option.filter_some_pos h, Option.bind_some, Option.bind_some, hothers r hr]
      have hri' : withScratch x (a.valueIn s) r = some ((s₁.setReg .indexScratch x).regs q) := by
        rw [← hri, withScratch, withScratch, hothers r hr]
      refine ⟨s₁.setReg .indexScratch x, ?_, hloaded.setReg (Or.inr rfl) x, ?_, ?_⟩
      · rw [State.run_append, hs₁, Option.bind_some, hx]
      · rw [State.regs_setReg_self, hafter]
      · rw [hafter, Mem.address, Mem.address, hindex, hread x hval]
        simp only [hri']
        rfl

/-! ## Copying -/

/-- Whether an operand can be read on the machine. -/
def IsPhysical : Operand → Prop
  | .imm _ => True
  | .reg (.phys _) width => width = 8
  | .mem _ => True
  | _ => False

/-- A source after its loads gives what it gave before, with `r11` as it is then. -/
theorem placed_operand (hp : a.Places vs) (hsrc : IsCopySource vs src) :
    ∃ loads src', Placement.operand a src = .ok (loads, src', 8) ∧ IsPhysical src' ∧
      ∀ s, ∃ s₁, s.run loads = some s₁ ∧ Loaded s s₁ ∧
        s₁.regs .indexScratch = indexScratchAfter a s src ∧
        src'.value s₁.reg s₁.mem
          = src.value (withScratch (indexScratchAfter a s src) (a.valueIn s)) s.mem := by
  cases src with
  | imm w => exact ⟨[], .imm w, rfl, trivial, fun s ↦ ⟨s, rfl, .refl s, rfl, rfl⟩⟩
  | reg r width =>
    obtain ⟨rfl, hr⟩ := hsrc
    have hval : ∀ s, (Operand.reg r 8).value
        (withScratch (indexScratchAfter a s (.reg r 8)) (a.valueIn s)) s.mem = a.valueIn s r := by
      intro s
      have hsame : indexScratchAfter a s (.reg r 8) = s.regs .indexScratch := rfl
      rw [hsame, withScratch_self, Operand.value, Operand.ref, if_pos rfl, Option.map_map]
      exact Option.map_id'
    cases r with
    | phys p => exact ⟨[], .phys p, rfl, rfl, fun s ↦ ⟨s, rfl, .refl s, rfl, (hval s).symm⟩⟩
    | virt v =>
      rcases hp.cases hr with ⟨p, -, hl⟩ | ⟨d, hl, -⟩
      · refine ⟨[], .phys p, ?_, rfl, fun s ↦ ⟨s, rfl, .refl s, rfl, ?_⟩⟩
        · rw [Placement.operand, Allocation.locate, hl]
          rfl
        · rw [hval, Allocation.valueIn_of_register hl]
          rfl
      · refine ⟨[], .mem (.frame d), ?_, trivial, fun s ↦ ⟨s, rfl, .refl s, rfl, ?_⟩⟩
        · rw [Placement.operand, Allocation.locate, hl]
          rfl
        · rw [hval, Allocation.valueIn_of_slot hl]
          rfl
  | mem m =>
    obtain ⟨loads, m', haddr, hrun⟩ := placed_address hp hsrc
    refine ⟨loads, .mem m', ?_, trivial, fun s ↦ ?_⟩
    · rw [Placement.operand, haddr]
      rfl
    · obtain ⟨s₁, hs₁, hloaded, hscratch, haddress⟩ := hrun s
      refine ⟨s₁, hs₁, hloaded, hscratch, ?_⟩
      rw [Operand.value, Operand.value, Operand.ref, Operand.ref, haddress, hloaded.mem]
  | label id => exact hsrc.elim
  | symbol name => exact hsrc.elim

/-- Copying into a register writes it. -/
theorem run_copyToReg {q : PhysReg} (hsrc : IsPhysical src)
    (hvalue : src.value s.reg s.mem = some w) :
    s.run [EdgeMove.copyToReg q src] = some (s.setReg q w) := by
  rw [State.run_cons]
  cases src with
  | imm c =>
    obtain rfl : c = w := Option.some.inj hvalue
    rw [EdgeMove.copyToReg, loadConstant]
    split
    next hfits =>
      rw [State.step_movq rfl rfl (by simpa [State.isMovable, Operand.isMem] using hfits)]
      rfl
    next => rw [State.step_movabsq rfl rfl]; rfl
  | reg r width =>
    have hcopy : EdgeMove.copyToReg q (.reg r width) = .define "movq" [.reg r width, .phys q] := rfl
    rw [hcopy, State.step_movq rfl rfl rfl, hvalue]
    rfl
  | mem m =>
    have hcopy : EdgeMove.copyToReg q (.mem m) = .define "movq" [.mem m, .phys q] := rfl
    rw [hcopy, State.step_movq rfl rfl rfl, hvalue]
    rfl
  | label id => exact hsrc.elim
  | symbol name => exact hsrc.elim

/-- The part of a copy into the frame that does not go through `rax`. -/
private theorem run_store {d : Int} {i : Inst} (hname : i.mnemonic = "movq")
    (hops : i.operands = [src, .mem (.frame d)])
    (hmovable : State.isMovable src (.mem (.frame d)) = true)
    (hvalue : src.value s.reg s.mem = some w) :
    s.run [i] = some (s.setWord (slotAddress s d) w) := by
  rw [State.run_cons, State.step_movq hname hops hmovable, hvalue]
  rfl

private theorem wrote_setReg {q : PhysReg} (hl : a.location? v = some (.register q)) (s : State) (w : Word) :
    Wrote a v w s (s.setReg q w) where
  value := by rw [Allocation.valueIn_of_register hl, State.regs_setReg_self]
  regs r _ hr := s.regs_setReg_of_ne w fun heq ↦ hr (by rw [hl, heq])
  mem _ _ := rfl
  flags := rfl

private theorem wrote_setWord {d : Int} (hl : a.location? v = some (.stack (.frame d)))
    (s : State) (w : Word) : Wrote a v w s (s.setWord (slotAddress s d) w) where
  value := by
    rw [Allocation.valueIn_of_slot hl]
    exact congrArg some (Memory.word_storeWord _ _ _)
  regs _ _ _ := rfl
  mem x hx := Memory.storeWord_of_not_inBytes w (hx d hl)
  flags := rfl

/-- What happened before in scratch registers is part of writing a place. -/
theorem Wrote.of_scratch {s₁ : State} (h : Wrote a v w s₁ s')
    (hregs : ∀ r ∉ scratchRegs, s₁.regs r = s.regs r) (hmem : s₁.mem = s.mem)
    (hflags : s₁.flags = s.flags) : Wrote a v w s s' where
  value := h.value
  regs r hr hne := (h.regs r hr hne).trans (hregs r hr)
  mem x hx := by
    rw [h.mem x fun d hd ↦ ?_, hmem]
    rw [slotAddress, hregs .rbp (by decide)]
    exact hx d hd
  flags := h.flags.trans hflags

/-- Copying a physical operand to the place of `v` writes that place and keeps `r11`. -/
theorem run_copy (hp : a.Places vs) (hv : v ∈ vs) (hsrc : IsPhysical src)
    (hvalue : src.value s.reg s.mem = some w) :
    ∃ s', s.run (EdgeMove.copy (a.place (.virt v)) src) = some s' ∧ Wrote a v w s s' ∧
      s'.regs .indexScratch = s.regs .indexScratch := by
  rcases hp.cases hv with ⟨q, hq, hl⟩ | ⟨d, hl, -⟩
  · rw [Allocation.place_virt hl, Location.operand]
    have hcopy : EdgeMove.copy (.phys q) src = [EdgeMove.copyToReg q src] := by
      cases src <;> rfl
    have hscratch := not_mem_scratchRegs hq
    refine ⟨s.setReg q w, ?_, wrote_setReg hl s w, s.regs_setReg_of_ne w ?_⟩
    · rw [hcopy, run_copyToReg hsrc hvalue]
    · rintro rfl
      exact hscratch (by decide)
  · rw [Allocation.place_virt hl, Location.operand]
    -- By way of `rax`, which then holds the word.
    have hdetour : ∃ s', s.run [EdgeMove.copyToReg .valueScratch src,
        { mnemonic := "movq", operands := [.phys .valueScratch, .mem (.frame d)] }] = some s' ∧
        Wrote a v w s s' ∧ s'.regs .indexScratch = s.regs .indexScratch := by
      have hfetch := @run_copyToReg s w src .valueScratch hsrc hvalue
      have hwrote := @wrote_setWord a v d hl (s.setReg .valueScratch w) w
      refine ⟨_, ?_, hwrote.of_scratch (fun r hr ↦ ?_) rfl rfl, ?_⟩
      · rw [← List.singleton_append, State.run_append, hfetch, Option.bind_some]
        exact run_store rfl rfl rfl rfl
      · refine s.regs_setReg_of_ne w ?_
        rintro rfl
        exact hr (by decide)
      · have hne : PhysReg.indexScratch ≠ .valueScratch := by decide
        exact s.regs_setReg_of_ne w hne
    have hdirect : ∀ i : Inst, i.mnemonic = "movq" → i.operands = [src, .mem (.frame d)] →
        State.isMovable src (.mem (.frame d)) = true → ∃ s', s.run [i] = some s' ∧
        Wrote a v w s s' ∧ s'.regs .indexScratch = s.regs .indexScratch := by
      intro i hname hops hmovable
      exact ⟨_, run_store hname hops hmovable hvalue, wrote_setWord hl s w, rfl⟩
    cases src with
    | imm c =>
      rw [EdgeMove.copy]
      split
      next hfits => exact hdirect _ rfl rfl (by simpa [State.isMovable, Operand.isMem] using hfits)
      next => exact hdetour
    | reg r width => exact hdirect _ rfl rfl rfl
    | mem m => exact hdetour
    | label id => exact hsrc.elim
    | symbol name => exact hsrc.elim

/-- **One assignment.** The instructions of a copy write the value of its source to its
destination. The source is read with `r11` as it is after the loads. -/
theorem run_move (hp : a.Places vs) (hv : v ∈ vs) (hsrc : IsCopySource vs src) :
    ∃ loads src', Placement.operand a src = .ok (loads, src', 8) ∧ ∀ s, ∃ w s',
      src.value (withScratch (indexScratchAfter a s src) (a.valueIn s)) s.mem = some w ∧
      s.run (loads ++ EdgeMove.copy (a.place (.virt v)) src') = some s' ∧ Wrote a v w s s' ∧
      s'.regs .indexScratch = indexScratchAfter a s src := by
  obtain ⟨loads, src', hplaced, hphysical, hrun⟩ := placed_operand hp hsrc
  refine ⟨loads, src', hplaced, fun s ↦ ?_⟩
  obtain ⟨s₁, hs₁, hloaded, hscratch, hvalue⟩ := hrun s
  obtain ⟨ref, href⟩ := @exists_ref vs src (withScratch (indexScratchAfter a s src) (a.valueIn s))
    hsrc fun r hr ↦ by
      rw [withScratch]
      split
      next => exact ⟨_, rfl⟩
      next => exact exists_valueIn hp hr s
  have hw : src.value (withScratch (indexScratchAfter a s src) (a.valueIn s)) s.mem
      = some (ref.value s.mem) := by
    rw [Operand.value, href, Option.map_some]
  obtain ⟨s', hs', hwrote, hkept⟩ := run_copy hp hv hphysical (hvalue.trans hw)
  refine ⟨_, s', hw, ?_, hwrote.of_scratch (fun r hr ↦ ?_) hloaded.mem hloaded.flags, ?_⟩
  · rw [State.run_append, hs₁, Option.bind_some, hs']
  · simp only [scratchRegs, List.mem_cons, List.not_mem_nil, or_false, not_or] at hr
    exact hloaded.regs r hr.2.1 hr.2.2
  · rw [hkept, hscratch]

/-- Parking a place in `r11` leaves everything else as it is. -/
theorem run_park (hp : a.Places vs) (hv : v ∈ vs) (s : State) :
    ∃ w, a.valueIn s (.virt v) = some w ∧
      s.run (EdgeMove.copy (.phys .indexScratch) (a.place (.virt v)))
        = some (s.setReg .indexScratch w) := by
  obtain ⟨w, hw⟩ := @exists_valueIn a vs (.virt v) hp hv s
  refine ⟨w, hw, ?_⟩
  rcases hp.cases hv with ⟨q, -, hl⟩ | ⟨d, hl, -⟩
  · rw [Allocation.place_virt hl]
    rw [Allocation.valueIn_of_register hl] at hw
    exact @run_copyToReg s w (.phys q) .indexScratch rfl hw
  · rw [Allocation.place_virt hl]
    rw [Allocation.valueIn_of_slot hl] at hw
    exact @run_copyToReg s w (.mem (.frame d)) .indexScratch trivial hw

end TreeCover
