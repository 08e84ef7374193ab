import Mathlib.Data.List.Chain
import Mathlib.Data.List.Perm.Basic
import TreeCover.Proofs.Assembly.SingleCopy

/-!
# Putting copies into sequence

Copies are put into sequence in rounds: a round makes one copy or parks one location. All that the
order of the rounds needs is the shape of the copies that are `Waiting`: their destinations are
different registers or slots, their registers have locations, and what a copy reads is what its source
says. Every round keeps that shape.

No location is parked while a copy is ready, and once the first destination was parked nobody reads it
any more, so the round after that makes a copy. That ends the rounds after two for each copy. Main
statement: `sequence_terminates`.
-/

namespace TreeCover

open Machine

variable {a : Allocation} {r : Reg} {src p : Operand} {moves : List EdgeMove} {m : EdgeMove}

/-! ## What sources read -/

/-- Whether all virtual registers of an operand have locations. -/
def Allocation.Locates (a : Allocation) (o : Operand) : Prop :=
  ∀ v ∈ o.vregs, (a.location? v).isSome = true

instance (a : Allocation) (o : Operand) : Decidable (a.Locates o) :=
  inferInstanceAs (Decidable (∀ v ∈ o.vregs, _))

theorem vregs_eq_filterMap (o : Operand) : o.vregs = o.regs.filterMap Reg.virt? := by
  cases o with
  | reg r width => cases r <;> rfl
  | _ => rfl

/-- Whether a register, if it is virtual, has a location. -/
def Allocation.LocatesReg (a : Allocation) (r : Reg) : Prop :=
  ∀ v, r = .virt v → (a.location? v).isSome = true

theorem Allocation.Locates.reg (h : a.Locates src) (hr : r ∈ src.regs) : a.LocatesReg r := by
  rintro v rfl
  refine h v ?_
  rw [vregs_eq_filterMap]
  exact List.mem_filterMap.mpr ⟨_, hr, rfl⟩

theorem locate_eq {v : VReg} (h : (a.location? v).isSome = true) :
    ∃ l, a.location? v = some l ∧ a.locate v = .ok l := by
  obtain ⟨l, hl⟩ := Option.isSome_iff_exists.mp h
  exact ⟨l, hl, by rw [Allocation.locate, hl]⟩

theorem resolved_eq (h : a.LocatesReg r) : EdgeMove.resolved a r = .ok (a.place r) := by
  cases r with
  | phys q => rfl
  | virt v =>
    obtain ⟨l, hl, hlocate⟩ := locate_eq (h v rfl)
    rw [EdgeMove.resolved, hlocate, Allocation.place_virt hl]
    cases l <;> rfl

/-- The places that a source reads, and the memory operand itself. -/
def readsIn (a : Allocation) : Operand → List Operand
  | .reg r _ => [a.place r]
  | .mem m => .mem m :: (m.regs.filter (· ≠ .phys .rbp)).map a.place
  | _ => []

/-- Work that succeeds on every element succeeds on the list. -/
theorem mapM_eq_map {α β : Type} {f : α → Placing β} {g : α → β} {xs : List α}
    (h : ∀ x ∈ xs, f x = .ok (g x)) : xs.mapM f = .ok (xs.map g) := by
  induction xs with
  | nil => rfl
  | cons x xs ih =>
    obtain ⟨hx, hxs⟩ := List.forall_mem_cons.mp h
    rw [List.mapM_cons, hx, ih hxs]
    rfl

theorem readsOf_eq (h : a.Locates src) : EdgeMove.readsOf a src = .ok (readsIn a src) := by
  cases src with
  | reg r width =>
    rw [EdgeMove.readsOf, resolved_eq (h.reg List.mem_cons_self)]
    rfl
  | mem m =>
    have hregs : (m.regs.filter (· ≠ .phys .rbp)).mapM (EdgeMove.resolved a)
        = .ok ((m.regs.filter (· ≠ .phys .rbp)).map a.place) :=
      mapM_eq_map fun r hr ↦ resolved_eq (h.reg (List.mem_filter.mp hr).1)
    rw [EdgeMove.readsOf, hregs]
    rfl
  | _ => rfl

/-- A place that a copy may write: a register that is handed out, or a slot of the frame. -/
def Machine.Operand.isSeat : Operand → Bool
  | .reg (.phys r) width => decide (r ∈ PhysReg.allocatable) && width == 8
  | .mem m => m.base == .phys .rbp && m.index.isNone
  | _ => false

/-- A seat is neither the frame pointer nor a scratch register. -/
theorem ne_phys_of_isSeat (hp : p.isSeat = true) {q : PhysReg} (hq : q ∉ PhysReg.allocatable) :
    p ≠ .phys q := by
  rintro rfl
  have hmem : q ∈ PhysReg.allocatable := by simpa [Operand.phys, Operand.isSeat] using hp
  exact hq hmem

/-- A part whose place is a seat is read. -/
theorem mem_readsIn (hp : p.isSeat = true) (hr : r ∈ src.regs) (heq : a.place r = p) :
    p ∈ readsIn a src := by
  have hne : r ≠ .phys .rbp := by
    rintro rfl
    exact ne_phys_of_isSeat hp rbp_not_mem_allocatable heq.symm
  cases src with
  | reg r' width =>
    obtain rfl := List.mem_singleton.mp hr
    exact List.mem_singleton.mpr heq.symm
  | mem m =>
    refine List.mem_cons_of_mem _ (List.mem_map.mpr ⟨r, List.mem_filter.mpr ⟨hr, ?_⟩, heq⟩)
    simpa using hne
  | imm w => exact absurd hr List.not_mem_nil
  | label id => exact absurd hr List.not_mem_nil
  | symbol name => exact absurd hr List.not_mem_nil

/-- A place is read through a part, unless the source is that very slot. -/
theorem exists_part_of_mem_readsIn (h : p ∈ readsIn a src) :
    (∃ r ∈ src.regs, a.place r = p) ∨ ∃ m, src = .mem m ∧ p = .mem m := by
  cases src with
  | reg r' width => exact Or.inl ⟨r', List.mem_cons_self, (List.mem_singleton.mp h).symm⟩
  | mem m =>
    rcases List.mem_cons.mp h with rfl | h
    · exact Or.inr ⟨m, rfl, rfl⟩
    · obtain ⟨r, hr, rfl⟩ := List.mem_map.mp h
      exact Or.inl ⟨r, (List.mem_filter.mp hr).1, rfl⟩
  | imm w => exact absurd h List.not_mem_nil
  | label id => exact absurd h List.not_mem_nil
  | symbol name => exact absurd h List.not_mem_nil

/-! ## Parking a place -/

/-- `r11` in place of every part whose place is `p`. -/
def substitute (a : Allocation) (p : Operand) (r : Reg) : Reg :=
  if a.place r = p then .phys .indexScratch else r

/-- An operand with its registers changed. -/
def mapRegs (f : Reg → Reg) : Operand → Operand
  | .reg r width => .reg (f r) width
  | .mem m => .mem { m with base := f m.base, index := m.index.map fun (r, scale) ↦ (f r, scale) }
  | other => other

theorem regs_mapRegs (f : Reg → Reg) (src : Operand) : (mapRegs f src).regs = src.regs.map f := by
  cases src with
  | mem m =>
    cases hindex : m.index with
    | none => simp [mapRegs, Operand.regs, Mem.regs, hindex]
    | some part => simp [mapRegs, Operand.regs, Mem.regs, hindex]
  | _ => rfl

theorem mapRegs_of_fixed {f : Reg → Reg} (h : ∀ r ∈ src.regs, f r = r) : mapRegs f src = src := by
  cases src with
  | reg r width => rw [mapRegs, h r List.mem_cons_self]
  | mem m =>
    have hbase : f m.base = m.base := h m.base List.mem_cons_self
    have hindex : m.index.map (fun (r, scale) ↦ (f r, scale)) = m.index := by
      cases hindex : m.index with
      | none => rfl
      | some part =>
        obtain ⟨r, scale⟩ := part
        have hpart : f r = r := h r (by simp [Operand.regs, Mem.regs, hindex])
        simp only [Option.map_some, hpart]
    rw [mapRegs, hbase, hindex]
  | _ => rfl

/-- A copy that reads `r11` wherever it read `p`. -/
def parkedIn (a : Allocation) (p : Operand) (m : EdgeMove) : EdgeMove :=
  { m with
    src := mapRegs (substitute a p) m.src
    reads := readsIn a (mapRegs (substitute a p) m.src) }

theorem Allocation.Locates.substitute (h : a.Locates src) (p : Operand) :
    a.Locates (mapRegs (substitute a p) src) := by
  intro v hv
  rw [vregs_eq_filterMap, regs_mapRegs] at hv
  obtain ⟨r', hr', hvirt⟩ := List.mem_filterMap.mp hv
  obtain ⟨r, hr, rfl⟩ := List.mem_map.mp hr'
  rw [TreeCover.substitute] at hvirt
  split at hvirt
  next => exact absurd hvirt nofun
  next =>
    refine h.reg hr v ?_
    cases r with
    | phys q => exact absurd hvirt nofun
    | virt u => exact congrArg Reg.virt (Option.some.inj hvirt)

/-- Substitution does not turn a source into a slot of the frame. -/
theorem eq_of_mapRegs_eq_slot {mem : Mem} (hseat : (Operand.mem mem).isSeat = true)
    (h : mapRegs (substitute a p) src = .mem mem) : src = .mem mem := by
  rw [Operand.isSeat, Bool.and_eq_true, beq_iff_eq, Option.isNone_iff_eq_none] at hseat
  have hfixed : ∀ r, substitute a p r = .phys .rbp → substitute a p r = r := by
    intro r hr
    rw [substitute] at hr ⊢
    split at hr
    next => exact absurd hr (by decide)
    next hne => rw [if_neg hne]
  rw [← h]
  refine (mapRegs_of_fixed fun r hr ↦ hfixed r ?_).symm
  have hmapped : substitute a p r ∈ (mapRegs (substitute a p) src).regs := by
    rw [regs_mapRegs]
    exact List.mem_map_of_mem hr
  rw [h, Operand.regs, Mem.regs, hseat.1, hseat.2] at hmapped
  exact List.mem_singleton.mp hmapped

/-! ## Copies that wait -/

/-- The shape of the copies that wait to be made. -/
structure Waiting (a : Allocation) (moves : List EdgeMove) : Prop where
  seat : ∀ m ∈ moves, m.dst.isSeat = true
  nodup : (moves.map (·.dst)).Nodup
  located : ∀ m ∈ moves, a.Locates m.src
  reads : ∀ m ∈ moves, EdgeMove.readsOf a m.src = .ok m.reads
  /-- No source is a slot that is a destination; the slot of a source register may be one. -/
  notSlot : ∀ m ∈ moves, ∀ m' ∈ moves, m.src ≠ m'.dst ∨ m.src.isMem = false

namespace Waiting

theorem reads_eq (h : Waiting a moves) (hm : m ∈ moves) : m.reads = readsIn a m.src :=
  Except.ok.inj ((h.reads m hm).symm.trans (readsOf_eq (h.located m hm)))

theorem ne_slot (h : Waiting a moves) {m' : EdgeMove} (hm : m ∈ moves) (hm' : m' ∈ moves)
    {mem : Mem} (hmem : m.src = .mem mem) : m'.dst ≠ .mem mem := by
  rintro heq
  rcases h.notSlot m hm m' hm' with hne | hreg
  · exact hne (hmem.trans heq.symm)
  · rw [hmem] at hreg
    exact absurd hreg nofun

theorem eraseIdx (h : Waiting a moves) (i : Nat) : Waiting a (moves.eraseIdx i) where
  seat m hm := h.seat m (List.mem_of_mem_eraseIdx hm)
  nodup := ((List.eraseIdx_sublist moves i).map _).nodup h.nodup
  located m hm := h.located m (List.mem_of_mem_eraseIdx hm)
  reads m hm := h.reads m (List.mem_of_mem_eraseIdx hm)
  notSlot m hm m' hm' :=
    h.notSlot m (List.mem_of_mem_eraseIdx hm) m' (List.mem_of_mem_eraseIdx hm')

/-- A copy reads the destination of another only through a part of its source. -/
theorem mem_reads_iff (h : Waiting a moves) {m' : EdgeMove} (hm : m ∈ moves) (hm' : m' ∈ moves) :
    m'.dst ∈ m.reads ↔ ∃ r ∈ m.src.regs, a.place r = m'.dst := by
  rw [h.reads_eq hm]
  constructor
  · intro hread
    rcases exists_part_of_mem_readsIn hread with hpart | ⟨mem, hsrc, heq⟩
    · exact hpart
    · exact absurd heq (h.ne_slot hm hm' hsrc)
  · rintro ⟨r, hr, heq⟩
    exact mem_readsIn (h.seat m' hm') hr heq

/-- Rerouting puts `r11` in place of the parked destination, if the copy reads it at all. -/
theorem reroute_eq (h : Waiting a moves) {first : EdgeMove} (hfirst : first ∈ moves)
    (hm : m ∈ moves) : EdgeMove.reroute a first.dst m = .ok (parkedIn a first.dst m) := by
  have hlocated := h.located m hm
  rw [EdgeMove.reroute]
  by_cases hread : first.dst ∈ m.reads
  · rw [if_pos (List.contains_iff_mem.mpr hread)]
    have hredirect : EdgeMove.redirect a first.dst m.src
        = .ok (mapRegs (substitute a first.dst) m.src) := by
      obtain ⟨r, hr, heq⟩ := (h.mem_reads_iff hm hfirst).mp hread
      cases hsrc : m.src with
      | reg r' width =>
        rw [hsrc] at hr
        obtain rfl := List.mem_singleton.mp hr
        rw [mapRegs, substitute, if_pos heq]
        rfl
      | mem mem =>
        rw [hsrc] at hlocated
        have hbase := resolved_eq (r := mem.base) (hlocated.reg List.mem_cons_self)
        cases hindex : mem.index with
        | none =>
          rw [EdgeMove.redirect, hbase, hindex]
          rw [mapRegs, hindex]
          rfl
        | some part =>
          have hpart := resolved_eq (r := part.1)
            (hlocated.reg (by simp [Operand.regs, Mem.regs, hindex]))
          rw [EdgeMove.redirect, hbase, hindex]
          simp only [hpart, mapRegs, hindex]
          rfl
      | imm w => rw [hsrc] at hr; exact absurd hr List.not_mem_nil
      | label id => rw [hsrc] at hr; exact absurd hr List.not_mem_nil
      | symbol name => rw [hsrc] at hr; exact absurd hr List.not_mem_nil
    rw [hredirect]
    have hreads := readsOf_eq (hlocated.substitute first.dst)
    simp only [bind, Except.bind, hreads]
    rfl
  · rw [if_neg (mt List.contains_iff_mem.mp hread)]
    have hfixed : mapRegs (substitute a first.dst) m.src = m.src := by
      refine mapRegs_of_fixed fun r hr ↦ ?_
      rw [substitute, if_neg fun heq ↦ hread ((h.mem_reads_iff hm hfirst).mpr ⟨r, hr, heq⟩)]
    rw [parkedIn, hfixed, ← h.reads_eq hm]
    rfl

/-- After a destination was parked, no copy reads it. -/
theorem dst_not_mem_parked_reads (h : Waiting a moves) {first : EdgeMove} (hfirst : first ∈ moves)
    (hm : m ∈ moves) : first.dst ∉ (parkedIn a first.dst m).reads := by
  have hseat := h.seat first hfirst
  intro hread
  rcases exists_part_of_mem_readsIn hread with ⟨r, hr, heq⟩ | ⟨mem, hsrc, heq⟩
  · rw [regs_mapRegs] at hr
    obtain ⟨q, -, rfl⟩ := List.mem_map.mp hr
    by_cases hq : a.place q = first.dst
    · rw [substitute, if_pos hq] at heq
      exact ne_phys_of_isSeat hseat (by decide) heq.symm
    · rw [substitute, if_neg hq] at heq
      exact hq heq
  · exact h.ne_slot hm hfirst (eq_of_mapRegs_eq_slot (heq ▸ hseat) hsrc) heq

/-- Parking a location keeps the shape of the copies. -/
theorem park (h : Waiting a moves) (p : Operand) : Waiting a (moves.map (parkedIn a p)) where
  seat m' hm' := by
    obtain ⟨m, hm, rfl⟩ := List.mem_map.mp hm'
    exact h.seat m hm
  nodup := by
    rw [List.map_map]
    exact h.nodup
  located m' hm' := by
    obtain ⟨m, hm, rfl⟩ := List.mem_map.mp hm'
    exact (h.located m hm).substitute p
  reads m' hm' := by
    obtain ⟨m, hm, rfl⟩ := List.mem_map.mp hm'
    exact readsOf_eq ((h.located m hm).substitute p)
  notSlot m' hm' n' hn' := by
    obtain ⟨m, hm, rfl⟩ := List.mem_map.mp hm'
    obtain ⟨n, hn, rfl⟩ := List.mem_map.mp hn'
    rw [or_iff_not_imp_right, Bool.not_eq_false]
    intro hmem heq
    obtain ⟨mem, hsrc⟩ : ∃ mem, (parkedIn a p m).src = .mem mem := by
      cases hsrc : (parkedIn a p m).src with
      | mem mem => exact ⟨mem, rfl⟩
      | _ => rw [hsrc] at hmem; exact absurd hmem nofun
    have hdst : n.dst = .mem mem := heq.symm.trans hsrc
    exact h.ne_slot hm hn (eq_of_mapRegs_eq_slot (hdst ▸ h.seat n hn) hsrc) hdst

end Waiting

/-! ## Rounds -/

/-- A round with the copies that were pending before it. -/
abbrev Round := List EdgeMove × EdgeMove.Step

/-- One round: its step, and the copies that are still pending after it. -/
def round (a : Allocation) (first : EdgeMove) (rest : List EdgeMove) :
    Placing (EdgeMove.Step × List EdgeMove) := do
  match (EdgeMove.ready? (first :: rest)).bind fun i ↦ ((first :: rest)[i]?).map fun m ↦ (i, m) with
  | some (i, m) =>
    let (loads, src, _) ← Placement.operand a m.src
    return (.move (loads ++ EdgeMove.copy m.dst src), (first :: rest).eraseIdx i)
  | none =>
    let moves ← (first :: rest).mapM (EdgeMove.reroute a first.dst)
    return (.park first.dst (EdgeMove.copy (.phys .indexScratch) first.dst), moves)

/-- The rounds of a sequence. -/
def roundsFrom (a : Allocation) : Nat → List EdgeMove → Placing (List Round)
  | 0, _ | _, [] => return []
  | fuel + 1, first :: rest => do
    let (step, moves) ← round a first rest
    return (first :: rest, step) :: (← roundsFrom a fuel moves)

/-- All rounds in which copies are put into sequence. -/
def rounds (a : Allocation) (moves : List EdgeMove) : Placing (List Round) :=
  roundsFrom a (2 * moves.length) moves

/-- A sequence consists of the steps of its rounds. -/
theorem sequenceFrom_eq (a : Allocation) (fuel : Nat) (moves : List EdgeMove) :
    EdgeMove.sequenceFrom a fuel moves = (roundsFrom a fuel moves).map (·.map (·.2)) := by
  induction fuel generalizing moves with
  | zero => cases moves <;> rfl
  | succ fuel ih =>
    cases moves with
    | nil => rfl
    | cons first rest =>
      rw [EdgeMove.sequenceFrom, roundsFrom, round]
      cases (EdgeMove.ready? (first :: rest)).bind fun i ↦
          ((first :: rest)[i]?).map fun m ↦ (i, m) with
      | some ready =>
        obtain ⟨i, m⟩ := ready
        simp only [bind, Except.bind, pure, Except.pure, ih]
        cases Placement.operand a m.src with
        | error e => rfl
        | ok placed =>
          simp only
          cases roundsFrom a fuel ((first :: rest).eraseIdx i) <;> rfl
      | none =>
        simp only [bind, Except.bind, pure, Except.pure, ih]
        cases (first :: rest).mapM (EdgeMove.reroute a first.dst) with
        | error e => rfl
        | ok moves =>
          simp only
          cases roundsFrom a fuel moves <;> rfl

theorem sequence_eq {rs : List Round} (h : rounds a moves = .ok rs) :
    EdgeMove.sequence a moves = .ok (rs.map (·.2)) := by
  rw [EdgeMove.sequence, sequenceFrom_eq]
  exact congrArg (Except.map _) h

theorem isReady_iff {i : Nat} : EdgeMove.isReady moves i = true ↔
    ∃ m, moves[i]? = some m ∧ ∀ m' ∈ moves.eraseIdx i, m.dst ∉ m'.reads := by
  rw [EdgeMove.isReady, Option.any_eq_true]
  simp only [List.all_eq_true, Bool.not_eq_true', List.contains_eq_mem, decide_eq_false_iff_not]

theorem exists_addressReg (h : a.LocatesReg r) (scratch : PhysReg) :
    ∃ z, Placement.addressReg a r scratch = .ok z := by
  cases r with
  | phys q => exact ⟨_, rfl⟩
  | virt v =>
    obtain ⟨l, -, hlocate⟩ := locate_eq (h v rfl)
    rw [Placement.addressReg, hlocate]
    cases l <;> exact ⟨_, rfl⟩

/-- Operands whose registers have locations can be placed. -/
theorem exists_operand (h : a.Locates src) : ∃ z, Placement.operand a src = .ok z := by
  cases src with
  | reg r width =>
    cases r with
    | phys q => exact ⟨_, rfl⟩
    | virt v =>
      obtain ⟨l, -, hlocate⟩ := locate_eq (h.reg List.mem_cons_self v rfl)
      rw [Placement.operand, hlocate]
      cases l <;> exact ⟨_, rfl⟩
  | mem m =>
    obtain ⟨z, hz⟩ := exists_addressReg (h.reg (r := m.base) List.mem_cons_self) .baseScratch
    cases hindex : m.index with
    | none =>
      rw [Placement.operand, Placement.address, hz, hindex]
      exact ⟨_, rfl⟩
    | some part =>
      obtain ⟨z', hz'⟩ := exists_addressReg
        (h.reg (r := part.1) (by simp [Operand.regs, Mem.regs, hindex])) .indexScratch
      rw [Placement.operand, Placement.address, hz, hindex]
      simp only [bind, Except.bind, hz']
      exact ⟨_, rfl⟩
  | _ => exact ⟨_, rfl⟩

/-- A round either makes a ready copy or, if none is ready, parks the first destination. -/
theorem Waiting.round_cases {first : EdgeMove} {rest : List EdgeMove}
    (h : Waiting a (first :: rest)) :
    (∃ i m loads src width, (first :: rest)[i]? = some m ∧
      (∀ m' ∈ (first :: rest).eraseIdx i, m.dst ∉ m'.reads) ∧
      Placement.operand a m.src = .ok (loads, src, width) ∧
      round a first rest
        = .ok (.move (loads ++ EdgeMove.copy m.dst src), (first :: rest).eraseIdx i)) ∨
    ((∀ i, EdgeMove.isReady (first :: rest) i = false) ∧
      round a first rest = .ok (.park first.dst (EdgeMove.copy (.phys .indexScratch) first.dst),
        (first :: rest).map (parkedIn a first.dst))) := by
  cases hready : EdgeMove.ready? (first :: rest) with
  | some i =>
    obtain ⟨m, hm, hothers⟩ := isReady_iff.mp (List.find?_some hready)
    obtain ⟨⟨loads, src, width⟩, hplaced⟩ :=
      exists_operand (h.located m (List.mem_of_getElem? hm))
    refine Or.inl ⟨i, m, loads, src, width, hm, hothers, hplaced, ?_⟩
    rw [round, hready, Option.bind_some, hm, Option.map_some]
    simp only [hplaced]
    rfl
  | none =>
    refine Or.inr ⟨fun i ↦ ?_, ?_⟩
    · by_cases hi : i < (first :: rest).length
      · have hnone := List.find?_eq_none.mp hready i (List.mem_range.mpr hi)
        exact Bool.eq_false_iff.mpr hnone
      · refine Bool.eq_false_iff.mpr fun htrue ↦ ?_
        obtain ⟨m, hm, -⟩ := isReady_iff.mp htrue
        exact hi (List.getElem?_eq_some_iff.mp hm).1
    · have hmap : (first :: rest).mapM (EdgeMove.reroute a first.dst)
          = .ok ((first :: rest).map (parkedIn a first.dst)) :=
        mapM_eq_map fun m hm ↦ h.reroute_eq List.mem_cons_self hm
      rw [round, hready, hmap]
      rfl

/-- In the round after a location was parked, the first copy is ready. -/
theorem Waiting.isReady_parked {first : EdgeMove} {rest : List EdgeMove}
    (h : Waiting a (first :: rest)) :
    EdgeMove.isReady ((first :: rest).map (parkedIn a first.dst)) 0 = true := by
  refine isReady_iff.mpr ⟨parkedIn a first.dst first, rfl, fun m' hm' ↦ ?_⟩
  have hmem : m' ∈ rest.map (parkedIn a first.dst) := hm'
  obtain ⟨m, hm, rfl⟩ := List.mem_map.mp hmem
  exact h.dst_not_mem_parked_reads List.mem_cons_self (List.mem_cons_of_mem _ hm)

/-- **Induction on rounds.** What holds of no rounds for no copies, and is kept when a ready copy or,
where none is ready, a parked location is put in front, holds of the rounds of copies that wait. These
are at most two for each copy, and more fuel adds none. -/
theorem Waiting.rounds_induct {P : List EdgeMove → List Round → Prop} (h : Waiting a moves)
    (done : P [] [])
    (move : ∀ moves i m loads src width rs, Waiting a moves → moves[i]? = some m →
      (∀ m' ∈ moves.eraseIdx i, m.dst ∉ m'.reads) →
      Placement.operand a m.src = .ok (loads, src, width) → P (moves.eraseIdx i) rs →
      P moves ((moves, .move (loads ++ EdgeMove.copy m.dst src)) :: rs))
    (park : ∀ first rest rs, Waiting a (first :: rest) →
      (∀ i, EdgeMove.isReady (first :: rest) i = false) →
      P ((first :: rest).map (parkedIn a first.dst)) rs →
      P (first :: rest) ((first :: rest,
        .park first.dst (EdgeMove.copy (.phys .indexScratch) first.dst)) :: rs)) :
    ∃ rs, P moves rs ∧ rs.length ≤ 2 * moves.length ∧
      ∀ fuel, 2 * moves.length ≤ fuel → roundsFrom a fuel moves = .ok rs := by
  -- One round less is enough if some copy is ready, as it is after a location was parked.
  suffices hbound : ∀ (bound : Nat) (moves : List EdgeMove), Waiting a moves →
      2 * moves.length = bound ∨
        2 * moves.length = bound + 1 ∧ (∃ i, EdgeMove.isReady moves i = true) →
      ∃ rs, P moves rs ∧ rs.length ≤ bound ∧
        ∀ fuel, bound ≤ fuel → roundsFrom a fuel moves = .ok rs by
    exact hbound (2 * moves.length) moves h (Or.inl rfl)
  intro bound
  induction bound using Nat.strongRecOn with
  | ind bound ih =>
    intro moves h hbound
    cases moves with
    | nil =>
      refine ⟨[], done, Nat.zero_le _, fun fuel _ ↦ ?_⟩
      cases fuel <;> rfl
    | cons first rest =>
      have hpos : 0 < bound := by
        rw [List.length_cons] at hbound
        omega
      have hunfold : ∀ {step moves rs} {bound' : Nat}, bound' < bound →
          round a first rest = .ok (step, moves) →
          (∀ fuel, bound' ≤ fuel → roundsFrom a fuel moves = .ok rs) →
          ∀ fuel, bound ≤ fuel →
            roundsFrom a fuel (first :: rest) = .ok ((first :: rest, step) :: rs) := by
        intro step moves rs bound' hlt hround hrs fuel hfuel
        obtain ⟨fuel, rfl⟩ : ∃ k, fuel = k + 1 := ⟨fuel - 1, by omega⟩
        rw [roundsFrom, hround]
        simp only [bind, Except.bind, hrs fuel (by omega)]
        rfl
      rcases h.round_cases with
        ⟨i, m, loads, src, width, hm, hothers, hplaced, hround⟩ | ⟨hnone, hround⟩
      · have hi := (List.getElem?_eq_some_iff.mp hm).1
        have hlen := List.length_eraseIdx_of_lt hi
        have hlt : 2 * ((first :: rest).eraseIdx i).length < bound := by omega
        obtain ⟨rs, hP, hlength, hrs⟩ := ih _ hlt _ (h.eraseIdx i) (Or.inl rfl)
        refine ⟨_, move _ _ _ _ _ _ _ h hm hothers hplaced hP, ?_, hunfold hlt hround hrs⟩
        rw [List.length_cons]
        omega
      · have heq : 2 * (first :: rest).length = bound := by
          rcases hbound with heq | ⟨-, i, hi⟩
          · exact heq
          · exact absurd hi (by rw [hnone i]; decide)
        obtain ⟨rs, hP, hlength, hrs⟩ := ih (bound - 1) (by omega) _ (h.park first.dst)
          (Or.inr ⟨by rw [List.length_map]; omega, 0, h.isReady_parked⟩)
        refine ⟨_, park _ _ _ h hnone hP, ?_, hunfold (by omega) hround hrs⟩
        rw [List.length_cons]
        omega

/-! ## Every copy is made once -/

def EdgeMove.Step.isPark : EdgeMove.Step → Bool
  | park .. => true
  | move _ => false

/-- The steps make the copies of a list, one after the other. After a location was parked, the copies
that are still to be made read `r11` in its place. -/
inductive Enacts (a : Allocation) : List EdgeMove → List EdgeMove.Step → Prop where
  | done : Enacts a [] []
  | move {m : EdgeMove} {order : List EdgeMove} {loads : List Inst} {src : Operand} {width : Nat}
      {steps : List EdgeMove.Step} : Placement.operand a m.src = .ok (loads, src, width) →
      Enacts a order steps →
      Enacts a (m :: order) (.move (loads ++ EdgeMove.copy m.dst src) :: steps)
  | park {p : Operand} {order : List EdgeMove} {steps : List EdgeMove.Step} :
      Enacts a (order.map (parkedIn a p)) steps →
      Enacts a order (.park p (EdgeMove.copy (.phys .indexScratch) p) :: steps)

/-- An order of images is the image of an order. -/
theorem exists_perm_of_perm_map {α β : Type} {f : α → β} {xs : List α} {ys : List β}
    (h : ys.Perm (xs.map f)) : ∃ zs : List α, zs.Perm xs ∧ zs.map f = ys := by
  induction xs generalizing ys with
  | nil => exact ⟨[], .nil, (List.perm_nil.mp h).symm⟩
  | cons x xs ih =>
    obtain ⟨before, after, rfl⟩ := List.append_of_mem (h.symm.subset List.mem_cons_self)
    obtain ⟨zs, hperm, hmap⟩ := ih (List.Perm.cons_inv (List.perm_middle.symm.trans h))
    obtain ⟨us, ws, rfl, rfl, rfl⟩ := List.map_eq_append_iff.mp hmap
    exact ⟨us ++ x :: ws, List.perm_middle.trans (hperm.cons x), by rw [List.map_append]; rfl⟩

/-- What the rounds of waiting copies do: they make every copy once, start with a copy if one is
ready, and never park two locations in a row. -/
structure MakesAll (a : Allocation) (moves : List EdgeMove) (rs : List Round) : Prop where
  order : ∃ order : List EdgeMove, order.Perm moves ∧ Enacts a order (rs.map (·.2))
  starts : (∃ i, EdgeMove.isReady moves i = true) →
    ∀ r, rs.head? = some r → r.2.isPark = false
  chain : (rs.map (·.2)).IsChain fun s t ↦ s.isPark = true → t.isPark = false

theorem Waiting.makesAll (h : Waiting a moves) :
    ∃ rs, MakesAll a moves rs ∧ rs.length ≤ 2 * moves.length ∧
      ∀ fuel, 2 * moves.length ≤ fuel → roundsFrom a fuel moves = .ok rs := by
  refine h.rounds_induct ⟨⟨[], .nil, .done⟩, fun _ _ hr ↦ absurd hr nofun, .nil⟩
    (fun moves i m loads src width rs _ hm _ hplaced ih ↦ ?_) fun first rest rs hwait hnone ih ↦ ?_
  · obtain ⟨order, hperm, henacts⟩ := ih.order
    obtain ⟨hi, rfl⟩ := List.getElem?_eq_some_iff.mp hm
    refine ⟨⟨moves[i] :: order, (hperm.cons _).trans (List.getElem_cons_eraseIdx_perm hi),
      .move hplaced henacts⟩, fun _ r hr ↦ ?_, ih.chain.cons fun _ _ hpark ↦ absurd hpark nofun⟩
    obtain rfl := Option.some.inj hr
    rfl
  · obtain ⟨order', hperm', henacts⟩ := ih.order
    obtain ⟨order, hperm, rfl⟩ := exists_perm_of_perm_map hperm'
    refine ⟨⟨order, hperm, .park henacts⟩, fun ⟨i, hi⟩ ↦ ?_, ih.chain.cons fun t ht _ ↦ ?_⟩
    · exact absurd hi (by rw [hnone i]; decide)
    · rw [List.head?_map] at ht
      obtain ⟨r, hr, rfl⟩ := Option.map_eq_some_iff.mp ht
      exact ih.starts ⟨0, hwait.isReady_parked⟩ r hr

/-- **The sequencing terminates.** Copies to different registers and slots, none of which copies a
destination slot as such, are put into sequence in at most two steps for each: the loop has ended by
then, since more fuel makes no difference, and two steps in a row never both park a location. The steps
make every copy exactly once. -/
theorem sequence_terminates (h : Waiting a moves) :
    ∃ steps order, EdgeMove.sequence a moves = .ok steps ∧ steps.length ≤ 2 * moves.length ∧
      (∀ fuel, 2 * moves.length ≤ fuel → EdgeMove.sequenceFrom a fuel moves = .ok steps) ∧
      steps.IsChain (fun s t ↦ s.isPark = true → t.isPark = false) ∧
      order.Perm moves ∧ Enacts a order steps := by
  obtain ⟨rs, hmakes, hlength, hrounds⟩ := h.makesAll
  obtain ⟨order, hperm, henacts⟩ := hmakes.order
  have hfuel : ∀ fuel, 2 * moves.length ≤ fuel →
      EdgeMove.sequenceFrom a fuel moves = .ok (rs.map (·.2)) := by
    intro fuel hle
    rw [sequenceFrom_eq, hrounds fuel hle]
    rfl
  have hsequence : EdgeMove.sequence a moves = .ok (rs.map (·.2)) := hfuel _ (Nat.le_refl _)
  refine ⟨rs.map (·.2), order, hsequence, ?_, hfuel, hmakes.chain, hperm, henacts⟩
  rwa [List.length_map]

/-- Two registers in machine registers and one in the frame. -/
def tanglePlaces : Allocation :=
  { decisions := [.assign 0 .rbx, .spill 1 (.frame (-8)) true, .assign 2 .rsi] }

/-- Copies each of which reads the destinations of two others. -/
def tangle : List EdgeMove :=
  [(.phys .rbx, .mem ⟨.virt 1, 0, some (.virt 2, 4)⟩),
    (.mem (.frame (-8)), .mem ⟨.virt 0, 16, some (.virt 2, 1)⟩),
    (.phys .rsi, .mem ⟨.virt 0, 0, some (.virt 1, 8)⟩)].map fun (dst, src) ↦
      ⟨dst, src, readsIn tanglePlaces src⟩

/-- Copies that block one another are put into sequence. -/
theorem sequence_terminates_tangle :
    Waiting tanglePlaces tangle ∧
      ∃ steps order, EdgeMove.sequence tanglePlaces tangle = .ok steps ∧
        steps.length ≤ 2 * tangle.length ∧
        (∀ fuel, 2 * tangle.length ≤ fuel →
          EdgeMove.sequenceFrom tanglePlaces fuel tangle = .ok steps) ∧
        steps.IsChain (fun s t ↦ s.isPark = true → t.isPark = false) ∧
        order.Perm tangle ∧ Enacts tanglePlaces order steps := by
  have hlocated : ∀ m ∈ tangle, tanglePlaces.Locates m.src := by decide
  have hreads : ∀ m ∈ tangle, m.reads = readsIn tanglePlaces m.src := by decide
  have hwaiting : Waiting tanglePlaces tangle :=
    ⟨by decide, by decide, hlocated, fun m hm ↦ (hreads m hm).symm ▸ readsOf_eq (hlocated m hm),
      by decide⟩
  exact ⟨hwaiting, sequence_terminates hwaiting⟩

end TreeCover
