import TreeCover.Proofs.Assembly.Assignments

/-!
# Copies as a parallel assignment

The copies of an edge carry out the assignments of its phis at once, if `r11` is never overwritten
while a pending copy still reads it. The invariant of the sequencing is that what every pending
copy would read now is what its phi's operand gave before the first copy.
-/

namespace TreeCover

open Machine

variable {a : Allocation} {vs : List VReg} {ps : List Assignment} {s s' s₀ : State}
  {moves : List EdgeMove} {m : EdgeMove}

/-! ## The invariant -/

/-- What the pending copies would do in state `s` is what the assignments do in `s₀`, and all
other assignments are carried out. -/
structure Simulates (a : Allocation) (ps : List Assignment) (s₀ s : State)
    (moves : List EdgeMove) : Prop where
  pending : ∀ m ∈ moves, ∃ p ∈ ps, m.dst = a.place (.virt p.1) ∧
    m.src.ref (a.valueIn s) = p.2.ref (a.valueIn s₀)
  finished : ∀ p ∈ ps, (∀ m ∈ moves, m.dst ≠ a.place (.virt p.1)) →
    a.valueIn s (.virt p.1) = p.2.value (a.valueIn s₀) s₀.mem
  unchanged : Unchanged a ps s₀ s

theorem Unchanged.refl (a : Allocation) (ps : List Assignment) (s : State) : Unchanged a ps s s :=
  ⟨fun _ _ _ ↦ rfl, fun _ _ ↦ rfl, rfl⟩

theorem Unchanged.rbp (h : Unchanged a ps s s') (hps : Assignable a ps) :
    s'.regs .rbp = s.regs .rbp :=
  h.regs .rbp (by decide) fun _ hp ↦ hps.places.location_ne_rbp (dst_mem_assignedRegs hp)

theorem Unchanged.slotAddress (h : Unchanged a ps s s') (hps : Assignable a ps) (d : Int) :
    slotAddress s' d = TreeCover.slotAddress s d := by
  rw [TreeCover.slotAddress, TreeCover.slotAddress, h.rbp hps]

/-- Memory that shares no byte with a destination keeps its words. -/
theorem Unchanged.word (h : Unchanged a ps s s') {x : Word}
    (hx : ∀ p ∈ ps, ∀ d, a.location? p.1 = some (.stack (.frame d)) →
      Memory.Apart x (TreeCover.slotAddress s d)) : s'.mem.word x = s.mem.word x :=
  Memory.word_congr fun y hy ↦ h.mem y fun p hp d hd ↦ (hx p hp d hd).not_inBytes hy

theorem Unchanged.wrote (h : Unchanged a ps s₀ s) (hps : Assignable a ps) {p : Assignment}
    (hp : p ∈ ps) {w : Word} (hw : Wrote a p.1 w s s') : Unchanged a ps s₀ s' where
  regs r hr hne := (hw.regs r hr (hne p hp)).trans (h.regs r hr hne)
  mem x hx := by
    refine (hw.mem x fun d hd ↦ ?_).trans (h.mem x hx)
    rw [h.slotAddress hps]
    exact hx p hp d hd
  flags := hw.flags.trans h.flags

theorem Unchanged.setScratch (h : Unchanged a ps s₀ s) {q : PhysReg} (hq : q ∈ scratchRegs)
    (w : Word) : Unchanged a ps s₀ (s.setReg q w) where
  regs r hr hne := by
    rw [s.regs_setReg_of_ne w fun heq ↦ hr (by rw [heq]; exact hq), h.regs r hr hne]
  mem := h.mem
  flags := h.flags

theorem simulates_copiesOf (h : Assignable a ps) (s : State) :
    Simulates a ps s s (copiesOf a ps) := by
  refine ⟨fun m hm ↦ ?_, fun p hp hnot ↦ ?_, .refl a ps s⟩
  · obtain ⟨p, hp, rfl⟩ := List.mem_map.mp hm
    exact ⟨p, (List.mem_filter.mp hp).1, rfl, rfl⟩
  · -- What is not pending at the start copies a place to itself.
    have hidle : isIdle a p = true := by
      by_contra hne
      have hmem : copyOf a p ∈ copiesOf a ps :=
        List.mem_map_of_mem (List.mem_filter.mpr ⟨hp, by simpa using hne⟩)
      exact hnot _ hmem rfl
    have hsrc := h.isCopySource hp
    rw [isIdle, Bool.and_eq_true, beq_iff_eq] at hidle
    cases hop : p.2 with
    | reg r width =>
      rw [hop] at hidle hsrc
      obtain ⟨rfl, hpart⟩ := hsrc
      have hplace : a.place r = a.place (.virt p.1) := Option.some.inj hidle.2
      have hvalue : (Operand.reg r 8).value (a.valueIn s) s.mem = a.valueIn s r := by
        rw [Operand.value, Operand.ref, if_pos rfl, Option.map_map]
        exact Option.map_id'
      rw [hvalue]
      exact (valueIn_eq_of_place_eq h.places (dst_mem_assignedRegs hp) hpart hplace s).symm
    | imm w => rw [hop] at hidle; exact absurd hidle.1 (by simp [Operand.isReg])
    | mem m => rw [hop] at hidle; exact absurd hidle.1 (by simp [Operand.isReg])
    | label id => rw [hop] at hidle; exact absurd hidle.1 (by simp [Operand.isReg])
    | symbol name => rw [hop] at hidle; exact absurd hidle.1 (by simp [Operand.isReg])

/-! ## Steps of the invariant -/

/-- `r11` is not read by a source. -/
theorem indexScratch_not_mem_regs {src : Operand}
    (h : .phys .indexScratch ∉ readsIn a src) : Reg.phys .indexScratch ∉ src.regs := by
  intro hmem
  refine h ?_
  cases src with
  | reg r width =>
    obtain rfl := List.mem_singleton.mp hmem
    exact List.mem_singleton.mpr rfl
  | mem m =>
    exact List.mem_cons_of_mem _ (List.mem_map.mpr ⟨_, List.mem_filter.mpr ⟨hmem, by decide⟩, rfl⟩)
  | imm w => exact absurd hmem List.not_mem_nil
  | label id => exact absurd hmem List.not_mem_nil
  | symbol name => exact absurd hmem List.not_mem_nil

/-- A source that does not disturb `r11` is read as if there were no loads. -/
theorem ref_withScratch {src : Operand} (s : State)
    (hscratch : (loadedIndex? a src).isSome → Reg.phys .indexScratch ∉ src.regs) :
    src.ref (withScratch (indexScratchAfter a s src) (a.valueIn s)) = src.ref (a.valueIn s) := by
  cases hload : loadedIndex? a src with
  | none =>
    have hafter : indexScratchAfter a s src = s.regs .indexScratch := by
      rw [indexScratchAfter, hload]
      rfl
    rw [hafter, withScratch_self]
  | some r =>
    rw [hload] at hscratch
    refine Operand.ref_congr fun r hr ↦ ?_
    rw [withScratch, if_neg]
    rintro rfl
    exact hscratch rfl hr

/-- The memory that an operand reads is the same as before the first copy. -/
theorem Unchanged.ref_value (h : Unchanged a ps s₀ s) (hapart : SourcesApart a ps s₀)
    {p : Assignment} (hp : p ∈ ps) {ref : Ref} (href : p.2.ref (a.valueIn s₀) = some ref) :
    ref.value s.mem = ref.value s₀.mem := by
  cases ref with
  | word w => rfl
  | load x =>
    cases hop : p.2 with
    | mem m =>
      rw [hop, Operand.ref, Option.map_eq_some_iff] at href
      obtain ⟨y, hy, heq⟩ := href
      obtain rfl := Ref.load.inj heq
      exact h.word fun q hq d hd ↦ hapart p hp m hop y hy q hq d hd
    | imm w => rw [hop] at href; exact absurd href (by simp [Operand.ref])
    | reg r width =>
      rw [hop, Operand.ref] at href
      split at href
      next => obtain ⟨y, -, heq⟩ := Option.map_eq_some_iff.mp href; exact absurd heq (by simp)
      next => exact absurd href (by simp)
    | label id => rw [hop] at href; exact absurd href (by simp [Operand.ref])
    | symbol name => rw [hop] at href; exact absurd href (by simp [Operand.ref])

/-- Carrying out a ready copy changes no part of another pending source, unless its loads overwrite
`r11`. -/
theorem valueIn_of_ready (hp : a.Places vs) (hpending : Pending a vs moves) {v : VReg} {w : Word}
    (hv : v ∈ vs) (hwrote : Wrote a v w s s') {m' : EdgeMove} (hm' : m' ∈ moves)
    (hready : a.place (.virt v) ∉ m'.reads)
    (hscratch : s'.regs .indexScratch = s.regs .indexScratch ∨
      .phys .indexScratch ∉ m'.reads) {r : Reg} (hr : r ∈ m'.src.regs) :
    a.valueIn s' r = a.valueIn s r := by
  have hpart := (hpending.source m' hm').part hr
  rw [hpending.reads m' hm'] at hready hscratch
  cases r with
  | virt u =>
    refine hwrote.valueIn_of_ne hp hv hpart fun heq ↦ hready ?_
    exact mem_readsIn (isSeat_place hp hv) hr (place_eq_of_location_eq heq)
  | phys q =>
    rcases hpart with rfl | rfl
    · exact congrArg some (hwrote.rbp hp hv)
    · rcases hscratch with hsame | hnot
      · exact congrArg some hsame
      · exact absurd hr (indexScratch_not_mem_regs hnot)

/-- Carrying out a ready copy keeps the invariant, if its loads do not overwrite `r11` while it is
read. -/
theorem Simulates.move (hps : Assignable a ps) (hapart : SourcesApart a ps s₀)
    (hpending : Pending a (assignedRegs ps) moves) (h : Simulates a ps s₀ s moves) {i : Nat}
    (hm : moves[i]? = some m) (hready : ∀ m' ∈ moves.eraseIdx i, m.dst ∉ m'.reads)
    {loads : List Inst} {src : Operand} (hplaced : Placement.operand a m.src = .ok (loads, src, 8))
    (hscratch : (loadedIndex? a m.src).isSome → ∀ m' ∈ moves, .phys .indexScratch ∉ m'.reads) :
    ∃ s', s.run (loads ++ EdgeMove.copy m.dst src) = some s' ∧
      Simulates a ps s₀ s' (moves.eraseIdx i) := by
  have hmem := List.mem_of_getElem? hm
  obtain ⟨p, hp, hdst, href⟩ := h.pending m hmem
  have hpv := dst_mem_assignedRegs hp
  obtain ⟨loads', src', hplaced', hrun⟩ := run_move hps.places hpv (hpending.source m hmem)
  rw [hplaced, Except.ok.injEq, Prod.mk.injEq, Prod.mk.injEq] at hplaced'
  obtain ⟨rfl, rfl, -⟩ := hplaced'
  obtain ⟨w, s', hw, hrun, hwrote, hafter⟩ := hrun s
  have hself : (loadedIndex? a m.src).isSome → Reg.phys .indexScratch ∉ m.src.regs := fun hload ↦
    indexScratch_not_mem_regs (by rw [← hpending.reads m hmem]; exact hscratch hload m hmem)
  -- The word written is what the assignment's operand gave before the first copy.
  have hvalue : a.valueIn s' (.virt p.1) = p.2.value (a.valueIn s₀) s₀.mem := by
    rw [Operand.value, ref_withScratch s hself, href] at hw
    obtain ⟨ref, href', hword⟩ := Option.map_eq_some_iff.mp hw
    rw [hwrote.value, Operand.value, href', Option.map_some, ← hword,
      h.unchanged.ref_value hapart hp href']
  refine ⟨s', by rw [hdst]; exact hrun, fun m' hm' ↦ ?_, fun q hq hnot ↦ ?_,
    h.unchanged.wrote hps hp hwrote⟩
  · have hm'' : m' ∈ moves := List.mem_of_mem_eraseIdx hm'
    obtain ⟨q, hq, hdst', href'⟩ := h.pending m' hm''
    refine ⟨q, hq, hdst', (Operand.ref_congr fun r hr ↦ ?_).trans href'⟩
    refine valueIn_of_ready hps.places hpending hpv hwrote hm'' (hdst ▸ hready m' hm') ?_ hr
    cases hload : loadedIndex? a m.src with
    | none =>
      rw [hafter, indexScratchAfter, hload]
      exact Or.inl rfl
    | some r => exact Or.inr (hscratch (by rw [hload]; rfl) m' hm'')
  · by_cases hqp : q = p
    · rw [hqp]
      exact hvalue
    · have hne := hps.location_ne hq hp hqp
      rw [hwrote.valueIn_of_ne hps.places hpv (dst_mem_assignedRegs hq) hne]
      refine h.finished q hq fun m' hm' heq ↦ ?_
      obtain ⟨j, hj⟩ := List.mem_iff_getElem?.mp hm'
      by_cases hji : j = i
      · rw [hji, hm, Option.some.injEq] at hj
        rw [← hj, hdst] at heq
        exact hne (location_eq_of_place_eq hps.places hpv (dst_mem_assignedRegs hq) heq).symm
      · exact hnot m' (List.mem_eraseIdx_iff_getElem?.mpr ⟨j, hji, hj⟩) heq

theorem ref_mapRegs (f : Reg → Reg) (val : Reg → Option Word) (src : Operand) :
    (mapRegs f src).ref val = src.ref (fun r ↦ val (f r)) := by
  cases src with
  | mem m =>
    rw [mapRegs, Operand.ref, Operand.ref, Mem.address, Mem.address]
    cases m.index <;> rfl
  | _ => rfl

/-- Parking a destination keeps the invariant, if no pending copy reads `r11`. -/
theorem Simulates.park (hps : Assignable a ps) (hpending : Pending a (assignedRegs ps) moves)
    (h : Simulates a ps s₀ s moves) {first : EdgeMove} (hfirst : first ∈ moves)
    (hscratch : ∀ m' ∈ moves, .phys .indexScratch ∉ m'.reads) :
    ∃ s', s.run (EdgeMove.copy (.phys .indexScratch) first.dst) = some s' ∧
      Simulates a ps s₀ s' (moves.map (parkedIn a first.dst)) := by
  obtain ⟨p, hp, hdst, -⟩ := h.pending first hfirst
  have hpv := dst_mem_assignedRegs hp
  obtain ⟨w, hw, hrun⟩ := run_park hps.places hpv s
  refine ⟨s.setReg .indexScratch w, by rw [hdst]; exact hrun, fun m' hm' ↦ ?_, fun q hq hnot ↦ ?_,
    h.unchanged.setScratch (by decide) w⟩
  · obtain ⟨m, hm, rfl⟩ := List.mem_map.mp hm'
    obtain ⟨q, hq, hdst', href'⟩ := h.pending m hm
    refine ⟨q, hq, hdst', ?_⟩
    have hparked : (mapRegs (substitute a first.dst) m.src).ref (a.valueIn (s.setReg .indexScratch w))
        = m.src.ref (a.valueIn s) := by
      rw [ref_mapRegs]
      refine Operand.ref_congr fun r hr ↦ ?_
      have hpart := (hpending.source m hm).part hr
      by_cases hplace : a.place r = first.dst
      · rw [substitute, if_pos hplace]
        refine Eq.trans (congrArg some (s.regs_setReg_self _ w)) ?_
        rw [hdst] at hplace
        rw [← hw]
        exact (valueIn_eq_of_place_eq hps.places hpv hpart hplace s).symm
      · rw [substitute, if_neg hplace]
        refine valueIn_setReg hps.places hpart (by decide) ?_ s w
        rintro rfl
        exact indexScratch_not_mem_regs (hpending.reads m hm ▸ hscratch m hm) hr
    exact hparked.trans href'
  · have hvalue := @valueIn_setReg a (assignedRegs ps) (.virt q.1) hps.places
      (dst_mem_assignedRegs hq) .indexScratch (by decide) (by simp) s w
    rw [hvalue]
    refine h.finished q hq fun m hm heq ↦ hnot (parkedIn a first.dst m) ?_ heq
    exact List.mem_map_of_mem hm

/-! ## Whole sequences -/

/-- Whether instructions overwrite `r11`. -/
def overwritesScratch (is : List Inst) : Bool := is.any fun i ↦ i.dst? == some (.phys .indexScratch)

/-- Whether a round overwrites `r11` only if no pending copy reads it. -/
def Round.isQuiet (r : Round) : Bool :=
  !overwritesScratch r.2.insts || r.1.all fun m ↦ !m.reads.contains (.phys .indexScratch)

/-- Whether `r11` is never overwritten while a pending copy reads it. -/
def isUndisturbed (rs : List Round) : Bool := rs.all (·.isQuiet)

theorem Round.isQuiet_iff {r : Round} : r.isQuiet = true ↔
    (overwritesScratch r.2.insts = true → ∀ m ∈ r.1, .phys .indexScratch ∉ m.reads) := by
  rw [isQuiet, Bool.or_eq_true, Bool.not_eq_true', List.all_eq_true, ← Bool.not_eq_true,
    imp_iff_not_or]
  simp only [Bool.not_eq_true', List.contains_eq_mem, decide_eq_false_iff_not]

private theorem overwrites_addressReg {r r' : Reg} {scratch : PhysReg} {loads : List Inst}
    (h : Placement.addressReg a r scratch = .ok (loads, r')) :
    overwritesScratch loads = (isSpilled a r && scratch == .indexScratch) := by
  cases r with
  | phys q =>
    obtain ⟨rfl, -⟩ := Prod.mk.inj (Except.ok.inj h)
    rfl
  | virt v =>
    rw [Placement.addressReg, Allocation.locate] at h
    rw [isSpilled]
    cases hl : a.location? v with
    | none => rw [hl] at h; exact absurd h (by simp [bind, Except.bind])
    | some l =>
      rw [hl] at h
      cases l with
      | register q =>
        obtain ⟨rfl, -⟩ := Prod.mk.inj (Except.ok.inj h)
        rfl
      | stack slot =>
        obtain ⟨rfl, -⟩ := Prod.mk.inj (Except.ok.inj h)
        cases scratch <;> rfl

/-- The loads of a source overwrite `r11` if they load an index. -/
private theorem overwrites_operand {src src' : Operand} {loads : List Inst} {width : Nat}
    (h : Placement.operand a src = .ok (loads, src', width)) :
    overwritesScratch loads = (loadedIndex? a src).isSome := by
  cases src with
  | reg r w =>
    cases r with
    | phys q => obtain ⟨rfl, -⟩ := Prod.mk.inj (Except.ok.inj h); rfl
    | virt v =>
      rw [Placement.operand, Allocation.locate] at h
      cases hl : a.location? v with
      | none => rw [hl] at h; exact absurd h (by simp [bind, Except.bind])
      | some l =>
        rw [hl] at h
        cases l <;> (obtain ⟨rfl, -⟩ := Prod.mk.inj (Except.ok.inj h); rfl)
  | mem m =>
    rw [Placement.operand, Placement.address] at h
    cases hbase : Placement.addressReg a m.base .baseScratch with
    | error e => rw [hbase] at h; exact absurd h (by simp [bind, Except.bind])
    | ok base =>
      have hnot := overwrites_addressReg hbase
      rw [show (PhysReg.baseScratch == .indexScratch) = false from rfl, Bool.and_false] at hnot
      rw [hbase] at h
      cases hindex : m.index with
      | none =>
        rw [hindex] at h
        obtain ⟨rfl, -⟩ := Prod.mk.inj (Except.ok.inj h)
        rw [loadedIndex?, hindex, hnot]
        rfl
      | some part =>
        cases hpart : Placement.addressReg a part.1 .indexScratch with
        | error e => rw [hindex] at h; simp only [bind, Except.bind, hpart] at h; exact absurd h (by simp)
        | ok index =>
          have hload := overwrites_addressReg hpart
          rw [hindex] at h
          simp only [bind, Except.bind, hpart] at h
          obtain ⟨rfl, -⟩ := Prod.mk.inj (Except.ok.inj h)
          rw [overwritesScratch, List.any_append, ← overwritesScratch, ← overwritesScratch, hnot,
            hload, loadedIndex?, hindex, Option.map_some]
          cases hspilled : isSpilled a part.1 with
          | false => rw [Option.filter_some_neg (by simp [hspilled])]; rfl
          | true => rw [Option.filter_some_pos hspilled]; rfl
  | imm w => obtain ⟨rfl, -⟩ := Prod.mk.inj (Except.ok.inj h); rfl
  | label id => obtain ⟨rfl, -⟩ := Prod.mk.inj (Except.ok.inj h); rfl
  | symbol name => obtain ⟨rfl, -⟩ := Prod.mk.inj (Except.ok.inj h); rfl

private theorem overwrites_copy (hp : a.Places vs) {v : VReg} (hv : v ∈ vs) (src : Operand) :
    overwritesScratch (EdgeMove.copy (a.place (.virt v)) src) = false := by
  rcases hp.cases hv with ⟨q, hq, hl⟩ | ⟨d, hl, -⟩
  · have hne : q ≠ .indexScratch := by
      rintro rfl
      exact absurd hq (by decide)
    rw [Allocation.place_virt hl, Location.operand]
    cases src with
    | imm w =>
      have hcopy : EdgeMove.copy (.phys q) (.imm w) = [loadConstant w (.phys q)] := rfl
      rw [hcopy, loadConstant]
      split <;> simpa [overwritesScratch, Inst.dst?, Inst.define, Inst.intoReg, Operand.phys] using hne
    | _ => simpa [overwritesScratch, EdgeMove.copy, Inst.dst?, Inst.define, Operand.phys] using hne
  · rw [Allocation.place_virt hl, Location.operand]
    cases src with
    | imm w =>
      rw [EdgeMove.copy]
      split
      next => rfl
      next => 
        rw [EdgeMove.copyToReg, loadConstant]
        split <;> rfl
    | _ => rfl

/-- A move overwrites `r11` if it loads an index. -/
theorem overwrites_move (hp : a.Places vs) {v : VReg} (hv : v ∈ vs) {src src' : Operand}
    {loads : List Inst} (h : Placement.operand a src = .ok (loads, src', 8)) :
    overwritesScratch (loads ++ EdgeMove.copy (a.place (.virt v)) src')
      = (loadedIndex? a src).isSome := by
  rw [overwritesScratch, List.any_append, ← overwritesScratch, ← overwritesScratch,
    overwrites_operand h, overwrites_copy hp hv, Bool.or_false]

theorem overwrites_park (o : Operand) :
    overwritesScratch (EdgeMove.copy (.phys .indexScratch) o) = true := by
  cases o with
  | imm w =>
    have hcopy : EdgeMove.copy (.phys .indexScratch) (.imm w)
        = [loadConstant w (.phys .indexScratch)] := rfl
    rw [hcopy, loadConstant]
    split <;> rfl
  | _ => rfl

/-- **Parallel assignment.** A sequence whose rounds are all quiet carries out all assignments. -/
theorem Simulates.run (hps : Assignable a ps) (hapart : SourcesApart a ps s₀) {rs : List Round}
    (hrounds : Rounds a moves rs) (hpending : Pending a (assignedRegs ps) moves)
    (h : Simulates a ps s₀ s moves) (hquiet : isUndisturbed rs = true) :
    ∃ s', s.run (rs.flatMap (·.2.insts)) = some s' ∧ Simulates a ps s₀ s' [] := by
  induction hrounds generalizing s with
  | done => exact ⟨s, rfl, h⟩
  | @move moves i m loads src rs hm hready hplaced _ ih =>
    rw [isUndisturbed, List.all_cons, Bool.and_eq_true, ← isUndisturbed] at hquiet
    obtain ⟨p, hp, hdst, -⟩ := h.pending m (List.mem_of_getElem? hm)
    have hscratch : (loadedIndex? a m.src).isSome →
        ∀ m' ∈ moves, .phys .indexScratch ∉ m'.reads := by
      rw [← overwrites_move hps.places (dst_mem_assignedRegs hp) hplaced, ← hdst]
      exact Round.isQuiet_iff.mp hquiet.1
    obtain ⟨s₁, hs₁, hsim⟩ := h.move hps hapart hpending hm hready hplaced hscratch
    obtain ⟨s', hs', hdone⟩ := ih (hpending.eraseIdx i) hsim hquiet.2
    refine ⟨s', ?_, hdone⟩
    rw [List.flatMap_cons, State.run_append]
    exact Option.bind_eq_some_iff.mpr ⟨s₁, hs₁, hs'⟩
  | @park first rest rs hnone _ ih =>
    rw [isUndisturbed, List.all_cons, Bool.and_eq_true, ← isUndisturbed] at hquiet
    have hscratch := Round.isQuiet_iff.mp hquiet.1 (overwrites_park first.dst)
    obtain ⟨s₁, hs₁, hsim⟩ := h.park hps hpending List.mem_cons_self hscratch
    obtain ⟨s', hs', hdone⟩ := ih (hpending.park hps.places first) hsim hquiet.2
    refine ⟨s', ?_, hdone⟩
    rw [List.flatMap_cons, State.run_append]
    exact Option.bind_eq_some_iff.mpr ⟨s₁, hs₁, hs'⟩

theorem Simulates.assigned (h : Simulates a ps s₀ s []) : AssignedInParallel a ps s₀ s where
  values p hp := h.finished p hp fun _ hm ↦ absurd hm List.not_mem_nil
  unchanged := h.unchanged

end TreeCover
