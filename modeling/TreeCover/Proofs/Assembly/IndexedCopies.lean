import TreeCover.Proofs.Assembly.Probe

/-!
# Copies with indexed operands

An indexed operand reads two places, and `r11` is both the register that breaks cycles and the one
that holds an index from the frame. The copies of an edge carry out its assignments from every state
exactly if `r11` is never overwritten while a pending copy, the one being made included, reads it.

That the condition is needed is shown in the probe of the place that is parked when it is first
broken: the copy that comes too late writes what it would write if all places held the same.
-/

namespace TreeCover

open Machine

variable {a : Allocation} {ps : List Assignment} {s s' : State} {moves : List EdgeMove}
  {rs : List Round} {l₀ : Location} {src : Operand} {x₀ : Word}

/-! ## Sources in the probe -/

theorem virt_of_mem_regs (hsrc : IsPhiSource src) {r : Reg} (hr : r ∈ src.regs) :
    r = .phys .rbp ∨ ∃ v, r = .virt v ∧ v ∈ src.vregs := by
  cases src with
  | imm w => exact absurd hr List.not_mem_nil
  | reg q width =>
    obtain rfl := List.mem_singleton.mp hr
    cases r with
    | phys q => exact hsrc.elim
    | virt v => exact Or.inr ⟨v, rfl, by simp [Operand.vregs, Reg.virt?]⟩
  | mem mem =>
    obtain ⟨hbase, hindex, -⟩ := hsrc
    have hvregs : ∀ v, .virt v ∈ mem.regs → v ∈ (Operand.mem mem).vregs :=
      fun v hv ↦ List.mem_filterMap.mpr ⟨.virt v, hv, rfl⟩
    have hr' : r ∈ mem.regs := hr
    rw [Mem.regs, List.mem_cons, Option.mem_toList, Option.map_eq_some_iff] at hr'
    rcases hr' with rfl | ⟨⟨r', scale⟩, hpart, rfl⟩
    · refine hbase.imp_right fun hvirt ↦ ?_
      obtain ⟨v, hv⟩ := hvirt
      exact ⟨v, hv, hvregs v (hv ▸ hr)⟩
    · obtain ⟨⟨v, rfl⟩, -⟩ := hindex r' scale hpart
      exact Or.inr ⟨v, rfl, hvregs v hr⟩
  | label id => exact hsrc.elim
  | symbol name => exact hsrc.elim

/-- In the probe of a location the sources of assignments mean what they mean under tipped
values. -/
theorem ref_probe (hps : Assignable a ps) {u : VReg} (hu : u ∈ assignedRegs ps)
    (hl₀ : a.location? u = some l₀) (hhome : l₀.IsHome) (x₀ : Word) {p : Assignment} (hp : p ∈ ps) :
    p.2.ref (a.valueIn (probe l₀ x₀)) = p.2.ref (tipped a l₀) := by
  refine Operand.ref_congr fun r hr ↦ ?_
  rcases virt_of_mem_regs (hps.sources p hp) hr with rfl | ⟨v, rfl, hv⟩
  · exact congrArg some (probe_rbp hhome)
  · exact valueIn_probe hps.places hu hl₀ (vregs_subset_assignedRegs hp hv)

/-- Whether memory that is read is apart from the slots that are written does not depend on the
values of the probe. -/
theorem sourcesApart_probe (hps : Assignable a ps) (hapart : ∃ s, SourcesApart a ps s) {u : VReg}
    (hu : u ∈ assignedRegs ps) (hl₀ : a.location? u = some l₀) (hhome : l₀.IsHome) (x₀ : Word) :
    SourcesApart a ps (probe l₀ x₀) := by
  obtain ⟨s, hs⟩ := hapart
  intro p hp mem hmem x hx q hq d hd
  have hsrc := hps.sources p hp
  rw [hmem] at hsrc
  have hdisp := hps.places.isDisplacement (dst_mem_assignedRegs hq) hd
  rw [slotAddress_probe hhome]
  by_cases hslot : mem = .frame mem.disp
  · -- Slots of the frame are as far apart as they are in any state.
    have hany := hs p hp mem hmem (slotAddress s mem.disp) (by rw [hslot]; rfl) q hq d hd
    rw [hslot] at hx
    have hx : slotAddress (probe l₀ x₀) mem.disp = x := Option.some.inj hx
    rw [← hx, slotAddress_probe hhome]
    have hcancel : ∀ y z : Word, s.regs .rbp + y - (s.regs .rbp + z) = y - z := by
      intro y z
      bv_omega
    rw [Memory.Apart, slotAddress, slotAddress, hcancel, hcancel] at hany
    exact hany
  · have href := ref_probe hps hu hl₀ hhome x₀ hp
    rw [hmem, Operand.ref, Operand.ref, hx] at href
    cases htip : mem.address (tipped a l₀) with
    | none => rw [htip] at href; exact absurd href (by simp)
    | some y =>
      rw [htip, Option.map_some, Option.map_some, Option.some.injEq, Ref.load.injEq] at href
      exact (isFar_tipped hsrc hslot (href ▸ htip)).apart hdisp

/-- Two meanings of a source that the probe tells apart. -/
inductive Told : Ref → Ref → Prop
  | word : Told (.word (level + 1)) (.word level)
  | load {x y : Word} : IsFar x → IsFar y → x ≠ y → Told (.load x) (.load y)

/-- A source that reads the location means something else when all places hold the same. -/
theorem told_of_reads (hsrc : IsPhiSource src) {v : VReg} (hv : .virt v ∈ src.regs)
    (hl₀ : a.location? v = some l₀) :
    ∃ want got, src.ref (tipped a l₀) = some want ∧ src.ref (levelled level) = some got ∧
      Told want got := by
  have htip : tipped a l₀ (.virt v) = some (level + 1) := by rw [tipped, if_pos hl₀]
  cases src with
  | imm w => exact absurd hv List.not_mem_nil
  | reg r width =>
    obtain rfl := List.mem_singleton.mp hv
    obtain rfl : width = 8 := hsrc
    refine ⟨_, _, ?_, rfl, .word⟩
    rw [Operand.ref, if_pos rfl, htip]
    rfl
  | mem mem =>
    have hslot : mem ≠ .frame mem.disp := by
      intro heq
      rw [Operand.regs, heq] at hv
      exact absurd hv (by simp [Mem.frame, Mem.based, Mem.regs])
    obtain ⟨x, y, hx, hy, hne, hfar, hfar'⟩ := address_tipped_ne hsrc hslot ⟨_, hv, htip⟩
    exact ⟨.load x, .load y, by rw [Operand.ref, hx]; rfl, by rw [Operand.ref, hy]; rfl,
      .load hfar hfar' hne⟩
  | label id => exact hsrc.elim
  | symbol name => exact hsrc.elim

/-- The address at which the probe shows what is read. -/
def Machine.Ref.probed : Ref → Word
  | word _ => 0
  | load x => x

theorem Told.value_ne {want got : Ref} (h : Told want got) (hhome : l₀.IsHome) :
    want.value (probe l₀ want.probed).mem ≠ got.value (probe l₀ want.probed).mem := by
  cases h with
  | word =>
    rw [Ref.value, Ref.value]
    decide
  | load hx hy hne => exact probe_word_ne hhome hx hy hne

/-- What is read when all places hold the same is not changed by the copies. -/
theorem Told.value_of_unchanged {want got : Ref} (h : Told want got) (hps : Assignable a ps)
    (hhome : l₀.IsHome) (hs : Unchanged a ps (probe l₀ x₀) s) :
    got.value s.mem = got.value (probe l₀ x₀).mem := by
  cases h with
  | word => rfl
  | load _ hy _ =>
    refine hs.word fun p hp d hd ↦ ?_
    rw [slotAddress_probe hhome]
    exact hy.apart (hps.places.isDisplacement (dst_mem_assignedRegs hp) hd)

/-! ## The condition is needed -/

theorem indexScratch_mem_regs {vs : List VReg} (hp : a.Places vs) (hsrc : IsCopySource vs src)
    (h : .phys .indexScratch ∈ readsIn a src) : .phys .indexScratch ∈ src.regs := by
  rcases exists_part_of_mem_readsIn h with ⟨r, hr, heq⟩ | ⟨mem, -, heq⟩
  · cases r with
    | virt v => exact absurd heq (place_virt_ne hp (hsrc.part hr) (by decide))
    | phys q =>
      obtain rfl : q = .indexScratch := by simpa [Allocation.place, Operand.phys] using heq
      exact hr
  · exact absurd heq (by simp [Operand.phys])

/-- A source that reads a parked place in `r11` has a part with that place. -/
theorem exists_parked_part (hps : Assignable a ps) {p q : Assignment} (hp : p ∈ ps) (hq : q ∈ ps)
    (h : .phys .indexScratch ∈ (parkedSource a (some (a.place (.virt q.1))) p.2).regs) :
    ∃ v, .virt v ∈ p.2.regs ∧ a.location? v = a.location? q.1 := by
  rw [parkedSource, regs_mapRegs] at h
  obtain ⟨r, hr, heq⟩ := List.mem_map.mp h
  rcases virt_of_mem_regs (hps.sources p hp) hr with rfl | ⟨v, rfl, hv⟩
  · rw [substitute, if_neg fun hplace ↦ ?_] at heq
    · exact absurd heq (by decide)
    · exact place_virt_ne hps.places (dst_mem_assignedRegs hq) rbp_not_mem_allocatable hplace.symm
  · rw [substitute] at heq
    split at heq
    next hplace =>
      exact ⟨v, hr, location_eq_of_place_eq hps.places (vregs_subset_assignedRegs hp hv)
        (dst_mem_assignedRegs hq) hplace⟩
    next => exact absurd heq (by simp)

/-- A virtual register that is left in a source does not have the parked place. -/
theorem not_parked_of_mem {o : Operand} {v : VReg}
    (h : .virt v ∈ (parkedSource a (some o) src).regs) : a.place (.virt v) ≠ o := by
  rw [parkedSource, regs_mapRegs] at h
  obtain ⟨r, -, heq⟩ := List.mem_map.mp h
  rw [substitute] at heq
  split at heq
  next => exact absurd heq (by simp)
  next hne => exact heq ▸ hne

/-- If the rounds are disturbed, some state shows it. -/
theorem exists_not_assigned (hps : Assignable a ps) (hapart : ∃ s, SourcesApart a ps s)
    (hrounds : Rounds a (copiesOf a ps) rs) (hdisturbed : isUndisturbed rs = false) :
    ∃ s, SourcesApart a ps s ∧ ∀ s', s.run (rs.flatMap (·.2.insts)) = some s' →
      ¬ AssignedInParallel a ps s s' := by
  have hpending := pending_copiesOf hps hapart.choose_spec
  obtain ⟨moves, r, rest, parked, hrest, hpending, hparked, hover, ⟨m, hm, hread⟩, hreach⟩ :=
    exists_disturbance hps hrounds hpending (parked_copiesOf a ps) hdisturbed
  obtain ⟨p, hp, hdst, hsrc⟩ := hparked.source m hm
  have hmoved : .phys .indexScratch ∈ (parkedSource a parked p.2).regs :=
    hsrc ▸ indexScratch_mem_regs hps.places (hpending.source m hm) (hpending.reads m hm ▸ hread)
  obtain ⟨o, rfl⟩ : ∃ o, parked = some o := by
    cases parked with
    | some o => exact ⟨o, rfl⟩
    | none =>
      rcases virt_of_mem_regs (hps.sources p hp) hmoved with h | ⟨v, h, -⟩
      · exact absurd h (by decide)
      · exact absurd h (by simp)
  obtain ⟨q, hq, rfl⟩ := hparked.place o rfl
  have hqv := dst_mem_assignedRegs hq
  obtain ⟨l₀, hl₀, hhome⟩ := hps.places.home q.1 hqv
  obtain ⟨v, hv, hvl₀⟩ := exists_parked_part hps hp hq hmoved
  obtain ⟨want, got, hwant, hgot, htold⟩ :=
    told_of_reads (hps.sources p hp) hv (hvl₀.trans hl₀)
  have hprobe := sourcesApart_probe hps hapart hqv hl₀ hhome want.probed
  refine ⟨probe l₀ want.probed, hprobe, fun s' hrun hassigned ↦ ?_⟩
  obtain ⟨s₁, huntouched, hrun₁⟩ := hreach _ _ s' (.refl a ps _ _) hrun
  have hlevelled : Levelled a ps level (probe l₀ want.probed) s₁ moves := by
    refine ⟨huntouched, fun m' hm' u hu ↦ ?_, probe_rbp hhome⟩
    obtain ⟨p', hp', -, hsrc'⟩ := hparked.source m' hm'
    have hne := not_parked_of_mem (hsrc' ▸ hu)
    have hmem : u ∈ assignedRegs ps := (hpending.source m' hm').part hu
    rw [valueIn_probe hps.places hqv hl₀ hmem, tipped, if_neg fun heq ↦ hne ?_]
    exact place_eq_of_location_eq (heq.trans hl₀.symm)
  have hlost := hlevelled.lost hps hrest hpending hparked.forAssignments (Or.inr ⟨r, rfl, hover⟩)
    hp hm hdst
    (by rw [hsrc]; exact (ref_levelled_substitute hps.places hqv _ _).trans hgot)
    (fun s₁ hs₁ ↦ htold.value_of_unchanged hps hhome hs₁) hrun₁
  have hvalue := hassigned.values p hp
  rw [hlost, Operand.value, ref_probe hps hqv hl₀ hhome _ hp, hwant, Option.map_some,
    Option.some.injEq] at hvalue
  exact htold.value_ne hhome hvalue.symm

/-! ## Registers only -/

/-- Every register of `ps` is in a machine register. -/
def InRegisters (a : Allocation) (ps : List Assignment) : Prop :=
  ∀ v ∈ assignedRegs ps, ∃ r ∈ PhysReg.allocatable, a.location? v = some (.register r)

instance (a : Allocation) (ps : List Assignment) : Decidable (InRegisters a ps) :=
  List.decidableBAll _ _

theorem InRegisters.assignable (h : InRegisters a ps)
    (hdistinct : (ps.map fun p ↦ a.location? p.1).Nodup) (hsources : ∀ p ∈ ps, IsPhiSource p.2) :
    Assignable a ps := by
  refine ⟨⟨fun v hv ↦ ?_, fun u hu v hv hne d e hd he ↦ ?_⟩, hdistinct, hsources⟩
  · obtain ⟨r, hr, hl⟩ := h v hv
    exact ⟨.register r, hl, hr⟩
  · obtain ⟨r, -, hl⟩ := h u hu
    rw [hl, Option.some.injEq] at hd
    exact absurd hd (by simp)

theorem InRegisters.sourcesApart (h : InRegisters a ps) (s : State) : SourcesApart a ps s := by
  intro p hp m hm x hx q hq d hd
  obtain ⟨r, -, hl⟩ := h q.1 (dst_mem_assignedRegs hq)
  rw [hl, Option.some.injEq] at hd
  exact absurd hd (by simp)

/-- The memory at the sum of two registers. -/
def atSum (u v : VReg) : Operand := .mem ⟨.virt u, 0, some (.virt v, 1)⟩

theorem isPhiSource_atSum (u v : VReg) : IsPhiSource (atSum u v) := by
  refine ⟨Or.inr ⟨u, rfl⟩, fun r scale h ↦ ?_, (by decide : IsDisplacement 0)⟩
  obtain ⟨rfl, rfl⟩ := Prod.mk.inj (Option.some.inj h)
  exact ⟨⟨v, rfl⟩, by decide⟩

/-- Three registers in machine registers. -/
def threeRegisters : Allocation :=
  { decisions := [.assign 0 .rbx, .assign 1 .rsi, .assign 2 .rdi] }

/-! ## The theorem -/

/-- **Phis with indexed operands.** The copies of an edge carry out all assignments at once, from
every state in which the memory that is read is apart from the slots that are written, exactly if
`r11` is never overwritten while a pending copy reads it. -/
theorem indexed_copies_assign_iff (a : Allocation) (blocks : List Block) {block : Block}
    {pred succ : Nat} (hblock : blocks[succ]? = some block)
    (hassignable : Assignable a (assignments pred block.phis))
    (hapart : ∃ s, SourcesApart a (assignments pred block.phis) s) :
    ∃ moves rs, EdgeMove.onEdge a blocks pred succ = .ok moves ∧ rounds a moves = .ok rs ∧
      EdgeMove.sequence a moves = .ok (rs.map (·.2)) ∧
      ((∀ s, SourcesApart a (assignments pred block.phis) s →
          ∃ s', s.run ((rs.map (·.2)).flatMap (·.insts)) = some s' ∧
            AssignedInParallel a (assignments pred block.phis) s s') ↔
        isUndisturbed rs = true) := by
  have hpending := pending_copiesOf hassignable hapart.choose_spec
  obtain ⟨rs, hrs, hrounds⟩ := exists_rounds hassignable.places hpending
  refine ⟨_, rs, onEdge_eq hblock hassignable, hrs, sequence_eq hrs, fun hall ↦ ?_,
    fun hquiet s hs ↦ ?_⟩
  · by_contra hdisturbed
    obtain ⟨s, hs, hnot⟩ := exists_not_assigned hassignable hapart hrounds
      (Bool.eq_false_iff.mpr hdisturbed)
    obtain ⟨s', hrun, hassigned⟩ := hall s hs
    rw [List.flatMap_map] at hrun
    exact hnot s' hrun hassigned
  · obtain ⟨s', hs', hdone⟩ := Simulates.run hassignable hs hrounds hpending
      (simulates_copiesOf hassignable s) hquiet
    refine ⟨s', ?_, hdone.assigned⟩
    rw [List.flatMap_map]
    exact hs'


/-- A block in which a loaded word takes the place of a register of its address. -/
def crossing : Block :=
  { id := 0, succs := [0], phis := [⟨0, [(atSum 1 2, 0)]⟩, ⟨1, [(.vreg 0, 0)]⟩] }

/-- One cycle is broken without harm. -/
theorem crossing_assigns :
    Assignable threeRegisters (assignments 0 crossing.phis) ∧
      ∃ moves rs, EdgeMove.onEdge threeRegisters [crossing] 0 0 = .ok moves ∧
        rounds threeRegisters moves = .ok rs ∧ isUndisturbed rs = true ∧
        ∀ s, SourcesApart threeRegisters (assignments 0 crossing.phis) s →
          ∃ s', s.run ((rs.map (·.2)).flatMap (·.insts)) = some s' ∧
            AssignedInParallel threeRegisters (assignments 0 crossing.phis) s s' := by
  have hregs : InRegisters threeRegisters (assignments 0 crossing.phis) := by decide
  have hassignable := hregs.assignable (by decide) (fun p hp ↦ by
    rcases List.mem_pair.mp hp with rfl | rfl
    · exact isPhiSource_atSum 1 2
    · exact rfl)
  obtain ⟨moves, rs, hmoves, hrounds, -, hiff⟩ := indexed_copies_assign_iff threeRegisters
    [crossing] (rfl : [crossing][0]? = some crossing) hassignable
    ⟨⟨fun _ ↦ 0, fun _ ↦ 0, default⟩, hregs.sourcesApart _⟩
  have hquiet : ((EdgeMove.onEdge threeRegisters [crossing] 0 0).bind
      (rounds threeRegisters)).map isUndisturbed = .ok true := rfl
  rw [hmoves, Except.bind, hrounds] at hquiet
  exact ⟨hassignable, moves, rs, hmoves, hrounds, Except.ok.inj hquiet,
    hiff.mpr (Except.ok.inj hquiet)⟩

/-- A block in which each of three registers becomes the word at the sum of the others. -/
def threeSums : Block :=
  { id := 0, succs := [0],
    phis := [⟨0, [(atSum 1 2, 0)]⟩, ⟨1, [(atSum 0 2, 0)]⟩, ⟨2, [(atSum 0 1, 0)]⟩] }

/-- A second cycle is broken with `r11` before the place that is parked there was read. -/
theorem threeSums_lost :
    Assignable threeRegisters (assignments 0 threeSums.phis) ∧
      ∃ s, SourcesApart threeRegisters (assignments 0 threeSums.phis) s ∧
        ∃ moves steps, EdgeMove.onEdge threeRegisters [threeSums] 0 0 = .ok moves ∧
          EdgeMove.sequence threeRegisters moves = .ok steps ∧
          ¬ ∃ s', s.run (steps.flatMap (·.insts)) = some s' ∧
            AssignedInParallel threeRegisters (assignments 0 threeSums.phis) s s' := by
  have hregs : InRegisters threeRegisters (assignments 0 threeSums.phis) := by decide
  have hassignable := hregs.assignable (by decide) (fun p hp ↦ by
    have hp : p ∈ [(0, atSum 1 2), (1, atSum 0 2), (2, atSum 0 1)] := hp
    simp only [List.mem_cons, List.not_mem_nil, or_false] at hp
    rcases hp with rfl | rfl | rfl <;> exact isPhiSource_atSum _ _)
  have hapart : ∃ s, SourcesApart threeRegisters (assignments 0 threeSums.phis) s :=
    ⟨⟨fun _ ↦ 0, fun _ ↦ 0, default⟩, hregs.sourcesApart _⟩
  obtain ⟨rs, hrs, hrounds⟩ := exists_rounds hassignable.places
    (pending_copiesOf hassignable hapart.choose_spec)
  have hdisturbed : (rounds threeRegisters (copiesOf threeRegisters
      (assignments 0 threeSums.phis))).map isUndisturbed = .ok false := rfl
  rw [hrs] at hdisturbed
  obtain ⟨s, hs, hnot⟩ :=
    exists_not_assigned hassignable hapart hrounds (Except.ok.inj hdisturbed)
  refine ⟨hassignable, s, hs, _, rs.map (·.2), onEdge_eq rfl hassignable, sequence_eq hrs, ?_⟩
  rintro ⟨s', hrun, hassigned⟩
  rw [List.flatMap_map] at hrun
  exact hnot s' hrun hassigned

end TreeCover
