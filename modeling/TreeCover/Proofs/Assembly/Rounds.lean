import TreeCover.Proofs.Assembly.Sequencing

/-!
# Rounds of copies between places

The copies of an edge have places of virtual registers as destinations, and their sources mention places
and `r11` only. That is the shape of copies that wait, with more: every copy moves a whole word. So
their rounds come to an end, and each of them moves a word or parks a place.
-/

namespace TreeCover

open Machine

variable {a : Allocation} {vs : List VReg} {v : VReg} {r : Reg} {src p : Operand}

/-! ## Places -/

theorem isSeat_place (hp : a.Places vs) (hv : v ∈ vs) : (a.place (.virt v)).isSeat = true := by
  rcases hp.cases hv with ⟨r, hr, hl⟩ | ⟨d, hl, -⟩
  · rw [Allocation.place_virt hl]
    simpa [Location.operand, Operand.phys, Operand.isSeat] using hr
  · rw [Allocation.place_virt hl]
    rfl

/-- The place of a virtual register is neither the frame pointer nor a scratch register. -/
theorem place_virt_ne (hp : a.Places vs) (hv : v ∈ vs) {q : PhysReg}
    (hq : q ∉ PhysReg.allocatable) : a.place (.virt v) ≠ .phys q :=
  ne_phys_of_isSeat (isSeat_place hp hv) hq

theorem IsPart.located (hp : a.Places vs) (hr : IsPart vs r) : a.LocatesReg r := by
  rintro v rfl
  obtain ⟨l, hl, -⟩ := hp.home v hr
  exact Option.isSome_iff_exists.mpr ⟨l, hl⟩

theorem IsCopySource.located (hp : a.Places vs) (hsrc : IsCopySource vs src) : a.Locates src := by
  intro v hv
  rw [vregs_eq_filterMap] at hv
  obtain ⟨r, hr, hvirt⟩ := List.mem_filterMap.mp hv
  cases r with
  | phys q => exact absurd hvirt nofun
  | virt u =>
    obtain rfl := Option.some.inj hvirt
    exact (hsrc.part hr).located hp u rfl

/-- A source with `r11` in place of `p` is a source. -/
theorem IsCopySource.substitute (h : IsCopySource vs src) (a : Allocation) (p : Operand) :
    IsCopySource vs (mapRegs (substitute a p) src) := by
  have hpart : ∀ r, IsPart vs r → IsPart vs (TreeCover.substitute a p r) := by
    intro r hr
    rw [TreeCover.substitute]
    split
    next => exact Or.inr rfl
    next => exact hr
  cases src with
  | imm w => trivial
  | reg r width => exact ⟨h.1, hpart r h.2⟩
  | mem m =>
    intro r hr
    have hr' : r ∈ (mapRegs (TreeCover.substitute a p) (.mem m)).regs := hr
    rw [regs_mapRegs] at hr'
    obtain ⟨q, hq, rfl⟩ := List.mem_map.mp hr'
    exact hpart q (h q hq)
  | label id => exact h.elim
  | symbol name => exact h.elim

/-! ## Pending copies -/

/-- The shape of the pending copies. -/
structure Pending (a : Allocation) (vs : List VReg) (moves : List EdgeMove) : Prop where
  dst : ∀ m ∈ moves, ∃ v ∈ vs, m.dst = a.place (.virt v)
  nodup : (moves.map (·.dst)).Nodup
  source : ∀ m ∈ moves, IsCopySource vs m.src
  reads : ∀ m ∈ moves, m.reads = readsIn a m.src
  /-- No source is a slot that is a destination; the slot of a source register may be one. -/
  notSlot : ∀ m ∈ moves, ∀ mem, m.src = .mem mem → ∀ m' ∈ moves, m'.dst ≠ .mem mem

variable {moves : List EdgeMove} {m : EdgeMove}

theorem Pending.sublist {moves' : List EdgeMove} (h : Pending a vs moves)
    (hsub : moves'.Sublist moves) : Pending a vs moves' where
  dst m hm := h.dst m (hsub.subset hm)
  nodup := (hsub.map _).nodup h.nodup
  source m hm := h.source m (hsub.subset hm)
  reads m hm := h.reads m (hsub.subset hm)
  notSlot m hm mem hmem m' hm' := h.notSlot m (hsub.subset hm) mem hmem m' (hsub.subset hm')

theorem Pending.eraseIdx (h : Pending a vs moves) (i : Nat) : Pending a vs (moves.eraseIdx i) :=
  h.sublist (List.eraseIdx_sublist moves i)

/-- Pending copies have the shape that the sequencing needs. -/
theorem Pending.waiting (h : Pending a vs moves) (hp : a.Places vs) : Waiting a moves where
  seat m hm := by
    obtain ⟨v, hv, hdst⟩ := h.dst m hm
    exact hdst ▸ isSeat_place hp hv
  nodup := h.nodup
  located m hm := (h.source m hm).located hp
  reads m hm := (h.reads m hm).symm ▸ readsOf_eq ((h.source m hm).located hp)
  notSlot m hm m' hm' := by
    rw [or_iff_not_imp_right, Bool.not_eq_false]
    intro hmem heq
    cases hsrc : m.src with
    | mem mem => exact h.notSlot m hm mem hsrc m' hm' (heq.symm.trans hsrc)
    | _ => rw [hsrc] at hmem; exact absurd hmem nofun

/-- A pending copy reads the destination of another only through a part of its source. -/
theorem Pending.mem_reads_iff (hp : a.Places vs) (h : Pending a vs moves) {m' : EdgeMove}
    (hm : m ∈ moves) (hm' : m' ∈ moves) :
    m'.dst ∈ m.reads ↔ ∃ r ∈ m.src.regs, a.place r = m'.dst :=
  (h.waiting hp).mem_reads_iff hm hm'

theorem Pending.park (hp : a.Places vs) (h : Pending a vs moves) (first : EdgeMove) :
    Pending a vs (moves.map (parkedIn a first.dst)) where
  dst m' hm' := by
    obtain ⟨m, hm, rfl⟩ := List.mem_map.mp hm'
    exact h.dst m hm
  nodup := by
    rw [List.map_map]
    exact h.nodup
  source m' hm' := by
    obtain ⟨m, hm, rfl⟩ := List.mem_map.mp hm'
    exact (h.source m hm).substitute a first.dst
  reads m' hm' := by
    obtain ⟨m, -, rfl⟩ := List.mem_map.mp hm'
    rfl
  notSlot _ hm' _ hmem _ hn' := ((h.waiting hp).park first.dst).ne_slot hm' hn' hmem

/-! ## Rounds -/

/-- What rounds there are for copies: each makes a copy that is ready, or parks the first
destination if none is. -/
inductive Rounds (a : Allocation) : List EdgeMove → List Round → Prop where
  | done : Rounds a [] []
  | move {moves : List EdgeMove} {i : Nat} {m : EdgeMove} {loads : List Inst} {src : Operand}
      {rs : List Round} : moves[i]? = some m → (∀ m' ∈ moves.eraseIdx i, m.dst ∉ m'.reads) →
      Placement.operand a m.src = .ok (loads, src, 8) → Rounds a (moves.eraseIdx i) rs →
      Rounds a moves ((moves, .move (loads ++ EdgeMove.copy m.dst src)) :: rs)
  | park {first : EdgeMove} {rest : List EdgeMove} {rs : List Round} :
      (∀ i m, (first :: rest)[i]? = some m → ∃ m' ∈ (first :: rest).eraseIdx i, m.dst ∈ m'.reads) →
      Rounds a ((first :: rest).map (parkedIn a first.dst)) rs →
      Rounds a (first :: rest) ((first :: rest,
        .park first.dst (EdgeMove.copy (.phys .indexScratch) first.dst)) :: rs)

/-- The rounds of pending copies come to an end. -/
theorem exists_rounds (hp : a.Places vs) (h : Pending a vs moves) :
    ∃ rs, rounds a moves = .ok rs ∧ Rounds a moves rs := by
  suffices hrounds : ∃ rs, (Pending a vs moves → Rounds a moves rs) ∧
      rs.length ≤ 2 * moves.length ∧
      ∀ fuel, 2 * moves.length ≤ fuel → roundsFrom a fuel moves = .ok rs by
    obtain ⟨rs, hrounds, -, hfuel⟩ := hrounds
    exact ⟨rs, hfuel _ (Nat.le_refl _), hrounds h⟩
  refine (h.waiting hp).rounds_induct (P := fun moves rs ↦ Pending a vs moves → Rounds a moves rs)
    (fun _ ↦ .done)
    (fun moves i m loads src width rs _ hm hothers hplaced ih hpending ↦ ?_)
    fun first rest rs _ hnone ih hpending ↦ ?_
  · obtain ⟨loads', src', hplaced', -⟩ :=
      placed_operand hp (hpending.source m (List.mem_of_getElem? hm))
    obtain ⟨rfl, rfl, rfl⟩ : loads = loads' ∧ src = src' ∧ width = 8 := by
      simpa using hplaced.symm.trans hplaced'
    exact .move hm hothers hplaced (ih (hpending.eraseIdx i))
  · refine .park (fun i m hm ↦ ?_) (ih (hpending.park hp first))
    by_contra hnot
    refine absurd (isReady_iff.mpr ⟨m, hm, fun m' hm' hread ↦ hnot ⟨m', hm', hread⟩⟩) ?_
    rw [hnone i]
    decide

end TreeCover
