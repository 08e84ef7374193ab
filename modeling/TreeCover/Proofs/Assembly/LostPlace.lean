import TreeCover.Proofs.Assembly.ParallelCopy

/-!
# How a parked place is lost

If `r11` is overwritten while a pending copy reads it, the parked place is lost: the copy reads
what came in its place. To see what it reads, suppose that all places that are still read hold the
same word. Then everything that comes into `r11` from then on is that word, and the copy writes what
it would write if all places held it.
-/

namespace TreeCover

open Machine

variable {a : Allocation} {vs : List VReg} {ps : List Assignment} {s s' s₀ : State}
  {moves : List EdgeMove} {m : EdgeMove} {rs : List Round}

/-! ## What no round touches -/

/-- The registers that pending copies mention and the places they write are as in `s₀`. -/
structure Untouched (a : Allocation) (ps : List Assignment) (s₀ s : State)
    (moves : List EdgeMove) : Prop where
  reads : ∀ m ∈ moves, ∀ v, .virt v ∈ m.src.regs → a.valueIn s (.virt v) = a.valueIn s₀ (.virt v)
  dsts : ∀ p ∈ ps, (∃ m ∈ moves, m.dst = a.place (.virt p.1)) →
    a.valueIn s (.virt p.1) = a.valueIn s₀ (.virt p.1)
  unchanged : Unchanged a ps s₀ s

theorem Untouched.refl (a : Allocation) (ps : List Assignment) (s : State)
    (moves : List EdgeMove) : Untouched a ps s s moves :=
  ⟨fun _ _ _ _ ↦ rfl, fun _ _ _ ↦ rfl, .refl a ps s⟩

/-- Different pending copies have different destinations. -/
theorem Pending.dst_ne_of_mem_eraseIdx (h : Pending a vs moves) {i : Nat} (hm : moves[i]? = some m)
    {m' : EdgeMove} (hm' : m' ∈ moves.eraseIdx i) : m'.dst ≠ m.dst := by
  obtain ⟨j, hji, hj⟩ := List.mem_eraseIdx_iff_getElem?.mp hm'
  intro heq
  have hi := (List.getElem?_eq_some_iff.mp hm).1
  have hdst : (moves.map (·.dst))[j]? = (moves.map (·.dst))[i]? := by
    rw [List.getElem?_map, List.getElem?_map, hj, hm, Option.map_some, Option.map_some, heq]
  have hj' := (List.getElem?_eq_some_iff.mp hj).1
  exact hji ((List.getElem?_inj (by rwa [List.length_map]) h.nodup).mp hdst)

theorem Untouched.wrote (hps : Assignable a ps) (hpending : Pending a (assignedRegs ps) moves)
    (h : Untouched a ps s₀ s moves) {i : Nat} (hm : moves[i]? = some m)
    (hready : ∀ m' ∈ moves.eraseIdx i, m.dst ∉ m'.reads) {p : Assignment} (hp : p ∈ ps)
    (hdst : m.dst = a.place (.virt p.1)) {w : Word} (hw : Wrote a p.1 w s s') :
    Untouched a ps s₀ s' (moves.eraseIdx i) := by
  have hpv := dst_mem_assignedRegs hp
  refine ⟨fun m' hm' v hv ↦ ?_, fun q hq hpend ↦ ?_, h.unchanged.wrote hps hp hw⟩
  · have hm'' := List.mem_of_mem_eraseIdx hm'
    have hnot := hready m' hm'
    rw [hpending.reads m' hm'', hdst] at hnot
    rw [← h.reads m' hm'' v hv]
    refine hw.valueIn_of_ne hps.places hpv ((hpending.source m' hm'').part hv) fun heq ↦ hnot ?_
    exact mem_readsIn (isSeat_place hps.places hpv) hv (place_eq_of_location_eq heq)
  · obtain ⟨m', hm', hdst'⟩ := hpend
    have hne := hpending.dst_ne_of_mem_eraseIdx hm hm'
    rw [← h.dsts q hq ⟨m', List.mem_of_mem_eraseIdx hm', hdst'⟩]
    refine hw.valueIn_of_ne hps.places hpv (dst_mem_assignedRegs hq) fun heq ↦ hne ?_
    rw [hdst, hdst', place_eq_of_location_eq heq]

/-- A virtual register that a source mentions after parking is one that it mentioned before. -/
theorem virt_mem_of_mem_parked {p : Operand} {v : VReg}
    (hv : .virt v ∈ (parkedIn a p m).src.regs) : .virt v ∈ m.src.regs := by
  have hv : .virt v ∈ (mapRegs (substitute a p) m.src).regs := hv
  rw [regs_mapRegs] at hv
  obtain ⟨r, hr, heq⟩ := List.mem_map.mp hv
  rw [substitute] at heq
  split at heq
  next => exact absurd heq (by simp)
  next => exact heq ▸ hr

theorem Untouched.parked (hps : Assignable a ps) (hpending : Pending a (assignedRegs ps) moves)
    (h : Untouched a ps s₀ s moves) (p : Operand) (w : Word) :
    Untouched a ps s₀ (s.setReg .indexScratch w) (moves.map (parkedIn a p)) := by
  refine ⟨fun m' hm' v hv ↦ ?_, fun q hq hpend ↦ ?_, h.unchanged.setScratch (by decide) w⟩
  · obtain ⟨m, hm, rfl⟩ := List.mem_map.mp hm'
    have hold := virt_mem_of_mem_parked hv
    rw [← h.reads m hm v hold]
    exact valueIn_setReg hps.places ((hpending.source m hm).part hold) (by decide) (by simp) s w
  · obtain ⟨m', hm', hdst'⟩ := hpend
    obtain ⟨m, hm, rfl⟩ := List.mem_map.mp hm'
    rw [← h.dsts q hq ⟨m, hm, hdst'⟩]
    exact @valueIn_setReg a (assignedRegs ps) (.virt q.1) hps.places (dst_mem_assignedRegs hq)
      .indexScratch (by decide) (by simp) s w

/-! ## What a round does -/

/-- The steps of some rounds run one after the other. -/
theorem run_rounds_cons {r : Round} (hrun : s.run ((r :: rs).flatMap (·.2.insts)) = some s') :
    ∃ s₁, s.run r.2.insts = some s₁ ∧ s₁.run (rs.flatMap (·.2.insts)) = some s' := by
  rw [List.flatMap_cons, State.run_append] at hrun
  exact Option.bind_eq_some_iff.mp hrun

theorem move_effect (hp : a.Places vs) {v : VReg} (hv : v ∈ vs) (hsrc : IsCopySource vs m.src)
    (hdst : m.dst = a.place (.virt v)) {loads : List Inst} {src : Operand}
    (hplaced : Placement.operand a m.src = .ok (loads, src, 8))
    (hrun : s.run (loads ++ EdgeMove.copy m.dst src) = some s') :
    ∃ w, m.src.value (withScratch (indexScratchAfter a s m.src) (a.valueIn s)) s.mem = some w ∧
      Wrote a v w s s' ∧ s'.regs .indexScratch = indexScratchAfter a s m.src := by
  obtain ⟨loads', src', hplaced', heffect⟩ := run_move hp hv hsrc
  rw [hplaced, Except.ok.injEq, Prod.mk.injEq, Prod.mk.injEq] at hplaced'
  obtain ⟨rfl, rfl, -⟩ := hplaced'
  obtain ⟨w, s₁, hw, hrun', hwrote, hafter⟩ := heffect s
  rw [hdst, hrun', Option.some.injEq] at hrun
  subst hrun
  exact ⟨w, hw, hwrote, hafter⟩

theorem park_effect (hp : a.Places vs) {v : VReg} (hv : v ∈ vs) {o : Operand}
    (ho : o = a.place (.virt v))
    (hrun : s.run (EdgeMove.copy (.phys .indexScratch) o) = some s') :
    ∃ w, a.valueIn s (.virt v) = some w ∧ s' = s.setReg .indexScratch w := by
  obtain ⟨w, hw, hrun'⟩ := run_park hp hv s
  rw [ho, hrun', Option.some.injEq] at hrun
  exact ⟨w, hw, hrun.symm⟩

/-- Copies for assignments: each pending copy writes the destination of one of them. -/
def ForAssignments (a : Allocation) (ps : List Assignment) (moves : List EdgeMove) : Prop :=
  ∀ m ∈ moves, ∃ p ∈ ps, m.dst = a.place (.virt p.1)

theorem ForAssignments.eraseIdx (h : ForAssignments a ps moves) (i : Nat) :
    ForAssignments a ps (moves.eraseIdx i) := fun m hm ↦ h m (List.mem_of_mem_eraseIdx hm)

theorem ForAssignments.park (h : ForAssignments a ps moves) (p : Operand) :
    ForAssignments a ps (moves.map (parkedIn a p)) := by
  intro m' hm'
  obtain ⟨m, hm, rfl⟩ := List.mem_map.mp hm'
  exact h m hm

/-- A finished destination keeps its value. -/
theorem valueIn_of_finished (hps : Assignable a ps) (hrounds : Rounds a moves rs)
    (hpending : Pending a (assignedRegs ps) moves) (hfor : ForAssignments a ps moves)
    {p : Assignment} (hp : p ∈ ps) (hfinished : ∀ m ∈ moves, m.dst ≠ a.place (.virt p.1))
    (hrun : s.run (rs.flatMap (·.2.insts)) = some s') :
    a.valueIn s' (.virt p.1) = a.valueIn s (.virt p.1) := by
  induction hrounds generalizing s with
  | done =>
    obtain rfl := Option.some.inj hrun
    rfl
  | @move moves i m loads src rs hm hready hplaced _ ih =>
    obtain ⟨s₁, hs₁, hrest⟩ := run_rounds_cons hrun
    have hmem := List.mem_of_getElem? hm
    obtain ⟨q, hq, hdst⟩ := hfor m hmem
    obtain ⟨w, -, hwrote, -⟩ := move_effect hps.places (dst_mem_assignedRegs hq)
      (hpending.source m hmem) hdst hplaced hs₁
    rw [ih (hpending.eraseIdx i) (hfor.eraseIdx i)
      (fun m' hm' ↦ hfinished m' (List.mem_of_mem_eraseIdx hm')) hrest]
    refine hwrote.valueIn_of_ne hps.places (dst_mem_assignedRegs hq) (dst_mem_assignedRegs hp) ?_
    intro heq
    exact hfinished m hmem (hdst.trans (place_eq_of_location_eq heq).symm)
  | @park first rest rs _ _ ih =>
    obtain ⟨s₁, hs₁, hrest⟩ := run_rounds_cons hrun
    obtain ⟨q, hq, hdst⟩ := hfor first List.mem_cons_self
    obtain ⟨w, -, rfl⟩ := park_effect hps.places (dst_mem_assignedRegs hq) hdst hs₁
    rw [ih (hpending.park hps.places first) (hfor.park _) (fun m' hm' ↦ ?_) hrest]
    · exact @valueIn_setReg a (assignedRegs ps) (.virt p.1) hps.places (dst_mem_assignedRegs hp)
        .indexScratch (by decide) (by simp) s w
    · obtain ⟨m, hm, rfl⟩ := List.mem_map.mp hm'
      exact hfinished m hm

/-! ## After a place was lost -/

/-- The values when all places and `r11` hold `c`; the frame pointer holds `0`. -/
def levelled (c : Word) (r : Reg) : Option Word := if r = .phys .rbp then some 0 else some c

/-- Where all places hold the same it makes no difference that one of them is parked. -/
theorem ref_levelled_substitute (hp : a.Places vs) {v : VReg} (hv : v ∈ vs) (c : Word)
    (src : Operand) : (mapRegs (substitute a (a.place (.virt v))) src).ref (levelled c)
      = src.ref (levelled c) := by
  refine (ref_mapRegs _ _ _).trans (Operand.ref_congr fun r hr ↦ ?_)
  rw [substitute]
  split
  next hplace =>
    have hne : r ≠ .phys .rbp := by
      rintro rfl
      exact place_virt_ne hp hv rbp_not_mem_allocatable hplace.symm
    rw [levelled, levelled, if_neg (by decide), if_neg hne]
  next => rfl

/-- Every place of `s₀` that pending copies still read holds `c`. -/
structure Levelled (a : Allocation) (ps : List Assignment) (c : Word) (s₀ s : State)
    (moves : List EdgeMove) : Prop where
  untouched : Untouched a ps s₀ s moves
  reads : ∀ m ∈ moves, ∀ v, .virt v ∈ m.src.regs → a.valueIn s₀ (.virt v) = some c
  rbp : s₀.regs .rbp = 0

/-- In a levelled state a copy reads what it reads when all places hold the same. -/
theorem Levelled.ref_eq {c : Word} (hps : Assignable a ps)
    (hpending : Pending a (assignedRegs ps) moves) (h : Levelled a ps c s₀ s moves) (hm : m ∈ moves)
    {x : Word} (hx : x = c) :
    m.src.ref (withScratch x (a.valueIn s)) = m.src.ref (levelled c) := by
  refine Operand.ref_congr fun r hr ↦ ?_
  rw [withScratch, levelled, hx]
  cases r with
  | virt v =>
    rw [if_neg (by simp), if_neg (by simp), h.untouched.reads m hm v hr, h.reads m hm v hr]
  | phys q =>
    rcases (hpending.source m hm).part hr with rfl | rfl
    · rw [if_neg (by decide), if_pos rfl]
      exact congrArg some ((h.untouched.unchanged.rbp hps).trans h.rbp)
    · rw [if_pos rfl, if_neg (by decide)]

/-- Loading an index brings `c` into `r11`, or leaves it. -/
theorem Levelled.indexScratchAfter_eq {c : Word} (h : Levelled a ps c s₀ s moves) (hm : m ∈ moves)
    (hscratch : (loadedIndex? a m.src).isSome ∨ s.regs .indexScratch = c) :
    indexScratchAfter a s m.src = c := by
  rw [indexScratchAfter]
  cases hload : loadedIndex? a m.src with
  | none =>
    rw [hload] at hscratch
    exact hscratch.resolve_left (by simp)
  | some r =>
    -- A loaded index is a virtual register of the source.
    have hvirt : ∃ v, r = .virt v ∧ .virt v ∈ m.src.regs := by
      cases hop : m.src with
      | mem mem =>
        rw [hop, loadedIndex?] at hload
        obtain ⟨hsome, hspilled⟩ := Option.filter_eq_some_iff.mp hload
        obtain ⟨part, hpart, rfl⟩ := Option.map_eq_some_iff.mp hsome
        cases hr : part.1 with
        | phys q => rw [hr] at hspilled; exact absurd hspilled (by simp [isSpilled])
        | virt v => exact ⟨v, rfl, by simp [Operand.regs, Mem.regs, hpart, hr]⟩
      | imm w => rw [hop] at hload; exact absurd hload (by simp [loadedIndex?])
      | reg r width => rw [hop] at hload; exact absurd hload (by simp [loadedIndex?])
      | label id => rw [hop] at hload; exact absurd hload (by simp [loadedIndex?])
      | symbol name => rw [hop] at hload; exact absurd hload (by simp [loadedIndex?])
    obtain ⟨v, rfl, hv⟩ := hvirt
    rw [Option.bind_some, h.untouched.reads m hm v hv, h.reads m hm v hv, Option.getD_some]

theorem Levelled.wrote {c : Word} (hps : Assignable a ps)
    (hpending : Pending a (assignedRegs ps) moves) (h : Levelled a ps c s₀ s moves) {i : Nat}
    (hm : moves[i]? = some m) (hready : ∀ m' ∈ moves.eraseIdx i, m.dst ∉ m'.reads) {p : Assignment}
    (hp : p ∈ ps) (hdst : m.dst = a.place (.virt p.1)) {w : Word} (hw : Wrote a p.1 w s s') :
    Levelled a ps c s₀ s' (moves.eraseIdx i) :=
  ⟨h.untouched.wrote hps hpending hm hready hp hdst hw,
    fun m' hm' ↦ h.reads m' (List.mem_of_mem_eraseIdx hm'), h.rbp⟩

theorem Levelled.parked {c : Word} (hps : Assignable a ps)
    (hpending : Pending a (assignedRegs ps) moves) (h : Levelled a ps c s₀ s moves) (p : Operand)
    (w : Word) : Levelled a ps c s₀ (s.setReg .indexScratch w) (moves.map (parkedIn a p)) := by
  refine ⟨h.untouched.parked hps hpending p w, fun m' hm' v hv ↦ ?_, h.rbp⟩
  obtain ⟨m, hm, rfl⟩ := List.mem_map.mp hm'
  exact h.reads m hm v (virt_mem_of_mem_parked hv)

/-- A location that has to be parked is read, so it holds `c`. -/
theorem Levelled.parked_value {c : Word} (hps : Assignable a ps)
    (hpending : Pending a (assignedRegs ps) moves) (h : Levelled a ps c s₀ s moves)
    (hm : m ∈ moves) {m' : EdgeMove} (hm' : m' ∈ moves) (hread : m.dst ∈ m'.reads)
    {p : Assignment} (hp : p ∈ ps) (hdst : m.dst = a.place (.virt p.1)) :
    a.valueIn s (.virt p.1) = some c := by
  have hpv := dst_mem_assignedRegs hp
  obtain ⟨r, hr, hplace⟩ := (hpending.mem_reads_iff hps.places hm' hm).mp hread
  have hpart := (hpending.source m' hm').part hr
  rw [hdst] at hplace
  rw [← valueIn_eq_of_place_eq hps.places hpv hpart hplace s]
  cases r with
  | virt v => rw [h.untouched.reads m' hm' v hr, h.reads m' hm' v hr]
  | phys q =>
    have hne := @place_virt_ne a (assignedRegs ps) p.1 hps.places hpv q
    rcases hpart with rfl | rfl <;> exact absurd hplace.symm (hne (by decide))

/-- **A lost place.** Once `r11` is overwritten by `c` a copy that still reads it writes what it
would write if all places held `c`. -/
theorem Levelled.lost {c : Word} (hps : Assignable a ps) (hrounds : Rounds a moves rs)
    (hpending : Pending a (assignedRegs ps) moves) (hfor : ForAssignments a ps moves)
    (h : Levelled a ps c s₀ s moves)
    (hscratch : s.regs .indexScratch = c ∨ ∃ r ∈ rs.head?, overwritesScratch r.2.insts = true)
    {p : Assignment} (hp : p ∈ ps) {m₀ : EdgeMove} (hm₀ : m₀ ∈ moves)
    (hdst₀ : m₀.dst = a.place (.virt p.1)) {ref : Ref} (href : m₀.src.ref (levelled c) = some ref)
    (hvalue : ∀ s₁, Unchanged a ps s₀ s₁ → ref.value s₁.mem = ref.value s₀.mem)
    (hrun : s.run (rs.flatMap (·.2.insts)) = some s') :
    a.valueIn s' (.virt p.1) = some (ref.value s₀.mem) := by
  induction hrounds generalizing s m₀ with
  | done => exact absurd hm₀ List.not_mem_nil
  | @move moves i m loads src rs hm hready hplaced hrounds ih =>
    obtain ⟨s₁, hs₁, hrest⟩ := run_rounds_cons hrun
    have hmem := List.mem_of_getElem? hm
    obtain ⟨q, hq, hdst⟩ := hfor m hmem
    obtain ⟨w, hw, hwrote, hafter⟩ := move_effect hps.places (dst_mem_assignedRegs hq)
      (hpending.source m hmem) hdst hplaced hs₁
    have hx : indexScratchAfter a s m.src = c := by
      refine h.indexScratchAfter_eq hmem (hscratch.symm.imp_left ?_)
      rintro ⟨r, hr, hover⟩
      obtain rfl := Option.some.inj hr
      rw [← overwrites_move hps.places (dst_mem_assignedRegs hq) hplaced, ← hdst]
      exact hover
    by_cases hqp : q = p
    · -- The copy that comes too late: what it writes is not written again.
      subst hqp
      obtain rfl : m₀ = m := by
        by_contra hne
        obtain ⟨j, hj⟩ := List.mem_iff_getElem?.mp hm₀
        have hji : j ≠ i := by
          rintro rfl
          exact hne (Option.some.inj (hj.symm.trans hm))
        exact hpending.dst_ne_of_mem_eraseIdx hm
          (List.mem_eraseIdx_iff_getElem?.mpr ⟨j, hji, hj⟩) (hdst₀.trans hdst.symm)
      rw [Operand.value, h.ref_eq hps hpending hmem hx, href, Option.map_some,
        hvalue s h.untouched.unchanged] at hw
      rw [valueIn_of_finished hps hrounds (hpending.eraseIdx i) (hfor.eraseIdx i) hq
        (fun m' hm' ↦ hdst ▸ hpending.dst_ne_of_mem_eraseIdx hm hm') hrest, hwrote.value, hw]
    · obtain ⟨j, hj⟩ := List.mem_iff_getElem?.mp hm₀
      have hji : j ≠ i := by
        rintro rfl
        obtain rfl := Option.some.inj (hj.symm.trans hm)
        exact hps.location_ne hq hp hqp (location_eq_of_place_eq hps.places
          (dst_mem_assignedRegs hq) (dst_mem_assignedRegs hp) (hdst.symm.trans hdst₀))
      exact ih (hpending.eraseIdx i) (hfor.eraseIdx i)
        (h.wrote hps hpending hm hready hq hdst hwrote) (Or.inl (hafter.trans hx))
        (List.mem_eraseIdx_iff_getElem?.mpr ⟨j, hji, hj⟩) hdst₀ href hrest
  | @park first rest rs hnone hrounds ih =>
    obtain ⟨s₁, hs₁, hrest⟩ := run_rounds_cons hrun
    obtain ⟨q, hq, hdst⟩ := hfor first List.mem_cons_self
    obtain ⟨w, hw, rfl⟩ := park_effect hps.places (dst_mem_assignedRegs hq) hdst hs₁
    obtain ⟨m', hm', hread⟩ := hnone 0 first rfl
    have hc := h.parked_value hps hpending List.mem_cons_self (List.mem_of_mem_eraseIdx hm') hread
      hq hdst
    obtain rfl := Option.some.inj (hw.symm.trans hc)
    refine ih (hpending.park hps.places first) (hfor.park _) (h.parked hps hpending _ w)
      (Or.inl (s.regs_setReg_self _ w)) (List.mem_map_of_mem hm₀) hdst₀ ?_ hrest
    exact hdst ▸ (ref_levelled_substitute hps.places (dst_mem_assignedRegs hq) _ _).trans href

/-! ## The first disturbance -/

/-- A source with the parked place, if there is one, taken from `r11`. -/
def parkedSource (a : Allocation) (parked : Option Operand) (src : Operand) : Operand :=
  match parked with
  | some p => mapRegs (substitute a p) src
  | none => src

/-- The pending copies are those of assignments, with at most one place taken from `r11`. -/
structure Parked (a : Allocation) (ps : List Assignment) (parked : Option Operand)
    (moves : List EdgeMove) : Prop where
  source : ∀ m ∈ moves, ∃ p ∈ ps, m.dst = a.place (.virt p.1) ∧
    m.src = parkedSource a parked p.2
  place : ∀ o, parked = some o → ∃ p ∈ ps, o = a.place (.virt p.1)

theorem Parked.forAssignments {parked : Option Operand} (h : Parked a ps parked moves) :
    ForAssignments a ps moves := fun m hm ↦ by
  obtain ⟨p, hp, hdst, -⟩ := h.source m hm
  exact ⟨p, hp, hdst⟩

theorem parked_copiesOf (a : Allocation) (ps : List Assignment) :
    Parked a ps none (copiesOf a ps) := by
  refine ⟨fun m hm ↦ ?_, fun o ho ↦ absurd ho (by simp)⟩
  obtain ⟨p, hp, rfl⟩ := List.mem_map.mp hm
  exact ⟨p, (List.mem_filter.mp hp).1, rfl, rfl⟩

theorem Parked.eraseIdx {parked : Option Operand} (h : Parked a ps parked moves) (i : Nat) :
    Parked a ps parked (moves.eraseIdx i) :=
  ⟨fun m hm ↦ h.source m (List.mem_of_mem_eraseIdx hm), h.place⟩

/-- A source that does not read `r11` has nothing parked in it. -/
theorem parkedSource_eq_self {parked : Option Operand} {src : Operand}
    (h : Reg.phys .indexScratch ∉ (parkedSource a parked src).regs) :
    parkedSource a parked src = src := by
  cases parked with
  | none => rfl
  | some p =>
    refine mapRegs_of_fixed fun r hr ↦ ?_
    rw [substitute]
    split
    next hplace =>
      refine absurd ?_ h
      rw [parkedSource, regs_mapRegs]
      exact List.mem_map.mpr ⟨r, hr, by rw [substitute, if_pos hplace]⟩
    next => rfl

/-- If nobody reads `r11` another place can be parked. -/
theorem Parked.park {parked : Option Operand} (h : Parked a ps parked moves)
    (hpending : Pending a vs moves) {first : EdgeMove} (hfirst : first ∈ moves)
    (hfree : ∀ m ∈ moves, .phys .indexScratch ∉ m.reads) :
    Parked a ps (some first.dst) (moves.map (parkedIn a first.dst)) := by
  refine ⟨fun m' hm' ↦ ?_, fun o ho ↦ ?_⟩
  · obtain ⟨m, hm, rfl⟩ := List.mem_map.mp hm'
    obtain ⟨p, hp, hdst, hsrc⟩ := h.source m hm
    refine ⟨p, hp, hdst, ?_⟩
    have hnot := indexScratch_not_mem_regs (hpending.reads m hm ▸ hfree m hm)
    rw [hsrc] at hnot
    rw [parkedSource_eq_self hnot] at hsrc
    rw [← hsrc]
    rfl
  · obtain rfl := Option.some.inj ho
    obtain ⟨p, hp, hdst, -⟩ := h.source first hfirst
    exact ⟨p, hp, hdst⟩

/-- **The first disturbance.** In a sequence that is disturbed the rounds before the first
disturbance leave behind pending copies that read at most one parked place. -/
theorem exists_disturbance (hps : Assignable a ps) (hrounds : Rounds a moves rs)
    (hpending : Pending a (assignedRegs ps) moves) {parked : Option Operand}
    (hparked : Parked a ps parked moves) (hdisturbed : isUndisturbed rs = false) :
    ∃ moves' r rest parked', Rounds a moves' (r :: rest) ∧ Pending a (assignedRegs ps) moves' ∧
      Parked a ps parked' moves' ∧ overwritesScratch r.2.insts = true ∧
      (∃ m ∈ moves', .phys .indexScratch ∈ m.reads) ∧
      ∀ s₀ s s', Untouched a ps s₀ s moves → s.run (rs.flatMap (·.2.insts)) = some s' →
        ∃ s₁, Untouched a ps s₀ s₁ moves' ∧
          s₁.run ((r :: rest).flatMap (·.2.insts)) = some s' := by
  induction hrounds generalizing parked with
  | done => exact absurd hdisturbed (by decide)
  | @move moves i m loads src rs hm hready hplaced hrounds ih =>
    cases hquiet : Round.isQuiet (moves, .move (loads ++ EdgeMove.copy m.dst src)) with
    | false =>
      have hloud := mt Round.isQuiet_iff.mpr (by rw [hquiet]; decide)
      push Not at hloud
      obtain ⟨hover, m', hm', hread⟩ := hloud
      exact ⟨moves, _, rs, parked, .move hm hready hplaced hrounds, hpending, hparked, hover,
        ⟨m', hm', hread⟩, fun s₀ s s' hs hrun ↦ ⟨s, hs, hrun⟩⟩
    | true =>
      rw [isUndisturbed, List.all_cons, hquiet, Bool.true_and] at hdisturbed
      obtain ⟨moves', r, rest, parked', hr, hp', hk', hover, hread, hreach⟩ :=
        ih (hpending.eraseIdx i) (hparked.eraseIdx i) hdisturbed
      refine ⟨moves', r, rest, parked', hr, hp', hk', hover, hread, fun s₀ s s' hs hrun ↦ ?_⟩
      obtain ⟨s₁, hs₁, hrest⟩ := run_rounds_cons hrun
      have hmem := List.mem_of_getElem? hm
      obtain ⟨q, hq, hdst⟩ := hparked.forAssignments m hmem
      obtain ⟨w, -, hwrote, -⟩ := move_effect hps.places (dst_mem_assignedRegs hq)
        (hpending.source m hmem) hdst hplaced hs₁
      exact hreach s₀ s₁ s' (hs.wrote hps hpending hm hready hq hdst hwrote) hrest
  | @park first rest rs hnone hrounds ih =>
    cases hquiet : Round.isQuiet (first :: rest,
        .park first.dst (EdgeMove.copy (.phys .indexScratch) first.dst)) with
    | false =>
      have hloud := mt Round.isQuiet_iff.mpr (by rw [hquiet]; decide)
      push Not at hloud
      obtain ⟨hover, m', hm', hread⟩ := hloud
      exact ⟨_, _, rs, parked, .park hnone hrounds, hpending, hparked, hover, ⟨m', hm', hread⟩,
        fun s₀ s s' hs hrun ↦ ⟨s, hs, hrun⟩⟩
    | true =>
      rw [isUndisturbed, List.all_cons, hquiet, Bool.true_and] at hdisturbed
      have hfree := Round.isQuiet_iff.mp hquiet (overwrites_park first.dst)
      obtain ⟨moves', r, rest', parked', hr, hp', hk', hover, hread, hreach⟩ :=
        ih (hpending.park hps.places first) (hparked.park hpending List.mem_cons_self hfree)
          hdisturbed
      refine ⟨moves', r, rest', parked', hr, hp', hk', hover, hread, fun s₀ s s' hs hrun ↦ ?_⟩
      obtain ⟨s₁, hs₁, hrest⟩ := run_rounds_cons hrun
      obtain ⟨q, hq, hdst⟩ := hparked.forAssignments first List.mem_cons_self
      obtain ⟨w, -, rfl⟩ := park_effect hps.places (dst_mem_assignedRegs hq) hdst hs₁
      exact hreach s₀ _ s' (hs.parked hps hpending _ w) hrest

end TreeCover
