import Mathlib.Data.List.Nodup
import TreeCover.Proofs.Assembly.Rounds

/-!
# Assignments on an edge

On an edge into a block every phi is assigned one operand. This module says what it means to carry
out these assignments at once, and which copies they become: one for each assignment that does
something, of the shape that the sequencing works on.
-/

namespace TreeCover

open Machine

/-- A register and the operand that is assigned to it. -/
abbrev Assignment := VReg × Operand

/-- What block `pred` assigns to phis: each operand it hands over, to the phi's register. -/
def assignments (pred : Nat) (phis : List Phi) : List Assignment :=
  phis.flatMap fun phi ↦ (phi.inputsFrom pred).map fun src ↦ (phi.dst, src)

/-- An operand that a phi takes: a constant, a whole register, or memory addressed from a register
or from the frame, with or without an index. -/
def IsPhiSource : Operand → Prop
  | .imm _ => True
  | .reg (.virt _) width => width = 8
  | .mem m => (m.base = .phys .rbp ∨ ∃ v, m.base = .virt v) ∧
      (∀ r scale, m.index = some (r, scale) → (∃ v, r = .virt v) ∧ scale ∈ [1, 2, 4, 8]) ∧
      IsDisplacement m.disp
  | _ => False

/-- The registers of assignments. -/
def assignedRegs (ps : List Assignment) : List VReg := ps.flatMap fun p ↦ p.1 :: p.2.vregs

/-- Assignments whose registers have places, those of the destinations being different. -/
structure Assignable (a : Allocation) (ps : List Assignment) : Prop where
  places : a.Places (assignedRegs ps)
  distinct : (ps.map fun p ↦ a.location? p.1).Nodup
  sources : ∀ p ∈ ps, IsPhiSource p.2

/-- In state `s`, no memory that is read shares a byte with a slot that is written. -/
def SourcesApart (a : Allocation) (ps : List Assignment) (s : State) : Prop :=
  ∀ p ∈ ps, ∀ m, p.2 = .mem m → ∀ x, m.address (a.valueIn s) = some x →
    ∀ q ∈ ps, ∀ d, a.location? q.1 = some (.stack (.frame d)) → Memory.Apart x (slotAddress s d)

/-- From `s` to `s'` nothing changes but destinations and scratch registers. -/
structure Unchanged (a : Allocation) (ps : List Assignment) (s s' : State) : Prop where
  regs : ∀ r ∉ scratchRegs, (∀ p ∈ ps, a.location? p.1 ≠ some (.register r)) →
    s'.regs r = s.regs r
  mem : ∀ x, (∀ p ∈ ps, ∀ d, a.location? p.1 = some (.stack (.frame d)) →
    ¬ Memory.InBytes (slotAddress s d) 8 x) → s'.mem x = s.mem x
  flags : s'.flags = s.flags

/-- From `s` to `s'` all assignments are carried out, with the operands as they are in `s`. -/
structure AssignedInParallel (a : Allocation) (ps : List Assignment) (s s' : State) : Prop where
  values : ∀ p ∈ ps, a.valueIn s' (.virt p.1) = p.2.value (a.valueIn s) s.mem
  unchanged : Unchanged a ps s s'

variable {a : Allocation} {vs : List VReg} {ps : List Assignment} {s s' s₀ : State}
  {moves : List EdgeMove} {m : EdgeMove}

theorem dst_mem_assignedRegs {p : Assignment} (hp : p ∈ ps) : p.1 ∈ assignedRegs ps :=
  List.mem_flatMap.mpr ⟨p, hp, List.mem_cons_self⟩

theorem vregs_subset_assignedRegs {p : Assignment} (hp : p ∈ ps) : p.2.vregs ⊆ assignedRegs ps :=
  fun _ hv ↦ List.mem_flatMap.mpr ⟨p, hp, List.mem_cons_of_mem _ hv⟩

/-- The place of a register determines its location. -/
theorem location_eq_of_place_eq (hp : a.Places vs) {u v : VReg} (hu : u ∈ vs) (hv : v ∈ vs)
    (h : a.place (.virt u) = a.place (.virt v)) : a.location? u = a.location? v := by
  obtain ⟨l, hl, -⟩ := hp.home u hu
  obtain ⟨l', hl', -⟩ := hp.home v hv
  rw [Allocation.place_virt hl, Allocation.place_virt hl'] at h
  rw [hl, hl']
  cases l with
  | register r =>
    cases l' with
    | register r' =>
      rw [Location.operand, Location.operand, Operand.phys, Operand.phys, Operand.reg.injEq,
        Reg.phys.injEq] at h
      rw [h.1]
    | stack slot => exact absurd h (by simp [Location.operand, Operand.phys])
  | stack slot =>
    cases l' with
    | register r' => exact absurd h (by simp [Location.operand, Operand.phys])
    | stack slot' =>
      rw [Location.operand, Location.operand, Operand.mem.injEq] at h
      rw [h]

theorem place_eq_of_location_eq {u v : VReg} (h : a.location? u = a.location? v) :
    a.place (.virt u) = a.place (.virt v) := by
  rw [Allocation.place, Allocation.place, h]

/-- Parts with the place of a virtual register have its value. -/
theorem valueIn_eq_of_place_eq (hp : a.Places vs) {v : VReg} (hv : v ∈ vs) {r : Reg}
    (hr : IsPart vs r) (h : a.place r = a.place (.virt v)) (s : State) :
    a.valueIn s r = a.valueIn s (.virt v) := by
  cases r with
  | phys q =>
    have hne := @place_virt_ne a vs v hp hv q
    rcases hr with rfl | rfl <;> exact absurd h.symm (hne (by decide))
  | virt u =>
    rw [Allocation.valueIn, Allocation.valueIn, location_eq_of_place_eq hp hr hv h]

/-- Different assignments of an edge write different places. -/
theorem Assignable.location_ne (h : Assignable a ps) {p q : Assignment} (hp : p ∈ ps) (hq : q ∈ ps)
    (hne : p ≠ q) : a.location? p.1 ≠ a.location? q.1 := by
  intro heq
  exact hne (List.inj_on_of_nodup_map h.distinct hp hq heq)

theorem Assignable.isCopySource (h : Assignable a ps) {p : Assignment} (hp : p ∈ ps) :
    IsCopySource (assignedRegs ps) p.2 := by
  have hsub := vregs_subset_assignedRegs hp
  have hsrc := h.sources p hp
  cases hop : p.2 with
  | imm w => trivial
  | reg r width =>
    rw [hop] at hsrc hsub
    cases r with
    | phys q => exact hsrc.elim
    | virt v => exact ⟨hsrc, hsub (by simp [Operand.vregs, Reg.virt?])⟩
  | mem mem =>
    rw [hop] at hsrc hsub
    obtain ⟨hbase, hindex, -⟩ := hsrc
    have hvirt : ∀ v, Reg.virt v ∈ mem.regs → v ∈ assignedRegs ps := fun v hv ↦
      hsub (List.mem_filterMap.mpr ⟨.virt v, hv, rfl⟩)
    intro r hr
    have hr' := hr
    rw [Mem.regs, List.mem_cons, Option.mem_toList, Option.map_eq_some_iff] at hr'
    rcases hr' with rfl | ⟨⟨r', scale⟩, hpart, rfl⟩
    · rcases hbase with hbase | ⟨v, hbase⟩
      · rw [hbase]
        exact Or.inl rfl
      · rw [hbase] at hr ⊢
        exact hvirt v hr
    · obtain ⟨⟨v, rfl⟩, -⟩ := hindex r' scale hpart
      exact hvirt v hr
  | label id => rw [hop] at hsrc; exact hsrc.elim
  | symbol name => rw [hop] at hsrc; exact hsrc.elim

/-! ## The copies of an edge -/

/-- Whether an assignment copies a place to itself. -/
def isIdle (a : Allocation) (p : Assignment) : Bool :=
  p.2.isReg && (readsIn a p.2).head? == some (a.place (.virt p.1))

/-- The copy that carries out an assignment. -/
def copyOf (a : Allocation) (p : Assignment) : EdgeMove :=
  ⟨a.place (.virt p.1), p.2, readsIn a p.2⟩

/-- The copies that carry out assignments. -/
def copiesOf (a : Allocation) (ps : List Assignment) : List EdgeMove :=
  (ps.filter fun p ↦ !isIdle a p).map (copyOf a)

theorem ofPhis_eq (a : Allocation) (pred : Nat) (phis : List Phi) :
    EdgeMove.ofPhis a pred phis
      = (assignments pred phis).foldlM (fun moves p ↦ EdgeMove.add a p.1 moves p.2) [] := by
  rw [EdgeMove.ofPhis, assignments]
  generalize ([] : List EdgeMove) = moves
  induction phis generalizing moves with
  | nil => rfl
  | cons phi phis ih =>
    rw [List.foldlM_cons, List.flatMap_cons, List.foldlM_append, List.foldlM_map]
    exact congrArg _ (funext ih)

private theorem foldlM_add (hp : a.Places vs) (ps : List Assignment) (moves : List EdgeMove)
    (hdst : ∀ p ∈ ps, p.1 ∈ vs) (hsrc : ∀ p ∈ ps, IsCopySource vs p.2)
    (hdistinct : (ps.map fun p ↦ a.place (.virt p.1)).Nodup)
    (hfresh : ∀ p ∈ ps, ∀ m ∈ moves, m.dst ≠ a.place (.virt p.1)) :
    ps.foldlM (fun moves p ↦ EdgeMove.add a p.1 moves p.2) moves
      = (.ok (moves ++ copiesOf a ps) : Placing _) := by
  induction ps generalizing moves with
  | nil => rw [copiesOf]; simp; rfl
  | cons p ps ih =>
    obtain ⟨hdst₀, hdst⟩ := List.forall_mem_cons.mp hdst
    obtain ⟨hsrc₀, hsrc⟩ := List.forall_mem_cons.mp hsrc
    obtain ⟨hfresh₀, hfresh⟩ := List.forall_mem_cons.mp hfresh
    rw [List.map_cons, List.nodup_cons] at hdistinct
    have hany : moves.any (·.dst == a.place (.virt p.1)) = false := by
      rw [List.any_eq_false]
      intro m hm heq
      exact hfresh₀ m hm (beq_iff_eq.mp heq)
    have hadd : EdgeMove.add a p.1 moves p.2
        = .ok (moves ++ if isIdle a p then [] else [copyOf a p]) := by
      have hresolved := resolved_eq (IsPart.located (r := .virt p.1) hp hdst₀)
      rw [EdgeMove.add, hresolved]
      simp only [bind, Except.bind, readsOf_eq (hsrc₀.located hp), hany, Bool.or_false, isIdle]
      split <;> simp_all [copyOf, pure, Except.pure]
    have hrest := ih (moves ++ if isIdle a p then [] else [copyOf a p]) hdst hsrc hdistinct.2 ?_
    · rw [List.foldlM_cons, hadd]
      refine hrest.trans ?_
      rw [copiesOf, copiesOf, List.append_assoc, List.filter_cons]
      cases isIdle a p <;> rfl
    · intro q hq m hm
      rcases List.mem_append.mp hm with hm | hm
      · exact hfresh q hq m hm
      · have hdst : m.dst = a.place (.virt p.1) := by
          split at hm
          next => exact absurd hm List.not_mem_nil
          next => rw [List.mem_singleton.mp hm]; rfl
        rw [hdst]
        intro heq
        exact hdistinct.1 (List.mem_map.mpr ⟨q, hq, heq.symm⟩)

theorem Assignable.distinct_places (h : Assignable a ps) :
    (ps.map fun p ↦ a.place (.virt p.1)).Nodup := by
  have hnodup := List.Nodup.of_map _ h.distinct
  refine hnodup.map_on fun p hp q hq heq ↦ ?_
  by_contra hne
  exact h.location_ne hp hq hne
    (location_eq_of_place_eq h.places (dst_mem_assignedRegs hp) (dst_mem_assignedRegs hq) heq)

/-- The copies of an edge are those of the assignments that do something. -/
theorem onEdge_eq {blocks : List Block} {block : Block} {pred succ : Nat}
    (hblock : blocks[succ]? = some block) (h : Assignable a (assignments pred block.phis)) :
    EdgeMove.onEdge a blocks pred succ = .ok (copiesOf a (assignments pred block.phis)) := by
  rw [EdgeMove.onEdge, hblock]
  simp only
  rw [ofPhis_eq, foldlM_add h.places _ [] (fun p hp ↦ dst_mem_assignedRegs hp)
    (fun p hp ↦ h.isCopySource hp) h.distinct_places fun _ _ m hm ↦ absurd hm List.not_mem_nil,
    List.nil_append]

/-- A slot that is read in some state without harm is no destination. -/
theorem SourcesApart.ne_slot (h : SourcesApart a ps s) (hps : Assignable a ps) {p q : Assignment}
    (hp : p ∈ ps) (hq : q ∈ ps) {mem : Mem} (hmem : p.2 = .mem mem) :
    a.place (.virt q.1) ≠ .mem mem := by
  intro heq
  rcases hps.places.cases (dst_mem_assignedRegs hq) with ⟨r, -, hl⟩ | ⟨d, hl, -⟩
  · rw [Allocation.place_virt hl] at heq
    exact absurd heq (by simp [Location.operand, Operand.phys])
  · rw [Allocation.place_virt hl, Location.operand, Operand.mem.injEq] at heq
    subst heq
    have hapart := (h p hp (.frame d) hmem (slotAddress s d) rfl q hq d hl).1
    rw [BitVec.sub_self] at hapart
    exact absurd hapart (by decide)

theorem pending_copiesOf (h : Assignable a ps) (hapart : SourcesApart a ps s) :
    Pending a (assignedRegs ps) (copiesOf a ps) := by
  have hmem : ∀ m ∈ copiesOf a ps, ∃ p ∈ ps, copyOf a p = m := by
    intro m hm
    obtain ⟨p, hp, rfl⟩ := List.mem_map.mp hm
    exact ⟨p, (List.mem_filter.mp hp).1, rfl⟩
  refine ⟨fun m hm ↦ ?_, ?_, fun m hm ↦ ?_, fun m hm ↦ ?_, fun m hm mem hsrc m' hm' ↦ ?_⟩
  · obtain ⟨p, hp, rfl⟩ := hmem m hm
    exact ⟨p.1, dst_mem_assignedRegs hp, rfl⟩
  · rw [copiesOf, List.map_map]
    exact (List.filter_sublist.map _).nodup h.distinct_places
  · obtain ⟨p, hp, rfl⟩ := hmem m hm
    exact h.isCopySource hp
  · obtain ⟨p, -, rfl⟩ := hmem m hm
    rfl
  · obtain ⟨p, hp, rfl⟩ := hmem m hm
    obtain ⟨q, hq, rfl⟩ := hmem m' hm'
    exact hapart.ne_slot h hp hq hsrc

end TreeCover
