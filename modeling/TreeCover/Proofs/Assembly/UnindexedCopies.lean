import Mathlib.Data.Fintype.EquivFin
import TreeCover.Proofs.Assembly.ParallelCopy

/-!
# Copies without indexed operands

A copy whose operand has no index reads at most one place. When none of the pending copies is ready,
each destination is read by another copy, so the reads form a permutation of the destinations and
nobody reads `r11`: it is free to take the next place. The copies of such an edge always carry out
its assignments at once.
-/

namespace TreeCover

open Machine

variable {a : Allocation} {vs : List VReg} {moves : List EdgeMove} {m : EdgeMove}

/-- Whether an operand mentions at most one register. -/
def IsUnindexed : Operand → Prop
  | .mem m => m.index = none
  | _ => True

theorem IsUnindexed.mapRegs {src : Operand} (h : IsUnindexed src) (f : Reg → Reg) :
    IsUnindexed (mapRegs f src) := by
  cases src with
  | mem m =>
    have hindex : m.index = none := h
    rw [TreeCover.mapRegs, IsUnindexed, hindex]
    rfl
  | _ => trivial

theorem IsUnindexed.part_unique {src : Operand} (h : IsUnindexed src) {r r' : Reg}
    (hr : r ∈ src.regs) (hr' : r' ∈ src.regs) : r = r' := by
  cases src with
  | reg q width => exact (List.mem_singleton.mp hr).trans (List.mem_singleton.mp hr').symm
  | mem m =>
    have hindex : m.index = none := h
    rw [Operand.regs, Mem.regs, hindex] at hr hr'
    exact (List.mem_singleton.mp hr).trans (List.mem_singleton.mp hr').symm
  | imm w => exact absurd hr List.not_mem_nil
  | label id => exact absurd hr List.not_mem_nil
  | symbol name => exact absurd hr List.not_mem_nil

theorem IsUnindexed.loadedIndex?_eq_none {src : Operand} (h : IsUnindexed src) :
    loadedIndex? a src = none := by
  cases src with
  | mem m =>
    have hindex : m.index = none := h
    rw [loadedIndex?, hindex]
    rfl
  | _ => rfl

/-- **The pending copies form a permutation.** If each destination is read and each copy reads one
place, every copy reads a destination, and so none reads `r11`. -/
theorem indexScratch_free (hp : a.Places vs) (hpending : Pending a vs moves)
    (hunindexed : ∀ m ∈ moves, IsUnindexed m.src)
    (hnone : ∀ i m, moves[i]? = some m → ∃ m' ∈ moves.eraseIdx i, m.dst ∈ m'.reads) :
    ∀ m ∈ moves, .phys .indexScratch ∉ m.reads := by
  have hreader : ∀ i : Fin moves.length, ∃ j : Fin moves.length, moves[i].dst ∈ moves[j].reads := by
    intro i
    obtain ⟨m', hm', hread⟩ := hnone i moves[i] (List.getElem?_eq_getElem i.isLt)
    obtain ⟨j, hj, rfl⟩ := List.mem_iff_getElem.mp (List.mem_of_mem_eraseIdx hm')
    exact ⟨⟨j, hj⟩, hread⟩
  choose reader hreader using hreader
  have hinj : Function.Injective reader := by
    intro i i' heq
    have hi := hreader i
    have hi' := hreader i'
    rw [← heq] at hi'
    have hj : moves[reader i] ∈ moves := List.getElem_mem _
    obtain ⟨r, hr, hplace⟩ := (hpending.mem_reads_iff hp hj (List.getElem_mem _)).mp hi
    obtain ⟨r', hr', hplace'⟩ := (hpending.mem_reads_iff hp hj (List.getElem_mem _)).mp hi'
    obtain rfl := (hunindexed _ hj).part_unique hr hr'
    have hlt : i.val < (moves.map (·.dst)).length := by simp
    have hlt' : i'.val < (moves.map (·.dst)).length := by simp
    have hdst : (moves.map (·.dst))[i.val] = (moves.map (·.dst))[i'.val] := by
      simpa using hplace.symm.trans hplace'
    exact Fin.ext ((List.Nodup.getElem_inj_iff hpending.nodup).mp hdst)
  have hsurj : Function.Surjective reader := Finite.injective_iff_surjective.mp hinj
  intro m hm hread
  obtain ⟨k, hk, rfl⟩ := List.mem_iff_getElem.mp hm
  obtain ⟨i, hi⟩ := hsurj ⟨k, hk⟩
  have hdst := hreader i
  rw [hi] at hdst
  obtain ⟨r, hr, hplace⟩ := (hpending.mem_reads_iff hp hm (List.getElem_mem _)).mp hdst
  obtain ⟨v, hv, hvirt⟩ := hpending.dst _ (List.getElem_mem i.isLt)
  rw [hpending.reads _ hm] at hread
  rcases exists_part_of_mem_readsIn hread with ⟨r', hr', heq⟩ | ⟨mem, -, heq⟩
  · obtain rfl := (hunindexed _ hm).part_unique hr hr'
    exact place_virt_ne hp hv (by decide) (hvirt.symm.trans (hplace.symm.trans heq))
  · exact absurd heq (by simp [Operand.phys])

/-- All rounds of copies without indexed operands are quiet. -/
theorem isUndisturbed_of_unindexed (hp : a.Places vs) {rs : List Round}
    (hrounds : Rounds a moves rs) (hpending : Pending a vs moves)
    (hunindexed : ∀ m ∈ moves, IsUnindexed m.src) : isUndisturbed rs = true := by
  induction hrounds with
  | done => rfl
  | @move moves i m loads src rs hm _ hplaced _ ih =>
    have hmem := List.mem_of_getElem? hm
    obtain ⟨v, hv, hdst⟩ := hpending.dst m hmem
    rw [isUndisturbed, List.all_cons, Bool.and_eq_true]
    refine ⟨Round.isQuiet_iff.mpr fun hover ↦ ?_, ih (hpending.eraseIdx i) fun m' hm' ↦
      hunindexed m' (List.mem_of_mem_eraseIdx hm')⟩
    have hload := overwrites_move hp hv hplaced
    rw [← hdst, (hunindexed m hmem).loadedIndex?_eq_none] at hload
    exact absurd (hover.symm.trans hload) (by decide)
  | @park first rest rs hnone _ ih =>
    rw [isUndisturbed, List.all_cons, Bool.and_eq_true]
    refine ⟨Round.isQuiet_iff.mpr fun _ ↦ indexScratch_free hp hpending hunindexed hnone,
      ih (hpending.park hp first) fun m' hm' ↦ ?_⟩
    obtain ⟨m, hm, rfl⟩ := List.mem_map.mp hm'
    exact (hunindexed m hm).mapRegs _

/-- **Phis without indexed operands.** The copies of an edge whose phis take registers, constants
and memory without an index carry out all assignments at once, from every state in which the memory
that is read is apart from the slots that are written. -/
theorem unindexed_copies_assign (a : Allocation) (blocks : List Block) {block : Block}
    {pred succ : Nat} (hblock : blocks[succ]? = some block)
    (hassignable : Assignable a (assignments pred block.phis))
    (hunindexed : ∀ p ∈ assignments pred block.phis, ∀ m, p.2 = .mem m → m.index = none)
    (s : State) (hapart : SourcesApart a (assignments pred block.phis) s) :
    ∃ moves steps s', EdgeMove.onEdge a blocks pred succ = .ok moves ∧
      EdgeMove.sequence a moves = .ok steps ∧ s.run (steps.flatMap (·.insts)) = some s' ∧
      AssignedInParallel a (assignments pred block.phis) s s' := by
  have hpending := pending_copiesOf hassignable hapart
  obtain ⟨rs, hrs, hrounds⟩ := exists_rounds hassignable.places hpending
  have hquiet : isUndisturbed rs = true := by
    refine isUndisturbed_of_unindexed hassignable.places hrounds hpending fun m hm ↦ ?_
    obtain ⟨p, hp, rfl⟩ := List.mem_map.mp hm
    have hindex := hunindexed p (List.mem_filter.mp hp).1
    have hsrc : (copyOf a p).src = p.2 := rfl
    rw [hsrc]
    cases hop : p.2 with
    | mem mem => exact hindex mem hop
    | _ => trivial
  obtain ⟨s', hs', hdone⟩ := Simulates.run hassignable hapart hrounds hpending
    (simulates_copiesOf hassignable s) hquiet
  refine ⟨_, rs.map (·.2), s', onEdge_eq hblock hassignable, sequence_eq hrs, ?_, hdone.assigned⟩
  rw [List.flatMap_map]
  exact hs'

/-- A block that swaps two registers and reads an argument from the frame. -/
def rotation : Block :=
  { id := 0, succs := [0], phis := [⟨0, [(.vreg 1, 0)]⟩, ⟨1, [(.vreg 0, 0)]⟩,
    ⟨2, [(.mem (.frame 16), 0)]⟩] }

/-- The swapped registers in machine registers, the third in the frame. -/
def rotationPlaces : Allocation :=
  { decisions := [.assign 0 .rbx, .assign 1 .rsi, .spill 2 (.frame (-8)) true] }

/-- A frame at address 4096 in empty memory. -/
def rotationState : State where
  regs r := if r = .rbp then 4096 else BitVec.ofNat 64 r.encoding
  mem _ := 0
  flags := default

/-- A swap of two registers beside a load is carried out at once. -/
theorem rotation_assigns :
    Assignable rotationPlaces (assignments 0 rotation.phis) ∧
      SourcesApart rotationPlaces (assignments 0 rotation.phis) rotationState ∧
      ∃ moves steps s', EdgeMove.onEdge rotationPlaces [rotation] 0 0 = .ok moves ∧
        EdgeMove.sequence rotationPlaces moves = .ok steps ∧
        rotationState.run (steps.flatMap (·.insts)) = some s' ∧
        AssignedInParallel rotationPlaces (assignments 0 rotation.phis) rotationState s' := by
  have hps : assignments 0 rotation.phis
      = [(0, .vreg 1), (1, .vreg 0), (2, .mem (.frame 16))] := rfl
  have hassignable : Assignable rotationPlaces (assignments 0 rotation.phis) := by
    refine ⟨⟨fun v hv ↦ ?_, fun u hu v hv hne d e hd he ↦ ?_⟩, by decide, ?_⟩
    · have hv : v ∈ [0, 1, 1, 0, 2] := hv
      simp only [List.mem_cons, List.not_mem_nil, or_false] at hv
      rcases hv with rfl | rfl | rfl | rfl | rfl
      · exact ⟨.register .rbx, rfl, (by decide : .rbx ∈ PhysReg.allocatable)⟩
      · exact ⟨.register .rsi, rfl, (by decide : .rsi ∈ PhysReg.allocatable)⟩
      · exact ⟨.register .rsi, rfl, (by decide : .rsi ∈ PhysReg.allocatable)⟩
      · exact ⟨.register .rbx, rfl, (by decide : .rbx ∈ PhysReg.allocatable)⟩
      · exact ⟨.stack (.frame (-8)), rfl, -8, rfl, by decide, by decide⟩
    · have hslot : ∀ w ∈ [0, 1, 1, 0, 2],
          (rotationPlaces.location? w).any (·.isStack) = true → w = 2 := by decide
      have hu := hslot u hu (by rw [hd]; rfl)
      have hv := hslot v hv (by rw [he]; rfl)
      exact absurd (hu.trans hv.symm) hne
    · rw [hps]
      intro p hp
      simp only [List.mem_cons, List.not_mem_nil, or_false] at hp
      rcases hp with rfl | rfl | rfl
      · exact rfl
      · exact rfl
      · exact ⟨Or.inl rfl, fun _ _ h ↦ absurd h (by simp [Mem.frame, Mem.based]), by decide,
          by decide⟩
  have hmem : ∀ p ∈ assignments 0 rotation.phis, ∀ m, p.2 = .mem m → m = .frame 16 := by
    rw [hps]
    intro p hp m hm
    simp only [List.mem_cons, List.not_mem_nil, or_false] at hp
    rcases hp with rfl | rfl | rfl
    · exact absurd hm (by simp [Operand.vreg])
    · exact absurd hm (by simp [Operand.vreg])
    · exact (Operand.mem.inj hm).symm
  have hapart : SourcesApart rotationPlaces (assignments 0 rotation.phis) rotationState := by
    intro p hp m hm x hx q hq d hd
    rw [hmem p hp m hm] at hx
    have hslot : d = -8 := by
      rw [hps] at hq
      simp only [List.mem_cons, List.not_mem_nil, or_false] at hq
      rcases hq with rfl | rfl | rfl
      · cases (Option.some.inj hd : Location.register .rbx = .stack (.frame d))
      · cases (Option.some.inj hd : Location.register .rsi = .stack (.frame d))
      · exact (congrArg Mem.disp (Location.stack.inj (Option.some.inj hd))).symm
    subst hslot
    obtain rfl := Option.some.inj hx
    exact ⟨by decide, by decide⟩
  exact ⟨hassignable, hapart, unindexed_copies_assign rotationPlaces [rotation] rfl hassignable
    (fun p hp m hm ↦ by rw [hmem p hp m hm]; rfl) rotationState hapart⟩

end TreeCover
