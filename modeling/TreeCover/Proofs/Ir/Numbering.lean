import Mathlib.Data.List.Flatten
import Mathlib.Data.List.TakeWhile
import TreeCover.Ir.Func
import TreeCover.Proofs.Lists

/-!
# Numbers of instructions

Instructions are numbered through the whole function, block after block, so a number names one
instruction of one block.
-/

namespace TreeCover.Ir.Func

variable {f : Func} {b b' : BlockId} {id : InstId} {i i' : ResolvedInst}

theorem mem_blockInsts : (id, i) ∈ f.blockInsts b ↔
    ∃ block k, f.blocks[b]? = some block ∧ block.insts[k]? = some i ∧ id = f.firstInst b + k := by
  rw [blockInsts]
  cases hb : f.blocks[b]? with
  | none => simp
  | some block =>
    simp only [List.mem_mapIdx, Prod.mk.injEq, Option.some.injEq]
    constructor
    · rintro ⟨k, hk, rfl, rfl⟩
      exact ⟨block, k, rfl, List.getElem?_eq_getElem hk, rfl⟩
    · rintro ⟨_, k, rfl, hi, rfl⟩
      obtain ⟨hk, rfl⟩ := List.getElem?_eq_some_iff.mp hi
      exact ⟨k, hk, rfl, rfl⟩

theorem mem_blockPhis : (id, i) ∈ f.blockPhis b ↔
    ∃ block k, f.blocks[b]? = some block ∧ block.phis[k]? = some i ∧ id = f.firstInst b + k := by
  rw [blockPhis]
  cases hb : f.blocks[b]? with
  | none => simp
  | some block =>
    simp only [List.mem_mapIdx, Prod.mk.injEq, Option.some.injEq]
    constructor
    · rintro ⟨k, hk, rfl, rfl⟩
      exact ⟨block, k, rfl, List.getElem?_eq_getElem hk, rfl⟩
    · rintro ⟨_, k, rfl, hi, rfl⟩
      obtain ⟨hk, rfl⟩ := List.getElem?_eq_some_iff.mp hi
      exact ⟨k, hk, rfl, rfl⟩

/-- The instructions of a block stand together in the list of all. -/
theorem inst?_firstInst_add {block : Block} {k : Nat} (hb : f.blocks[b]? = some block)
    (hi : block.insts[k]? = some i) : f.inst? (f.firstInst b + k) = some i :=
  getElem?_flatMap_take hb hi

theorem mem_insts_of_mem (hi : (id, i) ∈ f.blockInsts b) : f.inst? id = some i ∧ i ∈ f.insts := by
  obtain ⟨block, k, hb, hk, rfl⟩ := mem_blockInsts.mp hi
  have hinst := inst?_firstInst_add hb hk
  exact ⟨hinst, List.mem_of_getElem? hinst⟩

/-- The phis a block opens with are its first instructions. -/
theorem mem_blockInsts_of_phi (h : (id, i) ∈ f.blockPhis b) :
    (id, i) ∈ f.blockInsts b ∧ i.operation.isPhi = true := by
  obtain ⟨block, k, hb, hi, rfl⟩ := mem_blockPhis.mp h
  obtain ⟨rest, hrest⟩ : block.phis <+: block.insts := List.takeWhile_prefix _
  have hk := (List.getElem?_eq_some_iff.mp hi).1
  refine ⟨mem_blockInsts.mpr ⟨block, k, hb, ?_, rfl⟩,
    List.mem_takeWhile_imp (p := fun i : ResolvedInst ↦ i.operation.isPhi)
      (List.mem_of_getElem? hi)⟩
  rw [← hrest, List.getElem?_append_left hk, hi]

theorem blockOfFrom?_of_getElem? {blocks : List Block} {block : Block} {k start : Nat}
    (hb : blocks[b]? = some block) (hk : k < block.insts.length) :
    blockOfFrom? start blocks (((blocks.take b).flatMap (·.insts)).length + k)
      = some (start + b) := by
  induction blocks generalizing b start with
  | nil => exact absurd hb (by simp)
  | cons head blocks ih =>
    cases b with
    | zero =>
      obtain rfl := Option.some.inj hb
      simp [blockOfFrom?, hk]
    | succ b =>
      have hrest : blockOfFrom? (start + 1) blocks
          (((blocks.take b).flatMap (·.insts)).length + k) = some (start + 1 + b) := ih hb
      have hlength : (((head :: blocks).take (b + 1)).flatMap (·.insts)).length + k =
          head.insts.length + (((blocks.take b).flatMap (·.insts)).length + k) := by
        rw [List.take_succ_cons, List.flatMap_cons, List.length_append, Nat.add_assoc]
      rw [hlength, blockOfFrom?, if_neg (Nat.not_lt.mpr (Nat.le_add_right _ _)),
        Nat.add_sub_cancel_left, hrest, Nat.add_assoc, Nat.add_comm 1 b]

/-- A block holds its instructions. -/
theorem blockOf?_of_mem (h : (id, i) ∈ f.blockInsts b) : f.blockOf? id = some b := by
  obtain ⟨block, k, hb, hi, rfl⟩ := mem_blockInsts.mp h
  have hk := (List.getElem?_eq_some_iff.mp hi).1
  have hfirst : blockOfFrom? 0 f.blocks (f.firstInst b + k) = some (0 + b) :=
    blockOfFrom?_of_getElem? hb hk
  rwa [Nat.zero_add] at hfirst

/-- A number names one instruction of one block. -/
theorem blockInsts_unique (h : (id, i) ∈ f.blockInsts b) (h' : (id, i') ∈ f.blockInsts b') :
    b = b' ∧ i = i' := by
  have hb : b = b' := Option.some.inj ((blockOf?_of_mem h).symm.trans (blockOf?_of_mem h'))
  subst hb
  obtain ⟨block, k, hb, hi, rfl⟩ := mem_blockInsts.mp h
  obtain ⟨block', k', hb', hi', hid⟩ := mem_blockInsts.mp h'
  obtain rfl := Option.some.inj (hb.symm.trans hb')
  obtain rfl := Nat.add_left_cancel hid
  exact ⟨rfl, Option.some.inj (hi.symm.trans hi')⟩

theorem blockInsts_sorted (f : Func) (b : BlockId) :
    (f.blockInsts b).Pairwise (·.1 < ·.1) := by
  rw [blockInsts]
  split
  · refine List.pairwise_iff_getElem.mpr fun j k hj hk hjk ↦ ?_
    simp only [List.getElem_mapIdx]
    exact Nat.add_lt_add_left hjk _
  · exact .nil

/-- The number of an instruction lies within its block. -/
theorem blockInsts_bounds (hi : (id, i) ∈ f.blockInsts b) :
    f.firstInst b ≤ id ∧ id < f.firstInst (b + 1) := by
  obtain ⟨block, k, hblock, hk, rfl⟩ := mem_blockInsts.mp hi
  obtain ⟨hb, rfl⟩ := List.getElem?_eq_some_iff.mp hblock
  rw [f.firstInst_succ hb]
  exact ⟨Nat.le_add_right _ _, Nat.add_lt_add_left (List.getElem?_eq_some_iff.mp hk).1 _⟩

theorem firstInst_mono (f : Func) {a b : BlockId} (h : a ≤ b) : f.firstInst a ≤ f.firstInst b := by
  rw [firstInst, firstInst]
  exact (List.Sublist.flatMap (List.take_prefix_take_left h).sublist _).length_le

theorem blockOfFrom?_bounds {blocks : List Block} {start : BlockId}
    (h : blockOfFrom? start blocks id = some b) : start ≤ b ∧
      ((blocks.take (b - start)).flatMap (·.insts)).length ≤ id ∧
      id < ((blocks.take (b - start + 1)).flatMap (·.insts)).length := by
  induction blocks generalizing start id with
  | nil => exact absurd h nofun
  | cons block blocks ih =>
    dsimp only [blockOfFrom?] at h
    split at h
    next hlt =>
      obtain rfl := Option.some.inj h
      simp [hlt]
    next hge =>
      obtain ⟨hle, hlower, hupper⟩ := ih h
      obtain ⟨k, rfl⟩ := Nat.exists_eq_add_of_le hle
      have hk : start + 1 + k - start = k + 1 := by
        rw [Nat.add_assoc, Nat.add_sub_cancel_left, Nat.add_comm]
      rw [Nat.add_sub_cancel_left] at hlower hupper
      rw [hk, List.take_succ_cons, List.flatMap_cons, List.length_append, List.take_succ_cons,
        List.flatMap_cons, List.length_append]
      have hge := Nat.le_of_not_lt hge
      exact ⟨Nat.le_of_succ_le hle, Nat.add_le_of_le_sub' hge hlower,
        (Nat.sub_lt_iff_lt_add' hge).mp hupper⟩

/-- The number of an instruction lies within the block that holds it. -/
theorem blockOf?_bounds (h : f.blockOf? id = some b) :
    f.firstInst b ≤ id ∧ id < f.firstInst (b + 1) :=
  (blockOfFrom?_bounds h).2

end TreeCover.Ir.Func
