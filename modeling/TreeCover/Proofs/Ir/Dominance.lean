import TreeCover.Forest.Build
import TreeCover.Proofs.Flow.Search
import TreeCover.Proofs.Ir.Numbering

/-!
# Definitions that dominate their uses

In a function in static single assignment form control passes the definition of a value on every way
to a use. A phi uses its operands at the end of the predecessors they come from.
-/

namespace TreeCover.Ir.Func

variable {f : Func} {b pred : BlockId} {id d : InstId} {i : ResolvedInst}
  {p : Place Value BlockId} {value : Operand Value}

/-- The blocks of a function with their edges. -/
def graph (f : Func) : FlowGraph := f.succs

/-- The block of every operand dominates the block that uses it. The order within a block is left
out, for no operand is built before it is defined. -/
structure IsSsa (f : Func) : Prop where
  operands : ∀ b id i, (id, i) ∈ f.blockInsts b → i.operation.isPhi = false →
    ∀ d, Place.operand (.value (.inst d)) ∈ i.operation.places →
      ∃ a, f.blockOf? d = some a ∧ f.graph.Dominates a b
  incoming : ∀ b id i, (id, i) ∈ f.blockInsts b →
    ∀ d pred, (.value (.inst d), pred) ∈ i.operation.incoming →
      ∃ a, f.blockOf? d = some a ∧ f.graph.Dominates a pred

/-- Block `b` may use an operand: it dominates the block, and if it comes from another block, that is
known. -/
def Serves (f : Func) (b : BlockId) (p : Place Value BlockId) : Prop :=
  ∀ d, p = .operand (.value (.inst d)) →
    ∃ a, f.blockOf? d = some a ∧ f.graph.Dominates a b ∧ (a ≠ b → f.escapes d = true)

theorem escapes_of_usesOutside (hi : (id, i) ∈ f.blockInsts b)
    (h : usesOutside d (f.blockOf? d) b i = true) : f.escapes d = true := by
  obtain ⟨block, k, hb, hk, -⟩ := mem_blockInsts.mp hi
  refine List.any_eq_true.mpr ⟨(block, b), List.mem_zipIdx_iff_getElem?.mpr hb, ?_⟩
  exact List.any_eq_true.mpr ⟨i, List.mem_of_getElem? hk, h⟩

theorem IsSsa.serves (h : f.IsSsa) (hi : (id, i) ∈ f.blockInsts b)
    (hphi : i.operation.isPhi = false) (hp : p ∈ i.operation.places) : f.Serves b p := by
  rintro d rfl
  obtain ⟨a, ha, hdom⟩ := h.operands b id i hi hphi d hp
  refine ⟨a, ha, hdom, fun hne ↦ escapes_of_usesOutside hi ?_⟩
  rw [usesOutside]
  split
  next hop =>
    rw [hop] at hphi
    exact absurd hphi.symm Bool.false_ne_true
  next =>
    refine List.any_eq_true.mpr ⟨_, hp, ?_⟩
    simp [Operand.isResult, ha, hne]

theorem IsSsa.serves_incoming (h : f.IsSsa) (hi : (id, i) ∈ f.blockInsts b)
    (hv : (value, pred) ∈ i.operation.incoming) : f.Serves pred (.operand value) := by
  intro d hd
  obtain rfl : value = .value (.inst d) := Place.operand.inj hd
  obtain ⟨a, ha, hdom⟩ := h.incoming b id i hi d pred hv
  refine ⟨a, ha, hdom, fun hne ↦ escapes_of_usesOutside hi ?_⟩
  cases hop : i.operation with
  | phi incoming =>
    rw [hop, Operation.incoming] at hv
    simp only [usesOutside, hop]
    refine List.any_eq_true.mpr ⟨_, hv, ?_⟩
    simp [Operand.isResult, ha, hne]
  | _ =>
    rw [hop, Operation.incoming] at hv
    · exact absurd hv List.not_mem_nil
    · exact fun _ h ↦ by cases h

/-! ## Functions in which operands come from nearby -/

/-- An operand of block `b` that comes from the block itself or from the entry. -/
def isNear (f : Func) (b : BlockId) : Place Value BlockId → Bool
  | .operand (.value (.inst d)) => f.blockOf? d = some 0 || f.blockOf? d = some b
  | _ => true

theorem exists_dominates_of_isNear (h : f.isNear b (.operand (.value (.inst d))) = true) :
    ∃ a, f.blockOf? d = some a ∧ f.graph.Dominates a b := by
  rw [isNear, Bool.or_eq_true, decide_eq_true_eq, decide_eq_true_eq] at h
  rcases h with h | h
  · exact ⟨0, h, .entry f.graph b⟩
  · exact ⟨b, h, .refl f.graph b⟩

theorem isSsa_of_isNear (h : ∀ b < f.blocks.length, ∀ x ∈ f.blockInsts b,
    (x.2.operation.isPhi = false → ∀ p ∈ x.2.operation.places, f.isNear b p = true) ∧
      ∀ v ∈ x.2.operation.incoming, f.isNear v.2 (.operand v.1) = true) : f.IsSsa := by
  have hlt : ∀ {b id i}, (id, i) ∈ f.blockInsts b → b < f.blocks.length := by
    intro b id i hi
    obtain ⟨block, _, hb, -⟩ := mem_blockInsts.mp hi
    exact (List.getElem?_eq_some_iff.mp hb).1
  exact ⟨fun b id i hi hphi d hd ↦
      exists_dominates_of_isNear ((h b (hlt hi) (id, i) hi).1 hphi _ hd),
    fun b id i hi d pred hd ↦ exists_dominates_of_isNear ((h b (hlt hi) (id, i) hi).2 _ hd)⟩

end TreeCover.Ir.Func
