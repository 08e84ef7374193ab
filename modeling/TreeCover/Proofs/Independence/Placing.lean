import Mathlib.Data.List.InsertIdx
import TreeCover.Proofs.Independence.Shift

/-!
# Placing with shifted labels

Neither a location nor a repair has to do with labels: an instruction is placed as before, with its
labels shifted, and the copies of an edge are sequenced in the same order. Where operands are
compared, only whether they are equal counts, and that is the same after a shift.
-/

namespace TreeCover

open Machine

variable {k : Nat} {α β : Type} {g : α → α} {h : β → β} {x y : Placing α}

/-! ## Results side by side -/

/-- `y` is `x` with its result changed by `g`, or its error shifted. -/
def Placing.Follows (k : Nat) (g : α → α) (x y : Placing α) : Prop :=
  y = match x with
    | .ok a => .ok (g a)
    | .error e => .error (e.shift k)

namespace Placing.Follows

theorem ok {a b : α} (hb : b = g a) : Follows k g (.ok a) (.ok b) := by rw [hb]; rfl

theorem bind {p q : α → Placing β} (hxy : Follows k g x y)
    (hpq : ∀ a, Follows k h (p a) (q (g a))) : Follows k h (x >>= p) (y >>= q) := by
  cases x with
  | ok a =>
    obtain rfl : y = .ok (g a) := hxy
    exact hpq a
  | error e =>
    obtain rfl : y = .error (e.shift k) := hxy
    rfl

theorem mapM {p q : α → Placing β} (xs : List α) (hpq : ∀ a, Follows k h (p a) (q (g a))) :
    Follows k (List.map h) (xs.mapM p) ((xs.map g).mapM q) := by
  induction xs with
  | nil => exact ok rfl
  | cons a xs ih =>
    rw [List.map_cons, List.mapM_cons, List.mapM_cons]
    exact bind (hpq a) fun b ↦ bind ih fun bs ↦ ok rfl

theorem foldlM {p q : β → α → Placing β} (xs : List α)
    (hpq : ∀ b a, Follows k h (p b a) (q (h b) (g a))) (b : β) :
    Follows k h (xs.foldlM p b) ((xs.map g).foldlM q (h b)) := by
  induction xs generalizing b with
  | nil => exact ok rfl
  | cons a xs ih =>
    rw [List.map_cons, List.foldlM_cons, List.foldlM_cons]
    exact bind (hpq b a) fun c ↦ ih c

end Placing.Follows

theorem Allocation.follows_locate (a : Allocation) (v : VReg) :
    Placing.Follows k id (a.locate v) (a.locate v) := by
  rw [locate]
  cases a.location? v <;> rfl

/-! ## Instructions -/

namespace Placement

/-- An operand and its width, shifted. -/
def shiftSized (k : Nat) (z : Sized) : Sized := (z.1.shift k, z.2)

/-- Loads and what they are for, shifted. -/
def shiftLoads (k : Nat) (g : α → α) (x : List Inst × α) : List Inst × α :=
  (x.1.map (·.shift k), g x.2)

/-- Operands and what goes before and after them, shifted. -/
def Repaired.shift (k : Nat) (r : Repaired) : Repaired where
  before := r.before.map (·.shift k)
  operands := r.operands.map (shiftSized k)
  after := r.after.map (·.shift k)

theorem follows_addressReg (a : Allocation) (r : Reg) (scratch : PhysReg) :
    Placing.Follows k (shiftLoads k id) (addressReg a r scratch) (addressReg a r scratch) := by
  cases r with
  | phys p => exact .ok rfl
  | virt v =>
    refine .bind (a.follows_locate v) fun l ↦ ?_
    cases l <;> exact .ok rfl

theorem follows_address (a : Allocation) (m : Mem) :
    Placing.Follows k (shiftLoads k id) (address a m) (address a m) := by
  refine .bind (follows_addressReg a m.base _) fun x ↦ ?_
  cases m.index with
  | none => exact .ok rfl
  | some part =>
    refine .bind (follows_addressReg a part.1 _) fun y ↦ .ok ?_
    simp only [shiftLoads, List.map_append]
    rfl

theorem follows_operand (a : Allocation) (o : Operand) :
    Placing.Follows k (shiftLoads k (shiftSized k)) (operand a o) (operand a (o.shift k)) := by
  cases o with
  | reg r width =>
    cases r with
    | phys p => exact .ok rfl
    | virt v =>
      refine .bind (a.follows_locate v) fun l ↦ ?_
      cases l <;> exact .ok rfl
  | mem m => exact .bind (follows_address a m) fun x ↦ .ok rfl
  | _ => exact .ok rfl

theorem follows_operands (a : Allocation) (os : List Operand) :
    Placing.Follows k (shiftLoads k (List.map (shiftSized k))) (operands a os)
      (operands a (os.map (·.shift k))) := by
  induction os with
  | nil => exact .ok rfl
  | cons o os ih =>
    refine .bind (follows_operand a o) fun x ↦ .bind ih fun y ↦ .ok ?_
    simp only [shiftLoads, List.map_append, List.map_cons]

theorem repairDestination_shift (i : Inst) (zs : List Sized) :
    repairDestination (i.shift k) (zs.map (shiftSized k)) = (repairDestination i zs).shift k := by
  have hsame : Repaired.shift k ⟨[], zs, []⟩ = ⟨[], zs.map (shiftSized k), []⟩ := rfl
  rw [repairDestination, repairDestination, List.getLast?_map]
  cases zs.getLast? with
  | none => exact hsame.symm
  | some z =>
    obtain ⟨o, width⟩ := z
    cases o with
    | mem slot =>
      change (if i.needsRegDst && i.effect ≠ .none then _ else _) = Repaired.shift k
        (if i.needsRegDst && i.effect ≠ .none then _ else _)
      split
      · simp only [Repaired.shift, Repaired.mk.injEq, List.map_append, List.map_dropLast]
        refine ⟨?_, rfl, rfl⟩
        change (if i.effect = .update then _ else _) = _
        split <;> rfl
      · rfl
    | _ => exact hsame.symm

theorem fetchFirst_shift (zs : List Sized) : fetchFirst (zs.map (shiftSized k)) =
    shiftLoads k (List.map (shiftSized k)) (fetchFirst zs) := by
  induction zs with
  | nil => rfl
  | cons z zs ih =>
    obtain ⟨o, width⟩ := z
    simp only [List.map_cons, fetchFirst, shiftSized, Operand.isMem_shift, ih]
    split <;> rfl

theorem repairMemory_shift (zs : List Sized) : repairMemory (zs.map (shiftSized k)) =
    shiftLoads k (List.map (shiftSized k)) (repairMemory zs) := by
  have hcount : (zs.map (shiftSized k)).countP (·.1.isMem) = zs.countP (·.1.isMem) := by
    rw [List.countP_map]
    exact List.countP_congr fun z _ ↦ by simp [shiftSized]
  rw [repairMemory, repairMemory, hcount, fetchFirst_shift]
  split <;> rfl

/-- Whether two operands are equal is the same after a shift. -/
theorem isIdentityMove_shift (i : Inst) : isIdentityMove (i.shift k) = isIdentityMove i := by
  obtain ⟨mnemonic, operands, effect, kind, needs⟩ := i
  rw [isIdentityMove, isIdentityMove, Inst.shift]
  rcases operands with _ | ⟨a, _ | ⟨b, _ | _⟩⟩
  case cons.cons.nil =>
    have hsame : (a.shift k == b.shift k) = (a == b) := by
      rw [Bool.eq_iff_iff, beq_iff_eq, beq_iff_eq, Operand.shift_eq_shift]
    exact congrArg (mnemonic == "movq" && ·) hsame
  all_goals rfl

/-- **Instructions.** An instruction is placed as before, with its labels shifted. -/
theorem follows_inst (a : Allocation) (i : Inst) :
    Placing.Follows k (List.map (·.shift k)) (inst a i) (inst a (i.shift k)) := by
  have hfinal : ∀ zs : List Sized,
      { i.shift k with operands := (zs.map (shiftSized k)).map (·.1) } =
        Inst.shift k { i with operands := zs.map (·.1) } := by
    intro zs
    simp only [Inst.shift, List.map_map]
    rfl
  refine .bind (follows_operands a i.operands) fun placed ↦ ?_
  obtain ⟨loads, zs⟩ := placed
  have hfetch := repairMemory_shift (k := k) (repairDestination i zs).operands
  cases hmem : repairMemory (repairDestination i zs).operands with
  | mk fetch ops =>
    rw [hmem] at hfetch
    simp only [shiftLoads, repairDestination_shift, Repaired.shift, hmem, hfetch]
    refine .ok ?_
    rw [hfinal, isIdentityMove_shift]
    simp only [List.map_append]
    split <;> rfl

end Placement

/-! ## Copies on edges -/

namespace EdgeMove

def shift (k : Nat) (m : EdgeMove) : EdgeMove where
  dst := m.dst.shift k
  src := m.src.shift k
  reads := m.reads.map (·.shift k)

def Step.shift (k : Nat) : Step → Step
  | .move is => .move (is.map (·.shift k))
  | .park location is => .park (location.shift k) (is.map (·.shift k))

/-- The location of a register is no label. -/
theorem follows_resolved (a : Allocation) (r : Reg) :
    Placing.Follows k (Operand.shift k) (resolved a r) (resolved a r) := by
  cases r with
  | phys q => exact .ok rfl
  | virt v =>
    refine .bind (a.follows_locate v) fun l ↦ ?_
    cases l <;> exact .ok rfl

theorem follows_readsOf (a : Allocation) (o : Operand) :
    Placing.Follows k (List.map (·.shift k)) (readsOf a o) (readsOf a (o.shift k)) := by
  cases o with
  | reg r width => exact .bind (follows_resolved a r) fun o ↦ .ok rfl
  | mem m =>
    have hregs := Placing.Follows.mapM (k := k) (g := id) (m.regs.filter (· ≠ .phys .rbp))
      (fun r ↦ follows_resolved a r)
    rw [List.map_id] at hregs
    exact .bind hregs fun regs ↦ .ok rfl
  | _ => exact .ok rfl

theorem contains_map_shift (os : List Operand) (o : Operand) :
    (os.map (·.shift k)).contains (o.shift k) = os.contains o := by
  rw [Bool.eq_iff_iff, List.contains_iff_mem, List.contains_iff_mem, List.mem_map]
  constructor
  · rintro ⟨p, hp, heq⟩
    exact Operand.shift_eq_shift.mp heq ▸ hp
  · exact fun ho ↦ ⟨o, ho, rfl⟩

theorem follows_add (a : Allocation) (dst : VReg) (moves : List EdgeMove) (src : Operand) :
    Placing.Follows k (List.map (shift k)) (add a dst moves src)
      (add a dst (moves.map (shift k)) (src.shift k)) := by
  refine .bind (follows_resolved a _) fun dst ↦ .bind (follows_readsOf a src) fun reads ↦ ?_
  have hidle : ((src.shift k).isReg && (reads.map (·.shift k)).head? = some (dst.shift k)) =
      (src.isReg && reads.head? = some dst : Bool) := by
    rw [Operand.isReg_shift, List.head?_map]
    cases reads.head? <;> simp
  have htaken : (moves.map (shift k)).any (·.dst == dst.shift k) = moves.any (·.dst == dst) := by
    rw [List.any_map]
    refine congrArg (moves.any ·) (funext fun m ↦ ?_)
    rw [Bool.eq_iff_iff, Function.comp_apply, beq_iff_eq, beq_iff_eq]
    exact Operand.shift_eq_shift
  simp only [hidle, htaken]
  split
  · exact .ok rfl
  · refine .ok ?_
    rw [List.map_append]
    rfl

theorem follows_onEdge (a : Allocation) (blocks : List Block) (pred succ : Nat) :
    Placing.Follows k (List.map (shift k)) (onEdge a blocks pred succ)
      (onEdge a (blocks.map (·.shift k)) pred succ) := by
  rw [onEdge, onEdge, List.getElem?_map]
  cases blocks[succ]? with
  | none => exact .ok rfl
  | some b =>
    refine .foldlM b.phis (fun moves phi ↦ ?_) []
    rw [Phi.inputsFrom_shift]
    exact .foldlM _ (fun moves src ↦ follows_add a phi.dst moves src) moves

/-! ## Sequences -/

theorem copy_shift (dst src : Operand) :
    copy (dst.shift k) (src.shift k) = (copy dst src).map (·.shift k) := by
  cases src with
  | imm value =>
    cases dst with
    | reg | mem =>
      simp only [copy, copyToReg, Operand.shift, loadConstant]
      split <;> rfl
    | _ => rfl
  | _ => cases dst <;> rfl

theorem isReady_shift (moves : List EdgeMove) (i : Nat) :
    isReady (moves.map (shift k)) i = isReady moves i := by
  rw [isReady, isReady, List.getElem?_map]
  cases moves[i]? with
  | none => rfl
  | some m =>
    simp only [Option.map_some, Option.any_some, List.eraseIdx_map, List.all_map]
    refine List.all_congr rfl fun other ↦ ?_
    exact congrArg (! ·) (contains_map_shift other.reads m.dst)

theorem follows_redirect (a : Allocation) (parked src : Operand) :
    Placing.Follows k (Operand.shift k) (redirect a parked src)
      (redirect a (parked.shift k) (src.shift k)) := by
  cases src with
  | mem m =>
    refine .bind (follows_resolved a m.base) fun base ↦ ?_
    cases m.index with
    | none => exact .ok (by simp only [Operand.shift_eq_shift]; rfl)
    | some part =>
      refine .bind (follows_resolved a part.1) fun index ↦ .ok ?_
      simp only [Operand.shift_eq_shift]
      rfl
  | _ => exact .ok rfl

theorem follows_reroute (a : Allocation) (parked : Operand) (m : EdgeMove) :
    Placing.Follows k (shift k) (reroute a parked m) (reroute a (parked.shift k) (m.shift k)) := by
  rw [reroute, reroute, shift, contains_map_shift]
  split
  · exact .bind (follows_redirect a parked m.src) fun src ↦ .bind (follows_readsOf a src)
      fun reads ↦ .ok rfl
  · exact .ok rfl

theorem follows_sequenceFrom (a : Allocation) (fuel : Nat) (moves : List EdgeMove) :
    Placing.Follows k (List.map (Step.shift k)) (sequenceFrom a fuel moves)
      (sequenceFrom a fuel (moves.map (shift k))) := by
  induction fuel generalizing moves with
  | zero => cases moves <;> exact .ok rfl
  | succ fuel ih =>
    cases moves with
    | nil => exact .ok rfl
    | cons first rest =>
      have hready : ready? ((first :: rest).map (shift k)) = ready? (first :: rest) := by
        rw [ready?, ready?, List.length_map]
        exact congrArg (List.find? · _) (funext (isReady_shift (first :: rest)))
      have hmap : (first :: rest).map (shift k) = shift k first :: rest.map (shift k) := rfl
      have hpick : ((ready? (first :: rest)).bind fun i ↦
          (((first :: rest).map (shift k))[i]?).map fun m ↦ (i, m)) =
          ((ready? (first :: rest)).bind fun i ↦ ((first :: rest)[i]?).map fun m ↦ (i, m)).map
            fun x ↦ (x.1, x.2.shift k) := by
        cases ready? (first :: rest) with
        | none => rfl
        | some i =>
          simp only [Option.bind_some, List.getElem?_map]
          cases (first :: rest)[i]? <;> rfl
      rw [hmap, sequenceFrom, sequenceFrom, ← hmap, hready, hpick]
      cases (ready? (first :: rest)).bind fun i ↦ ((first :: rest)[i]?).map fun m ↦ (i, m) with
      | some x =>
        refine .bind (Placement.follows_operand a x.2.src) fun y ↦ ?_
        have htail := ih ((first :: rest).eraseIdx x.1)
        rw [← List.eraseIdx_map] at htail
        refine .bind htail fun steps ↦ .ok ?_
        rw [List.map_cons, Step.shift, List.map_append, ← copy_shift]
        rfl
      | none =>
        have hrest := Placing.Follows.mapM (first :: rest) (follows_reroute (k := k) a first.dst)
        refine .bind hrest fun moves ↦ ?_
        refine .bind (ih moves) fun steps ↦ .ok ?_
        rw [List.map_cons, Step.shift, ← copy_shift]
        rfl

/-- **Copies.** The copies of an edge are made in the same order. -/
theorem follows_sequence (a : Allocation) (moves : List EdgeMove) :
    Placing.Follows k (List.map (Step.shift k)) (sequence a moves)
      (sequence a (moves.map (shift k))) := by
  rw [sequence, sequence, List.length_map]
  exact follows_sequenceFrom a _ moves

end EdgeMove

end TreeCover
