import TreeCover.Assembly.Layout
import TreeCover.Proofs.Machine.Control
import TreeCover.Proofs.Work.Success
import TreeCover.Tiling.Actions

/-!
# Pieces of a function

What the layout makes of a block that ends in a return, in a jump, or in a branch and a jump: the
label, the placed body, and an ending that depends on the copies of the edges. The copies of the
edge of a final jump stand before it, or before the block that comes next if the jump is left out;
those of the edge of a branch go to a stub, unless there are none.

A piece takes the labels of its stubs from the session, so all labels of a function are different
if those of its blocks were taken from the session before.
-/

namespace TreeCover

open Machine

/-! ## Placed instructions -/

namespace Placing

variable {α β : Type} {x : Placing α} {f : α → Placing β} {b : β}

theorem bind_eq_ok : x >>= f = .ok b ↔ ∃ a, x = .ok a ∧ f a = .ok b := by
  cases x with
  | ok a => simp [bind, Except.bind]
  | error e => simp [bind, Except.bind]

theorem pure_eq_ok {a a' : α} : (pure a : Placing α) = .ok a' ↔ a' = a := by
  simp [pure, Except.pure, eq_comm]

/-- What every step of a fold keeps holds in the end. -/
theorem foldlM_induct {P : β → Prop} {g : β → α → Placing β} {xs : List α} {b' : β}
    (h : xs.foldlM g b = .ok b') (hb : P b)
    (hstep : ∀ x ∈ xs, ∀ b b', P b → g b x = .ok b' → P b') : P b' := by
  induction xs generalizing b with
  | nil =>
    obtain rfl := Except.ok.inj h
    exact hb
  | cons x xs ih =>
    obtain ⟨b₁, hx, hxs⟩ := bind_eq_ok.mp h
    obtain ⟨hfirst, hrest⟩ := List.forall_mem_cons.mp hstep
    exact ih hxs (hfirst b b₁ hb hx) hrest

/-- What all results of a function have, a list of results has. -/
theorem mapM_forall {P : β → Prop} {xs : List α} {ys : List β} (h : xs.mapM f = .ok ys)
    (hstep : ∀ x ∈ xs, ∀ y, f x = .ok y → P y) : ∀ y ∈ ys, P y := by
  induction xs generalizing ys with
  | nil =>
    obtain rfl := Except.ok.inj h
    exact fun _ hy ↦ absurd hy List.not_mem_nil
  | cons x xs ih =>
    rw [List.mapM_cons] at h
    obtain ⟨y, hy, h⟩ := bind_eq_ok.mp h
    obtain ⟨ys', hys, h⟩ := bind_eq_ok.mp h
    obtain rfl := Except.ok.inj h
    obtain ⟨hfirst, hrest⟩ := List.forall_mem_cons.mp hstep
    exact List.forall_mem_cons.mpr ⟨hfirst y hy, ih hys hrest⟩

end Placing

theorem Allocation.locate_eq_ok {a : Allocation} {v : VReg} {l : Location} :
    a.locate v = .ok l ↔ a.location? v = some l := by
  rw [Allocation.locate]
  cases a.location? v <;> simp

namespace Placement

variable {a : Allocation} {i j : Inst} {is : List Inst} {o : Operand} {os : List Operand}
  {r r' : Reg} {q : PhysReg} {m m' : Mem} {z : Sized} {zs : List Sized}

/-- Loads into scratch registers, which repairs are made of. -/
def AllPlain (is : List Inst) : Prop := ∀ i ∈ is, i.kind = .plain

theorem AllPlain.append {js : List Inst} (h : AllPlain is) (h' : AllPlain js) :
    AllPlain (is ++ js) := fun i hi ↦ (List.mem_append.mp hi).elim (h i) (h' i)

theorem AllPlain.straight (h : AllPlain is) : ∀ i ∈ is, i.isStraight = true :=
  fun i hi ↦ Inst.isStraight_of_plain (h i hi)

theorem allPlain_nil : AllPlain [] := fun _ h ↦ absurd h List.not_mem_nil

theorem allPlain_define (mnemonic : String) (ops : List Operand) :
    AllPlain [.define mnemonic ops] := fun i hi ↦ by
  obtain rfl := List.mem_singleton.mp hi
  rfl

theorem addressReg_plain (h : addressReg a r q = .ok (is, r')) : AllPlain is := by
  cases r with
  | phys p =>
    obtain ⟨rfl, -⟩ := Prod.mk.inj (Except.ok.inj h)
    exact allPlain_nil
  | virt v =>
    obtain ⟨l, -, hl⟩ := Placing.bind_eq_ok.mp h
    cases l with
    | register p =>
      obtain ⟨rfl, -⟩ := Prod.mk.inj (Except.ok.inj hl)
      exact allPlain_nil
    | stack slot =>
      obtain ⟨rfl, -⟩ := Prod.mk.inj (Except.ok.inj hl)
      exact allPlain_define _ _

theorem address_plain (h : address a m = .ok (is, m')) : AllPlain is := by
  obtain ⟨⟨loads, base⟩, hbase, h⟩ := Placing.bind_eq_ok.mp h
  cases hindex : m.index with
  | none =>
    rw [hindex] at h
    obtain ⟨rfl, -⟩ := Prod.mk.inj (Except.ok.inj h)
    exact addressReg_plain hbase
  | some part =>
    rw [hindex] at h
    obtain ⟨⟨more, index⟩, hmore, h⟩ := Placing.bind_eq_ok.mp h
    obtain ⟨rfl, -⟩ := Prod.mk.inj (Except.ok.inj h)
    exact (addressReg_plain hbase).append (addressReg_plain hmore)

theorem operand_plain (h : operand a o = .ok (is, z)) : AllPlain is := by
  cases o with
  | reg r width =>
    cases r with
    | phys p =>
      obtain ⟨rfl, -⟩ := Prod.mk.inj (Except.ok.inj h)
      exact allPlain_nil
    | virt v =>
      obtain ⟨l, -, hl⟩ := Placing.bind_eq_ok.mp h
      cases l <;>
        (obtain ⟨rfl, -⟩ := Prod.mk.inj (Except.ok.inj hl)
         exact allPlain_nil)
  | mem m =>
    obtain ⟨⟨loads, m'⟩, hm, h⟩ := Placing.bind_eq_ok.mp h
    obtain ⟨rfl, -⟩ := Prod.mk.inj (Except.ok.inj h)
    exact address_plain hm
  | _ =>
    obtain ⟨rfl, -⟩ := Prod.mk.inj (Except.ok.inj h)
    exact allPlain_nil

theorem operands_plain (h : operands a os = .ok (is, zs)) : AllPlain is := by
  induction os generalizing is zs with
  | nil =>
    obtain ⟨rfl, -⟩ := Prod.mk.inj (Except.ok.inj h)
    exact allPlain_nil
  | cons o os ih =>
    obtain ⟨⟨loads, z⟩, ho, h⟩ := Placing.bind_eq_ok.mp h
    obtain ⟨⟨more, zs⟩, hos, h⟩ := Placing.bind_eq_ok.mp h
    obtain ⟨rfl, -⟩ := Prod.mk.inj (Except.ok.inj h)
    exact (operand_plain ho).append (ih hos)

theorem repairDestination_plain (i : Inst) (zs : List Sized) :
    AllPlain (repairDestination i zs).before ∧ AllPlain (repairDestination i zs).after := by
  have hsave (slot : Mem) :
      AllPlain [{ mnemonic := "movq", operands := [.phys .valueScratch, .mem slot] }] :=
    fun i hi ↦ by
      obtain rfl := List.mem_singleton.mp hi
      rfl
  rw [repairDestination]
  split
  · split
    · refine ⟨?_, hsave _⟩
      split
      · exact allPlain_define _ _
      · exact allPlain_nil
    · exact ⟨allPlain_nil, allPlain_nil⟩
  · exact ⟨allPlain_nil, allPlain_nil⟩

theorem fetchFirst_plain (zs : List Sized) : AllPlain (fetchFirst zs).1 := by
  induction zs with
  | nil => exact allPlain_nil
  | cons z zs ih =>
    obtain ⟨o, width⟩ := z
    rw [fetchFirst]
    split
    · exact allPlain_define _ _
    · exact ih

theorem repairMemory_plain (zs : List Sized) : AllPlain (repairMemory zs).1 := by
  rw [repairMemory]
  split
  · exact fetchFirst_plain zs
  · exact allPlain_nil

/-- What is placed for an instruction is itself, with repairs around it. -/
theorem inst_kind (h : inst a i = .ok is) (hj : j ∈ is) : j.kind = .plain ∨ j.kind = i.kind := by
  obtain ⟨⟨loads, zs⟩, hops, h⟩ := Placing.bind_eq_ok.mp h
  obtain rfl := Except.ok.inj h
  have hrepaired := repairDestination_plain i zs
  rcases List.mem_append.mp hj with hj | hj
  · rcases List.mem_append.mp hj with hj | hj
    · exact Or.inl (((operands_plain hops).append hrepaired.1) j hj)
    · exact Or.inl (repairMemory_plain _ j hj)
  · split at hj
    · exact absurd hj List.not_mem_nil
    · rcases List.mem_cons.mp hj with rfl | hj
      · exact Or.inr rfl
      · exact Or.inl (hrepaired.2 j hj)

theorem inst_straight (h : inst a i = .ok is) (hi : i.isStraight = true) :
    ∀ j ∈ is, j.isStraight = true := by
  intro j hj
  rw [Inst.isStraight, decide_eq_true_eq] at hi ⊢
  rcases inst_kind h hj with hkind | hkind
  · exact Or.inl hkind
  · rw [hkind]
    exact hi

end Placement

namespace EdgeMove

variable {a : Allocation} {moves : List EdgeMove} {steps : List Step} {src dst : Operand}

theorem copy_plain (dst src : Operand) : Placement.AllPlain (copy dst src) := by
  have hload (w : Word) (o : Operand) : (loadConstant w o).kind = .plain := by
    rw [loadConstant]
    split <;> rfl
  have hcopy (r : PhysReg) (o : Operand) : (copyToReg r o).kind = .plain := by
    cases o with
    | imm w => exact hload w _
    | _ => rfl
  have hvia (o : Operand) (r : PhysReg) (m : Mem) : Placement.AllPlain
      [copyToReg r o, { mnemonic := "movq", operands := [.phys r, .mem m] }] :=
    List.forall_mem_cons.mpr ⟨hcopy _ _, List.forall_mem_singleton.mpr rfl⟩
  unfold copy
  split
  · exact List.forall_mem_singleton.mpr (hload _ _)
  · split
    · exact List.forall_mem_singleton.mpr rfl
    · exact hvia _ _ _
  · exact hvia _ _ _
  · exact List.forall_mem_singleton.mpr rfl

theorem sequenceFrom_plain {fuel : Nat} (h : sequenceFrom a fuel moves = .ok steps) :
    ∀ step ∈ steps, Placement.AllPlain step.insts := by
  induction fuel generalizing moves steps with
  | zero =>
    rw [sequenceFrom] at h
    obtain rfl := Except.ok.inj h
    exact fun _ hs ↦ absurd hs List.not_mem_nil
  | succ fuel ih =>
    cases moves with
    | nil =>
      rw [sequenceFrom] at h
      · obtain rfl := Except.ok.inj h
        exact fun _ hs ↦ absurd hs List.not_mem_nil
      · exact fun hfuel ↦ absurd hfuel (Nat.succ_ne_zero fuel)
    | cons first rest =>
      rw [sequenceFrom] at h
      split at h
      · obtain ⟨⟨loads, src, width⟩, hsrc, h⟩ := Placing.bind_eq_ok.mp h
        obtain ⟨more, hmore, h⟩ := Placing.bind_eq_ok.mp h
        obtain rfl := Except.ok.inj h
        refine List.forall_mem_cons.mpr ⟨?_, ih hmore⟩
        exact (Placement.operand_plain hsrc).append (copy_plain _ _)
      · obtain ⟨parked, hparked, h⟩ := Placing.bind_eq_ok.mp h
        obtain ⟨more, hmore, h⟩ := Placing.bind_eq_ok.mp h
        obtain rfl := Except.ok.inj h
        exact List.forall_mem_cons.mpr ⟨copy_plain _ _, ih hmore⟩

/-- Copies are moves. -/
theorem sequence_plain (h : sequence a moves = .ok steps) :
    Placement.AllPlain (steps.flatMap (·.insts)) := by
  intro i hi
  obtain ⟨step, hstep, hi⟩ := List.mem_flatMap.mp hi
  exact sequenceFrom_plain h step hstep i hi

end EdgeMove

/-! ## Blocks that end -/

/-- How a block ends: in a return, in a jump, or in a branch and a jump. -/
inductive Ending where
  | ret
  | jump (target : LabelId)
  | branch (p : Ir.Predicate) (taken other : LabelId)

namespace Ending

def insts : Ending → List Inst
  | ret => [{ mnemonic := "ret", operands := [], kind := .ret }]
  | jump target => [jumpTo target]
  | branch p taken other => [branchTo (jumpMnemonic p) taken, jumpTo other]

/-- The labels of the blocks that may come next. -/
def targets : Ending → List LabelId
  | ret => []
  | jump target => [target]
  | branch _ taken other => [taken, other]

/-- The label of the block that comes next. -/
def next? : Ending → Flags → Option LabelId
  | ret, _ => none
  | jump target, _ => some target
  | branch p taken other, f => some (if f.holds p then taken else other)

end Ending

/-- A block that consists of straight instructions and an ending. -/
structure Machine.Block.Ends (b : Block) (body : List Inst) (e : Ending) : Prop where
  insts : b.insts = body ++ e.insts
  straight : ∀ i ∈ body, i.isStraight = true

/-- `Named blocks l t` says that block number `t` has the label `l`. -/
def Named (blocks : List Block) (l : LabelId) (t : Nat) : Prop :=
  ∃ b, blocks[t]? = some b ∧ b.label = some l

/-- Blocks each of which ends and whose branches name blocks among them; the labels are different,
and below a bound. -/
structure Closed (blocks : List Block) (bound : LabelId) : Prop where
  ends : ∀ b ∈ blocks, ∃ body e, b.Ends body e
  named : ∀ b ∈ blocks, ∀ i ∈ b.insts, i.isBranch = true → ∀ l,
    i.operands.head? = some (.label l) → ∃ t, Named blocks l t
  distinct : ∀ l t t', Named blocks l t → Named blocks l t' → t = t'
  drawn : ∀ l t, Named blocks l t → l < bound

/-- The labels an ending names are labels of blocks. -/
theorem Closed.target {blocks : List Block} {bound : Nat} {b : Block} {body : List Inst} {e : Ending}
    {l : LabelId} (h : Closed blocks bound) (hb : b ∈ blocks) (he : b.Ends body e)
    (hl : l ∈ e.targets) : ∃ t, Named blocks l t := by
  have hmem {i : Inst} (hi : i ∈ e.insts) : i ∈ b.insts := he.insts ▸ List.mem_append_right _ hi
  cases e with
  | ret => exact absurd hl List.not_mem_nil
  | jump target =>
    obtain rfl := List.mem_singleton.mp hl
    exact h.named b hb (jumpTo l) (hmem List.mem_cons_self) rfl l rfl
  | branch q taken other =>
    simp only [Ending.targets, List.mem_cons, List.not_mem_nil, or_false] at hl
    rcases hl with rfl | rfl
    · exact h.named b hb (branchTo (jumpMnemonic q) l) (hmem List.mem_cons_self) rfl l rfl
    · exact h.named b hb (jumpTo l) (hmem (List.mem_cons_of_mem _ (List.mem_singleton_self _))) rfl l
        rfl

namespace Assembly

variable {a : Allocation} {p : Plan} {blocks : List Block} {b : Block} {body is code : List Inst}
  {e : Ending} {l : LabelId} {t idx bound : Nat} {s s' : Session} {moves : List EdgeMove}
  {stubs : List Stub}

/-- The placed instructions of straight code. -/
def placed (a : Allocation) (is : List Inst) : Placing (List Inst) :=
  return (← is.mapM (Placement.inst a)).flatten

/-- The copies for the edge from block `pred` to block `succ`. -/
def edgeCode (a : Allocation) (blocks : List Block) (pred succ : Nat) : Placing (List Inst) := do
  let moves ← EdgeMove.onEdge a blocks pred succ
  return (← EdgeMove.sequence a moves).flatMap (·.insts)

/-! ## Trailing branches -/

theorem isBranch_of_isStraight {i : Inst} (h : i.isStraight = true) :
    i.isBranch = false := by
  rw [Inst.isStraight, decide_eq_true_eq] at h
  rcases h with h | h <;> simp [Inst.isBranch, h]

private theorem split_at_branches {us vs : List Inst} (hinsts : b.insts = us ++ vs)
    (hus : ∀ i ∈ us, i.isBranch = false) (hvs : ∀ i ∈ vs, i.isBranch = true) :
    bodyInsts b = us ∧ trailingBranches b = vs := by
  have hrest : us.reverse.takeWhile (·.isBranch) = [] ∧
      us.reverse.dropWhile (·.isBranch) = us.reverse := by
    cases hrev : us.reverse with
    | nil => exact ⟨rfl, rfl⟩
    | cons u rest =>
      have hu := hus u (List.mem_reverse.mp (hrev ▸ List.mem_cons_self))
      exact ⟨List.takeWhile_cons_of_neg (by simp [hu]), List.dropWhile_cons_of_neg (by simp [hu])⟩
  have hvs' : ∀ i ∈ vs.reverse, i.isBranch = true := fun i hi ↦ hvs i (List.mem_reverse.mp hi)
  constructor
  · rw [bodyInsts, hinsts, List.reverse_append, List.dropWhile_append_of_pos hvs', hrest.2,
      List.reverse_reverse]
  · rw [trailingBranches, hinsts, List.reverse_append, List.takeWhile_append_of_pos hvs', hrest.1,
      List.append_nil, List.reverse_reverse]

theorem split_of_ret (h : b.Ends body .ret) :
    bodyInsts b = body ++ Ending.ret.insts ∧ trailingBranches b = [] := by
  refine split_at_branches (h.insts.trans (List.append_nil _).symm) (fun i hi ↦ ?_)
    fun i hi ↦ absurd hi List.not_mem_nil
  rcases List.mem_append.mp hi with hi | hi
  · exact isBranch_of_isStraight (h.straight i hi)
  · obtain rfl := List.mem_singleton.mp hi
    rfl

theorem split_of_branches (h : b.Ends body e) (he : ∀ i ∈ e.insts, i.isBranch = true) :
    bodyInsts b = body ∧ trailingBranches b = e.insts :=
  split_at_branches h.insts (fun i hi ↦ isBranch_of_isStraight (h.straight i hi)) he

/-! ## Parts of the layout that succeed -/

open Work

theorem liftPlacing_eq_ok {α : Type} {x : Placing α} {r : α} :
    liftPlacing x s = .ok r s' ↔ x = .ok r ∧ s' = s := by
  cases x with
  | ok r' =>
    rw [liftPlacing, pure_eq_ok, Except.ok.injEq]
    exact and_congr_left' eq_comm
  | error e => simp [liftPlacing]

theorem nextLabel_reportAll (s : Session) (es : List Event) :
    (s.reportAll es).nextLabel = s.nextLabel := by
  induction es generalizing s with
  | nil => rfl
  | cons e es ih => exact ih (s.report e)

theorem copies_ok (h : copies p moves s = .ok is s') :
    (∃ steps, EdgeMove.sequence p.allocation moves = .ok steps ∧
      is = steps.flatMap (·.insts)) ∧ s'.nextLabel = s.nextLabel := by
  obtain ⟨steps, s₁, hlift, hrest⟩ := bind_eq_ok.mp h
  obtain ⟨hsteps, rfl⟩ := liftPlacing_eq_ok.mp hlift
  obtain ⟨_, s₂, hmodify, hpure⟩ := bind_eq_ok.mp hrest
  obtain ⟨rfl, rfl⟩ := pure_eq_ok.mp hpure
  obtain rfl := modify_eq_ok.mp hmodify
  exact ⟨⟨steps, hsteps, rfl⟩, nextLabel_reportAll _ _⟩

theorem copies_straight (h : copies p moves s = .ok is s') : ∀ i ∈ is, i.isStraight = true := by
  obtain ⟨⟨steps, hsteps, rfl⟩, -⟩ := copies_ok h
  exact (EdgeMove.sequence_plain hsteps).straight

theorem placed_cons {i : Inst} :
    placed a (i :: is) = .ok code ↔ ∃ ps qs, Placement.inst a i = .ok ps ∧ placed a is = .ok qs ∧
      code = ps ++ qs := by
  constructor
  · intro h
    obtain ⟨pss, hpss, h⟩ := Placing.bind_eq_ok.mp h
    obtain rfl := Except.ok.inj h
    rw [List.mapM_cons] at hpss
    obtain ⟨ps, hps, hrest⟩ := Placing.bind_eq_ok.mp hpss
    obtain ⟨qss, hqss, hrest⟩ := Placing.bind_eq_ok.mp hrest
    obtain rfl := Except.ok.inj hrest
    exact ⟨ps, qss.flatten, hps, Placing.bind_eq_ok.mpr ⟨qss, hqss, rfl⟩, rfl⟩
  · rintro ⟨ps, qs, hps, hqs, rfl⟩
    obtain ⟨qss, hqss, h⟩ := Placing.bind_eq_ok.mp hqs
    obtain rfl := Except.ok.inj h
    refine Placing.bind_eq_ok.mpr ⟨ps :: qss, ?_, rfl⟩
    rw [List.mapM_cons]
    exact Placing.bind_eq_ok.mpr ⟨ps, hps, Placing.bind_eq_ok.mpr ⟨qss, hqss, rfl⟩⟩

theorem placed_straight (h : placed a is = .ok code) (his : ∀ i ∈ is, i.isStraight = true) :
    ∀ i ∈ code, i.isStraight = true := by
  induction is generalizing code with
  | nil =>
    obtain rfl := Except.ok.inj h
    exact fun _ hi ↦ absurd hi List.not_mem_nil
  | cons i is ih =>
    obtain ⟨hi, his⟩ := List.forall_mem_cons.mp his
    obtain ⟨ps, qs, hps, hqs, rfl⟩ := placed_cons.mp h
    intro j hj
    rcases List.mem_append.mp hj with hj | hj
    · exact Placement.inst_straight hps hi j hj
    · exact ih hqs his j hj

theorem instruction_of_ne {i : Inst} (hi : i.kind ≠ .ret) :
    instruction p i = liftPlacing (Placement.inst p.allocation i) := if_neg hi

theorem instructions_cons {i : Inst} :
    instructions p (i :: is) s = .ok code s' ↔ ∃ ps s₁ qs, instruction p i s = .ok ps s₁ ∧
      instructions p is s₁ = .ok qs s' ∧ code = ps ++ qs := by
  constructor
  · intro h
    obtain ⟨pss, s₁, hpss, h⟩ := bind_eq_ok.mp h
    obtain ⟨rfl, rfl⟩ := pure_eq_ok.mp h
    obtain ⟨ps, s₂, qss, hps, hqss, rfl⟩ := mapM_cons_eq_ok.mp hpss
    exact ⟨ps, s₂, qss.flatten, hps, bind_eq_ok.mpr ⟨qss, _, hqss, rfl⟩, rfl⟩
  · rintro ⟨ps, s₁, qs, hps, hqs, rfl⟩
    obtain ⟨qss, s₂, hqss, h⟩ := bind_eq_ok.mp hqs
    obtain ⟨rfl, rfl⟩ := pure_eq_ok.mp h
    exact bind_eq_ok.mpr ⟨_, _, mapM_cons_eq_ok.mpr ⟨ps, s₁, qss, hps, hqss, rfl⟩, rfl⟩

/-- Straight instructions in front of others are placed one by one. -/
theorem instructions_append_ok {js : List Inst} (h : instructions p (is ++ js) s = .ok code s')
    (his : ∀ i ∈ is, i.isStraight = true) :
    ∃ ps qs, placed p.allocation is = .ok ps ∧ instructions p js s = .ok qs s' ∧ code = ps ++ qs := by
  induction is generalizing code with
  | nil => exact ⟨[], code, rfl, h, rfl⟩
  | cons i is ih =>
    obtain ⟨hi, his⟩ := List.forall_mem_cons.mp his
    obtain ⟨ps, s₁, qs, hps, hqs, rfl⟩ := instructions_cons.mp h
    have hret : i.kind ≠ .ret := fun hkind ↦ by simp [Inst.isStraight, hkind] at hi
    rw [instruction_of_ne hret] at hps
    obtain ⟨hinst, rfl⟩ := liftPlacing_eq_ok.mp hps
    obtain ⟨ps', qs', hps', hqs', rfl⟩ := ih hqs his
    exact ⟨ps ++ ps', qs', placed_cons.mpr ⟨ps, ps', hinst, hps', rfl⟩, hqs',
      (List.append_assoc ..).symm⟩

theorem instructions_ok (h : instructions p is s = .ok code s')
    (his : ∀ i ∈ is, i.isStraight = true) : placed p.allocation is = .ok code ∧ s' = s := by
  rw [← List.append_nil is] at h
  obtain ⟨ps, qs, hps, hqs, rfl⟩ := instructions_append_ok h his
  obtain ⟨rfl, rfl⟩ := pure_eq_ok.mp hqs
  exact ⟨by simpa using hps, rfl⟩

/-! ## Targets -/

theorem targetBlock?_eq_some (h : Closed blocks bound) (hl : Named blocks l t) {i : Inst}
    (hi : i.operands.head? = some (.label l)) : targetBlock? blocks i = some t := by
  obtain ⟨b, hb, hlabel⟩ := hl
  obtain ⟨hlt, hget⟩ := List.getElem?_eq_some_iff.mp hb
  rw [targetBlock?, hi]
  refine List.findIdx?_eq_some_iff_getElem.mpr ⟨hlt, by simp [hget, hlabel], fun j hj ↦ ?_⟩
  have hne : blocks[j].label ≠ some l := fun heq ↦
    Nat.ne_of_lt hj (h.distinct l j t ⟨_, List.getElem?_eq_getElem _, heq⟩ ⟨b, hb, hlabel⟩)
  simpa using hne

/-! ## Branches -/

theorem branch_eq (p : Plan) (idx : Nat) (next : Option LabelId) (i : Inst) :
    branch p idx next i = ((match targetBlock? p.blocks i with
        | some succ => liftPlacing (EdgeMove.onEdge p.allocation p.blocks idx succ)
        | none => pure []) >>= fun moves ↦ match i.kind, i.operands.head?, moves with
      | .branch, some target, _ :: _ => do
        let label ← modifyGet (·.freshLabel)
        modify (·.report (.edgeCopies idx target label))
        return ([{ i with operands := [.label label] }], [⟨label, moves, target⟩])
      | _, _, _ => do
        let before ← copies p moves
        if i.kind = .jump && next.isSome && i.operands.head? = next.map .label then
          return (before, [])
        return (before ++ (← instruction p i), [])) := by
  rw [branch]
  cases targetBlock? p.blocks i <;> rfl

/-- The jump a block ends with, which is left out in front of its target. -/
def finalJump (next : Option LabelId) (l : LabelId) : List Inst :=
  if next = some l then [] else [jumpTo l]

theorem inst_jumpTo (a : Allocation) (l : LabelId) :
    Placement.inst a (jumpTo l) = .ok [jumpTo l] := rfl

theorem inst_branchTo (a : Allocation) (m : String) (l : LabelId) :
    Placement.inst a (branchTo m l) = .ok [branchTo m l] := by
  have hmove : Placement.isIdentityMove (branchTo m l) = false := Bool.and_false _
  have hinst : Placement.inst a (branchTo m l) =
      .ok (if Placement.isIdentityMove (branchTo m l) then [] else [branchTo m l]) := rfl
  rw [hinst, hmove]
  rfl

theorem branch_jumpTo {next : Option LabelId} (h : Closed p.blocks bound)
    (hl : Named p.blocks l t) :
    branch p idx next (jumpTo l) = (do
      let moves ← liftPlacing (EdgeMove.onEdge p.allocation p.blocks idx t)
      let ps ← copies p moves
      return (ps ++ finalJump next l, [])) := by
  rw [branch, targetBlock?_eq_some h hl rfl]
  refine bind_congr fun moves ↦ bind_congr fun ps ↦ ?_
  by_cases hnext : next = some l
  · subst hnext
    rw [finalJump, if_pos rfl, List.append_nil]
    exact if_pos (by simp [jumpTo])
  · have hinst : instruction p (jumpTo l) = pure [jumpTo l] := rfl
    rw [finalJump, if_neg hnext, hinst]
    refine if_neg fun hskip ↦ hnext ?_
    obtain ⟨-, htarget⟩ := Bool.and_eq_true_iff.mp hskip
    obtain ⟨l', hl', heq⟩ := Option.map_eq_some_iff.mp (of_decide_eq_true htarget).symm
    rw [hl', Operand.label.inj heq]

theorem branch_branchTo {next : Option LabelId} {m : String} (h : Closed p.blocks bound)
    (hl : Named p.blocks l t) :
    branch p idx next (branchTo m l) = (do
      let moves ← liftPlacing (EdgeMove.onEdge p.allocation p.blocks idx t)
      match moves with
      | [] => return ([branchTo m l], [])
      | moves =>
        let label ← modifyGet (·.freshLabel)
        modify (·.report (.edgeCopies idx (.label l) label))
        return ([branchTo m label], [⟨label, moves, .label l⟩])) := by
  rw [branch, targetBlock?_eq_some h hl rfl]
  refine bind_congr fun moves ↦ ?_
  cases moves with
  | nil =>
    have hinst : instruction p (branchTo m l) = pure [branchTo m l] := by
      rw [instruction_of_ne (by simp [branchTo]), inst_branchTo]
      rfl
    change (instruction p (branchTo m l) >>= fun is ↦ pure ([] ++ is, [])) = _
    rw [hinst]
    rfl
  | cons move moves => rfl

/-! ## Blocks -/

/-- The label of the block behind a block. -/
def nextLabel? (blocks : List Block) (idx : Nat) : Option LabelId :=
  (blocks[idx + 1]?).bind (·.label)

/-- What the ending of block `idx` becomes, with its stubs. Behind a return nothing is executed. -/
inductive Written (p : Plan) (idx : Nat) : Ending → List Inst → List Stub → Prop where
  | ret {dead : List Inst} (hdead : ∀ i ∈ dead, i.isStraight = true) :
    Written p idx .ret (epilogue p.saves ++ dead) []
  | jump {l : LabelId} {t : Nat} {ps : List Inst} (hl : Named p.blocks l t)
    (hps : edgeCode p.allocation p.blocks idx t = .ok ps) :
    Written p idx (.jump l) (ps ++ finalJump (nextLabel? p.blocks idx) l) []
  | direct {q : Ir.Predicate} {l l' : LabelId} {t t' : Nat} {ps : List Inst}
    (hl : Named p.blocks l t) (hl' : Named p.blocks l' t')
    (hnone : edgeCode p.allocation p.blocks idx t = .ok [])
    (hps : edgeCode p.allocation p.blocks idx t' = .ok ps) :
    Written p idx (.branch q l l')
      (branchTo (jumpMnemonic q) l :: (ps ++ finalJump (nextLabel? p.blocks idx) l')) []
  | stub {q : Ir.Predicate} {l l' l₀ : LabelId} {t t' : Nat} {moves : List EdgeMove}
    {ps : List Inst} (hl : Named p.blocks l t) (hl' : Named p.blocks l' t')
    (hmoves : EdgeMove.onEdge p.allocation p.blocks idx t = .ok moves)
    (hps : edgeCode p.allocation p.blocks idx t' = .ok ps) :
    Written p idx (.branch q l l')
      (branchTo (jumpMnemonic q) l₀ :: (ps ++ finalJump (nextLabel? p.blocks idx) l'))
      [⟨l₀, moves, .label l⟩]

/-- A piece whose stubs have taken their labels from the session, one after the other. -/
structure Drawn (stubs : List Stub) (s s' : Session) : Prop where
  labels : stubs.map (·.label) = List.range' s.nextLabel stubs.length
  nextLabel : s'.nextLabel = s.nextLabel + stubs.length

theorem Drawn.nil (h : s'.nextLabel = s.nextLabel) : Drawn [] s s' := ⟨rfl, h⟩

theorem Drawn.append {stubs' : List Stub} {s'' : Session} (h : Drawn stubs s s')
    (h' : Drawn stubs' s' s'') : Drawn (stubs ++ stubs') s s'' where
  labels := by
    rw [List.map_append, h.labels, h'.labels, h.nextLabel, List.length_append, List.range'_append_1]
  nextLabel := by rw [h'.nextLabel, h.nextLabel, List.length_append, Nat.add_assoc]

private theorem edgeCode_of_copies {ps : List Inst}
    (hmoves : EdgeMove.onEdge p.allocation p.blocks idx t = .ok moves)
    (hps : copies p moves s = .ok ps s') :
    edgeCode p.allocation p.blocks idx t = .ok ps ∧ s'.nextLabel = s.nextLabel := by
  obtain ⟨⟨steps, hsteps, rfl⟩, hlabel⟩ := copies_ok hps
  exact ⟨Placing.bind_eq_ok.mpr ⟨moves, hmoves, Placing.bind_eq_ok.mpr ⟨steps, hsteps, rfl⟩⟩, hlabel⟩

theorem branch_jumpTo_ok {next : Option LabelId} {piece : Piece} (h : Closed p.blocks bound)
    (hl : Named p.blocks l t) (hok : branch p idx next (jumpTo l) s = .ok piece s') :
    ∃ ps, edgeCode p.allocation p.blocks idx t = .ok ps ∧ piece = (ps ++ finalJump next l, []) ∧
      s'.nextLabel = s.nextLabel := by
  rw [branch_jumpTo h hl] at hok
  obtain ⟨moves, s₁, hlift, hrest⟩ := bind_eq_ok.mp hok
  obtain ⟨hmoves, rfl⟩ := liftPlacing_eq_ok.mp hlift
  obtain ⟨ps, s₂, hps, hpure⟩ := bind_eq_ok.mp hrest
  obtain ⟨rfl, rfl⟩ := pure_eq_ok.mp hpure
  obtain ⟨hcode, hlabel⟩ := edgeCode_of_copies hmoves hps
  exact ⟨ps, hcode, rfl, hlabel⟩

theorem branch_branchTo_ok {next : Option LabelId} {m : String} {piece : Piece}
    (h : Closed p.blocks bound) (hl : Named p.blocks l t)
    (hok : branch p idx next (branchTo m l) s = .ok piece s') :
    (piece = ([branchTo m l], []) ∧ edgeCode p.allocation p.blocks idx t = .ok [] ∧
      s'.nextLabel = s.nextLabel) ∨
    ∃ moves, EdgeMove.onEdge p.allocation p.blocks idx t = .ok moves ∧
      piece = ([branchTo m s.nextLabel], [⟨s.nextLabel, moves, .label l⟩]) ∧
      s'.nextLabel = s.nextLabel + 1 := by
  rw [branch_branchTo h hl] at hok
  obtain ⟨moves, s₁, hlift, hrest⟩ := bind_eq_ok.mp hok
  obtain ⟨hmoves, rfl⟩ := liftPlacing_eq_ok.mp hlift
  cases moves with
  | nil =>
    obtain ⟨rfl, rfl⟩ := pure_eq_ok.mp hrest
    exact Or.inl ⟨rfl, Placing.bind_eq_ok.mpr ⟨[], hmoves, rfl⟩, rfl⟩
  | cons move moves =>
    obtain ⟨label, s₂, hlabel, hrest'⟩ := bind_eq_ok.mp hrest
    obtain ⟨rfl, rfl⟩ := modifyGet_eq_ok.mp hlabel
    obtain ⟨_, s₃, hreport, hpure⟩ := bind_eq_ok.mp hrest'
    obtain rfl := modify_eq_ok.mp hreport
    obtain ⟨rfl, rfl⟩ := pure_eq_ok.mp hpure
    exact Or.inr ⟨_, hmoves, rfl, rfl⟩

theorem fallThrough_straight (h : fallThrough p idx b s = .ok code s') :
    (∀ i ∈ code, i.isStraight = true) ∧ s'.nextLabel = s.nextLabel := by
  obtain ⟨parts, s₁, hparts, hpure⟩ := bind_eq_ok.mp h
  obtain ⟨rfl, rfl⟩ := pure_eq_ok.mp hpure
  refine mapM_induct (P := fun parts s₂ ↦
    (∀ i ∈ parts.flatten, i.isStraight = true) ∧ s₂.nextLabel = s.nextLabel) hparts
    ⟨fun _ hi ↦ absurd hi List.not_mem_nil, rfl⟩ ?_
  rintro k succ - parts s₂ is s₃ - ⟨hstraight, hlabel⟩ hedge
  obtain ⟨moves, s₄, hlift, hcopies⟩ := bind_eq_ok.mp hedge
  obtain ⟨-, rfl⟩ := liftPlacing_eq_ok.mp hlift
  refine ⟨fun i hi ↦ ?_, (copies_ok hcopies).2.trans hlabel⟩
  rw [List.flatten_append, List.flatten_singleton] at hi
  exact (List.mem_append.mp hi).elim (hstraight i) (copies_straight hcopies i)

/-- **A block that ends is written as its label, its placed body and its ending.** -/
theorem block_ok {piece : Piece} (h : Closed p.blocks bound) (hb : b ∈ p.blocks)
    (he : b.Ends body e) (hok : block p idx b s = .ok piece s') :
    ∃ ps code, placed p.allocation body = .ok ps ∧
      piece.1 = (b.label.map Inst.label).toList ++ ps ++ code ∧
      Written p idx e code piece.2 ∧ Drawn piece.2 s s' := by
  obtain ⟨is, s₁, hbody, hrest⟩ := bind_eq_ok.mp hok
  have hnamed {l : LabelId} (hl : l ∈ e.targets) := h.target hb he hl
  cases e with
  | ret =>
    obtain ⟨hsplit, htrailing⟩ := split_of_ret he
    rw [hsplit] at hbody
    rw [htrailing] at hrest
    obtain ⟨ps, qs, hps, hqs, rfl⟩ := instructions_append_ok hbody he.straight
    obtain ⟨fall, s₂, hfall, hpure⟩ := bind_eq_ok.mp hrest
    obtain ⟨rfl, rfl⟩ := pure_eq_ok.mp hpure
    obtain ⟨hdead, hlabel⟩ := fallThrough_straight hfall
    obtain ⟨rs, s₃, rest, hrs, hnil, rfl⟩ := instructions_cons.mp hqs
    obtain ⟨rfl, rfl⟩ := pure_eq_ok.mp hrs
    obtain ⟨rfl, rfl⟩ := pure_eq_ok.mp hnil
    exact ⟨ps, epilogue p.saves ++ fall, hps, by simp, .ret hdead, .nil hlabel⟩
  | jump l =>
    obtain ⟨hsplit, htrailing⟩ := split_of_branches he (List.forall_mem_singleton.mpr rfl)
    rw [hsplit] at hbody
    rw [htrailing] at hrest
    obtain ⟨hps, rfl⟩ := instructions_ok hbody he.straight
    obtain ⟨pieces, s₂, hpieces, hpure⟩ := bind_eq_ok.mp hrest
    obtain ⟨rfl, rfl⟩ := pure_eq_ok.mp hpure
    obtain ⟨piece, s₃, rest, hpiece, hnil, rfl⟩ := mapM_cons_eq_ok.mp hpieces
    obtain ⟨rfl, rfl⟩ := mapM_nil_eq_ok.mp hnil
    obtain ⟨t, ht⟩ := hnamed List.mem_cons_self
    obtain ⟨qs, hqs, rfl, hlabel⟩ := branch_jumpTo_ok h ht hpiece
    exact ⟨is, _, hps, by simp [nextLabel?], .jump ht hqs, .nil hlabel⟩
  | branch q l l' =>
    obtain ⟨hsplit, htrailing⟩ := split_of_branches he
      (List.forall_mem_cons.mpr ⟨rfl, List.forall_mem_singleton.mpr rfl⟩)
    rw [hsplit] at hbody
    rw [htrailing] at hrest
    obtain ⟨hps, rfl⟩ := instructions_ok hbody he.straight
    obtain ⟨pieces, s₂, hpieces, hpure⟩ := bind_eq_ok.mp hrest
    obtain ⟨rfl, rfl⟩ := pure_eq_ok.mp hpure
    obtain ⟨first, s₃, rest, hfirst, hrest', rfl⟩ := mapM_cons_eq_ok.mp hpieces
    obtain ⟨second, s₄, rest', hsecond, hnil, rfl⟩ := mapM_cons_eq_ok.mp hrest'
    obtain ⟨rfl, rfl⟩ := mapM_nil_eq_ok.mp hnil
    obtain ⟨t, ht⟩ := hnamed List.mem_cons_self
    obtain ⟨t', ht'⟩ := hnamed (List.mem_cons_of_mem _ (List.mem_singleton_self l'))
    obtain ⟨qs, hqs, rfl, hlabel'⟩ := branch_jumpTo_ok h ht' hsecond
    rcases branch_branchTo_ok h ht hfirst with ⟨rfl, hnone, hlabel⟩ | ⟨moves, hmoves, rfl, hlabel⟩
    · exact ⟨is, _, hps, by simp [nextLabel?], .direct ht ht' hnone hqs, .nil (hlabel'.trans hlabel)⟩
    · exact ⟨is, _, hps, by simp [nextLabel?], .stub ht ht' hmoves hqs, ⟨rfl, hlabel'.trans hlabel⟩⟩

end Assembly

end TreeCover
