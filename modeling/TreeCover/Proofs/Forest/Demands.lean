import TreeCover.Compile
import TreeCover.Proofs.Forest.Declared
import TreeCover.Proofs.Work.Keeping

/-!
# Operands in build order

Building a function asks for operands one after the other: block after block, those of the phis behind
a block before those of its terminator. Each of these demands is met or not, whatever became of the
others before: a value has to stand before the instruction that is built, a literal needs a width that
constants have, and a phi needs a value for the block. So building fails with the fault of the first
demand that has one, and does not fail if there is none. Main statement: `buildForest_answers`.
-/

namespace TreeCover

open Ir Machine Work

variable {f : Func} {b succ : BlockId} {id next : InstId} {i : ResolvedInst} {v : Value}
  {w : Workspace} {d : Nat}

/-! ## Demands -/

/-- Whether a literal double is refused as an operand: an instruction with an integer result takes none,
but a store does. -/
def Ir.Inst.refusesDouble (i : ResolvedInst) : Bool :=
  match i.ty with
  | .int _ => i.opcode ≠ .store
  | _ => false

namespace Ir.Func

/-- A value that is there before instruction `next`: an argument, or the result of an earlier
instruction. -/
def Precedes (f : Func) (next : InstId) : Value → Prop
  | .arg idx => idx < f.params.length
  | .inst d => d < next

instance (f : Func) (next : InstId) (v : Value) : Decidable (f.Precedes next v) :=
  match v with
  | .arg idx => inferInstanceAs (Decidable (idx < f.params.length))
  | .inst d => inferInstanceAs (Decidable (d < next))

/-- An operand that building asks for. -/
structure Demand where
  /-- The block that is built. -/
  block : BlockId
  /-- The instruction that is built. -/
  next : InstId
  /-- The instruction that has the operand: the one that is built, or a phi behind the block. -/
  user : InstId
  inst : ResolvedInst
  idx : Nat
  /-- The operand; a phi may have none for the block. -/
  operand? : Option (Operand Value)
deriving DecidableEq, Repr

/-- The fault of an operand, if it cannot be resolved. -/
def Demand.fault? (f : Func) (d : Demand) : Option CompileError :=
  match d.operand? with
  | none => some (.unresolvedOperand d.user d.inst.opcode 0
      (.noIncoming ((f.blocks[d.block]?.map (·.name)).getD "")))
  | some (.int _ bits) => if bits ∈ [8, 16, 32, 64] then none else some (.constantWidth bits)
  | some (.float x) => if d.inst.refusesDouble then some (.floatLiteral x d.inst.opcode) else none
  | some (.value v) =>
    if f.Precedes d.next v then none
    else some (.unresolvedOperand d.user d.inst.opcode d.idx .usedBeforeDefinition)

section

variable {idx : Nat}

theorem fault?_int (n : Int) (bits : Nat) :
    Demand.fault? f ⟨b, next, id, i, idx, some (.int n bits)⟩ =
      if bits ∈ [8, 16, 32, 64] then none else some (.constantWidth bits) := rfl

theorem fault?_float (x : Binary64) :
    Demand.fault? f ⟨b, next, id, i, idx, some (.float x)⟩ =
      if i.refusesDouble then some (.floatLiteral x i.opcode) else none := rfl

theorem fault?_value (v : Value) :
    Demand.fault? f ⟨b, next, id, i, idx, some (.value v)⟩ =
      if f.Precedes next v then none
      else some (.unresolvedOperand id i.opcode idx .usedBeforeDefinition) := rfl

end

/-- What an instruction asks for at one of its places. -/
def placeDemand (b : BlockId) (id : InstId) (i : ResolvedInst) :
    Place Value BlockId × Nat → Option Demand
  | (.operand o, idx) => some ⟨b, id, id, i, idx, some o⟩
  | (.block _, _) => none

/-- What an instruction asks for. -/
def ownDemands (b : BlockId) (id : InstId) (i : ResolvedInst) : List Demand :=
  i.operation.places.zipIdx.filterMap (placeDemand b id i)

/-- What a phi asks for at the end of a block. -/
def phiDemand (b : BlockId) (next : InstId) (x : InstId × ResolvedInst) : Demand :=
  match x.2.operation.incoming.zipIdx.find? (·.1.2 == b) with
  | none => ⟨b, next, x.1, x.2, 0, none⟩
  | some ((value, _), idx) => ⟨b, next, x.1, x.2, idx * 2, some value⟩

/-- The phis behind a block, on all edges, each with the number of its block. -/
def edgePhis (f : Func) (b : BlockId) : List (BlockId × InstId × ResolvedInst) :=
  ((f.blocks[b]?.map (·.succs)).getD []).flatMap fun succ ↦
    (f.blockPhis succ).map fun phi ↦ (succ, phi)

/-- What building an instruction asks for. -/
def stepDemands (f : Func) (b : BlockId) (id : InstId) (i : ResolvedInst) : List Demand :=
  if i.operation.isPhi then []
  else (if i.opcode.isTerminator then (f.edgePhis b).map fun x ↦ phiDemand b id x.2 else []) ++
    ownDemands b id i

/-- What building a block asks for. -/
def blockDemands (f : Func) (b : BlockId) : List Demand :=
  (f.blockInsts b).flatMap fun x ↦ f.stepDemands b x.1 x.2

/-- All that building a function asks for, in order. -/
def demands (f : Func) : List Demand := (List.range f.blocks.length).flatMap f.blockDemands

/-! ### Where they come from -/

variable {q : Demand} {x : InstId × ResolvedInst}

theorem mem_ownDemands : q ∈ ownDemands b id i ↔
    ∃ idx o, i.operation.places[idx]? = some (.operand o) ∧ q = ⟨b, id, id, i, idx, some o⟩ := by
  rw [ownDemands, List.mem_filterMap]
  constructor
  · rintro ⟨⟨p, idx⟩, hp, hq⟩
    cases p with
    | operand o => exact ⟨idx, o, List.mem_zipIdx_iff_getElem?.mp hp, (Option.some.inj hq).symm⟩
    | block c => exact absurd hq nofun
  · rintro ⟨idx, o, ho, rfl⟩
    exact ⟨(.operand o, idx), List.mem_zipIdx_iff_getElem?.mpr ho, rfl⟩

theorem phiDemand_cases (b : BlockId) (next : InstId) (x : InstId × ResolvedInst) :
    (∀ p ∈ x.2.operation.incoming, p.2 ≠ b) ∧ phiDemand b next x = ⟨b, next, x.1, x.2, 0, none⟩ ∨
      ∃ idx value, x.2.operation.incoming[idx]? = some (value, b) ∧
        phiDemand b next x = ⟨b, next, x.1, x.2, idx * 2, some value⟩ := by
  rw [phiDemand]
  cases hfind : x.2.operation.incoming.zipIdx.find? (·.1.2 == b) with
  | none =>
    refine .inl ⟨fun p hp ↦ ?_, rfl⟩
    obtain ⟨idx, hidx⟩ := List.getElem?_of_mem hp
    have hmem : (p, idx) ∈ x.2.operation.incoming.zipIdx := List.mem_zipIdx_iff_getElem?.mpr hidx
    exact fun heq ↦ List.find?_eq_none.mp hfind _ hmem (beq_iff_eq.mpr heq)
  | some found =>
    obtain ⟨⟨value, pred⟩, idx⟩ := found
    obtain rfl : pred = b := by simpa using List.find?_some hfind
    exact .inr ⟨idx, value, List.mem_zipIdx_iff_getElem?.mp (List.mem_of_find?_eq_some hfind), rfl⟩

theorem mem_edgePhis {e : BlockId × InstId × ResolvedInst} : e ∈ f.edgePhis b ↔
    e.1 ∈ (f.blocks[b]?.map (·.succs)).getD [] ∧ e.2 ∈ f.blockPhis e.1 := by
  rw [edgePhis, List.mem_flatMap]
  constructor
  · rintro ⟨succ, hsucc, he⟩
    obtain ⟨phi, hphi, rfl⟩ := List.mem_map.mp he
    exact ⟨hsucc, hphi⟩
  · rintro ⟨hsucc, hphi⟩
    exact ⟨e.1, hsucc, List.mem_map.mpr ⟨e.2, hphi, rfl⟩⟩

theorem mem_demands (hq : q ∈ f.demands) : ∃ b id i, (id, i) ∈ f.blockInsts b ∧
    i.operation.isPhi = false ∧ (q ∈ ownDemands b id i ∨
      i.opcode.isTerminator = true ∧ ∃ e ∈ f.edgePhis b, q = phiDemand b id e.2) := by
  obtain ⟨b, -, hq⟩ := List.mem_flatMap.mp hq
  obtain ⟨⟨id, i⟩, hi, hq⟩ := List.mem_flatMap.mp hq
  refine ⟨b, id, i, hi, ?_⟩
  rw [stepDemands] at hq
  split at hq
  next => exact absurd hq List.not_mem_nil
  next hphi =>
    refine ⟨Bool.eq_false_iff.mpr hphi, ?_⟩
    rcases List.mem_append.mp hq with hq | hq
    · split at hq
      next hterm =>
        obtain ⟨e, he, rfl⟩ := List.mem_map.mp hq
        exact .inr ⟨hterm, e, he, rfl⟩
      next => exact absurd hq List.not_mem_nil
    · exact .inl hq

/-- The value of pair number `k` of a phi stands at place `2 * k`. -/
theorem getElem?_places_phi {ν β : Type} {ps : List (Operand ν × β)} {k : Nat} {p : Operand ν × β}
    (h : ps[k]? = some p) :
    (Operation.phi ps : Operation ν β).places[k * 2]? = some (.operand p.1) := by
  induction ps generalizing k with
  | nil => exact absurd h nofun
  | cons p' ps ih =>
    cases k with
    | zero =>
      obtain rfl := Option.some.inj h
      rfl
    | succ k =>
      rw [Nat.succ_mul]
      exact ih h

/-- An operand that building asks for stands in its instruction. -/
theorem place_of_mem_demands {o : Operand Value} (hq : q ∈ f.demands) (ho : q.operand? = some o) :
    f.inst? q.user = some q.inst ∧ q.inst.operation.places[q.idx]? = some (.operand o) := by
  obtain ⟨b, id, i, hi, hphi, hq | ⟨-, ⟨succ, phi, j⟩, he, rfl⟩⟩ := mem_demands hq
  · obtain ⟨idx, o', ho', rfl⟩ := mem_ownDemands.mp hq
    obtain rfl := Option.some.inj ho
    exact ⟨(mem_insts_of_mem hi).1, ho'⟩
  · obtain ⟨hj, hphi⟩ := mem_blockInsts_of_phi (mem_edgePhis.mp he).2
    rcases phiDemand_cases b id (phi, j) with ⟨-, heq⟩ | ⟨idx, value, hvalue, heq⟩
    · rw [heq] at ho
      exact absurd ho nofun
    · rw [heq] at ho ⊢
      obtain rfl := Option.some.inj ho
      refine ⟨(mem_insts_of_mem hj).1, ?_⟩
      cases hop : j.operation with
      | phi ps =>
        have hvalue : ps[idx]? = some (value, b) := by rwa [hop] at hvalue
        exact hop ▸ getElem?_places_phi hvalue
      | _ =>
        rw [hop] at hphi
        exact absurd hphi Bool.false_ne_true

end Ir.Func

open Ir.Func

/-! ## Building -/

/-- The values with nodes are those that precede instruction `next`. -/
def Workspace.Defines (f : Func) (next : InstId) (w : Workspace) : Prop :=
  ∀ v, (w.defs.values.lookup v).isSome = true ↔ f.Precedes next v

/-- What the operands of instruction `next` can be resolved to: values that precede it, and all phis have
registers. -/
structure Workspace.Knows (f : Func) (next : InstId) (w : Workspace) : Prop where
  values : w.Defines f next
  phis : ∀ b, ∀ p ∈ f.blockPhis b, (w.defs.phis.lookup p.1).isSome = true

/-- A value that gets a node keeps the others. -/
theorem lookup_defineValue (w : Workspace) (v v' : Value) (k : NodeId) :
    ((v, k) :: w.defs.values).lookup v' = if v' = v then some k else w.defs.values.lookup v' := by
  rw [List.lookup_cons]
  by_cases h : v' = v
  · rw [if_pos h, beq_iff_eq.mpr h]
  · rw [if_neg h, beq_eq_false_iff_ne.mpr h]

theorem Workspace.Knows.define {k : NodeId} (h : w.Knows f id) :
    Workspace.Knows f (id + 1)
      { w with defs := { w.defs with values := (.inst id, k) :: w.defs.values } } := by
  refine ⟨fun v ↦ ?_, h.phis⟩
  rw [lookup_defineValue]
  split
  next heq =>
    subst heq
    exact ⟨fun _ ↦ Nat.lt_succ_self id, fun _ ↦ rfl⟩
  next hne =>
    rw [h.values]
    cases v with
    | arg idx => rfl
    | inst d =>
      have hne : d ≠ id := fun heq ↦ hne (congrArg Value.inst heq)
      exact ⟨Nat.lt_succ_of_lt, fun hlt ↦ Nat.lt_of_le_of_ne (Nat.le_of_lt_succ hlt) hne⟩

section Steps

/-- What is known of the nodes of values does not depend on the rest. -/
private theorem answers_forest (g : Forest → Forest) :
    Answers (Workspace.Knows f next) (modifyForest g) none (Workspace.Knows f next) :=
  .modify fun _ h ↦ ⟨h.values, h.phis⟩

private theorem answers_push (n : Node) :
    Answers (Workspace.Knows f next) (push n) none (Workspace.Knows f next) :=
  .modifyGet fun _ h ↦ ⟨h.values, h.phis⟩

private theorem answers_code (g : Code → Code) :
    Answers (Workspace.Knows f next) (modifyCode g) none (Workspace.Knows f next) :=
  .modify fun _ h ↦ ⟨h.values, h.phis⟩

private theorem answers_labelOf (b : BlockId) :
    Answers (Workspace.Knows f next) (labelOf b) none (Workspace.Knows f next) := by
  refine .get_bind fun w _ ↦ ?_
  cases w.defs.labels.lookup b with
  | some k => exact .pure k
  | none =>
    refine .after (.modifyGet fun _ h ↦ ⟨h.values, h.phis⟩) fun label ↦ .after (answers_push _) fun k ↦ ?_
    exact .after (.modify fun _ h ↦ ⟨h.values, h.phis⟩) fun _ ↦ .pure k

private theorem answers_constantLeaf (c : Constant) (width : Nat) :
    Answers (Workspace.Knows f next) (constantLeaf c width) none (Workspace.Knows f next) :=
  .after (.modifyGet fun _ h ↦ ⟨h.values, h.phis⟩) fun k ↦ .after (answers_forest _) fun _ ↦ .pure k

/-- An operand is resolved, or it has a fault. -/
private theorem answers_operand (b : BlockId) (next id : InstId) (i : ResolvedInst) (idx : Nat)
    (o : Ir.Operand Value) :
    Answers (Workspace.Knows f next) (operand id i idx o)
      (Demand.fault? f ⟨b, next, id, i, idx, some o⟩) (Workspace.Knows f next) := by
  cases o with
  | int n bits =>
    rw [operand, castInt, fault?_int]
    by_cases hbits : bits ∈ [8, 16, 32, 64]
    · rw [if_neg (not_not_intro hbits), if_pos hbits]
      split
      next c hcast => exact answers_constantLeaf c bits
      next e hcast => split at hcast <;> cases hcast
    · rw [if_pos hbits, if_neg hbits]
      exact .throw _
  | float x =>
    rw [operand, fault?_float, Inst.refusesDouble]
    cases i.ty with
    | int n =>
      by_cases hstore : i.opcode = .store
      · simp only [hstore, if_true, ne_eq, not_true_eq_false, decide_false, Bool.false_eq_true, if_false]
        exact answers_constantLeaf _ _
      · simp only [hstore, if_false, ne_eq, not_false_eq_true, decide_true, if_true]
        exact .throw _
    | _ => exact answers_constantLeaf _ _
  | value v =>
    refine .get_bind fun w hw ↦ ?_
    rw [fault?_value]
    by_cases hv : f.Precedes next v
    · rw [if_pos hv]
      obtain ⟨k, hk⟩ := Option.isSome_iff_exists.mp ((hw.values v).mpr hv)
      rw [hk]
      exact .after (answers_forest _) fun _ ↦ .pure k
    · rw [if_neg hv]
      have hnone : w.defs.values.lookup v = none :=
        Option.not_isSome_iff_eq_none.mp (mt (hw.values v).mp hv)
      rw [hnone]
      exact .throw _

private theorem answers_addChildren (parent : NodeId) (kids : List NodeId) :
    Answers (Workspace.Knows f next) (addChildren parent kids) none (Workspace.Knows f next) :=
  .forM_keeps fun _ _ ↦ answers_forest _

private theorem answers_addOwnChild (parent : NodeId) (n : Node) :
    Answers (Workspace.Knows f next) (discard (addOwnChild parent n)) none (Workspace.Knows f next) :=
  .discard (.after (answers_push n) fun k ↦ .after (answers_forest _) fun _ ↦ .pure k)

/-- The node of an instruction, whose operands are resolved in order. -/
private theorem answers_buildInst (f : Func) (b : BlockId) (id : InstId) (i : ResolvedInst) :
    Answers (Workspace.Knows f id) (buildInst f b id i)
      ((ownDemands b id i).findSome? (·.fault? f)) (Workspace.Knows f id) := by
  have hown : (ownDemands b id i).findSome? (·.fault? f) =
      i.operation.places.zipIdx.findSome? fun x ↦ (placeDemand b id i x).bind (·.fault? f) := by
    rw [ownDemands, ← List.head?_filterMap, List.filterMap_filterMap, List.head?_filterMap]
  rw [hown]
  -- the places are the only part of the work that can fail
  refine .before (.mapM_keeps fun x hx ↦ ?_) fun kids ↦ .after (answers_push _) fun n ↦ ?_
  · obtain ⟨p, idx⟩ := x
    cases p with
    | operand o => exact answers_operand b id id i idx o
    | block b => exact .after (answers_labelOf b) fun k ↦ .after (answers_forest _) fun _ ↦ .pure k
  have htail : Answers (Workspace.Knows f id) (do
      if i.opcode = .load then modifyForest (·.logAccess .read n)
      if f.escapes id then modifyForest (·.markEscaping n)
      return n) none (Workspace.Knows f id) := by
    refine .when_bind (p := fun _ ↦ _) (answers_forest _) ?_
    exact .when_bind (p := fun _ ↦ _) (answers_forest _) (.pure n)
  cases i.operation with
  | call callee args =>
    refine .after (answers_push _) fun list ↦ .after (answers_addChildren list kids) fun _ ↦ ?_
    exact .after (answers_forest _) fun _ ↦ htail
  | br target =>
    refine .after (answers_addChildren n kids) fun _ ↦ ?_
    exact .after (answers_addOwnChild n _) fun _ ↦ .after (answers_addOwnChild n _) fun _ ↦ htail
  | _ => exact .after (answers_addChildren n kids) fun _ ↦ htail

/-- The copy into a phi, if that has a value for the block. -/
private theorem answers_buildPhiMove {x : InstId × ResolvedInst} (hx : x ∈ f.blockPhis succ) :
    Answers (Workspace.Knows f next) (buildPhiMove f b succ x.1 x.2)
      ((phiDemand b next x).fault? f) (Workspace.Knows f next) := by
  rw [buildPhiMove, phiDemand]
  cases x.2.operation.incoming.zipIdx.find? (·.1.2 == b) with
  | none => exact .throw _
  | some found =>
    obtain ⟨⟨value, pred⟩, idx⟩ := found
    refine .get_bind fun w hw ↦ ?_
    obtain ⟨owner, howner⟩ := Option.isSome_iff_exists.mp (hw.phis succ x hx)
    rw [howner]
    refine .before (answers_operand b next x.1 x.2 (idx * 2) value) fun kid ↦ ?_
    exact .after (answers_push _) fun n ↦ .after (answers_forest _) fun _ ↦ .pure _

/-- The copies into the phis behind a block. -/
private theorem answers_buildPhiMoves (f : Func) (b : BlockId) (next : InstId) :
    Answers (Workspace.Knows f next) (buildPhiMoves f b)
      (((f.edgePhis b).map fun x ↦ phiDemand b next x.2).findSome? (·.fault? f))
      (Workspace.Knows f next) := by
  rw [List.findSome?_map]
  refine .before (.mapM_keeps fun x hx ↦ ?_) fun _ ↦ .pure _
  obtain ⟨succ, -, hx⟩ := List.mem_flatMap.mp hx
  obtain ⟨phi, hphi, rfl⟩ := List.mem_map.mp hx
  exact answers_buildPhiMove hphi

/-- One instruction, whose result is known from then on. -/
private theorem answers_buildStep (f : Func) (b : BlockId) (roots : List NodeId) (id : InstId)
    (i : ResolvedInst) :
    Answers (Workspace.Knows f id) (buildStep f b roots id i)
      ((f.stepDemands b id i).findSome? (·.fault? f)) (Workspace.Knows f (id + 1)) := by
  have hdefine : ∀ k (rs : List NodeId), Answers (Workspace.Knows f id) (do
      defineValue (.inst id) k
      return rs) none (Workspace.Knows f (id + 1)) :=
    fun k rs ↦ .after (.modify fun _ hw ↦ hw.define) fun _ ↦ .pure rs
  have htail : ∀ moves : List NodeId, Answers (Workspace.Knows f id) (do
      let n ← buildInst f b id i
      if i.opcode.writesMemory then guardReads roots
      defineValue (.inst id) n
      return roots ++ moves ++ [n]) ((ownDemands b id i).findSome? (·.fault? f))
        (Workspace.Knows f (id + 1)) := by
    intro moves
    refine .before (answers_buildInst f b id i) fun n ↦ ?_
    refine .when_bind (p := fun _ ↦ _) (.forM_keeps fun r _ ↦ answers_forest _) ?_
    exact hdefine n _
  rw [buildStep, stepDemands]
  cases i.operation.isPhi with
  | true =>
    refine .after (Q := Workspace.Knows f id) (.get_bind fun w _ ↦ answers_push _) fun k ↦ ?_
    exact hdefine k _
  | false =>
    by_cases hterm : i.opcode.isTerminator = true
    · simp only [hterm, if_true, Bool.false_eq_true, if_false, List.findSome?_append]
      exact .bind (answers_buildPhiMoves f b id) fun moves ↦ htail moves
    · simp only [hterm, Bool.false_eq_true, if_false, List.nil_append]
      exact htail []

/-- One block, after which the results of all its instructions are known. -/
private theorem answers_buildBlock (hb : b < f.blocks.length) :
    Answers (Workspace.Knows f (f.firstInst b)) (buildBlock f b)
      ((f.blockDemands b).findSome? (·.fault? f)) (Workspace.Knows f (f.firstInst (b + 1))) := by
  have hlength : (f.blockInsts b).length = f.blocks[b].insts.length := by
    rw [blockInsts, List.getElem?_eq_getElem hb, List.length_mapIdx]
  rw [blockDemands, findSome?_flatMap]
  refine .before (Q := Workspace.Knows f (f.firstInst (b + 1))) ?_ fun roots ↦
    .after (.modify fun _ hw ↦ ⟨hw.values, hw.phis⟩) fun _ ↦ .pure roots
  -- instruction `j` of the block is built when the results of those before it are known
  rw [f.firstInst_succ hb, ← hlength]
  refine .foldlM (S := fun k ↦ Workspace.Knows f k) (f.firstInst b) [] fun roots j x hx ↦ ?_
  obtain ⟨id, i⟩ := x
  have hid : id = f.firstInst b + j := by
    rw [blockInsts, List.getElem?_eq_getElem hb, List.getElem?_mapIdx] at hx
    obtain ⟨i', -, heq⟩ := Option.map_eq_some_iff.mp hx
    exact (Prod.mk.inj heq).1.symm
  exact hid ▸ answers_buildStep f b roots id i

/-- The arguments get their nodes, and nothing else has one. -/
private theorem answers_defineArguments (f : Func) :
    Answers (fun w ↦ w.defs.values = []) (defineArguments f) none (Workspace.Defines f 0) := by
  -- the state is what is known of the first `n` arguments
  let S (n : Nat) (w : Workspace) :=
    ∀ v, (w.defs.values.lookup v).isSome = true ↔ ∃ idx < n, v = .arg idx
  have hargs : Answers (S 0) (defineArguments f)
      (f.params.zipIdx.findSome? fun _ ↦ (none : Option CompileError))
      (S (0 + f.params.zipIdx.length)) := by
    refine .forM 0 fun j x hx ↦ ?_
    obtain ⟨p, idx⟩ := x
    obtain rfl : idx = 0 + j := by
      rw [List.getElem?_zipIdx] at hx
      obtain ⟨_, -, heq⟩ := Option.map_eq_some_iff.mp hx
      exact (Prod.mk.inj heq).2.symm
    refine .after (Q := S (0 + j)) (.modifyGet fun _ hw ↦ hw) fun k ↦ .modify fun w hw v ↦ ?_
    rw [lookup_defineValue]
    split
    next heq => exact ⟨fun _ ↦ ⟨0 + j, Nat.lt_succ_self _, heq⟩, fun _ ↦ rfl⟩
    next hne =>
      refine (hw v).trans ⟨fun ⟨idx, hidx, hv⟩ ↦ ⟨idx, Nat.lt_succ_of_lt hidx, hv⟩, ?_⟩
      rintro ⟨idx, hidx, rfl⟩
      have hidx' : idx ≠ 0 + j := fun heq ↦ hne (congrArg Value.arg heq)
      exact ⟨idx, Nat.lt_of_le_of_ne (Nat.le_of_lt_succ hidx) hidx', rfl⟩
  rw [List.findSome?_eq_none_iff.mpr fun _ _ ↦ rfl] at hargs
  intro w hw
  have hstart : S 0 w := fun v ↦ by
    rw [hw]
    exact ⟨nofun, fun ⟨idx, hidx, _⟩ ↦ absurd hidx (Nat.not_lt_zero idx)⟩
  obtain ⟨x, w', hx, hw'⟩ := hargs w hstart
  refine ⟨x, w', hx, fun v ↦ (hw' v).trans ?_⟩
  rw [Nat.zero_add, List.length_zipIdx]
  cases v with
  | arg idx => exact ⟨fun ⟨_, hidx, heq⟩ ↦ Value.arg.inj heq ▸ hidx, fun hidx ↦ ⟨idx, hidx, rfl⟩⟩
  | inst d => exact ⟨fun ⟨_, _, heq⟩ ↦ absurd heq nofun, fun hd ↦ absurd hd (Nat.not_lt_zero d)⟩

/-- Phis get registers; that says nothing of values. -/
private theorem answers_declarePhis (f : Func) :
    Answers (Workspace.Defines f next) (declarePhis f) none (Workspace.Defines f next) := by
  refine .forM_keeps fun b _ ↦ .forM_keeps fun x _ ↦ ?_
  refine .after (Q := Workspace.Defines f next) (.modifyGet fun _ h ↦ h) fun v ↦ ?_
  refine .after (Q := Workspace.Defines f next) (.modify fun _ h ↦ h) fun _ ↦ ?_
  exact .after (Q := Workspace.Defines f next) (.modifyGet fun _ h ↦ h) fun k ↦ .modify fun _ h ↦ h

/-- Block after block. -/
private theorem answers_buildBlocks (f : Func) :
    Answers (Workspace.Knows f 0) (do
      createLabels f
      (List.range f.blocks.length).mapM fun b ↦ do
        modifyCode (·.beginBlock b none)
        buildBlock f b) (f.demands.findSome? (·.fault? f))
      (Workspace.Knows f (f.firstInst f.blocks.length)) := by
  refine .after (Q := Workspace.Knows f 0)
    (.forM_keeps fun i _ ↦ .forM_keeps fun b _ ↦ .discard (answers_labelOf b)) fun _ ↦ ?_
  have hblocks : Answers (Workspace.Knows f (f.firstInst 0))
      ((List.range f.blocks.length).mapM fun b ↦ do
        modifyCode (·.beginBlock b none)
        buildBlock f b)
      ((List.range f.blocks.length).findSome? fun b ↦ (f.blockDemands b).findSome? (·.fault? f))
      (Workspace.Knows f (f.firstInst (0 + (List.range f.blocks.length).length))) := by
    refine .mapM (S := fun b ↦ Workspace.Knows f (f.firstInst b)) 0 fun b c hc ↦ ?_
    obtain ⟨hlt, rfl⟩ := List.getElem?_eq_some_iff.mp hc
    rw [List.length_range] at hlt
    rw [Nat.zero_add, List.getElem_range]
    exact .after (answers_code _) fun _ ↦ answers_buildBlock hlt
  rw [Nat.zero_add, List.length_range] at hblocks
  rw [demands, findSome?_flatMap]
  exact hblocks

end Steps

/-- **Operands in build order.** Building a function fails with the fault of the first operand that
cannot be resolved, and does not fail if all can be. -/
theorem buildForest_answers (f : Func) (s : Session) :
    match f.demands.findSome? (·.fault? f) with
    | none => ∃ trees w, buildForest f (.start f s) = .ok trees w
    | some e => ∃ w, buildForest f (.start f s) = .error e w := by
  obtain ⟨_, w₁, hargs, hdefines⟩ := answers_defineArguments f (.start f s) rfl
  obtain ⟨_, w₂, hphis, hdefines⟩ := answers_declarePhis f w₁ hdefines
  -- the phis of all blocks have registers from here on
  have hknows : w₂.Knows f 0 := by
    have hdeclared := (declarePhis_declares (defineArguments_declares hargs) hphis).2
    refine ⟨hdefines, fun b p hp ↦ ?_⟩
    obtain ⟨phi, -, k, hk, -⟩ := exists_of_forall₂ (hdeclared b).flip hp
    exact Option.isSome_iff_exists.mpr ⟨k, hk⟩
  have hbuild : buildForest f (.start f s) = (do
      createLabels f
      (List.range f.blocks.length).mapM fun b ↦ do
        modifyCode (·.beginBlock b none)
        buildBlock f b : Work (List (List NodeId))) w₂ := by
    rw [buildForest, bind_of_ok hargs, bind_of_ok hphis]
  have houtcome := answers_buildBlocks f w₂ hknows
  rw [hbuild]
  split
  next hnone =>
    rw [hnone] at houtcome
    obtain ⟨trees, w, hw, -⟩ := houtcome
    exact ⟨trees, w, hw⟩
  next e hsome =>
    rw [hsome] at houtcome
    exact houtcome

/-- The only fault that names a literal is that of the literal. -/
theorem Ir.Func.Demand.operand?_of_floatLiteral {q : Demand} {x : Binary64} {op : Opcode}
    (h : q.fault? f = some (.floatLiteral x op)) : q.operand? = some (.float x) ∧ q.inst.opcode = op := by
  rw [fault?] at h
  split at h
  next => exact absurd h nofun
  next => split at h <;> exact absurd h nofun
  next x' hfloat =>
    split at h
    next =>
      obtain ⟨rfl, rfl⟩ := CompileError.floatLiteral.inj (Option.some.inj h)
      exact ⟨hfloat, rfl⟩
    next => exact absurd h nofun
  next => split at h <;> exact absurd h nofun

/-- Building fails for a literal exactly if the first operand that cannot be resolved is that literal. -/
theorem buildForest_floatLiteral_iff (f : Func) (s : Session) (x : Binary64) (op : Opcode) :
    (∃ w, buildForest f (.start f s) = .error (.floatLiteral x op) w) ↔
      ∃ q, f.demands.find? (fun q ↦ (q.fault? f).isSome) = some q ∧
        q.operand? = some (.float x) ∧ q.inst.opcode = op := by
  have hanswers := buildForest_answers f s
  rw [findSome?_eq_find?_bind] at hanswers
  cases hfind : f.demands.find? fun q ↦ (q.fault? f).isSome with
  | none =>
    rw [hfind] at hanswers
    obtain ⟨trees, w, hbuilt⟩ := hanswers
    exact ⟨fun ⟨w', hfail⟩ ↦ absurd (hbuilt.symm.trans hfail) nofun, fun ⟨q, hq, _⟩ ↦ absurd hq nofun⟩
  | some q =>
    have hfault : (q.fault? f).isSome = true := by simpa using List.find?_some hfind
    obtain ⟨e, he⟩ := Option.isSome_iff_exists.mp hfault
    rw [hfind, Option.bind_some, he] at hanswers
    obtain ⟨w, hbuilt⟩ := hanswers
    constructor
    · rintro ⟨w', hfail⟩
      obtain ⟨rfl, -⟩ := EStateM.Result.error.inj (hbuilt.symm.trans hfail)
      exact ⟨q, rfl, Demand.operand?_of_floatLiteral he⟩
    · rintro ⟨q', hq', hfloat, hop⟩
      obtain rfl := Option.some.inj hq'
      have hfault : e = .floatLiteral x op := by
        rw [Demand.fault?, hfloat] at he
        dsimp only at he
        split at he
        next => rw [← Option.some.inj he, hop]
        next => exact absurd he nofun
      exact ⟨w, hfault ▸ hbuilt⟩

end TreeCover
