import TreeCover.Proofs.Flow.Layout
import TreeCover.Proofs.Forest.Demands
import TreeCover.Proofs.Ir.Dominance
import TreeCover.Proofs.Reading.Named

/-!
# Operands that resolve

Operands are resolved through a table that fills up in layout order, block after block. In a function in
static single assignment form that is laid out forwards, a definition comes before its uses in that order:
a dominator stands before what it dominates, back edges or not. The operands of a phi are resolved at the
end of the predecessor that they come from, where their definition has been passed as well. So building
such a function fails for a literal at most. Main statement: `buildForest_resolves`.
-/

namespace TreeCover

open Ir Machine Work

variable {f : Func} {b pred succ : BlockId} {id d phi next : InstId} {i : ResolvedInst} {v : Value}
  {w : Workspace}

/-! ## Definitions come before their uses -/

namespace Ir.Func

/-- Static single assignment form: every definition dominates its uses, and a phi has one value for
each way into its block, which is used at the end of the block that control comes from. -/
structure IsStrict (f : Func) : Prop where
  operands : ∀ b id i, (id, i) ∈ f.blockInsts b → i.operation.isPhi = false →
    ∀ d, Place.operand (.value (.inst d)) ∈ i.operation.places →
      ∃ a, f.blockOf? d = some a ∧ f.graph.Dominates a b ∧ (a = b → d < id)
  complete : ∀ b id i, (id, i) ∈ f.blockInsts b → i.operation.isPhi = true →
    ∀ pred, f.graph.Edge pred b → (i.operation.incoming.map (·.2)).count pred = 1
  incoming : ∀ b id i, (id, i) ∈ f.blockInsts b → i.operation.isPhi = true →
    ∀ pred, f.graph.Edge pred b → ∀ d, (.value (.inst d), pred) ∈ i.operation.incoming →
      ∃ a, f.blockOf? d = some a ∧ f.graph.Dominates a pred

/-- The blocks of a function that is read, run and laid out in order. -/
structure InOrder (f : Func) : Prop where
  wellFormed : f.WellFormed
  named : ∀ i ∈ f.insts, i.name.isSome = true → i.opcode.isTerminator = false
  reachable : ∀ b < f.blocks.length, f.graph.Reachable b
  forward : (Loops.of f.succs).isForwardLayout = true
  strict : f.IsStrict

theorem lt_blocks_of_mem (hi : (id, i) ∈ f.blockInsts b) : b < f.blocks.length := by
  obtain ⟨block, _, hb, -⟩ := mem_blockInsts.mp hi
  exact (List.getElem?_eq_some_iff.mp hb).1

/-- The terminator of a block is its last instruction. -/
theorem WellFormed.firstInst_succ_of_terminator (h : f.WellFormed) (hi : (id, i) ∈ f.blockInsts b)
    (hterm : i.opcode.isTerminator = true) : f.firstInst (b + 1) = id + 1 := by
  obtain ⟨block, k, hb, hk, rfl⟩ := mem_blockInsts.mp hi
  obtain ⟨body, last, hinsts, -, hbody, -⟩ :=
    (h.blocks block (List.mem_of_getElem? hb)).terminator
  obtain ⟨hlt, rfl⟩ := List.getElem?_eq_some_iff.mp hb
  have hk' : k = body.length := by
    rw [hinsts] at hk
    rcases Nat.lt_or_ge k body.length with hlt | hge
    · rw [List.getElem?_append_left hlt] at hk
      have hnot := hbody i (List.mem_of_getElem? hk)
      exact absurd (hnot.symm.trans hterm) Bool.false_ne_true
    · have hlen := (List.getElem?_eq_some_iff.mp hk).1
      rw [List.length_append, List.length_singleton] at hlen
      exact Nat.le_antisymm (Nat.le_of_lt_succ hlen) hge
  rw [f.firstInst_succ hlt, hinsts, List.length_append, List.length_singleton, hk', Nat.add_assoc]

namespace InOrder

/-- A definition that dominates a block stands before the end of the block. -/
theorem lt_firstInst (h : f.InOrder) {a : BlockId} (ha : f.blockOf? d = some a)
    (hb : b < f.blocks.length) (hdom : f.graph.Dominates a b) : a ≤ b ∧ d < f.firstInst (b + 1) := by
  have hle := Loops.le_of_dominates h.forward (h.reachable b hb) hdom
  exact ⟨hle, Nat.lt_of_lt_of_le (blockOf?_bounds ha).2 (f.firstInst_mono (Nat.succ_le_succ hle))⟩

/-- The operands of an instruction precede it. -/
theorem precedes (h : f.InOrder) (hi : (id, i) ∈ f.blockInsts b) (hphi : i.operation.isPhi = false)
    (hv : Place.operand (.value v) ∈ i.operation.places) : f.Precedes id v := by
  cases v with
  | arg idx => exact h.wellFormed.values i (mem_insts_of_mem hi).2 _ hv
  | inst d =>
    obtain ⟨a, ha, hdom, hbefore⟩ := h.strict.operands b id i hi hphi d hv
    have hle := (h.lt_firstInst ha (lt_blocks_of_mem hi) hdom).1
    rcases Nat.eq_or_lt_of_le hle with heq | hlt
    · exact hbefore heq
    · have hblock := f.firstInst_mono (Nat.succ_le_of_lt hlt)
      exact Nat.lt_of_lt_of_le (blockOf?_bounds ha).2
        (Nat.le_trans hblock (blockInsts_bounds hi).1)

/-- What a phi takes from a block precedes the terminator of that block. -/
theorem incoming_precedes (h : f.InOrder) (hi : (id, i) ∈ f.blockInsts b)
    (hterm : i.opcode.isTerminator = true) {x : InstId × ResolvedInst}
    (hx : x ∈ f.blockPhis succ) (hedge : f.graph.Edge b succ)
    (hv : (.value v, b) ∈ x.2.operation.incoming) : f.Precedes id v := by
  obtain ⟨phi, j⟩ := x
  obtain ⟨hj, hphi⟩ := mem_blockInsts_of_phi hx
  have hplace : Place.operand (.value v) ∈ j.operation.places := by
    cases hop : j.operation with
    | phi pairs =>
      rw [hop] at hv
      exact List.mem_flatMap.mpr ⟨_, hv, List.mem_cons_self⟩
    | _ =>
      rw [hop] at hphi
      exact absurd hphi Bool.false_ne_true
  have hdefines := h.wellFormed.values j (mem_insts_of_mem hj).2 v hplace
  cases v with
  | arg idx => exact hdefines
  | inst d =>
    obtain ⟨a, ha, hdom⟩ := h.strict.incoming succ phi j hj hphi b hedge d hv
    have hlt := (h.lt_firstInst ha (lt_blocks_of_mem hi) hdom).2
    rw [h.wellFormed.firstInst_succ_of_terminator hi hterm] at hlt
    -- the definition is not the terminator itself, which has no name
    refine Nat.lt_of_le_of_ne (Nat.le_of_lt_succ hlt) ?_
    rintro rfl
    obtain ⟨i', hi', hname⟩ := hdefines
    obtain ⟨hinst, hmem⟩ := mem_insts_of_mem hi
    obtain rfl := Option.some.inj (hinst.symm.trans hi')
    exact absurd (hterm.symm.trans (h.named i hmem hname)) nofun

end InOrder

end Ir.Func

/-! ## Operands resolve -/

/-- A failure to resolve an operand. -/
def CompileError.isUnresolved : CompileError → Bool
  | unresolvedOperand .. => true
  | _ => false

namespace Ir.Func

/-- An operand that is a literal, or a value that comes before, does not fail to resolve. -/
theorem Demand.isUnresolved_of_fault? {q : Demand} {o : Operand Value} {e : CompileError}
    (ho : q.operand? = some o) (hv : ∀ v, o = .value v → f.Precedes q.next v)
    (he : q.fault? f = some e) : e.isUnresolved = false := by
  rw [fault?, ho] at he
  cases o with
  | int n bits =>
    dsimp only at he
    split at he <;> cases he
    rfl
  | float x =>
    dsimp only at he
    split at he <;> cases he
    rfl
  | value v =>
    dsimp only at he
    rw [if_pos (hv v rfl)] at he
    cases he

/-- All that building asks for is there, or is a literal. -/
theorem InOrder.isUnresolved_of_fault? (h : f.InOrder) {q : Demand} {e : CompileError}
    (hq : q ∈ f.demands) (he : q.fault? f = some e) : e.isUnresolved = false := by
  obtain ⟨b, id, i, hi, hphi, hq | ⟨hterm, ⟨succ, phi, j⟩, hx, rfl⟩⟩ := mem_demands hq
  · obtain ⟨idx, o, ho, rfl⟩ := mem_ownDemands.mp hq
    refine Demand.isUnresolved_of_fault? rfl (fun v hv ↦ ?_) he
    subst hv
    exact h.precedes hi hphi (List.mem_of_getElem? ho)
  · obtain ⟨hsucc, hx⟩ := mem_edgePhis.mp hx
    obtain ⟨hj, hphi⟩ := mem_blockInsts_of_phi hx
    have hedge : f.graph.Edge b succ := by
      refine ⟨?_, ?_⟩
      · rwa [FlowGraph.succs, graph, succs, List.getElem?_map]
      · rw [graph, succs, List.length_map]
        exact lt_blocks_of_mem hj
    rcases phiDemand_cases b id (phi, j) with ⟨hnone, -⟩ | ⟨idx, value, hvalue, heq⟩
    · have hcount := h.strict.complete succ phi j hj hphi b hedge
      obtain ⟨p, hmem, hp⟩ := List.mem_map.mp
        (List.count_pos_iff.mp (hcount.symm ▸ Nat.one_pos))
      exact absurd hp (hnone p hmem)
    · rw [heq] at he
      refine Demand.isUnresolved_of_fault? rfl (fun v hv ↦ ?_) he
      subst hv
      exact h.incoming_precedes hi hterm hx hedge (List.mem_of_getElem? hvalue)

end Ir.Func

/-- **Operands resolve.** Building a function in strict static single assignment form in a forward layout
fails for no operand of an instruction, and for no value of a phi on any edge. -/
theorem buildForest_resolves {text : String} {fs : List Func} {s : Session}
    (hparse : parse text = .ok fs) (hf : f ∈ fs)
    (hreach : ∀ b < f.blocks.length, f.graph.Reachable b)
    (hforward : (Loops.of f.succs).isForwardLayout = true) (hstrict : f.IsStrict) :
    ∀ id op idx fault w, buildForest f (.start f s) ≠ .error (.unresolvedOperand id op idx fault) w := by
  have hwell : f.WellFormed := parse_reads hparse (fun _ ↦ readLines_wellFormed nofun) f hf
  have horder : f.InOrder :=
    ⟨hwell, not_isTerminator_of_named hparse f hf, hreach, hforward, hstrict⟩
  intro id op idx fault w hfail
  have hanswers := buildForest_answers f s
  split at hanswers
  next =>
    obtain ⟨trees, w', hbuilt⟩ := hanswers
    exact absurd (hfail.symm.trans hbuilt) nofun
  next e he =>
    obtain ⟨w', hbuilt⟩ := hanswers
    obtain ⟨rfl, -⟩ := EStateM.Result.error.inj (hfail.symm.trans hbuilt)
    obtain ⟨q, hq, he⟩ := List.exists_of_findSome?_eq_some he
    exact absurd (horder.isUnresolved_of_fault? hq he) nofun

/-! ## A function with a loop -/

namespace Ir.Func

/-- A block with one way into it is dominated by the block before it. -/
theorem dominates_of_preds {g : FlowGraph} {a b : BlockId} (hb : b ≠ 0) (h : g.preds b = [a]) :
    g.Dominates a b := by
  intro p hp
  cases hp with
  | entry => exact absurd rfl hb
  | @step p c _ hp hedge =>
    have hc : c ∈ g.preds b := FlowGraph.mem_preds_iff.mpr hedge.1
    rw [h, List.mem_singleton] at hc
    exact List.mem_cons_of_mem b (hc ▸ hp.target_mem)

/-- An operand of instruction `id` in block `b` that comes from the block itself, or from the one block
before it. -/
def isTimely (f : Func) (b : BlockId) (id : InstId) : Place Value BlockId → Bool
  | .operand (.value (.inst d)) =>
    match f.blockOf? d with
    | some a => if a = b then decide (d < id) else b != 0 && f.graph.preds b == [a]
    | none => false
  | _ => true

theorem exists_dominates_of_isTimely
    (h : f.isTimely b id (.operand (.value (.inst d))) = true) :
    ∃ a, f.blockOf? d = some a ∧ f.graph.Dominates a b ∧ (a = b → d < id) := by
  rw [isTimely] at h
  cases ha : f.blockOf? d with
  | none =>
    rw [ha] at h
    exact absurd h Bool.false_ne_true
  | some a =>
    simp only [ha] at h
    split at h
    next heq =>
      subst heq
      exact ⟨a, rfl, .refl f.graph a, fun _ ↦ of_decide_eq_true h⟩
    next hne =>
      obtain ⟨hb, hpreds⟩ := Bool.and_eq_true_iff.mp h
      exact ⟨a, rfl, dominates_of_preds (bne_iff_ne.mp hb) (beq_iff_eq.mp hpreds),
        fun heq ↦ absurd heq hne⟩

theorem isStrict_of_isTimely (h : ∀ b < f.blocks.length, ∀ x ∈ f.blockInsts b,
    (x.2.operation.isPhi = false → ∀ p ∈ x.2.operation.places, f.isTimely b x.1 p = true) ∧
      (x.2.operation.isPhi = true → ∀ pred ∈ f.graph.preds b,
        (x.2.operation.incoming.map (·.2)).count pred = 1) ∧
      ∀ v ∈ x.2.operation.incoming, f.isTimely v.2 f.insts.length (.operand v.1) = true) :
    f.IsStrict where
  operands b id i hi hphi d hd :=
    exists_dominates_of_isTimely ((h b (lt_blocks_of_mem hi) (id, i) hi).1 hphi _ hd)
  complete b id i hi hphi pred hedge :=
    (h b (lt_blocks_of_mem hi) (id, i) hi).2.1 hphi pred (FlowGraph.mem_preds_iff.mpr hedge.1)
  incoming b id i hi _ pred _ d hd := by
    obtain ⟨a, ha, hdom, -⟩ :=
      exists_dominates_of_isTimely ((h b (lt_blocks_of_mem hi) (id, i) hi).2.2 _ hd)
    exact ⟨a, ha, hdom⟩

/-- A loop in which one phi takes the value of the other, and is used behind the loop. -/
def descentText : String :=
  "define i64 @descent(i64 %n) \x7b\n" ++
  "  br label %loop\n" ++
  "loop:\n" ++
  "  %k = phi i64 [ %n, %entry ], [ %m, %loop ]\n" ++
  "  %j = phi i64 [ 0, %entry ], [ %k, %loop ]\n" ++
  "  %m = sub i64 %k, 1\n" ++
  "  %c = icmp ne i64 %m, 0\n" ++
  "  br i1 %c, label %loop, label %done\n" ++
  "done:\n" ++
  "  ret i64 %j\n" ++
  "\x7d\n"

def descent : Func :=
  { name := "descent", ret := .int 64, params := [⟨"n", .int 64⟩]
    blocks := [
      ⟨"entry", [⟨none, .void, .br 1⟩]⟩,
      ⟨"loop", [
        ⟨some "k", .int 64, .phi [(.value (.arg 0), 0), (.value (.inst 3), 1)]⟩,
        ⟨some "j", .int 64, .phi [(.int 0 64, 0), (.value (.inst 1), 1)]⟩,
        ⟨some "m", .int 64, .binary .sub (.value (.inst 1)) (.int 1 64)⟩,
        ⟨some "c", .int 1, .icmp .ne (.value (.inst 3)) (.int 0 64)⟩,
        ⟨none, .void, .condBr (.value (.inst 4)) 1 2⟩]⟩,
      ⟨"done", [⟨none, .int 64, .ret (some (.value (.inst 2)))⟩]⟩] }

theorem reachable_descent : ∀ b < descent.blocks.length, descent.graph.Reachable b := by
  have hentry : descent.graph.Edge 0 1 := ⟨by decide, by decide⟩
  have hexit : descent.graph.Edge 1 2 := ⟨by decide, by decide⟩
  have hloop := (FlowGraph.Reachable.entry descent.graph).step hentry
  intro b hb
  match b with
  | 0 => exact .entry _
  | 1 => exact hloop
  | 2 => exact hloop.step hexit

end Ir.Func

open Ir.Func in
set_option maxRecDepth 2048 in
theorem buildForest_resolves_descent :
    parse descentText = .ok [descent] ∧
      (∀ b < descent.blocks.length, descent.graph.Reachable b) ∧
      (Loops.of descent.succs).isForwardLayout = true ∧ descent.IsStrict ∧
      ∀ id op idx fault w, buildForest descent (.start descent {}) ≠
        .error (.unresolvedOperand id op idx fault) w := by
  have hparse : parse descentText = .ok [descent] := by
    rw [parse_eq_parseChars]
    unfold descentText
    simp only [String.toList_append, String.reduceToList]
    decide +kernel
  have hforward : (Loops.of descent.succs).isForwardLayout = true := by decide
  have hstrict : descent.IsStrict := isStrict_of_isTimely (by decide)
  exact ⟨hparse, reachable_descent, hforward, hstrict,
    buildForest_resolves hparse (List.mem_singleton_self _) reachable_descent hforward hstrict⟩

end TreeCover
