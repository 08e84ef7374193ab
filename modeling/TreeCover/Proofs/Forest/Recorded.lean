import TreeCover.Proofs.Forest.Declared
import TreeCover.Proofs.Forest.Reading

/-!
# The references of a new forest

Once a forest is built its books are balanced, and the references of the node of an instruction are the
operands that read its result: those of all instructions, and those of each phi once for every edge
into its block. Main statement: `buildForest_recorded`.
-/

namespace TreeCover

open Ir Machine Work

variable {f : Func} {w w' w'' w₁ w₂ u : Workspace} {g g' : Forest} {k c p s t x : NodeId}
  {b : BlockId} {id : InstId} {i : ResolvedInst} {kids roots owed : List NodeId} {n : Node}
  {idx : Nat} {o : Ir.Operand Value} {os os' : List (Ir.Operand Value)} {ms ms' : List NodeId}

namespace Workspace

/-- The operands `os` have been read: the node of an instruction whose result has a name has a
reference for each operand that reads it, and other nodes of instructions have none. -/
structure Counted (os : List (Ir.Operand Value)) (w : Workspace) : Prop where
  named : ∀ id k, w.defs.values.lookup (.inst id) = some k →
    w.forest.refs k = os.countP (·.isResult id)
  unnamed : ∀ id, w.defs.values.lookup (.inst id) = none → os.countP (·.isResult id) = 0
  others : ∀ x id, (w.forest.node x).source = some id →
    (∀ k, w.defs.values.lookup (.inst id) = some k → w.forest.owner k ≠ x) →
    (w.forest.node x).refs = 0

/-- More operands are read. -/
theorem Counted.records (h : w.Counted os) (hw : w.Building f) (hr : w.Records f os' ms w') :
    w'.Counted (os ++ os') where
  named id k hk := by
    rw [hr.values] at hk
    rw [hr.named id k hk, h.named id k hk, List.countP_append]
  unnamed id hid := by
    rw [hr.values] at hid
    rw [List.countP_append, h.unnamed id hid, hr.unnamed id hid]
  others x id hsource hother := by
    rw [hr.values] at hother
    replace hother : ∀ k, w.defs.values.lookup (.inst id) = some k → w.forest.owner k ≠ x := by
      intro k hk
      rw [← hr.grows.forest.owner hw.flat hr.building.flat (hw.results hk).1]
      exact hother k hk
    rw [hr.others x id hsource hother]
    by_cases hx : x < w.forest.size
    · exact h.others x id ((Node.source_of_core (hr.grows.forest.core x hx)).symm.trans hsource)
        hother
    · rw [Forest.node_of_le _ (Nat.le_of_not_lt hx)]

theorem lookup_name (w : Workspace) (id id' : InstId) (k : NodeId) :
    ((.inst id, k) :: w.defs.values : List (Value × NodeId)).lookup (.inst id') =
      if id' = id then some k else w.defs.values.lookup (.inst id') := by
  rw [List.lookup_cons]
  by_cases heq : id' = id
  · simp [heq]
  · rw [if_neg heq, beq_false_of_ne (fun hv ↦ heq (Value.inst.inj hv))]

/-- A result that nothing has read gets a name. -/
theorem Counted.name (h : w.Counted os) (hw : w.Building f) (hk : w.Results id k)
    (hnone : w.defs.values.lookup (.inst id) = none) :
    { w with defs := { w.defs with values := (.inst id, k) :: w.defs.values } }.Counted os where
  named id' k' hk' := by
    replace hk' := (w.lookup_name id id' k).symm.trans hk'
    split at hk'
    next heq =>
      subst heq
      obtain rfl := Option.some.inj hk'
      rw [h.unnamed id' hnone]
      exact h.others _ id' (hw.source_owner hk)
        fun k' hk' ↦ absurd (hk'.symm.trans hnone) (by simp)
    next => exact h.named id' k' hk'
  unnamed id' hid' := by
    replace hid' := (w.lookup_name id id' k).symm.trans hid'
    split at hid'
    next => exact absurd hid' (by simp)
    next => exact h.unnamed id' hid'
  others x id' hsource hother := by
    refine h.others x id' hsource fun k' hk' ↦ hother k' ((w.lookup_name id id' k).trans ?_)
    rw [if_neg, hk']
    rintro rfl
    exact absurd (hk'.symm.trans hnone) (by simp)

/-- A workspace in which the instructions before `next` have been built. They read the operands `os`,
and all copies into phis are among `roots`. -/
structure Recorded (next : InstId) (os : List (Ir.Operand Value)) (roots : List NodeId)
    (w : Workspace) : Prop extends Counted os w where
  ledger : w.forest.Ledger []
  later : ∀ id, next ≤ id → w.defs.values.lookup (.inst id) = none
  insts : ∀ k < w.forest.size, ∀ o, (w.forest.node k).op = .inst o →
    ∃ id, (w.forest.node k).source = some id ∧ w.defs.values.lookup (.inst id) = some k
  moves : ∀ x, (w.forest.node x).op = .phiMove → x ∈ roots
  lists : ∀ x < w.forest.size, (w.forest.node x).op = .args → 0 < (w.forest.node x).refs

namespace Recorded

theorem mono {next' : InstId} (h : w.Recorded next os roots) (hle : next ≤ next') :
    w.Recorded next' os roots :=
  { h with later := fun id hid ↦ h.later id (Nat.le_trans hle hid) }

/-- One more instruction: what it reads is counted, and its own node, which nothing reads yet, gets
the name. -/
theorem step (h : w.Recorded next os roots) (hw : w.Building f) (hr : w.Records f os' ms w')
    (hl : w'.forest.Ledger []) (hid : next ≤ id) (hk : w'.Results id k)
    (hnew : ∀ x, w.forest.size ≤ x → x < w'.forest.size → ∀ o, (w'.forest.node x).op = .inst o →
      x = k) :
    { w' with defs := { w'.defs with values := (.inst id, k) :: w'.defs.values } }.Recorded
      (id + 1) (os ++ os') (roots ++ (ms ++ [k])) := by
  have hnone : w'.defs.values.lookup (.inst id) = none := hr.values ▸ h.later id hid
  refine ⟨(h.records hw hr).name hr.building hk hnone, hl, fun id' hid' ↦ ?_, fun x hx o ho ↦ ?_,
    fun x hop ↦ ?_, fun x hx hop ↦ ?_⟩
  · refine (w'.lookup_name id id' k).trans ?_
    rw [if_neg (Nat.ne_of_gt hid'), hr.values]
    exact h.later id' (Nat.le_trans hid (Nat.le_of_succ_le hid'))
  · by_cases hlt : x < w.forest.size
    · have hcore := hr.grows.forest.core x hlt
      obtain ⟨id', hsource, hk'⟩ := h.insts x hlt o ((Node.op_of_core hcore).symm.trans ho)
      refine ⟨id', (Node.source_of_core hcore).trans hsource, (w'.lookup_name id id' k).trans ?_⟩
      rw [if_neg, hr.values, hk']
      rintro rfl
      exact absurd ((hr.values ▸ hk').symm.trans hnone) (by simp)
    · obtain rfl := hnew x (Nat.le_of_not_lt hlt) hx o ho
      exact ⟨id, hk.2.2, (w'.lookup_name id id x).trans (if_pos rfl)⟩
  · by_cases hlt : x < w.forest.size
    · exact List.mem_append_left _
        (h.moves x ((Node.op_of_core (hr.grows.forest.core x hlt)).symm.trans hop))
    · exact List.mem_append_right _
        (List.mem_append_left _ (hr.moves x (Nat.le_of_not_lt hlt) hop))
  · by_cases hlt : x < w.forest.size
    · exact Nat.lt_of_lt_of_le
        (h.lists x hlt ((Node.op_of_core (hr.grows.forest.core x hlt)).symm.trans hop))
        (hr.grows.forest.refs x hlt)
    · exact hr.lists x (Nat.le_of_not_lt hlt) hx hop

end Recorded

end Workspace

/-- One instruction of a block whose first roots are `roots`. -/
theorem buildStep_recorded {before roots' : List NodeId} (hw : w.Building f)
    (h : w.Recorded next os (before ++ roots)) (hi : (id, i) ∈ f.blockInsts b) (hid : next ≤ id)
    (hdeclared : ∀ succ, ∀ x ∈ f.blockPhis succ, (w.defs.phis.lookup x.1).isSome)
    (hx : buildStep f b roots id i w = .ok roots' w') :
    w'.Recorded (id + 1) (os ++ f.stepOperands b i) (before ++ roots') := by
  cases hphi : i.operation.isPhi with
  | true =>
    simp only [buildStep, hphi, if_true, defineValue, modifyDefs, bind_eq_ok, modify_eq_ok,
      pure_eq_ok] at hx
    obtain ⟨k, w₁, hk, _, _, rfl, rfl, rfl⟩ := hx
    obtain ⟨hbuilds, hroots, his⟩ := buildPhi_builds hw hi hphi hk
    obtain ⟨hledger, hrecords⟩ := buildPhi_records hw h.ledger hi hphi hk
    rw [Func.stepOperands, if_pos hphi, ← List.append_assoc]
    exact h.step hw hrecords hledger hid (his.results rfl rfl)
      fun x hle hlt o ho ↦ List.mem_singleton.mp (hroots.all x hle hlt o ho)
  | false =>
    obtain ⟨moves, w₁, k, w₂, w₃, hmoves, hk, hguard, rfl, rfl⟩ := buildStep_inst hphi hx
    obtain ⟨hroots₁, hop₁, hledger₁, hrecords₁⟩ : Roots b w w₁ moves ∧
        (∀ r ∈ moves, (w₁.forest.node r).op = .phiMove) ∧ w₁.forest.Ledger [] ∧
        w.Records f (if i.opcode.isTerminator then f.edgeOperands b else []) moves w₁ := by
      by_cases hterm : i.opcode.isTerminator = true
      · rw [if_pos hterm] at hmoves ⊢
        obtain ⟨-, hroots, hop, -⟩ := buildPhiMoves_builds hw hmoves
        exact ⟨hroots, hop, buildPhiMoves_records hw h.ledger hdeclared hmoves⟩
      · rw [if_neg hterm] at hmoves ⊢
        obtain ⟨rfl, rfl⟩ := pure_eq_ok.mp hmoves
        exact ⟨.nil (.refl hw), fun r hr ↦ absurd hr List.not_mem_nil, h.ledger, .refl hw⟩
    obtain ⟨hbuilds₂, hroots₂, kids, his⟩ := buildInst_builds hrecords₁.building hi hphi hk
    obtain ⟨hledger₂, hrecords₂⟩ := buildInst_records hrecords₁.building hledger₁ hi hphi hk
    obtain ⟨hledger₃, hrecords₃, hsize⟩ : w₃.forest.Ledger [] ∧ w₂.Records f [] [] w₃ ∧
        w₂.AddsLeaves f w₃ := by
      by_cases hwrites : i.opcode.writesMemory = true
      · rw [if_pos hwrites] at hguard
        obtain ⟨hledger, hrecords⟩ := guardReads_records hbuilds₂.building hledger₂ hguard
        exact ⟨hledger, hrecords, guardReads_adds hbuilds₂.building hguard⟩
      · rw [if_neg hwrites] at hguard
        obtain ⟨-, rfl⟩ := pure_eq_ok.mp hguard
        exact ⟨hledger₂, .refl hbuilds₂.building, .refl hbuilds₂.building⟩
    have hrecords := hrecords₁.trans (hrecords₂.trans hrecords₃ hrecords₁.building) hw
    simp only [List.append_nil] at hrecords
    have hroots := (hroots₁.append hroots₂ hrecords₁.grows hbuilds₂.grows).before
      (hrecords₁.grows.trans hbuilds₂.grows) hsize
    rw [Func.stepOperands, if_neg (by rw [hphi]; exact Bool.false_ne_true), List.append_assoc roots,
      ← List.append_assoc before]
    refine h.step hw hrecords hledger₃ hid ((his.results rfl rfl).grows hrecords₃.grows)
      fun x hle hlt o ho ↦ ?_
    rcases List.mem_append.mp (hroots.all x hle hlt o ho) with hx | hx
    · have hgrows := hbuilds₂.grows.trans hrecords₃.grows
      have hop := (Node.op_of_core (hgrows.forest.core x (hroots₁.upper x hx))).trans (hop₁ x hx)
      exact absurd (hop.symm.trans ho) NodeOp.noConfusion
    · exact List.mem_singleton.mp hx

/-- Instructions of a block, one after the other. -/
theorem buildSteps_recorded {is : List (InstId × ResolvedInst)} {before roots' : List NodeId}
    (limit : InstId) (hw : w.Building f) (h : w.Recorded next os (before ++ roots))
    (his : ∀ x ∈ is, x ∈ f.blockInsts b) (hsorted : is.Pairwise (·.1 < ·.1))
    (hlower : ∀ x ∈ is, next ≤ x.1) (hupper : ∀ x ∈ is, x.1 < limit) (hle : next ≤ limit)
    (hdeclared : ∀ succ, ∀ x ∈ f.blockPhis succ, (w.defs.phis.lookup x.1).isSome)
    (hx : (is.foldlM (fun roots (id, i) ↦ buildStep f b roots id i) roots : Work (List NodeId)) w
      = .ok roots' w') :
    w'.Recorded limit (os ++ is.flatMap fun x ↦ f.stepOperands b x.2) (before ++ roots') := by
  induction is generalizing w roots os next with
  | nil =>
    obtain ⟨rfl, rfl⟩ := pure_eq_ok.mp hx
    rw [List.flatMap_nil, List.append_nil]
    exact h.mono hle
  | cons x is ih =>
    rw [List.foldlM_cons] at hx
    obtain ⟨roots₁, w₁, hx, his'⟩ := bind_eq_ok.mp hx
    obtain ⟨hi, hrest⟩ := List.forall_mem_cons.mp his
    obtain ⟨hfirst, hsorted⟩ := List.pairwise_cons.mp hsorted
    obtain ⟨-, -, hbuilds, -⟩ := buildStep_builds hw hi hx
    have hstep := buildStep_recorded hw h hi (hlower x List.mem_cons_self) hdeclared hx
    have hsteps := ih hbuilds.building hstep hrest hsorted hfirst
      (fun y hy ↦ hupper y (List.mem_cons_of_mem x hy)) (hupper x List.mem_cons_self)
      (hbuilds.grows.phis.symm ▸ hdeclared) his'
    rwa [List.append_assoc] at hsteps

/-- The workspaces between two blocks. -/
theorem buildBlock_recorded {trees : List (List NodeId)} (hb : trees.length < f.blocks.length)
    (hplanted : Planted f trees w)
    (h : w.Recorded (f.firstInst trees.length)
      ((List.range trees.length).flatMap f.blockOperands) trees.flatten)
    (hx : (do
      modifyCode (·.beginBlock trees.length none)
      buildBlock f trees.length : Work (List NodeId)) w = .ok roots w') :
    w'.Recorded (f.firstInst (trees.length + 1))
      ((List.range (trees.length + 1)).flatMap f.blockOperands) (trees ++ [roots]).flatten := by
  obtain ⟨_, w₁, hbegin, hblock⟩ := bind_eq_ok.mp hx
  obtain rfl := modify_eq_ok.mp hbegin
  have hgrows : w.Grows { w with code := w.code.beginBlock trees.length none } :=
    ⟨.refl _, .beginBlock _ _ _, rfl, fun _ _ h ↦ h⟩
  have hw : { w with code := w.code.beginBlock trees.length none }.Building f :=
    hplanted.building.extend hgrows (fun k hle hlt ↦ absurd hlt (Nat.not_lt.mpr hle))
      (fun _ k hle hlt ↦ absurd hlt (Nat.not_lt.mpr hle)) (fun _ _ hk ↦ Or.inl hk)
      fun _ _ hk ↦ Or.inl hk
  simp only [buildBlock, report, bind_eq_ok, modify_eq_ok, pure_eq_ok] at hblock
  obtain ⟨roots, w₂, hsteps, _, _, rfl, rfl, rfl⟩ := hblock
  have hstart : { w with code := w.code.beginBlock trees.length none }.Recorded
      (f.firstInst trees.length) ((List.range trees.length).flatMap f.blockOperands)
      (trees.flatten ++ []) := by
    rw [List.append_nil]
    exact { h with }
  have hdone := buildSteps_recorded (f.firstInst (trees.length + 1)) hw hstart (fun _ hx ↦ hx)
    (f.blockInsts_sorted _) (fun x hx ↦ (Func.blockInsts_bounds hx).1)
    (fun x hx ↦ (Func.blockInsts_bounds hx).2)
    (f.firstInst_succ hb ▸ Nat.le_add_right _ _) (fun succ x hx ↦ ?_) hsteps
  · rw [List.range_succ, List.flatMap_append, List.flatMap_singleton, List.flatten_append,
      List.flatten_singleton]
    exact { hdone with }
  · obtain ⟨k, -, hk, -⟩ := hplanted.declared.register succ x hx
    exact Option.isSome_iff_exists.mpr ⟨k, hk⟩

/-- Declarations take no references. -/
theorem Declaring.recorded (h : Declaring f next w) (hl : w.forest.Ledger []) :
    w.Recorded 0 [] [] := by
  have hkids : ∀ k, (w.forest.node k).kids = [] ∧ (w.forest.node k).op ≠ .phiMove ∧
      (w.forest.node k).op ≠ .args ∧ ∀ o, (w.forest.node k).op ≠ .inst o := by
    intro k
    by_cases hk : k < w.forest.size
    · rcases h.nodes k hk with ⟨idx, p, -, his⟩ | ⟨b, id, i, v, -, his, -⟩
      · exact ⟨Node.kids_of_core his.2, his.op ▸ NodeOp.noConfusion, his.op ▸ NodeOp.noConfusion,
          fun o ↦ his.op ▸ NodeOp.noConfusion⟩
      · exact ⟨Node.kids_of_core his.2, his.op ▸ NodeOp.noConfusion, his.op ▸ NodeOp.noConfusion,
          fun o ↦ his.op ▸ NodeOp.noConfusion⟩
    · rw [Forest.node_of_le _ (Nat.le_of_not_lt hk)]
      exact ⟨rfl, NodeOp.noConfusion, NodeOp.noConfusion, fun _ ↦ NodeOp.noConfusion⟩
  have hrefs : ∀ k, (w.forest.node k).refs = 0 := fun k ↦
    (hl.conserved k).trans (Forest.held_eq_zero (fun p _ ↦ (hkids p).1) k)
  have hnone : ∀ id, w.defs.values.lookup (.inst id) = none := by
    intro id
    cases hk : w.defs.values.lookup (.inst id) with
    | none => rfl
    | some k =>
      obtain ⟨idx, p, hv, -⟩ := h.values _ k hk
      exact absurd hv (by simp)
  exact ⟨⟨fun id k hk ↦ absurd (hk.symm.trans (hnone id)) (by simp), fun _ _ ↦ rfl,
    fun x _ _ _ ↦ hrefs x⟩, hl, fun id _ ↦ hnone id, fun k _ o ho ↦ absurd ho ((hkids k).2.2.2 o),
    fun x hop ↦ absurd hop (hkids x).2.1, fun x _ hop ↦ absurd hop (hkids x).2.2.1⟩

theorem Forest.ledger_empty : ({} : Forest).Ledger [] := by
  have hnode : ∀ k, ({} : Forest).node k = { op := .dummy, width := 0 } :=
    fun k ↦ node_of_le _ (Nat.zero_le k)
  refine ⟨fun k t ht ↦ ?_, fun p c hc ↦ ?_, fun p ↦ by rw [hnode], fun k ↦ ?_⟩
  · rw [hnode] at ht
    exact absurd ht (by simp)
  · rw [hnode] at hc
    exact absurd hc List.not_mem_nil
  · rw [hnode, held_eq_zero fun p _ ↦ by rw [hnode]]
    rfl

theorem defineArguments_ledger {x : Unit} (hl : w.forest.Ledger [])
    (hx : defineArguments f w = .ok x w') : w'.forest.Ledger [] := by
  refine forM_induct (P := fun t ↦ t.forest.Ledger []) hx hl fun p _ t _ t' ht hp ↦ ?_
  simp only [push, defineValue, modifyDefs, bind_eq_ok, modifyGet_eq_ok, modify_eq_ok] at hp
  obtain ⟨_, _, ⟨rfl, rfl⟩, rfl⟩ := hp
  exact ht.push rfl rfl rfl fun t ht ↦ absurd ht (by simp)

theorem declarePhis_ledger {x : Unit} (hl : w.forest.Ledger []) (hx : declarePhis f w = .ok x w') :
    w'.forest.Ledger [] := by
  refine forM_induct (P := fun t ↦ t.forest.Ledger []) hx hl fun b _ t _ t' ht hb ↦ ?_
  refine forM_induct (P := fun t ↦ t.forest.Ledger []) hb ht fun p _ t _ t' ht hp ↦ ?_
  simp only [freshVReg, modifyCode, push, modifyDefs, bind_eq_ok, modifyGet_eq_ok,
    modify_eq_ok] at hp
  obtain ⟨_, _, ⟨rfl, rfl⟩, _, _, rfl, _, _, ⟨rfl, rfl⟩, rfl⟩ := hp
  exact ht.push rfl rfl rfl fun t ht ↦ absurd ht (by simp)

/-- Labels are made before they are read. -/
theorem createLabels_recorded {x : Unit} (hw : w.Building f) (h : w.Recorded 0 [] [])
    (hx : createLabels f w = .ok x w') : w'.Recorded 0 [] [] := by
  have hall : w'.forest.Ledger [] ∧ w.Records f [] [] w' ∧ w.AddsLeaves f w' := by
    refine forM_induct (P := fun t ↦ t.forest.Ledger [] ∧ w.Records f [] [] t ∧ w.AddsLeaves f t) hx
      ⟨h.ledger, .refl hw, .refl hw⟩ fun i _ t _ t' ht hi ↦ ?_
    refine forM_induct (P := fun t ↦ t.forest.Ledger [] ∧ w.Records f [] [] t ∧ w.AddsLeaves f t) hi
      ht fun b _ t _ t' ⟨hl, hr, hadds⟩ hb ↦ ?_
    obtain ⟨_, hlabel⟩ := discard_eq_ok.mp hb
    obtain ⟨hl', hr'⟩ := labelOf_records hadds.building hl hlabel
    exact ⟨hl', hr.trans hr' hw, hadds.trans (labelOf_builds hadds.building hlabel).1⟩
  obtain ⟨hl, hr, hadds⟩ := hall
  refine ⟨h.records hw hr, hl, fun id hid ↦ hr.values ▸ h.later id hid, fun k hk o ho ↦ ?_,
    fun x hop ↦ ?_, fun x hx hop ↦ ?_⟩
  · by_cases hlt : k < w.forest.size
    · have hcore := hr.grows.forest.core k hlt
      obtain ⟨id, hsource, hname⟩ := h.insts k hlt o ((Node.op_of_core hcore).symm.trans ho)
      exact ⟨id, (Node.source_of_core hcore).trans hsource, hr.values ▸ hname⟩
    · exact absurd ho (hadds.leaves k (Nat.le_of_not_lt hlt) hk o)
  · by_cases hlt : x < w.forest.size
    · exact h.moves x ((Node.op_of_core (hr.grows.forest.core x hlt)).symm.trans hop)
    · exact hr.moves x (Nat.le_of_not_lt hlt) hop
  · by_cases hlt : x < w.forest.size
    · exact Nat.lt_of_lt_of_le
        (h.lists x hlt ((Node.op_of_core (hr.grows.forest.core x hlt)).symm.trans hop))
        (hr.grows.forest.refs x hlt)
    · exact hr.lists x (Nat.le_of_not_lt hlt) hx hop

/-- **References.** Once a forest has been built, its books are balanced, and the node of each
instruction has a reference for every operand that reads its result. -/
theorem buildForest_recorded {s : Session} {trees : List (List NodeId)}
    (hx : buildForest f (.start f s) = .ok trees w) :
    w.Recorded (f.firstInst f.blocks.length)
      ((List.range f.blocks.length).flatMap f.blockOperands) trees.flatten := by
  simp only [buildForest, bind_eq_ok] at hx
  obtain ⟨_, w₁, hargs, _, w₂, hphis, _, w₃, hlabels, hblocks⟩ := hx
  have hdeclaring₁ := defineArguments_declares hargs
  obtain ⟨hdeclaring, hall⟩ := declarePhis_declares hdeclaring₁ hphis
  obtain ⟨hw₂, hdeclared, hinst⟩ := hdeclaring.builds hall
  have hrecorded₂ := hdeclaring.recorded
    (declarePhis_ledger (defineArguments_ledger Forest.ledger_empty hargs) hphis)
  have hstart := createLabels_planted hw₂ hdeclared hinst hlabels
  have hrecorded := createLabels_recorded hw₂ hrecorded₂ hlabels
  have hdone := mapM_induct (P := fun trees t ↦ Planted f trees t ∧
      t.Recorded (f.firstInst trees.length) ((List.range trees.length).flatMap f.blockOperands)
        trees.flatten) hblocks ⟨hstart, hrecorded⟩
    fun b x hb trees t roots t' hlength ht hstep ↦ ?_
  · rw [(mapM_length hblocks).trans List.length_range] at hdone
    exact hdone.2
  · obtain ⟨hlt, rfl⟩ := List.getElem?_eq_some_iff.mp hb
    rw [List.getElem_range, ← hlength] at hstep
    rw [List.length_range, ← hlength] at hlt
    rw [List.length_append]
    exact ⟨ht.1.grow hstep, buildBlock_recorded hlt ht.1 ht.2 hstep⟩

end TreeCover
