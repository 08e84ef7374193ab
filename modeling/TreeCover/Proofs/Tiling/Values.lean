import TreeCover.Proofs.Tiling.Meaning
import TreeCover.Proofs.Tiling.MemoryRuns
import TreeCover.Proofs.Tiling.MemoryOrder

/-!
# Values of nodes

Once a block has been evaluated every node of its trees has a value: that of its literal, argument or
instruction. The nodes of instructions that selection finds pending below a root belong to the block, and
their values come from those of their children, as their operators say, with the memory that the root
finds.
-/

namespace TreeCover

open Ir Machine Machine.Core Work

variable {f : Func} {trees : List (List NodeId)} {roots done rest mid : List NodeId} {w : Workspace}
  {σ : World} {A : Arithmetic} {st st' st₁ : BlockState} {values : InstId → Word} {mem : Memory}
  {b : BlockId} {id : InstId} {i : ResolvedInst} {j k r : NodeId} {o : Ir.Operand Value}
  {pre post : List (InstId × ResolvedInst)}

/-- The value of a node, where instructions have `values`. -/
def Forest.worth (g : Forest) (σ : World) (values : InstId → Word) (k : NodeId) : Word :=
  let n := g.node k
  match n.op with
  | .imm => (n.constant.map (·.word)).getD 0
  | .arg idx => σ.args idx
  | .inst .alloca => (n.source.map σ.slots).getD 0
  | _ => (n.source.map values).getD 0

/-- Allocas have their room. -/
def Workspace.Roomy (w : Workspace) (σ : World) (values : InstId → Word) : Prop :=
  ∀ id k, w.Results id k → (w.forest.node k).op = .inst .alloca → values id = σ.slots id

/-! ## Operands -/

theorem word_of_castInt {n : Int} {bits : Nat} {c : Constant} (h : castInt n bits = .ok c) :
    c.word = Arithmetic.machine.literal n bits := by
  rw [castInt] at h
  split at h
  · cases h
  · simp only [Arithmetic.machine]
    split at h
    next hfits =>
      obtain rfl := Except.ok.inj h
      rw [if_pos hfits]
      rfl
    next hfits =>
      obtain rfl := Except.ok.inj h
      rw [if_neg hfits]
      rfl

namespace Workspace

theorem Is.worth {n : Node} (h : w.Is k n) :
    w.forest.worth σ values k = match n.op with
      | .imm => (n.constant.map (·.word)).getD 0
      | .arg idx => σ.args idx
      | .inst .alloca => (n.source.map σ.slots).getD 0
      | _ => (n.source.map values).getD 0 := by
  rw [Forest.worth, h.op, h.source, Node.constant_of_core h.2]

/-- The node of a result. -/
theorem Building.worth_owner (hw : w.Building f) (hk : w.Results id k) (hrooms : w.Roomy σ values) :
    w.forest.worth σ values (w.forest.owner k) = values id := by
  have hsource := hw.source_owner hk
  rcases hw.owner hk.1 with howner | ⟨b, id', i, v, his⟩
  · have hslots := hrooms id k hk
    obtain ⟨-, ⟨o, ho⟩, -⟩ := hk
    rw [howner] at hsource ⊢
    rw [Forest.worth, ho, hsource]
    cases o with
    | alloca => exact (hslots ho).symm
    | _ => rfl
  · obtain rfl : id' = id := Option.some.inj (his.source.symm.trans hsource)
    rw [his.worth]
    rfl

/-- The node of an operand has its value. -/
theorem Denotes.worth (h : w.Denotes f (.operand o) j) (hw : w.Building f)
    (hrooms : w.Roomy σ st.values) :
    w.forest.worth σ st.values (w.forest.owner j) = Arithmetic.machine.operand σ st o := by
  cases h with
  | int hc his =>
    rw [Forest.owner_of_target (Node.target_of_core his.2), his.worth]
    exact word_of_castInt hc
  | float his =>
    rw [Forest.owner_of_target (Node.target_of_core his.2), his.worth]
    rfl
  | arg _ his =>
    rw [Forest.owner_of_target (Node.target_of_core his.2), his.worth]
    rfl
  | inst hk => exact hw.worth_owner hk hrooms

/-- The node of an operand has its width. -/
theorem Denotes.width (h : w.Denotes f (.operand o) j) (hw : w.Building f) :
    (w.forest.node (w.forest.owner j)).width = f.bitsOf o := by
  cases h with
  | int _ his =>
    rw [Forest.owner_of_target (Node.target_of_core his.2), Node.width_of_core his.2]
    rfl
  | float his =>
    rw [Forest.owner_of_target (Node.target_of_core his.2), Node.width_of_core his.2]
    rfl
  | arg hp his =>
    rw [Forest.owner_of_target (Node.target_of_core his.2), Node.width_of_core his.2, Func.bitsOf, hp]
    rfl
  | @inst id _ hk =>
    have hsource := hw.source_owner hk
    have hbits : ∀ {b : BlockId} {i : ResolvedInst}, (id, i) ∈ f.blockInsts b →
        f.bitsOf (.value (.inst id)) = if i.opcode = .alloca then 64 else i.ty.bits := fun hi ↦ by
      rw [Func.bitsOf, (Func.mem_insts_of_mem hi).1]
      rfl
    have hphi : ∀ {i : ResolvedInst}, i.operation.isPhi = true → i.opcode ≠ .alloca := fun hphi heq ↦
      absurd ((Operation.isPhi_iff.mp hphi).symm.trans heq) Opcode.noConfusion
    rcases hw.owner hk.1 with howner | ⟨b, id', i, v, his⟩
    · rw [howner] at hsource ⊢
      obtain ⟨hlt, ⟨o, ho⟩, -⟩ := hk
      obtain ⟨b, id', i, hi, ⟨hisPhi, _, his, -⟩ | ⟨-, _, his, -⟩⟩ := (hw.nodes _ hlt).shape.of_inst ho
      all_goals
        obtain rfl : id' = id := Option.some.inj (his.source.symm.trans hsource)
        rw [Node.width_of_core his.2, hbits hi]
      · rw [if_neg (hphi hisPhi)]
        rfl
      · rfl
    · cases (hw.nodes _ his.1).shape with
      | phi hi his' =>
        obtain ⟨hi, hisPhi⟩ := Func.mem_blockInsts_of_phi hi
        obtain rfl := Option.some.inj (his'.source.symm.trans hsource)
        rw [Node.width_of_core his'.2, hbits hi, if_neg (hphi hisPhi)]
        rfl
      | _ => exact absurd (his.op.symm.trans (Is.op (by assumption))) NodeOp.noConfusion

/-- The children of an instruction that is no call and no jump. -/
theorem HasKids.places {op : Operation Value BlockId} {kids : List NodeId} (h : w.HasKids f k op kids)
    (hcall : op.opcode ≠ .call) (hbr : op.opcode ≠ .br) :
    List.Forall₂ (fun p j ↦ w.Denotes f p j ∧ j < k) op.places kids := by
  cases h with
  | call => exact absurd rfl hcall
  | br => exact absurd rfl hbr
  | other _ _ hkids hold => exact (forall₂_mem hkids).imp fun _ _ h ↦ ⟨h.2.2, hold _ h.2.1⟩

end Workspace

/-! ## Evaluation along the roots -/

/-- Where the evaluation of block `b` from `st` to `st'` is when the roots `done` have been visited and
`rest` are left: the instructions `pre` have been evaluated, up to `now`. -/
structure Stage (f : Func) (w : Workspace) (σ : World) (b : BlockId) (st st' : BlockState)
    (done rest : List NodeId) (pre post : List (InstId × ResolvedInst)) (now : BlockState) : Prop where
  insts : f.blockInsts b = pre ++ post
  made : List.Forall₂ (fun r x ↦ w.Results x.1 r)
    (done.filter fun r ↦ (w.forest.node r).opcode?.isSome) pre
  left : List.Forall₂ (fun r x ↦ w.Results x.1 r)
    (rest.filter fun r ↦ (w.forest.node r).opcode?.isSome) post
  before : f.evalInsts .machine σ pre st = some now
  after : f.evalInsts .machine σ post now = some st'

/-- A block that is evaluated is at a stage wherever selection is. -/
theorem TreesOf.exists_stage (h : TreesOf f b w (done ++ rest))
    (heval : f.evalInsts .machine σ (f.blockInsts b) st = some st') :
    ∃ pre post now, Stage f w σ b st st' done rest pre post now := by
  have hresults := h.results
  rw [List.filter_append] at hresults
  obtain ⟨pre, post, hinsts, hpre, hpost⟩ := exists_append_of_forall₂ hresults
  rw [hinsts, Func.evalInsts_append] at heval
  obtain ⟨now, hbefore, hafter⟩ := Option.bind_eq_some_iff.mp heval
  exact ⟨pre, post, now, hinsts, hpre, hpost, hbefore, hafter⟩

namespace Stage

variable {now : BlockState}

/-- The instruction of a root. -/
theorem step (h : Stage f w σ b st st' done (r :: rest) pre post now)
    (hop : ∃ o, (w.forest.node r).op = .inst o) :
    ∃ x post' next, post = x :: post' ∧ w.Results x.1 r ∧ x ∈ f.blockInsts b ∧
      f.evalInst .machine σ now x = some next ∧
      Stage f w σ b st st' (done ++ [r]) rest (pre ++ [x]) post' next := by
  obtain ⟨o, ho⟩ := hop
  have hsome : (w.forest.node r).opcode?.isSome = true := by rw [Node.opcode?, ho]; rfl
  have hleft := h.left
  rw [List.filter_cons, if_pos hsome] at hleft
  obtain ⟨x, post', hx, hpost, rfl⟩ := List.forall₂_cons_left_iff.mp hleft
  obtain ⟨next, hnext, hafter⟩ := Option.bind_eq_some_iff.mp h.after
  refine ⟨x, post', next, rfl, hx, h.insts ▸ by simp, hnext, by simpa using h.insts, ?_, hpost, ?_, hafter⟩
  · rw [List.filter_append, List.filter_singleton, hsome]
    exact List.rel_append h.made (.cons hx .nil)
  · rw [Func.evalInsts_append, h.before, Option.bind_some, Func.evalInsts_cons, hnext]
    rfl

/-- A copy into a phi stands for no instruction. -/
theorem copy (h : Stage f w σ b st st' done (r :: rest) pre post now)
    (hop : (w.forest.node r).op = .phiMove) :
    Stage f w σ b st st' (done ++ [r]) rest pre post now := by
  have hnone : (w.forest.node r).opcode?.isSome = false := by
    rw [Node.opcode?, hop]
    rfl
  refine ⟨h.insts, ?_, ?_, h.before, h.after⟩
  · rw [List.filter_append, List.filter_singleton, hnone]
    exact (List.append_nil _).symm ▸ h.made
  · have hleft := h.left
    rwa [List.filter_cons, hnone, if_neg Bool.false_ne_true] at hleft

section

variable (h : Stage f w σ b st st' done rest pre post now)
include h

/-- An earlier stage. -/
theorem back (hdone : done = roots ++ mid) : ∃ pre' mid' before,
    Stage f w σ b st st' roots (mid ++ rest) pre' (mid' ++ post) before ∧
      List.Forall₂ (fun r x ↦ w.Results x.1 r)
        (mid.filter fun r ↦ (w.forest.node r).opcode?.isSome) mid' ∧
      (∀ x ∈ mid', x ∈ f.blockInsts b) ∧ f.evalInsts .machine σ mid' before = some now := by
  subst hdone
  have hmade := h.made
  rw [List.filter_append] at hmade
  obtain ⟨pre', mid', rfl, hpre, hmid⟩ := exists_append_of_forall₂ hmade
  have hbefore := h.before
  rw [Func.evalInsts_append] at hbefore
  obtain ⟨before, hbefore, hnow⟩ := Option.bind_eq_some_iff.mp hbefore
  refine ⟨pre', mid', before, ⟨by simpa using h.insts, hpre, ?_, hbefore, ?_⟩, hmid, ?_, hnow⟩
  · rw [List.filter_append]
    exact List.rel_append hmid h.left
  · rw [Func.evalInsts_append, hnow]
    exact h.after
  · intro x hx
    rw [h.insts]
    simp [hx]

/-- What is evaluated later than an instruction comes after it. -/
theorem lt_of_mem {x : InstId × ResolvedInst} (hx : (id, i) ∈ pre) (hpost : x ∈ post) : id < x.1 :=
  (List.pairwise_append.mp (h.insts ▸ f.blockInsts_sorted b)).2.2 _ hx x hpost

/-- What has been evaluated keeps its value. -/
theorem values_eq (hi : (id, i) ∈ pre) : st'.values id = now.values id :=
  Func.values_evalInsts h.after fun _ hx heq ↦ absurd heq (Nat.ne_of_lt (h.lt_of_mem hi hx))

end

end Stage

/-! ## Values along the roots -/

/-- The node of an instruction of a block is a root of the block. -/
theorem Planted.mem_roots (hp : Planted f trees w) (hb : trees[b]? = some roots) (hk : w.Results id k)
    (hi : (id, i) ∈ f.blockInsts b) : k ∈ roots := by
  obtain ⟨hlt, ⟨o, ho⟩, hsource⟩ := hk
  obtain ⟨b', id', i', hi', ⟨-, _, his, -⟩ | ⟨-, _, his, -⟩⟩ := (hp.building.nodes k hlt).shape.of_inst ho
  all_goals
    obtain rfl : id' = id := Option.some.inj (his.source.symm.trans hsource)
    obtain ⟨rfl, -⟩ := Func.blockInsts_unique hi hi'
    have hmem := hp.mem_block_iff.mp ⟨hp.mem_flatten ho, Node.block_of_core his.2⟩
    rwa [hb] at hmem

/-- The node of an instruction has the instruction and its operands. -/
theorem Planted.of_results (hp : Planted f trees w) (hk : w.Results id k) (hi : (id, i) ∈ f.blockInsts b)
    (hphi : i.opcode ≠ .phi) :
    ∃ kids, w.Is k (.ofInst b id i kids) ∧ w.HasKids f k i.operation kids := by
  have hop := hp.building.op_of_results hk hi
  obtain ⟨b', id', i', hi', ⟨-, _, his, -⟩ | ⟨-, kids, his, hkids⟩⟩ :=
    (hp.building.nodes k hk.1).shape.of_inst hop
  · exact absurd (NodeOp.inst.inj (hop.symm.trans his.op)) hphi
  · obtain rfl : id' = id := Option.some.inj (his.source.symm.trans hk.2.2)
    obtain ⟨rfl, rfl⟩ := Func.blockInsts_unique hi hi'
    exact ⟨kids, his, hkids⟩

section

variable {now : BlockState} (hp : Planted f trees w) (hb : trees[b]? = some (done ++ k :: rest))
  (h : Stage f w σ b st st' done (k :: rest) pre post now)
include hp hb h

/-- The operands of a root have the values that they have in the end. -/
theorem Stage.operand_eq (hdenotes : w.Denotes f (.operand o) j) (hlt : j < k) :
    A.operand σ st' o = A.operand σ now o := by
  refine Arithmetic.operand_congr fun id ho ↦ Func.values_evalInsts h.after fun x hx heq ↦ ?_
  subst ho
  have hxb : x ∈ f.blockInsts b := h.insts ▸ List.mem_append_right _ hx
  cases hdenotes with
  | inst hj =>
    -- it would be a root after its reader
    exfalso
    have hjroots := hp.mem_roots hb hj (heq ▸ hxb : (id, x.2) ∈ f.blockInsts b)
    have hsorted := List.pairwise_append.mp (hp.block b _ hb).sorted
    rcases List.mem_append.mp hjroots with hdone | hrest
    · obtain ⟨-, ⟨o, hop⟩, hsource⟩ := hj
      obtain ⟨y, hy, hjy⟩ := exists_of_forall₂ h.made.flip
        (List.mem_filter.mpr ⟨hdone, by rw [Node.opcode?, hop]; rfl⟩)
      have hid : y.1 = id := Option.some.inj (hjy.2.2.symm.trans hsource)
      exact absurd (hid.trans heq) (Nat.ne_of_lt (h.lt_of_mem hy hx))
    · rcases List.mem_cons.mp hrest with rfl | hrest
      · exact Nat.lt_irrefl _ hlt
      · exact Nat.lt_asymm hlt ((List.pairwise_cons.mp hsorted.2.1).1 j hrest)

/-- The value of a root is the one that its instruction was given. -/
theorem Stage.value? (hrooms : w.Roomy σ st'.values) {opcode : Opcode}
    (hop : (w.forest.node k).op = .inst opcode) (hmem : opcode = .load → mem = now.mem) :
    w.forest.value? σ mem (w.forest.worth σ st'.values) k = some (w.forest.worth σ st'.values k) := by
  obtain ⟨x, post', next, rfl, hk, hx, hnext, hlater⟩ := h.step ⟨_, hop⟩
  have hvalue : st'.values x.1 = next.values x.1 := hlater.values_eq (i := x.2) (by simp)
  have hworth : opcode ≠ .alloca → w.forest.worth σ st'.values k = next.values x.1 := fun hne ↦ by
    rw [Forest.worth, hop, hk.2.2, ← hvalue]
    cases opcode with
    | alloca => exact absurd rfl hne
    | _ => rfl
  obtain rfl : x.2.opcode = opcode :=
    NodeOp.inst.inj ((hp.building.op_of_results hk hx).symm.trans hop)
  by_cases hphi : x.2.opcode = .phi
  · rw [Forest.value?, hop, hphi]
  obtain ⟨kids, his, hkids⟩ := hp.of_results hk hx hphi
  have hkid : ∀ {o j}, w.Denotes f (.operand o) j → j < k → w.forest.worth σ st'.values (w.forest.owner j) =
      Arithmetic.machine.operand σ now o := fun hdenotes hlt ↦
    (hdenotes.worth hp.building hrooms).trans (h.operand_eq hp hb hdenotes hlt)
  have hkidOwners : w.forest.kidOwners k = kids.map w.forest.owner :=
    congrArg (List.map _) (Node.kids_of_core his.2)
  have hwidth := Node.width_of_core his.2
  have hpredicate : (w.forest.node k).predicate = x.2.operation.predicate? := congrArg Node.predicate his.2
  rw [Inst.opcode] at hop hmem hworth
  rw [Func.evalInst] at hnext
  cases hoperation : x.2.operation with
  | binary op a c =>
    rw [hoperation] at hop hworth hnext hkids
    obtain ⟨p, q, ⟨hp', hpk⟩, ⟨hq, hqk⟩, rfl⟩ := exists_of_forall₂_two
      (hkids.places Opcode.noConfusion Opcode.noConfusion)
    obtain ⟨v, hv, rfl⟩ := Option.map_eq_some_iff.mp hnext
    rw [hworth Opcode.noConfusion, BlockState.values_define_self]
    simp only [Forest.value?, hop, Operation.opcode, hkidOwners, List.map, hkid hp' hpk, hkid hq hqk]
    exact hv
  | cast op a =>
    rw [hoperation] at hop hworth hnext hkids
    obtain ⟨p, ⟨hp', hpk⟩, rfl⟩ := exists_of_forall₂_one
      (hkids.places Opcode.noConfusion Opcode.noConfusion)
    obtain rfl := Option.some.inj hnext
    rw [hworth Opcode.noConfusion, BlockState.values_define_self]
    simp only [Forest.value?, hop, Operation.opcode, hkidOwners, List.map, hkid hp' hpk,
      hp'.width hp.building, hwidth, Node.ofInst, Inst.opcode, hoperation, reduceCtorEq, if_false]
  | icmp p a c =>
    rw [hoperation] at hop hworth hnext hkids hpredicate
    obtain ⟨p, q, ⟨hp', hpk⟩, ⟨hq, hqk⟩, rfl⟩ := exists_of_forall₂_two
      (hkids.places Opcode.noConfusion Opcode.noConfusion)
    obtain rfl := Option.some.inj hnext
    rw [hworth Opcode.noConfusion, BlockState.values_define_self]
    simp only [Forest.value?, hop, Operation.opcode, hkidOwners, List.map, hkid hp' hpk, hkid hq hqk,
      hpredicate]
    rfl
  | alloca =>
    rw [hoperation] at hop
    simp only [Forest.value?, hop, Operation.opcode, hk.2.2]
    rw [Forest.worth, hop, hk.2.2]
    rfl
  | load a =>
    rw [hoperation] at hop hworth hnext hkids hmem
    obtain ⟨p, ⟨hp', hpk⟩, rfl⟩ := exists_of_forall₂_one
      (hkids.places Opcode.noConfusion Opcode.noConfusion)
    obtain rfl := Option.some.inj hnext
    rw [hworth Opcode.noConfusion, BlockState.values_define_self, hmem rfl]
    simp only [Forest.value?, hop, Operation.opcode, hkidOwners, List.map, hkid hp' hpk, hwidth, Node.ofInst,
      Inst.opcode, hoperation, reduceCtorEq, if_false]
  | _ =>
    rw [hoperation] at hop
    simp only [Forest.value?, hop, Operation.opcode]

end

/-- A node without children, or one for no instruction, has its value by itself. -/
theorem Planted.value?_of_leaf (hp : Planted f trees w)
    (hleaf : (w.forest.node k).kids = [] ∨ ∀ o, (w.forest.node k).op ≠ .inst o) :
    w.forest.value? σ mem (w.forest.worth σ values) k = some (w.forest.worth σ values k) := by
  cases hop : (w.forest.node k).op with
  | imm =>
    obtain ⟨c, hc⟩ : ∃ c, (w.forest.node k).constant = some c := by
      rcases hp.shape_or_pad k with hshape | hpad
      · cases hshape with
        | constant his => exact ⟨_, Node.constant_of_core his.2⟩
        | _ => exact absurd (hop.symm.trans (Workspace.Is.op (by assumption))) NodeOp.noConfusion
      · exact absurd (hop.symm.trans hpad) NodeOp.noConfusion
    simp only [Forest.value?, hop, Forest.worth, hc]
    rfl
  | inst o =>
    have hnil : w.forest.kidOwners k = [] :=
      congrArg (List.map _) (hleaf.resolve_right fun hnot ↦ hnot o hop)
    cases o with
    | alloca =>
      obtain ⟨_, id, _, _, -, -, his⟩ := hp.of_inst hop Opcode.noConfusion
      simp only [Forest.value?, hop, Forest.worth, his.source]
      rfl
    | _ => simp only [Forest.value?, hop, hnil]
  | arg => simp only [Forest.value?, hop, Forest.worth]
  | _ => simp only [Forest.value?, hop]

/-- Every cast widens what it can, or nothing. -/
def Ir.Func.CastsExtend (f : Func) : Prop :=
  ∀ b, ∀ x ∈ f.blockInsts b, ∀ op a, x.2.operation = .cast op a → op ≠ .trunc →
    64 ≤ f.bitsOf a ∨ extends? (op = .sext) (f.bitsOf a) = true

theorem Planted.casts (hp : Planted f trees w) (hcasts : f.CastsExtend) (k : NodeId) :
    w.forest.Casts k := by
  intro op p hop hne hkid
  obtain ⟨b, id, i, hi, ⟨hphi, _, his, -⟩ | ⟨-, kids, his, hkids⟩⟩ :=
    (hp.building.nodes k (Forest.lt_size_of_op hop NodeOp.noConfusion)).shape.of_inst hop
  · exact absurd (his.op.symm.trans hop) (by rintro ⟨⟩)
  have hopcode : i.operation.opcode = .cast op := NodeOp.inst.inj (his.op.symm.trans hop)
  cases hoperation : i.operation with
  | cast op' a =>
    rw [hoperation] at hopcode hkids
    obtain rfl := Opcode.cast.inj hopcode
    obtain ⟨q, ⟨hq, -⟩, rfl⟩ := exists_of_forall₂_one
      (hkids.places Opcode.noConfusion Opcode.noConfusion)
    obtain rfl : w.forest.owner q = p := by
      have hkidOwners : w.forest.kidOwners k = [w.forest.owner q] :=
        congrArg (List.map _) (Node.kids_of_core his.2)
      exact List.singleton_inj.mp (hkidOwners.symm.trans hkid)
    rw [hq.width hp.building]
    exact hcasts b (id, i) hi op' a hoperation hne
  | _ =>
    rw [hoperation] at hopcode
    exact absurd hopcode Opcode.noConfusion

/-! ## Values beneath a root -/

section

variable {text : String} {fs : List Func} {s : Session} {t t' u u' : Workspace} {goal : Nonterminal}
  {bound : Bound} {as : List Application} {now : BlockState}
  (hparse : parse text = .ok fs) (hf : f ∈ fs) (hbuild : buildForest f (.start f s) = .ok trees w)
  (hvoid : ∀ {p q}, q ∈ w.forest.kidOwners p → ¬ w.forest.IsVoidCall q) (hcomes : Comes trees w r t)
  (hb : trees[b]? = some (done ++ r :: rest))
  (h : Stage f w σ b st st' done (r :: rest) pre post now) (hrooms : w.Roomy σ st'.values)
include hparse hf hbuild hvoid hcomes hb h hrooms

/-- What is pending below a root has the value that it says, in the memory that the root finds. -/
theorem Stage.value?_of_hangsBelow (howner : w.forest.owner r = r) (hbelow : t.forest.HangsBelow r k) :
    w.forest.value? σ now.mem (w.forest.worth σ st'.values) k =
      some (w.forest.worth σ st'.values k) := by
  obtain ⟨hp, -⟩ := buildForest_planted hbuild
  by_cases hinst : ∃ o, (w.forest.node k).op = .inst o
  · obtain ⟨o, hop⟩ := hinst
    by_cases hkids : (w.forest.node k).kids = []
    · exact hp.value?_of_leaf (Or.inl hkids)
    obtain ⟨-, hhome, hwait⟩ := home_of_hangsBelow hparse hf hbuild hvoid hcomes howner hbelow hkids
    rcases hwait ⟨o, hop⟩ with rfl | ⟨hlt, -⟩
    · exact h.value? hp hb hrooms hop fun _ ↦ rfl
    have htrees := hp.block b _ hb
    have hsorted := List.pairwise_append.mp htrees.sorted
    have hblock : (w.forest.node k).block = some b :=
      (hhome k (Or.inl rfl) (by rw [hop]; exact NodeOp.noConfusion)).trans (htrees.block r (by simp))
    have hdone : k ∈ done := by
      have hmem := hp.mem_block_iff.mp ⟨hp.mem_flatten hop, hblock⟩
      rw [hb] at hmem
      refine (List.mem_append.mp hmem).resolve_right fun hmem ↦ ?_
      rcases List.mem_cons.mp hmem with rfl | hmem
      · exact Nat.lt_irrefl _ hlt
      · exact Nat.lt_asymm hlt ((List.pairwise_cons.mp hsorted.2.1).1 k hmem)
    obtain ⟨d, mid, rfl⟩ := List.append_of_mem hdone
    obtain ⟨pre', mid', before, hstage, hmid, hinsts, hnow⟩ := h.back rfl
    refine hstage.value? hp (by simpa using hb) hrooms hop fun hload ↦
      (Func.mem_evalInsts hnow fun x hx ↦ Bool.eq_false_iff.mpr fun hwrites ↦ ?_).1
    -- what writes memory between the load and the root comes before the load
    obtain ⟨e, he, hresults⟩ := exists_of_forall₂ hmid hx
    replace he := (List.mem_filter.mp he).1
    have hmem : e ∈ d ++ k :: mid := List.mem_append_right _ he
    have heffect : (w.forest.node e).hasSideEffect = true := by
      rw [Node.hasSideEffect, Node.opcode?, hp.building.op_of_results hresults (hinsts x hx)]
      exact hwrites
    have hlt : e < k :=
      (inTime_of_hangsBelow hparse hf hbuild hvoid hcomes howner hbelow (hop.trans (hload ▸ rfl))).lt
        (hop.trans (hload ▸ rfl)) heffect hblock (htrees.block e (List.mem_append_left _ hmem))
        (hsorted.2.2 e hmem r List.mem_cons_self)
    rcases List.mem_cons.mp he with rfl | he
    · exact Nat.lt_irrefl _ hlt
    · exact Nat.lt_asymm hlt ((List.pairwise_cons.mp (List.pairwise_append.mp hsorted.1).2.1).1 e he)
  · exact hp.value?_of_leaf (Or.inr fun o hop ↦ hinst ⟨o, hop⟩)

/-- What a visit goes by means what it says. -/
theorem Stage.means (hcasts : f.CastsExtend) (he : Traced w t r as t' goal u bound u')
    (hbeneath : u.forest.Beneath r k) :
    u.forest.Means σ now.mem (w.forest.worth σ st'.values) k ∧ u.forest.Casts k := by
  obtain ⟨hp, -⟩ := buildForest_planted hbuild
  refine ⟨fun hnew ↦ ?_, fun op p hop hne hkid ↦ ?_⟩
  · rw [he.skeleton.value?]
    exact h.value?_of_hangsBelow hparse hf hbuild hvoid hcomes hb hrooms (he.owner hbuild hcomes)
      (he.hangsBelow hbeneath hnew)
  · rw [he.skeleton.width]
    exact hp.casts hcasts k op p ((he.skeleton.op k).symm.trans hop) hne
      ((he.skeleton.kidOwners k).symm.trans hkid)

end

/-! ## Values from before -/

/-- An instruction that is evaluated to a value has children, unless it is an alloca. -/
theorem Workspace.HasKids.ne_nil_of_isEvaluated {op : Operation Value BlockId} {kids : List NodeId}
    (h : w.HasKids f k op kids) (heval : op.opcode.isEvaluated = true) (halloca : op.opcode ≠ .alloca) :
    kids ≠ [] := by
  cases h with
  | call | br => exact List.cons_ne_nil _ _
  | other hcall _ hkids =>
    rintro rfl
    cases op with
    | binary | cast | icmp | load => cases hkids
    | alloca => exact halloca rfl
    | call => exact hcall rfl
    | _ => exact Bool.noConfusion heval

/-- A node whose instruction is not evaluated in a block keeps its value. -/
theorem Planted.worth_eq (hp : Planted f trees w)
    (heval : f.evalInsts .machine σ (f.blockInsts b) st = some st')
    (hother : ∀ id i kids, (id, i) ∈ f.blockInsts b → w.Is k (.ofInst b id i kids) →
      w.HasKids f k i.operation kids → i.opcode.isEvaluated = true → i.opcode = .alloca) :
    w.forest.worth σ st'.values k = w.forest.worth σ st.values k := by
  have hkept : ∀ id, (∀ i, (id, i) ∈ f.blockInsts b → i.opcode.isEvaluated = false) →
      st'.values id = st.values id := fun id hnot ↦ Func.values_evalInsts heval fun x hx hid ↦
    hnot x.2 (hid ▸ hx)
  have hphi : ∀ {b' id i}, (id, i) ∈ f.blockInsts b' → i.operation.isPhi = true →
      st'.values id = st.values id := fun {b' id i} hi hphi ↦ hkept id fun i' hi' ↦ by
    obtain ⟨-, rfl⟩ := Func.blockInsts_unique hi hi'
    rw [Inst.opcode, Operation.isPhi_iff.mp hphi]
    rfl
  by_cases hk : k < w.forest.size
  · cases (hp.building.nodes k hk).shape with
    | argument _ his | constant his | label his | pad his | args his => rw [his.worth, his.worth]; rfl
    | phi hi his =>
      obtain ⟨hi, hisPhi⟩ := Func.mem_blockInsts_of_phi hi
      rw [his.worth, his.worth]
      exact hphi hi hisPhi
    | phiUse hi hisPhi his =>
      rw [his.worth, his.worth]
      exact hphi hi hisPhi
    | phiMove hi _ _ his =>
      obtain ⟨hi, hisPhi⟩ := Func.mem_blockInsts_of_phi hi
      rw [his.worth, his.worth]
      exact hphi hi hisPhi
    | @inst b' id i kids hi _ his hkids =>
      rw [his.worth, his.worth]
      by_cases hop : i.opcode = .alloca
      · simp only [Node.ofInst, hop]
      · have hvalue : st'.values id = st.values id := hkept id fun i' hi' ↦ by
          obtain ⟨rfl, rfl⟩ := Func.blockInsts_unique hi hi'
          exact Bool.eq_false_iff.mpr fun hev ↦ hop (hother id i kids hi his hkids hev)
        cases hopcode : i.opcode with
        | alloca => exact absurd hopcode hop
        | _ =>
          simp only [Node.ofInst, hopcode]
          exact hvalue
  · rw [Forest.worth, Forest.worth, Forest.node_of_le _ (Nat.le_of_not_lt hk)]
    rfl

/-- In the end allocas have their rooms, if those of other blocks had them before. -/
theorem Planted.roomy (hp : Planted f trees w) (hb : trees[b]? = some roots)
    (heval : f.evalInsts .machine σ (f.blockInsts b) st = some st')
    (hothers : ∀ b' id i, b' ≠ b → (id, i) ∈ f.blockInsts b' → i.opcode = .alloca →
      st.values id = σ.slots id) : w.Roomy σ st'.values := by
  intro id k hk hop
  obtain ⟨b', id', i, kids, hi, hopcode, his⟩ := hp.of_inst hop Opcode.noConfusion
  obtain rfl : id' = id := Option.some.inj (his.source.symm.trans hk.2.2)
  by_cases hbb : b' = b
  · subst hbb
    obtain ⟨done, rest, rfl⟩ := List.append_of_mem (hp.mem_roots hb hk hi)
    obtain ⟨pre, post, now, hstage⟩ := (hp.block b' _ hb).exists_stage heval
    obtain ⟨x, _, next, rfl, hx, hxb, hnext, hlater⟩ := hstage.step ⟨_, hop⟩
    obtain rfl : x.1 = id' := Option.some.inj (hx.2.2.symm.trans hk.2.2)
    obtain ⟨-, rfl⟩ := Func.blockInsts_unique hi hxb
    rw [hlater.values_eq (i := x.2) (by simp)]
    cases hoperation : x.2.operation with
    | alloca =>
      rw [Func.evalInst, hoperation] at hnext
      obtain rfl := Option.some.inj hnext
      exact BlockState.values_define_self
    | _ =>
      rw [Inst.opcode, hoperation] at hopcode
      exact absurd hopcode Opcode.noConfusion
  · have hkept : st'.values id' = st.values id' := Func.values_evalInsts heval fun x hx hid ↦
      absurd (Func.blockInsts_unique hi (show (id', x.2) ∈ f.blockInsts b from hid ▸ hx)).1 hbb
    exact hkept.trans (hothers b' id' i hbb hi hopcode)

theorem Work.Comes.of_take {r : NodeId} {t : Workspace} (h : Comes (trees.take b) w r t) :
    Comes trees w r t := by
  obtain ⟨blocks, done, later, rest, v, heq, hblocks, hdone⟩ := h
  refine ⟨blocks, done, later, rest ++ trees.drop b, v, ?_, hblocks, hdone⟩
  conv_lhs => rw [← List.take_append_drop b trees, heq]
  simp

/-- What is computed when selection turns to a block is not evaluated there. -/
theorem worth_of_computed {s : Session} {v : Workspace} {z : Unit}
    (hbuild : buildForest f (.start f s) = .ok trees w) (hb : trees[b]? = some roots)
    (hselect : selectAll (trees.take b) w = .ok z v)
    (heval : f.evalInsts .machine σ (f.blockInsts b) st = some st')
    (hk : (v.forest.node k).computed = true) :
    w.forest.worth σ st'.values k = w.forest.worth σ st.values k := by
  obtain ⟨hp, -⟩ := buildForest_planted hbuild
  refine hp.worth_eq heval fun id i kids hi his hkids hev ↦ ?_
  by_contra halloca
  obtain ⟨_, as, hchronicle⟩ :=
    hp.chronicle (buildForest_recorded hbuild) (fun _ _ ↦ Comes.of_take) hselect
  rcases hchronicle.history.computes k hk with hold | ⟨-, hmade⟩
  · rw [hp.computed (by rw [his.op]; exact NodeOp.noConfusion)] at hold
    exact Bool.false_ne_true hold
  -- it was reduced in the tree of a root of an earlier block
  obtain ⟨a, ha, rfl, -⟩ := timesMade_pos.mp hmade
  obtain ⟨r, t, hcomes, hmakes⟩ := (hchronicle.mem a).mpr ha
  have hr : r ∈ (trees.take b).flatten := hcomes.mem_flatten
  have hsorted := hp.sorted
  rw [← List.take_append_drop b trees, List.flatten_append, List.pairwise_append] at hsorted
  have hlater : a.node ∈ (trees.drop b).flatten := List.mem_flatten.mpr ⟨roots,
    List.mem_of_getElem? (i := 0) (by simpa using hb),
    hp.mem_roots hb (his.results rfl rfl) hi⟩
  rcases (hcomes.of_take.under hbuild hmakes).below with hle | ⟨-, hargs⟩ | hnil
  · exact absurd (hsorted.2.2 r hr _ hlater) (Nat.not_lt.mpr hle)
  · exact absurd (hargs.symm.trans his.op) NodeOp.noConfusion
  · exact hkids.ne_nil_of_isEvaluated hev halloca ((Node.kids_of_core his.2).symm.trans hnil)

end TreeCover
