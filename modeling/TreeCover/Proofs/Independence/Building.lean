import TreeCover.Proofs.Independence.Follows
import TreeCover.Proofs.Independence.Forests

/-!
# Building with shifted labels

Two workspaces belong together if one is the other with all labels shifted by `k`, the labels still
to be drawn included. The sessions need not have counted or reported the same before, since nothing
that is built depends on that. Every step of building a forest leads from workspaces that belong
together to workspaces that belong together.
-/

namespace TreeCover

open Ir Machine

variable {config : Config} {k : Nat}

/-! ## Workspaces -/

/-- The session `t` hands out the labels of `s`, shifted by `k`. -/
structure Session.Shifted (config : Config) (k : Nat) (s t : Session) : Prop where
  left : s.config = config
  right : t.config = config
  nextLabel : t.nextLabel = s.nextLabel + k

namespace Session.Shifted

variable {s t s' t' : Session}

theorem config_eq (h : Shifted config k s t) : t.config = s.config := h.right.trans h.left.symm

/-- Sessions may count and report what they like. -/
theorem of_same (h : Shifted config k s t) (hs : s'.config = s.config ∧ s'.nextLabel = s.nextLabel)
    (ht : t'.config = t.config ∧ t'.nextLabel = t.nextLabel) : Shifted config k s' t' :=
  ⟨hs.1.trans h.left, ht.1.trans h.right, by rw [ht.2, h.nextLabel, hs.2]⟩

theorem same_reportAll (s : Session) (es : List Event) :
    (s.reportAll es).config = s.config ∧ (s.reportAll es).nextLabel = s.nextLabel :=
  List.foldlRecOn (motive := fun t : Session ↦ t.config = s.config ∧ t.nextLabel = s.nextLabel) es
    Session.report ⟨rfl, rfl⟩ fun _ h _ _ ↦ h

end Session.Shifted

/-- The workspace `u` is `w` with its labels shifted by `k`. -/
structure Workspace.Shifted (config : Config) (k : Nat) (w u : Workspace) : Prop where
  code : u.code = w.code.shift k
  session : w.session.Shifted config k u.session
  forest : u.forest = w.forest.shift k
  defs : u.defs = w.defs
  labels : u.labels = w.labels
  materialized : u.materialized = w.materialized

namespace Work

/-- On a workspace with shifted labels, `y` does what `x` does without the shift. -/
abbrev Follows {α : Type} (config : Config) (k : Nat) (g : α → α) (x y : Work α) : Prop :=
  TreeCover.Follows (Workspace.Shifted config k) (CompileError.shift k) g x y

/-- On a workspace with shifted labels, `y` does the same as `x` without the shift. -/
abbrev Alike {α : Type} (config : Config) (k : Nat) (x y : Work α) : Prop := Follows config k id x y

/-! ## Steps -/

theorem alike_report (e e' : Event) : Alike config k (report e) (report e') :=
  .modify fun _ _ h ↦ { h with session := h.session.of_same ⟨rfl, rfl⟩ ⟨rfl, rfl⟩ }

theorem alike_modifySession {p q : Session → Session}
    (hp : ∀ s, (p s).config = s.config ∧ (p s).nextLabel = s.nextLabel)
    (hq : ∀ s, (q s).config = s.config ∧ (q s).nextLabel = s.nextLabel) :
    Alike config k (modifySession p) (modifySession q) :=
  .modify fun _ _ h ↦ { h with session := h.session.of_same (hp _) (hq _) }

theorem alike_modifyForest {p q : Forest → Forest} (h : ∀ f, q (f.shift k) = (p f).shift k) :
    Alike config k (modifyForest p) (modifyForest q) :=
  .modify fun w _ hwu ↦ { hwu with forest := (congrArg q hwu.forest).trans (h w.forest) }

theorem alike_modifyCode {p q : Code → Code} (h : ∀ c, q (c.shift k) = (p c).shift k) :
    Alike config k (modifyCode p) (modifyCode q) :=
  .modify fun w _ hwu ↦ { hwu with code := (congrArg q hwu.code).trans (h w.code) }

theorem alike_modifyDefs (p : Definitions → Definitions) :
    Alike config k (modifyDefs p) (modifyDefs p) :=
  .modify fun _ _ h ↦ { h with defs := congrArg p h.defs }

theorem follows_node (id : NodeId) : Follows config k (Node.shift k) (node id) (node id) := by
  refine .get_bind fun w u h ↦ .pure ?_
  rw [h.forest, Forest.node_shift]

theorem alike_push (n : Node) : Alike config k (push n) (push (n.shift k)) := by
  refine .modifyGet (fun w u h ↦ ?_) fun w u h ↦ { h with forest := ?_ }
  · simp only [h.forest, Forest.push_shift, id]
  · simp only [h.forest, Forest.push_shift]

/-- A node without a label is pushed as it is. -/
theorem alike_push_same {n : Node} (h : n.shift k = n) : Alike config k (push n) (push n) := by
  have hpush : Alike config k (push n) (push (n.shift k)) := alike_push n
  rwa [h] at hpush

theorem alike_freshVReg : Alike config k freshVReg freshVReg := by
  refine .modifyGet (fun w u h ↦ ?_) fun w u h ↦ { h with code := ?_ }
  · simp only [h.code, Code.freshVReg, Code.shift, id]
  · simp only [h.code, Code.freshVReg, Code.shift]

theorem follows_freshLabel : Follows config k (· + k) freshLabel freshLabel := by
  refine .modifyGet (fun w u h ↦ h.session.nextLabel) fun w u h ↦ { h with session := ?_ }
  refine ⟨h.session.left, h.session.right, ?_⟩
  rw [Session.freshLabel, Session.freshLabel, h.session.nextLabel]
  exact Nat.add_right_comm _ _ _

theorem alike_defineValue (v : Value) (id : NodeId) :
    Alike config k (defineValue v id) (defineValue v id) := alike_modifyDefs _

theorem alike_labelOf (b : BlockId) : Alike config k (labelOf b) (labelOf b) := by
  refine .get_bind fun w u h ↦ ?_
  rw [h.defs]
  cases w.defs.labels.lookup b with
  | some id => exact .pure rfl
  | none =>
    refine .bind follows_freshLabel fun label ↦ ?_
    refine .bind (alike_push { op := .label, width := 0, slot := .label label }) fun id ↦ ?_
    exact .bind (alike_modifyDefs _) fun _ ↦ .pure rfl

/-! ## Nodes made in advance -/

theorem alike_defineArguments (f : Func) :
    Alike config k (defineArguments f) (defineArguments f) := by
  refine .forM_same _ fun (p, idx) ↦ ?_
  exact .bind (alike_push_same rfl) fun n ↦ alike_defineValue (.arg idx) n

theorem alike_declarePhis (f : Func) : Alike config k (declarePhis f) (declarePhis f) := by
  refine .forM_same _ fun b ↦ .forM_same _ fun (phi, inst) ↦ ?_
  refine .bind alike_freshVReg fun v ↦ ?_
  refine .bind (alike_modifyCode fun c ↦ c.declarePhi_shift b v) fun _ ↦ ?_
  exact .bind (alike_push_same rfl) fun n ↦ alike_modifyDefs _

theorem alike_createLabels (f : Func) : Alike config k (createLabels f) (createLabels f) :=
  .forM_same _ fun _ ↦ .forM_same _ fun b ↦ .discard (alike_labelOf b)

/-! ## Operands -/

theorem alike_constantLeaf (c : Constant) (width : Nat) :
    Alike config k (constantLeaf c width) (constantLeaf c width) := by
  refine .bind (alike_push_same rfl) fun n ↦ ?_
  exact .bind (alike_modifyForest fun f ↦ f.takeRef_shift n) fun _ ↦ .pure rfl

/-- Narrowing a literal fails for its width only. -/
theorem shift_of_castInt {n : Int} {bits : Nat} {e : CompileError} (h : castInt n bits = .error e) :
    e.shift k = e := by
  unfold castInt at h
  split at h
  · exact Except.error.inj h ▸ rfl
  · split at h <;> exact Except.noConfusion rfl rfl (heq_of_eq h)

theorem alike_operand (id : InstId) (i : ResolvedInst) (idx : Nat) (o : Ir.Operand Value) :
    Alike config k (operand id i idx o) (operand id i idx o) := by
  cases o with
  | int n bits =>
    rw [operand]
    cases hc : castInt n bits with
    | ok c => exact alike_constantLeaf c bits
    | error e => exact .throw (shift_of_castInt hc).symm
  | float x =>
    rw [operand]
    split
    · split
      · exact alike_constantLeaf _ _
      · exact .throw rfl
    · exact alike_constantLeaf _ _
  | value v =>
    refine .get_bind fun w u h ↦ ?_
    rw [h.defs]
    cases w.defs.values.lookup v with
    | none => exact .throw rfl
    | some n =>
      refine .bind (alike_modifyForest fun f ↦ ?_) fun _ ↦ .pure rfl
      rw [f.takeRef_shift, Forest.logAccess_shift]

theorem alike_place (id : InstId) (i : ResolvedInst) (idx : Nat) (p : Place Value BlockId) :
    Alike config k (place id i idx p) (place id i idx p) := by
  cases p with
  | operand o => exact alike_operand id i idx o
  | block b =>
    refine .bind (alike_labelOf b) fun n ↦ ?_
    exact .bind (alike_modifyForest fun f ↦ f.takeRef_shift n) fun _ ↦ .pure rfl

theorem alike_addChildren (parent : NodeId) (kids : List NodeId) :
    Alike config k (addChildren parent kids) (addChildren parent kids) :=
  .forM_same _ fun kid ↦ alike_modifyForest fun f ↦ f.addChild_shift parent kid

theorem alike_addOwnChild (parent : NodeId) {n : Node} (h : n.shift k = n) :
    Alike config k (addOwnChild parent n) (addOwnChild parent n) := by
  refine .bind (alike_push_same h) fun kid ↦ ?_
  refine .bind (alike_modifyForest fun f ↦ ?_) fun _ ↦ .pure rfl
  rw [f.addChild_shift, Forest.takeRef_shift]
  rfl

/-! ## Instructions -/

theorem alike_buildInst (f : Func) (b : BlockId) (id : InstId) (i : ResolvedInst) :
    Alike config k (buildInst f b id i) (buildInst f b id i) := by
  refine .bind (Alike.mapM _ fun (p, idx) ↦ alike_place id i idx p) fun kids ↦ ?_
  refine .bind (alike_push_same rfl) fun n ↦ ?_
  have htail : ∀ tail : Work NodeId, tail = (do
      if i.opcode = .load then modifyForest (·.logAccess .read n)
      if f.escapes id then modifyForest (·.markEscaping n)
      return n) → Alike config k tail tail := by
    rintro _ rfl
    refine .when_bind (p := fun _ ↦ _) (q := fun _ ↦ _)
      (alike_modifyForest fun f ↦ f.logAccess_shift .read n) ?_
    exact .when_bind (p := fun _ ↦ _) (q := fun _ ↦ _)
      (alike_modifyForest fun f ↦ f.markEscaping_shift n) (.pure rfl)
  cases i.operation with
  | call callee args =>
    refine .bind (alike_push_same rfl) fun list ↦ ?_
    refine .bind (alike_addChildren list kids) fun _ ↦ .bind (alike_modifyForest fun f ↦ ?_)
      fun _ ↦ htail _ rfl
    rw [f.addChild_shift, Forest.takeRef_shift]
    rfl
  | br target =>
    refine .bind (alike_addChildren n kids) fun _ ↦ ?_
    refine .bind (.discard (alike_addOwnChild n rfl)) fun _ ↦ ?_
    exact .bind (.discard (alike_addOwnChild n rfl)) fun _ ↦ htail _ rfl
  | _ => exact .bind (alike_addChildren n kids) fun _ ↦ htail _ rfl

theorem alike_buildPhi (b : BlockId) (id : InstId) (i : ResolvedInst) :
    Alike config k (buildPhi b id i) (buildPhi b id i) := by
  refine .get_bind fun w u h ↦ ?_
  rw [h.defs]
  exact alike_push_same rfl

theorem alike_buildPhiMove (f : Func) (b succ : BlockId) (phi : InstId) (i : ResolvedInst) :
    Alike config k (buildPhiMove f b succ phi i) (buildPhiMove f b succ phi i) := by
  rw [buildPhiMove]
  cases i.operation.incoming.zipIdx.find? (·.1.2 == b) with
  | none => exact .throw rfl
  | some found =>
    refine .get_bind fun w u h ↦ ?_
    rw [h.defs]
    cases w.defs.phis.lookup phi with
    | none => exact .pure rfl
    | some owner =>
      refine .bind (alike_operand phi i _ _) fun kid ↦ ?_
      refine .bind (alike_push_same rfl) fun n ↦ ?_
      exact .bind (alike_modifyForest fun f ↦ f.addChild_shift _ _) fun _ ↦ .pure rfl

theorem alike_buildPhiMoves (f : Func) (b : BlockId) :
    Alike config k (buildPhiMoves f b) (buildPhiMoves f b) := by
  refine .bind (Alike.mapM _ fun (succ, phi, i) ↦ alike_buildPhiMove f b succ phi i) fun moves ↦ ?_
  exact .pure rfl

theorem alike_guardReads (roots : List NodeId) :
    Alike config k (guardReads roots) (guardReads roots) := by
  refine .forM_same _ fun r ↦ alike_modifyForest fun f ↦ ?_
  rw [f.readsMemory_shift, f.logAccess_shift]
  exact (apply_ite (Forest.shift k) _ _ _).symm

theorem alike_buildStep (f : Func) (b : BlockId) (roots : List NodeId) (id : InstId)
    (i : ResolvedInst) : Alike config k (buildStep f b roots id i) (buildStep f b roots id i) := by
  rw [buildStep]
  have htail : ∀ (moves : List NodeId) (tail : Work (List NodeId)), tail = (do
      let n ← buildInst f b id i
      if i.opcode.writesMemory then guardReads roots
      defineValue (.inst id) n
      return roots ++ moves ++ [n]) → Alike config k tail tail := by
    rintro moves _ rfl
    refine .bind (alike_buildInst f b id i) fun n ↦ ?_
    refine .when_bind (p := fun _ ↦ _) (q := fun _ ↦ _) (alike_guardReads roots) ?_
    exact .bind (alike_defineValue (.inst id) n) fun _ ↦ .pure rfl
  split
  · refine .bind (alike_buildPhi b id i) fun n ↦ ?_
    exact .bind (alike_defineValue (.inst id) n) fun _ ↦ .pure rfl
  · by_cases hterminator : i.opcode.isTerminator = true
    · simp only [hterminator, if_true]
      exact .bind (alike_buildPhiMoves f b) fun moves ↦ htail moves _ rfl
    · simp only [hterminator]
      exact htail [] _ rfl

theorem alike_buildBlock (f : Func) (b : BlockId) :
    Alike config k (buildBlock f b) (buildBlock f b) := by
  refine .bind (Alike.foldlM (f.blockInsts b) (fun roots x ↦ ?_) []) fun roots ↦ ?_
  · exact alike_buildStep f b roots x.1 x.2
  · exact .bind (alike_report _ _) fun _ ↦ .pure rfl

/-- **Building.** The forest of a function is built alike before and after a shift. -/
theorem alike_buildForest (f : Func) : Alike config k (buildForest f) (buildForest f) := by
  refine .bind (alike_defineArguments f) fun _ ↦ ?_
  refine .bind (alike_declarePhis f) fun _ ↦ ?_
  refine .bind (alike_createLabels f) fun _ ↦ ?_
  refine Alike.mapM _ fun b ↦ ?_
  exact .bind (alike_modifyCode fun c ↦ c.beginBlock_shift b none) fun _ ↦ alike_buildBlock f b

end Work

end TreeCover
