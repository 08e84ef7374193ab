import TreeCover.Proofs.Independence.Building

/-!
# Selecting with shifted labels

An action takes results apart, and the only use that it makes of a label is to put it into a jump.
So the instructions that are emitted after a shift are those before it, shifted, and what a tree is
reduced to is shifted too. Everything that selection decides depends on heights, references, logs
and costs, which a shift leaves alone.
-/

namespace TreeCover

open Ir Machine

variable {config : Config} {k : Nat} {r : Rule} {id : NodeId} {kids : List Bound}

namespace Work

/-! ## Results of leaves -/

theorem follows_failBinding {α : Type} {g : α → α} (r : Rule) {fault fault' : BindingFault}
    (h : fault' = fault.shift k) :
      Follows config k g (failBinding r fault) (failBinding r fault') :=
  .throw (congrArg (CompileError.binding r.name) h)

/-- Nothing comes after a failure. -/
theorem follows_failBinding_bind {α β : Type} {g : β → β} (r : Rule) {fault fault' : BindingFault}
    {p q : α → Work β} (h : fault' = fault.shift k) :
    Follows config k g (failBinding r fault >>= p) (failBinding r fault' >>= q) :=
  follows_failBinding r h

theorem follows_leaf (r : Rule) (kids : List Bound) (idx : Nat) :
    Follows config k (Bound.shift k) (leafResult r kids idx)
      (leafResult r (kids.map (·.shift k)) idx) := by
  rw [leafResult, leafResult, List.getElem?_map]
  cases kids[idx]? with
  | none => exact follows_failBinding r rfl
  | some b => exact .pure rfl

theorem alike_asReg (r : Rule) (b : Bound) : Alike config k (asReg r b) (asReg r (b.shift k)) := by
  cases b with
  | reg v => exact .pure rfl
  | _ => exact follows_failBinding r rfl

theorem alike_asImm (r : Rule) (b : Bound) : Alike config k (asImm r b) (asImm r (b.shift k)) := by
  cases b with
  | imm value => exact .pure rfl
  | _ => exact follows_failBinding r rfl

theorem alike_asAddress (r : Rule) (b : Bound) :
    Alike config k (asAddress r b) (asAddress r (b.shift k)) := by
  cases b with
  | addr m | mem m | reg v => exact .pure rfl
  | _ => exact follows_failBinding r rfl

theorem alike_asCond (r : Rule) (b : Bound) :
    Alike config k (asCond r b) (asCond r (b.shift k)) := by
  cases b with
  | cond p => exact .pure rfl
  | _ => exact follows_failBinding r rfl

theorem follows_asOperand (r : Rule) (b : Bound) :
    Follows config k (Operand.shift k) (asOperand r b) (asOperand r (b.shift k)) := by
  cases b with
  | reg v | imm value | mem m | addr m => exact .pure rfl
  | _ => exact follows_failBinding r rfl

theorem follows_asLabel (r : Rule) (b : Bound) :
    Follows config k (· + k) (asLabel r b) (asLabel r (b.shift k)) := by
  cases b with
  | label l => exact .pure rfl
  | _ => exact follows_failBinding r rfl

/-! ## Instructions -/

theorem alike_emit {i j : Machine.Inst} (h : j = i.shift k) : Alike config k (emit i) (emit j) := by
  subst h
  have hreport : Alike config k (do report (.emitted (← get).code.name i))
      (do report (.emitted (← get).code.name (i.shift k))) :=
    .get_bind fun w u _ ↦ alike_report _ _
  refine .bind (alike_modifySession (fun _ ↦ ⟨rfl, rfl⟩) fun _ ↦ ⟨rfl, rfl⟩) fun _ ↦ ?_
  refine .get_bind fun w u _ ↦ .bind (alike_report _ _) fun _ ↦ ?_
  exact alike_modifyCode fun c ↦ c.emit_shift i

theorem alike_emitAll {is js : List Machine.Inst} (h : js = is.map (·.shift k)) :
    Alike config k (emitAll is) (emitAll js) := by
  subst h
  exact .forM is fun i ↦ alike_emit rfl

theorem loadConstant_shift (value : Word) (dst : Machine.Operand) :
    loadConstant value (dst.shift k) = (loadConstant value dst).shift k := by
  rw [loadConstant, loadConstant]
  split <;> rfl

theorem extendInsts_shift (signed : Bool) (bits : Nat) (src dst : VReg) :
    (extendInsts signed bits src dst).map (·.shift k) = extendInsts signed bits src dst := by
  rw [extendInsts]
  split
  · cases signed <;> rfl
  · split <;> rfl

/-! ## Single actions -/

theorem alike_displace (r : Rule) (m : Mem) (offset : Word) :
    Alike config k (displace r m offset) (displace r m offset) := by
  rw [displace]
  split
  · exact .pure rfl
  · exact follows_failBinding r rfl

theorem follows_emitOnCopy (lhs : VReg) {p q : VReg → Machine.Inst}
    (h : ∀ dst, q dst = (p dst).shift k) :
    Follows config k (Bound.shift k) (emitOnCopy lhs p) (emitOnCopy lhs q) := by
  refine .bind alike_freshVReg fun dst ↦ .bind (alike_emit rfl) fun _ ↦ ?_
  exact .bind (alike_emit (h dst)) fun _ ↦ .pure rfl

theorem follows_emitDivision (remainder : Bool) (lhs rhs : VReg) :
    Follows config k (Bound.shift k) (emitDivision remainder lhs rhs)
      (emitDivision remainder lhs rhs) := by
  refine .bind (alike_emit rfl) fun _ ↦ .bind (alike_emit rfl) fun _ ↦ .bind (alike_emit rfl)
    fun _ ↦ ?_
  exact .bind alike_freshVReg fun dst ↦ .bind (alike_emit rfl) fun _ ↦ .pure rfl

theorem alike_firstKidWidth (id : NodeId) :
    Alike config k (firstKidWidth id) (firstKidWidth id) := by
  refine .get_bind fun w u h ↦ .pure ?_
  simp only [h.forest, Forest.node_shift, Node.kids_shift, Forest.owner_shift]
  rfl

theorem follows_emitExtension (signed : Bool) (id : NodeId) (src : VReg) :
    Follows config k (Bound.shift k) (emitExtension signed id src)
      (emitExtension signed id src) := by
  refine .bind (alike_firstKidWidth id) fun bits ↦ ?_
  rw [id_eq]
  split
  · exact .pure rfl
  · refine .bind alike_freshVReg fun dst ↦ ?_
    exact .bind (alike_emitAll (extendInsts_shift _ _ _ _).symm) fun _ ↦ .pure rfl

theorem follows_emitStore (r : Rule) (id : NodeId) (kids : List Bound) :
    Follows config k (Bound.shift k) (emitStore r id kids)
      (emitStore r id (kids.map (·.shift k))) := by
  refine .bind (follows_node id) fun n ↦ .bind (follows_leaf r kids 0) fun b ↦ ?_
  have hstore : ∀ value : Machine.Operand, value.shift k = value → ∀ x y : Work Bound,
      x = (do
        let m ← asAddress r (← leafResult r kids 1)
        emit { mnemonic := moveMnemonic (accessBytes n.width), operands := [value, .mem m] }
        return .none) →
      y = (do
        let m ← asAddress r (← leafResult r (kids.map (·.shift k)) 1)
        emit { mnemonic := moveMnemonic (accessBytes n.width), operands := [value, .mem m] }
        return .none) → Follows config k (Bound.shift k) x y := by
    rintro value hvalue _ _ rfl rfl
    refine .bind (follows_leaf r kids 1) fun b ↦ .bind (alike_asAddress r b) fun m ↦ ?_
    refine .bind (alike_emit ?_) fun _ ↦ .pure rfl
    rw [Machine.Inst.shift, List.map_cons, hvalue]
    rfl
  cases b with
  | reg v => exact hstore (.reg (.virt v) (accessBytes n.width)) rfl _ _ rfl rfl
  | imm value => exact hstore (.imm value) rfl _ _ rfl rfl
  | _ => exact follows_failBinding_bind r rfl

theorem follows_emitCall (r : Rule) (id : NodeId) (args : List Bound) :
    Follows config k (Bound.shift k) (emitCall r id args)
      (emitCall r id (args.map (·.shift k))) := by
  rw [emitCall, emitCall, ← List.map_reverse, List.isEmpty_map, List.length_map]
  refine .bind (.forM _ fun b ↦ .bind (follows_asOperand r b) fun o ↦ alike_emit rfl) fun _ ↦ ?_
  refine .bind (follows_node id) fun n ↦ .bind (alike_emit rfl) fun _ ↦ ?_
  have hresult : ∀ x : Work Bound, x = (do
      if n.width = 0 then return .none
      let dst ← freshVReg
      emit (moveTo dst (.phys .rax))
      return .reg dst) → Follows config k (Bound.shift k) x x := by
    rintro _ rfl
    split
    · exact .pure rfl
    · exact .bind alike_freshVReg fun dst ↦ .bind (alike_emit rfl) fun _ ↦ .pure rfl
  cases args.isEmpty with
  | true => exact hresult _ rfl
  | false => exact .bind (alike_emit rfl) fun _ ↦ hresult _ rfl

theorem follows_recordPhiInput (r : Rule) (id : NodeId) (value : Machine.Operand) :
    Follows config k (Bound.shift k) (recordPhiInput r id value)
      (recordPhiInput r id (value.shift k)) := by
  refine .bind (follows_node id) fun n ↦ ?_
  rw [Node.phiTarget_shift]
  cases n.phiTarget with
  | none => exact follows_failBinding r rfl
  | some target =>
    refine .bind (follows_node target.1) fun owner ↦ ?_
    rw [Node.slot_shift]
    cases owner.slot with
    | vreg dst =>
      exact .bind (alike_modifyCode fun c ↦ c.addPhiInput_shift target.2 dst value)
        fun _ ↦ .pure rfl
    | _ => exact follows_failBinding r rfl

theorem alike_requestSlot (key : LocalKey) (bytes : Nat) :
    Alike config k (requestSlot key bytes) (requestSlot key bytes) := by
  refine .get_bind fun w u h ↦ ?_
  rw [h.code]
  refine .when_bind (p := fun _ ↦ _) (q := fun _ ↦ _) (alike_report _ _) ?_
  exact .bind (alike_modifyCode fun c ↦ rfl) fun _ ↦ .pure rfl

theorem alike_updateRoles (id : NodeId) (p : Roles → Roles) :
    Alike config k (modifyForest (·.update id fun n ↦ { n with roles := p n.roles }))
      (modifyForest (·.update id fun n ↦ { n with roles := p n.roles })) :=
  alike_modifyForest fun f ↦ f.update_shift id fun _ ↦ rfl

/-! ## All actions -/

/-- **Actions.** What an action makes of shifted results is shifted. -/
theorem follows_applyRule (r : Rule) (id : NodeId) (kids : List Bound) :
    Follows config k (Bound.shift k) (applyRule r id kids)
      (applyRule r id (kids.map (·.shift k))) := by
  unfold applyRule
  -- operands in registers
  have hregs : ∀ {p q : VReg → VReg → Work Bound},
      (∀ v u, Follows config k (Bound.shift k) (p v u) (q v u)) → Follows config k (Bound.shift k)
        (do let v ← asReg r (← leafResult r kids 0)
            p v (← asReg r (← leafResult r kids 1)))
        (do let v ← asReg r (← leafResult r (kids.map (·.shift k)) 0)
            q v (← asReg r (← leafResult r (kids.map (·.shift k)) 1))) := fun hpq ↦
    .bind (follows_leaf r kids 0) fun b ↦ .bind (alike_asReg r b) fun v ↦
      .bind (follows_leaf r kids 1) fun b ↦ .bind (alike_asReg r b) fun u ↦ hpq v u
  cases r.action with
  | immediate | register | memory | label =>
    refine .bind (follows_node id) fun n ↦ ?_
    rw [Node.slot_shift]
    cases n.slot <;> first | exact .pure rfl | exact follows_failBinding r rfl
  | nothing | discard => exact .pure rfl
  | loadImm =>
    refine .bind (follows_leaf r kids 0) fun b ↦ .bind (alike_asImm r b) fun value ↦ ?_
    refine .bind alike_freshVReg fun dst ↦ .bind (alike_emit ?_) fun _ ↦ .pure rfl
    exact loadConstant_shift value (.vreg dst)
  | loadMem =>
    refine .bind (follows_leaf r kids 0) fun b ↦ ?_
    cases b with
    | reg v => exact .pure rfl
    | mem m => exact .bind alike_freshVReg fun dst ↦ .bind (alike_emit rfl) fun _ ↦ .pure rfl
    | _ => exact follows_failBinding r rfl
  | lea =>
    refine .bind (follows_leaf r kids 0) fun b ↦ .bind (alike_asAddress r b) fun m ↦ ?_
    rw [id_eq]
    split
    · exact .pure rfl
    · exact .bind alike_freshVReg fun dst ↦ .bind (alike_emit rfl) fun _ ↦ .pure rfl
  | addrBase | memFromAddr =>
    exact .bind (follows_leaf r kids 0) fun b ↦ .bind (alike_asAddress r b) fun m ↦ .pure rfl
  | setCond =>
    refine .bind (follows_leaf r kids 0) fun b ↦ .bind (alike_asCond r b) fun p ↦ ?_
    refine .bind alike_freshVReg fun dst ↦ ?_
    exact .bind (alike_emit rfl) fun _ ↦ .bind (alike_emit rfl) fun _ ↦ .pure rfl
  | fold =>
    refine .bind (follows_node id) fun n ↦ ?_
    rw [Node.opcode?_shift]
    cases n.opcode? with
    | none => exact follows_failBinding r rfl
    | some op =>
      refine .bind (follows_leaf r kids 0) fun b ↦ .bind (alike_asImm r b) fun x ↦ ?_
      refine .bind (follows_leaf r kids 1) fun b ↦ .bind (alike_asImm r b) fun y ↦ ?_
      simp only [id_eq]
      cases op.fold? x y with
      | none => exact follows_failBinding r rfl
      | some value => exact .pure rfl
  | frameSlot =>
    refine .bind (follows_node id) fun n ↦ ?_
    rw [Node.source_shift]
    cases n.source with
    | none => exact follows_failBinding r rfl
    | some source =>
      refine .bind (alike_requestSlot _ _) fun m ↦ ?_
      exact .bind (alike_updateRoles id fun roles ↦ { roles with memory := true }) fun _ ↦ .pure rfl
  | addrDisp =>
    refine .bind (follows_leaf r kids 0) fun b ↦ .bind (alike_asAddress r b) fun m ↦ ?_
    refine .bind (follows_leaf r kids 1) fun b ↦ .bind (alike_asImm r b) fun offset ↦ ?_
    exact .bind (alike_displace r m offset) fun m ↦ .pure rfl
  | addrIndex =>
    refine hregs fun base index ↦ ?_
    rw [List.getElem?_map]
    cases kids[2]? with
    | none => exact .pure rfl
    | some b => exact .bind (alike_asImm r b) fun shift ↦ .pure rfl
  | load =>
    refine .bind (follows_leaf r kids 0) fun b ↦ .bind (alike_asAddress r b) fun m ↦ ?_
    refine .bind (follows_node id) fun n ↦ .bind alike_freshVReg fun dst ↦ ?_
    exact .bind (alike_emit rfl) fun _ ↦ .pure rfl
  | store => exact follows_emitStore r id kids
  | binary mnemonic =>
    refine .bind (follows_leaf r kids 0) fun b ↦ .bind (alike_asReg r b) fun lhs ↦ ?_
    refine .bind (follows_leaf r kids 1) fun b ↦ .bind (follows_asOperand r b) fun rhs ↦ ?_
    exact follows_emitOnCopy lhs fun dst ↦ rfl
  | mulImm =>
    refine .bind (follows_leaf r kids 0) fun b ↦ .bind (alike_asReg r b) fun lhs ↦ ?_
    refine .bind (follows_leaf r kids 1) fun b ↦ .bind (alike_asImm r b) fun factor ↦ ?_
    exact .bind alike_freshVReg fun dst ↦ .bind (alike_emit rfl) fun _ ↦ .pure rfl
  | divide remainder => exact hregs fun lhs rhs ↦ follows_emitDivision remainder lhs rhs
  | shift mnemonic =>
    refine .bind (follows_leaf r kids 0) fun b ↦ .bind (alike_asReg r b) fun lhs ↦ ?_
    refine .bind (follows_leaf r kids 1) fun b ↦ .bind (alike_asImm r b) fun amount ↦ ?_
    exact follows_emitOnCopy lhs fun dst ↦ rfl
  | shiftByReg mnemonic =>
    refine hregs fun lhs amount ↦ .bind (alike_emit rfl) fun _ ↦ ?_
    exact follows_emitOnCopy lhs fun dst ↦ rfl
  | compare =>
    refine .bind (follows_leaf r kids 0) fun b ↦ .bind (alike_asReg r b) fun lhs ↦ ?_
    refine .bind (follows_leaf r kids 1) fun b ↦ .bind (follows_asOperand r b) fun rhs ↦ ?_
    refine .bind (follows_node id) fun n ↦ ?_
    rw [Node.predicate_shift]
    cases n.predicate with
    | none => exact follows_failBinding r rfl
    | some p => exact .bind (alike_emit rfl) fun _ ↦ .pure rfl
  | signExtend | zeroExtend =>
    refine .bind (follows_leaf r kids 0) fun b ↦ .bind (alike_asReg r b) fun src ↦ ?_
    exact follows_emitExtension _ id src
  | rename =>
    exact .bind (follows_leaf r kids 0) fun b ↦ .bind (alike_asReg r b) fun v ↦ .pure rfl
  | jump =>
    refine .bind (follows_leaf r kids 0) fun b ↦ .bind (follows_asLabel r b) fun target ↦ ?_
    exact .bind (alike_emit rfl) fun _ ↦ .pure rfl
  | branchCond =>
    refine .bind (follows_leaf r kids 0) fun b ↦ .bind (alike_asCond r b) fun p ↦ ?_
    refine .bind (follows_leaf r kids 1) fun b ↦ .bind (follows_asLabel r b) fun taken ↦ ?_
    refine .bind (follows_leaf r kids 2) fun b ↦ .bind (follows_asLabel r b) fun other ↦ ?_
    exact .bind (alike_emit rfl) fun _ ↦ .bind (alike_emit rfl) fun _ ↦ .pure rfl
  | branchTest =>
    refine .bind (follows_leaf r kids 0) fun b ↦ .bind (alike_asReg r b) fun v ↦ ?_
    refine .bind (follows_leaf r kids 1) fun b ↦ .bind (follows_asLabel r b) fun taken ↦ ?_
    refine .bind (follows_leaf r kids 2) fun b ↦ .bind (follows_asLabel r b) fun other ↦ ?_
    refine .bind (alike_emit rfl) fun _ ↦ ?_
    exact .bind (alike_emit rfl) fun _ ↦ .bind (alike_emit rfl) fun _ ↦ .pure rfl
  | ret =>
    rw [List.head?_map]
    have hend : ∀ x : Work Bound, x = (do
        emit { mnemonic := "ret", operands := [], kind := .ret }
        return .none) → Follows config k (Bound.shift k) x x := by
      rintro _ rfl
      exact .bind (alike_emit rfl) fun _ ↦ .pure rfl
    cases kids.head? with
    | none => exact hend _ rfl
    | some b =>
      cases b with
      | imm value =>
        exact .bind (alike_emit (loadConstant_shift value (.phys .rax))) fun _ ↦ hend _ rfl
      | _ =>
        exact .bind (follows_asOperand r _) fun o ↦ .bind (alike_emit rfl) fun _ ↦ hend _ rfl
  | arguments => exact .pure (congrArg Bound.args (Bound.shiftAll_eq_map kids).symm)
  | call =>
    refine .bind (follows_leaf r kids 0) fun b ↦ ?_
    cases b with
    | args args =>
      have hcall : Follows config k (Bound.shift k) (emitCall r id args)
          (emitCall r id (args.map (·.shift k))) := follows_emitCall r id args
      rwa [← Bound.shiftAll_eq_map] at hcall
    | _ => exact follows_failBinding r rfl
  | phiInput =>
    refine .bind (follows_leaf r kids 0) fun b ↦ .bind (follows_asOperand r b) fun value ↦ ?_
    exact follows_recordPhiInput r id value

/-! ## Reductions -/

theorem follows_failCovering {α : Type} {g : α → α} (id : NodeId) :
    Follows config k g (failCovering id) (failCovering id) := by
  refine .get_bind fun w u h ↦ .bind (follows_node id) fun n ↦ .throw ?_
  rw [h.code]
  rfl

/-- What is read from a computed node is in a register. -/
theorem reuse?_shift (n : Node) (nt : Nonterminal) :
    (n.shift k).reuse? nt = (n.reuse? nt).map (·.shift k) := by
  obtain ⟨op, _, _, _, _, slot, _, _, computed⟩ := n
  cases computed <;> cases op <;> cases slot <;> cases nt <;> rfl

theorem alike_takeLeaves (p : Pattern) (id : NodeId) :
    Alike config k (modifyGet fun w ↦
        let (leaves, forest) := p.takeLeaves id w.forest
        (leaves, { w with forest }))
      (modifyGet fun w ↦
        let (leaves, forest) := p.takeLeaves id w.forest
        (leaves, { w with forest })) := by
  refine .modifyGet (fun w u h ↦ ?_) fun w u h ↦ { h with forest := ?_ }
  · simp only [h.forest, Pattern.takeLeaves_shift, id_eq]
  · simp only [h.forest, Pattern.takeLeaves_shift]

theorem alike_markComputed (id : NodeId) (v : VReg) :
    Alike config k (markComputed id v) (markComputed id v) :=
  alike_modifyForest fun f ↦ f.update_shift id fun _ ↦ rfl

/-- **Reductions.** By the same labels, a tree is reduced to the same up to the shift. -/
theorem follows_reduceFrom (fuel : Nat) (id : NodeId) (nt : Nonterminal) :
    Follows config k (Bound.shift k) (reduceFrom fuel id nt) (reduceFrom fuel id nt) := by
  induction fuel generalizing id nt with
  | zero => exact follows_failCovering id
  | succ fuel ih =>
    refine .get_bind fun w u h ↦ ?_
    rw [h.forest, Forest.owner_shift]
    generalize w.forest.owner id = owner
    refine .bind (follows_node owner) fun n ↦ ?_
    rw [reuse?_shift]
    cases n.reuse? nt with
    | some b => exact .pure rfl
    | none =>
      refine .get_bind fun w u h ↦ ?_
      rw [h.labels]
      cases w.labels.rule? owner nt with
      | none => exact follows_failCovering owner
      | some r =>
        refine .bind (alike_takeLeaves r.pattern owner) fun leaves ↦ ?_
        refine .get_bind fun w u _ ↦ .bind (alike_report _ _) fun _ ↦ ?_
        refine .bind (.mapM_same leaves fun (leaf, goal) ↦ ih leaf goal) fun kids ↦ ?_
        refine .bind (follows_applyRule r owner kids) fun result ↦ ?_
        refine .bind (follows_node owner) fun n ↦ ?_
        rw [Node.op_shift]
        -- only an instruction that was reduced to a register is marked
        have hmark : ∀ v, Follows config k (Bound.shift k)
            (markComputed owner v >>= fun _ ↦ pure result)
            (markComputed owner v >>= fun _ ↦ pure (result.shift k)) := fun v ↦
          .bind (alike_markComputed owner v) fun _ ↦ .pure rfl
        cases nt with
        | reg =>
          cases result with
          | reg v =>
            cases n.op with
            | inst op => exact hmark v
            | _ => exact .pure rfl
          | _ => exact .pure rfl
        | _ => exact .pure rfl

theorem follows_reduce (id : NodeId) (nt : Nonterminal) :
    Follows config k (Bound.shift k) (reduce id nt) (reduce id nt) := by
  refine .get_bind fun w u h ↦ ?_
  rw [h.forest, Forest.size_shift]
  exact follows_reduceFrom _ id nt

/-! ## Visits -/

theorem alike_label (root : NodeId) : Alike config k (label root) (label root) := by
  refine .get_bind fun w u h ↦ ?_
  rw [h.forest, labelTree_shift]
  have hlabels : ∀ (ls : Labels) (p : Workspace → Workspace),
      (p = fun w ↦ { w with labels := ls, session := w.session.reportAll (labelEvents ls) }) →
      Alike config k (modify p) (modify p) := by
    rintro ls _ rfl
    refine .modify fun w u h ↦ { h with labels := rfl, session := ?_ }
    exact h.session.of_same (Session.Shifted.same_reportAll _ _)
      (Session.Shifted.same_reportAll _ _)
  cases (labelTree w.forest root).run [] with
  | ok _ ls => exact hlabels ls _ rfl
  | error n ls => exact .bind (hlabels ls _ rfl) fun _ ↦ follows_failCovering n

theorem alike_shouldEmit (root : NodeId) : Alike config k (shouldEmit root) (shouldEmit root) := by
  refine .bind (g := id) (.modifyGet (fun w u h ↦ ?_) fun w u h ↦ { h with forest := ?_ })
    fun level ↦ .get_bind fun w u h ↦ .pure ?_
  · simp only [h.forest, Forest.refreshLevel_shift, id_eq]
  · simp only [h.forest, Forest.refreshLevel_shift]
  · simp only [h.forest, h.session.config_eq, Forest.node_shift, Forest.refs_shift,
      Forest.isFlowDependent_shift, Node.opcode?_shift, id_eq]
    rfl

theorem goalOf_shift (f : Forest) (root : NodeId) : goalOf (f.shift k) root = goalOf f root := by
  rw [goalOf, goalOf, f.node_shift, Node.opcode?_shift, f.refs_shift]

theorem alike_selectRoot (root : NodeId) : Alike config k (selectRoot root) (selectRoot root) := by
  refine .get_bind fun w u h ↦ ?_
  rw [h.forest, goalOf_shift]
  generalize goalOf w.forest root = goal
  refine .bind (alike_label root) fun _ ↦ .get_bind fun w u h ↦ ?_
  rw [h.labels, h.session.config_eq]
  refine .unless_bind (p := fun _ ↦ _) (q := fun _ ↦ _) (follows_failCovering root) ?_
  refine .when_bind (p := fun _ ↦ _) (q := fun _ ↦ _) (alike_report _ _) ?_
  refine .bind (follows_reduce root goal) fun result ↦ ?_
  refine .bind (alike_modifySession (fun _ ↦ ⟨rfl, rfl⟩) fun _ ↦ ⟨rfl, rfl⟩) fun _ ↦ ?_
  refine .bind (follows_node root) fun n ↦ ?_
  rw [Node.source_shift]
  cases n.source with
  | none => exact .pure rfl
  | some inst =>
    refine .modify fun w u h ↦ { h with materialized := ?_ }
    -- the same register, if it is one
    cases result <;> exact congrArg (· ++ _) h.materialized

theorem alike_selectTree (root : NodeId) : Alike config k (selectTree root) (selectTree root) := by
  refine .bind (follows_node root) fun n ↦ ?_
  rw [Node.target_shift, Node.computed_shift]
  split
  · exact .pure rfl
  · refine .bind (alike_shouldEmit root) fun emits ↦ ?_
    cases emits with
    | true => exact alike_selectRoot root
    | false => exact .get_bind fun w u _ ↦ alike_report _ _

theorem alike_selectBlock (roots : List NodeId) :
    Alike config k (selectBlock roots) (selectBlock roots) :=
  .forM_same roots alike_selectTree

/-- The label of a block is in the slot of its node. -/
theorem blockLabel?_shift {w u : Workspace} (h : w.Shifted config k u) (b : BlockId) :
    blockLabel? u b = (blockLabel? w b).map (· + k) := by
  rw [blockLabel?, blockLabel?, h.defs, h.forest]
  cases w.defs.labels.lookup b with
  | none => rfl
  | some n =>
    simp only [Option.bind_some, Forest.node_shift, Node.slot_shift]
    cases (w.forest.node n).slot <;> rfl

/-- **Selection.** The same trees are emitted, with shifted labels. -/
theorem alike_selectAll (trees : List (List NodeId)) :
    Alike config k (selectAll trees) (selectAll trees) := by
  refine .forM_same _ fun (roots, b) ↦ .get_bind fun w u h ↦ ?_
  rw [blockLabel?_shift h]
  exact .bind (alike_modifyCode fun c ↦ c.beginBlock_shift b _) fun _ ↦ alike_selectBlock roots

end Work

end TreeCover
