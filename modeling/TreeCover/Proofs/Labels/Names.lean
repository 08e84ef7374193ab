import TreeCover.Proofs.Assembly.Pieces
import TreeCover.Proofs.Tiling.Expansion
import TreeCover.Proofs.Work.Keeping
import TreeCover.Compile

/-!
# Names in selected code

Selection draws no label and gives no block one: whatever it does, the same nodes stand for the same
names, and the label that the session hands out next is the same. Main statement: `names_selectAll`.
-/

namespace TreeCover

open Ir Machine Work

variable {w w' w₀ : Workspace} {r : Rule} {id : NodeId} {kids : List Bound} {nt : Nonterminal}

/-- Names stand for the same nodes in `w` and in `w'`, and the next label is the same. -/
structure Workspace.SameNames (w w' : Workspace) : Prop where
  defs : w'.defs = w.defs
  nextLabel : w'.session.nextLabel = w.session.nextLabel

theorem Workspace.SameNames.refl (w : Workspace) : w.SameNames w := ⟨rfl, rfl⟩

theorem Workspace.SameNames.trans {w₁ : Workspace} (h : w.SameNames w₁) (h' : w₁.SameNames w') :
    w.SameNames w' :=
  ⟨h'.defs.trans h.defs, h'.nextLabel.trans h.nextLabel⟩

/-! ## Steps -/

/-- Work that leaves the names as they are in `w₀`. -/
abbrev KeepsNames {α : Type} (w₀ : Workspace) (x : Work α) : Prop := Keeps w₀.SameNames x

namespace KeepsNames

variable {α β : Type}

theorem modify {g : Workspace → Workspace} (hg : ∀ w : Workspace, w.SameNames (g w)) :
    KeepsNames w₀ (modify g) :=
  Keeps.modify fun w h ↦ h.trans (hg w)

theorem modifyGet {g : Workspace → α × Workspace} (hg : ∀ w : Workspace, w.SameNames (g w).2) :
    KeepsNames w₀ (modifyGet g) :=
  Keeps.modifyGet fun w h ↦ h.trans (hg w)

theorem report (e : Event) : KeepsNames w₀ (report e) := modify fun _ ↦ ⟨rfl, rfl⟩

theorem modifyForest (g : Forest → Forest) : KeepsNames w₀ (modifyForest g) :=
  modify fun _ ↦ ⟨rfl, rfl⟩

theorem modifyCode (g : Code → Code) : KeepsNames w₀ (modifyCode g) := modify fun _ ↦ ⟨rfl, rfl⟩

theorem modifySession {g : Session → Session} (hg : ∀ s, (g s).nextLabel = s.nextLabel) :
    KeepsNames w₀ (modifySession g) :=
  modify fun w ↦ ⟨rfl, hg w.session⟩

theorem node (id : NodeId) : KeepsNames w₀ (node id) := Keeps.get_bind fun _ ↦ .pure _

theorem failBinding {r : Rule} {fault : BindingFault} :
    KeepsNames w₀ (failBinding r fault : Work α) := Keeps.throw _

theorem leafResult (idx : Nat) : KeepsNames w₀ (leafResult r kids idx) := by
  rw [Work.leafResult]
  cases kids[idx]? with
  | none => exact failBinding
  | some b => exact Keeps.pure b

/-- What a leaf gave, made into something to work with. -/
theorem leaf {x : Bound → Work α} {p : α → Work β} {idx : Nat}
    (hx : ∀ b, KeepsNames w₀ (x b)) (hp : ∀ a, KeepsNames w₀ (p a)) :
    KeepsNames w₀ (do p (← x (← Work.leafResult r kids idx))) :=
  Keeps.bind (leafResult idx) fun b ↦ .bind (hx b) hp

theorem asReg (b : Bound) : KeepsNames w₀ (asReg r b) := by
  cases b <;> first | exact Keeps.pure _ | exact failBinding

theorem asImm (b : Bound) : KeepsNames w₀ (asImm r b) := by
  cases b <;> first | exact Keeps.pure _ | exact failBinding

theorem asAddress (b : Bound) : KeepsNames w₀ (asAddress r b) := by
  cases b <;> first | exact Keeps.pure _ | exact failBinding

theorem asCond (b : Bound) : KeepsNames w₀ (asCond r b) := by
  cases b <;> first | exact Keeps.pure _ | exact failBinding

theorem asLabel (b : Bound) : KeepsNames w₀ (asLabel r b) := by
  cases b <;> first | exact Keeps.pure _ | exact failBinding

theorem asOperand (b : Bound) : KeepsNames w₀ (asOperand r b) := by
  cases b <;> first | exact Keeps.pure _ | exact failBinding

theorem freshVReg : KeepsNames w₀ freshVReg := modifyGet fun _ ↦ ⟨rfl, rfl⟩

theorem emit (i : Machine.Inst) : KeepsNames w₀ (emit i) :=
  Keeps.bind (modifySession fun _ ↦ rfl) fun _ ↦ .get_bind fun _ ↦
    .bind (report _) fun _ ↦ modifyCode _

/-- An instruction, and a result. -/
theorem emit_pure {i : Machine.Inst} {a : α} :
    KeepsNames w₀ (do Work.emit i; return a) := Keeps.bind (emit i) fun _ ↦ .pure a

/-- An instruction that works on a new register. -/
theorem draw {i : VReg → Machine.Inst} :
    KeepsNames w₀ (do let dst ← Work.freshVReg; Work.emit (i dst); return Bound.reg dst) :=
  Keeps.bind freshVReg fun _ ↦ emit_pure

theorem emitOnCopy (lhs : VReg) (i : VReg → Machine.Inst) : KeepsNames w₀ (emitOnCopy lhs i) :=
  Keeps.bind freshVReg fun _ ↦ .bind (emit _) fun _ ↦ emit_pure

theorem emitExtension (signed : Bool) (id : NodeId) (src : VReg) :
    KeepsNames w₀ (emitExtension signed id src) := by
  refine Keeps.bind (.get_bind fun _ ↦ .pure _) fun bits ↦ ?_
  split
  · exact Keeps.pure _
  · exact Keeps.bind freshVReg fun _ ↦ .bind (.forM _ fun i _ ↦ emit i) fun _ ↦ .pure _

theorem emitStore : KeepsNames w₀ (emitStore r id kids) := by
  refine Keeps.bind (node id) fun n ↦ .bind (leafResult 0) fun b ↦ ?_
  cases b with
  | reg v => exact Keeps.bind (.pure _) fun _ ↦ leaf asAddress fun _ ↦ emit_pure
  | imm value => exact Keeps.bind (.pure _) fun _ ↦ leaf asAddress fun _ ↦ emit_pure
  | _ => exact Keeps.bind failBinding fun _ ↦ leaf asAddress fun _ ↦ emit_pure

theorem emitCall (args : List Bound) : KeepsNames w₀ (emitCall r id args) := by
  refine Keeps.bind (.forM _ fun b _ ↦ .bind (asOperand b) fun _ ↦ emit _) fun _ ↦ ?_
  refine Keeps.bind (node id) fun n ↦ .bind (emit _) fun _ ↦ ?_
  split
  · exact Keeps.unless_bind (p := fun _ ↦ _) (emit _) (.pure _)
  · exact Keeps.unless_bind (p := fun _ ↦ _) (emit _) draw

theorem recordPhiInput (value : Machine.Operand) : KeepsNames w₀ (recordPhiInput r id value) := by
  refine Keeps.bind (node id) fun n ↦ ?_
  cases n.phiTarget with
  | none => exact failBinding
  | some target =>
    refine Keeps.bind (node _) fun owner ↦ ?_
    cases owner.slot with
    | vreg dst => exact Keeps.bind (modifyCode _) fun _ ↦ .pure _
    | _ => exact failBinding

theorem requestSlot (key : LocalKey) (bytes : Nat) : KeepsNames w₀ (requestSlot key bytes) := by
  refine Keeps.get_bind fun w ↦ ?_
  refine Keeps.when_bind (p := fun _ ↦ _) (report _) ?_
  exact Keeps.bind (modifyCode _) fun _ ↦ .pure _

theorem displace (m : Mem) (offset : Word) : KeepsNames w₀ (displace r m offset) := by
  rw [Work.displace]
  split
  · exact Keeps.pure _
  · exact failBinding

end KeepsNames

/-! ## Actions -/

open KeepsNames in
theorem keepsNames_applyRule (r : Rule) (id : NodeId) (kids : List Bound) :
    KeepsNames w₀ (applyRule r id kids) := by
  unfold applyRule
  cases r.action with
  | immediate | register | memory | label =>
    refine Keeps.bind (node id) fun n ↦ ?_
    cases n.slot <;> first | exact Keeps.pure _ | exact failBinding
  | nothing | discard | arguments => exact Keeps.pure _
  | loadImm => exact leaf asImm fun _ ↦ draw
  | loadMem =>
    refine Keeps.bind (leafResult 0) fun b ↦ ?_
    cases b with
    | reg v => exact Keeps.pure _
    | mem m => exact draw
    | _ => exact failBinding
  | lea =>
    refine leaf asAddress fun m ↦ ?_
    split
    · exact Keeps.pure _
    · exact draw
  | addrBase | memFromAddr => exact leaf asAddress fun _ ↦ .pure _
  | setCond =>
    exact leaf asCond fun _ ↦ .bind freshVReg fun _ ↦ .bind (emit _) fun _ ↦ emit_pure
  | fold =>
    refine Keeps.bind (node id) fun n ↦ ?_
    cases n.opcode? with
    | none => exact failBinding
    | some op =>
      refine leaf asImm fun x ↦ leaf asImm fun y ↦ ?_
      cases op.fold? x y with
      | none => exact failBinding
      | some value => exact Keeps.pure _
  | frameSlot =>
    refine Keeps.bind (node id) fun n ↦ ?_
    cases n.source with
    | none => exact failBinding
    | some source =>
      exact Keeps.bind (requestSlot _ _) fun _ ↦ .bind (modifyForest _) fun _ ↦ .pure _
  | addrDisp =>
    exact leaf asAddress fun m ↦ leaf asImm fun offset ↦ .bind (displace m offset) fun _ ↦ .pure _
  | addrIndex =>
    refine leaf asReg fun base ↦ leaf asReg fun index ↦ ?_
    cases kids[2]? with
    | none => exact Keeps.pure _
    | some b => exact Keeps.bind (asImm b) fun _ ↦ .pure _
  | load => exact leaf asAddress fun _ ↦ .bind (node id) fun _ ↦ draw
  | store => exact emitStore
  | binary mnemonic => exact leaf asReg fun lhs ↦ leaf asOperand fun _ ↦ emitOnCopy lhs _
  | mulImm => exact leaf asReg fun _ ↦ leaf asImm fun _ ↦ draw
  | divide remainder =>
    exact leaf asReg fun _ ↦ leaf asReg fun _ ↦ .bind (emit _) fun _ ↦ .bind (emit _) fun _ ↦
      .bind (emit _) fun _ ↦ draw
  | shift mnemonic => exact leaf asReg fun lhs ↦ leaf asImm fun _ ↦ emitOnCopy lhs _
  | shiftByReg mnemonic =>
    exact leaf asReg fun lhs ↦ leaf asReg fun _ ↦ .bind (emit _) fun _ ↦ emitOnCopy lhs _
  | compare =>
    refine leaf asReg fun _ ↦ leaf asOperand fun _ ↦ .bind (node id) fun n ↦ ?_
    cases n.predicate with
    | none => exact failBinding
    | some p => exact emit_pure
  | signExtend | zeroExtend => exact leaf asReg fun src ↦ emitExtension _ id src
  | rename => exact leaf asReg fun _ ↦ .pure _
  | jump => exact leaf asLabel fun _ ↦ emit_pure
  | branchCond =>
    exact leaf asCond fun _ ↦ leaf asLabel fun _ ↦ leaf asLabel fun _ ↦ .bind (emit _) fun _ ↦
      emit_pure
  | branchTest =>
    exact leaf asReg fun _ ↦ leaf asLabel fun _ ↦ leaf asLabel fun _ ↦ .bind (emit _) fun _ ↦
      .bind (emit _) fun _ ↦ emit_pure
  | ret =>
    cases kids.head? with
    | none => exact emit_pure
    | some b =>
      cases b with
      | imm value => exact Keeps.bind (emit _) fun _ ↦ emit_pure
      | _ => exact Keeps.bind (asOperand _) fun _ ↦ .bind (emit _) fun _ ↦ emit_pure
  | call =>
    refine Keeps.bind (leafResult 0) fun b ↦ ?_
    cases b with
    | args args => exact emitCall args
    | _ => exact failBinding
  | phiInput => exact leaf asOperand fun value ↦ recordPhiInput value

/-! ## Selection -/

theorem keepsNames_failCovering {α : Type} (id : NodeId) :
    KeepsNames w₀ (failCovering id : Work α) :=
  Keeps.get_bind fun _ ↦ .bind (KeepsNames.node id) fun _ ↦ .throw _

theorem keepsNames_reduceFrom (fuel : Nat) (id : NodeId) (nt : Nonterminal) :
    KeepsNames w₀ (reduceFrom fuel id nt) := by
  induction fuel generalizing id nt with
  | zero => exact keepsNames_failCovering id
  | succ fuel ih =>
    refine Keeps.get_bind fun w ↦ .bind (KeepsNames.node _) fun n ↦ ?_
    cases n.reuse? nt with
    | some b => exact Keeps.pure b
    | none =>
      refine Keeps.get_bind fun w' ↦ ?_
      cases w'.labels.rule? (w.forest.owner id) nt with
      | none => exact keepsNames_failCovering _
      | some r =>
        refine Keeps.bind (KeepsNames.modifyGet fun _ ↦ ⟨rfl, rfl⟩) fun leaves ↦ ?_
        refine Keeps.get_bind fun _ ↦ .bind (KeepsNames.report _) fun _ ↦ ?_
        refine Keeps.bind (.mapM _ fun (leaf, goal) ↦ ih leaf goal) fun kids ↦ ?_
        refine Keeps.bind (keepsNames_applyRule r _ kids) fun result ↦ ?_
        refine Keeps.bind (KeepsNames.node _) fun n ↦ ?_
        split
        · exact Keeps.bind (KeepsNames.modifyForest _) fun _ ↦ .pure _
        · exact Keeps.pure _

theorem keepsNames_label (root : NodeId) : KeepsNames w₀ (label root) := by
  refine Keeps.get_bind fun w ↦ ?_
  cases (labelTree w.forest root).run [] with
  | ok _ ls => exact KeepsNames.modify fun w ↦ ⟨rfl, Assembly.nextLabel_reportAll _ _⟩
  | error k ls =>
    exact Keeps.bind (KeepsNames.modify fun w ↦ ⟨rfl, Assembly.nextLabel_reportAll _ _⟩) fun _ ↦
      keepsNames_failCovering k

theorem keepsNames_selectRoot (root : NodeId) : KeepsNames w₀ (selectRoot root) := by
  refine Keeps.get_bind fun w ↦ .bind (keepsNames_label root) fun _ ↦ .get_bind fun w ↦ ?_
  refine Keeps.unless_bind (p := fun _ ↦ _) (keepsNames_failCovering root) ?_
  refine Keeps.when_bind (p := fun _ ↦ _) (KeepsNames.report _) ?_
  refine Keeps.bind (.get_bind fun _ ↦ keepsNames_reduceFrom _ root _) fun result ↦ ?_
  refine Keeps.bind (KeepsNames.modifySession fun _ ↦ rfl) fun _ ↦ ?_
  refine Keeps.bind (KeepsNames.node root) fun n ↦ ?_
  cases n.source with
  | none => exact Keeps.pure _
  | some inst => exact KeepsNames.modify fun _ ↦ ⟨rfl, rfl⟩

theorem keepsNames_selectTree (root : NodeId) : KeepsNames w₀ (selectTree root) := by
  refine Keeps.bind (KeepsNames.node root) fun n ↦ ?_
  split
  · exact Keeps.pure _
  · refine Keeps.bind (.bind (KeepsNames.modifyGet fun _ ↦ ⟨rfl, rfl⟩) fun _ ↦ .get_bind fun _ ↦
      .pure _) fun emits ↦ ?_
    cases emits with
    | true => exact keepsNames_selectRoot root
    | false => exact Keeps.get_bind fun _ ↦ KeepsNames.report _

/-- **Names.** Selection leaves the names as they are. -/
theorem names_selectAll {trees : List (List NodeId)} {u : Unit}
    (h : selectAll trees w = .ok u w') : w.SameNames w' := by
  have hkeeps : KeepsNames w (selectAll trees) := by
    refine Keeps.forM _ fun (roots, b) _ ↦ Keeps.get_bind fun _ ↦ ?_
    exact Keeps.bind (KeepsNames.modifyCode _) fun _ ↦ .forM _ fun r _ ↦ keepsNames_selectTree r
  exact hkeeps w u w' (.refl w) h

end TreeCover
