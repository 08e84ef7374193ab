import TreeCover.Proofs.Forest.Declared
import TreeCover.Proofs.Tiling.Calls
import TreeCover.Proofs.Tiling.Tiles

/-!
# Slots and constants of nodes

A literal, an argument and a label have what they stand for in their slots from the beginning, and
whatever is computed has a register there. Selection changes the slots of instructions only.

Guards look at constants before a tree is reduced, and actions work with what its nodes are reduced to
later. The two agree: constants come from literals and from folding, neither of which depends on what
has been emitted in the meantime.
-/

namespace TreeCover

open Ir Machine Work

variable {f : Func} {trees : List (List NodeId)} {w : Workspace} {g h h' : Forest} {n n' : Node}
  {k : NodeId} {S : NodeId → Prop}

/-- The slot of a node holds what its operator promises. -/
structure Node.Slotted (n : Node) : Prop where
  literal : n.op = .imm → ∃ c, n.constant = some c ∧ n.slot = .imm c.word
  argument : ∀ idx, n.op = .arg idx → ∃ d, n.slot = .mem (.frame d)
  label : n.op = .label → ∃ l, n.slot = .label l
  phi : n.op = .phiDef → n.computed = true
  computed : n.computed = true → ∃ v, n.slot = .vreg v

/-- Nodes with the same operator and value. -/
structure Node.SameValue (n n' : Node) : Prop where
  op : n'.op = n.op
  constant : n'.constant = n.constant
  slot : n'.slot = n.slot
  computed : n'.computed = n.computed

theorem Node.Slotted.same (hn : n.Slotted) (hsame : n.SameValue n') : n'.Slotted where
  literal := by simpa only [hsame.op, hsame.constant, hsame.slot] using hn.literal
  argument := by simpa only [hsame.op, hsame.slot] using hn.argument
  label := by simpa only [hsame.op, hsame.slot] using hn.label
  phi := by simpa only [hsame.op, hsame.computed] using hn.phi
  computed := by simpa only [hsame.slot, hsame.computed] using hn.computed

/-- A node without literal, argument, label and value. -/
theorem Node.Slotted.of_bare (himm : n.op ≠ .imm) (harg : ∀ idx, n.op ≠ .arg idx)
    (hlabel : n.op ≠ .label) (hphi : n.op ≠ .phiDef) (hcomputed : n.computed = false) :
    n.Slotted where
  literal hop := absurd hop himm
  argument idx hop := absurd hop (harg idx)
  label hop := absurd hop hlabel
  phi hop := absurd hop hphi
  computed hc := absurd (hcomputed.symm.trans hc) Bool.false_ne_true

namespace Forest

/-- The slots of all nodes hold what they promise. -/
def Slotted (f : Forest) : Prop := ∀ k, (f.node k).Slotted

/-- The values of all nodes stay. -/
def SameValues (f f' : Forest) : Prop := ∀ k, (f.node k).SameValue (f'.node k)

theorem Slotted.same (hh : h.Slotted) (hsame : h.SameValues h') : h'.Slotted :=
  fun k ↦ (hh k).same (hsame k)

/-- Progress without marks changes no value. -/
theorem Progress.sameValues {touched : NodeId → Prop} {held : NodeId → VReg → Prop}
    (hprogress : h.Progress (fun _ ↦ False) touched held h') : SameValues h h' := by
  intro k
  have hconstant : (h'.node k).constant = (h.node k).constant :=
    (congrArg Node.constant (hprogress.skeleton.node k) :)
  cases hk : (h.node k).computed with
  | true =>
    obtain ⟨hcomputed, hslot⟩ := hprogress.keeps k hk
    exact ⟨hprogress.skeleton.op k, hconstant, hslot, hcomputed.trans hk.symm⟩
  | false =>
    cases hk' : (h'.node k).computed with
    | true => exact (hprogress.marks k hk hk').1.elim
    | false =>
      exact ⟨hprogress.skeleton.op k, hconstant, hprogress.slots k hk', hk'.trans hk.symm⟩

theorem sameValues_releaseKids (f : Forest) (id : NodeId) : SameValues f (f.releaseKids id) :=
  Progress.sameValues (f.progress_releaseKids fun _ _ ↦ trivial :
    Progress (fun _ ↦ False) (fun _ ↦ True) (fun _ _ ↦ True) f (f.releaseKids id))

theorem sameValues_refreshLevel (f : Forest) (id : NodeId) :
    SameValues f (f.refreshLevel id).2 :=
  Progress.sameValues (f.progress_refreshLevel id :
    Progress (fun _ ↦ False) (fun _ ↦ True) (fun _ _ ↦ True) f (f.refreshLevel id).2)

theorem SameValues.refl (f : Forest) : SameValues f f := fun _ ↦ ⟨rfl, rfl, rfl, rfl⟩

theorem SameValues.trans {f f' f'' : Forest} (h : f.SameValues f') (h' : f'.SameValues f'') :
    SameValues f f'' := fun k ↦
  ⟨(h' k).op.trans (h k).op, (h' k).constant.trans (h k).constant, (h' k).slot.trans (h k).slot,
    (h' k).computed.trans (h k).computed⟩

/-- To take leaves changes no value. -/
theorem sameValues_takeLeaves (f : Forest) (p : Pattern) (id : NodeId) :
    SameValues f (p.takeLeaves id f).2 :=
  p.takeLeaves_keeps (P := f.SameValues) (fun g k hg ↦ hg.trans (g.sameValues_releaseKids k)) id f
    (.refl f)

theorem SameButRoles.sameValues (hroles : h.SameButRoles h') : SameValues h h' := by
  intro k
  obtain ⟨roles, hk⟩ := hroles.2 k
  rw [hk]
  exact ⟨rfl, rfl, rfl, rfl⟩

/-- Only instructions get new slots, and these are registers. -/
theorem Slotted.mark {id : NodeId} {o : Opcode} (hh : h.Slotted) (hop : (h.node id).op = .inst o)
    (v : VReg) : (h.update id fun n ↦
      { n with computed := true, slot := .vreg v, roles := { n.roles with register := true } }).Slotted := by
  intro k
  rcases h.node_update_cases id k _ with ⟨rfl, hnode⟩ | hnode
  · rw [hnode]
    exact ⟨fun himm ↦ absurd (hop.symm.trans himm) NodeOp.noConfusion,
      fun _ harg ↦ absurd (hop.symm.trans harg) NodeOp.noConfusion,
      fun hlabel ↦ absurd (hop.symm.trans hlabel) NodeOp.noConfusion,
      fun _ ↦ rfl, fun _ ↦ ⟨v, rfl⟩⟩
  · rw [hnode]
    exact hh k

end Forest

theorem keptByReduction_slotted (g : Forest) (S : NodeId → Prop) :
    KeptByReduction g S fun f f' ↦ f.Slotted → f'.Slotted where
  refl _ h := h
  trans _ _ _ h h' hf := h' (h hf)
  release f id _ _ h := h.same (f.sameValues_releaseKids id)
  roles _ _ hroles h := h.same hroles.sameValues
  mark _ _ v _ _ hop h := h.mark hop v

/-- **Slots of a new forest.** -/
theorem Planted.slotted (hp : Planted f trees w) : w.forest.Slotted := by
  intro k
  by_cases hk : k < w.forest.size
  · have hsame : ∀ {n}, w.Is k n → n.SameValue (w.forest.node k) := fun his ↦
      ⟨Node.op_of_core his.2, Node.constant_of_core his.2, Node.slot_of_core his.2,
        Node.computed_of_core his.2⟩
    cases (hp.building.nodes k hk).shape with
    | @argument idx p _ his =>
      refine Node.Slotted.same ⟨?_, fun _ _ ↦ ⟨_, rfl⟩, ?_, ?_, ?_⟩ (hsame his) <;>
        exact fun h ↦ absurd h (by simp [Node.ofArgument])
    | @constant c width his =>
      refine Node.Slotted.same ⟨fun _ ↦ ⟨c, rfl, rfl⟩, fun _ h ↦ ?_, ?_, ?_, ?_⟩ (hsame his)
      · exact absurd h (by simp [Node.ofConstant])
      all_goals exact fun h ↦ absurd h (by simp [Node.ofConstant])
    | @label l his =>
      refine Node.Slotted.same ⟨?_, fun _ h ↦ ?_, fun _ ↦ ⟨l, rfl⟩, ?_, ?_⟩ (hsame his)
      on_goal 2 => exact absurd h (by simp [Node.ofLabel])
      all_goals exact fun h ↦ absurd h (by simp [Node.ofLabel])
    | @phi b id i v _ his =>
      refine Node.Slotted.same ⟨?_, fun _ h ↦ ?_, ?_, fun _ ↦ rfl, fun _ ↦ ⟨v, rfl⟩⟩ (hsame his)
      on_goal 2 => exact absurd h (by simp [Node.ofPhi])
      all_goals exact fun h ↦ absurd h (by simp [Node.ofPhi])
    | pad his | phiUse _ _ his | args his | inst _ _ his | phiMove _ _ _ his =>
      refine Node.Slotted.same (.of_bare ?_ (fun _ ↦ ?_) ?_ ?_ rfl) (hsame his) <;>
        simp [Node.pad, Node.ofPhiUse, Node.ofArgs, Node.ofInst, Node.ofPhiMove]
  · rw [Forest.node_of_le _ (Nat.le_of_not_lt hk)]
    exact .of_bare NodeOp.noConfusion (fun _ ↦ NodeOp.noConfusion) NodeOp.noConfusion
      NodeOp.noConfusion rfl

/-! ## Constants -/

variable {c : NodeId} {r : Rule} {kids : List Bound} {x y z : Word} {idx : Nat} {frame : Frame} {v : VReg}
  {action : Action} {is : List Machine.Inst}

/-- Constants come from literals and from folding. -/
theorem Expands.constant_cases (h : Expands n frame kids v action is (.imm x)) :
    action = .immediate ∧ n.slot = .imm x ∨ action = .fold ∧ ∃ op y z, n.opcode? = some op ∧
      kids[0]? = some (.imm y) ∧ kids[1]? = some (.imm z) ∧ op.fold? y z = some x := by
  cases h with
  | immediate h => exact Or.inl ⟨rfl, h⟩
  | fold hop hy hz hx => exact Or.inr ⟨rfl, _, _, _, hop, hy, hz, hx⟩

namespace Forest

/-- The constant that an owner stands for. -/
theorem constValueFrom_owner (hflat : g.Flat) (fuel : Nat) (k : NodeId) :
    g.constValueFrom fuel (g.owner k) = g.constValueFrom fuel k := by
  cases fuel with
  | zero => rfl
  | succ fuel => rw [constValueFrom, constValueFrom, hflat.owner_owner]

/-- If node `k` is a constant, it is `x`. -/
def Fixes (g : Forest) (k : NodeId) (x : Word) : Prop :=
  ∀ fuel y, g.constValueFrom fuel k = some y → y = x

/-- A constant that a guard has seen is the one that its node is reduced to. -/
theorem Fixes.of_kidConst {p : Word → Bool} (h : g.Fixes c x) (hflat : g.Flat)
    (hc : (g.kidOwners k)[idx]? = some c) (hguard : (g.kidConst? k idx).any p = true) :
    p x = true := by
  obtain ⟨j, hj, rfl⟩ : ∃ j, (g.node k).kids[idx]? = some j ∧ g.owner j = c := by
    rw [Forest.kidOwners, List.getElem?_map] at hc
    exact Option.map_eq_some_iff.mp hc
  cases hconst : g.constValue? j with
  | none => simp [Forest.kidConst?, hj, hconst] at hguard
  | some y =>
    have hy : p y = true := by simpa [Forest.kidConst?, hj, hconst] using hguard
    obtain rfl := h _ y ((g.constValueFrom_owner hflat _ j).trans hconst)
    exact hy

/-- The children of a node with two. -/
theorem exists_kids_of_two (h : (g.kidOwners k).length = 2) :
    ∃ a b, (g.node k).kids = [a, b] ∧ g.kidOwners k = [g.owner a, g.owner b] := by
  obtain ⟨a, b, hkids⟩ : ∃ a b, (g.node k).kids = [a, b] :=
    List.length_eq_two.mp (by simpa [Forest.kidOwners] using h)
  exact ⟨a, b, hkids, by simp [Forest.kidOwners, hkids]⟩

end Forest

section

variable (hmatches : r.Matches g k) (howner : g.owner k = k)
  (hn : n.skeleton = (g.node k).skeleton)
include hmatches howner hn

/-- A literal is its own constant. -/
theorem fixes_literal (haction : r.action = .immediate) (hslotted : n.Slotted)
    (hslot : n.slot = .imm x) : g.Fixes k x := by
  obtain ⟨-, hleaf⟩ := Grammar.tile_immediate r hmatches.mem haction
  obtain ⟨hcomputed, himm⟩ := head?_imm
    (hmatches.fits.head? (Pattern.leaves_of_isLeaf (k := k) (f := g) hleaf).2)
  have hop : n.op = (g.node k).op := (congrArg Node.op hn :)
  have hconstant : n.constant = (g.node k).constant := (congrArg Node.constant hn :)
  obtain ⟨c, hc, hslot'⟩ := hslotted.literal (hop.trans himm)
  obtain rfl : x = c.word := Slot.imm.inj (hslot.symm.trans hslot')
  intro fuel y hy
  cases fuel with
  | zero => exact absurd hy (by simp [Forest.constValueFrom])
  | succ fuel =>
    rw [Forest.constValueFrom, howner] at hy
    simp only [hcomputed, himm, ← hconstant, hc] at hy
    exact (Option.some.inj hy).symm

/-- Folding gives the constant that the guard has seen. -/
theorem fixes_fold {op : Opcode} (hflat : g.Flat) (haction : r.action = .fold)
    (hop : n.opcode? = some op) (hfirst : ∀ c, (g.kidOwners k)[0]? = some c → g.Fixes c y)
    (hsecond : ∀ c, (g.kidOwners k)[1]? = some c → g.Fixes c z) (hfold : op.fold? y z = some x) :
    g.Fixes k x := by
  obtain ⟨-, o, -, hp⟩ := Grammar.tile_fold r hmatches.mem haction
  obtain ⟨-, hlength, hcomputed, hinst⟩ := Pattern.leaves_of_inst hp hmatches.fits (.refl g)
  obtain ⟨a, b, hkids, howners⟩ := Forest.exists_kids_of_two hlength
  rw [howners] at hfirst hsecond
  obtain rfl : op = .binary o := by
    have hop' : n.op = .inst (.binary o) := (congrArg Node.op hn :).trans hinst
    rw [Node.opcode?, hop'] at hop
    exact (Option.some.inj hop).symm
  intro fuel y' hy
  cases fuel with
  | zero => exact absurd hy (by simp [Forest.constValueFrom])
  | succ fuel =>
    rw [Forest.constValueFrom, howner] at hy
    simp only [hcomputed, hinst, hkids] at hy
    obtain ⟨c, hc, hy⟩ := Option.bind_eq_some_iff.mp hy
    obtain ⟨d, hd, hy⟩ := Option.bind_eq_some_iff.mp hy
    obtain rfl := hfirst _ rfl fuel c ((g.constValueFrom_owner hflat fuel a).trans hc)
    obtain rfl := hsecond _ rfl fuel d ((g.constValueFrom_owner hflat fuel b).trans hd)
    exact Option.some.inj (hy.symm.trans hfold)

end

end TreeCover
