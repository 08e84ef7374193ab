import TreeCover.Proofs.Independence.Shift

/-!
# Forests with shifted labels

The label of a block stands in the slot of its node. No question about a forest looks at slots, and
every change of a forest leaves them alone or sets them without looking at what was there; so a
shift goes through all of them. In particular a tree gets the same label of costs before and after
a shift.
-/

namespace TreeCover

open Ir Machine

variable {k : Nat} {f : Forest}

/-! ## Nodes -/

namespace Node

@[simp]
theorem op_shift (n : Node) : (n.shift k).op = n.op := rfl

@[simp]
theorem target_shift (n : Node) : (n.shift k).target = n.target := rfl

@[simp]
theorem kids_shift (n : Node) : (n.shift k).kids = n.kids := rfl

@[simp]
theorem computed_shift (n : Node) : (n.shift k).computed = n.computed := rfl

@[simp]
theorem slot_shift (n : Node) : (n.shift k).slot = n.slot.shift k := rfl

@[simp]
theorem source_shift (n : Node) : (n.shift k).source = n.source := rfl

@[simp]
theorem predicate_shift (n : Node) : (n.shift k).predicate = n.predicate := rfl

@[simp]
theorem phiTarget_shift (n : Node) : (n.shift k).phiTarget = n.phiTarget := rfl

@[simp]
theorem opcode?_shift (n : Node) : (n.shift k).opcode? = n.opcode? := rfl

@[simp]
theorem head?_shift (n : Node) : (n.shift k).head? = n.head? := rfl

end Node

namespace Forest

@[simp]
theorem size_shift (f : Forest) : (f.shift k).size = f.size := Array.size_map

@[simp]
theorem node_shift (f : Forest) (id : NodeId) : (f.shift k).node id = (f.node id).shift k := by
  rw [node, node, shift, Array.getElem?_map]
  cases f.nodes[id]? <;> rfl

/-! ## Changes -/

theorem update_shift {p q : Node → Node} (f : Forest) (id : NodeId)
    (h : ∀ n, q (n.shift k) = (p n).shift k) :
    (f.shift k).update id q = (f.update id p).shift k := by
  simp only [update, shift, mk.injEq]
  refine Array.ext_getElem? fun n ↦ ?_
  rw [Array.getElem?_modify, Array.getElem?_map, Array.getElem?_map, Array.getElem?_modify]
  cases f.nodes[n]? with
  | none => split <;> rfl
  | some node =>
    simp only [Option.map_some]
    split
    · exact congrArg some (h node)
    · rfl

theorem push_shift (f : Forest) (n : Node) :
    (f.shift k).push (n.shift k) = ((f.push n).1, (f.push n).2.shift k) := by
  simp only [push, size_shift, Prod.mk.injEq, true_and]
  simp only [shift, Array.map_push]

/-- A change that is made step by step. -/
theorem foldl_shift {α : Type} {p : Forest → α → Forest}
    (h : ∀ f a, p (f.shift k) a = (p f a).shift k) (xs : List α) (f : Forest) :
    xs.foldl p (f.shift k) = (xs.foldl p f).shift k := by
  induction xs generalizing f with
  | nil => rfl
  | cons a xs ih => rw [List.foldl_cons, List.foldl_cons, h, ih]

/-! ## Owners -/

theorem ownerFrom_shift (f : Forest) (fuel : Nat) (id : NodeId) :
    (f.shift k).ownerFrom fuel id = f.ownerFrom fuel id := by
  induction fuel generalizing id with
  | zero => rfl
  | succ fuel ih =>
    rw [ownerFrom, ownerFrom, node_shift, Node.target_shift]
    cases (f.node id).target with
    | none => rfl
    | some target => exact ih target

@[simp]
theorem owner_shift (f : Forest) (id : NodeId) : (f.shift k).owner id = f.owner id := by
  rw [owner, owner, size_shift, ownerFrom_shift]

@[simp]
theorem kidOwners_shift (f : Forest) (id : NodeId) : (f.shift k).kidOwners id = f.kidOwners id := by
  simp [kidOwners]

@[simp]
theorem refs_shift (f : Forest) (id : NodeId) : (f.shift k).refs id = f.refs id := by
  rw [refs, refs, owner_shift, node_shift]
  rfl

theorem addChild_shift (f : Forest) (parent kid : NodeId) :
    (f.shift k).addChild parent kid = (f.addChild parent kid).shift k := by
  rw [addChild, addChild, owner_shift, node_shift]
  exact f.update_shift parent fun _ ↦ rfl

theorem takeRef_shift (f : Forest) (id : NodeId) :
    (f.shift k).takeRef id = (f.takeRef id).shift k := by
  rw [takeRef, owner_shift]
  exact f.update_shift _ fun _ ↦ rfl

theorem releaseRef_shift (f : Forest) (id : NodeId) :
    (f.shift k).releaseRef id = (f.releaseRef id).shift k := by
  rw [releaseRef, owner_shift]
  exact f.update_shift _ fun _ ↦ rfl

theorem markEscaping_shift (f : Forest) (id : NodeId) :
    (f.shift k).markEscaping id = (f.markEscaping id).shift k := by
  rw [markEscaping, owner_shift]
  exact f.update_shift _ fun _ ↦ rfl

theorem releaseKids_shift (f : Forest) (id : NodeId) :
    (f.shift k).releaseKids id = (f.releaseKids id).shift k := by
  have hmarked : (f.shift k).update id (fun n ↦ { n with kidsReleased := true }) =
      (f.update id fun n ↦ { n with kidsReleased := true }).shift k := f.update_shift id fun _ ↦ rfl
  rw [releaseKids, releaseKids, node_shift, Node.kids_shift, hmarked,
    foldl_shift releaseRef_shift]
  exact (apply_ite (shift k) _ _ _).symm

/-! ## Height -/

theorem levelsFrom_shift (f : Forest) (fuel : Nat) (known : List (NodeId × Nat)) (id : NodeId) :
    (f.shift k).levelsFrom fuel known id = f.levelsFrom fuel known id := by
  induction fuel generalizing known id with
  | zero => rfl
  | succ fuel ih =>
    have hfold : (f.shift k).levelsFrom fuel = f.levelsFrom fuel := funext fun known ↦
      funext fun id ↦ ih known id
    simp only [levelsFrom, node_shift, Node.computed_shift, Node.kids_shift, kidOwners_shift, hfold]

theorem refreshLevel_shift (f : Forest) (id : NodeId) :
    (f.shift k).refreshLevel id = ((f.refreshLevel id).1, (f.refreshLevel id).2.shift k) := by
  simp only [refreshLevel, size_shift, owner_shift, levelsFrom_shift, Prod.mk.injEq, true_and]
  refine foldl_shift (fun f a ↦ ?_) _ f
  exact f.update_shift a.1 fun _ ↦ rfl

/-! ## Memory -/

theorem edgeCount_shift (f : Forest) : (f.shift k).edgeCount = f.edgeCount := by
  simp [edgeCount, shift, List.flatMap_map]

theorem pendingOf_shift (f : Forest) (ids : List NodeId) :
    (f.shift k).pendingOf ids = f.pendingOf ids := by
  simp [pendingOf]

@[simp]
theorem pending_shift (f : Forest) (id : NodeId) : (f.shift k).pending id = f.pending id := by
  simp only [pending, pendingOf_shift, kidOwners_shift, edgeCount_shift, owner_shift]

theorem logAccess_shift (f : Forest) (a : Access) (id : NodeId) :
    (f.shift k).logAccess a id = (f.logAccess a id).shift k := by
  rw [logAccess, pending_shift]
  refine foldl_shift (fun f n ↦ ?_) _ f
  exact f.update_shift n fun _ ↦ rfl

@[simp]
theorem readsMemory_shift (f : Forest) (id : NodeId) :
    (f.shift k).readsMemory id = f.readsMemory id := by
  simp [readsMemory]

@[simp]
theorem isFlowDependent_shift (f : Forest) (id : NodeId) :
    (f.shift k).isFlowDependent id = f.isFlowDependent id := by
  simp [isFlowDependent, Node.readsAfterWrite, Node.shift]

/-! ## Constants -/

theorem constValueFrom_shift (f : Forest) (fuel : Nat) (id : NodeId) :
    (f.shift k).constValueFrom fuel id = f.constValueFrom fuel id := by
  induction fuel generalizing id with
  | zero => rfl
  | succ fuel ih =>
    have hfold : (f.shift k).constValueFrom fuel = f.constValueFrom fuel := funext ih
    simp only [constValueFrom, owner_shift, node_shift, Node.computed_shift, Node.op_shift,
      Node.kids_shift, hfold]
    rfl

@[simp]
theorem constValue?_shift (f : Forest) (id : NodeId) :
    (f.shift k).constValue? id = f.constValue? id := by
  rw [constValue?, constValue?, size_shift, constValueFrom_shift]

@[simp]
theorem kidConst?_shift (f : Forest) (id : NodeId) (idx : Nat) :
    (f.shift k).kidConst? id idx = f.kidConst? id idx := by
  rw [kidConst?, kidConst?, node_shift, Node.kids_shift, funext (constValue?_shift f)]

end Forest

/-! ## Labeling -/

theorem Guard.holds_shift (f : Forest) (id : NodeId) (g : Guard) :
    g.holds (f.shift k) id = g.holds f id := by
  cases g <;> simp [holds, Node.shift]

theorem Rule.admits_shift (f : Forest) (id : NodeId) (r : Rule) :
    r.admits (f.shift k) id = r.admits f id := by
  simp only [admits, Guard.holds_shift]

mutual

theorem Pattern.matchCost?_shift (f : Forest) (ls : Labels) : ∀ (p : Pattern) (id : NodeId),
    p.matchCost? (f.shift k) ls id = p.matchCost? f ls id
  | .nt goal, id => rfl
  | .op h kids, id => by
    rw [matchCost?, matchCost?, f.node_shift, Node.head?_shift, Node.kids_shift, f.kidOwners_shift,
      Pattern.matchKids?_shift]
  | .variadic h goal, id => by
    rw [matchCost?, matchCost?, f.node_shift, Node.head?_shift, f.kidOwners_shift]

theorem Pattern.matchKids?_shift (f : Forest) (ls : Labels) :
    ∀ (ps : List Pattern) (ids : List NodeId),
      matchKids? (f.shift k) ls ps ids = matchKids? f ls ps ids
  | [], _ => by rw [matchKids?, matchKids?] <;> simp
  | _ :: _, [] => by rw [matchKids?, matchKids?] <;> simp
  | p :: ps, id :: ids => by
    rw [matchKids?, matchKids?, Pattern.matchCost?_shift f ls p id,
      Pattern.matchKids?_shift f ls ps ids]

end

theorem labelNode_shift (f : Forest) (ls : Labels) (id : NodeId) :
    labelNode (f.shift k) ls id = labelNode f ls id := by
  have htry : tryRule (f.shift k) ls id = tryRule f ls id := funext fun l ↦ funext fun r ↦ by
    rw [tryRule, tryRule, Rule.admits_shift, Pattern.matchCost?_shift]
  rw [labelNode, labelNode, f.node_shift, Node.head?_shift, htry]

theorem labelFrom_shift (f : Forest) (fuel : Nat) (id : NodeId) :
    labelFrom (f.shift k) fuel id = labelFrom f fuel id := by
  induction fuel generalizing id with
  | zero => rfl
  | succ fuel ih =>
    have hkids : labelFrom (f.shift k) fuel = labelFrom f fuel := funext ih
    simp only [labelFrom, f.node_shift, Node.computed_shift, f.kidOwners_shift, labelNode_shift,
      hkids]

/-- **Labeling.** A tree is labeled as it would be without the shift. -/
theorem labelTree_shift (f : Forest) (root : NodeId) :
    labelTree (f.shift k) root = labelTree f root := by
  rw [labelTree, labelTree, labelFrom_shift, f.size_shift, f.owner_shift]

/-! ## Taking leaves -/

mutual

theorem Pattern.takeLeaves_shift : ∀ (p : Pattern) (id : NodeId) (f : Forest),
    p.takeLeaves id (f.shift k) = ((p.takeLeaves id f).1, (p.takeLeaves id f).2.shift k)
  | .nt goal, id, f => rfl
  | .op h kids, id, f => by
    simp only [takeLeaves, f.kidOwners_shift, Pattern.takeKidLeaves_shift kids (f.kidOwners id) f,
      Forest.releaseKids_shift]
  | .variadic h goal, id, f => by
    simp only [takeLeaves, f.kidOwners_shift, Forest.releaseKids_shift]

theorem Pattern.takeKidLeaves_shift : ∀ (ps : List Pattern) (ids : List NodeId) (f : Forest),
    takeKidLeaves ps ids (f.shift k) =
      ((takeKidLeaves ps ids f).1, (takeKidLeaves ps ids f).2.shift k)
  | [], _, f => by simp [takeKidLeaves]
  | _ :: _, [], f => by simp [takeKidLeaves]
  | p :: ps, id :: ids, f => by
    simp only [takeKidLeaves, Pattern.takeLeaves_shift p id f,
      Pattern.takeKidLeaves_shift ps ids]

end

end TreeCover
