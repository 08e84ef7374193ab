import Mathlib.Algebra.BigOperators.Group.Finset.Piecewise
import Mathlib.Algebra.Order.BigOperators.Group.Finset
import TreeCover.Proofs.Forest.Progress
import TreeCover.Tiling.Select

/-!
# The books of references

The references of a node are counted twice: in the node itself, and by the positions of children that
stand for it, over all nodes that have not given up their children. The books are balanced if both
counts agree for every node. An alias stands for its owner at every position, so it has no references
and no position stands for it.

To give up the children of a node is to strike its positions and then to take back one reference for
each. In between, the references that are still to be taken back are owed.
-/

namespace TreeCover

variable {f f' f'' : Forest} {k id p c : NodeId} {n : Node} {owed : List NodeId} {cs : List NodeId}

namespace Forest

/-! ## Positions -/

/-- How many positions among the children of `p` stand for `k`. -/
def positionsAt (f : Forest) (p k : NodeId) : Nat := (f.kidOwners p).count k

/-- How many positions among all children stand for `k`. -/
def positions (f : Forest) (k : NodeId) : Nat := ∑ p ∈ Finset.range f.size, f.positionsAt p k

/-- The positions of `p` that stand for `k`, until `p` has given up its children. -/
def heldAt (f : Forest) (p k : NodeId) : Nat :=
  if (f.node p).kidsReleased then 0 else f.positionsAt p k

/-- How many positions stand for `k`, over all nodes that have not given up their children. -/
def held (f : Forest) (k : NodeId) : Nat := ∑ p ∈ Finset.range f.size, f.heldAt p k

/-- Each node has as many references as there are positions that stand for it, among the children
that have not been given up. -/
def Conserved (f : Forest) : Prop := ∀ k, (f.node k).refs = f.held k

/-- The books are balanced once the references to the nodes of `owed` have been taken back. -/
def Owes (f : Forest) (owed : List NodeId) : Prop :=
  ∀ k, (f.node k).refs = f.held k + owed.count k

theorem Conserved.owes (h : f.Conserved) : f.Owes [] := h

theorem Owes.perm {owed' : List NodeId} (h : f.Owes owed) (hperm : owed.Perm owed') :
    f.Owes owed' := fun k ↦ hperm.count_eq k ▸ h k

theorem positionsAt_pos : 0 < f.positionsAt p k ↔ k ∈ f.kidOwners p := List.count_pos_iff

theorem positions_pos (h : k ∈ f.kidOwners p) : 0 < f.positions k := by
  have hp : p < f.size := by
    by_contra hle
    rw [kidOwners, f.node_of_le (Nat.le_of_not_lt hle)] at h
    exact absurd h List.not_mem_nil
  exact Nat.lt_of_lt_of_le (positionsAt_pos.mpr h) <|
    Finset.single_le_sum (f := fun p ↦ f.positionsAt p k) (fun _ _ ↦ Nat.zero_le _)
      (Finset.mem_range.mpr hp)

/-- If nobody has given up a position, all are held. -/
theorem held_eq_positions (h : ∀ p, k ∈ f.kidOwners p → (f.node p).kidsReleased = false) :
    f.held k = f.positions k := by
  refine Finset.sum_congr rfl fun p _ ↦ ?_
  rw [heldAt]
  split
  next hreleased =>
    by_contra hne
    have hpos := Nat.pos_of_ne_zero fun hzero ↦ hne hzero.symm
    exact absurd (hreleased.symm.trans (h p (positionsAt_pos.mp hpos))) (by simp)
  next => rfl

/-- A node that has a position for `k` and holds its children. -/
theorem exists_holder (h : 0 < f.held k) :
    ∃ p < f.size, (f.node p).kidsReleased = false ∧ k ∈ f.kidOwners p := by
  obtain ⟨p, hp, hpos⟩ := Finset.exists_ne_zero_of_sum_ne_zero (Nat.ne_of_gt h)
  rw [heldAt] at hpos
  split at hpos
  next => exact absurd rfl hpos
  next hreleased =>
    exact ⟨p, Finset.mem_range.mp hp, by simpa using hreleased,
      positionsAt_pos.mp (Nat.pos_of_ne_zero hpos)⟩

theorem held_eq_zero (h : ∀ p, (f.node p).kidsReleased = false → (f.node p).kids = []) (k : NodeId) :
    f.held k = 0 := by
  by_contra hne
  obtain ⟨p, -, hreleased, hk⟩ := exists_holder (Nat.pos_of_ne_zero hne)
  rw [kidOwners, h p hreleased] at hk
  exact absurd hk List.not_mem_nil

/-! ## Changes to one node -/

theorem sum_of_change {g g' : NodeId → Nat} {m size : Nat} (hp : p < size)
    (h : ∀ q, g' q = g q + if q = p then m else 0) :
    ∑ q ∈ Finset.range size, g' q = (∑ q ∈ Finset.range size, g q) + m := by
  rw [Finset.sum_congr rfl fun q _ ↦ h q, Finset.sum_add_distrib, Finset.sum_ite_eq',
    if_pos (Finset.mem_range.mpr hp)]

/-- Forests in which the same nodes hold the same positions. -/
structure SamePositions (f f' : Forest) : Prop where
  size : f'.size = f.size
  target : ∀ k, (f'.node k).target = (f.node k).target
  kids : ∀ k, (f'.node k).kids = (f.node k).kids
  released : ∀ k, (f'.node k).kidsReleased = (f.node k).kidsReleased

/-- Forests whose books are the same. -/
structure SameBooks (f f' : Forest) : Prop extends SamePositions f f' where
  refs : ∀ k, (f'.node k).refs = (f.node k).refs

namespace SamePositions

theorem owner (h : SamePositions f f') (id : NodeId) : f'.owner id = f.owner id :=
  owner_congr h.size h.target id

theorem kidOwners (h : SamePositions f f') (p : NodeId) : f'.kidOwners p = f.kidOwners p := by
  rw [Forest.kidOwners, Forest.kidOwners, h.kids]
  exact List.map_congr_left fun c _ ↦ h.owner c

theorem held (h : SamePositions f f') (k : NodeId) : f'.held k = f.held k := by
  rw [Forest.held, Forest.held, h.size]
  refine Finset.sum_congr rfl fun p _ ↦ ?_
  rw [heldAt, heldAt, h.released, positionsAt, positionsAt, h.kidOwners]

end SamePositions

theorem SameSkeleton.positions (h : SameSkeleton f f') (k : NodeId) :
    f'.positions k = f.positions k := by
  rw [Forest.positions, Forest.positions, h.size]
  refine Finset.sum_congr rfl fun p _ ↦ ?_
  rw [positionsAt, positionsAt, h.kidOwners]

namespace SameBooks

theorem refl (f : Forest) : SameBooks f f :=
  ⟨⟨rfl, fun _ ↦ rfl, fun _ ↦ rfl, fun _ ↦ rfl⟩, fun _ ↦ rfl⟩

theorem trans (h : SameBooks f f') (h' : SameBooks f' f'') : SameBooks f f'' :=
  ⟨⟨h'.size.trans h.size, fun k ↦ (h'.target k).trans (h.target k),
    fun k ↦ (h'.kids k).trans (h.kids k), fun k ↦ (h'.released k).trans (h.released k)⟩,
    fun k ↦ (h'.refs k).trans (h.refs k)⟩

theorem owes (h : SameBooks f f') (howes : f.Owes owed) : f'.Owes owed := fun k ↦ by
  rw [h.refs, h.held]
  exact howes k

theorem conserved (h : SameBooks f f') (hf : f.Conserved) : f'.Conserved := h.owes hf.owes

end SameBooks

theorem samePositions_update (f : Forest) (id : NodeId) {g : Node → Node}
    (hg : ∀ n, (g n).target = n.target ∧ (g n).kids = n.kids ∧
      (g n).kidsReleased = n.kidsReleased) : SamePositions f (f.update id g) := by
  have hkeeps := @update_keeps (fun n n' ↦ n'.target = n.target ∧ n'.kids = n.kids ∧
    n'.kidsReleased = n.kidsReleased) (fun _ ↦ ⟨rfl, rfl, rfl⟩) f id g hg
  exact ⟨size_update f id g, fun k ↦ (hkeeps k).1, fun k ↦ (hkeeps k).2.1,
    fun k ↦ (hkeeps k).2.2⟩

theorem sameBooks_update (f : Forest) (id : NodeId) {g : Node → Node}
    (hg : ∀ n, ((g n).target = n.target ∧ (g n).kids = n.kids ∧
      (g n).kidsReleased = n.kidsReleased) ∧ (g n).refs = n.refs) : SameBooks f (f.update id g) :=
  ⟨f.samePositions_update id fun n ↦ (hg n).1,
    @update_keeps (fun n n' ↦ n'.refs = n.refs) (fun _ ↦ rfl) f id g fun n ↦ (hg n).2⟩

theorem sameBooks_foldl {ι : Type} {g : Forest → ι → Forest} {xs : List ι} (f : Forest)
    (hg : ∀ x ∈ xs, ∀ f, SameBooks f (g f x)) : SameBooks f (xs.foldl g f) := by
  induction xs generalizing f with
  | nil => exact .refl f
  | cons x xs ih =>
    obtain ⟨hx, hxs⟩ := List.forall_mem_cons.mp hg
    exact (hx f).trans (ih (g f x) hxs)

theorem sameBooks_logAccess (f : Forest) (a : Access) (id : NodeId) :
    SameBooks f (f.logAccess a id) :=
  f.sameBooks_foldl fun k _ f ↦ f.sameBooks_update k fun _ ↦ ⟨⟨rfl, rfl, rfl⟩, rfl⟩

theorem sameBooks_markEscaping (f : Forest) (id : NodeId) : SameBooks f (f.markEscaping id) :=
  f.sameBooks_update _ fun _ ↦ ⟨⟨rfl, rfl, rfl⟩, rfl⟩

theorem sameBooks_refreshLevel (f : Forest) (id : NodeId) : SameBooks f (f.refreshLevel id).2 :=
  f.sameBooks_foldl fun k _ f ↦ f.sameBooks_update k.1 fun _ ↦ ⟨⟨rfl, rfl, rfl⟩, rfl⟩

/-! ## Taking references back -/

/-- The calls by which one reference to each of some children is taken back: the forest in which each
call is made, and the child. -/
def releaseCalls (f : Forest) : List NodeId → List (Forest × NodeId)
  | [] => []
  | c :: cs => (f, c) :: (f.releaseRef c).releaseCalls cs

/-- The calls by which a node gives up its children. -/
def kidCalls (f : Forest) (id : NodeId) : List (Forest × NodeId) :=
  if (f.node id).kidsReleased then []
  else (f.update id fun n ↦ { n with kidsReleased := true }).releaseCalls (f.node id).kids

theorem samePositions_releaseRef (f : Forest) (c : NodeId) : SamePositions f (f.releaseRef c) :=
  f.samePositions_update _ fun _ ↦ ⟨rfl, rfl, rfl⟩

theorem samePositions_takeRef (f : Forest) (c : NodeId) : SamePositions f (f.takeRef c) :=
  f.samePositions_update _ fun _ ↦ ⟨rfl, rfl, rfl⟩

/-- A reference that is owed is there to be taken back. -/
theorem Owes.releaseRef (h : f.Owes (f.owner c :: owed)) :
    (f.releaseRef c).Owes owed ∧ 0 < f.refs c := by
  have howner : (f.node (f.owner c)).refs = f.held (f.owner c) + owed.count (f.owner c) + 1 := by
    rw [h, List.count_cons_self]
    rfl
  have hlt : f.owner c < f.size := by
    by_contra hnot
    rw [node_of_le f (Nat.le_of_not_lt hnot)] at howner
    exact absurd howner (Nat.succ_ne_zero _).symm
  refine ⟨fun k ↦ ?_, ?_⟩
  · rw [(f.samePositions_releaseRef c).held]
    by_cases hk : k = f.owner c
    · subst hk
      rw [Forest.releaseRef, node_update_self f _ hlt]
      exact congrArg (· - 1) howner
    · rw [Forest.releaseRef, node_update_of_ne f _ hk, h, List.count_cons_of_ne (Ne.symm hk)]
  · rw [refs, howner]
    exact Nat.succ_pos _

/-- Owed references are taken back one after the other, and none of the calls finds a count of
zero. -/
theorem Owes.releaseAll (h : f.Owes (cs.map f.owner)) :
    (cs.foldl Forest.releaseRef f).Conserved ∧ ∀ call ∈ f.releaseCalls cs, 0 < call.1.refs call.2 := by
  induction cs generalizing f with
  | nil => exact ⟨h, fun call hcall ↦ absurd hcall List.not_mem_nil⟩
  | cons c cs ih =>
    obtain ⟨hrest, hpos⟩ := h.releaseRef
    obtain ⟨hconserved, hcalls⟩ := ih (f := f.releaseRef c) (by
      rw [List.map_congr_left fun c' _ ↦ (f.samePositions_releaseRef c).owner c']
      exact hrest)
    exact ⟨hconserved, List.forall_mem_cons.mpr ⟨hpos, hcalls⟩⟩

/-- To strike the positions of a node leaves one reference to be taken back for each. -/
theorem Conserved.strike (h : f.Conserved) (hreleased : (f.node id).kidsReleased = false) :
    (f.update id fun n ↦ { n with kidsReleased := true }).Owes (f.kidOwners id) := by
  intro k
  generalize hg : (fun n : Node ↦ { n with kidsReleased := true }) = g
  have hskeleton := f.sameSkeleton_update id (g := g) fun _ ↦ hg ▸ rfl
  have hrefs := @update_keeps (fun n n' ↦ n'.refs = n.refs) (fun _ ↦ rfl) f id g
    (fun _ ↦ hg ▸ rfl) k
  rw [hrefs, h k, held, held, size_update]
  by_cases hid : id < f.size
  · refine sum_of_change hid fun p ↦ ?_
    rw [heldAt, heldAt, positionsAt, positionsAt, hskeleton.kidOwners]
    by_cases hp : p = id
    · subst hp
      rw [node_update_self f g hid, ← hg, hreleased, if_pos rfl]
      simp
    · rw [node_update_of_ne f g hp, if_neg hp, Nat.add_zero]
  · -- beyond the forest there are no children
    have hnone : f.node id = { op := .dummy, width := 0 } := f.node_of_le (Nat.le_of_not_lt hid)
    rw [kidOwners, hnone]
    refine Finset.sum_congr rfl fun p _ ↦ ?_
    rw [heldAt, heldAt, positionsAt, positionsAt, hskeleton.kidOwners,
      node_update_of_le f g (Nat.le_of_not_lt hid)]

/-- **Giving up children.** When a node gives up its children the books stay balanced, and no
reference is taken back from a node that has none. -/
theorem Conserved.releaseKids (h : f.Conserved) (id : NodeId) :
    (f.releaseKids id).Conserved ∧ ∀ call ∈ f.kidCalls id, 0 < call.1.refs call.2 := by
  rw [Forest.releaseKids, kidCalls]
  split
  next => exact ⟨h, fun call hcall ↦ absurd hcall List.not_mem_nil⟩
  next hreleased =>
    have hpending : (f.node id).kidsReleased = false := by simpa using hreleased
    have howes := h.strike hpending
    have hskeleton := f.sameSkeleton_update id (g := fun n ↦ { n with kidsReleased := true })
      fun _ ↦ rfl
    have howners : f.kidOwners id = (f.node id).kids.map
        (f.update id fun n ↦ { n with kidsReleased := true }).owner :=
      List.map_congr_left fun c _ ↦ (hskeleton.owner c).symm
    exact Owes.releaseAll (howners ▸ howes)

end Forest

/-! ## Leaves of patterns -/

mutual

/-- The calls by which a pattern takes references back at a node. -/
def Pattern.releaseCalls : Pattern → NodeId → Forest → List (Forest × NodeId)
  | .nt _, _, _ => []
  | .op _ kids, id, f =>
    Pattern.kidReleaseCalls kids (f.kidOwners id) f ++
      (Pattern.takeKidLeaves kids (f.kidOwners id) f).2.kidCalls id
  | .variadic _ _, id, f => f.kidCalls id

/-- The calls by which patterns take references back at corresponding nodes. -/
def Pattern.kidReleaseCalls : List Pattern → List NodeId → Forest → List (Forest × NodeId)
  | p :: ps, id :: ids, f => p.releaseCalls id f ++ Pattern.kidReleaseCalls ps ids (p.takeLeaves id f).2
  | _, _, _ => []

end

mutual

/-- **Taking leaves.** The nodes that belong to a rule give up their children with the books kept
balanced, and no reference is taken back from a node that has none. -/
theorem Pattern.takeLeaves_conserved : ∀ (p : Pattern) (id : NodeId) (f : Forest), f.Conserved →
    (p.takeLeaves id f).2.Conserved ∧ ∀ call ∈ p.releaseCalls id f, 0 < call.1.refs call.2
  | .nt _, _, _, h => ⟨h, fun call hcall ↦ absurd hcall (by simp [Pattern.releaseCalls])⟩
  | .op _ kids, id, f, h => by
    obtain ⟨hkids, hcalls⟩ := Pattern.takeKidLeaves_conserved kids (f.kidOwners id) f h
    obtain ⟨hself, hcalls'⟩ := hkids.releaseKids id
    rw [Pattern.takeLeaves, Pattern.releaseCalls]
    exact ⟨hself, List.forall_mem_append.mpr ⟨hcalls, hcalls'⟩⟩
  | .variadic _ _, id, f, h => by
    rw [Pattern.takeLeaves, Pattern.releaseCalls]
    exact h.releaseKids id

theorem Pattern.takeKidLeaves_conserved : ∀ (ps : List Pattern) (ids : List NodeId) (f : Forest),
    f.Conserved → (Pattern.takeKidLeaves ps ids f).2.Conserved ∧
      ∀ call ∈ Pattern.kidReleaseCalls ps ids f, 0 < call.1.refs call.2
  | [], _, f, h => by
    simp only [Pattern.takeKidLeaves, Pattern.kidReleaseCalls]
    exact ⟨h, fun call hcall ↦ absurd hcall List.not_mem_nil⟩
  | _ :: _, [], f, h => by
    simp only [Pattern.takeKidLeaves, Pattern.kidReleaseCalls]
    exact ⟨h, fun call hcall ↦ absurd hcall List.not_mem_nil⟩
  | p :: ps, id :: ids, f, h => by
    obtain ⟨hfirst, hcalls⟩ := Pattern.takeLeaves_conserved p id f h
    obtain ⟨hrest, hcalls'⟩ := Pattern.takeKidLeaves_conserved ps ids (p.takeLeaves id f).2 hfirst
    rw [Pattern.takeKidLeaves, Pattern.kidReleaseCalls]
    exact ⟨hrest, List.forall_mem_append.mpr ⟨hcalls, hcalls'⟩⟩

end

end TreeCover
