import Mathlib.Tactic.ByContra
import TreeCover.Forest.Basic

/-!
# The skeleton of a forest

Once a forest is built, selection changes what it knows about values, not its trees. The skeleton of
a node is what stays: its operator, its children, and what it was made from. Forests with the same
skeletons have the same owners and the same trees.
-/

namespace TreeCover

variable {f f' f'' : Forest} {k id : NodeId} {n n' : Node}

/-! ## Skeletons -/

/-- A node without the state of its value. -/
def Node.skeleton (n : Node) : Node :=
  { n with
    slot := .unassigned
    roles := {}
    refs := 0
    computed := false
    kidsReleased := false
    accesses := []
    level := 1 }

namespace Forest

/-- Who owns what depends on the aliases only. -/
theorem owner_congr (hsize : f'.size = f.size)
    (htarget : ∀ k, (f'.node k).target = (f.node k).target) (id : NodeId) :
    f'.owner id = f.owner id := by
  have hfrom : ∀ fuel id, f'.ownerFrom fuel id = f.ownerFrom fuel id := by
    intro fuel
    induction fuel with
    | zero => exact fun _ ↦ rfl
    | succ fuel ih =>
      intro id
      rw [ownerFrom, ownerFrom, htarget]
      cases (f.node id).target with
      | none => rfl
      | some t => exact ih t
  rw [owner, owner, hsize, hfrom]

/-- Forests that differ only in the states of their values. -/
structure SameSkeleton (f f' : Forest) : Prop where
  size : f'.size = f.size
  node : ∀ k, (f'.node k).skeleton = (f.node k).skeleton

namespace SameSkeleton

theorem refl (f : Forest) : SameSkeleton f f := ⟨rfl, fun _ ↦ rfl⟩

theorem trans (h : SameSkeleton f f') (h' : SameSkeleton f' f'') : SameSkeleton f f'' :=
  ⟨h'.size.trans h.size, fun k ↦ (h'.node k).trans (h.node k)⟩

theorem symm (h : SameSkeleton f f') : SameSkeleton f' f :=
  ⟨h.size.symm, fun k ↦ (h.node k).symm⟩

theorem op (h : SameSkeleton f f') (k : NodeId) : (f'.node k).op = (f.node k).op :=
  (congrArg Node.op (h.node k) :)

theorem width (h : SameSkeleton f f') (k : NodeId) : (f'.node k).width = (f.node k).width :=
  (congrArg Node.width (h.node k) :)

theorem target (h : SameSkeleton f f') (k : NodeId) : (f'.node k).target = (f.node k).target :=
  (congrArg Node.target (h.node k) :)

theorem kids (h : SameSkeleton f f') (k : NodeId) : (f'.node k).kids = (f.node k).kids :=
  (congrArg Node.kids (h.node k) :)

theorem escapes (h : SameSkeleton f f') (k : NodeId) : (f'.node k).escapes = (f.node k).escapes :=
  (congrArg Node.escapes (h.node k) :)

theorem block (h : SameSkeleton f f') (k : NodeId) : (f'.node k).block = (f.node k).block :=
  (congrArg Node.block (h.node k) :)

theorem source (h : SameSkeleton f f') (k : NodeId) : (f'.node k).source = (f.node k).source :=
  (congrArg Node.source (h.node k) :)

theorem predicate (h : SameSkeleton f f') (k : NodeId) :
    (f'.node k).predicate = (f.node k).predicate :=
  (congrArg Node.predicate (h.node k) :)

theorem phiTarget (h : SameSkeleton f f') (k : NodeId) :
    (f'.node k).phiTarget = (f.node k).phiTarget :=
  (congrArg Node.phiTarget (h.node k) :)

theorem owner (h : SameSkeleton f f') (id : NodeId) : f'.owner id = f.owner id :=
  owner_congr h.size h.target id

theorem kidOwners (h : SameSkeleton f f') (id : NodeId) : f'.kidOwners id = f.kidOwners id := by
  rw [Forest.kidOwners, Forest.kidOwners, h.kids]
  exact List.map_congr_left fun k _ ↦ h.owner k

end SameSkeleton

/-! ## Updates -/

@[simp]
theorem size_update (f : Forest) (id : NodeId) (g : Node → Node) : (f.update id g).size = f.size :=
  Array.size_modify

theorem node_update_of_ne (f : Forest) (g : Node → Node) (h : k ≠ id) :
    (f.update id g).node k = f.node k := by
  rw [node, update, Array.getElem?_modify, if_neg h.symm, node]

theorem node_update_self (f : Forest) (g : Node → Node) (h : id < f.size) :
    (f.update id g).node id = g (f.node id) := by
  rw [node, update, Array.getElem?_modify, if_pos rfl, node, Array.getElem?_eq_getElem h]
  rfl

theorem node_update_of_le (f : Forest) (g : Node → Node) (h : f.size ≤ id) :
    (f.update id g).node k = f.node k := by
  rw [node, update, Array.getElem?_modify, node]
  split
  next heq =>
    subst heq
    rw [Array.getElem?_eq_none h]
    rfl
  next => rfl

/-- An update changes one node, or none. -/
theorem node_update_cases (f : Forest) (id k : NodeId) (g : Node → Node) :
    k = id ∧ (f.update id g).node k = g (f.node k) ∨ (f.update id g).node k = f.node k := by
  by_cases hk : k = id
  · subst hk
    by_cases hlt : k < f.size
    · exact Or.inl ⟨rfl, f.node_update_self g hlt⟩
    · exact Or.inr (f.node_update_of_le g (Nat.le_of_not_lt hlt))
  · exact Or.inr (f.node_update_of_ne g hk)

/-- What every update of a node keeps holds of all nodes afterwards. -/
theorem update_keeps {R : Node → Node → Prop} (hrefl : ∀ n, R n n) (f : Forest) (id : NodeId)
    {g : Node → Node} (hg : ∀ n, R n (g n)) (k : NodeId) :
    R (f.node k) ((f.update id g).node k) := by
  rcases f.node_update_cases id k g with ⟨-, h⟩ | h
  · rw [h]
    exact hg _
  · rw [h]
    exact hrefl _

theorem sameSkeleton_update (f : Forest) (id : NodeId) {g : Node → Node}
    (hg : ∀ n, (g n).skeleton = n.skeleton) : SameSkeleton f (f.update id g) :=
  ⟨size_update f id g,
    @update_keeps (fun n n' ↦ n'.skeleton = n.skeleton) (fun _ ↦ rfl) f id g hg⟩

/-! ## Aliases -/

/-- An alias stands for an older node that is none. -/
def Flat (f : Forest) : Prop :=
  ∀ k t, (f.node k).target = some t → t < k ∧ (f.node t).target = none

theorem ownerFrom_of_target (h : (f.node k).target = none) (fuel : Nat) :
    f.ownerFrom fuel k = k := by
  cases fuel with
  | zero => rfl
  | succ fuel => rw [ownerFrom, h]

theorem owner_of_target (h : (f.node k).target = none) : f.owner k = k := ownerFrom_of_target h _

theorem Flat.owner_alias (hflat : f.Flat) {t : NodeId} (h : (f.node k).target = some t) :
    f.owner k = t := by
  have hk : k < f.size := by
    by_contra hle
    rw [node, Array.getElem?_eq_none (Nat.le_of_not_lt hle)] at h
    exact absurd h (by simp)
  obtain ⟨n, hn⟩ : ∃ n, f.size = n + 1 := Nat.exists_eq_succ_of_ne_zero (Nat.ne_zero_of_lt hk)
  rw [owner, hn, ownerFrom, h]
  exact ownerFrom_of_target (hflat k t h).2 n

theorem Flat.target_owner (hflat : f.Flat) (k : NodeId) : (f.node (f.owner k)).target = none := by
  cases h : (f.node k).target with
  | none => rwa [owner_of_target h]
  | some t =>
    rw [hflat.owner_alias h]
    exact (hflat k t h).2

theorem SameSkeleton.flat (h : SameSkeleton f f') (hflat : f.Flat) : f'.Flat := by
  intro k t ht
  rw [h.target] at ht ⊢
  exact hflat k t ht

theorem Flat.owner_owner (hflat : f.Flat) (k : NodeId) : f.owner (f.owner k) = f.owner k :=
  owner_of_target (hflat.target_owner k)

/-! ## Growth -/

theorem node_of_le (f : Forest) (h : f.size ≤ k) : f.node k = { op := .dummy, width := 0 } := by
  rw [node, Array.getElem?_eq_none h, Option.getD_none]

theorem lt_size_of_op {f : Forest} {op : NodeOp} (hop : (f.node k).op = op) (hne : op ≠ .dummy) :
    k < f.size := by
  by_contra hle
  rw [f.node_of_le (Nat.le_of_not_lt hle)] at hop
  exact hne hop.symm

@[simp]
theorem size_push (f : Forest) (n : Node) : (f.push n).2.size = f.size + 1 := Array.size_push n

theorem node_push_of_lt (f : Forest) (n : Node) (h : k < f.size) :
    (f.push n).2.node k = f.node k := by
  rw [node, push, Array.getElem?_push_lt h, node, Array.getElem?_eq_getElem h]

@[simp]
theorem node_push_self (f : Forest) (n : Node) : (f.push n).2.node f.size = n := by
  rw [node, push, size, Array.getElem?_push_size, Option.getD_some]

/-- A new node comes last, and the others stay. -/
theorem node_push_cases (f : Forest) (n : Node) (k : NodeId) :
    k = f.size ∧ (f.push n).2.node k = n ∨ k ≠ f.size ∧ (f.push n).2.node k = f.node k := by
  rcases Nat.lt_trichotomy k f.size with hlt | rfl | hgt
  · exact Or.inr ⟨Nat.ne_of_lt hlt, f.node_push_of_lt n hlt⟩
  · exact Or.inl ⟨rfl, f.node_push_self n⟩
  · refine Or.inr ⟨Nat.ne_of_gt hgt, ?_⟩
    rw [node_of_le _ (by rw [size_push]; exact hgt), node_of_le _ (Nat.le_of_lt hgt)]

end Forest

end TreeCover
