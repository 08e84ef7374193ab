import Mathlib.Algebra.Order.BigOperators.Group.List
import Mathlib.Algebra.Order.Group.Nat
import TreeCover.Proofs.Flow.Search
import TreeCover.Proofs.Forest.Declared

/-!
# What is pending in a tree

The log of accesses is consulted for all nodes of a tree that are not computed: those that a search finds
below its root. Main statement: `mem_pending_iff`.
-/

namespace TreeCover

variable {g g' : Forest} {k p q r : NodeId}

/-! ## What is pending -/

namespace Forest

/-- A child that is not computed. -/
def Hangs (g : Forest) (p k : NodeId) : Prop := k ∈ g.kidOwners p ∧ (g.node k).computed = false

/-- A node that is pending, and what is pending below it. -/
def HangsBelow (g : Forest) (r q : NodeId) : Prop :=
  (g.node r).computed = false ∧ Relation.ReflTransGen g.Hangs r q

theorem HangsBelow.refl (h : (g.node r).computed = false) : g.HangsBelow r r := ⟨h, .refl⟩

theorem HangsBelow.tail (h : g.HangsBelow r p) (hq : g.Hangs p q) : g.HangsBelow r q := ⟨h.1, h.2.tail hq⟩

theorem mem_pendingOf {ks : List NodeId} :
    k ∈ g.pendingOf ks ↔ k ∈ ks ∧ (g.node k).computed = false := by
  rw [pendingOf, List.mem_filter, Bool.not_eq_true']

theorem toList_nodes (g : Forest) : g.nodes.toList = (List.range g.size).map g.node := by
  refine List.ext_getElem (by simp [size]) fun k hk hk' ↦ ?_
  have hlt : k < g.nodes.size := by simpa using hk
  rw [List.getElem_map, List.getElem_range, Array.getElem_toList, node,
    Array.getElem?_eq_getElem hlt, Option.getD_some]

theorem length_pendingOf_le (g : Forest) :
    ((List.range g.size).flatMap fun k ↦ g.pendingOf (g.kidOwners k)).length ≤ g.edgeCount := by
  rw [edgeCount, toList_nodes, List.flatMap_map, List.length_flatMap, List.length_flatMap]
  refine List.sum_le_sum fun k _ ↦ (List.length_filter_le _ _).trans (Nat.le_of_eq ?_)
  rw [kidOwners, List.length_map]

/-- What is pending in a tree. -/
theorem mem_pending_iff : q ∈ g.pending k ↔ g.HangsBelow (g.owner k) q := by
  have hnext : ∀ a, g.size ≤ a → g.pendingOf (g.kidOwners a) = [] := by
    intro a ha
    rw [kidOwners, node_of_le g ha]
    rfl
  have hwork : (g.pendingOf [g.owner k]).length ≤ 1 := List.length_filter_le _ _
  have hedges := Nat.le_trans (unexplored_length_le _ g.size .empty) g.length_pendingOf_le
  have hfuel : (g.pendingOf [g.owner k]).length +
      (unexplored (fun a ↦ g.pendingOf (g.kidOwners a)) g.size .empty).length ≤ g.edgeCount + 2 :=
    Nat.le_trans (Nat.add_le_add hwork hedges) (by omega)
  obtain ⟨hstart, hclosed⟩ := reach_closed hnext hfuel
  constructor
  · intro hq
    refine reach_induction (P := g.HangsBelow (g.owner k)) (fun a _ ha c hc ↦ ?_) (fun a ha ↦ ?_)
      (fun a ha ↦ ?_) q hq
    · exact ha.tail (mem_pendingOf.mp hc)
    · exact absurd ha List.not_mem_nil
    · obtain ⟨ha, hpending⟩ := mem_pendingOf.mp ha
      obtain rfl := List.mem_singleton.mp ha
      exact .refl hpending
  · rintro ⟨hpending, hpath⟩
    induction hpath with
    | refl => exact hstart (mem_pendingOf.mpr ⟨List.mem_singleton_self _, hpending⟩)
    | tail _ hstep ih =>
      exact (hclosed _ ih).resolve_left List.not_mem_nil (mem_pendingOf.mpr hstep)

/-- What is computed further only takes from what is pending. -/
theorem SameSkeleton.below (h : g.SameSkeleton g')
    (hkeeps : ∀ k, (g.node k).computed = true → (g'.node k).computed = true) (hq : g'.HangsBelow r q) :
    g.HangsBelow r q := by
  have hpending : ∀ {k}, (g'.node k).computed = false → (g.node k).computed = false := by
    intro k hk
    by_contra hnot
    exact absurd (hk.symm.trans (hkeeps k (by simpa using hnot))) Bool.false_ne_true
  refine ⟨hpending hq.1, Relation.ReflTransGen.mono (fun p c hc ↦ ?_) _ _ hq.2⟩
  exact ⟨h.kidOwners p ▸ hc.1, hpending hc.2⟩

end Forest

/-! ## Logs -/

/-- A read on top of a write. -/
theorem readsAfterWrite_of_suffix {n : Node} {old : List Access} (h : .read :: old <:+ n.accesses)
    (hold : .write ∈ old) : n.readsAfterWrite = true := by
  obtain ⟨new, hnew⟩ := h
  rw [Node.readsAfterWrite, ← hnew, List.dropWhile_append]
  split
  next => simpa using hold
  next => simp [hold]

end TreeCover
