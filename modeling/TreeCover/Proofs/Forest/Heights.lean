import Mathlib.Data.Finset.Card
import Mathlib.Data.Finset.Range
import Mathlib.Order.Bounds.Basic
import TreeCover.Proofs.Forest.Skeleton
import TreeCover.Proofs.Lists

/-!
# Heights

The height of a node is the length of the longest way down from it. A way leads from a node to one of
its children, and ends where it comes to a node that is computed. Heights are found for all nodes of a
tree in one pass that visits each of them once, and they come out as they are defined. Main statement:
`isHeight_refreshLevel`.
-/

namespace TreeCover.Forest

variable {g : Forest} {k c id : NodeId} {n h fuel : Nat} {known known' : List (NodeId × Nat)}

/-- A way down from a node, through that many nodes. -/
inductive Descent (g : Forest) : NodeId → Nat → Prop
  | here (k : NodeId) : Descent g k 1
  | step {k c : NodeId} {n : Nat} (hnot : (g.node k).computed = false) (hkid : c ∈ g.kidOwners k)
      (hdown : Descent g c n) : Descent g k (n + 1)

/-- The height of a node is the length of the longest way down. -/
def IsHeight (g : Forest) (k : NodeId) (h : Nat) : Prop := IsGreatest {n | g.Descent k n} h

/-- The height of a computed or childless node is one. -/
theorem isHeight_one (hleaf : (g.node k).computed = true ∨ (g.node k).kids = []) :
    g.IsHeight k 1 := by
  refine ⟨.here k, fun n hn ↦ ?_⟩
  cases hn with
  | here => exact Nat.le_refl 1
  | step hnot hkid _ =>
    rcases hleaf with hcomputed | hkids
    · exact absurd (hcomputed.symm.trans hnot) (by simp)
    · rw [kidOwners, hkids] at hkid
      exact absurd hkid List.not_mem_nil

/-- The height of any other node is one more than that of its highest child. -/
theorem isHeight_succ {height : NodeId → Nat} (hnot : (g.node k).computed = false)
    (hkids : (g.node k).kids ≠ []) (hheights : ∀ c ∈ g.kidOwners k, g.IsHeight c (height c)) :
    g.IsHeight k (1 + ((g.kidOwners k).map height).foldl max 0) := by
  have hmax := (le_foldl_max ((g.kidOwners k).map height) 0).2
  have hle : ∀ c ∈ g.kidOwners k, height c ≤ ((g.kidOwners k).map height).foldl max 0 :=
    fun c hc ↦ hmax _ (List.mem_map_of_mem hc)
  constructor
  · -- the child that the maximum is attained at
    obtain ⟨c, hc, heq⟩ : ∃ c ∈ g.kidOwners k,
        height c = ((g.kidOwners k).map height).foldl max 0 := by
      rcases foldl_max_mem ((g.kidOwners k).map height) 0 with hzero | hmem
      · obtain ⟨c, hc⟩ := List.exists_mem_of_ne_nil (g.kidOwners k)
          (mt List.map_eq_nil_iff.mp hkids)
        exact ⟨c, hc, Nat.le_antisymm (hle c hc) (hzero.symm ▸ Nat.zero_le _)⟩
      · exact List.mem_map.mp hmem
    rw [← heq, Nat.add_comm]
    exact Descent.step hnot hc (hheights c hc).1
  · intro n hn
    cases hn with
    | here => exact Nat.le_add_right 1 _
    | step _ hkid hdown =>
      have hn := Nat.le_trans ((hheights _ hkid).2 hdown) (hle _ hkid)
      omega

/-! ## Heights that are known -/

/-- All heights in a table are right. -/
def Heights (g : Forest) (known : List (NodeId × Nat)) : Prop :=
  ∀ k h, known.lookup k = some h → g.IsHeight k h

theorem Heights.cons (hknown : g.Heights known) (hk : g.IsHeight k h) :
    g.Heights ((k, h) :: known) := by
  intro k' h' hlookup
  rw [List.lookup_cons] at hlookup
  split at hlookup
  next heq =>
    obtain rfl := Option.some.inj hlookup
    rwa [beq_iff_eq.mp heq]
  next => exact hknown k' h' hlookup

/-- From `known` to `known'` heights are added, and all of them are right. -/
structure Adds (g : Forest) (known known' : List (NodeId × Nat)) : Prop where
  heights : g.Heights known'
  keeps : ∀ k, (known.lookup k).isSome → (known'.lookup k).isSome

theorem Adds.cons (hknown : g.Adds known known') (hk : g.IsHeight k h) :
    g.Adds known ((k, h) :: known') where
  heights := hknown.heights.cons hk
  keeps k' hk' := by
    rw [List.lookup_cons]
    split
    next => rfl
    next => exact hknown.keeps k' hk'

/-- Trees one after another, each of which gets its height. -/
theorem adds_foldl {add : List (NodeId × Nat) → NodeId → List (NodeId × Nat)} {ks : List NodeId}
    (hadd : ∀ k ∈ ks, ∀ known, g.Heights known →
      g.Adds known (add known k) ∧ ((add known k).lookup k).isSome)
    (hknown : g.Heights known) :
    g.Adds known (ks.foldl add known) ∧ ∀ k ∈ ks, ((ks.foldl add known).lookup k).isSome := by
  induction ks generalizing known with
  | nil => exact ⟨⟨hknown, fun _ h ↦ h⟩, fun _ hk ↦ absurd hk List.not_mem_nil⟩
  | cons k ks ih =>
    obtain ⟨⟨hright, hkeeps⟩, hself⟩ := hadd k List.mem_cons_self known hknown
    obtain ⟨hrest, hall⟩ := ih (fun k hk ↦ hadd k (List.mem_cons_of_mem _ hk)) hright
    rw [List.foldl_cons]
    exact ⟨⟨hrest.heights, fun k' hk' ↦ hrest.keeps k' (hkeeps k' hk')⟩,
      List.forall_mem_cons.mpr ⟨hrest.keeps k hself, hall⟩⟩

/-- **Heights.** With fuel for every way down, all heights that are found are right, and the node is
among those that have one. -/
theorem adds_levelsFrom (hknown : g.Heights known) (hfuel : ∀ n, g.Descent id n → n ≤ fuel) :
    g.Adds known (g.levelsFrom fuel known id) ∧
      ((g.levelsFrom fuel known id).lookup id).isSome := by
  induction fuel generalizing known id with
  | zero => exact absurd (hfuel 1 (.here id)) (by simp)
  | succ fuel ih =>
    have hself : ∀ (known : List (NodeId × Nat)) h, (((id, h) :: known).lookup id).isSome := by
      intro known h
      rw [List.lookup_cons, beq_self_eq_true]
      rfl
    have hold : g.Adds known known := ⟨hknown, fun _ h ↦ h⟩
    rw [levelsFrom]
    split
    next hfound => exact ⟨hold, hfound⟩
    next hfound =>
      split
      next hleaf =>
        exact ⟨hold.cons (isHeight_one (by simpa using hleaf)), hself known 1⟩
      next hinner =>
        simp only [Bool.or_eq_true, List.isEmpty_iff, not_or, Bool.not_eq_true] at hinner
        have hkids : ∀ c ∈ g.kidOwners id, ∀ known, g.Heights known →
            g.Adds known (g.levelsFrom fuel known c) ∧
              ((g.levelsFrom fuel known c).lookup c).isSome :=
          fun c hc known hknown ↦ ih hknown fun n hn ↦
            Nat.le_of_succ_le_succ (hfuel (n + 1) (.step hinner.1 hc hn))
        obtain ⟨hadds, hall⟩ := adds_foldl hkids hknown
        refine ⟨hadds.cons (isHeight_succ hinner.1 hinner.2 fun c hc ↦ ?_), hself _ _⟩
        obtain ⟨h, hh⟩ := Option.isSome_iff_exists.mp (hall c hc)
        rw [hh, Option.getD_some]
        exact hadds.heights c h hh

/-- A way down goes through different nodes, and all of them but the last have children. -/
theorem Descent.le_size {rank : NodeId → Nat} {S : NodeId → Prop}
    (hfalls : ∀ p, S p → ∀ c ∈ g.kidOwners p, S c ∧ rank c < rank p) (hS : S k)
    (hdown : g.Descent k n) : n ≤ g.size + 1 := by
  suffices hnodes : ∃ ks : Finset NodeId, ks.card + 1 = n ∧ ∀ x ∈ ks, x < g.size ∧ rank x ≤ rank k by
    obtain ⟨ks, rfl, hks⟩ := hnodes
    have hsubset : ks ⊆ Finset.range g.size := fun x hx ↦ Finset.mem_range.mpr (hks x hx).1
    exact Nat.succ_le_succ (Nat.le_trans (Finset.card_le_card hsubset)
      (Nat.le_of_eq (Finset.card_range g.size)))
  induction hdown with
  | here k => exact ⟨∅, rfl, fun x hx ↦ absurd hx (Finset.notMem_empty x)⟩
  | @step k c n _ hkid _ ih =>
    obtain ⟨hc, hlt⟩ := hfalls k hS c hkid
    obtain ⟨ks, rfl, hks⟩ := ih hc
    have hfresh : k ∉ ks := fun hk ↦ Nat.lt_irrefl _ (Nat.lt_of_lt_of_le hlt (hks k hk).2)
    refine ⟨insert k ks, by rw [Finset.card_insert_of_notMem hfresh], fun x hx ↦ ?_⟩
    rcases Finset.mem_insert.mp hx with rfl | hx
    · refine ⟨?_, Nat.le_refl _⟩
      by_contra hle
      rw [kidOwners, node, Array.getElem?_eq_none (Nat.le_of_not_lt hle)] at hkid
      exact absurd hkid List.not_mem_nil
    · exact ⟨(hks x hx).1, Nat.le_trans (hks x hx).2 (Nat.le_of_lt hlt)⟩

/-- The height that a tree is found to have is that of its root. -/
theorem isHeight_refreshLevel (hdown : ∀ n, g.Descent (g.owner id) n → n ≤ g.size + 1) :
    g.IsHeight (g.owner id) (g.refreshLevel id).1 := by
  have hnone : g.Heights [] := fun k h hlookup ↦ by simp at hlookup
  obtain ⟨hadds, hself⟩ := adds_levelsFrom hnone hdown
  obtain ⟨h, hh⟩ := Option.isSome_iff_exists.mp hself
  rw [refreshLevel, hh, Option.getD_some]
  exact hadds.heights _ h hh

/-- Bringing a height up to date changes nothing else. -/
theorem kept_refreshLevel {β : Type} {h : Node → β} (hh : ∀ n level, h { n with level } = h n)
    (g : Forest) (id k : NodeId) : h ((g.refreshLevel id).2.node k) = h (g.node k) := by
  rw [refreshLevel]
  generalize g.levelsFrom (g.size + 1) [] (g.owner id) = levels
  induction levels generalizing g with
  | nil => rfl
  | cons x levels ih =>
    exact (ih (g.update x.1 fun n ↦ { n with level := x.2 })).trans
      (@update_keeps (fun n n' ↦ h n' = h n) (fun _ ↦ rfl) g x.1 _ (fun n ↦ hh n x.2) k)

end TreeCover.Forest
