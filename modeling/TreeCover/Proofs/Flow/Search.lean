import Mathlib.Data.List.Basic
import Mathlib.Data.List.Flatten
import Mathlib.Data.List.Perm.Subperm
import Mathlib.Logic.Relation
import TreeCover.Flow.Loops

/-!
# Paths and searches

A path is the list of blocks that control passes on its way from the entry, latest first, so that
going one edge further is `List.cons` and what happened earlier is the tail. A block dominates
another if every path to the other one contains it.

Paths are kept with all their repetitions. A path that comes back to a block can be cut there,
which is the only fact about cycles that the layout argument needs.

## Searches find all there is

Both searches of a flow graph run on fuel. For each there is a quantity that every step lowers:
for the collection of a set from a work list it is the work still listed plus the work that the
nodes not seen yet would add, for the depth-first walk the number of blocks not opened yet. Where
the fuel is at least that quantity it never runs out, and the result is closed under the relation
that was followed.

From this come the two facts the loop structure rests on: the walk closes every reachable block,
and the body of a loop consists of its header and the blocks that lead to the tail around it.
-/

namespace TreeCover

/-! ## Paths from the entry -/

namespace FlowGraph

variable {g : FlowGraph} {a b c : Nat} {p : List Nat}

/-- An edge between two blocks of the graph; a successor outside the table leads nowhere. -/
def Edge (g : FlowGraph) (a b : Nat) : Prop := b ∈ g.succs a ∧ b < g.length

/-- `g.IsPath p b` says that `p` lists, latest first, the blocks of a path from the entry to `b`. -/
inductive IsPath (g : FlowGraph) : List Nat → Nat → Prop where
  | entry : IsPath g [0] 0
  | step {p : List Nat} {a b : Nat} : IsPath g p a → g.Edge a b → IsPath g (b :: p) b

/-- Whether control can get to a block at all. -/
def Reachable (g : FlowGraph) (b : Nat) : Prop := ∃ p, g.IsPath p b

/-- Every path to `b` contains `a`. -/
def Dominates (g : FlowGraph) (a b : Nat) : Prop := ∀ p, g.IsPath p b → a ∈ p

theorem Edge.lt_length (h : g.Edge a b) : b < g.length := h.2

theorem Edge.source_lt_length (h : g.Edge a b) : a < g.length := by
  by_contra hlt
  have hnil : g.succs a = [] := by
    rw [succs, List.getElem?_eq_none (Nat.le_of_not_lt hlt), Option.getD_none]
  have hmem := h.1
  rw [hnil] at hmem
  exact List.not_mem_nil hmem

theorem Reachable.entry (g : FlowGraph) : g.Reachable 0 := ⟨[0], .entry⟩

theorem Reachable.step (ha : g.Reachable a) (h : g.Edge a b) : g.Reachable b := by
  obtain ⟨p, hp⟩ := ha
  exact ⟨b :: p, hp.step h⟩

theorem IsPath.head? (h : g.IsPath p b) : p.head? = some b := by
  cases h with
  | entry => rfl
  | step _ _ => rfl

theorem IsPath.target_mem (h : g.IsPath p b) : b ∈ p := List.mem_of_mem_head? h.head?

theorem IsPath.entry_mem (h : g.IsPath p b) : 0 ∈ p := by
  induction h with
  | entry => exact List.mem_cons_self
  | step _ _ ih => exact List.mem_cons_of_mem _ ih

/-- A path ends at every block it contains, if it is cut there. -/
theorem IsPath.exists_suffix (h : g.IsPath p b) (ha : a ∈ p) : ∃ q, q <:+ p ∧ g.IsPath q a := by
  induction h with
  | entry =>
    obtain rfl := List.mem_singleton.mp ha
    exact ⟨[0], List.suffix_refl _, .entry⟩
  | @step p c b hp hedge ih =>
    rcases List.mem_cons.mp ha with rfl | ha
    · exact ⟨a :: p, List.suffix_refl _, hp.step hedge⟩
    · obtain ⟨q, hq, hqa⟩ := ih ha
      exact ⟨q, hq.trans (List.suffix_cons b p), hqa⟩

theorem Reachable.of_mem_path (h : g.IsPath p b) (ha : a ∈ p) : g.Reachable a := by
  obtain ⟨q, -, hq⟩ := h.exists_suffix ha
  exact ⟨q, hq⟩

theorem Reachable.lt_length (hne : g ≠ []) (h : g.Reachable b) : b < g.length := by
  obtain ⟨p, hp⟩ := h
  cases hp with
  | entry => exact List.length_pos_iff.mpr hne
  | step _ hedge => exact hedge.lt_length

/-! ## Dominance -/

theorem Dominates.refl (g : FlowGraph) (a : Nat) : g.Dominates a a := fun _ hp ↦ hp.target_mem

theorem Dominates.entry (g : FlowGraph) (a : Nat) : g.Dominates 0 a := fun _ hp ↦ hp.entry_mem

theorem Dominates.trans (hab : g.Dominates a b) (hbc : g.Dominates b c) : g.Dominates a c := by
  intro p hp
  obtain ⟨q, hq, hqb⟩ := hp.exists_suffix (hbc p hp)
  exact hq.subset (hab q hqb)

/-- A strict dominator of a block dominates all its predecessors. -/
theorem Dominates.of_edge (h : g.Dominates a b) (hne : a ≠ b) (hedge : g.Edge c b) :
    g.Dominates a c := by
  intro p hp
  rcases List.mem_cons.mp (h (b :: p) (hp.step hedge)) with rfl | hmem
  · exact absurd rfl hne
  · exact hmem

end FlowGraph

/-! ## Collecting from a work list -/

section Reach

variable {next : Nat → List Nat} {n fuel : Nat} {work : List Nat} {seen : NodeSet}

/-- The work that the nodes below `n` outside `seen` would add. -/
def unexplored (next : Nat → List Nat) (n : Nat) (seen : NodeSet) : List Nat :=
  ((List.range n).filter fun a ↦ !seen.contains a).flatMap next

theorem unexplored_length_le (next : Nat → List Nat) (n : Nat) (seen : NodeSet) :
    (unexplored next n seen).length ≤ ((List.range n).flatMap next).length :=
  (List.Sublist.flatMap List.filter_sublist next).length_le

/-- Seeing a node moves its successors from the unexplored work to the list. -/
theorem unexplored_insert_length (hnext : ∀ a, n ≤ a → next a = []) {a : Nat}
    (ha : seen.contains a = false) :
    (unexplored next n (seen.insert a)).length + (next a).length
      = (unexplored next n seen).length := by
  have hkeep : ∀ b, ((seen.insert a).contains b) = (seen.contains b || decide (a = b)) :=
    fun b ↦ NodeSet.testBit_or_shift _ _ _
  by_cases hn : n ≤ a
  · have hfilter : (List.range n).filter (fun b ↦ !(seen.insert a).contains b)
        = (List.range n).filter fun b ↦ !seen.contains b := by
      refine List.filter_congr fun b hb ↦ ?_
      have hne : a ≠ b := by have := List.mem_range.mp hb; omega
      simp [hkeep, hne]
    rw [unexplored, hfilter, hnext a hn, List.length_nil, Nat.add_zero, unexplored]
  · have hmem : a ∈ (List.range n).filter fun b ↦ !seen.contains b := by
      rw [List.mem_filter, List.mem_range]
      exact ⟨by omega, by simp [ha]⟩
    have hnodup : ((List.range n).filter fun b ↦ !seen.contains b).Nodup :=
      List.nodup_range.filter _
    have herase : ((List.range n).filter fun b ↦ !seen.contains b).erase a
        = (List.range n).filter fun b ↦ !(seen.insert a).contains b := by
      rw [hnodup.erase_eq_filter, List.filter_filter]
      refine List.filter_congr fun b _ ↦ ?_
      rw [hkeep, Bool.not_or, Bool.and_comm]
      by_cases hab : a = b
      · subst hab
        simp
      · have hba : b ≠ a := fun h ↦ hab h.symm
        simp [hab, hba]
    have hperm := ((List.perm_cons_erase hmem).flatMap_right next).length_eq
    rw [herase, List.flatMap_cons, List.length_append] at hperm
    rw [unexplored, unexplored, hperm, Nat.add_comm]

/-- With enough fuel all work is done and all that it leads to is seen. -/
theorem reach_closed (hnext : ∀ a, n ≤ a → next a = []) :
    ∀ {fuel : Nat} {work : List Nat} {seen : NodeSet},
      work.length + (unexplored next n seen).length ≤ fuel →
      work ⊆ (reach next fuel work seen).members ∧
        ∀ a ∈ (reach next fuel work seen).members,
          a ∈ seen.members ∨ next a ⊆ (reach next fuel work seen).members := by
  intro fuel
  induction fuel with
  | zero =>
    intro work seen hfuel
    obtain rfl : work = [] := List.length_eq_zero_iff.mp (by omega)
    exact ⟨List.nil_subset _, fun a ha ↦ Or.inl ha⟩
  | succ fuel ih =>
    intro work seen hfuel
    cases work with
    | nil => exact ⟨List.nil_subset _, fun a ha ↦ Or.inl ha⟩
    | cons a work =>
      rw [List.length_cons] at hfuel
      rw [reach]
      split
      next hseen =>
        obtain ⟨hwork, hclosed⟩ := @ih work seen (by omega)
        refine ⟨List.cons_subset.mpr ⟨?_, hwork⟩, hclosed⟩
        exact subset_reach next fuel work seen (NodeSet.contains_iff.mp hseen)
      next hseen =>
        have hless := unexplored_insert_length hnext (Bool.eq_false_iff.mpr hseen)
        obtain ⟨hwork, hclosed⟩ := @ih (next a ++ work) (seen.insert a)
          (by rw [List.length_append]; omega)
        obtain ⟨hnew, hold⟩ := List.append_subset.mp hwork
        have hkept := subset_reach next fuel (next a ++ work) (seen.insert a)
        refine ⟨List.cons_subset.mpr ⟨hkept List.mem_cons_self, hold⟩, fun b hb ↦ ?_⟩
        rcases hclosed b hb with hb | hb
        · rcases List.mem_cons.mp hb with rfl | hb
          · exact Or.inr hnew
          · exact Or.inl hb
        · exact Or.inr hb

/-- What holds of the work and is handed on by nodes outside `seen` holds of all that is seen. -/
theorem reach_induction {P : Nat → Prop} (hstep : ∀ a, a ∉ seen.members → P a → ∀ b ∈ next a, P b)
    (hseen : ∀ a ∈ seen.members, P a) (hwork : ∀ a ∈ work, P a) :
    ∀ a ∈ (reach next fuel work seen).members, P a := by
  induction fuel generalizing work seen with
  | zero => exact hseen
  | succ fuel ih =>
    cases work with
    | nil => exact hseen
    | cons a work =>
      obtain ⟨ha, hwork⟩ := List.forall_mem_cons.mp hwork
      rw [reach]
      split
      next => exact ih hstep hseen hwork
      next hnew =>
        have hnew : a ∉ seen.members := fun h ↦ hnew (NodeSet.contains_iff.mpr h)
        refine ih (fun b hb ↦ hstep b fun h ↦ hb (List.mem_cons_of_mem _ h)) ?_ ?_
        · exact List.forall_mem_cons.mpr ⟨ha, hseen⟩
        · intro b hb
          rcases List.mem_append.mp hb with hb | hb
          · exact hstep a hnew ha b hb
          · exact hwork b hb

end Reach

namespace FlowGraph

variable {g : FlowGraph} {a b t h : Nat}

/-! ## Loop bodies -/

theorem mem_preds_iff : a ∈ g.preds b ↔ b ∈ g.succs a := by
  simp only [preds, List.mem_flatMap, List.mem_map, List.mem_filter, beq_iff_eq, Prod.exists,
    List.mem_zipIdx_iff_getElem?]
  constructor
  · rintro ⟨targets, a', hrow, t, ⟨ht, rfl⟩, rfl⟩
    rw [succs, hrow, Option.getD_some]
    exact ht
  · intro hb
    cases hrow : g[a]? with
    | none => simp [succs, hrow] at hb
    | some targets =>
      rw [succs, hrow, Option.getD_some] at hb
      exact ⟨targets, a, hrow, b, ⟨hb, rfl⟩, rfl⟩

/-- All edges, each with its target first. -/
private def edgesByTarget (g : FlowGraph) : List (Nat × Nat) :=
  g.zipIdx.flatMap fun (targets, a) ↦ targets.map fun t ↦ (t, a)

private theorem preds_eq_filter (g : FlowGraph) (b : Nat) :
    g.preds b = (g.edgesByTarget.filter (·.1 == b)).map (·.2) := by
  rw [preds, edgesByTarget, List.filter_flatMap, List.map_flatMap]
  refine List.flatMap_congr fun row _ ↦ ?_
  rw [List.filter_map, List.map_map]
  rfl

private theorem length_edgesByTarget (g : FlowGraph) : g.edgesByTarget.length = g.edgeCount := by
  have hrows : ∀ (rows : FlowGraph) (k : Nat),
      ((rows.zipIdx k).flatMap fun (targets, a) ↦ targets.map fun t ↦ (t, a)).length
        = rows.flatten.length := by
    intro rows
    induction rows with
    | nil => intro k; rfl
    | cons row rows ih =>
      intro k
      rw [List.zipIdx_cons, List.flatMap_cons, List.length_append, ih, List.flatten_cons,
        List.length_append, List.length_map]
  exact hrows g 0

private theorem length_filter_lt_succ (es : List (Nat × Nat)) (n : Nat) :
    (es.filter fun e ↦ decide (e.1 < n)).length + (es.filter fun e ↦ e.1 == n).length
      = (es.filter fun e ↦ decide (e.1 < n + 1)).length := by
  induction es with
  | nil => rfl
  | cons e es ih =>
    simp only [List.filter_cons, decide_eq_true_eq, beq_iff_eq, apply_ite List.length,
      List.length_cons]
    split_ifs <;> omega

private theorem length_filter_keys (es : List (Nat × Nat)) (n : Nat) :
    ((List.range n).flatMap fun b ↦ es.filter fun e ↦ e.1 == b).length
      = (es.filter fun e ↦ decide (e.1 < n)).length := by
  induction n with
  | zero => simp
  | succ n ih =>
    rw [List.range_succ, List.flatMap_append, List.length_append, ih, List.flatMap_singleton,
      length_filter_lt_succ]

/-- The blocks of a graph have no more predecessors than there are edges. -/
theorem length_flatMap_preds_le (g : FlowGraph) (n : Nat) :
    ((List.range n).flatMap g.preds).length ≤ g.edgeCount := by
  have hpreds : ((List.range n).flatMap g.preds).length
      = ((List.range n).flatMap fun b ↦ g.edgesByTarget.filter fun e ↦ e.1 == b).length := by
    rw [List.length_flatMap, List.length_flatMap]
    simp only [preds_eq_filter, List.length_map]
  rw [hpreds, length_filter_keys, ← length_edgesByTarget]
  exact List.length_filter_le _ _

/-- One step towards a block of a loop that does not come through its header. -/
def EdgeAround (g : FlowGraph) (h a b : Nat) : Prop := g.Edge a b ∧ b ≠ h

/-- Whether `a` leads to `t` along blocks other than `h`. -/
def LeadsAround (g : FlowGraph) (h a t : Nat) : Prop := Relation.ReflTransGen (g.EdgeAround h) a t

theorem header_mem_loopBody : h ∈ g.loopBody t h :=
  subset_reach _ _ _ _ List.mem_cons_self

private theorem exists_bound (l : List Nat) : ∃ n, ∀ a ∈ l, a < n := by
  induction l with
  | nil => exact ⟨0, by simp⟩
  | cons b l ih =>
    obtain ⟨n, hn⟩ := ih
    refine ⟨max n (b + 1), List.forall_mem_cons.mpr ⟨by omega, fun a ha ↦ ?_⟩⟩
    have := hn a ha
    omega

theorem mem_flatten_of_mem_succs (hb : b ∈ g.succs a) : b ∈ g.flatten := by
  cases hrow : g[a]? with
  | none => simp [succs, hrow] at hb
  | some row =>
    rw [succs, hrow, Option.getD_some] at hb
    exact List.mem_flatten_of_mem (List.mem_of_getElem? hrow) hb

/-- The fuel of the search is enough: a loop body contains the tail, and with every block but the
header its predecessors. -/
theorem loopBody_closed (g : FlowGraph) (t h : Nat) :
    t ∈ g.loopBody t h ∧ ∀ a ∈ g.loopBody t h, a = h ∨ g.preds a ⊆ g.loopBody t h := by
  obtain ⟨n, hn⟩ := exists_bound g.flatten
  have hnext : ∀ a, n ≤ a → g.preds a = [] := by
    intro a ha
    refine List.eq_nil_iff_forall_not_mem.mpr fun b hb ↦ ?_
    have := hn a (mem_flatten_of_mem_succs (mem_preds_iff.mp hb))
    omega
  have hfuel : [t].length + (unexplored g.preds n (.singleton h)).length ≤ g.edgeCount + 2 := by
    have h₁ := unexplored_length_le g.preds n (.singleton h)
    have h₂ := length_flatMap_preds_le g n
    rw [List.length_singleton]
    omega
  obtain ⟨hwork, hclosed⟩ := reach_closed hnext hfuel
  refine ⟨hwork List.mem_cons_self, fun a ha ↦ ?_⟩
  rcases hclosed a ha with hseen | hpreds
  · exact Or.inl (List.mem_singleton.mp hseen)
  · exact Or.inr hpreds

/-- A loop consists of its header and the blocks that lead to the tail around the header. -/
theorem mem_loopBody_iff (ht : t < g.length) :
    a ∈ g.loopBody t h ↔ a = h ∨ g.LeadsAround h a t := by
  obtain ⟨htail, hclosed⟩ := loopBody_closed g t h
  constructor
  · intro ha
    suffices hinv : (a = h ∨ g.LeadsAround h a t) ∧ a < g.length ∨ a = h by
      rcases hinv with ⟨hinv, -⟩ | rfl
      · exact hinv
      · exact Or.inl rfl
    refine reach_induction (P := fun a ↦ (a = h ∨ g.LeadsAround h a t) ∧ a < g.length ∨ a = h)
      ?_ ?_ ?_ a ha
    · intro b hb hP c hc
      have hbh : b ≠ h := fun hbh ↦ hb (List.mem_singleton.mpr hbh)
      obtain ⟨hlead, hlt⟩ := hP.resolve_right hbh
      have hedge : g.Edge c b := ⟨mem_preds_iff.mp hc, hlt⟩
      exact Or.inl ⟨Or.inr ((hlead.resolve_left hbh).head ⟨hedge, hbh⟩), hedge.source_lt_length⟩
    · intro b hb
      exact Or.inr (List.mem_singleton.mp hb)
    · intro b hb
      obtain rfl := List.mem_singleton.mp hb
      exact Or.inl ⟨Or.inr .refl, ht⟩
  · rintro (rfl | hlead)
    · exact header_mem_loopBody
    · induction hlead using Relation.ReflTransGen.head_induction_on with
      | refl => exact htail
      | head hstep _ ih =>
        rcases hclosed _ ih with hheader | hpreds
        · exact absurd hheader hstep.2
        · exact hpreds (mem_preds_iff.mpr hstep.1.1)

/-! ## The depth-first walk -/

/-- The blocks that a walk has not opened. -/
def unopened (g : FlowGraph) (w : Walk) : List Nat :=
  (List.range g.length).filter fun a ↦ decide (a ∉ w.opened)

/-- What one visit adds to a walk: every block it opens is closed, with its edges followed. -/
structure Walk.Extends (g : FlowGraph) (w w' : Walk) : Prop where
  opened_subset : w.opened ⊆ w'.opened
  closed_subset : w.closed ⊆ w'.closed
  closes : ∀ a ∈ w'.opened, a ∉ w.opened →
    a ∈ w'.closed ∧ ∀ b, g.Edge a b → b ∈ w'.opened

theorem Walk.Extends.refl (g : FlowGraph) (w : Walk) : w.Extends g w :=
  ⟨fun _ h ↦ h, fun _ h ↦ h, fun _ h hn ↦ absurd h hn⟩

theorem Walk.Extends.trans {w₁ w₂ w₃ : Walk} (h₁₂ : w₁.Extends g w₂) (h₂₃ : w₂.Extends g w₃) :
    w₁.Extends g w₃ := by
  refine ⟨fun _ h ↦ h₂₃.opened_subset (h₁₂.opened_subset h),
    fun _ h ↦ h₂₃.closed_subset (h₁₂.closed_subset h), fun a ha hn ↦ ?_⟩
  by_cases ha₂ : a ∈ w₂.opened
  · obtain ⟨hclosed, hedges⟩ := h₁₂.closes a ha₂ hn
    exact ⟨h₂₃.closed_subset hclosed, fun b hb ↦ h₂₃.opened_subset (hedges b hb)⟩
  · exact h₂₃.closes a ha ha₂

theorem length_unopened_le {w w' : Walk} (h : w.opened ⊆ w'.opened) :
    (g.unopened w').length ≤ (g.unopened w).length := by
  rw [unopened, unopened, ← List.countP_eq_length_filter, ← List.countP_eq_length_filter]
  refine List.countP_mono_left fun a _ ha ↦ ?_
  rw [decide_eq_true_eq] at ha ⊢
  exact fun hmem ↦ ha (h hmem)

/-- Opening a block leaves fewer blocks to open. -/
theorem length_unopened_lt {w : Walk} (hb : b < g.length) (hnew : b ∉ w.opened) :
    (g.unopened { w with opened := b :: w.opened }).length < (g.unopened w).length := by
  have hmem : b ∈ g.unopened w := by
    rw [unopened, List.mem_filter, List.mem_range]
    exact ⟨hb, decide_eq_true hnew⟩
  have hsub : g.unopened { w with opened := b :: w.opened } ⊆ (g.unopened w).erase b := by
    intro a ha
    rw [unopened, List.mem_filter, decide_eq_true_eq, List.mem_cons, not_or] at ha
    rw [List.mem_erase_of_ne ha.2.1, unopened, List.mem_filter, decide_eq_true_eq]
    exact ⟨ha.1, ha.2.2⟩
  have hnodup : (g.unopened { w with opened := b :: w.opened }).Nodup :=
    List.nodup_range.filter _
  have hle := (List.subperm_of_subset hnodup hsub).length_le
  rw [List.length_erase_of_mem hmem] at hle
  have hpos := List.length_pos_of_mem hmem
  omega

/-- Follows one edge of the open block `b`. -/
def follow (g : FlowGraph) (fuel b : Nat) (w : Walk) (t : Nat) : Walk :=
  if g.length ≤ t then w
  else if t ∉ w.opened then g.visit fuel t w
  else if t ∉ w.closed then { w with backEdges := w.backEdges ++ [(b, t)] }
  else w

theorem visit_succ (g : FlowGraph) (fuel b : Nat) (w : Walk) :
    g.visit (fuel + 1) b w =
      { (g.succs b).foldl (g.follow fuel b) { w with opened := b :: w.opened } with
        closed := b :: ((g.succs b).foldl (g.follow fuel b)
          { w with opened := b :: w.opened }).closed } := rfl

/-- A visit with enough fuel closes the block it is made to, and all that it opens on the way. -/
theorem visit_extends : ∀ {fuel : Nat} {b : Nat} {w : Walk}, b < g.length → b ∉ w.opened →
    (g.unopened w).length ≤ fuel → w.Extends g (g.visit fuel b w) ∧
      b ∈ (g.visit fuel b w).opened := by
  intro fuel
  induction fuel with
  | zero =>
    intro b w hb hnew hfuel
    have := length_unopened_lt hb hnew
    omega
  | succ fuel ih =>
    intro b w hb hnew hfuel
    have hfollow : ∀ (w : Walk) (t : Nat), (g.unopened w).length ≤ fuel →
        w.Extends g (g.follow fuel b w t) ∧ (t < g.length → t ∈ (g.follow fuel b w t).opened) := by
      intro w t hw
      rw [follow]
      split
      next hout => exact ⟨.refl g w, fun ht ↦ absurd ht (by omega)⟩
      next hin =>
        split
        next hopen =>
          obtain ⟨hext, hmem⟩ := ih (by omega) hopen hw
          exact ⟨hext, fun _ ↦ hmem⟩
        next hopen =>
          have hopen := not_not.mp hopen
          split
          next => exact ⟨⟨fun _ h ↦ h, fun _ h ↦ h, fun _ h hn ↦ absurd h hn⟩, fun _ ↦ hopen⟩
          next => exact ⟨.refl g w, fun _ ↦ hopen⟩
    have hfold : ∀ (ts : List Nat) (w : Walk), (g.unopened w).length ≤ fuel →
        w.Extends g (ts.foldl (g.follow fuel b) w) ∧
          ∀ t ∈ ts, t < g.length → t ∈ (ts.foldl (g.follow fuel b) w).opened := by
      intro ts
      induction ts with
      | nil => exact fun w _ ↦ ⟨.refl g w, fun t ht ↦ absurd ht List.not_mem_nil⟩
      | cons t ts iht =>
        intro w hw
        obtain ⟨hfirst, hmem⟩ := hfollow w t hw
        obtain ⟨hrest, hall⟩ := iht (g.follow fuel b w t)
          (Nat.le_trans (length_unopened_le hfirst.opened_subset) hw)
        refine ⟨hfirst.trans hrest, List.forall_mem_cons.mpr ⟨fun ht ↦ ?_, hall⟩⟩
        exact hrest.opened_subset (hmem ht)
    have hless := length_unopened_lt hb hnew
    obtain ⟨hext, hall⟩ := hfold (g.succs b) { w with opened := b :: w.opened } (by omega)
    rw [visit_succ]
    refine ⟨⟨fun a ha ↦ hext.opened_subset (List.mem_cons_of_mem b ha),
      fun a ha ↦ List.mem_cons_of_mem b (hext.closed_subset ha), fun a ha hn ↦ ?_⟩,
      hext.opened_subset List.mem_cons_self⟩
    by_cases hab : a = b
    · subst hab
      exact ⟨List.mem_cons_self, fun t ht ↦ hall t ht.1 ht.2⟩
    · obtain ⟨hclosed, hedges⟩ := hext.closes a ha (List.not_mem_cons_of_ne_of_not_mem hab hn)
      exact ⟨List.mem_cons_of_mem b hclosed, hedges⟩

/-- The walk from the entry closes every block that can be reached. -/
theorem mem_closed_walk (hne : g ≠ []) (hb : g.Reachable b) : b ∈ g.walk.closed := by
  have hwalk : g.walk = g.visit g.length 0 {} := by
    rw [walk, if_neg (by rwa [List.isEmpty_iff])]
  have hfuel : (g.unopened {}).length ≤ g.length := by
    have hle := List.length_filter_le (fun a ↦ decide (a ∉ ({} : Walk).opened)) (List.range g.length)
    rwa [List.length_range] at hle
  obtain ⟨hext, hentry⟩ :=
    visit_extends (List.length_pos_iff.mpr hne) List.not_mem_nil hfuel
  rw [hwalk]
  obtain ⟨p, hp⟩ := hb
  -- Every opened block of the walk is closed, since none was open at its start.
  suffices hopened : b ∈ (g.visit g.length 0 {}).opened from
    (hext.closes b hopened List.not_mem_nil).1
  induction hp with
  | entry => exact hentry
  | step _ hedge ih => exact (hext.closes _ ih List.not_mem_nil).2 _ hedge

end FlowGraph

end TreeCover
