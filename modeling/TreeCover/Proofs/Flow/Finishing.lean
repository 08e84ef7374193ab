import TreeCover.Proofs.Flow.Layout
import TreeCover.Proofs.Flow.Search

/-!
# The order in which blocks are closed

At every moment of the walk its blocks stand in one line: the open ones from the entry up, then the closed
ones, latest first. Opening a block puts it into this line behind the block on top of the stack, and
closing the block on top does not change the line at all, so what stands before what is never revised.
An edge to an open block leads backwards in the line and is a back edge; every other edge that is followed
leads to a block behind its source.

When the walk ends the line is its result. So the back edges are the edges that lead backwards in the
order, and without them there is no way back.
-/

namespace TreeCover

/-! ## The walk with an explicit stack

The depth-first walk nests one visit in the other. Here it goes step by step instead: the open blocks
stand on a stack, the latest on top, each with the number of its successors that have been followed, and a
step follows one more successor of the block on top or closes that block. A visit is a run of this machine
from the moment its block is put on the stack to the moment it is taken off again, so the machine halts
with the result of the walk, and any fuel that is not too little gives the same walk. -/

namespace FlowGraph

variable {g : FlowGraph} {b k t fuel : Nat} {w : Walk} {below : List (Nat × Nat)}

/-- A walk under way: its open blocks, the latest first, each with the number of its successors that
have been followed, and what has been seen. -/
structure Descent where
  stack : List (Nat × Nat)
  walk : Walk

namespace Descent

/-- Follows one more successor of the block on top, or closes the block if there is none. -/
def step (g : FlowGraph) : Descent → Option Descent
  | ⟨[], _⟩ => none
  | ⟨(b, k) :: below, w⟩ =>
    match (g.succs b)[k]? with
    | none => some ⟨below, { w with closed := b :: w.closed }⟩
    | some t =>
      if g.length ≤ t then some ⟨(b, k + 1) :: below, w⟩
      else if t ∉ w.opened then
        some ⟨(t, 0) :: (b, k + 1) :: below, { w with opened := t :: w.opened }⟩
      else if t ∉ w.closed then
        some ⟨(b, k + 1) :: below, { w with backEdges := w.backEdges ++ [(b, t)] }⟩
      else some ⟨(b, k + 1) :: below, w⟩

/-- The entry is open, and nothing has been followed. -/
def start : Descent := ⟨[(0, 0)], { opened := [0] }⟩

/-- Any number of steps. -/
def Steps (g : FlowGraph) : Descent → Descent → Prop :=
  Relation.ReflTransGen fun d d' ↦ d.step g = some d'

variable {d d' : Descent}

/-- Only an empty stack stops the walk. -/
theorem step_eq_none_iff : d.step g = none ↔ d.stack = [] := by
  obtain ⟨_ | ⟨⟨b, k⟩, below⟩, w⟩ := d
  · exact iff_of_true rfl rfl
  · refine iff_of_false ?_ (List.cons_ne_nil _ _)
    rw [step]
    split
    · exact Option.some_ne_none _
    · split_ifs <;> simp

theorem step_close (hk : (g.succs b)[k]? = none) :
    step g ⟨(b, k) :: below, w⟩ = some ⟨below, { w with closed := b :: w.closed }⟩ := by
  rw [step, hk]

theorem step_follow (hk : (g.succs b)[k]? = some t) :
    step g ⟨(b, k) :: below, w⟩ =
      if g.length ≤ t then some ⟨(b, k + 1) :: below, w⟩
      else if t ∉ w.opened then
        some ⟨(t, 0) :: (b, k + 1) :: below, { w with opened := t :: w.opened }⟩
      else if t ∉ w.closed then
        some ⟨(b, k + 1) :: below, { w with backEdges := w.backEdges ++ [(b, t)] }⟩
      else some ⟨(b, k + 1) :: below, w⟩ := by
  rw [step, hk]

/-- A walk that has stopped does not depend on how it got there. -/
theorem Steps.halted_unique {d₁ d₂ : Descent} (h₁ : d.Steps g d₁) (h₂ : d.Steps g d₂)
    (hd₁ : d₁.stack = []) (hd₂ : d₂.stack = []) : d₁ = d₂ := by
  have hstuck : ∀ {d d' : Descent}, d.stack = [] → d.Steps g d' → d = d' := by
    intro d d' hd h
    rcases h.cases_head with heq | ⟨c, hc, -⟩
    · exact heq
    · rw [step_eq_none_iff.mpr hd] at hc
      exact absurd hc (Option.some_ne_none c).symm
  have hunique : Relator.RightUnique fun d d' : Descent ↦ d.step g = some d' :=
    fun _ _ _ h h' ↦ Option.some.inj (h.symm.trans h')
  rcases Relation.ReflTransGen.total_of_right_unique hunique h₁ h₂ with h | h
  · exact hstuck hd₁ h
  · exact (hstuck hd₂ h).symm

end Descent

open Descent

/-! ## A visit as a run -/

/-- With fuel for all blocks that are not open, a visit runs from its block on the stack to the stack
below it. -/
theorem steps_visit (hb : b < g.length) (hnew : b ∉ w.opened)
    (hfuel : (g.unopened w).length ≤ fuel) (below : List (Nat × Nat)) :
    Steps g ⟨(b, 0) :: below, { w with opened := b :: w.opened }⟩ ⟨below, g.visit fuel b w⟩ := by
  induction fuel generalizing b w below with
  | zero =>
    have := length_unopened_lt hb hnew
    omega
  | succ fuel ih =>
    have hless := length_unopened_lt hb hnew
    have hfollow : ∀ (k : Nat) (v : Walk) (t : Nat), (g.succs b)[k]? = some t →
        (g.unopened v).length ≤ fuel →
        Steps g ⟨(b, k) :: below, v⟩ ⟨(b, k + 1) :: below, g.follow fuel b v t⟩ ∧
          (g.unopened (g.follow fuel b v t)).length ≤ fuel := by
      intro k v t hk hv
      have hstep : step g ⟨(b, k) :: below, v⟩ = _ := step_follow hk
      by_cases hout : g.length ≤ t
      · rw [if_pos hout] at hstep
        rw [follow, if_pos hout]
        exact ⟨.single hstep, hv⟩
      rw [if_neg hout] at hstep
      rw [follow, if_neg hout]
      by_cases hopen : t ∉ v.opened
      · rw [if_pos hopen] at hstep ⊢
        have ht : t < g.length := Nat.lt_of_not_le hout
        have hgrown : (g.unopened (g.visit fuel t v)).length ≤ (g.unopened v).length :=
          length_unopened_le (visit_extends ht hopen hv).1.opened_subset
        exact ⟨.head hstep (ih ht hopen hv _), Nat.le_trans hgrown hv⟩
      rw [if_neg hopen] at hstep ⊢
      split_ifs at hstep ⊢ <;> exact ⟨.single hstep, hv⟩
    -- The successors from the `k`-th on are what the fold of the visit has still to go through.
    have hfold : ∀ (ts : List Nat) (k : Nat) (v : Walk), (g.succs b).drop k = ts →
        (g.unopened v).length ≤ fuel →
        Steps g ⟨(b, k) :: below, v⟩
          ⟨below, { ts.foldl (g.follow fuel b) v with
            closed := b :: (ts.foldl (g.follow fuel b) v).closed }⟩ := by
      intro ts
      induction ts with
      | nil =>
        intro k v hk _
        exact .single (step_close (List.getElem?_eq_none (List.drop_eq_nil_iff.mp hk)))
      | cons t ts iht =>
        intro k v hk hv
        have ht : (g.succs b)[k]? = some t := by
          rw [← Nat.add_zero k, ← List.getElem?_drop, hk, List.getElem?_cons_zero]
        have hts : (g.succs b).drop (k + 1) = ts := by rw [← List.tail_drop, hk, List.tail_cons]
        obtain ⟨hrun, hroom⟩ := hfollow k v t ht hv
        exact hrun.trans (iht (k + 1) _ hts hroom)
    exact hfold (g.succs b) 0 _ List.drop_zero (by omega)

theorem length_unopened_empty_le (g : FlowGraph) : (g.unopened {}).length ≤ g.length :=
  Nat.le_trans (List.length_filter_le _ _) (Nat.le_of_eq List.length_range)

/-- **The walk halts**, with every block taken off the stack again. -/
theorem steps_walk (hne : g ≠ []) : start.Steps g ⟨[], g.walk⟩ := by
  rw [walk, if_neg (by rwa [List.isEmpty_iff])]
  exact steps_visit (List.length_pos_iff.mpr hne) List.not_mem_nil (length_unopened_empty_le g) []

/-- More fuel than there are blocks makes no other walk. -/
theorem visit_eq_walk (hne : g ≠ []) (hfuel : g.length ≤ fuel) : g.visit fuel 0 {} = g.walk := by
  have hrun : start.Steps g ⟨[], g.visit fuel 0 {}⟩ :=
    steps_visit (List.length_pos_iff.mpr hne) List.not_mem_nil
      (Nat.le_trans (length_unopened_empty_le g) hfuel) []
  exact congrArg Descent.walk (hrun.halted_unique (steps_walk hne) rfl rfl)

end FlowGraph

namespace FlowGraph

variable {g : FlowGraph} {a b k t u v : Nat} {w : Walk} {below : List (Nat × Nat)}

namespace Descent

variable {d d' : Descent}

/-- The blocks seen, in the order the walk would give them if it closed what is open now. -/
def line (d : Descent) : List Nat := (d.stack.map (·.1)).reverse ++ d.walk.closed

/-- The edge from `u` to `v` has been looked at. -/
def Followed (g : FlowGraph) (d : Descent) (u v : Nat) : Prop :=
  u ∈ d.walk.closed ∧ v ∈ g.succs u ∨ ∃ k, (u, k) ∈ d.stack ∧ v ∈ (g.succs u).take k

/-- Each block stands in the line once, the entry first, and the edges followed so far are back edges
or lead forwards in it, but not both. -/
structure Classified (g : FlowGraph) (d : Descent) : Prop where
  nodup : d.line.Nodup
  mem_opened : ∀ a, a ∈ d.walk.opened ↔ a ∈ d.line
  entry : d.line.head? = some 0
  back : ∀ u v, (u, v) ∈ d.walk.backEdges → v = u ∨ [v, u].Sublist d.line
  forth : ∀ u v, d.Followed g u v → v < g.length →
    (u, v) ∈ d.walk.backEdges ∨ [u, v].Sublist d.line

theorem classified_start : start.Classified g where
  nodup := List.nodup_singleton 0
  mem_opened := fun _ ↦ Iff.rfl
  entry := rfl
  back := nofun
  forth := by
    rintro u v (⟨hu, -⟩ | ⟨k, hk, hv⟩)
    · exact absurd hu List.not_mem_nil
    · obtain ⟨rfl, rfl⟩ := Prod.mk.inj (List.mem_singleton.mp hk)
      exact absurd hv List.not_mem_nil

/-! ## What each step keeps -/

/-- The block on top moves from the stack to the closed ones, which is the next place of the line. -/
theorem Classified.close (hd : Classified g ⟨(b, k) :: below, w⟩) (hk : (g.succs b)[k]? = none) :
    Classified g ⟨below, { w with closed := b :: w.closed }⟩ := by
  have hline : line ⟨below, { w with closed := b :: w.closed }⟩ = line ⟨(b, k) :: below, w⟩ := by
    simp [line]
  refine ⟨hline ▸ hd.nodup, hline ▸ hd.mem_opened, hline ▸ hd.entry, hline ▸ hd.back, ?_⟩
  rw [hline]
  intro u v huv
  apply hd.forth u v
  rcases huv with ⟨hu, hv⟩ | ⟨j, hj, hv⟩
  · rcases List.mem_cons.mp hu with rfl | hu
    · refine Or.inr ⟨k, List.mem_cons_self, ?_⟩
      rwa [List.take_of_length_le (List.getElem?_eq_none_iff.mp hk)]
    · exact Or.inl ⟨hu, hv⟩
  · exact Or.inr ⟨j, List.mem_cons_of_mem _ hj, hv⟩

/-- One more successor of an open block is followed. -/
theorem Classified.advance (above : List (Nat × Nat))
    (hd : Classified g ⟨above ++ (b, k) :: below, w⟩)
    (hk : (g.succs b)[k]? = some t)
    (ht : t < g.length → (b, t) ∈ w.backEdges ∨ [b, t].Sublist (line ⟨above ++ (b, k) :: below, w⟩)) :
    Classified g ⟨above ++ (b, k + 1) :: below, w⟩ := by
  have hline : line ⟨above ++ (b, k + 1) :: below, w⟩ = line ⟨above ++ (b, k) :: below, w⟩ := by
    simp [line]
  refine ⟨hline ▸ hd.nodup, hline ▸ hd.mem_opened, hline ▸ hd.entry, hline ▸ hd.back, ?_⟩
  rw [hline]
  rintro u v (huv | ⟨j, hj, hv⟩) hlt
  · exact hd.forth u v (Or.inl huv) hlt
  · rcases List.mem_append.mp hj with hj | hj
    · exact hd.forth u v (Or.inr ⟨j, List.mem_append_left _ hj, hv⟩) hlt
    · rcases List.mem_cons.mp hj with heq | hj
      · obtain ⟨rfl, rfl⟩ := Prod.mk.inj heq
        rw [List.take_add_one, hk, Option.toList_some, List.mem_append, List.mem_singleton] at hv
        rcases hv with hv | rfl
        · exact hd.forth u v (Or.inr ⟨k, List.mem_append_right _ List.mem_cons_self, hv⟩) hlt
        · exact ht hlt
      · exact hd.forth u v
          (Or.inr ⟨j, List.mem_append_right _ (List.mem_cons_of_mem _ hj), hv⟩) hlt

/-- A block is opened from the one on top, right behind it in the line. -/
theorem Classified.enter (hd : Classified g ⟨(b, k) :: below, w⟩) (hnew : t ∉ w.opened) :
    Classified g ⟨(t, 0) :: (b, k) :: below, { w with opened := t :: w.opened }⟩ ∧
      [b, t].Sublist (line ⟨(t, 0) :: (b, k) :: below, { w with opened := t :: w.opened }⟩) := by
  obtain ⟨hnodup, hmem, hentry, hback, hforth⟩ := hd
  have hold : line ⟨(b, k) :: below, w⟩ = (below.map (·.1)).reverse ++ ([b] ++ w.closed) := by
    simp [line]
  have hline : line ⟨(t, 0) :: (b, k) :: below, { w with opened := t :: w.opened }⟩
      = (below.map (·.1)).reverse ++ ([b] ++ t :: w.closed) := by simp [line]
  have hsub : (line ⟨(b, k) :: below, w⟩).Sublist
      (line ⟨(t, 0) :: (b, k) :: below, { w with opened := t :: w.opened }⟩) := by
    rw [hold, hline]
    exact .append (.refl _) (.append (.refl _) (List.sublist_cons_self t _))
  have hperm : (line ⟨(t, 0) :: (b, k) :: below, { w with opened := t :: w.opened }⟩).Perm
      (t :: line ⟨(b, k) :: below, w⟩) := by
    rw [hold, hline, ← List.append_assoc, ← List.append_assoc]
    exact List.perm_middle
  refine ⟨⟨?_, fun a ↦ ?_, ?_, fun u v he ↦ ?_, ?_⟩, ?_⟩
  · rw [hperm.nodup_iff, List.nodup_cons]
    exact ⟨fun ht ↦ hnew ((hmem t).mpr ht), hnodup⟩
  · rw [hperm.mem_iff, List.mem_cons, List.mem_cons, hmem]
  · rw [hold] at hentry
    rw [hline]
    cases hbelow : (below.map (·.1)).reverse with
    | nil => rwa [hbelow] at hentry
    | cons c cs => rwa [hbelow] at hentry
  · exact (hback u v he).imp_right fun h ↦ h.trans hsub
  · rintro u v (huv | ⟨j, hj, hv⟩) hlt
    · exact (hforth u v (Or.inl huv) hlt).imp_right fun h ↦ h.trans hsub
    · rcases List.mem_cons.mp hj with heq | hj
      · obtain ⟨rfl, rfl⟩ := Prod.mk.inj heq
        exact absurd hv List.not_mem_nil
      · exact (hforth u v (Or.inr ⟨j, hj, hv⟩) hlt).imp_right fun h ↦ h.trans hsub
  · rw [hline]
    refine List.sublist_append_of_sublist_right (.append (.refl [b]) ?_)
    exact List.singleton_sublist.mpr List.mem_cons_self

/-- An edge from the block on top to an open block is put down as a back edge. -/
theorem Classified.addBackEdge (hd : Classified g ⟨(b, k) :: below, w⟩) (hopen : t ∈ w.opened)
    (hnot : t ∉ w.closed) :
    Classified g ⟨(b, k) :: below, { w with backEdges := w.backEdges ++ [(b, t)] }⟩ where
  nodup := hd.nodup
  mem_opened := hd.mem_opened
  entry := hd.entry
  back := by
    intro u v he
    rcases List.mem_append.mp he with he | he
    · exact hd.back u v he
    · obtain ⟨rfl, rfl⟩ := Prod.mk.inj (List.mem_singleton.mp he)
      have hmem := (hd.mem_opened v).mp hopen
      rw [line, List.mem_append, or_iff_left hnot, List.map_cons, List.reverse_cons] at hmem
      rcases List.mem_append.mp hmem with hmem | hmem
      · have hbelow : [v].Sublist (below.map (·.1)).reverse := List.singleton_sublist.mpr hmem
        refine Or.inr ?_
        rw [line, List.map_cons, List.reverse_cons]
        exact List.sublist_append_of_sublist_left (hbelow.append (.refl [u]))
      · exact Or.inl (List.mem_singleton.mp hmem)
  forth := fun u v huv hlt ↦
    (hd.forth u v huv hlt).imp_left fun he ↦ List.mem_append_left _ he

theorem Classified.step (hd : d.Classified g) (h : d.step g = some d') : d'.Classified g := by
  obtain ⟨_ | ⟨⟨b, k⟩, below⟩, w⟩ := d
  · exact absurd h (by rw [step_eq_none_iff.mpr rfl]; exact (Option.some_ne_none d').symm)
  cases hk : (g.succs b)[k]? with
  | none =>
    rw [step_close hk, Option.some.injEq] at h
    exact h ▸ hd.close hk
  | some t =>
    rw [step_follow hk] at h
    by_cases hout : g.length ≤ t
    · rw [if_pos hout, Option.some.injEq] at h
      exact h ▸ hd.advance [] hk fun hlt ↦ absurd hlt (Nat.not_lt.mpr hout)
    rw [if_neg hout] at h
    by_cases hnew : t ∉ w.opened
    · rw [if_pos hnew, Option.some.injEq] at h
      obtain ⟨hentered, hbehind⟩ := hd.enter hnew
      exact h ▸ hentered.advance [(t, 0)] hk fun _ ↦ Or.inr hbehind
    rw [if_neg hnew] at h
    have hopen : t ∈ w.opened := not_not.mp hnew
    by_cases hclosed : t ∉ w.closed
    · rw [if_pos hclosed, Option.some.injEq] at h
      refine h ▸ (hd.addBackEdge hopen hclosed).advance [] hk fun _ ↦ Or.inl ?_
      exact List.mem_append_right _ List.mem_cons_self
    · rw [if_neg hclosed, Option.some.injEq] at h
      have htop : [b].Sublist (((b, k) :: below).map (·.1)).reverse :=
        List.singleton_sublist.mpr (by simp)
      have hbehind := htop.append (List.singleton_sublist.mpr (not_not.mp hclosed))
      exact h ▸ hd.advance [] hk fun _ ↦ Or.inr hbehind

theorem Classified.steps (hd : d.Classified g) (h : d.Steps g d') : d'.Classified g := by
  induction h with
  | refl => exact hd
  | tail _ hstep ih => exact ih.step hstep

end Descent

/-! ## The finished walk -/

theorem classified_walk (hne : g ≠ []) : Descent.Classified g ⟨[], g.walk⟩ :=
  Descent.classified_start.steps (steps_walk hne)

/-- The walk closes the blocks that can be reached. -/
theorem mem_closed_walk_iff (hne : g ≠ []) : b ∈ g.walk.closed ↔ g.Reachable b := by
  refine ⟨fun hb ↦ ?_, mem_closed_walk hne⟩
  have hordered := ordered_walk hne
  refine hordered.path_induction (.entry g) ?_ b (hordered.closed_subset hb)
  exact fun a b ha hedge _ ↦ ha.step hedge

end FlowGraph

namespace Loops

open FlowGraph

variable {g : FlowGraph} {b u v : Nat}

/-! ## Back edges by the order -/

/-- An edge out of a reachable block is a back edge if its target stands at or before its source in the
order. -/
theorem mem_backEdges_iff (hne : g ≠ []) (hu : g.Reachable u) (hv : v ∈ g.succs u) :
    (u, v) ∈ (Loops.of g).backEdges ↔
      v ∈ (Loops.of g).order ∧ (Loops.of g).order.idxOf v ≤ (Loops.of g).order.idxOf u := by
  have hwalk := classified_walk hne
  constructor
  · intro hback
    have hlt : v < g.length := (edge_of_mem_backEdges hback).2.lt_length
    refine ⟨(mem_closed_walk_iff hne).mpr (hu.step ⟨hv, hlt⟩), ?_⟩
    rcases hwalk.back u v hback with rfl | hbefore
    · exact Nat.le_refl _
    · exact Nat.le_of_lt (idxOf_lt_of_sublist hwalk.nodup hbefore)
  · rintro ⟨hmem, hle⟩
    have hlt : v < g.length := ((mem_closed_walk_iff hne).mp hmem).lt_length hne
    have hfollowed : Descent.Followed g ⟨[], g.walk⟩ u v :=
      Or.inl ⟨(mem_closed_walk_iff hne).mpr hu, hv⟩
    rcases hwalk.forth u v hfollowed hlt with hback | hbehind
    · exact hback
    · exact absurd (idxOf_lt_of_sublist hwalk.nodup hbehind) (Nat.not_lt.mpr hle)

/-- An edge out of a reachable block that is not a back edge. -/
def Onward (l : Loops) (u v : Nat) : Prop :=
  l.graph.Reachable u ∧ v ∈ l.graph.succs u ∧ (u, v) ∉ l.backEdges

/-- An edge that is not a back edge leads forwards in the order, or out of the graph. -/
theorem Onward.idxOf_lt (hne : g ≠ []) (h : (Loops.of g).Onward u v) :
    (Loops.of g).order.idxOf u < (Loops.of g).order.idxOf v := by
  obtain ⟨hu, hv, hnot⟩ := h
  rw [mem_backEdges_iff hne hu hv, not_and, Nat.not_le] at hnot
  by_cases hmem : v ∈ (Loops.of g).order
  · exact hnot hmem
  · rw [List.idxOf_eq_length hmem]
    exact List.idxOf_lt_length_iff.mpr ((mem_closed_walk_iff hne).mpr hu)

/-- Without back edges no way leads back to where it started. -/
theorem not_transGen_onward (hne : g ≠ []) (b : Nat) :
    ¬Relation.TransGen (Loops.of g).Onward b b := by
  intro hcycle
  have hlt : ∀ {u v}, Relation.TransGen (Loops.of g).Onward u v →
      (Loops.of g).order.idxOf u < (Loops.of g).order.idxOf v := by
    intro u v h
    induction h with
    | single h => exact h.idxOf_lt hne
    | tail _ h ih => exact ih.trans (h.idxOf_lt hne)
  exact Nat.lt_irrefl _ (hlt hcycle)

theorem isForwardLayout_iff (hne : g ≠ []) :
    (Loops.of g).isForwardLayout = true ↔ ∀ u v, (Loops.of g).Onward u v → u < v := by
  simp only [isForwardLayout, List.all_eq_true, Bool.or_eq_true, decide_eq_true_eq,
    List.contains_iff_mem]
  constructor
  · rintro hall u v ⟨hu, hv, hnot⟩
    exact (hall u ((mem_closed_walk_iff hne).mpr hu) v hv).resolve_right hnot
  · intro hall u hu v hv
    by_cases hback : (u, v) ∈ (Loops.of g).backEdges
    · exact Or.inr hback
    · exact Or.inl (hall u v ⟨(mem_closed_walk_iff hne).mp hu, hv, hback⟩)

/-- **The depth-first order and its back edges.** The walk of a graph that has blocks halts, and any
fuel from the number of blocks on gives the same result. It lists every reachable block once, the entry
first; its back edges are the edges out of reachable blocks that do not lead forwards in this order,
and without them there is no cycle. The layout is forward if every edge left leads to a larger block. -/
theorem order_classifies_edges (hne : g ≠ []) :
    (Descent.start.Steps g ⟨[], g.walk⟩ ∧ ∀ fuel, g.length ≤ fuel → g.visit fuel 0 {} = g.walk) ∧
    ((Loops.of g).order.Nodup ∧ (∀ b, b ∈ (Loops.of g).order ↔ g.Reachable b) ∧
      (Loops.of g).order.head? = some 0) ∧
    (∀ u v, g.Reachable u → v ∈ g.succs u → ((u, v) ∈ (Loops.of g).backEdges ↔
      v ∈ (Loops.of g).order ∧ (Loops.of g).order.idxOf v ≤ (Loops.of g).order.idxOf u)) ∧
    (∀ b, ¬Relation.TransGen (Loops.of g).Onward b b) ∧
    ((Loops.of g).isForwardLayout = true ↔ ∀ u v, (Loops.of g).Onward u v → u < v) := by
  have hwalk := classified_walk hne
  refine ⟨⟨steps_walk hne, fun fuel hfuel ↦ visit_eq_walk hne hfuel⟩, ⟨hwalk.nodup, ?_, hwalk.entry⟩,
    ?_, not_transGen_onward hne, isForwardLayout_iff hne⟩
  · exact fun b ↦ mem_closed_walk_iff hne
  · exact fun u v hu hv ↦ mem_backEdges_iff hne hu hv

/-- A graph with a self loop, a repeated edge, one out of the graph and a block out of reach. -/
theorem order_classifies_edges_nested :
    [[1, 1, 7], [1, 2], [0], [0]] ≠ ([] : FlowGraph) ∧
    (Loops.of [[1, 1, 7], [1, 2], [0], [0]]).order = [0, 1, 2] ∧
    (Loops.of [[1, 1, 7], [1, 2], [0], [0]]).backEdges = [(1, 1), (2, 0)] ∧
    ((Loops.of [[1, 1, 7], [1, 2], [0], [0]]).isForwardLayout = true ↔
      ∀ u v, (Loops.of [[1, 1, 7], [1, 2], [0], [0]]).Onward u v → u < v) := by
  refine ⟨by decide, by decide, by decide, ?_⟩
  exact (order_classifies_edges (g := [[1, 1, 7], [1, 2], [0], [0]]) (by decide)).2.2.2.2

end Loops

end TreeCover
