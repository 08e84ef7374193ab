import TreeCover.Proofs.Flow.Search
import TreeCover.Proofs.Lists

/-!
# Loops in a layout

In a forward layout only back edges lead backwards, and a block that can be reached has a path without
them, along which no block stands behind it. Hence a dominator stands before what it dominates. If
moreover the header of each back edge dominates its tail, the body of a loop lies between its header
and the end of the loop.

In a layout that is not forward, an edge that closes no loop may lead backwards, and it may lead from
one block of a loop to another. If none does, the blocks of a loop still stand behind its header. For
a shortest path to a header passes no other block of its loop, so going around the loop from there
one meets nothing in front of the header: an edge into such a block would have to close a loop of its
own, whose header is then on that path.
-/

namespace TreeCover

/-! ## The order in which blocks are opened

Every block but the entry is opened by way of an edge from a block that was opened before it, while a
back edge leads to a block that was opened no later than the one it comes from. So a block that can be
reached has a path without back edges, whatever the loops of the graph look like. The latest block
stands first in `Walk.opened`, so "before" is membership in a tail of that list. -/

namespace FlowGraph

variable {g : FlowGraph} {a b h t fuel : Nat} {l : List Nat} {w w' : Walk}

/-! ## What every step of the walk keeps -/

/-- The blocks opened so far form a tree under the entry, and back edges lead up in it. -/
structure Walk.Ordered (g : FlowGraph) (w : Walk) : Prop where
  nodup : w.opened.Nodup
  closed_subset : w.closed ⊆ w.opened
  parent : ∀ b l, b :: l <:+ w.opened → b = 0 ∨ ∃ a ∈ l, g.Edge a b
  back : ∀ t h, (t, h) ∈ w.backEdges → ∃ l, t :: l <:+ w.opened ∧ h ∈ t :: l

/-- Opening a block that an edge leads to from an open one, or the entry. -/
theorem Walk.Ordered.open (hw : w.Ordered g) (hnew : b ∉ w.opened)
    (hparent : b = 0 ∨ ∃ a ∈ w.opened, g.Edge a b) :
    Walk.Ordered g { w with opened := b :: w.opened } where
  nodup := List.nodup_cons.mpr ⟨hnew, hw.nodup⟩
  closed_subset := fun _ ha ↦ List.mem_cons_of_mem b (hw.closed_subset ha)
  parent := by
    intro a l hl
    rcases List.suffix_cons_iff.mp hl with heq | hl
    · obtain ⟨rfl, rfl⟩ := List.cons.inj heq
      exact hparent
    · exact hw.parent a l hl
  back := by
    intro t h he
    obtain ⟨l, hl, hmem⟩ := hw.back t h he
    exact ⟨l, hl.trans (List.suffix_cons b _), hmem⟩

/-- An edge of the block in hand that leads to one opened no later. -/
theorem Walk.Ordered.addBackEdge (hw : w.Ordered g) (hb : b :: l <:+ w.opened) (ht : t ∈ b :: l) :
    Walk.Ordered g { w with backEdges := w.backEdges ++ [(b, t)] } := by
  refine { hw with back := fun t' h' he ↦ ?_ }
  rcases List.mem_append.mp he with he | he
  · exact hw.back t' h' he
  · obtain ⟨rfl, rfl⟩ := Prod.mk.inj (List.mem_singleton.mp he)
    exact ⟨l, hb, ht⟩

/-- A visit to a block that may be opened leaves the walk in order. -/
theorem ordered_visit (hb : b < g.length) (hnew : b ∉ w.opened)
    (hfuel : (g.unopened w).length ≤ fuel) (hw : w.Ordered g)
    (hparent : b = 0 ∨ ∃ a ∈ w.opened, g.Edge a b) :
    (g.visit fuel b w).Ordered g ∧ b :: w.opened <:+ (g.visit fuel b w).opened := by
  induction fuel generalizing b w with
  | zero =>
    have := length_unopened_lt hb hnew
    omega
  | succ fuel ih =>
    have hless := length_unopened_lt hb hnew
    -- What is open while the edges of `b` are followed: `b` itself, and what was open before it; all
    -- that was opened since is closed again.
    have hfollow : ∀ (v : Walk) (t : Nat), t ∈ g.succs b → v.Ordered g →
        b :: w.opened <:+ v.opened → Walk.Extends g { w with opened := b :: w.opened } v →
        (g.follow fuel b v t).Ordered g ∧ b :: w.opened <:+ (g.follow fuel b v t).opened ∧
          Walk.Extends g { w with opened := b :: w.opened } (g.follow fuel b v t) := by
      intro v t ht hv hsuffix hext
      rw [follow]
      split
      next => exact ⟨hv, hsuffix, hext⟩
      next hin =>
        split
        next hopen =>
          have hroom := Nat.le_trans (length_unopened_le hext.opened_subset)
            (Nat.le_of_lt_succ (Nat.lt_of_lt_of_le hless hfuel))
          have hmem := hsuffix.subset (List.mem_cons_self (a := b) (l := w.opened))
          obtain ⟨hordered, hgrown⟩ :=
            ih (by omega) hopen hroom hv (Or.inr ⟨b, hmem, ht, by omega⟩)
          refine ⟨hordered, ?_, hext.trans (visit_extends (by omega) hopen hroom).1⟩
          exact hsuffix.trans ((List.suffix_cons t v.opened).trans hgrown)
        next hopen =>
          split
          next hclosed =>
            refine ⟨hv.addBackEdge hsuffix ?_, hsuffix,
              ⟨hext.opened_subset, hext.closed_subset, hext.closes⟩⟩
            by_contra hlater
            exact hclosed (hext.closes t (not_not.mp hopen) hlater).1
          next => exact ⟨hv, hsuffix, hext⟩
    have hfold : ∀ (ts : List Nat) (v : Walk), ts ⊆ g.succs b → v.Ordered g →
        b :: w.opened <:+ v.opened → Walk.Extends g { w with opened := b :: w.opened } v →
        (ts.foldl (g.follow fuel b) v).Ordered g ∧
          b :: w.opened <:+ (ts.foldl (g.follow fuel b) v).opened := by
      intro ts
      induction ts with
      | nil => exact fun v _ hv hsuffix _ ↦ ⟨hv, hsuffix⟩
      | cons t ts iht =>
        intro v hts hv hsuffix hext
        obtain ⟨ht, hts⟩ := List.cons_subset.mp hts
        obtain ⟨hv, hsuffix, hext⟩ := hfollow v t ht hv hsuffix hext
        exact iht _ hts hv hsuffix hext
    obtain ⟨hordered, hsuffix⟩ := hfold (g.succs b) { w with opened := b :: w.opened }
      (List.Subset.refl _) (hw.open hnew hparent) (List.suffix_refl _) (.refl g _)
    rw [visit_succ]
    refine ⟨⟨hordered.nodup, ?_, hordered.parent, hordered.back⟩, hsuffix⟩
    exact List.cons_subset.mpr ⟨hsuffix.subset List.mem_cons_self, hordered.closed_subset⟩

/-- The walk from the entry is in order. -/
theorem ordered_walk (hne : g ≠ []) : g.walk.Ordered g := by
  rw [walk, if_neg (by rwa [List.isEmpty_iff])]
  refine (ordered_visit (List.length_pos_iff.mpr hne) List.not_mem_nil ?_ ?_ (Or.inl rfl)).1
  · exact Nat.le_trans (List.length_filter_le _ _) (Nat.le_of_eq List.length_range)
  · refine ⟨List.nodup_nil, List.Subset.refl _, fun b l hl ↦ ?_, fun _ _ hback ↦ ?_⟩
    · exact absurd (List.suffix_nil.mp hl) (List.cons_ne_nil b l)
    · exact absurd hback List.not_mem_nil

/-! ## Paths without back edges -/

/-- In a list without repetition a suffix is known by its first member. -/
private theorem eq_of_suffix_cons {l l' : List Nat} (h : a :: l <:+ a :: l') (hnodup : (a :: l').Nodup) :
    a :: l = a :: l' := by
  rcases List.suffix_cons_iff.mp h with heq | hshort
  · exact heq
  · exact absurd (hshort.subset List.mem_cons_self) (List.nodup_cons.mp hnodup).1

/-- The edge that a block was opened by is not a back edge. -/
theorem Walk.Ordered.not_back (hw : w.Ordered g) (hb : b :: l <:+ w.opened) (ha : a ∈ l) :
    (a, b) ∉ w.backEdges := by
  intro hback
  obtain ⟨l', hl', hmem⟩ := hw.back a b hback
  have hb_notin : b ∉ l := (List.nodup_cons.mp (hb.sublist.nodup hw.nodup)).1
  -- `a` stands in one place, which is behind `b`
  obtain ⟨before, after, rfl⟩ := List.append_of_mem ha
  have hsuffix : a :: after <:+ w.opened :=
    ((List.suffix_append before _).trans (List.suffix_cons b _)).trans hb
  have heq : a :: l' = a :: after := by
    rcases List.suffix_or_suffix_of_suffix hl' hsuffix with hlong | hlong
    · exact eq_of_suffix_cons hlong (hsuffix.sublist.nodup hw.nodup)
    · exact (eq_of_suffix_cons hlong (hl'.sublist.nodup hw.nodup)).symm
  exact hb_notin (List.mem_append_right before (heq ▸ hmem))

/-- A block is reached by edges that each lead to a block opened later, none of them a back edge. -/
theorem Walk.Ordered.path_induction (hw : w.Ordered g) {P : Nat → Prop} (hentry : P 0)
    (hstep : ∀ a b, P a → g.Edge a b → (a, b) ∉ w.backEdges → P b) :
    ∀ b ∈ w.opened, P b := by
  suffices hall : ∀ l b, b :: l <:+ w.opened → P b by
    intro b hb
    obtain ⟨before, after, heq⟩ := List.append_of_mem hb
    exact hall after b (heq ▸ List.suffix_append before (b :: after))
  intro l
  induction hn : l.length using Nat.strongRecOn generalizing l with
  | _ n ih =>
    intro b hb
    rcases hw.parent b l hb with rfl | ⟨a, ha, hedge⟩
    · exact hentry
    · obtain ⟨before, after, rfl⟩ := List.append_of_mem ha
      have hshorter : after.length < n := by
        rw [← hn, List.length_append, List.length_cons]
        omega
      have hsuffix : a :: after <:+ w.opened :=
        ((List.suffix_append before _).trans (List.suffix_cons b _)).trans hb
      exact hstep a b (ih _ hshorter after rfl a hsuffix) hedge (hw.not_back hb ha)

end FlowGraph

namespace FlowGraph

variable {g : FlowGraph} {a b t h x : Nat}

/-! ## Back edges of the walk -/

/-- The back edges found so far are edges out of reachable blocks. -/
def Walk.BackEdgesReal (g : FlowGraph) (w : Walk) : Prop :=
  ∀ e ∈ w.backEdges, g.Reachable e.1 ∧ g.Edge e.1 e.2

theorem backEdgesReal_visit {fuel : Nat} {w : Walk} (hb : g.Reachable b)
    (hw : w.BackEdgesReal g) : (g.visit fuel b w).BackEdgesReal g := by
  induction fuel generalizing b w with
  | zero => exact hw
  | succ fuel ih =>
    have hfollow : ∀ (w : Walk) (t : Nat), t ∈ g.succs b → w.BackEdgesReal g →
        (g.follow fuel b w t).BackEdgesReal g := by
      intro w t ht hw
      rw [follow]
      split
      next => exact hw
      next hin =>
        have hedge : g.Edge b t := ⟨ht, by omega⟩
        split
        next => exact ih (hb.step hedge) hw
        next =>
          split
          next =>
            intro e he
            rcases List.mem_append.mp he with he | he
            · exact hw e he
            · obtain rfl := List.mem_singleton.mp he
              exact ⟨hb, hedge⟩
          next => exact hw
    have hfold : ∀ (ts : List Nat) (w : Walk), ts ⊆ g.succs b → w.BackEdgesReal g →
        (ts.foldl (g.follow fuel b) w).BackEdgesReal g := by
      intro ts
      induction ts with
      | nil => exact fun _ _ hw ↦ hw
      | cons t ts iht =>
        intro w hts hw
        obtain ⟨ht, hts⟩ := List.cons_subset.mp hts
        exact iht _ hts (hfollow w t ht hw)
    rw [visit_succ]
    exact hfold (g.succs b) { w with opened := b :: w.opened } (List.Subset.refl _) hw

/-- A back edge is an edge out of a reachable block. -/
theorem edge_of_mem_backEdges (he : (t, h) ∈ g.walk.backEdges) : g.Reachable t ∧ g.Edge t h := by
  rw [walk] at he
  split at he
  next => exact absurd he List.not_mem_nil
  next => exact backEdgesReal_visit (.entry g) (fun _ h ↦ absurd h List.not_mem_nil) (t, h) he

/-! ## The header of a loop -/

/-- If the header of a loop dominates its tail, it dominates the whole loop. -/
theorem dominates_of_mem_loopBody (hdom : g.Dominates h t) (ht : t < g.length)
    (hx : x ∈ g.loopBody t h) : g.Dominates h x := by
  rcases (mem_loopBody_iff ht).mp hx with rfl | hlead
  · exact .refl g x
  · clear hx
    induction hlead using Relation.ReflTransGen.head_induction_on with
    | refl => exact hdom
    | head hstep _ ih => exact ih.of_edge hstep.2.symm hstep.1

/-- A loop contains the predecessors of all its blocks but the header. -/
theorem mem_loopBody_of_edge (hx : x ∈ g.loopBody t h) (hne : x ≠ h) (hedge : g.Edge a x) :
    a ∈ g.loopBody t h := by
  rcases (loopBody_closed g t h).2 x hx with rfl | hpreds
  · exact absurd rfl hne
  · exact hpreds (mem_preds_iff.mpr hedge.1)

theorem lt_length_of_mem_loopBody (hedge : g.Edge t h) (hx : x ∈ g.loopBody t h) :
    x < g.length := by
  rcases (mem_loopBody_iff hedge.source_lt_length).mp hx with rfl | hlead
  · exact hedge.lt_length
  · cases hlead using Relation.ReflTransGen.head_induction_on with
    | refl => exact hedge.source_lt_length
    | head hstep _ => exact hstep.1.source_lt_length

/-! ## Dominators of each other -/

/-- A shortest path to a block passes nothing that the block dominates. -/
theorem exists_path_undominated (hh : g.Reachable h) :
    ∃ q, g.IsPath q h ∧ ∀ x ∈ q, g.Dominates h x → x = h := by
  obtain ⟨p, hp⟩ := hh
  induction hn : p.length using Nat.strongRecOn generalizing p with
  | _ n ih =>
    by_cases hall : ∀ x ∈ p, g.Dominates h x → x = h
    · exact ⟨p, hp, hall⟩
    · push Not at hall
      obtain ⟨x, hx, hdom, hne⟩ := hall
      -- the path comes to `h` before `x` and again after it
      obtain ⟨q, hqp, hq⟩ := hp.exists_suffix hx
      obtain ⟨q', hqq, hq'⟩ := hq.exists_suffix (hdom q hq)
      have hshorter : q'.length < p.length := by
        rcases Nat.lt_or_eq_of_le hqq.length_le with hlt | heq
        · exact Nat.lt_of_lt_of_le hlt hqp.length_le
        · refine absurd (Option.some.inj (hq.head?.symm.trans ?_)) hne
          rw [← hqq.eq_of_length heq, hq'.head?]
      exact ih q'.length (by omega) q' hq' rfl

theorem Dominates.antisymm (ha : g.Reachable a) (hab : g.Dominates a b) (hba : g.Dominates b a) :
    a = b := by
  obtain ⟨q, hq, hall⟩ := exists_path_undominated ha
  exact (hall b (hba q hq) hab).symm

end FlowGraph

namespace Loops

open FlowGraph

variable {g : FlowGraph} {a b t h x e : Nat}

/-- The header of every back edge dominates the tail. -/
def Reducible (l : Loops) : Prop := ∀ t h, (t, h) ∈ l.backEdges → l.graph.Dominates h t

/-! ## Forward layouts -/

/-- In a forward layout an edge leads to a later block or is a back edge. -/
theorem lt_or_mem_backEdges (hforward : (Loops.of g).isForwardLayout = true) (hb : g.Reachable b)
    (hedge : g.Edge b t) : b < t ∨ (b, t) ∈ (Loops.of g).backEdges := by
  have hne : g ≠ [] := List.ne_nil_of_length_pos (Nat.zero_lt_of_lt hedge.lt_length)
  have hrow := List.all_eq_true.mp hforward b (mem_closed_walk hne hb)
  have hentry := List.all_eq_true.mp hrow t hedge.1
  rwa [Bool.or_eq_true, decide_eq_true_iff, List.contains_iff_mem] at hentry

/-- Every reachable block has a path on which it is the last in layout order. -/
theorem exists_path_below (hforward : (Loops.of g).isForwardLayout = true) (hb : g.Reachable b) :
    ∃ p, g.IsPath p b ∧ ∀ a ∈ p, a ≤ b := by
  by_cases hne : g = []
  · subst hne
    obtain ⟨p, hp⟩ := hb
    cases hp with
    | entry => exact ⟨[0], .entry, fun a ha ↦ Nat.le_of_eq (List.mem_singleton.mp ha)⟩
    | step _ hedge => exact absurd hedge.lt_length (Nat.not_lt_zero _)
  · have hordered := ordered_walk hne
    refine hordered.path_induction (P := fun b ↦ ∃ p, g.IsPath p b ∧ ∀ a ∈ p, a ≤ b)
      ⟨[0], .entry, fun a ha ↦ Nat.le_of_eq (List.mem_singleton.mp ha)⟩ ?_ b
      (hordered.closed_subset (mem_closed_walk hne hb))
    rintro a b ⟨p, hp, hle⟩ hedge hnot
    have hlt := (lt_or_mem_backEdges hforward ⟨p, hp⟩ hedge).resolve_right hnot
    refine ⟨b :: p, hp.step hedge, List.forall_mem_cons.mpr ⟨Nat.le_refl b, fun c hc ↦ ?_⟩⟩
    exact Nat.le_trans (hle c hc) (Nat.le_of_lt hlt)

/-- A dominator stands before what it dominates. -/
theorem le_of_dominates (hforward : (Loops.of g).isForwardLayout = true) (hb : g.Reachable b)
    (hdom : g.Dominates a b) : a ≤ b := by
  obtain ⟨p, hp, hle⟩ := exists_path_below hforward hb
  exact hle a (hdom p hp)

/-! ## Loop ends -/

theorem mem_tails_iff {es : List (Nat × Nat)} :
    t ∈ (es.filter (·.2 == h)).map (·.1) ↔ (t, h) ∈ es := by
  simp

/-- A header has a loop end, at or behind every block of its loops. -/
theorem exists_loopEnd (hback : (t, h) ∈ (Loops.of g).backEdges) (hx : x ∈ g.loopBody t h) :
    ∃ e, (Loops.of g).loopEnd? h = some e ∧ x ≤ e := by
  have htail : t ∈ ((Loops.of g).backEdges.filter (·.2 == h)).map (·.1) := mem_tails_iff.mpr hback
  have hbody : x ∈ (((Loops.of g).backEdges.filter (·.2 == h)).map (·.1)).flatMap
      fun t ↦ (Loops.of g).graph.loopBody t h := List.mem_flatMap.mpr ⟨t, htail, hx⟩
  rw [loopEnd?, if_neg (mt List.isEmpty_iff.mp (List.ne_nil_of_mem htail))]
  exact ⟨_, rfl, (le_foldl_max _ h).2 x hbody⟩

/-- The end of the loops of a header is a block of one of them. -/
theorem exists_loopBody_of_loopEnd (he : (Loops.of g).loopEnd? h = some e) :
    ∃ t, (t, h) ∈ (Loops.of g).backEdges ∧ e ∈ g.loopBody t h := by
  rw [loopEnd?] at he
  split at he
  next => exact absurd he (by simp)
  next hsome =>
    rw [Option.some.injEq] at he
    rcases foldl_max_mem ((((Loops.of g).backEdges.filter (·.2 == h)).map (·.1)).flatMap
      fun t ↦ (Loops.of g).graph.loopBody t h) h with heq | hmem
    · obtain ⟨t, ht⟩ := List.exists_mem_of_ne_nil _ (mt List.isEmpty_iff.mpr hsome)
      rw [heq] at he
      exact ⟨t, mem_tails_iff.mp ht, he ▸ header_mem_loopBody⟩
    · rw [he] at hmem
      obtain ⟨t, ht, hbody⟩ := List.mem_flatMap.mp hmem
      exact ⟨t, mem_tails_iff.mp ht, hbody⟩

/-- The end of a loop is a block of the graph. -/
theorem loopEnd_lt_length (he : (Loops.of g).loopEnd? h = some e) : e < g.length := by
  obtain ⟨t, hback, hbody⟩ := exists_loopBody_of_loopEnd he
  exact lt_length_of_mem_loopBody (edge_of_mem_backEdges hback).2 hbody

/-- **Loops are contiguous stretches.** In a reducible forward layout the reachable blocks of a
loop lie between its header and the end of the loop. -/
theorem loop_between (hforward : (Loops.of g).isForwardLayout = true)
    (hred : (Loops.of g).Reducible) (hback : (t, h) ∈ (Loops.of g).backEdges)
    (hx : x ∈ g.loopBody t h) (hreach : g.Reachable x) :
    ∃ e, (Loops.of g).loopEnd? h = some e ∧ h ≤ x ∧ x ≤ e := by
  obtain ⟨-, hedge⟩ := edge_of_mem_backEdges hback
  obtain ⟨e, he, hle⟩ := exists_loopEnd hback hx
  have hdom := dominates_of_mem_loopBody (hred t h hback) hedge.source_lt_length hx
  exact ⟨e, he, le_of_dominates hforward hreach hdom, hle⟩

/-! ## Loops behind their headers -/

/-- **Loops stand behind their headers**, if every edge between their blocks leads forwards or closes
a loop. -/
theorem le_of_mem_loopBody (hred : (Loops.of g).Reducible)
    (hback : (t, h) ∈ (Loops.of g).backEdges)
    (hturns : ∀ u x, g.Reachable u → u ∈ g.loopBody t h → x ∈ g.loopBody t h → x ≠ h →
      g.Edge u x → u < x ∨ (u, x) ∈ (Loops.of g).backEdges)
    (hx : x ∈ g.loopBody t h) (hreach : g.Reachable x) : h ≤ x := by
  have hedge := (edge_of_mem_backEdges hback).2
  have hdom : ∀ {x}, x ∈ g.loopBody t h → g.Dominates h x :=
    dominates_of_mem_loopBody (hred t h hback) hedge.source_lt_length
  obtain ⟨q, hq, hfirst⟩ := exists_path_undominated (hreach.elim fun p hp ↦
    Reachable.of_mem_path hp (hdom hx p hp))
  -- Each block of the loop has a path that goes to the header by `q` and then stays behind it.
  suffices hpath : ∃ p, g.IsPath p x ∧ ∀ y ∈ p, y ∈ q ∨ h ≤ y by
    obtain ⟨p, hp, hall⟩ := hpath
    rcases hall x hp.target_mem with hmem | hle
    · exact Nat.le_of_eq (hfirst x hmem (hdom hx)).symm
    · exact hle
  have haround : ∀ {x}, g.Reachable x → x ∈ g.loopBody t h → x = h →
      ∃ p, g.IsPath p x ∧ ∀ y ∈ p, y ∈ q ∨ h ≤ y := by
    rintro x - - rfl
    exact ⟨q, hq, fun y hy ↦ Or.inl hy⟩
  obtain ⟨p, hp⟩ := hreach
  induction hp with
  | entry => exact haround (.entry g) hx (hfirst 0 hq.entry_mem (hdom hx))
  | @step p u x hp hux ih =>
    by_cases hne : x = h
    · exact haround ⟨x :: p, hp.step hux⟩ hx hne
    · have hu := mem_loopBody_of_edge hx hne hux
      obtain ⟨p', hp', hall⟩ := ih hu
      refine ⟨x :: p', hp'.step hux, List.forall_mem_cons.mpr ⟨Or.inr ?_, hall⟩⟩
      have hbehind : ∀ {y}, y ∈ g.loopBody t h → y ∈ p' → h ≤ y := fun hy hmem ↦
        (hall _ hmem).elim (fun hyq ↦ Nat.le_of_eq (hfirst _ hyq (hdom hy)).symm) id
      rcases hturns u x ⟨p', hp'⟩ hu hx hne hux with hlt | hcloses
      · exact Nat.le_trans (hbehind hu hp'.target_mem) (Nat.le_of_lt hlt)
      · exact hbehind hx (hred u x hcloses p' hp')

end Loops

end TreeCover
