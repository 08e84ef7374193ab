import Mathlib.Data.List.Chain
import Mathlib.Order.Bounds.Defs
import TreeCover.Proofs.Flow.Layout

/-!
# The ends of the loops of a header

The search that collects the body of a loop goes backwards from the tail and stops at the header. What it
finds besides the header are the blocks with a path to the tail that does not meet the header, and a
header is followed by the largest block of all its loops together, whatever the graph looks like. In a
reducible forward layout the header is also the least of them.
-/

namespace TreeCover

namespace FlowGraph

variable {g : FlowGraph} {a h t : Nat}

/-- There is a path from `a` to `b`, both included, without the block `h`. -/
def LeadsAvoiding (g : FlowGraph) (h a b : Nat) : Prop :=
  ∃ p, (a :: p).IsChain g.Edge ∧ (a :: p).getLast? = some b ∧ h ∉ a :: p

theorem leadsAvoiding_iff : g.LeadsAvoiding h a t ↔ a ≠ h ∧ g.LeadsAround h a t := by
  constructor
  · rintro ⟨p, hchain, hlast, havoids⟩
    induction p generalizing a with
    | nil =>
      obtain rfl := Option.some.inj hlast
      exact ⟨fun heq ↦ havoids (heq ▸ List.mem_cons_self), .refl⟩
    | cons c p ih =>
      obtain ⟨hedge, hchain⟩ := List.isChain_cons_cons.mp hchain
      obtain ⟨hne, havoids⟩ := not_or.mp (mt List.mem_cons.mpr havoids)
      rw [List.getLast?_cons_cons] at hlast
      obtain ⟨hc, hlead⟩ := ih hchain hlast havoids
      exact ⟨Ne.symm hne, hlead.head ⟨hedge, hc⟩⟩
  · rintro ⟨hne, hlead⟩
    induction hlead using Relation.ReflTransGen.head_induction_on with
    | refl => exact ⟨[], .singleton t, rfl, fun hmem ↦ hne (List.mem_singleton.mp hmem).symm⟩
    | @head a c hstep _ ih =>
      obtain ⟨p, hchain, hlast, havoids⟩ := ih hstep.2
      refine ⟨c :: p, List.isChain_cons_cons.mpr ⟨hstep.1, hchain⟩, ?_, ?_⟩
      · rwa [List.getLast?_cons_cons]
      · rw [List.mem_cons, not_or]
        exact ⟨Ne.symm hne, havoids⟩

/-- A loop consists of its header and the blocks with a path to the tail that avoids the header. -/
theorem mem_loopBody_iff_leadsAvoiding (ht : t < g.length) :
    a ∈ g.loopBody t h ↔ a = h ∨ g.LeadsAvoiding h a t := by
  rw [mem_loopBody_iff ht, leadsAvoiding_iff]
  by_cases ha : a = h
  · simp [ha]
  · simp [ha]

end FlowGraph

namespace Loops

open FlowGraph

variable {g : FlowGraph} {a h t e : Nat}

/-- The header `h` and the blocks from which the tail of a back edge into `h` can be reached along a
path that avoids `h`. -/
def loopsAt (l : Loops) (h : Nat) : Set Nat :=
  {a | a = h ∨ ∃ t, (t, h) ∈ l.backEdges ∧ l.graph.LeadsAvoiding h a t}

theorem mem_loopsAt_of_mem_loopBody (hback : (t, h) ∈ (Loops.of g).backEdges)
    (ha : a ∈ g.loopBody t h) : a ∈ (Loops.of g).loopsAt h := by
  have ht := (edge_of_mem_backEdges hback).2.source_lt_length
  rcases (mem_loopBody_iff_leadsAvoiding ht).mp ha with rfl | hlead
  · exact Or.inl rfl
  · exact Or.inr ⟨t, hback, hlead⟩

/-- If `h` is a header at all, the blocks of its loops are found by the searches. -/
theorem exists_loopBody_of_mem_loopsAt (hback : (t, h) ∈ (Loops.of g).backEdges)
    (ha : a ∈ (Loops.of g).loopsAt h) :
    ∃ t', (t', h) ∈ (Loops.of g).backEdges ∧ a ∈ g.loopBody t' h := by
  rcases ha with rfl | ⟨t', hback', hlead⟩
  · exact ⟨t, hback, header_mem_loopBody⟩
  · have ht' := (edge_of_mem_backEdges hback').2.source_lt_length
    exact ⟨t', hback', (mem_loopBody_iff_leadsAvoiding ht').mpr (Or.inr hlead)⟩

theorem isSome_loopEnd?_iff :
    ((Loops.of g).loopEnd? h).isSome = true ↔ ∃ t, (t, h) ∈ (Loops.of g).backEdges := by
  constructor
  · intro hsome
    obtain ⟨e, he⟩ := Option.isSome_iff_exists.mp hsome
    obtain ⟨t, hback, -⟩ := exists_loopBody_of_loopEnd he
    exact ⟨t, hback⟩
  · rintro ⟨t, hback⟩
    obtain ⟨e, he, -⟩ := exists_loopEnd hback header_mem_loopBody
    exact Option.isSome_iff_exists.mpr ⟨e, he⟩

theorem isGreatest_loopEnd (he : (Loops.of g).loopEnd? h = some e) :
    IsGreatest ((Loops.of g).loopsAt h) e := by
  obtain ⟨t, hback, hbody⟩ := exists_loopBody_of_loopEnd he
  refine ⟨mem_loopsAt_of_mem_loopBody hback hbody, fun a ha ↦ ?_⟩
  obtain ⟨t', hback', ha⟩ := exists_loopBody_of_mem_loopsAt hback ha
  obtain ⟨e', he', hle⟩ := exists_loopEnd hback' ha
  obtain rfl := Option.some.inj (he.symm.trans he')
  exact hle

/-- **A header is followed to the furthest block of its loops.** A block has a loop end if a back edge
ends in it, which is then the greatest block of its natural loops; in a reducible forward layout without
unreachable blocks, all of these stand between the header and the loop end. -/
theorem loopEnd?_furthest (g : FlowGraph) (h : Nat) :
    (((Loops.of g).loopEnd? h).isSome = true ↔ ∃ t, (t, h) ∈ (Loops.of g).backEdges) ∧
    ∀ e, (Loops.of g).loopEnd? h = some e → IsGreatest ((Loops.of g).loopsAt h) e ∧
      ((Loops.of g).isForwardLayout = true → (∀ b < g.length, g.Reachable b) →
        (Loops.of g).Reducible → ∀ a ∈ (Loops.of g).loopsAt h, h ≤ a ∧ a ≤ e) := by
  refine ⟨isSome_loopEnd?_iff, fun e he ↦ ⟨isGreatest_loopEnd he, ?_⟩⟩
  intro hforward hall hred a ha
  obtain ⟨t, hback, -⟩ := exists_loopBody_of_loopEnd he
  obtain ⟨t', hback', ha⟩ := exists_loopBody_of_mem_loopsAt hback ha
  have hreach := hall a (lt_length_of_mem_loopBody (edge_of_mem_backEdges hback').2 ha)
  obtain ⟨e', he', hbetween⟩ := loop_between hforward hred hback' ha hreach
  obtain rfl := Option.some.inj (he.symm.trans he')
  exact hbetween

/-- A loop of one block in a loop of three, which starts at the entry. -/
theorem loopEnd?_furthest_nested :
    (Loops.of [[1], [1, 2], [0, 3], []]).loopEnd? 0 = some 2 ∧
    (Loops.of [[1], [1, 2], [0, 3], []]).loopEnd? 1 = some 1 ∧
    (Loops.of [[1], [1, 2], [0, 3], []]).Reducible ∧
    ∀ a ∈ (Loops.of [[1], [1, 2], [0, 3], []]).loopsAt 0, 0 ≤ a ∧ a ≤ 2 := by
  have hend : (Loops.of [[1], [1, 2], [0, 3], []]).loopEnd? 0 = some 2 := by decide
  have hred : (Loops.of [[1], [1, 2], [0, 3], []]).Reducible := by
    have hback : (Loops.of [[1], [1, 2], [0, 3], []]).backEdges = [(1, 1), (2, 0)] := by decide
    intro t h he
    rw [hback, List.mem_pair, Prod.mk.injEq, Prod.mk.injEq] at he
    obtain ⟨rfl, rfl⟩ | ⟨rfl, rfl⟩ := he
    · exact .refl _ 1
    · exact .entry _ 2
  have hreach : ∀ b < 4, FlowGraph.Reachable [[1], [1, 2], [0, 3], []] b := by
    have h₀ := FlowGraph.Reachable.entry [[1], [1, 2], [0, 3], []]
    have h₁ := h₀.step (b := 1) ⟨by decide, by decide⟩
    have h₂ := h₁.step (b := 2) ⟨by decide, by decide⟩
    have h₃ := h₂.step (b := 3) ⟨by decide, by decide⟩
    intro b hb
    obtain rfl | rfl | rfl | rfl : b = 0 ∨ b = 1 ∨ b = 2 ∨ b = 3 := by omega
    exacts [h₀, h₁, h₂, h₃]
  exact ⟨hend, by decide, hred, ((loopEnd?_furthest _ 0).2 2 hend).2 (by decide) hreach hred⟩

/-- One loop in the other: the outer one ends behind the inner one. -/
example : (Loops.of [[1], [2], [3], [2, 4], [1, 5], []]).loopEnd? 1 = some 4 ∧
    (Loops.of [[1], [2], [3], [2, 4], [1, 5], []]).loopEnd? 2 = some 3 := by decide

end Loops

end TreeCover
