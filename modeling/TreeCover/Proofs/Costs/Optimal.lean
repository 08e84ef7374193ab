import Mathlib.Algebra.Order.BigOperators.Group.List
import Mathlib.Algebra.Order.Monoid.Canonical.Basic
import Mathlib.Data.ENat.Lattice
import Mathlib.Logic.Relation
import TreeCover.Proofs.Costs.Chains

/-!
# Labels are optimal

Where nothing is below itself, labeling reaches everything below the root down to what is computed
already. The cost of a node is that of the cheapest derivation up to the cap, and a node that can be
reduced is labeled with the first rule of a cheapest derivation. Main statement: `labelTree_optimal`.
-/

namespace TreeCover

/-! ## Derivations

A derivation reduces a node to a nonterminal: a rule that matches the node, and a derivation for each
leaf of the rule. It costs what its rules cost, a rule once for each use. The cost that labels give to a
pattern is the cost of its leaves, as long as all of them can be reduced. Main statements:
`Pattern.takeLeaves_fst`, `Pattern.matchCost?_eq`. -/

section

variable {f g : Forest} {ls : Labels} {id : NodeId} {nt : Nonterminal} {r : Rule}

/-! ## Leaves -/

mutual

/-- The leaves of a pattern at a node, in order, each with what it is to be reduced to. -/
def Pattern.leaves (f : Forest) : Pattern → NodeId → List (NodeId × Nonterminal)
  | .nt goal, id => [(id, goal)]
  | .op _ kids, id => Pattern.kidLeaves f kids (f.kidOwners id)
  | .variadic _ goal, id => (f.kidOwners id).map fun k ↦ (k, goal)

/-- The leaves of patterns at corresponding nodes. -/
def Pattern.kidLeaves (f : Forest) : List Pattern → List NodeId → List (NodeId × Nonterminal)
  | p :: ps, id :: ids => p.leaves f id ++ Pattern.kidLeaves f ps ids
  | _, _ => []

end

mutual

/-- The leaves are those that reduction goes on with. -/
theorem Pattern.takeLeaves_fst : ∀ (p : Pattern) (id : NodeId) (g : Forest), f.SameSkeleton g →
    (p.takeLeaves id g).1 = p.leaves f id
  | .nt _, _, _, _ => by rw [Pattern.takeLeaves, Pattern.leaves]
  | .op _ kids, id, g, hskeleton => by
    rw [Pattern.takeLeaves, Pattern.leaves, hskeleton.kidOwners]
    exact Pattern.takeKidLeaves_fst kids _ g hskeleton
  | .variadic _ _, id, g, hskeleton => by
    rw [Pattern.takeLeaves, Pattern.leaves, hskeleton.kidOwners]

theorem Pattern.takeKidLeaves_fst : ∀ (ps : List Pattern) (ids : List NodeId) (g : Forest),
    f.SameSkeleton g → (Pattern.takeKidLeaves ps ids g).1 = Pattern.kidLeaves f ps ids
  | [], _, _, _ => by simp [Pattern.takeKidLeaves, Pattern.kidLeaves]
  | _ :: _, [], _, _ => by simp [Pattern.takeKidLeaves, Pattern.kidLeaves]
  | p :: ps, id :: ids, g, hskeleton => by
    rw [Pattern.takeKidLeaves, Pattern.kidLeaves, ← Pattern.takeLeaves_fst p id g hskeleton,
      ← Pattern.takeKidLeaves_fst ps ids (p.takeLeaves id g).2
        (hskeleton.trans (p.sameSkeleton_takeLeaves id g))]

end

/-! ## Derivations -/

/-- A derivation: the rule of its first step, and how the leaves of the rule go on, in order. -/
inductive Derivation where
  | step (rule : Rule) (leaves : List Derivation)

namespace Derivation

/-- The rule of the first step. -/
def rule : Derivation → Rule
  | step r _ => r

mutual

def cost : Derivation → Nat
  | step r ds => costs ds + r.cost

def costs : List Derivation → Nat
  | [] => 0
  | d :: ds => d.cost + costs ds

end

mutual

/-- Whether a derivation reduces a node to a nonterminal. -/
def Derives (f : Forest) : Derivation → NodeId → Nonterminal → Prop
  | step r ds, id, nt => r.Matches f id ∧ r.lhs = nt ∧ DeriveAll f ds (r.pattern.leaves f id)

/-- Whether derivations reduce corresponding leaves. -/
def DeriveAll (f : Forest) : List Derivation → List (NodeId × Nonterminal) → Prop
  | [], [] => True
  | d :: ds, leaf :: leaves => d.Derives f leaf.1 leaf.2 ∧ DeriveAll f ds leaves
  | _, _ => False

end

end Derivation

/-- The least cost at which a node is reduced to a nonterminal; it is infinite if nothing reduces it. -/
noncomputable def Forest.leastCost (f : Forest) (id : NodeId) (nt : Nonterminal) : ℕ∞ :=
  ⨅ d : {d : Derivation // d.Derives f id nt}, (d.1.cost : ℕ∞)

/-! ## Costs of leaves -/

namespace Labels

/-- The sum of the costs of leaves. -/
def leafCosts (ls : Labels) (leaves : List (NodeId × Nonterminal)) : Nat :=
  (leaves.map fun leaf ↦ ls.cost leaf.1 leaf.2).sum

/-- The capped sum of the costs of leaves, if all of them can be reduced. -/
def leafCosts? (ls : Labels) (leaves : List (NodeId × Nonterminal)) : Option Nat :=
  if ∀ leaf ∈ leaves, ls.cost leaf.1 leaf.2 < infinite then some (min (ls.leafCosts leaves) infinite)
  else none

theorem leafCosts?_singleton (ls : Labels) (id : NodeId) (nt : Nonterminal) :
    ls.leafCosts? [(id, nt)] = ls.cost? id nt := by
  rw [leafCosts?, cost?, leafCosts, List.map_singleton, List.sum_singleton]
  simp only [List.mem_singleton, forall_eq]
  split
  next hlt => rw [Nat.min_eq_left (Nat.le_of_lt hlt)]
  next => rfl

theorem leafCosts?_append (ls : Labels) (xs ys : List (NodeId × Nonterminal)) :
    ls.leafCosts? (xs ++ ys) = (ls.leafCosts? xs).bind fun c ↦
      (ls.leafCosts? ys).bind fun c' ↦ some (addCost c c') := by
  have hsum : ls.leafCosts (xs ++ ys) = ls.leafCosts xs + ls.leafCosts ys := by
    rw [leafCosts, List.map_append, List.sum_append, ← leafCosts, ← leafCosts]
  simp only [leafCosts?, List.forall_mem_append, hsum]
  by_cases hxs : ∀ leaf ∈ xs, ls.cost leaf.1 leaf.2 < infinite
  · by_cases hys : ∀ leaf ∈ ys, ls.cost leaf.1 leaf.2 < infinite
    · rw [if_pos ⟨hxs, hys⟩, if_pos hxs, if_pos hys, Option.bind_some, Option.bind_some, addCost]
      exact congrArg some (by omega)
    · rw [if_neg fun hall ↦ hys hall.2, if_pos hxs, if_neg hys]
      rfl
  · rw [if_neg fun hall ↦ hxs hall.1, if_neg hxs]
    rfl

theorem costAll?_eq (ls : Labels) (nt : Nonterminal) (ids : List NodeId) :
    ls.costAll? nt ids = ls.leafCosts? (ids.map fun k ↦ (k, nt)) := by
  induction ids with
  | nil => rfl
  | cons id ids ih =>
    rw [costAll?, ih, ← leafCosts?_singleton]
    exact (leafCosts?_append ls [(id, nt)] _).symm

end Labels

mutual

/-- The cost of a pattern that fits is that of its leaves. -/
theorem Pattern.matchCost?_eq : ∀ (p : Pattern) (id : NodeId), p.isTile = true → p.Fits f id →
    p.matchCost? f ls id = ls.leafCosts? (p.leaves f id)
  | .nt goal, id, _, _ => by
    rw [Pattern.matchCost?, Pattern.leaves, Labels.leafCosts?_singleton]
  | .op h kids, id, htile, hfits => by
    rw [Pattern.isTile, Bool.and_eq_true] at htile
    rw [Pattern.Fits] at hfits
    rw [Pattern.matchCost?, Pattern.leaves, if_neg (not_not_intro hfits.1)]
    split
    next hregister =>
      have hkids : kids = [] := by simpa [hregister] using htile.1
      subst hkids
      rw [Pattern.kidLeaves]
      · rfl
      · exact fun _ _ _ _ hnil ↦ absurd hnil (List.cons_ne_nil _ _).symm
    next hregister =>
      obtain ⟨hlength, hkids⟩ := hfits.2 hregister
      rw [if_neg (not_not_intro hlength)]
      exact Pattern.matchKids?_eq kids _ htile.2 hkids
  | .variadic h goal, id, _, hfits => by
    rw [Pattern.Fits] at hfits
    rw [Pattern.matchCost?, Pattern.leaves, if_neg (not_not_intro hfits), Labels.costAll?_eq]

theorem Pattern.matchKids?_eq : ∀ (ps : List Pattern) (ids : List NodeId),
    Pattern.areTiles ps = true → Pattern.FitKids f ps ids →
      Pattern.matchKids? f ls ps ids = ls.leafCosts? (Pattern.kidLeaves f ps ids)
  | [], _, _, _ => by simp [Pattern.matchKids?, Pattern.kidLeaves, Labels.leafCosts?, Labels.leafCosts]
  | _ :: _, [], _, _ => by
    simp [Pattern.matchKids?, Pattern.kidLeaves, Labels.leafCosts?, Labels.leafCosts]
  | p :: ps, id :: ids, htiles, hfits => by
    rw [Pattern.areTiles, Bool.and_eq_true] at htiles
    rw [Pattern.FitKids] at hfits
    rw [Pattern.matchKids?, Pattern.kidLeaves, Labels.leafCosts?_append,
      Pattern.matchCost?_eq p id htiles.1 hfits.1, Pattern.matchKids?_eq ps ids htiles.2 hfits.2]
    rfl

end

end

open Work

variable {f : Forest} {ls ls' : Labels} {k id : NodeId} {nt s : Nonterminal} {r : Rule}
  {l : NodeLabel} {S : NodeId → Prop}

/-! ## Below a node -/

namespace Forest

/-- A node is made from the owners of its children unless its value is computed already. -/
def MadeFrom (f : Forest) (k c : NodeId) : Prop := (f.node k).computed = false ∧ c ∈ f.kidOwners k

/-- Nothing is made from itself. -/
def Acyclic (f : Forest) : Prop := ∀ k, ¬ Relation.TransGen f.MadeFrom k k

/-- The nodes that labeling comes to from a node: the node, and what it is made from at any depth. -/
def Below (f : Forest) (id k : NodeId) : Prop := Relation.ReflTransGen f.MadeFrom id k

/-- Nothing below a node is made from itself. -/
def AcyclicBelow (f : Forest) (id : NodeId) : Prop :=
  ∀ k, f.Below id k → ¬ Relation.TransGen f.MadeFrom k k

theorem Acyclic.below (h : f.Acyclic) (id : NodeId) : f.AcyclicBelow id := fun k _ ↦ h k

theorem AcyclicBelow.step {c : NodeId} (h : f.AcyclicBelow id) (hc : f.MadeFrom id c) :
    f.AcyclicBelow c := fun k hk ↦ h k (hk.head hc)

theorem lt_size_of_madeFrom {c : NodeId} (h : f.MadeFrom k c) : k < f.size := by
  by_contra hle
  have hnode : f.nodes[k]? = none := Array.getElem?_eq_none (Nat.not_lt.mp hle)
  have hc := h.2
  rw [kidOwners, node, hnode] at hc
  exact absurd hc List.not_mem_nil

/-- Where children are older than what is made from them, nothing is made from itself. -/
theorem acyclic_of_lt (h : ∀ k c, f.MadeFrom k c → c < k) : f.Acyclic := by
  intro k hk
  have hlt : ∀ c, Relation.TransGen f.MadeFrom k c → c < k := by
    intro c hc
    induction hc with
    | single hc => exact h k _ hc
    | tail _ hc ih => exact Nat.lt_trans (h _ _ hc) ih
  exact Nat.lt_irrefl k (hlt k hk)

/-- A way down to a node: different nodes, from each of which the node is reached. -/
structure Descends (f : Forest) (path : List NodeId) (id : NodeId) : Prop where
  nodup : path.Nodup
  reaches : ∀ p ∈ path, Relation.TransGen f.MadeFrom p id

namespace Descends

variable {path : List NodeId}

theorem nil : f.Descends [] id := ⟨.nil, fun _ h ↦ absurd h List.not_mem_nil⟩

theorem cons {c : NodeId} (h : f.Descends path id) (hacyclic : f.AcyclicBelow id)
    (hc : f.MadeFrom id c) : f.Descends (id :: path) c := by
  refine ⟨List.nodup_cons.mpr ⟨fun hid ↦ hacyclic id .refl (h.reaches id hid), h.nodup⟩, fun p hp ↦ ?_⟩
  rcases List.mem_cons.mp hp with rfl | hp
  · exact .single hc
  · exact (h.reaches p hp).tail hc

/-- No way down is longer than there are nodes. -/
theorem length_le (h : f.Descends path id) : path.length ≤ f.size := by
  have hrange : path ⊆ List.range f.size := by
    intro p hp
    obtain ⟨c, hc, -⟩ := Relation.TransGen.head'_iff.mp (h.reaches p hp)
    exact List.mem_range.mpr (lt_size_of_madeFrom hc)
  simpa using (h.nodup.subperm hrange).length_le

end Descends

end Forest

/-! ## The leaves of a rule are below its node -/

theorem Node.computed_of_head? {n : Node} {h : Head} (hhead : n.head? = some h) (hne : h ≠ .inRegister) :
    n.computed = false := by
  refine Bool.eq_false_iff.mpr fun hcomputed ↦ hne ?_
  rw [head?_computed hcomputed] at hhead
  exact (Option.some.inj hhead).symm

mutual

/-- The leaves of a rule for the head of a node are among what the node is made from, at any depth. -/
theorem Pattern.leaves_mem (hS : ∀ k, S k → ∀ c, f.MadeFrom k c → S c) : ∀ (p : Pattern) (id : NodeId),
    p.head? ≠ none → p.isTile = true → p.Fits f id → (∀ c, f.MadeFrom id c → S c) →
      ∀ leaf ∈ p.leaves f id, S leaf.1
  | .nt _, _, hhead, _, _, _ => absurd rfl hhead
  | .op h kids, id, _, htile, hfits, hid => by
    rw [Pattern.isTile, Bool.and_eq_true] at htile
    rw [Pattern.Fits] at hfits
    rw [Pattern.leaves]
    by_cases hregister : h = .inRegister
    · have hkids : kids = [] := by simpa [hregister] using htile.1
      subst hkids
      simp [Pattern.kidLeaves]
    · have hcomputed := Node.computed_of_head? hfits.1 hregister
      exact Pattern.kidLeaves_mem hS kids _ htile.2 (hfits.2 hregister).2 fun c hc ↦ hid c ⟨hcomputed, hc⟩
  | .variadic h goal, id, _, htile, hfits, hid => by
    rw [Pattern.isTile] at htile
    rw [Pattern.Fits] at hfits
    rw [Pattern.leaves]
    intro leaf hleaf
    obtain ⟨c, hc, rfl⟩ := List.mem_map.mp hleaf
    exact hid c ⟨Node.computed_of_head? hfits (of_decide_eq_true htile), hc⟩

theorem Pattern.kidLeaves_mem (hS : ∀ k, S k → ∀ c, f.MadeFrom k c → S c) :
    ∀ (ps : List Pattern) (ids : List NodeId), Pattern.areTiles ps = true → Pattern.FitKids f ps ids →
      (∀ c ∈ ids, S c) → ∀ leaf ∈ Pattern.kidLeaves f ps ids, S leaf.1
  | [], _, _, _, _ => by simp [Pattern.kidLeaves]
  | _ :: _, [], _, _, _ => by simp [Pattern.kidLeaves]
  | p :: ps, id :: ids, htiles, hfits, hids => by
    rw [Pattern.areTiles, Bool.and_eq_true] at htiles
    rw [Pattern.FitKids] at hfits
    obtain ⟨hid, hids⟩ := List.forall_mem_cons.mp hids
    rw [Pattern.kidLeaves]
    refine List.forall_mem_append.mpr ⟨?_, Pattern.kidLeaves_mem hS ps ids htiles.2 hfits.2 hids⟩
    by_cases hhead : p.head? = none
    · cases p with
      | nt goal =>
        rw [Pattern.leaves]
        exact List.forall_mem_singleton.mpr hid
      | _ => exact absurd hhead (by simp [Pattern.head?])
    · exact Pattern.leaves_mem hS p id hhead htiles.1 hfits.1 (hS id hid)

end

/-! ## Derivations of leaves -/

/-- Leaves whose costs bound those of their derivations do so together. -/
theorem Derivation.DeriveAll.leafCosts_le : ∀ {ds : List Derivation}
    {leaves : List (NodeId × Nonterminal)}, DeriveAll f ds leaves →
      (∀ leaf ∈ leaves, ∀ d : Derivation, d.Derives f leaf.1 leaf.2 → ls.cost leaf.1 leaf.2 ≤ d.cost) →
        ls.leafCosts leaves ≤ costs ds
  | [], [], _, _ => by rw [costs]; exact Nat.le_refl 0
  | d :: ds, leaf :: leaves, hall, hle => by
    rw [DeriveAll] at hall
    rw [costs]
    obtain ⟨hleaf, hleaves⟩ := List.forall_mem_cons.mp hle
    exact Nat.add_le_add (hleaf d hall.1) (hall.2.leafCosts_le hleaves)
  | [], _ :: _, hall, _ => hall.elim
  | _ :: _, [], hall, _ => hall.elim

/-- Derivations of leaves at their costs go together. -/
theorem Derivation.exists_deriveAll : ∀ (leaves : List (NodeId × Nonterminal)),
    (∀ leaf ∈ leaves, ∃ d : Derivation, d.Derives f leaf.1 leaf.2 ∧ d.cost = ls.cost leaf.1 leaf.2) →
      ∃ ds, DeriveAll f ds leaves ∧ costs ds = ls.leafCosts leaves
  | [], _ => ⟨[], trivial, rfl⟩
  | leaf :: leaves, h => by
    obtain ⟨⟨d, hd, hcost⟩, hleaves⟩ := List.forall_mem_cons.mp h
    obtain ⟨ds, hds, hcosts⟩ := exists_deriveAll leaves hleaves
    refine ⟨d :: ds, ⟨hd, hds⟩, ?_⟩
    rw [costs, hcost, hcosts]
    rfl

/-! ## The label of a node -/

namespace NodeLabel

theorem cost_tryRule_le (f : Forest) (ls : Labels) (id : NodeId) (l : NodeLabel) (r : Rule)
    (nt : Nonterminal) : (tryRule f ls id l r).cost nt ≤ l.cost nt := by
  rw [tryRule]
  split
  next =>
    split
    next c _ => exact cost_improve_le l r _ nt
    next => exact Nat.le_refl _
  next => exact Nat.le_refl _

theorem bounded_labelNode (f : Forest) (ls : Labels) (id : NodeId) :
    Bounded (TreeCover.labelNode f ls id) := by
  intro nt
  rw [TreeCover.labelNode]
  refine Nat.le_trans (cost_closeFrom_le _ _ nt) ?_
  exact cost_foldl_le (cost_tryRule_le f ls id) _ [] nt

/-- No chain rule improves the label of a node. -/
theorem labelNode_chain_le (f : Forest) (ls : Labels) (id : NodeId) (hr : r ∈ Grammar.rules)
    (hp : r.pattern = .nt s) :
    cost (TreeCover.labelNode f ls id) r.lhs ≤ cost (TreeCover.labelNode f ls id) s + r.cost := by
  have hchain : r ∈ Grammar.chainRules := List.mem_filter.mpr ⟨hr, by rw [Rule.isChain, hp]⟩
  rw [TreeCover.labelNode]
  refine settled_close (fun nt ↦ ?_) r hchain s hp
  exact cost_foldl_le (cost_tryRule_le f ls id) _ [] nt

/-- No rule for the head of a node improves the label of the node. -/
theorem labelNode_rule_le (hmatches : r.Matches f id) (hhead : r.pattern.head? ≠ none) :
    cost (TreeCover.labelNode f ls id) r.lhs ≤ ls.leafCosts (r.pattern.leaves f id) + r.cost := by
  have hcost : r.pattern.matchCost? f ls id = ls.leafCosts? (r.pattern.leaves f id) :=
    r.pattern.matchCost?_eq id (Grammar.isTile_rules r hmatches.mem) hmatches.fits
  by_cases hall : ∀ leaf ∈ r.pattern.leaves f id, ls.cost leaf.1 leaf.2 < infinite
  · rw [Labels.leafCosts?, if_pos hall] at hcost
    have hrule : r ∈ (((f.node id).head?.map Grammar.rulesFor).getD []) := by
      obtain ⟨h, hh⟩ := Option.ne_none_iff_exists'.mp hhead
      rw [hmatches.fits.head? hh]
      exact List.mem_filter.mpr ⟨hmatches.mem, by simp [hh]⟩
    rw [TreeCover.labelNode]
    refine Nat.le_trans (cost_closeFrom_le _ _ _) ?_
    refine cost_foldl_le_of_mem (cost_tryRule_le f ls id) hrule fun l ↦ ?_
    rw [tryRule, if_pos hmatches.admits, hcost]
    refine Nat.le_trans (cost_improve_self_le l r _) ?_
    rw [addCost]
    omega
  · -- a leaf that cannot be reduced costs too much already
    obtain ⟨leaf, hleaf, hinfinite⟩ : ∃ leaf ∈ r.pattern.leaves f id,
        infinite ≤ ls.cost leaf.1 leaf.2 := by simpa using hall
    have hsum : ls.cost leaf.1 leaf.2 ≤ ls.leafCosts (r.pattern.leaves f id) :=
      List.le_sum_of_mem (List.mem_map.mpr ⟨leaf, hleaf, rfl⟩)
    have hbounded := bounded_labelNode f ls id r.lhs
    omega

/-- A label that is as cheap as any derivation, if what the node is made from is. -/
theorem labelNode_le (hleaves : ∀ r : Rule, r.Matches f id → r.pattern.head? ≠ none →
      ∀ leaf ∈ r.pattern.leaves f id, ∀ d : Derivation, d.Derives f leaf.1 leaf.2 →
        ls.cost leaf.1 leaf.2 ≤ d.cost) :
    ∀ (d : Derivation) (nt : Nonterminal), d.Derives f id nt →
      cost (TreeCover.labelNode f ls id) nt ≤ d.cost
  | .step r ds, nt, h => by
    rw [Derivation.Derives] at h
    obtain ⟨hmatches, rfl, hds⟩ := h
    rw [Derivation.cost]
    by_cases hhead : r.pattern.head? = none
    · -- a chain rule goes on at the node itself
      cases hp : r.pattern with
      | nt s =>
        rw [hp, Pattern.leaves] at hds
        match ds with
        | [d] =>
          rw [Derivation.DeriveAll] at hds
          have hd := labelNode_le hleaves d s hds.1
          have hchain := labelNode_chain_le f ls id hmatches.mem hp
          rw [Derivation.costs, Derivation.costs]
          omega
        | [] => exact hds.elim
        | _ :: _ :: _ => exact hds.2.elim
      | _ => exact absurd hhead (by simp [hp, Pattern.head?])
    · refine Nat.le_trans (labelNode_rule_le hmatches hhead) (Nat.add_le_add_right ?_ _)
      exact hds.leafCosts_le (hleaves r hmatches hhead)

/-- A label each of whose entries is the first step of a derivation at its cost. -/
structure Attained (f : Forest) (id : NodeId) (l : NodeLabel) : Prop where
  bounded : l.Bounded
  derives : ∀ i ∈ l, ∃ d : Derivation, d.rule = i.rule ∧ d.Derives f id i.rule.lhs ∧ d.cost = i.cost

namespace Attained

theorem nil : Attained f id [] :=
  ⟨fun _ ↦ Nat.le_refl _, fun _ h ↦ absurd h List.not_mem_nil⟩

theorem improve (h : l.Attained f id) {c : Nat}
    (hd : c < infinite → ∃ d : Derivation, d.rule = r ∧ d.Derives f id r.lhs ∧ d.cost = c) :
    (l.improve r c).Attained f id := by
  refine ⟨fun nt ↦ Nat.le_trans (cost_improve_le l r c nt) (h.bounded nt), ?_⟩
  rcases l.improve_cases r c with heq | ⟨hlt, heq⟩
  · rw [heq]
    exact h.derives
  · rw [heq]
    exact List.forall_mem_cons.mpr ⟨hd (Nat.lt_of_lt_of_le hlt (h.bounded r.lhs)), h.derives⟩

theorem cost (h : l.Attained f id) (hcost : l.cost nt < infinite) :
    ∃ i d, l.best? nt = some i ∧ Derivation.rule d = i.rule ∧ d.Derives f id nt ∧
      d.cost = l.cost nt := by
  obtain ⟨i, hbest⟩ := Option.isSome_iff_exists.mp (Grounded.isSome_of_cost hcost)
  obtain ⟨d, hrule, hderives, hd⟩ := h.derives i (List.mem_of_find?_eq_some hbest)
  have hlhs : i.rule.lhs = nt := by simpa using List.find?_some hbest
  refine ⟨i, d, hbest, hrule, hlhs ▸ hderives, ?_⟩
  rw [hd, NodeLabel.cost, hbest]
  rfl

/-- The label of a node is attained if the costs of all other nodes are. -/
theorem labelNode (hleaves : ∀ k nt, ls.cost k nt < infinite →
      ∃ d : Derivation, d.Derives f k nt ∧ d.cost = ls.cost k nt) :
    Attained f id (TreeCover.labelNode f ls id) := by
  refine labelNode_induct nil (fun l hl r hr hhead hadmits c hc ↦ hl.improve fun hfinite ↦ ?_)
    fun l hl r hr s hp hs ↦ hl.improve fun hfinite ↦ ?_
  · have hfits := r.pattern.fits_of_matchCost id hc
    rw [r.pattern.matchCost?_eq id (Grammar.isTile_rules r hr) hfits, Labels.leafCosts?] at hc
    split at hc
    next hall =>
      obtain rfl := Option.some.inj hc
      obtain ⟨ds, hds, hcosts⟩ := Derivation.exists_deriveAll (f := f) _
        fun leaf hleaf ↦ hleaves leaf.1 leaf.2 (hall leaf hleaf)
      refine ⟨.step r ds, rfl, ⟨⟨hr, hfits, hadmits⟩, rfl, hds⟩, ?_⟩
      rw [Derivation.cost, hcosts]
      rw [addCost] at hfinite ⊢
      omega
    next => exact absurd hc (by simp)
  · obtain ⟨-, d, -, -, hderives, hd⟩ := hl.cost hs
    have hmatches := Rule.matches_of_isChain hr (by rw [Rule.isChain, hp]) f id
    refine ⟨.step r [d], rfl, ⟨hmatches, rfl, ?_⟩, ?_⟩
    · rw [hp, Pattern.leaves]
      exact ⟨hderives, trivial⟩
    · rw [Derivation.cost, Derivation.costs, Derivation.costs, hd]
      rw [addCost] at hfinite ⊢
      omega

end Attained

end NodeLabel

/-! ## Labels -/

namespace Labels

/-- A node is labeled. -/
def Has (ls : Labels) (k : NodeId) : Prop := (ls.lookup k).isSome = true

theorem has_cons_self (ls : Labels) (k : NodeId) (l : NodeLabel) : Has ((k, l) :: ls) k := by
  rw [Has, List.lookup_cons_self]
  rfl

theorem Has.cons (h : ls.Has k) (id : NodeId) (l : NodeLabel) : Has ((id, l) :: ls) k := by
  by_cases hk : k = id
  · exact hk ▸ has_cons_self ls k l
  · rw [Has, lookup_cons_of_ne ls l hk]
    exact h

/-- Labels that go down to what is computed, and whose costs are least and attained. -/
structure Optimal (f : Forest) (ls : Labels) : Prop where
  closed : ∀ k, ls.Has k → ∀ c, f.MadeFrom k c → ls.Has c
  bounded : ∀ k nt, ls.cost k nt ≤ infinite
  least : ∀ k, ls.Has k → ∀ nt (d : Derivation), d.Derives f k nt → ls.cost k nt ≤ d.cost
  attained : ∀ k nt, ls.cost k nt < infinite →
    ∃ d : Derivation, ls.rule? k nt = some d.rule ∧ d.Derives f k nt ∧ d.cost = ls.cost k nt

namespace Optimal

theorem nil : Optimal f [] where
  closed _ h := absurd h (by simp [Has])
  bounded _ _ := Nat.le_refl _
  least _ h := absurd h (by simp [Has])
  attained _ _ h := absurd h (Nat.lt_irrefl _)

/-- The label of a node continues labels of what the node is made from. -/
theorem cons (h : ls.Optimal f) (hkids : ∀ c, f.MadeFrom id c → ls.Has c) :
    Optimal f ((id, labelNode f ls id) :: ls) := by
  have hattained : NodeLabel.Attained f id (labelNode f ls id) := by
    refine .labelNode fun k nt hcost ↦ ?_
    obtain ⟨d, -, hderives, hd⟩ := h.attained k nt hcost
    exact ⟨d, hderives, hd⟩
  have hleast : ∀ (d : Derivation) (nt : Nonterminal), d.Derives f id nt →
      NodeLabel.cost (labelNode f ls id) nt ≤ d.cost := by
    refine NodeLabel.labelNode_le fun r hmatches hhead leaf hleaf d ↦ h.least leaf.1 ?_ leaf.2 d
    exact r.pattern.leaves_mem h.closed id hhead (Grammar.isTile_rules r hmatches.mem)
      hmatches.fits hkids leaf hleaf
  generalize labelNode f ls id = l at hattained hleast
  have hself := label_cons_self ls id l
  have hother := fun {k} (hk : k ≠ id) ↦ label_cons_of_ne ls l hk
  refine ⟨fun k hk c hc ↦ ?_, fun k nt ↦ ?_, fun k hk nt d hd ↦ ?_, fun k nt hcost ↦ ?_⟩
  · by_cases heq : k = id
    · exact (hkids c (heq ▸ hc)).cons id l
    · rw [Has, lookup_cons_of_ne ls l heq] at hk
      exact (h.closed k hk c hc).cons id l
  · by_cases heq : k = id
    · rw [Labels.cost, heq, hself]
      exact hattained.bounded nt
    · rw [Labels.cost, hother heq]
      exact h.bounded k nt
  · by_cases heq : k = id
    · rw [Labels.cost, heq, hself]
      exact hleast d nt (heq ▸ hd)
    · rw [Has, lookup_cons_of_ne ls l heq] at hk
      rw [Labels.cost, hother heq]
      exact h.least k hk nt d hd
  · by_cases heq : k = id
    · subst heq
      rw [Labels.cost, hself] at hcost ⊢
      obtain ⟨i, d, hbest, hrule, hderives, hd⟩ := hattained.cost hcost
      refine ⟨d, ?_, hderives, hd⟩
      rw [rule?, hself, hbest, hrule]
      rfl
    · rw [Labels.cost, hother heq] at hcost ⊢
      rw [rule?, hother heq]
      exact h.attained k nt hcost

/-- Every node below one that is labeled is labeled. -/
theorem has_of_reaches (h : ls.Optimal f) (hk : ls.Has k)
    (hreach : Relation.ReflTransGen f.MadeFrom k id) : ls.Has id := by
  induction hreach with
  | refl => exact hk
  | tail _ hc ih => exact h.closed _ ih _ hc

/-- The leaves of a rule for the head of a node are labeled. -/
theorem has_leaf (h : ls.Optimal f) (hkids : ∀ c, f.MadeFrom id c → ls.Has c)
    (hmatches : r.Matches f id) (hhead : r.pattern.head? ≠ none) :
    ∀ leaf ∈ r.pattern.leaves f id, ls.Has leaf.1 :=
  r.pattern.leaves_mem h.closed id hhead (Grammar.isTile_rules r hmatches.mem) hmatches.fits hkids

/-- The leaves of a rule are labeled with its node. -/
theorem has_leaves (h : ls.Optimal f) (hid : ls.Has id) (hmatches : r.Matches f id) :
    ∀ leaf ∈ r.pattern.leaves f id, ls.Has leaf.1 := by
  intro leaf hleaf
  by_cases hhead : r.pattern.head? = none
  · cases hp : r.pattern with
    | nt s =>
      rw [hp, Pattern.leaves] at hleaf
      obtain rfl := List.mem_singleton.mp hleaf
      exact hid
    | op => exact absurd hhead (by simp [hp, Pattern.head?])
    | variadic => exact absurd hhead (by simp [hp, Pattern.head?])
  · exact h.has_leaf (h.closed id hid) hmatches hhead leaf hleaf

/-- The cost of a labeled node is that of the cheapest derivation. -/
theorem cost_eq (h : ls.Optimal f) (hk : ls.Has k) (nt : Nonterminal) :
    (ls.cost k nt : ℕ∞) = min (infinite : ℕ∞) (f.leastCost k nt) := by
  refine le_antisymm (le_min (Nat.cast_le.mpr (h.bounded k nt)) ?_) ?_
  · exact le_iInf fun d ↦ Nat.cast_le.mpr (h.least k hk nt d.1 d.2)
  · by_cases hcost : ls.cost k nt < infinite
    · obtain ⟨d, -, hderives, hd⟩ := h.attained k nt hcost
      rw [← hd]
      exact min_le_of_right_le (iInf_le _ (⟨d, hderives⟩ : {d : Derivation // d.Derives f k nt}))
    · exact min_le_of_left_le (Nat.cast_le.mpr (Nat.not_lt.mp hcost))

end Optimal

end Labels

/-! ## Runs -/

/-- What is kept whenever a node is labeled after what it is made from. -/
def KeptByLabels (f : Forest) (P : Labels → Prop) : Prop :=
  ∀ ls id, P ls → (∀ c, f.MadeFrom id c → ls.Has c) → labelNode f ls id ≠ [] →
    P ((id, labelNode f ls id) :: ls)

/-- Labeling from a node labels the node and keeps what is labeled. The way down to the node tells that
there is fuel left for it. -/
theorem labelFrom_done {P : Labels → Prop} (hkeeps : KeptByLabels f P) (hacyclic : f.AcyclicBelow id)
    {path : List NodeId} {fuel : Nat} {u : Unit} (hpath : f.Descends path id)
    (hfuel : f.size < fuel + path.length) (hls : P ls) (h : labelFrom f fuel id ls = .ok u ls') :
    P ls' ∧ ls'.Has id ∧ ∀ k, ls.Has k → ls'.Has k := by
  induction fuel generalizing id ls ls' u path with
  | zero =>
    have hlength := hpath.length_le
    omega
  | succ fuel ih =>
    obtain ⟨hlabeled, rfl⟩ | ⟨-, ls₁, hne, rfl, hkids⟩ := labelFrom_cases h
    · exact ⟨hls, hlabeled, fun _ hk ↦ hk⟩
    · obtain ⟨hls₁, hbelow, hkept⟩ : P ls₁ ∧ (∀ c, f.MadeFrom id c → ls₁.Has c) ∧
          ∀ k, ls.Has k → ls₁.Has k := by
        obtain ⟨hcomputed, rfl⟩ | ⟨hcomputed, u, hkids⟩ := hkids
        · refine ⟨hls, fun c hc ↦ absurd hc.1 ?_, fun _ hk ↦ hk⟩
          simp [hcomputed]
        · have hstep : ∀ c ∈ (f.kidOwners id).reverse, ∀ t u t', P t →
              labelFrom f fuel c t = .ok u t' → P t' ∧ t'.Has c ∧ ∀ k, t.Has k → t'.Has k := by
            intro c hc t u t' ht hrun
            have hc : f.MadeFrom id c := ⟨hcomputed, List.mem_reverse.mp hc⟩
            refine ih (hacyclic.step hc) (hpath.cons hacyclic hc) ?_ ht hrun
            rw [List.length_cons]
            omega
          obtain ⟨hls₁, hall, hkept⟩ := forM_done (Q := fun k t ↦ Labels.Has t k) hkids hls hstep
          exact ⟨hls₁, fun c hc ↦ hall c (List.mem_reverse.mpr hc.2), hkept⟩
      exact ⟨hkeeps ls₁ id hls₁ hbelow hne, Labels.has_cons_self ls₁ id _,
        fun k hk ↦ (hkept k hk).cons id _⟩

theorem keptByLabels_optimal (f : Forest) : KeptByLabels f (Labels.Optimal f) :=
  fun _ _ hls hkids _ ↦ hls.cons hkids

theorem labelFrom_optimal (hacyclic : f.Acyclic) {path : List NodeId} {fuel : Nat} {u : Unit}
    (hpath : f.Descends path id) (hfuel : f.size < fuel + path.length) (hls : ls.Optimal f)
    (h : labelFrom f fuel id ls = .ok u ls') :
    ls'.Optimal f ∧ ls'.Has id ∧ ∀ k, ls.Has k → ls'.Has k :=
  labelFrom_done (keptByLabels_optimal f) (hacyclic.below id) hpath hfuel hls h

/-- **Labels are optimal.** If nothing is made from itself, then every node below the root of a labeled
tree, down to what is computed, has the cost of its cheapest derivation, up to the cap, and a node that
can be reduced below the cap is labeled with the first rule of a derivation at its cost. -/
theorem labelTree_optimal (hacyclic : f.Acyclic) {root : NodeId} {u : Unit}
    (h : labelTree f root [] = .ok u ls) (hk : Relation.ReflTransGen f.MadeFrom (f.owner root) k)
    (nt : Nonterminal) :
    (ls.cost k nt : ℕ∞) = min (infinite : ℕ∞) (f.leastCost k nt) ∧
      (ls.cost k nt < infinite → ∃ d : Derivation,
        ls.rule? k nt = some d.rule ∧ d.Derives f k nt ∧ d.cost = ls.cost k nt) := by
  obtain ⟨hls, hroot, -⟩ := labelFrom_optimal hacyclic .nil (by simp) .nil h
  exact ⟨hls.cost_eq (hls.has_of_reaches hroot hk) nt, hls.attained k nt⟩

/-- An argument and eight more. -/
def Forest.offset : Forest :=
  ⟨#[{ op := .arg 0, width := 64 },
    { op := .imm, width := 64, constant := some (.int 8 true 64), slot := .imm 8 },
    { op := .inst (.binary .add), width := 64, kids := [0, 1] }]⟩

theorem Forest.acyclic_offset : offset.Acyclic := by
  refine acyclic_of_lt fun k c hc ↦ ?_
  have hk := lt_size_of_madeFrom hc
  have hsmall : ∀ k < offset.size, ∀ c ∈ offset.kidOwners k, c < k := by decide
  exact hsmall k hk c hc.2

/-- An address with a displacement is loaded at the cost of two: one for the argument, one for the
address. -/
theorem labelTree_optimal_offset : ∃ ls, labelTree Forest.offset 2 [] = .ok () ls ∧
    ls.cost 2 .reg = 2 ∧ (ls.cost 2 .reg : ℕ∞) = min (infinite : ℕ∞) (Forest.offset.leastCost 2 .reg) ∧
      ∃ d : Derivation, ls.rule? 2 .reg = some d.rule ∧ d.Derives Forest.offset 2 .reg ∧
        d.cost = ls.cost 2 .reg := by
  obtain ⟨ls, h, hcost⟩ : ∃ ls, labelTree Forest.offset 2 [] = .ok () ls ∧ ls.cost 2 .reg = 2 :=
    ⟨_, rfl, rfl⟩
  have hroot : Relation.ReflTransGen Forest.offset.MadeFrom (Forest.offset.owner 2) 2 := .refl
  obtain ⟨hleast, hattained⟩ := labelTree_optimal Forest.acyclic_offset h hroot .reg
  exact ⟨ls, h, hcost, hleast, hattained (by rw [hcost]; decide)⟩

end TreeCover
