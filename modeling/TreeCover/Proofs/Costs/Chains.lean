import Mathlib.Logic.Function.Iterate
import TreeCover.Proofs.Tiling.Derivations

/-!
# Costs fall

Improvements of a label only lower its costs, so whatever one of them brings a cost down to bounds it
from then on. The chain rules come to rest in two rounds, and the closure has time for more than that.
Main statements: `NodeLabel.cost_foldl_le`, `NodeLabel.settled_close`.
-/

namespace TreeCover

variable {l : NodeLabel} {r : Rule} {nt s : Nonterminal} {c : Nat}

namespace NodeLabel

/-! ## Improvements -/

theorem cost_nil (nt : Nonterminal) : cost [] nt = infinite := rfl

theorem cost_cons (i : Improvement) (l : NodeLabel) (nt : Nonterminal) :
    cost (i :: l) nt = if i.rule.lhs = nt then i.cost else l.cost nt := by
  rw [cost, best?_cons]
  split
  next => rfl
  next => rfl

/-- A rule is taken up if that lowers the cost. -/
theorem cost_improve (l : NodeLabel) (r : Rule) (c : Nat) (nt : Nonterminal) :
    (l.improve r c).cost nt = if r.lhs = nt then min (l.cost nt) c else l.cost nt := by
  rw [improve]
  by_cases hnt : r.lhs = nt
  · subst hnt
    split
    next hlt => rw [cost_cons, if_pos rfl, if_pos rfl, Nat.min_eq_right (Nat.le_of_lt hlt)]
    next hle => rw [if_pos rfl, Nat.min_eq_left (Nat.not_lt.mp hle)]
  · rw [if_neg hnt]
    split
    next => rw [cost_cons, if_neg hnt]
    next => rfl

theorem cost_improve_le (l : NodeLabel) (r : Rule) (c : Nat) (nt : Nonterminal) :
    (l.improve r c).cost nt ≤ l.cost nt := by
  rw [cost_improve]
  split
  next => exact Nat.min_le_left _ _
  next => exact Nat.le_refl _

theorem cost_improve_self_le (l : NodeLabel) (r : Rule) (c : Nat) : (l.improve r c).cost r.lhs ≤ c := by
  rw [cost_improve, if_pos rfl]
  exact Nat.min_le_right _ _

section Rounds

variable {step : NodeLabel → Rule → NodeLabel} {rs : List Rule}

/-- What lowers costs step by step lowers them. -/
theorem cost_foldl_le (hstep : ∀ l r nt, (step l r).cost nt ≤ l.cost nt) (rs : List Rule)
    (l : NodeLabel) (nt : Nonterminal) : (rs.foldl step l).cost nt ≤ l.cost nt :=
  List.foldlRecOn (motive := fun l' ↦ l'.cost nt ≤ l.cost nt) rs step (Nat.le_refl _)
    fun l' hl' r _ ↦ Nat.le_trans (hstep l' r nt) hl'

/-- A bound that one of the steps brings about lasts. -/
theorem cost_foldl_le_of_mem (hstep : ∀ l r nt, (step l r).cost nt ≤ l.cost nt) (hr : r ∈ rs)
    (hle : ∀ l, (step l r).cost nt ≤ c) : (rs.foldl step l).cost nt ≤ c := by
  obtain ⟨before, after, rfl⟩ := List.append_of_mem hr
  rw [List.foldl_append, List.foldl_cons]
  exact Nat.le_trans (cost_foldl_le hstep after _ nt) (hle _)

end Rounds

/-! ## Chain rules -/

/-- Costs never exceed the one that stands for no derivation. -/
def Bounded (l : NodeLabel) : Prop := ∀ nt, l.cost nt ≤ infinite

theorem cost_applyChain (hl : l.Bounded) (hp : r.pattern = .nt s) (nt : Nonterminal) :
    (l.applyChain r).cost nt =
      if r.lhs = nt then min (l.cost nt) (l.cost s + r.cost) else l.cost nt := by
  have hnt := hl nt
  rw [applyChain, hp]
  dsimp only
  split
  next =>
    rw [cost_improve, addCost]
    split
    next => omega
    next => rfl
  next hinfinite =>
    -- from what cannot be derived nothing gets cheaper
    split
    next => omega
    next => rfl

theorem cost_applyChain_le (l : NodeLabel) (r : Rule) (nt : Nonterminal) :
    (l.applyChain r).cost nt ≤ l.cost nt := by
  rw [applyChain]
  split
  next =>
    split
    next => exact cost_improve_le l r _ nt
    next => exact Nat.le_refl _
  next => exact Nat.le_refl _

theorem cost_applyChains_le (l : NodeLabel) (nt : Nonterminal) :
    l.applyChains.cost nt ≤ l.cost nt := cost_foldl_le cost_applyChain_le _ l nt

theorem cost_closeFrom_le (fuel : Nat) (l : NodeLabel) (nt : Nonterminal) :
    (l.closeFrom fuel).cost nt ≤ l.cost nt := by
  induction fuel generalizing l with
  | zero => exact Nat.le_refl _
  | succ fuel ih =>
    rw [closeFrom]
    split
    next => exact Nat.le_refl _
    next => exact Nat.le_trans (ih _) (cost_applyChains_le l nt)

theorem Bounded.applyChain (hl : l.Bounded) (r : Rule) : (l.applyChain r).Bounded :=
  fun nt ↦ Nat.le_trans (cost_applyChain_le l r nt) (hl nt)

theorem Bounded.applyChains (hl : l.Bounded) : l.applyChains.Bounded :=
  fun nt ↦ Nat.le_trans (cost_applyChains_le l nt) (hl nt)

/-- No chain rule makes anything cheaper. -/
def Settled (l : NodeLabel) : Prop :=
  ∀ r ∈ Grammar.chainRules, ∀ s, r.pattern = .nt s → l.cost r.lhs ≤ l.cost s + r.cost

/-- What a chain rule does to costs. -/
def relax (costs : Nonterminal → Nat) (r : Rule) : Nonterminal → Nat :=
  match r.pattern with
  | .nt s => fun nt ↦ if r.lhs = nt then min (costs nt) (costs s + r.cost) else costs nt
  | _ => costs

theorem cost_applyChain_eq (hl : l.Bounded) (r : Rule) : (l.applyChain r).cost = relax l.cost r := by
  unfold relax
  split
  next s hp => exact funext (cost_applyChain hl hp)
  next hp =>
    rw [applyChain]
    split
    next s hs => exact absurd hs (hp s)
    next => rfl

theorem cost_foldl_applyChain (hl : l.Bounded) (rs : List Rule) :
    (rs.foldl applyChain l).cost = rs.foldl relax l.cost := by
  induction rs generalizing l with
  | nil => rfl
  | cons r rs ih => rw [List.foldl_cons, List.foldl_cons, ih (hl.applyChain r), cost_applyChain_eq hl]

/-- One round of the chain rules: registers are reduced from constants, memory, addresses and, last of
all, from conditions; addresses and statements are reduced from registers. -/
theorem cost_applyChains (hl : l.Bounded) (nt : Nonterminal) :
    l.applyChains.cost nt =
      let reg := min (min (min (l.cost .reg) (l.cost .imm + 1)) (l.cost .mem + 1)) (l.cost .addr + 1)
      match nt with
      | .reg => min reg (l.cost .cond + 2)
      | .addr => min (l.cost .addr) reg
      | .stmt => min (l.cost .stmt) reg
      | nt => l.cost nt := by
  have hround : Grammar.chainRules = Grammar.chains := rfl
  rw [applyChains, cost_foldl_applyChain hl, hround]
  cases nt <;> simp only [Grammar.chains, List.foldl_cons, List.foldl_nil, relax, reduceCtorEq,
    if_true, if_false, Nat.add_zero]

/-- Two rounds settle the chain rules: only the condition of a comparison is used too late for the
addresses and statements of the first. -/
theorem settled_two_rounds (hl : l.Bounded) : (applyChains^[2] l).Settled := by
  have hround : Grammar.chainRules = Grammar.chains := rfl
  rw [Function.iterate_succ_apply, Function.iterate_succ_apply, Function.iterate_zero_apply]
  -- registers are settled by the first round
  obtain ⟨himm, hmem, haddr, hcond⟩ : l.applyChains.cost .reg ≤ l.applyChains.cost .imm + 1 ∧
      l.applyChains.cost .reg ≤ l.applyChains.cost .mem + 1 ∧
      l.applyChains.cost .reg ≤ l.applyChains.cost .addr + 1 ∧
      l.applyChains.cost .reg ≤ l.applyChains.cost .cond + 2 := by
    simp only [cost_applyChains hl]
    omega
  have hsecond := cost_applyChains hl.applyChains
  generalize l.applyChains = l at himm hmem haddr hcond hsecond
  simp only [Nat.min_eq_left himm, Nat.min_eq_left hmem, Nat.min_eq_left haddr] at hsecond
  intro r hr s hp
  rw [hround, Grammar.chains] at hr
  simp only [List.mem_cons, List.not_mem_nil, or_false] at hr
  rcases hr with rfl | rfl | rfl | rfl | rfl | rfl <;> cases hp <;> simp only [hsecond] <;> omega

/-! ## The closure -/

theorem length_le_applyChain (l : NodeLabel) (r : Rule) :
    l.applyChain r = l ∨ (l.applyChain r).length = l.length + 1 := by
  rw [applyChain]
  split
  next s _ =>
    split
    next =>
      rcases l.improve_cases r (addCost (l.cost s) r.cost) with heq | ⟨-, heq⟩
      · exact Or.inl heq
      · exact Or.inr (heq ▸ rfl)
    next => exact Or.inl rfl
  next => exact Or.inl rfl

theorem length_le_foldl_applyChain (rs : List Rule) (l : NodeLabel) :
    l.length ≤ (rs.foldl applyChain l).length := by
  refine List.foldlRecOn (motive := fun l' ↦ l.length ≤ l'.length) rs applyChain (Nat.le_refl _)
    fun l' hl' r _ ↦ Nat.le_trans hl' ?_
  rcases length_le_applyChain l' r with heq | hlength
  · exact Nat.le_of_eq (congrArg List.length heq.symm)
  · omega

/-- A round that adds no improvement tried every rule in vain. -/
theorem applyChain_of_length : ∀ {rs : List Rule} {l : NodeLabel},
    (rs.foldl applyChain l).length = l.length → ∀ r ∈ rs, l.applyChain r = l
  | [], _, _, _, hr => absurd hr List.not_mem_nil
  | r :: rs, l, h, r', hr' => by
    rw [List.foldl_cons] at h
    have hr : l.applyChain r = l := by
      refine (length_le_applyChain l r).resolve_right fun hlonger ↦ ?_
      have hle := length_le_foldl_applyChain rs (l.applyChain r)
      omega
    rw [hr] at h
    rcases List.mem_cons.mp hr' with rfl | hr'
    · exact hr
    · exact applyChain_of_length h r' hr'

theorem settled_of_length (hl : l.Bounded) (h : l.applyChains.length = l.length) : l.Settled := by
  intro r hr s hp
  have hcost := cost_applyChain hl hp r.lhs
  rw [applyChain_of_length h r hr, if_pos rfl] at hcost
  exact hcost ▸ Nat.min_le_right _ _

theorem Settled.applyChain (h : l.Settled) (hl : l.Bounded) (hr : r ∈ Grammar.chainRules) :
    l.applyChain r = l := by
  rw [NodeLabel.applyChain]
  split
  next s hp =>
    split
    next =>
      have hle : l.cost r.lhs ≤ addCost (l.cost s) r.cost := Nat.le_min.mpr ⟨h r hr s hp, hl r.lhs⟩
      rw [improve, if_neg (Nat.not_lt.mpr hle)]
    next => rfl
  next => rfl

theorem Settled.applyChains (h : l.Settled) (hl : l.Bounded) : l.applyChains = l :=
  List.foldlRecOn (motive := fun l' ↦ l' = l) _ NodeLabel.applyChain rfl
    fun _ hl' _ hr ↦ hl' ▸ h.applyChain hl hr

/-- The closure settles costs if it has the rounds for it. -/
theorem settled_closeFrom (hl : l.Bounded) {rounds fuel : Nat} (hrounds : rounds ≤ fuel)
    (h : (applyChains^[rounds] l).Settled) : (l.closeFrom fuel).Settled := by
  induction fuel generalizing l rounds with
  | zero =>
    obtain rfl := Nat.le_zero.mp hrounds
    exact h
  | succ fuel ih =>
    rw [closeFrom]
    split
    next hlength => exact settled_of_length hl hlength
    next hlength =>
      cases rounds with
      | zero => exact absurd (congrArg List.length (Settled.applyChains h hl)) hlength
      | succ rounds => exact ih hl.applyChains (Nat.le_of_succ_le_succ hrounds) h

/-- **The chain rules come to rest.** -/
theorem settled_close (hl : l.Bounded) : l.close.Settled := by
  have htime : 2 ≤ Nonterminal.all.length + 1 := by decide
  rw [close]
  exact settled_closeFrom hl htime (settled_two_rounds hl)

end NodeLabel

end TreeCover
