import Mathlib.Tactic.ByContra
import TreeCover.Proofs.Work.Success
import TreeCover.Tiling.Labels

/-!
# Rules that match

A rule that labels a node belongs to the grammar and matches the node: the heads of its pattern are
those of the tree at the time of labeling, and its guard admits the node.
-/

namespace TreeCover

open Work

variable {f : Forest} {id : NodeId} {r : Rule} {l : NodeLabel} {ls ls' : Labels} {nt : Nonterminal}

/-! ## Patterns -/

mutual

/-- A pattern has the heads of the tree at a node. -/
def Pattern.Fits (f : Forest) : Pattern → NodeId → Prop
  | .nt _, _ => True
  | .op h kids, id =>
    (f.node id).head? = some h ∧ (h ≠ .inRegister →
      (f.node id).kids.length = kids.length ∧ Pattern.FitKids f kids (f.kidOwners id))
  | .variadic h _, id => (f.node id).head? = some h

/-- Patterns have the heads of the trees at corresponding nodes. -/
def Pattern.FitKids (f : Forest) : List Pattern → List NodeId → Prop
  | p :: ps, id :: ids => p.Fits f id ∧ Pattern.FitKids f ps ids
  | _, _ => True

end

mutual

theorem Pattern.fits_of_matchCost {c : Nat} :
    ∀ (p : Pattern) (id : NodeId), p.matchCost? f ls id = some c → p.Fits f id
  | .nt _, _, _ => trivial
  | .op h kids, id, hcost => by
    rw [Pattern.matchCost?] at hcost
    rw [Pattern.Fits]
    by_cases hhead : (f.node id).head? = some h
    · refine ⟨hhead, fun hne ↦ ?_⟩
      rw [if_neg (not_not_intro hhead), if_neg hne] at hcost
      split at hcost
      next => exact absurd hcost (by simp)
      next hlength => exact ⟨not_not.mp hlength, Pattern.fitKids_of_matchKids kids _ hcost⟩
    · rw [if_pos hhead] at hcost
      exact absurd hcost (by simp)
  | .variadic h goal, id, hcost => by
    rw [Pattern.matchCost?] at hcost
    rw [Pattern.Fits]
    by_contra hhead
    rw [if_pos hhead] at hcost
    exact absurd hcost (by simp)

theorem Pattern.fitKids_of_matchKids {c : Nat} :
    ∀ (ps : List Pattern) (ids : List NodeId), Pattern.matchKids? f ls ps ids = some c →
      Pattern.FitKids f ps ids
  | [], _, _ => by simp [Pattern.FitKids]
  | _ :: _, [], _ => by simp [Pattern.FitKids]
  | p :: ps, id :: ids, hcost => by
    rw [Pattern.matchKids?] at hcost
    obtain ⟨c₁, hp, hrest⟩ := Option.bind_eq_some_iff.mp hcost
    obtain ⟨c₂, hps, -⟩ := Option.bind_eq_some_iff.mp hrest
    rw [Pattern.FitKids]
    exact ⟨p.fits_of_matchCost id hp, Pattern.fitKids_of_matchKids ps ids hps⟩

end

/-! ## Labels -/

/-- A rule of the grammar whose pattern fits a node that its guard admits. -/
structure Rule.Matches (r : Rule) (f : Forest) (id : NodeId) : Prop where
  mem : r ∈ Grammar.rules
  fits : r.pattern.Fits f id
  admits : r.admits f id = true

theorem Grammar.guard_of_isChain : ∀ r ∈ Grammar.rules, r.isChain = true → r.guard = none := by
  decide

theorem Rule.matches_of_isChain (hr : r ∈ Grammar.rules) (h : r.isChain = true) (f : Forest)
    (id : NodeId) : r.Matches f id := by
  refine ⟨hr, ?_, by rw [admits, Grammar.guard_of_isChain r hr h]; rfl⟩
  rw [isChain] at h
  cases hp : r.pattern with
  | nt goal => rw [Pattern.Fits]; trivial
  | op head kids => rw [hp] at h; exact absurd h (by simp)
  | variadic head goal => rw [hp] at h; exact absurd h (by simp)

/-- All rules of a label match its node. -/
def NodeLabel.Sound (f : Forest) (id : NodeId) (l : NodeLabel) : Prop :=
  ∀ i ∈ l, i.rule.Matches f id

/-- All labels match their nodes. -/
def Labels.Sound (f : Forest) (ls : Labels) : Prop := ∀ k l, (k, l) ∈ ls → NodeLabel.Sound f k l

/-- What holds of no improvements and is kept when a rule that matches is taken up, or a chain rule
from what can be derived, holds of the label of a node. -/
theorem labelNode_induct {P : NodeLabel → Prop} (hnil : P [])
    (hrule : ∀ l, P l → ∀ r ∈ Grammar.rules, r.pattern.head? ≠ none → r.admits f id = true →
      ∀ c, r.pattern.matchCost? f ls id = some c → P (l.improve r (addCost c r.cost)))
    (hchain : ∀ l, P l → ∀ r ∈ Grammar.rules, ∀ s, r.pattern = .nt s → l.cost s < infinite →
      P (l.improve r (addCost (l.cost s) r.cost))) : P (labelNode f ls id) := by
  have happlyChain : ∀ l, P l → ∀ r ∈ Grammar.chainRules, P (l.applyChain r) := by
    intro l hl r hr
    rw [NodeLabel.applyChain]
    split
    next s hp =>
      split
      next hcost => exact hchain l hl r (List.mem_filter.mp hr).1 s hp hcost
      next => exact hl
    next => exact hl
  have hcloseFrom : ∀ fuel l, P l → P (l.closeFrom fuel) := by
    intro fuel
    induction fuel with
    | zero => exact fun _ hl ↦ hl
    | succ fuel ih =>
      intro l hl
      rw [NodeLabel.closeFrom]
      split
      next => exact hl
      next => exact ih _ (List.foldlRecOn _ NodeLabel.applyChain hl happlyChain)
  refine hcloseFrom _ _ (List.foldlRecOn _ _ hnil fun l hl r hr ↦ ?_)
  -- the rules that are tried are those for the head of the node
  obtain ⟨hmem, hhead⟩ : r ∈ Grammar.rules ∧ r.pattern.head? ≠ none := by
    cases hhead : (f.node id).head? with
    | none =>
      rw [hhead] at hr
      exact absurd hr List.not_mem_nil
    | some h =>
      rw [hhead] at hr
      obtain ⟨hmem, hr⟩ := List.mem_filter.mp hr
      exact ⟨hmem, by simp [of_decide_eq_true hr]⟩
  rw [tryRule]
  split
  next hadmits =>
    cases hcost : r.pattern.matchCost? f ls id with
    | some c => exact hrule l hl r hmem hhead hadmits c hcost
    | none => exact hl
  next => exact hl

theorem NodeLabel.mem_improve {i : Improvement} {cost : Nat} (h : i ∈ l.improve r cost) :
    i = ⟨r, cost⟩ ∨ i ∈ l := by
  rw [NodeLabel.improve] at h
  split at h
  next => exact List.mem_cons.mp h
  next => exact Or.inr h

theorem sound_labelNode (f : Forest) (ls : Labels) (id : NodeId) :
    NodeLabel.Sound f id (labelNode f ls id) := by
  refine labelNode_induct (fun i hi ↦ absurd hi List.not_mem_nil)
    (fun l hl r hr _ hadmits c hcost i hi ↦ ?_) fun l hl r hr s hp _ i hi ↦ ?_
  · rcases NodeLabel.mem_improve hi with rfl | hi
    · exact ⟨hr, r.pattern.fits_of_matchCost id hcost, hadmits⟩
    · exact hl i hi
  · rcases NodeLabel.mem_improve hi with rfl | hi
    · exact Rule.matches_of_isChain hr (by rw [Rule.isChain, hp]) f id
    · exact hl i hi

/-- What labeling a node does: nothing if it is labeled; else its children come first, unless its
value is known, and then the node. -/
theorem labelFrom_cases {fuel : Nat} {u : Unit} (h : labelFrom f (fuel + 1) id ls = .ok u ls') :
    (ls.lookup id).isSome = true ∧ ls' = ls ∨ ls.lookup id = none ∧
      ∃ ls₁, labelNode f ls₁ id ≠ [] ∧ ls' = (id, labelNode f ls₁ id) :: ls₁ ∧
        ((f.node id).computed = true ∧ ls₁ = ls ∨ (f.node id).computed = false ∧
          ∃ u, (f.kidOwners id).reverse.forM (labelFrom f fuel) ls = .ok u ls₁) := by
  have hadd : ∀ {l : NodeLabel} {ls₁ : Labels}, (if l.isEmpty then do throw id; modify ((id, l) :: ·)
      else modify ((id, l) :: ·) : EStateM NodeId Labels Unit) ls₁ = .ok u ls' →
      l ≠ [] ∧ ls' = (id, l) :: ls₁ := by
    intro l ls₁ h
    split at h
    next =>
      obtain ⟨_, _, hthrow, -⟩ := bind_eq_ok.mp h
      exact absurd hthrow throw_ne_ok
    next hne => exact ⟨by simpa using hne, modify_eq_ok.mp h⟩
  rw [labelFrom] at h
  simp only [bind_eq_ok, get_eq_ok] at h
  obtain ⟨_, _, ⟨rfl, rfl⟩, h⟩ := h
  split at h
  next hlabeled => exact Or.inl ⟨hlabeled, (pure_eq_ok.mp h).2⟩
  next hlabeled =>
    refine Or.inr ⟨Option.not_isSome_iff_eq_none.mp hlabeled, ?_⟩
    split at h
    next hcomputed =>
      simp only [bind_eq_ok, get_eq_ok] at h
      obtain ⟨ls₁, _, ⟨rfl, rfl⟩, h⟩ := h
      exact ⟨_, (hadd h).1, (hadd h).2, Or.inl ⟨hcomputed, rfl⟩⟩
    next hcomputed =>
      simp only [bind_eq_ok, get_eq_ok] at h
      obtain ⟨u₁, ls₁, hkids, _, _, ⟨rfl, rfl⟩, h⟩ := h
      exact ⟨_, (hadd h).1, (hadd h).2, Or.inr ⟨Bool.eq_false_iff.mpr hcomputed, u₁, hkids⟩⟩

theorem sound_labelFrom {fuel : Nat} {u : Unit} (h : labelFrom f fuel id ls = .ok u ls')
    (hls : ls.Sound f) : ls'.Sound f := by
  induction fuel generalizing id ls ls' u with
  | zero =>
    obtain ⟨-, rfl⟩ := pure_eq_ok.mp h
    exact hls
  | succ fuel ih =>
    obtain ⟨-, rfl⟩ | ⟨-, ls₁, -, rfl, hkids⟩ := labelFrom_cases h
    · exact hls
    · have hls₁ : ls₁.Sound f := by
        obtain ⟨-, rfl⟩ | ⟨-, u, hkids⟩ := hkids
        · exact hls
        · exact forM_induct hkids hls fun k _ t u t' ht hk ↦ ih hk ht
      intro k l hmem
      rcases List.mem_cons.mp hmem with heq | hmem
      · rw [Prod.mk.injEq] at heq
        rw [heq.1, heq.2]
        exact sound_labelNode f ls₁ id
      · exact hls₁ k l hmem

theorem Labels.Sound.label (h : ls.Sound f) (id : NodeId) : NodeLabel.Sound f id (ls.label id) := by
  rw [Labels.label]
  cases hl : ls.lookup id with
  | none => exact fun _ hi ↦ absurd hi List.not_mem_nil
  | some l =>
    obtain ⟨ks, ks', rfl, -⟩ := List.lookup_eq_some_iff.mp hl
    exact h id l (List.mem_append_right ks List.mem_cons_self)

theorem Labels.Sound.rule (h : ls.Sound f) (hrule : ls.rule? id nt = some r) :
    r.Matches f id ∧ r.lhs = nt := by
  obtain ⟨i, hbest, rfl⟩ := Option.map_eq_some_iff.mp hrule
  have hlhs := List.find?_some hbest
  exact ⟨h.label id i (List.mem_of_find?_eq_some hbest), by simpa using hlhs⟩

end TreeCover
