import TreeCover.Proofs.Costs.Failure

/-!
# Ties

Several rules can complete a derivation of least cost. The rules for the head of a node are tried before
the chain rules, and a rule is taken up only if it is strictly cheaper than all before it. So the rule of a
label is the first of those that complete a cheapest derivation, where all chain rules stand behind all
others, each kind in the order of the table. In the table itself the chain rules come early: a rule for
the head keeps its place before a chain rule that was declared first. Main statement:
`recorded_first`.
-/

namespace TreeCover

variable {f : Forest} {ls ls' : Labels} {k id root : NodeId} {nt s : Nonterminal} {r : Rule}
  {l l' l₀ : NodeLabel} {i : Improvement}

/-! ## The first of a list -/

/-- The first element of a list with a property. -/
def FirstIn {α : Type} (xs : List α) (P : α → Prop) (x : α) : Prop :=
  P x ∧ ∃ before after, xs = before ++ x :: after ∧ ∀ y ∈ before, ¬ P y

namespace FirstIn

variable {α : Type} {xs ys : List α} {P Q : α → Prop} {x y : α}

theorem mem (h : FirstIn xs P x) : x ∈ xs := by
  obtain ⟨-, before, after, rfl, -⟩ := h
  exact List.mem_append_right _ List.mem_cons_self

theorem congr (h : FirstIn xs P x) (hPQ : ∀ y ∈ xs, P y ↔ Q y) : FirstIn xs Q x := by
  have hx := h.mem
  obtain ⟨hP, before, after, rfl, hbefore⟩ := h
  exact ⟨(hPQ x hx).mp hP, before, after, rfl,
    fun y hy hQ ↦ hbefore y hy ((hPQ y (List.mem_append_left _ hy)).mpr hQ)⟩

theorem append_right (h : FirstIn xs P x) (ys : List α) : FirstIn (xs ++ ys) P x := by
  obtain ⟨hP, before, after, rfl, hbefore⟩ := h
  exact ⟨hP, before, after ++ ys, by simp, hbefore⟩

theorem append_left (h : FirstIn ys P x) (hxs : ∀ y ∈ xs, ¬ P y) : FirstIn (xs ++ ys) P x := by
  obtain ⟨hP, before, after, rfl, hbefore⟩ := h
  refine ⟨hP, xs ++ before, after, by simp, fun y hy ↦ ?_⟩
  exact (List.mem_append.mp hy).elim (hxs y) (hbefore y)

/-- The first element of two lists together is that of the one, or the one has none. -/
theorem of_append (h : FirstIn (xs ++ ys) P x) :
    FirstIn xs P x ∨ (∀ y ∈ xs, ¬ P y) ∧ FirstIn ys P x := by
  obtain ⟨hP, before, after, heq, hbefore⟩ := h
  rcases List.append_eq_append_iff.mp heq with ⟨front, rfl, rfl⟩ | ⟨back, rfl, hback⟩
  · refine Or.inr ⟨fun y hy ↦ hbefore y (List.mem_append_left _ hy), hP, front, after, rfl, ?_⟩
    exact fun y hy ↦ hbefore y (List.mem_append_right _ hy)
  · cases back with
    | nil =>
      rw [List.append_nil]
      exact Or.inr ⟨hbefore, hP, [], after, hback.symm, List.forall_mem_nil _⟩
    | cons z back =>
      obtain ⟨rfl, -⟩ := List.cons.inj hback
      exact Or.inl ⟨hP, before, back, rfl, hbefore⟩

/-- What is dropped from a list does not come first. -/
theorem filter_iff {p : α → Bool} :
    FirstIn (xs.filter p) P x ↔ FirstIn xs (fun y ↦ p y = true ∧ P y) x := by
  constructor
  · rintro ⟨hP, before, after, heq, hbefore⟩
    obtain ⟨front, back, rfl, rfl, hback⟩ := List.filter_eq_append_iff.mp heq
    obtain ⟨dropped, rest, rfl, hdropped, hp, -⟩ := List.filter_eq_cons_iff.mp hback
    refine ⟨⟨hp, hP⟩, front ++ dropped, rest, by simp, fun y hy hyP ↦ ?_⟩
    rcases List.mem_append.mp hy with hy | hy
    · exact hbefore y (List.mem_filter.mpr ⟨hy, hyP.1⟩) hyP.2
    · exact hdropped y hy hyP.1
  · rintro ⟨⟨hp, hP⟩, before, after, rfl, hbefore⟩
    refine ⟨hP, before.filter p, after.filter p, by simp [hp], fun y hy hyP ↦ ?_⟩
    obtain ⟨hy, hyp⟩ := List.mem_filter.mp hy
    exact hbefore y hy ⟨hyp, hyP⟩

end FirstIn

/-! ## Scanning the rules for a head -/

/-- The cost that a rule for the head of a node gives, if it can be used. -/
def Rule.bid (r : Rule) (f : Forest) (ls : Labels) (id : NodeId) : Option Nat :=
  if r.admits f id then (r.pattern.matchCost? f ls id).map (addCost · r.cost) else none

namespace NodeLabel

/-- Takes up a rule at the cost that is bid for it, if that is strictly cheaper. -/
def offer (bid : Rule → Option Nat) (l : NodeLabel) (r : Rule) : NodeLabel :=
  match bid r with
  | some c => l.improve r c
  | none => l

theorem tryRule_eq_offer (f : Forest) (ls : Labels) (id : NodeId) :
    tryRule f ls id = offer (·.bid f ls id) := by
  funext l r
  rw [tryRule, offer, Rule.bid]
  split
  next =>
    cases r.pattern.matchCost? f ls id with
    | some c => rfl
    | none => rfl
  next => rfl

variable {bid : Rule → Option Nat} {rs : List Rule}

theorem cost_offer_le (l : NodeLabel) (r : Rule) (nt : Nonterminal) :
    (offer bid l r).cost nt ≤ l.cost nt := by
  rw [offer]
  split
  next => exact cost_improve_le l r _ nt
  next => exact Nat.le_refl _

/-- No bid is below the cost that is reached. -/
theorem cost_offers_le {c : Nat} (hr : r ∈ rs) (hbid : bid r = some c) :
    cost (rs.foldl (offer bid) []) r.lhs ≤ c := by
  refine cost_foldl_le_of_mem cost_offer_le hr fun l ↦ ?_
  rw [offer, hbid]
  exact cost_improve_self_le l r c

/-- The rule that stays is the first that bids the least cost. -/
theorem offers_first (h : best? (rs.foldl (offer bid) []) nt = some i) :
    FirstIn rs (fun r ↦ r.lhs = nt ∧ bid r = some i.cost) i.rule := by
  induction rs using List.reverseRecOn generalizing i with
  | nil => exact absurd h nofun
  | append_singleton rs r ih =>
    rw [List.foldl_append, List.foldl_cons, List.foldl_nil, offer] at h
    cases hbid : bid r with
    | none =>
      rw [hbid] at h
      exact (ih h).append_right [r]
    | some c =>
      simp only [hbid] at h
      rcases improve_cases (rs.foldl (offer bid) []) r c with heq | ⟨hlt, heq⟩
      · rw [heq] at h
        exact (ih h).append_right [r]
      · rw [heq, best?_cons] at h
        split at h
        next hlhs =>
          obtain rfl := Option.some.inj h
          have hself : FirstIn [r] (fun r ↦ r.lhs = nt ∧ bid r = some c) r :=
            ⟨⟨hlhs, hbid⟩, [], [], rfl, List.forall_mem_nil _⟩
          refine hself.append_left fun r' hr' hbid' ↦ ?_
          -- an earlier rule with the same bid would have been taken up
          have hle := cost_offers_le hr' hbid'.2
          rw [hbid'.1, ← hlhs] at hle
          exact Nat.not_le_of_lt hlt hle
        next => exact (ih h).append_right [r]

end NodeLabel

/-! ## Chain rules in rounds -/

namespace Grammar

/-- Several chain rules lead to registers, and one to anything else. -/
theorem chains_apart :
    chainRules.Pairwise fun r r' ↦ r.lhs = r'.lhs → r'.lhs = .reg := by decide

/-- What a register comes from is reached by chain rules from registers only, and the way back is not
for free. -/
theorem chains_return : ∀ r ∈ chainRules, r.lhs = .reg → ∀ r' ∈ chainRules,
    r.pattern.source? = some r'.lhs → r'.pattern.source? = some .reg ∧ 0 < r.cost := by decide

theorem source_ne_lhs : ∀ r ∈ chainRules, r.pattern.source? ≠ some r.lhs := by decide

theorem exists_source (hr : r ∈ chainRules) : ∃ s, r.pattern = .nt s := by
  have hchain := (List.mem_filter.mp hr).2
  rw [Rule.isChain] at hchain
  split at hchain
  next s hp => exact ⟨s, hp⟩
  next => exact absurd hchain Bool.false_ne_true

end Grammar

namespace NodeLabel

/-- What holds of a label and is kept by rounds of the chain rules holds of the closure. -/
theorem closeFrom_induct {P : NodeLabel → Prop} (hround : ∀ l, P l → P l.applyChains) (hl : P l)
    (fuel : Nat) : P (l.closeFrom fuel) := by
  induction fuel generalizing l with
  | zero => exact hl
  | succ fuel ih =>
    rw [closeFrom]
    split
    next => exact hl
    next => exact ih (hround l hl)

/-- A chain rule changes nothing, since it is no cheaper, or it is taken up. -/
theorem applyChain_cases (hl : l.Bounded) (hp : r.pattern = .nt s) :
    l.applyChain r = l ∧ l.cost r.lhs ≤ l.cost s + r.cost ∨
      l.cost s + r.cost < l.cost r.lhs ∧ l.applyChain r = ⟨r, l.cost s + r.cost⟩ :: l := by
  have hbound := hl r.lhs
  rw [applyChain, hp]
  dsimp only
  split
  next hs =>
    rcases l.improve_cases r (addCost (l.cost s) r.cost) with heq | ⟨hlt, heq⟩
    · refine (Nat.lt_or_ge (l.cost s + r.cost) (l.cost r.lhs)).elim (fun hlt ↦ ?_) fun hge ↦ ?_
      · have hadd : addCost (l.cost s) r.cost = l.cost s + r.cost := by
          rw [addCost]
          omega
        rw [hadd, improve, if_pos hlt]
        exact Or.inr ⟨hlt, rfl⟩
      · exact Or.inl ⟨heq, hge⟩
    · have hadd : addCost (l.cost s) r.cost = l.cost s + r.cost := by
        rw [addCost] at hlt ⊢
        omega
      rw [heq, hadd]
      exact Or.inr ⟨hadd ▸ hlt, rfl⟩
  next hs => exact Or.inl ⟨rfl, by omega⟩

/-- What chain rules have added to a label: a nonterminal has kept its rule, or it has become cheaper by
a chain rule. -/
def Chained (l₀ l : NodeLabel) : Prop :=
  ∀ nt, l.best? nt = l₀.best? nt ∨
    l.cost nt < l₀.cost nt ∧ ∃ i, l.best? nt = some i ∧ i.rule ∈ Grammar.chainRules

theorem Chained.applyChain (h : Chained l₀ l) (hl : l.Bounded) (hr : r ∈ Grammar.chainRules) :
    Chained l₀ (l.applyChain r) := by
  obtain ⟨s, hp⟩ := Grammar.exists_source hr
  rcases applyChain_cases hl hp with ⟨heq, -⟩ | ⟨hlt, heq⟩
  · rw [heq]
    exact h
  · rw [heq]
    intro nt
    rw [best?_cons, cost_cons]
    by_cases hlhs : r.lhs = nt
    · subst hlhs
      rw [if_pos rfl, if_pos rfl]
      refine Or.inr ⟨?_, _, rfl, hr⟩
      rcases h r.lhs with hsame | ⟨hlower, -⟩
      · have hcost : l₀.cost r.lhs = l.cost r.lhs := by rw [cost, cost, hsame]
        exact hcost ▸ hlt
      · exact Nat.lt_trans hlt hlower
    · rw [if_neg hlhs, if_neg hlhs]
      exact h nt

/-- A chain rule that leads to the cost of a nonterminal. -/
def Serves (l : NodeLabel) (nt : Nonterminal) (r : Rule) : Prop :=
  r.lhs = nt ∧ ∃ s, r.pattern = .nt s ∧ l.cost s + r.cost ≤ l.cost nt

/-- A chain rule that counts is the first that serves. -/
def Led (l : NodeLabel) : Prop :=
  ∀ nt i, l.best? nt = some i → i.rule.isChain = true → FirstIn Grammar.chainRules (l.Serves nt) i.rule

/-- Registers are no cheaper by any of some chain rules. -/
def Tried (l : NodeLabel) (rs : List Rule) : Prop :=
  ∀ r ∈ rs, r.lhs = .reg → ∀ s, r.pattern = .nt s → l.cost .reg ≤ l.cost s + r.cost

section Round

theorem cost_taken (l : NodeLabel) (r : Rule) (c : Nat) (nt : Nonterminal) :
    cost (⟨r, c⟩ :: l) nt = if r.lhs = nt then c else l.cost nt := cost_cons ⟨r, c⟩ l nt

variable {before after rs : List Rule} (hr : r ∈ Grammar.chainRules) (hp : r.pattern = .nt s)
include hr hp

/-- A chain rule does not start where it leads to. -/
theorem source_ne : s ≠ r.lhs := by
  have hne := Grammar.source_ne_lhs r hr
  rw [hp] at hne
  exact fun h ↦ hne (congrArg some h)

/-- What a register comes from is not made cheaper than the register. -/
theorem source_of_return {c : Rule} (hc : c ∈ Grammar.chainRules) (hlhs : c.lhs = .reg)
    (hsource : c.pattern = .nt r.lhs) : s = .reg ∧ 0 < c.cost := by
  have hreturn := Grammar.chains_return c hc hlhs r hr
  rw [hsource, hp] at hreturn
  exact (hreturn rfl).imp_left Option.some.inj

omit hr in
theorem Tried.snoc (htried : l.Tried rs) (hle : r.lhs = .reg → l.cost .reg ≤ l.cost s + r.cost) :
    l.Tried (rs ++ [r]) := by
  intro c hc hlhs t ht
  rcases List.mem_append.mp hc with hc | hc
  · exact htried c hc hlhs t ht
  · obtain rfl := List.mem_singleton.mp hc
    obtain rfl : s = t := by simpa [hp] using ht
    exact hle hlhs

/-- Rules for registers that were tried in vain stay so when another chain rule is taken up. -/
theorem Tried.cons (htried : l.Tried rs) (hrs : ∀ c ∈ rs, c ∈ Grammar.chainRules)
    (hlt : l.cost s + r.cost < l.cost r.lhs) : Tried (⟨r, l.cost s + r.cost⟩ :: l) rs := by
  intro c hc hlhs t ht
  have hle := htried c hc hlhs t ht
  rw [cost_taken, cost_taken]
  by_cases hreg : r.lhs = .reg
  · have hne : r.lhs ≠ t := fun h ↦ source_ne (hrs c hc) ht (hlhs.trans (hreg.symm.trans h)).symm
    rw [if_pos hreg, if_neg hne]
    rw [hreg] at hlt
    exact Nat.le_trans (Nat.le_of_lt hlt) hle
  · rw [if_neg hreg]
    by_cases hsource : r.lhs = t
    · obtain ⟨rfl, -⟩ := source_of_return hr hp (hrs c hc) hlhs (hsource ▸ ht)
      rw [if_pos hsource]
      omega
    · rw [if_neg hsource]
      exact hle

/-- A chain rule that is taken up in its turn is the first that serves, since those before it have been
tried in the same round. -/
theorem Led.cons (hled : l.Led) (hsplit : Grammar.chainRules = before ++ r :: after)
    (htried : l.Tried before) (hlt : l.cost s + r.cost < l.cost r.lhs) :
    Led (⟨r, l.cost s + r.cost⟩ :: l) := by
  have hbefore : ∀ c ∈ before, c ∈ Grammar.chainRules :=
    fun c hc ↦ hsplit ▸ List.mem_append_left _ hc
  intro nt i hbest hchain
  rw [best?_cons] at hbest
  split at hbest
  next hlhs =>
    obtain rfl := Option.some.inj hbest
    refine ⟨⟨hlhs, s, hp, ?_⟩, before, after, hsplit, fun c hc ⟨hclhs, t, ht, hle⟩ ↦ ?_⟩
    · rw [cost_taken, cost_taken, if_neg (source_ne hr hp).symm, if_pos hlhs]
    · -- an earlier rule for the same nonterminal is one for registers
      have hapart := Grammar.chains_apart
      rw [hsplit, List.pairwise_append] at hapart
      have hreg : r.lhs = .reg := hapart.2.2 c hc r List.mem_cons_self (hclhs.trans hlhs.symm)
      have hcreg : c.lhs = .reg := hclhs.trans (hlhs.symm.trans hreg)
      have hne : r.lhs ≠ t := fun h ↦ source_ne (hbefore c hc) ht (hcreg.trans (hreg.symm.trans h)).symm
      rw [cost_taken, cost_taken, if_neg hne, if_pos hlhs] at hle
      have htry := htried c hc hcreg t ht
      rw [hreg] at hlt
      omega
  next hlhs =>
    obtain ⟨⟨hilhs, t, ht, hle⟩, earlier, later, hsplit', hfirst⟩ := hled nt i hbest hchain
    refine ⟨⟨hilhs, t, ht, ?_⟩, earlier, later, hsplit', fun c hc ⟨hclhs, u, hu, hcle⟩ ↦ ?_⟩
    · rw [cost_taken, cost_taken, if_neg hlhs]
      split
      next hsource =>
        rw [hsource] at hlt
        omega
      next => exact hle
    · have hapart := Grammar.chains_apart
      rw [hsplit', List.pairwise_append] at hapart
      have hireg : i.rule.lhs = .reg := hapart.2.2 c hc i.rule List.mem_cons_self (hclhs.trans hilhs.symm)
      obtain rfl : nt = .reg := hilhs.symm.trans hireg
      have hmem : c ∈ Grammar.chainRules := hsplit' ▸ List.mem_append_left _ hc
      rw [cost_taken, cost_taken, if_neg hlhs] at hcle
      split at hcle
      next hsource =>
        obtain ⟨rfl, hpos⟩ := source_of_return hr hp hmem hclhs (hsource ▸ hu)
        omega
      next => exact hfirst c hc ⟨hclhs, u, hu, hcle⟩

end Round

/-- **Rounds.** After the rules of a round have been tried in order, every chain rule that counts is the
first that serves. -/
theorem Led.foldl_applyChain {before after : List Rule} (hsplit : Grammar.chainRules = before ++ after)
    (hl : l.Bounded) (hled : l.Led) (htried : l.Tried before) : (after.foldl applyChain l).Led := by
  induction after generalizing before l with
  | nil => exact hled
  | cons r after ih =>
    have hmem : ∀ c ∈ before ++ r :: after, c ∈ Grammar.chainRules := fun c hc ↦ hsplit ▸ hc
    have hr := hmem r (List.mem_append_right _ List.mem_cons_self)
    obtain ⟨s, hp⟩ := Grammar.exists_source hr
    rw [List.foldl_cons]
    have hsplit' : Grammar.chainRules = (before ++ [r]) ++ after := by
      rw [hsplit, List.append_assoc, List.singleton_append]
    obtain ⟨hled', htried'⟩ : (l.applyChain r).Led ∧ (l.applyChain r).Tried (before ++ [r]) := by
      rcases applyChain_cases hl hp with ⟨heq, hle⟩ | ⟨hlt, heq⟩
      · rw [heq]
        exact ⟨hled, htried.snoc hp fun hlhs ↦ hlhs ▸ hle⟩
      · rw [heq]
        refine ⟨Led.cons hr hp hled hsplit htried hlt, .snoc hp ?_ fun hlhs ↦ ?_⟩
        · exact Tried.cons hr hp htried (fun c hc ↦ hmem c (List.mem_append_left _ hc)) hlt
        · rw [cost_taken, cost_taken, if_pos hlhs, if_neg (source_ne hr hp).symm]
    exact ih hsplit' (hl.applyChain r) hled' htried'

theorem Led.close (hl : l.Bounded) (hled : l.Led) : l.close.Led := by
  refine (closeFrom_induct (P := fun l ↦ l.Bounded ∧ l.Led) (fun l h ↦ ⟨h.1.applyChains, ?_⟩)
    ⟨hl, hled⟩ _).2
  exact foldl_applyChain (List.nil_append _).symm h.1 h.2 (List.forall_mem_nil _)

theorem Chained.close (hl : l.Bounded) : Chained l l.close := by
  refine (closeFrom_induct (P := fun l' ↦ l'.Bounded ∧ Chained l l') (fun l' h ↦ ?_)
    ⟨hl, fun _ ↦ Or.inl rfl⟩ _).2
  refine List.foldlRecOn (motive := fun l' ↦ l'.Bounded ∧ Chained l l') _ _ h fun l' hl' r hr ↦ ?_
  exact ⟨hl'.1.applyChain r, hl'.2.applyChain hl'.1 hr⟩

end NodeLabel

/-! ## Cheapest derivations -/

/-- The rule completes a derivation of least cost. -/
def Rule.Completes (f : Forest) (id : NodeId) (nt : Nonterminal) (r : Rule) : Prop :=
  ∃ d : Derivation, d.rule = r ∧ d.Derives f id nt ∧
    ∀ d' : Derivation, d'.Derives f id nt → d.cost ≤ d'.cost

theorem Rule.Completes.matches (h : r.Completes f id nt) : r.Matches f id := by
  obtain ⟨⟨_, _⟩, rfl, hderives, -⟩ := h
  exact hderives.1

theorem Rule.Completes.lhs (h : r.Completes f id nt) : r.lhs = nt := by
  obtain ⟨⟨_, _⟩, rfl, hderives, -⟩ := h
  exact hderives.2.1

theorem Pattern.leaves_inRegister {p : Pattern} (htile : p.isTile = true)
    (hhead : p.head? = some .inRegister) : p.leaves f id = [] := by
  cases p with
  | nt s => exact nomatch hhead
  | op h kids =>
    obtain rfl := Option.some.inj hhead
    obtain ⟨rfl, -⟩ : kids = [] ∧ Pattern.areTiles kids = true := by simpa [Pattern.isTile] using htile
    simp [Pattern.leaves, Pattern.kidLeaves]
  | variadic h s =>
    obtain rfl := Option.some.inj hhead
    exact absurd htile (by simp [Pattern.isTile])

namespace Labels

theorem cost_le_leafCosts {leaves : List (NodeId × Nonterminal)} {leaf : NodeId × Nonterminal}
    (h : leaf ∈ leaves) : ls.cost leaf.1 leaf.2 ≤ ls.leafCosts leaves :=
  List.le_sum_of_mem (List.mem_map_of_mem h)

namespace Optimal

/-- Labels of a node agree if both are optimal. -/
theorem cost_congr (h : ls.Optimal f) (h' : ls'.Optimal f) (hk : ls.Has k) (hk' : ls'.Has k)
    (nt : Nonterminal) : ls.cost k nt = ls'.cost k nt :=
  Nat.cast_inj.mp ((h.cost_eq hk nt).trans (h'.cost_eq hk' nt).symm)

/-- A rule that matches completes a derivation at the cost of its leaves. -/
theorem exists_step (h : ls.Optimal f) (hmatches : r.Matches f id)
    (hlt : ls.leafCosts (r.pattern.leaves f id) < infinite) :
    ∃ d : Derivation, d.rule = r ∧ d.Derives f id r.lhs ∧
      d.cost = ls.leafCosts (r.pattern.leaves f id) + r.cost := by
  obtain ⟨ds, hds, hcosts⟩ := Derivation.exists_deriveAll (f := f) (r.pattern.leaves f id)
    fun leaf hleaf ↦ by
      obtain ⟨d, -, hd⟩ := h.attained leaf.1 leaf.2 (Nat.lt_of_le_of_lt (cost_le_leafCosts hleaf) hlt)
      exact ⟨d, hd⟩
  refine ⟨.step r ds, rfl, ⟨hmatches, rfl, hds⟩, ?_⟩
  rw [Derivation.cost, hcosts]

/-- The rules that complete a cheapest derivation are those whose leaves and own cost add up to the label's
cost. -/
theorem completes_iff (h : ls.Optimal f) (hid : ls.Has id) (hcost : ls.cost id nt < infinite) :
    r.Completes f id nt ↔ r.Matches f id ∧ r.lhs = nt ∧
      ls.leafCosts (r.pattern.leaves f id) + r.cost = ls.cost id nt := by
  constructor
  · rintro ⟨⟨r', ds⟩, hrule, ⟨hmatches, rfl, hds⟩, hleast⟩
    obtain rfl : r' = r := hrule
    refine ⟨hmatches, rfl, ?_⟩
    obtain ⟨d₀, -, hd₀, hcost₀⟩ := h.attained id r'.lhs hcost
    have hupper := hleast d₀ hd₀
    rw [Derivation.cost, hcost₀] at hupper
    have hleaves : ls.leafCosts (r'.pattern.leaves f id) ≤ Derivation.costs ds := by
      exact Derivation.DeriveAll.leafCosts_le hds fun leaf hleaf d hd ↦
        h.least leaf.1 (h.has_leaves hid hmatches leaf hleaf) leaf.2 d hd
    obtain ⟨d, -, hd, hdcost⟩ := h.exists_step hmatches (by omega)
    have hlower := h.least id hid r'.lhs d hd
    omega
  · rintro ⟨hmatches, rfl, heq⟩
    obtain ⟨d, hrule, hd, hdcost⟩ := h.exists_step hmatches (by omega)
    refine ⟨d, hrule, hd, fun d' hd' ↦ ?_⟩
    rw [hdcost, heq]
    exact h.least id hid r.lhs d' hd'

end Optimal

end Labels

/-! ## The rule of a label -/

/-- All rules in the order in which they are tried first: those for a head, then the chain rules. -/
def Grammar.scanned : List Rule := rules.filter (!·.isChain) ++ chainRules

theorem Rule.isChain_of_head? {h : Head} (hhead : r.pattern.head? = some h) : r.isChain = false := by
  rw [isChain]
  cases hp : r.pattern with
  | nt s => exact absurd hhead (by simp [hp, Pattern.head?])
  | op | variadic => rfl

theorem Rule.head?_of_isChain (hchain : r.isChain = false) : r.pattern.head? ≠ none := by
  rw [isChain] at hchain
  cases hp : r.pattern with
  | nt s => exact absurd hchain (by simp [hp])
  | op | variadic => exact Option.some_ne_none _

/-- A bid below the cap is the cost of the leaves with that of the rule. -/
theorem Rule.bid_eq_some (hr : r ∈ Grammar.rules) {c : Nat} (hc : c < infinite) :
    r.bid f ls id = some c ↔ r.Matches f id ∧ ls.leafCosts (r.pattern.leaves f id) + r.cost = c := by
  have htile := Grammar.isTile_rules r hr
  constructor
  · intro hbid
    rw [bid] at hbid
    split at hbid
    next hadmits =>
      obtain ⟨m, hm, rfl⟩ := Option.map_eq_some_iff.mp hbid
      have hfits := r.pattern.fits_of_matchCost id hm
      rw [r.pattern.matchCost?_eq id htile hfits, Labels.leafCosts?] at hm
      split at hm
      next =>
        obtain rfl := Option.some.inj hm
        refine ⟨⟨hr, hfits, hadmits⟩, ?_⟩
        rw [addCost] at hc ⊢
        omega
      next => cases hm
    next => cases hbid
  · rintro ⟨hmatches, rfl⟩
    have hall : ∀ leaf ∈ r.pattern.leaves f id, ls.cost leaf.1 leaf.2 < infinite := by
      intro leaf hleaf
      have hle : ls.cost leaf.1 leaf.2 ≤ ls.leafCosts (r.pattern.leaves f id) :=
        Labels.cost_le_leafCosts hleaf
      omega
    rw [bid, if_pos hmatches.admits, r.pattern.matchCost?_eq id htile hmatches.fits,
      Labels.leafCosts?, if_pos hall, Option.map_some, addCost]
    exact congrArg some (by omega)

/-- The rules that are tried for the head of a node, in order. -/
def Forest.rulesAt (f : Forest) (id : NodeId) : List Rule :=
  ((f.node id).head?.map Grammar.rulesFor).getD []

theorem Forest.mem_rulesAt : r ∈ f.rulesAt id ↔
    r ∈ Grammar.rules ∧ ∃ h, (f.node id).head? = some h ∧ r.pattern.head? = some h := by
  rw [rulesAt]
  cases (f.node id).head? with
  | none => simp
  | some h => simp [Grammar.rulesFor]

/-- The label of a node before the chain rules are tried. -/
def Forest.openLabel (f : Forest) (ls : Labels) (id : NodeId) : NodeLabel :=
  (f.rulesAt id).foldl (NodeLabel.offer (·.bid f ls id)) []

theorem labelNode_eq (f : Forest) (ls : Labels) (id : NodeId) :
    labelNode f ls id = (f.openLabel ls id).close := by
  rw [labelNode, Forest.openLabel, NodeLabel.tryRule_eq_offer]
  rfl

theorem Forest.bounded_openLabel (f : Forest) (ls : Labels) (id : NodeId) :
    (f.openLabel ls id).Bounded := fun nt ↦
  (NodeLabel.cost_foldl_le NodeLabel.cost_offer_le _ [] nt).trans (NodeLabel.cost_nil nt).le

/-- A rule for the head is no chain rule. -/
theorem Forest.isChain_of_openLabel (hbest : (f.openLabel ls id).best? nt = some i) :
    i.rule.isChain = false := by
  obtain ⟨-, h, -, hhead⟩ := mem_rulesAt.mp (NodeLabel.offers_first hbest).mem
  exact Rule.isChain_of_head? hhead

namespace Labels.Optimal

variable (h : ls.Optimal f) (hkids : ∀ c, f.MadeFrom id c → ls.Has c)
include h hkids

/-- A rule for the head completes a cheapest derivation if it bids what the label costs. -/
theorem completes_iff_bid (hr : r ∈ Grammar.rules) (hchain : r.isChain = false)
    (hcost : (labelNode f ls id).cost nt < infinite) :
    r.Completes f id nt ↔ r.lhs = nt ∧ r.bid f ls id = some ((labelNode f ls id).cost nt) := by
  have hopt := h.cons hkids
  have hself : ∀ t, Labels.cost ((id, labelNode f ls id) :: ls) id t = (labelNode f ls id).cost t :=
    fun t ↦ by rw [Labels.cost, label_cons_self]
  rw [hopt.completes_iff (has_cons_self ls id _) (hself nt ▸ hcost), Rule.bid_eq_some hr hcost, hself]
  -- the leaves cost what they cost before the node was labeled
  have hleaves : r.Matches f id →
      Labels.leafCosts ((id, labelNode f ls id) :: ls) (r.pattern.leaves f id) =
        ls.leafCosts (r.pattern.leaves f id) := by
    intro hmatches
    refine congrArg List.sum (List.map_congr_left fun leaf hleaf ↦ ?_)
    have hhas := h.has_leaf hkids hmatches (Rule.head?_of_isChain hchain) leaf hleaf
    exact hopt.cost_congr h (hhas.cons id _) hhas leaf.2
  constructor
  · rintro ⟨hmatches, hlhs, heq⟩
    exact ⟨hlhs, hmatches, hleaves hmatches ▸ heq⟩
  · rintro ⟨hlhs, hmatches, heq⟩
    exact ⟨hmatches, hlhs, (hleaves hmatches).symm ▸ heq⟩

/-- A chain rule completes a cheapest derivation if it serves. -/
theorem completes_iff_serves (hr : r ∈ Grammar.chainRules)
    (hcost : (labelNode f ls id).cost nt < infinite) :
    r.Completes f id nt ↔ (labelNode f ls id).Serves nt r := by
  obtain ⟨hmem, hchain⟩ := List.mem_filter.mp hr
  obtain ⟨s, hp⟩ := Grammar.exists_source hr
  have hself : ∀ t, Labels.cost ((id, labelNode f ls id) :: ls) id t = (labelNode f ls id).cost t :=
    fun t ↦ by rw [Labels.cost, label_cons_self]
  rw [(h.cons hkids).completes_iff (has_cons_self ls id _) (hself nt ▸ hcost), hp, Pattern.leaves,
    leafCosts, List.map_singleton, List.sum_singleton, hself, hself]
  constructor
  · rintro ⟨-, hlhs, heq⟩
    exact ⟨hlhs, s, hp, Nat.le_of_eq heq⟩
  · rintro ⟨rfl, t, ht, hle⟩
    obtain rfl : s = t := by simpa [hp] using ht
    have hge := NodeLabel.labelNode_chain_le f ls id hmem hp
    exact ⟨Rule.matches_of_isChain hmem hchain f id, rfl, Nat.le_antisymm hle hge⟩

/-- The rule of a label is the first that completes a derivation of least cost, where chain rules are
last. -/
theorem labelNode_first (hbest : (labelNode f ls id).best? nt = some i) :
    FirstIn Grammar.scanned (Rule.Completes f id nt) i.rule := by
  have hfinite : i.cost < infinite := (NodeLabel.Grounded.labelNode f ls id).finite nt i hbest
  have hcosti : (labelNode f ls id).cost nt = i.cost := by rw [NodeLabel.cost, hbest]; rfl
  have hcost : (labelNode f ls id).cost nt < infinite := hcosti ▸ hfinite
  have hbounded := f.bounded_openLabel ls id
  have hchained : (f.openLabel ls id).Chained (labelNode f ls id) := by
    rw [labelNode_eq]
    exact .close hbounded
  by_cases hchain : i.rule.isChain = true
  · have hled : (labelNode f ls id).Led := by
      rw [labelNode_eq]
      refine .close hbounded fun t j hj hjchain ↦ ?_
      exact absurd hjchain (by simp [Forest.isChain_of_openLabel hj])
    have hfirst : FirstIn Grammar.chainRules (Rule.Completes f id nt) i.rule :=
      (hled nt i hbest hchain).congr fun x hx ↦ (h.completes_iff_serves hkids hx hcost).symm
    refine hfirst.append_left fun x hx hcompletes ↦ ?_
    -- a rule for the head at this cost would have kept its place
    obtain ⟨hmem, hxchain⟩ := List.mem_filter.mp hx
    have hxchain : x.isChain = false := by simpa using hxchain
    obtain ⟨rfl, hbid⟩ := (h.completes_iff_bid hkids hmem hxchain hcost).mp hcompletes
    have hxrules : x ∈ f.rulesAt id := by
      obtain ⟨head, hhead⟩ := Option.ne_none_iff_exists'.mp (Rule.head?_of_isChain hxchain)
      exact Forest.mem_rulesAt.mpr ⟨hmem, head, hcompletes.matches.fits.head? hhead, hhead⟩
    have hle : (f.openLabel ls id).cost x.lhs ≤ (labelNode f ls id).cost x.lhs :=
      NodeLabel.cost_offers_le hxrules hbid
    rcases hchained x.lhs with hsame | ⟨hlt, -⟩
    · have hnot := Forest.isChain_of_openLabel (hsame.symm.trans hbest)
      exact absurd hchain (by simp [hnot])
    · exact Nat.not_le_of_lt hlt hle
  · have hopen : (f.openLabel ls id).best? nt = some i := by
      rcases hchained nt with hsame | ⟨-, j, hj, hjchain⟩
      · exact hsame.symm.trans hbest
      · obtain rfl : j = i := Option.some.inj (hj.symm.trans hbest)
        exact absurd (List.mem_filter.mp hjchain).2 hchain
    have hfirst := NodeLabel.offers_first hopen
    obtain ⟨-, head, hnode, -⟩ := Forest.mem_rulesAt.mp hfirst.mem
    have hrulesAt : f.rulesAt id = Grammar.rules.filter (·.pattern.head? = some head) := by
      rw [Forest.rulesAt, hnode]
      rfl
    rw [hrulesAt, FirstIn.filter_iff, ← hcosti] at hfirst
    refine FirstIn.append_right (FirstIn.filter_iff.mpr (hfirst.congr fun x hx ↦ ?_)) _
    constructor
    · rintro ⟨hxhead, hbid⟩
      have hxchain := Rule.isChain_of_head? (of_decide_eq_true hxhead)
      exact ⟨by simp [hxchain], (h.completes_iff_bid hkids hx hxchain hcost).mpr hbid⟩
    · rintro ⟨hxchain, hcompletes⟩
      have hxchain : x.isChain = false := by simpa using hxchain
      obtain ⟨xhead, hxhead⟩ := Option.ne_none_iff_exists'.mp (Rule.head?_of_isChain hxchain)
      have hsame := hnode.symm.trans (hcompletes.matches.fits.head? hxhead)
      exact ⟨decide_eq_true (hxhead.trans hsame.symm),
        (h.completes_iff_bid hkids hx hxchain hcost).mp hcompletes⟩

end Labels.Optimal

/-! ## Declaration order -/

/-- A rule for the head that is declared before a chain rule for the same nonterminal is the one for
values that are in a register. -/
theorem Grammar.early_rules : rules.Pairwise fun r c ↦ r.isChain = false → c.isChain = true →
    r.lhs = c.lhs → r.pattern.head? = some .inRegister := by decide

theorem Grammar.cost_of_inRegister : ∀ r ∈ rules, r.pattern.head? = some .inRegister →
    r.cost = 0 ∧ r.lhs = .reg := by decide

theorem Grammar.cost_of_reg_chain : ∀ r ∈ chainRules, r.lhs = .reg → 0 < r.cost := by decide

/-- A value that is in a register is reduced to a register for free, which no chain rule does. -/
theorem Rule.Completes.not_chain {c : Rule} (h : r.Completes f id nt)
    (hhead : r.pattern.head? = some .inRegister) (hc : c ∈ Grammar.chainRules) :
    ¬ c.Completes f id nt := by
  obtain ⟨⟨r', ds⟩, hr', hderives, -⟩ := h
  obtain rfl : r' = r := hr'
  obtain ⟨hmatches, rfl, hds⟩ := hderives
  have hcost : (Derivation.step r' ds).cost = 0 := by
    have htile := Grammar.isTile_rules r' hmatches.mem
    rw [Pattern.leaves_inRegister htile hhead] at hds
    obtain rfl : ds = [] := by
      cases ds with
      | nil => rfl
      | cons d ds => exact hds.elim
    rw [Derivation.cost, Derivation.costs, Nat.zero_add]
    exact (Grammar.cost_of_inRegister r' hmatches.mem hhead).1
  rintro ⟨⟨c', ds'⟩, hc', ⟨-, hlhs, -⟩, hleast⟩
  obtain rfl : c' = c := hc'
  have hpos := Grammar.cost_of_reg_chain c' hc
    (hlhs.trans (Grammar.cost_of_inRegister r' hmatches.mem hhead).2)
  have hle := hleast (.step r' ds) ⟨hmatches, rfl, hds⟩
  rw [hcost, Derivation.cost] at hle
  omega

/-- In the order of the table, the rule that is taken up is the first unless rules of both kinds complete
a derivation of least cost. -/
theorem FirstIn.rules_iff (h : FirstIn Grammar.scanned (Rule.Completes f id nt) r) :
    FirstIn Grammar.rules (Rule.Completes f id nt) r ↔
      ¬ ((∃ o ∈ Grammar.rules, o.isChain = false ∧ o.Completes f id nt) ∧
        ∃ c ∈ Grammar.chainRules, c.Completes f id nt) := by
  rcases h.of_append with hhead | ⟨hnone, hfirst⟩
  · obtain ⟨⟨hr, hcompletes⟩, -⟩ := FirstIn.filter_iff.mp hhead
    have hmem := (List.mem_filter.mp hhead.mem).1
    have hr : r.isChain = false := by simpa using hr
    constructor
    · rintro ⟨-, before, after, hsplit, hbefore⟩ ⟨-, c, hc, hccompletes⟩
      obtain ⟨hcmem, hchain⟩ := List.mem_filter.mp hc
      have hearly := Grammar.early_rules
      rw [hsplit, List.pairwise_append, List.pairwise_cons] at hearly
      rw [hsplit] at hcmem
      rcases List.mem_append.mp hcmem with hcb | hca
      · exact hbefore c hcb hccompletes
      · rcases List.mem_cons.mp hca with rfl | hca
        · exact absurd hchain (by simp [hr])
        · have hlhs : r.lhs = c.lhs := hcompletes.lhs.trans hccompletes.lhs.symm
          exact hcompletes.not_chain (hearly.2.1.1 c hca hr hchain hlhs) hc hccompletes
    · intro hnot
      refine (FirstIn.filter_iff.mp hhead).congr fun x hx ↦ ⟨And.right, fun hx' ↦ ⟨?_, hx'⟩⟩
      have hxchain : x.isChain ≠ true := fun hxchain ↦
        hnot ⟨⟨r, hmem, hr, hcompletes⟩, x, List.mem_filter.mpr ⟨hx, hxchain⟩, hx'⟩
      simpa using hxchain
  · have hno : ∀ o ∈ Grammar.rules, o.isChain = false → ¬ o.Completes f id nt := fun o ho hchain ↦
      hnone o (List.mem_filter.mpr ⟨ho, by simp [hchain]⟩)
    refine iff_of_true ?_ fun ⟨⟨o, ho, hchain, hocompletes⟩, _⟩ ↦ hno o ho hchain hocompletes
    refine (FirstIn.filter_iff.mp hfirst).congr fun x hx ↦ ⟨And.right, fun hx' ↦ ⟨?_, hx'⟩⟩
    by_contra hxchain
    exact hno x hx (Bool.eq_false_iff.mpr hxchain) hx'

/-! ## Labels of a tree -/

/-- The labels that are there when labeling a tree has ended, whether the tree is covered or not. -/
def Forest.labels (f : Forest) (root : NodeId) : Labels :=
  match labelTree f root [] with
  | .ok _ ls | .error _ ls => ls

/-- Optimal labels with the rules that are first. -/
structure Labels.Recorded (f : Forest) (ls : Labels) : Prop extends ls.Optimal f where
  first : ∀ k nt, ls.cost k nt < infinite →
    ∃ r, ls.rule? k nt = some r ∧ FirstIn Grammar.scanned (Rule.Completes f k nt) r

theorem Labels.Recorded.nil : Labels.Recorded f [] := ⟨.nil, fun _ _ h ↦ absurd h (Nat.lt_irrefl _)⟩

theorem keptByLabels_recorded (f : Forest) : KeptByLabels f (Labels.Recorded f) := by
  intro ls id hls hkids _
  refine ⟨hls.toOptimal.cons hkids, fun k nt hcost ↦ ?_⟩
  by_cases heq : k = id
  · subst heq
    rw [Labels.cost, Labels.label_cons_self] at hcost
    obtain ⟨i, hbest⟩ := Option.isSome_iff_exists.mp (NodeLabel.Grounded.isSome_of_cost hcost)
    refine ⟨i.rule, ?_, hls.toOptimal.labelNode_first hkids hbest⟩
    rw [Labels.rule?, Labels.label_cons_self, hbest]
    rfl
  · rw [Labels.cost, Labels.label_cons_of_ne ls _ heq] at hcost
    rw [Labels.rule?, Labels.label_cons_of_ne ls _ heq]
    exact hls.first k nt hcost

theorem Forest.recorded_labels (hacyclic : f.AcyclicBelow (f.owner root)) :
    (f.labels root).Recorded f := by
  rw [Forest.labels]
  have hfuel : f.size < f.size + 1 + ([] : List NodeId).length := by simp
  cases h : labelTree f root [] with
  | ok u ls => exact (labelFrom_done (keptByLabels_recorded f) hacyclic .nil hfuel .nil h).1
  | error k ls => exact (labelFrom_stuck (keptByLabels_recorded f) hacyclic .nil hfuel .nil h).1

/-- **Ties.** Where labeling ends, the rule of a labeled node for a nonterminal of finite cost is the first
of those that complete a derivation of least cost, in the order in which the rules for a head stand before
the chain rules. In the order of the table it is the first if not rules of both kinds complete such
derivations. -/
theorem recorded_first (hacyclic : f.AcyclicBelow (f.owner root))
    (hcost : (f.labels root).cost k nt < infinite) :
    ∃ r, (f.labels root).rule? k nt = some r ∧
      FirstIn Grammar.scanned (Rule.Completes f k nt) r ∧
      (FirstIn Grammar.rules (Rule.Completes f k nt) r ↔
        ¬ ((∃ o ∈ Grammar.rules, o.isChain = false ∧ o.Completes f k nt) ∧
          ∃ c ∈ Grammar.chainRules, c.Completes f k nt)) := by
  obtain ⟨r, hrule, hfirst⟩ := (Forest.recorded_labels hacyclic).first k nt hcost
  exact ⟨r, hrule, hfirst, hfirst.rules_iff⟩

/-- The sum of an argument and eight is loaded as an address, by a chain rule. -/
theorem recorded_first_offset : (Forest.offset.labels 2).cost 2 .reg = 2 ∧
    ∃ r, (Forest.offset.labels 2).rule? 2 .reg = some r ∧
      FirstIn Grammar.scanned (Rule.Completes Forest.offset 2 .reg) r ∧
      (FirstIn Grammar.rules (Rule.Completes Forest.offset 2 .reg) r ↔
        ¬ ((∃ o ∈ Grammar.rules, o.isChain = false ∧ o.Completes Forest.offset 2 .reg) ∧
          ∃ c ∈ Grammar.chainRules, c.Completes Forest.offset 2 .reg)) := by
  have hcost : (Forest.offset.labels 2).cost 2 .reg = 2 := rfl
  exact ⟨hcost, recorded_first (Forest.acyclic_offset.below _) (by rw [hcost]; decide)⟩

/-- The sum of two arguments. -/
def Forest.twoSum : Forest :=
  ⟨#[{ op := .arg 0, width := 64 }, { op := .arg 1, width := 64 },
    { op := .inst (.binary .add), width := 64, kids := [0, 1] }]⟩

theorem Forest.acyclic_twoSum : twoSum.Acyclic := by
  refine acyclic_of_lt fun k c hc ↦ ?_
  have hk := lt_size_of_madeFrom hc
  have hsmall : ∀ k < twoSum.size, ∀ c ∈ twoSum.kidOwners k, c < k := by decide
  exact hsmall k hk c hc.2

/-- Two arguments are added at the same cost from memory, by a rule for sums, and as an address, by a chain
rule. The rule for sums is taken though the chain rule was declared first. -/
theorem twoSum_not_first : Forest.twoSum.Acyclic ∧ (Forest.twoSum.labels 2).cost 2 .reg < infinite ∧
    ∃ r, (Forest.twoSum.labels 2).rule? 2 .reg = some r ∧
      ¬ FirstIn Grammar.rules (Rule.Completes Forest.twoSum 2 .reg) r := by
  have hcost : (Forest.twoSum.labels 2).cost 2 .reg < infinite := by decide
  have hrecorded := Forest.recorded_labels (Forest.acyclic_twoSum.below (Forest.twoSum.owner 2))
  obtain ⟨r, hrule, hfirst⟩ := hrecorded.first 2 .reg hcost
  have hname : (Forest.twoSum.labels 2).rule? 2 .reg = Grammar.rule? "add_mem" := rfl
  have hr : Grammar.rule? "add_mem" = some r := hname.symm.trans hrule
  have hchain : ∀ o, Grammar.rule? "add_mem" = some o → o.isChain = false := by decide
  refine ⟨Forest.acyclic_twoSum, hcost, r, hrule, fun h ↦ hfirst.rules_iff.mp h ⟨?_, ?_⟩⟩
  · exact ⟨r, Grammar.mem_of_rule? "add_mem" hr, hchain r hr, hfirst.1⟩
  · let lea : Rule := ⟨"reg_from_addr", .reg, .nt .addr, 1, none, .lea⟩
    have hmem : lea ∈ Grammar.rules := Grammar.mem_of_rule? "reg_from_addr" rfl
    refine ⟨lea, List.mem_filter.mpr ⟨hmem, rfl⟩, ?_⟩
    have hhas : (Forest.twoSum.labels 2).Has 2 := by
      rw [Labels.Has]
      decide
    refine (hrecorded.toOptimal.completes_iff hhas hcost).mpr ⟨?_, rfl, ?_⟩
    · exact Rule.matches_of_isChain hmem rfl _ _
    · rw [Pattern.leaves]
      rfl

end TreeCover
