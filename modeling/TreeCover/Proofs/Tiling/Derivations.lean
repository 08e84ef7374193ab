import TreeCover.Proofs.Tiling.Calls

/-!
# Derivations in the labels of a tree

The rule that labels a node can be followed: each of its leaves is labeled with a rule for what it is
reduced to. A chain rule goes on from something that is cheaper to reduce to, by its own cost, so no two
chain rules lead to each other. Main statement: `derives_labelTree`.
-/

namespace TreeCover

open Ir Machine Work

variable {g f : Forest} {k id : NodeId} {nt s : Nonterminal} {r : Rule} {i : Improvement}
  {l : NodeLabel} {ls ls' ls₁ : Labels} {cost : Nat}

/-! ## Costs within a label -/

namespace NodeLabel

theorem best?_cons (i : Improvement) (l : NodeLabel) (nt : Nonterminal) :
    best? (i :: l) nt = if i.rule.lhs = nt then some i else l.best? nt := by
  rw [best?, List.find?_cons]
  by_cases hnt : i.rule.lhs = nt
  · rw [if_pos hnt]
    simp [hnt]
  · rw [if_neg hnt]
    simp [hnt, best?]

/-- A rule is taken up for less than was known. -/
theorem improve_cases (l : NodeLabel) (r : Rule) (cost : Nat) :
    l.improve r cost = l ∨ cost < l.cost r.lhs ∧ l.improve r cost = ⟨r, cost⟩ :: l := by
  rw [improve]
  split
  next h => exact Or.inr ⟨h, rfl⟩
  next => exact Or.inl rfl

/-- What a label owes to the costs in it: they are finite, and a chain rule adds its own cost to that
of what it goes on from. -/
structure Grounded (l : NodeLabel) : Prop where
  finite : ∀ nt i, l.best? nt = some i → i.cost < infinite
  chain : ∀ nt i s, l.best? nt = some i → i.rule.pattern.source? = some s →
    l.cost s + i.rule.cost ≤ i.cost

namespace Grounded

theorem nil : Grounded [] :=
  ⟨fun _ _ h ↦ absurd h (by simp [best?]), fun _ _ _ h ↦ absurd h (by simp [best?])⟩

theorem cost_le (h : l.Grounded) (nt : Nonterminal) : l.cost nt ≤ infinite := by
  rw [cost]
  cases hbest : l.best? nt with
  | none => exact Nat.le_refl _
  | some i => exact Nat.le_of_lt (h.finite nt i hbest)

theorem isSome_of_cost (hcost : l.cost nt < infinite) : (l.best? nt).isSome = true := by
  rw [cost] at hcost
  cases hbest : l.best? nt with
  | none =>
    rw [hbest] at hcost
    exact absurd hcost (Nat.lt_irrefl _)
  | some i => rfl

/-- What a chain rule goes on from is labeled too. -/
theorem source (h : l.Grounded) (hbest : l.best? nt = some i)
    (hs : i.rule.pattern.source? = some s) : (l.best? s).isSome = true := by
  refine isSome_of_cost (Nat.lt_of_le_of_lt ?_ (h.finite nt i hbest))
  exact Nat.le_trans (Nat.le_add_right _ _) (h.chain nt i s hbest hs)

theorem improve (h : l.Grounded)
    (hcost : ∀ s, r.pattern.source? = some s → cost < infinite → l.cost s + r.cost ≤ cost) :
    (l.improve r cost).Grounded := by
  rcases l.improve_cases r cost with heq | ⟨hlt, heq⟩
  · rwa [heq]
  · have hfinite : cost < infinite := Nat.lt_of_lt_of_le hlt (h.cost_le _)
    -- costs only fall
    have hle : ∀ nt, NodeLabel.cost (⟨r, cost⟩ :: l) nt ≤ l.cost nt := by
      intro nt
      rw [NodeLabel.cost, best?_cons]
      split
      next hnt =>
        subst hnt
        exact Nat.le_of_lt hlt
      next => exact Nat.le_refl _
    rw [heq]
    refine ⟨fun nt i hbest ↦ ?_, fun nt i s hbest hs ↦ ?_⟩
    · rw [best?_cons] at hbest
      split at hbest
      next =>
        obtain rfl := Option.some.inj hbest
        exact hfinite
      next => exact h.finite nt i hbest
    · refine Nat.le_trans (Nat.add_le_add_right (hle s) _) ?_
      rw [best?_cons] at hbest
      split at hbest
      next =>
        obtain rfl := Option.some.inj hbest
        exact hcost s hs hfinite
      next => exact h.chain nt i s hbest hs

theorem labelNode (g : Forest) (ls : Labels) (id : NodeId) :
    Grounded (TreeCover.labelNode g ls id) := by
  refine labelNode_induct nil (fun l hl r _ hhead _ c _ ↦ hl.improve fun s hs ↦ ?_)
    fun l hl r _ s hp _ ↦ hl.improve fun s' hs hfinite ↦ ?_
  · -- a rule for a head goes on from nothing
    cases hp : r.pattern with
    | nt s' => exact absurd (hp ▸ rfl) hhead
    | _ => exact absurd (hp ▸ hs) (by simp [Pattern.source?])
  · rw [hp] at hs
    obtain rfl := Option.some.inj hs
    rw [addCost] at hfinite ⊢
    omega

/-- A register is not reduced from an address that is reduced from it. -/
theorem acyclic (h : l.Grounded) (hr : ∀ i ∈ l, i.rule ∈ Grammar.rules) {i j : Improvement}
    (hi : l.best? .reg = some i) (hsource : i.rule.pattern.source? = some .addr)
    (hj : l.best? .addr = some j) : j.rule.pattern.source? ≠ some .reg := by
  intro hback
  have hreg := h.chain _ _ _ hi hsource
  have haddr := h.chain _ _ _ hj hback
  have hpos : 0 < i.rule.cost := by
    have hchains : ∀ r ∈ Grammar.rules, r.pattern.source? = some .addr → 0 < r.cost := by decide
    exact hchains _ (hr i (List.mem_of_find?_eq_some hi)) hsource
  have hcostReg : l.cost .reg = i.cost := by rw [NodeLabel.cost, hi]; rfl
  have hcostAddr : l.cost .addr = j.cost := by rw [NodeLabel.cost, hj]; rfl
  omega

end Grounded

end NodeLabel

/-! ## Leaves that are labeled -/

/-- A leaf has a label with a rule for its nonterminal. -/
def Labels.Covers (ls : Labels) (leaf : NodeId × Nonterminal) : Prop :=
  (ls.rule? leaf.1 leaf.2).isSome = true

theorem Labels.covers_of_cost {c : Nat} (h : ls.cost? k nt = some c) : ls.Covers (k, nt) := by
  rw [Labels.cost?] at h
  split at h
  next hlt =>
    rw [Labels.Covers, Labels.rule?, Option.isSome_map]
    exact NodeLabel.Grounded.isSome_of_cost hlt
  next => exact absurd h (by simp)

theorem Labels.covers_of_costAll : ∀ {ids : List NodeId} {c : Nat},
    ls.costAll? nt ids = some c → ∀ k ∈ ids, ls.Covers (k, nt)
  | [], _, _, _, hk => absurd hk List.not_mem_nil
  | id :: ids, c, h, k, hk => by
    rw [Labels.costAll?] at h
    obtain ⟨c₁, hid, h⟩ := Option.bind_eq_some_iff.mp h
    obtain ⟨c₂, hids, -⟩ := Option.bind_eq_some_iff.mp h
    rcases List.mem_cons.mp hk with rfl | hk
    · exact Labels.covers_of_cost hid
    · exact Labels.covers_of_costAll hids k hk

mutual

/-- Whether a pattern asks for no children of what is in a register. -/
def Pattern.isTile : Pattern → Bool
  | .nt _ => true
  | .op h kids => (h ≠ .inRegister || kids.isEmpty) && Pattern.areTiles kids
  | .variadic h _ => h ≠ .inRegister

def Pattern.areTiles : List Pattern → Bool
  | [] => true
  | p :: ps => p.isTile && Pattern.areTiles ps

end

theorem Grammar.isTile_rules : ∀ r ∈ Grammar.rules, r.pattern.isTile = true := by decide

mutual

/-- The leaves of a pattern that has a cost are labeled. -/
theorem Pattern.covers_of_matchCost : ∀ (p : Pattern) (id : NodeId) (f : Forest) (c : Nat),
    g.SameSkeleton f → p.isTile = true → p.matchCost? g ls id = some c →
      ∀ leaf ∈ (p.takeLeaves id f).1, ls.Covers leaf
  | .nt goal, id, f, c, _, _, hcost => by
    rw [Pattern.matchCost?] at hcost
    rw [Pattern.takeLeaves]
    exact List.forall_mem_singleton.mpr (Labels.covers_of_cost hcost)
  | .op h kids, id, f, c, hskeleton, htile, hcost => by
    rw [Pattern.isTile, Bool.and_eq_true] at htile
    rw [Pattern.matchCost?] at hcost
    rw [Pattern.takeLeaves]
    split at hcost
    next => exact absurd hcost (by simp)
    next =>
      split at hcost
      next hregister =>
        have hkids : kids = [] := by simpa [hregister] using htile.1
        subst hkids
        simp [Pattern.takeKidLeaves]
      next =>
        split at hcost
        next => exact absurd hcost (by simp)
        next =>
          rw [hskeleton.kidOwners]
          exact Pattern.covers_of_matchKids kids _ f c hskeleton htile.2 hcost
  | .variadic h goal, id, f, c, hskeleton, _, hcost => by
    rw [Pattern.matchCost?] at hcost
    rw [Pattern.takeLeaves, hskeleton.kidOwners]
    split at hcost
    next => exact absurd hcost (by simp)
    next =>
      intro leaf hleaf
      obtain ⟨j, hj, rfl⟩ := List.mem_map.mp hleaf
      exact Labels.covers_of_costAll hcost j hj

theorem Pattern.covers_of_matchKids : ∀ (ps : List Pattern) (ids : List NodeId) (f : Forest)
    (c : Nat), g.SameSkeleton f → Pattern.areTiles ps = true →
      Pattern.matchKids? g ls ps ids = some c →
        ∀ leaf ∈ (Pattern.takeKidLeaves ps ids f).1, ls.Covers leaf
  | [], _, _, _, _, _, _ => by simp [Pattern.takeKidLeaves]
  | _ :: _, [], _, _, _, _, _ => by simp [Pattern.takeKidLeaves]
  | p :: ps, id :: ids, f, c, hskeleton, htiles, hcost => by
    rw [Pattern.areTiles, Bool.and_eq_true] at htiles
    rw [Pattern.matchKids?] at hcost
    obtain ⟨c₁, hp, hcost⟩ := Option.bind_eq_some_iff.mp hcost
    obtain ⟨c₂, hps, -⟩ := Option.bind_eq_some_iff.mp hcost
    rw [Pattern.takeKidLeaves]
    refine List.forall_mem_append.mpr ⟨?_, ?_⟩
    · exact Pattern.covers_of_matchCost p id f c₁ hskeleton htiles.1 hp
    · exact Pattern.covers_of_matchKids ps ids _ c₂
        (hskeleton.trans (p.sameSkeleton_takeLeaves id f)) htiles.2 hps

end

/-! ## Labels of trees -/

/-- Nodes among which the children of each are again, with a measure that falls from a node to its
children. -/
structure Forest.Falling (g : Forest) (S : NodeId → Prop) (rank : NodeId → Nat) : Prop where
  closed : g.ClosedUnderKids S
  falls : ∀ p, S p → ∀ c ∈ g.kidOwners p, rank c < rank p

/-- The leaves of the rule are labeled. -/
def Labels.CoversLeaves (ls : Labels) (g : Forest) (k : NodeId) (r : Rule) : Prop :=
  ∀ f, g.SameSkeleton f → ∀ leaf ∈ (r.pattern.takeLeaves k f).1, ls.Covers leaf

/-- Labels that can be followed: what their rules ask for is labeled too. -/
structure Labels.Derives (g : Forest) (ls : Labels) : Prop where
  sound : ls.Sound g
  grounded : ∀ k, (ls.label k).Grounded
  leaves : ∀ k nt r, ls.rule? k nt = some r → ls.CoversLeaves g k r

namespace Labels

theorem label_cons_self (ls : Labels) (k : NodeId) (l : NodeLabel) : label ((k, l) :: ls) k = l := by
  rw [label, List.lookup_cons_self]
  rfl

theorem lookup_cons_of_ne (ls : Labels) (l : NodeLabel) (h : k ≠ id) :
    List.lookup k ((id, l) :: ls) = ls.lookup k := by
  rw [List.lookup_cons, beq_eq_false_iff_ne.mpr h]

theorem label_cons_of_ne (ls : Labels) (l : NodeLabel) (h : k ≠ id) :
    label ((id, l) :: ls) k = ls.label k := by
  rw [label, lookup_cons_of_ne ls l h, label]

theorem rule?_eq_some : ls.rule? k nt = some r ↔ ∃ i, (ls.label k).best? nt = some i ∧ i.rule = r :=
  Option.map_eq_some_iff

theorem rule?_congr (h : ls'.label k = ls.label k) (nt : Nonterminal) :
    ls'.rule? k nt = ls.rule? k nt := by
  rw [rule?, rule?, h]

/-- What is labeled has an entry. -/
theorem Covers.isSome (h : ls.Covers (k, nt)) : (ls.lookup k).isSome = true := by
  rw [Covers, rule?, label] at h
  cases hl : ls.lookup k with
  | none => rw [hl] at h; exact absurd h (by simp [NodeLabel.best?])
  | some l => rfl

theorem Covers.cons (h : ls.Covers (k, nt)) (l : NodeLabel) (hid : ls.lookup id = none) :
    Covers ((id, l) :: ls) (k, nt) := by
  have hne : k ≠ id := by
    rintro rfl
    exact absurd h.isSome (by simp [hid])
  rw [Covers, rule?_congr (label_cons_of_ne ls l hne)]
  exact h

theorem CoversLeaves.cons (h : ls.CoversLeaves g k r) (l : NodeLabel) (hid : ls.lookup id = none) :
    CoversLeaves ((id, l) :: ls) g k r :=
  fun f hf leaf hleaf ↦ (h f hf leaf hleaf).cons l hid

/-- The leaves of the rules for a head are labeled when its node is. -/
theorem coversLeaves_labelNode (g : Forest) (ls : Labels) (id : NodeId) :
    ∀ i ∈ labelNode g ls id, i.rule.pattern.head? ≠ none → ls.CoversLeaves g id i.rule := by
  refine labelNode_induct (P := fun l ↦ ∀ i ∈ l, i.rule.pattern.head? ≠ none →
    ls.CoversLeaves g id i.rule) (fun i hi ↦ absurd hi List.not_mem_nil)
    (fun l hl r hr _ _ c hcost i hi hhead ↦ ?_) fun l hl r _ s hp _ i hi hhead ↦ ?_
  · rcases NodeLabel.mem_improve hi with rfl | hi
    · intro f hf
      exact r.pattern.covers_of_matchCost id f c hf (Grammar.isTile_rules r hr) hcost
    · exact hl i hi hhead
  · rcases NodeLabel.mem_improve hi with rfl | hi
    · exact absurd (hp ▸ rfl) hhead
    · exact hl i hi hhead

namespace Derives

theorem nil : Derives g [] where
  sound _ _ h := absurd h List.not_mem_nil
  grounded _ := .nil
  leaves _ _ _ h := absurd h (by simp [rule?, label, NodeLabel.best?])

/-- A new label can be followed to those of the children. -/
theorem cons (h : ls.Derives g) (hid : ls.lookup id = none) :
    Derives g ((id, labelNode g ls id) :: ls) := by
  have hsound := sound_labelNode g ls id
  have hgrounded := NodeLabel.Grounded.labelNode g ls id
  have hleaves := coversLeaves_labelNode g ls id
  generalize labelNode g ls id = l at hsound hgrounded hleaves
  refine ⟨fun k l' hl ↦ ?_, fun k ↦ ?_, fun k nt r hrule ↦ ?_⟩
  · rcases List.mem_cons.mp hl with heq | hl
    · obtain ⟨rfl, rfl⟩ := Prod.mk.inj heq
      exact hsound
    · exact h.sound k l' hl
  · by_cases hk : k = id
    · subst hk
      rwa [label_cons_self]
    · rw [label_cons_of_ne ls _ hk]
      exact h.grounded k
  · by_cases hk : k = id
    · subst hk
      obtain ⟨i, hbest, rfl⟩ := rule?_eq_some.mp hrule
      rw [label_cons_self] at hbest
      cases hp : i.rule.pattern with
      | nt s =>
        -- a chain rule goes on at the node itself
        intro f hf leaf hleaf
        rw [hp, Pattern.takeLeaves] at hleaf
        obtain rfl := List.mem_singleton.mp hleaf
        rw [Covers, rule?, label_cons_self, Option.isSome_map]
        exact hgrounded.source hbest (hp ▸ rfl)
      | op h kids =>
        refine (hleaves i (List.mem_of_find?_eq_some hbest) ?_).cons _ hid
        exact fun hnone ↦ by simp [hp, Pattern.head?] at hnone
      | variadic h goal =>
        refine (hleaves i (List.mem_of_find?_eq_some hbest) ?_).cons _ hid
        exact fun hnone ↦ by simp [hp, Pattern.head?] at hnone
    · rw [rule?_congr (label_cons_of_ne ls _ hk)] at hrule
      exact (h.leaves k nt r hrule).cons _ hid

end Derives

end Labels

/-- To label a tree can only add labels for nodes in it. -/
theorem labelFrom_derives {S : NodeId → Prop} {rank : NodeId → Nat} (hfalls : g.Falling S rank)
    {fuel : Nat} {u : Unit} (hid : S id) (hls : ls.Derives g)
    (h : labelFrom g fuel id ls = .ok u ls') :
    ls'.Derives g ∧ ∀ k, rank id < rank k → ls'.lookup k = ls.lookup k := by
  induction fuel generalizing id ls ls' u with
  | zero =>
    obtain ⟨-, rfl⟩ := pure_eq_ok.mp h
    exact ⟨hls, fun _ _ ↦ rfl⟩
  | succ fuel ih =>
    obtain ⟨-, rfl⟩ | ⟨hid₀, ls₁, -, rfl, hkids⟩ := labelFrom_cases h
    · exact ⟨hls, fun _ _ ↦ rfl⟩
    · obtain ⟨hls₁, hkeep⟩ : ls₁.Derives g ∧ ∀ k, rank id ≤ rank k → ls₁.lookup k = ls.lookup k := by
        obtain ⟨-, rfl⟩ | ⟨-, u, hkids⟩ := hkids
        · exact ⟨hls, fun _ _ ↦ rfl⟩
        · refine forM_induct (P := fun t ↦ t.Derives g ∧
            ∀ k, rank id ≤ rank k → t.lookup k = ls.lookup k) hkids ⟨hls, fun _ _ ↦ rfl⟩
            fun c hc t u t' ⟨ht, hsame⟩ hstep ↦ ?_
          have hc := List.mem_reverse.mp hc
          obtain ⟨ht', hsame'⟩ := ih (hfalls.closed id hid c hc) ht hstep
          refine ⟨ht', fun k hk ↦ (hsame' k ?_).trans (hsame k hk)⟩
          exact Nat.lt_of_lt_of_le (hfalls.falls id hid c hc) hk
      have hid₁ : ls₁.lookup id = none := (hkeep id (Nat.le_refl _)).trans hid₀
      refine ⟨hls₁.cons hid₁, fun k hk ↦ ?_⟩
      have hne : k ≠ id := by
        rintro rfl
        exact Nat.lt_irrefl _ hk
      rw [Labels.lookup_cons_of_ne _ _ hne]
      exact hkeep k (Nat.le_of_lt hk)

/-- **Derivations.** The rules that label a tree can be followed. -/
theorem derives_labelTree {S : NodeId → Prop} {rank : NodeId → Nat} (hfalls : g.Falling S rank)
    {u : Unit} (hid : S (g.owner id)) (h : labelTree g id [] = .ok u ls) : ls.Derives g :=
  (labelFrom_derives hfalls hid .nil h).1

end TreeCover
