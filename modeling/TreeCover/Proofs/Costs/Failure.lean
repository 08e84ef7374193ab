import TreeCover.Proofs.Costs.Optimal
import TreeCover.Tiling.Select

/-!
# When labeling fails

A tree is rejected at a node that no label covers. Since costs are capped, this is a node that cannot be
reduced to anything below the cap, whether it cannot be reduced at all or only at too high a cost; and a
tree with such a node is always rejected. Shared nodes count once for each use, so the cost of a tree can
be exponential in its height, and 31 nodes that are each made twice from the one before are rejected
though every one of them has a derivation. Main statement: `label_fails_iff`.
-/

namespace TreeCover

open Ir Work

variable {f : Forest} {ls ls' : Labels} {k id root : NodeId}

/-! ## Beyond the cap -/

/-- Nothing reduces the node to anything at a cost below the cap. -/
def Forest.BeyondCap (f : Forest) (k : NodeId) : Prop :=
  ∀ nt (d : Derivation), d.Derives f k nt → infinite ≤ d.cost

namespace Labels

/-- Labels that are optimal, and each of which has a cost. -/
structure Covering (f : Forest) (ls : Labels) : Prop extends ls.Optimal f where
  covers : ∀ k, ls.Has k → ∃ nt, ls.cost k nt < infinite

theorem Covering.nil : Covering f [] := ⟨.nil, fun _ h ↦ absurd h (by simp [Has])⟩

/-- A labeled node is reduced to something below the cap. -/
theorem Covering.not_beyondCap (h : ls.Covering f) (hk : ls.Has k) : ¬ f.BeyondCap k := by
  obtain ⟨nt, hcost⟩ := h.covers k hk
  obtain ⟨d, -, hderives, hd⟩ := h.attained k nt hcost
  intro hbeyond
  exact Nat.not_le_of_lt hcost (hd ▸ hbeyond nt d hderives)

end Labels

/-- The rule that was taken up last has a cost. -/
theorem NodeLabel.exists_cost_of_ne_nil (hne : labelNode f ls id ≠ []) :
    ∃ nt, NodeLabel.cost (labelNode f ls id) nt < infinite := by
  have hgrounded := NodeLabel.Grounded.labelNode f ls id
  generalize labelNode f ls id = l at hne hgrounded
  obtain ⟨i, l, rfl⟩ := List.exists_cons_of_ne_nil hne
  have hbest : best? (i :: l) i.rule.lhs = some i := by rw [best?_cons, if_pos rfl]
  refine ⟨i.rule.lhs, ?_⟩
  rw [NodeLabel.cost, hbest]
  exact hgrounded.finite _ i hbest

theorem keptByLabels_covering (f : Forest) : KeptByLabels f (Labels.Covering f) := by
  intro ls id hls hkids hne
  refine ⟨hls.toOptimal.cons hkids, fun k hk ↦ ?_⟩
  by_cases heq : k = id
  · subst heq
    simpa only [Labels.cost, Labels.label_cons_self] using NodeLabel.exists_cost_of_ne_nil hne
  · rw [Labels.Has, Labels.lookup_cons_of_ne ls _ heq] at hk
    simpa only [Labels.cost, Labels.label_cons_of_ne ls _ heq] using hls.covers k hk

/-- A node that gets no label is beyond the cap. -/
theorem Labels.Optimal.beyondCap (h : ls.Optimal f) (hkids : ∀ c, f.MadeFrom id c → ls.Has c)
    (hnil : labelNode f ls id = []) : f.BeyondCap id := by
  intro nt d hd
  have hleast := (h.cons hkids).least id (Labels.has_cons_self ls id _) nt d hd
  rwa [hnil, Labels.cost, Labels.label_cons_self, NodeLabel.cost_nil] at hleast

/-! ## Runs that fail -/

/-- Where labeling fails: at a child, or at the node itself after its children. -/
theorem labelFrom_error_cases {fuel : Nat} (h : labelFrom f (fuel + 1) id ls = .error k ls') :
    (f.node id).computed = false ∧
        (f.kidOwners id).reverse.forM (labelFrom f fuel) ls = .error k ls' ∨
      k = id ∧ labelNode f ls' id = [] ∧ ((f.node id).computed = true ∧ ls' = ls ∨
        (f.node id).computed = false ∧
          ∃ u, (f.kidOwners id).reverse.forM (labelFrom f fuel) ls = .ok u ls') := by
  have hadd : ∀ {l : NodeLabel} {ls₁ : Labels}, (if l.isEmpty then do throw id; modify ((id, l) :: ·)
      else modify ((id, l) :: ·) : EStateM NodeId Labels Unit) ls₁ = .error k ls' →
      k = id ∧ l = [] ∧ ls' = ls₁ := by
    intro l ls₁ h
    split at h
    next hempty =>
      rcases bind_eq_error.mp h with hthrow | ⟨_, _, hthrow, -⟩
      · cases hthrow
        exact ⟨rfl, List.isEmpty_iff.mp hempty, rfl⟩
      · exact absurd hthrow throw_ne_ok
    next => cases h
  rw [labelFrom] at h
  obtain h | ⟨_, _, hget, hrest⟩ := bind_eq_error.mp h
  · cases h
  obtain ⟨rfl, rfl⟩ := get_eq_ok.mp hget
  clear h
  split at hrest
  next => exact absurd hrest pure_ne_error
  next =>
    split at hrest
    next hcomputed =>
      obtain h | ⟨_, _, hget, hlast⟩ := bind_eq_error.mp hrest
      · cases h
      obtain ⟨rfl, rfl⟩ := get_eq_ok.mp hget
      obtain ⟨rfl, hnil, rfl⟩ := hadd hlast
      exact Or.inr ⟨rfl, hnil, Or.inl ⟨hcomputed, rfl⟩⟩
    next hcomputed =>
      have hcomputed := Bool.eq_false_iff.mpr hcomputed
      obtain h | ⟨u, ls₁, hkids, hnode⟩ := bind_eq_error.mp hrest
      · exact Or.inl ⟨hcomputed, h⟩
      obtain h | ⟨_, _, hget, hlast⟩ := bind_eq_error.mp hnode
      · cases h
      obtain ⟨rfl, rfl⟩ := get_eq_ok.mp hget
      obtain ⟨rfl, hnil, rfl⟩ := hadd hlast
      exact Or.inr ⟨rfl, hnil, Or.inr ⟨hcomputed, u, hkids⟩⟩

/-- A run that fails has stopped at a node below the start, everything below which is labeled but which
gets no label itself. -/
theorem labelFrom_stuck {P : Labels → Prop} (hkeeps : KeptByLabels f P)
    (hacyclic : f.AcyclicBelow id) {path : List NodeId} {fuel : Nat} (hpath : f.Descends path id)
    (hfuel : f.size < fuel + path.length) (hls : P ls) (h : labelFrom f fuel id ls = .error k ls') :
    P ls' ∧ f.Below id k ∧ (∀ c, f.MadeFrom k c → ls'.Has c) ∧ labelNode f ls' k = [] := by
  induction fuel generalizing id ls path with
  | zero => exact absurd h pure_ne_error
  | succ fuel ih =>
    have hdeeper : ∀ c, f.MadeFrom id c → f.size < fuel + (id :: path).length := by
      intro c _
      rw [List.length_cons]
      omega
    have hstep : (f.node id).computed = false → ∀ c ∈ (f.kidOwners id).reverse, ∀ t u t', P t →
        labelFrom f fuel c t = .ok u t' → P t' ∧ t'.Has c ∧ ∀ k, t.Has k → t'.Has k := by
      intro hcomputed c hc t u t' ht hrun
      have hc : f.MadeFrom id c := ⟨hcomputed, List.mem_reverse.mp hc⟩
      exact labelFrom_done hkeeps (hacyclic.step hc) (hpath.cons hacyclic hc) (hdeeper c hc) ht hrun
    obtain ⟨hcomputed, hkids⟩ | ⟨rfl, hnil, hkids⟩ := labelFrom_error_cases h
    · -- a child fails, after others were labeled
      obtain ⟨before, c, after, t, hsplit, hbefore, hrun⟩ := forM_eq_error hkids
      have hc : f.MadeFrom id c := by
        refine ⟨hcomputed, List.mem_reverse.mp ?_⟩
        rw [hsplit]
        exact List.mem_append_right _ List.mem_cons_self
      have ht : P t := by
        refine forM_induct hbefore hls fun c hc t u t' ht hrun ↦ (hstep hcomputed c ?_ t u t' ht hrun).1
        rw [hsplit]
        exact List.mem_append_left _ hc
      obtain ⟨hls', hbelow, hall, hnil⟩ :=
        ih (hacyclic.step hc) (hpath.cons hacyclic hc) (hdeeper c hc) ht hrun
      exact ⟨hls', hbelow.head hc, hall, hnil⟩
    · obtain ⟨hcomputed, rfl⟩ | ⟨hcomputed, u, hkids⟩ := hkids
      · refine ⟨hls, .refl, fun c hc ↦ absurd hc.1 ?_, hnil⟩
        simp [hcomputed]
      · obtain ⟨hls', hall, -⟩ :=
          forM_done (Q := fun k t ↦ Labels.Has t k) hkids hls (hstep hcomputed)
        exact ⟨hls', .refl, fun c hc ↦ hall c (List.mem_reverse.mpr hc.2), hnil⟩

/-- **Trees.** A tree is labeled if all its nodes can be reduced below the cap; else the run fails at a
node that cannot. -/
theorem labelTree_cases (hacyclic : f.AcyclicBelow (f.owner root)) :
    (∃ ls, labelTree f root [] = .ok () ls ∧ ∀ k, f.Below (f.owner root) k → ¬ f.BeyondCap k) ∨
    ∃ k ls, labelTree f root [] = .error k ls ∧ f.Below (f.owner root) k ∧ f.BeyondCap k := by
  cases h : labelTree f root [] with
  | ok u ls =>
    obtain ⟨hls, hroot, -⟩ :=
      labelFrom_done (keptByLabels_covering f) hacyclic .nil (by simp) .nil h
    exact Or.inl ⟨ls, rfl, fun k hk ↦ hls.not_beyondCap (hls.toOptimal.has_of_reaches hroot hk)⟩
  | error k ls =>
    obtain ⟨hls, hbelow, hkids, hnil⟩ :=
      labelFrom_stuck (keptByLabels_covering f) hacyclic .nil (by simp) .nil h
    exact Or.inr ⟨k, ls, rfl, hbelow, hls.toOptimal.beyondCap hkids hnil⟩

/-! ## Rejected trees -/

namespace Work

variable {w : Workspace}

theorem label_of_ok (h : labelTree w.forest root [] = .ok () ls) : ∃ w', label root w = .ok () w' := by
  rw [label, get_bind]
  simp only [EStateM.run, h]
  exact ⟨_, rfl⟩

theorem label_of_error (h : labelTree w.forest root [] = .error id ls) :
    ∃ w', label root w = .error (.uncovered w.code.name id (w.forest.node id).op.text) w' := by
  rw [label, get_bind]
  simp only [EStateM.run, h]
  exact ⟨_, rfl⟩

/-- **Rejected trees.** Where nothing is made from itself, a tree is rejected exactly if there is a node
below its root, not looking into what is computed, that no derivation reduces to anything at a cost
below the cap. -/
theorem label_fails_iff (hacyclic : w.forest.Acyclic) (root : NodeId) :
    (∃ id w', label root w =
      .error (.uncovered w.code.name id (w.forest.node id).op.text) w') ↔
    ∃ k, w.forest.Below (w.forest.owner root) k ∧ w.forest.BeyondCap k := by
  rcases labelTree_cases (hacyclic.below (w.forest.owner root)) with
    ⟨ls, hok, hall⟩ | ⟨k, ls, herror, hbelow, hbeyond⟩
  · obtain ⟨w', hlabel⟩ := label_of_ok hok
    refine ⟨fun ⟨id, w'', h⟩ ↦ ?_, fun ⟨k, hk, hbeyond⟩ ↦ absurd hbeyond (hall k hk)⟩
    exact nomatch hlabel.symm.trans h
  · exact ⟨fun _ ↦ ⟨k, hbelow, hbeyond⟩, fun _ ↦ ⟨k, label_of_error herror⟩⟩

/-- A workspace with a given forest. -/
def holding (f : Forest) : Workspace := { code := .start "f" [], session := {}, forest := f }

/-- Two arguments and their sum as floating-point numbers. -/
def floatSum : Forest :=
  ⟨#[{ op := .arg 0, width := 64 }, { op := .arg 1, width := 64 },
    { op := .inst (.binary .fadd), width := 64, kids := [0, 1] }]⟩

theorem acyclic_floatSum : floatSum.Acyclic := by
  refine Forest.acyclic_of_lt fun k c hc ↦ ?_
  have hk := Forest.lt_size_of_madeFrom hc
  have hsmall : ∀ k < floatSum.size, ∀ c ∈ floatSum.kidOwners k, c < k := by decide
  exact hsmall k hk c hc.2

/-- There are no rules for arithmetic on floating-point numbers, so the sum is rejected. -/
theorem label_floatSum : (∃ id w', label 2 (holding floatSum) =
      .error (.uncovered "f" id (floatSum.node id).op.text) w') ∧
    ∃ k, floatSum.Below (floatSum.owner 2) k ∧ floatSum.BeyondCap k := by
  have hrejected : ∃ id w', label 2 (holding floatSum) =
      .error (.uncovered "f" id (floatSum.node id).op.text) w' := ⟨2, _, rfl⟩
  exact ⟨hrejected, (label_fails_iff (w := holding floatSum) acyclic_floatSum 2).mp hrejected⟩

end Work

/-! ## Trees that are too expensive -/

theorem Grammar.mem_of_rule? {r : Rule} (name : String) (h : Grammar.rule? name = some r) :
    r ∈ Grammar.rules := List.mem_of_find?_eq_some h

/-- A derivation goes on by a chain rule. -/
theorem Derivation.Derives.chain {d : Derivation} {r : Rule} {s : Nonterminal}
    (h : d.Derives f id s) (hr : r ∈ Grammar.rules) (hp : r.pattern = .nt s) :
    (Derivation.step r [d]).Derives f id r.lhs := by
  refine ⟨Rule.matches_of_isChain hr (by rw [Rule.isChain, hp]) f id, rfl, ?_⟩
  rw [hp, Pattern.leaves]
  exact ⟨h, trivial⟩

namespace Forest

/-- The argument, for 0, and the square of the node before. -/
def square : Nat → Node
  | 0 => { op := .arg 0, width := 64, slot := .mem (.based (.phys .rbp) 16) }
  | k + 1 => { op := .inst (.binary .mul), width := 64, kids := [k, k] }

/-- An argument that is squared again and again. -/
def squares (n : Nat) : Forest := ⟨((List.range (n + 1)).map square).toArray⟩

variable {n : Nat}

theorem node_squares (hk : k ≤ n) : (squares n).node k = square k := by
  simp [node, squares, List.getElem?_range (Nat.lt_succ_of_le hk)]

theorem owner_squares (hk : k ≤ n) : (squares n).owner k = k := by
  have htarget : ((squares n).node k).target = none := by
    rw [node_squares hk]
    cases k <;> rfl
  rw [owner]
  generalize (squares n).size = fuel
  cases fuel with
  | zero => rfl
  | succ fuel => rw [ownerFrom, htarget]

theorem kidOwners_squares (hk : k + 1 ≤ n) : (squares n).kidOwners (k + 1) = [k, k] := by
  rw [kidOwners, node_squares hk, square, List.map_cons, List.map_cons, List.map_nil,
    owner_squares (Nat.le_of_succ_le hk)]

theorem lt_of_madeFrom_squares {c : NodeId} (h : (squares n).MadeFrom k c) : c < k := by
  have hk : k ≤ n := by simpa [size, squares, Nat.lt_succ_iff] using lt_size_of_madeFrom h
  have hkid := h.2
  cases k with
  | zero => simp [kidOwners, node_squares hk, square] at hkid
  | succ k =>
    rw [kidOwners_squares hk] at hkid
    obtain rfl : c = k := by simpa using hkid
    exact Nat.lt_succ_self c

theorem acyclic_squares (n : Nat) : (squares n).Acyclic :=
  acyclic_of_lt fun _ _ ↦ lt_of_madeFrom_squares

/-- Every square can be computed into a register. -/
theorem derives_squares (hk : k ≤ n) : ∃ d : Derivation, d.Derives (squares n) k .reg := by
  induction k with
  | zero =>
    let arg : Rule := ⟨"arg", .mem, .op .arg [], 0, none, .memory⟩
    have hmatches : arg.Matches (squares n) 0 := by
      refine ⟨Grammar.mem_of_rule? "arg" rfl, ?_, rfl⟩
      simp [arg, Pattern.Fits, Pattern.FitKids, node_squares hk, square, Node.head?]
    have hderives : (Derivation.step arg []).Derives (squares n) 0 .mem := by
      refine ⟨hmatches, rfl, ?_⟩
      simp [arg, Pattern.leaves, Pattern.kidLeaves, Derivation.DeriveAll]
    exact ⟨_, hderives.chain (Grammar.mem_of_rule? "reg_from_mem" rfl) rfl⟩
  | succ k ih =>
    obtain ⟨d, hd⟩ := ih (Nat.le_of_succ_le hk)
    let mul : Rule := ⟨"mul_reg", .reg, Grammar.bin .mul .reg .reg, 2, none, .binary "imulq"⟩
    have hmatches : mul.Matches (squares n) (k + 1) := by
      refine ⟨Grammar.mem_of_rule? "mul_reg" rfl, ?_, rfl⟩
      simp [mul, Grammar.bin, Grammar.inst, Pattern.Fits, Pattern.FitKids, kidOwners_squares hk,
        node_squares hk, square, Node.head?]
    refine ⟨.step mul [d, d], hmatches, rfl, ?_⟩
    simp [mul, Grammar.bin, Grammar.inst, Pattern.leaves, Pattern.kidLeaves, kidOwners_squares hk,
      Derivation.DeriveAll, hd]

theorem le_of_below_squares (h : (squares n).Below n k) : k ≤ n := by
  induction h with
  | refl => exact Nat.le_refl n
  | tail _ hc ih =>
    have hlt := lt_of_madeFrom_squares hc
    exact Nat.le_trans (Nat.le_of_lt hlt) ih

end Forest

/-- The cost of a square is more than twice that of the one before, and reaches the cap at the 31st. -/
theorem labelTree_squares : ∃ ls, labelTree (Forest.squares 31) 31 [] = .error 31 ls := by
  have hfails : (match labelTree (Forest.squares 31) 31 [] with
      | .error 31 _ => true
      | _ => false) = true := by decide +kernel
  split at hfails
  next ls h => exact ⟨ls, h⟩
  next => exact absurd hfails nofun

/-- A tree is rejected though all its nodes can be computed into registers. -/
theorem squares_rejected : (Forest.squares 31).Acyclic ∧
    (∃ id w', Work.label 31 (Work.holding (Forest.squares 31)) =
      .error (.uncovered "f" id ((Forest.squares 31).node id).op.text) w') ∧
    ∀ k, (Forest.squares 31).Below ((Forest.squares 31).owner 31) k →
      ∃ d : Derivation, d.Derives (Forest.squares 31) k .reg := by
  have hacyclic := Forest.acyclic_squares 31
  have howner : (Forest.squares 31).owner 31 = 31 := Forest.owner_squares (Nat.le_refl 31)
  obtain ⟨ls, herror⟩ := labelTree_squares
  -- nothing of the forest need be looked into from here on
  generalize hf : Forest.squares 31 = f at hacyclic howner herror
  obtain ⟨w', hlabel⟩ := Work.label_of_error (w := Work.holding f) herror
  refine ⟨hacyclic, ⟨31, w', hlabel⟩, fun k hk ↦ ?_⟩
  rw [howner] at hk
  subst hf
  exact Forest.derives_squares (Forest.le_of_below_squares hk)

end TreeCover
