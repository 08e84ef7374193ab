import TreeCover.Proofs.Forest.Recorded
import TreeCover.Proofs.Tiling.Reads
import TreeCover.Proofs.Tiling.Settled

/-!
# Conservation of references

While the trees of a function are selected, the references of each node agree with the positions that
stand for it and are still held. When a root is reached, nobody has taken a reference to it back, for
whoever has an operand is younger than the operand; and once all roots have been visited, all nodes
have given up their children, since each node that still held some would be the child of a younger one
that does. Main statement: `references_conserved`.
-/

namespace TreeCover

open Ir Machine Work

variable {f : Func} {s : Session} {trees : List (List NodeId)} {w w' w₀ v v' : Workspace}
  {g g' g₀ : Forest} {done later : List NodeId} {k p c r t : NodeId} {next : InstId}
  {os : List (Ir.Operand Value)} {S : NodeId → Prop} {u : Unit} {fuel : Nat}
  {nt : Nonterminal}

/-! ## Children -/

namespace Workspace

/-- What stands for an operand is neither the register of a phi nor glue. -/
theorem Denotes.op_ne_of {x : Place Value BlockId} (h : w.Denotes f x k) :
    (w.forest.node k).op ≠ .phiDef ∧ (w.forest.node k).op ≠ .args := by
  cases h with
  | int _ hk => exact hk.op ▸ ⟨NodeOp.noConfusion, NodeOp.noConfusion⟩
  | float hk => exact hk.op ▸ ⟨NodeOp.noConfusion, NodeOp.noConfusion⟩
  | arg _ hk => exact hk.op ▸ ⟨NodeOp.noConfusion, NodeOp.noConfusion⟩
  | inst hk =>
    obtain ⟨-, ⟨o, ho⟩, -⟩ := hk
    exact ho ▸ ⟨NodeOp.noConfusion, NodeOp.noConfusion⟩
  | block _ hk => exact hk.op ▸ ⟨NodeOp.noConfusion, NodeOp.noConfusion⟩

/-- A child is an operand, which is older, or it holds the arguments of a call, or it is a pad. -/
inductive IsKid (f : Func) (w : Workspace) (k c : NodeId) : Prop
  | operand {p : Place Value BlockId} (hlt : c < k) (hdenotes : w.Denotes f p c)
  | list {kids : List NodeId} (hc : c = k + 1) (his : w.Is c (.ofArgs kids))
      (hcall : (w.forest.node k).op = .inst .call)
  | pad (his : w.Is c .pad)

theorem Shape.isKid (h : w.Shape f k) (hc : c ∈ (w.forest.node k).kids) : w.IsKid f k c := by
  have hnil : ∀ {n}, w.Is k n → n.kids = [] → w.IsKid f k c := by
    intro n hk hn
    rw [Node.kids_of_core hk.2, hn] at hc
    exact absurd hc List.not_mem_nil
  cases h with
  | argument _ hk => exact hnil hk rfl
  | constant hk => exact hnil hk rfl
  | label hk => exact hnil hk rfl
  | pad hk => exact hnil hk rfl
  | phi _ hk => exact hnil hk rfl
  | phiUse _ _ hk => exact hnil hk rfl
  | args hk hold =>
    rw [Node.kids_of_core hk.2] at hc
    obtain ⟨hlt, _, hdenotes⟩ := hold c hc
    exact .operand (Nat.lt_of_succ_lt hlt) hdenotes
  | @inst _ _ i kids _ _ hk hkids =>
    rw [Node.kids_of_core hk.2] at hc
    change c ∈ kids at hc
    have hop := hk.op
    generalize hoperation : i.operation = operation at hkids
    cases hkids with
    | call hlist _ _ =>
      obtain rfl := List.mem_singleton.mp hc
      exact .list rfl hlist (hop.trans (by simp [Node.ofInst, Inst.opcode, hoperation, Operation.opcode]))
    | br hkid hold hfirst hsecond =>
      simp only [List.mem_cons, List.not_mem_nil, or_false] at hc
      rcases hc with rfl | rfl | rfl
      · exact .operand hold hkid
      · exact .pad hfirst
      · exact .pad hsecond
    | other _ _ hkids hold =>
      obtain ⟨_, hdenotes⟩ := Denotes.of_mem hkids hc
      exact .operand (hold c hc) hdenotes
  | phiMove _ _ _ hk hkid hold =>
    rw [Node.kids_of_core hk.2] at hc
    obtain rfl := List.mem_singleton.mp hc
    exact .operand hold hkid

theorem IsKid.op_ne (h : w.IsKid f k c) : (w.forest.node c).op ≠ .phiDef := by
  cases h with
  | operand _ hdenotes => exact hdenotes.op_ne_of.1
  | list _ his => exact his.op ▸ NodeOp.noConfusion
  | pad his => exact his.op ▸ NodeOp.noConfusion

end Workspace

namespace Planted

theorem isKid (hp : Planted f trees w) (hc : c ∈ (w.forest.node k).kids) : w.IsKid f k c := by
  by_cases hk : k < w.forest.size
  · exact (hp.building.nodes k hk).shape.isKid hc
  · rw [Forest.node_of_le _ (Nat.le_of_not_lt hk)] at hc
    exact absurd hc List.not_mem_nil

/-- An alias stands for a phi where it is used. -/
theorem of_alias (hp : Planted f trees w) (ht : (w.forest.node k).target = some t) :
    ∃ b id i, w.Is k (.ofPhiUse b id i (some t)) ∧ ∃ b' i' v, w.Is t (.ofPhi b' id i' v) := by
  have hk : k < w.forest.size := by
    by_contra hnot
    rw [Forest.node_of_le _ (Nat.le_of_not_lt hnot)] at ht
    exact absurd ht (by simp)
  have hnone : ∀ {n : Node}, w.Is k n → n.target = some t :=
    fun his ↦ (Node.target_of_core his.2).symm.trans ht
  cases (hp.building.nodes k hk).shape with
  | phiUse _ _ his _ hold =>
    obtain rfl := hnone his
    exact ⟨_, _, _, his, (hold t rfl).2⟩
  | _ => exact absurd (hnone (by assumption)) (Option.some_ne_none t).symm

theorem phi_kids (hp : Planted f trees w) (hop : (w.forest.node k).op = .phiDef) :
    (w.forest.node k).kids = [] := by
  by_cases hk : k < w.forest.size
  · have hne : ∀ {n : Node}, w.Is k n → n.op = .phiDef :=
      fun his ↦ (Node.op_of_core his.2).symm.trans hop
    cases (hp.building.nodes k hk).shape with
    | phi _ his => exact Node.kids_of_core his.2
    | _ => exact absurd (hne (by assumption)) NodeOp.noConfusion
  · rw [Forest.node_of_le _ (Nat.le_of_not_lt hk)]

theorem alias_kids (hp : Planted f trees w) (ht : (w.forest.node k).target = some t) :
    (w.forest.node k).kids = [] := by
  obtain ⟨_, _, _, his, -⟩ := hp.of_alias ht
  exact Node.kids_of_core his.2

/-- Two nodes for the same value, none of which is the register of a phi, are the same. -/
theorem eq_of_owner (hp : Planted f trees w) (hrec : w.Recorded next os trees.flatten)
    (hc : (w.forest.node c).op ≠ .phiDef) (hr : (w.forest.node r).op ≠ .phiDef)
    (h : w.forest.owner c = w.forest.owner r) : c = r := by
  have halias : ∀ {k t}, (w.forest.node k).target = some t → (w.forest.node t).op = .phiDef ∧
      ∃ id, (w.forest.node t).source = some id ∧ w.defs.values.lookup (.inst id) = some k := by
    intro k t ht
    obtain ⟨_, _, _, his, _, _, _, hphi⟩ := hp.of_alias ht
    obtain ⟨id, hsource, hname⟩ := hrec.insts k his.1 _ his.op
    obtain rfl := Option.some.inj (his.source.symm.trans hsource)
    exact ⟨hphi.op, _, hphi.source, hname⟩
  cases htc : (w.forest.node c).target with
  | none =>
    cases htr : (w.forest.node r).target with
    | none => rwa [Forest.owner_of_target htc, Forest.owner_of_target htr] at h
    | some t =>
      rw [Forest.owner_of_target htc, hp.building.flat.owner_alias htr] at h
      exact absurd (h ▸ (halias htr).1) hc
  | some t =>
    rw [hp.building.flat.owner_alias htc] at h
    cases htr : (w.forest.node r).target with
    | none =>
      rw [Forest.owner_of_target htr] at h
      exact absurd (h ▸ (halias htc).1) hr
    | some t' =>
      -- aliases of the same phi have its name
      rw [hp.building.flat.owner_alias htr] at h
      obtain ⟨-, id, hid, hc⟩ := halias htc
      obtain ⟨-, id', hid', hr⟩ := halias htr
      rw [h] at hid
      obtain rfl := Option.some.inj (hid.symm.trans hid')
      exact Option.some.inj (hc.symm.trans hr)

/-- Arguments belong to a call. -/
theorem exists_call (hp : Planted f trees w) (hrec : w.Recorded next os trees.flatten)
    (hk : k < w.forest.size) (hop : (w.forest.node k).op = .args) :
    ∃ p, (w.forest.node p).op = .inst .call ∧ k = p + 1 ∧ k ∈ w.forest.kidOwners p := by
  have hheld := hrec.lists k hk hop
  rw [hrec.ledger.conserved] at hheld
  obtain ⟨p, -, -, hkid⟩ := Forest.exists_holder hheld
  obtain ⟨c, hc, rfl⟩ := List.mem_map.mp hkid
  have htarget : (w.forest.node c).target = none := by
    cases ht : (w.forest.node c).target with
    | none => rfl
    | some t =>
      obtain ⟨_, _, _, -, _, _, _, hphi⟩ := hp.of_alias ht
      rw [hp.building.flat.owner_alias ht] at hop
      exact absurd (hphi.op.symm.trans hop) NodeOp.noConfusion
  have howner := Forest.owner_of_target htarget
  rw [howner] at hop hkid ⊢
  cases hp.isKid hc with
  | operand _ hdenotes => exact absurd hop hdenotes.op_ne_of.2
  | pad his => exact absurd (his.op.symm.trans hop) NodeOp.noConfusion
  | list heq _ hcall => exact ⟨p, hcall, heq, hkid⟩

/-- Roots come in order. -/
theorem mem_done_iff (hp : Planted f trees w) (hall : trees.flatten = done ++ r :: later)
    (hk : k ∈ trees.flatten) : k ∈ done ↔ k < r := by
  have hsorted := hp.sorted
  rw [hall] at hk hsorted
  obtain ⟨-, hlater, hdone⟩ := List.pairwise_append.mp hsorted
  refine ⟨fun hk ↦ hdone k hk r List.mem_cons_self, fun hlt ↦ ?_⟩
  refine (List.mem_append.mp hk).resolve_right fun hk ↦ ?_
  rcases List.mem_cons.mp hk with rfl | hk
  · exact Nat.lt_irrefl _ hlt
  · exact Nat.lt_asymm hlt ((List.pairwise_cons.mp hlater).1 k hk)

/-- Whoever has a root among its children is younger. -/
theorem lt_of_root (hp : Planted f trees w) (hrec : w.Recorded next os trees.flatten)
    (hr : r ∈ trees.flatten) (h : w.forest.owner r ∈ w.forest.kidOwners p) : r < p := by
  obtain ⟨c, hc, howner⟩ := List.mem_map.mp h
  have hkid := hp.isKid hc
  obtain ⟨-, hop⟩ := hp.root hr
  have hne : ∀ o, (∀ o', o ≠ .inst o') → o ≠ .phiMove → (w.forest.node r).op ≠ o := by
    rintro _ hinst hmove rfl
    exact hop.elim hmove fun ⟨o', ho⟩ ↦ hinst o' ho
  obtain rfl := hp.eq_of_owner hrec hkid.op_ne
    (hne .phiDef (fun _ ↦ NodeOp.noConfusion) NodeOp.noConfusion) howner
  cases hkid with
  | operand hlt _ => exact hlt
  | list _ his => exact absurd his.op (hne .args (fun _ ↦ NodeOp.noConfusion) NodeOp.noConfusion)
  | pad his => exact absurd his.op (hne .dummy (fun _ ↦ NodeOp.noConfusion) NodeOp.noConfusion)

end Planted

/-! ## The tree under a root -/

/-- The nodes of which a tree under `r` can consist: nothing younger but glue. -/
structure Forest.Under (g : Forest) (r k : NodeId) : Prop where
  owner : g.owner k = k
  below : k ≤ r ∨ k = r + 1 ∧ (g.node k).op = .args ∨ (g.node k).kids = []

theorem Planted.closed_under (hp : Planted f trees w) (r : NodeId) :
    w.forest.ClosedUnderKids (w.forest.Under r) := by
  intro p hpr c hc
  obtain ⟨j, hj, rfl⟩ := List.mem_map.mp hc
  refine ⟨hp.building.flat.owner_owner j, ?_⟩
  have hsmall : j ≤ r → w.forest.Under r (w.forest.owner j) := fun hle ↦
    ⟨hp.building.flat.owner_owner j, Or.inl (Nat.le_trans (hp.building.flat.owner_le j) hle)⟩
  rcases hpr.below with hle | ⟨rfl, hargs⟩ | hnil
  · cases hp.isKid hj with
    | operand hlt _ => exact (hsmall (Nat.le_of_lt (Nat.lt_of_lt_of_le hlt hle))).below
    | list hc his hcall =>
      rw [Forest.owner_of_target (Node.target_of_core his.2)]
      rcases Nat.lt_or_eq_of_le hle with hlt | rfl
      · exact Or.inl (hc ▸ hlt)
      · exact Or.inr (Or.inl ⟨hc, his.op⟩)
    | pad his =>
      rw [Forest.owner_of_target (Node.target_of_core his.2)]
      exact Or.inr (Or.inr (Node.kids_of_core his.2))
  · cases hp.isKid hj with
    | operand hlt _ => exact (hsmall (Nat.le_of_lt_succ hlt)).below
    | list _ _ hcall => exact absurd (hargs.symm.trans hcall) NodeOp.noConfusion
    | pad his =>
      rw [Forest.owner_of_target (Node.target_of_core his.2)]
      exact Or.inr (Or.inr (Node.kids_of_core his.2))
  · rw [hnil] at hj
    exact absurd hj List.not_mem_nil

theorem Forest.ClosedUnderKids.of_skeleton (h : g.ClosedUnderKids S) (hskeleton : g.SameSkeleton g') :
    g'.ClosedUnderKids S := fun p hp c hc ↦ h p hp c (hskeleton.kidOwners p ▸ hc)

/-! ## What reductions keep -/

theorem keptByReduction_conserved (g : Forest) (S : NodeId → Prop) :
    KeptByReduction g S fun f f' ↦ f.Conserved → f'.Conserved where
  refl _ h := h
  trans _ _ _ h h' hf := h' (h hf)
  release _ id _ _ h := (h.releaseKids id).1
  roles f f' hroles h := by
    refine Forest.SameBooks.conserved ⟨⟨hroles.1, fun k ↦ ?_, fun k ↦ ?_, fun k ↦ ?_⟩, fun k ↦ ?_⟩ h <;>
    · obtain ⟨roles, hk⟩ := hroles.2 k
      rw [hk]
  mark f id _ _ _ _ h := by
    refine Forest.SameBooks.conserved (f.sameBooks_update id ?_) h
    exact fun _ ↦ ⟨⟨rfl, rfl, rfl⟩, rfl⟩

/-- Only nodes of the tree give up their children. -/
theorem keptByReduction_within (g : Forest) (S : NodeId → Prop) :
    KeptByReduction g S fun f f' ↦
      ∀ p, (f'.node p).kidsReleased = true → (f.node p).kidsReleased = true ∨ S p where
  refl _ _ h := Or.inl h
  trans _ _ _ h h' p hp := (h' p hp).elim (h p) Or.inr
  release f id _ hid p hp := by
    rcases (f.released_releaseKids id p).mp hp with hp | ⟨rfl, -⟩
    · exact Or.inl hp
    · exact Or.inr hid
  roles f f' hroles p hp := by
    obtain ⟨roles, hk⟩ := hroles.2 p
    rw [hk] at hp
    exact Or.inl hp
  mark f id v _ _ _ p hp := by
    refine Or.inl (Eq.trans (Eq.symm ?_) hp)
    apply @Forest.update_keeps fun n n' ↦ n'.kidsReleased = n.kidsReleased
    · exact fun _ ↦ rfl
    · exact fun _ ↦ rfl

theorem Forest.settles_refreshLevel (g : Forest) (r : NodeId) : g.Settles (g.refreshLevel r).2 := by
  have hfold : ∀ (levels : List (NodeId × Nat)) (g : Forest),
      g.Settles (levels.foldl (fun g x ↦ g.update x.1 fun n ↦ { n with level := x.2 }) g) := by
    intro levels
    induction levels with
    | nil => exact fun g ↦ .refl g
    | cons x levels ih =>
      intro g
      exact (Forest.Settles.update g x.1 (h := fun n ↦ { n with level := x.2 }) (fun _ ↦ rfl)
        (fun _ ↦ rfl) fun _ ↦ Or.inl rfl).trans (ih _)
  exact hfold _ g

/-! ## The invariant -/

theorem Node.opcode?_eq_some {n : Node} {o : Opcode} : n.opcode? = some o ↔ n.op = .inst o := by
  rw [Node.opcode?]
  split <;> simp_all

/-- A root that can be left to its consumers: it has some, all of them in its block unless it is an
address, and has no effect of its own. -/
structure Forest.MayWait (g : Forest) (r : NodeId) : Prop where
  effect : (g.node r).hasSideEffect = false
  escapes : (g.node r).escapes = false ∨ (g.node r).op = .inst .alloca
  consumed : ∃ p, g.owner r ∈ g.kidOwners p

/-- The forest when the roots `done` have been visited, in terms of the new forest `g₀`. -/
structure Visited (g₀ : Forest) (done : List NodeId) (g : Forest) : Prop where
  skeleton : g₀.SameSkeleton g
  conserved : g.Conserved
  computed : ∀ k, (g.node k).computed = true → g.Done k
  settled : ∀ p, (g.node p).kidsReleased = true → ∀ c ∈ g.kidOwners p, g.Done c
  within : ∀ p, (g.node p).kidsReleased = true → (g.node p).kids = [] ∨ ∃ r ∈ done, p ≤ r + 1
  visited : ∀ r ∈ done, g.Done r ∨ g₀.MayWait r

namespace Visited

theorem same (h : Visited g₀ done g) (hsettles : g.Settles g') (hbooks : g.SameBooks g') :
    Visited g₀ done g' where
  skeleton := h.skeleton.trans hsettles.skeleton
  conserved := hbooks.conserved h.conserved
  computed k hk := hsettles.done_of_computed h.computed hk
  settled p hp c hc := by
    rw [hsettles.skeleton.kidOwners] at hc
    exact hsettles.done (h.settled p ((hbooks.released p).symm.trans hp) c hc)
  within p hp := by
    rw [hsettles.skeleton.kids]
    exact h.within p ((hbooks.released p).symm.trans hp)
  visited r hr := (h.visited r hr).imp_left hsettles.done

/-- One more root. -/
theorem step (h : Visited g₀ done g) (hsettles : g.Settles g') (hconserved : g'.Conserved)
    (hwithin : ∀ p, (g'.node p).kidsReleased = true →
      (g.node p).kidsReleased = true ∨ g₀.Under r p)
    (hroot : g'.Done r ∨ g₀.MayWait r) :
    Visited g₀ (done ++ [r]) g' where
  skeleton := h.skeleton.trans hsettles.skeleton
  conserved := hconserved
  computed k hk := hsettles.done_of_computed h.computed hk
  settled p hp c hc := by
    rw [hsettles.skeleton.kidOwners] at hc
    rcases hsettles.kids p hp with hp | hkids
    · exact hsettles.done (h.settled p hp c hc)
    · exact hkids c hc
  within p hp := by
    rcases hwithin p hp with hp | hunder
    · rw [hsettles.skeleton.kids]
      refine (h.within p hp).imp_right fun ⟨r', hr', hle⟩ ↦ ⟨r', List.mem_append_left _ hr', hle⟩
    · rw [hsettles.skeleton.kids, h.skeleton.kids]
      rcases hunder.below with hle | ⟨rfl, -⟩ | hnil
      · exact Or.inr ⟨r, by simp, Nat.le_succ_of_le hle⟩
      · exact Or.inr ⟨r, by simp, Nat.le_refl _⟩
      · exact Or.inl hnil
  visited := by
    intro r' hr'
    rcases List.mem_append.mp hr' with hr' | hr'
    · exact (h.visited r' hr').imp_left hsettles.done
    · exact List.mem_singleton.mp hr' ▸ hroot

/-- What the reduction of a root can rely on. -/
theorem reduces (hp : Planted f trees w) (h : Visited w.forest done v.forest)
    (hr : (w.forest.node r).target = none) (hsound : v.labels.Sound v.forest) :
    v.forest.ClosedUnderKids (w.forest.Under r) ∧
      (∀ k, w.forest.Under r k → v.forest.owner k = k) ∧
      Reduces v.forest (w.forest.Under r) r v := by
  have howner : w.forest.owner r = r := Forest.owner_of_target hr
  refine ⟨(hp.closed_under r).of_skeleton h.skeleton, fun k hk ↦ ?_, hsound, .refl _, ?_⟩
  · exact (h.skeleton.owner k).trans hk.owner
  · rw [h.skeleton.owner, howner]
    exact ⟨howner, Or.inl (Nat.le_refl r)⟩

/-- Emitting a root. -/
theorem selectRoot (hp : Planted f trees w) (h : Visited w.forest done v.forest)
    (hr : (w.forest.node r).target = none) (hx : Work.selectRoot r v = .ok u v') :
    Visited w.forest (done ++ [r]) v'.forest := by
  obtain ⟨fuel, labels, session, b, v₁, hsound, hreduce, -, hforest⟩ := selectRoot_ok hx
  obtain ⟨hclosed, hunder, hstart⟩ := reduces (v := { v with labels, session }) hp h hr hsound
  have hordered : v.forest.Ordered v.forest := by
    refine ⟨h.skeleton.flat hp.building.flat, .refl _, fun _ hk ↦ hk, h.computed, fun k hop ↦ ?_⟩
    rw [h.skeleton.kids]
    exact hp.phi_kids ((h.skeleton.op k).symm.trans hop)
  obtain ⟨hsettles, hdone⟩ := reduceFrom_settles (w := { v with labels, session }) hsound hordered
    hreduce
  obtain ⟨hconserved, -⟩ := (keptByReduction_conserved v.forest _).reduceFrom hclosed hunder hstart
    hreduce
  obtain ⟨hwithin, -⟩ := (keptByReduction_within v.forest _).reduceFrom hclosed hunder hstart hreduce
  rw [h.skeleton.owner, Forest.owner_of_target hr] at hdone
  rw [hforest]
  exact h.step hsettles (hconserved h.conserved) hwithin (Or.inl hdone)

/-- A root that is left can be left. -/
theorem mayWait (h : Visited g₀ done v.forest) (hemit : shouldEmit r v = .ok false v') :
    g₀.MayWait r := by
  obtain ⟨rfl, large, hwhy⟩ := shouldEmit_ok hemit
  have h₁ : Visited g₀ done (v.forest.refreshLevel r).2 :=
    h.same (v.forest.settles_refreshLevel r) (v.forest.sameBooks_refreshLevel r)
  simp only [Bool.false_eq, Bool.or_eq_false_iff, decide_eq_false_iff_not,
    Bool.and_eq_false_iff] at hwhy
  obtain ⟨⟨⟨⟨hrefs, -⟩, hside⟩, hescapes⟩, -⟩ := hwhy
  rw [not_not, Node.opcode?_eq_some, h₁.skeleton.op, h₁.skeleton.escapes] at hescapes
  refine ⟨?_, hescapes, ?_⟩
  · rw [← hside, Node.hasSideEffect, Node.hasSideEffect, Node.opcode?, Node.opcode?, h₁.skeleton.op]
  · -- it has references, so somebody holds it
    rw [Forest.refs, h₁.conserved] at hrefs
    obtain ⟨p, -, -, hp⟩ := Forest.exists_holder (Nat.pos_of_ne_zero hrefs)
    rw [h₁.skeleton.kidOwners, h₁.skeleton.owner] at hp
    exact ⟨p, hp⟩

/-- **Visits.** -/
theorem selectTree (hp : Planted f trees w) (h : Visited w.forest done v.forest)
    (hx : Work.selectTree r v = .ok u v') : Visited w.forest (done ++ [r]) v'.forest := by
  rcases selectTree_ok hx with ⟨hskip, rfl⟩ | ⟨hnot, e, v₁, hemit, hx⟩
  · refine h.step (.refl _) h.conserved (fun _ hp ↦ Or.inl hp) (Or.inl ?_)
    rcases Bool.or_eq_true_iff.mp hskip with halias | hcomputed
    · obtain ⟨t, ht⟩ := Option.isSome_iff_exists.mp halias
      refine Or.inr ((h.skeleton.kids r).trans ?_)
      exact hp.alias_kids ((h.skeleton.target r).symm.trans ht)
    · exact h.computed r hcomputed
  · obtain ⟨halias, -⟩ := Bool.or_eq_false_iff.mp hnot
    have hr : (w.forest.node r).target = none := by
      rw [← h.skeleton.target]
      simpa using halias
    obtain ⟨hforest, -⟩ := shouldEmit_ok hemit
    have h₁ : Visited w.forest done v₁.forest :=
      hforest ▸ h.same (v.forest.settles_refreshLevel r) (v.forest.sameBooks_refreshLevel r)
    rcases hx with ⟨-, hselect⟩ | ⟨rfl, session, rfl⟩
    · exact h₁.selectRoot hp hr hselect
    · exact h₁.step (.refl _) h₁.conserved (fun _ hp ↦ Or.inl hp) (Or.inr (h.mayWait hemit))

/-- What a node that is done has given up is done. -/
theorem done_of_kid (h : Visited g₀ done g) (hdone : g.Done p) (hk : k ∈ g₀.kidOwners p) : g.Done k := by
  rw [← h.skeleton.kidOwners] at hk
  rcases hdone with hreleased | hnil
  · exact h.settled p hreleased k hk
  · rw [Forest.kidOwners, hnil] at hk
    exact absurd hk List.not_mem_nil

/-- The arguments of a call are given up with the call, which is emitted where it stands. -/
theorem done_args (hp : Planted f trees w) (hrec : w.Recorded next os trees.flatten)
    (h : Visited w.forest trees.flatten g) (hk : k < w.forest.size)
    (hop : (w.forest.node k).op = .args) : g.Done k := by
  obtain ⟨p, hcall, -, hkid⟩ := hp.exists_call hrec hk hop
  refine h.done_of_kid ((h.visited p (hp.mem_flatten hcall)).resolve_right ?_) hkid
  intro hwait
  have hside := hwait.effect
  rw [Node.hasSideEffect, Node.opcode?, hcall] at hside
  exact absurd hside (by decide)

/-- A root that was left is the child of a younger node. -/
theorem done_root (hp : Planted f trees w) (hrec : w.Recorded next os trees.flatten)
    (h : Visited w.forest trees.flatten g) (hr : r ∈ trees.flatten) (ih : ∀ p, r < p → g.Done p) :
    g.Done r := by
  cases ht : (w.forest.node r).target with
  | some t => exact Or.inr ((h.skeleton.kids r).trans (hp.alias_kids ht))
  | none =>
    rcases h.visited r hr with hdone | ⟨-, -, p, hkid⟩
    · exact hdone
    · have hlt := hp.lt_of_root hrec hr hkid
      rw [Forest.owner_of_target ht] at hkid
      exact h.done_of_kid (ih p hlt) hkid

/-- **Drain.** Once all roots have been visited, no node holds children. -/
theorem done_all (hp : Planted f trees w) (hrec : w.Recorded next os trees.flatten)
    (h : Visited w.forest trees.flatten g) (k : NodeId) : g.Done k := by
  -- from the youngest node to the oldest
  induction hn : w.forest.size - k using Nat.strong_induction_on generalizing k with
  | _ n ih =>
    by_cases hk : k < w.forest.size
    · have hnil : (w.forest.node k).kids = [] → g.Done k :=
        fun hkids ↦ Or.inr ((h.skeleton.kids k).trans hkids)
      have hroot : k ∈ trees.flatten → g.Done k := fun hr ↦
        h.done_root hp hrec hr fun p hlt ↦ ih _ (hn ▸ Nat.sub_lt_sub_left hk hlt) p rfl
      cases (hp.building.nodes k hk).shape with
      | argument _ his => exact hnil (Node.kids_of_core his.2)
      | constant his => exact hnil (Node.kids_of_core his.2)
      | label his => exact hnil (Node.kids_of_core his.2)
      | pad his => exact hnil (Node.kids_of_core his.2)
      | phi _ his => exact hnil (Node.kids_of_core his.2)
      | phiUse _ _ his => exact hnil (Node.kids_of_core his.2)
      | args his => exact h.done_args hp hrec hk his.op
      | inst _ _ his => exact hroot (hp.mem_flatten his.op)
      | phiMove _ _ _ his => exact hroot (hrec.moves k his.op)
    · refine Or.inr ?_
      rw [Forest.node_of_le _ (h.skeleton.size ▸ Nat.le_of_not_lt hk)]

/-- Nobody has taken a reference to a root back when it is reached. -/
theorem refs_root (hp : Planted f trees w) (hrec : w.Recorded next os trees.flatten)
    (h : Visited w.forest done g) (hall : trees.flatten = done ++ r :: later) :
    g.refs r = g.positions (g.owner r) := by
  have hr : r ∈ trees.flatten := by simp [hall]
  rw [Forest.refs, h.conserved]
  refine Forest.held_eq_positions fun p hkid ↦ ?_
  by_contra hreleased
  rw [h.skeleton.kidOwners, h.skeleton.owner] at hkid
  rcases h.within p (by simpa using hreleased) with hnil | ⟨r', hr', hle⟩
  · rw [h.skeleton.kids] at hnil
    rw [Forest.kidOwners, hnil] at hkid
    exact absurd hkid List.not_mem_nil
  · have hlt := hp.lt_of_root hrec hr hkid
    have hearlier := (List.pairwise_append.mp (hall ▸ hp.sorted)).2.2 r' hr' r List.mem_cons_self
    exact absurd (Nat.lt_of_lt_of_le hlt hle) (Nat.not_lt.mpr hearlier)

/-- They are the operands that read it. -/
theorem refs_result (hp : Planted f trees w) (hrec : w.Recorded next os trees.flatten)
    (h : Visited w.forest done g) (hall : trees.flatten = done ++ r :: later) {o : Opcode}
    {id : InstId} (hop : (g.node r).op = .inst o) (hsource : (g.node r).source = some id) :
    g.refs r = os.countP (·.isResult id) := by
  have hr := (hp.root (r := r) (by simp [hall])).1
  rw [h.skeleton.op] at hop
  have hsource' : (w.forest.node r).source = some id :=
    (congrArg Node.source (h.skeleton.node r)).symm.trans hsource
  obtain ⟨id', hid, hname⟩ := hrec.insts r hr o hop
  obtain rfl := Option.some.inj (hsource'.symm.trans hid)
  rw [h.refs_root hp hrec hall, h.skeleton.owner, h.skeleton.positions, ← hrec.ledger.held,
    ← hrec.ledger.conserved, ← hrec.named _ _ hname, Forest.refs]

/-- What selection keeps, of a forest that was just built. -/
theorem kept (hp : Planted f trees w) : KeptByVisits trees.flatten fun done v ↦
    Visited w.forest done v.forest where
  block _ _ _ _ h := h
  root _ _ _ _ _ h hx := h.selectTree hp hx

theorem start (hp : Planted f trees w) (hrec : w.Recorded next os trees.flatten) :
    Visited w.forest [] w.forest where
  skeleton := .refl _
  conserved := hrec.ledger.conserved
  computed k hk := by
    refine Or.inr (hp.phi_kids ?_)
    by_contra hop
    exact absurd (hk.symm.trans (hp.computed hop)) (by simp)
  settled p hreleased := absurd (hreleased.symm.trans (hrec.ledger.holding p)) (by simp)
  within p hreleased := absurd (hreleased.symm.trans (hrec.ledger.holding p)) (by simp)
  visited _ hr := absurd hr List.not_mem_nil

end Visited

/-! ## The books -/

namespace Work

/-- In the course of selecting `trees` from `w`, it comes to reducing `k` to `nt` from `v`, for a root
or within a reduction that is not finished; `fuel` is what is left to that reduction. -/
def Reaches (trees : List (List NodeId)) (w : Workspace) (fuel : Nat) (k : NodeId)
    (nt : Nonterminal) (v : Workspace) : Prop :=
  ∃ root goal v₀ u, Comes trees w root v₀ ∧ Starts root goal v₀ u ∧
    Calls ((u.forest.size + 1) * (Nonterminal.all.length + 1)) root goal u fuel k nt v

end Work

/-- The references of the forest that was built for `f` in `w` are conserved when `trees` are
selected. -/
structure BooksKept (f : Func) (trees : List (List NodeId)) (w : Workspace) : Prop where
  /-- The books are balanced after the build. -/
  built : w.forest.Conserved
  /-- They are so whenever a reduction starts, … -/
  before : ∀ fuel k nt v, Reaches trees w fuel k nt v → v.forest.Conserved
  /-- … when the rule it follows has taken its leaves, without taking a reference back from a node
  that has none, … -/
  taken : ∀ fuel k nt v r, Reaches trees w fuel k nt v →
    v.labels.rule? (v.forest.owner k) nt = some r →
      (v.took r (v.forest.owner k) nt).forest.Conserved ∧
        ∀ call ∈ r.pattern.releaseCalls (v.forest.owner k) v.forest, 0 < call.1.refs call.2
  /-- … and when it is finished. -/
  after : ∀ fuel k nt v b v', Reaches trees w fuel k nt v → reduceFrom fuel k nt v = .ok b v' →
    v'.forest.Conserved
  /-- When a root is reached, all positions that stand for it are counted, … -/
  roots : ∀ r v, Comes trees w r v → v.forest.Conserved ∧
    v.forest.refs r = v.forest.positions (v.forest.owner r)
  /-- … which are the operands that read the result of its instruction. -/
  results : ∀ r v o id, Comes trees w r v → (v.forest.node r).op = .inst o →
    (v.forest.node r).source = some id → v.forest.refs r = f.reads id
  /-- In the end no references are left. -/
  drained : ∀ v, selectAll trees w = .ok () v → ∀ k, (v.forest.node k).refs = 0

/-- Whenever a reduction is called in the visit of `r`, the books are balanced, its labels fit the forest
and its node is one of those under `r`. -/
theorem Visited.calls {v₀ u : Workspace} {goal : Nonterminal} {fuel' : Nat} (hp : Planted f trees w)
    (hw : Visited w.forest [] w.forest) (hcomes : Comes trees w r v₀) (hstarts : Starts r goal v₀ u)
    (hcalls : Calls fuel' r goal u fuel k nt v) : u.forest.ClosedUnderKids (w.forest.Under r) ∧
      (∀ k, w.forest.Under r k → u.forest.owner k = k) ∧
      Reduces u.forest (w.forest.Under r) k v ∧ v.forest.Conserved := by
  obtain ⟨done, later, -, hvisited⟩ := (Visited.kept hp).comes hw hcomes
  obtain ⟨htarget, hforest, hsound⟩ := hstarts.labels
  have hu : Visited w.forest done u.forest :=
    hforest ▸ hvisited.same (v₀.forest.settles_refreshLevel r) (v₀.forest.sameBooks_refreshLevel r)
  obtain ⟨hclosed, hunder, hreduces⟩ :=
    hu.reduces hp ((hvisited.skeleton.target r).symm.trans htarget) hsound
  obtain ⟨hkept, hreduces⟩ := (keptByReduction_conserved u.forest _).calls hclosed hunder hreduces
    hcalls
  exact ⟨hclosed, hunder, hreduces, hkept hu.conserved⟩

/-- So it is for all reductions. -/
theorem Visited.reaches (hp : Planted f trees w) (hw : Visited w.forest [] w.forest)
    (h : Reaches trees w fuel k nt v) :
    ∃ g S, g.ClosedUnderKids S ∧ (∀ k, S k → g.owner k = k) ∧ Reduces g S k v ∧
      v.forest.Conserved := by
  obtain ⟨r, goal, v₀, u, hcomes, hstarts, hcalls⟩ := h
  exact ⟨_, _, Visited.calls hp hw hcomes hstarts hcalls⟩

/-- **Conservation of references.** In every function whose blocks can be built, the references of each
node agree with the positions that stand for it and are held, from the build to the last reduction. -/
theorem references_conserved (h : buildForest f (.start f s) = .ok trees w) : BooksKept f trees w := by
  obtain ⟨hp, -⟩ := buildForest_planted h
  have hrec := buildForest_recorded h
  have hstart := Visited.start hp hrec
  refine ⟨hrec.ledger.conserved, fun fuel k nt v hreach ↦ ?_, fun fuel k nt v r hreach hrule ↦ ?_,
    fun fuel k nt v b v' hreach hreduce ↦ ?_, fun r v hcomes ↦ ?_,
    fun r v o id hcomes hop hsource ↦ ?_, fun v hselect k ↦ ?_⟩
  · obtain ⟨_, _, -, -, -, hconserved⟩ := Visited.reaches hp hstart hreach
    exact hconserved
  · obtain ⟨_, _, -, -, -, hconserved⟩ := Visited.reaches hp hstart hreach
    exact r.pattern.takeLeaves_conserved _ _ hconserved
  · obtain ⟨g, S, hclosed, hunder, hreduces, hconserved⟩ := Visited.reaches hp hstart hreach
    exact ((keptByReduction_conserved g S).reduceFrom hclosed hunder hreduces hreduce).1 hconserved
  · obtain ⟨done, later, hall, hvisited⟩ := (Visited.kept hp).comes hstart hcomes
    exact ⟨hvisited.conserved, hvisited.refs_root hp hrec hall⟩
  · obtain ⟨done, later, hall, hvisited⟩ := (Visited.kept hp).comes hstart hcomes
    exact hvisited.refs_result hp hrec hall hop hsource
  · have hvisited := (Visited.kept hp).selectAll (List.prefix_refl _) hstart hselect
    rw [hvisited.conserved]
    refine Forest.held_eq_zero (fun p hreleased ↦ ?_) k
    exact (hvisited.done_all hp hrec p).resolve_left (by rw [hreleased]; exact Bool.false_ne_true)

/-- In the function that takes an address twice, the addresses have their readers, and all references
are taken back. -/
theorem siblings_references : ∃ trees w v, buildForest siblings (.start siblings {}) = .ok trees w ∧
    selectAll trees w = .ok () v ∧ BooksKept siblings trees w ∧ siblings.reads 0 = 2 ∧
      ∀ k, (v.forest.node k).refs = 0 := by
  obtain ⟨v, hx, -⟩ := siblings_selected
  obtain ⟨trees, w, hbuild, hselect⟩ := bind_eq_ok.mp hx
  have hbooks := references_conserved hbuild
  exact ⟨trees, w, v, hbuild, hselect, hbooks, by decide, hbooks.drained v hselect⟩

end TreeCover
