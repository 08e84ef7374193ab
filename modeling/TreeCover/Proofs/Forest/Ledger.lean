import TreeCover.Proofs.Forest.Attach
import TreeCover.Proofs.Forest.References

/-!
# The books of a forest under construction

A reference is taken when an operand is resolved, and becomes a position when its node becomes a child;
in between it is owed. Nothing gives up its children while a forest is built, so every position is held.
-/

namespace TreeCover

variable {g g' : Forest} {c p s x : NodeId} {kids owed owed' : List NodeId} {n : Node}

namespace Forest

/-! ## Forests under construction -/

/-- A forest in which no node has given up its children and whose books are balanced but for the
references that are owed. -/
structure Ledger (g : Forest) (owed : List NodeId) : Prop where
  flat : g.Flat
  closed : ∀ p, ∀ c ∈ (g.node p).kids, c < g.size
  holding : ∀ p, (g.node p).kidsReleased = false
  owes : g.Owes owed

theorem Flat.owner_le (h : g.Flat) (k : NodeId) : g.owner k ≤ k := by
  cases ht : (g.node k).target with
  | none => rw [owner_of_target ht]
  | some t =>
    rw [h.owner_alias ht]
    exact Nat.le_of_lt (h k t ht).1

theorem Flat.owner_lt (h : g.Flat) (hk : k < g.size) : g.owner k < g.size :=
  Nat.lt_of_le_of_lt (h.owner_le k) hk

theorem Flat.push (h : g.Flat) (ht : ∀ t, n.target = some t → t < g.size ∧ (g.node t).target = none) :
    (g.push n).2.Flat := by
  intro k t hk
  rcases Nat.lt_trichotomy k g.size with hlt | rfl | hgt
  · rw [node_push_of_lt g n hlt] at hk
    obtain ⟨htk, htarget⟩ := h k t hk
    exact ⟨htk, by rw [node_push_of_lt g n (Nat.lt_trans htk hlt)]; exact htarget⟩
  · rw [node_push_self] at hk
    obtain ⟨hlt, htarget⟩ := ht t hk
    exact ⟨hlt, by rw [node_push_of_lt g n hlt]; exact htarget⟩
  · rw [node_of_le _ (by rw [size_push]; exact hgt)] at hk
    exact absurd hk (by simp)

theorem Flat.of_target (h : g.Flat) (htarget : ∀ k, (g'.node k).target = (g.node k).target) :
    g'.Flat := by
  intro k t hk
  rw [htarget] at hk ⊢
  exact h k t hk

/-! ## References -/

theorem refs_takeRef_of_ne (g : Forest) (h : x ≠ g.owner c) :
    ((g.takeRef c).node x).refs = (g.node x).refs := by
  rw [takeRef, node_update_of_ne g _ h]

theorem op_takeRef (g : Forest) (c x : NodeId) : ((g.takeRef c).node x).op = (g.node x).op :=
  @update_keeps (fun n n' ↦ n'.op = n.op) (fun _ ↦ rfl) g (g.owner c)
    (fun n ↦ { n with refs := n.refs + 1 }) (fun _ ↦ rfl) x

theorem source_takeRef (g : Forest) (c x : NodeId) :
    ((g.takeRef c).node x).source = (g.node x).source :=
  @update_keeps (fun n n' ↦ n'.source = n.source) (fun _ ↦ rfl) g (g.owner c)
    (fun n ↦ { n with refs := n.refs + 1 }) (fun _ ↦ rfl) x

theorem refs_addChild (g : Forest) (p c x : NodeId) :
    ((g.addChild p c).node x).refs = (g.node x).refs :=
  @update_keeps (fun n n' ↦ n'.refs = n.refs) (fun _ ↦ rfl) g p
    (fun n ↦ { n with
      kids := n.kids ++ [c], level := max n.level ((g.node (g.owner c)).level + 1) })
    (fun _ ↦ rfl) x

theorem refs_addKids (g : Forest) (p : NodeId) (kids : List NodeId) (x : NodeId) :
    ((g.addKids p kids).node x).refs = (g.node x).refs := by
  induction kids generalizing g with
  | nil => rfl
  | cons c kids ih => exact (ih (g.addChild p c)).trans (g.refs_addChild p c x)

theorem refs_adopt (ht : (g.node s).target = none) (hne : s ≠ p) (hx : x ≠ s) :
    ((g.adopt p s).node x).refs = (g.node x).refs := by
  rw [adopt, refs_takeRef_of_ne _ (by rwa [owner_addChild_of_target ht hne]), refs_addChild]

theorem sameBooks_finish {f : Ir.Func} {id : Ir.InstId} {i : Ir.ResolvedInst} {k : NodeId} (g : Forest) :
    g.SameBooks (g.finish f id i k) := by
  rw [finish]
  split <;> split
  · exact (g.sameBooks_logAccess .read k).trans (sameBooks_markEscaping _ k)
  · exact g.sameBooks_markEscaping k
  · exact g.sameBooks_logAccess .read k
  · exact .refl g

namespace Ledger

theorem perm (h : g.Ledger owed) (hperm : owed.Perm owed') :
    g.Ledger owed' := ⟨h.flat, h.closed, h.holding, h.owes.perm hperm⟩

theorem conserved (h : g.Ledger []) : g.Conserved := h.owes

/-- All positions are held. -/
theorem held (h : g.Ledger owed) (k : NodeId) : g.held k = g.positions k :=
  held_eq_positions fun p _ ↦ h.holding p

/-- A new node without children. -/
theorem push (h : g.Ledger owed) (hkids : n.kids = []) (hrefs : n.refs = 0)
    (hreleased : n.kidsReleased = false)
    (ht : ∀ t, n.target = some t → t < g.size ∧ (g.node t).target = none) :
    (g.push n).2.Ledger owed := by
  have hflat := h.flat.push ht
  have hold : g.node g.size = { op := .dummy, width := 0 } := g.node_of_le (Nat.le_refl _)
  have hprop : ∀ p, ((g.push n).2.node p).kids = (g.node p).kids ∧
      ((g.push n).2.node p).refs = (g.node p).refs ∧
      ((g.push n).2.node p).kidsReleased = (g.node p).kidsReleased := by
    intro p
    rcases g.node_push_cases n p with ⟨rfl, hnode⟩ | ⟨-, hnode⟩
    · rw [hnode, hold]
      exact ⟨hkids, hrefs, hreleased⟩
    · rw [hnode]
      exact ⟨rfl, rfl, rfl⟩
  have hkidOwners : ∀ p, (g.push n).2.kidOwners p = g.kidOwners p := by
    intro p
    rw [kidOwners, kidOwners, (hprop p).1]
    exact List.map_congr_left fun c hc ↦ (g.grows_push n).owner h.flat hflat (h.closed p c hc)
  refine ⟨hflat, fun p c hc ↦ ?_, fun p ↦ (hprop p).2.2.trans (h.holding p), fun k ↦ ?_⟩
  · rw [(hprop p).1] at hc
    rw [size_push]
    exact Nat.lt_succ_of_lt (h.closed p c hc)
  · rw [(hprop k).2.1, h.owes k]
    -- the new node has no positions
    have hlast : (g.push n).2.heldAt g.size k = 0 := by
      rw [heldAt, positionsAt, hkidOwners, kidOwners, hold]
      split <;> rfl
    have hheld : (g.push n).2.held k = g.held k := by
      rw [Forest.held, size_push, Finset.sum_range_succ, hlast, Nat.add_zero, Forest.held]
      refine Finset.sum_congr rfl fun p _ ↦ ?_
      rw [heldAt, heldAt, (hprop p).2.2, positionsAt, positionsAt, hkidOwners]
    rw [hheld]

theorem positions (h : g.Ledger owed) (hsame : g.SamePositions g') (howes : g'.Owes owed') :
    g'.Ledger owed' where
  flat := h.flat.of_target hsame.target
  closed p c hc := by
    rw [hsame.kids] at hc
    rw [hsame.size]
    exact h.closed p c hc
  holding p := (hsame.released p).trans (h.holding p)
  owes := howes

theorem books (h : g.Ledger owed) (hbooks : g.SameBooks g') : g'.Ledger owed :=
  h.positions hbooks.toSamePositions (hbooks.owes h.owes)

theorem takeRef (h : g.Ledger owed) (hc : c < g.size) :
    (g.takeRef c).Ledger ((g.takeRef c).owner c :: owed) := by
  have hsame := g.samePositions_takeRef c
  refine h.positions hsame fun k ↦ ?_
  rw [hsame.held, hsame.owner]
  by_cases hk : k = g.owner c
  · rw [hk, Forest.takeRef, node_update_self g _ (h.flat.owner_lt hc), List.count_cons_self]
    change (g.node _).refs + 1 = _
    rw [h.owes, Nat.add_assoc]
  · rw [Forest.takeRef, node_update_of_ne g _ hk, List.count_cons_of_ne (Ne.symm hk), h.owes]

/-- A reference becomes a position. -/
theorem addChild (h : g.Ledger (g.owner c :: owed)) (hp : p < g.size) (hc : c < g.size) :
    (g.addChild p c).Ledger owed ∧ ∀ id, (g.addChild p c).owner id = g.owner id := by
  obtain ⟨level, hself⟩ := g.node_addChild c hp
  have hnode : ∀ q, q ≠ p → (g.addChild p c).node q = g.node q :=
    fun q hq ↦ g.node_addChild_of_ne c hq
  have hprop : ∀ q, ((g.addChild p c).node q).target = (g.node q).target ∧
      ((g.addChild p c).node q).refs = (g.node q).refs ∧
      ((g.addChild p c).node q).kidsReleased = (g.node q).kidsReleased := by
    intro q
    by_cases hq : q = p
    · rw [hq, hself]
      exact ⟨rfl, rfl, rfl⟩
    · rw [hnode q hq]
      exact ⟨rfl, rfl, rfl⟩
  have hsize := g.size_addChild p c
  have howner : ∀ id, (g.addChild p c).owner id = g.owner id :=
    owner_congr hsize fun k ↦ (hprop k).1
  refine ⟨⟨h.flat.of_target fun k ↦ (hprop k).1, fun q c' hc' ↦ ?_,
    fun q ↦ (hprop q).2.2.trans (h.holding q), fun k ↦ ?_⟩, howner⟩
  · rw [hsize]
    by_cases hq : q = p
    · rw [hq, hself] at hc'
      rcases List.mem_append.mp hc' with hc' | hc'
      · exact h.closed p c' hc'
      · exact List.mem_singleton.mp hc' ▸ hc
    · rw [hnode q hq] at hc'
      exact h.closed q c' hc'
  · have hheld : (g.addChild p c).held k = g.held k + if g.owner c = k then 1 else 0 := by
      rw [Forest.held, Forest.held, hsize]
      refine sum_of_change hp fun q ↦ ?_
      rw [heldAt, heldAt, (hprop q).2.2, h.holding q, positionsAt, positionsAt, kidOwners, kidOwners,
        List.map_congr_left fun c _ ↦ howner c]
      by_cases hq : q = p
      · rw [if_pos hq, hq, hself]
        simp [List.count_singleton, beq_iff_eq]
      · rw [if_neg hq, hnode q hq, Nat.add_zero]
    rw [(hprop k).2.1, h.owes, hheld, List.count_cons]
    simp only [beq_iff_eq]
    omega

/-- References become positions, one after the other. -/
theorem addKids (h : g.Ledger (kids.map g.owner ++ owed)) (hp : p < g.size)
    (hkids : ∀ c ∈ kids, c < g.size) : (g.addKids p kids).Ledger owed := by
  induction kids generalizing g with
  | nil => exact h
  | cons c kids ih =>
    obtain ⟨hc, hrest⟩ := List.forall_mem_cons.mp hkids
    obtain ⟨hchild, howner⟩ := h.addChild hp hc
    have hsize := g.size_addChild p c
    refine ih ?_ (hsize ▸ hp) (hsize.symm ▸ hrest)
    rwa [List.map_congr_left fun c _ ↦ howner c]

/-- A node becomes a child and gets the reference for it. -/
theorem adopt (h : g.Ledger owed) (hp : p < g.size) (hs : s < g.size)
    (ht : (g.node s).target = none) (hne : s ≠ p) : (g.adopt p s).Ledger owed := by
  have hself : g.owner s = s := owner_of_target ht
  have htaken := h.takeRef hs
  have hsame := g.samePositions_takeRef s
  obtain ⟨hchild, -⟩ := htaken.addChild (p := p) (hsame.size ▸ hp) (hsame.size ▸ hs)
  -- the two changes do not meet, so it does not matter which of them comes first
  obtain ⟨level, hparent⟩ := node_adopt_parent ht hne hp
  obtain ⟨level', hparent'⟩ := (g.takeRef s).node_addChild s (p := p) (hsame.size ▸ hp)
  have htake : ∀ k, k ≠ s → (g.takeRef s).node k = g.node k := fun k hk ↦ by
    rw [Forest.takeRef, hself, node_update_of_ne g _ hk]
  have hnode : ∀ k, (((g.adopt p s).node k).target = (((g.takeRef s).addChild p s).node k).target ∧
      ((g.adopt p s).node k).kids = (((g.takeRef s).addChild p s).node k).kids ∧
      ((g.adopt p s).node k).kidsReleased =
        (((g.takeRef s).addChild p s).node k).kidsReleased) ∧
      ((g.adopt p s).node k).refs = (((g.takeRef s).addChild p s).node k).refs := by
    intro k
    by_cases hkp : k = p
    · rw [hkp, hparent, hparent', htake p hne.symm]
      exact ⟨⟨rfl, rfl, rfl⟩, rfl⟩
    · by_cases hks : k = s
      · rw [hks, node_adopt_kid ht hne hs, node_addChild_of_ne _ _ hne, Forest.takeRef, hself,
          node_update_self g _ hs]
        exact ⟨⟨rfl, rfl, rfl⟩, rfl⟩
      · rw [node_adopt_of_ne ht hne hkp hks, node_addChild_of_ne _ _ hkp, htake k hks]
        exact ⟨⟨rfl, rfl, rfl⟩, rfl⟩
  refine hchild.books ⟨⟨?_, fun k ↦ (hnode k).1.1, fun k ↦ (hnode k).1.2.1,
    fun k ↦ (hnode k).1.2.2⟩, fun k ↦ (hnode k).2⟩
  rw [size_adopt, size_addChild, hsame.size]

end Ledger

/-- A new leaf becomes a child. -/
theorem Ledger.adopt_push (h : g.Ledger owed) (hp : p < g.size) (hkids : n.kids = [])
    (hrefs : n.refs = 0) (hreleased : n.kidsReleased = false) (ht : n.target = none) :
    ((g.push n).2.adopt p g.size).Ledger owed ∧ ((g.push n).2.adopt p g.size).size = g.size + 1 ∧
      ∀ x < g.size, (((g.push n).2.adopt p g.size).node x).refs = (g.node x).refs := by
  have hpushed := h.push hkids hrefs hreleased fun t ht' ↦ absurd (ht.symm.trans ht') (by simp)
  have hsize : (g.push n).2.size = g.size + 1 := g.size_push n
  have ht' : ((g.push n).2.node g.size).target = none := by rw [node_push_self, ht]
  have hne := Nat.ne_of_gt hp
  refine ⟨hpushed.adopt (hsize ▸ Nat.lt_succ_of_lt hp) (hsize ▸ Nat.lt_succ_self _) ht' hne,
    by rw [size_adopt, hsize], fun x hx ↦ ?_⟩
  rw [refs_adopt ht' hne (Nat.ne_of_lt hx), node_push_of_lt g n hx]

/-- A new list of arguments becomes a child. -/
theorem Ledger.adopt_args (h : g.Ledger (kids.map g.owner ++ owed)) (hp : p < g.size)
    (hkids : ∀ c ∈ kids, c < g.size) :
    (((g.push { op := .args, width := 0 }).2.addKids g.size kids).adopt p g.size).Ledger owed ∧
      ∀ x < g.size, ((((g.push { op := .args, width := 0 }).2.addKids g.size kids).adopt p
        g.size).node x).refs = (g.node x).refs := by
  have hpushed := h.push (n := { op := .args, width := 0 }) rfl rfl rfl
    fun t ht ↦ absurd ht (by simp)
  have howner : ∀ c ∈ kids, g.owner c = (g.push { op := .args, width := 0 }).2.owner c :=
    fun c hc ↦ ((g.grows_push _).owner h.flat hpushed.flat (hkids c hc)).symm
  rw [List.map_congr_left howner] at hpushed
  have hsize : (g.push { op := .args, width := 0 }).2.size = g.size + 1 := g.size_push _
  have hself : g.size < (g.push { op := .args, width := 0 }).2.size := hsize ▸ Nat.lt_succ_self _
  have hkids' := hpushed.addKids hself fun c hc ↦ Nat.lt_trans (hkids c hc) hself
  have hne := Nat.ne_of_gt hp
  have ht : (((g.push { op := .args, width := 0 }).2.addKids g.size kids).node g.size).target
      = none := by
    obtain ⟨level, hlist⟩ := (g.push { op := .args, width := 0 }).2.node_addKids kids hself
    rw [hlist, node_push_self]
  have hsize' := (g.push { op := .args, width := 0 }).2.size_addKids g.size kids
  refine ⟨hkids'.adopt (by rw [hsize']; exact Nat.lt_trans hp hself) (by rwa [hsize']) ht hne,
    fun x hx ↦ ?_⟩
  rw [refs_adopt ht hne (Nat.ne_of_lt hx), refs_addKids, node_push_of_lt g _ hx]

end Forest

end TreeCover
