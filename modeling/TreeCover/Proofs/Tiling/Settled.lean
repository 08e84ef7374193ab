import TreeCover.Proofs.Forest.References
import TreeCover.Proofs.Tiling.Calls

/-!
# Children that are given up

A node is done once it has given up its children, or if it has none. A reduction that succeeds leaves its
node done, and all children of every node that gave up its children on the way: a child is a leaf of
the rule and is reduced itself, or belongs to the rule and gives up its own children.
-/

namespace TreeCover

open Ir Machine Work

variable {g f f' f'' : Forest} {fuel : Nat} {id k p c : NodeId} {nt goal : Nonterminal}
  {w w' : Workspace} {b : Bound} {S : NodeId → Prop} {leaves leaves' : List (NodeId × Nonterminal)}

namespace Forest

/-- A node that holds no children, because it has given them up or has none. -/
def Done (f : Forest) (k : NodeId) : Prop :=
  (f.node k).kidsReleased = true ∨ (f.node k).kids = []

/-! ## Giving up children -/

theorem kept_releaseRefs {β : Type} {h : Node → β} (hh : ∀ n refs, h { n with refs } = h n)
    (f : Forest) (cs : List NodeId) (k : NodeId) :
    h ((cs.foldl releaseRef f).node k) = h (f.node k) := by
  induction cs generalizing f with
  | nil => rfl
  | cons c cs ih =>
    exact (ih (f.releaseRef c)).trans (@update_keeps (fun n n' ↦ h n' = h n) (fun _ ↦ rfl) f
      (f.owner c) (fun n ↦ { n with refs := n.refs - 1 }) (fun n ↦ hh n _) k)

theorem kept_releaseKids {β : Type} {h : Node → β} (hrefs : ∀ n refs, h { n with refs } = h n)
    (hreleased : ∀ n, h { n with kidsReleased := true } = h n) (f : Forest) (id k : NodeId) :
    h ((f.releaseKids id).node k) = h (f.node k) := by
  rw [releaseKids]
  split
  next => rfl
  next =>
    exact (kept_releaseRefs hrefs _ _ k).trans
      (@update_keeps (fun n n' ↦ h n' = h n) (fun _ ↦ rfl) f id
        (fun n ↦ { n with kidsReleased := true }) hreleased k)

theorem computed_releaseKids (f : Forest) (id k : NodeId) :
    ((f.releaseKids id).node k).computed = (f.node k).computed :=
  kept_releaseKids (h := Node.computed) (fun _ _ ↦ rfl) (fun _ ↦ rfl) f id k

/-- Only the node itself gives up its children. -/
theorem released_releaseKids (f : Forest) (id k : NodeId) :
    ((f.releaseKids id).node k).kidsReleased = true ↔
      (f.node k).kidsReleased = true ∨ k = id ∧ id < f.size := by
  rw [releaseKids]
  split
  next h =>
    refine ⟨Or.inl, fun hk ↦ hk.elim (fun hk ↦ hk) ?_⟩
    rintro ⟨rfl, -⟩
    exact h
  next =>
    rw [kept_releaseRefs (h := Node.kidsReleased) (fun _ _ ↦ rfl)]
    by_cases hk : k = id ∧ id < f.size
    · obtain ⟨rfl, hlt⟩ := hk
      rw [node_update_self f _ hlt]
      simp [hlt]
    · rw [or_iff_left hk]
      rcases f.node_update_cases id k fun n ↦ { n with kidsReleased := true } with ⟨rfl, -⟩ | hnode
      · rw [node_update_of_le f _ (Nat.le_of_not_lt fun hlt ↦ hk ⟨rfl, hlt⟩)]
      · rw [hnode]

theorem kids_releaseKids (f : Forest) (id k : NodeId) :
    ((f.releaseKids id).node k).kids = (f.node k).kids :=
  (f.sameSkeleton_releaseKids id).kids k

theorem Done.of_released (h : f.Done k) (hskeleton : f.SameSkeleton f')
    (hreleased : (f.node k).kidsReleased = true → (f'.node k).kidsReleased = true) : f'.Done k :=
  h.imp hreleased (hskeleton.kids k).trans

theorem done_releaseKids (f : Forest) (id : NodeId) : (f.releaseKids id).Done id := by
  by_cases hid : id < f.size
  · exact Or.inl ((f.released_releaseKids id id).mpr (Or.inr ⟨rfl, hid⟩))
  · refine Or.inr ((f.kids_releaseKids id id).trans ?_)
    rw [node_of_le f (Nat.le_of_not_lt hid)]

/-! ## Leaves that are pending -/

/-- From `f` to `f'` nodes give up their children; those children are done, or they are among the
leaves that are still to be reduced. -/
structure Hands (leaves : List (NodeId × Nonterminal)) (f f' : Forest) : Prop where
  skeleton : f.SameSkeleton f'
  released : ∀ k, (f.node k).kidsReleased = true → (f'.node k).kidsReleased = true
  computed : ∀ k, (f'.node k).computed = (f.node k).computed
  kids : ∀ p, (f'.node p).kidsReleased = true → (f.node p).kidsReleased = true ∨
    ∀ c ∈ f.kidOwners p, f'.Done c ∨ ∃ goal, (c, goal) ∈ leaves

namespace Hands

theorem refl (f : Forest) (leaves : List (NodeId × Nonterminal)) : Hands leaves f f :=
  ⟨.refl f, fun _ h ↦ h, fun _ ↦ rfl, fun _ h ↦ Or.inl h⟩

theorem done (h : Hands leaves f f') (hk : f.Done k) : f'.Done k :=
  hk.of_released h.skeleton (h.released k)

theorem trans (h : Hands leaves f f') (h' : Hands leaves' f' f'') :
    Hands (leaves ++ leaves') f f'' where
  skeleton := h.skeleton.trans h'.skeleton
  released k hk := h'.released k (h.released k hk)
  computed k := (h'.computed k).trans (h.computed k)
  kids p hp := by
    rcases h'.kids p hp with hp | hkids
    · refine (h.kids p hp).imp_right fun hkids c hc ↦ (hkids c hc).imp h'.done ?_
      exact fun ⟨goal, hgoal⟩ ↦ ⟨goal, List.mem_append_left _ hgoal⟩
    · refine Or.inr fun c hc ↦ (hkids c (h.skeleton.kidOwners p ▸ hc)).imp_right ?_
      exact fun ⟨goal, hgoal⟩ ↦ ⟨goal, List.mem_append_right _ hgoal⟩

/-- Then another node gives up its children. -/
theorem releaseKids (h : Hands leaves f f')
    (hkids : ∀ c ∈ f.kidOwners id, f'.Done c ∨ ∃ goal, (c, goal) ∈ leaves) :
    Hands leaves f (f'.releaseKids id) := by
  have hskeleton := f'.sameSkeleton_releaseKids id
  have hreleased : ∀ k, (f'.node k).kidsReleased = true →
      ((f'.releaseKids id).node k).kidsReleased = true :=
    fun k hk ↦ (f'.released_releaseKids id k).mpr (Or.inl hk)
  have hdone : ∀ c, f'.Done c ∨ (∃ goal, (c, goal) ∈ leaves) →
      (f'.releaseKids id).Done c ∨ ∃ goal, (c, goal) ∈ leaves :=
    fun c ↦ Or.imp_left fun hc ↦ hc.of_released hskeleton (hreleased c)
  refine ⟨h.skeleton.trans hskeleton, fun k hk ↦ hreleased k (h.released k hk),
    fun k ↦ (f'.computed_releaseKids id k).trans (h.computed k), fun p hp ↦ ?_⟩
  rcases (f'.released_releaseKids id p).mp hp with hp | ⟨rfl, -⟩
  · exact (h.kids p hp).imp_right fun hkids c hc ↦ hdone c (hkids c hc)
  · exact Or.inr fun c hc ↦ hdone c (hkids c hc)

end Hands

end Forest

/-! ## Patterns -/

mutual

/-- A node that an inner pattern matches is done or a leaf. -/
theorem Pattern.takeLeaves_hands : ∀ (p : Pattern) (id : NodeId) (f : Forest), p.isInner = true →
    g.SameSkeleton f → p.Fits g id →
      Forest.Hands (p.takeLeaves id f).1 f (p.takeLeaves id f).2 ∧
        ((p.takeLeaves id f).2.Done id ∨ ∃ goal, (id, goal) ∈ (p.takeLeaves id f).1)
  | .nt goal, id, f, _, _, _ => by
    rw [Pattern.takeLeaves]
    exact ⟨.refl f _, Or.inr ⟨goal, List.mem_singleton_self _⟩⟩
  | .op (.inst o) kids, id, f, hinner, hskeleton, hfits => by
    rw [Pattern.isInner, Bool.and_eq_true] at hinner
    rw [Pattern.Fits] at hfits
    obtain ⟨hlength, hfit⟩ := hfits.2 (by simp)
    rw [← hskeleton.kids] at hlength
    rw [← hskeleton.kidOwners] at hfit
    obtain ⟨hhands, hkids⟩ := Pattern.takeKidLeaves_hands kids (f.kidOwners id) f hinner.2 hskeleton
      (by rw [Forest.kidOwners, List.length_map, hlength]) hfit
    rw [Pattern.takeLeaves]
    exact ⟨hhands.releaseKids hkids, Or.inl (Forest.done_releaseKids _ id)⟩
  | .op .imm _, _, _, hinner, _, _ | .op .arg _, _, _, hinner, _, _
  | .op .label _, _, _, hinner, _, _ | .op .dummy _, _, _, hinner, _, _
  | .op .args _, _, _, hinner, _, _ | .op .phiMove _, _, _, hinner, _, _
  | .op .inRegister _, _, _, hinner, _, _ | .variadic _ _, _, _, hinner, _, _ => by
    simp [Pattern.isInner] at hinner

theorem Pattern.takeKidLeaves_hands : ∀ (ps : List Pattern) (ids : List NodeId) (f : Forest),
    Pattern.areInner ps = true → g.SameSkeleton f → ids.length = ps.length →
      Pattern.FitKids g ps ids →
      Forest.Hands (Pattern.takeKidLeaves ps ids f).1 f (Pattern.takeKidLeaves ps ids f).2 ∧
        ∀ c ∈ ids, (Pattern.takeKidLeaves ps ids f).2.Done c ∨
          ∃ goal, (c, goal) ∈ (Pattern.takeKidLeaves ps ids f).1
  | [], [], f, _, _, _, _ => by
    simp only [Pattern.takeKidLeaves]
    exact ⟨.refl f _, fun c hc ↦ absurd hc List.not_mem_nil⟩
  | [], _ :: _, _, _, _, hlength, _ => absurd hlength (by simp)
  | _ :: _, [], _, _, _, hlength, _ => absurd hlength (by simp)
  | p :: ps, id :: ids, f, hinner, hskeleton, hlength, hfits => by
    rw [Pattern.areInner, Bool.and_eq_true] at hinner
    rw [Pattern.FitKids] at hfits
    obtain ⟨hhands, hid⟩ := Pattern.takeLeaves_hands p id f hinner.1 hskeleton hfits.1
    obtain ⟨hhands', hids⟩ := Pattern.takeKidLeaves_hands ps ids (p.takeLeaves id f).2 hinner.2
      (hskeleton.trans hhands.skeleton) (Nat.succ.inj hlength) hfits.2
    rw [Pattern.takeKidLeaves]
    refine ⟨hhands.trans hhands', List.forall_mem_cons.mpr ⟨hid.imp hhands'.done ?_, fun c hc ↦
      (hids c hc).imp_right ?_⟩⟩
    · exact fun ⟨goal, hgoal⟩ ↦ ⟨goal, List.mem_append_left _ hgoal⟩
    · exact fun ⟨goal, hgoal⟩ ↦ ⟨goal, List.mem_append_right _ hgoal⟩

end

/-- **Leaves.** Once the leaves of a rule have been taken, its node is done or is the leaf itself. -/
theorem Rule.takeLeaves_hands {r : Rule} (hskeleton : g.SameSkeleton f) (hmatches : r.Matches g id)
    (hregister : (g.node id).head? = some .inRegister → f.Done id) :
    Forest.Hands (r.pattern.takeLeaves id f).1 f (r.pattern.takeLeaves id f).2 ∧
      ((r.pattern.takeLeaves id f).2.Done id ∨ ∃ goal, (id, goal) ∈ (r.pattern.takeLeaves id f).1) := by
  have hregular := Grammar.isRegular r hmatches.1
  have hfits := hmatches.2
  cases hp : r.pattern with
  | nt goal =>
    rw [Pattern.takeLeaves]
    exact ⟨.refl f _, Or.inr ⟨goal, List.mem_singleton_self _⟩⟩
  | op h ps =>
    rw [hp, Pattern.isRegular, Bool.and_eq_true] at hregular
    rw [hp, Pattern.Fits] at hfits
    rw [Pattern.takeLeaves]
    refine ⟨?_, Or.inl (Forest.done_releaseKids _ id)⟩
    by_cases hreg : h = .inRegister
    · -- what is in a register gave up its children before
      obtain rfl : ps = [] := by simpa [hreg] using hregular.1
      have hdone := hregister (hreg ▸ hfits.1)
      simp only [Pattern.takeKidLeaves]
      rcases hdone with hreleased | hnil
      · rw [Forest.releaseKids, if_pos hreleased]
        exact .refl f _
      · refine (Forest.Hands.refl f _).releaseKids fun c hc ↦ ?_
        rw [Forest.kidOwners, hnil] at hc
        exact absurd hc List.not_mem_nil
    · obtain ⟨hlength, hfit⟩ := hfits.2 hreg
      rw [← hskeleton.kids] at hlength
      rw [← hskeleton.kidOwners] at hfit
      obtain ⟨hhands, hkids⟩ := Pattern.takeKidLeaves_hands ps (f.kidOwners id) f hregular.2 hskeleton
        (by rw [Forest.kidOwners, List.length_map, hlength]) hfit
      exact hhands.releaseKids hkids
  | variadic h goal =>
    rw [Pattern.takeLeaves]
    exact ⟨(Forest.Hands.refl f _).releaseKids fun c hc ↦ Or.inr ⟨goal, List.mem_map_of_mem hc⟩,
      Or.inl (Forest.done_releaseKids f id)⟩

/-! ## Reductions -/

namespace Forest

/-- From `f` to `f'` nodes give up their children and are computed; what they gave up is done, and so
is what was computed. -/
structure Settles (f f' : Forest) : Prop where
  skeleton : f.SameSkeleton f'
  released : ∀ k, (f.node k).kidsReleased = true → (f'.node k).kidsReleased = true
  keeps : ∀ k, (f.node k).computed = true → (f'.node k).computed = true
  computed : ∀ k, (f'.node k).computed = true → (f.node k).computed = true ∨ f'.Done k
  kids : ∀ p, (f'.node p).kidsReleased = true → (f.node p).kidsReleased = true ∨
    ∀ c ∈ f.kidOwners p, f'.Done c

namespace Settles

theorem refl (f : Forest) : Settles f f :=
  ⟨.refl f, fun _ h ↦ h, fun _ h ↦ h, fun _ h ↦ Or.inl h, fun _ h ↦ Or.inl h⟩

theorem done (h : Settles f f') (hk : f.Done k) : f'.Done k :=
  hk.of_released h.skeleton (h.released k)

theorem trans (h : Settles f f') (h' : Settles f' f'') : Settles f f'' where
  skeleton := h.skeleton.trans h'.skeleton
  released k hk := h'.released k (h.released k hk)
  keeps k hk := h'.keeps k (h.keeps k hk)
  computed k hk := (h'.computed k hk).elim (fun hk ↦ (h.computed k hk).imp_right h'.done) Or.inr
  kids p hp := by
    rcases h'.kids p hp with hp | hkids
    · exact (h.kids p hp).imp_right fun hkids c hc ↦ h'.done (hkids c hc)
    · exact Or.inr fun c hc ↦ hkids c (h.skeleton.kidOwners p ▸ hc)

/-- If what is computed was done before, it is done afterwards. -/
theorem done_of_computed (h : Settles f f') (hf : ∀ k, (f.node k).computed = true → f.Done k)
    (hk : (f'.node k).computed = true) : f'.Done k :=
  (h.computed k hk).elim (fun hk ↦ h.done (hf k hk)) fun hk ↦ hk

/-- An update that leaves children alone. -/
theorem update (f : Forest) (id : NodeId) {h : Node → Node}
    (hskeleton : ∀ n, (h n).skeleton = n.skeleton)
    (hreleased : ∀ n, (h n).kidsReleased = n.kidsReleased)
    (hcomputed : ∀ n, (h n).computed = n.computed ∨ (h n).computed = true ∧ f.Done id) :
    Settles f (f.update id h) := by
  have hkept := @update_keeps (fun n n' ↦ n'.kidsReleased = n.kidsReleased) (fun _ ↦ rfl) f id h
    hreleased
  have hsame := f.sameSkeleton_update id hskeleton
  refine ⟨hsame, fun k hk ↦ (hkept k).trans hk, fun k hk ↦ ?_, fun k hk ↦ ?_,
    fun p hp ↦ Or.inl ((hkept p).symm.trans hp)⟩
  · rcases f.node_update_cases id k h with ⟨rfl, hnode⟩ | hnode
    · rw [hnode]
      exact (hcomputed _).elim (fun heq ↦ heq.trans hk) And.left
    · rwa [hnode]
  · rcases f.node_update_cases id k h with ⟨rfl, hnode⟩ | hnode
    · rw [hnode] at hk
      rcases hcomputed (f.node k) with heq | ⟨-, hdone⟩
      · exact Or.inl (heq.symm.trans hk)
      · exact Or.inr (hdone.of_released hsame fun hr ↦ (hkept k).trans hr)
    · exact Or.inl (hnode ▸ hk)

theorem roles (h : f.SameButRoles f') : Settles f f' := by
  have hkept : ∀ k, (f'.node k).kidsReleased = (f.node k).kidsReleased ∧
      (f'.node k).computed = (f.node k).computed := by
    intro k
    obtain ⟨roles, hk⟩ := h.2 k
    rw [hk]
    exact ⟨rfl, rfl⟩
  exact ⟨sameSkeleton_roles h, fun k hk ↦ (hkept k).1.trans hk, fun k hk ↦ (hkept k).2.trans hk,
    fun k hk ↦ Or.inl ((hkept k).2.symm.trans hk), fun p hp ↦ Or.inl ((hkept p).1.symm.trans hp)⟩

end Settles

/-- Once the leaves that were pending are done, nothing is pending. -/
theorem Hands.settles (h : Hands leaves f f') (h' : Settles f' f'')
    (hleaves : ∀ leaf ∈ leaves, f''.Done leaf.1) : Settles f f'' where
  skeleton := h.skeleton.trans h'.skeleton
  released k hk := h'.released k (h.released k hk)
  keeps k hk := h'.keeps k ((h.computed k).trans hk)
  computed k hk := (h'.computed k hk).imp_left (h.computed k).symm.trans
  kids p hp := by
    rcases h'.kids p hp with hp | hkids
    · refine (h.kids p hp).imp_right fun hkids c hc ↦ (hkids c hc).elim h'.done ?_
      exact fun ⟨goal, hgoal⟩ ↦ hleaves _ hgoal
    · exact Or.inr fun c hc ↦ hkids c (h.skeleton.kidOwners p ▸ hc)

end Forest

theorem keptByReduction_true (hflat : g.Flat) :
    KeptByReduction g (fun k ↦ g.owner k = k) (fun _ _ ↦ True) ∧
      g.ClosedUnderKids fun k ↦ g.owner k = k := by
  refine ⟨⟨fun _ ↦ trivial, fun _ _ _ _ _ ↦ trivial, fun _ _ _ _ ↦ trivial, fun _ _ _ ↦ trivial,
    fun _ _ _ _ _ _ ↦ trivial⟩, fun p _ c hc ↦ ?_⟩
  obtain ⟨j, -, rfl⟩ := List.mem_map.mp hc
  exact hflat.owner_owner j

/-- What is known of a forest in which a reduction starts along labels that were made for `g`. -/
structure Forest.Ordered (g f : Forest) : Prop where
  flat : g.Flat
  skeleton : g.SameSkeleton f
  keeps : ∀ k, (g.node k).computed = true → (f.node k).computed = true
  computed : ∀ k, (f.node k).computed = true → f.Done k
  phis : ∀ k, (g.node k).op = .phiDef → (g.node k).kids = []

theorem Forest.Ordered.settles (h : g.Ordered f) (h' : f.Settles f') : g.Ordered f' where
  flat := h.flat
  skeleton := h.skeleton.trans h'.skeleton
  keeps k hk := h'.keeps k (h.keeps k hk)
  computed _ hk := h'.done_of_computed h.computed hk
  phis := h.phis

theorem Forest.Ordered.hands (h : g.Ordered f) (h' : f.Hands leaves f') : g.Ordered f' where
  flat := h.flat
  skeleton := h.skeleton.trans h'.skeleton
  keeps k hk := (h'.computed k).trans (h.keeps k hk)
  computed k hk := h'.done (h.computed k ((h'.computed k).symm.trans hk))
  phis := h.phis

/-- What is in a register is done. -/
theorem Forest.Ordered.register (h : g.Ordered f) (hid : (g.node id).head? = some .inRegister) :
    f.Done id := by
  cases hc : (g.node id).computed with
  | true => exact h.computed id (h.keeps id hc)
  | false =>
    refine Or.inr ((h.skeleton.kids id).trans (h.phis id ?_))
    rw [Node.head?, if_neg (by rw [hc]; exact Bool.false_ne_true)] at hid
    split at hid <;> simp_all

/-- Leaves are reduced one after the other, and what is done stays so. -/
theorem reduceLeaves_settles {kids : List Bound}
    (ih : ∀ {id nt w b w'}, w.labels.Sound g → g.Ordered w.forest →
      reduceFrom fuel id nt w = .ok b w' →
      w.forest.Settles w'.forest ∧ w'.forest.Done (g.owner id))
    (howners : ∀ leaf ∈ leaves, g.owner leaf.1 = leaf.1) (hlabels : w.labels.Sound g)
    (hw : g.Ordered w.forest) (h : leaves.mapM (reduceLeaf fuel) w = .ok kids w') :
    w.forest.Settles w'.forest ∧ ∀ leaf ∈ leaves, w'.forest.Done leaf.1 := by
  induction leaves generalizing w kids with
  | nil =>
    obtain ⟨-, rfl⟩ := mapM_nil_eq_ok.mp h
    exact ⟨.refl _, fun leaf hleaf ↦ absurd hleaf List.not_mem_nil⟩
  | cons leaf leaves ihl =>
    obtain ⟨b, w₁, bs, hleaf, hrest, rfl⟩ := mapM_cons_eq_ok.mp h
    obtain ⟨howner, howners⟩ := List.forall_mem_cons.mp howners
    obtain ⟨hkept, hclosed⟩ := keptByReduction_true hw.flat
    obtain ⟨hsettles, hdone⟩ := ih hlabels hw hleaf
    obtain ⟨-, hsame, -⟩ := hkept.reduceFrom hclosed (fun _ hk ↦ hk)
      ⟨hlabels, hw.skeleton, hw.flat.owner_owner leaf.1⟩ hleaf
    obtain ⟨hsettles', hdones⟩ := ihl howners (hsame.symm ▸ hlabels) (hw.settles hsettles) hrest
    rw [howner] at hdone
    exact ⟨hsettles.trans hsettles', List.forall_mem_cons.mpr ⟨hsettles'.done hdone, hdones⟩⟩

/-- **Reductions.** A reduction that succeeds leaves its node done, and all that was given up on the
way. -/
theorem reduceFrom_settles (hlabels : w.labels.Sound g) (hw : g.Ordered w.forest)
    (h : reduceFrom fuel id nt w = .ok b w') :
    w.forest.Settles w'.forest ∧ w'.forest.Done (g.owner id) := by
  induction fuel generalizing id nt w b w' with
  | zero => exact absurd h failCovering_ne_ok
  | succ fuel ih =>
    obtain ⟨-, hclosed⟩ := keptByReduction_true hw.flat
    rcases reduceFrom_owner_cases h with
      ⟨hreuse, rfl⟩ | ⟨r, kids, w₁, w₂, -, hrule, hkids, happly, hmark⟩
    · rw [hw.skeleton.owner] at hreuse
      refine ⟨.refl _, hw.computed _ ?_⟩
      by_contra hnot
      rw [Node.reuse?_of_not_computed (by simpa using hnot)] at hreuse
      exact absurd hreuse (by simp)
    · obtain ⟨hmatches, -⟩ := hlabels.rule hrule
      rw [hw.skeleton.owner] at hmatches hkids happly hmark
      rw [Workspace.took] at hkids
      obtain ⟨hhands, hself⟩ := r.takeLeaves_hands hw.skeleton hmatches hw.register
      have hmem := r.pattern.takeLeaves_mem hclosed (g.owner id) w.forest hw.skeleton
        (hw.flat.owner_owner id)
      generalize r.pattern.takeLeaves (g.owner id) w.forest = taken at *
      obtain ⟨hsettles, hdones⟩ := reduceLeaves_settles ih
        (w := { w with forest := taken.2, session := w.session.report _ }) hmem hlabels
        (hw.hands hhands) hkids
      have hroles := Forest.Settles.roles (sameButRoles_applyRule happly)
      have hall := (hhands.settles hsettles hdones).trans hroles
      have hdone : w₂.forest.Done (g.owner id) := by
        rcases hself with hself | ⟨goal, hself⟩
        · exact hroles.done (hsettles.done hself)
        · exact hroles.done (hdones _ hself)
      rcases hmark with ⟨v, _, -, -, -, hmark⟩ | ⟨-, rfl⟩
      · obtain rfl := modify_eq_ok.mp hmark
        have hupdate := Forest.Settles.update w₂.forest (g.owner id)
          (h := fun n ↦ { n with
            computed := true, slot := .vreg v, roles := { n.roles with register := true } })
          (fun _ ↦ rfl) (fun _ ↦ rfl) fun _ ↦ Or.inr ⟨rfl, hdone⟩
        exact ⟨hall.trans hupdate, hupdate.done hdone⟩
      · exact ⟨hall, hdone⟩

end TreeCover
