import TreeCover.Proofs.Forest.Skeleton

/-!
# Progress of a forest

Selection changes what a forest knows about its values in three ways: it marks nodes as computed,
it takes back references to nodes that were emitted for their consumers, and it updates what is only
there to be looked at. `Progress` bounds the first two by the nodes that may be marked, the registers
they may be in, and the nodes whose references may be taken back.
-/

namespace TreeCover

open Machine

variable {f f' f'' : Forest} {k id : NodeId} {v : VReg} {mine mine' touched touched' : NodeId → Prop}
  {held held' : NodeId → VReg → Prop}

namespace Forest

/-- From `f` to `f'` nodes of `mine` become computed, in registers that they may be held in, and
nodes of `touched` lose references. -/
structure Progress (mine touched : NodeId → Prop) (held : NodeId → VReg → Prop)
    (f f' : Forest) : Prop where
  skeleton : SameSkeleton f f'
  keeps : ∀ k, (f.node k).computed = true →
    (f'.node k).computed = true ∧ (f'.node k).slot = (f.node k).slot
  marks : ∀ k, (f.node k).computed = false → (f'.node k).computed = true →
    mine k ∧ ∃ v, (f'.node k).slot = .vreg v ∧ held k v
  slots : ∀ k, (f'.node k).computed = false → (f'.node k).slot = (f.node k).slot
  refs : ∀ k, ¬ touched k → (f'.node k).refs = (f.node k).refs
  refs_le : ∀ k, (f'.node k).refs ≤ (f.node k).refs

namespace Progress

theorem refl (f : Forest) : Progress mine touched held f f where
  skeleton := .refl f
  keeps _ h := ⟨h, rfl⟩
  marks _ h h' := absurd (h.symm.trans h') Bool.false_ne_true
  slots _ _ := rfl
  refs _ _ := rfl
  refs_le _ := Nat.le_refl _

theorem not_computed (h : Progress mine touched held f f') (hk : (f'.node k).computed = false) :
    (f.node k).computed = false := by
  cases hc : (f.node k).computed with
  | false => rfl
  | true => exact absurd (hk.symm.trans (h.keeps k hc).1) Bool.false_ne_true

theorem trans (h : Progress mine touched held f f') (h' : Progress mine touched held f' f'') :
    Progress mine touched held f f'' where
  skeleton := h.skeleton.trans h'.skeleton
  keeps k hk :=
    have hk' := h.keeps k hk
    ⟨(h'.keeps k hk'.1).1, (h'.keeps k hk'.1).2.trans hk'.2⟩
  marks k hk hk'' := by
    cases hk' : (f'.node k).computed with
    | false => exact h'.marks k hk' hk''
    | true =>
      obtain ⟨hmine, v, hslot, hheld⟩ := h.marks k hk hk'
      exact ⟨hmine, v, (h'.keeps k hk').2.trans hslot, hheld⟩
  slots k hk := (h'.slots k hk).trans (h.slots k (h'.not_computed hk))
  refs k hk := (h'.refs k hk).trans (h.refs k hk)
  refs_le k := Nat.le_trans (h'.refs_le k) (h.refs_le k)

/-- Weaker bounds, where a new mark may be used to show that its register may be held. -/
theorem imp (h : Progress mine touched held f f') (hmine : ∀ k, mine k → mine' k)
    (htouched : ∀ k, touched k → touched' k)
    (hheld : ∀ k v, mine k → (f'.node k).computed = true → (f'.node k).slot = .vreg v →
      held k v → held' k v) : Progress mine' touched' held' f f' where
  skeleton := h.skeleton
  keeps := h.keeps
  marks k hk hk' :=
    have ⟨hm, v, hslot, hv⟩ := h.marks k hk hk'
    ⟨hmine k hm, v, hslot, hheld k v hm hk' hslot hv⟩
  slots := h.slots
  refs k hk := h.refs k fun ht ↦ hk (htouched k ht)
  refs_le := h.refs_le

theorem mono (h : Progress mine touched held f f') (hmine : ∀ k, mine k → mine' k)
    (htouched : ∀ k, touched k → touched' k) (hheld : ∀ k v, held k v → held' k v) :
    Progress mine' touched' held' f f' :=
  h.imp hmine htouched fun k v _ _ _ ↦ hheld k v

end Progress

/-! ## Steps of progress -/

/-- An update that leaves the value of its node alone. -/
theorem progress_update (f : Forest) (id : NodeId) {g : Node → Node}
    (hskeleton : ∀ n, (g n).skeleton = n.skeleton)
    (hvalue : ∀ n, (g n).computed = n.computed ∧ (g n).slot = n.slot)
    (hrefs : ∀ n, (g n).refs ≤ n.refs) (htouched : touched id ∨ ∀ n, (g n).refs = n.refs) :
    Progress mine touched held f (f.update id g) := by
  have hsame := @update_keeps (fun n n' ↦ n'.computed = n.computed ∧ n'.slot = n.slot)
    (fun _ ↦ ⟨rfl, rfl⟩) f id g hvalue
  refine ⟨sameSkeleton_update f id hskeleton, fun k hk ↦ ⟨(hsame k).1.trans hk, (hsame k).2⟩,
    fun k hk hk' ↦ ?_, fun k _ ↦ (hsame k).2, fun k hk ↦ ?_, ?_⟩
  · rw [(hsame k).1, hk] at hk'
    exact absurd hk' Bool.false_ne_true
  · rcases f.node_update_cases id k g with ⟨rfl, hnode⟩ | hnode
    · rw [hnode, htouched.resolve_left hk]
    · rw [hnode]
  · exact @update_keeps (fun n n' ↦ n'.refs ≤ n.refs) (fun _ ↦ Nat.le_refl _) f id g hrefs

/-- Steps of progress one after the other. -/
theorem progress_foldl {ι : Type} {g : Forest → ι → Forest} {xs : List ι}
    (hg : ∀ x ∈ xs, ∀ f', SameSkeleton f f' → Progress mine touched held f' (g f' x)) :
    Progress mine touched held f (xs.foldl g f) := by
  suffices h : ∀ f', Progress mine touched held f f' →
      Progress mine touched held f (xs.foldl g f') from h f (.refl f)
  induction xs with
  | nil => exact fun f' hf' ↦ hf'
  | cons x xs ih =>
    obtain ⟨hx, hxs⟩ := List.forall_mem_cons.mp hg
    exact fun f' hf' ↦ ih hxs _ (hf'.trans (hx f' hf'.skeleton))

theorem progress_releaseRef (f : Forest) (htouched : touched (f.owner id)) :
    Progress mine touched held f (f.releaseRef id) :=
  f.progress_update _ (fun _ ↦ rfl) (fun _ ↦ ⟨rfl, rfl⟩) (fun _ ↦ Nat.sub_le _ _)
    (Or.inl htouched)

theorem progress_releaseKids (f : Forest) (htouched : ∀ c ∈ f.kidOwners id, touched c) :
    Progress mine touched held f (f.releaseKids id) := by
  rw [releaseKids]
  split
  next => exact .refl f
  next =>
    have hflag : Progress mine touched held f
        (f.update id fun n ↦ { n with kidsReleased := true }) :=
      f.progress_update id (fun _ ↦ rfl) (fun _ ↦ ⟨rfl, rfl⟩) (fun _ ↦ Nat.le_refl _)
        (Or.inr fun _ ↦ rfl)
    refine hflag.trans (progress_foldl fun c hc f' hf' ↦ f'.progress_releaseRef ?_)
    rw [hf'.owner, hflag.skeleton.owner]
    exact htouched _ (List.mem_map_of_mem hc)

/-- Bringing heights up to date changes no value. -/
theorem progress_refreshLevel (f : Forest) (id : NodeId) :
    Progress mine touched held f (f.refreshLevel id).2 :=
  progress_foldl fun _ _ f' _ ↦ f'.progress_update _ (fun _ ↦ rfl) (fun _ ↦ ⟨rfl, rfl⟩)
    (fun _ ↦ Nat.le_refl _) (Or.inr fun _ ↦ rfl)

/-- An update that marks its node as computed, after progress from where it was not. -/
theorem Progress.mark (h : Progress mine touched held f f') {g : Node → Node}
    (hskeleton : ∀ n, (g n).skeleton = n.skeleton)
    (hvalue : ∀ n, (g n).computed = true ∧ (g n).slot = .vreg v) (hrefs : ∀ n, (g n).refs = n.refs)
    (hnew : (f.node id).computed = false) (hmine : mine id) (hheld : held id v) :
    Progress mine touched held f (f'.update id g) where
  skeleton := h.skeleton.trans (f'.sameSkeleton_update id hskeleton)
  keeps k hk := by
    have hne : k ≠ id := by
      rintro rfl
      exact absurd (hnew.symm.trans hk) Bool.false_ne_true
    rw [node_update_of_ne f' _ hne]
    exact h.keeps k hk
  marks k hk hk' := by
    rcases f'.node_update_cases id k g with ⟨rfl, hnode⟩ | hnode
    · rw [hnode]
      exact ⟨hmine, v, (hvalue _).2, hheld⟩
    · rw [hnode] at hk' ⊢
      exact h.marks k hk hk'
  slots k hk := by
    rcases f'.node_update_cases id k g with ⟨rfl, hnode⟩ | hnode
    · rw [hnode, (hvalue _).1] at hk
      exact absurd hk.symm Bool.false_ne_true
    · rw [hnode] at hk ⊢
      exact h.slots k hk
  refs k hk :=
    (@update_keeps (fun n n' ↦ n'.refs = n.refs) (fun _ ↦ rfl) f' id g hrefs k).trans (h.refs k hk)
  refs_le k := Nat.le_trans (Nat.le_of_eq
    (@update_keeps (fun n n' ↦ n'.refs = n.refs) (fun _ ↦ rfl) f' id g hrefs k)) (h.refs_le k)

end Forest

end TreeCover
