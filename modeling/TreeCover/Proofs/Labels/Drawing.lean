import TreeCover.Proofs.Forest.Steps

/-!
# The labels of blocks

A block that is named anywhere gets a label when its name is met first, and keeps it. While a forest
is built, every label that a block has was drawn from the session since the function began, and no
two blocks have the same one. Main statement: `labelling_buildForest`.
-/

namespace TreeCover

open Ir Machine Work

variable {f : Func} {w w' : Workspace} {base : LabelId} {b b' : BlockId} {l : LabelId} {k : NodeId}

/-! ## Slots -/

/-- The nodes of `g` keep their slots in `g'`. -/
structure Forest.KeepsSlots (g g' : Forest) : Prop where
  size : g.size ≤ g'.size
  slot : ∀ k < g.size, (g'.node k).slot = (g.node k).slot

namespace Forest.KeepsSlots

variable {g g' g'' : Forest}

theorem refl (g : Forest) : KeepsSlots g g := ⟨Nat.le_refl _, fun _ _ ↦ rfl⟩

theorem push (g : Forest) (n : Node) : KeepsSlots g (g.push n).2 :=
  ⟨by rw [size_push]; exact Nat.le_succ _, fun k hk ↦ by rw [g.node_push_of_lt n hk]⟩

theorem of_links (h : Links g g') : KeepsSlots g g' :=
  ⟨Nat.le_of_eq h.size.symm, fun k _ ↦ h.slot k⟩

theorem markEscaping (g : Forest) (id : NodeId) : KeepsSlots g (g.markEscaping id) :=
  ⟨Nat.le_of_eq (size_update ..).symm, fun k _ ↦
    update_keeps (R := fun n n' ↦ n'.slot = n.slot) (fun _ ↦ rfl) g (g.owner id)
      (g := fun n ↦ { n with escapes := true }) (fun _ ↦ rfl) k⟩

end Forest.KeepsSlots

/-! ## Labels and their blocks -/

/-- Blocks have different labels, drawn from `base` on. -/
structure Workspace.Labelling (base : LabelId) (w : Workspace) : Prop where
  start : base ≤ w.session.nextLabel
  node : ∀ b k, w.defs.labels.lookup b = some k → k < w.forest.size
  drawn : ∀ b l, blockLabel? w b = some l → base ≤ l ∧ l < w.session.nextLabel
  distinct : ∀ b b' l, blockLabel? w b = some l → blockLabel? w b' = some l → b = b'

theorem blockLabel?_eq_some :
    blockLabel? w b = some l ↔
      ∃ k, w.defs.labels.lookup b = some k ∧ (w.forest.node k).slot = .label l := by
  rw [blockLabel?, Option.bind_eq_some_iff]
  refine exists_congr fun k ↦ and_congr_right fun _ ↦ ?_
  constructor
  · intro h
    split at h
    next hslot =>
      rw [hslot, Option.some.inj h]
    next => exact absurd h (by simp)
  · intro h
    rw [h]

namespace Workspace.Labelling

/-- Work that names no block and draws no label. -/
theorem same (h : w.Labelling base) (hforest : w.forest.KeepsSlots w'.forest)
    (hdefs : w'.defs.labels = w.defs.labels)
    (hnext : w'.session.nextLabel = w.session.nextLabel) : w'.Labelling base := by
  have hlabel : ∀ b, blockLabel? w' b = blockLabel? w b := by
    intro b
    rw [blockLabel?, blockLabel?, hdefs]
    cases hk : w.defs.labels.lookup b with
    | none => rfl
    | some k => rw [Option.bind_some, Option.bind_some, hforest.slot k (h.node b k hk)]
  refine ⟨hnext ▸ h.start, fun b k hk ↦ ?_, fun b l hl ↦ ?_, fun b b' l hl hl' ↦ ?_⟩
  · exact Nat.lt_of_lt_of_le (h.node b k (hdefs ▸ hk)) hforest.size
  · rw [hnext]
    exact h.drawn b l (hlabel b ▸ hl)
  · exact h.distinct b b' l (hlabel b ▸ hl) (hlabel b' ▸ hl')

/-- The next label goes to a block that has none. -/
theorem name (h : w.Labelling base) (hnone : w.defs.labels.lookup b = none)
    (hforest : w'.forest = (w.forest.push
      { op := .label, width := 0, slot := .label w.session.nextLabel }).2)
    (hdefs : w'.defs = { w.defs with labels := (b, w.forest.size) :: w.defs.labels })
    (hnext : w'.session.nextLabel = w.session.nextLabel + 1) : w'.Labelling base := by
  have hlookup : ∀ b', w'.defs.labels.lookup b' =
      if b' = b then some w.forest.size else w.defs.labels.lookup b' := by
    intro b'
    rw [hdefs, List.lookup_cons]
    by_cases heq : b' = b
    · simp [heq]
    · simp [heq, beq_false_of_ne heq]
  have hself : blockLabel? w' b = some w.session.nextLabel := by
    rw [blockLabel?_eq_some, hlookup, if_pos rfl, hforest]
    exact ⟨_, rfl, by rw [Forest.node_push_self]⟩
  have hother : ∀ b', b' ≠ b → blockLabel? w' b' = blockLabel? w b' := by
    intro b' hne
    rw [blockLabel?, blockLabel?, hlookup, if_neg hne, hforest]
    cases hk : w.defs.labels.lookup b' with
    | none => rfl
    | some k => rw [Option.bind_some, Option.bind_some, w.forest.node_push_of_lt _ (h.node b' k hk)]
  refine ⟨hnext ▸ Nat.le_succ_of_le h.start, fun b' k hk ↦ ?_, fun b' l hl ↦ ?_,
    fun b₁ b₂ l h₁ h₂ ↦ ?_⟩
  · rw [hforest, Forest.size_push]
    rw [hlookup] at hk
    split at hk
    · exact Option.some.inj hk ▸ Nat.lt_succ_self _
    · exact Nat.lt_succ_of_lt (h.node b' k hk)
  · rw [hnext]
    by_cases heq : b' = b
    · subst heq
      obtain rfl := Option.some.inj (hself.symm.trans hl)
      exact ⟨h.start, Nat.lt_succ_self _⟩
    · obtain ⟨hlow, hhigh⟩ := h.drawn b' l (hother b' heq ▸ hl)
      exact ⟨hlow, Nat.lt_succ_of_lt hhigh⟩
  · -- the label of `b` is above all others
    have hnew : ∀ b', b' ≠ b → blockLabel? w' b' ≠ some w.session.nextLabel := fun b' hne hl ↦
      Nat.lt_irrefl _ (h.drawn b' _ (hother b' hne ▸ hl)).2
    by_cases h₁' : b₁ = b
    · subst h₁'
      obtain rfl := Option.some.inj (hself.symm.trans h₁)
      by_contra hne
      exact hnew b₂ (Ne.symm hne) h₂
    · by_cases h₂' : b₂ = b
      · subst h₂'
        obtain rfl := Option.some.inj (hself.symm.trans h₂)
        exact absurd h₁ (hnew b₁ h₁')
      · exact h.distinct b₁ b₂ l (hother b₁ h₁' ▸ h₁) (hother b₂ h₂' ▸ h₂)

end Workspace.Labelling

/-! ## Building -/

/-- A block that is met for the first time gets the next label, and nothing else touches labels. -/
theorem keptByBuilding_labelling (f : Func) (base : LabelId) :
    KeptByBuilding f (Workspace.Labelling base) where
  report _ _ h := h.same (.refl _) rfl rfl
  code _ _ h := h.same (.refl _) rfl rfl
  values _ _ h := h.same (.refl _) rfl rfl
  phis _ _ h := h.same (.refl _) rfl rfl
  label _ _ hnone h := h.name hnone rfl rfl rfl
  push w n _ h := h.same (.push w.forest n) rfl rfl
  links _ _ hlinks h := h.same (.of_links hlinks) rfl rfl
  mark w k _ _ _ h := h.same (.markEscaping w.forest k) rfl rfl

/-- **Labels of blocks.** When the forest of a function has been built, the blocks that are named
have different labels, drawn since the function began. -/
theorem labelling_buildForest {s : Session} {trees : List (List NodeId)}
    (h : buildForest f (.start f s) = .ok trees w) : w.Labelling s.nextLabel := by
  refine (keptByBuilding_labelling f _).buildForest (.start f s) trees w ⟨Nat.le_refl _, fun b k hk ↦ ?_, fun b l hl ↦ ?_,
    fun b b' l hl _ ↦ ?_⟩ h
  · exact absurd hk (by simp [Workspace.start])
  · exact absurd hl (by simp [blockLabel?, Workspace.start])
  · exact absurd hl (by simp [blockLabel?, Workspace.start])

end TreeCover
