import TreeCover.Proofs.Tiling.Leaves

/-!
# Steps of a reduction and of a visit

A reduction that succeeds found its result in the node, or followed a rule that labels the node. The
labels of some nodes leave no choice: a node without a value is reduced to a statement only, and a
list of arguments to arguments only.

The visit of a root that succeeds does nothing, if the root is an alias or was emitted before; else its
height is brought up to date, and either it is left to its consumers, or its tree is labeled and
reduced.
-/

namespace TreeCover

open Ir Machine Work

variable {f₁ : Forest} {mine touched : NodeId → Prop} {held : NodeId → VReg → Prop} {fuel : Nat}
  {id : NodeId} {nt t : Nonterminal} {b : Bound} {w w' : Workspace}

/-! ## One step -/

theorem failCovering_ne_ok {α : Type} {a : α} : (failCovering id : Work α) w ≠ .ok a w' := by
  intro h
  simp only [failCovering, bind_eq_ok, throw_ne_ok, and_false, exists_false] at h

/-- The work of a node on its leaves. -/
def reduceLeaf (fuel : Nat) (leaf : NodeId × Nonterminal) : Work Bound :=
  reduceFrom fuel leaf.1 leaf.2

/-- The state in which the leaves of a rule have been taken. -/
def Workspace.took (w : Workspace) (r : Rule) (id : NodeId) (nt : Nonterminal) : Workspace :=
  { w with
    forest := (r.pattern.takeLeaves id w.forest).2
    session := w.session.report (.reduced w.code.name id nt r.name) }

/-- What a reduction did that succeeded: it found the result in the owner of the node, or it followed
the rule of the owner's label and then marked the owner if the rule was for a register. -/
theorem reduceFrom_owner_cases (h : reduceFrom (fuel + 1) id nt w = .ok b w') :
    ((w.forest.node (w.forest.owner id)).reuse? nt = some b ∧ w' = w) ∨
      ∃ r kids w₁ w₂, (w.forest.node (w.forest.owner id)).reuse? nt = none ∧
        w.labels.rule? (w.forest.owner id) nt = some r ∧
        (r.pattern.takeLeaves (w.forest.owner id) w.forest).1.mapM (reduceLeaf fuel)
          (w.took r (w.forest.owner id) nt) = .ok kids w₁ ∧
        applyRule r (w.forest.owner id) kids w₁ = .ok b w₂ ∧
        ((∃ v o, nt = .reg ∧ b = .reg v ∧ (w₂.forest.node (w.forest.owner id)).op = .inst o ∧
            markComputed (w.forest.owner id) v w₂ = .ok () w') ∨
          (∀ v o, nt = .reg → b = .reg v →
            (w₂.forest.node (w.forest.owner id)).op ≠ .inst o) ∧ w' = w₂) := by
  rw [reduceFrom] at h
  simp only [node, bind_eq_ok, get_eq_ok, pure_eq_ok] at h
  obtain ⟨_, _, ⟨rfl, rfl⟩, _, _, ⟨_, _, ⟨rfl, rfl⟩, rfl, rfl⟩, h⟩ := h
  rename Workspace => w
  generalize w.forest.owner id = id at h ⊢
  cases hreuse : (w.forest.node id).reuse? nt with
  | some b' =>
    simp only [hreuse, pure_eq_ok] at h
    exact Or.inl ⟨by rw [h.1], h.2⟩
  | none =>
    right
    simp only [hreuse, bind_eq_ok, get_eq_ok] at h
    obtain ⟨_, _, ⟨rfl, rfl⟩, h⟩ := h
    rename Workspace => w
    cases hrule : w.labels.rule? id nt with
    | none =>
      rw [hrule] at h
      exact absurd h failCovering_ne_ok
    | some r =>
      simp only [hrule, report, bind_eq_ok, get_eq_ok, modifyGet_eq_ok, modify_eq_ok,
        pure_eq_ok] at h
      obtain ⟨_, _, ⟨rfl, rfl⟩, _, _, ⟨rfl, rfl⟩, _, _, rfl, kids, w₁, hkids, b', _, hresult,
        _, _, ⟨_, _, ⟨rfl, rfl⟩, rfl, rfl⟩, h⟩ := h
      rename Workspace => w₂
      refine ⟨r, kids, w₁, w₂, rfl, rfl, hkids, ?_⟩
      generalize hop : (w₂.forest.node id).op = op at h ⊢
      split at h
      next v o =>
        simp only [bind_eq_ok, pure_eq_ok] at h
        obtain ⟨_, _, hmark, rfl, rfl⟩ := h
        exact ⟨hresult, Or.inl ⟨v, o, rfl, rfl, rfl, hmark⟩⟩
      next hnot =>
        obtain ⟨rfl, rfl⟩ := pure_eq_ok.mp h
        exact ⟨hresult, Or.inr ⟨fun v o hnt hb hop ↦ hnot v o hnt hb hop, rfl⟩⟩

/-- What a reduction did that succeeded, from an owner. -/
theorem reduceFrom_cases (howner : w.forest.owner id = id)
    (h : reduceFrom (fuel + 1) id nt w = .ok b w') :
    ((w.forest.node id).reuse? nt = some b ∧ w' = w) ∨
      ∃ r kids w₁ w₂, (w.forest.node id).reuse? nt = none ∧
        w.labels.rule? id nt = some r ∧
        (r.pattern.takeLeaves id w.forest).1.mapM (reduceLeaf fuel) (w.took r id nt) = .ok kids w₁ ∧
        applyRule r id kids w₁ = .ok b w₂ ∧
        ((∃ v o, nt = .reg ∧ b = .reg v ∧ (w₂.forest.node id).op = .inst o ∧
            markComputed id v w₂ = .ok () w') ∨
          (∀ v o, nt = .reg → b = .reg v → (w₂.forest.node id).op ≠ .inst o) ∧ w' = w₂) := by
  have hcases := reduceFrom_owner_cases h
  rwa [howner] at hcases

/-! ## Nodes that reduce to one nonterminal only -/

theorem Pattern.Fits.head? {p : Pattern} {h : Head} (hfits : p.Fits f₁ id) (hp : p.head? = some h) :
    (f₁.node id).head? = some h := by
  cases p with
  | nt goal => exact absurd hp (by simp [Pattern.head?])
  | op h' kids =>
    obtain rfl := Option.some.inj hp
    rw [Pattern.Fits] at hfits
    exact hfits.1
  | variadic h' goal =>
    obtain rfl := Option.some.inj hp
    rwa [Pattern.Fits] at hfits

/-- If all rules for the head of a node give `t`, and no chain rule goes on from `t`, the node is
reduced to nothing else. -/
theorem reduceFrom_only (hlabels : w.labels.Sound f₁) (howner : w.forest.owner id = id)
    (hreuse : ∀ nt, (w.forest.node id).reuse? nt = none)
    (hrules : ∀ r ∈ Grammar.rules, ∀ h, r.pattern.head? = some h →
      (f₁.node id).head? = some h → r.lhs = t)
    (hchains : ∀ r ∈ Grammar.rules, ∀ s, r.pattern = .nt s → s ≠ t)
    (h : reduceFrom fuel id nt w = .ok b w') : nt = t := by
  induction fuel generalizing nt w b w' with
  | zero => exact absurd h failCovering_ne_ok
  | succ fuel ih =>
    rcases reduceFrom_cases howner h with
      ⟨hsome, -⟩ | ⟨r, kids, w₁, w₂, -, hrule, hkids, -, -⟩
    · exact absurd ((hreuse nt).symm.trans hsome) (by simp)
    · obtain ⟨hmatches, rfl⟩ := hlabels.rule hrule
      cases hp : r.pattern with
      | nt s =>
        rw [Workspace.took, hp, Pattern.takeLeaves] at hkids
        simp only [mapM_cons_eq_ok] at hkids
        obtain ⟨b₁, _, _, hs, -⟩ := hkids
        have hst : s = t := by
          refine ih ?_ ?_ ?_ hs
          exacts [hlabels, howner, hreuse]
        exact absurd hst (hchains r hmatches.1 s hp)
      | op head ps =>
        exact hrules r hmatches.1 head (hp ▸ rfl) (hmatches.2.head? (hp ▸ rfl))
      | variadic head goal =>
        exact hrules r hmatches.1 head (hp ▸ rfl) (hmatches.2.head? (hp ▸ rfl))

theorem Grammar.lhs_of_barren : ∀ r ∈ Grammar.rules, r.pattern.head? ∈
    [some (.inst .store), some (.inst .br), some (.inst .ret), some .phiMove] → r.lhs = .stmt := by
  decide

theorem Grammar.head?_args : ∀ r ∈ Grammar.rules, r.pattern.head? = some .args → r.lhs = .args := by
  decide

/-- The nonterminal a chain rule goes on from. -/
def Pattern.source? : Pattern → Option Nonterminal
  | .nt s => some s
  | _ => none

theorem Grammar.source?_rules : ∀ r ∈ Grammar.rules, r.pattern.source? ∉
    [some .stmt, some .args] := by
  decide

theorem Node.reuse?_of_not_computed {n : Node} (h : n.computed = false) (nt : Nonterminal) :
    n.reuse? nt = none := by
  unfold Node.reuse?
  rw [h]

/-- A node without a value is reduced to a statement only. -/
theorem reduceFrom_barren (hlabels : w.labels.Sound f₁) (howner : w.forest.owner id = id)
    (hprogress : f₁.Progress mine touched held w.forest)
    (hcomputed : (w.forest.node id).computed = false)
    (hbarren : (f₁.node id).op.isBarren = true) (h : reduceFrom fuel id nt w = .ok b w') :
    nt = .stmt := by
  refine reduceFrom_only hlabels howner (Node.reuse?_of_not_computed hcomputed)
    (fun r hr head hp hhead ↦ Grammar.lhs_of_barren r hr ?_)
    (fun r hr s hp hs ↦ Grammar.source?_rules r hr (by simp [hp, hs, Pattern.source?])) h
  rw [Node.head?, hprogress.not_computed hcomputed] at hhead
  rw [hp]
  revert hhead hbarren
  generalize (f₁.node id).op = op
  intro hbarren hhead
  have hop : op ∈ [.inst .store, .inst .br, .inst .ret, .inst .phi, .phiMove] := by
    unfold NodeOp.isBarren at hbarren
    split at hbarren <;> simp_all
  simp only [List.mem_cons, List.not_mem_nil, or_false] at hop
  rcases hop with rfl | rfl | rfl | rfl | rfl <;> simp_all

/-- A list of arguments is reduced to arguments only. -/
theorem reduceFrom_args (hlabels : w.labels.Sound f₁) (howner : w.forest.owner id = id)
    (hprogress : f₁.Progress mine touched held w.forest)
    (hcomputed : (w.forest.node id).computed = false) (hop : (f₁.node id).op = .args)
    (h : reduceFrom fuel id nt w = .ok b w') : nt = .args := by
  refine reduceFrom_only hlabels howner (Node.reuse?_of_not_computed hcomputed)
    (fun r hr head hp hhead ↦ Grammar.head?_args r hr ?_)
    (fun r hr s hp hs ↦ Grammar.source?_rules r hr (by simp [hp, hs, Pattern.source?])) h
  rw [Node.head?, hprogress.not_computed hcomputed, hop] at hhead
  rw [hp, ← hhead]
  rfl

/-! ## Visiting a root -/

variable {r : NodeId} {e : Bool} {u : Unit}

/-- Why a tree is emitted where it stands or left alone. A large tree may be emitted for its own
sake. -/
theorem shouldEmit_ok (h : shouldEmit r w = .ok e w') :
    w' = { w with forest := (w.forest.refreshLevel r).2 } ∧
      ∃ large : Bool, e = (decide (w'.forest.refs r = 0) || large ||
        (w'.forest.node r).hasSideEffect ||
        ((w'.forest.node r).escapes && decide ((w'.forest.node r).opcode? ≠ some .alloca)) ||
        w'.forest.isFlowDependent r) := by
  simp only [shouldEmit, bind_eq_ok, modifyGet_eq_ok, get_eq_ok, pure_eq_ok] at h
  obtain ⟨level, _, ⟨rfl, rfl⟩, _, _, ⟨rfl, rfl⟩, rfl, rfl⟩ := h
  exact ⟨rfl, _, rfl⟩

/-- Labeling a tree anew. -/
theorem label_ok (h : label r w = .ok u w') :
    ∃ labels session, labels.Sound w.forest ∧
      labelTree w.forest r [] = .ok () labels ∧ w' = { w with labels, session } := by
  simp only [label, bind_eq_ok, get_eq_ok] at h
  obtain ⟨_, _, ⟨rfl, rfl⟩, h⟩ := h
  rename Workspace => w
  cases hlabels : (labelTree w.forest r).run [] with
  | ok x ls =>
    rw [hlabels] at h
    obtain rfl := modify_eq_ok.mp h
    exact ⟨ls, _, sound_labelFrom hlabels fun k l hl ↦ absurd hl List.not_mem_nil, hlabels, rfl⟩
  | error id ls =>
    simp only [hlabels, bind_eq_ok] at h
    obtain ⟨_, _, -, h⟩ := h
    exact absurd h failCovering_ne_ok

/-- The reduction of a root, and the notes taken of it. -/
theorem reduceRoot_ok {goal : Nonterminal} {note : InstId → Bound → Materialized}
    (h : (do
      let result ← reduce r goal
      modifySession (·.countTree)
      if let some inst := (← node r).source then
        modify fun w ↦ { w with materialized := w.materialized ++ [note inst result] } :
        Work Unit) w = .ok u w') :
    ∃ b w₁, reduce r goal w = .ok b w₁ ∧ w' = { w₁ with
      session := w₁.session.countTree
      materialized := w₁.materialized ++ ((w₁.forest.node r).source.map (note · b)).toList } := by
  simp only [modifySession, node, bind_eq_ok, get_eq_ok, modify_eq_ok, pure_eq_ok] at h
  obtain ⟨b, w₁, hreduce, _, _, rfl, _, _, ⟨_, _, ⟨rfl, rfl⟩, rfl, rfl⟩, h⟩ := h
  refine ⟨b, w₁, hreduce, ?_⟩
  cases hsource : (w₁.forest.node r).source with
  | some inst =>
    rw [hsource] at h
    exact modify_eq_ok.mp h
  | none =>
    rw [hsource] at h
    obtain ⟨-, rfl⟩ := pure_eq_ok.mp h
    rw [Option.map_none, Option.toList_none, List.append_nil]

/-- Emitting a tree is to reduce its root along sound labels. -/
theorem selectRoot_ok (h : selectRoot r w = .ok u w') :
    ∃ fuel labels session b w₁, labels.Sound w.forest ∧
      reduceFrom fuel r (goalOf w.forest r) { w with labels, session } = .ok b w₁ ∧
      w'.code = w₁.code ∧ w'.forest = w₁.forest := by
  simp only [selectRoot, bind_eq_ok, get_eq_ok] at h
  obtain ⟨_, _, ⟨rfl, rfl⟩, _, _, hlabel, _, _, ⟨rfl, rfl⟩, h⟩ := h
  rename Workspace => w
  obtain ⟨labels, session, hsound, -, rfl⟩ := label_ok hlabel
  split at h
  next =>
    split at h
    next =>
      obtain ⟨_, _, hreport, h⟩ := bind_eq_ok.mp h
      obtain rfl := modify_eq_ok.mp hreport
      obtain ⟨b, w₁, hreduce, rfl⟩ := reduceRoot_ok h
      exact ⟨_, labels, _, b, w₁, hsound, hreduce, rfl, rfl⟩
    next =>
      obtain ⟨b, w₁, hreduce, rfl⟩ := reduceRoot_ok h
      exact ⟨_, labels, _, b, w₁, hsound, hreduce, rfl, rfl⟩
  next =>
    obtain ⟨_, _, hfail, -⟩ := bind_eq_ok.mp h
    exact absurd hfail failCovering_ne_ok

/-- The visit of a root. -/
theorem selectTree_ok (h : selectTree r w = .ok u w') :
    ((w.forest.node r).target.isSome || (w.forest.node r).computed) = true ∧ w' = w ∨
      ((w.forest.node r).target.isSome || (w.forest.node r).computed) = false ∧
        ∃ e w₁, shouldEmit r w = .ok e w₁ ∧
          (e = true ∧ selectRoot r w₁ = .ok u w' ∨
            e = false ∧ ∃ session, w' = { w₁ with session }) := by
  simp only [selectTree, node, bind_eq_ok, get_eq_ok, pure_eq_ok] at h
  obtain ⟨_, _, ⟨_, _, ⟨rfl, rfl⟩, rfl, rfl⟩, h⟩ := h
  rename Workspace => w
  split at h
  next hdone => exact Or.inl ⟨hdone, (pure_eq_ok.mp h).2⟩
  next hdone =>
    obtain ⟨e, w₁, he, h⟩ := bind_eq_ok.mp h
    refine Or.inr ⟨by simpa using hdone, e, w₁, he, ?_⟩
    split at h
    next hemit => exact Or.inl ⟨hemit, h⟩
    next hemit =>
      simp only [report, bind_eq_ok, get_eq_ok, modify_eq_ok] at h
      obtain ⟨_, _, ⟨rfl, rfl⟩, rfl⟩ := h
      exact Or.inr ⟨by simpa using hemit, _, rfl⟩

end TreeCover
