import TreeCover.Proofs.Tiling.Invariants

/-!
# Runs of selection

The states that selection passes through, also where it comes to no result: the moment when a root is
reached, the start of its reduction, and all reductions that are called within it. A property of the
forest that taking leaves, actions and marks keep holds at all these moments.
-/

namespace TreeCover

open Ir Machine Work

variable {g f f' : Forest} {fuel fuel' : Nat} {id id' k p c root : NodeId} {nt nt' goal : Nonterminal}
  {r : Rule} {w w' v v' u : Workspace} {b : Bound} {trees : List (List NodeId)}
  {done roots : List NodeId} {S : NodeId → Prop} {x : Unit}

/-! ## Reductions within reductions -/

namespace Work

/-- The end of a reduction along a rule: an instruction remembers its register. -/
def settle (id : NodeId) (nt : Nonterminal) (b : Bound) : Work Bound := do
  match nt, b, (← node id).op with
  | .reg, .reg v, .inst _ => markComputed id v
  | _, _, _ => pure ()
  return b

theorem settle_ok (id : NodeId) (nt : Nonterminal) (b : Bound) (w : Workspace) :
    ∃ w', settle id nt b w = .ok b w' := by
  rw [settle, node_bind]
  generalize (w.forest.node id).op = op
  cases nt with
  | reg => cases b with
    | reg v => cases op <;> exact ⟨_, rfl⟩
    | _ => exact ⟨_, rfl⟩
  | _ => exact ⟨_, rfl⟩

theorem settle_eq_ok {b' : Bound} (h : settle id nt b w = .ok b' w') : b' = b ∧ (w' = w ∨
    ∃ v o, nt = .reg ∧ b = .reg v ∧ (w.forest.node id).op = .inst o ∧
      w' = { w with forest := w.forest.update id fun n ↦
        { n with computed := true, slot := .vreg v, roles := { n.roles with register := true } } }) := by
  rw [settle, node_bind] at h
  generalize hop : (w.forest.node id).op = op at h
  split at h
  next v o =>
    obtain ⟨_, w₁, hmark, hpure⟩ := bind_eq_ok.mp h
    obtain ⟨rfl, rfl⟩ := pure_eq_ok.mp hpure
    exact ⟨rfl, Or.inr ⟨v, o, rfl, rfl, rfl, modify_eq_ok.mp hmark⟩⟩
  next =>
    obtain ⟨rfl, rfl⟩ := pure_eq_ok.mp h
    exact ⟨rfl, Or.inl rfl⟩

/-- A reduction that finds its result in the node. -/
theorem reduceFrom_of_reuse (hreuse : (w.forest.node (w.forest.owner id)).reuse? nt = some b) :
    reduceFrom (fuel + 1) id nt w = .ok b w := by
  rw [reduceFrom, get_bind, node_bind]
  simp only [hreuse]
  rfl

/-- A reduction along a rule. -/
theorem reduceFrom_of_rule (hreuse : (w.forest.node (w.forest.owner id)).reuse? nt = none)
    (hrule : w.labels.rule? (w.forest.owner id) nt = some r) :
    reduceFrom (fuel + 1) id nt w = (do
      let kids ← (r.pattern.takeLeaves (w.forest.owner id) w.forest).1.mapM (reduceLeaf fuel)
      let result ← applyRule r (w.forest.owner id) kids
      settle (w.forest.owner id) nt result) (w.took r (w.forest.owner id) nt) := by
  rw [reduceFrom, get_bind, node_bind]
  simp only [hreuse]
  rw [get_bind]
  simp only [hrule]
  rfl

end Work

/-- `Calls fuel id nt w fuel' id' nt' w'` says that in the course of reducing `id` to `nt` from `w`, it
comes to reducing `id'` to `nt'` from `w'`: by itself, or as a leaf of the rule that is followed, once
all leaves before it have been reduced. -/
inductive Calls : Nat → NodeId → Nonterminal → Workspace →
    Nat → NodeId → Nonterminal → Workspace → Prop
  | self {fuel : Nat} {id : NodeId} {nt : Nonterminal} {w : Workspace} :
      Calls fuel id nt w fuel id nt w
  | leaf {fuel fuel' : Nat} {id k id' : NodeId} {nt goal nt' : Nonterminal} {w v w' : Workspace}
      {r : Rule} {before after : List (NodeId × Nonterminal)} {kids : List Bound}
      (hreuse : (w.forest.node (w.forest.owner id)).reuse? nt = none)
      (hrule : w.labels.rule? (w.forest.owner id) nt = some r)
      (hleaves : (r.pattern.takeLeaves (w.forest.owner id) w.forest).1 =
        before ++ (k, goal) :: after)
      (hbefore : before.mapM (fun leaf ↦ reduceFrom fuel leaf.1 leaf.2)
        (w.took r (w.forest.owner id) nt) = .ok kids v)
      (hcall : Calls fuel k goal v fuel' id' nt' w') : Calls (fuel + 1) id nt w fuel' id' nt' w'

namespace Work

/-- Selection of `trees` from `w` comes to `root` in the state `v`: the blocks before its block have
been selected, and the roots before it in its block. -/
def Comes (trees : List (List NodeId)) (w : Workspace) (root : NodeId) (v : Workspace) : Prop :=
  ∃ blocks done later rest v₁, trees = blocks ++ (done ++ root :: later) :: rest ∧
    selectAll blocks w = .ok () v₁ ∧
    selectBlock done
      { v₁ with code := v₁.code.beginBlock blocks.length (blockLabel? v₁ blocks.length) }
      = .ok () v

/-- A root that is reached in the state `v` is to be emitted, and its reduction to `goal` starts in the
state `u`, once its tree has been labeled and is known to be covered. -/
def Starts (root : NodeId) (goal : Nonterminal) (v u : Workspace) : Prop :=
  ((v.forest.node root).target.isSome || (v.forest.node root).computed) = false ∧
    ∃ v₁ v₂, shouldEmit root v = .ok true v₁ ∧ goal = goalOf v₁.forest root ∧
      label root v₁ = .ok () v₂ ∧ v₂.labels.cost root goal < infinite ∧
      u = { v₂ with session := if v₂.session.config.traceCover then
        v₂.session.report (.covered v₂.code.name (v₂.forest.dump root) goal
          (v₂.labels.cost root goal)) else v₂.session }

/-- The notes that a visit takes of its root, once the root has been reduced. -/
def takeNotes (root : NodeId) (result : Bound) : Work Unit := do
  modifySession (·.countTree)
  if let some inst := (← node root).source then
    let vreg := match result with
      | .reg v => some v
      | _ => none
    modify fun w ↦ { w with materialized := w.materialized ++ [⟨inst, vreg⟩] }

theorem takeNotes_ok (root : NodeId) (b : Bound) (w : Workspace) :
    ∃ w', takeNotes root b w = .ok () w' := by
  unfold takeNotes
  rw [modifySession_bind, node_bind]
  cases (w.forest.node root).source with
  | none => exact ⟨_, rfl⟩
  | some inst => exact ⟨_, rfl⟩

/-- The visit of such a root is its reduction and some notes, which can be taken always. -/
theorem Starts.selectTree (h : Starts root goal v u) :
    ∃ notes : Bound → Work Unit, selectTree root v = (reduce root goal >>= notes) u ∧
      ∀ b u', ∃ u'', notes b u' = .ok () u'' := by
  obtain ⟨hnot, v₁, v₂, hemit, rfl, hlabel, hcost, rfl⟩ := h
  refine ⟨takeNotes root, ?_, takeNotes_ok root⟩
  have hvisit : Work.selectTree root v = selectRoot root v₁ := by
    rw [Work.selectTree]
    change (if ((v.forest.node root).target.isSome || (v.forest.node root).computed) = true then
      Pure.pure () else do if ← shouldEmit root then selectRoot root else _ : Work Unit) v = _
    rw [if_neg (by rw [hnot]; exact Bool.false_ne_true)]
    change EStateM.bind (shouldEmit root) _ v = _
    rw [EStateM.bind, hemit]
    rfl
  rw [hvisit, selectRoot]
  change EStateM.bind (label root) _ v₁ = _
  rw [EStateM.bind, hlabel]
  change (do
    unless v₂.labels.cost root (goalOf v₁.forest root) < infinite do failCovering root
    _ : Work Unit) v₂ = _
  rw [if_pos hcost]
  generalize v₂.session.config.traceCover = trace
  cases trace <;> rfl

/-- From the visit to its reduction the code does not change, and the forest only in its heights. -/
theorem Starts.state (h : Starts root goal v u) :
    ∃ labels session, u = { v with forest := (v.forest.refreshLevel root).2, labels, session } := by
  obtain ⟨-, v₁, v₂, hemit, -, hlabel, -, rfl⟩ := h
  obtain ⟨rfl, -⟩ := shouldEmit_ok hemit
  obtain ⟨labels, session, -, -, rfl⟩ := label_ok hlabel
  exact ⟨labels, _, rfl⟩

/-- The labels were made for the forest, with its heights brought up to date. -/
theorem Starts.labels (h : Starts root goal v u) :
    (v.forest.node root).target = none ∧ u.forest = (v.forest.refreshLevel root).2 ∧
      u.labels.Sound u.forest := by
  obtain ⟨hnot, v₁, v₂, hemit, -, hlabel, -, rfl⟩ := h
  obtain ⟨rfl, -⟩ := shouldEmit_ok hemit
  obtain ⟨labels, session, hsound, -, rfl⟩ := label_ok hlabel
  refine ⟨?_, rfl, hsound⟩
  simpa using (Bool.or_eq_false_iff.mp hnot).1

/-- A visit that succeeds either leaves the code alone, since the root is done or can wait, or reduces the
root, and takes notes. -/
theorem selectTree_eq_ok (h : selectTree root v = .ok x w') :
    ((∀ goal u, ¬ Starts root goal v u) ∧ w'.code = v.code ∧
      (((v.forest.node root).target.isSome || (v.forest.node root).computed) = true ∧
          w'.forest = v.forest ∨
        ∃ v₁, shouldEmit root v = .ok false v₁ ∧ w'.forest = v₁.forest)) ∨
      ∃ goal u b u', Starts root goal v u ∧ reduce root goal u = .ok b u' ∧
        w'.code = u'.code ∧ w'.forest = u'.forest := by
  rcases selectTree_ok h with ⟨hskip, rfl⟩ | ⟨hnot, e, v₁, he, ⟨rfl, hroot⟩ | ⟨rfl, session, rfl⟩⟩
  · refine Or.inl ⟨fun goal u hstarts ↦ ?_, rfl, Or.inl ⟨hskip, rfl⟩⟩
    exact Bool.false_ne_true (hstarts.1.symm.trans hskip)
  · right
    rw [selectRoot, get_bind] at hroot
    obtain ⟨_, v₂, hlabel, hroot⟩ := bind_eq_ok.mp hroot
    rw [get_bind] at hroot
    split at hroot
    next hcost =>
      have hstarts : Starts root (goalOf v₁.forest root) v _ :=
        ⟨hnot, v₁, _, he, rfl, hlabel, hcost, rfl⟩
      split at hroot
      next htrace =>
        obtain ⟨_, _, hreport, hroot⟩ := bind_eq_ok.mp hroot
        obtain rfl := modify_eq_ok.mp hreport
        obtain ⟨b, u', hreduce, rfl⟩ := reduceRoot_ok hroot
        rw [if_pos htrace] at hstarts
        exact ⟨_, _, b, u', hstarts, hreduce, rfl, rfl⟩
      next htrace =>
        obtain ⟨b, u', hreduce, rfl⟩ := reduceRoot_ok hroot
        rw [if_neg htrace] at hstarts
        exact ⟨_, _, b, u', hstarts, hreduce, rfl, rfl⟩
    next =>
      obtain ⟨_, _, hfail, -⟩ := bind_eq_ok.mp hroot
      exact absurd hfail failCovering_ne_ok
  · refine Or.inl ⟨fun goal u hstarts ↦ ?_, ?_, Or.inr ⟨v₁, he, rfl⟩⟩
    · obtain ⟨-, _, _, hemit, -⟩ := hstarts
      exact absurd (EStateM.Result.ok.inj (he.symm.trans hemit)).1 Bool.false_ne_true
    · obtain ⟨rfl, -⟩ := shouldEmit_ok he
      rfl

/-- **Runs of selection.** What turning to the next block and visiting a root keep holds in the end; the
number says how many blocks selection has turned to. -/
theorem selectAll_induct {P : Nat → Workspace → Prop} (h : selectAll trees w = .ok x w') (hw : P 0 w)
    (hblock : ∀ n t, n < trees.length → P n t →
      P (n + 1) { t with code := t.code.beginBlock n (blockLabel? t n) })
    (hroot : ∀ n root v v', Comes trees w root v → P (n + 1) v → selectTree root v = .ok () v' →
      P (n + 1) v') : P trees.length w' := by
  have hall := forM_induct_run (P := fun done t ↦ P done.length t) h hw
    fun before y after t u t' heq hbefore ht hstep ↦ ?_
  · rwa [List.length_zipIdx] at hall
  · obtain ⟨roots, b⟩ := y
    obtain ⟨blocks, rest, rfl, rfl, hrest⟩ := List.zipIdx_eq_append_iff.mp heq
    obtain ⟨_, later, rfl, hhead, -⟩ := List.zipIdx_eq_cons_iff.mp hrest.symm
    obtain ⟨rfl, rfl⟩ := Prod.mk.inj hhead
    simp only [modifyCode, bind_eq_ok, get_eq_ok, modify_eq_ok, Nat.zero_add] at hstep
    obtain ⟨_, _, ⟨rfl, rfl⟩, _, _, rfl, hroots⟩ := hstep
    rename Workspace => t
    rw [List.length_append, List.length_singleton]
    rw [List.length_zipIdx] at ht ⊢
    have hlt : blocks.length < (blocks ++ roots :: later).length := by
      simp
    refine forM_induct_run (P := fun _ v ↦ P (blocks.length + 1) v) hroots (hblock _ _ hlt ht)
      fun done root more v _ v' hroots hdone hv hvisit ↦ ?_
    exact hroot _ root v v' ⟨blocks, done, more, later, t, by rw [hroots], hbefore, hdone⟩ hv hvisit

/-- The same holds of the states in which a root is reached. -/
theorem Comes.induct {P : Nat → Workspace → Prop} (h : Comes trees w root v) (hw : P 0 w)
    (hblock : ∀ n t, n < trees.length → P n t →
      P (n + 1) { t with code := t.code.beginBlock n (blockLabel? t n) })
    (hroot : ∀ n root v v', P (n + 1) v → selectTree root v = .ok () v' → P (n + 1) v') :
    ∃ n, P (n + 1) v := by
  obtain ⟨blocks, done, later, rest, v₁, rfl, hblocks, hdone⟩ := h
  have hlength : blocks.length < (blocks ++ (done ++ root :: later) :: rest).length := by
    simp
  have hv₁ := selectAll_induct hblocks hw (fun n t hn ↦ hblock n t (Nat.lt_trans hn hlength))
    fun n root v v' _ ↦ hroot n root v v'
  exact ⟨blocks.length, forM_induct hdone (hblock _ _ hlength hv₁)
    fun root _ v _ v' hv hvisit ↦ hroot _ root v v' hv hvisit⟩

end Work

/-! ## What reductions keep -/

/-- Nodes among which the children of each are again. -/
def Forest.ClosedUnderKids (g : Forest) (S : NodeId → Prop) : Prop :=
  ∀ p, S p → ∀ c ∈ g.kidOwners p, S c

/-- A relation between forests that is kept when nodes of `S` give up their children, when instructions
of `S` are marked, and by actions, as long as the skeleton is that of `g`. -/
structure KeptByReduction (g : Forest) (S : NodeId → Prop) (R : Forest → Forest → Prop) : Prop where
  refl : ∀ f, R f f
  trans : ∀ f f' f'', R f f' → R f' f'' → R f f''
  release : ∀ f id, g.SameSkeleton f → S id → R f (f.releaseKids id)
  roles : ∀ f f', f.SameButRoles f' → R f f'
  mark : ∀ f id v o, S id → (f.node id).op = .inst o → R f (f.update id fun n ↦
    { n with computed := true, slot := .vreg v, roles := { n.roles with register := true } })

/-! ## Taking leaves -/

theorem Forest.sameSkeleton_releaseKids (f : Forest) (id : NodeId) :
    SameSkeleton f (f.releaseKids id) :=
  Progress.skeleton (f.progress_releaseKids fun _ _ ↦ trivial :
    Progress (fun _ ↦ True) (fun _ ↦ True) (fun _ _ ↦ True) f (f.releaseKids id))

theorem Forest.sameSkeleton_roles (h : f.SameButRoles f') : SameSkeleton f f' := by
  refine ⟨h.1, fun k ↦ ?_⟩
  obtain ⟨roles, hk⟩ := h.2 k
  rw [hk]
  rfl

mutual

/-- What giving up children keeps, taking leaves keeps. -/
theorem Pattern.takeLeaves_keeps {P : Forest → Prop} (hP : ∀ f id, P f → P (f.releaseKids id)) :
    ∀ (p : Pattern) (id : NodeId) (f : Forest), P f → P (p.takeLeaves id f).2
  | .nt _, _, f, hf => by
    rw [Pattern.takeLeaves]
    exact hf
  | .op _ kids, id, f, hf => by
    rw [Pattern.takeLeaves]
    exact hP _ id (Pattern.takeKidLeaves_keeps hP kids (f.kidOwners id) f hf)
  | .variadic _ _, id, f, hf => by
    rw [Pattern.takeLeaves]
    exact hP f id hf

theorem Pattern.takeKidLeaves_keeps {P : Forest → Prop} (hP : ∀ f id, P f → P (f.releaseKids id)) :
    ∀ (ps : List Pattern) (ids : List NodeId) (f : Forest), P f → P (Pattern.takeKidLeaves ps ids f).2
  | [], _, f, hf => by
    simp only [Pattern.takeKidLeaves]
    exact hf
  | _ :: _, [], f, hf => by
    simp only [Pattern.takeKidLeaves]
    exact hf
  | p :: ps, id :: ids, f, hf => by
    rw [Pattern.takeKidLeaves]
    exact Pattern.takeKidLeaves_keeps hP ps ids _ (Pattern.takeLeaves_keeps hP p id f hf)

end

theorem Pattern.sameSkeleton_takeLeaves (p : Pattern) (id : NodeId) (f : Forest) :
    f.SameSkeleton (p.takeLeaves id f).2 :=
  p.takeLeaves_keeps (fun g k h ↦ h.trans (g.sameSkeleton_releaseKids k)) id f (.refl f)

theorem Pattern.sameSkeleton_takeKidLeaves (ps : List Pattern) (ids : List NodeId) (f : Forest) :
    f.SameSkeleton (Pattern.takeKidLeaves ps ids f).2 :=
  Pattern.takeKidLeaves_keeps (fun g k h ↦ h.trans (g.sameSkeleton_releaseKids k)) ps ids f (.refl f)

mutual

/-- The leaves below a node belong to its tree. -/
theorem Pattern.takeLeaves_mem (hS : g.ClosedUnderKids S) : ∀ (p : Pattern) (id : NodeId) (f : Forest),
    g.SameSkeleton f → S id → ∀ leaf ∈ (p.takeLeaves id f).1, S leaf.1
  | .nt _, _, _, _, hid => by
    rw [Pattern.takeLeaves]
    exact List.forall_mem_singleton.mpr hid
  | .op _ kids, id, f, hskeleton, hid => by
    rw [Pattern.takeLeaves]
    exact Pattern.takeKidLeaves_mem hS kids (f.kidOwners id) f hskeleton fun c hc ↦
      hS id hid c (hskeleton.kidOwners id ▸ hc)
  | .variadic _ _, id, f, hskeleton, hid => by
    rw [Pattern.takeLeaves]
    intro leaf hleaf
    obtain ⟨c, hc, rfl⟩ := List.mem_map.mp hleaf
    exact hS id hid c (hskeleton.kidOwners id ▸ hc)

theorem Pattern.takeKidLeaves_mem (hS : g.ClosedUnderKids S) : ∀ (ps : List Pattern)
    (ids : List NodeId) (f : Forest), g.SameSkeleton f → (∀ id ∈ ids, S id) →
      ∀ leaf ∈ (Pattern.takeKidLeaves ps ids f).1, S leaf.1
  | [], _, _, _, _ => by
    simp only [Pattern.takeKidLeaves]
    exact fun leaf hleaf ↦ absurd hleaf List.not_mem_nil
  | _ :: _, [], _, _, _ => by
    simp only [Pattern.takeKidLeaves]
    exact fun leaf hleaf ↦ absurd hleaf List.not_mem_nil
  | p :: ps, id :: ids, f, hskeleton, hids => by
    obtain ⟨hid, hrest⟩ := List.forall_mem_cons.mp hids
    rw [Pattern.takeKidLeaves]
    exact List.forall_mem_append.mpr ⟨Pattern.takeLeaves_mem hS p id f hskeleton hid,
      Pattern.takeKidLeaves_mem hS ps ids _
        (hskeleton.trans (Pattern.sameSkeleton_takeLeaves p id f)) hrest⟩

end

namespace KeptByReduction

variable {R : Forest → Forest → Prop}

mutual

theorem takeLeaves (hR : KeptByReduction g S R) (hS : g.ClosedUnderKids S) : ∀ (p : Pattern)
    (id : NodeId) (f : Forest), g.SameSkeleton f → S id → R f (p.takeLeaves id f).2
  | .nt _, _, f, _, _ => by
    rw [Pattern.takeLeaves]
    exact hR.refl f
  | .op _ kids, id, f, hskeleton, hid => by
    have hkids := hR.takeKidLeaves hS kids (f.kidOwners id) f hskeleton fun c hc ↦
      hS id hid c (hskeleton.kidOwners id ▸ hc)
    rw [Pattern.takeLeaves]
    exact hR.trans _ _ _ hkids (hR.release _ _
      (hskeleton.trans (Pattern.sameSkeleton_takeKidLeaves kids (f.kidOwners id) f)) hid)
  | .variadic _ _, id, f, hskeleton, hid => by
    rw [Pattern.takeLeaves]
    exact hR.release f id hskeleton hid

theorem takeKidLeaves (hR : KeptByReduction g S R) (hS : g.ClosedUnderKids S) : ∀ (ps : List Pattern)
    (ids : List NodeId) (f : Forest), g.SameSkeleton f → (∀ id ∈ ids, S id) →
      R f (Pattern.takeKidLeaves ps ids f).2
  | [], _, f, _, _ => by
    simp only [Pattern.takeKidLeaves]
    exact hR.refl f
  | _ :: _, [], f, _, _ => by
    simp only [Pattern.takeKidLeaves]
    exact hR.refl f
  | p :: ps, id :: ids, f, hskeleton, hids => by
    obtain ⟨hid, hrest⟩ := List.forall_mem_cons.mp hids
    rw [Pattern.takeKidLeaves]
    exact hR.trans _ _ _ (hR.takeLeaves hS p id f hskeleton hid) (hR.takeKidLeaves hS ps ids _
      (hskeleton.trans (Pattern.sameSkeleton_takeLeaves p id f)) hrest)

end

end KeptByReduction

/-! ## Runs -/

theorem sameButRoles_applyRule {r : Rule} {kids : List Bound}
    (h : applyRule r id kids w = .ok b w') : w.forest.SameButRoles w'.forest := by
  by_cases hphi : r.action = .phiInput
  · obtain ⟨_, _, _, _, -, -, -, -, rfl⟩ := applyRule_phiInput hphi h
    exact .refl _
  · obtain ⟨_, -, -, hforest⟩ := applyRule_expands h hphi
    exact hforest

/-- What a reduction can rely on: the labels were made for a forest with the same skeleton, and its
node is one of `S`. -/
structure Reduces (g : Forest) (S : NodeId → Prop) (id : NodeId) (w : Workspace) : Prop where
  labels : w.labels.Sound g
  skeleton : g.SameSkeleton w.forest
  mem : S (g.owner id)

namespace KeptByReduction

variable {R : Forest → Forest → Prop}

section

variable (hR : KeptByReduction g S R) (hS : g.ClosedUnderKids S) (howner : ∀ k, S k → g.owner k = k)
include hR hS howner

omit hS in
/-- To reduce leaves keeps what the reduction of each keeps. -/
theorem mapM_reduceFrom {leaves : List (NodeId × Nonterminal)} {kids : List Bound}
    (ih : ∀ {id nt w b w'}, Reduces g S id w → Work.reduceFrom fuel id nt w = .ok b w' →
      R w.forest w'.forest ∧ w'.labels = w.labels ∧ g.SameSkeleton w'.forest)
    (hlabels : w.labels.Sound g) (hskeleton : g.SameSkeleton w.forest)
    (hleaves : ∀ leaf ∈ leaves, S leaf.1)
    (h : leaves.mapM (fun leaf ↦ Work.reduceFrom fuel leaf.1 leaf.2) w = .ok kids w') :
    R w.forest w'.forest ∧ w'.labels = w.labels ∧ g.SameSkeleton w'.forest := by
  refine mapM_induct (P := fun _ t ↦ R w.forest t.forest ∧ t.labels = w.labels ∧
    g.SameSkeleton t.forest) h ⟨hR.refl _, rfl, hskeleton⟩
    fun k leaf hk _ t b t' _ ⟨hrel, hsame, ht⟩ hleaf ↦ ?_
  have hmem := hleaves leaf (List.mem_of_getElem? hk)
  obtain ⟨hrel', hsame', ht'⟩ := ih ⟨hsame ▸ hlabels, ht, (howner _ hmem).symm ▸ hmem⟩ hleaf
  exact ⟨hR.trans _ _ _ hrel hrel', hsame'.trans hsame, ht'⟩

/-- **Reductions.** What taking leaves, actions and marks keep holds after a reduction. -/
theorem reduceFrom (hw : Reduces g S id w) (h : Work.reduceFrom fuel id nt w = .ok b w') :
    R w.forest w'.forest ∧ w'.labels = w.labels ∧ g.SameSkeleton w'.forest := by
  induction fuel generalizing id nt w b w' with
  | zero => exact absurd h failCovering_ne_ok
  | succ fuel ih =>
    rcases reduceFrom_owner_cases h with
      ⟨-, rfl⟩ | ⟨r, kids, w₁, w₂, -, hrule, hkids, happly, hmark⟩
    · exact ⟨hR.refl _, rfl, hw.skeleton⟩
    · rw [hw.skeleton.owner] at hkids happly hmark
      have htake := hR.takeLeaves hS r.pattern _ _ hw.skeleton hw.mem
      have hskeleton := hw.skeleton.trans
        (r.pattern.sameSkeleton_takeLeaves (g.owner id) w.forest)
      obtain ⟨hleaves, hlabels, hskeleton⟩ := hR.mapM_reduceFrom howner ih
        (w := w.took r (g.owner id) nt) hw.labels hskeleton
        (r.pattern.takeLeaves_mem hS _ _ hw.skeleton hw.mem) hkids
      have hroles := sameButRoles_applyRule happly
      have hrel := hR.trans _ _ _ htake (hR.trans _ _ _ hleaves (hR.roles _ _ hroles))
      have hlabels := (KeptBySelection.labels_applyRule happly).trans hlabels
      have hskeleton := hskeleton.trans (Forest.sameSkeleton_roles hroles)
      rcases hmark with ⟨v, o, -, -, hop, hmark⟩ | ⟨-, rfl⟩
      · obtain rfl := modify_eq_ok.mp hmark
        exact ⟨hR.trans _ _ _ hrel (hR.mark _ _ v o hw.mem hop), hlabels,
          hskeleton.trans (Forest.sameSkeleton_update _ _ fun _ ↦ rfl)⟩
      · exact ⟨hrel, hlabels, hskeleton⟩

/-- **Calls.** What taking leaves, actions and marks keep holds whenever a reduction is called within
another one. -/
theorem calls (hw : Reduces g S id w) (h : Calls fuel id nt w fuel' id' nt' w') :
    R w.forest w'.forest ∧ Reduces g S id' w' := by
  induction h with
  | self => exact ⟨hR.refl _, hw⟩
  | @leaf fuel _ id k _ nt _ _ w v _ r before after kids _ _ hleaves hbefore _ ih =>
    rw [hw.skeleton.owner] at hleaves hbefore
    have htake := hR.takeLeaves hS r.pattern _ _ hw.skeleton hw.mem
    have hmem := r.pattern.takeLeaves_mem hS _ _ hw.skeleton hw.mem
    rw [hleaves] at hmem
    obtain ⟨hbeforeMem, hmem⟩ := List.forall_mem_append.mp hmem
    have hk := hmem _ List.mem_cons_self
    obtain ⟨hrel, hlabels, hskeleton⟩ := hR.mapM_reduceFrom howner
      (fun hw h ↦ hR.reduceFrom hS howner hw h) (w := w.took r (g.owner id) nt) hw.labels
      (hw.skeleton.trans (r.pattern.sameSkeleton_takeLeaves (g.owner id) w.forest)) hbeforeMem
      hbefore
    obtain ⟨hrest, hw'⟩ := ih ⟨hlabels.symm ▸ hw.labels, hskeleton, (howner k hk).symm ▸ hk⟩
    exact ⟨hR.trans _ _ _ htake (hR.trans _ _ _ hrel hrest), hw'⟩

end

end KeptByReduction

/-! ## Visits -/

/-- A property of states, which knows the roots visited so far, that the visit of the next root keeps;
`all` are the roots of the function in order. -/
structure KeptByVisits (all : List NodeId) (P : List NodeId → Workspace → Prop) : Prop where
  block : ∀ done w b label, P done w → P done { w with code := w.code.beginBlock b label }
  root : ∀ done r w w', done ++ [r] <+: all → P done w → selectTree r w = .ok () w' →
    P (done ++ [r]) w'

namespace KeptByVisits

variable {all : List NodeId} {P : List NodeId → Workspace → Prop}

theorem selectBlock (hP : KeptByVisits all P) (hpre : done ++ roots <+: all) (hw : P done w)
    (h : Work.selectBlock roots w = .ok x w') : P (done ++ roots) w' := by
  induction roots generalizing done w x with
  | nil =>
    obtain ⟨-, rfl⟩ := pure_eq_ok.mp h
    rwa [List.append_nil]
  | cons r roots ih =>
    obtain ⟨_, w₁, hr, hroots⟩ := bind_eq_ok.mp h
    rw [List.append_cons] at hpre ⊢
    exact ih hpre (hP.root _ _ _ _ ((List.prefix_append _ roots).trans hpre) hw hr) hroots

theorem selectAll (hP : KeptByVisits all P) (hpre : trees.flatten <+: all) (hw : P [] w)
    (h : Work.selectAll trees w = .ok x w') : P trees.flatten w' := by
  have hall := forM_induct_idx (P := fun k t ↦ P (trees.take k).flatten t) h hw
    fun k y hk t u t' ht hstep ↦ ?_
  · rwa [List.length_zipIdx, List.take_length] at hall
  · obtain ⟨roots, b⟩ := y
    rw [List.getElem?_zipIdx, Option.map_eq_some_iff] at hk
    obtain ⟨_, hroots, heq⟩ := hk
    rw [Prod.mk.injEq] at heq
    obtain ⟨rfl, -⟩ := heq
    simp only [modifyCode, bind_eq_ok, get_eq_ok, modify_eq_ok] at hstep
    obtain ⟨_, _, ⟨rfl, rfl⟩, _, _, rfl, hblock⟩ := hstep
    rename List NodeId => roots
    have htake : (trees.take (k + 1)).flatten = (trees.take k).flatten ++ roots := by
      rw [List.take_add_one, hroots, List.flatten_append]
      simp
    rw [htake]
    refine hP.selectBlock (htake ▸ (List.IsPrefix.trans ?_ hpre)) (hP.block _ _ _ _ ht) hblock
    obtain ⟨rest, hrest⟩ := List.take_prefix (k + 1) trees
    exact ⟨rest.flatten, by rw [← List.flatten_append, hrest]⟩

/-- The property holds whenever a root is reached. -/
theorem comes (hP : KeptByVisits trees.flatten P) (hw : P [] w) (h : Comes trees w root v) :
    ∃ done later, trees.flatten = done ++ root :: later ∧ P done v := by
  obtain ⟨blocks, done, later, rest, v₁, rfl, hblocks, hdone⟩ := h
  have hflatten : (blocks ++ (done ++ root :: later) :: rest).flatten =
      (blocks.flatten ++ done) ++ root :: (later ++ rest.flatten) := by
    simp
  rw [hflatten] at hP
  refine ⟨blocks.flatten ++ done, later ++ rest.flatten, hflatten, ?_⟩
  refine hP.selectBlock (List.prefix_append _ _) (hP.block _ _ _ _ ?_) hdone
  exact hP.selectAll ⟨done ++ root :: (later ++ rest.flatten), by simp⟩ hw hblocks

end KeptByVisits

end TreeCover
