import TreeCover.Proofs.Tiling.Applications

/-!
# The applications that a run makes

Runs are deterministic, so the applications that a run makes can be told from what it does first: a
reduction makes those of its leaves, one leaf after the other, and then the one that ends it; a visit
makes those of its reduction; and selection makes those of the roots it has come to.
-/

namespace TreeCover

open Ir Machine Work

variable {a a' : Application} {fuel : Nat} {id root r : NodeId} {nt goal goal' : Nonterminal}
  {w w' u u' v v₁ : Workspace} {b : Bound} {leaf : NodeId × Nonterminal}
  {leaves : List (NodeId × Nonterminal)} {blocks trees : List (List NodeId)}
  {roots done : List NodeId} {x : Unit}

/-! ## Reductions -/

/-- A reduction ends with one application. -/
theorem Application.Ends.unique (h : a.Ends fuel id nt w) (h' : a'.Ends fuel id nt w) : a = a' := by
  obtain ⟨rule, node, kids, result, before, after, hruns⟩ := a
  obtain ⟨rule', node', kids', result', before', after', hruns'⟩ := a'
  obtain rfl : node = node' := h.node.trans h'.node.symm
  obtain rfl : rule = rule' := Option.some.inj (h.rule.symm.trans h'.rule)
  obtain ⟨rfl, rfl⟩ := EStateM.Result.ok.inj (h.kids.symm.trans h'.kids)
  obtain ⟨rfl, rfl⟩ := EStateM.Result.ok.inj (hruns.symm.trans hruns')
  rfl

/-- The reduction of `id` to `nt` from `w` makes the application. -/
def ReductionMakes (fuel : Nat) (id : NodeId) (nt : Nonterminal) (w : Workspace) (a : Application) : Prop :=
  ∃ m k goal v, Calls fuel id nt w (m + 1) k goal v ∧ a.Ends m k goal v

/-- The reduction of one leaf after the other makes the application. -/
def LeavesMake (fuel : Nat) (leaves : List (NodeId × Nonterminal)) (w : Workspace)
    (a : Application) : Prop :=
  ∃ before leaf after kids v, leaves = before ++ leaf :: after ∧
    before.mapM (reduceLeaf fuel) w = .ok kids v ∧ ReductionMakes fuel leaf.1 leaf.2 v a

/-- A reduction that finds its result makes none. -/
theorem not_makes_of_reuse (h : (w.forest.node (w.forest.owner id)).reuse? nt = some b) :
    ¬ ReductionMakes fuel id nt w a := by
  rintro ⟨m, k, goal, v, hcalls, hends⟩
  cases hcalls with
  | self => exact absurd (h.symm.trans hends.pending) (by simp)
  | leaf hreuse => exact absurd (h.symm.trans hreuse) (by simp)

/-- A reduction makes what its leaves make and then the application that ends it. -/
theorem makes_iff (h : a.Ends fuel id nt w) : ReductionMakes (fuel + 1) id nt w a' ↔
    LeavesMake fuel (a.rule.pattern.takeLeaves a.node w.forest).1 (w.took a.rule a.node nt) a' ∨
      a' = a := by
  constructor
  · rintro ⟨m, k, goal, v, hcalls, hends⟩
    cases hcalls with
    | self => exact Or.inr (hends.unique h)
    | leaf _ hrule hleaves hbefore hcall =>
      rw [← h.node] at hrule hleaves hbefore
      obtain rfl := Option.some.inj (h.rule.symm.trans hrule)
      exact Or.inl ⟨_, _, _, _, _, hleaves, hbefore, m, k, goal, v, hcall, hends⟩
  · rintro (⟨before, leaf, after, kids, v, hleaves, hbefore, m, k, goal, v', hcall, hends⟩ | rfl)
    · have hrule := h.rule
      rw [h.node] at hrule hleaves hbefore
      exact ⟨m, k, goal, v', .leaf h.pending hrule hleaves hbefore hcall, hends⟩
    · exact ⟨fuel, id, nt, w, .self, h⟩

theorem not_leavesMake_nil : ¬ LeavesMake fuel [] w a := by
  rintro ⟨before, leaf, after, -, -, hnil, -⟩
  exact absurd hnil (by simp)

/-- One leaf comes before the others. -/
theorem leavesMake_cons (h : reduceLeaf fuel leaf w = .ok b v) :
    LeavesMake fuel (leaf :: leaves) w a ↔
      ReductionMakes fuel leaf.1 leaf.2 w a ∨ LeavesMake fuel leaves v a := by
  constructor
  · rintro ⟨before, leaf', after, kids, v', heq, hbefore, hmakes⟩
    cases before with
    | nil =>
      obtain ⟨rfl, rfl⟩ := List.cons.inj heq
      obtain ⟨-, rfl⟩ := mapM_nil_eq_ok.mp hbefore
      exact Or.inl hmakes
    | cons first before =>
      obtain ⟨rfl, rfl⟩ := List.cons.inj heq
      obtain ⟨b', t, kids', hfirst, hbefore, -⟩ := mapM_cons_eq_ok.mp hbefore
      obtain ⟨-, rfl⟩ := EStateM.Result.ok.inj (h.symm.trans hfirst)
      exact Or.inr ⟨before, leaf', after, kids', v', rfl, hbefore, hmakes⟩
  · rintro (hmakes | ⟨before, leaf', after, kids, v', rfl, hbefore, hmakes⟩)
    · exact ⟨[], leaf, leaves, [], w, rfl, rfl, hmakes⟩
    · exact ⟨leaf :: before, leaf', after, b :: kids, v', rfl,
        mapM_cons_eq_ok.mpr ⟨b, v, kids, h, hbefore, rfl⟩, hmakes⟩

/-! ## Visits -/

namespace Work

/-- A visit starts one reduction at most. -/
theorem Starts.unique (h : Starts root goal v u) (h' : Starts root goal' v u') :
    goal = goal' ∧ u = u' := by
  obtain ⟨-, v₁, v₂, hemit, rfl, hlabel, -, rfl⟩ := h
  obtain ⟨-, v₁', v₂', hemit', rfl, hlabel', -, rfl⟩ := h'
  obtain ⟨-, rfl⟩ := EStateM.Result.ok.inj (hemit.symm.trans hemit')
  obtain ⟨-, rfl⟩ := EStateM.Result.ok.inj (hlabel.symm.trans hlabel')
  exact ⟨rfl, rfl⟩

end Work

/-- The visit of `root` in the state `v` makes the application. -/
def VisitMakes (root : NodeId) (v : Workspace) (a : Application) : Prop :=
  ∃ goal u, Starts root goal v u ∧
    ReductionMakes ((u.forest.size + 1) * (Nonterminal.all.length + 1)) root goal u a

theorem applies_iff : Applies trees w a ↔ ∃ root v, Comes trees w root v ∧ VisitMakes root v a := by
  constructor
  · rintro ⟨root, goal, v, u, fuel, id, nt, u', hcomes, hstarts, hcalls, hends⟩
    exact ⟨root, v, hcomes, goal, u, hstarts, fuel, id, nt, u', hcalls, hends⟩
  · rintro ⟨root, v, hcomes, goal, u, hstarts, fuel, id, nt, u', hcalls, hends⟩
    exact ⟨root, goal, v, u, fuel, id, nt, u', hcomes, hstarts, hcalls, hends⟩

/-! ## Selection -/

namespace Work

/-- The state in which selection has turned to the block that comes after some others. -/
def turned (blocks : List (List NodeId)) (v : Workspace) : Workspace :=
  { v with code := v.code.beginBlock blocks.length (blockLabel? v blocks.length) }

/-- Selecting one more block. -/
theorem selectAll_concat : selectAll (blocks ++ [roots]) w = .ok x w' ↔
    ∃ v, selectAll blocks w = .ok () v ∧ selectBlock roots (turned blocks v) = .ok x w' := by
  rw [selectAll, List.zipIdx_append, forM_append_eq_ok]
  refine exists_congr fun v ↦ and_congr_right fun _ ↦ ?_
  rw [List.zipIdx_singleton, Nat.zero_add]
  constructor
  · intro h
    obtain ⟨_, _, hroots, hnil⟩ := bind_eq_ok.mp h
    obtain ⟨-, rfl⟩ := pure_eq_ok.mp hnil
    exact hroots
  · exact fun h ↦ bind_eq_ok.mpr ⟨x, w', h, rfl⟩

/-- Selection comes to a root of the last block after the roots of the others. -/
theorem comes_concat : Comes (blocks ++ [roots]) w r u ↔ Comes blocks w r u ∨
    ∃ done later v, roots = done ++ r :: later ∧ selectAll blocks w = .ok () v ∧
      selectBlock done (turned blocks v) = .ok () u := by
  constructor
  · rintro ⟨bs, done, later, rest, v, heq, hblocks, hdone⟩
    rcases List.eq_nil_or_concat rest with rfl | ⟨rest, last, rfl⟩
    · obtain ⟨rfl, hroots⟩ := List.append_inj' heq rfl
      exact Or.inr ⟨done, later, v, (List.cons.inj hroots).1, hblocks, hdone⟩
    · rw [List.concat_eq_append, ← List.cons_append, ← List.append_assoc] at heq
      obtain ⟨rfl, -⟩ := List.append_inj' heq rfl
      exact Or.inl ⟨bs, done, later, rest, v, rfl, hblocks, hdone⟩
  · rintro (⟨bs, done, later, rest, v, rfl, hblocks, hdone⟩ | ⟨done, later, v, rfl, hblocks, hdone⟩)
    · exact ⟨bs, done, later, rest ++ [roots], v, by simp, hblocks, hdone⟩
    · exact ⟨blocks, done, later, [], v, rfl, hblocks, hdone⟩

/-- When selection comes to a root, it has selected the roots before it. -/
theorem Comes.selectAll (h : Comes trees w root v) : ∃ blocks done later rest,
    trees = blocks ++ (done ++ root :: later) :: rest ∧
      Work.selectAll (blocks ++ [done]) w = .ok () v := by
  obtain ⟨blocks, done, later, rest, v₁, heq, hblocks, hdone⟩ := h
  exact ⟨blocks, done, later, rest, heq, selectAll_concat.mpr ⟨v₁, hblocks, hdone⟩⟩

/-- Selection comes to all roots. -/
theorem comes_of_mem (h : selectAll trees w = .ok x w') (hr : r ∈ trees.flatten) :
    ∃ u, Comes trees w r u := by
  induction trees using List.reverseRecOn generalizing x w' with
  | nil => exact absurd hr List.not_mem_nil
  | append_singleton blocks roots ih =>
    obtain ⟨v, hblocks, hroots⟩ := selectAll_concat.mp h
    rw [List.flatten_append, List.flatten_singleton] at hr
    rcases List.mem_append.mp hr with hr | hr
    · obtain ⟨u, hu⟩ := ih hblocks hr
      exact ⟨u, comes_concat.mpr (Or.inl hu)⟩
    · obtain ⟨done, later, rfl⟩ := List.append_of_mem hr
      obtain ⟨u, hdone, -⟩ := forM_append_eq_ok.mp hroots
      exact ⟨u, comes_concat.mpr (Or.inr ⟨done, later, v, rfl, hblocks, hdone⟩)⟩

theorem Comes.mem_flatten (h : Comes trees w r u) : r ∈ trees.flatten := by
  obtain ⟨blocks, done, later, rest, v, rfl, -⟩ := h
  simp

/-- One more root of the last block. -/
theorem comes_snoc (hblocks : selectAll blocks w = .ok () v₁)
    (hdone : selectBlock done (turned blocks v₁) = .ok () v) :
    Comes (blocks ++ [done ++ [root]]) w r u ↔
      Comes (blocks ++ [done]) w r u ∨ r = root ∧ u = v := by
  rw [comes_concat, comes_concat, or_assoc]
  refine or_congr_right ?_
  constructor
  · rintro ⟨before, later, v', heq, hblocks', hbefore⟩
    rcases List.eq_nil_or_concat later with rfl | ⟨later, last, rfl⟩
    · obtain ⟨rfl, hroot⟩ := List.append_inj' heq rfl
      obtain ⟨-, rfl⟩ := EStateM.Result.ok.inj (hblocks.symm.trans hblocks')
      obtain ⟨-, rfl⟩ := EStateM.Result.ok.inj (hdone.symm.trans hbefore)
      exact Or.inr ⟨(List.cons.inj hroot).1.symm, rfl⟩
    · rw [List.concat_eq_append, ← List.cons_append, ← List.append_assoc] at heq
      exact Or.inl ⟨before, later, v', (List.append_inj' heq rfl).1, hblocks', hbefore⟩
  · rintro (⟨before, later, v', rfl, hblocks', hbefore⟩ | ⟨rfl, rfl⟩)
    · exact ⟨before, later ++ [root], v', by simp, hblocks', hbefore⟩
    · exact ⟨done, [], v₁, rfl, hblocks, hdone⟩

/-- What selection comes to before a root, it comes to. -/
theorem Comes.mono {later : List NodeId} {rest : List (List NodeId)}
    (h : Comes (blocks ++ [done]) w r u) : Comes (blocks ++ (done ++ later) :: rest) w r u := by
  rcases comes_concat.mp h with ⟨bs, before, after, more, v, rfl, hblocks, hdone⟩ |
    ⟨before, after, v, rfl, hblocks, hdone⟩
  · exact ⟨bs, before, after, more ++ (done ++ later) :: rest, v, by simp, hblocks, hdone⟩
  · exact ⟨blocks, before, after ++ later, rest, v, by simp, hblocks, hdone⟩

/-- **Runs of selection.** What holds at the start, and is kept when selection turns to a block and when
it visits a root that it has come to, holds in the end of all roots, which it has come to in order. -/
theorem selectAll_visits {P : List NodeId → (NodeId → Workspace → Prop) → Workspace → Prop}
    (h : selectAll trees w = .ok x w') (hw : P [] (fun _ _ ↦ False) w)
    (hblock : ∀ done V t b label, P done V t → P done V { t with code := t.code.beginBlock b label })
    (hroot : ∀ done V root v v', Comes trees w root v → P done V v → selectTree root v = .ok () v' →
      P (done ++ [root]) (fun r u ↦ V r u ∨ r = root ∧ u = v) v') : P trees.flatten (Comes trees w) w' := by
  induction trees using List.reverseRecOn generalizing x w' with
  | nil =>
    obtain ⟨-, rfl⟩ := pure_eq_ok.mp h
    suffices hnone : Comes [] w' = fun _ _ ↦ False from hnone ▸ hw
    funext r u
    refine propext (iff_false_intro ?_)
    rintro ⟨bs, done, later, rest, v, heq, -⟩
    exact absurd heq (by simp)
  | append_singleton blocks roots ih =>
    obtain ⟨v, hblocks, hroots⟩ := selectAll_concat.mp h
    have hv := ih hblocks fun done V root t t' hcomes ↦
      hroot done V root t t' (comes_concat.mpr (Or.inl hcomes))
    rw [List.flatten_append, List.flatten_singleton]
    refine forM_induct_run
      (P := fun done t ↦ P (blocks.flatten ++ done) (Comes (blocks ++ [done]) w) t) hroots ?_
      fun done root later t _ t' heq hdone ht hvisit ↦ ?_
    · suffices hnone : Comes (blocks ++ [[]]) w = Comes blocks w by
        rw [List.append_nil, hnone]
        exact hblock _ _ _ _ _ hv
      funext r u
      refine propext (comes_concat.trans (or_iff_left ?_))
      rintro ⟨before, after, _, hnil, -⟩
      exact absurd hnil (by simp)
    · suffices hsnoc : Comes (blocks ++ [done ++ [root]]) w =
          fun r u ↦ Comes (blocks ++ [done]) w r u ∨ r = root ∧ u = t by
        rw [← List.append_assoc, hsnoc]
        exact hroot _ _ root t t' (comes_concat.mpr (Or.inr ⟨done, later, v, heq, hblocks, hdone⟩))
          ht hvisit
      funext r u
      exact propext (comes_snoc hblocks hdone)

end Work

end TreeCover
