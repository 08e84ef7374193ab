import TreeCover.Proofs.Tiling.Taking

/-!
# Histories

The applications that a run makes, in order, tell what became of every node: a node with a value is
reduced to a register once, which is the one that it keeps; no node is reduced to a nonterminal more often
than a rule or a visit asked for that; every rule took values in the ways there are; and a node gave up its
children to a rule. Main statement: `reduceFrom_history`.
-/

namespace TreeCover

open Ir Machine Work

variable {g g₀ f f' f'' : Forest} {k p : NodeId} {nt : Nonterminal} {goals goals' : List (NodeId × Nonterminal)}
  {as as' : List Application} {a : Application} {ls : Labels} {rank : NodeId → Nat} {fuel : Nat}
  {id : NodeId} {w w' : Workspace} {b : Bound} {leaves : List (NodeId × Nonterminal)} {kids : List Bound}

/-! ## Counting -/

/-- How often applications reduce a node to a nonterminal. -/
def timesMade (as : List Application) (k : NodeId) (nt : Nonterminal) : Nat :=
  as.countP fun a ↦ a.node = k ∧ a.rule.lhs = nt

/-- How often the leaves of their rules ask for that. -/
def timesAsked (g : Forest) (as : List Application) (k : NodeId) (nt : Nonterminal) : Nat :=
  (as.flatMap fun a ↦ a.rule.pattern.leaves g a.node).count (k, nt)

theorem timesMade_append (as as' : List Application) (k : NodeId) (nt : Nonterminal) :
    timesMade (as ++ as') k nt = timesMade as k nt + timesMade as' k nt := List.countP_append

theorem timesAsked_append (g : Forest) (as as' : List Application) (k : NodeId) (nt : Nonterminal) :
    timesAsked g (as ++ as') k nt = timesAsked g as k nt + timesAsked g as' k nt := by
  rw [timesAsked, List.flatMap_append, List.count_append, timesAsked, timesAsked]

theorem timesMade_pos : 0 < timesMade as k nt ↔ ∃ a ∈ as, a.node = k ∧ a.rule.lhs = nt := by
  rw [timesMade, List.countP_pos_iff]
  simp

theorem timesAsked_pos : 0 < timesAsked g as k nt ↔
    ∃ a ∈ as, (k, nt) ∈ a.rule.pattern.leaves g a.node := by
  rw [timesAsked, List.count_pos_iff, List.mem_flatMap]

/-- What is asked for only on the way to `nt'`, once each time, is asked for no more often than that is
made. -/
theorem timesAsked_le {nt' : Nonterminal} (h : ∀ a ∈ as, (k, nt) ∈ a.rule.pattern.leaves g a.node →
      a.node = k ∧ a.rule.lhs = nt' ∧ a.rule.pattern.leaves g a.node = [(k, nt)]) :
    timesAsked g as k nt ≤ timesMade as k nt' := by
  induction as with
  | nil => exact Nat.le_refl 0
  | cons a as ih =>
    obtain ⟨ha, has⟩ := List.forall_mem_cons.mp h
    rw [← List.singleton_append, timesAsked_append, timesMade_append]
    refine Nat.add_le_add ?_ (ih has)
    rw [timesAsked, List.flatMap_singleton, timesMade, List.countP_singleton]
    by_cases hleaf : (k, nt) ∈ a.rule.pattern.leaves g a.node
    · obtain ⟨hnode, hlhs, hleaves⟩ := ha hleaf
      rw [hleaves, if_pos (by simp [hnode, hlhs]), List.count_singleton_self]
    · rw [List.count_eq_zero.mpr hleaf]
      exact Nat.zero_le _

/-- What is made once at most, one application makes. -/
theorem eq_of_timesMade (h : timesMade as k nt ≤ 1) {a' : Application} (ha : a ∈ as) (ha' : a' ∈ as)
    (hnode : a.node = k) (hlhs : a.rule.lhs = nt) (hnode' : a'.node = k) (hlhs' : a'.rule.lhs = nt) :
    a = a' := by
  rw [timesMade, List.countP_eq_length_filter] at h
  have hmem : ∀ a ∈ as, a.node = k → a.rule.lhs = nt →
      a ∈ as.filter fun a ↦ a.node = k ∧ a.rule.lhs = nt := fun a ha hnode hlhs ↦
    List.mem_filter.mpr ⟨ha, by simp [hnode, hlhs]⟩
  have ha := hmem a ha hnode hlhs
  have ha' := hmem a' ha' hnode' hlhs'
  generalize as.filter (fun a ↦ decide (a.node = k ∧ a.rule.lhs = nt)) = only at h ha ha'
  cases only with
  | nil => exact absurd ha List.not_mem_nil
  | cons b rest =>
    obtain rfl := List.length_eq_zero_iff.mp (Nat.le_zero.mp (Nat.le_of_succ_le_succ h))
    exact (List.mem_singleton.mp ha).trans (List.mem_singleton.mp ha').symm

/-! ## Histories -/

/-- What the applications `as`, made in this order from `f` to `f'` to reduce `goals`, tell about nodes;
`g` is the forest at the beginning of all. -/
structure History (g f f' : Forest) (goals : List (NodeId × Nonterminal)) (as : List Application) :
    Prop where
  skeleton : f.SameSkeleton f'
  retains : f.Retains f'
  /-- What is computed is an instruction that has been reduced to a register, … -/
  computes : ∀ k, (f'.node k).computed = true → (f.node k).computed = true ∨
    (∃ o, (g.node k).op = .inst o) ∧ 0 < timesMade as k .reg
  /-- … once, if it has a value. -/
  registers : ∀ k, g.HasValue k → (g.node k).op ≠ .phiDef →
    timesMade as k .reg + (f.node k).computed.toNat = (f'.node k).computed.toNat
  asked : ∀ k nt, timesMade as k nt ≤ timesAsked g as k nt + goals.count (k, nt)
  takes : ∀ a ∈ as, List.Forall₂ (Taken g f') (a.rule.pattern.leaves g a.node) a.kids
  results : ∀ a ∈ as, a.rule.lhs ≠ .stmt → Taken g f' (a.node, a.rule.lhs) a.result
  opens : ∀ p, (f'.node p).kidsReleased = true → (f.node p).kidsReleased = true ∨
    ∃ a ∈ as, a.rule.Opens g a.node p

namespace History

theorem nil (g f : Forest) (goals : List (NodeId × Nonterminal)) : History g f f goals [] where
  skeleton := .refl f
  retains := .refl f
  computes _ hk := Or.inl hk
  registers _ _ _ := Nat.zero_add _
  asked _ _ := Nat.zero_le _
  takes _ ha := absurd ha List.not_mem_nil
  results _ ha := absurd ha List.not_mem_nil
  opens _ hp := Or.inl hp

theorem append (h : History g f f' goals as) (h' : History g f' f'' goals' as') :
    History g f f'' (goals ++ goals') (as ++ as') where
  skeleton := h.skeleton.trans h'.skeleton
  retains := h.retains.trans h'.retains
  computes k hk := by
    rw [timesMade_append]
    rcases h'.computes k hk with hk | ⟨hop, hmade⟩
    · refine (h.computes k hk).imp_right fun ⟨hop, hmade⟩ ↦ ⟨hop, ?_⟩
      exact Nat.lt_of_lt_of_le hmade (Nat.le_add_right _ _)
    · exact Or.inr ⟨hop, Nat.lt_of_lt_of_le hmade (Nat.le_add_left _ _)⟩
  registers k hvalue hphi := by
    have hfirst := h.registers k hvalue hphi
    have hsecond := h'.registers k hvalue hphi
    rw [timesMade_append]
    omega
  asked k nt := by
    have hfirst := h.asked k nt
    have hsecond := h'.asked k nt
    rw [timesMade_append, timesAsked_append, List.count_append]
    omega
  takes a ha := by
    rcases List.mem_append.mp ha with ha | ha
    · exact (h.takes a ha).imp fun _ _ hb ↦ hb.later h'.retains
    · exact h'.takes a ha
  results a ha hstmt := by
    rcases List.mem_append.mp ha with ha | ha
    · exact (h.results a ha hstmt).later h'.retains
    · exact h'.results a ha hstmt
  opens p hp := by
    rcases h'.opens p hp with hp | ⟨a, ha, hopens⟩
    · refine (h.opens p hp).imp_right fun ⟨a, ha, hopens⟩ ↦ ?_
      exact ⟨a, List.mem_append_left _ ha, hopens⟩
    · exact Or.inr ⟨a, List.mem_append_right _ ha, hopens⟩

/-- One more application, at the end of a reduction: its leaves have been taken in `taken`, and have been
reduced from there to `f'`. -/
theorem snoc {taken : Forest} (h : History g taken f' (a.rule.pattern.leaves g a.node) as)
    (htaken : f.SameSkeleton taken) (hvalues : f.SameValues taken)
    (hopens : ∀ p, (taken.node p).kidsReleased = true → (f.node p).kidsReleased = true ∨
      a.rule.Opens g a.node p)
    (hkids : List.Forall₂ (Taken g f') (a.rule.pattern.leaves g a.node) a.kids)
    (hskeleton : f'.SameSkeleton f'') (hretains : f'.Retains f'')
    (hcomputes : ∀ k, (f''.node k).computed = true → (f'.node k).computed = true ∨
      k = a.node ∧ a.rule.lhs = .reg ∧ ∃ o, (g.node a.node).op = .inst o)
    (hresult : a.rule.lhs ≠ .stmt → Taken g f'' (a.node, a.rule.lhs) a.result)
    (hregisters : a.rule.lhs = .reg → g.HasValue a.node → (g.node a.node).op ≠ .phiDef →
      (f'.node a.node).computed = false ∧ (f''.node a.node).computed = true)
    (hreleased : ∀ p, (f''.node p).kidsReleased = (f'.node p).kidsReleased) :
    History g f f'' [(a.node, a.rule.lhs)] (as ++ [a]) where
  skeleton := (htaken.trans h.skeleton).trans hskeleton
  retains := ((Forest.Retains.of_sameValues hvalues).trans h.retains).trans hretains
  computes k hk := by
    rw [timesMade_append]
    rcases hcomputes k hk with hk | ⟨rfl, hlhs, hop⟩
    · rcases h.computes k hk with hk | ⟨hop, hmade⟩
      · exact Or.inl ((hvalues k).computed.symm.trans hk)
      · exact Or.inr ⟨hop, Nat.lt_of_lt_of_le hmade (Nat.le_add_right _ _)⟩
    · refine Or.inr ⟨hop, Nat.lt_of_lt_of_le ?_ (Nat.le_add_left _ _)⟩
      exact timesMade_pos.mpr ⟨a, List.mem_singleton_self a, rfl, hlhs⟩
  registers k hvalue hphi := by
    have hfirst := h.registers k hvalue hphi
    rw [(hvalues k).computed] at hfirst
    rw [timesMade_append, Nat.add_right_comm, hfirst]
    by_cases hk : a.node = k ∧ a.rule.lhs = .reg
    · obtain ⟨rfl, hlhs⟩ := hk
      obtain ⟨hbefore, hafter⟩ := hregisters hlhs hvalue hphi
      rw [hbefore, hafter, timesMade, List.countP_singleton, if_pos (by simp [hlhs])]
      rfl
    · have hsame : (f''.node k).computed = (f'.node k).computed := by
        cases hc : (f''.node k).computed with
        | true =>
          refine ((hcomputes k hc).resolve_right fun ⟨hk', hlhs, _⟩ ↦ hk ⟨hk'.symm, hlhs⟩).symm
        | false => exact (hretains.not_computed hc).symm
      rw [hsame, timesMade, List.countP_singleton, if_neg (by simpa using hk), Nat.add_zero]
  asked k nt := by
    have hfirst := h.asked k nt
    have hone : timesMade [a] k nt = [(a.node, a.rule.lhs)].count (k, nt) := by
      rw [timesMade, List.countP_singleton, List.count_singleton]
      simp only [decide_eq_true_eq, beq_iff_eq, Prod.mk.injEq]
    rw [timesMade_append, timesAsked_append, hone, timesAsked, timesAsked, List.flatMap_singleton]
    rw [timesAsked] at hfirst
    omega
  takes a' ha' := by
    rcases List.mem_append.mp ha' with ha' | ha'
    · exact (h.takes a' ha').imp fun _ _ hb ↦ hb.later hretains
    · rw [List.mem_singleton.mp ha']
      exact hkids.imp fun _ _ hb ↦ hb.later hretains
  results a' ha' hstmt := by
    rcases List.mem_append.mp ha' with ha' | ha'
    · exact (h.results a' ha' hstmt).later hretains
    · obtain rfl := List.mem_singleton.mp ha'
      exact hresult hstmt
  opens p hp := by
    rw [hreleased] at hp
    rcases h.opens p hp with hp | ⟨a', ha', hopen⟩
    · exact (hopens p hp).imp_right fun hopen ↦ ⟨a, List.mem_append_right _ (by simp), hopen⟩
    · exact Or.inr ⟨a', List.mem_append_left _ ha', hopen⟩

end History

/-! ## Reductions -/

/-- The applications that reductions of `goals` from `w` to `w'` make, in order, along the labels `ls`. -/
structure Recounts (g : Forest) (ls : Labels) (rank : NodeId → Nat) (makes : Application → Prop)
    (goals : List (NodeId × Nonterminal)) (w w' : Workspace) (as : List Application) : Prop where
  mem : ∀ a, makes a ↔ a ∈ as
  history : History g w.forest w'.forest goals as
  rule : ∀ a ∈ as, ls.rule? a.node a.rule.lhs = some a.rule
  lower : ∀ a ∈ as, ∃ goal ∈ goals, 3 * rank a.node + ls.depth a.node a.rule.lhs ≤
    3 * rank goal.1 + ls.depth goal.1 goal.2

/-- The end of a reduction marks its node at most, and only for a register. -/
theorem Work.settle_forest {w w' : Workspace} (h : settle k nt b w = .ok b w') :
    w.forest.SameSkeleton w'.forest ∧
      (∀ p, (w'.forest.node p).kidsReleased = (w.forest.node p).kidsReleased) ∧
      (∀ p, (w'.forest.node p).computed = (w.forest.node p).computed ∧
          (w'.forest.node p).slot = (w.forest.node p).slot ∨
        p = k ∧ nt = .reg ∧ ∃ o, (w.forest.node k).op = .inst o) := by
  rcases (settle_eq_ok h).2 with rfl | ⟨v, o, hnt, -, hop, rfl⟩
  · exact ⟨.refl _, fun _ ↦ rfl, fun _ ↦ Or.inl ⟨rfl, rfl⟩⟩
  · refine ⟨w.forest.sameSkeleton_update k fun _ ↦ rfl, fun p ↦ ?_, fun p ↦ ?_⟩
    · rcases w.forest.node_update_cases k p fun n ↦
        { n with computed := true, slot := .vreg v, roles := { n.roles with register := true } }
        with ⟨rfl, hnode⟩ | hnode <;> rw [hnode]
    · rcases w.forest.node_update_cases k p fun n ↦
        { n with computed := true, slot := .vreg v, roles := { n.roles with register := true } }
        with ⟨rfl, -⟩ | hnode
      · exact Or.inr ⟨rfl, hnt, o, hop⟩
      · exact Or.inl ⟨congrArg Node.computed hnode, congrArg Node.slot hnode⟩

/-- A reduction to a register, that does not find one, starts at a node without one. -/
theorem Underway.not_computed {o : Opcode} (hw : Underway g ls w)
    (hreuse : (w.forest.node k).reuse? .reg = none) (hop : (g.node k).op = .inst o) :
    (w.forest.node k).computed = false := by
  refine Bool.eq_false_iff.mpr fun hcomputed ↦ ?_
  obtain ⟨x, hslot⟩ := (hw.later.complete.slotted k).computed hcomputed
  exact Node.reuse?_isSome hcomputed ((hw.later.skeleton.op k).trans hop) hslot (by simp) hreuse

section

variable (hfalls : g.Falling (fun k ↦ g.owner k = k) rank) (hls : ls.Derives g)
include hfalls hls

/-- One leaf after the other. -/
theorem reduceLeaves_history (hleaves : ∀ leaf ∈ leaves, g.owner leaf.1 = leaf.1 ∧ leaf.2 ≠ .stmt)
    (ih : ∀ {id nt w b w'}, Underway g ls w → reduceFrom fuel id nt w = .ok b w' → ∃ as,
      Recounts g ls rank (ReductionMakes fuel id nt w) [(g.owner id, nt)] w w' as ∧
        (nt ≠ .stmt → Taken g w'.forest (g.owner id, nt) b))
    (hw : Underway g ls w) (hrun : leaves.mapM (reduceLeaf fuel) w = .ok kids w') :
    ∃ as, Recounts g ls rank (LeavesMake fuel leaves w) leaves w w' as ∧
      List.Forall₂ (Taken g w'.forest) leaves kids ∧ Underway g ls w' := by
  induction leaves generalizing w kids with
  | nil =>
    obtain ⟨rfl, rfl⟩ := mapM_nil_eq_ok.mp hrun
    exact ⟨[], ⟨fun a ↦ ⟨fun ha ↦ absurd ha not_leavesMake_nil, fun ha ↦ absurd ha List.not_mem_nil⟩,
      .nil g _ [], fun _ ha ↦ absurd ha List.not_mem_nil, fun _ ha ↦ absurd ha List.not_mem_nil⟩,
      .nil, hw⟩
  | cons leaf leaves ihl =>
    obtain ⟨b, v, bs, hleaf, hrest, rfl⟩ := mapM_cons_eq_ok.mp hrun
    obtain ⟨⟨howner, hstmt⟩, hleaves⟩ := List.forall_mem_cons.mp hleaves
    obtain ⟨as, has, htaken⟩ := ih hw hleaf
    rw [howner] at has htaken
    obtain ⟨as', has', hrests, hw'⟩ := ihl hleaves (hw.reduceFrom hfalls hls hleaf) hrest
    refine ⟨as ++ as', ⟨fun a ↦ ?_, has.history.append has'.history, ?_, ?_⟩,
      .cons ((htaken hstmt).later has'.history.retains) hrests, hw'⟩
    · rw [leavesMake_cons hleaf, has.mem, has'.mem, List.mem_append]
    · exact List.forall_mem_append.mpr ⟨has.rule, has'.rule⟩
    · refine List.forall_mem_append.mpr ⟨fun a ha ↦ ?_, fun a ha ↦ ?_⟩
      · obtain ⟨goal, hgoal, hle⟩ := has.lower a ha
        exact ⟨goal, List.mem_cons.mpr (Or.inl (List.mem_singleton.mp hgoal)), hle⟩
      · obtain ⟨goal, hgoal, hle⟩ := has'.lower a ha
        exact ⟨goal, List.mem_cons_of_mem _ hgoal, hle⟩

/-- **Reductions.** A reduction that succeeds makes a list of applications, which have a history, and takes
the value of its node. -/
theorem reduceFrom_history (hregisters : ∀ k, (g.node k).head? = some .inRegister →
      (∃ o, (g.node k).op = .inst o) ∨ (g.node k).kids = [])
    (hw : Underway g ls w) (hrun : reduceFrom fuel id nt w = .ok b w') : ∃ as,
      Recounts g ls rank (ReductionMakes fuel id nt w) [(g.owner id, nt)] w w' as ∧
        (nt ≠ .stmt → Taken g w'.forest (g.owner id, nt) b) := by
  induction fuel generalizing id nt w b w' with
  | zero => exact absurd hrun failCovering_ne_ok
  | succ fuel ih =>
    rcases reduceFrom_eq_ok hrun with ⟨hreuse, rfl⟩ | ⟨a, hends, rfl, hsettle⟩
    · refine ⟨[], ⟨fun a ↦ ?_, .nil g _ _, fun _ ha ↦ absurd ha List.not_mem_nil,
        fun _ ha ↦ absurd ha List.not_mem_nil⟩, .of_reuse ?_⟩
      · exact ⟨fun ha ↦ absurd ha (not_makes_of_reuse hreuse), fun ha ↦ absurd ha List.not_mem_nil⟩
      · rwa [hw.later.skeleton.owner] at hreuse
    · have hskeleton := hw.later.skeleton
      have hnode : a.node = g.owner id := hends.node.trans (hskeleton.owner id)
      have hself : g.owner a.node = a.node := hnode ▸ hw.later.flat.owner_owner id
      have hrule : ls.rule? a.node nt = some a.rule := hw.labels ▸ hends.rule
      obtain ⟨hmatches, rfl⟩ := hls.sound.rule hrule
      have hfst := a.rule.pattern.takeLeaves_fst a.node w.forest hskeleton
      have hlower := leaves_lower hfalls hls hrule hself
      have hpending : (w.forest.node a.node).reuse? a.rule.lhs = none := hends.node ▸ hends.pending
      -- the leaves
      have htook : Underway g ls (w.took a.rule a.node a.rule.lhs) :=
        ⟨hw.labels, (keptByReduction_later g _).takeLeaves hfalls.closed a.rule.pattern a.node w.forest
          hskeleton hself hw.later⟩
      have hkids := hends.kids
      rw [hfst] at hkids
      obtain ⟨as, has, htaken, hbefore⟩ := reduceLeaves_history hfalls hls (fun leaf hleaf ↦
        ⟨(hlower leaf hleaf).1, fun hstmt ↦ Grammar.goals_rules a.rule hmatches.mem
          (hstmt ▸ a.rule.pattern.goal_mem a.node w.forest leaf (hfst ▸ hleaf))⟩) ih htook hkids
      -- the application
      have hroles := sameButRoles_applyRule a.runs
      have hvalue := a.taken hls hrule hbefore.later.skeleton hbefore.later.complete.slotted htaken
        hsettle
      obtain ⟨hsame, hreleased, hmarked⟩ := settle_forest hsettle
      have hnew : a.rule.lhs = .reg → (∃ o, (g.node a.node).op = .inst o) →
          (a.before.forest.node a.node).computed = false := by
        rintro hlhs ⟨o, ho⟩
        refine Bool.eq_false_iff.mpr fun hcomputed ↦ ?_
        rw [hlhs] at hpending
        have hstart := hw.not_computed hpending ho
        rcases has.history.computes a.node hcomputed with hcomputed | ⟨-, hmade⟩
        · exact Bool.false_ne_true (hstart.symm.trans
            (((w.forest.sameValues_takeLeaves a.rule.pattern a.node) a.node).computed.symm.trans hcomputed))
        · -- nothing below the node leads back to it
          obtain ⟨a', ha', hnode', hlhs'⟩ := timesMade_pos.mp hmade
          obtain ⟨leaf, hleaf, hle⟩ := has.lower a' ha'
          rw [hnode', hlhs', ← hlhs] at hle
          exact absurd (hlower leaf hleaf).2 (Nat.not_lt.mpr hle)
      have hkept : ∀ p, (w'.forest.node p).computed = (a.before.forest.node p).computed ∧
          (w'.forest.node p).slot = (a.before.forest.node p).slot ∨
          p = a.node ∧ a.rule.lhs = .reg ∧ ∃ o, (g.node a.node).op = .inst o := by
        intro p
        rcases hmarked p with ⟨hcomputed, hslot⟩ | ⟨hp, hlhs, o, ho⟩
        · exact Or.inl ⟨hcomputed.trans (hroles.sameValues p).computed,
            hslot.trans (hroles.sameValues p).slot⟩
        · refine Or.inr ⟨hp, hlhs, o, ?_⟩
          rw [← hbefore.later.skeleton.op, ← (hroles.sameValues a.node).op]
          exact ho
      have hopens : ∀ p, ((w.took a.rule a.node a.rule.lhs).forest.node p).kidsReleased = true →
          (w.forest.node p).kidsReleased = true ∨ a.rule.Opens g a.node p := by
        refine fun p hp ↦ hmatches.opens hskeleton (fun haction ↦ ?_) hp
        obtain ⟨hlhs, hleaf⟩ := Grammar.tile_register a.rule hmatches.mem haction
        have hhead := hmatches.fits.head? (Pattern.leaves_of_isLeaf (k := a.node) (f := g) hleaf).2
        refine (hregisters a.node hhead).resolve_left fun ⟨o, ho⟩ ↦ ?_
        rw [hlhs] at hpending
        have hcomputed := (head?_inRegister hhead).resolve_right (by simp [ho])
        exact Bool.false_ne_true ((hw.not_computed hpending ho).symm.trans
          (hw.later.computed a.node hcomputed))
      refine ⟨as ++ [a], ⟨fun a' ↦ ?_, hnode ▸ has.history.snoc
        (a.rule.pattern.sameSkeleton_takeLeaves a.node w.forest)
        (w.forest.sameValues_takeLeaves a.rule.pattern a.node) hopens htaken
        ((Forest.sameSkeleton_roles hroles).trans hsame) ?_ ?_ hvalue ?_ ?_, ?_, ?_⟩, hnode ▸ hvalue⟩
      · rw [makes_iff hends, hfst, has.mem, List.mem_append, List.mem_singleton]
      · intro p hp
        rcases hkept p with ⟨hcomputed, hslot⟩ | ⟨rfl, hlhs, hop⟩
        · exact ⟨hcomputed.trans hp, hslot⟩
        · exact absurd hp (by rw [hnew hlhs hop]; exact Bool.false_ne_true)
      · intro p hp
        exact (hkept p).imp_left fun ⟨hcomputed, _⟩ ↦ hcomputed.symm.trans hp
      · intro hlhs hhas hphi
        have hop := (hhas.resolve_left hphi).1
        obtain ⟨x, hcomputed, -⟩ := (hvalue (by simp [hlhs]) hhas).resolve_right fun hinlines ↦ by
          rw [hlhs] at hinlines
          exact hinlines.2
        exact ⟨hnew hlhs hop, hcomputed⟩
      · intro p
        obtain ⟨roles, hp⟩ := hroles.2 p
        rw [hreleased, hp]
      · exact List.forall_mem_append.mpr ⟨has.rule, List.forall_mem_singleton.mpr hrule⟩
      · refine List.forall_mem_append.mpr ⟨fun a' ha' ↦ ?_, ?_⟩
        · obtain ⟨leaf, hleaf, hle⟩ := has.lower a' ha'
          exact ⟨_, List.mem_singleton_self _,
            Nat.le_trans hle (Nat.le_of_lt (hnode ▸ (hlower leaf hleaf).2))⟩
        · exact List.forall_mem_singleton.mpr ⟨_, List.mem_singleton_self _, hnode ▸ Nat.le_refl _⟩

end

end TreeCover
