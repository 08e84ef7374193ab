import TreeCover.Proofs.Forest.Accesses
import TreeCover.Proofs.Tiling.Comparisons
import TreeCover.Proofs.Tiling.PhiInputs

/-!
# Trails

Reductions nest: the applications that reduce the leaves of a rule come before the application of the
rule. A trail is the list of all applications of some reductions that follow one another, in the order in
which they are made.
-/

namespace TreeCover

open Ir Machine Work

variable {g : Forest} {k r p : NodeId} {nt : Nonterminal} {goals goals' leaves : List (NodeId × Nonterminal)}
  {as as' : List Application} {a : Application} {ls : Labels} {rank : NodeId → Nat} {fuel : Nat}
  {id : NodeId} {w w' v : Workspace} {b : Bound} {bs bs' kids : List Bound}

/-! ## Trails -/

/-- The reductions of some goals one after the other, along labels for the forest `g`: each finds its
result, or makes applications for the leaves of its rule and then the application of the rule. -/
inductive Trail (g : Forest) (ls : Labels) :
    List (NodeId × Nonterminal) → Workspace → List Bound → Workspace → List Application → Prop
  | nil {w : Workspace} : Trail g ls [] w [] w []
  | found {k : NodeId} {nt : Nonterminal} {goals : List (NodeId × Nonterminal)} {w w' : Workspace}
      {b : Bound} {bs : List Bound} {as : List Application} (underway : Underway g ls w)
      (found : (w.forest.node k).reuse? nt = some b) (rest : Trail g ls goals w bs w' as) :
      Trail g ls ((k, nt) :: goals) w (b :: bs) w' as
  | made {goals : List (NodeId × Nonterminal)} {w u w' : Workspace} {a : Application}
      {bs : List Bound} {as as' : List Application} (underway : Underway g ls w)
      (ready : Underway g ls a.before) (self : g.owner a.node = a.node)
      (pending : (w.forest.node a.node).reuse? a.rule.lhs = none)
      (rule : ls.rule? a.node a.rule.lhs = some a.rule)
      (leaves : Trail g ls (a.rule.pattern.leaves g a.node) (w.took a.rule a.node a.rule.lhs) a.kids
        a.before as)
      (settles : settle a.node a.rule.lhs a.result a.after = .ok a.result u)
      (rest : Trail g ls goals u bs w' as') :
      Trail g ls ((a.node, a.rule.lhs) :: goals) w (a.result :: bs) w' (as ++ a :: as')

namespace Trail

theorem append (h : Trail g ls goals w bs v as) (h' : Trail g ls goals' v bs' w' as') :
    Trail g ls (goals ++ goals') w (bs ++ bs') w' (as ++ as') := by
  induction h with
  | nil => exact h'
  | found underway hfound _ ih => exact .found underway hfound (ih h')
  | made underway ready self pending rule leaves settles _ _ ih =>
    rw [List.append_assoc, List.cons_append]
    exact .made underway ready self pending rule leaves settles (ih h')

/-- One result for each goal. -/
theorem length (h : Trail g ls goals w bs w' as) : goals.length = bs.length := by
  induction h with
  | nil => rfl
  | found _ _ _ ih => exact congrArg (· + 1) ih
  | made _ _ _ _ _ _ _ _ _ ih => exact congrArg (· + 1) ih

end Trail

/-! ## Reductions -/

section

variable (hfalls : g.Falling (fun k ↦ g.owner k = k) rank) (hls : ls.Derives g)
include hfalls hls

/-- One leaf after the other. -/
theorem reduceLeaves_trail (hleaves : ∀ leaf ∈ leaves, g.owner leaf.1 = leaf.1)
    (ih : ∀ {id nt w b w'}, Underway g ls w → reduceFrom fuel id nt w = .ok b w' → ∃ as,
      Trail g ls [(g.owner id, nt)] w [b] w' as ∧ ∀ a, ReductionMakes fuel id nt w a ↔ a ∈ as)
    (hw : Underway g ls w) (hrun : leaves.mapM (reduceLeaf fuel) w = .ok kids w') :
    ∃ as, Trail g ls leaves w kids w' as ∧ (∀ a, LeavesMake fuel leaves w a ↔ a ∈ as) ∧
      Underway g ls w' := by
  induction leaves generalizing w kids with
  | nil =>
    obtain ⟨rfl, rfl⟩ := mapM_nil_eq_ok.mp hrun
    exact ⟨[], .nil, fun a ↦ ⟨fun ha ↦ absurd ha not_leavesMake_nil,
      fun ha ↦ absurd ha List.not_mem_nil⟩, hw⟩
  | cons leaf leaves ihl =>
    obtain ⟨b, v, bs, hleaf, hrest, rfl⟩ := mapM_cons_eq_ok.mp hrun
    obtain ⟨howner, hleaves⟩ := List.forall_mem_cons.mp hleaves
    obtain ⟨as, htrail, hmem⟩ := ih hw hleaf
    rw [howner] at htrail
    obtain ⟨as', htrail', hmem', hw'⟩ := ihl hleaves (hw.reduceFrom hfalls hls hleaf) hrest
    refine ⟨as ++ as', htrail.append htrail', fun a ↦ ?_, hw'⟩
    rw [leavesMake_cons hleaf, hmem, hmem', List.mem_append]

/-- **Reductions.** A reduction that succeeds leaves a trail of what it makes. -/
theorem reduceFrom_trail (hw : Underway g ls w) (hrun : reduceFrom fuel id nt w = .ok b w') :
    ∃ as, Trail g ls [(g.owner id, nt)] w [b] w' as ∧ ∀ a, ReductionMakes fuel id nt w a ↔ a ∈ as := by
  induction fuel generalizing id nt w b w' with
  | zero => exact absurd hrun failCovering_ne_ok
  | succ fuel ih =>
    rcases reduceFrom_eq_ok hrun with ⟨hreuse, rfl⟩ | ⟨a, hends, rfl, hsettle⟩
    · refine ⟨[], .found hw (hw.later.skeleton.owner id ▸ hreuse) .nil, fun a ↦ ?_⟩
      exact ⟨fun ha ↦ absurd ha (not_makes_of_reuse hreuse), fun ha ↦ absurd ha List.not_mem_nil⟩
    · have hskeleton := hw.later.skeleton
      have hnode : a.node = g.owner id := hends.node.trans (hskeleton.owner id)
      have hself : g.owner a.node = a.node := hnode ▸ hw.later.flat.owner_owner id
      have hrule : ls.rule? a.node nt = some a.rule := hw.labels ▸ hends.rule
      obtain ⟨-, rfl⟩ := hls.sound.rule hrule
      have hfst := a.rule.pattern.takeLeaves_fst a.node w.forest hskeleton
      have htook : Underway g ls (w.took a.rule a.node a.rule.lhs) :=
        ⟨hw.labels, (keptByReduction_later g _).takeLeaves hfalls.closed a.rule.pattern a.node w.forest
          hskeleton hself hw.later⟩
      have hkids := hends.kids
      rw [hfst] at hkids
      obtain ⟨as, htrail, hmem, hready⟩ := reduceLeaves_trail hfalls hls
        (fun leaf hleaf ↦ (leaves_lower hfalls hls hrule hself leaf hleaf).1) ih htook hkids
      refine ⟨as ++ a :: [], ?_, fun a' ↦ ?_⟩
      · rw [← hnode]
        exact .made hw hready hself (hends.node ▸ hends.pending) hrule htrail hsettle .nil
      · rw [makes_iff hends, hfst, hmem, List.mem_append, List.mem_singleton]

end

/-! ## Places in a tree -/

/-- A child of what is pending under `r`, or `r` itself. -/
def Forest.Beneath (g : Forest) (r q : NodeId) : Prop := q = r ∨ ∃ p, g.HangsBelow r p ∧ q ∈ g.kidOwners p

theorem Forest.Beneath.hangsBelow (h : g.Beneath r k) (hk : (g.node k).computed = false) :
    g.HangsBelow r k := by
  rcases h with rfl | ⟨p, hp, hkid⟩
  · exact .refl hk
  · exact hp.tail ⟨hkid, hk⟩

/-- The node of a rule that takes leaves and is no chain rule is pending; a leaf is a child of it, or of a
child that is pending. -/
theorem Rule.Matches.leaf_cases {rule : Rule} {leaf : NodeId × Nonterminal} (hmatches : rule.Matches g k)
    (hsource : rule.pattern.source? = none) (hleaf : leaf ∈ rule.pattern.leaves g k) :
    (g.node k).computed = false ∧ (leaf.1 ∈ g.kidOwners k ∨
      ∃ t ∈ g.kidOwners k, (g.node t).computed = false ∧ leaf.1 ∈ g.kidOwners t) := by
  have hnew : (g.node k).computed = false := by
    refine Bool.eq_false_iff.mpr fun hcomputed ↦ ?_
    obtain ⟨h, hh⟩ := Pattern.head?_of_source hsource
    obtain rfl : h = .inRegister :=
      Option.some.inj ((hmatches.fits.head? hh).symm.trans (head?_computed hcomputed))
    have haction := Grammar.action_of_inRegister rule hmatches.mem hh
    have hnone := (Pattern.leaves_of_isLeaf (k := k) (f := g)
      (Grammar.tile_register rule hmatches.mem haction).2).1
    rw [rule.pattern.takeLeaves_fst k g (.refl g)] at hnone
    exact absurd (hnone ▸ hleaf) List.not_mem_nil
  refine ⟨hnew, ?_⟩
  rcases Grammar.shapes rule hmatches.mem with hsome | hargs | hscaled | hflat
  · exact absurd hsome (by simp [hsource])
  · rw [← rule.pattern.takeLeaves_fst k g (.refl g), Pattern.leaves_of_isArguments hargs (.refl g)] at hleaf
    obtain ⟨c, hc, rfl⟩ := List.mem_map.mp hleaf
    exact Or.inl hc
  · obtain ⟨a, t, x, y, -, hleaves, hkids, hkids', ht, -⟩ :=
      Pattern.takeLeaves_of_isScaledIndex hscaled hmatches.fits (.refl g)
    simp only [hleaves, List.mem_cons, List.not_mem_nil, or_false] at hleaf
    rcases hleaf with rfl | rfl | rfl
    · exact Or.inl (by simp [hkids])
    · exact Or.inr ⟨t, by simp [hkids], ht, by simp [hkids']⟩
    · exact Or.inr ⟨t, by simp [hkids], ht, by simp [hkids']⟩
  · exact Or.inl (Pattern.kid_of_flat hflat hleaf)

/-- A rule at a place in a tree takes its leaves from there. -/
theorem Forest.Beneath.leaf {rule : Rule} {leaf : NodeId × Nonterminal} (h : g.Beneath r k)
    (hmatches : rule.Matches g k) (hleaf : leaf ∈ rule.pattern.leaves g k) : g.Beneath r leaf.1 := by
  cases hsource : rule.pattern.source? with
  | some s =>
    rw [← rule.pattern.takeLeaves_fst k g (.refl g), Pattern.leaves_of_source hsource,
      List.mem_singleton] at hleaf
    exact hleaf ▸ h
  | none =>
    obtain ⟨hnew, hkid | ⟨t, ht, hnew', hkid⟩⟩ := hmatches.leaf_cases hsource hleaf
    · exact Or.inr ⟨k, h.hangsBelow hnew, hkid⟩
    · exact Or.inr ⟨t, (h.hangsBelow hnew).tail ⟨ht, hnew'⟩, hkid⟩

namespace Trail

section

variable (hls : ls.Derives g)
include hls

/-- What is made for goals in a tree is made in that tree. -/
theorem beneath (h : Trail g ls goals w bs w' as) (hgoals : ∀ goal ∈ goals, g.Beneath r goal.1) :
    ∀ a ∈ as, g.Beneath r a.node := by
  induction h with
  | nil => exact fun _ ha ↦ absurd ha List.not_mem_nil
  | found _ _ _ ih => exact ih (List.forall_mem_cons.mp hgoals).2
  | made _ _ _ _ rule _ _ _ ihl ihr =>
    obtain ⟨hnode, hgoals⟩ := List.forall_mem_cons.mp hgoals
    have hmatches := (hls.sound.rule rule).1
    exact List.forall_mem_append.mpr ⟨ihl fun leaf hleaf ↦ hnode.leaf hmatches hleaf,
      List.forall_mem_cons.mpr ⟨hnode, ihr hgoals⟩⟩

/-- The rules are those of the labels. -/
theorem matches_rule (h : Trail g ls goals w bs w' as) : ∀ a ∈ as, a.rule.Matches g a.node := by
  induction h with
  | nil => exact fun _ ha ↦ absurd ha List.not_mem_nil
  | found _ _ _ ih => exact ih
  | made _ _ _ _ rule _ _ _ ihl ihr =>
    exact List.forall_mem_append.mpr ⟨ihl, List.forall_mem_cons.mpr ⟨(hls.sound.rule rule).1, ihr⟩⟩

variable (hfalls : g.Falling (fun k ↦ g.owner k = k) rank)
include hfalls

/-- What is made for goals is made at nodes that are no higher. -/
theorem lower (h : Trail g ls goals w bs w' as) :
    ∀ a ∈ as, ∃ goal ∈ goals, 3 * rank a.node + ls.depth a.node a.rule.lhs ≤
      3 * rank goal.1 + ls.depth goal.1 goal.2 := by
  induction h with
  | nil => exact fun _ ha ↦ absurd ha List.not_mem_nil
  | found _ _ _ ih => exact fun a ha ↦ (ih a ha).imp fun _ h ↦ ⟨List.mem_cons_of_mem _ h.1, h.2⟩
  | made _ _ self _ rule _ _ _ ihl ihr =>
    refine List.forall_mem_append.mpr ⟨fun a' ha' ↦ ?_, List.forall_mem_cons.mpr
      ⟨⟨_, List.mem_cons_self, Nat.le_refl _⟩,
        fun a ha ↦ (ihr a ha).imp fun _ h ↦ ⟨List.mem_cons_of_mem _ h.1, h.2⟩⟩⟩
    obtain ⟨leaf, hleaf, hle⟩ := ihl a' ha'
    exact ⟨_, List.mem_cons_self,
      Nat.le_trans hle (Nat.le_of_lt (leaves_lower hfalls hls rule self leaf hleaf).2)⟩

/-- What is made for the leaves of a rule that is no chain rule is made at lower nodes. -/
theorem node_ne (h : Trail g ls (a.rule.pattern.leaves g k) w bs w' as) (hmatches : a.rule.Matches g k)
    (howner : g.owner k = k) (hsource : a.rule.pattern.source? = none) : ∀ a ∈ as, a.node ≠ k := by
  rintro a' ha' rfl
  obtain ⟨leaf, hleaf, hle⟩ := h.lower hls hfalls a' ha'
  have hlt := (leaves_below hfalls hmatches howner hsource leaf hleaf).2.1
  have hdepth := ls.depth_le leaf.1 leaf.2
  omega

end

/-- What is made for a node that is not computed: below it, then at it by a rule for its head, then by
chain rules. -/
structure Base (g : Forest) (ls : Labels) (k : NodeId) (below : List Application)
    (base : Application) (chains : List Application) : Prop where
  node : base.node = k
  head : base.rule.pattern.source? = none
  chains : ∀ a ∈ chains, a.node = k ∧ a.rule.pattern.source?.isSome = true
  leaves : ∃ u, Trail g ls (base.rule.pattern.leaves g k) u base.kids base.before below

theorem exists_base (h : Trail g ls [(k, nt)] w [b] w' as) (hnew : (w.forest.node k).computed = false) :
    ∃ below base chains, as = below ++ base :: chains ∧ Base g ls k below base chains := by
  generalize hgoals : [(k, nt)] = goals at h
  generalize hbs : [b] = bs at h
  induction h generalizing nt b with
  | nil => exact absurd hgoals (by simp)
  | found _ hfound _ _ =>
    obtain ⟨hgoal, -⟩ := List.cons.inj hgoals
    obtain ⟨rfl, rfl⟩ := Prod.mk.inj hgoal
    rw [Node.reuse?_of_not_computed hnew] at hfound
    exact absurd hfound (by simp)
  | @made goals w u w' a bs as as' underway _ _ _ _ leaves _ rest ihl _ =>
    obtain ⟨hgoal, rfl⟩ := List.cons.inj hgoals
    obtain ⟨rfl, -⟩ := Prod.mk.inj hgoal
    obtain ⟨-, rfl⟩ := List.cons.inj hbs
    cases rest
    cases hsource : a.rule.pattern.source? with
    | none => exact ⟨as, a, [], rfl, rfl, hsource, fun _ ha ↦ absurd ha List.not_mem_nil, _, leaves⟩
    | some s =>
      have hleaf : a.rule.pattern.leaves g a.node = [(a.node, s)] := by
        rw [← a.rule.pattern.takeLeaves_fst a.node g (.refl g), Pattern.leaves_of_source hsource]
      rw [hleaf] at leaves ihl
      obtain ⟨c, hkid⟩ := List.length_eq_one_iff.mp leaves.length.symm
      obtain ⟨below, base, chains, rfl, hbase⟩ := ihl
        (((w.forest.sameValues_takeLeaves a.rule.pattern a.node) a.node).computed.trans hnew) rfl hkid.symm
      refine ⟨below, base, chains ++ [a], by simp, hbase.node, hbase.head,
        List.forall_mem_append.mpr ⟨hbase.chains, ?_⟩, hbase.leaves⟩
      exact List.forall_mem_singleton.mpr ⟨rfl, by rw [hsource]; rfl⟩

/-! ## Code -/

end Trail

/-- An application appends its code to the block it is made in. -/
theorem Application.instsAt_after (a : Application) (b : Nat) : instsAt a.after.code.blocks b =
    instsAt a.before.code.blocks b ++ if b = a.block then a.code else [] := by
  by_cases hphi : a.rule.action = .phiInput
  · obtain ⟨owner, succ, dst, value, -, -, -, -, hafter⟩ := applyRule_phiInput hphi a.runs
    rw [a.code_phiInput hphi, ite_self, List.append_nil, hafter, Code.instsAt_addPhiInput]
  · obtain ⟨is, -, hemits, -⟩ := applyRule_expands a.runs hphi
    split
    next hb =>
      obtain ⟨js, hjs⟩ : ∃ js, instsAt a.after.code.blocks a.block =
          instsAt a.before.code.blocks a.block ++ js := by
        rw [instsAt, hemits.getElem?, instsAt]
        cases a.before.code.blocks[a.block]? with
        | none => exact ⟨[], rfl⟩
        | some x => exact ⟨is, by simp [block]⟩
      rw [hb, code_of_instsAt hjs, hjs]
    next hb => rw [List.append_nil, hemits.instsAt_of_ne hb]

theorem Work.code_settle (h : settle k nt b w = .ok b w') : w'.code = w.code := by
  rcases (settle_eq_ok h).2 with rfl | ⟨v, o, -, -, -, rfl⟩ <;> rfl

namespace Trail

/-- A trail is made in one block, to which the codes of its applications are appended. -/
theorem code (h : Trail g ls goals w bs w' as) : w'.code.current = w.code.current ∧
    (∀ a ∈ as, a.block = w.code.current) ∧ ∀ b, instsAt w'.code.blocks b =
      instsAt w.code.blocks b ++ if b = w.code.current then as.flatMap (·.code) else [] := by
  induction h with
  | nil => exact ⟨rfl, fun _ ha ↦ absurd ha List.not_mem_nil, fun _ ↦ by simp⟩
  | found _ _ _ ih => exact ih
  | @made _ w u _ a _ as as' _ _ _ _ _ _ settles _ ihl ihr =>
    obtain ⟨hcurrent, hblock, hinsts⟩ := ihl
    have hu := code_settle settles
    have hafter : u.code.current = w.code.current := by
      rw [hu, applyRule_current a.runs]
      exact hcurrent
    obtain ⟨hcurrent', hblock', hinsts'⟩ := ihr
    have hself : a.block = w.code.current := hcurrent
    refine ⟨hcurrent'.trans hafter, List.forall_mem_append.mpr ⟨hblock,
      List.forall_mem_cons.mpr ⟨hself, fun a ha ↦ (hblock' a ha).trans hafter⟩⟩, fun b ↦ ?_⟩
    rw [hinsts', hafter, hu, a.instsAt_after, hinsts, hself]
    change instsAt w.code.blocks b ++ (if b = w.code.current then _ else _) ++ _ ++ _ = _
    split
    next => simp
    next => simp

end Trail

/-! ## Visits -/

section

variable {f : Func} {s : Session} {trees : List (List NodeId)} {root : NodeId} {goal : Nonterminal}
  {u u' v' : Workspace} {x : Unit}

theorem Work.Comes.marked (hbuild : buildForest f (.start f s) = .ok trees w)
    (hcomes : Comes trees w root v) : Marked w v := by
  obtain ⟨hp, -⟩ := buildForest_planted hbuild
  obtain ⟨V, _, as, hchronicle, -⟩ := comes_chronicle hbuild hcomes
  obtain ⟨-, -, -, -, hcomplete⟩ :=
    (keptByVisits_complete hp.building.flat trees.flatten).comes ⟨.refl _, hp.complete⟩ hcomes
  exact hchronicle.marked hp hcomplete

/-- What the visit of a root that is emitted makes, in order. -/
structure Traced (w v : Workspace) (root : NodeId) (as : List Application) (v' : Workspace)
    (goal : Nonterminal) (u : Workspace) (b : Bound) (u' : Workspace) : Prop where
  starts : Starts root goal v u
  skeleton : w.forest.SameSkeleton u.forest
  values : v.forest.SameValues u.forest
  derives : u.labels.Derives u.forest
  falls : u.forest.Falling (fun k ↦ u.forest.owner k = k) w.forest.rank
  trail : Trail u.forest u.labels [(root, goal)] u [b] u' as
  code : v'.code = u'.code
  forest : v'.forest = u'.forest

/-- **Visits.** A visit that succeeds leaves a trail of what it makes, unless it makes nothing. -/
theorem selectTree_trail (hp : Planted f trees w) (hv : Marked w v)
    (hvisit : selectTree root v = .ok x v') : ∃ as, (∀ a, VisitMakes root v a ↔ a ∈ as) ∧
      (as = [] ∧ (∀ goal u, ¬ Starts root goal v u) ∧ v'.code = v.code ∧
          v.forest.SameValues v'.forest ∨
        ∃ goal u b u', Traced w v root as v' goal u b u') := by
  rcases selectTree_eq_ok hvisit with
    ⟨hnone, hcode, hidle⟩ | ⟨goal, u, b, u', hstarts, hrun, hcode, hforest⟩
  · refine ⟨[], fun a ↦ ⟨?_, fun ha ↦ absurd ha List.not_mem_nil⟩, Or.inl ⟨rfl, hnone, hcode, ?_⟩⟩
    · rintro ⟨goal, u, hstarts, -⟩
      exact absurd hstarts (hnone goal u)
    · rcases hidle with ⟨-, hforest⟩ | ⟨v₁, hemit, hforest⟩
      · exact hforest ▸ .refl v.forest
      · obtain ⟨rfl, -⟩ := shouldEmit_ok hemit
        exact hforest ▸ v.forest.sameValues_refreshLevel root
  · obtain ⟨htarget, -, htree, -, -⟩ := hstarts.labeled
    obtain ⟨hskeleton, hvalues, -⟩ := hstarts.sameValues
    have hsame := hv.skeleton.trans hskeleton
    have hflat := hsame.flat hp.building.flat
    have hfalls := hp.falling hsame
    have hls : u.labels.Derives u.forest := derives_labelTree hfalls (hflat.owner_owner root) htree
    have hcomplete := hv.complete.same hskeleton (hv.complete.slotted.same hvalues)
    have howner : u.forest.owner root = root := by
      rw [hskeleton.owner]
      exact Forest.owner_of_target htarget
    obtain ⟨as, htrail, hmem⟩ := reduceFrom_trail hfalls hls ⟨rfl, .refl hflat hcomplete⟩ hrun
    rw [howner] at htrail
    exact ⟨as, fun a ↦ hstarts.visitMakes_iff.trans (hmem a), Or.inr ⟨goal, u, b, u', hstarts, hsame,
      hvalues, hls, hfalls, htrail, hcode, hforest⟩⟩

end

end TreeCover
