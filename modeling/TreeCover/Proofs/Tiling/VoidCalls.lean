import TreeCover.Proofs.Tiling.Trails

/-!
# Calls without a value

A call of no width gives nothing. Its consumer would be given nothing, and an action fails that looks at
what it is given; so if selection succeeds no call of no width has a consumer.
-/

namespace TreeCover

open Ir Machine Work

variable {f : Func} {s : Session} {trees : List (List NodeId)} {g : Forest} {k p c root : NodeId}
  {nt goal : Nonterminal} {goals : List (NodeId × Nonterminal)} {as : List Application} {a : Application}
  {ls : Labels} {w w' v : Workspace} {b : Bound} {bs kids : List Bound} {n : Node} {frame : Frame}
  {x : VReg} {action : Action} {is : List Machine.Inst} {r : Rule} {leaf : NodeId × Nonterminal} {z : Unit}

/-! ## What an action looks at -/

/-- How many results of leaves an action looks at. -/
def Action.inspected : Action → Nat
  | .immediate | .register | .memory | .label | .nothing | .discard | .frameSlot | .arguments => 0
  | .loadImm | .loadMem | .lea | .addrBase | .setCond | .memFromAddr | .load | .signExtend | .zeroExtend
  | .rename | .jump | .ret | .call | .phiInput => 1
  | .fold | .addrDisp | .store | .binary _ | .mulImm | .divide _ | .shift _ | .shiftByReg _ | .compare => 2
  | .addrIndex | .branchCond | .branchTest => 3

theorem Action.inspected_le (action : Action) : action.inspected ≤ 3 := by
  cases action <;> simp [inspected]

/-- None of them is nothing. -/
theorem Expands.inspects (h : Expands n frame kids x action is b) {i : Nat} (hi : i < action.inspected) :
    kids[i]? ≠ some .none := by
  intro hnone
  have hle := action.inspected_le
  obtain rfl | rfl | rfl : i = 0 ∨ i = 1 ∨ i = 2 := by omega
  all_goals cases h with
    | extendWhole haction =>
      rcases haction with rfl | rfl <;> simp_all [Action.inspected]
    | _ => simp_all [Action.inspected, Bound.address?, Bound.operand?]

/-- A call is given a list, none of which is nothing. -/
theorem Expands.list (h : Expands n frame kids x .call is b) :
    ∃ bs, kids[0]? = some (.args bs) ∧ .none ∉ bs := by
  have hnone : ∀ {bs : List Bound} {os : List Machine.Operand},
      List.Forall₂ (fun b o ↦ Bound.operand? b = some o) bs os → .none ∉ bs := by
    intro bs os hos hmem
    obtain ⟨o, -, ho⟩ := exists_of_forall₂ hos.flip hmem
    exact absurd ho (by simp [Bound.operand?])
  cases h with
  | extendWhole haction => exact absurd haction (by simp)
  | callVoid hargs hos => exact ⟨_, hargs, hnone hos⟩
  | call hargs hos => exact ⟨_, hargs, hnone hos⟩

namespace Grammar

/-- Dummies and what is only put together or thrown away apart, all leaves are looked at. -/
theorem inspects : ∀ r ∈ rules, r.action = .discard ∨ r.action = .arguments ∨
    ∀ x ∈ r.pattern.goals.zipIdx, x.1 = .dummy ∨ x.2 < r.action.inspected := by decide

theorem asks_args : ∀ r ∈ rules, .args ∈ r.pattern.goals → r.action = .call := by decide

theorem action_of_args : ∀ r ∈ rules, r.pattern.head? = some .args → r.action = .arguments := by decide

end Grammar

theorem Pattern.kidGoals_of_source : ∀ (ps : List Pattern) (goals : List Nonterminal),
    ps.mapM Pattern.source? = some goals → Pattern.kidGoals ps = goals
  | [], goals, h => by
    rw [Pattern.kidGoals]
    exact Option.some.inj h
  | p :: ps, goals, h => by
    rw [List.mapM_cons] at h
    obtain ⟨goal, hgoal, h⟩ := Option.bind_eq_some_iff.mp h
    obtain ⟨more, hmore, h⟩ := Option.bind_eq_some_iff.mp h
    obtain rfl := Option.some.inj h
    cases p with
    | nt source =>
      obtain rfl := Option.some.inj hgoal
      rw [Pattern.kidGoals, Pattern.goals, Pattern.kidGoals_of_source ps more hmore]
      rfl
    | _ => exact absurd hgoal (by simp [Pattern.source?])

/-- The nonterminals of the leaves of a rule, unless it takes any number of them. -/
theorem Rule.Matches.leaf_goals (hmatches : r.Matches g k) (hargs : r.pattern.isArguments = false) :
    (r.pattern.leaves g k).map (·.2) = r.pattern.goals := by
  rcases Grammar.shapes r hmatches.mem with hsome | hargs' | hscaled | hflat
  · obtain ⟨source, hsource⟩ := Option.isSome_iff_exists.mp hsome
    rw [← r.pattern.takeLeaves_fst k g (.refl g), Pattern.leaves_of_source hsource]
    cases hp : r.pattern with
    | nt s =>
      rw [hp] at hsource
      obtain rfl := Option.some.inj hsource
      rfl
    | _ =>
      rw [hp] at hsource
      exact absurd hsource (by simp [Pattern.source?])
  · exact absurd hargs' (by simp [hargs])
  · obtain ⟨a, t, x, y, -, hleaves, -⟩ :=
      Pattern.takeLeaves_of_isScaledIndex hscaled hmatches.fits (.refl g)
    rw [hleaves]
    unfold Pattern.isScaledIndex at hscaled
    split at hscaled
    next hp => rw [hp]; rfl
    next => exact absurd hscaled (by simp)
  · obtain ⟨⟨h, goals⟩, hflat⟩ := Option.isSome_iff_exists.mp hflat
    obtain ⟨kids, hp, hgoals⟩ := Pattern.of_flat hflat
    have hfits := hmatches.fits
    rw [hp, Pattern.Fits] at hfits
    rw [hp, Pattern.goals, Pattern.kidGoals_of_source kids goals hgoals,
      ← Pattern.takeLeaves_fst _ k g (.refl g), Pattern.takeLeaves,
      Pattern.takeKidLeaves_of_source kids goals _ g hgoals]
    refine List.map_snd_zip ?_
    by_cases hne : h = .inRegister
    · have hnone := (Grammar.tile_register r hmatches.mem
        (Grammar.action_of_inRegister r hmatches.mem (hp ▸ hne ▸ rfl))).2
      rw [hp] at hnone
      unfold Pattern.isLeaf at hnone
      split at hnone
      next heq =>
        obtain ⟨-, rfl⟩ := Pattern.op.inj heq
        rw [← Pattern.length_of_source [] goals hgoals]
        exact Nat.zero_le _
      next => exact absurd hnone (by simp)
    · rw [Forest.kidOwners, List.length_map, (hfits.2 hne).1, Pattern.length_of_source kids goals hgoals]

/-- An application that looks at a leaf is not given nothing for it. -/
theorem Application.not_none (hmatches : a.rule.Matches g a.node) (hdiscard : a.rule.action ≠ .discard)
    (harguments : a.rule.action ≠ .arguments) {i : Nat}
    (hleaf : (a.rule.pattern.leaves g a.node)[i]? = some leaf) (hdummy : leaf.2 ≠ .dummy) :
    a.kids[i]? ≠ some .none := by
  have hargs : a.rule.pattern.isArguments = false := by
    refine Bool.eq_false_iff.mpr fun hargs ↦ harguments ?_
    unfold Pattern.isArguments at hargs
    split at hargs
    next hp => exact Grammar.action_of_args a.rule hmatches.mem (by rw [hp]; rfl)
    next => exact absurd hargs (by simp)
  have hgoal : (a.rule.pattern.goals)[i]? = some leaf.2 := by
    rw [← hmatches.leaf_goals hargs, List.getElem?_map, hleaf]
    rfl
  have hi : i < a.rule.action.inspected := by
    have hall := ((Grammar.inspects a.rule hmatches.mem).resolve_left hdiscard).resolve_left harguments
    exact (hall (leaf.2, i) (List.mem_zipIdx_iff_getElem?.mpr hgoal)).resolve_left hdummy
  by_cases hphi : a.rule.action = .phiInput
  · obtain ⟨-, -, -, value, -, -, hvalue, -⟩ := applyRule_phiInput hphi a.runs
    have hexpands : Expands (a.before.forest.node a.node) {} a.kids 0 .phiInput [] .none :=
      .phiInput hvalue
    exact hexpands.inspects (hphi ▸ hi)
  · obtain ⟨is, hexpands, -⟩ := applyRule_expands a.runs hphi
    exact hexpands.inspects hi

/-! ## Reductions -/

/-- What a leaf is given at which there is no value, or a list of arguments one of which has none. -/
structure Hollow (g : Forest) (leaf : NodeId × Nonterminal) (b : Bound) : Prop where
  call : g.IsVoidCall leaf.1 → b = .none ∧ leaf.2 ≠ .dummy
  list : (g.node leaf.1).op = .args → leaf.2 = .args ∧
    ∀ c ∈ g.kidOwners leaf.1, g.IsVoidCall c → ∃ bs, b = .args bs ∧ .none ∈ bs

/-- A call without a value, or a list of arguments. -/
def Forest.IsValueless (g : Forest) (k : NodeId) : Prop := g.IsVoidCall k ∨ (g.node k).op = .args

/-- None of them is computed. -/
def Forest.Valueless (g f : Forest) : Prop := ∀ k, g.IsValueless k → (f.node k).computed = false

theorem Hollow.of_reuse (hvalueless : g.Valueless w.forest)
    (hreuse : (w.forest.node k).reuse? nt = some b) : Hollow g (k, nt) b := by
  have hnot : ¬ g.IsValueless k := by
    intro h
    rw [Node.reuse?_of_not_computed (hvalueless k h)] at hreuse
    exact absurd hreuse (by simp)
  exact ⟨fun hvoid ↦ absurd (Or.inl hvoid) hnot, fun hop ↦ absurd (Or.inr hop) hnot⟩

theorem Pattern.leaves_of_nt {source : Nonterminal} {pattern : Pattern} (hp : pattern = .nt source) :
    pattern.leaves g k = [(k, source)] := by
  rw [← pattern.takeLeaves_fst k g (.refl g), hp, Pattern.takeLeaves]

/-- An application for a leaf, once its own leaves have been reduced. -/
theorem Application.hollow (hmatches : a.rule.Matches g a.node) (hskeleton : g.SameSkeleton a.before.forest)
    (hnew : g.IsValueless a.node → (g.node a.node).computed = false)
    (hkids : List.Forall₂ (Hollow g) (a.rule.pattern.leaves g a.node) a.kids) :
    Hollow g (a.node, a.rule.lhs) a.result where
  call hvoid := by
    have hcomputed := hnew (Or.inl hvoid)
    constructor
    · rcases hmatches.head?_inst hcomputed hvoid.1 Opcode.noConfusion with ⟨source, hp⟩ | hhead
      · rw [Pattern.leaves_of_nt hp] at hkids
        obtain ⟨kid, hkid, hkids⟩ := exists_of_forall₂_one hkids
        have hruns := a.runs
        rw [hkids, (hkid.call hvoid).1] at hruns
        refine applyRule_none (List.mem_filter.mpr ⟨hmatches.mem, ?_⟩) hruns
        rw [Rule.isChain, hp]
      · exact ((applyRule_call (Grammar.action_of_call a.rule hmatches.mem hhead) a.runs).resolve_right
          fun h ↦ h.1 ((hskeleton.width a.node).trans hvoid.2)).2
    · intro hdummy
      have hhead := hmatches.fits.head? (Grammar.heads_of_dummy a.rule hmatches.mem hdummy)
      rw [Node.head?, hcomputed, hvoid.1] at hhead
      exact absurd hhead (by simp)
  list hop := by
    cases hsource : a.rule.pattern.source? with
    | some source =>
      have hleaves : a.rule.pattern.leaves g a.node = [(a.node, source)] := by
        rw [← a.rule.pattern.takeLeaves_fst a.node g (.refl g), Pattern.leaves_of_source hsource]
      rw [hleaves] at hkids
      obtain ⟨kid, hkid, -⟩ := exists_of_forall₂_one hkids
      have hargs : source = .args := (hkid.list hop).1
      have hsteps := Grammar.chain_steps a.rule hmatches.mem source hsource
      rw [hargs] at hsteps
      exact absurd hsteps (by simp)
    | none =>
      obtain ⟨h, hh⟩ := Pattern.head?_of_source hsource
      have hhead := hmatches.fits.head? hh
      rw [Node.head?, hnew (Or.inr hop), hop] at hhead
      obtain rfl : Head.args = h := by simpa using hhead
      have haction := Grammar.action_of_args a.rule hmatches.mem hh
      obtain ⟨hlhs, hargs⟩ := Grammar.tile_arguments a.rule hmatches.mem haction
      refine ⟨hlhs, fun c hc hvoid ↦ ⟨a.kids, ?_, ?_⟩⟩
      · have hruns := a.runs
        rw [applyRule, haction] at hruns
        exact (pure_eq_ok.mp hruns).1
      · rw [← a.rule.pattern.takeLeaves_fst a.node g (.refl g),
          Pattern.leaves_of_isArguments hargs (.refl g)] at hkids
        obtain ⟨i, hi⟩ := List.mem_iff_getElem?.mp hc
        obtain ⟨b, hb, hhollow⟩ := exists_getElem?_of_forall₂ hkids.flip
          (show ((g.kidOwners a.node).map (·, Nonterminal.reg))[i]? = some (c, .reg) by
            rw [List.getElem?_map, hi]; rfl)
        exact (hhollow.call hvoid).1 ▸ List.mem_of_getElem? hb

/-- **Reductions.** What has no value is given nothing and is not computed. -/
theorem Trail.hollow (hls : ls.Derives g) (h : Trail g ls goals w bs w' as)
    (hw : g.Valueless w.forest) : List.Forall₂ (Hollow g) goals bs ∧ g.Valueless w'.forest ∧
      ∀ a ∈ as, List.Forall₂ (Hollow g) (a.rule.pattern.leaves g a.node) a.kids := by
  induction h with
  | nil => exact ⟨.nil, hw, fun _ ha ↦ absurd ha List.not_mem_nil⟩
  | found _ hfound _ ih =>
    obtain ⟨hrest, hw', hkids⟩ := ih hw
    exact ⟨.cons (.of_reuse hw hfound) hrest, hw', hkids⟩
  | @made _ w u _ a _ _ _ underway ready _ _ rule _ settles _ ihl ihr =>
    have hmatches := (hls.sound.rule rule).1
    obtain ⟨hleaves, hbefore, hbelow⟩ := ihl fun k hk ↦
      ((w.forest.sameValues_takeLeaves a.rule.pattern a.node) k).computed.trans (hw k hk)
    have hself := a.hollow hmatches ready.later.skeleton (fun hvoid ↦ Bool.eq_false_iff.mpr fun hk ↦
      Bool.false_ne_true ((hw a.node hvoid).symm.trans (underway.later.computed a.node hk))) hleaves
    have hroles := sameButRoles_applyRule a.runs
    have hu : g.Valueless u.forest := by
      intro k hk
      have hkept := ((hroles.sameValues k).computed).trans (hbefore k hk)
      rcases (settle_eq_ok settles).2 with rfl | ⟨x, o, -, hresult, hop, rfl⟩
      · exact hkept
      · have hne : k ≠ a.node := by
          rintro rfl
          rcases hk with hvoid | hargs
          · rw [(hself.call hvoid).1] at hresult
            exact absurd hresult (by simp)
          · rw [(hroles.sameValues a.node).op, ready.later.skeleton.op, hargs] at hop
            exact absurd hop (by simp)
        rwa [Forest.node_update_of_ne _ _ hne]
    obtain ⟨hrest, hw', hkids⟩ := ihr hu
    exact ⟨.cons hself hrest, hw', List.forall_mem_append.mpr ⟨hbelow,
      List.forall_mem_cons.mpr ⟨hleaves, hkids⟩⟩⟩

/-- A statement is asked for from outside only. -/
theorem Trail.mem_goals_of_stmt (hls : ls.Derives g) (h : Trail g ls goals w bs w' as) (ha : a ∈ as)
    (hlhs : a.rule.lhs = .stmt) : (a.node, .stmt) ∈ goals := by
  induction h with
  | nil => exact absurd ha List.not_mem_nil
  | found _ _ _ ih => exact List.mem_cons_of_mem _ (ih ha)
  | made _ _ _ _ rule _ _ _ ihl ihr =>
    rcases List.mem_append.mp ha with ha | ha
    · exact absurd rfl (Application.leaf_ne_stmt (hls.sound.rule rule).1.mem (ihl ha))
    · rcases List.mem_cons.mp ha with rfl | ha
      · exact hlhs ▸ List.mem_cons_self
      · exact List.mem_cons_of_mem _ (ihr ha)

/-! ## Selections -/

namespace Forest.SameSkeleton

variable {g₀ : Forest} (h : g₀.SameSkeleton g)
include h

theorem isVoidCall_iff : g.IsVoidCall k ↔ g₀.IsVoidCall k := by
  rw [Forest.IsVoidCall, h.op, h.width, Forest.IsVoidCall]

theorem isValueless_iff : g.IsValueless k ↔ g₀.IsValueless k := by
  rw [Forest.IsValueless, h.isVoidCall_iff, h.op, Forest.IsValueless]

theorem hollow (hhollow : Hollow g leaf b) : Hollow g₀ leaf b where
  call hvoid := hhollow.call (h.isVoidCall_iff.mpr hvoid)
  list hop := by
    obtain ⟨hlhs, hkids⟩ := hhollow.list ((h.op _).trans hop)
    exact ⟨hlhs, fun c hc hvoid ↦ hkids c (h.kidOwners _ ▸ hc) (h.isVoidCall_iff.mpr hvoid)⟩

end Forest.SameSkeleton

theorem Planted.valueless (hp : Planted f trees w) : w.forest.Valueless w.forest := by
  rintro k (hvoid | hargs)
  · exact hp.computed (by simp [hvoid.1])
  · exact hp.computed (by simp [hargs])

/-- An application in the visit of the root `r`, reached in `t`: it was given nothing for what has no value,
and makes a statement only of the root, if that was asked for. -/
structure Application.Made (a : Application) (g : Forest) (r : NodeId) (t : Workspace) : Prop where
  kids : List.Forall₂ (Hollow g) (a.rule.pattern.leaves g a.node) a.kids
  stmt : a.rule.lhs = .stmt → a.node = r ∧ ∃ u, Starts r .stmt t u

/-- Nothing without a value is computed in the course of selection. -/
theorem selectAll_made (hbuild : buildForest f (.start f s) = .ok trees w)
    (hselect : selectAll trees w = .ok z v) :
    ∀ r t a, Comes trees w r t → VisitMakes r t a → a.Made w.forest r t := by
  obtain ⟨hp, -⟩ := buildForest_planted hbuild
  refine (selectAll_visits (P := fun _ V v ↦ w.forest.Valueless v.forest ∧ ∀ r t a, V r t →
    VisitMakes r t a → a.Made w.forest r t) hselect
    ⟨hp.valueless, fun _ _ _ h ↦ h.elim⟩ (fun _ _ _ _ _ h ↦ h) ?_).2
  rintro - V root v v' hcomes ⟨hvalueless, hmade⟩ hvisit
  obtain ⟨as, hmem, ⟨rfl, -, -, hvalues⟩ | ⟨goal, u, b, u', he⟩⟩ :=
    selectTree_trail hp (hcomes.marked hbuild) hvisit
  · refine ⟨fun k hk ↦ (hvalues k).computed.trans (hvalueless k hk), ?_⟩
    rintro r t a (hV | ⟨rfl, rfl⟩) hmakes
    · exact hmade r t a hV hmakes
    · exact absurd ((hmem a).mp hmakes) List.not_mem_nil
  · obtain ⟨-, hafter, hkids⟩ := he.trail.hollow he.derives fun k hk ↦
      (he.values k).computed.trans (hvalueless k (he.skeleton.isValueless_iff.mp hk))
    refine ⟨fun k hk ↦ he.forest ▸ hafter k (he.skeleton.isValueless_iff.mpr hk), ?_⟩
    rintro r t a (hV | ⟨rfl, rfl⟩) hmakes
    · exact hmade r t a hV hmakes
    · have ha := (hmem a).mp hmakes
      constructor
      · rw [← Pattern.leaves_of_sameSkeleton _ _ he.skeleton]
        exact (hkids a ha).imp fun _ _ ↦ he.skeleton.hollow
      · intro hlhs
        have hgoal := List.mem_singleton.mp (he.trail.mem_goals_of_stmt he.derives ha hlhs)
        obtain ⟨hnode, hgoal⟩ := Prod.mk.inj hgoal
        exact ⟨hnode, u, hgoal ▸ he.starts⟩

/-- A value that somebody reads is reduced to a register. -/
theorem Visited.goal_of_read {f : Func} {next : InstId} {os : List (Ir.Operand Value)}
    {done rest : List NodeId} {u : Workspace} {o : Opcode} (hp : Planted f trees w)
    (hrec : w.Recorded next os trees.flatten) (h : Visited w.forest done v.forest)
    (hall : trees.flatten = done ++ root :: rest) (hstarts : Starts root goal v u)
    (hop : (w.forest.node root).op = .inst o) (hdefinition : o.isDefinition = true) (halloca : o ≠ .alloca)
    (htarget : (w.forest.node root).target = none) (hread : 0 < w.forest.positions root) : goal = .reg := by
  obtain ⟨-, v₁, -, hemit, rfl, -⟩ := hstarts
  obtain ⟨rfl, -⟩ := shouldEmit_ok hemit
  have h₁ : Visited w.forest done (v.forest.refreshLevel root).2 :=
    h.same (v.forest.settles_refreshLevel root) (v.forest.sameBooks_refreshLevel root)
  have hrefs : 0 < (v.forest.refreshLevel root).2.refs root := by
    rw [h₁.refs_root hp hrec hall, h₁.skeleton.owner, h₁.skeleton.positions,
      Forest.owner_of_target htarget]
    exact hread
  have hvalue : ((v.forest.refreshLevel root).2.node root).opcode?.any
      (fun op ↦ op.isDefinition && op ≠ .alloca) = true := by
    rw [Node.opcode?, h₁.skeleton.op, hop]
    simp [hdefinition, halloca]
  rw [goalOf, if_pos (Bool.and_eq_true_iff.mpr ⟨decide_eq_true hrefs, hvalue⟩)]

section

variable (hbuild : buildForest f (.start f s) = .ok trees w) (hselect : selectAll trees w = .ok z v)
include hbuild hselect

/-- The children of a node are given to a rule. -/
theorem exists_opens (hc : c ∈ w.forest.kidOwners p) : ∃ r t a, Comes trees w r t ∧ VisitMakes r t a ∧
    a.Follows w t v r ∧ a.rule.Opens w.forest a.node p := by
  obtain ⟨hp, -⟩ := buildForest_planted hbuild
  have hrec := buildForest_recorded hbuild
  obtain ⟨goals, as, hchronicle⟩ := selectAll_chronicle hbuild hselect
  have hvisited := (Visited.kept hp).selectAll (List.prefix_refl _) (.start hp hrec) hselect
  have hreleased : (v.forest.node p).kidsReleased = true := by
    refine (hvisited.done_all hp hrec p).resolve_right fun hnil ↦ ?_
    rw [hvisited.skeleton.kids] at hnil
    rw [Forest.kidOwners, hnil] at hc
    exact absurd hc List.not_mem_nil
  obtain ⟨a, ha, hopens⟩ := (hchronicle.history.opens p hreleased).resolve_left (by
    rw [hrec.ledger.holding]
    exact Bool.false_ne_true)
  obtain ⟨r, t, hcomes, hmakes⟩ := (hchronicle.mem a).mpr ha
  exact ⟨r, t, a, hcomes, hmakes, hchronicle.follows r t a hcomes hmakes, hopens⟩

/-- A rule that is given a call without a value puts arguments together. -/
theorem isArguments_of_voidCall {r : NodeId} {t : Workspace} (hcomes : Comes trees w r t)
    (hmakes : VisitMakes r t a) (hfollows : a.Follows w t v r) (hvoid : w.forest.IsVoidCall c)
    (hread : 0 < w.forest.positions c) (hleaf : (c, goal) ∈ a.rule.pattern.leaves w.forest a.node) :
    a.rule.pattern.isArguments = true := by
  obtain ⟨hp, -⟩ := buildForest_planted hbuild
  have hrec := buildForest_recorded hbuild
  have hmade := selectAll_made hbuild hselect r t a hcomes hmakes
  obtain ⟨g, ls, hskeleton, -, hls, hrule⟩ := hfollows.labels
  have hmatches := (hls.sound.rule hrule).1
  by_contra hargs
  by_cases hdiscard : a.rule.action = .discard
  · -- a statement is asked for at a root that nobody reads
    obtain ⟨hlhs, hsource⟩ := Grammar.tile_discard a.rule hmatches.mem hdiscard
    rw [← a.rule.pattern.takeLeaves_fst a.node w.forest (.refl _), Pattern.leaves_of_source hsource] at hleaf
    obtain ⟨rfl, -⟩ := Prod.mk.inj (List.mem_singleton.mp hleaf)
    obtain ⟨rfl, u, hstarts⟩ := hmade.stmt hlhs
    obtain ⟨done, rest, hall, hvisited⟩ := (Visited.kept hp).comes (.start hp hrec) hcomes
    exact Nonterminal.noConfusion (hvisited.goal_of_read hp hrec hall hstarts hvoid.1 rfl
      Opcode.noConfusion (hp.target_of_ne_phi (by simp [hvoid.1])) hread)
  · obtain ⟨i, hi⟩ := List.mem_iff_getElem?.mp hleaf
    obtain ⟨b, hb, hhollow⟩ := exists_getElem?_of_forall₂ hmade.kids.flip hi
    obtain ⟨rfl, hdummy⟩ := hhollow.call hvoid
    rw [← Pattern.leaves_of_sameSkeleton _ _ hskeleton] at hi
    refine a.not_none hmatches hdiscard (fun haction ↦ hargs ?_) hi hdummy hb
    exact (Grammar.tile_arguments a.rule hmatches.mem haction).2

/-- **Calls without a value** have no consumers, if selection succeeds. -/
theorem not_voidCall_of_selectAll (hc : c ∈ w.forest.kidOwners p) : ¬ w.forest.IsVoidCall c := by
  intro hvoid
  obtain ⟨hp, -⟩ := buildForest_planted hbuild
  have hrec := buildForest_recorded hbuild
  have hread : 0 < w.forest.positions c := Forest.positions_pos hc
  obtain ⟨r, t, a, hcomes, hmakes, hfollows, hopens⟩ := exists_opens hbuild hselect hc
  obtain ⟨goal, hleaf⟩ := (hopens c hc).resolve_right (by simp [hvoid.1])
  have hargs := isArguments_of_voidCall hbuild hselect hcomes hmakes hfollows hvoid hread hleaf
  obtain ⟨g, ls, hskeleton, -, hls, hrule⟩ := hfollows.labels
  have hmatches := (hls.sound.rule hrule).1
  have hop : (w.forest.node a.node).op = .args := by
    unfold Pattern.isArguments at hargs
    split at hargs
    next hpattern =>
      rw [← hskeleton.op]
      exact (head?_args (hmatches.fits.head? (by rw [hpattern]; rfl))).2
    next => exact absurd hargs (by simp)
  have hkid : c ∈ w.forest.kidOwners a.node := by
    rw [← a.rule.pattern.takeLeaves_fst a.node w.forest (.refl _),
      Pattern.leaves_of_isArguments hargs (.refl _)] at hleaf
    obtain ⟨_, hmem, heq⟩ := List.mem_map.mp hleaf
    exact (Prod.mk.inj heq).1 ▸ hmem
  have hsize : a.node < w.forest.size := by
    by_contra hle
    rw [Forest.kidOwners, Forest.node_of_le _ (Nat.le_of_not_lt hle)] at hkid
    exact absurd hkid List.not_mem_nil
  -- the call is given the list, in which there is nothing for its argument
  obtain ⟨q, -, -, hq⟩ := hp.exists_call hrec hsize hop
  obtain ⟨r', t', a', hcomes', hmakes', hfollows', hopens'⟩ := exists_opens hbuild hselect hq
  obtain ⟨goal', hleaf'⟩ := (hopens' _ hq).resolve_right (by simp [hop])
  have hmade' := selectAll_made hbuild hselect r' t' a' hcomes' hmakes'
  obtain ⟨g', ls', hskeleton', -, hls', hrule'⟩ := hfollows'.labels
  have hmatches' := (hls'.sound.rule hrule').1
  obtain ⟨i, hi⟩ := List.mem_iff_getElem?.mp hleaf'
  obtain ⟨b, hb, hhollow⟩ := exists_getElem?_of_forall₂ hmade'.kids.flip hi
  obtain ⟨rfl, hlist⟩ := hhollow.list hop
  obtain ⟨bs, rfl, hnone⟩ := hlist c hkid hvoid
  rw [← Pattern.leaves_of_sameSkeleton _ _ hskeleton', ← a'.rule.pattern.takeLeaves_fst _ g' (.refl _)]
    at hi
  have haction := Grammar.asks_args a'.rule hmatches'.mem
    (a'.rule.pattern.goal_mem _ _ _ (List.mem_of_getElem? hi))
  obtain ⟨hleaves, hlength, -⟩ := Pattern.leaves_of_inst (Grammar.tile_call a'.rule hmatches'.mem haction).2
    hmatches'.fits (.refl g')
  obtain rfl : i = 0 := by
    have hlt := (List.getElem?_eq_some_iff.mp hi).1
    rw [hleaves, List.length_zip, hlength] at hlt
    exact Nat.lt_one_iff.mp hlt
  obtain ⟨is, hexpands, -⟩ := applyRule_expands a'.runs (by simp [haction])
  rw [haction] at hexpands
  obtain ⟨bs', hbs', hnot⟩ := hexpands.list
  rw [hb] at hbs'
  exact hnot (Bound.args.inj (Option.some.inj hbs') ▸ hnone)

end

end TreeCover
