import TreeCover.Proofs.Covering.Emission
import TreeCover.Proofs.Tiling.Conservation
import TreeCover.Proofs.Tiling.History

/-!
# The history of a selection

The visits of the roots have their histories one after the other, each told in terms of the labels that
were made when its root was reached. Together they are a history of the forest that was built. Main
statement: `selectAll_chronicle`.
-/

namespace TreeCover

open Ir Machine Work

variable {f : Func} {s : Session} {next : InstId} {os : List (Ir.Operand Value)}
  {trees : List (List NodeId)} {done rest : List NodeId} {g g₀ f₁ f₂ : Forest}
  {w v v' u u' : Workspace} {root r k : NodeId} {goal nt : Nonterminal}
  {goals : List (NodeId × Nonterminal)} {as : List Application} {a : Application} {x : Unit}
  {leaf : NodeId × Nonterminal} {b : Bound}

/-! ## Histories from an earlier forest -/

theorem Pattern.leaves_of_sameSkeleton (p : Pattern) (k : NodeId) (h : g₀.SameSkeleton g) :
    p.leaves g k = p.leaves g₀ k :=
  (p.takeLeaves_fst k g (.refl g)).symm.trans (p.takeLeaves_fst k g h)

namespace Forest.SameSkeleton

variable (h : g₀.SameSkeleton g)
include h

theorem hasValue_iff : g.HasValue k ↔ g₀.HasValue k := by
  rw [HasValue, HasValue, IsVoidCall, IsVoidCall, h.op, h.width]

theorem inlines_iff : (g.node k).Inlines nt ↔ (g₀.node k).Inlines nt := by
  cases nt <;> simp only [Node.Inlines, h.op, h.width]

theorem opens_iff {r : Rule} {p : NodeId} : r.Opens g k p ↔ r.Opens g₀ k p := by
  rw [Rule.Opens, Rule.Opens, h.kidOwners, Pattern.leaves_of_sameSkeleton _ _ h]
  exact forall₂_congr fun c _ ↦ by rw [h.op]

variable (hcomputed : ∀ k, (g₀.node k).computed = true → (g.node k).computed = true)
include hcomputed

theorem taken (htaken : Taken g f₁ leaf b) : Taken g₀ f₁ leaf b := by
  intro hvalue
  refine (htaken (h.hasValue_iff.mpr hvalue)).imp_right fun ⟨hnew, hinlines⟩ ↦ ?_
  exact ⟨Bool.eq_false_iff.mpr fun hold ↦ Bool.false_ne_true (hnew.symm.trans (hcomputed _ hold)),
    h.inlines_iff.mp hinlines⟩

theorem history (hhistory : History g f₁ f₂ goals as) : History g₀ f₁ f₂ goals as where
  skeleton := hhistory.skeleton
  retains := hhistory.retains
  computes k hk := by
    have hcomputes := hhistory.computes k hk
    rwa [h.op] at hcomputes
  registers k hvalue hphi := by
    refine hhistory.registers k (h.hasValue_iff.mpr hvalue) ?_
    rwa [h.op]
  asked k nt := by
    have hasked := hhistory.asked k nt
    rw [timesAsked] at hasked ⊢
    simpa only [Pattern.leaves_of_sameSkeleton _ _ h] using hasked
  takes a ha := by
    have htakes := hhistory.takes a ha
    rw [Pattern.leaves_of_sameSkeleton _ _ h] at htakes
    exact htakes.imp fun _ _ hb ↦ h.taken hcomputed hb
  results a ha hstmt := h.taken hcomputed (hhistory.results a ha hstmt)
  opens p hp := by
    refine (hhistory.opens p hp).imp_right fun hopened ↦ ?_
    obtain ⟨a, ha, hopens⟩ := hopened
    exact ⟨a, ha, h.opens_iff.mp hopens⟩

end Forest.SameSkeleton

/-! ## Visits -/

namespace Work

theorem Starts.visitMakes_iff (h : Starts root goal v u) : VisitMakes root v a ↔
    ReductionMakes ((u.forest.size + 1) * (Nonterminal.all.length + 1)) root goal u a := by
  constructor
  · rintro ⟨goal', u', h', hmakes⟩
    obtain ⟨rfl, rfl⟩ := h.unique h'
    exact hmakes
  · exact fun hmakes ↦ ⟨goal, u, h, hmakes⟩

/-- The forest that is labeled differs from the one in which the root was reached in heights only. -/
theorem Starts.sameValues (h : Starts root goal v u) :
    v.forest.SameSkeleton u.forest ∧ v.forest.SameValues u.forest ∧
      ∀ p, (u.forest.node p).kidsReleased = (v.forest.node p).kidsReleased := by
  obtain ⟨labels, session, rfl⟩ := h.state
  exact ⟨(v.forest.settles_refreshLevel root).skeleton, v.forest.sameValues_refreshLevel root,
    (v.forest.sameBooks_refreshLevel root).released⟩

end Work

/-- What is computed when selection comes to `v` is an instruction or the register of a phi, and nodes
hold what actions look at. -/
structure Marked (w v : Workspace) : Prop where
  skeleton : w.forest.SameSkeleton v.forest
  complete : v.forest.Complete
  computed : ∀ k, (v.forest.node k).computed = true →
    (w.forest.node k).op = .phiDef ∨ ∃ o, (w.forest.node k).op = .inst o

/-- **Visits.** The reduction of a root has a history, told in terms of the labels that were made for it. -/
theorem Work.Starts.recounts (hp : Planted f trees w) (hv : Marked w v)
    (hstarts : Starts root goal v u) (hrun : reduce root goal u = .ok b u') :
    w.forest.SameSkeleton u.forest ∧ u.labels.Derives u.forest ∧ ∃ as,
      Recounts u.forest u.labels w.forest.rank (VisitMakes root v) [(root, goal)] u u' as ∧
        (goal ≠ .stmt → Taken u.forest u'.forest (root, goal) b) := by
  obtain ⟨htarget, -, htree, -, -⟩ := hstarts.labeled
  obtain ⟨hskeleton, hvalues, -⟩ := hstarts.sameValues
  have hsame := hv.skeleton.trans hskeleton
  have hflat := hsame.flat hp.building.flat
  have hfalls := hp.falling hsame
  have hls : u.labels.Derives u.forest := derives_labelTree hfalls (hflat.owner_owner root) htree
  have hcomplete := hv.complete.same hskeleton (hv.complete.slotted.same hvalues)
  have howner : u.forest.owner root = root := by
    rw [hskeleton.owner]
    exact Forest.owner_of_target htarget
  have hregisters : ∀ k, (u.forest.node k).head? = some .inRegister →
      (∃ o, (u.forest.node k).op = .inst o) ∨ (u.forest.node k).kids = [] := by
    intro k hhead
    rw [hsame.op, hsame.kids]
    have hop : (w.forest.node k).op = .phiDef ∨ ∃ o, (w.forest.node k).op = .inst o := by
      rcases head?_inRegister hhead with hcomputed | hop
      · exact hv.computed k ((hvalues k).computed.symm.trans hcomputed)
      · exact Or.inl ((hsame.op k).symm.trans hop)
    exact hop.symm.imp_right hp.phi_kids
  obtain ⟨as, has, htaken⟩ := reduceFrom_history hfalls hls hregisters
    ⟨rfl, .refl hflat hcomplete⟩ hrun
  rw [howner] at has htaken
  exact ⟨hsame, hls, as, ⟨fun a ↦ hstarts.visitMakes_iff.trans (has.mem a), has.history, has.rule,
    has.lower⟩, htaken⟩

/-! ## Values that are wanted -/

/-- An instruction other than an alloca that has a value, and somebody reads it. -/
structure Forest.Wanted (g : Forest) (r : NodeId) : Prop where
  value : g.HasValue r
  inst : ∃ o, (g.node r).op = .inst o ∧ o.isDefinition = true ∧ o ≠ .alloca
  target : (g.node r).target = none
  read : 0 < g.positions r

/-- It is reduced to a register when its turn comes. -/
theorem Visited.goal_of_wanted (hp : Planted f trees w) (hrec : w.Recorded next os trees.flatten)
    (h : Visited w.forest done v.forest) (hall : trees.flatten = done ++ root :: rest)
    (hstarts : Starts root goal v u) (hwanted : w.forest.Wanted root) : goal = .reg := by
  obtain ⟨-, v₁, -, hemit, rfl, -⟩ := hstarts
  obtain ⟨rfl, -⟩ := shouldEmit_ok hemit
  have h₁ : Visited w.forest done (v.forest.refreshLevel root).2 :=
    h.same (v.forest.settles_refreshLevel root) (v.forest.sameBooks_refreshLevel root)
  obtain ⟨o, hop, hdefinition, halloca⟩ := hwanted.inst
  have hread : 0 < (v.forest.refreshLevel root).2.refs root := by
    rw [h₁.refs_root hp hrec hall, h₁.skeleton.owner, h₁.skeleton.positions,
      Forest.owner_of_target hwanted.target]
    exact hwanted.read
  have hvalue : ((v.forest.refreshLevel root).2.node root).opcode?.any
      (fun op ↦ op.isDefinition && op ≠ .alloca) = true := by
    rw [Node.opcode?, h₁.skeleton.op, hop]
    simp [hdefinition, halloca]
  rw [goalOf, if_pos (Bool.and_eq_true_iff.mpr ⟨decide_eq_true hread, hvalue⟩)]

/-! ## Selections -/

/-- What an application goes by that is made in the visit of the root `r`, reached in the state `t`: the
labels that were made then. `v` is a later state. -/
structure Application.Follows (a : Application) (w t v : Workspace) (r : NodeId) : Prop where
  labels : ∃ g, ∃ ls : Labels, w.forest.SameSkeleton g ∧ t.forest.SameValues g ∧ ls.Derives g ∧
    ls.rule? a.node a.rule.lhs = some a.rule
  takes : List.Forall₂ (Taken t.forest v.forest) (a.rule.pattern.leaves w.forest a.node) a.kids
  stmt : a.rule.lhs = .stmt → a.node = r

/-- What selection from `w` has done in the state `v`, once it has come to the roots in `V`, each in its
state. -/
structure Chronicle (w : Workspace) (V : NodeId → Workspace → Prop) (v : Workspace)
    (goals : List (NodeId × Nonterminal)) (as : List Application) : Prop where
  mem : ∀ a, (∃ r t, V r t ∧ VisitMakes r t a) ↔ a ∈ as
  history : History w.forest w.forest v.forest goals as
  goals : ∀ goal ∈ goals, goal.2 = .reg ∨ goal.2 = .stmt ∧ ¬ w.forest.Wanted goal.1
  follows : ∀ r t a, V r t → VisitMakes r t a → a.Follows w t v r
  /-- A value that is wanted is in its register after its visit, or was left to its consumers. -/
  waits : ∀ r t, V r t → w.forest.Wanted r →
    (v.forest.node r).computed = true ∨ ∃ u, shouldEmit r t = .ok false u

theorem Application.Follows.later {t : Workspace} (h : a.Follows w t v r)
    (hretains : v.forest.Retains v'.forest) : a.Follows w t v' r where
  labels := h.labels
  takes := h.takes.imp fun _ _ hb ↦ hb.later hretains
  stmt := h.stmt

/-- No rule asks for a statement. -/
theorem Application.leaf_ne_stmt (hmem : a.rule ∈ Grammar.rules)
    (hleaf : leaf ∈ a.rule.pattern.leaves g a.node) : leaf.2 ≠ .stmt := by
  rw [← a.rule.pattern.takeLeaves_fst a.node g (.refl g)] at hleaf
  exact fun hstmt ↦ Grammar.goals_rules a.rule hmem
    (hstmt ▸ a.rule.pattern.goal_mem a.node g leaf hleaf)

/-- So a statement is made of what was asked for from outside. -/
theorem History.mem_goals_of_stmt (h : History g f₁ f₂ goals as)
    (hrules : ∀ a ∈ as, a.rule ∈ Grammar.rules) (ha : a ∈ as) (hlhs : a.rule.lhs = .stmt) :
    (a.node, .stmt) ∈ goals := by
  have hmade : 0 < timesMade as a.node .stmt := timesMade_pos.mpr ⟨a, ha, rfl, hlhs⟩
  have hasked : ¬ 0 < timesAsked g as a.node .stmt := by
    intro hpos
    obtain ⟨a', ha', hleaf⟩ := timesAsked_pos.mp hpos
    exact a'.leaf_ne_stmt (hrules a' ha') hleaf rfl
  have hle := h.asked a.node .stmt
  exact List.count_pos_iff.mp (by omega)

/-- Nothing happens but to heights. -/
theorem History.same (g : Forest) (hskeleton : f₁.SameSkeleton f₂) (hvalues : f₁.SameValues f₂)
    (hreleased : ∀ p, (f₂.node p).kidsReleased = (f₁.node p).kidsReleased) :
    History g f₁ f₂ [] [] where
  skeleton := hskeleton
  retains := .of_sameValues hvalues
  computes k hk := Or.inl ((hvalues k).computed.symm.trans hk)
  registers k _ _ := (Nat.zero_add _).trans (congrArg Bool.toNat (hvalues k).computed.symm)
  asked _ _ := Nat.zero_le _
  takes _ ha := absurd ha List.not_mem_nil
  results _ ha := absurd ha List.not_mem_nil
  opens p hp := Or.inl ((hreleased p).symm.trans hp)

namespace Chronicle

variable {V : NodeId → Workspace → Prop}

theorem start (w : Workspace) : Chronicle w (fun _ _ ↦ False) w [] [] where
  mem _ := ⟨fun ⟨_, _, h, _⟩ ↦ h.elim, fun h ↦ absurd h List.not_mem_nil⟩
  history := .nil _ _ _
  goals _ h := absurd h List.not_mem_nil
  follows _ _ _ h := h.elim
  waits _ _ h := h.elim

theorem marked (hp : Planted f trees w) (h : Chronicle w V v goals as) (hcomplete : v.forest.Complete) :
    Marked w v where
  skeleton := h.history.skeleton
  complete := hcomplete
  computed k hk := by
    rcases h.history.computes k hk with hk | ⟨hop, -⟩
    · by_contra hnot
      have hphi : (w.forest.node k).op ≠ .phiDef := fun hphi ↦ hnot (Or.inl hphi)
      exact Bool.false_ne_true ((hp.computed hphi).symm.trans hk)
    · exact Or.inr hop

/-- The visit of a root that is not emitted. -/
theorem idle (h : Chronicle w V v goals as) (hnone : ∀ goal u, ¬ Starts root goal v u)
    (hidle : History w.forest v.forest v'.forest [] [])
    (hwaits : w.forest.Wanted root →
      (v'.forest.node root).computed = true ∨ ∃ u, shouldEmit root v = .ok false u) :
    Chronicle w (fun r t ↦ V r t ∨ r = root ∧ t = v) v' goals as where
  mem a := by
    refine Iff.trans ⟨?_, ?_⟩ (h.mem a)
    · rintro ⟨r, t, hV | ⟨rfl, rfl⟩, hmakes⟩
      · exact ⟨r, t, hV, hmakes⟩
      · obtain ⟨goal, u, hstarts, -⟩ := hmakes
        exact absurd hstarts (hnone goal u)
    · exact fun ⟨r, t, hV, hmakes⟩ ↦ ⟨r, t, Or.inl hV, hmakes⟩
  history := by
    have happend := h.history.append hidle
    rwa [List.append_nil, List.append_nil] at happend
  goals := h.goals
  follows r t a := by
    rintro (hV | ⟨rfl, rfl⟩) hmakes
    · exact (h.follows r t a hV hmakes).later hidle.retains
    · obtain ⟨goal, u, hstarts, -⟩ := hmakes
      exact absurd hstarts (hnone goal u)
  waits r t := by
    rintro (hV | ⟨rfl, rfl⟩) hwanted
    · exact (h.waits r t hV hwanted).imp_left fun hk ↦ (hidle.retains r hk).1
    · exact hwaits hwanted

/-- The visit of a root that is emitted. -/
theorem emit (hp : Planted f trees w) (h : Chronicle w V v goals as) (hv : Marked w v)
    (hstarts : Starts root goal v u) (hrun : reduce root goal u = .ok b u')
    (hforest : v'.forest = u'.forest)
    (hgoal : goal = .reg ∨ goal = .stmt ∧ ¬ w.forest.Wanted root) :
    ∃ as', Chronicle w (fun r t ↦ V r t ∨ r = root ∧ t = v) v' (goals ++ [(root, goal)])
      (as ++ as') := by
  obtain ⟨hskeleton, hls, as', has, htaken⟩ := hstarts.recounts hp hv hrun
  obtain ⟨hheights, hvalues, hreleased⟩ := hstarts.sameValues
  have hhistory : History w.forest v.forest v'.forest [(root, goal)] as' := by
    rw [hforest]
    refine (History.same w.forest hheights hvalues hreleased).append
      (hskeleton.history (fun k hk ↦ (hvalues k).computed.trans ?_) has.history)
    exact (h.history.retains k hk).1
  refine ⟨as', ⟨fun a ↦ ?_, h.history.append hhistory,
    List.forall_mem_append.mpr ⟨h.goals, List.forall_mem_singleton.mpr hgoal⟩, ?_, ?_⟩⟩
  · rw [List.mem_append, ← h.mem, ← has.mem]
    constructor
    · rintro ⟨r, t, hV | ⟨rfl, rfl⟩, hmakes⟩
      · exact Or.inl ⟨r, t, hV, hmakes⟩
      · exact Or.inr hmakes
    · rintro (⟨r, t, hV, hmakes⟩ | hmakes)
      · exact ⟨r, t, Or.inl hV, hmakes⟩
      · exact ⟨root, v, Or.inr ⟨rfl, rfl⟩, hmakes⟩
  · rintro r t a (hV | ⟨rfl, rfl⟩) hmakes
    · exact (h.follows r t a hV hmakes).later hhistory.retains
    · have ha := (has.mem a).mp hmakes
      refine ⟨⟨u.forest, u.labels, hskeleton, hvalues, hls, has.rule a ha⟩, ?_, fun hlhs ↦ ?_⟩
      · have htakes := has.history.takes a ha
        rw [Pattern.leaves_of_sameSkeleton _ _ hskeleton, ← hforest] at htakes
        exact htakes.imp fun _ _ hb ↦ hheights.taken (fun k ↦ (hvalues k).computed.trans) hb
      · have hmem := has.history.mem_goals_of_stmt
          (fun a' ha' ↦ (hls.sound.rule (has.rule a' ha')).1.mem) ha hlhs
        exact (Prod.mk.inj (List.mem_singleton.mp hmem)).1
  · rintro r t (hV | ⟨rfl, rfl⟩) hwanted
    · exact (h.waits r t hV hwanted).imp_left fun hk ↦ (hhistory.retains r hk).1
    · obtain rfl := hgoal.resolve_right fun hnot ↦ hnot.2 hwanted
      obtain ⟨x, hcomputed, -⟩ := (htaken Nonterminal.noConfusion
        (hskeleton.hasValue_iff.mpr hwanted.value)).resolve_right fun hinlines ↦ hinlines.2
      exact Or.inl (hforest ▸ hcomputed)

/-- One more visit. -/
theorem visit (hp : Planted f trees w) (hrec : w.Recorded next os trees.flatten)
    (h : Chronicle w V v goals as) (hcomes : Comes trees w root v)
    (hvisit : selectTree root v = .ok x v') :
    ∃ goals' as', Chronicle w (fun r t ↦ V r t ∨ r = root ∧ t = v) v' goals' as' := by
  obtain ⟨done, rest, hall, hvisited⟩ := (Visited.kept hp).comes (.start hp hrec) hcomes
  obtain ⟨-, -, -, -, hcomplete⟩ :=
    (keptByVisits_complete hp.building.flat trees.flatten).comes ⟨.refl _, hp.complete⟩ hcomes
  rcases selectTree_eq_ok hvisit with
    ⟨hnone, -, hidle⟩ | ⟨goal, u, b, u', hstarts, hrun, -, hforest⟩
  · refine ⟨goals, as, ?_⟩
    rcases hidle with ⟨hskip, hforest⟩ | ⟨v₁, hemit, hforest⟩
    · refine h.idle hnone (hforest ▸ .nil _ _ _) fun hwanted ↦ Or.inl ?_
      rw [hforest]
      refine (Bool.or_eq_true_iff.mp hskip).resolve_left ?_
      rw [hvisited.skeleton.target, hwanted.target]
      exact Bool.false_ne_true
    · refine h.idle hnone ?_ fun _ ↦ Or.inr ⟨v₁, hemit⟩
      obtain ⟨rfl, -⟩ := shouldEmit_ok hemit
      rw [hforest]
      exact .same _ (v.forest.settles_refreshLevel root).skeleton
        (v.forest.sameValues_refreshLevel root) (v.forest.sameBooks_refreshLevel root).released
  · obtain ⟨-, -, -, -, hgoal⟩ := hstarts.labeled
    obtain ⟨as', h'⟩ := h.emit hp (h.marked hp hcomplete) hstarts hrun hforest <|
      hgoal.imp_right fun hstmt ↦ ⟨hstmt, fun hwanted ↦ Nonterminal.noConfusion
        (hstmt.symm.trans (hvisited.goal_of_wanted hp hrec hall hstarts hwanted))⟩
    exact ⟨_, _, h'⟩

end Chronicle

/-- What a selection does that comes to some of the roots of `trees`. -/
theorem Planted.chronicle (hp : Planted f trees w) (hrec : w.Recorded next os trees.flatten)
    {some : List (List NodeId)} (hsub : ∀ r t, Comes some w r t → Comes trees w r t)
    (hselect : selectAll some w = .ok x v) : ∃ goals as, Chronicle w (Comes some w) v goals as := by
  refine selectAll_visits (P := fun _ V v ↦ ∃ goals as, Chronicle w V v goals as) hselect
    ⟨[], [], .start w⟩ (fun _ V t b label ⟨goals, as, h⟩ ↦ ?_)
    fun _ V root v v' hcomes ⟨goals, as, h⟩ hvisit ↦ h.visit hp hrec (hsub root v hcomes) hvisit
  exact ⟨goals, as, h.mem, h.history, h.goals,
    fun r t a hV hmakes ↦ (h.follows r t a hV hmakes).later (.refl _), h.waits⟩

/-- **Selections.** Selection makes a list of applications, which have a history. -/
theorem selectAll_chronicle (hbuild : buildForest f (.start f s) = .ok trees w)
    (hselect : selectAll trees w = .ok x v) : ∃ goals as, Chronicle w (Comes trees w) v goals as :=
  (buildForest_planted hbuild).1.chronicle (buildForest_recorded hbuild) (fun _ _ h ↦ h) hselect

/-- So it does until it comes to a root; by then it has come to the roots before it. -/
theorem comes_chronicle (hbuild : buildForest f (.start f s) = .ok trees w)
    (hcomes : Comes trees w root v) : ∃ (V : NodeId → Workspace → Prop) (goals : _) (as : _),
      Chronicle w V v goals as ∧ (∀ r t, V r t → Comes trees w r t) ∧
        ∀ done rest, trees.flatten = done ++ root :: rest → ∀ r, r ∈ done ↔ ∃ t, V r t := by
  obtain ⟨hp, -⟩ := buildForest_planted hbuild
  have hrec := buildForest_recorded hbuild
  obtain ⟨blocks, before, after, more, htrees, hselect⟩ := hcomes.selectAll
  have hsub : ∀ r t, Comes (blocks ++ [before]) w r t → Comes trees w r t :=
    fun r t h ↦ htrees ▸ h.mono
  obtain ⟨goals, as, h⟩ := hp.chronicle hrec hsub hselect
  refine ⟨_, goals, as, h, hsub, fun done rest hall r ↦ ?_⟩
  suffices hdone : done = (blocks ++ [before]).flatten by
    rw [hdone]
    exact ⟨comes_of_mem hselect, fun ⟨t, ht⟩ ↦ ht.mem_flatten⟩
  -- roots are distinct, so there is one way to split them at `root`
  have hsorted : (done ++ root :: rest).Pairwise (· < ·) := hall ▸ hp.sorted
  have hbefore : root ∉ done := fun h ↦
    Nat.lt_irrefl _ ((List.pairwise_append.mp hsorted).2.2 root h root List.mem_cons_self)
  have hafter : root ∉ rest := fun h ↦
    Nat.lt_irrefl _ ((List.pairwise_cons.mp (List.pairwise_append.mp hsorted).2.1).1 root h)
  have hsplit : done ++ root :: rest =
      (blocks ++ [before]).flatten ++ root :: (after ++ more.flatten) := by
    rw [← hall, htrees]
    simp
  exact ((List.append_cons_inj_of_notMem hbefore hafter).mp hsplit).1

/-- Selection of `trees` from `w` leaves the root `k` to its consumers when it comes to it. -/
def Postpones (trees : List (List NodeId)) (w : Workspace) (k : NodeId) : Prop :=
  ∃ t u, Comes trees w k t ∧ shouldEmit k t = .ok false u

/-- A value that is wanted and has no register when a later root is reached was left to its consumers. -/
theorem postpones_of_lt (hbuild : buildForest f (.start f s) = .ok trees w)
    (hcomes : Comes trees w root v) (hwanted : w.forest.Wanted k) (hlt : k < root)
    (hnew : (v.forest.node k).computed = false) : Postpones trees w k := by
  obtain ⟨hp, -⟩ := buildForest_planted hbuild
  obtain ⟨done, rest, hall, -⟩ :=
    (Visited.kept hp).comes (.start hp (buildForest_recorded hbuild)) hcomes
  obtain ⟨V, goals, as, hchronicle, hsub, hdone⟩ := comes_chronicle hbuild hcomes
  obtain ⟨o, hop, -⟩ := hwanted.inst
  obtain ⟨t, ht⟩ := (hdone done rest hall k).mp ((hp.mem_done_iff hall (hp.mem_flatten hop)).mpr hlt)
  obtain ⟨u, hemit⟩ := (hchronicle.waits k t ht hwanted).resolve_left (by simp [hnew])
  exact ⟨t, u, hsub k t ht, hemit⟩

end TreeCover
