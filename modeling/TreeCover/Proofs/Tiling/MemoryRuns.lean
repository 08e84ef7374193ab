import TreeCover.Proofs.Tiling.MemoryAccesses
import TreeCover.Proofs.Tiling.Waiting

/-!
# Memory in a run of selection

The visit of a root makes the application of a store or a call only at the root itself, where all that
is read has been read. So whatever a visit reads it reads before its side effect. Selection visits the
roots one after the other, so it makes the applications of stores and calls in the order of their nodes,
and reads a load in the visit of a root that comes before all that overtakes the load. Main statements:
`selectTree_visiting`, `selectAll_run`.
-/

namespace TreeCover

open Ir Machine Work

/-! ## Visits -/

section

variable {text : String} {fs : List Func} {f : Func} {s : Session} {next : InstId}
  {os : List (Ir.Operand Value)} {trees : List (List NodeId)}
  {w t t' v u u' : Workspace} {k r : NodeId} {goal : Nonterminal} {b : Bound} {a base : Application}
  {as below chains before after : List Application} {m : Mem} {x z : Unit}

/-- What an application does to memory, in terms of the forest `g`. -/
structure Application.Accesses (a : Application) (g : Forest) : Prop where
  performs : if a.rule.action.isEffect then ∃ i, a.code.filter (·.hasSideEffect) = [i] ∧
    i.Performs (g.node a.node) else ∀ i ∈ a.code, i.hasSideEffect = false
  quiet : ∀ k m, a.Reads g k m → a.rule.action.isEffect = false
  reads : ∀ i ∈ a.code, i.readsMemory = true → ∀ m, .mem m ∈ i.operands → ∃ k, a.Reads g k m
  inputs : a.rule.action = .phiInput → ∀ m, a.kids[0]?.bind Bound.operand? = some (.mem m) →
    ∃ k, a.Reads g k m
  kinds : ∀ k m, a.Reads g k m → (g.node k).op = .inst .load ∨ ∃ idx, (g.node k).op = .arg idx
  loads : (g.node a.node).op = .inst .load → a.rule.lhs = .reg →
    ∃ i ∈ a.code, i.readsMemory = true ∧ ∃ m, .mem m ∈ i.operands ∧ a.Reads g a.node m

/-- What the visit of the root `r`, reached in `t`, makes, one after the other. -/
structure Visiting (w : Workspace) (r : NodeId) (t : Workspace) (as : List Application)
    (t' : Workspace) : Prop where
  mem : ∀ a, VisitMakes r t a ↔ a ∈ as
  block : ∀ a ∈ as, a.block = t.code.current
  code : ∀ b, instsAt t'.code.blocks b = instsAt t.code.blocks b ++
    if b = t.code.current then as.flatMap (·.code) else []
  length : t'.code.blocks.length = t.code.blocks.length
  accesses : ∀ a ∈ as, a.Accesses w.forest
  moves : ∀ a ∈ as, a.rule.action = .phiInput → a.node = r ∧ (w.forest.node r).op = .phiMove
  /-- The root has a side effect if something in the visit has one, and then that is the last. -/
  effects : (as.filter (·.rule.action.isEffect)).map (·.node) =
    if (w.forest.node r).hasSideEffect then [r] else []
  reads : ∀ before a after k m, as = before ++ a :: after → a.Reads w.forest k m →
    (w.forest.node k).op = .inst .load → (∀ a' ∈ before, a'.rule.action.isEffect = false) ∧
      w.forest.InTime k r
  /-- A load that may not wait is reduced to a register. -/
  stays : (w.forest.node r).op = .inst .load → ¬ w.forest.MayWait r →
    ∃ a ∈ as, a.node = r ∧ a.rule.lhs = .reg

namespace Traced

section

variable (he : Traced w t r as t' goal u b u')
include he

/-- Nothing in a tree is computed when its visit begins but what was before. -/
theorem hangsBelow (h : u.forest.Beneath r k) (hnew : (u.forest.node k).computed = false) :
    t.forest.HangsBelow r k := by
  have hskeleton := he.starts.sameValues.1
  exact hskeleton.below (fun k hk ↦ (he.values k).computed.trans hk) (h.hangsBelow hnew)

theorem beneath (ha : a ∈ as) : u.forest.Beneath r a.node :=
  he.trail.beneath he.derives (fun goal hgoal ↦ Or.inl (by rw [List.mem_singleton.mp hgoal])) a ha

theorem matches_rule (ha : a ∈ as) : a.rule.Matches u.forest a.node :=
  he.trail.matches_rule he.derives a ha

theorem placed (ha : a ∈ as) :
    List.Forall₂ (Placed u.forest) (a.rule.pattern.leaves u.forest a.node) a.kids :=
  (he.trail.placed he.derives).2 a ha

/-- What is read in a visit is pending when it begins. -/
theorem hangsBelow_of_reads (ha : a ∈ as) (hread : a.Reads w.forest k m)
    (hload : (w.forest.node k).op = .inst .load) : t.forest.HangsBelow r k := by
  have hread := (Application.Reads.of_sameSkeleton he.skeleton).mpr hread
  have hhead := (hread.head? (he.matches_rule ha) (he.placed ha)).resolve_left fun harg ↦ by
    obtain ⟨-, idx, hop⟩ := head?_arg harg
    exact absurd (hop.symm.trans ((he.skeleton.op k).trans hload)) NodeOp.noConfusion
  refine he.hangsBelow ?_ (head?_inst hhead).1
  rcases hread with ⟨rfl, -⟩ | hm
  · exact he.beneath ha
  · exact (he.beneath ha).leaf (he.matches_rule ha) (List.of_mem_zip hm).1

/-- A visit works in the block that was turned to. -/
theorem code_eq : u.code = t.code := by
  obtain ⟨labels, session, rfl⟩ := he.starts.state
  rfl

theorem current_lt (hlength : t.code.current < t.code.blocks.length) (ha : a ∈ as) :
    a.before.code.current < a.before.code.blocks.length := by
  have hblock : a.before.code.current = t.code.current :=
    (he.trail.code.2.1 a ha).trans (by rw [he.code_eq])
  rwa [he.trail.length_blocks.2 a ha, he.code_eq, hblock]

theorem accesses (hlength : t.code.current < t.code.blocks.length) (ha : a ∈ as) :
    a.Accesses w.forest where
  performs := by
    have hperforms := a.performs (he.current_lt hlength ha) (he.matches_rule ha)
      (he.trail.sameSkeleton a ha)
    split
    next heffect =>
      rw [if_pos heffect] at hperforms
      exact hperforms.imp fun i ⟨hi, hdoes⟩ ↦ ⟨hi, hdoes.of_sameSkeleton he.skeleton⟩
    next heffect => rwa [if_neg heffect] at hperforms
  quiet k m hread :=
    ((Application.Reads.of_sameSkeleton he.skeleton).mpr hread).isEffect (he.matches_rule ha)
  reads i hi hread m hm := (a.reads_of_code (he.matches_rule ha) (he.placed ha) hi hread hm).imp
    fun k ↦ (Application.Reads.of_sameSkeleton he.skeleton).mp
  inputs hphi m hm := (a.reads_of_input (he.matches_rule ha) (he.placed ha) hphi hm).imp
    fun k ↦ (Application.Reads.of_sameSkeleton he.skeleton).mp
  kinds k m hread := by
    rw [← he.skeleton.op]
    rcases ((Application.Reads.of_sameSkeleton he.skeleton).mpr hread).head? (he.matches_rule ha)
      (he.placed ha) with harg | hload
    · exact Or.inr (head?_arg harg).2
    · exact Or.inl (head?_inst hload).2
  loads hop hlhs := by
    rw [← he.skeleton.op] at hop
    have hloads := he.trail.loads he.derives a ha hlhs hop
    obtain ⟨i, hi, hread, m, hm⟩ := a.exists_reads (he.current_lt hlength ha)
      (hloads.imp_right fun ⟨haction, _, hkids⟩ ↦ ⟨haction, hkids⟩)
    obtain ⟨k, hreads⟩ := a.reads_of_code (he.matches_rule ha) (he.placed ha) hi hread hm
    -- it is the load itself that is read
    have hk : k = a.node := by
      rcases hloads with haction | ⟨haction, hleaves, -⟩
      · exact hreads.eq_node (he.matches_rule ha) haction
      · obtain ⟨-, hload, -⟩ | hmem := hreads
        · exact absurd (haction.symm.trans hload) Action.noConfusion
        · rw [hleaves] at hmem
          exact (Prod.mk.inj (List.mem_singleton.mp (List.of_mem_zip hmem).1)).1
    exact ⟨i, hi, hread, m, hm, (Application.Reads.of_sameSkeleton he.skeleton).mp (hk ▸ hreads)⟩

/-- The record of an input of a phi is made at the root. -/
theorem move (hp : Planted f trees w) (hrec : w.Recorded next os trees.flatten) (ha : a ∈ as)
    (hphi : a.rule.action = .phiInput) : a.node = r ∧ (w.forest.node r).op = .phiMove := by
  have hop := (head?_phiMove ((he.matches_rule ha).fits.head?
    (Grammar.head_of_phiInput a.rule (he.matches_rule ha).mem hphi))).2
  rw [he.skeleton.op] at hop
  have hnode : a.node = r := (he.beneath ha).resolve_right fun ⟨p, _, hkid⟩ ↦
    hp.not_kid_phiMove hrec hop p (he.skeleton.kidOwners p ▸ hkid)
  exact ⟨hnode, by rwa [← hnode]⟩

end

section

variable (hparse : parse text = .ok fs) (hf : f ∈ fs)
  (hbuild : buildForest f (.start f s) = .ok trees w)
  (hvoid : ∀ {p q}, q ∈ w.forest.kidOwners p → ¬ w.forest.IsVoidCall q)
  (hcomes : Comes trees w r t) (he : Traced w t r as t' goal u b u')
include hparse hf hbuild hvoid hcomes he

omit hparse hf hvoid in
theorem owner : w.forest.owner r = r :=
  Forest.owner_of_target ((hcomes.marked hbuild).skeleton.target r ▸ he.starts.labels.1)

/-- The applications of stores and calls are made at the root. -/
theorem node_of_isEffect (ha : a ∈ as) (heffect : a.rule.action.isEffect = true) : a.node = r := by
  obtain ⟨hnew, hside⟩ := (he.matches_rule ha).of_isEffect heffect
  by_contra hne
  have hquiet := hasSideEffect_of_hangsBelow hparse hf hbuild hvoid hcomes (he.owner hbuild hcomes)
    (he.hangsBelow (he.beneath ha) hnew) hne
  rw [Node.hasSideEffect, Node.opcode?, he.skeleton.op] at hside
  exact Bool.false_ne_true (hquiet.symm.trans hside)

/-- A visit does all that is below the root, then what the root stands for, and then reduces that
further. -/
theorem exists_base : ∃ below base chains, as = below ++ base :: chains ∧ base.node = r ∧
    (∀ a ∈ below, a.rule.action.isEffect = false) ∧
    base.rule.action.isEffect = (w.forest.node r).hasSideEffect ∧
    ∀ a ∈ chains, a.node = r ∧ a.rule.pattern.source?.isSome = true := by
  have hnew : (u.forest.node r).computed = false := by
    rw [(he.values r).computed]
    exact (Bool.or_eq_false_iff.mp he.starts.1).2
  have hskeleton := (hcomes.marked hbuild).skeleton
  have howner : u.forest.owner r = r := by
    rw [he.starts.sameValues.1.owner]
    exact Forest.owner_of_target he.starts.labels.1
  obtain ⟨below, base, chains, rfl, hbase⟩ := he.trail.exists_base hnew
  have hmatches : base.rule.Matches u.forest r := hbase.node ▸ he.matches_rule (by simp)
  refine ⟨below, base, chains, rfl, hbase.node, fun a ha ↦ Bool.eq_false_iff.mpr fun heffect ↦ ?_,
    ?_, hbase.chains⟩
  · obtain ⟨_, htrail⟩ := hbase.leaves
    exact htrail.node_ne he.derives he.falls hmatches howner hbase.head a ha
      (he.node_of_isEffect hparse hf hbuild hvoid hcomes (List.mem_append_left _ ha) heffect)
  · have hside : (w.forest.node r).hasSideEffect = (u.forest.node r).hasSideEffect := by
      rw [Node.hasSideEffect, Node.hasSideEffect, Node.opcode?, Node.opcode?, he.skeleton.op]
    rw [hside, Bool.eq_iff_iff]
    exact ⟨fun heffect ↦ (hmatches.of_isEffect heffect).2, hmatches.isEffect hbase.head hnew⟩

theorem effects : (as.filter (·.rule.action.isEffect)).map (·.node) =
    if (w.forest.node r).hasSideEffect then [r] else [] := by
  obtain ⟨below, base, chains, rfl, hnode, hbelow, hbase, hchains⟩ :=
    he.exists_base hparse hf hbuild hvoid hcomes
  have hafter : chains.filter (·.rule.action.isEffect) = [] := by
    refine List.filter_eq_nil_iff.mpr fun a ha ↦ Bool.eq_false_iff.mp ?_
    exact (Grammar.isEffect_of_chain a.rule (he.matches_rule (by simp [ha])).mem (hchains a ha).2).1
  have hbefore : below.filter (·.rule.action.isEffect) = [] :=
    List.filter_eq_nil_iff.mpr fun a ha ↦ Bool.eq_false_iff.mp (hbelow a ha)
  rw [List.filter_append, List.filter_cons, hafter, hbefore, hbase]
  split
  next => exact congrArg (fun k ↦ [k]) hnode
  next => rfl

/-- What is read is read before the side effect. -/
theorem reads (hsplit : as = before ++ a :: after) (hread : a.Reads w.forest k m)
    (hload : (w.forest.node k).op = .inst .load) : ∀ a' ∈ before, a'.rule.action.isEffect = false := by
  obtain ⟨below, base, chains, has, hnode, hbelow, hbase, hchains⟩ :=
    he.exists_base hparse hf hbuild hvoid hcomes
  have hchain : ∀ a ∈ chains, a.rule.action.isEffect = false ∧ a.rule.action ≠ .load := fun a ha ↦
    Grammar.isEffect_of_chain a.rule (he.matches_rule (by simp [has, ha])).mem (hchains a ha).2
  obtain ⟨l, rfl, hl⟩ | ⟨l, rfl, -⟩ := List.append_eq_append_iff.mp (has.symm.trans hsplit)
  · refine List.forall_mem_append.mpr ⟨hbelow, ?_⟩
    cases l with
    | nil => exact fun _ ha ↦ absurd ha List.not_mem_nil
    | cons c l =>
      obtain ⟨rfl, rfl⟩ := List.cons.inj hl
      -- a chain rule reads the root, which is a load then
      obtain ⟨hself, hsource⟩ := hchains a (by simp)
      obtain ⟨source, hsource⟩ := Option.isSome_iff_exists.mp hsource
      obtain ⟨-, hload', -⟩ | hm := hread
      · exact absurd hload' (hchain a (by simp)).2
      rw [← a.rule.pattern.takeLeaves_fst a.node w.forest (.refl _), Pattern.leaves_of_source hsource]
        at hm
      obtain rfl : k = r := (Prod.mk.inj (List.mem_singleton.mp (List.of_mem_zip hm).1)).1.trans hself
      refine List.forall_mem_cons.mpr ⟨?_, fun a' ha' ↦ (hchain a' (by simp [ha'])).1⟩
      rw [hbase, Node.hasSideEffect, Node.opcode?, hload]
      rfl
  · exact fun a' ha' ↦ hbelow a' (List.mem_append_left _ ha')

end

end Traced

/-! ## Visits -/

section

variable (hparse : parse text = .ok fs) (hf : f ∈ fs)
  (hbuild : buildForest f (.start f s) = .ok trees w)
  (hvoid : ∀ {p q}, q ∈ w.forest.kidOwners p → ¬ w.forest.IsVoidCall q)
  (hcomes : Comes trees w r t) (hvisit : selectTree r t = .ok x t')
include hbuild hcomes hvisit

omit hvisit in
/-- A root that looks at memory is not computed before its visit. -/
theorem not_computed_of_memory {o : Opcode} (hop : (w.forest.node r).op = .inst o)
    (hmemory : o.readsMemory = true ∨ o.writesMemory = true) :
    (t.forest.node r).computed = false := by
  obtain ⟨hp, -⟩ := buildForest_planted hbuild
  refine Bool.eq_false_iff.mpr fun hcomputed ↦ ?_
  obtain ⟨V, _, as, hchronicle, hV, hdone⟩ := comes_chronicle hbuild hcomes
  rcases hchronicle.history.computes r hcomputed with hold | ⟨-, hmade⟩
  · rw [hp.computed (by simp [hop])] at hold
    exact Bool.false_ne_true hold
  · -- it would have been reduced in the tree of an earlier root
    obtain ⟨a, ha, rfl, -⟩ := timesMade_pos.mp hmade
    obtain ⟨r', t', hr', hmakes⟩ := (hchronicle.mem a).mpr ha
    obtain ⟨done, later, hall⟩ := List.append_of_mem hcomes.mem_flatten
    have hlt := (hp.mem_done_iff hall (hV r' t' hr').mem_flatten).mp
      ((hdone done later hall r').mpr ⟨t', hr'⟩)
    rcases ((hV r' t' hr').under hbuild hmakes).below with hle | ⟨-, hargs⟩ | hnil
    · exact absurd hlt (Nat.not_lt.mpr hle)
    · exact absurd (hargs.symm.trans hop) NodeOp.noConfusion
    · exact hp.kids_ne hop hmemory hnil

/-- A root that is not computed and may not wait is emitted when it is visited. -/
theorem starts_of_not_mayWait (hphi : (w.forest.node r).op ≠ .inst .phi)
    (hnew : (t.forest.node r).computed = false) (hstays : ¬ w.forest.MayWait r) :
    ∃ goal u, Starts r goal t u := by
  obtain ⟨hp, -⟩ := buildForest_planted hbuild
  rcases selectTree_eq_ok hvisit with ⟨-, -, ⟨hskip, -⟩ | ⟨v₁, hemit, -⟩⟩ | ⟨goal, u, _, _, hstarts, -⟩
  · rw [(hcomes.marked hbuild).skeleton.target, hp.target_of_ne_phi hphi, hnew] at hskip
    exact absurd hskip Bool.false_ne_true
  · obtain ⟨_, _, -, hvisited⟩ :=
      (Visited.kept hp).comes (.start hp (buildForest_recorded hbuild)) hcomes
    exact absurd (hvisited.mayWait hemit) hstays
  · exact ⟨goal, u, hstarts⟩

/-- A root that looks at memory and may not wait is emitted when it is visited. -/
theorem exists_starts {o : Opcode} (hop : (w.forest.node r).op = .inst o)
    (hmemory : o.readsMemory = true ∨ o.writesMemory = true) (hstays : ¬ w.forest.MayWait r) :
    ∃ goal u, Starts r goal t u := by
  refine starts_of_not_mayWait hbuild hcomes hvisit ?_ (not_computed_of_memory hbuild hcomes hop hmemory)
    hstays
  rw [hop]
  rintro heq
  obtain rfl := NodeOp.inst.inj heq
  exact hmemory.elim Bool.noConfusion Bool.noConfusion

omit hvisit in
/-- Where a load is emitted it is reduced to a register. -/
theorem Traced.exists_register (he : Traced w t r as t' goal u b u')
    (hop : (w.forest.node r).op = .inst .load) : ∃ a ∈ as, a.node = r ∧ a.rule.lhs = .reg := by
  have hnew : (u.forest.node r).computed = false :=
    (he.values r).computed.trans (not_computed_of_memory hbuild hcomes hop (Or.inl rfl))
  refine he.trail.exists_register he.derives ?_ hnew ?_
  · rw [Node.head?, hnew, he.skeleton.op, hop]
    rfl
  · obtain ⟨-, _, _, -, rfl, -⟩ := he.starts
    rw [goalOf]
    split
    next => exact Or.inl rfl
    next => exact Or.inr rfl

include hparse hf hvoid

/-- **Visits.** -/
theorem selectTree_visiting (hlength : t.code.current < t.code.blocks.length) :
    ∃ as, Visiting w r t as t' := by
  obtain ⟨hp, -⟩ := buildForest_planted hbuild
  obtain ⟨as, hmem, ⟨rfl, hnone, hcode, -⟩ | ⟨goal, u, b, u', he⟩⟩ :=
    selectTree_trail hp (hcomes.marked hbuild) hvisit
  · have hwaits : ∀ o, (w.forest.node r).op = .inst o → o.readsMemory = true ∨ o.writesMemory = true →
        w.forest.MayWait r := by
      intro o hop hmemory
      by_contra hstays
      obtain ⟨goal, u, hstarts⟩ := exists_starts hbuild hcomes hvisit hop hmemory hstays
      exact hnone goal u hstarts
    refine ⟨[], hmem, by simp, fun b ↦ by simp [hcode], by rw [hcode], by simp, by simp, ?_, by simp,
      fun hop hstays ↦ absurd (hwaits _ hop (Or.inl rfl)) hstays⟩
    rw [if_neg fun heffect ↦ ?_]
    · rfl
    · rcases Node.op_of_hasSideEffect heffect with hop | hop <;>
        exact Bool.false_ne_true ((hwaits _ hop (Or.inr rfl)).effect.symm.trans heffect)
  · obtain ⟨hcurrent, hblock, hinsts⟩ := he.trail.code
    rw [he.code_eq] at hblock hinsts
    exact ⟨as, {
      mem := hmem
      block := hblock
      code := fun b ↦ he.code ▸ hinsts b
      length := by rw [he.code, he.trail.length_blocks.1, he.code_eq]
      accesses := fun a ha ↦ he.accesses hlength ha
      moves := fun a ha ↦ he.move hp (buildForest_recorded hbuild) ha
      effects := he.effects hparse hf hbuild hvoid hcomes
      reads := fun before a after k m hsplit hread hload ↦
        ⟨he.reads hparse hf hbuild hvoid hcomes hsplit hread hload,
          inTime_of_hangsBelow hparse hf hbuild hvoid hcomes (he.owner hbuild hcomes)
            (he.hangsBelow_of_reads (by simp [hsplit]) hread hload) hload⟩
      stays := fun hop _ ↦ he.exists_register hbuild hcomes hop }⟩

end

end

/-! ## Runs -/

variable {text : String} {fs : List Func} {f : Func} {s : Session} {trees : List (List NodeId)}
  {w t t' v : Workspace} {k r : NodeId} {a : Application} {as as' before after : List Application}
  {done : List NodeId} {V : NodeId → Workspace → Prop} {b : BlockId} {x z : Unit}

/-- The code that applications emit into block `b`. -/
def codeOf (b : BlockId) (as : List Application) : List Machine.Inst :=
  (as.filter (·.block = b)).flatMap (·.code)

theorem codeOf_append (b : BlockId) (as as' : List Application) :
    codeOf b (as ++ as') = codeOf b as ++ codeOf b as' := by
  rw [codeOf, List.filter_append, List.flatMap_append]
  rfl

/-- Applications that are all made in one block. -/
theorem codeOf_of_block (hblock : ∀ a ∈ as, a.block = r) :
    codeOf b as = if b = r then as.flatMap (·.code) else [] := by
  rw [codeOf]
  split
  next heq =>
    rw [List.filter_eq_self.mpr fun a ha ↦ decide_eq_true ((hblock a ha).trans heq.symm)]
  next hne =>
    rw [List.filter_eq_nil_iff.mpr fun a ha ↦ by simpa [hblock a ha] using Ne.symm hne]
    rfl

/-- The roots with side effects among some applications are those among some roots. -/
def SameEffects (w : Workspace) (as : List Application) (roots : List NodeId) : Prop :=
  (as.filter (·.rule.action.isEffect)).map (·.node) =
    roots.filter fun r ↦ (w.forest.node r).hasSideEffect

/-- What selection from `w` has made when it has visited the roots `done` and is in the state `v`. -/
structure Run (w : Workspace) (done : List NodeId) (V : NodeId → Workspace → Prop) (v : Workspace)
    (as : List Application) : Prop where
  mem : ∀ a, (∃ r t, V r t ∧ VisitMakes r t a) ↔ a ∈ as
  length : v.code.blocks.length = w.code.blocks.length
  code : ∀ b, instsAt v.code.blocks b = codeOf b as
  accesses : ∀ a ∈ as, a.Accesses w.forest
  effects : SameEffects w as done
  /-- Stores, calls and inputs of phis are made in the block of their node. -/
  places : ∀ a ∈ as, a.rule.action.isEffect = true ∨ a.rule.action = .phiInput →
    (w.forest.node a.node).block = some a.block
  reads : ∀ before a after k m, as = before ++ a :: after → a.Reads w.forest k m →
    (w.forest.node k).op = .inst .load → ∃ d r d', done = d ++ r :: d' ∧ SameEffects w before d ∧
      (w.forest.node r).block = some a.block ∧ w.forest.InTime k r ∧
        (a.rule.action = .phiInput → (w.forest.node r).op = .phiMove)
  stays : ∀ r ∈ done, (w.forest.node r).op = .inst .load → ¬ w.forest.MayWait r →
    ∃ a ∈ as, a.node = r ∧ a.rule.lhs = .reg

namespace Run

theorem start (hinsts : ∀ b, instsAt w.code.blocks b = []) : Run w [] (fun _ _ ↦ False) w [] where
  mem a := ⟨fun ⟨_, _, h, _⟩ ↦ h.elim, fun ha ↦ absurd ha List.not_mem_nil⟩
  length := rfl
  code := hinsts
  accesses _ ha := absurd ha List.not_mem_nil
  effects := rfl
  places _ ha := absurd ha List.not_mem_nil
  reads _ _ _ _ _ h := absurd h (by simp)
  stays _ hr := absurd hr List.not_mem_nil

theorem beginBlock (h : Run w done V v as) (b : BlockId) (label : Option LabelId) :
    Run w done V { v with code := v.code.beginBlock b label } as :=
  { h with
    length := (List.length_modify ..).trans h.length
    code := fun c ↦ ((Code.SameBodies.beginBlock v.code b label).instsAt c).trans (h.code c) }

/-- The visit of one more root. -/
theorem visit (h : Run w done V t as) (hvisits : Visiting w r t as' t')
    (hblock : (w.forest.node r).block = some t.code.current) :
    Run w (done ++ [r]) (fun r' u ↦ V r' u ∨ r' = r ∧ u = t) t' (as ++ as') where
  mem a := by
    rw [List.mem_append, ← h.mem, ← hvisits.mem]
    constructor
    · rintro ⟨r', u, hV | ⟨rfl, rfl⟩, hmakes⟩
      · exact Or.inl ⟨r', u, hV, hmakes⟩
      · exact Or.inr hmakes
    · rintro (⟨r', u, hV, hmakes⟩ | hmakes)
      · exact ⟨r', u, Or.inl hV, hmakes⟩
      · exact ⟨r, t, Or.inr ⟨rfl, rfl⟩, hmakes⟩
  length := hvisits.length.trans h.length
  code b := by rw [hvisits.code, h.code, codeOf_append, codeOf_of_block hvisits.block]
  accesses := List.forall_mem_append.mpr ⟨h.accesses, hvisits.accesses⟩
  effects := by
    rw [SameEffects, List.filter_append, List.filter_append, List.map_append, h.effects, hvisits.effects,
      List.filter_singleton]
    cases (w.forest.node r).hasSideEffect <;> rfl
  places := by
    refine List.forall_mem_append.mpr ⟨h.places, fun a ha hwhy ↦ ?_⟩
    suffices hnode : a.node = r by rw [hnode, hblock, hvisits.block a ha]
    rcases hwhy with heffect | hphi
    · have hmem := List.mem_map_of_mem (f := (·.node))
        (List.mem_filter (p := fun a ↦ a.rule.action.isEffect).mpr ⟨ha, heffect⟩)
      rw [hvisits.effects] at hmem
      split at hmem
      · exact List.mem_singleton.mp hmem
      · exact absurd hmem List.not_mem_nil
    · exact (hvisits.moves a ha hphi).1
  reads before a after k m hsplit hread hload := by
    rcases append_eq_append_cons_iff.mp hsplit with ⟨l, rfl, -⟩ | ⟨l, rfl, hl⟩
    · obtain ⟨d, r', d', rfl, hrest⟩ := h.reads before a l k m rfl hread hload
      exact ⟨d, r', d' ++ [r], by simp, hrest⟩
    · -- in this visit nothing with a side effect came before
      obtain ⟨hbefore, hintime⟩ := hvisits.reads l a after k m hl hread hload
      have ha : a ∈ as' := by simp [hl]
      refine ⟨done, r, [], rfl, ?_, by rw [hblock, hvisits.block a ha], hintime,
        fun hphi ↦ (hvisits.moves a ha hphi).2⟩
      rw [SameEffects, List.filter_append, List.filter_eq_nil_iff.mpr fun a' ha' ↦
        Bool.eq_false_iff.mp (hbefore a' ha'), List.append_nil]
      exact h.effects
  stays := by
    refine List.forall_mem_append.mpr ⟨fun r' hr' hop hstays ↦ ?_, fun r' hr' hop hstays ↦ ?_⟩
    · exact (h.stays r' hr' hop hstays).imp fun a ⟨ha, h⟩ ↦ ⟨List.mem_append_left _ ha, h⟩
    · obtain rfl := List.mem_singleton.mp hr'
      exact (hvisits.stays hop hstays).imp fun a ⟨ha, h⟩ ↦ ⟨List.mem_append_right _ ha, h⟩

end Run

/-- **Runs.** -/
theorem selectAll_run (hparse : parse text = .ok fs) (hf : f ∈ fs)
    (hbuild : buildForest f (.start f s) = .ok trees w) (hselect : selectAll trees w = .ok z v) :
    ∃ as, Run w trees.flatten (Comes trees w) v as := by
  obtain ⟨hp, hlength⟩ := buildForest_planted hbuild
  refine selectAll_visits (P := fun done V v ↦ ∃ as, Run w done V v as) hselect
    ⟨[], .start hp.declared.blank.insts⟩ (fun done V t b label ⟨as, h⟩ ↦ ⟨as, h.beginBlock b label⟩)
    fun done V r t t' hcomes ⟨as, h⟩ hvisit ↦ ?_
  obtain ⟨roots, hroots, hr⟩ := hcomes.current
  have hcurrent : t.code.current < t.code.blocks.length := by
    rw [h.length, hp.declared.blank.length, ← hlength]
    exact (List.getElem?_eq_some_iff.mp hroots).1
  obtain ⟨as', hvisits⟩ := selectTree_visiting hparse hf hbuild
    (not_voidCall_of_selectAll hbuild hselect) hcomes hvisit hcurrent
  exact ⟨as ++ as', h.visit hvisits ((hp.block _ roots hroots).block r hr)⟩

end TreeCover
