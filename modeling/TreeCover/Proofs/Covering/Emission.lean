import TreeCover.Proofs.Covering.Reduction
import TreeCover.Proofs.Work.Keeping

/-!
# Covered trees are emitted

In a function in which no operand reads the result of a call that has none, every tree that labeling
covers can be emitted, unless a constant is added to the displacement of an address that leaves 32 bits:
the guard of that rule looks at the constant alone, and not at the address that it is added to. Main
statement: `covered_emitted`; in `shifted_not_emitted` this is what happens.
-/

namespace TreeCover

open Ir Machine Work

variable {f : Func} {trees blocks : List (List NodeId)} {done roots : List NodeId} {root : NodeId}
  {goal : Nonterminal} {w w' v u : Workspace} {s : Session} {e : CompileError} {x : Unit}

/-! ## Visits -/

theorem Forest.Later.refl {g : Forest} (hflat : g.Flat) (hcomplete : g.Complete) : g.Later g :=
  ⟨hflat, .refl g, fun _ h ↦ h, hcomplete⟩

theorem Forest.Complete.refreshLevel {g : Forest} (h : g.Complete) (root : NodeId) :
    (g.refreshLevel root).2.Complete := by
  have hprogress : g.Progress (fun _ ↦ True) (fun _ ↦ True) (fun _ _ ↦ True)
      (g.refreshLevel root).2 := g.progress_refreshLevel root
  exact h.same hprogress.skeleton (h.slotted.same (g.sameValues_refreshLevel root))

/-- Selection keeps what actions look at. -/
theorem keptByVisits_complete (hflat : w.forest.Flat) (all : List NodeId) :
    KeptByVisits all fun _ v ↦ w.forest.SameSkeleton v.forest ∧ v.forest.Complete where
  block _ _ _ _ h := h
  root _ root v v' _ hv h := by
    rcases selectTree_ok h with ⟨-, rfl⟩ | ⟨-, e, v₁, he, hemit⟩
    · exact hv
    · obtain ⟨rfl, -⟩ := shouldEmit_ok he
      have hcomplete := hv.2.refreshLevel root
      have hprogress : v.forest.Progress (fun _ ↦ True) (fun _ ↦ True) (fun _ _ ↦ True)
          (v.forest.refreshLevel root).2 := v.forest.progress_refreshLevel root
      have hskeleton := hv.1.trans hprogress.skeleton
      have hflat := hskeleton.flat hflat
      rcases hemit with ⟨-, hemit⟩ | ⟨-, session, rfl⟩
      · obtain ⟨fuel, labels, session, b, v₂, hsound, hreduce, -, hforest⟩ := selectRoot_ok hemit
        obtain ⟨hlater, -, -⟩ := (keptByReduction_later (v.forest.refreshLevel root).2 _).reduceFrom
          (keptByReduction_true hflat).2 (fun _ hk ↦ hk)
          (w := { v with forest := (v.forest.refreshLevel root).2, labels, session })
          ⟨hsound, .refl _, hflat.owner_owner root⟩ hreduce
        have hlater := hlater (.refl hflat hcomplete)
        exact hforest ▸ ⟨hskeleton.trans hlater.skeleton, hlater.complete⟩
      · exact ⟨hskeleton, hcomplete⟩

/-! ## Roots -/

namespace Work

/-- What is known when the reduction of a root starts. -/
theorem Starts.labeled (h : Starts root goal v u) :
    (v.forest.node root).target = none ∧ u.forest = (v.forest.refreshLevel root).2 ∧
      labelTree u.forest root [] = .ok () u.labels ∧ u.labels.cost root goal < infinite ∧
      (goal = .reg ∨ goal = .stmt) := by
  obtain ⟨hnot, v₁, v₂, hemit, hgoal, hlabel, hcost, rfl⟩ := h
  obtain ⟨rfl, -⟩ := shouldEmit_ok hemit
  obtain ⟨labels, session, -, htree, rfl⟩ := label_ok hlabel
  refine ⟨by simpa using (Bool.or_eq_false_iff.mp hnot).1, rfl, htree, hcost, ?_⟩
  rw [hgoal, goalOf]
  split
  next => exact Or.inl rfl
  next => exact Or.inr rfl

end Work

/-- **Roots.** The reduction of a root that is covered succeeds, or a displacement gets out of range. -/
theorem Work.Starts.reduce_ends (hbuild : buildForest f (.start f s) = .ok trees w)
    (hvalues : f.UsesValues) (hcomes : Comes trees w root v) (hstarts : Starts root goal v u) :
    (∃ b u', reduce root goal u = .ok b u') ∨
      (∃ u', reduce root goal u = .error outOfRange u') ∧
        Overflows ((u.forest.size + 1) * (Nonterminal.all.length + 1)) root goal u := by
  obtain ⟨hp, -⟩ := buildForest_planted hbuild
  have hrec := buildForest_recorded hbuild
  obtain ⟨htarget, hforest, htree, hcost, hgoal⟩ := hstarts.labeled
  obtain ⟨_, _, -, hskeleton, hcomplete⟩ :=
    (keptByVisits_complete hp.building.flat trees.flatten).comes ⟨.refl _, hp.complete⟩ hcomes
  have hprogress : v.forest.Progress (fun _ ↦ True) (fun _ ↦ True) (fun _ _ ↦ True)
      (v.forest.refreshLevel root).2 := v.forest.progress_refreshLevel root
  have hskeleton' : w.forest.SameSkeleton u.forest := hforest ▸ hskeleton.trans hprogress.skeleton
  have hflat := hskeleton'.flat hp.building.flat
  have howner : u.forest.owner root = root := by
    rw [hforest, hprogress.skeleton.owner]
    exact Forest.owner_of_target htarget
  have hfalls := hp.falling hskeleton'
  have hderives : u.labels.Derives u.forest :=
    derives_labelTree hfalls (hflat.owner_owner root) htree
  have hunderway : Underway u.forest u.labels u :=
    ⟨rfl, .refl hflat (hforest ▸ hcomplete.refreshLevel root)⟩
  have hends : Ends u.forest ((u.forest.size + 1) * (Nonterminal.all.length + 1)) root goal u := by
    refine reduceFrom_ends hfalls hderives (fun p c hc ↦ ?_) hunderway ?_ (fun _ ↦ hgoal) ?_
    · rw [hskeleton'.kidOwners] at hc
      have hnot := hp.not_voidCall hrec hvalues hc
      rwa [Forest.IsVoidCall, hskeleton'.op, hskeleton'.width]
    · rw [howner, Labels.Covers, Labels.rule?]
      simpa using NodeLabel.Grounded.isSome_of_cost hcost
    · have hrank := w.forest.rank_le (u.forest.owner root)
      have hdepth := u.labels.depth_le (u.forest.owner root) goal
      have hsize := hskeleton'.size
      have hall : Nonterminal.all.length = 9 := rfl
      rw [hall]
      omega
  rcases hends with ⟨b, u', hrun, -⟩ | hlost
  · exact Or.inl ⟨b, u', hrun⟩
  · exact Or.inr hlost

/-! ## Reductions that get out of range -/

/-- A reduction that succeeds has succeeded with everything that it came to. -/
theorem Calls.succeeds {fuel fuel' : Nat} {id id' : NodeId} {nt nt' : Nonterminal} {b : Bound}
    (h : Calls fuel id nt w fuel' id' nt' v) (hrun : reduceFrom fuel id nt w = .ok b w') :
    ∃ b' v', reduceFrom fuel' id' nt' v = .ok b' v' := by
  induction h generalizing b w' with
  | self => exact ⟨b, w', hrun⟩
  | leaf hreuse hrule hleaves hbefore _ ih =>
    rw [reduceFrom_of_rule hreuse hrule, hleaves] at hrun
    obtain ⟨kids, w₁, hkids, -⟩ := bind_eq_ok.mp hrun
    obtain ⟨bs, v', b', w₂, hbefore', hleaf⟩ := mapM_append_cons_eq_ok hkids
    obtain ⟨rfl, rfl⟩ := EStateM.Result.ok.inj (hbefore.symm.trans hbefore')
    exact ih hleaf

/-- A reduction that comes to a displacement out of range does not succeed. -/
theorem Overflows.not_ok {fuel : Nat} {id : NodeId} {nt : Nonterminal} {b : Bound}
    (h : Overflows fuel id nt w) : reduceFrom fuel id nt w ≠ .ok b w' := by
  intro hrun
  obtain ⟨fuel', k, goal, v, r, kids, v', hcalls, hreuse, hrule, haction, hkids, m, x, hm, hx, hrange⟩ := h
  obtain ⟨b', u, hcalled⟩ := hcalls.succeeds hrun
  rw [reduceFrom_of_rule hreuse hrule, bind_of_ok hkids,
    bind_of_error (applyRule_overflow haction hm hx hrange)] at hcalled
  exact nomatch hcalled

/-! ## Selections that fail -/

namespace Work

/-- The reduction of a root comes to a displacement out of range. -/
def OutOfReach (root : NodeId) (goal : Nonterminal) (u : Workspace) : Prop :=
  Overflows ((u.forest.size + 1) * (Nonterminal.all.length + 1)) root goal u

/-- A root that is reached in the state `v` is to be emitted where it stands. -/
def Emitted (root : NodeId) (v : Workspace) : Prop :=
  ((v.forest.node root).target.isSome || (v.forest.node root).computed) = false ∧
    ∃ v', shouldEmit root v = .ok true v'

/-- The failure of labeling. -/
def Uncovered (e : CompileError) : Prop := ∃ name id op, e = .uncovered name id op

theorem failCovering_eq_error {α : Type} {id : NodeId}
    (h : (failCovering id : Work α) w = .error e w') : Uncovered e :=
  ⟨_, _, _, (EStateM.Result.error.inj h).1.symm⟩

/-- Labeling fails because a node cannot be reduced to anything. -/
theorem label_eq_error (h : label root w = .error e w') : Uncovered e := by
  rw [label, get_bind] at h
  cases hlabels : (labelTree w.forest root).run [] with
  | ok x ls =>
    rw [hlabels] at h
    cases h
  | error id ls =>
    simp only [hlabels] at h
    rcases bind_eq_error.mp h with hmodify | ⟨_, _, -, hfail⟩
    · cases hmodify
    · exact failCovering_eq_error hfail

/-- The notes taken of a reduction do not fail. -/
theorem Starts.reduce_eq_error (hstarts : Starts root goal v u)
    (h : Work.selectTree root v = .error e w') : reduce root goal u = .error e w' := by
  obtain ⟨notes, heq, hnotes⟩ := hstarts.selectTree
  rw [heq] at h
  rcases bind_eq_error.mp h with hreduce | ⟨b, u', -, hnote⟩
  · exact hreduce
  · obtain ⟨u'', hok⟩ := hnotes b u'
    exact nomatch hnote.symm.trans hok

/-- A visit that fails is that of a root that has to be emitted: its tree is not covered, or its reduction
fails. -/
theorem selectTree_eq_error (h : selectTree root v = .error e w') : Emitted root v ∧
    ((∀ goal u, ¬ Starts root goal v u) ∧ Uncovered e ∨
      ∃ goal u, Starts root goal v u ∧ reduce root goal u = .error e w') := by
  have hvisit := h
  rw [selectTree, node_bind] at h
  by_cases hskip : ((v.forest.node root).target.isSome || (v.forest.node root).computed) = true
  · rw [if_pos hskip] at h
    cases h
  · rw [if_neg hskip] at h
    have hnot := Bool.eq_false_iff.mpr hskip
    rcases bind_eq_error.mp h with hnever | ⟨emit, v₁, hemit, h⟩
    · cases hnever
    cases emit with
    | false => cases h
    | true =>
      refine ⟨⟨hnot, v₁, hemit⟩, ?_⟩
      simp only [if_true] at h
      by_cases hstarts : ∃ goal u, Starts root goal v u
      · obtain ⟨goal, u, hstarts⟩ := hstarts
        exact Or.inr ⟨goal, u, hstarts, hstarts.reduce_eq_error hvisit⟩
      · refine Or.inl ⟨fun goal u hu ↦ hstarts ⟨goal, u, hu⟩, ?_⟩
        rw [selectRoot, get_bind] at h
        rcases bind_eq_error.mp h with hlabel | ⟨_, v₂, hlabel, h⟩
        · exact label_eq_error hlabel
        · rw [get_bind] at h
          by_cases hcost : v₂.labels.cost root (goalOf v₁.forest root) < infinite
          · exact absurd ⟨_, _, hnot, v₁, v₂, hemit, rfl, hlabel, hcost, rfl⟩ hstarts
          · rw [if_neg hcost] at h
            rcases bind_eq_error.mp h with hfail | ⟨_, _, hfail, -⟩
            · exact failCovering_eq_error hfail
            · exact absurd hfail failCovering_ne_ok

/-- A selection that fails does so at a root that it comes to. -/
theorem selectAll_eq_error (h : selectAll trees w = .error e w') :
    ∃ root v, Comes trees w root v ∧ selectTree root v = .error e w' := by
  obtain ⟨before, ⟨roots, b⟩, after, v₁, hsplit, hbefore, herror⟩ := forM_eq_error h
  obtain ⟨blocks, rest, rfl, rfl, hrest⟩ := List.zipIdx_eq_append_iff.mp hsplit
  obtain ⟨_, later, rfl, hhead, -⟩ := List.zipIdx_eq_cons_iff.mp hrest.symm
  obtain ⟨rfl, rfl⟩ := Prod.mk.inj hhead
  change (do
    let label := blockLabel? (← get) (0 + blocks.length)
    modifyCode (·.beginBlock (0 + blocks.length) label)
    selectBlock roots) v₁ = _ at herror
  rw [get_bind] at herror
  rcases bind_eq_error.mp herror with hnever | ⟨_, v₂, hbegin, hblock⟩
  · exact nomatch hnever
  obtain rfl := modify_eq_ok.mp hbegin
  obtain ⟨done, root, more, v, rfl, hdone, hroot⟩ := forM_eq_error hblock
  rw [Nat.zero_add] at hdone
  exact ⟨root, v, ⟨blocks, done, more, later, v₁, rfl, hbefore, hdone⟩, hroot⟩

end Work

/-! ## Functions -/

/-- When trees are emitted in a selection of `trees` from `w`. -/
structure EmitsCovered (trees : List (List NodeId)) (w : Workspace) : Prop where
  /-- The reduction of a root that labeling covers succeeds if and only if no displacement gets out of
  range, … -/
  root : ∀ root goal v u, Comes trees w root v → Starts root goal v u →
    ((∃ b u', reduce root goal u = .ok b u') ↔ ¬ OutOfReach root goal u)
  /-- … which is the only reason for it to fail. -/
  reason : ∀ root goal v u, Comes trees w root v → Starts root goal v u →
    ∀ e u', reduce root goal u = .error e u' → e = outOfRange
  /-- If all roots that have to be emitted are covered and stay in range, selection succeeds. -/
  all : (∀ root v, Comes trees w root v → Emitted root v →
    ∃ goal u, Starts root goal v u ∧ ¬ OutOfReach root goal u) → ∃ v, selectAll trees w = .ok () v

/-- **Covered trees are emitted**, in every function in which no operand reads the result of a call that
has none, unless a displacement gets out of range. -/
theorem covered_emitted (hbuild : buildForest f (.start f s) = .ok trees w) (hvalues : f.UsesValues) :
    EmitsCovered trees w := by
  have hends := fun root goal v u (hcomes : Comes trees w root v) (hstarts : Starts root goal v u) ↦
    hstarts.reduce_ends hbuild hvalues hcomes
  refine ⟨fun root goal v u hcomes hstarts ↦ ?_, fun root goal v u hcomes hstarts e u' herror ↦ ?_,
    fun hall ↦ ?_⟩
  · rcases hends root goal v u hcomes hstarts with ⟨b, u', hrun⟩ | ⟨⟨u', hrun⟩, hlost⟩
    · exact ⟨fun _ hlost ↦ Overflows.not_ok hlost hrun, fun _ ↦ ⟨b, u', hrun⟩⟩
    · exact ⟨fun ⟨_, _, hok⟩ ↦ (nomatch hrun.symm.trans hok), fun hnot ↦ absurd hlost hnot⟩
  · rcases hends root goal v u hcomes hstarts with ⟨b, u₁, hrun⟩ | ⟨⟨u₁, hrun⟩, -⟩
    · exact nomatch hrun.symm.trans herror
    · exact (EStateM.Result.error.inj (hrun.symm.trans herror)).1.symm
  · cases hselect : selectAll trees w with
    | ok x v => exact ⟨v, rfl⟩
    | error e v =>
      obtain ⟨root, v₁, hcomes, herror⟩ := selectAll_eq_error hselect
      obtain ⟨goal, u, hstarts, hnot⟩ := hall root v₁ hcomes (selectTree_eq_error herror).1
      rcases hends root goal v₁ u hcomes hstarts with ⟨b, u₁, hrun⟩ | ⟨-, hlost⟩
      · exact nomatch hrun.symm.trans (hstarts.reduce_eq_error herror)
      · exact absurd hlost hnot

/-! ## Two displacements -/

/-- Returns its argument plus two constants. -/
def shifted (x y : Int) : Func where
  name := "f"
  ret := .int 64
  params := [⟨"x", .int 64⟩]
  blocks := [⟨"entry", [⟨some "a", .int 64, .binary .add (.value (.arg 0)) (.int x 64)⟩,
    ⟨some "b", .int 64, .binary .add (.value (.inst 0)) (.int y 64)⟩,
    ⟨none, .int 64, .ret (some (.value (.inst 1)))⟩]⟩]

theorem usesValues_shifted (x y : Int) : (shifted x y).UsesValues := by
  intro b z hz hcall
  obtain ⟨block, n, hb, hn, -⟩ := Func.mem_blockInsts.mp hz
  obtain rfl := List.mem_singleton.mp (List.mem_of_getElem? hb)
  have hi := List.mem_of_getElem? hn
  simp only [List.mem_cons, List.not_mem_nil, or_false] at hi
  rcases hi with hi | hi | hi <;> exact absurd (hi ▸ hcall) Opcode.noConfusion

theorem selects_shifted : ∃ v, (buildForest (shifted 2147483646 1) >>= selectAll)
    (.start (shifted 2147483646 1) {}) = .ok () v := by
  have hcheck : succeeds (fun _ _ ↦ true) ((buildForest (shifted 2147483646 1) >>= selectAll)
      (.start (shifted 2147483646 1) {})) = true := by decide +kernel
  obtain ⟨_, v, hrun, -⟩ := exists_of_succeeds hcheck
  exact ⟨v, hrun⟩

theorem shifted_emitted : ∃ trees w v,
    buildForest (shifted 2147483646 1) (.start (shifted 2147483646 1) {}) = .ok trees w ∧
      (shifted 2147483646 1).UsesValues ∧ EmitsCovered trees w ∧ selectAll trees w = .ok () v := by
  obtain ⟨v, hrun⟩ := selects_shifted
  obtain ⟨trees, w, hbuild, hselect⟩ := bind_eq_ok.mp hrun
  have hvalues := usesValues_shifted 2147483646 1
  exact ⟨trees, w, v, hbuild, hvalues, covered_emitted hbuild hvalues, hselect⟩

/-- Whether selection failed with a displacement out of range. -/
def isStranded : EStateM.Result CompileError Workspace Unit → Bool
  | .error (.binding name .displacementRange) _ => name = "addr_disp"
  | _ => false

theorem exists_of_isStranded {x : EStateM.Result CompileError Workspace Unit}
    (h : isStranded x = true) : ∃ v, x = .error outOfRange v := by
  unfold isStranded at h
  split at h
  next name v =>
    obtain rfl := of_decide_eq_true h
    exact ⟨v, rfl⟩
  next => exact absurd h Bool.false_ne_true

/-- Two constants whose sum leaves 32 bits: the forest is built, and selection fails. -/
theorem strands_shifted : ∃ trees w v,
    buildForest (shifted 2147483647 2147483647) (.start (shifted 2147483647 2147483647) {})
        = .ok trees w ∧
      selectAll trees w = .error outOfRange v := by
  have hcheck : succeeds (fun trees w ↦ isStranded (selectAll trees w))
      (buildForest (shifted 2147483647 2147483647)
        (.start (shifted 2147483647 2147483647) {})) = true := by decide +kernel
  obtain ⟨trees, w, hbuild, hstrands⟩ := exists_of_succeeds hcheck
  obtain ⟨v, hselect⟩ := exists_of_isStranded hstrands
  exact ⟨trees, w, v, hbuild, hselect⟩

/-- The tree of the return is covered, and is not emitted. -/
theorem shifted_not_emitted : (shifted 2147483647 2147483647).UsesValues ∧ ∃ trees w root goal v u u',
    buildForest (shifted 2147483647 2147483647) (.start (shifted 2147483647 2147483647) {})
        = .ok trees w ∧
      Comes trees w root v ∧ Starts root goal v u ∧ reduce root goal u = .error outOfRange u' := by
  obtain ⟨trees, w, v, hbuild, hselect⟩ := strands_shifted
  obtain ⟨root, v', hcomes, herror⟩ := selectAll_eq_error hselect
  obtain ⟨-, ⟨-, _, _, _, hcover⟩ | ⟨goal, u, hstarts, hreduce⟩⟩ := selectTree_eq_error herror
  · exact nomatch hcover
  · exact ⟨usesValues_shifted _ _, trees, w, root, goal, v', u, v, hbuild, hcomes, hstarts, hreduce⟩

end TreeCover
