import TreeCover.Proofs.Tiling.Guards
import TreeCover.Proofs.Tiling.SharedValues
import TreeCover.Proofs.Tiling.VoidCalls

/-!
# What waits for a root

What is pending below a root when selection comes to it was left to its consumers before. So it has no
side effect, it is not read in another block, and it is no load that would be read too late; it belongs
to the block of the root, and no instruction with a side effect stands between the two. Main statement:
`inTime_of_hangsBelow`.
-/

namespace TreeCover

open Ir Machine Work

variable {text : String} {fs : List Func} {f : Func} {s : Session} {next : InstId}
  {os : List (Ir.Operand Value)} {trees : List (List NodeId)} {g g' : Forest} {w v v' t : Workspace}
  {k p q c r e root : NodeId} {id : InstId} {b : BlockId} {o : Opcode} {x z : Unit}
  {P : List NodeId → (NodeId → Workspace → Prop) → Workspace → Prop}

/-- The load `l` may be read in the tree of the root `r`: they belong to one block, and no instruction with
a side effect stands between the two. -/
structure Forest.InTime (g : Forest) (l r : NodeId) : Prop where
  block : (g.node l).block = (g.node r).block
  le : l ≤ r
  overtaken : ∀ e, g.Overtaken l e → r ≤ e

/-! ## Logs -/

/-- Selection logs nothing. -/
theorem keptByReduction_accesses (g : Forest) (S : NodeId → Prop) :
    KeptByReduction g S fun f f' ↦ ∀ k, (f'.node k).accesses = (f.node k).accesses where
  refl _ _ := rfl
  trans _ _ _ h h' k := (h' k).trans (h k)
  release f id _ _ k := f.kept_releaseKids (h := Node.accesses) (fun _ _ ↦ rfl) (fun _ ↦ rfl) id k
  roles f f' h k := by
    obtain ⟨roles, hk⟩ := h.2 k
    rw [hk]
  mark f id v _ _ _ k := f.update_keeps (R := fun n n' ↦ n'.accesses = n.accesses) (fun _ ↦ rfl) id
    (g := fun n ↦ { n with computed := true, slot := .vreg v, roles := { n.roles with register := true } })
    (fun _ ↦ rfl) k

theorem keptByVisits_accesses (hflat : w.forest.Flat) (all : List NodeId) :
    KeptByVisits all fun _ v ↦ w.forest.SameSkeleton v.forest ∧
      ∀ k, (v.forest.node k).accesses = (w.forest.node k).accesses where
  block _ _ _ _ h := h
  root _ root v v' _ hv h := by
    obtain ⟨hskeleton, haccesses⟩ := hv
    rcases selectTree_ok h with ⟨-, rfl⟩ | ⟨-, e, v₁, he, hemit⟩
    · exact ⟨hskeleton, haccesses⟩
    · obtain ⟨rfl, -⟩ := shouldEmit_ok he
      have hskeleton' := hskeleton.trans (v.forest.settles_refreshLevel root).skeleton
      have haccesses' : ∀ k, ((v.forest.refreshLevel root).2.node k).accesses =
          (w.forest.node k).accesses := fun k ↦
        (v.forest.kept_refreshLevel (h := Node.accesses) (fun _ _ ↦ rfl) root k).trans (haccesses k)
      have hflat' := hskeleton'.flat hflat
      rcases hemit with ⟨-, hemit⟩ | ⟨-, session, rfl⟩
      · obtain ⟨fuel, labels, session, b, v₂, hsound, hreduce, -, hforest⟩ := selectRoot_ok hemit
        obtain ⟨hkept, -, hskeleton₂⟩ := (keptByReduction_accesses (v.forest.refreshLevel root).2
          fun k ↦ (v.forest.refreshLevel root).2.owner k = k).reduceFrom
          (keptByReduction_true hflat').2 (fun _ hk ↦ hk)
          (w := { v with forest := (v.forest.refreshLevel root).2, labels, session })
          ⟨hsound, .refl _, hflat'.owner_owner root⟩ hreduce
        exact hforest ▸ ⟨hskeleton'.trans hskeleton₂, fun k ↦ (hkept k).trans (haccesses' k)⟩
      · exact ⟨hskeleton', haccesses'⟩

theorem Work.Comes.accesses (hp : Planted f trees w) (hcomes : Comes trees w root v) (k : NodeId) :
    (v.forest.node k).accesses = (w.forest.node k).accesses := by
  obtain ⟨-, -, -, -, h⟩ :=
    (keptByVisits_accesses hp.building.flat trees.flatten).comes ⟨.refl _, fun _ ↦ rfl⟩ hcomes
  exact h k

/-! ## Visits -/

/-- What every visit keeps holds when a root is reached, for the visits before it. -/
theorem Work.Comes.visits (hcomes : Comes trees w root v) (hsorted : trees.flatten.Pairwise (· < ·))
    (hw : P [] (fun _ _ ↦ False) w)
    (hblock : ∀ done V t b label, P done V t → P done V { t with code := t.code.beginBlock b label })
    (hroot : ∀ done V root v v', Comes trees w root v → P done V v → selectTree root v = .ok () v' →
      P (done ++ [root]) (fun r u ↦ V r u ∨ r = root ∧ u = v) v') :
    ∃ done V, P done V v ∧ (∀ r t, V r t → Comes trees w r t) ∧
      ∀ r ∈ trees.flatten, r < root → ∃ t, V r t := by
  obtain ⟨blocks, before, after, more, htrees, hselect⟩ := hcomes.selectAll
  have hsub : ∀ r t, Comes (blocks ++ [before]) w r t → Comes trees w r t :=
    fun r t h ↦ htrees ▸ h.mono
  refine ⟨_, _, selectAll_visits hselect hw hblock fun done V root v v' hcomes ↦
    hroot done V root v v' (hsub root v hcomes), hsub, fun r hr hlt ↦ comes_of_mem hselect ?_⟩
  have hsplit : trees.flatten = (blocks ++ [before]).flatten ++ root :: (after ++ more.flatten) := by
    rw [htrees]
    simp
  rw [hsplit] at hr hsorted
  refine (List.mem_append.mp hr).resolve_right fun hr ↦ ?_
  have hle : root ≤ r := by
    rcases List.mem_cons.mp hr with rfl | hr
    · exact Nat.le_refl _
    · exact Nat.le_of_lt ((List.pairwise_cons.mp (List.pairwise_append.mp hsorted).2.1).1 r hr)
  exact absurd hlt (Nat.not_lt.mpr hle)

/-- A visit keeps what is computed. -/
theorem Work.retains_selectTree (hp : Planted f trees w) (hv : Marked w v)
    (hvisit : selectTree root v = .ok x v') : v.forest.Retains v'.forest := by
  rcases selectTree_eq_ok hvisit with
    ⟨-, -, ⟨-, hforest⟩ | ⟨v₁, hemit, hforest⟩⟩ | ⟨goal, u, b, u', hstarts, hrun, -, hforest⟩
  · exact hforest ▸ .refl _
  · obtain ⟨rfl, -⟩ := shouldEmit_ok hemit
    exact hforest ▸ .of_sameValues (v.forest.sameValues_refreshLevel root)
  · obtain ⟨-, -, as, has, -⟩ := hstarts.recounts hp hv hrun
    exact hforest ▸ (Forest.Retains.of_sameValues hstarts.sameValues.2.1).trans has.history.retains

/-- The visit of a value that is wanted and would be read too late leaves it in its register. -/
theorem Work.computed_of_readLate (hbuild : buildForest f (.start f s) = .ok trees w)
    (hcomes : Comes trees w root v) (hvisit : selectTree root v = .ok x v')
    (hwanted : w.forest.Wanted root) (hlate : (w.forest.node root).ReadLate) :
    (v'.forest.node root).computed = true := by
  obtain ⟨hp, -⟩ := buildForest_planted hbuild
  have hrec := buildForest_recorded hbuild
  have hv := hcomes.marked hbuild
  obtain ⟨done, rest, hall, hvisited⟩ := (Visited.kept hp).comes (.start hp hrec) hcomes
  by_contra hnot
  have hnew : (v.forest.node root).computed = false :=
    (retains_selectTree hp hv hvisit).not_computed (by simpa using hnot)
  have htarget : (v.forest.node root).target = none := (hv.skeleton.target root).trans hwanted.target
  rcases selectTree_eq_ok hvisit with
    ⟨-, -, ⟨hskip, -⟩ | ⟨v₁, hemit, -⟩⟩ | ⟨goal, u, b, u', hstarts, hrun, -, hforest⟩
  · simp [htarget, hnew] at hskip
  · obtain ⟨e, hrun, hiff⟩ := shouldEmit_run root v
    obtain ⟨rfl, -⟩ : e = false ∧ _ := by simpa [hrun] using hemit
    refine Bool.false_ne_true (hiff.mpr (Or.inr (Or.inr (Or.inr (Or.inr ⟨root, ?_, ?_⟩)))))
    · rw [Forest.owner_of_target htarget]
      exact .refl hnew
    · rwa [Node.ReadLate, hcomes.accesses hp root]
  · obtain ⟨hskeleton, -, -, -, htaken⟩ := hstarts.recounts hp hv hrun
    obtain rfl := hvisited.goal_of_wanted hp hrec hall hstarts hwanted
    obtain ⟨y, hcomputed, -⟩ := (htaken Nonterminal.noConfusion
      (hskeleton.hasValue_iff.mpr hwanted.value)).resolve_right fun hinlines ↦ hinlines.2
    exact hnot (hforest ▸ hcomputed)

/-- A value that is wanted and has no register when a later root is reached has been left to its
consumers, none of which is too late. -/
theorem mayWait_of_lt (hbuild : buildForest f (.start f s) = .ok trees w)
    (hcomes : Comes trees w root v) (hwanted : w.forest.Wanted k) (hlt : k < root)
    (hnew : (v.forest.node k).computed = false) :
    w.forest.MayWait k ∧ ¬ (w.forest.node k).ReadLate := by
  obtain ⟨hp, -⟩ := buildForest_planted hbuild
  obtain ⟨t, u, hcomes', hemit⟩ := postpones_of_lt hbuild hcomes hwanted hlt hnew
  obtain ⟨_, _, -, hvisited⟩ :=
    (Visited.kept hp).comes (.start hp (buildForest_recorded hbuild)) hcomes'
  refine ⟨hvisited.mayWait hemit, fun hlate ↦ ?_⟩
  have hkept := hcomes.visits (P := fun _ V v ↦ ∀ r t, V r t → w.forest.Wanted r →
      (w.forest.node r).ReadLate → (v.forest.node r).computed = true) hp.sorted
    (fun _ _ h ↦ h.elim) (fun _ _ _ _ _ h ↦ h) fun _ V root v v' hcomes hV hvisit r t hr hwanted hlate ↦ ?_
  · obtain ⟨-, V, hV, -, hall⟩ := hkept
    obtain ⟨o, hop, -⟩ := hwanted.inst
    obtain ⟨t, ht⟩ := hall k (hp.mem_flatten hop) hlt
    exact Bool.false_ne_true (hnew.symm.trans (hV k t ht hwanted hlate))
  · rcases hr with hr | ⟨rfl, rfl⟩
    · exact (retains_selectTree hp (hcomes.marked hbuild) hvisit r (hV r t hr hwanted hlate)).1
    · exact computed_of_readLate hbuild hcomes hvisit hwanted hlate

/-! ## Trees -/

/-- An instruction with children is no alloca, and no phi. -/
theorem Planted.of_kids (hp : Planted f trees w) (hop : (w.forest.node q).op = .inst o)
    (hkids : (w.forest.node q).kids ≠ []) :
    o ≠ .phi ∧ o ≠ .alloca ∧ ∃ b id i kids, (id, i) ∈ f.blockInsts b ∧ w.Is q (.ofInst b id i kids) := by
  have hq := Forest.lt_size_of_op hop NodeOp.noConfusion
  obtain ⟨b, id, i, hi, ⟨-, _, his, -⟩ | ⟨hphi, kids, his, hhas⟩⟩ :=
    (hp.building.nodes q hq).shape.of_inst hop
  · exact absurd (Node.kids_of_core his.2) hkids
  · obtain rfl := NodeOp.inst.inj (his.op.symm.trans hop)
    refine ⟨fun heq ↦ ?_, fun heq ↦ ?_, b, id, i, kids, hi, his⟩
    · rw [Operation.isPhi_iff.mpr heq] at hphi
      exact Bool.false_ne_true hphi.symm
    · exact hkids ((Node.kids_of_core his.2).trans (hhas.of_alloca heq))

theorem Workspace.HasKids.ne_nil {op : Operation Value BlockId} {kids : List NodeId}
    (h : w.HasKids f k op kids)
    (hmemory : op.opcode.readsMemory = true ∨ op.opcode.writesMemory = true) : kids ≠ [] := by
  cases h with
  | call | br => exact List.cons_ne_nil _ _
  | other hcall _ hkids =>
    rintro rfl
    cases op with
    | load | store => cases hkids
    | call => exact hcall rfl
    | _ => exact hmemory.elim Bool.noConfusion Bool.noConfusion

/-- An instruction that looks at memory has children. -/
theorem Planted.kids_ne (hp : Planted f trees w) (hop : (w.forest.node q).op = .inst o)
    (hmemory : o.readsMemory = true ∨ o.writesMemory = true) : (w.forest.node q).kids ≠ [] := by
  have hq := Forest.lt_size_of_op hop NodeOp.noConfusion
  obtain ⟨b, id, i, -, ⟨hphi, _, his, -⟩ | ⟨-, kids, his, hhas⟩⟩ :=
    (hp.building.nodes q hq).shape.of_inst hop
  · obtain rfl := NodeOp.inst.inj (his.op.symm.trans hop)
    exact absurd hmemory (by decide)
  · obtain rfl := NodeOp.inst.inj (his.op.symm.trans hop)
    rw [Node.kids_of_core his.2]
    exact hhas.ne_nil hmemory

/-- A root that is held by a root is that root. -/
theorem Planted.eq_of_heldBy (hp : Planted f trees w) (hrec : w.Recorded next os trees.flatten)
    (hr : r ∈ trees.flatten) (howner : w.forest.owner r = r) (hheld : w.forest.HeldBy r c) : c = r := by
  rcases hheld with rfl | ⟨-, rfl, hkid⟩
  · rfl
  · exact absurd (hp.lt_of_root hrec hr (howner.symm ▸ hkid)) (Nat.lt_asymm (Nat.lt_succ_self c))

/-- The list of the arguments of a call belongs to the instruction before it. -/
theorem Planted.call_of_list {kids : List NodeId} (hp : Planted f trees w)
    (hrec : w.Recorded next os trees.flatten) (his : w.Is q (.ofArgs kids))
    (hkid : q ∈ w.forest.kidOwners p) : (w.forest.node p).op = .inst .call ∧ q = p + 1 := by
  obtain ⟨c, hc, howner⟩ := List.mem_map.mp hkid
  have hkid' := hp.isKid hc
  obtain rfl : c = q := hp.eq_of_owner hrec hkid'.op_ne
    (by rw [his.op]; exact NodeOp.noConfusion)
    (howner.trans (Forest.owner_of_target (Node.target_of_core his.2)).symm)
  cases hkid' with
  | operand _ hdenotes => exact absurd his.op hdenotes.op_ne_of.2
  | list heq _ hcall => exact ⟨hcall, heq⟩
  | pad his' => exact absurd (his.op.symm.trans his'.op) NodeOp.noConfusion

section

variable (hparse : parse text = .ok fs) (hf : f ∈ fs)
  (hbuild : buildForest f (.start f s) = .ok trees w)
include hparse hf hbuild

/-- An operand is the result of an instruction that has one. -/
theorem isDefinition_of_kid (hkid : q ∈ w.forest.kidOwners p) (hop : (w.forest.node q).op = .inst o) :
    o.isDefinition = true := by
  obtain ⟨hp, -⟩ := buildForest_planted hbuild
  have hrec := buildForest_recorded hbuild
  by_cases hphi : o = .phi
  · rw [hphi]
    rfl
  obtain ⟨b, id, i, kids, hi, hopcode, his⟩ := hp.of_inst hop hphi
  have hphi' : (w.forest.node q).op ≠ .inst .phi := by
    rw [hop]
    exact fun heq ↦ hphi (NodeOp.inst.inj heq)
  obtain ⟨-, c, -, -, -, -, hread⟩ := hp.reader hrec (his.results rfl rfl) hphi' hkid
  obtain ⟨j, hj, hid, hname⟩ := hread.defines (wellFormed_of_parse hparse f hf)
  obtain rfl := Option.some.inj ((Func.mem_insts_of_mem hi).1.symm.trans hid)
  exact hopcode ▸ isDefinition_of_named hparse f hf i hj hname

variable (hvoid : ∀ {p q}, q ∈ w.forest.kidOwners p → ¬ w.forest.IsVoidCall q)
include hvoid

/-- An operand with children is a value that is wanted. -/
theorem wanted_of_kid (hkid : q ∈ w.forest.kidOwners p) (hop : (w.forest.node q).op = .inst o)
    (hkids : (w.forest.node q).kids ≠ []) : w.forest.Wanted q := by
  obtain ⟨hp, -⟩ := buildForest_planted hbuild
  obtain ⟨hphi, halloca, -⟩ := hp.of_kids hop hkids
  have hphi' : (w.forest.node q).op ≠ .inst .phi := by
    rw [hop]
    exact fun heq ↦ hphi (NodeOp.inst.inj heq)
  exact ⟨Or.inr ⟨⟨o, hop⟩, hvoid hkid⟩, ⟨o, hop, isDefinition_of_kid hparse hf hbuild hkid hop, halloca⟩,
    hp.target_of_ne_phi hphi', Forest.positions_pos hkid⟩

/-- An instruction that is pending in a tree waits for the root, in its block. -/
theorem inst_home (hcomes : Comes trees w r t) (hroot : r ∈ trees.flatten) (hunder : w.forest.Under r q)
    (hhome : ∀ c, w.forest.HeldBy p c → (w.forest.node c).op ≠ .args →
      (w.forest.node c).block = (w.forest.node r).block)
    (hself : ∀ c, w.forest.HeldBy r c → (w.forest.node c).op ≠ .args →
      (w.forest.node c).block = (w.forest.node r).block)
    (hop : (w.forest.node q).op = .inst o) (hkid : q ∈ w.forest.kidOwners p)
    (hkids : (w.forest.node q).kids ≠ []) (hnew : (t.forest.node q).computed = false) :
    (∀ c, w.forest.HeldBy q c → (w.forest.node c).op ≠ .args →
      (w.forest.node c).block = (w.forest.node r).block) ∧
    ((∃ o, (w.forest.node q).op = .inst o) → q = r ∨ q < r ∧ w.forest.MayWait q ∧
      ¬ (w.forest.node q).ReadLate) := by
  obtain ⟨hp, -⟩ := buildForest_planted hbuild
  have hrec := buildForest_recorded hbuild
  by_cases heq : q = r
  · subst heq
    exact ⟨hself, fun _ ↦ Or.inl rfl⟩
  have hlt : q < r := by
    rcases hunder.below with hle | ⟨-, hargs⟩ | hnil
    · exact Nat.lt_of_le_of_ne hle heq
    · exact absurd (hargs.symm.trans hop) NodeOp.noConfusion
    · exact absurd hnil hkids
  obtain ⟨hwait, hlate⟩ := mayWait_of_lt hbuild hcomes
    (wanted_of_kid hparse hf hbuild hvoid hkid hop hkids) hlt hnew
  obtain ⟨hphi, halloca, b, id, i, kids, hi, his⟩ := hp.of_kids hop hkids
  have hphi' : (w.forest.node q).op ≠ .inst .phi := by
    rw [hop]
    exact fun heq ↦ hphi (NodeOp.inst.inj heq)
  have hescapes := hwait.escapes.resolve_right fun h ↦ halloca (NodeOp.inst.inj (hop.symm.trans h))
  have hblock : (w.forest.node q).block = some b := Node.block_of_core his.2
  obtain ⟨c, hheld, -, hc, hblock'⟩ :=
    hp.reader_home hrec (his.results rfl rfl) hphi' hescapes hblock hkid
  have hargs : (w.forest.node c).op ≠ .args := by
    intro hargs
    rcases (hp.root hc).2 with hop | ⟨_, hop⟩ <;> exact absurd (hargs.symm.trans hop) NodeOp.noConfusion
  have hsame : (w.forest.node q).block = (w.forest.node r).block :=
    (hblock.trans hblock'.symm).trans (hhome c hheld hargs)
  refine ⟨fun c hheld _ ↦ ?_, fun _ ↦ Or.inr ⟨hlt, hwait, hlate⟩⟩
  rw [hp.eq_of_heldBy hrec (hp.mem_flatten hop)
    (Forest.owner_of_target (hp.target_of_ne_phi hphi')) hheld, hsame]

/-- What is pending in a tree holds its children in the block of the root. -/
theorem home_of_hangsBelow (hcomes : Comes trees w r t) (howner : w.forest.owner r = r)
    (hbelow : t.forest.HangsBelow r q) (hkids : (w.forest.node q).kids ≠ []) :
    w.forest.Under r q ∧ (∀ c, w.forest.HeldBy q c → (w.forest.node c).op ≠ .args →
      (w.forest.node c).block = (w.forest.node r).block) ∧
    ((∃ o, (w.forest.node q).op = .inst o) → q = r ∨ q < r ∧ w.forest.MayWait q ∧
      ¬ (w.forest.node q).ReadLate) := by
  obtain ⟨hp, -⟩ := buildForest_planted hbuild
  have hrec := buildForest_recorded hbuild
  have hroot := hcomes.mem_flatten
  have hskeleton := (hcomes.marked hbuild).skeleton
  have hself : ∀ c, w.forest.HeldBy r c → (w.forest.node c).op ≠ .args →
      (w.forest.node c).block = (w.forest.node r).block :=
    fun c hc _ ↦ by rw [hp.eq_of_heldBy hrec hroot howner hc]
  obtain ⟨hpending, hpath⟩ := hbelow
  induction hpath with
  | refl => exact ⟨⟨howner, Or.inl (Nat.le_refl _)⟩, hself, fun _ ↦ Or.inl rfl⟩
  | @tail p q hpath hstep ih =>
    have hkid : q ∈ w.forest.kidOwners p := hskeleton.kidOwners p ▸ hstep.1
    have hkids' : (w.forest.node p).kids ≠ [] := by
      intro hnil
      rw [Forest.kidOwners, hnil] at hkid
      exact List.not_mem_nil hkid
    obtain ⟨hunder, hhome, -⟩ := ih hkids'
    have hunder' := hp.closed_under r p hunder q hkid
    have hq := hp.building.kidOwners_lt hkid
    have hnil : ∀ {n}, w.Is q n → n.kids ≠ [] :=
      fun his hn ↦ hkids ((Node.kids_of_core his.2).trans hn)
    refine ⟨hunder', ?_⟩
    cases (hp.building.nodes q hq).shape with
    | argument _ his | constant his | label his | pad his | phi _ his | phiUse _ _ his =>
      exact absurd rfl (hnil his)
    | args his =>
      refine ⟨fun c hheld hargs ↦ ?_, fun ⟨o, ho⟩ ↦ absurd (his.op.symm.trans ho) NodeOp.noConfusion⟩
      -- the list belongs to the call before it
      obtain ⟨hcall, rfl⟩ := hp.call_of_list hrec his hkid
      rcases hheld with rfl | ⟨-, heq, -⟩
      · exact absurd his.op hargs
      · obtain rfl : p = c := Nat.succ.inj heq
        exact hhome p (Or.inl rfl) hargs
    | inst _ _ his =>
      exact inst_home hparse hf hbuild hvoid hcomes hroot hunder' hhome hself his.op hkid hkids
        (by simpa using hstep.2)
    | phiMove _ _ _ his => exact absurd hkid (hp.not_kid_phiMove hrec his.op p)

/-- **Waiting.** A load that is pending in the tree of a root is read in time. -/
theorem inTime_of_hangsBelow (hcomes : Comes trees w r t) (howner : w.forest.owner r = r)
    (hbelow : t.forest.HangsBelow r k) (hload : (w.forest.node k).op = .inst .load) :
    w.forest.InTime k r := by
  obtain ⟨hp, -⟩ := buildForest_planted hbuild
  obtain ⟨hunder, hhome, hwait⟩ := home_of_hangsBelow hparse hf hbuild hvoid hcomes howner hbelow
    (hp.kids_ne hload (by decide))
  have hblock := hhome k (Or.inl rfl) (by rw [hload]; exact NodeOp.noConfusion)
  obtain rfl | ⟨hlt, -, hlate⟩ := hwait ⟨_, hload⟩
  · exact ⟨rfl, Nat.le_refl _, fun e hover ↦ Nat.le_of_lt hover.lt⟩
  refine ⟨hblock, Nat.le_of_lt hlt, fun e hover ↦ ?_⟩
  by_contra hle
  -- the root read the load after `e`, through one of its children
  obtain ⟨hpending, hpath⟩ := hbelow
  obtain rfl | ⟨c, hc, hpath⟩ := hpath.cases_head
  · exact absurd hlt (Nat.lt_irrefl _)
  have hskeleton := (hcomes.marked hbuild).skeleton
  obtain ⟨_, _, _, hchronicle, -⟩ := comes_chronicle hbuild hcomes
  have hbelow : w.forest.HangsBelow c k := hskeleton.below
    (fun k hk ↦ (hchronicle.history.retains k hk).1) ⟨hc.2, hpath⟩
  have hargs : (w.forest.node r).op ≠ .args := by
    intro hargs
    rcases (hp.root hcomes.mem_flatten).2 with hop | ⟨_, hop⟩ <;>
      exact absurd (hargs.symm.trans hop) NodeOp.noConfusion
  exact hlate ((buildForest_logged (wellFormed_of_parse hparse f hf) hbuild).logged.late k e r r c hover
    (Nat.lt_of_not_le hle) hargs (Or.inl rfl) (hskeleton.kidOwners r ▸ hc.1) hbelow)

/-- What is pending below a root has no side effect. -/
theorem hasSideEffect_of_hangsBelow (hcomes : Comes trees w r t) (howner : w.forest.owner r = r)
    (hbelow : t.forest.HangsBelow r k) (hne : k ≠ r) : (w.forest.node k).hasSideEffect = false := by
  obtain ⟨hp, -⟩ := buildForest_planted hbuild
  by_contra heffect
  have heffect : (w.forest.node k).hasSideEffect = true := by simpa using heffect
  obtain ⟨o, hop⟩ := Node.exists_of_hasSideEffect heffect
  have hwrites : o.writesMemory = true := by simpa [Node.hasSideEffect, Node.opcode?, hop] using heffect
  obtain ⟨-, -, hwait⟩ := home_of_hangsBelow hparse hf hbuild hvoid hcomes howner hbelow
    (hp.kids_ne hop (by cases o <;> simp_all [Opcode.readsMemory, Opcode.writesMemory]))
  obtain heq | ⟨-, hwait, -⟩ := hwait ⟨o, hop⟩
  · exact hne heq
  · exact Bool.false_ne_true (hwait.effect.symm.trans heffect)

end

end TreeCover
