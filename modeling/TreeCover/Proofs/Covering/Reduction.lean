import TreeCover.Proofs.Costs.Optimal
import TreeCover.Proofs.Covering.Forests

/-!
# Reductions that succeed
-/

namespace TreeCover

open Ir Machine Work

variable {f : Func} {trees : List (List NodeId)} {g h : Forest} {id k p c : NodeId}
  {nt s goal : Nonterminal} {r : Rule} {ls : Labels} {w w' : Workspace} {b : Bound} {fuel : Nat}
  {kids : List Bound} {rank : NodeId → Nat}

/-! ## Chains of rules -/

/-- How many chain rules the reduction of a node can follow one after the other. -/
def Labels.depth (ls : Labels) (k : NodeId) : Nonterminal → Nat
  | .stmt => 2
  | .reg => 1
  | .addr => if (ls.rule? k .addr).bind (·.pattern.source?) = some .reg then 2 else 0
  | _ => 0

theorem Labels.depth_le (ls : Labels) (k : NodeId) (nt : Nonterminal) : ls.depth k nt ≤ 2 := by
  unfold depth
  split
  case h_3 => split <;> omega
  all_goals omega

theorem Grammar.chain_steps : ∀ r ∈ Grammar.rules, ∀ s, r.pattern.source? = some s →
    (r.lhs = .reg ∧ s ∈ [.imm, .mem, .addr, .cond]) ∨ s = .reg ∧ r.lhs ∈ [.addr, .stmt] := by
  decide

/-- The heads of what is reduced to a register or a statement, and to nothing else. -/
def Grammar.finalHeads : List Head :=
  [.inRegister, .inst .call, .inst .store, .inst .br, .inst .ret, .phiMove]

theorem Grammar.lhs_of_final : ∀ r ∈ Grammar.rules,
    r.pattern.head? ∈ Grammar.finalHeads.map some → r.lhs ∈ [.reg, .stmt] := by decide

theorem Node.head?_call {n : Node} (hop : n.op = .inst .call) :
    n.head? ∈ Grammar.finalHeads.map some := by
  rw [Node.head?, hop]
  cases n.computed <;> decide

theorem Grammar.chain_of_stmt : ∀ r ∈ Grammar.rules, ∀ s, r.pattern.source? = some s →
    r.lhs = .stmt → s = .reg ∧ r.action = .discard := by decide

theorem Grammar.lhs_of_discard : ∀ r ∈ Grammar.rules, r.action = .discard → r.lhs = .stmt := by decide

namespace Labels.Derives

variable (hls : ls.Derives g)
include hls

/-- A node is not reduced in a circle from a register to an address and back. -/
theorem not_circular (hrule : ls.rule? k .reg = some r) (hs : r.pattern.source? = some .addr) :
    (ls.rule? k .addr).bind (·.pattern.source?) ≠ some .reg := by
  intro hback
  obtain ⟨r', hrule', hback⟩ := Option.bind_eq_some_iff.mp hback
  obtain ⟨i, hi, rfl⟩ := rule?_eq_some.mp hrule
  obtain ⟨j, hj, rfl⟩ := rule?_eq_some.mp hrule'
  exact (hls.grounded k).acyclic (fun i hi ↦ (hls.sound.label k i hi).mem) hi hs hj hback

theorem depth_lt (hrule : ls.rule? k nt = some r) (hs : r.pattern.source? = some s) :
    ls.depth k s < ls.depth k nt := by
  obtain ⟨hmatches, rfl⟩ := hls.sound.rule hrule
  rcases Grammar.chain_steps r hmatches.mem s hs with ⟨hlhs, hs'⟩ | ⟨rfl, hlhs⟩
  · rw [hlhs] at hrule ⊢
    simp only [List.mem_cons, List.not_mem_nil, or_false] at hs'
    rcases hs' with rfl | rfl | rfl | rfl
    · exact Nat.zero_lt_one
    · exact Nat.zero_lt_one
    · have hzero : ls.depth k .addr = 0 := if_neg (hls.not_circular hrule hs)
      exact hzero ▸ Nat.zero_lt_one
    · exact Nat.zero_lt_one
  · simp only [List.mem_cons, List.not_mem_nil, or_false] at hlhs
    rcases hlhs with hlhs | hlhs <;> rw [hlhs] at hrule ⊢
    · rw [depth, depth, hrule, Option.bind_some, if_pos hs]
      exact Nat.one_lt_two
    · exact Nat.one_lt_two

/-- What a chain rule starts from is labeled. -/
theorem source (hrule : ls.rule? k nt = some r) (hs : r.pattern.source? = some s) :
    ∃ r', ls.rule? k s = some r' := by
  refine Option.isSome_iff_exists.mp (hls.leaves k nt r hrule g (.refl g) (k, s) ?_)
  rw [Pattern.leaves_of_source hs]
  exact List.mem_singleton_self _

/-- What is in a register, and what is done for its effect, is not reduced to a register in another
way. -/
theorem register_source (hhead : (g.node k).head? ∈ Grammar.finalHeads.map some)
    (hrule : ls.rule? k .reg = some r) : r.pattern.source? = none := by
  obtain ⟨hmatches, hlhs⟩ := hls.sound.rule hrule
  by_contra hsome
  obtain ⟨s, hs⟩ := Option.ne_none_iff_exists'.mp hsome
  obtain ⟨r', hrule'⟩ := hls.source hrule hs
  obtain ⟨hmatches', rfl⟩ := hls.sound.rule hrule'
  rcases Grammar.chain_steps r hmatches.mem _ hs with ⟨-, hs'⟩ | ⟨-, hlhs'⟩
  · -- nothing but a register goes on to what the rule starts from
    cases hp : r'.pattern.head? with
    | none =>
      obtain ⟨t, ht⟩ : ∃ t, r'.pattern.source? = some t := by
        cases hpattern : r'.pattern with
        | nt t => exact ⟨t, rfl⟩
        | _ => exact absurd hp (by simp [hpattern, Pattern.head?])
      rcases Grammar.chain_steps r' hmatches'.mem t ht with ⟨hreg, -⟩ | ⟨rfl, haddr⟩
      · exact absurd (hreg ▸ hs') (by decide)
      · simp only [List.mem_cons, List.not_mem_nil, or_false] at haddr
        rcases haddr with haddr | hstmt
        · rw [haddr] at hs hrule'
          exact hls.not_circular hrule hs (by rw [hrule', Option.bind_some, ht])
        · exact absurd (hstmt ▸ hs') (by decide)
    | some head =>
      rw [hmatches'.fits.head? hp] at hhead
      have hlhs' := Grammar.lhs_of_final r' hmatches'.mem (hp ▸ hhead)
      simp only [List.mem_cons, List.not_mem_nil, or_false] at hlhs'
      rcases hlhs' with hlhs' | hlhs' <;> exact absurd (hlhs' ▸ hs') (by decide)
  · exact absurd (hlhs ▸ hlhs') (by decide)

end Labels.Derives

/-! ## Reductions -/

theorem keptByReduction_later (g : Forest) (S : NodeId → Prop) :
    KeptByReduction g S fun f f' ↦ g.Later f → g.Later f' where
  refl _ h := h
  trans _ _ _ h h' hf := h' (h hf)
  release f id _ _ h := by
    have hskeleton := f.sameSkeleton_releaseKids id
    exact ⟨h.flat, h.skeleton.trans hskeleton,
      fun k hk ↦ (f.computed_releaseKids id k).trans (h.computed k hk),
      h.complete.same hskeleton (h.complete.slotted.same (f.sameValues_releaseKids id))⟩
  roles f f' hroles h := by
    have hskeleton := Forest.sameSkeleton_roles hroles
    exact ⟨h.flat, h.skeleton.trans hskeleton,
      fun k hk ↦ (hroles.sameValues k).computed.trans (h.computed k hk),
      h.complete.same hskeleton (h.complete.slotted.same hroles.sameValues)⟩
  mark f id v _ _ hop h := by
    have hskeleton := Forest.sameSkeleton_update f id (g := fun n ↦
      { n with computed := true, slot := .vreg v, roles := { n.roles with register := true } })
      fun _ ↦ rfl
    refine ⟨h.flat, h.skeleton.trans hskeleton, fun k hk ↦ ?_,
      h.complete.same hskeleton (h.complete.slotted.mark hop v)⟩
    rcases f.node_update_cases id k fun n ↦
        { n with computed := true, slot := .vreg v, roles := { n.roles with register := true } }
      with ⟨rfl, hnode⟩ | hnode
    · rw [hnode]
    · rw [hnode]
      exact h.computed k hk

/-- A reduction along the labels `ls`, which were made for `g`, is under way. -/
structure Underway (g : Forest) (ls : Labels) (w : Workspace) : Prop where
  labels : w.labels = ls
  later : g.Later w.forest

/-- It comes to a constant that leaves 32 bits when it is added to the displacement of an address. -/
def Overflows (fuel : Nat) (id : NodeId) (nt : Nonterminal) (w : Workspace) : Prop :=
  ∃ fuel' k goal v r kids v', Calls fuel id nt w (fuel' + 1) k goal v ∧
    (v.forest.node (v.forest.owner k)).reuse? goal = none ∧
    v.labels.rule? (v.forest.owner k) goal = some r ∧ r.action = .addrDisp ∧
    (r.pattern.takeLeaves (v.forest.owner k) v.forest).1.mapM (reduceLeaf fuel')
      (v.took r (v.forest.owner k) goal) = .ok kids v' ∧ Overflowing kids

theorem Overflows.leaf {before after : List (NodeId × Nonterminal)} {v : Workspace}
    (hreuse : (w.forest.node (w.forest.owner id)).reuse? nt = none)
    (hrule : w.labels.rule? (w.forest.owner id) nt = some r)
    (hleaves : (r.pattern.takeLeaves (w.forest.owner id) w.forest).1 = before ++ (k, goal) :: after)
    (hbefore : before.mapM (reduceLeaf fuel) (w.took r (w.forest.owner id) nt) = .ok kids v)
    (h : Overflows fuel k goal v) : Overflows (fuel + 1) id nt w := by
  obtain ⟨fuel', k', goal', v', r', kids', v'', hcall, hrest⟩ := h
  exact ⟨fuel', k', goal', v', r', kids', v'', .leaf hreuse hrule hleaves hbefore hcall, hrest⟩

/-- The failure that remains. -/
def outOfRange : CompileError := .binding "addr_disp" .displacementRange

/-- A reduction succeeds with a result that serves, or a displacement gets out of range. A call without
a value has no register to give. -/
def Ends (g : Forest) (fuel : Nat) (id : NodeId) (nt : Nonterminal) (w : Workspace) : Prop :=
  (∃ b w', reduceFrom fuel id nt w = .ok b w' ∧
    ((g.IsVoidCall (g.owner id) → nt ≠ .reg) → Serves g (g.owner id) nt b)) ∨
  (∃ w', reduceFrom fuel id nt w = .error outOfRange w') ∧ Overflows fuel id nt w

section

variable (hfalls : g.Falling (fun k ↦ g.owner k = k) rank) (hls : ls.Derives g)
include hfalls hls

theorem Underway.reduceFrom (hw : Underway g ls w) (h : reduceFrom fuel id nt w = .ok b w') :
    Underway g ls w' := by
  obtain ⟨hlater, hlabels, -⟩ := (keptByReduction_later g _).reduceFrom hfalls.closed (fun _ hk ↦ hk)
    ⟨hw.labels ▸ hls.sound, hw.later.skeleton, hw.later.flat.owner_owner id⟩ h
  exact ⟨hlabels.trans hw.labels, hlater hw.later⟩

/-- Leaves are reduced one after the other until a displacement gets out of range. -/
theorem reduceLeaves_end {leaves : List (NodeId × Nonterminal)} (hw : Underway g ls w)
    (hends : ∀ leaf ∈ leaves, ∀ v, Underway g ls v → Ends g fuel leaf.1 leaf.2 v) :
    (∃ kids w', leaves.mapM (reduceLeaf fuel) w = .ok kids w' ∧ Underway g ls w' ∧
      List.Forall₂ (fun leaf b ↦ (g.IsVoidCall (g.owner leaf.1) → leaf.2 ≠ .reg) →
        Serves g (g.owner leaf.1) leaf.2 b) leaves kids) ∨
    ∃ before leaf after kids v, leaves = before ++ leaf :: after ∧
      before.mapM (reduceLeaf fuel) w = .ok kids v ∧
      (∃ w', leaves.mapM (reduceLeaf fuel) w = .error outOfRange w') ∧
      Overflows fuel leaf.1 leaf.2 v := by
  have hstep : ∀ xs : List (NodeId × Nonterminal), (∀ leaf ∈ xs, leaf ∈ leaves) → ∀ bs v,
      xs.mapM (reduceLeaf fuel) w = .ok bs v → Underway g ls v ∧
        List.Forall₂ (fun leaf b ↦ (g.IsVoidCall (g.owner leaf.1) → leaf.2 ≠ .reg) →
          Serves g (g.owner leaf.1) leaf.2 b) xs bs := by
    intro xs hxs bs v h
    refine mapM_relates (P := Underway g ls) h hw fun leaf hleaf t b t' ht hrun ↦
      ⟨ht.reduceFrom hfalls hls hrun, ?_⟩
    rcases hends leaf (hxs leaf hleaf) t ht with ⟨_, _, hok, hserves⟩ | ⟨⟨_, herror⟩, -⟩
    · obtain ⟨rfl, -⟩ := EStateM.Result.ok.inj (hrun.symm.trans hok)
      exact hserves
    · exact nomatch hrun.symm.trans herror
  cases hrun : leaves.mapM (reduceLeaf fuel) w with
  | ok kids w' =>
    obtain ⟨hw', hkids⟩ := hstep leaves (fun _ h ↦ h) kids w' hrun
    exact Or.inl ⟨kids, w', rfl, hw', hkids⟩
  | error e w' =>
    obtain ⟨before, leaf, after, bs, v, rfl, hbefore, herror⟩ := mapM_eq_error hrun
    obtain ⟨hv, -⟩ := hstep before (fun _ h ↦ List.mem_append_left _ h) bs v hbefore
    rcases hends leaf (by simp) v hv with ⟨_, _, hok, -⟩ | ⟨⟨_, herror'⟩, hover⟩
    · exact nomatch herror.symm.trans hok
    · obtain ⟨rfl, rfl⟩ := EStateM.Result.error.inj (herror.symm.trans herror')
      exact Or.inr ⟨before, leaf, after, bs, v, rfl, hbefore, ⟨_, rfl⟩, hover⟩

omit hls in
/-- The leaves of a rule for the head of a node are children below the node. -/
theorem leaves_below (hmatches : r.Matches g k) (howner : g.owner k = k)
    (hhead : r.pattern.source? = none) :
    ∀ leaf ∈ r.pattern.leaves g k, g.owner leaf.1 = leaf.1 ∧ rank leaf.1 < rank k ∧
      ∃ p, leaf.1 ∈ g.kidOwners p := by
  refine Pattern.leaves_mem (S := fun c ↦ g.owner c = c ∧ rank c < rank k ∧ ∃ p, c ∈ g.kidOwners p)
    (fun p hp c hc ↦ ?_) r.pattern k ?_ (Grammar.isTile_rules r hmatches.mem) hmatches.fits
    fun c hc ↦ ?_
  · exact ⟨hfalls.closed p hp.1 c hc.2, Nat.lt_trans (hfalls.falls p hp.1 c hc.2) hp.2.1, p, hc.2⟩
  · cases hp : r.pattern with
    | nt s => exact absurd hhead (by simp [hp, Pattern.source?])
    | _ => simp [Pattern.head?]
  · exact ⟨hfalls.closed k howner c hc.2, hfalls.falls k howner c hc.2, k, hc.2⟩

/-- From a node to the leaves of the rule that labels it, a measure falls. -/
theorem leaves_lower (hrule : ls.rule? k nt = some r) (howner : g.owner k = k) :
    ∀ leaf ∈ r.pattern.leaves g k, g.owner leaf.1 = leaf.1 ∧
      3 * rank leaf.1 + ls.depth leaf.1 leaf.2 < 3 * rank k + ls.depth k nt := by
  obtain ⟨hmatches, rfl⟩ := hls.sound.rule hrule
  intro leaf hleaf
  cases hsource : r.pattern.source? with
  | none =>
    obtain ⟨hself, hlt, -⟩ := leaves_below hfalls hmatches howner hsource leaf hleaf
    have hdepth := ls.depth_le leaf.1 leaf.2
    exact ⟨hself, by omega⟩
  | some s =>
    rw [← r.pattern.takeLeaves_fst k g (.refl g), Pattern.leaves_of_source hsource] at hleaf
    obtain rfl := List.mem_singleton.mp hleaf
    exact ⟨howner, Nat.add_lt_add_left (hls.depth_lt hrule hsource) _⟩

/-- Each leaf of a rule that labels a node is labeled and further down, and if it is a call without a
value, then its result is discarded. -/
theorem leaves_ready (hvalues : ∀ p, ∀ c ∈ g.kidOwners p, ¬ g.IsVoidCall c)
    (hrule : ls.rule? k nt = some r) (howner : g.owner k = k)
    (hvoid : g.IsVoidCall k → nt = .reg ∨ nt = .stmt) :
    ∀ leaf ∈ r.pattern.leaves g k, g.owner leaf.1 = leaf.1 ∧ ls.Covers leaf ∧
      (g.IsVoidCall leaf.1 → leaf.2 = .reg ∧ r.action = .discard) ∧
      3 * rank leaf.1 + ls.depth leaf.1 leaf.2 < 3 * rank k + ls.depth k nt := by
  intro leaf hleaf
  obtain ⟨hself, hlower⟩ := leaves_lower hfalls hls hrule howner leaf hleaf
  obtain ⟨hmatches, rfl⟩ := hls.sound.rule hrule
  have hcovers : ls.Covers leaf := by
    refine hls.leaves k _ r hrule g (.refl g) leaf ?_
    rwa [r.pattern.takeLeaves_fst k g (.refl g)]
  refine ⟨hself, hcovers, fun h ↦ ?_, hlower⟩
  cases hsource : r.pattern.source? with
  | none =>
    obtain ⟨-, -, p, hp⟩ := leaves_below hfalls hmatches howner hsource leaf hleaf
    exact absurd h (hvalues p _ hp)
  | some s =>
    rw [← r.pattern.takeLeaves_fst k g (.refl g), Pattern.leaves_of_source hsource] at hleaf
    obtain rfl := List.mem_singleton.mp hleaf
    rcases hvoid h with hreg | hstmt
    · rw [hreg] at hrule
      exact absurd (hsource.symm.trans (hls.register_source (Node.head?_call h.1) hrule)) (by simp)
    · exact Grammar.chain_of_stmt r hmatches.mem s hsource hstmt

omit hfalls hls in
/-- The action of a rule, once its leaves have been reduced. -/
theorem applyRule_ends (hmatches : r.Matches g k) (hself : g.owner k = k) (hlater : g.Later w.forest)
    (hkids : List.Forall₂ (fun leaf b ↦ (g.IsVoidCall (g.owner leaf.1) → leaf.2 ≠ .reg) →
      Serves g (g.owner leaf.1) leaf.2 b) (r.pattern.leaves g k) kids)
    (hleaves : ∀ leaf ∈ r.pattern.leaves g k, g.owner leaf.1 = leaf.1 ∧
      (g.IsVoidCall leaf.1 → leaf.2 = .reg ∧ r.action = .discard)) :
    (∃ b w', applyRule r k kids w = .ok b w' ∧
      ((g.IsVoidCall k → r.lhs ≠ .reg) → Serves g k r.lhs b)) ∨
    applyRule r k kids w = .error outOfRange w ∧ r.action = .addrDisp ∧ Overflowing kids := by
  by_cases hdiscard : r.action = .discard
  · refine Or.inl ⟨.none, w, by rw [applyRule, hdiscard]; rfl, fun _ ↦ ?_⟩
    have hlhs := Grammar.lhs_of_discard r hmatches.mem hdiscard
    exact .of_variable (hlhs ▸ trivial) fun _ ↦ Bound.noConfusion
  · have hserve : AllServe g (r.pattern.takeLeaves k g).1 kids := by
      rw [r.pattern.takeLeaves_fst k g (.refl g)]
      refine ((List.forall₂_and_left _ _).mpr ⟨hleaves, hkids⟩).imp fun leaf b hleaf ↦ ?_
      obtain ⟨⟨howner, hvoid⟩, hb⟩ := hleaf
      rw [howner] at hb
      exact hb fun h ↦ absurd (hvoid h).2 hdiscard
    rcases hmatches.applies hlater hserve with ⟨b, w', happly⟩ | ⟨haction, hover, happly⟩
    · refine Or.inl ⟨b, w', happly, fun hvoid ↦ hmatches.serves hlater hself hserve ?_ happly⟩
      exact fun _ hreg h ↦ hvoid h hreg
    · exact Or.inr ⟨happly, haction, hover⟩

/-- **Reductions.** A node that is labeled for a nonterminal can be reduced to it, unless a
displacement gets out of range. -/
theorem reduceFrom_ends (hvalues : ∀ p, ∀ c ∈ g.kidOwners p, ¬ g.IsVoidCall c)
    (hw : Underway g ls w) (hcovers : ls.Covers (g.owner id, nt))
    (hvoid : g.IsVoidCall (g.owner id) → nt = .reg ∨ nt = .stmt)
    (hfuel : 3 * rank (g.owner id) + ls.depth (g.owner id) nt < fuel) : Ends g fuel id nt w := by
  induction fuel generalizing id nt w with
  | zero => exact absurd hfuel (Nat.not_lt_zero _)
  | succ fuel ih =>
    have howner := hw.later.skeleton.owner id
    have hself := hw.later.flat.owner_owner id
    cases hreuse : (w.forest.node (w.forest.owner id)).reuse? nt with
    | some b => exact Or.inl ⟨b, w, reduceFrom_of_reuse hreuse, fun _ ↦ .of_reuse hreuse⟩
    | none =>
      obtain ⟨r, hrule⟩ := Option.isSome_iff_exists.mp hcovers
      obtain ⟨hmatches, hlhs⟩ := hls.sound.rule hrule
      obtain rfl : r.lhs = nt := hlhs
      have hready := leaves_ready hfalls hls hvalues hrule hself hvoid
      have hleaves := r.pattern.takeLeaves_fst (g.owner id) w.forest hw.later.skeleton
      have hrule' : w.labels.rule? (w.forest.owner id) r.lhs = some r := by
        rw [howner, hw.labels]
        exact hrule
      have hrun : reduceFrom (fuel + 1) id r.lhs w = (do
          let kids ← (r.pattern.leaves g (g.owner id)).mapM (reduceLeaf fuel)
          let result ← applyRule r (g.owner id) kids
          settle (g.owner id) r.lhs result) (w.took r (g.owner id) r.lhs) := by
        rw [reduceFrom_of_rule hreuse hrule', howner, hleaves]
      have htook : Underway g ls (w.took r (g.owner id) r.lhs) :=
        ⟨hw.labels, (keptByReduction_later g _).takeLeaves hfalls.closed r.pattern (g.owner id) w.forest
          hw.later.skeleton hself hw.later⟩
      have hends : ∀ leaf ∈ r.pattern.leaves g (g.owner id), ∀ v, Underway g ls v →
          Ends g fuel leaf.1 leaf.2 v := by
        intro leaf hleaf v hv
        obtain ⟨hleafOwner, hleafCovers, hleafVoid, hlt⟩ := hready leaf hleaf
        refine ih hv (hleafOwner.symm ▸ hleafCovers) (fun h ↦ Or.inl (hleafVoid (hleafOwner ▸ h)).1) ?_
        rw [hleafOwner]
        exact Nat.lt_of_lt_of_le hlt (Nat.le_of_lt_succ hfuel)
      rcases reduceLeaves_end hfalls hls htook hends with
        ⟨kids, w₁, hkids, hw₁, hall⟩ | ⟨before, leaf, after, bs, v, hsplit, hbefore, ⟨w', hfail⟩, hlost⟩
      · rcases applyRule_ends hmatches hself hw₁.later hall fun leaf hleaf ↦
            ⟨(hready leaf hleaf).1, (hready leaf hleaf).2.2.1⟩ with
          ⟨b, w₂, happly, hserves⟩ | ⟨happly, haction, hover⟩
        · obtain ⟨w', hsettle⟩ := settle_ok (g.owner id) r.lhs b w₂
          refine Or.inl ⟨b, w', ?_, hserves⟩
          rw [hrun]
          exact bind_eq_ok.mpr ⟨kids, w₁, hkids, bind_eq_ok.mpr ⟨b, w₂, happly, hsettle⟩⟩
        · refine Or.inr ⟨⟨w₁, ?_⟩, ⟨fuel, id, r.lhs, w, r, kids, w₁, .self, ?_⟩⟩
          · rw [hrun]
            exact bind_eq_error.mpr (Or.inr ⟨kids, w₁, hkids, bind_eq_error.mpr (Or.inl happly)⟩)
          · rw [howner, hleaves]
            exact ⟨howner ▸ hreuse, howner ▸ hrule', haction, hkids, hover⟩
      · have hover : Overflows (fuel + 1) id r.lhs w :=
          .leaf hreuse hrule' (by rw [howner, hleaves, hsplit]) (howner.symm ▸ hbefore) hlost
        refine Or.inr ⟨⟨w', ?_⟩, hover⟩
        rw [hrun]
        exact bind_eq_error.mpr (Or.inl hfail)

end

end TreeCover
