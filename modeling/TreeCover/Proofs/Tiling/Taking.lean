import TreeCover.Proofs.Covering.Reduction
import TreeCover.Proofs.Tiling.Making

/-!
# How a consumer takes a value

A consumer takes the value of a child from the register that holds it, also as an address that consists
of that register only. Or the child has no register yet, and its rule has no code: a load of 64 bits gives
its place in memory, an addition or an alloca an address, arithmetic on constants a constant, and a
comparison leaves its condition in the flags. Main statement: `Application.taken`.
-/

namespace TreeCover

open Ir Machine Work

variable {g g₀ f f' : Forest} {k c p : NodeId} {nt goal : Nonterminal} {r : Rule} {ls : Labels}
  {leaf : NodeId × Nonterminal} {b : Bound} {h : Head} {goals : List Nonterminal} {a : Application}
  {w' : Workspace}

/-! ## Children of rules -/

/-- The head and the nonterminals of the children, of a pattern whose children are leaves. -/
def Pattern.flat? : Pattern → Option (Head × List Nonterminal)
  | .op h kids => (kids.mapM Pattern.source?).map fun goals ↦ (h, goals)
  | _ => none

namespace Grammar

theorem shapes : ∀ r ∈ rules, r.pattern.source?.isSome = true ∨ r.pattern.isArguments = true ∨
    r.pattern.isScaledIndex = true ∨ r.pattern.flat?.isSome = true := by decide

theorem action_of_inRegister : ∀ r ∈ rules, r.pattern.head? = some .inRegister →
    r.action = .register := by decide

end Grammar

theorem exists_mem_zip {α β : Type} {x : α} {xs : List α} {ys : List β} (hx : x ∈ xs)
    (hlength : xs.length = ys.length) : ∃ y, (x, y) ∈ xs.zip ys := by
  rw [← List.map_fst_zip (Nat.le_of_eq hlength)] at hx
  obtain ⟨⟨x', y⟩, hmem, rfl⟩ := List.mem_map.mp hx
  exact ⟨y, hmem⟩

/-- A pattern that is no leaf has a head. -/
theorem Pattern.head?_of_source {p : Pattern} (hp : p.source? = none) : ∃ h, p.head? = some h := by
  cases p with
  | nt s => exact absurd hp (Option.some_ne_none s)
  | op h kids => exact ⟨h, rfl⟩
  | variadic h goal => exact ⟨h, rfl⟩

/-- A pattern whose children are leaves. -/
theorem Pattern.of_flat {p : Pattern} (hp : p.flat? = some (h, goals)) :
    ∃ kids, p = .op h kids ∧ kids.mapM Pattern.source? = some goals := by
  cases p with
  | op h' kids =>
    obtain ⟨goals', hgoals, heq⟩ := Option.map_eq_some_iff.mp hp
    obtain ⟨rfl, rfl⟩ := Prod.mk.inj heq
    exact ⟨kids, rfl, hgoals⟩
  | _ => exact absurd hp (by simp [Pattern.flat?])

theorem Pattern.leaves_of_flat {p : Pattern} (hp : p.flat? = some (h, goals)) (hfits : p.Fits g k)
    (hne : h ≠ .inRegister) (hc : c ∈ g.kidOwners k) : ∃ goal, (c, goal) ∈ p.leaves g k := by
  obtain ⟨kids, rfl, hgoals⟩ := Pattern.of_flat hp
  rw [Pattern.Fits] at hfits
  rw [← Pattern.takeLeaves_fst _ k g (.refl g), Pattern.takeLeaves,
    Pattern.takeKidLeaves_of_source kids goals _ g hgoals]
  refine exists_mem_zip hc ?_
  rw [Forest.kidOwners, List.length_map, (hfits.2 hne).1, Pattern.length_of_source kids goals hgoals]

/-- The forest in which the leaves of a scaled index have been taken. -/
theorem Pattern.takeLeaves_of_isScaledIndex {p : Pattern} (hp : p.isScaledIndex = true)
    (hfits : p.Fits g k) (hskeleton : g.SameSkeleton f) :
    ∃ a t x y, (p.takeLeaves k f).2 = (f.releaseKids t).releaseKids k ∧
      p.leaves g k = [(a, .reg), (x, .reg), (y, .imm)] ∧ g.kidOwners k = [a, t] ∧
      g.kidOwners t = [x, y] ∧ (g.node t).computed = false ∧
      (g.node t).op = .inst (.binary .shl) := by
  obtain ⟨a, t, x, y, hleaves, hkids, hkids', -, -, hshl⟩ :=
    Pattern.leaves_of_isScaledIndex hp hfits hskeleton
  rw [Pattern.takeLeaves_fst _ k f hskeleton] at hleaves
  refine ⟨a, t, x, y, ?_, hleaves, hkids, hkids', hshl⟩
  unfold Pattern.isScaledIndex at hp
  split at hp
  next =>
    simp only [Pattern.takeLeaves, hskeleton.kidOwners, hkids, Pattern.takeKidLeaves, hkids']
  next => exact absurd hp (by simp)

/-- The rule at `k` is given the children of `p`: each of them is a leaf, or the scale of an index. -/
def Rule.Opens (r : Rule) (g : Forest) (k p : NodeId) : Prop :=
  ∀ c ∈ g.kidOwners p, (∃ goal, (c, goal) ∈ r.pattern.leaves g k) ∨
    (g.node c).op = .inst (.binary .shl)

namespace Rule.Matches

/-- A child of the node of a rule is a leaf, or the scale of an index. -/
theorem kid_cases (hmatches : r.Matches g k) (hsource : r.pattern.source? = none)
    (hregister : r.action ≠ .register) (hc : c ∈ g.kidOwners k) :
    (∃ goal, (c, goal) ∈ r.pattern.leaves g k) ∨
      r.pattern.isScaledIndex = true ∧ (g.node c).computed = false ∧
        (g.node c).op = .inst (.binary .shl) := by
  rcases Grammar.shapes r hmatches.mem with hsome | hargs | hscaled | hflat
  · exact absurd hsome (by simp [hsource])
  · left
    rw [← r.pattern.takeLeaves_fst k g (.refl g), Pattern.leaves_of_isArguments hargs (.refl g)]
    exact ⟨.reg, List.mem_map_of_mem hc⟩
  · obtain ⟨a, t, x, y, -, hleaves, hkids, -, hshl⟩ :=
      Pattern.takeLeaves_of_isScaledIndex hscaled hmatches.fits (.refl g)
    rw [hkids] at hc
    simp only [List.mem_cons, List.not_mem_nil, or_false] at hc
    rcases hc with rfl | rfl
    · exact Or.inl ⟨.reg, by simp [hleaves]⟩
    · exact Or.inr ⟨hscaled, hshl⟩
  · obtain ⟨⟨h, goals⟩, hflat⟩ := Option.isSome_iff_exists.mp hflat
    refine Or.inl (Pattern.leaves_of_flat hflat hmatches.fits ?_ hc)
    rintro rfl
    obtain ⟨kids, hp, -⟩ := Pattern.of_flat hflat
    exact hregister (Grammar.action_of_inRegister r hmatches.mem (hp ▸ rfl))

/-- A node that gives up its children when the leaves of a rule are taken gives them to the rule. -/
theorem opens (hmatches : r.Matches g k) (hskeleton : g.SameSkeleton f)
    (hregister : r.action = .register → (g.node k).kids = [])
    (hp : ((r.pattern.takeLeaves k f).2.node p).kidsReleased = true) :
    (f.node p).kidsReleased = true ∨ r.Opens g k p := by
  cases hsource : r.pattern.source? with
  | some s =>
    rw [Pattern.leaves_of_source hsource] at hp
    exact Or.inl hp
  | none =>
    have hself : r.Opens g k k := by
      intro c hc
      by_cases haction : r.action = .register
      · rw [Forest.kidOwners, hregister haction] at hc
        exact absurd hc List.not_mem_nil
      · exact (hmatches.kid_cases hsource haction hc).imp_right fun h ↦ h.2.2
    have hone : (r.pattern.takeLeaves k f).2 = f.releaseKids k →
        (f.node p).kidsReleased = true ∨ r.Opens g k p := by
      intro htaken
      rw [htaken] at hp
      exact ((f.released_releaseKids k p).mp hp).imp_right fun ⟨hpk, _⟩ ↦ hpk ▸ hself
    rcases Grammar.shapes r hmatches.mem with hsome | hargs | hscaled | hflat
    · exact absurd hsome (by simp [hsource])
    · refine hone ?_
      unfold Pattern.isArguments at hargs
      split at hargs
      next hpattern => rw [hpattern, Pattern.takeLeaves]
      next => exact absurd hargs (by simp)
    · obtain ⟨a, t, x, y, htaken, hleaves, hkids, hkids', -⟩ :=
        Pattern.takeLeaves_of_isScaledIndex hscaled hmatches.fits hskeleton
      rw [htaken] at hp
      rcases (Forest.released_releaseKids _ k p).mp hp with hp | ⟨rfl, -⟩
      · refine ((Forest.released_releaseKids _ t p).mp hp).imp_right fun ⟨hpt, _⟩ c hc ↦ Or.inl ?_
        rw [hpt, hkids'] at hc
        simp only [List.mem_cons, List.not_mem_nil, or_false] at hc
        rcases hc with rfl | rfl
        · exact ⟨.reg, by simp [hleaves]⟩
        · exact ⟨.imm, by simp [hleaves]⟩
      · exact Or.inr hself
    · obtain ⟨⟨h, goals⟩, hflat⟩ := Option.isSome_iff_exists.mp hflat
      obtain ⟨kids, hpattern, hgoals⟩ := Pattern.of_flat hflat
      refine hone ?_
      rw [hpattern, Pattern.takeLeaves, Pattern.takeKidLeaves_of_source kids goals _ f hgoals]

end Rule.Matches

/-! ## Values without a register -/

/-- A node that has a value: a phi, or an instruction other than a call of no width. -/
def Forest.HasValue (g : Forest) (k : NodeId) : Prop :=
  (g.node k).op = .phiDef ∨ (∃ o, (g.node k).op = .inst o) ∧ ¬ g.IsVoidCall k

/-- A node gives what the nonterminal promises without code of its own, and not in a register. -/
def Node.Inlines (n : Node) : Nonterminal → Prop
  | .mem => n.op = .inst .load ∧ n.width = 64
  | .addr => n.op = .inst .alloca ∨ n.op = .inst (.binary .add)
  | .imm => ∃ o ∈ foldable, n.op = .inst (.binary o)
  | .cond => n.op = .inst .icmp
  | _ => False

namespace Grammar

theorem heads_of_imm : ∀ r ∈ rules, r.lhs = .imm → r.pattern.head? = some .imm ∨
    ∃ o ∈ foldable, r.pattern.head? = some (.inst (.binary o)) := by decide

theorem heads_of_mem : ∀ r ∈ rules, r.lhs = .mem → r.pattern.head? = some .arg ∨
    r.pattern.head? = some (.inst .load) ∧ r.guard = some .wide := by decide

theorem heads_of_addr : ∀ r ∈ rules, r.lhs = .addr → r.pattern.source?.isSome = true ∨
    r.pattern.head? = some (.inst .alloca) ∨ r.pattern.head? = some (.inst (.binary .add)) := by decide

theorem heads_of_cond : ∀ r ∈ rules, r.lhs = .cond → r.pattern.head? = some (.inst .icmp) := by decide

theorem heads_of_label : ∀ r ∈ rules, r.lhs = .label → r.pattern.head? = some .label := by decide

theorem heads_of_dummy : ∀ r ∈ rules, r.lhs = .dummy → r.pattern.head? = some .dummy := by decide

theorem heads_of_args : ∀ r ∈ rules, r.lhs = .args → r.pattern.head? = some .args := by decide

theorem action_of_addr_source : ∀ r ∈ rules, r.lhs = .addr → r.pattern.source?.isSome = true →
    r.pattern.source? = some .reg ∧ r.action = .addrBase := by decide

end Grammar

namespace Forest.HasValue

theorem head_cases (hvalue : g.HasValue k) (hhead : (g.node k).head? = some h) :
    h = .inRegister ∨ ∃ o, h = .inst o := by
  rw [Node.head?] at hhead
  split at hhead
  next => exact Or.inl (Option.some.inj hhead).symm
  next =>
    rcases hvalue with hop | ⟨⟨o, hop⟩, -⟩ <;> rw [hop] at hhead
    · exact Or.inl (Option.some.inj hhead).symm
    · split at hhead
      next => exact absurd hhead (by simp)
      next => exact Or.inr ⟨_, (Option.some.inj hhead).symm⟩
      all_goals simp_all

/-- The rules for the head of a node with a value, that do not leave it in a register. -/
theorem inlines (hvalue : g.HasValue k) (hmatches : r.Matches g k) (hsource : r.pattern.source? = none)
    (hreg : r.lhs ≠ .reg) (hstmt : r.lhs ≠ .stmt) :
    (g.node k).computed = false ∧ (g.node k).Inlines r.lhs := by
  have hr := hmatches.mem
  have hinst : ∀ {o}, r.pattern.head? = some (.inst o) →
      (g.node k).computed = false ∧ (g.node k).op = .inst o :=
    fun hp ↦ head?_inst (hmatches.fits.head? hp)
  have hleaf : ∀ {h}, r.pattern.head? = some h → h ≠ .inRegister → (∀ o, h ≠ .inst o) → False :=
    fun hp hregister hne ↦ (hvalue.head_cases (hmatches.fits.head? hp)).elim hregister
      fun ⟨o, ho⟩ ↦ hne o ho
  cases hlhs : r.lhs with
  | reg => exact absurd hlhs hreg
  | stmt => exact absurd hlhs hstmt
  | imm =>
    rcases Grammar.heads_of_imm r hr hlhs with hp | ⟨o, ho, hp⟩
    · exact (hleaf hp Head.noConfusion fun _ ↦ Head.noConfusion).elim
    · exact ⟨(hinst hp).1, o, ho, (hinst hp).2⟩
  | mem =>
    rcases Grammar.heads_of_mem r hr hlhs with hp | ⟨hp, hguard⟩
    · exact (hleaf hp Head.noConfusion fun _ ↦ Head.noConfusion).elim
    · have hadmits := hmatches.admits
      rw [Rule.admits, hguard] at hadmits
      exact ⟨(hinst hp).1, (hinst hp).2, of_decide_eq_true hadmits⟩
  | addr =>
    rcases Grammar.heads_of_addr r hr hlhs with hp | hp | hp
    · exact absurd hp (by simp [hsource])
    · exact ⟨(hinst hp).1, Or.inl (hinst hp).2⟩
    · exact ⟨(hinst hp).1, Or.inr (hinst hp).2⟩
  | cond => exact hinst (Grammar.heads_of_cond r hr hlhs)
  | label =>
    exact (hleaf (Grammar.heads_of_label r hr hlhs) Head.noConfusion fun _ ↦ Head.noConfusion).elim
  | dummy =>
    exact (hleaf (Grammar.heads_of_dummy r hr hlhs) Head.noConfusion fun _ ↦ Head.noConfusion).elim
  | args =>
    exact (hleaf (Grammar.heads_of_args r hr hlhs) Head.noConfusion fun _ ↦ Head.noConfusion).elim

end Forest.HasValue

/-! ## Values in registers -/

/-- The register `x`, or the address that consists of it. -/
def Bound.Names (b : Bound) (x : VReg) : Prop := b = .reg x ∨ b = .addr (.based (.virt x) 0)

/-- What a consumer got for a node with a value, when it asked for a nonterminal: the register in which
the node is computed in `f`, or something for which `g`, the forest that was labeled, holds no register. -/
def Taken (g f : Forest) (leaf : NodeId × Nonterminal) (b : Bound) : Prop :=
  g.HasValue leaf.1 →
    (∃ x, (f.node leaf.1).computed = true ∧ (f.node leaf.1).slot = .vreg x ∧ b.Names x) ∨
    (g.node leaf.1).computed = false ∧ (g.node leaf.1).Inlines leaf.2

/-- What is computed stays so, in its register. -/
def Forest.Retains (f f' : Forest) : Prop :=
  ∀ k, (f.node k).computed = true →
    (f'.node k).computed = true ∧ (f'.node k).slot = (f.node k).slot

namespace Forest.Retains

theorem refl (f : Forest) : f.Retains f := fun _ hk ↦ ⟨hk, rfl⟩

theorem trans {f'' : Forest} (h : f.Retains f') (h' : f'.Retains f'') : f.Retains f'' :=
  fun k hk ↦ ⟨(h' k (h k hk).1).1, (h' k (h k hk).1).2.trans (h k hk).2⟩

theorem of_sameValues (h : f.SameValues f') : f.Retains f' :=
  fun k hk ↦ ⟨(h k).computed.trans hk, (h k).slot⟩

theorem not_computed (h : f.Retains f') (hk : (f'.node k).computed = false) :
    (f.node k).computed = false :=
  Bool.eq_false_iff.mpr fun hc ↦ Bool.false_ne_true (hk.symm.trans (h k hc).1)

end Forest.Retains

theorem Taken.later (h : Taken g f leaf b) (hretains : f.Retains f') : Taken g f' leaf b := by
  intro hvalue
  refine (h hvalue).imp_left fun ⟨x, hcomputed, hslot, hb⟩ ↦ ?_
  obtain ⟨hcomputed', hslot'⟩ := hretains _ hcomputed
  exact ⟨x, hcomputed', hslot'.trans hslot, hb⟩

theorem Work.settle_reg {w : Workspace} {o : Opcode} {x : VReg} (hop : (w.forest.node k).op = .inst o) :
    settle k .reg (.reg x) w = .ok (.reg x) { w with forest := w.forest.update k fun n ↦
      { n with computed := true, slot := .vreg x, roles := { n.roles with register := true } } } := by
  rw [settle, node_bind]
  simp only [hop]
  rfl

/-- What was found in a node that was computed before. -/
theorem Taken.of_reuse (hreuse : (f.node k).reuse? nt = some b) (hstmt : nt ≠ .stmt) :
    Taken g f (k, nt) b := by
  intro _
  left
  obtain ⟨hcomputed, -, x, hslot, -⟩ := Node.reuse?_cases hreuse
  refine ⟨x, hcomputed, hslot, ?_⟩
  unfold Node.reuse? at hreuse
  split at hreuse <;> simp_all [Bound.Names]

/-- A phi has its register from the beginning. -/
theorem Labels.Derives.action_of_phi (hls : ls.Derives g) (hop : (g.node k).op = .phiDef)
    (hrule : ls.rule? k .reg = some r) : r.action = .register := by
  have hhead : (g.node k).head? = some .inRegister := by
    rw [Node.head?, hop]
    split <;> rfl
  obtain ⟨h, hp⟩ := Pattern.head?_of_source (hls.register_source (by rw [hhead]; decide) hrule)
  have hmatches := (hls.sound.rule hrule).1
  refine Grammar.action_of_inRegister r hmatches.mem ?_
  rw [hp, ← hmatches.fits.head? hp, hhead]

namespace Application

/-- A rule for a register gives the value of its node in one. -/
theorem isReg (hmatches : a.rule.Matches g a.node) (hlhs : a.rule.lhs = .reg)
    (hvalue : g.HasValue a.node) (hskeleton : g.SameSkeleton a.before.forest) : a.result.IsReg := by
  rcases inRegister_of_lhs a.rule hmatches.mem hlhs with hreg | hcall
  · exact returns_applyRule hreg _ _ _ a.runs
  · obtain ⟨-, -, -, hop⟩ := Pattern.leaves_of_inst (Grammar.tile_call a.rule hmatches.mem hcall).2
      hmatches.fits (.refl g)
    rcases applyRule_call hcall a.runs with ⟨hwidth, -⟩ | ⟨-, hb⟩
    · rcases hvalue with hphi | ⟨-, hnot⟩
      · exact absurd (hop.symm.trans hphi) NodeOp.noConfusion
      · exact absurd ⟨hop, (hskeleton.width a.node).symm.trans hwidth⟩ hnot
    · exact hb

/-- The address that consists of the register of a node. -/
theorem addrBase (haction : a.rule.action = .addrBase) (hkids : a.kids = [b]) {x : VReg}
    (hb : b.Names x) : a.result = .addr (.based (.virt x) 0) := by
  obtain ⟨is, hexpands, -⟩ := applyRule_expands a.runs (by rw [haction]; exact Action.noConfusion)
  rw [haction, hkids] at hexpands
  generalize a.result = result at hexpands
  cases hexpands with
  | addrBase hm => rcases hb with rfl | rfl <;> exact congrArg Bound.addr (Option.some.inj hm).symm
  | extendWhole h => exact absurd h (by simp)

/-- **Values.** If the leaves of a rule took values, then the reduction that the rule ends takes the value of
its node. -/
theorem taken (hls : ls.Derives g) (hrule : ls.rule? a.node nt = some a.rule)
    (hskeleton : g.SameSkeleton a.before.forest) (hslotted : a.before.forest.Slotted)
    (hkids : List.Forall₂ (Taken g a.before.forest) (a.rule.pattern.leaves g a.node) a.kids)
    (hsettle : settle a.node nt a.result a.after = .ok a.result w') (hstmt : nt ≠ .stmt) :
    Taken g w'.forest (a.node, nt) a.result := by
  intro hvalue
  obtain ⟨hmatches, rfl⟩ := hls.sound.rule hrule
  have hroles := sameButRoles_applyRule a.runs
  have hop : ∀ k, (a.after.forest.node k).op = (g.node k).op := fun k ↦
    ((hroles.sameValues k).op).trans (hskeleton.op k)
  by_cases hreg : a.rule.lhs = .reg
  · left
    obtain ⟨x, hx⟩ := a.isReg hmatches hreg hvalue hskeleton
    rw [hreg, hx] at hsettle
    rw [hreg] at hrule
    rcases hvalue with hphi | ⟨⟨o, ho⟩, -⟩
    · obtain ⟨v, hslot, hresult, hafter⟩ := applyRule_register (hls.action_of_phi hphi hrule) a.runs
      have hcomputed := (hslotted a.node).phi ((hskeleton.op a.node).trans hphi)
      rcases (settle_eq_ok hsettle).2 with rfl | ⟨_, o, -, -, ho, -⟩
      · rw [hafter]
        exact ⟨v, hcomputed, hslot, Or.inl hresult⟩
      · exact absurd ((hop a.node).symm.trans ho) (by simp [hphi])
    · rw [settle_reg ((hop a.node).trans ho)] at hsettle
      obtain ⟨-, rfl⟩ := EStateM.Result.ok.inj hsettle
      have hlt : a.node < a.after.forest.size :=
        Forest.lt_size_of_op ((hop a.node).trans ho) NodeOp.noConfusion
      refine ⟨x, ?_, ?_, Or.inl hx⟩ <;>
        rw [Forest.node_update_self _ _ hlt]
  · cases hsource : a.rule.pattern.source? with
    | none => exact Or.inr (hvalue.inlines hmatches hsource hreg hstmt)
    | some s =>
      -- the only rule left takes the register of the node for an address
      have haddr : a.rule.lhs = .addr := by
        rcases Grammar.chain_steps a.rule hmatches.mem s hsource with ⟨hlhs, -⟩ | ⟨-, hlhs⟩
        · exact absurd hlhs hreg
        · simp only [List.mem_cons, List.not_mem_nil, or_false] at hlhs
          exact hlhs.resolve_right hstmt
      obtain ⟨hs, haction⟩ :=
        Grammar.action_of_addr_source a.rule hmatches.mem haddr (by simp [hsource])
      rw [← a.rule.pattern.takeLeaves_fst a.node g (.refl g), Pattern.leaves_of_source hs] at hkids
      obtain ⟨b, hb, hone⟩ := exists_of_forall₂_one hkids
      obtain ⟨x, hcomputed, hslot, hb⟩ := (hb hvalue).resolve_right fun h ↦ h.2
      have hafter : w' = a.after := by
        rcases (settle_eq_ok hsettle).2 with rfl | ⟨_, _, hlhs, -⟩
        · rfl
        · exact absurd hlhs hreg
      have hsame := hroles.sameValues a.node
      rw [hafter]
      exact Or.inl ⟨x, hsame.computed.trans hcomputed, hsame.slot.trans hslot,
        Or.inr (a.addrBase haction hone hb)⟩

end Application

end TreeCover
