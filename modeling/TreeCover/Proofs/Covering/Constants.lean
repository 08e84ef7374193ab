import TreeCover.Proofs.Costs.Failure
import TreeCover.Proofs.Covering.Reduction

/-!
# Constants are evaluated alike

A constant is evaluated three times: by guards, which look down the forest, by labels, which fold where
there is a rule for it, and by reduction, which folds again from the literals up. All three come to the
same word in every acyclic forest, and reduction does so whatever it has computed into registers
before. Main statement: `constants_agree`.
-/

namespace TreeCover

open Ir Machine Work

variable {f g : Forest} {k id a b c : NodeId} {x y z : Word} {r : Rule} {ls : Labels} {fuel : Nat}
  {path : List NodeId} {nt : Nonterminal} {op : BinaryOp}

/-! ## Constants of a forest -/

namespace Forest

/-- The owner `k` stands for the constant `x`: it is a literal, or what is left of arithmetic on
constants. -/
inductive Const (f : Forest) : NodeId → Word → Prop
  | literal {k : NodeId} {c : Constant} (hcomputed : (f.node k).computed = false)
      (hop : (f.node k).op = .imm) (hconstant : (f.node k).constant = some c) : Const f k c.word
  | fold {k a b : NodeId} {op : BinaryOp} {x y z : Word} (hcomputed : (f.node k).computed = false)
      (hop : (f.node k).op = .inst (.binary op)) (hkids : (f.node k).kids = [a, b])
      (hx : Const f (f.owner a) x) (hy : Const f (f.owner b) y) (hz : op.fold? x y = some z) :
      Const f k z

theorem Const.of_constValueFrom (h : f.constValueFrom fuel id = some x) : f.Const (f.owner id) x := by
  induction fuel generalizing id x with
  | zero => cases h
  | succ fuel ih =>
    rw [constValueFrom] at h
    split at h
    next => cases h
    next hcomputed =>
      have hcomputed := Bool.eq_false_iff.mpr hcomputed
      split at h
      next hop =>
        obtain ⟨c, hc, rfl⟩ := Option.map_eq_some_iff.mp h
        exact .literal hcomputed hop hc
      next op a b hop hkids =>
        obtain ⟨y, hy, h⟩ := Option.bind_eq_some_iff.mp h
        obtain ⟨z, hz, h⟩ := Option.bind_eq_some_iff.mp h
        cases op with
        | binary op => exact .fold hcomputed hop hkids (ih hy) (ih hz) h
        | _ => cases h
      next => cases h

theorem madeFrom_of_kids (hcomputed : (f.node k).computed = false) (hkids : (f.node k).kids = [a, b]) :
    f.MadeFrom k (f.owner a) ∧ f.MadeFrom k (f.owner b) := by
  have howners : f.kidOwners k = [f.owner a, f.owner b] := by rw [kidOwners, hkids]; rfl
  exact ⟨⟨hcomputed, by simp [howners]⟩, ⟨hcomputed, by simp [howners]⟩⟩

/-- The way down to a node tells that there is fuel for what is below. -/
theorem Const.constValueFrom (h : f.Const k x) (hid : f.owner id = k) (hacyclic : f.Acyclic)
    (hpath : f.Descends path k) (hfuel : f.size < fuel + path.length) :
    f.constValueFrom fuel id = some x := by
  induction fuel generalizing k id x path with
  | zero =>
    have hlength := hpath.length_le
    omega
  | succ fuel ih =>
    subst hid
    rw [Forest.constValueFrom]
    cases h with
    | literal hcomputed hop hconstant => simp [hcomputed, hop, hconstant]
    | @fold _ a b op y z _ hcomputed hop hkids hy hz hx =>
      obtain ⟨ha, hb⟩ := madeFrom_of_kids hcomputed hkids
      have hdeeper : f.size < fuel + (f.owner id :: path).length := by
        rw [List.length_cons]
        omega
      have hay := ih hy rfl (hpath.cons (hacyclic.below _) ha) hdeeper
      have hbz := ih hz rfl (hpath.cons (hacyclic.below _) hb) hdeeper
      simp [hcomputed, hop, hkids, hay, hbz, Opcode.fold?, hx]

/-- Guards evaluate constants. -/
theorem constValue?_eq_some (hacyclic : f.Acyclic) : f.constValue? id = some x ↔ f.Const (f.owner id) x :=
  ⟨.of_constValueFrom, fun h ↦ h.constValueFrom rfl hacyclic .nil (by simp)⟩

end Forest

/-! ## Literals -/

/-- A forest whose literals are leaves that hold what they stand for. -/
def Forest.Literals (f : Forest) : Prop :=
  ∀ k, (f.node k).op = .imm → (f.node k).kids = [] ∧
    ∃ c, (f.node k).constant = some c ∧ (f.node k).slot = .imm c.word

namespace Forest.Literals

theorem same {f' : Forest} (h : f.Literals) (hskeleton : f.SameSkeleton f')
    (hvalues : f.SameValues f') : f'.Literals := by
  intro k hop
  rw [hskeleton.kids, (hvalues k).constant, (hvalues k).slot]
  exact h k ((hskeleton.op k).symm.trans hop)

end Forest.Literals

/-! ## Derivations of constants -/

namespace Grammar

theorem action_of_imm : ∀ r ∈ rules, r.lhs = .imm → r.action = .immediate ∨ r.action = .fold := by
  decide

/-- There is a rule for every operator that folds. -/
theorem exists_fold (hz : op.fold? x y = some z) : ∃ r ∈ rules, r.lhs = .imm ∧ r.cost = 0 ∧
    r.pattern = bin op .imm .imm ∧ (r.guard = none ∨ r.guard = some .secondShift ∧ y.toNat < 64) := by
  cases op with
  | add => exact ⟨_, mem_of_rule? "fold_add" rfl, rfl, rfl, rfl, Or.inl rfl⟩
  | sub => exact ⟨_, mem_of_rule? "fold_sub" rfl, rfl, rfl, rfl, Or.inl rfl⟩
  | mul => exact ⟨_, mem_of_rule? "fold_mul" rfl, rfl, rfl, rfl, Or.inl rfl⟩
  | and => exact ⟨_, mem_of_rule? "fold_and" rfl, rfl, rfl, rfl, Or.inl rfl⟩
  | or => exact ⟨_, mem_of_rule? "fold_or" rfl, rfl, rfl, rfl, Or.inl rfl⟩
  | xor => exact ⟨_, mem_of_rule? "fold_xor" rfl, rfl, rfl, rfl, Or.inl rfl⟩
  | shl =>
    have hshift : y.toNat < 64 := by
      by_contra hge
      rw [BinaryOp.fold?, if_neg hge] at hz
      cases hz
    exact ⟨_, mem_of_rule? "fold_shl" rfl, rfl, rfl, rfl, Or.inr ⟨rfl, hshift⟩⟩
  | _ => cases hz

/-- Operators for which there is a rule fold, a shift if it is by less than 64. -/
theorem fold_of_foldable : ∀ op ∈ foldable, (op = .shl → y.toNat < 64) →
    ∃ z, op.fold? x y = some z := by
  intro op hop hshift
  simp only [foldable, List.mem_cons, List.not_mem_nil, or_false] at hop
  rcases hop with rfl | rfl | rfl | rfl | rfl | rfl | rfl
  case inr.inr.inr.inr.inr.inr => exact ⟨_, if_pos (hshift rfl)⟩
  all_goals exact ⟨_, rfl⟩

end Grammar

/-- The rules that match a constant: that of a literal, or one that folds two children. -/
theorem Rule.Matches.imm_cases (hmatches : r.Matches f k) (hlhs : r.lhs = .imm) :
    (r.action = .immediate ∧ (f.node k).computed = false ∧ (f.node k).op = .imm ∧
      r.pattern.leaves f k = []) ∨
    ∃ op a b, r.action = .fold ∧ op ∈ foldable ∧ (op = .shl → r.guard = some .secondShift) ∧
      (f.node k).computed = false ∧ (f.node k).op = .inst (.binary op) ∧
      (f.node k).kids = [a, b] ∧
      r.pattern.leaves f k = [(f.owner a, .imm), (f.owner b, .imm)] := by
  have hr := hmatches.mem
  rcases Grammar.action_of_imm r hr hlhs with haction | haction
  · obtain ⟨-, hleaf⟩ := Grammar.tile_immediate r hr haction
    obtain ⟨hnone, hhead⟩ := Pattern.leaves_of_isLeaf (k := k) (f := f) hleaf
    obtain ⟨hcomputed, hop⟩ := head?_imm (hmatches.fits.head? hhead)
    rw [r.pattern.takeLeaves_fst k f (.refl f)] at hnone
    exact Or.inl ⟨haction, hcomputed, hop, hnone⟩
  · obtain ⟨op, hop, hp, hguard⟩ := Grammar.tile_fold_guarded r hr haction
    obtain ⟨hleaves, hlength, hcomputed, hinst⟩ := Pattern.leaves_of_inst hp hmatches.fits (.refl f)
    obtain ⟨a, b, hkids, howners⟩ := Forest.exists_kids_of_two hlength
    rw [r.pattern.takeLeaves_fst k f (.refl f), howners] at hleaves
    exact Or.inr ⟨op, a, b, haction, hop, hguard, hcomputed, hinst, hkids, hleaves⟩

namespace Derivation

theorem DeriveAll.exists_derives : ∀ {ds : List Derivation} {leaves : List (NodeId × Nonterminal)},
    DeriveAll f ds leaves → ∀ leaf ∈ leaves, ∃ d : Derivation, d.Derives f leaf.1 leaf.2
  | [], [], _ => List.forall_mem_nil _
  | d :: ds, leaf :: leaves, h => by
    rw [DeriveAll] at h
    exact List.forall_mem_cons.mpr ⟨⟨d, h.1⟩, exists_derives h.2⟩

/-- What can be derived as a constant is one. -/
theorem exists_const (hacyclic : f.Acyclic) (hliterals : f.Literals) :
    ∀ (d : Derivation) {k : NodeId}, d.Derives f k .imm → ∃ x, f.Const k x
  | .step r ds, k, h => by
    obtain ⟨hmatches, hlhs, hds⟩ := h
    rcases hmatches.imm_cases hlhs with ⟨-, hcomputed, hop, -⟩ |
      ⟨op, a, b, -, hfoldable, hguard, hcomputed, hop, hkids, hleaves⟩
    · obtain ⟨-, c, hc, -⟩ := hliterals k hop
      exact ⟨_, .literal hcomputed hop hc⟩
    · rw [hleaves] at hds
      match ds, hds with
      | [d₁, d₂], hds =>
        obtain ⟨x, hx⟩ := exists_const hacyclic hliterals d₁ hds.1
        obtain ⟨y, hy⟩ := exists_const hacyclic hliterals d₂ hds.2.1
        obtain ⟨z, hz⟩ : ∃ z, op.fold? x y = some z := by
          refine Grammar.fold_of_foldable op hfoldable fun hshl ↦ ?_
          have hadmits := hmatches.admits
          rw [Rule.admits, hguard hshl] at hadmits
          have hb := (f.constValue?_eq_some hacyclic).mpr hy
          simpa [Guard.holds, Forest.kidConst?, hkids, hb] using hadmits
        exact ⟨z, .fold hcomputed hop hkids hx hy hz⟩

end Derivation

/-- A constant can be derived for free. -/
theorem Forest.Const.derives (hacyclic : f.Acyclic) (hliterals : f.Literals) (h : f.Const k x) :
    ∃ d : Derivation, d.Derives f k .imm ∧ d.cost = 0 := by
  induction h with
  | @literal k c hcomputed hop hconstant =>
    have hmatches : (⟨"imm", .imm, .op .imm [], 0, none, .immediate⟩ : Rule).Matches f k := by
      refine ⟨Grammar.mem_of_rule? "imm" rfl, ?_, rfl⟩
      simp [Pattern.Fits, Pattern.FitKids, Node.head?, hcomputed, hop, (hliterals k hop).1]
    refine ⟨.step _ [], ⟨hmatches, rfl, ?_⟩, rfl⟩
    simp [Pattern.leaves, Pattern.kidLeaves, Derivation.DeriveAll]
  | @fold k a b op x y z hcomputed hop hkids _ hy hz ihx ihy =>
    obtain ⟨d₁, hd₁, hcost₁⟩ := ihx
    obtain ⟨d₂, hd₂, hcost₂⟩ := ihy
    obtain ⟨r, hr, hlhs, hcost, hp, hguard⟩ := Grammar.exists_fold hz
    have howners : f.kidOwners k = [f.owner a, f.owner b] := by rw [kidOwners, hkids]; rfl
    have hmatches : r.Matches f k := by
      refine ⟨hr, ?_, ?_⟩
      · rw [hp]
        simp [Grammar.bin, Grammar.inst, Pattern.Fits, Pattern.FitKids, Node.head?, hcomputed, hop,
          hkids, howners]
      · rcases hguard with hguard | ⟨hguard, hshift⟩
        · rw [Rule.admits, hguard]
          rfl
        · have hb := (f.constValue?_eq_some hacyclic).mpr hy
          simpa [Rule.admits, hguard, Guard.holds, kidConst?, hkids, hb] using hshift
    refine ⟨.step r [d₁, d₂], ⟨hmatches, hlhs, ?_⟩, ?_⟩
    · rw [hp]
      simp [Grammar.bin, Grammar.inst, Pattern.leaves, Pattern.kidLeaves, howners,
        Derivation.DeriveAll, hd₁, hd₂]
    · simp [Derivation.cost, Derivation.costs, hcost₁, hcost₂, hcost]

namespace Labels.Optimal

variable (h : ls.Optimal f) (hacyclic : f.Acyclic) (hliterals : f.Literals) (hk : ls.Has k)
include h hacyclic hliterals hk

/-- A constant is labeled as one, for free. -/
theorem cost_const (hx : f.Const k x) : ls.cost k .imm = 0 := by
  obtain ⟨d, hd, hcost⟩ := hx.derives hacyclic hliterals
  exact Nat.le_zero.mp (hcost ▸ h.least k hk .imm d hd)

omit hk in
/-- What is labeled as a constant is one. -/
theorem exists_const (hcost : ls.cost k .imm < infinite) : ∃ x, f.Const k x := by
  obtain ⟨d, -, hd, -⟩ := h.attained k .imm hcost
  exact d.exists_const hacyclic hliterals hd

end Labels.Optimal

/-! ## Reductions to constants -/

/-- Aliases lead to nodes that are none. -/
def Forest.AliasesEnd (f : Forest) : Prop := ∀ k, (f.node (f.owner k)).target = none

theorem Forest.AliasesEnd.owner_owner (h : f.AliasesEnd) (k : NodeId) : f.owner (f.owner k) = f.owner k :=
  owner_of_target (h k)

theorem keptByReduction_literals (g : Forest) (S : NodeId → Prop) :
    KeptByReduction g S fun f f' ↦ f.Literals → f'.Literals where
  refl _ h := h
  trans _ _ _ h h' hf := h' (h hf)
  release f id _ _ h := h.same (f.sameSkeleton_releaseKids id) (f.sameValues_releaseKids id)
  roles _ _ hroles h := h.same (Forest.sameSkeleton_roles hroles) hroles.sameValues
  mark f id v o _ hop h := by
    intro k himm
    rcases f.node_update_cases id k fun n ↦
        { n with computed := true, slot := .vreg v, roles := { n.roles with register := true } }
      with ⟨rfl, hnode⟩ | hnode
    · rw [hnode] at himm
      exact absurd (hop.symm.trans himm) NodeOp.noConfusion
    · rw [hnode] at himm ⊢
      exact h k himm

/-- A state in which labels that were made for `g` are followed. -/
structure Along (g : Forest) (ls : Labels) (w : Workspace) : Prop where
  labels : w.labels = ls
  skeleton : g.SameSkeleton w.forest
  literals : w.forest.Literals

theorem Node.reuse?_imm (n : Node) : n.reuse? .imm = none := by
  unfold Node.reuse?
  split <;> first | rfl | contradiction

namespace Work

variable {w w' : Workspace} {kids : List Bound} {b : Bound}

/-- Nothing is remembered of a constant. -/
theorem settle_imm (id : NodeId) (b : Bound) (w : Workspace) : settle id .imm b w = .ok b w := by
  rw [settle, node_bind]
  rfl

theorem applyRule_immediate (haction : r.action = .immediate)
    (hslot : (w.forest.node id).slot = .imm x) : applyRule r id kids w = .ok (.imm x) w := by
  rw [applyRule, haction]
  dsimp only
  rw [node_bind]
  simp only [hslot]
  rfl

theorem applyRule_fold (haction : r.action = .fold)
    (hop : (w.forest.node id).op = .inst (.binary op)) (hz : op.fold? x y = some z) :
    applyRule r id [.imm x, .imm y] w = .ok (.imm z) w := by
  have hopcode : (w.forest.node id).opcode? = some (.binary op) := by rw [Node.opcode?, hop]
  have hfold : Opcode.fold? (.binary op) x y = some z := hz
  have hx : leafResult r [.imm x, .imm y] 0 = pure (.imm x) := rfl
  have hy : leafResult r [.imm x, .imm y] 1 = pure (.imm y) := rfl
  rw [applyRule, haction]
  dsimp only
  rw [node_bind]
  simp only [hopcode, hx, hy, pure_bind, asImm, hfold]
  rfl

end Work

section Along

variable (hends : g.AliasesEnd) (hsound : ls.Sound g) {w w' : Workspace} {b : Bound}
include hends

theorem Forest.AliasesEnd.closed : g.ClosedUnderKids fun k ↦ g.owner k = k := by
  intro p _ c hc
  obtain ⟨j, -, rfl⟩ := List.mem_map.mp hc
  exact hends.owner_owner j

theorem Along.took (hw : Along g ls w) (hk : g.owner k = k) (r : Rule) (nt : Nonterminal) :
    Along g ls (w.took r k nt) where
  labels := hw.labels
  skeleton := hw.skeleton.trans (r.pattern.sameSkeleton_takeLeaves k w.forest)
  literals := (keptByReduction_literals g _).takeLeaves hends.closed r.pattern k w.forest hw.skeleton hk
    hw.literals

include hsound

theorem Along.reduceFrom (hw : Along g ls w) (h : reduceFrom fuel id nt w = .ok b w') :
    Along g ls w' := by
  obtain ⟨hliterals, hlabels, hskeleton⟩ := (keptByReduction_literals g _).reduceFrom hends.closed
    (fun _ hk ↦ hk) ⟨hw.labels ▸ hsound, hw.skeleton, hends.owner_owner id⟩ h
  exact ⟨hlabels.trans hw.labels, hskeleton, hliterals hw.literals⟩

theorem Along.reduceLeaves {leaves : List (NodeId × Nonterminal)} {kids : List Bound}
    (hw : Along g ls w) (h : leaves.mapM (reduceLeaf fuel) w = .ok kids w') : Along g ls w' :=
  mapM_induct (P := fun _ t ↦ Along g ls t) h hw
    fun _ _ _ _ _ _ _ _ ht hleaf ↦ ht.reduceFrom hends hsound hleaf

theorem Along.calls {fuel' : Nat} {id' : NodeId} {goal : Nonterminal} (hw : Along g ls w)
    (h : Calls fuel id nt w fuel' id' goal w') : Along g ls w' := by
  induction h with
  | self => exact hw
  | @leaf _ _ id _ _ nt _ _ w _ _ r _ _ _ _ _ _ hbefore _ ih =>
    have howner : g.owner (w.forest.owner id) = w.forest.owner id := by
      rw [hw.skeleton.owner]
      exact hends.owner_owner id
    exact ih ((hw.took hends howner r nt).reduceLeaves hends hsound hbefore)

variable (hacyclic : g.Acyclic) (hopt : ls.Optimal g) (hliterals : g.Literals)
include hacyclic hopt hliterals

/-- **Reduction.** A constant is reduced to what guards have seen, and no instruction is emitted. -/
theorem Along.reduceFrom_const {path : List NodeId} (hw : Along g ls w) (hid : g.owner id = k)
    (hx : g.Const k x) (hhas : ls.Has k) (hpath : g.Descends path k)
    (hfuel : g.size < fuel + path.length) :
    ∃ w', Work.reduceFrom fuel id .imm w = .ok (.imm x) w' ∧ w'.code = w.code := by
  induction fuel generalizing id k x path w with
  | zero =>
    have hlength := hpath.length_le
    omega
  | succ fuel ih =>
    have hk : g.owner k = k := hid ▸ hends.owner_owner id
    have howner : w.forest.owner id = k := (hw.skeleton.owner id).trans hid
    have hreuse := (w.forest.node (w.forest.owner id)).reuse?_imm
    have hcost := hopt.cost_const hacyclic hliterals hhas hx
    obtain ⟨⟨r, ds⟩, hrule, ⟨hmatches, hlhs, -⟩, -⟩ := hopt.attained k .imm (by rw [hcost]; decide)
    have hrule : w.labels.rule? (w.forest.owner id) .imm = some r := by
      rw [howner, hw.labels]
      exact hrule
    have htook := hw.took hends hk r .imm
    rw [reduceFrom_of_rule hreuse hrule, howner, r.pattern.takeLeaves_fst k w.forest hw.skeleton]
    rcases hmatches.imm_cases hlhs with ⟨haction, -, hop, hleaves⟩ |
      ⟨op, a, b, haction, -, -, hcomputed, hop, hkids, hleaves⟩
    · obtain ⟨-, c, hc, hslot⟩ := htook.literals k ((htook.skeleton.op k).trans hop)
      obtain rfl : x = c.word := by
        cases hx with
        | literal _ _ hc' =>
          have hsame : ((w.took r k .imm).forest.node k).constant = (g.node k).constant :=
            (congrArg Node.constant (htook.skeleton.node k) :)
          rw [← hsame, hc] at hc'
          exact congrArg Constant.word (Option.some.inj hc').symm
        | fold _ hop' => exact absurd (hop.symm.trans hop') NodeOp.noConfusion
      refine ⟨w.took r k .imm, ?_, rfl⟩
      rw [hleaves]
      exact bind_eq_ok.mpr ⟨[], _, rfl, bind_eq_ok.mpr ⟨_, _, applyRule_immediate haction hslot,
        settle_imm k _ _⟩⟩
    · cases hx with
      | literal _ hop' => exact absurd (hop.symm.trans hop') NodeOp.noConfusion
      | @fold _ a' b' op' x y _ _ hop' hkids' hx hy hz =>
        obtain ⟨rfl, rfl⟩ : a' = a ∧ b' = b := by simpa [hkids] using hkids'.symm
        obtain rfl : op' = op := by simpa [hop] using hop'.symm
        obtain ⟨ha, hb⟩ := Forest.madeFrom_of_kids hcomputed hkids
        have hdeeper : g.size < fuel + (k :: path).length := by
          rw [List.length_cons]
          omega
        obtain ⟨w₁, hreduce₁, hcode₁⟩ := ih htook (hends.owner_owner a') hx (hopt.closed k hhas _ ha)
          (hpath.cons (hacyclic.below k) ha) hdeeper
        have hw₁ := htook.reduceFrom hends hsound hreduce₁
        obtain ⟨w₂, hreduce₂, hcode₂⟩ := ih hw₁ (hends.owner_owner b') hy (hopt.closed k hhas _ hb)
          (hpath.cons (hacyclic.below k) hb) hdeeper
        have hw₂ := hw₁.reduceFrom hends hsound hreduce₂
        refine ⟨w₂, ?_, hcode₂.trans hcode₁⟩
        rw [hleaves]
        have hleaves₂ : [(g.owner a', Nonterminal.imm), (g.owner b', Nonterminal.imm)].mapM (reduceLeaf fuel)
            (w.took r k .imm) = .ok [.imm x, .imm y] w₂ :=
          mapM_cons_eq_ok.mpr ⟨_, w₁, _, hreduce₁, mapM_cons_eq_ok.mpr
            ⟨_, w₂, _, hreduce₂, mapM_nil_eq_ok.mpr ⟨rfl, rfl⟩, rfl⟩, rfl⟩
        have hop₂ := (hw₂.skeleton.op k).trans hop
        exact bind_eq_ok.mpr ⟨_, w₂, hleaves₂, bind_eq_ok.mpr ⟨_, _, applyRule_fold haction hop₂ hz,
          settle_imm k _ _⟩⟩

end Along

/-! ## Fuel -/

namespace Work

variable {w w' : Workspace} {b : Bound}

theorem mapM_mono {ε σ α ι : Type} {p q : ι → EStateM ε σ α} {xs : List ι} {ys : List α} {s s' : σ}
    (hpq : ∀ i ∈ xs, ∀ t y t', p i t = .ok y t' → q i t = .ok y t') (h : xs.mapM p s = .ok ys s') :
    xs.mapM q s = .ok ys s' := by
  induction xs generalizing ys s with
  | nil => exact h
  | cons i xs ih =>
    obtain ⟨y, t, ys', hi, hxs, rfl⟩ := mapM_cons_eq_ok.mp h
    obtain ⟨hpi, hrest⟩ := List.forall_mem_cons.mp hpq
    exact mapM_cons_eq_ok.mpr ⟨y, t, ys', hpi s y t hi, ih hrest hxs, rfl⟩

/-- A reduction that succeeds does so with more fuel. -/
theorem reduceFrom_mono (h : reduceFrom fuel id nt w = .ok b w') (more : Nat) :
    reduceFrom (fuel + more) id nt w = .ok b w' := by
  induction fuel generalizing id nt w b w' with
  | zero => exact absurd h failCovering_ne_ok
  | succ fuel ih =>
    rw [Nat.succ_add]
    cases hreuse : (w.forest.node (w.forest.owner id)).reuse? nt with
    | some b' =>
      rw [reduceFrom_of_reuse hreuse] at h ⊢
      exact h
    | none =>
      obtain ⟨hsome, -⟩ | ⟨r, _, _, _, -, hrule, -⟩ := reduceFrom_owner_cases h
      · exact nomatch hreuse.symm.trans hsome
      · rw [reduceFrom_of_rule hreuse hrule] at h ⊢
        obtain ⟨kids, w₁, hkids, hrest⟩ := bind_eq_ok.mp h
        exact bind_eq_ok.mpr ⟨kids, w₁, mapM_mono (fun leaf _ t b t' hleaf ↦ ih hleaf) hkids, hrest⟩

end Work

/-! ## Moments of a reduction -/

/-- A state that a reduction comes to: it is about to reduce a node, or has just done so. -/
def Moment (fuel : Nat) (root : NodeId) (goal : Nonterminal) (w v : Workspace) : Prop :=
  ∃ fuel' id nt u, Calls fuel root goal w fuel' id nt u ∧
    (v = u ∨ ∃ b, reduceFrom fuel' id nt u = .ok b v)

/-- A reduction comes to use the rule `r` at the node `k`, with `kids` for the results of its leaves. -/
def Uses (fuel : Nat) (root : NodeId) (goal : Nonterminal) (w : Workspace) (r : Rule) (k : NodeId)
    (kids : List Bound) : Prop :=
  ∃ fuel' id nt v v', Calls fuel root goal w (fuel' + 1) id nt v ∧ v.forest.owner id = k ∧
    (v.forest.node k).reuse? nt = none ∧ v.labels.rule? k nt = some r ∧
    (r.pattern.takeLeaves k v.forest).1.mapM (reduceLeaf fuel') (v.took r k nt) = .ok kids v'

/-! ## Guards -/

namespace Guard

variable {G : Guard} {i : Nat}

/-- The leaf that a guard on a constant is about. -/
def leaf? : Guard → Option Nat
  | firstImm32 => some 0
  | secondImm32 | secondShift => some 1
  | secondScale => some 2
  | wide => none

/-- What a guard asks of its constant. -/
def asks : Guard → Word → Bool
  | firstImm32 | secondImm32 => fitsImm32
  | secondShift => (·.toNat < 64)
  | secondScale => (·.toNat ≤ 3)
  | wide => fun _ ↦ true

/-- The constant that a guard sees at a node. -/
def sees? (f : Forest) (k : NodeId) : Guard → Option Word
  | firstImm32 => f.kidConst? k 0
  | secondImm32 | secondShift => f.kidConst? k 1
  | secondScale => ((f.node k).kids[1]?).bind fun c ↦ f.kidConst? (f.owner c) 1
  | wide => none

theorem holds_eq (hleaf : G.leaf? = some i) : G.holds f k = (G.sees? f k).any G.asks := by
  cases G with
  | secondScale =>
    rw [holds, sees?]
    cases (f.node k).kids[1]? with
    | none => rfl
    | some c => rfl
  | wide => cases hleaf
  | _ => rfl

end Guard

namespace Grammar

/-- Guards are about leaves that are reduced to constants. -/
theorem guard_goals : ∀ r ∈ rules, r.guard ≠ some .wide →
    r.pattern.isScaledIndex = true ∧ r.guard = some .secondScale ∨ r.guard ≠ some .secondScale ∧
      ∀ i ∈ r.guard.bind Guard.leaf?, (r.pattern.inst?.bind (·.2[i]?)) = some .imm := by decide

end Grammar

theorem Forest.kidConst?_of_kidOwners {idx : Nat} {c : NodeId} (h : (f.kidOwners k)[idx]? = some c) :
    ∃ id, f.owner id = c ∧ f.kidConst? k idx = f.constValue? id := by
  rw [kidOwners, List.getElem?_map] at h
  obtain ⟨id, hid, hc⟩ := Option.map_eq_some_iff.mp h
  exact ⟨id, hc, by rw [kidConst?, hid, Option.bind_some]⟩

/-- What a guard sees is the constant of a leaf. -/
theorem Rule.Matches.leaf_of_guard {G : Guard} {i : Nat} (hmatches : r.Matches f k)
    (hguard : r.guard = some G) (hleaf : G.leaf? = some i) :
    ∃ id, (r.pattern.leaves f k)[i]? = some (f.owner id, .imm) ∧ G.sees? f k = f.constValue? id := by
  have hwide : r.guard ≠ some .wide := by
    rintro h
    obtain rfl : G = .wide := Option.some.inj (hguard.symm.trans h)
    exact nomatch hleaf
  rcases Grammar.guard_goals r hmatches.mem hwide with ⟨hp, hscale⟩ | ⟨hscale, hgoals⟩
  · obtain rfl : G = .secondScale := Option.some.inj (hguard.symm.trans hscale)
    obtain rfl : 2 = i := Option.some.inj hleaf
    obtain ⟨a, t, x, y, hleaves, hk, ht, -⟩ :=
      Pattern.leaves_of_isScaledIndex hp hmatches.fits (.refl f)
    rw [r.pattern.takeLeaves_fst k f (.refl f)] at hleaves
    obtain ⟨c, hc, hshift⟩ : ∃ c, f.owner c = t ∧ (f.node k).kids[1]? = some c := by
      have hone : (f.kidOwners k)[1]? = some t := by rw [hk]; rfl
      rw [Forest.kidOwners, List.getElem?_map] at hone
      obtain ⟨c, hc, hct⟩ := Option.map_eq_some_iff.mp hone
      exact ⟨c, hct, hc⟩
    have hy : (f.kidOwners t)[1]? = some y := by rw [ht]; rfl
    obtain ⟨id, rfl, hconst⟩ := Forest.kidConst?_of_kidOwners hy
    refine ⟨id, by rw [hleaves]; rfl, ?_⟩
    rw [Guard.sees?, hshift, Option.bind_some, hc, hconst]
  · have hgoal := hgoals i (by rw [hguard]; exact hleaf)
    obtain ⟨⟨o, goals⟩, hp, hgoal⟩ := Option.bind_eq_some_iff.mp hgoal
    obtain ⟨hleaves, hlength, -⟩ := Pattern.leaves_of_inst hp hmatches.fits (.refl f)
    rw [r.pattern.takeLeaves_fst k f (.refl f)] at hleaves
    obtain ⟨hi, -⟩ := List.getElem?_eq_some_iff.mp hgoal
    have hc : (f.kidOwners k)[i]? = some (f.kidOwners k)[i] := List.getElem?_eq_getElem (hlength ▸ hi)
    obtain ⟨id, hid, hconst⟩ := Forest.kidConst?_of_kidOwners hc
    refine ⟨id, ?_, ?_⟩
    · rw [hleaves, List.getElem?_zip_eq_some]
      exact ⟨hid ▸ hc, hgoal⟩
    · rw [← hconst]
      cases G with
      | secondScale => exact absurd hguard hscale
      | wide => cases hleaf
      | _ =>
        obtain rfl := Option.some.inj hleaf
        rfl

/-! ## Agreement -/

theorem keptByLabels_grounded (f : Forest) : KeptByLabels f fun ls ↦ ∀ k, (ls.label k).Grounded := by
  intro ls id hls _ _ k
  by_cases hk : k = id
  · subst hk
    rw [Labels.label_cons_self]
    exact .labelNode f ls k
  · rw [Labels.label_cons_of_ne ls _ hk]
    exact hls k

/-- The leaves of a rule that labels a node are labeled, and constants if they are to be reduced to
some. -/
theorem Labels.Optimal.leaves (h : ls.Optimal g) (hgrounded : ∀ k, (ls.label k).Grounded)
    (hacyclic : g.Acyclic) (hliterals : g.Literals) (hrule : ls.rule? k nt = some r) :
    r.Matches g k ∧ ∀ leaf ∈ r.pattern.leaves g k, ls.Has leaf.1 ∧
      (leaf.2 = .imm → ∃ x, g.Const leaf.1 x) := by
  have hcovers : ls.Covers (k, nt) := by rw [Labels.Covers, hrule]; rfl
  have hhas : ls.Has k := hcovers.isSome
  obtain ⟨i, hbest, rfl⟩ := Labels.rule?_eq_some.mp hrule
  have hcost : ls.cost k nt < infinite := by
    rw [Labels.cost, NodeLabel.cost, hbest]
    exact (hgrounded k).finite nt i hbest
  obtain ⟨⟨r, ds⟩, hrule', ⟨hmatches, -, hds⟩, -⟩ := h.attained k nt hcost
  obtain rfl : i.rule = r := Option.some.inj (hrule.symm.trans hrule')
  refine ⟨hmatches, fun leaf hleaf ↦ ⟨h.has_leaves hhas hmatches leaf hleaf, fun himm ↦ ?_⟩⟩
  obtain ⟨d, hd⟩ := hds.exists_derives leaf hleaf
  rw [himm] at hd
  exact d.exists_const hacyclic hliterals hd

section Agreement

variable {w w' v : Workspace} {b : Bound} {root : NodeId} {goal : Nonterminal} {kids : List Bound}
  (hends : g.AliasesEnd) (hsound : ls.Sound g) (hacyclic : g.Acyclic) (hopt : ls.Optimal g)
  (hliterals : g.Literals)
include hends hsound

theorem Along.moment (hw : Along g ls w) (h : Moment fuel root goal w v) : Along g ls v := by
  obtain ⟨_, _, _, u, hcalls, rfl | ⟨b, hreduce⟩⟩ := h
  · exact hw.calls hends hsound hcalls
  · exact (hw.calls hends hsound hcalls).reduceFrom hends hsound hreduce

include hacyclic hopt hliterals

theorem Along.reduce_const (hw : Along g ls w) (hid : g.owner id = k) (hx : g.Const k x)
    (hhas : ls.Has k) : ∃ w', reduce id .imm w = .ok (.imm x) w' ∧ w'.code = w.code := by
  refine hw.reduceFrom_const hends hsound hacyclic hopt hliterals hid hx hhas .nil ?_
  rw [← hw.skeleton.size, List.length_nil, Nat.add_zero]
  exact Nat.lt_of_lt_of_le (Nat.lt_succ_self _) (Nat.le_mul_of_pos_right _ (Nat.succ_pos _))

/-- What a constant has been reduced to is its value, however much fuel there was. -/
theorem Along.eq_imm (hw : Along g ls w) (hid : g.owner id = k) (hx : g.Const k x) (hhas : ls.Has k)
    (h : Work.reduceFrom fuel id .imm w = .ok b w') : b = .imm x := by
  have hfuel : g.size < fuel + (g.size + 1) + ([] : List NodeId).length := by
    rw [List.length_nil]
    omega
  obtain ⟨w'', hconst, -⟩ :=
    hw.reduceFrom_const hends hsound hacyclic hopt hliterals hid hx hhas .nil hfuel
  rw [reduceFrom_mono h] at hconst
  injection hconst

/-- **Guards.** An action receives the constant that the guard of its rule has seen. -/
theorem Along.receives (hgrounded : ∀ k, (ls.label k).Grounded) {G : Guard} {i : Nat}
    (hw : Along g ls w) (h : Uses fuel root goal w r k kids) (hguard : r.guard = some G)
    (hleaf : G.leaf? = some i) :
    ∃ x, G.sees? g k = some x ∧ G.asks x = true ∧ kids[i]? = some (.imm x) := by
  obtain ⟨fuel', id, nt, v, v', hcalls, hk, -, hrule, hkids⟩ := h
  have hv := hw.calls hends hsound hcalls
  have hself : g.owner k = k := by
    rw [← hk, hv.skeleton.owner]
    exact hends.owner_owner id
  rw [hv.labels] at hrule
  obtain ⟨hmatches, hleaves⟩ := hopt.leaves hgrounded hacyclic hliterals hrule
  obtain ⟨id, hi, hsees⟩ := hmatches.leaf_of_guard hguard hleaf
  obtain ⟨hhas, hconst⟩ := hleaves _ (List.mem_of_getElem? hi)
  obtain ⟨x, hx⟩ := hconst rfl
  have hvalue := (g.constValue?_eq_some hacyclic).mpr hx
  refine ⟨x, hsees.trans hvalue, ?_, ?_⟩
  · have hadmits := hmatches.admits
    rw [Rule.admits, hguard] at hadmits
    have hholds : G.holds g k = true := hadmits
    rwa [Guard.holds_eq hleaf, hsees, hvalue] at hholds
  · -- the leaf is reduced as a constant in the state to which the leaves before it have led
    rw [r.pattern.takeLeaves_fst k v.forest hv.skeleton] at hkids
    obtain ⟨-, hresults⟩ := mapM_relates (P := Along g ls)
      (R := fun leaf b ↦ leaf = (g.owner id, .imm) → b = .imm x) hkids (hv.took hends hself r nt) <| by
        refine fun leaf _ t b t' ht hreduce ↦ ⟨ht.reduceFrom hends hsound hreduce, ?_⟩
        rintro rfl
        exact ht.eq_imm hends hsound hacyclic hopt hliterals (hends.owner_owner id) hx hhas hreduce
    obtain ⟨hlt, hget⟩ := List.getElem?_eq_some_iff.mp hi
    have hlt' : i < kids.length := hresults.length_eq ▸ hlt
    rw [List.getElem?_eq_getElem hlt']
    exact congrArg some (hresults.get hlt hlt' hget)

end Agreement

/-- **Constants.** When a tree has been labeled, guards, labels and reduction agree on the constants in it:
what has a value is labeled as a constant, for free, and nothing else is; whatever the reduction of the
tree has come to, a constant is reduced to its value, and no instruction is emitted for it; and
when the rule of a guard is used, the action receives the constant that the guard has seen. -/
theorem constants_agree {w : Workspace} {root : NodeId} (hacyclic : w.forest.Acyclic)
    (hends : w.forest.AliasesEnd) (hliterals : w.forest.Literals)
    (hlabel : labelTree w.forest root [] = .ok () w.labels) :
    (∀ n, w.forest.Below (w.forest.owner root) (w.forest.owner n) →
      (w.labels.cost (w.forest.owner n) .imm < infinite ↔ (w.forest.constValue? n).isSome = true) ∧
      (w.labels.cost (w.forest.owner n) .imm < infinite →
        w.labels.cost (w.forest.owner n) .imm = 0) ∧
      ∀ x, w.forest.constValue? n = some x → ∀ fuel goal v, Moment fuel root goal w v →
        ∃ v', reduce n .imm v = .ok (.imm x) v' ∧ v'.code = v.code) ∧
    ∀ fuel goal r k kids G i, Uses fuel root goal w r k kids → r.guard = some G → G.leaf? = some i →
      ∃ x, G.sees? w.forest k = some x ∧ G.asks x = true ∧ kids[i]? = some (.imm x) := by
  have hfuel : w.forest.size < w.forest.size + 1 + ([] : List NodeId).length := by simp
  obtain ⟨hopt, hroot, -⟩ := labelFrom_done (keptByLabels_optimal w.forest) (hacyclic.below _) .nil hfuel
    .nil hlabel
  have hnil : ∀ k, (Labels.label [] k).Grounded := fun _ ↦ .nil
  obtain ⟨hgrounded, -⟩ := labelFrom_done (keptByLabels_grounded w.forest) (hacyclic.below _) .nil hfuel
    hnil hlabel
  have hsound : w.labels.Sound w.forest := sound_labelFrom hlabel fun _ _ h ↦ absurd h List.not_mem_nil
  have hself : Along w.forest w.labels w := ⟨rfl, .refl _, hliterals⟩
  refine ⟨fun n hbelow ↦ ?_, fun fuel goal r k kids G i huses hguard hleaf ↦
    hself.receives hends hsound hacyclic hopt hliterals hgrounded huses hguard hleaf⟩
  have hhas : w.labels.Has (w.forest.owner n) := hopt.has_of_reaches hroot hbelow
  have hzero : ∀ x, w.forest.Const (w.forest.owner n) x → w.labels.cost (w.forest.owner n) .imm = 0 :=
    fun x hx ↦ hopt.cost_const hacyclic hliterals hhas hx
  refine ⟨⟨fun hcost ↦ ?_, fun hvalue ↦ ?_⟩, fun hcost ↦ ?_, fun x hx fuel goal v hv ↦ ?_⟩
  · obtain ⟨x, hx⟩ := hopt.exists_const hacyclic hliterals hcost
    rw [(Forest.constValue?_eq_some hacyclic).mpr hx]
    rfl
  · obtain ⟨x, hx⟩ := Option.isSome_iff_exists.mp hvalue
    rw [hzero x ((Forest.constValue?_eq_some hacyclic).mp hx)]
    decide
  · obtain ⟨x, hx⟩ := hopt.exists_const hacyclic hliterals hcost
    exact hzero x hx
  · exact (hself.moment hends hsound hv).reduce_const hends hsound hacyclic hopt hliterals rfl
      ((Forest.constValue?_eq_some hacyclic).mp hx) hhas

namespace Forest

/-- An argument is added to the sum of three and five. -/
def eightMore : Forest :=
  ⟨#[{ op := .imm, width := 64, constant := some (.int 3 true 64), slot := .imm 3 },
    { op := .imm, width := 64, constant := some (.int 5 true 64), slot := .imm 5 },
    { op := .inst (.binary .add), width := 64, kids := [0, 1] },
    { op := .arg 0, width := 64, slot := .mem (.based (.phys .rbp) 16) },
    { op := .inst (.binary .add), width := 64, kids := [3, 2] }]⟩

theorem acyclic_eightMore : eightMore.Acyclic := by
  refine acyclic_of_lt fun k c hc ↦ ?_
  have hk := lt_size_of_madeFrom hc
  have hsmall : ∀ k < eightMore.size, ∀ c ∈ eightMore.kidOwners k, c < k := by decide
  exact hsmall k hk c hc.2

theorem aliasesEnd_eightMore : eightMore.AliasesEnd := by
  intro k
  rcases k with _ | _ | _ | _ | _ | k <;> rfl

theorem literals_eightMore : eightMore.Literals := by
  intro k hop
  rcases k with _ | _ | _ | _ | _ | k
  · exact ⟨rfl, _, rfl, rfl⟩
  · exact ⟨rfl, _, rfl, rfl⟩
  all_goals exact nomatch hop

end Forest

/-- The sum of three and five is the constant eight to guards, to labels and to reduction. -/
theorem constants_agree_eightMore : ∃ w, w.forest = Forest.eightMore ∧
    labelTree Forest.eightMore 4 [] = .ok () w.labels ∧
    Forest.eightMore.constValue? 2 = some 8 ∧ w.labels.cost 2 .imm = 0 ∧
    ∃ w', reduce 2 .imm w = .ok (.imm 8) w' ∧ w'.code = w.code := by
  obtain ⟨ls, hlabel⟩ : ∃ ls, labelTree Forest.eightMore 4 [] = .ok () ls := ⟨_, rfl⟩
  let w : Workspace := { holding Forest.eightMore with labels := ls }
  have hvalue : Forest.eightMore.constValue? 2 = some 8 := rfl
  have hbelow : Forest.eightMore.Below 4 2 := .single ⟨rfl, by decide⟩
  obtain ⟨hcost, hfree, hreduce⟩ := (constants_agree (w := w) Forest.acyclic_eightMore
    Forest.aliasesEnd_eightMore Forest.literals_eightMore hlabel).1 2 hbelow
  have hstart : Moment 0 4 .reg w w := ⟨_, _, _, _, .self, Or.inl rfl⟩
  exact ⟨w, rfl, hlabel, hvalue, hfree (hcost.mpr (congrArg Option.isSome hvalue)),
    hreduce 8 hvalue 0 .reg w hstart⟩

end TreeCover
