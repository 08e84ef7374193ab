import TreeCover.Proofs.Convention.Threads
import TreeCover.Proofs.Labels.Drawing
import TreeCover.Proofs.Labels.Names
import TreeCover.Proofs.Tiling.Settled
import TreeCover.Proofs.Tiling.Slots
import TreeCover.Proofs.Tiling.Tiles

/-!
# Branches in selected code

A selected branch stands in the block that the branch of the source stands in, and has the label of a
block that this one names. A label comes from a label node, label nodes keep their slots, and only the
root of a tree is reduced to a statement, so the branches in the code of a block belong to the roots of
its trees. Main statement: `selected_branches`.
-/

namespace TreeCover

open Ir Machine Work

variable {f : Func} {g h h' : Forest} {w w' w₀ : Workspace} {r : Rule} {id k c root : NodeId}
  {nt : Nonterminal} {b : Bound} {kids : List Bound} {fuel idx : Nat} {l : LabelId}
  {T : Nat → LabelId → Prop} {trees : List (List NodeId)} {roots : List NodeId} {x : Unit}

/-! ## Slots of label nodes -/

namespace Forest

/-- Label nodes keep their labels. -/
def KeepsLabels (h h' : Forest) : Prop :=
  ∀ k, (h.node k).op = .label → (h'.node k).op = .label ∧ (h'.node k).slot = (h.node k).slot

theorem KeepsLabels.refl (h : Forest) : KeepsLabels h h := fun _ hop ↦ ⟨hop, rfl⟩

theorem KeepsLabels.trans {h'' : Forest} (hh : KeepsLabels h h') (hh' : KeepsLabels h' h'') :
    KeepsLabels h h'' := by
  intro k hop
  obtain ⟨hop', hslot⟩ := hh k hop
  obtain ⟨hop'', hslot'⟩ := hh' k hop'
  exact ⟨hop'', hslot'.trans hslot⟩

theorem SameValues.keepsLabels (hsame : SameValues h h') : KeepsLabels h h' :=
  fun k hop ↦ ⟨(hsame k).op.trans hop, (hsame k).slot⟩

/-- A child of the node is the label node of `l`. -/
def HasLabel (h : Forest) (k : NodeId) (l : LabelId) : Prop :=
  ∃ c ∈ h.kidOwners k, (h.node c).op = .label ∧ (h.node c).slot = .label l

end Forest

theorem keptByReduction_labels (g : Forest) (S : NodeId → Prop) :
    KeptByReduction g S Forest.KeepsLabels where
  refl := .refl
  trans _ _ _ := .trans
  release f id _ _ := (f.sameValues_releaseKids id).keepsLabels
  roles _ _ hroles := hroles.sameValues.keepsLabels
  mark f id v o _ hop k hlabel := by
    rcases f.node_update_cases id k _ with ⟨rfl, -⟩ | hnode
    · exact absurd (hop.symm.trans hlabel) NodeOp.noConfusion
    · rw [hnode]
      exact ⟨hlabel, rfl⟩

/-! ## Code -/

/-- From `a` to `a'` no block gets another label, and the next instruction goes to the same block. -/
structure Machine.Code.SameHeads (a a' : Code) : Prop where
  labels : a'.blocks.map (·.label) = a.blocks.map (·.label)
  current : a'.current = a.current

namespace Machine.Code

variable {a a' a'' : Code}

theorem SameHeads.refl (a : Code) : SameHeads a a := ⟨rfl, rfl⟩

theorem SameHeads.trans (ha : SameHeads a a') (ha' : SameHeads a' a'') : SameHeads a a'' :=
  ⟨ha'.labels.trans ha.labels, ha'.current.trans ha.current⟩

theorem map_label_modify {blocks : List Block} {p : Block → Block} (hp : ∀ b, (p b).label = b.label)
    (t : Nat) : (blocks.modify t p).map (·.label) = blocks.map (·.label) := by
  refine List.ext_getElem? fun k ↦ ?_
  rw [List.getElem?_map, List.getElem?_map, List.getElem?_modify]
  cases blocks[k]? with
  | none => rfl
  | some b =>
    simp only [Option.map_some]
    split <;> simp [hp]

theorem sameHeads_addPhiInput (a : Code) (succ : Nat) (dst : VReg) (value : Machine.Operand) :
    SameHeads a (a.addPhiInput succ dst value) :=
  ⟨map_label_modify (p := fun b ↦ { b with phis := addInput dst (value, a.current) b.phis })
    (fun _ ↦ rfl) succ, rfl⟩

/-- The branches of block `t` have labels of `T t`. -/
def Branches (T : Nat → LabelId → Prop) (a : Code) : Prop :=
  ∀ t b, a.blocks[t]? = some b → ∀ i ∈ b.insts, i.isBranch = true →
    ∃ l, i.operands = [.label l] ∧ T t l

/-- Changes of blocks that leave their instructions alone. -/
theorem Branches.modify {p : Block → Block} (ha : a.Branches T) (hp : ∀ b, (p b).insts = b.insts)
    {t : Nat} (hblocks : a'.blocks = a.blocks.modify t p) : a'.Branches T := by
  intro k b hb i hi
  rw [hblocks, List.getElem?_modify] at hb
  obtain ⟨b', hb', rfl⟩ := Option.map_eq_some_iff.mp hb
  refine ha k b' hb' i ?_
  split at hi
  · exact hp b' ▸ hi
  · exact hi

end Machine.Code

theorem Emits.sameHeads {is : List Machine.Inst} (h : Emits w w' is) : w.code.SameHeads w'.code :=
  ⟨h.blocks ▸ Code.map_label_modify (p := fun b ↦ { b with insts := b.insts ++ is }) (fun _ ↦ rfl) _,
    h.current⟩

theorem Emits.branches {is : List Machine.Inst} (h : Emits w w' is) (hw : w.code.Branches T)
    (his : ∀ i ∈ is, i.isBranch = true → ∃ l, i.operands = [.label l] ∧ T w.code.current l) :
    w'.code.Branches T := by
  intro t b hb i hi
  rw [h.getElem?] at hb
  obtain ⟨b', hb', rfl⟩ := Option.map_eq_some_iff.mp hb
  split at hi
  next heq =>
    rcases List.mem_append.mp hi with hi | hi
    · exact hw t b' hb' i hi
    · exact heq ▸ his i hi
  next => exact hw t b' hb' i hi

/-! ## Actions -/

section Actions

variable {n : Node} {frame : Frame} {v : VReg} {action : Action} {is : List Machine.Inst}
  {i : Machine.Inst}

/-- The actions that end in a jump. -/
def Action.isJump : Action → Bool
  | .jump | .branchCond | .branchTest => true
  | _ => false

theorem isBranch_loadConstant (value : Word) (dst : Machine.Operand) :
    (loadConstant value dst).isBranch = false := by
  rw [loadConstant]
  split <;> rfl

theorem isBranch_callCode {callee : String} {os : List Machine.Operand} {result? : Option VReg} :
    ∀ i ∈ callCode callee os result?, i.isBranch = false := by
  refine List.forall_mem_append.mpr ⟨List.forall_mem_append.mpr ⟨fun i hi ↦ ?_,
    List.forall_mem_cons.mpr ⟨rfl, ?_⟩⟩, ?_⟩
  · obtain ⟨o, -, rfl⟩ := List.mem_map.mp hi
    rfl
  · rw [popCode]
    split
    · exact List.forall_mem_nil _
    · exact List.forall_mem_singleton.mpr rfl
  · cases result? with
    | none => exact List.forall_mem_nil _
    | some v => exact List.forall_mem_singleton.mpr rfl

/-- Other actions emit no branch. -/
theorem Expands.isBranch (h : Expands n frame kids v action is b) (haction : action.isJump = false) :
    ∀ i ∈ is, i.isBranch = false := by
  cases h with
  | jump | branchCond | branchTest => exact absurd haction (by simp [Action.isJump])
  | signExtend | zeroExtend =>
    exact fun i hi ↦ by simp [Machine.Inst.isBranch, (Machine.Inst.calm_extendInsts i hi).plain]
  | callVoid | call => exact isBranch_callCode
  | loadImm => exact List.forall_mem_singleton.mpr (isBranch_loadConstant _ _)
  | retImm =>
    exact List.forall_mem_cons.mpr ⟨isBranch_loadConstant _ _, List.forall_mem_singleton.mpr rfl⟩
  | _ =>
    simp [Machine.Inst.isBranch, moveTo, Machine.Inst.define, Machine.Inst.update,
      Machine.Inst.intoReg]

/-- The labels of branches are results of leaves. -/
theorem Expands.branches (h : Expands n frame kids v action is b) (haction : action.isJump = true)
    (hi : i ∈ is) (hbranch : i.isBranch = true) :
    ∃ (l : LabelId) (idx : Nat), i.operands = [.label l] ∧ kids[idx]? = some (.label l) := by
  cases h with
  | jump hl =>
    obtain rfl := List.mem_singleton.mp hi
    exact ⟨_, _, rfl, hl⟩
  | branchCond _ hl hl' =>
    simp only [List.mem_cons, List.not_mem_nil, or_false] at hi
    rcases hi with rfl | rfl
    · exact ⟨_, _, rfl, hl⟩
    · exact ⟨_, _, rfl, hl'⟩
  | branchTest _ hl hl' =>
    simp only [List.mem_cons, List.not_mem_nil, or_false] at hi
    rcases hi with rfl | rfl | rfl
    · exact absurd hbranch (by simp [Machine.Inst.isBranch])
    · exact ⟨_, _, rfl, hl⟩
    · exact ⟨_, _, rfl, hl'⟩
  | extendWhole => exact absurd hi List.not_mem_nil
  | _ => exact absurd haction (by simp [Action.isJump])

/-- Labels come from label nodes. -/
theorem Expands.label_cases (h : Expands n frame kids v action is (.label l)) :
    action = .label ∧ n.slot = .label l := by
  cases h with
  | label h => exact ⟨rfl, h⟩

end Actions

/-! ## Patterns -/

namespace Grammar

/-- A jump is a statement, and a child of its node is a label. -/
theorem tile_isJump : ∀ r ∈ rules, r.action.isJump = true → r.lhs = .stmt ∧
    r.pattern.inst?.map Prod.fst = some .br := by decide

end Grammar

/-! ## Reductions -/

/-- A result that is a label is that of a label node of `h`. -/
def Bound.IsLabelOf (h : Forest) (k : NodeId) (b : Bound) : Prop :=
  ∀ l, b = .label l → (h.node k).op = .label ∧ (h.node k).slot = .label l

theorem Bound.IsLabelOf.of_reuse {n : Node} (hreuse : n.reuse? nt = some b) : b.IsLabelOf h k := by
  rintro l rfl
  unfold Node.reuse? at hreuse
  split at hreuse <;> exact absurd hreuse (by simp)

/-- A workspace in which a tree that was labeled in `g` is being reduced; label nodes are as in `h`. -/
structure Branching (h g : Forest) (T : Nat → LabelId → Prop) (w : Workspace) : Prop where
  labels : w.labels.Sound g
  skeleton : g.SameSkeleton w.forest
  base : h.SameSkeleton w.forest
  names : h.KeepsLabels w.forest
  code : w.code.Branches T

namespace Branching

variable {leaves : List (NodeId × Nonterminal)}

/-- A rule that ends in a jump has got its labels from children of its node. -/
theorem jump (hw : Branching h g T w) (hmatches : r.Matches g k)
    (hjump : r.action.isJump = true)
    (hresults : List.Forall₂ (fun leaf b ↦ b.IsLabelOf h leaf.1) (r.pattern.takeLeaves k h').1 kids)
    (hskeleton : g.SameSkeleton h') (hl : kids[idx]? = some (.label l)) :
    (h.node k).op = .inst .br ∧ h.HasLabel k l := by
  obtain ⟨-, hinst⟩ := Grammar.tile_isJump r hmatches.mem hjump
  obtain ⟨⟨o, goals⟩, hp, rfl⟩ := Option.map_eq_some_iff.mp hinst
  obtain ⟨hleaves, -, -, hop⟩ := Pattern.leaves_of_inst hp hmatches.fits hskeleton
  rw [hleaves] at hresults
  obtain ⟨hlt, hget⟩ := List.getElem?_eq_some_iff.mp hl
  have hlt' : idx < ((g.kidOwners k).zip goals).length := hresults.length_eq ▸ hlt
  obtain ⟨hlabel, hslot⟩ := hresults.get hlt' hlt l hget
  refine ⟨(hw.base.op k).symm.trans ((hw.skeleton.op k).trans hop), _, ?_, hlabel, hslot⟩
  rw [← hw.base.kidOwners, hw.skeleton.kidOwners]
  exact (List.of_mem_zip (List.getElem_mem hlt')).1

/-- A rule that gives a label is that of a label node. -/
theorem isLabelOf {frame : Frame} {v : VReg} {is : List Machine.Inst}
    (hw : Branching h g T w) (hmatches : r.Matches g k)
    (hexpands : Expands (w.forest.node k) frame kids v r.action is b) : b.IsLabelOf h k := by
  rintro l rfl
  obtain ⟨haction, hslot⟩ := hexpands.label_cases
  obtain ⟨-, hleaf⟩ := Grammar.tile_label r hmatches.mem haction
  obtain ⟨-, hop⟩ := head?_label (hmatches.fits.head? (Pattern.leaves_of_isLeaf (k := k) (f := g) hleaf).2)
  have hop' := (hw.base.op k).symm.trans ((hw.skeleton.op k).trans hop)
  exact ⟨hop', ((hw.names k hop').2).symm.trans hslot⟩

end Branching

/-- An action emits the branches of its own node only. -/
theorem applyRule_branches (hmatches : r.Matches g k) (hskeleton : g.SameSkeleton h')
    (hresults : List.Forall₂ (fun leaf b ↦ b.IsLabelOf h leaf.1) (r.pattern.takeLeaves k h').1 kids)
    (hw : Branching h g T w)
    (hroot : r.lhs = .stmt → (h.node k).op = .inst .br → ∀ l, h.HasLabel k l →
      T w.code.current l)
    (happly : applyRule r k kids w = .ok b w') :
    Branching h g T w' ∧ w.code.SameHeads w'.code ∧ b.IsLabelOf h k := by
  by_cases hphi : r.action = .phiInput
  · obtain ⟨_, succ, dst, value, -, -, -, rfl, rfl⟩ := applyRule_phiInput hphi happly
    refine ⟨⟨hw.labels, hw.skeleton, hw.base, hw.names, ?_⟩, w.code.sameHeads_addPhiInput _ _ _,
      fun l hl ↦ absurd hl Bound.noConfusion⟩
    exact hw.code.modify (p := fun b ↦ { b with phis := Code.addInput dst (value, w.code.current) b.phis })
      (fun _ ↦ rfl) rfl
  · obtain ⟨is, hexpands, hemits, hroles⟩ := applyRule_expands happly hphi
    have hsame := Forest.sameSkeleton_roles hroles
    refine ⟨⟨hemits.labels ▸ hw.labels, hw.skeleton.trans hsame, hw.base.trans hsame,
      hw.names.trans hroles.sameValues.keepsLabels, hemits.branches hw.code fun i hi hbranch ↦ ?_⟩,
      hemits.sameHeads, hw.isLabelOf hmatches hexpands⟩
    cases hjump : r.action.isJump with
    | false => exact absurd hbranch (by simp [hexpands.isBranch hjump i hi])
    | true =>
      obtain ⟨l, idx, hops, hl⟩ := hexpands.branches hjump hi hbranch
      obtain ⟨hop, hlabel⟩ := hw.jump hmatches hjump hresults hskeleton hl
      exact ⟨l, hops, hroot (Grammar.tile_isJump r hmatches.mem hjump).1 hop l hlabel⟩

/-- **Reductions.** A reduction emits branches only if it is that of a statement, and then those of its
own node. -/
theorem reduceFrom_branches (hflat : g.Flat) (hw : Branching h g T w)
    (hroot : nt = .stmt → (h.node (g.owner id)).op = .inst .br → ∀ l, h.HasLabel (g.owner id) l →
      T w.code.current l)
    (hreduce : reduceFrom fuel id nt w = .ok b w') :
    Branching h g T w' ∧ w.code.SameHeads w'.code ∧ b.IsLabelOf h (g.owner id) := by
  induction fuel generalizing id nt w b w' with
  | zero => exact absurd hreduce failCovering_ne_ok
  | succ fuel ih =>
    rcases reduceFrom_owner_cases hreduce with
      ⟨hreuse, rfl⟩ | ⟨r, kids, w₁, w₂, -, hrule, hkids, happly, hmark⟩
    · exact ⟨hw, .refl _, .of_reuse hreuse⟩
    · rw [hw.skeleton.owner] at hrule hkids happly hmark
      have howner := hflat.owner_owner id
      obtain ⟨hmatches, rfl⟩ := hw.labels.rule hrule
      have hclosed := (keptByReduction_true hflat).2
      have hsame := r.pattern.sameSkeleton_takeLeaves (g.owner id) w.forest
      have htaken : Branching h g T (w.took r (g.owner id) r.lhs) :=
        ⟨hw.labels, hw.skeleton.trans hsame, hw.base.trans hsame, hw.names.trans
          ((keptByReduction_labels g _).takeLeaves hclosed _ _ _ hw.skeleton howner), hw.code⟩
      -- the leaves are owners, and none of them is reduced to a statement
      obtain ⟨⟨hw₁, hheads⟩, hresults⟩ := mapM_relates
        (P := fun t ↦ Branching h g T t ∧ w.code.SameHeads t.code)
        (R := fun leaf b ↦ b.IsLabelOf h leaf.1) hkids ⟨htaken, .refl _⟩
        fun leaf hleaf t y t' ⟨ht, hheads⟩ hstep ↦ by
          have hself := r.pattern.takeLeaves_mem hclosed _ _ hw.skeleton howner leaf hleaf
          have hgoal := r.pattern.goal_mem _ _ leaf hleaf
          obtain ⟨ht', hheads', hy⟩ := ih ht (fun hstmt ↦
            absurd (hstmt ▸ hgoal) (Grammar.goals_rules r hmatches.mem)) hstep
          exact ⟨⟨ht', hheads.trans hheads'⟩, by simpa only [hself] using hy⟩
      obtain ⟨hw₂, hheads', hb⟩ := applyRule_branches hmatches hw.skeleton hresults hw₁
        (hheads.current ▸ hroot) happly
      refine ⟨?_, ?_, hb⟩ <;> rcases hmark with ⟨v, o, -, -, hop, hmark⟩ | ⟨-, rfl⟩
      · obtain rfl := modify_eq_ok.mp hmark
        exact ⟨hw₂.labels, hw₂.skeleton.trans (Forest.sameSkeleton_update _ _ fun _ ↦ rfl),
          hw₂.base.trans (Forest.sameSkeleton_update _ _ fun _ ↦ rfl), hw₂.names.trans
            ((keptByReduction_labels g fun _ ↦ True).mark _ _ v o trivial hop), hw₂.code⟩
      · exact hw₂
      · obtain rfl := modify_eq_ok.mp hmark
        exact hheads.trans hheads'
      · exact hheads.trans hheads'

/-! ## Visits -/

/-- A workspace between the visits of two roots. -/
structure Branched (h : Forest) (T : Nat → LabelId → Prop) (w : Workspace) : Prop where
  flat : w.forest.Flat
  base : h.SameSkeleton w.forest
  names : h.KeepsLabels w.forest
  code : w.code.Branches T

/-- The visit of a root emits its branches only. -/
theorem selectTree_branches (hw : Branched h T w)
    (hroot : (h.node root).op = .inst .br → ∀ l, h.HasLabel root l → T w.code.current l)
    (hselect : selectTree root w = .ok x w') : Branched h T w' ∧ w.code.SameHeads w'.code := by
  rcases selectTree_ok hselect with ⟨-, rfl⟩ | ⟨hnot, e, w₁, he, hemit⟩
  · exact ⟨hw, .refl _⟩
  · obtain ⟨rfl, -⟩ := shouldEmit_ok he
    have hprogress : w.forest.Progress (fun _ ↦ True) (fun _ ↦ True) (fun _ _ ↦ True)
        (w.forest.refreshLevel root).2 := w.forest.progress_refreshLevel root
    have hsame := hprogress.skeleton
    have hnames := hw.names.trans (w.forest.sameValues_refreshLevel root).keepsLabels
    have hflat := hsame.flat hw.flat
    rcases hemit with ⟨-, hemit⟩ | ⟨-, session, rfl⟩
    · obtain ⟨fuel, labels, session, b, w₂, hsound, hreduce, hcode, hforest⟩ := selectRoot_ok hemit
      have howner : (w.forest.refreshLevel root).2.owner root = root := by
        rw [hsame.owner]
        exact Forest.owner_of_target (by simpa using (Bool.or_eq_false_iff.mp hnot).1)
      have hstart : Branching h (w.forest.refreshLevel root).2 T
          { w with forest := (w.forest.refreshLevel root).2, labels, session } :=
        ⟨hsound, .refl _, hw.base.trans hsame, hnames, hw.code⟩
      obtain ⟨hw₂, hheads, -⟩ := reduceFrom_branches hflat hstart
        (fun _ ↦ howner.symm ▸ hroot) hreduce
      exact ⟨⟨hforest ▸ hw₂.skeleton.flat hflat, hforest ▸ hw₂.base, hforest ▸ hw₂.names,
        hcode ▸ hw₂.code⟩, hcode ▸ hheads⟩
    · exact ⟨⟨hflat, hw.base.trans hsame, hnames, hw.code⟩, .refl _⟩

theorem selectBlock_branches (hw : Branched h T w)
    (hroots : ∀ root ∈ roots, (h.node root).op = .inst .br → ∀ l, h.HasLabel root l →
      T w.code.current l)
    (hselect : selectBlock roots w = .ok x w') : Branched h T w' ∧ w.code.SameHeads w'.code := by
  refine forM_induct (P := fun t ↦ Branched h T t ∧ w.code.SameHeads t.code) hselect
    ⟨hw, .refl _⟩ fun root hmem t u t' ⟨ht, hheads⟩ hstep ↦ ?_
  obtain ⟨ht', hheads'⟩ := selectTree_branches ht (hheads.current ▸ hroots root hmem) hstep
  exact ⟨ht', hheads.trans hheads'⟩

/-! ## Blocks -/

/-- Labels of blocks are found in label nodes, and these stay. -/
theorem blockLabel?_kept (hsame : w₀.SameNames w) (hnames : w₀.forest.KeepsLabels w.forest)
    (hlabels : ∀ b k, w₀.defs.labels.lookup b = some k → (w₀.forest.node k).op = .label)
    (b : BlockId) : blockLabel? w b = blockLabel? w₀ b := by
  rw [blockLabel?, blockLabel?, hsame.defs]
  cases hk : w₀.defs.labels.lookup b with
  | none => rfl
  | some k => rw [Option.bind_some, Option.bind_some, (hnames k (hlabels b k hk)).2]

/-- A branch of block `b` names block `u`. -/
def Ir.Func.BranchesTo (f : Func) (b u : BlockId) : Prop :=
  ∃ x ∈ f.blockInsts b, x.2.opcode = .br ∧ u ∈ x.2.operation.blocks

/-- The labels below a branch are those of the blocks that it names. -/
theorem Planted.label_of_branch (hp : Planted f trees w) {t : BlockId}
    (ht : trees[t]? = some roots) (hroot : root ∈ roots)
    (hop : (w.forest.node root).op = .inst .br) (hl : w.forest.HasLabel root l) :
    ∃ u, f.BranchesTo t u ∧ blockLabel? w u = some l := by
  have htree := hp.block t roots ht
  obtain ⟨c, hc, hlabel, hslot⟩ := hl
  -- aliases stand for phis, so a label below the branch is a child of it
  have hdenotes : ∀ {p}, w.Denotes f p c → ∃ u, p = .block u ∧ blockLabel? w u = some l := by
    have hno : ∀ {n}, w.Is c n → n.op ≠ .label → False := fun hk hn ↦
      hn ((Node.op_of_core hk.2).symm.trans hlabel)
    intro p hp
    cases hp with
    | int _ hk => exact (hno hk NodeOp.noConfusion).elim
    | float hk => exact (hno hk NodeOp.noConfusion).elim
    | arg _ hk => exact (hno hk NodeOp.noConfusion).elim
    | inst hk =>
      obtain ⟨-, ⟨o, ho⟩, -⟩ := hk
      exact absurd (ho.symm.trans hlabel) NodeOp.noConfusion
    | block hlookup hk => exact ⟨_, rfl, blockLabel?_eq_some.mpr ⟨c, hlookup, hslot⟩⟩
  have hroot_lt := htree.upper root hroot
  have hno : ∀ {n}, w.Is root n → n.op ≠ .inst .br → False := fun hk hn ↦
    hn ((Node.op_of_core hk.2).symm.trans hop)
  cases (hp.building.nodes root hroot_lt).shape with
  | argument _ hk => exact (hno hk NodeOp.noConfusion).elim
  | constant hk => exact (hno hk NodeOp.noConfusion).elim
  | label hk => exact (hno hk NodeOp.noConfusion).elim
  | pad hk => exact (hno hk NodeOp.noConfusion).elim
  | phi _ hk => exact (hno hk NodeOp.noConfusion).elim
  | phiUse _ _ hk => exact (hno hk (by simp [Node.ofPhiUse])).elim
  | args hk => exact (hno hk NodeOp.noConfusion).elim
  | phiMove _ _ _ hk => exact (hno hk NodeOp.noConfusion).elim
  | @inst b id i kids hi hphi hk hkids =>
    obtain rfl : b = t :=
      Option.some.inj ((Node.block_of_core hk.2).symm.trans (htree.block root hroot))
    have hopcode : i.operation.opcode = .br :=
      NodeOp.inst.inj ((Node.op_of_core hk.2).symm.trans hop)
    obtain ⟨j, hj, rfl⟩ := List.mem_map.mp hc
    rw [Node.kids_of_core hk.2] at hj
    change j ∈ kids at hj
    have howner : w.forest.owner j = j := by
      refine (hp.building.owner (hkids.lt hj)).resolve_right ?_
      rintro ⟨_, _, _, _, hphi⟩
      exact absurd ((Node.op_of_core hphi.2).symm.trans hlabel) NodeOp.noConfusion
    rw [howner] at hlabel hslot hdenotes
    suffices ∃ p ∈ i.operation.places, w.Denotes f p j by
      obtain ⟨p, hp, hd⟩ := this
      obtain ⟨u, rfl, hu⟩ := hdenotes hd
      exact ⟨u, ⟨(id, i), hi, hopcode, List.mem_filterMap.mpr ⟨_, hp, rfl⟩⟩, hu⟩
    generalize i.operation = operation at hopcode hkids
    cases hkids with
    | call => exact absurd hopcode (by simp [Operation.opcode])
    | @br t kid hkid _ hfirst hsecond =>
      have hpad : ∀ {k}, w.Is k .pad → j ≠ k := by
        rintro k hk rfl
        exact absurd ((Node.op_of_core hk.2).symm.trans hlabel) NodeOp.noConfusion
      obtain rfl : j = kid := by
        simpa [hpad hfirst, hpad hsecond] using hj
      exact ⟨.block t, List.mem_singleton_self _, hkid⟩
    | other _ _ hkids =>
      obtain ⟨idx, hidx, rfl⟩ := List.getElem_of_mem hj
      have hidx' : idx < operation.places.length := hkids.length_eq ▸ hidx
      exact ⟨operation.places[idx], List.getElem_mem hidx', hkids.get hidx' hidx⟩

/-- What selection has reached after `n` blocks. -/
structure Labeled (w₀ : Workspace) (T : Nat → LabelId → Prop) (n : Nat) (w : Workspace) : Prop where
  branched : Branched w₀.forest T w
  names : w₀.SameNames w
  length : w.code.blocks.length = w₀.code.blocks.length
  heads : ∀ k < n, (w.code.blocks.map (·.label))[k]? = some (blockLabel? w₀ k)

/-- The trees of one more block. -/
theorem Labeled.step {n : Nat} (ht : Labeled w₀ T n w)
    (hn : n < w₀.code.blocks.length)
    (hlabels : ∀ b k, w₀.defs.labels.lookup b = some k → (w₀.forest.node k).op = .label)
    (hroots : ∀ root ∈ roots, (w₀.forest.node root).op = .inst .br → ∀ l, w₀.forest.HasLabel root l →
      T n l)
    (hselect : selectBlock roots { w with code := w.code.beginBlock n (blockLabel? w n) } =
      .ok x w') : Labeled w₀ T (n + 1) w' := by
  have hbegin : (w.code.beginBlock n (blockLabel? w n)).Branches T :=
    ht.branched.code.modify (p := fun b ↦ { b with label := blockLabel? w n }) (fun _ ↦ rfl) rfl
  have hstart : Branched w₀.forest T { w with code := w.code.beginBlock n (blockLabel? w n) } :=
    ⟨ht.branched.flat, ht.branched.base, ht.branched.names, hbegin⟩
  obtain ⟨hbranched, hheads⟩ := selectBlock_branches hstart hroots hselect
  have hnames : KeepsNames w₀ (selectBlock roots) := Keeps.forM _ fun r _ ↦ keepsNames_selectTree r
  have hlength := congrArg List.length hheads.labels
  rw [List.length_map, List.length_map] at hlength
  have hsame : w₀.SameNames { w with code := w.code.beginBlock n (blockLabel? w n) } :=
    ⟨ht.names.defs, ht.names.nextLabel⟩
  refine ⟨hbranched, hnames _ _ _ hsame hselect,
    hlength.trans ((List.length_modify _ _ _).trans ht.length), fun k hk ↦ ?_⟩
  rw [hheads.labels]
  simp only [Code.beginBlock, Code.updateBlock, List.getElem?_map, List.getElem?_modify]
  rcases Nat.lt_succ_iff_lt_or_eq.mp hk with hk | rfl
  · rw [← ht.heads k hk, List.getElem?_map]
    cases w.code.blocks[k]? with
    | none => rfl
    | some b => simp [Nat.ne_of_gt hk]
  · rw [List.getElem?_eq_getElem (ht.length ▸ hn), blockLabel?_kept ht.names ht.branched.names hlabels]
    simp

/-- **Branches of blocks.** In the selected code of a function, every branch of a block has the label of
a block that a branch of the source names there, and every block has the label that is its own. -/
theorem selected_branches {s : Session} (hbuild : buildForest f (.start f s) = .ok trees w₀)
    (hselect : selectAll trees w₀ = .ok x w) :
    w.code.Branches (fun t l ↦ ∃ u, f.BranchesTo t u ∧ blockLabel? w₀ u = some l) ∧
      w.code.blocks.map (·.label) = (List.range f.blocks.length).map (blockLabel? w₀) := by
  obtain ⟨hp, htrees⟩ := buildForest_planted hbuild
  have hblocks := hp.declared.blank.length
  have hlabels : ∀ b k, w₀.defs.labels.lookup b = some k → (w₀.forest.node k).op = .label := by
    intro b k hk
    obtain ⟨l, hl⟩ := hp.building.labels b k hk
    exact Node.op_of_core hl.2
  have hblank : w₀.code.Branches fun t l ↦ ∃ u, f.BranchesTo t u ∧ blockLabel? w₀ u = some l := by
    intro t b hb i hi
    have hnil := hp.declared.blank.insts t
    rw [instsAt, hb] at hnil
    exact absurd (hnil ▸ hi : i ∈ []) List.not_mem_nil
  have hall := forM_induct_idx (P := fun n t ↦ Labeled w₀ _ n t) hselect
    ⟨⟨hp.building.flat, .refl _, .refl _, hblank⟩, .refl _, rfl, fun k hk ↦ absurd hk (Nat.not_lt_zero k)⟩
    fun n y hn t u t' ht hstep ↦ by
      obtain ⟨roots, b⟩ := y
      rw [List.getElem?_zipIdx, Option.map_eq_some_iff] at hn
      obtain ⟨_, hroots, heq⟩ := hn
      rw [Prod.mk.injEq, Nat.zero_add] at heq
      obtain ⟨rfl, rfl⟩ := heq
      simp only [modifyCode, bind_eq_ok, get_eq_ok, modify_eq_ok] at hstep
      obtain ⟨_, _, ⟨rfl, rfl⟩, _, _, rfl, hblock⟩ := hstep
      exact ht.step (hblocks ▸ htrees ▸ (List.getElem?_eq_some_iff.mp hroots).1) hlabels
        (fun root hroot hop l hl ↦ hp.label_of_branch hroots hroot hop hl) hblock
  refine ⟨hall.branched.code, List.ext_getElem? fun k ↦ ?_⟩
  have hlength : trees.zipIdx.length = f.blocks.length := by rw [List.length_zipIdx, htrees]
  by_cases hk : k < f.blocks.length
  · rw [hall.heads k (hlength ▸ hk), List.getElem?_map, List.getElem?_range hk, Option.map_some]
  · rw [List.getElem?_eq_none, List.getElem?_eq_none]
    · simpa using hk
    · simpa [hall.length, hblocks] using hk

end TreeCover
