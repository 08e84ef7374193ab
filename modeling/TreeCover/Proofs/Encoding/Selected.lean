import TreeCover.Proofs.Encoding.Layout
import TreeCover.Proofs.Encoding.Drafts
import TreeCover.Proofs.Tiling.Slots
import TreeCover.Proofs.Tiling.Settled

/-!
# Drafts in selected code

All selected instructions are drafts. Rules that make a constant part of an instruction have a guard,
and what the guard has checked at the time of labeling is what the constant is reduced to later:
constants come from literals and from folding, neither of which depends on what has been emitted in
the meantime. Main statement: `selectAll_drafts`.
-/

namespace TreeCover

open Ir Machine Work

variable {g f : Forest} {fuel : Nat} {id k c : NodeId} {nt : Nonterminal} {b : Bound}
  {w w' : Workspace} {r : Rule} {kids bs : List Bound} {x y : Word} {idx : Nat} {o : Opcode}
  {goals : List Nonterminal} {root : NodeId} {trees : List (List NodeId)} {u : Unit}

/-! ## Code -/

namespace Machine

theorem forall_mem_modify {P : Block → Prop} {blocks : List Block} {h : Block → Block}
    (hblocks : ∀ b ∈ blocks, P b) (hh : ∀ b, P b → P (h b)) (k : Nat) :
    ∀ b ∈ blocks.modify k h, P b := by
  intro b hb
  obtain ⟨j, hj⟩ := List.mem_iff_getElem?.mp hb
  rw [List.getElem?_modify] at hj
  obtain ⟨b', hb', rfl⟩ := Option.map_eq_some_iff.mp hj
  have hP := hblocks b' (List.mem_of_getElem? hb')
  split
  · exact hh b' hP
  · exact hP

/-- Code whose blocks consist of drafts, with slots in its frame. -/
structure Code.Drafted (a : Code) : Prop where
  blocks : ∀ b ∈ a.blocks, b.Drafted
  frame : a.frame.Addressed

theorem Code.Drafted.emits {is : List Machine.Inst} (h : w.code.Drafted) (hemits : Emits w w' is)
    (his : ∀ i ∈ is, i.Draft) : w'.code.Drafted := by
  refine ⟨?_, h.frame.extends hemits.frame⟩
  rw [hemits.blocks]
  refine forall_mem_modify h.blocks (fun b hb ↦ ?_) _
  exact ⟨List.forall_mem_append.mpr ⟨hb.insts, his⟩, hb.inputs⟩

theorem mem_addInput {dst : VReg} {input : Machine.Operand × Nat} {phis : List Phi}
    (hphis : ∀ phi ∈ phis, ∀ z ∈ phi.incoming, z.1.Encodable) (hinput : input.1.Encodable) :
    ∀ phi ∈ Code.addInput dst input phis, ∀ z ∈ phi.incoming, z.1.Encodable := by
  induction phis with
  | nil => exact fun _ hphi ↦ absurd hphi List.not_mem_nil
  | cons phi phis ih =>
    obtain ⟨hphi, hrest⟩ := List.forall_mem_cons.mp hphis
    rw [Code.addInput]
    split
    · exact List.forall_mem_cons.mpr
        ⟨List.forall_mem_append.mpr ⟨hphi, List.forall_mem_singleton.mpr hinput⟩, hrest⟩
    · exact List.forall_mem_cons.mpr ⟨hphi, ih hrest⟩

theorem Code.Drafted.addPhiInput {a : Code} {succ : Nat} {dst : VReg} {value : Machine.Operand}
    (h : a.Drafted) (hvalue : value.Encodable) : (a.addPhiInput succ dst value).Drafted := by
  refine ⟨forall_mem_modify h.blocks (fun b hb ↦ ?_) _, h.frame⟩
  exact ⟨hb.insts, mem_addInput hb.inputs hvalue⟩

theorem Code.Drafted.beginBlock {a : Code} (h : a.Drafted) (b : Nat) (label : Option LabelId) :
    (a.beginBlock b label).Drafted := by
  refine ⟨forall_mem_modify h.blocks (fun b hb ↦ ?_) _, h.frame⟩
  exact ⟨hb.insts, hb.inputs⟩

end Machine

/-! ## Results -/

namespace Forest

/-- Every call has few enough arguments to take them off the stack at once. -/
def FewArguments (g : Forest) : Prop :=
  ∀ k, (g.node k).op = .inst .call → ∀ c ∈ g.kidOwners k, (g.node c).kids.length < 2 ^ 28

end Forest

/-- What a node of the labeled forest `g` has been reduced to: an address that has an encoding, or the
constant that guards have seen, or arguments, one for each child and none of them a constant. -/
structure Yields (g : Forest) (k : NodeId) (nt : Nonterminal) (b : Bound) : Prop where
  mems : b.Encodable
  constant : ∀ x, b = .imm x → nt = .imm ∧ ∀ fuel y, g.constValueFrom fuel k = some y → y = x
  args : ∀ bs, b = .args bs →
    bs.length = (g.node (g.owner k)).kids.length ∧ ∀ b ∈ bs, ∀ x, b ≠ .imm x

theorem Yields.of_plain (hmems : b.Encodable) (hconstant : ∀ x, b ≠ .imm x)
    (hargs : ∀ bs, b ≠ .args bs) : Yields g k nt b :=
  ⟨hmems, fun x hx ↦ absurd hx (hconstant x), fun bs hbs ↦ absurd hbs (hargs bs)⟩

/-- What is found in a node that is computed. -/
theorem Yields.of_reuse {n : Node} (h : n.reuse? nt = some b) : Yields g k nt b := by
  have hreg : ∀ v, Yields g k nt (.reg v) := fun v ↦
    .of_plain (Bound.encodable_of_mems (by simp [Bound.mems])) (fun _ ↦ Bound.noConfusion)
      fun _ ↦ Bound.noConfusion
  unfold Node.reuse? at h
  split at h
  next => exact Option.some.inj h ▸ hreg _
  next => exact Option.some.inj h ▸ hreg _
  next =>
    exact Option.some.inj h ▸ .of_plain (Bound.encodable_addr.mpr (Mem.encodable_based _ 0))
      (fun _ ↦ Bound.noConfusion) fun _ ↦ Bound.noConfusion
  next =>
    exact Option.some.inj h ▸ .of_plain (Bound.encodable_of_mems (by simp [Bound.mems]))
      (fun _ ↦ Bound.noConfusion) fun _ ↦ Bound.noConfusion
  next => exact absurd h (by simp)

/-- The leaves of a rule have been reduced to `kids`. -/
def AllYield (g : Forest) (leaves : List (NodeId × Nonterminal)) (kids : List Bound) : Prop :=
  List.Forall₂ (fun leaf b ↦ Yields g leaf.1 leaf.2 b) leaves kids

namespace AllYield

variable {leaves : List (NodeId × Nonterminal)}

theorem mems (h : AllYield g leaves kids) : ∀ b ∈ kids, b.Encodable := by
  intro b hb
  obtain ⟨j, hj, rfl⟩ := List.mem_iff_getElem.mp hb
  exact (h.get (h.length_eq ▸ hj) hj).mems

theorem of_getElem? (h : AllYield g leaves kids) (hb : kids[idx]? = some b) :
    ∃ leaf, leaves[idx]? = some leaf ∧ Yields g leaf.1 leaf.2 b := by
  obtain ⟨hj, rfl⟩ := List.getElem?_eq_some_iff.mp hb
  have hlt : idx < leaves.length := h.length_eq ▸ hj
  exact ⟨leaves[idx], List.getElem?_eq_getElem hlt, h.get hlt hj⟩

/-- Results of the children of an instruction. -/
theorem of_zip (h : AllYield g ((g.kidOwners k).zip goals) kids) (hb : kids[idx]? = some b) :
    ∃ c goal, (g.kidOwners k)[idx]? = some c ∧ goals[idx]? = some goal ∧ Yields g c goal b := by
  obtain ⟨⟨c, goal⟩, hleaf, hyields⟩ := h.of_getElem? hb
  obtain ⟨hc, hgoal⟩ := List.getElem?_zip_eq_some.mp hleaf
  exact ⟨c, goal, hc, hgoal, hyields⟩

end AllYield

/-! ## Guards -/

/-- A constant that a guard has seen is the one that its node is reduced to. -/
theorem Yields.of_kidConst (hflat : g.Flat) (hc : (g.kidOwners k)[idx]? = some c)
    (hguard : (g.kidConst? k idx).any fitsImm32 = true) (h : Yields g c nt (.imm x)) :
    fitsImm32 x = true :=
  Forest.Fixes.of_kidConst (h.constant x rfl).2 hflat hc hguard

namespace Grammar

/-- Rules that make their second operand part of an instruction check it, if it may be a constant. -/
theorem tile_encodesSecond : ∀ r ∈ rules, r.action.encodesSecond = true →
    ∃ o ∈ [Opcode.icmp, .binary .add, .binary .sub, .binary .mul, .binary .and, .binary .or,
      .binary .xor], ∃ goal ∈ [Nonterminal.reg, .mem, .imm],
        r.pattern.inst? = some (o, [.reg, goal]) ∧ (goal = .imm → r.guard = some .secondImm32) := by
  decide

end Grammar

section Rule

variable (hmatches : r.Matches g k) (hskeleton : g.SameSkeleton f)
  (hresults : AllYield g (r.pattern.takeLeaves k f).1 kids)
include hmatches hskeleton hresults

theorem AllYield.of_inst (hp : r.pattern.inst? = some (o, goals)) :
    AllYield g ((g.kidOwners k).zip goals) kids ∧ (g.node k).computed = false ∧
      (g.node k).op = .inst o := by
  obtain ⟨hleaves, -, hcomputed, hop⟩ := Pattern.leaves_of_inst hp hmatches.fits hskeleton
  rw [hleaves] at hresults
  exact ⟨hresults, hcomputed, hop⟩

/-- A matching rule is given what its action can work with. -/
theorem Rule.Matches.suits (hflat : g.Flat) (hfew : g.FewArguments) : Suits r.action kids := by
  refine ⟨hresults.mems, fun haction x hx ↦ ?_, fun haction x hx ↦ ?_, fun haction bs hbs ↦ ?_⟩
  · obtain ⟨-, hp | ⟨hp, hguard⟩⟩ := Grammar.tile_store r hmatches.mem haction
    · obtain ⟨c, goal, -, hgoal, hyields⟩ :=
        (hresults.of_inst hmatches hskeleton hp).1.of_zip hx
      obtain rfl := Option.some.inj hgoal
      exact absurd (hyields.constant x rfl).1 Nonterminal.noConfusion
    · obtain ⟨c, goal, hc, -, hyields⟩ :=
        (hresults.of_inst hmatches hskeleton hp).1.of_zip hx
      have hadmits := hmatches.admits
      rw [Rule.admits, hguard] at hadmits
      exact hyields.of_kidConst hflat hc hadmits
  · obtain ⟨o, -, goal, -, hp, hguard⟩ := Grammar.tile_encodesSecond r hmatches.mem haction
    obtain ⟨c, goal', hc, hgoal, hyields⟩ :=
      (hresults.of_inst hmatches hskeleton hp).1.of_zip hx
    obtain rfl := Option.some.inj hgoal
    have hadmits := hmatches.admits
    rw [Rule.admits, hguard (hyields.constant x rfl).1] at hadmits
    exact hyields.of_kidConst hflat hc hadmits
  · obtain ⟨-, hp⟩ := Grammar.tile_call r hmatches.mem haction
    obtain ⟨hzip, -, hop⟩ := hresults.of_inst hmatches hskeleton hp
    obtain ⟨c, goal, hc, -, hyields⟩ := hzip.of_zip hbs
    have hmem := List.mem_of_getElem? hc
    obtain ⟨hlength, hconstants⟩ := hyields.args bs rfl
    obtain ⟨j, -, rfl⟩ := List.mem_map.mp hmem
    rw [hflat.owner_owner] at hlength
    exact ⟨hlength ▸ hfew k hop _ hmem, hconstants⟩

end Rule

/-! ## Results of rules -/

section Results

variable {n : Node} {frame : Frame} {v : VReg} {action : Action} {is : List Machine.Inst}

theorem Expands.args_cases (h : Expands n frame kids v action is (.args bs)) :
    action = .arguments ∧ bs = kids := by
  cases h with
  | arguments => exact ⟨rfl, rfl⟩

variable (hmatches : r.Matches g k) (hskeleton : g.SameSkeleton f)
  (hresults : AllYield g (r.pattern.takeLeaves k f).1 kids) (howner : g.owner k = k)
include hmatches hskeleton hresults howner

/-- What the action of a matching rule gives. -/
theorem Rule.Matches.yields (hflat : g.Flat) (hslotted : n.Slotted)
    (hn : n.skeleton = (g.node k).skeleton) (hexpands : Expands n frame kids v r.action is b)
    (hmems : b.Encodable) : Yields g k r.lhs b := by
  refine ⟨hmems, ?_, ?_⟩
  · rintro x rfl
    rcases hexpands.constant_cases with ⟨haction, hslot⟩ | ⟨haction, op, y, z, hop, hy, hz, hx⟩
    · exact ⟨(Grammar.tile_immediate r hmatches.mem haction).1,
        fixes_literal hmatches howner hn haction hslotted hslot⟩
    · obtain ⟨hlhs, o, -, hp⟩ := Grammar.tile_fold r hmatches.mem haction
      obtain ⟨hzip, -, -⟩ := hresults.of_inst hmatches hskeleton hp
      have hfixes : ∀ {idx : Nat} {z}, kids[idx]? = some (Bound.imm z) →
          ∀ c, (g.kidOwners k)[idx]? = some c → g.Fixes c z := by
        intro idx z hz c hc
        obtain ⟨c', _, hc', -, hyields⟩ := hzip.of_zip hz
        obtain rfl := Option.some.inj (hc.symm.trans hc')
        exact (hyields.constant z rfl).2
      exact ⟨hlhs, fixes_fold hmatches howner hn hflat haction hop (hfixes hy) (hfixes hz) hx⟩
  · rintro bs rfl
    obtain ⟨haction, rfl⟩ := hexpands.args_cases
    have hp := (Grammar.tile_arguments r hmatches.mem haction).2
    unfold Pattern.isArguments at hp
    split at hp
    next hp' =>
      rw [hp', Pattern.takeLeaves, hskeleton.kidOwners] at hresults
      refine ⟨?_, fun b hb x hx ↦ ?_⟩
      · have hlength := hresults.length_eq
        simp only [List.length_map, Forest.kidOwners] at hlength
        rw [howner, ← hlength]
      · obtain ⟨j, hj⟩ := List.mem_iff_getElem?.mp hb
        obtain ⟨leaf, hleaf, hyields⟩ := AllYield.of_getElem? hresults hj
        obtain ⟨c, -, rfl⟩ := List.mem_map.mp (List.mem_of_getElem? hleaf)
        exact absurd (hyields.constant x hx).1 Nonterminal.noConfusion
    next => exact absurd hp (by simp)

end Results

/-! ## Reductions -/

/-- A workspace in which a tree that was labeled in `g` is being reduced. -/
structure Drafting (g : Forest) (w : Workspace) : Prop where
  labels : w.labels.Sound g
  skeleton : g.SameSkeleton w.forest
  slots : w.forest.Slotted
  code : w.code.Drafted

/-- An action keeps the drafts. -/
theorem applyRule_drafts (hflat : g.Flat) (hfew : g.FewArguments) (hmatches : r.Matches g k)
    (hskeleton : g.SameSkeleton f) (hresults : AllYield g (r.pattern.takeLeaves k f).1 kids)
    (howner : g.owner k = k) (hw : Drafting g w) (h : applyRule r k kids w = .ok b w') :
    Drafting g w' ∧ Yields g k r.lhs b := by
  have hsuits := hmatches.suits hskeleton hresults hflat hfew
  by_cases hphi : r.action = .phiInput
  · obtain ⟨_, succ, dst, value, -, -, hvalue, rfl, rfl⟩ := applyRule_phiInput hphi h
    exact ⟨⟨hw.labels, hw.skeleton, hw.slots, hw.code.addPhiInput (hsuits.operand hvalue)⟩,
      .of_plain (Bound.encodable_of_mems (by simp [Bound.mems])) (fun _ ↦ Bound.noConfusion)
        fun _ ↦ Bound.noConfusion⟩
  · obtain ⟨is, hexpands, hemits, hroles⟩ := applyRule_expands h hphi
    have hargument : ∀ m, r.action = .memory → (w.forest.node k).slot = .mem m → m.Encodable := by
      intro m haction hslot
      obtain ⟨-, hleaf⟩ := Grammar.tile_memory r hmatches.mem haction
      obtain ⟨-, idx, harg⟩ := head?_arg
        (hmatches.fits.head? (Pattern.leaves_of_isLeaf (k := k) (f := g) hleaf).2)
      obtain ⟨d, hd⟩ := (hw.slots k).argument idx ((hw.skeleton.op k).trans harg)
      obtain rfl := Slot.mem.inj (hslot.symm.trans hd)
      exact Mem.encodable_frame d
    obtain ⟨his, hmems⟩ := hexpands.drafts hsuits hargument hw.code.frame
    refine ⟨⟨hemits.labels ▸ hw.labels, hw.skeleton.trans (Forest.sameSkeleton_roles hroles),
      hw.slots.same hroles.sameValues, hw.code.emits hemits his⟩, ?_⟩
    exact hmatches.yields hskeleton hresults howner hflat (hw.slots k) (hw.skeleton.node k)
      hexpands hmems

/-- **Reductions.** A reduction keeps the drafts, and what it gives serves for the rule that asked for
it. -/
theorem reduceFrom_drafts (hflat : g.Flat) (hfew : g.FewArguments) (hw : Drafting g w)
    (h : reduceFrom fuel id nt w = .ok b w') : Drafting g w' ∧ Yields g (g.owner id) nt b := by
  induction fuel generalizing id nt w b w' with
  | zero => exact absurd h failCovering_ne_ok
  | succ fuel ih =>
    rcases reduceFrom_owner_cases h with
      ⟨hreuse, rfl⟩ | ⟨r, kids, w₁, w₂, -, hrule, hkids, happly, hmark⟩
    · exact ⟨hw, .of_reuse hreuse⟩
    · rw [hw.skeleton.owner] at hrule hkids happly hmark
      have howner := hflat.owner_owner id
      obtain ⟨hmatches, rfl⟩ := hw.labels.rule hrule
      have hclosed := (keptByReduction_true hflat).2
      have htaken : Drafting g (w.took r (g.owner id) r.lhs) :=
        ⟨hw.labels, hw.skeleton.trans (r.pattern.sameSkeleton_takeLeaves _ _),
          (keptByReduction_slotted g _).takeLeaves hclosed _ _ _ hw.skeleton howner hw.slots, hw.code⟩
      -- the leaves are owners, so what they give is known of them as they are
      obtain ⟨hw₁, hresults⟩ := mapM_relates (P := Drafting g)
        (R := fun leaf b ↦ Yields g leaf.1 leaf.2 b) hkids htaken fun leaf hleaf t y t' ht hstep ↦ by
          have hself := r.pattern.takeLeaves_mem hclosed _ _ hw.skeleton howner leaf hleaf
          simpa only [hself] using ih ht hstep
      obtain ⟨hw₂, hyields⟩ :=
        applyRule_drafts hflat hfew hmatches hw.skeleton hresults howner hw₁ happly
      refine ⟨?_, hyields⟩
      rcases hmark with ⟨v, o, -, -, hop, hmark⟩ | ⟨-, rfl⟩
      · obtain rfl := modify_eq_ok.mp hmark
        exact ⟨hw₂.labels, hw₂.skeleton.trans (Forest.sameSkeleton_update _ _ fun _ ↦ rfl),
          hw₂.slots.mark hop v, hw₂.code⟩
      · exact hw₂

/-! ## Visits -/

/-- A workspace between the visits of two roots. -/
structure AllDrafts (w : Workspace) : Prop where
  flat : w.forest.Flat
  few : w.forest.FewArguments
  slots : w.forest.Slotted
  code : w.code.Drafted

theorem Forest.FewArguments.of_skeleton (h : g.FewArguments) (hskeleton : g.SameSkeleton f) :
    f.FewArguments := by
  intro k hop c hc
  rw [hskeleton.op] at hop
  rw [hskeleton.kidOwners] at hc
  rw [hskeleton.kids]
  exact h k hop c hc

theorem AllDrafts.refreshLevel (h : AllDrafts w) (root : NodeId) :
    AllDrafts { w with forest := (w.forest.refreshLevel root).2 } := by
  have hprogress : w.forest.Progress (fun _ ↦ True) (fun _ ↦ True) (fun _ _ ↦ True)
      (w.forest.refreshLevel root).2 := w.forest.progress_refreshLevel root
  have hskeleton := hprogress.skeleton
  exact ⟨hskeleton.flat h.flat, h.few.of_skeleton hskeleton,
    h.slots.same (w.forest.sameValues_refreshLevel root), h.code⟩

theorem keptByVisits_drafts (all : List NodeId) : KeptByVisits all fun _ w ↦ AllDrafts w where
  block _ w b label h := ⟨h.flat, h.few, h.slots, h.code.beginBlock b label⟩
  root _ root w w' _ hw h := by
    rcases selectTree_ok h with ⟨-, rfl⟩ | ⟨-, e, w₁, he, hemit⟩
    · exact hw
    · obtain ⟨rfl, -⟩ := shouldEmit_ok he
      have hw₁ := hw.refreshLevel root
      rcases hemit with ⟨-, hemit⟩ | ⟨-, session, rfl⟩
      · obtain ⟨fuel, labels, session, b, w₂, hsound, hreduce, hcode, hforest⟩ := selectRoot_ok hemit
        have hstart : Drafting (w.forest.refreshLevel root).2
            { w with forest := (w.forest.refreshLevel root).2, labels, session } :=
          ⟨hsound, .refl _, hw₁.slots, hw₁.code⟩
        obtain ⟨hw₂, -⟩ := reduceFrom_drafts hw₁.flat hw₁.few hstart hreduce
        exact ⟨hforest ▸ hw₂.skeleton.flat hw₁.flat, hforest ▸ hw₁.few.of_skeleton hw₂.skeleton,
          hforest ▸ hw₂.slots, hcode ▸ hw₂.code⟩
      · exact ⟨hw₁.flat, hw₁.few, hw₁.slots, hw₁.code⟩

/-- **Drafts.** All selected instructions are drafts, and so is what is handed to phis. -/
theorem selectAll_drafts (hw : AllDrafts w) (h : selectAll trees w = .ok u w') :
    w'.code.Drafted :=
  ((keptByVisits_drafts trees.flatten).selectAll (List.prefix_refl _) hw h).code

end TreeCover
