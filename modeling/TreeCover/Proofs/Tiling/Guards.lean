import TreeCover.Proofs.Reading.WellFormed
import TreeCover.Proofs.Tiling.Overtaking

/-!
# Reads are guarded

An instruction with a side effect logs a write at every load of its block that came before it, and each
instruction logs reads at the loads that are pending below its operands. So an operand that would have a
load after an instruction that overtakes it is marked by a read after a write. The copies into phis come
with the terminator of the block, after all side effects. Main statement: `buildForest_logged`.
-/

namespace TreeCover

open Ir Machine Work

variable {f : Func} {s : Session} {w w' w₁ u : Workspace} {g g' : Forest} {k c p r l : NodeId}
  {b : BlockId} {id : InstId} {i : ResolvedInst} {kids roots : List NodeId} {n : Node}
  {trees : List (List NodeId)}

/-! ## Instructions -/

/-- What a new instruction holds below its places is below the nodes of its operands. -/
theorem Attached.below (h : Attached f b id i kids w w₁) (hgrows : w₁.Grows u)
    (hsize : u.forest.size = w₁.forest.size) (hu : u.Building f) (hr : w.forest.size ≤ r)
    (hargs : (u.forest.node r).op ≠ .args) (hheld : u.forest.HeldBy p r) (hc : c ∈ u.forest.kidOwners p)
    (hbelow : u.forest.HangsBelow c l) (hload : (u.forest.node l).op = .inst .load) :
    r = w.forest.size ∧ ∃ k ∈ kids, u.forest.HangsBelow (u.forest.owner k) l := by
  obtain ⟨kids', his, -, hmem⟩ := h.inst
  have hglue : ∀ k, w.forest.size < k → k < u.forest.size → u.Is k .pad ∨ u.Is k (.ofArgs kids) :=
    fun k hlt hk ↦ (h.glue k hlt (hsize ▸ hk)).1.imp (·.grows hgrows) (·.grows hgrows)
  -- below the list of arguments are the arguments
  have hlist : ∀ {x}, u.Is x (.ofArgs kids) → u.forest.HangsBelow x l →
      ∃ k ∈ kids, u.forest.HangsBelow (u.forest.owner k) l := by
    intro x hx hbelow
    rcases Relation.ReflTransGen.cases_head hbelow.2 with rfl | ⟨q, hq, hpath⟩
    · exact absurd (hx.op.symm.trans hload) NodeOp.noConfusion
    · obtain ⟨k, hk, rfl⟩ := List.mem_map.mp hq.1
      exact ⟨k, by rwa [Node.kids_of_core hx.2] at hk, hq.2, hpath⟩
  have hrlt : r < u.forest.size := by
    by_contra hle
    exact hheld.kids_ne hc (by rw [Forest.node_of_le _ (Nat.le_of_not_lt hle)])
  obtain rfl | hlt := Nat.eq_or_lt_of_le hr
  · refine ⟨rfl, ?_⟩
    rcases hheld with rfl | ⟨-, rfl, hkid⟩
    · obtain ⟨x, hx, rfl⟩ := List.mem_map.mp hc
      rw [Node.kids_of_core (his.grows hgrows).2] at hx
      rcases hmem x hx with hx' | hlt
      · exact ⟨x, hx', hbelow⟩
      · have hxlt : x < u.forest.size := (hu.nodes _ hrlt).shape.kids_lt
          (by rwa [Node.kids_of_core (his.grows hgrows).2])
        rcases hglue x hlt hxlt with hpad | hargs'
        · rw [Forest.owner_of_target (Node.target_of_core hpad.2)] at hbelow
          obtain rfl := hpad.eq_of_hangsBelow rfl hbelow
          exact absurd (hpad.op.symm.trans hload) NodeOp.noConfusion
        · rw [Forest.owner_of_target (Node.target_of_core hargs'.2)] at hbelow
          exact hlist hargs' hbelow
    · rcases hglue _ (Nat.lt_succ_self _) (hu.kidOwners_lt hkid) with hpad | hargs'
      · rw [Forest.kidOwners, Node.kids_of_core hpad.2] at hc
        exact absurd hc List.not_mem_nil
      · obtain ⟨x, hx, rfl⟩ := List.mem_map.mp hc
        exact ⟨x, by rwa [Node.kids_of_core hargs'.2] at hx, hbelow⟩
  · rcases hglue r hlt hrlt with hpad | hargs'
    · exact absurd (Node.kids_of_core hpad.2) (hheld.kids_ne hc)
    · exact absurd hargs'.op hargs

/-- An instruction logs a read for every load that is pending below one of its operands. -/
theorem buildInst_logs (hw : w.Building f) (hi : (id, i) ∈ f.blockInsts b)
    (hphi : i.operation.isPhi = false) (hx : buildInst f b id i w = .ok k w')
    (hr : w.forest.size ≤ r) (hargs : (w'.forest.node r).op ≠ .args) (hheld : w'.forest.HeldBy p r)
    (hc : c ∈ w'.forest.kidOwners p) (hbelow : w'.forest.HangsBelow c l)
    (hload : (w'.forest.node l).op = .inst .load) : r = k ∧ w.forest.Logs .read w'.forest l := by
  obtain ⟨hbuilds, -⟩ := buildInst_builds hw hi hphi hx
  obtain ⟨kids, w₁, w₂, hplaces, rfl, hattach, rfl⟩ := buildInst_ok hx
  obtain ⟨hadds, hkids, -⟩ := places_builds hw hplaces
  rw [List.zipIdx_map_fst] at hkids
  have hattached := attach_ok hkids hattach
  have huses : w₂.forest.Uses (w₂.forest.finish f id i w₁.forest.size) := w₂.forest.uses_finish
  have hgrows : w₂.Grows { w₂ with forest := w₂.forest.finish f id i w₁.forest.size } :=
    ⟨huses.toGrows, .refl _, rfl, fun _ _ h ↦ h⟩
  have hnew : w₁.forest.size ≤ r := by
    by_contra hlt
    have hcore := (hattached.grows.trans hgrows).forest.core r (Nat.lt_of_not_le hlt)
    exact hheld.kids_ne hc ((Node.kids_of_core hcore).trans (places_noKids hw hplaces r hr))
  obtain ⟨rfl, x, hx, hbelow⟩ :=
    hattached.below hgrows huses.size_eq hbuilds.building hnew hargs hheld hc hbelow hload
  have hlt := Workspace.Denotes.lt_of_mem hkids hx
  have hgrows' := hattached.grows.trans hgrows
  have howner := hgrows'.forest.owner hadds.building.flat hbuilds.building.flat hlt
  obtain ⟨hbelow', hl⟩ := hgrows'.hangsBelow hadds.building hbuilds.building (hadds.building.owner_lt hlt)
    (howner ▸ hbelow)
  refine ⟨rfl, (places_log hw hplaces hx hbelow' ?_).after (hgrows'.forest.accesses l hl)⟩
  exact (Node.op_of_core (hgrows'.forest.core l hl)).symm.trans hload

/-- A load is pending when it has been built, and stands for itself. -/
theorem Workspace.Building.of_load (hw : w.Building f) (hload : (w.forest.node l).op = .inst .load) :
    w.forest.HangsBelow (w.forest.owner l) l := by
  have hl := Forest.lt_size_of_op hload NodeOp.noConfusion
  have hshape := (hw.nodes l hl).shape
  obtain ⟨b, id, i, -, hshape'⟩ := hshape.of_inst hload
  have htarget : (w.forest.node l).target = none := by
    rcases hshape' with ⟨-, _, his, -⟩ | ⟨-, _, his, -⟩
    · exact absurd (NodeOp.inst.inj (his.op.symm.trans hload)) Opcode.noConfusion
    · exact Node.target_of_core his.2
  rw [Forest.owner_of_target htarget]
  exact .refl (hshape.computed (by rw [hload]; exact NodeOp.noConfusion))

/-- Guarding reads logs a write at every load among the roots. -/
theorem guardReads_logs (hw : w.Building f) {x : Unit} (hx : guardReads roots w = .ok x w')
    (hl : l ∈ roots) (hload : (w'.forest.node l).op = .inst .load) :
    .write ∈ (w'.forest.node l).accesses := by
  have hstep : ∀ r ∈ roots, ∀ t u t', w.AddsLeaves f t →
      (modifyForest fun f ↦ if f.readsMemory r then f.logAccess .write r else f) t = .ok u t' →
      w.AddsLeaves f t' ∧ ((t'.forest.node r).op = .inst .load → .write ∈ (t'.forest.node r).accesses) ∧
        ∀ y, ((t.forest.node y).op = .inst .load → .write ∈ (t.forest.node y).accesses) →
          (t'.forest.node y).op = .inst .load → .write ∈ (t'.forest.node y).accesses := by
    intro r _ t u t' ht hr
    obtain rfl := modify_eq_ok.mp hr
    have huses : t.forest.Uses
        (if t.forest.readsMemory r then t.forest.logAccess .write r else t.forest) := by
      split
      · exact t.forest.uses_logAccess .write r
      · exact .refl _
    have hop : ∀ {y o}, ((if t.forest.readsMemory r then t.forest.logAccess .write r
        else t.forest).node y).op = .inst o → (t.forest.node y).op = .inst o :=
      (Node.op_of_core (huses.core_eq _)).symm.trans
    refine ⟨ht.trans (ht.building.use huses rfl rfl), fun hload ↦ ?_, fun y hy hload ↦ ?_⟩
    · have hbelow := ht.building.of_load (hop hload)
      have hreads : t.forest.readsMemory r = true := by
        refine List.any_eq_true.mpr ⟨r, Forest.mem_pending_iff.mpr hbelow, ?_⟩
        rw [Node.opcode?, hop hload]
        rfl
      change .write ∈ ((if t.forest.readsMemory r then t.forest.logAccess .write r
        else t.forest).node r).accesses
      rw [if_pos hreads]
      exact (Forest.logs_logAccess hbelow (Forest.lt_size_of_op (hop hload) NodeOp.noConfusion)).mem
    · exact (huses.accesses y (Forest.lt_size_of_op (hop hload) NodeOp.noConfusion)).subset (hy (hop hload))
  exact (forM_done hx (.refl hw) hstep).2.1 l hl hload

/-- If the roots are copies into phis, no node of an instruction is made. -/
theorem Roots.no_inst (h : Roots b w w' roots) (hmoves : ∀ r ∈ roots, (w'.forest.node r).op = .phiMove)
    (k : NodeId) (hk : w.forest.size ≤ k) (o : Opcode) : (w'.forest.node k).op ≠ .inst o := by
  intro hop
  have hmove := hmoves k (h.all k hk (Forest.lt_size_of_op hop NodeOp.noConfusion) o hop)
  exact absurd (hmove.symm.trans hop) NodeOp.noConfusion

theorem Node.exists_of_hasSideEffect (h : n.hasSideEffect = true) : ∃ o, n.op = .inst o := by
  rw [Node.hasSideEffect, Node.opcode?] at h
  split at h
  next o ho => exact ⟨o, ho⟩
  next => exact absurd h Bool.false_ne_true

/-- What making a copy into a phi comes to, if the phi has a register. -/
theorem buildPhiMove_ok {succ : BlockId} {m : Option NodeId}
    (hx : buildPhiMove f b succ id i w = .ok m w') : m = none ∧ w' = w ∨
      ∃ value idx phi kid w₁, i.operation.incoming.zipIdx.find? (·.1.2 == b) = some ((value, b), idx) ∧
        w.defs.phis.lookup id = some phi ∧ operand id i (idx * 2) value w = .ok kid w₁ ∧
          m = some w₁.forest.size ∧ w' = { w₁ with
            forest := (w₁.forest.push { op := .phiMove, width := i.ty.bits, phiTarget := some (phi, succ)
                                        block := some b, source := some id }).2.addChild
              w₁.forest.size kid } := by
  rw [buildPhiMove] at hx
  cases hfind : i.operation.incoming.zipIdx.find? (·.1.2 == b) with
  | none =>
    rw [hfind] at hx
    exact absurd hx throw_ne_ok
  | some found =>
    obtain ⟨⟨value, pred⟩, idx⟩ := found
    obtain rfl : pred = b := by simpa using List.find?_some hfind
    simp only [hfind, bind_eq_ok, get_eq_ok] at hx
    obtain ⟨_, _, ⟨rfl, rfl⟩, hx⟩ := hx
    rename Workspace => w
    cases hphi : w.defs.phis.lookup id with
    | none =>
      simp only [hphi, pure_eq_ok] at hx
      exact Or.inl hx
    | some phi =>
      simp only [hphi, modifyForest, push, bind_eq_ok, modifyGet_eq_ok, modify_eq_ok, pure_eq_ok] at hx
      obtain ⟨kid, w₁, hkid, _, _, ⟨rfl, rfl⟩, _, _, rfl, rfl, rfl⟩ := hx
      exact Or.inr ⟨value, idx, phi, kid, w₁, rfl, rfl, hkid, rfl, rfl⟩

/-- A copy into a phi logs a read for every load that is pending below its operand. -/
theorem buildPhiMove_logged {succ : BlockId} {m : Option NodeId} (hw : w.Building f)
    (hlogged : w.forest.Logged) (hi : (id, i) ∈ f.blockPhis succ)
    (hx : buildPhiMove f b succ id i w = .ok m w') : w'.forest.Logged := by
  obtain ⟨hbuilds, hroots, hcopy, -⟩ := buildPhiMove_builds hw hi hx
  have hmoves : ∀ r ∈ m.toList, (w'.forest.node r).op = .phiMove := by
    intro r hr
    obtain ⟨phi, kid, his⟩ := hcopy r (Option.mem_toList.mp hr)
    exact his.op
  rcases buildPhiMove_ok hx with ⟨-, rfl⟩ | ⟨value, idx, phi, kid, w₁, hfind, hphi, hkid, rfl, hw'⟩
  · exact hlogged
  obtain ⟨hadds, hdenotes, hrefs⟩ := operand_builds hw hkid
  obtain ⟨hbuilds₁, -, his⟩ := push_phiMove (u := w') hadds.building (by rw [hw']) (by rw [hw'])
    (by rw [hw']) rfl rfl hi hfind (hadds.grows.phis ▸ hphi) hdenotes hrefs
  have hold : ∀ e, (w'.forest.node e).hasSideEffect = true → e < w.forest.size := by
    intro e heffect
    obtain ⟨o, ho⟩ := Node.exists_of_hasSideEffect heffect
    exact Nat.lt_of_not_le fun he ↦ hroots.no_inst hmoves e he o ho
  refine hbuilds.grows.logged hw hbuilds.building hlogged
    (fun l e hover he ↦ absurd (hold e hover.effect) (Nat.not_lt.mpr he))
    fun l r p c hr _ hheld hc hbelow hload ↦ ⟨?_, fun e _ heffect ↦ hold e heffect⟩
  -- only the copy itself has children
  have hr' : r = w₁.forest.size := by
    have hsize : w'.forest.size = w₁.forest.size + 1 := by
      rw [hw', Forest.size_addChild, Forest.size_push]
    rcases Nat.lt_trichotomy r w₁.forest.size with hlt | heq | hgt
    · refine absurd ?_ (hheld.kids_ne hc)
      rw [Node.kids_of_core (hbuilds₁.grows.forest.core r hlt)]
      exact operand_noKids hkid r hr
    · exact heq
    · exact absurd (by rw [Forest.node_of_le _ (hsize ▸ hgt)]) (hheld.kids_ne hc)
  subst hr'
  obtain rfl : p = w₁.forest.size :=
    hheld.resolve_right fun h ↦ absurd (his.op.symm.trans h.1) NodeOp.noConfusion
  rw [Forest.kidOwners, Node.kids_of_core his.2] at hc
  obtain rfl := List.mem_singleton.mp hc
  have howner := hbuilds₁.grows.forest.owner hadds.building.flat hbuilds.building.flat hdenotes.lt
  obtain ⟨hbelow', hl⟩ := hbuilds₁.grows.hangsBelow hadds.building hbuilds.building
    (hadds.building.owner_lt hdenotes.lt) (howner ▸ hbelow)
  refine (operand_logs hw hkid hbelow' ?_).after (hbuilds₁.grows.forest.accesses l hl)
  exact (Node.op_of_core (hbuilds₁.grows.forest.core l hl)).symm.trans hload

theorem edgeMoves_logged {edges : List (BlockId × InstId × ResolvedInst)} {moves : List (Option NodeId)}
    (hw : w.Building f) (hlogged : w.forest.Logged) (hedges : ∀ e ∈ edges, e.2 ∈ f.blockPhis e.1)
    (hx : (edges.mapM fun (succ, phi, i) ↦ buildPhiMove f b succ phi i :
      Work (List (Option NodeId))) w = .ok moves w') : w'.forest.Logged := by
  induction edges generalizing w moves with
  | nil =>
    obtain ⟨-, rfl⟩ := mapM_nil_eq_ok.mp hx
    exact hlogged
  | cons x edges ih =>
    obtain ⟨m, w₁, ms, hm, hms, rfl⟩ := mapM_cons_eq_ok.mp hx
    obtain ⟨hi, hrest⟩ := List.forall_mem_cons.mp hedges
    exact ih (buildPhiMove_builds hw hi hm).1.building (buildPhiMove_logged hw hlogged hi hm) hrest hms

theorem buildPhiMoves_logged {moves : List NodeId} (hw : w.Building f) (hlogged : w.forest.Logged)
    (hx : buildPhiMoves f b w = .ok moves w') : w'.forest.Logged := by
  simp only [buildPhiMoves, bind_eq_ok, pure_eq_ok] at hx
  obtain ⟨moves', _, hmoves, -, rfl⟩ := hx
  exact edgeMoves_logged hw hlogged (fun e he ↦ (Func.mem_phiEdges.mp he).2) hmoves

/-! ## Blocks -/

/-- Every instruction of block `b` that has been built is among `roots`. -/
def Workspace.Covers (w : Workspace) (b : BlockId) (roots : List NodeId) : Prop :=
  ∀ k o, (w.forest.node k).op = .inst o → (w.forest.node k).block = some b → k ∈ roots

theorem Roots.covers {roots' : List NodeId} (h : Roots b w w' roots') (hgrows : w.Grows w')
    (hcovers : w.Covers b roots) : w'.Covers b (roots ++ roots') := by
  intro k o hop hblock
  by_cases hk : k < w.forest.size
  · have hcore := hgrows.forest.core k hk
    exact List.mem_append_left _ (hcovers k o ((Node.op_of_core hcore).symm.trans hop)
      ((Node.block_of_core hcore).symm.trans hblock))
  · exact List.mem_append_right _
      (h.all k (Nat.le_of_not_lt hk) (Forest.lt_size_of_op hop NodeOp.noConfusion) o hop)

/-- Guarding reads only logs accesses. -/
theorem guardReads_uses {x : Unit} (hx : guardReads roots w = .ok x w') : w.forest.Uses w'.forest := by
  refine forM_induct (P := fun t ↦ w.forest.Uses t.forest) hx (.refl _) fun r _ t _ t' ht hr ↦ ?_
  obtain rfl := modify_eq_ok.mp hr
  refine ht.trans ?_
  change t.forest.Uses (if t.forest.readsMemory r then t.forest.logAccess .write r else t.forest)
  split
  · exact t.forest.uses_logAccess .write r
  · exact .refl _

/-- An instruction, once what comes before it has been guarded. -/
theorem buildInst_logged {w₂ w₃ : Workspace} (hw : w.Building f) (hlogged : w.forest.Logged)
    (hcovers : w.Covers b roots) (hi : (id, i) ∈ f.blockInsts b) (hphi : i.operation.isPhi = false)
    (hx : buildInst f b id i w = .ok k w₂)
    (hguard : (if i.opcode.writesMemory then guardReads roots else pure ()) w₂ = .ok () w₃)
    (hw₃ : w₃.Building f) (hgrows₃ : w₂.Grows w₃) : w₃.forest.Logged := by
  obtain ⟨hbuilds, hroots, kids, his⟩ := buildInst_builds hw hi hphi hx
  have hsize : w₃.forest.size = w₂.forest.size := by
    split at hguard
    next => exact (guardReads_uses hguard).size_eq
    next => rw [(pure_eq_ok.mp hguard).2]
  -- the instruction is all that is new
  have honly : ∀ e o, w.forest.size ≤ e → (w₃.forest.node e).op = .inst o → e = k := by
    intro e o he ho
    have hlt := Forest.lt_size_of_op ho NodeOp.noConfusion
    have ho' := (Node.op_of_core (hgrows₃.forest.core e (hsize ▸ hlt))).symm.trans ho
    exact List.mem_singleton.mp (hroots.all e he (hsize ▸ hlt) o ho')
  refine (hbuilds.grows.trans hgrows₃).logged hw hw₃ hlogged (fun l e hover he ↦ ?_)
    fun l r p c hr hargs hheld hc hbelow hload ↦ ?_
  · obtain ⟨o, ho⟩ := Node.exists_of_hasSideEffect hover.effect
    obtain rfl := honly e o he ho
    have hwrites : i.opcode.writesMemory = true := by
      have heffect := hover.effect
      rwa [Node.hasSideEffect, Node.opcode?, (his.grows hgrows₃).op] at heffect
    rw [if_pos hwrites] at hguard
    obtain ⟨b', hl, he'⟩ := hover.block
    obtain rfl : b = b' :=
      Option.some.inj ((Node.block_of_core (his.grows hgrows₃).2).symm.trans he')
    have hlt : l < w.forest.size :=
      Nat.lt_of_not_le fun hle ↦ Nat.ne_of_lt hover.lt (honly l .load hle hover.load)
    have hcore := (hbuilds.grows.trans hgrows₃).forest.core l hlt
    have hmem := hcovers l .load ((Node.op_of_core hcore).symm.trans hover.load)
      ((Node.block_of_core hcore).symm.trans hl)
    exact guardReads_logs hbuilds.building hguard hmem hover.load
  · have hr' : r < w₂.forest.size := by
      by_contra hle
      exact hheld.kids_ne hc (by rw [Forest.node_of_le _ (hsize ▸ Nat.le_of_not_lt hle)])
    have hcore := Node.op_of_core (hgrows₃.forest.core r hr')
    obtain ⟨hheld', hp⟩ := hgrows₃.heldBy hbuilds.building hw₃ hheld hr'
    have hc' := hgrows₃.kidOwners hbuilds.building hw₃ hp ▸ hc
    obtain ⟨hbelow', hl⟩ := hgrows₃.hangsBelow hbuilds.building hw₃ (hbuilds.building.kidOwners_lt hc')
      hbelow
    obtain ⟨rfl, hlogs⟩ := buildInst_logs hw hi hphi hx hr (fun hop ↦ hargs (hcore.trans hop)) hheld' hc'
      hbelow' ((Node.op_of_core (hgrows₃.forest.core l hl)).symm.trans hload)
    refine ⟨hlogs.after (hgrows₃.forest.accesses l hl), fun e he heffect ↦ ?_⟩
    obtain ⟨o, ho⟩ := Node.exists_of_hasSideEffect heffect
    exact Nat.lt_of_not_le fun hle ↦ Nat.ne_of_lt he (honly e o hle ho)

/-- One instruction. -/
theorem buildStep_logged {roots' : List NodeId} (hw : w.Building f) (hlogged : w.forest.Logged)
    (hcovers : w.Covers b roots) (hi : (id, i) ∈ f.blockInsts b)
    (hx : buildStep f b roots id i w = .ok roots' w') : w'.forest.Logged := by
  cases hphi : i.operation.isPhi with
  | true =>
    simp only [buildStep, hphi, if_true, defineValue, modifyDefs, bind_eq_ok, modify_eq_ok,
      pure_eq_ok] at hx
    obtain ⟨k, w₁, hk, _, _, rfl, -, rfl⟩ := hx
    obtain ⟨hbuilds, hroots, his⟩ := buildPhi_builds hw hi hphi hk
    have hnone : w.NoKids w₁ := by
      simp only [buildPhi, push, bind_eq_ok, get_eq_ok, modifyGet_eq_ok] at hk
      obtain ⟨_, _, ⟨rfl, rfl⟩, -, rfl⟩ := hk
      exact .push rfl rfl
    refine hnone.logged hbuilds.grows hw hbuilds.building hlogged fun e he ↦ ?_
    refine Bool.eq_false_iff.mpr fun heffect ↦ ?_
    obtain ⟨o, ho⟩ := Node.exists_of_hasSideEffect heffect
    obtain rfl := List.mem_singleton.mp
      (hroots.all e he (Forest.lt_size_of_op ho NodeOp.noConfusion) o ho)
    rw [Node.hasSideEffect, Node.opcode?, his.op] at heffect
    exact absurd heffect Bool.false_ne_true
  | false =>
    obtain ⟨moves, w₁, k, w₂, w₃, hmoves, hk, hguard, rfl, rfl⟩ := buildStep_inst hphi hx
    obtain ⟨hw₁, hlogged₁, hcovers₁⟩ : w₁.Building f ∧ w₁.forest.Logged ∧ w₁.Covers b roots := by
      by_cases hterm : i.opcode.isTerminator = true
      · rw [if_pos hterm] at hmoves
        obtain ⟨hbuilds, hroots, hop, -⟩ := buildPhiMoves_builds hw hmoves
        refine ⟨hbuilds.building, buildPhiMoves_logged hw hlogged hmoves, fun k o ho hblock ↦ ?_⟩
        refine (List.mem_append.mp (hroots.covers hbuilds.grows hcovers k o ho hblock)).resolve_right ?_
        exact fun hmem ↦ absurd ((hop k hmem).symm.trans ho) NodeOp.noConfusion
      · rw [if_neg hterm] at hmoves
        obtain ⟨-, rfl⟩ := pure_eq_ok.mp hmoves
        exact ⟨hw, hlogged, hcovers⟩
    obtain ⟨hbuilds₂, -⟩ := buildInst_builds hw₁ hi hphi hk
    have hadds₃ : w₂.AddsLeaves f w₃ := by
      split at hguard
      next => exact guardReads_adds hbuilds₂.building hguard
      next =>
        obtain ⟨-, rfl⟩ := pure_eq_ok.mp hguard
        exact .refl hbuilds₂.building
    have hlogged₃ : w₃.forest.Logged :=
      buildInst_logged hw₁ hlogged₁ hcovers₁ hi hphi hk hguard hadds₃.building hadds₃.grows
    exact hlogged₃

/-- The instructions of a block, one after the other. -/
theorem buildSteps_logged {is : List (InstId × ResolvedInst)} {roots' : List NodeId}
    (hw : w.Building f) (hlogged : w.forest.Logged) (hcovers : w.Covers b roots)
    (his : ∀ x ∈ is, x ∈ f.blockInsts b)
    (hx : (is.foldlM (fun roots (id, i) ↦ buildStep f b roots id i) roots : Work (List NodeId)) w
      = .ok roots' w') : w'.forest.Logged := by
  induction is generalizing w roots with
  | nil =>
    obtain ⟨-, rfl⟩ := pure_eq_ok.mp hx
    exact hlogged
  | cons x is ih =>
    rw [List.foldlM_cons] at hx
    obtain ⟨roots₁, w₁, hx, his'⟩ := bind_eq_ok.mp hx
    obtain ⟨hi, hrest⟩ := List.forall_mem_cons.mp his
    obtain ⟨new, rfl, hbuilds, htrees⟩ := buildStep_builds hw hi hx
    exact ih hbuilds.building (buildStep_logged hw hlogged hcovers hi hx)
      (htrees.made.covers hbuilds.grows hcovers) hrest his'

/-- The node of an instruction has its opcode. -/
theorem Workspace.Building.op_of_results (hw : w.Building f) (hk : w.Results id k)
    (hi : (id, i) ∈ f.blockInsts b) : (w.forest.node k).op = .inst i.opcode := by
  obtain ⟨hlt, ⟨o, ho⟩, hsource⟩ := hk
  obtain ⟨b', id', i', hi', hshape⟩ := (hw.nodes k hlt).shape.of_inst ho
  have heq : ∀ {n}, w.Is k n → n.source = some id' → id' = id := fun his hn ↦
    Option.some.inj (hn.symm.trans ((Node.source_of_core his.2).symm.trans hsource))
  rcases hshape with ⟨hphi, _, his, -⟩ | ⟨-, _, his, -⟩
  · obtain rfl := heq his rfl
    obtain ⟨-, rfl⟩ := Func.blockInsts_unique hi hi'
    exact his.op.trans (congrArg NodeOp.inst (Operation.isPhi_iff.mp hphi).symm)
  · obtain rfl := heq his rfl
    obtain ⟨-, rfl⟩ := Func.blockInsts_unique hi hi'
    exact his.op

/-- The last instruction of a block, and no other, is a terminator. -/
theorem Ir.Func.WellFormed.blockInsts (hwell : f.WellFormed) (hb : b < f.blocks.length) :
    ∃ is last, f.blockInsts b = is ++ [last] ∧ last.2.opcode.isTerminator = true ∧
      ∀ x ∈ is, x.2.opcode.isTerminator = false := by
  obtain ⟨body, last, hbody, hlast, hnone, -⟩ := (hwell.blocks _ (List.getElem_mem hb)).terminator
  refine ⟨body.mapIdx fun k i ↦ (f.firstInst b + k, i), (f.firstInst b + body.length, last), ?_, hlast,
    fun x hx ↦ ?_⟩
  · rw [Func.blockInsts, List.getElem?_eq_getElem hb]
    change f.blocks[b].insts.mapIdx _ = _
    rw [hbody, List.mapIdx_concat]
  · obtain ⟨k, hk, rfl⟩ := List.mem_mapIdx.mp hx
    exact hnone _ (List.getElem_mem hk)

/-- Among the roots of a block, copies into phis come after all instructions with side effects. -/
def Forest.MovesLast (g : Forest) (roots : List NodeId) : Prop :=
  ∀ r ∈ roots, ∀ e ∈ roots, (g.node r).op = .phiMove → (g.node e).hasSideEffect = true → e < r

/-- They are built with the terminator of the block, which comes last. -/
theorem buildSteps_movesLast {is : List (InstId × ResolvedInst)} {last : InstId × ResolvedInst}
    {roots' : List NodeId} (hw : w.Building f) (hdeclared : Declared f w)
    (hinsts : f.blockInsts b = is ++ [last]) (hlast : last.2.opcode.isTerminator = true)
    (his : ∀ x ∈ is, x.2.opcode.isTerminator = false)
    (hx : ((f.blockInsts b).foldlM (fun roots (id, i) ↦ buildStep f b roots id i) [] :
      Work (List NodeId)) w = .ok roots' w') : w'.forest.MovesLast roots' := by
  have hmem : ∀ x ∈ is ++ [last], x ∈ f.blockInsts b := fun x hx ↦ hinsts ▸ hx
  rw [hinsts, List.foldlM_append] at hx
  obtain ⟨roots₁, w₁, hbody, hend⟩ := bind_eq_ok.mp hx
  obtain ⟨new, hnew, hbuilds, htrees⟩ :=
    buildSteps_builds hw (fun x hx ↦ hmem x (List.mem_append_left _ hx)) hbody
  obtain rfl : roots₁ = new := hnew
  obtain ⟨new', rfl, hbuilds', htrees'⟩ :=
    buildSteps_builds hbuilds.building (fun x hx ↦ hmem x (List.mem_append_right _ hx)) hend
  intro r hr e he hmove heffect
  have hnone : is.filter (fun x ↦ x.2.opcode.isTerminator) = [] :=
    List.filter_eq_nil_iff.mpr fun x hx ↦ Bool.eq_false_iff.mp (his x hx)
  have hnoMove : ∀ r ∈ roots₁, (w'.forest.node r).op ≠ .phiMove := by
    intro r hr hop
    have hcopies := htrees.copies fun e he ↦ ?_
    · rw [hnone, List.flatMap_nil] at hcopies
      have hop' := (Node.op_of_core (hbuilds'.grows.forest.core r (htrees.made.upper r hr))).symm.trans hop
      exact absurd (List.mem_filter.mpr ⟨hr, decide_eq_true hop'⟩)
        (List.forall₂_nil_right_iff.mp hcopies ▸ List.not_mem_nil)
    · obtain ⟨k, v, hk, -⟩ := hdeclared.register e.1 e.2 (Func.mem_phiEdges.mp he).2
      exact Option.isSome_iff_exists.mpr ⟨k, hk⟩
  have hnoEffect : ∀ e ∈ new', (w'.forest.node e).hasSideEffect = false := by
    intro e he
    refine Bool.eq_false_iff.mpr fun heffect ↦ ?_
    obtain ⟨o, ho⟩ := Node.exists_of_hasSideEffect heffect
    have hmem' : e ∈ new'.filter fun r ↦ (w'.forest.node r).opcode?.isSome :=
      List.mem_filter.mpr ⟨he, by rw [Node.opcode?, ho]; rfl⟩
    obtain ⟨x, hx, hresults⟩ := exists_of_forall₂ htrees'.results.flip hmem'
    obtain rfl := List.mem_singleton.mp hx
    have hop := hbuilds'.building.op_of_results hresults (hmem x (by simp))
    rw [Node.hasSideEffect, Node.opcode?, hop] at heffect
    generalize x.2.opcode = o at hlast heffect
    cases o <;> simp_all [Opcode.isTerminator, Opcode.writesMemory]
  have hr' := (List.mem_append.mp hr).resolve_left fun hr ↦ hnoMove r hr hmove
  have he' := (List.mem_append.mp he).resolve_right
    fun he ↦ Bool.false_ne_true ((hnoEffect e he).symm.trans heffect)
  exact Nat.lt_of_lt_of_le (htrees.made.upper e he') (htrees'.made.lower r hr')

/-! ## Forests -/

theorem Forest.MovesLast.grows {roots : List NodeId} (h : g.MovesLast roots) (hgrows : g.Grows g')
    (hroots : ∀ r ∈ roots, r < g.size) : g'.MovesLast roots := by
  intro r hr e he hmove heffect
  refine h r hr e he ((Node.op_of_core (hgrows.core r (hroots r hr))).symm.trans hmove) ?_
  rw [Node.hasSideEffect, Node.opcode?, Node.op_of_core (hgrows.core e (hroots e he))] at heffect
  exact heffect

/-- The logs of a forest in which the blocks that have `trees` have been built. -/
structure Guarded (trees : List (List NodeId)) (w : Workspace) : Prop where
  logged : w.forest.Logged
  last : ∀ (b : BlockId) (roots : List NodeId), trees[b]? = some roots → w.forest.MovesLast roots

theorem Guarded.grow (hwell : f.WellFormed) (hb : trees.length < f.blocks.length)
    (hplanted : Planted f trees w) (h : Guarded trees w)
    (hx : (do
      modifyCode (·.beginBlock trees.length none)
      buildBlock f trees.length : Work (List NodeId)) w = .ok roots w') :
    Guarded (trees ++ [roots]) w' := by
  obtain ⟨_, w₁, hbegin, hblock⟩ := bind_eq_ok.mp hx
  obtain rfl := modify_eq_ok.mp hbegin
  obtain ⟨hgrows₁, hw₁⟩ := hplanted.building.beginBlock trees.length none
  obtain ⟨hbuilds, -⟩ := buildBlock_builds hw₁ hblock
  simp only [buildBlock, report, bind_eq_ok, modify_eq_ok, pure_eq_ok] at hblock
  obtain ⟨roots', w₂, hsteps, _, _, rfl, rfl, rfl⟩ := hblock
  -- no instruction of the block has been built before
  have hcovers : { w with code := w.code.beginBlock trees.length none }.Covers trees.length [] := by
    intro k o hop hhome
    obtain ⟨b, rs, hrs, hmem⟩ := hplanted.all k (Forest.lt_size_of_op hop NodeOp.noConfusion) o hop
    obtain rfl := Option.some.inj (((hplanted.block b rs hrs).block k hmem).symm.trans hhome)
    exact absurd (List.getElem?_eq_some_iff.mp hrs).1 (Nat.lt_irrefl _)
  have hlogged : { w with code := w.code.beginBlock trees.length none }.forest.Logged := h.logged
  have hlogged₂ : w₂.forest.Logged := buildSteps_logged hw₁ hlogged hcovers (fun _ h ↦ h) hsteps
  refine ⟨hlogged₂, fun b rs hrs ↦ ?_⟩
  rcases Nat.lt_or_ge b trees.length with hlt | hge
  · rw [List.getElem?_append_left hlt] at hrs
    exact (h.last b rs hrs).grows (hgrows₁.trans hbuilds.grows).forest (hplanted.block b rs hrs).upper
  · rw [List.getElem?_append_right hge, List.getElem?_singleton] at hrs
    split at hrs
    next =>
      obtain rfl := Option.some.inj hrs
      obtain ⟨is, last, hinsts, hlast, his⟩ := hwell.blockInsts hb
      have hmoves : w₂.forest.MovesLast roots :=
        buildSteps_movesLast hw₁ (hplanted.declared.grows hgrows₁) hinsts hlast his hsteps
      exact hmoves
    next => exact absurd hrs (by simp)

/-- Before any block is built there are no instructions. -/
theorem guarded_nil (hinst : ∀ k o, (w.forest.node k).op ≠ .inst o) : Guarded [] w where
  logged := ⟨fun l _ hover ↦ absurd hover.load (hinst l _),
    fun l _ _ _ _ hover ↦ absurd hover.load (hinst l _)⟩
  last _ _ hrs := absurd hrs (by simp)

/-- **Logs.** Once a forest has been built, the logs of its loads tell which of them would be read after
an instruction that overtakes them. -/
theorem buildForest_logged (hwell : f.WellFormed) (hx : buildForest f (.start f s) = .ok trees w) :
    Guarded trees w := by
  simp only [buildForest, bind_eq_ok] at hx
  obtain ⟨_, w₁, hargs, _, w₂, hphis, _, w₃, hlabels, hblocks⟩ := hx
  obtain ⟨hdeclaring, hall⟩ := declarePhis_declares (defineArguments_declares hargs) hphis
  obtain ⟨hw₂, hdeclared, hinst⟩ := hdeclaring.builds hall
  have hstart := createLabels_planted hw₂ hdeclared hinst hlabels
  have hnone : ∀ k o, (w₃.forest.node k).op ≠ .inst o := by
    intro k o hop
    obtain ⟨b, roots, hb, -⟩ := hstart.all k (Forest.lt_size_of_op hop NodeOp.noConfusion) o hop
    exact absurd hb (by simp)
  have hdone := mapM_induct (P := fun trees t ↦ Planted f trees t ∧ Guarded trees t) hblocks
    ⟨hstart, guarded_nil hnone⟩ fun b x hb trees t roots t' hlength ht hstep ↦ ?_
  · exact hdone.2
  · obtain ⟨hlt, rfl⟩ := List.getElem?_eq_some_iff.mp hb
    rw [List.getElem_range, ← hlength] at hstep
    rw [List.length_range, ← hlength] at hlt
    exact ⟨ht.1.grow hstep, ht.2.grow hwell hlt ht.1 hstep⟩

end TreeCover
