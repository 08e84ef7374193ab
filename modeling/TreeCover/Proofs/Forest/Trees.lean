import TreeCover.Proofs.Forest.Attach

/-!
# The trees of a block

What building the instructions of a block adds: for each instruction one root, in order, and before a
terminator one root for each phi of each successor. Roots are in the order in which they were made,
the last one stands for an instruction, and every new node that does so is a root.
-/

namespace TreeCover

open Ir Machine Work

variable {f : Func} {w w' w'' u w₁ w₂ : Workspace} {g : Forest} {k c p s : NodeId} {b : BlockId}
  {id : InstId} {i : ResolvedInst} {kids roots : List NodeId} {n : Node}

/-! ## Instructions -/

namespace Workspace

/-- Work on the forest of `f`. -/
structure BuildsTo (f : Func) (w w' : Workspace) : Prop where
  building : w'.Building f
  grows : w.Grows w'

theorem BuildsTo.refl (h : w.Building f) : w.BuildsTo f w := ⟨h, .refl w⟩

theorem BuildsTo.trans (h : w.BuildsTo f w') (h' : w'.BuildsTo f w'') : w.BuildsTo f w'' :=
  ⟨h'.building, h.grows.trans h'.grows⟩

theorem AddsLeaves.buildsTo (h : w.AddsLeaves f w') : w.BuildsTo f w' := ⟨h.building, h.grows⟩

end Workspace

theorem Forest.uses_finish (g : Forest) : Uses g (g.finish f id i k) := by
  rw [finish]
  split <;> split
  · exact (g.uses_logAccess .read k).trans (uses_markEscaping _ k)
  · exact g.uses_markEscaping k
  · exact g.uses_logAccess .read k
  · exact .refl g

theorem Forest.escapes_finish (hk : k < g.size) (ht : (g.node k).target = none)
    (h : f.escapes id = true) : ((g.finish f id i k).node k).escapes = true := by
  have hmark : ∀ {g : Forest}, k < g.size → (g.node k).target = none →
      ((g.markEscaping k).node k).escapes = true := by
    intro g hk ht
    rw [markEscaping, owner_of_target ht, node_update_self g _ hk]
  rw [finish, if_pos h]
  split
  · have huses := g.uses_logAccess .read k
    exact hmark (huses.size_eq ▸ hk) ((Node.target_of_core (huses.core_eq k)).trans ht)
  · exact hmark hk ht

/-- The children of a new instruction are used. -/
theorem Attached.used (h : Attached f b id i kids w w') (hw : w.Building f)
    (hkids : ∀ c ∈ kids, c < w.forest.size ∧ 0 < w.forest.refs c) (hgrows : w'.Grows w'')
    (hflat : w''.forest.Flat) (hc : c ∈ kids ∨ w.forest.size < c ∧ c < w'.forest.size) :
    0 < w''.forest.refs c := by
  rcases hc with hc | ⟨hlt, hc⟩
  · exact (h.grows.trans hgrows).refs hw hflat (hkids c hc).1 (hkids c hc).2
  · obtain ⟨hglue, hrefs⟩ := h.glue c hlt hc
    have ht : (w''.forest.node c).target = none := by
      refine (hgrows.forest.target hc).trans ?_
      rcases hglue with hpad | hargs
      · exact Node.target_of_core hpad.2
      · exact Node.target_of_core hargs.2
    rw [Forest.refs, Forest.owner_of_target ht]
    exact Nat.lt_of_lt_of_le hrefs (hgrows.forest.refs c hc)

/-- A new instruction is a part of what has been built once it has its children. -/
theorem Attached.builds (h : Attached f b id i kids w w₁) (hw : w.Building f)
    (hi : (id, i) ∈ f.blockInsts b) (hphi : i.operation.isPhi = false)
    (hkids : ∀ c ∈ kids, (∃ p, w.Denotes f p c) ∧ 0 < w.forest.refs c) (hdefs : u.defs = w₁.defs)
    (hcode : u.code = w₁.code) (hforest : u.forest = w₁.forest.finish f id i w.forest.size) :
    w.BuildsTo f u ∧ (∃ kids', u.Is w.forest.size (.ofInst b id i kids')) ∧
      ∀ k, w.forest.size < k → k < u.forest.size → ∀ o, (u.forest.node k).op ≠ .inst o := by
  have huses : w₁.forest.Uses u.forest := hforest ▸ w₁.forest.uses_finish
  have hgrows₁ : w₁.Grows u :=
    ⟨huses.toGrows, .of_eq hcode, by rw [hdefs], fun _ _ hk ↦ by rwa [hdefs]⟩
  have hgrows := h.grows.trans hgrows₁
  have hsize := huses.size_eq
  obtain ⟨kids', his, hhas, hmem⟩ := h.inst
  have hglue : ∀ k, w.forest.size < k → k < u.forest.size →
      (u.Is k .pad ∨ u.Is k (.ofArgs kids)) ∧ 0 < (u.forest.node k).refs := by
    intro k hlt hk
    obtain ⟨hcore, hrefs⟩ := h.glue k hlt (hsize ▸ hk)
    exact ⟨hcore.imp (·.grows hgrows₁) (·.grows hgrows₁),
      Nat.lt_of_lt_of_le hrefs (hgrows₁.forest.refs k (hsize ▸ hk))⟩
  have hshape : ∀ k, w.forest.size ≤ k → k < u.forest.size → u.Shape f k := by
    intro k hle hlt
    rcases Nat.eq_or_lt_of_le hle with rfl | hk
    · exact .inst hi hphi (his.grows hgrows₁) (hhas.grows hgrows₁)
    · rcases (hglue k hk hlt).1 with hpad | hargs
      · exact .pad hpad
      · refine .args hargs fun j hj ↦ ?_
        obtain ⟨⟨p, hp⟩, -⟩ := hkids j hj
        exact ⟨Nat.lt_of_le_of_lt hp.lt hk, p, hp.grows hgrows⟩
  have hop : ∀ k, w.forest.size < k → k < u.forest.size → ∀ o, (u.forest.node k).op ≠ .inst o := by
    intro k hk hlt o ho
    rcases (hglue k hk hlt).1 with hpad | hargs
    · exact absurd ((Node.op_of_core hpad.2).symm.trans ho) NodeOp.noConfusion
    · exact absurd ((Node.op_of_core hargs.2).symm.trans ho) NodeOp.noConfusion
  refine ⟨⟨hw.extend hgrows hshape (fun hflat k hle hlt ↦ ?_) (fun _ _ hk ↦ Or.inl ?_)
    fun _ _ hk ↦ Or.inl ?_, hgrows⟩, ⟨kids', his.grows hgrows₁⟩, hop⟩
  · have hkids' := fun c hc ↦ (hkids c hc).imp_left fun ⟨_, hp⟩ ↦ hp.lt
    have hused := fun c hc ↦ h.used hw hkids' hgrows₁ hflat (c := c) hc
    refine ⟨hshape k hle hlt, ?_, fun hmove ↦ ?_, fun id' hid _ hescapes ↦ ?_⟩ <;>
      rcases Nat.eq_or_lt_of_le hle with rfl | hk
    · intro c hc
      rw [Node.kids_of_core (his.grows hgrows₁).2] at hc
      exact hused c ((hmem c hc).imp_right fun hlt ↦ ⟨hlt, hhas.lt hc⟩)
    · intro c hc
      rcases (hglue k hk hlt).1 with hpad | hargs
      · rw [Node.kids_of_core hpad.2] at hc
        exact absurd hc List.not_mem_nil
      · rw [Node.kids_of_core hargs.2] at hc
        exact hused c (Or.inl hc)
    · exact absurd ((Node.op_of_core (his.grows hgrows₁).2).symm.trans hmove) NodeOp.noConfusion
    · rcases (hglue k hk hlt).1 with hpad | hargs
      · exact absurd ((Node.op_of_core hpad.2).symm.trans hmove) NodeOp.noConfusion
      · exact absurd ((Node.op_of_core hargs.2).symm.trans hmove) NodeOp.noConfusion
    · have hid' := (Node.source_of_core (his.grows hgrows₁).2).symm.trans hid.2.2
      obtain rfl : id = id' := Option.some.inj hid'
      rw [hforest]
      exact Forest.escapes_finish his.1 (Node.target_of_core his.2) hescapes
    · obtain ⟨o, ho⟩ := hid.2.1
      exact absurd ho (hop k hk hlt o)
  · rwa [hdefs, h.defs] at hk
  · rwa [hdefs, h.defs] at hk

/-! ## Roots -/

/-- The roots of block `b` that were made from `w` to `w'`. -/
structure Roots (b : BlockId) (w w' : Workspace) (roots : List NodeId) : Prop where
  sorted : roots.Pairwise (· < ·)
  lower : ∀ r ∈ roots, w.forest.size ≤ r
  upper : ∀ r ∈ roots, r < w'.forest.size
  block : ∀ r ∈ roots, (w'.forest.node r).block = some b
  op : ∀ r ∈ roots, (w'.forest.node r).op = .phiMove ∨ ∃ o, (w'.forest.node r).op = .inst o
  all : ∀ k, w.forest.size ≤ k → k < w'.forest.size → ∀ o, (w'.forest.node k).op = .inst o →
    k ∈ roots

namespace Roots

theorem nil (h : w.AddsLeaves f w') : Roots b w w' [] where
  sorted := .nil
  lower _ hr := absurd hr List.not_mem_nil
  upper _ hr := absurd hr List.not_mem_nil
  block _ hr := absurd hr List.not_mem_nil
  op _ hr := absurd hr List.not_mem_nil
  all k hle hlt o ho := absurd ho (h.leaves k hle hlt o)

theorem append {roots' : List NodeId} (h : Roots b w w' roots) (h' : Roots b w' w'' roots')
    (hgrows : w.Grows w') (hgrows' : w'.Grows w'') : Roots b w w'' (roots ++ roots') where
  sorted := List.pairwise_append.mpr ⟨h.sorted, h'.sorted, fun r hr r' hr' ↦
    Nat.lt_of_lt_of_le (h.upper r hr) (h'.lower r' hr')⟩
  lower r hr := (List.mem_append.mp hr).elim (h.lower r)
    fun hr ↦ Nat.le_trans hgrows.forest.size (h'.lower r hr)
  upper r hr := (List.mem_append.mp hr).elim
    (fun hr ↦ Nat.lt_of_lt_of_le (h.upper r hr) hgrows'.forest.size) (h'.upper r)
  block r hr := by
    rcases List.mem_append.mp hr with hr | hr
    · exact (Node.block_of_core (hgrows'.forest.core r (h.upper r hr))).trans (h.block r hr)
    · exact h'.block r hr
  op r hr := by
    rcases List.mem_append.mp hr with hr | hr
    · have hop := Node.op_of_core (hgrows'.forest.core r (h.upper r hr))
      exact (h.op r hr).imp hop.trans fun ⟨o, ho⟩ ↦ ⟨o, hop.trans ho⟩
    · exact h'.op r hr
  all k hle hlt o ho := by
    by_cases hk : k < w'.forest.size
    · have hop := Node.op_of_core (hgrows'.forest.core k hk)
      exact List.mem_append_left _ (h.all k hle hk o (hop.symm.trans ho))
    · exact List.mem_append_right _ (h'.all k (Nat.le_of_not_lt hk) hlt o ho)

/-- Leaves that are made before roots change nothing. -/
theorem after (h : Roots b w' w'' roots) (hw : w.AddsLeaves f w') (hgrows : w'.Grows w'') :
    Roots b w w'' roots :=
  List.nil_append roots ▸ (Roots.nil hw).append h hw.grows hgrows

/-- Uses change nothing about roots. -/
theorem before (h : Roots b w w' roots) (hgrows : w.Grows w') (hw' : w'.AddsLeaves f w'') :
    Roots b w w'' roots :=
  List.append_nil roots ▸ h.append (.nil hw') hgrows hw'.grows

end Roots

namespace Roots

theorem single {r : NodeId} (his : w'.Is r n) (hle : w.forest.size ≤ r)
    (hblock : n.block = some b) (hop : n.op = .phiMove ∨ ∃ o, n.op = .inst o)
    (hall : ∀ k, w.forest.size ≤ k → k < w'.forest.size → ∀ o, (w'.forest.node k).op = .inst o →
      k = r) : Roots b w w' [r] where
  sorted := List.pairwise_singleton _ _
  lower := List.forall_mem_singleton.mpr hle
  upper := List.forall_mem_singleton.mpr his.1
  block := List.forall_mem_singleton.mpr ((Node.block_of_core his.2).trans hblock)
  op := by
    have hcore := Node.op_of_core his.2
    exact List.forall_mem_singleton.mpr (hop.imp hcore.trans fun ⟨o, ho⟩ ↦ ⟨o, hcore.trans ho⟩)
  all k hle hlt o ho := List.mem_singleton.mpr (hall k hle hlt o ho)

end Roots

/-! ## Building roots -/

theorem buildInst_builds (hw : w.Building f) (hi : (id, i) ∈ f.blockInsts b)
    (hphi : i.operation.isPhi = false) (hx : buildInst f b id i w = .ok k w') :
    w.BuildsTo f w' ∧ Roots b w w' [k] ∧ ∃ kids, w'.Is k (.ofInst b id i kids) := by
  obtain ⟨kids, w₁, w₂, hplaces, rfl, hattach, rfl⟩ := buildInst_ok hx
  obtain ⟨hadds, hkids, hrefs⟩ := places_builds hw hplaces
  rw [List.zipIdx_map_fst] at hkids
  obtain ⟨hbuilds, ⟨kids', his⟩, hglue⟩ := (attach_ok hkids hattach).builds hadds.building hi hphi
    (fun c hc ↦ ⟨Workspace.Denotes.of_mem hkids hc, hrefs c hc⟩)
    (u := { w₂ with forest := w₂.forest.finish f id i w₁.forest.size }) rfl rfl rfl
  refine ⟨hadds.buildsTo.trans hbuilds, .after ?_ hadds hbuilds.grows, kids', his⟩
  refine .single his (Nat.le_refl _) rfl (Or.inr ⟨_, rfl⟩) fun k hle hlt o ho ↦ ?_
  rcases Nat.eq_or_lt_of_le hle with rfl | hk
  · rfl
  · exact absurd ho (hglue k hk hlt o)

/-- The node of a phi in its block has no children, and nothing is asked of its use. -/
theorem push_phiUse (hw : w.Building f) (hforest : w'.forest = (w.forest.push n).2)
    (hdefs : w'.defs = w.defs) (hcode : w'.code = w.code)
    (hcore : n.core = .ofPhiUse b id i (w.defs.phis.lookup id))
    (hi : (id, i) ∈ f.blockInsts b) (hphi : i.operation.isPhi = true) :
    w.BuildsTo f w' ∧ Roots b w w' [w.forest.size] ∧
      w'.Is w.forest.size (.ofPhiUse b id i (w.defs.phis.lookup id)) := by
  have hgrows : w.Grows w' :=
    ⟨hforest ▸ w.forest.grows_push n, .of_eq hcode, by rw [hdefs], fun _ _ h ↦ by rwa [hdefs]⟩
  have hself : w'.forest.node w.forest.size = n := by
    rw [hforest]
    exact w.forest.node_push_self n
  have hsize : w'.forest.size = w.forest.size + 1 := by rw [hforest, Forest.size_push]
  have his : w'.Is w.forest.size (.ofPhiUse b id i (w.defs.phis.lookup id)) :=
    ⟨hsize ▸ Nat.lt_succ_self _, by rw [hself, hcore]⟩
  have hshape : w'.Shape f w.forest.size := by
    refine .phiUse hi hphi his (by rw [hdefs]) fun t ht ↦ ?_
    obtain ⟨b', i', v, ht'⟩ := hw.phis id t ht
    exact ⟨ht'.1, b', i', v, ht'.grows hgrows⟩
  refine ⟨⟨hw.extendOne hgrows hsize hdefs hshape fun _ ↦ ⟨hshape, fun c hc ↦ ?_, fun hop ↦ ?_,
    fun id' _ hop ↦ ?_⟩, hgrows⟩, .single his (Nat.le_refl _) rfl (Or.inr ⟨_, rfl⟩)
      fun k hle hlt _ _ ↦ ?_, his⟩
  · rw [Node.kids_of_core his.2] at hc
    exact absurd hc List.not_mem_nil
  · exact absurd ((Node.op_of_core his.2).symm.trans hop) NodeOp.noConfusion
  · exact absurd (Node.op_of_core his.2) hop
  · rw [hsize] at hlt
    exact Nat.le_antisymm (Nat.le_of_lt_succ hlt) hle

theorem buildPhi_builds (hw : w.Building f) (hi : (id, i) ∈ f.blockInsts b)
    (hphi : i.operation.isPhi = true) (hx : buildPhi b id i w = .ok k w') :
    w.BuildsTo f w' ∧ Roots b w w' [k] ∧
      w'.Is k (.ofPhiUse b id i (w.defs.phis.lookup id)) := by
  simp only [buildPhi, push, bind_eq_ok, get_eq_ok, modifyGet_eq_ok] at hx
  obtain ⟨_, _, ⟨rfl, rfl⟩, rfl, rfl⟩ := hx
  exact push_phiUse hw rfl rfl rfl rfl hi hphi

/-- The node of a copy into a phi, which nothing ever uses. -/
theorem push_phiMove {b succ : BlockId} {phi kid : NodeId} {value : Ir.Operand Value} {idx : Nat}
    (hw : w.Building f) (hforest : u.forest = (w.forest.push n).2.addChild w.forest.size kid)
    (hdefs : u.defs = w.defs) (hcode : u.code = w.code) (hrefs : n.refs = 0)
    (hcore : { n with kids := n.kids ++ [kid] }.core = .ofPhiMove b succ id i phi kid)
    (hi : (id, i) ∈ f.blockPhis succ)
    (hvalue : i.operation.incoming.zipIdx.find? (·.1.2 == b) = some ((value, b), idx))
    (hphi : w.defs.phis.lookup id = some phi) (hkid : w.Denotes f (.operand value) kid)
    (hkidRefs : 0 < w.forest.refs kid) :
    w.BuildsTo f u ∧ Roots b w u [w.forest.size] ∧
      u.Is w.forest.size (.ofPhiMove b succ id i phi kid) := by
  have hpushed : (w.forest.push n).2.size = w.forest.size + 1 := w.forest.size_push n
  have hgrows : w.Grows u := by
    refine ⟨?_, .of_eq hcode, by rw [hdefs], fun _ _ h ↦ by rwa [hdefs]⟩
    rw [hforest]
    exact (w.forest.grows_push n).update (Nat.le_refl _) _
  have hsize : u.forest.size = w.forest.size + 1 := by
    rw [hforest, Forest.size_addChild, hpushed]
  obtain ⟨level, hself⟩ : ∃ level, u.forest.node w.forest.size =
      { n with kids := n.kids ++ [kid], level } := by
    rw [hforest]
    obtain ⟨level, hnode⟩ := (w.forest.push n).2.node_addChild kid
      (p := w.forest.size) (hpushed ▸ Nat.lt_succ_self _)
    exact ⟨level, by rw [hnode, Forest.node_push_self]⟩
  have his : u.Is w.forest.size (.ofPhiMove b succ id i phi kid) :=
    ⟨hsize ▸ Nat.lt_succ_self _, by rw [hself, ← hcore]; rfl⟩
  have hshape : u.Shape f w.forest.size :=
    .phiMove hi hvalue (hdefs ▸ hphi) his (hkid.grows hgrows) hkid.lt
  refine ⟨⟨hw.extendOne hgrows hsize hdefs hshape fun hflat ↦ ⟨hshape, fun c hc ↦ ?_, fun _ ↦ ?_,
    fun id' ⟨_, ⟨o, ho⟩, _⟩ ↦ ?_⟩, hgrows⟩, .single his (Nat.le_refl _) rfl (Or.inl rfl)
      fun k hle hlt _ _ ↦ ?_, his⟩
  · rw [Node.kids_of_core his.2] at hc
    rw [List.mem_singleton.mp hc]
    exact hgrows.refs hw hflat hkid.lt hkidRefs
  · rw [hself]
    exact hrefs
  · exact absurd ((Node.op_of_core his.2).symm.trans ho) NodeOp.noConfusion
  · rw [hsize] at hlt
    exact Nat.le_antisymm (Nat.le_of_lt_succ hlt) hle

theorem buildPhiMove_builds {b succ : BlockId} {m : Option NodeId} (hw : w.Building f)
    (hi : (id, i) ∈ f.blockPhis succ) (hx : buildPhiMove f b succ id i w = .ok m w') :
    w.BuildsTo f w' ∧ Roots b w w' m.toList ∧
      (∀ k ∈ m, ∃ phi kid, w'.Is k (.ofPhiMove b succ id i phi kid)) ∧
      ((w.defs.phis.lookup id).isSome → m.isSome) := by
  rw [buildPhiMove] at hx
  cases hfind : i.operation.incoming.zipIdx.find? (·.1.2 == b) with
  | none =>
    rw [hfind] at hx
    exact absurd hx throw_ne_ok
  | some found =>
    obtain ⟨⟨value, pred⟩, idx⟩ := found
    obtain rfl : pred = b := by simpa using List.find?_some hfind
    simp only [hfind, bind_eq_ok, get_eq_ok] at hx
    obtain ⟨_, _, ⟨rfl, rfl⟩, hx⟩ := hx
    rename Workspace => w
    cases hphi : w.defs.phis.lookup id with
    | none =>
      simp only [hphi, pure_eq_ok] at hx
      obtain ⟨rfl, rfl⟩ := hx
      exact ⟨.refl hw, .nil (.refl hw), fun k hk ↦ absurd hk (by simp), fun h ↦ h⟩
    | some phi =>
      simp only [hphi, modifyForest, push, bind_eq_ok, modifyGet_eq_ok, modify_eq_ok,
        pure_eq_ok] at hx
      obtain ⟨kid, w₁, hkid, _, _, ⟨rfl, rfl⟩, _, _, rfl, rfl, rfl⟩ := hx
      obtain ⟨hadds, hdenotes, hrefs⟩ := operand_builds hw hkid
      obtain ⟨hbuilds, hroots, his⟩ := push_phiMove (n :=
        { op := .phiMove, width := i.ty.bits, phiTarget := some (phi, succ), block := some pred
          source := some id }) (u := { w₁ with forest := _ }) hadds.building rfl rfl rfl rfl rfl hi
        hfind (hadds.grows.phis ▸ hphi) hdenotes hrefs
      refine ⟨hadds.buildsTo.trans hbuilds, hroots.after hadds hbuilds.grows, ?_, fun _ ↦ rfl⟩
      rintro k hk
      obtain rfl := Option.some.inj hk
      exact ⟨phi, kid, his⟩

/-- The blocks that block `b` may go on to. -/
def Ir.Func.succsOf (f : Func) (b : BlockId) : List BlockId := (f.blocks[b]?.map (·.succs)).getD []

/-- What block `b` hands on: the phis of each block that it may go on to, in order. -/
def Ir.Func.phiEdges (f : Func) (b : BlockId) : List (BlockId × InstId × ResolvedInst) :=
  (f.succsOf b).flatMap fun succ ↦ (f.blockPhis succ).map fun x ↦ (succ, x)

theorem Ir.Func.mem_phiEdges {e : BlockId × InstId × ResolvedInst} :
    e ∈ f.phiEdges b ↔ e.1 ∈ f.succsOf b ∧ e.2 ∈ f.blockPhis e.1 := by
  simp only [phiEdges, List.mem_flatMap, List.mem_map]
  constructor
  · rintro ⟨succ, hsucc, x, hx, rfl⟩
    exact ⟨hsucc, hx⟩
  · exact fun ⟨hsucc, hx⟩ ↦ ⟨e.1, hsucc, e.2, hx, rfl⟩

/-- The node `r` is the copy that block `b` makes into a phi. -/
def IsCopy (b : BlockId) (w : Workspace) (r : NodeId) (e : BlockId × InstId × ResolvedInst) : Prop :=
  ∃ phi kid, w.Is r (.ofPhiMove b e.1 e.2.1 e.2.2 phi kid)

theorem IsCopy.grows {e : BlockId × InstId × ResolvedInst} (h : IsCopy b w k e)
    (hgrows : w.Grows w') : IsCopy b w' k e := by
  obtain ⟨phi, kid, his⟩ := h
  exact ⟨phi, kid, his.grows hgrows⟩

/-- The copies for some edges out of block `b`, in order. -/
theorem edgeMoves_builds {edges : List (BlockId × InstId × ResolvedInst)}
    {moves : List (Option NodeId)} (hw : w.Building f) (hedges : ∀ e ∈ edges, e.2 ∈ f.blockPhis e.1)
    (hx : (edges.mapM fun (succ, phi, i) ↦ buildPhiMove f b succ phi i :
      Work (List (Option NodeId))) w = .ok moves w') :
    w.BuildsTo f w' ∧ Roots b w w' (moves.filterMap fun m ↦ m) ∧
      (∀ r ∈ moves.filterMap fun m ↦ m, (w'.forest.node r).op = .phiMove) ∧
      ((∀ e ∈ edges, (w.defs.phis.lookup e.2.1).isSome) →
        List.Forall₂ (IsCopy b w') (moves.filterMap fun m ↦ m) edges) := by
  induction edges generalizing w moves with
  | nil =>
    obtain ⟨rfl, rfl⟩ := mapM_nil_eq_ok.mp hx
    exact ⟨.refl hw, .nil (.refl hw), fun r hr ↦ absurd hr List.not_mem_nil, fun _ ↦ .nil⟩
  | cons e edges ih =>
    obtain ⟨m, w₁, ms, hm, hms, rfl⟩ := mapM_cons_eq_ok.mp hx
    obtain ⟨hi, hrest⟩ := List.forall_mem_cons.mp hedges
    obtain ⟨hbuilds, hroots, his, hsome⟩ := buildPhiMove_builds hw hi hm
    obtain ⟨hbuilds', hroots', hop, hmoves⟩ := ih hbuilds.building hrest hms
    have hcons : (m :: ms).filterMap (fun m ↦ m) = m.toList ++ ms.filterMap fun m ↦ m := by
      cases m <;> rfl
    rw [hcons]
    refine ⟨hbuilds.trans hbuilds', hroots.append hroots' hbuilds.grows hbuilds'.grows,
      fun r hr ↦ ?_, fun hall ↦ ?_⟩
    · rcases List.mem_append.mp hr with hr | hr
      · obtain ⟨phi, kid, hk⟩ := his r (Option.mem_toList.mp hr)
        exact Node.op_of_core (hk.grows hbuilds'.grows).2
      · exact hop r hr
    · obtain ⟨hphi, hall⟩ := List.forall_mem_cons.mp hall
      obtain ⟨k, rfl⟩ := Option.isSome_iff_exists.mp (hsome hphi)
      have hcopy : IsCopy b w₁ k e := his k rfl
      exact .cons (hcopy.grows hbuilds'.grows) (hmoves (by rwa [hbuilds.grows.phis]))

/-- Before a terminator come the copies into the phis of all successors. -/
theorem buildPhiMoves_builds {moves : List NodeId} (hw : w.Building f)
    (hx : buildPhiMoves f b w = .ok moves w') :
    w.BuildsTo f w' ∧ Roots b w w' moves ∧ (∀ r ∈ moves, (w'.forest.node r).op = .phiMove) ∧
      ((∀ e ∈ f.phiEdges b, (w.defs.phis.lookup e.2.1).isSome) →
        List.Forall₂ (IsCopy b w') moves (f.phiEdges b)) := by
  simp only [buildPhiMoves, bind_eq_ok, pure_eq_ok] at hx
  obtain ⟨moves', _, hmoves, rfl, rfl⟩ := hx
  exact edgeMoves_builds hw (fun e he ↦ (Func.mem_phiEdges.mp he).2) hmoves

/-- Guarding reads only logs accesses. -/
theorem guardReads_adds (hw : w.Building f) {u : Unit} (hx : guardReads roots w = .ok u w') :
    w.AddsLeaves f w' := by
  refine forM_induct (P := fun t ↦ w.AddsLeaves f t) hx (.refl hw) fun r _ t _ t' ht hr ↦ ?_
  obtain rfl := modify_eq_ok.mp hr
  refine ht.trans (ht.building.use ?_ rfl rfl)
  change t.forest.Uses (if t.forest.readsMemory r then t.forest.logAccess .write r else t.forest)
  split
  · exact t.forest.uses_logAccess .write r
  · exact .refl _

/-! ## The trees of a block -/

/-- The roots of some instructions of block `b`, from `w` to `w'`. -/
structure Trees (f : Func) (b : BlockId) (w w' : Workspace) (roots : List NodeId)
    (is : List (InstId × ResolvedInst)) : Prop where
  made : Roots b w w' roots
  results : List.Forall₂ (fun r x ↦ w'.Results x.1 r)
    (roots.filter fun r ↦ (w'.forest.node r).opcode?.isSome) is
  copies : (∀ e ∈ f.phiEdges b, (w.defs.phis.lookup e.2.1).isSome) →
    List.Forall₂ (IsCopy b w') (roots.filter fun r ↦ (w'.forest.node r).op = .phiMove)
      ((is.filter fun x ↦ x.2.opcode.isTerminator).flatMap fun _ ↦ f.phiEdges b)
  last : ∀ r ∈ roots, ∃ r' ∈ roots, r ≤ r' ∧ ∃ o, (w'.forest.node r').op = .inst o

theorem Trees.append {roots' : List NodeId} {is is' : List (InstId × ResolvedInst)}
    (h : Trees f b w w' roots is) (h' : Trees f b w' w'' roots' is') (hgrows : w.Grows w')
    (hgrows' : w'.Grows w'') : Trees f b w w'' (roots ++ roots') (is ++ is') where
  made := h.made.append h'.made hgrows hgrows'
  results := by
    rw [List.filter_append]
    refine List.rel_append ?_ h'.results
    have hfilter : roots.filter (fun r ↦ (w''.forest.node r).opcode?.isSome)
        = roots.filter fun r ↦ (w'.forest.node r).opcode?.isSome := by
      refine List.filter_congr fun r hr ↦ ?_
      rw [Node.opcode?, Node.opcode?,
        Node.op_of_core (hgrows'.forest.core r (h.made.upper r hr))]
      rfl
    rw [hfilter]
    exact h.results.imp fun r x hr ↦ hr.grows hgrows'
  copies hall := by
    rw [List.filter_append, List.filter_append, List.flatMap_append]
    refine List.rel_append ?_ (h'.copies (by rwa [hgrows.phis]))
    have hfilter : roots.filter (fun r ↦ (w''.forest.node r).op = .phiMove)
        = roots.filter fun r ↦ (w'.forest.node r).op = .phiMove := by
      refine List.filter_congr fun r hr ↦ ?_
      rw [Node.op_of_core (hgrows'.forest.core r (h.made.upper r hr))]
      rfl
    rw [hfilter]
    exact (h.copies hall).imp fun r e hr ↦ hr.grows hgrows'
  last r hr := by
    rcases List.mem_append.mp hr with hr | hr
    · obtain ⟨r', hr', hle, o, ho⟩ := h.last r hr
      exact ⟨r', List.mem_append_left _ hr', hle, o,
        (Node.op_of_core (hgrows'.forest.core r' (h.made.upper r' hr'))).trans ho⟩
    · obtain ⟨r', hr', hlast⟩ := h'.last r hr
      exact ⟨r', List.mem_append_right _ hr', hlast⟩

/-- The work on an instruction that is no phi. -/
theorem buildStep_inst {roots' : List NodeId} (hphi : i.operation.isPhi = false)
    (hx : buildStep f b roots id i w = .ok roots' w') :
    ∃ moves w₁ k w₂ w₃,
      (if i.opcode.isTerminator then buildPhiMoves f b else pure []) w = .ok moves w₁ ∧
      buildInst f b id i w₁ = .ok k w₂ ∧
      (if i.opcode.writesMemory then guardReads roots else pure ()) w₂ = .ok () w₃ ∧
      w' = { w₃ with defs := { w₃.defs with values := (.inst id, k) :: w₃.defs.values } } ∧
      roots' = roots ++ moves ++ [k] := by
  have heq : buildStep f b roots id i =
      (if i.opcode.isTerminator then buildPhiMoves f b else pure []) >>= fun moves ↦
        buildInst f b id i >>= fun n ↦
          (if i.opcode.writesMemory then guardReads roots else pure ()) >>= fun _ ↦
            defineValue (.inst id) n >>= fun _ ↦ pure (roots ++ moves ++ [n]) := by
    simp only [buildStep, hphi, Bool.false_eq_true, if_false]
    by_cases hterm : i.opcode.isTerminator = true <;>
      by_cases hwrites : i.opcode.writesMemory = true <;>
      simp only [hterm, hwrites, if_true, Bool.false_eq_true, if_false, pure_bind]
  rw [heq] at hx
  simp only [bind_eq_ok, pure_eq_ok, defineValue, modifyDefs, modify_eq_ok] at hx
  obtain ⟨moves, w₁, hmoves, k, w₂, hk, _, w₃, hguard, _, _, rfl, rfl, rfl⟩ := hx
  exact ⟨moves, w₁, k, w₂, w₃, hmoves, hk, hguard, rfl, rfl⟩

theorem Workspace.Is.results {o : Opcode} (h : w.Is k n) (hop : n.op = .inst o)
    (hsource : n.source = some id) : w.Results id k :=
  ⟨h.1, ⟨o, (Node.op_of_core h.2).trans hop⟩, (Node.source_of_core h.2).trans hsource⟩

/-- The root of an instruction, and the copies before it, once the root has a name. -/
theorem Trees.single (moves : List NodeId) (hmade : Roots b w w' (moves ++ [k]))
    (hop : ∀ r ∈ moves, (w'.forest.node r).op = .phiMove) (hk : w'.Results id k)
    (hcopies : (∀ e ∈ f.phiEdges b, (w.defs.phis.lookup e.2.1).isSome) →
      List.Forall₂ (IsCopy b w') moves (if i.opcode.isTerminator then f.phiEdges b else [])) :
    Trees f b w w' (moves ++ [k]) [(id, i)] where
  made := hmade
  results := by
    have hnone : moves.filter (fun r ↦ (w'.forest.node r).opcode?.isSome) = [] := by
      refine List.filter_eq_nil_iff.mpr fun r hr ↦ ?_
      rw [Node.opcode?, hop r hr]
      exact Bool.false_ne_true
    have hsome : [k].filter (fun r ↦ (w'.forest.node r).opcode?.isSome) = [k] := by
      obtain ⟨o, ho⟩ := hk.2.1
      exact List.filter_eq_self.mpr (List.forall_mem_singleton.mpr (by rw [Node.opcode?, ho]; rfl))
    rw [List.filter_append, hnone, hsome]
    exact .cons hk .nil
  copies hall := by
    have hsome : moves.filter (fun r ↦ (w'.forest.node r).op = .phiMove) = moves :=
      List.filter_eq_self.mpr fun r hr ↦ decide_eq_true (hop r hr)
    have hnone : [k].filter (fun r ↦ (w'.forest.node r).op = .phiMove) = [] := by
      obtain ⟨o, ho⟩ := hk.2.1
      exact List.filter_eq_nil_iff.mpr (List.forall_mem_singleton.mpr (by simp [ho]))
    rw [List.filter_append, hsome, hnone, List.append_nil]
    cases hterm : i.opcode.isTerminator <;> simpa [hterm] using hcopies hall
  last r hr := by
    refine ⟨k, by simp, ?_, hk.2.1⟩
    rcases List.mem_append.mp hr with hr | hr
    · exact Nat.le_of_lt ((List.pairwise_append.mp hmade.sorted).2.2 r hr k (List.mem_singleton_self k))
    · exact Nat.le_of_eq (List.mem_singleton.mp hr)

theorem Trees.nil (h : w.AddsLeaves f w') : Trees f b w w' [] [] :=
  ⟨.nil h, .nil, fun _ ↦ .nil, fun _ hr ↦ absurd hr List.not_mem_nil⟩

/-- One instruction. -/
theorem buildStep_builds {roots' : List NodeId} (hw : w.Building f)
    (hi : (id, i) ∈ f.blockInsts b) (hx : buildStep f b roots id i w = .ok roots' w') :
    ∃ new, roots' = roots ++ new ∧ w.BuildsTo f w' ∧ Trees f b w w' new [(id, i)] := by
  cases hphi : i.operation.isPhi with
  | true =>
    simp only [buildStep, hphi, if_true, defineValue, modifyDefs, bind_eq_ok, modify_eq_ok,
      pure_eq_ok] at hx
    obtain ⟨k, w₁, hk, _, _, rfl, rfl, rfl⟩ := hx
    obtain ⟨hbuilds, hroots, his⟩ := buildPhi_builds hw hi hphi hk
    have hresults := his.results rfl rfl
    have hname := hbuilds.building.nameValue (.inst hresults)
      (u := { w₁ with defs := { w₁.defs with values := (.inst id, k) :: w₁.defs.values } })
      rfl rfl rfl
    refine ⟨[k], rfl, hbuilds.trans hname.buildsTo, .single []
      (hroots.before hbuilds.grows hname) (fun r hr ↦ absurd hr List.not_mem_nil)
      (hresults.grows hname.grows) fun _ ↦ ?_⟩
    rw [if_neg]
    · exact .nil
    · intro hterm
      cases hop : i.operation with
      | phi incoming =>
        rw [Inst.opcode, hop] at hterm
        exact absurd hterm Bool.false_ne_true
      | _ =>
        rw [hop] at hphi
        exact absurd hphi Bool.false_ne_true
  | false =>
    obtain ⟨moves, w₁, k, w₂, w₃, hmoves, hk, hguard, rfl, rfl⟩ := buildStep_inst hphi hx
    obtain ⟨hbuilds₁, hroots₁, hop₁, hcopies⟩ : w.BuildsTo f w₁ ∧ Roots b w w₁ moves ∧
        (∀ r ∈ moves, (w₁.forest.node r).op = .phiMove) ∧
        ((∀ e ∈ f.phiEdges b, (w.defs.phis.lookup e.2.1).isSome) → List.Forall₂ (IsCopy b w₁) moves
          (if i.opcode.isTerminator then f.phiEdges b else [])) := by
      by_cases hterm : i.opcode.isTerminator = true
      · rw [if_pos hterm] at hmoves ⊢
        exact buildPhiMoves_builds hw hmoves
      · rw [if_neg hterm] at hmoves ⊢
        obtain ⟨rfl, rfl⟩ := pure_eq_ok.mp hmoves
        exact ⟨.refl hw, .nil (.refl hw), fun r hr ↦ absurd hr List.not_mem_nil, fun _ ↦ .nil⟩
    obtain ⟨hbuilds₂, hroots₂, kids, his⟩ := buildInst_builds hbuilds₁.building hi hphi hk
    have hadds₃ : w₂.AddsLeaves f w₃ := by
      by_cases hwrites : i.opcode.writesMemory = true
      · rw [if_pos hwrites] at hguard
        exact guardReads_adds hbuilds₂.building hguard
      · rw [if_neg hwrites] at hguard
        obtain ⟨-, rfl⟩ := pure_eq_ok.mp hguard
        exact .refl hbuilds₂.building
    have hresults := his.results rfl rfl
    have hname := hadds₃.building.nameValue (.inst (hresults.grows hadds₃.grows))
      (u := { w₃ with defs := { w₃.defs with values := (.inst id, k) :: w₃.defs.values } })
      rfl rfl rfl
    have hadds := hadds₃.trans hname
    have hgrows := hbuilds₂.grows.trans hadds.grows
    refine ⟨moves ++ [k], List.append_assoc _ _ _, hbuilds₁.trans (hbuilds₂.trans hadds.buildsTo),
      .single moves (hroots₁.append (hroots₂.before hbuilds₂.grows hadds) hbuilds₁.grows hgrows)
        (fun r hr ↦ ?_) (hresults.grows hadds.grows) fun hall ↦ ?_⟩
    · exact (Node.op_of_core (hgrows.forest.core r (hroots₁.upper r hr))).trans (hop₁ r hr)
    · exact (hcopies hall).imp fun r e hr ↦ hr.grows hgrows

/-- The instructions of a block, one after the other. -/
theorem buildSteps_builds {is : List (InstId × ResolvedInst)} {roots' : List NodeId}
    (hw : w.Building f) (his : ∀ x ∈ is, x ∈ f.blockInsts b)
    (hx : (is.foldlM (fun roots (id, i) ↦ buildStep f b roots id i) roots : Work (List NodeId)) w
      = .ok roots' w') :
    ∃ new, roots' = roots ++ new ∧ w.BuildsTo f w' ∧ Trees f b w w' new is := by
  induction is generalizing w roots with
  | nil =>
    obtain ⟨rfl, rfl⟩ := pure_eq_ok.mp hx
    exact ⟨[], (List.append_nil _).symm, .refl hw, .nil (.refl hw)⟩
  | cons x is ih =>
    rw [List.foldlM_cons] at hx
    obtain ⟨roots₁, w₁, hx, his'⟩ := bind_eq_ok.mp hx
    obtain ⟨hi, hrest⟩ := List.forall_mem_cons.mp his
    obtain ⟨new, rfl, hbuilds, htrees⟩ := buildStep_builds hw hi hx
    obtain ⟨new', rfl, hbuilds', htrees'⟩ := ih hbuilds.building hrest his'
    exact ⟨new ++ new', List.append_assoc _ _ _, hbuilds.trans hbuilds',
      htrees.append htrees' hbuilds.grows hbuilds'.grows⟩

/-- **Blocks.** What building a block adds is the roots of its instructions, in order. -/
theorem buildBlock_builds (hw : w.Building f) (hx : buildBlock f b w = .ok roots w') :
    w.BuildsTo f w' ∧ Trees f b w w' roots (f.blockInsts b) := by
  simp only [buildBlock, report, bind_eq_ok, modify_eq_ok, pure_eq_ok] at hx
  obtain ⟨roots, w₁, hsteps, _, _, rfl, rfl, rfl⟩ := hx
  obtain ⟨new, rfl, hbuilds, htrees⟩ := buildSteps_builds hw (fun _ h ↦ h) hsteps
  have hreport : ∀ session, w₁.AddsLeaves f { w₁ with session } :=
    fun _ ↦ hbuilds.building.use (.refl _) rfl rfl
  refine ⟨hbuilds.trans (hreport _).buildsTo, ?_⟩
  rw [← List.append_nil roots, ← List.append_nil (f.blockInsts b)]
  exact htrees.append (.nil (hreport _)) hbuilds.grows (hreport _).grows

end TreeCover
