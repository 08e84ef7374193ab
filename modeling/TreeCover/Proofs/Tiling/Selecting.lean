import TreeCover.Proofs.Ir.Dominance
import TreeCover.Proofs.Tiling.Supply

/-!
# What is ready when a root is visited

`Selecting` is the invariant of selection between two roots: what is known of the code and the forest
once some of the roots have been visited. In a function in static single assignment form it gives
that the tree under the next root is ready: an operand from the same block was built before the root,
and one from another block leaves its block, so it was emitted there when its turn came, and that
block dominates this one.
-/

namespace TreeCover

open Ir Machine Work

variable {f : Func} {trees : List (List NodeId)} {w₀ : Workspace} {rest : List NodeId}
  {c c' : Code} {g g' : Forest} {a b : BlockId} {j k r t : NodeId} {id d : InstId}
  {i : ResolvedInst} {n : Node} {o : Opcode} {u v : VReg} {p : Place Value BlockId}

/-! ## Nodes of a forest that was built -/

theorem Workspace.Is.eq {n' : Node} (h : w₀.Is k n) (h' : w₀.Is k n') : n = n' :=
  h.2.symm.trans h'.2

/-- What stands for an instruction is the node of a phi in its block, or has children for its
operands. -/
theorem Workspace.Shape.of_inst (h : w₀.Shape f k) (hop : (w₀.forest.node k).op = .inst o) :
    ∃ b id i, (id, i) ∈ f.blockInsts b ∧
      ((i.operation.isPhi = true ∧ ∃ target, w₀.Is k (.ofPhiUse b id i target) ∧
          target = w₀.defs.phis.lookup id ∧
          ∀ t, target = some t → ∃ b' i' v, w₀.Is t (.ofPhi b' id i' v)) ∨
        i.operation.isPhi = false ∧ ∃ kids, w₀.Is k (.ofInst b id i kids) ∧
          w₀.HasKids f k i.operation kids) := by
  have hne : ∀ {n : Node}, w₀.Is k n → n.op = .inst o :=
    fun hk ↦ (Node.op_of_core hk.2).symm.trans hop
  cases h with
  | phiUse hi hphi hk htarget hold =>
    exact ⟨_, _, _, hi, Or.inl ⟨hphi, _, hk, htarget, fun t ht ↦ (hold t ht).2⟩⟩
  | inst hi hphi hk hkids => exact ⟨_, _, _, hi, Or.inr ⟨hphi, _, hk, hkids⟩⟩
  | _ => exact absurd (hne (by assumption)) NodeOp.noConfusion

/-- The copy into a phi hands over the operand of the phi. -/
theorem Workspace.Shape.of_phiMove (h : w₀.Shape f k) (hop : (w₀.forest.node k).op = .phiMove) :
    ∃ b succ id i phi kid value, (id, i) ∈ f.blockPhis succ ∧
      (value, b) ∈ i.operation.incoming ∧ w₀.defs.phis.lookup id = some phi ∧
      w₀.Is k (.ofPhiMove b succ id i phi kid) ∧ w₀.Denotes f (.operand value) kid ∧ kid < k := by
  have hne : ∀ {n : Node}, w₀.Is k n → n.op = .phiMove :=
    fun hk ↦ (Node.op_of_core hk.2).symm.trans hop
  cases h with
  | phiMove hi hvalue hphi hk hkid hold =>
    have hmem := List.mem_of_find?_eq_some hvalue
    rw [List.mem_zipIdx_iff_getElem?] at hmem
    exact ⟨_, _, _, _, _, _, _, hi, List.mem_of_getElem? hmem, hphi, hk, hkid, hold⟩
  | _ => exact absurd (hne (by assumption)) NodeOp.noConfusion

/-- Only the registers of phis are computed from the start. -/
theorem Workspace.Shape.computed (h : w₀.Shape f k) (hop : (w₀.forest.node k).op ≠ .phiDef) :
    (w₀.forest.node k).computed = false := by
  cases h with
  | phi _ hk => exact absurd (Node.op_of_core hk.2) hop
  | _ => exact Node.computed_of_core (‹w₀.Is k _›).2

/-- The slot of an argument is in the frame of the caller. -/
theorem Workspace.Shape.argument_slot (h : w₀.Shape f k) {idx : Nat} {m : Mem}
    (hop : (w₀.forest.node k).op = .arg idx) (hslot : (w₀.forest.node k).slot = .mem m) :
    m.vregs = [] := by
  have hne : ∀ {n : Node}, w₀.Is k n → n.op = .arg idx :=
    fun hk ↦ (Node.op_of_core hk.2).symm.trans hop
  cases h with
  | argument _ hk =>
    obtain rfl := Slot.mem.inj ((Node.slot_of_core hk.2).symm.trans hslot)
    rfl
  | _ => exact absurd (hne (by assumption)) NodeOp.noConfusion

namespace Planted

theorem computed (hp : Planted f trees w₀) (hop : (w₀.forest.node k).op ≠ .phiDef) :
    (w₀.forest.node k).computed = false := by
  by_cases hk : k < w₀.forest.size
  · exact (hp.building.nodes k hk).shape.computed hop
  · rw [Forest.node_of_le _ (Nat.le_of_not_lt hk)]

/-- Roots are instructions and copies into phis. -/
theorem root (hp : Planted f trees w₀) (hr : r ∈ trees.flatten) :
    r < w₀.forest.size ∧ ((w₀.forest.node r).op = .phiMove ∨
      ∃ o, (w₀.forest.node r).op = .inst o) := by
  obtain ⟨roots, hroots, hr⟩ := List.mem_flatten.mp hr
  obtain ⟨b, hb⟩ := List.mem_iff_getElem?.mp hroots
  exact ⟨(hp.block b roots hb).upper r hr, (hp.block b roots hb).op r hr⟩

theorem mem_flatten (hp : Planted f trees w₀) (hop : (w₀.forest.node k).op = .inst o) :
    k ∈ trees.flatten := by
  have hk : k < w₀.forest.size := Forest.lt_size_of_op hop NodeOp.noConfusion
  obtain ⟨b, roots, hb, hmem⟩ := hp.all k hk o hop
  exact List.mem_flatten.mpr ⟨roots, List.mem_of_getElem? hb, hmem⟩

/-- The register of a phi, which a node stands for. -/
theorem phi_register (hp : Planted f trees w₀) (hphi : (id, i) ∈ f.blockPhis b)
    (hk : w₀.defs.phis.lookup id = some k) :
    ∃ v, w₀.Is k (.ofPhi b id i v) ∧ IsPhiOf w₀.code.blocks b v := by
  obtain ⟨k', v, hk', his, hv⟩ := hp.declared.register b (id, i) hphi
  obtain rfl := Option.some.inj (hk.symm.trans hk')
  exact ⟨v, his, hv⟩

/-- What stands for the register of a phi is the register of one of the phis. -/
theorem of_phi (hp : Planted f trees w₀) (hk : w₀.Is k (.ofPhi b id i v)) :
    ∃ i', (id, i') ∈ f.blockPhis b := by
  have hop : ∀ {n : Node}, w₀.Is k n → n.op = .phiDef :=
    fun hn ↦ (Node.op_of_core hn.2).symm.trans (Node.op_of_core hk.2)
  cases (hp.building.nodes k hk.1).shape with
  | phi hi hk' =>
    have heq := hk.eq hk'
    obtain rfl := Option.some.inj (congrArg Node.source heq : _)
    obtain rfl := Option.some.inj (congrArg Node.block heq : _)
    exact ⟨_, hi⟩
  | _ => exact absurd (hop (by assumption)) NodeOp.noConfusion

end Planted

/-! ## The invariant -/

/-- A register that a node may have been marked with: the block of the node knows it, and if it is the
address of an alloca, all blocks do. -/
structure HeldIn (g₀ : Forest) (blocks : List Machine.Block) (g : Forest) (k : NodeId)
    (v : VReg) : Prop where
  inst : ∃ o, (g₀.node k).op = .inst o
  value : (g₀.node k).op.isBarren = false
  wide : ¬ g₀.IsVoidCall k
  known : ∀ b, (g₀.node k).op = .inst .alloca ∨ (g₀.node k).block = some b → Knows blocks g b v

theorem HeldIn.persists {g₀ : Forest} (h : HeldIn g₀ c.blocks g k v)
    (hpersists : Persists c g c' g') : HeldIn g₀ c'.blocks g' k v :=
  ⟨h.inst, h.value, h.wide, fun b hb ↦ hpersists.knows (h.known b hb)⟩

/-- The code and the forest while the roots `rest` have not been visited. -/
structure Selecting (trees : List (List NodeId)) (w₀ : Workspace) (rest : List NodeId) (c : Code)
    (g : Forest) : Prop where
  suffix : rest <:+ trees.flatten
  draft : Drafted w₀.code c g
  forest : w₀.forest.Progress (fun k ↦ k ∉ rest)
    (fun k ↦ k ∈ rest → (w₀.forest.node k).op.isBarren = true) (HeldIn w₀.forest c.blocks g) g
  /-- A value that leaves its block was emitted there. -/
  visited : ∀ k a o, k ∉ rest → (w₀.forest.node k).op = .inst o → o ≠ .alloca →
    (w₀.forest.node k).op.isBarren = false → (w₀.forest.node k).block = some a →
    (w₀.forest.node k).escapes = true → 0 < (w₀.forest.node k).refs →
    g.Ready (fun k ↦ k ∉ rest ∧ w₀.forest.IsFree k) (Knows c.blocks g a) k
  /-- A copy into a phi was recorded as an input of the phi. -/
  fed : ∀ r ∈ trees.flatten, r ∉ rest → ∀ b succ id i phi kid,
    w₀.Is r (.ofPhiMove b succ id i phi kid) →
    ∃ v o, (w₀.forest.node phi).slot = .vreg v ∧ Feeds c.blocks b succ v o

namespace Selecting

/-- A later stage, in which fewer roots are left. -/
theorem gain {left : List NodeId} (h : Selecting trees w₀ left c g) (hrest : rest <:+ left)
    (hpersists : Persists c g c' g') (hdraft : Drafted w₀.code c' g')
    (hprogress : g.Progress (fun k ↦ k ∉ rest)
      (fun k ↦ k ∈ rest → (w₀.forest.node k).op.isBarren = true)
      (HeldIn w₀.forest c'.blocks g') g')
    (hvisited : ∀ k ∈ left, k ∉ rest → ∀ a o, (w₀.forest.node k).op = .inst o → o ≠ .alloca →
      (w₀.forest.node k).op.isBarren = false → (w₀.forest.node k).block = some a →
      (w₀.forest.node k).escapes = true → 0 < (w₀.forest.node k).refs →
      g'.Ready (fun k ↦ k ∉ rest ∧ w₀.forest.IsFree k) (Knows c'.blocks g' a) k)
    (hfed : ∀ k ∈ left, k ∉ rest → ∀ b succ id i phi kid,
      w₀.Is k (.ofPhiMove b succ id i phi kid) →
      ∃ v o, (w₀.forest.node phi).slot = .vreg v ∧ Feeds c'.blocks b succ v o) :
    Selecting trees w₀ rest c' g' where
  suffix := hrest.trans h.suffix
  draft := hdraft
  forest := (h.forest.mono (fun k hk hmem ↦ hk (hrest.subset hmem))
    (fun k hk hmem ↦ hk (hrest.subset hmem)) fun k v hv ↦ hv.persists hpersists).trans hprogress
  visited k a o hk hop hne hbarren hblock hescapes hrefs := by
    by_cases hleft : k ∈ left
    · exact hvisited k hleft hk a o hop hne hbarren hblock hescapes hrefs
    · have hready := (h.visited k a o hleft hop hne hbarren hblock hescapes hrefs).progress hprogress
        (fun v hv ↦ hpersists.knows hv) fun j v hv ↦ ⟨?_, fun ⟨_, hfree⟩ ↦ ?_⟩
      · exact hready.mono (fun j ⟨hj, hfree⟩ ↦ ⟨fun hmem ↦ hj (hrest.subset hmem), hfree⟩)
          fun v hv ↦ hv
      · rw [h.forest.skeleton.op]
        exact hv.inst
      · exact hv.known a (Or.inl (hfree.resolve_right hv.wide))
  fed k hk hkrest b succ id i phi kid his := by
    by_cases hleft : k ∈ left
    · exact hfed k hleft hkrest b succ id i phi kid his
    · obtain ⟨v, o, hslot, hfeeds⟩ := h.fed k hk hleft b succ id i phi kid his
      exact ⟨v, o, hslot, hpersists.feeds b succ v o hfeeds⟩

/-- The next stage, after root `r`. -/
theorem advance (h : Selecting trees w₀ (r :: rest) c g) (hpersists : Persists c g c' g')
    (hdraft : Drafted w₀.code c' g')
    (hprogress : g.Progress (fun k ↦ k ∉ rest)
      (fun k ↦ k ∈ rest → (w₀.forest.node k).op.isBarren = true)
      (HeldIn w₀.forest c'.blocks g') g')
    (hvisited : ∀ a o, (w₀.forest.node r).op = .inst o → o ≠ .alloca →
      (w₀.forest.node r).op.isBarren = false → (w₀.forest.node r).block = some a →
      (w₀.forest.node r).escapes = true → 0 < (w₀.forest.node r).refs →
      g'.Ready (fun k ↦ k ∉ rest ∧ w₀.forest.IsFree k) (Knows c'.blocks g' a) r)
    (hfed : ∀ b succ id i phi kid, w₀.Is r (.ofPhiMove b succ id i phi kid) →
      ∃ v o, (w₀.forest.node phi).slot = .vreg v ∧ Feeds c'.blocks b succ v o) :
    Selecting trees w₀ rest c' g' := by
  refine h.gain (List.suffix_cons r rest) hpersists hdraft hprogress (fun k hk hrest ↦ ?_)
    fun k hk hrest ↦ ?_
  · obtain rfl := (List.mem_cons.mp hk).resolve_right hrest
    exact hvisited
  · obtain rfl := (List.mem_cons.mp hk).resolve_right hrest
    exact hfed

/-- A stage in which the same roots are left. -/
theorem settle (h : Selecting trees w₀ rest c g) (hpersists : Persists c g c' g')
    (hdraft : Drafted w₀.code c' g')
    (hprogress : g.Progress (fun k ↦ k ∉ rest)
      (fun k ↦ k ∈ rest → (w₀.forest.node k).op.isBarren = true)
      (HeldIn w₀.forest c'.blocks g') g') : Selecting trees w₀ rest c' g' :=
  h.gain List.suffix_rfl hpersists hdraft hprogress (fun _ hk hrest ↦ absurd hk hrest)
    fun _ hk hrest ↦ absurd hk hrest

section

variable (hp : Planted f trees w₀) (h : Selecting trees w₀ rest c g)
include hp h

/-- A node that is not computed from the start was marked if it is computed. -/
theorem marked (hop : (w₀.forest.node k).op ≠ .phiDef) (hk : (g.node k).computed = true) :
    k ∉ rest ∧ ∃ v, (g.node k).slot = .vreg v ∧ HeldIn w₀.forest c.blocks g k v :=
  h.forest.marks k (hp.computed hop) hk

theorem not_computed (hop : (w₀.forest.node k).op ≠ .phiDef)
    (hinst : (∃ o, (w₀.forest.node k).op = .inst o) → (w₀.forest.node k).op.isBarren = true) :
    (g.node k).computed = false := by
  by_contra hnot
  obtain ⟨-, v, -, hheld⟩ := h.marked hp hop (by simpa using hnot)
  exact absurd ((hinst hheld.inst).symm.trans hheld.value) (by simp)

theorem flat : g.Flat := h.forest.skeleton.flat hp.building.flat

/-- A leaf stays one. -/
theorem ready_leaf (his : w₀.Is k n) (hleaf : n.op.isLeaf = true) (hkids : n.kids = [])
    (htarget : n.target = none) {mine : NodeId → Prop} {avail : VReg → Prop} :
    g.owner k = k ∧ g.Ready mine avail k := by
  have hop := Node.op_of_core his.2
  have hskeleton := h.forest.skeleton
  refine ⟨Forest.owner_of_target ((hskeleton.target k).trans
    ((Node.target_of_core his.2).trans htarget)), .leaf (h.not_computed hp ?_ ?_) ?_ ?_⟩
  · rw [hop]
    exact fun heq ↦ by rw [heq] at hleaf; exact absurd hleaf (by decide)
  · rintro ⟨o, ho⟩
    rw [← hop, ho] at hleaf
    exact absurd hleaf Bool.false_ne_true
  · rw [hskeleton.op, hop]
    exact hleaf
  · exact (hskeleton.kids k).trans ((Node.kids_of_core his.2).trans hkids)

/-- The node of a phi stands for its register, or has no value. -/
theorem ready_phi {target : Option NodeId} (his : w₀.Is k (.ofPhiUse a id i target))
    (hphi : target = w₀.defs.phis.lookup id)
    (hold : ∀ t, target = some t → ∃ b i v, w₀.Is t (.ofPhi b id i v))
    (ha : f.blockOf? id = some a) (hdom : (blockGraph c.blocks).Dominates a b)
    {mine : NodeId → Prop} (hbarren : (g.node (g.owner k)).op.isBarren = false) :
    g.Ready mine (Knows c.blocks g b) (g.owner k) := by
  have hskeleton := h.forest.skeleton
  have htarget : (g.node k).target = target :=
    (hskeleton.target k).trans (Node.target_of_core his.2)
  cases ht : target with
  | none =>
    rw [Forest.owner_of_target (htarget.trans ht), hskeleton.op, Node.op_of_core his.2] at hbarren
    exact absurd hbarren (by simp [Node.ofPhiUse, NodeOp.isBarren])
  | some t =>
    obtain ⟨b', i', v', ht'⟩ := hold t ht
    obtain ⟨i'', hmem⟩ := hp.of_phi ht'
    obtain rfl : b' = a := Option.some.inj
      ((Func.blockOf?_of_mem (Func.mem_blockInsts_of_phi hmem).1).symm.trans ha)
    obtain ⟨v, hreg, hv⟩ := hp.phi_register hmem (hphi.symm.trans ht)
    rw [(h.flat hp).owner_alias (htarget.trans ht)]
    obtain ⟨hcomputed, hslot⟩ := h.forest.keeps t (Node.computed_of_core hreg.2)
    refine .computed hcomputed (fun _ ↦ ?_) (hslot.trans (Node.slot_of_core hreg.2)) ?_
    · exact (hskeleton.kids t).trans (Node.kids_of_core hreg.2)
    · exact Or.inl (Or.inr ⟨b', (h.draft.phis b' v).mpr hv, hdom⟩)

end

/-! ## Readiness -/

theorem graph (hp : Planted f trees w₀) (h : Selecting trees w₀ rest c g) :
    blockGraph c.blocks = f.graph :=
  h.draft.succs.trans hp.declared.blank.succs

theorem lt_of_mem (hp : Planted f trees w₀) (h : Selecting trees w₀ (r :: rest) c g)
    (hk : k ∈ rest) : r < k :=
  (List.pairwise_cons.mp (hp.sorted.sublist h.suffix.sublist)).1 k hk

end Selecting

theorem Workspace.HasKids.of_alloca {op : Operation Value BlockId} {kids : List NodeId}
    (h : w₀.HasKids f k op kids) (hop : op.opcode = .alloca) : kids = [] := by
  cases h with
  | call => exact absurd hop Opcode.noConfusion
  | br => exact absurd hop Opcode.noConfusion
  | other _ _ hkids =>
    cases op with
    | alloca => simpa [Operation.places] using hkids
    | _ => exact absurd hop Opcode.noConfusion

/-- What may be emitted in block `b` before the roots `rest` are visited: what was built in the block,
and what any block may emit. -/
def MayEmit (g₀ : Forest) (b : BlockId) (rest : List NodeId) (k : NodeId) : Prop :=
  k ∉ rest ∧ ((g₀.node k).block = some b ∨ g₀.IsFree k)

namespace Selecting

section

variable (hp : Planted f trees w₀) (h : Selecting trees w₀ (r :: rest) c g)
include hp h

/-- Every block may take the address of an alloca. -/
theorem ready_alloca (hop : (w₀.forest.node k).op = .inst .alloca)
    (hkids : (w₀.forest.node k).kids = []) (hk : k ∉ rest) :
    g.Ready (MayEmit w₀.forest b rest) (Knows c.blocks g b) k := by
  have hskeleton := h.forest.skeleton
  cases hcomputed : (g.node k).computed with
  | true =>
    obtain ⟨-, v, hslot, hheld⟩ := h.marked hp (by rw [hop]; exact NodeOp.noConfusion) hcomputed
    exact .computed hcomputed (fun hne ↦ absurd ((hskeleton.op k).trans hop) (hne _)) hslot
      (hheld.known b (Or.inl hop))
  | false =>
    refine .inner hcomputed (Or.inr ⟨⟨hk, Or.inr (Or.inl hop)⟩, _, (hskeleton.op k).trans hop⟩)
      fun c hc ↦ ?_
    rw [Forest.kidOwners, hskeleton.kids, hkids] at hc
    exact absurd hc List.not_mem_nil

/-- An operand that serves the block of a root, and that was built before the root, is ready. -/
theorem ready_operand (hdenotes : w₀.Denotes f p j) (hserves : f.Serves b p)
    (hused : 0 < w₀.forest.refs j) (hj : j < r)
    (ih : ∀ o, (w₀.forest.node j).op = .inst o → (w₀.forest.node j).target = none →
      (w₀.forest.node j).block = some b →
      g.Ready (MayEmit w₀.forest b rest) (Knows c.blocks g b) j)
    (hbarren : (g.node (g.owner j)).op.isBarren = false) :
    g.Ready (MayEmit w₀.forest b rest) (Knows c.blocks g b) (g.owner j) := by
  have hskeleton := h.forest.skeleton
  have hleaf : ∀ {n}, w₀.Is j n → n.op.isLeaf = true → n.kids = [] → n.target = none →
      g.Ready (MayEmit w₀.forest b rest) (Knows c.blocks g b) (g.owner j) := by
    intro n hk hleaf hkids htarget
    obtain ⟨howner, hready⟩ := h.ready_leaf hp hk hleaf hkids htarget
    exact howner.symm ▸ hready
  cases hdenotes with
  | int _ hk => exact hleaf hk rfl rfl rfl
  | float hk => exact hleaf hk rfl rfl rfl
  | arg _ hk => exact hleaf hk rfl rfl rfl
  | block _ hk => exact hleaf hk rfl rfl rfl
  | @inst id _ hk =>
    obtain ⟨hlt, ⟨o, ho⟩, hsource⟩ := hk
    obtain ⟨a, ha, hdom, hescapes⟩ := hserves id rfl
    obtain ⟨a', id', i, hi, hshape⟩ := (hp.building.nodes j hlt).shape.of_inst ho
    have hid : ∀ {n : Node}, w₀.Is j n → n.source = some id' → id' = id := fun his hn ↦
      Option.some.inj (hn.symm.trans ((Node.source_of_core his.2).symm.trans hsource))
    rcases hshape with ⟨-, target, his, htarget, hold⟩ | ⟨hphi, kids, his, hkids⟩
    · obtain rfl := hid his rfl
      obtain rfl : a' = a := Option.some.inj ((Func.blockOf?_of_mem hi).symm.trans ha)
      exact h.ready_phi hp his htarget hold ha (h.graph hp ▸ hdom) hbarren
    · obtain rfl := hid his rfl
      obtain rfl : a' = a := Option.some.inj ((Func.blockOf?_of_mem hi).symm.trans ha)
      have htarget : (w₀.forest.node j).target = none := Node.target_of_core his.2
      have hblock : (w₀.forest.node j).block = some a' := Node.block_of_core his.2
      have howner : g.owner j = j := Forest.owner_of_target ((hskeleton.target j).trans htarget)
      have hbarren₀ : (w₀.forest.node j).op.isBarren = false := by
        rwa [howner, hskeleton.op] at hbarren
      rw [howner]
      have hmem : j ∉ r :: rest := by
        intro hmem
        rcases List.mem_cons.mp hmem with rfl | hmem
        · exact Nat.lt_irrefl _ hj
        · exact Nat.lt_asymm hj (h.lt_of_mem hp hmem)
      have hmem' : j ∉ rest := fun hj ↦ hmem (List.mem_cons_of_mem r hj)
      by_cases hab : a' = b
      · exact ih o ho htarget (hab ▸ hblock)
      · by_cases halloca : o = .alloca
        · subst halloca
          refine h.ready_alloca hp ho ((Node.kids_of_core his.2).trans (hkids.of_alloca ?_)) hmem'
          exact NodeOp.inst.inj ((Node.op_of_core his.2).symm.trans ho)
        · have hphi' : (w₀.forest.node j).op ≠ .inst .phi := by
            intro heq
            rw [heq] at hbarren₀
            exact absurd hbarren₀ (by decide)
          have hleaves := (hp.building.nodes j hlt).escapes id' ⟨hlt, ⟨o, ho⟩, hsource⟩ hphi'
            (hescapes hab)
          rw [Forest.refs, Forest.owner_of_target htarget] at hused
          exact (h.visited j a' o hmem ho halloca hbarren₀ hblock hleaves hused).mono
            (fun k hk ↦ ⟨fun hrest ↦ hk.1 (List.mem_cons_of_mem r hrest), Or.inr hk.2⟩)
            fun v hv ↦ hv.of_dominates (h.graph hp ▸ hdom)

/-- A list of arguments that serve the block is ready. -/
theorem ready_args {kids : List NodeId} (his : w₀.Is k (.ofArgs kids))
    (hkids : ∀ kid ∈ g.kidOwners k, (g.node kid).op.isBarren = false →
      g.Ready (MayEmit w₀.forest b rest) (Knows c.blocks g b) kid) :
    g.Ready (MayEmit w₀.forest b rest) (Knows c.blocks g b) k := by
  have hop : (w₀.forest.node k).op = .args := Node.op_of_core his.2
  refine .inner (h.not_computed hp (by rw [hop]; exact NodeOp.noConfusion) fun ⟨o, ho⟩ ↦ ?_)
    (Or.inl ((h.forest.skeleton.op k).trans hop)) hkids
  exact absurd (hop.symm.trans ho) NodeOp.noConfusion

/-- **Readiness.** What was built in a block before one of its roots is ready there. -/
theorem ready (hssa : f.IsSsa) (hop : (w₀.forest.node k).op = .inst o)
    (htarget : (w₀.forest.node k).target = none) (hblock : (w₀.forest.node k).block = some b)
    (hle : k ≤ r) : g.Ready (MayEmit w₀.forest b rest) (Knows c.blocks g b) k := by
  induction k using Nat.strongRecOn generalizing o with
  | ind k ih =>
    have hskeleton := h.forest.skeleton
    have hop' := (hskeleton.op k).trans hop
    cases hk : (g.node k).computed with
    | true =>
      obtain ⟨-, v, hslot, hheld⟩ := h.marked hp (by rw [hop]; exact NodeOp.noConfusion) hk
      exact .computed hk (fun hne ↦ absurd hop' (hne o)) hslot (hheld.known b (Or.inr hblock))
    | false =>
      have hrest : k ∉ rest := fun hk ↦ Nat.not_lt.mpr hle (h.lt_of_mem hp hk)
      refine .inner hk (Or.inr ⟨⟨hrest, Or.inl hblock⟩, o, hop'⟩) fun kid hkid hbarren ↦ ?_
      rw [Forest.kidOwners, hskeleton.kids] at hkid
      obtain ⟨j, hj, rfl⟩ := List.mem_map.mp hkid
      have hlt : k < w₀.forest.size := Forest.lt_size_of_op hop NodeOp.noConfusion
      have hbuilt := hp.building.nodes k hlt
      obtain ⟨a, id, i, hi, hshape⟩ := hbuilt.shape.of_inst hop
      rcases hshape with ⟨-, target, his, -⟩ | ⟨hphi, kids, his, hkids⟩
      · rw [Node.kids_of_core his.2] at hj
        exact absurd hj List.not_mem_nil
      · obtain rfl : a = b :=
          Option.some.inj ((Node.block_of_core his.2).symm.trans hblock)
        -- the operands of the instruction are older than it
        have hplace : ∀ {p : Place Value BlockId} {j : NodeId}, p ∈ i.operation.places →
            w₀.Denotes f p j → 0 < w₀.forest.refs j → j < k →
            (g.node (g.owner j)).op.isBarren = false →
            g.Ready (MayEmit w₀.forest a rest) (Knows c.blocks g a) (g.owner j) := by
          intro p j hmem hdenotes hused hjk
          exact h.ready_operand hp hdenotes (hssa.serves hi hphi hmem) hused
            (Nat.lt_of_lt_of_le hjk hle) fun o ho ht hb ↦
              ih j hjk ho ht hb (Nat.le_trans (Nat.le_of_lt hjk) hle)
        have hused := hbuilt.used
        rw [Node.kids_of_core his.2] at hj hused
        generalize hoperation : i.operation = op at hkids hplace
        cases hkids with
        | @call _ _ args hlist hargs hold =>
          obtain rfl := List.mem_singleton.mp hj
          have howner : g.owner (k + 1) = k + 1 := Forest.owner_of_target
            ((hskeleton.target _).trans (Node.target_of_core hlist.2))
          rw [howner]
          refine h.ready_args hp hlist fun kid hkid hbarren ↦ ?_
          rw [Forest.kidOwners, hskeleton.kids, Node.kids_of_core hlist.2] at hkid
          obtain ⟨j, hj, rfl⟩ := List.mem_map.mp hkid
          obtain ⟨p, hmem, hdenotes⟩ := exists_of_forall₂ hargs hj
          refine hplace hmem hdenotes ((hp.building.nodes _ hlist.1).used j ?_) (hold j hj) hbarren
          rw [Node.kids_of_core hlist.2]
          exact hj
        | br hkid hold hfirst hsecond =>
          simp only [Node.ofInst, List.mem_cons, List.not_mem_nil, or_false] at hj
          rcases hj with rfl | rfl | rfl
          · exact hplace List.mem_cons_self hkid (hused _ List.mem_cons_self) hold hbarren
          · obtain ⟨howner, hready⟩ := h.ready_leaf hp hfirst rfl rfl rfl
            exact howner.symm ▸ hready
          · obtain ⟨howner, hready⟩ := h.ready_leaf hp hsecond rfl rfl rfl
            exact howner.symm ▸ hready
        | other _ _ hdenote hold =>
          obtain ⟨p, hmem, hdenotes⟩ := exists_of_forall₂ hdenote hj
          exact hplace hmem hdenotes (hused j hj) (hold j hj) hbarren

end

end Selecting

end TreeCover
