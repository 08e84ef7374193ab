import TreeCover.Proofs.Reading.WellFormed
import TreeCover.Proofs.Tiling.Standing

/-!
# What branches read

A branch ends its block, and reads one value at most. A value that can be left to its consumers has them
all in its own block, so when selection comes to the branch all others have been served. Main statement:
`Visited.done_before_branch`.
-/

namespace TreeCover

open Ir Machine Work

variable {f : Func} {s : Session} {next : InstId} {os : List (Ir.Operand Value)}
  {trees : List (List NodeId)} {done later roots : List NodeId} {g : Forest} {w v : Workspace}
  {k p q r c : NodeId} {id : InstId} {b home : BlockId} {o : Opcode} {i : ResolvedInst}

/-! ## Branches -/

/-- The roots of instructions are in the order of the instructions. -/
theorem TreesOf.getElem?_insts (h : TreesOf f b w roots) (hr : r ∈ roots)
    (hop : ∃ o, (w.forest.node r).op = .inst o) (hq : q ∈ roots)
    (hop' : ∃ o, (w.forest.node q).op = .inst o) (hlt : r < q) :
    ∃ (m n : Nat) (x y : InstId × ResolvedInst), m < n ∧ (f.blockInsts b)[m]? = some x ∧
      (f.blockInsts b)[n]? = some y ∧ w.Results x.1 r := by
  have hmem : ∀ {r}, r ∈ roots → (∃ o, (w.forest.node r).op = .inst o) →
      r ∈ roots.filter fun r ↦ (w.forest.node r).opcode?.isSome := by
    rintro r hr ⟨o, ho⟩
    exact List.mem_filter.mpr ⟨hr, by rw [Node.opcode?, ho]; rfl⟩
  have hsorted := h.sorted.filter fun r ↦ (w.forest.node r).opcode?.isSome
  have hresults := h.results
  obtain ⟨m, hm, rfl⟩ := List.getElem_of_mem (hmem hr hop)
  obtain ⟨n, hn, rfl⟩ := List.getElem_of_mem (hmem hq hop')
  have hmn : m < n := by
    rcases Nat.lt_trichotomy m n with hlt' | rfl | hlt'
    · exact hlt'
    · exact absurd hlt (Nat.lt_irrefl _)
    · exact absurd hlt (Nat.lt_asymm (List.pairwise_iff_getElem.mp hsorted n m hn hm hlt'))
  have hlength := hresults.length_eq
  refine ⟨m, n, _, _, hmn, List.getElem?_eq_getElem (hlength ▸ hm),
    List.getElem?_eq_getElem (hlength ▸ hn), ?_⟩
  exact hresults.get hm (hlength ▸ hm)

/-- A branch is the last root of its block. -/
theorem Planted.le_branch (hp : Planted f trees w) (hwell : f.WellFormed)
    (hop : (w.forest.node p).op = .inst .br) (hhome : (w.forest.node p).block = some b)
    (hr : r ∈ trees.flatten) (hblock : (w.forest.node r).block = some b) : r ≤ p := by
  have hroots : ∀ {r}, r ∈ trees.flatten → (w.forest.node r).block = some b →
      ∃ roots, trees[b]? = some roots ∧ r ∈ roots := by
    intro r hr hblock
    obtain ⟨roots, hroots, hmem⟩ := List.mem_flatten.mp hr
    obtain ⟨b', hb'⟩ := List.mem_iff_getElem?.mp hroots
    obtain rfl := Option.some.inj (((hp.block b' roots hb').block r hmem).symm.trans hblock)
    exact ⟨roots, hb', hmem⟩
  obtain ⟨roots, hb, hr⟩ := hroots hr hblock
  obtain ⟨_, hb', hbranch⟩ := hroots (hp.mem_flatten hop) hhome
  obtain rfl := Option.some.inj (hb.symm.trans hb')
  have htrees := hp.block b roots hb
  obtain ⟨q, hq, hle, hinst⟩ := htrees.last r hr
  refine Nat.le_trans hle (Nat.le_of_not_lt fun hlt ↦ ?_)
  obtain ⟨m, n, x, y, hmn, hx, hy, hresults⟩ :=
    htrees.getElem?_insts hbranch ⟨_, hop⟩ hq hinst hlt
  obtain ⟨b', id, i, kids, hi, hterm, his⟩ := hp.of_inst hop Opcode.noConfusion
  obtain rfl : id = x.1 := Option.some.inj (his.source.symm.trans hresults.2.2)
  obtain ⟨-, rfl⟩ := Func.blockInsts_unique hi (List.mem_of_getElem? hx)
  -- the terminator of the block comes last
  rw [Func.blockInsts] at hx hy
  cases hblock : f.blocks[b]? with
  | none =>
    rw [hblock] at hx
    exact absurd hx (by simp)
  | some block =>
    rw [hblock] at hx hy
    obtain ⟨body, last, hbody, -, hnone, -⟩ :=
      (hwell.blocks block (List.mem_of_getElem? hblock)).terminator
    simp only [List.getElem?_mapIdx, Option.map_eq_some_iff] at hx hy
    obtain ⟨i, hm, rfl⟩ := hx
    obtain ⟨j, hn, -⟩ := hy
    have hlast := (List.getElem?_eq_some_iff.mp hn).1
    rw [hbody, List.length_append, List.length_singleton] at hlast
    rw [hbody, List.getElem?_append_left (by omega)] at hm
    have hbranch := hnone i (List.mem_of_getElem? hm)
    rw [hterm] at hbranch
    exact absurd hbranch (by decide)

/-- What stands for a block, or fills up the children of a jump, is no instruction. -/
theorem Workspace.Is.owner_of_leaf {n : Node} (his : w.Is k n) (htarget : n.target = none)
    (hop : ∀ o, n.op ≠ .inst o) :
    w.forest.owner k = k ∧ ∀ o, (w.forest.node k).op ≠ .inst o :=
  ⟨Forest.owner_of_target ((Node.target_of_core his.2).trans htarget), fun o ho ↦ hop o (his.op.symm.trans ho)⟩

/-- At most one child of a branch is an instruction. -/
theorem Planted.branch_kids (hp : Planted f trees w) (hop : (w.forest.node p).op = .inst .br) :
    ∃ c l l', w.forest.kidOwners p = [c, l, l'] ∧ (∀ o, (w.forest.node l).op ≠ .inst o) ∧
      ∀ o, (w.forest.node l').op ≠ .inst o := by
  obtain ⟨_, _, i, -, hshape⟩ := (hp.building.nodes p (Forest.lt_size_of_op hop NodeOp.noConfusion)).shape.of_inst hop
  rcases hshape with ⟨-, _, his, -⟩ | ⟨-, kids, his, hkids⟩
  · exact absurd (NodeOp.inst.inj (his.op.symm.trans hop)) Opcode.noConfusion
  · have hbr : i.operation.opcode = .br := NodeOp.inst.inj (his.op.symm.trans hop)
    have hnode : (w.forest.node p).kids = kids := Node.kids_of_core his.2
    rw [Forest.kidOwners, hnode]
    generalize i.operation = operation at hkids hbr
    cases hkids with
    | call => exact absurd hbr Opcode.noConfusion
    | br hkid hold hfirst hsecond =>
      obtain ⟨hfirst, hnone⟩ := hfirst.owner_of_leaf rfl fun _ ↦ NodeOp.noConfusion
      obtain ⟨hsecond, hnone'⟩ := hsecond.owner_of_leaf rfl fun _ ↦ NodeOp.noConfusion
      exact ⟨_, _, _, rfl, by rwa [hfirst], by rwa [hsecond]⟩
    | other hcall hjump hkids hold =>
      cases operation with
      | condBr c t e =>
        obtain ⟨kid, _, -, hlabels, rfl⟩ := List.forall₂_cons_left_iff.mp hkids
        obtain ⟨l, _, ht, hlabel, rfl⟩ := List.forall₂_cons_left_iff.mp hlabels
        obtain ⟨l', _, he, hnil, rfl⟩ := List.forall₂_cons_left_iff.mp hlabel
        obtain rfl := List.forall₂_nil_left_iff.mp hnil
        cases ht with
        | block _ hl =>
          cases he with
          | block _ hl' =>
            obtain ⟨howner, hnone⟩ := hl.owner_of_leaf rfl fun _ ↦ NodeOp.noConfusion
            obtain ⟨howner', hnone'⟩ := hl'.owner_of_leaf rfl fun _ ↦ NodeOp.noConfusion
            exact ⟨_, _, _, rfl, by rwa [howner], by rwa [howner']⟩
      | br t => exact absurd rfl (hjump t)
      | _ => exact absurd hbr Opcode.noConfusion

theorem Planted.eq_of_branch (hp : Planted f trees w) (hop : (w.forest.node p).op = .inst .br)
    (hq : q ∈ w.forest.kidOwners p) (hinst : ∃ o, (w.forest.node q).op = .inst o)
    (hk : k ∈ w.forest.kidOwners p) (hinst' : ∃ o, (w.forest.node k).op = .inst o) : q = k := by
  obtain ⟨c, l, l', hkids, hl, hl'⟩ := hp.branch_kids hop
  have honly : ∀ q ∈ w.forest.kidOwners p, (∃ o, (w.forest.node q).op = .inst o) → q = c := by
    rintro q hq ⟨o, ho⟩
    rw [hkids] at hq
    simp only [List.mem_cons, List.not_mem_nil, or_false] at hq
    rcases hq with rfl | rfl | rfl
    · rfl
    · exact absurd ho (hl o)
    · exact absurd ho (hl' o)
  exact (honly q hq hinst).trans (honly k hk hinst').symm

/-! ## Readers -/

theorem Workspace.Denotes.eq_of_results {x : Place Value BlockId} (h : w.Denotes f x q)
    (hq : w.Results id q) : x = .operand (.value (.inst id)) := by
  obtain ⟨o, ho⟩ := hq.2.1
  cases h with
  | inst hk => rw [Option.some.inj (hk.2.2.symm.trans hq.2.2)]
  | int _ hk | float hk | arg _ hk | block _ hk => exact absurd (hk.op.symm.trans ho) NodeOp.noConfusion

/-- The root `r` holds the children of `p`: it is `p`, or a call whose arguments these are. -/
def Forest.HeldBy (g : Forest) (p r : NodeId) : Prop :=
  p = r ∨ (g.node r).op = .inst .call ∧ p = r + 1 ∧ p ∈ g.kidOwners r

/-- In block `b` of `f` some operand reads the result of `id`. -/
def Ir.Func.ReadIn (f : Func) (id : InstId) (b : BlockId) : Prop :=
  ∃ c reader i, (reader, i) ∈ f.blockInsts c ∧ (.value (.inst id), b) ∈ i.operation.readings c

/-- An operand of an instruction that is no phi is read where the instruction stands. -/
theorem Ir.Func.ReadIn.of_places (hi : (k, i) ∈ f.blockInsts b) (hphi : i.operation.isPhi = false)
    (hread : .operand (.value (.inst id)) ∈ i.operation.places) : f.ReadIn id b := by
  refine ⟨b, k, i, hi, ?_⟩
  have hoperands : .value (.inst id) ∈ i.operation.operands :=
    List.mem_filterMap.mpr ⟨_, hread, rfl⟩
  generalize i.operation = operation at hphi hoperands ⊢
  cases operation with
  | phi => exact absurd hphi Bool.noConfusion
  | _ => exact List.mem_map_of_mem hoperands

/-- Only phis are aliases. -/
theorem Planted.target_of_ne_phi (hp : Planted f trees w) (hphi : (w.forest.node q).op ≠ .inst .phi) :
    (w.forest.node q).target = none := by
  cases ht : (w.forest.node q).target with
  | none => rfl
  | some t =>
    obtain ⟨_, _, _, his, -⟩ := hp.of_alias ht
    exact absurd his.op hphi

/-- **Readers.** A node that has the result of an instruction for a child belongs to a root of a block
in which the result is read. -/
theorem Planted.reader (hp : Planted f trees w) (hrec : w.Recorded next os trees.flatten)
    (hq : w.Results id q) (hphi : (w.forest.node q).op ≠ .inst .phi)
    (hkid : q ∈ w.forest.kidOwners p) : ∃ r b, w.forest.HeldBy p r ∧ q < r ∧ r ∈ trees.flatten ∧
      (w.forest.node r).block = some b ∧ f.ReadIn id b := by
  obtain ⟨o, hop⟩ := hq.2.1
  obtain ⟨c, hc, howner⟩ := List.mem_map.mp hkid
  have htarget := hp.target_of_ne_phi hphi
  obtain rfl : c = q := hp.eq_of_owner hrec (hp.isKid hc).op_ne
    (by rw [hop]; exact NodeOp.noConfusion) (howner.trans (Forest.owner_of_target htarget).symm)
  have hp' : p < w.forest.size := by
    by_contra hle
    rw [Forest.node_of_le _ (Nat.le_of_not_lt hle)] at hc
    exact absurd hc List.not_mem_nil
  have hnil : ∀ {n : Node}, w.Is p n → n.kids ≠ [] := by
    intro n his hkids
    rw [Node.kids_of_core his.2, hkids] at hc
    exact absurd hc List.not_mem_nil
  cases (hp.building.nodes p hp').shape with
  | argument _ his | constant his | label his | pad his | phi _ his | phiUse _ _ his =>
    exact absurd rfl (hnil his)
  | @args kids his hold =>
    -- the call that has the arguments reads the result
    obtain ⟨r, hcall, rfl, hlist⟩ := hp.exists_call hrec hp' his.op
    obtain ⟨b, reader, i, hi, hshape⟩ :=
      (hp.building.nodes r (Forest.lt_size_of_op hcall NodeOp.noConfusion)).shape.of_inst hcall
    rcases hshape with ⟨-, _, his', -⟩ | ⟨hphi', kids', his', hkids⟩
    · exact absurd (NodeOp.inst.inj (his'.op.symm.trans hcall)) Opcode.noConfusion
    · have hlt := (hold c (by rwa [Node.kids_of_core his.2] at hc)).1
      refine ⟨r, b, Or.inr ⟨hcall, rfl, hlist⟩, Nat.lt_of_succ_lt_succ hlt, hp.mem_flatten hcall,
        Node.block_of_core his'.2, .of_places hi hphi' ?_⟩
      have hopcode : i.operation.opcode = .call := NodeOp.inst.inj (his'.op.symm.trans hcall)
      generalize i.operation = operation at hkids hopcode ⊢
      cases hkids with
      | @call _ _ args hargs hdenotes _ =>
        rw [Node.kids_of_core hargs.2] at hc
        obtain ⟨x, hx, hdenotes⟩ := exists_of_forall₂ hdenotes hc
        exact hdenotes.eq_of_results hq ▸ hx
      | br => exact absurd hopcode Opcode.noConfusion
      | other hne => exact absurd hopcode hne
  | @inst b reader i kids hi hphi' his hkids =>
    have hchild : c ∈ kids := by rwa [Node.kids_of_core his.2] at hc
    have hne : ∀ {n : Node}, w.Is c n → n.op = .inst o := fun his' ↦ his'.op.symm.trans hop
    have hread : c < p ∧ .operand (.value (.inst id)) ∈ i.operation.places := by
      generalize i.operation = operation at hkids
      cases hkids with
      | call hargs _ _ =>
        obtain rfl := List.mem_singleton.mp hchild
        exact absurd (hne hargs) NodeOp.noConfusion
      | br hkid hold hfirst hsecond =>
        simp only [List.mem_cons, List.not_mem_nil, or_false] at hchild
        rcases hchild with rfl | rfl | rfl
        · exact ⟨hold, hkid.eq_of_results hq ▸ List.mem_singleton_self _⟩
        · exact absurd (hne hfirst) NodeOp.noConfusion
        · exact absurd (hne hsecond) NodeOp.noConfusion
      | other _ _ hdenotes hold =>
        obtain ⟨x, hx, hdenotes⟩ := exists_of_forall₂ hdenotes hchild
        exact ⟨hold c hchild, hdenotes.eq_of_results hq ▸ hx⟩
    exact ⟨p, b, Or.inl rfl, hread.1, hp.mem_flatten his.op, Node.block_of_core his.2,
      .of_places hi hphi' hread.2⟩
  | @phiMove b succ reader i phi kid n value hi hvalue _ his hdenotes hold =>
    rw [Node.kids_of_core his.2] at hc
    obtain rfl := List.mem_singleton.mp hc
    refine ⟨p, b, Or.inl rfl, hold, hrec.moves p his.op, Node.block_of_core his.2, succ, reader, i,
      (Func.mem_blockInsts_of_phi hi).1, ?_⟩
    have hmem := List.mem_of_find?_eq_some hvalue
    rw [List.mem_zipIdx_iff_getElem?] at hmem
    have hincoming := List.mem_of_getElem? hmem
    rw [Place.operand.inj (hdenotes.eq_of_results hq)] at hincoming
    have hphi' := (Func.mem_blockInsts_of_phi hi).2
    generalize i.operation = operation at hphi' hincoming ⊢
    cases operation with
    | phi incoming => exact hincoming
    | _ => exact absurd hphi' Bool.noConfusion

/-- A value that is not marked as read elsewhere has its readers in its block. -/
theorem Planted.reader_home (hp : Planted f trees w) (hrec : w.Recorded next os trees.flatten)
    (hq : w.Results id q) (hphi : (w.forest.node q).op ≠ .inst .phi)
    (hescapes : (w.forest.node q).escapes = false) (hhome : (w.forest.node q).block = some home)
    (hkid : q ∈ w.forest.kidOwners p) : ∃ r, w.forest.HeldBy p r ∧ q < r ∧ r ∈ trees.flatten ∧
      (w.forest.node r).block = some home := by
  obtain ⟨r, b, hheld, hlt, hr, hblock, c, reader, i, hi, hread⟩ := hp.reader hrec hq hphi hkid
  refine ⟨r, hheld, hlt, hr, hblock.trans (congrArg some ?_)⟩
  obtain ⟨o, hop⟩ := hq.2.1
  obtain ⟨b', id', i', kids, hi', -, his⟩ := hp.of_inst hop fun h ↦ hphi (h ▸ hop)
  obtain rfl : id' = id := Option.some.inj (his.source.symm.trans hq.2.2)
  obtain rfl : b' = home := Option.some.inj ((Node.block_of_core his.2).symm.trans hhome)
  by_contra hne
  -- a reader in another block would have marked it
  have hmarked := (hp.building.nodes q hq.1).escapes id' hq hphi <| Func.escapes_iff.mpr
    ⟨c, reader, i, b, hi, hread, fun heq ↦
      hne (Option.some.inj (heq.symm.trans (Func.blockOf?_of_mem hi')))⟩
  exact Bool.false_ne_true (hescapes.symm.trans hmarked)

/-- If a branch is one of them, it stands in the block. -/
theorem Planted.branch_home (hp : Planted f trees w) (hrec : w.Recorded next os trees.flatten)
    (hbranch : (w.forest.node p).op = .inst .br) (hq : w.Results id q)
    (hphi : (w.forest.node q).op ≠ .inst .phi) (hescapes : (w.forest.node q).escapes = false)
    (hhome : (w.forest.node q).block = some home) (hkid : q ∈ w.forest.kidOwners p) :
    (w.forest.node p).block = some home := by
  obtain ⟨r, hheld, -, -, hblock⟩ := hp.reader_home hrec hq hphi hescapes hhome hkid
  rcases hheld with rfl | ⟨-, rfl, hlist⟩
  · exact hblock
  · -- a branch is not the list of arguments of a call
    obtain ⟨c, hc, howner⟩ := List.mem_map.mp hlist
    cases hp.isKid hc with
    | operand hlt _ =>
      have hle := hp.building.flat.owner_le c
      rw [howner] at hle
      exact absurd (Nat.lt_of_le_of_lt hle hlt) (Nat.not_lt.mpr (Nat.le_succ r))
    | list _ his | pad his =>
      rw [Forest.owner_of_target (Node.target_of_core his.2)] at howner
      rw [← howner] at hbranch
      exact absurd (his.op.symm.trans hbranch) NodeOp.noConfusion

/-- A value that is read twice has another reader than a branch. -/
theorem Planted.exists_other_reader (hp : Planted f trees w)
    (hbranch : (w.forest.node p).op = .inst .br) (hinst : ∃ o, (w.forest.node q).op = .inst o)
    (htwo : 2 ≤ w.forest.positions q) : ∃ c ≠ p, q ∈ w.forest.kidOwners c := by
  by_contra hnone
  push Not at hnone
  have hzero : ∀ c ∈ Finset.range w.forest.size, c ≠ p → w.forest.positionsAt c q = 0 :=
    fun c _ hc ↦ List.count_eq_zero.mpr (hnone c hc)
  have hsum : w.forest.positions q = w.forest.positionsAt p q :=
    Finset.sum_eq_single p hzero fun hp' ↦ absurd
      (Finset.mem_range.mpr (Forest.lt_size_of_op hbranch NodeOp.noConfusion)) hp'
  obtain ⟨c, l, l', hkids, hl, hl'⟩ := hp.branch_kids hbranch
  obtain ⟨o, ho⟩ := hinst
  have hne : l ≠ q := fun heq ↦ hl o (heq ▸ ho)
  have hne' : l' ≠ q := fun heq ↦ hl' o (heq ▸ ho)
  have hone : w.forest.positionsAt p q ≤ 1 := by
    rw [Forest.positionsAt, hkids, List.count_cons, List.count_cons_of_ne hne,
      List.count_cons_of_ne hne', List.count_nil]
    split <;> omega
  omega

/-! ## What comes before a branch -/

/-- A copy into a phi has no consumers. -/
theorem Planted.not_kid_phiMove (hp : Planted f trees w) (hrec : w.Recorded next os trees.flatten)
    (hop : (w.forest.node q).op = .phiMove) (p : NodeId) : q ∉ w.forest.kidOwners p := by
  intro hkid
  have hq := Forest.lt_size_of_op hop NodeOp.noConfusion
  have hnone := (hp.building.nodes q hq).moves hop
  rw [hrec.ledger.conserved, hrec.ledger.held] at hnone
  exact Nat.ne_of_gt (Forest.positions_pos hkid) hnone

/-- So it cannot be left to them. -/
theorem Planted.not_mayWait_phiMove (hp : Planted f trees w) (hrec : w.Recorded next os trees.flatten)
    (hop : (w.forest.node q).op = .phiMove) : ¬ w.forest.MayWait q := by
  rintro ⟨-, -, p, hkid⟩
  have htarget := hp.target_of_ne_phi (by rw [hop]; exact NodeOp.noConfusion)
  rw [Forest.owner_of_target htarget] at hkid
  exact hp.not_kid_phiMove hrec hop p hkid

namespace Visited

variable (hp : Planted f trees w) (hrec : w.Recorded next os trees.flatten)
  (h : Visited w.forest done g)
include hp hrec h

omit hp hrec in
/-- A node is done with the root that holds its children. -/
theorem done_of_heldBy (hheld : w.forest.HeldBy p r) (hr : g.Done r) : g.Done p := by
  rcases hheld with rfl | ⟨-, -, hkid⟩
  · exact hr
  · exact h.done_of_kid hr hkid

variable (hbranch : (w.forest.node p).op = .inst .br)
include hbranch

/-- If all roots of the block that come after a value are done, but for the branch, then all other readers
of the value are. -/
theorem done_reader (hroots : ∀ r, q < r → r ≠ p → r ∈ trees.flatten →
      (w.forest.node r).block = some home → g.Done r)
    (hq : w.Results id q) (hphi : (w.forest.node q).op ≠ .inst .phi)
    (hescapes : (w.forest.node q).escapes = false) (hhome : (w.forest.node q).block = some home)
    (hkid : q ∈ w.forest.kidOwners c) (hne : c ≠ p) : g.Done c := by
  obtain ⟨r, hheld, hlt, hr, hblock⟩ := hp.reader_home hrec hq hphi hescapes hhome hkid
  refine h.done_of_heldBy hheld (hroots r hlt ?_ hr hblock)
  rintro rfl
  rcases hheld with rfl | ⟨hcall, -⟩
  · exact hne rfl
  · exact absurd (hcall.symm.trans hbranch) (by simp)

/-- **Branches.** When a branch is reached, the roots of its block that come after the value it reads are
done. -/
theorem done_before_branch (hwell : f.WellFormed) (hall : trees.flatten = done ++ p :: later)
    (hhome : (w.forest.node p).block = some home) (hk : k ∈ w.forest.kidOwners p)
    (hinst : ∃ o, (w.forest.node k).op = .inst o) (hlt : k < q) (hne : q ≠ p)
    (hq : q ∈ trees.flatten) (hblock : (w.forest.node q).block = some home) : g.Done q := by
  -- from the youngest to the oldest
  induction hn : w.forest.size - q using Nat.strong_induction_on generalizing q with
  | _ n ih =>
    have hsize := (hp.root hq).1
    have hdone : q ∈ done := (hp.mem_done_iff hall hq).mpr <|
      Nat.lt_of_le_of_ne (hp.le_branch hwell hbranch hhome hq hblock) hne
    have hroots : ∀ r, q < r → r ≠ p → r ∈ trees.flatten → (w.forest.node r).block = some home →
        g.Done r := fun r hqr hrp hr hblock ↦
      ih _ (hn ▸ Nat.sub_lt_sub_left hsize hqr) (Nat.lt_trans hlt hqr) hrp hr hblock rfl
    rcases h.visited q hdone with hdone | hwait
    · exact hdone
    · have hnil : (w.forest.node q).kids = [] → g.Done q :=
        fun hkids ↦ Or.inr ((h.skeleton.kids q).trans hkids)
      rcases (hp.root hq).2 with hmove | ⟨o, ho⟩
      · exact absurd hwait (hp.not_mayWait_phiMove hrec hmove)
      · obtain ⟨_, id, i, -, hshape⟩ := (hp.building.nodes q hsize).shape.of_inst ho
        rcases hshape with ⟨-, _, his, -⟩ | ⟨hnotPhi, kids, his, hkids⟩
        · exact hnil (Node.kids_of_core his.2)
        · rcases hwait.escapes with hescapes | halloca
          · have hphi : (w.forest.node q).op ≠ .inst .phi := by
              rw [his.op]
              intro heq
              rw [Operation.isPhi_iff.mpr (NodeOp.inst.inj heq)] at hnotPhi
              exact Bool.false_ne_true hnotPhi.symm
            obtain ⟨c, hc⟩ := hwait.consumed
            rw [Forest.owner_of_target (hp.target_of_ne_phi hphi)] at hc
            refine h.done_of_kid (h.done_reader hp hrec hbranch hroots ⟨hsize, ⟨o, ho⟩, his.source⟩ hphi
              hescapes hblock hc ?_) hc
            rintro rfl
            -- the branch reads one value only
            exact Nat.ne_of_gt hlt (hp.eq_of_branch hbranch hc ⟨o, ho⟩ hk hinst)
          · exact hnil ((Node.kids_of_core his.2).trans (hkids.of_alloca
              (NodeOp.inst.inj (his.op.symm.trans halloca))))

end Visited

end TreeCover
