import TreeCover.Proofs.Forest.Shape

/-!
# Building a forest

What holds of a workspace at every moment while the forest of a function is built: all nodes have
shapes, and whatever is used has references. One lemma for each part of the work says what it adds.
-/

namespace TreeCover

open Ir Machine Work

variable {f : Func} {w w' w'' u : Workspace} {k c t : NodeId} {b : BlockId} {id : InstId}
  {i : ResolvedInst} {kids roots : List NodeId} {n : Node} {idx : Nat}

namespace Workspace

/-! ## Shapes and aliases -/

theorem Denotes.lt {p : Place Value BlockId} (h : w.Denotes f p k) : k < w.forest.size := by
  cases h with
  | int _ hk => exact hk.1
  | float hk => exact hk.1
  | arg _ hk => exact hk.1
  | inst hk => exact hk.1
  | block _ hk => exact hk.1

/-- What stands for an operand is no copy into a phi. -/
theorem Denotes.op_ne {p : Place Value BlockId} (h : w.Denotes f p k) :
    (w.forest.node k).op ≠ .phiMove := by
  have hop : ∀ {n}, w.Is k n → n.op ≠ .phiMove → (w.forest.node k).op ≠ .phiMove :=
    fun hk hn heq ↦ hn ((Node.op_of_core hk.2).symm.trans heq)
  cases h with
  | int _ hk => exact hop hk NodeOp.noConfusion
  | float hk => exact hop hk NodeOp.noConfusion
  | arg _ hk => exact hop hk NodeOp.noConfusion
  | inst hk =>
    obtain ⟨-, ⟨o, ho⟩, -⟩ := hk
    rw [ho]
    exact NodeOp.noConfusion
  | block _ hk => exact hop hk NodeOp.noConfusion

theorem Denotes.of_mem {ps : List (Place Value BlockId)}
    (h : List.Forall₂ (w.Denotes f) ps kids) (hc : c ∈ kids) : ∃ p, w.Denotes f p c := by
  induction h with
  | nil => exact absurd hc List.not_mem_nil
  | cons hk _ ih =>
    rcases List.mem_cons.mp hc with rfl | hc
    · exact ⟨_, hk⟩
    · exact ih hc

theorem Denotes.lt_of_mem {ps : List (Place Value BlockId)}
    (h : List.Forall₂ (w.Denotes f) ps kids) (hc : c ∈ kids) : c < w.forest.size :=
  (Denotes.of_mem h hc).elim fun _ hk ↦ hk.lt

/-- An alias stands for the register of a phi. -/
theorem Shape.target (h : w.Shape f k) (ht : (w.forest.node k).target = some t) :
    t < k ∧ ∃ b id i v, w.Is t (.ofPhi b id i v) := by
  have hnone : ∀ {n}, w.Is k n → n.target = none → t < k ∧ ∃ b id i v, w.Is t (.ofPhi b id i v) :=
    fun hk hn ↦ absurd (ht.symm.trans ((Node.target_of_core hk.2).trans hn)) (Option.some_ne_none t)
  cases h with
  | phiUse _ _ hk _ hold =>
    obtain ⟨hlt, b, i, v, hphi⟩ := hold t ((Node.target_of_core hk.2).symm.trans ht)
    exact ⟨hlt, b, _, i, v, hphi⟩
  | argument _ hk => exact hnone hk rfl
  | constant hk => exact hnone hk rfl
  | label hk => exact hnone hk rfl
  | pad hk => exact hnone hk rfl
  | phi _ hk => exact hnone hk rfl
  | args hk => exact hnone hk rfl
  | inst _ _ hk => exact hnone hk rfl
  | phiMove _ _ _ hk => exact hnone hk rfl

theorem HasKids.lt {op : Operation Value BlockId} (h : w.HasKids f k op kids)
    (hc : c ∈ kids) : c < w.forest.size := by
  cases h with
  | call hlist => exact List.mem_singleton.mp hc ▸ hlist.1
  | br hkid _ hfirst hsecond =>
    simp only [List.mem_cons, List.not_mem_nil, or_false] at hc
    rcases hc with rfl | rfl | rfl
    · exact hkid.lt
    · exact hfirst.1
    · exact hsecond.1
  | other _ _ hkids => exact Denotes.lt_of_mem hkids hc

theorem Shape.kids_lt (h : w.Shape f k) (hc : c ∈ (w.forest.node k).kids) : c < w.forest.size := by
  have hnil : ∀ {n}, w.Is k n → n.kids = [] → c < w.forest.size := by
    intro n hk hn
    rw [Node.kids_of_core hk.2, hn] at hc
    exact absurd hc List.not_mem_nil
  cases h with
  | argument _ hk => exact hnil hk rfl
  | constant hk => exact hnil hk rfl
  | label hk => exact hnil hk rfl
  | pad hk => exact hnil hk rfl
  | phi _ hk => exact hnil hk rfl
  | phiUse _ _ hk => exact hnil hk rfl
  | args hk hold =>
    rw [Node.kids_of_core hk.2] at hc
    exact Nat.lt_trans (Nat.lt_of_succ_lt (hold c hc).1) hk.1
  | inst _ _ hk hkids =>
    rw [Node.kids_of_core hk.2] at hc
    exact hkids.lt hc
  | phiMove _ _ _ hk hkid =>
    rw [Node.kids_of_core hk.2] at hc
    exact List.mem_singleton.mp hc ▸ hkid.lt

/-- Aliases of shaped nodes stand for older nodes that are none. -/
theorem flat_of_shapes (h : ∀ k < w.forest.size, w.Shape f k) : w.forest.Flat := by
  intro k t ht
  by_cases hk : k < w.forest.size
  · obtain ⟨hlt, _, _, _, _, hphi⟩ := (h k hk).target ht
    exact ⟨hlt, Node.target_of_core hphi.2⟩
  · rw [Forest.node_of_le _ (Nat.le_of_not_lt hk)] at ht
    exact absurd ht (by simp)

/-! ## The invariant -/

/-- What is known of a single node. -/
structure Built (f : Func) (w : Workspace) (k : NodeId) : Prop where
  shape : w.Shape f k
  used : ∀ c ∈ (w.forest.node k).kids, 0 < w.forest.refs c
  moves : (w.forest.node k).op = .phiMove → (w.forest.node k).refs = 0
  escapes : ∀ id, w.Results id k → (w.forest.node k).op ≠ .inst .phi → f.escapes id = true →
    (w.forest.node k).escapes = true

/-- What holds of a workspace while the forest of `f` is built. -/
structure Building (f : Func) (w : Workspace) : Prop where
  nodes : ∀ k < w.forest.size, w.Built f k
  values : ∀ v k, w.defs.values.lookup v = some k → w.Denotes f (.operand (.value v)) k
  labels : ∀ b k, w.defs.labels.lookup b = some k → ∃ l, w.Is k (.ofLabel l)
  phis : ∀ id k, w.defs.phis.lookup id = some k → ∃ b i v, w.Is k (.ofPhi b id i v)

theorem Building.flat (h : w.Building f) : w.forest.Flat :=
  flat_of_shapes fun k hk ↦ (h.nodes k hk).shape

/-- A node owns its value, or its value is that of a phi. -/
theorem Building.owner (h : w.Building f) (hk : k < w.forest.size) :
    w.forest.owner k = k ∨ ∃ b id i v, w.Is (w.forest.owner k) (.ofPhi b id i v) := by
  cases ht : (w.forest.node k).target with
  | none => exact Or.inl (Forest.owner_of_target ht)
  | some t =>
    rw [h.flat.owner_alias ht]
    exact Or.inr ((h.nodes k hk).shape.target ht).2

theorem Building.owner_lt (h : w.Building f) (hk : k < w.forest.size) :
    w.forest.owner k < w.forest.size := by
  rcases h.owner hk with howner | ⟨_, _, _, _, hphi⟩
  · rwa [howner]
  · exact hphi.1

/-- References are never taken back, and owners stay. -/
theorem Grows.refs (h : w.Grows w') (hw : w.Building f) (hflat' : w'.forest.Flat)
    (hc : c < w.forest.size) (hrefs : 0 < w.forest.refs c) : 0 < w'.forest.refs c := by
  rw [Forest.refs, h.forest.owner hw.flat hflat' hc]
  exact Nat.lt_of_lt_of_le hrefs (h.forest.refs _ (hw.owner_lt hc))

theorem Building.grows (hw : w.Building f) (hgrows : w.Grows w') (hflat' : w'.forest.Flat)
    (hk : k < w.forest.size) : w'.Built f k := by
  have h := hw.nodes k hk
  have hcore := hgrows.forest.core k hk
  refine ⟨h.shape.grows hgrows, fun c hc ↦ ?_, fun hop ↦ ?_, fun id hid hop hescapes ↦ ?_⟩
  · rw [Node.kids_of_core hcore] at hc
    exact hgrows.refs hw hflat' (h.shape.kids_lt hc) (h.used c hc)
  · have hop' := (Node.op_of_core hcore).symm.trans hop
    exact (hgrows.forest.moves k hk hop').trans (h.moves hop')
  · obtain ⟨-, ⟨o, ho⟩, hsource⟩ := hid
    exact hgrows.forest.escapes k hk (h.escapes id
      ⟨hk, ⟨o, (Node.op_of_core hcore).symm.trans ho⟩, (Node.source_of_core hcore).symm.trans hsource⟩
      (fun hphi ↦ hop ((Node.op_of_core hcore).trans hphi)) hescapes)

/-- What has been built stays as new nodes are added. -/
theorem Building.extend (h : w.Building f) (hgrows : w.Grows w')
    (hshape : ∀ k, w.forest.size ≤ k → k < w'.forest.size → w'.Shape f k)
    (hnew : w'.forest.Flat → ∀ k, w.forest.size ≤ k → k < w'.forest.size → w'.Built f k)
    (hvalues : ∀ v k, w'.defs.values.lookup v = some k →
      w.defs.values.lookup v = some k ∨ w'.Denotes f (.operand (.value v)) k)
    (hlabels : ∀ b k, w'.defs.labels.lookup b = some k →
      w.defs.labels.lookup b = some k ∨ ∃ l, w'.Is k (.ofLabel l)) : w'.Building f := by
  have hflat : w'.forest.Flat := by
    refine flat_of_shapes (f := f) fun k hk ↦ ?_
    by_cases hlt : k < w.forest.size
    · exact (h.nodes k hlt).shape.grows hgrows
    · exact hshape k (Nat.le_of_not_lt hlt) hk
  refine ⟨fun k hk ↦ ?_, fun v k hk ↦ ?_, fun b k hk ↦ ?_, fun id k hk ↦ ?_⟩
  · by_cases hlt : k < w.forest.size
    · exact h.grows hgrows hflat hlt
    · exact hnew hflat k (Nat.le_of_not_lt hlt) hk
  · exact (hvalues v k hk).elim (fun hk ↦ (h.values v k hk).grows hgrows) fun hk ↦ hk
  · exact (hlabels b k hk).elim
      (fun hk ↦ (h.labels b k hk).imp fun _ hl ↦ hl.grows hgrows) fun hk ↦ hk
  · rw [hgrows.phis] at hk
    obtain ⟨b, i, v, hphi⟩ := h.phis id k hk
    exact ⟨b, i, v, hphi.grows hgrows⟩

/-- Work on the forest of `f` that goes from `w` to `w'` and makes no node for an instruction. -/
structure AddsLeaves (f : Func) (w w' : Workspace) : Prop where
  building : w'.Building f
  grows : w.Grows w'
  leaves : ∀ k, w.forest.size ≤ k → k < w'.forest.size → ∀ o, (w'.forest.node k).op ≠ .inst o

theorem AddsLeaves.of_size (hw' : w'.Building f) (hgrows : w.Grows w')
    (hsize : w'.forest.size ≤ w.forest.size) : w.AddsLeaves f w' :=
  ⟨hw', hgrows, fun _ hle hlt ↦ absurd (Nat.lt_of_lt_of_le hlt hsize) (Nat.not_lt.mpr hle)⟩

theorem AddsLeaves.refl (h : w.Building f) : w.AddsLeaves f w := .of_size h (.refl w) (Nat.le_refl _)

theorem AddsLeaves.trans (h : w.AddsLeaves f w') (h' : w'.AddsLeaves f w'') :
    w.AddsLeaves f w'' := by
  refine ⟨h'.building, h.grows.trans h'.grows, fun k hle hlt o hop ↦ ?_⟩
  by_cases hk : k < w'.forest.size
  · exact h.leaves k hle hk o ((Node.op_of_core (h'.grows.forest.core k hk)).symm.trans hop)
  · exact h'.leaves k (Nat.le_of_not_lt hk) hlt o hop

/-- Using nodes builds nothing new. -/
theorem Building.use (h : w.Building f) (huses : w.forest.Uses u.forest)
    (hdefs : u.defs = w.defs) (hcode : u.code = w.code) : w.AddsLeaves f u := by
  have hgrows : w.Grows u := ⟨huses.toGrows, .of_eq hcode, by rw [hdefs], fun _ _ h ↦ by rwa [hdefs]⟩
  have hsize : u.forest.size ≤ w.forest.size := Nat.le_of_eq huses.size_eq
  refine .of_size (h.extend hgrows (fun k hle hlt ↦ ?_) (fun _ k hle hlt ↦ ?_)
    (fun _ _ hk ↦ Or.inl ?_) fun _ _ hk ↦ Or.inl ?_) hgrows hsize
  · exact absurd (Nat.lt_of_lt_of_le hlt hsize) (Nat.not_lt.mpr hle)
  · exact absurd (Nat.lt_of_lt_of_le hlt hsize) (Nat.not_lt.mpr hle)
  · rwa [hdefs] at hk
  · rwa [hdefs] at hk

/-- A new node. -/
theorem Building.extendOne (h : w.Building f) (hgrows : w.Grows w')
    (hsize : w'.forest.size = w.forest.size + 1) (hdefs : w'.defs = w.defs)
    (hshape : w'.Shape f w.forest.size)
    (hnew : w'.forest.Flat → w'.Built f w.forest.size) : w'.Building f := by
  have heq : ∀ {k}, w.forest.size ≤ k → k < w'.forest.size → k = w.forest.size := by
    intro k hle hlt
    rw [hsize] at hlt
    exact Nat.le_antisymm (Nat.le_of_lt_succ hlt) hle
  refine h.extend hgrows (fun k hle hlt ↦ heq hle hlt ▸ hshape)
    (fun hflat k hle hlt ↦ heq hle hlt ▸ hnew hflat) (fun _ _ hk ↦ Or.inl ?_)
    fun _ _ hk ↦ Or.inl ?_
  · rwa [hdefs] at hk
  · rwa [hdefs] at hk

/-- A new leaf, which nothing uses yet. -/
theorem Building.push (h : w.Building f) (hforest : u.forest = (w.forest.push n).2)
    (hdefs : u.defs = w.defs) (hcode : u.code = w.code) (hrefs : n.refs = 0)
    (hkids : n.kids = []) (hop : ∀ o, n.op ≠ .inst o)
    (hshape : u.Is w.forest.size n.core → u.Shape f w.forest.size) :
    w.AddsLeaves f u ∧ u.Is w.forest.size n.core := by
  have hself : u.forest.node w.forest.size = n := by
    rw [hforest]
    exact w.forest.node_push_self n
  have hsize : u.forest.size = w.forest.size + 1 := by rw [hforest, Forest.size_push]
  have his : u.Is w.forest.size n.core := ⟨hsize ▸ Nat.lt_succ_self _, by rw [hself]⟩
  have hgrows : w.Grows u :=
    ⟨hforest ▸ w.forest.grows_push n, .of_eq hcode, by rw [hdefs], fun _ _ h ↦ by rwa [hdefs]⟩
  refine ⟨⟨h.extendOne hgrows hsize hdefs (hshape his) fun _ ↦ ⟨hshape his, fun c hc ↦ ?_,
    fun _ ↦ ?_, fun id ⟨_, ⟨o, ho⟩, _⟩ ↦ ?_⟩, hgrows, fun k hle hlt ↦ ?_⟩, his⟩
  · rw [hself, hkids] at hc
    exact absurd hc List.not_mem_nil
  · rw [hself]
    exact hrefs
  · rw [hself] at ho
    exact absurd ho (hop o)
  · rw [hsize] at hlt
    rw [Nat.le_antisymm (Nat.le_of_lt_succ hlt) hle, hself]
    exact hop

/-- A label gets a name that it did not have. -/
theorem Building.nameLabel {l : LabelId} (h : w.Building f) (hk : w.Is k (.ofLabel l))
    (hnone : w.defs.labels.lookup b = none) (hforest : u.forest = w.forest)
    (hdefs : u.defs = { w.defs with labels := (b, k) :: w.defs.labels })
    (hcode : u.code = w.code) : w.AddsLeaves f u ∧ u.Denotes f (.block b) k := by
  have hlookup : ∀ b', u.defs.labels.lookup b' =
      if b' == b then some k else w.defs.labels.lookup b' := by
    intro b'
    rw [hdefs, List.lookup_cons]
    cases b' == b <;> rfl
  have hgrows : w.Grows u := by
    refine ⟨hforest ▸ .refl _, .of_eq hcode, by rw [hdefs], fun b' k' hk' ↦ ?_⟩
    rw [hlookup, if_neg, hk']
    intro heq
    rw [eq_of_beq heq, hnone] at hk'
    exact absurd hk' (by simp)
  have hsize : u.forest.size = w.forest.size := by rw [hforest]
  refine ⟨.of_size (h.extend hgrows (fun k hle hlt ↦ ?_) (fun _ k hle hlt ↦ ?_)
    (fun _ _ hk ↦ Or.inl ?_) fun b' k' hk' ↦ ?_) hgrows (Nat.le_of_eq hsize),
    .block ?_ (hk.grows hgrows)⟩
  · exact absurd (hsize ▸ hlt) (Nat.not_lt.mpr hle)
  · exact absurd (hsize ▸ hlt) (Nat.not_lt.mpr hle)
  · rwa [hdefs] at hk
  · rw [hlookup] at hk'
    split at hk'
    next =>
      obtain rfl := Option.some.inj hk'
      exact Or.inr ⟨l, hk.grows hgrows⟩
    next => exact Or.inl hk'
  · rw [hlookup, if_pos (beq_self_eq_true b)]

/-- A value gets a node that stands for it. -/
theorem Building.nameValue {v : Value} (h : w.Building f) (hk : w.Denotes f (.operand (.value v)) k)
    (hforest : u.forest = w.forest)
    (hdefs : u.defs = { w.defs with values := (v, k) :: w.defs.values })
    (hcode : u.code = w.code) : w.AddsLeaves f u := by
  have hgrows : w.Grows u := ⟨hforest ▸ .refl _, .of_eq hcode, by rw [hdefs], fun _ _ hk ↦ by rwa [hdefs]⟩
  have hsize : u.forest.size = w.forest.size := by rw [hforest]
  refine .of_size (h.extend hgrows (fun k hle hlt ↦ ?_) (fun _ k hle hlt ↦ ?_) (fun v' k' hk' ↦ ?_)
    fun _ _ hk ↦ Or.inl ?_) hgrows (Nat.le_of_eq hsize)
  · exact absurd (hsize ▸ hlt) (Nat.not_lt.mpr hle)
  · exact absurd (hsize ▸ hlt) (Nat.not_lt.mpr hle)
  · rw [hdefs, List.lookup_cons] at hk'
    split at hk'
    next heq =>
      obtain rfl := Option.some.inj hk'
      rw [eq_of_beq heq]
      exact Or.inr (hk.grows hgrows)
    next => exact Or.inl hk'
  · rwa [hdefs] at hk

/-- Taking a reference to a value, which is no copy into a phi. -/
theorem Building.takeRef (h : w.Building f) (hk : k < w.forest.size)
    (hop : (w.forest.node k).op ≠ .phiMove) :
    w.AddsLeaves f { w with forest := w.forest.takeRef k } ∧ 0 < (w.forest.takeRef k).refs k := by
  have huses : w.forest.Uses (w.forest.takeRef k) := by
    refine w.forest.uses_takeRef k ?_
    rcases h.owner hk with howner | ⟨_, _, _, _, hphi⟩
    · rwa [howner]
    · rw [Node.op_of_core hphi.2]
      exact NodeOp.noConfusion
  have hbuilds : w.AddsLeaves f { w with forest := w.forest.takeRef k } := h.use huses rfl rfl
  have hnode := w.forest.node_update_self (fun n ↦ { n with refs := n.refs + 1 }) (h.owner_lt hk)
  refine ⟨hbuilds, ?_⟩
  rw [Forest.refs, huses.owner h.flat hbuilds.building.flat hk, Forest.takeRef, hnode]
  exact Nat.succ_pos _

end Workspace

/-! ## Operands -/

section Operands

variable (h : w.Building f)
include h

theorem constantLeaf_builds {a : Constant} {width : Nat} (hx : constantLeaf a width w = .ok k w') :
    w.AddsLeaves f w' ∧ w'.Is k (.ofConstant a width) ∧ 0 < w'.forest.refs k := by
  simp only [constantLeaf, modifyForest, bind_eq_ok, modifyGet_eq_ok, modify_eq_ok,
    pure_eq_ok] at hx
  obtain ⟨_, _, ⟨rfl, rfl⟩, _, _, rfl, rfl, rfl⟩ := hx
  obtain ⟨hpush, his⟩ := h.push (u := { w with forest := (w.forest.addConstant a width).2 })
    rfl rfl rfl rfl rfl (fun _ ↦ NodeOp.noConfusion) .constant
  obtain ⟨htake, hrefs⟩ := hpush.building.takeRef his.1
    (by rw [Node.op_of_core his.2]; exact NodeOp.noConfusion)
  exact ⟨hpush.trans htake, his.grows htake.grows, hrefs⟩

omit h in
theorem operand_float {x : Binary64} (hx : operand id i idx (.float x) w = .ok k w') :
    constantLeaf (.float x) 64 w = .ok k w' := by
  simp only [operand] at hx
  cases hty : i.ty with
  | int bits =>
    simp only [hty] at hx
    by_cases hstore : i.opcode = .store
    · rwa [if_pos hstore] at hx
    · rw [if_neg hstore] at hx
      exact absurd hx throw_ne_ok
  | _ => simpa only [hty] using hx

/-- A value is used wherever an operand names it. -/
theorem operand_builds {o : Ir.Operand Value} (hx : operand id i idx o w = .ok k w') :
    w.AddsLeaves f w' ∧ w'.Denotes f (.operand o) k ∧ 0 < w'.forest.refs k := by
  cases o with
  | int n bits =>
    rw [operand] at hx
    cases hcast : castInt n bits with
    | ok a =>
      rw [hcast] at hx
      obtain ⟨hbuilds, his, hrefs⟩ := constantLeaf_builds h hx
      exact ⟨hbuilds, .int hcast his, hrefs⟩
    | error e =>
      rw [hcast] at hx
      exact absurd hx throw_ne_ok
  | float x =>
    obtain ⟨hbuilds, his, hrefs⟩ := constantLeaf_builds h (operand_float hx)
    exact ⟨hbuilds, .float his, hrefs⟩
  | value v =>
    simp only [operand, bind_eq_ok, get_eq_ok] at hx
    obtain ⟨_, _, ⟨rfl, rfl⟩, hx⟩ := hx
    rename Workspace => w
    cases hlookup : w.defs.values.lookup v with
    | none =>
      rw [hlookup] at hx
      exact absurd hx throw_ne_ok
    | some k' =>
      simp only [hlookup, modifyForest, bind_eq_ok, modify_eq_ok, pure_eq_ok] at hx
      obtain ⟨_, _, rfl, rfl, rfl⟩ := hx
      have hdenotes := h.values v k hlookup
      obtain ⟨htake, hrefs⟩ := h.takeRef hdenotes.lt hdenotes.op_ne
      have hlog := htake.building.use (u :=
        { w with forest := (w.forest.takeRef k).logAccess .read k })
        (Forest.uses_logAccess _ .read k) rfl rfl
      exact ⟨htake.trans hlog, hdenotes.grows (htake.trans hlog).grows,
        hlog.grows.refs htake.building hlog.building.flat (hdenotes.grows htake.grows).lt hrefs⟩

theorem labelOf_builds (hx : labelOf b w = .ok k w') :
    w.AddsLeaves f w' ∧ w'.Denotes f (.block b) k := by
  simp only [labelOf, bind_eq_ok, get_eq_ok] at hx
  obtain ⟨_, _, ⟨rfl, rfl⟩, hx⟩ := hx
  rename Workspace => w
  cases hlookup : w.defs.labels.lookup b with
  | some k' =>
    rw [hlookup] at hx
    obtain ⟨rfl, rfl⟩ := pure_eq_ok.mp hx
    obtain ⟨l, his⟩ := h.labels b k hlookup
    exact ⟨.refl h, .block hlookup his⟩
  | none =>
    simp only [hlookup, freshLabel, push, modifyDefs, bind_eq_ok, modifyGet_eq_ok, modify_eq_ok,
      pure_eq_ok] at hx
    obtain ⟨l, _, ⟨-, rfl⟩, _, _, ⟨rfl, rfl⟩, _, _, rfl, rfl, rfl⟩ := hx
    obtain ⟨hpush, his⟩ := h.push (u := { w with
      forest := (w.forest.push { op := .label, width := 0, slot := .label l }).2 })
      rfl rfl rfl rfl rfl (fun _ ↦ NodeOp.noConfusion) .label
    obtain ⟨hname, hdenotes⟩ := hpush.building.nameLabel (u := { w with
      session := w.session.freshLabel.2
      forest := (w.forest.push { op := .label, width := 0, slot := .label l }).2
      defs := { w.defs with labels := (b, w.forest.size) :: w.defs.labels } })
      his hlookup rfl rfl rfl
    exact ⟨hpush.trans hname, hdenotes⟩

theorem place_builds {p : Place Value BlockId} (hx : place id i idx p w = .ok k w') :
    w.AddsLeaves f w' ∧ w'.Denotes f p k ∧ 0 < w'.forest.refs k := by
  cases p with
  | operand o => exact operand_builds h hx
  | block b =>
    simp only [place, modifyForest, bind_eq_ok, modify_eq_ok, pure_eq_ok] at hx
    obtain ⟨k', w₁, hlabel, _, _, rfl, rfl, rfl⟩ := hx
    obtain ⟨hbuilds, hdenotes⟩ := labelOf_builds h hlabel
    obtain ⟨htake, hrefs⟩ := hbuilds.building.takeRef hdenotes.lt hdenotes.op_ne
    exact ⟨hbuilds.trans htake, hdenotes.grows htake.grows, hrefs⟩

/-- The operands of an instruction, from left to right. -/
theorem places_builds {ps : List (Place Value BlockId × Nat)}
    (hx : (ps.mapM fun (p, idx) ↦ place id i idx p : Work (List NodeId)) w = .ok kids w') :
    w.AddsLeaves f w' ∧ List.Forall₂ (w'.Denotes f) (ps.map (·.1)) kids ∧
      ∀ k ∈ kids, 0 < w'.forest.refs k := by
  induction ps generalizing w kids with
  | nil =>
    obtain ⟨rfl, rfl⟩ := mapM_nil_eq_ok.mp hx
    exact ⟨.refl h, .nil, fun _ hk ↦ absurd hk List.not_mem_nil⟩
  | cons p ps ih =>
    obtain ⟨k, w₁, ks, hk, hks, rfl⟩ := mapM_cons_eq_ok.mp hx
    obtain ⟨hbuilds, hdenotes, hrefs⟩ := place_builds h hk
    obtain ⟨hbuilds', hdenotes', hrefs'⟩ := ih hbuilds.building hks
    refine ⟨hbuilds.trans hbuilds', .cons (hdenotes.grows hbuilds'.grows) hdenotes', ?_⟩
    exact List.forall_mem_cons.mpr ⟨hbuilds'.grows.refs hbuilds.building hbuilds'.building.flat
      hdenotes.lt hrefs, hrefs'⟩

end Operands

end TreeCover
