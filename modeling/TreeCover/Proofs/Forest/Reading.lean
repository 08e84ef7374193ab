import TreeCover.Proofs.Forest.Trees
import TreeCover.Proofs.Forest.Ledger

/-!
# Reading operands

While a function is built, an operand is read when it is resolved: the node it stands for gets a
reference, which is owed until the node has become a child. Each part of the work reads the operands
that the text of the function has there, and nothing else.
-/

namespace TreeCover

open Ir Machine Work

variable {f : Func} {w w' w'' w₁ w₂ u : Workspace} {g g' : Forest} {k c p s t x : NodeId}
  {b : BlockId} {id : InstId} {i : ResolvedInst} {kids roots owed : List NodeId} {n : Node}
  {idx : Nat} {o : Ir.Operand Value} {os os' : List (Ir.Operand Value)} {ms ms' : List NodeId}

/-! ## Operands that are read -/

namespace Ir

/-- The operand at a position that does not name a block. -/
def Place.operand? {ν β : Type} : Place ν β → Option (Operand ν)
  | .operand o => some o
  | .block _ => none

/-- The operands of an operation. -/
def Operation.operands (op : Operation Value BlockId) : List (Operand Value) :=
  op.places.filterMap (·.operand?)

namespace Func

/-- The operands that phis read at the end of block `b`, one for each phi on each edge. -/
def edgeOperands (f : Func) (b : BlockId) : List (Operand Value) :=
  (f.succsOf b).flatMap fun succ ↦ (f.blockPhis succ).filterMap fun x ↦
    (x.2.operation.incoming.find? (·.2 == b)).map (·.1)

/-- The operands that are read for an instruction of block `b`. A phi reads nothing where it stands,
and a terminator is preceded by the reads of the phis of all successors. -/
def stepOperands (f : Func) (b : BlockId) (i : ResolvedInst) : List (Operand Value) :=
  if i.operation.isPhi then []
  else (if i.opcode.isTerminator then f.edgeOperands b else []) ++ i.operation.operands

/-- The operands that are read in block `b`. -/
def blockOperands (f : Func) (b : BlockId) : List (Operand Value) :=
  (f.blockInsts b).flatMap fun x ↦ f.stepOperands b x.2

/-- How many operands read the result of an instruction. -/
def reads (f : Func) (id : InstId) : Nat :=
  ((List.range f.blocks.length).flatMap f.blockOperands).countP (·.isResult id)

end Func

end Ir

/-! ## Counting reads -/

namespace Workspace

/-- Work on the forest of `f` that reads the operands `os` and makes the copies `ms` into phis. The
node of an instruction whose result has a name gets a reference for each operand that reads it, and no
operand reads a result without a name. -/
structure Records (f : Func) (os : List (Ir.Operand Value)) (ms : List NodeId)
    (w w' : Workspace) : Prop extends BuildsTo f w w' where
  values : w'.defs.values = w.defs.values
  named : ∀ id k, w.defs.values.lookup (.inst id) = some k →
    w'.forest.refs k = w.forest.refs k + os.countP (·.isResult id)
  unnamed : ∀ id, w.defs.values.lookup (.inst id) = none → os.countP (·.isResult id) = 0
  others : ∀ x id, (w'.forest.node x).source = some id →
    (∀ k, w.defs.values.lookup (.inst id) = some k → w.forest.owner k ≠ x) →
    (w'.forest.node x).refs = (w.forest.node x).refs
  moves : ∀ x, w.forest.size ≤ x → (w'.forest.node x).op = .phiMove → x ∈ ms
  lists : ∀ x, w.forest.size ≤ x → x < w'.forest.size → (w'.forest.node x).op = .args →
    0 < (w'.forest.node x).refs

/-- The owner of a result knows the instruction. -/
theorem Building.source_owner (h : w.Building f) (hk : w.Results id k) :
    (w.forest.node (w.forest.owner k)).source = some id := by
  obtain ⟨hlt, ⟨o, ho⟩, hsource⟩ := hk
  cases ht : (w.forest.node k).target with
  | none => rwa [Forest.owner_of_target ht]
  | some t =>
    rw [h.flat.owner_alias ht]
    have hnone : ∀ {n}, w.Is k n → n.target = none → (w.forest.node t).source = some id :=
      fun hk hn ↦ absurd (ht.symm.trans ((Node.target_of_core hk.2).trans hn)) (by simp)
    cases (h.nodes k hlt).shape with
    | phiUse _ _ his htarget hold =>
      obtain ⟨-, b, i, v, hphi⟩ := hold t ((Node.target_of_core his.2).symm.trans ht)
      rw [Node.source_of_core hphi.2, ← hsource, Node.source_of_core his.2]
      rfl
    | argument _ his => exact hnone his rfl
    | constant his => exact hnone his rfl
    | label his => exact hnone his rfl
    | pad his => exact hnone his rfl
    | phi _ his => exact hnone his rfl
    | args his => exact hnone his rfl
    | inst _ _ his => exact hnone his rfl
    | phiMove _ _ _ his => exact hnone his rfl

theorem Building.results (h : w.Building f) (hk : w.defs.values.lookup (.inst id) = some k) :
    w.Results id k := by
  have hdenotes := h.values _ _ hk
  cases hdenotes with
  | inst hk => exact hk

theorem Is.op (h : w.Is k n) : (w.forest.node k).op = n.op := Node.op_of_core h.2

theorem Is.source (h : w.Is k n) : (w.forest.node k).source = n.source := Node.source_of_core h.2

namespace Records

theorem trans (h : w.Records f os ms w') (h' : w'.Records f os' ms' w'') (hw : w.Building f) :
    w.Records f (os ++ os') (ms ++ ms') w'' where
  toBuildsTo := h.toBuildsTo.trans h'.toBuildsTo
  values := h'.values.trans h.values
  named id k hk := by
    rw [h'.named id k (h.values ▸ hk), h.named id k hk, List.countP_append, Nat.add_assoc]
  unnamed id hid := by
    rw [List.countP_append, h.unnamed id hid, h'.unnamed id (h.values ▸ hid)]
  others x id hsource hother := by
    have howner : ∀ k, w.defs.values.lookup (.inst id) = some k → w'.forest.owner k ≠ x := by
      intro k hk
      rw [h.grows.forest.owner hw.flat h.building.flat (hw.results hk).1]
      exact hother k hk
    rw [h'.others x id hsource (h.values.symm ▸ howner)]
    by_cases hx : x < w'.forest.size
    · exact h.others x id ((Node.source_of_core (h'.grows.forest.core x hx)).symm.trans hsource)
        hother
    · rw [Forest.node_of_le _ (Nat.le_of_not_lt hx),
        Forest.node_of_le _ (Nat.le_trans h.grows.forest.size (Nat.le_of_not_lt hx))]
  moves x hle hop := by
    by_cases hx : x < w'.forest.size
    · exact List.mem_append_left _
        (h.moves x hle ((Node.op_of_core (h'.grows.forest.core x hx)).symm.trans hop))
    · exact List.mem_append_right _ (h'.moves x (Nat.le_of_not_lt hx) hop)
  lists x hle hlt hop := by
    by_cases hx : x < w'.forest.size
    · exact Nat.lt_of_lt_of_le
        (h.lists x hle hx ((Node.op_of_core (h'.grows.forest.core x hx)).symm.trans hop))
        (h'.grows.forest.refs x hx)
    · exact h'.lists x (Nat.le_of_not_lt hx) hlt hop

/-- Work that changes nothing about the nodes of instructions. -/
theorem of_refs (hw : w.Building f) (hbuilds : w.BuildsTo f w')
    (hvalues : w'.defs.values = w.defs.values) (hos : ∀ id, os.countP (·.isResult id) = 0)
    (hrefs : ∀ x id, (w'.forest.node x).source = some id →
      (w'.forest.node x).refs = (w.forest.node x).refs)
    (hmoves : ∀ x, w.forest.size ≤ x → (w'.forest.node x).op = .phiMove → x ∈ ms)
    (hlists : ∀ x, w.forest.size ≤ x → x < w'.forest.size → (w'.forest.node x).op = .args →
      0 < (w'.forest.node x).refs) : w.Records f os ms w' where
  toBuildsTo := hbuilds
  values := hvalues
  named id k hk := by
    have hresults := hw.results hk
    rw [hos, Nat.add_zero, Forest.refs, Forest.refs,
      hbuilds.grows.forest.owner hw.flat hbuilds.building.flat hresults.1]
    exact hrefs _ id ((Node.source_of_core (hbuilds.grows.forest.core _
      (hw.owner_lt hresults.1))).trans (hw.source_owner hresults))
  unnamed id _ := hos id
  others x id hsource _ := hrefs x id hsource
  moves := hmoves
  lists := hlists

/-- Work that changes no books. -/
theorem of_books (hw : w.Building f) (hbuilds : w.BuildsTo f w')
    (hvalues : w'.defs.values = w.defs.values) (hbooks : w.forest.SameBooks w'.forest) :
    w.Records f [] [] w' :=
  of_refs hw hbuilds hvalues (fun _ ↦ rfl) (fun x _ _ ↦ hbooks.refs x)
    (fun x hle hop ↦ by
      rw [Forest.node_of_le _ (hbooks.size ▸ hle)] at hop
      exact absurd hop NodeOp.noConfusion)
    fun _ hle hlt ↦ absurd (hbooks.size ▸ hlt) (Nat.not_lt.mpr hle)

theorem refl (hw : w.Building f) : w.Records f [] [] w := of_books hw (.refl hw) rfl (.refl _)

end Records

end Workspace

/-! ## Operands -/

namespace Workspace

/-- A new node that stands for no instruction. -/
theorem Records.push (hw : w.Building f) (hbuilds : w.BuildsTo f w')
    (hvalues : w'.defs.values = w.defs.values) (hforest : w'.forest = (w.forest.push n).2)
    (hsource : n.source = none) (hop : n.op ≠ .phiMove) (hop' : n.op ≠ .args)
    (hos : ∀ id, os.countP (·.isResult id) = 0) : w.Records f os [] w' := by
  refine .of_refs hw hbuilds hvalues hos (fun x id hid ↦ ?_) (fun x hle hmove ↦ ?_)
    fun x hle _ hlist ↦ ?_
  · rw [hforest] at hid ⊢
    rcases w.forest.node_push_cases n x with ⟨-, hnode⟩ | ⟨-, hnode⟩
    · rw [hnode, hsource] at hid
      exact absurd hid (by simp)
    · rw [hnode]
  · rw [hforest] at hmove
    rcases w.forest.node_push_cases n x with ⟨-, hnode⟩ | ⟨-, hnode⟩
    · exact absurd (hnode ▸ hmove) hop
    · rw [hnode, Forest.node_of_le _ hle] at hmove
      exact absurd hmove NodeOp.noConfusion
  · rw [hforest] at hlist
    rcases w.forest.node_push_cases n x with ⟨-, hnode⟩ | ⟨-, hnode⟩
    · exact absurd (hnode ▸ hlist) hop'
    · rw [hnode, Forest.node_of_le _ hle] at hlist
      exact absurd hlist NodeOp.noConfusion

/-- A reference to a node that stands for no instruction. -/
theorem Records.takeRef (hw : w.Building f)
    (hbuilds : w.BuildsTo f { w with forest := w.forest.takeRef k })
    (hsource : (w.forest.node (w.forest.owner k)).source = none) :
    w.Records f [] [] { w with forest := w.forest.takeRef k } := by
  have hsize := (w.forest.samePositions_takeRef k).size
  refine .of_refs hw hbuilds rfl (fun _ ↦ rfl) (fun x id hid ↦ ?_) (fun x hle hmove ↦ ?_)
    fun x hle hlt ↦ absurd (hsize ▸ hlt) (Nat.not_lt.mpr hle)
  · refine w.forest.refs_takeRef_of_ne ?_
    rintro rfl
    rw [Forest.source_takeRef, hsource] at hid
    exact absurd hid (by simp)
  · rw [Forest.op_takeRef, Forest.node_of_le _ hle] at hmove
    exact absurd hmove NodeOp.noConfusion

end Workspace

section Operands

variable (hw : w.Building f) (hl : w.forest.Ledger owed)
include hw hl

theorem constantLeaf_records {a : Constant} {width : Nat} (hx : constantLeaf a width w = .ok k w')
    (hos : ∀ id, os.countP (·.isResult id) = 0) :
    w'.forest.Ledger (w'.forest.owner k :: owed) ∧ w.Records f os [] w' := by
  simp only [constantLeaf, modifyForest, bind_eq_ok, modifyGet_eq_ok, modify_eq_ok,
    pure_eq_ok] at hx
  obtain ⟨_, _, ⟨rfl, rfl⟩, _, _, rfl, rfl, rfl⟩ := hx
  obtain ⟨hpush, his⟩ := hw.push (u := { w with forest := (w.forest.addConstant a width).2 })
    rfl rfl rfl rfl rfl (fun _ ↦ NodeOp.noConfusion) .constant
  obtain ⟨htake, -⟩ := hpush.building.takeRef his.1
    (by rw [Node.op_of_core his.2]; exact NodeOp.noConfusion)
  have hpushed : (w.forest.addConstant a width).2.Ledger owed :=
    hl.push rfl rfl rfl fun t ht ↦ absurd ht (by simp)
  have hself : (w.forest.addConstant a width).2.owner w.forest.size = w.forest.size :=
    Forest.owner_of_target (Node.target_of_core his.2)
  refine ⟨hpushed.takeRef his.1, ?_⟩
  rw [← List.append_nil os, ← List.append_nil ([] : List NodeId)]
  exact (Workspace.Records.push hw hpush.buildsTo rfl rfl rfl NodeOp.noConfusion NodeOp.noConfusion hos).trans
    (.takeRef hpush.building htake.buildsTo (hself.symm ▸ his.source)) hw

/-- Resolving an operand reads it once, and owes the reference to its node. -/
theorem operand_records (hx : operand id i idx o w = .ok k w') :
    w'.forest.Ledger (w'.forest.owner k :: owed) ∧ w.Records f [o] [] w' := by
  have hbuilds := (operand_builds hw hx).1.buildsTo
  cases o with
  | int m bits =>
    rw [operand] at hx
    cases hcast : castInt m bits with
    | ok a =>
      rw [hcast] at hx
      exact constantLeaf_records hw hl hx fun _ ↦ rfl
    | error e =>
      rw [hcast] at hx
      exact absurd hx throw_ne_ok
  | float y => exact constantLeaf_records hw hl (operand_float hx) fun _ ↦ rfl
  | value v =>
    simp only [operand, bind_eq_ok, get_eq_ok] at hx
    obtain ⟨_, _, ⟨rfl, rfl⟩, hx⟩ := hx
    rename Workspace => w
    cases hlookup : w.defs.values.lookup v with
    | none =>
      rw [hlookup] at hx
      exact absurd hx throw_ne_ok
    | some k' =>
      simp only [hlookup, modifyForest, bind_eq_ok, modify_eq_ok, pure_eq_ok] at hx
      obtain ⟨_, _, rfl, rfl, rfl⟩ := hx
      have hdenotes := hw.values v k hlookup
      have hlog := (w.forest.takeRef k).sameBooks_logAccess .read k
      have howner : ∀ id, ((w.forest.takeRef k).logAccess .read k).owner id = w.forest.owner id :=
        fun id ↦ (hlog.owner id).trans ((w.forest.samePositions_takeRef k).owner id)
      have hother : ∀ x, x ≠ w.forest.owner k →
          (((w.forest.takeRef k).logAccess .read k).node x).refs = (w.forest.node x).refs :=
        fun x hx ↦ (hlog.refs x).trans (w.forest.refs_takeRef_of_ne hx)
      have hsize : ((w.forest.takeRef k).logAccess .read k).size = w.forest.size :=
        hlog.size.trans (w.forest.samePositions_takeRef k).size
      have hmoves : ∀ x, w.forest.size ≤ x →
          (((w.forest.takeRef k).logAccess .read k).node x).op = .phiMove → x ∈ ([] : List NodeId) := by
        intro x hle hop
        rw [Forest.node_of_le _ (hsize.symm ▸ hle)] at hop
        exact absurd hop NodeOp.noConfusion
      have hcore : ∀ x < w.forest.size,
          (((w.forest.takeRef k).logAccess .read k).node x).source = (w.forest.node x).source :=
        fun x hx ↦ (Node.source_of_core (hbuilds.grows.forest.core x hx) :)
      refine ⟨?_, ?_⟩
      · have htaken := (hl.takeRef hdenotes.lt).books hlog
        rwa [← hlog.owner k] at htaken
      · cases hdenotes with
        | arg hp his =>
          have hself : w.forest.owner k = k := Forest.owner_of_target (Node.target_of_core his.2)
          refine .of_refs hw hbuilds rfl (fun _ ↦ rfl) (fun x id hsource ↦ hother x ?_) hmoves
            fun _ hle hlt ↦ absurd (hsize ▸ hlt) (Nat.not_lt.mpr hle)
          rintro rfl
          rw [hself, hcore k his.1, his.source] at hsource
          exact absurd hsource (by simp [Node.ofArgument])
        | @inst id₀ _ hresults =>
          have hlt := hw.owner_lt hresults.1
          have hsource₀ := hw.source_owner hresults
          have hcount : ∀ id, id ≠ id₀ →
              [Ir.Operand.value (.inst id₀)].countP (·.isResult id) = 0 := by
            intro id hid
            rw [List.countP_singleton, Operand.isResult, if_neg (by simpa using Ne.symm hid)]
          refine ⟨hbuilds, rfl, fun id k' hk' ↦ ?_, fun id hid ↦ hcount id ?_,
            fun x id hsource hne ↦ hother x ?_, hmoves,
            fun _ hle hlt ↦ absurd (hsize ▸ hlt) (Nat.not_lt.mpr hle)⟩
          · change (Forest.node _ (Forest.owner _ k')).refs = _
            rw [howner, Forest.refs]
            by_cases hid : id = id₀
            · subst hid
              obtain rfl := Option.some.inj (hk'.symm.trans hlookup)
              rw [hlog.refs, Forest.takeRef, Forest.node_update_self _ _ hlt,
                List.countP_singleton, Operand.isResult, if_pos (by simp)]
            · have hne : w.forest.owner k' ≠ w.forest.owner k := by
                intro heq
                have hsource := hw.source_owner (hw.results hk')
                rw [heq, hsource₀] at hsource
                exact hid (Option.some.inj hsource).symm
              rw [hcount id hid, hother _ hne]
              rfl
          · rintro rfl
            exact absurd (hid.symm.trans hlookup) (by simp)
          · rintro rfl
            rw [hcore _ hlt, hsource₀] at hsource
            obtain rfl := Option.some.inj hsource
            exact hne k hlookup rfl

theorem labelOf_records (hx : labelOf b w = .ok k w') :
    w'.forest.Ledger owed ∧ w.Records f [] [] w' := by
  have hbuilds := (labelOf_builds hw hx).1.buildsTo
  simp only [labelOf, bind_eq_ok, get_eq_ok] at hx
  obtain ⟨_, _, ⟨rfl, rfl⟩, hx⟩ := hx
  rename Workspace => w
  cases hlookup : w.defs.labels.lookup b with
  | some k' =>
    rw [hlookup] at hx
    obtain ⟨rfl, rfl⟩ := pure_eq_ok.mp hx
    exact ⟨hl, .refl hw⟩
  | none =>
    simp only [hlookup, freshLabel, push, modifyDefs, bind_eq_ok, modifyGet_eq_ok, modify_eq_ok,
      pure_eq_ok] at hx
    obtain ⟨l, _, ⟨-, rfl⟩, _, _, ⟨rfl, rfl⟩, _, _, rfl, rfl, rfl⟩ := hx
    exact ⟨hl.push rfl rfl rfl fun t ht ↦ absurd ht (by simp),
      .push hw hbuilds rfl rfl rfl NodeOp.noConfusion NodeOp.noConfusion fun _ ↦ rfl⟩

theorem place_records {p : Place Value BlockId} (hx : place id i idx p w = .ok k w') :
    w'.forest.Ledger (w'.forest.owner k :: owed) ∧ w.Records f p.operand?.toList [] w' := by
  cases p with
  | operand o => exact operand_records hw hl hx
  | block b =>
    simp only [place, modifyForest, bind_eq_ok, modify_eq_ok, pure_eq_ok] at hx
    obtain ⟨k', w₁, hlabel, _, _, rfl, rfl, rfl⟩ := hx
    obtain ⟨hadds, hdenotes⟩ := labelOf_builds hw hlabel
    obtain ⟨hledger, hrecords⟩ := labelOf_records hw hl hlabel
    obtain ⟨htake, -⟩ := hadds.building.takeRef hdenotes.lt hdenotes.op_ne
    refine ⟨hledger.takeRef hdenotes.lt, hrecords.trans (.takeRef hadds.building htake.buildsTo ?_) hw⟩
    cases hdenotes with
    | block _ his =>
      rw [Forest.owner_of_target (Node.target_of_core his.2)]
      exact his.source

/-- The operands of an instruction are read from left to right, and their references are owed until
they become children. -/
theorem places_records {ps : List (Place Value BlockId × Nat)}
    (hx : (ps.mapM fun (p, idx) ↦ place id i idx p : Work (List NodeId)) w = .ok kids w') :
    w'.forest.Ledger (kids.map w'.forest.owner ++ owed) ∧
      w.Records f ((ps.map (·.1)).filterMap (·.operand?)) [] w' := by
  induction ps generalizing w kids owed with
  | nil =>
    obtain ⟨rfl, rfl⟩ := mapM_nil_eq_ok.mp hx
    exact ⟨hl, .refl hw⟩
  | cons p ps ih =>
    obtain ⟨k, w₁, ks, hk, hks, rfl⟩ := mapM_cons_eq_ok.mp hx
    obtain ⟨hadds, hdenotes, -⟩ := place_builds hw hk
    obtain ⟨hledger, hrecords⟩ := place_records hw hl hk
    obtain ⟨hledger', hrecords'⟩ := ih hadds.building hledger hks
    have howner : w'.forest.owner k = w₁.forest.owner k :=
      hrecords'.grows.forest.owner hledger.flat hledger'.flat hdenotes.lt
    refine ⟨hledger'.perm ?_, ?_⟩
    · rw [List.map_cons, howner]
      exact List.perm_middle
    · have hall := hrecords.trans hrecords' hw
      rw [List.map_cons, List.filterMap_cons]
      cases hp : p.1.operand? <;> rw [hp] at hall <;> exact hall

end Operands

/-! ## Instructions -/

/-- The references to the operands of an instruction become positions, and its glue takes references
of its own. -/
theorem attach_records (hl : w.forest.Ledger (kids.map w.forest.owner ++ owed))
    (hkids : ∀ c ∈ kids, c < w.forest.size)
    (hx : attach w.forest.size i.operation kids
      { w with forest := (w.forest.push (Node.bare b id i)).2 } = .ok () w') :
    w'.forest.Ledger owed ∧ ∀ x ≤ w.forest.size, (w'.forest.node x).refs = (w.forest.node x).refs := by
  have hbare := hl.push (n := Node.bare b id i) rfl rfl rfl fun t ht ↦ absurd ht (by simp [Node.bare, Node.ofInst])
  have hsize : (w.forest.push (Node.bare b id i)).2.size = w.forest.size + 1 := w.forest.size_push _
  have hlt : w.forest.size < (w.forest.push (Node.bare b id i)).2.size := hsize ▸ Nat.lt_succ_self _
  have howner : ∀ c ∈ kids, w.forest.owner c = (w.forest.push (Node.bare b id i)).2.owner c :=
    fun c hc ↦ ((w.forest.grows_push _).owner hl.flat hbare.flat (hkids c hc)).symm
  have hrefs : ∀ x ≤ w.forest.size,
      ((w.forest.push (Node.bare b id i)).2.node x).refs = (w.forest.node x).refs := by
    intro x _
    rcases w.forest.node_push_cases (Node.bare b id i) x with ⟨rfl, hnode⟩ | ⟨-, hnode⟩
    · rw [hnode, Forest.node_of_le _ (Nat.le_refl _)]
      rfl
    · rw [hnode]
  rw [List.map_congr_left howner] at hbare
  replace hkids : ∀ c ∈ kids, c < (w.forest.push (Node.bare b id i)).2.size :=
    fun c hc ↦ Nat.lt_trans (hkids c hc) hlt
  generalize (w.forest.push (Node.bare b id i)).2 = g at *
  cases hop : i.operation with
  | call callee args =>
    rw [hop] at hx
    obtain ⟨_, w₁, hpush, hx⟩ := bind_eq_ok.mp hx
    obtain ⟨rfl, rfl⟩ := modifyGet_eq_ok.mp hpush
    obtain ⟨_, w₂, hlist, hx⟩ := bind_eq_ok.mp hx
    obtain rfl := addChildren_ok hlist
    obtain rfl := modify_eq_ok.mp hx
    exact (hbare.adopt_args hlt hkids).imp_right fun hargs x hx ↦
      (hargs x (Nat.lt_of_le_of_lt hx hlt)).trans (hrefs x hx)
  | br t =>
    rw [hop] at hx
    obtain ⟨_, w₁, hlist, hx⟩ := bind_eq_ok.mp hx
    obtain rfl := addChildren_ok hlist
    obtain ⟨_, w₂, hfirst, hsecond⟩ := bind_eq_ok.mp hx
    obtain ⟨_, hfirst⟩ := discard_eq_ok.mp hfirst
    obtain ⟨_, hsecond⟩ := discard_eq_ok.mp hsecond
    obtain ⟨rfl, rfl⟩ := addOwnChild_ok hfirst
    obtain ⟨rfl, rfl⟩ := addOwnChild_ok hsecond
    obtain ⟨hfirst, hsize₁, hrefs₁⟩ := (hbare.addKids hlt hkids).adopt_push (n := Node.pad)
      (p := w.forest.size) (by rwa [Forest.size_addKids]) rfl rfl rfl rfl
    obtain ⟨hsecond, -, hrefs₂⟩ := hfirst.adopt_push (n := Node.pad)
      (p := w.forest.size) (by rw [hsize₁, Forest.size_addKids]; exact Nat.lt_succ_of_lt hlt)
      rfl rfl rfl rfl
    refine ⟨hsecond, fun x hx ↦ ?_⟩
    have hx' := Nat.lt_of_le_of_lt hx hlt
    refine (hrefs₂ x ?_).trans ((hrefs₁ x ?_).trans ?_)
    · rw [hsize₁, Forest.size_addKids]
      exact Nat.lt_succ_of_lt hx'
    · rwa [Forest.size_addKids]
    · rw [Forest.refs_addKids, hrefs x hx]
  | _ =>
    have hx' := hop ▸ hx
    rw [addChildren_ok hx']
    refine ⟨hbare.addKids hlt hkids, fun x hx ↦ ?_⟩
    rw [← hrefs x hx]
    exact g.refs_addKids _ kids x

section Steps

variable (hw : w.Building f) (hl : w.forest.Ledger [])
include hw hl

/-- An instruction reads its operands, and nothing reads it yet. -/
theorem buildInst_records (hi : (id, i) ∈ f.blockInsts b) (hphi : i.operation.isPhi = false)
    (hx : buildInst f b id i w = .ok k w') :
    w'.forest.Ledger [] ∧ w.Records f i.operation.operands [] w' := by
  obtain ⟨kids, w₁, w₂, hplaces, rfl, hattach, rfl⟩ := buildInst_ok hx
  obtain ⟨hadds, hdenotes, hused⟩ := places_builds hw hplaces
  obtain ⟨hledger₁, hrecords⟩ := places_records hw hl hplaces
  rw [List.zipIdx_map_fst] at hdenotes hrecords
  have hkids : ∀ c ∈ kids, c < w₁.forest.size := fun c hc ↦ Workspace.Denotes.lt_of_mem hdenotes hc
  have hattached := attach_ok hdenotes hattach
  obtain ⟨hledger₂, hrefs⟩ := attach_records hledger₁ hkids hattach
  have hbooks : w₂.forest.SameBooks (w₂.forest.finish f id i w₁.forest.size) :=
    w₂.forest.sameBooks_finish
  obtain ⟨hbuilds, ⟨kids', his⟩, -⟩ := hattached.builds hadds.building hi hphi
    (fun c hc ↦ ⟨Workspace.Denotes.of_mem hdenotes hc, hused c hc⟩)
    (u := { w₂ with forest := w₂.forest.finish f id i w₁.forest.size }) rfl rfl rfl
  -- the glue is read by nothing but the instruction
  have hglue : ∀ x, w₁.forest.size < x →
      ((w₂.forest.finish f id i w₁.forest.size).node x).source = none ∧
        ((w₂.forest.finish f id i w₁.forest.size).node x).op ≠ .phiMove := by
    intro x hlt
    have huses : w₂.forest.Uses (w₂.forest.finish f id i w₁.forest.size) := Forest.uses_finish _
    have hcore := huses.core_eq x
    rw [Node.source_of_core hcore, Node.op_of_core hcore]
    by_cases hx : x < w₂.forest.size
    · rcases (hattached.glue x hlt hx).1 with hpad | hargs
      · exact ⟨hpad.source, hpad.op ▸ NodeOp.noConfusion⟩
      · exact ⟨hargs.source, hargs.op ▸ NodeOp.noConfusion⟩
    · rw [Forest.node_of_le _ (Nat.le_of_not_lt hx)]
      exact ⟨rfl, NodeOp.noConfusion⟩
  refine ⟨hledger₂.books hbooks, List.append_nil i.operation.operands ▸ hrecords.trans
    (.of_refs hadds.building hbuilds (by rw [hattached.defs]) (fun _ ↦ rfl) (fun x id' hsource ↦ ?_)
      (fun x hle hmove ↦ ?_) fun x hle hlt hlist ↦ ?_) hw⟩
  · have hx : x ≤ w₁.forest.size := by
      by_contra hlt
      exact absurd ((hglue x (Nat.lt_of_not_le hlt)).1.symm.trans hsource) (by simp)
    exact (hbooks.refs x).trans (hrefs x hx)
  · rcases Nat.eq_or_lt_of_le hle with rfl | hlt
    · exact absurd (his.op.symm.trans hmove) NodeOp.noConfusion
    · exact absurd hmove (hglue x hlt).2
  · rcases Nat.eq_or_lt_of_le hle with rfl | hgt
    · exact absurd (his.op.symm.trans hlist) NodeOp.noConfusion
    · rw [hbooks.refs]
      exact (hattached.glue x hgt (hbooks.size ▸ hlt)).2

/-- The node that stands for a phi reads nothing. -/
theorem buildPhi_records (hi : (id, i) ∈ f.blockInsts b) (hphi : i.operation.isPhi = true)
    (hx : buildPhi b id i w = .ok k w') : w'.forest.Ledger [] ∧ w.Records f [] [] w' := by
  obtain ⟨hbuilds, -, -⟩ := buildPhi_builds hw hi hphi hx
  simp only [buildPhi, push, bind_eq_ok, get_eq_ok, modifyGet_eq_ok] at hx
  obtain ⟨_, _, ⟨rfl, rfl⟩, rfl, rfl⟩ := hx
  rename Workspace => w
  refine ⟨hl.push rfl rfl rfl fun t ht ↦ ?_,
    .of_refs hw hbuilds rfl (fun _ ↦ rfl) (fun x _ _ ↦ ?_) (fun x hle hmove ↦ ?_)
      fun x hle _ hlist ↦ ?_⟩
  · obtain ⟨b', i', v, his⟩ := hw.phis id t ht
    exact ⟨his.1, Node.target_of_core his.2⟩
  · rcases w.forest.node_push_cases _ x with ⟨rfl, hnode⟩ | ⟨-, hnode⟩
    · rw [hnode, Forest.node_of_le _ (Nat.le_refl _)]
    · rw [hnode]
  · rcases w.forest.node_push_cases _ x with ⟨-, hnode⟩ | ⟨-, hnode⟩
    · rw [hnode] at hmove
      exact absurd hmove NodeOp.noConfusion
    · rw [hnode, Forest.node_of_le _ hle] at hmove
      exact absurd hmove NodeOp.noConfusion
  · rcases w.forest.node_push_cases _ x with ⟨-, hnode⟩ | ⟨-, hnode⟩
    · rw [hnode] at hlist
      exact absurd hlist NodeOp.noConfusion
    · rw [hnode, Forest.node_of_le _ hle] at hlist
      exact absurd hlist NodeOp.noConfusion

/-- The copy into a phi reads the operand of its edge. -/
theorem buildPhiMove_records {succ : BlockId} {m : Option NodeId} (hi : (id, i) ∈ f.blockPhis succ)
    (hdeclared : (w.defs.phis.lookup id).isSome) (hx : buildPhiMove f b succ id i w = .ok m w') :
    w'.forest.Ledger [] ∧
      w.Records f ((i.operation.incoming.find? (·.2 == b)).map (·.1)).toList m.toList w' := by
  rw [buildPhiMove] at hx
  cases hfind : i.operation.incoming.zipIdx.find? (·.1.2 == b) with
  | none =>
    rw [hfind] at hx
    exact absurd hx throw_ne_ok
  | some found =>
    obtain ⟨⟨value, pred⟩, idx⟩ := found
    obtain rfl : pred = b := by simpa using List.find?_some hfind
    have hvalue : i.operation.incoming.find? (·.2 == pred) = some (value, pred) := by
      rw [← List.zipIdx_map_fst 0 i.operation.incoming, List.find?_map]
      exact congrArg (Option.map Prod.fst) hfind
    simp only [hfind, bind_eq_ok, get_eq_ok] at hx
    obtain ⟨_, _, ⟨rfl, rfl⟩, hx⟩ := hx
    rename Workspace => w
    obtain ⟨phi, hphi⟩ := Option.isSome_iff_exists.mp hdeclared
    simp only [hphi, modifyForest, push, bind_eq_ok, modifyGet_eq_ok, modify_eq_ok,
      pure_eq_ok] at hx
    obtain ⟨kid, w₁, hkid, _, _, ⟨rfl, rfl⟩, _, _, rfl, rfl, rfl⟩ := hx
    obtain ⟨hadds, hdenotes, hrefs⟩ := operand_builds hw hkid
    obtain ⟨hledger, hrecords⟩ := operand_records hw hl hkid
    obtain ⟨hbuilds, -, his⟩ := push_phiMove (n :=
      { op := .phiMove, width := i.ty.bits, phiTarget := some (phi, succ), block := some pred
        source := some id }) (u := { w₁ with forest := _ }) hadds.building rfl rfl rfl rfl rfl hi
      hfind (hadds.grows.phis ▸ hphi) hdenotes hrefs
    have hpushed := hledger.push (n :=
      { op := .phiMove, width := i.ty.bits, phiTarget := some (phi, succ), block := some pred
        source := some id }) rfl rfl rfl fun t ht ↦ absurd ht (by simp)
    rw [← (w₁.forest.grows_push _).owner hledger.flat hpushed.flat hdenotes.lt] at hpushed
    have hsize := w₁.forest.size_push
      { op := .phiMove, width := i.ty.bits, phiTarget := some (phi, succ), block := some pred
        source := some id }
    rw [hvalue]
    refine ⟨(hpushed.addChild (hsize ▸ Nat.lt_succ_self _)
      (hsize ▸ Nat.lt_succ_of_lt hdenotes.lt)).1, hrecords.trans (@Workspace.Records.of_refs _ _ _ []
        _ hadds.building hbuilds rfl (fun _ ↦ rfl) (fun x _ _ ↦ ?_) (fun x hle hmove ↦ ?_)
        fun x hle hlt hlist ↦ ?_) hw⟩
    · rw [Forest.refs_addChild]
      rcases w₁.forest.node_push_cases _ x with ⟨rfl, hnode⟩ | ⟨-, hnode⟩
      · rw [hnode, Forest.node_of_le _ (Nat.le_refl _)]
      · rw [hnode]
    · refine List.mem_singleton.mpr (Nat.le_antisymm (Nat.le_of_lt_succ ?_) hle)
      by_contra hlt
      rw [Forest.node_of_le _ (by rw [Forest.size_addChild, hsize]; exact Nat.le_of_not_lt hlt)]
        at hmove
      exact absurd hmove NodeOp.noConfusion
    · rw [Forest.size_addChild, hsize] at hlt
      obtain rfl := Nat.le_antisymm (Nat.le_of_lt_succ hlt) hle
      exact absurd (his.op.symm.trans hlist) NodeOp.noConfusion

/-- The copies for some edges. -/
theorem edgeMoves_records {edges : List (BlockId × InstId × ResolvedInst)}
    {moves : List (Option NodeId)} (hedges : ∀ e ∈ edges, e.2 ∈ f.blockPhis e.1)
    (hdeclared : ∀ e ∈ edges, (w.defs.phis.lookup e.2.1).isSome)
    (hx : (edges.mapM fun (succ, phi, i) ↦ buildPhiMove f b succ phi i :
      Work (List (Option NodeId))) w = .ok moves w') :
    w'.forest.Ledger [] ∧ w.Records f (edges.filterMap fun e ↦
      (e.2.2.operation.incoming.find? (·.2 == b)).map (·.1)) (moves.filterMap fun m ↦ m) w' := by
  induction edges generalizing w moves with
  | nil =>
    obtain ⟨rfl, rfl⟩ := mapM_nil_eq_ok.mp hx
    exact ⟨hl, .refl hw⟩
  | cons e edges ih =>
    obtain ⟨m, w₁, ms, hm, hms, rfl⟩ := mapM_cons_eq_ok.mp hx
    obtain ⟨hi, hedges⟩ := List.forall_mem_cons.mp hedges
    obtain ⟨hsome, hdeclared⟩ := List.forall_mem_cons.mp hdeclared
    obtain ⟨hledger, hrecords⟩ := buildPhiMove_records hw hl hi hsome hm
    obtain ⟨hledger', hrecords'⟩ := ih hrecords.building hledger hedges
      (hrecords.grows.phis ▸ hdeclared) hms
    have hall := hrecords.trans hrecords' hw
    have hcons : (m :: ms).filterMap (fun m ↦ m) = m.toList ++ ms.filterMap fun m ↦ m := by
      cases m <;> rfl
    rw [hcons, List.filterMap_cons]
    refine ⟨hledger', ?_⟩
    cases hvalue : e.2.2.operation.incoming.find? (·.2 == b) <;> rw [hvalue] at hall <;> exact hall

theorem buildPhiMoves_records {moves : List NodeId}
    (hdeclared : ∀ succ, ∀ x ∈ f.blockPhis succ, (w.defs.phis.lookup x.1).isSome)
    (hx : buildPhiMoves f b w = .ok moves w') :
    w'.forest.Ledger [] ∧ w.Records f (f.edgeOperands b) moves w' := by
  simp only [buildPhiMoves, bind_eq_ok, pure_eq_ok] at hx
  obtain ⟨moves', _, hmoves, rfl, rfl⟩ := hx
  have hedges : ∀ e ∈ (f.succsOf b).flatMap fun succ ↦ (f.blockPhis succ).map fun x ↦ (succ, x),
      e.2 ∈ f.blockPhis e.1 := by
    intro e he
    obtain ⟨succ, -, he⟩ := List.mem_flatMap.mp he
    obtain ⟨x, hx, rfl⟩ := List.mem_map.mp he
    exact hx
  have hrecords := edgeMoves_records hw hl hedges (fun e he ↦ hdeclared e.1 e.2 (hedges e he)) hmoves
  rw [List.filterMap_flatMap] at hrecords
  simp only [List.filterMap_map] at hrecords
  exact hrecords

/-- Guarding reads only logs accesses. -/
theorem guardReads_records {x : Unit} (hx : guardReads roots w = .ok x w') :
    w'.forest.Ledger [] ∧ w.Records f [] [] w' := by
  have hadds := guardReads_adds hw hx
  have hsame : w.forest.SameBooks w'.forest ∧ w'.defs = w.defs := by
    refine forM_induct (P := fun t ↦ w.forest.SameBooks t.forest ∧ t.defs = w.defs) hx ⟨.refl _, rfl⟩
      fun r _ t _ t' ht hr ↦ ?_
    obtain rfl := modify_eq_ok.mp hr
    refine ⟨ht.1.trans ?_, ht.2⟩
    change t.forest.SameBooks
      (if t.forest.readsMemory r then t.forest.logAccess .write r else t.forest)
    split
    · exact t.forest.sameBooks_logAccess .write r
    · exact .refl _
  exact ⟨hl.books hsame.1, .of_books hw hadds.buildsTo (by rw [hsame.2]) hsame.1⟩

end Steps

end TreeCover
