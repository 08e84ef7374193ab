import TreeCover.Compile
import TreeCover.Proofs.Forest.Attach
import TreeCover.Proofs.Work.Keeping

/-!
# What building keeps

A forest is built in small steps: a node is appended, a value gets a name, a block its label, nodes
get children, references and logged accesses, and the node of an instruction whose result is read in
another block is marked. So what each of these steps keeps holds of the forest in the end. Main
statement: `KeptByBuilding.buildForest`; an instance says which values are marked.
-/

namespace TreeCover

open Ir Machine Work

variable {f : Func} {w : Workspace} {g g' g'' : Forest} {k n : NodeId} {b : BlockId} {id : InstId}
  {i : ResolvedInst}

/-! ## Steps -/

/-- A node without its children and its uses. -/
def Node.alone (n : Node) : Node := { n with kids := [], refs := 0, accesses := [], level := 1 }

/-- From `g` to `g'` nodes change in their children and uses only. -/
structure Forest.Links (g g' : Forest) : Prop where
  size : g'.size = g.size
  alone : ∀ k, (g'.node k).alone = (g.node k).alone

namespace Forest

theorem Links.refl (g : Forest) : Links g g := ⟨rfl, fun _ ↦ rfl⟩

theorem Links.trans (h : Links g g') (h' : Links g' g'') : Links g g'' :=
  ⟨h'.size.trans h.size, fun k ↦ (h'.alone k).trans (h.alone k)⟩

theorem Links.target (h : Links g g') (k : NodeId) : (g'.node k).target = (g.node k).target :=
  (congrArg Node.target (h.alone k) :)

theorem Links.slot (h : Links g g') (k : NodeId) : (g'.node k).slot = (g.node k).slot :=
  (congrArg Node.slot (h.alone k) :)

theorem Links.source (h : Links g g') (k : NodeId) : (g'.node k).source = (g.node k).source :=
  (congrArg Node.source (h.alone k) :)

theorem Links.escapes (h : Links g g') (k : NodeId) : (g'.node k).escapes = (g.node k).escapes :=
  (congrArg Node.escapes (h.alone k) :)

theorem links_update (g : Forest) (id : NodeId) {p : Node → Node}
    (hp : ∀ n, (p n).alone = n.alone) : Links g (g.update id p) :=
  ⟨size_update g id p, update_keeps (R := fun n n' ↦ n'.alone = n.alone) (fun _ ↦ rfl) g id hp⟩

theorem links_takeRef (g : Forest) (id : NodeId) : Links g (g.takeRef id) :=
  g.links_update _ fun _ ↦ rfl

theorem links_addChild (g : Forest) (parent kid : NodeId) : Links g (g.addChild parent kid) :=
  g.links_update _ fun _ ↦ rfl

theorem links_adopt (g : Forest) (parent kid : NodeId) : Links g (g.adopt parent kid) :=
  (g.links_addChild parent kid).trans (Forest.links_takeRef _ kid)

theorem links_logAccess (g : Forest) (a : Access) (id : NodeId) : Links g (g.logAccess a id) :=
  List.foldlRecOn (motive := Links g) (g.pending id)
    (fun g k ↦ g.update k fun n ↦ { n with accesses := a :: n.accesses }) (.refl g)
    fun g' h k _ ↦ h.trans (g'.links_update k fun _ ↦ rfl)

end Forest

/-- The workspace in which a block has got the next label. -/
def Workspace.labeled (w : Workspace) (b : BlockId) : Workspace :=
  { w with
    session := w.session.freshLabel.2
    forest := (w.forest.push { op := .label, width := 0, slot := .label w.session.nextLabel }).2
    defs := { w.defs with labels := (b, w.forest.size) :: w.defs.labels } }

/-- A property that every step of building the forest of `f` keeps. -/
structure KeptByBuilding (f : Func) (P : Workspace → Prop) : Prop where
  report : ∀ w e, P w → P { w with session := w.session.report e }
  code : ∀ w code, P w → P { w with code }
  values : ∀ w values, P w → P { w with defs := { w.defs with values } }
  phis : ∀ w phis, P w → P { w with defs := { w.defs with phis } }
  label : ∀ w b, w.defs.labels.lookup b = none → P w → P (w.labeled b)
  push : ∀ w n, n.escapes = false → P w → P { w with forest := (w.forest.push n).2 }
  links : ∀ w forest, w.forest.Links forest → P w → P { w with forest }
  /-- Only the nodes of values that are read in another block are marked. -/
  mark : ∀ w k id, f.escapes id = true → (w.forest.node (w.forest.owner k)).source = some id →
    P w → P { w with forest := w.forest.markEscaping k }

/-! ## Nodes of instructions -/

/-- Node `k` is that of the instruction `id`. -/
structure Forest.StandsFor (g : Forest) (k : NodeId) (id : InstId) : Prop where
  lt : k < g.size
  target : (g.node k).target = none
  source : (g.node k).source = some id

theorem Forest.StandsFor.push (h : g.StandsFor k id) (n : Node) : (g.push n).2.StandsFor k id where
  lt := by
    rw [size_push]
    exact Nat.lt_succ_of_lt h.lt
  target := by
    rw [g.node_push_of_lt n h.lt]
    exact h.target
  source := by
    rw [g.node_push_of_lt n h.lt]
    exact h.source

/-- A node stays that of its instruction. -/
theorem keptByBuilding_standsFor (f : Func) (k : NodeId) (id : InstId) :
    KeptByBuilding f (·.forest.StandsFor k id) where
  report _ _ h := h
  code _ _ h := h
  values _ _ h := h
  phis _ _ h := h
  label _ _ _ h := h.push _
  push _ n _ h := h.push n
  links _ _ hlinks h :=
    ⟨hlinks.size ▸ h.lt, (hlinks.target k).trans h.target, (hlinks.source k).trans h.source⟩
  mark w j _ _ _ h := by
    have hkeeps := Forest.update_keeps (R := fun n n' ↦ n'.target = n.target ∧ n'.source = n.source)
      (fun _ ↦ ⟨rfl, rfl⟩) w.forest (w.forest.owner j) (g := fun n ↦ { n with escapes := true })
      (fun _ ↦ ⟨rfl, rfl⟩) k
    exact ⟨(Forest.size_update ..).symm ▸ h.lt, hkeeps.1.trans h.target, hkeeps.2.trans h.source⟩

namespace KeptByBuilding

variable {P Q : Workspace → Prop}

theorem and (hP : KeptByBuilding f P) (hQ : KeptByBuilding f Q) :
    KeptByBuilding f fun w ↦ P w ∧ Q w where
  report w e h := ⟨hP.report w e h.1, hQ.report w e h.2⟩
  code w c h := ⟨hP.code w c h.1, hQ.code w c h.2⟩
  values w vs h := ⟨hP.values w vs h.1, hQ.values w vs h.2⟩
  phis w ps h := ⟨hP.phis w ps h.1, hQ.phis w ps h.2⟩
  label w b hb h := ⟨hP.label w b hb h.1, hQ.label w b hb h.2⟩
  push w n hn h := ⟨hP.push w n hn h.1, hQ.push w n hn h.2⟩
  links w g hg h := ⟨hP.links w g hg h.1, hQ.links w g hg h.2⟩
  mark w k id hid hk h := ⟨hP.mark w k id hid hk h.1, hQ.mark w k id hid hk h.2⟩

/-! ## Building -/

section

variable (hP : KeptByBuilding f P)
include hP

theorem keeps_push {n : Node} (hn : n.escapes = false) : Keeps P (Work.push n) :=
  .modifyGet fun w h ↦ hP.push w n hn h

theorem keeps_links {p : Forest → Forest} (hp : ∀ g : Forest, g.Links (p g)) :
    Keeps P (modifyForest p) :=
  .modify fun w h ↦ hP.links w _ (hp w.forest) h

theorem keeps_defineValue (v : Value) (k : NodeId) : Keeps P (defineValue v k) :=
  .modify fun w h ↦ hP.values w _ h

/-- A block that is met for the first time gets the next label. -/
theorem keeps_labelOf (b : BlockId) : Keeps P (labelOf b) := by
  intro w k w' hw hlabel
  obtain ⟨_, _, hget, h⟩ := bind_eq_ok.mp hlabel
  obtain ⟨rfl, rfl⟩ := get_eq_ok.mp hget
  rename Workspace => w
  cases hlookup : w.defs.labels.lookup b with
  | some id =>
    simp only [hlookup] at h
    obtain ⟨-, rfl⟩ := pure_eq_ok.mp h
    exact hw
  | none =>
    simp only [hlookup, freshLabel, Work.push, modifyDefs, bind_eq_ok, modifyGet_eq_ok, modify_eq_ok,
      pure_eq_ok] at h
    obtain ⟨_, _, ⟨rfl, rfl⟩, _, _, ⟨rfl, rfl⟩, _, _, rfl, -, rfl⟩ := h
    exact hP.label w b hlookup hw

theorem keeps_constantLeaf (c : Constant) (width : Nat) : Keeps P (constantLeaf c width) := by
  refine .bind (.modifyGet fun w h ↦ hP.push w _ rfl h) fun k ↦ ?_
  exact .bind (hP.keeps_links fun g ↦ g.links_takeRef k) fun _ ↦ .pure k

theorem keeps_operand (id : InstId) (i : ResolvedInst) (idx : Nat) (o : Ir.Operand Value) :
    Keeps P (operand id i idx o) := by
  cases o with
  | int n bits =>
    rw [operand]
    cases castInt n bits with
    | ok c => exact hP.keeps_constantLeaf c bits
    | error e => exact .throw e
  | float x =>
    rw [operand]
    split
    · split
      · exact hP.keeps_constantLeaf _ _
      · exact .throw _
    · exact hP.keeps_constantLeaf _ _
  | value v =>
    refine .get_bind fun w ↦ ?_
    cases w.defs.values.lookup v with
    | none => exact .throw _
    | some k =>
      refine .bind (hP.keeps_links fun g ↦ ?_) fun _ ↦ .pure k
      exact (g.links_takeRef k).trans (Forest.links_logAccess _ .read k)

theorem keeps_place (id : InstId) (i : ResolvedInst) (idx : Nat) (p : Place Value BlockId) :
    Keeps P (place id i idx p) := by
  cases p with
  | operand o => exact hP.keeps_operand id i idx o
  | block b =>
    refine .bind (hP.keeps_labelOf b) fun k ↦ ?_
    exact .bind (hP.keeps_links fun g ↦ g.links_takeRef k) fun _ ↦ .pure k

theorem keeps_addChildren (parent : NodeId) (kids : List NodeId) :
    Keeps P (addChildren parent kids) :=
  .forM _ fun kid _ ↦ hP.keeps_links fun g ↦ g.links_addChild parent kid

theorem keeps_addOwnChild (parent : NodeId) {n : Node} (hn : n.escapes = false) :
    Keeps P (addOwnChild parent n) := by
  refine .bind (hP.keeps_push hn) fun kid ↦ ?_
  exact .bind (hP.keeps_links fun g ↦ g.links_adopt parent kid) fun _ ↦ .pure kid

theorem keeps_attach (n : NodeId) (op : Operation Value BlockId) (kids : List NodeId) :
    Keeps P (attach n op kids) := by
  cases op with
  | call callee args =>
    refine .bind (hP.keeps_push rfl) fun list ↦ .bind (hP.keeps_addChildren list kids) fun _ ↦ ?_
    exact hP.keeps_links fun g ↦ g.links_adopt n list
  | br target =>
    refine .bind (hP.keeps_addChildren n kids) fun _ ↦ ?_
    refine .bind (.discard (hP.keeps_addOwnChild n rfl)) fun _ ↦ ?_
    exact .discard (hP.keeps_addOwnChild n rfl)
  | _ => exact hP.keeps_addChildren n kids

/-- The last touches to the node of an instruction. -/
theorem finish (hw : P w) (hn : w.forest.StandsFor n id) :
    P { w with forest := w.forest.finish f id i n } := by
  obtain ⟨g, hg, hfinish⟩ : ∃ g, w.forest.Links g ∧ w.forest.finish f id i n =
      if f.escapes id then g.markEscaping n else g := by
    refine ⟨if i.opcode = .load then w.forest.logAccess .read n else w.forest, ?_, rfl⟩
    split
    · exact w.forest.links_logAccess .read n
    · exact .refl _
  have hread := hP.links w g hg hw
  rw [hfinish]
  split
  next hid =>
    refine hP.mark { w with forest := g } n id hid ?_ hread
    rw [Forest.owner_of_target ((hg.target n).trans hn.target)]
    exact (hg.source n).trans hn.source
  next => exact hread

theorem keeps_buildInst (b : BlockId) (id : InstId) (i : ResolvedInst) :
    Keeps P (buildInst f b id i) := by
  intro w n w' hw h
  obtain ⟨kids, w₁, w₂, hplaces, rfl, hattach, rfl⟩ := buildInst_ok h
  have hw₁ := Keeps.mapM _ (fun (p, idx) ↦ hP.keeps_place id i idx p) w kids w₁ hw hplaces
  -- while the node gets its children, it stays that of the instruction
  have hnew : (w₁.forest.push (Node.bare b id i)).2.StandsFor w₁.forest.size id := by
    refine ⟨by rw [Forest.size_push]; exact Nat.lt_succ_self _, ?_, ?_⟩ <;>
      rw [Forest.node_push_self] <;> rfl
  obtain ⟨hw₂, hn⟩ := (hP.and (keptByBuilding_standsFor f w₁.forest.size id)).keeps_attach _ _ _ _ _ _
    ⟨hP.push w₁ _ rfl hw₁, hnew⟩ hattach
  exact hP.finish hw₂ hn

theorem keeps_buildPhiMove (b succ : BlockId) (phi : InstId) (i : ResolvedInst) :
    Keeps P (buildPhiMove f b succ phi i) := by
  rw [buildPhiMove]
  cases i.operation.incoming.zipIdx.find? (·.1.2 == b) with
  | none => exact .throw _
  | some found =>
    refine .get_bind fun w ↦ ?_
    cases w.defs.phis.lookup phi with
    | none => exact .pure none
    | some owner =>
      refine .bind (hP.keeps_operand phi i _ _) fun kid ↦ .bind (hP.keeps_push rfl) fun n ↦ ?_
      exact .bind (hP.keeps_links fun g ↦ g.links_addChild n kid) fun _ ↦ .pure _

theorem keeps_buildPhiMoves (b : BlockId) : Keeps P (buildPhiMoves f b) :=
  .bind (.mapM _ fun (succ, phi, i) ↦ hP.keeps_buildPhiMove b succ phi i) fun _ ↦ .pure _

theorem keeps_guardReads (roots : List NodeId) : Keeps P (guardReads roots) := by
  refine .forM _ fun r _ ↦ hP.keeps_links fun g ↦ ?_
  split
  · exact g.links_logAccess .write r
  · exact .refl g

theorem keeps_buildStep (b : BlockId) (roots : List NodeId) (id : InstId) (i : ResolvedInst) :
    Keeps P (buildStep f b roots id i) := by
  rw [buildStep]
  have htail : ∀ moves : List NodeId, Keeps P (do
      let n ← buildInst f b id i
      if i.opcode.writesMemory then guardReads roots
      defineValue (.inst id) n
      return roots ++ moves ++ [n]) := by
    intro moves
    refine .bind (hP.keeps_buildInst b id i) fun n ↦ ?_
    refine .when_bind (p := fun _ ↦ _) (hP.keeps_guardReads roots) ?_
    exact .bind (hP.keeps_defineValue (.inst id) n) fun _ ↦ .pure _
  split
  · refine .bind (.get_bind fun w ↦ hP.keeps_push rfl) fun n ↦ ?_
    exact .bind (hP.keeps_defineValue (.inst id) n) fun _ ↦ .pure _
  · by_cases hterminator : i.opcode.isTerminator = true
    · simp only [hterminator, if_true]
      exact .bind (hP.keeps_buildPhiMoves b) fun moves ↦ htail moves
    · simp only [hterminator]
      exact htail []

theorem keeps_buildBlock (b : BlockId) : Keeps P (buildBlock f b) :=
  .bind (.foldlM (f.blockInsts b) (fun roots x ↦ hP.keeps_buildStep b roots x.1 x.2) []) fun _ ↦
    .bind (.modify fun w h ↦ hP.report w _ h) fun _ ↦ .pure _

/-- **Building.** What every step keeps is kept by the whole. -/
theorem buildForest : Keeps P (buildForest f) := by
  refine .bind (.forM _ fun (p, idx) _ ↦ .bind (hP.keeps_push rfl) fun n ↦
    hP.keeps_defineValue _ n) fun _ ↦ ?_
  refine .bind (.forM _ fun b _ ↦ .forM _ fun (phi, inst) _ ↦ ?_) fun _ ↦ ?_
  · refine .bind (.modifyGet fun w h ↦ hP.code w _ h) fun v ↦ ?_
    refine .bind (.modify fun w h ↦ hP.code w _ h) fun _ ↦ ?_
    exact .bind (hP.keeps_push rfl) fun n ↦ .modify fun w h ↦ hP.phis w _ h
  refine .bind (.forM _ fun i _ ↦ .forM _ fun b _ ↦ .discard (hP.keeps_labelOf b)) fun _ ↦ ?_
  exact .mapM _ fun b ↦ .bind (.modify fun w h ↦ hP.code w _ h) fun _ ↦ hP.keeps_buildBlock b

end

end KeptByBuilding

/-! ## Marks -/

/-- A marked node belongs to an instruction whose result is read in another block. -/
def Forest.MarksOnly (f : Func) (g : Forest) : Prop :=
  ∀ k, (g.node k).escapes = true → ∃ id, (g.node k).source = some id ∧ f.escapes id = true

theorem Forest.MarksOnly.push (h : g.MarksOnly f) {n : Node} (hn : n.escapes = false) :
    (g.push n).2.MarksOnly f := by
  intro k hk
  by_cases hlt : k < g.size
  · rw [g.node_push_of_lt n hlt] at hk ⊢
    exact h k hk
  · by_cases heq : k = g.size
    · rw [heq, g.node_push_self n, hn] at hk
      exact absurd hk Bool.false_ne_true
    · have hle : g.size + 1 ≤ k := Nat.lt_of_le_of_ne (Nat.le_of_not_lt hlt) (Ne.symm heq)
      rw [node_of_le _ ((g.size_push n).symm ▸ hle)] at hk
      exact absurd hk Bool.false_ne_true

theorem keptByBuilding_marksOnly (f : Func) : KeptByBuilding f (·.forest.MarksOnly f) where
  report _ _ h := h
  code _ _ h := h
  values _ _ h := h
  phis _ _ h := h
  label w _ _ h := h.push (n := { op := .label, width := 0, slot := .label w.session.nextLabel }) rfl
  push _ _ hn h := h.push hn
  links w g hg h := by
    intro k hk
    rw [hg.source]
    exact h k (hg.escapes k ▸ hk)
  mark w k id hid hsource h := by
    intro j hj
    rcases w.forest.node_update_cases (w.forest.owner k) j fun n ↦ { n with escapes := true } with
      ⟨rfl, hnode⟩ | hnode
    · exact ⟨id, (congrArg Node.source hnode).trans hsource, hid⟩
    · obtain ⟨id', hsource', hid'⟩ := h j ((congrArg Node.escapes hnode).symm.trans hj)
      exact ⟨id', (congrArg Node.source hnode).trans hsource', hid'⟩

/-- When a forest has been built, only results that are read in another block are marked. -/
theorem marksOnly_buildForest {s : Session} {trees : List (List NodeId)}
    (h : buildForest f (.start f s) = .ok trees w) : w.forest.MarksOnly f := by
  refine (keptByBuilding_marksOnly f).buildForest _ _ _ (fun k hk ↦ ?_) h
  rw [Forest.node_of_le _ (Nat.zero_le k)] at hk
  exact absurd hk Bool.false_ne_true

/-- Building does not change the configuration. -/
theorem config_buildForest {s : Session} {trees : List (List NodeId)}
    (h : buildForest f (.start f s) = .ok trees w) : w.session.config = s.config := by
  have hkept : KeptByBuilding f fun w ↦ w.session.config = s.config := by
    constructor <;> intros <;> assumption
  exact hkept.buildForest _ _ _ rfl h

end TreeCover
