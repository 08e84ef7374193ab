import TreeCover.Proofs.Reading.WellFormed
import TreeCover.Proofs.Tiling.Branches

/-!
# Loads that are overtaken

A load is overtaken by the instructions with side effects that come after it in its block. Building logs
a read at the load whenever it comes to an operand below which the load is pending. Logs that have been
right stay so, as long as new instructions get theirs. Main statements: `Workspace.Grows.logged`,
`places_log`.
-/

namespace TreeCover

open Ir Machine Work

variable {f : Func} {s : Session} {w w' w'' w₁ u : Workspace} {g g' g'' : Forest} {k c p r l e : NodeId}
  {b : BlockId} {id : InstId} {i : ResolvedInst} {kids roots ks : List NodeId} {n n' : Node} {idx : Nat}
  {a : Access} {trees : List (List NodeId)} {o : Opcode}

/-! ## Logging -/

theorem Node.ReadLate.mono (h : n.ReadLate) (haccesses : n.accesses <:+ n'.accesses) : n'.ReadLate := by
  obtain ⟨later, earlier, heq, hwrite⟩ := h
  obtain ⟨latest, hlatest⟩ := haccesses
  exact ⟨latest ++ later, earlier, by rw [← hlatest, heq, List.append_assoc], hwrite⟩

namespace Forest

/-- From `g` to `g'` an access is logged at a node. -/
def Logs (a : Access) (g g' : Forest) (k : NodeId) : Prop :=
  ∃ old, (g.node k).accesses <:+ old ∧ a :: old <:+ (g'.node k).accesses

theorem Logs.before (h : Logs a g' g'' k) (hle : (g.node k).accesses <:+ (g'.node k).accesses) :
    Logs a g g'' k := h.imp fun _ ⟨hold, hnew⟩ ↦ ⟨hle.trans hold, hnew⟩

theorem Logs.after (h : Logs a g g' k) (hle : (g'.node k).accesses <:+ (g''.node k).accesses) :
    Logs a g g'' k := h.imp fun _ ⟨hold, hnew⟩ ↦ ⟨hold, hnew.trans hle⟩

theorem Logs.mem (h : Logs a g g' k) : a ∈ (g'.node k).accesses := by
  obtain ⟨old, -, hnew⟩ := h
  exact hnew.subset List.mem_cons_self

/-- A read where a write was logged. -/
theorem Logs.readLate (h : Logs .read g g' k) (hwrite : .write ∈ (g.node k).accesses) :
    (g'.node k).ReadLate := by
  obtain ⟨old, hold, later, hnew⟩ := h
  exact ⟨later, old, hnew.symm, hold.subset hwrite⟩

theorem logs_logAt (hk : k ∈ ks) (hlt : k < g.size) : Logs a g (logAt a g ks) k := by
  induction ks generalizing g with
  | nil => exact absurd hk List.not_mem_nil
  | cons x ks ih =>
    have hsize := g.size_update x fun n ↦ { n with accesses := a :: n.accesses }
    have hhead : (g.node k).accesses <:+
        ((g.update x fun n ↦ { n with accesses := a :: n.accesses }).node k).accesses :=
      update_keeps (R := fun n n' ↦ n.accesses <:+ n'.accesses) (fun _ ↦ List.suffix_rfl) g x
        (fun n ↦ List.suffix_cons a n.accesses) k
    rcases List.mem_cons.mp hk with rfl | hk
    · refine ⟨(g.node k).accesses, List.suffix_rfl, ?_⟩
      have htail := (uses_logAt a (g.update k fun n ↦ { n with accesses := a :: n.accesses }) ks).accesses k
        (hsize ▸ hlt)
      rwa [node_update_self g _ hlt] at htail
    · exact (ih hk (hsize ▸ hlt)).before hhead

/-- Logging an access logs it for all that is pending. -/
theorem logs_logAccess (h : g.HangsBelow (g.owner r) k) (hlt : k < g.size) :
    Logs a g (g.logAccess a r) k := logs_logAt (mem_pending_iff.mpr h) hlt

/-! ## Overtaking -/

/-- The load `l` comes before the instruction `e` of its block, which has a side effect. -/
structure Overtaken (g : Forest) (l e : NodeId) : Prop where
  load : (g.node l).op = .inst .load
  effect : (g.node e).hasSideEffect = true
  block : ∃ b, (g.node l).block = some b ∧ (g.node e).block = some b
  lt : l < e

/-- What the logs of a forest tell about the loads that are overtaken. -/
structure Logged (g : Forest) : Prop where
  write : ∀ l e, g.Overtaken l e → .write ∈ (g.node l).accesses
  late : ∀ l e r p c, g.Overtaken l e → e < r → (g.node r).op ≠ .args → g.HeldBy p r →
    c ∈ g.kidOwners p → g.HangsBelow c l → (g.node l).ReadLate

end Forest

/-! ## Growth -/

namespace Workspace

theorem Building.kidOwners_lt (hw : w.Building f) (hc : c ∈ w.forest.kidOwners p) : c < w.forest.size := by
  obtain ⟨x, hx, rfl⟩ := List.mem_map.mp hc
  have hp : p < w.forest.size := by
    by_contra hle
    rw [Forest.node_of_le _ (Nat.le_of_not_lt hle)] at hx
    exact absurd hx List.not_mem_nil
  exact hw.owner_lt ((hw.nodes p hp).shape.kids_lt hx)

theorem Grows.kidOwners (h : w.Grows w') (hw : w.Building f) (hw' : w'.Building f)
    (hp : p < w.forest.size) : w'.forest.kidOwners p = w.forest.kidOwners p := by
  rw [Forest.kidOwners, Forest.kidOwners, Node.kids_of_core (h.forest.core p hp)]
  exact List.map_congr_left fun x hx ↦
    h.forest.owner hw.flat hw'.flat ((hw.nodes p hp).shape.kids_lt hx)

/-- What is pending below a node is there from the start. -/
theorem Grows.hangsBelow (h : w.Grows w') (hw : w.Building f) (hw' : w'.Building f)
    (hc : c < w.forest.size) (hbelow : w'.forest.HangsBelow c l) :
    w.forest.HangsBelow c l ∧ l < w.forest.size := by
  obtain ⟨hpending, hpath⟩ := hbelow
  have hcomputed : ∀ {k}, k < w.forest.size → (w'.forest.node k).computed = false →
      (w.forest.node k).computed = false :=
    fun hk hnew ↦ (Node.computed_of_core (h.forest.core _ hk)).symm.trans hnew
  induction hpath with
  | refl => exact ⟨.refl (hcomputed hc hpending), hc⟩
  | tail _ hstep ih =>
    obtain ⟨hbelow, hlt⟩ := ih
    have hkid := h.kidOwners hw hw' hlt ▸ hstep.1
    have hlt' := hw.kidOwners_lt hkid
    exact ⟨hbelow.tail ⟨hkid, hcomputed hlt' hstep.2⟩, hlt'⟩

theorem Grows.overtaken (h : w.Grows w') (hover : w'.forest.Overtaken l e) (he : e < w.forest.size) :
    w.forest.Overtaken l e where
  load := (Node.op_of_core (h.forest.core l (Nat.lt_trans hover.lt he))).symm.trans hover.load
  effect := by
    rw [← hover.effect, Node.hasSideEffect, Node.hasSideEffect, Node.opcode?, Node.opcode?,
      Node.op_of_core (h.forest.core e he)]
    rfl
  block := by
    obtain ⟨b, hl, he'⟩ := hover.block
    exact ⟨b, (Node.block_of_core (h.forest.core l (Nat.lt_trans hover.lt he))).symm.trans hl,
      (Node.block_of_core (h.forest.core e he)).symm.trans he'⟩
  lt := hover.lt

/-- A node without children that stands for itself has nothing below it. -/
theorem Is.eq_of_hangsBelow (h : w.Is k n) (hkids : n.kids = []) (hbelow : w.forest.HangsBelow k l) :
    l = k := by
  rcases Relation.ReflTransGen.cases_head hbelow.2 with rfl | ⟨c, hc, -⟩
  · rfl
  · rw [Forest.Hangs, Forest.kidOwners, Node.kids_of_core h.2, hkids] at hc
    exact absurd hc.1 List.not_mem_nil

theorem Grows.heldBy (h : w.Grows w') (hw : w.Building f) (hw' : w'.Building f)
    (hheld : w'.forest.HeldBy p r) (hr : r < w.forest.size) :
    w.forest.HeldBy p r ∧ p < w.forest.size := by
  rcases hheld with rfl | ⟨hcall, hp, hkid⟩
  · exact ⟨Or.inl rfl, hr⟩
  · have hkid' := h.kidOwners hw hw' hr ▸ hkid
    have hcall' := (Node.op_of_core (h.forest.core r hr)).symm.trans hcall
    exact ⟨Or.inr ⟨hcall', hp, hkid'⟩, hw.kidOwners_lt hkid'⟩

/-- Logs stay right when the new nodes have theirs: writes are logged for new instructions with side
effects, and reads for what new nodes have for operands. -/
theorem Grows.logged (h : w.Grows w') (hw : w.Building f) (hw' : w'.Building f)
    (hlogged : w.forest.Logged)
    (hwrite : ∀ l e, w'.forest.Overtaken l e → w.forest.size ≤ e → .write ∈ (w'.forest.node l).accesses)
    (hread : ∀ l r p c, w.forest.size ≤ r → (w'.forest.node r).op ≠ .args → w'.forest.HeldBy p r →
      c ∈ w'.forest.kidOwners p → w'.forest.HangsBelow c l → (w'.forest.node l).op = .inst .load →
      w.forest.Logs .read w'.forest l ∧ ∀ e < r, (w'.forest.node e).hasSideEffect = true →
        e < w.forest.size) : w'.forest.Logged where
  write l e hover := by
    by_cases he : e < w.forest.size
    · have hl := Nat.lt_trans hover.lt he
      exact (h.forest.accesses l hl).subset (hlogged.write l e (h.overtaken hover he))
    · exact hwrite l e hover (Nat.le_of_not_lt he)
  late l e r p c hover he hargs hheld hc hbelow := by
    by_cases hr : r < w.forest.size
    · have hcore := Node.op_of_core (h.forest.core r hr)
      obtain ⟨hheld', hp⟩ := h.heldBy hw hw' hheld hr
      have hc' := h.kidOwners hw hw' hp ▸ hc
      obtain ⟨hbelow', hl⟩ := h.hangsBelow hw hw' (hw.kidOwners_lt hc') hbelow
      exact (hlogged.late l e r p c (h.overtaken hover (Nat.lt_trans he hr)) he
        (fun hop ↦ hargs (hcore.trans hop)) hheld' hc' hbelow').mono (h.forest.accesses l hl)
    · obtain ⟨hreads, hold⟩ := hread l r p c (Nat.le_of_not_lt hr) hargs hheld hc hbelow hover.load
      have hover' := h.overtaken hover (hold e he hover.effect)
      exact hreads.readLate (hlogged.write l e hover')

end Workspace

/-! ## Operands -/

section Operands

variable (hw : w.Building f)
include hw

/-- An operand logs a read for every load that is pending below it. -/
theorem operand_logs {o : Ir.Operand Value} (hx : operand id i idx o w = .ok k w')
    (hbelow : w'.forest.HangsBelow (w'.forest.owner k) l) (hload : (w'.forest.node l).op = .inst .load) :
    w.forest.Logs .read w'.forest l := by
  obtain ⟨hadds, hdenotes, -⟩ := operand_builds hw hx
  have hconstant : ∀ {c : Constant} {width : Nat}, ¬ w'.Is k (.ofConstant c width) := by
    intro c width his
    rw [Forest.owner_of_target (Node.target_of_core his.2)] at hbelow
    obtain rfl := his.eq_of_hangsBelow rfl hbelow
    exact absurd (his.op.symm.trans hload) NodeOp.noConfusion
  cases o with
  | int n bits =>
    cases hdenotes with
    | int _ his => exact absurd his hconstant
  | float x =>
    cases hdenotes with
    | float his => exact absurd his hconstant
  | value v =>
    simp only [operand, bind_eq_ok, get_eq_ok] at hx
    obtain ⟨_, _, ⟨rfl, rfl⟩, hx⟩ := hx
    rename Workspace => w
    cases hlookup : w.defs.values.lookup v with
    | none =>
      rw [hlookup] at hx
      exact absurd hx throw_ne_ok
    | some k' =>
      simp only [hlookup, modifyForest, bind_eq_ok, modify_eq_ok, pure_eq_ok] at hx
      obtain ⟨_, _, rfl, rfl, rfl⟩ := hx
      have hk := hw.values v k hlookup
      obtain ⟨htake, -⟩ := hw.takeRef hk.lt hk.op_ne
      have huses := Forest.uses_logAccess (w.forest.takeRef k) .read k
      have hgrows : { w with forest := w.forest.takeRef k }.Grows
          { w with forest := (w.forest.takeRef k).logAccess .read k } :=
        ⟨huses.toGrows, .refl _, rfl, fun _ _ h ↦ h⟩
      have hlt : k < (w.forest.takeRef k).size := Nat.lt_of_lt_of_le hk.lt htake.grows.forest.size
      have howner := huses.owner htake.building.flat hadds.building.flat hlt
      obtain ⟨hbelow', hl⟩ := hgrows.hangsBelow htake.building hadds.building
        (htake.building.owner_lt hlt) (howner ▸ hbelow)
      refine (Forest.logs_logAccess hbelow' hl).before (htake.grows.forest.accesses l ?_)
      rw [Forest.takeRef, Forest.size_update] at hl
      exact hl

theorem place_logs {x : Place Value BlockId} (hx : place id i idx x w = .ok k w')
    (hbelow : w'.forest.HangsBelow (w'.forest.owner k) l) (hload : (w'.forest.node l).op = .inst .load) :
    w.forest.Logs .read w'.forest l := by
  cases x with
  | operand o => exact operand_logs hw hx hbelow hload
  | block b =>
    obtain ⟨-, hdenotes, -⟩ := place_builds hw hx
    cases hdenotes with
    | block _ his =>
      rw [Forest.owner_of_target (Node.target_of_core his.2)] at hbelow
      obtain rfl := his.eq_of_hangsBelow rfl hbelow
      exact absurd (his.op.symm.trans hload) NodeOp.noConfusion

/-- So does each of the operands of an instruction. -/
theorem places_log {xs : List (Place Value BlockId × Nat)}
    (hx : (xs.mapM fun (x, idx) ↦ place id i idx x : Work (List NodeId)) w = .ok kids w') (hk : k ∈ kids)
    (hbelow : w'.forest.HangsBelow (w'.forest.owner k) l) (hload : (w'.forest.node l).op = .inst .load) :
    w.forest.Logs .read w'.forest l := by
  induction xs generalizing w kids with
  | nil =>
    obtain ⟨rfl, -⟩ := mapM_nil_eq_ok.mp hx
    exact absurd hk List.not_mem_nil
  | cons x xs ih =>
    obtain ⟨k₁, w₁, ks, hfirst, hrest, rfl⟩ := mapM_cons_eq_ok.mp hx
    obtain ⟨hadds, hdenotes, -⟩ := place_builds hw hfirst
    obtain ⟨hadds', -⟩ := places_builds hadds.building hrest
    rcases List.mem_cons.mp hk with rfl | hk
    · have howner := hadds'.grows.forest.owner hadds.building.flat hadds'.building.flat hdenotes.lt
      obtain ⟨hbelow', hl⟩ := hadds'.grows.hangsBelow hadds.building hadds'.building
        (hadds.building.owner_lt hdenotes.lt) (howner ▸ hbelow)
      have hcore := hadds'.grows.forest.core l hl
      exact (place_logs hw hfirst hbelow' ((Node.op_of_core hcore).symm.trans hload)).after
        (hadds'.grows.forest.accesses l hl)
    · have hl : l < w.forest.size := by
        by_contra hle
        refine absurd hload ((hadds.trans hadds').leaves l (Nat.le_of_not_lt hle) ?_ .load)
        exact Forest.lt_size_of_op hload NodeOp.noConfusion
      exact (ih hadds.building hrest hk).before (hadds.grows.forest.accesses l hl)

end Operands

/-- A node without children holds none. -/
theorem Forest.HeldBy.kids_ne (h : g.HeldBy p r) (hc : c ∈ g.kidOwners p) : (g.node r).kids ≠ [] := by
  intro hnil
  rcases h with rfl | ⟨-, -, hkid⟩
  · rw [kidOwners, hnil] at hc
    exact absurd hc List.not_mem_nil
  · rw [kidOwners, hnil] at hkid
    exact absurd hkid List.not_mem_nil

/-- From `w` to `w'` no node with children is made. -/
def Workspace.NoKids (w w' : Workspace) : Prop := ∀ k, w.forest.size ≤ k → (w'.forest.node k).kids = []

namespace Workspace.NoKids

theorem refl (w : Workspace) : w.NoKids w := fun k hk ↦ by rw [Forest.node_of_le _ hk]

theorem trans (h : w.NoKids w') (h' : w'.NoKids w'') (hgrows : w'.Grows w'') : w.NoKids w'' := by
  intro k hk
  by_cases hlt : k < w'.forest.size
  · rw [Node.kids_of_core (hgrows.forest.core k hlt)]
    exact h k hk
  · exact h' k (Nat.le_of_not_lt hlt)

theorem push (hforest : w'.forest = (w.forest.push n).2) (hkids : n.kids = []) : w.NoKids w' := by
  intro k hk
  rw [hforest]
  rcases w.forest.node_push_cases n k with ⟨-, hnode⟩ | ⟨-, hnode⟩
  · rw [hnode, hkids]
  · rw [hnode, Forest.node_of_le _ hk]

theorem of_kids (h : w.NoKids w') (hkids : ∀ k, (w''.forest.node k).kids = (w'.forest.node k).kids) :
    w.NoKids w'' := fun k hk ↦ (hkids k).trans (h k hk)

/-- Without new children and without new side effects there is nothing to be logged. -/
theorem logged (h : w.NoKids w') (hgrows : w.Grows w') (hw : w.Building f) (hw' : w'.Building f)
    (hlogged : w.forest.Logged)
    (heffect : ∀ e, w.forest.size ≤ e → (w'.forest.node e).hasSideEffect = false) : w'.forest.Logged := by
  refine hgrows.logged hw hw' hlogged (fun l e hover he ↦ ?_) fun l r p c hr _ hheld hc _ _ ↦ ?_
  · exact absurd ((heffect e he).symm.trans hover.effect) Bool.false_ne_true
  · exact absurd (h r hr) (hheld.kids_ne hc)

end Workspace.NoKids

theorem Forest.kids_takeRef (g : Forest) (r k : NodeId) : ((g.takeRef r).node k).kids = (g.node k).kids :=
  update_keeps (R := fun n n' ↦ n'.kids = n.kids) (fun _ ↦ rfl) g (g.owner r)
    (g := fun n ↦ { n with refs := n.refs + 1 }) (fun _ ↦ rfl) k

theorem constantLeaf_noKids {a : Constant} {width : Nat} (hx : constantLeaf a width w = .ok k w') :
    w.NoKids w' := by
  simp only [constantLeaf, modifyForest, bind_eq_ok, modifyGet_eq_ok, modify_eq_ok, pure_eq_ok] at hx
  obtain ⟨_, _, ⟨rfl, rfl⟩, _, _, rfl, rfl, rfl⟩ := hx
  have hpush : w.NoKids { w with forest := (w.forest.addConstant a width).2 } := .push rfl rfl
  exact hpush.of_kids fun k ↦ Forest.kids_takeRef _ _ k

theorem labelOf_noKids (hx : labelOf b w = .ok k w') : w.NoKids w' := by
  simp only [labelOf, bind_eq_ok, get_eq_ok] at hx
  obtain ⟨_, _, ⟨rfl, rfl⟩, hx⟩ := hx
  rename Workspace => w
  cases hlookup : w.defs.labels.lookup b with
  | some k' =>
    rw [hlookup] at hx
    obtain ⟨-, rfl⟩ := pure_eq_ok.mp hx
    exact .refl _
  | none =>
    simp only [hlookup, freshLabel, push, modifyDefs, bind_eq_ok, modifyGet_eq_ok, modify_eq_ok,
      pure_eq_ok] at hx
    obtain ⟨_, _, ⟨-, rfl⟩, _, _, ⟨rfl, rfl⟩, _, _, rfl, -, rfl⟩ := hx
    exact .push rfl rfl

theorem operand_noKids {o : Ir.Operand Value} (hx : operand id i idx o w = .ok k w') : w.NoKids w' := by
  cases o with
  | int n bits =>
    rw [operand] at hx
    cases hcast : castInt n bits with
    | ok a =>
      rw [hcast] at hx
      exact constantLeaf_noKids hx
    | error e =>
      rw [hcast] at hx
      exact absurd hx throw_ne_ok
  | float x => exact constantLeaf_noKids (operand_float hx)
  | value v =>
    simp only [operand, bind_eq_ok, get_eq_ok] at hx
    obtain ⟨_, _, ⟨rfl, rfl⟩, hx⟩ := hx
    rename Workspace => w
    cases hlookup : w.defs.values.lookup v with
    | none =>
      rw [hlookup] at hx
      exact absurd hx throw_ne_ok
    | some k' =>
      simp only [hlookup, modifyForest, bind_eq_ok, modify_eq_ok, pure_eq_ok] at hx
      obtain ⟨_, _, rfl, rfl, rfl⟩ := hx
      refine Workspace.NoKids.of_kids (.refl w) fun j ↦ ?_
      exact (Node.kids_of_core ((Forest.uses_logAccess (w.forest.takeRef k) .read k).core_eq j)).trans
        (Forest.kids_takeRef _ k j)

theorem place_noKids {x : Place Value BlockId} (hx : place id i idx x w = .ok k w') : w.NoKids w' := by
  cases x with
  | operand o => exact operand_noKids hx
  | block b =>
    simp only [place, modifyForest, bind_eq_ok, modify_eq_ok, pure_eq_ok] at hx
    obtain ⟨_, _, hlabel, _, _, rfl, rfl, rfl⟩ := hx
    exact (labelOf_noKids hlabel).of_kids fun j ↦ Forest.kids_takeRef _ _ j

theorem places_noKids (hw : w.Building f) {xs : List (Place Value BlockId × Nat)}
    (hx : (xs.mapM fun (x, idx) ↦ place id i idx x : Work (List NodeId)) w = .ok kids w') :
    w.NoKids w' := by
  induction xs generalizing w kids with
  | nil =>
    obtain ⟨-, rfl⟩ := mapM_nil_eq_ok.mp hx
    exact .refl _
  | cons x xs ih =>
    obtain ⟨k₁, w₁, ks, hfirst, hrest, rfl⟩ := mapM_cons_eq_ok.mp hx
    have hadds := (place_builds hw hfirst).1
    exact (place_noKids hfirst).trans (ih hadds.building hrest) (places_builds hadds.building hrest).1.grows

end TreeCover
