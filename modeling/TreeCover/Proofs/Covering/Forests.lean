import TreeCover.Proofs.Covering.Leaves
import TreeCover.Proofs.Tiling.Conservation
import TreeCover.Proofs.Tiling.Derivations

/-!
# Forests of functions

In the forest of a function a measure falls from each node to the owners of its children, every node has
what actions look at, and a call without a value is nobody's child if no operand reads it. Main
statements: `Planted.falling`, `Planted.complete`, `Planted.not_voidCall`.
-/

namespace TreeCover

open Ir Machine Work

variable {f : Func} {trees : List (List NodeId)} {w : Workspace} {g h : Forest} {k p c j : NodeId}
  {os : List (Ir.Operand Value)} {next : InstId} {kids : List NodeId}

/-! ## Functions -/

/-- No operand reads the result of a call that has none. -/
def Ir.Func.UsesValues (f : Func) : Prop :=
  ∀ b, ∀ x ∈ f.blockInsts b, x.2.opcode = .call → x.2.ty.bits = 0 → f.reads x.1 = 0

/-! ## A measure -/

/-- A measure that falls towards the leaves. The arguments of a call come after the call, and count as
if they came right before it. -/
def Forest.rank (g : Forest) (k : NodeId) : Nat :=
  if (g.node k).kids = [] then 0
  else if (g.node k).op = .args then 2 * k - 2
  else 2 * k + 1

namespace Forest

theorem rank_of_nil (hkids : (g.node k).kids = []) : g.rank k = 0 := if_pos hkids

theorem rank_le_self (g : Forest) (k : NodeId) : g.rank k ≤ 2 * k + 1 := by
  rw [rank]
  split
  next => omega
  next => split <;> omega

theorem rank_of_inner (hkids : (g.node k).kids ≠ []) (hop : (g.node k).op ≠ .args) :
    g.rank k = 2 * k + 1 := by
  rw [rank, if_neg hkids, if_neg hop]

theorem rank_of_args (hkids : (g.node k).kids ≠ []) (hop : (g.node k).op = .args) :
    g.rank k = 2 * k - 2 := by
  rw [rank, if_neg hkids, if_pos hop]

theorem rank_le (g : Forest) (k : NodeId) : g.rank k ≤ 2 * g.size := by
  by_cases hk : k < g.size
  · have hle := g.rank_le_self k
    have hlt := Nat.succ_le_of_lt hk
    omega
  · rw [rank_of_nil (by rw [node_of_le g (Nat.le_of_not_lt hk)])]
    exact Nat.zero_le _

end Forest

namespace Planted

/-- The owner of a node does not rank higher than the node may. -/
theorem rank_owner_le (hp : Planted f trees w) (j : NodeId) :
    w.forest.rank (w.forest.owner j) ≤ 2 * j + 1 := by
  cases ht : (w.forest.node j).target with
  | none =>
    rw [Forest.owner_of_target ht]
    exact w.forest.rank_le_self j
  | some t =>
    obtain ⟨_, _, _, -, _, _, _, hphi⟩ := hp.of_alias ht
    rw [hp.building.flat.owner_alias ht, Forest.rank_of_nil (hp.phi_kids hphi.op)]
    exact Nat.zero_le _

/-- **A measure that falls.** -/
theorem rank_lt (hp : Planted f trees w) (hc : c ∈ w.forest.kidOwners p) :
    w.forest.rank c < w.forest.rank p := by
  obtain ⟨j, hj, rfl⟩ := List.mem_map.mp hc
  have hkids : (w.forest.node p).kids ≠ [] := List.ne_nil_of_mem hj
  have hsize : p < w.forest.size := by
    by_contra hnot
    exact hkids (by rw [Forest.node_of_le _ (Nat.le_of_not_lt hnot)])
  by_cases hop : (w.forest.node p).op = .args
  · cases (hp.building.nodes p hsize).shape with
    | args his hold =>
      rw [Node.kids_of_core his.2] at hj
      have hlt := Nat.succ_le_of_lt (hold j hj).1
      have hle := hp.rank_owner_le j
      rw [Forest.rank_of_args hkids hop]
      omega
    | _ => exact absurd ((Node.op_of_core (And.right (by assumption))).symm.trans hop) NodeOp.noConfusion
  · rw [Forest.rank_of_inner hkids hop]
    cases hp.isKid hj with
    | operand hlt _ =>
      have hlt := Nat.succ_le_of_lt hlt
      have hle := hp.rank_owner_le j
      omega
    | list hnext his _ =>
      have htarget : (w.forest.node j).target = none := Node.target_of_core his.2
      rw [Forest.owner_of_target htarget]
      by_cases hnil : (w.forest.node j).kids = []
      · rw [Forest.rank_of_nil hnil]
        omega
      · rw [Forest.rank_of_args hnil his.op, hnext]
        omega
    | pad his =>
      have htarget : (w.forest.node j).target = none := Node.target_of_core his.2
      rw [Forest.owner_of_target htarget, Forest.rank_of_nil (Node.kids_of_core his.2)]
      omega

theorem falling (hp : Planted f trees w) (hskeleton : w.forest.SameSkeleton g) :
    g.Falling (fun k ↦ g.owner k = k) w.forest.rank where
  closed := (keptByReduction_true (hskeleton.flat hp.building.flat)).2
  falls p _ _ hc := hp.rank_lt (hskeleton.kidOwners p ▸ hc)

end Planted

/-! ## What actions look at -/

theorem Forest.Complete.same (hh : g.Complete) (hskeleton : g.SameSkeleton h) (hslotted : h.Slotted) :
    h.Complete where
  slotted := hslotted
  alloca k hop := by
    have hsource : (h.node k).source = (g.node k).source :=
      (congrArg Node.source (hskeleton.node k) :)
    exact hsource ▸ hh.alloca k ((hskeleton.op k).symm.trans hop)
  icmp k hop := by
    have hpredicate : (h.node k).predicate = (g.node k).predicate :=
      (congrArg Node.predicate (hskeleton.node k) :)
    exact hpredicate ▸ hh.icmp k ((hskeleton.op k).symm.trans hop)
  move k hop := by
    obtain ⟨owner, succ, htarget, howner⟩ := hh.move k ((hskeleton.op k).symm.trans hop)
    exact ⟨owner, succ, (hskeleton.phiTarget k).trans htarget, (hskeleton.op owner).trans howner⟩

/-- Each node of the function has the shape of a part of it, and beyond them there are pads. -/
theorem Planted.shape_or_pad (hp : Planted f trees w) (k : NodeId) :
    w.Shape f k ∨ (w.forest.node k).op = .dummy := by
  by_cases hk : k < w.forest.size
  · exact Or.inl (hp.building.nodes k hk).shape
  · exact Or.inr (by rw [Forest.node_of_le _ (Nat.le_of_not_lt hk)])

/-- A node for an instruction that is no phi. -/
theorem Planted.of_inst (hp : Planted f trees w) {o : Opcode} (hop : (w.forest.node k).op = .inst o)
    (hphi : o ≠ .phi) : ∃ b id i kids, (id, i) ∈ f.blockInsts b ∧ i.opcode = o ∧
      w.Is k (.ofInst b id i kids) := by
  rcases hp.shape_or_pad k with hshape | hdummy
  · have hne : ∀ {n : Node}, w.Is k n → n.op = .inst o := fun his ↦ his.op.symm.trans hop
    cases hshape with
    | @inst b id i kids hi _ his _ =>
      exact ⟨b, id, i, kids, hi, NodeOp.inst.inj (hne his), his⟩
    | phiUse _ _ his _ _ => exact absurd (NodeOp.inst.inj (hne his)).symm hphi
    | _ => exact absurd (hne (by assumption)) NodeOp.noConfusion
  · exact absurd (hdummy.symm.trans hop) NodeOp.noConfusion

/-- **The forest of a function is complete.** -/
theorem Planted.complete (hp : Planted f trees w) : w.forest.Complete where
  slotted := hp.slotted
  alloca k hop := by
    obtain ⟨_, id, _, _, -, -, his⟩ := hp.of_inst hop Opcode.noConfusion
    exact ⟨id, his.source⟩
  icmp k hop := by
    obtain ⟨_, _, i, _, -, hi, his⟩ := hp.of_inst hop Opcode.noConfusion
    have hpredicate : (w.forest.node k).predicate = i.operation.predicate? :=
      (congrArg Node.predicate his.2 :)
    have hicmp : i.operation.opcode = .icmp := hi
    rw [hpredicate]
    cases hoperation : i.operation with
    | icmp p _ _ => exact ⟨p, rfl⟩
    | _ => exact absurd hicmp (by simp [hoperation, Operation.opcode])
  move k hop := by
    rcases hp.shape_or_pad k with hshape | hdummy
    · have hne : ∀ {n : Node}, w.Is k n → n.op = .phiMove := fun his ↦ his.op.symm.trans hop
      cases hshape with
      | @phiMove _ succ _ _ phi _ _ _ _ _ hphi his _ _ =>
        obtain ⟨_, _, _, howner⟩ := hp.building.phis _ _ hphi
        exact ⟨phi, succ, Node.phiTarget_of_core his.2, howner.op⟩
      | _ => exact absurd (hne (by assumption)) NodeOp.noConfusion
    · exact absurd (hdummy.symm.trans hop) NodeOp.noConfusion

/-- A call without a value is nobody's child. -/
theorem Planted.not_voidCall (hp : Planted f trees w)
    (hrec : w.Recorded next ((List.range f.blocks.length).flatMap f.blockOperands) trees.flatten)
    (hvalues : f.UsesValues) (hc : c ∈ w.forest.kidOwners p) : ¬ w.forest.IsVoidCall c := by
  rintro ⟨hop, hwidth⟩
  obtain ⟨b, id, i, kids, hi, hcall, his⟩ := hp.of_inst hop Opcode.noConfusion
  have hbits : i.ty.bits = 0 := by
    have hwidth' : (w.forest.node c).width = (Node.ofInst b id i kids).width := Node.width_of_core his.2
    rw [hwidth, Node.ofInst, hcall] at hwidth'
    exact hwidth'.symm
  -- the operand that made it a child reads its result
  have hreads : f.reads id = 0 := hvalues b (id, i) hi hcall hbits
  obtain ⟨id', hid, hname⟩ := hrec.insts c his.1 _ hop
  obtain rfl := Option.some.inj (his.source.symm.trans hid)
  have hrefs := (hrec.named _ _ hname).trans hreads
  have howner : w.forest.owner c = c := Forest.owner_of_target (Node.target_of_core his.2)
  rw [Forest.refs, howner, hrec.ledger.conserved, hrec.ledger.held] at hrefs
  exact Nat.ne_of_gt (Forest.positions_pos hc) hrefs

end TreeCover
