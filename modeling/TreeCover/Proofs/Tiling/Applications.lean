import TreeCover.Proofs.Tiling.Calls
import TreeCover.Proofs.Tiling.Supply

/-!
# Applications of rules

All code that selection emits comes from runs of the actions of rules. An application is one such run,
with the states before and after it. The code of an application follows on what its block held
before; it draws at most one register, and only the last instructions of the application write it.
-/

namespace TreeCover

open Ir Machine Work

variable {n : Node} {frame : Frame} {kids : List Bound} {v x : VReg} {action : Action}
  {i : Machine.Inst} {is js : List Machine.Inst} {b : Bound} {fuel : Nat} {id : NodeId}
  {nt : Nonterminal} {w w' : Workspace}

/-! ## Templates -/

/-- The last of some instructions write `v`, and the others write nothing. -/
def WritesLast (v : VReg) (is : List Machine.Inst) : Prop :=
  ∃ head last, is = head ++ last ∧ (∀ i ∈ head, i.defs = []) ∧ ∀ i ∈ last, i.defs = [v]

namespace WritesLast

theorem of_writing (h : ∀ i ∈ is, i.defs = [v]) : WritesLast v is :=
  ⟨[], is, rfl, fun _ hi ↦ absurd hi List.not_mem_nil, h⟩

theorem of_silent (hhead : ∀ i ∈ is, i.defs = []) (h : WritesLast v js) : WritesLast v (is ++ js) := by
  obtain ⟨head, last, rfl, hsilent, hlast⟩ := h
  refine ⟨is ++ head, last, (List.append_assoc ..).symm, ?_, hlast⟩
  exact List.forall_mem_append.mpr ⟨hhead, hsilent⟩

theorem silent (h : ∀ i ∈ is, i.defs = []) : WritesLast v is := by
  rw [← List.append_nil is]
  exact of_silent h (of_writing fun _ hi ↦ absurd hi List.not_mem_nil)

theorem eq_of_mem (h : WritesLast v is) (hx : x ∈ defsOf is) : x = v := by
  obtain ⟨head, last, rfl, hhead, hlast⟩ := h
  obtain ⟨i, hi, hx⟩ := mem_defsOf.mp hx
  rcases List.mem_append.mp hi with hi | hi
  · exact absurd hx (hhead i hi ▸ List.not_mem_nil)
  · exact List.mem_singleton.mp (hlast i hi ▸ hx)

theorem cons (hi : i.defs = []) (h : WritesLast v is) : WritesLast v (i :: is) := by
  have hone : ∀ j ∈ [i], j.defs = [] := List.forall_mem_singleton.mpr hi
  exact of_silent hone h

end WritesLast

theorem defs_extendInsts (signed : Bool) (bits : Nat) (src : VReg) :
    ∀ i ∈ extendInsts signed bits src v, i.defs = [v] := by
  rw [extendInsts]
  split
  next => cases signed <;> simp
  next => split <;> simp

theorem defs_callCode (callee : String) (os : List Machine.Operand) :
    ∀ i ∈ callCode callee os none, i.defs = [] := by
  intro i hi
  simp only [callCode, popCode, List.mem_append, List.mem_map, List.mem_cons, Option.map_none,
    Option.toList_none, List.not_mem_nil, or_false] at hi
  rcases hi with ⟨o, -, rfl⟩ | rfl | hi
  · rfl
  · rfl
  · split at hi
    next => exact absurd hi List.not_mem_nil
    next =>
      rw [List.mem_singleton.mp hi]
      rfl

/-- **Templates.** What an action emits writes the new register only, and writes it last. -/
theorem Expands.writesLast (h : Expands n frame kids v action is b) : WritesLast v is := by
  cases h with
  | loadImm | loadMem | lea | setCond | mulImm | shift => exact .of_writing (by simp)
  | load => exact .of_writing (List.forall_mem_singleton.mpr rfl)
  | binary =>
    apply WritesLast.of_writing
    simp only [List.forall_mem_cons, defs_moveTo]
    exact ⟨trivial, rfl, fun _ hi ↦ absurd hi List.not_mem_nil⟩
  | signExtend | zeroExtend => exact .of_writing (defs_extendInsts _ _ _)
  | divide => exact .cons rfl (.cons rfl (.cons rfl (.of_writing (by simp))))
  | shiftByReg => exact .cons rfl (.of_writing (by simp))
  | call =>
    rw [callCode_append]
    exact .of_silent (defs_callCode _ _) (.of_writing (by simp))
  | callVoid => exact .silent (defs_callCode _ _)
  | _ => exact .silent (by simp [jumpTo, branchTo])

/-- What comes before the writes is read from what was known. -/
theorem ReadsFrom.of_silent {known : VReg → Prop} (h : ReadsFrom known (is ++ js))
    (hsilent : ∀ i ∈ is, i.defs = []) (hi : i ∈ is) (hx : x ∈ i.uses) : known x := by
  induction is generalizing known with
  | nil => exact absurd hi List.not_mem_nil
  | cons j is ih =>
    obtain ⟨hj, hsilent⟩ := List.forall_mem_cons.mp hsilent
    rcases List.mem_cons.mp hi with rfl | hi
    · exact h.1 x hx
    · refine (ih h.2 hsilent hi).resolve_left ?_
      rw [hj]
      exact List.not_mem_nil

/-! ## Applications -/

/-- A run of the action of a rule that succeeds. -/
structure Application where
  rule : Rule
  node : NodeId
  /-- The results of the leaves. -/
  kids : List Bound
  result : Bound
  before : Workspace
  after : Workspace
  runs : applyRule rule node kids before = .ok result after

namespace Application

/-- The block that is being selected. -/
def block (a : Application) : Nat := a.before.code.current

/-- What is appended to the block. -/
def code (a : Application) : List Machine.Inst :=
  (instsAt a.after.code.blocks a.block).drop (instsAt a.before.code.blocks a.block).length

/-- The reduction of `id` to `nt` from `w` follows the rule of the application, which is run once its
leaves have been reduced, each with the given fuel. -/
structure Ends (a : Application) (fuel : Nat) (id : NodeId) (nt : Nonterminal) (w : Workspace) :
    Prop where
  pending : (w.forest.node (w.forest.owner id)).reuse? nt = none
  node : a.node = w.forest.owner id
  rule : w.labels.rule? a.node nt = some a.rule
  kids : (a.rule.pattern.takeLeaves a.node w.forest).1.mapM (reduceLeaf fuel)
    (w.took a.rule a.node nt) = .ok a.kids a.before

end Application

/-! ## What an application does -/

/-- The registers in the slot of a node. -/
def Slot.vregs : Slot → List VReg
  | .vreg v => [v]
  | .mem m => m.vregs
  | _ => []

/-- All registers in slots are among the first ones. -/
def Forest.SlotsBelow (f : Forest) (bound : Nat) : Prop := ∀ k, ∀ x ∈ (f.node k).slot.vregs, x < bound

namespace Application

variable {a : Application}

theorem code_of_instsAt (h : instsAt a.after.code.blocks a.block
    = instsAt a.before.code.blocks a.block ++ is) : a.code = is := by
  rw [code, h, List.drop_left]

/-- The record of an input of a phi is no code. -/
theorem code_phiInput (hphi : a.rule.action = .phiInput) : a.code = [] := by
  obtain ⟨owner, succ, dst, value, -, -, -, -, hafter⟩ := applyRule_phiInput hphi a.runs
  apply code_of_instsAt
  rw [hafter, Code.instsAt_addPhiInput, List.append_nil]

/-- Any other application appends its code to the block, and writes one new register last. -/
theorem emits (hphi : a.rule.action ≠ .phiInput)
    (hcurrent : a.before.code.current < a.before.code.blocks.length) :
    Emits a.before a.after a.code ∧ WritesLast a.before.code.vregs a.code ∧
      a.before.forest.SameButRoles a.after.forest := by
  obtain ⟨is, hexpands, hemits, hforest⟩ := applyRule_expands a.runs hphi
  obtain rfl := code_of_instsAt (hemits.instsAt hcurrent)
  exact ⟨hemits, hexpands.writesLast, hforest⟩

/-- If the leaves and the slots hold registers that were drawn before, nothing else is read, and what is
written and what comes out has been drawn afterwards. -/
theorem drawn (hphi : a.rule.action ≠ .phiInput)
    (hcurrent : a.before.code.current < a.before.code.blocks.length)
    (hframe : a.before.code.frame.Addressed)
    (hkids : ∀ kid ∈ a.kids, ∀ x ∈ kid.vregs, x < a.before.code.vregs)
    (hslots : a.before.forest.SlotsBelow a.before.code.vregs) :
    ReadsFrom (· < a.before.code.vregs) a.code ∧ (∀ x ∈ defsOf a.code, x < a.after.code.vregs) ∧
      ∀ x ∈ a.result.vregs, x < a.after.code.vregs := by
  obtain ⟨hemits, -, -⟩ := a.emits hphi hcurrent
  cases hlocal : a.rule.action.isLocal with
  | true =>
    have hgiven : ∀ x ∈ a.kids.flatMap Bound.vregs, x < a.before.code.vregs := by
      intro x hx
      obtain ⟨kid, hkid, hx⟩ := List.mem_flatMap.mp hx
      exact hkids kid hkid x hx
    obtain ⟨is, htidy, -, hreads, hdefs, hresult⟩ := applyRule_tidily
      (fun kid hkid x hx ↦ List.mem_flatMap.mpr ⟨kid, hkid, hx⟩) hlocal _ _ _ hframe a.runs
    obtain rfl := code_of_instsAt (htidy.instsAt hcurrent)
    have hdrawn : ∀ x ∈ defsOf a.code, x < a.after.code.vregs :=
      fun x hx ↦ ((hdefs x hx).resolve_left List.not_mem_nil).2
    refine ⟨hreads.mono hgiven, hdrawn, fun x hx ↦ ?_⟩
    rcases hresult x hx with hx | hx
    · exact Nat.lt_of_lt_of_le (hgiven x hx) hemits.vregs
    · exact hdrawn x hx
  | false =>
    -- the register or the slot of a value is in the slot of its node
    suffices hslot : a.after = a.before ∧ ∀ x ∈ a.result.vregs, x < a.before.code.vregs by
      have hcode : a.code = [] := code_of_instsAt (by rw [hslot.1, List.append_nil])
      rw [hcode, hslot.1]
      exact ⟨trivial, fun x hx ↦ absurd hx List.not_mem_nil, hslot.2⟩
    rcases Action.of_not_isLocal hlocal with haction | haction | haction
    · obtain ⟨v, hslot, hresult, hafter⟩ := applyRule_register haction a.runs
      refine ⟨hafter, fun x hx ↦ hslots a.node x ?_⟩
      rwa [hslot, Slot.vregs, ← Bound.vregs_reg, ← hresult]
    · obtain ⟨m, hslot, hresult, hafter⟩ := applyRule_memory haction a.runs
      refine ⟨hafter, fun x hx ↦ hslots a.node x ?_⟩
      rwa [hslot, Slot.vregs, ← Bound.vregs_mem, ← hresult]
    · exact absurd haction hphi

end Application

/-! ## Reductions -/

/-- A reduction that succeeds finds its result in the node, or ends with an application. -/
theorem reduceFrom_eq_ok (h : reduceFrom (fuel + 1) id nt w = .ok b w') :
    ((w.forest.node (w.forest.owner id)).reuse? nt = some b ∧ w' = w) ∨
      ∃ a : Application, a.Ends fuel id nt w ∧ a.result = b ∧
        settle a.node nt b a.after = .ok b w' := by
  cases hreuse : (w.forest.node (w.forest.owner id)).reuse? nt with
  | some b' =>
    rw [reduceFrom_of_reuse hreuse] at h
    obtain ⟨rfl, rfl⟩ := EStateM.Result.ok.inj h
    exact Or.inl ⟨rfl, rfl⟩
  | none =>
    right
    cases hrule : w.labels.rule? (w.forest.owner id) nt with
    | none =>
      rw [reduceFrom, get_bind, node_bind] at h
      simp only [hreuse, hrule, get_bind] at h
      exact absurd h failCovering_ne_ok
    | some r =>
      rw [reduceFrom_of_rule hreuse hrule] at h
      obtain ⟨kids, w₁, hkids, h⟩ := bind_eq_ok.mp h
      obtain ⟨result, w₂, happly, hsettle⟩ := bind_eq_ok.mp h
      obtain ⟨_, hok⟩ := settle_ok (w.forest.owner id) nt result w₂
      obtain ⟨rfl, rfl⟩ := EStateM.Result.ok.inj (hok.symm.trans hsettle)
      exact ⟨⟨r, _, kids, _, w₁, w₂, happly⟩, ⟨hreuse, rfl, hrule, hkids⟩, rfl, hsettle⟩

/-- Selection of `trees` from `w` makes the application: it is the end of a reduction to which the
reduction of some root comes. -/
def Applies (trees : List (List NodeId)) (w : Workspace) (a : Application) : Prop :=
  ∃ root goal v u fuel id nt u', Comes trees w root v ∧ Starts root goal v u ∧
    Calls ((u.forest.size + 1) * (Nonterminal.all.length + 1)) root goal u (fuel + 1) id nt u' ∧
    a.Ends fuel id nt u'

end TreeCover
