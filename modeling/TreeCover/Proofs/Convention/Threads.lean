import TreeCover.Proofs.Assembly.Templates
import TreeCover.Proofs.Forest.Declared
import TreeCover.Proofs.Tiling.Invariants

/-!
# The stack in selected code

What selected code has on the stack at some position depends on the position alone. Outside calls
there is nothing; the arguments of a call are put on the stack one by one, the last one first, and
what is there after the call is taken off at once. `Threaded` says this of a list of instructions,
given what a single instruction may do, and `Code.selected_threaded` that all selected code is of
this kind.
-/

namespace TreeCover

open Machine Work

/-! ## Threaded code -/

/-- What code has put on the stack and not taken off: the number of words, and the operands that
were pushed for a call to come, the topmost first. -/
structure Stacked where
  words : Nat
  args : List Operand

namespace Stacked

/-- The stack holds the arguments `os` and nothing else. -/
def holding (os : List Operand) : Stacked := ⟨os.length, os⟩

/-- Nothing is on the stack. -/
def none : Stacked := holding []

/-- The stack still holds what was there for a call. -/
def called (words : Nat) : Stacked := ⟨words, []⟩

end Stacked

/-- Code that changes the stack from one instruction to the next as `R` allows. -/
inductive Threaded (R : Stacked → Inst → Stacked → Prop) : Stacked → List Inst → Stacked → Prop
  | nil (p : Stacked) : Threaded R p [] p
  | cons {p q r : Stacked} {i : Inst} {is : List Inst} (hi : R p i q) (his : Threaded R q is r) :
    Threaded R p (i :: is) r

namespace Threaded

variable {R R' : Stacked → Inst → Stacked → Prop} {p q r : Stacked} {i : Inst} {is js : List Inst}

theorem single (h : R p i q) : Threaded R p [i] q := .cons h (.nil q)

theorem append (h : Threaded R p is q) (h' : Threaded R q js r) : Threaded R p (is ++ js) r := by
  induction h with
  | nil => exact h'
  | cons hi _ ih => exact .cons hi (ih h')

theorem of_append (h : Threaded R p (is ++ js) r) :
    ∃ q, Threaded R p is q ∧ Threaded R q js r := by
  induction is generalizing p with
  | nil => exact ⟨p, .nil p, h⟩
  | cons i is ih =>
    cases h with
    | cons hi his =>
      obtain ⟨q, his, hjs⟩ := ih his
      exact ⟨q, .cons hi his, hjs⟩

theorem mono (h : Threaded R p is q) (hR : ∀ p i q, R p i q → R' p i q) : Threaded R' p is q := by
  induction h with
  | nil => exact .nil _
  | cons hi _ ih => exact .cons (hR _ _ _ hi) ih

/-- Each instruction of threaded code is a step. -/
theorem step_of_mem (h : Threaded R p is q) (hi : i ∈ is) : ∃ p q, R p i q := by
  induction h with
  | nil => exact absurd hi List.not_mem_nil
  | cons hstep _ ih =>
    rcases List.mem_cons.mp hi with rfl | hi
    · exact ⟨_, _, hstep⟩
    · exact ih hi

theorem of_forall (h : ∀ i ∈ is, R p i p) : Threaded R p is p := by
  induction is with
  | nil => exact .nil p
  | cons i is ih =>
    obtain ⟨hi, his⟩ := List.forall_mem_cons.mp h
    exact .cons hi (ih his)

end Threaded

/-! ## Single instructions -/

namespace Machine.Inst

/-- A move to an address. -/
def StoresTo (i : Inst) (bytes : Nat) (m : Mem) : Prop :=
  bytes ∈ [1, 2, 4, 8] ∧ ∃ src, i = { mnemonic := moveMnemonic bytes, operands := [src, .mem m] }

/-- Where an instruction that leaves the stack alone may have its last operand: in a virtual
register, in one of the registers that shifts, divisions and results take, or in memory if it is a
store. -/
inductive IsCalmTarget (i : Inst) : Operand → Prop
  | virt (v : VReg) (width : Nat) : IsCalmTarget i (.reg (.virt v) width)
  | phys {r : PhysReg} (width : Nat) (hr : r ∈ [.rax, .rcx]) : IsCalmTarget i (.reg (.phys r) width)
  | mem {m : Mem} {bytes : Nat} (h : i.StoresTo bytes m) : IsCalmTarget i (.mem m)

/-- A selected instruction that leaves the stack alone. -/
structure Calm (i : Inst) : Prop where
  plain : i.kind = .plain
  name : i.mnemonic ∉ ["call", "pushq", "popq"]
  target : ∀ o, i.operands.getLast? = some o → i.IsCalmTarget o

/-- Takes words off the stack. -/
def pop (words : Nat) : Inst := .update "addq" [.imm (BitVec.ofNat 64 (8 * words)), .phys .rsp]

end Machine.Inst

/-- How an instruction of selected code changes the stack, given which calls there are. -/
inductive SelectedStep (calls : String → List Operand → Prop) : Stacked → Inst → Stacked → Prop
  | calm {i : Inst} (hi : i.Calm) : SelectedStep calls .none i .none
  | push (os : List Operand) (o : Operand) :
    SelectedStep calls (.holding os) (.push o) (.holding (o :: os))
  | call {name : String} {os : List Operand} (h : calls name os) :
    SelectedStep calls (.holding os) (.call name) (.called os.length)
  | pop (words : Nat) : SelectedStep calls (.called words) (.pop words) .none
  | jump (l : LabelId) : SelectedStep calls .none (jumpTo l) .none
  | branch (p : Ir.Predicate) (l : LabelId) :
    SelectedStep calls .none (branchTo (jumpMnemonic p) l) .none
  | ret : SelectedStep calls .none { mnemonic := "ret", operands := [], kind := .ret } .none

/-- The calls in a piece of code: their callees and arguments. -/
def CallsIn (code : List Inst) (name : String) (os : List Operand) : Prop :=
  callCode name os none <:+: code

/-- Selected code that leaves nothing on the stack. -/
def IsThreaded (code : List Inst) : Prop := Threaded (SelectedStep (CallsIn code)) .none code .none

namespace SelectedStep

variable {calls calls' : String → List Operand → Prop} {p q : Stacked} {i : Inst}

theorem mono (h : SelectedStep calls p i q) (hcalls : ∀ name os, calls name os → calls' name os) :
    SelectedStep calls' p i q := by
  cases h with
  | calm hi => exact .calm hi
  | push os o => exact .push os o
  | call h => exact .call (hcalls _ _ h)
  | pop words => exact .pop words
  | jump l => exact .jump l
  | branch p l => exact .branch p l
  | ret => exact .ret

/-- Branches leave the stack alone. -/
theorem branch_cases (h : SelectedStep calls p i q) (hi : i.isBranch = true) :
    ∃ l, (i = jumpTo l ∨ ∃ p, i = branchTo (jumpMnemonic p) l) ∧
      SelectedStep calls .none i .none := by
  cases h with
  | jump l => exact ⟨l, Or.inl rfl, .jump l⟩
  | branch m l => exact ⟨l, Or.inr ⟨m, rfl⟩, .branch m l⟩
  | calm h => exact absurd hi (by simp [Inst.isBranch, h.plain])
  | _ => exact absurd hi (by simp [Inst.isBranch, Inst.push, Inst.call, Inst.pop, Inst.update])

end SelectedStep

theorem IsThreaded.append {is js : List Inst} (h : IsThreaded is) (h' : IsThreaded js) :
    IsThreaded (is ++ js) := by
  refine Threaded.append (q := .none) (h.mono fun _ _ _ hi ↦ hi.mono fun name os hcall ↦ ?_)
    (h'.mono fun _ _ _ hi ↦ hi.mono fun name os hcall ↦ ?_)
  · exact hcall.trans (List.prefix_append is js).isInfix
  · exact hcall.trans (List.suffix_append is js).isInfix

theorem isThreaded_nil : IsThreaded [] := .nil _

/-! ## Expansions -/

namespace Machine.Inst

variable {i : Inst} {v : VReg} {n : Nat} {o : Operand} {mnemonic : String} {ops : List Operand}

theorem Calm.of_virt (hkind : i.kind = .plain) (hname : i.mnemonic ∉ ["call", "pushq", "popq"])
    (hlast : i.operands.getLast? = some (.reg (.virt v) n)) : i.Calm :=
  ⟨hkind, hname, fun o ho ↦ by
    obtain rfl := Option.some.inj (hlast.symm.trans ho)
    exact .virt v n⟩

theorem Calm.of_phys {r : PhysReg} (hkind : i.kind = .plain)
    (hname : i.mnemonic ∉ ["call", "pushq", "popq"])
    (hlast : i.operands.getLast? = some (.reg (.phys r) n)) (hr : r ∈ [.rax, .rcx]) : i.Calm :=
  ⟨hkind, hname, fun o ho ↦ by
    obtain rfl := Option.some.inj (hlast.symm.trans ho)
    exact .phys n hr⟩

theorem calm_moveTo : (moveTo v o).Calm := .of_virt rfl (by decide : "movq" ∉ _) rfl

theorem calm_store {m : Mem} (bits : Nat) :
    Calm { mnemonic := moveMnemonic (accessBytes bits), operands := [o, .mem m] } := by
  have hname : ∀ bits, accessBytes bits ∈ [1, 2, 4, 8] ∧
      moveMnemonic (accessBytes bits) ∉ ["call", "pushq", "popq"] := by
    intro bits
    rw [accessBytes]
    split
    next => decide
    next => split <;> [decide; (split <;> decide)]
  refine ⟨rfl, (hname bits).2, fun o' ho' ↦ ?_⟩
  obtain rfl := Option.some.inj ho'
  exact .mem ⟨(hname bits).1, o, rfl⟩

theorem calm_loadConstant {w : Word} {r : Reg} (hr : (∃ v, r = .virt v) ∨ r = .phys .rax) :
    (loadConstant w (.reg r 8)).Calm := by
  rw [loadConstant]
  split <;> rcases hr with ⟨v, rfl⟩ | rfl
  · exact .of_virt rfl (by decide : "movq" ∉ _) rfl
  · exact .of_phys rfl (by decide : "movq" ∉ _) rfl (by decide)
  · exact .of_virt rfl (by decide : "movabsq" ∉ _) rfl
  · exact .of_phys rfl (by decide : "movabsq" ∉ _) rfl (by decide)

theorem calm_extendInsts {signed : Bool} {bits : Nat} {src dst : VReg} :
    ∀ i ∈ extendInsts signed bits src dst, i.Calm := by
  rw [extendInsts]
  split
  · refine List.forall_mem_append.mpr ⟨List.forall_mem_cons.mpr ⟨calm_moveTo,
      List.forall_mem_singleton.mpr (.of_virt rfl (by decide : "andq" ∉ _) rfl)⟩, ?_⟩
    split
    · exact List.forall_mem_singleton.mpr (.of_virt rfl (by decide : "negq" ∉ _) rfl)
    · exact fun i hi ↦ absurd hi List.not_mem_nil
  · split
    · exact List.forall_mem_singleton.mpr (.of_virt rfl (by decide : "movl" ∉ _) rfl)
    · refine List.forall_mem_singleton.mpr (.of_virt rfl ?_ rfl)
      dsimp only [intoReg, define]
      split <;> decide

end Machine.Inst

section

variable {calls : String → List Operand → Prop} {is : List Inst} {name : String}
  {os acc : List Operand}

theorem isThreaded_of_calm (h : ∀ i ∈ is, i.Calm) : IsThreaded is :=
  .of_forall fun i hi ↦ .calm (h i hi)

/-- Arguments are put on the stack one by one. -/
theorem threaded_pushes : Threaded (SelectedStep calls) (.holding acc) (os.reverse.map .push)
    (.holding (os ++ acc)) := by
  induction os with
  | nil => exact .nil _
  | cons o os ih =>
    rw [List.reverse_cons, List.map_append]
    exact ih.append (.single (.push (os ++ acc) o))

theorem threaded_popCode (words : Nat) :
    Threaded (SelectedStep calls) (.called words) (popCode words) .none := by
  rw [popCode]
  split
  next h =>
    subst h
    exact .nil _
  next => exact .single (.pop words)

theorem callCode_eq (name : String) (os : List Operand) :
    callCode name os none = os.reverse.map .push ++ (.call name :: popCode os.length) := by
  rw [callCode, Option.map_none, Option.toList_none, List.append_nil]
  rfl

theorem isThreaded_callCode (name : String) (os : List Operand) (result? : Option VReg) :
    IsThreaded (callCode name os result?) := by
  have hcall : IsThreaded (callCode name os none) := by
    have hpushes : Threaded (SelectedStep (CallsIn (callCode name os none))) (.holding [])
        (os.reverse.map .push) (.holding (os ++ [])) := threaded_pushes
    rw [List.append_nil] at hpushes
    have hall := hpushes.append
      (.cons (.call (List.infix_refl (callCode name os none))) (threaded_popCode os.length))
    rwa [← callCode_eq] at hall
  cases result? with
  | none => exact hcall
  | some v =>
    rw [callCode_append]
    exact hcall.append (isThreaded_of_calm (List.forall_mem_singleton.mpr Inst.calm_moveTo))

end

/-- Whether an action leaves the stack and the flow of control alone. -/
def Action.isCalm : Action → Bool
  | .call | .jump | .branchCond | .branchTest | .ret => false
  | _ => true

section

variable {n : Node} {frame : Frame} {kids : List Bound} {v : VReg} {action : Action} {is : List Inst}
  {b : Bound}

/-- Such an action emits instructions that leave the stack alone. -/
theorem Expands.calm (h : Expands n frame kids v action is b) (hknown : action.isKnown = true)
    (hcalm : action.isCalm = true) : ∀ i ∈ is, i.Calm := by
  have hone {i : Inst} (hi : i.Calm) : ∀ j ∈ [i], j.Calm := List.forall_mem_singleton.mpr hi
  have hcopied {i : Inst} {u dst : VReg} (hi : i.Calm) : ∀ j ∈ [moveTo dst (.vreg u), i], j.Calm :=
    List.forall_mem_cons.mpr ⟨Inst.calm_moveTo, List.forall_mem_singleton.mpr hi⟩
  cases h with
  | loadImm => exact hone (Inst.calm_loadConstant (Or.inl ⟨v, rfl⟩))
  | loadMem => exact hone Inst.calm_moveTo
  | lea => exact hone (.of_virt rfl (by decide : "leaq" ∉ _) rfl)
  | @setCond p =>
    have hset : setMnemonic p ∉ ["call", "pushq", "popq"] := by cases p <;> decide
    exact List.forall_mem_cons.mpr ⟨.of_virt rfl hset rfl,
      List.forall_mem_singleton.mpr (.of_virt rfl (by decide : "movzbq" ∉ _) rfl)⟩
  | load =>
    refine hone (.of_virt rfl ?_ rfl)
    change loadMnemonic n.width ∉ _
    unfold loadMnemonic
    split <;> decide
  | storeReg | storeImm => exact hone (Inst.calm_store _)
  | @binary mnemonic =>
    have hmnemonic : mnemonic ∈ Inst.binaryMnemonics := of_decide_eq_true hknown
    refine hcopied (.of_virt rfl (fun hmem ↦ ?_) rfl)
    exact (by decide : ∀ m ∈ Inst.binaryMnemonics, m ∉ ["call", "pushq", "popq"]) _ hmnemonic hmem
  | mulImm => exact hone (.of_virt rfl (by decide : "imulq" ∉ _) rfl)
  | @divide remainder lhs rhs =>
    refine List.forall_mem_cons.mpr ⟨.of_phys rfl (by decide : "movq" ∉ _) rfl
      (by decide), List.forall_mem_cons.mpr ⟨⟨rfl, (by decide : "cqto" ∉ _), fun o ho ↦ ?_⟩,
        List.forall_mem_cons.mpr ⟨.of_virt rfl (by decide : "idivq" ∉ _) rfl,
          List.forall_mem_singleton.mpr Inst.calm_moveTo⟩⟩⟩
    exact absurd ho (by simp)
  | @shift mnemonic =>
    have hmnemonic : mnemonic ∈ Inst.shiftMnemonics := of_decide_eq_true hknown
    refine hcopied (.of_virt rfl (fun hmem ↦ ?_) rfl)
    exact (by decide : ∀ m ∈ Inst.shiftMnemonics, m ∉ ["call", "pushq", "popq"]) _ hmnemonic hmem
  | @shiftByReg mnemonic =>
    have hmnemonic : mnemonic ∈ Inst.shiftMnemonics := of_decide_eq_true hknown
    refine List.forall_mem_cons.mpr ⟨.of_phys rfl (by decide : "movq" ∉ _) rfl
      (by decide), List.forall_mem_cons.mpr ⟨Inst.calm_moveTo,
        List.forall_mem_singleton.mpr (.of_virt rfl (fun hmem ↦ ?_) rfl)⟩⟩
    exact (by decide : ∀ m ∈ Inst.shiftMnemonics, m ∉ ["call", "pushq", "popq"]) _ hmnemonic hmem
  | compare => exact hone (.of_virt rfl (by decide : "cmpq" ∉ _) rfl)
  | signExtend | zeroExtend => exact Inst.calm_extendInsts
  | callVoid | call | jump | branchCond | branchTest | retVoid | retImm | ret =>
    exact absurd hcalm Bool.false_ne_true
  | _ => exact List.forall_mem_nil _

/-- What an action emits leaves nothing on the stack. -/
theorem Expands.isThreaded (h : Expands n frame kids v action is b) (hknown : action.isKnown = true) :
    IsThreaded is := by
  by_cases hcalm : action.isCalm = true
  · exact isThreaded_of_calm (h.calm hknown hcalm)
  cases h with
  | jump => exact .single (.jump _)
  | branchCond => exact .cons (.branch _ _) (.single (.jump _))
  | branchTest =>
    exact .cons (.calm (.of_virt rfl (by decide : "testq" ∉ _) rfl))
      (.cons (.branch .ne _) (.single (.jump _)))
  | retVoid => exact .single .ret
  | retImm => exact .cons (.calm (Inst.calm_loadConstant (Or.inr rfl))) (.single .ret)
  | ret =>
    exact .cons (.calm (.of_phys rfl (by decide : "movq" ∉ _) rfl (by decide))) (.single .ret)
  | callVoid | call => exact isThreaded_callCode _ _ _
  | extendWhole h => exact isThreaded_nil
  | _ => exact absurd rfl hcalm

end

/-! ## Selected code -/

/-- The code of every block leaves nothing on the stack. -/
def Machine.Code.IsThreaded (c : Code) : Prop :=
  ∀ is ∈ c.blocks.map (·.insts), TreeCover.IsThreaded is

theorem Machine.Code.IsThreaded.appended {c : Code} {is : List Inst} (h : c.IsThreaded)
    (his : TreeCover.IsThreaded is) :
    ∀ js ∈ (c.blocks.map (·.insts)).modify c.current (· ++ is), TreeCover.IsThreaded js := by
  intro js hjs
  obtain ⟨k, hk⟩ := List.getElem?_of_mem hjs
  rw [List.getElem?_modify] at hk
  obtain ⟨js', hjs', rfl⟩ := Option.map_eq_some_iff.mp hk
  have hmem := h js' (List.mem_of_getElem? hjs')
  split
  · exact hmem.append his
  · exact hmem

theorem keptBySelection_isThreaded : KeptBySelection Code.IsThreaded where
  action r hr id kids w b w' hw h := by
    by_cases hphi : r.action = .phiInput
    · obtain ⟨_, _, _, _, -, -, -, -, rfl⟩ := applyRule_phiInput hphi h
      rw [Code.IsThreaded, Code.insts_addPhiInput]
      exact hw
    · obtain ⟨is, hexpands, hemits, -⟩ := applyRule_expands h hphi
      rw [Code.IsThreaded, hemits.insts]
      exact hw.appended (hexpands.isThreaded (Grammar.isKnown r hr))
  block c b label h := by
    have hinsts : (c.beginBlock b label).blocks.map (·.insts) = c.blocks.map (·.insts) := by
      refine List.ext_getElem? fun k ↦ ?_
      rw [Code.beginBlock, Code.updateBlock, List.getElem?_map, List.getElem?_map,
        List.getElem?_modify]
      cases c.blocks[k]? with
      | none => rfl
      | some block => split <;> rfl
    rw [Code.IsThreaded, hinsts]
    exact h

/-- **The stack in selected code.** In every block of selected code the stack is empty outside
calls, and a call finds its arguments on it. -/
theorem selected_isThreaded {f : Ir.Func} {s : Session} {u : Unit} {w : Workspace}
    (hx : (buildForest f >>= selectAll) (.start f s) = .ok u w) : w.code.IsThreaded := by
  obtain ⟨trees, w₀, hbuild, hselect⟩ := bind_eq_ok.mp hx
  obtain ⟨hp, -⟩ := buildForest_planted hbuild
  refine keptBySelection_isThreaded.selectAll (fun is his ↦ ?_) hselect
  obtain ⟨b, hb, rfl⟩ := List.mem_map.mp his
  obtain ⟨k, hk⟩ := List.getElem?_of_mem hb
  have hblank := hp.declared.blank.insts k
  rw [instsAt, hk] at hblank
  have hinsts : b.insts = [] := hblank
  rw [hinsts]
  exact isThreaded_nil

end TreeCover
