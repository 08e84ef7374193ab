import TreeCover.Proofs.Machine.Core

/-!
# Control

Code is a list of instructions, and control is a position in it. A straight instruction acts on the
machine and goes on to the next position, a label does nothing, a jump goes to the position of the
label it names, a branch does so if its condition holds, and a return is where an execution ends.
Control that gets behind the last instruction, or whose label is nowhere, is stuck.

An execution is described by the straight instructions that were executed on the way, in order;
that is all of it that acts on registers and memory. Between two branches control has no choice:
`Leads` says which instructions it executes from one position to another, whatever the machine
holds.
-/

namespace TreeCover.Machine

/-! ## Instructions -/

namespace Inst

/-- Whether control goes from an instruction to the next one and nowhere else, and something may
happen on the way. -/
def isStraight (i : Inst) : Bool := i.kind = .plain ∨ i.kind = .call

/-- The label that an instruction defines. -/
def label? (i : Inst) : Option LabelId :=
  match i.kind with
  | .label l => some l
  | _ => none

theorem isStraight_of_plain {i : Inst} (h : i.kind = .plain) : i.isStraight = true := by
  simp [isStraight, h]

theorem isStraight_of_jump {i : Inst} (h : i.kind = .jump) : i.isStraight = false := by
  simp [isStraight, h]

theorem label?_of_isStraight {i : Inst} (h : i.isStraight = true) : i.label? = none := by
  rw [isStraight, decide_eq_true_eq] at h
  rcases h with h | h <;> rw [label?, h]

end Inst

/-- The condition on which an instruction jumps. -/
def jumpCondition? (mnemonic : String) : Option Ir.Predicate :=
  [.eq, .ne, .slt, .sle, .sgt, .sge, .ult, .ule, .ugt, .uge].find? (jumpMnemonic · == mnemonic)

theorem jumpCondition?_jumpMnemonic (p : Ir.Predicate) : jumpCondition? (jumpMnemonic p) = some p := by
  cases p <;> decide

namespace Core

/-- Takes a word from the stack. -/
def pop (s : Core) (q : PhysReg) : Core :=
  (s.setReg (.phys .rsp) (s.regs (.phys .rsp) + 8)).setReg (.phys q)
    (s.mem.word (s.regs (.phys .rsp)))

/-- One straight instruction; beside those that selection emits, a finished function takes its
frame pointer from the stack. -/
def execute (c : Callee) (s : Core) (i : Inst) : Option Core :=
  match i.mnemonic, i.operands with
  | "popq", [.reg (.phys q) 8] => some (s.pop q)
  | _, _ => s.step c i

/-- Straight instructions in order. -/
def executeAll (c : Callee) (is : List Inst) (s : Core) : Option Core := is.foldlM (execute c) s

variable {c : Callee} {s : Core} {i : Inst} {is js : List Inst}

theorem execute_of_ne (h : i.mnemonic ≠ "popq") : s.execute c i = s.step c i := by
  rw [execute]
  split
  next heq _ => exact absurd heq h
  next => rfl

@[simp]
theorem executeAll_nil : executeAll c [] s = some s := rfl

theorem executeAll_cons :
    executeAll c (i :: is) s = (s.execute c i).bind (executeAll c is) := rfl

theorem executeAll_append :
    executeAll c (is ++ js) s = (executeAll c is s).bind (executeAll c js) := List.foldlM_append

end Core

/-! ## Executions -/

/-- A position in the code, and what the machine holds there. -/
structure Point where
  pc : Nat
  core : Core

/-- The position of a label. -/
def position? (code : List Inst) (l : LabelId) : Option Nat :=
  code.findIdx? fun i ↦ i.label? == some l

/-- The position that a jump names. -/
def destination? (code : List Inst) (i : Inst) : Option Nat :=
  match i.operands.head? with
  | some (.label l) => position? code l
  | _ => none

namespace Point

/-- One step of control; there is none after a return. -/
def next (c : Callee) (code : List Inst) (x : Point) : Option Point := do
  let i ← code[x.pc]?
  match i.kind with
  | .plain | .call => (x.core.execute c i).map fun s ↦ ⟨x.pc + 1, s⟩
  | .label _ => some ⟨x.pc + 1, x.core⟩
  | .jump => (destination? code i).map fun q ↦ ⟨q, x.core⟩
  | .branch => do
    let p ← jumpCondition? i.mnemonic
    if x.core.flags.holds p then (destination? code i).map fun q ↦ ⟨q, x.core⟩
    else some ⟨x.pc + 1, x.core⟩
  | .ret => none

/-- The straight instruction that the next step executes, if it is one. -/
def executed (code : List Inst) (x : Point) : List Inst := code[x.pc]?.toList.filter (·.isStraight)

end Point

/-- `Steps c code n x w y` says that control gets from `x` to `y` in `n` steps and executes the
straight instructions `w` on the way. -/
inductive Steps (c : Callee) (code : List Inst) : Nat → Point → List Inst → Point → Prop where
  | refl (x : Point) : Steps c code 0 x [] x
  | head {n : Nat} {x y z : Point} {w : List Inst} (h : x.next c code = some y)
    (hs : Steps c code n y w z) : Steps c code (n + 1) x (x.executed code ++ w) z

section

variable {c : Callee} {code : List Inst} {x y z : Point} {v w : List Inst} {i : Inst} {l : LabelId}
  {pc q m n : Nat} {s : Core}

theorem Steps.trans (h : Steps c code n x v y) (h' : Steps c code m y w z) :
    Steps c code (n + m) x (v ++ w) z := by
  induction h with
  | refl =>
    rw [Nat.zero_add]
    exact h'
  | head hnext _ ih =>
    rw [List.append_assoc, Nat.add_right_comm]
    exact .head hnext (ih h')

/-! ## Single steps -/

namespace Point

theorem next_straight (hi : code[pc]? = some i) (h : i.isStraight = true) :
    next c code ⟨pc, s⟩ = (s.execute c i).map fun s' ↦ ⟨pc + 1, s'⟩ := by
  rw [Inst.isStraight, decide_eq_true_eq] at h
  rw [next, hi, Option.bind_eq_bind, Option.bind_some]
  rcases h with h | h <;> rw [h]

theorem executed_straight (hi : code[pc]? = some i) (h : i.isStraight = true) :
    executed code ⟨pc, s⟩ = [i] := by
  rw [executed, hi, Option.toList_some, List.filter_cons_of_pos h, List.filter_nil]

theorem executed_control (hi : code[pc]? = some i) (h : i.isStraight = false) :
    executed code ⟨pc, s⟩ = [] := by
  rw [executed, hi, Option.toList_some, List.filter_cons_of_neg (by simp [h]), List.filter_nil]

theorem next_label (hi : code[pc]? = some (.label l)) :
    next c code ⟨pc, s⟩ = some ⟨pc + 1, s⟩ := by
  rw [next, hi]
  rfl

theorem next_jump (hi : code[pc]? = some i) (h : i.kind = .jump) (hq : destination? code i = some q) :
    next c code ⟨pc, s⟩ = some ⟨q, s⟩ := by
  rw [next, hi, Option.bind_eq_bind, Option.bind_some, h]
  simp only [hq, Option.map_some]

theorem next_taken {p : Ir.Predicate} (hi : code[pc]? = some i) (h : i.kind = .branch)
    (hp : jumpCondition? i.mnemonic = some p) (hholds : s.flags.holds p = true)
    (hq : destination? code i = some q) : next c code ⟨pc, s⟩ = some ⟨q, s⟩ := by
  rw [next, hi, Option.bind_eq_bind, Option.bind_some, h]
  simp [hp, hq, hholds]

theorem next_other {p : Ir.Predicate} (hi : code[pc]? = some i) (h : i.kind = .branch)
    (hp : jumpCondition? i.mnemonic = some p) (hholds : s.flags.holds p = false) :
    next c code ⟨pc, s⟩ = some ⟨pc + 1, s⟩ := by
  rw [next, hi, Option.bind_eq_bind, Option.bind_some, h]
  simp [hp, hholds]

/-- A jump or a branch leads to the label it names, and a branch also to what is behind it. -/
theorem next_cases (hi : code[x.pc]? = some i) (h : i.kind = .jump ∨ i.kind = .branch)
    (hnext : next c code x = some y) : (∃ q, destination? code i = some q ∧ y = ⟨q, x.core⟩) ∨
      i.kind = .branch ∧ y = ⟨x.pc + 1, x.core⟩ := by
  rw [next, hi, Option.bind_eq_bind, Option.bind_some] at hnext
  rcases h with h | h <;> rw [h] at hnext
  · obtain ⟨q, hq, rfl⟩ := Option.map_eq_some_iff.mp hnext
    exact Or.inl ⟨q, hq, rfl⟩
  · obtain ⟨p, -, hnext⟩ := Option.bind_eq_some_iff.mp hnext
    split at hnext
    · obtain ⟨q, hq, rfl⟩ := Option.map_eq_some_iff.mp hnext
      exact Or.inl ⟨q, hq, rfl⟩
    · exact Or.inr ⟨h, (Option.some.inj hnext).symm⟩

theorem next_ret (hi : code[pc]? = some i) (h : i.kind = .ret) : next c code ⟨pc, s⟩ = none := by
  rw [next, hi, Option.bind_eq_bind, Option.bind_some, h]

end Point

theorem Steps.straight {s' : Core} (hi : code[pc]? = some i) (h : i.isStraight = true)
    (hs : s.execute c i = some s') (hrest : Steps c code n ⟨pc + 1, s'⟩ w z) :
    Steps c code (n + 1) ⟨pc, s⟩ (i :: w) z := by
  have hnext : Point.next c code ⟨pc, s⟩ = some ⟨pc + 1, s'⟩ := by
    rw [Point.next_straight hi h, hs, Option.map_some]
  have hsteps := Steps.head hnext hrest
  rwa [Point.executed_straight hi h] at hsteps

theorem Steps.control (hi : code[pc]? = some i) (h : i.isStraight = false)
    (hnext : Point.next c code ⟨pc, s⟩ = some y) (hrest : Steps c code n y w z) :
    Steps c code (n + 1) ⟨pc, s⟩ w z := by
  have hsteps := Steps.head hnext hrest
  rwa [Point.executed_control hi h] at hsteps

/-- An execution that begins with a step of control goes on from where that leads. -/
theorem Steps.of_control (hi : code[pc]? = some i) (h : i.isStraight = false)
    (hnext : Point.next c code ⟨pc, s⟩ = some y) (hv : Steps c code n ⟨pc, s⟩ v z) :
    (n = 0 ∧ v = [] ∧ z = ⟨pc, s⟩) ∨ ∃ m, n = m + 1 ∧ Steps c code m y v z := by
  cases hv with
  | refl => exact Or.inl ⟨rfl, rfl, rfl⟩
  | head hnext' hrest =>
    obtain rfl := Option.some.inj (hnext.symm.trans hnext')
    rw [Point.executed_control hi h]
    exact Or.inr ⟨_, rfl, hrest⟩

end

/-! ## Positions without a choice -/

/-- `Leads code n pc w q` says that control at `pc` executes the straight instructions `w`, passing
labels and jumps only, and is at `q` after `n` steps. -/
inductive Leads (code : List Inst) : Nat → Nat → List Inst → Nat → Prop where
  | refl (q : Nat) : Leads code 0 q [] q
  | straight {n pc q : Nat} {i : Inst} {w : List Inst} (hi : code[pc]? = some i)
    (h : i.isStraight = true) (hw : Leads code n (pc + 1) w q) : Leads code (n + 1) pc (i :: w) q
  | control {n pc k q : Nat} {i : Inst} {w : List Inst} (hi : code[pc]? = some i)
    (h : i.isStraight = false) (hk : ∀ c s, Point.next c code ⟨pc, s⟩ = some ⟨k, s⟩)
    (hw : Leads code n k w q) : Leads code (n + 1) pc w q

namespace Leads

variable {c : Callee} {code : List Inst} {v w : List Inst} {i : Inst} {l : LabelId}
  {m n k pc q r : Nat} {s z : Core} {y : Point}

theorem label (hi : code[pc]? = some (.label l)) (hw : Leads code n (pc + 1) w q) :
    Leads code (n + 1) pc w q := .control hi rfl (fun _ _ ↦ Point.next_label hi) hw

theorem jump (hi : code[pc]? = some i) (h : i.kind = .jump) (hk : destination? code i = some k)
    (hw : Leads code n k w q) : Leads code (n + 1) pc w q :=
  .control hi (Inst.isStraight_of_jump h) (fun _ _ ↦ Point.next_jump hi h hk) hw

theorem trans (h : Leads code n pc v q) (h' : Leads code m q w r) :
    Leads code (n + m) pc (v ++ w) r := by
  induction h with
  | refl =>
    rw [Nat.zero_add]
    exact h'
  | straight hi hs _ ih =>
    rw [Nat.add_right_comm]
    exact .straight hi hs (ih h')
  | control hi hc hk _ ih =>
    rw [Nat.add_right_comm]
    exact .control hi hc hk (ih h')

end Leads

/-! ## Executions without a choice -/

/-- From `x` control can do nothing but execute `w`, within the code, and if every instruction of
`w` has a result it is at `q` after `n` steps. -/
structure Performs (c : Callee) (code : List Inst) (n : Nat) (x : Point) (w : List Inst) (q : Nat) :
    Prop where
  arrives : ∀ z, Core.executeAll c w x.core = some z → Steps c code n x w ⟨q, z⟩
  confined : ∀ m v y, Steps c code m x v y → (v <+: w ∧ y.pc < code.length) ∨
    ∃ z u k, v = w ++ u ∧ m = n + k ∧ Core.executeAll c w x.core = some z ∧
      Steps c code k ⟨q, z⟩ u y

namespace Performs

variable {c : Callee} {code : List Inst} {v w : List Inst} {i : Inst} {m n k pc q r : Nat} {s : Core}
  {x y : Point}

theorem refl (q : Nat) (s : Core) : Performs c code 0 ⟨q, s⟩ [] q where
  arrives z hz := by
    obtain rfl := Option.some.inj hz
    exact .refl _
  confined m v y hv := Or.inr ⟨s, v, m, rfl, (Nat.zero_add m).symm, rfl, hv⟩

/-- A straight instruction comes first. -/
theorem straight (hi : code[pc]? = some i) (h : i.isStraight = true)
    (hw : ∀ s', s.execute c i = some s' → Performs c code n ⟨pc + 1, s'⟩ w q) :
    Performs c code (n + 1) ⟨pc, s⟩ (i :: w) q where
  arrives z hz := by
    obtain ⟨s', hs', hz⟩ := Option.bind_eq_some_iff.mp hz
    exact .straight hi h hs' ((hw s' hs').arrives z hz)
  confined m v y hv := by
    cases hv with
    | refl => exact Or.inl ⟨List.nil_prefix, (List.getElem?_eq_some_iff.mp hi).1⟩
    | @head m _ _ _ v hnext hrest =>
      rw [Point.next_straight hi h] at hnext
      obtain ⟨s', hs', rfl⟩ := Option.map_eq_some_iff.mp hnext
      rw [Point.executed_straight hi h]
      rcases (hw s' hs').confined m v y hrest with ⟨hbegins, hlt⟩ | ⟨z, u, k, rfl, rfl, hz, hu⟩
      · exact Or.inl ⟨List.cons_prefix_cons.mpr ⟨rfl, hbegins⟩, hlt⟩
      · refine Or.inr ⟨z, u, k, rfl, Nat.add_right_comm n k 1, ?_, hu⟩
        rw [Core.executeAll_cons, hs', Option.bind_some, hz]

/-- A step of control comes first. -/
theorem control (hi : code[pc]? = some i) (h : i.isStraight = false)
    (hnext : Point.next c code ⟨pc, s⟩ = some ⟨k, s⟩) (hw : Performs c code n ⟨k, s⟩ w q) :
    Performs c code (n + 1) ⟨pc, s⟩ w q where
  arrives z hz := .control hi h hnext (hw.arrives z hz)
  confined m v y hv := by
    rcases Steps.of_control hi h hnext hv with ⟨-, rfl, rfl⟩ | ⟨m, rfl, hrest⟩
    · exact Or.inl ⟨List.nil_prefix, (List.getElem?_eq_some_iff.mp hi).1⟩
    · rcases hw.confined m v y hrest with hon | ⟨z, u, k, rfl, rfl, hz, hu⟩
      · exact Or.inl hon
      · exact Or.inr ⟨z, u, k, rfl, Nat.add_right_comm n k 1, hz, hu⟩

/-- Control that can only execute `v`, and then only `w`, can only execute both. -/
theorem trans (h : Performs c code n x v q)
    (h' : ∀ z, Core.executeAll c v x.core = some z → Performs c code m ⟨q, z⟩ w r) :
    Performs c code (n + m) x (v ++ w) r where
  arrives z hz := by
    obtain ⟨z₁, hz₁, hz⟩ := Option.bind_eq_some_iff.mp (Core.executeAll_append.symm.trans hz)
    exact (h.arrives z₁ hz₁).trans ((h' z₁ hz₁).arrives z hz)
  confined k u y hu := by
    rcases h.confined k u y hu with ⟨hbegins, hlt⟩ | ⟨z₁, u, k, rfl, rfl, hz₁, hu⟩
    · exact Or.inl ⟨hbegins.trans (List.prefix_append v w), hlt⟩
    · rcases (h' z₁ hz₁).confined k u y hu with ⟨hbegins, hlt⟩ | ⟨z, u, k, rfl, rfl, hz, hu⟩
      · exact Or.inl ⟨(List.prefix_append_right_inj v).mpr hbegins, hlt⟩
      · refine Or.inr ⟨z, u, k, (List.append_assoc ..).symm, (Nat.add_assoc ..).symm, ?_, hu⟩
        rw [Core.executeAll_append, hz₁, Option.bind_some, hz]

end Performs

/-- Control without a choice executes what lies on its way, whatever the machine holds. -/
theorem Leads.performs {c : Callee} {code w : List Inst} {n pc q : Nat} {s : Core}
    (h : Leads code n pc w q) : Performs c code n ⟨pc, s⟩ w q := by
  induction h generalizing s with
  | refl q => exact .refl q s
  | straight hi hs _ ih => exact .straight hi hs fun _ _ ↦ ih
  | control hi hc hk _ ih => exact .control hi hc (hk _ _) ih

/-! ## Stretches of code -/

section

variable {code v w : List Inst} {i : Inst} {pc : Nat} {l : LabelId}

/-- One stretch of code behind another. -/
theorem append_prefix_drop_iff :
    v ++ w <+: code.drop pc ↔ v <+: code.drop pc ∧ w <+: code.drop (pc + v.length) := by
  constructor
  · rintro ⟨u, hu⟩
    refine ⟨⟨w ++ u, by rw [← hu, List.append_assoc]⟩, u, ?_⟩
    rw [← List.drop_drop, ← hu, List.append_assoc, List.drop_left]
  · rintro ⟨⟨u, hu⟩, u', hu'⟩
    rw [← List.drop_drop, ← hu, List.drop_left] at hu'
    exact ⟨u', by rw [← hu, ← hu', List.append_assoc]⟩

theorem singleton_prefix_drop_iff : [i] <+: code.drop pc ↔ code[pc]? = some i := by
  rw [← List.head?_drop]
  cases code.drop pc with
  | nil => simp
  | cons j js => simp [List.cons_prefix_cons, eq_comm]

/-- Straight code leads to its end. -/
theorem Leads.of_prefix (h : ∀ i ∈ w, i.isStraight = true) (hw : w <+: code.drop pc) :
    Leads code w.length pc w (pc + w.length) := by
  induction w generalizing pc with
  | nil => exact .refl pc
  | cons i w ih =>
    obtain ⟨hi, hw⟩ := append_prefix_drop_iff.mp (show [i] ++ w <+: code.drop pc from hw)
    obtain ⟨his, hws⟩ := List.forall_mem_cons.mp h
    rw [List.length_cons, ← Nat.add_assoc, Nat.add_right_comm]
    exact .straight (singleton_prefix_drop_iff.mp hi) his (ih hws hw)

/-- A label that is defined once is found where it is defined. -/
theorem position?_eq_some (hcode : (code.filterMap (·.label?)).Nodup)
    (hl : code[pc]? = some (.label l)) : position? code l = some pc := by
  induction code generalizing pc with
  | nil => exact absurd hl (by simp)
  | cons i code ih =>
    rw [position?, List.findIdx?_cons]
    cases pc with
    | zero =>
      obtain rfl := Option.some.inj hl
      rw [if_pos (by simp [Inst.label?, Inst.label])]
    | succ pc =>
      rw [List.getElem?_cons_succ] at hl
      have hmem : l ∈ code.filterMap (·.label?) :=
        List.mem_filterMap.mpr ⟨_, List.mem_of_getElem? hl, rfl⟩
      have hi : i.label? ≠ some l := fun hi ↦ by
        rw [List.filterMap_cons, hi] at hcode
        exact (List.nodup_cons.mp hcode).1 hmem
      have hrest : (code.filterMap (·.label?)).Nodup :=
        hcode.sublist ((List.sublist_cons_self i code).filterMap _)
      rw [if_neg (by simpa using hi)]
      exact congrArg (Option.map (· + 1)) (ih hrest hl)

end

end TreeCover.Machine
