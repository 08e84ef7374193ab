import TreeCover.Proofs.Convention.Finished
import TreeCover.Proofs.Convention.Frames

/-!
# The stack and the frame on a run

A run of a finished function goes through the prologue, then through code that treats the stack as
`Finished` says, and leaves through an epilogue. What holds at a point of the body is `InBody`: the
frame pointer is where the prologue put it, the stack pointer as far below it as the position says,
the kept words are in place, no register outside the saved ones has changed, and the arguments that
were pushed so far are on the stack. One step keeps it, and so does a run.

Nothing can be said of a program that overwrites its own return address. So stores of selected code
are assumed to hit none of the words that a function keeps, and callees to leave these alone:
`Respects`.
-/

namespace TreeCover

open Machine Assembly

/-! ## Counting -/

/-- The words on the stack after an instruction: one more after a push, and none after the stack
pointer is set. -/
def Machine.Inst.stackWords (i : Inst) (words : Nat) : Nat :=
  if i.mnemonic = "pushq" then words + 1
  else if i.operands.getLast? = some (.phys .rsp) then 0
  else words

/-- The words that code leaves on the stack. -/
def pushedWords (is : List Inst) : Nat := is.foldl (fun words i ↦ i.stackWords words) 0

theorem pushedWords_concat (is : List Inst) (i : Inst) :
    pushedWords (is ++ [i]) = i.stackWords (pushedWords is) := List.foldl_concat ..

/-! ## Allocations that fit a frame -/

/-- The places of an allocation lie in the registers that are saved and in the part of the frame
above them. -/
structure Allocation.Fits (a : Allocation) (bytes : Nat) (regs : List PhysReg) : Prop where
  register : ∀ v q, a.location? v = some (.register q) → q ∈ regs
  slot : ∀ v m, a.location? v = some (.stack m) →
    ∃ d : Nat, m = .frame (-d) ∧ 8 ≤ d ∧ d + 8 ≤ bytes
  saved : regs ⊆ PhysReg.allocatable
  nodup : regs.Nodup
  bytes : 8 ≤ bytes

variable {a : Allocation} {bytes : Nat} {regs : List PhysReg} {c : Callee} {i : Inst} {o : Operand}
  {s₀ s s' : Core} {words : Nat} {calls : String → List Operand → Prop} {p p' q : Stacked}
  {code rest : List Inst} {x y y' : Point} {name : String} {os : List Operand} {w : Word}

namespace Allocation.Fits

theorem reserved (h : a.Fits bytes regs) : .rsp ∉ regs ∧ .rbp ∉ regs :=
  ⟨fun hmem ↦ absurd (h.saved hmem) (by decide), fun hmem ↦ absurd (h.saved hmem) (by decide)⟩

/-- A register that code writes passes values on or is saved. -/
theorem owns_register (h : a.Fits bytes regs) {r : PhysReg} {width : Nat}
    (ho : a.Owns (.reg (.phys r) width)) : r ∈ PhysReg.passing ∨ r ∈ regs := by
  cases ho with
  | passing hq => exact Or.inl hq
  | register hv => exact Or.inr (h.register _ _ hv)

end Allocation.Fits

theorem stackWords_of_contained (hfits : a.Fits bytes regs) (hi : i.Contained a) (n : Nat) :
    i.stackWords n = n := by
  have hpush : i.mnemonic ≠ "pushq" := fun h ↦ hi.name (by simp [h])
  have hrsp : i.operands.getLast? ≠ some (.phys .rsp) := by
    intro hlast
    rcases hi.target _ hlast with howns | ⟨m, _, heq, -⟩
    · rcases hfits.owns_register howns with hmem | hmem
      · exact absurd hmem (by decide)
      · exact hfits.reserved.1 hmem
    · exact absurd heq (by simp [Operand.phys])
  rw [Inst.stackWords, if_neg hpush, if_neg hrsp]

theorem FinishedStep.stackWords (hfits : a.Fits bytes regs) (h : FinishedStep a calls p i p') :
    i.stackWords p.words = p'.words := by
  cases h with
  | calm hi => exact stackWords_of_contained hfits hi _
  | fetch os hi => exact stackWords_of_contained hfits hi.toContained _
  | branch p l => cases p <;> rfl
  | _ => rfl

/-- Finished code leaves on the stack what its state says. -/
theorem Finished.foldl_stackWords {saves : List Save} {is : List Inst} (hfits : a.Fits bytes regs)
    (h : Finished a saves calls p is q) :
    is.foldl (fun words i ↦ i.stackWords words) p.words = q.words := by
  induction h with
  | nil => rfl
  | cons hi _ ih => rw [List.foldl_cons, hi.stackWords hfits, ih]
  | ret _ ih =>
    rw [List.foldl_append, ← ih]
    refine congrArg (List.foldl _ · _) ?_
    refine List.foldlRecOn (motive := fun n ↦ n = 0) _ _ rfl fun n hn i hi ↦ ?_
    subst hn
    have hname : i.mnemonic ≠ "pushq" := by
      rw [epilogue_eq, restores] at hi
      simp only [List.mem_append, List.mem_map, List.mem_cons, List.not_mem_nil, or_false] at hi
      rcases hi with (⟨e, -, rfl⟩ | rfl | rfl) | hret
      · exact (by decide : "movq" ≠ "pushq")
      · exact (by decide : "movq" ≠ "pushq")
      · exact (by decide : "popq" ≠ "pushq")
      · rw [List.mem_singleton.mp hret]
        exact (by decide : "ret" ≠ "pushq")
    rw [Inst.stackWords, if_neg hname]
    split <;> rfl

/-! ## What a function holds while it runs -/

/-- What holds in the body of a function that was entered with `s₀`, with some words on the
stack. -/
structure Held (s₀ : Core) (bytes : Nat) (regs : List PhysReg) (words : Nat) (s : Core) : Prop where
  rbp : s.regs (.phys .rbp) = base s₀
  rsp : s.regs (.phys .rsp) = base s₀ - BitVec.ofNat 64 (bytes + 8 * regs.length + 8 * words)
  kept : ∀ e ∈ keptWords s₀ (saveSlots bytes regs), s.mem.word (inFrame s₀ e.1) = e.2
  unsaved : ∀ r ∈ PhysReg.allocatable, r ∉ regs → s.regs (.phys r) = s₀.regs (.phys r)

theorem Entered.held (h : Entered s₀ bytes regs s) : Held s₀ bytes regs 0 s where
  rbp := h.rbp
  rsp := h.rsp
  kept := h.kept
  unsaved r hr _ := h.others r (fun heq ↦ absurd (heq ▸ hr) (by decide))
    fun heq ↦ absurd (heq ▸ hr) (by decide)

namespace Held

/-- Stores that hit none of the kept words. -/
def StoresClear (a : Allocation) (s₀ : Core) (saves : List Save) (i : Inst) (s : Core) : Prop :=
  ∀ n m, i.StoresTo n m → (∀ v, a.location? v ≠ some (.stack m)) →
    ∀ x, Memory.InBytes (s.address m) n x → ¬ IsKept s₀ saves x

/-- Words that are unchanged at all kept addresses are kept. -/
theorem kept_of_mem {saves : List Save}
    (hkept : ∀ e ∈ keptWords s₀ saves, s.mem.word (inFrame s₀ e.1) = e.2)
    (hmem : ∀ x, IsKept s₀ saves x → s'.mem x = s.mem x) :
    ∀ e ∈ keptWords s₀ saves, s'.mem.word (inFrame s₀ e.1) = e.2 := fun e he ↦
  (Memory.word_congr fun x hx ↦ hmem x ⟨e, he, hx⟩).trans (hkept e he)

theorem rsp_eq (h : Held s₀ bytes regs words s) (d : Nat) :
    s.regs (.phys .rsp) - BitVec.ofNat 64 d =
      inFrame s₀ (-((bytes + 8 * regs.length + 8 * words + d : Nat) : Int)) := by
  rw [h.rsp, inFrame, BitVec.ofInt_neg, BitVec.ofInt_natCast, BitVec.ofNat_add _ d]
  bv_omega

/-- The bytes of a slot are none of those kept. -/
theorem slot_clear (hfits : a.Fits bytes regs) (h : Held s₀ bytes regs words s) {v : VReg} {m : Mem}
    (hv : a.location? v = some (.stack m)) {n : Nat} (hn : n ≤ 8)
    (hsmall : bytes + 8 * regs.length < 2 ^ 31) {x : Word} (hx : Memory.InBytes (s.address m) n x) :
    ¬ IsKept s₀ (saveSlots bytes regs) x := by
  obtain ⟨d, rfl, hlow, hhigh⟩ := hfits.slot v m hv
  rintro ⟨e, he, hx'⟩
  rw [Core.address_frame, Core.slot, h.rbp] at hx
  rcases offset_of_kept he with h8 | h0 | ⟨hbelow, habove⟩
  · exact Memory.not_inBytes_of_offsets (by omega) (by omega) hx hx'
  · exact Memory.not_inBytes_of_offsets (by omega) (by omega) hx hx'
  · exact Memory.not_inBytes_of_offsets (by omega) (by omega) hx' hx

/-- What a contained instruction writes in memory is not kept. -/
theorem written_clear (hfits : a.Fits bytes regs) (hsmall : bytes + 8 * regs.length < 2 ^ 31)
    (h : Held s₀ bytes regs words s) (hi : i.Contained a)
    (hstores : StoresClear a s₀ (saveSlots bytes regs) i s) :
    ∀ z ∈ s.written i, ∀ x, Memory.InBytes z.1 z.2 x → ¬ IsKept s₀ (saveSlots bytes regs) x := by
  intro z hz x hx
  have hcall : i.mnemonic ≠ "call" := fun h ↦ hi.name (by simp [h])
  have hpush : i.mnemonic ≠ "pushq" := fun h ↦ hi.name (by simp [h])
  obtain ⟨form, m, n, hform, htarget, hlast, rfl⟩ := Core.mem_written hcall hpush hz
  by_cases hslot : ∃ v, a.location? v = some (.stack m)
  · obtain ⟨v, hv⟩ := hslot
    exact h.slot_clear hfits hv ((formOf_confined hform).target n htarget).1 hsmall hx
  · rcases hi.target _ hlast with howns | ⟨m', n', heq, hstore⟩
    · cases howns with
      | slot hv => exact absurd ⟨_, hv⟩ hslot
    · obtain rfl := Operand.mem.inj heq
      refine hstores n m ?_ (fun v hv ↦ hslot ⟨v, hv⟩) x hx
      have hn : n' = n := by
        obtain ⟨hn', src, rfl⟩ := hstore
        have hmove : formOf (moveMnemonic n') 2 = some (.move n') := by
          simp only [List.mem_cons, List.not_mem_nil, or_false] at hn'
          rcases hn' with rfl | rfl | rfl | rfl <;> rfl
        obtain rfl := Option.some.inj (hmove.symm.trans hform)
        exact Option.some.inj htarget
      exact hn ▸ hstore

/-- A contained instruction keeps what is held. -/
theorem contained (hfits : a.Fits bytes regs) (hsmall : bytes + 8 * regs.length < 2 ^ 31)
    (h : Held s₀ bytes regs words s) (hi : i.Contained a)
    (hstores : StoresClear a s₀ (saveSlots bytes regs) i s) (hstep : s.execute c i = some s') :
    Held s₀ bytes regs words s' := by
  have hcall : i.mnemonic ≠ "call" := fun h ↦ hi.name (by simp [h])
  have hpush : i.mnemonic ≠ "pushq" := fun h ↦ hi.name (by simp [h])
  have hpop : i.mnemonic ≠ "popq" := fun h ↦ hi.name (by simp [h])
  rw [Core.execute_of_ne hpop] at hstep
  obtain ⟨hregs, hmem⟩ := Core.step_frame hstep hcall hpush
  have hother : ∀ r, r ∉ PhysReg.passing → r ∉ regs → r ≠ .rdx →
      s'.regs (.phys r) = s.regs (.phys r) := by
    intro r hpassing hr hrdx
    refine hregs _ ?_ fun k hlast ↦ ?_
    · simp only [List.mem_cons, Reg.phys.injEq, List.not_mem_nil, or_false, not_or]
      exact ⟨fun heq ↦ hpassing (heq ▸ by decide), hrdx⟩
    · rcases hi.target _ hlast with howns | ⟨m, _, heq, -⟩
      · exact (hfits.owns_register howns).elim hpassing hr
      · exact absurd heq (by simp)
  refine ⟨?_, ?_, ?_, fun r hr hnot ↦ ?_⟩
  · rw [hother _ (by decide) hfits.reserved.2 (by decide), h.rbp]
  · rw [hother _ (by decide) hfits.reserved.1 (by decide), h.rsp]
  · exact kept_of_mem h.kept fun x hx ↦ hmem x fun z hz hin ↦
      h.written_clear hfits hsmall hi hstores z hz x hin hx
  · have hhome : ∀ r ∈ PhysReg.allocatable, r ∉ PhysReg.passing ∧ r ≠ .rdx := by decide
    rw [hother r (hhome r hr).1 hnot (hhome r hr).2, h.unsaved r hr hnot]

/-- A push hits no kept word and keeps what is held, with one more word on the stack. -/
theorem push (hfits : a.Fits bytes regs) (h : Held s₀ bytes regs words s)
    (hsmall : bytes + 8 * regs.length < 2 ^ 31) (hdepth : words < 2 ^ 60) :
    (∀ x, Memory.InBytes (s.regs (.phys .rsp) - 8) 8 x → ¬ IsKept s₀ (saveSlots bytes regs) x) ∧
      Held s₀ bytes regs (words + 1) (s.push w) := by
  have htop := h.rsp_eq 8
  have hbytes := hfits.bytes
  have hclear : ∀ x, Memory.InBytes (s.regs (.phys .rsp) - 8) 8 x →
      ¬ IsKept s₀ (saveSlots bytes regs) x := by
    rintro x hx ⟨e, he, hx'⟩
    have hoffset := offset_of_kept he
    have htop' : s.regs (.phys .rsp) - 8 = _ := htop
    rw [htop'] at hx
    exact Memory.not_inBytes_of_offsets (by omega) (by omega) hx hx'
  have hother {r : PhysReg} (hr : r ≠ .rsp) : (s.push w).regs (.phys r) = s.regs (.phys r) := by
    rw [Core.push, Core.regs_store, Core.regs_setReg_of_ne (by simpa using hr)]
  refine ⟨hclear, ?_, ?_, ?_, fun r hr hnot ↦ ?_⟩
  · rw [hother (by decide), h.rbp]
  · have hrsp : (s.push w).regs (.phys .rsp) = s.regs (.phys .rsp) - BitVec.ofNat 64 8 := rfl
    have hwords : bytes + 8 * regs.length + 8 * (words + 1)
        = bytes + 8 * regs.length + 8 * words + 8 := by omega
    rw [hrsp, h.rsp, hwords, BitVec.ofNat_add _ 8]
    bv_omega
  · exact kept_of_mem h.kept fun x hx ↦ Memory.store_of_not_inBytes (fun hin ↦ hclear x hin hx) _
  · rw [hother (fun heq ↦ absurd (heq ▸ hr) (by decide)), h.unsaved r hr hnot]

/-- A call keeps what is held, if the callee leaves the kept words alone. -/
theorem call (h : Held s₀ bytes regs words s)
    (hcallee : ∀ x, IsKept s₀ (saveSlots bytes regs) x →
      c.mem name (s.regs (.phys .rsp)) s.mem x = s.mem x) :
    Held s₀ bytes regs words (s.call c name) where
  rbp := (Core.call_of_not_mem (by decide)).trans h.rbp
  rsp := (Core.call_of_not_mem (by decide)).trans h.rsp
  kept := kept_of_mem h.kept hcallee
  unsaved r hr hnot := by
    have hhome : ∀ r ∈ PhysReg.allocatable, r ∉ callerSaved := by decide
    rw [Core.call_of_not_mem (hhome r hr), h.unsaved r hr hnot]

/-- When the words are taken off the stack, what is held is held with none. -/
theorem pop (h : Held s₀ bytes regs words s) (hstep : s.execute c (.pop words) = some s') :
    Held s₀ bytes regs 0 s' := by
  rw [Core.execute_of_ne (by decide : "addq" ≠ _)] at hstep
  obtain ⟨-, rfl⟩ := Core.step_binary_imm (by decide : "addq" ≠ _) (by decide : "addq" ≠ _) rfl rfl
    hstep
  refine ⟨?_, ?_, h.kept, fun r hr hnot ↦ ?_⟩
  · rw [Core.regs_setReg_of_ne (by decide), Core.regs_setFlags, h.rbp]
  · rw [Core.regs_setReg_self, h.rsp, BitVec.ofNat_add _ (8 * words), Nat.mul_zero, Nat.add_zero]
    bv_omega
  · rw [Core.regs_setReg_of_ne (fun heq ↦ absurd (Reg.phys.inj heq ▸ hr) (by decide)),
      Core.regs_setFlags, h.unsaved r hr hnot]

end Held

/-! ## Invocations -/

/-- A finished function that is called: its callees, its code, its allocation, the bytes of its
frame without the registers it saves, these registers, and the machine when it is entered. -/
structure Invocation where
  callee : Callee
  code : List Inst
  allocation : Allocation
  bytes : Nat
  regs : List PhysReg
  entry : Core

namespace Invocation

variable {r : Invocation}

def saves (r : Invocation) : List Save := saveSlots r.bytes r.regs

def frameBytes (r : Invocation) : Nat := r.bytes + 8 * r.regs.length

/-- Where the body begins. -/
def start (r : Invocation) : Nat := 3 + r.regs.length

/-- The words on the stack at a position of the body. -/
def wordsAt (r : Invocation) (pc : Nat) : Nat := pushedWords ((r.code.take pc).drop r.start)

/-- Control gets to a point. -/
def Reaches (r : Invocation) (y : Point) : Prop := ∃ n v, Steps r.callee r.code n ⟨0, r.entry⟩ v y

/-- Stores of the body hit none of the kept words, and callees leave these alone. -/
structure Respects (r : Invocation) : Prop where
  stores : ∀ y i, r.Reaches y → r.start ≤ y.pc → r.code[y.pc]? = some i →
    Held.StoresClear r.allocation r.entry r.saves i y.core
  callees : ∀ y name, r.Reaches y → r.code[y.pc]? = some (.call name) →
    ∀ x, IsKept r.entry r.saves x →
      r.callee.mem name (y.core.regs (.phys .rsp)) y.core.mem x = y.core.mem x

/-- On the way to `y` the operand `o` was pushed as the word `w`: control was at the push of the
placed operand, which gave `w` there, and has gone straight on since. -/
def PushedAs (r : Invocation) (o : Operand) (w : Word) (y : Point) : Prop :=
  ∃ k x v loads o' width, r.Reaches x ∧ Steps r.callee r.code k x v y ∧ x.pc + k = y.pc ∧
    r.code[x.pc]? = some (.push o') ∧ Placement.operand r.allocation o = .ok (loads, o', width) ∧
    x.core.read 8 o' = some w

/-- A finished function whose frame and code are not too large for the machine. -/
structure Proper (r : Invocation) (calls : String → List Operand → Prop) : Prop where
  fits : r.allocation.Fits r.bytes r.regs
  frame : r.frameBytes < 2 ^ 32
  short : r.code.length < 2 ^ 60
  code : ∃ rest, r.code = prologue r.frameBytes r.saves ++ rest ∧
    Finished r.allocation r.saves calls .none rest .none

/-- What holds at a point of the body. -/
structure InBody (r : Invocation) (p : Stacked) (y : Point) : Prop where
  beyond : r.start ≤ y.pc
  small : r.frameBytes < 2 ^ 31
  held : Held r.entry r.bytes r.regs p.words y.core
  count : r.wordsAt y.pc = p.words
  depth : p.words ≤ y.pc
  args : ∀ k o, p.args[k]? = some o →
    r.PushedAs o (y.core.mem.word (y.core.regs (.phys .rsp) + BitVec.ofNat 64 (8 * k))) y

theorem Reaches.next (h : r.Reaches y) (hnext : y.next r.callee r.code = some y') :
    r.Reaches y' := by
  obtain ⟨n, v, hv⟩ := h
  exact ⟨_, _, hv.trans (.head hnext (.refl y'))⟩

theorem length_prologue (r : Invocation) : (prologue r.frameBytes r.saves).length = r.start := by
  rw [prologue_eq, List.length_cons, List.length_cons, List.length_cons, List.length_map, saves,
    saveSlots, List.length_mapIdx, start]
  omega

theorem wordsAt_succ (hbeyond : r.start ≤ y.pc) (hi : r.code[y.pc]? = some i) :
    r.wordsAt (y.pc + 1) = i.stackWords (r.wordsAt y.pc) := by
  obtain ⟨hlt, hget⟩ := List.getElem?_eq_some_iff.mp hi
  have htake : r.code.take (y.pc + 1) = r.code.take y.pc ++ [i] := by
    rw [List.take_add_one, hi]
    rfl
  rw [wordsAt, htake, List.drop_append_of_le_length (by rw [List.length_take]; omega),
    pushedWords_concat, wordsAt]

theorem PushedAs.next (h : r.PushedAs o w y) (hi : r.code[y.pc]? = some i)
    (hstraight : i.isStraight = true) (hs : y.core.execute r.callee i = some s') :
    r.PushedAs o w ⟨y.pc + 1, s'⟩ := by
  obtain ⟨k, x, v, loads, o', width, hx, hv, hpc, hpush, ho, hread⟩ := h
  have hone := Steps.straight hi hstraight hs (.refl ⟨y.pc + 1, s'⟩)
  exact ⟨k + 1, x, _, loads, o', width, hx, hv.trans hone, by rw [← hpc, Nat.add_assoc], hpush, ho,
    hread⟩

/-! ## The body -/

/-- Control goes on to the next instruction of the body. -/
theorem InBody.advance {calls : String → List Operand → Prop} (hr : r.Proper calls)
    (h : r.InBody p y) (hi : r.code[y.pc]? = some i)
    (hstep : FinishedStep r.allocation calls p i p')
    (hheld : Held r.entry r.bytes r.regs p'.words s') (hdepth : p'.words ≤ y.pc + 1)
    (hargs : ∀ k o, p'.args[k]? = some o →
      r.PushedAs o (s'.mem.word (s'.regs (.phys .rsp) + BitVec.ofNat 64 (8 * k))) ⟨y.pc + 1, s'⟩) :
    r.InBody p' ⟨y.pc + 1, s'⟩ where
  beyond := Nat.le_succ_of_le h.beyond
  small := h.small
  held := hheld
  count := by rw [wordsAt_succ h.beyond hi, h.count, hstep.stackWords hr.fits]
  depth := hdepth
  args := hargs

/-- A jump leads to a label of the body, in front of which nothing is on the stack. -/
theorem InBody.jump {calls : String → List Operand → Prop} (hr : r.Proper calls)
    (h : r.InBody .none y) {q : Nat} (hq : destination? r.code i = some q) :
    r.InBody .none ⟨q, y.core⟩ ∧
      Finished r.allocation r.saves calls .none (r.code.drop q) .none := by
  obtain ⟨rest, hcode, hfinished⟩ := hr.code
  obtain ⟨j, l, hlt, hj, hkind⟩ : ∃ j l, q < r.code.length ∧ r.code[q]? = some j ∧
      j.kind = .label l := by
    rw [destination?] at hq
    split at hq
    next l _ =>
      obtain ⟨hlt, hl, -⟩ := List.findIdx?_eq_some_iff_getElem.mp hq
      refine ⟨r.code[q], l, hlt, List.getElem?_eq_getElem hlt, ?_⟩
      have hlabel : r.code[q].label? = some l := by simpa using hl
      rw [Inst.label?] at hlabel
      split at hlabel
      next hkind => rw [hkind, Option.some.inj hlabel]
      next => exact absurd hlabel (by simp)
    next => exact absurd hq (by simp)
  have hdrop : r.code.drop q = j :: r.code.drop (q + 1) := by
    rw [List.drop_eq_getElem_cons hlt, ← (List.getElem?_eq_some_iff.mp hj).2]
  -- the prologue is straight, so the label is behind it
  have hbeyond : r.start ≤ q := by
    by_contra hbefore
    have hmem : j ∈ prologue r.frameBytes r.saves := by
      rw [hcode, List.getElem?_append_left (by rw [r.length_prologue]; omega)] at hj
      exact List.mem_of_getElem? hj
    exact absurd (prologue_straight _ _ _ hmem) (by simp [Inst.isStraight, hkind])
  have hsplit : rest = (r.code.take q).drop r.start ++ j :: r.code.drop (q + 1) := by
    have hrest : rest = r.code.drop r.start := by
      rw [hcode, ← r.length_prologue, List.drop_left]
    rw [hrest, ← hdrop, ← List.drop_append_of_le_length (by rw [List.length_take]; omega),
      List.take_append_drop]
  rw [hsplit] at hfinished
  obtain ⟨hbefore, hfrom⟩ := hfinished.at_label hkind
  refine ⟨⟨hbeyond, h.small, h.held, hbefore.foldl_stackWords hr.fits, Nat.zero_le _,
    fun k o ho ↦ absurd ho (by simp [Stacked.none, Stacked.holding])⟩, ?_⟩
  rw [hdrop]
  exact hfrom

/-- A step from an instruction of the body leads to one of the body. -/
theorem InBody.next {calls : String → List Operand → Prop} (hr : r.Proper calls)
    (hrespects : r.Respects) (hreach : r.Reaches y) (h : r.InBody p y)
    (hi : r.code[y.pc]? = some i) (hstep : FinishedStep r.allocation calls p i p')
    (hfinished : Finished r.allocation r.saves calls p' (r.code.drop (y.pc + 1)) .none)
    (hnext : y.next r.callee r.code = some y') :
    ∃ q, r.InBody q y' ∧ Finished r.allocation r.saves calls q (r.code.drop y'.pc) .none := by
  have hpc : y.pc < r.code.length := (List.getElem?_eq_some_iff.mp hi).1
  have hshort := hr.short
  have hsmall : r.bytes + 8 * r.regs.length < 2 ^ 31 := h.small
  have hdepth := h.depth
  have hstraight (hkind : i.isStraight = true) :
      ∃ s', y.core.execute r.callee i = some s' ∧ y' = ⟨y.pc + 1, s'⟩ := by
    rw [Point.next_straight hi hkind] at hnext
    obtain ⟨s', hs', heq⟩ := Option.map_eq_some_iff.mp hnext
    exact ⟨s', hs', heq.symm⟩
  have hnoArgs {s' : Core} : ∀ k o, ([] : List Operand)[k]? = some o → r.PushedAs o
      (s'.mem.word (s'.regs (.phys .rsp) + BitVec.ofNat 64 (8 * k))) ⟨y.pc + 1, s'⟩ :=
    fun k o ho ↦ absurd ho (by simp)
  cases hstep with
  | calm hi' =>
    obtain ⟨s', hs', rfl⟩ := hstraight (Inst.isStraight_of_plain hi'.plain)
    have hheld := h.held.contained hr.fits hsmall hi' (hrespects.stores y i hreach h.beyond hi) hs'
    exact ⟨.none, h.advance hr hi (.calm hi') hheld (Nat.zero_le _) hnoArgs, hfinished⟩
  | fetch os hi' =>
    obtain ⟨s', hs', rfl⟩ := hstraight (Inst.isStraight_of_plain hi'.plain)
    have hheld := h.held.contained hr.fits hsmall hi'.toContained
      (hrespects.stores y i hreach h.beyond hi) hs'
    refine ⟨.holding os, h.advance hr hi (.fetch os hi') hheld (Nat.le_succ_of_le hdepth)
      fun k o ho ↦ ?_, hfinished⟩
    -- a load into a register leaves the arguments where they are
    have hmem : s'.mem = y.core.mem := by
      have hcall : i.mnemonic ≠ "call" := fun h ↦ hi'.name (by simp [h])
      have hpush : i.mnemonic ≠ "pushq" := fun h ↦ hi'.name (by simp [h])
      rw [Core.execute_of_ne fun h ↦ hi'.name (by simp [h])] at hs'
      refine funext fun x ↦ (Core.step_frame hs' hcall hpush).2 x fun z hz ↦ ?_
      obtain ⟨_, m, _, -, -, hlast, -⟩ := Core.mem_written hcall hpush hz
      have hreg := hi'.isReg
      rw [hlast] at hreg
      exact absurd hreg (by simp [Operand.isReg])
    rw [hmem, hheld.rsp, ← h.held.rsp]
    exact (h.args k o ho).next hi (Inst.isStraight_of_plain hi'.plain) hs'
  | @push o o' loads width os ho =>
    obtain ⟨s', hs', rfl⟩ := hstraight rfl
    have hpushed : ∃ w, y.core.read 8 o' = some w ∧ s' = y.core.push w := by
      rw [Core.execute_of_ne (by decide : "pushq" ≠ _), Core.step_push] at hs'
      split at hs'
      next =>
        obtain ⟨w, hw, rfl⟩ := Option.map_eq_some_iff.mp hs'
        exact ⟨w, hw, rfl⟩
      next => exact absurd hs' (by simp)
    obtain ⟨w, hread, rfl⟩ := hpushed
    have hwords : os.length ≤ y.pc := hdepth
    have hheld := (h.held.push (w := w) hr.fits hsmall (Nat.lt_of_le_of_lt hwords (by omega))).2
    have hrsp : (y.core.push w).regs (.phys .rsp) = y.core.regs (.phys .rsp) - 8 := rfl
    refine ⟨.holding (o :: os), h.advance hr hi (.push os ho) hheld (Nat.succ_le_succ hwords)
      fun k o₁ ho₁ ↦ ?_, hfinished⟩
    cases k with
    | zero =>
      obtain rfl := Option.some.inj ho₁
      have hword : (y.core.push w).mem.word
          ((y.core.push w).regs (.phys .rsp) + BitVec.ofNat 64 (8 * 0)) = w := by
        rw [hrsp]
        refine (congrArg _ (BitVec.add_zero _)).trans ?_
        exact Memory.word_storeWord y.core.mem (y.core.regs (.phys .rsp) - 8) w
      rw [hword]
      have hone := Steps.straight hi rfl hs' (.refl ⟨y.pc + 1, y.core.push w⟩)
      exact ⟨1, y, _, loads, o', width, hreach, hone, rfl, hi, ho, hread⟩
    | succ k =>
      have ho₂ : os[k]? = some o₁ := ho₁
      have hk : k < os.length := (List.getElem?_eq_some_iff.mp ho₂).1
      have haddress : (y.core.push w).regs (.phys .rsp) + BitVec.ofNat 64 (8 * (k + 1)) =
          y.core.regs (.phys .rsp) + BitVec.ofNat 64 (8 * k) := by
        rw [hrsp, Nat.mul_succ, BitVec.ofNat_add]
        bv_omega
      have hword : (y.core.push w).mem.word (y.core.regs (.phys .rsp) + BitVec.ofNat 64 (8 * k)) =
          y.core.mem.word (y.core.regs (.phys .rsp) + BitVec.ofNat 64 (8 * k)) := by
        refine Memory.word_congr fun x hx ↦ Memory.store_of_not_inBytes (fun hx' ↦ ?_) _
        exact Memory.not_inBytes_above (by omega) hx' hx
      rw [haddress, hword]
      exact (h.args k o₁ ho₁).next hi rfl hs'
  | @call name os hcall =>
    obtain ⟨s', hs', rfl⟩ := hstraight rfl
    rw [Core.execute_of_ne (by decide : "call" ≠ _), Core.step_call] at hs'
    obtain rfl := Option.some.inj hs'
    have hheld := h.held.call (hrespects.callees y name hreach hi)
    exact ⟨.called os.length,
      h.advance hr hi (.call hcall) hheld (Nat.le_succ_of_le hdepth) hnoArgs, hfinished⟩
  | pop words =>
    obtain ⟨s', hs', rfl⟩ := hstraight rfl
    exact ⟨.none, h.advance hr hi (.pop words) (h.held.pop hs') (Nat.zero_le _) hnoArgs, hfinished⟩
  | label l =>
    obtain ⟨pc, s⟩ := y
    rw [Point.next_label hi] at hnext
    obtain rfl := Option.some.inj hnext
    exact ⟨.none, h.advance hr hi (.label l) h.held (Nat.zero_le _) hnoArgs, hfinished⟩
  | jump l =>
    rcases Point.next_cases hi (Or.inl rfl) hnext with ⟨q, hq, rfl⟩ | ⟨hkind, -⟩
    · exact ⟨.none, h.jump hr hq⟩
    · exact absurd hkind (by simp [jumpTo])
  | branch p l =>
    rcases Point.next_cases hi (Or.inr rfl) hnext with ⟨q, hq, rfl⟩ | ⟨-, rfl⟩
    · exact ⟨.none, h.jump hr hq⟩
    · exact ⟨.none, h.advance hr hi (.branch p l) h.held (Nat.zero_le _) hnoArgs, hfinished⟩

end Invocation

end TreeCover
