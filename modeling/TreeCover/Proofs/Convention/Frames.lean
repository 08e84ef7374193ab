import Mathlib.Algebra.Group.Int.Defs
import Mathlib.Algebra.Group.Nat.Defs
import TreeCover.Proofs.Assembly.Linearize
import TreeCover.Proofs.Assembly.Stack
import TreeCover.Proofs.Machine.Written

/-!
# Prologues and epilogues

A function keeps words in memory until it returns: its return address, the frame pointer of its
caller, and the registers that it saves. The prologue puts the frame pointer below the return
address and all other words at fixed distances from it; the epilogue reads them back. What lies
above the return address, arguments above all, the prologue leaves alone.
-/

namespace TreeCover

open Machine Assembly

/-! ## Distances -/

namespace Machine.Memory

/-- Stretches of bytes at different distances from one address do not meet. -/
theorem not_inBytes_of_offsets {b x : Word} {d e : Int} {n k : Nat} (hbelow : d + n ≤ e)
    (hspan : e + k - d ≤ 2 ^ 64) (hx : InBytes (b + BitVec.ofInt 64 d) n x) :
    ¬ InBytes (b + BitVec.ofInt 64 e) k x := by
  intro hx'
  rw [InBytes] at hx hx'
  obtain ⟨y, rfl⟩ : ∃ y, x = b + y := ⟨x - b, by bv_omega⟩
  have hcancel (z : Word) : b + y - (b + z) = y - z := by bv_omega
  rw [hcancel, BitVec.toNat_sub, BitVec.toNat_ofInt] at hx hx'
  have hy := y.isLt
  omega

/-- The word below an address shares no byte with the words above it. -/
theorem not_inBytes_above {b x : Word} {k : Nat} (hk : k < 2 ^ 60) (hx : InBytes (b - 8) 8 x) :
    ¬ InBytes (b + BitVec.ofNat 64 (8 * k)) 8 x := by
  have hbelow : b - 8 = b + BitVec.ofInt 64 (-8) := BitVec.sub_eq_add_neg _ _
  have habove := @not_inBytes_of_offsets b x (-8) (8 * k : Nat) 8 8 (by omega) (by omega)
    (hbelow ▸ hx)
  rwa [BitVec.ofInt_natCast] at habove

theorem apart_of_offsets {b : Word} {d e : Int} (h : d + 8 ≤ e ∨ e + 8 ≤ d)
    (hd : -2 ^ 63 ≤ d ∧ d < 2 ^ 62) (he : -2 ^ 63 ≤ e ∧ e < 2 ^ 62) :
    Apart (b + BitVec.ofInt 64 d) (b + BitVec.ofInt 64 e) := by
  have hcancel (y z : Word) : b + y - (b + z) = y - z := by bv_omega
  rw [Apart, hcancel, hcancel, BitVec.toNat_sub, BitVec.toNat_sub, BitVec.toNat_ofInt,
    BitVec.toNat_ofInt]
  omega

end Machine.Memory

/-! ## The words that a function keeps -/

/-- Where the frame pointer of a function points that is entered with `s`. -/
def base (s : Core) : Word := s.regs (.phys .rsp) - 8

/-- The address at some distance from the frame pointer of a function that is entered with `s`. -/
def inFrame (s : Core) (d : Int) : Word := base s + BitVec.ofInt 64 d

/-- The words that a function entered with `s` keeps, with their distances from the frame pointer:
its return address, the frame pointer of its caller, and the registers that it saves. -/
def keptWords (s : Core) (saves : List Save) : List (Int × Word) :=
  (8, s.mem.word (inFrame s 8)) :: (0, s.regs (.phys .rbp)) ::
    saves.map fun (r, slot) ↦ (slot.disp, s.regs (.phys r))

/-- An address that holds a word which a function keeps. -/
def IsKept (s : Core) (saves : List Save) (x : Word) : Prop :=
  ∃ e ∈ keptWords s saves, Memory.InBytes (inFrame s e.1) 8 x

variable {c : Callee} {s s₀ z : Core} {saves : List Save} {bytes : Nat} {regs : List PhysReg}
  {e : Int × Word} {r : PhysReg} {m : Mem} {frameBytes : Nat}

/-- Saved registers lie below the slots of the frame, and within it. -/
theorem offset_of_kept (h : e ∈ keptWords s (saveSlots bytes regs)) :
    e.1 = 8 ∨ e.1 = 0 ∨ -(bytes + 8 * regs.length : Nat) + 8 ≤ e.1 ∧ e.1 ≤ -(bytes : Int) := by
  rcases List.mem_cons.mp h with rfl | h
  · exact Or.inl rfl
  rcases List.mem_cons.mp h with rfl | h
  · exact Or.inr (Or.inl rfl)
  obtain ⟨⟨r, m⟩, hm, rfl⟩ := List.mem_map.mp h
  obtain ⟨k, hk, -, rfl⟩ := mem_saveSlots hm
  refine Or.inr (Or.inr ⟨?_, ?_⟩)
  · change -((bytes + 8 * regs.length : Nat) : Int) + 8 ≤ -((bytes + 8 * k : Nat) : Int)
    omega
  · change -((bytes + 8 * k : Nat) : Int) ≤ -(bytes : Int)
    omega

/-- The words of a frame do not overlap. -/
theorem pairwise_saveSlots :
    (saveSlots bytes regs).Pairwise fun e e' ↦ e'.2.disp + 8 ≤ e.2.disp := by
  rw [List.pairwise_iff_getElem]
  intro i j hi hj hij
  simp only [saveSlots, List.getElem_mapIdx, Mem.frame, Mem.based]
  omega

/-! ## Saving and restoring -/

/-- The instruction that saves a register. -/
def saving (e : Save) : Inst := { mnemonic := "movq", operands := [.phys e.1, .mem e.2] }

/-- The instruction that restores a register. -/
def restoring (e : Save) : Inst := .define "movq" [.mem e.2, .phys e.1]

theorem prologue_eq (frameBytes : Nat) (saves : List Save) : prologue frameBytes saves =
    { mnemonic := "pushq", operands := [.phys .rbp] } :: .define "movq" [.phys .rsp, .phys .rbp] ::
      .update "subq" [.imm (BitVec.ofNat 64 frameBytes), .phys .rsp] :: saves.map saving := rfl

theorem execute_saving (e : Save) :
    s.execute c (saving e) = some (s.store (s.address e.2) 8 (s.regs (.phys e.1))) := by
  rw [Core.execute_of_ne (by decide : "movq" ≠ _), Core.step_save rfl rfl]

theorem execute_restoring (e : Save) :
    s.execute c (restoring e) = some (s.setReg (.phys e.1) (s.mem.word (s.address e.2))) := by
  rw [Core.execute_of_ne (by decide : "movq" ≠ _), Core.step_load rfl rfl]

/-- Saving registers puts them into their slots and changes nothing else. -/
theorem executeAll_saving (h : Core.executeAll c (saves.map saving) s = some z) :
    z.regs = s.regs ∧
    (∀ x, (∀ e ∈ saves, ¬ Memory.InBytes (s.address e.2) 8 x) → z.mem x = s.mem x) ∧
    (saves.Pairwise (fun e e' ↦ Memory.Apart (s.address e.2) (s.address e'.2)) →
      ∀ e ∈ saves, z.mem.word (s.address e.2) = s.regs (.phys e.1)) := by
  induction saves generalizing s with
  | nil =>
    obtain rfl := Option.some.inj h
    exact ⟨rfl, fun _ _ ↦ rfl, fun _ _ he ↦ absurd he List.not_mem_nil⟩
  | cons e saves ih =>
    rw [List.map_cons, Core.executeAll_cons, execute_saving, Option.bind_some] at h
    obtain ⟨hregs, hmem, hwords⟩ := ih h
    have haddress (m : Mem) : (s.store (s.address e.2) 8 (s.regs (.phys e.1))).address m
        = s.address m := Core.address_congr fun _ _ ↦ rfl
    refine ⟨hregs, fun x hx ↦ ?_, fun hapart ↦ ?_⟩
    · obtain ⟨he, hsaves⟩ := List.forall_mem_cons.mp hx
      rw [hmem x fun e' he' ↦ by rw [haddress]; exact hsaves e' he']
      exact Memory.store_of_not_inBytes he _
    · obtain ⟨hfirst, hrest⟩ := List.pairwise_cons.mp hapart
      refine List.forall_mem_cons.mpr ⟨?_, fun e' he' ↦ ?_⟩
      · have hkeep : z.mem.word (s.address e.2) =
            (s.mem.storeWord (s.address e.2) (s.regs (.phys e.1))).word (s.address e.2) :=
          Memory.word_congr fun x hx ↦ hmem x fun e' he' ↦ by
            rw [haddress]
            exact (hfirst e' he').not_inBytes hx
        rw [hkeep, Memory.word_storeWord]
      · have hword := hwords (by simpa only [haddress] using hrest) e' he'
        rwa [haddress] at hword

/-- Restoring registers reads them from their slots and changes nothing else. -/
theorem executeAll_restoring (h : Core.executeAll c (saves.map restoring) s = some z)
    (hslots : ∀ e ∈ saves, e.1 ≠ .rbp ∧ ∃ d, e.2 = .frame d) :
    z.mem = s.mem ∧ (∀ r, r ∉ saves.map (·.1) → z.regs (.phys r) = s.regs (.phys r)) ∧
    ((saves.map (·.1)).Nodup →
      ∀ e ∈ saves, z.regs (.phys e.1) = s.mem.word (s.address e.2)) := by
  induction saves generalizing s with
  | nil =>
    obtain rfl := Option.some.inj h
    exact ⟨rfl, fun _ _ ↦ rfl, fun _ _ he ↦ absurd he List.not_mem_nil⟩
  | cons e saves ih =>
    obtain ⟨⟨hrbp, -⟩, hslots⟩ := List.forall_mem_cons.mp hslots
    rw [List.map_cons, Core.executeAll_cons, execute_restoring, Option.bind_some] at h
    obtain ⟨hmem, hregs, hwords⟩ := ih h hslots
    have hne {q : PhysReg} (hq : q ≠ e.1) : Reg.phys q ≠ .phys e.1 :=
      fun heq ↦ hq (Reg.phys.inj heq)
    refine ⟨hmem, fun r hr ↦ ?_, fun hnodup ↦ ?_⟩
    · obtain ⟨hfirst, hrest⟩ := not_or.mp fun h ↦ hr (List.mem_cons.mpr h)
      rw [hregs r hrest, Core.regs_setReg_of_ne (hne hfirst)]
    · obtain ⟨hfirst, hrest⟩ := List.nodup_cons.mp hnodup
      refine List.forall_mem_cons.mpr ⟨?_, fun e' he' ↦ ?_⟩
      · rw [hregs e.1 hfirst, Core.regs_setReg_self]
      · obtain ⟨-, d, hd⟩ := hslots e' he'
        rw [hwords hrest e' he', Core.mem_setReg, hd, Core.address_frame, Core.address_frame,
          Core.slot, Core.slot, Core.regs_setReg_of_ne (hne (Ne.symm hrbp))]

/-! ## Prologues -/

/-- What the prologue of a function that was entered with `s` leaves behind. -/
structure Entered (s : Core) (bytes : Nat) (regs : List PhysReg) (z : Core) : Prop where
  small : bytes + 8 * regs.length < 2 ^ 31
  rbp : z.regs (.phys .rbp) = base s
  rsp : z.regs (.phys .rsp) = base s - BitVec.ofNat 64 (bytes + 8 * regs.length)
  others : ∀ r, r ≠ .rsp → r ≠ .rbp → z.regs (.phys r) = s.regs (.phys r)
  kept : ∀ e ∈ keptWords s (saveSlots bytes regs), z.mem.word (inFrame s e.1) = e.2
  mem : ∀ x, (∀ e ∈ keptWords s (saveSlots bytes regs), e.1 ≤ 0 →
    ¬ Memory.InBytes (inFrame s e.1) 8 x) → z.mem x = s.mem x

theorem lt_of_fitsImm32 {n : Nat} (hn : n < 2 ^ 32) (h : fitsImm32 (BitVec.ofNat 64 n) = true) :
    n < 2 ^ 31 := by
  have hint : (BitVec.ofNat 64 n).toInt = n := by
    rw [BitVec.toInt_eq_toNat_of_lt] <;> rw [BitVec.toNat_ofNat] <;> omega
  have hbound := (fitsSigned_succ_iff.mp (hint ▸ h : fitsSigned (31 + 1) n = true)).2
  have hpow : (Nat.pow 2 31 : Nat) = 2 ^ 31 := rfl
  rw [hpow] at hbound
  omega

/-- The instructions of a prologue that come before registers are saved. -/
theorem opened_of_prologue {is : List Inst}
    (h : Core.executeAll c ({ mnemonic := "pushq", operands := [.phys .rbp] } ::
      .define "movq" [.phys .rsp, .phys .rbp] ::
      .update "subq" [.imm (BitVec.ofNat 64 frameBytes), .phys .rsp] :: is) s = some z) :
    fitsImm32 (BitVec.ofNat 64 frameBytes) = true ∧ ∃ s₁, Core.executeAll c is s₁ = some z ∧
      s₁.regs (.phys .rbp) = base s ∧
      s₁.regs (.phys .rsp) = base s - BitVec.ofNat 64 frameBytes ∧
      (∀ r, r ≠ .rsp → r ≠ .rbp → s₁.regs (.phys r) = s.regs (.phys r)) ∧
      s₁.mem = s.mem.storeWord (base s) (s.regs (.phys .rbp)) := by
  rw [Core.executeAll_cons] at h
  have hpush : s.execute c { mnemonic := "pushq", operands := [.phys .rbp] }
      = some (s.push (s.regs (.phys .rbp))) := by
    rw [Core.execute_of_ne (by decide : "pushq" ≠ _)]
    change s.step c (.push (.phys .rbp)) = _
    have hfits : Core.fits false (.phys .rbp) = true := rfl
    rw [Core.step_push, if_pos hfits, Core.read_phys, Option.map_some]
  rw [hpush, Option.bind_some, Core.executeAll_cons,
    Core.execute_of_ne (by decide : "movq" ≠ _), Core.step_copy rfl rfl, Option.bind_some,
    Core.executeAll_cons] at h
  obtain ⟨s₁, hsub, h⟩ := Option.bind_eq_some_iff.mp h
  rw [Core.execute_of_ne (by decide : "subq" ≠ _)] at hsub
  obtain ⟨hfits, rfl⟩ := Core.step_binary_imm (by decide : "subq" ≠ _) (by decide : "subq" ≠ _) rfl
    rfl hsub
  refine ⟨hfits, _, h, rfl, rfl, fun r hrsp hrbp ↦ ?_, rfl⟩
  rw [Core.regs_setReg_of_ne (by simpa using hrsp), Core.regs_setFlags,
    Core.regs_setReg_of_ne (by simpa using hrbp), Core.push, Core.regs_store,
    Core.regs_setReg_of_ne (by simpa using hrsp)]

/-- **Prologues.** A prologue of which every instruction has a result sets up the frame. -/
theorem entered_of_prologue (hbytes : 8 ≤ bytes) (hsmall : bytes + 8 * regs.length < 2 ^ 32)
    (hregs : .rsp ∉ regs ∧ .rbp ∉ regs)
    (h : Core.executeAll c (prologue (bytes + 8 * regs.length) (saveSlots bytes regs)) s = some z) :
    Entered s bytes regs z := by
  rw [prologue_eq] at h
  obtain ⟨hfits, s₁, h, hrbp, hrsp, hothers, hmem₁⟩ := opened_of_prologue h
  obtain ⟨hkeep, hmem, hwords⟩ := executeAll_saving h
  have haddress : ∀ e ∈ saveSlots bytes regs, s₁.address e.2 = inFrame s e.2.disp ∧
      -(bytes + 8 * regs.length : Nat) ≤ e.2.disp ∧ e.2.disp ≤ -(8 : Int) := by
    rintro ⟨r, m⟩ he
    obtain ⟨k, hk, -, rfl⟩ := mem_saveSlots he
    refine ⟨by rw [Core.address_frame, Core.slot, hrbp]; rfl, ?_, ?_⟩
    all_goals
      simp only [Mem.frame, Mem.based]
      omega
  have hsaved : ∀ e ∈ saveSlots bytes regs, (e.2.disp, s.regs (.phys e.1)) ∈
      keptWords s (saveSlots bytes regs) := fun e he ↦
    List.mem_cons_of_mem _ (List.mem_cons_of_mem _ (List.mem_map.mpr ⟨e, he, rfl⟩))
  have hframe : inFrame s 0 = base s := by
    rw [inFrame]
    exact BitVec.add_zero _
  have hout : ∀ x, (∀ e ∈ keptWords s (saveSlots bytes regs), e.1 ≤ 0 →
      ¬ Memory.InBytes (inFrame s e.1) 8 x) → z.mem x = s.mem x := by
    intro x hx
    rw [hmem x fun e he ↦ ?_, hmem₁]
    · have hpointer := hx (0, s.regs (.phys .rbp)) (List.mem_cons_of_mem _ List.mem_cons_self)
        (Int.le_refl 0)
      rw [hframe] at hpointer
      exact Memory.storeWord_of_not_inBytes _ hpointer
    · obtain ⟨haddr, -, hle⟩ := haddress e he
      have hslot : e.2.disp ≤ 0 := by omega
      rw [haddr]
      exact hx (e.2.disp, s.regs (.phys e.1)) (hsaved e he) hslot
  refine ⟨lt_of_fitsImm32 hsmall hfits, by rw [hkeep, hrbp], by rw [hkeep, hrsp],
    fun r hr hr' ↦ by rw [hkeep, hothers r hr hr'], ?_, hout⟩
  refine List.forall_mem_cons.mpr ⟨?_, List.forall_mem_cons.mpr ⟨?_, fun e he ↦ ?_⟩⟩
  · -- the return address lies above all that is written
    refine Memory.word_congr fun x hx ↦ hout x fun e he hle ↦ ?_
    have hoffset := offset_of_kept he
    exact fun hx' ↦ Memory.not_inBytes_of_offsets (by omega) (by omega) hx' hx
  · -- the saved frame pointer lies above the slots
    have hword : z.mem.word (inFrame s 0) = s₁.mem.word (inFrame s 0) := by
      refine Memory.word_congr fun x hx ↦ hmem x fun e he hx' ↦ ?_
      obtain ⟨haddr, hlow, hle⟩ := haddress e he
      rw [haddr] at hx'
      exact Memory.not_inBytes_of_offsets (by omega) (by omega) hx' hx
    rw [hword, hmem₁, hframe, Memory.word_storeWord]
  · obtain ⟨⟨r, m⟩, hm, rfl⟩ := List.mem_map.mp he
    have hnotMem : r ≠ .rsp ∧ r ≠ .rbp := by
      obtain ⟨k, -, hk, -⟩ := mem_saveSlots hm
      exact ⟨fun h ↦ hregs.1 (h ▸ List.mem_of_getElem? hk),
        fun h ↦ hregs.2 (h ▸ List.mem_of_getElem? hk)⟩
    have hapart : (saveSlots bytes regs).Pairwise
        fun e e' ↦ Memory.Apart (s₁.address e.2) (s₁.address e'.2) := by
      refine pairwise_saveSlots.imp_of_mem fun he he' hdisp ↦ ?_
      obtain ⟨haddr, hlow, hle⟩ := haddress _ he
      obtain ⟨haddr', hlow', hle'⟩ := haddress _ he'
      rw [haddr, haddr']
      exact Memory.apart_of_offsets (Or.inr hdisp) (by omega) (by omega)
    have hword := hwords hapart _ hm
    rw [(haddress _ hm).1] at hword
    exact hword.trans (hothers r hnotMem.1 hnotMem.2)

end TreeCover
