import TreeCover.Proofs.Assembly.LostPlace

/-!
# A state that shows a lost place

In the probe of a location and an address all places hold the same word, but for the location, which
holds the word above. Memory has the byte `1` around the frame and at the address, and `0` elsewhere.
An operand that reads the location has another word or another address under these values than when
all places hold the same, and the memory tells the two addresses apart.
-/

namespace TreeCover

open Machine

variable {a : Allocation} {vs : List VReg} {l₀ : Location} {x₀ x y : Word} {d : Int}

/-! ## Addresses far from the frame -/

/-- The word that all places hold but one; all its bytes are `1`. -/
def level : Word := 0x0101010101010101#64

/-- An address that no slot of a frame at address `0` is near to. -/
def IsFar (x : Word) : Prop := 1099511627776 ≤ x.toNat ∧ x.toNat ≤ 18446742974197923840

/-- An address that a slot of a frame at address `0` may have. -/
def isNear (x : Word) : Bool := decide ((x + 2147483648#64).toNat < 4294967304)

theorem IsFar.not_near (h : IsFar x) : isNear x = false := by
  obtain ⟨hlo, hhi⟩ := h
  rw [isNear, decide_eq_false_iff_not]
  bv_omega

theorem IsFar.apart (h : IsFar x) (hd : IsDisplacement d) :
    Memory.Apart x (BitVec.ofInt 64 d) := by
  obtain ⟨hlo, hhi⟩ := h
  obtain ⟨hd₁, hd₂⟩ := hd
  have hslot : (BitVec.ofInt 64 d).toNat ≤ 2147483648 ∨
      18446744071562067968 ≤ (BitVec.ofInt 64 d).toNat := by
    rw [BitVec.toNat_ofInt]
    omega
  rw [Memory.Apart]
  generalize BitVec.ofInt 64 d = z at hslot
  constructor <;> bv_omega

theorem isNear_of_inBytes (hd : IsDisplacement d) (h : Memory.InBytes (BitVec.ofInt 64 d) 8 x) :
    isNear x = true := by
  obtain ⟨hd₁, hd₂⟩ := hd
  have hslot : (BitVec.ofInt 64 d + 2147483648#64).toNat < 4294967296 := by
    rw [BitVec.toNat_add, BitVec.toNat_ofInt, BitVec.toNat_ofNat]
    omega
  rw [Memory.InBytes] at h
  rw [isNear, decide_eq_true_iff]
  generalize BitVec.ofInt 64 d = z at hslot h
  bv_omega

theorem isFar_add (hx : 1125899906842624 ≤ x.toNat ∧ x.toNat ≤ 9223372036854775808)
    (hd : IsDisplacement d) : IsFar (x + BitVec.ofInt 64 d) := by
  obtain ⟨hd₁, hd₂⟩ := hd
  obtain ⟨hlo, hhi⟩ := hx
  rw [IsFar, BitVec.toNat_add, BitVec.toNat_ofInt]
  omega

/-! ## Values that tell a location from the others -/

/-- The values when all places hold `level` but `l₀`, which holds the word above; the frame pointer
holds `0`. -/
def tipped (a : Allocation) (l₀ : Location) : Reg → Option Word
  | .phys r => levelled level (.phys r)
  | .virt v => if a.location? v = some l₀ then some (level + 1) else some level

/-- An address without its displacement. A scale of `0` stands for no index. -/
def anchor (base index : Word) (scale : Nat) : Word := base + index * BitVec.ofNat 64 scale

/-- What stands in a base when all places hold the same. -/
def flat (base : Word) : Word := if base = 0 then 0 else level

/-- What stands in a base: `0` in the frame pointer, a value otherwise. -/
def IsBase (base : Word) : Prop := base = 0 ∨ base = level ∨ base = level + 1

/-- What stands in an index. -/
def IsIndex (index : Word) : Prop := index = level ∨ index = level + 1

/-- A scale, or `0` for no index. -/
def IsScale (scale : Nat) : Prop := scale = 0 ∨ scale = 1 ∨ scale = 2 ∨ scale = 4 ∨ scale = 8

private theorem anchor_bounds {base index : Word} {scale : Nat} (hbase : IsBase base)
    (hindex : IsIndex index) (hscale : IsScale scale) (hne : base ≠ 0 ∨ scale ≠ 0) :
    1125899906842624 ≤ (anchor base index scale).toNat ∧
      (anchor base index scale).toNat ≤ 9223372036854775808 := by
  rcases hbase with rfl | rfl | rfl <;> rcases hindex with rfl | rfl <;>
    rcases hscale with rfl | rfl | rfl | rfl | rfl <;> revert hne <;> decide

private theorem anchor_ne {base index : Word} {scale : Nat} (hbase : IsBase base)
    (hindex : IsIndex index) (hscale : IsScale scale)
    (htip : base = level + 1 ∨ index = level + 1 ∧ scale ≠ 0) :
    anchor base index scale ≠ anchor (flat base) level scale := by
  rcases hbase with rfl | rfl | rfl <;> rcases hindex with rfl | rfl <;>
    rcases hscale with rfl | rfl | rfl | rfl | rfl <;> revert htip <;> decide

private theorem isBase_flat (base : Word) :
    IsBase (flat base) ∧ (flat base = 0 → base = 0) := by
  rw [flat]
  split
  next h => exact ⟨Or.inl rfl, fun _ ↦ h⟩
  next => exact ⟨Or.inr (Or.inl rfl), fun h ↦ absurd h (by decide)⟩

private theorem tipped_base {r : Reg} (hr : r = .phys .rbp ∨ ∃ v, r = .virt v) :
    ∃ base, IsBase base ∧ tipped a l₀ r = some base ∧
      levelled level r = some (flat base) ∧ (base = 0 → r = .phys .rbp) := by
  rcases hr with rfl | ⟨v, rfl⟩
  · exact ⟨0, Or.inl rfl, rfl, rfl, fun _ ↦ rfl⟩
  · rw [tipped]
    split
    · exact ⟨level + 1, Or.inr (Or.inr rfl), rfl, rfl, fun h ↦ absurd h (by decide)⟩
    · exact ⟨level, Or.inr (Or.inl rfl), rfl, rfl, fun h ↦ absurd h (by decide)⟩

private theorem tipped_index (a : Allocation) (l₀ : Location) (v : VReg) :
    ∃ index, IsIndex index ∧ tipped a l₀ (.virt v) = some index := by
  rw [tipped]
  split
  · exact ⟨level + 1, Or.inr rfl, rfl⟩
  · exact ⟨level, Or.inl rfl, rfl⟩

/-- The addresses of an operand other than a slot of the frame: under tipped values, and when all
places hold the same. -/
private theorem address_eq_anchor {mem : Mem} (hsrc : IsPhiSource (.mem mem))
    (hslot : mem ≠ .frame mem.disp) :
    ∃ base index scale, IsBase base ∧ IsIndex index ∧ IsScale scale ∧ (base ≠ 0 ∨ scale ≠ 0) ∧
      mem.address (tipped a l₀) = some (anchor base index scale + BitVec.ofInt 64 mem.disp) ∧
      mem.address (levelled level)
        = some (anchor (flat base) level scale + BitVec.ofInt 64 mem.disp) ∧
      ((∃ r ∈ mem.regs, tipped a l₀ r = some (level + 1)) →
        base = level + 1 ∨ index = level + 1 ∧ scale ≠ 0) := by
  obtain ⟨hbase, hindex, -⟩ := hsrc
  obtain ⟨base, hmem, hval, hlevel, hzero⟩ := @tipped_base a l₀ _ hbase
  cases hpart : mem.index with
  | none =>
    have hne : base ≠ 0 := by
      intro heq
      apply hslot
      obtain ⟨r, disp, index⟩ := mem
      obtain rfl : r = .phys .rbp := hzero heq
      obtain rfl : index = none := hpart
      rfl
    refine ⟨base, level, 0, hmem, Or.inl rfl, Or.inl rfl, Or.inl hne, ?_, ?_, ?_⟩
    · rw [Mem.address, hval, hpart, anchor]
      simp
    · rw [Mem.address, hlevel, hpart, anchor]
      simp
    · rintro ⟨r, hr, htip⟩
      rw [Mem.regs, hpart] at hr
      obtain rfl := List.mem_singleton.mp hr
      exact Or.inl (Option.some.inj (hval.symm.trans htip))
  | some part =>
    obtain ⟨r, scale⟩ := part
    obtain ⟨⟨v, rfl⟩, hscale⟩ := hindex r scale hpart
    obtain ⟨index, hindexMem, hindexVal⟩ := tipped_index a l₀ v
    have hscaleNe : scale ≠ 0 := by
      rintro rfl
      exact absurd hscale (by decide)
    refine ⟨base, index, scale, hmem, hindexMem, Or.inr (by simpa using hscale), Or.inr hscaleNe,
      ?_, ?_, ?_⟩
    · rw [Mem.address, hval, hpart, anchor]
      simp only [Option.bind_eq_bind, Option.bind_some, hindexVal, Option.pure_def]
      rw [BitVec.add_assoc, BitVec.add_comm (BitVec.ofInt 64 mem.disp), ← BitVec.add_assoc]
    · rw [Mem.address, hlevel, hpart, anchor]
      simp only [Option.bind_eq_bind, Option.bind_some, levelled, Option.pure_def]
      rw [if_neg (by simp), Option.bind_some, BitVec.add_assoc,
        BitVec.add_comm (BitVec.ofInt 64 mem.disp), ← BitVec.add_assoc]
    · rintro ⟨r, hr, htip⟩
      rw [Mem.regs, hpart] at hr
      rcases List.mem_cons.mp hr with rfl | hr
      · exact Or.inl (Option.some.inj (hval.symm.trans htip))
      · obtain rfl := List.mem_singleton.mp hr
        exact Or.inr ⟨Option.some.inj (hindexVal.symm.trans htip), hscaleNe⟩

/-- Under tipped values no operand but a slot of the frame reads near the frame. -/
theorem isFar_tipped {mem : Mem} (hsrc : IsPhiSource (.mem mem)) (hslot : mem ≠ .frame mem.disp)
    (hx : mem.address (tipped a l₀) = some x) : IsFar x := by
  obtain ⟨base, index, scale, hbase, hindex, hscale, hne, hval, -, -⟩ :=
    @address_eq_anchor a l₀ mem hsrc hslot
  rw [hx, Option.some.injEq] at hval
  exact hval ▸ isFar_add (anchor_bounds hbase hindex hscale hne) hsrc.2.2

/-- An operand that reads the location has other addresses under tipped values. -/
theorem address_tipped_ne {mem : Mem} (hsrc : IsPhiSource (.mem mem))
    (hslot : mem ≠ .frame mem.disp) (hread : ∃ r ∈ mem.regs, tipped a l₀ r = some (level + 1)) :
    ∃ x y, mem.address (tipped a l₀) = some x ∧ mem.address (levelled level) = some y ∧
      x ≠ y ∧ IsFar x ∧ IsFar y := by
  obtain ⟨base, index, scale, hbase, hindex, hscale, hne, hval, hlevel, htip⟩ :=
    @address_eq_anchor a l₀ mem hsrc hslot
  obtain ⟨hflat, hflatZero⟩ := isBase_flat base
  refine ⟨_, _, hval, hlevel, fun heq ↦ ?_, ?_, ?_⟩
  · exact anchor_ne hbase hindex hscale (htip hread) ((BitVec.add_left_inj _).mp heq)
  · exact isFar_add (anchor_bounds hbase hindex hscale hne) hsrc.2.2
  · exact isFar_add (anchor_bounds hflat (Or.inl rfl) hscale (hne.imp_left (mt hflatZero)))
      hsrc.2.2

/-! ## The probe -/

/-- Memory with the byte `1` around the frame and at an address. -/
def probeMemory (x₀ : Word) : Memory := fun x ↦ if isNear x ∨ x = x₀ then 1 else 0

/-- A state where all places hold `level`. -/
def levelState (x₀ : Word) : State where
  regs r := if r = .rbp then 0 else level
  mem := probeMemory x₀
  flags := default

/-- A state with the values of `tipped`, whose memory shows what is read from `x₀`. -/
def probe (l₀ : Location) (x₀ : Word) : State :=
  match l₀ with
  | .register r => (levelState x₀).setReg r (level + 1)
  | .stack slot => (levelState x₀).setWord (BitVec.ofInt 64 slot.disp) (level + 1)

theorem mem_probe_register (r : PhysReg) (x₀ : Word) :
    (probe (.register r) x₀).mem = probeMemory x₀ := by rw [probe, State.mem_setReg, levelState]

theorem mem_probe_stack (d : Int) (x₀ : Word) :
    (probe (.stack (.frame d)) x₀).mem
      = (probeMemory x₀).storeWord (BitVec.ofInt 64 d) (level + 1) := by
  rw [probe, State.mem_setWord, levelState, Mem.frame, Mem.based]

variable (hhome : l₀.IsHome)
include hhome

theorem probe_rbp : (probe l₀ x₀).regs .rbp = 0 := by
  cases l₀ with
  | register r =>
    have hne : PhysReg.rbp ≠ r := by
      rintro rfl
      exact rbp_not_mem_allocatable hhome
    exact State.regs_setReg_of_ne _ _ hne
  | stack slot => rfl

theorem slotAddress_probe (d : Int) : slotAddress (probe l₀ x₀) d = BitVec.ofInt 64 d := by
  rw [slotAddress, probe_rbp hhome]
  exact BitVec.zero_add _

theorem probe_byte (hx : IsFar x) : (probe l₀ x₀).mem x = if x = x₀ then 1 else 0 := by
  have hmem : probeMemory x₀ x = if x = x₀ then 1 else 0 := by simp [probeMemory, hx.not_near]
  cases l₀ with
  | register r => rw [mem_probe_register, hmem]
  | stack slot =>
    obtain ⟨d, rfl, hd⟩ := hhome
    rw [mem_probe_stack, Memory.storeWord_of_not_inBytes _ fun hin ↦ ?_, hmem]
    have hnear := isNear_of_inBytes hd hin
    rw [hx.not_near] at hnear
    exact absurd hnear (by decide)

/-- The memory of the probe tells its address from others. -/
theorem probe_word_ne (hx : IsFar x₀) (hy : IsFar y) (hne : x₀ ≠ y) :
    (probe l₀ x₀).mem.word x₀ ≠ (probe l₀ x₀).mem.word y := by
  intro heq
  have hbyte := congrArg (BitVec.setWidth 8) heq
  rw [Memory.setWidth_word, Memory.setWidth_word, probe_byte hhome hx, probe_byte hhome hy, if_pos rfl,
    if_neg hne.symm] at hbyte
  exact absurd hbyte (by decide)

private theorem probe_register {r : PhysReg} (hr : r ∈ PhysReg.allocatable) :
    (probe l₀ x₀).regs r = if l₀ = .register r then level + 1 else level := by
  have hne : r ≠ .rbp := fun heq ↦ rbp_not_mem_allocatable (heq ▸ hr)
  cases l₀ with
  | register q =>
    by_cases hqr : q = r
    · rw [hqr, if_pos rfl]
      exact State.regs_setReg_self _ _ _
    · rw [if_neg fun heq ↦ hqr (Location.register.inj heq)]
      exact (State.regs_setReg_of_ne _ _ (Ne.symm hqr)).trans (if_neg hne)
  | stack slot => exact if_neg hne

omit hhome in
private theorem word_ones (x : Word) : Memory.word (fun _ ↦ 1) x = level := by
  simp [Memory.word, Memory.load, level]

private theorem probe_slot (hd : IsDisplacement d)
    (hother : ∀ e, l₀ = .stack (.frame e) → e = d ∨ d + 8 ≤ e ∨ e + 8 ≤ d) :
    (probe l₀ x₀).mem.word (BitVec.ofInt 64 d)
      = if l₀ = .stack (.frame d) then level + 1 else level := by
  have hlevel : (probeMemory x₀).word (BitVec.ofInt 64 d) = level := by
    refine Eq.trans (Memory.word_congr fun x hx ↦ ?_) (word_ones _)
    rw [probeMemory, if_pos (Or.inl (isNear_of_inBytes hd hx))]
  cases l₀ with
  | register q => rw [mem_probe_register, hlevel, if_neg (by simp)]
  | stack slot =>
    obtain ⟨e, rfl, he⟩ := hhome
    rw [mem_probe_stack]
    rcases hother e rfl with rfl | happart
    · rw [if_pos rfl, Memory.word_storeWord]
    · have hne : d ≠ e := by omega
      have hslots := apart_slots he hd (Or.symm happart) 0#64
      rw [BitVec.zero_add, BitVec.zero_add] at hslots
      rw [if_neg fun heq ↦ hne (congrArg Mem.disp (Location.stack.inj heq)).symm,
        Memory.word_storeWord_of_apart _ hslots, hlevel]

omit hhome in
/-- In the probe of a location the places hold the tipped values. -/
theorem valueIn_probe (hp : a.Places vs) {u v : VReg} (hu : u ∈ vs) (hl₀ : a.location? u = some l₀)
    (hv : v ∈ vs) : a.valueIn (probe l₀ x₀) (.virt v) = tipped a l₀ (.virt v) := by
  have hhome : l₀.IsHome := by
    obtain ⟨l, hl, hhome⟩ := hp.home u hu
    rw [hl₀, Option.some.injEq] at hl
    exact hl ▸ hhome
  rcases hp.cases hv with ⟨r, hr, hl⟩ | ⟨d, hl, hd⟩
  · rw [Allocation.valueIn_of_register hl, probe_register hhome hr, tipped, hl]
    simp only [Option.some.injEq, @eq_comm _ l₀]
    split <;> rfl
  · rw [Allocation.valueIn_of_slot hl, slotAddress_probe hhome, probe_slot hhome hd, tipped, hl]
    · simp only [Option.some.injEq, @eq_comm _ l₀]
      split <;> rfl
    · rintro e rfl
      by_cases huv : u = v
      · rw [huv, hl, Option.some.injEq, Location.stack.injEq] at hl₀
        exact Or.inl (congrArg Mem.disp hl₀).symm
      · exact Or.inr (Or.symm (hp.apart u hu v hv huv e d hl₀ hl))

end TreeCover
