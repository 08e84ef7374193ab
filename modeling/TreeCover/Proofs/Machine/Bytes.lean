import Mathlib.Algebra.Group.Nat.Defs
import TreeCover.Proofs.Machine.Execution

/-!
# Bytes of words and of memory

Instructions that access one, two or four bytes see a part of a register or of a word in memory.
Values are compared by their low bytes, `SameBytes`, since a register that was written in part holds
nothing of interest in the rest.
-/

namespace TreeCover.Machine

/-! ## Bytes of a word -/

/-- The low `n` bytes of a word. -/
def lowBytes (n : Nat) (w : Word) : Word := (w.setWidth (8 * n)).setWidth 64

/-- A register after its low `n` bytes have been written. Four bytes clear the upper half; one or
two leave the rest as it was. -/
def mergeBytes (n : Nat) (old new : Word) : Word :=
  if n = 4 then lowBytes 4 new else (old >>> (8 * n)) <<< (8 * n) ||| lowBytes n new

theorem getLsbD_lowBytes (n : Nat) (w : Word) (k : Nat) :
    (lowBytes n w).getLsbD k = (decide (k < 8 * n) && w.getLsbD k) := by
  rw [lowBytes, BitVec.getLsbD_setWidth, BitVec.getLsbD_setWidth]
  by_cases hk : k < 64
  · simp [hk]
  · simp [hk, BitVec.getLsbD_of_ge w k (Nat.le_of_not_lt hk)]

theorem getLsbD_mergeBytes {n : Nat} (hn : n ≠ 4) (old new : Word) (k : Nat) :
    (mergeBytes n old new).getLsbD k = if k < 8 * n then new.getLsbD k else old.getLsbD k := by
  rw [mergeBytes, if_neg hn, BitVec.getLsbD_or, getLsbD_lowBytes, BitVec.getLsbD_shiftLeft,
    BitVec.getLsbD_ushiftRight]
  by_cases hk : k < 8 * n
  · simp [hk]
  · rw [if_neg hk, Nat.add_sub_cancel' (Nat.le_of_not_lt hk)]
    by_cases hlt : k < 64
    · simp [hk, hlt]
    · simp [hk, hlt, BitVec.getLsbD_of_ge old k (Nat.le_of_not_lt hlt)]

@[simp]
theorem lowBytes_eight (w : Word) : lowBytes 8 w = w := by
  rw [lowBytes, BitVec.setWidth_eq, BitVec.setWidth_eq]

@[simp]
theorem mergeBytes_eight (old new : Word) : mergeBytes 8 old new = new := by
  apply BitVec.eq_of_getLsbD_eq
  intro k hk
  rw [getLsbD_mergeBytes (by decide), if_pos hk]

theorem lowBytes_mergeBytes (n : Nat) (old new : Word) :
    lowBytes n (mergeBytes n old new) = lowBytes n new := by
  apply BitVec.eq_of_getLsbD_eq
  intro k _
  rw [getLsbD_lowBytes, getLsbD_lowBytes]
  by_cases hk : k < 8 * n
  · by_cases hn : n = 4
    · rw [hn, mergeBytes, if_pos rfl, getLsbD_lowBytes, ← hn, decide_eq_true hk, Bool.true_and]
    · rw [getLsbD_mergeBytes hn, if_pos hk]
  · rw [decide_eq_false hk, Bool.false_and, Bool.false_and]

@[simp]
theorem lowBytes_lowBytes (n : Nat) (w : Word) : lowBytes n (lowBytes n w) = lowBytes n w := by
  apply BitVec.eq_of_getLsbD_eq
  intro k _
  rw [getLsbD_lowBytes, getLsbD_lowBytes, ← Bool.and_assoc, Bool.and_self]

/-- Words with the same low `n` bytes. -/
def SameBytes (n : Nat) (x y : Word) : Prop := ∀ k < 8 * n, x.getLsbD k = y.getLsbD k

theorem SameBytes.refl (n : Nat) (x : Word) : SameBytes n x x := fun _ _ ↦ rfl

theorem SameBytes.mono {m n : Nat} {x y : Word} (h : SameBytes n x y) (hle : m ≤ n) :
    SameBytes m x y := fun k hk ↦ h k (by omega)

theorem sameBytes_eight {x y : Word} : SameBytes 8 x y ↔ x = y := by
  refine ⟨fun h ↦ BitVec.eq_of_getLsbD_eq h, fun h ↦ ?_⟩
  rw [h]
  exact .refl 8 y

theorem SameBytes.low {n : Nat} {x y : Word} (h : SameBytes n x y) :
    lowBytes n x = lowBytes n y := by
  apply BitVec.eq_of_getLsbD_eq
  intro k _
  rw [getLsbD_lowBytes, getLsbD_lowBytes]
  by_cases hk : k < 8 * n
  · rw [h k hk]
  · simp [hk]

theorem SameBytes.symm {n : Nat} {x y : Word} (h : SameBytes n x y) : SameBytes n y x :=
  fun k hk ↦ (h k hk).symm

theorem SameBytes.trans {n : Nat} {x y z : Word} (h : SameBytes n x y) (h' : SameBytes n y z) :
    SameBytes n x z := fun k hk ↦ (h k hk).trans (h' k hk)

/-- Bytes that are written do not depend on what was there before; the others stay the same. -/
theorem SameBytes.merge {k n : Nat} {x y : Word} (w : Word)
    (h : n = 4 ∨ k ≤ n ∨ SameBytes k x y) : SameBytes k (mergeBytes n x w) (mergeBytes n y w) := by
  by_cases hn : n = 4
  · rw [hn, mergeBytes, if_pos rfl, mergeBytes, if_pos rfl]
    exact .refl k _
  · intro j hj
    rw [getLsbD_mergeBytes hn, getLsbD_mergeBytes hn]
    split
    next => rfl
    next hlow =>
      rcases h with h | h | h
      · exact absurd h hn
      · omega
      · exact h j hj

/-! ## Constants of 32 bits -/

theorem fitsImm32_of_lt {w : Word} (h : w.toNat < 2 ^ 31) : fitsImm32 w = true := by
  have hint : w.toInt = w.toNat := BitVec.toInt_eq_toNat_of_lt (by omega)
  rw [fitsImm32, fitsSigned, hint, beq_iff_eq, BitVec.toInt_ofInt]
  exact Int.bmod_eq_of_le (by omega) (by omega)

theorem fitsImm32_amount (w : Word) : fitsImm32 (w &&& 63) = true := by
  have hle : (w &&& 63).toNat ≤ 63 := by
    rw [BitVec.toNat_and]
    exact Nat.and_le_right
  exact fitsImm32_of_lt (by omega)

theorem fitsImm32_ofNat {k : Nat} (h : k < 2 ^ 31) : fitsImm32 (BitVec.ofNat 64 k) = true := by
  refine fitsImm32_of_lt ?_
  rw [BitVec.toNat_ofNat]
  omega

/-! ## Bytes in memory -/

namespace Memory

variable {m m' : Memory} {a x : Word} {n k : Nat}

private theorem succ_add_div (a : Word) (hk : 8 ≤ k) :
    a + 1 + BitVec.ofNat 64 ((k - 8) / 8) = a + BitVec.ofNat 64 (k / 8) := by
  have hdiv : k / 8 = (k - 8) / 8 + 1 := by omega
  rw [hdiv, BitVec.add_assoc, BitVec.add_comm 1, BitVec.ofNat_add]
  rfl

/-- A bit of what is loaded is a bit of the byte it falls into. -/
theorem testBit_load (m : Memory) (a : Word) (n k : Nat) : (m.load a n).testBit k =
    (decide (k < 8 * n) && (m (a + BitVec.ofNat 64 (k / 8))).getLsbD (k % 8)) := by
  induction n generalizing a k with
  | zero => simp [load]
  | succ n ih =>
    have hsplit : m.load a (n + 1) = 2 ^ 8 * m.load (a + 1) n + (m a).toNat :=
      Nat.add_comm _ _
    rw [hsplit, Nat.testBit_two_pow_mul_add _ (m a).isLt]
    split
    next hk =>
      have hdiv : k / 8 = 0 := Nat.div_eq_of_lt hk
      have hmod : k % 8 = k := Nat.mod_eq_of_lt hk
      rw [hdiv, hmod, BitVec.add_zero, BitVec.testBit_toNat, decide_eq_true (by omega),
        Bool.true_and]
    next hk =>
      rw [ih, succ_add_div a (Nat.le_of_not_lt hk), ← Nat.mod_eq_sub_mod (Nat.le_of_not_lt hk)]
      exact congrArg (· && _) (decide_eq_decide.mpr (by omega))

theorem getLsbD_ofNat_load (m : Memory) (a : Word) (n k : Nat) :
    (BitVec.ofNat 64 (m.load a n)).getLsbD k = (decide (k < 64) && (decide (k < 8 * n) &&
      (m (a + BitVec.ofNat 64 (k / 8))).getLsbD (k % 8))) := by
  rw [BitVec.getLsbD_ofNat, testBit_load]

/-- What is loaded is the low part of the word. -/
theorem ofNat_load (m : Memory) (a : Word) (n : Nat) : BitVec.ofNat 64 (m.load a n) = lowBytes n (m.word a) := by
  apply BitVec.eq_of_getLsbD_eq
  intro k hk
  rw [getLsbD_lowBytes, word, getLsbD_ofNat_load, getLsbD_ofNat_load, decide_eq_true hk]
  by_cases hlow : k < 8 * n
  · rw [decide_eq_true hlow]
    rfl
  · rw [decide_eq_false hlow]
    rfl

/-- Storing some bytes merges them into the word. -/
theorem word_store (hlong : n ≠ 4) (w : Word) :
    (m.store a n w.toNat).word a = mergeBytes n (m.word a) w := by
  apply BitVec.eq_of_getLsbD_eq
  intro k hk
  have hbyte : k / 8 < 8 := by omega
  have hin : InBytes a n (a + BitVec.ofNat 64 (k / 8)) ↔ k / 8 < n := by
    rw [InBytes, add_ofNat_sub hbyte]
  rw [getLsbD_mergeBytes hlong, word, getLsbD_ofNat_load, word, getLsbD_ofNat_load,
    decide_eq_true hk, Bool.true_and, Bool.true_and, store]
  by_cases hlow : k < 8 * n
  · rw [if_pos (hin.mpr (by omega)), if_pos hlow, add_ofNat_sub hbyte, BitVec.getLsbD_ofNat,
      decide_eq_true (by omega), Bool.true_and, Nat.testBit_shiftRight, BitVec.testBit_toNat,
      Nat.div_add_mod]
  · rw [if_neg (mt hin.mp (by omega)), if_neg hlow]
    rfl

theorem load_eq_of_inBytes (hn : n ≤ 8) (h : ∀ x, InBytes a n x → m x = m' x) :
    m.load a n = m'.load a n := by
  refine load_congr fun i hi ↦ h _ ?_
  rw [InBytes, add_ofNat_sub (by omega)]
  exact hi

theorem store_of_not_inBytes (h : ¬ InBytes a n x) (value : Nat) :
    m.store a n value x = m x := if_neg h

theorem store_congr (value : Nat) (h : m x = m' x) :
    m.store a n value x = m'.store a n value x := by
  rw [store, store, h]

/-- A store writes low bytes only. -/
theorem store_congr_low {v w : Word} (h : lowBytes n v = lowBytes n w) :
    m.store a n v.toNat = m.store a n w.toNat := by
  funext x
  rw [store, store]
  split
  next hx =>
    apply BitVec.eq_of_getLsbD_eq
    intro k hk
    have hbit := congrArg (·.getLsbD (8 * (x - a).toNat + k)) h
    rw [InBytes] at hx
    simp only [getLsbD_lowBytes, decide_eq_true (show 8 * (x - a).toNat + k < 8 * n by omega),
      Bool.true_and] at hbit
    rw [BitVec.getLsbD_ofNat, BitVec.getLsbD_ofNat, Nat.testBit_shiftRight, Nat.testBit_shiftRight,
      BitVec.testBit_toNat, BitVec.testBit_toNat, hbit]
  next => rfl

end Memory

end TreeCover.Machine
