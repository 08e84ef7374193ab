import Mathlib.Data.List.Basic
import TreeCover.Liveness.Interval

/-!
# Intervals as sets of positions

An interval is sorted if each of its ranges runs upwards and ends more than one position before the
next one begins. Both operations on intervals keep this form, and on sorted intervals each does to
the set of positions what its name says: adding a range is a union, and starting at a covered
position drops exactly what lies before it.
-/

namespace TreeCover

theorem le_nextPosition (p : Nat) : p ≤ nextPosition p := by
  rw [nextPosition]
  split <;> omega

theorem nextPosition_le_succ (p : Nat) : nextPosition p ≤ p + 1 := by
  rw [nextPosition]
  split <;> omega

namespace Interval

variable {lo hi p q : Nat} {rs : List Span} {i : Interval}

/-- Ranges that run upwards, with a gap between each and the next. -/
structure SpansSorted (rs : List Span) : Prop where
  upward : ∀ r ∈ rs, r.1 ≤ r.2
  apart : rs.Pairwise fun r r' ↦ nextPosition r.2 < r'.1

/-- The form in which the positions of an interval are kept. -/
def Sorted (i : Interval) : Prop := SpansSorted i.spans

theorem sorted_empty : empty.Sorted := ⟨fun _ h ↦ absurd h List.not_mem_nil, .nil⟩

theorem spanCovers_iff {r : Span} : spanCovers p r = true ↔ r.1 ≤ p ∧ p ≤ r.2 := by
  rw [spanCovers, Bool.and_eq_true, decide_eq_true_iff, decide_eq_true_iff]

theorem covers_iff : i.covers p = true ↔ ∃ r ∈ i.spans, r.1 ≤ p ∧ p ≤ r.2 := by
  rw [covers, List.any_eq_true]
  exact exists_congr fun r ↦ and_congr_right fun _ ↦ spanCovers_iff

theorem SpansSorted.tail {r : Span} (h : SpansSorted (r :: rs)) : SpansSorted rs :=
  ⟨fun r' hr' ↦ h.upward r' (List.mem_cons_of_mem _ hr'), h.apart.of_cons⟩

/-! ## Adding a range -/

/-- A bound below the inserted range and below all others is below all that results. -/
private theorem lt_start_insertSpan {b : Nat} (hlo : b < lo) (hrs : ∀ r ∈ rs, b < r.1) :
    ∀ r ∈ insertSpan lo hi rs, b < r.1 := by
  induction rs generalizing lo hi with
  | nil =>
    intro r hr
    obtain rfl := List.mem_singleton.mp hr
    exact hlo
  | cons r rs ih =>
    obtain ⟨hr, hrs⟩ := List.forall_mem_cons.mp hrs
    rw [insertSpan]
    split
    next => exact List.forall_mem_cons.mpr ⟨hr, ih hlo hrs⟩
    next =>
      split
      next =>
        exact List.forall_mem_cons.mpr ⟨hlo, List.forall_mem_cons.mpr ⟨hr, hrs⟩⟩
      next => exact ih (by omega) hrs

theorem SpansSorted.insertSpan (h : SpansSorted rs) (hle : lo ≤ hi) :
    SpansSorted (insertSpan lo hi rs) := by
  induction rs generalizing lo hi with
  | nil =>
    refine ⟨fun r hr ↦ ?_, List.pairwise_singleton _ _⟩
    obtain rfl := List.mem_singleton.mp hr
    exact hle
  | cons r rs ih =>
    have hr := h.upward r List.mem_cons_self
    have hrest : ∀ r' ∈ rs, nextPosition r.2 < r'.1 := fun r' ↦ List.rel_of_pairwise_cons h.apart
    rw [Interval.insertSpan]
    split
    next hbefore =>
      have hins := ih h.tail hle
      refine ⟨List.forall_mem_cons.mpr ⟨hr, hins.upward⟩, List.pairwise_cons.mpr ⟨?_, hins.apart⟩⟩
      exact lt_start_insertSpan hbefore hrest
    next =>
      split
      next hbehind =>
        refine ⟨List.forall_mem_cons.mpr ⟨hle, h.upward⟩, List.pairwise_cons.mpr ⟨?_, h.apart⟩⟩
        refine List.forall_mem_cons.mpr ⟨hbehind, fun r' hr' ↦ ?_⟩
        have := hrest r' hr'
        have := le_nextPosition r.2
        simp only at hbehind ⊢
        omega
      next => exact ih h.tail (by omega)

/-- Inserting a range adds its positions and no others. -/
theorem exists_mem_insertSpan_iff (h : SpansSorted rs) (hle : lo ≤ hi) :
    (∃ r ∈ insertSpan lo hi rs, r.1 ≤ p ∧ p ≤ r.2) ↔
      (lo ≤ p ∧ p ≤ hi) ∨ ∃ r ∈ rs, r.1 ≤ p ∧ p ≤ r.2 := by
  induction rs generalizing lo hi with
  | nil => simp [Interval.insertSpan]
  | cons r rs ih =>
    have hr := h.upward r List.mem_cons_self
    rw [Interval.insertSpan]
    split
    next => rw [List.exists_mem_cons_iff, List.exists_mem_cons_iff, ih h.tail hle, or_left_comm]
    next hbefore =>
      split
      next => rw [List.exists_mem_cons_iff]
      next hbehind =>
        have hup := nextPosition_le_succ r.2
        have hup' := nextPosition_le_succ hi
        rw [List.exists_mem_cons_iff, ih h.tail (by omega), ← or_assoc]
        refine or_congr_left ?_
        omega

theorem Sorted.addRange (h : i.Sorted) (a b : Nat) : (i.addRange a b).Sorted :=
  SpansSorted.insertSpan h (by omega)

/-- **Union.** Adding a range covers what was covered and what lies between the bounds. -/
theorem covers_addRange (h : i.Sorted) (a b : Nat) :
    (i.addRange a b).covers p = true ↔ i.covers p = true ∨ min a b ≤ p ∧ p ≤ max a b := by
  rw [covers_iff, covers_iff, Interval.addRange, or_comm]
  exact exists_mem_insertSpan_iff h (by omega)

/-! ## Starting at a position -/

private theorem dropWhile_spec (h : SpansSorted rs) (p : Nat) :
    (∀ r ∈ rs, ¬ (r.1 ≤ p ∧ p ≤ r.2)) ∧ rs.dropWhile (!spanCovers p ·) = [] ∨
    ∃ front s e tail, rs = front ++ (s, e) :: tail ∧ s ≤ p ∧ p ≤ e ∧ (∀ r ∈ front, r.2 < p) ∧
      rs.dropWhile (!spanCovers p ·) = (s, e) :: tail := by
  induction rs with
  | nil => exact Or.inl ⟨fun _ h ↦ absurd h List.not_mem_nil, rfl⟩
  | cons r rs ih =>
    rw [List.dropWhile_cons]
    by_cases hr : spanCovers p r = true
    · obtain ⟨hlo, hhi⟩ := spanCovers_iff.mp hr
      refine Or.inr ⟨[], r.1, r.2, rs, rfl, hlo, hhi, fun _ h ↦ absurd h List.not_mem_nil, ?_⟩
      rw [if_neg (by simp [hr])]
    · rw [if_pos (by simp [hr])]
      have hnot := mt spanCovers_iff.mpr hr
      rcases ih h.tail with ⟨hout, hnil⟩ | ⟨front, s, e, tail, rfl, hs, he, hfront, hdrop⟩
      · exact Or.inl ⟨List.forall_mem_cons.mpr ⟨hnot, hout⟩, hnil⟩
      · refine Or.inr ⟨r :: front, s, e, tail, rfl, hs, he, ?_, hdrop⟩
        have hapart : nextPosition r.2 < s :=
          List.rel_of_pairwise_cons h.apart (List.mem_append_right _ List.mem_cons_self)
        have := le_nextPosition r.2
        exact List.forall_mem_cons.mpr ⟨by omega, hfront⟩

theorem Sorted.startAt (h : i.Sorted) (p : Nat) : (i.startAt p).Sorted := by
  rw [Interval.startAt]
  rcases dropWhile_spec h p with ⟨-, hnil⟩ | ⟨front, s, e, tail, hspans, hs, he, -, hdrop⟩
  · rw [hnil]
    exact h.addRange p p
  · rw [hdrop]
    have htail : SpansSorted ((s, e) :: tail) := by
      rw [Sorted, hspans] at h
      exact ⟨fun r hr ↦ h.upward r (List.mem_append_right _ hr),
        (List.pairwise_append.mp h.apart).2.1⟩
    refine ⟨List.forall_mem_cons.mpr ⟨he, htail.tail.upward⟩, ?_⟩
    exact List.pairwise_cons.mpr ⟨fun r hr ↦ List.rel_of_pairwise_cons htail.apart hr,
      htail.apart.of_cons⟩

/-- **Cut.** Starting at a covered position keeps the positions from there on. -/
theorem covers_startAt_of_covers (h : i.Sorted) (hp : i.covers p = true) :
    (i.startAt p).covers q = true ↔ i.covers q = true ∧ p ≤ q := by
  obtain ⟨r, hr, hrp⟩ := covers_iff.mp hp
  rw [covers_iff, covers_iff, Interval.startAt]
  rcases dropWhile_spec h p with ⟨hout, -⟩ | ⟨front, s, e, tail, hspans, hs, he, hfront, hdrop⟩
  · exact absurd hrp (hout r hr)
  · rw [hdrop, hspans]
    rw [Sorted, hspans] at h
    have htail := (List.pairwise_append.mp h.apart).2.1
    have hbehind : ∀ r ∈ tail, p < r.1 := fun r hr ↦ by
      have := List.rel_of_pairwise_cons htail hr
      have := le_nextPosition e
      simp only at *
      omega
    constructor
    · rintro ⟨r, hr, hlo, hhi⟩
      rcases List.mem_cons.mp hr with rfl | hr
      · exact ⟨⟨(s, e), by simp, by simp only at *; omega, hhi⟩, hlo⟩
      · exact ⟨⟨r, by simp [hr], hlo, hhi⟩, by have := hbehind r hr; omega⟩
    · rintro ⟨⟨r, hr, hlo, hhi⟩, hpq⟩
      rcases List.mem_append.mp hr with hr | hr
      · exact absurd hpq (by have := hfront r hr; omega)
      · rcases List.mem_cons.mp hr with rfl | hr
        · exact ⟨(p, e), List.mem_cons_self, hpq, hhi⟩
        · exact ⟨r, List.mem_cons_of_mem _ hr, hlo, hhi⟩

/-- Starting at a position that is not covered adds that position. -/
theorem covers_startAt_of_not_covers (h : i.Sorted) (hp : ¬ i.covers p = true) :
    (i.startAt p).covers q = true ↔ i.covers q = true ∨ q = p := by
  rw [Interval.startAt]
  rcases dropWhile_spec h p with ⟨-, hnil⟩ | ⟨front, s, e, tail, hspans, hs, he, -, -⟩
  · rw [hnil, covers_addRange h p p]
    refine or_congr_right ?_
    omega
  · refine absurd (covers_iff.mpr ⟨(s, e), ?_, hs, he⟩) hp
    rw [hspans]
    exact List.mem_append_right _ List.mem_cons_self

/-- Starting at a position covers it, and loses nothing from there on. -/
theorem covers_startAt (h : i.Sorted) (hq : q = p ∨ p ≤ q ∧ i.covers q = true) :
    (i.startAt p).covers q = true := by
  by_cases hp : i.covers p = true
  · rw [covers_startAt_of_covers h hp]
    rcases hq with rfl | ⟨hle, hq⟩
    · exact ⟨hp, Nat.le_refl q⟩
    · exact ⟨hq, hle⟩
  · rw [covers_startAt_of_not_covers h hp]
    rcases hq with rfl | ⟨-, hq⟩
    · exact Or.inr rfl
    · exact Or.inl hq

end Interval

end TreeCover
