import Mathlib.Data.Set.Basic
import TreeCover.Proofs.Liveness.Interval

/-!
# Intervals and their histories

An interval grows out of the empty one by two kinds of calls, whose arguments are 32-bit positions.
Each call does to the set of positions what its name says, so after any number of calls the interval
is the point set of its history. The ranges are no more than that: they run upwards and leave a gap
between any two neighbours, so equal point sets are kept as equal ranges.

The last position has no successor, and a range that ends there touches whatever begins there or
before. Nothing can begin behind it, so no gap is lost.

An array of ranges is searched by halving, which is right only if all that satisfies the condition
stands at the front. In an interval it does, and halving comes to the same as a walk from the front.
-/

namespace TreeCover

namespace Interval

variable {q : Span → Bool} {r : Span} {rs rs' front back : List Span} {lo hi k p : Nat}
  {i j : Interval}

/-! ## Search by halving -/

/-- The number of ranges at the front that satisfy `q`, searched for from `lo` to `hi`. -/
def partitionPoint (q : Span → Bool) (rs : List Span) (lo hi : Nat) : Nat :=
  if lo < hi then
    if rs[(lo + hi) / 2]?.any q then partitionPoint q rs ((lo + hi) / 2 + 1) hi
    else partitionPoint q rs lo ((lo + hi) / 2)
  else lo
termination_by hi - lo

private theorem any_getElem?_append (hfront : ∀ r ∈ front, q r = true)
    (hback : ∀ r ∈ back, q r = false) (k : Nat) :
    (front ++ back)[k]?.any q = decide (k < front.length) := by
  rcases Nat.lt_or_ge k front.length with hlt | hge
  · rw [List.getElem?_append_left hlt, List.getElem?_eq_getElem hlt, Option.any_some,
      hfront _ (List.getElem_mem hlt), decide_eq_true hlt]
  · rw [List.getElem?_append_right hge, decide_eq_false (Nat.not_lt.mpr hge)]
    cases h : back[k - front.length]? with
    | none => rfl
    | some r => exact hback r (List.mem_of_getElem? h)

/-- Halving finds the end of the front, if all ranges there satisfy `q` and none behind it does. -/
theorem partitionPoint_append (hfront : ∀ r ∈ front, q r = true) (hback : ∀ r ∈ back, q r = false)
    (hlo : lo ≤ front.length) (hhi : front.length ≤ hi) :
    partitionPoint q (front ++ back) lo hi = front.length := by
  -- The end of the front stays between the bounds.
  fun_induction partitionPoint q (front ++ back) lo hi with
  | case1 lo hi hlt hmid ih =>
    rw [any_getElem?_append hfront hback, decide_eq_true_iff] at hmid
    exact ih hmid hhi
  | case2 lo hi hlt hmid ih =>
    rw [any_getElem?_append hfront hback, decide_eq_true_iff] at hmid
    exact ih hlo (Nat.not_lt.mp hmid)
  | case3 lo hi hnot => omega

/-- If `q` holds of all that stands before a range of which it holds, halving parts the ranges into
those that satisfy `q` and those that do not. -/
theorem exists_partition (h : rs.Pairwise fun r r' ↦ q r' = true → q r = true) :
    ∃ front back, rs = front ++ back ∧ (∀ r ∈ front, q r = true) ∧ (∀ r ∈ back, q r = false) ∧
      partitionPoint q rs 0 rs.length = front.length := by
  have hfront : ∀ r ∈ rs.takeWhile q, q r = true := List.all_eq_true.mp List.all_takeWhile
  have hback : ∀ r ∈ rs.dropWhile q, q r = false := by
    induction rs with
    | nil => exact fun _ hr ↦ absurd hr List.not_mem_nil
    | cons r rs ih =>
      rw [List.dropWhile_cons]
      split
      next => exact ih h.of_cons (List.all_eq_true.mp List.all_takeWhile)
      next hr =>
        refine List.forall_mem_cons.mpr ⟨Bool.eq_false_iff.mpr hr, fun r' hr' ↦ ?_⟩
        exact Bool.eq_false_iff.mpr (mt (List.rel_of_pairwise_cons h hr') hr)
  have hsplit : rs.takeWhile q ++ rs.dropWhile q = rs := List.takeWhile_append_dropWhile
  refine ⟨_, _, hsplit.symm, hfront, hback, ?_⟩
  calc partitionPoint q rs 0 rs.length
      = partitionPoint q (rs.takeWhile q ++ rs.dropWhile q) 0 rs.length := by rw [hsplit]
    _ = (rs.takeWhile q).length :=
      partitionPoint_append hfront hback (Nat.zero_le _) (List.takeWhile_sublist q).length_le

theorem SpansSorted.ends_apart (h : SpansSorted rs) :
    rs.Pairwise fun r r' ↦ nextPosition r.2 < r'.2 :=
  h.apart.imp_of_mem fun _ hr' hlt ↦ Nat.lt_of_lt_of_le hlt (h.upward _ hr')

/-- Whether a position is covered, by a look at the first range that does not end before it. -/
def search (i : Interval) (p : Nat) : Bool :=
  i.spans[partitionPoint (fun r ↦ decide (r.2 < p)) i.spans 0 i.spans.length]?.any
    fun r ↦ decide (r.1 ≤ p)

/-- Of sorted ranges only the first that does not end before a position can cover it. -/
theorem search_eq_covers (h : i.Sorted) (p : Nat) : i.search p = i.covers p := by
  have hends : i.spans.Pairwise fun r r' ↦ decide (r'.2 < p) = true → decide (r.2 < p) = true := by
    refine (SpansSorted.ends_apart h).imp fun {r r'} hlt hp ↦ ?_
    rw [decide_eq_true_iff] at hp ⊢
    have := le_nextPosition r.2
    omega
  obtain ⟨front, back, hsplit, hfront, hback, hn⟩ := exists_partition hends
  have hout : front.any (spanCovers p) = false := by
    refine List.any_eq_false.mpr fun r hr hcov ↦ ?_
    have hlt := decide_eq_true_iff.mp (hfront r hr)
    have := (spanCovers_iff.mp hcov).2
    omega
  rw [search, covers, hn, hsplit, List.getElem?_append_right (Nat.le_refl _), Nat.sub_self,
    List.any_append, hout, Bool.false_or]
  cases back with
  | nil => rfl
  | cons r back =>
    have hr : p ≤ r.2 := Nat.not_lt.mp (decide_eq_false_iff_not.mp (hback r List.mem_cons_self))
    have hrest : back.any (spanCovers p) = true → decide (r.1 ≤ p) = true := by
      intro hcov
      obtain ⟨r', hr', hcov⟩ := List.any_eq_true.mp hcov
      rw [Sorted, hsplit] at h
      have := h.upward r (List.mem_append_right _ List.mem_cons_self)
      have := List.rel_of_pairwise_cons (List.pairwise_append.mp h.apart).2.1 hr'
      have := le_nextPosition r.2
      have := (spanCovers_iff.mp hcov).1
      rw [decide_eq_true_iff]
      omega
    have hhead : spanCovers p r = decide (r.1 ≤ p) := by
      rw [spanCovers, decide_eq_true hr, Bool.and_true]
    rw [List.any_cons, hhead]
    exact (Bool.or_eq_left_iff_imp.mpr hrest).symm

/-- Widens `[lo, hi]` over all ranges at the front that it overlaps or touches. -/
def absorb (lo hi : Nat) : List Span → List Span
  | [] => [(lo, hi)]
  | (s, e) :: rs =>
    if nextPosition hi < s then (lo, hi) :: (s, e) :: rs else absorb (min lo s) (max hi e) rs

/-- Inserts `[lo, hi]` in place of the window of ranges that it overlaps or touches, the start of
which is searched for. -/
def splice (lo hi : Nat) (rs : List Span) : List Span :=
  let n := partitionPoint (fun r ↦ decide (nextPosition r.2 < lo)) rs 0 rs.length
  rs.take n ++ absorb lo hi (rs.drop n)

private theorem insertSpan_eq_absorb (h : ∀ r ∈ rs, ¬ nextPosition r.2 < lo) :
    insertSpan lo hi rs = absorb lo hi rs := by
  induction rs generalizing lo hi with
  | nil => rfl
  | cons r rs ih =>
    obtain ⟨hr, hrs⟩ := List.forall_mem_cons.mp h
    rw [insertSpan, absorb, if_neg hr]
    split
    next => rfl
    next => exact ih fun r' hr' ↦ by have := hrs r' hr'; omega

private theorem insertSpan_append (h : ∀ r ∈ front, nextPosition r.2 < lo) :
    insertSpan lo hi (front ++ back) = front ++ insertSpan lo hi back := by
  induction front with
  | nil => rfl
  | cons r front ih =>
    obtain ⟨hr, hfront⟩ := List.forall_mem_cons.mp h
    rw [List.cons_append, insertSpan, if_pos hr, ih hfront, List.cons_append]

/-- In sorted ranges the window is where the walk from the front stops and goes on. -/
theorem splice_eq_insertSpan (h : SpansSorted rs) (lo hi : Nat) :
    splice lo hi rs = insertSpan lo hi rs := by
  have hends : rs.Pairwise fun r r' ↦
      decide (nextPosition r'.2 < lo) = true → decide (nextPosition r.2 < lo) = true := by
    refine h.ends_apart.imp fun {r r'} hlt hp ↦ ?_
    rw [decide_eq_true_iff] at hp ⊢
    have := le_nextPosition r'.2
    omega
  obtain ⟨front, back, hsplit, hfront, hback, hn⟩ := exists_partition hends
  rw [splice, hn, hsplit, List.take_left, List.drop_left,
    insertSpan_append fun r hr ↦ decide_eq_true_iff.mp (hfront r hr),
    insertSpan_eq_absorb fun r hr ↦ decide_eq_false_iff_not.mp (hback r hr)]

/-! ## Ranges with gaps -/

/-- Ranges that run upwards, with an uncovered position between each and the next. -/
structure Gapped (rs : List Span) : Prop where
  upward : ∀ r ∈ rs, r.1 ≤ r.2
  gap : rs.Pairwise fun r r' ↦ r.2 + 1 < r'.1

theorem Gapped.tail (h : Gapped (r :: rs)) : Gapped rs :=
  ⟨fun r' hr' ↦ h.upward r' (List.mem_cons_of_mem _ hr'), h.gap.of_cons⟩

/-- If no range ends behind the last position, sorted ranges have gaps. -/
theorem SpansSorted.gapped (h : SpansSorted rs) (hlast : ∀ r ∈ rs, r.2 ≤ lastPosition) :
    Gapped rs := by
  refine ⟨h.upward, h.apart.imp_of_mem fun {r r'} _ hr' hlt ↦ ?_⟩
  have := h.upward r' hr'
  have := hlast r' hr'
  rw [nextPosition] at hlt
  split at hlt <;> omega

/-- The positions in some ranges. -/
def spanPositions (rs : List Span) : Set Nat := {p | ∃ r ∈ rs, r.1 ≤ p ∧ p ≤ r.2}

theorem Gapped.start_le (h : Gapped (r :: rs)) (hp : p ∈ spanPositions (r :: rs)) : r.1 ≤ p := by
  obtain ⟨r', hr', hlo, -⟩ := hp
  rcases List.mem_cons.mp hr' with rfl | hr'
  · exact hlo
  · have := h.upward r List.mem_cons_self
    have := List.rel_of_pairwise_cons h.gap hr'
    omega

/-- The positions of the first range, when they are looked for among all. -/
theorem mem_spanPositions_head (hlo : r.1 ≤ p) (hhi : p ≤ r.2) : p ∈ spanPositions (r :: rs) :=
  ⟨r, List.mem_cons_self, hlo, hhi⟩

theorem Gapped.mem_tail_iff (h : Gapped (r :: rs)) :
    p ∈ spanPositions rs ↔ p ∈ spanPositions (r :: rs) ∧ r.2 < p := by
  constructor
  · rintro ⟨r', hr', hlo, hhi⟩
    have := List.rel_of_pairwise_cons h.gap hr'
    exact ⟨⟨r', List.mem_cons_of_mem _ hr', hlo, hhi⟩, by omega⟩
  · rintro ⟨⟨r', hr', hlo, hhi⟩, hlt⟩
    rcases List.mem_cons.mp hr' with rfl | hr'
    · omega
    · exact ⟨r', hr', hlo, hhi⟩

/-- No range covers the position behind the first one. -/
theorem Gapped.succ_not_mem (h : Gapped (r :: rs)) : r.2 + 1 ∉ spanPositions (r :: rs) := by
  rintro ⟨r', hr', hlo, hhi⟩
  rcases List.mem_cons.mp hr' with rfl | hr'
  · omega
  · have := List.rel_of_pairwise_cons h.gap hr'
    omega

/-- The first range ends where another list with the same positions has a range that begins in
the same place and ends no earlier. -/
private theorem Gapped.end_le {r' : Span} (h : Gapped (r :: rs)) (hstart : r.1 = r'.1)
    (hsub : spanPositions (r' :: rs') ⊆ spanPositions (r :: rs)) : r'.2 ≤ r.2 := by
  by_contra hlt
  have := h.upward r List.mem_cons_self
  exact h.succ_not_mem (hsub (mem_spanPositions_head (by omega) (by omega)))

/-- **Uniqueness.** Ranges with gaps are determined by their positions. -/
theorem Gapped.eq_of_spanPositions_eq (h : Gapped rs) (h' : Gapped rs')
    (heq : spanPositions rs = spanPositions rs') : rs = rs' := by
  have hstart : ∀ {r : Span} {rs : List Span}, Gapped (r :: rs) → r.1 ∈ spanPositions (r :: rs) :=
    fun h ↦ mem_spanPositions_head (Nat.le_refl _) (h.upward _ List.mem_cons_self)
  have hnil : ∀ p, p ∉ spanPositions [] := fun p ⟨_, hr, _⟩ ↦ List.not_mem_nil hr
  induction rs generalizing rs' with
  | nil =>
    cases rs' with
    | nil => rfl
    | cons r' rs' => exact absurd (heq ▸ hstart h') (hnil _)
  | cons r rs ih =>
    cases rs' with
    | nil => exact absurd (heq ▸ hstart h) (hnil _)
    | cons r' rs' =>
      have hfirst : r.1 = r'.1 :=
        Nat.le_antisymm (h.start_le (heq ▸ hstart h')) (h'.start_le (heq ▸ hstart h))
      have hlast : r.2 = r'.2 :=
        Nat.le_antisymm (h'.end_le hfirst.symm heq.le) (h.end_le hfirst heq.ge)
      have hrest : rs = rs' := by
        refine ih h.tail h'.tail (Set.ext fun p ↦ ?_)
        rw [h.mem_tail_iff, h'.mem_tail_iff, heq, hlast]
      rw [Prod.ext hfirst hlast, hrest]

/-- Two neighbours have a gap. -/
theorem Gapped.gap_next {r' : Span} (h : Gapped (front ++ r :: r' :: back)) : r.2 + 1 < r'.1 :=
  List.rel_of_pairwise_cons (List.pairwise_append.mp h.gap).2.1 List.mem_cons_self

/-- No range reaches between two neighbours. -/
theorem Gapped.not_mem_between {r' : Span} (h : Gapped (front ++ r :: r' :: back)) (hlo : r.2 < p)
    (hhi : p < r'.1) : p ∉ spanPositions (front ++ r :: r' :: back) := by
  obtain ⟨-, hpair, hfront⟩ := List.pairwise_append.mp h.gap
  have hr := h.upward r (by simp)
  have hr' := h.upward r' (by simp)
  rintro ⟨s, hs, hslo, hshi⟩
  rcases List.mem_append.mp hs with hs | hs
  · have := hfront s hs r List.mem_cons_self
    omega
  · rcases List.mem_cons.mp hs with rfl | hs
    · omega
    · rcases List.mem_cons.mp hs with rfl | hs
      · omega
      · have := List.rel_of_pairwise_cons hpair.of_cons hs
        omega

/-! ## Histories -/

/-- The positions of an interval. -/
def positions (i : Interval) : Set Nat := {p | i.covers p = true}

theorem spanPositions_spans (i : Interval) : spanPositions i.spans = positions i :=
  Set.ext fun _ ↦ covers_iff.symm

/-- A call that changes an interval. -/
inductive Edit where
  | addRange (a b : UInt32)
  | startAt (p : UInt32)

def Edit.apply : Edit → Interval → Interval
  | .addRange a b, i => i.addRange a.toNat b.toNat
  | .startAt p, i => i.startAt p.toNat

/-- The positions after a call, given those before it. What lies before a start goes only if the
start was covered. -/
def Edit.points (s : Set Nat) : Edit → Set Nat
  | .addRange a b => s ∪ {p | min a.toNat b.toNat ≤ p ∧ p ≤ max a.toNat b.toNat}
  | .startAt p => {q | (q ∈ s ∨ q = p.toNat) ∧ (p.toNat ∈ s → p.toNat ≤ q)}

/-- The interval after some calls, beginning with the empty one. -/
def edited (es : List Edit) : Interval := es.foldl (fun i e ↦ e.apply i) empty

/-- The positions that some calls leave. -/
def points (es : List Edit) : Set Nat := es.foldl Edit.points ∅

theorem Sorted.edit (h : i.Sorted) (e : Edit) : (e.apply i).Sorted := by
  cases e with
  | addRange a b => exact h.addRange _ _
  | startAt p => exact h.startAt _

/-- **One call.** It does to the positions what its name says. -/
theorem positions_apply (h : i.Sorted) (e : Edit) : positions (e.apply i) = e.points (positions i) := by
  ext p
  cases e with
  | addRange a b => exact covers_addRange h _ _
  | startAt q =>
    by_cases hq : i.covers q.toNat = true
    · refine (covers_startAt_of_covers h hq).trans ⟨?_, ?_⟩
      · rintro ⟨hp, hle⟩
        exact ⟨Or.inl hp, fun _ ↦ hle⟩
      · rintro ⟨hp | rfl, hle⟩
        · exact ⟨hp, hle hq⟩
        · exact ⟨hq, Nat.le_refl _⟩
    · refine (covers_startAt_of_not_covers h hq).trans ⟨?_, ?_⟩
      · intro hp
        exact ⟨hp, fun hmem ↦ absurd hmem hq⟩
      · exact And.left

theorem sorted_edited (es : List Edit) : (edited es).Sorted :=
  List.foldlRecOn (motive := Sorted) es _ sorted_empty fun _ h e _ ↦ h.edit e

theorem positions_foldl (h : i.Sorted) (es : List Edit) :
    positions (es.foldl (fun i e ↦ e.apply i) i) = es.foldl Edit.points (positions i) := by
  induction es generalizing i with
  | nil => rfl
  | cons e es ih => rw [List.foldl_cons, List.foldl_cons, ih (h.edit e), positions_apply h]

/-- **All calls.** The interval is the point set of its history. -/
theorem positions_edited (es : List Edit) : positions (edited es) = points es := by
  have hempty : positions empty = ∅ :=
    Set.eq_empty_of_forall_notMem fun _ hp ↦ Bool.false_ne_true hp
  rw [edited, positions_foldl sorted_empty, hempty, points]

theorem toNat_le_lastPosition (a : UInt32) : a.toNat ≤ lastPosition :=
  Nat.le_of_lt_succ a.toNat_lt

/-- All positions that calls leave have 32 bits. -/
theorem le_lastPosition_of_mem_points {es : List Edit} (hp : p ∈ points es) : p ≤ lastPosition := by
  have hstep : ∀ s : Set Nat, (∀ p ∈ s, p ≤ lastPosition) → ∀ e : Edit, ∀ p ∈ e.points s,
      p ≤ lastPosition := by
    intro s hs e p hp
    cases e with
    | addRange a b =>
      rcases hp with hp | ⟨-, hp⟩
      · exact hs p hp
      · exact hp.trans (Nat.max_le.mpr ⟨toNat_le_lastPosition a, toNat_le_lastPosition b⟩)
    | startAt q =>
      obtain ⟨hp | rfl, -⟩ := hp
      · exact hs p hp
      · exact toNat_le_lastPosition q
  exact List.foldlRecOn (motive := fun s ↦ ∀ p ∈ s, p ≤ lastPosition) es _
    (fun _ hp ↦ absurd hp (Set.notMem_empty _)) (fun s hs e _ ↦ hstep s hs e) p hp

/-- The ranges have gaps after any calls. -/
theorem gapped_edited (es : List Edit) : Gapped (edited es).spans := by
  apply (sorted_edited es).gapped
  intro r hr
  have hend : r.2 ∈ positions (edited es) :=
    covers_iff.mpr ⟨r, hr, (sorted_edited es).upward r hr, Nat.le_refl _⟩
  rw [positions_edited] at hend
  exact le_lastPosition_of_mem_points hend

/-- **An interval is the point set of its history.** After any calls with 32-bit positions, each
range runs upwards and uncovered positions part it from the next. One more call adds the range
between its bounds, or starts at a covered position, where it keeps what does not lie before, or at
an uncovered one, which it adds. So the interval covers what its history says; equal positions are
kept as equal ranges, and halving finds what a walk would find. -/
theorem edited_exact (es : List Edit) :
    (∀ r ∈ (edited es).spans, r.1 ≤ r.2) ∧
    (∀ front r r' back, (edited es).spans = front ++ r :: r' :: back →
      r.2 + 1 < r'.1 ∧ ∀ p, r.2 < p → p < r'.1 → (edited es).covers p = false) ∧
    (∀ (a b : UInt32) p, ((edited es).addRange a.toNat b.toNat).covers p = true ↔
      (edited es).covers p = true ∨ min a.toNat b.toNat ≤ p ∧ p ≤ max a.toNat b.toNat) ∧
    (∀ (q : UInt32), (edited es).covers q.toNat = true → ∀ p,
      (((edited es).startAt q.toNat).covers p = true ↔ (edited es).covers p = true ∧ q.toNat ≤ p)) ∧
    (∀ (q : UInt32), (edited es).covers q.toNat = false → ∀ p,
      (((edited es).startAt q.toNat).covers p = true ↔ (edited es).covers p = true ∨ p = q.toNat)) ∧
    positions (edited es) = points es ∧
    (∀ es', points es' = points es → (edited es').spans = (edited es).spans) ∧
    (∀ p, (edited es).search p = (edited es).covers p) ∧
    ∀ lo hi, splice lo hi (edited es).spans = insertSpan lo hi (edited es).spans := by
  have hsorted := sorted_edited es
  have hgapped := gapped_edited es
  refine ⟨hgapped.upward, fun front r r' back hspans ↦ ?_, fun a b _ ↦ covers_addRange hsorted _ _,
    fun q hq _ ↦ covers_startAt_of_covers hsorted hq,
    fun q hq _ ↦ covers_startAt_of_not_covers hsorted (Bool.eq_false_iff.mp hq),
    positions_edited es, fun es' hpoints ↦ ?_, search_eq_covers hsorted,
    splice_eq_insertSpan hsorted⟩
  · rw [hspans] at hgapped
    refine ⟨hgapped.gap_next, fun p hlo hhi ↦ Bool.eq_false_iff.mpr fun hcov ↦ ?_⟩
    rw [covers_iff, hspans] at hcov
    exact hgapped.not_mem_between hlo hhi hcov
  · refine (gapped_edited es').eq_of_spanPositions_eq hgapped ?_
    rw [spanPositions_spans, spanPositions_spans, positions_edited, positions_edited, hpoints]

/-- Two ranges that meet below the last position, a cut, and a position alone in front of it. -/
def topHistory : List Edit :=
  [.addRange 0xffffffff 0xfffffff9, .addRange 7 3, .addRange 0xfffffff0 0xfffffff8, .startAt 5,
    .startAt 1]

/-- At the top of the positions the history leaves one range, which can be cut and is alone. -/
theorem edited_exact_topHistory :
    (edited topHistory).spans = [(1, 1), (5, 7), (0xfffffff0, 0xffffffff)] ∧
    (∀ p, 7 < p → p < 0xfffffff0 → (edited topHistory).covers p = false) ∧
    (edited topHistory).covers 0xfffffff9 = true ∧
    ∀ p, ((edited topHistory).startAt 0xfffffff9).covers p = true ↔
      (edited topHistory).covers p = true ∧ 0xfffffff9 ≤ p := by
  have hspans : (edited topHistory).spans = [(1, 1), (5, 7), (0xfffffff0, 0xffffffff)] := by decide
  have hcovers : (edited topHistory).covers 0xfffffff9 = true := by decide
  obtain ⟨-, hgap, -, hcut, -⟩ := edited_exact topHistory
  exact ⟨hspans, (hgap [(1, 1)] _ _ [] hspans).2, hcovers, hcut 0xfffffff9 hcovers⟩

end Interval

end TreeCover
