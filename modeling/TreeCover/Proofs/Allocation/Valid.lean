import TreeCover.Proofs.Allocation.Scan

/-!
# Linear scan gives a valid allocation

What a scan leaves behind is an allocation in which registers that live at the same time have
different places: overlapping hulls have different registers, and every slot is a place of its own,
apart from all others and from what the frame held before.
-/

namespace TreeCover

open Machine LinearScan

variable {budget : Nat} {intervals : List Interval} {reqs : List (LocalKey × Nat)}

/-- An allocation for intervals that spills into a frame which answered requests before. -/
structure Allocation.Valid (budget : Nat) (intervals : List Interval)
    (reqs : List (LocalKey × Nat)) (a : Allocation) (frame : Frame) : Prop where
  /-- The registers with positions have a location, and no others. -/
  located : ∀ v, (a.location? v).isSome ↔ ∃ i, intervals[v]? = some i ∧ i.isEmpty = false
  /-- Registers whose hulls meet are not in one register. -/
  apart : ∀ v w i j, v ≠ w → intervals[v]? = some i → intervals[w]? = some j →
    i.hullsMeet j = true → ∀ r, a.location? v = some (.register r) →
      a.location? w ≠ some (.register r)
  /-- What was handed out at any time was within the budget. -/
  handed : ∀ d ∈ a.decisions, ∀ r, d.location = .register r →
    r ∈ PhysReg.allocatable.take (min budget PhysReg.allocatable.length)
  /-- A slot is a stretch of eight bytes of the frame. -/
  inside : ∀ v m, a.location? v = some (.stack m) →
    ∃ d : Nat, m = .frame (-d) ∧ slotBytes ≤ d ∧ d ≤ frame.localBytes
  /-- Different registers have different slots. -/
  clear : ∀ v w m m', v ≠ w → a.location? v = some (.stack m) → a.location? w = some (.stack m') →
    m.ClearOf slotBytes m' slotBytes
  /-- Slots lie apart from what the frame held before. -/
  clear_earlier : ∀ v m key m', a.location? v = some (.stack m) →
    (Frame.answer reqs).slot? key = some m' → m.ClearOf slotBytes m' (Frame.extent reqs key)
  /-- The registers to save are those that occur in locations. -/
  used : ∀ r, a.used.contains r = true ↔ ∃ v, a.location? v = some (.register r)

/-! ## Slots -/

/-- Slots of registers are as large as they should be, if none was made before. -/
theorem extent_spill {vs : List VReg} {v : VReg} (hnone : ∀ v n, (.spill v, n) ∉ reqs)
    (hv : LocalKey.spill v ∈ (reqs ++ spillRequests vs).map (·.1)) :
    Frame.extent (reqs ++ spillRequests vs) (.spill v) = slotBytes := by
  obtain ⟨n, hn⟩ := Option.isSome_iff_exists.mp (Frame.lookup_isSome_iff.mpr hv)
  obtain ⟨l, l', heq, -⟩ := List.lookup_eq_some_iff.mp hn
  have hmem : (LocalKey.spill v, n) ∈ reqs ++ spillRequests vs :=
    heq ▸ List.mem_append_right l List.mem_cons_self
  obtain ⟨w, -, hw⟩ := List.mem_map.mp ((List.mem_append.mp hmem).resolve_left (hnone v n))
  rw [Frame.extent, hn, ← (Prod.mk.inj hw).2]
  rfl

theorem extent_append (more : List (LocalKey × Nat)) {key : LocalKey}
    (hkey : key ∈ reqs.map (·.1)) : Frame.extent (reqs ++ more) key = Frame.extent reqs key := by
  obtain ⟨n, hn⟩ := Option.isSome_iff_exists.mp (Frame.lookup_isSome_iff.mpr hkey)
  rw [Frame.extent, List.lookup_append, hn, Option.some_or, Frame.extent, hn]

theorem slot?_answer_append (more : List (LocalKey × Nat)) {key : LocalKey} {m : Mem}
    (h : (Frame.answer reqs).slot? key = some m) :
    (Frame.answer (reqs ++ more)).slot? key = some m := by
  induction more using List.reverseRecOn with
  | nil => rwa [List.append_nil]
  | append_singleton more r ih =>
    rw [← List.append_assoc, Frame.answer_concat]
    exact Frame.slot?_request_of_slot? ih

/-! ## The main result -/

theorem Interval.isEmpty_eq_false_iff {i : Interval} :
    i.isEmpty = false ↔ ∃ s e, i.start? = some s ∧ i.end? = some e := by
  rw [Interval.isEmpty, Interval.start?, Interval.end?]
  cases hspans : i.spans with
  | nil => simp
  | cons r rs => simp [List.getLast?_cons]

/-- Hulls of intervals that meet overlap. -/
theorem LinearScan.hulls_overlap {h h' : Hull} {i j : Interval} (hi : i.start? = some h.start)
    (hi' : i.end? = some h.stop) (hj : j.start? = some h'.start) (hj' : j.end? = some h'.stop)
    (hmeet : i.hullsMeet j = true) : h.start ≤ h'.stop ∧ h'.start ≤ h.stop := by
  rw [Interval.hullsMeet, hi, hi', hj, hj', Bool.and_eq_true, decide_eq_true_iff,
    decide_eq_true_iff] at hmeet
  exact hmeet

/-- In a frame that has no slot for a register yet, a scan gives a valid allocation. -/
theorem LinearScan.valid_run (budget : Nat) (intervals : List Interval)
    (reqs : List (LocalKey × Nat)) (hnone : ∀ v n, (.spill v, n) ∉ reqs) :
    (run budget intervals (.answer reqs)).1.Valid budget intervals reqs
      (run budget intervals (.answer reqs)).2 := by
  obtain ⟨now, -, hscanned⟩ := exists_scanned budget reqs (sorted_hulls intervals)
    (nodup_hulls intervals)
  obtain ⟨vs, hframe⟩ := hscanned.slots
  have hlaid := Frame.laid_answer (reqs ++ spillRequests vs)
  rw [← hframe] at hlaid
  have hstack : ∀ {v m}, (run budget intervals (.answer reqs)).1.location? v = some (.stack m) →
      (run budget intervals (.answer reqs)).2.slot? (.spill v) = some m ∧
        Frame.extent (reqs ++ spillRequests vs) (.spill v) = slotBytes := by
    intro v m hm
    have hslot := hscanned.stack v m hm
    exact ⟨hslot, extent_spill hnone ((hlaid.made _).mp (by rw [hslot]; rfl))⟩
  refine ⟨fun v ↦ ?_, fun v w i j hne hi hj hmeet r hv hw ↦ ?_, fun d hd r hr ↦ ?_, fun v m hm ↦ ?_,
    fun v w m m' hne hm hm' ↦ ?_, fun v m key m' hm hm' ↦ ?_, hscanned.used⟩
  · -- locations
    refine (hscanned.located v).trans ?_
    rw [List.mem_map]
    constructor
    · rintro ⟨h, hh, rfl⟩
      obtain ⟨i, hi, hs, he⟩ := mem_hulls_iff.mp hh
      exact ⟨i, hi, Interval.isEmpty_eq_false_iff.mpr ⟨_, _, hs, he⟩⟩
    · rintro ⟨i, hi, hempty⟩
      obtain ⟨s, e, hs, he⟩ := Interval.isEmpty_eq_false_iff.mp hempty
      exact ⟨⟨v, s, e⟩, mem_hulls_iff.mpr ⟨i, hi, hs, he⟩, rfl⟩
  · -- registers
    have hhull : ∀ {v r}, (run budget intervals (.answer reqs)).1.location? v =
        some (.register r) → ∃ h ∈ hulls intervals, h.vreg = v := by
      intro v r hv
      exact List.mem_map.mp ((hscanned.located v).mp (Option.isSome_iff_exists.mpr ⟨_, hv⟩))
    obtain ⟨h, hh, rfl⟩ := hhull hv
    obtain ⟨h', hh', rfl⟩ := hhull hw
    obtain ⟨i', hi', hs, he⟩ := mem_hulls_iff.mp hh
    obtain ⟨j', hj', hs', he'⟩ := mem_hulls_iff.mp hh'
    obtain rfl := Option.some.inj (hi.symm.trans hi')
    obtain rfl := Option.some.inj (hj.symm.trans hj')
    have hoverlap := hulls_overlap hs he hs' he' hmeet
    have hapart := hscanned.apart h hh h' hh' (fun heq ↦ hne (heq ▸ rfl)) r hv hw
    omega
  · rw [← List.take_eq_take_min]
    exact hscanned.order ▸ hscanned.decided d hd r hr
  · obtain ⟨hslot, hextent⟩ := hstack hm
    exact hextent ▸ hlaid.inside _ m hslot
  · obtain ⟨hslot, hextent⟩ := hstack hm
    obtain ⟨hslot', hextent'⟩ := hstack hm'
    have hclear := hlaid.clear _ _ m m' (fun heq ↦ hne (LocalKey.spill.inj heq)) hslot hslot'
    rwa [hextent, hextent'] at hclear
  · obtain ⟨hslot, hextent⟩ := hstack hm
    have hkey : key ∈ reqs.map (·.1) := ((Frame.laid_answer reqs).made key).mp (by rw [hm']; rfl)
    have hslot' := slot?_answer_append (spillRequests vs) hm'
    rw [← hframe] at hslot'
    have hne : LocalKey.spill v ≠ key := by
      rintro rfl
      obtain ⟨⟨k, n⟩, hr, rfl⟩ := List.mem_map.mp hkey
      exact hnone v n hr
    have hclear := hlaid.clear _ _ m m' hne hslot hslot'
    rwa [hextent, extent_append _ hkey] at hclear

/-- **Linear scan is valid.** In a frame that has no slot for a register yet, a scan gives a valid
allocation, and every register that it gives back to the pool on its way was not free then. -/
theorem LinearScan.run_valid (budget : Nat) (intervals : List Interval)
    (reqs : List (LocalKey × Nat)) (hnone : ∀ v n, (.spill v, n) ∉ reqs) :
    (run budget intervals (.answer reqs)).1.Valid budget intervals reqs
        (run budget intervals (.answer reqs)).2 ∧
      ∀ before h after, hulls intervals = before ++ h :: after →
        let s := before.foldl place { pool := .ofBudget budget, frame := .answer reqs }
        s.pool.ReleasesHeld (s.returned h.start) := by
  refine ⟨valid_run budget intervals reqs hnone, ?_⟩
  intro before h after heq
  have hsorted : Upward before :=
    (List.pairwise_append.mp (heq ▸ sorted_hulls intervals)).1
  have hnodup : (before.map (·.vreg)).Nodup := by
    have hall := nodup_hulls intervals
    rw [heq, List.map_append] at hall
    exact hall.of_append_left
  obtain ⟨_, -, hbefore⟩ := exists_scanned budget reqs hsorted hnodup
  exact hbefore.releasesHeld h.start

/-- Two intervals at once and one register: the longer one is moved to a slot below the alloca. -/
theorem LinearScan.run_valid_evicting :
    (∀ v n, (LocalKey.spill v, n) ∉ [(LocalKey.value 0, 4)]) ∧
      (run 1 [{ spans := [(0, 9)] }, { spans := [(2, 5)] }]
        (.answer [(.value 0, 4)])).1.Valid 1 [{ spans := [(0, 9)] }, { spans := [(2, 5)] }]
          [(.value 0, 4)]
          (run 1 [{ spans := [(0, 9)] }, { spans := [(2, 5)] }] (.answer [(.value 0, 4)])).2 :=
  have hnone : ∀ v n, (LocalKey.spill v, n) ∉ [(LocalKey.value 0, 4)] := by simp
  ⟨hnone, (LinearScan.run_valid 1 _ _ hnone).1⟩

end TreeCover
