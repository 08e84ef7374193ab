import Mathlib.Data.Set.Card
import TreeCover.Compile
import TreeCover.Proofs.Allocation.Valid

/-!
# What allocation counts

A session counts the decisions of a scan. A register that is moved to a slot stays there, so the spills
that are counted are the registers that live in the frame. A register that has a physical register
may lose it to another one, and both of them were counted.

`Counted` is what a scan keeps: no register gets a physical register twice or a slot twice, and a slot
is the last location. Main statement: `allocate_counts`.
-/

namespace TreeCover

open Machine LinearScan

variable {a : Active} {active : List Active} {d : Decision} {done ds : List Decision} {h : Hull}
  {v : VReg} {vs : List VReg} {s : LinearScan.State}

namespace Allocation

/-- The virtual registers that live in physical registers. -/
def inRegisters (a : Allocation) : Set VReg := {v | ∃ r, a.location? v = some (.register r)}

/-- The virtual registers that live in the frame. -/
def inFrame (a : Allocation) : Set VReg := {v | ∃ m, a.location? v = some (.stack m)}

/-- The virtual registers that live in the frame since they lost a physical register to another one. -/
def evicted (a : Allocation) : Set VReg :=
  {v | v ∈ a.inFrame ∧ ∃ d ∈ a.decisions, d.subject = v ∧ d.location.isStack = false}

end Allocation

/-! ## Decisions of one kind -/

/-- What was moved to a slot or, if not `stack`, got a physical register. -/
def subjects (stack : Bool) (ds : List Decision) : List VReg :=
  (ds.filter (·.location.isStack == stack)).map (·.subject)

theorem mem_subjects {stack : Bool} :
    v ∈ subjects stack ds ↔ ∃ d ∈ ds, d.subject = v ∧ d.location.isStack = stack := by
  simp only [subjects, List.mem_map, List.mem_filter, beq_iff_eq]
  exact ⟨fun ⟨d, ⟨hd, hstack⟩, hv⟩ ↦ ⟨d, hd, hv, hstack⟩,
    fun ⟨d, hd, hv, hstack⟩ ↦ ⟨d, ⟨hd, hstack⟩, hv⟩⟩

theorem subjects_concat_of_eq {stack : Bool} (hd : d.location.isStack = stack) :
    subjects stack (ds ++ [d]) = subjects stack ds ++ [d.subject] := by
  simp [subjects, hd]

theorem subjects_concat_of_ne {stack : Bool} (hd : d.location.isStack ≠ stack) :
    subjects stack (ds ++ [d]) = subjects stack ds := by
  simp [subjects, hd]

/-- The location of a register is that of a decision about it. -/
theorem mem_subjects_of_location? {l : Location}
    (hl : Allocation.location? { decisions := ds } v = some l) : v ∈ subjects l.isStack ds := by
  obtain ⟨d, hd, rfl⟩ := Option.map_eq_some_iff.mp hl
  have hv : (d.subject == v) = true := List.find?_some (p := fun d : Decision ↦ d.subject == v) hd
  exact mem_subjects.mpr
    ⟨d, List.mem_reverse.mp (List.mem_of_find?_eq_some hd), beq_iff_eq.mp hv, rfl⟩

theorem location?_isSome_of_mem {stack : Bool} (hv : v ∈ subjects stack ds) :
    (Allocation.location? { decisions := ds } v).isSome = true := by
  obtain ⟨d, hd, rfl, -⟩ := mem_subjects.mp hv
  rw [Allocation.location?, Option.isSome_map, List.find?_isSome]
  exact ⟨d, List.mem_reverse.mpr hd, beq_self_eq_true _⟩

theorem ncard_setOf_mem (hvs : vs.Nodup) : {v | v ∈ vs}.ncard = vs.length := by
  rw [← List.toFinset_card_of_nodup hvs, ← Set.ncard_coe_finset, List.coe_toFinset]

/-! ## The invariant -/

/-- A scan that has given places to the registers `vs`. -/
structure Counted (vs : List VReg) (ds : List Decision) (active : List Active) : Prop where
  /-- Nobody gets a physical register twice, or a slot twice. -/
  once : ∀ stack, (subjects stack ds).Nodup
  /-- Who has a slot keeps it. -/
  keeps : ∀ v ∈ subjects true ds, ∃ m, Allocation.location? { decisions := ds } v = some (.stack m)
  holds : ∀ a ∈ active,
    Allocation.location? { decisions := ds } a.hull.vreg = some (.register a.reg)
  active_nodup : (active.map (·.hull.vreg)).Nodup
  located : ∀ v, (Allocation.location? { decisions := ds } v).isSome = true ↔ v ∈ vs

namespace Counted

theorem not_mem_subjects {stack : Bool} (hc : Counted vs ds active) (hv : v ∉ vs) :
    v ∉ subjects stack ds :=
  fun hmem ↦ hv ((hc.located v).mp (location?_isSome_of_mem hmem))

theorem sublist (hc : Counted vs ds active) {active' : List Active}
    (hsub : active'.Sublist active) : Counted vs ds active' where
  once := hc.once
  keeps := hc.keeps
  holds a ha := hc.holds a (hsub.subset ha)
  active_nodup := hc.active_nodup.sublist (hsub.map _)
  located := hc.located

/-- Who has no place yet gets a physical register. -/
theorem hold (hc : Counted vs ds active) (hnew : h.vreg ∉ vs) {r : PhysReg}
    (hsubject : d.subject = h.vreg) (hd : d.location = .register r) :
    Counted (vs ++ [h.vreg]) (ds ++ [d]) (active ++ [⟨h, r⟩]) := by
  have hstack : d.location.isStack = false := by
    rw [hd]
    rfl
  have hother : ∀ {w}, w ∈ vs → Allocation.location? { decisions := ds ++ [d] } w =
      Allocation.location? { decisions := ds } w := by
    intro w hw
    rw [location?_concat, if_neg]
    rintro rfl
    exact hnew (hsubject ▸ hw)
  have hself : Allocation.location? { decisions := ds ++ [d] } h.vreg = some (.register r) := by
    rw [location?_concat, if_pos hsubject, hd]
  have hactive : ∀ a ∈ active, a.hull.vreg ∈ vs := by
    intro a ha
    rw [← hc.located, hc.holds a ha]
    rfl
  refine ⟨fun stack ↦ ?_, fun v hv ↦ ?_, fun a ha ↦ ?_, ?_, fun v ↦ ?_⟩
  · cases stack with
    | true =>
      rw [subjects_concat_of_ne (by rw [hstack]; decide)]
      exact hc.once true
    | false =>
      rw [subjects_concat_of_eq hstack, hsubject, ← List.concat_eq_append]
      exact (hc.once false).concat (hc.not_mem_subjects hnew)
  · rw [subjects_concat_of_ne (by rw [hstack]; decide)] at hv
    rw [hother ((hc.located v).mp (location?_isSome_of_mem hv))]
    exact hc.keeps v hv
  · rcases List.mem_append.mp ha with ha | ha
    · rw [hother (hactive a ha)]
      exact hc.holds a ha
    · obtain rfl := List.mem_singleton.mp ha
      exact hself
  · rw [List.map_append, List.map_singleton, ← List.concat_eq_append]
    refine hc.active_nodup.concat fun hmem ↦ ?_
    obtain ⟨a, ha, heq⟩ := List.mem_map.mp hmem
    exact hnew (heq ▸ hactive a ha)
  · rw [location?_concat, List.mem_append, List.mem_singleton, ← hc.located, hsubject]
    by_cases heq : h.vreg = v
    · rw [if_pos heq]
      exact ⟨fun _ ↦ Or.inr heq.symm, fun _ ↦ rfl⟩
    · rw [if_neg heq]
      exact ⟨Or.inl, fun hv ↦ hv.resolve_right (Ne.symm heq)⟩

/-- Who has no slot yet, and holds no register any more, gets a slot. -/
theorem spill (hc : Counted vs ds active) {m : Mem} {vs' : List VReg}
    (hnew : d.subject ∉ subjects true ds) (hd : d.location = .stack m)
    (hidle : ∀ a ∈ active, a.hull.vreg ≠ d.subject)
    (hvs : ∀ w, w ∈ vs' ↔ w ∈ vs ∨ w = d.subject) : Counted vs' (ds ++ [d]) active := by
  have hstack : d.location.isStack = true := by
    rw [hd]
    rfl
  refine ⟨fun stack ↦ ?_, fun v hv ↦ ?_, fun a ha ↦ ?_, hc.active_nodup, fun v ↦ ?_⟩
  · cases stack with
    | false =>
      rw [subjects_concat_of_ne (by rw [hstack]; decide)]
      exact hc.once false
    | true =>
      rw [subjects_concat_of_eq hstack, ← List.concat_eq_append]
      exact (hc.once true).concat hnew
  · rw [location?_concat]
    split
    next => exact ⟨m, by rw [hd]⟩
    next hne =>
      rw [subjects_concat_of_eq hstack, List.mem_append, List.mem_singleton] at hv
      exact hc.keeps v (hv.resolve_right (Ne.symm hne))
  · rw [location?_concat, if_neg (hidle a ha).symm]
    exact hc.holds a ha
  · rw [location?_concat, hvs, ← hc.located]
    by_cases heq : d.subject = v
    · rw [if_pos heq]
      exact ⟨fun _ ↦ Or.inr heq.symm, fun _ ↦ rfl⟩
    · rw [if_neg heq]
      exact ⟨Or.inl, fun hv ↦ hv.resolve_right (Ne.symm heq)⟩

/-- A hull that goes to its slot. -/
theorem spill_new (hc : Counted vs s.decisions s.active) (hnew : v ∉ vs) :
    Counted (vs ++ [v]) (LinearScan.spill v s).decisions (LinearScan.spill v s).active := by
  refine hc.spill (hc.not_mem_subjects hnew) rfl (fun a ha heq ↦ hnew ?_) fun w ↦ ?_
  · have hmem := (hc.located a.hull.vreg).mp (Option.isSome_iff_exists.mpr ⟨_, hc.holds a ha⟩)
    rwa [heq] at hmem
  · rw [List.mem_append, List.mem_singleton]
    rfl

/-- An active hull that goes to its slot. -/
theorem spill_active (hc : Counted vs s.decisions s.active) (ha : a ∈ s.active) :
    Counted vs (LinearScan.spill a.hull.vreg s).decisions (s.active.erase a) := by
  have hnodup : s.active.Nodup := hc.active_nodup.of_map _
  refine (hc.sublist List.erase_sublist).spill ?_ rfl (fun b hb heq ↦ ?_) fun w ↦ ?_
  · intro hmem
    obtain ⟨m, hm⟩ := hc.keeps _ hmem
    exact absurd ((hc.holds a ha).symm.trans hm) (by simp)
  · obtain ⟨hne, hb⟩ := hnodup.mem_erase_iff.mp hb
    exact hne (List.inj_on_of_nodup_map hc.active_nodup hb ha heq)
  · refine ⟨Or.inl, fun hw ↦ hw.elim id ?_⟩
    rintro rfl
    exact (hc.located _).mp (Option.isSome_iff_exists.mpr ⟨_, hc.holds a ha⟩)

/-- Finding a place for a hull when no register is free. -/
theorem evict (hc : Counted vs s.decisions s.active) (hnew : h.vreg ∉ vs) :
    Counted (vs ++ [h.vreg]) (LinearScan.evict h s).decisions (LinearScan.evict h s).active := by
  rw [LinearScan.evict]
  split
  next victim hfurthest =>
    split
    next => exact (hc.spill_active (mem_of_furthest? hfurthest)).hold hnew rfl rfl
    next => exact hc.spill_new hnew
  next => exact hc.spill_new hnew

theorem place (hc : Counted vs s.decisions s.active) (hnew : h.vreg ∉ vs) :
    Counted (vs ++ [h.vreg]) (LinearScan.place s h).decisions (LinearScan.place s h).active := by
  have hexpired : Counted vs (expire h.start s).decisions (expire h.start s).active := by
    rw [expire_eq]
    exact hc.sublist List.filter_sublist
  rw [LinearScan.place]
  split
  next r pool hpool => exact hexpired.hold hnew rfl rfl
  next => exact hexpired.evict hnew

/-- What a scan keeps while it places hulls of different registers. -/
theorem foldl {hs : List Hull} (hc : Counted vs s.decisions s.active)
    (hnodup : (vs ++ hs.map (·.vreg)).Nodup) :
    Counted (vs ++ hs.map (·.vreg)) (hs.foldl LinearScan.place s).decisions
      (hs.foldl LinearScan.place s).active := by
  induction hs generalizing vs s with
  | nil => rwa [List.map_nil, List.append_nil]
  | cons h hs ih =>
    rw [List.map_cons, List.append_cons] at hnodup ⊢
    have hnew : h.vreg ∉ vs := by
      have hvs := (List.nodup_append.mp hnodup).1
      exact fun hmem ↦ (List.nodup_append.mp hvs).2.2 _ hmem _ List.mem_cons_self rfl
    exact ih (hc.place hnew) hnodup

end Counted

theorem counted_run (budget : Nat) (intervals : List Interval) (frame : Frame) : ∃ active,
    Counted ((hulls intervals).map (·.vreg)) (run budget intervals frame).1.decisions active := by
  have hstart : Counted [] [] [] :=
    ⟨fun _ ↦ .nil, fun _ hv ↦ absurd hv List.not_mem_nil, fun _ ha ↦ absurd ha List.not_mem_nil,
      .nil, fun v ↦ ⟨fun hv ↦ absurd hv Bool.false_ne_true, fun hv ↦ absurd hv List.not_mem_nil⟩⟩
  exact ⟨_, hstart.foldl (s := { pool := .ofBudget budget, frame }) (nodup_hulls intervals)⟩

/-! ## Locations -/

section

variable {b : Allocation}

/-- Who got a physical register has it still or was evicted. -/
theorem inRegisters_union_evicted :
    b.inRegisters ∪ b.evicted = {v | v ∈ subjects false b.decisions} := by
  ext v
  constructor
  · rintro (⟨r, hr⟩ | ⟨-, hd⟩)
    · exact mem_subjects_of_location? hr
    · exact mem_subjects.mpr hd
  · intro hv
    obtain ⟨l, hl⟩ := Option.isSome_iff_exists.mp (location?_isSome_of_mem hv)
    cases l with
    | register r => exact Or.inl ⟨r, hl⟩
    | stack m => exact Or.inr ⟨⟨m, hl⟩, mem_subjects.mp hv⟩

theorem not_mem_inFrame_of_mem_inRegisters (hv : v ∈ b.inRegisters) : v ∉ b.inFrame := by
  obtain ⟨r, hr⟩ := hv
  rintro ⟨m, hm⟩
  exact absurd (hr.symm.trans hm) (by simp)

variable (hc : Counted vs b.decisions active)

include hc

theorem inFrame_eq : b.inFrame = {v | v ∈ subjects true b.decisions} := by
  ext v
  exact ⟨fun ⟨_, hm⟩ ↦ mem_subjects_of_location? hm, hc.keeps v⟩

theorem inRegisters_union_inFrame : b.inRegisters ∪ b.inFrame = {v | v ∈ vs} := by
  ext v
  refine Iff.trans ?_ (hc.located v)
  rw [Option.isSome_iff_exists]
  constructor
  · rintro (⟨r, hr⟩ | ⟨m, hm⟩)
    · exact ⟨_, hr⟩
    · exact ⟨_, hm⟩
  · rintro ⟨l, hl⟩
    cases l with
    | register r => exact Or.inl ⟨r, hl⟩
    | stack m => exact Or.inr ⟨m, hl⟩

theorem finite_inFrame : b.inFrame.Finite := by
  rw [inFrame_eq hc]
  exact List.finite_toSet _

theorem ncard_inFrame : b.inFrame.ncard = (subjects true b.decisions).length := by
  rw [inFrame_eq hc, ncard_setOf_mem (hc.once true)]

theorem ncard_inRegisters_add_evicted :
    b.inRegisters.ncard + b.evicted.ncard = (subjects false b.decisions).length := by
  have hunion : (b.inRegisters ∪ b.evicted).Finite := by
    rw [inRegisters_union_evicted]
    exact List.finite_toSet _
  rw [← ncard_setOf_mem (hc.once false), ← inRegisters_union_evicted, Set.ncard_union_eq
    (Set.disjoint_left.mpr fun _ hv hevicted ↦ not_mem_inFrame_of_mem_inRegisters hv hevicted.1)
    (hunion.subset Set.subset_union_left) (hunion.subset Set.subset_union_right)]

/-- Everybody with a place has one of the two kinds. -/
theorem ncard_inRegisters_add_inFrame (hvs : vs.Nodup) :
    b.inRegisters.ncard + b.inFrame.ncard = vs.length := by
  have hunion : (b.inRegisters ∪ b.inFrame).Finite := by
    rw [inRegisters_union_inFrame hc]
    exact List.finite_toSet _
  rw [← ncard_setOf_mem hvs, ← inRegisters_union_inFrame hc, Set.ncard_union_eq
    (Set.disjoint_left.mpr fun _ ↦ not_mem_inFrame_of_mem_inRegisters)
    (hunion.subset Set.subset_union_left) (finite_inFrame hc)]

end

/-- There is a hull for each interval with positions. -/
theorem length_hulls (intervals : List Interval) :
    (hulls intervals).length = intervals.countP (!·.isEmpty) := by
  have hkind : ∀ x : Interval × Nat, (hullOf? x).isSome = !x.1.isEmpty := by
    intro x
    rw [hullOf?, Interval.isEmpty, Interval.start?, Interval.end?]
    cases hspans : x.1.spans with
    | nil => rfl
    | cons r rs => simp [List.getLast?_cons]
  rw [hulls_eq, List.length_mergeSort, List.length_filterMap_eq_countP]
  simp only [hkind]
  rw [← Function.comp_def (fun i : Interval ↦ !i.isEmpty) Prod.fst, ← List.countP_map,
    List.zipIdx_map_fst]

/-! ## The counters -/

theorem Session.stats_reportAll (s : Session) (es : List Event) :
    (s.reportAll es).stats = s.stats :=
  List.foldlRecOn (motive := fun t : Session ↦ t.stats = s.stats) es Session.report rfl
    fun _ h _ _ ↦ h

theorem stats_countDecisions (ds : List Decision) (s : Session) :
    (ds.foldl Work.countDecision s).stats.registers =
      s.stats.registers + (subjects false ds).length ∧
    (ds.foldl Work.countDecision s).stats.spills =
      s.stats.spills + (subjects true ds).length := by
  induction ds using List.reverseRecOn with
  | nil => exact ⟨rfl, rfl⟩
  | append_singleton ds d ih =>
    rw [List.foldl_concat]
    cases hstack : d.location.isStack with
    | false =>
      rw [subjects_concat_of_eq hstack, subjects_concat_of_ne (by rw [hstack]; decide)]
      cases d with
      | spill => exact absurd hstack nofun
      | _ =>
        refine ⟨?_, ih.2⟩
        rw [List.length_append, ← Nat.add_assoc, ← ih.1]
        rfl
    | true =>
      rw [subjects_concat_of_eq hstack, subjects_concat_of_ne (by rw [hstack]; decide)]
      cases d with
      | spill =>
        refine ⟨ih.1, ?_⟩
        rw [List.length_append, ← Nat.add_assoc, ← ih.2]
        rfl
      | _ => exact absurd hstack nofun

/-- Allocation succeeds, and counts the decisions of the scan. -/
theorem allocate_eq (intervals : IntervalTable) (w : Workspace) : ∃ w', Work.allocate intervals w =
      .ok (run w.session.config.registerBudget intervals w.code.frame).1 w' ∧
    w'.session.stats.registers = w.session.stats.registers + (subjects false
      (run w.session.config.registerBudget intervals w.code.frame).1.decisions).length ∧
    w'.session.stats.spills = w.session.stats.spills + (subjects true
      (run w.session.config.registerBudget intervals w.code.frame).1.decisions).length := by
  obtain ⟨w', es, hallocate, hsession⟩ : ∃ w' es, Work.allocate intervals w =
        .ok (run w.session.config.registerBudget intervals w.code.frame).1 w' ∧
      w'.session = (run w.session.config.registerBudget intervals w.code.frame).1.decisions.foldl
        Work.countDecision (w.session.reportAll es) := ⟨_, _, rfl, rfl⟩
  obtain ⟨hregisters, hspills⟩ := stats_countDecisions
    (run w.session.config.registerBudget intervals w.code.frame).1.decisions (w.session.reportAll es)
  rw [Session.stats_reportAll] at hregisters hspills
  exact ⟨w', hallocate, hsession ▸ hregisters, hsession ▸ hspills⟩

/-- **What allocation counts.** Whatever the intervals, the budget and the session: the registers that
are counted are the virtual registers in physical registers and those evicted from one, the spills are
the virtual registers in the frame, and there are as many in either place as intervals with positions. -/
theorem allocate_counts (intervals : IntervalTable) (w : Workspace) :
    ∃ a w', Work.allocate intervals w = .ok a w' ∧
      w'.session.stats.registers =
        w.session.stats.registers + (a.inRegisters.ncard + a.evicted.ncard) ∧
      w'.session.stats.spills = w.session.stats.spills + a.inFrame.ncard ∧
      a.inRegisters.ncard + a.inFrame.ncard = intervals.countP (!·.isEmpty) := by
  obtain ⟨active, hc⟩ := counted_run w.session.config.registerBudget intervals w.code.frame
  obtain ⟨w', hallocate, hregisters, hspills⟩ := allocate_eq intervals w
  refine ⟨_, w', hallocate, ?_, ?_, ?_⟩
  · rw [ncard_inRegisters_add_evicted hc, hregisters]
  · rw [ncard_inFrame hc, hspills]
  · rw [ncard_inRegisters_add_inFrame hc (nodup_hulls intervals), List.length_map, length_hulls]

/-! ## An eviction -/

/-- Two intervals that meet; the first one ends last. -/
def meeting : IntervalTable := [{ spans := [(0, 20)] }, { spans := [(1, 5)] }]

/-- A workspace with one register to hand out. -/
def oneRegister : Workspace :=
  .start ⟨"f", .void, [], []⟩ { config := { registerBudget := 1 } }

theorem hulls_meeting : hulls meeting = [⟨0, 0, 20⟩, ⟨1, 1, 5⟩] :=
  List.mergeSort_of_pairwise (by decide)

theorem run_meeting : (run 1 meeting {}).1.decisions =
    [.assign 0 .rbx, .spill 0 (.frame (-8)) true, .inherit 1 .rbx] := by
  rw [run, hulls_meeting]
  rfl

/-- An evicted register is counted beside the one that evicted it: two are counted, and there is one
virtual register in a physical one. -/
theorem registers_of_eviction : oneRegister.session.stats.registers = 0 ∧
    ∃ a w', Work.allocate meeting oneRegister = .ok a w' ∧ w'.session.stats.registers = 2 ∧
      a.inRegisters.ncard = 1 := by
  obtain ⟨w', hallocate, hregisters, -⟩ := allocate_eq meeting oneRegister
  have hdecisions : (run oneRegister.session.config.registerBudget meeting
      oneRegister.code.frame).1.decisions =
        [.assign 0 .rbx, .spill 0 (.frame (-8)) true, .inherit 1 .rbx] := run_meeting
  obtain ⟨active, hc⟩ := counted_run oneRegister.session.config.registerBudget meeting
    oneRegister.code.frame
  have htotal := ncard_inRegisters_add_inFrame hc (nodup_hulls meeting)
  rw [ncard_inFrame hc, hdecisions, hulls_meeting] at htotal
  rw [hdecisions] at hregisters
  exact ⟨rfl, _, w', hallocate, hregisters, Nat.add_right_cancel htotal⟩

end TreeCover
