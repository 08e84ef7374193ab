import Mathlib.Data.List.Induction
import Mathlib.Data.List.Nodup
import TreeCover.Allocation.LinearScan
import TreeCover.Proofs.Machine.Frame

/-!
# The invariant of linear scan

Between two hulls a scan has an active list, a pool, a frame, and the decisions so far. `Scanned`
ties them together. A register of the budget is free or held by one active hull; whoever else has it
as a location has ended, so that hulls in one register never meet. The pool remembers exactly the
registers that are somebody's location, for an evicted hull leaves its register to the one that
evicts it.

Hulls come by increasing start, so `now`, the start of the latest one, bounds all that has ended.
-/

namespace TreeCover

open Machine

variable {ds : List Decision} {d : Decision} {v w : VReg} {r r' : PhysReg} {now budget : Nat}
  {reqs : List (LocalKey × Nat)}

/-! ## Decisions -/

/-- The last decision about a register stands. -/
theorem location?_concat : Allocation.location? { decisions := ds ++ [d] } v =
    if d.subject = v then some d.location else Allocation.location? { decisions := ds } v := by
  rw [Allocation.location?, List.reverse_concat, List.find?_cons, Allocation.location?]
  by_cases h : d.subject = v
  · rw [if_pos h, beq_iff_eq.mpr h, Option.map_some]
  · rw [if_neg h, beq_eq_false_iff_ne.mpr h]

/-- Every location was decided. -/
theorem exists_decision {l : Location} (h : Allocation.location? { decisions := ds } v = some l) :
    ∃ d ∈ ds, d.location = l := by
  obtain ⟨d, hd, hl⟩ := Option.map_eq_some_iff.mp h
  exact ⟨d, List.mem_reverse.mp (List.mem_of_find?_eq_some hd), hl⟩

/-! ## The pool -/

namespace Pool

variable {p p' : Pool}

theorem allocate_eq_some (h : p.allocate = some (r, p')) :
    r ∈ p.order ∧ p.free.contains r = true ∧
      p' = { p with free := p.free.erase r, used := p.used.insert r } := by
  obtain ⟨q, hq, heq⟩ := Option.map_eq_some_iff.mp h
  cases heq
  exact ⟨List.mem_of_find?_eq_some hq, List.find?_some hq, rfl⟩

/-- Each register is held by its owner when it is given back. -/
def ReleasesHeld : Pool → List PhysReg → Prop
  | _, [] => True
  | p, r :: rs => p.free.contains r = false ∧ (p.release r).ReleasesHeld rs

/-- Gives several registers back. -/
def releaseAll (p : Pool) (rs : List PhysReg) : Pool := rs.foldl release p

@[simp]
theorem contains_release : (p.release r).free.contains r' =
    (p.free.contains r' || decide (r' = r)) := RegSet.contains_insert _ _ _

theorem releaseAll_spec (p : Pool) (rs : List PhysReg) :
    (p.releaseAll rs).order = p.order ∧ (p.releaseAll rs).used = p.used ∧
      ∀ r, (p.releaseAll rs).free.contains r = true ↔ p.free.contains r = true ∨ r ∈ rs := by
  induction rs generalizing p with
  | nil => exact ⟨rfl, rfl, fun r ↦ by simp [releaseAll]⟩
  | cons q rs ih =>
    obtain ⟨horder, hused, hfree⟩ := ih (p.release q)
    refine ⟨horder, hused, fun r ↦ ?_⟩
    rw [releaseAll, List.foldl_cons, ← releaseAll, hfree, contains_release, List.mem_cons]
    simp [or_assoc]

/-- Different registers that are held can be given back one after the other. -/
theorem releasesHeld_of_nodup {rs : List PhysReg} (hnodup : rs.Nodup)
    (hheld : ∀ r ∈ rs, p.free.contains r = false) : p.ReleasesHeld rs := by
  induction rs generalizing p with
  | nil => trivial
  | cons q rs ih =>
    obtain ⟨hnot, hnodup⟩ := List.nodup_cons.mp hnodup
    refine ⟨hheld q List.mem_cons_self, ih hnodup fun r hr ↦ ?_⟩
    rw [contains_release, hheld r (List.mem_cons_of_mem q hr), Bool.false_or,
      decide_eq_false_iff_not]
    rintro rfl
    exact hnot hr

end Pool

/-! ## Hulls -/

namespace LinearScan

variable {intervals : List Interval} {h h' : Hull} {a : Active} {s s' : State} {done : List Hull}

/-- The order in which hulls are visited. -/
def Hull.le (a b : Hull) : Bool :=
  a.start < b.start || (a.start == b.start && decide (a.vreg ≤ b.vreg))

theorem Hull.le_iff : Hull.le h h' = true ↔
    h.start < h'.start ∨ h.start = h'.start ∧ h.vreg ≤ h'.vreg := by
  simp [Hull.le]

/-- The hull of an interval with its number, if it has positions. -/
def hullOf? (x : Interval × Nat) : Option Hull :=
  match x.1.start?, x.1.end? with
  | some s, some e => some ⟨x.2, s, e⟩
  | _, _ => none

theorem hulls_eq (intervals : List Interval) :
    hulls intervals = (intervals.zipIdx.filterMap hullOf?).mergeSort Hull.le := rfl

theorem hullOf?_eq_some_iff {x : Interval × Nat} : hullOf? x = some h ↔
    x.2 = h.vreg ∧ x.1.start? = some h.start ∧ x.1.end? = some h.stop := by
  rw [hullOf?]
  constructor
  · intro heq
    split at heq
    next s e hs he =>
      cases heq
      exact ⟨rfl, hs, he⟩
    next => exact absurd heq (by simp)
  · rintro ⟨hv, hs, he⟩
    rw [hs, he, hv]

/-- The hulls are those of the intervals with positions, each under the number of its interval. -/
theorem mem_hulls_iff : h ∈ hulls intervals ↔ ∃ i, intervals[h.vreg]? = some i ∧
    i.start? = some h.start ∧ i.end? = some h.stop := by
  rw [hulls_eq, List.mem_mergeSort, List.mem_filterMap]
  constructor
  · rintro ⟨x, hmem, heq⟩
    obtain ⟨hv, hs, he⟩ := hullOf?_eq_some_iff.mp heq
    exact ⟨x.1, hv ▸ List.mem_zipIdx_iff_getElem?.mp hmem, hs, he⟩
  · rintro ⟨i, hi, hs, he⟩
    exact ⟨(i, h.vreg), List.mem_zipIdx_iff_getElem?.mpr hi, hullOf?_eq_some_iff.mpr ⟨rfl, hs, he⟩⟩

theorem sorted_hulls (intervals : List Interval) :
    (hulls intervals).Pairwise fun a b ↦ a.start ≤ b.start := by
  have htrans : ∀ a b c, Hull.le a b = true → Hull.le b c = true → Hull.le a c = true := by
    intro a b c hab hbc
    rw [Hull.le_iff] at *
    rcases hab with hab | ⟨hab, hv⟩
    · left
      omega
    · exact hbc.imp (hab ▸ ·) fun ⟨hbc, hv'⟩ ↦ ⟨hab.trans hbc, Nat.le_trans hv hv'⟩
  have htotal : ∀ a b, (Hull.le a b || Hull.le b a) = true := by
    intro a b
    rw [Bool.or_eq_true, Hull.le_iff, Hull.le_iff]
    rcases Nat.lt_trichotomy a.start b.start with hlt | heq | hlt
    · exact Or.inl (Or.inl hlt)
    · exact (Nat.le_total a.vreg b.vreg).imp (Or.inr ⟨heq, ·⟩) (Or.inr ⟨heq.symm, ·⟩)
    · exact Or.inr (Or.inl hlt)
  refine (List.pairwise_mergeSort htrans htotal _).imp fun {a b} hle ↦ ?_
  rw [Hull.le_iff] at hle
  omega

theorem nodup_hulls (intervals : List Interval) : ((hulls intervals).map (·.vreg)).Nodup := by
  have hnumbers : intervals.zipIdx.Pairwise fun x y ↦ x.2 < y.2 := by
    rw [← List.pairwise_map (f := Prod.snd) (R := (· < ·)), List.zipIdx_map_snd]
    exact List.pairwise_lt_range' 1
  rw [hulls_eq, ((List.mergeSort_perm _ _).map _).nodup_iff, List.Nodup, List.pairwise_map,
    List.pairwise_filterMap]
  refine hnumbers.imp fun {x y} hlt h hx h' hy heq ↦ ?_
  rw [← (hullOf?_eq_some_iff.mp hx).1, ← (hullOf?_eq_some_iff.mp hy).1] at heq
  exact absurd heq (Nat.ne_of_lt hlt)

/-! ## The invariant -/

/-- The location decided last about a register. -/
def State.location? (s : State) (v : VReg) : Option Location :=
  Allocation.location? { decisions := s.decisions } v

/-- Requests for the slots of registers. -/
def spillRequests (vs : List VReg) : List (LocalKey × Nat) :=
  vs.map fun v ↦ (.spill v, slotBytes)

/-- The frame of a scan: that of earlier requests, and a slot for each register that was moved. -/
def Slots (reqs : List (LocalKey × Nat)) (f : Frame) : Prop :=
  ∃ vs, f = .answer (reqs ++ spillRequests vs)

/-- A scan that has given each of the hulls `done` a place, the latest of which starts at `now`. -/
structure Placed (budget : Nat) (reqs : List (LocalKey × Nat)) (done : List Hull) (now : Nat)
    (s : State) : Prop where
  order : s.pool.order = PhysReg.allocatable.take budget
  vregs : (done.map (·.vreg)).Nodup
  active_mem : ∀ a ∈ s.active, a.hull ∈ done ∧ s.location? a.hull.vreg = some (.register a.reg)
  active_held : ∀ a ∈ s.active, s.pool.free.contains a.reg = false
  active_nodup : (s.active.map (·.reg)).Nodup
  located : ∀ v, (s.location? v).isSome ↔ v ∈ done.map (·.vreg)
  ended : ∀ h ∈ done, ∀ r, s.location? h.vreg = some (.register r) →
    ⟨h, r⟩ ∈ s.active ∨ h.stop < now
  apart : ∀ h ∈ done, ∀ h' ∈ done, h ≠ h' → ∀ r, s.location? h.vreg = some (.register r) →
    s.location? h'.vreg = some (.register r) → h.stop < h'.start ∨ h'.stop < h.start
  decided : ∀ d ∈ s.decisions, ∀ r, d.location = .register r → r ∈ s.pool.order
  slots : Slots reqs s.frame
  stack : ∀ v m, s.location? v = some (.stack m) → s.frame.slot? (.spill v) = some m

/-- A scan in which the pool remembers the registers that are somebody's location. -/
structure Scanned (budget : Nat) (reqs : List (LocalKey × Nat)) (done : List Hull) (now : Nat)
    (s : State) : Prop extends Placed budget reqs done now s where
  used : ∀ r, s.pool.used.contains r = true ↔ ∃ v, s.location? v = some (.register r)

theorem scanned_start (budget : Nat) (reqs : List (LocalKey × Nat)) :
    Scanned budget reqs [] 0 { pool := .ofBudget budget, frame := .answer reqs } where
  order := rfl
  vregs := .nil
  active_mem _ ha := absurd ha List.not_mem_nil
  active_held _ ha := absurd ha List.not_mem_nil
  active_nodup := .nil
  located v := ⟨fun h ↦ absurd h Bool.false_ne_true, fun h ↦ absurd h List.not_mem_nil⟩
  ended _ hh := absurd hh List.not_mem_nil
  apart _ hh := absurd hh List.not_mem_nil
  decided _ hd := absurd hd List.not_mem_nil
  slots := ⟨[], by rw [spillRequests, List.map_nil, List.append_nil]⟩
  stack _ _ h := nomatch h
  used r := ⟨fun h ↦ absurd h Bool.false_ne_true, fun ⟨_, h⟩ ↦ nomatch h⟩

/-! ## Expiry -/

/-- The hulls that have ended before a position. -/
def Active.isOver (start : Nat) (a : Active) : Bool := decide (a.hull.stop < start)

/-- The registers that are given back before a hull is placed. -/
def State.returned (s : State) (start : Nat) : List PhysReg :=
  (s.active.filter (Active.isOver start)).map (·.reg)

theorem expire_eq (start : Nat) (s : State) : expire start s =
    { s with
      active := s.active.filter (!Active.isOver start ·)
      pool := s.pool.releaseAll (s.returned start) } := by
  rw [expire, List.partition_eq_filter_filter, State.returned, Pool.releaseAll, List.foldl_map]
  rfl

/-- Nothing that is given back was free before. -/
theorem Scanned.releasesHeld (hs : Scanned budget reqs done now s) (start : Nat) :
    s.pool.ReleasesHeld (s.returned start) := by
  refine Pool.releasesHeld_of_nodup (hs.active_nodup.sublist (List.filter_sublist.map _)) ?_
  intro r hr
  obtain ⟨a, ha, rfl⟩ := List.mem_map.mp hr
  exact hs.active_held a (List.mem_of_mem_filter ha)

theorem mem_active_expire {start : Nat} : a ∈ (expire start s).active ↔
    a ∈ s.active ∧ start ≤ a.hull.stop := by
  rw [expire_eq, List.mem_filter]
  simp [Active.isOver]

theorem Scanned.expire (hs : Scanned budget reqs done now s) {start : Nat} (hle : now ≤ start) :
    Scanned budget reqs done start (expire start s) := by
  obtain ⟨horder, hused, hfree⟩ := s.pool.releaseAll_spec (s.returned start)
  have hlocation : (LinearScan.expire start s).location? = s.location? := by
    rw [expire_eq]
    rfl
  have hpool : (LinearScan.expire start s).pool = s.pool.releaseAll (s.returned start) := by
    rw [expire_eq]
  refine ⟨⟨?_, hs.vregs, fun a ha ↦ ?_, fun a ha ↦ ?_, ?_, hlocation ▸ hs.located,
    fun h hh r hr ↦ ?_, hlocation ▸ hs.apart, fun d hd r hr ↦ ?_, ?_, fun v m hm ↦ ?_⟩, fun r ↦ ?_⟩
  · rw [hpool, horder, hs.order]
  · rw [hlocation]
    exact hs.active_mem a (mem_active_expire.mp ha).1
  · obtain ⟨ha, hstop⟩ := mem_active_expire.mp ha
    rw [hpool, Bool.eq_false_iff, ne_eq, hfree, not_or, hs.active_held a ha]
    refine ⟨Bool.false_ne_true, fun hreg ↦ ?_⟩
    -- the registers of active hulls differ, so no hull that has ended holds this one
    obtain ⟨b, hb, hreg⟩ := List.mem_map.mp hreg
    obtain ⟨hb, hover⟩ := List.mem_filter.mp hb
    obtain rfl := List.inj_on_of_nodup_map hs.active_nodup hb ha hreg
    exact absurd (of_decide_eq_true hover) (Nat.not_lt.mpr hstop)
  · rw [expire_eq]
    exact hs.active_nodup.sublist (List.filter_sublist.map _)
  · rw [hlocation] at hr
    rcases hs.ended h hh r hr with hactive | hstop
    · rw [mem_active_expire]
      exact (Nat.lt_or_ge h.stop start).symm.imp_left fun hstop ↦ ⟨hactive, hstop⟩
    · exact Or.inr (Nat.lt_of_lt_of_le hstop hle)
  · rw [hpool, horder]
    rw [expire_eq] at hd
    exact hs.decided d hd r hr
  · rw [expire_eq]
    exact hs.slots
  · rw [hlocation] at hm
    rw [expire_eq]
    exact hs.stack v m hm
  · rw [hpool, hused, hlocation]
    exact hs.used r

/-! ## Moving a register to its slot -/

theorem location?_spill : (spill v s).location? w =
    if v = w then some (.stack (s.frame.request (.spill v) slotBytes).1) else s.location? w := by
  rw [State.location?, spill, location?_concat]
  rfl

theorem Slots.spill (hslots : Slots reqs s.frame) (v : VReg) :
    Slots reqs (spill v s).frame := by
  obtain ⟨vs, hvs⟩ := hslots
  refine ⟨vs ++ [v], ?_⟩
  rw [spillRequests, List.map_append, List.map_singleton, ← List.append_assoc,
    Frame.answer_concat, ← spillRequests, ← hvs]
  rfl

/-- A register that is placed for the first time, or has just been taken off the active list, gets
its slot. -/
theorem Placed.spill (hs : Placed budget reqs done now s) {done' : List Hull} {active : List Active}
    (hv : v ∈ done'.map (·.vreg)) (hnodup : (done'.map (·.vreg)).Nodup)
    (hdone : ∀ h, h.vreg ≠ v → (h ∈ done' ↔ h ∈ done)) (hsub : active.Sublist s.active)
    (hactive : ∀ a ∈ s.active, a ∈ active ↔ a.hull.vreg ≠ v) :
    Placed budget reqs done' now { LinearScan.spill v s with active } := by
  have hlocation : ∀ w, State.location? { LinearScan.spill v s with active } w =
      if v = w then some (.stack (s.frame.request (.spill v) slotBytes).1) else s.location? w :=
    fun w ↦ location?_spill
  have hregister : ∀ {w q}, State.location? { LinearScan.spill v s with active } w =
      some (.register q) → w ≠ v ∧ s.location? w = some (.register q) := by
    intro w q hw
    rw [hlocation] at hw
    split at hw
    next => exact absurd hw (by simp)
    next hne => exact ⟨Ne.symm hne, hw⟩
  refine ⟨hs.order, hnodup, fun a ha ↦ ?_, fun a ha ↦ hs.active_held a (hsub.subset ha),
    hs.active_nodup.sublist (hsub.map _), fun w ↦ ?_, fun h hh q hq ↦ ?_,
    fun h hh h' hh' hne q hq hq' ↦ ?_, fun d hd q hq ↦ ?_, hs.slots.spill v, fun w m hm ↦ ?_⟩
  · have hne := (hactive a (hsub.subset ha)).mp ha
    obtain ⟨hmem, hloc⟩ := hs.active_mem a (hsub.subset ha)
    rw [hlocation, if_neg (Ne.symm hne)]
    exact ⟨(hdone _ hne).mpr hmem, hloc⟩
  · rw [hlocation]
    split
    next heq => exact ⟨fun _ ↦ heq ▸ hv, fun _ ↦ rfl⟩
    next hne =>
      rw [hs.located, List.mem_map, List.mem_map]
      refine exists_congr fun h ↦ ?_
      constructor
      · rintro ⟨hh, rfl⟩
        exact ⟨(hdone h (Ne.symm hne)).mpr hh, rfl⟩
      · rintro ⟨hh, rfl⟩
        exact ⟨(hdone h (Ne.symm hne)).mp hh, rfl⟩
  · obtain ⟨hne, hq⟩ := hregister hq
    exact (hs.ended h ((hdone h hne).mp hh) q hq).imp_left fun ha ↦ (hactive _ ha).mpr hne
  · obtain ⟨hv, hq⟩ := hregister hq
    obtain ⟨hv', hq'⟩ := hregister hq'
    exact hs.apart h ((hdone h hv).mp hh) h' ((hdone h' hv').mp hh') hne q hq hq'
  · rcases List.mem_append.mp hd with hd | hd
    · exact hs.decided d hd q hq
    · rw [List.mem_singleton.mp hd] at hq
      exact absurd hq (by simp [Decision.location])
  · rw [hlocation] at hm
    split at hm
    next heq =>
      obtain rfl := heq
      obtain rfl := Location.stack.inj (Option.some.inj hm)
      exact Frame.slot?_request _ _ _
    next => exact Frame.slot?_request_of_slot? (hs.stack w m hm)

/-! ## Giving a register to a hull -/

section Place

variable (hs : Placed budget reqs done h.start s) (hnew : h.vreg ∉ done.map (·.vreg))

include hs hnew

theorem Placed.nodup_concat : ((done ++ [h]).map (·.vreg)).Nodup := by
  rw [List.map_append, List.map_singleton]
  exact List.concat_eq_append ▸ hs.vregs.concat hnew

/-- A hull gets a register that no active hull holds and that is not free afterwards. -/
theorem Placed.hold {pool : Pool} {d : Decision}
    (hd : d.subject = h.vreg ∧ d.location = .register r)
    (horder : pool.order = s.pool.order) (hr : r ∈ s.pool.order)
    (hunheld : r ∉ s.active.map (·.reg))
    (hfree : ∀ q, pool.free.contains q = true ↔ s.pool.free.contains q = true ∧ q ≠ r) :
    Placed budget reqs (done ++ [h]) h.start
      { s with pool, active := s.active ++ [⟨h, r⟩], decisions := s.decisions ++ [d] } := by
  have hlocation : ∀ v, State.location?
      { s with pool, active := s.active ++ [⟨h, r⟩], decisions := s.decisions ++ [d] } v =
        if h.vreg = v then some (.register r) else s.location? v := by
    intro v
    rw [State.location?, location?_concat, hd.1, hd.2]
    rfl
  have hold : ∀ h' ∈ done, h.vreg ≠ h'.vreg := fun h' hh' heq ↦
    hnew (heq ▸ List.mem_map_of_mem hh')
  have hmem : ∀ h' ∈ done ++ [h], h' ∈ done ∨ h' = h := fun h' hh' ↦
    (List.mem_append.mp hh').imp_right List.mem_singleton.mp
  -- whoever had the register before is not active, so it has ended
  have hover : ∀ h' ∈ done, s.location? h'.vreg = some (.register r) → h'.stop < h.start :=
    fun h' hh' hr' ↦ (hs.ended h' hh' r hr').resolve_left fun ha ↦
      hunheld (List.mem_map_of_mem ha)
  refine ⟨horder.trans hs.order, hs.nodup_concat hnew, fun a ha ↦ ?_, fun a ha ↦ ?_, ?_, fun v ↦ ?_,
    fun h' hh' q hq ↦ ?_, fun h₁ hh₁ h₂ hh₂ hne q hq₁ hq₂ ↦ ?_, fun d' hd' q hq ↦ ?_, hs.slots,
    fun v m hm ↦ ?_⟩
  · rcases List.mem_append.mp ha with ha | ha
    · obtain ⟨hdone, hloc⟩ := hs.active_mem a ha
      rw [hlocation, if_neg (hold a.hull hdone)]
      exact ⟨List.mem_append_left _ hdone, hloc⟩
    · obtain rfl := List.mem_singleton.mp ha
      rw [hlocation, if_pos rfl]
      exact ⟨List.mem_append_right _ List.mem_cons_self, rfl⟩
  · rw [Bool.eq_false_iff, ne_eq, hfree]
    rintro ⟨hfree, hne⟩
    rcases List.mem_append.mp ha with ha | ha
    · exact absurd (hfree.symm.trans (hs.active_held a ha)) (by simp)
    · obtain rfl := List.mem_singleton.mp ha
      exact hne rfl
  · rw [List.map_append, List.map_singleton]
    exact List.concat_eq_append ▸ hs.active_nodup.concat hunheld
  · rw [hlocation, List.map_append, List.mem_append, List.map_singleton, List.mem_singleton]
    split
    next heq => exact ⟨fun _ ↦ Or.inr heq.symm, fun _ ↦ rfl⟩
    next hne => exact (hs.located v).trans ⟨Or.inl, fun hv ↦ hv.resolve_right (Ne.symm hne)⟩
  · rcases hmem h' hh' with hh' | rfl
    · rw [hlocation, if_neg (hold h' hh')] at hq
      exact (hs.ended h' hh' q hq).imp_left (List.mem_append_left _)
    · rw [hlocation, if_pos rfl] at hq
      cases hq
      exact Or.inl (List.mem_append_right _ List.mem_cons_self)
  · rcases hmem h₁ hh₁ with hmem₁ | rfl <;> rcases hmem h₂ hh₂ with hmem₂ | rfl
    · rw [hlocation, if_neg (hold _ hmem₁)] at hq₁
      rw [hlocation, if_neg (hold _ hmem₂)] at hq₂
      exact hs.apart h₁ hmem₁ h₂ hmem₂ hne q hq₁ hq₂
    · rw [hlocation, if_neg (hold _ hmem₁)] at hq₁
      rw [hlocation, if_pos rfl] at hq₂
      cases hq₂
      exact Or.inl (hover h₁ hmem₁ hq₁)
    · rw [hlocation, if_pos rfl] at hq₁
      rw [hlocation, if_neg (hold _ hmem₂)] at hq₂
      cases hq₁
      exact Or.inr (hover h₂ hmem₂ hq₂)
    · exact absurd rfl hne
  · rw [horder]
    rcases List.mem_append.mp hd' with hd' | hd'
    · exact hs.decided d' hd' q hq
    · rw [List.mem_singleton.mp hd', hd.2] at hq
      cases hq
      exact hr
  · rw [hlocation] at hm
    split at hm
    next => exact absurd hm (by simp)
    next => exact hs.stack v m hm

end Place

/-- Once a hull without a location has a register, that register is somebody's location. -/
theorem exists_location_hold {pool : Pool} {active : List Active}
    (hd : d.subject = h.vreg ∧ d.location = .register r) (hnone : s.location? h.vreg = none)
    (q : PhysReg) :
    (∃ v, State.location? { s with pool, active, decisions := s.decisions ++ [d] } v =
      some (.register q)) ↔ q = r ∨ ∃ v, s.location? v = some (.register q) := by
  simp only [State.location?, location?_concat, hd.1, hd.2]
  constructor
  · rintro ⟨v, hv⟩
    split at hv
    next => exact Or.inl (Location.register.inj (Option.some.inj hv)).symm
    next => exact Or.inr ⟨v, hv⟩
  · rintro (rfl | ⟨v, hv⟩)
    · exact ⟨h.vreg, if_pos rfl⟩
    · refine ⟨v, ?_⟩
      rw [if_neg]
      · exact hv
      · rintro rfl
        exact absurd (hnone.symm.trans hv) (by simp)

/-! ## Placing a hull -/

section

variable (hs : Scanned budget reqs done h.start s) (hnew : h.vreg ∉ done.map (·.vreg))

include hs hnew

theorem Scanned.location?_new : s.location? h.vreg = none :=
  Option.not_isSome_iff_eq_none.mp (mt (hs.located h.vreg).mp hnew)

/-- A hull that takes a free register. -/
theorem Scanned.assign {pool : Pool} (hpool : s.pool.allocate = some (r, pool)) :
    Scanned budget reqs (done ++ [h]) h.start
      { s with
        pool
        active := s.active ++ [⟨h, r⟩]
        decisions := s.decisions ++ [.assign h.vreg r] } := by
  obtain ⟨hr, hfree, rfl⟩ := Pool.allocate_eq_some hpool
  have hunheld : r ∉ s.active.map (·.reg) := by
    intro hmem
    obtain ⟨a, ha, rfl⟩ := List.mem_map.mp hmem
    exact absurd (hfree.symm.trans (hs.active_held a ha)) (by simp)
  refine ⟨hs.hold hnew ⟨rfl, rfl⟩ rfl hr hunheld fun q ↦ by simp, fun q ↦ ?_⟩
  rw [exists_location_hold ⟨rfl, rfl⟩ (hs.location?_new hnew), ← hs.used]
  simp [or_comm]

/-- A hull that goes to its slot. -/
theorem Scanned.spill_new : Scanned budget reqs (done ++ [h]) h.start (spill h.vreg s) := by
  have hmem : ∀ a ∈ s.active, a.hull.vreg ≠ h.vreg := fun a ha heq ↦
    hnew (heq ▸ List.mem_map_of_mem (hs.active_mem a ha).1)
  refine ⟨hs.toPlaced.spill ?_ (hs.nodup_concat hnew) (fun h' hne ↦ ?_)
    (List.Sublist.refl s.active) fun a ha ↦ ⟨fun _ ↦ hmem a ha, fun _ ↦ ha⟩, fun q ↦ ?_⟩
  · exact List.mem_map_of_mem (List.mem_append_right _ List.mem_cons_self)
  · rw [List.mem_append, List.mem_singleton, or_iff_left]
    rintro rfl
    exact hne rfl
  · refine (hs.used q).trans (exists_congr fun v ↦ ?_)
    rw [location?_spill]
    split
    next heq =>
      rw [← heq, hs.location?_new hnew]
      simp
    next => rfl

/-- A hull that takes the register of an active one, which goes to its slot. -/
theorem Scanned.inherit {victim : Active} (hvictim : victim ∈ s.active) :
    Scanned budget reqs (done ++ [h]) h.start
      { spill victim.hull.vreg s with
        active := s.active.erase victim ++ [⟨h, victim.reg⟩]
        decisions := (spill victim.hull.vreg s).decisions ++ [.inherit h.vreg victim.reg] } := by
  obtain ⟨hdone, hlocation⟩ := hs.active_mem victim hvictim
  have hnodup : s.active.Nodup := hs.active_nodup.of_map _
  have hvacated : Placed budget reqs done h.start
      { spill victim.hull.vreg s with active := s.active.erase victim } := by
    refine hs.toPlaced.spill (List.mem_map_of_mem hdone) hs.vregs (fun _ _ ↦ Iff.rfl)
      List.erase_sublist fun a ha ↦ ?_
    rw [hnodup.mem_erase_iff, and_iff_left ha]
    refine not_congr ⟨fun heq ↦ heq ▸ rfl, fun heq ↦ ?_⟩
    -- active hulls with one register number have one location
    have hhull := List.inj_on_of_nodup_map hs.vregs (hs.active_mem a ha).1 hdone heq
    have hreg := (hs.active_mem a ha).2
    rw [heq, hlocation] at hreg
    cases a
    cases victim
    simp_all
  have hunheld : victim.reg ∉ (s.active.erase victim).map (·.reg) := by
    intro hmem
    obtain ⟨a, ha, hreg⟩ := List.mem_map.mp hmem
    obtain ⟨hne, ha⟩ := hnodup.mem_erase_iff.mp ha
    exact hne (List.inj_on_of_nodup_map hs.active_nodup ha hvictim hreg)
  have hnone : State.location? { spill victim.hull.vreg s with active := s.active.erase victim }
      h.vreg = none :=
    Option.not_isSome_iff_eq_none.mp (mt (hvacated.located h.vreg).mp hnew)
  refine ⟨hvacated.hold hnew ⟨rfl, rfl⟩ rfl ?_ hunheld fun q ↦ ?_, fun q ↦ ?_⟩
  · obtain ⟨d, hd, hreg⟩ := exists_decision hlocation
    exact hs.decided d hd victim.reg hreg
  · refine ⟨fun hq ↦ ⟨hq, ?_⟩, And.left⟩
    rintro rfl
    exact absurd (hq.symm.trans (hs.active_held victim hvictim)) (by simp)
  · refine Iff.trans ?_ (exists_location_hold (s := { spill victim.hull.vreg s with
      active := s.active.erase victim }) ⟨rfl, rfl⟩ hnone q).symm
    refine (hs.used q).trans ⟨fun ⟨v, hv⟩ ↦ ?_, ?_⟩
    · by_cases heq : victim.hull.vreg = v
      · rw [← heq, hlocation] at hv
        exact Or.inl (Location.register.inj (Option.some.inj hv)).symm
      · exact Or.inr ⟨v, location?_spill.trans ((if_neg heq).trans hv)⟩
    · rintro (rfl | ⟨v, hv⟩)
      · exact ⟨_, hlocation⟩
      · have hv' := location?_spill.symm.trans hv
        split at hv'
        next => exact absurd hv' (by simp)
        next => exact ⟨v, hv'⟩

end

theorem mem_of_furthest? {as : List Active} (hf : furthest? as = some a) : a ∈ as := by
  induction as generalizing a with
  | nil => exact absurd hf (by simp [furthest?])
  | cons b as ih =>
    rw [furthest?] at hf
    split at hf
    next c hc =>
      split at hf
      next => exact List.mem_cons_of_mem b (Option.some.inj hf ▸ ih hc)
      next => exact Option.some.inj hf ▸ List.mem_cons_self
    next => exact Option.some.inj hf ▸ List.mem_cons_self

theorem Scanned.evict (hs : Scanned budget reqs done h.start s)
    (hnew : h.vreg ∉ done.map (·.vreg)) :
    Scanned budget reqs (done ++ [h]) h.start (LinearScan.evict h s) := by
  rw [LinearScan.evict]
  cases hvictim : furthest? s.active with
  | none => exact hs.spill_new hnew
  | some victim =>
    dsimp only
    split
    next => exact hs.inherit hnew (mem_of_furthest? hvictim)
    next => exact hs.spill_new hnew

/-- **One step of a scan** places one more hull. -/
theorem Scanned.place (hs : Scanned budget reqs done now s) (hle : now ≤ h.start)
    (hnew : h.vreg ∉ done.map (·.vreg)) :
    Scanned budget reqs (done ++ [h]) h.start (LinearScan.place s h) := by
  have hexpired := hs.expire hle
  rw [LinearScan.place]
  split
  next r pool hpool => exact hexpired.assign hnew hpool
  next => exact hexpired.evict hnew

/-- Hulls by increasing start. -/
abbrev Upward (hs : List Hull) : Prop := hs.Pairwise fun a b : Hull ↦ a.start ≤ b.start

/-- A scan that has placed some hulls, and can place any that starts later. -/
theorem exists_scanned (budget : Nat) (reqs : List (LocalKey × Nat)) {hs : List Hull}
    (hsorted : Upward hs) (hnodup : (hs.map (·.vreg)).Nodup) :
    ∃ now, (∀ h, Upward (hs ++ [h]) → now ≤ h.start) ∧
      Scanned budget reqs hs now
        (hs.foldl LinearScan.place { pool := .ofBudget budget, frame := .answer reqs }) := by
  induction hs using List.reverseRecOn with
  | nil => exact ⟨0, fun _ _ ↦ Nat.zero_le _, scanned_start budget reqs⟩
  | append_singleton hs h ih =>
    obtain ⟨now, hnow, hscanned⟩ := ih (List.pairwise_append.mp hsorted).1
      (List.map_append ▸ hnodup).of_append_left
    refine ⟨h.start, fun h' hsorted' ↦ ?_, ?_⟩
    · exact (List.pairwise_append.mp hsorted').2.2 h (List.mem_append_right _ List.mem_cons_self) h'
        List.mem_cons_self
    · rw [List.foldl_concat]
      refine hscanned.place (hnow h hsorted) fun hmem ↦ ?_
      rw [List.map_append, List.nodup_append] at hnodup
      exact hnodup.2.2 _ hmem _ List.mem_cons_self rfl

end LinearScan

end TreeCover
