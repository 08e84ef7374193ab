import Mathlib.Algebra.Order.BigOperators.Group.List
import Mathlib.Algebra.Order.Group.Nat
import Mathlib.Data.Finset.Card
import Mathlib.Order.Bounds.Basic
import TreeCover.Proofs.Allocation.Valid
import TreeCover.Proofs.Liveness.Interval
import TreeCover.Proofs.Lists

/-!
# Linear scan moves as few intervals as possible to the frame

Other choices of intervals to keep are compared with that of the scan while hulls are visited. Of all
choices so far that fit into the registers, none has more hulls that end before any given position
(`Ahead`). A hull that finds a free register keeps the scan ahead. If there is none, as many hulls as
there are registers hold the start of the new one. Another choice that keeps the new hull has fewer there,
and had no more that ended before; so it is behind by one, and the scan can give up the hull that
reaches furthest, which does not count before the end of that hull. Main statement: `run_spills_least`.
-/

namespace TreeCover

open Machine

namespace LinearScan

variable {h m x : Hull} {xs xs' ks done held : List Hull} {k p t budget now : Nat} {s s' : State}
  {a : Active} {reqs : List (LocalKey × Nat)} {intervals : List Interval}

/-! ## Choices of hulls -/

/-- Whether a hull contains a position. -/
def Hull.covers (h : Hull) (p : Nat) : Bool := decide (h.start ≤ p) && decide (p ≤ h.stop)

theorem Hull.covers_iff : h.covers p = true ↔ h.start ≤ p ∧ p ≤ h.stop := by
  rw [Hull.covers, Bool.and_eq_true, decide_eq_true_iff, decide_eq_true_iff]

/-- No position is covered by more than `k` of the hulls. -/
def Fits (k : Nat) (xs : List Hull) : Prop := ∀ p, xs.countP (·.covers p) ≤ k

theorem Fits.sublist (h : Fits k xs) (hsub : xs'.Sublist xs) : Fits k xs' :=
  fun p ↦ hsub.countP_le.trans (h p)

/-- Two hulls have a position in common. -/
def Hull.Meets (h h' : Hull) : Prop := h.start ≤ h'.stop ∧ h'.start ≤ h.stop

/-- Hulls fit if each has one of `k` places, and no two that meet have the same. -/
theorem Fits.of_places {α : Type} (place : Hull → Option α) {rs : List α} (hrs : rs.length ≤ k)
    (hnodup : xs.Nodup) (hplaces : ∀ x ∈ xs, ∃ r ∈ rs, place x = some r)
    (hapart : ∀ x ∈ xs, ∀ y ∈ xs, x ≠ y → x.Meets y → place x ≠ place y) : Fits k xs := by
  intro p
  have hmem : ∀ x ∈ xs.filter (·.covers p), x ∈ xs ∧ x.start ≤ p ∧ p ≤ x.stop := fun x hx ↦
    (List.mem_filter.mp hx).imp_right Hull.covers_iff.mp
  have hnodup' : ((xs.filter (·.covers p)).map place).Nodup := by
    refine List.Nodup.map_on (fun x hx y hy heq ↦ ?_) (hnodup.filter _)
    by_contra hne
    obtain ⟨hxs, hxp⟩ := hmem x hx
    obtain ⟨hys, hyp⟩ := hmem y hy
    exact hapart x hxs y hys hne ⟨hxp.1.trans hyp.2, hyp.1.trans hxp.2⟩ heq
  have hsub : (xs.filter (·.covers p)).map place ⊆ rs.map some := by
    intro o ho
    obtain ⟨x, hx, rfl⟩ := List.mem_map.mp ho
    obtain ⟨r, hr, hplace⟩ := hplaces x (hmem x hx).1
    exact List.mem_map.mpr ⟨r, hr, hplace.symm⟩
  have hle := (List.subperm_of_subset hnodup' hsub).length_le
  rw [List.length_map, List.length_map, ← List.countP_eq_length_filter] at hle
  exact hle.trans hrs

/-- The hulls that are given one of `k` registers fit, if those that meet are given different ones. -/
theorem Fits.of_choice {c : VReg → Option (Fin k)} (hnodup : xs.Nodup)
    (hc : ∀ x ∈ xs, ∀ y ∈ xs, x ≠ y → x.Meets y → ∀ r, c x.vreg = some r → c y.vreg ≠ some r) :
    Fits k (xs.filter fun x ↦ (c x.vreg).isSome) := by
  refine Fits.of_places (fun x ↦ c x.vreg) List.length_finRange.le (hnodup.filter _)
    (fun x hx ↦ ?_) fun x hx y hy hne hmeets heq ↦ ?_
  · obtain ⟨r, hr⟩ := Option.isSome_iff_exists.mp (List.mem_filter.mp hx).2
    exact ⟨r, List.mem_finRange r, hr⟩
  · obtain ⟨hmem, hsome⟩ := List.mem_filter.mp hx
    obtain ⟨r, hr⟩ := Option.isSome_iff_exists.mp hsome
    exact hc x hmem y (List.mem_of_mem_filter hy) hne hmeets r hr (heq.symm.trans hr)

/-- A set of registers takes at most as many hulls away as it has members. -/
theorem length_le_of_removed (hnodup : (xs.map (·.vreg)).Nodup) (vs : Finset VReg) :
    xs.length ≤ (xs.filter (·.vreg ∉ vs)).length + vs.card := by
  have hremoved : (xs.filter fun x ↦ !decide (x.vreg ∉ vs)).length ≤ vs.card := by
    rw [← List.length_map (·.vreg),
      ← List.toFinset_card_of_nodup (hnodup.sublist (List.filter_sublist.map _))]
    refine Finset.card_le_card fun v hv ↦ ?_
    obtain ⟨x, hx, rfl⟩ := List.mem_map.mp (List.mem_toFinset.mp hv)
    simpa using (List.mem_filter.mp hx).2
  have hsplit := List.length_eq_length_filter_add (l := xs) fun x ↦ decide (x.vreg ∉ vs)
  omega

/-- How many of the hulls end before `t`. -/
def endedBefore (t : Nat) (xs : List Hull) : Nat := xs.countP fun h ↦ decide (h.stop < t)

theorem endedBefore_append (t : Nat) (xs xs' : List Hull) :
    endedBefore t (xs ++ xs') = endedBefore t xs + endedBefore t xs' := List.countP_append

theorem endedBefore_le (t : Nat) (xs : List Hull) : endedBefore t xs ≤ xs.length := List.countP_le_length

theorem endedBefore_eq_length (h : ∀ x ∈ xs, x.stop < t) : endedBefore t xs = xs.length :=
  List.countP_eq_length.mpr fun x hx ↦ decide_eq_true (h x hx)

/-- How many of the hulls reach `t`. -/
def reaching (t : Nat) (xs : List Hull) : Nat := xs.countP fun h ↦ decide (t ≤ h.stop)

theorem endedBefore_add_reaching (t : Nat) (xs : List Hull) :
    endedBefore t xs + reaching t xs = xs.length := by
  rw [List.length_eq_countP_add_countP (fun h : Hull ↦ decide (h.stop < t)), endedBefore, reaching]
  simp only [decide_eq_true_eq, Nat.not_lt]

/-- The hulls `held` are ahead of every choice among `done` that fits into `k` registers: no choice has
more hulls that end before some position. -/
def Ahead (k : Nat) (done held : List Hull) : Prop :=
  ∀ ks, ks.Sublist done → Fits k ks → ∀ t, endedBefore t ks ≤ endedBefore t held

namespace Ahead

theorem nil (k : Nat) : Ahead k [] [] := by
  intro ks hks _ t
  rw [List.sublist_nil.mp hks]

/-- To keep the next hull stays ahead. -/
theorem keep (hahead : Ahead k done held) (x : Hull) : Ahead k (done ++ [x]) (held ++ [x]) := by
  intro ks hks hfits t
  obtain ⟨ls, rs, rfl, hls, hrs⟩ := List.sublist_append_iff.mp hks
  rw [endedBefore_append, endedBefore_append]
  exact Nat.add_le_add (hahead ls hls (hfits.sublist (List.sublist_append_left ls rs)) t)
    hrs.countP_le

/-- No choice is larger than a list that is ahead. -/
theorem length_le (hahead : Ahead k done held) (hks : ks.Sublist done) (hfits : Fits k ks) :
    ks.length ≤ held.length := by
  obtain ⟨t, ht⟩ : ∃ t, ∀ x ∈ ks, x.stop < t :=
    ⟨(ks.map (·.stop)).sum + 1, fun x hx ↦
      Nat.lt_succ_of_le (List.le_sum_of_mem (List.mem_map_of_mem hx))⟩
  rw [← endedBefore_eq_length ht]
  exact (hahead ks hks hfits t).trans (endedBefore_le t held)

section Drop

variable (hahead : Ahead k done held) (hstart : ∀ y ∈ done, y.start ≤ x.start)
  (hfull : k ≤ reaching x.start held)
include hahead hstart hfull

/-- When all registers are taken, a choice that keeps the next hull is behind. -/
theorem length_lt (hx : x.start ≤ x.stop) (hks : ks.Sublist done) (hfits : Fits k (ks ++ [x])) :
    ks.length < held.length := by
  have hended := hahead ks hks (hfits.sublist (List.sublist_append_left ks [x])) x.start
  have hcovers : reaching x.start ks < k := by
    have hcount := hfits x.start
    have hself : x.covers x.start = true := Hull.covers_iff.mpr ⟨Nat.le_refl _, hx⟩
    rw [List.countP_append, List.countP_singleton, if_pos hself] at hcount
    refine Nat.lt_of_lt_of_le (Nat.lt_succ_of_le (List.countP_mono_left fun y hy hreaches ↦ ?_)) hcount
    exact Hull.covers_iff.mpr ⟨hstart y (hks.subset hy), of_decide_eq_true hreaches⟩
  rw [← endedBefore_add_reaching x.start ks, ← endedBefore_add_reaching x.start held]
  omega

/-- To give up the hull that reaches furthest stays ahead when all registers are taken. -/
theorem drop (hx : x.start ≤ x.stop) (hm : m ∈ held ++ [x])
    (hmax : ∀ y ∈ held ++ [x], y.stop ≤ m.stop) :
    Ahead k (done ++ [x]) ((held ++ [x]).erase m) := by
  intro ks hks hfits t
  by_cases ht : t ≤ m.stop
  · -- the hull given up does not count yet
    have hnot : ¬ (m ∈ held ++ [x] ∧ decide (m.stop < t) = true) := by
      rintro ⟨-, hlt⟩
      exact absurd (of_decide_eq_true hlt) (Nat.not_lt.mpr ht)
    rw [endedBefore.eq_1 t ((held ++ [x]).erase m), List.countP_erase, if_neg hnot, Nat.sub_zero]
    exact hahead.keep x ks hks hfits t
  · -- all hulls that are held count
    have hall : ∀ y ∈ held ++ [x], y.stop < t := fun y hy ↦
      Nat.lt_of_le_of_lt (hmax y hy) (Nat.not_le.mp ht)
    have hlength : ((held ++ [x]).erase m).length = held.length := by
      rw [List.length_erase_of_mem hm, List.length_append, List.length_singleton, Nat.add_sub_cancel]
    rw [endedBefore_eq_length fun y hy ↦ hall y (List.mem_of_mem_erase hy), hlength]
    obtain ⟨ls, rs, rfl, hls, hrs⟩ := List.sublist_append_iff.mp hks
    rcases List.sublist_singleton.mp hrs with rfl | rfl
    · rw [List.append_nil] at hfits ⊢
      exact (hahead ls hls hfits t).trans (endedBefore_le t held)
    · refine (endedBefore_le t _).trans ?_
      rw [List.length_append, List.length_singleton]
      exact length_lt hahead hstart hfull hx hls hfits

end Drop

end Ahead

/-! ## The hulls that a scan keeps -/

/-- Whether a virtual register has been given a register. -/
def State.keeps (s : State) (v : VReg) : Bool := (s.location? v).any (!·.isStack)

/-- The hulls of a list that have been given a register. -/
def State.kept (s : State) (xs : List Hull) : List Hull := xs.filter fun h ↦ s.keeps h.vreg

theorem State.keeps_iff {v : VReg} : s.keeps v = true ↔ ∃ r, s.location? v = some (.register r) := by
  rw [State.keeps]
  cases s.location? v with
  | none => simp
  | some l => cases l <;> simp [Location.isStack]

theorem State.mem_kept : h ∈ s.kept done ↔ h ∈ done ∧ ∃ r, s.location? h.vreg = some (.register r) := by
  rw [State.kept, List.mem_filter, State.keeps_iff]

/-- The hull that a decision is about is kept if the decision is for a register. -/
theorem kept_concat {d : Decision} (hds : s'.decisions = s.decisions ++ [d]) (hd : d.subject = h.vreg)
    (hnew : h.vreg ∉ done.map (·.vreg)) :
    s'.kept (done ++ [h]) = s.kept done ++ if d.location.isStack then [] else [h] := by
  have hlocation : ∀ v, s'.location? v =
      if d.subject = v then some d.location else s.location? v := by
    intro v
    rw [State.location?, hds, location?_concat]
    rfl
  rw [State.kept, List.filter_append, State.kept]
  congr 1
  · refine List.filter_congr fun y hy ↦ ?_
    have hne : d.subject ≠ y.vreg := fun heq ↦ hnew (hd ▸ heq ▸ List.mem_map_of_mem hy)
    rw [State.keeps, hlocation, if_neg hne, State.keeps]
  · rw [List.filter_singleton, State.keeps, hlocation, if_pos hd]
    cases d.location <;> rfl

/-- A hull that is moved to its slot is given up. -/
theorem kept_spill (hnodup : (done.map (·.vreg)).Nodup) (hm : m ∈ done) :
    (spill m.vreg s).kept done = (s.kept done).erase m := by
  have hkept : (s.kept done).Nodup := (hnodup.of_map _).filter _
  rw [hkept.erase_eq_filter, State.kept, State.kept, List.filter_filter]
  refine List.filter_congr fun y hy ↦ ?_
  rw [State.keeps, location?_spill]
  split
  next heq =>
    obtain rfl := List.inj_on_of_nodup_map hnodup hm hy heq
    simp [Location.isStack]
  next hne =>
    have hym : (y != m) = true := bne_iff_ne.mpr fun heq ↦ hne (heq ▸ rfl)
    rw [hym, Bool.true_and]
    rfl

/-! ## Steps of a scan -/

theorem furthest?_eq_none {as : List Active} (hf : furthest? as = none) : as = [] := by
  cases as with
  | nil => rfl
  | cons a as =>
    rw [furthest?] at hf
    split at hf
    next => split at hf <;> cases hf
    next => cases hf

/-- No active hull reaches further. -/
theorem stop_le_of_furthest? {as : List Active} (hf : furthest? as = some a) :
    ∀ b ∈ as, b.hull.stop ≤ a.hull.stop := by
  induction as generalizing a with
  | nil => exact nomatch hf
  | cons c as ih =>
    rw [furthest?] at hf
    split at hf
    next c' hc' =>
      have hrest := ih hc'
      by_cases hfurther : reachesFurther c.hull c'.hull = true
      · rw [if_pos hfurther] at hf
        obtain rfl := Option.some.inj hf
        refine List.forall_mem_cons.mpr ⟨?_, hrest⟩
        simp only [reachesFurther, Bool.or_eq_true, Bool.and_eq_true, decide_eq_true_eq, beq_iff_eq]
          at hfurther
        omega
      · rw [if_neg hfurther] at hf
        obtain rfl := Option.some.inj hf
        refine List.forall_mem_cons.mpr ⟨Nat.le_refl _, fun b hb ↦ (hrest b hb).trans ?_⟩
        simp only [reachesFurther, Bool.or_eq_true, Bool.and_eq_true, decide_eq_true_eq, beq_iff_eq]
          at hfurther
        omega
    next hnone =>
      obtain rfl := Option.some.inj hf
      obtain rfl := furthest?_eq_none hnone
      exact List.forall_mem_cons.mpr ⟨Nat.le_refl _, List.forall_mem_nil _⟩

/-- A scan that is ahead of all choices. -/
structure Leading (budget : Nat) (reqs : List (LocalKey × Nat)) (done : List Hull) (now : Nat)
    (s : State) : Prop extends Scanned budget reqs done now s where
  /-- No register of the pool is lost. -/
  owned : ∀ r ∈ s.pool.order, s.pool.free.contains r = true ∨ r ∈ s.active.map (·.reg)
  ahead : Ahead (min budget 9) done (s.kept done)

theorem leading_start (budget : Nat) (reqs : List (LocalKey × Nat)) :
    Leading budget reqs [] 0 { pool := .ofBudget budget, frame := .answer reqs } where
  toScanned := scanned_start budget reqs
  owned _ hr := Or.inl (List.contains_iff_mem.mpr hr)
  ahead := .nil _

theorem Leading.expire (hs : Leading budget reqs done now s) {start : Nat} (hle : now ≤ start) :
    Leading budget reqs done start (expire start s) := by
  obtain ⟨horder, -, hfree⟩ := s.pool.releaseAll_spec (s.returned start)
  refine ⟨hs.toScanned.expire hle, fun r hr ↦ ?_, ?_⟩
  · rw [expire_eq] at hr ⊢
    rw [horder] at hr
    rw [hfree]
    refine (hs.owned r hr).elim (fun h ↦ Or.inl (Or.inl h)) fun hmem ↦ ?_
    obtain ⟨a, ha, rfl⟩ := List.mem_map.mp hmem
    by_cases hover : a.isOver start = true
    · exact Or.inl (Or.inr (List.mem_map_of_mem (List.mem_filter.mpr ⟨ha, hover⟩)))
    · exact Or.inr (List.mem_map_of_mem (List.mem_filter.mpr ⟨ha, by simpa using hover⟩))
  · rw [expire_eq]
    exact hs.ahead

section Place

variable (hs : Leading budget reqs done h.start s) (hnew : h.vreg ∉ done.map (·.vreg))
include hs hnew

theorem Leading.assign {pool : Pool} {r : PhysReg} (hpool : s.pool.allocate = some (r, pool)) :
    Leading budget reqs (done ++ [h]) h.start
      { s with pool, active := s.active ++ [⟨h, r⟩], decisions := s.decisions ++ [.assign h.vreg r] } := by
  refine ⟨hs.toScanned.assign hnew hpool, fun q hq ↦ ?_, ?_⟩
  · obtain ⟨-, -, rfl⟩ := Pool.allocate_eq_some hpool
    rw [List.map_append, List.mem_append, RegSet.contains_erase]
    by_cases heq : q = r
    · exact Or.inr (Or.inr (heq ▸ List.mem_singleton_self r))
    · exact (hs.owned q hq).imp (fun h ↦ by simp [h, heq]) Or.inl
  · rw [kept_concat (s := s) rfl rfl hnew]
    exact hs.ahead.keep h

variable (hstop : h.start ≤ h.stop) (hsorted : ∀ y ∈ done, y.start ≤ h.start)
  (hreach : ∀ a ∈ s.active, h.start ≤ a.hull.stop) (hnone : s.pool.allocate = none)

omit hnew in
include hreach hnone in
/-- If no register is free, as many hulls as there are registers hold the start of the next one. -/
theorem Leading.full : min budget 9 ≤ reaching h.start (s.kept done) := by
  have hheld : ∀ r ∈ s.pool.order, r ∈ s.active.map (·.reg) := fun r hr ↦
    (hs.owned r hr).resolve_left fun hfree ↦
      List.find?_eq_none.mp (Option.map_eq_none_iff.mp hnone) r hr hfree
  have hnodup : s.pool.order.Nodup :=
    hs.order ▸ PhysReg.allocatable_nodup.sublist (List.take_sublist _ _)
  have hlength : s.pool.order.length = min budget 9 := by
    rw [hs.order, List.length_take]
    rfl
  -- active hulls differ, since their registers do
  have hhulls : (s.active.map (·.hull)).Nodup := by
    refine List.Nodup.map_on (fun a ha b hb heq ↦ ?_) (hs.active_nodup.of_map _)
    have hreg := (hs.active_mem a ha).2
    rw [heq, (hs.active_mem b hb).2] at hreg
    exact List.inj_on_of_nodup_map hs.active_nodup ha hb
      (Location.register.inj (Option.some.inj hreg)).symm
  have hkept : s.active.map (·.hull) ⊆
      (s.kept done).filter fun x ↦ decide (h.start ≤ x.stop) := by
    intro x hx
    obtain ⟨a, ha, rfl⟩ := List.mem_map.mp hx
    obtain ⟨hmem, hlocation⟩ := hs.active_mem a ha
    exact List.mem_filter.mpr ⟨State.mem_kept.mpr ⟨hmem, _, hlocation⟩, decide_eq_true (hreach a ha)⟩
  calc min budget 9 = s.pool.order.length := hlength.symm
    _ ≤ (s.active.map (·.reg)).length := (List.subperm_of_subset hnodup hheld).length_le
    _ = (s.active.map (·.hull)).length := by rw [List.length_map, List.length_map]
    _ ≤ _ := (List.subperm_of_subset hhulls hkept).length_le
    _ = reaching h.start (s.kept done) := List.countP_eq_length_filter.symm

omit hnew in
include hstop in
/-- What is kept reaches no further than a bound on the active hulls and the next one. -/
theorem Leading.stop_le {n : Nat} (hactive : ∀ a ∈ s.active, a.hull.stop ≤ n) (hn : h.stop ≤ n) :
    ∀ y ∈ s.kept done ++ [h], y.stop ≤ n := by
  intro y hy
  rcases List.mem_append.mp hy with hy | hy
  · obtain ⟨hdone, r, hr⟩ := State.mem_kept.mp hy
    rcases hs.ended y hdone r hr with ha | hover
    · exact hactive _ ha
    · omega
  · exact List.mem_singleton.mp hy ▸ hn

include hstop hsorted hreach hnone

/-- The next hull goes to a slot if no active one reaches further. -/
theorem Leading.spill (hactive : ∀ a ∈ s.active, a.hull.stop ≤ h.stop) :
    Leading budget reqs (done ++ [h]) h.start (spill h.vreg s) := by
  refine ⟨hs.toScanned.spill_new hnew, hs.owned, ?_⟩
  have hnot : h ∉ s.kept done := fun hmem ↦ hnew (List.mem_map_of_mem (State.mem_kept.mp hmem).1)
  have hgiven : (LinearScan.spill h.vreg s).kept (done ++ [h]) = (s.kept done ++ [h]).erase h := by
    rw [kept_concat (d := .spill h.vreg _ _) rfl rfl hnew, List.erase_append_right _ hnot,
      List.erase_cons_head]
    rfl
  rw [hgiven]
  exact hs.ahead.drop hsorted (hs.full hreach hnone) hstop (by simp)
    (hs.stop_le hstop hactive (Nat.le_refl _))

/-- The next hull takes the register of the active one that reaches furthest. -/
theorem Leading.inherit {victim : Active} (hvictim : victim ∈ s.active)
    (hactive : ∀ a ∈ s.active, a.hull.stop ≤ victim.hull.stop) (hlt : h.stop < victim.hull.stop) :
    Leading budget reqs (done ++ [h]) h.start
      { LinearScan.spill victim.hull.vreg s with
        active := s.active.erase victim ++ [⟨h, victim.reg⟩]
        decisions := (LinearScan.spill victim.hull.vreg s).decisions ++
          [.inherit h.vreg victim.reg] } := by
  refine ⟨hs.toScanned.inherit hnew hvictim, fun r hr ↦ (hs.owned r hr).imp_right fun hmem ↦ ?_, ?_⟩
  · obtain ⟨a, ha, rfl⟩ := List.mem_map.mp hmem
    by_cases heq : a = victim
    · subst heq
      exact List.mem_map.mpr ⟨⟨h, a.reg⟩, List.mem_append_right _ List.mem_cons_self, rfl⟩
    · exact List.mem_map_of_mem (List.mem_append_left _ ((List.mem_erase_of_ne heq).mpr ha))
  · obtain ⟨hdone, hlocation⟩ := hs.active_mem victim hvictim
    have hkept : victim.hull ∈ s.kept done := State.mem_kept.mpr ⟨hdone, _, hlocation⟩
    rw [kept_concat (s := LinearScan.spill victim.hull.vreg s) rfl rfl hnew, kept_spill hs.vregs hdone]
    refine (List.erase_append_left [h] hkept).symm ▸ ?_
    exact hs.ahead.drop hsorted (hs.full hreach hnone) hstop (List.mem_append_left _ hkept)
      (hs.stop_le hstop hactive (Nat.le_of_lt hlt))

theorem Leading.evict : Leading budget reqs (done ++ [h]) h.start (LinearScan.evict h s) := by
  rw [LinearScan.evict]
  cases hfurthest : furthest? s.active with
  | none =>
    have hempty := furthest?_eq_none hfurthest
    exact hs.spill hnew hstop hsorted hreach hnone fun a ha ↦ absurd ha (by simp [hempty])
  | some victim =>
    have hactive := stop_le_of_furthest? hfurthest
    dsimp only
    split
    next hlt =>
      exact hs.inherit hnew hstop hsorted hreach hnone (mem_of_furthest? hfurthest) hactive hlt
    next hge =>
      exact hs.spill hnew hstop hsorted hreach hnone fun a ha ↦ (hactive a ha).trans (Nat.not_lt.mp hge)

end Place

/-- **One step of a scan** stays ahead. -/
theorem Leading.place (hs : Leading budget reqs done now s) (hle : now ≤ h.start)
    (hnew : h.vreg ∉ done.map (·.vreg)) (hstop : h.start ≤ h.stop)
    (hsorted : ∀ y ∈ done, y.start ≤ h.start) :
    Leading budget reqs (done ++ [h]) h.start (LinearScan.place s h) := by
  have hexpired := hs.expire hle
  rw [LinearScan.place]
  split
  next r pool hpool => exact hexpired.assign hnew hpool
  next hnone =>
    exact hexpired.evict hnew hstop hsorted (fun a ha ↦ (mem_active_expire.mp ha).2) hnone

/-- A scan is ahead of all choices among the hulls that it has placed. -/
theorem exists_leading (budget : Nat) (reqs : List (LocalKey × Nat)) {xs : List Hull}
    (hsorted : Upward xs) (hnodup : (xs.map (·.vreg)).Nodup) (hstops : ∀ x ∈ xs, x.start ≤ x.stop) :
    ∃ now, (∀ h, Upward (xs ++ [h]) → now ≤ h.start) ∧
      Leading budget reqs xs now
        (xs.foldl LinearScan.place { pool := .ofBudget budget, frame := .answer reqs }) := by
  induction xs using List.reverseRecOn with
  | nil => exact ⟨0, fun _ _ ↦ Nat.zero_le _, leading_start budget reqs⟩
  | append_singleton xs h ih =>
    obtain ⟨hbefore, -, hall⟩ := List.pairwise_append.mp hsorted
    obtain ⟨hstops, hstop⟩ := List.forall_mem_append.mp hstops
    obtain ⟨now, hnow, hleading⟩ := ih hbefore (List.map_append ▸ hnodup).of_append_left hstops
    have hself : h ∈ xs ++ [h] := List.mem_append_right _ List.mem_cons_self
    refine ⟨h.start, fun h' hsorted' ↦
      (List.pairwise_append.mp hsorted').2.2 h hself h' List.mem_cons_self, ?_⟩
    rw [List.foldl_concat]
    refine hleading.place (hnow h hsorted) (fun hmem ↦ ?_) (hstop h List.mem_cons_self)
      fun y hy ↦ hall y hy h List.mem_cons_self
    rw [List.map_append, List.nodup_append] at hnodup
    exact hnodup.2.2 _ hmem _ List.mem_cons_self rfl

/-! ## What a scan leaves behind -/

/-- Hulls in one register do not meet, so what is kept fits into the registers of the budget. -/
theorem Scanned.fits (hs : Scanned budget reqs done now s) : Fits (min budget 9) (s.kept done) := by
  have hlength : (s.pool.order.map Location.register).length ≤ min budget 9 := by
    rw [List.length_map, hs.order, List.length_take]
    exact Nat.le_refl _
  refine Fits.of_places (fun x ↦ s.location? x.vreg) hlength ((hs.vregs.of_map _).filter _)
    (fun x hx ↦ ?_) fun x hx y hy hne hmeets heq ↦ ?_
  · obtain ⟨-, r, hr⟩ := State.mem_kept.mp hx
    obtain ⟨d, hd, hlocation⟩ := exists_decision hr
    exact ⟨_, List.mem_map_of_mem (hs.decided d hd r hlocation), hr⟩
  · obtain ⟨hxdone, r, hr⟩ := State.mem_kept.mp hx
    have hydone := (State.mem_kept.mp hy).1
    obtain ⟨hxy, hyx⟩ := hmeets
    have hapart := hs.apart x hxdone y hydone hne r hr (heq.symm.trans hr)
    omega

/-- The hull of an interval does not end before it starts. -/
theorem start_le_stop (hsorted : ∀ i ∈ intervals, i.Sorted) : ∀ h ∈ hulls intervals, h.start ≤ h.stop := by
  intro h hh
  obtain ⟨i, hi, hstart, hstop⟩ := mem_hulls_iff.mp hh
  have hspans := hsorted i (List.mem_of_getElem? hi)
  obtain ⟨r, hr, hstart⟩ := Option.map_eq_some_iff.mp hstart
  obtain ⟨r', hr', hstop⟩ := Option.map_eq_some_iff.mp hstop
  obtain ⟨rs, hrs⟩ := List.getLast?_eq_some_iff.mp hr'
  rw [← hstart, ← hstop]
  have hupward := hspans.upward
  have hapart := hspans.apart
  rw [hrs] at hr hupward hapart
  cases rs with
  | nil =>
    obtain rfl : r' = r := Option.some.inj hr
    exact hupward r' List.mem_cons_self
  | cons q rs =>
    obtain rfl : q = r := Option.some.inj hr
    have hq := hupward q List.mem_cons_self
    have hr' := hupward r' (List.mem_append_right _ List.mem_cons_self)
    have hgap := (List.pairwise_append.mp hapart).2.2 q List.mem_cons_self r' List.mem_cons_self
    have hnext := le_nextPosition q.2
    omega

end LinearScan

open LinearScan

namespace Allocation

/-- The registers that are listed as spilled are those whose last location is a slot. -/
theorem mem_spilled {a : Allocation} {v : VReg} :
    v ∈ a.spilled ↔ ∃ slot, a.location? v = some (.stack slot) := by
  rw [spilled, List.mem_filter, List.mem_mergeSort, List.mem_eraseDups, List.mem_map]
  constructor
  · rintro ⟨-, hstack⟩
    cases hlocation : a.location? v with
    | none => simp [hlocation] at hstack
    | some l =>
      cases l with
      | register r => simp [hlocation, Location.isStack] at hstack
      | stack slot => exact ⟨slot, rfl⟩
  · rintro ⟨slot, hslot⟩
    obtain ⟨d, hd, -⟩ := Option.map_eq_some_iff.mp hslot
    have hsubject := List.find?_some hd
    refine ⟨⟨d, List.mem_reverse.mp (List.mem_of_find?_eq_some hd), beq_iff_eq.mp hsubject⟩, ?_⟩
    rw [hslot]
    rfl

theorem nodup_spilled (a : Allocation) : a.spilled.Nodup :=
  ((List.mergeSort_perm _ _).nodup_iff.mpr (nodup_eraseDups _)).filter _

end Allocation

section Spilled

variable {budget now : Nat} {reqs : List (LocalKey × Nat)} {done : List Hull}
  {s : LinearScan.State} {a : Allocation} (hs : Scanned budget reqs done now s) (ha : a.decisions = s.decisions)
include hs ha

/-- The hulls that a scan does not keep are those of the registers that are listed as spilled. -/
theorem LinearScan.Scanned.spilled_perm :
    a.spilled.Perm ((done.filter fun h ↦ !s.keeps h.vreg).map (·.vreg)) := by
  have hlocation : ∀ v, a.location? v = s.location? v := fun v ↦ by
    rw [Allocation.location?, ha]
    rfl
  refine (List.perm_ext_iff_of_nodup (Allocation.nodup_spilled _)
    (hs.vregs.sublist (List.filter_sublist.map _))).mpr fun v ↦ ?_
  rw [Allocation.mem_spilled, List.mem_map, hlocation]
  constructor
  · rintro ⟨slot, hslot⟩
    obtain ⟨h, hh, rfl⟩ := List.mem_map.mp ((hs.located v).mp (by rw [hslot]; rfl))
    exact ⟨h, List.mem_filter.mpr ⟨hh, by simp [State.keeps, hslot, Location.isStack]⟩, rfl⟩
  · rintro ⟨h, hh, rfl⟩
    obtain ⟨hh, hnot⟩ := List.mem_filter.mp hh
    obtain ⟨l, hl⟩ := Option.isSome_iff_exists.mp ((hs.located _).mpr (List.mem_map_of_mem hh))
    cases l with
    | register r => simp [State.keeps, hl, Location.isStack] at hnot
    | stack slot => exact ⟨slot, hl⟩

/-- What is left without the registers that are listed as spilled is what a scan keeps. -/
theorem LinearScan.Scanned.filter_spilled :
    (done.filter fun h ↦ decide (h.vreg ∉ a.spilled.toFinset)) = s.kept done := by
  refine List.filter_congr fun h hh ↦ ?_
  have hiff : h.vreg ∈ a.spilled ↔ s.keeps h.vreg = false := by
    rw [(hs.spilled_perm ha).mem_iff, List.mem_map]
    constructor
    · rintro ⟨x, hx, heq⟩
      rw [← heq]
      simpa using (List.mem_filter.mp hx).2
    · intro hnot
      exact ⟨h, List.mem_filter.mpr ⟨hh, by rw [hnot]; rfl⟩, rfl⟩
  simp [hiff]

end Spilled

/-- **Furthest-end eviction is optimal.** A scan moves as few registers to the frame as there are in a
smallest set of intervals without which no position is in the hulls of more than `k` intervals, where
`k` is the number of registers that the budget admits. No other way to give each interval one of `k`
registers or none, such that hulls which meet have different ones, keeps more of them in registers. -/
theorem LinearScan.run_spills_least (budget : Nat) (intervals : List Interval)
    (reqs : List (LocalKey × Nat)) (hsorted : ∀ i ∈ intervals, i.Sorted) :
    let a := (run budget intervals (.answer reqs)).1
    IsLeast {n | ∃ vs : Finset VReg, vs.card = n ∧
      Fits (min budget 9) ((hulls intervals).filter (·.vreg ∉ vs))} a.spilled.length ∧
    ∀ c : VReg → Option (Fin (min budget 9)), (∀ h ∈ hulls intervals, ∀ h' ∈ hulls intervals, h ≠ h' →
      h.Meets h' → ∀ r, c h.vreg = some r → c h'.vreg ≠ some r) →
      (hulls intervals).countP (fun h ↦ (c h.vreg).isSome) ≤
        (hulls intervals).countP fun h ↦ (a.location? h.vreg).any (!·.isStack) := by
  intro a
  obtain ⟨now, -, hscan⟩ := exists_leading budget reqs (sorted_hulls intervals) (nodup_hulls intervals)
    (start_le_stop hsorted)
  let s : LinearScan.State :=
    (hulls intervals).foldl place { pool := .ofBudget budget, frame := .answer reqs }
  have htotal : (hulls intervals).length = (s.kept (hulls intervals)).length + a.spilled.length := by
    rw [(hscan.spilled_perm (a := a) rfl).length_eq, List.length_map]
    exact List.length_eq_length_filter_add _
  refine ⟨⟨⟨a.spilled.toFinset, List.toFinset_card_of_nodup a.nodup_spilled, ?_⟩, ?_⟩, fun c hc ↦ ?_⟩
  · rw [hscan.filter_spilled (a := a) rfl]
    exact hscan.fits
  · -- what any such set leaves is no more than what the scan keeps
    rintro n ⟨vs, rfl, hfits⟩
    have hkept := hscan.ahead.length_le List.filter_sublist hfits
    have hremoved := length_le_of_removed (nodup_hulls intervals) vs
    exact Nat.le_of_add_le_add_left (htotal ▸ hremoved.trans (Nat.add_le_add_right hkept _))
  · rw [List.countP_eq_length_filter, List.countP_eq_length_filter]
    exact hscan.ahead.length_le List.filter_sublist
      (Fits.of_choice ((nodup_hulls intervals).of_map _) hc)

/-- Three intervals at once and two registers: one is moved to a slot, and one has to be. -/
theorem LinearScan.run_spills_least_three :
    (∀ i ∈ [Interval.mk [(0, 9)] [], .mk [(1, 4)] [], .mk [(2, 5)] []], i.Sorted) ∧
      IsLeast {n | ∃ vs : Finset VReg, vs.card = n ∧ Fits 2
        ((hulls [Interval.mk [(0, 9)] [], .mk [(1, 4)] [], .mk [(2, 5)] []]).filter (·.vreg ∉ vs))} 1 := by
  have hspan : ∀ lo hi, lo ≤ hi → (Interval.mk [(lo, hi)] []).Sorted := fun lo hi hle ↦
    ⟨by simpa using hle, List.pairwise_singleton _ _⟩
  have hsorted : ∀ i ∈ [Interval.mk [(0, 9)] [], .mk [(1, 4)] [], .mk [(2, 5)] []], i.Sorted := by
    simp [hspan]
  have hhulls : hulls [Interval.mk [(0, 9)] [], .mk [(1, 4)] [], .mk [(2, 5)] []] =
      [⟨0, 0, 9⟩, ⟨1, 1, 4⟩, ⟨2, 2, 5⟩] := List.mergeSort_of_pairwise (by decide)
  have hregisters : ([0, 1, 2] : List VReg).mergeSort = [0, 1, 2] :=
    List.mergeSort_of_pairwise (by decide)
  have hone : (run 2 [Interval.mk [(0, 9)] [], .mk [(1, 4)] [], .mk [(2, 5)] []]
      (.answer [])).1.spilled.length = 1 := by
    rw [run, hhulls]
    change (([0, 1, 2] : List VReg).mergeSort.filter _).length = 1
    rw [hregisters]
    rfl
  have hleast := (run_spills_least 2 _ [] hsorted).1
  rw [hone] at hleast
  exact ⟨hsorted, hleast⟩

end TreeCover
