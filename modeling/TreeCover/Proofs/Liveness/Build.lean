import Mathlib.Data.List.Basic
import TreeCover.Liveness.Build
import TreeCover.Proofs.Liveness.Interval
import TreeCover.Proofs.Liveness.Sets

/-!
# Soundness of the live intervals

The intervals cover every position at which a register is live. For each block the pass covers
what its computed sets say, and the stretch over a loop what the sets leave out; what it covered
for one block is behind all that it cuts for the blocks before.
-/

namespace TreeCover

/-! ## What the pass does to the table

The pass changes a table of intervals in two ways. It stretches intervals, which loses nothing, and
at a definition it cuts one at position `2k + 1`, which loses only what lies before. Since blocks
and instructions are visited from last to first, every cut lies before all positions that were
established already. `KeepsFrom n` is this property of a step: nothing is lost from `n` on. -/

open Machine

namespace IntervalTable

variable {t t' t'' : IntervalTable} {u v : VReg} {n m p : Nat}

/-- Whether the interval of a register covers a position. -/
def Covers (t : IntervalTable) (v : VReg) (p : Nat) : Prop := (t.interval v).covers p = true

/-- All intervals have the form in which intervals are kept. -/
def Sorted (t : IntervalTable) : Prop := ∀ v, (t.interval v).Sorted

/-- Replacing `t` by `t'` keeps the form of the intervals and all covered positions from `n` on. -/
structure KeepsFrom (n : Nat) (t t' : IntervalTable) : Prop where
  sorted : t'.Sorted
  covers : ∀ v p, n ≤ p → t.Covers v p → t'.Covers v p

theorem KeepsFrom.refl (n : Nat) (ht : t.Sorted) : KeepsFrom n t t := ⟨ht, fun _ _ _ h ↦ h⟩

theorem KeepsFrom.trans (h : KeepsFrom n t t') (h' : KeepsFrom n t' t'') : KeepsFrom n t t'' :=
  ⟨h'.sorted, fun v p hp hv ↦ h'.covers v p hp (h.covers v p hp hv)⟩

theorem KeepsFrom.mono (h : KeepsFrom n t t') (hle : n ≤ m) : KeepsFrom m t t' :=
  ⟨h.sorted, fun v p hp hv ↦ h.covers v p (Nat.le_trans hle hp) hv⟩

theorem keepsFrom_foldl {α : Type} {f : IntervalTable → α → IntervalTable}
    (hf : ∀ t a, t.Sorted → KeepsFrom n t (f t a)) (l : List α) (ht : t.Sorted) :
    KeepsFrom n t (l.foldl f t) := by
  induction l generalizing t with
  | nil => exact .refl n ht
  | cons a l ih =>
    have hfirst := hf t a ht
    exact hfirst.trans (ih hfirst.sorted)

/-- What one step of a fold establishes lasts to its end, if the fold keeps it. -/
theorem covers_foldl {α : Type} {f : IntervalTable → α → IntervalTable} {a : α} {l : List α}
    (hf : ∀ t a, t.Sorted → KeepsFrom n t (f t a)) (ha : a ∈ l) (hp : n ≤ p)
    (hmade : ∀ t, t.Sorted → (f t a).Covers v p) (ht : t.Sorted) : (l.foldl f t).Covers v p := by
  induction l generalizing t with
  | nil => exact absurd ha List.not_mem_nil
  | cons b l ih =>
    have hfirst := hf t b ht
    rcases List.mem_cons.mp ha with rfl | ha
    · exact (keepsFrom_foldl hf l hfirst.sorted).covers v p hp (hmade t ht)
    · exact ih ha hfirst.sorted

/-! ## Single changes -/

/-- An entry of the table with room made for `v`. -/
private theorem getElem?_grown (t : IntervalTable) (v u : Nat) :
    (t ++ List.replicate (v + 1 - t.length) Interval.empty)[u]?.getD Interval.empty
      = t.interval u := by
  rw [interval]
  rcases Nat.lt_or_ge u t.length with hlt | hge
  · rw [List.getElem?_append_left hlt]
  · rw [List.getElem?_append_right hge, List.getElem?_replicate, List.getElem?_eq_none hge]
    split <;> rfl

theorem interval_update (t : IntervalTable) (v : VReg) (f : Interval → Interval) (u : VReg) :
    (t.update v f).interval u = if u = v then f (t.interval v) else t.interval u := by
  rw [interval, update, List.getElem?_modify]
  split
  next heq =>
    subst heq
    have hroom : v < (t ++ List.replicate (v + 1 - t.length) Interval.empty).length := by
      rw [List.length_append, List.length_replicate]
      exact Nat.lt_of_lt_of_le (Nat.lt_succ_self v) (by omega)
    rw [if_pos rfl, ← getElem?_grown t v v, List.getElem?_eq_getElem hroom]
    rfl
  next hne => rw [if_neg (Ne.symm hne), ← getElem?_grown t v u, id_map']

theorem interval_update_self (t : IntervalTable) (v : VReg) (f : Interval → Interval) :
    (t.update v f).interval v = f (t.interval v) := by
  rw [interval_update, if_pos rfl]

theorem interval_update_of_ne (t : IntervalTable) (f : Interval → Interval) (h : u ≠ v) :
    (t.update v f).interval u = t.interval u := by
  rw [interval_update, if_neg h]

/-- Changing one interval keeps what the change keeps. -/
theorem keepsFrom_update {f : Interval → Interval} (ht : t.Sorted)
    (hsorted : ∀ i : Interval, i.Sorted → (f i).Sorted)
    (hkept : ∀ i : Interval, i.Sorted → ∀ p, n ≤ p → i.covers p = true → (f i).covers p = true) :
    KeepsFrom n t (t.update v f) := by
  refine ⟨fun u ↦ ?_, fun u p hp hu ↦ ?_⟩
  · rw [interval_update]
    split
    · exact hsorted _ (ht v)
    · exact ht u
  · rw [Covers, interval_update]
    split
    next heq =>
      subst heq
      exact hkept _ (ht u) p hp hu
    next => exact hu

/-! ## Stretching -/

theorem keepsFrom_addRange (v : VReg) (a b : Nat) (ht : t.Sorted) :
    KeepsFrom 0 t (t.update v (·.addRange a b)) :=
  keepsFrom_update ht (fun _ h ↦ h.addRange a b)
    fun _ h _ _ hp ↦ (Interval.covers_addRange h a b).mpr (Or.inl hp)

theorem covers_addRange {a b : Nat} (ht : t.Sorted) (ha : a ≤ p) (hb : p ≤ b) :
    (t.update v (·.addRange a b)).Covers v p := by
  rw [Covers, interval_update_self, Interval.covers_addRange (ht v)]
  exact Or.inr ⟨by omega, by omega⟩

theorem keepsFrom_stretch (vs : List VReg) (a b : Nat) (ht : t.Sorted) :
    KeepsFrom 0 t (stretch t vs a b) :=
  keepsFrom_foldl (fun _ v ht ↦ keepsFrom_addRange v a b ht) vs ht

theorem covers_stretch {vs : List VReg} {a b : Nat} (ht : t.Sorted) (hv : v ∈ vs) (ha : a ≤ p)
    (hb : p ≤ b) : (stretch t vs a b).Covers v p :=
  covers_foldl (fun _ v ht ↦ keepsFrom_addRange v a b ht) hv (Nat.zero_le p)
    (fun _ ht ↦ covers_addRange ht ha hb) ht

theorem keepsFrom_definePhis (blocks : List Block) (block : Block) (last : Nat) (ht : t.Sorted) :
    KeepsFrom 0 t (definePhis blocks block last t) :=
  keepsFrom_foldl (fun _ _ ht ↦ keepsFrom_stretch _ last last ht) _ ht

/-- The destination of a phi is live at the end of a predecessor of its block. -/
theorem covers_definePhis {blocks : List Block} {block succ : Block} {s last : Nat} {phi : Phi}
    (hs : s ∈ block.succs) (hsucc : blocks[s]? = some succ) (hphi : phi ∈ succ.phis)
    (ht : t.Sorted) : (definePhis blocks block last t).Covers phi.dst last := by
  have hmem : succ ∈ block.succs.filterMap (blocks[·]?) := List.mem_filterMap.mpr ⟨s, hs, hsucc⟩
  have hdst : phi.dst ∈ succ.phis.map (·.dst) := List.mem_map_of_mem hphi
  exact covers_foldl (fun _ _ ht ↦ keepsFrom_stretch _ last last ht) hmem (Nat.zero_le last)
    (fun _ ht ↦ covers_stretch ht hdst (Nat.le_refl last) (Nat.le_refl last)) ht

/-! ## One instruction -/

/-- Cuts the intervals of the registers that instruction number `k` writes. -/
def cut (k : Nat) (t : IntervalTable) (d : VReg) : IntervalTable :=
  t.update d (·.startAt (2 * k + 1))

/-- Stretches the interval of a register that instruction number `k` reads. -/
def read (start k : Nat) (t : IntervalTable) (u : VReg) : IntervalTable :=
  t.update u fun i ↦ (i.addRange start (2 * k)).addUse (2 * k)

theorem keepsFrom_cut (k : Nat) (d : VReg) (ht : t.Sorted) : KeepsFrom (2 * k + 1) t (t.cut k d) :=
  keepsFrom_update ht (fun _ h ↦ h.startAt _)
    fun _ h _ hp hcov ↦ Interval.covers_startAt h (Or.inr ⟨hp, hcov⟩)

theorem covers_cut {k : Nat} (ht : t.Sorted) : (t.cut k v).Covers v (2 * k + 1) := by
  rw [Covers, cut, interval_update_self]
  exact Interval.covers_startAt (ht v) (Or.inl rfl)

theorem interval_foldl_cut {k : Nat} {ds : List VReg} (hv : v ∉ ds) :
    (ds.foldl (cut k) t).interval v = t.interval v := by
  induction ds generalizing t with
  | nil => rfl
  | cons d ds ih =>
    rw [List.mem_cons, not_or] at hv
    rw [List.foldl_cons, ih hv.2, cut, interval_update_of_ne t _ hv.1]

theorem keepsFrom_read (start k : Nat) (u : VReg) (ht : t.Sorted) :
    KeepsFrom 0 t (t.read start k u) :=
  keepsFrom_update ht (fun _ h ↦ h.addRange _ _)
    fun _ h _ _ hp ↦ (Interval.covers_addRange h _ _).mpr (Or.inl hp)

theorem covers_read {start k : Nat} (ht : t.Sorted) (hstart : start ≤ p) (hp : p ≤ 2 * k) :
    (t.read start k v).Covers v p := by
  rw [Covers, read, interval_update_self]
  exact (Interval.covers_addRange (ht v) _ _).mpr (Or.inr ⟨by omega, by omega⟩)

end IntervalTable

open Machine IntervalTable

/-! ## The instructions of a block -/

section Instructions

variable {t : IntervalTable} {live : List VReg} {v : VReg} {start k p : Nat}

private theorem foldl_prod {α β γ : Type} (f : α → γ → α) (g : β → γ → β) (l : List γ) (x : α)
    (y : β) : l.foldl (fun (x, y) c ↦ (f x c, g y c)) (x, y) = (l.foldl f x, l.foldl g y) := by
  induction l generalizing x y with
  | nil => rfl
  | cons c l ih => exact ih _ _

theorem passInst_eq (start k : Nat) (inst : Inst) (t : IntervalTable) (live : List VReg) :
    passInst start k inst t live =
      (inst.uses.foldl (IntervalTable.read start k) (inst.defs.foldl (cut k) t),
        liveBefore inst live) := by
  rw [passInst]
  exact (congrArg (inst.uses.foldl _) (foldl_prod (cut k) (fun (live : List VReg) d ↦ live.erase d) _ _ _)).trans
    (foldl_prod (IntervalTable.read start k) (fun (live : List VReg) u ↦ live.insert u) _ _ _)

theorem passInsts_snd (start k : Nat) (insts : List Inst) (t : IntervalTable) (live : List VReg) :
    (passInsts start k insts t live).2 = liveThrough insts live := by
  induction insts generalizing k with
  | nil => rfl
  | cons inst insts ih =>
    rw [passInsts]
    simp only
    rw [passInst_eq, ih]
    rfl

theorem keepsFrom_passInst (inst : Inst) (ht : t.Sorted) :
    KeepsFrom (2 * k + 1) t (passInst start k inst t live).1 := by
  have hcut := keepsFrom_foldl (fun _ d ht ↦ keepsFrom_cut k d ht) inst.defs ht
  have hread := keepsFrom_foldl (fun _ u ht ↦ keepsFrom_read start k u ht) inst.uses hcut.sorted
  rw [passInst_eq]
  exact hcut.trans (hread.mono (Nat.zero_le _))

theorem covers_passInst_of_mem_defs {inst : Inst} (ht : t.Sorted) (hv : v ∈ inst.defs) :
    (passInst start k inst t live).1.Covers v (2 * k + 1) := by
  have hcut := keepsFrom_foldl (fun _ d ht ↦ keepsFrom_cut k d ht) inst.defs ht
  have hread := keepsFrom_foldl (fun _ u ht ↦ keepsFrom_read start k u ht) inst.uses hcut.sorted
  have hmade := covers_foldl (fun _ d ht ↦ keepsFrom_cut k d ht) hv (Nat.le_refl _)
    (fun _ ht ↦ covers_cut ht) ht
  rw [passInst_eq]
  exact hread.covers v _ (Nat.zero_le _) hmade

/-- What is live before an instruction is covered from the start of the block to its reads. -/
theorem covers_passInst_of_mem_liveBefore {inst : Inst} (ht : t.Sorted) (hlive : live.Nodup)
    (hcovers : ∀ v ∈ live, t.Covers v p) (hv : v ∈ liveBefore inst live) (hstart : start ≤ p)
    (hp : p ≤ 2 * k) : (passInst start k inst t live).1.Covers v p := by
  have hcut := keepsFrom_foldl (fun _ d ht ↦ keepsFrom_cut k d ht) inst.defs ht
  have hread := keepsFrom_foldl (fun _ u ht ↦ keepsFrom_read start k u ht) inst.uses hcut.sorted
  rw [passInst_eq]
  rcases (mem_liveBefore hlive).mp hv with ⟨hv, hdef⟩ | huse
  · refine hread.covers v p (Nat.zero_le p) ?_
    rw [Covers, interval_foldl_cut hdef]
    exact hcovers v hv
  · exact covers_foldl (fun _ u ht ↦ keepsFrom_read start k u ht) huse (Nat.zero_le p)
      (fun _ ht ↦ covers_read ht hstart hp) hcut.sorted

/-- All that instructions want to be covered, the first of them having number `k`. -/
def InstsCovered (t : IntervalTable) (live : List VReg) (k : Nat) (insts : List Inst) : Prop :=
  ∀ i inst, insts[i]? = some inst →
    (∀ v ∈ liveThrough (insts.drop i) live, t.Covers v (2 * (k + i))) ∧
    (∀ v, v ∈ inst.defs ∨ v ∈ liveThrough (insts.drop (i + 1)) live →
      t.Covers v (2 * (k + i) + 1))

theorem InstsCovered.keep {t' : IntervalTable} {n : Nat} {insts : List Inst}
    (h : InstsCovered t live k insts) (hkeep : KeepsFrom n t t') (hn : n ≤ 2 * k) :
    InstsCovered t' live k insts := by
  intro i inst hinst
  obtain ⟨hbefore, hafter⟩ := h i inst hinst
  exact ⟨fun v hv ↦ hkeep.covers v _ (by omega) (hbefore v hv),
    fun v hv ↦ hkeep.covers v _ (by omega) (hafter v hv)⟩

theorem passInsts_spec (insts : List Inst) (hstart : start ≤ 2 * k) (ht : t.Sorted)
    (hlive : live.Nodup)
    (hcovers : ∀ v ∈ live, ∀ p, start ≤ p → p < 2 * (k + insts.length) → t.Covers v p) :
    KeepsFrom (2 * (k + insts.length) - 1) t (passInsts start k insts t live).1 ∧
    (∀ v ∈ liveThrough insts live, ∀ p, start ≤ p → p < 2 * k →
      (passInsts start k insts t live).1.Covers v p) ∧
    InstsCovered (passInsts start k insts t live).1 live k insts := by
  induction insts generalizing k with
  | nil =>
    refine ⟨.refl _ ht, fun v hv p hp hk ↦ hcovers v hv p hp (by simpa using hk), ?_⟩
    intro i inst hinst
    exact absurd hinst (by simp)
  | cons inst insts ih =>
    rw [List.length_cons] at hcovers ⊢
    obtain ⟨hkeep, hrest, hinsts⟩ := @ih (k + 1) (by omega)
      fun v hv p hp hlt ↦ hcovers v hv p hp (by omega)
    have hnodup := nodup_liveThrough hlive insts
    have hpass : passInsts start k (inst :: insts) t live =
        passInst start k inst (passInsts start (k + 1) insts t live).1 (liveThrough insts live) := by
      rw [passInsts, ← passInsts_snd start (k + 1) insts t live]
    rw [hpass]
    have hlast := @keepsFrom_passInst _ (liveThrough insts live) start k inst hkeep.sorted
    have hbefore : ∀ v ∈ liveThrough (inst :: insts) live, ∀ p, start ≤ p → p ≤ 2 * k →
        (passInst start k inst (passInsts start (k + 1) insts t live).1
          (liveThrough insts live)).1.Covers v p := by
      intro v hv p hp hle
      exact covers_passInst_of_mem_liveBefore hkeep.sorted hnodup
        (fun v hv ↦ hrest v hv p hp (by omega)) hv hp hle
    refine ⟨⟨hlast.sorted, fun v p hp hv ↦ ?_⟩, fun v hv p hp hlt ↦ hbefore v hv p hp (by omega), ?_⟩
    · exact hlast.covers v p (by omega) (hkeep.covers v p (by omega) hv)
    · intro i inst' hinst'
      cases i with
      | zero =>
        obtain rfl := Option.some.inj hinst'
        refine ⟨fun v hv ↦ hbefore v hv (2 * k) hstart (Nat.le_refl _), fun v hv ↦ ?_⟩
        rcases hv with hdef | hv
        · exact covers_passInst_of_mem_defs hkeep.sorted hdef
        · exact hlast.covers v _ (Nat.le_refl _) (hrest v hv (2 * k + 1) (by omega) (by omega))
      | succ i =>
        have hmoved := (hinsts.keep hlast (by omega)) i inst' hinst'
        rwa [Nat.add_assoc, Nat.add_comm 1 i] at hmoved

end Instructions

/-! ## One block -/

section Blocks

variable {blocks : List Block} {block : Block} {ranges : List BlockRange} {loops : Loops}
  {t t' : IntervalTable} {b n : Nat}

/-- All that the block at `b` wants to be covered, its first instruction having number `n`. -/
structure BlockCovered (blocks : List Block) (ranges : List BlockRange) (loops : Loops)
    (t : IntervalTable) (b n : Nat) (block : Block) : Prop where
  insts : InstsCovered t (exitSet blocks b block) n block.insts
  phis : ∀ s ∈ block.succs, ∀ succ, blocks[s]? = some succ → ∀ phi ∈ succ.phis,
    t.Covers phi.dst (BlockRange.last ⟨2 * n, 2 * (n + block.insts.length)⟩)
  loop : ∀ e range, loops.loopEnd? b = some e → ranges[e]? = some range →
    ∀ v ∈ entrySet blocks b, ∀ p, 2 * n ≤ p → p ≤ range.last → t.Covers v p

theorem BlockCovered.keep {m : Nat} (h : BlockCovered blocks ranges loops t b n block)
    (hkeep : KeepsFrom m t t') (hm : m ≤ 2 * n) :
    BlockCovered blocks ranges loops t' b n block where
  insts := h.insts.keep hkeep hm
  phis s hs succ hsucc phi hphi := by
    refine hkeep.covers _ _ ?_ (h.phis s hs succ hsucc phi hphi)
    exact Nat.le_trans hm (Nat.le_max_right _ _)
  loop e range he hrange v hv p hp hlast :=
    hkeep.covers v p (by omega) (h.loop e range he hrange v hv p hp hlast)

/-- The table after the block at `b`, before loops are stretched. -/
def blockTable (blocks : List Block) (b n : Nat) (block : Block) (t : IntervalTable) :
    IntervalTable :=
  let last := BlockRange.last ⟨2 * n, 2 * (n + block.insts.length)⟩
  let live := exitSet blocks b block
  (passInsts (2 * n) n block.insts
    (stretch (definePhis blocks block last t) live (2 * n) last) live).1

theorem blockTable_spec (blocks : List Block) (b n : Nat) (block : Block) (ht : t.Sorted) :
    KeepsFrom (2 * (n + block.insts.length)) t (blockTable blocks b n block t) ∧
    InstsCovered (blockTable blocks b n block t) (exitSet blocks b block) n block.insts ∧
    ∀ s ∈ block.succs, ∀ succ, blocks[s]? = some succ → ∀ phi ∈ succ.phis,
      (blockTable blocks b n block t).Covers phi.dst
        (BlockRange.last ⟨2 * n, 2 * (n + block.insts.length)⟩) := by
  have hlast : BlockRange.last ⟨2 * n, 2 * (n + block.insts.length)⟩
      = max (2 * (n + block.insts.length) - 1) (2 * n) := rfl
  rw [blockTable]
  generalize BlockRange.last ⟨2 * n, 2 * (n + block.insts.length)⟩ = last at hlast
  have hdefine := keepsFrom_definePhis blocks block last ht
  have hstretch := keepsFrom_stretch (exitSet blocks b block) (2 * n) last hdefine.sorted
  obtain ⟨hpass, -, hinsts⟩ := passInsts_spec block.insts (Nat.le_refl (2 * n)) hstretch.sorted
    (nodup_exitSet blocks b block) fun v hv q hq hlt ↦
      covers_stretch hdefine.sorted hv hq (by omega)
  refine ⟨?_, hinsts, fun s hs succ hsucc phi hphi ↦ ?_⟩
  · exact (hdefine.trans hstretch).mono (Nat.zero_le _) |>.trans (hpass.mono (by omega))
  · have hmade := @covers_definePhis t blocks block succ s last phi hs hsucc hphi ht
    exact hpass.covers _ last (by omega) (hstretch.covers _ last (Nat.zero_le _) hmade)

/-- A visit to the block at `b`, in terms of the computed sets. -/
theorem passBlock_eq {p : LivenessPass} (hblock : blocks[b]? = some block)
    (hrange : ranges[b]? = some ⟨2 * n, 2 * (n + block.insts.length)⟩)
    (hlater : p.liveIn = (entrySets blocks).drop (b + 1)) :
    passBlock blocks ranges loops b block p =
      match loops.loopEnd? b with
      | some e =>
        let last := (ranges[e]?.map (·.last)).getD
          (BlockRange.last ⟨2 * n, 2 * (n + block.insts.length)⟩)
        { intervals :=
            stretch (blockTable blocks b n block p.intervals) (entrySet blocks b) (2 * n) last
          liveIn := entrySet blocks b :: p.liveIn
          extensions := p.extensions ++ [⟨b, (entrySet blocks b).length, last⟩] }
      | none =>
        { p with
          intervals := blockTable blocks b n block p.intervals
          liveIn := entrySet blocks b :: p.liveIn } := by
  have hlive : liveOut blocks p.liveIn b block = exitSet blocks b block := by rw [hlater, exitSet]
  have hentry : block.phis.foldl (fun live phi ↦ live.erase phi.dst)
      (liveThrough block.insts (exitSet blocks b block)) = entrySet blocks b := by
    rw [entrySet_eq hblock, removeAll, List.foldl_map]
  rw [passBlock, hrange]
  simp only [Option.getD_some, hlive, Nat.mul_div_cancel_left n Nat.two_pos]
  rw [passInsts_snd, hentry]
  rfl

theorem passBlock_spec {p : LivenessPass} (hblock : blocks[b]? = some block)
    (hrange : ranges[b]? = some ⟨2 * n, 2 * (n + block.insts.length)⟩)
    (hlater : p.liveIn = (entrySets blocks).drop (b + 1)) (hp : p.intervals.Sorted) :
    (passBlock blocks ranges loops b block p).liveIn = (entrySets blocks).drop b ∧
    KeepsFrom (2 * (n + block.insts.length)) p.intervals
      (passBlock blocks ranges loops b block p).intervals ∧
    BlockCovered blocks ranges loops (passBlock blocks ranges loops b block p).intervals b n
      block := by
  have hliveIn : entrySet blocks b :: p.liveIn = (entrySets blocks).drop b := by
    rw [hlater, drop_entrySets_eq_cons hblock]
  obtain ⟨hkeep, hinsts, hphis⟩ := blockTable_spec blocks b n block hp
  rw [passBlock_eq hblock hrange hlater, ← hliveIn]
  cases hend : loops.loopEnd? b with
  | none =>
    refine ⟨rfl, hkeep, hinsts, hphis, fun e range he ↦ ?_⟩
    rw [hend] at he
    exact absurd he (by simp)
  | some e =>
    simp only
    generalize hlast : (ranges[e]?.map (·.last)).getD _ = last
    have hstretch := keepsFrom_stretch (entrySet blocks b) (2 * n) last hkeep.sorted
    refine ⟨trivial, hkeep.trans (hstretch.mono (Nat.zero_le _)),
      hinsts.keep hstretch (Nat.zero_le _), fun s hs succ hsucc phi hphi ↦ ?_, ?_⟩
    · exact hstretch.covers _ _ (Nat.zero_le _) (hphis s hs succ hsucc phi hphi)
    · intro e' range he' hrange' v hv p hp hle
      obtain rfl := Option.some.inj (hend.symm.trans he')
      rw [hrange', Option.map_some, Option.getD_some] at hlast
      exact covers_stretch hkeep.sorted hv hp (by omega)

/-! ## All blocks -/

/-- The number of the first instruction of block `b`. -/
def firstInst (blocks : List Block) (b : Nat) : Nat := ((blocks.take b).flatMap (·.insts)).length

theorem firstInst_succ (hblock : blocks[b]? = some block) :
    firstInst blocks (b + 1) = firstInst blocks b + block.insts.length := by
  rw [firstInst, List.take_add_one, hblock, Option.toList_some, List.flatMap_append,
    List.length_append, List.flatMap_singleton, firstInst]

theorem firstInst_mono (blocks : List Block) {a b : Nat} (h : a ≤ b) :
    firstInst blocks a ≤ firstInst blocks b := by
  rw [firstInst, firstInst]
  exact (List.Sublist.flatMap (List.take_prefix_take_left h).sublist _).length_le

theorem drop_blockRanges (blocks : List Block) (b : Nat) :
    (blockRanges blocks).drop b = blockRangesFrom (firstInst blocks b) (blocks.drop b) := by
  induction b with
  | zero => rfl
  | succ b ih =>
    rw [← List.drop_drop, ih]
    cases hblock : blocks[b]? with
    | none =>
      have hlen := List.getElem?_eq_none_iff.mp hblock
      rw [List.drop_eq_nil_of_le hlen, blockRangesFrom, List.drop_nil,
        List.drop_eq_nil_of_le (Nat.le_succ_of_le hlen), blockRangesFrom]
    | some block =>
      obtain ⟨hlt, rfl⟩ := List.getElem?_eq_some_iff.mp hblock
      rw [List.drop_eq_getElem_cons hlt, blockRangesFrom, firstInst_succ hblock,
        List.drop_one, List.tail_cons]

theorem getElem?_blockRanges (hblock : blocks[b]? = some block) :
    (blockRanges blocks)[b]? =
      some ⟨2 * firstInst blocks b, 2 * (firstInst blocks b + block.insts.length)⟩ := by
  obtain ⟨hlt, rfl⟩ := List.getElem?_eq_some_iff.mp hblock
  have hhead : (blockRanges blocks)[b]? = ((blockRanges blocks).drop b)[0]? := by
    rw [List.getElem?_drop, Nat.add_zero]
  rw [hhead, drop_blockRanges, List.drop_eq_getElem_cons hlt, blockRangesFrom]
  rfl

/-- After the blocks from `b` on, all of them are covered. -/
theorem passBlocks_spec (ht : t.Sorted) {rest : List Block} (hrest : blocks.drop b = rest) :
    (passBlocks blocks (blockRanges blocks) loops t b rest).liveIn = (entrySets blocks).drop b ∧
    (passBlocks blocks (blockRanges blocks) loops t b rest).intervals.Sorted ∧
    ∀ a block, b ≤ a → blocks[a]? = some block → BlockCovered blocks (blockRanges blocks) loops
      (passBlocks blocks (blockRanges blocks) loops t b rest).intervals a (firstInst blocks a)
      block := by
  induction rest generalizing b with
  | nil =>
    refine ⟨?_, ht, fun a block hle hblock ↦ ?_⟩
    · rw [drop_entrySets, hrest, entrySetsFrom, passBlocks]
    · have hlen := List.drop_eq_nil_iff.mp hrest
      have := (List.getElem?_eq_some_iff.mp hblock).1
      omega
  | cons block rest ih =>
    have hblock : blocks[b]? = some block := by
      rw [← Nat.add_zero b, ← List.getElem?_drop, hrest]
      rfl
    have hdrop : blocks.drop (b + 1) = rest := by rw [← List.drop_drop, hrest]; rfl
    obtain ⟨hlive, hsorted, hcovered⟩ := ih hdrop
    obtain ⟨hlive', hkeep, hhere⟩ := @passBlock_spec blocks block (blockRanges blocks) loops b
      (firstInst blocks b) _ hblock (getElem?_blockRanges hblock) hlive hsorted
    refine ⟨hlive', hkeep.sorted, fun a block' hle hblock' ↦ ?_⟩
    rcases Nat.eq_or_lt_of_le hle with rfl | hlt
    · obtain rfl := Option.some.inj (hblock.symm.trans hblock')
      exact hhere
    · have hmono := firstInst_mono blocks hlt
      rw [firstInst_succ hblock] at hmono
      exact (hcovered a block' hlt hblock').keep hkeep (by omega)

end Blocks

/-! ## Soundness -/

namespace Liveness

variable {blocks : List Block} {block : Block} {vregs b : Nat}

/-- Whether the interval of a register covers a position. -/
def Covers (l : Liveness) (v : VReg) (p : Nat) : Prop := l.intervals.Covers v p

theorem covers_build (blocks : List Block) (loops : Loops) (vregs : Nat) (v : VReg) (p : Nat) :
    (build blocks loops vregs).Covers v p ↔
      (passBlocks blocks (blockRanges blocks) loops (List.replicate vregs Interval.empty) 0
        blocks).intervals.Covers v p := by
  rw [Covers, build, IntervalTable.Covers, IntervalTable.Covers, interval, interval]
  simp only [List.getElem?_map]
  cases (passBlocks blocks (blockRanges blocks) loops (List.replicate vregs Interval.empty) 0
    blocks).intervals[v]? <;> rfl

theorem sorted_replicate (vregs : Nat) :
    IntervalTable.Sorted (List.replicate vregs Interval.empty) := by
  intro v
  rw [interval, List.getElem?_replicate]
  split <;> exact Interval.sorted_empty

/-- The finished intervals cover all that each block wants. -/
theorem blockCovered_build (loops : Loops) (vregs : Nat) (hblock : blocks[b]? = some block) :
    ∃ t : IntervalTable, (∀ v p, (build blocks loops vregs).Covers v p ↔ t.Covers v p) ∧
      BlockCovered blocks (blockRanges blocks) loops t b (firstInst blocks b) block := by
  obtain ⟨-, -, hcovered⟩ := @passBlocks_spec blocks loops _ 0 (sorted_replicate vregs) blocks
    List.drop_zero
  exact ⟨_, covers_build blocks loops vregs, hcovered b block (Nat.zero_le b) hblock⟩

/-- What is live around a loop is covered over the whole of each of its blocks, but for those that
stand before its header. -/
theorem covers_of_liveAround {v : VReg} {p t h : Nat}
    (hback : (t, h) ∈ (Loops.of (blockGraph blocks)).backEdges)
    (hbody : b ∈ (blockGraph blocks).loopBody t h) (hv : v ∈ entrySet blocks h) (hle : h ≤ b)
    (hblock : blocks[b]? = some block) (hstart : 2 * firstInst blocks b ≤ p)
    (hstop : p < 2 * (firstInst blocks b + block.insts.length)) :
    (build blocks (Loops.of (blockGraph blocks)) vregs).Covers v p := by
  obtain ⟨e, he, hle'⟩ := Loops.exists_loopEnd hback hbody
  have hlen : e < blocks.length := by
    have := Loops.loopEnd_lt_length he
    rwa [blockGraph, List.length_map] at this
  have hblt := (List.getElem?_eq_some_iff.mp hblock).1
  have hheader : blocks[h]? = some blocks[h] := List.getElem?_eq_getElem (by omega)
  have hrange := getElem?_blockRanges (List.getElem?_eq_getElem hlen)
  obtain ⟨t, hcovers, -, -, hloop⟩ :=
    blockCovered_build (Loops.of (blockGraph blocks)) vregs hheader
  refine (hcovers v p).mpr (hloop e _ he hrange v hv p ?_ ?_)
  · have := firstInst_mono blocks hle
    omega
  · rcases Nat.eq_or_lt_of_le hle' with rfl | hlt
    · rw [List.getElem?_eq_getElem hlen] at hblock
      rw [Option.some.inj hblock]
      exact Nat.le_trans (Nat.le_sub_one_of_lt hstop) (Nat.le_max_left _ _)
    · have := firstInst_mono blocks hlt
      rw [firstInst_succ hblock] at this
      have hbefore : p ≤ 2 * firstInst blocks e := by omega
      exact Nat.le_trans hbefore (Nat.le_max_right _ _)

/-- Where a register that turns at loops only is live, it is covered, if the block does not stand
before the header of a loop around which the register is live. -/
theorem covers_of_turnsAtLoops {v : VReg} (hturns : TurnsAtLoops blocks v)
    (hreach : (blockGraph blocks).Reachable b) (hblock : blocks[b]? = some block)
    (hbehind : ∀ t h, (t, h) ∈ (Loops.of (blockGraph blocks)).backEdges →
      b ∈ (blockGraph blocks).loopBody t h → v ∈ entrySet blocks h → h ≤ b)
    {i : Nat} {inst : Inst} (hinst : block.insts[i]? = some inst) :
    (LiveAt blocks v b i → (build blocks (Loops.of (blockGraph blocks)) vregs).Covers v
      (2 * (firstInst blocks b + i))) ∧
    (v ∈ inst.defs ∨ LiveAt blocks v b (i + 1) →
      (build blocks (Loops.of (blockGraph blocks)) vregs).Covers v
        (2 * (firstInst blocks b + i) + 1)) := by
  have hi := (List.getElem?_eq_some_iff.mp hinst).1
  have haround {p : Nat} (h : LiveAround blocks v b) (hstart : 2 * firstInst blocks b ≤ p)
      (hstop : p < 2 * (firstInst blocks b + block.insts.length)) :
      (build blocks (Loops.of (blockGraph blocks)) vregs).Covers v p := by
    obtain ⟨t, h, hback, hbody, hv⟩ := h
    exact covers_of_liveAround hback hbody hv (hbehind t h hback hbody hv) hblock hstart hstop
  obtain ⟨t, hcovers, hinsts, -, -⟩ :=
    blockCovered_build (Loops.of (blockGraph blocks)) vregs hblock
  refine ⟨fun hv ↦ ?_, fun hv ↦ ?_⟩
  · rcases hv.mem_liveThrough_or_around hturns hreach hblock with hlive | hloop
    · exact (hcovers v _).mpr ((hinsts i inst hinst).1 v hlive)
    · exact haround hloop (by omega) (by omega)
  · rcases hv with hdef | hv
    · exact (hcovers v _).mpr ((hinsts i inst hinst).2 v (Or.inl hdef))
    · rcases hv.mem_liveThrough_or_around hturns hreach hblock with hlive | hloop
      · exact (hcovers v _).mpr ((hinsts i inst hinst).2 v (Or.inr hlive))
      · exact haround hloop (by omega) (by omega)

section Sound

variable (hforward : (Loops.of (blockGraph blocks)).isForwardLayout = true)
  (hred : (Loops.of (blockGraph blocks)).Reducible) (hreach : (blockGraph blocks).Reachable b)
  (hblock : blocks[b]? = some block)

include hforward hred hreach hblock

private theorem covers_forward (v : VReg) {i : Nat} {inst : Inst}
    (hinst : block.insts[i]? = some inst) :
    (LiveAt blocks v b i → (build blocks (Loops.of (blockGraph blocks)) vregs).Covers v
      (2 * (firstInst blocks b + i))) ∧
    (v ∈ inst.defs ∨ LiveAt blocks v b (i + 1) →
      (build blocks (Loops.of (blockGraph blocks)) vregs).Covers v
        (2 * (firstInst blocks b + i) + 1)) := by
  refine covers_of_turnsAtLoops (turnsAtLoops_of_forward hforward v) hreach hblock
    (fun t h hback hbody _ ↦ ?_) hinst
  obtain ⟨-, -, hle, -⟩ := Loops.loop_between hforward hred hback hbody hreach
  exact hle

private theorem covers_before {i : Nat} {inst : Inst} (hinst : block.insts[i]? = some inst)
    {v : VReg} (hv : LiveAt blocks v b i) :
    (build blocks (Loops.of (blockGraph blocks)) vregs).Covers v (2 * (firstInst blocks b + i)) :=
  (covers_forward hforward hred hreach hblock v hinst).1 hv

private theorem covers_after {i : Nat} {inst : Inst} (hinst : block.insts[i]? = some inst)
    {v : VReg} (hv : v ∈ inst.defs ∨ LiveAt blocks v b (i + 1)) :
    (build blocks (Loops.of (blockGraph blocks)) vregs).Covers v
      (2 * (firstInst blocks b + i) + 1) :=
  (covers_forward hforward hred hreach hblock v hinst).2 hv

end Sound

/-- The destination of a phi is covered at the end of every predecessor. -/
theorem covers_phi_dst (loops : Loops) {a : Nat} {pred : Block} (hpred : blocks[a]? = some pred)
    (hedge : b ∈ pred.succs) (hblock : blocks[b]? = some block) {phi : Phi}
    (hphi : phi ∈ block.phis) :
    (build blocks loops vregs).Covers phi.dst
      (BlockRange.last ⟨2 * firstInst blocks a, 2 * (firstInst blocks a + pred.insts.length)⟩) := by
  obtain ⟨t, hcovers, -, hphis, -⟩ := blockCovered_build loops vregs hpred
  exact (hcovers _ _).mpr (hphis b hedge block hblock phi hphi)

/-- **Soundness in one pass.** In a forward layout with reducible loops, the intervals built for a
reachable block cover each register where it is read or live before an instruction, where it is
written or live behind one, and at the end of the predecessors if a phi of the block writes it. -/
theorem build_sound (blocks : List Block) (vregs : Nat)
    (hforward : (Loops.of (blockGraph blocks)).isForwardLayout = true)
    (hred : (Loops.of (blockGraph blocks)).Reducible) {b : Nat} {block : Block}
    (hreach : (blockGraph blocks).Reachable b) (hblock : blocks[b]? = some block) :
    (∀ i inst, block.insts[i]? = some inst → ∀ v,
      (v ∈ inst.uses ∨ LiveAt blocks v b i →
        (build blocks (Loops.of (blockGraph blocks)) vregs).Covers v
          (2 * (firstInst blocks b + i))) ∧
      (v ∈ inst.defs ∨ LiveAt blocks v b (i + 1) →
        (build blocks (Loops.of (blockGraph blocks)) vregs).Covers v
          (2 * (firstInst blocks b + i) + 1))) ∧
    ∀ phi ∈ block.phis, ∀ a pred, blocks[a]? = some pred → b ∈ pred.succs →
      (build blocks (Loops.of (blockGraph blocks)) vregs).Covers phi.dst
        (BlockRange.last
          ⟨2 * firstInst blocks a, 2 * (firstInst blocks a + pred.insts.length)⟩) := by
  refine ⟨fun i inst hinst v ↦ ⟨fun hv ↦ ?_, fun hv ↦ ?_⟩, fun phi hphi a pred hpred hedge ↦ ?_⟩
  · have hlive : LiveAt blocks v b i := hv.elim (LiveAt.read hblock hinst) id
    exact covers_before hforward hred hreach hblock hinst hlive
  · exact covers_after hforward hred hreach hblock hinst hv
  · exact covers_phi_dst _ hpred hedge hblock hphi

/-- A block that loops to itself and reads, in its first instruction only, a register set before
the loop. -/
def countdown : List Block :=
  [{ id := 0, succs := [1], insts := [moveTo 0 (.imm 9), moveTo 1 (.imm 1)] },
    { id := 1, succs := [1, 2], phis := [⟨2, [(.vreg 0, 0), (.vreg 3, 1)]⟩],
      insts := [.update "subq" [.vreg 1, .vreg 2], moveTo 3 (.vreg 2)] },
    { id := 2, succs := [], insts := [{ mnemonic := "ret", operands := [], kind := .ret }] }]

/-- Behind the last instruction of the loop no later instruction reads register `1`; it is live
there because the loop may run again. -/
theorem countdown_covers_step :
    (Loops.of (blockGraph countdown)).isForwardLayout = true ∧
      (Loops.of (blockGraph countdown)).Reducible ∧ (blockGraph countdown).Reachable 1 ∧
      (build countdown (Loops.of (blockGraph countdown)) 4).Covers 1 7 := by
  have hforward : (Loops.of (blockGraph countdown)).isForwardLayout = true := by decide
  have hred : (Loops.of (blockGraph countdown)).Reducible := by
    have hback : (Loops.of (blockGraph countdown)).backEdges = [(1, 1)] := by decide
    intro t h he
    rw [hback, List.mem_singleton, Prod.mk.injEq] at he
    obtain ⟨rfl, rfl⟩ := he
    exact .refl _ 1
  have hreach : (blockGraph countdown).Reachable 1 := (FlowGraph.Reachable.entry _).step ⟨by decide, by decide⟩
  have hread : LiveAt countdown 1 1 0 :=
    @LiveAt.read countdown 1 1 0 countdown[1] countdown[1].insts[0] rfl rfl (by decide)
  have hlive : LiveAt countdown 1 1 2 :=
    @LiveAt.edge countdown 1 1 1 countdown[1] countdown[1] rfl (by decide) rfl (by decide) hread
  obtain ⟨hinsts, -⟩ := build_sound countdown 4 hforward hred hreach rfl
  exact ⟨hforward, hred, hreach, (hinsts 1 _ rfl 1).2 (Or.inr hlive)⟩

end Liveness

end TreeCover
