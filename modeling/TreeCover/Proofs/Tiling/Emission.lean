import Mathlib.Data.List.Basic
import TreeCover.Proofs.Forest.Skeleton
import TreeCover.Proofs.Machine.Frame
import TreeCover.Proofs.Work.Success
import TreeCover.Workspace

/-!
# Emission

What the work of an action may do to the code: append instructions to the current block that read
only registers that are known, or that one of them wrote before, and that write only registers drawn
for the purpose. Such work is tidy, and tidy pieces of work make tidy work.
-/

namespace TreeCover

open Machine Work

variable {α β : Type} {w w₁ w' : Workspace} {is js : List Inst} {i : Inst}
  {given own : List VReg} {v : VReg} {m : Mem}

/-! ## Lists of instructions -/

/-- Each instruction reads only known registers and those that one before it wrote. -/
def ReadsFrom : (VReg → Prop) → List Inst → Prop
  | _, [] => True
  | known, i :: is => (∀ v ∈ i.uses, known v) ∧ ReadsFrom (fun v ↦ v ∈ i.defs ∨ known v) is

/-- The registers that instructions write. -/
def defsOf (is : List Inst) : List VReg := is.flatMap (·.defs)

theorem ReadsFrom.mono {known known' : VReg → Prop} (h : ReadsFrom known is)
    (hsub : ∀ v, known v → known' v) : ReadsFrom known' is := by
  induction is generalizing known known' with
  | nil => trivial
  | cons i is ih => exact ⟨fun v hv ↦ hsub v (h.1 v hv), ih h.2 fun v hv ↦ hv.imp_right (hsub v)⟩

theorem ReadsFrom.append {known : VReg → Prop} (h : ReadsFrom known is)
    (h' : ReadsFrom (fun v ↦ v ∈ defsOf is ∨ known v) js) : ReadsFrom known (is ++ js) := by
  induction is generalizing known with
  | nil => exact h'.mono fun v hv ↦ hv.resolve_left List.not_mem_nil
  | cons i is ih =>
    refine ⟨h.1, ih h.2 (h'.mono fun v hv ↦ ?_)⟩
    rw [defsOf, List.flatMap_cons, List.mem_append] at hv
    rcases hv with (hv | hv) | hv
    · exact Or.inr (Or.inl hv)
    · exact Or.inl hv
    · exact Or.inr (Or.inr hv)

/-- What an instruction reads was known, or written by one before it. -/
theorem ReadsFrom.getElem {known : VReg → Prop} (h : ReadsFrom known is) {k : Nat}
    (hk : is[k]? = some i) (hv : v ∈ i.uses) : known v ∨ ∃ i' ∈ is.take k, v ∈ i'.defs := by
  induction is generalizing known k with
  | nil => exact absurd hk (by simp)
  | cons j is ih =>
    cases k with
    | zero =>
      obtain rfl := Option.some.inj hk
      exact Or.inl (h.1 v hv)
    | succ k =>
      rcases ih h.2 hk with (hdef | hknown) | ⟨i', hi', hdef⟩
      · exact Or.inr ⟨j, List.mem_cons_self, hdef⟩
      · exact Or.inl hknown
      · exact Or.inr ⟨i', List.mem_cons_of_mem j hi', hdef⟩

theorem mem_defsOf : v ∈ defsOf is ↔ ∃ i ∈ is, v ∈ i.defs := List.mem_flatMap

/-! ## States -/

/-- Forests that differ only in how values are used. -/
def Forest.SameButRoles (f f' : Forest) : Prop :=
  f'.size = f.size ∧ ∀ k, ∃ roles, f'.node k = { f.node k with roles }

theorem Forest.SameButRoles.refl (f : Forest) : SameButRoles f f := ⟨rfl, fun _ ↦ ⟨_, rfl⟩⟩

theorem Forest.SameButRoles.trans {f f' f'' : Forest} (h : SameButRoles f f')
    (h' : SameButRoles f' f'') : SameButRoles f f'' := by
  refine ⟨h'.1.trans h.1, fun k ↦ ?_⟩
  obtain ⟨roles, hk⟩ := h.2 k
  obtain ⟨roles', hk'⟩ := h'.2 k
  exact ⟨roles', by rw [hk', hk]⟩

/-- All slots are addressed from the frame pointer. -/
def Machine.Frame.Addressed (f : Frame) : Prop := ∀ s ∈ f.slots, ∃ d, s.2 = .frame d

theorem Machine.Frame.Addressed.request {f : Frame} (h : f.Addressed) (key : LocalKey) (bytes : Nat) :
    (∃ d, (f.request key bytes).1 = .frame d) ∧ (f.request key bytes).2.Addressed := by
  rw [Frame.request]
  cases hslot : f.slot? key with
  | some m =>
    obtain ⟨_, _, hslots, -⟩ := List.lookup_eq_some_iff.mp hslot
    exact ⟨h (key, m) (hslots ▸ List.mem_append_right _ List.mem_cons_self), h⟩
  | none => exact ⟨⟨_, rfl⟩, List.forall_mem_cons.mpr ⟨⟨_, rfl⟩, h⟩⟩

theorem Machine.Frame.Addressed.extends {f f' : Frame} (h : f.Addressed) (hf : f.Extends f') :
    f'.Addressed := by
  obtain ⟨rooms, rfl⟩ := hf
  refine List.foldlRecOn (motive := Addressed) _ _ h fun f hf r _ ↦ ?_
  exact (hf.request (.value r.1) r.2).2

/-- From `w` to `w'` the instructions `is` are appended to the current block. -/
structure Emits (w w' : Workspace) (is : List Inst) : Prop where
  current : w'.code.current = w.code.current
  blocks : w'.code.blocks
    = w.code.blocks.modify w.code.current fun b ↦ { b with insts := b.insts ++ is }
  vregs : w.code.vregs ≤ w'.code.vregs
  frame : w.code.frame.Extends w'.code.frame
  labels : w'.labels = w.labels
  config : w'.session.config = w.session.config
  materialized : w'.materialized = w.materialized

theorem modify_append_nil (blocks : List Block) (b : Nat) :
    blocks.modify b (fun b ↦ { b with insts := b.insts ++ [] }) = blocks := by
  have hid : (fun b : Block ↦ { b with insts := b.insts ++ [] }) = id := by
    funext b
    rw [List.append_nil]
    rfl
  rw [hid, List.modify_id]

theorem Emits.refl (w : Workspace) : Emits w w [] :=
  ⟨rfl, (modify_append_nil _ _).symm, Nat.le_refl _, .refl _, rfl, rfl, rfl⟩

theorem Emits.trans (h : Emits w w₁ is) (h' : Emits w₁ w' js) : Emits w w' (is ++ js) where
  current := h'.current.trans h.current
  blocks := by
    rw [h'.blocks, h.blocks, h.current, List.modify_modify_eq]
    congr 1
    funext b
    simp
  vregs := Nat.le_trans h.vregs h'.vregs
  frame := h.frame.trans h'.frame
  labels := h'.labels.trans h.labels
  config := h'.config.trans h.config
  materialized := h'.materialized.trans h.materialized

/-! ## Tidy work -/

/-- Work that emits instructions which read only `given` registers and what they wrote before, and
write only `own` and new registers; its result mentions registers of `out`, which are known. -/
def Tidily (own given : List VReg) (x : Work α) (out : α → List VReg) : Prop :=
  ∀ w a w', w.code.frame.Addressed → x w = .ok a w' → ∃ is, Emits w w' is ∧
    w.forest.SameButRoles w'.forest ∧ ReadsFrom (· ∈ given) is ∧
    (∀ v ∈ defsOf is, v ∈ own ∨ w.code.vregs ≤ v ∧ v < w'.code.vregs) ∧
    ∀ v ∈ out a, v ∈ given ∨ v ∈ defsOf is

theorem Tidily.pure {a : α} {out : α → List VReg} (h : out a ⊆ given) :
    Tidily own given (Pure.pure a) out := by
  intro w a' w' _ hx
  obtain ⟨rfl, rfl⟩ := pure_eq_ok.mp hx
  exact ⟨[], .refl _, .refl _, trivial, fun v hv ↦ absurd hv List.not_mem_nil,
    fun v hv ↦ Or.inl (h hv)⟩

theorem Tidily.bind {x : Work α} {f : α → Work β} {mid : α → List VReg} {out : β → List VReg}
    (hx : Tidily own given x mid) (hf : ∀ a, Tidily own (mid a ++ given) (f a) out) :
    Tidily own given (x >>= f) out := by
  intro w b w' hframe h
  obtain ⟨a, w₁, ha, hb⟩ := bind_eq_ok.mp h
  obtain ⟨is, his, hforest, hreads, hdefs, hmid⟩ := hx w a w₁ hframe ha
  obtain ⟨js, hjs, hforest', hreads', hdefs', hout⟩ := hf a w₁ b w' (hframe.extends his.frame) hb
  have hknown : ∀ v ∈ mid a ++ given, v ∈ defsOf is ∨ v ∈ given := by
    intro v hv
    rcases List.mem_append.mp hv with hv | hv
    · exact (hmid v hv).symm
    · exact Or.inr hv
  refine ⟨is ++ js, his.trans hjs, hforest.trans hforest', hreads.append (hreads'.mono hknown),
    fun v hv ↦ ?_, fun v hv ↦ ?_⟩
  · rw [defsOf, List.flatMap_append, List.mem_append] at hv
    rcases hv with hv | hv
    · exact (hdefs v hv).imp_right fun ⟨hlo, hhi⟩ ↦ ⟨hlo, Nat.lt_of_lt_of_le hhi hjs.vregs⟩
    · exact (hdefs' v hv).imp_right fun ⟨hlo, hhi⟩ ↦ ⟨Nat.le_trans his.vregs hlo, hhi⟩
  · rw [defsOf, List.flatMap_append, List.mem_append]
    rcases hout v hv with hv | hv
    · exact (hknown v hv).symm.imp_right Or.inl
    · exact Or.inr (Or.inr hv)

theorem Tidily.throw {e : CompileError} {out : α → List VReg} :
    Tidily own given (throw e : Work α) out :=
  fun _ _ _ _ h ↦ absurd h throw_ne_ok

theorem Tidily.throw_bind {e : CompileError} {f : α → Work β} {out : β → List VReg} :
    Tidily own given ((MonadExcept.throw e : Work α) >>= f) out := by
  intro w b w' _ h
  obtain ⟨_, _, hthrow, -⟩ := bind_eq_ok.mp h
  exact absurd hthrow throw_ne_ok

theorem Tidily.mono {x : Work α} {out : α → List VReg} {own' given' : List VReg}
    (h : Tidily own given x out) (hown : own ⊆ own') (hgiven : given ⊆ given') :
    Tidily own' given' x out := by
  intro w a w' hframe hx
  obtain ⟨is, his, hforest, hreads, hdefs, hout⟩ := h w a w' hframe hx
  exact ⟨is, his, hforest, hreads.mono fun v hv ↦ hgiven hv, fun v hv ↦ (hdefs v hv).imp_left (hown ·),
    fun v hv ↦ (hout v hv).imp_left (hgiven ·)⟩

/-- Work that changes no part of the state that emission is about. -/
theorem Tidily.of_emits_nil {x : Work α} {out : α → List VReg}
    (h : ∀ w a w', x w = .ok a w' → Emits w w' [] ∧ w.forest.SameButRoles w'.forest ∧
      out a ⊆ given) : Tidily own given x out := by
  intro w a w' _ hx
  obtain ⟨hemits, hforest, hout⟩ := h w a w' hx
  exact ⟨[], hemits, hforest, trivial, fun v hv ↦ absurd hv List.not_mem_nil, fun v hv ↦ Or.inl (hout hv)⟩

/-- A new register may be written by what follows. -/
theorem Tidily.freshVReg {f : VReg → Work α} {out : α → List VReg}
    (hf : ∀ v, Tidily (v :: own) given (f v) out) :
    Tidily own given (Work.freshVReg >>= f) out := by
  intro w a w' hframe h
  obtain ⟨v, w₁, hv, ha⟩ := bind_eq_ok.mp h
  obtain ⟨rfl, rfl⟩ := modifyGet_eq_ok.mp hv
  obtain ⟨is, his, hforest, hreads, hdefs, hout⟩ :=
    hf w.code.vregs { w with code := w.code.freshVReg.2 } a w' hframe ha
  refine ⟨is, ⟨his.current, his.blocks, Nat.le_of_succ_le his.vregs, his.frame, his.labels,
    his.config, his.materialized⟩, hforest, hreads, fun u hu ↦ ?_, hout⟩
  rcases hdefs u hu with hu | ⟨hlo, hhi⟩
  · rcases List.mem_cons.mp hu with rfl | hu
    · exact Or.inr ⟨Nat.le_refl _, his.vregs⟩
    · exact Or.inl hu
  · exact Or.inr ⟨Nat.le_of_succ_le hlo, hhi⟩

theorem emits_emit {u : Unit} (h : emit i w = .ok u w') :
    Emits w w' [i] ∧ w'.forest = w.forest := by
  rw [emit, append] at h
  simp only [modifySession, report, modifyCode, bind_eq_ok, modify_eq_ok, get_eq_ok] at h
  obtain ⟨_, _, rfl, _, _, ⟨rfl, rfl⟩, _, _, rfl, rfl⟩ := h
  exact ⟨⟨rfl, rfl, Nat.le_refl _, .refl _, rfl, rfl, rfl⟩, rfl⟩

theorem Tidily.emit (huses : i.uses ⊆ given) (hdefs : i.defs ⊆ own) :
    Tidily own given (emit i) fun _ ↦ i.defs := by
  intro w u w' _ h
  have hdefsOf : defsOf [i] = i.defs := List.flatMap_singleton _ _
  obtain ⟨hemits, hforest⟩ := emits_emit h
  exact ⟨[i], hemits, hforest ▸ .refl _, ⟨fun v hv ↦ huses hv, trivial⟩, fun v hv ↦ Or.inl (hdefs (hdefsOf ▸ hv)),
    fun v hv ↦ Or.inr (hdefsOf ▸ hv)⟩

theorem Tidily.node (id : NodeId) : Tidily own given (Work.node id) fun _ ↦ [] := by
  refine .of_emits_nil fun w n w' h ↦ ?_
  simp only [Work.node, bind_eq_ok, get_eq_ok, pure_eq_ok] at h
  obtain ⟨_, _, ⟨rfl, rfl⟩, -, rfl⟩ := h
  exact ⟨.refl _, .refl _, List.nil_subset _⟩

theorem Tidily.get {f : Workspace → Work α} {out : α → List VReg}
    (hf : ∀ w, Tidily own given (f w) out) : Tidily own given (get >>= f) out := by
  intro w a w' hframe h
  obtain ⟨_, _, hget, ha⟩ := bind_eq_ok.mp h
  obtain ⟨rfl, rfl⟩ := get_eq_ok.mp hget
  exact hf _ _ a w' hframe ha

end TreeCover
