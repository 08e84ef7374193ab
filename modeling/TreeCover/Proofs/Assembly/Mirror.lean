import TreeCover.Proofs.Assembly.Places
import TreeCover.Proofs.Assembly.Rewritable

/-!
# Virtual registers in their places

The code that selection emits and the code that is left once its registers have places run on the
same machine. A state of the one mirrors a state of the other if every virtual register is found in
its place, as far as it is needed, and all else is the same: the registers that no value lives in,
the flags, and the memory apart from the slots that are places. `rax` is the same only while it
carries a value; otherwise it is free for repairs, as `r10` and `r11` always are.

How much of a register is needed is a number of low bytes: a register of which one byte was written
is only good for that byte.
-/

namespace TreeCover

open Machine

variable {a : Allocation} {vs ts : List VReg} {need live : VReg → Nat} {carried carried' : Bool}
  {s p p' p₁ : Core} {r q : PhysReg} {t u v : VReg} {l : Location} {d : Int} {n : Nat} {w x : Word}
  {rs : List PhysReg}

/-! ## Places on the machine -/

namespace Machine.Core

/-- The word in a location. -/
def content (s : Core) : Location → Word
  | .register r => s.regs (.phys r)
  | .stack slot => s.mem.word (s.address slot)

/-- The address of a slot of the frame. -/
def slot (s : Core) (d : Int) : Word := s.regs (.phys .rbp) + BitVec.ofInt 64 d

theorem address_frame : s.address (.frame d) = s.slot d := BitVec.add_zero _

@[simp]
theorem content_register : s.content (.register r) = s.regs (.phys r) := rfl

theorem content_frame : s.content (.stack (.frame d)) = s.mem.word (s.slot d) := by
  rw [content, address_frame]

/-- Only some physical registers differ. -/
structure AgreeBut (rs : List PhysReg) (s s' : Core) : Prop where
  regs : ∀ r ∉ rs, s'.regs (.phys r) = s.regs (.phys r)
  mem : s'.mem = s.mem
  flags : s'.flags = s.flags

theorem AgreeBut.refl (rs : List PhysReg) (s : Core) : AgreeBut rs s s := ⟨fun _ _ ↦ rfl, rfl, rfl⟩

theorem AgreeBut.trans {s₁ s' : Core} (h : AgreeBut rs s s₁) (h' : AgreeBut rs s₁ s') :
    AgreeBut rs s s' :=
  ⟨fun r hr ↦ (h'.regs r hr).trans (h.regs r hr), h'.mem.trans h.mem, h'.flags.trans h.flags⟩

theorem AgreeBut.mono {s' : Core} {rs' : List PhysReg} (h : AgreeBut rs s s') (hsub : rs ⊆ rs') :
    AgreeBut rs' s s' := ⟨fun r hr ↦ h.regs r (mt (hsub ·) hr), h.mem, h.flags⟩

theorem AgreeBut.setReg (hr : r ∈ rs) : AgreeBut rs s (s.setReg (.phys r) w) := by
  refine ⟨fun q hq ↦ regs_setReg_of_ne ?_, rfl, rfl⟩
  rw [ne_eq, Reg.phys.injEq]
  rintro rfl
  exact hq hr

theorem AgreeBut.slot {s' : Core} (h : AgreeBut rs s s') (hrs : .rbp ∉ rs) : s'.slot d = s.slot d := by
  rw [Core.slot, h.regs _ hrs, Core.slot]

end Machine.Core

open Machine.Core

namespace Allocation

/-- The content of a home does not depend on scratch registers. -/
theorem content_agreeBut (hl : l.IsHome) (h : AgreeBut rs p p') (hrs : rs ⊆ PhysReg.scratch) :
    p'.content l = p.content l := by
  cases l with
  | register r => exact h.regs r (mt (hrs ·) (PhysReg.home_cases hl).1)
  | stack m =>
    obtain ⟨d, rfl, -⟩ := hl
    rw [content_frame, content_frame, h.mem, h.slot (mt (hrs ·) (by decide))]

/-- An address inside the slot of one of some registers, with a given frame pointer. -/
def Hides (a : Allocation) (vs : List VReg) (frame x : Word) : Prop :=
  ∃ u ∈ vs, ∃ d, a.location? u = some (.stack (.frame d)) ∧
    Memory.InBytes (frame + BitVec.ofInt 64 d) 8 x

/-- A state `s` with virtual registers, and a state `p` in which they are in their places. -/
structure Mirrors (a : Allocation) (vs : List VReg) (need : VReg → Nat) (carried : Bool)
    (s p : Core) : Prop where
  virt : ∀ u ∈ vs, ∀ l, a.location? u = some l → SameBytes (need u) (s.regs (.virt u)) (p.content l)
  shared : ∀ r ∈ PhysReg.shared, s.regs (.phys r) = p.regs (.phys r)
  rax : carried = true → s.regs (.phys .rax) = p.regs (.phys .rax)
  mem : ∀ x, ¬ a.Hides vs (p.regs (.phys .rbp)) x → s.mem x = p.mem x
  flags : s.flags = p.flags

/-- From `p` to `p'`, the homes of the registers in `vs` change only if they are those of `ts`. -/
structure Spares (a : Allocation) (vs ts : List VReg) (p p' : Core) : Prop where
  regs : ∀ r ∈ PhysReg.allocatable, (∀ t ∈ ts, a.location? t ≠ some (.register r)) →
    p'.regs (.phys r) = p.regs (.phys r)
  mem : ∀ x, a.Hides vs (p.regs (.phys .rbp)) x → ¬ a.Hides ts (p.regs (.phys .rbp)) x →
    p'.mem x = p.mem x

theorem Mirrors.rbp (h : a.Mirrors vs need carried s p) :
    s.regs (.phys .rbp) = p.regs (.phys .rbp) := h.shared _ (by decide)

theorem Mirrors.mono (h : a.Mirrors vs need carried s p) (hneed : ∀ u ∈ vs, live u ≤ need u)
    (hcarried : carried' = true → carried = true) : a.Mirrors vs live carried' s p where
  virt u hu l hl := (h.virt u hu l hl).mono (hneed u hu)
  shared := h.shared
  rax hc := h.rax (hcarried hc)
  mem := h.mem
  flags := h.flags

theorem Mirrors.agreeBut (hplaces : a.Places vs) (h : a.Mirrors vs need carried s p)
    (hagree : AgreeBut rs p p') (hrs : rs ⊆ PhysReg.scratch)
    (hcarried : carried' = true → carried = true ∧ .rax ∉ rs) :
    a.Mirrors vs need carried' s p' := by
  have hshared : ∀ r ∈ PhysReg.shared, r ∉ rs := by
    intro r hr hmem
    have hdisjoint : ∀ r ∈ PhysReg.shared, r ∉ PhysReg.scratch := by decide
    exact hdisjoint r hr (hrs hmem)
  refine ⟨fun u hu l hl ↦ ?_, fun r hr ↦ ?_, fun hc ↦ ?_, fun x hx ↦ ?_, ?_⟩
  · obtain ⟨l', hl', hhome⟩ := hplaces.home u hu
    obtain rfl := Option.some.inj (hl.symm.trans hl')
    rw [content_agreeBut hhome hagree hrs]
    exact h.virt u hu l hl
  · rw [hagree.regs r (hshared r hr)]
    exact h.shared r hr
  · obtain ⟨hc, hrax⟩ := hcarried hc
    rw [hagree.regs _ hrax]
    exact h.rax hc
  · rw [hagree.regs .rbp (hshared .rbp (by decide))] at hx
    rw [hagree.mem]
    exact h.mem x hx
  · rw [hagree.flags]
    exact h.flags

theorem Spares.refl (a : Allocation) (vs ts : List VReg) (p : Core) : a.Spares vs ts p p :=
  ⟨fun _ _ _ ↦ rfl, fun _ _ _ ↦ rfl⟩

theorem Spares.of_agreeBut (h : AgreeBut rs p p') (hrs : rs ⊆ PhysReg.scratch) :
    a.Spares vs ts p p' :=
  ⟨fun r hr _ ↦ h.regs r (mt (hrs ·) (PhysReg.home_cases hr).1), fun x _ _ ↦ by rw [h.mem]⟩

theorem Spares.trans (h : a.Spares vs ts p p₁) (h' : a.Spares vs ts p₁ p')
    (hrbp : p₁.regs (.phys .rbp) = p.regs (.phys .rbp)) : a.Spares vs ts p p' where
  regs r hr ht := (h'.regs r hr ht).trans (h.regs r hr ht)
  mem x hx ht := (h'.mem x (hrbp ▸ hx) (hrbp ▸ ht)).trans (h.mem x hx ht)

/-! ## Writing both sides alike -/

/-- What only reaches registers and flags leaves slots as they are. -/
theorem content_congr (hl : l.IsHome) (hrbp : p'.regs (.phys .rbp) = p.regs (.phys .rbp))
    (hregs : ∀ r, l = .register r → p'.regs (.phys r) = p.regs (.phys r))
    (hmem : ∀ d, l = .stack (.frame d) → ∀ x, Memory.InBytes (p.slot d) 8 x → p'.mem x = p.mem x) :
    p'.content l = p.content l := by
  cases l with
  | register r => exact hregs r rfl
  | stack m =>
    obtain ⟨d, rfl, -⟩ := hl
    have hslot : p'.slot d = p.slot d := by rw [Core.slot, hrbp, Core.slot]
    rw [content_frame, content_frame, hslot]
    exact Memory.word_congr (hmem d rfl)

theorem Mirrors.setFlags (h : a.Mirrors vs need carried s p) (f : Flags) :
    a.Mirrors vs need carried (s.setFlags f) (p.setFlags f) :=
  ⟨h.virt, h.shared, h.rax, h.mem, rfl⟩

/-- A register that is no home, or any part of one, is set on both sides. -/
theorem Mirrors.setReg (hplaces : a.Places vs) (h : a.Mirrors vs need carried s p)
    (hr : r ∈ .rax :: PhysReg.shared) (hrbp : r ≠ .rbp)
    (hcarried : carried' = true → carried = true ∨ r = .rax) (w : Word) :
    a.Mirrors vs need carried' (s.setReg (.phys r) w) (p.setReg (.phys r) w) := by
  have hset : ∀ q, s.regs (.phys q) = p.regs (.phys q) ∨ q = r →
      (s.setReg (.phys r) w).regs (.phys q) = (p.setReg (.phys r) w).regs (.phys q) := by
    intro q hq
    by_cases hqr : q = r
    · rw [hqr, regs_setReg_self, regs_setReg_self]
    · have hne : Reg.phys q ≠ .phys r := by simpa using hqr
      rw [regs_setReg_of_ne hne, regs_setReg_of_ne hne]
      exact hq.resolve_right hqr
  have hframe : (p.setReg (.phys r) w).regs (.phys .rbp) = p.regs (.phys .rbp) :=
    regs_setReg_of_ne (by simpa using hrbp.symm)
  have hhomes : ∀ q ∈ PhysReg.allocatable, q ≠ r := by
    intro q hq hqr
    obtain ⟨hscratch, hshared⟩ := PhysReg.home_cases hq
    rw [hqr] at hscratch hshared
    rcases List.mem_cons.mp hr with rfl | hr
    · exact hscratch (by decide)
    · exact hshared hr
  refine ⟨fun u hu l hl ↦ ?_, fun q hq ↦ hset q (Or.inl (h.shared q hq)), fun hc ↦ hset _ ?_,
    fun x hx ↦ h.mem x (hframe ▸ hx), h.flags⟩
  · obtain ⟨l', hl', hhome⟩ := hplaces.home u hu
    obtain rfl := Option.some.inj (hl.symm.trans hl')
    rw [content_congr (p := p) hhome hframe (fun q hq ↦ ?_) fun _ _ _ _ ↦ rfl,
      regs_setReg_of_ne (by simp)]
    · exact h.virt u hu l hl
    · subst hq
      exact regs_setReg_of_ne (by simpa using hhomes q hhome)
  · exact (hcarried hc).imp h.rax Eq.symm

/-- Memory outside all slots is written on both sides. -/
theorem Mirrors.store (hplaces : a.Places vs) (h : a.Mirrors vs need carried s p) {b : Word}
    (hclear : ∀ x, Memory.InBytes b n x → ¬ a.Hides vs (p.regs (.phys .rbp)) x) (w : Word) :
    a.Mirrors vs need carried (s.store b n w) (p.store b n w) := by
  refine ⟨fun u hu l hl ↦ ?_, h.shared, h.rax, fun x hx ↦ ?_, h.flags⟩
  · obtain ⟨l', hl', hhome⟩ := hplaces.home u hu
    obtain rfl := Option.some.inj (hl.symm.trans hl')
    have hkept : (p.store b n w).content l = p.content l := by
      refine content_congr hhome rfl (fun _ _ ↦ rfl) fun d hd x hx ↦ ?_
      exact Memory.store_of_not_inBytes
        (fun hin ↦ hclear x hin ⟨u, hu, d, by rw [hl, hd], hx⟩) _
    rw [hkept]
    exact h.virt u hu l hl
  · exact Memory.store_congr _ (h.mem x hx)

theorem Spares.store {b : Word}
    (hclear : ∀ x, Memory.InBytes b n x → ¬ a.Hides vs (p.regs (.phys .rbp)) x) (w : Word) :
    a.Spares vs ts p (p.store b n w) :=
  ⟨fun _ _ _ ↦ rfl, fun x hx _ ↦ Memory.store_of_not_inBytes (fun hin ↦ hclear x hin hx) _⟩

/-! ## Writing a virtual register -/

/-- The bytes of the slot of a register are those that it hides. -/
theorem hides_singleton (hl : a.location? t = some (.stack (.frame d))) {frame : Word} :
    a.Hides [t] frame x ↔ Memory.InBytes (frame + BitVec.ofInt 64 d) 8 x := by
  constructor
  · rintro ⟨u, hu, e, he, hx⟩
    obtain rfl := List.mem_singleton.mp hu
    rw [hl, Option.some.injEq, Location.stack.injEq] at he
    rw [show d = e from congrArg Mem.disp he]
    exact hx
  · exact fun hx ↦ ⟨t, List.mem_singleton_self t, d, hl, hx⟩

/-- A place that is not that of `t` is kept when only the place of `t` is written. -/
theorem Spares.content (hplaces : a.Places vs) (h : a.Spares vs [t] p p') (ht : t ∈ vs)
    (hrbp : p'.regs (.phys .rbp) = p.regs (.phys .rbp)) (hu : u ∈ vs)
    (hl : a.location? u = some l) (hne : a.location? u ≠ a.location? t) :
    p'.content l = p.content l := by
  obtain ⟨l', hl', hhome⟩ := hplaces.home u hu
  obtain rfl := Option.some.inj (hl.symm.trans hl')
  refine content_congr hhome hrbp (fun r hr ↦ ?_) fun d hd x hx ↦ ?_
  · subst hr
    refine h.regs r hhome fun t' ht' heq ↦ hne ?_
    rw [List.mem_singleton.mp ht'] at heq
    rw [hl, heq]
  · subst hd
    refine h.mem x ⟨u, hu, d, hl, hx⟩ ?_
    rintro ⟨t', ht', e, he, hin⟩
    obtain rfl := List.mem_singleton.mp ht'
    have hut : u ≠ t' := fun heq ↦ hne (by rw [heq])
    have hapart := TreeCover.apart_slots (hplaces.isDisplacement hu hl) (hplaces.isDisplacement ht he)
      (hplaces.apart u hu t' ht hut d e hl he) (p.regs (.phys .rbp))
    exact hapart.not_inBytes hx hin

/-- The place of `t` gets the value of `t`, and all that differs besides is scratch. -/
theorem Mirrors.define (hplaces : a.Places vs) (h : a.Mirrors vs need carried s p) (ht : t ∈ vs)
    (hl : a.location? t = some l) (hspares : a.Spares vs [t] p p')
    (hshared : ∀ r ∈ PhysReg.shared, p'.regs (.phys r) = p.regs (.phys r))
    (hrax : carried' = true → carried = true ∧ p'.regs (.phys .rax) = p.regs (.phys .rax))
    (hmem : ∀ x, ¬ a.Hides vs (p.regs (.phys .rbp)) x → p'.mem x = p.mem x)
    (hflags : p'.flags = p.flags) (hvalue : SameBytes (live t) w (p'.content l))
    (hneed : ∀ u ∈ vs, u ≠ t → live u ≤ need u)
    (hlive : ∀ u ∈ vs, 0 < live u → u ≠ t → a.location? u ≠ a.location? t) :
    a.Mirrors vs live carried' (s.setReg (.virt t) w) p' := by
  have hrbp := hshared .rbp (by decide)
  refine ⟨fun u hu l' hl' ↦ ?_, fun r hr ↦ ?_, fun hc ↦ ?_, fun x hx ↦ ?_, ?_⟩
  · by_cases hut : u = t
    · subst hut
      obtain rfl := Option.some.inj (hl.symm.trans hl')
      rw [regs_setReg_self]
      exact hvalue
    · rw [regs_setReg_of_ne (by simpa using hut)]
      rcases Nat.eq_zero_or_pos (live u) with hzero | hpos
      · rw [hzero]
        exact fun k hk ↦ absurd hk (by omega)
      · rw [hspares.content hplaces ht hrbp hu hl' (hlive u hu hpos hut)]
        exact (h.virt u hu l' hl').mono (hneed u hu hut)
  · rw [regs_setReg_of_ne (by simp), hshared r hr]
    exact h.shared r hr
  · obtain ⟨hc, heq⟩ := hrax hc
    rw [regs_setReg_of_ne (by simp), heq]
    exact h.rax hc
  · rw [hrbp] at hx
    rw [hmem x hx]
    exact h.mem x hx
  · rw [hflags]
    exact h.flags

end Allocation

end TreeCover
