import TreeCover.Proofs.Assembly.Rewriting

/-!
# Pushes and calls

The two instructions that use the stack: a word is put on it, and a callee runs on what is there.
Neither writes a place, provided that the word at the top of the stack lies outside the slots and
that the callee minds its own business: it neither looks at the slots of its caller nor changes them.
-/

namespace TreeCover

open Machine Core

variable {a : Allocation} {vs : List VReg} {live : VReg → Nat} {before after : Bool}
  {s s' p p' : Core} {c : Callee} {o : Operand} {i : Inst} {is : List Inst} {name : String}
  {hidden : Word → Prop}

namespace Machine

/-- A callee that neither sees nor changes some part of the memory. -/
structure Callee.BlindTo (c : Callee) (hidden : Word → Prop) : Prop where
  regs : ∀ name rsp {m m' : Memory}, (∀ x, ¬ hidden x → m x = m' x) →
    c.regs name rsp m = c.regs name rsp m'
  flags : ∀ name rsp {m m' : Memory}, (∀ x, ¬ hidden x → m x = m' x) →
    c.flags name rsp m = c.flags name rsp m'
  mem : ∀ name rsp {m m' : Memory}, (∀ x, ¬ hidden x → m x = m' x) →
    ∀ x, ¬ hidden x → c.mem name rsp m x = c.mem name rsp m' x
  keeps : ∀ name rsp m x, hidden x → c.mem name rsp m x = m x

/-- The push of an operand. -/
def Inst.push (o : Operand) : Inst := { mnemonic := "pushq", operands := [o] }

/-- The call of a function. -/
def Inst.call (name : String) : Inst :=
  { mnemonic := "call", operands := [.symbol name], kind := .call }

/-- An operand whose physical registers mean the same on both machines. -/
def Operand.Plain : Operand → Prop
  | .reg (.phys q) _ => q ∈ .rax :: PhysReg.shared
  | .mem m => ∀ q, .phys q ∈ m.regs → q ∈ PhysReg.shared
  | _ => True

namespace Core

theorem step_push (c : Callee) (s : Core) (o : Operand) :
    s.step c (.push o) = if fits false o then (s.read 8 o).map s.push else none := rfl

theorem step_call (c : Callee) (s : Core) (name : String) :
    s.step c (.call name) = some (s.call c name) := rfl

theorem call_of_not_mem {r : PhysReg} (h : r ∉ callerSaved) :
    (s.call c name).regs (.phys r) = s.regs (.phys r) := if_neg h

theorem call_of_mem {r : PhysReg} (h : r ∈ callerSaved) :
    (s.call c name).regs (.phys r) = c.regs name (s.regs (.phys .rsp)) s.mem r := if_pos h

end Core

end Machine

namespace Placement

/-- A push puts the same word on the stack once its operand is placed. -/
theorem Setting.push_ok (h : Setting a vs live before after (.push o) s p) (ho : o.Plain)
    (hcarried : after = true → before = true) (hstep : s.step c (.push o) = some s') :
    ∃ is p', inst a (.push o) = .ok is ∧ p.run c is = some p' ∧ a.Mirrors vs live after s' p' ∧
      a.Spares vs (Inst.push o).defs p p' := by
  rw [step_push] at hstep
  split at hstep
  case isFalse => exact absurd hstep (by simp)
  rename_i hfits
  obtain ⟨w, hw, rfl⟩ := Option.map_eq_some_iff.mp hstep
  have hlegible := h.legible fun m hm ↦ by
    obtain rfl := List.mem_singleton.mp hm
    exact ho
  have hcount : [o].countP Operand.isMem ≤ 1 := List.countP_le_length
  obtain ⟨loads, zs, p₁, hoperands, hloads, hagree, hzs⟩ :=
    operands_ok h.places h.mirrors c hlegible hcount
  obtain ⟨z, rfl, hz⟩ : ∃ z, zs = [z] ∧ Presents a s p₁ o z := by
    cases hzs with
    | cons hz hnil =>
      cases hnil
      exact ⟨_, rfl, hz⟩
  have hrbp : p₁.regs (.phys .rbp) = p.regs (.phys .rbp) := hagree.regs _ (by decide)
  have h₁ := h.agreeBut hagree
  have hserves : Serves s p₁ (.value 8) o z.1 := by
    refine h₁.serves h₁.mirrors rfl ?_ (List.mem_singleton_self o) ?_ ?_ hz
    · rintro ⟨width, hrax⟩
      obtain rfl := List.mem_singleton.mp hrax
      exact h.reads rfl
    · rintro q width rfl
      exact ho
    · rintro n hn
      obtain rfl : 8 = n := by simpa using hn
      refine ⟨Nat.le_refl 8, fun m hm ↦ ?_⟩
      subst hm
      exact List.mem_cons_of_mem _ (List.mem_singleton_self _)
  have hread : p₁.read 8 z.1 = some w := hserves w hw
  have hpush : p₁.step c (.push z.1) = some (p₁.push w) := by
    rw [step_push, if_pos (hz.fits hfits), hread, Option.map_some]
  have hinst := inst_of_fits (i := Inst.push o) hoperands
    (by
      rw [repairDestination]
      split <;> rfl)
    (List.countP_le_length (l := [z.1]))
  -- the stack pointers are the same, and so is the word below them
  have hrsp : s.regs (.phys .rsp) = p₁.regs (.phys .rsp) := h₁.mirrors.shared _ (by decide)
  have hclear : ∀ x, Memory.InBytes (p₁.regs (.phys .rsp) - 8) 8 x →
      ¬ a.Hides vs (p₁.regs (.phys .rbp)) x := by
    intro x hx
    rw [hrbp]
    exact h.clear (s.regs (.phys .rsp) - 8, 8) List.mem_cons_self x (by rw [hrsp]; exact hx)
  have hset := h₁.mirrors.setReg h.places (r := .rsp) (by decide) (by decide)
    (fun hc ↦ Or.inl (hcarried hc)) (p₁.regs (.phys .rsp) - 8)
  have hmirrors := (hset.store h.places (b := p₁.regs (.phys .rsp) - 8) (n := 8)
    (fun x hx ↦ by
      rw [regs_setReg_of_ne (by decide)]
      exact hclear x hx) w).mono
    (fun u _ ↦ Inst.le_need_of_not_mem (i := Inst.push o) List.not_mem_nil live) id
  refine ⟨_, p₁.push w, hinst, ?_, ?_, ?_⟩
  · rw [run_append, hloads, Option.bind_some]
    have hfinal : (if isIdentityMove (Inst.push z.1) then [] else [Inst.push z.1]) = [Inst.push z.1] :=
      rfl
    change p₁.run c (if isIdentityMove (Inst.push z.1) then [] else [Inst.push z.1]) = _
    rw [hfinal, run_cons, hpush]
    rfl
  · rw [Core.push, Core.push, hrsp]
    exact hmirrors
  · have hspares : a.Spares vs [] p₁ (p₁.push w) := by
      refine ⟨fun r hr _ ↦ regs_setReg_of_ne ?_, fun x hx _ ↦ ?_⟩
      · have hhome : ∀ r ∈ PhysReg.allocatable, Reg.phys r ≠ .phys .rsp := by decide
        exact hhome r hr
      · exact Memory.store_of_not_inBytes (fun hin ↦ hclear x hin hx) _
    exact (Allocation.Spares.of_agreeBut hagree (by decide)).trans hspares hrbp

/-- A callee that is blind to the slots does the same on both machines, and leaves the same value
in `rax`. -/
theorem Setting.call_ok (h : Setting a vs live before after (.call name) s p)
    (hcallee : c.BlindTo (a.Hides vs (p.regs (.phys .rbp))))
    (hstep : s.step c (.call name) = some s') :
    ∃ is p', inst a (.call name) = .ok is ∧ p.run c is = some p' ∧ a.Mirrors vs live true s' p' ∧
      a.Spares vs (Inst.call name).defs p p' := by
  obtain rfl := Option.some.inj hstep
  have hrsp : s.regs (.phys .rsp) = p.regs (.phys .rsp) := h.mirrors.shared _ (by decide)
  have hsaved : ∀ r, s.regs (.phys r) = p.regs (.phys r) ∨ r ∈ callerSaved →
      (s.call c name).regs (.phys r) = (p.call c name).regs (.phys r) := by
    intro r hr
    by_cases hr' : r ∈ callerSaved
    · rw [call_of_mem hr', call_of_mem hr', hrsp, hcallee.regs _ _ h.mirrors.mem]
    · rw [call_of_not_mem hr', call_of_not_mem hr']
      exact hr.resolve_right hr'
  have hhome : ∀ r ∈ PhysReg.allocatable, r ∉ callerSaved := by decide
  have hframe : (p.call c name).regs (.phys .rbp) = p.regs (.phys .rbp) :=
    call_of_not_mem (by decide)
  have hkept : ∀ x, a.Hides vs (p.regs (.phys .rbp)) x → (p.call c name).mem x = p.mem x :=
    fun x hx ↦ hcallee.keeps _ _ _ x hx
  refine ⟨[.call name], p.call c name, rfl, rfl, ⟨fun u hu l hl ↦ ?_, fun r hr ↦ ?_, fun _ ↦ ?_,
    fun x hx ↦ ?_, ?_⟩, fun r hr _ ↦ call_of_not_mem (hhome r hr), fun x hx _ ↦ hkept x hx⟩
  · obtain ⟨l', hl', hl''⟩ := h.places.home u hu
    obtain rfl := Option.some.inj (hl.symm.trans hl')
    rw [Allocation.content_congr (p := p) hl'' hframe]
    · exact (h.mirrors.virt u hu l hl).mono (Inst.le_need_of_not_mem List.not_mem_nil live)
    · rintro r rfl
      exact call_of_not_mem (hhome r hl'')
    · rintro d rfl x hx
      exact hkept x ⟨u, hu, d, hl, hx⟩
  · exact hsaved r (Or.inl (h.mirrors.shared r hr))
  · exact hsaved _ (Or.inr (by decide))
  · rw [hframe] at hx
    change c.mem name _ s.mem x = c.mem name _ p.mem x
    rw [hrsp]
    exact hcallee.mem _ _ h.mirrors.mem x hx
  · change c.flags name _ s.mem = c.flags name _ p.mem
    rw [hrsp, hcallee.flags _ _ h.mirrors.mem]

end Placement

end TreeCover
