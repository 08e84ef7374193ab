import TreeCover.Proofs.Assembly.Operands

/-!
# Reading and writing places

Two machines compute the same if what the operands give is the same on both. A register in its place
gives what it gave as a virtual register, as far as it is needed; memory outside the slots gives the
same on both machines; and what is written goes to the place of the register that is written, or to
the same address. An operand never changes its width, so a repair may put one operand in place of
another that gives the same bytes.
-/

namespace TreeCover

open Machine Core

variable {a : Allocation} {vs : List VReg} {need live : VReg → Nat} {carried before after : Bool}
  {s s' p p' : Core} {c : Callee} {o q : Operand} {ops qs : List Operand} {form : Form} {n : Nat}
  {t u : VReg} {l : Location} {i : Inst} {w x : Word} {f : Flags}

/-! ## Reading -/

namespace Machine.Core

/-- What an operand gives to a use, another one gives on another machine. -/
def Serves (s p : Core) (u : Reading) (o q : Operand) : Prop := ∀ x, s.use u o = some x → p.use u q = some x

/-- The operands that are read serve their uses. -/
def ServeAll (s p : Core) (uses : List Reading) (ops qs : List Operand) : Prop :=
  List.Forall₂ (fun o q ↦ ∀ u, (u, o) ∈ uses.zip ops → Serves s p u o q)
    (ops.take uses.length) (qs.take uses.length)

theorem gather_of_serves {Z : List (Reading × Operand)} {uses : List Reading} {xs : List Word}
    (h : List.Forall₂ (fun o q ↦ ∀ u, (u, o) ∈ Z → Serves s p u o q) (ops.take uses.length)
      (qs.take uses.length))
    (hsub : uses.zip ops ⊆ Z) (hgather : s.gather uses ops = some xs) :
    p.gather uses qs = some xs := by
  induction uses generalizing ops qs xs with
  | nil => exact hgather
  | cons u us ih =>
    cases ops with
    | nil => exact absurd hgather (by simp [gather])
    | cons o ops =>
      cases qs with
      | nil => exact absurd h (by simp)
      | cons q qs =>
        rw [List.length_cons, List.take_succ_cons, List.take_succ_cons, List.forall₂_cons] at h
        rw [List.zip_cons_cons, List.cons_subset] at hsub
        simp only [gather, Option.bind_eq_bind, Option.bind_eq_some_iff] at hgather ⊢
        obtain ⟨x, hx, ys, hys, hxs⟩ := hgather
        exact ⟨x, h.1 u hsub.1 x hx, ys, ih h.2 hsub.2 hys, hxs⟩

/-- An instruction computes the same where its operands give the same. -/
theorem perform_of_serves
    (h : ServeAll s p form.uses ops qs)
    (hinputs : ∀ r ∈ form.inputs, s.regs (.phys r) = p.regs (.phys r)) (hflags : s.flags = p.flags)
    (hencodable : isEncodable form qs = true) (hperform : s.perform form ops = some s') :
    ∃ out, s.finish form ops out = some s' ∧ p.perform form qs = p.finish form qs out := by
  rw [perform] at hperform
  split at hperform
  next =>
    simp only [Option.bind_eq_bind, Option.bind_eq_some_iff] at hperform
    obtain ⟨xs, hxs, out, hout, hfinish⟩ := hperform
    refine ⟨out, hfinish, ?_⟩
    have hmap : form.inputs.map (fun r ↦ p.regs (.phys r)) = form.inputs.map fun r ↦ s.regs (.phys r) :=
      List.map_congr_left fun r hr ↦ (hinputs r hr).symm
    rw [perform, if_pos hencodable, gather_of_serves h (List.Subset.refl _) hxs, hmap, ← hflags]
    simp only [Option.bind_eq_bind, Option.bind_some, hout]
  next => exact absurd hperform (by simp)

end Machine.Core

namespace Placement

/-- A register in its place is read as it is. -/
theorem serves_access (h : a.Mirrors vs need carried s p) (hu : u ∈ vs)
    (hl : a.location? u = some l) (hneed : n ≤ need u) (use : Reading) :
    Serves s p use (.reg (.virt u) n) (l.access n) := by
  intro x hx
  cases use with
  | address => exact absurd hx (by simp [Core.use])
  | value k =>
    rw [Core.use, Core.read] at hx
    split at hx
    next hk =>
      subst hk
      obtain rfl := Option.some.inj hx
      have hlow : lowBytes n (s.regs (.virt u)) = lowBytes n (p.content l) :=
        ((h.virt u hu l hl).mono hneed).low
      rw [hlow]
      cases l with
      | register r => exact if_pos rfl
      | stack m =>
        rw [Core.use, Location.access, Core.read, Memory.ofNat_load]
        rfl
    next => exact absurd hx (by simp)

/-- What is read through an address is the same if it lies outside the slots. -/
theorem serves_mem {m m' : Mem} (h : a.Mirrors vs need carried s p)
    (haddress : p.address m' = s.address m) (use : Reading)
    (hclear : ∀ n, use = .value n → n ≤ 8 ∧
      ∀ x, Memory.InBytes (s.address m) n x → ¬ a.Hides vs (p.regs (.phys .rbp)) x) :
    Serves s p use (.mem m) (.mem m') := by
  intro x hx
  cases use with
  | address =>
    rw [Core.use] at hx ⊢
    rw [haddress]
    exact hx
  | value n =>
    obtain ⟨hn, hclear⟩ := hclear n rfl
    rw [Core.use, Core.read] at hx ⊢
    rw [haddress, ← Memory.load_eq_of_inBytes hn fun y hy ↦ h.mem y (hclear y hy)]
    exact hx

theorem serves_phys {r : PhysReg} (hr : s.regs (.phys r) = p.regs (.phys r)) (width : Nat)
    (use : Reading) : Serves s p use (.reg (.phys r) width) (.reg (.phys r) width) := by
  intro x hx
  cases use with
  | address => exact absurd hx (by simp [Core.use])
  | value n =>
    rw [Core.use, Core.read] at hx ⊢
    rw [← hr]
    exact hx

theorem serves_imm (use : Reading) : Serves s p use (.imm w) (.imm w) := by
  intro x hx
  cases use with
  | address => exact absurd hx (by simp [Core.use])
  | value n => exact hx

/-! ## Writing -/

/-- Writing some bytes of a register writes them to its place. Four bytes are only written to
registers, where they clear the rest. -/
theorem write_access (hplaces : a.Places vs) (h : a.Mirrors vs need carried s p) (ht : t ∈ vs)
    (hl : a.location? t = some l) (hn : n ≤ 8) (hlong : n = 4 → ∃ r, l = .register r)
    (hold : n = 4 ∨ live t ≤ n ∨ live t ≤ need t) (hneed : ∀ u ∈ vs, u ≠ t → live u ≤ need u)
    (hlive : ∀ u ∈ vs, 0 < live u → u ≠ t → a.location? u ≠ a.location? t) (w : Word) :
    ∃ p', p.write n w (l.access n) = some p' ∧ a.Spares vs [t] p p' ∧
      a.Mirrors vs live carried (s.setReg (.virt t) (mergeBytes n (s.regs (.virt t)) w)) p' := by
  obtain ⟨l', hl', hhome⟩ := hplaces.home t ht
  obtain rfl := Option.some.inj (hl.symm.trans hl')
  have hvalue : SameBytes (live t) (mergeBytes n (s.regs (.virt t)) w)
      (mergeBytes n (p.content l) w) := by
    refine SameBytes.merge w (hold.imp_right fun hold ↦ hold.imp_right fun hle ↦ ?_)
    exact (h.virt t ht l hl).mono hle
  cases l with
  | register r =>
    have hr := PhysReg.home_cases hhome
    have hother : ∀ q, q ≠ r → (p.setReg (.phys r) (mergeBytes n (p.regs (.phys r)) w)).regs (.phys q)
        = p.regs (.phys q) := fun q hq ↦ regs_setReg_of_ne (by simpa using hq)
    have hspares : a.Spares vs [t] p
        (p.setReg (.phys r) (mergeBytes n (p.regs (.phys r)) w)) := by
      refine ⟨fun q _ hq ↦ hother q fun heq ↦ ?_, fun _ _ _ ↦ rfl⟩
      exact hq t (List.mem_singleton_self t) (by rw [hl, heq])
    refine ⟨_, if_pos rfl, hspares, h.define hplaces ht hl hspares (fun q hq ↦ hother q ?_)
      (fun hc ↦ ⟨hc, hother _ ?_⟩) (fun _ _ ↦ rfl) rfl ?_ hneed hlive⟩
    · rintro rfl
      exact hr.2 hq
    · rintro rfl
      exact hr.1 (by decide)
    · rw [content_register, regs_setReg_self]
      exact hvalue
  | stack m =>
    obtain ⟨d, rfl, -⟩ := hhome
    have hne : n ≠ 4 := fun hn ↦ by
      obtain ⟨r, hr⟩ := hlong hn
      exact absurd hr (by simp)
    have houtside : ∀ x, ¬ a.Hides [t] (p.regs (.phys .rbp)) x →
        (p.store (p.slot d) n w).mem x = p.mem x := by
      intro x hx
      refine Memory.store_of_not_inBytes (fun hin ↦ hx ?_) _
      exact (Allocation.hides_singleton hl).mpr (Nat.lt_of_lt_of_le hin hn)
    have hspares : a.Spares vs [t] p (p.store (p.slot d) n w) :=
      ⟨fun _ _ _ ↦ rfl, fun x _ hx ↦ houtside x hx⟩
    refine ⟨p.store (p.slot d) n w, ?_, hspares, h.define hplaces ht hl hspares (fun _ _ ↦ rfl)
      (fun hc ↦ ⟨hc, rfl⟩) (fun x hx ↦ houtside x (mt ?_ hx)) rfl ?_ hneed hlive⟩
    · rw [Location.access, write, Core.address_frame]
    · rintro ⟨u, hu, e, he, hin⟩
      obtain rfl := List.mem_singleton.mp hu
      exact ⟨u, ht, e, he, hin⟩
    · rw [content_frame] at hvalue ⊢
      change SameBytes _ _ ((p.mem.store (p.slot d) n w.toNat).word (p.slot d))
      rw [Memory.word_store hne]
      exact hvalue

/-! ## Finishing -/

/-- Registers that are no homes are set on both sides. -/
theorem setRegs_placed (hplaces : a.Places vs) (h : a.Mirrors vs need carried s p)
    {ws : List (PhysReg × Word)} (hws : ∀ x ∈ ws, x.1 = .rax ∨ x.1 = .rdx) :
    a.Mirrors vs need carried (s.setRegs ws) (p.setRegs ws) ∧ a.Spares vs [] p (p.setRegs ws) := by
  induction ws generalizing s p with
  | nil => exact ⟨h, .refl _ _ _ _⟩
  | cons x ws ih =>
    obtain ⟨r, w⟩ := x
    rw [List.forall_mem_cons] at hws
    have hr : r ∈ .rax :: PhysReg.shared ∧ r ≠ .rbp ∧ r ∉ PhysReg.allocatable := by
      rcases hws.1 with rfl | rfl <;> decide
    have hkept : ∀ q, q ≠ r → (p.setReg (.phys r) w).regs (.phys q) = p.regs (.phys q) := fun q hq ↦
      regs_setReg_of_ne (by simpa using hq)
    have hset : a.Mirrors vs need carried (s.setReg (.phys r) w) (p.setReg (.phys r) w) :=
      h.setReg hplaces hr.1 hr.2.1 Or.inl w
    obtain ⟨hmirrors, hspares⟩ := ih hset hws.2
    refine ⟨hmirrors, Allocation.Spares.trans ⟨fun q hq _ ↦ hkept q ?_, fun _ _ _ ↦ rfl⟩ hspares
      (hkept _ hr.2.1.symm)⟩
    rintro rfl
    exact hr.2.2 hq

/-- The last operand of an instruction in its place. -/
def LastPlaced (a : Allocation) (s p : Core) (ops qs : List Operand) : Prop :=
  ∀ o, ops.getLast? = some o → ∃ q width, qs.getLast? = some q ∧ Presents a s p o (q, width)

/-- The result of an instruction is taken over on both sides. -/
theorem finish_placed (hplaces : a.Places vs) (h : a.Mirrors vs (i.need live) before s p)
    (htarget : i.Target form) (houtputs : ∀ r ∈ form.outputs, r = .rax ∨ r = .rdx)
    (hafter : after = true → before = true ∨ i.dst? = some (.reg (.phys .rax) 8))
    (hdefs : ∀ t ∈ i.defs, t ∈ vs)
    (hlive : ∀ t ∈ i.defs, ∀ u ∈ vs, 0 < live u → u ≠ t → a.location? u ≠ a.location? t)
    {out : Outcome} (hfinish : s.finish form i.operands out = some s')
    (hlast : LastPlaced a s p i.operands qs)
    (hlong : ∀ t l, i.effect ≠ .none → i.operands.getLast? = some (.reg (.virt t) 4) →
      a.location? t = some l → ∃ r, l = .register r)
    (hclear : ∀ m n, i.operands.getLast? = some (.mem m) → form.target = some n →
      ∀ x, Memory.InBytes (s.address m) n x → ¬ a.Hides vs (p.regs (.phys .rbp)) x) :
    ∃ p', p.finish form qs out = some p' ∧ a.Mirrors vs live after s' p' ∧
      a.Spares vs i.defs p p' := by
  have hnone : i.defs = [] → ∀ u ∈ vs, live u ≤ i.need live u :=
    fun hnil u _ ↦ Inst.le_need_of_not_mem (by simp [hnil]) live
  cases htarget with
  | none htarget heffect =>
    have hnil := Inst.defs_of_effect heffect
    have hws : ∀ x ∈ form.outputs.zip out.outputs, x.1 = .rax ∨ x.1 = .rdx := fun x hx ↦
      houtputs x.1 (List.of_mem_zip (a := x.1) (b := x.2) hx).1
    obtain ⟨hmirrors, hspares⟩ := setRegs_placed hplaces h hws
    rw [finish_of_none htarget] at hfinish ⊢
    obtain rfl := Option.some.inj hfinish
    refine ⟨_, rfl, (hmirrors.setFlags _).mono (hnone hnil) fun hc ↦ ?_, ?_⟩
    · exact (hafter hc).resolve_right (by simp [Inst.dst?, heffect])
    · rw [hnil]
      exact ⟨hspares.regs, hspares.mem⟩
  | virt t n htarget hlast' heffect houtputs hn hlong' hwhole =>
    have hdefs' := Inst.defs_of_last heffect hlast'
    rw [hdefs'] at hdefs hlive ⊢
    have ht := hdefs t (List.mem_singleton_self t)
    have hdst : i.dst? = some (.reg (.virt t) n) := by rw [Inst.dst?, if_neg heffect, hlast']
    obtain ⟨q, width, hq, l, hl, hqeq⟩ := hlast _ hlast'
    obtain ⟨rfl, -⟩ := Prod.mk.inj hqeq
    rw [finish_of_last htarget houtputs hlast', write, if_pos rfl] at hfinish
    rw [finish_of_last htarget houtputs hq]
    obtain rfl := Option.some.inj hfinish
    have hcovers := fun u ↦ Inst.covers_of_last (u := u) heffect hlast'
    have hold : n = 4 ∨ live t ≤ n ∨ live t ≤ i.need live t := by
      by_cases hn4 : n = 4
      · exact Or.inl hn4
      · rcases i.le_need live t with hle | hle
        · rw [hcovers, if_pos rfl, if_neg hn4] at hle
          exact Or.inr (Or.inl hle)
        · exact Or.inr (Or.inr hle)
    have hcarried : after = true → before = true := fun hc ↦
      (hafter hc).resolve_right (by simp [hdst])
    have hneed : ∀ u ∈ vs, u ≠ t → live u ≤ i.need live u := fun u _ hut ↦
      Inst.le_need_of_not_mem (by simpa [hdefs'] using hut) live
    obtain ⟨p', hp', hspares, hmirrors⟩ := write_access hplaces
      ((h.setFlags out.flags).mono (fun _ _ ↦ Nat.le_refl _) hcarried) ht hl hn
      (fun hn4 ↦ hlong t l heffect (hn4 ▸ hlast') hl) hold hneed (hlive t (List.mem_singleton_self t))
      out.result
    exact ⟨p', hp', hmirrors, hspares.regs, hspares.mem⟩
  | phys q htarget hlast' hq hrbp houtputs =>
    have hnil : i.defs = [] := by
      rw [Inst.defs, Inst.dst?, hlast']
      split
      next v width heq => split at heq <;> simp at heq
      next => rfl
    obtain ⟨q', width, hq', hqeq⟩ := hlast _ hlast'
    obtain ⟨rfl, -⟩ := Prod.mk.inj hqeq
    rw [finish_of_last htarget houtputs hlast', write, if_pos rfl, mergeBytes_eight] at hfinish
    rw [finish_of_last htarget houtputs hq']
    obtain rfl := Option.some.inj hfinish
    refine ⟨(p.setFlags out.flags).setReg (.phys q) out.result, ?_, ?_, ?_⟩
    · rw [write, if_pos rfl, mergeBytes_eight]
    · refine ((h.setFlags out.flags).setReg hplaces hq hrbp (fun hc ↦ ?_) out.result).mono
        (hnone hnil) id
      refine (hafter hc).imp_right fun hdst ↦ ?_
      rw [Inst.dst?] at hdst
      split at hdst
      next => exact absurd hdst (by simp)
      next =>
        rw [hlast'] at hdst
        simpa using hdst
    · rw [hnil]
      refine ⟨fun r hr _ ↦ regs_setReg_of_ne ?_, fun _ _ _ ↦ rfl⟩
      have hhome : ∀ r ∈ PhysReg.allocatable, r ∉ .rax :: PhysReg.shared := by decide
      rw [ne_eq, Reg.phys.injEq]
      rintro rfl
      exact hhome r hr hq
  | mem m n htarget hlast' heffect houtputs =>
    have hnil := Inst.defs_of_effect heffect
    obtain ⟨q, width, hq, m', hqeq, haddress, -⟩ := hlast _ hlast'
    obtain ⟨rfl, -⟩ := Prod.mk.inj hqeq
    rw [finish_of_last htarget houtputs hlast', write] at hfinish
    rw [finish_of_last htarget houtputs hq]
    obtain rfl := Option.some.inj hfinish
    have hsame : (p.setFlags out.flags).address m' = (s.setFlags out.flags).address m := haddress
    have hclear' := hclear m n hlast' htarget
    refine ⟨(p.setFlags out.flags).store ((s.setFlags out.flags).address m) n out.result, ?_, ?_, ?_⟩
    · rw [← hsame]
      rfl
    · refine ((h.setFlags out.flags).store hplaces hclear' out.result).mono (hnone hnil) fun hc ↦ ?_
      exact (hafter hc).resolve_right (by simp [Inst.dst?, heffect])
    · rw [hnil]
      exact ⟨fun _ _ _ ↦ rfl, (Allocation.Spares.store hclear' out.result).mem⟩

end Placement

end TreeCover
