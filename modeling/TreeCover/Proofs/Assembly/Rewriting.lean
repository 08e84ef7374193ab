import TreeCover.Proofs.Assembly.Repair
import TreeCover.Proofs.Lists

/-!
# Rewritten instructions

After the loads of its addresses an instruction goes one of three ways. If its operands can be encoded
where they are, it stays (`Setting.direct`); if two of them are in memory, the first one is fetched
into `rax` (`Setting.fetched`); and if its destination has to be a register and is in the frame, `rax`
takes the place of the destination, is filled from it first if that is read, and is stored there
afterwards (`Setting.staged`). The last two never happen at once, and neither is taken by an
instruction that reads `rax` or carries it further.
-/

namespace TreeCover

open Machine Core

variable {a : Allocation} {vs : List VReg} {need live : VReg → Nat} {before after : Bool}
  {s s' p p' p₁ : Core} {c : Callee} {o q : Operand} {ops qs : List Operand}
  {zs : List Placement.Sized} {loads : List Inst} {form : Form} {n : Nat}
  {t u : VReg} {l : Location} {i : Inst} {w x : Word} {f : Flags}

namespace Placement

/-! ## Operands of an instruction -/

/-- What is known about an instruction that is placed. -/
structure Setting (a : Allocation) (vs : List VReg) (live : VReg → Nat) (before after : Bool)
    (i : Inst) (s p : Core) : Prop where
  places : a.Places vs
  known : ∀ u, u ∈ i.uses ∨ u ∈ i.defs → u ∈ vs
  /-- The place of a register that is written is not that of another one with a value. -/
  distinct : ∀ t ∈ i.defs, ∀ u ∈ vs, 0 < live u → u ≠ t → a.location? u ≠ a.location? t
  mirrors : a.Mirrors vs (i.need live) before s p
  clear : ∀ z ∈ s.accesses i, ∀ x, Memory.InBytes z.1 z.2 x → ¬ a.Hides vs (p.regs (.phys .rbp)) x
  /-- `rax` is carried to an instruction that reads it, and past one that does not write it. -/
  reads : i.readsRax = true → before = true
  carries : after = true → before = true ∨ i.dst? = some (.reg (.phys .rax) 8)
  free : i.mayUseRax = true → after = false

theorem Setting.legible (h : Setting a vs live before after i s p)
    (haddresses : ∀ m, .mem m ∈ i.operands → ∀ q, .phys q ∈ m.regs → q ∈ PhysReg.shared) :
    ∀ o ∈ i.operands, OperandLegible vs (i.need live) o := by
  intro o ho
  cases o with
  | reg r width =>
    cases r with
    | phys q => trivial
    | virt u =>
      refine h.known u ?_
      rcases i.mem_readOperands_or ho with hread | ⟨hdst, -⟩
      · exact Or.inl (List.mem_flatMap.mpr ⟨_, hread, List.mem_singleton_self u⟩)
      · rw [Inst.defs, hdst]
        exact Or.inr (List.mem_singleton_self u)
  | mem m =>
    have hread : .mem m ∈ i.readOperands :=
      (i.mem_readOperands_or ho).resolve_right fun hdst ↦ absurd hdst.2 (by simp [Operand.isReg])
    refine ⟨fun u hu ↦ ⟨h.known u (Or.inl ?_), ?_⟩, haddresses m ho⟩
    · exact List.mem_flatMap.mpr ⟨_, hread, List.mem_filterMap.mpr ⟨_, hu, rfl⟩⟩
    · have hdemand := Inst.demand_le hread live u
      rwa [Operand.demand, if_pos hu] at hdemand
  | _ => trivial

/-- A placed operand that is read serves its use. -/
theorem Setting.serves (h : Setting a vs live before after i s p) {carried : Bool}
    (hmirrors : a.Mirrors vs (i.need live) carried s p₁)
    (hrbp : p₁.regs (.phys .rbp) = p.regs (.phys .rbp))
    (hcarried : (∃ width, .reg (.phys .rax) width ∈ i.readOperands) → carried = true)
    (hread : o ∈ i.readOperands)
    (hregister : ∀ q width, o = .reg (.phys q) width → q ∈ .rax :: PhysReg.shared) {use : Reading}
    (hspan : ∀ n, use = .value n → n ≤ 8 ∧ ∀ m, o = .mem m → (s.address m, n) ∈ s.accesses i)
    {z : Sized} (hz : Presents a s p₁ o z) : Serves s p₁ use o z.1 := by
  cases o with
  | reg r width =>
    cases r with
    | phys q =>
      obtain rfl := hz
      refine serves_phys ?_ width use
      rcases List.mem_cons.mp (hregister q width rfl) with rfl | hq
      · exact hmirrors.rax (hcarried ⟨width, hread⟩)
      · exact hmirrors.shared q hq
    | virt u =>
      obtain ⟨l, hl, rfl⟩ := hz
      have hdemand := Inst.demand_le hread live u
      rw [Operand.demand, if_pos rfl] at hdemand
      refine serves_access hmirrors (h.known u (Or.inl ?_)) hl hdemand use
      exact List.mem_flatMap.mpr ⟨_, hread, List.mem_singleton_self u⟩
  | mem m =>
    obtain ⟨m', rfl, haddress, -⟩ := hz
    refine serves_mem hmirrors haddress use fun n hn ↦ ⟨(hspan n hn).1, ?_⟩
    rw [hrbp]
    exact h.clear (s.address m, n) ((hspan n hn).2 m rfl)
  | imm w =>
    obtain rfl := hz
    exact serves_imm use
  | label id =>
    intro x hx
    cases use <;> exact absurd hx (by simp [Core.use, Core.read])
  | symbol name =>
    intro x hx
    cases use <;> exact absurd hx (by simp [Core.use, Core.read])

theorem Setting.serves_use (h : Setting a vs live before after i s p) (hi : i.Rewritable form)
    {carried : Bool} (hmirrors : a.Mirrors vs (i.need live) carried s p₁)
    (hrbp : p₁.regs (.phys .rbp) = p.regs (.phys .rbp))
    (hcarried : (∃ width, .reg (.phys .rax) width ∈ i.readOperands) → carried = true)
    {use : Reading} (huse : (use, o) ∈ form.uses.zip i.operands) {z : Sized}
    (hz : Presents a s p₁ o z) : Serves s p₁ use o z.1 := by
  have hread : o ∈ i.readOperands := hi.mem_readOperands huse
  refine h.serves hmirrors hrbp hcarried hread (fun q width ho ↦ ?_) (fun n hn ↦ ⟨?_, ?_⟩) hz
  · exact hi.registers q width (ho ▸ i.readOperands_prefix.mem hread)
  · have hle : ∀ n ∈ [1, 2, 4, 8], n ≤ 8 := by decide
    exact hle n (hi.widths n (hn ▸ (List.of_mem_zip huse).1))
  · rintro m rfl
    rw [hi.accesses]
    exact mem_spans_of_use (hn ▸ huse)

/-! ## Running the last instruction -/

/-- The instruction itself, left out if it does nothing. -/
theorem run_final (hi : i.Rewritable form) (hlength : qs.length = i.operands.length)
    (h : p.perform form qs = some p') :
    p.run c (if isIdentityMove { i with operands := qs } then [] else [{ i with operands := qs }])
      = some p' := by
  split
  next hidentity =>
    rw [isIdentityMove, Bool.and_eq_true] at hidentity
    obtain ⟨hname, hsame⟩ := hidentity
    split at hsame
    next q q' hqs =>
      obtain rfl := eq_of_beq hsame
      obtain rfl : qs = [q, q] := hqs
      have hform := hi.formed
      rw [show i.mnemonic = "movq" from eq_of_beq hname, ← hlength] at hform
      obtain rfl : Form.move 8 = form := Option.some.inj hform
      rw [perform_identity h]
      rfl
    next => exact absurd hsame Bool.false_ne_true
  next =>
    rw [run_cons, hi.step c p hlength, h]
    rfl

/-! ## Encodings -/

theorem Presents.fits {z : Sized} {wide : Bool} (h : Presents a s p o z)
    (hfits : Core.fits wide o = true) : Core.fits wide z.1 = true := by
  cases o with
  | reg r width =>
    cases r with
    | phys q =>
      obtain rfl := h
      exact hfits
    | virt u =>
      obtain ⟨l, -, rfl⟩ := h
      cases l <;> rfl
  | mem m =>
    obtain ⟨m', rfl, -⟩ := h
    rfl
  | _ =>
    obtain rfl := h
    exact hfits

theorem Presents.mayBeMem {z : Sized} (h : Presents a s p o z) (hmem : z.1.isMem = true) :
    o.mayBeMem = true := by
  cases o with
  | reg r width =>
    cases r with
    | phys q =>
      obtain rfl := h
      exact absurd hmem Bool.false_ne_true
    | virt u => rfl
  | mem m => rfl
  | _ =>
    obtain rfl := h
    exact absurd hmem Bool.false_ne_true

/-- An instruction can be encoded with other operands if at most one of them is in memory. -/
theorem isEncodable_of_fits
    (h : List.Forall₂ (fun o q ↦ Core.fits form.wide o = true → Core.fits form.wide q = true) ops qs)
    (hencodable : isEncodable form ops = true) (hcount : qs.countP Operand.isMem ≤ 1)
    (hreg : form.regTarget = true → qs.getLast?.any Operand.isReg = true) :
    isEncodable form qs = true := by
  have hall : ops.all (Core.fits form.wide) = true → qs.all (Core.fits form.wide) = true := by
    clear hencodable hcount hreg
    induction h with
    | nil => exact id
    | cons hq _ ih =>
      rw [List.all_cons, List.all_cons, Bool.and_eq_true, Bool.and_eq_true]
      exact fun hops ↦ ⟨hq hops.1, ih hops.2⟩
  rw [isEncodable, Bool.and_eq_true, Bool.and_eq_true] at hencodable ⊢
  refine ⟨⟨decide_eq_true hcount, hall hencodable.1.2⟩, ?_⟩
  cases hform : form.regTarget with
  | false => rfl
  | true => simpa using hreg hform

theorem Setting.serveAll (h : Setting a vs live before after i s p) (hi : i.Rewritable form)
    {carried : Bool} (hmirrors : a.Mirrors vs (i.need live) carried s p₁)
    (hrbp : p₁.regs (.phys .rbp) = p.regs (.phys .rbp))
    (hcarried : (∃ width, .reg (.phys .rax) width ∈ i.readOperands) → carried = true)
    (hzs : List.Forall₂ (Presents a s p₁) i.operands zs) :
    ServeAll s p₁ form.uses i.operands (zs.map (·.1)) := by
  rw [ServeAll, ← List.map_take, List.forall₂_map_right_iff]
  exact (List.forall₂_take _ hzs).imp fun o z hz u hu ↦
    h.serves_use hi hmirrors hrbp hcarried hu hz

/-- The last operand once all are placed. -/
theorem lastPlaced (hzs : List.Forall₂ (Presents a s p) ops zs) :
    LastPlaced a s p ops (zs.map (·.1)) := by
  intro o ho
  obtain ⟨os, rfl⟩ := List.getLast?_eq_some_iff.mp ho
  obtain ⟨zs', z, rfl, -, hz⟩ := forall₂_concat hzs
  exact ⟨z.1, z.2, by rw [List.map_append, List.map_singleton, List.getLast?_concat], hz⟩

theorem Setting.inputs (h : Setting a vs live before after i s p) (hi : i.Rewritable form) :
    ∀ r ∈ form.inputs, s.regs (.phys r) = p.regs (.phys r) := by
  intro r hr
  rcases hi.inputs r hr with rfl | rfl
  · exact h.mirrors.rax (h.reads (hi.readsRax_of_mem hr))
  · exact h.mirrors.shared _ (by decide)

/-! ## Three ways -/

/-- At most one operand is in memory, and the destination is where it has to be. -/
theorem Setting.direct (h : Setting a vs live before after i s p) (hi : i.Rewritable form)
    (hzs : List.Forall₂ (Presents a s p) i.operands zs)
    (hcount : (zs.map (·.1)).countP Operand.isMem ≤ 1)
    (hreg : i.needsRegDst = true → (zs.map (·.1)).getLast?.any Operand.isReg = true)
    (hperform : s.perform form i.operands = some s') :
    ∃ p', p.perform form (zs.map (·.1)) = some p' ∧ a.Mirrors vs live after s' p' ∧
      a.Spares vs i.defs p p' := by
  have hencodable : isEncodable form (zs.map (·.1)) = true := by
    refine isEncodable_of_fits ?_ (encodable_of_perform hperform) hcount fun hform ↦
      hreg (hi.regTarget hform)
    exact List.forall₂_map_right_iff.mpr (hzs.imp fun o z hz hfits ↦ hz.fits hfits)
  obtain ⟨out, hfinish, hsame⟩ := perform_of_serves
    (h.serveAll hi h.mirrors rfl (fun ⟨_, hrax⟩ ↦ h.reads (Inst.readsRax_of_mem hrax)) hzs) (h.inputs hi) h.mirrors.flags hencodable
    hperform
  rw [hsame]
  refine finish_placed h.places h.mirrors hi.target hi.outputs h.carries
    (fun t ht ↦ h.known t (Or.inr ht)) h.distinct hfinish (lastPlaced hzs) (fun t l heffect hlast hl ↦ ?_)
    fun m n hlast htarget ↦ ?_
  · obtain ⟨q, width, hq, l', hl', hz⟩ := lastPlaced hzs _ hlast
    obtain rfl := Option.some.inj (hl.symm.trans hl')
    obtain ⟨rfl, -⟩ := Prod.mk.inj hz
    have hisReg := hreg (hi.target.needsRegDst heffect hlast)
    rw [hq] at hisReg
    cases l with
    | register r => exact ⟨r, rfl⟩
    | stack m => exact absurd hisReg Bool.false_ne_true
  · exact h.clear (s.address m, n) (by rw [hi.accesses]; exact mem_spans_of_target htarget hlast)

theorem countP_isMem_le (hzs : List.Forall₂ (Presents a s p) ops zs) :
    (zs.map (·.1)).countP Operand.isMem ≤ ops.countP Operand.mayBeMem := by
  induction hzs with
  | nil => exact Nat.le_refl _
  | @cons o z ops zs hz _ ih =>
    rw [List.map_cons, List.countP_cons, List.countP_cons]
    cases hmem : z.1.isMem with
    | false => exact Nat.le_trans ih (Nat.le_add_right _ _)
    | true =>
      rw [if_pos rfl, if_pos (hz.mayBeMem hmem)]
      exact Nat.add_le_add_right ih 1

/-- What has been moved to `rax` serves for what is in memory. -/
theorem serves_fetch {m : Mem} (h : Serves s p (.value n) o (.mem m)) :
    Serves s (p.setReg (.phys .rax) (mergeBytes n (p.regs (.phys .rax))
      (BitVec.ofNat 64 (p.mem.load (p.address m) n)))) (.value n) o (.reg (.phys .rax) n) := by
  intro x hx
  have hx : some (BitVec.ofNat 64 (p.mem.load (p.address m) n)) = some x := h x hx
  change (if n = n then some (lowBytes n (Core.regs _ (.phys .rax))) else none) = some x
  rw [if_pos rfl, regs_setReg_self, lowBytes_mergeBytes, ← hx, Memory.ofNat_load, lowBytes_lowBytes]

/-- An operand that is placed in memory is read with the width it has there. -/
theorem reading_of_mem {m : Mem} {width : Nat} {use : Reading} (hz : Presents a s p o (.mem m, width))
    (hx : s.use use o = some x) (hmem : o.isMem = true → use = .value 8) : use = .value width := by
  cases o with
  | reg r k =>
    cases r with
    | phys q => exact absurd hz (by simp [Presents])
    | virt u =>
      obtain ⟨l, -, hz⟩ := hz
      obtain rfl : width = k := (Prod.mk.inj hz).2
      cases use with
      | address => exact absurd hx (by simp [Core.use])
      | value n =>
        rw [Core.use, Core.read] at hx
        split at hx
        next hn => rw [hn]
        next => exact absurd hx (by simp)
  | mem m' =>
    obtain ⟨_, hz, -⟩ := hz
    rw [hmem rfl, (Prod.mk.inj hz).2]
  | _ => exact absurd hz (by simp [Presents])

/-- The first of two operands in memory is moved to `rax`. -/
theorem Setting.fetched (h : Setting a vs live before after i s p) (hi : i.Rewritable form)
    (hzs : List.Forall₂ (Presents a s p) i.operands zs)
    (hcount : 1 < (zs.map (·.1)).countP Operand.isMem) (hdst : i.needsRegDst = false)
    (hperform : s.perform form i.operands = some s') :
    ∃ m width z', zs = [(.mem m, width), z'] ∧ z'.1.isMem = true ∧
      ∃ p₁ p', p.run c [.define (moveMnemonic width) [.mem m, .reg (.phys .rax) width]] = some p₁ ∧
        p₁.perform form [.reg (.phys .rax) width, z'.1] = some p' ∧
        a.Mirrors vs live after s' p' ∧ a.Spares vs i.defs p p' := by
  have htwo := Nat.lt_of_lt_of_le hcount (countP_isMem_le hzs)
  obtain ⟨o, o', u, us, hops, huses, hwhole⟩ := hi.paired hdst htwo
  have hmay : i.mayUseRax = true := by simp [Inst.mayUseRax, htwo]
  obtain ⟨hinputs, houtputs, hrax⟩ := hi.free hmay
  have hafter := h.free hmay
  have hperform' := hperform
  rw [hops] at hzs hperform'
  obtain ⟨z, z', rfl, hz, hz'⟩ : ∃ z z', zs = [z, z'] ∧ Presents a s p o z ∧ Presents a s p o' z' := by
    cases hzs with
    | cons hz hzs =>
      cases hzs with
      | cons hz' hnil =>
        cases hnil
        exact ⟨_, _, rfl, hz, hz'⟩
  have hmems : z.1.isMem = true ∧ z'.1.isMem = true := by
    cases hmem : z.1.isMem <;> cases hmem' : z'.1.isMem <;>
      simp [hmem, hmem'] at hcount ⊢
  obtain ⟨q, width⟩ := z
  obtain ⟨m, rfl⟩ : ∃ m, q = .mem m := by
    cases q with
    | mem m => exact ⟨m, rfl⟩
    | _ => exact absurd hmems.1 (by simp [Operand.isMem])
  obtain ⟨x, hx⟩ := use_of_perform hperform' huses
  have hreading : ∀ use ∈ form.uses, ∀ x, s.use use o = some x → use = .value width :=
    fun use huse x hx ↦ reading_of_mem hz hx fun hmem ↦ hwhole hmem use huse
  have hwidth : width ∈ [1, 2, 4, 8] := by
    have hu : u ∈ form.uses := huses ▸ List.mem_cons_self
    exact hi.widths width (hreading u hu x hx ▸ hu)
  -- after the first operand has been fetched
  obtain ⟨p₁, hp₁⟩ : ∃ p₁, p₁ = p.setReg (.phys .rax) (mergeBytes width (p.regs (.phys .rax))
      (BitVec.ofNat 64 (p.mem.load (p.address m) width))) := ⟨_, rfl⟩
  have hagree : AgreeBut [.rax] p p₁ := hp₁ ▸ .setReg (List.mem_singleton_self _)
  have hrbp : p₁.regs (.phys .rbp) = p.regs (.phys .rbp) := hagree.regs _ (by decide)
  have hmirrors : a.Mirrors vs (i.need live) false s p₁ :=
    h.mirrors.agreeBut h.places hagree (by decide) fun hc ↦ absurd hc Bool.false_ne_true
  have hunread : (∃ width, .reg (.phys .rax) width ∈ i.readOperands) → false = true := by
    rintro ⟨width, hread⟩
    exact absurd (i.readOperands_prefix.mem hread) (hrax width)
  have hserve : ServeAll s p₁ form.uses i.operands [.reg (.phys .rax) width, z'.1] := by
    rw [ServeAll, hops]
    refine List.forall₂_take _ (.cons (fun use huse x hx ↦ ?_) (.cons (fun use huse ↦ ?_) .nil))
    · obtain rfl := hreading use (List.of_mem_zip huse).1 x hx
      rw [← hops] at huse
      have hserves := h.serves_use hi h.mirrors rfl (fun hrax ↦ absurd (hunread hrax) Bool.false_ne_true)
        huse hz
      rw [hp₁]
      exact serves_fetch hserves x hx
    · rw [← hops] at huse
      exact h.serves_use hi hmirrors hrbp hunread huse (hz'.agreeBut hagree)
  have hencodable : isEncodable form [.reg (.phys .rax) width, z'.1] = true := by
    have hencodable : isEncodable form [o, o'] = true := encodable_of_perform hperform'
    refine isEncodable_of_fits (.cons (fun _ ↦ rfl) (.cons hz'.fits .nil)) hencodable ?_
      fun hform ↦ ?_
    · have hreg : (Operand.reg (.phys .rax) width).isMem = false := rfl
      simp [hreg, hmems.2]
    · exact absurd (hi.regTarget hform) (by simp [hdst])
  obtain ⟨out, hfinish, hsame⟩ := perform_of_serves hserve (by simp [hinputs]) hmirrors.flags
    hencodable hperform
  have hlast : LastPlaced a s p₁ i.operands [.reg (.phys .rax) width, z'.1] := by
    intro o ho
    rw [hops] at ho
    obtain rfl : o' = o := by simpa using ho
    exact ⟨_, _, rfl, hz'.agreeBut hagree⟩
  obtain ⟨p', hp', hmirrors', hspares⟩ := finish_placed h.places hmirrors hi.target hi.outputs
    (fun hc : after = true ↦ absurd hc (by simp [hafter])) (fun t ht ↦ h.known t (Or.inr ht)) h.distinct hfinish
    hlast (fun t l heffect hlast _ ↦
      absurd (hi.target.needsRegDst heffect hlast) (by simp [hdst]))
    fun m n hlast htarget ↦ by
      rw [hrbp]
      exact h.clear (s.address m, n) (by rw [hi.accesses]; exact mem_spans_of_target htarget hlast)
  refine ⟨m, width, z', rfl, hmems.2, p₁, p', ?_, hsame.trans hp', hmirrors', ?_⟩
  · rw [run_cons, step_fetch hwidth rfl rfl, hp₁]
    rfl
  · exact (Allocation.Spares.of_agreeBut hagree (by decide)).trans hspares hrbp

/-- What was a destination in memory is read from `rax` after it has been loaded there. -/
theorem serves_loaded (h : a.Mirrors vs need before s p) (ht : t ∈ vs) (hl : a.location? t = some l)
    (hneed : n ≤ need t) (hvalue : p₁.regs (.phys .rax) = p.content l) (use : Reading) :
    Serves s p₁ use (.reg (.virt t) n) (.reg (.phys .rax) n) := by
  intro x hx
  cases use with
  | address => exact absurd hx (by simp [Core.use])
  | value k =>
    have hx : (if n = k then some (lowBytes k (s.regs (.virt t))) else none) = some x := hx
    change (if n = k then some (lowBytes k (p₁.regs (.phys .rax))) else none) = some x
    split at hx
    next hk =>
      subst hk
      rw [if_pos rfl, hvalue, ← hx, ((h.virt t ht l hl).mono hneed).low]
    next => exact absurd hx (by simp)

/-- A destination that has to be a register and is none is stood in for by `rax`. -/
theorem Setting.staged (h : Setting a vs live before after i s p) (hi : i.Rewritable form)
    {zs' : List Sized} {m : Mem}
    (hzs : List.Forall₂ (Presents a s p) i.operands (zs' ++ [(.mem m, n)]))
    (hdst : i.needsRegDst = true) (hperform : s.perform form i.operands = some s') :
    ∃ p₁ p₂ p',
      p.run c (if i.effect = .update then [.define "movq" [.mem m, .phys .rax]] else []) = some p₁ ∧
      p₁.perform form (zs'.map (·.1) ++ [.reg (.phys .rax) n]) = some p₂ ∧
      p₂.run c [{ mnemonic := "movq", operands := [.phys .rax, .mem m] }] = some p' ∧
      a.Mirrors vs live after s' p' ∧ a.Spares vs i.defs p p' := by
  obtain ⟨heffect, -, hfew⟩ := hi.staged hdst
  have hplaced : ∀ o, i.operands.getLast? = some o → ∃ os, i.operands = os ++ [o] ∧
      List.Forall₂ (Presents a s p) os zs' ∧ Presents a s p o (.mem m, n) := by
    intro o ho
    obtain ⟨os, hops⟩ := List.getLast?_eq_some_iff.mp ho
    rw [hops] at hzs
    obtain ⟨ys, y, heq, hys, hy⟩ := forall₂_concat hzs
    obtain ⟨rfl, hlast⟩ := List.append_inj' heq rfl
    obtain rfl := List.head_eq_of_cons_eq hlast
    exact ⟨os, hops, hys, hy⟩
  obtain ⟨t, htarget, hlast, houtputs, hwhole, hl⟩ : ∃ t, form.target = some n ∧
      i.operands.getLast? = some (.reg (.virt t) n) ∧ form.outputs = [] ∧ (n = 4 ∨ n = 8) ∧
      a.location? t = some (.stack m) := by
    cases hi.target with
    | none htarget hnone => exact absurd hnone heffect
    | virt t k htarget hlast heffect houtputs hn hlong hwhole =>
      obtain ⟨os, -, -, l, hl, hz⟩ := hplaced _ hlast
      obtain ⟨hmem, rfl⟩ := Prod.mk.inj hz
      cases l with
      | register r => exact absurd hmem (by simp [Location.access])
      | stack m' =>
        obtain rfl : m = m' := by simpa [Location.access] using hmem
        exact ⟨t, htarget, hlast, houtputs, hwhole hdst, hl⟩
    | phys q htarget hlast hq hrbp houtputs =>
      obtain ⟨os, -, -, hz⟩ := hplaced _ hlast
      exact absurd hz (by simp [Presents])
    | mem m' k htarget hlast hnone houtputs => exact absurd hnone heffect
  obtain ⟨os, hops, hzs', -⟩ := hplaced _ hlast
  have hdefs := Inst.defs_of_last heffect hlast
  have ht : t ∈ vs := h.known t (Or.inr (by simp [hdefs]))
  have hmay : i.mayUseRax = true := by simp [Inst.mayUseRax, hdst, hdefs]
  obtain ⟨hinputs, -, hrax⟩ := hi.free hmay
  have hafter := h.free hmay
  -- once the destination has been loaded, if it is read
  obtain ⟨p₁, hp₁, hagree, hloaded⟩ : ∃ p₁,
      p.run c (if i.effect = .update then [.define "movq" [.mem m, .phys .rax]] else []) = some p₁ ∧
      AgreeBut [.rax] p p₁ ∧
      (i.effect = .update → p₁.regs (.phys .rax) = p.content (.stack m)) := by
    split
    next hupdate =>
      refine ⟨p.setReg (.phys .rax) (p.mem.word (p.address m)), ?_,
        .setReg (List.mem_singleton_self _), fun _ ↦ regs_setReg_self⟩
      rw [run_cons, step_load rfl rfl]
      rfl
    next hupdate => exact ⟨p, rfl, .refl _ _, fun h ↦ absurd h hupdate⟩
  have hrbp : p₁.regs (.phys .rbp) = p.regs (.phys .rbp) := hagree.regs _ (by decide)
  have hmirrors : a.Mirrors vs (i.need live) false s p₁ :=
    h.mirrors.agreeBut h.places hagree (by decide) fun hc ↦ absurd hc Bool.false_ne_true
  have hunread : (∃ width, .reg (.phys .rax) width ∈ i.readOperands) → false = true := by
    rintro ⟨width, hread⟩
    exact absurd (i.readOperands_prefix.mem hread) (hrax width)
  have hfirst : List.Forall₂
      (fun o q ↦ ∀ use, (use, o) ∈ form.uses.zip i.operands → Serves s p₁ use o q) os
      (zs'.map (·.1)) :=
    List.forall₂_map_right_iff.mpr (hzs'.imp fun o z hz use huse ↦
      h.serves_use hi hmirrors hrbp hunread huse (hz.agreeBut hagree))
  have hserve : ServeAll s p₁ form.uses i.operands (zs'.map (·.1) ++ [.reg (.phys .rax) n]) := by
    have htake : i.operands.take form.uses.length =
        (os ++ [Operand.reg (.virt t) n]).take form.uses.length := by rw [hops]
    rw [ServeAll, htake]
    by_cases hupdate : i.effect = .update
    · refine List.forall₂_take _ (List.rel_append hfirst (.cons (fun use _ ↦ ?_) .nil))
      have hread : .reg (.virt t) n ∈ i.readOperands := by
        rw [Inst.readOperands, if_neg (by simp [hupdate]), hops]
        exact List.mem_append_right _ (List.mem_singleton_self _)
      have hdemand := Inst.demand_le hread live t
      rw [Operand.demand, if_pos rfl] at hdemand
      exact serves_loaded h.mirrors ht hl hdemand (hloaded hupdate) use
    · -- the destination comes after all that is read
      have hdefine : i.effect = .define := by
        cases heq : i.effect with
        | none => exact absurd heq heffect
        | define => rfl
        | update => exact absurd heq hupdate
      have hlength : form.uses.length ≤ os.length := by
        have hreads := hi.reads
        rw [Inst.readOperands, if_pos ⟨hdefine, by rw [hlast]; rfl⟩, hops,
          List.dropLast_concat] at hreads
        exact hreads
      have hlength' : form.uses.length ≤ (zs'.map (·.1)).length := hfirst.length_eq ▸ hlength
      rw [List.take_append_of_le_length hlength, List.take_append_of_le_length hlength']
      exact List.forall₂_take _ hfirst
  have hencodable : isEncodable form (zs'.map (·.1) ++ [.reg (.phys .rax) n]) = true := by
    refine isEncodable_of_fits ?_ (encodable_of_perform hperform) ?_ fun _ ↦ ?_
    · rw [hops]
      exact List.rel_append (List.forall₂_map_right_iff.mpr (hzs'.imp fun o z hz hfits ↦
        hz.fits hfits)) (.cons (fun _ ↦ rfl) .nil)
    · rw [hops, List.dropLast_concat] at hfew
      rw [List.countP_append]
      exact Nat.le_trans (countP_isMem_le hzs') hfew
    · rw [List.getLast?_concat]
      rfl
  obtain ⟨out, hfinish, hsame⟩ := perform_of_serves hserve (by simp [hinputs]) hmirrors.flags
    hencodable hperform
  rw [finish_of_last htarget houtputs hlast, write, if_pos rfl] at hfinish
  rw [finish_of_last htarget houtputs List.getLast?_concat, write, if_pos rfl] at hsame
  obtain rfl := Option.some.inj hfinish
  -- the result is in `rax`, and is stored from there
  obtain ⟨p₂, hp₂⟩ : ∃ p₂, p₂ = (p₁.setFlags out.flags).setReg (.phys .rax)
      (mergeBytes n (p₁.regs (.phys .rax)) out.result) := ⟨_, rfl⟩
  have hresult : p₂.regs (.phys .rax) = mergeBytes n (s.regs (.virt t)) out.result := by
    rw [hp₂, regs_setReg_self]
    rcases hwhole with rfl | rfl
    · rw [mergeBytes, if_pos rfl, mergeBytes, if_pos rfl]
    · rw [mergeBytes_eight, mergeBytes_eight]
  have hagree₂ : AgreeBut [.rax] (p₁.setFlags out.flags) p₂ :=
    hp₂ ▸ .setReg (List.mem_singleton_self _)
  have hmirrors₂ : a.Mirrors vs (i.need live) false (s.setFlags out.flags) p₂ :=
    (hmirrors.setFlags out.flags).agreeBut h.places hagree₂ (by decide)
      fun hc ↦ absurd hc Bool.false_ne_true
  have hold : 8 = 4 ∨ live t ≤ 8 ∨ live t ≤ i.need live t := by
    refine Or.inr ((i.le_need live t).imp_left fun hle ↦ ?_)
    rw [Inst.covers_of_last heffect hlast, if_pos rfl] at hle
    rcases hwhole with rfl | rfl <;> exact hle
  rw [hdefs]
  obtain ⟨p', hp', hspares, hmirrors'⟩ := write_access h.places hmirrors₂ ht hl (Nat.le_refl 8)
    (fun h ↦ absurd h (by decide)) hold
    (fun u _ hut ↦ Inst.le_need_of_not_mem (by simpa [hdefs] using hut) live)
    (h.distinct t (by simp [hdefs])) (p₂.regs (.phys .rax))
  refine ⟨p₁, p₂, p', hp₁, hsame.trans (congrArg some hp₂.symm), ?_, ?_, ?_⟩
  · rw [run_cons, step_save rfl rfl]
    exact congrArg (Option.bind · (run c [])) hp'
  · rw [hafter]
    rw [mergeBytes_eight, hresult] at hmirrors'
    exact hmirrors'
  · have hrest : a.Spares vs [t] (p₁.setFlags out.flags) p₂ := .of_agreeBut hagree₂ (by decide)
    have hrest : a.Spares vs [t] p₁ p₂ := ⟨hrest.regs, hrest.mem⟩
    refine ((Allocation.Spares.of_agreeBut hagree (by decide)).trans hrest hrbp).trans hspares ?_
    exact (hagree₂.regs _ (by decide)).trans hrbp

/-! ## The instructions that are emitted -/

theorem countP_isMem_map (zs : List Sized) :
    zs.countP (·.1.isMem) = (zs.map (·.1)).countP Operand.isMem := by
  rw [List.countP_map]
  rfl

/-- No destination has to be replaced. -/
theorem inst_of_fits (hoperands : operands a i.operands = .ok (loads, zs))
    (hdst : repairDestination i zs = ⟨[], zs, []⟩)
    (hcount : (zs.map (·.1)).countP Operand.isMem ≤ 1) :
    inst a i = .ok (loads ++ if isIdentityMove { i with operands := zs.map (·.1) } then []
      else [{ i with operands := zs.map (·.1) }]) := by
  have hrepair : repairMemory zs = ([], zs) := by
    rw [repairMemory, countP_isMem_map, if_neg (Nat.not_lt.mpr hcount)]
  simp only [inst, hoperands, hdst, hrepair, bind, Except.bind, pure, Except.pure, List.append_nil]

theorem inst_of_pair {m : Mem} {width : Nat} {z' : Sized}
    (hoperands : operands a i.operands = .ok (loads, [(.mem m, width), z']))
    (hdst : repairDestination i [(.mem m, width), z'] = ⟨[], [(.mem m, width), z'], []⟩)
    (hmem : z'.1.isMem = true) :
    inst a i = .ok (loads ++ ([.define (moveMnemonic width) [.mem m, .reg (.phys .rax) width]] ++
      if isIdentityMove { i with operands := [.reg (.phys .rax) width, z'.1] } then []
      else [{ i with operands := [.reg (.phys .rax) width, z'.1] }])) := by
  have hrepair : repairMemory [(.mem m, width), z'] =
      ([.define (moveMnemonic width) [.mem m, .reg (.phys .rax) width]],
        [(.reg (.phys .rax) width, width), z']) := by
    have hfirst : (Operand.mem m).isMem = true := rfl
    rw [repairMemory, if_pos (by simp [hfirst, hmem]), fetchFirst, if_pos hfirst]
    rfl
  simp only [inst, hoperands, hdst, hrepair, bind, Except.bind, pure, Except.pure, List.append_nil,
    List.append_assoc, List.map_cons, List.map_nil]

theorem inst_of_stage {zs' : List Sized} {m : Mem}
    (hoperands : operands a i.operands = .ok (loads, zs' ++ [(.mem m, n)]))
    (hdst : i.needsRegDst = true) (heffect : i.effect ≠ .none) (hname : i.mnemonic ≠ "movq")
    (hcount : (zs'.map (·.1)).countP Operand.isMem ≤ 1) :
    inst a i = .ok (loads ++ ((if i.effect = .update then [.define "movq" [.mem m, .phys .rax]]
      else []) ++ [{ i with operands := zs'.map (·.1) ++ [.reg (.phys .rax) n] },
        { mnemonic := "movq", operands := [.phys .rax, .mem m] }])) := by
  have hrepair : repairDestination i (zs' ++ [(.mem m, n)]) =
      { before := if i.effect = .update then [.define "movq" [.mem m, .phys .rax]] else []
        operands := zs' ++ [(.reg (.phys .rax) n, n)]
        after := [{ mnemonic := "movq", operands := [.phys .rax, .mem m] }] } := by
    rw [repairDestination, List.getLast?_concat, List.dropLast_concat]
    simp only [hdst, decide_eq_true heffect, Bool.and_self, if_true]
    rfl
  have hfetch : repairMemory (zs' ++ [(.reg (.phys .rax) n, n)]) =
      ([], zs' ++ [(.reg (.phys .rax) n, n)]) := by
    rw [repairMemory, countP_isMem_map, List.map_append, List.countP_append]
    exact if_neg (Nat.not_lt.mpr hcount)
  have hidentity : isIdentityMove { i with operands := zs'.map (·.1) ++ [.reg (.phys .rax) n] } =
      false := by
    rw [isIdentityMove, beq_eq_false_iff_ne.mpr hname, Bool.false_and]
  simp only [inst, hoperands, hrepair, hfetch, bind, Except.bind, pure, Except.pure,
    List.append_nil, List.append_assoc, List.map_append, List.map_cons, List.map_nil, hidentity,
    Bool.false_eq_true, if_false]

/-- The operands before the last one, once they are placed. -/
theorem countP_isMem_init {z : Sized} (hzs : List.Forall₂ (Presents a s p) ops (zs ++ [z])) :
    (zs.map (·.1)).countP Operand.isMem ≤ ops.dropLast.countP Operand.mayBeMem := by
  rcases List.eq_nil_or_concat ops with rfl | ⟨os, o, rfl⟩
  · exact absurd hzs.length_eq (by simp)
  · rw [List.concat_eq_append] at hzs ⊢
    obtain ⟨ys, y, heq, hys, -⟩ := forall₂_concat hzs
    obtain ⟨rfl, -⟩ := List.append_inj' heq rfl
    rw [List.dropLast_concat]
    exact countP_isMem_le hys

/-- Loads of addresses leave the setting as it is. -/
theorem Setting.agreeBut (h : Setting a vs live before after i s p)
    (hagree : AgreeBut [.r10, .r11] p p₁) : Setting a vs live before after i s p₁ where
  places := h.places
  known := h.known
  distinct := h.distinct
  mirrors := h.mirrors.agreeBut h.places hagree (by decide) fun hc ↦ ⟨hc, by decide⟩
  clear z hz x hx := by
    rw [hagree.regs _ (by decide)]
    exact h.clear z hz x hx
  reads := h.reads
  carries := h.carries
  free := h.free

/-- An instruction that is rewritten does on the machine what it does with virtual registers. -/
theorem Setting.inst_ok (h : Setting a vs live before after i s p) (hi : i.Rewritable form)
    (hstep : s.step c i = some s') :
    ∃ is p', inst a i = .ok is ∧ p.run c is = some p' ∧ a.Mirrors vs live after s' p' ∧
      a.Spares vs i.defs p p' := by
  have hperform : s.perform form i.operands = some s' := (hi.step c s rfl).symm.trans hstep
  have hcount : i.operands.countP Operand.isMem ≤ 1 := by
    have hencodable := encodable_of_perform hperform
    rw [isEncodable, Bool.and_eq_true, Bool.and_eq_true] at hencodable
    exact of_decide_eq_true hencodable.1.1
  obtain ⟨loads, zs, p₁, hoperands, hloads, hagree, hzs⟩ :=
    operands_ok h.places h.mirrors c (h.legible hi.addresses) hcount
  have h₁ := h.agreeBut hagree
  have hrbp : p₁.regs (.phys .rbp) = p.regs (.phys .rbp) := hagree.regs _ (by decide)
  -- what is left is to run the rest from the state after the loads
  suffices hrest : ∃ is p', inst a i = .ok (loads ++ is) ∧ p₁.run c is = some p' ∧
      a.Mirrors vs live after s' p' ∧ a.Spares vs i.defs p₁ p' by
    obtain ⟨is, p', hinst, hrun, hmirrors, hspares⟩ := hrest
    refine ⟨loads ++ is, p', hinst, ?_, hmirrors, ?_⟩
    · rw [run_append, hloads, Option.bind_some, hrun]
    · exact (Allocation.Spares.of_agreeBut hagree (by decide)).trans hspares hrbp
  have hlength : (zs.map (·.1)).length = i.operands.length := by
    rw [List.length_map, hzs.length_eq]
  by_cases hstage : i.needsRegDst = true ∧ ∃ zs' m n, zs = zs' ++ [(.mem m, n)]
  · obtain ⟨hdst, zs', m, n, rfl⟩ := hstage
    obtain ⟨heffect, hname, hfew⟩ := hi.staged hdst
    obtain ⟨p₂, p₃, p', hload, hperform', hsave, hmirrors, hspares⟩ :=
      h₁.staged (c := c) hi hzs hdst hperform
    have hcount' := Nat.le_trans (countP_isMem_init hzs) hfew
    refine ⟨_, p', inst_of_stage hoperands hdst heffect hname hcount', ?_, hmirrors, hspares⟩
    rw [run_append, hload, Option.bind_some, run_cons, hi.step c p₂ (by simpa using hlength), hperform']
    exact hsave
  · have hlast : i.needsRegDst = true → ∀ z, zs.getLast? = some z → z.1.isMem = false := by
      intro hneeds z hz
      obtain ⟨zs', rfl⟩ := List.getLast?_eq_some_iff.mp hz
      obtain ⟨q, n⟩ := z
      cases q with
      | mem m => exact absurd ⟨hneeds, zs', m, n, rfl⟩ hstage
      | _ => rfl
    have hdst : repairDestination i zs = ⟨[], zs, []⟩ := by
      rw [repairDestination]
      split
      next m n hmem =>
        cases hneeds : i.needsRegDst with
        | false => rfl
        | true => exact absurd (hlast hneeds _ hmem) (by simp [Operand.isMem])
      next => rfl
    by_cases hmany : 1 < (zs.map (·.1)).countP Operand.isMem
    · have hfree : i.needsRegDst = false := by
        refine Bool.eq_false_iff.mpr fun hneeds ↦ Nat.not_le.mpr hmany ?_
        rcases List.eq_nil_or_concat zs with rfl | ⟨zs', z, rfl⟩
        · exact Nat.zero_le _
        · rw [List.concat_eq_append] at hzs hlast ⊢
          have hz := hlast hneeds z List.getLast?_concat
          have hinit := Nat.le_trans (countP_isMem_init hzs) (hi.staged hneeds).2.2
          rw [List.map_append, List.countP_append, List.map_singleton, List.countP_singleton,
            if_neg (by simp [hz])]
          exact hinit
      obtain ⟨m, width, z', rfl, hmem, p₂, p', hfetch, hperform', hmirrors, hspares⟩ :=
        h₁.fetched (c := c) hi hzs hmany hfree hperform
      refine ⟨_, p', inst_of_pair hoperands hdst hmem, ?_, hmirrors, hspares⟩
      rw [run_append, hfetch, Option.bind_some]
      exact run_final hi (by simpa using hlength) hperform'
    · have hreg : i.needsRegDst = true → (zs.map (·.1)).getLast?.any Operand.isReg = true := by
        intro hneeds
        have hplaced : ∀ o, i.operands.getLast? = some o → ∃ z, zs.getLast? = some z ∧
            Presents a s p₁ o z := by
          intro o ho
          obtain ⟨os, hops⟩ := List.getLast?_eq_some_iff.mp ho
          rw [hops] at hzs
          obtain ⟨zs', z, rfl, -, hz⟩ := forall₂_concat hzs
          exact ⟨z, List.getLast?_concat, hz⟩
        rw [List.getLast?_map]
        cases hi.target with
        | none htarget heffect => exact absurd heffect (hi.staged hneeds).1
        | virt t n htarget ho =>
          obtain ⟨z, hz, l, -, rfl⟩ := hplaced _ ho
          have hmem := hlast hneeds _ hz
          rw [hz]
          cases l with
          | register r => rfl
          | stack m => exact absurd hmem (by simp [Location.access, Operand.isMem])
        | phys q htarget ho =>
          obtain ⟨z, hz, rfl⟩ := hplaced _ ho
          rw [hz]
          rfl
        | mem m n htarget ho heffect => exact absurd heffect (hi.staged hneeds).1
      obtain ⟨p', hperform', hmirrors, hspares⟩ :=
        h₁.direct hi hzs (Nat.le_of_not_lt hmany) hreg hperform
      exact ⟨_, p', inst_of_fits hoperands hdst (Nat.le_of_not_lt hmany),
        run_final hi hlength hperform', hmirrors, hspares⟩

end Placement

end TreeCover
