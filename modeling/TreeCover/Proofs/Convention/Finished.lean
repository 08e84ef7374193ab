import TreeCover.Proofs.Convention.Contained
import TreeCover.Proofs.Assembly.Linearize

/-!
# The stack in a finished function

A finished function consists of a prologue and code that treats the stack as selected code does, in
which every return has become an epilogue. `Finished` describes such code from one position to
another; in front of a label, and behind a jump, a branch or an epilogue, nothing is on the stack.
Main statement: `layout_finished`.
-/

namespace TreeCover

open Machine Work Assembly

/-! ## Finished code -/

/-- How an instruction of a finished function changes the stack, epilogues apart. -/
inductive FinishedStep (a : Allocation) (calls : String → List Operand → Prop) :
    Stacked → Inst → Stacked → Prop
  | calm {i : Inst} (hi : i.Contained a) : FinishedStep a calls .none i .none
  | fetch {i : Inst} (os : List Operand) (hi : i.Fetch a) :
    FinishedStep a calls (.holding os) i (.holding os)
  | push {o o' : Operand} {loads : List Inst} {width : Nat} (os : List Operand)
    (ho : Placement.operand a o = .ok (loads, o', width)) :
    FinishedStep a calls (.holding os) (.push o') (.holding (o :: os))
  | call {name : String} {os : List Operand} (h : calls name os) :
    FinishedStep a calls (.holding os) (.call name) (.called os.length)
  | pop (words : Nat) : FinishedStep a calls (.called words) (.pop words) .none
  | label (l : LabelId) : FinishedStep a calls .none (.label l) .none
  | jump (l : LabelId) : FinishedStep a calls .none (jumpTo l) .none
  | branch (p : Ir.Predicate) (l : LabelId) :
    FinishedStep a calls .none (branchTo (jumpMnemonic p) l) .none

/-- Code of a finished function that takes the stack from one state to another. -/
inductive Finished (a : Allocation) (saves : List Save) (calls : String → List Operand → Prop) :
    Stacked → List Inst → Stacked → Prop
  | nil (p : Stacked) : Finished a saves calls p [] p
  | cons {p q r : Stacked} {i : Inst} {is : List Inst} (hi : FinishedStep a calls p i q)
    (his : Finished a saves calls q is r) : Finished a saves calls p (i :: is) r
  | ret {r : Stacked} {is : List Inst} (his : Finished a saves calls .none is r) :
    Finished a saves calls .none (epilogue saves ++ is) r

namespace FinishedStep

variable {a : Allocation} {calls : String → List Operand → Prop} {p q : Stacked} {i : Inst}
  {name : String} {l : LabelId}

theorem eq_none_of_label (h : FinishedStep a calls p i q) (hi : i.kind = .label l) : p = .none := by
  cases h with
  | fetch os hfetch => exact absurd (hfetch.plain.symm.trans hi) (by simp)
  | push | call | pop => exact absurd hi (by simp [Inst.push, Inst.call, Inst.pop, Inst.update])
  | _ => rfl

end FinishedStep

namespace Finished

variable {a : Allocation} {saves : List Save} {calls : String → List Operand → Prop}
  {p q r : Stacked} {i : Inst} {is js us : List Inst} {l : LabelId}

theorem append (h : Finished a saves calls p is q) (h' : Finished a saves calls q js r) :
    Finished a saves calls p (is ++ js) r := by
  induction h with
  | nil => exact h'
  | cons hi _ ih => exact .cons hi (ih h')
  | ret _ ih =>
    rw [List.append_assoc]
    exact .ret (ih h')

theorem single (h : FinishedStep a calls p i q) : Finished a saves calls p [i] q := .cons h (.nil q)

theorem flatten {iss : List (List Inst)} (h : ∀ is ∈ iss, Finished a saves calls .none is .none) :
    Finished a saves calls .none iss.flatten .none := by
  induction iss with
  | nil => exact .nil _
  | cons is iss ih =>
    obtain ⟨his, hiss⟩ := List.forall_mem_cons.mp h
    exact his.append (ih hiss)

theorem kind_of_mem_epilogue (hi : i ∈ epilogue saves) : i.kind ≠ .label l := by
  intro hkind
  rw [epilogue_eq] at hi
  rcases List.mem_append.mp hi with hi | hi
  · exact absurd (restores_straight saves _ hi) (by simp [Inst.isStraight, hkind])
  · rw [List.mem_singleton.mp hi] at hkind
    exact absurd hkind (by simp)

/-- In front of a label nothing is on the stack. -/
theorem at_label (h : Finished a saves calls p (us ++ i :: js) r) (hi : i.kind = .label l) :
    Finished a saves calls p us .none ∧ Finished a saves calls .none (i :: js) r := by
  generalize hcode : us ++ i :: js = code at h
  induction h generalizing us with
  | nil => exact absurd hcode (by simp)
  | @cons p q r j is hj his ih =>
    cases us with
    | nil =>
      obtain ⟨rfl, rfl⟩ := List.cons.inj hcode
      obtain rfl := hj.eq_none_of_label hi
      exact ⟨.nil _, .cons hj his⟩
    | cons u us =>
      obtain ⟨rfl, hrest⟩ := List.cons.inj hcode
      obtain ⟨hus, hl⟩ := ih hrest
      exact ⟨.cons hj hus, hl⟩
  | @ret r is his ih =>
    -- an epilogue has no label, so it stands in front of this one
    rcases List.append_eq_append_iff.mp hcode with ⟨vs, hepilogue, hrest⟩ | ⟨vs, rfl, hrest⟩
    · cases vs with
      | nil =>
        rw [List.append_nil] at hepilogue
        subst hepilogue
        obtain rfl : i :: js = is := hrest
        exact ⟨by simpa using Finished.ret (.nil _), his⟩
      | cons v vs =>
        obtain ⟨rfl, -⟩ := List.cons.inj hrest
        have hmem : i ∈ epilogue saves := hepilogue ▸ List.mem_append_right _ List.mem_cons_self
        exact absurd hi (kind_of_mem_epilogue hmem)
    · obtain ⟨hvs, hl⟩ := ih hrest.symm
      exact ⟨.ret hvs, hl⟩

end Finished

/-! ## Copies -/

variable {a : Allocation} {i : Inst} {is code : List Inst} {pl : Plan} {idx bytes : Nat}
  {calls : String → List Operand → Prop} {p q : Stacked} {s s' : Session} {b : Block}
  {moves : List EdgeMove}

namespace EdgeMove

theorem owns_resolved {v : VReg} {o : Operand} (h : resolved a (.virt v) = .ok o) : a.Owns o := by
  obtain ⟨l, hl, hpure⟩ := Placing.bind_eq_ok.mp h
  have hlocation := Allocation.locate_eq_ok.mp hl
  cases l with
  | register q =>
    obtain rfl := Except.ok.inj hpure
    exact .register hlocation 8
  | stack slot =>
    obtain rfl := Except.ok.inj hpure
    exact .slot hlocation

/-- A copy out of block `pred`, from an input of a phi to the place of a virtual register. -/
def IsPhiCopy (a : Allocation) (blocks : List Block) (pred : Nat) (m : EdgeMove) : Prop :=
  (∃ v, resolved a (.virt v) = .ok m.dst) ∧
    ∃ b ∈ blocks, ∃ phi ∈ b.phis, m.src ∈ phi.inputsFrom pred

theorem onEdge_cases {blocks : List Block} {pred succ : Nat}
    (h : onEdge a blocks pred succ = .ok moves) : ∀ m ∈ moves, IsPhiCopy a blocks pred m := by
  rw [onEdge] at h
  split at h
  next b hb =>
    have hb := List.mem_of_getElem? hb
    refine Placing.foldlM_induct (P := fun moves ↦ ∀ m ∈ moves, IsPhiCopy a blocks pred m) h
      (fun _ hm ↦ absurd hm List.not_mem_nil) fun phi hphi moves moves' hmoves h ↦ ?_
    refine Placing.foldlM_induct (P := fun moves ↦ ∀ m ∈ moves, IsPhiCopy a blocks pred m) h hmoves
      fun src hsrc moves moves' hmoves h ↦ ?_
    obtain ⟨dst, hdst, h⟩ := Placing.bind_eq_ok.mp h
    obtain ⟨reads, -, h⟩ := Placing.bind_eq_ok.mp h
    dsimp only at h
    split at h
    · obtain rfl := Except.ok.inj h
      exact hmoves
    · obtain rfl := Except.ok.inj h
      exact List.forall_mem_append.mpr ⟨hmoves,
        List.forall_mem_singleton.mpr ⟨⟨_, hdst⟩, b, hb, phi, hphi, hsrc⟩⟩
  · obtain rfl := Except.ok.inj h
    exact fun _ hm ↦ absurd hm List.not_mem_nil

theorem reroute_dst {parked : Operand} {m m' : EdgeMove} (h : reroute a parked m = .ok m') :
    m'.dst = m.dst := by
  rw [reroute] at h
  split at h
  · obtain ⟨src, -, h⟩ := Placing.bind_eq_ok.mp h
    obtain ⟨reads, -, h⟩ := Placing.bind_eq_ok.mp h
    obtain rfl := Except.ok.inj h
    rfl
  · obtain rfl := Except.ok.inj h
    rfl

/-- A sequence consists of copies and of what saves their destinations. -/
theorem sequenceFrom_forall {P : Inst → Prop} {Q : EdgeMove → Prop} {fuel : Nat} {steps : List Step}
    (hmove : ∀ m loads src width, Q m → Placement.operand a m.src = .ok (loads, src, width) →
      ∀ i ∈ loads ++ copy m.dst src, P i)
    (hpark : ∀ m, Q m → ∀ i ∈ copy (.phys .indexScratch) m.dst, P i)
    (hreroute : ∀ parked m m', Q m → reroute a parked m = .ok m' → Q m')
    (hmoves : ∀ m ∈ moves, Q m) (h : sequenceFrom a fuel moves = .ok steps) :
    ∀ step ∈ steps, ∀ i ∈ step.insts, P i := by
  induction fuel generalizing moves steps with
  | zero =>
    rw [sequenceFrom] at h
    obtain rfl := Except.ok.inj h
    exact fun _ hs ↦ absurd hs List.not_mem_nil
  | succ fuel ih =>
    cases moves with
    | nil =>
      rw [sequenceFrom] at h
      · obtain rfl := Except.ok.inj h
        exact fun _ hs ↦ absurd hs List.not_mem_nil
      · exact fun hfuel ↦ absurd hfuel (Nat.succ_ne_zero fuel)
    | cons first rest =>
      rw [sequenceFrom] at h
      split at h
      next i m hready =>
        obtain ⟨⟨loads, src, width⟩, hsrc, h⟩ := Placing.bind_eq_ok.mp h
        obtain ⟨more, hmore, h⟩ := Placing.bind_eq_ok.mp h
        obtain rfl := Except.ok.inj h
        obtain ⟨k, -, hm⟩ := Option.bind_eq_some_iff.mp hready
        obtain ⟨m', hm', heq⟩ := Option.map_eq_some_iff.mp hm
        obtain ⟨rfl, rfl⟩ := Prod.mk.inj heq
        exact List.forall_mem_cons.mpr
          ⟨hmove m' loads src width (hmoves m' (List.mem_of_getElem? hm')) hsrc,
            ih (fun m hm ↦ hmoves m (List.mem_of_mem_eraseIdx hm)) hmore⟩
      next =>
        obtain ⟨parked, hparked, h⟩ := Placing.bind_eq_ok.mp h
        obtain ⟨more, hmore, h⟩ := Placing.bind_eq_ok.mp h
        obtain rfl := Except.ok.inj h
        exact List.forall_mem_cons.mpr ⟨hpark first (hmoves first List.mem_cons_self),
          ih (Placing.mapM_forall hparked fun m hm m' h ↦ hreroute _ m m' (hmoves m hm) h) hmore⟩

end EdgeMove

/-! ## Blocks -/

namespace Assembly

theorem insts_split (b : Block) : b.insts = bodyInsts b ++ trailingBranches b := by
  rw [bodyInsts, trailingBranches, ← List.reverse_append, List.takeWhile_append_dropWhile,
    List.reverse_reverse]

theorem isBranch_of_mem_trailing (hi : i ∈ trailingBranches b) : i.isBranch = true := by
  have hall := List.all_takeWhile (p := (·.isBranch)) (l := b.insts.reverse)
  exact List.all_eq_true.mp hall i (List.mem_reverse.mp hi)

end Assembly

end TreeCover
