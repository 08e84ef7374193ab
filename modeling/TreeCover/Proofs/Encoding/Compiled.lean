import TreeCover.Proofs.Convention.Compiled
import TreeCover.Proofs.Encoding.Selected

/-!
# Encodings of compiled functions

The instructions of a compiled function have encodings: only physical registers, at most one operand
in memory, constants that fit. Two numbers are not bounded by any guard and must be small for this: the
size of the frame, which the prologue takes at once, and the room for the arguments of a call, which is
given back at once. Main statement: `compiled_encodable`.
-/

namespace TreeCover

open Ir Machine Work Assembly

variable {f : Func} {trees : List (List NodeId)} {w : Workspace} {s s' : Session} {c : Compiled}

/-- A new forest has as few arguments below its calls as the function has. -/
theorem Planted.fewArguments (hp : Planted f trees w)
    (hargs : ∀ b ∈ f.blocks, ∀ i ∈ b.insts, ∀ callee args, i.operation = .call callee args →
      args.length < 2 ^ 28) : w.forest.FewArguments := by
  intro k hop j hj
  by_cases hk : k < w.forest.size
  · have hsame : ∀ {n}, w.Is k n → n.op = .inst .call := fun his ↦
      (Node.op_of_core his.2).symm.trans hop
    cases (hp.building.nodes k hk).shape with
    | @inst b id i kids hi hphi his hkids =>
      obtain ⟨block, n, hb, hn, -⟩ := Func.mem_blockInsts.mp hi
      have hcall : i.operation.opcode = .call := NodeOp.inst.inj (hsame his)
      rw [Forest.kidOwners, Node.kids_of_core his.2] at hj
      cases hoperation : i.operation with
      | call callee args =>
        rw [hoperation] at hkids
        cases hkids with
        | @call _ _ below hlist hbelow _ =>
          obtain rfl : j = w.forest.owner (k + 1) := List.mem_singleton.mp hj
          rw [Forest.owner_of_target (Node.target_of_core hlist.2), Node.kids_of_core hlist.2]
          have hlength := hbelow.length_eq
          rw [List.length_map] at hlength
          exact hlength ▸ hargs block (List.mem_of_getElem? hb) i (List.mem_of_getElem? hn) callee
            args hoperation
        | other hno => exact absurd rfl hno
      | _ => exact absurd hcall (by simp [hoperation, Operation.opcode])
    | phiUse _ _ his | argument _ his | constant his | label his | pad his | phi _ his | args his
    | phiMove _ _ _ his =>
      exact absurd (hsame his) (by
        simp [Node.ofArgument, Node.ofConstant, Node.ofLabel, Node.pad, Node.ofPhi, Node.ofPhiUse,
          Node.ofArgs, Node.ofPhiMove])
  · rw [w.forest.node_of_le (Nat.le_of_not_lt hk)] at hop
    exact absurd hop NodeOp.noConfusion

/-- Code without instructions consists of drafts. -/
theorem Blank.drafted {a : Code} (h : Blank f a) : a.Drafted := by
  refine ⟨fun b hb ↦ ?_, fun z hz ↦ absurd (h.frame ▸ hz) List.not_mem_nil⟩
  obtain ⟨k, hk⟩ := List.mem_iff_getElem?.mp hb
  have hinsts := h.insts k
  have hinputs := h.inputs k
  simp only [instsAt, phisAt, hk, Option.map_some, Option.getD_some] at hinsts hinputs
  refine ⟨fun i hi ↦ absurd hi (by simp [hinsts]), fun phi hphi x hx ↦ ?_⟩
  rw [hinputs phi hphi] at hx
  exact absurd hx List.not_mem_nil

/-- What linear scan hands out is never the stack pointer, and slots are in the frame. -/
theorem LinearScan.run_orderly {frame : Frame} (budget : Nat) (intervals : List Interval)
    (hframe : Frame.Extends {} frame) : (run budget intervals frame).1.Orderly := by
  obtain ⟨reqs, rfl, hnone⟩ := hframe.exists_answer
  have hvalid := valid_run budget intervals reqs hnone
  refine ⟨fun v q hv ↦ ?_, fun v m hm ↦ ?_⟩
  · obtain ⟨d, hd, hlocation⟩ := exists_decision hv
    have hallocatable := List.mem_of_mem_take (hvalid.handed d hd q hlocation)
    rintro rfl
    exact absurd hallocatable (by decide)
  · obtain ⟨d, rfl, -⟩ := hvalid.inside v m hm
    exact ⟨_, rfl⟩

/-- **Compiled functions have encodings**, if their frames and the arguments of their calls are small
enough to be taken and given back at once. -/
theorem compiled_encodable (h : compileFunc f s = .ok c s') (hframe : c.assembly.frameBytes < 2 ^ 31)
    (hargs : ∀ b ∈ f.blocks, ∀ i ∈ b.insts, ∀ callee args, i.operation = .call callee args →
      args.length < 2 ^ 28) : ∀ i ∈ c.assembly.insts, i.Encodable := by
  obtain ⟨s₁, w, budget, s₂, s₃, hx, -, hallocation, hlayout⟩ := compileFunc_eq_ok h
  obtain ⟨trees, w₀, hbuild, hselect⟩ := bind_eq_ok.mp hx
  obtain ⟨hp, -⟩ := buildForest_planted hbuild
  have hdrafted : w.code.Drafted := selectAll_drafts
    ⟨hp.building.flat, hp.fewArguments hargs, hp.slotted, hp.declared.blank.drafted⟩ hselect
  have hthreaded := selected_isThreaded hx
  have horderly : c.allocation.Orderly := by
    rw [hallocation]
    exact LinearScan.run_orderly budget (w.liveness f).intervals (selected_frame hx)
  exact layout_encodable horderly
    (fun b hb ↦ ⟨hdrafted.blocks b hb, hthreaded _ (List.mem_map_of_mem hb)⟩) hlayout
    (fitsImm32_ofNat hframe)

theorem compiled_encodable_relay : ∃ c s', compileFunc relay {} = .ok c s' ∧
    c.assembly.frameBytes < 2 ^ 31 ∧
    (∀ b ∈ relay.blocks, ∀ i ∈ b.insts, ∀ callee args, i.operation = .call callee args →
      args.length < 2 ^ 28) ∧ ∀ i ∈ c.assembly.insts, i.Encodable := by
  obtain ⟨c, s', h, hassembly⟩ := compileFunc_relay
  have hframe : c.assembly.frameBytes < 2 ^ 31 := by
    rw [hassembly]
    decide
  have hargs : ∀ b ∈ relay.blocks, ∀ i ∈ b.insts, ∀ callee args, i.operation = .call callee args →
      args.length < 2 ^ 28 := by
    intro b hb i hi callee args hcall
    obtain rfl := List.mem_singleton.mp hb
    rcases List.mem_cons.mp hi with rfl | hi
    · obtain ⟨rfl, rfl⟩ := Operation.call.inj hcall
      decide
    · obtain rfl := List.mem_singleton.mp hi
      simp at hcall
  exact ⟨c, s', h, hframe, hargs, compiled_encodable h hframe hargs⟩

/-! ## A frame that is too large -/

/-- A function with room for four numbers, of about half a gigabyte each. -/
def hoard : Func where
  name := "f"
  ret := .void
  params := []
  blocks := [⟨"entry", [⟨some "a", .int 4294967295, .alloca⟩, ⟨some "b", .int 4294967295, .alloca⟩,
    ⟨some "c", .int 4294967295, .alloca⟩, ⟨some "d", .int 4294967232, .alloca⟩,
    ⟨none, .void, .ret none⟩]⟩]
/-- The selected code of that function. -/
def hoardBlock : Machine.Block where
  id := 0
  succs := []
  insts := [{ mnemonic := "ret", operands := [], kind := .ret }]

/-- That function laid out. -/
def hoardAssembly : Assembly where
  name := "f"
  insts := prologue 2147483648 [] ++ epilogue []
  frameBytes := 2147483648
  saved := []

theorem compileFunc_hoard :
    ∃ c s', compileFunc hoard {} = .ok c s' ∧ c.assembly = hoardAssembly := by
  have hcheck : succeeds (fun _ w ↦ decide (w.code.blocks = [hoardBlock] ∧ w.code.vregs = 0 ∧
      w.code.frame.size = 2147483648 ∧ w.code.name = "f")) ((buildForest hoard >>= selectAll)
      (.start hoard (Session.report {} (.compiling hoard.name hoard.blocks.length)))) = true := by
    decide +kernel
  obtain ⟨_, w, hx, hselect⟩ := exists_of_succeeds hcheck
  obtain ⟨hblocks, hvregs, hsize, hname⟩ := of_decide_eq_true hselect
  have hintervals : (w.liveness hoard).intervals = [] := by
    rw [Workspace.liveness, hblocks, hvregs]
    decide +kernel
  have hscan : ∀ budget, LinearScan.run budget [] w.code.frame = ({}, w.code.frame) := by
    intro budget
    have hhulls : LinearScan.hulls [] = [] := List.mergeSort_nil
    rw [LinearScan.run, hhulls]
    rfl
  refine compileFunc_of_layout (P := (· = hoardAssembly)) (by decide) hx fun t ↦ ?_
  rw [Workspace.allocation, hintervals, hscan, hblocks, hname, hsize]
  exact ⟨_, _, rfl, rfl⟩

/-- The prologue takes the frame at once, and no instruction can do so. -/
theorem hoard_not_encodable : ∃ c s', compileFunc hoard {} = .ok c s' ∧
    ∃ i ∈ c.assembly.insts, ¬ i.Encodable := by
  obtain ⟨c, s', h, hassembly⟩ := compileFunc_hoard
  have htakes : .update "subq" [.imm 2147483648, .phys .rsp] ∈ c.assembly.insts := by
    rw [hassembly]
    decide
  refine ⟨c, s', h, _, htakes, fun hi ↦ ?_⟩
  rcases hi.constant 2147483648 (by decide) with hfits | ⟨hmovabsq, -⟩
  · exact absurd hfits (by decide)
  · exact absurd hmovabsq (by decide)

end TreeCover
