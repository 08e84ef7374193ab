import TreeCover.Proofs.Allocation.Interference
import TreeCover.Proofs.Convention.Leaving

/-!
# Compiled functions keep the calling convention

On every run of a compiled function, from its first instruction to wherever control gets: the stack
pointer is as far below the frame pointer as the position says, nothing is written to the words that
the function keeps, a callee finds its arguments above its frame, and at a return all registers that
a caller relies on are as they were. Main statement: `compiled_keepsConvention`.
-/

namespace TreeCover

open Ir Machine Work Assembly

/-! ## What holds at a point of a run -/

namespace Invocation

variable {r : Invocation} {calls : String → List Operand → Prop} {p q : Stacked} {i : Inst}
  {x y : Point} {name : String} {os : List Operand} {code : List Inst} {words : Nat}

/-- An instruction of the body writes to no kept word. -/
theorem InBody.written_clear (hr : r.Proper calls) (hrespects : r.Respects)
    (hreach : r.Reaches y) (h : r.InBody p y) (hi : r.code[y.pc]? = some i)
    (hstep : FinishedStep r.allocation calls p i q) :
    ∀ z ∈ y.core.written i, ∀ a, Memory.InBytes z.1 z.2 a → ¬ IsKept r.entry r.saves a := by
  have hstores := hrespects.stores y i hreach h.beyond hi
  cases hstep with
  | calm hi' => exact h.held.written_clear hr.fits h.small hi' hstores
  | fetch os hi' => exact h.held.written_clear hr.fits h.small hi'.toContained hstores
  | push os ho =>
    rintro z hz
    obtain rfl := List.mem_singleton.mp hz
    have hdepth : os.length ≤ y.pc := h.depth
    have hpc := (List.getElem?_eq_some_iff.mp hi).1
    have hshort := hr.short
    exact (h.held.push (w := 0) hr.fits h.small (Nat.lt_of_le_of_lt hdepth (by omega))).1
  | call => exact fun z hz ↦ absurd hz List.not_mem_nil
  | branch p l =>
    have hname : ∀ p, jumpMnemonic p ≠ "call" ∧ jumpMnemonic p ≠ "pushq" := fun p ↦ by
      cases p <;> decide
    have hnone : y.core.written (branchTo (jumpMnemonic p) l) = [] :=
      Core.written_eq_nil (hname p).1 (hname p).2 fun m hm ↦ by cases hm
    exact fun z hz ↦ absurd (hnone ▸ hz) List.not_mem_nil
  | pop | label | jump => exact fun z hz ↦ absurd hz List.not_mem_nil

/-- Behind a call and what follows it the stack is empty. -/
theorem InBody.behind (h : r.InBody (.holding os) y) (hi : r.code[y.pc]? = some (.call name))
    (hpop : popCode os.length <+: r.code.drop (y.pc + 1)) :
    r.wordsAt (y.pc + 1 + (popCode os.length).length) = 0 := by
  have hcall : r.wordsAt (y.pc + 1) = os.length :=
    (wordsAt_succ h.beyond hi).trans h.count
  rw [popCode] at hpop ⊢
  split
  next hzero => rw [List.length_nil, Nat.add_zero, hcall, hzero]
  next hsome =>
    rw [if_neg hsome] at hpop
    have hi' := singleton_prefix_drop_iff.mp hpop
    exact wordsAt_succ (y := ⟨y.pc + 1, y.core⟩) (Nat.le_succ_of_le h.beyond) hi'

end Invocation

/-! ## The frame of an allocation -/

variable {f : Func} {s s' : Session} {c : Compiled} {w w' : Workspace} {loops : Loops}
  {l : Liveness} {a : Allocation} {g : Assembly}

theorem buildLiveness_eq_ok (h : buildLiveness loops w = .ok l w') :
    l = Liveness.build w.code.blocks loops w.code.vregs ∧ w'.code = w.code ∧
      w'.session.nextLabel = w.session.nextLabel := by
  simp only [buildLiveness, bind_eq_ok, get_eq_ok, pure_eq_ok] at h
  obtain ⟨_, _, ⟨rfl, rfl⟩, _, _, hreport, rfl, rfl⟩ := h
  obtain rfl := modify_eq_ok.mp hreport
  exact ⟨rfl, rfl, nextLabel_reportAll _ _⟩

/-- Decisions are only counted. -/
theorem nextLabel_countDecisions (ds : List Decision) (s : Session) :
    (ds.foldl countDecision s).nextLabel = s.nextLabel := by
  refine List.foldlRecOn (motive := fun t ↦ t.nextLabel = s.nextLabel) ds countDecision rfl
    fun t ht d _ ↦ ?_
  rw [← ht]
  cases d <;> rfl

theorem allocate_eq_ok {intervals : IntervalTable} (h : allocate intervals w = .ok a w') :
    ∃ budget, a = (LinearScan.run budget intervals w.code.frame).1 ∧
      w'.code = { w.code with frame := (LinearScan.run budget intervals w.code.frame).2 } ∧
      w'.session.nextLabel = w.session.nextLabel := by
  simp only [allocate, bind_eq_ok, get_eq_ok, pure_eq_ok] at h
  obtain ⟨_, _, ⟨rfl, rfl⟩, _, _, hframe, _, _, hreport, rfl, rfl⟩ := h
  obtain rfl := modify_eq_ok.mp hframe
  obtain rfl := modify_eq_ok.mp hreport
  exact ⟨_, rfl, rfl, (nextLabel_countDecisions _ _).trans (nextLabel_reportAll _ _)⟩

theorem assemble_eq_ok (h : assemble a w = .ok g w') : w'.code = w.code ∧
    layout w.code.name w.code.blocks w.code.frame.size a w.session = .ok g w'.session := by
  rw [assemble, EStateM.run] at h
  cases hlayout : layout w.code.name w.code.blocks w.code.frame.size a w.session with
  | ok r s₁ =>
    rw [hlayout] at h
    obtain ⟨rfl, rfl⟩ := EStateM.Result.ok.inj h
    exact ⟨rfl, rfl⟩
  | error e s₁ => exact absurd (hlayout ▸ h) (by simp)

/-- A compiled function is selected code, laid out with an allocation for it; labels are drawn while the
forest is built, while code is selected, and by the layout. -/
theorem compileFunc_stages (h : compileFunc f s = .ok c s') :
    ∃ s₁ w budget s₂ s₃, (buildForest f >>= selectAll) (.start f s₁) = .ok () w ∧
      c.blocks = w.code.blocks ∧ c.allocation = w.allocation f budget ∧
      layout w.code.name w.code.blocks
        (LinearScan.run budget (w.liveness f).intervals w.code.frame).2.size c.allocation s₂ =
          .ok c.assembly s₃ ∧
      s₁.nextLabel = s.nextLabel ∧ s₂.nextLabel = w.session.nextLabel ∧
      s'.nextLabel = s₃.nextLabel := by
  rw [compileFunc, EStateM.run] at h
  cases hx : compile f (.start f s) with
  | error e w => exact absurd (hx ▸ h) (by simp)
  | ok r u =>
    rw [hx] at h
    obtain ⟨rfl, rfl⟩ := EStateM.Result.ok.inj h
    obtain ⟨_, w₁, hreport, hx⟩ := bind_eq_ok.mp hx
    obtain rfl := modify_eq_ok.mp hreport
    have hbody : ∃ s₁ : Session, s₁.nextLabel = s.nextLabel ∧ (do
        let trees ← buildForest f
        selectAll trees
        let liveness ← buildLiveness (Loops.of f.succs)
        let allocation ← allocate liveness.intervals
        let assembly ← assemble allocation
        modifySession (·.countFunction f.name assembly.insts.length)
        let w ← get
        return ({
          assembly, liveness, allocation
          blocks := w.code.blocks, materialized := w.materialized
          nodes := w.forest.size } : Compiled)) (.start f s₁) = .ok r u := by
      split at hx
      · exact ⟨s.report (.compiling f.name f.blocks.length), rfl, hx⟩
      · obtain ⟨_, w₂, horder, hx⟩ := bind_eq_ok.mp hx
        obtain rfl := modify_eq_ok.mp horder
        exact ⟨(s.report (.compiling f.name f.blocks.length)).report (.unorderedLayout f.name), rfl, hx⟩
    obtain ⟨s₁, hs₁, hx⟩ := hbody
    obtain ⟨trees, w₁, hbuild, hx⟩ := bind_eq_ok.mp hx
    obtain ⟨_, w, hselect, hx⟩ := bind_eq_ok.mp hx
    obtain ⟨live, w₂, hlive, hx⟩ := bind_eq_ok.mp hx
    obtain ⟨a, w₃, hallocate, hx⟩ := bind_eq_ok.mp hx
    obtain ⟨g, w₄, hassemble, hx⟩ := bind_eq_ok.mp hx
    obtain ⟨_, w₅, hcount, hx⟩ := bind_eq_ok.mp hx
    obtain rfl := modify_eq_ok.mp hcount
    obtain ⟨_, w₆, hget, hx⟩ := bind_eq_ok.mp hx
    obtain ⟨rfl, rfl⟩ := get_eq_ok.mp hget
    obtain ⟨rfl, rfl⟩ := pure_eq_ok.mp hx
    obtain ⟨rfl, hcode₂, hnext₂⟩ := buildLiveness_eq_ok hlive
    obtain ⟨budget, rfl, hcode₃, hnext₃⟩ := allocate_eq_ok hallocate
    obtain ⟨hcode₄, hlayout⟩ := assemble_eq_ok hassemble
    rw [hcode₃, hcode₂] at hlayout
    refine ⟨s₁, w, budget, w₃.session, w₄.session, bind_eq_ok.mpr ⟨trees, w₁, hbuild, hselect⟩,
      ?_, ?_, ?_, hs₁, hnext₃.trans hnext₂, ?_⟩
    · change w₄.code.blocks = _
      rw [hcode₄, hcode₃, hcode₂]
    · rw [Workspace.allocation, Workspace.liveness, hcode₂]
    · rw [Workspace.liveness, hcode₂] at *
      exact hlayout
    · rfl

/-- A compiled function is selected code, laid out with an allocation for it. -/
theorem compileFunc_eq_ok (h : compileFunc f s = .ok c s') :
    ∃ s₁ w budget s₂ s₃, (buildForest f >>= selectAll) (.start f s₁) = .ok () w ∧
      c.blocks = w.code.blocks ∧ c.allocation = w.allocation f budget ∧
      layout w.code.name w.code.blocks
        (LinearScan.run budget (w.liveness f).intervals w.code.frame).2.size c.allocation s₂ =
          .ok c.assembly s₃ := by
  obtain ⟨s₁, w, budget, s₂, s₃, hx, hblocks, hallocation, hlayout, -⟩ := compileFunc_stages h
  exact ⟨s₁, w, budget, s₂, s₃, hx, hblocks, hallocation, hlayout⟩

theorem Session.config_reportAll (s : Session) (es : List Event) :
    (s.reportAll es).config = s.config :=
  List.foldlRecOn (motive := fun t : Session ↦ t.config = s.config) es Session.report rfl
    fun _ h _ _ ↦ h

/-- Allocation always succeeds. -/
theorem exists_allocate (intervals : IntervalTable) (w : Workspace) : ∃ w',
    allocate intervals w =
      .ok (LinearScan.run w.session.config.registerBudget intervals w.code.frame).1 w' ∧
    w'.code = { w.code with
      frame := (LinearScan.run w.session.config.registerBudget intervals w.code.frame).2 } :=
  ⟨_, rfl, rfl⟩

/-- A function in a forward layout is compiled if selection and layout succeed. -/
theorem compileFunc_of_layout {P : Assembly → Prop}
    (hforward : (Loops.of f.succs).isForwardLayout = true)
    (hx : (buildForest f >>= selectAll)
      (.start f (s.report (.compiling f.name f.blocks.length))) = .ok () w)
    (hlayout : ∀ t, ∃ g t', layout w.code.name w.code.blocks
      (LinearScan.run w.session.config.registerBudget (w.liveness f).intervals w.code.frame).2.size
      (w.allocation f w.session.config.registerBudget) t = .ok g t' ∧ P g) :
    ∃ c s', compileFunc f s = .ok c s' ∧ P c.assembly := by
  obtain ⟨trees, w₀, hbuild, hselect⟩ := bind_eq_ok.mp hx
  obtain ⟨w₁, hlive, hcode₁, hconfig₁⟩ : ∃ w₁, buildLiveness (Loops.of f.succs) w =
      .ok (w.liveness f) w₁ ∧ w₁.code = w.code ∧ w₁.session.config = w.session.config :=
    ⟨_, rfl, rfl, Session.config_reportAll _ _⟩
  obtain ⟨w₂, hallocate, hcode₂⟩ := exists_allocate (w.liveness f).intervals w₁
  rw [hcode₁, hconfig₁] at hallocate hcode₂
  obtain ⟨g, t', hlayout, hg⟩ := hlayout w₂.session
  have hassemble : assemble (w.allocation f w.session.config.registerBudget) w₂ =
      .ok g { w₂ with session := t' } := by
    rw [assemble, EStateM.run, hcode₂, hlayout]
  have hcompile : ∃ c u, compile f (.start f s) = .ok c u ∧ P c.assembly := by
    rw [compile]
    dsimp only
    rw [hforward]
    exact ⟨_, _, bind_eq_ok.mpr ⟨(), _, rfl, bind_eq_ok.mpr ⟨_, _, hbuild,
      bind_eq_ok.mpr ⟨_, _, hselect, bind_eq_ok.mpr ⟨_, _, hlive, bind_eq_ok.mpr ⟨_, _, hallocate,
        bind_eq_ok.mpr ⟨_, _, hassemble, rfl⟩⟩⟩⟩⟩⟩, hg⟩
  obtain ⟨c, u, hu, hc⟩ := hcompile
  refine ⟨c, u.session, ?_, hc⟩
  rw [compileFunc, EStateM.run, hu]

/-- A function without slots, in a session that starts, is compiled to what its selected code is laid out
to. What selection comes to is checked by computation. -/
theorem compileFunc_of_selected {P : Assembly → Prop} {blocks : List Machine.Block} {n : Nat}
    {a : Allocation} {frame : Frame} (hforward : (Loops.of f.succs).isForwardLayout = true)
    (hcheck : succeeds (fun _ w ↦ decide (w.code.blocks = blocks ∧ w.code.vregs = n ∧
      w.code.frame.slots = [] ∧ w.code.frame.size = returnAddressBytes ∧ w.code.name = f.name ∧
        w.session.config.registerBudget = 16)) ((buildForest f >>= selectAll)
      (.start f (Session.report {} (.compiling f.name f.blocks.length)))) = true)
    (hallocation : LinearScan.run 16 (Liveness.build blocks (Loops.of f.succs) n).intervals {} =
      (a, frame))
    (hlayout : ∀ t, ∃ g t', layout f.name blocks frame.size a t = .ok g t' ∧ P g) :
    ∃ c s', compileFunc f {} = .ok c s' ∧ P c.assembly := by
  obtain ⟨_, w, hx, hselected⟩ := exists_of_succeeds hcheck
  obtain ⟨hblocks, hvregs, hslots, hsize, hname, hbudget⟩ := of_decide_eq_true hselected
  have hframe : w.code.frame = {} := by
    rw [← hslots, ← hsize]
  refine compileFunc_of_layout hforward hx fun t ↦ ?_
  rw [Workspace.allocation, Workspace.liveness, hblocks, hvregs, hframe, hname, hbudget, hallocation]
  exact hlayout t

/-- Selection starts with an empty frame. -/
theorem selected_frame (hx : (buildForest f >>= selectAll) (.start f s) = .ok () w) :
    Frame.Extends {} w.code.frame := by
  obtain ⟨trees, w₀, hbuild, hselect⟩ := bind_eq_ok.mp hx
  obtain ⟨hp, -⟩ := buildForest_planted hbuild
  have hblank : w₀.code.frame = {} := hp.declared.blank.frame
  exact (keptBySelection_extends {}).selectAll (hblank ▸ .refl _) hselect

/-- A function that passes its argument on, and returns what it gets. -/
def relay : Func where
  name := "f"
  ret := .int 64
  params := [⟨"p", .int 64⟩]
  blocks := [⟨"entry", [⟨some "x", .int 64, .call "g" [.value (.arg 0)]⟩,
    ⟨none, .int 64, .ret (some (.value (.inst 0)))⟩]⟩]

/-- The selected code of that function. -/
def relayBlock : Machine.Block where
  id := 0
  succs := []
  insts := moveTo 0 (.mem (.frame 16)) :: callCode "g" [.vreg 0] (some 1) ++
    [.define "movq" [.vreg 1, .phys .rax], { mnemonic := "ret", operands := [], kind := .ret }]

/-- That function laid out, with both registers in `rbx`. -/
def relayAssembly : Assembly where
  name := "f"
  insts := prologue 16 (saveSlots 8 [.rbx]) ++ [.define "movq" [.mem (.frame 16), .phys .rbx]] ++
    [.push (.phys .rbx), .call "g", .pop 1, .define "movq" [.phys .rax, .phys .rbx],
      .define "movq" [.phys .rbx, .phys .rax]] ++ epilogue (saveSlots 8 [.rbx])
  frameBytes := 16
  saved := [.rbx]

theorem allocation_relay :
    LinearScan.run 16 (Liveness.build [relayBlock] (Loops.of relay.succs) 2).intervals {} =
      ({ decisions := [.assign 0 .rbx, .assign 1 .rbx], used := ⟨[.rbx]⟩ }, {}) := by
  have hintervals : (Liveness.build [relayBlock] (Loops.of relay.succs) 2).intervals =
      [{ spans := [(1, 2)], uses := [2] }, { spans := [(9, 10)], uses := [10] }] := by decide +kernel
  have hhulls : LinearScan.hulls [{ spans := [(1, 2)], uses := [2] },
      { spans := [(9, 10)], uses := [10] }] = [⟨0, 1, 2⟩, ⟨1, 9, 10⟩] :=
    List.mergeSort_of_pairwise (by decide)
  rw [hintervals, LinearScan.run, hhulls]
  rfl

theorem compileFunc_relay :
    ∃ c s', compileFunc relay {} = .ok c s' ∧ c.assembly = relayAssembly :=
  compileFunc_of_selected (P := (· = relayAssembly)) (by decide) (by decide +kernel) allocation_relay
    fun _ ↦ ⟨_, _, rfl, rfl⟩

end TreeCover
