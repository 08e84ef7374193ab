import TreeCover.Compile
import TreeCover.Proofs.Assembly.Pieces
import TreeCover.Proofs.Independence.Placing
import TreeCover.Proofs.Independence.Selecting

/-!
# Liveness, allocation and layout with shifted labels

Live intervals are built from registers and positions, so those of a function are the same before
and after a shift, and so is what is allocated. The layout compares labels with each other, to find
the block that a branch names and to leave out a jump to the block behind; a shift keeps which
labels are equal. The labels of stubs are drawn behind those of the blocks and are shifted like
them.
-/

namespace TreeCover

open Ir Machine

variable {config : Config} {k : Nat} {blocks : List Machine.Block}

/-! ## Liveness -/

namespace Machine.Block

@[simp]
theorem phis_shift (b : Block) : (b.shift k).phis = b.phis.map (·.shift k) := rfl

@[simp]
theorem succs_shift (b : Block) : (b.shift k).succs = b.succs := rfl

@[simp]
theorem insts_shift (b : Block) : (b.shift k).insts = b.insts.map (·.shift k) := rfl

@[simp]
theorem label_shift (b : Block) : (b.shift k).label = b.label.map (· + k) := rfl

end Machine.Block

theorem blockRanges_shift (blocks : List Machine.Block) :
    blockRanges (blocks.map (·.shift k)) = blockRanges blocks := by
  have hfrom : ∀ n, blockRangesFrom n (blocks.map (·.shift k)) = blockRangesFrom n blocks := by
    induction blocks with
    | nil => exact fun _ ↦ rfl
    | cons b blocks ih =>
      intro n
      simp only [List.map_cons, blockRangesFrom, Block.insts_shift, List.length_map, ih]
  exact hfrom 0

theorem passInsts_shift (start n : Nat) (is : List Machine.Inst) (t : IntervalTable)
    (live : List VReg) :
    passInsts start n (is.map (·.shift k)) t live = passInsts start n is t live := by
  induction is generalizing n with
  | nil => rfl
  | cons i is ih =>
    simp only [List.map_cons, passInsts, ih, passInst, Inst.defs_shift, Inst.uses_shift]

theorem phiInputs_shift (succ : Machine.Block) (b : Nat) :
    phiInputs (succ.shift k) b = phiInputs succ b := by
  simp only [phiInputs, Block.phis_shift, List.flatMap_map, Phi.inputsFrom_shift,
    Operand.vregs_shift]

theorem liveOut_shift (blocks : List Machine.Block) (later : List (List VReg)) (b : Nat)
    (block : Machine.Block) :
    liveOut (blocks.map (·.shift k)) later b (block.shift k) = liveOut blocks later b block := by
  simp only [liveOut, Block.succs_shift, List.getElem?_map, Option.map_map, Function.comp_def,
    phiInputs_shift]

theorem definePhis_shift (blocks : List Machine.Block) (block : Machine.Block) (last : Nat)
    (t : IntervalTable) :
    definePhis (blocks.map (·.shift k)) (block.shift k) last t =
      definePhis blocks block last t := by
  have hsuccs : block.succs.filterMap ((blocks.map (·.shift k))[·]?) =
      (block.succs.filterMap (blocks[·]?)).map (·.shift k) := by
    rw [List.map_filterMap]
    simp only [List.getElem?_map]
  rw [definePhis, definePhis, Block.succs_shift, hsuccs, List.foldl_map]
  simp only [Block.phis_shift, List.map_map, Function.comp_def, Phi.dst_shift]

theorem passBlock_shift (blocks : List Machine.Block) (ranges : List BlockRange) (loops : Loops)
    (b : Nat) (block : Machine.Block) (p : LivenessPass) :
    passBlock (blocks.map (·.shift k)) ranges loops b (block.shift k) p =
      passBlock blocks ranges loops b block p := by
  simp only [passBlock, liveOut_shift, definePhis_shift, Block.insts_shift, passInsts_shift,
    Block.phis_shift, List.foldl_map, Phi.dst_shift]

/-- **Liveness.** Labels have no part in live intervals. -/
theorem liveness_shift (blocks : List Machine.Block) (loops : Loops) (vregs : Nat) :
    Liveness.build (blocks.map (·.shift k)) loops vregs = Liveness.build blocks loops vregs := by
  have hpass : ∀ (ranges : List BlockRange) (t : IntervalTable) (bs : List Machine.Block) (b : Nat),
      passBlocks (blocks.map (·.shift k)) ranges loops t b (bs.map (·.shift k)) =
        passBlocks blocks ranges loops t b bs := by
    intro ranges t bs
    induction bs with
    | nil => exact fun _ ↦ rfl
    | cons block bs ih =>
      intro b
      simp only [List.map_cons, passBlocks, passBlock_shift, ih]
  simp only [Liveness.build, blockRanges_shift, hpass]

/-! ## Layout -/

namespace Assembly

/-- In a session whose labels are shifted, `y` does what `x` does without the shift. -/
abbrev Follows {α : Type} (config : Config) (k : Nat) (g : α → α) (x y : Assembling α) : Prop :=
  TreeCover.Follows (Session.Shifted config k) (CompileError.shift k) g x y

/-- In a session whose labels are shifted, `y` does the same as `x` without the shift. -/
abbrev Alike {α : Type} (config : Config) (k : Nat) (x y : Assembling α) : Prop :=
  Follows config k id x y

def shift (k : Nat) (a : Assembly) : Assembly := { a with insts := a.insts.map (·.shift k) }

def Plan.shift (k : Nat) (p : Plan) : Plan := { p with blocks := p.blocks.map (·.shift k) }

def Stub.shift (k : Nat) (s : Stub) : Stub where
  label := s.label + k
  moves := s.moves.map (·.shift k)
  target := s.target.shift k

def Piece.shift (k : Nat) (x : Piece) : Piece := (x.1.map (·.shift k), x.2.map (·.shift k))

theorem alike_session {p q : Session → Session}
    (hp : ∀ s, (p s).config = s.config ∧ (p s).nextLabel = s.nextLabel)
    (hq : ∀ s, (q s).config = s.config ∧ (q s).nextLabel = s.nextLabel) :
    Alike config k (modify p) (modify q) :=
  .modify fun _ _ h ↦ h.of_same (hp _) (hq _)

theorem follows_liftPlacing {α : Type} {g : α → α} {x y : Placing α} (h : Placing.Follows k g x y) :
    Follows config k g (liftPlacing x) (liftPlacing y) := by
  cases x with
  | ok a =>
    obtain rfl : y = .ok (g a) := h
    exact .pure rfl
  | error e =>
    obtain rfl : y = .error (e.shift k) := h
    exact .throw rfl

theorem follows_copies (p : Plan) (moves : List EdgeMove) :
    Follows config k (List.map (·.shift k)) (copies p moves)
      (copies (p.shift k) (moves.map (·.shift k))) := by
  refine .bind (follows_liftPlacing (EdgeMove.follows_sequence p.allocation moves)) fun steps ↦ ?_
  refine .bind (alike_session (Session.Shifted.same_reportAll · _)
    (Session.Shifted.same_reportAll · _)) fun _ ↦ .pure ?_
  rw [List.flatMap_map, List.map_flatMap]
  refine congrArg (steps.flatMap ·) (funext fun step ↦ ?_)
  cases step <;> rfl

/-- Labels that were never handed out before stay so. -/
theorem follows_freshLabel :
    Follows config k (· + k) (modifyGet Session.freshLabel) (modifyGet Session.freshLabel) := by
  refine .modifyGet (fun s t h ↦ h.nextLabel) fun s t h ↦ ⟨h.left, h.right, ?_⟩
  rw [Session.freshLabel, Session.freshLabel, h.nextLabel]
  exact Nat.add_right_comm _ _ _

/-- There is no label in an epilogue. -/
theorem epilogue_shift (saves : List Save) : (epilogue saves).map (·.shift k) = epilogue saves := by
  rw [epilogue, List.map_append, List.map_map]
  rfl

theorem prologue_shift (frameBytes : Nat) (saves : List Save) :
    (prologue frameBytes saves).map (·.shift k) = prologue frameBytes saves := by
  rw [prologue, List.map_append, List.map_map]
  rfl

theorem follows_instruction (p : Plan) (i : Machine.Inst) :
    Follows config k (List.map (·.shift k)) (instruction p i)
      (instruction (p.shift k) (i.shift k)) := by
  rw [instruction, instruction]
  simp only [Inst.kind_shift_eq_ret]
  split
  · exact .pure (epilogue_shift p.saves).symm
  · exact follows_liftPlacing (Placement.follows_inst p.allocation i)

theorem follows_instructions (p : Plan) (is : List Machine.Inst) :
    Follows config k (List.map (·.shift k)) (instructions p is)
      (instructions (p.shift k) (is.map (·.shift k))) := by
  refine .bind (.mapM is (follows_instruction p)) fun parts ↦ .pure ?_
  rw [List.map_flatten]

theorem trailingBranches_shift (b : Machine.Block) :
    trailingBranches (b.shift k) = (trailingBranches b).map (·.shift k) := by
  simp only [trailingBranches, Block.insts_shift, ← List.map_reverse, List.takeWhile_map,
    Function.comp_def, Inst.isBranch_shift]

theorem bodyInsts_shift (b : Machine.Block) :
    bodyInsts (b.shift k) = (bodyInsts b).map (·.shift k) := by
  simp only [bodyInsts, Block.insts_shift, ← List.map_reverse, List.dropWhile_map,
    Function.comp_def, Inst.isBranch_shift]

/-- A branch names the same block, since labels are as equal as before. -/
theorem targetBlock?_shift (blocks : List Machine.Block) (i : Machine.Inst) :
    targetBlock? (blocks.map (·.shift k)) (i.shift k) = targetBlock? blocks i := by
  have hhead : (i.shift k).operands.head? = i.operands.head?.map (·.shift k) := List.head?_map
  rw [targetBlock?, targetBlock?, hhead]
  cases i.operands.head? with
  | none => rfl
  | some o =>
    cases o with
    | label id =>
      simp only [Option.map_some, Operand.shift, List.findIdx?_map]
      refine congrArg (List.findIdx? · blocks) (funext fun b ↦ ?_)
      rw [Bool.eq_iff_iff, Function.comp_apply, beq_iff_eq, beq_iff_eq, Block.label_shift]
      cases b.label <;> simp
    | _ => rfl

theorem follows_branch (p : Plan) (idx : Nat) (next : Option LabelId) (i : Machine.Inst) :
    Follows config k (Piece.shift k) (branch p idx next i)
      (branch (p.shift k) idx (next.map (· + k)) (i.shift k)) := by
  have hhead : (i.shift k).operands.head? = i.operands.head?.map (·.shift k) := List.head?_map
  -- a jump to the block behind is left out on both sides
  have hbehind : (i.shift k).operands.head? = (next.map (· + k)).map .label ↔
      i.operands.head? = next.map .label := by
    have hnext : (next.map (· + k)).map Machine.Operand.label =
        (next.map Machine.Operand.label).map (·.shift k) := by cases next <;> rfl
    have hinj : Function.Injective (Machine.Operand.shift k) := fun _ _ ↦ Operand.shift_eq_shift.mp
    rw [hhead, hnext, (Option.map_injective hinj).eq_iff]
  have hplain : ∀ (moves : List EdgeMove) (x y : Assembling Piece),
      (x = do
        let before ← copies p moves
        if i.kind = .jump && next.isSome && i.operands.head? = next.map .label then
          return (before, [])
        return (before ++ (← instruction p i), [])) →
      (y = do
        let before ← copies (p.shift k) (moves.map (·.shift k))
        if (i.shift k).kind = .jump && (next.map (· + k)).isSome &&
            (i.shift k).operands.head? = (next.map (· + k)).map .label then
          return (before, [])
        return (before ++ (← instruction (p.shift k) (i.shift k)), [])) →
      Follows config k (Piece.shift k) x y := by
    rintro moves _ _ rfl rfl
    refine .bind (follows_copies p moves) fun before ↦ ?_
    simp only [Inst.kind_shift_eq_jump, Option.isSome_map, hbehind]
    split
    · exact .pure rfl
    · refine .bind (follows_instruction p i) fun is ↦ .pure ?_
      rw [Piece.shift, List.map_append]
      rfl
  have htarget : targetBlock? (p.shift k).blocks (i.shift k) = targetBlock? p.blocks i :=
    targetBlock?_shift p.blocks i
  rw [branch_eq, branch_eq, htarget]
  refine .bind (g := List.map (·.shift k)) ?_ fun moves ↦ ?_
  · cases targetBlock? p.blocks i with
    | none => exact .pure rfl
    | some succ =>
      exact follows_liftPlacing (EdgeMove.follows_onEdge p.allocation p.blocks idx succ)
  obtain ⟨mnemonic, operands, effect, kind, needs⟩ := i
  cases kind with
  | branch =>
    cases operands with
    | nil => exact hplain moves _ _ rfl rfl
    | cons target os =>
      cases moves with
      | nil => exact hplain [] _ _ rfl rfl
      | cons move moves =>
        refine .bind follows_freshLabel fun label ↦ ?_
        exact .bind (alike_session (fun _ ↦ ⟨rfl, rfl⟩) fun _ ↦ ⟨rfl, rfl⟩) fun _ ↦ .pure rfl
  | _ => exact hplain moves _ _ rfl rfl

theorem follows_fallThrough (p : Plan) (idx : Nat) (b : Machine.Block) :
    Follows config k (List.map (·.shift k)) (fallThrough p idx b)
      (fallThrough (p.shift k) idx (b.shift k)) := by
  refine .bind (g := List.map (List.map (·.shift k))) (.mapM_same b.succs fun succ ↦ ?_)
    fun parts ↦ .pure ?_
  · exact .bind (follows_liftPlacing (EdgeMove.follows_onEdge p.allocation p.blocks idx succ))
      fun moves ↦ follows_copies p moves
  · rw [List.map_flatten]

theorem follows_block (p : Plan) (idx : Nat) (b : Machine.Block) :
    Follows config k (Piece.shift k) (block p idx b) (block (p.shift k) idx (b.shift k)) := by
  have hlabel : ((b.shift k).label.map Inst.label).toList =
      ((b.label.map Inst.label).toList).map (·.shift k) := by
    rw [Block.label_shift]
    cases b.label <;> rfl
  have hnext : ((p.shift k).blocks[idx + 1]?).bind (·.label) =
      ((p.blocks[idx + 1]?).bind (·.label)).map (· + k) := by
    rw [Plan.shift, List.getElem?_map]
    cases p.blocks[idx + 1]? <;> rfl
  rw [block, block]
  simp only [hlabel, hnext, bodyInsts_shift, trailingBranches_shift]
  refine .bind (follows_instructions p (bodyInsts b)) fun body ↦ ?_
  cases trailingBranches b with
  | nil =>
    refine .bind (follows_fallThrough p idx b) fun copies ↦ .pure ?_
    simp only [Piece.shift, List.map_append]
    rfl
  | cons i is =>
    refine .bind (.mapM (i :: is) (follows_branch p idx _)) fun pieces ↦ .pure ?_
    simp only [Piece.shift, List.map_append, List.map_flatMap, List.flatMap_map]

theorem follows_stub (p : Plan) (s : Stub) :
    Follows config k (List.map (·.shift k)) (stub p s) (stub (p.shift k) (s.shift k)) := by
  refine .bind (follows_copies p s.moves) fun moves ↦ .pure ?_
  simp only [List.map_append]
  rfl

/-- **Layout.** A function is laid out alike before and after a shift. -/
theorem follows_layout (name : String) (blocks : List Machine.Block) (bytes : Nat)
    (a : Allocation) :
    Follows config k (shift k) (layout name blocks bytes a)
      (layout name (blocks.map (·.shift k)) bytes a) := by
  have hblocks : (blocks.map (·.shift k)).zipIdx =
      blocks.zipIdx.map fun x ↦ (x.1.shift k, x.2) := List.zipIdx_map
  rw [layout, layout, hblocks]
  let p : Plan := ⟨a, blocks, saveSlots bytes a.used.toList⟩
  refine .bind (.mapM _ fun x ↦ follows_block p x.2 x.1) fun pieces ↦ ?_
  have hstubs :
      (pieces.map (Piece.shift k)).flatMap (·.2) = (pieces.flatMap (·.2)).map (·.shift k) := by
    simp only [Piece.shift, List.map_flatMap, List.flatMap_map]
  rw [hstubs]
  refine .bind (.mapM _ (follows_stub p)) fun stubs ↦ ?_
  refine .bind (alike_session (fun _ ↦ ⟨rfl, rfl⟩) fun _ ↦ ⟨rfl, rfl⟩) fun _ ↦ .pure ?_
  simp only [shift, Piece.shift, List.map_append, List.map_flatMap, List.flatMap_map,
    List.map_flatten, prologue_shift]

end Assembly

/-! ## Functions -/

/-- The labels of a compiled function are in its instructions and in its blocks. -/
def Compiled.shift (k : Nat) (c : Compiled) : Compiled :=
  { c with assembly := c.assembly.shift k, blocks := c.blocks.map (·.shift k) }

namespace Work

theorem alike_buildLiveness (loops : Loops) :
    Alike config k (buildLiveness loops) (buildLiveness loops) := by
  refine .get_bind fun w u h ↦ ?_
  simp only [h.code, Code.shift, liveness_shift]
  exact .bind (alike_modifySession (Session.Shifted.same_reportAll · _)
    (Session.Shifted.same_reportAll · _)) fun _ ↦ .pure rfl

theorem same_countDecisions (s : Session) (ds : List Decision) :
    (ds.foldl countDecision s).config = s.config ∧
      (ds.foldl countDecision s).nextLabel = s.nextLabel := by
  refine List.foldlRecOn
    (motive := fun t : Session ↦ t.config = s.config ∧ t.nextLabel = s.nextLabel) ds
    countDecision ⟨rfl, rfl⟩ fun t ht d _ ↦ ?_
  cases d <;> exact ht

/-- Counting and reporting decisions leaves the labels alone. -/
theorem alike_allocate (intervals : IntervalTable) :
    Alike config k (allocate intervals) (allocate intervals) := by
  refine .get_bind fun w u h ↦ ?_
  have hcounted (name : String) (ds : List Decision) (s : Session) :
      (ds.foldl countDecision (s.reportAll (ds.flatMap (decisionEvents name)))).config = s.config ∧
        (ds.foldl countDecision (s.reportAll (ds.flatMap (decisionEvents name)))).nextLabel =
          s.nextLabel := by
    obtain ⟨hconfig', hnext'⟩ := Session.Shifted.same_reportAll s (ds.flatMap (decisionEvents name))
    obtain ⟨hconfig, hnext⟩ := same_countDecisions (s.reportAll _) ds
    exact ⟨hconfig.trans hconfig', hnext.trans hnext'⟩
  rw [h.session.config_eq, h.code]
  exact .bind (alike_modifyCode fun _ ↦ rfl) fun _ ↦
    .bind (alike_modifySession (hcounted _ _) (hcounted _ _)) fun _ ↦ .pure rfl

theorem follows_assemble (a : Allocation) :
    Follows config k (Assembly.shift k) (assemble a) (assemble a) := by
  intro w u h
  have hlayout := Assembly.follows_layout (k := k) w.code.name w.code.blocks w.code.frame.size a
    w.session u.session h.session
  unfold FollowsFrom at hlayout ⊢
  simp only [assemble, EStateM.run]
  cases hrun : Assembly.layout w.code.name w.code.blocks w.code.frame.size a w.session with
  | ok r s =>
    rw [hrun] at hlayout
    obtain ⟨t, ht, hst⟩ := hlayout
    exact
      ⟨{ u with session := t }, by simp only [h.code, Code.shift, ht], { h with session := hst }⟩
  | error e s =>
    rw [hrun] at hlayout
    obtain ⟨t, ht, hst⟩ := hlayout
    exact
      ⟨{ u with session := t }, by simp only [h.code, Code.shift, ht], { h with session := hst }⟩

/-- **Functions.** A function is compiled alike before and after a shift. -/
theorem follows_compile (f : Func) :
    Follows config k (Compiled.shift k) (compile f) (compile f) := by
  refine .bind (alike_report _ _) fun _ ↦ ?_
  have hrest : ∀ rest : Work Compiled, rest = (do
      let trees ← buildForest f
      selectAll trees
      let liveness ← buildLiveness (Loops.of f.succs)
      let allocation ← allocate liveness.intervals
      let assembly ← assemble allocation
      modifySession (·.countFunction f.name assembly.insts.length)
      let w ← get
      return {
        assembly, liveness, allocation
        blocks := w.code.blocks, materialized := w.materialized, nodes := w.forest.size }) →
      Follows config k (Compiled.shift k) rest rest := by
    rintro _ rfl
    refine .bind (alike_buildForest f) fun trees ↦ .bind (alike_selectAll trees) fun _ ↦ ?_
    refine .bind (alike_buildLiveness _) fun liveness ↦ ?_
    refine .bind (alike_allocate _) fun allocation ↦ .bind (follows_assemble _) fun assembly ↦ ?_
    refine .bind (alike_modifySession (fun _ ↦ ⟨rfl, rfl⟩) fun _ ↦ ⟨rfl, rfl⟩) fun _ ↦ ?_
    refine .get_bind fun w u h ↦ .pure ?_
    rw [h.code, h.materialized, h.forest, Forest.size_shift]
    rfl
  exact .unless_bind (p := fun _ ↦ _) (q := fun _ ↦ _) (alike_report _ _) (hrest _ rfl)

end Work

/-- Nothing in an empty workspace has a label. -/
theorem Workspace.shifted_start (f : Func) {s t : Session} (h : s.Shifted config k t) :
    (Workspace.start f s).Shifted config k (Workspace.start f t) where
  code := by
    simp only [Workspace.start, Code.start, Code.shift, List.mapIdx_eq_zipIdx_map, List.map_map]
    rfl
  session := h
  forest := by simp [Workspace.start, Forest.shift]
  defs := rfl
  labels := rfl
  materialized := rfl

/-- **A function and a shift.** In a session whose labels are shifted, a function is compiled to the
same code with its labels shifted, or fails in the same way. -/
theorem follows_compileFunc (f : Func) : Follows (Session.Shifted config k) (CompileError.shift k)
    (Compiled.shift k) (compileFunc f) (compileFunc f) := by
  intro s t h
  have hcompile := Work.follows_compile f _ _ (Workspace.shifted_start f h)
  unfold FollowsFrom at hcompile ⊢
  simp only [compileFunc, EStateM.run]
  cases hrun : Work.compile f (Workspace.start f s) with
  | ok r w =>
    rw [hrun] at hcompile
    obtain ⟨u, hu, hwu⟩ := hcompile
    exact ⟨u.session, by rw [hu], hwu.session⟩
  | error e w =>
    rw [hrun] at hcompile
    obtain ⟨u, hu, hwu⟩ := hcompile
    exact ⟨u.session, by rw [hu], hwu.session⟩

end TreeCover
