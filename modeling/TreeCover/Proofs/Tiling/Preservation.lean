import Mathlib
import TreeCover.Proofs.Covering.Forests
import TreeCover.Proofs.Ir.Widths
import TreeCover.Proofs.Reading.Steps
import TreeCover.Proofs.Tiling.BlockRuns

/-!
# Code keeps its meaning

The code that is selected for a block does what the block does in the arithmetic of a machine. In code for
words that is the arithmetic of the language, as long as no results of comparisons are compared as signed.
In code for narrow values the low bits are the same, as long as instructions that look at more than the low
bits find words there that extend them.

Main statements: `selectBlock_keepsWords`, `selectBlock_keepsLow`.
-/

namespace TreeCover

open Ir Machine Machine.Core Work

variable {text : String} {fs : List Func} {f : Func} {s : Session} {trees : List (List NodeId)}
  {roots : List NodeId} {w v v₀ : Workspace} {b : BlockId} {c : Callee} {σ : World} {o : Observed}
  {st st' m : BlockState} {p : Ir.Operand Value → Bool} {ns : List Nat}

/-! ## Typed code -/

section

variable (htyped : f.isTyped p ns = true) (hp : ∀ o, p o = true → f.bitsOf o ∈ [1, 8, 16, 32, 64])
include htyped hp

theorem Ir.Func.usesValues_of_isTyped : f.UsesValues := by
  intro b x hx hcall hbits
  by_contra hreads
  obtain ⟨i, hi, o, ho, hresult⟩ := exists_inst_of_reads hreads
  obtain rfl := Operand.isResult_iff.mp hresult
  have hmem := hp _ ((isTyped_inst htyped hi).2.1 _ ho)
  rw [bitsOf, (mem_insts_of_mem hx).1] at hmem
  simp [hcall, hbits] at hmem

theorem Ir.Func.castsExtend_of_isTyped : f.CastsExtend := by
  intro b x hx op a hoperation _
  have hmem := hp a ((isTyped_inst htyped (mem_insts_of_mem hx).2).2.1 a
    (by rw [hoperation]; exact List.mem_cons_self))
  simp only [List.mem_cons, List.not_mem_nil, or_false] at hmem
  rcases hmem with h | h | h | h | h <;> rw [h] <;> simp [extends?]

end

theorem Ir.Func.bitsOf_of_isWordCode {o : Ir.Operand Value}
    (h : (f.bitsOf o = 64 || f.isTruth o) = true) : f.bitsOf o ∈ [1, 8, 16, 32, 64] := by
  rw [Bool.or_eq_true, decide_eq_true_eq] at h
  exact bitsOf_mem_of_word h

/-- Typed code has the execution that a machine gives it. -/
theorem selectBlock_executes_of_isTyped (htyped : f.isTyped p ns = true)
    (hp : ∀ o, p o = true → f.bitsOf o ∈ [1, 8, 16, 32, 64]) (hparse : parse text = .ok fs) (hf : f ∈ fs)
    (hbuild : buildForest f (.start f s) = .ok trees w)
    (hbefore : selectAll (trees.take b) w = .ok () v₀) (hb : trees[b]? = some roots)
    (hblock : selectBlock roots (turned (trees.take b) v₀) = .ok () v)
    (hfew : ∀ x ∈ f.blockInsts b, ∀ callee args, x.2.operation = .call callee args →
      8 * args.length < 2 ^ 31)
    (heval : f.evalInsts .machine σ (f.blockInsts b) st = some st')
    (hargs : KeepsArguments f .machine σ b st o.core) (henters : Enters f w v₀ v σ b st o) :
    ∃ o' exit, Observed.exec σ c (instsAt v.code.blocks b) o = some (o', exit) ∧
      Exits f .machine w v σ b st' o o' exit := by
  obtain ⟨hplanted, -⟩ := buildForest_planted hbuild
  have hvalues := Func.usesValues_of_isTyped htyped hp
  exact selectBlock_executes hparse hf hbuild (hplanted.not_voidCall (buildForest_recorded hbuild) hvalues)
    (Func.castsExtend_of_isTyped htyped hp) hbefore hb hblock hfew heval hargs henters

/-! ## Blank machines -/

/-- A machine with nothing in its registers and its memory. -/
def blank : Observed where
  core := { regs := fun _ ↦ 0, mem := fun _ ↦ 0, flags := default }
  stack := []
  deeds := []

def blankState : BlockState := ⟨fun _ ↦ 0, fun _ ↦ 0, []⟩

/-- The world around a blank machine whose frame is `F`. -/
def blankWorld (F : Frame) : World where
  args idx := blank.core.mem.word (blank.core.address (argumentSlot idx))
  slots id := ((F.slot? (.value id)).map blank.core.address).getD 0
  call _ _ m := (m, 0)

/-- Where the first block goes in the world around a blank machine. -/
def Ir.Func.blankDeparture? (f : Func) (A : Arithmetic) (F : Frame) : Option Departure :=
  (f.evalInsts A (blankWorld F) (f.blockInsts 0) blankState).bind (f.departure? A (blankWorld F) 0)

/-- Whether a function has no locals, stores nothing and calls nothing. -/
def Ir.Func.isCalm (f : Func) : Bool :=
  f.insts.all fun i ↦ i.opcode ≠ .alloca && !i.opcode.writesMemory

/-- Whether nothing is computed where a function starts, and its first block can be selected. -/
def Ir.Func.startsAnew (f : Func) : Bool :=
  succeeds (fun trees w ↦ ((List.range w.forest.size).all fun k ↦ !(w.forest.node k).computed) &&
    trees[0]?.any fun roots ↦ succeeds (fun _ _ ↦ true) (selectBlock roots (turned (trees.take 0) w)))
    (buildForest f (.start f {}))

section

variable {F : Frame} (hcalm : f.isCalm = true)
include hcalm

theorem Ir.Func.isCalm_inst {i : ResolvedInst} (hi : i ∈ f.insts) :
    i.opcode ≠ .alloca ∧ i.opcode.writesMemory = false := by
  simpa using List.all_eq_true.mp hcalm i hi

/-- A blank machine can come to the first block. -/
theorem exists_blank (hstarts : f.startsAnew = true) : ∃ trees w roots v,
    buildForest f (.start f {}) = .ok trees w ∧ trees[0]? = some roots ∧
      selectBlock roots (turned (trees.take 0) w) = .ok () v ∧
      Enters f w w v (blankWorld v.code.frame) 0 blankState blank := by
  obtain ⟨trees, w, hbuild, hchecks⟩ := exists_of_succeeds hstarts
  obtain ⟨hnew, hselects⟩ := Bool.and_eq_true_iff.mp hchecks
  obtain ⟨roots, hroots, hselects⟩ := Option.any_eq_true _ _ |>.mp hselects
  obtain ⟨⟨⟩, v, hblock, -⟩ := exists_of_succeeds hselects
  have hfresh : ∀ k, (w.forest.node k).computed = false := by
    intro k
    by_cases hk : k < w.forest.size
    · simpa using List.all_eq_true.mp hnew k (List.mem_range.mpr hk)
    · rw [Forest.node_of_le _ (Nat.le_of_not_lt hk)]
  exact ⟨trees, w, roots, v, hbuild, hroots, hblock,
    { mem := rfl
      deeds := rfl
      stack := rfl
      values := fun k x hk ↦ absurd (hk.symm.trans (hfresh k)) Bool.noConfusion
      rooms := fun id m hm ↦ by simp [blankWorld, hm]
      allocas := fun b id i _ hi halloca ↦
        absurd halloca (Func.isCalm_inst hcalm (Func.mem_insts_of_mem hi).2).1 }⟩

theorem keepsArguments_blank (A : Arithmetic) :
    KeepsArguments f A (blankWorld F) 0 blankState blank.core := by
  intro pre post now hsplit hnow idx _
  rw [(Func.mem_evalInsts hnow fun x hx ↦ (Func.isCalm_inst hcalm
    (Func.mem_insts_of_mem (hsplit ▸ List.mem_append_left _ hx : x ∈ f.blockInsts 0)).2).2).1]
  rfl

theorem length_args_of_isCalm : ∀ x ∈ f.blockInsts b, ∀ callee args,
    x.2.operation = .call callee args → 8 * args.length < 2 ^ 31 := by
  intro x hx callee args hcall
  have hwrites := (Func.isCalm_inst hcalm (Func.mem_insts_of_mem hx).2).2
  rw [Inst.opcode, hcall] at hwrites
  exact absurd hwrites.symm Bool.false_ne_true

/-- A blank machine leaves the first block the way in which a machine evaluates it. -/
theorem exec_blank (htyped : f.isTyped p ns = true) (hp : ∀ o, p o = true → f.bitsOf o ∈ [1, 8, 16, 32, 64])
    (hparse : parse text = .ok [f]) (hbuild : buildForest f (.start f {}) = .ok trees w)
    (hroots : trees[0]? = some roots) (hblock : selectBlock roots (turned (trees.take 0) w) = .ok () v)
    (henters : Enters f w w v (blankWorld F) 0 blankState blank) {d : Departure}
    (hdeparts : f.blankDeparture? .machine F = some d) :
    ∃ o' exit, Observed.exec (blankWorld F) c (instsAt v.code.blocks 0) blank = some (o', exit) ∧
      Leaves w o'.core d exit := by
  obtain ⟨m', heval, hd⟩ := Option.bind_eq_some_iff.mp hdeparts
  obtain ⟨o', exit, hexec, h⟩ := selectBlock_executes_of_isTyped (c := c) htyped hp hparse
    (List.mem_singleton_self _) hbuild rfl hroots hblock (length_args_of_isCalm hcalm) heval
    (keepsArguments_blank hcalm _) henters
  obtain ⟨d', hd', hleaves⟩ := h.departs
  obtain rfl := Option.some.inj (hd.symm.trans hd')
  exact ⟨o', exit, hexec, hleaves⟩

end

/-! ## Code for words -/

/-- **Code for words.** The code that is selected for a block does what the block does. -/
theorem selectBlock_keepsWords (hparse : parse text = .ok fs) (hf : f ∈ fs) (hword : f.isWordCode = true)
    (hwords : f.comparesWords = true) (hbuild : buildForest f (.start f s) = .ok trees w)
    (hbefore : selectAll (trees.take b) w = .ok () v₀) (hb : trees[b]? = some roots)
    (hblock : selectBlock roots (turned (trees.take b) v₀) = .ok () v)
    (hfew : ∀ x ∈ f.blockInsts b, ∀ callee args, x.2.operation = .call callee args →
      8 * args.length < 2 ^ 31)
    (htruthful : f.Truthful st) (heval : f.evalInsts .exact σ (f.blockInsts b) st = some st')
    (hargs : KeepsArguments f .exact σ b st o.core) (henters : Enters f w v₀ v σ b st o) :
    ∃ o' exit, Observed.exec σ c (instsAt v.code.blocks b) o = some (o', exit) ∧
      Exits f .exact w v σ b st' o o' exit := by
  have hinsts : ∀ x ∈ f.blockInsts b, f.inst? x.1 = some x.2 := fun x hx ↦ (Func.mem_insts_of_mem hx).1
  -- a machine evaluates the block in the same way
  have hmachine := Func.evalInsts_machine hword hwords hinsts htruthful heval
  have hargs' : KeepsArguments f .machine σ b st o.core := by
    intro pre post now hsplit hnow
    rw [hsplit, Func.evalInsts_append] at heval
    obtain ⟨now', hnow', -⟩ := Option.bind_eq_some_iff.mp heval
    have hsame := Func.evalInsts_machine hword hwords
      (fun x hx ↦ hinsts x (hsplit ▸ List.mem_append_left _ hx)) htruthful hnow'
    obtain rfl := Option.some.inj (hsame.symm.trans hnow)
    exact hargs pre post _ hsplit hnow'
  obtain ⟨o', exit, hexec, h⟩ := selectBlock_executes_of_isTyped (c := c) hword
    (fun _ ↦ Func.bitsOf_of_isWordCode) hparse hf hbuild hbefore hb hblock hfew hmachine hargs' henters
  refine ⟨o', exit, hexec, h.mem, h.deeds, h.stack, h.frame, h.values, ?_, fun succ ↦ ?_⟩
  · rw [Func.departure?_machine hword (htruthful.evalInsts hinsts heval)]
    exact h.departs
  · obtain ⟨hlength, hall⟩ := List.forall₂_iff_zip.mp (h.inputs succ)
    refine List.forall₂_iff_zip.mpr ⟨hlength, fun {x phi} hx y hy ↦ ?_⟩
    obtain ⟨value, hfind, hread⟩ := hall hx y hy
    have hi := (Func.mem_insts_of_mem (Func.mem_blockInsts_of_phi (List.of_mem_zip hx).1).1).2
    refine ⟨value, hfind, ?_⟩
    rw [Func.incoming_machine hword hi (List.mem_of_find?_eq_some hfind)]
    exact hread

/-! ## A comparison of truth values -/

/-- Compares the results of two comparisons, the first of which holds. -/
def orderingText (p : Predicate) : String :=
  "define i64 @f(i64 %x) \x7b\n" ++
  "  %a = icmp eq i64 %x, 0\n" ++
  "  %b = icmp ne i64 %x, 0\n" ++
  "  %c = icmp " ++ p.text ++ " i1 %a, %b\n" ++
  "  %z = zext i1 %c to i64\n" ++
  "  ret i64 %z\n" ++
  "\x7d\n"

def ordering (p : Predicate) : Func where
  name := "f"
  ret := .int 64
  params := [⟨"x", .int 64⟩]
  blocks := [⟨"entry", [⟨some "a", .int 1, .icmp .eq (.value (.arg 0)) (.int 0 64)⟩,
    ⟨some "b", .int 1, .icmp .ne (.value (.arg 0)) (.int 0 64)⟩,
    ⟨some "c", .int 1, .icmp p (.value (.inst 0)) (.value (.inst 1))⟩,
    ⟨some "z", .int 64, .cast .zext (.value (.inst 2))⟩,
    ⟨none, .int 64, .ret (some (.value (.inst 3)))⟩]⟩]

theorem ordering_starts {q : Predicate} (hq : q ∈ [.ult, .slt]) :
    parse (orderingText q) = .ok [ordering q] ∧ (ordering q).startsAnew = true := by
  rw [parse_eq_parseChars]
  simp only [List.mem_cons, List.not_mem_nil, or_false] at hq
  rcases hq with rfl | rfl
  all_goals
    unfold orderingText
    simp only [Predicate.text, String.toList_append, String.reduceToList]
    decide +kernel

/-- As truth values and as words alike, the first result is not less than the second. -/
theorem ordering_keepsWords : parse (orderingText .ult) = .ok [ordering .ult] ∧
    (ordering .ult).isWordCode = true ∧ (ordering .ult).comparesWords = true ∧
    ∃ trees w roots v st', buildForest (ordering .ult) (.start (ordering .ult) {}) = .ok trees w ∧
      trees[0]? = some roots ∧ selectBlock roots (turned (trees.take 0) w) = .ok () v ∧
      (ordering .ult).evalInsts .exact (blankWorld v.code.frame) ((ordering .ult).blockInsts 0) blankState =
        some st' ∧
      ∀ c, ∃ o' exit,
        Observed.exec (blankWorld v.code.frame) c (instsAt v.code.blocks 0) blank = some (o', exit) ∧
          Exits (ordering .ult) .exact w v (blankWorld v.code.frame) 0 st' blank o' exit := by
  obtain ⟨hparse, hstarts⟩ := ordering_starts (q := .ult) (by decide)
  have hword : (ordering .ult).isWordCode = true := by decide
  have hcalm : (ordering .ult).isCalm = true := by decide
  obtain ⟨trees, w, roots, v, hbuild, hroots, hblock, henters⟩ := exists_blank hcalm hstarts
  obtain ⟨st', heval⟩ : ∃ st', (ordering .ult).evalInsts .exact (blankWorld v.code.frame)
    ((ordering .ult).blockInsts 0) blankState = some st' := ⟨_, rfl⟩
  exact ⟨hparse, hword, by decide, trees, w, roots, v, st', hbuild, hroots, hblock, heval, fun c ↦
    selectBlock_keepsWords hparse (List.mem_singleton_self _) hword (by decide) hbuild rfl hroots hblock
      (length_args_of_isCalm hcalm) (fun _ _ ↦ ⟨false, rfl⟩) heval (keepsArguments_blank hcalm _) henters⟩

/-- As signed truth values the first result is less than the second, and as words it is not. -/
theorem ordering_comparesWords : parse (orderingText .slt) = .ok [ordering .slt] ∧
    (ordering .slt).isWordCode = true ∧ (ordering .slt).Truthful blankState ∧
    ∃ trees w roots v st', buildForest (ordering .slt) (.start (ordering .slt) {}) = .ok trees w ∧
      trees[0]? = some roots ∧ selectBlock roots (turned (trees.take 0) w) = .ok () v ∧
      (ordering .slt).evalInsts .exact (blankWorld v.code.frame) ((ordering .slt).blockInsts 0) blankState =
        some st' ∧
      KeepsArguments (ordering .slt) .exact (blankWorld v.code.frame) 0 blankState blank.core ∧
      Enters (ordering .slt) w w v (blankWorld v.code.frame) 0 blankState blank ∧
      ∀ c, ¬ ∃ o' exit,
        Observed.exec (blankWorld v.code.frame) c (instsAt v.code.blocks 0) blank = some (o', exit) ∧
          Exits (ordering .slt) .exact w v (blankWorld v.code.frame) 0 st' blank o' exit := by
  obtain ⟨hparse, hstarts⟩ := ordering_starts (q := .slt) (by decide)
  have hword : (ordering .slt).isWordCode = true := by decide
  have hcalm : (ordering .slt).isCalm = true := by decide
  obtain ⟨trees, w, roots, v, hbuild, hroots, hblock, henters⟩ := exists_blank hcalm hstarts
  have hexact : (ordering .slt).blankDeparture? .exact v.code.frame = some (.ret (some 1)) := by cbv
  have hmachine : (ordering .slt).blankDeparture? .machine v.code.frame = some (.ret (some 0)) := by cbv
  obtain ⟨st', heval, hexact⟩ := Option.bind_eq_some_iff.mp hexact
  refine ⟨hparse, hword, fun _ _ ↦ ⟨false, rfl⟩, trees, w, roots, v, st', hbuild, hroots, hblock, heval,
    keepsArguments_blank hcalm _, henters, ?_⟩
  rintro c ⟨o', exit, hexec, h⟩
  obtain ⟨o₁, exit₁, hexec', hleaves'⟩ := exec_blank (c := c) hcalm hword
    (fun _ ↦ Func.bitsOf_of_isWordCode) hparse hbuild hroots hblock henters hmachine
  obtain ⟨rfl, rfl⟩ := Prod.mk.inj (Option.some.inj (hexec'.symm.trans hexec))
  -- one run would return both results
  obtain ⟨d, hd, hleaves⟩ := h.departs
  obtain rfl := Option.some.inj (hexact.symm.trans hd)
  cases exit₁ with
  | ret => exact absurd ((hleaves 1 rfl).symm.trans (hleaves' 0 rfl)) (by decide)
  | _ => exact hleaves

/-! ## Low bits -/

theorem Ir.Func.evalInst_terminator {A : Arithmetic} {x : InstId × ResolvedInst}
    (hx : x.2.opcode.isTerminator = true) (h : f.evalInst A σ st x = some st') : st' = st := by
  rw [Func.evalInst] at h
  rw [Inst.opcode] at hx
  cases hoperation : x.2.operation with
  | br | condBr | ret =>
    rw [hoperation] at h
    exact (Option.some.inj h).symm
  | _ =>
    rw [hoperation] at hx
    exact absurd hx Bool.false_ne_true

theorem Forest.worth_of_inst {g : Forest} {k : NodeId} {op : Opcode} {id : InstId} {values : InstId → Word}
    (hop : (g.node k).op = .inst op) (hne : op ≠ .alloca) (hsource : (g.node k).source = some id) :
    g.worth σ values k = values id := by
  simp only [Forest.worth, hop, hsource]
  split
  next h => cases h
  next h => cases h
  next h => exact absurd (NodeOp.inst.inj h) hne
  next => rfl

/-- The machine has left block `b`, whose evaluation ends in `st`, with the low bits of what the block
computes in its registers: it goes where the block goes, and has the results of comparisons. -/
structure ExitsLow (f : Func) (w v : Workspace) (σ : World) (b : BlockId) (st : BlockState) (o : Observed)
    (exit : Observed.Exit) : Prop where
  mem : o.core.mem = st.mem
  deeds : o.deeds = st.deeds
  values : ∀ k x id op, (v.forest.node k).computed = true → (v.forest.node k).slot = .vreg x →
    (w.forest.node k).op = .inst op → op ≠ .alloca → (w.forest.node k).source = some id →
      SameLow (f.bitsOf (.value (.inst id))) (st.values id) (o.core.regs (.virt x)) ∧
        (op = .icmp → o.core.regs (.virt x) = st.values id)
  departs : ∃ x d, (f.blockInsts b).getLast? = some x ∧ Leaves w o.core d exit ∧
    (f.departure? .exact σ b st).map (.low x.2.ty.bits) = some (d.low x.2.ty.bits)

/-- **Low bits.** The code that is selected for a block computes the low bits of what the block computes,
if it finds the words it looks for. -/
theorem selectBlock_keepsLow (hparse : parse text = .ok fs) (hf : f ∈ fs) (hnarrow : f.isNarrowCode = true)
    (hbuild : buildForest f (.start f s) = .ok trees w)
    (hbefore : selectAll (trees.take b) w = .ok () v₀) (hb : trees[b]? = some roots)
    (hblock : selectBlock roots (turned (trees.take b) v₀) = .ok () v)
    (hfew : ∀ x ∈ f.blockInsts b, ∀ callee args, x.2.operation = .call callee args →
      8 * args.length < 2 ^ 31)
    (heval : f.evalInsts .exact σ (f.blockInsts b) st = some st') (hlow : f.SharesLow st m)
    (hfinds : f.FindsAll σ b m) (hargs : KeepsArguments f .machine σ b m o.core)
    (henters : Enters f w v₀ v σ b m o) :
    ∃ o' exit, Observed.exec σ c (instsAt v.code.blocks b) o = some (o', exit) ∧
      ExitsLow f w v σ b st' o' exit := by
  obtain ⟨hp, hlength⟩ := buildForest_planted hbuild
  obtain ⟨hlt, -⟩ := List.getElem?_eq_some_iff.mp hb
  have hwell : f.WellFormed := parse_reads hparse (fun _ ↦ readLines_wellFormed nofun) f hf
  obtain ⟨m', hmachine, hlow'⟩ := Func.evalInsts_low hnarrow
    (fun x hx ↦ (Func.mem_insts_of_mem hx).1) hlow hfinds heval
  obtain ⟨o', exit, hexec, h⟩ := selectBlock_executes_of_isTyped (c := c)
    (Bool.and_eq_true_iff.mp hnarrow).1 (fun _ ↦ of_decide_eq_true) hparse hf hbuild hbefore hb hblock hfew
    hmachine hargs henters
  -- what the terminator finds
  obtain ⟨is, last, hinsts, hterminator, -⟩ := hwell.blockInsts (hlength ▸ hlt)
  have hlast : (f.blockInsts b).getLast? = some last := by rw [hinsts, List.getLast?_concat]
  have hfound : f.FindsWords σ m' last.2 := by
    rw [hinsts, Func.evalInsts_append] at hmachine
    obtain ⟨now, hnow, hend⟩ := Option.bind_eq_some_iff.mp hmachine
    rw [Func.evalInsts_cons] at hend
    obtain ⟨_, hstep, hnil⟩ := Option.bind_eq_some_iff.mp hend
    obtain rfl := Option.some.inj hnil
    rw [Func.evalInst_terminator hterminator hstep]
    exact hfinds is last [] now hinsts hnow
  refine ⟨o', exit, hexec, h.mem.trans hlow'.mem, h.deeds.trans hlow'.deeds, ?_, ?_⟩
  · intro k x id op hk hx hop hne hsource
    rw [h.values k x hk hx, Forest.worth_of_inst hop hne hsource]
    refine ⟨hlow'.values id, ?_⟩
    rintro rfl
    obtain ⟨_, id', i, _, hi, hopcode, his⟩ := hp.of_inst hop Opcode.noConfusion
    obtain rfl := Option.some.inj (his.source.symm.trans hsource)
    exact hlow'.truths _ i (Func.mem_insts_of_mem hi).1 hopcode
  · obtain ⟨d, hd, hleaves⟩ := h.departs
    refine ⟨last, d, hlast, hleaves, ?_⟩
    rw [Func.departure?_low hnarrow hlast hlow' hfound, hd, Option.map_some]

/-! ## Shifts of truncated values -/

/-- Shifts the low eight bits of a word that has a higher bit set. -/
def shiftingText (op : BinaryOp) : String :=
  "define i64 @f(i64 %x) \x7b\n" ++
  "  %y = add i64 %x, 256\n" ++
  "  %t = trunc i64 %y to i8\n" ++
  "  %s = " ++ op.text ++ " i8 %t, 1\n" ++
  "  %z = zext i8 %s to i64\n" ++
  "  ret i64 %z\n" ++
  "\x7d\n"

def shifting (op : BinaryOp) : Func where
  name := "f"
  ret := .int 64
  params := [⟨"x", .int 64⟩]
  blocks := [⟨"entry", [⟨some "y", .int 64, .binary .add (.value (.arg 0)) (.int 256 64)⟩,
    ⟨some "t", .int 8, .cast .trunc (.value (.inst 0))⟩,
    ⟨some "s", .int 8, .binary op (.value (.inst 1)) (.int 1 8)⟩,
    ⟨some "z", .int 64, .cast .zext (.value (.inst 2))⟩,
    ⟨none, .int 64, .ret (some (.value (.inst 3)))⟩]⟩]

theorem shifting_starts {q : BinaryOp} (hq : q ∈ [.shl, .lshr]) :
    parse (shiftingText q) = .ok [shifting q] ∧ (shifting q).startsAnew = true := by
  rw [parse_eq_parseChars]
  simp only [List.mem_cons, List.not_mem_nil, or_false] at hq
  rcases hq with rfl | rfl
  all_goals
    unfold shiftingText
    simp only [BinaryOp.text, String.toList_append, String.reduceToList]
    decide +kernel

/-- A shift to the left looks at the low bits of the value, and at six bits of its amount. -/
theorem shifting_keepsLow : parse (shiftingText .shl) = .ok [shifting .shl] ∧
    (shifting .shl).isNarrowCode = true ∧ (shifting .shl).SharesLow blankState blankState ∧
    ∃ trees w roots v st', buildForest (shifting .shl) (.start (shifting .shl) {}) = .ok trees w ∧
      trees[0]? = some roots ∧ selectBlock roots (turned (trees.take 0) w) = .ok () v ∧
      (shifting .shl).evalInsts .exact (blankWorld v.code.frame) ((shifting .shl).blockInsts 0) blankState =
        some st' ∧
      ∀ c, ∃ o' exit,
        Observed.exec (blankWorld v.code.frame) c (instsAt v.code.blocks 0) blank = some (o', exit) ∧
          ExitsLow (shifting .shl) w v (blankWorld v.code.frame) 0 st' o' exit := by
  obtain ⟨hparse, hstarts⟩ := shifting_starts (q := .shl) (by decide)
  have hnarrow : (shifting .shl).isNarrowCode = true := by decide
  have hcalm : (shifting .shl).isCalm = true := by decide
  have hlow : (shifting .shl).SharesLow blankState blankState := .refl _ _
  obtain ⟨trees, w, roots, v, hbuild, hroots, hblock, henters⟩ := exists_blank hcalm hstarts
  obtain ⟨st', heval⟩ : ∃ st', (shifting .shl).evalInsts .exact (blankWorld v.code.frame)
    ((shifting .shl).blockInsts 0) blankState = some st' := ⟨_, rfl⟩
  exact ⟨hparse, hnarrow, hlow, trees, w, roots, v, st', hbuild, hroots, hblock, heval, fun c ↦
    selectBlock_keepsLow hparse (List.mem_singleton_self _) hnarrow hbuild rfl hroots hblock
      (length_args_of_isCalm hcalm) heval hlow
      (Func.findsAll_of_looksLow (by decide) fun _ _ ↦ ⟨false, rfl⟩) (keepsArguments_blank hcalm _) henters⟩

/-- A shift to the right moves a bit above the low ones into them. -/
theorem shifting_shiftsWords : parse (shiftingText .lshr) = .ok [shifting .lshr] ∧
    (shifting .lshr).isNarrowCode = true ∧ (shifting .lshr).SharesLow blankState blankState ∧
    ∃ trees w roots v st', buildForest (shifting .lshr) (.start (shifting .lshr) {}) = .ok trees w ∧
      trees[0]? = some roots ∧ selectBlock roots (turned (trees.take 0) w) = .ok () v ∧
      (shifting .lshr).evalInsts .exact (blankWorld v.code.frame) ((shifting .lshr).blockInsts 0) blankState =
        some st' ∧
      KeepsArguments (shifting .lshr) .machine (blankWorld v.code.frame) 0 blankState blank.core ∧
      Enters (shifting .lshr) w w v (blankWorld v.code.frame) 0 blankState blank ∧
      ∀ c, ¬ ∃ o' exit,
        Observed.exec (blankWorld v.code.frame) c (instsAt v.code.blocks 0) blank = some (o', exit) ∧
          ExitsLow (shifting .lshr) w v (blankWorld v.code.frame) 0 st' o' exit := by
  obtain ⟨hparse, hstarts⟩ := shifting_starts (q := .lshr) (by decide)
  have hnarrow : (shifting .lshr).isNarrowCode = true := by decide
  have hcalm : (shifting .lshr).isCalm = true := by decide
  obtain ⟨trees, w, roots, v, hbuild, hroots, hblock, henters⟩ := exists_blank hcalm hstarts
  have hexact : (shifting .lshr).blankDeparture? .exact v.code.frame = some (.ret (some 0)) := by cbv
  have hmachine : (shifting .lshr).blankDeparture? .machine v.code.frame = some (.ret (some 128)) := by cbv
  obtain ⟨st', heval, hexact⟩ := Option.bind_eq_some_iff.mp hexact
  refine ⟨hparse, hnarrow, .refl _ _, trees, w, roots, v, st', hbuild, hroots, hblock, heval,
    keepsArguments_blank hcalm _, henters, ?_⟩
  rintro c ⟨o', exit, hexec, h⟩
  obtain ⟨o₁, exit₁, hexec', hleaves'⟩ := exec_blank (c := c) hcalm (Bool.and_eq_true_iff.mp hnarrow).1
    (fun _ ↦ of_decide_eq_true) hparse hbuild hroots hblock henters hmachine
  obtain ⟨rfl, rfl⟩ := Prod.mk.inj (Option.some.inj (hexec'.symm.trans hexec))
  -- one run would return both results
  obtain ⟨x, d, hlast, hleaves, hlow⟩ := h.departs
  obtain rfl := Option.some.inj ((rfl : ((shifting .lshr).blockInsts 0).getLast? = _).symm.trans hlast)
  rw [hexact] at hlow
  cases exit₁ with
  | ret =>
    cases d with
    | goto => exact hleaves
    | ret value =>
      obtain ⟨z, rfl, hz⟩ := Option.map_eq_some_iff.mp (Departure.ret.inj (Option.some.inj hlow)).symm
      rw [← hleaves z rfl, hleaves' 128 rfl] at hz
      exact absurd hz (by decide)
  | _ => exact hleaves'

end TreeCover
