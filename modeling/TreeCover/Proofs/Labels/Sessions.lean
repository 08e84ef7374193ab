import TreeCover.Proofs.Convention.Compiled
import TreeCover.Proofs.Independence.Modules
import TreeCover.Proofs.Labels.Layout
import TreeCover.Proofs.Labels.Selected

/-!
# Labels of a session

Modules that are compiled with one session draw their labels from one counter, which only goes up, also
where a function fails. What a function draws is between what the counter says before it and after it,
so no label is defined in two functions, and within a function each one is defined once. A branch in the
code of a block goes to the front of a block that the branch in the source names, or to a stub that ends
in a jump there. Main statement: `compileModules_labels`.
-/

namespace TreeCover

open Ir Machine Work Assembly

variable {f : Func} {fs : List Func} {c : Compiled} {cs : List Compiled} {s s' : Session}
  {w₀ w : Workspace} {k m n : LabelId} {ls ls' : List LabelId} {trees : List (List NodeId)} {x : Unit}
  {pieces : List Piece} {l : LabelId} {u : BlockId}

/-! ## Labels between two states of the counter -/

/-- The labels `ls` are different, from `m` on and below `n`. -/
structure LabelsWithin (m n : LabelId) (ls : List LabelId) : Prop where
  le : m ≤ n
  mem : ∀ l ∈ ls, m ≤ l ∧ l < n
  nodup : ls.Nodup

namespace LabelsWithin

theorem nil (h : m ≤ n) : LabelsWithin m n [] := ⟨h, List.forall_mem_nil _, .nil⟩

theorem append (h : LabelsWithin m k ls) (h' : LabelsWithin k n ls') :
    LabelsWithin m n (ls ++ ls') where
  le := Nat.le_trans h.le h'.le
  mem := List.forall_mem_append.mpr
    ⟨fun l hl ↦ ⟨(h.mem l hl).1, Nat.lt_of_lt_of_le (h.mem l hl).2 h'.le⟩,
      fun l hl ↦ ⟨Nat.le_trans h.le (h'.mem l hl).1, (h'.mem l hl).2⟩⟩
  nodup := by
    refine List.nodup_append.mpr ⟨h.nodup, h'.nodup, fun l hl l' hl' heq ↦ ?_⟩
    exact Nat.not_le_of_lt (h.mem l hl).2 (heq ▸ (h'.mem l' hl').1)

theorem range' (n len : Nat) : LabelsWithin n (n + len) (List.range' n len) :=
  ⟨Nat.le_add_right n len, fun _ hl ↦ List.mem_range'_1.mp hl, List.nodup_range' ..⟩

/-- A label that is there is there once. -/
theorem count (h : LabelsWithin m n ls) (hl : l ∈ ls) : ls.count l = 1 :=
  List.count_eq_one_of_mem h.nodup hl

end LabelsWithin

/-! ## Functions -/

/-- The labels of blocks lie between what the session had handed out before the function and after it. -/
theorem Workspace.Labelling.within {base : LabelId} (h : w.Labelling base) (n : Nat) :
    LabelsWithin base w.session.nextLabel ((List.range n).filterMap (blockLabel? w)) where
  le := h.start
  mem l hl := by
    obtain ⟨b, -, hb⟩ := List.mem_filterMap.mp hl
    exact h.drawn b l hb
  nodup := by
    refine List.Pairwise.filterMap _ (fun b b' hne l hl l' hl' heq ↦ hne ?_) List.nodup_range
    exact h.distinct b b' l hl (heq ▸ hl')

/-- Every branch of the function names blocks of the function. -/
def Ir.Func.NamesBlocks (f : Func) : Prop := ∀ b u, f.BranchesTo b u → u < f.blocks.length

/-- The piece of block `u` begins with the label `l`. -/
def HeadedBy (pieces : List Piece) (u : BlockId) (l : LabelId) : Prop :=
  ∃ piece rest, pieces[u]? = some piece ∧ piece.1 = .label l :: rest

/-- The label `l` is defined once in `code`, in front of a block that is named where block `t` ends. -/
structure Found (f : Func) (pieces : List Piece) (code : List Machine.Inst) (t : BlockId)
    (l : LabelId) : Prop where
  once : (labelsOf code).count l = 1
  block : ∃ u, f.BranchesTo t u ∧ HeadedBy pieces u l

/-- `code` is the code of `f`, made of the pieces of its blocks and of their stubs, and its branches find
their labels. Each branch in the code of block `t` is one of the selected code, whose label is in front
of a block that is named there: either the branch as it was, or sent to a stub, whose label is defined
once and which ends in a jump to the label that the branch had. -/
structure Resolved (f : Func) (p : Plan) (frameBytes : Nat) (pieces : List Piece)
    (stubCode : List (List Machine.Inst)) (code : List Machine.Inst) : Prop
    extends Sections p frameBytes pieces stubCode code where
  blocks : pieces.length = f.blocks.length
  branches : ∀ (t : BlockId) b piece, p.blocks[t]? = some b → pieces[t]? = some piece →
    ∀ i ∈ piece.1, i.isBranch = true → ∃ j ∈ b.insts, ∃ l, j.operands = [.label l] ∧
      Found f pieces code t l ∧
        (i = j ∨ ∃ st ∈ piece.2, SentTo st j i ∧ (labelsOf code).count st.label = 1)
  jumps : ∀ (t : BlockId) piece, pieces[t]? = some piece → ∀ st ∈ piece.2,
    ∃ l, st.target = .label l ∧ Found f pieces code t l

/-- The compiled function `c` is resolved, for its own blocks and allocation. -/
def Compiled.Resolves (c : Compiled) (f : Func) : Prop :=
  ∃ p frameBytes pieces stubCode, p.blocks = c.blocks ∧ p.allocation = c.allocation ∧
    Resolved f p frameBytes pieces stubCode c.assembly.insts

section Resolution

variable {p : Plan} {frameBytes : Nat} {stubCode : List (List Machine.Inst)}
  {code : List Machine.Inst}

theorem mem_labelsOf (h : Machine.Inst.label l ∈ code) : l ∈ labelsOf code :=
  List.mem_filterMap.mpr ⟨_, h, rfl⟩

/-- A label in front of a piece is defined. -/
theorem HeadedBy.mem (h : HeadedBy pieces u l) (hcode : Sections p frameBytes pieces stubCode code) :
    l ∈ labelsOf code := by
  obtain ⟨piece, rest, hpiece, hhead⟩ := h
  refine mem_labelsOf ?_
  rw [hcode.insts]
  refine List.mem_append_left _ (List.mem_append_right _ (List.mem_flatMap.mpr ⟨piece, ?_, ?_⟩))
  · exact List.mem_of_getElem? hpiece
  · exact hhead ▸ List.mem_cons_self

/-- The label of a stub is defined. -/
theorem Assembly.Sections.mem_stub {piece : Piece} {st : Stub}
    (hcode : Sections p frameBytes pieces stubCode code) (hpiece : piece ∈ pieces)
    (hst : st ∈ piece.2) : st.label ∈ labelsOf code := by
  obtain ⟨k, hk, rfl⟩ := List.getElem_of_mem (List.mem_flatMap.mpr ⟨piece, hpiece, hst⟩)
  have hk' : k < stubCode.length := hcode.stubs.length_eq ▸ hk
  obtain ⟨l, ps, -, -, his⟩ := hcode.stubs.get hk hk'
  refine mem_labelsOf ?_
  rw [hcode.insts]
  refine List.mem_append_right _ (List.mem_flatten.mpr ⟨_, List.getElem_mem hk', ?_⟩)
  rw [show stubCode[k] = _ from his]
  exact List.mem_cons_self

end Resolution

/-- **Labels of a function.** A compiled function defines labels that were drawn for it, each once, and
its branches find theirs. -/
theorem compileFunc_labels (h : (compileFunc f).run s = .ok c s') :
    LabelsWithin s.nextLabel s'.nextLabel (labelsOf c.assembly.insts) ∧
      (f.NamesBlocks → c.Resolves f) := by
  obtain ⟨s₁, w, budget, s₂, s₃, hx, hblocks, -, hlayout, hs₁, hs₂, hs'⟩ := compileFunc_stages h
  obtain ⟨trees, w₀, hbuild, hselect⟩ := bind_eq_ok.mp hx
  have hlabelling := labelling_buildForest hbuild
  obtain ⟨hbranches, hheads⟩ := selected_branches hbuild hselect
  have hthreaded := selected_isThreaded hx
  obtain ⟨pieces, stubCode, hsections, hlabels, hnext⟩ := layout_sections hthreaded hlayout
  have hwithin : LabelsWithin s.nextLabel s'.nextLabel (labelsOf c.assembly.insts) := by
    have hblockLabels : w.code.blocks.filterMap (·.label) =
        (List.range f.blocks.length).filterMap (blockLabel? w₀) := by
      have hmap := congrArg (List.filterMap id) hheads
      rwa [List.filterMap_map, List.filterMap_map] at hmap
    have hmid : w₀.session.nextLabel = s₂.nextLabel := by
      rw [hs₂, (names_selectAll hselect).nextLabel]
    rw [hlabels, hblockLabels, hs', hnext, ← hs₁]
    exact (hmid ▸ hlabelling.within f.blocks.length).append (.range' _ _)
  refine ⟨hwithin, fun hnamed ↦ ?_⟩
  have hlength : pieces.length = f.blocks.length := by
    have hmap := congrArg List.length hheads
    rw [List.length_map, List.length_map, List.length_range] at hmap
    exact hsections.length.trans hmap
  -- what is known of the piece of a block
  have hpiece : ∀ (t : BlockId) piece, pieces[t]? = some piece → ∃ b code s s', w.code.blocks[t]? = some b ∧
      b.label = blockLabel? w₀ t ∧ piece.1 = (b.label.map Inst.label).toList ++ code ∧
        Routes b.insts (code, piece.2) s s' := by
    intro t piece ht
    obtain ⟨b, s₄, s₅, hb, hblock⟩ := hsections.piece t piece ht
    obtain ⟨_, hinsts⟩ := exists_selectedStep hthreaded (List.mem_of_getElem? hb)
    obtain ⟨code, hcode, hroutes⟩ := block_routes hinsts hblock
    refine ⟨b, code, s₄, s₅, hb, ?_, hcode, hroutes⟩
    have hhead := congrArg (·[t]?) hheads
    have hlt : t < f.blocks.length := hlength ▸ (List.getElem?_eq_some_iff.mp ht).1
    simp only [List.getElem?_map] at hhead
    rw [show w.code.blocks[t]? = some b from hb, List.getElem?_range hlt] at hhead
    exact Option.some.inj hhead
  -- the label of a selected branch
  have hfound : ∀ (t : BlockId) b i, w.code.blocks[t]? = some b → i ∈ b.insts → i.isBranch = true →
      ∃ l, i.operands = [.label l] ∧ Found f pieces c.assembly.insts t l := by
    intro t b i hb hi hbranch
    obtain ⟨l, hops, u, hu, hl⟩ := hbranches t b hb i hi hbranch
    have hlt : u < pieces.length := hlength ▸ hnamed t u hu
    obtain ⟨b', code, _, _, -, hlabel, hcode, -⟩ := hpiece u _ (List.getElem?_eq_getElem hlt)
    have hheaded : HeadedBy pieces u l :=
      ⟨_, code, List.getElem?_eq_getElem hlt, by rw [hcode, hlabel, hl]; rfl⟩
    exact ⟨l, hops, hwithin.count (hheaded.mem hsections), u, hu, hheaded⟩
  refine ⟨_, _, pieces, stubCode, hblocks.symm, rfl, hsections, hlength,
    fun t b piece hb ht i hi hbranch ↦ ?_, fun t piece ht st hst ↦ ?_⟩
  · obtain ⟨b', code, _, _, hb', -, hcode, hroutes⟩ := hpiece t piece ht
    obtain rfl : b = b' := Option.some.inj (hb.symm.trans hb')
    have hi' : i ∈ code := by
      rw [hcode] at hi
      refine (List.mem_append.mp hi).resolve_left fun hi ↦ ?_
      obtain ⟨l, -, rfl⟩ := Option.map_eq_some_iff.mp (Option.mem_toList.mp hi)
      exact absurd hbranch Bool.false_ne_true
    obtain ⟨j, hj, hjump, hsent⟩ := hroutes.branches i hi' hbranch
    obtain ⟨l, hops, hl⟩ := hfound t b j hb' hj hjump
    refine ⟨j, hj, l, hops, hl, hsent.imp_right fun ⟨st, hst, hsent⟩ ↦ ⟨st, hst, hsent, ?_⟩⟩
    exact hwithin.count (hsections.mem_stub (List.mem_of_getElem? ht) hst)
  · obtain ⟨b, code, _, _, hb, -, -, hroutes⟩ := hpiece t piece ht
    obtain ⟨i, hi, hbranch, hops⟩ := hroutes.stubs st hst
    obtain ⟨l, hops', hl⟩ := hfound t b i hb hi hbranch
    exact ⟨l, List.singleton_inj.mp (hops.symm.trans hops'), hl⟩

/-- A function draws labels whether it fails or not. -/
theorem compileFunc_next (f : Func) (s : Session) :
    (∃ c s', (compileFunc f).run s = .ok c s' ∧ s.nextLabel ≤ s'.nextLabel) ∨
      ∃ e s', (compileFunc f).run s = .error e s' ∧ s.nextLabel ≤ s'.nextLabel := by
  obtain ⟨s', -, hnext, hrun⟩ := compileFunc_alone f s
  have hle : s.nextLabel ≤ s'.nextLabel := by
    rw [hnext]
    exact Nat.le_add_right _ _
  rw [hrun]
  cases resultAlone s.config f s.nextLabel with
  | ok c => exact Or.inl ⟨c, s', rfl, hle⟩
  | error e => exact Or.inr ⟨e, s', rfl, hle⟩

/-! ## Modules -/

/-- The labels that compiled functions define. -/
def labelsOfAll (cs : List Compiled) : List LabelId := cs.flatMap fun c ↦ labelsOf c.assembly.insts

/-- `c` is what some session made of a function of `fs`, and its branches are resolved. -/
def IsResultOf (fs : List Func) (c : Compiled) : Prop :=
  ∃ f ∈ fs, (∃ s s', (compileFunc f).run s = .ok c s') ∧ (f.NamesBlocks → c.Resolves f)

theorem IsResultOf.mono {fs' : List Func} (h : IsResultOf fs c) (hsub : fs ⊆ fs') :
    IsResultOf fs' c := by
  obtain ⟨f, hf, hrest⟩ := h
  exact ⟨f, hsub hf, hrest⟩

/-- The functions `cs` were made of `fs`, and their labels were drawn from `m` to `n`. -/
structure MadeOf (fs : List Func) (m n : LabelId) (cs : List Compiled) : Prop where
  labels : LabelsWithin m n (labelsOfAll cs)
  results : ∀ c ∈ cs, IsResultOf fs c

namespace MadeOf

theorem nil (h : m ≤ n) : MadeOf fs m n [] := ⟨.nil h, List.forall_mem_nil _⟩

theorem append {fs' : List Func} {cs' : List Compiled} (h : MadeOf fs m k cs)
    (h' : MadeOf fs' k n cs') : MadeOf (fs ++ fs') m n (cs ++ cs') where
  labels := by
    rw [labelsOfAll, List.flatMap_append]
    exact h.labels.append h'.labels
  results := List.forall_mem_append.mpr
    ⟨fun c hc ↦ (h.results c hc).mono (List.subset_append_left _ _),
      fun c hc ↦ (h'.results c hc).mono (List.subset_append_right _ _)⟩

theorem single (h : (compileFunc f).run s = .ok c s') :
    MadeOf [f] s.nextLabel s'.nextLabel [c] where
  labels := by
    rw [labelsOfAll, List.flatMap_singleton]
    exact (compileFunc_labels h).1
  results := List.forall_mem_singleton.mpr
    ⟨f, List.mem_singleton_self f, ⟨s, s', h⟩, (compileFunc_labels h).2⟩

end MadeOf

/-- Compiling functions one by one, whether some fail or not. -/
theorem foldl_step_madeOf (fs : List Func) (o : Outcome) (s : Session) : ∃ cs,
    (fs.foldl Outcome.step (o, s)).1.compiled = o.compiled ++ cs ∧
      MadeOf fs s.nextLabel (fs.foldl Outcome.step (o, s)).2.nextLabel cs := by
  induction fs generalizing o s with
  | nil => exact ⟨[], (List.append_nil _).symm, .nil (Nat.le_refl _)⟩
  | cons f fs ih =>
    rw [List.foldl_cons, Outcome.step]
    rcases compileFunc_next f s with ⟨c, s', hrun, -⟩ | ⟨e, s', hrun, hle⟩
    · rw [hrun]
      obtain ⟨cs, hcompiled, hmade⟩ := ih { o with compiled := o.compiled ++ [c] } s'
      exact ⟨c :: cs, hcompiled.trans (List.append_assoc _ _ _), (MadeOf.single hrun).append hmade⟩
    · rw [hrun]
      obtain ⟨cs, hcompiled, hmade⟩ := ih { o with failures := o.failures ++ [(f.name, e)] }
        (s'.report (.failed f.name e))
      have hnone : MadeOf [f] s.nextLabel s'.nextLabel [] := .nil hle
      exact ⟨cs, hcompiled, hnone.append hmade⟩

/-- Compiling functions up to the first failure. -/
theorem compileAll_madeOf (fs : List Func) (s : Session) :
    (∃ cs s', (compileAll fs).run s = .ok cs s' ∧ MadeOf fs s.nextLabel s'.nextLabel cs) ∨
      ∃ e s', (compileAll fs).run s = .error e s' ∧ s.nextLabel ≤ s'.nextLabel := by
  induction fs generalizing s with
  | nil => exact Or.inl ⟨[], s, rfl, .nil (Nat.le_refl _)⟩
  | cons f fs ih =>
    have hcons : compileAll (f :: fs) = (compileFunc f >>= fun c ↦ compileAll fs >>= fun cs ↦
        pure (c :: cs)) := List.mapM_cons
    rw [hcons]
    rcases compileFunc_next f s with ⟨c, s₁, hrun, hle⟩ | ⟨e, s₁, hrun, hle⟩
    · rcases ih s₁ with ⟨cs, s₂, hruns, hmade⟩ | ⟨e, s₂, hruns, hle'⟩
      · refine Or.inl ⟨c :: cs, s₂, ?_, (MadeOf.single hrun).append hmade⟩
        exact (bind_of_ok hrun).trans ((bind_of_ok hruns).trans rfl)
      · refine Or.inr ⟨e, s₂, ?_, Nat.le_trans hle hle'⟩
        exact (bind_of_ok hrun).trans (bind_of_error hruns)
    · exact Or.inr ⟨e, s₁, bind_of_error hrun, hle⟩

/-- Compiles a module: every function, if work goes on after failures, or all functions or none. -/
def compileModule (keepGoing : Bool) (fs : List Func) (s : Session) : List Compiled × Session :=
  if keepGoing then ((compileEach fs s).1.compiled, (compileEach fs s).2)
  else match (compileAll fs).run s with
    | .ok cs s' => (cs, s')
    | .error _ s' => ([], s')

/-- Compiles modules one after the other with one session. -/
def compileModules : List (Bool × List Func) → Session → List Compiled × Session
  | [], s => ([], s)
  | (keepGoing, fs) :: ms, s =>
    let (cs, s) := compileModule keepGoing fs s
    let (more, s) := compileModules ms s
    (cs ++ more, s)

theorem compileModule_madeOf (keepGoing : Bool) (fs : List Func) (s : Session) :
    MadeOf fs s.nextLabel (compileModule keepGoing fs s).2.nextLabel
      (compileModule keepGoing fs s).1 := by
  rw [compileModule]
  split
  · obtain ⟨cs, hcompiled, hmade⟩ := foldl_step_madeOf fs {} s
    rw [compileEach, hcompiled]
    exact hmade
  · rcases compileAll_madeOf fs s with ⟨cs, s', hrun, hmade⟩ | ⟨e, s', hrun, hle⟩
    · rw [hrun]
      exact hmade
    · rw [hrun]
      exact .nil hle

theorem compileModules_madeOf (ms : List (Bool × List Func)) (s : Session) :
    MadeOf (ms.flatMap (·.2)) s.nextLabel (compileModules ms s).2.nextLabel
      (compileModules ms s).1 := by
  induction ms generalizing s with
  | nil => exact .nil (Nat.le_refl _)
  | cons m ms ih =>
    obtain ⟨keepGoing, fs⟩ := m
    exact (compileModule_madeOf keepGoing fs s).append (ih _)

/-- **Labels of a session.** When modules are compiled with one session, whether functions fail or not,
no label is defined twice in all compiled functions together; and each compiled function, if its branches
name blocks of it, defines every label that one of its branches has, once, in front of such a block or at
a stub that ends in a jump there. -/
theorem compileModules_labels (ms : List (Bool × List Func)) (s : Session) :
    (labelsOfAll (compileModules ms s).1).Nodup ∧
      ∀ c ∈ (compileModules ms s).1, ∃ m ∈ ms, ∃ f ∈ m.2,
        (∃ s₁ s₂, (compileFunc f).run s₁ = .ok c s₂) ∧ (f.NamesBlocks → c.Resolves f) := by
  have hmade := compileModules_madeOf ms s
  refine ⟨hmade.labels.nodup, fun c hc ↦ ?_⟩
  obtain ⟨f, hf, hrest⟩ := hmade.results c hc
  obtain ⟨m, hm, hf⟩ := List.mem_flatMap.mp hf
  exact ⟨m, hm, f, hf, hrest⟩

end TreeCover
