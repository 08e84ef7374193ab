import TreeCover.Proofs.Assembly.Linearize
import TreeCover.Proofs.Convention.Finished

/-!
# Labels in laid-out code

Whatever a block looks like, the layout defines its label in front of it and no label in it. A branch
keeps its label, or gets that of a stub, which was drawn for it and ends in a jump to where the branch
went. So all labels of a function are those of its blocks and those of its stubs, each defined once.
Main statement: `layout_sections`.
-/

namespace TreeCover

open Machine Assembly Work

variable {p : Plan} {a : Allocation} {blocks : List Block} {b : Block} {i : Inst}
  {code is js : List Inst} {pieces : List Piece} {piece piece' : Piece} {stubs : List Stub}
  {stubCode : List (List Inst)} {l : LabelId} {idx frameBytes : Nat} {s s' s₁ : Session}
  {f : Assembly} {calls : String → List Operand → Prop} {q q' : Stacked}

/-! ## Single instructions -/

/-- Selected code defines no label. -/
theorem SelectedStep.label? (h : SelectedStep calls q i q') : i.label? = none := by
  cases h with
  | calm hi => rw [Inst.label?, hi.plain]
  | _ => rfl

namespace Assembly

theorem labelsOf_epilogue (saves : List Save) : labelsOf (epilogue saves) = [] := by
  rw [epilogue_eq, labelsOf_append, labelsOf_of_straight (restores_straight saves)]
  rfl

theorem isBranch_epilogue (saves : List Save) : ∀ i ∈ epilogue saves, i.isBranch = false := by
  rw [epilogue_eq]
  refine List.forall_mem_append.mpr ⟨fun i hi ↦ ?_, List.forall_mem_singleton.mpr rfl⟩
  exact isBranch_of_isStraight (restores_straight saves i hi)

/-- The branch `i` is `j`, sent to the stub `st` that goes where `j` went. -/
def SentTo (st : Stub) (j i : Inst) : Prop :=
  j.operands = [st.target] ∧ i = { j with operands := [.label st.label] }

/-- `Routes is piece s s'` says that `piece` may have been made of `is`: it defines no label, a branch
in it is one of `is`, as it was or sent to a stub, and a stub goes where a branch of `is` goes. The
labels of the stubs were drawn from `s` to `s'`. -/
structure Routes (is : List Inst) (piece : Piece) (s s' : Session) : Prop where
  labels : labelsOf piece.1 = []
  branches : ∀ i ∈ piece.1, i.isBranch = true →
    ∃ j ∈ is, j.isBranch = true ∧ (i = j ∨ ∃ st ∈ piece.2, SentTo st j i)
  stubs : ∀ st ∈ piece.2, ∃ i ∈ is, i.isBranch = true ∧ i.operands = [st.target]
  drawn : Drawn piece.2 s s'

namespace Routes

theorem nil (s : Session) : Routes [] ([], []) s s :=
  ⟨rfl, List.forall_mem_nil _, List.forall_mem_nil _, .nil rfl⟩

theorem append (h : Routes is piece s s₁) (h' : Routes js piece' s₁ s') :
    Routes (is ++ js) (piece.1 ++ piece'.1, piece.2 ++ piece'.2) s s' where
  labels := by rw [labelsOf_append, h.labels, h'.labels, List.nil_append]
  branches i hi hbranch := by
    rcases List.mem_append.mp hi with hi | hi
    · obtain ⟨j, hj, hjump, hsent⟩ := h.branches i hi hbranch
      refine ⟨j, List.mem_append_left _ hj, hjump, hsent.imp_right fun ⟨st, hst, hsent⟩ ↦ ?_⟩
      exact ⟨st, List.mem_append_left _ hst, hsent⟩
    · obtain ⟨j, hj, hjump, hsent⟩ := h'.branches i hi hbranch
      refine ⟨j, List.mem_append_right _ hj, hjump, hsent.imp_right fun ⟨st, hst, hsent⟩ ↦ ?_⟩
      exact ⟨st, List.mem_append_right _ hst, hsent⟩
  stubs st hst := by
    rcases List.mem_append.mp hst with hst | hst
    · obtain ⟨i, hi, hrest⟩ := h.stubs st hst
      exact ⟨i, List.mem_append_left _ hi, hrest⟩
    · obtain ⟨i, hi, hrest⟩ := h'.stubs st hst
      exact ⟨i, List.mem_append_right _ hi, hrest⟩
  drawn := h.drawn.append h'.drawn

/-- Straight code, which may come from anywhere. -/
theorem of_straight (h : ∀ i ∈ code, i.isStraight = true) (hs : s'.nextLabel = s.nextLabel) :
    Routes [] (code, []) s s' where
  labels := labelsOf_of_straight h
  branches j hj hbranch := absurd hbranch (by simp [isBranch_of_isStraight (h j hj)])
  stubs := List.forall_mem_nil _
  drawn := .nil hs

theorem mono (h : Routes is piece s s') (hsub : is ⊆ js) : Routes js piece s s' where
  labels := h.labels
  branches i hi hbranch := by
    obtain ⟨j, hj, hrest⟩ := h.branches i hi hbranch
    exact ⟨j, hsub hj, hrest⟩
  stubs st hst := by
    obtain ⟨i, hi, hrest⟩ := h.stubs st hst
    exact ⟨i, hsub hi, hrest⟩
  drawn := h.drawn

/-- Stubs go to labels. -/
theorem target {st : Stub} (h : Routes is piece s s')
    (his : ∀ i ∈ is, ∃ q q', SelectedStep calls q i q') (hst : st ∈ piece.2) :
    ∃ l, st.target = .label l := by
  obtain ⟨i, hi, hbranch, hops⟩ := h.stubs st hst
  obtain ⟨_, _, hstep⟩ := his i hi
  obtain ⟨l, rfl | ⟨c, rfl⟩, -⟩ := hstep.branch_cases hbranch
  · exact ⟨l, (List.singleton_inj.mp hops).symm⟩
  · exact ⟨l, (List.singleton_inj.mp hops).symm⟩

end Routes

theorem instruction_routes (hi : SelectedStep calls q i q') (h : instruction p i s = .ok code s') :
    Routes [i] (code, []) s s' := by
  by_cases hret : i.kind = .ret
  · rw [instruction, if_pos hret] at h
    obtain ⟨rfl, rfl⟩ := pure_eq_ok.mp h
    exact ⟨labelsOf_epilogue _, fun j hj hbranch ↦ absurd hbranch (by simp [isBranch_epilogue _ j hj]),
      List.forall_mem_nil _, .nil rfl⟩
  · rw [instruction_of_ne hret] at h
    obtain ⟨hinst, rfl⟩ := liftPlacing_eq_ok.mp h
    have hself : ∀ l, i = jumpTo l ∨ (∃ c, i = branchTo (jumpMnemonic c) l) → code = [i] := by
      rintro l (rfl | ⟨c, rfl⟩)
      · exact (Except.ok.inj ((inst_jumpTo _ l).symm.trans hinst)).symm
      · exact (Except.ok.inj ((inst_branchTo _ _ l).symm.trans hinst)).symm
    cases hbranch : i.isBranch with
    | true =>
      obtain ⟨l, hl, -⟩ := hi.branch_cases hbranch
      obtain rfl := hself l hl
      exact ⟨labelsOf_eq_nil (List.forall_mem_singleton.mpr hi.label?),
        fun j hj hjump ↦ ⟨j, hj, hjump, Or.inl rfl⟩, List.forall_mem_nil _, .nil rfl⟩
    | false =>
      -- what is placed for an instruction is of its kind, or plain
      have hlabel : ∀ j ∈ code, j.label? = none ∧ j.isBranch = false := by
        intro j hj
        have hi := hi.label?
        rw [Inst.label?, Inst.isBranch] at *
        rcases Placement.inst_kind hinst hj with hkind | hkind
        · simp [hkind]
        · rw [hkind]
          exact ⟨hi, hbranch⟩
      exact ⟨labelsOf_eq_nil fun j hj ↦ (hlabel j hj).1,
        fun j hj hbranch ↦ absurd hbranch (by simp [(hlabel j hj).2]), List.forall_mem_nil _, .nil rfl⟩

theorem instructions_routes (his : ∀ i ∈ is, ∃ q q', SelectedStep calls q i q')
    (h : instructions p is s = .ok code s') : Routes is (code, []) s s' := by
  induction is generalizing code s with
  | nil =>
    obtain ⟨_, _, hnil, hpure⟩ := bind_eq_ok.mp h
    obtain ⟨rfl, rfl⟩ := mapM_nil_eq_ok.mp hnil
    obtain ⟨rfl, rfl⟩ := pure_eq_ok.mp hpure
    exact .nil _
  | cons i is ih =>
    obtain ⟨⟨_, _, hi⟩, his⟩ := List.forall_mem_cons.mp his
    obtain ⟨ps, s₁, qs, hps, hqs, rfl⟩ := instructions_cons.mp h
    exact (instruction_routes hi hps).append (ih his hqs)

/-! ## Branches -/

theorem branch_routes {next : Option LabelId} (hi : SelectedStep calls q i q')
    (hbranch : i.isBranch = true) (h : branch p idx next i s = .ok piece s') :
    Routes [i] piece s s' := by
  obtain ⟨l, hl, -⟩ := hi.branch_cases hbranch
  rw [branch_eq] at h
  obtain ⟨moves, s₁, hmoves, hrest⟩ := bind_eq_ok.mp h
  obtain rfl : s₁ = s := by
    cases htarget : targetBlock? p.blocks i with
    | some succ =>
      rw [htarget] at hmoves
      exact (liftPlacing_eq_ok.mp hmoves).2
    | none =>
      rw [htarget] at hmoves
      exact (pure_eq_ok.mp hmoves).2
  -- copies in front, and the branch itself unless it is a jump to the next block
  have hinline : ∀ {moves : List EdgeMove}, (do
      let before ← copies p moves
      if i.kind = .jump && next.isSome && i.operands.head? = next.map .label then return (before, [])
      return (before ++ (← instruction p i), []) : Assembling Piece) s₁ = .ok piece s' →
      Routes [i] piece s₁ s' := by
    intro moves h
    obtain ⟨before, s₂, hbefore, h⟩ := bind_eq_ok.mp h
    have hstraight := copies_straight hbefore
    have hnext := (copies_ok hbefore).2
    split at h
    · obtain ⟨rfl, rfl⟩ := pure_eq_ok.mp h
      exact (Routes.of_straight hstraight hnext).mono (List.nil_subset _)
    · obtain ⟨js, s₃, hjs, h⟩ := bind_eq_ok.mp h
      obtain ⟨rfl, rfl⟩ := pure_eq_ok.mp h
      exact (Routes.of_straight hstraight hnext).append (instruction_routes hi hjs)
  rcases hl with rfl | ⟨c, rfl⟩
  · exact hinline hrest
  · cases moves with
    | nil => exact hinline hrest
    | cons move moves =>
      obtain ⟨label, s₂, hlabel, hrest⟩ := bind_eq_ok.mp hrest
      obtain ⟨rfl, rfl⟩ := modifyGet_eq_ok.mp hlabel
      obtain ⟨_, s₃, hreport, hrest⟩ := bind_eq_ok.mp hrest
      obtain rfl := modify_eq_ok.mp hreport
      obtain ⟨rfl, rfl⟩ := pure_eq_ok.mp hrest
      exact ⟨rfl, fun i hi _ ↦ ⟨_, List.mem_singleton_self _, hbranch, Or.inr
        ⟨_, List.mem_singleton_self _, rfl, List.mem_singleton.mp hi⟩⟩,
        List.forall_mem_singleton.mpr ⟨_, List.mem_singleton_self _, hbranch, rfl⟩, rfl, rfl⟩

theorem branches_routes {next : Option LabelId} {parts : List Piece}
    (his : ∀ i ∈ is, i.isBranch = true ∧ ∃ q q', SelectedStep calls q i q')
    (h : (is.mapM (branch p idx next) : Assembling (List Piece)) s = .ok parts s') :
    Routes is (parts.flatMap (·.1), parts.flatMap (·.2)) s s' := by
  induction is generalizing parts s with
  | nil =>
    obtain ⟨rfl, rfl⟩ := mapM_nil_eq_ok.mp h
    exact .nil _
  | cons i is ih =>
    obtain ⟨⟨hbranch, _, _, hi⟩, his⟩ := List.forall_mem_cons.mp his
    obtain ⟨part, s₁, rest, hpart, hrest, rfl⟩ := mapM_cons_eq_ok.mp h
    exact (branch_routes hi hbranch hpart).append (ih his hrest)

/-! ## Blocks -/

/-- A block is its label and what its instructions become. -/
theorem block_routes (hb : ∀ i ∈ b.insts, ∃ q q', SelectedStep calls q i q')
    (h : block p idx b s = .ok piece s') :
    ∃ code, piece.1 = (b.label.map Inst.label).toList ++ code ∧ Routes b.insts (code, piece.2) s s' := by
  rw [insts_split] at hb ⊢
  obtain ⟨hbody, htrailing⟩ := List.forall_mem_append.mp hb
  obtain ⟨body, s₁, hcode, h⟩ := bind_eq_ok.mp h
  have hroutes := instructions_routes hbody hcode
  have htrailing' : ∀ i ∈ trailingBranches b, i.isBranch = true ∧ ∃ q q', SelectedStep calls q i q' :=
    fun i hi ↦ ⟨isBranch_of_mem_trailing hi, htrailing i hi⟩
  cases hbranches : trailingBranches b with
  | nil =>
    simp only [hbranches] at h
    obtain ⟨fall, s₂, hfall, h⟩ := bind_eq_ok.mp h
    obtain ⟨rfl, rfl⟩ := pure_eq_ok.mp h
    obtain ⟨hstraight, hnext⟩ := fallThrough_straight hfall
    exact ⟨body ++ fall, List.append_assoc _ _ _, hroutes.append (.of_straight hstraight hnext)⟩
  | cons i is =>
    simp only [hbranches] at h
    obtain ⟨parts, s₂, hparts, h⟩ := bind_eq_ok.mp h
    obtain ⟨rfl, rfl⟩ := pure_eq_ok.mp h
    rw [hbranches] at htrailing'
    exact ⟨body ++ parts.flatMap (·.1), List.append_assoc _ _ _,
      hroutes.append (branches_routes htrailing' hparts)⟩

/-! ## Functions -/

/-- The code of a stub: its label, its copies, and a jump. -/
theorem stub_insts {st : Stub} (ht : st.target = .label l) (h : stub p st s = .ok is s') :
    (∃ ps, (∀ i ∈ ps, i.isStraight = true) ∧ is = stubInsts st.label ps l) ∧
      s'.nextLabel = s.nextLabel := by
  obtain ⟨ps, s₁, hps, hpure⟩ := bind_eq_ok.mp h
  obtain ⟨rfl, rfl⟩ := pure_eq_ok.mp hpure
  refine ⟨⟨ps, copies_straight hps, ?_⟩, (copies_ok hps).2⟩
  rw [ht]
  rfl

/-- A function put together from the pieces of its blocks, in order, and its stubs. -/
structure Sections (p : Plan) (frameBytes : Nat) (pieces : List Piece) (stubCode : List (List Inst))
    (code : List Inst) : Prop where
  insts : code = prologue frameBytes p.saves ++ pieces.flatMap (·.1) ++ stubCode.flatten
  length : pieces.length = p.blocks.length
  piece : ∀ t piece, pieces[t]? = some piece →
    ∃ b s s', p.blocks[t]? = some b ∧ block p t b s = .ok piece s'
  stubs : List.Forall₂ (fun st is ↦ ∃ l ps, st.target = .label l ∧
    (∀ i ∈ ps, i.isStraight = true) ∧ is = stubInsts st.label ps l) (pieces.flatMap (·.2)) stubCode

theorem exists_selectedStep (hthreaded : ∀ is ∈ blocks.map (·.insts), IsThreaded is) (hb : b ∈ blocks) :
    ∃ calls, ∀ i ∈ b.insts, ∃ q q', SelectedStep calls q i q' :=
  ⟨_, fun _ hi ↦ (hthreaded _ (List.mem_map_of_mem hb)).step_of_mem hi⟩

/-- **Labels of a function.** Selected code is laid out in sections, and the labels it defines are those
of its blocks and those that its stubs drew. -/
theorem layout_sections {name : String} {bytes : Nat}
    (hthreaded : ∀ is ∈ blocks.map (·.insts), IsThreaded is)
    (hok : layout name blocks bytes a s = .ok f s') : ∃ pieces stubCode,
      Sections (planOf blocks bytes a) f.frameBytes pieces stubCode f.insts ∧
      labelsOf f.insts = blocks.filterMap (·.label) ++
        List.range' s.nextLabel (pieces.flatMap (·.2)).length ∧
      s'.nextLabel = s.nextLabel + (pieces.flatMap (·.2)).length := by
  obtain ⟨pieces, s₁, stubCode, s₂, hpieces, hstubs, hcode, hnext, -, -⟩ := layout_ok hok
  have hpiece : ∀ t piece, pieces[t]? = some piece →
      ∃ b s s', blocks[t]? = some b ∧ block (planOf blocks bytes a) t b s = .ok piece s' := by
    intro t piece ht
    have hlt : t < blocks.length :=
      (mapM_length hpieces).trans List.length_zipIdx ▸ (List.getElem?_eq_some_iff.mp ht).1
    have hzip : blocks.zipIdx[t]? = some (blocks[t], t) := by
      rw [List.getElem?_zipIdx, List.getElem?_eq_getElem hlt, Nat.zero_add]
      rfl
    obtain ⟨piece', s₃, s₄, hpiece', hblock⟩ := mapM_getElem? hpieces hzip
    obtain rfl := Option.some.inj (ht.symm.trans hpiece')
    exact ⟨blocks[t], s₃, s₄, List.getElem?_eq_getElem hlt, hblock⟩
  obtain ⟨hlabels, hdrawn⟩ := pieces_labels (p := planOf blocks bytes a) (fun t b hb piece s s' h ↦ by
    obtain ⟨_, hinsts⟩ := exists_selectedStep hthreaded (List.mem_of_getElem? hb)
    obtain ⟨code, heq, hroutes⟩ := block_routes hinsts h
    exact ⟨heq ▸ labelsOf_piece b.label hroutes.labels, hroutes.drawn⟩) hpieces
  obtain ⟨hs₂, hstubCode⟩ := mapM_relates (P := fun t ↦ t.nextLabel = s₁.nextLabel)
    (R := fun st is ↦ ∃ l ps, st.target = .label l ∧
      (∀ i ∈ ps, i.isStraight = true) ∧ is = stubInsts st.label ps l) hstubs rfl
    fun st hst t is t' ht h ↦ by
      obtain ⟨piece, hpieceMem, hst⟩ := List.mem_flatMap.mp hst
      obtain ⟨k, hk⟩ := List.getElem?_of_mem hpieceMem
      obtain ⟨b, _, _, hb, hblock⟩ := hpiece k piece hk
      obtain ⟨_, hinsts⟩ := exists_selectedStep hthreaded (List.mem_of_getElem? hb)
      obtain ⟨_, -, hroutes⟩ := block_routes hinsts hblock
      obtain ⟨l, htarget⟩ := hroutes.target hinsts hst
      obtain ⟨hinsts, hnext⟩ := stub_insts htarget h
      exact ⟨hnext.trans ht, l, hinsts.imp fun _ hps ↦ ⟨htarget, hps⟩⟩
  refine ⟨pieces, stubCode, ⟨hcode, (mapM_length hpieces).trans List.length_zipIdx, hpiece, hstubCode⟩,
    ?_, ?_⟩
  · rw [hcode]
    exact labelsOf_layout hlabels hdrawn hstubs _ _
  · rw [hnext, hs₂, hdrawn.nextLabel]

end Assembly

end TreeCover
