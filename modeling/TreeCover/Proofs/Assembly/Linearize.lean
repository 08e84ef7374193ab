import TreeCover.Proofs.Assembly.Pieces

/-!
# Control in a laid-out function

A function whose blocks end is laid out as one list of instructions, and control in that list goes
where the blocks say. The code of a block begins with its label and leads through its body to its
ending. The edge that control takes from there is the one the flags select, and on the way to the
block it leads to, control executes the copies of this edge and nothing else, wherever they stand:
in front of the jump, in front of the next block, or in a stub behind all blocks.

What has to be known of the labels is that each is defined once. Those of the blocks are different
by assumption; the stubs draw theirs from the session one after the other, and the session has given
out no label of a block again.
-/

namespace TreeCover

open Machine Assembly Work

variable {p : Plan} {a : Allocation} {blocks : List Block} {b : Block} {c : Callee}
  {body code is ps w : List Inst} {pieces : List Piece} {stubs : List Stub}
  {stubCode : List (List Inst)} {e : Ending} {l : LabelId} {t idx bound frameBytes : Nat}
  {s s' : Session} {f : Assembly}

/-! ## Labels -/

/-- The labels that code defines. -/
def labelsOf (code : List Inst) : List LabelId := code.filterMap (·.label?)

theorem labelsOf_append (is js : List Inst) : labelsOf (is ++ js) = labelsOf is ++ labelsOf js :=
  List.filterMap_append

theorem labelsOf_eq_nil (h : ∀ i ∈ is, i.label? = none) : labelsOf is = [] :=
  List.filterMap_eq_nil_iff.mpr h

theorem labelsOf_of_straight (h : ∀ i ∈ is, i.isStraight = true) : labelsOf is = [] :=
  labelsOf_eq_nil fun i hi ↦ Inst.label?_of_isStraight (h i hi)

theorem labelsOf_finalJump (next : Option LabelId) (l : LabelId) :
    labelsOf (finalJump next l) = [] := by
  rw [finalJump]
  split <;> rfl

/-- The epilogue up to the return. -/
def restores (saves : List Save) : List Inst :=
  saves.reverse.map (fun (r, slot) ↦ Inst.define "movq" [.mem slot, .phys r]) ++
    [.define "movq" [.phys .rbp, .phys .rsp], .define "popq" [.phys .rbp]]

theorem restores_straight (saves : List Save) : ∀ i ∈ restores saves, i.isStraight = true := by
  intro i hi
  rcases List.mem_append.mp hi with hi | hi
  · obtain ⟨save, -, rfl⟩ := List.mem_map.mp hi
    rfl
  · simp only [List.mem_cons, List.not_mem_nil, or_false] at hi
    rcases hi with rfl | rfl <;> rfl

theorem epilogue_eq (saves : List Save) :
    epilogue saves = restores saves ++ Ending.ret.insts := by
  rw [restores, List.append_assoc]
  rfl

theorem prologue_straight (frameBytes : Nat) (saves : List Save) :
    ∀ i ∈ prologue frameBytes saves, i.isStraight = true := by
  intro i hi
  rcases List.mem_append.mp hi with hi | hi
  · simp only [List.mem_cons, List.not_mem_nil, or_false] at hi
    rcases hi with rfl | rfl | rfl <;> rfl
  · obtain ⟨save, -, rfl⟩ := List.mem_map.mp hi
    rfl

theorem edgeCode_straight (h : edgeCode a blocks idx t = .ok ps) :
    ∀ i ∈ ps, i.isStraight = true := by
  obtain ⟨moves, -, h⟩ := Placing.bind_eq_ok.mp h
  obtain ⟨steps, hsteps, h⟩ := Placing.bind_eq_ok.mp h
  obtain rfl := Except.ok.inj h
  exact (EdgeMove.sequence_plain hsteps).straight

theorem Assembly.Written.labelsOf (h : Written p idx e is stubs) : labelsOf is = [] := by
  cases h with
  | ret hdead =>
    rw [labelsOf_append, epilogue_eq, labelsOf_append, labelsOf_of_straight (restores_straight _),
      labelsOf_of_straight hdead]
    rfl
  | jump hl hps =>
    rw [labelsOf_append, labelsOf_of_straight (edgeCode_straight hps), labelsOf_finalJump]
    rfl
  | direct hl hl' hnone hps =>
    exact (labelsOf_append _ _).trans (by
      rw [labelsOf_of_straight (edgeCode_straight hps), labelsOf_finalJump]; rfl)
  | stub hl hl' hmoves hps =>
    exact (labelsOf_append _ _).trans (by
      rw [labelsOf_of_straight (edgeCode_straight hps), labelsOf_finalJump]; rfl)

/-! ## The parts of a function -/

/-- The code of a stub whose copies are `ps`. -/
def stubInsts (l₀ : LabelId) (ps : List Inst) (l : LabelId) : List Inst :=
  .label l₀ :: (ps ++ [jumpTo l])

theorem stub_ok {st : Stub} (h : stub p st s = .ok is s') : ∃ steps,
    EdgeMove.sequence p.allocation st.moves = .ok steps ∧
      is = [.label st.label] ++ steps.flatMap (·.insts) ++
        [{ mnemonic := "jmp", operands := [st.target], kind := .jump }] := by
  obtain ⟨ps, s₁, hps, hpure⟩ := bind_eq_ok.mp h
  obtain ⟨rfl, rfl⟩ := pure_eq_ok.mp hpure
  obtain ⟨⟨steps, hsteps, rfl⟩, -⟩ := copies_ok hps
  exact ⟨steps, hsteps, rfl⟩

theorem labelsOf_stub {st : Stub} (h : stub p st s = .ok is s') : labelsOf is = [st.label] := by
  obtain ⟨steps, hsteps, rfl⟩ := stub_ok h
  rw [labelsOf_append, labelsOf_append,
    labelsOf_of_straight (EdgeMove.sequence_plain hsteps).straight]
  rfl

/-- A function put together from the pieces of its blocks, in order, and its stubs. -/
structure Laid (p : Plan) (frameBytes : Nat) (pieces : List Piece) (code : List Inst) : Prop where
  piece : ∀ idx b body e, p.blocks[idx]? = some b → b.Ends body e → ∃ ps is stubs,
    pieces[idx]? = some ((b.label.map Inst.label).toList ++ ps ++ is, stubs) ∧
      placed p.allocation body = .ok ps ∧ Written p idx e is stubs
  length : pieces.length = p.blocks.length
  stub : ∀ piece ∈ pieces, ∀ st ∈ piece.2, ∃ steps k,
    EdgeMove.sequence p.allocation st.moves = .ok steps ∧
      [.label st.label] ++ steps.flatMap (·.insts) ++
        [{ mnemonic := "jmp", operands := [st.target], kind := .jump }] <+: code.drop k
  pieces : ∃ rest, code = prologue frameBytes p.saves ++ pieces.flatMap (·.1) ++ rest
  labels : (labelsOf code).Nodup

theorem Closed.nodup_labels (h : Closed blocks bound) : (blocks.filterMap (·.label)).Nodup := by
  have hpairwise : blocks.Pairwise fun b b' ↦ ∀ l, b.label = some l → b'.label ≠ some l := ?_
  · refine hpairwise.filterMap _ fun b b' hne l hl l' hl' heq ↦ hne l hl ?_
    rw [heq]
    exact hl'
  rw [List.pairwise_iff_getElem]
  intro i j hi hj hij l hl hl'
  exact Nat.ne_of_lt hij (h.distinct l i j ⟨_, List.getElem?_eq_getElem hi, hl⟩
    ⟨_, List.getElem?_eq_getElem hj, hl'⟩)

/-- If every piece defines the label of its block, the pieces define those of all blocks, and their
stubs draw labels in order. -/
theorem pieces_labels {p : Plan} {s s' : Session}
    (hblock : ∀ idx b, p.blocks[idx]? = some b → ∀ piece s s', block p idx b s = .ok piece s' →
      labelsOf piece.1 = b.label.toList ∧ Drawn piece.2 s s')
    (hok : (p.blocks.zipIdx.mapM fun (b, idx) ↦ block p idx b : Assembling (List Piece)) s =
      .ok pieces s') :
    labelsOf (pieces.flatMap (·.1)) = p.blocks.filterMap (·.label) ∧
      Drawn (pieces.flatMap (·.2)) s s' := by
  have hinv := mapM_induct (P := fun pieces s₁ ↦
    labelsOf (pieces.flatMap (·.1)) = (p.blocks.take pieces.length).filterMap (·.label) ∧
      Drawn (pieces.flatMap (·.2)) s s₁) hok ⟨rfl, .nil rfl⟩ ?_
  · rw [mapM_length hok, List.length_zipIdx, List.take_length] at hinv
    exact hinv
  rintro k ⟨b, idx⟩ hk pieces s₁ piece s₂ rfl ⟨hlabels, hdrawn⟩ hpiece
  obtain ⟨hb, rfl⟩ : p.blocks[pieces.length]? = some b ∧ pieces.length = idx := by
    rw [List.getElem?_zipIdx, Option.map_eq_some_iff] at hk
    obtain ⟨b', hb', heq⟩ := hk
    obtain ⟨rfl, rfl⟩ := Prod.mk.inj heq
    exact ⟨hb', (Nat.zero_add _).symm⟩
  obtain ⟨hlabel, hdrawn'⟩ := hblock _ b hb piece s₁ s₂ hpiece
  refine ⟨?_, by simpa using hdrawn.append hdrawn'⟩
  rw [List.flatMap_append, labelsOf_append, hlabels, List.flatMap_singleton, hlabel,
    List.length_append, List.length_singleton, List.take_add_one, hb, List.filterMap_append]
  cases hl : b.label <;> simp [hl]

/-- The label in front of a block is all that its piece defines. -/
theorem labelsOf_piece (label : Option LabelId) (h : labelsOf code = []) :
    labelsOf ((label.map Inst.label).toList ++ code) = label.toList := by
  rw [labelsOf_append, h, List.append_nil]
  cases label <;> rfl

theorem stubs_ok {p : Plan} {s s' : Session}
    (hok : (stubs.mapM (stub p) : Assembling (List (List Inst))) s = .ok stubCode s') :
    labelsOf stubCode.flatten = stubs.map (·.label) := by
  have hinv := mapM_induct (P := fun stubCode _ ↦
    labelsOf stubCode.flatten = (stubs.take stubCode.length).map (·.label)) hok rfl ?_
  · rwa [mapM_length hok, List.take_length] at hinv
  rintro k st hk stubCode s₁ is s₂ rfl hlabels hst
  rw [List.flatten_append, labelsOf_append, hlabels, List.flatten_singleton, labelsOf_stub hst,
    List.length_append, List.length_singleton, List.take_add_one, hk, List.map_append]
  rfl

/-- A member of a list of lists is a stretch of their concatenation. -/
private theorem exists_prefix_drop {xss : List (List Inst)} {xs : List Inst} (pre : List Inst)
    (h : xs ∈ xss) : ∃ k, xs <+: (pre ++ xss.flatten).drop k := by
  obtain ⟨before, after, rfl⟩ := List.append_of_mem h
  refine ⟨(pre ++ before.flatten).length, after.flatten, ?_⟩
  rw [List.flatten_append, List.flatten_cons, ← List.append_assoc, List.drop_left]

/-- The plan that a layout follows. -/
def planOf (blocks : List Block) (bytes : Nat) (a : Allocation) : Plan :=
  ⟨a, blocks, saveSlots bytes a.used.toList⟩

theorem mem_saveSlots {bytes : Nat} {regs : List PhysReg} {r : PhysReg} {m : Mem}
    (h : (r, m) ∈ saveSlots bytes regs) :
    ∃ k < regs.length, regs[k]? = some r ∧ m = .frame (-(bytes + 8 * k : Nat)) := by
  obtain ⟨k, hk⟩ := List.getElem?_of_mem h
  rw [saveSlots, List.getElem?_mapIdx] at hk
  obtain ⟨q, hq, heq⟩ := Option.map_eq_some_iff.mp hk
  obtain ⟨rfl, rfl⟩ := Prod.mk.inj heq
  exact ⟨k, (List.getElem?_eq_some_iff.mp hq).1, hq, rfl⟩

theorem regs_saveSlots (bytes : Nat) (regs : List PhysReg) :
    (saveSlots bytes regs).map (·.1) = regs := by
  rw [saveSlots]
  exact List.ext_getElem? fun k ↦ by simp [Function.comp_def]

/-- The parts of a layout. -/
theorem layout_ok {name : String} {bytes : Nat} (hok : layout name blocks bytes a s = .ok f s') :
    ∃ pieces s₁ stubCode s₂,
      (blocks.zipIdx.mapM fun (b, idx) ↦ block (planOf blocks bytes a) idx b :
        Assembling (List Piece)) s = .ok pieces s₁ ∧
      ((pieces.flatMap (·.2)).mapM (stub (planOf blocks bytes a)) :
        Assembling (List (List Inst))) s₁ = .ok stubCode s₂ ∧
      f.insts = prologue f.frameBytes (planOf blocks bytes a).saves ++ pieces.flatMap (·.1) ++
        stubCode.flatten ∧
      s'.nextLabel = s₂.nextLabel ∧ f.saved = a.used.toList ∧
      f.frameBytes = bytes + 8 * f.saved.length := by
  obtain ⟨pieces, s₁, hpieces, hrest⟩ := bind_eq_ok.mp hok
  obtain ⟨stubCode, s₂, hstubs, hrest'⟩ := bind_eq_ok.mp hrest
  obtain ⟨_, s₃, hreport, hpure⟩ := bind_eq_ok.mp hrest'
  obtain ⟨rfl, rfl⟩ := pure_eq_ok.mp hpure
  obtain rfl := modify_eq_ok.mp hreport
  exact ⟨pieces, s₁, stubCode, s₂, hpieces, hstubs, rfl, rfl, regs_saveSlots bytes _,
    by rw [List.length_map]⟩

/-- All labels of a function: those of its blocks, and behind them those of its stubs. -/
theorem labelsOf_layout {s₁ : Session}
    (hlabels : labelsOf (pieces.flatMap (·.1)) = blocks.filterMap (·.label))
    (hdrawn : Drawn (pieces.flatMap (·.2)) s s₁)
    (hstubs : ((pieces.flatMap (·.2)).mapM (stub p) : Assembling (List (List Inst))) s₁ =
      .ok stubCode s') (frameBytes : Nat) (saves : List Save) :
    labelsOf (prologue frameBytes saves ++ pieces.flatMap (·.1) ++ stubCode.flatten) =
      blocks.filterMap (·.label) ++ List.range' s.nextLabel (pieces.flatMap (·.2)).length := by
  rw [labelsOf_append, labelsOf_append, labelsOf_of_straight (prologue_straight _ _), hlabels,
    stubs_ok hstubs, hdrawn.labels, List.nil_append]

/-- A layout puts a function together. -/
theorem layout_laid {name : String} {bytes : Nat} (h : Closed blocks s.nextLabel)
    (hok : layout name blocks bytes a s = .ok f s') :
    ∃ pieces, Laid (planOf blocks bytes a) f.frameBytes pieces f.insts := by
  obtain ⟨pieces, s₁, stubCode, s₂, hpieces, hstubs, hcode, -, -, -⟩ := layout_ok hok
  have hpiece_ok : ∀ idx b, blocks[idx]? = some b → ∀ piece s s',
      block (planOf blocks bytes a) idx b s = .ok piece s' →
        labelsOf piece.1 = b.label.toList ∧ Drawn piece.2 s s' := by
    intro idx b hb piece s s' hpiece
    have hmem := List.mem_of_getElem? hb
    obtain ⟨body, e, he⟩ := h.ends b hmem
    obtain ⟨ps, is, hps, hcode, hwritten, hdrawn⟩ :=
      block_ok (p := planOf blocks bytes a) h hmem he hpiece
    rw [hcode, List.append_assoc]
    refine ⟨labelsOf_piece b.label ?_, hdrawn⟩
    rw [labelsOf_append, hwritten.labelsOf, labelsOf_of_straight (placed_straight hps he.straight)]
    rfl
  obtain ⟨hlabels, hdrawn⟩ := pieces_labels (p := planOf blocks bytes a) hpiece_ok hpieces
  refine ⟨pieces, ?_, ?_, ?_, ⟨stubCode.flatten, hcode⟩, ?_⟩
  · intro idx b body e hb he
    have hmem := List.mem_of_getElem? hb
    have hzip : blocks.zipIdx[idx]? = some (b, idx) := by
      have hb' : blocks[idx]? = some b := hb
      rw [List.getElem?_zipIdx, hb', Nat.zero_add]
      rfl
    obtain ⟨piece, t, t', hpiece, hblock⟩ := mapM_getElem? hpieces hzip
    obtain ⟨ps, is, hps, hcode, hwritten, -⟩ := block_ok (p := planOf blocks bytes a) h hmem he hblock
    refine ⟨ps, is, piece.2, ?_, hps, hwritten⟩
    rw [hpiece, ← hcode]
  · exact (mapM_length hpieces).trans List.length_zipIdx
  · intro piece hpiece st hst
    obtain ⟨k, hk⟩ := List.getElem?_of_mem (List.mem_flatMap.mpr ⟨piece, hpiece, hst⟩)
    obtain ⟨is, t, t', his, hstub⟩ := mapM_getElem? hstubs hk
    obtain ⟨steps, hsteps, rfl⟩ := stub_ok hstub
    obtain ⟨k, hk⟩ := exists_prefix_drop (prologue f.frameBytes (planOf blocks bytes a).saves ++
      pieces.flatMap (·.1)) (List.mem_of_getElem? his)
    exact ⟨steps, k, hsteps, hcode ▸ hk⟩
  · rw [hcode, labelsOf_layout hlabels hdrawn hstubs]
    refine List.nodup_append.mpr ⟨h.nodup_labels, List.nodup_range' .., fun l hl l' hl' ↦ ?_⟩
    rintro rfl
    obtain ⟨b, hb, hlabel⟩ := List.mem_filterMap.mp hl
    obtain ⟨k, hk⟩ := List.getElem?_of_mem hb
    exact Nat.not_le_of_lt (h.drawn l k ⟨b, hk, hlabel⟩) (List.mem_range'_1.mp hl').1

/-! ## Positions -/

/-- Where the code of a block begins. -/
def start (p : Plan) (frameBytes : Nat) (pieces : List Piece) (idx : Nat) : Nat :=
  (prologue frameBytes p.saves).length + ((pieces.take idx).flatMap (·.1)).length

theorem start_succ {piece : Piece} (hpiece : pieces[idx]? = some piece) :
    start p frameBytes pieces (idx + 1) = start p frameBytes pieces idx + piece.1.length := by
  rw [start, start, List.take_add_one, hpiece, List.flatMap_append, List.length_append,
    Nat.add_assoc, Option.toList_some, List.flatMap_singleton]

namespace Laid

variable (hcode : Laid p frameBytes pieces code)

include hcode

theorem prefix_drop {piece : Piece} (hpiece : pieces[idx]? = some piece) :
    piece.1 <+: code.drop (start p frameBytes pieces idx) := by
  obtain ⟨rest, rfl⟩ := hcode.pieces
  obtain ⟨hlt, hget⟩ := List.getElem?_eq_some_iff.mp hpiece
  have hsplit : pieces.flatMap (·.1) =
      (pieces.take idx).flatMap (·.1) ++ (piece.1 ++ (pieces.drop (idx + 1)).flatMap (·.1)) := by
    rw [← List.flatMap_cons, ← hget, ← List.drop_eq_getElem_cons hlt, ← List.flatMap_append,
      List.take_append_drop]
  refine ⟨(pieces.drop (idx + 1)).flatMap (·.1) ++ rest, ?_⟩
  have hwhole : prologue frameBytes p.saves ++ pieces.flatMap (·.1) ++ rest =
      (prologue frameBytes p.saves ++ (pieces.take idx).flatMap (·.1)) ++
        (piece.1 ++ ((pieces.drop (idx + 1)).flatMap (·.1) ++ rest)) := by
    rw [hsplit]
    simp only [List.append_assoc]
  rw [hwhole, start, ← List.length_append, List.drop_left]

/-- A block with a label begins with it. -/
theorem label_at_start (h : Closed p.blocks bound) (hl : Named p.blocks l t) :
    code[start p frameBytes pieces t]? = some (.label l) := by
  obtain ⟨b, hb, hlabel⟩ := hl
  obtain ⟨body, e, he⟩ := h.ends b (List.mem_of_getElem? hb)
  obtain ⟨ps, is, stubs, hpiece, -⟩ := hcode.piece t b body e hb he
  have hbegins := hcode.prefix_drop hpiece
  rw [hlabel] at hbegins
  exact singleton_prefix_drop_iff.mp
    (append_prefix_drop_iff.mp (append_prefix_drop_iff.mp hbegins).1).1

/-- A jump to a block leads to where its code begins. -/
theorem destination (h : Closed p.blocks bound) (hl : Named p.blocks l t) {i : Inst}
    (hi : i.operands.head? = some (.label l)) :
    destination? code i = some (start p frameBytes pieces t) := by
  rw [destination?, hi]
  exact position?_eq_some hcode.labels (hcode.label_at_start h hl)

/-- Control gets over the final jump, or without one, to the block that is named. -/
theorem finalJump_leads {pc : Nat} (h : Closed p.blocks bound) (hl : Named p.blocks l t)
    (hjump : finalJump (nextLabel? p.blocks idx) l <+: code.drop pc)
    (hpc : pc + (finalJump (nextLabel? p.blocks idx) l).length = start p frameBytes pieces (idx + 1)) :
    ∃ n, Leads code n pc [] (start p frameBytes pieces t) := by
  rw [finalJump] at hjump hpc
  split at hjump
  next hnext =>
    obtain ⟨b, hb, hlabel⟩ := Option.bind_eq_some_iff.mp hnext
    obtain rfl := h.distinct l t (idx + 1) hl ⟨b, hb, hlabel⟩
    rw [if_pos hnext, List.length_nil, Nat.add_zero] at hpc
    rw [hpc]
    exact ⟨0, .refl _⟩
  next hnext =>
    exact ⟨1, .jump (singleton_prefix_drop_iff.mp hjump) rfl (hcode.destination h hl rfl) (.refl _)⟩

/-- Control that enters a block executes its body and gets to its ending. It takes a step if the
block has a label. -/
theorem body_leads (hb : p.blocks[idx]? = some b) (he : b.Ends body e) :
    ∃ n ps is stubs k, placed p.allocation body = .ok ps ∧ Written p idx e is stubs ∧
      (∃ piece ∈ pieces, piece.2 = stubs) ∧
      Leads code n (start p frameBytes pieces idx) ps k ∧ is <+: code.drop k ∧
      k + is.length = start p frameBytes pieces (idx + 1) ∧ (b.label.isSome → 0 < n) := by
  obtain ⟨ps, is, stubs, hpiece, hps, hwritten⟩ := hcode.piece idx b body e hb he
  have hbegins := hcode.prefix_drop hpiece
  obtain ⟨hfront, his⟩ := append_prefix_drop_iff.mp hbegins
  obtain ⟨hlabel, hbody⟩ := append_prefix_drop_iff.mp hfront
  have hleads := Leads.of_prefix (placed_straight hps he.straight) hbody
  have hend : start p frameBytes pieces (idx + 1) = start p frameBytes pieces idx + _ :=
    start_succ hpiece
  rw [List.length_append, List.length_append, ← Nat.add_assoc, ← Nat.add_assoc] at hend
  rw [List.length_append, ← Nat.add_assoc] at his
  have hmem : ∃ piece ∈ pieces, piece.2 = stubs := ⟨_, List.mem_of_getElem? hpiece, rfl⟩
  cases hl : b.label with
  | none =>
    rw [hl] at hleads his hend
    exact ⟨_, ps, is, stubs, _, hps, hwritten, hmem, hleads, his, hend.symm, by simp⟩
  | some l =>
    rw [hl] at hleads his hend hlabel
    exact ⟨_, ps, is, stubs, _, hps, hwritten, hmem,
      .label (singleton_prefix_drop_iff.mp hlabel) hleads, his, hend.symm, fun _ ↦ Nat.succ_pos _⟩

/-- Control at the final jump of a block executes the copies of its edge, which stand before it. -/
theorem jump_leads {pc : Nat} (h : Closed p.blocks bound) (hl : Named p.blocks l t)
    (hps : edgeCode p.allocation p.blocks idx t = .ok ps)
    (his : ps ++ finalJump (nextLabel? p.blocks idx) l <+: code.drop pc)
    (hpc : pc + (ps ++ finalJump (nextLabel? p.blocks idx) l).length =
      start p frameBytes pieces (idx + 1)) :
    ∃ n, Leads code n pc ps (start p frameBytes pieces t) := by
  obtain ⟨hcopies, hjump⟩ := append_prefix_drop_iff.mp his
  rw [List.length_append, ← Nat.add_assoc] at hpc
  obtain ⟨n, hn⟩ := hcode.finalJump_leads h hl hjump hpc
  have hall := (Leads.of_prefix (edgeCode_straight hps) hcopies).trans hn
  rw [List.append_nil] at hall
  exact ⟨_, hall⟩

/-- Control that is sent to a stub executes the copies of the stub. -/
theorem stub_leads (h : Closed p.blocks bound) (hl : Named p.blocks l t) {l₀ : LabelId}
    {moves : List EdgeMove} {i : Inst} (hst : ∃ piece ∈ pieces, piece.2 = [⟨l₀, moves, .label l⟩])
    (hmoves : EdgeMove.onEdge p.allocation p.blocks idx t = .ok moves)
    (hi : i.operands.head? = some (.label l₀)) :
    ∃ n k ps, destination? code i = some k ∧ edgeCode p.allocation p.blocks idx t = .ok ps ∧
      Leads code n k ps (start p frameBytes pieces t) := by
  obtain ⟨piece, hpiece, hstubs⟩ := hst
  obtain ⟨steps, k, hsteps, hbegins⟩ := hcode.stub piece hpiece ⟨l₀, moves, .label l⟩
    (hstubs ▸ List.mem_singleton_self _)
  obtain ⟨hfront, hjump⟩ := append_prefix_drop_iff.mp hbegins
  obtain ⟨hlabel, hcopies⟩ := append_prefix_drop_iff.mp hfront
  have hps : edgeCode p.allocation p.blocks idx t = .ok (steps.flatMap (·.insts)) :=
    Placing.bind_eq_ok.mpr ⟨moves, hmoves, Placing.bind_eq_ok.mpr ⟨steps, hsteps, rfl⟩⟩
  have hlabel := singleton_prefix_drop_iff.mp hlabel
  have htarget := hcode.destination h hl (i := jumpTo l) rfl
  have hlast : Leads code 1 (k + 1 + (steps.flatMap (·.insts)).length) []
      (start p frameBytes pieces t) := by
    rw [List.length_append, ← Nat.add_assoc] at hjump
    exact .jump (singleton_prefix_drop_iff.mp hjump) rfl htarget (.refl _)
  have hall := (Leads.of_prefix (edgeCode_straight hps) hcopies).trans hlast
  rw [List.append_nil] at hall
  have hposition : destination? code i = some k := by
    rw [destination?, hi]
    exact position?_eq_some hcode.labels hlabel
  exact ⟨_, k, _, hposition, hps, .label hlabel hall⟩

/-- Control at the ending of a block takes the edge that the flags select. -/
theorem ending_performs {pc : Nat} {s : Core} (h : Closed p.blocks bound)
    (hwritten : Written p idx e is stubs) (hst : ∃ piece ∈ pieces, piece.2 = stubs)
    (his : is <+: code.drop pc) (hpc : pc + is.length = start p frameBytes pieces (idx + 1))
    (hnext : e.next? s.flags = some l) (hl : Named p.blocks l t)
    (hps : edgeCode p.allocation p.blocks idx t = .ok ps) :
    ∃ n, Performs c code n ⟨pc, s⟩ ps (start p frameBytes pieces t) := by
  -- a branch either goes on behind it or is taken
  have hother {q : Ir.Predicate} {l₀ l' : LabelId} {t' : Nat} {ps' : List Inst}
      (his : branchTo (jumpMnemonic q) l₀ :: (ps' ++ finalJump (nextLabel? p.blocks idx) l') <+:
        code.drop pc)
      (hpc : pc + (branchTo (jumpMnemonic q) l₀ ::
        (ps' ++ finalJump (nextLabel? p.blocks idx) l')).length = start p frameBytes pieces (idx + 1))
      (hholds : s.flags.holds q = false) (hl' : Named p.blocks l' t')
      (hps' : edgeCode p.allocation p.blocks idx t' = .ok ps') :
      ∃ n, Performs c code n ⟨pc, s⟩ ps' (start p frameBytes pieces t') := by
    obtain ⟨hbranch, hrest⟩ := append_prefix_drop_iff.mp
      (show [branchTo (jumpMnemonic q) l₀] ++ _ <+: code.drop pc from his)
    rw [List.length_cons, Nat.add_comm _ 1, ← Nat.add_assoc] at hpc
    obtain ⟨n, hn⟩ := hcode.jump_leads h hl' hps' hrest hpc
    exact ⟨n + 1, .control (singleton_prefix_drop_iff.mp hbranch) rfl
      (Point.next_other (singleton_prefix_drop_iff.mp hbranch) rfl (jumpCondition?_jumpMnemonic q)
        hholds) hn.performs⟩
  cases hwritten with
  | ret hdead => exact absurd hnext (by simp [Ending.next?])
  | @jump l' t' ps' hl' hps' =>
    obtain rfl : l' = l := Option.some.inj hnext
    obtain rfl := h.distinct l' t t' hl hl'
    obtain rfl := Except.ok.inj (hps.symm.trans hps')
    obtain ⟨n, hn⟩ := hcode.jump_leads h hl hps his hpc
    exact ⟨n, hn.performs⟩
  | @direct q l₁ l₂ t₁ t₂ ps' hl₁ hl₂ hnone hps' =>
    cases hholds : s.flags.holds q with
    | false =>
      obtain rfl : l₂ = l := by simpa [Ending.next?, hholds] using hnext
      obtain rfl := h.distinct l₂ t t₂ hl hl₂
      obtain rfl := Except.ok.inj (hps.symm.trans hps')
      exact hother his hpc hholds hl hps
    | true =>
      obtain rfl : l₁ = l := by simpa [Ending.next?, hholds] using hnext
      obtain rfl := h.distinct l₁ t t₁ hl hl₁
      obtain rfl := Except.ok.inj (hps.symm.trans hnone)
      have hbranch := singleton_prefix_drop_iff.mp ((List.prefix_append _ _).trans
        (show [branchTo (jumpMnemonic q) l₁] ++ _ <+: code.drop pc from his))
      exact ⟨1, .control hbranch rfl (Point.next_taken hbranch rfl (jumpCondition?_jumpMnemonic q)
        hholds (hcode.destination h hl rfl)) (.refl _ _)⟩
  | @stub q l₁ l₂ l₀ t₁ t₂ moves ps' hl₁ hl₂ hmoves hps' =>
    cases hholds : s.flags.holds q with
    | false =>
      obtain rfl : l₂ = l := by simpa [Ending.next?, hholds] using hnext
      obtain rfl := h.distinct l₂ t t₂ hl hl₂
      obtain rfl := Except.ok.inj (hps.symm.trans hps')
      exact hother his hpc hholds hl hps
    | true =>
      obtain rfl : l₁ = l := by simpa [Ending.next?, hholds] using hnext
      obtain rfl := h.distinct l₁ t t₁ hl hl₁
      have hbranch := singleton_prefix_drop_iff.mp ((List.prefix_append _ _).trans
        (show [branchTo (jumpMnemonic q) l₀] ++ _ <+: code.drop pc from his))
      obtain ⟨n, k, qs, hk, hqs, hleads⟩ := hcode.stub_leads h hl hst hmoves
        (i := branchTo (jumpMnemonic q) l₀) rfl
      obtain rfl := Except.ok.inj (hps.symm.trans hqs)
      exact ⟨n + 1, .control hbranch rfl (Point.next_taken hbranch rfl
        (jumpCondition?_jumpMnemonic q) hholds hk) hleads.performs⟩

end Laid

/-! ## Passes -/

/-- `Pass c p idx s w dest` says that control which enters block `idx` with the machine in state `s`
has to execute `w`: the body, and then the copies of the edge to the block `dest` that the flags
select, or what a return restores. A body that does not run to its end is all that is executed. -/
inductive Pass (c : Callee) (p : Plan) (idx : Nat) (s : Core) : List Inst → Option Nat → Prop where
  | stuck {b : Block} {body ps : List Inst} {e : Ending} (hb : p.blocks[idx]? = some b)
    (he : b.Ends body e) (hps : placed p.allocation body = .ok ps)
    (hs : Core.executeAll c ps s = none) : Pass c p idx s ps none
  | edge {b : Block} {body ps qs : List Inst} {e : Ending} {s₁ : Core} {l : LabelId} {t : Nat}
    (hb : p.blocks[idx]? = some b) (he : b.Ends body e) (hps : placed p.allocation body = .ok ps)
    (hs : Core.executeAll c ps s = some s₁) (hnext : e.next? s₁.flags = some l)
    (hl : Named p.blocks l t) (hqs : edgeCode p.allocation p.blocks idx t = .ok qs) :
    Pass c p idx s (ps ++ qs) (some t)
  | ret {b : Block} {body ps : List Inst} {s₁ : Core} (hb : p.blocks[idx]? = some b)
    (he : b.Ends body .ret) (hps : placed p.allocation body = .ok ps)
    (hs : Core.executeAll c ps s = some s₁) : Pass c p idx s (ps ++ restores p.saves) none

/-- A run over passes, from the first instruction of a block to that of another one. -/
inductive Walk (c : Callee) (p : Plan) : Nat → Core → List Inst → Nat → Core → Prop where
  | refl (idx : Nat) (s : Core) : Walk c p idx s [] idx s
  | step {idx idx' t : Nat} {s s' z : Core} {w u : List Inst} (hpass : Pass c p idx s w (some t))
    (hs : Core.executeAll c w s = some s') (hw : Walk c p t s' u idx' z) :
    Walk c p idx s (w ++ u) idx' z

theorem Pass.named {dest : Option Nat} {s : Core} (h : Pass c p idx s w dest) (hdest : dest = some t) :
    ∃ l, Named p.blocks l t := by
  cases h with
  | stuck => exact absurd hdest (by simp)
  | edge hb he hps hs hnext hl hqs =>
    obtain rfl := Option.some.inj hdest
    exact ⟨_, hl⟩
  | ret => exact absurd hdest (by simp)

theorem Named.lt_length (h : Named blocks l t) : t < blocks.length := by
  obtain ⟨b, hb, -⟩ := h
  exact (List.getElem?_eq_some_iff.mp hb).1

namespace Laid

variable (hcode : Laid p frameBytes pieces code)

include hcode

/-- Control that enters a block has a pass through it. -/
theorem exists_pass (h : Closed p.blocks bound) (hidx : idx < p.blocks.length) (c : Callee)
    (s : Core) : ∃ w dest, Pass c p idx s w dest := by
  have hb := List.getElem?_eq_getElem hidx
  obtain ⟨body, e, he⟩ := h.ends _ (List.getElem_mem hidx)
  obtain ⟨n, ps, is, stubs, k, hps, hwritten, hst, -⟩ := hcode.body_leads hb he
  cases hs : Core.executeAll c ps s with
  | none => exact ⟨_, _, .stuck hb he hps hs⟩
  | some s₁ =>
    have hedge {l : LabelId} {t : Nat} {qs : List Inst} (hnext : e.next? s₁.flags = some l)
        (hl : Named p.blocks l t) (hqs : edgeCode p.allocation p.blocks idx t = .ok qs) :
        ∃ w dest, Pass c p idx s w dest := ⟨_, _, .edge hb he hps hs hnext hl hqs⟩
    cases hwritten with
    | ret hdead => exact ⟨_, _, .ret hb he hps hs⟩
    | jump hl hqs => exact hedge rfl hl hqs
    | @direct q _ _ _ _ _ hl hl' hnone hqs =>
      cases hholds : s₁.flags.holds q with
      | false => exact hedge (by rw [Ending.next?, hholds]; rfl) hl' hqs
      | true => exact hedge (by rw [Ending.next?, hholds]; rfl) hl hnone
    | @stub q _ _ _ _ _ _ _ hl hl' hmoves hqs =>
      cases hholds : s₁.flags.holds q with
      | false => exact hedge (by rw [Ending.next?, hholds]; rfl) hl' hqs
      | true =>
        obtain ⟨-, -, ps', -, hps', -⟩ := hcode.stub_leads h hl hst hmoves
          (i := branchTo (jumpMnemonic q) _) rfl
        exact hedge (by rw [Ending.next?, hholds]; rfl) hl hps'

/-- A pass that leads to a block is carried out. It takes a step if it begins at a label. -/
theorem pass_performs {s : Core} (h : Closed p.blocks bound) (hpass : Pass c p idx s w (some t)) :
    ∃ n, Performs c code n ⟨start p frameBytes pieces idx, s⟩ w (start p frameBytes pieces t) ∧
      ((∃ l, Named p.blocks l idx) → 0 < n) := by
  cases hpass with
  | @edge b body ps qs e s₁ l t hb he hps hs hnext hl hqs =>
    obtain ⟨n, ps', is, stubs, k, hps', hwritten, hst, hleads, his, hk, hpos⟩ :=
      hcode.body_leads hb he
    obtain rfl := Except.ok.inj (hps.symm.trans hps')
    obtain ⟨m, hm⟩ := hcode.ending_performs (c := c) h hwritten hst his hk hnext hl hqs
    refine ⟨n + m, hleads.performs.trans fun z hz ↦ ?_, ?_⟩
    · obtain rfl := Option.some.inj (hs.symm.trans hz)
      exact hm
    · rintro ⟨l', b', hb', hlabel⟩
      obtain rfl := Option.some.inj (hb.symm.trans hb')
      exact Nat.add_pos_left (hpos (by rw [hlabel]; rfl)) m

/-- A pass that leads to no block is carried out, and ends at a return if it does not get stuck. -/
theorem pass_returns {s : Core} (hpass : Pass c p idx s w none) :
    ∃ n q, Performs c code n ⟨start p frameBytes pieces idx, s⟩ w q ∧
      ∀ z, Core.executeAll c w s = some z → ∃ i, code[q]? = some i ∧ i.kind = .ret := by
  cases hpass with
  | stuck hb he hps hs =>
    obtain ⟨n, ps, is, stubs, k, hps', -, -, hleads, -⟩ := hcode.body_leads hb he
    obtain rfl := Except.ok.inj (hps.symm.trans hps')
    exact ⟨n, k, hleads.performs, fun z hz ↦ absurd (hs.symm.trans hz) (by simp)⟩
  | ret hb he hps hs =>
    obtain ⟨n, ps, is, stubs, k, hps', hwritten, -, hleads, his, -⟩ := hcode.body_leads hb he
    obtain rfl := Except.ok.inj (hps.symm.trans hps')
    cases hwritten with
    | ret hdead =>
      rw [epilogue_eq] at his
      obtain ⟨hrestores, hret⟩ := append_prefix_drop_iff.mp (append_prefix_drop_iff.mp his).1
      exact ⟨_, _, (hleads.trans (Leads.of_prefix (restores_straight _) hrestores)).performs,
        fun z _ ↦ ⟨_, singleton_prefix_drop_iff.mp hret, rfl⟩⟩

theorem prologue_performs (s : Core) :
    ∃ n, Performs c code n ⟨0, s⟩ (prologue frameBytes p.saves) (start p frameBytes pieces 0) := by
  obtain ⟨rest, hrest⟩ := hcode.pieces
  have hbegins : prologue frameBytes p.saves <+: code.drop 0 :=
    ⟨pieces.flatMap (·.1) ++ rest, by rw [hrest, List.append_assoc]; rfl⟩
  have hleads := Leads.of_prefix (prologue_straight frameBytes p.saves) hbegins
  rw [Nat.zero_add] at hleads
  exact ⟨_, hleads.performs⟩

end Laid

/-! ## Runs -/

/-- `OnPass c p idx s v` says that control which has entered block `idx` with `s` and has executed
`v` since has walked over some passes and is on one. -/
def OnPass (c : Callee) (p : Plan) (idx : Nat) (s : Core) (v : List Inst) : Prop :=
  ∃ w idx' z r dest u, Walk c p idx s w idx' z ∧ Pass c p idx' z r dest ∧ u <+: r ∧ v = w ++ u

/-- An execution from the first instruction of a block is on a pass if all executions are that begin
at labels and are shorter. -/
private theorem onPass_of_shorter (hcode : Laid p frameBytes pieces code) (h : Closed p.blocks bound)
    {m : Nat} {s : Core} {v : List Inst} {y : Point} (hidx : idx < p.blocks.length)
    (hshorter : ∀ k t z u, ((∃ l, Named p.blocks l idx) → k < m) → (∃ l, Named p.blocks l t) →
      Steps c code k ⟨start p frameBytes pieces t, z⟩ u y → OnPass c p t z u ∧ y.pc < code.length)
    (hv : Steps c code m ⟨start p frameBytes pieces idx, s⟩ v y) :
    OnPass c p idx s v ∧ y.pc < code.length := by
  obtain ⟨w, dest, hpass⟩ := hcode.exists_pass h hidx c s
  have hon {u : List Inst} (hu : u <+: w) : OnPass c p idx s u :=
    ⟨[], idx, s, w, dest, u, .refl idx s, hpass, hu, rfl⟩
  cases dest with
  | none =>
    obtain ⟨n, q, hperforms, hq⟩ := hcode.pass_returns hpass
    rcases hperforms.confined m v y hv with ⟨hbegins, hlt⟩ | ⟨z, u, k, rfl, rfl, hz, hu⟩
    · exact ⟨hon hbegins, hlt⟩
    · obtain ⟨i, hi, hkind⟩ := hq z hz
      cases hu with
      | refl =>
        rw [List.append_nil]
        exact ⟨hon (List.prefix_refl w), (List.getElem?_eq_some_iff.mp hi).1⟩
      | head hnext _ => exact absurd (hnext.symm.trans (Point.next_ret hi hkind)) (by simp)
  | some t =>
    obtain ⟨n, hperforms, hpos⟩ := hcode.pass_performs h hpass
    rcases hperforms.confined m v y hv with ⟨hbegins, hlt⟩ | ⟨z, u, k, rfl, rfl, hz, hu⟩
    · exact ⟨hon hbegins, hlt⟩
    · obtain ⟨⟨w', idx', z', r, dest, u', hwalk, hpass', hbegins, rfl⟩, hlt⟩ :=
        hshorter k t z u (fun hl ↦ Nat.lt_add_of_pos_left (hpos hl)) (hpass.named rfl) hu
      exact ⟨⟨w ++ w', idx', z', r, dest, u', .step hpass hz hwalk, hpass', hbegins,
        (List.append_assoc ..).symm⟩, hlt⟩

/-- Every execution from the first instruction of a block is on a pass, after those it has walked
over. -/
theorem onPass_of_steps (hcode : Laid p frameBytes pieces code) (h : Closed p.blocks bound) {m : Nat}
    {s : Core} {v : List Inst} {y : Point} (hidx : idx < p.blocks.length)
    (hv : Steps c code m ⟨start p frameBytes pieces idx, s⟩ v y) :
    OnPass c p idx s v ∧ y.pc < code.length := by
  -- a pass that begins at a label takes a step, so the rest of the execution is shorter
  have hlabelled : ∀ m t z u, (∃ l, Named p.blocks l t) →
      Steps c code m ⟨start p frameBytes pieces t, z⟩ u y →
      OnPass c p t z u ∧ y.pc < code.length := by
    intro m
    induction m using Nat.strongRecOn with
    | ind m ih =>
      intro t z u ht hu
      obtain ⟨l, hl⟩ := ht
      exact onPass_of_shorter hcode h hl.lt_length
        (fun k t' z' u' hk ht' hu' ↦ ih k (hk ⟨l, hl⟩) t' z' u' ht' hu') hu
  exact onPass_of_shorter hcode h hidx (fun k t z u _ ht hu ↦ hlabelled k t z u ht hu) hv

/-- Code that carries out the blocks of a plan, the code of block `t` beginning at `start t`. -/
structure CarriesOut (c : Callee) (p : Plan) (frameBytes : Nat) (code : List Inst)
    (start : Nat → Nat) : Prop where
  /-- The first instruction of a block with a label is this label. -/
  label : ∀ l t, Named p.blocks l t → code[start t]? = some (.label l)
  /-- From the first instruction control gets through the prologue to the first block. -/
  entry : ∀ s, ∃ n, Performs c code n ⟨0, s⟩ (prologue frameBytes p.saves) (start 0)
  /-- Whatever the machine holds, there is a pass through every block. -/
  pass : ∀ idx s, idx < p.blocks.length → ∃ w dest, Pass c p idx s w dest
  /-- A pass over an edge is what control performs, and leads to the first instruction of the block
  at its end. -/
  edge : ∀ idx s w t, Pass c p idx s w (some t) → ∃ n, Performs c code n ⟨start idx, s⟩ w (start t)
  /-- Any other pass is what control performs, and ends at a return if it does not get stuck. -/
  ret : ∀ idx s w, Pass c p idx s w none → ∃ n q, Performs c code n ⟨start idx, s⟩ w q ∧
    ∀ z, Core.executeAll c w s = some z → ∃ i, code[q]? = some i ∧ i.kind = .ret

/-- **A laid-out function carries out its blocks.** For every list of blocks that end, with
different labels drawn from the session, every allocation and all phis: control that enters a block
executes its body, then the copies of the edge that its final flags select and no others, and is at
the first instruction of the block to which this edge leads. Nothing else happens in any execution:
it goes through the prologue, walks over passes, and is on one, at an instruction of the function. -/
theorem layout_carriesOut {name : String} {bytes : Nat} {s s' : Session}
    (h : Closed blocks s.nextLabel) (hok : layout name blocks bytes a s = .ok f s') (c : Callee) :
    ∃ start, CarriesOut c (planOf blocks bytes a) f.frameBytes f.insts start ∧
      (blocks ≠ [] → ∀ m s v y, Steps c f.insts m ⟨0, s⟩ v y → y.pc < f.insts.length ∧
        (v <+: prologue f.frameBytes (saveSlots bytes a.used.toList) ∨
          ∃ s₁ u, Core.executeAll c (prologue f.frameBytes (saveSlots bytes a.used.toList)) s = some s₁ ∧
            OnPass c (planOf blocks bytes a) 0 s₁ u ∧
            v = prologue f.frameBytes (saveSlots bytes a.used.toList) ++ u)) := by
  obtain ⟨pieces, hcode⟩ := layout_laid h hok
  refine ⟨start (planOf blocks bytes a) f.frameBytes pieces,
    ⟨fun l t hl ↦ hcode.label_at_start h hl, hcode.prologue_performs,
      fun idx s hidx ↦ hcode.exists_pass h hidx c s, fun idx s w t hpass ↦ ?_,
      fun idx s w hpass ↦ hcode.pass_returns hpass⟩, fun hne m s v y hv ↦ ?_⟩
  · obtain ⟨n, hn, -⟩ := hcode.pass_performs h hpass
    exact ⟨n, hn⟩
  · obtain ⟨n, hn⟩ := hcode.prologue_performs (c := c) s
    rcases hn.confined m v y hv with ⟨hbegins, hlt⟩ | ⟨z, u, k, rfl, rfl, hz, hu⟩
    · exact ⟨hlt, Or.inl hbegins⟩
    · obtain ⟨hon, hlt⟩ := onPass_of_steps hcode h (List.length_pos_iff.mpr hne) hu
      exact ⟨hlt, Or.inr ⟨z, u, hz, hon, rfl⟩⟩

/-- A block that branches to itself, with copies on both edges into it. -/
def counting : List Block :=
  [{ id := 0, succs := [1], insts := [moveTo 0 (.imm 9), jumpTo 0] },
    { id := 1, label := some 0, succs := [1, 2], phis := [⟨1, [(.vreg 0, 0), (.vreg 2, 1)]⟩],
      insts := [moveTo 2 (.vreg 1), .update "subq" [.imm 1, .vreg 2], branchTo "jne" 0, jumpTo 1] },
    { id := 2, label := some 1, succs := [], insts := Ending.ret.insts }]

def countingPlaces : Allocation where
  decisions := [.assign 0 .rbx, .assign 1 .rsi, .assign 2 .rdi]

private theorem named_counting {l : LabelId} {t : Nat} (h : Named counting l t) :
    l < 2 ∧ t = l + 1 := by
  obtain ⟨b, hb, hl⟩ := h
  match t, hb with
  | 0, hb =>
    obtain rfl := Option.some.inj hb
    exact absurd hl (by simp)
  | 1, hb =>
    obtain rfl := Option.some.inj hb
    obtain rfl := Option.some.inj hl
    exact ⟨by decide, rfl⟩
  | 2, hb =>
    obtain rfl := Option.some.inj hb
    obtain rfl := Option.some.inj hl
    exact ⟨by decide, rfl⟩
  | t + 3, hb => exact absurd hb (by simp [counting])

private theorem counting_closed : Closed counting 2 where
  ends := by
    refine List.forall_mem_cons.mpr ⟨⟨[moveTo 0 (.imm 9)], .jump 0, rfl, by decide⟩,
      List.forall_mem_cons.mpr ⟨⟨[moveTo 2 (.vreg 1), .update "subq" [.imm 1, .vreg 2]],
        .branch .ne 0 1, rfl, by decide⟩, List.forall_mem_singleton.mpr ⟨[], .ret, rfl, by decide⟩⟩⟩
  named := by
    have hnamed : ∀ b ∈ counting, ∀ i ∈ b.insts, i.isBranch = true →
        i.operands.head? = some (.label 0) ∨ i.operands.head? = some (.label 1) := by decide
    intro b hb i hi hbranch l hl
    rcases hnamed b hb i hi hbranch with h | h
    · obtain rfl := Operand.label.inj (Option.some.inj (h.symm.trans hl))
      exact ⟨1, _, rfl, rfl⟩
    · obtain rfl := Operand.label.inj (Option.some.inj (h.symm.trans hl))
      exact ⟨2, _, rfl, rfl⟩
  distinct l t t' h h' := (named_counting h).2.trans (named_counting h').2.symm
  drawn l t h := (named_counting h).1

/-- The copies of the block's edge to itself go to a stub, and control that is sent back goes
through them. -/
theorem counting_carriesOut : Closed counting 2 ∧ ∃ f s',
    layout "counting" counting 0 countingPlaces { nextLabel := 2 } = .ok f s' ∧ ∃ start,
      CarriesOut ⟨fun _ _ m ↦ m, fun _ _ _ _ ↦ 0, fun _ _ _ ↦ default⟩
        (planOf counting 0 countingPlaces) f.frameBytes f.insts start := by
  obtain ⟨f, s', hok⟩ : ∃ f s',
      layout "counting" counting 0 countingPlaces { nextLabel := 2 } = .ok f s' := ⟨_, _, rfl⟩
  obtain ⟨start, hstart, -⟩ := layout_carriesOut counting_closed hok
    ⟨fun _ _ m ↦ m, fun _ _ _ _ ↦ 0, fun _ _ _ ↦ default⟩
  exact ⟨counting_closed, f, s', hok, start, hstart⟩

end TreeCover
