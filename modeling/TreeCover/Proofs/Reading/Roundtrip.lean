import TreeCover.Proofs.Reading.Phrases

/-!
# The reader inverts the format

A function that is being read holds, block by block, the instructions whose lines came so far, with
names in the place of numbers (`Draft.Matches`). At the closing brace every name resolves to the number
it stood for, since names are distinct. Main statement: `parse_of_isText`.
-/

namespace TreeCover.Ir

/-! ## From numbers to names and back -/

section Names

variable {ν β ν' β' : Type} {f : ν → Option ν'} {g : β → Option β'} {f' : ν' → Except ReadFault ν}
  {g' : β' → Except ReadFault β}

theorem Operand.resolve_pure (o : Operand ν) :
    o.resolve (pure : ν → Except ReadFault ν) = .ok o := by
  cases o <;> rfl

/-- A name that stands for a value resolves to it. -/
theorem Operand.resolve_of_names (hf : ∀ v s, f v = some s → f' s = .ok v) {o : Operand ν}
    {o' : Operand ν'} (h : o.resolve f = some o') : o'.resolve f' = .ok o := by
  cases o with
  | int n bits =>
    obtain rfl := Option.some.inj h
    rfl
  | float x =>
    obtain rfl := Option.some.inj h
    rfl
  | value v =>
    obtain ⟨s, hs, h⟩ := Option.bind_eq_some_iff.mp h
    obtain rfl := Option.some.inj h
    exact Except.bind_eq_ok.mpr ⟨v, hf v s hs, rfl⟩

namespace Operation

/-- An operation with names keeps its operator. -/
theorem opcode_of_names {op : Operation ν β} {op' : Operation ν' β'}
    (h : op.resolve f g = some op') : op'.opcode = op.opcode := by
  cases op with
  | ret v =>
    cases v with
    | none =>
      obtain rfl := Option.some.inj h
      rfl
    | some v =>
      simp only [resolve, Option.bind_eq_bind, Option.bind_eq_some_iff, Option.pure_def,
        Option.some.injEq] at h
      obtain ⟨_, -, rfl⟩ := h
      rfl
  | _ =>
    simp only [resolve, Option.bind_eq_bind, Option.bind_eq_some_iff, Option.pure_def,
      Option.some.injEq] at h
    grind [opcode]

/-- An operation with names resolves to the one it was named from. -/
theorem resolve_of_names (hf : ∀ v s, f v = some s → f' s = .ok v)
    (hg : ∀ b s, g b = some s → g' s = .ok b) {op : Operation ν β} {op' : Operation ν' β'}
    (h : op.resolve f g = some op') :
    ∃ op'', op'.resolve f' pure = .ok op'' ∧ op''.resolve pure g' = .ok op := by
  have back : ∀ {o : Operand ν} {o' : Operand ν'}, o.resolve f = some o' → o'.resolve f' = .ok o :=
    fun h ↦ Operand.resolve_of_names hf h
  cases op with
  | binary op a b =>
    obtain ⟨a', ha, h⟩ := Option.bind_eq_some_iff.mp h
    obtain ⟨b', hb, h⟩ := Option.bind_eq_some_iff.mp h
    obtain rfl := Option.some.inj h
    refine ⟨.binary op a b, by rw [resolve, back ha, back hb]; rfl, ?_⟩
    rw [resolve, a.resolve_pure, b.resolve_pure]
    rfl
  | icmp p a b =>
    obtain ⟨a', ha, h⟩ := Option.bind_eq_some_iff.mp h
    obtain ⟨b', hb, h⟩ := Option.bind_eq_some_iff.mp h
    obtain rfl := Option.some.inj h
    refine ⟨.icmp p a b, by rw [resolve, back ha, back hb]; rfl, ?_⟩
    rw [resolve, a.resolve_pure, b.resolve_pure]
    rfl
  | store v a =>
    obtain ⟨v', hv, h⟩ := Option.bind_eq_some_iff.mp h
    obtain ⟨a', ha, h⟩ := Option.bind_eq_some_iff.mp h
    obtain rfl := Option.some.inj h
    refine ⟨.store v a, by rw [resolve, back hv, back ha]; rfl, ?_⟩
    rw [resolve, v.resolve_pure, a.resolve_pure]
    rfl
  | cast op a =>
    obtain ⟨a', ha, h⟩ := Option.bind_eq_some_iff.mp h
    obtain rfl := Option.some.inj h
    refine ⟨.cast op a, by rw [resolve, back ha]; rfl, ?_⟩
    rw [resolve, a.resolve_pure]
    rfl
  | load a =>
    obtain ⟨a', ha, h⟩ := Option.bind_eq_some_iff.mp h
    obtain rfl := Option.some.inj h
    refine ⟨.load a, by rw [resolve, back ha]; rfl, ?_⟩
    rw [resolve, a.resolve_pure]
    rfl
  | alloca =>
    obtain rfl := Option.some.inj h
    exact ⟨.alloca, rfl, rfl⟩
  | br t =>
    obtain ⟨t', ht, h⟩ := Option.bind_eq_some_iff.mp h
    obtain rfl := Option.some.inj h
    exact ⟨.br t', rfl, by rw [resolve, hg t t' ht]; rfl⟩
  | condBr c t e =>
    obtain ⟨c', hc, h⟩ := Option.bind_eq_some_iff.mp h
    obtain ⟨t', ht, h⟩ := Option.bind_eq_some_iff.mp h
    obtain ⟨e', he, h⟩ := Option.bind_eq_some_iff.mp h
    obtain rfl := Option.some.inj h
    refine ⟨.condBr c t' e', by rw [resolve, back hc]; rfl, ?_⟩
    rw [resolve, c.resolve_pure, hg t t' ht, hg e e' he]
    rfl
  | ret v =>
    cases v with
    | none =>
      obtain rfl := Option.some.inj h
      exact ⟨.ret none, rfl, rfl⟩
    | some v =>
      obtain ⟨v', hv, h⟩ := Option.bind_eq_some_iff.mp h
      obtain rfl := Option.some.inj h
      refine ⟨.ret (some v), by rw [resolve, back hv]; rfl, ?_⟩
      rw [resolve, v.resolve_pure]
      rfl
  | call callee args =>
    obtain ⟨args', hargs, h⟩ := Option.bind_eq_some_iff.mp h
    obtain rfl := Option.some.inj h
    have hvalues : args'.mapM (·.resolve f') = .ok args :=
      Except.mapM_eq_ok_iff.mpr ((Option.mapM_eq_some_iff.mp hargs).flip.imp fun _ _ ↦ back)
    have hblocks : args.mapM (·.resolve (pure : ν → Except ReadFault ν)) = .ok args :=
      Except.mapM_eq_ok_iff.mpr (List.forall₂_same.mpr fun o _ ↦ o.resolve_pure)
    exact ⟨.call callee args, by rw [resolve, hvalues]; rfl, by rw [resolve, hblocks]; rfl⟩
  | phi pairs =>
    obtain ⟨pairs', hpairs, h⟩ := Option.bind_eq_some_iff.mp h
    obtain rfl := Option.some.inj h
    -- halfway, the values are numbers again and the blocks still names
    have hpair : ∀ p' p, (do return (← p.1.resolve f, ← g p.2) : Option (Operand ν' × β')) = some p' →
        ∃ q : Operand ν × β',
          (do return (← p'.1.resolve f', ← pure p'.2) : Except ReadFault _) = .ok q ∧
            (do return (← q.1.resolve pure, ← g' q.2) : Except ReadFault _) = .ok p := by
      intro p' p hp
      obtain ⟨a', ha, hp⟩ := Option.bind_eq_some_iff.mp hp
      obtain ⟨b', hb, hp⟩ := Option.bind_eq_some_iff.mp hp
      obtain rfl := Option.some.inj hp
      refine ⟨(p.1, b'), by rw [back ha]; rfl, ?_⟩
      rw [p.1.resolve_pure, hg _ _ hb]
      rfl
    obtain ⟨qs, hqs, hps⟩ := forall₂_comp_iff.mpr
      ((Option.mapM_eq_some_iff.mp hpairs).flip.imp hpair)
    refine ⟨.phi qs, ?_, ?_⟩
    · rw [resolve, Except.mapM_eq_ok_iff.mpr hqs]
      rfl
    · rw [resolve, Except.mapM_eq_ok_iff.mpr hps]
      rfl

end Operation

end Names

/-! ## Functions read so far -/

variable {f : Func} {d : Draft}

/-- A block read so far has the instructions of a block, with names. -/
structure DraftBlock.Matches (f : Func) (b : DraftBlock) (block : Block) : Prop where
  name : b.name = block.name
  insts : List.Forall₂ (fun i j ↦ f.Names i j.inst) block.insts b.insts.reverse

/-- A function read so far has the blocks, with names. -/
structure Draft.Matches (f : Func) (d : Draft) (blocks : List Block) : Prop where
  name : d.name = f.name
  ret : d.ret = f.ret
  params : d.params = f.params
  blocks : List.Forall₂ (fun block b ↦ DraftBlock.Matches f b block) blocks d.blocks.reverse

namespace Draft.Matches

variable {blocks : List Block}

theorem insts (hd : d.Matches f blocks) :
    List.Forall₂ (fun i j ↦ f.Names i j.inst) (blocks.flatMap (·.insts)) d.insts :=
  List.rel_flatMap hd.blocks fun _ _ hb ↦ hb.insts

theorem names_insts (hd : d.Matches f blocks) :
    d.insts.map (·.inst.name) = (blocks.flatMap (·.insts)).map (·.name) := by
  rw [← List.forall₂_eq_eq_eq, List.forall₂_map_left_iff, List.forall₂_map_right_iff]
  exact hd.insts.flip.imp fun _ _ h ↦ h.name

theorem names_blocks (hd : d.Matches f blocks) :
    d.blocks.reverse.map (·.name) = blocks.map (·.name) := by
  rw [← List.forall₂_eq_eq_eq, List.forall₂_map_left_iff, List.forall₂_map_right_iff]
  exact hd.blocks.flip.imp fun _ _ h ↦ h.name

/-- The names taken are those of the parameters and of the instructions. -/
theorem taken_eq (hd : d.Matches f blocks) :
    d.taken = f.params.map (·.name) ++ (blocks.flatMap (·.insts)).filterMap (·.name) := by
  have hnames : d.insts.filterMap (·.inst.name) =
      (blocks.flatMap (·.insts)).filterMap (·.name) := by
    have h := congrArg (List.filterMap id) hd.names_insts
    rwa [List.filterMap_map, List.filterMap_map] at h
  rw [taken, hd.params, hnames]

end Draft.Matches

/-- Where names do not repeat, the first with the name of an item is the item. -/
theorem findIdx?_of_nodup {α : Type} {g : α → Option String} {xs : List α}
    (hxs : (xs.filterMap g).Nodup) {k : Nat} {x : α} {s : String} (hx : xs[k]? = some x)
    (hs : g x = some s) : xs.findIdx? (g · == some s) = some k := by
  obtain ⟨hk, rfl⟩ := List.getElem?_eq_some_iff.mp hx
  refine List.findIdx?_eq_some_iff_getElem.mpr ⟨hk, beq_iff_eq.mpr hs, fun j hj h ↦ ?_⟩
  have hpairs := List.pairwise_filterMap.mp hxs
  exact List.pairwise_iff_getElem.mp hpairs j k (hj.trans hk) hk hj s (beq_iff_eq.mp h) s hs rfl

theorem findIdx?_of_nodup_map {α : Type} {g : α → String} {xs : List α} (hxs : (xs.map g).Nodup)
    {k : Nat} {x : α} (hx : xs[k]? = some x) : xs.findIdx? (g · == g x) = some k :=
  findIdx?_of_nodup (g := fun y ↦ some (g y)) (by rwa [List.filterMap_eq_map']) hx rfl

namespace Draft.Matches

/-- The name of a value resolves to it. -/
theorem value?_eq (hd : d.Matches f f.blocks) (hf : f.WellFormed) {v : Value} {s : String}
    (hs : f.valueName? v = some s) : d.value? s = some v := by
  obtain ⟨hparams, hinsts, hdisjoint⟩ := List.nodup_append.mp hf.valueNames
  cases v with
  | arg k =>
    obtain ⟨p, hp, rfl⟩ := Option.map_eq_some_iff.mp hs
    rw [value?, hd.params, findIdx?_of_nodup_map hparams hp]
  | inst id =>
    obtain ⟨i, hi, hs⟩ := Option.bind_eq_some_iff.mp hs
    have hnone : f.params.findIdx? (·.name == s) = none := by
      rw [List.findIdx?_eq_none_iff]
      intro p hp
      rw [beq_eq_false_iff_ne]
      exact hdisjoint _ (List.mem_map_of_mem hp) s
        (List.mem_filterMap.mpr ⟨i, List.mem_of_getElem? hi, hs⟩)
    have hfind : d.insts.findIdx? (·.inst.name == some s) = some id :=
      calc d.insts.findIdx? (·.inst.name == some s)
        _ = (d.insts.map (·.inst.name)).findIdx? (· == some s) := by rw [List.findIdx?_map]; rfl
        _ = (f.insts.map (·.name)).findIdx? (· == some s) := by rw [hd.names_insts]; rfl
        _ = f.insts.findIdx? (·.name == some s) := by rw [List.findIdx?_map]; rfl
        _ = some id := findIdx?_of_nodup hinsts hi hs
    rw [value?, hd.params, hnone, hfind]
    rfl

/-- The name of a block resolves to it. -/
theorem block?_eq (hd : d.Matches f f.blocks) (hf : f.WellFormed) {b : BlockId} {s : String}
    (hs : f.blockName? b = some s) : d.block? s = some b := by
  obtain ⟨block, hblock, rfl⟩ := Option.map_eq_some_iff.mp hs
  calc d.blocks.reverse.findIdx? (·.name == block.name)
    _ = (d.blocks.reverse.map (·.name)).findIdx? (· == block.name) := by
      rw [List.findIdx?_map]; rfl
    _ = (f.blocks.map (·.name)).findIdx? (· == block.name) := by rw [hd.names_blocks]
    _ = f.blocks.findIdx? (·.name == block.name) := by rw [List.findIdx?_map]; rfl
    _ = some b := findIdx?_of_nodup_map hf.blockNames hblock

/-- Once all blocks are read, each instruction reads as the one it has the names of. -/
theorem reads (hd : d.Matches f f.blocks) (hf : f.WellFormed) {i : ResolvedInst}
    {j : DraftInst String String} (h : f.Names i j.inst) : j.Reads d i := by
  refine ⟨h.name.symm, h.ty.symm, Operation.resolve_of_names (fun v s hs ↦ ?_) (fun b s hs ↦ ?_)
    h.operation⟩
  · exact orFault_eq_ok.mpr (hd.value?_eq hf hs)
  · exact orFault_eq_ok.mpr (hd.block?_eq hf hs)

end Draft.Matches

/-! ## Blocks that are complete or not -/

section Blocks

variable {block : Block} {is is' : List ResolvedInst} {i : ResolvedInst}

/-- Only the last instruction of a block is a terminator. -/
theorem Block.WellFormed.not_isTerminator (h : block.WellFormed)
    (hinsts : block.insts = is ++ i :: is') : ∀ j ∈ is, j.opcode.isTerminator = false := by
  obtain ⟨body, last, hbody, -, hnot, -⟩ := h.terminator
  intro j hj
  refine hnot j ?_
  have hdrop : body = (is ++ i :: is').dropLast := by
    rw [← hinsts, hbody, List.dropLast_concat]
  rw [hdrop, List.dropLast_append_cons]
  exact List.mem_append_left _ hj

/-- What stands before a phi are phis. -/
theorem Block.WellFormed.isPhi_of_isPhi (h : block.WellFormed)
    (hinsts : block.insts = is ++ i :: is') (hi : i.operation.isPhi = true) :
    ∀ j ∈ is, j.operation.isPhi = true := by
  intro j hj
  obtain ⟨k, hk, rfl⟩ := List.getElem_of_mem hj
  have hlast : is.length < block.phis.length := by
    refine (h.phis is.length i ?_).mp hi
    rw [hinsts, List.getElem?_append_right (Nat.le_refl _), Nat.sub_self]
    rfl
  refine (h.phis k is[k] ?_).mpr (hk.trans hlast)
  rw [hinsts, List.getElem?_append_left hk, List.getElem?_eq_getElem hk]

end Blocks

namespace DraftBlock.Matches

variable {b : DraftBlock} {block : Block}

theorem opcodes (hb : b.Matches f block) :
    b.insts.reverse.map (·.inst.opcode) = block.insts.map (·.opcode) := by
  rw [← List.forall₂_eq_eq_eq, List.forall₂_map_left_iff, List.forall₂_map_right_iff]
  exact hb.insts.flip.imp fun _ _ h ↦ Operation.opcode_of_names h.operation

/-- A block read to its end has ended. -/
theorem isTerminated (hb : b.Matches f block) (h : block.WellFormed) : b.isTerminated = true := by
  obtain ⟨body, last, hbody, hlast, -⟩ := h.terminator
  have hopcodes := hb.opcodes
  rw [hbody, List.map_append, ← List.reverse_inj, List.map_reverse, List.reverse_reverse,
    List.reverse_append] at hopcodes
  obtain ⟨j, js, hjs, hj, -⟩ := List.map_eq_cons_iff.mp hopcodes
  rw [DraftBlock.isTerminated, hjs]
  exact (congrArg Opcode.isTerminator hj).trans hlast

/-- A block read up to an instruction has not. -/
theorem not_isTerminated (hb : b.Matches f block)
    (h : ∀ i ∈ block.insts, i.opcode.isTerminator = false) : b.isTerminated = false := by
  have hopcodes := hb.opcodes
  rw [DraftBlock.isTerminated]
  cases hinsts : b.insts with
  | nil => rfl
  | cons j js =>
    have hj : j.inst.opcode ∈ block.insts.map (·.opcode) := by
      rw [← hopcodes, hinsts]
      exact List.mem_map_of_mem (by simp)
    obtain ⟨i, hi, hopcode⟩ := List.mem_map.mp hj
    exact (congrArg Opcode.isTerminator hopcode).symm.trans (h i hi)

theorem isPhi (hb : b.Matches f block) (h : ∀ i ∈ block.insts, i.operation.isPhi = true) :
    ∀ j ∈ b.insts, j.inst.operation.isPhi = true := by
  intro j hj
  have hmem : j.inst.opcode ∈ block.insts.map (·.opcode) := by
    rw [← hb.opcodes]
    exact List.mem_map_of_mem (List.mem_reverse.mpr hj)
  obtain ⟨i, hi, hopcode⟩ := List.mem_map.mp hmem
  rw [Operation.isPhi_iff]
  exact hopcode.symm.trans (Operation.isPhi_iff.mp (h i hi))

end DraftBlock.Matches

/-! ## Lines -/

/-- The line of an instruction is no label. -/
theorem Inst.Spells.ne_label {j : Inst String String} {line : List Token} (h : j.Spells line) :
    ∀ label rest, line ≠ .word label :: .punct ':' :: rest := by
  rintro label rest rfl
  cases h with
  | statement h =>
    cases h with
    | call h => nomatch h

theorem Func.SpellsInst.ne_label {i : ResolvedInst} {line : List Token} (h : f.SpellsInst i line) :
    ∀ label rest, line ≠ .word label :: .punct ':' :: rest := by
  obtain ⟨j, -, hj⟩ := h
  exact hj.ne_label

/-- The line of an instruction closes no function. -/
theorem Inst.Spells.ne_close {j : Inst String String} {line : List Token} (h : j.Spells line) :
    line ≠ [.punct '\x7d'] := by
  rintro rfl
  cases h with
  | statement h =>
    cases h with
    | call h => nomatch h

theorem Func.SpellsInst.ne_close {i : ResolvedInst} {line : List Token} (h : f.SpellsInst i line) :
    line ≠ [.punct '\x7d'] := by
  obtain ⟨j, -, hj⟩ := h
  exact hj.ne_close

namespace Draft.Matches

variable {blocks blocks' : List Block} {name : String} {is is' : List ResolvedInst}
  {i : ResolvedInst} {n : Nat} {line : List Token}

/-- The newest block of a function read so far, and those before it. -/
theorem exists_newest {block : Block} (hd : d.Matches f (blocks ++ [block])) :
    ∃ b bs, d.blocks = b :: bs ∧ b.Matches f block ∧
      List.Forall₂ (fun block b ↦ DraftBlock.Matches f b block) blocks.reverse bs := by
  have hblocks := List.rel_reverse hd.blocks
  rw [List.reverse_reverse, List.reverse_append, List.reverse_singleton, List.singleton_append,
    List.forall₂_cons_left_iff] at hblocks
  obtain ⟨b, bs, hb, hbs, h⟩ := hblocks
  exact ⟨b, bs, h, hb, hbs⟩

/-- A label opens the next block. -/
theorem addLabel (hd : d.Matches f blocks) (hf : f.WellFormed)
    (hblocks : f.blocks = blocks ++ ⟨name, is⟩ :: blocks') :
    ∃ d', d.addLine n [.word name, .punct ':'] = .ok d' ∧ d'.Matches f (blocks ++ [⟨name, []⟩]) := by
  refine ⟨_, addLine_label_eq_ok.mpr ⟨rfl, openBlock_eq_ok.mpr ⟨fun b hb ↦ ?_, ?_, rfl⟩⟩, hd.name,
    hd.ret, hd.params, ?_⟩
  · rcases List.eq_nil_or_concat blocks with rfl | ⟨init, block, rfl⟩
    · have hnil := hd.blocks.length_eq
      rw [List.length_reverse, List.length_nil] at hnil
      rw [List.eq_nil_of_length_eq_zero hnil.symm] at hb
      exact absurd hb nofun
    · rw [List.concat_eq_append] at hd hblocks
      obtain ⟨b', bs, hbs, hmatches, -⟩ := hd.exists_newest
      rw [hbs] at hb
      obtain rfl := Option.some.inj hb
      exact hmatches.isTerminated (hf.blocks block (by rw [hblocks]; simp))
  · have hnodup := hf.blockNames
    rw [hblocks, List.map_append, List.map_cons, List.nodup_append] at hnodup
    rw [← List.mem_reverse, ← List.map_reverse, hd.names_blocks]
    exact fun h ↦ hnodup.2.2 name h name List.mem_cons_self rfl
  · rw [List.reverse_cons]
    exact List.rel_append hd.blocks (.cons ⟨rfl, .nil⟩ .nil)

/-- The name of the next instruction is new. -/
theorem not_mem_taken (hd : d.Matches f (blocks ++ [⟨name, is⟩])) (hf : f.WellFormed)
    (hblocks : f.blocks = blocks ++ ⟨name, is ++ i :: is'⟩ :: blocks') {s : String}
    (hs : i.name = some s) : s ∉ d.taken := by
  have hnodup := hf.valueNames
  have hinsts : f.insts = (blocks ++ [(⟨name, is⟩ : Block)]).flatMap (·.insts) ++
      i :: (is' ++ blocks'.flatMap (·.insts)) := by
    simp [Func.insts, hblocks]
  rw [hinsts, List.filterMap_append, List.filterMap_cons, hs, ← List.append_assoc, ← hd.taken_eq,
    List.nodup_append] at hnodup
  exact fun h ↦ hnodup.2.2 s h s List.mem_cons_self rfl

/-- The line of an instruction adds it to the newest block. -/
theorem addInst (hd : d.Matches f (blocks ++ [⟨name, is⟩])) (hf : f.Writable)
    (hblocks : f.blocks = blocks ++ ⟨name, is ++ i :: is'⟩ :: blocks') (hline : f.SpellsInst i line) :
    ∃ d', d.addLine n line = .ok d' ∧ d'.Matches f (blocks ++ [⟨name, is ++ [i]⟩]) := by
  have hblock : (⟨name, is ++ i :: is'⟩ : Block) ∈ f.blocks := by rw [hblocks]; simp
  have hi : i ∈ f.insts := List.mem_flatMap.mpr ⟨_, hblock, by simp⟩
  have hwell := hf.wellFormed.blocks _ hblock
  have hlabel := hline.ne_label
  obtain ⟨j, hij, hj⟩ := hline
  obtain ⟨b, bs, hb, hmatches, hbs⟩ := hd.exists_newest
  have hopened : d.opened = d := opened_of_ne_nil (by rw [hb]; nofun)
  have hread : (readInst d.taken).run line = .ok (j, []) := by
    refine readInst_of_spells (hij.ty ▸ (hf.insts i hi).1) hj fun s hs ↦ ?_
    exact hd.not_mem_taken hf.wellFormed hblocks (hij.name ▸ hs)
  have hphi : j.operation.isPhi = true → ∀ k ∈ b.insts, k.inst.operation.isPhi = true := by
    intro hphi
    refine hmatches.isPhi (hwell.isPhi_of_isPhi rfl ?_)
    rw [Operation.isPhi_iff] at hphi ⊢
    exact (Operation.opcode_of_names hij.operation).symm.trans hphi
  have hadd : (d.addInst n).run line = .ok (_, []) := (addInst_eq_ok (by rw [hopened, hb])).mpr
    ⟨hmatches.not_isTerminated (hwell.not_isTerminator rfl), rfl, j, by rwa [hopened], hphi, rfl⟩
  refine ⟨_, (addLine_eq_ok hlabel).mpr hadd, ?_⟩
  rw [hopened]
  refine ⟨hd.name, hd.ret, hd.params, ?_⟩
  rw [List.reverse_cons]
  refine List.rel_append (by simpa using List.rel_reverse hbs) (.cons ⟨hmatches.name, ?_⟩ .nil)
  rw [List.reverse_cons]
  exact List.rel_append hmatches.insts (.cons hij .nil)

/-- A closing brace completes the function. -/
theorem finish (hd : d.Matches f f.blocks) (hf : f.WellFormed) : d.finish n = .ok f := by
  refine finish_eq_ok.mpr ⟨?_, hd.name.symm, hd.ret.symm, hd.params.symm, ?_⟩
  · rcases List.eq_nil_or_concat f.blocks with hnil | ⟨init, block, hblocks⟩
    · exact absurd hnil hf.blocks_ne_nil
    · rw [List.concat_eq_append] at hblocks
      rw [hblocks] at hd
      obtain ⟨b, bs, hb, hmatches, -⟩ := hd.exists_newest
      exact ⟨b, by rw [hb]; rfl, hmatches.isTerminated (hf.blocks block (by rw [hblocks]; simp))⟩
  · exact hd.blocks.flip.imp fun b block hb ↦
      ⟨hb.name.symm, hb.insts.flip.imp fun _ _ h ↦ hd.reads hf h⟩

end Draft.Matches

/-! ## Functions -/

section Functions

variable {blocks blocks' : List Block} {name : String} {is' : List ResolvedInst} {ls : List Line}

theorem readLines_cons {start : Nat} {d' : Draft} {n : Nat} {line : List Token} (hline : line ≠ [.punct '\x7d'])
    (h : d.addLine n line = .ok d') (rest : List Line) :
    readLines (some (start, d)) ((n, line) :: rest) = readLines (some (start, d')) rest := by
  have hread : readLine (some (start, d)) (n, line) = .ok (some (start, d'), none) := by
    rw [readLine, if_neg hline, h]
  rw [readLines.eq_3, hread]
  rfl

/-- The lines of its instructions complete a block. -/
theorem readLines_insts (start : Nat) (is : List ResolvedInst) (hf : f.Writable)
    (hblocks : f.blocks = blocks ++ ⟨name, is ++ is'⟩ :: blocks')
    (hd : d.Matches f (blocks ++ [⟨name, is⟩]))
    (hls : List.Forall₂ f.SpellsInst is' (ls.map (·.2))) :
    ∃ d', d'.Matches f (blocks ++ [⟨name, is ++ is'⟩]) ∧ ∀ rest,
      readLines (some (start, d)) (ls ++ rest) = readLines (some (start, d')) rest := by
  rw [List.forall₂_map_right_iff] at hls
  induction hls generalizing is d with
  | nil => exact ⟨d, by rwa [List.append_nil], fun _ ↦ rfl⟩
  | @cons i l is' ls hline _ ih =>
    obtain ⟨d', hadd, hd'⟩ := hd.addInst (n := l.1) hf hblocks hline
    rw [List.append_cons is i is'] at hblocks ⊢
    obtain ⟨d'', hd'', hrest⟩ := ih (is ++ [i]) hblocks hd'
    exact ⟨d'', hd'', fun rest ↦ (readLines_cons hline.ne_close hadd _).trans (hrest rest)⟩

/-- The lines of its blocks complete a function up to its brace. -/
theorem readLines_blocks {groups : List (List (List Token))} (start : Nat) (hf : f.Writable)
    (hblocks : f.blocks = blocks ++ blocks') (hd : d.Matches f blocks)
    (hgroups : List.Forall₂ f.SpellsBlock blocks' groups)
    (hls : ls.map (·.2) = groups.flatten) :
    ∃ d', d'.Matches f f.blocks ∧ ∀ rest,
      readLines (some (start, d)) (ls ++ rest) = readLines (some (start, d')) rest := by
  induction hgroups generalizing blocks d ls with
  | nil =>
    obtain rfl := List.map_eq_nil_iff.mp hls
    exact ⟨d, by rwa [hblocks, List.append_nil], fun _ ↦ rfl⟩
  | @cons block lines blocks' groups hblock _ ih =>
    obtain ⟨hinsts⟩ := hblock
    obtain ⟨name, insts⟩ := block
    rw [List.flatten_cons, List.cons_append] at hls
    obtain ⟨⟨n, label⟩, ls', rfl, rfl, hls'⟩ := List.map_eq_cons_iff.mp hls
    obtain ⟨ls₁, ls₂, rfl, rfl, hls₂⟩ := List.map_eq_append_iff.mp hls'
    obtain ⟨d₁, hlabel, hd₁⟩ := hd.addLabel (n := n) hf.wellFormed hblocks
    obtain ⟨d₂, hd₂, hread₂⟩ := readLines_insts start [] hf hblocks hd₁ hinsts
    rw [List.append_cons] at hblocks
    obtain ⟨d₃, hd₃, hread₃⟩ := ih hblocks hd₂ hls₂
    have hclose : ([.word name, .punct ':'] : List Token) ≠ [.punct '\x7d'] := nofun
    refine ⟨d₃, hd₃, fun rest ↦ ?_⟩
    rw [List.cons_append, List.append_assoc]
    exact (readLines_cons hclose hlabel _).trans ((hread₂ _).trans (hread₃ rest))

/-- The header of a function is read as one without blocks. -/
theorem header_eq_ok (hf : f.Writable) :
    Draft.header.run f.header = .ok (⟨f.name, f.ret, f.params, []⟩, []) := by
  have hparams : (f.params.map (·.name)).Nodup := (List.nodup_append.mp hf.wellFormed.valueNames).1
  rw [Func.header]
  refine LineReader.run_bind_eq_ok.mpr ⟨(), _, LineReader.keyword_eq_ok.mpr rfl,
    LineReader.run_bind_eq_ok.mpr ⟨f.ret, _, readTy_eq_ok hf.ret,
      LineReader.run_bind_eq_ok.mpr ⟨f.name, _, rfl,
        LineReader.run_bind_eq_ok.mpr ⟨f.params, [.punct '\x7b'], ?_,
          LineReader.run_bind_eq_ok.mpr ⟨(), [], LineReader.punct_eq_ok.mpr rfl, rfl⟩⟩⟩⟩⟩
  refine parenthesized_eq_ok (R := fun p ts ↦ p ∈ f.params ∧ ts = p.tokens)
    (List.forall₂_map_right_iff.mpr (List.forall₂_same.mpr fun p hp ↦ ⟨hp, rfl⟩)) ?_ ?_
  · rintro p _ ⟨-, rfl⟩
    exact ⟨_, _, rfl, Token.noConfusion⟩
  · rintro pre p post _ rest hpre ⟨hp, rfl⟩
    refine LineReader.run_bind_eq_ok.mpr ⟨p.ty, _, readTy_eq_ok (hf.params p hp),
      LineReader.run_bind_eq_ok.mpr ⟨p.name, rest, rfl,
        LineReader.run_guard_bind_eq_ok.mpr ⟨fun h ↦ ?_, rfl⟩⟩⟩
    obtain ⟨q, hq, hname⟩ := List.any_eq_true.mp h
    rw [hpre, List.map_append, List.map_cons, List.nodup_append] at hparams
    exact hparams.2.2 q.name (List.mem_map_of_mem hq) p.name List.mem_cons_self (beq_iff_eq.mp hname)

/-- Without a label, an instruction is added as if one had opened its block. -/
theorem readLines_opened {start n : Nat} {line : List Token} (hclose : line ≠ [.punct '\x7d'])
    (hlabel : ∀ label rest, line ≠ .word label :: .punct ':' :: rest) (rest : List Line) :
    readLines (some (start, d)) ((n, line) :: rest) =
      readLines (some (start, d.opened)) ((n, line) :: rest) := by
  have hadd : d.addLine n line = d.opened.addLine n line := by
    rw [Draft.addLine.eq_2 d n line fun label rest h ↦ hlabel label rest h,
      Draft.addLine.eq_2 d.opened n line fun label rest h ↦ hlabel label rest h,
      Draft.addInst_opened]
  have hread : readLine (some (start, d)) (n, line) = readLine (some (start, d.opened)) (n, line) := by
    rw [readLine, if_neg hclose, hadd, readLine, if_neg hclose]
  rw [readLines.eq_3, readLines.eq_3, hread]

/-- A closing brace gives the function. -/
theorem readLines_close {start : Nat} (hf : f.WellFormed) (hd : d.Matches f f.blocks) (n : Nat) (rest : List Line) :
    readLines (some (start, d)) ((n, [.punct '\x7d']) :: rest) =
      { readLines none rest with functions := f :: (readLines none rest).functions } := by
  have hread : readLine (some (start, d)) (n, [.punct '\x7d']) = .ok (none, some f) := by
    rw [readLine, if_pos rfl, hd.finish hf]
    rfl
  rw [readLines.eq_3, hread]
  rfl

/-- The lines of a function are read as it. -/
theorem readLines_func {lines : List (List Token)} (hf : f.Writable) (h : f.Spells lines)
    (hls : ls.map (·.2) = lines) (rest : List Line) :
    readLines none (ls ++ rest) =
      { readLines none rest with functions := f :: (readLines none rest).functions } := by
  have hempty : (⟨f.name, f.ret, f.params, []⟩ : Draft).Matches f [] := ⟨rfl, rfl, rfl, .nil⟩
  have hheader : ∀ n rest, readLines none ((n, f.header) :: rest) =
      readLines (some (n, ⟨f.name, f.ret, f.params, []⟩)) rest := by
    intro n rest
    have hread : readLine none (n, f.header) =
        .ok (some (n, ⟨f.name, f.ret, f.params, []⟩), none) := by
      rw [readLine, header_eq_ok hf]
    rw [readLines.eq_3, hread]
    rfl
  cases h with
  | labelled hgroups =>
    obtain ⟨⟨n, _⟩, ls', rfl, rfl, hls'⟩ := List.map_eq_cons_iff.mp hls
    obtain ⟨ls₁, ls₂, rfl, hls₁, hls₂⟩ := List.map_eq_append_iff.mp hls'
    obtain ⟨⟨m, _⟩, _, rfl, rfl, hnil⟩ := List.map_eq_cons_iff.mp hls₂
    obtain rfl := List.map_eq_nil_iff.mp hnil
    obtain ⟨d, hd, hread⟩ := readLines_blocks n hf rfl hempty hgroups hls₁
    rw [List.cons_append, List.append_assoc]
    exact (hheader _ _).trans ((hread _).trans (readLines_close hf.wellFormed hd _ _))
  | @unlabelled entry blocks lines groups hblocks hname hentry hgroups =>
    obtain ⟨name, insts⟩ := entry
    obtain rfl : name = "entry" := hname
    obtain ⟨⟨n, _⟩, ls', rfl, rfl, hls'⟩ := List.map_eq_cons_iff.mp hls
    obtain ⟨ls₀, ls₃, rfl, hls₀, hls₃⟩ := List.map_eq_append_iff.mp hls'
    obtain ⟨ls₁, ls₂, rfl, rfl, hls₂⟩ := List.map_eq_append_iff.mp hls₀
    obtain ⟨⟨m, _⟩, _, rfl, rfl, hnil⟩ := List.map_eq_cons_iff.mp hls₃
    obtain rfl := List.map_eq_nil_iff.mp hnil
    have hopened : (⟨f.name, f.ret, f.params, []⟩ : Draft).opened.Matches f [⟨"entry", []⟩] :=
      ⟨rfl, rfl, rfl, .cons ⟨rfl, .nil⟩ .nil⟩
    obtain ⟨d₁, hd₁, hread₁⟩ := readLines_insts n [] hf
      (by rw [hblocks]; exact (List.nil_append _).symm) hopened hentry
    obtain ⟨d₂, hd₂, hread₂⟩ := readLines_blocks n hf
      (by rw [hblocks]; rfl) hd₁ hgroups hls₂
    -- the entry has an instruction, and its line stands for the missing label
    have hentry' : insts ≠ [] := by
      obtain ⟨body, last, hbody, -⟩ :=
        (hf.wellFormed.blocks ⟨"entry", insts⟩ (by rw [hblocks]; simp)).terminator
      have hbody : insts = body ++ [last] := hbody
      simp [hbody]
    obtain ⟨i, is, rfl⟩ := List.exists_cons_of_ne_nil hentry'
    rw [List.forall₂_map_right_iff] at hentry
    obtain ⟨l, ls₁, hl, -, rfl⟩ := List.forall₂_cons_left_iff.mp hentry
    rw [List.cons_append, List.append_assoc, List.append_assoc]
    calc _ = _ := hheader _ _
      _ = _ := readLines_opened hl.ne_close hl.ne_label _
      _ = _ := hread₁ _
      _ = _ := hread₂ _
      _ = _ := readLines_close hf.wellFormed hd₂ _ _

theorem readLines_funcs {fs : List Func} {groups : List (List (List Token))}
    (hfs : ∀ f ∈ fs, f.Writable) (hgroups : List.Forall₂ Func.Spells fs groups)
    (hls : ls.map (·.2) = groups.flatten) : readLines none ls = ⟨fs, none⟩ := by
  induction hgroups generalizing ls with
  | nil =>
    obtain rfl := List.map_eq_nil_iff.mp hls
    rfl
  | cons h _ ih =>
    obtain ⟨hf, hfs⟩ := List.forall_mem_cons.mp hfs
    obtain ⟨ls₁, ls₂, rfl, hls₁, hls₂⟩ := List.map_eq_append_iff.mp hls
    rw [readLines_func hf h hls₁, ih hfs hls₂]

end Functions

/-! ## Texts -/

theorem splitLines_eq_singleton {cs : List Char} (h : '\n' ∉ cs) : splitLines cs = [cs] := by
  induction cs with
  | nil => rfl
  | cons c cs ih =>
    rw [List.mem_cons, not_or] at h
    rw [splitLines, ih h.2]
    exact if_neg fun hc ↦ h.1 (beq_iff_eq.mp hc).symm

theorem splitLines_ne_nil (cs : List Char) : splitLines cs ≠ [] := by
  cases cs with
  | nil => exact List.cons_ne_nil _ _
  | cons c cs =>
    rw [splitLines]
    split
    · split <;> exact List.cons_ne_nil _ _
    · exact List.cons_ne_nil _ _

theorem splitLines_append {cs : List Char} (h : '\n' ∉ cs) (rest : List Char) :
    splitLines (cs ++ '\n' :: rest) = cs :: splitLines rest := by
  have hcut : splitLines ('\n' :: rest) = [] :: splitLines rest := by
    rw [splitLines]
    cases hrest : splitLines rest with
    | nil => exact absurd hrest (splitLines_ne_nil rest)
    | cons line lines => rfl
  induction cs with
  | nil => exact hcut
  | cons c cs ih =>
    rw [List.mem_cons, not_or] at h
    rw [List.cons_append, splitLines, ih h.2]
    exact if_neg fun hc ↦ h.1 (beq_iff_eq.mp hc).symm

/-- Lines that are put together at line feeds are found again. -/
theorem splitLines_intercalate {css : List (List Char)} (hne : css ≠ [])
    (hcss : ∀ cs ∈ css, '\n' ∉ cs) : splitLines (['\n'].intercalate css) = css := by
  induction css with
  | nil => exact absurd rfl hne
  | cons cs css ih =>
    obtain ⟨hcs, hcss⟩ := List.forall_mem_cons.mp hcss
    cases css with
    | nil => rw [List.intercalate_singleton, splitLines_eq_singleton hcs]
    | cons cs' css =>
      rw [List.intercalate_cons_cons, List.append_assoc, List.singleton_append,
        splitLines_append hcs, ih nofun hcss]

/-- Lines are scanned one by one, with their numbers. -/
theorem mapM_zipIdx_of_scanLine {lines : List (List Token × List Char)}
    {F : List Char × Nat → Except ReadError Line}
    (hF : ∀ cs k ts, scanLine cs = .ok ts → F (cs, k) = .ok (k + 1, ts))
    (hlines : ∀ l ∈ lines, scanLine l.2 = .ok l.1) (k : Nat) :
    ((lines.map (·.2)).zipIdx k).mapM F =
      .ok (((lines.map (·.1)).zipIdx k).map fun p ↦ (p.2 + 1, p.1)) := by
  rw [Except.mapM_eq_ok_iff]
  induction lines generalizing k with
  | nil => exact .nil
  | cons l lines ih =>
    obtain ⟨hl, hlines⟩ := List.forall_mem_cons.mp hlines
    exact .cons (hF _ _ _ hl) (ih hlines (k + 1))

/-- The tokens of a text are those its lines were laid out from. -/
theorem scan_eq_ok {text : String} {lines : List (List Token × List Char)} (hne : lines ≠ [])
    (hlines : ∀ l ∈ lines, Laid l.1 l.2 ∧ '\n' ∉ l.2)
    (htext : text.toList = ['\n'].intercalate (lines.map (·.2))) :
    ∃ ls, scan text = .ok ls ∧
      ls.map (·.2) = (lines.map (·.1)).filter fun ts ↦ !ts.isEmpty := by
  have hsplit : splitLines text.toList = lines.map (·.2) := by
    rw [htext]
    refine splitLines_intercalate (fun h ↦ hne (List.map_eq_nil_iff.mp h)) fun cs hcs ↦ ?_
    obtain ⟨l, hl, rfl⟩ := List.mem_map.mp hcs
    exact (hlines l hl).2
  refine ⟨((lines.map (·.1)).zipIdx.map fun p ↦ (p.2 + 1, p.1)).filter
    fun l : Line ↦ !l.2.isEmpty, ?_, ?_⟩
  · rw [scan, hsplit]
    refine Except.bind_eq_ok.mpr ⟨_, mapM_zipIdx_of_scanLine (fun cs k ts h ↦ ?_)
      (fun l hl ↦ scanLine_of_laid (hlines l hl).1) 0, rfl⟩
    simp only [h]
    rfl
  · have hmap : ((lines.map (·.1)).zipIdx.map fun p ↦ (p.2 + 1, p.1)).map (·.2) =
        lines.map (·.1) := by
      rw [List.map_map]
      exact List.zipIdx_map_fst 0 _
    conv_rhs => rw [← hmap, List.filter_map]
    rfl

/-- **Round trip.** Functions that can be written have a text, and whatever text they have, however
it is laid out, is read as them. -/
theorem parse_of_isText (fs : List Func) (hfs : ∀ f ∈ fs, f.Writable) :
    (∃ text, IsText fs text) ∧ ∀ text, IsText fs text → parse text = .ok fs := by
  refine ⟨exists_isText hfs, ?_⟩
  rintro text ⟨hgroups, htokens, hlaid, hne, htext⟩
  obtain ⟨ls, hscan, hls⟩ := scan_eq_ok hne hlaid htext
  rw [parse, readText, hscan]
  dsimp only
  rw [readLines_funcs hfs hgroups (hls.trans htokens)]
  rfl

/-! ## A function to write -/

/-- A loop whose phi takes a value that is defined behind it. -/
def countDown : Func :=
  { name := "count.down", ret := .void, params := [⟨"0", .int 64⟩]
    blocks := [
      ⟨"entry", [⟨none, .void, .br 1⟩]⟩,
      ⟨"loop", [
        ⟨some "i", .int 64, .phi [(.value (.arg 0), 0), (.value (.inst 2), 1)]⟩,
        ⟨some "next", .int 64, .binary .sub (.value (.inst 1)) (.int 1 64)⟩,
        ⟨none, .void, .br 1⟩]⟩] }

theorem countDown_wellFormed : countDown.WellFormed := by
  refine Func.wellFormed_of (List.cons_ne_nil _ _) ?_ ?_ (by decide) (by decide) (by decide)
  · intro block hblock
    simp only [countDown, List.mem_cons, List.not_mem_nil, or_false] at hblock
    rcases hblock with rfl | rfl
    · exact Block.wellFormed_of (List.pairwise_singleton _ _) (show _ = [] ++ [_] from rfl) rfl
        (List.forall_mem_nil _)
    · exact Block.wellFormed_of (by simp [Operation.isPhi]) (show _ = [_, _] ++ [_] from rfl) rfl
        (by decide)
  · have hone : countDown.Defines (.inst 1) := ⟨_, rfl, rfl⟩
    have htwo : countDown.Defines (.inst 2) := ⟨_, rfl, rfl⟩
    intro i hi v hv
    simp only [countDown, Func.insts, List.flatMap_cons, List.flatMap_nil, List.cons_append,
      List.nil_append, List.append_nil, List.mem_cons, List.not_mem_nil, or_false] at hi
    rcases hi with rfl | rfl | rfl | rfl
    · simp [Operation.places] at hv
    · simp [Operation.places] at hv
      rcases hv with rfl | rfl
      · exact Nat.one_pos
      · exact htwo
    · simp [Operation.places] at hv
      exact hv ▸ hone
    · simp [Operation.places] at hv

theorem countDown_writable : countDown.Writable where
  wellFormed := countDown_wellFormed
  name := by decide
  ret := trivial
  params := by simp [countDown, Ty.IsWritten]
  valueNames := by decide
  blockNames := by decide
  insts := by
    simp [countDown, Func.insts, Inst.Writable, Ty.IsWritten, Operand.Fits, Ty.bits, fitsSigned]
    rintro a b (⟨rfl, rfl⟩ | ⟨rfl, rfl⟩) <;> trivial

/-- Every text of the loop is read as it, and there is one. -/
theorem parse_of_isText_countDown : countDown.Writable ∧
    (∃ text, IsText [countDown] text ∧ parse text = .ok [countDown]) := by
  obtain ⟨⟨text, htext⟩, h⟩ := parse_of_isText [countDown]
    (List.forall_mem_singleton.mpr countDown_writable)
  exact ⟨countDown_writable, text, htext, h text htext⟩

end TreeCover.Ir
