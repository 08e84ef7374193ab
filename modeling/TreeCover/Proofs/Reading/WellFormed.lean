import TreeCover.Proofs.Ir.Numbering
import TreeCover.Proofs.Reading.Drafting

/-!
# Functions that are read are well formed

A function is put together line by line, under a block that nothing names if no label opened one, and
its names are resolved when it closes. What every line keeps (`Draft.Sound`) is that the phis of a
block come first, that nothing follows a terminator, that every block but the newest has ended, and
that no name is taken twice. The names resolve to what was read, so all references are in range.
Main statement: `wellFormed_of_parse`.
-/

namespace TreeCover.Ir

variable {d d' : Draft} {b : DraftBlock} {i : DraftInst String String} {f : Func} {line : Nat}
  {tokens rest : List Token}

/-! ## Well-formed functions -/

/-- Operand positions that alternate between a value and a block. -/
inductive Alternating {ν β : Type} : List (Place ν β) → Prop
  | nil : Alternating []
  | cons (o : Operand ν) (b : β) {ps : List (Place ν β)} (h : Alternating ps) :
      Alternating (.operand o :: .block b :: ps)

/-- Phis come first in a block and its only terminator last, which gives the successors. -/
structure Block.WellFormed (block : Block) : Prop where
  phis : ∀ k i, block.insts[k]? = some i → (i.operation.isPhi = true ↔ k < block.phis.length)
  terminator : ∃ body last, block.insts = body ++ [last] ∧ last.opcode.isTerminator = true ∧
    (∀ i ∈ body, i.opcode.isTerminator = false) ∧
      block.succs = last.operation.blocks.eraseDups ∧ block.succs.Nodup

/-- The value is a parameter of the function or an instruction in it that has a name. -/
def Func.Defines (f : Func) : Value → Prop
  | .arg k => k < f.params.length
  | .inst id => ∃ i, f.inst? id = some i ∧ i.name.isSome = true

/-- The blocks of a function hold its instructions in the order of their numbers, every reference is
to something in the function, and names are distinct. -/
structure Func.WellFormed (f : Func) : Prop where
  blocks_ne_nil : f.blocks ≠ []
  firstInst_zero : f.firstInst 0 = 0
  firstInst_succ : ∀ b block, f.blocks[b]? = some block →
    f.firstInst (b + 1) = f.firstInst b + block.insts.length ∧
      ∀ k i, block.insts[k]? = some i → f.inst? (f.firstInst b + k) = some i
  firstInst_end : f.firstInst f.blocks.length = f.insts.length
  blocks : ∀ block ∈ f.blocks, block.WellFormed
  values : ∀ i ∈ f.insts, ∀ v, Place.operand (.value v) ∈ i.operation.places → f.Defines v
  targets : ∀ i ∈ f.insts, ∀ b ∈ i.operation.blocks, b < f.blocks.length
  incoming : ∀ i ∈ f.insts, i.operation.isPhi = true → Alternating i.operation.places
  valueNames : (f.params.map (·.name) ++ f.insts.filterMap (·.name)).Nodup
  blockNames : (f.blocks.map (·.name)).Nodup

/-! ## What every line keeps -/

/-- Phis before all else, and nothing behind a terminator; the newest instruction is the first. -/
structure DraftBlock.Ordered (b : DraftBlock) : Prop where
  phis : b.insts.Pairwise fun later earlier ↦
    later.inst.operation.isPhi = true → earlier.inst.operation.isPhi = true
  ends : ∀ i ∈ b.insts.tail, i.inst.opcode.isTerminator = false

/-- A function read so far: every block but the newest has ended, and no name is taken twice. -/
structure Draft.Sound (d : Draft) : Prop where
  ordered : ∀ b ∈ d.blocks, b.Ordered
  ended : ∀ b ∈ d.blocks.tail, b.isTerminated = true
  blockNames : (d.blocks.map (·.name)).Nodup
  valueNames : d.taken.Nodup

/-- A header takes no name twice. -/
theorem Draft.header_sound (h : header.run tokens = .ok (d, rest)) : d.Sound := by
  simp only [header, LineReader.run_bind_eq_ok] at h
  obtain ⟨_, _, -, ret, _, -, name, _, -, params, _, hparams, _, _, -, _, _, -, h⟩ := h
  obtain ⟨rfl, -⟩ := LineReader.run_pure_eq_ok.mp h
  have hnames : (params.map (·.name)).Nodup := by
    refine LineReader.parenthesized_induct (P := fun ps : List Param ↦ (ps.map (·.name)).Nodup)
      (fun before p ts ts' hbefore hp ↦ ?_) List.nodup_nil hparams
    simp only [LineReader.run_bind_eq_ok] at hp
    obtain ⟨ty, _, -, name, _, -, hp⟩ := hp
    obtain ⟨hname, hp⟩ := LineReader.run_guard_bind_eq_ok.mp hp
    obtain ⟨rfl, -⟩ := LineReader.run_pure_eq_ok.mp hp
    rw [List.map_append, List.nodup_append]
    refine ⟨hbefore, List.nodup_singleton _, fun x hx y hy hxy ↦ hname ?_⟩
    obtain rfl : y = name := List.mem_singleton.mp hy
    obtain ⟨q, hq, rfl⟩ := List.mem_map.mp hx
    exact List.any_eq_true.mpr ⟨q, hq, beq_iff_eq.mpr hxy⟩
  refine ⟨List.forall_mem_nil _, List.forall_mem_nil _, List.nodup_nil, ?_⟩
  rw [taken, insts]
  simpa using hnames

/-- The instructions of a function with one more in its newest block. -/
theorem Draft.insts_cons (d : Draft) (b : DraftBlock) (bs : List DraftBlock) :
    insts { d with blocks := { b with insts := i :: b.insts } :: bs } =
      insts { d with blocks := b :: bs } ++ [i] := by
  simp only [insts, List.reverse_cons, List.flatMap_append, List.flatMap_singleton,
    List.append_assoc]

namespace Draft.Sound

/-- A block that is opened holds nothing yet. -/
theorem openBlock {name : String} (hd : d.Sound) (h : d.openBlock name = .ok d') : d'.Sound := by
  obtain ⟨hended, hname, rfl⟩ := openBlock_eq_ok.mp h
  refine ⟨List.forall_mem_cons.mpr ⟨⟨.nil, List.forall_mem_nil _⟩, hd.ordered⟩, fun b hb ↦ ?_,
    List.nodup_cons.mpr ⟨hname, hd.blockNames⟩, ?_⟩
  · -- the block before ended, and those before it had ended then
    cases hblocks : d.blocks with
    | nil => exact absurd (hblocks ▸ hb) List.not_mem_nil
    | cons b₀ bs =>
      rcases List.mem_cons.mp (hblocks ▸ hb) with rfl | hb
      · exact hended b (by rw [hblocks]; rfl)
      · exact hd.ended b (by rw [hblocks]; exact hb)
  · have hinsts : insts { d with blocks := ⟨name, []⟩ :: d.blocks } = d.insts := by simp [insts]
    rw [taken, hinsts]
    exact hd.valueNames

theorem opened (hd : d.Sound) : d.opened.Sound := by
  rw [Draft.opened]
  split
  next hnil =>
    have hopen : d.openBlock "entry" = .ok { d with blocks := [⟨"entry", []⟩] } := by
      rw [openBlock_eq_ok, List.isEmpty_iff.mp hnil]
      exact ⟨by simp, List.not_mem_nil, rfl⟩
    exact hd.openBlock hopen
  next => exact hd

/-- An instruction comes behind no terminator, and a phi only behind phis. -/
theorem addInst (hd : d.Sound) (h : (d.addInst line).run tokens = .ok (d', rest)) : d'.Sound := by
  obtain ⟨b, bs, hblocks⟩ := d.exists_opened
  obtain ⟨hopen, -, i, hi, hphi, rfl⟩ := (addInst_eq_ok hblocks).mp h
  have hd := hd.opened
  generalize d.opened = d at hd hblocks hi
  obtain ⟨name, ret, params, blocks⟩ := d
  obtain rfl : blocks = b :: bs := hblocks
  obtain ⟨hb, hbs⟩ := List.forall_mem_cons.mp hd.ordered
  refine ⟨List.forall_mem_cons.mpr ⟨⟨List.pairwise_cons.mpr ⟨?_, hb.phis⟩, ?_⟩, hbs⟩, hd.ended,
    hd.blockNames, ?_⟩
  · exact fun j hj hiphi ↦ hphi hiphi j hj
  · intro j hj
    -- the newest instruction so far was no terminator
    cases hinsts : b.insts with
    | nil => exact absurd (hinsts ▸ hj) List.not_mem_nil
    | cons j₀ js =>
      rcases List.mem_cons.mp (hinsts ▸ hj) with rfl | hj
      · rw [DraftBlock.isTerminated, hinsts] at hopen
        exact hopen
      · exact hb.ends j (by rw [hinsts]; exact hj)
  · have hnames := hd.valueNames
    rw [taken] at hnames ⊢
    rw [insts_cons, List.filterMap_append, ← List.append_assoc]
    cases hname : i.name with
    | none => simpa [hname] using hnames
    | some name =>
      have hfresh := not_mem_taken_of_readInst hi name hname
      simp only [List.filterMap_cons, List.filterMap_nil, hname]
      refine List.nodup_append.mpr ⟨hnames, List.nodup_singleton _, ?_⟩
      rintro x hx y hy rfl
      obtain rfl := List.mem_singleton.mp hy
      exact hfresh hx

theorem addLine (hd : d.Sound) (h : d.addLine line tokens = .ok d') : d'.Sound := by
  by_cases hlabel : ∃ label rest, tokens = .word label :: .punct ':' :: rest
  · obtain ⟨label, rest, rfl⟩ := hlabel
    exact hd.openBlock (addLine_label_eq_ok.mp h).2
  · exact hd.addInst ((addLine_eq_ok fun label rest heq ↦ hlabel ⟨label, rest, heq⟩).mp h)

end Draft.Sound

/-! ## What the names resolve to -/

namespace DraftInst.Reads

variable {j : ResolvedInst}

theorem opcode (h : i.Reads d j) : j.opcode = i.inst.opcode := by
  obtain ⟨op, hop, hop'⟩ := h.operation
  exact (Operation.resolves_of_resolve hop').opcode.trans (Operation.resolves_of_resolve hop).opcode

theorem isPhi (h : i.Reads d j) : j.operation.isPhi = i.inst.operation.isPhi := by
  rw [Bool.eq_iff_iff, Operation.isPhi_iff, Operation.isPhi_iff]
  exact Eq.congr_left h.opcode

/-- A value in the result comes from a name. -/
theorem exists_value {v : Value} (h : i.Reads d j)
    (hv : Place.operand (.value v) ∈ j.operation.places) : ∃ name, d.value? name = some v := by
  obtain ⟨op, hop, hop'⟩ := h.operation
  obtain ⟨p, hp, hresolves⟩ := (Operation.resolves_of_resolve hop').exists_of_mem hv
  have hp' : p = .operand (.value v) := by
    cases hresolves with
    | operand h =>
      cases h with
      | value h => rw [Except.pure_eq_ok.mp h]
  obtain ⟨_, -, hresolves⟩ := (Operation.resolves_of_resolve hop).exists_of_mem (hp' ▸ hp)
  cases hresolves with
  | operand h =>
    cases h with
    | value h => exact ⟨_, orFault_eq_ok.mp h⟩

/-- A block in the result comes from a name. -/
theorem exists_block {b : BlockId} (h : i.Reads d j) (hb : b ∈ j.operation.blocks) :
    ∃ name, d.block? name = some b := by
  obtain ⟨op, -, hop'⟩ := h.operation
  obtain ⟨_, -, hresolves⟩ := (Operation.resolves_of_resolve hop').exists_of_mem
    (Operation.mem_blocks_iff.mp hb)
  cases hresolves with
  | block h => exact ⟨_, orFault_eq_ok.mp h⟩

end DraftInst.Reads

/-! ## Blocks -/

/-- A terminator that is no branch leads nowhere. -/
theorem Operation.blocks_of_isTerminator {ν β : Type} {op : Operation ν β}
    (h : op.opcode.isTerminator = true) (hbr : op.opcode ≠ .br) : op.blocks = [] := by
  cases op with
  | ret v => cases v <;> rfl
  | br t => exact absurd rfl hbr
  | condBr c t e => exact absurd rfl hbr
  | _ => exact absurd h Bool.false_ne_true

/-- A block leads to the blocks that its terminator names. -/
theorem Block.succs_of_isTerminator {block : Block} {body : List ResolvedInst} {last : ResolvedInst}
    (hinsts : block.insts = body ++ [last]) (hlast : last.opcode.isTerminator = true) :
    block.succs = last.operation.blocks.eraseDups := by
  have hgetLast : block.insts.getLast? = some last := by rw [hinsts, List.getLast?_concat]
  rw [Block.succs, hgetLast]
  dsimp only
  split
  next => rfl
  next hbr =>
    rw [Operation.blocks_of_isTerminator hlast hbr]
    rfl

/-- A block is well formed if phis come before all else and its only terminator last. -/
theorem Block.wellFormed_of {block : Block} {body : List ResolvedInst} {last : ResolvedInst}
    (hphis : block.insts.Pairwise fun i j ↦ j.operation.isPhi = true → i.operation.isPhi = true)
    (hinsts : block.insts = body ++ [last]) (hlast : last.opcode.isTerminator = true)
    (hbody : ∀ i ∈ body, i.opcode.isTerminator = false) : block.WellFormed := by
  have hsuccs := Block.succs_of_isTerminator hinsts hlast
  exact ⟨fun k i hi ↦ lt_length_takeWhile_iff hphis hi,
    body, last, hinsts, hlast, hbody, hsuccs, hsuccs ▸ nodup_eraseDups _⟩

namespace DraftBlock.Reads

variable {block : Block}

/-- A block that has ended is well formed once its names are resolved. -/
theorem wellFormed (h : b.Reads d block) (hordered : b.Ordered) (hended : b.isTerminated = true) :
    block.WellFormed := by
  have hopcodes : block.insts.map (·.opcode) = b.insts.reverse.map (·.inst.opcode) := by
    rw [← List.forall₂_eq_eq_eq, List.forall₂_map_left_iff, List.forall₂_map_right_iff]
    exact h.insts.flip.imp fun _ _ hi ↦ hi.opcode
  -- the phis of the text come first, and their operators are kept
  have hphis : block.insts.Pairwise fun i j ↦ j.operation.isPhi = true → i.operation.isPhi = true := by
    have hpairs : (block.insts.map (·.opcode)).Pairwise fun x y ↦ y = .phi → x = .phi := by
      rw [hopcodes, List.pairwise_map, List.pairwise_reverse]
      refine hordered.phis.imp fun h ↦ ?_
      rwa [Operation.isPhi_iff, Operation.isPhi_iff] at h
    rw [List.pairwise_map] at hpairs
    refine hpairs.imp fun h ↦ ?_
    rwa [Operation.isPhi_iff, Operation.isPhi_iff]
  cases hinsts : b.insts with
  | nil =>
    rw [DraftBlock.isTerminated, hinsts] at hended
    exact absurd hended Bool.false_ne_true
  | cons i is =>
    rw [hinsts, List.reverse_cons, List.map_append] at hopcodes
    obtain ⟨body, tail, hblock, hbody, htail⟩ := List.map_eq_append_iff.mp hopcodes
    obtain ⟨last, rest, rfl, hlast, hrest⟩ := List.map_eq_cons_iff.mp htail
    obtain rfl := List.map_eq_nil_iff.mp hrest
    have hterminator : last.opcode.isTerminator = true := by
      rw [DraftBlock.isTerminated, hinsts] at hended
      rw [hlast]
      exact hended
    refine Block.wellFormed_of hphis hblock hterminator fun j hj ↦ ?_
    have hj : j.opcode ∈ body.map (·.opcode) := List.mem_map_of_mem hj
    rw [hbody] at hj
    obtain ⟨i', hi', hopcode⟩ := List.mem_map.mp hj
    rw [← hopcode]
    exact hordered.ends i' (by rw [hinsts]; exact List.mem_reverse.mp hi')

end DraftBlock.Reads

/-! ## Functions -/

/-- The positions of a phi alternate. -/
theorem Operation.alternating_of_isPhi {ν β : Type} {op : Operation ν β} (h : op.isPhi = true) :
    Alternating op.places := by
  cases op with
  | phi pairs =>
    rw [places]
    induction pairs with
    | nil => exact .nil
    | cons p ps ih => exact .cons p.1 p.2 (ih rfl)
  | _ => exact absurd h Bool.false_ne_true

/-- A function with well-formed blocks is well formed if its references are in range and its names
distinct. -/
theorem Func.wellFormed_of (hne : f.blocks ≠ []) (hblocks : ∀ block ∈ f.blocks, block.WellFormed)
    (hvalues : ∀ i ∈ f.insts, ∀ v, Place.operand (.value v) ∈ i.operation.places → f.Defines v)
    (htargets : ∀ i ∈ f.insts, ∀ b ∈ i.operation.blocks, b < f.blocks.length)
    (hvalueNames : (f.params.map (·.name) ++ f.insts.filterMap (·.name)).Nodup)
    (hblockNames : (f.blocks.map (·.name)).Nodup) : f.WellFormed where
  blocks_ne_nil := hne
  firstInst_zero := f.firstInst_zero
  firstInst_succ b block hblock := by
    refine ⟨?_, fun k i hi ↦ Func.inst?_firstInst_add hblock hi⟩
    obtain ⟨hlt, rfl⟩ := List.getElem?_eq_some_iff.mp hblock
    exact f.firstInst_succ hlt
  firstInst_end := f.firstInst_length
  blocks := hblocks
  values := hvalues
  targets := htargets
  incoming _ _ hphi := Operation.alternating_of_isPhi hphi
  valueNames := hvalueNames
  blockNames := hblockNames

/-- If the newest block has ended, all have. -/
theorem Draft.Sound.isTerminated (hd : d.Sound)
    (hlast : ∃ b, d.blocks.head? = some b ∧ b.isTerminated = true) :
    ∀ b ∈ d.blocks, b.isTerminated = true := by
  obtain ⟨b₀, hb₀, hterminated⟩ := hlast
  have hended := hd.ended
  cases hblocks : d.blocks with
  | nil => exact absurd (hblocks ▸ hb₀) nofun
  | cons b bs =>
    rw [hblocks] at hb₀ hended
    obtain rfl := Option.some.inj hb₀
    exact List.forall_mem_cons.mpr ⟨hterminated, hended⟩

/-- A function is well formed once its names are resolved. -/
theorem Draft.Sound.wellFormed (hd : d.Sound)
    (hlast : ∃ b, d.blocks.head? = some b ∧ b.isTerminated = true) (hparams : f.params = d.params)
    (hblocks : List.Forall₂ (DraftBlock.Reads d) d.blocks.reverse f.blocks) : f.WellFormed := by
  have hinsts : List.Forall₂ (DraftInst.Reads d) d.insts f.insts :=
    List.rel_flatMap hblocks fun _ _ hb ↦ hb.insts
  have hread : ∀ j ∈ f.insts, ∃ i ∈ d.insts, i.Reads d j := by
    intro j hj
    obtain ⟨k, hk, rfl⟩ := List.getElem_of_mem hj
    exact ⟨_, List.getElem_mem (hinsts.length_eq ▸ hk), hinsts.get _ hk⟩
  have hnames : f.insts.filterMap (·.name) = d.insts.filterMap (·.inst.name) := by
    rw [← List.forall₂_eq_eq_eq]
    refine List.rel_filterMap (P := Eq) (fun {j i} hij ↦ ?_) hinsts.flip
    rw [DraftInst.Reads.name hij]
    cases i.inst.name with
    | none => exact .none
    | some name => exact .some rfl
  refine Func.wellFormed_of ?_ (fun block hblock ↦ ?_) (fun j hj v hv ↦ ?_) (fun j hj n hn ↦ ?_) ?_ ?_
  · intro hnil
    obtain ⟨b, hb, -⟩ := hlast
    rw [hnil, List.forall₂_nil_right_iff, List.reverse_eq_nil_iff] at hblocks
    exact absurd (hblocks ▸ hb) nofun
  · obtain ⟨k, hk, rfl⟩ := List.getElem_of_mem hblock
    have hk' : k < d.blocks.reverse.length := hblocks.length_eq ▸ hk
    have hmem : d.blocks.reverse[k] ∈ d.blocks := List.mem_reverse.mp (List.getElem_mem hk')
    exact DraftBlock.Reads.wellFormed (hblocks.get hk' hk) (hd.ordered _ hmem)
      (hd.isTerminated hlast _ hmem)
  · obtain ⟨i, -, hij⟩ := hread j hj
    obtain ⟨name, hname⟩ := hij.exists_value hv
    rw [Draft.value?] at hname
    split at hname
    next k hk =>
      obtain rfl := Option.some.inj hname
      rw [Func.Defines, hparams]
      exact (List.findIdx?_eq_some_iff_getElem.mp hk).1
    next =>
      obtain ⟨k, hk, rfl⟩ := Option.map_eq_some_iff.mp hname
      obtain ⟨hlt, hbeq, -⟩ := List.findIdx?_eq_some_iff_getElem.mp hk
      have hlt' : k < f.insts.length := hinsts.length_eq ▸ hlt
      have hname : f.insts[k].name = d.insts[k].inst.name := (hinsts.get hlt hlt').name
      refine ⟨f.insts[k], List.getElem?_eq_getElem hlt', ?_⟩
      rw [hname, beq_iff_eq.mp hbeq]
      rfl
  · obtain ⟨i, -, hij⟩ := hread j hj
    obtain ⟨name, hname⟩ := hij.exists_block hn
    rw [← hblocks.length_eq]
    exact (List.findIdx?_eq_some_iff_getElem.mp hname).1
  · rw [hparams, hnames]
    exact hd.valueNames
  · have hblockNames : f.blocks.map (·.name) = d.blocks.reverse.map (·.name) := by
      rw [← List.forall₂_eq_eq_eq, List.forall₂_map_left_iff, List.forall₂_map_right_iff]
      exact hblocks.flip.imp fun _ _ hb ↦ hb.name
    rw [hblockNames, List.map_reverse, List.nodup_reverse]
    exact hd.blockNames

/-! ## Texts -/

/-- A function is well formed when it is complete. -/
theorem readLines_wellFormed {at? : Position} {lines : List Line}
    (hat : ∀ start d, at? = some (start, d) → d.Sound) :
    ∀ f ∈ (readLines at? lines).functions, f.WellFormed := by
  intro f hf
  obtain ⟨d, line, hd, hfinish⟩ := readLines_induct (P := Draft.Sound)
    (fun d ts ts' ↦ Draft.header_sound) (fun d line ts d' ↦ .addLine) hat f hf
  obtain ⟨hlast, -, -, hparams, hblocks⟩ := Draft.finish_eq_ok.mp hfinish
  exact hd.wellFormed hlast hparams hblocks

/-- What holds of the functions in any lines holds of those in a text that the reader accepts. -/
theorem parse_reads {P : Func → Prop} {text : String} {fs : List Func} (h : parse text = .ok fs)
    (hlines : ∀ lines, ∀ f ∈ (readLines none lines).functions, P f) : ∀ f ∈ fs, P f := by
  rw [parse, Reading.toExcept] at h
  split at h
  next herror =>
    obtain rfl := Except.ok.inj h
    rw [readText] at herror ⊢
    split
    next lines _ => exact hlines lines
    next => exact fun f hf ↦ absurd hf List.not_mem_nil
  next => cases h

/-- **Well-formed functions.** Whatever the reader accepts is well formed. -/
theorem wellFormed_of_parse {text : String} {fs : List Func} (h : parse text = .ok fs) :
    ∀ f ∈ fs, f.WellFormed :=
  parse_reads h fun _ ↦ readLines_wellFormed nofun

/-! ## A text with an implicit block -/

/-- A function whose first block has no label, and whose phi is written before the value it takes. -/
def orbitText : String :=
  "define void @orbit(i64 %1) \x7b ; the first block is named by nothing\n" ++
  "  br label %loop\n" ++
  "loop:\n" ++
  "  %k = phi i64 [ %1, %entry ], [ %next, %loop ]\n" ++
  "  %next = add i64 %k, -1\n" ++
  "  br i1 true, label %loop, label %loop\n" ++
  "\x7d\n"

def orbit : Func :=
  { name := "orbit", ret := .void, params := [⟨"1", .int 64⟩]
    blocks := [
      ⟨"entry", [⟨none, .void, .br 1⟩]⟩,
      ⟨"loop", [
        ⟨some "k", .int 64, .phi [(.value (.arg 0), 0), (.value (.inst 2), 1)]⟩,
        ⟨some "next", .int 64, .binary .add (.value (.inst 1)) (.int (-1) 64)⟩,
        ⟨none, .void, .condBr (.int 1 1) 1 1⟩]⟩] }

theorem wellFormed_orbit : parse orbitText = .ok [orbit] ∧ orbit.WellFormed := by
  have h : parse orbitText = .ok [orbit] := by
    rw [parse_eq_parseChars]
    unfold orbitText
    simp only [String.toList_append, String.reduceToList]
    decide +kernel
  exact ⟨h, wellFormed_of_parse h orbit (List.mem_singleton_self _)⟩

end TreeCover.Ir
