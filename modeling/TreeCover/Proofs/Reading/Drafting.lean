import TreeCover.Proofs.Lists
import TreeCover.Proofs.Reading.Steps

/-!
# A function under construction

What a line does to the function that is being read, in both directions: a label opens a block, an
instruction goes to the newest block, and the closing brace resolves the names. A function that no
label opens a block of gets one with its first instruction.
-/

namespace TreeCover.Ir

/-! ## Resolving names

When a function closes, the names in its operations become numbers. What an operation does and the
positions of its operands stay; literals are copied, and a name becomes what it stands for. -/

section

variable {ν ν' β β' : Type} {f : ν → Except ReadFault ν'} {g : β → Except ReadFault β'}

/-! ## Operands and operations -/

/-- An operand with its name resolved. -/
inductive Operand.Resolves (f : ν → Except ReadFault ν') : Operand ν → Operand ν' → Prop
  | int (n : Int) (bits : Nat) : Resolves f (.int n bits) (.int n bits)
  | float (x : Binary64) : Resolves f (.float x) (.float x)
  | value {v : ν} {v' : ν'} (h : f v = .ok v') : Resolves f (.value v) (.value v')

/-- An operand position with its name resolved. -/
inductive Place.Resolves (f : ν → Except ReadFault ν') (g : β → Except ReadFault β') :
    Place ν β → Place ν' β' → Prop
  | operand {o : Operand ν} {o' : Operand ν'} (h : o.Resolves f o') :
      Resolves f g (.operand o) (.operand o')
  | block {b : β} {b' : β'} (h : g b = .ok b') : Resolves f g (.block b) (.block b')

theorem Operand.resolve_eq_ok {o : Operand ν} {o' : Operand ν'} :
    o.resolve f = .ok o' ↔ o.Resolves f o' := by
  cases o with
  | int n bits =>
    rw [Operand.resolve, Except.pure_eq_ok]
    exact ⟨fun h ↦ h ▸ .int n bits, fun h ↦ by cases h; rfl⟩
  | float x =>
    rw [Operand.resolve, Except.pure_eq_ok]
    exact ⟨fun h ↦ h ▸ .float x, fun h ↦ by cases h; rfl⟩
  | value v =>
    rw [Operand.resolve, Except.bind_eq_ok]
    constructor
    · rintro ⟨v', hv, h⟩
      rw [Except.pure_eq_ok.mp h]
      exact .value hv
    · rintro ⟨⟩
      exact ⟨_, ‹_›, rfl⟩

namespace Operation

/-- An operation with its names resolved: its operator is the same, and so are its positions. -/
structure Resolves (f : ν → Except ReadFault ν') (g : β → Except ReadFault β')
    (op : Operation ν β) (op' : Operation ν' β') : Prop where
  opcode : op'.opcode = op.opcode
  places : List.Forall₂ (Place.Resolves f g) op.places op'.places

theorem isPhi_iff {op : Operation ν β} : op.isPhi = true ↔ op.opcode = .phi := by
  cases op <;> simp [isPhi, opcode]

theorem Resolves.isPhi {op : Operation ν β} {op' : Operation ν' β'} (h : op.Resolves f g op') :
    op'.isPhi = op.isPhi := by
  rw [Bool.eq_iff_iff, isPhi_iff, isPhi_iff, h.opcode]

/-- Every position comes from one that is resolved to it. -/
theorem Resolves.exists_of_mem {op : Operation ν β} {op' : Operation ν' β'}
    (h : op.Resolves f g op') {p' : Place ν' β'} (hp' : p' ∈ op'.places) :
    ∃ p ∈ op.places, p.Resolves f g p' := by
  have hplaces := h.places
  generalize op.places = ps at hplaces ⊢
  generalize op'.places = ps' at hplaces hp'
  induction hplaces with
  | nil => exact absurd hp' List.not_mem_nil
  | cons hp _ ih =>
    rcases List.mem_cons.mp hp' with rfl | hp'
    · exact ⟨_, List.mem_cons_self, hp⟩
    · obtain ⟨p, hmem, hp⟩ := ih hp'
      exact ⟨p, List.mem_cons_of_mem _ hmem, hp⟩

theorem mem_blocks_iff {op : Operation ν β} {b : β} : b ∈ op.blocks ↔ .block b ∈ op.places := by
  rw [blocks, List.mem_filterMap]
  constructor
  · rintro ⟨p, hp, h⟩
    split at h
    next b' => exact Option.some.inj h ▸ hp
    next => exact absurd h nofun
  · exact fun h ↦ ⟨_, h, rfl⟩

/-- The pairs of a phi are resolved one after the other, the value of each before its block. -/
theorem resolves_incoming {pairs : List (Operand ν × β)} {pairs' : List (Operand ν' × β')}
    (h : pairs.mapM (fun (a, b) ↦ return (← a.resolve f, ← g b)) = .ok pairs') :
    List.Forall₂ (fun p p' ↦ p.1.Resolves f p'.1 ∧ g p.2 = .ok p'.2) pairs pairs' := by
  refine (Except.mapM_eq_ok_iff.mp h).imp fun p p' hp ↦ ?_
  obtain ⟨a, ha, hp⟩ := Except.bind_eq_ok.mp hp
  obtain ⟨b, hb, hp⟩ := Except.bind_eq_ok.mp hp
  rw [Except.pure_eq_ok.mp hp]
  exact ⟨Operand.resolve_eq_ok.mp ha, hb⟩

theorem resolves_of_resolve {op : Operation ν β} {op' : Operation ν' β'}
    (h : op.resolve f g = .ok op') : op.Resolves f g op' := by
  cases op with
  | binary op a b =>
    obtain ⟨a', ha, h⟩ := Except.bind_eq_ok.mp h
    obtain ⟨b', hb, h⟩ := Except.bind_eq_ok.mp h
    obtain rfl := Except.pure_eq_ok.mp h
    exact ⟨rfl, .cons (.operand (Operand.resolve_eq_ok.mp ha))
      (.cons (.operand (Operand.resolve_eq_ok.mp hb)) .nil)⟩
  | icmp p a b =>
    obtain ⟨a', ha, h⟩ := Except.bind_eq_ok.mp h
    obtain ⟨b', hb, h⟩ := Except.bind_eq_ok.mp h
    obtain rfl := Except.pure_eq_ok.mp h
    exact ⟨rfl, .cons (.operand (Operand.resolve_eq_ok.mp ha))
      (.cons (.operand (Operand.resolve_eq_ok.mp hb)) .nil)⟩
  | store a b =>
    obtain ⟨a', ha, h⟩ := Except.bind_eq_ok.mp h
    obtain ⟨b', hb, h⟩ := Except.bind_eq_ok.mp h
    obtain rfl := Except.pure_eq_ok.mp h
    exact ⟨rfl, .cons (.operand (Operand.resolve_eq_ok.mp ha))
      (.cons (.operand (Operand.resolve_eq_ok.mp hb)) .nil)⟩
  | cast op a =>
    obtain ⟨a', ha, h⟩ := Except.bind_eq_ok.mp h
    obtain rfl := Except.pure_eq_ok.mp h
    exact ⟨rfl, .cons (.operand (Operand.resolve_eq_ok.mp ha)) .nil⟩
  | load a =>
    obtain ⟨a', ha, h⟩ := Except.bind_eq_ok.mp h
    obtain rfl := Except.pure_eq_ok.mp h
    exact ⟨rfl, .cons (.operand (Operand.resolve_eq_ok.mp ha)) .nil⟩
  | alloca =>
    obtain rfl := Except.pure_eq_ok.mp h
    exact ⟨rfl, .nil⟩
  | br t =>
    obtain ⟨t', ht, h⟩ := Except.bind_eq_ok.mp h
    obtain rfl := Except.pure_eq_ok.mp h
    exact ⟨rfl, .cons (.block ht) .nil⟩
  | condBr c t e =>
    obtain ⟨c', hc, h⟩ := Except.bind_eq_ok.mp h
    obtain ⟨t', ht, h⟩ := Except.bind_eq_ok.mp h
    obtain ⟨e', he, h⟩ := Except.bind_eq_ok.mp h
    obtain rfl := Except.pure_eq_ok.mp h
    exact ⟨rfl, .cons (.operand (Operand.resolve_eq_ok.mp hc))
      (.cons (.block ht) (.cons (.block he) .nil))⟩
  | ret v =>
    cases v with
    | none =>
      obtain rfl := Except.pure_eq_ok.mp h
      exact ⟨rfl, .nil⟩
    | some a =>
      obtain ⟨a', ha, h⟩ := Except.bind_eq_ok.mp h
      obtain rfl := Except.pure_eq_ok.mp h
      exact ⟨rfl, .cons (.operand (Operand.resolve_eq_ok.mp ha)) .nil⟩
  | call callee args =>
    obtain ⟨args', hargs, h⟩ := Except.bind_eq_ok.mp h
    obtain rfl := Except.pure_eq_ok.mp h
    refine ⟨rfl, ?_⟩
    rw [places, places, List.forall₂_map_left_iff, List.forall₂_map_right_iff]
    exact (Except.mapM_eq_ok_iff.mp hargs).imp fun a a' ha ↦ .operand (Operand.resolve_eq_ok.mp ha)
  | phi pairs =>
    obtain ⟨pairs', hpairs, h⟩ := Except.bind_eq_ok.mp h
    obtain rfl := Except.pure_eq_ok.mp h
    refine ⟨rfl, List.rel_flatMap (resolves_incoming hpairs) fun p p' ⟨ha, hb⟩ ↦ ?_⟩
    exact .cons (.operand ha) (.cons (.block hb) .nil)

end Operation

end

variable {d d' : Draft} {line : Nat} {ts ts' : List Token}

/-! ## Instructions -/

/-- A named instruction: its name is new. -/
theorem readInst_localName_eq_ok {taken : List String} {name : String} {i : Inst String String} :
    (readInst taken).run (.localName name :: ts) = .ok (i, ts') ↔
      ∃ ts₁ raw, ts = .punct '=' :: ts₁ ∧ readDefinition.run ts₁ = .ok (raw, ts') ∧
        name ∉ taken ∧ i = ⟨some name, raw.1, raw.2⟩ := by
  simp only [readInst, LineReader.run_bind_eq_ok, LineReader.run_get_eq_ok]
  constructor
  · rintro ⟨_, _, ⟨rfl, rfl⟩, h⟩
    simp only [LineReader.run_bind_eq_ok, LineReader.run_set_eq_ok, LineReader.punct_eq_ok] at h
    obtain ⟨_, _, rfl, _, ts₁, rfl, raw, _, hraw, h⟩ := h
    obtain ⟨hname, h⟩ := LineReader.run_guard_bind_eq_ok.mp h
    obtain ⟨rfl, rfl⟩ := LineReader.run_pure_eq_ok.mp h
    exact ⟨ts₁, raw, rfl, hraw, hname, rfl⟩
  · rintro ⟨ts₁, raw, rfl, hraw, hname, rfl⟩
    refine ⟨_, _, ⟨rfl, rfl⟩, ?_⟩
    simp only [LineReader.run_bind_eq_ok, LineReader.run_set_eq_ok, LineReader.punct_eq_ok]
    exact ⟨(), _, rfl, (), _, rfl, raw, _, hraw,
      LineReader.run_guard_bind_eq_ok.mpr ⟨hname, rfl⟩⟩

/-- An instruction without a name. -/
theorem readInst_eq_ok {taken : List String} {i : Inst String String}
    (hts : ∀ name rest, ts ≠ .localName name :: rest) :
    (readInst taken).run ts = .ok (i, ts') ↔
      ∃ raw, readStatement.run ts = .ok (raw, ts') ∧ i = ⟨none, raw.1, raw.2⟩ := by
  simp only [readInst, LineReader.run_bind_eq_ok, LineReader.run_get_eq_ok]
  constructor
  · rintro ⟨_, _, ⟨rfl, rfl⟩, h⟩
    split at h
    next name rest => exact absurd rfl (hts name rest)
    next =>
      simp only [LineReader.run_bind_eq_ok, LineReader.run_pure_eq_ok] at h
      obtain ⟨raw, _, hraw, rfl, rfl⟩ := h
      exact ⟨raw, hraw, rfl⟩
  · rintro ⟨raw, hraw, rfl⟩
    refine ⟨_, _, ⟨rfl, rfl⟩, ?_⟩
    split
    next name rest => exact absurd rfl (hts name rest)
    next =>
      simp only [LineReader.run_bind_eq_ok]
      exact ⟨raw, _, hraw, rfl⟩

/-- The name of an instruction that is read was not taken. -/
theorem not_mem_taken_of_readInst {taken : List String} {i : Inst String String}
    (h : (readInst taken).run ts = .ok (i, ts')) : ∀ name, i.name = some name → name ∉ taken := by
  by_cases hts : ∃ name rest, ts = .localName name :: rest
  · obtain ⟨name, rest, rfl⟩ := hts
    obtain ⟨_, raw, -, -, hname, rfl⟩ := readInst_localName_eq_ok.mp h
    rintro _ ⟨⟩
    exact hname
  · obtain ⟨raw, -, rfl⟩ := (readInst_eq_ok fun name rest hts' ↦ hts ⟨name, rest, hts'⟩).mp h
    exact fun _ h ↦ absurd h nofun

namespace Draft

open LineReader

/-! ## Lines -/

theorem any_name_iff {name : String} :
    (d.blocks.any (·.name == name)) = true ↔ name ∈ d.blocks.map (·.name) := by
  rw [List.any_eq_true, List.mem_map]
  simp only [beq_iff_eq]

/-- A block is opened behind one that has ended, under a new name. -/
theorem openBlock_eq_ok {name : String} : d.openBlock name = .ok d' ↔
    (∀ b, d.blocks.head? = some b → b.isTerminated = true) ∧
      name ∉ d.blocks.map (·.name) ∧ d' = { d with blocks := ⟨name, []⟩ :: d.blocks } := by
  rw [openBlock]
  cases hd : d.blocks.head? with
  | none =>
    refine Except.guard_bind_eq_ok.trans ?_
    rw [any_name_iff, Except.pure_eq_ok]
    exact ⟨fun h ↦ ⟨nofun, h⟩, fun h ↦ h.2⟩
  | some b =>
    dsimp only
    by_cases hb : b.isTerminated = true
    · rw [if_pos hb]
      refine Except.guard_bind_eq_ok.trans ?_
      rw [any_name_iff, Except.pure_eq_ok]
      exact ⟨fun h ↦ ⟨fun _ hb' ↦ Option.some.inj hb' ▸ hb, h⟩, fun h ↦ h.2⟩
    · rw [if_neg hb]
      refine ⟨fun h ↦ ?_, fun h ↦ absurd (h.1 b rfl) hb⟩
      obtain ⟨_, h, -⟩ := Except.bind_eq_ok.mp h
      exact absurd h Except.throw_ne_ok

/-- A function with a block to add instructions to. -/
def opened (d : Draft) : Draft :=
  if d.blocks.isEmpty then { d with blocks := [⟨"entry", []⟩] } else d

theorem opened_of_ne_nil (hd : d.blocks ≠ []) : d.opened = d :=
  if_neg fun h ↦ hd (List.isEmpty_iff.mp h)

/-- Without a block, the first instruction opens one. -/
theorem addInst_opened (d : Draft) (line : Nat) : d.opened.addInst line = d.addInst line := by
  by_cases hd : d.blocks.isEmpty = true
  · have hopen : d.openBlock "entry" = .ok d.opened := by
      have hnil := List.isEmpty_iff.mp hd
      rw [openBlock_eq_ok, opened, if_pos hd, hnil]
      exact ⟨nofun, List.not_mem_nil, rfl⟩
    have hopened : d.opened.blocks.isEmpty = false := by rw [opened, if_pos hd]; rfl
    rw [addInst, addInst, if_neg (by rw [hopened]; exact Bool.false_ne_true), if_pos hd, hopen]
    rfl
  · rw [opened, if_neg hd]

theorem exists_opened (d : Draft) : ∃ b bs, d.opened.blocks = b :: bs := by
  rw [opened]
  cases hd : d.blocks with
  | nil => exact ⟨_, _, rfl⟩
  | cons b bs => exact ⟨b, bs, hd⟩

/-- An instruction goes to the newest block. -/
theorem addInst_eq_ok {b : DraftBlock} {bs : List DraftBlock} (hd : d.opened.blocks = b :: bs) :
    (d.addInst line).run ts = .ok (d', ts') ↔
      b.isTerminated = false ∧ ts' = [] ∧ ∃ i, (readInst d.opened.taken).run ts = .ok (i, []) ∧
        (i.operation.isPhi = true → ∀ j ∈ b.insts, j.inst.operation.isPhi = true) ∧
          d' = { d.opened with blocks := { b with insts := ⟨line, i⟩ :: b.insts } :: bs } := by
  rw [← addInst_opened]
  generalize d.opened = d at hd
  have hne : ¬d.blocks.isEmpty = true := by rw [hd]; exact Bool.false_ne_true
  have hphi : ∀ i : Inst String String,
      ¬(i.operation.isPhi && b.insts.any fun j ↦ !j.inst.operation.isPhi) = true ↔
        (i.operation.isPhi = true → ∀ j ∈ b.insts, j.inst.operation.isPhi = true) := by
    intro i
    rw [Bool.and_eq_true, List.any_eq_true]
    simp only [Bool.not_eq_true', not_and, not_exists, Bool.not_eq_false]
  obtain ⟨name, ret, params, blocks⟩ := d
  obtain rfl : blocks = b :: bs := hd
  rw [addInst, if_neg hne, pure_bind]
  refine run_guard_bind_eq_ok.trans ?_
  rw [Bool.not_eq_true]
  refine and_congr_right fun _ ↦ ?_
  simp only [run_bind_eq_ok, endOfLine_eq_ok]
  constructor
  · rintro ⟨i, ts₁, hi, _, _, ⟨rfl, rfl⟩, h⟩
    obtain ⟨hphis, h⟩ := run_guard_bind_eq_ok.mp h
    obtain ⟨rfl, rfl⟩ := run_pure_eq_ok.mp h
    exact ⟨rfl, i, hi, (hphi i).mp hphis, rfl⟩
  · rintro ⟨rfl, i, hi, hphis, rfl⟩
    exact ⟨i, [], hi, (), [], ⟨rfl, rfl⟩, run_guard_bind_eq_ok.mpr ⟨(hphi i).mpr hphis, rfl⟩⟩

/-- A word and a colon are the label of a block. -/
theorem addLine_label_eq_ok {label : String} :
    d.addLine line (.word label :: .punct ':' :: ts) = .ok d' ↔
      ts = [] ∧ d.openBlock label = .ok d' := by
  rw [addLine, Except.bind_eq_ok]
  constructor
  · rintro ⟨_, h, hopen⟩
    cases ts with
    | nil => exact ⟨rfl, hopen⟩
    | cons t ts => exact absurd h nofun
  · rintro ⟨rfl, hopen⟩
    exact ⟨_, rfl, hopen⟩

/-- Other lines are instructions. -/
theorem addLine_eq_ok (hts : ∀ label rest, ts ≠ .word label :: .punct ':' :: rest) :
    d.addLine line ts = .ok d' ↔ (d.addInst line).run ts = .ok (d', []) := by
  rw [addLine.eq_2 d line ts fun label rest h ↦ hts label rest h, Except.bind_eq_ok]
  constructor
  · rintro ⟨⟨d'', ts'⟩, h, hpure⟩
    obtain rfl := Except.pure_eq_ok.mp hpure
    obtain ⟨b, bs, hd⟩ := d.exists_opened
    obtain ⟨-, rfl, -⟩ := (addInst_eq_ok hd).mp h
    exact h
  · rintro h
    exact ⟨_, h, rfl⟩

/-! ## The end of a function -/

end Draft

/-- An instruction with its references resolved, values before blocks. -/
structure DraftInst.Reads (d : Draft) (i : DraftInst String String) (j : ResolvedInst) : Prop where
  name : j.name = i.inst.name
  ty : j.ty = i.inst.ty
  operation : ∃ op : Operation Value String,
    i.inst.operation.resolve (fun v ↦ orFault (d.value? v) (.undefinedValue v)) pure = .ok op ∧
      op.resolve pure (fun b ↦ orFault (d.block? b) (.undefinedBlock b)) = .ok j.operation

/-- A block with its references resolved. -/
structure DraftBlock.Reads (d : Draft) (b : DraftBlock) (block : Block) : Prop where
  name : block.name = b.name
  insts : List.Forall₂ (DraftInst.Reads d) b.insts.reverse block.insts

theorem DraftInst.resolve_eq_ok {ν ν' β β' : Type} {f : ν → Except ReadFault ν'}
    {g : β → Except ReadFault β'} {i : DraftInst ν β} {j : DraftInst ν' β'} :
    i.resolve f g = .ok j ↔ j.line = i.line ∧ j.inst.name = i.inst.name ∧ j.inst.ty = i.inst.ty ∧
      i.inst.operation.resolve f g = .ok j.inst.operation := by
  rw [resolve]
  cases i.inst.operation.resolve f g with
  | error e => simp
  | ok op =>
    obtain ⟨line, name, ty, op'⟩ := j
    simp [eq_comm]

namespace Draft

/-- A block with its values resolved. -/
def withValues (d : Draft) (b : DraftBlock) :
    Except ReadError (String × List (DraftInst Value String)) := do
  return (b.name, ← b.insts.reverse.mapM fun i ↦
    i.resolve (fun v ↦ orFault (d.value? v) (.undefinedValue v)) pure)

/-- A block with its values resolved gets its blocks resolved too. -/
def withBlocks (d : Draft) (v : String × List (DraftInst Value String)) :
    Except ReadError Block := do
  return ⟨v.1, (← v.2.mapM fun i ↦
    i.resolve pure fun b ↦ orFault (d.block? b) (.undefinedBlock b)).map (·.inst)⟩

theorem withValues_eq_ok {b : DraftBlock} {v : String × List (DraftInst Value String)} :
    d.withValues b = .ok v ↔ v.1 = b.name ∧ List.Forall₂ (fun i j ↦ DraftInst.resolve
      (fun v ↦ orFault (d.value? v) (.undefinedValue v)) pure i = .ok j) b.insts.reverse v.2 := by
  rw [withValues, Except.bind_eq_ok]
  simp only [Except.mapM_eq_ok_iff, Except.pure_eq_ok]
  constructor
  · rintro ⟨vs, hvs, rfl⟩
    exact ⟨rfl, hvs⟩
  · rintro ⟨hname, hvs⟩
    exact ⟨v.2, hvs, Prod.ext hname rfl⟩

theorem withBlocks_eq_ok {v : String × List (DraftInst Value String)} {block : Block} :
    d.withBlocks v = .ok block ↔ block.name = v.1 ∧ List.Forall₂ (fun i j ↦
      ∃ i', DraftInst.resolve pure (fun b ↦ orFault (d.block? b) (.undefinedBlock b)) i = .ok i' ∧
        i'.inst = j) v.2 block.insts := by
  rw [withBlocks, Except.bind_eq_ok]
  simp only [Except.mapM_eq_ok_iff, Except.pure_eq_ok, ← forall₂_comp_iff]
  constructor
  · rintro ⟨ws, hws, rfl⟩
    exact ⟨rfl, ws, hws, List.forall₂_map_right_iff.mpr (List.forall₂_same.mpr fun _ _ ↦ rfl)⟩
  · rintro ⟨hname, ws, hws, hinsts⟩
    refine ⟨ws, hws, ?_⟩
    have hmap : ws.map (·.inst) = block.insts := by
      rw [← List.forall₂_eq_eq_eq, List.forall₂_map_left_iff]
      exact hinsts
    rw [hmap, ← hname]

theorem reads_iff {b : DraftBlock} {block : Block} :
    DraftBlock.Reads d b block ↔ ∃ v, d.withValues b = .ok v ∧ d.withBlocks v = .ok block := by
  simp only [withValues_eq_ok, withBlocks_eq_ok]
  constructor
  · intro h
    suffices hinsts : List.Forall₂ (fun i j ↦ ∃ v, DraftInst.resolve
        (fun v ↦ orFault (d.value? v) (.undefinedValue v)) pure i = .ok v ∧ ∃ w, DraftInst.resolve
          pure (fun b ↦ orFault (d.block? b) (.undefinedBlock b)) v = .ok w ∧ w.inst = j)
        b.insts.reverse block.insts by
      obtain ⟨vs, hvs, hws⟩ := forall₂_comp_iff.mpr hinsts
      exact ⟨(b.name, vs), ⟨rfl, hvs⟩, h.name, hws⟩
    refine h.insts.imp fun i j hij ↦ ?_
    obtain ⟨op, hop, hop'⟩ := hij.operation
    exact ⟨⟨i.line, i.inst.name, i.inst.ty, op⟩,
      DraftInst.resolve_eq_ok.mpr ⟨rfl, rfl, rfl, hop⟩, ⟨i.line, j⟩,
      DraftInst.resolve_eq_ok.mpr ⟨rfl, hij.name, hij.ty, hop'⟩, rfl⟩
  · rintro ⟨⟨name, vs⟩, ⟨rfl, hvs⟩, hname, hws⟩
    refine ⟨hname, (forall₂_comp_iff.mp ⟨vs, hvs, hws⟩).imp fun i j h ↦ ?_⟩
    obtain ⟨v, hv, w, hw, rfl⟩ := h
    obtain ⟨-, hname, hty, hop⟩ := DraftInst.resolve_eq_ok.mp hv
    obtain ⟨-, hname', hty', hop'⟩ := DraftInst.resolve_eq_ok.mp hw
    exact ⟨hname'.trans hname, hty'.trans hty, _, hop, hop'⟩

/-- A function is complete if its newest block has ended and all names resolve. -/
theorem finish_eq_ok {f : Func} : d.finish line = .ok f ↔
    (∃ b, d.blocks.head? = some b ∧ b.isTerminated = true) ∧
      f.name = d.name ∧ f.ret = d.ret ∧ f.params = d.params ∧
        List.Forall₂ (DraftBlock.Reads d) d.blocks.reverse f.blocks := by
  have hfinish : ∀ ds : List DraftBlock, (do
      let valued ← ds.reverse.mapM d.withValues
      let blocks ← valued.mapM d.withBlocks
      return ⟨d.name, d.ret, d.params, blocks⟩ : Except ReadError Func) = .ok f ↔
      f.name = d.name ∧ f.ret = d.ret ∧ f.params = d.params ∧
        List.Forall₂ (DraftBlock.Reads d) ds.reverse f.blocks := by
    intro ds
    have hblocks : List.Forall₂ (DraftBlock.Reads d) ds.reverse f.blocks ↔
        ∃ valued, ds.reverse.mapM d.withValues = .ok valued ∧
          valued.mapM d.withBlocks = .ok f.blocks := by
      simp only [Except.mapM_eq_ok_iff, forall₂_comp_iff, ← reads_iff]
    rw [hblocks]
    simp only [Except.bind_eq_ok, Except.pure_eq_ok]
    obtain ⟨name, ret, params, blocks⟩ := f
    constructor
    · rintro ⟨valued, hvalued, blocks', hblocks', h⟩
      obtain ⟨rfl, rfl, rfl, rfl⟩ := Func.mk.inj h
      exact ⟨rfl, rfl, rfl, valued, hvalued, hblocks'⟩
    · rintro ⟨rfl, rfl, rfl, valued, hvalued, hblocks'⟩
      exact ⟨valued, hvalued, blocks, hblocks', rfl⟩
  rw [finish]
  cases hd : d.blocks with
  | nil =>
    refine ⟨fun h ↦ ?_, fun ⟨⟨b, h, _⟩, _⟩ ↦ absurd h nofun⟩
    obtain ⟨_, h, -⟩ := Except.bind_eq_ok.mp h
    exact absurd h Except.throw_ne_ok
  | cons b bs =>
    dsimp only
    by_cases hb : b.isTerminated = true
    · rw [if_pos hb]
      refine (hfinish (b :: bs)).trans ⟨fun h ↦ ⟨⟨b, rfl, hb⟩, h⟩, fun h ↦ h.2⟩
    · rw [if_neg hb]
      refine ⟨fun h ↦ ?_, fun ⟨⟨b', h, hb'⟩, _⟩ ↦ absurd (Option.some.inj h ▸ hb') hb⟩
      obtain ⟨_, h, -⟩ := Except.bind_eq_ok.mp h
      exact absurd h Except.throw_ne_ok

end Draft

/-! ## Texts -/

/-- What headers have and lines keep holds of the drafts of all functions that are read. -/
theorem readLines_induct {P : Draft → Prop} {at? : Position} {lines : List Line}
    (hheader : ∀ d ts ts', Draft.header.run ts = .ok (d, ts') → P d)
    (hline : ∀ d line ts d', P d → d.addLine line ts = .ok d' → P d')
    (hat : ∀ start d, at? = some (start, d) → P d) :
    ∀ f ∈ (readLines at? lines).functions, ∃ d line, P d ∧ d.finish line = .ok f := by
  induction lines generalizing at? with
  | nil => cases at? <;> exact fun f hf ↦ absurd hf List.not_mem_nil
  | cons l lines ih =>
    obtain ⟨line, tokens⟩ := l
    rw [readLines.eq_3]
    split
    next => exact fun f hf ↦ absurd hf List.not_mem_nil
    next at?' func hread =>
      suffices hstep : (∀ start d, at?' = some (start, d) → P d) ∧
          ∀ f, func = some f → ∃ d line, P d ∧ d.finish line = .ok f from
        List.forall_mem_append.mpr
          ⟨fun f hf ↦ hstep.2 f (Option.mem_toList.mp hf), ih hstep.1⟩
      cases at? with
      | none =>
        rw [readLine] at hread
        split at hread
        next d rest hhead =>
          obtain ⟨rfl, rfl⟩ := Prod.mk.inj (Except.ok.inj hread)
          refine ⟨fun start d' hd ↦ ?_, nofun⟩
          obtain ⟨rfl, rfl⟩ := Prod.mk.inj (Option.some.inj hd)
          exact hheader d _ _ hhead
        next => exact absurd hread nofun
      | some p =>
        obtain ⟨start, d⟩ := p
        have hd := hat start d rfl
        rw [readLine] at hread
        split at hread
        next =>
          obtain ⟨f, hf, hread⟩ := Except.bind_eq_ok.mp hread
          obtain ⟨rfl, rfl⟩ := Prod.mk.inj (Except.pure_eq_ok.mp hread)
          refine ⟨nofun, fun f' hf' ↦ ?_⟩
          obtain rfl := Option.some.inj hf'
          exact ⟨d, line, hd, hf⟩
        next =>
          split at hread
          next d' hadd =>
            obtain ⟨rfl, rfl⟩ := Prod.mk.inj (Except.ok.inj hread)
            refine ⟨fun start d'' hd' ↦ ?_, nofun⟩
            obtain ⟨rfl, rfl⟩ := Prod.mk.inj (Option.some.inj hd')
            exact hline d line tokens d' hd hadd
          next => exact absurd hread nofun

end TreeCover.Ir
