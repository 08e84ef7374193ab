import TreeCover.Proofs.Reading.WellFormed

/-!
# What has a name has a result

An instruction with a name is read behind an equals sign, where no store, branch or return may stand.
So no operand of a function that was read names the terminator of a block, although a name may be used
before the line that defines it. Main statements: `isDefinition_of_named` and
`not_isTerminator_of_named`.
-/

namespace TreeCover.Ir

variable {d d' : Draft} {f : Func} {line : Nat} {ts ts' : List Token} {raw : RawOperation}

/-! ## Instructions -/

theorem readCall_opcode (h : readCall.run ts = .ok (raw, ts')) : raw.2.opcode = .call := by
  simp only [readCall, LineReader.run_bind_eq_ok, LineReader.run_pure_eq_ok] at h
  obtain ⟨_, _, -, _, _, -, _, _, -, rfl, -⟩ := h
  rfl

/-- What stands behind an equals sign has a result. -/
theorem readDefinition_opcode (h : readDefinition.run ts = .ok (raw, ts')) :
    raw.2.opcode.isDefinition = true := by
  rw [readDefinition, LineReader.run_bind_eq_ok] at h
  obtain ⟨op, ts₁, -, h⟩ := h
  cases hbinary : BinaryOp.ofText? op with
  | some b =>
    simp only [hbinary, LineReader.run_bind_eq_ok, LineReader.run_pure_eq_ok] at h
    obtain ⟨_, _, -, rfl, -⟩ := h
    rfl
  | none =>
    cases hcast : CastOp.ofText? op with
    | some c =>
      simp only [hbinary, hcast, LineReader.run_bind_eq_ok, LineReader.run_pure_eq_ok] at h
      obtain ⟨_, _, -, _, _, -, _, _, -, rfl, -⟩ := h
      rfl
    | none =>
      simp only [hbinary, hcast] at h
      split at h
      next =>
        simp only [LineReader.run_bind_eq_ok] at h
        obtain ⟨name, _, -, h⟩ := h
        split at h
        next =>
          simp only [LineReader.run_bind_eq_ok, LineReader.run_pure_eq_ok] at h
          obtain ⟨_, _, -, rfl, -⟩ := h
          rfl
        next => exact absurd h LineReader.run_throw_ne_ok
      next =>
        simp only [LineReader.run_bind_eq_ok] at h
        obtain ⟨ty, _, -, aligned, _, -, h⟩ := h
        cases aligned with
        | false =>
          obtain ⟨rfl, -⟩ := LineReader.run_pure_eq_ok.mp h
          rfl
        | true =>
          simp only [if_true, LineReader.run_bind_eq_ok, LineReader.run_pure_eq_ok] at h
          obtain ⟨_, _, -, _, _, -, rfl, -⟩ := h
          rfl
      next =>
        simp only [LineReader.run_bind_eq_ok, LineReader.run_pure_eq_ok] at h
        obtain ⟨_, _, -, _, _, -, rfl, -⟩ := h
        rfl
      next =>
        simp only [LineReader.run_bind_eq_ok, LineReader.run_pure_eq_ok] at h
        obtain ⟨_, _, -, _, _, -, rfl, -⟩ := h
        rfl
      next => rw [readCall_opcode h]; rfl
      next => exact absurd h LineReader.run_throw_ne_ok

/-- An instruction that is read with a name has a result. -/
theorem isDefinition_of_readInst {taken : List String} {i : Inst String String}
    (h : (readInst taken).run ts = .ok (i, ts')) (hname : i.name.isSome = true) :
    i.opcode.isDefinition = true := by
  by_cases hts : ∃ name rest, ts = .localName name :: rest
  · obtain ⟨name, rest, rfl⟩ := hts
    obtain ⟨_, raw, -, hraw, -, rfl⟩ := readInst_localName_eq_ok.mp h
    exact readDefinition_opcode hraw
  · obtain ⟨raw, -, rfl⟩ := (readInst_eq_ok fun name rest hts' ↦ hts ⟨name, rest, hts'⟩).mp h
    exact absurd hname Bool.false_ne_true

/-! ## Functions under construction -/

/-- All names read so far are those of results. -/
def Draft.NamesValues (d : Draft) : Prop :=
  ∀ i ∈ d.insts, i.inst.name.isSome = true → i.inst.opcode.isDefinition = true

namespace Draft.NamesValues

theorem header (h : Draft.header.run ts = .ok (d, ts')) : d.NamesValues := by
  simp only [Draft.header, LineReader.run_bind_eq_ok, LineReader.run_pure_eq_ok] at h
  obtain ⟨_, _, -, ret, _, -, name, _, -, params, _, -, _, _, -, _, _, -, rfl, -⟩ := h
  exact List.forall_mem_nil _

/-- A block that is opened adds no instruction. -/
theorem openBlock {name : String} (hd : d.NamesValues) (h : d.openBlock name = .ok d') :
    d'.NamesValues := by
  obtain ⟨-, -, rfl⟩ := openBlock_eq_ok.mp h
  intro i hi
  refine hd i ?_
  simpa [insts] using hi

theorem addInst (hd : d.NamesValues) (h : (d.addInst line).run ts = .ok (d', ts')) :
    d'.NamesValues := by
  obtain ⟨b, bs, hblocks⟩ := d.exists_opened
  obtain ⟨-, -, i, hi, -, rfl⟩ := (addInst_eq_ok hblocks).mp h
  have hopened : d.opened.NamesValues := by
    rw [opened]
    split
    next => exact fun j hj ↦ absurd hj (by simp [insts])
    next => exact hd
  generalize d.opened = d at hopened hblocks hi
  obtain ⟨name, ret, params, blocks⟩ := d
  obtain rfl : blocks = b :: bs := hblocks
  intro j hj
  rw [insts_cons] at hj
  rcases List.mem_append.mp hj with hj | hj
  · exact hopened j hj
  · obtain rfl := List.mem_singleton.mp hj
    exact isDefinition_of_readInst hi

theorem addLine (hd : d.NamesValues) (h : d.addLine line ts = .ok d') : d'.NamesValues := by
  by_cases hlabel : ∃ label rest, ts = .word label :: .punct ':' :: rest
  · obtain ⟨label, rest, rfl⟩ := hlabel
    exact hd.openBlock (addLine_label_eq_ok.mp h).2
  · exact hd.addInst ((addLine_eq_ok fun label rest heq ↦ hlabel ⟨label, rest, heq⟩).mp h)

/-- Resolving the references keeps names and operators. -/
theorem finish (hd : d.NamesValues) (h : d.finish line = .ok f) :
    ∀ j ∈ f.insts, j.name.isSome = true → j.opcode.isDefinition = true := by
  obtain ⟨-, -, -, -, hblocks⟩ := finish_eq_ok.mp h
  have hinsts : List.Forall₂ (DraftInst.Reads d) d.insts f.insts :=
    List.rel_flatMap hblocks fun _ _ hb ↦ hb.insts
  intro j hj hname
  obtain ⟨k, hk, rfl⟩ := List.getElem_of_mem hj
  have hk' : k < d.insts.length := hinsts.length_eq ▸ hk
  have hread : DraftInst.Reads d d.insts[k] f.insts[k] := hinsts.get hk' hk
  rw [hread.opcode]
  exact hd _ (List.getElem_mem hk') (hread.name ▸ hname)

end Draft.NamesValues

/-! ## Texts -/

theorem readLines_named {at? : Position} {lines : List Line}
    (hat : ∀ start d, at? = some (start, d) → d.NamesValues) :
    ∀ f ∈ (readLines at? lines).functions,
      ∀ i ∈ f.insts, i.name.isSome = true → i.opcode.isDefinition = true := by
  intro f hf
  obtain ⟨d, line, hd, hfinish⟩ := readLines_induct (P := Draft.NamesValues)
    (fun d ts ts' ↦ .header) (fun d line ts d' ↦ .addLine) hat f hf
  exact hd.finish hfinish

/-- **Names.** In a function that was read, what has a name has a result. -/
theorem isDefinition_of_named {text : String} {fs : List Func} (h : parse text = .ok fs) :
    ∀ f ∈ fs, ∀ i ∈ f.insts, i.name.isSome = true → i.opcode.isDefinition = true :=
  parse_reads h fun _ ↦ readLines_named fun _ _ hat ↦ by cases hat

/-- So it ends no block. -/
theorem not_isTerminator_of_named {text : String} {fs : List Func} (h : parse text = .ok fs) :
    ∀ f ∈ fs, ∀ i ∈ f.insts, i.name.isSome = true → i.opcode.isTerminator = false := by
  intro f hf i hi hname
  have hresult := isDefinition_of_named h f hf i hi hname
  generalize i.opcode = op at hresult ⊢
  cases op with
  | br | ret => exact absurd hresult Bool.false_ne_true
  | _ => rfl

end TreeCover.Ir
