import TreeCover.Proofs.Encoding.Forms

/-!
# Encodings in a laid-out function

Whatever the layout puts around placed instructions has an encoding too: the copies of edges, which
may start from any address or constant that selection left to a phi, the labels and jumps of stubs,
and the code that saves and restores registers. The frame is taken in one subtraction, so its size
has to be a constant of 32 bits. Main statement: `layout_encodable`.
-/

namespace TreeCover

open Machine Work Assembly

variable {a : Allocation} {i : Inst} {is code : List Inst} {o src dst parked : Operand} {m : EdgeMove}
  {moves : List EdgeMove} {pl : Plan} {idx bytes : Nat} {s s' : Session} {b : Block} {w : Word}

/-- Code all of whose instructions have encodings. -/
def AllEncodable (is : List Inst) : Prop := ∀ i ∈ is, i.Encodable

theorem AllEncodable.append {js : List Inst} (h : AllEncodable is) (h' : AllEncodable js) :
    AllEncodable (is ++ js) := List.forall_mem_append.mpr ⟨h, h'⟩

theorem allEncodable_nil : AllEncodable [] := fun _ hi ↦ absurd hi List.not_mem_nil

theorem AllEncodable.flatten {iss : List (List Inst)} (h : ∀ is ∈ iss, AllEncodable is) :
    AllEncodable iss.flatten := by
  intro i hi
  obtain ⟨is, his, hi⟩ := List.mem_flatten.mp hi
  exact h is his i hi

/-! ## Copies -/

/-- A destination that a finished instruction can write. -/
structure Machine.Operand.Target (o : Operand) : Prop extends o.Finished where
  place : o.isReg = true ∨ o.isMem = true

theorem Allocation.Owns.target (h : a.Owns o) (ha : a.Orderly) : o.Target := by
  cases h with
  | passing hq width => exact ⟨Operand.finished_phys _ width, Or.inl rfl⟩
  | register hl width => exact ⟨Operand.finished_phys _ width, Or.inl rfl⟩
  | slot hl =>
    obtain ⟨d, rfl⟩ := ha.slot _ _ hl
    exact ⟨Operand.finished_frame d, Or.inr rfl⟩

namespace Machine.Operand.Target

theorem phys (q : PhysReg) : (Operand.phys q).Target := ⟨finished_phys q 8, Or.inl rfl⟩

theorem loadConstant (h : dst.Target) (hreg : dst.isReg = true) (w : Word) :
    (loadConstant w dst).Encodable := by
  rw [Machine.loadConstant]
  split
  next hfits =>
    refine Inst.encodable_pair rfl (finished_imm w) h.toFinished (Or.inl hreg) (fun _ ↦ hreg) ?_
    intro w' hw
    obtain rfl := Operand.imm.inj hw
    exact Or.inl hfits
  next =>
    exact Inst.encodable_pair rfl (finished_imm w) h.toFinished (Or.inl hreg) (fun _ ↦ hreg)
      fun _ _ ↦ Or.inr ⟨rfl, hreg⟩

/-- A move of what is neither a constant nor in memory, unless it goes to a register. -/
theorem move (h : dst.Target) (hsrc : src.Finished) (hconstant : ∀ w, src ≠ .imm w)
    (hmem : src.isMem = true → dst.isReg = true) {i : Inst} (hops : i.operands = [src, dst])
    (hneeds : i.needsRegDst = false) : i.Encodable :=
  Inst.encodable_pair hops hsrc h.toFinished (h.place.imp_right fun h ↦ ⟨h, hneeds⟩) hmem
    fun w hw ↦ absurd hw (hconstant w)

theorem copyToReg (q : PhysReg) (hsrc : src.Finished) : (EdgeMove.copyToReg q src).Encodable := by
  cases src with
  | imm w => exact (phys q).loadConstant rfl w
  | _ => exact (phys q).move hsrc (fun _ ↦ Operand.noConfusion) (fun _ ↦ rfl) rfl rfl

/-- A copy of a word has an encoding, wherever it comes from. -/
theorem copy (h : dst.Target) (hsrc : src.Finished) : AllEncodable (EdgeMove.copy dst src) := by
  have hrax : Inst.Encodable { mnemonic := "movq", operands := [.phys .valueScratch, dst] } :=
    h.move (finished_phys _ 8) (fun _ ↦ Operand.noConfusion) (fun h ↦ absurd h Bool.false_ne_true)
      rfl rfl
  unfold EdgeMove.copy
  split
  next w _ _ => exact List.forall_mem_singleton.mpr (h.loadConstant rfl w)
  next w _ =>
    split
    next hfits =>
      refine List.forall_mem_singleton.mpr (Inst.encodable_pair rfl hsrc h.toFinished
        (Or.inr ⟨rfl, rfl⟩) (fun h ↦ absurd h Bool.false_ne_true) fun w' hw ↦ Or.inl ?_)
      exact Operand.imm.inj hw ▸ hfits
    next =>
      exact List.forall_mem_cons.mpr ⟨copyToReg _ hsrc, List.forall_mem_singleton.mpr hrax⟩
  next => exact List.forall_mem_cons.mpr ⟨copyToReg _ hsrc, List.forall_mem_singleton.mpr hrax⟩
  next hreg hmem hboth =>
    have hplace : (∃ r n, dst = .reg r n) ∨ ∃ m, dst = .mem m := by
      cases hdst : dst with
      | reg r n => exact Or.inl ⟨r, n, rfl⟩
      | mem m => exact Or.inr ⟨m, rfl⟩
      | _ => exact absurd h.place (by simp [hdst, isReg, isMem])
    refine List.forall_mem_singleton.mpr (h.move hsrc ?_ ?_ rfl rfl)
    · rintro w rfl
      rcases hplace with ⟨r, n, rfl⟩ | ⟨m, rfl⟩
      · exact hreg w r n rfl rfl
      · exact hmem w m rfl rfl
    · intro hsrc
      cases hs : src with
      | mem m =>
        rcases hplace with ⟨r, n, rfl⟩ | ⟨m', rfl⟩
        · rfl
        · exact absurd rfl (hboth m m' hs)
      | _ => exact absurd hsrc (by simp [hs, isMem])

end Machine.Operand.Target

namespace EdgeMove

/-- A copy to the place of a virtual register. -/
structure Sendable (a : Allocation) (m : EdgeMove) : Prop where
  owned : a.Owns m.dst
  source : m.src.Encodable

theorem redirect_encodable (h : redirect a parked src = .ok o) (hsrc : src.Encodable) :
    o.Encodable := by
  cases src with
  | mem m =>
    obtain ⟨base, -, h⟩ := Placing.bind_eq_ok.mp h
    cases hindex : m.index with
    | none =>
      simp only [hindex] at h
      obtain rfl := Except.ok.inj h
      exact Operand.encodable_mem.mpr fun _ _ h ↦ absurd h (by simp)
    | some part =>
      simp only [hindex] at h
      obtain ⟨index, -, h⟩ := Placing.bind_eq_ok.mp h
      obtain rfl := Except.ok.inj h
      obtain ⟨hr, hscale⟩ := hsrc m rfl part.1 part.2 hindex
      refine Operand.encodable_mem.mpr fun r scale h ↦ ?_
      obtain ⟨rfl, rfl⟩ := Prod.mk.inj (Option.some.inj h)
      refine ⟨?_, hscale⟩
      split
      · exact (by decide : Reg.phys .indexScratch ≠ .phys .rsp)
      · exact hr
  | _ =>
    obtain rfl := Except.ok.inj h
    exact Operand.encodable_of_not_mem rfl

theorem reroute_sendable {m' : EdgeMove} (hm : m.Sendable a) (h : reroute a parked m = .ok m') :
    m'.Sendable a := by
  refine ⟨reroute_dst h ▸ hm.owned, ?_⟩
  rw [reroute] at h
  split at h
  · obtain ⟨src, hsrc, h⟩ := Placing.bind_eq_ok.mp h
    obtain ⟨reads, -, h⟩ := Placing.bind_eq_ok.mp h
    obtain rfl := Except.ok.inj h
    exact redirect_encodable hsrc hm.source
  · obtain rfl := Except.ok.inj h
    exact hm.source

theorem sequence_encodable {steps : List Step} (ha : a.Orderly) (hmoves : ∀ m ∈ moves, m.Sendable a)
    (h : sequence a moves = .ok steps) : ∀ step ∈ steps, AllEncodable step.insts :=
  sequenceFrom_forall
    (fun m loads src width hm hsrc ↦ by
      obtain ⟨hloads, hplaces⟩ := Placement.operand_encodable ha hsrc hm.source
      exact AllEncodable.append hloads ((hm.owned.target ha).copy hplaces.toFinished))
    (fun m hm ↦ (Operand.Target.phys _).copy (hm.owned.target ha).toFinished)
    (fun _ _ _ hm h ↦ reroute_sendable hm h) hmoves h

end EdgeMove

/-! ## Prologue and epilogue -/

theorem Machine.Inst.encodable_single (hops : i.operands = [o]) (ho : o.Finished)
    (hneeds : i.needsRegDst = false) (hconstant : ∀ w, o ≠ .imm w) : i.Encodable := by
  refine ⟨?_, ?_, fun h ↦ absurd (hneeds.symm.trans h) Bool.false_ne_true, fun w hw ↦ ?_,
    fun w hw ↦ ?_, ?_⟩
  · simp [hops, ho.physical]
  · exact List.countP_le_length.trans (by simp [hops])
  · rw [hops] at hw
    exact hconstant w (Option.some.inj hw)
  · rw [hops] at hw
    exact absurd (List.mem_singleton.mp hw).symm (hconstant w)
  · simp [hops, ho.address]

namespace Assembly

variable {regs : List PhysReg}

theorem prologue_encodable {size : Nat} (hsize : fitsImm32 (BitVec.ofNat 64 size) = true) :
    AllEncodable (prologue size (saveSlots bytes regs)) := by
  have hreg := Operand.Target.phys
  refine AllEncodable.append (List.forall_mem_cons.mpr ⟨?_, List.forall_mem_cons.mpr
    ⟨?_, List.forall_mem_singleton.mpr ?_⟩⟩) fun i hi ↦ ?_
  · exact Inst.encodable_single rfl (hreg .rbp).toFinished rfl fun _ ↦ Operand.noConfusion
  · exact (hreg .rbp).move (hreg .rsp).toFinished (fun _ ↦ Operand.noConfusion) (fun _ ↦ rfl) rfl rfl
  · refine Inst.encodable_pair rfl (Operand.finished_imm _) (hreg .rsp).toFinished (Or.inl rfl)
      (fun _ ↦ rfl) fun w hw ↦ Or.inl ?_
    exact Operand.imm.inj hw ▸ hsize
  · obtain ⟨⟨r, slot⟩, hsave, rfl⟩ := List.mem_map.mp hi
    obtain ⟨k, -, -, rfl⟩ := mem_saveSlots hsave
    have hslot : ∀ d, (Operand.mem (.frame d)).Target := fun d ↦
      ⟨Operand.finished_frame d, Or.inr rfl⟩
    exact (hslot _).move (hreg r).toFinished (fun _ ↦ Operand.noConfusion)
      (fun h ↦ absurd h Bool.false_ne_true) rfl rfl

theorem epilogue_encodable : AllEncodable (epilogue (saveSlots bytes regs)) := by
  have hreg := Operand.Target.phys
  refine AllEncodable.append (fun i hi ↦ ?_) (List.forall_mem_cons.mpr ⟨?_,
    List.forall_mem_cons.mpr ⟨?_, List.forall_mem_singleton.mpr ?_⟩⟩)
  · obtain ⟨⟨r, slot⟩, hsave, rfl⟩ := List.mem_map.mp hi
    obtain ⟨k, -, -, rfl⟩ := mem_saveSlots (List.mem_reverse.mp hsave)
    exact (hreg r).move (Operand.finished_frame _) (fun _ ↦ Operand.noConfusion) (fun _ ↦ rfl) rfl rfl
  · exact (hreg .rsp).move (hreg .rbp).toFinished (fun _ ↦ Operand.noConfusion) (fun _ ↦ rfl) rfl rfl
  · exact Inst.encodable_single rfl (hreg .rbp).toFinished rfl fun _ ↦ Operand.noConfusion
  · exact Inst.encodable_of_names rfl fun _ ho ↦ absurd ho List.not_mem_nil

end Assembly

/-! ## Blocks -/

/-- A block of instructions that have encodings once they are placed. -/
structure Machine.Block.Drafted (b : Block) : Prop where
  insts : ∀ i ∈ b.insts, i.Draft
  inputs : ∀ phi ∈ b.phis, ∀ x ∈ phi.incoming, x.1.Encodable

namespace Assembly

theorem label_encodable (l : LabelId) : (Inst.label l).Encodable :=
  Inst.encodable_of_names rfl fun _ ho ↦ absurd ho List.not_mem_nil

theorem onLabel_encodable {l : LabelId} (hops : i.operands = [.label l])
    (hneeds : i.needsRegDst = false) : i.Encodable :=
  Inst.encodable_of_names hneeds fun o ho ↦
    Or.inl ⟨l, List.mem_singleton.mp (show o ∈ [Operand.label l] from hops ▸ ho)⟩

/-- A piece of a function whose instructions and stubs have encodings. -/
structure Piece.IsEncodable (a : Allocation) (piece : Piece) : Prop where
  code : AllEncodable piece.1
  stubs : ∀ st ∈ piece.2, (∀ m ∈ st.moves, m.Sendable a) ∧ ∃ l, st.target = .label l

section

variable (ha : pl.allocation.Orderly)
include ha

theorem copies_encodable (hmoves : ∀ m ∈ moves, m.Sendable pl.allocation)
    (h : copies pl moves s = .ok is s') : AllEncodable is := by
  obtain ⟨⟨steps, hsteps, rfl⟩, -⟩ := copies_ok h
  intro i hi
  obtain ⟨step, hstep, hi⟩ := List.mem_flatMap.mp hi
  exact EdgeMove.sequence_encodable ha hmoves hsteps step hstep i hi

variable (hsaves : ∃ regs, pl.saves = saveSlots bytes regs)
include hsaves

theorem instruction_encodable (hi : i.Draft) (h : instruction pl i s = .ok is s') :
    AllEncodable is := by
  by_cases hret : i.kind = .ret
  · rw [instruction, if_pos hret] at h
    obtain ⟨rfl, -⟩ := pure_eq_ok.mp h
    obtain ⟨regs, hregs⟩ := hsaves
    exact hregs ▸ epilogue_encodable
  · rw [instruction_of_ne hret] at h
    exact Placement.inst_encodable ha hi (liftPlacing_eq_ok.mp h).1

theorem instructions_encodable (his : ∀ i ∈ is, i.Draft) (h : instructions pl is s = .ok code s') :
    AllEncodable code := by
  obtain ⟨parts, s₁, hparts, hpure⟩ := bind_eq_ok.mp h
  obtain ⟨rfl, -⟩ := pure_eq_ok.mp hpure
  refine AllEncodable.flatten (mapM_induct (P := fun parts _ ↦ ∀ js ∈ parts, AllEncodable js) hparts
    (fun _ hjs ↦ absurd hjs List.not_mem_nil) fun k i hi parts t js t' _ hbefore hstep ↦ ?_)
  exact List.forall_mem_append.mpr ⟨hbefore, List.forall_mem_singleton.mpr
    (instruction_encodable ha hsaves (his i (List.mem_of_getElem? hi)) hstep)⟩

omit ha hsaves in
theorem onEdge_sendable (hblocks : ∀ b ∈ pl.blocks, b.Drafted) {succ : Nat}
    (h : EdgeMove.onEdge a pl.blocks idx succ = .ok moves) : ∀ m ∈ moves, m.Sendable a := by
  intro m hm
  obtain ⟨⟨v, hdst⟩, b, hb, phi, hphi, hsrc⟩ := EdgeMove.onEdge_cases h m hm
  obtain ⟨x, hx, hsrc⟩ := List.mem_map.mp hsrc
  exact ⟨EdgeMove.owns_resolved hdst,
    hsrc ▸ (hblocks b hb).inputs phi hphi x (List.mem_filter.mp hx).1⟩

variable (hblocks : ∀ b ∈ pl.blocks, b.Drafted)
include hblocks

theorem branch_encodable {next : Option LabelId} {piece : Piece} (hi : i.Draft)
    (hlabel : ∃ l, i = jumpTo l ∨ ∃ p, i = branchTo (jumpMnemonic p) l)
    (h : branch pl idx next i s = .ok piece s') : piece.IsEncodable pl.allocation := by
  rw [branch_eq] at h
  obtain ⟨moves, s₁, hmoves, h⟩ := bind_eq_ok.mp h
  have hsendable : ∀ m ∈ moves, m.Sendable pl.allocation := by
    cases htarget : targetBlock? pl.blocks i with
    | some succ =>
      rw [htarget] at hmoves
      exact onEdge_sendable hblocks (liftPlacing_eq_ok.mp hmoves).1
    | none =>
      rw [htarget] at hmoves
      obtain ⟨rfl, -⟩ := pure_eq_ok.mp hmoves
      exact fun _ hm ↦ absurd hm List.not_mem_nil
  have hinline {piece : Piece} {s₁ : Session} (h : (do
      let before ← copies pl moves
      if i.kind = .jump && next.isSome && i.operands.head? = next.map .label then return (before, [])
      return (before ++ (← instruction pl i), []) : Assembling Piece) s₁ = .ok piece s') :
      piece.IsEncodable pl.allocation := by
    obtain ⟨before, s₂, hbefore, h⟩ := bind_eq_ok.mp h
    have hcopies := copies_encodable ha hsendable hbefore
    split at h
    · obtain ⟨rfl, -⟩ := pure_eq_ok.mp h
      exact ⟨hcopies, fun _ hst ↦ absurd hst List.not_mem_nil⟩
    · obtain ⟨js, s₃, hjs, h⟩ := bind_eq_ok.mp h
      obtain ⟨rfl, -⟩ := pure_eq_ok.mp h
      exact ⟨hcopies.append (instruction_encodable ha hsaves hi hjs),
        fun _ hst ↦ absurd hst List.not_mem_nil⟩
  obtain ⟨l, rfl | ⟨m, rfl⟩⟩ := hlabel
  · exact hinline h
  · cases moves with
    | nil => exact hinline h
    | cons move moves =>
      obtain ⟨label, s₂, -, h⟩ := bind_eq_ok.mp h
      obtain ⟨_, s₃, -, h⟩ := bind_eq_ok.mp h
      obtain ⟨rfl, -⟩ := pure_eq_ok.mp h
      exact ⟨List.forall_mem_singleton.mpr (onLabel_encodable rfl rfl),
        List.forall_mem_singleton.mpr ⟨hsendable, l, rfl⟩⟩

omit hsaves in
theorem fallThrough_encodable (h : fallThrough pl idx b s = .ok code s') : AllEncodable code := by
  obtain ⟨parts, s₁, hparts, hpure⟩ := bind_eq_ok.mp h
  obtain ⟨rfl, -⟩ := pure_eq_ok.mp hpure
  refine AllEncodable.flatten (mapM_induct (P := fun parts _ ↦ ∀ is ∈ parts, AllEncodable is) hparts
    (fun _ his ↦ absurd his List.not_mem_nil) fun k succ _ parts t is t' _ hbefore hedge ↦ ?_)
  obtain ⟨moves, s₂, hmoves, hcopies⟩ := bind_eq_ok.mp hedge
  exact List.forall_mem_append.mpr ⟨hbefore, List.forall_mem_singleton.mpr
    (copies_encodable ha (onEdge_sendable hblocks (liftPlacing_eq_ok.mp hmoves).1) hcopies)⟩

theorem block_encodable {piece : Piece} (hb : b.Drafted) (hthreaded : IsThreaded b.insts)
    (h : block pl idx b s = .ok piece s') : piece.IsEncodable pl.allocation := by
  have hinsts := hb.insts
  rw [insts_split, List.forall_mem_append] at hinsts
  have hlabel : AllEncodable (b.label.map Inst.label).toList := by
    cases b.label with
    | none => exact allEncodable_nil
    | some l => exact List.forall_mem_singleton.mpr (label_encodable l)
  obtain ⟨body, s₁, hbody, h⟩ := bind_eq_ok.mp h
  have hencodable := hlabel.append (instructions_encodable ha hsaves hinsts.1 hbody)
  cases hcode : trailingBranches b with
  | nil =>
    rw [hcode] at h
    obtain ⟨fall, s₂, hfall, h⟩ := bind_eq_ok.mp h
    obtain ⟨rfl, -⟩ := pure_eq_ok.mp h
    exact ⟨hencodable.append (fallThrough_encodable ha hblocks hfall),
      fun _ hst ↦ absurd hst List.not_mem_nil⟩
  | cons first others =>
    rw [hcode] at h
    obtain ⟨pieces, s₂, hpieces, h⟩ := bind_eq_ok.mp h
    obtain ⟨rfl, -⟩ := pure_eq_ok.mp h
    have hall : ∀ piece ∈ pieces, Piece.IsEncodable pl.allocation piece := by
      refine mapM_induct (P := fun pieces _ ↦ ∀ piece ∈ pieces,
        Piece.IsEncodable pl.allocation piece) hpieces (fun _ hpiece ↦ absurd hpiece List.not_mem_nil)
        fun k i hi pieces t piece t' _ hbefore hbranch ↦ ?_
      have hmem : i ∈ trailingBranches b := hcode ▸ List.mem_of_getElem? hi
      obtain ⟨p, q, hstep⟩ := hthreaded.step_of_mem
        (show i ∈ b.insts from insts_split b ▸ List.mem_append_right _ hmem)
      obtain ⟨l, hl, -⟩ := hstep.branch_cases (isBranch_of_mem_trailing hmem)
      exact List.forall_mem_append.mpr ⟨hbefore, List.forall_mem_singleton.mpr
        (branch_encodable ha hsaves hblocks (hinsts.2 i hmem) ⟨l, hl⟩ hbranch)⟩
    refine ⟨hencodable.append fun i hi ↦ ?_, fun st hst ↦ ?_⟩
    · obtain ⟨piece, hpiece, hi⟩ := List.mem_flatMap.mp hi
      exact (hall piece hpiece).code i hi
    · obtain ⟨piece, hpiece, hst⟩ := List.mem_flatMap.mp hst
      exact (hall piece hpiece).stubs st hst

omit hsaves hblocks in
theorem stub_encodable {st : Stub} (hmoves : ∀ m ∈ st.moves, m.Sendable pl.allocation)
    (htarget : ∃ l, st.target = .label l) (h : stub pl st s = .ok is s') : AllEncodable is := by
  obtain ⟨ps, s₁, hps, hpure⟩ := bind_eq_ok.mp h
  obtain ⟨rfl, -⟩ := pure_eq_ok.mp hpure
  obtain ⟨l, hl⟩ := htarget
  rw [hl]
  exact AllEncodable.append (AllEncodable.append
    (List.forall_mem_singleton.mpr (label_encodable st.label)) (copies_encodable ha hmoves hps))
    (List.forall_mem_singleton.mpr (onLabel_encodable rfl rfl))

end

/-! ## Functions -/

/-- **Encodings.** If the blocks of a function consist of drafts and its frame can be taken at once,
all instructions of the finished function have encodings. -/
theorem layout_encodable {name : String} {blocks : List Block} {f : Assembly} (ha : a.Orderly)
    (hblocks : ∀ b ∈ blocks, b.Drafted ∧ IsThreaded b.insts)
    (h : layout name blocks bytes a s = .ok f s')
    (hsize : fitsImm32 (BitVec.ofNat 64 f.frameBytes) = true) : AllEncodable f.insts := by
  obtain ⟨pieces, s₁, stubCode, s₂, hpieces, hstubs, hcode, -, -, -⟩ := layout_ok h
  have hall : ∀ piece ∈ pieces, Piece.IsEncodable a piece := by
    refine mapM_induct (P := fun pieces _ ↦ ∀ piece ∈ pieces, Piece.IsEncodable a piece)
      hpieces (fun _ hpiece ↦ absurd hpiece List.not_mem_nil)
      fun k ⟨b, idx⟩ hb pieces t piece t' _ hbefore hblock ↦ ?_
    have hmem : b ∈ blocks := (List.mem_zipIdx (List.mem_of_getElem? hb)).2.2 ▸ List.getElem_mem _
    exact List.forall_mem_append.mpr ⟨hbefore, List.forall_mem_singleton.mpr
      (@block_encodable ⟨a, blocks, _⟩ _ _ _ _ _ ha ⟨_, rfl⟩ (fun b hb ↦ (hblocks b hb).1)
        _ (hblocks b hmem).1 (hblocks b hmem).2 hblock)⟩
  rw [hcode]
  refine AllEncodable.append (AllEncodable.append (prologue_encodable hsize) fun i hi ↦ ?_)
    (AllEncodable.flatten ?_)
  · obtain ⟨piece, hpiece, hi⟩ := List.mem_flatMap.mp hi
    exact (hall piece hpiece).code i hi
  · refine mapM_induct (P := fun code _ ↦ ∀ is ∈ code, AllEncodable is) hstubs
      (fun _ his ↦ absurd his List.not_mem_nil) fun k st hst code t is t' _ hbefore hstub ↦ ?_
    obtain ⟨piece, hpiece, hmem⟩ := List.mem_flatMap.mp (List.mem_of_getElem? hst)
    obtain ⟨hmoves, htarget⟩ := (hall piece hpiece).stubs st hmem
    exact List.forall_mem_append.mpr ⟨hbefore, List.forall_mem_singleton.mpr
      (@stub_encodable _ ⟨a, blocks, _⟩ _ _ ha _ hmoves htarget hstub)⟩

end Assembly

end TreeCover
