import TreeCover.Proofs.Liveness.Sets

/-!
# Registers that are written before they are read

A read is defined on a path if the register was written before it on that path, by an instruction
or by the copies on an edge. Code is tidy if every read is supplied by the block of the read itself,
by a block that dominates it, by a phi of such a block, or is a read of an exempt register, which
any block may have written. Two kinds of reads can then fail to be defined on some path: those of
the phis of the entry, which no edge has written when control comes in, and those of exempt
registers.
-/

namespace TreeCover

open Machine

variable {blocks : List Block} {a b d e s k : Nat} {v : VReg} {p : List Nat} {phi : Phi}

/-! ## Reads and writes -/

def instsAt (blocks : List Block) (b : Nat) : List Inst := (blocks[b]?.map (·.insts)).getD []

def phisAt (blocks : List Block) (b : Nat) : List Phi := (blocks[b]?.map (·.phis)).getD []

/-- An instruction of block `b` writes `v`. -/
def WritesIn (blocks : List Block) (b : Nat) (v : VReg) : Prop :=
  ∃ i ∈ instsAt blocks b, v ∈ i.defs

/-- A copy on the edge from `a` to `b` writes `v`. -/
def WritesOn (blocks : List Block) (a b : Nat) (v : VReg) : Prop :=
  ∃ phi ∈ phisAt blocks b, phi.dst = v ∧ phi.inputsFrom a ≠ []

/-- A phi of block `b` has the register `v`. -/
def IsPhiOf (blocks : List Block) (b : Nat) (v : VReg) : Prop := ∃ phi ∈ phisAt blocks b, phi.dst = v

/-- Block `b` hands an operand with `v` to a phi of `s`. -/
def Hands (blocks : List Block) (b s : Nat) (v : VReg) : Prop :=
  ∃ phi ∈ phisAt blocks s, ∃ o, (o, b) ∈ phi.incoming ∧ v ∈ o.vregs

/-- Block `b` reads `v`, in an instruction or when it hands operands to phis. -/
def ReadsIn (blocks : List Block) (b : Nat) (v : VReg) : Prop :=
  (∃ i ∈ instsAt blocks b, v ∈ i.uses) ∨
    ∃ s, (blockGraph blocks).Edge b s ∧ Hands blocks b s v

/-! ## Paths -/

/-- `WrittenOn blocks p v` says that `v` is written on the path `p` before its last block
starts. -/
def WrittenOn (blocks : List Block) : List Nat → VReg → Prop
  | b :: a :: p, v => WrittenOn blocks (a :: p) v ∨ WritesIn blocks a v ∨ WritesOn blocks a b v
  | _, _ => False

/-- **Definedness.** On every path from the entry, every register that an instruction reads, or
that is handed to a phi at the end of a block, was written before. -/
def ReadsDefined (blocks : List Block) : Prop :=
  ∀ p b, (blockGraph blocks).IsPath p b →
    (∀ k i, (instsAt blocks b)[k]? = some i → ∀ v ∈ i.uses,
      WrittenOn blocks p v ∨ ∃ i' ∈ (instsAt blocks b).take k, v ∈ i'.defs) ∧
    (∀ s, (blockGraph blocks).Edge b s → ∀ v, Hands blocks b s v →
      WrittenOn blocks p v ∨ WritesIn blocks b v)

theorem writesIn_of_take {insts : List Inst} (hinsts : instsAt blocks b = insts)
    (h : ∃ i ∈ insts.take k, v ∈ i.defs) : WritesIn blocks b v := by
  obtain ⟨i, hi, hv⟩ := h
  exact ⟨i, hinsts ▸ List.mem_of_mem_take hi, hv⟩

/-- In defined code a read register was written somewhere on the path, or in the block of the read. -/
theorem ReadsDefined.written (h : ReadsDefined blocks) (hp : (blockGraph blocks).IsPath p b)
    (hread : ReadsIn blocks b v) : WrittenOn blocks p v ∨ WritesIn blocks b v := by
  rcases hread with ⟨i, hi, hv⟩ | ⟨s, hedge, hhands⟩
  · obtain ⟨k, hk⟩ := List.mem_iff_getElem?.mp hi
    exact ((h p b hp).1 k i hk v hv).imp_right (writesIn_of_take rfl)
  · exact (h p b hp).2 s hedge v hhands

/-- What was written on a path was written in one of its blocks, or on an edge into one that is not
its first. -/
theorem WrittenOn.cases (h : WrittenOn blocks p v) :
    (∃ a ∈ p, WritesIn blocks a v) ∨ ∃ a, ∃ b ∈ p.dropLast, WritesOn blocks a b v := by
  induction p with
  | nil => exact h.elim
  | cons b p ih =>
    cases p with
    | nil => exact h.elim
    | cons a p =>
      rcases h with h | h | h
      · rcases ih h with ⟨c, hc, hw⟩ | ⟨c, d, hd, hw⟩
        · exact Or.inl ⟨c, List.mem_cons_of_mem b hc, hw⟩
        · exact Or.inr ⟨c, d, List.mem_cons_of_mem b hd, hw⟩
      · exact Or.inl ⟨a, List.mem_cons_of_mem b List.mem_cons_self, h⟩
      · exact Or.inr ⟨a, b, List.mem_cons_self, h⟩

theorem writtenOn_of_block (hp : (blockGraph blocks).IsPath p b) (he : e ∈ p) (hne : e ≠ b)
    (hw : WritesIn blocks e v) : WrittenOn blocks p v := by
  induction hp with
  | entry => exact absurd (List.mem_singleton.mp he) hne
  | @step p a b hp hedge ih =>
    rcases List.mem_cons.mp he with rfl | he
    · exact absurd rfl hne
    · obtain ⟨p', rfl⟩ : ∃ p', p = a :: p' := by cases hp <;> exact ⟨_, rfl⟩
      by_cases hea : e = a
      · exact Or.inr (Or.inl (hea ▸ hw))
      · exact Or.inl (ih he hea)

/-- A block other than the entry is entered over an edge. -/
theorem writtenOn_of_phi (hp : (blockGraph blocks).IsPath p b) (hd : d ∈ p) (hne : d ≠ 0)
    (hw : ∀ a, (blockGraph blocks).Edge a d → WritesOn blocks a d v) : WrittenOn blocks p v := by
  induction hp with
  | entry => exact absurd (List.mem_singleton.mp hd) hne
  | @step p a b hp hedge ih =>
    obtain ⟨p', rfl⟩ : ∃ p', p = a :: p' := by cases hp <;> exact ⟨_, rfl⟩
    rcases List.mem_cons.mp hd with rfl | hd
    · exact Or.inr (Or.inr (hw a hedge))
    · exact Or.inl (ih hd)

/-- Every block that is reached at all is reached without coming back to the entry. -/
theorem exists_path_without_entry {g : FlowGraph} (hp : g.IsPath p b) :
    ∃ q, g.IsPath (q ++ [0]) b ∧ 0 ∉ q := by
  induction hp with
  | entry => exact ⟨[], .entry, List.not_mem_nil⟩
  | @step p a b hp hedge ih =>
    obtain ⟨q, hq, hnot⟩ := ih
    by_cases hb : b = 0
    · subst hb
      exact ⟨[], .entry, List.not_mem_nil⟩
    · exact ⟨b :: q, hq.step hedge, fun hmem ↦ (List.mem_cons.mp hmem).elim (hb ·.symm) hnot⟩

/-! ## Tidy code -/

/-- A register that other blocks supply to block `b`. -/
def Supplied (blocks : List Block) (exempt : VReg → Prop) (b : Nat) (v : VReg) : Prop :=
  (∃ e, e ≠ b ∧ WritesIn blocks e v ∧ ((blockGraph blocks).Dominates e b ∨ exempt v)) ∨
    ∃ d, IsPhiOf blocks d v ∧ (blockGraph blocks).Dominates d b

/-- Code in which every read is supplied, and in which a register is written in one block only, or
only by the copies into one block. -/
structure Tidy (blocks : List Block) (exempt : VReg → Prop) : Prop where
  reads : ∀ b k i, (instsAt blocks b)[k]? = some i → ∀ v ∈ i.uses,
    (∃ i' ∈ (instsAt blocks b).take k, v ∈ i'.defs) ∨ Supplied blocks exempt b v
  hands : ∀ b s v, Hands blocks b s v → WritesIn blocks b v ∨ Supplied blocks exempt b v
  block_unique : ∀ e e' v, WritesIn blocks e v → WritesIn blocks e' v → e = e'
  phi_unique : ∀ d d' v, IsPhiOf blocks d v → IsPhiOf blocks d' v → d = d'
  not_phi : ∀ e d v, WritesIn blocks e v → ¬ IsPhiOf blocks d v

variable {exempt : VReg → Prop}

/-- If every edge feeds the phis of its target, all reads of tidy code are defined exactly if
nothing reads a phi of the entry and exempt registers are read only where the block that writes
them dominates. -/
theorem Tidy.readsDefined_iff (h : Tidy blocks exempt)
    (hfed : ∀ a b, (blockGraph blocks).Edge a b → ∀ v, IsPhiOf blocks b v → WritesOn blocks a b v) :
    ReadsDefined blocks ↔
      (∀ b v, (blockGraph blocks).Reachable b → ReadsIn blocks b v → ¬ IsPhiOf blocks 0 v) ∧
      ∀ v, exempt v → ∀ e b, WritesIn blocks e v → ReadsIn blocks b v →
        (blockGraph blocks).Dominates e b := by
  constructor
  · refine fun hdefined ↦ ⟨fun b v hreach hread hphi ↦ ?_, fun v _ e b hw hread p hp ↦ ?_⟩
    · obtain ⟨p, hp⟩ := hreach
      obtain ⟨q, hq, hnot⟩ := exists_path_without_entry hp
      rcases hdefined.written hq hread with hon | hin
      · rcases hon.cases with ⟨a, -, hw⟩ | ⟨a, c, hc, phi, hmem, rfl, -⟩
        · exact h.not_phi a 0 v hw hphi
        · rw [List.dropLast_concat] at hc
          exact hnot (h.phi_unique c 0 phi.dst ⟨phi, hmem, rfl⟩ hphi ▸ hc)
      · exact h.not_phi b 0 v hin hphi
    · rcases hdefined.written hp hread with hon | hin
      · rcases hon.cases with ⟨a, ha, hw'⟩ | ⟨a, c, -, phi, hmem, rfl, -⟩
        · exact h.block_unique a e v hw' hw ▸ ha
        · exact absurd ⟨phi, hmem, rfl⟩ (h.not_phi e c phi.dst hw)
      · exact h.block_unique b e v hin hw ▸ hp.target_mem
  · rintro ⟨hentry, hexempt⟩ p b hp
    have hsupplied : ∀ v, ReadsIn blocks b v → Supplied blocks exempt b v →
        WrittenOn blocks p v := by
      rintro v hread (⟨e, hne, hw, hdom⟩ | ⟨d, hphi, hdom⟩)
      · have he : (blockGraph blocks).Dominates e b :=
          hdom.elim id fun hv ↦ hexempt v hv e b hw hread
        exact writtenOn_of_block hp (he p hp) hne hw
      · refine writtenOn_of_phi hp (hdom p hp) (fun hzero ↦ ?_) fun a hedge ↦ hfed a d hedge v hphi
        exact hentry b v ⟨p, hp⟩ hread (hzero ▸ hphi)
    refine ⟨fun k i hi v hv ↦ ?_, fun s hedge v hhands ↦ ?_⟩
    · have hread : ReadsIn blocks b v := Or.inl ⟨i, List.mem_of_getElem? hi, hv⟩
      exact (h.reads b k i hi v hv).symm.imp_left (hsupplied v hread)
    · exact (h.hands b s v hhands).symm.imp_left (hsupplied v (Or.inr ⟨s, hedge, hhands⟩))

end TreeCover
