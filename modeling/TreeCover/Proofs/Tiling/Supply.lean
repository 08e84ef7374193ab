import TreeCover.Proofs.Forest.Declared
import TreeCover.Proofs.Tiling.Reduction

/-!
# The supply of registers

Code is selected block by block. What a block may read is what it wrote before and what other blocks
supply: registers written in blocks that dominate it, phis of such blocks, and the addresses of
allocas, wherever they were written. `Drafted` says that the code so far reads nothing else. It is
kept when instructions that read known registers are appended to a block, and when a block hands a
known register to a phi.
-/

namespace TreeCover

open Ir Machine

variable {w w' : Workspace} {blocks : List Machine.Block} {c₀ c c' c'' : Code}
  {g₀ g g' g'' : Forest} {a b s succ d : Nat} {k : NodeId} {u v dst : VReg}
  {o value : Machine.Operand} {is : List Machine.Inst}

/-! ## Inputs of phis -/

/-- Block `b` hands the operand `o` to the phi of block `s` that has the register `v`. -/
def Feeds (blocks : List Machine.Block) (b s : Nat) (v : VReg) (o : Machine.Operand) : Prop :=
  ∃ phi ∈ phisAt blocks s, phi.dst = v ∧ (o, b) ∈ phi.incoming

theorem Hands.exists_feeds (h : Hands blocks b s v) : ∃ dst o, Feeds blocks b s dst o ∧ v ∈ o.vregs := by
  obtain ⟨phi, hphi, o, ho, hv⟩ := h
  exact ⟨phi.dst, o, ⟨phi, hphi, rfl, ho⟩, hv⟩

theorem Feeds.writesOn (h : Feeds blocks b s v o) : WritesOn blocks b s v := by
  obtain ⟨phi, hphi, hdst, ho⟩ := h
  refine ⟨phi, hphi, hdst, fun hnil ↦ ?_⟩
  rw [Phi.inputsFrom, List.map_eq_nil_iff, List.filter_eq_nil_iff] at hnil
  exact hnil _ ho (beq_self_eq_true b)

theorem Machine.Code.phisAt_addPhiInput (c : Code) (succ s : Nat) (dst : VReg)
    (value : Machine.Operand) :
    phisAt (c.addPhiInput succ dst value).blocks s =
      if succ = s then addInput dst (value, c.current) (phisAt c.blocks s)
      else phisAt c.blocks s := by
  rw [phisAt, addPhiInput, updateBlock, List.getElem?_modify, phisAt]
  cases c.blocks[s]? <;> split <;> simp [addInput]

theorem Machine.Code.instsAt_addPhiInput (c : Code) (succ s : Nat) (dst : VReg)
    (value : Machine.Operand) :
    instsAt (c.addPhiInput succ dst value).blocks s = instsAt c.blocks s := by
  rw [instsAt, addPhiInput, updateBlock, List.getElem?_modify, instsAt]
  cases c.blocks[s]? <;> split <;> rfl

theorem Machine.Code.succs_addPhiInput (c : Code) (succ : Nat) (dst : VReg)
    (value : Machine.Operand) :
    (c.addPhiInput succ dst value).blocks.map (·.succs) = c.blocks.map (·.succs) := by
  refine List.ext_getElem? fun k ↦ ?_
  rw [List.getElem?_map, List.getElem?_map, addPhiInput, updateBlock, List.getElem?_modify]
  cases c.blocks[k]? <;> split <;> rfl

/-- An input goes to one of the phis with its register, if there is any. -/
theorem Machine.Code.exists_mem_addInput {phis : List Phi} {input x : Machine.Operand × Nat} :
    (∃ phi ∈ addInput dst input phis, phi.dst = v ∧ x ∈ phi.incoming) ↔
      (∃ phi ∈ phis, phi.dst = v ∧ x ∈ phi.incoming) ∨
        v = dst ∧ x = input ∧ ∃ phi ∈ phis, phi.dst = dst := by
  induction phis with
  | nil => simp [addInput]
  | cons phi phis ih =>
    rw [addInput]
    split
    next h =>
      subst h
      simp only [List.exists_mem_cons_iff, List.mem_append, List.mem_singleton, true_or, and_true]
      grind
    next h =>
      simp only [List.exists_mem_cons_iff, ih, h, false_or]
      grind

theorem Machine.Code.map_dst_addInput (dst : VReg) (input : Machine.Operand × Nat)
    (phis : List Phi) : (addInput dst input phis).map (·.dst) = phis.map (·.dst) := by
  induction phis with
  | nil => rfl
  | cons phi phis ih =>
    rw [addInput]
    split
    next => rfl
    next => rw [List.map_cons, ih, List.map_cons]

theorem isPhiOf_iff : IsPhiOf blocks d v ↔ v ∈ (phisAt blocks d).map (·.dst) := by
  simp [IsPhiOf]

theorem Machine.Code.isPhiOf_addPhiInput :
    IsPhiOf (c.addPhiInput succ dst value).blocks d v ↔ IsPhiOf c.blocks d v := by
  rw [isPhiOf_iff, phisAt_addPhiInput, isPhiOf_iff]
  split
  next => rw [map_dst_addInput]
  next => rfl

theorem Machine.Code.feeds_addPhiInput :
    Feeds (c.addPhiInput succ dst value).blocks b s v o ↔ Feeds c.blocks b s v o ∨
      (b = c.current ∧ s = succ ∧ v = dst ∧ o = value) ∧ IsPhiOf c.blocks succ dst := by
  rw [Feeds, phisAt_addPhiInput]
  split
  next h =>
    subst h
    rw [exists_mem_addInput, Prod.mk.injEq, Feeds, IsPhiOf]
    refine or_congr_right ⟨?_, ?_⟩
    · rintro ⟨hv, ⟨ho, hb⟩, hphi⟩
      exact ⟨⟨hb, rfl, hv, ho⟩, hphi⟩
    · rintro ⟨⟨hb, _, hv, ho⟩, hphi⟩
      exact ⟨hv, ⟨ho, hb⟩, hphi⟩
  next h =>
    rw [Feeds]
    exact ⟨Or.inl, fun h' ↦ h'.resolve_right fun h'' ↦ h h''.1.2.1.symm⟩

theorem Machine.Code.hands_addPhiInput (h : Hands (c.addPhiInput succ dst value).blocks b s v) :
    Hands c.blocks b s v ∨ b = c.current ∧ v ∈ value.vregs := by
  obtain ⟨dst', o, ho, hv⟩ := h.exists_feeds
  rcases feeds_addPhiInput.mp ho with ⟨phi, hphi, -, hin⟩ | ⟨⟨hb, -, -, rfl⟩, -⟩
  · exact Or.inl ⟨phi, hphi, o, hin, hv⟩
  · exact Or.inr ⟨hb, hv⟩

/-! ## What a block knows -/

/-- Register `v` holds the address of an alloca. -/
def Forest.HoldsAlloca (g : Forest) (v : VReg) : Prop :=
  ∃ k, (g.node k).op = .inst .alloca ∧ (g.node k).computed = true ∧ (g.node k).slot = .vreg v

/-- Other blocks supply `v` to block `b`, or it writes `v` itself. -/
def Knows (blocks : List Machine.Block) (g : Forest) (b : Nat) (v : VReg) : Prop :=
  Supplied blocks g.HoldsAlloca b v ∨ WritesIn blocks b v

/-- From one stage of selection to another the code and the forest only gain. -/
structure Persists (c : Code) (g : Forest) (c' : Code) (g' : Forest) : Prop where
  writes : ∀ b v, WritesIn c.blocks b v → WritesIn c'.blocks b v
  phis : ∀ d v, IsPhiOf c'.blocks d v ↔ IsPhiOf c.blocks d v
  feeds : ∀ b s v o, Feeds c.blocks b s v o → Feeds c'.blocks b s v o
  succs : c'.blocks.map (·.succs) = c.blocks.map (·.succs)
  vregs : c.vregs ≤ c'.vregs
  addresses : ∀ v, g.HoldsAlloca v → g'.HoldsAlloca v

theorem Persists.refl (c : Code) (g : Forest) : Persists c g c g :=
  ⟨fun _ _ h ↦ h, fun _ _ ↦ .rfl, fun _ _ _ _ h ↦ h, rfl, Nat.le_refl _, fun _ h ↦ h⟩

theorem Persists.trans (h : Persists c g c' g') (h' : Persists c' g' c'' g'') :
    Persists c g c'' g'' where
  writes b v hv := h'.writes b v (h.writes b v hv)
  phis d v := (h'.phis d v).trans (h.phis d v)
  feeds b s v o ho := h'.feeds b s v o (h.feeds b s v o ho)
  succs := h'.succs.trans h.succs
  vregs := Nat.le_trans h.vregs h'.vregs
  addresses v hv := h'.addresses v (h.addresses v hv)

theorem Persists.supplied (h : Persists c g c' g') (hv : Supplied c.blocks g.HoldsAlloca b v) :
    Supplied c'.blocks g'.HoldsAlloca b v := by
  rw [Supplied, blockGraph, h.succs]
  rcases hv with ⟨e, hne, hw, hdom⟩ | ⟨d, hphi, hdom⟩
  · exact Or.inl ⟨e, hne, h.writes e v hw, hdom.imp_right (h.addresses v)⟩
  · exact Or.inr ⟨d, (h.phis d v).mpr hphi, hdom⟩

theorem Persists.knows (h : Persists c g c' g') (hv : Knows c.blocks g b v) :
    Knows c'.blocks g' b v :=
  hv.imp h.supplied (h.writes b v)

/-- Nothing is lost by marking nodes. -/
theorem Forest.Progress.holdsAlloca {mine touched : NodeId → Prop} {held : NodeId → VReg → Prop}
    (h : g.Progress mine touched held g') (hv : g.HoldsAlloca v) : g'.HoldsAlloca v := by
  obtain ⟨k, hop, hcomputed, hslot⟩ := hv
  obtain ⟨hcomputed', hslot'⟩ := h.keeps k hcomputed
  exact ⟨k, (h.skeleton.op k).trans hop, hcomputed', hslot'.trans hslot⟩

theorem Persists.of_progress {mine touched : NodeId → Prop} {held : NodeId → VReg → Prop}
    (h : g.Progress mine touched held g') : Persists c g c g' :=
  { Persists.refl c g with addresses := fun _ ↦ h.holdsAlloca }

theorem Emits.instsAt_cases (h : Emits w w' is) (hcurrent : w.code.current < w.code.blocks.length)
    (b : Nat) : ∃ js, TreeCover.instsAt w'.code.blocks b = TreeCover.instsAt w.code.blocks b ++ js ∧
      (b = w.code.current ∧ js = is ∨ b ≠ w.code.current ∧ js = []) := by
  by_cases hb : b = w.code.current
  · exact ⟨is, hb ▸ h.instsAt hcurrent, Or.inl ⟨hb, rfl⟩⟩
  · exact ⟨[], by rw [h.instsAt_of_ne hb, List.append_nil], Or.inr ⟨hb, rfl⟩⟩

theorem Emits.writesIn_cases (h : Emits w w' is) (hcurrent : w.code.current < w.code.blocks.length)
    (hv : WritesIn w'.code.blocks b v) :
    WritesIn w.code.blocks b v ∨ b = w.code.current ∧ v ∈ defsOf is := by
  obtain ⟨i, hi, hv⟩ := hv
  obtain ⟨js, hjs, hcases⟩ := h.instsAt_cases hcurrent b
  rw [hjs] at hi
  rcases List.mem_append.mp hi with hi | hi
  · exact Or.inl ⟨i, hi, hv⟩
  · rcases hcases with ⟨hb, rfl⟩ | ⟨-, rfl⟩
    · exact Or.inr ⟨hb, mem_defsOf.mpr ⟨i, hi, hv⟩⟩
    · exact absurd hi List.not_mem_nil

theorem Emits.hands_iff (h : Emits w w' is) :
    Hands w'.code.blocks b s v ↔ Hands w.code.blocks b s v := by
  rw [Hands, h.phisAt, Hands]

theorem Persists.emits (h : Emits w w' is) (hcurrent : w.code.current < w.code.blocks.length)
    (haddresses : ∀ v, w.forest.HoldsAlloca v → w'.forest.HoldsAlloca v) :
    Persists w.code w.forest w'.code w'.forest where
  writes b v hv := by
    obtain ⟨i, hi, hv⟩ := hv
    refine ⟨i, ?_, hv⟩
    by_cases hb : b = w.code.current
    · rw [hb, h.instsAt hcurrent]
      exact List.mem_append_left _ (hb ▸ hi)
    · rwa [h.instsAt_of_ne hb]
  phis d v := by rw [IsPhiOf, h.phisAt, IsPhiOf]
  feeds b s v o ho := by rwa [Feeds, h.phisAt]
  succs := h.succs
  vregs := h.vregs
  addresses := haddresses

/-- A block knows what the blocks know that dominate it. -/
theorem Knows.of_dominates (h : Knows blocks g a v) (hdom : (blockGraph blocks).Dominates a b) :
    Knows blocks g b v := by
  rcases h with (⟨e, -, hw, he⟩ | ⟨d, hphi, hd⟩) | hw
  · by_cases heb : e = b
    · exact Or.inr (heb ▸ hw)
    · exact Or.inl (Or.inl ⟨e, heb, hw, he.imp_left fun he ↦ he.trans hdom⟩)
  · exact Or.inl (Or.inr ⟨d, hphi, hd.trans hdom⟩)
  · by_cases hab : a = b
    · exact Or.inr (hab ▸ hw)
    · exact Or.inl (Or.inl ⟨a, hab, hw, Or.inl hdom⟩)

/-- Every block knows the address of an alloca. -/
theorem Forest.HoldsAlloca.knows (h : g.HoldsAlloca v) (hw : WritesIn blocks a v) (b : Nat) :
    Knows blocks g b v := by
  by_cases hab : a = b
  · exact Or.inr (hab ▸ hw)
  · exact Or.inl (Or.inl ⟨a, hab, hw, Or.inr h⟩)

/-! ## Drafts -/

/-- The code `c` so far, which grew from the code `c₀` with the declared phis only. -/
structure Drafted (c₀ c : Code) (g : Forest) : Prop where
  reads : ∀ b k i, (instsAt c.blocks b)[k]? = some i → ∀ v ∈ i.uses,
    (∃ i' ∈ (instsAt c.blocks b).take k, v ∈ i'.defs) ∨ Supplied c.blocks g.HoldsAlloca b v
  feeds : ∀ b s v o, Feeds c.blocks b s v o → ∀ u ∈ o.vregs, Knows c.blocks g b u
  range : ∀ b v, WritesIn c.blocks b v → c₀.vregs ≤ v ∧ v < c.vregs
  block_unique : ∀ e e' v, WritesIn c.blocks e v → WritesIn c.blocks e' v → e = e'
  phis : ∀ d v, IsPhiOf c.blocks d v ↔ IsPhiOf c₀.blocks d v
  succs : c.blocks.map (·.succs) = c₀.blocks.map (·.succs)
  vregs : c₀.vregs ≤ c.vregs
  frame : c.frame.Addressed

/-- A draft of a forest in which more nodes are marked. -/
theorem Drafted.of_progress {mine touched : NodeId → Prop} {held : NodeId → VReg → Prop}
    (h : Drafted c₀ c g) (hprogress : g.Progress mine touched held g') : Drafted c₀ c g' :=
  have hpersists : Persists c g c g' := .of_progress hprogress
  { h with
    reads := fun b k i hi v hv ↦ (h.reads b k i hi v hv).imp_right hpersists.supplied
    feeds := fun b s v o ho u hu ↦ hpersists.knows (h.feeds b s v o ho u hu) }

theorem Persists.same (hsame : c.SameBodies c') (g : Forest) : Persists c g c' g where
  writes b v hv := by rwa [WritesIn, hsame.instsAt]
  phis d v := hsame.isPhiOf d v
  feeds b s v o ho := by rwa [Feeds, hsame.phisAt]
  succs := hsame.succs
  vregs := Nat.le_of_eq hsame.vregs.symm
  addresses _ hv := hv

/-- A draft with other labels. -/
theorem Drafted.same (h : Drafted c₀ c g) (hsame : c.SameBodies c') : Drafted c₀ c' g := by
  have hpersists := Persists.same hsame g
  have hwrites : ∀ b v, WritesIn c'.blocks b v ↔ WritesIn c.blocks b v :=
    fun b v ↦ by rw [WritesIn, hsame.instsAt, WritesIn]
  refine ⟨fun b k i hi v hv ↦ ?_, fun b s v o ho u hu ↦ ?_, fun b v hw ↦ ?_,
    fun e e' v he he' ↦ h.block_unique e e' v ((hwrites e v).mp he) ((hwrites e' v).mp he'),
    fun d v ↦ (hpersists.phis d v).trans (h.phis d v), hpersists.succs.trans h.succs,
    hsame.vregs ▸ h.vregs, hsame.frame ▸ h.frame⟩
  · rw [hsame.instsAt] at hi ⊢
    exact (h.reads b k i hi v hv).imp_right hpersists.supplied
  · rw [Feeds, hsame.phisAt] at ho
    exact hpersists.knows (h.feeds b s v o ho u hu)
  · rw [hsame.vregs]
    exact h.range b v ((hwrites b v).mp hw)

/-- Appending instructions that read what the current block knows. -/
theorem Drafted.emits (h : Drafted c₀ w.code w.forest) (hemits : Emits w w' is)
    (hcurrent : w.code.current < w.code.blocks.length)
    (haddresses : ∀ v, w.forest.HoldsAlloca v → w'.forest.HoldsAlloca v)
    (hreads : ReadsFrom (Knows w.code.blocks w.forest w.code.current) is)
    (hfresh : ∀ v ∈ defsOf is, w.code.vregs ≤ v ∧ v < w'.code.vregs) :
    Drafted c₀ w'.code w'.forest := by
  have hpersists := Persists.emits hemits hcurrent haddresses
  have hwrites : ∀ b v, WritesIn w'.code.blocks b v →
      WritesIn w.code.blocks b v ∨ b = w.code.current ∧ v ∈ defsOf is :=
    fun b v hv ↦ hemits.writesIn_cases hcurrent hv
  refine ⟨fun b k i hi v hv ↦ ?_, fun b s v o ho u hu ↦ ?_, fun b v hw ↦ ?_,
    fun e e' v he he' ↦ ?_, fun d v ↦ (hpersists.phis d v).trans (h.phis d v),
    hemits.succs.trans h.succs, Nat.le_trans h.vregs hemits.vregs, h.frame.extends hemits.frame⟩
  · by_cases hb : b = w.code.current
    · subst hb
      rw [hemits.instsAt hcurrent] at hi ⊢
      rcases Nat.lt_or_ge k (instsAt w.code.blocks w.code.current).length with hlt | hge
      · rw [List.getElem?_append_left hlt] at hi
        rw [List.take_append_of_le_length (Nat.le_of_lt hlt)]
        exact (h.reads _ k i hi v hv).imp_right hpersists.supplied
      · rw [List.getElem?_append_right hge] at hi
        rw [List.take_append, List.take_of_length_le hge]
        rcases hreads.getElem hi hv with (hsupplied | ⟨i', hi', hdef⟩) | ⟨i', hi', hdef⟩
        · exact Or.inr (hpersists.supplied hsupplied)
        · exact Or.inl ⟨i', List.mem_append_left _ hi', hdef⟩
        · exact Or.inl ⟨i', List.mem_append_right _ hi', hdef⟩
    · rw [hemits.instsAt_of_ne hb] at hi ⊢
      exact (h.reads b k i hi v hv).imp_right hpersists.supplied
  · rw [Feeds, hemits.phisAt] at ho
    exact hpersists.knows (h.feeds b s v o ho u hu)
  · rcases hwrites b v hw with hw | ⟨-, hv⟩
    · exact ⟨(h.range b v hw).1, Nat.lt_of_lt_of_le (h.range b v hw).2 hemits.vregs⟩
    · exact ⟨Nat.le_trans h.vregs (hfresh v hv).1, (hfresh v hv).2⟩
  · rcases hwrites e v he with he | ⟨rfl, hv⟩ <;> rcases hwrites e' v he' with he' | ⟨rfl, hv'⟩
    · exact h.block_unique e e' v he he'
    · exact absurd (h.range e v he).2 (Nat.not_lt.mpr (hfresh v hv').1)
    · exact absurd (h.range e' v he').2 (Nat.not_lt.mpr (hfresh v hv).1)
    · rfl

theorem Persists.addPhiInput (c : Code) (g : Forest) (succ : Nat) (dst : VReg)
    (value : Machine.Operand) : Persists c g (c.addPhiInput succ dst value) g where
  writes b v hv := by rwa [WritesIn, Code.instsAt_addPhiInput]
  phis d v := Code.isPhiOf_addPhiInput
  feeds b s v o ho := Code.feeds_addPhiInput.mpr (Or.inl ho)
  succs := Code.succs_addPhiInput c succ dst value
  vregs := Nat.le_refl _
  addresses _ hv := hv

/-- Handing an operand that the current block knows to a phi. -/
theorem Drafted.addPhiInput (h : Drafted c₀ c g)
    (hvalue : ∀ u ∈ value.vregs, Knows c.blocks g c.current u) :
    Drafted c₀ (c.addPhiInput succ dst value) g := by
  have hpersists := Persists.addPhiInput c g succ dst value
  have hwrites : ∀ b v, WritesIn (c.addPhiInput succ dst value).blocks b v ↔
      WritesIn c.blocks b v := fun b v ↦ by rw [WritesIn, Code.instsAt_addPhiInput, WritesIn]
  refine ⟨fun b k i hi v hv ↦ ?_, fun b s v o ho u hu ↦ ?_,
    fun b v hw ↦ h.range b v ((hwrites b v).mp hw),
    fun e e' v he he' ↦ h.block_unique e e' v ((hwrites e v).mp he) ((hwrites e' v).mp he'),
    fun d v ↦ (hpersists.phis d v).trans (h.phis d v), hpersists.succs.trans h.succs, h.vregs,
    h.frame⟩
  · rw [Code.instsAt_addPhiInput] at hi ⊢
    exact (h.reads b k i hi v hv).imp_right hpersists.supplied
  · rcases Code.feeds_addPhiInput.mp ho with ho | ⟨⟨rfl, -, -, rfl⟩, -⟩
    · exact hpersists.knows (h.feeds b s v o ho u hu)
    · exact hpersists.knows (hvalue u hu)

end TreeCover
