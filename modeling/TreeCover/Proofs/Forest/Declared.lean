import TreeCover.Compile
import TreeCover.Proofs.Lists
import TreeCover.Proofs.Forest.Trees
import TreeCover.Proofs.Ir.Numbering
import TreeCover.Proofs.Liveness.Definedness

/-!
# The forest of a function

Before any block is built, every argument gets its node, every phi its register and the node of that
register, and every block that is named its label. Then the blocks are built in turn. What results is
a forest of shaped nodes, a list of roots for each block, and code without instructions, in which
each phi has a register of its own.
-/

namespace TreeCover

open Ir Machine Work

variable {f : Func} {w w' : Workspace} {a : Code} {k : NodeId} {b b' d : BlockId} {id next : InstId}
  {i : ResolvedInst} {u v : VReg} {trees : List (List NodeId)}

/-! ## Code without instructions -/

namespace Machine.Code

theorem getElem?_declarePhi (a : Code) (b k : Nat) (v : VReg) :
    (a.declarePhi b v).blocks[k]? = a.blocks[k]?.map fun block ↦
      if b = k then { block with phis := block.phis ++ [⟨v, []⟩] } else block := by
  rw [declarePhi, updateBlock, List.getElem?_modify]
  split
  · rfl
  · simp

theorem instsAt_declarePhi (a : Code) (b k : Nat) (v : VReg) :
    instsAt (a.declarePhi b v).blocks k = instsAt a.blocks k := by
  rw [instsAt, getElem?_declarePhi, instsAt]
  cases a.blocks[k]? with
  | none => rfl
  | some block =>
    simp only [Option.map_some]
    split <;> rfl

theorem phisAt_declarePhi (a : Code) (b k : Nat) (v : VReg) (hb : b < a.blocks.length) :
    phisAt (a.declarePhi b v).blocks k
      = if b = k then phisAt a.blocks k ++ [⟨v, []⟩] else phisAt a.blocks k := by
  rw [phisAt, getElem?_declarePhi, phisAt]
  split
  next h =>
    subst h
    rw [List.getElem?_eq_getElem hb]
    rfl
  next => simp

theorem succs_declarePhi (a : Code) (b : Nat) (v : VReg) :
    (a.declarePhi b v).blocks.map (·.succs) = a.blocks.map (·.succs) := by
  refine List.ext_getElem? fun k ↦ ?_
  rw [List.getElem?_map, getElem?_declarePhi, List.getElem?_map]
  cases a.blocks[k]? with
  | none => rfl
  | some block =>
    simp only [Option.map_some]
    split <;> rfl

theorem isPhiOf_declarePhi (hb : b < a.blocks.length) :
    IsPhiOf (a.declarePhi b v).blocks d u ↔ IsPhiOf a.blocks d u ∨ d = b ∧ u = v := by
  rw [IsPhiOf, phisAt_declarePhi a b d v hb, IsPhiOf]
  split
  next h =>
    subst h
    simp [or_and_right, exists_or, eq_comm]
  next h => simp [Ne.symm h]

end Machine.Code

/-! ## Declared phis -/

/-- Code without instructions, in which phis have registers of their own. -/
structure Blank (f : Func) (a : Code) : Prop where
  succs : a.blocks.map (·.succs) = f.succs
  insts : ∀ b, instsAt a.blocks b = []
  inputs : ∀ b, ∀ phi ∈ phisAt a.blocks b, phi.incoming = []
  bound : ∀ b v, IsPhiOf a.blocks b v → v < a.vregs
  nodup : ∀ b, ((phisAt a.blocks b).map (·.dst)).Nodup
  unique : ∀ d d' v, IsPhiOf a.blocks d v → IsPhiOf a.blocks d' v → d = d'
  frame : a.frame = {}

theorem Blank.length (h : Blank f a) : a.blocks.length = f.blocks.length := by
  have hlength := congrArg List.length h.succs
  simpa [Func.succs] using hlength

theorem Blank.declarePhi (h : Blank f a) (hb : b < f.blocks.length) :
    Blank f (a.freshVReg.2.declarePhi b a.vregs) := by
  have hb' : b < a.freshVReg.2.blocks.length := h.length ▸ hb
  refine ⟨(Code.succs_declarePhi _ b _).trans h.succs, fun k ↦ ?_, fun k phi hphi ↦ ?_,
    fun d v hphi ↦ ?_, fun k ↦ ?_, fun d d' v hd hd' ↦ ?_, h.frame⟩
  · rw [Code.instsAt_declarePhi]
    exact h.insts k
  · rw [Code.phisAt_declarePhi _ _ _ _ hb'] at hphi
    split at hphi
    · rcases List.mem_append.mp hphi with hphi | hphi
      · exact h.inputs k phi hphi
      · rw [List.mem_singleton.mp hphi]
    · exact h.inputs k phi hphi
  · rcases (Code.isPhiOf_declarePhi hb').mp hphi with hphi | ⟨-, rfl⟩
    · exact Nat.lt_succ_of_lt (h.bound d v hphi)
    · exact Nat.lt_succ_self _
  · rw [Code.phisAt_declarePhi _ _ _ _ hb']
    split
    · rw [List.map_append, List.map_singleton]
      refine List.nodup_append.mpr ⟨h.nodup k, List.nodup_singleton _, fun v hv u hu ↦ ?_⟩
      rw [List.mem_singleton.mp hu]
      obtain ⟨phi, hphi, rfl⟩ := List.mem_map.mp hv
      exact Nat.ne_of_lt (h.bound k _ ⟨phi, hphi, rfl⟩)
    · exact h.nodup k
  · rcases (Code.isPhiOf_declarePhi hb').mp hd with hold | ⟨hd, hv⟩ <;>
      rcases (Code.isPhiOf_declarePhi hb').mp hd' with hold' | ⟨hd', hv'⟩
    · exact h.unique d d' v hold hold'
    · exact absurd (h.bound d v hold) (hv' ▸ Nat.lt_irrefl _)
    · exact absurd (h.bound d' v hold') (hv ▸ Nat.lt_irrefl _)
    · rw [hd, hd']

/-- What a workspace knows of the phis of `f`, of which those before instruction `next` are declared. -/
structure Declaring (f : Func) (next : InstId) (w : Workspace) : Prop where
  nodes : ∀ k < w.forest.size,
    (∃ idx p, f.params[idx]? = some p ∧ w.Is k (.ofArgument idx p.ty)) ∨
      ∃ b id i v, (id, i) ∈ f.blockPhis b ∧ w.Is k (.ofPhi b id i v) ∧ v < w.code.vregs
  values : ∀ v k, w.defs.values.lookup v = some k →
    ∃ idx p, v = .arg idx ∧ f.params[idx]? = some p ∧ w.Is k (.ofArgument idx p.ty)
  labels : w.defs.labels = []
  blank : Blank f w.code
  table : ∀ id k, w.defs.phis.lookup id = some k → id < next ∧
    ∃ b i v, (id, i) ∈ f.blockPhis b ∧ w.Is k (.ofPhi b id i v) ∧ IsPhiOf w.code.blocks b v
  source : ∀ b v, IsPhiOf w.code.blocks b v → ∃ id i k, (id, i) ∈ f.blockPhis b ∧
    w.defs.phis.lookup id = some k ∧ w.Is k (.ofPhi b id i v)

theorem Declaring.mono {next' : InstId} (h : Declaring f next w) (hle : next ≤ next') :
    Declaring f next' w :=
  { h with table := fun id k hk ↦ ⟨Nat.lt_of_lt_of_le (h.table id k hk).1 hle, (h.table id k hk).2⟩ }

theorem Workspace.Is.grows_forest {n : Node} (h : w.Is k n)
    (hgrows : w.forest.Grows w'.forest) : w'.Is k n :=
  ⟨Nat.lt_of_lt_of_le h.1 hgrows.size, (hgrows.core k h.1).trans h.2⟩

/-- Declaring one more phi. -/
theorem Declaring.phi {n : Node} (h : Declaring f next w) (hi : (id, i) ∈ f.blockPhis b)
    (hnext : next ≤ id) (hcode : w'.code = w.code.freshVReg.2.declarePhi b w.code.vregs)
    (hforest : w'.forest = (w.forest.push n).2) (hcore : n.core = .ofPhi b id i w.code.vregs)
    (hdefs : w'.defs = { w.defs with phis := (id, w.forest.size) :: w.defs.phis }) :
    Declaring f (id + 1) w' := by
  have hgrows : w.forest.Grows w'.forest := hforest ▸ w.forest.grows_push n
  have hself : w'.Is w.forest.size (.ofPhi b id i w.code.vregs) := by
    rw [Workspace.Is, hforest, Forest.size_push, Forest.node_push_self]
    exact ⟨Nat.lt_succ_self _, hcore⟩
  have hb : b < f.blocks.length := by
    obtain ⟨block, _, hb, -⟩ := Func.mem_blockPhis.mp hi
    exact (List.getElem?_eq_some_iff.mp hb).1
  have hphis : ∀ d u, IsPhiOf w'.code.blocks d u ↔
      IsPhiOf w.code.blocks d u ∨ d = b ∧ u = w.code.vregs := by
    intro d u
    rw [hcode]
    exact Code.isPhiOf_declarePhi (h.blank.length ▸ hb)
  have hlookup : ∀ id', w'.defs.phis.lookup id' =
      if id' = id then some w.forest.size else w.defs.phis.lookup id' := by
    intro id'
    rw [hdefs, List.lookup_cons]
    by_cases heq : id' = id
    · simp [heq]
    · simp [heq, beq_false_of_ne heq]
  refine ⟨fun k hk ↦ ?_, fun v k hk ↦ ?_, by rw [hdefs]; exact h.labels,
    hcode ▸ h.blank.declarePhi hb, fun id' k hk ↦ ?_, fun d v hphi ↦ ?_⟩
  · by_cases hlt : k < w.forest.size
    · rcases h.nodes k hlt with ⟨idx, p, hp, his⟩ | ⟨b', id', i', v, hi', his, hv⟩
      · exact Or.inl ⟨idx, p, hp, his.grows_forest hgrows⟩
      · exact Or.inr ⟨b', id', i', v, hi', his.grows_forest hgrows, hcode ▸ Nat.lt_succ_of_lt hv⟩
    · rw [hforest, Forest.size_push] at hk
      obtain rfl := Nat.le_antisymm (Nat.le_of_lt_succ hk) (Nat.le_of_not_lt hlt)
      exact Or.inr ⟨b, id, i, _, hi, hself, hcode ▸ Nat.lt_succ_self _⟩
  · rw [hdefs] at hk
    obtain ⟨idx, p, hv, hp, his⟩ := h.values v k hk
    exact ⟨idx, p, hv, hp, his.grows_forest hgrows⟩
  · rw [hlookup] at hk
    split at hk
    next heq =>
      obtain rfl := Option.some.inj hk
      subst heq
      exact ⟨Nat.lt_succ_self _, b, i, _, hi, hself, (hphis b _).mpr (Or.inr ⟨rfl, rfl⟩)⟩
    next =>
      obtain ⟨hlt, b', i', v, hi', his, hphi⟩ := h.table id' k hk
      exact ⟨Nat.lt_succ_of_lt (Nat.lt_of_lt_of_le hlt hnext), b', i', v, hi',
        his.grows_forest hgrows, (hphis b' v).mpr (Or.inl hphi)⟩
  · rcases (hphis d v).mp hphi with hphi | ⟨rfl, rfl⟩
    · obtain ⟨id', i', k, hi', hk, his⟩ := h.source d v hphi
      refine ⟨id', i', k, hi', ?_, his.grows_forest hgrows⟩
      rw [hlookup, if_neg, hk]
      rintro rfl
      exact Nat.not_lt.mpr hnext (h.table id' k hk).1
    · exact ⟨id, i, w.forest.size, hi, by rw [hlookup, if_pos rfl], hself⟩

/-- One more argument. -/
theorem Declaring.argument {n : Node} {idx : Nat} {p : Param} (h : Declaring f next w)
    (hp : f.params[idx]? = some p) (hcode : w'.code = w.code)
    (hforest : w'.forest = (w.forest.push n).2) (hcore : n.core = .ofArgument idx p.ty)
    (hdefs : w'.defs = { w.defs with values := (.arg idx, w.forest.size) :: w.defs.values }) :
    Declaring f next w' := by
  have hgrows : w.forest.Grows w'.forest := hforest ▸ w.forest.grows_push n
  have hself : w'.Is w.forest.size (.ofArgument idx p.ty) := by
    rw [Workspace.Is, hforest, Forest.size_push, Forest.node_push_self]
    exact ⟨Nat.lt_succ_self _, hcore⟩
  refine ⟨fun k hk ↦ ?_, fun v k hk ↦ ?_, by rw [hdefs]; exact h.labels, hcode ▸ h.blank,
    fun id k hk ↦ ?_, fun d v hphi ↦ ?_⟩
  · by_cases hlt : k < w.forest.size
    · rcases h.nodes k hlt with ⟨idx', p', hp', his⟩ | ⟨b, id, i, v, hi, his, hv⟩
      · exact Or.inl ⟨idx', p', hp', his.grows_forest hgrows⟩
      · exact Or.inr ⟨b, id, i, v, hi, his.grows_forest hgrows, hcode ▸ hv⟩
    · rw [hforest, Forest.size_push] at hk
      obtain rfl := Nat.le_antisymm (Nat.le_of_lt_succ hk) (Nat.le_of_not_lt hlt)
      exact Or.inl ⟨idx, p, hp, hself⟩
  · rw [hdefs, List.lookup_cons] at hk
    split at hk
    next heq =>
      obtain rfl := Option.some.inj hk
      exact ⟨idx, p, eq_of_beq heq, hp, hself⟩
    next =>
      obtain ⟨idx', p', hv, hp', his⟩ := h.values v k hk
      exact ⟨idx', p', hv, hp', his.grows_forest hgrows⟩
  · rw [hdefs] at hk
    obtain ⟨hlt, b, i, v, hi, his, hphi⟩ := h.table id k hk
    exact ⟨hlt, b, i, v, hi, his.grows_forest hgrows, hcode ▸ hphi⟩
  · obtain ⟨id, i, k, hi, hk, his⟩ := h.source d v (hcode ▸ hphi)
    exact ⟨id, i, k, hi, by rw [hdefs]; exact hk, his.grows_forest hgrows⟩

theorem start_empty (f : Func) (k : Nat) :
    instsAt (Code.start f.name f.succs).blocks k = [] ∧
      phisAt (Code.start f.name f.succs).blocks k = [] := by
  rw [instsAt, phisAt, Code.start, List.getElem?_mapIdx]
  cases f.succs[k]? <;> exact ⟨rfl, rfl⟩

theorem not_isPhiOf_start (f : Func) (k : Nat) (v : VReg) :
    ¬ IsPhiOf (Code.start f.name f.succs).blocks k v := by
  rintro ⟨phi, hphi, -⟩
  rw [(start_empty f k).2] at hphi
  exact absurd hphi List.not_mem_nil

theorem blank_start (f : Func) : Blank f (.start f.name f.succs) where
  succs := by
    refine List.ext_getElem? fun k ↦ ?_
    rw [Code.start, List.getElem?_map, List.getElem?_mapIdx, Option.map_map]
    exact Option.map_id'
  insts k := (start_empty f k).1
  inputs k phi hphi := by
    rw [(start_empty f k).2] at hphi
    exact absurd hphi List.not_mem_nil
  bound k v hphi := absurd hphi (not_isPhiOf_start f k v)
  nodup k := by
    rw [(start_empty f k).2]
    exact .nil
  unique k _ v hphi := absurd hphi (not_isPhiOf_start f k v)
  frame := rfl

theorem declaring_start (f : Func) (s : Session) : Declaring f 0 (.start f s) where
  nodes k hk := absurd hk (Nat.not_lt_zero k)
  values v k hk := absurd hk (by simp [Workspace.start])
  labels := rfl
  blank := blank_start f
  table id k hk := absurd hk (by simp [Workspace.start])
  source b v hphi := absurd hphi (not_isPhiOf_start f b v)

theorem defineArguments_declares {s : Session} {x : Unit}
    (hx : defineArguments f (.start f s) = .ok x w) : Declaring f 0 w := by
  refine forM_induct hx (declaring_start f s) fun (p, idx) hp t _ t' ht hstep ↦ ?_
  simp only [push, defineValue, modifyDefs, bind_eq_ok, modifyGet_eq_ok, modify_eq_ok] at hstep
  obtain ⟨_, _, ⟨rfl, rfl⟩, rfl⟩ := hstep
  exact ht.argument (List.mem_zipIdx_iff_getElem?.mp hp) rfl rfl rfl rfl

/-- The phi `phi` of the code stands for the phi `x` of block `b`. -/
def StandsFor (b : BlockId) (w : Workspace) (x : InstId × ResolvedInst) (phi : Machine.Phi) : Prop :=
  ∃ k, w.defs.phis.lookup x.1 = some k ∧ w.Is k (.ofPhi b x.1 x.2 phi.dst)

/-- The work on one phi. -/
theorem declarePhi_declares {x : Unit} (h : Declaring f next w) (hi : (id, i) ∈ f.blockPhis b)
    (hnext : next ≤ id) (hx : (do
      let v ← freshVReg
      modifyCode (·.declarePhi b v)
      let id' ← push
        { op := .phiDef, width := i.ty.bits, slot := .vreg v, computed := true
          roles := { register := true, phi := true }, source := some id, block := some b }
      modifyDefs fun d ↦ { d with phis := (id, id') :: d.phis } : Work Unit) w = .ok x w') :
    Declaring f (id + 1) w' ∧ (∃ phi, StandsFor b w' (id, i) phi ∧ ∀ d, phisAt w'.code.blocks d =
        if b = d then phisAt w.code.blocks d ++ [phi] else phisAt w.code.blocks d) ∧
      ∀ d x phi, StandsFor d w x phi → StandsFor d w' x phi := by
  simp only [freshVReg, modifyCode, push, modifyDefs, bind_eq_ok, modifyGet_eq_ok,
    modify_eq_ok] at hx
  obtain ⟨_, _, ⟨rfl, rfl⟩, _, _, rfl, _, _, ⟨rfl, rfl⟩, rfl⟩ := hx
  have hb : b < w.code.blocks.length := by
    obtain ⟨block, _, hb, -⟩ := Func.mem_blockPhis.mp hi
    exact h.blank.length ▸ (List.getElem?_eq_some_iff.mp hb).1
  refine ⟨h.phi hi hnext rfl rfl rfl rfl, ⟨⟨w.code.vregs, []⟩, ⟨w.forest.size, ?_, ?_⟩,
    fun d ↦ Code.phisAt_declarePhi w.code.freshVReg.2 b d w.code.vregs hb⟩,
    fun d x phi hstands ↦ ?_⟩
  · rw [List.lookup_cons, beq_self_eq_true]
    rfl
  · rw [Workspace.Is, Forest.size_push, Forest.node_push_self]
    exact ⟨Nat.lt_succ_self _, rfl⟩
  · obtain ⟨k, hk, his⟩ := hstands
    refine ⟨k, ?_, his.grows_forest (w.forest.grows_push _)⟩
    have hne : x.1 ≠ id := Nat.ne_of_lt (Nat.lt_of_lt_of_le (h.table _ k hk).1 hnext)
    rw [List.lookup_cons, beq_false_of_ne hne]
    exact hk

/-- The phis of block `b`. -/
theorem declareBlock_declares {xs : List (InstId × ResolvedInst)} {x : Unit}
    (limit : InstId) (h : Declaring f next w) (hxs : ∀ p ∈ xs, p ∈ f.blockPhis b)
    (hsorted : xs.Pairwise (·.1 < ·.1)) (hlower : ∀ p ∈ xs, next ≤ p.1)
    (hupper : ∀ p ∈ xs, p.1 < limit) (hle : next ≤ limit)
    (hx : (xs.forM fun (phi, inst) ↦ do
      let v ← freshVReg
      modifyCode (·.declarePhi b v)
      let id ← push
        { op := .phiDef, width := inst.ty.bits, slot := .vreg v, computed := true
          roles := { register := true, phi := true }, source := some phi, block := some b }
      modifyDefs fun d ↦ { d with phis := (phi, id) :: d.phis } : Work Unit) w = .ok x w') :
    Declaring f limit w' ∧ (∃ phis, List.Forall₂ (StandsFor b w') xs phis ∧
        ∀ d, phisAt w'.code.blocks d =
          if b = d then phisAt w.code.blocks d ++ phis else phisAt w.code.blocks d) ∧
      ∀ d x phi, StandsFor d w x phi → StandsFor d w' x phi := by
  induction xs generalizing w next with
  | nil =>
    obtain ⟨-, rfl⟩ := pure_eq_ok.mp hx
    exact ⟨h.mono hle, ⟨[], .nil, fun d ↦ by rw [List.append_nil, ite_self]⟩, fun _ _ _ hx ↦ hx⟩
  | cons p xs ih =>
    obtain ⟨_, w₁, hp, hxs'⟩ := bind_eq_ok.mp hx
    obtain ⟨hmem, hrest⟩ := List.forall_mem_cons.mp hxs
    obtain ⟨hfirst, hsorted⟩ := List.pairwise_cons.mp hsorted
    obtain ⟨hdeclares, ⟨phi, hphi, hone⟩, hkept⟩ :=
      declarePhi_declares h hmem (hlower p List.mem_cons_self) hp
    obtain ⟨hdeclares', ⟨phis, hphis, hmore⟩, hkept'⟩ := ih hdeclares hrest hsorted hfirst
      (fun q hq ↦ hupper q (List.mem_cons_of_mem p hq)) (hupper p List.mem_cons_self) hxs'
    refine ⟨hdeclares', ⟨phi :: phis, .cons (hkept' _ _ _ hphi) hphis, fun d ↦ ?_⟩,
      fun d x phi hx ↦ hkept' d x phi (hkept d x phi hx)⟩
    rw [hmore, hone]
    split
    · rw [List.append_assoc, List.singleton_append]
    · rfl

theorem Ir.Func.blockPhis_sorted (f : Func) (b : BlockId) :
    (f.blockPhis b).Pairwise (·.1 < ·.1) := by
  rw [Func.blockPhis]
  split
  · refine List.pairwise_iff_getElem.mpr fun j k hj hk hjk ↦ ?_
    simp only [List.getElem_mapIdx]
    exact Nat.add_lt_add_left hjk _
  · exact .nil

/-- The number of a phi lies within its block. -/
theorem Ir.Func.blockPhis_bounds (hb : b < f.blocks.length) (hi : (id, i) ∈ f.blockPhis b) :
    f.firstInst b ≤ id ∧ id < f.firstInst (b + 1) := by
  obtain ⟨block, k, hblock, hk, rfl⟩ := Func.mem_blockInsts.mp (Func.mem_blockInsts_of_phi hi).1
  obtain ⟨_, rfl⟩ := List.getElem?_eq_some_iff.mp hblock
  rw [f.firstInst_succ hb]
  exact ⟨Nat.le_add_right _ _, Nat.add_lt_add_left (List.getElem?_eq_some_iff.mp hk).1 _⟩

/-- All phis, in order. -/
theorem declarePhis_declares {x : Unit} (h : Declaring f 0 w) (hx : declarePhis f w = .ok x w') :
    Declaring f (f.firstInst f.blocks.length) w' ∧
      ∀ b, List.Forall₂ (StandsFor b w') (f.blockPhis b) (phisAt w'.code.blocks b) := by
  have hnone : ∀ b, phisAt w.code.blocks b = [] := by
    refine fun b ↦ List.eq_nil_iff_forall_not_mem.mpr fun phi hphi ↦ ?_
    obtain ⟨id, _, k, -, hk, -⟩ := h.source b phi.dst ⟨phi, hphi, rfl⟩
    exact Nat.not_lt_zero id (h.table id k hk).1
  have hall := forM_induct_idx (P := fun b t ↦ Declaring f (f.firstInst b) t ∧
    (∀ b' < b, List.Forall₂ (StandsFor b' t) (f.blockPhis b') (phisAt t.code.blocks b')) ∧
      ∀ b', b ≤ b' → phisAt t.code.blocks b' = []) hx
    ⟨h, fun b' hb' ↦ absurd hb' (Nat.not_lt_zero b'), fun b' _ ↦ hnone b'⟩
    fun b x hb t _ t' ht hstep ↦ ?_
  · rw [List.length_range] at hall
    refine ⟨hall.1, fun b ↦ ?_⟩
    rcases Nat.lt_or_ge b f.blocks.length with hb | hb
    · exact hall.2.1 b hb
    · have hphis : f.blockPhis b = [] := by rw [Func.blockPhis, List.getElem?_eq_none hb]
      rw [hphis, hall.2.2 b hb]
      exact .nil
  · obtain ⟨hlt, rfl⟩ := List.getElem?_eq_some_iff.mp hb
    rw [List.getElem_range] at hstep
    rw [List.length_range] at hlt
    obtain ⟨hdeclares, ⟨phis, hphis, hmore⟩, hkept⟩ := declareBlock_declares (f.firstInst (b + 1)) ht.1
      (fun _ hp ↦ hp) (f.blockPhis_sorted b) (fun p hp ↦ (Func.blockPhis_bounds hlt hp).1)
      (fun p hp ↦ (Func.blockPhis_bounds hlt hp).2)
      (f.firstInst_succ hlt ▸ Nat.le_add_right _ _) hstep
    refine ⟨hdeclares, fun b' hb' ↦ ?_, fun b' hb' ↦ ?_⟩
    · rcases Nat.eq_or_lt_of_le (Nat.le_of_lt_succ hb') with rfl | hb'
      · rw [hmore, if_pos rfl, ht.2.2 _ (Nat.le_refl _), List.nil_append]
        exact hphis
      · rw [hmore, if_neg (Nat.ne_of_gt hb')]
        exact (ht.2.1 b' hb').imp fun x phi ↦ hkept b' x phi
    · rw [hmore, if_neg (Nat.ne_of_lt hb')]
      exact ht.2.2 b' (Nat.le_of_succ_le hb')

/-! ## Declared functions -/

/-- What the code and the forest of `f` know of its phis. -/
structure Declared (f : Func) (w : Workspace) : Prop where
  blank : Blank f w.code
  phis : ∀ b, List.Forall₂ (StandsFor b w) (f.blockPhis b) (phisAt w.code.blocks b)
  register : ∀ b, ∀ p ∈ f.blockPhis b, ∃ k v, w.defs.phis.lookup p.1 = some k ∧
    w.Is k (.ofPhi b p.1 p.2 v) ∧ IsPhiOf w.code.blocks b v
  source : ∀ b v, IsPhiOf w.code.blocks b v → ∃ p ∈ f.blockPhis b, ∃ k,
    w.defs.phis.lookup p.1 = some k ∧ w.Is k (.ofPhi b p.1 p.2 v)

/-- Once all phis are declared, building can go on. -/
theorem Declaring.builds (h : Declaring f next w)
    (hall : ∀ b, List.Forall₂ (StandsFor b w) (f.blockPhis b) (phisAt w.code.blocks b)) :
    w.Building f ∧ Declared f w ∧ ∀ k < w.forest.size, ∀ o, (w.forest.node k).op ≠ .inst o := by
  have hnode : ∀ k < w.forest.size, w.Shape f k ∧ (w.forest.node k).kids = [] ∧
      (w.forest.node k).op ≠ .phiMove ∧ ∀ o, (w.forest.node k).op ≠ .inst o := by
    intro k hk
    rcases h.nodes k hk with ⟨idx, p, hp, his⟩ | ⟨b, id, i, v, hi, his, hv⟩
    · exact ⟨.argument hp his, Node.kids_of_core his.2, by rw [Node.op_of_core his.2]; exact NodeOp.noConfusion,
        by rw [Node.op_of_core his.2]; exact fun _ ↦ NodeOp.noConfusion⟩
    · exact ⟨.phi hi his hv, Node.kids_of_core his.2, by rw [Node.op_of_core his.2]; exact NodeOp.noConfusion,
        by rw [Node.op_of_core his.2]; exact fun _ ↦ NodeOp.noConfusion⟩
  refine ⟨⟨fun k hk ↦ ?_, fun v k hk ↦ ?_, fun b k hk ↦ ?_, fun id k hk ↦ ?_⟩,
    ⟨h.blank, hall, fun b p hp ↦ ?_, fun b v hphi ↦ ?_⟩, fun k hk ↦ (hnode k hk).2.2.2⟩
  · obtain ⟨hshape, hkids, hmove, hinst⟩ := hnode k hk
    refine ⟨hshape, fun c hc ↦ ?_, fun hop ↦ absurd hop hmove, fun id ⟨_, ⟨o, ho⟩, _⟩ ↦ ?_⟩
    · rw [hkids] at hc
      exact absurd hc List.not_mem_nil
    · exact absurd ho (hinst o)
  · obtain ⟨idx, p, rfl, hp, his⟩ := h.values v k hk
    exact .arg hp his
  · rw [h.labels] at hk
    exact absurd hk (by simp)
  · obtain ⟨-, b, i, v, -, his, -⟩ := h.table id k hk
    exact ⟨b, i, v, his⟩
  · obtain ⟨phi, hphi, k, hk, his⟩ := exists_of_forall₂ (hall b).flip hp
    exact ⟨k, phi.dst, hk, his, phi, hphi, rfl⟩
  · obtain ⟨id, i, k, hi, hk, his⟩ := h.source b v hphi
    exact ⟨(id, i), hi, k, hk, his⟩

namespace Machine.Code.SameBodies

variable {a' : Code} (h : a.SameBodies a')
include h

theorem getElem? (b : Nat) :
    a'.blocks[b]?.map Machine.Block.body = a.blocks[b]?.map Machine.Block.body := by
  rw [← List.getElem?_map, h.blocks, List.getElem?_map]

theorem instsAt (b : Nat) : TreeCover.instsAt a'.blocks b = TreeCover.instsAt a.blocks b := by
  have hb := congrArg (fun o : Option Machine.Block ↦ (o.map (·.insts)).getD []) (h.getElem? b)
  simp only [Option.map_map] at hb
  exact hb

theorem phisAt (b : Nat) : TreeCover.phisAt a'.blocks b = TreeCover.phisAt a.blocks b := by
  have hb := congrArg (fun o : Option Machine.Block ↦ (o.map (·.phis)).getD []) (h.getElem? b)
  simp only [Option.map_map] at hb
  exact hb

theorem isPhiOf (b : Nat) (v : VReg) : IsPhiOf a'.blocks b v ↔ IsPhiOf a.blocks b v := by
  rw [IsPhiOf, h.phisAt, IsPhiOf]

theorem succs : a'.blocks.map (·.succs) = a.blocks.map (·.succs) := by
  have hblocks := congrArg (List.map (·.succs)) h.blocks
  simp only [List.map_map] at hblocks
  exact hblocks

end Machine.Code.SameBodies

theorem Blank.same {a' : Code} (h : Blank f a) (hsame : a.SameBodies a') : Blank f a' where
  succs := hsame.succs.trans h.succs
  insts b := (hsame.instsAt b).trans (h.insts b)
  inputs b phi hphi := h.inputs b phi (hsame.phisAt b ▸ hphi)
  bound b v hphi := hsame.vregs ▸ h.bound b v ((hsame.isPhiOf b v).mp hphi)
  nodup b := hsame.phisAt b ▸ h.nodup b
  unique d d' v hd hd' := h.unique d d' v ((hsame.isPhiOf d v).mp hd) ((hsame.isPhiOf d' v).mp hd')
  frame := hsame.frame.trans h.frame

theorem Declared.grows (h : Declared f w) (hgrows : w.Grows w') : Declared f w' where
  blank := h.blank.same hgrows.code
  phis b := by
    rw [hgrows.code.phisAt]
    exact (h.phis b).imp fun x phi ⟨k, hk, his⟩ ↦ ⟨k, hgrows.phis ▸ hk, his.grows hgrows⟩
  register b p hp := by
    obtain ⟨k, v, hk, his, hphi⟩ := h.register b p hp
    exact ⟨k, v, hgrows.phis ▸ hk, his.grows hgrows, (hgrows.code.isPhiOf b v).mpr hphi⟩
  source b v hphi := by
    obtain ⟨p, hp, k, hk, his⟩ := h.source b v ((hgrows.code.isPhiOf b v).mp hphi)
    exact ⟨p, hp, k, hgrows.phis ▸ hk, his.grows hgrows⟩

theorem createLabels_adds {x : Unit} (hw : w.Building f) (hx : createLabels f w = .ok x w') :
    w.AddsLeaves f w' := by
  refine forM_induct (P := fun t ↦ w.AddsLeaves f t) hx (.refl hw) fun i _ t _ t' ht hi ↦ ?_
  refine forM_induct (P := fun t ↦ w.AddsLeaves f t) hi ht fun b _ t _ t' ht hb ↦ ?_
  obtain ⟨_, hlabel⟩ := discard_eq_ok.mp hb
  exact ht.trans (labelOf_builds ht.building hlabel).1

/-! ## The forest -/

/-- The trees of block `b`: their roots in order, one for each instruction, and before a terminator
the copies into the phis of all successors. -/
structure TreesOf (f : Func) (b : BlockId) (w : Workspace) (roots : List NodeId) : Prop where
  sorted : roots.Pairwise (· < ·)
  upper : ∀ r ∈ roots, r < w.forest.size
  block : ∀ r ∈ roots, (w.forest.node r).block = some b
  op : ∀ r ∈ roots, (w.forest.node r).op = .phiMove ∨ ∃ o, (w.forest.node r).op = .inst o
  results : List.Forall₂ (fun r x ↦ w.Results x.1 r)
    (roots.filter fun r ↦ (w.forest.node r).opcode?.isSome) (f.blockInsts b)
  copies : List.Forall₂ (IsCopy b w) (roots.filter fun r ↦ (w.forest.node r).op = .phiMove)
    (((f.blockInsts b).filter fun x ↦ x.2.opcode.isTerminator).flatMap fun _ ↦ f.phiEdges b)
  last : ∀ r ∈ roots, ∃ r' ∈ roots, r ≤ r' ∧ ∃ o, (w.forest.node r').op = .inst o

theorem TreesOf.grows {roots : List NodeId} (h : TreesOf f b w roots) (hgrows : w.Grows w') :
    TreesOf f b w' roots where
  sorted := h.sorted
  upper r hr := Nat.lt_of_lt_of_le (h.upper r hr) hgrows.forest.size
  block r hr := (Node.block_of_core (hgrows.forest.core r (h.upper r hr))).trans (h.block r hr)
  op r hr := by
    have hop := Node.op_of_core (hgrows.forest.core r (h.upper r hr))
    exact (h.op r hr).imp hop.trans fun ⟨o, ho⟩ ↦ ⟨o, hop.trans ho⟩
  results := by
    have hfilter : roots.filter (fun r ↦ (w'.forest.node r).opcode?.isSome)
        = roots.filter fun r ↦ (w.forest.node r).opcode?.isSome := by
      refine List.filter_congr fun r hr ↦ ?_
      rw [Node.opcode?, Node.opcode?, Node.op_of_core (hgrows.forest.core r (h.upper r hr))]
      rfl
    rw [hfilter]
    exact h.results.imp fun r x hr ↦ hr.grows hgrows
  copies := by
    have hfilter : roots.filter (fun r ↦ (w'.forest.node r).op = .phiMove)
        = roots.filter fun r ↦ (w.forest.node r).op = .phiMove := by
      refine List.filter_congr fun r hr ↦ ?_
      rw [Node.op_of_core (hgrows.forest.core r (h.upper r hr))]
      rfl
    rw [hfilter]
    exact h.copies.imp fun r e hr ↦ hr.grows hgrows
  last r hr := by
    obtain ⟨r', hr', hle, o, ho⟩ := h.last r hr
    exact ⟨r', hr', hle, o, (Node.op_of_core (hgrows.forest.core r' (h.upper r' hr'))).trans ho⟩

theorem Trees.treesOf {roots : List NodeId} (h : Trees f b w w' roots (f.blockInsts b))
    (hw : Declared f w) : TreesOf f b w' roots where
  sorted := h.made.sorted
  upper := h.made.upper
  block := h.made.block
  op := h.made.op
  results := h.results
  copies := h.copies fun e he ↦ by
    obtain ⟨k, v, hk, -⟩ := hw.register e.1 e.2 (Func.mem_phiEdges.mp he).2
    exact Option.isSome_iff_exists.mpr ⟨k, hk⟩
  last := h.last

/-- Before a terminator there is a copy into every phi of every successor. -/
theorem TreesOf.moves {roots : List NodeId} (h : TreesOf f b w roots) {succ : BlockId}
    {x phi : InstId × ResolvedInst} (hx : x ∈ f.blockInsts b) (hterm : x.2.opcode.isTerminator = true)
    (hsucc : succ ∈ f.succsOf b) (hphi : phi ∈ f.blockPhis succ) :
    ∃ r ∈ roots, IsCopy b w r (succ, phi) := by
  have hedge : (succ, phi) ∈ ((f.blockInsts b).filter fun x ↦ x.2.opcode.isTerminator).flatMap
      fun _ ↦ f.phiEdges b :=
    List.mem_flatMap.mpr ⟨x, List.mem_filter.mpr ⟨hx, hterm⟩, Func.mem_phiEdges.mpr ⟨hsucc, hphi⟩⟩
  obtain ⟨r, hr, hcopy⟩ := exists_of_forall₂ h.copies hedge
  exact ⟨r, (List.mem_filter.mp hr).1, hcopy⟩

/-- A workspace in which the forest of `f` has been built, up to the blocks that have `trees`. -/
structure Planted (f : Func) (trees : List (List NodeId)) (w : Workspace) : Prop where
  building : w.Building f
  declared : Declared f w
  sorted : trees.flatten.Pairwise (· < ·)
  upper : ∀ r ∈ trees.flatten, r < w.forest.size
  block : ∀ (b : BlockId) (roots : List NodeId), trees[b]? = some roots → TreesOf f b w roots
  all : ∀ k < w.forest.size, ∀ o, (w.forest.node k).op = .inst o →
    ∃ (b : BlockId) (roots : List NodeId), trees[b]? = some roots ∧ k ∈ roots

/-- Turning to a block changes nothing about the forest. -/
theorem Workspace.Building.beginBlock (h : w.Building f) (b : BlockId) (label : Option LabelId) :
    w.Grows { w with code := w.code.beginBlock b label } ∧
      { w with code := w.code.beginBlock b label }.Building f := by
  have hgrows : w.Grows { w with code := w.code.beginBlock b label } :=
    ⟨.refl _, .beginBlock _ _ _, rfl, fun _ _ h ↦ h⟩
  exact ⟨hgrows, h.extend hgrows (fun k hle hlt ↦ absurd hlt (Nat.not_lt.mpr hle))
    (fun _ k hle hlt ↦ absurd hlt (Nat.not_lt.mpr hle)) (fun _ _ hk ↦ Or.inl hk)
    fun _ _ hk ↦ Or.inl hk⟩

theorem Planted.grow {roots : List NodeId} (h : Planted f trees w)
    (hx : (do
      modifyCode (·.beginBlock trees.length none)
      buildBlock f trees.length : Work (List NodeId)) w = .ok roots w') :
    Planted f (trees ++ [roots]) w' := by
  obtain ⟨_, w₁, hbegin, hblock⟩ := bind_eq_ok.mp hx
  obtain rfl := modify_eq_ok.mp hbegin
  obtain ⟨hgrows₁, hw₁⟩ := h.building.beginBlock trees.length none
  have hdeclared₁ := h.declared.grows hgrows₁
  obtain ⟨hbuilds, htrees⟩ := buildBlock_builds hw₁ hblock
  have hgrows := hgrows₁.trans hbuilds.grows
  refine ⟨hbuilds.building, hdeclared₁.grows hbuilds.grows, ?_, ?_, fun b rs hb ↦ ?_,
    fun k hk o ho ↦ ?_⟩
  · rw [List.flatten_append, List.flatten_singleton]
    exact List.pairwise_append.mpr ⟨h.sorted, htrees.made.sorted, fun r hr r' hr' ↦
      Nat.lt_of_lt_of_le (h.upper r hr) (htrees.made.lower r' hr')⟩
  · rw [List.flatten_append, List.flatten_singleton]
    exact fun r hr ↦ (List.mem_append.mp hr).elim
      (fun hr ↦ Nat.lt_of_lt_of_le (h.upper r hr) hgrows.forest.size) (htrees.made.upper r)
  · rcases Nat.lt_or_ge b trees.length with hlt | hge
    · rw [List.getElem?_append_left hlt] at hb
      exact (h.block b rs hb).grows hgrows
    · rw [List.getElem?_append_right hge, List.getElem?_singleton] at hb
      split at hb
      next hzero =>
        obtain rfl := Option.some.inj hb
        obtain rfl : b = trees.length := Nat.le_antisymm (Nat.sub_eq_zero_iff_le.mp hzero) hge
        exact htrees.treesOf hdeclared₁
      next => exact absurd hb (by simp)
  · by_cases hlt : k < w.forest.size
    · have hop := (Node.op_of_core (hgrows.forest.core k hlt)).symm.trans ho
      obtain ⟨b, rs, hb, hmem⟩ := h.all k hlt o hop
      exact ⟨b, rs, by rw [List.getElem?_append_left (List.getElem?_eq_some_iff.mp hb).1, hb], hmem⟩
    · exact ⟨trees.length, roots, by simp, htrees.made.all k (Nat.le_of_not_lt hlt) hk o ho⟩

/-- Before any block is built there are no trees. -/
theorem createLabels_planted {x : Unit} (hw : w.Building f) (hdeclared : Declared f w)
    (hinst : ∀ k < w.forest.size, ∀ o, (w.forest.node k).op ≠ .inst o)
    (hx : createLabels f w = .ok x w') : Planted f [] w' := by
  have hadds := createLabels_adds hw hx
  refine ⟨hadds.building, hdeclared.grows hadds.grows, .nil,
    fun r hr ↦ absurd hr List.not_mem_nil, fun b roots hb ↦ absurd hb (by simp),
    fun k hk o ho ↦ ?_⟩
  by_cases hlt : k < w.forest.size
  · exact absurd ((Node.op_of_core (hadds.grows.forest.core k hlt)).symm.trans ho) (hinst k hlt o)
  · exact absurd ho (hadds.leaves k (Nat.le_of_not_lt hlt) hk o)

/-- **Building.** What is known of the forest of a function and of its trees. -/
theorem buildForest_planted {s : Session} (hx : buildForest f (.start f s) = .ok trees w) :
    Planted f trees w ∧ trees.length = f.blocks.length := by
  simp only [buildForest, bind_eq_ok] at hx
  obtain ⟨_, w₁, hargs, _, w₂, hphis, _, w₃, hlabels, hblocks⟩ := hx
  obtain ⟨hdeclaring, hall⟩ := declarePhis_declares (defineArguments_declares hargs) hphis
  obtain ⟨hw₂, hdeclared, hinst⟩ := hdeclaring.builds hall
  have hstart := createLabels_planted hw₂ hdeclared hinst hlabels
  have hplanted := mapM_induct (P := fun trees t ↦ Planted f trees t) hblocks hstart
    fun b x hb trees t roots t' hlength ht hstep ↦ ?_
  · exact ⟨hplanted, (mapM_length hblocks).trans List.length_range⟩
  · obtain ⟨hlt, rfl⟩ := List.getElem?_eq_some_iff.mp hb
    rw [List.getElem_range, ← hlength] at hstep
    exact ht.grow hstep

end TreeCover
