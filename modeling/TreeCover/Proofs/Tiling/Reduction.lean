import TreeCover.Proofs.Liveness.Definedness
import TreeCover.Proofs.Tiling.Actions
import TreeCover.Proofs.Tiling.ReduceStep
import TreeCover.Proofs.Tiling.Results

/-!
# Reduction

What the reduction of a ready node does: it appends to the current block instructions that read
available registers and what the block wrote before, it marks nodes as computed in such registers,
and its result mentions only such registers.

Two kinds of instructions are free: any block may emit them. An alloca gets a register that the
block writes itself. A call of no width gives nothing, so it is emitted again wherever it is met.
-/

namespace TreeCover

open Ir Machine Work

variable {f₁ : Forest} {mine touched : NodeId → Prop} {avail : VReg → Prop} {fuel : Nat}
  {id k : NodeId} {nt : Nonterminal} {r : Rule} {b : Bound} {v : VReg} {is : List Machine.Inst}
  {w w₁ w₂ w' : Workspace}

/-! ## Code -/

theorem Emits.getElem? (h : Emits w w' is) (c : Nat) :
    w'.code.blocks[c]? = w.code.blocks[c]?.map fun b ↦
      if w.code.current = c then { b with insts := b.insts ++ is } else b := by
  rw [h.blocks, List.getElem?_modify]
  split
  next => rfl
  next => simp

theorem Emits.length (h : Emits w w' is) : w'.code.blocks.length = w.code.blocks.length := by
  rw [h.blocks, List.length_modify]

theorem Emits.phisAt (h : Emits w w' is) (c : Nat) :
    phisAt w'.code.blocks c = phisAt w.code.blocks c := by
  rw [TreeCover.phisAt, h.getElem? c, TreeCover.phisAt]
  cases w.code.blocks[c]? with
  | none => rfl
  | some b =>
    simp only [Option.map_some, Option.getD_some]
    split <;> rfl

theorem Emits.succs (h : Emits w w' is) :
    w'.code.blocks.map (·.succs) = w.code.blocks.map (·.succs) := by
  apply List.ext_getElem?
  intro c
  rw [List.getElem?_map, List.getElem?_map, h.getElem? c]
  cases w.code.blocks[c]? with
  | none => rfl
  | some b =>
    simp only [Option.map_some]
    split <;> rfl

theorem Emits.instsAt (h : Emits w w' is) (hcurrent : w.code.current < w.code.blocks.length) :
    instsAt w'.code.blocks w.code.current = instsAt w.code.blocks w.code.current ++ is := by
  rw [TreeCover.instsAt, h.getElem?, TreeCover.instsAt, List.getElem?_eq_getElem hcurrent]
  simp

theorem Emits.instsAt_of_ne (h : Emits w w' is) {c : Nat} (hne : c ≠ w.code.current) :
    TreeCover.instsAt w'.code.blocks c = TreeCover.instsAt w.code.blocks c := by
  rw [TreeCover.instsAt, h.getElem? c, TreeCover.instsAt]
  simp [hne.symm]

/-! ## Registers -/

/-- An instruction of the current block has written `v`. -/
def Workspace.Written (w : Workspace) (v : VReg) : Prop :=
  WritesIn w.code.blocks w.code.current v

/-- A register that is available, or that the current block has written. -/
def Workspace.Known (w : Workspace) (avail : VReg → Prop) (v : VReg) : Prop :=
  avail v ∨ w.Written v

theorem Emits.written_iff (h : Emits w w' is)
    (hcurrent : w.code.current < w.code.blocks.length) :
    w'.Written v ↔ w.Written v ∨ v ∈ defsOf is := by
  rw [Workspace.Written, WritesIn, h.current, h.instsAt hcurrent, mem_defsOf, Workspace.Written,
    WritesIn]
  simp only [List.mem_append]
  constructor
  · rintro ⟨i, hi | hi, hv⟩
    · exact Or.inl ⟨i, hi, hv⟩
    · exact Or.inr ⟨i, hi, hv⟩
  · rintro (⟨i, hi, hv⟩ | ⟨i, hi, hv⟩)
    · exact ⟨i, Or.inl hi, hv⟩
    · exact ⟨i, Or.inr hi, hv⟩

/-! ## Free instructions -/

/-- A call that gives nothing. -/
def Forest.IsVoidCall (f : Forest) (k : NodeId) : Prop :=
  (f.node k).op = .inst .call ∧ (f.node k).width = 0

/-- An instruction that any block may emit. -/
def Forest.IsFree (f : Forest) (k : NodeId) : Prop :=
  (f.node k).op = .inst .alloca ∨ f.IsVoidCall k

/-- A register that a node may be marked with. -/
structure Forest.Holds (f : Forest) (avail : VReg → Prop) (w : Workspace) (k : NodeId)
    (v : VReg) : Prop where
  inst : ∃ o, (f.node k).op = .inst o
  value : (f.node k).op.isBarren = false
  wide : ¬ f.IsVoidCall k
  known : w.Known avail v
  address : (f.node k).op = .inst .alloca → w.Written v

/-! ## Runs -/

/-- Work on a tree that goes from `w` to `w'`. -/
structure Runs (f₁ : Forest) (mine touched : NodeId → Prop) (avail : VReg → Prop)
    (w w' : Workspace) : Prop where
  code : ∃ is, Emits w w' is ∧ ReadsFrom (w.Known avail) is ∧
    ∀ v ∈ defsOf is, w.code.vregs ≤ v ∧ v < w'.code.vregs
  forest : w.forest.Progress mine touched (f₁.Holds avail w') w'.forest

/-- The state of a reduction in a forest that was `f₁` when its trees were labeled. -/
structure Reducing (f₁ : Forest) (mine touched : NodeId → Prop) (avail : VReg → Prop)
    (w : Workspace) : Prop where
  forest : f₁.Progress mine touched (f₁.Holds avail w) w.forest
  labels : w.labels.Sound f₁
  frame : w.code.frame.Addressed
  current : w.code.current < w.code.blocks.length

theorem Runs.refl : Runs f₁ mine touched avail w w :=
  ⟨⟨[], .refl w, trivial, fun _ hv ↦ absurd hv List.not_mem_nil⟩, .refl _⟩

theorem Runs.written (h : Runs f₁ mine touched avail w w')
    (hcurrent : w.code.current < w.code.blocks.length) (hv : w.Written v) : w'.Written v := by
  obtain ⟨is, hemits, -⟩ := h.code
  exact (hemits.written_iff hcurrent).mpr (Or.inl hv)

theorem Runs.known (h : Runs f₁ mine touched avail w w')
    (hcurrent : w.code.current < w.code.blocks.length) (hv : w.Known avail v) :
    w'.Known avail v :=
  hv.imp_right (h.written hcurrent)

theorem Runs.holds (h : Runs f₁ mine touched avail w w')
    (hcurrent : w.code.current < w.code.blocks.length) (hk : f₁.Holds avail w k v) :
    f₁.Holds avail w' k v :=
  ⟨hk.inst, hk.value, hk.wide, h.known hcurrent hk.known,
    fun hop ↦ h.written hcurrent (hk.address hop)⟩

theorem Runs.current (h : Runs f₁ mine touched avail w w')
    (hcurrent : w.code.current < w.code.blocks.length) :
    w'.code.current < w'.code.blocks.length := by
  obtain ⟨is, hemits, -⟩ := h.code
  rwa [hemits.current, hemits.length]

theorem Runs.trans (h : Runs f₁ mine touched avail w w₁) (h' : Runs f₁ mine touched avail w₁ w')
    (hcurrent : w.code.current < w.code.blocks.length) : Runs f₁ mine touched avail w w' := by
  obtain ⟨is, his, hreads, hfresh⟩ := h.code
  obtain ⟨js, hjs, hreads', hfresh'⟩ := h'.code
  refine ⟨⟨is ++ js, his.trans hjs, hreads.append (hreads'.mono fun v hv ↦ ?_), fun v hv ↦ ?_⟩,
    (h.forest.mono (fun _ hk ↦ hk) (fun _ hk ↦ hk) fun _ _ hk ↦
      h'.holds (h.current hcurrent) hk).trans h'.forest⟩
  · rcases hv with hv | hv
    · exact Or.inr (Or.inl hv)
    · exact ((his.written_iff hcurrent).mp hv).symm.imp_right Or.inr
  · rw [defsOf, List.flatMap_append, List.mem_append] at hv
    rcases hv with hv | hv
    · exact ⟨(hfresh v hv).1, Nat.lt_of_lt_of_le (hfresh v hv).2 hjs.vregs⟩
    · exact ⟨Nat.le_trans his.vregs (hfresh' v hv).1, (hfresh' v hv).2⟩

theorem Reducing.runs (h : Reducing f₁ mine touched avail w)
    (hruns : Runs f₁ mine touched avail w w') : Reducing f₁ mine touched avail w' := by
  obtain ⟨is, hemits, -⟩ := hruns.code
  exact ⟨(h.forest.mono (fun _ hk ↦ hk) (fun _ hk ↦ hk) fun _ _ hk ↦
    hruns.holds h.current hk).trans hruns.forest, hemits.labels ▸ h.labels, h.frame.extends hemits.frame,
    hruns.current h.current⟩

/-! ## The grammar -/

theorem Grammar.lhs_of_chain : ∀ r ∈ Grammar.rules, r.pattern.source?.isSome = true →
    r.lhs ∈ [.reg, .addr, .stmt] := by decide

theorem Grammar.lhs_of_inRegister : ∀ r ∈ Grammar.rules, r.pattern.head? = some .inRegister →
    r.lhs = .reg := by decide

theorem Grammar.head?_register : ∀ r ∈ Grammar.rules, r.action = .register →
    r.pattern.head? = some .inRegister := by decide

theorem Grammar.head?_memory : ∀ r ∈ Grammar.rules, r.action = .memory →
    r.pattern.head? = some .arg := by decide

theorem Grammar.head?_phiInput : ∀ r ∈ Grammar.rules, r.action = .phiInput →
    r.pattern.head? = some .phiMove := by decide

theorem Grammar.action_of_call : ∀ r ∈ Grammar.rules, r.pattern.head? = some (.inst .call) →
    r.action = .call := by decide

def Pattern.isCall : Pattern → Bool
  | .op (.inst .call) [.nt .args] => true
  | _ => false

theorem Grammar.isCall_of_action : ∀ r ∈ Grammar.rules, r.action = .call →
    r.pattern.isCall = true := by decide

def Pattern.isArguments : Pattern → Bool
  | .variadic .args .reg => true
  | _ => false

theorem Grammar.isArguments_of_lhs : ∀ r ∈ Grammar.rules, r.lhs = .args →
    r.pattern.isArguments = true := by decide

def Pattern.isAlloca : Pattern → Bool
  | .op (.inst .alloca) [] => true
  | _ => false

theorem Grammar.isAlloca_of_head? : ∀ r ∈ Grammar.rules,
    r.pattern.head? = some (.inst .alloca) → r.pattern.isAlloca = true := by decide

/-! ## Results -/

/-- What is known of the forest that a reduction starts from. -/
structure Site (f₁ : Forest) (mine touched : NodeId → Prop) : Prop where
  flat : f₁.Flat
  barren : ∀ k, (f₁.node k).op.isBarren = true → (f₁.node k).computed = false
  argument : ∀ k i m, (f₁.node k).op = .arg i → (f₁.node k).slot = .mem m → m.vregs = []
  touched : ∀ c, f₁.Usable mine (fun _ ↦ True) c → touched c

/-- What the result `b` of reducing a node to `nt` is in a state. -/
structure ResultOf (f₁ : Forest) (mine : NodeId → Prop) (avail : VReg → Prop) (w : Workspace)
    (k : NodeId) (nt : Nonterminal) (b : Bound) : Prop where
  known : ∀ v ∈ b.vregs, w.Known avail v
  address : (f₁.node k).op = .inst .alloca → (f₁.node k).computed = false →
    ∀ v ∈ b.vregs, w.Written v
  void : f₁.IsVoidCall k → (f₁.node k).computed = false → b = .none
  ready : nt = .reg ∨ nt = .args →
    w.forest.Ready (fun k ↦ mine k ∧ f₁.IsFree k) (w.Known avail) k

/-- What is ready stays ready while the reduction goes on. -/
theorem Runs.ready (hruns : Runs f₁ mine touched avail w w') (hw : Reducing f₁ mine touched avail w)
    {mine' : NodeId → Prop} (h : w.forest.Ready mine' (w.Known avail) k) :
    w'.forest.Ready mine' (w'.Known avail) k :=
  h.progress hruns.forest (fun _ hv ↦ hruns.known hw.current hv)
    fun k _ hk ↦ ⟨hk.inst.imp fun _ ho ↦ (hw.forest.skeleton.op k).trans ho, fun _ ↦ hk.known⟩

theorem ResultOf.runs (h : ResultOf f₁ mine avail w k nt b) (hw : Reducing f₁ mine touched avail w)
    (hruns : Runs f₁ mine touched avail w w') : ResultOf f₁ mine avail w' k nt b where
  known v hv := hruns.known hw.current (h.known v hv)
  address hop hk v hv := hruns.written hw.current (h.address hop hk v hv)
  void := h.void
  ready hnt := hruns.ready hw (h.ready hnt)

/-- A node that was marked since its tree was labeled holds its register. -/
theorem Reducing.marked (hw : Reducing f₁ mine touched avail w)
    (hnew : (f₁.node k).computed = false) (hk : (w.forest.node k).computed = true) :
    mine k ∧ ∃ v, (w.forest.node k).slot = .vreg v ∧ f₁.Holds avail w k v :=
  hw.forest.marks k hnew hk

/-- A ready node that is computed is in a known register. -/
theorem Reducing.slot (hw : Reducing f₁ mine touched avail w)
    (hready : f₁.Ready mine (w.Known avail) k) (hk : (w.forest.node k).computed = true) :
    ∃ v, (w.forest.node k).slot = .vreg v ∧ w.Known avail v := by
  cases hnew : (f₁.node k).computed with
  | false =>
    obtain ⟨-, v, hslot, hholds⟩ := hw.marked hnew hk
    exact ⟨v, hslot, hholds.known⟩
  | true =>
    cases hready with
    | computed _ _ hslot hv => exact ⟨_, (hw.forest.keeps k hnew).2.trans hslot, hv⟩
    | leaf hcomputed => exact absurd (hcomputed.symm.trans hnew) Bool.false_ne_true
    | inner hcomputed => exact absurd (hcomputed.symm.trans hnew) Bool.false_ne_true

theorem Node.reuse?_cases {n : Node} (h : n.reuse? nt = some b) :
    n.computed = true ∧ (∃ o, n.op = .inst o) ∧ ∃ v, n.slot = .vreg v ∧ b.vregs ⊆ [v] := by
  unfold Node.reuse? at h
  split at h
  next v hc ho hs =>
    obtain rfl := Option.some.inj h
    exact ⟨hc, ⟨_, ho⟩, v, hs, by simp⟩
  next v hc ho hs =>
    obtain rfl := Option.some.inj h
    exact ⟨hc, ⟨_, ho⟩, v, hs, by simp⟩
  next v hc ho hs =>
    obtain rfl := Option.some.inj h
    exact ⟨hc, ⟨_, ho⟩, v, hs, by simp⟩
  next v hc ho hs =>
    obtain rfl := Option.some.inj h
    exact ⟨hc, ⟨_, ho⟩, v, hs, by simp⟩
  next => exact absurd h (by simp)

/-- A register that a computed instruction is in serves for every nonterminal a register leads
to. -/
theorem Node.reuse?_isSome {n : Node} {o : Opcode} (hcomputed : n.computed = true)
    (hop : n.op = .inst o) (hslot : n.slot = .vreg v) (hnt : nt ∈ [.reg, .addr, .stmt]) :
    n.reuse? nt ≠ none := by
  unfold Node.reuse?
  rw [hcomputed, hop, hslot]
  simp only [List.mem_cons, List.not_mem_nil, or_false] at hnt
  rcases hnt with rfl | rfl | rfl <;> simp

/-- Reading the register of a node. -/
theorem Reducing.reuse (hw : Reducing f₁ mine touched avail w)
    (hready : f₁.Ready mine (w.Known avail) id) (h : (w.forest.node id).reuse? nt = some b) :
    ResultOf f₁ mine avail w id nt b := by
  obtain ⟨hcomputed, ⟨o, hop⟩, v, hslot, hsub⟩ := Node.reuse?_cases h
  obtain ⟨v', hslot', hknown⟩ := hw.slot hready hcomputed
  obtain rfl : v' = v := by simpa using hslot'.symm.trans hslot
  refine ⟨fun u hu ↦ ?_, fun halloca hnew u hu ↦ ?_, fun hvoid hnew ↦ ?_, fun _ ↦ ?_⟩
  · rw [List.mem_singleton.mp (hsub hu)]
    exact hknown
  · obtain ⟨-, v'', hslot'', hholds⟩ := hw.marked hnew hcomputed
    obtain rfl : v'' = v' := by simpa using hslot''.symm.trans hslot
    rw [List.mem_singleton.mp (hsub hu)]
    exact hholds.address halloca
  · obtain ⟨-, v'', -, hholds⟩ := hw.marked hnew hcomputed
    exact absurd hvoid hholds.wide
  · exact .computed hcomputed (fun hne ↦ absurd hop (hne o)) hslot hknown

/-! ## Actions -/

theorem Forest.SameButRoles.progress {f f' : Forest} {held : NodeId → VReg → Prop}
    (h : f.SameButRoles f') : f.Progress mine touched held f' := by
  have hnode : ∀ k, (f'.node k).skeleton = (f.node k).skeleton ∧
      (f'.node k).computed = (f.node k).computed ∧ (f'.node k).slot = (f.node k).slot ∧
      (f'.node k).refs = (f.node k).refs := by
    intro k
    obtain ⟨roles, hk⟩ := h.2 k
    rw [hk]
    exact ⟨rfl, rfl, rfl, rfl⟩
  refine ⟨⟨h.1, fun k ↦ (hnode k).1⟩, fun k hk ↦ ⟨(hnode k).2.1.trans hk, (hnode k).2.2.1⟩,
    fun k hk hk' ↦ ?_, fun k _ ↦ (hnode k).2.2.1, fun k _ ↦ (hnode k).2.2.2,
    fun k ↦ Nat.le_of_eq (hnode k).2.2.2⟩
  rw [(hnode k).2.1, hk] at hk'
  exact absurd hk' Bool.false_ne_true

theorem Action.of_not_isLocal {a : Action} (h : a.isLocal = false) :
    a = .register ∨ a = .memory ∨ a = .phiInput := by
  cases a <;> simp_all [isLocal]

theorem head?_inRegister {n : Node} (h : n.head? = some .inRegister) :
    n.computed = true ∨ n.op = .phiDef := by
  rw [Node.head?] at h
  split at h
  next hcomputed => exact Or.inl hcomputed
  next => split at h <;> simp_all

theorem head?_arg {n : Node} (h : n.head? = some .arg) :
    n.computed = false ∧ ∃ i, n.op = .arg i := by
  rw [Node.head?] at h
  split at h
  next => exact absurd h (by simp)
  next hcomputed => split at h <;> simp_all

theorem head?_imm {n : Node} (h : n.head? = some .imm) : n.computed = false ∧ n.op = .imm := by
  rw [Node.head?] at h
  split at h
  next => exact absurd h (by simp)
  next hcomputed => split at h <;> simp_all

theorem head?_label {n : Node} (h : n.head? = some .label) :
    n.computed = false ∧ n.op = .label := by
  rw [Node.head?] at h
  split at h
  next => exact absurd h (by simp)
  next hcomputed => split at h <;> simp_all

theorem head?_args {n : Node} (h : n.head? = some .args) :
    n.computed = false ∧ n.op = .args := by
  rw [Node.head?] at h
  split at h
  next => exact absurd h (by simp)
  next hcomputed => split at h <;> simp_all

theorem head?_phiMove {n : Node} (h : n.head? = some .phiMove) :
    n.computed = false ∧ n.op = .phiMove := by
  rw [Node.head?] at h
  split at h
  next => exact absurd h (by simp)
  next hcomputed => split at h <;> simp_all

/-- A ready node that is not computed is a leaf, a list of arguments or an instruction. -/
theorem Forest.Ready.op {f : Forest} (h : f.Ready mine avail k)
    (hcomputed : (f.node k).computed = false) :
    (f.node k).op.isLeaf = true ∨ (f.node k).op = .args ∨ mine k ∧ ∃ o, (f.node k).op = .inst o := by
  cases h with
  | computed hcomputed' => exact absurd (hcomputed.symm.trans hcomputed') Bool.false_ne_true
  | leaf _ hop => exact Or.inl hop
  | inner _ hop => exact Or.inr hop

theorem Forest.Ready.op_ne {f : Forest} (h : f.Ready mine avail k)
    (hcomputed : (f.node k).computed = false) :
    (f.node k).op ≠ .phiDef ∧ (f.node k).op ≠ .phiMove := by
  rcases h.op hcomputed with hop | hop | ⟨-, o, hop⟩
  · constructor <;> intro heq <;> rw [heq] at hop <;> exact absurd hop (by decide)
  · rw [hop]
    decide
  · rw [hop]
    exact ⟨by simp, by simp⟩

/-- What an action does with known results is a part of the reduction. -/
theorem applyRule_runs (hsite : Site f₁ mine touched) (hw : Reducing f₁ mine touched avail w)
    (hmatches : r.Matches f₁ id) (hready : f₁.Ready mine (w.Known avail) id) {kids : List Bound}
    (hkids : ∀ b ∈ kids, ∀ v ∈ b.vregs, w.Known avail v)
    (h : applyRule r id kids w = .ok b w') :
    Runs f₁ mine touched avail w w' ∧ (∀ v ∈ b.vregs, w'.Known avail v) ∧
      (r.action.isLocal = true → (∀ b ∈ kids, ∀ v ∈ b.vregs, w.Written v) →
        ∀ v ∈ b.vregs, w'.Written v) := by
  cases hlocal : r.action.isLocal with
  | true =>
    have hsub : ∀ b ∈ kids, b.vregs ⊆ kids.flatMap Bound.vregs :=
      fun b hb v hv ↦ List.mem_flatMap.mpr ⟨b, hb, hv⟩
    obtain ⟨is, hemits, hforest, hreads, hdefs, hout⟩ :=
      applyRule_tidily hsub hlocal w b w' hw.frame h
    have hgiven : ∀ v ∈ kids.flatMap Bound.vregs, w.Known avail v := by
      intro v hv
      obtain ⟨b, hb, hv⟩ := List.mem_flatMap.mp hv
      exact hkids b hb v hv
    refine ⟨⟨⟨is, hemits, hreads.mono hgiven, fun v hv ↦ (hdefs v hv).resolve_left
      List.not_mem_nil⟩, hforest.progress⟩, fun v hv ↦ ?_, fun _ hwritten v hv ↦ ?_⟩
    · rcases hout v hv with hv | hv
      · exact (hgiven v hv).imp_right fun hv ↦ (hemits.written_iff hw.current).mpr (Or.inl hv)
      · exact Or.inr ((hemits.written_iff hw.current).mpr (Or.inr hv))
    · refine (hemits.written_iff hw.current).mpr ((hout v hv).imp_left fun hv ↦ ?_)
      obtain ⟨b, hb, hv⟩ := List.mem_flatMap.mp hv
      exact hwritten b hb v hv
  | false =>
    suffices hkept : w' = w ∧ ∀ v ∈ b.vregs, w.Known avail v by
      obtain ⟨rfl, hknown⟩ := hkept
      exact ⟨.refl, hknown, fun hlocal' ↦ absurd hlocal' Bool.false_ne_true⟩
    rcases Action.of_not_isLocal hlocal with haction | haction | haction
    · obtain ⟨v, hslot, rfl, rfl⟩ := applyRule_register haction h
      refine ⟨rfl, fun u hu ↦ ?_⟩
      have hcomputed : (f₁.node id).computed = true := by
        by_contra hnot
        have hhead := hmatches.2.head? (Grammar.head?_register r hmatches.1 haction)
        exact (hready.op_ne (by simpa using hnot)).1 ((head?_inRegister hhead).resolve_left hnot)
      obtain ⟨v', hslot', hknown⟩ := hw.slot hready (hw.forest.keeps id hcomputed).1
      obtain rfl : v' = v := by simpa using hslot'.symm.trans hslot
      rw [Bound.vregs_reg, List.mem_singleton] at hu
      rw [hu]
      exact hknown
    · obtain ⟨m, hslot, rfl, rfl⟩ := applyRule_memory haction h
      refine ⟨rfl, fun u hu ↦ ?_⟩
      obtain ⟨hcomputed, i, hop⟩ :=
        head?_arg (hmatches.2.head? (Grammar.head?_memory r hmatches.1 haction))
      have hpending : (w'.forest.node id).computed = false := by
        by_contra hnot
        obtain ⟨-, v, -, hholds⟩ := hw.marked hcomputed (by simpa using hnot)
        obtain ⟨o, ho⟩ := hholds.inst
        exact absurd (hop.symm.trans ho) (by simp)
      rw [hw.forest.slots id hpending] at hslot
      rw [Bound.vregs_mem, hsite.argument id i m hop hslot] at hu
      exact absurd hu List.not_mem_nil
    · obtain ⟨hcomputed, hop⟩ :=
        head?_phiMove (hmatches.2.head? (Grammar.head?_phiInput r hmatches.1 haction))
      exact absurd hop (hready.op_ne hcomputed).2

/-! ## Results of a rule -/

section Rule

variable {f : Forest} {kids : List Bound}

/-- The leaves of a rule have been reduced to `kids`. -/
def Results (f₁ : Forest) (mine : NodeId → Prop) (avail : VReg → Prop) (w : Workspace)
    (leaves : List (NodeId × Nonterminal)) (kids : List Bound) : Prop :=
  List.Forall₂ (fun leaf b ↦ ResultOf f₁ mine avail w leaf.1 leaf.2 b) leaves kids

theorem Results.exists {leaves : List (NodeId × Nonterminal)}
    (h : Results f₁ mine avail w leaves kids) (hb : b ∈ kids) :
    ∃ leaf ∈ leaves, ResultOf f₁ mine avail w leaf.1 leaf.2 b := by
  induction h with
  | nil => exact absurd hb List.not_mem_nil
  | cons hhead _ ih =>
    rcases List.mem_cons.mp hb with rfl | hb
    · exact ⟨_, List.mem_cons_self, hhead⟩
    · obtain ⟨leaf, hleaf, hresult⟩ := ih hb
      exact ⟨leaf, List.mem_cons_of_mem _ hleaf, hresult⟩

theorem Results.of_leaf {leaves : List (NodeId × Nonterminal)}
    (h : Results f₁ mine avail w leaves kids) {leaf : NodeId × Nonterminal} (hleaf : leaf ∈ leaves) :
    ∃ b, ResultOf f₁ mine avail w leaf.1 leaf.2 b := by
  induction h with
  | nil => exact absurd hleaf List.not_mem_nil
  | cons hhead _ ih =>
    rcases List.mem_cons.mp hleaf with rfl | hleaf
    · exact ⟨_, hhead⟩
    · exact ih hleaf

/-- At a node that is not computed, a rule that is no chain rule has the head of its operator. -/
theorem Rule.Matches.head?_inst (h : r.Matches f₁ id) {o : Opcode}
    (hnew : (f₁.node id).computed = false) (hop : (f₁.node id).op = .inst o) (ho : o ≠ .phi) :
    (∃ s, r.pattern = .nt s) ∨ r.pattern.head? = some (.inst o) := by
  have hhead : (f₁.node id).head? = some (.inst o) := by
    rw [Node.head?, hnew, hop]
    cases o <;> first | rfl | exact absurd rfl ho
  cases hp : r.pattern.head? with
  | none =>
    left
    cases hpattern : r.pattern with
    | nt s => exact ⟨s, rfl⟩
    | _ => rw [hpattern] at hp; exact absurd hp (by simp [Pattern.head?])
  | some head => exact Or.inr ((h.2.head? hp).symm.trans hhead)

variable (hmatches : r.Matches f₁ id) (hnew : (f₁.node id).computed = false)
  (hresults : Results f₁ mine avail w (r.pattern.takeLeaves id f).1 kids)
include hmatches hnew hresults

/-- A call of no width gives nothing, whatever rule is followed. -/
theorem Results.void (hskeleton : f₁.SameSkeleton w.forest) (hvoid : f₁.IsVoidCall id)
    (h : applyRule r id kids w = .ok b w') : b = .none := by
  rcases hmatches.head?_inst hnew hvoid.1 (by decide) with ⟨s, hp⟩ | hhead
  · rw [hp, Pattern.takeLeaves] at hresults
    cases hresults with
    | cons hhead hrest =>
      cases hrest
      obtain rfl := hhead.void hvoid hnew
      refine applyRule_none (List.mem_filter.mpr ⟨hmatches.1, ?_⟩) h
      rw [Rule.isChain, hp]
  · rcases applyRule_call (Grammar.action_of_call r hmatches.1 hhead) h with ⟨-, hb⟩ | ⟨hwidth, -⟩
    · exact hb
    · exact absurd ((hskeleton.width id).trans hvoid.2) hwidth

/-- The results that the address of an alloca is made from were written by the block. -/
theorem Results.address (halloca : (f₁.node id).op = .inst .alloca) :
    r.action.isLocal = true ∧ ∀ b ∈ kids, ∀ v ∈ b.vregs, w.Written v := by
  have hlocal : r.pattern.head? = none ∨ r.pattern.head? = some (.inst .alloca) →
      r.action.isLocal = true := by
    intro hhead
    by_contra hnot
    rcases Action.of_not_isLocal (by simpa using hnot) with haction | haction | haction
    · rw [Grammar.head?_register r hmatches.1 haction] at hhead
      simp at hhead
    · rw [Grammar.head?_memory r hmatches.1 haction] at hhead
      simp at hhead
    · rw [Grammar.head?_phiInput r hmatches.1 haction] at hhead
      simp at hhead
  rcases hmatches.head?_inst hnew halloca (by decide) with ⟨s, hp⟩ | hhead
  · refine ⟨hlocal (Or.inl (by rw [hp]; rfl)), fun b hb v hv ↦ ?_⟩
    rw [hp, Pattern.takeLeaves] at hresults
    obtain ⟨leaf, hleaf, hresult⟩ := hresults.exists hb
    obtain rfl := List.mem_singleton.mp hleaf
    exact hresult.address halloca hnew v hv
  · refine ⟨hlocal (Or.inr hhead), fun b hb ↦ ?_⟩
    have hp := Grammar.isAlloca_of_head? r hmatches.1 hhead
    unfold Pattern.isAlloca at hp
    split at hp
    next hp' =>
      rw [hp', Pattern.takeLeaves, Pattern.takeKidLeaves] at hresults
      · cases hresults
        exact absurd hb List.not_mem_nil
      · exact fun _ _ _ _ hnil ↦ absurd hnil (by simp)
    next => exact absurd hp (by simp)

omit hnew in
/-- The arguments of a list are ready once the list has been reduced. -/
theorem Results.ready_args (hskeleton : f₁.SameSkeleton f) (hlhs : r.lhs = .args) :
    (f₁.node id).computed = false ∧ (f₁.node id).op = .args ∧ ∀ c ∈ f₁.kidOwners id,
      w.forest.Ready (fun k ↦ mine k ∧ f₁.IsFree k) (w.Known avail) c := by
  have hp := Grammar.isArguments_of_lhs r hmatches.1 hlhs
  unfold Pattern.isArguments at hp
  split at hp
  next hp' =>
    obtain ⟨hnew, hop⟩ := head?_args (hmatches.2.head? (h := .args) (by rw [hp']; rfl))
    refine ⟨hnew, hop, fun c hc ↦ ?_⟩
    rw [hp', Pattern.takeLeaves, hskeleton.kidOwners] at hresults
    obtain ⟨b, hresult⟩ := hresults.of_leaf (List.mem_map_of_mem hc)
    exact hresult.ready (Or.inl rfl)
  next => exact absurd hp (by simp)

omit hnew in
/-- The arguments of a call are ready once the call has been emitted. -/
theorem Results.ready_call (hskeleton : f₁.SameSkeleton f) (haction : r.action = .call) :
    (f₁.node id).op = .inst .call ∧ ∀ c ∈ f₁.kidOwners id,
      w.forest.Ready (fun k ↦ mine k ∧ f₁.IsFree k) (w.Known avail) c := by
  have hp := Grammar.isCall_of_action r hmatches.1 haction
  unfold Pattern.isCall at hp
  split at hp
  next hp' =>
    have hfits := hmatches.2
    rw [hp', Pattern.Fits] at hfits
    have hlength : (f₁.kidOwners id).length = 1 := by
      rw [Forest.kidOwners, List.length_map]
      exact (hfits.2 (by decide)).1
    obtain ⟨c, hkids⟩ := List.length_eq_one_iff.mp hlength
    refine ⟨(head?_inst hfits.1).2, fun c' hc ↦ ?_⟩
    rw [hkids, List.mem_singleton] at hc
    rw [hp', Pattern.takeLeaves, hskeleton.kidOwners, hkids, Pattern.takeKidLeaves,
      Pattern.takeLeaves] at hresults
    obtain ⟨b, hresult⟩ := hresults.of_leaf (List.mem_append_left _ List.mem_cons_self)
    rw [hc]
    exact hresult.ready (Or.inr rfl)
  next => exact absurd hp (by simp)

end Rule

/-! ## Nodes after their reduction -/

/-- A list of arguments, or a call of no width, whose children are ready for every block. -/
theorem Reducing.ready_inner (hw : Reducing f₁ mine touched avail w)
    (hnew : (f₁.node id).computed = false)
    (hop : (f₁.node id).op = .args ∨ mine id ∧ f₁.IsVoidCall id)
    (hkids : ∀ c ∈ f₁.kidOwners id,
      w.forest.Ready (fun k ↦ mine k ∧ f₁.IsFree k) (w.Known avail) c) :
    w.forest.Ready (fun k ↦ mine k ∧ f₁.IsFree k) (w.Known avail) id := by
  have hskeleton := hw.forest.skeleton
  refine .inner ?_ ?_ fun c hc _ ↦ hkids c (hskeleton.kidOwners id ▸ hc)
  · by_contra hnot
    obtain ⟨-, v, -, hholds⟩ := hw.marked hnew (by simpa using hnot)
    rcases hop with hop | ⟨-, hvoid⟩
    · obtain ⟨o, ho⟩ := hholds.inst
      exact absurd (hop.symm.trans ho) (by simp)
    · exact hholds.wide hvoid
  · rw [hskeleton.op]
    exact hop.imp_right fun ⟨hmine, hvoid⟩ ↦ ⟨⟨hmine, Or.inr hvoid⟩, _, hvoid.1⟩

/-- What is computed, and what is no instruction and no list, is ready for every block. -/
theorem Reducing.ready_outer (hw : Reducing f₁ mine touched avail w)
    (hready : f₁.Ready mine (w.Known avail) id) (hop : (f₁.node id).computed = true ∨
      (f₁.node id).op ≠ .args ∧ ∀ o, (f₁.node id).op ≠ .inst o) :
    w.forest.Ready (fun k ↦ mine k ∧ f₁.IsFree k) (w.Known avail) id := by
  have houter : f₁.Ready (fun k ↦ mine k ∧ f₁.IsFree k) (w.Known avail) id := by
    cases hready with
    | computed hcomputed hkids hslot hv => exact .computed hcomputed hkids hslot hv
    | leaf hcomputed hop hkids => exact .leaf hcomputed hop hkids
    | inner hcomputed hinner _ =>
      rcases hop with hop | ⟨hargs, hinst⟩
      · exact absurd (hcomputed.symm.trans hop) Bool.false_ne_true
      · rcases hinner with hinner | ⟨-, o, ho⟩
        · exact absurd hinner hargs
        · exact absurd ho (hinst o)
  exact houter.progress hw.forest (fun _ hv ↦ hv) fun k v hk ↦ ⟨hk.inst, fun _ ↦ hk.known⟩

/-! ## The induction -/

/-- The leaves of a rule, reduced one after the other. -/
theorem reduceLeaves (hsite : Site f₁ mine touched) {leaves : List (NodeId × Nonterminal)}
    {kids : List Bound}
    (ih : ∀ {id nt w b w'}, Reducing f₁ mine touched avail w → f₁.owner id = id →
      f₁.Ready mine (w.Known avail) id → reduceFrom fuel id nt w = .ok b w' →
      Runs f₁ mine touched avail w w' ∧ ResultOf f₁ mine avail w' id nt b)
    (hw : Reducing f₁ mine touched avail w) (hleaves : f₁.Leaves mine (w.Known avail) leaves)
    (h : leaves.mapM (reduceLeaf fuel) w = .ok kids w') :
    Runs f₁ mine touched avail w w' ∧ Results f₁ mine avail w' leaves kids := by
  induction leaves generalizing w kids with
  | nil =>
    obtain ⟨rfl, rfl⟩ := mapM_nil_eq_ok.mp h
    exact ⟨.refl, .nil⟩
  | cons leaf leaves ihl =>
    obtain ⟨b, w₁, bs, hb, hbs, rfl⟩ := mapM_cons_eq_ok.mp h
    obtain ⟨⟨hgoal, howner, husable⟩, hrest⟩ := List.forall_mem_cons.mp hleaves
    have hready : f₁.Ready mine (w.Known avail) leaf.1 := by
      refine husable ?_
      by_contra hnot
      have hbarren : (f₁.node leaf.1).op.isBarren = true := by simpa using hnot
      refine hgoal (reduceFrom_barren hw.labels ((hw.forest.skeleton.owner _).trans howner)
        hw.forest ?_ hbarren hb)
      by_contra hcomputed
      obtain ⟨-, v, -, hholds⟩ := hw.marked (hsite.barren _ hbarren) (by simpa using hcomputed)
      exact absurd (hbarren.symm.trans hholds.value) (by simp)
    obtain ⟨hruns, hresult⟩ := ih hw howner hready hb
    obtain ⟨hruns', hresults⟩ := ihl (hw.runs hruns) (fun l hl ↦ ⟨(hrest l hl).1,
      (hrest l hl).2.mono (fun _ hk ↦ hk) fun _ hv ↦ hruns.known hw.current hv⟩) hbs
    exact ⟨hruns.trans hruns' hw.current, .cons (hresult.runs (hw.runs hruns) hruns') hresults⟩

/-- What a rule makes of a node that is computed. -/
theorem Rule.Matches.lhs_of_computed (hmatches : r.Matches f₁ id)
    (hcomputed : (f₁.node id).computed = true) : r.lhs ∈ [.reg, .addr, .stmt] := by
  cases hp : r.pattern.head? with
  | none =>
    refine Grammar.lhs_of_chain r hmatches.1 ?_
    cases hpattern : r.pattern with
    | nt s => rfl
    | _ => rw [hpattern] at hp; exact absurd hp (by simp [Pattern.head?])
  | some head =>
    have hhead := hmatches.2.head? hp
    rw [head?_computed hcomputed] at hhead
    rw [Grammar.lhs_of_inRegister r hmatches.1 (hp.trans hhead.symm)]
    exact List.mem_cons_self

/-- A computed instruction is read from its register, so no rule is followed there. -/
theorem Reducing.not_computed (hw : Reducing f₁ mine touched avail w)
    (hready : f₁.Ready mine (w.Known avail) id) (hreuse : (w.forest.node id).reuse? nt = none)
    (hmatches : r.Matches f₁ id) (hlhs : r.lhs = nt) {o : Opcode}
    (hop : (f₁.node id).op = .inst o) : (f₁.node id).computed = false := by
  by_contra hnot
  have hcomputed : (f₁.node id).computed = true := by simpa using hnot
  have hcomputed' := (hw.forest.keeps id hcomputed).1
  obtain ⟨v, hslot, -⟩ := hw.slot hready hcomputed'
  exact Node.reuse?_isSome hcomputed' ((hw.forest.skeleton.op id).trans hop) hslot
    (hlhs ▸ hmatches.lhs_of_computed hcomputed) hreuse

/-- Marking the node at the end of its reduction. -/
theorem markComputed_runs {u : Unit} {mine' : NodeId → Prop}
    (hskeleton : f₁.SameSkeleton w₂.forest) (hruns : Runs f₁ mine touched avail w w₂)
    (hpending : (w.forest.node id).computed = false) (hmine : mine id)
    (hholds : f₁.Holds avail w₂ id v) (h : markComputed id v w₂ = .ok u w') :
    Runs f₁ mine touched avail w w' ∧ w'.code = w₂.code ∧
      w'.forest.Ready mine' (w'.Known avail) id := by
  obtain rfl := modify_eq_ok.mp h
  obtain ⟨o, ho⟩ := hholds.inst
  have hlt : id < w₂.forest.size := by
    by_contra hle
    rw [← hskeleton.op, Forest.node_of_le _ (Nat.le_of_not_lt hle)] at ho
    exact absurd ho (by simp)
  obtain ⟨is, hemits, hreads, hfresh⟩ := hruns.code
  refine ⟨⟨⟨is, { hemits with }, hreads, hfresh⟩, ?_⟩, rfl, ?_⟩
  · refine Forest.Progress.mark (hruns.forest.mono (fun _ hk ↦ hk) (fun _ hk ↦ hk) fun k v hk ↦
      ⟨hk.inst, hk.value, hk.wide, hk.known, hk.address⟩) (fun _ ↦ rfl) (fun _ ↦ ⟨rfl, rfl⟩)
      (fun _ ↦ rfl) hpending hmine ?_
    exact ⟨hholds.inst, hholds.value, hholds.wide, hholds.known, hholds.address⟩
  · have hnode := w₂.forest.node_update_self
      (fun n ↦ { n with computed := true, slot := .vreg v,
                        roles := { n.roles with register := true } }) hlt
    refine .computed ?_ (fun hne ↦ absurd ho ?_) ?_ hholds.known
    · rw [hnode]
    · rw [← hskeleton.op]
      exact fun h ↦ hne o (by rw [hnode]; exact h)
    · rw [hnode]

/-- **Reduction.** Reducing a ready node emits instructions that read known registers only, and its
result mentions known registers only. -/
theorem reduceFrom_ready (hsite : Site f₁ mine touched) (hw : Reducing f₁ mine touched avail w)
    (howner : f₁.owner id = id) (hready : f₁.Ready mine (w.Known avail) id)
    (h : reduceFrom fuel id nt w = .ok b w') :
    Runs f₁ mine touched avail w w' ∧ ResultOf f₁ mine avail w' id nt b := by
  induction fuel generalizing id nt b w w' with
  | zero => exact absurd h failCovering_ne_ok
  | succ fuel ih =>
    have hskeleton := hw.forest.skeleton
    rcases reduceFrom_cases ((hskeleton.owner id).trans howner) h with
      ⟨hreuse, rfl⟩ | ⟨r, kids, w₁, w₂, hreuse, hrule, hkids, happly, hmark⟩
    · exact ⟨.refl, hw.reuse hready hreuse⟩
    obtain ⟨hmatches, hlhs⟩ := hw.labels.rule hrule
    have hnew : ∀ {o}, (f₁.node id).op = .inst o → (f₁.node id).computed = false :=
      fun ho ↦ hw.not_computed hready hreuse hmatches hlhs ho
    have hkidsUsable := hready.kids_of_inst hsite.flat fun _ ho ↦ hnew ho
    -- the leaves
    obtain ⟨hleaves, hprogress⟩ := r.takeLeaves_ready hsite.flat
      (fun c hc ↦ hsite.touched c (hc.mono (fun _ hk ↦ hk) fun _ _ ↦ trivial)) hmatches hskeleton
      hkidsUsable fun _ _ ↦ ⟨howner, fun _ ↦ hready⟩
    have hruns₀ : Runs f₁ mine touched avail w (w.took r id nt) :=
      ⟨⟨[], ⟨rfl, (modify_append_nil _ _).symm, Nat.le_refl _, .refl _, rfl, rfl, rfl⟩, trivial,
        fun _ hv ↦ absurd hv List.not_mem_nil⟩, hprogress⟩
    have hw₀ := hw.runs hruns₀
    obtain ⟨hruns₁, hresults⟩ := reduceLeaves hsite ih hw₀ hleaves hkids
    have hw₁ := hw₀.runs hruns₁
    -- the action
    have hready₁ := hready.mono (fun _ hk ↦ hk) fun v hv ↦ hruns₁.known hw₀.current (v := v) hv
    obtain ⟨hruns₂, hknown, haddress⟩ := applyRule_runs hsite hw₁ hmatches hready₁
      (fun b hb ↦ (hresults.exists hb).choose_spec.2.known) happly
    have hruns := (hruns₀.trans hruns₁ hw.current).trans hruns₂ hw.current
    have hw₂ := hw.runs hruns
    have hready₂ := hready₁.mono (fun _ hk ↦ hk) fun v hv ↦ hruns₂.known hw₁.current (v := v) hv
    have hwritten : (f₁.node id).op = .inst .alloca → (f₁.node id).computed = false →
        ∀ v ∈ b.vregs, w₂.Written v := by
      intro halloca hpending
      obtain ⟨hlocal, hkidsWritten⟩ := hresults.address hmatches hpending halloca
      exact haddress hlocal hkidsWritten
    have hvoid : f₁.IsVoidCall id → (f₁.node id).computed = false → b = .none :=
      fun hvoid hpending ↦ hresults.void hmatches hpending hw₁.forest.skeleton hvoid happly
    rcases hmark with ⟨v, o, rfl, rfl, hop, hmark⟩ | ⟨hunmarked, rfl⟩
    · -- an instruction in a register
      rw [hw₂.forest.skeleton.op] at hop
      have hpending : (w.forest.node id).computed = false := by
        by_contra hnot
        have hcomputed : (w.forest.node id).computed = true := by simpa using hnot
        obtain ⟨v', hslot, -⟩ := hw.slot hready hcomputed
        exact Node.reuse?_isSome hcomputed ((hskeleton.op id).trans hop) hslot
          List.mem_cons_self hreuse
      have hmine : mine id := by
        rcases hready.op (hnew hop) with hleaf | hargs | ⟨hmine, -⟩
        · rw [hop] at hleaf
          exact absurd hleaf (by simp [NodeOp.isLeaf])
        · exact absurd (hop.symm.trans hargs) (by simp)
        · exact hmine
      have hvregs : v ∈ (Bound.reg v).vregs := by simp
      have hholds : f₁.Holds avail w₂ id v := by
        refine ⟨⟨o, hop⟩, ?_, fun hv ↦ absurd (hvoid hv (hnew hop)) (by simp), hknown v hvregs,
          fun halloca ↦ hwritten halloca (hnew hop) v hvregs⟩
        by_contra hnot
        exact absurd (reduceFrom_barren hw.labels ((hskeleton.owner id).trans howner) hw.forest
          hpending (by simpa using hnot) h) (by simp)
      obtain ⟨hruns', hcode, hready'⟩ :=
        markComputed_runs hw₂.forest.skeleton hruns hpending hmine hholds hmark
      refine ⟨hruns', fun u hu ↦ ?_, fun halloca hp u hu ↦ ?_, hvoid, fun _ ↦ hready'⟩
      · rw [Workspace.Known, Workspace.Written, hcode]
        exact hknown u hu
      · rw [Workspace.Written, hcode]
        exact hwritten halloca hp u hu
    · -- anything else
      refine ⟨hruns, hknown, hwritten, hvoid, fun hnt ↦ ?_⟩
      rcases hnt with rfl | rfl
      · cases hcomputed : (f₁.node id).computed with
        | true => exact hw₂.ready_outer hready₂ (Or.inl hcomputed)
        | false =>
          rcases hready.op hcomputed with hleaf | hargs | ⟨hmine, o, hop⟩
          · refine hw₂.ready_outer hready₂ (Or.inr ⟨fun h ↦ ?_, fun o h ↦ ?_⟩)
            all_goals
              rw [h] at hleaf
              exact absurd hleaf (by simp [NodeOp.isLeaf])
          · refine absurd (reduceFrom_args hw.labels ((hskeleton.owner id).trans howner) hw.forest
              ?_ hargs h) (by simp)
            by_contra hnot
            obtain ⟨-, v, -, hholds⟩ := hw.marked hcomputed (by simpa using hnot)
            obtain ⟨o, ho⟩ := hholds.inst
            exact absurd (hargs.symm.trans ho) (by simp)
          · have hnoReg : ¬ b.IsReg := fun ⟨v, hb⟩ ↦
              hunmarked v o rfl hb ((hw₂.forest.skeleton.op id).trans hop)
            rcases inRegister_of_lhs r hmatches.1 hlhs with hreg | haction
            · exact absurd (returns_applyRule hreg _ _ _ happly) hnoReg
            · obtain ⟨hcall, hkidsReady⟩ := hresults.ready_call hmatches hskeleton haction
              have hwidth := ((applyRule_call haction happly).resolve_right fun h ↦ hnoReg h.2).1
              exact hw₂.ready_inner hcomputed
                (Or.inr ⟨hmine, hcall, (hw₁.forest.skeleton.width id).symm.trans hwidth⟩)
                fun c hc ↦ hruns₂.ready hw₁ (hkidsReady c hc)
      · obtain ⟨hn, hop, hkidsReady⟩ := hresults.ready_args hmatches hskeleton hlhs
        exact hw₂.ready_inner hn (Or.inl hop) fun c hc ↦ hruns₂.ready hw₁ (hkidsReady c hc)

end TreeCover
