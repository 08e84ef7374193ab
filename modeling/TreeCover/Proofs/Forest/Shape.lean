import Mathlib.Data.List.Forall2
import TreeCover.Forest.Build
import TreeCover.Proofs.Forest.Skeleton
import TreeCover.Proofs.Work.Success

/-!
# Shapes of nodes

Which node stands for which part of a function. Every node of a forest that has been built for a
function has one of a few shapes: it is an argument, a literal, a label or a pad, it belongs to a phi,
or it is an instruction whose children stand for its operands in order. Operands are older than the
instruction that has them, but for the glue that goes with it: the arguments of a call are gathered
below a node of their own, and an unconditional branch has two pads.
-/

namespace TreeCover

/-! ## Growth of a forest

While a forest is built, nodes are appended, and a node that exists already only gains uses: more
references, more logged accesses, and the mark that its value leaves its block. The core of a node
is what no later use of it changes. -/

section

open Ir Machine Work

variable {f f' f'' : Forest} {k id : NodeId} {n n' : Node}

/-! ## Cores -/

/-- A node without what a use of it may change. -/
def Node.core (n : Node) : Node :=
  { n with roles := {}, refs := 0, escapes := false, accesses := [], level := 1 }

theorem Node.op_of_core (h : n.core = n') : n.op = n'.op := (congrArg Node.op h :)

theorem Node.width_of_core (h : n.core = n') : n.width = n'.width := (congrArg Node.width h :)

theorem Node.target_of_core (h : n.core = n') : n.target = n'.target := (congrArg Node.target h :)

theorem Node.kids_of_core (h : n.core = n') : n.kids = n'.kids := (congrArg Node.kids h :)

theorem Node.constant_of_core (h : n.core = n') : n.constant = n'.constant :=
  (congrArg Node.constant h :)

theorem Node.slot_of_core (h : n.core = n') : n.slot = n'.slot := (congrArg Node.slot h :)

theorem Node.computed_of_core (h : n.core = n') : n.computed = n'.computed :=
  (congrArg Node.computed h :)

theorem Node.source_of_core (h : n.core = n') : n.source = n'.source := (congrArg Node.source h :)

theorem Node.block_of_core (h : n.core = n') : n.block = n'.block := (congrArg Node.block h :)

theorem Node.phiTarget_of_core (h : n.core = n') : n.phiTarget = n'.phiTarget :=
  (congrArg Node.phiTarget h :)

namespace Forest

/-! ## Growth -/

/-- From `f` to `f'` nodes are appended, and nodes of `f` gain uses. Copies into phis are never
used. -/
structure Grows (f f' : Forest) : Prop where
  size : f.size ≤ f'.size
  core : ∀ k < f.size, (f'.node k).core = (f.node k).core
  refs : ∀ k < f.size, (f.node k).refs ≤ (f'.node k).refs
  moves : ∀ k < f.size, (f.node k).op = .phiMove → (f'.node k).refs = (f.node k).refs
  accesses : ∀ k < f.size, (f.node k).accesses <:+ (f'.node k).accesses
  escapes : ∀ k < f.size, (f.node k).escapes = true → (f'.node k).escapes = true

namespace Grows

theorem refl (f : Forest) : Grows f f :=
  ⟨Nat.le_refl _, fun _ _ ↦ rfl, fun _ _ ↦ Nat.le_refl _, fun _ _ _ ↦ rfl,
    fun _ _ ↦ List.suffix_rfl, fun _ _ h ↦ h⟩

theorem trans (h : Grows f f') (h' : Grows f' f'') : Grows f f'' where
  size := Nat.le_trans h.size h'.size
  core k hk := (h'.core k (Nat.lt_of_lt_of_le hk h.size)).trans (h.core k hk)
  refs k hk := Nat.le_trans (h.refs k hk) (h'.refs k (Nat.lt_of_lt_of_le hk h.size))
  moves k hk hop := (h'.moves k (Nat.lt_of_lt_of_le hk h.size)
    ((Node.op_of_core (h.core k hk)).trans hop)).trans (h.moves k hk hop)
  accesses k hk := (h.accesses k hk).trans (h'.accesses k (Nat.lt_of_lt_of_le hk h.size))
  escapes k hk he := h'.escapes k (Nat.lt_of_lt_of_le hk h.size) (h.escapes k hk he)

theorem target (h : Grows f f') (hk : k < f.size) : (f'.node k).target = (f.node k).target :=
  (congrArg Node.target (h.core k hk) :)

theorem owner (h : Grows f f') (hflat : f.Flat) (hflat' : f'.Flat) (hk : k < f.size) :
    f'.owner k = f.owner k := by
  have htarget := h.target hk
  cases ht : (f.node k).target with
  | none =>
    rw [ht] at htarget
    rw [owner_of_target ht, owner_of_target htarget]
  | some t =>
    rw [ht] at htarget
    rw [hflat.owner_alias ht, hflat'.owner_alias htarget]

/-- A change to a node that is not of `f`. -/
theorem update (h : Grows f f') (hid : f.size ≤ id) (g : Node → Node) :
    Grows f (f'.update id g) := by
  have hnode : ∀ k < f.size, (f'.update id g).node k = f'.node k :=
    fun k hk ↦ f'.node_update_of_ne g (Nat.ne_of_lt (Nat.lt_of_lt_of_le hk hid))
  refine ⟨by rw [size_update]; exact h.size, fun k hk ↦ ?_, fun k hk ↦ ?_, fun k hk ↦ ?_,
    fun k hk ↦ ?_, fun k hk ↦ ?_⟩
  · rw [hnode k hk]
    exact h.core k hk
  · rw [hnode k hk]
    exact h.refs k hk
  · rw [hnode k hk]
    exact h.moves k hk
  · rw [hnode k hk]
    exact h.accesses k hk
  · rw [hnode k hk]
    exact h.escapes k hk

end Grows

/-- A use of a node changes no core. -/
structure Uses (f f' : Forest) : Prop extends Grows f f' where
  size_eq : f'.size = f.size
  core_eq : ∀ k, (f'.node k).core = (f.node k).core

theorem Uses.refl (f : Forest) : Uses f f := ⟨.refl f, rfl, fun _ ↦ rfl⟩

theorem Uses.trans (h : Uses f f') (h' : Uses f' f'') : Uses f f'' :=
  ⟨h.toGrows.trans h'.toGrows, h'.size_eq.trans h.size_eq,
    fun k ↦ (h'.core_eq k).trans (h.core_eq k)⟩

theorem uses_update (f : Forest) (id : NodeId) {g : Node → Node}
    (hcore : ∀ n, (g n).core = n.core) (hrefs : ∀ n, n.refs ≤ (g n).refs)
    (hmoves : (f.node id).op = .phiMove → ∀ n, (g n).refs = n.refs)
    (haccesses : ∀ n, n.accesses <:+ (g n).accesses)
    (hescapes : ∀ n, n.escapes = true → (g n).escapes = true) : Uses f (f.update id g) := by
  have hkeeps := @update_keeps (fun n n' ↦ n'.core = n.core ∧ n.refs ≤ n'.refs ∧
    n.accesses <:+ n'.accesses ∧ (n.escapes = true → n'.escapes = true))
    (fun _ ↦ ⟨rfl, Nat.le_refl _, List.suffix_rfl, fun h ↦ h⟩) f id g
    fun n ↦ ⟨hcore n, hrefs n, haccesses n, hescapes n⟩
  refine ⟨⟨Nat.le_of_eq (size_update f id g).symm, fun k _ ↦ (hkeeps k).1,
    fun k _ ↦ (hkeeps k).2.1, fun k _ hop ↦ ?_, fun k _ ↦ (hkeeps k).2.2.1,
    fun k _ ↦ (hkeeps k).2.2.2⟩, size_update f id g, fun k ↦ (hkeeps k).1⟩
  rcases f.node_update_cases id k g with ⟨rfl, hnode⟩ | hnode
  · rw [hnode]
    exact hmoves hop _
  · rw [hnode]

/-- A use of a value, which is no copy into a phi. -/
theorem uses_takeRef (f : Forest) (id : NodeId) (hop : (f.node (f.owner id)).op ≠ .phiMove) :
    Uses f (f.takeRef id) :=
  f.uses_update _ (fun _ ↦ rfl) (fun _ ↦ Nat.le_succ _) (fun h ↦ absurd h hop)
    (fun _ ↦ List.suffix_rfl) fun _ h ↦ h

theorem uses_markEscaping (f : Forest) (id : NodeId) : Uses f (f.markEscaping id) :=
  f.uses_update _ (fun _ ↦ rfl) (fun _ ↦ Nat.le_refl _) (fun _ _ ↦ rfl)
    (fun _ ↦ List.suffix_rfl) fun _ _ ↦ rfl

/-- Logging an access at some nodes. -/
def logAt (a : Access) (f : Forest) (ks : List NodeId) : Forest :=
  ks.foldl (fun f k ↦ f.update k fun n ↦ { n with accesses := a :: n.accesses }) f

theorem logAccess_eq (f : Forest) (a : Access) (id : NodeId) :
    f.logAccess a id = logAt a f (f.pending id) := rfl

theorem uses_logAt (a : Access) (f : Forest) (ks : List NodeId) : Uses f (logAt a f ks) := by
  induction ks generalizing f with
  | nil => exact .refl f
  | cons k ks ih =>
    have hhead : Uses f (f.update k fun n ↦ { n with accesses := a :: n.accesses }) :=
      f.uses_update k (fun _ ↦ rfl) (fun _ ↦ Nat.le_refl _) (fun _ _ ↦ rfl)
        (fun n ↦ List.suffix_cons a n.accesses) fun _ h ↦ h
    exact hhead.trans (ih _)

theorem uses_logAccess (f : Forest) (a : Access) (id : NodeId) : Uses f (f.logAccess a id) :=
  uses_logAt a f _

theorem grows_push (f : Forest) (n : Node) : Grows f (f.push n).2 := by
  have hnode : ∀ k < f.size, (f.push n).2.node k = f.node k := fun k hk ↦ f.node_push_of_lt n hk
  refine ⟨by rw [size_push]; exact Nat.le_succ _, fun k hk ↦ ?_, fun k hk ↦ ?_, fun k hk _ ↦ ?_,
    fun k hk ↦ ?_, fun k hk h ↦ ?_⟩
  · rw [hnode k hk]
  · exact Nat.le_of_eq (congrArg Node.refs (hnode k hk)).symm
  · rw [hnode k hk]
  · exact hnode k hk ▸ List.suffix_rfl
  · rw [hnode k hk]
    exact h

end Forest

end

open Ir Machine Work

variable {f : Func} {w w' w'' : Workspace} {k j t : NodeId} {b : BlockId} {id : InstId}
  {i : ResolvedInst} {kids : List NodeId} {n : Node}

/-! ## Nodes -/

namespace Node

def ofArgument (idx : Nat) (ty : Ty) : Node :=
  { op := .arg idx, width := ty.bits, slot := .mem (argumentSlot idx) }

def ofConstant (c : Constant) (width : Nat) : Node :=
  { op := .imm, width, constant := some c, slot := .imm c.word }

def ofLabel (l : LabelId) : Node := { op := .label, width := 0, slot := .label l }

/-- A child that pads an unconditional branch. -/
def pad : Node := { op := .dummy, width := 0 }

/-- The register of a phi. -/
def ofPhi (b : BlockId) (id : InstId) (i : ResolvedInst) (v : VReg) : Node :=
  { op := .phiDef, width := i.ty.bits, slot := .vreg v, computed := true, source := some id
    block := some b }

/-- What stands for a phi in its block. -/
def ofPhiUse (b : BlockId) (id : InstId) (i : ResolvedInst) (target : Option NodeId) : Node :=
  { op := .inst .phi, width := i.ty.bits, target, source := some id, block := some b }

/-- The arguments of a call. -/
def ofArgs (kids : List NodeId) : Node := { op := .args, width := 0, kids }

/-- An instruction that is no phi. -/
def ofInst (b : BlockId) (id : InstId) (i : ResolvedInst) (kids : List NodeId) : Node :=
  { op := .inst i.opcode
    width := if i.opcode = .alloca then 64 else i.ty.bits
    source := some id
    block := some b
    predicate := i.operation.predicate?
    callee := i.operation.callee?
    allocBytes := if i.opcode = .alloca then i.ty.bytes else 0
    kids }

/-- The copy into a phi of block `succ` on the edge out of block `b`. -/
def ofPhiMove (b succ : BlockId) (id : InstId) (i : ResolvedInst) (phi kid : NodeId) : Node :=
  { op := .phiMove, width := i.ty.bits, phiTarget := some (phi, succ), block := some b
    source := some id, kids := [kid] }

end Node

/-! ## Code -/

/-- A block without its label. -/
def Machine.Block.body (b : Machine.Block) : Machine.Block := { b with label := none }

/-- Codes that differ only in labels and in the block that comes next. -/
structure Machine.Code.SameBodies (c c' : Code) : Prop where
  blocks : c'.blocks.map Machine.Block.body = c.blocks.map Machine.Block.body
  vregs : c'.vregs = c.vregs
  frame : c'.frame = c.frame

namespace Machine.Code.SameBodies

variable {a a' a'' : Code}

theorem refl (a : Code) : SameBodies a a := ⟨rfl, rfl, rfl⟩

theorem of_eq (h : a' = a) : SameBodies a a' := h ▸ refl a

theorem trans (h : SameBodies a a') (h' : SameBodies a' a'') : SameBodies a a'' :=
  ⟨h'.blocks.trans h.blocks, h'.vregs.trans h.vregs, h'.frame.trans h.frame⟩

theorem beginBlock (a : Code) (b : Nat) (label : Option LabelId) :
    SameBodies a (a.beginBlock b label) := by
  refine ⟨List.ext_getElem? fun k ↦ ?_, rfl, rfl⟩
  simp only [Code.beginBlock, Code.updateBlock, List.getElem?_map, List.getElem?_modify]
  cases a.blocks[k]? with
  | none => rfl
  | some block =>
    simp only [Option.map_some]
    split <;> rfl

end Machine.Code.SameBodies

/-! ## Names -/

namespace Workspace

/-- Node `k` exists and has the core `n`. -/
def Is (w : Workspace) (k : NodeId) (n : Node) : Prop :=
  k < w.forest.size ∧ (w.forest.node k).core = n

/-- A node that stands for the result of instruction `id`. -/
def Results (w : Workspace) (id : InstId) (k : NodeId) : Prop :=
  k < w.forest.size ∧ (∃ o, (w.forest.node k).op = .inst o) ∧ (w.forest.node k).source = some id

/-- A node that stands for an operand position of an instruction of `f`. -/
inductive Denotes (f : Func) (w : Workspace) : Place Value BlockId → NodeId → Prop
  | int {n : Int} {bits : Nat} {c : Constant} {k : NodeId} (hc : castInt n bits = .ok c)
      (hk : w.Is k (.ofConstant c bits)) : Denotes f w (.operand (.int n bits)) k
  | float {x : Binary64} {k : NodeId} (hk : w.Is k (.ofConstant (.float x) 64)) :
      Denotes f w (.operand (.float x)) k
  | arg {idx : Nat} {p : Param} {k : NodeId} (hp : f.params[idx]? = some p)
      (hk : w.Is k (.ofArgument idx p.ty)) : Denotes f w (.operand (.value (.arg idx))) k
  | inst {id : InstId} {k : NodeId} (hk : w.Results id k) :
      Denotes f w (.operand (.value (.inst id))) k
  | block {b : BlockId} {k : NodeId} {l : LabelId} (hlabel : w.defs.labels.lookup b = some k)
      (hk : w.Is k (.ofLabel l)) : Denotes f w (.block b) k

/-- The children of an instruction. -/
inductive HasKids (f : Func) (w : Workspace) (k : NodeId) :
    Operation Value BlockId → List NodeId → Prop
  | call {callee : String} {args : List (Ir.Operand Value)} {kids : List NodeId}
      (hlist : w.Is (k + 1) (.ofArgs kids))
      (hkids : List.Forall₂ (w.Denotes f) (args.map .operand) kids) (hold : ∀ j ∈ kids, j < k) :
      HasKids f w k (.call callee args) [k + 1]
  | br {t : BlockId} {kid : NodeId} (hkid : w.Denotes f (.block t) kid) (hold : kid < k)
      (hfirst : w.Is (k + 1) .pad) (hsecond : w.Is (k + 2) .pad) :
      HasKids f w k (.br t) [kid, k + 1, k + 2]
  | other {op : Operation Value BlockId} {kids : List NodeId} (hcall : op.opcode ≠ .call)
      (hbr : ∀ t, op ≠ .br t)
      (hkids : List.Forall₂ (w.Denotes f) op.places kids) (hold : ∀ j ∈ kids, j < k) :
      HasKids f w k op kids

/-! ## Shapes -/

/-- The shape of a node in the forest of a function. -/
inductive Shape (f : Func) (w : Workspace) (k : NodeId) : Prop
  | argument {idx : Nat} {p : Param} (hp : f.params[idx]? = some p)
      (h : w.Is k (.ofArgument idx p.ty))
  | constant {c : Constant} {width : Nat} (h : w.Is k (.ofConstant c width))
  | label {l : LabelId} (h : w.Is k (.ofLabel l))
  | pad (h : w.Is k .pad)
  | phi {b : BlockId} {id : InstId} {i : ResolvedInst} {v : VReg} (hi : (id, i) ∈ f.blockPhis b)
      (h : w.Is k (.ofPhi b id i v)) (hv : v < w.code.vregs)
  | phiUse {b : BlockId} {id : InstId} {i : ResolvedInst} {target : Option NodeId}
      (hi : (id, i) ∈ f.blockInsts b) (hphi : i.operation.isPhi = true)
      (h : w.Is k (.ofPhiUse b id i target)) (htarget : target = w.defs.phis.lookup id)
      (hold : ∀ t, target = some t → t < k ∧ ∃ b i v, w.Is t (.ofPhi b id i v))
  | args {kids : List NodeId} (h : w.Is k (.ofArgs kids))
      (hold : ∀ j ∈ kids, j + 1 < k ∧ ∃ p, w.Denotes f p j)
  | inst {b : BlockId} {id : InstId} {i : ResolvedInst} {kids : List NodeId}
      (hi : (id, i) ∈ f.blockInsts b) (hphi : i.operation.isPhi = false)
      (h : w.Is k (.ofInst b id i kids)) (hkids : w.HasKids f k i.operation kids)
  | phiMove {b succ : BlockId} {id : InstId} {i : ResolvedInst} {phi kid : NodeId} {n : Nat}
      {value : Ir.Operand Value} (hi : (id, i) ∈ f.blockPhis succ)
      (hvalue : i.operation.incoming.zipIdx.find? (·.1.2 == b) = some ((value, b), n))
      (hphi : w.defs.phis.lookup id = some phi) (h : w.Is k (.ofPhiMove b succ id i phi kid))
      (hkid : w.Denotes f (.operand value) kid) (hold : kid < k)

/-! ## Growth -/

/-- From `w` to `w'` the forest grows and labels get names; what the names of phis stand for and the
code stay. -/
structure Grows (w w' : Workspace) : Prop where
  forest : w.forest.Grows w'.forest
  code : w.code.SameBodies w'.code
  phis : w'.defs.phis = w.defs.phis
  labels : ∀ b k, w.defs.labels.lookup b = some k → w'.defs.labels.lookup b = some k

theorem Grows.refl (w : Workspace) : w.Grows w := ⟨.refl _, .refl _, rfl, fun _ _ h ↦ h⟩

theorem Grows.trans (h : w.Grows w') (h' : w'.Grows w'') : w.Grows w'' where
  forest := h.forest.trans h'.forest
  code := h.code.trans h'.code
  phis := h'.phis.trans h.phis
  labels b k hk := h'.labels b k (h.labels b k hk)

theorem Is.grows (h : w.Is k n) (hgrows : w.Grows w') : w'.Is k n :=
  ⟨Nat.lt_of_lt_of_le h.1 hgrows.forest.size, (hgrows.forest.core k h.1).trans h.2⟩

theorem Results.grows (h : w.Results id k) (hgrows : w.Grows w') : w'.Results id k := by
  obtain ⟨hk, ⟨o, ho⟩, hsource⟩ := h
  have hcore := hgrows.forest.core k hk
  exact ⟨Nat.lt_of_lt_of_le hk hgrows.forest.size, ⟨o, (Node.op_of_core hcore).trans ho⟩,
    (Node.source_of_core hcore).trans hsource⟩

theorem Denotes.grows {p : Place Value BlockId} (h : w.Denotes f p k) (hgrows : w.Grows w') :
    w'.Denotes f p k := by
  cases h with
  | int hc hk => exact .int hc (hk.grows hgrows)
  | float hk => exact .float (hk.grows hgrows)
  | arg hp hk => exact .arg hp (hk.grows hgrows)
  | inst hk => exact .inst (hk.grows hgrows)
  | block hlabel hk => exact .block (hgrows.labels _ _ hlabel) (hk.grows hgrows)

theorem Denotes.grows_all {ps : List (Place Value BlockId)}
    (h : List.Forall₂ (w.Denotes f) ps kids) (hgrows : w.Grows w') :
    List.Forall₂ (w'.Denotes f) ps kids := h.imp fun _ _ hk ↦ hk.grows hgrows

theorem HasKids.grows {op : Operation Value BlockId} (h : w.HasKids f k op kids)
    (hgrows : w.Grows w') : w'.HasKids f k op kids := by
  cases h with
  | call hlist hkids hold =>
    exact .call (hlist.grows hgrows) (Denotes.grows_all hkids hgrows) hold
  | br hkid hold hfirst hsecond =>
    exact .br (hkid.grows hgrows) hold (hfirst.grows hgrows) (hsecond.grows hgrows)
  | other hcall hbr hkids hold => exact .other hcall hbr (Denotes.grows_all hkids hgrows) hold

theorem Shape.grows (h : w.Shape f k) (hgrows : w.Grows w') : w'.Shape f k := by
  cases h with
  | argument hp h => exact .argument hp (h.grows hgrows)
  | constant h => exact .constant (h.grows hgrows)
  | label h => exact .label (h.grows hgrows)
  | pad h => exact .pad (h.grows hgrows)
  | phi hi h hv => exact .phi hi (h.grows hgrows) (hgrows.code.vregs ▸ hv)
  | phiUse hi hphi h htarget hold =>
    refine .phiUse hi hphi (h.grows hgrows) (hgrows.phis ▸ htarget) fun t ht ↦ ?_
    obtain ⟨hlt, b, i, v, ht⟩ := hold t ht
    exact ⟨hlt, b, i, v, ht.grows hgrows⟩
  | args h hold =>
    exact .args (h.grows hgrows) fun j hj ↦
      (hold j hj).imp_right fun ⟨p, hp⟩ ↦ ⟨p, hp.grows hgrows⟩
  | inst hi hphi h hkids => exact .inst hi hphi (h.grows hgrows) (hkids.grows hgrows)
  | phiMove hi hvalue hphi h hkid hold =>
    exact .phiMove hi hvalue (hgrows.phis ▸ hphi) (h.grows hgrows) (hkid.grows hgrows) hold

end Workspace

end TreeCover
