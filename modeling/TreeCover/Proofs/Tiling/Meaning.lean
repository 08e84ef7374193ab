import TreeCover.Proofs.Covering.Leaves
import TreeCover.Proofs.Tiling.Extensions
import TreeCover.Proofs.Tiling.PhiInputs

/-!
# What results stand for

A result holds in a state of the machine if it stands for the value of its node there: in a register, as a
constant, in memory, as an address, or in the flags. The value of a node follows from those of its
children, and an action whose leaves hold makes a result that holds.

Stores, calls, branches and the inputs of phis are no part of this: nothing is made of their results.

Main statement: `Rule.Matches.makes`.
-/

namespace TreeCover

open Ir Machine Machine.Core Work

variable {g h : Forest} {σ : World} {F frame : Frame} {V : NodeId → Word} {c : Callee} {s s' : Core}
  {k p q : NodeId} {nt goal goal' goal'' : Nonterminal} {r : Rule} {kids : List Bound} {b x y : Bound}
  {n v u : VReg} {mem : Memory} {o : Opcode} {leaf : NodeId × Nonterminal} {is : List Machine.Inst} {m : Mem}
  {z w z' : Word}

/-! ## Values of nodes -/

/-- The value of a node, from those of its children, if the node says how. -/
def Forest.value? (g : Forest) (σ : World) (mem : Memory) (V : NodeId → Word) (k : NodeId) :
    Option Word :=
  let n := g.node k
  match n.op, g.kidOwners k with
  | .imm, _ => n.constant.map (·.word)
  | .arg idx, _ => some (σ.args idx)
  | .inst (.binary op), [p, q] => op.run? (V p) (V q)
  | .inst (.cast op), [p] => some (Arithmetic.machine.cast op (g.node p).width n.width (V p))
  | .inst .icmp, [p, q] => n.predicate.map fun c ↦ truth (c.eval (V p) (V q))
  | .inst .alloca, _ => n.source.map σ.slots
  | .inst .load, [p] => some (Arithmetic.machine.load n.width (mem.word (V p)))
  | _, _ => some (V k)

/-- The node has the value that it says. -/
def Forest.Means (g : Forest) (σ : World) (mem : Memory) (V : NodeId → Word) (k : NodeId) : Prop :=
  (g.node k).computed = false → g.value? σ mem V k = some (V k)

/-- A cast of the node is one whose code runs. -/
def Forest.Casts (g : Forest) (k : NodeId) : Prop :=
  ∀ op p, (g.node k).op = .inst (.cast op) → op ≠ .trunc → g.kidOwners k = [p] →
    64 ≤ (g.node p).width ∨ extends? (op = .sext) (g.node p).width = true

theorem Forest.SameSkeleton.value? (hskeleton : g.SameSkeleton h) (mem : Memory) (V : NodeId → Word)
    (k : NodeId) : h.value? σ mem V k = g.value? σ mem V k := by
  have hconstant : (h.node k).constant = (g.node k).constant :=
    (congrArg Node.constant (hskeleton.node k) :)
  have hpredicate : (h.node k).predicate = (g.node k).predicate :=
    (congrArg Node.predicate (hskeleton.node k) :)
  have hsource : (h.node k).source = (g.node k).source :=
    (congrArg Node.source (hskeleton.node k) :)
  simp only [Forest.value?, hskeleton.op, hskeleton.kidOwners, hskeleton.width, hconstant, hpredicate,
    hsource]

/-! ## Results -/

theorem Machine.Core.address_register (s : Core) (v : VReg) :
    s.address (.based (.virt v) 0) = s.regs (.virt v) := by
  rw [Core.address]
  simp [Mem.based]

theorem Machine.Core.address_displace (s : Core) (m : Mem) (z : Word) :
    s.address { m with disp := m.disp + z.toInt } = s.address m + z := by
  simp only [Core.address, BitVec.ofInt_add, BitVec.ofInt_toInt]
  ac_rfl

theorem steady_indexedAddress (base index : VReg) (shift : Option Word) :
    (indexedAddress base index shift).Steady := by
  intro q hq
  simp [indexedAddress, Mem.regs] at hq

theorem Machine.Core.address_indexed (s : Core) (base index : VReg) :
    s.address (indexedAddress base index none) = s.regs (.virt base) + s.regs (.virt index) := by
  simp [Core.address, indexedAddress]

theorem Machine.Core.address_scaled (s : Core) (base index : VReg) (hz : z.toNat ≤ 3) :
    s.address (indexedAddress base index (some z)) =
      s.regs (.virt base) + s.regs (.virt index) <<< z.toNat := by
  have hsigned : z.toInt = z.toNat := BitVec.toInt_eq_toNat_of_lt (by omega)
  have hclamped : (min 3 (z.toNat : Int)).toNat = z.toNat := by omega
  have hscale : BitVec.ofNat 64 (1 <<< z.toNat) = BitVec.twoPow 64 z.toNat := by
    have hcases : z.toNat = 0 ∨ z.toNat = 1 ∨ z.toNat = 2 ∨ z.toNat = 3 := by omega
    rcases hcases with h | h | h | h <;> rw [h] <;> decide
  simp [Core.address, indexedAddress, hsigned, hclamped, hscale]

/-- A result stands for the value of node `k` in the state `s`. -/
def Bound.Holds (g : Forest) (V : NodeId → Word) (s : Core) (k : NodeId) : Bound → Prop
  | .none => True
  | .reg v => s.regs (.virt v) = V k
  | .imm w => w = V k
  | .mem m => m.Steady ∧ s.mem.word (s.address m) = V k
  | .addr m => m.Steady ∧ s.address m = V k
  | .cond p => truth (s.flags.holds p) = V k
  | .label l => (g.node k).slot = .label l
  | .args bs => ∃ vs : List VReg, bs = vs.map .reg ∧ (vs.map fun v ↦ s.regs (.virt v)) = (g.kidOwners k).map V

/-- A leaf was reduced to a result that serves and holds, and names registers below `n` only. -/
structure Fits (g : Forest) (V : NodeId → Word) (n : VReg) (s : Core) (leaf : NodeId × Nonterminal)
    (b : Bound) : Prop where
  serves : Serves g leaf.1 leaf.2 b
  holds : b.Holds g V s leaf.1
  below : ∀ x ∈ b.vregs, x < n

theorem Bound.Holds.spared (hb : b.Holds g V s k) (hspares : Spares (n ≤ ·) s s')
    (hbelow : ∀ x ∈ b.vregs, x < n) (hcond : ∀ p, b ≠ .cond p) : b.Holds g V s' k := by
  have hvirt : ∀ x < n, s'.regs (.virt x) = s.regs (.virt x) :=
    fun x hx ↦ hspares.virt x (Nat.not_le.mpr hx)
  cases b with
  | none | imm | label => exact hb
  | reg v => exact (hvirt v (hbelow v (by simp))).trans hb
  | mem m =>
    have haddress := hspares.address hb.1 fun x hx ↦ Nat.not_le.mpr (hbelow x (by simpa using hx))
    exact ⟨hb.1, by rw [haddress, hspares.mem]; exact hb.2⟩
  | addr m =>
    have haddress := hspares.address hb.1 fun x hx ↦ Nat.not_le.mpr (hbelow x (by simpa using hx))
    exact ⟨hb.1, haddress.trans hb.2⟩
  | cond p => exact absurd rfl (hcond p)
  | args bs =>
    obtain ⟨vs, rfl, hvs⟩ := hb
    refine ⟨vs, rfl, (List.map_congr_left fun x hx ↦ hvirt x (hbelow x ?_)).trans hvs⟩
    rw [vregs_args, List.mem_flatMap]
    exact ⟨.reg x, List.mem_map_of_mem hx, by simp⟩

theorem Fits.later (hb : Fits g V n s leaf b) (hspares : Spares (n ≤ ·) s s') (hn : n ≤ u)
    (hcond : ∀ p, b ≠ .cond p) : Fits g V u s' leaf b where
  serves := hb.serves
  holds := hb.holds.spared hspares hb.below hcond
  below x hx := Nat.lt_of_lt_of_le (hb.below x hx) hn

/-- What is found in the register of a computed node. -/
theorem Bound.Holds.of_reuse {l : Node} (hreuse : l.reuse? nt = some b)
    (hslot : ∀ v, l.slot = .vreg v → s.regs (.virt v) = V k) : b.Holds g V s k := by
  unfold Node.reuse? at hreuse
  split at hreuse
  next hv => exact Option.some.inj hreuse ▸ hslot _ hv
  next hv => exact Option.some.inj hreuse ▸ hslot _ hv
  next hv =>
    exact Option.some.inj hreuse ▸ ⟨Mem.steady_based _ 0, (s.address_register _).trans (hslot _ hv)⟩
  next => exact Option.some.inj hreuse ▸ trivial
  next => exact absurd hreuse (by simp)

/-! ## Leaves -/

section

variable (hmatches : r.Matches g k) (hkids : List.Forall₂ (Fits g V n s) (r.pattern.leaves g k) kids)
include hmatches hkids

omit hmatches in
theorem Fits.allServe : AllServe g (r.pattern.takeLeaves k g).1 kids := by
  rw [r.pattern.takeLeaves_fst k g (.refl g)]
  exact hkids.imp fun _ _ hb ↦ hb.serves

/-- The child of an instruction with one. -/
theorem Rule.Matches.one_kid (hp : r.pattern.inst? = some (o, [goal])) :
    (g.node k).computed = false ∧ (g.node k).op = .inst o ∧ ∃ p x, g.kidOwners k = [p] ∧ kids = [x] ∧
      Fits g V n s (p, goal) x := by
  obtain ⟨hleaves, hlength, hnew, hop⟩ := Pattern.leaves_of_inst hp hmatches.fits (.refl g)
  obtain ⟨p, hp⟩ := List.length_eq_one_iff.mp hlength
  rw [r.pattern.takeLeaves_fst k g (.refl g), hp] at hleaves
  rw [hleaves] at hkids
  obtain ⟨x, hx, rfl⟩ := exists_of_forall₂_one hkids
  exact ⟨hnew, hop, p, x, hp, rfl, hx⟩

/-- The children of an instruction with two. -/
theorem Rule.Matches.two_kids (hp : r.pattern.inst? = some (o, [goal, goal'])) :
    (g.node k).computed = false ∧ (g.node k).op = .inst o ∧ ∃ p q x y, g.kidOwners k = [p, q] ∧
      kids = [x, y] ∧ Fits g V n s (p, goal) x ∧ Fits g V n s (q, goal') y := by
  obtain ⟨hleaves, hlength, hnew, hop⟩ := Pattern.leaves_of_inst hp hmatches.fits (.refl g)
  obtain ⟨p, q, hp⟩ := List.length_eq_two.mp hlength
  rw [r.pattern.takeLeaves_fst k g (.refl g), hp] at hleaves
  rw [hleaves] at hkids
  obtain ⟨x, y, hx, hy, rfl⟩ := exists_of_forall₂_two hkids
  exact ⟨hnew, hop, p, q, x, y, hp, rfl, hx, hy⟩

/-- The children of an instruction with three. -/
theorem Rule.Matches.three_kids (hp : r.pattern.inst? = some (o, [goal, goal', goal''])) :
    (g.node k).op = .inst o ∧ ∃ p q q' x y z, g.kidOwners k = [p, q, q'] ∧ kids = [x, y, z] ∧
      Fits g V n s (p, goal) x ∧ Fits g V n s (q, goal') y ∧ Fits g V n s (q', goal'') z := by
  obtain ⟨hleaves, hlength, -, hop⟩ := Pattern.leaves_of_inst hp hmatches.fits (.refl g)
  obtain ⟨p, q, q', hp⟩ := List.length_eq_three.mp hlength
  rw [r.pattern.takeLeaves_fst k g (.refl g), hp] at hleaves
  rw [hleaves] at hkids
  obtain ⟨x, y, z, hx, hy, hz, rfl⟩ := exists_of_forall₂_three hkids
  exact ⟨hop, p, q, q', x, y, z, hp, rfl, hx, hy, hz⟩

omit hmatches in
/-- The leaf of a chain rule. -/
theorem Fits.of_source (hp : r.pattern.source? = some goal) :
    ∃ x, kids = [x] ∧ Fits g V n s (k, goal) x := by
  rw [← r.pattern.takeLeaves_fst k g (.refl g), Pattern.leaves_of_source hp] at hkids
  obtain ⟨x, hx, rfl⟩ := exists_of_forall₂_one hkids
  exact ⟨x, rfl, hx⟩

end

/-- A constant that a guard has seen. -/
theorem Fits.guarded (hmatches : r.Matches g k) (hflat : g.Flat) (idx : Nat)
    (hkid : (g.kidOwners k)[idx]? = some q) (hq : Fits g V n s (q, .imm) (.imm z)) {test : Word → Bool}
    {guard : Guard} (hguard : r.guard = some guard)
    (htest : guard.holds g k = (g.kidConst? k idx).any test) : test z = true := by
  have hadmits := hmatches.admits
  rw [Rule.admits, hguard, Option.all_some, htest] at hadmits
  exact (hq.serves.constant z rfl).of_kidConst hflat hkid hadmits

/-- A result as the second operand of an instruction. -/
theorem Fits.operand (hy : Fits g V n s (q, goal) y) (hgoal : goal ∈ [Nonterminal.reg, .mem, .imm])
    {ro : Machine.Operand} (ho : y.operand? = some ro) :
    s.read 8 ro = some (V q) ∧ ro.Steady ∧ (∀ x ∈ ro.vregs, x < n) ∧
      ((∃ z, y = .imm z ∧ ro = .imm z ∧ goal = .imm) ∨ fits false ro = true) := by
  obtain ⟨hserves, hholds, hbelow⟩ := hy
  simp only [List.mem_cons, List.not_mem_nil, or_false] at hgoal
  have hreg : ∀ v, y = .reg v → s.read 8 ro = some (V q) ∧ ro.Steady ∧ (∀ x ∈ ro.vregs, x < n) ∧
      ((∃ z, y = .imm z ∧ ro = .imm z ∧ goal = .imm) ∨ fits false ro = true) := by
    rintro v rfl
    obtain rfl := Option.some.inj ho
    exact ⟨(read_vreg s v).trans (congrArg some hholds), trivial, by simpa using hbelow, Or.inr rfl⟩
  rcases hgoal with rfl | rfl | rfl
  · obtain ⟨v, hv⟩ := hserves.suits
    exact hreg v hv
  · rcases hserves.suits with ⟨v, hv⟩ | ⟨m, rfl⟩
    · exact hreg v hv
    · obtain rfl := Option.some.inj ho
      exact ⟨congrArg some hholds.2, hholds.1, by simpa using hbelow, Or.inr rfl⟩
  · obtain ⟨z, rfl⟩ := hserves.suits
    obtain rfl := Option.some.inj ho
    exact ⟨(read_imm s z).trans (congrArg some hholds), trivial, fun x hx ↦ absurd hx List.not_mem_nil,
      Or.inl ⟨z, rfl, rfl, rfl⟩⟩

/-- The second operand of an instruction, whose constants fit. -/
theorem Fits.second (hmatches : r.Matches g k) (hflat : g.Flat) (hpq : g.kidOwners k = [p, q])
    (hy : Fits g V n s (q, goal) y) (hgoal : goal ∈ [Nonterminal.reg, .mem, .imm])
    (hguard : goal = .imm → r.guard = some .secondImm32) {ro : Machine.Operand} (ho : y.operand? = some ro) :
    s.read 8 ro = some (V q) ∧ ro.Steady ∧ (∀ x ∈ ro.vregs, x < n) ∧ fits false ro = true := by
  obtain ⟨hread, hsteady, hbelow, ⟨z, rfl, rfl, rfl⟩ | hfits⟩ := hy.operand hgoal ho
  · exact ⟨hread, hsteady, hbelow, hy.guarded hmatches hflat 1 (by rw [hpq]; rfl) (hguard rfl) rfl⟩
  · exact ⟨hread, hsteady, hbelow, hfits⟩

/-- Leaves that were reduced to registers. -/
theorem Fits.registers {ps : List NodeId}
    (hkids : List.Forall₂ (Fits g V n s) (ps.map fun p ↦ (p, .reg)) kids) :
    ∃ vs : List VReg, kids = vs.map .reg ∧ (vs.map fun v ↦ s.regs (.virt v)) = ps.map V := by
  induction ps generalizing kids with
  | nil => exact ⟨[], List.forall₂_nil_left_iff.mp hkids, rfl⟩
  | cons p ps ih =>
    obtain ⟨b, bs, hb, hbs, rfl⟩ := List.forall₂_cons_left_iff.mp hkids
    obtain ⟨v, rfl⟩ := hb.serves.suits
    obtain ⟨vs, rfl, hvs⟩ := ih hbs
    exact ⟨v :: vs, rfl, congrArg₂ List.cons hb.holds hvs⟩

/-! ## Constants -/

/-- What folds is what runs. -/
theorem Ir.BinaryOp.run?_of_fold {op : BinaryOp} (h : op.fold? z w = some z') : op.run? z w = some z' := by
  cases op with
  | add | sub | mul | and | or | xor => exact h
  | shl =>
    rw [fold?] at h
    split at h
    next hlt =>
      have hmask : (w &&& 63).toNat = w.toNat := (toNat_and_63 w).trans (Nat.mod_eq_of_lt hlt)
      simp only [run?, eval?, isShift, if_true, hmask, if_pos hlt, h]
    next => exact absurd h (by simp)
  | _ => exact absurd h (by simp [fold?])

/-! ## Actions -/

/-- Code that runs, writes no virtual register but `v`, and makes a result that holds. -/
def Delivers (c : Callee) (g : Forest) (V : NodeId → Word) (s : Core) (v : VReg) (k : NodeId)
    (is : List Machine.Inst) (b : Bound) : Prop :=
  ∃ s', run c is s = some s' ∧ Spares (· = v) s s' ∧ b.Holds g V s' k

theorem Delivers.nothing (hb : b.Holds g V s k) : Delivers c g V s v k [] b := ⟨s, rfl, .refl s, hb⟩

theorem Delivers.puts (h : Puts c is s v (V k)) : Delivers c g V s v k is (.reg v) := h

/-- Whether an action only computes: it leaves memory alone, stays in the block, and hands nothing to
phis. -/
def Action.computes : Action → Bool
  | .store | .call | .jump | .branchCond | .branchTest | .ret | .phiInput => false
  | _ => true

/-- The state `s` has the values of what the forest `h` says is computed, the arguments, and the room in
`F` for allocas where `σ` has it. -/
structure Agrees (σ : World) (F : Frame) (V : NodeId → Word) (h : Forest) (s : Core) : Prop where
  computed : ∀ k v, (h.node k).computed = true → (h.node k).slot = .vreg v → s.regs (.virt v) = V k
  args : ∀ k idx m, (h.node k).op = .arg idx → (h.node k).slot = .mem m →
    s.mem.word (s.address m) = σ.args idx
  rooms : ∀ i m, F.slot? (.value i) = some m → s.address m = σ.slots i

section

variable (hmatches : r.Matches g k) (hlater : g.Later h)
  (hexpands : Expands (h.node k) frame kids v r.action is b)
include hmatches hlater hexpands

/-- What the slot of a node holds. -/
theorem Rule.Matches.makes_leaf (hheld : g.HoldsOn h) (hagree : Agrees σ F V h s)
    (hmeans : g.Means σ s.mem V k)
    (haction : r.action ∈ [.immediate, .register, .memory, .label, .nothing]) :
    Delivers c g V s v k is b := by
  have hslotted := hlater.complete.slotted k
  have hop := hlater.skeleton.op k
  have hconstant : (h.node k).constant = (g.node k).constant :=
    (congrArg Node.constant (hlater.skeleton.node k) :)
  simp only [List.mem_cons, List.not_mem_nil, or_false] at haction
  rcases haction with haction | haction | haction | haction | haction <;> rw [haction] at hexpands
  · obtain ⟨-, hleaf⟩ := Grammar.tile_immediate r hmatches.mem haction
    obtain ⟨hnew, himm⟩ := head?_imm
      (hmatches.fits.head? (Pattern.leaves_of_isLeaf (k := k) (f := g) hleaf).2)
    obtain ⟨c, hc, hslot⟩ := hslotted.literal (hop.trans himm)
    have hvalue := hmeans hnew
    simp only [Forest.value?, himm, ← hconstant, hc, Option.map_some, Option.some.injEq] at hvalue
    cases hexpands with
    | immediate h => exact .nothing ((Slot.imm.inj (h.symm.trans hslot)).trans hvalue)
    | extendWhole h => exact absurd h (by simp)
  · obtain ⟨-, hleaf⟩ := Grammar.tile_register r hmatches.mem haction
    have hcomputed : (h.node k).computed = true := by
      rcases head?_inRegister (hmatches.fits.head? (Pattern.leaves_of_isLeaf (k := k) (f := g) hleaf).2)
        with hcomputed | hphi
      · exact hlater.computed k hcomputed
      · exact hslotted.phi (hop.trans hphi)
    cases hexpands with
    | register h => exact .nothing (hagree.computed k _ hcomputed h)
    | extendWhole h => exact absurd h (by simp)
  · obtain ⟨-, hleaf⟩ := Grammar.tile_memory r hmatches.mem haction
    obtain ⟨hnew, idx, harg⟩ := head?_arg
      (hmatches.fits.head? (Pattern.leaves_of_isLeaf (k := k) (f := g) hleaf).2)
    obtain ⟨d, hslot⟩ := hslotted.argument idx (hop.trans harg)
    have hvalue := hmeans hnew
    simp only [Forest.value?, harg, Option.some.injEq] at hvalue
    cases hexpands with
    | memory h =>
      obtain rfl := Slot.mem.inj (h.symm.trans hslot)
      exact .nothing ⟨Mem.steady_frame d, (hagree.args k idx _ (hop.trans harg) h).trans hvalue⟩
    | extendWhole h => exact absurd h (by simp)
  · obtain ⟨-, hleaf⟩ := Grammar.tile_label r hmatches.mem haction
    obtain ⟨-, hlabel⟩ := head?_label
      (hmatches.fits.head? (Pattern.leaves_of_isLeaf (k := k) (f := g) hleaf).2)
    cases hexpands with
    | label h =>
      have hslot := (hheld.held k fun o ho ↦ NodeOp.noConfusion (hlabel.symm.trans ho)).2
      exact .nothing (hslot.symm.trans h)
    | extendWhole h => exact absurd h (by simp)
  · cases hexpands with
    | nothing => exact .nothing trivial
    | extendWhole h => exact absurd h (by simp)

variable (hkids : List.Forall₂ (Fits g V n s) (r.pattern.leaves g k) kids)
include hkids

omit hlater in
/-- What chain rules do. -/
theorem Rule.Matches.makes_chain
    (haction : r.action ∈ [.loadImm, .loadMem, .lea, .addrBase, .discard, .setCond]) :
    Delivers c g V s v k is b := by
  have hr := hmatches.mem
  simp only [List.mem_cons, List.not_mem_nil, or_false] at haction
  rcases haction with haction | haction | haction | haction | haction | haction <;>
    rw [haction] at hexpands
  · obtain ⟨_, rfl, hx⟩ := Fits.of_source hkids (Grammar.tile_loadImm r hr haction).2
    cases hexpands with
    | loadImm h =>
      obtain rfl := Option.some.inj h
      exact .puts (hx.holds ▸ puts_loadConstant _)
    | extendWhole h => exact absurd h (by simp)
  · obtain ⟨_, rfl, hx⟩ := Fits.of_source hkids (Grammar.tile_loadMem r hr haction).2
    cases hexpands with
    | loadMemReg h =>
      obtain rfl := Option.some.inj h
      exact .nothing hx.holds
    | loadMem h =>
      obtain rfl := Option.some.inj h
      exact .puts (hx.holds.2 ▸ puts_moveTo rfl (read_mem _ _))
    | extendWhole h => exact absurd h (by simp)
  · obtain ⟨_, rfl, hx⟩ := Fits.of_source hkids (Grammar.tile_lea r hr haction).2
    obtain ⟨m, rfl⟩ := hx.serves.suits
    cases hexpands with
    | @leaBase u h =>
      obtain rfl := Option.some.inj h
      exact .nothing ((s.address_register u).symm.trans hx.holds.2)
    | lea h =>
      obtain rfl := Option.some.inj h
      exact .puts (hx.holds.2 ▸ puts_lea _)
    | extendWhole h => exact absurd h (by simp)
  · obtain ⟨_, rfl, hx⟩ := Fits.of_source hkids (Grammar.tile_addrBase r hr haction).2
    obtain ⟨u, rfl⟩ := hx.serves.suits
    cases hexpands with
    | addrBase h =>
      obtain rfl := Option.some.inj h
      exact .nothing ⟨Mem.steady_based u 0, (s.address_register u).trans hx.holds⟩
    | extendWhole h => exact absurd h (by simp)
  · cases hexpands with
    | discard => exact .nothing trivial
    | extendWhole h => exact absurd h (by simp)
  · obtain ⟨_, rfl, hx⟩ := Fits.of_source hkids (Grammar.tile_setCond r hr haction).2
    cases hexpands with
    | setCond h =>
      obtain rfl := Option.some.inj h
      exact .puts (hx.holds ▸ puts_setCond _)
    | extendWhole h => exact absurd h (by simp)

/-- Constants that fold. -/
theorem Rule.Matches.makes_fold (hmeans : g.Means σ s.mem V k) (haction : r.action = .fold) :
    Delivers c g V s v k is b := by
  obtain ⟨-, op, -, hp⟩ := Grammar.tile_fold r hmatches.mem haction
  obtain ⟨hnew, hop, p, q, _, _, hpq, rfl, hx, hy⟩ := hmatches.two_kids hkids hp
  have hvalue := hmeans hnew
  simp only [Forest.value?, hop, hpq] at hvalue
  rw [haction] at hexpands
  cases hexpands with
  | fold hop' ha hb hc =>
    obtain rfl := Option.some.inj ha
    obtain rfl := Option.some.inj hb
    have hopcode : (h.node k).opcode? = some (.binary op) := by
      rw [Node.opcode?, (hlater.skeleton.op k).trans hop]
    obtain rfl := Option.some.inj (hop'.symm.trans hopcode)
    rw [← hx.holds, ← hy.holds, BinaryOp.run?_of_fold hc] at hvalue
    exact .nothing (Option.some.inj hvalue)
  | extendWhole h => exact absurd h (by simp)

omit hlater in
/-- An index that is scaled by a shift below the sum. -/
theorem Rule.Matches.makes_scaled (hflat : g.Flat)
    (hmeans : ∀ j, j = k ∨ (g.node k).computed = false ∧ j ∈ g.kidOwners k → g.Means σ s.mem V j)
    (haction : r.action = .addrIndex)
    (hp : r.pattern.isScaledIndex = true) (hguard : r.guard = some .secondScale) :
    Delivers c g V s v k is b := by
  obtain ⟨p, t, q, q', hleaves, hpt, hqq', hnew, hop, hnew', hop'⟩ :=
    Pattern.leaves_of_isScaledIndex hp hmatches.fits (.refl g)
  rw [r.pattern.takeLeaves_fst k g (.refl g)] at hleaves
  rw [hleaves] at hkids
  obtain ⟨_, _, _, hx, hy, hz, rfl⟩ := exists_of_forall₂_three hkids
  obtain ⟨z, rfl⟩ := hz.serves.suits
  have hvalue := hmeans k (Or.inl rfl) hnew
  have hshift := hmeans t (Or.inr ⟨hnew, by simp [hpt]⟩) hnew'
  simp only [Forest.value?, hop, hpt] at hvalue
  simp only [Forest.value?, hop', hqq'] at hshift
  have hsmall : z.toNat ≤ 3 := by
    have hadmits := hmatches.admits
    obtain ⟨j, hj, rfl⟩ : ∃ j, (g.node k).kids[1]? = some j ∧ g.owner j = t := by
      have hget : (g.kidOwners k)[1]? = some t := by rw [hpt]; rfl
      rwa [Forest.kidOwners, List.getElem?_map, Option.map_eq_some_iff] at hget
    rw [Rule.admits, hguard, Option.all_some, Guard.holds, hj, Option.any_some] at hadmits
    exact of_decide_eq_true ((hz.serves.constant z rfl).of_kidConst (p := fun y ↦ y.toNat ≤ 3) hflat
      (by rw [hqq']; rfl) hadmits)
  have hmask : (z &&& 63).toNat = z.toNat := (toNat_and_63 z).trans (Nat.mod_eq_of_lt (by omega))
  have hshifted : V q <<< z.toNat = V t := by
    rw [← show z = V q' from hz.holds] at hshift
    simp only [BinaryOp.run?, BinaryOp.eval?, BinaryOp.isShift, if_true, hmask,
      if_pos (Nat.lt_of_le_of_lt hsmall (by decide : 3 < 64)), Option.some.injEq] at hshift
    exact hshift
  rw [haction] at hexpands
  cases hexpands with
  | addrIndex _ _ hnone => exact absurd hnone (by simp)
  | addrScaled hbase hindex hw =>
    obtain rfl := Option.some.inj hbase
    obtain rfl := Option.some.inj hindex
    obtain rfl := Bound.imm.inj (Option.some.inj hw)
    refine .nothing ⟨steady_indexedAddress _ _ _, ?_⟩
    rw [address_scaled s _ _ hsmall, hx.holds, hy.holds, hshifted]
    exact Option.some.inj hvalue
  | extendWhole h => exact absurd h (by simp)

/-- Addresses. -/
theorem Rule.Matches.makes_address
    (hmeans : ∀ j, j = k ∨ (g.node k).computed = false ∧ j ∈ g.kidOwners k → g.Means σ s.mem V j)
    (haction : r.action ∈ [.addrDisp, .addrIndex, .memFromAddr]) :
    Delivers c g V s v k is b := by
  have hr := hmatches.mem
  have hvalue := hmeans k (Or.inl rfl)
  simp only [List.mem_cons, List.not_mem_nil, or_false] at haction
  rcases haction with haction | haction | haction
  · rw [haction] at hexpands
    obtain ⟨hnew, hop, p, q, _, _, hpq, rfl, hx, hy⟩ :=
      hmatches.two_kids hkids (Grammar.tile_addrDisp r hr haction).2
    have hvalue := hvalue hnew
    simp only [Forest.value?, hop, hpq] at hvalue
    obtain ⟨m, rfl⟩ := hx.serves.suits
    cases hexpands with
    | addrDisp hm hw hfits =>
      obtain rfl := Option.some.inj hm
      obtain rfl := Option.some.inj hw
      refine .nothing ⟨hx.holds.1, ?_⟩
      rw [address_displace, hx.holds.2, hy.holds]
      exact Option.some.inj hvalue
    | extendWhole h => exact absurd h (by simp)
  · rcases (Grammar.tile_addrIndex r hr haction).2 with hp | ⟨hp, hguard⟩
    · rw [haction] at hexpands
      obtain ⟨hnew, hop, p, q, _, _, hpq, rfl, hx, hy⟩ := hmatches.two_kids hkids hp
      have hvalue := hvalue hnew
      simp only [Forest.value?, hop, hpq] at hvalue
      cases hexpands with
      | addrIndex hbase hindex =>
        obtain rfl := Option.some.inj hbase
        obtain rfl := Option.some.inj hindex
        refine .nothing ⟨steady_indexedAddress _ _ _, ?_⟩
        rw [address_indexed, hx.holds, hy.holds]
        exact Option.some.inj hvalue
      | addrScaled _ _ hw => exact absurd hw (by simp)
      | extendWhole h => exact absurd h (by simp)
    · exact hmatches.makes_scaled hexpands hkids hlater.flat hmeans haction hp hguard
  · rw [haction] at hexpands
    obtain ⟨-, hp, hguard⟩ := Grammar.tile_memFromAddr r hr haction
    obtain ⟨hnew, hop, p, _, hp, rfl, hx⟩ := hmatches.one_kid hkids hp
    have hvalue := hvalue hnew
    have hwidth : (g.node k).width = 64 := by
      have hadmits := hmatches.admits
      rw [Rule.admits, hguard, Option.all_some] at hadmits
      exact of_decide_eq_true hadmits
    simp only [Forest.value?, hop, hp, hwidth, Option.some.injEq] at hvalue
    obtain ⟨m, rfl⟩ := hx.serves.suits
    cases hexpands with
    | memFromAddr hm =>
      obtain rfl := Option.some.inj hm
      refine .nothing ⟨hx.holds.1, ?_⟩
      rw [hx.holds.2]
      exact hvalue
    | extendWhole h => exact absurd h (by simp)

variable (hmeans : g.Means σ s.mem V k) (hn : n ≤ v)
include hmeans hn

/-- Operators. -/
theorem Rule.Matches.makes_binary (haction : r.action.isBinary = true) : Delivers c g V s v k is b := by
  obtain ⟨-, ⟨op, mnemonic⟩, hmem, haction, goal, hgoal, hp, hguard⟩ :=
    Grammar.tile_binary r hmatches.mem haction
  obtain ⟨hnew, hop, p, q, _, _, hpq, rfl, hx, hy⟩ := hmatches.two_kids hkids hp
  have hvalue := hmeans hnew
  simp only [Forest.value?, hop, hpq] at hvalue
  rw [haction] at hexpands
  cases hexpands with
  | binary hlhs hrhs =>
    obtain rfl := Option.some.inj hlhs
    obtain ⟨hread, hsteady, hbelow, hfits⟩ := Fits.second hmatches hlater.flat hpq hy hgoal hguard hrhs
    refine .puts (puts_binary hmem hfits hsteady (fun hv ↦ ?_) hread (hx.holds.symm ▸ hvalue))
    exact absurd (hbelow v hv) (Nat.not_lt.mpr hn)
  | extendWhole h => exact absurd h (by simp)

omit hn in
theorem Rule.Matches.makes_mulImm (haction : r.action = .mulImm) : Delivers c g V s v k is b := by
  obtain ⟨-, hp, hguard⟩ := Grammar.tile_mulImm r hmatches.mem haction
  obtain ⟨hnew, hop, p, q, _, _, hpq, rfl, hx, hy⟩ := hmatches.two_kids hkids hp
  have hvalue := hmeans hnew
  simp only [Forest.value?, hop, hpq] at hvalue
  rw [haction] at hexpands
  cases hexpands with
  | mulImm hlhs hw =>
    obtain rfl := Option.some.inj hlhs
    obtain rfl := Option.some.inj hw
    exact .puts (puts_mulImm (hy.guarded hmatches hlater.flat 1 (by rw [hpq]; rfl) hguard rfl)
      (hx.holds.symm ▸ hy.holds.symm ▸ hvalue))
  | extendWhole h => exact absurd h (by simp)

omit hn hlater in
theorem Rule.Matches.makes_divide {remainder : Bool} (haction : r.action = .divide remainder) :
    Delivers c g V s v k is b := by
  obtain ⟨-, hp⟩ := Grammar.tile_divide r hmatches.mem remainder haction
  obtain ⟨hnew, hop, p, q, _, _, hpq, rfl, hx, hy⟩ := hmatches.two_kids hkids hp
  have hvalue := hmeans hnew
  simp only [Forest.value?, hop, hpq] at hvalue
  rw [haction] at hexpands
  cases hexpands with
  | divide hlhs hrhs =>
    obtain rfl := Option.some.inj hlhs
    obtain rfl := Option.some.inj hrhs
    exact .puts (puts_divide (hx.holds.symm ▸ hy.holds.symm ▸ hvalue))
  | extendWhole h => exact absurd h (by simp)

omit hn hlater in
theorem Rule.Matches.makes_shift (haction : r.action.isShift = true ∨ r.action.isShiftByReg = true) :
    Delivers c g V s v k is b := by
  rcases haction with haction | haction
  · obtain ⟨-, ⟨op, mnemonic⟩, hmem, haction, hp⟩ := Grammar.tile_shift r hmatches.mem haction
    obtain ⟨hnew, hop, p, q, _, _, hpq, rfl, hx, hy⟩ := hmatches.two_kids hkids hp
    have hvalue := hmeans hnew
    simp only [Forest.value?, hop, hpq] at hvalue
    rw [haction] at hexpands
    cases hexpands with
    | shift hlhs hw =>
      obtain rfl := Option.some.inj hlhs
      obtain rfl := Option.some.inj hw
      exact .puts (puts_shift hmem (hx.holds.symm ▸ hy.holds.symm ▸ hvalue))
    | extendWhole h => exact absurd h (by simp)
  · obtain ⟨-, ⟨op, mnemonic⟩, hmem, haction, hp⟩ := Grammar.tile_shiftByReg r hmatches.mem haction
    obtain ⟨hnew, hop, p, q, _, _, hpq, rfl, hx, hy⟩ := hmatches.two_kids hkids hp
    have hvalue := hmeans hnew
    simp only [Forest.value?, hop, hpq] at hvalue
    rw [haction] at hexpands
    cases hexpands with
    | shiftByReg hlhs hamount =>
      obtain rfl := Option.some.inj hlhs
      obtain rfl := Option.some.inj hamount
      exact .puts (puts_shiftByReg hmem (hx.holds.symm ▸ hy.holds.symm ▸ hvalue))
    | extendWhole h => exact absurd h (by simp)

omit hn in
/-- A comparison leaves its condition in the flags. -/
theorem Rule.Matches.makes_compare (haction : r.action = .compare) : Delivers c g V s v k is b := by
  obtain ⟨-, goal, hgoal, hp, hguard⟩ := Grammar.tile_compare r hmatches.mem haction
  obtain ⟨hnew, hop, p, q, _, _, hpq, rfl, hx, hy⟩ := hmatches.two_kids hkids hp
  have hvalue := hmeans hnew
  have hpredicate : (h.node k).predicate = (g.node k).predicate :=
    (congrArg Node.predicate (hlater.skeleton.node k) :)
  simp only [Forest.value?, hop, hpq, ← hpredicate] at hvalue
  rw [haction] at hexpands
  cases hexpands with
  | compare hlhs hrhs hp =>
    obtain rfl := Option.some.inj hlhs
    obtain ⟨hread, -, -, hfits⟩ := Fits.second hmatches hlater.flat hpq hy hgoal hguard hrhs
    rw [hp, Option.map_some, ← hx.holds] at hvalue
    refine ⟨_, (run_singleton _ _ _).trans (step_compare hfits hread), .setFlags _ _, ?_⟩
    rw [Bound.Holds, flags_setFlags, Flags.holds_ofSub]
    exact Option.some.inj hvalue
  | extendWhole h => exact absurd h (by simp)

omit hn in
theorem Rule.Matches.makes_load (haction : r.action = .load) : Delivers c g V s v k is b := by
  obtain ⟨hnew, hop, p, _, hp, rfl, hx⟩ :=
    hmatches.one_kid hkids (Grammar.tile_load r hmatches.mem haction).2
  have hvalue := hmeans hnew
  simp only [Forest.value?, hop, hp, ← hlater.skeleton.width k, Option.some.injEq] at hvalue
  obtain ⟨m, rfl⟩ := hx.serves.suits
  rw [haction] at hexpands
  cases hexpands with
  | load hm =>
    obtain rfl := Option.some.inj hm
    rw [← hx.holds.2] at hvalue
    exact .puts (hvalue ▸ puts_load rfl rfl)
  | extendWhole h => exact absurd h (by simp)

omit hn hlater in
theorem Rule.Matches.makes_rename (haction : r.action = .rename) : Delivers c g V s v k is b := by
  obtain ⟨hnew, hop, p, _, hp, rfl, hx⟩ :=
    hmatches.one_kid hkids (Grammar.tile_rename r hmatches.mem haction).2
  have hvalue := hmeans hnew
  simp only [Forest.value?, hop, hp, Option.some.injEq] at hvalue
  rw [haction] at hexpands
  cases hexpands with
  | rename hu =>
    obtain rfl := Option.some.inj hu
    exact .nothing (Eq.trans hx.holds hvalue)
  | extendWhole h => exact absurd h (by simp)

omit hn hlater hmeans in
/-- The list of the arguments of a call. -/
theorem Rule.Matches.makes_arguments (haction : r.action = .arguments) : Delivers c g V s v k is b := by
  have hleaves := Pattern.leaves_of_isArguments (k := k)
    (Grammar.tile_arguments r hmatches.mem haction).2 (.refl g)
  rw [r.pattern.takeLeaves_fst k g (.refl g)] at hleaves
  rw [hleaves] at hkids
  rw [haction] at hexpands
  cases hexpands with
  | arguments => exact .nothing (Fits.registers hkids)
  | extendWhole h => exact absurd h (by simp)

end

/-! ## Rooms and casts -/

/-- The room for an alloca is in the frame from then on. -/
theorem applyRule_frameSlot {w w' : Workspace} (haction : r.action = .frameSlot)
    (happly : applyRule r k kids w = .ok b w') : ∃ i m, (w.forest.node k).source = some i ∧
      w'.code.frame.slot? (.value i) = some m ∧ b = .addr m := by
  rw [applyRule] at happly
  simp only [haction, bind_eq_ok, node_ok_iff] at happly
  obtain ⟨n, w, ⟨rfl, rfl⟩, h⟩ := happly
  cases hsource : (w.forest.node k).source with
  | none =>
    rw [hsource] at h
    exact absurd h failBinding_ne_ok
  | some i =>
    simp only [hsource, bind_eq_ok, pure_eq_ok] at h
    obtain ⟨m, w₁, hm, _, w₂, hroles, rfl, rfl⟩ := h
    obtain ⟨rfl, session, -, rfl⟩ := requestSlot_eq_ok hm
    obtain rfl := modify_eq_ok.mp hroles
    exact ⟨i, _, rfl, Frame.slot?_request _ _ _, rfl⟩

/-- The action of a cast of a whole word does nothing. -/
theorem applyRule_extendWhole {w : Workspace} {signed : Bool} {bits : Nat} {j : NodeId}
    (haction : r.action = if signed then .signExtend else .zeroExtend)
    (hkid : (w.forest.node k).kids.head? = some j)
    (hwidth : (w.forest.node (w.forest.owner j)).width = bits) (hle : 64 ≤ bits) (rest : List Bound) :
    applyRule r k (.reg u :: rest) w = .ok (.reg u) w := by
  have hbits : firstKidWidth k w = .ok bits w := by
    refine bind_eq_ok.mpr ⟨w, w, get_eq_ok.mpr ⟨rfl, rfl⟩, pure_eq_ok.mpr ⟨?_, rfl⟩⟩
    rw [hkid, Option.map_some, hwidth, Option.getD_some]
  have hextend : emitExtension signed k u w = .ok (.reg u) w := by
    refine bind_eq_ok.mpr ⟨bits, w, hbits, ?_⟩
    rw [if_pos hle]
    rfl
  cases signed <;> rw [applyRule, haction] <;> exact hextend

section

variable {w w' : Workspace} (hmatches : r.Matches g k) (hlater : g.Later w.forest)
  (hkids : List.Forall₂ (Fits g V n s) (r.pattern.leaves g k) kids)
  (happly : applyRule r k kids w = .ok b w')
include hmatches hlater

/-- An alloca is reduced to the address of its room. -/
theorem Rule.Matches.makes_room (hagree : Agrees σ F V w.forest s) (hF : F.Addressed)
    (hextends : w'.code.frame.Extends F) (hmeans : g.Means σ s.mem V k)
    (haction : r.action = .frameSlot) (happly : applyRule r k kids w = .ok b w') :
    b.Holds g V s k := by
  obtain ⟨-, -, hnew, hop⟩ := Pattern.leaves_of_inst (Grammar.tile_frameSlot r hmatches.mem haction).2
    hmatches.fits (.refl g)
  have hsource : (w.forest.node k).source = (g.node k).source :=
    (congrArg Node.source (hlater.skeleton.node k) :)
  obtain ⟨i, m, hi, hm, rfl⟩ := applyRule_frameSlot haction happly
  have hvalue := hmeans hnew
  simp only [Forest.value?, hop, ← hsource, hi, Option.map_some, Option.some.injEq] at hvalue
  have hslot := hextends.slot? hm
  obtain ⟨_, _, hslots, -⟩ := List.lookup_eq_some_iff.mp hslot
  obtain ⟨d, rfl⟩ : ∃ d, m = .frame d :=
    hF (.value i, m) (hslots ▸ List.mem_append_right _ List.mem_cons_self)
  exact ⟨Mem.steady_frame d, (hagree.rooms i _ hslot).trans hvalue⟩

/-- Casts whose code runs. -/
theorem Rule.Matches.makes_cast (signed : Bool)
    (hkids : List.Forall₂ (Fits g V n s) (r.pattern.leaves g k) kids) (hmeans : g.Means σ s.mem V k)
    (hcasts : g.Casts k) (haction : r.action = if signed then .signExtend else .zeroExtend)
    (happly : applyRule r k kids w = .ok b w') :
    ∃ is, Emits w w' is ∧ Delivers c g V s w.code.vregs k is b := by
  obtain ⟨op, hp, hne, hsigned, hcast⟩ : ∃ op, r.pattern.inst? = some (.cast op, [.reg]) ∧ op ≠ .trunc ∧
      decide (op = .sext) = signed ∧ ∀ bits target x, Arithmetic.machine.cast op bits target x =
        if 64 ≤ bits then x else extendLow signed (castBits bits) x := by
    cases signed with
    | true =>
      exact ⟨.sext, (Grammar.tile_signExtend r hmatches.mem haction).2, by decide, rfl, fun _ _ _ ↦ rfl⟩
    | false =>
      exact ⟨.zext, (Grammar.tile_zeroExtend r hmatches.mem haction).2, by decide, rfl, fun _ _ _ ↦ rfl⟩
  obtain ⟨hnew, hop, p, _, hp, rfl, hx⟩ := hmatches.one_kid hkids hp
  have hvalue := hmeans hnew
  simp only [Forest.value?, hop, hp, Option.some.injEq, hcast] at hvalue
  obtain ⟨u, rfl⟩ := hx.serves.suits
  obtain ⟨j, hj, howner⟩ : ∃ j, (w.forest.node k).kids.head? = some j ∧ w.forest.owner j = p := by
    have hhead : (w.forest.kidOwners k).head? = some p := by
      rw [hlater.skeleton.kidOwners, hp]
      rfl
    rwa [Forest.kidOwners, List.head?_map, Option.map_eq_some_iff] at hhead
  have hwidth : (w.forest.node (w.forest.owner j)).width = (g.node p).width := by
    rw [howner, hlater.skeleton.width]
  rcases Nat.lt_or_ge (g.node p).width 64 with hlt | hle
  · have hextends := (hcasts op p hop hne hp).resolve_left (Nat.not_le.mpr hlt)
    obtain ⟨rfl, rfl⟩ := EStateM.Result.ok.inj
      (happly.symm.trans (applyRule_extend haction hj hwidth hlt []))
    refine ⟨_, Workspace.emits_drawn_foldl _ _, .puts ?_⟩
    rw [hsigned] at hextends
    rw [if_neg (Nat.not_le.mpr hlt), ← hx.holds] at hvalue
    exact hvalue ▸ puts_extendInsts hextends
  · obtain ⟨rfl, rfl⟩ := EStateM.Result.ok.inj
      (happly.symm.trans (applyRule_extendWhole haction hj hwidth hle []))
    rw [if_pos hle] at hvalue
    exact ⟨[], .refl _, .nothing (Eq.trans hx.holds hvalue)⟩

include hkids happly

/-- **Actions.** If the leaves of a rule hold, and its action only computes, then the code of the action
makes a result that holds. -/
theorem Rule.Matches.makes (hheld : g.HoldsOn w.forest) (hagree : Agrees σ F V w.forest s)
    (hF : F.Addressed) (hextends : w'.code.frame.Extends F)
    (hmeans : ∀ j, j = k ∨ (g.node k).computed = false ∧ j ∈ g.kidOwners k → g.Means σ s.mem V j)
    (hcasts : g.Casts k) (hn : n ≤ w.code.vregs) (hcomputes : r.action.computes = true) :
    ∃ is, Emits w w' is ∧ Delivers c g V s w.code.vregs k is b := by
  have hself := hmeans k (Or.inl rfl)
  have hphi : r.action ≠ .phiInput := fun h ↦ absurd (h ▸ hcomputes) (by decide)
  obtain ⟨is, hexpands, hemits, -⟩ := applyRule_expands happly hphi
  cases haction : r.action with
  | signExtend => exact hmatches.makes_cast hlater true hkids hself hcasts haction happly
  | zeroExtend => exact hmatches.makes_cast hlater false hkids hself hcasts haction happly
  | frameSlot =>
    have hholds := hmatches.makes_room hlater hagree hF hextends hself haction happly
    rw [haction] at hexpands
    cases hexpands with
    | frameSlot => exact ⟨[], hemits, .nothing hholds⟩
    | extendWhole h => exact absurd h (by simp)
  | store | call | jump | branchCond | branchTest | ret | phiInput =>
    rw [haction] at hcomputes
    exact absurd hcomputes (by decide)
  | immediate | register | memory | label | nothing =>
    exact ⟨is, hemits, hmatches.makes_leaf hlater hexpands hheld hagree hself (by rw [haction]; decide)⟩
  | loadImm | loadMem | lea | addrBase | discard | setCond =>
    exact ⟨is, hemits, hmatches.makes_chain hexpands hkids (by rw [haction]; decide)⟩
  | fold => exact ⟨is, hemits, hmatches.makes_fold hlater hexpands hkids hself haction⟩
  | addrDisp | addrIndex | memFromAddr =>
    exact ⟨is, hemits, hmatches.makes_address hlater hexpands hkids hmeans (by rw [haction]; decide)⟩
  | binary mnemonic =>
    exact ⟨is, hemits, hmatches.makes_binary hlater hexpands hkids hself hn (by rw [haction]; rfl)⟩
  | mulImm => exact ⟨is, hemits, hmatches.makes_mulImm hlater hexpands hkids hself haction⟩
  | divide remainder => exact ⟨is, hemits, hmatches.makes_divide hexpands hkids hself haction⟩
  | shift mnemonic =>
    exact ⟨is, hemits, hmatches.makes_shift hexpands hkids hself (Or.inl (by rw [haction]; rfl))⟩
  | shiftByReg mnemonic =>
    exact ⟨is, hemits, hmatches.makes_shift hexpands hkids hself (Or.inr (by rw [haction]; rfl))⟩
  | compare => exact ⟨is, hemits, hmatches.makes_compare hlater hexpands hkids hself haction⟩
  | load => exact ⟨is, hemits, hmatches.makes_load hlater hexpands hkids hself haction⟩
  | rename => exact ⟨is, hemits, hmatches.makes_rename hexpands hkids hself haction⟩
  | arguments => exact ⟨is, hemits, hmatches.makes_arguments hexpands hkids haction⟩

end

end TreeCover
