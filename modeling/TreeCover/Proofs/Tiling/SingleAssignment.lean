import TreeCover.Proofs.Tiling.Applications
import TreeCover.Proofs.Tiling.Slots

/-!
# Single assignment

Every virtual register of selected code that is not the register of a phi is written by one application
of a rule, in consecutive instructions of one block, and nothing reads it before; the registers of phis
are not written at all. The reason is that applications draw the registers that they write, and that all
other registers in sight, those of operands, slots and phis, were drawn before.
-/

namespace TreeCover

open Ir Machine Work

variable {A : Application → Prop} {a : Application} {blocks blocks' : List Machine.Block}
  {c c' : Code} {b d m n : Nat} {x v : VReg} {fuel : Nat} {id : NodeId} {nt : Nonterminal}
  {result : Bound} {w w' : Workspace} {is : List Machine.Inst} {g g' : Forest}

/-! ## Writers -/

/-- Only the application writes `x`, in consecutive instructions of block `b`, and nothing before reads
it: no instruction before these in the block or in an earlier block, and no copy into a phi at the end
of an earlier block. -/
structure Application.OnlyWriter (a : Application) (blocks : List Machine.Block) (b : Nat)
    (x : VReg) : Prop where
  block : a.block = b
  alone : ∀ c, WritesIn blocks c x → c = b
  code : ∃ before head writes after, instsAt blocks b = before ++ a.code ++ after ∧
    a.code = head ++ writes ∧ (∀ i ∈ before ++ head, x ∉ i.defs ∧ x ∉ i.uses) ∧ writes ≠ [] ∧
    (∀ i ∈ writes, i.defs = [x]) ∧ ∀ i ∈ after, x ∉ i.defs
  unread : ∀ c < b, (∀ i ∈ instsAt blocks c, x ∉ i.uses) ∧ ∀ s, ¬ Hands blocks c s x

/-- Code to which instructions are added that do not write `x`, and copies into phis, both not before the
block of its writer. -/
theorem Application.OnlyWriter.grows (h : a.OnlyWriter blocks b x)
    (hinsts : ∀ c, ∃ is, instsAt blocks' c = instsAt blocks c ++ is ∧ x ∉ defsOf is ∧ (c < b → is = []))
    (hhands : ∀ c < b, ∀ s, Hands blocks' c s x → Hands blocks c s x) : a.OnlyWriter blocks' b x where
  block := h.block
  alone c hc := by
    obtain ⟨is, his, hdefs, -⟩ := hinsts c
    obtain ⟨i, hi, hx⟩ := hc
    rw [his] at hi
    rcases List.mem_append.mp hi with hi | hi
    · exact h.alone c ⟨i, hi, hx⟩
    · exact absurd (mem_defsOf.mpr ⟨i, hi, hx⟩) hdefs
  code := by
    obtain ⟨before, head, writes, after, heq, hcode, hbefore, hne, hwrites, hafter⟩ := h.code
    obtain ⟨is, his, hdefs, -⟩ := hinsts b
    refine ⟨before, head, writes, after ++ is, ?_, hcode, hbefore, hne, hwrites, ?_⟩
    · rw [his, heq, List.append_assoc]
    · exact List.forall_mem_append.mpr
        ⟨hafter, fun i hi hx ↦ hdefs (mem_defsOf.mpr ⟨i, hi, hx⟩)⟩
  unread c hc := by
    obtain ⟨is, his, -, hnil⟩ := hinsts c
    rw [his, hnil hc, List.append_nil]
    exact ⟨(h.unread c hc).1, fun s hs ↦ (h.unread c hc).2 s (hhands c hc s hs)⟩

/-! ## The code so far -/

/-- Code of which the first `n` blocks have been selected by applications with the property `A`. -/
structure SingleAssigned (A : Application → Prop) (n : Nat) (c : Code) : Prop where
  writes : ∀ b x, WritesIn c.blocks b x →
    x < c.vregs ∧ b < n ∧ ∃ a, A a ∧ a.OnlyWriter c.blocks b x
  reads : ∀ b, ∀ i ∈ instsAt c.blocks b, ∀ x ∈ i.uses, x < c.vregs
  hands : ∀ b s x, Hands c.blocks b s x → x < c.vregs
  phis : ∀ d x, IsPhiOf c.blocks d x → x < c.vregs ∧ ∀ b, ¬ WritesIn c.blocks b x

namespace SingleAssigned

/-- Code that differs in labels and the block that is being selected. -/
theorem same (h : SingleAssigned A n c) (hsame : c.SameBodies c') (hn : n ≤ d) :
    SingleAssigned A d c' := by
  have hinsts := hsame.instsAt
  have hwrites : ∀ b x, WritesIn c'.blocks b x ↔ WritesIn c.blocks b x :=
    fun b x ↦ by rw [WritesIn, hinsts, WritesIn]
  have hhands : ∀ b s x, Hands c'.blocks b s x ↔ Hands c.blocks b s x :=
    fun b s x ↦ by rw [Hands, hsame.phisAt, Hands]
  refine ⟨fun b x hx ↦ ?_, fun b i hi x hx ↦ ?_, fun b s x hx ↦ ?_, fun d x hx ↦ ?_⟩
  · obtain ⟨hlt, hb, a, ha, hwriter⟩ := h.writes b x ((hwrites b x).mp hx)
    refine ⟨hsame.vregs ▸ hlt, Nat.lt_of_lt_of_le hb hn, a, ha, hwriter.grows (fun c ↦ ?_) ?_⟩
    · exact ⟨[], by rw [hinsts, List.append_nil], List.not_mem_nil, fun _ ↦ rfl⟩
    · exact fun c _ s hs ↦ (hhands c s x).mp hs
  · rw [hinsts] at hi
    exact hsame.vregs ▸ h.reads b i hi x hx
  · exact hsame.vregs ▸ h.hands b s x ((hhands b s x).mp hx)
  · obtain ⟨hlt, hnot⟩ := h.phis d x ((hsame.isPhiOf d x).mp hx)
    exact ⟨hsame.vregs ▸ hlt, fun b hb ↦ hnot b ((hwrites b x).mp hb)⟩

/-- A known operand is handed to a phi at the end of the current block. -/
theorem addPhiInput (h : SingleAssigned A n c) (hn : c.current + 1 = n) {succ : Nat} {dst : VReg}
    {value : Machine.Operand} (hvalue : ∀ x ∈ value.vregs, x < c.vregs) :
    SingleAssigned A n (c.addPhiInput succ dst value) := by
  have hwrites : ∀ b x, WritesIn (c.addPhiInput succ dst value).blocks b x ↔ WritesIn c.blocks b x :=
    fun b x ↦ by rw [WritesIn, Code.instsAt_addPhiInput, WritesIn]
  refine ⟨fun b x hx ↦ ?_, fun b i hi ↦ ?_, fun b s x hx ↦ ?_, fun d x hx ↦ ?_⟩
  · obtain ⟨hlt, hb, a, ha, hwriter⟩ := h.writes b x ((hwrites b x).mp hx)
    refine ⟨hlt, hb, a, ha, hwriter.grows (fun c ↦ ?_) fun e he s hs ↦ ?_⟩
    · exact ⟨[], by rw [Code.instsAt_addPhiInput, List.append_nil], List.not_mem_nil, fun _ ↦ rfl⟩
    · -- the copy is made in the block that is being selected, which is not before that of the writer
      rcases Code.hands_addPhiInput hs with hs | ⟨rfl, -⟩
      · exact hs
      · omega
  · rw [Code.instsAt_addPhiInput] at hi
    exact h.reads b i hi
  · rcases Code.hands_addPhiInput hx with hx | ⟨-, hx⟩
    · exact h.hands b s x hx
    · exact hvalue x hx
  · obtain ⟨hlt, hnot⟩ := h.phis d x (Code.isPhiOf_addPhiInput.mp hx)
    exact ⟨hlt, fun b hb ↦ hnot b ((hwrites b x).mp hb)⟩

section Emits

variable (h : SingleAssigned A n a.before.code)
  (hcurrent : a.before.code.current < a.before.code.blocks.length)
  (hemits : Emits a.before a.after a.code) (hlast : WritesLast a.before.code.vregs a.code)
  (hreads : ReadsFrom (· < a.before.code.vregs) a.code)
include hcurrent hemits hlast

omit h in
/-- A register that was drawn before keeps its writer. -/
theorem keeps_writer {a' : Application} (hx : x < a.before.code.vregs) (hb : b ≤ a.block)
    (hwriter : a'.OnlyWriter a.before.code.blocks b x) : a'.OnlyWriter a.after.code.blocks b x := by
  refine hwriter.grows (fun e ↦ ?_) fun e _ s hs ↦ hemits.hands_iff.mp hs
  obtain ⟨is, his, hcases⟩ := hemits.instsAt_cases hcurrent e
  refine ⟨is, his, ?_⟩
  rcases hcases with ⟨rfl, rfl⟩ | ⟨-, rfl⟩
  · exact ⟨fun hmem ↦ absurd hx (hlast.eq_of_mem hmem ▸ Nat.lt_irrefl _),
      fun hlt ↦ absurd hlt (Nat.not_lt.mpr hb)⟩
  · exact ⟨List.not_mem_nil, fun _ ↦ rfl⟩

include h hreads

/-- The new register was not in sight before. -/
theorem writer_new (hx : a.before.code.vregs ∈ defsOf a.code) :
    a.OnlyWriter a.after.code.blocks a.block a.before.code.vregs := by
  have hwritten : ∀ e, ¬ WritesIn a.before.code.blocks e a.before.code.vregs :=
    fun e he ↦ Nat.lt_irrefl _ (h.writes e _ he).1
  have hread : ∀ e, ∀ i ∈ instsAt a.before.code.blocks e, a.before.code.vregs ∉ i.uses :=
    fun e i hi hx ↦ Nat.lt_irrefl _ (h.reads e i hi _ hx)
  obtain ⟨head, writes, hcode, hsilent, hwrites⟩ := hlast
  refine ⟨rfl, fun e he ↦ ?_, ?_, fun e he ↦ ?_⟩
  · rcases hemits.writesIn_cases hcurrent he with hold | ⟨he, -⟩
    · exact absurd hold (hwritten e)
    · exact he
  · refine ⟨instsAt a.before.code.blocks a.block, head, writes, [], ?_, hcode,
      List.forall_mem_append.mpr ⟨fun i hi ↦ ?_, fun i hi ↦ ?_⟩, ?_, hwrites,
      fun _ hi ↦ absurd hi List.not_mem_nil⟩
    · rw [List.append_nil]
      exact hemits.instsAt hcurrent
    · exact ⟨fun hx ↦ hwritten _ ⟨i, hi, hx⟩, hread _ i hi⟩
    · rw [hcode] at hreads
      exact ⟨hsilent i hi ▸ List.not_mem_nil,
        fun hx ↦ Nat.lt_irrefl _ (hreads.of_silent hsilent hi hx)⟩
    · rintro rfl
      obtain ⟨i, hi, hx⟩ := mem_defsOf.mp hx
      rw [hcode, List.append_nil] at hi
      exact absurd hx (hsilent i hi ▸ List.not_mem_nil)
  · rw [hemits.instsAt_of_ne (Nat.ne_of_lt he)]
    exact ⟨hread e, fun s hs ↦ Nat.lt_irrefl _ (h.hands e s _ (hemits.hands_iff.mp hs))⟩

/-- The code of an application that reads known registers and writes a new one. -/
theorem emits (ha : A a) (hn : a.block + 1 = n)
    (hdefs : ∀ x ∈ defsOf a.code, x < a.after.code.vregs) : SingleAssigned A n a.after.code where
  writes b x hx := by
    rcases hemits.writesIn_cases hcurrent hx with hold | ⟨rfl, hnew⟩
    · obtain ⟨hlt, hb, a', ha', hwriter⟩ := h.writes b x hold
      refine ⟨Nat.lt_of_lt_of_le hlt hemits.vregs, hb, a', ha', ?_⟩
      exact keeps_writer hcurrent hemits hlast hlt (by omega) hwriter
    · obtain rfl := hlast.eq_of_mem hnew
      exact ⟨hdefs _ hnew, hn ▸ Nat.lt_succ_self _, a, ha,
        h.writer_new hcurrent hemits hlast hreads hnew⟩
  reads b i hi x hx := by
    obtain ⟨is, his, hcases⟩ := hemits.instsAt_cases hcurrent b
    rw [his] at hi
    rcases List.mem_append.mp hi with hi | hi
    · exact Nat.lt_of_lt_of_le (h.reads b i hi x hx) hemits.vregs
    · rcases hcases with ⟨-, rfl⟩ | ⟨-, rfl⟩
      · obtain ⟨k, hk⟩ := List.mem_iff_getElem?.mp hi
        rcases hreads.getElem hk hx with hx | ⟨i', hi', hx⟩
        · exact Nat.lt_of_lt_of_le hx hemits.vregs
        · exact hdefs x (mem_defsOf.mpr ⟨i', List.mem_of_mem_take hi', hx⟩)
      · exact absurd hi List.not_mem_nil
  hands b s x hx := Nat.lt_of_lt_of_le (h.hands b s x (hemits.hands_iff.mp hx)) hemits.vregs
  phis d x hx := by
    rw [IsPhiOf, hemits.phisAt] at hx
    obtain ⟨hlt, hnot⟩ := h.phis d x hx
    refine ⟨Nat.lt_of_lt_of_le hlt hemits.vregs, fun b hb ↦ ?_⟩
    rcases hemits.writesIn_cases hcurrent hb with hold | ⟨-, hb⟩
    · exact hnot b hold
    · exact absurd hlt (hlast.eq_of_mem hb ▸ Nat.lt_irrefl _)

end Emits

end SingleAssigned

/-! ## Reductions -/

theorem Forest.SlotsBelow.mono (h : g.SlotsBelow n) (hle : n ≤ m) : g.SlotsBelow m :=
  fun k x hx ↦ Nat.lt_of_lt_of_le (h k x hx) hle

theorem Forest.SlotsBelow.same (h : g.SlotsBelow n) (hsame : g.SameValues g') : g'.SlotsBelow n :=
  fun k x hx ↦ h k x ((hsame k).slot ▸ hx)

/-- A state in which the code has `m` blocks and selection has turned to `n` of them, so far by
applications with the property `A`. -/
structure Assigning (A : Application → Prop) (m n : Nat) (w : Workspace) : Prop where
  code : SingleAssigned A n w.code
  slots : w.forest.SlotsBelow w.code.vregs
  frame : w.code.frame.Addressed
  current : 0 < n → w.code.current + 1 = n
  length : w.code.blocks.length = m
  le : n ≤ m

namespace Assigning

/-- Work on the forest that changes no slots. -/
theorem same (h : Assigning A m n w) (hcode : w'.code = w.code)
    (hsame : w.forest.SameValues w'.forest) : Assigning A m n w' where
  code := hcode ▸ h.code
  slots := hcode ▸ h.slots.same hsame
  frame := hcode ▸ h.frame
  current := hcode ▸ h.current
  length := hcode ▸ h.length
  le := h.le

/-- Turning to the next block. -/
theorem beginBlock (h : Assigning A m n w) (hn : n < m) (label : Option LabelId) :
    Assigning A m (n + 1) { w with code := w.code.beginBlock n label } where
  code := h.code.same (.beginBlock w.code n label) (Nat.le_succ n)
  slots := h.slots
  frame := h.frame
  current _ := rfl
  length := (List.length_modify ..).trans h.length
  le := hn

theorem took (h : Assigning A m n w) (r : Rule) (k : NodeId) (nt : Nonterminal) :
    Assigning A m n (w.took r k nt) :=
  h.same rfl (w.forest.sameValues_takeLeaves r.pattern k)

theorem inside (h : Assigning A m (n + 1) w) :
    w.code.current + 1 = n + 1 ∧ w.code.current < w.code.blocks.length := by
  have hcurrent := h.current (Nat.succ_pos n)
  have hle := h.le
  exact ⟨hcurrent, h.length ▸ (by omega)⟩

/-- One application. -/
theorem apply (h : Assigning A m (n + 1) a.before) (ha : A a)
    (hkids : ∀ kid ∈ a.kids, ∀ x ∈ kid.vregs, x < a.before.code.vregs) :
    Assigning A m (n + 1) a.after ∧ a.before.code.vregs ≤ a.after.code.vregs ∧
      ∀ x ∈ a.result.vregs, x < a.after.code.vregs := by
  obtain ⟨hcurrent, hinside⟩ := h.inside
  by_cases hphi : a.rule.action = .phiInput
  · obtain ⟨owner, succ, dst, value, -, -, hvalue, hresult, hafter⟩ := applyRule_phiInput hphi a.runs
    obtain ⟨kid, hkid, hoperand⟩ := Option.bind_eq_some_iff.mp hvalue
    have hknown : ∀ x ∈ value.vregs, x < a.before.code.vregs := by
      rw [(asOperand_eq_ok (asOperand_ok_iff (r := a.rule) (w := a.before) |>.mpr ⟨hoperand, rfl⟩)).2]
      exact hkids kid (List.mem_of_getElem? hkid)
    rw [hafter, hresult]
    exact ⟨⟨h.code.addPhiInput hcurrent hknown, h.slots, h.frame, h.current,
      (List.length_modify ..).trans h.length, h.le⟩, Nat.le_refl _, by simp⟩
  · obtain ⟨hemits, hlast, hforest⟩ := a.emits hphi hinside
    obtain ⟨hreads, hdefs, hresult⟩ := a.drawn hphi hinside h.frame hkids h.slots
    exact ⟨⟨h.code.emits hinside hemits hlast hreads ha hcurrent hdefs,
      (h.slots.mono hemits.vregs).same hforest.sameValues, h.frame.extends hemits.frame,
      hemits.current ▸ h.current, hemits.length.trans h.length, h.le⟩, hemits.vregs, hresult⟩

/-- An instruction remembers a register that has been drawn. -/
theorem settle (h : Assigning A m n w) {k : NodeId} (hresult : ∀ x ∈ result.vregs, x < w.code.vregs)
    (hx : Work.settle k nt result w = .ok result w') : Assigning A m n w' ∧ w'.code = w.code := by
  obtain ⟨-, rfl | ⟨v, o, -, rfl, -, rfl⟩⟩ := settle_eq_ok hx
  · exact ⟨h, rfl⟩
  · refine ⟨{ h with slots := fun j x hx ↦ ?_ }, rfl⟩
    rcases w.forest.node_update_cases k j _ with ⟨rfl, hnode⟩ | hnode
    · rw [hnode] at hx
      exact hresult x (by rwa [Bound.vregs_reg])
    · exact h.slots j x (hnode ▸ hx)

/-- What is known when some leaves have been reduced. -/
theorem leaves (h : Assigning A m (n + 1) w) {leaves : List (NodeId × Nonterminal)} {kids : List Bound}
    (ih : ∀ before leaf later kids t kid t', leaves = before ++ leaf :: later →
      before.mapM (reduceLeaf fuel) w = .ok kids t → Assigning A m (n + 1) t →
      reduceLeaf fuel leaf t = .ok kid t' → Assigning A m (n + 1) t' ∧ t.code.vregs ≤ t'.code.vregs ∧
        ∀ x ∈ kid.vregs, x < t'.code.vregs)
    (hrun : leaves.mapM (reduceLeaf fuel) w = .ok kids w') :
    Assigning A m (n + 1) w' ∧ w.code.vregs ≤ w'.code.vregs ∧
      ∀ kid ∈ kids, ∀ x ∈ kid.vregs, x < w'.code.vregs := by
  refine mapM_induct_run (P := fun kids t ↦ Assigning A m (n + 1) t ∧ w.code.vregs ≤ t.code.vregs ∧
    ∀ kid ∈ kids, ∀ x ∈ kid.vregs, x < t.code.vregs) hrun
    ⟨h, Nat.le_refl _, fun _ hkid ↦ absurd hkid List.not_mem_nil⟩
    fun before leaf later kids t kid t' hsplit hbefore ⟨ht, hle, hkids⟩ hleaf ↦ ?_
  obtain ⟨ht', hle', hkid⟩ := ih before leaf later kids t kid t' hsplit hbefore ht hleaf
  refine ⟨ht', Nat.le_trans hle hle', List.forall_mem_append.mpr ⟨fun kid hmem x hx ↦ ?_, ?_⟩⟩
  · exact Nat.lt_of_lt_of_le (hkids kid hmem x hx) hle'
  · exact List.forall_mem_singleton.mpr hkid

/-- **Reductions.** The applications of a reduction are those that end the reductions which it comes
to. -/
theorem reduceFrom (h : Assigning A m (n + 1) w)
    (hA : ∀ fuel' id' nt' v, Calls fuel id nt w (fuel' + 1) id' nt' v →
      ∀ a : Application, a.Ends fuel' id' nt' v → A a)
    (hrun : Work.reduceFrom fuel id nt w = .ok result w') :
    Assigning A m (n + 1) w' ∧ w.code.vregs ≤ w'.code.vregs ∧
      ∀ x ∈ result.vregs, x < w'.code.vregs := by
  induction fuel generalizing id nt w result w' with
  | zero => exact absurd hrun failCovering_ne_ok
  | succ fuel ih =>
    rcases reduceFrom_eq_ok hrun with ⟨hreuse, rfl⟩ | ⟨a, hends, rfl, hsettle⟩
    · obtain ⟨-, -, v, hslot, hsub⟩ := Node.reuse?_cases hreuse
      refine ⟨h, Nat.le_refl _, fun x hx ↦ h.slots (w'.forest.owner id) x ?_⟩
      rw [hslot]
      exact hsub hx
    · obtain ⟨hbefore, hle, hkids⟩ := (h.took a.rule a.node nt).leaves
        (fun before leaf later kids t kid t' hsplit hbefore ht hleaf ↦
          ih ht (fun fuel' id' nt' v hcalls ↦ hA fuel' id' nt' v (.leaf hends.pending
            (hends.node ▸ hends.rule) (hends.node ▸ hsplit) (hends.node ▸ hbefore) hcalls)) hleaf)
        hends.kids
      obtain ⟨hafter, hle', hresult⟩ := hbefore.apply (hA fuel id nt w .self a hends) hkids
      obtain ⟨hw', hcode⟩ := hafter.settle hresult hsettle
      rw [hcode]
      exact ⟨hw', Nat.le_trans hle hle', hresult⟩

/-- The start of the reduction of a root. -/
theorem starts {root : NodeId} {goal : Nonterminal} {v u : Workspace} (h : Assigning A m n v)
    (hstarts : Starts root goal v u) : Assigning A m n u := by
  obtain ⟨labels, session, rfl⟩ := hstarts.state
  exact h.same rfl (v.forest.sameValues_refreshLevel root)

/-- The visit of a root. -/
theorem selectTree {root : NodeId} {v v' : Workspace} (h : Assigning A m (n + 1) v)
    (hA : ∀ goal u, Starts root goal v u → ∀ fuel id nt u',
      Calls ((u.forest.size + 1) * (Nonterminal.all.length + 1)) root goal u (fuel + 1) id nt u' →
      ∀ a : Application, a.Ends fuel id nt u' → A a)
    (hvisit : Work.selectTree root v = .ok () v') : Assigning A m (n + 1) v' := by
  rcases selectTree_eq_ok hvisit with
    ⟨-, hcode, hforest⟩ | ⟨goal, u, b, u', hstarts, hrun, hcode, hforest⟩
  · refine h.same hcode ?_
    rcases hforest with ⟨-, hforest⟩ | ⟨v₁, hemit, hforest⟩ <;> rw [hforest]
    · exact .refl _
    · obtain ⟨rfl, -⟩ := shouldEmit_ok hemit
      exact v.forest.sameValues_refreshLevel root
  · have hu' := ((h.starts hstarts).reduceFrom (hA goal u hstarts) hrun).1
    exact hu'.same hcode (hforest ▸ .refl _)

end Assigning

/-! ## Applications in a selection -/

/-- Any application in a selection writes only what was drawn after its operands. -/
theorem Calls.assigning {fuel' : Nat} {id' : NodeId} {nt' : Nonterminal}
    (h : Calls fuel id nt w fuel' id' nt' w') (hw : Assigning (fun _ ↦ True) m (n + 1) w) :
    Assigning (fun _ ↦ True) m (n + 1) w' := by
  induction h with
  | self => exact hw
  | leaf _ _ _ hbefore _ ih =>
    exact ih ((hw.took _ _ _).leaves (fun _ _ _ _ _ _ _ _ _ ht hleaf ↦
      ht.reduceFrom (fun _ _ _ _ _ _ _ ↦ trivial) hleaf) hbefore).1

/-- The slots of a forest that was built hold registers of phis only. -/
theorem Planted.slotsBelow {f : Func} {trees : List (List NodeId)} (hp : Planted f trees w) :
    w.forest.SlotsBelow w.code.vregs := by
  intro k x hx
  by_cases hk : k < w.forest.size
  · cases (hp.building.nodes k hk).shape with
    | argument _ his | constant his | label his | pad his | phiUse _ _ his | args his | inst _ _ his
      | phiMove _ _ _ his =>
      rw [Node.slot_of_core his.2] at hx
      exact absurd hx List.not_mem_nil
    | phi _ his hv =>
      rw [Node.slot_of_core his.2] at hx
      exact List.mem_singleton.mp hx ▸ hv
  · rw [Forest.node_of_le _ (Nat.le_of_not_lt hk)] at hx
    exact absurd hx List.not_mem_nil

/-- Before the first block. -/
theorem Planted.assigning {f : Func} {trees : List (List NodeId)} (hp : Planted f trees w)
    (hlength : trees.length = f.blocks.length) : Assigning A trees.length 0 w := by
  have hblank := hp.declared.blank
  have hwrites : ∀ b x, ¬ WritesIn w.code.blocks b x := by
    rintro b x ⟨i, hi, -⟩
    rw [hblank.insts] at hi
    exact absurd hi List.not_mem_nil
  refine ⟨⟨fun b x hx ↦ absurd hx (hwrites b x), fun b i hi ↦ ?_, fun b s x hx ↦ ?_,
    fun d x hx ↦ ⟨hblank.bound d x hx, fun b ↦ hwrites b x⟩⟩, hp.slotsBelow, ?_,
    fun h ↦ absurd h (Nat.lt_irrefl 0), hblank.length.trans hlength.symm, Nat.zero_le _⟩
  · rw [hblank.insts] at hi
    exact absurd hi List.not_mem_nil
  · obtain ⟨phi, hphi, o, ho, -⟩ := hx
    rw [hblank.inputs s phi hphi] at ho
    exact absurd ho List.not_mem_nil
  · rw [hblank.frame]
    exact fun s hs ↦ absurd hs List.not_mem_nil

/-! ## Selected code -/

/-- When the code of a selection of `trees` from `w` is in single assignment form. -/
structure IsSingleAssignment (trees : List (List NodeId)) (w : Workspace)
    (blocks : List Machine.Block) : Prop where
  /-- The register of a phi is not written by instructions. -/
  phi : ∀ d x, IsPhiOf blocks d x → ∀ b, ¬ WritesIn blocks b x
  /-- All other registers have one writer, an application made by the selection, and are not read before
  it. -/
  once : ∀ b x, WritesIn blocks b x → ∃ a, Applies trees w a ∧ a.OnlyWriter blocks b x
  /-- No application of the selection writes a register that one of its operands holds. -/
  operands : ∀ a, Applies trees w a → ∀ x ∈ defsOf a.code, ∀ kid ∈ a.kids, x ∉ kid.vregs

variable {f : Func} {trees : List (List NodeId)} {s : Session}

/-- An application of a selection writes only what was drawn after its operands. -/
theorem Applies.operands (ha : Applies trees w a) (hw : Assigning (fun _ ↦ True) trees.length 0 w)
    (hx : x ∈ defsOf a.code) {kid : Bound} (hkid : kid ∈ a.kids) : x ∉ kid.vregs := by
  obtain ⟨root, goal, v, u, fuel, id, nt, u', hcomes, hstarts, hcalls, hends⟩ := ha
  obtain ⟨n, hv⟩ := hcomes.induct (P := Assigning (fun _ ↦ True) trees.length) hw
    (fun n t hn ht ↦ ht.beginBlock hn _)
    fun n root v v' hv hvisit ↦ hv.selectTree (fun _ _ _ _ _ _ _ _ _ _ ↦ trivial) hvisit
  obtain ⟨hbefore, -, hkids⟩ := ((hcalls.assigning (hv.starts hstarts)).took a.rule a.node nt).leaves
    (fun _ _ _ _ _ _ _ _ _ ht hleaf ↦ ht.reduceFrom (fun _ _ _ _ _ _ _ ↦ trivial) hleaf) hends.kids
  intro hmem
  have hlt := hkids kid hkid x hmem
  by_cases hphi : a.rule.action = .phiInput
  · rw [a.code_phiInput hphi] at hx
    exact absurd hx List.not_mem_nil
  · exact absurd hlt ((a.emits hphi hbefore.inside.2).2.1.eq_of_mem hx ▸ Nat.lt_irrefl _)

/-- **Single assignment.** Selected code is in single assignment form. -/
theorem selectAll_singleAssignment (hbuild : buildForest f (.start f s) = .ok trees w)
    (hselect : selectAll trees w = .ok () w') : IsSingleAssignment trees w w'.code.blocks := by
  obtain ⟨hp, hlength⟩ := buildForest_planted hbuild
  have hend := selectAll_induct (P := Assigning (Applies trees w) trees.length) hselect
    (hp.assigning hlength) (fun n t hn ht ↦ ht.beginBlock hn _)
    fun n root v v' hcomes hv hvisit ↦ hv.selectTree
      (fun goal u hstarts fuel id nt u' hcalls a hends ↦
        ⟨root, goal, v, u, fuel, id, nt, u', hcomes, hstarts, hcalls, hends⟩) hvisit
  refine ⟨fun d x hx b ↦ (hend.code.phis d x hx).2 b, fun b x hx ↦ (hend.code.writes b x hx).2.2,
    fun a ha x hx kid hkid ↦ ha.operands (hp.assigning hlength) hx hkid⟩

/-- Squares a value until it is zero; the multiplication overwrites a copy of the phi that it reads. -/
def squaring : Func where
  name := "f"
  ret := .int 64
  params := [⟨"x", .int 64⟩]
  blocks := [⟨"entry", [⟨none, .void, .br 1⟩]⟩,
    ⟨"loop", [⟨some "p", .int 64, .phi [(.value (.arg 0), 0), (.value (.inst 2), 1)]⟩,
      ⟨some "q", .int 64, .binary .mul (.value (.inst 1)) (.value (.inst 1))⟩,
      ⟨some "c", .int 1, .icmp .eq (.value (.inst 2)) (.int 0 64)⟩,
      ⟨none, .void, .condBr (.value (.inst 3)) 2 1⟩]⟩,
    ⟨"exit", [⟨none, .int 64, .ret (some (.value (.inst 2)))⟩]⟩]

theorem squaring_singleAssignment : ∃ trees w w',
    buildForest squaring (.start squaring {}) = .ok trees w ∧ selectAll trees w = .ok () w' ∧
      IsSingleAssignment trees w w'.code.blocks := by
  have hcheck : succeeds (fun _ _ ↦ true)
      ((buildForest squaring >>= selectAll) (.start squaring {})) = true := by decide +kernel
  obtain ⟨_, w', hrun, -⟩ := exists_of_succeeds hcheck
  obtain ⟨trees, w, hbuild, hselect⟩ := bind_eq_ok.mp hrun
  exact ⟨trees, w, w', hbuild, hselect, selectAll_singleAssignment hbuild hselect⟩

end TreeCover
