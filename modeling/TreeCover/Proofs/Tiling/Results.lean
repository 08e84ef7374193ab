import TreeCover.Proofs.Tiling.Actions

/-!
# Results of actions

The actions of rules that promise a register give one, but for a call of no width, which gives
nothing. From nothing the chain rules make nothing.
-/

namespace TreeCover

open Ir Machine Work

variable {α β : Type} {r : Rule} {id : NodeId} {kids args : List Bound} {b : Bound}
  {w w' : Workspace}

/-- If the work succeeds, its result has a property. -/
def Returns (x : Work α) (post : α → Prop) : Prop := ∀ w a w', x w = .ok a w' → post a

theorem Returns.pure {post : α → Prop} {a : α} (h : post a) : Returns (Pure.pure a) post := by
  intro w a' w' hx
  obtain ⟨rfl, -⟩ := pure_eq_ok.mp hx
  exact h

theorem Returns.throw {post : α → Prop} {e : CompileError} :
    Returns (MonadExcept.throw e : Work α) post :=
  fun _ _ _ hx ↦ absurd hx throw_ne_ok

theorem Returns.bind {post : β → Prop} {x : Work α} {f : α → Work β}
    (h : ∀ a, Returns (f a) post) : Returns (x >>= f) post := by
  intro w b w' hx
  obtain ⟨a, w₁, -, hf⟩ := bind_eq_ok.mp hx
  exact h a w₁ b w' hf

theorem Returns.throw_bind {post : β → Prop} {e : CompileError} {f : α → Work β} :
    Returns ((MonadExcept.throw e : Work α) >>= f) post := by
  intro w b w' hx
  obtain ⟨_, _, hthrow, -⟩ := bind_eq_ok.mp hx
  exact absurd hthrow throw_ne_ok

/-! ## Registers -/

/-- A result in a register. -/
def Bound.IsReg (b : Bound) : Prop := ∃ v, b = .reg v

theorem returns_fresh (i : VReg → Machine.Inst) :
    Returns (do let dst ← freshVReg; emit (i dst); return Bound.reg dst) Bound.IsReg :=
  .bind fun dst ↦ .bind fun _ ↦ .pure ⟨dst, rfl⟩

theorem returns_emitOnCopy (lhs : VReg) (operation : VReg → Machine.Inst) :
    Returns (emitOnCopy lhs operation) Bound.IsReg :=
  .bind fun dst ↦ .bind fun _ ↦ .bind fun _ ↦ .pure ⟨dst, rfl⟩

theorem returns_emitExtension (signed : Bool) (id : NodeId) (src : VReg) :
    Returns (emitExtension signed id src) Bound.IsReg := by
  refine .bind fun bits ↦ ?_
  split
  next => exact .pure ⟨src, rfl⟩
  next => exact .bind fun dst ↦ .bind fun _ ↦ .pure ⟨dst, rfl⟩

/-- Whether an action puts its result into a register. -/
def Action.inRegister : Action → Bool
  | .register | .loadImm | .loadMem | .lea | .setCond | .load | .binary _ | .mulImm | .divide _
  | .shift _ | .shiftByReg _ | .signExtend | .zeroExtend | .rename => true
  | _ => false

theorem returns_applyRule (h : r.action.inRegister = true) :
    Returns (applyRule r id kids) Bound.IsReg := by
  rw [applyRule]
  cases haction : r.action with
  | register =>
    refine .bind fun n ↦ ?_
    cases n.slot with
    | vreg v => exact .pure ⟨v, rfl⟩
    | _ => exact .throw
  | loadImm => exact .bind fun _ ↦ .bind fun _ ↦ returns_fresh _
  | loadMem =>
    refine .bind fun b ↦ ?_
    cases b with
    | reg v => exact .pure ⟨v, rfl⟩
    | mem m => exact returns_fresh _
    | _ => exact .throw
  | lea =>
    refine .bind fun _ ↦ .bind fun m ↦ ?_
    split
    next base => exact .pure ⟨base, rfl⟩
    next => exact returns_fresh _
  | setCond =>
    exact .bind fun _ ↦ .bind fun _ ↦ .bind fun dst ↦ .bind fun _ ↦ .bind fun _ ↦ .pure ⟨dst, rfl⟩
  | load => exact .bind fun _ ↦ .bind fun _ ↦ .bind fun _ ↦ returns_fresh _
  | binary mnemonic =>
    exact .bind fun _ ↦ .bind fun _ ↦ .bind fun _ ↦ .bind fun _ ↦ returns_emitOnCopy _ _
  | mulImm => exact .bind fun _ ↦ .bind fun _ ↦ .bind fun _ ↦ .bind fun _ ↦ returns_fresh _
  | divide remainder =>
    exact .bind fun _ ↦ .bind fun _ ↦ .bind fun _ ↦ .bind fun _ ↦ .bind fun _ ↦ .bind fun _ ↦
      .bind fun _ ↦ returns_fresh _
  | shift mnemonic =>
    exact .bind fun _ ↦ .bind fun _ ↦ .bind fun _ ↦ .bind fun _ ↦ returns_emitOnCopy _ _
  | shiftByReg mnemonic =>
    exact .bind fun _ ↦ .bind fun _ ↦ .bind fun _ ↦ .bind fun _ ↦ .bind fun _ ↦
      returns_emitOnCopy _ _
  | signExtend => exact .bind fun _ ↦ .bind fun _ ↦ returns_emitExtension _ _ _
  | zeroExtend => exact .bind fun _ ↦ .bind fun _ ↦ returns_emitExtension _ _ _
  | rename => exact .bind fun _ ↦ .bind fun v ↦ .pure ⟨v, rfl⟩
  | _ => rw [haction] at h; exact absurd h (by decide)

/-! ## Slots -/

theorem applyRule_register (haction : r.action = .register)
    (h : applyRule r id kids w = .ok b w') :
    ∃ v, (w.forest.node id).slot = .vreg v ∧ b = .reg v ∧ w' = w := by
  rw [applyRule, haction] at h
  simp only [node, bind_eq_ok, get_eq_ok, pure_eq_ok] at h
  obtain ⟨_, _, ⟨_, _, ⟨rfl, rfl⟩, rfl, rfl⟩, h⟩ := h
  cases hslot : (Forest.node _ id).slot with
  | vreg v =>
    rw [hslot] at h
    obtain ⟨rfl, rfl⟩ := pure_eq_ok.mp h
    exact ⟨v, rfl, rfl, rfl⟩
  | _ =>
    rw [hslot] at h
    exact absurd h throw_ne_ok

theorem applyRule_memory (haction : r.action = .memory) (h : applyRule r id kids w = .ok b w') :
    ∃ m, (w.forest.node id).slot = .mem m ∧ b = .mem m ∧ w' = w := by
  rw [applyRule, haction] at h
  simp only [node, bind_eq_ok, get_eq_ok, pure_eq_ok] at h
  obtain ⟨_, _, ⟨_, _, ⟨rfl, rfl⟩, rfl, rfl⟩, h⟩ := h
  cases hslot : (Forest.node _ id).slot with
  | mem m =>
    rw [hslot] at h
    obtain ⟨rfl, rfl⟩ := pure_eq_ok.mp h
    exact ⟨m, rfl, rfl, rfl⟩
  | _ =>
    rw [hslot] at h
    exact absurd h throw_ne_ok

/-! ## Calls -/

theorem asOperand_eq_ok {o : Machine.Operand} (h : asOperand r b w = .ok o w') :
    w' = w ∧ o.vregs = b.vregs := by
  cases b with
  | reg v => obtain ⟨rfl, rfl⟩ := pure_eq_ok.mp h; simp
  | imm value => obtain ⟨rfl, rfl⟩ := pure_eq_ok.mp h; simp
  | mem m => obtain ⟨rfl, rfl⟩ := pure_eq_ok.mp h; simp
  | addr m => obtain ⟨rfl, rfl⟩ := pure_eq_ok.mp h; simp
  | _ => exact absurd h throw_ne_ok

theorem leafResult_eq_ok {idx : Nat} (h : leafResult r kids idx w = .ok b w') :
    w' = w ∧ b ∈ kids := by
  rw [leafResult] at h
  cases hkids : kids[idx]? with
  | some b' =>
    rw [hkids] at h
    obtain ⟨rfl, rfl⟩ := pure_eq_ok.mp h
    exact ⟨rfl, List.mem_of_getElem? hkids⟩
  | none =>
    rw [hkids] at h
    exact absurd h throw_ne_ok

/-- A call gives a register, or nothing if it has no width. -/
theorem emitCall_result (h : emitCall r id args w = .ok b w') :
    (w.forest.node id).width = 0 ∧ b = .none ∨ (w.forest.node id).width ≠ 0 ∧ b.IsReg := by
  rw [emitCall, bind_eq_ok] at h
  obtain ⟨u, w₁, hpush, h⟩ := h
  have hforest : w₁.forest = w.forest := by
    refine forM_induct (P := fun t ↦ t.forest = w.forest) hpush rfl fun a _ t u t' ht hstep ↦ ?_
    obtain ⟨o, t₁, hoperand, hemit⟩ := bind_eq_ok.mp hstep
    rw [(emits_emit hemit).2, (asOperand_eq_ok hoperand).1, ht]
  have hresult : ∀ width : Nat, Returns (do
      if width = 0 then return Bound.none
      let dst ← freshVReg
      emit (moveTo dst (.phys .rax))
      return Bound.reg dst) fun b ↦ width = 0 ∧ b = .none ∨ width ≠ 0 ∧ b.IsReg := by
    intro width
    split
    next hwidth => exact .pure (Or.inl ⟨hwidth, rfl⟩)
    next hwidth => exact .bind fun dst ↦ .bind fun _ ↦ .pure (Or.inr ⟨hwidth, dst, rfl⟩)
  simp only [node, bind_eq_ok, get_eq_ok, pure_eq_ok] at h
  obtain ⟨_, _, ⟨_, _, ⟨rfl, rfl⟩, rfl, rfl⟩, _, w₂, -, h⟩ := h
  rw [← hforest]
  split at h
  next => exact hresult _ _ _ _ h
  next => exact (Returns.bind fun _ ↦ hresult _) _ _ _ h

theorem applyRule_call (haction : r.action = .call) (h : applyRule r id kids w = .ok b w') :
    (w.forest.node id).width = 0 ∧ b = .none ∨ (w.forest.node id).width ≠ 0 ∧ b.IsReg := by
  rw [applyRule, haction] at h
  obtain ⟨b₀, w₀, hleaf, h⟩ := bind_eq_ok.mp h
  obtain rfl := (leafResult_eq_ok hleaf).1
  cases b₀ with
  | args args => exact emitCall_result h
  | _ => exact absurd h throw_ne_ok

/-! ## Rules -/

/-- A rule for a register gives one, or is that of a call. -/
theorem inRegister_of_lhs : ∀ r ∈ Grammar.rules, r.lhs = .reg →
    r.action.inRegister = true ∨ r.action = .call := by
  decide

/-- Nothing reduces further to nothing. -/
theorem applyRule_none (hr : r ∈ Grammar.chainRules) (h : applyRule r id [.none] w = .ok b w') :
    b = .none := by
  have hactions : ∀ r ∈ Grammar.chainRules, r.action ∈
      [.loadImm, .loadMem, .lea, .addrBase, .discard, .setCond] := by decide
  have hnone : Returns (applyRule r id [.none]) fun b ↦ b = .none := by
    rw [applyRule]
    have haction := hactions r hr
    have hleaf : leafResult r [.none] 0 = Pure.pure .none := rfl
    simp only [List.mem_cons, List.not_mem_nil, or_false] at haction
    rcases haction with h | h | h | h | h | h <;> simp only [h, hleaf, pure_bind]
    · exact .throw_bind
    · exact .throw
    · exact .throw_bind
    · exact .throw_bind
    · exact .pure rfl
    · exact .throw_bind
  exact hnone w b w' h

end TreeCover
