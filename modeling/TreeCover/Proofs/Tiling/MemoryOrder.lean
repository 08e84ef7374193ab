import TreeCover.Proofs.Tiling.MemoryRuns

/-!
# The order of memory operations

The instructions with side effects that selection emits into a block are the stores and calls of the
block, each once and in order. A load is folded into what reads it, perhaps several times, but its memory
is only read where the load stands: after the stores and calls that precede it in its block, and before
the others. Main statement: `selectAll_keepsMemoryOrder`.
-/

namespace TreeCover

open Ir Machine Work

variable {text : String} {fs : List Func} {f : Func} {s : Session} {trees : List (List NodeId)}
  {roots d d' : List NodeId} {w v : Workspace} {k q r e : NodeId} {id id' : InstId} {b : BlockId}
  {a : Application} {as before after : List Application} {m : Mem} {x : Unit}

/-! ## Stores and calls -/

namespace Ir.Func

/-- The stores and calls of a block. -/
def effects (f : Func) (b : BlockId) : List InstId :=
  ((f.blockInsts b).filter fun x ↦ x.2.opcode.writesMemory).map (·.1)

/-- The loads of a block. -/
def loads (f : Func) (b : BlockId) : List InstId :=
  ((f.blockInsts b).filter fun x ↦ x.2.opcode = .load).map (·.1)

theorem mem_loads : id ∈ f.loads b ↔ ∃ i, (id, i) ∈ f.blockInsts b ∧ i.opcode = .load := by
  simp only [Func.loads, List.mem_map, List.mem_filter, decide_eq_true_iff, Prod.exists,
    exists_and_right, exists_eq_right]

/-- A machine instruction does what a store or a call says: it writes as many bytes to memory, or calls the
function. -/
def Performs (f : Func) (i : Machine.Inst) (id : InstId) : Prop :=
  ∃ j, f.inst? id = some j ∧
    (j.opcode = .store ∧ i.isStore = true ∧ i.mnemonic = moveMnemonic (accessBytes j.ty.bits) ∨
      ∃ callee, j.operation.callee? = some callee ∧ i = .callTo callee)

end Ir.Func

/-- The node of a store or a call has all that its code depends on. -/
theorem Planted.performs (hp : Planted f trees w) {i : Machine.Inst} (hr : w.Results id r)
    (h : i.Performs (w.forest.node r)) : f.Performs i id := by
  have hop : ∃ o, (w.forest.node r).op = .inst o ∧ (o = .store ∨ o = .call) :=
    h.elim (fun h ↦ ⟨_, h.1, Or.inl rfl⟩) fun h ↦ ⟨_, h.1, Or.inr rfl⟩
  obtain ⟨o, hop, ho⟩ := hop
  obtain ⟨b, id', j, kids, hj, rfl, his⟩ := hp.of_inst hop (by rintro rfl; simp at ho)
  obtain rfl : id' = id := Option.some.inj (his.source.symm.trans hr.2.2)
  refine ⟨j, (Func.mem_insts_of_mem hj).1, ?_⟩
  rcases h with ⟨hstore, hi, hmnemonic⟩ | ⟨hcall, rfl⟩
  · have hstore : j.opcode = .store := NodeOp.inst.inj (hop.symm.trans hstore)
    rw [Node.width_of_core his.2, Node.ofInst, hstore] at hmnemonic
    exact Or.inl ⟨hstore, hi, hmnemonic⟩
  · have hcall : j.opcode = .call := NodeOp.inst.inj (hop.symm.trans hcall)
    have hcallee : (w.forest.node r).callee = j.operation.callee? := (congrArg Node.callee his.2 :)
    right
    rw [hcallee]
    revert hcall
    rw [Ir.Inst.opcode]
    cases j.operation with
    | call callee args => exact fun _ ↦ ⟨callee, rfl, rfl⟩
    | _ => exact fun h ↦ absurd h Opcode.noConfusion

/-! ## Numbers of roots -/

/-- A root of an instruction stands where the instruction does. -/
theorem TreesOf.exists_index (h : TreesOf f b w roots) (hr : r ∈ roots) (hresults : w.Results id r) :
    ∃ m : Nat, (roots.filter fun r ↦ (w.forest.node r).opcode?.isSome)[m]? = some r ∧
      ((f.blockInsts b).map (·.1))[m]? = some id := by
  obtain ⟨-, ⟨o, ho⟩, hsource⟩ := hresults
  have hmem : r ∈ roots.filter fun r ↦ (w.forest.node r).opcode?.isSome :=
    List.mem_filter.mpr ⟨hr, by rw [Node.opcode?, ho]; rfl⟩
  obtain ⟨m, hm⟩ := List.mem_iff_getElem?.mp hmem
  obtain ⟨hlt, hm'⟩ := List.getElem?_eq_some_iff.mp hm
  have hlt' := h.results.length_eq ▸ hlt
  have hx : w.Results (f.blockInsts b)[m].1
      (roots.filter fun r ↦ (w.forest.node r).opcode?.isSome)[m] := h.results.get hlt hlt'
  rw [hm'] at hx
  refine ⟨m, hm, ?_⟩
  rw [List.getElem?_map, List.getElem?_eq_getElem hlt', Option.map_some]
  exact congrArg some (Option.some.inj (hx.2.2.symm.trans hsource))

/-- The order of the roots of instructions is that of the instructions. -/
theorem TreesOf.lt_iff (h : TreesOf f b w roots) (hr : r ∈ roots) (hq : q ∈ roots)
    (hid : w.Results id r) (hid' : w.Results id' q) : r < q ↔ id < id' := by
  obtain ⟨m, hm, hm'⟩ := h.exists_index hr hid
  obtain ⟨n, hn, hn'⟩ := h.exists_index hq hid'
  have hlt : ∀ {xs : List Nat} {x y : Nat}, xs.Pairwise (· < ·) → xs[m]? = some x → xs[n]? = some y →
      (x < y ↔ m < n) := by
    intro xs x y hsorted hx hy
    obtain ⟨hm, rfl⟩ := List.getElem?_eq_some_iff.mp hx
    obtain ⟨hn, rfl⟩ := List.getElem?_eq_some_iff.mp hy
    exact (List.sortedLT_iff_pairwise.mpr hsorted).getElem_lt_getElem_iff
  have hids : ((f.blockInsts b).map (·.1)).Pairwise (· < ·) :=
    List.pairwise_map.mpr (f.blockInsts_sorted b)
  rw [hlt (h.sorted.filter _) hm hn, hlt hids hm' hn']

/-- The stores and calls of a block have the roots with side effects. -/
theorem TreesOf.effects (h : TreesOf f b w roots) (hw : w.Building f) :
    List.Forall₂ (fun r id ↦ w.Results id r) (roots.filter fun r ↦ (w.forest.node r).hasSideEffect)
      (f.effects b) := by
  have hfilter : roots.filter (fun r ↦ (w.forest.node r).hasSideEffect) =
      (roots.filter fun r ↦ (w.forest.node r).opcode?.isSome).filter
        fun r ↦ (w.forest.node r).hasSideEffect := by
    rw [List.filter_filter]
    refine List.filter_congr fun r _ ↦ ?_
    rw [Node.hasSideEffect]
    cases (w.forest.node r).opcode? <;> simp
  rw [hfilter, Func.effects, List.forall₂_map_right_iff]
  refine (List.rel_filter (R := fun r x ↦ r ∈ _ ∧ x ∈ f.blockInsts b ∧ w.Results x.1 r) ?_
    (forall₂_mem h.results)).imp fun r x hx ↦ hx.2.2
  rintro r x ⟨-, hx, hresults⟩
  show (w.forest.node r).hasSideEffect = true ↔ _
  rw [Node.hasSideEffect, Node.opcode?, hw.op_of_results hresults hx]
  rfl

/-- What has a side effect and comes before a load is read in time comes before the load. -/
theorem Forest.InTime.lt {g : Forest} (h : g.InTime k r) (hload : (g.node k).op = .inst .load)
    (heffect : (g.node e).hasSideEffect = true) (hk : (g.node k).block = some b)
    (he : (g.node e).block = some b) (hlt : e < r) : e < k := by
  refine Nat.lt_of_not_le fun hle ↦ ?_
  have hne : k ≠ e := by
    rintro rfl
    rw [Node.hasSideEffect, Node.opcode?, hload] at heffect
    exact Bool.false_ne_true heffect
  exact Nat.not_lt.mpr (h.overtaken e ⟨hload, heffect, ⟨b, hk, he⟩, Nat.lt_of_le_of_ne hle hne⟩) hlt

namespace Planted

variable (hp : Planted f trees w)
include hp

theorem mem_block_iff : r ∈ trees.flatten ∧ (w.forest.node r).block = some b ↔
    r ∈ trees[b]?.getD [] := by
  constructor
  · rintro ⟨hr, hblock⟩
    obtain ⟨roots, hroots, hmem⟩ := List.mem_flatten.mp hr
    obtain ⟨b', hb'⟩ := List.mem_iff_getElem?.mp hroots
    obtain rfl := Option.some.inj (((hp.block b' roots hb').block r hmem).symm.trans hblock)
    rwa [hb']
  · intro hr
    cases hb : trees[b]? with
    | none =>
      rw [hb] at hr
      exact absurd hr List.not_mem_nil
    | some roots =>
      rw [hb] at hr
      exact ⟨List.mem_flatten.mpr ⟨roots, List.mem_of_getElem? hb, hr⟩,
        (hp.block b roots hb).block r hr⟩

/-- The roots with side effects of a block are its stores and calls. -/
theorem effects (hlength : trees.length = f.blocks.length) (b : BlockId) :
    List.Forall₂ (fun r id ↦ w.Results id r) ((trees.flatten.filter fun r ↦
      (w.forest.node r).hasSideEffect).filter fun r ↦ (w.forest.node r).block = some b) (f.effects b) := by
  have hroots : ((trees.flatten.filter fun r ↦ (w.forest.node r).hasSideEffect).filter fun r ↦
      (w.forest.node r).block = some b) =
        (trees[b]?.getD []).filter fun r ↦ (w.forest.node r).hasSideEffect := by
    have hsorted : (trees[b]?.getD []).Pairwise (· < ·) := by
      cases hb : trees[b]? with
      | none => exact .nil
      | some roots => exact (hp.block b roots hb).sorted
    refine ((hp.sorted.filter _).filter _).eq_of_mem_iff (hsorted.filter _) fun r ↦ ?_
    rw [List.mem_filter, List.mem_filter, List.mem_filter, ← hp.mem_block_iff, decide_eq_true_iff,
      and_right_comm]
  rw [hroots]
  cases hb : trees[b]? with
  | none =>
    have hnone : f.blocks[b]? = none := by
      rw [List.getElem?_eq_none_iff, ← hlength]
      exact List.getElem?_eq_none_iff.mp hb
    rw [Func.effects, Func.blockInsts, hnone]
    exact .nil
  | some roots => exact (hp.block b roots hb).effects hp.building

/-- The roots with side effects that come before a load is read in time are the stores and calls before
the load. -/
theorem effects_before (hlength : trees.length = f.blocks.length) (hall : trees.flatten = d ++ r :: d')
    (hintime : w.forest.InTime k r) (hload : (w.forest.node k).op = .inst .load) (hk : w.Results id k)
    (hblock : (w.forest.node k).block = some b) :
    List.Forall₂ (fun r id ↦ w.Results id r) ((d.filter fun r ↦
      (w.forest.node r).hasSideEffect).filter fun r ↦ (w.forest.node r).block = some b)
        ((f.effects b).filter (· < id)) := by
  obtain ⟨-, hlater, hearlier⟩ := List.pairwise_append.mp (hall ▸ hp.sorted)
  have hlate : ∀ e ∈ r :: d', k ≤ e := by
    refine List.forall_mem_cons.mpr ⟨hintime.le, fun e he ↦ Nat.le_trans hintime.le (Nat.le_of_lt ?_)⟩
    exact (List.pairwise_cons.mp hlater).1 e he
  have hearly : ∀ e ∈ (d.filter fun r ↦ (w.forest.node r).hasSideEffect).filter fun r ↦
      (w.forest.node r).block = some b, e < k := by
    intro e he
    obtain ⟨he, heblock⟩ := List.mem_filter.mp he
    obtain ⟨he, heffect⟩ := List.mem_filter.mp he
    exact hintime.lt hload heffect hblock (of_decide_eq_true heblock) (hearlier e he r List.mem_cons_self)
  have hbefore : ((d.filter fun r ↦ (w.forest.node r).hasSideEffect).filter fun r ↦
      (w.forest.node r).block = some b) = ((trees.flatten.filter fun r ↦
        (w.forest.node r).hasSideEffect).filter fun r ↦ (w.forest.node r).block = some b).filter (· < k) := by
    have hnone : (((r :: d').filter fun r ↦ (w.forest.node r).hasSideEffect).filter fun r ↦
        (w.forest.node r).block = some b).filter (· < k) = [] := by
      refine List.filter_eq_nil_iff.mpr fun e he ↦ ?_
      simpa using hlate e (List.mem_filter.mp (List.mem_filter.mp he).1).1
    rw [hall, List.filter_append, List.filter_append, List.filter_append, hnone, List.append_nil,
      List.filter_eq_self.mpr fun e he ↦ decide_eq_true (hearly e he)]
  rw [hbefore]
  have hmem := hp.mem_block_iff.mp ⟨hp.mem_flatten hload, hblock⟩
  cases hb : trees[b]? with
  | none =>
    rw [hb] at hmem
    exact absurd hmem List.not_mem_nil
  | some roots =>
    rw [hb] at hmem
    refine (List.rel_filter (R := fun e id' ↦ e ∈ roots ∧ w.Results id' e) ?_
      ((forall₂_mem (hp.effects hlength b)).imp fun e id' ⟨he, _, hid'⟩ ↦ ⟨?_, hid'⟩)).imp
        fun e id' h ↦ h.2
    · rintro e id' ⟨he, hid'⟩
      show decide (e < k) = true ↔ decide (id' < id) = true
      rw [decide_eq_true_iff, decide_eq_true_iff]
      exact (hp.block b roots hb).lt_iff he hmem hid' hk
    · obtain ⟨he, heblock⟩ := List.mem_filter.mp he
      have he := hp.mem_block_iff.mp ⟨(List.mem_filter.mp he).1, of_decide_eq_true heblock⟩
      rwa [hb] at he

theorem of_load (hid : id ∈ f.loads b) (hk : w.Results id k) :
    (w.forest.node k).op = .inst .load ∧ (w.forest.node k).block = some b := by
  obtain ⟨i, hi, hload⟩ := Func.mem_loads.mp hid
  have hop := hp.building.op_of_results hk hi
  rw [hload] at hop
  obtain ⟨b', id', i', kids, hi', -, his⟩ := hp.of_inst hop Opcode.noConfusion
  obtain rfl : id' = id := Option.some.inj (his.source.symm.trans hk.2.2)
  obtain ⟨rfl, -⟩ := Func.blockInsts_unique hi hi'
  exact ⟨hop, Node.block_of_core his.2⟩

theorem exists_load (hop : (w.forest.node k).op = .inst .load) :
    ∃ b, ∃ id ∈ f.loads b, w.Results id k := by
  obtain ⟨b, id, i, kids, hi, hload, his⟩ := hp.of_inst hop Opcode.noConfusion
  exact ⟨b, id, Func.mem_loads.mpr ⟨i, hi, hload⟩, his.results rfl rfl⟩

/-- Every load has a root. -/
theorem exists_root (hlength : trees.length = f.blocks.length) (hid : id ∈ f.loads b) :
    ∃ k ∈ trees.flatten, w.Results id k := by
  obtain ⟨i, hi, -⟩ := Func.mem_loads.mp hid
  obtain ⟨block, _, hblock, -⟩ := Func.mem_blockInsts.mp hi
  have hb : b < trees.length := hlength ▸ (List.getElem?_eq_some_iff.mp hblock).1
  obtain ⟨k, hk, hresults⟩ := exists_of_forall₂ (hp.block b _ (List.getElem?_eq_getElem hb)).results hi
  exact ⟨k, List.mem_flatten.mpr ⟨_, List.getElem_mem hb, (List.mem_filter.mp hk).1⟩, hresults⟩

/-- A copy comes last in its block, so what it reads in time no store or call follows. -/
theorem lt_of_move (hlength : trees.length = f.blocks.length) (hguarded : Guarded trees w)
    (hr : r ∈ trees.flatten) (hblock : (w.forest.node r).block = some b)
    (hmove : (w.forest.node r).op = .phiMove) (hintime : w.forest.InTime k r) (hid : id ∈ f.loads b)
    (hk : w.Results id k) : ∀ e ∈ f.effects b, e < id := by
  intro id' hid'
  obtain ⟨hload, hkblock⟩ := hp.of_load hid hk
  obtain ⟨e, he, hresults⟩ := exists_of_forall₂ (hp.effects hlength b) hid'
  obtain ⟨he, heblock⟩ := List.mem_filter.mp he
  obtain ⟨he, heffect⟩ := List.mem_filter.mp he
  have heblock := of_decide_eq_true heblock
  have hmem : ∀ {r}, r ∈ trees.flatten → (w.forest.node r).block = some b → r ∈ trees[b]?.getD [] :=
    fun hr hblock ↦ hp.mem_block_iff.mp ⟨hr, hblock⟩
  have hr := hmem hr hblock
  have he := hmem he heblock
  have hkroot := hmem (hp.mem_flatten hload) hkblock
  cases hb : trees[b]? with
  | none =>
    rw [hb] at hr
    exact absurd hr List.not_mem_nil
  | some roots =>
    rw [hb] at hr he hkroot
    have hlt := hintime.lt hload heffect hkblock heblock
      (hguarded.last b roots hb r hr e he hmove heffect)
    exact ((hp.block b roots hb).lt_iff he hkroot hresults hk).mp hlt

end Planted

/-! ## Applications -/

/-- The applications that emit code with side effects into block `b`. -/
def effectsOf (b : BlockId) (as : List Application) : List Application :=
  as.filter fun a ↦ a.block = b && a.code.any (·.hasSideEffect)

/-- The application is made for instruction `id`, and one instruction of its code has a side effect: the
one that does what `id` says. -/
def Application.Carries (f : Func) (w : Workspace) (a : Application) (id : InstId) : Prop :=
  w.Results id a.node ∧ ∃ i, a.code.filter (·.hasSideEffect) = [i] ∧ f.Performs i id

/-- They are those of the stores and calls of the block. -/
theorem effectsOf_eq (haccesses : ∀ a ∈ as, a.Accesses w.forest)
    (hplaces : ∀ a ∈ as, a.rule.action.isEffect = true → (w.forest.node a.node).block = some a.block)
    (b : BlockId) : effectsOf b as = (as.filter (·.rule.action.isEffect)).filter
      fun a ↦ (w.forest.node a.node).block = some b := by
  rw [effectsOf, List.filter_filter]
  refine List.filter_congr fun a ha ↦ ?_
  have hperforms := (haccesses a ha).performs
  cases heffect : a.rule.action.isEffect with
  | true =>
    rw [if_pos heffect] at hperforms
    obtain ⟨i, hi, -⟩ := hperforms
    have hany : a.code.any (·.hasSideEffect) = true := by
      obtain ⟨hmem, hdoes⟩ := List.mem_filter.mp (hi ▸ List.mem_singleton_self i)
      exact List.any_eq_true.mpr ⟨i, hmem, hdoes⟩
    simp [hany, hplaces a ha heffect]
  | false =>
    rw [if_neg (Bool.eq_false_iff.mp heffect)] at hperforms
    have hnone : a.code.any (·.hasSideEffect) = false := by simpa using hperforms
    simp [hnone]

/-- The stores and calls of some applications of a run. -/
theorem Run.carries {done : List NodeId} {V : NodeId → Workspace → Prop} {ids : List InstId}
    (h : Run w done V v as) (hp : Planted f trees w) (hbefore : ∀ a ∈ before, a ∈ as)
    (hsame : SameEffects w before d) (hids : List.Forall₂ (fun r id ↦ w.Results id r) ((d.filter fun r ↦
      (w.forest.node r).hasSideEffect).filter fun r ↦ (w.forest.node r).block = some b) ids) :
    List.Forall₂ (Application.Carries f w) (effectsOf b before) ids := by
  rw [← hsame, List.filter_map, List.forall₂_map_left_iff] at hids
  rw [effectsOf_eq (fun a ha ↦ h.accesses a (hbefore a ha))
    (fun a ha heffect ↦ h.places a (hbefore a ha) (Or.inl heffect)) b]
  refine (forall₂_mem hids).imp fun a id ⟨ha, _, hid⟩ ↦ ⟨hid, ?_⟩
  obtain ⟨ha, heffect⟩ := List.mem_filter.mp (List.mem_filter.mp ha).1
  have hperforms := (h.accesses a (hbefore a ha)).performs
  rw [if_pos heffect] at hperforms
  exact hperforms.imp fun i ⟨hi, hdoes⟩ ↦ ⟨hi, hp.performs hid hdoes⟩

/-- The application reads an argument from the memory at `m`. -/
def Application.ReadsArgument (w : Workspace) (a : Application) (m : Mem) : Prop :=
  ∃ k idx, (w.forest.node k).op = .arg idx ∧ a.Reads w.forest k m

/-- The application performs the load `id`, from the memory at `m`. -/
def Application.ReadsLoad (w : Workspace) (a : Application) (id : InstId) (m : Mem) : Prop :=
  ∃ k, w.Results id k ∧ a.Reads w.forest k m

/-- What an application reads from memory it reads for an argument or for a load. -/
theorem Application.Accesses.cases (h : a.Accesses w.forest) (hp : Planted f trees w)
    (hread : a.Reads w.forest k m) :
    a.ReadsArgument w m ∨ ∃ b, ∃ id ∈ f.loads b, a.ReadsLoad w id m := by
  rcases h.kinds k m hread with hload | ⟨idx, harg⟩
  · obtain ⟨b, id, hid, hk⟩ := hp.exists_load hload
    exact Or.inr ⟨b, id, hid, k, hk, hread⟩
  · exact Or.inl ⟨k, idx, harg, hread⟩

/-- The applications of a run that read a load. -/
theorem Run.reads_load {V : NodeId → Workspace → Prop} (h : Run w trees.flatten V v as)
    (hp : Planted f trees w) (hlength : trees.length = f.blocks.length) (hguarded : Guarded trees w)
    (hid : id ∈ f.loads b) (hsplit : as = before ++ a :: after) (hread : a.ReadsLoad w id m) :
    a.block = b ∧ (∀ i ∈ a.code, i.hasSideEffect = false) ∧
      List.Forall₂ (Application.Carries f w) (effectsOf b before) ((f.effects b).filter (· < id)) ∧
      (a.rule.action = .phiInput → ∀ e ∈ f.effects b, e < id) := by
  obtain ⟨k, hk, hread⟩ := hread
  obtain ⟨hload, hkblock⟩ := hp.of_load hid hk
  have ha : a ∈ as := by simp [hsplit]
  obtain ⟨d, r, d', hall, hsame, hrblock, hintime, hmove⟩ := h.reads before a after k m hsplit hread hload
  obtain rfl : b = a.block :=
    Option.some.inj (hkblock.symm.trans (hintime.block.trans hrblock))
  refine ⟨rfl, ?_, ?_, fun hphi ↦ ?_⟩
  · have hperforms := (h.accesses a ha).performs
    rwa [if_neg (Bool.eq_false_iff.mp ((h.accesses a ha).quiet k m hread))] at hperforms
  · refine h.carries hp (fun a' ha' ↦ ?_) hsame (hp.effects_before hlength hall hintime hload hk hkblock)
    rw [hsplit]
    exact List.mem_append_left _ ha'
  · exact hp.lt_of_move hlength hguarded (by simp [hall]) hrblock (hmove hphi) hintime hid hk

/-! ## Inputs of phis -/

/-- The application to a copy that is given what comes of another node records an input. -/
theorem action_of_copy (hbuild : buildForest f (.start f s) = .ok trees w)
    (hselect : selectAll trees w = .ok x v) (happlies : Applies trees w a)
    (hop : (w.forest.node a.node).op = .phiMove) {nt : Nonterminal}
    (hleaves : a.rule.pattern.leaves w.forest a.node = [(q, nt)]) (hne : q ≠ a.node) :
    a.rule.action = .phiInput := by
  obtain ⟨_, _, hchronicle⟩ := selectAll_chronicle hbuild hselect
  obtain ⟨-, r, t, hcomes, -, hfollows⟩ := hchronicle.exists_follows happlies
  obtain ⟨g, ls, hskeleton, hvalues, hls, hrule⟩ := hfollows.labels
  have hmatches := (hls.sound.rule hrule).1
  cases hsource : a.rule.pattern.source? with
  | some nt' =>
    rw [← a.rule.pattern.takeLeaves_fst a.node w.forest (.refl _), Pattern.leaves_of_source hsource]
      at hleaves
    exact absurd (Prod.mk.inj (List.singleton_inj.mp hleaves)).1.symm hne
  | none =>
    obtain ⟨h, hh⟩ := Pattern.head?_of_source hsource
    have hnew : (g.node a.node).computed = false := by
      rw [(hvalues a.node).computed]
      refine Bool.eq_false_iff.mpr fun hcomputed ↦ ?_
      rcases (hcomes.marked hbuild).computed a.node hcomputed with hphi | ⟨o, ho⟩
      · exact NodeOp.noConfusion (hop.symm.trans hphi)
      · exact NodeOp.noConfusion (hop.symm.trans ho)
    have hhead : (g.node a.node).head? = some .phiMove := by
      rw [Node.head?, hnew, hskeleton.op, hop]
      rfl
    obtain rfl := Option.some.inj ((hmatches.fits.head? hh).symm.trans hhead)
    exact Grammar.action_of_phiMove a.rule hmatches.mem hh

/-- Every input that a phi holds in the end was recorded, in the block at whose end it is read. -/
theorem exists_recording (hbuild : buildForest f (.start f s) = .ok trees w)
    (hselect : selectAll trees w = .ok x v) {succ : BlockId} {phi : Phi}
    (hphi : phi ∈ phisAt v.code.blocks succ) {o : Machine.Operand} {pred : BlockId}
    (ho : (o, pred) ∈ phi.incoming) : ∃ a, Applies trees w a ∧ a.rule.action = .phiInput ∧
      (w.forest.node a.node).block = some pred ∧ a.kids[0]?.bind Bound.operand? = some o := by
  obtain ⟨hp, -⟩ := buildForest_planted hbuild
  have hrec := buildForest_recorded hbuild
  obtain ⟨inputs, hhanded⟩ := selectAll_handed hp hrec hselect
  rw [hhanded.phis] at hphi
  obtain ⟨phi₀, hphi₀, rfl⟩ := List.mem_map.mp hphi
  rw [Phi.taking, hp.declared.blank.inputs succ phi₀ hphi₀, List.nil_append] at ho
  obtain ⟨e, he, heq⟩ := List.mem_map.mp ho
  obtain ⟨rfl, rfl⟩ := Prod.mk.inj heq
  obtain ⟨r, -, id, i, k, kid, a, his, -, happlies, rfl, goal, bound, hleaves, hkids, hoperand, -⟩ :=
    exists_of_forall₂ hhanded.copies (List.mem_filter.mp he).1
  refine ⟨a, happlies, action_of_copy hbuild hselect happlies his.op hleaves fun heq ↦ ?_,
    Node.block_of_core his.2, by rw [hkids]; exact hoperand⟩
  -- a copy is no child of itself
  refine hp.not_kid_phiMove hrec his.op a.node ?_
  rw [Forest.kidOwners, Node.kids_of_core his.2]
  exact List.mem_singleton.mpr heq.symm

/-! ## Selection -/

/-- The memory operations of `f` stay in order, where selection from `w` to `v` makes the applications
`as`, one after the other. -/
structure KeepsMemoryOrder (f : Func) (trees : List (List NodeId)) (w v : Workspace)
    (as : List Application) : Prop where
  mem : ∀ a, a ∈ as ↔ Applies trees w a
  /-- The code of a block is theirs, … -/
  code : ∀ b, instsAt v.code.blocks b = codeOf b as
  /-- … and so are the inputs of phis, which are read at the end of their block. -/
  inputs : ∀ succ, ∀ phi ∈ phisAt v.code.blocks succ, ∀ o pred, (o, pred) ∈ phi.incoming →
    ∃ a ∈ as, a.rule.action = .phiInput ∧ a.block = pred ∧ a.kids[0]?.bind Bound.operand? = some o ∧
      ∀ m, o = .mem m → a.ReadsArgument w m ∨ ∃ b, ∃ id ∈ f.loads b, a.ReadsLoad w id m
  /-- The stores and calls of a block are emitted once, in order. -/
  effects : ∀ b, List.Forall₂ (Application.Carries f w) (effectsOf b as) (f.effects b)
  /-- Code reads memory for arguments and loads only. -/
  readers : ∀ a ∈ as, ∀ i ∈ a.code, i.readsMemory = true → ∀ m, .mem m ∈ i.operands →
    a.ReadsArgument w m ∨ ∃ b, ∃ id ∈ f.loads b, a.ReadsLoad w id m
  /-- The memory of a load is read in its block, after the stores and calls that precede the load and
  before the others; none are left to follow if an input of a phi reads it. -/
  reads : ∀ before a after b m, ∀ id ∈ f.loads b, as = before ++ a :: after → a.ReadsLoad w id m →
    a.block = b ∧ (∀ i ∈ a.code, i.hasSideEffect = false) ∧
      List.Forall₂ (Application.Carries f w) (effectsOf b before) ((f.effects b).filter (· < id)) ∧
      (a.rule.action = .phiInput → ∀ e ∈ f.effects b, e < id)
  /-- A load that is read in another block is emitted in its own. -/
  elsewhere : ∀ b, ∀ id ∈ f.loads b, f.ReadElsewhere id →
    ∃ a ∈ as, a.block = b ∧ ∃ i ∈ a.code, i.readsMemory = true ∧ ∃ m, .mem m ∈ i.operands ∧
      a.ReadsLoad w id m

/-- **Program order.** Whatever the threshold, the stores and calls of a block are emitted once and in
order, and the memory of a load is read in its block, between the stores and calls that precede and those
that follow it. -/
theorem selectAll_keepsMemoryOrder (hparse : parse text = .ok fs) (hf : f ∈ fs)
    (hbuild : buildForest f (.start f s) = .ok trees w) (hselect : selectAll trees w = .ok x v) :
    ∃ as, KeepsMemoryOrder f trees w v as := by
  obtain ⟨hp, hlength⟩ := buildForest_planted hbuild
  obtain ⟨as, hrun⟩ := selectAll_run hparse hf hbuild hselect
  have hguarded := buildForest_logged (wellFormed_of_parse hparse f hf) hbuild
  have hmem : ∀ a, a ∈ as ↔ Applies trees w a := fun a ↦ (hrun.mem a).symm.trans applies_iff.symm
  refine ⟨as, hmem, hrun.code, ?_,
    fun b ↦ hrun.carries hp (fun _ h ↦ h) hrun.effects (hp.effects hlength b), fun a ha i hi hread m hm ↦ ?_, fun before a after b m id hid ↦
      hrun.reads_load hp hlength hguarded hid, fun b id hid helsewhere ↦ ?_⟩
  · intro succ phi hphi o pred ho
    obtain ⟨a, happlies, haction, hblock, hoperand⟩ := exists_recording hbuild hselect hphi ho
    have ha := (hmem a).mpr happlies
    have hplace := hrun.places a ha (Or.inr haction)
    refine ⟨a, ha, haction, Option.some.inj (hplace.symm.trans hblock), hoperand, fun m hm ↦ ?_⟩
    obtain ⟨k, hread⟩ := (hrun.accesses a ha).inputs haction m (hm ▸ hoperand)
    exact (hrun.accesses a ha).cases hp hread
  · obtain ⟨k, hread⟩ := (hrun.accesses a ha).reads i hi hread m hm
    exact (hrun.accesses a ha).cases hp hread
  · obtain ⟨k, hkroot, hk⟩ := hp.exists_root hlength hid
    obtain ⟨hload, -⟩ := hp.of_load hid hk
    have hescapes : (w.forest.node k).escapes = true :=
      (hp.building.nodes k hk.1).escapes id hk (by simp [hload]) (Func.escapes_iff.mpr helsewhere)
    obtain ⟨a, ha, rfl, hlhs⟩ := hrun.stays k hkroot hload fun hwait ↦ by
      rcases hwait.escapes with hstays | halloca
      · exact Bool.false_ne_true (hstays.symm.trans hescapes)
      · exact absurd (NodeOp.inst.inj (hload.symm.trans halloca)) Opcode.noConfusion
    obtain ⟨i, hi, hread, m, hm, hreads⟩ := (hrun.accesses a ha).loads hload hlhs
    obtain ⟨before, after, hsplit⟩ := List.append_of_mem ha
    have hblock := (hrun.reads_load hp hlength hguarded hid hsplit ⟨_, hk, hreads⟩).1
    exact ⟨a, ha, hblock, i, hi, hread, m, hm, _, hk, hreads⟩

/-! ## A load before and a load after -/

/-- A function that loads twice, once before a store and a call and once after them. -/
def reloadingText : String :=
  "define i64 @f(ptr %p, ptr %q) \x7b\n" ++
  "  %x = load i64, ptr %p\n" ++
  "  store i64 7, ptr %p\n" ++
  "  call void @g()\n" ++
  "  %y = load i64, ptr %q\n" ++
  "  %z = sub i64 %x, %y\n" ++
  "  ret i64 %z\n" ++
  "\x7d\n"

def reloading : Func where
  name := "f"
  ret := .int 64
  params := [⟨"p", .ptr⟩, ⟨"q", .ptr⟩]
  blocks := [⟨"entry", [⟨some "x", .int 64, .load (.value (.arg 0))⟩,
    ⟨none, .int 64, .store (.int 7 64) (.value (.arg 0))⟩,
    ⟨none, .void, .call "g" []⟩,
    ⟨some "y", .int 64, .load (.value (.arg 1))⟩,
    ⟨some "z", .int 64, .binary .sub (.value (.inst 0)) (.value (.inst 3))⟩,
    ⟨none, .int 64, .ret (some (.value (.inst 4)))⟩]⟩]

theorem parse_reloading : parse reloadingText = .ok [reloading] := by
  rw [parse_eq_parseChars]
  unfold reloadingText
  simp only [String.toList_append, String.reduceToList]
  decide +kernel

/-- The instructions of the entry that have side effects or read memory through a register. -/
def memoryCode (blocks : List Machine.Block) : List String :=
  ((instsAt blocks 0).filter fun i ↦ i.hasSideEffect || readsThrough i).map (·.mnemonic)

/-- The first load has an instruction of its own, the other one is read by the subtraction. -/
theorem reloading_selected : ∃ trees w v, buildForest reloading (.start reloading {}) = .ok trees w ∧
    selectAll trees w = .ok () v ∧ memoryCode v.code.blocks = ["movq", "movq", "call", "subq"] := by
  have hcheck : succeeds
      (fun _ v ↦ decide (memoryCode v.code.blocks = ["movq", "movq", "call", "subq"]))
      ((buildForest reloading >>= selectAll) (.start reloading {})) = true := by decide +kernel
  obtain ⟨_, v, hx, hcode⟩ := exists_of_succeeds hcheck
  obtain ⟨trees, w, hbuild, hselect⟩ := bind_eq_ok.mp hx
  exact ⟨trees, w, v, hbuild, hselect, of_decide_eq_true hcode⟩

theorem reloading_keepsMemoryOrder : parse reloadingText = .ok [reloading] ∧
    reloading.effects 0 = [1, 2] ∧ reloading.loads 0 = [0, 3] ∧
    ∃ trees w v as, buildForest reloading (.start reloading {}) = .ok trees w ∧
      selectAll trees w = .ok () v ∧ memoryCode v.code.blocks = ["movq", "movq", "call", "subq"] ∧
        KeepsMemoryOrder reloading trees w v as := by
  obtain ⟨trees, w, v, hbuild, hselect, hcode⟩ := reloading_selected
  obtain ⟨as, horder⟩ :=
    selectAll_keepsMemoryOrder parse_reloading (List.mem_singleton_self _) hbuild hselect
  exact ⟨parse_reloading, by decide, by decide, trees, w, v, as, hbuild, hselect, hcode, horder⟩

end TreeCover
