import TreeCover.Proofs.Forest.Building

/-!
# Attaching children

The node of an instruction is made first and gets its children afterwards: the nodes of its operands,
and between or next to them the glue of a call or of a branch. This touches the new nodes only.
-/

namespace TreeCover

open Ir Machine Work

variable {f : Func} {w w' w₁ w₂ : Workspace} {g : Forest} {k c p s : NodeId} {b : BlockId}
  {id : InstId} {i : ResolvedInst} {kids : List NodeId} {n : Node}

namespace Forest

/-! ## Children -/

theorem size_addChild (g : Forest) (p c : NodeId) : (g.addChild p c).size = g.size :=
  size_update g p _

theorem node_addChild_of_ne (g : Forest) (c : NodeId) (h : k ≠ p) :
    (g.addChild p c).node k = g.node k := node_update_of_ne g _ h

theorem node_addChild (g : Forest) (c : NodeId) (h : p < g.size) :
    ∃ level, (g.addChild p c).node p = { g.node p with kids := (g.node p).kids ++ [c], level } :=
  ⟨_, node_update_self g _ h⟩

/-- Appending children in order. -/
def addKids (g : Forest) (p : NodeId) (kids : List NodeId) : Forest := kids.foldl (·.addChild p ·) g

theorem size_addKids (g : Forest) (p : NodeId) (kids : List NodeId) :
    (g.addKids p kids).size = g.size := by
  induction kids generalizing g with
  | nil => rfl
  | cons c kids ih => exact (ih (g.addChild p c)).trans (g.size_addChild p c)

theorem node_addKids_of_ne (g : Forest) (kids : List NodeId) (h : k ≠ p) :
    (g.addKids p kids).node k = g.node k := by
  induction kids generalizing g with
  | nil => rfl
  | cons c kids ih => exact (ih (g.addChild p c)).trans (g.node_addChild_of_ne c h)

theorem node_addKids (g : Forest) (kids : List NodeId) (h : p < g.size) :
    ∃ level, (g.addKids p kids).node p = { g.node p with kids := (g.node p).kids ++ kids, level } := by
  induction kids generalizing g with
  | nil => exact ⟨(g.node p).level, by rw [List.append_nil]; rfl⟩
  | cons c kids ih =>
    obtain ⟨level, hlevel⟩ := g.node_addChild c h
    obtain ⟨level', hlevel'⟩ := ih (g.addChild p c) (by rwa [size_addChild])
    refine ⟨level', hlevel'.trans ?_⟩
    rw [hlevel]
    simp only [List.append_assoc, List.singleton_append]

/-- Appending a child with a reference of its own. -/
def adopt (g : Forest) (p s : NodeId) : Forest := (g.addChild p s).takeRef s

theorem owner_addChild_of_target (ht : (g.node s).target = none) (hne : s ≠ p) :
    (g.addChild p s).owner s = s :=
  owner_of_target (by rw [node_addChild_of_ne g s hne]; exact ht)

theorem size_adopt (g : Forest) (p s : NodeId) : (g.adopt p s).size = g.size := by
  rw [adopt, takeRef, size_update, size_addChild]

section Adopt

variable (ht : (g.node s).target = none) (hne : s ≠ p)
include ht hne

theorem node_adopt_of_ne (hp : k ≠ p) (hs : k ≠ s) : (g.adopt p s).node k = g.node k := by
  rw [adopt, takeRef, owner_addChild_of_target ht hne, node_update_of_ne _ _ hs,
    node_addChild_of_ne g s hp]

theorem node_adopt_kid (hs : s < g.size) :
    (g.adopt p s).node s = { g.node s with refs := (g.node s).refs + 1 } := by
  rw [adopt, takeRef, owner_addChild_of_target ht hne,
    node_update_self _ _ (by rwa [size_addChild]), node_addChild_of_ne g s hne]

theorem node_adopt_parent (hp : p < g.size) :
    ∃ level, (g.adopt p s).node p = { g.node p with kids := (g.node p).kids ++ [s], level } := by
  rw [adopt, takeRef, owner_addChild_of_target ht hne, node_update_of_ne _ _ hne.symm]
  exact g.node_addChild s hp

end Adopt

/-! ## Growth -/

variable {g₀ : Forest}

theorem Grows.push (h : Grows g₀ g) (n : Node) : Grows g₀ (g.push n).2 := h.trans (g.grows_push n)

theorem Grows.addKids (h : Grows g₀ g) (hp : g₀.size ≤ p) (kids : List NodeId) :
    Grows g₀ (g.addKids p kids) := by
  induction kids generalizing g with
  | nil => exact h
  | cons c kids ih => exact ih (h.update hp _)

theorem Grows.adopt (h : Grows g₀ g) (ht : (g.node s).target = none) (hne : s ≠ p)
    (hp : g₀.size ≤ p) (hs : g₀.size ≤ s) : Grows g₀ (g.adopt p s) := by
  rw [Forest.adopt, takeRef, owner_addChild_of_target ht hne]
  exact (h.update hp _).update hs _

/-- A new leaf that is adopted at once. -/
theorem adopt_push (h : Grows g₀ g) (hp : g₀.size ≤ p) (hlt : p < g.size) (ht : n.target = none) :
    Grows g₀ ((g.push n).2.adopt p g.size) ∧ ((g.push n).2.adopt p g.size).size = g.size + 1 ∧
      ((g.push n).2.adopt p g.size).node g.size = { n with refs := n.refs + 1 } ∧
      (∃ level, ((g.push n).2.adopt p g.size).node p =
        { g.node p with kids := (g.node p).kids ++ [g.size], level }) ∧
      ∀ k < g.size, k ≠ p → ((g.push n).2.adopt p g.size).node k = g.node k := by
  have hself : (g.push n).2.node g.size = n := g.node_push_self n
  have hsize : (g.push n).2.size = g.size + 1 := g.size_push n
  have hold : ∀ k < g.size, (g.push n).2.node k = g.node k := fun k hk ↦ g.node_push_of_lt n hk
  have hgrows := h.push n
  generalize (g.push n).2 = g' at *
  have hne := Nat.ne_of_gt hlt
  have ht' : (g'.node g.size).target = none := by rw [hself, ht]
  refine ⟨hgrows.adopt ht' hne hp h.size, by rw [size_adopt, hsize], ?_, ?_, fun k hk hkp ↦ ?_⟩
  · rw [node_adopt_kid ht' hne (hsize ▸ Nat.lt_succ_self _), hself]
  · obtain ⟨level, hparent⟩ := node_adopt_parent ht' hne (hsize ▸ Nat.lt_succ_of_lt hlt)
    exact ⟨level, by rw [hparent, hold p hlt]⟩
  · rw [node_adopt_of_ne ht' hne hkp (Nat.ne_of_lt hk), hold k hk]

end Forest

/-! ## Glue -/

/-- The second half of making an instruction: its children. -/
def attach (n : NodeId) (op : Operation Value BlockId) (kids : List NodeId) : Work Unit := do
  match op with
  | .call .. =>
    let list ← push { op := .args, width := 0 }
    addChildren list kids
    modifyForest (·.adopt n list)
  | .br _ =>
    addChildren n kids
    discard <| addOwnChild n Node.pad
    discard <| addOwnChild n Node.pad
  | _ => addChildren n kids

/-- The last touches to the node of an instruction: its own read, and the mark of a value that leaves
its block. -/
def Forest.finish (g : Forest) (f : Func) (id : InstId) (i : ResolvedInst) (n : NodeId) : Forest :=
  let g := if i.opcode = .load then g.logAccess .read n else g
  if f.escapes id then g.markEscaping n else g

/-- The node of an instruction before it has children. -/
def Node.bare (b : BlockId) (id : InstId) (i : ResolvedInst) : Node :=
  { Node.ofInst b id i [] with roles := { pointer := i.opcode = .alloca ∨ i.ty = .ptr } }

theorem finish_ok {m : NodeId} (h : (if i.opcode = .load then do
      modifyForest (·.logAccess .read m)
      if f.escapes id = true then do
        modifyForest (·.markEscaping m)
        pure m
      else pure m
    else if f.escapes id = true then do
      modifyForest (·.markEscaping m)
      pure m
    else pure m : Work NodeId) w = .ok k w') :
    k = m ∧ w' = { w with forest := w.forest.finish f id i m } := by
  rw [Forest.finish]
  by_cases hload : i.opcode = .load <;> by_cases hescapes : f.escapes id = true <;>
    · simp only [hload, hescapes, if_true, if_false, modifyForest, bind_eq_ok, modify_eq_ok,
        pure_eq_ok, Bool.false_eq_true] at h ⊢
      simpa using h

theorem buildInst_ok (h : buildInst f b id i w = .ok k w') :
    ∃ kids w₁ w₂, (i.operation.places.zipIdx.mapM fun (p, idx) ↦ place id i idx p :
        Work (List NodeId)) w = .ok kids w₁ ∧ k = w₁.forest.size ∧
      attach k i.operation kids { w₁ with forest := (w₁.forest.push (Node.bare b id i)).2 }
        = .ok () w₂ ∧
      w' = { w₂ with forest := w₂.forest.finish f id i k } := by
  rw [buildInst] at h
  obtain ⟨kids, w₁, hplaces, h⟩ := bind_eq_ok.mp h
  obtain ⟨m, s₁, hpush, h⟩ := bind_eq_ok.mp h
  obtain ⟨rfl, rfl⟩ : m = w₁.forest.size ∧
      s₁ = { w₁ with forest := (w₁.forest.push (Node.bare b id i)).2 } := modifyGet_eq_ok.mp hpush
  suffices hattach : ∃ w₂, attach w₁.forest.size i.operation kids
      { w₁ with forest := (w₁.forest.push (Node.bare b id i)).2 } = .ok () w₂ ∧
        k = w₁.forest.size ∧ w' = { w₂ with forest := w₂.forest.finish f id i w₁.forest.size } by
    obtain ⟨w₂, hattach, rfl, rfl⟩ := hattach
    exact ⟨kids, w₁, w₂, hplaces, rfl, hattach, rfl⟩
  cases hop : i.operation with
  | call callee args =>
    simp only [hop] at h
    obtain ⟨list, w₂, hpush', h⟩ := bind_eq_ok.mp h
    obtain ⟨_, w₃, hkids, h⟩ := bind_eq_ok.mp h
    obtain ⟨_, w₄, hlist, h⟩ := bind_eq_ok.mp h
    obtain ⟨hk, hw'⟩ := finish_ok h
    exact ⟨w₄, bind_eq_ok.mpr ⟨list, w₂, hpush', bind_eq_ok.mpr ⟨_, w₃, hkids, hlist⟩⟩, hk, hw'⟩
  | br t =>
    simp only [hop] at h
    obtain ⟨_, w₂, hkids, h⟩ := bind_eq_ok.mp h
    obtain ⟨_, w₃, hfirst, h⟩ := bind_eq_ok.mp h
    obtain ⟨_, w₄, hsecond, h⟩ := bind_eq_ok.mp h
    obtain ⟨hk, hw'⟩ := finish_ok h
    exact ⟨w₄, bind_eq_ok.mpr ⟨_, w₂, hkids, bind_eq_ok.mpr ⟨_, w₃, hfirst, hsecond⟩⟩, hk, hw'⟩
  | _ =>
    simp only [hop] at h
    obtain ⟨_, w₂, hkids, h⟩ := bind_eq_ok.mp h
    obtain ⟨hk, hw'⟩ := finish_ok h
    exact ⟨w₂, hkids, hk, hw'⟩

theorem addChildren_ok (h : addChildren p kids w = .ok () w') :
    w' = { w with forest := w.forest.addKids p kids } := by
  induction kids generalizing w with
  | nil =>
    obtain ⟨-, rfl⟩ := pure_eq_ok.mp h
    rfl
  | cons c kids ih =>
    obtain ⟨_, w₁, hc, hkids⟩ := bind_eq_ok.mp h
    obtain rfl := modify_eq_ok.mp hc
    exact ih hkids

theorem addOwnChild_ok (h : addOwnChild p n w = .ok k w') :
    k = w.forest.size ∧ w' = { w with forest := (w.forest.push n).2.adopt p w.forest.size } := by
  obtain ⟨m, w₁, hpush, h⟩ := bind_eq_ok.mp h
  obtain ⟨rfl, rfl⟩ := modifyGet_eq_ok.mp hpush
  obtain ⟨_, w₂, hadopt, h⟩ := bind_eq_ok.mp h
  obtain rfl := modify_eq_ok.mp hadopt
  exact pure_eq_ok.mp h

/-- What attaching children to the new node of an instruction adds to a workspace. -/
structure Attached (f : Func) (b : BlockId) (id : InstId) (i : ResolvedInst) (kids : List NodeId)
    (w w' : Workspace) : Prop where
  defs : w'.defs = w.defs
  grows : w.Grows w'
  inst : ∃ kids', w'.Is w.forest.size (.ofInst b id i kids') ∧
    w'.HasKids f w.forest.size i.operation kids' ∧ ∀ c ∈ kids', c ∈ kids ∨ w.forest.size < c
  glue : ∀ k, w.forest.size < k → k < w'.forest.size →
    (w'.Is k .pad ∨ w'.Is k (.ofArgs kids)) ∧ 0 < (w'.forest.node k).refs

section Attach

variable (hkids : List.Forall₂ (w.Denotes f) i.operation.places kids)
  (hgrows : w.forest.Grows g) (hsize : g.size = w.forest.size + 1)
  (hself : g.node w.forest.size = Node.bare b id i)
include hkids hgrows hsize hself

/-- Most instructions get the nodes of their operands and nothing else. -/
theorem attached_kids (hcall : i.opcode ≠ .call) (hbr : ∀ t, i.operation ≠ .br t) :
    Attached f b id i kids w { w with forest := g.addKids w.forest.size kids } := by
  have hlt : w.forest.size < g.size := by
    rw [hsize]
    exact Nat.lt_succ_self _
  have hgrows' : w.Grows { w with forest := g.addKids w.forest.size kids } :=
    ⟨hgrows.addKids (Nat.le_refl _) kids, .refl _, rfl, fun _ _ h ↦ h⟩
  obtain ⟨level, hnode⟩ := g.node_addKids kids hlt
  refine ⟨rfl, hgrows', ⟨kids, ⟨?_, ?_⟩, ?_, fun c hc ↦ Or.inl hc⟩, fun k hk hk' ↦ ?_⟩
  · rw [Forest.size_addKids]
    exact hlt
  · rw [hnode, hself]
    rfl
  · exact .other hcall hbr (Workspace.Denotes.grows_all hkids hgrows') fun j hj ↦
      Workspace.Denotes.lt_of_mem hkids hj
  · rw [Forest.size_addKids, hsize] at hk'
    exact absurd hk' (Nat.not_lt.mpr hk)

/-- A call gets one child, which gathers its arguments. -/
theorem attached_args {callee : String} {args : List (Ir.Operand Value)}
    (hop : i.operation = .call callee args) :
    Attached f b id i kids w { w with
      forest := ((g.push { op := .args, width := 0 }).2.addKids g.size kids).adopt
        w.forest.size g.size } := by
  have hlt : w.forest.size < g.size := by
    rw [hsize]
    exact Nat.lt_succ_self _
  have hne := Nat.ne_of_gt hlt
  -- the list, with its children
  have hpush : (g.push { op := .args, width := 0 }).2.size = g.size + 1 := Forest.size_push _ _
  obtain ⟨level, hlist⟩ := (g.push { op := .args, width := 0 }).2.node_addKids kids
    (p := g.size) (hpush ▸ Nat.lt_succ_self _)
  rw [Forest.node_push_self] at hlist
  have hinst : ((g.push { op := .args, width := 0 }).2.addKids g.size kids).node w.forest.size
      = Node.bare b id i := by
    rw [Forest.node_addKids_of_ne _ _ hne.symm, Forest.node_push_of_lt _ _ hlt, hself]
  have hgrown := (hgrows.push { op := .args, width := 0 }).addKids (p := g.size) hgrows.size kids
  have hsize' : ((g.push { op := .args, width := 0 }).2.addKids g.size kids).size
      = g.size + 1 := by rw [Forest.size_addKids, hpush]
  generalize (g.push { op := .args, width := 0 }).2.addKids g.size kids = g' at *
  -- its adoption
  have hlt' : g.size < g'.size := hsize' ▸ Nat.lt_succ_self _
  have ht : (g'.node g.size).target = none := by rw [hlist]
  have hgrows' : w.Grows { w with forest := g'.adopt w.forest.size g.size } :=
    ⟨hgrown.adopt ht hne (Nat.le_refl _) hgrows.size, .refl _, rfl, fun _ _ h ↦ h⟩
  have hkid := Forest.node_adopt_kid ht hne hlt'
  obtain ⟨level', hparent⟩ := Forest.node_adopt_parent ht hne (Nat.lt_trans hlt hlt')
  rw [hinst] at hparent
  rw [hlist] at hkid
  have hlist' : { w with forest := g'.adopt w.forest.size g.size }.Is g.size (.ofArgs kids) :=
    ⟨by rw [Forest.size_adopt]; exact hlt', by rw [hkid]; rfl⟩
  refine ⟨rfl, hgrows', ⟨[g.size], ⟨?_, ?_⟩, ?_, fun c hc ↦ ?_⟩, fun k hk hk' ↦ ?_⟩
  · rw [Forest.size_adopt]
    exact Nat.lt_trans hlt hlt'
  · rw [hparent]
    rfl
  · rw [hop] at hkids ⊢
    rw [hsize] at hgrows' hlist' ⊢
    exact .call hlist' (Workspace.Denotes.grows_all hkids hgrows') fun j hj ↦
      Workspace.Denotes.lt_of_mem hkids hj
  · rw [List.mem_singleton.mp hc]
    exact Or.inr hlt
  · rw [Forest.size_adopt, hsize'] at hk'
    obtain rfl : k = g.size := Nat.le_antisymm (Nat.le_of_lt_succ hk') (hsize ▸ hk)
    refine ⟨Or.inr hlist', ?_⟩
    rw [hkid]
    exact Nat.succ_pos _

/-- An unconditional branch gets two pads. -/
theorem attached_pads {t : BlockId} (hop : i.operation = .br t) :
    Attached f b id i kids w { w with
      forest := (((g.addKids w.forest.size kids).push Node.pad).2.adopt
        w.forest.size (w.forest.size + 1)).push Node.pad |>.2.adopt
          w.forest.size (w.forest.size + 2) } := by
  have hlt : w.forest.size < g.size := by
    rw [hsize]
    exact Nat.lt_succ_self _
  obtain ⟨level, hnode⟩ := g.node_addKids kids hlt
  rw [hself] at hnode
  have hgrown := hgrows.addKids (Nat.le_refl w.forest.size) kids
  rw [← g.size_addKids w.forest.size kids] at hsize hlt
  generalize g.addKids w.forest.size kids = g₁ at *
  -- the first pad
  obtain ⟨hgrown₁, hsize₁, hpad₁, ⟨level₁, hnode₁⟩, -⟩ :=
    Forest.adopt_push (n := Node.pad) hgrown (Nat.le_refl _) hlt rfl
  rw [hsize] at hgrown₁ hsize₁ hpad₁ hnode₁
  rw [hnode] at hnode₁
  generalize (g₁.push Node.pad).2.adopt w.forest.size (w.forest.size + 1) = g₂ at *
  -- the second pad
  have hlt₂ : w.forest.size < g₂.size := hsize₁ ▸ Nat.lt_succ_of_lt (Nat.lt_succ_self _)
  obtain ⟨hgrown₂, hsize₂, hpad₂, ⟨level₂, hnode₂⟩, hold⟩ :=
    Forest.adopt_push (n := Node.pad) hgrown₁ (Nat.le_refl _) hlt₂ rfl
  have hpad := hold (w.forest.size + 1) (hsize₁ ▸ Nat.lt_succ_self _) (Nat.succ_ne_self _)
  rw [hsize₁] at hgrown₂ hsize₂ hpad₂ hnode₂ hpad
  rw [hnode₁] at hnode₂
  rw [hpad₁] at hpad
  generalize (g₂.push Node.pad).2.adopt w.forest.size (w.forest.size + 1 + 1) = g₃ at *
  have hgrows' : w.Grows { w with forest := g₃ } := ⟨hgrown₂, .refl _, rfl, fun _ _ h ↦ h⟩
  have hfirst : { w with forest := g₃ }.Is (w.forest.size + 1) .pad :=
    ⟨hsize₂ ▸ Nat.lt_succ_of_lt (Nat.lt_succ_self _), by rw [hpad]; rfl⟩
  have hsecond : { w with forest := g₃ }.Is (w.forest.size + 2) .pad :=
    ⟨hsize₂ ▸ Nat.lt_succ_self _, by rw [hpad₂]; rfl⟩
  obtain ⟨kid, rfl⟩ : ∃ kid, kids = [kid] := by
    rw [hop] at hkids
    cases hkids with
    | cons _ hrest =>
      cases hrest
      exact ⟨_, rfl⟩
  have hkid : w.Denotes f (.block t) kid := by
    rw [hop] at hkids
    cases hkids with
    | cons hkid _ => exact hkid
  refine ⟨rfl, hgrows', ⟨[kid, w.forest.size + 1, w.forest.size + 2], ⟨?_, ?_⟩, ?_, fun c hc ↦ ?_⟩,
    fun k hk hk' ↦ ?_⟩
  · exact Nat.lt_trans (Nat.lt_succ_of_lt (Nat.lt_succ_self _)) hsecond.1
  · rw [hnode₂]
    rfl
  · rw [hop]
    exact .br (hkid.grows hgrows') hkid.lt hfirst hsecond
  · rcases List.mem_cons.mp hc with rfl | hc
    · exact Or.inl List.mem_cons_self
    · simp only [List.mem_cons, List.not_mem_nil, or_false] at hc
      rcases hc with rfl | rfl
      · exact Or.inr (Nat.lt_succ_self _)
      · exact Or.inr (Nat.lt_succ_of_lt (Nat.lt_succ_self _))
  · have hcases : k = w.forest.size + 1 ∨ k = w.forest.size + 2 := by
      have hk'' : k < w.forest.size + 3 := hsize₂ ▸ hk'
      exact (Nat.eq_or_lt_of_le hk).imp_left Eq.symm |>.imp_right fun hk ↦
        Nat.le_antisymm (Nat.le_of_lt_succ hk'') hk
    rcases hcases with rfl | rfl
    · exact ⟨Or.inl hfirst, by rw [hpad]; exact Nat.succ_pos _⟩
    · exact ⟨Or.inl hsecond, by rw [hpad₂]; exact Nat.succ_pos _⟩

end Attach

theorem attach_ok (hkids : List.Forall₂ (w.Denotes f) i.operation.places kids)
    (hx : attach w.forest.size i.operation kids
      { w with forest := (w.forest.push (Node.bare b id i)).2 } = .ok () w') :
    Attached f b id i kids w w' := by
  have hgrows := (Forest.Grows.refl w.forest).push (Node.bare b id i)
  have hsize : (w.forest.push (Node.bare b id i)).2.size = w.forest.size + 1 := Forest.size_push _ _
  have hself : (w.forest.push (Node.bare b id i)).2.node w.forest.size = Node.bare b id i :=
    Forest.node_push_self _ _
  cases hop : i.operation with
  | call callee args =>
    rw [hop] at hx
    obtain ⟨_, w₁, hpush, hx⟩ := bind_eq_ok.mp hx
    obtain ⟨rfl, rfl⟩ := modifyGet_eq_ok.mp hpush
    obtain ⟨_, w₂, hlist, hx⟩ := bind_eq_ok.mp hx
    obtain rfl := addChildren_ok hlist
    obtain rfl := modify_eq_ok.mp hx
    exact attached_args hkids hgrows hsize hself hop
  | br t =>
    rw [hop] at hx
    obtain ⟨_, w₁, hlist, hx⟩ := bind_eq_ok.mp hx
    obtain rfl := addChildren_ok hlist
    obtain ⟨_, w₂, hfirst, hsecond⟩ := bind_eq_ok.mp hx
    obtain ⟨_, hfirst⟩ := discard_eq_ok.mp hfirst
    obtain ⟨_, hsecond⟩ := discard_eq_ok.mp hsecond
    obtain ⟨rfl, rfl⟩ := addOwnChild_ok hfirst
    obtain ⟨rfl, rfl⟩ := addOwnChild_ok hsecond
    have hpads := attached_pads hkids hgrows hsize hself hop
    simpa only [Forest.size_adopt, Forest.size_addKids, Forest.size_push] using hpads
  | _ =>
    have hx' := hop ▸ hx
    rw [addChildren_ok hx']
    refine attached_kids hkids hgrows hsize hself ?_ ?_
    · rw [Inst.opcode, hop]
      exact Opcode.noConfusion
    · rw [hop]
      exact fun _ h ↦ by cases h

end TreeCover
