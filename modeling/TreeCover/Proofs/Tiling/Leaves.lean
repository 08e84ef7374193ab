import TreeCover.Proofs.Forest.Progress
import TreeCover.Proofs.Tiling.Matching
import TreeCover.Tiling.Select

/-!
# Leaves of a tile

A node is ready in a block if its tree can be emitted there: down to what is computed already, in
registers that are available, the tree consists of instructions that the block may emit. The leaves
that a matching rule leaves to be reduced are ready if the node is.

Some instructions have no value. Nothing is asked of such a node where it is used as a value, for no
rule reduces it to one.
-/

namespace TreeCover

open Ir Machine

/-- Operators whose nodes have no value. -/
def NodeOp.isBarren : NodeOp → Bool
  | .inst .store | .inst .br | .inst .ret | .inst .phi | .phiMove => true
  | _ => false

/-- Operators of nodes that are not made from others. -/
def NodeOp.isLeaf : NodeOp → Bool
  | .imm | .arg _ | .label | .dummy => true
  | _ => false

namespace Forest

/-- A node whose tree can be emitted, if the instructions of `mine` may be, and the registers of
`avail` may be read. -/
inductive Ready (f : Forest) (mine : NodeId → Prop) (avail : VReg → Prop) : NodeId → Prop
  | computed {k : NodeId} {v : VReg} (hcomputed : (f.node k).computed = true)
      (hkids : (∀ o, (f.node k).op ≠ .inst o) → (f.node k).kids = [])
      (hslot : (f.node k).slot = .vreg v) (havail : avail v) : Ready f mine avail k
  | leaf {k : NodeId} (hcomputed : (f.node k).computed = false)
      (hop : (f.node k).op.isLeaf = true) (hkids : (f.node k).kids = []) : Ready f mine avail k
  | inner {k : NodeId} (hcomputed : (f.node k).computed = false)
      (hop : (f.node k).op = .args ∨ mine k ∧ ∃ o, (f.node k).op = .inst o)
      (hkids : ∀ c ∈ f.kidOwners k, (f.node c).op.isBarren = false → Ready f mine avail c) :
      Ready f mine avail k

/-- An owner that is ready if it has a value. -/
def Usable (f : Forest) (mine : NodeId → Prop) (avail : VReg → Prop) (k : NodeId) : Prop :=
  f.owner k = k ∧ ((f.node k).op.isBarren = false → f.Ready mine avail k)

variable {f f' : Forest} {k id : NodeId} {mine mine' touched : NodeId → Prop}
  {avail avail' : VReg → Prop} {held : NodeId → VReg → Prop}

theorem Ready.mono (h : f.Ready mine avail k) (hmine : ∀ k, mine k → mine' k)
    (havail : ∀ v, avail v → avail' v) : f.Ready mine' avail' k := by
  induction h with
  | computed hcomputed hkids hslot hv => exact .computed hcomputed hkids hslot (havail _ hv)
  | leaf hcomputed hop hkids => exact .leaf hcomputed hop hkids
  | inner hcomputed hop _ ih => exact .inner hcomputed (hop.imp_right (And.imp_left (hmine _))) ih

theorem Usable.mono (h : f.Usable mine avail k) (hmine : ∀ k, mine k → mine' k)
    (havail : ∀ v, avail v → avail' v) : f.Usable mine' avail' k :=
  ⟨h.1, fun hop ↦ (h.2 hop).mono hmine havail⟩

/-- What is ready stays ready, if instructions are marked, and those that may be emitted get registers
that are available. -/
theorem Ready.progress (h : f.Ready mine avail k) (hprogress : f.Progress mine' touched held f')
    (havail : ∀ v, avail v → avail' v)
    (hheld : ∀ k v, held k v → (∃ o, (f.node k).op = .inst o) ∧ (mine k → avail' v)) :
    f'.Ready mine avail' k := by
  have hskeleton := hprogress.skeleton
  have hmarked : ∀ {k}, (f.node k).computed = false → (f'.node k).computed = true →
      ∃ o v, (f.node k).op = .inst o ∧ (f'.node k).slot = .vreg v ∧ (mine k → avail' v) := by
    intro k hk hk'
    obtain ⟨-, v, hslot, hv⟩ := hprogress.marks k hk hk'
    obtain ⟨⟨o, ho⟩, hv⟩ := hheld k v hv
    exact ⟨o, v, ho, hslot, hv⟩
  induction h with
  | @computed k v hcomputed hkids hslot hv =>
    obtain ⟨hcomputed', hslot'⟩ := hprogress.keeps k hcomputed
    refine .computed hcomputed' (fun hne ↦ ?_) (hslot'.trans hslot) (havail v hv)
    rw [hskeleton.kids]
    exact hkids fun o ho ↦ hne o ((hskeleton.op k).trans ho)
  | @leaf k hcomputed hop hkids =>
    cases hk : (f'.node k).computed with
    | true =>
      obtain ⟨o, _, ho, -⟩ := hmarked hcomputed hk
      rw [ho] at hop
      exact absurd hop Bool.false_ne_true
    | false => exact .leaf hk (by rw [hskeleton.op]; exact hop) ((hskeleton.kids k).trans hkids)
  | @inner k hcomputed hop hkids ih =>
    cases hk : (f'.node k).computed with
    | true =>
      obtain ⟨o, v, ho, hslot, hv⟩ := hmarked hcomputed hk
      have hmine : mine k := (hop.resolve_left fun hargs ↦ by rw [ho] at hargs; cases hargs).1
      exact .computed hk (fun hne ↦ absurd ((hskeleton.op k).trans ho) (hne o)) hslot (hv hmine)
    | false =>
      refine .inner hk (by rw [hskeleton.op]; exact hop) fun c hc hbarren ↦ ?_
      rw [hskeleton.kidOwners] at hc
      rw [hskeleton.op] at hbarren
      exact ih c hc hbarren

/-- The children of a ready node that is not computed are usable. -/
theorem Ready.kids (h : f.Ready mine avail k) (hflat : f.Flat)
    (hcomputed : (f.node k).computed = false) : ∀ c ∈ f.kidOwners k, f.Usable mine avail c := by
  intro c hc
  obtain ⟨j, -, rfl⟩ := List.mem_map.mp hc
  refine ⟨hflat.owner_owner j, fun hbarren ↦ ?_⟩
  cases h with
  | computed hcomputed' => exact absurd (hcomputed.symm.trans hcomputed') Bool.false_ne_true
  | leaf _ _ hkids =>
    rw [kidOwners, hkids] at hc
    exact absurd hc List.not_mem_nil
  | inner _ _ hkids => exact hkids _ hc hbarren

/-- If instructions are not computed, all children of a ready node are usable. -/
theorem Ready.kids_of_inst (h : f.Ready mine avail k) (hflat : f.Flat)
    (hinst : ∀ o, (f.node k).op = .inst o → (f.node k).computed = false) :
    ∀ c ∈ f.kidOwners k, f.Usable mine avail c := by
  cases hcomputed : (f.node k).computed with
  | false => exact h.kids hflat hcomputed
  | true =>
    cases h with
    | computed _ hkids =>
      rw [kidOwners, hkids fun o ho ↦ by simp [hinst o ho] at hcomputed]
      exact fun c hc ↦ absurd hc List.not_mem_nil
    | leaf hnot => exact absurd (hnot.symm.trans hcomputed) Bool.false_ne_true
    | inner hnot => exact absurd (hnot.symm.trans hcomputed) Bool.false_ne_true

end Forest

/-! ## Heads -/

theorem head?_inst {n : Node} {o : Opcode} (h : n.head? = some (.inst o)) :
    n.computed = false ∧ n.op = .inst o := by
  rw [Node.head?] at h
  split at h
  next => exact absurd h (by simp)
  next hcomputed =>
    refine ⟨by simpa using hcomputed, ?_⟩
    split at h <;> simp_all

theorem head?_computed {n : Node} (h : n.computed = true) : n.head? = some .inRegister := by
  rw [Node.head?, if_pos h]

/-! ## Patterns -/

mutual

/-- Patterns below the root of a rule: they match instructions with a value. -/
def Pattern.isInner : Pattern → Bool
  | .nt goal => goal ≠ .stmt
  | .op (.inst o) kids => !(NodeOp.inst o).isBarren && Pattern.areInner kids
  | _ => false

def Pattern.areInner : List Pattern → Bool
  | [] => true
  | p :: ps => p.isInner && Pattern.areInner ps

end

/-- Patterns of rules: no leaf is a statement, and a value in a register has no children. -/
def Pattern.isRegular : Pattern → Bool
  | .nt goal | .variadic _ goal => goal ≠ .stmt
  | .op h kids => (h ≠ .inRegister || kids.isEmpty) && Pattern.areInner kids

theorem Grammar.isRegular : ∀ r ∈ Grammar.rules, r.pattern.isRegular = true := by decide

/-! ## Leaves -/

section TakeLeaves

variable {f₁ f : Forest} {mine mine' touched : NodeId → Prop} {avail : VReg → Prop}
  {held : NodeId → VReg → Prop} {r : Rule} {id : NodeId}

/-- Leaves that can be reduced: usable nodes, none of which is to be a statement. -/
def Forest.Leaves (f : Forest) (mine : NodeId → Prop) (avail : VReg → Prop)
    (leaves : List (NodeId × Nonterminal)) : Prop :=
  ∀ leaf ∈ leaves, leaf.2 ≠ .stmt ∧ f.Usable mine avail leaf.1

theorem Forest.SameSkeleton.progress_releaseKids
    (htouched : ∀ c, f₁.Usable mine avail c → touched c) (hskeleton : f₁.SameSkeleton f)
    (hkids : ∀ c ∈ f₁.kidOwners id, f₁.Usable mine avail c) :
    f.Progress mine' touched held (f.releaseKids id) :=
  f.progress_releaseKids fun c hc ↦ htouched c (hkids c (hskeleton.kidOwners id ▸ hc))

mutual

theorem Pattern.takeLeaves_inner (hflat : f₁.Flat)
    (htouched : ∀ c, f₁.Usable mine avail c → touched c) : ∀ (p : Pattern) (id : NodeId) (f : Forest),
    p.isInner = true → f₁.SameSkeleton f → p.Fits f₁ id → f₁.Usable mine avail id →
      f₁.Leaves mine avail (p.takeLeaves id f).1 ∧
        f.Progress mine' touched held (p.takeLeaves id f).2
  | .nt goal, id, f, hinner, _, _, husable => by
    rw [Pattern.isInner] at hinner
    rw [Pattern.takeLeaves]
    exact ⟨List.forall_mem_singleton.mpr ⟨by simpa using hinner, husable⟩, .refl f⟩
  | .op (.inst o) kids, id, f, hinner, hskeleton, hfits, husable => by
    rw [Pattern.isInner, Bool.and_eq_true] at hinner
    rw [Pattern.Fits] at hfits
    obtain ⟨hhead, hkids⟩ := hfits
    obtain ⟨hcomputed, hop⟩ := head?_inst hhead
    have hready := husable.2 (by rw [hop]; simpa using hinner.1)
    have hkidsUsable := hready.kids hflat hcomputed
    obtain ⟨hleaves, hprogress⟩ := Pattern.takeKidLeaves_inner hflat htouched kids
      (f.kidOwners id) f hinner.2 hskeleton (hskeleton.kidOwners id ▸ (hkids (by simp)).2)
      (hskeleton.kidOwners id ▸ hkidsUsable)
    rw [Pattern.takeLeaves]
    exact ⟨hleaves, hprogress.trans ((hskeleton.trans hprogress.skeleton).progress_releaseKids
      htouched hkidsUsable)⟩
  | .op .imm _, _, _, hinner, _, _, _ | .op .arg _, _, _, hinner, _, _, _
  | .op .label _, _, _, hinner, _, _, _ | .op .dummy _, _, _, hinner, _, _, _
  | .op .args _, _, _, hinner, _, _, _ | .op .phiMove _, _, _, hinner, _, _, _
  | .op .inRegister _, _, _, hinner, _, _, _ | .variadic _ _, _, _, hinner, _, _, _ => by
    simp [Pattern.isInner] at hinner

theorem Pattern.takeKidLeaves_inner (hflat : f₁.Flat)
    (htouched : ∀ c, f₁.Usable mine avail c → touched c) : ∀ (ps : List Pattern) (ids : List NodeId) (f : Forest),
    Pattern.areInner ps = true → f₁.SameSkeleton f → Pattern.FitKids f₁ ps ids →
      (∀ c ∈ ids, f₁.Usable mine avail c) →
      f₁.Leaves mine avail (Pattern.takeKidLeaves ps ids f).1 ∧
        f.Progress mine' touched held (Pattern.takeKidLeaves ps ids f).2
  | [], _, f, _, _, _, _ => by
    simp only [Pattern.takeKidLeaves]
    exact ⟨fun _ hleaf ↦ absurd hleaf List.not_mem_nil, .refl f⟩
  | _ :: _, [], f, _, _, _, _ => by
    simp only [Pattern.takeKidLeaves]
    exact ⟨fun _ hleaf ↦ absurd hleaf List.not_mem_nil, .refl f⟩
  | p :: ps, id :: ids, f, hinner, hskeleton, hfits, husable => by
    rw [Pattern.areInner, Bool.and_eq_true] at hinner
    rw [Pattern.FitKids] at hfits
    obtain ⟨hid, hids⟩ := List.forall_mem_cons.mp husable
    obtain ⟨hleaves, hprogress⟩ :=
      Pattern.takeLeaves_inner hflat htouched p id f hinner.1 hskeleton hfits.1 hid
    obtain ⟨hmore, hprogress'⟩ := Pattern.takeKidLeaves_inner hflat htouched ps ids
      (p.takeLeaves id f).2 hinner.2 (hskeleton.trans hprogress.skeleton) hfits.2 hids
    rw [Pattern.takeKidLeaves]
    exact ⟨fun leaf hleaf ↦ (List.mem_append.mp hleaf).elim (hleaves leaf) (hmore leaf),
      hprogress.trans hprogress'⟩

end

/-- **Leaves are ready.** What a matching rule leaves to be reduced is the node itself or can be
reduced if the children of the node can, and matching gives up references of usable nodes only. -/
theorem Rule.takeLeaves_ready (hflat : f₁.Flat)
    (htouched : ∀ c, f₁.Usable mine avail c → touched c) (hmatches : r.Matches f₁ id) (hskeleton : f₁.SameSkeleton f)
    (hkids : ∀ c ∈ f₁.kidOwners id, f₁.Usable mine avail c)
    (hself : ∀ s, r.pattern = .nt s → f₁.Usable mine avail id) :
    f₁.Leaves mine avail (r.pattern.takeLeaves id f).1 ∧
      f.Progress mine' touched held (r.pattern.takeLeaves id f).2 := by
  have hregular := Grammar.isRegular r hmatches.1
  have hfits := hmatches.2
  cases hp : r.pattern with
  | nt goal =>
    rw [hp, Pattern.isRegular] at hregular
    rw [Pattern.takeLeaves]
    exact ⟨List.forall_mem_singleton.mpr ⟨by simpa using hregular, hself goal hp⟩,
      .refl f⟩
  | op h ps =>
    rw [hp, Pattern.isRegular, Bool.and_eq_true] at hregular
    rw [hp, Pattern.Fits] at hfits
    have hkidLeaves : f₁.Leaves mine avail (Pattern.takeKidLeaves ps (f.kidOwners id) f).1 ∧
        f.Progress mine' touched held (Pattern.takeKidLeaves ps (f.kidOwners id) f).2 := by
      refine Pattern.takeKidLeaves_inner hflat htouched ps _ f hregular.2 hskeleton ?_
        (hskeleton.kidOwners id ▸ hkids)
      by_cases hreg : h = .inRegister
      · obtain rfl : ps = [] := by simpa [hreg] using hregular.1
        rw [Pattern.FitKids]
        · trivial
        · exact fun _ _ _ _ hnil ↦ absurd hnil (by simp)
      · exact hskeleton.kidOwners id ▸ (hfits.2 hreg).2
    rw [Pattern.takeLeaves]
    exact ⟨hkidLeaves.1, hkidLeaves.2.trans
      ((hskeleton.trans hkidLeaves.2.skeleton).progress_releaseKids htouched hkids)⟩
  | variadic h goal =>
    rw [hp, Pattern.isRegular] at hregular
    rw [Pattern.takeLeaves, hskeleton.kidOwners]
    refine ⟨fun leaf hleaf ↦ ?_, hskeleton.progress_releaseKids htouched hkids⟩
    obtain ⟨c, hc, rfl⟩ := List.mem_map.mp hleaf
    exact ⟨by simpa using hregular, hkids c hc⟩

end TakeLeaves

end TreeCover
