import TreeCover.Proofs.Tiling.Branches
import TreeCover.Proofs.Tiling.Chronicle

/-!
# Work that hands nothing to phis

Selection hands an operand to a phi in one place only, at the end of the reduction of a copy into the
phi. Copies are nobody's children, so no other reduction does, and neither does the visit of a root that
is no copy. Main statement: `selectTree_keepsPhis`.
-/

namespace TreeCover

open Ir Machine Work

variable {f : Func} {trees : List (List NodeId)} {next : InstId} {os : List (Ir.Operand Value)}
  {g g' g'' : Forest} {w v v' u u' : Workspace} {a : Application} {fuel : Nat} {id k root : NodeId}
  {nt goal : Nonterminal} {result : Bound} {s : BlockId} {z : Unit}

/-! ## Inputs -/

/-- An operand that block `pred` hands to the phi of block `succ` with the register `dst`. -/
structure PhiInput where
  pred : Nat
  succ : Nat
  dst : VReg
  operand : Machine.Operand

/-- The phi, in block `s`, with those inputs in addition that are handed to it. -/
def Machine.Phi.taking (s : Nat) (inputs : List PhiInput) (phi : Phi) : Phi :=
  { phi with incoming := phi.incoming ++
      (inputs.filter fun e ↦ e.succ = s ∧ e.dst = phi.dst).map fun e ↦ (e.operand, e.pred) }

@[simp] theorem Machine.Phi.dst_taking (s : Nat) (inputs : List PhiInput) (phi : Phi) :
    (phi.taking s inputs).dst = phi.dst := rfl

theorem Machine.Phi.taking_nil (s : Nat) (phi : Phi) : phi.taking s [] = phi := by
  rw [taking, List.filter_nil, List.map_nil, List.append_nil]

/-- One more input goes to the phi that has its register. -/
theorem Machine.Phi.taking_concat (s : Nat) (inputs : List PhiInput) (e : PhiInput) (phi : Phi) :
    phi.taking s (inputs ++ [e]) = if e.succ = s ∧ e.dst = phi.dst then
      { phi.taking s inputs with incoming := (phi.taking s inputs).incoming ++ [(e.operand, e.pred)] }
    else phi.taking s inputs := by
  rw [taking, List.filter_append, List.map_append]
  split
  next h => rw [List.filter_singleton, decide_eq_true h, cond_true, ← List.append_assoc]; rfl
  next h =>
    rw [List.filter_singleton, decide_eq_false h, cond_false, List.map_nil, List.append_nil]
    rfl

/-- If the registers of phis are distinct, an input goes to the one with its register. -/
theorem Machine.Code.addInput_eq_map {dst : VReg} {input : Machine.Operand × Nat} {phis : List Phi}
    (h : (phis.map (·.dst)).Nodup) : addInput dst input phis =
      phis.map fun phi ↦ if phi.dst = dst then { phi with incoming := phi.incoming ++ [input] }
        else phi := by
  induction phis with
  | nil => rfl
  | cons phi phis ih =>
    obtain ⟨hnew, hrest⟩ := List.nodup_cons.mp h
    rw [addInput, List.map_cons]
    split
    next hdst =>
      congr 1
      refine (List.map_id' phis).symm.trans (List.map_congr_left fun phi' hphi' ↦ ?_)
      rw [if_neg]
      rintro hdst'
      exact hnew (List.mem_map.mpr ⟨phi', hphi', hdst'.trans hdst.symm⟩)
    next => rw [ih hrest]

/-! ## What the forest holds -/

/-- Only instructions change what they hold. -/
structure Forest.HoldsOn (g g' : Forest) : Prop where
  skeleton : g.SameSkeleton g'
  held : ∀ k, (∀ o, (g.node k).op ≠ .inst o) →
    (g'.node k).computed = (g.node k).computed ∧ (g'.node k).slot = (g.node k).slot

namespace Forest.HoldsOn

theorem refl (g : Forest) : g.HoldsOn g := ⟨.refl g, fun _ _ ↦ ⟨rfl, rfl⟩⟩

theorem trans (h : g.HoldsOn g') (h' : g'.HoldsOn g'') : g.HoldsOn g'' where
  skeleton := h.skeleton.trans h'.skeleton
  held k hk := by
    obtain ⟨hcomputed, hslot⟩ := h.held k hk
    obtain ⟨hcomputed', hslot'⟩ := h'.held k fun o ho ↦ hk o ((h.skeleton.op k).symm.trans ho)
    exact ⟨hcomputed'.trans hcomputed, hslot'.trans hslot⟩

theorem of_sameValues (hskeleton : g.SameSkeleton g') (hvalues : g.SameValues g') : g.HoldsOn g' :=
  ⟨hskeleton, fun k _ ↦ ⟨(hvalues k).computed, (hvalues k).slot⟩⟩

theorem update {h : Node → Node} (hskeleton : g.SameSkeleton (g.update k h)) {o : Opcode}
    (hop : (g.node k).op = .inst o) : g.HoldsOn (g.update k h) := by
  refine ⟨hskeleton, fun p hp ↦ ?_⟩
  rcases g.node_update_cases k p h with ⟨rfl, -⟩ | hnode
  · exact absurd hop (hp o)
  · rw [hnode]
    exact ⟨rfl, rfl⟩

end Forest.HoldsOn

/-! ## Work that hands nothing on -/

/-- From `w` to `v` no phi is handed an input. -/
structure KeepsPhis (w v : Workspace) : Prop where
  forest : w.forest.HoldsOn v.forest
  phis : ∀ s, phisAt v.code.blocks s = phisAt w.code.blocks s

namespace KeepsPhis

theorem refl (w : Workspace) : KeepsPhis w w := ⟨.refl _, fun _ ↦ rfl⟩

theorem trans (h : KeepsPhis w v) (h' : KeepsPhis v u) : KeepsPhis w u :=
  ⟨h.forest.trans h'.forest, fun s ↦ (h'.phis s).trans (h.phis s)⟩

theorem of_code (hforest : w.forest.HoldsOn v.forest) (hcode : v.code = w.code) : KeepsPhis w v :=
  ⟨hforest, fun s ↦ by rw [hcode]⟩

theorem took (w : Workspace) (r : Rule) (k : NodeId) (nt : Nonterminal) :
    KeepsPhis w (w.took r k nt) :=
  .of_code (.of_sameValues (r.pattern.sameSkeleton_takeLeaves k w.forest)
    (w.forest.sameValues_takeLeaves r.pattern k)) rfl

/-- The one application that hands something on is that of a rule for a copy. -/
theorem apply (hphi : a.rule.action ≠ .phiInput) : KeepsPhis a.before a.after := by
  obtain ⟨is, -, hemits, hforest⟩ := applyRule_expands a.runs hphi
  exact ⟨.of_sameValues (Forest.sameSkeleton_roles hforest) hforest.sameValues, hemits.phisAt⟩

theorem settle (h : Work.settle k nt result w = .ok result v) : KeepsPhis w v := by
  obtain ⟨-, rfl | ⟨x, o, -, -, hop, rfl⟩⟩ := settle_eq_ok h
  · exact .refl v
  · exact .of_code (.update (w.forest.sameSkeleton_update k fun _ ↦ rfl) hop) rfl

theorem starts (h : Starts root goal v u) : KeepsPhis v u := by
  obtain ⟨hskeleton, hvalues, -⟩ := h.sameValues
  obtain ⟨labels, session, rfl⟩ := h.state
  exact .of_code (.of_sameValues hskeleton hvalues) rfl

end KeepsPhis

/-- Nodes that are no aliases and no copies into phis. -/
def Forest.Plain (g : Forest) (k : NodeId) : Prop := g.owner k = k ∧ (g.node k).op ≠ .phiMove

theorem keptByReduction_plain (g : Forest) : KeptByReduction g g.Plain fun _ _ ↦ True :=
  ⟨fun _ ↦ trivial, fun _ _ _ _ _ ↦ trivial, fun _ _ _ _ ↦ trivial, fun _ _ _ ↦ trivial,
    fun _ _ _ _ _ _ ↦ trivial⟩

/-- Their rules are not for copies. -/
theorem Application.Ends.action_ne (h : a.Ends fuel id nt w) (hw : Reduces g g.Plain id w) :
    a.rule.action ≠ .phiInput := by
  intro haction
  obtain ⟨hmatches, -⟩ := hw.labels.rule h.rule
  have hhead := hmatches.fits.head? (Grammar.head?_phiInput a.rule hmatches.mem haction)
  rw [h.node, hw.skeleton.owner] at hhead
  exact hw.mem.2 (head?_phiMove hhead).2

section

variable (hclosed : g.ClosedUnderKids g.Plain)
include hclosed

/-- One leaf after the other. -/
theorem reduceLeaves_keepsPhis {leaves : List (NodeId × Nonterminal)} {kids : List Bound}
    (ih : ∀ {id nt w result v}, Reduces g g.Plain id w → reduceFrom fuel id nt w = .ok result v →
      KeepsPhis w v)
    (hlabels : w.labels.Sound g) (hskeleton : g.SameSkeleton w.forest)
    (hleaves : ∀ leaf ∈ leaves, g.Plain leaf.1)
    (h : leaves.mapM (reduceLeaf fuel) w = .ok kids v) : KeepsPhis w v := by
  have hall := mapM_induct (P := fun _ t ↦ KeepsPhis w t ∧ t.labels = w.labels) h
    ⟨.refl w, rfl⟩ fun n leaf hn _ t b t' _ ⟨ht, hsame⟩ hleaf ↦ ?_
  · exact hall.1
  · have hmem := hleaves leaf (List.mem_of_getElem? hn)
    have hreduces : Reduces g g.Plain leaf.1 t :=
      ⟨hsame ▸ hlabels, hskeleton.trans ht.forest.skeleton, hmem.1.symm ▸ hmem⟩
    obtain ⟨-, hsame', -⟩ := (keptByReduction_plain g).reduceFrom hclosed (fun _ hk ↦ hk.1) hreduces hleaf
    exact ⟨ht.trans (ih hreduces hleaf), hsame'.trans hsame⟩

/-- **Reductions.** The reduction of anything but a copy hands nothing to phis. -/
theorem reduceFrom_keepsPhis (hw : Reduces g g.Plain id w)
    (h : reduceFrom fuel id nt w = .ok result v) : KeepsPhis w v := by
  induction fuel generalizing id nt w result v with
  | zero => exact absurd h failCovering_ne_ok
  | succ fuel ih =>
    rcases reduceFrom_eq_ok h with ⟨-, rfl⟩ | ⟨a, hends, rfl, hsettle⟩
    · exact .refl v
    · have hmem : g.Plain a.node := hends.node ▸ (hw.skeleton.owner id).symm ▸ hw.mem
      have hleaves := reduceLeaves_keepsPhis hclosed ih (w := w.took a.rule a.node nt) hw.labels
        (hw.skeleton.trans (a.rule.pattern.sameSkeleton_takeLeaves a.node w.forest))
        (a.rule.pattern.takeLeaves_mem hclosed a.node w.forest hw.skeleton hmem) hends.kids
      exact (((KeepsPhis.took w a.rule a.node nt).trans hleaves).trans
        (.apply (hends.action_ne hw))).trans (.settle hsettle)

end

/-! ## The block of a visit -/

theorem applyRule_current {rule : Rule} {kids : List Bound}
    (h : applyRule rule id kids w = .ok result v) : v.code.current = w.code.current := by
  by_cases hphi : rule.action = .phiInput
  · obtain ⟨_, _, _, _, -, -, -, -, rfl⟩ := applyRule_phiInput hphi h
    rfl
  · obtain ⟨_, -, hemits, -⟩ := applyRule_expands h hphi
    exact hemits.current

theorem reduceFrom_current (h : reduceFrom fuel id nt w = .ok result v) :
    v.code.current = w.code.current := by
  induction fuel generalizing id nt w result v with
  | zero => exact absurd h failCovering_ne_ok
  | succ fuel ih =>
    rcases reduceFrom_owner_cases h with
      ⟨-, rfl⟩ | ⟨r, kids, w₁, w₂, -, -, hkids, happly, hmark⟩
    · rfl
    · have hleaves := mapM_induct (P := fun _ t ↦ t.code.current = w.code.current) hkids rfl
        fun _ leaf _ _ t b' t' _ ht hleaf ↦ (ih hleaf).trans ht
      have hrule := (applyRule_current happly).trans hleaves
      rcases hmark with ⟨_, _, -, -, -, hmark⟩ | ⟨-, rfl⟩
      · obtain rfl := modify_eq_ok.mp hmark
        exact hrule
      · exact hrule

namespace Work

theorem reduce_eq : reduce root goal u =
    reduceFrom ((u.forest.size + 1) * (Nonterminal.all.length + 1)) root goal u := rfl

/-- A visit stays in its block. -/
theorem selectTree_current (h : selectTree root v = .ok z v') : v'.code.current = v.code.current := by
  rcases selectTree_eq_ok h with ⟨-, hcode, -⟩ | ⟨goal, u, b, u', hstarts, hrun, hcode, -⟩
  · rw [hcode]
  · obtain ⟨labels, session, hu⟩ := hstarts.state
    rw [reduce_eq] at hrun
    rw [hcode, reduceFrom_current hrun, hu]

/-- When selection comes to a root, it has turned to the block of the root. -/
theorem Comes.current (h : Comes trees w root v) :
    ∃ roots, trees[v.code.current]? = some roots ∧ root ∈ roots := by
  obtain ⟨blocks, done, later, rest, v₁, rfl, -, hdone⟩ := h
  have hcurrent : v.code.current = blocks.length :=
    forM_induct (P := fun t ↦ t.code.current = blocks.length) hdone rfl
      fun _ _ _ _ _ ht hvisit ↦ (selectTree_current hvisit).trans ht
  exact ⟨done ++ root :: later, by simp [hcurrent], by simp⟩

end Work

/-! ## Visits -/

section

variable (hp : Planted f trees w) (hrec : w.Recorded next os trees.flatten)
include hp hrec

/-- Children are no copies into phis. -/
theorem Planted.plain_kid (hskeleton : w.forest.SameSkeleton g) {p c : NodeId}
    (hc : c ∈ g.kidOwners p) : g.Plain c := by
  refine ⟨?_, fun hop ↦ ?_⟩
  · obtain ⟨j, -, rfl⟩ := List.mem_map.mp hc
    exact (hskeleton.flat hp.building.flat).owner_owner j
  · exact hp.not_kid_phiMove hrec ((hskeleton.op c).symm.trans hop) p (hskeleton.kidOwners p ▸ hc)

/-- The visit of a root that is no copy hands nothing to phis. -/
theorem selectTree_keepsPhis (hskeleton : w.forest.SameSkeleton v.forest)
    (hop : (w.forest.node root).op ≠ .phiMove) (h : selectTree root v = .ok z v') :
    KeepsPhis v v' := by
  rcases selectTree_eq_ok h with
    ⟨-, hcode, ⟨-, hforest⟩ | ⟨v₁, hemit, hforest⟩⟩ | ⟨goal, u, b, u', hstarts, hrun, hcode, hforest⟩
  · exact .of_code (hforest ▸ .refl _) hcode
  · obtain ⟨rfl, -⟩ := shouldEmit_ok hemit
    refine .of_code (hforest ▸ .of_sameValues ?_ (v.forest.sameValues_refreshLevel root)) hcode
    exact (v.forest.settles_refreshLevel root).skeleton
  · have hu : KeepsPhis v u := .starts hstarts
    obtain ⟨htarget, -, hsound⟩ := hstarts.labels
    have hskeleton' := hskeleton.trans hu.forest.skeleton
    have howner : u.forest.owner root = root :=
      Forest.owner_of_target ((hu.forest.skeleton.target root).trans htarget)
    have hreduces : Reduces u.forest u.forest.Plain root u :=
      ⟨hsound, .refl _, by
        rw [howner]
        exact ⟨howner, fun hmove ↦ hop ((hskeleton'.op root).symm.trans hmove)⟩⟩
    have hu' := reduceFrom_keepsPhis (fun p _ c hc ↦ hp.plain_kid hrec hskeleton' hc) hreduces hrun
    exact (hu.trans hu').trans (.of_code (hforest ▸ .refl _) hcode)

end

end TreeCover
