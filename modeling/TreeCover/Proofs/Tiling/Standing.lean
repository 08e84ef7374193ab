import TreeCover.Proofs.Covering.Forests
import TreeCover.Proofs.Forest.Accesses
import TreeCover.Proofs.Forest.Heights
import TreeCover.Proofs.Forest.Steps
import TreeCover.Proofs.Ir.Dominance
import TreeCover.Proofs.Tiling.Conservation

/-!
# Trees that are emitted where they stand

Whether a root is emitted where it stands or left to its consumers is decided when it is reached, from
what the forest has become by then. In terms of the function: the references that are left are the
operands that read the value, the mark says that one of them is in another block, and the height is
that of what is not computed yet. Main statement: `standing_roots`.
-/

namespace TreeCover

open Ir Machine Work

variable {f : Func} {s : Session} {trees : List (List NodeId)} {g : Forest} {w v v' : Workspace}
  {root q : NodeId} {u : Unit} {e : Bool} {o : Opcode} {id : InstId} {height reads threshold : Nat}

/-! ## What the function says -/

namespace Ir

/-- The operands of an instruction of block `b`, each with the block in which it is read. A phi reads
an operand at the end of the block that it arrives from. -/
def Operation.readings (op : Operation Value BlockId) (b : BlockId) : List (Operand Value × BlockId) :=
  match op with
  | .phi incoming => incoming
  | op => op.operands.map fun o ↦ (o, b)

/-- The result of an instruction is read in another block than its own. -/
def Func.ReadElsewhere (f : Func) (id : InstId) : Prop :=
  ∃ b reader i c, (reader, i) ∈ f.blockInsts b ∧
    (.value (.inst id), c) ∈ i.operation.readings b ∧ f.blockOf? id ≠ some c

theorem Operand.isResult_iff {o : Operand Value} : o.isResult id = true ↔ o = .value (.inst id) := by
  cases o with
  | value v => cases v <;> simp [isResult]
  | _ => simp [isResult]

theorem usesOutside_iff {home : Option BlockId} {b : BlockId} {i : ResolvedInst} :
    usesOutside id home b i = true ↔
      ∃ c, (.value (.inst id), c) ∈ i.operation.readings b ∧ home ≠ some c := by
  rw [usesOutside]
  cases hop : i.operation with
  | phi incoming =>
    simp only [Operation.readings, List.any_eq_true, Bool.and_eq_true, decide_eq_true_eq,
      Operand.isResult_iff, Prod.exists]
    constructor
    · rintro ⟨_, c, hmem, rfl, hne⟩
      exact ⟨c, hmem, hne⟩
    · rintro ⟨c, hmem, hne⟩
      exact ⟨_, c, hmem, rfl, hne⟩
  | _ =>
    simp only [Operation.readings, Operation.operands, List.any_eq_true, List.mem_map,
      List.mem_filterMap, Prod.mk.injEq]
    constructor
    · rintro ⟨p, hp, hread⟩
      cases p with
      | operand o =>
        obtain ⟨ho, hne⟩ := Bool.and_eq_true_iff.mp hread
        exact ⟨b, ⟨_, ⟨_, hp, congrArg some (Operand.isResult_iff.mp ho)⟩, rfl, rfl⟩,
          of_decide_eq_true hne⟩
      | block b => exact absurd hread Bool.false_ne_true
    · rintro ⟨_, ⟨_, ⟨p, hp, hoperand⟩, rfl, rfl⟩, hne⟩
      cases p with
      | operand o =>
        obtain rfl := Option.some.inj hoperand
        exact ⟨_, hp, Bool.and_eq_true_iff.mpr ⟨Operand.isResult_iff.mpr rfl, decide_eq_true hne⟩⟩
      | block b => exact absurd hoperand (by simp [Place.operand?])

theorem Func.escapes_iff : f.escapes id = true ↔ f.ReadElsewhere id := by
  constructor
  · intro h
    obtain ⟨⟨block, b⟩, hblock, h⟩ := List.any_eq_true.mp h
    obtain ⟨i, hi, h⟩ := List.any_eq_true.mp h
    obtain ⟨c, hread, hne⟩ := usesOutside_iff.mp h
    obtain ⟨k, hk⟩ := List.getElem?_of_mem hi
    exact ⟨b, f.firstInst b + k, i, c, mem_blockInsts.mpr
      ⟨block, k, List.mem_zipIdx_iff_getElem?.mp hblock, hk, rfl⟩, hread, hne⟩
  · rintro ⟨b, reader, i, c, hi, hread, hne⟩
    exact escapes_of_usesOutside hi (usesOutside_iff.mpr ⟨c, hread, hne⟩)

/-- How many operands read the value of a node: those that read the result of its instruction. -/
def Func.readsOf (f : Func) (n : Node) : Nat :=
  match n.op, n.source with
  | .inst _, some id => f.reads id
  | _, _ => 0

end Ir

/-- A read was logged after a write. Accesses are logged latest first. -/
def Node.ReadLate (n : Node) : Prop :=
  ∃ later earlier, n.accesses = later ++ .read :: earlier ∧ .write ∈ earlier

theorem Node.readsAfterWrite_iff {n : Node} : n.readsAfterWrite = true ↔ n.ReadLate := by
  constructor
  · intro h
    have hmem := List.contains_iff_mem.mp h
    cases hrest : n.accesses.dropWhile (· ≠ .read) with
    | nil =>
      rw [hrest] at hmem
      exact absurd hmem List.not_mem_nil
    | cons a earlier =>
      have ha : a = .read := by
        have hhead := List.head?_dropWhile_not (· ≠ Access.read) n.accesses
        rw [hrest] at hhead
        simpa using hhead
      subst ha
      rw [hrest] at hmem
      refine ⟨n.accesses.takeWhile (· ≠ .read), earlier, ?_,
        (List.mem_cons.mp hmem).resolve_left Access.noConfusion⟩
      rw [← hrest, List.takeWhile_append_dropWhile]
  · rintro ⟨later, earlier, haccesses, hwrite⟩
    exact readsAfterWrite_of_suffix ⟨later, haccesses.symm⟩ hwrite

/-- **The fold law.** Why a root of the forest `g` of `f` is emitted where it stands, if its height is
`height`: nobody reads its value, or it would be large to repeat, it has an effect, its value is read
in another block, or a part of it that is pending reads memory after a write. -/
inductive Stands (f : Func) (threshold : Nat) (g : Forest) (root : NodeId) (height : Nat) : Prop
  | unread (hreads : f.readsOf (g.node root) = 0)
  | large (hlarge : threshold < min (2 ^ 32 - 1) (height * f.readsOf (g.node root)))
  | effect (hop : (g.node root).op = .inst .store ∨ (g.node root).op = .inst .call)
  | elsewhere {o : Opcode} {id : InstId} (hop : (g.node root).op = .inst o) (halloca : o ≠ .alloca)
      (hsource : (g.node root).source = some id) (hread : f.ReadElsewhere id)
  | late {q : NodeId} (hbelow : g.HangsBelow root q) (hread : (g.node q).ReadLate)

/-! ## What the forest says -/

theorem Forest.isFlowDependent_iff : g.isFlowDependent root = true ↔
    ∃ q, g.HangsBelow (g.owner root) q ∧ (g.node q).ReadLate := by
  rw [isFlowDependent, List.any_eq_true]
  exact exists_congr fun q ↦ and_congr mem_pending_iff Node.readsAfterWrite_iff

/-- Bringing heights up to date changes nothing about what hangs below a node. -/
theorem Forest.hangsBelow_refreshLevel (g : Forest) (r : NodeId) {k q : NodeId} :
    (g.refreshLevel r).2.HangsBelow k q ↔ g.HangsBelow k q := by
  have hskeleton := (g.settles_refreshLevel r).skeleton
  have hcomputed : ∀ k, ((g.refreshLevel r).2.node k).computed = (g.node k).computed :=
    g.kept_refreshLevel (h := Node.computed) (fun _ _ ↦ rfl) r
  exact ⟨hskeleton.below fun k hk ↦ (hcomputed k).trans hk,
    hskeleton.symm.below fun k hk ↦ (hcomputed k).symm.trans hk⟩

/-- The decision about a root. -/
theorem shouldEmit_eq (root : NodeId) (v : Workspace) :
    shouldEmit root v = .ok
      ((v.forest.refreshLevel root).2.refs root = 0
        || v.session.config.threshold < min
          ((v.forest.refreshLevel root).1 * (v.forest.refreshLevel root).2.refs root) infinite
        || ((v.forest.refreshLevel root).2.node root).hasSideEffect
        || (((v.forest.refreshLevel root).2.node root).escapes &&
          ((v.forest.refreshLevel root).2.node root).opcode? ≠ some .alloca)
        || (v.forest.refreshLevel root).2.isFlowDependent root)
      { v with forest := (v.forest.refreshLevel root).2 } := rfl

/-- It can be told from the forest as it is. -/
theorem shouldEmit_run (root : NodeId) (v : Workspace) :
    ∃ e, shouldEmit root v = .ok e { v with forest := (v.forest.refreshLevel root).2 } ∧
      (e = true ↔ v.forest.refs root = 0 ∨
        v.session.config.threshold <
          min ((v.forest.refreshLevel root).1 * v.forest.refs root) infinite ∨
        (v.forest.node root).hasSideEffect = true ∨
        ((v.forest.node root).escapes = true ∧ (v.forest.node root).opcode? ≠ some .alloca) ∨
        ∃ q, v.forest.HangsBelow (v.forest.owner root) q ∧ (v.forest.node q).ReadLate) := by
  refine ⟨_, shouldEmit_eq root v, ?_⟩
  have hop := v.forest.kept_refreshLevel (h := Node.op) (fun _ _ ↦ rfl) root root
  have hescapes := v.forest.kept_refreshLevel (h := Node.escapes) (fun _ _ ↦ rfl) root root
  have hbooks := v.forest.sameBooks_refreshLevel root
  have hrefs : (v.forest.refreshLevel root).2.refs root = v.forest.refs root := by
    rw [Forest.refs, hbooks.owner, hbooks.refs, Forest.refs]
  have hlate : (v.forest.refreshLevel root).2.isFlowDependent root = true ↔
      ∃ q, v.forest.HangsBelow (v.forest.owner root) q ∧ (v.forest.node q).ReadLate := by
    rw [Forest.isFlowDependent_iff, hbooks.owner]
    refine exists_congr fun q ↦ and_congr (v.forest.hangsBelow_refreshLevel root) ?_
    rw [Node.ReadLate, v.forest.kept_refreshLevel (h := Node.accesses) (fun _ _ ↦ rfl) root q,
      Node.ReadLate]
  simp only [Bool.or_eq_true, Bool.and_eq_true, decide_eq_true_eq, hlate, hrefs, or_assoc,
    Node.hasSideEffect, Node.opcode?, hop, hescapes]

/-! ## Roots -/

/-- What is known of a root when it is reached. -/
structure Reached (f : Func) (v : Workspace) (root : NodeId) : Prop where
  target : (v.forest.node root).target = none
  descents : ∀ n, v.forest.Descent root n → n ≤ v.forest.size + 1
  source : ∃ id, (v.forest.node root).source = some id
  reads : v.forest.refs root = f.readsOf (v.forest.node root)
  elsewhere : ∀ o id, (v.forest.node root).op = .inst o → (v.forest.node root).source = some id →
    ((v.forest.node root).escapes = true ↔ f.ReadElsewhere id)

theorem Reached.owner (hr : Reached f v root) : v.forest.owner root = root :=
  Forest.owner_of_target hr.target

/-- Selection leaves the skeleton of the forest alone, and what was left to the consumers of a root
is still there when the root is reached. -/
theorem reached_of_comes (h : buildForest f (.start f s) = .ok trees w)
    (hcomes : Comes trees w root v) (hphi : (v.forest.node root).op ≠ .inst .phi) :
    Reached f v root := by
  obtain ⟨hp, -⟩ := buildForest_planted h
  have hrec := buildForest_recorded h
  obtain ⟨done, later, hall, hvisited⟩ := (Visited.kept hp).comes (.start hp hrec) hcomes
  have hskeleton := hvisited.skeleton
  obtain ⟨hlt, hop⟩ := hp.root (r := root) (by simp [hall])
  have hbuilt := hp.building.nodes root hlt
  have htarget : (v.forest.node root).target = none := by
    rw [hskeleton.target]
    cases ht : (w.forest.node root).target with
    | none => rfl
    | some t =>
      obtain ⟨_, _, _, his, -⟩ := hp.of_alias ht
      exact absurd ((hskeleton.op root).trans his.op) hphi
  have howner : v.forest.owner root = root := Forest.owner_of_target htarget
  have hfalls := hp.falling hskeleton
  have hdescents : ∀ n, v.forest.Descent root n → n ≤ v.forest.size + 1 := fun n hn ↦
    hn.le_size (fun p hp c hc ↦ ⟨hfalls.closed p hp c hc, hfalls.falls p hp c hc⟩) howner
  rcases hop with hmove | ⟨o, ho⟩
  · -- a copy into a phi, which nobody reads
    obtain ⟨_, _, id, _, _, _, _, -, -, -, his, -, -⟩ := hbuilt.shape.of_phiMove hmove
    have hop := (hskeleton.op root).trans hmove
    refine ⟨htarget, hdescents, ⟨id, (hskeleton.source root).trans his.source⟩, ?_, fun o _ ho ↦
      absurd (hop.symm.trans ho) NodeOp.noConfusion⟩
    rw [hvisited.refs_root hp hrec hall, howner, hskeleton.positions, ← hrec.ledger.held,
      ← hrec.ledger.conserved, hbuilt.moves hmove, Func.readsOf, hop]
  · obtain ⟨id, hsource, -⟩ := hrec.insts root hlt o ho
    have hop := (hskeleton.op root).trans ho
    have hsource' := (hskeleton.source root).trans hsource
    refine ⟨htarget, hdescents, ⟨id, hsource'⟩, ?_, fun o' id' ho' hid' ↦ ?_⟩
    · rw [hvisited.refs_result hp hrec hall hop hsource', Func.readsOf, hop, hsource']
      rfl
    · obtain rfl := Option.some.inj (hsource'.symm.trans hid')
      rw [hskeleton.escapes, ← Func.escapes_iff]
      constructor
      · intro hmarked
        obtain ⟨id', hid', hescapes⟩ := marksOnly_buildForest h root hmarked
        rwa [Option.some.inj (hsource.symm.trans hid')]
      · exact hbuilt.escapes id ⟨hlt, ⟨o, ho⟩, hsource⟩
          fun hphi' ↦ hphi ((hskeleton.op root).trans hphi')

/-- The decision about a root follows the law. -/
theorem Reached.shouldEmit (hr : Reached f v root) (hconfig : v.session.config.threshold = threshold) :
    ∃ e, Work.shouldEmit root v = .ok e { v with forest := (v.forest.refreshLevel root).2 } ∧
      (e = true ↔ Stands f threshold v.forest root (v.forest.refreshLevel root).1) := by
  obtain ⟨e, hrun, hiff⟩ := shouldEmit_run root v
  refine ⟨e, hrun, hiff.trans ?_⟩
  rw [hr.reads, hr.owner, hconfig, Nat.min_comm]
  constructor
  · rintro (hunread | hlarge | heffect | ⟨hescapes, halloca⟩ | ⟨q, hq, hlate⟩)
    · exact .unread hunread
    · exact .large hlarge
    · refine .effect ?_
      rw [Node.hasSideEffect, Node.opcode?] at heffect
      split at heffect
      next o ho =>
        rw [ho]
        cases o <;> simp_all [Opcode.writesMemory]
      next => exact absurd heffect (by simp)
    · cases ho : (v.forest.node root).op with
      | inst o =>
        obtain ⟨id, hsource⟩ := hr.source
        refine .elsewhere ho (fun heq ↦ halloca ?_) hsource ((hr.elsewhere o id ho hsource).mp hescapes)
        rw [Node.opcode?, ho, heq]
      | _ => exact .unread (by rw [Func.readsOf, ho])
    · exact .late hq hlate
  · rintro (hunread | hlarge | hop | ⟨ho, halloca, hsource, hread⟩ | ⟨hq, hlate⟩)
    · exact Or.inl hunread
    · exact Or.inr (Or.inl hlarge)
    · refine Or.inr (Or.inr (Or.inl ?_))
      rcases hop with hop | hop <;>
        simp [Node.hasSideEffect, Node.opcode?, hop, Opcode.writesMemory]
    · refine Or.inr (Or.inr (Or.inr (Or.inl ⟨(hr.elsewhere _ _ ho hsource).mpr hread, ?_⟩)))
      rw [Node.opcode?, ho]
      exact fun heq ↦ halloca (Option.some.inj heq)
    · exact Or.inr (Or.inr (Or.inr (Or.inr ⟨_, hq, hlate⟩)))

/-- Emitting a tree is noted, with the instruction of its root. -/
theorem selectRoot_notes (h : selectRoot root w = .ok u v') : ∃ reg : Option VReg,
    v'.materialized = w.materialized ++ ((v'.forest.node root).source.map (⟨·, reg⟩)).toList := by
  rw [selectRoot, get_bind] at h
  obtain ⟨_, w₁, hlabel, h⟩ := bind_eq_ok.mp h
  obtain ⟨labels, session, -, -, rfl⟩ := label_ok hlabel
  rw [get_bind] at h
  split at h
  next =>
    split at h
    next =>
      obtain ⟨_, _, hreport, h⟩ := bind_eq_ok.mp h
      obtain rfl := modify_eq_ok.mp hreport
      obtain ⟨b, w₁, hreduce, rfl⟩ := reduceRoot_ok h
      exact ⟨_, congrArg (· ++ _) (reduce_notes hreduce).2⟩
    next =>
      obtain ⟨b, w₁, hreduce, rfl⟩ := reduceRoot_ok h
      exact ⟨_, congrArg (· ++ _) (reduce_notes hreduce).2⟩
  next =>
    obtain ⟨_, _, hfail, -⟩ := bind_eq_ok.mp h
    exact absurd hfail failCovering_ne_ok

/-- **The fold law decides.** A root that is no phi and is not computed when it is reached has a
height; if the law says so its tree is emitted where it stands, with one note of it, and else it is
left alone: nothing changes but the heights in the forest and the log. -/
theorem standing_roots (h : buildForest f (.start f s) = .ok trees w) (hcomes : Comes trees w root v)
    (hphi : (v.forest.node root).op ≠ .inst .phi) (hnew : (v.forest.node root).computed = false) :
    ∃ height, v.forest.IsHeight root height ∧
      (Stands f s.config.threshold v.forest root height →
        selectTree root v = selectRoot root { v with forest := (v.forest.refreshLevel root).2 } ∧
        ∀ v', selectTree root v = .ok () v' → ∃ id reg,
          (v.forest.node root).source = some id ∧ v'.materialized = v.materialized ++ [⟨id, reg⟩]) ∧
      (¬ Stands f s.config.threshold v.forest root height →
        selectTree root v = .ok () { v with
          forest := (v.forest.refreshLevel root).2
          session := v.session.report (.left v.code.name root) }) := by
  have hr := reached_of_comes h hcomes hphi
  obtain ⟨hp, -⟩ := buildForest_planted h
  obtain ⟨done, later, hall, hvisited⟩ :=
    (Visited.kept hp).comes (.start hp (buildForest_recorded h)) hcomes
  have hconfig : v.session.config.threshold = s.config.threshold := by
    have hkept : KeptByVisits trees.flatten fun _ v ↦ v.session.config = s.config :=
      ⟨fun _ _ _ _ h ↦ h, fun _ r v v' _ hv hx ↦ keeps_config_selectTree r v () v' hv hx⟩
    obtain ⟨-, -, -, hsame⟩ := hkept.comes (config_buildForest h) hcomes
    rw [hsame]
  obtain ⟨e, hrun, hlaw⟩ := hr.shouldEmit hconfig
  have hvisit : selectTree root v = (if e = true then selectRoot root
      else get >>= fun w ↦ report (.left w.code.name root) : Work Unit)
        { v with forest := (v.forest.refreshLevel root).2 } := by
    rw [selectTree, node_bind, if_neg (by rw [hnew]; simp [hr.target])]
    exact bind_of_ok hrun
  have hheight : v.forest.IsHeight (v.forest.owner root) (v.forest.refreshLevel root).1 :=
    Forest.isHeight_refreshLevel (hr.owner.symm ▸ hr.descents)
  rw [hr.owner] at hheight
  refine ⟨_, hheight, fun hstands ↦ ?_, fun hnot ↦ ?_⟩
  · rw [if_pos (hlaw.mpr hstands)] at hvisit
    refine ⟨hvisit, fun v' hv' ↦ ?_⟩
    obtain ⟨id, hsource⟩ := hr.source
    obtain ⟨reg, hnotes⟩ := selectRoot_notes (hvisit.symm.trans hv')
    have hsame := (hvisited.selectTree hp hv').skeleton.source root
    rw [← hvisited.skeleton.source, hsource] at hsame
    rw [hsame] at hnotes
    exact ⟨id, reg, hsource, hnotes⟩
  · rw [hvisit, if_neg (mt hlaw.mp hnot)]
    rfl

/-- Reads a sum three times. -/
def thrice : Func where
  name := "thrice"
  ret := .int 64
  params := [⟨"a", .int 64⟩]
  blocks := [⟨"entry", [⟨some "x", .int 64, .binary .add (.value (.arg 0)) (.int 1 64)⟩,
    ⟨some "y", .int 64, .binary .mul (.value (.inst 0)) (.value (.inst 0))⟩,
    ⟨some "z", .int 64, .binary .add (.value (.inst 1)) (.value (.inst 0))⟩,
    ⟨none, .int 64, .ret (some (.value (.inst 2)))⟩]⟩]

/-- The sum stands above its operands and is read three times, which is more than the threshold. -/
theorem thrice_standing : ∃ trees w root v, buildForest thrice (.start thrice {}) = .ok trees w ∧
    Comes trees w root v ∧ (v.forest.node root).op = .inst (.binary .add) ∧
      selectTree root v = selectRoot root { v with forest := (v.forest.refreshLevel root).2 } := by
  have hcheck : succeeds (fun trees w ↦ (trees.head?.bind List.head?).any fun r ↦
      decide ((w.forest.node r).op = .inst (.binary .add) ∧ (w.forest.node r).computed = false ∧
        thrice.readsOf (w.forest.node r) = 3 ∧ w.forest.kidOwners r ≠ []))
      (buildForest thrice (.start thrice {})) = true := by decide +kernel
  obtain ⟨trees, w, hbuild, hfirst⟩ := exists_of_succeeds hcheck
  obtain ⟨r, hr, hr'⟩ := Option.any_eq_true _ _ |>.mp hfirst
  obtain ⟨hop, hnew, hreads, hkids⟩ := of_decide_eq_true hr'
  obtain ⟨roots, hroots, hr⟩ := Option.bind_eq_some_iff.mp hr
  obtain ⟨rest, rfl⟩ := List.head?_eq_some_iff.mp hroots
  obtain ⟨later, rfl⟩ := List.head?_eq_some_iff.mp hr
  have hcomes : Comes ((r :: later) :: rest) w r
      { w with code := w.code.beginBlock 0 (blockLabel? w 0) } :=
    ⟨[], [], later, rest, w, rfl, rfl, rfl⟩
  refine ⟨_, w, r, _, hbuild, hcomes, hop, ?_⟩
  obtain ⟨height, hheight, hstands, -⟩ := standing_roots hbuild hcomes
    (fun hphi ↦ by rw [hop] at hphi; exact absurd hphi (by decide)) hnew
  obtain ⟨c, hc⟩ := List.exists_mem_of_ne_nil _ hkids
  have htwo : 2 ≤ height := hheight.2 (Forest.Descent.step hnew hc (.here c))
  refine (hstands (.large ?_)).1
  rw [hreads]
  change 5 < _
  omega

end TreeCover
