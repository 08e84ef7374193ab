import TreeCover.Proofs.Tiling.Branches
import TreeCover.Proofs.Tiling.Chronicle

/-!
# Comparisons with several readers

A branch takes a comparison from the flags if the comparison has no register when the branch is reached. If
the comparison has another reader, it has one by then: a comparison that is read in another block was
emitted where it stands, and all other readers in its block come before the branch. Main statement:
`not_asked_cond`.
-/

namespace TreeCover

open Ir Machine Work

variable {f : Func} {s : Session} {next : InstId} {os : List (Ir.Operand Value)}
  {trees : List (List NodeId)} {g : Forest} {w v t : Workspace} {k p q r c root : NodeId} {id : InstId}
  {home : BlockId} {a : Application} {V : NodeId → Workspace → Prop}
  {goals : List (NodeId × Nonterminal)} {as : List Application} {x : Unit} {leaf : NodeId × Nonterminal}

/-! ## Who asks for a condition -/

namespace Grammar

theorem asks_cond : ∀ r ∈ rules, .cond ∈ r.pattern.goals → r.lhs = .reg ∧ r.pattern.source? = some .cond ∨
    r.lhs = .stmt ∧ r.pattern.head? = some (.inst .br) ∧ r.pattern.flat?.isSome = true := by decide

end Grammar

/-- The leaves of a pattern whose children are leaves are children of its node. -/
theorem Pattern.kid_of_flat {pattern : Pattern} (hp : pattern.flat?.isSome = true)
    (hleaf : leaf ∈ pattern.leaves g k) : leaf.1 ∈ g.kidOwners k := by
  obtain ⟨⟨h, goals⟩, hflat⟩ := Option.isSome_iff_exists.mp hp
  obtain ⟨kids, rfl, hgoals⟩ := Pattern.of_flat hflat
  rw [← Pattern.takeLeaves_fst _ k g (.refl g), Pattern.takeLeaves,
    Pattern.takeKidLeaves_of_source kids goals _ g hgoals] at hleaf
  exact (List.of_mem_zip hleaf).1

/-- A condition is asked for by a chain of rules at the comparison itself, or by a branch that is the root
of its tree, if the comparison was in no register when the root was reached. -/
theorem Application.Follows.of_cond (h : a.Follows w t v r)
    (hleaf : (k, .cond) ∈ a.rule.pattern.leaves w.forest a.node) :
    (k = a.node ∧ a.rule.lhs = .reg ∧ a.rule.pattern.leaves w.forest a.node = [(k, .cond)]) ∨
      (a.node = r ∧ (w.forest.node r).op = .inst .br ∧
      k ∈ w.forest.kidOwners r ∧ (t.forest.node k).computed = false) := by
  obtain ⟨g, ls, hskeleton, hvalues, hls, hrule⟩ := h.labels
  have hmatches := (hls.sound.rule hrule).1
  rw [← Pattern.leaves_of_sameSkeleton _ _ hskeleton,
    ← a.rule.pattern.takeLeaves_fst a.node g (.refl g)] at hleaf ⊢
  rcases Grammar.asks_cond a.rule hmatches.mem (a.rule.pattern.goal_mem a.node g _ hleaf) with
    ⟨hlhs, hsource⟩ | ⟨hlhs, hhead, hflat⟩
  · rw [Pattern.leaves_of_source hsource] at hleaf ⊢
    obtain rfl := (Prod.mk.inj (List.mem_singleton.mp hleaf)).1
    exact Or.inl ⟨rfl, hlhs, rfl⟩
  · have hcovers := hls.leaves a.node _ a.rule hrule g (.refl g) _ hleaf
    rw [a.rule.pattern.takeLeaves_fst a.node g (.refl g)] at hleaf
    have hroot := h.stmt hlhs
    have hkid := Pattern.kid_of_flat hflat hleaf
    have hop := (head?_inst (hmatches.fits.head? hhead)).2
    rw [hroot, hskeleton.kidOwners] at hkid
    rw [hroot, hskeleton.op] at hop
    -- the comparison is labeled for a condition, so it was in no register
    obtain ⟨rule, hrule'⟩ := Option.isSome_iff_exists.mp hcovers
    obtain ⟨hmatches', hcond⟩ := hls.sound.rule hrule'
    have hnew := (head?_inst (hmatches'.fits.head? (Grammar.heads_of_cond rule hmatches'.mem hcond))).1
    exact Or.inr ⟨hroot, hop, hkid, (hvalues k).computed.symm.trans hnew⟩

/-! ## Comparisons -/

/-- **Comparisons.** A branch does not take a comparison from the flags that is read at two or more
positions. -/
theorem not_asked_cond (hbuild : buildForest f (.start f s) = .ok trees w) (hwell : f.WellFormed)
    (hop : (w.forest.node k).op = .inst .icmp) (htwo : 2 ≤ w.forest.positions k)
    (hcomes : Comes trees w root t) (ha : a.Follows w t v root) (hne : a.node ≠ k) :
    (k, .cond) ∉ a.rule.pattern.leaves w.forest a.node := by
  intro hleaf
  obtain ⟨hp, -⟩ := buildForest_planted hbuild
  have hrec := buildForest_recorded hbuild
  obtain ⟨-, hbranch, hkid, hnew⟩ := (ha.of_cond hleaf).resolve_left fun h ↦ hne h.1.symm
  obtain ⟨b, id, i, kids, hi, -, his⟩ := hp.of_inst hop Opcode.noConfusion
  have hresults : w.Results id k := ⟨his.1, ⟨_, hop⟩, his.source⟩
  have hphi : (w.forest.node k).op ≠ .inst .phi := by simp [hop]
  have htarget := hp.target_of_ne_phi hphi
  have howner : w.forest.owner k = k := Forest.owner_of_target htarget
  have hwanted : w.forest.Wanted k :=
    ⟨Or.inr ⟨⟨_, hop⟩, fun ⟨hcall, _⟩ ↦ by simp [hop] at hcall⟩, ⟨_, hop, rfl, Opcode.noConfusion⟩, htarget,
      Nat.lt_of_lt_of_le Nat.zero_lt_two htwo⟩
  -- the comparison came before the branch, and was left to its consumers
  obtain ⟨done, rest, hall, hvisited⟩ := (Visited.kept hp).comes (.start hp hrec) hcomes
  obtain ⟨V, goals, as, hchronicle, hsub, hdone⟩ := comes_chronicle hbuild hcomes
  have hlt := hp.lt_of_root hrec (hp.mem_flatten hop) (howner.symm ▸ hkid)
  obtain ⟨t₀, u, hcomes₀, hemit⟩ := postpones_of_lt hbuild hcomes hwanted hlt hnew
  obtain ⟨_, _, -, hvisited₀⟩ := (Visited.kept hp).comes (.start hp hrec) hcomes₀
  have hescapes := (hvisited₀.mayWait hemit).escapes.resolve_right (by simp [hop])
  have hhome := hp.branch_home hrec hbranch hresults hphi hescapes (Node.block_of_core his.2) hkid
  -- another reader has been served
  obtain ⟨c, hc, hread⟩ := hp.exists_other_reader hbranch ⟨_, hop⟩ htwo
  have hserved : t.forest.Done c :=
    hvisited.done_reader hp hrec hbranch (fun r hr hrp hmem hblock ↦ hvisited.done_before_branch hp hrec
      hbranch hwell hall hhome hkid ⟨_, hop⟩ hr hrp hmem hblock) hresults hphi hescapes
      (Node.block_of_core his.2) hread hc
  have hreleased : (t.forest.node c).kidsReleased = true := by
    refine hserved.resolve_right fun hnil ↦ ?_
    rw [hvisited.skeleton.kids] at hnil
    rw [Forest.kidOwners, hnil] at hread
    exact absurd hread List.not_mem_nil
  obtain ⟨a', ha', hopens⟩ := (hchronicle.history.opens c hreleased).resolve_left (by
    rw [hrec.ledger.holding]
    exact Bool.false_ne_true)
  obtain ⟨goal, hgoal⟩ := (hopens k hread).resolve_right (by simp [hop])
  obtain ⟨r, t', ht', hmakes⟩ := (hchronicle.mem a').mpr ha'
  have hfollows := hchronicle.follows r t' a' ht' hmakes
  by_cases hcond : goal = .cond
  · -- by another branch in the same block, or on the way to a register
    rcases hfollows.of_cond (hcond ▸ hgoal) with ⟨hnode, hlhs, -⟩ | ⟨-, hbranch', hkid', -⟩
    · have hmade : 0 < timesMade as k .reg := timesMade_pos.mpr ⟨a', ha', hnode.symm, hlhs⟩
      have hcount := hchronicle.history.registers k hwanted.value (by simp [hop])
      rw [hnew] at hcount
      exact Nat.ne_of_gt (Nat.lt_of_lt_of_le hmade (Nat.le_add_right _ _)) hcount
    · have hhome' :=
        hp.branch_home hrec hbranch' hresults hphi hescapes (Node.block_of_core his.2) hkid'
      have hearlier := (hp.mem_done_iff hall (hp.mem_flatten hbranch')).mp
        ((hdone done rest hall r).mpr ⟨t', ht'⟩)
      have hlast := hp.le_branch hwell hbranch' hhome' (hp.mem_flatten hbranch) hhome
      exact absurd hearlier (Nat.not_lt.mpr hlast)
  · -- then it got the comparison in a register
    have htakes := hchronicle.history.takes a' ha'
    obtain ⟨bound, hbound⟩ := exists_mem_zip hgoal htakes.length_eq
    rcases (List.forall₂_iff_zip.mp htakes).2 hbound hwanted.value with ⟨x, hcomputed, -⟩ | ⟨-, hinlines⟩
    · exact Bool.false_ne_true (hnew.symm.trans hcomputed)
    · cases goal <;> simp_all [Node.Inlines]

/-- So it is compared no more often than it is reduced to a register. -/
theorem timesMade_cond_le (hbuild : buildForest f (.start f s) = .ok trees w) (hwell : f.WellFormed)
    (hop : (w.forest.node k).op = .inst .icmp) (htwo : 2 ≤ w.forest.positions k)
    (h : Chronicle w (Comes trees w) v goals as) : timesMade as k .cond ≤ timesMade as k .reg := by
  have hasked : timesAsked w.forest as k .cond ≤ timesMade as k .reg := by
    refine timesAsked_le fun a ha hleaf ↦ ?_
    obtain ⟨root, t, hcomes, hmakes⟩ := (h.mem a).mpr ha
    have hfollows := h.follows root t a hcomes hmakes
    rcases hfollows.of_cond hleaf with ⟨hnode, hlhs, hleaves⟩ | ⟨hroot, hbranch, -⟩
    · exact ⟨hnode.symm, hlhs, hleaves⟩
    · refine absurd hleaf (not_asked_cond hbuild hwell hop htwo hcomes hfollows ?_)
      rintro rfl
      rw [← hroot, hop] at hbranch
      exact absurd hbranch (by simp)
  have hgoals : goals.count (k, .cond) = 0 := by
    refine List.count_eq_zero.mpr fun hmem ↦ ?_
    rcases h.goals _ hmem with hreg | ⟨hstmt, -⟩
    · exact Nonterminal.noConfusion hreg
    · exact Nonterminal.noConfusion hstmt
  have hle := h.history.asked k .cond
  omega

end TreeCover
