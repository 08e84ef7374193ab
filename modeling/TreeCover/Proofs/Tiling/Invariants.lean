import TreeCover.Compile
import TreeCover.Proofs.Tiling.Expansion
import TreeCover.Proofs.Tiling.ReduceStep
import TreeCover.Proofs.Work.Keeping

/-!
# What selection keeps

Selection changes the code of a function in two ways only: it turns to the next block, and it carries
out the actions of rules. So a property of the code that both of these keep holds of all selected
code. Among these properties is that only allocas have slots in the frame.
-/

namespace TreeCover

open Ir Machine Work

/-- A property of code that selection keeps, step by step. -/
structure KeptBySelection (P : Code → Prop) : Prop where
  action : ∀ r ∈ Grammar.rules, ∀ id kids w b w', P w.code → applyRule r id kids w = .ok b w' →
    P w'.code
  block : ∀ c b label, P c → P (c.beginBlock b label)

namespace KeptBySelection

variable {P : Code → Prop} {w w' : Workspace} {fuel : Nat} {id r : NodeId} {nt : Nonterminal}
  {b : Bound} {u : Unit} {roots : List NodeId} {trees : List (List NodeId)}

theorem labels_applyRule {rule : Rule} {kids : List Bound} (h : applyRule rule id kids w = .ok b w') :
    w'.labels = w.labels := by
  by_cases hphi : rule.action = .phiInput
  · obtain ⟨_, _, _, _, -, -, -, -, rfl⟩ := applyRule_phiInput hphi h
    rfl
  · obtain ⟨_, -, hemits, -⟩ := applyRule_expands h hphi
    exact hemits.labels

section

variable (hP : KeptBySelection P)
include hP

/-- A reduction keeps the property, and the labels that it follows. -/
theorem reduceFrom {f : Forest} (hlabels : w.labels.Sound f) (hw : P w.code)
    (h : Work.reduceFrom fuel id nt w = .ok b w') : P w'.code ∧ w'.labels = w.labels := by
  induction fuel generalizing id nt w b w' with
  | zero => exact absurd h failCovering_ne_ok
  | succ fuel ih =>
    rcases reduceFrom_owner_cases h with
      ⟨-, rfl⟩ | ⟨rule, kids, w₁, w₂, -, hrule, hkids, happly, hmark⟩
    · exact ⟨hw, rfl⟩
    · obtain ⟨hmatches, -⟩ := hlabels.rule hrule
      have hkids : P w₁.code ∧ w₁.labels = w.labels := by
        refine mapM_induct (P := fun _ t ↦ P t.code ∧ t.labels = w.labels) hkids ⟨hw, rfl⟩
          fun _ leaf _ _ t b' t' _ ht hleaf ↦ ?_
        obtain ⟨hcode, hkept⟩ := ih (ht.2 ▸ hlabels) ht.1 hleaf
        exact ⟨hcode, hkept.trans ht.2⟩
      have haction := hP.action rule hmatches.1 _ _ _ _ _ hkids.1 happly
      have hkept := (labels_applyRule happly).trans hkids.2
      rcases hmark with ⟨_, _, -, -, -, hmark⟩ | ⟨-, rfl⟩
      · obtain rfl := modify_eq_ok.mp hmark
        exact ⟨haction, hkept⟩
      · exact ⟨haction, hkept⟩

theorem selectTree (hw : P w.code) (h : Work.selectTree r w = .ok u w') : P w'.code := by
  rcases selectTree_ok h with ⟨-, rfl⟩ | ⟨-, e, w₁, he, hemit⟩
  · exact hw
  · obtain ⟨rfl, -⟩ := shouldEmit_ok he
    rcases hemit with ⟨-, hemit⟩ | ⟨-, _, rfl⟩
    · obtain ⟨fuel, labels, session, b, w₁, hsound, hreduce, hcode, -⟩ := selectRoot_ok hemit
      rw [hcode]
      exact (hP.reduceFrom (w := { w with forest := _, labels, session }) hsound hw hreduce).1
    · exact hw

/-- **Invariants of the code.** What selection keeps step by step holds of all that it selects. -/
theorem selectAll (hw : P w.code) (h : Work.selectAll trees w = .ok u w') : P w'.code := by
  refine forM_induct (P := fun w ↦ P w.code) h hw fun x _ t u t' ht hstep ↦ ?_
  simp only [modifyCode, bind_eq_ok, get_eq_ok, modify_eq_ok] at hstep
  obtain ⟨_, _, ⟨rfl, rfl⟩, _, _, rfl, hblock⟩ := hstep
  exact forM_induct (P := fun w ↦ P w.code) hblock (hP.block _ _ _ ht) fun _ _ _ _ _ ↦ hP.selectTree

end

end KeptBySelection

/-! ## Settings and notes -/

section Notes

variable {w w' : Workspace} {fuel : Nat} {id root : NodeId} {nt : Nonterminal} {b : Bound}

theorem applyRule_notes {r : Rule} {kids : List Bound} (h : applyRule r id kids w = .ok b w') :
    w'.session.config = w.session.config ∧ w'.materialized = w.materialized := by
  by_cases hphi : r.action = .phiInput
  · obtain ⟨_, _, _, _, -, -, -, -, rfl⟩ := applyRule_phiInput hphi h
    exact ⟨rfl, rfl⟩
  · obtain ⟨_, -, hemits, -⟩ := applyRule_expands h hphi
    exact ⟨hemits.config, hemits.materialized⟩

/-- A reduction does not change the configuration, and does not count as a tree. -/
theorem reduceFrom_notes (h : reduceFrom fuel id nt w = .ok b w') :
    w'.session.config = w.session.config ∧ w'.materialized = w.materialized := by
  induction fuel generalizing id nt w b w' with
  | zero => exact absurd h failCovering_ne_ok
  | succ fuel ih =>
    rcases reduceFrom_owner_cases h with
      ⟨-, rfl⟩ | ⟨r, kids, w₁, w₂, -, -, hkids, happly, hmark⟩
    · exact ⟨rfl, rfl⟩
    · have hleaves := mapM_induct (P := fun _ t ↦ t.session.config = w.session.config ∧
        t.materialized = w.materialized) hkids ⟨rfl, rfl⟩ fun _ leaf _ _ t b' t' _ ht hleaf ↦
          ⟨(ih hleaf).1.trans ht.1, (ih hleaf).2.trans ht.2⟩
      obtain ⟨hconfig, hnotes⟩ := applyRule_notes happly
      rcases hmark with ⟨_, _, -, -, -, hmark⟩ | ⟨-, rfl⟩
      · obtain rfl := modify_eq_ok.mp hmark
        exact ⟨hconfig.trans hleaves.1, hnotes.trans hleaves.2⟩
      · exact ⟨hconfig.trans hleaves.1, hnotes.trans hleaves.2⟩

theorem reduce_notes (h : reduce root nt w = .ok b w') :
    w'.session.config = w.session.config ∧ w'.materialized = w.materialized := by
  obtain ⟨_, _, hget, hreduce⟩ := bind_eq_ok.mp h
  obtain ⟨rfl, rfl⟩ := get_eq_ok.mp hget
  exact reduceFrom_notes hreduce

theorem config_reportAll (s : Session) (es : List Event) : (s.reportAll es).config = s.config :=
  List.foldlRecOn (motive := fun t : Session ↦ t.config = s.config) es Session.report rfl
    fun _ h _ _ ↦ h

variable {c : Config}

theorem keeps_config_label (root : NodeId) : Keeps (·.session.config = c) (label root) := by
  refine .get_bind fun w ↦ ?_
  have hlabels : ∀ ls : Labels, Keeps (·.session.config = c) (modify fun w ↦
      { w with labels := ls, session := w.session.reportAll (labelEvents ls) } : Work Unit) :=
    fun ls ↦ .modify fun w h ↦ (config_reportAll _ _).trans h
  cases (labelTree w.forest root).run [] with
  | ok _ ls => exact hlabels ls
  | error n ls => exact .bind (hlabels ls) fun _ ↦ fun _ _ _ _ h ↦ absurd h failCovering_ne_ok

/-- Selection works with the configuration it was given. -/
theorem keeps_config_selectTree (root : NodeId) : Keeps (·.session.config = c) (selectTree root) := by
  have hnode : ∀ id, Keeps (·.session.config = c) (node id) := fun _ ↦ .get_bind fun _ ↦ .pure _
  have hreport : ∀ e, Keeps (·.session.config = c) (report e) := fun _ ↦ .modify fun _ h ↦ h
  refine .bind (hnode root) fun n ↦ ?_
  split
  · exact .pure _
  refine .bind (.bind (.modifyGet fun _ h ↦ h) fun _ ↦ .get_bind fun _ ↦ .pure _) fun emits ↦ ?_
  cases emits with
  | false => exact .get_bind fun _ ↦ hreport _
  | true =>
    refine .get_bind fun w ↦ .bind (keeps_config_label root) fun _ ↦ .get_bind fun v ↦ ?_
    refine .unless_bind (p := fun _ ↦ _) (fun _ _ _ _ h ↦ absurd h failCovering_ne_ok) ?_
    refine .when_bind (p := fun _ ↦ _) (hreport _) ?_
    refine .bind (fun w b w' hw h ↦ (reduce_notes h).1.trans hw) fun _ ↦ ?_
    refine .bind (.modify fun _ h ↦ h) fun _ ↦ .bind (hnode root) fun n ↦ ?_
    cases n.source with
    | none => exact .pure _
    | some inst => exact .modify fun _ h ↦ h

end Notes

/-! ## The frame -/

/-- Only allocas ask selection for room in the frame. -/
theorem keptBySelection_extends (f : Frame) : KeptBySelection fun c ↦ f.Extends c.frame where
  action r _ id kids w b w' hw h := by
    by_cases hphi : r.action = .phiInput
    · obtain ⟨_, _, _, _, -, -, -, -, rfl⟩ := applyRule_phiInput hphi h
      exact hw
    · obtain ⟨_, -, hemits, -⟩ := applyRule_expands h hphi
      exact hw.trans hemits.frame
  block _ _ _ h := h

end TreeCover
