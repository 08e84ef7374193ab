import Mathlib.Algebra.BigOperators.Group.List.Basic
import Mathlib.Algebra.GroupWithZero.Nat
import TreeCover.Proofs.Independence.Finishing
import TreeCover.Proofs.Work.Success

/-!
# The functions of a module

A function that is compiled behind others meets a session in which labels were drawn, counts were
made and events were reported. Only the labels matter: its result is that of a session of its own,
with all labels shifted by those that were drawn before. How many labels a function draws does not
depend on the others either, and a function that fails leaves nothing but its labels behind.
Main statement: `compileEach_independent`.
-/

namespace TreeCover

open Ir Machine Work

variable {config : Config} {k : Nat} {s : Session} {f : Func} {fs : List Func}

/-! ## A session of its own -/

/-- What compiling a function gives in a session of its own, with the labels shifted by `k`. -/
def resultAlone (config : Config) (f : Func) (k : Nat) : Except CompileError Compiled :=
  match (compileFunc f).run { config } with
  | .ok c _ => .ok (c.shift k)
  | .error e _ => .error (e.shift k)

/-- How many labels a function draws in a session of its own, whether it fails or not. -/
def labelsAlone (config : Config) (f : Func) : Nat :=
  match (compileFunc f).run { config } with
  | .ok _ s | .error _ s => s.nextLabel

/-- In any session a function has the result of a session of its own, and draws as many labels. -/
theorem compileFunc_alone (f : Func) (s : Session) : ∃ s' : Session,
    s'.config = s.config ∧ s'.nextLabel = s.nextLabel + labelsAlone s.config f ∧
      (compileFunc f).run s = match resultAlone s.config f s.nextLabel with
        | .ok c => .ok c s'
        | .error e => .error e s' := by
  have hfresh : Session.Shifted s.config s.nextLabel { config := s.config } s :=
    ⟨rfl, rfl, (Nat.zero_add _).symm⟩
  have hfollows := follows_compileFunc f _ s hfresh
  unfold FollowsFrom at hfollows
  rw [resultAlone, labelsAlone, EStateM.run, EStateM.run]
  cases hrun : compileFunc f { config := s.config } with
  | ok c t =>
    rw [hrun] at hfollows
    obtain ⟨s', hs', hshifted⟩ := hfollows
    exact ⟨s', hshifted.right, hshifted.nextLabel.trans (Nat.add_comm _ _), hs'⟩
  | error e t =>
    rw [hrun] at hfollows
    obtain ⟨s', hs', hshifted⟩ := hfollows
    exact ⟨s', hshifted.right, hshifted.nextLabel.trans (Nat.add_comm _ _), hs'⟩

/-! ## All functions -/

/-- The results of functions, each in a session of its own; the labels of each are shifted by those
of the functions before it and by the `n` that were drawn before all of them. -/
def resultsAlone (config : Config) (n : Nat) (fs : List Func) :
    List (String × Except CompileError Compiled) :=
  fs.mapIdx fun i f ↦
    (f.name, resultAlone config f (n + ((fs.take i).map (labelsAlone config)).sum))

theorem resultsAlone_cons (n : Nat) : resultsAlone config n (f :: fs) =
    (f.name, resultAlone config f n) :: resultsAlone config (n + labelsAlone config f) fs := by
  rw [resultsAlone, resultsAlone, List.mapIdx_cons]
  simp only [List.take_zero, List.map_nil, List.sum_nil, Nat.add_zero, List.take_succ_cons,
    List.map_cons, List.sum_cons, Nat.add_assoc]

/-- Results, sorted into successes and failures. -/
def Outcome.ofResults (rs : List (String × Except CompileError Compiled)) : Outcome where
  compiled := rs.filterMap fun (_, r) ↦ r.toOption
  failures := rs.filterMap fun (name, r) ↦ match r with
    | .ok _ => none
    | .error e => some (name, e)

/-- What was compiled or failed before stays in front. -/
theorem compileEach_append (o : Outcome) (fs : List Func) (s : Session) :
    (fs.foldl Outcome.step (o, s)).1 =
      { compiled := o.compiled ++
          (Outcome.ofResults (resultsAlone s.config s.nextLabel fs)).compiled
        failures := o.failures ++
          (Outcome.ofResults (resultsAlone s.config s.nextLabel fs)).failures } := by
  induction fs generalizing o s with
  | nil => simp [resultsAlone, Outcome.ofResults]
  | cons f fs ih =>
    obtain ⟨s', hconfig, hnext, hrun⟩ := compileFunc_alone f s
    rw [List.foldl_cons, Outcome.step, hrun, resultsAlone_cons]
    cases resultAlone s.config f s.nextLabel with
    | ok c =>
      rw [ih, hconfig, hnext]
      simp [Outcome.ofResults, Except.toOption]
    | error e =>
      rw [ih]
      simp only [Session.report, hconfig, hnext]
      simp [Outcome.ofResults, Except.toOption]

theorem compileEach_eq (fs : List Func) (s : Session) :
    (compileEach fs s).1 = Outcome.ofResults (resultsAlone s.config s.nextLabel fs) := by
  rw [compileEach, compileEach_append]
  simp only [List.nil_append]

/-! ## Up to the first failure -/

/-- Compiling up to the first failure succeeds if every function does on its own. -/
theorem compileAll_ok_iff {cs : List Compiled} : (∃ s', (compileAll fs).run s = .ok cs s') ↔
    (resultsAlone s.config s.nextLabel fs).map (·.2) = cs.map .ok := by
  induction fs generalizing cs s with
  | nil =>
    constructor
    · rintro ⟨s', h⟩
      obtain ⟨rfl, -⟩ := pure_eq_ok.mp h
      rfl
    · intro h
      obtain rfl := List.map_eq_nil_iff.mp h.symm
      exact ⟨s, rfl⟩
  | cons f fs ih =>
    obtain ⟨t, hconfig, hnext, hrun⟩ := compileFunc_alone f s
    rw [resultsAlone_cons, List.map_cons, ← hnext, ← hconfig]
    rw [← hconfig] at hrun
    constructor
    · rintro ⟨s', h⟩
      obtain ⟨c, t', cs, hc, hcs, rfl⟩ := mapM_cons_eq_ok.mp h
      cases hresult : resultAlone t.config f s.nextLabel with
      | ok c' =>
        rw [hresult] at hrun
        obtain ⟨rfl, rfl⟩ := EStateM.Result.ok.inj (hc.symm.trans hrun)
        rw [List.map_cons, ih.mp ⟨s', hcs⟩]
      | error e =>
        rw [hresult] at hrun
        exact EStateM.Result.noConfusion rfl rfl rfl (heq_of_eq (hc.symm.trans hrun))
    · intro h
      cases cs with
      | nil => exact absurd h (List.cons_ne_nil _ _)
      | cons c cs =>
        rw [List.map_cons] at h
        have hresult : resultAlone t.config f s.nextLabel = .ok c := (List.cons.inj h).1
        obtain ⟨s', hcs⟩ := ih.mpr (List.cons.inj h).2
        rw [hresult] at hrun
        exact ⟨s', mapM_cons_eq_ok.mpr ⟨c, t, cs, hrun, hcs, rfl⟩⟩

theorem Outcome.ofResults_eq_iff {rs : List (String × Except CompileError Compiled)}
    {cs : List Compiled} :
    ofResults rs = { compiled := cs, failures := [] } ↔ rs.map (·.2) = cs.map .ok := by
  rw [ofResults, Outcome.mk.injEq]
  induction rs generalizing cs with
  | nil => cases cs <;> simp
  | cons r rs ih =>
    obtain ⟨name, c | e⟩ := r
    · cases cs <;> simp [Except.toOption]
    · cases cs with
      | nil => simp [Except.toOption]
      | cons c cs => simpa [Except.toOption, and_assoc] using fun _ ↦ ih

/-- **Functions are compiled independently.** Compiling every function gives, for each of them, the
success or the failure of compiling it in a session of its own, with all labels shifted by those
drawn before; each function draws as many labels as on its own, whether it fails or not. Compiling
up to the first failure succeeds exactly if no function fails, with the same list of results. -/
theorem compileEach_independent (fs : List Func) (s : Session) :
    (compileEach fs s).1 = Outcome.ofResults (fs.mapIdx fun i f ↦ (f.name, resultAlone s.config f
      (s.nextLabel + ((fs.take i).map (labelsAlone s.config)).sum))) ∧
    ∀ cs, (∃ s', (compileAll fs).run s = .ok cs s') ↔
      (compileEach fs s).1 = { compiled := cs, failures := [] } := by
  refine ⟨compileEach_eq fs s, fun cs ↦ ?_⟩
  rw [compileEach_eq, Outcome.ofResults_eq_iff, compileAll_ok_iff]

end TreeCover
