import Mathlib.Data.List.Forall2
import TreeCover.Workspace

/-!
# Work that succeeds

What is known of a computation that came to a result: each of its steps succeeded, from the state
that the step before left. The lemmas turn the success of a program into the successes of its parts,
so a proof about a program follows its text. A program that fails does so in one of its steps.
-/

namespace TreeCover

namespace Work

variable {ε σ α β : Type} {s s' : σ} {a : α} {b : β}

@[simp]
theorem pure_eq_ok {x : α} :
    (pure x : EStateM ε σ α) s = .ok a s' ↔ a = x ∧ s' = s := by
  simp only [pure, EStateM.pure, EStateM.Result.ok.injEq, eq_comm]

@[simp]
theorem bind_eq_ok {x : EStateM ε σ α} {f : α → EStateM ε σ β} :
    (x >>= f) s = .ok b s' ↔ ∃ a s₁, x s = .ok a s₁ ∧ f a s₁ = .ok b s' := by
  simp only [bind, EStateM.bind]
  cases x s with
  | ok a s₁ =>
    simp only [EStateM.Result.ok.injEq]
    constructor
    · exact fun h ↦ ⟨a, s₁, ⟨rfl, rfl⟩, h⟩
    · rintro ⟨_, _, ⟨rfl, rfl⟩, h⟩
      exact h
  | error e s₁ => simp

@[simp]
theorem map_eq_ok {x : EStateM ε σ α} {f : α → β} :
    (f <$> x) s = .ok b s' ↔ ∃ a, x s = .ok a s' ∧ b = f a := by
  rw [map_eq_pure_bind, bind_eq_ok]
  simp only [pure_eq_ok]
  constructor
  · rintro ⟨a, s₁, hx, rfl, rfl⟩
    exact ⟨a, hx, rfl⟩
  · rintro ⟨a, hx, rfl⟩
    exact ⟨a, s', hx, rfl, rfl⟩

theorem discard_eq_ok {x : EStateM ε σ α} {u : PUnit} :
    discard x s = .ok u s' ↔ ∃ a, x s = .ok a s' := by
  change ((fun _ ↦ PUnit.unit) <$> x) s = .ok u s' ↔ _
  rw [map_eq_ok]
  simp only [and_true]

@[simp]
theorem get_eq_ok {t : σ} : (get : EStateM ε σ σ) s = .ok t s' ↔ t = s ∧ s' = s := by
  change EStateM.Result.ok s s = _ ↔ _
  simp only [EStateM.Result.ok.injEq, eq_comm]

@[simp]
theorem modify_eq_ok {f : σ → σ} {u : PUnit} :
    (modify f : EStateM ε σ PUnit) s = .ok u s' ↔ s' = f s := by
  change EStateM.Result.ok PUnit.unit (f s) = _ ↔ _
  simp only [EStateM.Result.ok.injEq, true_and, eq_comm]

@[simp]
theorem modifyGet_eq_ok {f : σ → α × σ} :
    (modifyGet f : EStateM ε σ α) s = .ok a s' ↔ a = (f s).1 ∧ s' = (f s).2 := by
  change EStateM.Result.ok (f s).1 (f s).2 = _ ↔ _
  simp only [EStateM.Result.ok.injEq, eq_comm]

@[simp]
theorem throw_ne_ok {e : ε} : (throw e : EStateM ε σ α) s ≠ .ok a s' := by
  change EStateM.Result.error e s ≠ _
  exact fun h ↦ by cases h

/-- Whether a run came to an answer and a state of some kind; closed runs are checked with it. -/
def succeeds (p : α → σ → Bool) : EStateM.Result ε σ α → Bool
  | .ok a s => p a s
  | .error .. => false

theorem exists_of_succeeds {p : α → σ → Bool} {x : EStateM ε σ α} (h : succeeds p (x s) = true) :
    ∃ a s', x s = .ok a s' ∧ p a s' = true := by
  cases hx : x s with
  | ok a s' =>
    rw [hx] at h
    exact ⟨a, s', rfl, h⟩
  | error e s' =>
    rw [hx] at h
    exact absurd h Bool.false_ne_true

/-! ## Lists -/

variable {ι : Type} {x : ι} {xs : List ι} {y : α} {ys : List α}

@[simp]
theorem mapM_nil_eq_ok {f : ι → EStateM ε σ α} :
    ([] : List ι).mapM f s = .ok ys s' ↔ ys = [] ∧ s' = s := by
  rw [List.mapM_nil, pure_eq_ok]

@[simp]
theorem mapM_cons_eq_ok {f : ι → EStateM ε σ α} :
    (x :: xs).mapM f s = .ok ys s' ↔
      ∃ y s₁ ys', f x s = .ok y s₁ ∧ xs.mapM f s₁ = .ok ys' s' ∧ ys = y :: ys' := by
  rw [List.mapM_cons, bind_eq_ok]
  simp only [bind_eq_ok, pure_eq_ok]
  constructor
  · rintro ⟨y, s₁, hy, ys', s₂, hys, rfl, rfl⟩
    exact ⟨y, s₁, ys', hy, hys, rfl⟩
  · rintro ⟨y, s₁, ys', hy, hys, rfl⟩
    exact ⟨y, s₁, hy, ys', s', hys, rfl, rfl⟩

theorem mapM_length {f : ι → EStateM ε σ α} (h : xs.mapM f s = .ok ys s') :
    ys.length = xs.length := by
  induction xs generalizing s ys with
  | nil =>
    obtain ⟨rfl, -⟩ := mapM_nil_eq_ok.mp h
    rfl
  | cons x xs ih =>
    obtain ⟨y, s₁, zs, -, hxs, rfl⟩ := mapM_cons_eq_ok.mp h
    exact congrArg Nat.succ (ih hxs)

/-- Each item has a result. -/
theorem mapM_getElem? {f : ι → EStateM ε σ α} {k : Nat} (h : xs.mapM f s = .ok ys s')
    (hx : xs[k]? = some x) : ∃ y t t', ys[k]? = some y ∧ f x t = .ok y t' := by
  induction xs generalizing s ys k with
  | nil => exact absurd hx (by simp)
  | cons x' xs ih =>
    obtain ⟨y, s₁, zs, hy, hxs, rfl⟩ := mapM_cons_eq_ok.mp h
    cases k with
    | zero =>
      obtain rfl := Option.some.inj hx
      exact ⟨y, s, s₁, rfl, hy⟩
    | succ k =>
      obtain ⟨y', t, t', hy', ht⟩ := ih (k := k) hxs hx
      exact ⟨y', t, t', hy', ht⟩

/-- Up to one of the items, and at it. -/
theorem mapM_append_cons_eq_ok {f : ι → EStateM ε σ α} {before after : List ι}
    (h : (before ++ x :: after).mapM f s = .ok ys s') :
    ∃ zs t y t', before.mapM f s = .ok zs t ∧ f x t = .ok y t' := by
  induction before generalizing s ys with
  | nil =>
    obtain ⟨y, t', -, hy, -⟩ := mapM_cons_eq_ok.mp h
    exact ⟨[], s, y, t', rfl, hy⟩
  | cons x' before ih =>
    obtain ⟨y', s₁, ys', hy', hrest, -⟩ := mapM_cons_eq_ok.mp h
    obtain ⟨zs, t, y, t', hbefore, hy⟩ := ih hrest
    exact ⟨y' :: zs, t, y, t', mapM_cons_eq_ok.mpr ⟨y', s₁, zs, hy', hbefore, rfl⟩, hy⟩

theorem forM_induct {f : ι → EStateM ε σ PUnit} {P : σ → Prop} {u : PUnit}
    (h : xs.forM f s = .ok u s') (hs : P s)
    (hstep : ∀ x ∈ xs, ∀ t u t', P t → f x t = .ok u t' → P t') : P s' := by
  induction xs generalizing s with
  | nil =>
    obtain ⟨-, rfl⟩ := pure_eq_ok.mp h
    exact hs
  | cons x xs ih =>
    obtain ⟨u₁, s₁, hx, hxs⟩ := bind_eq_ok.mp h
    exact ih hxs (hstep x List.mem_cons_self s u₁ s₁ hs hx)
      fun y hy ↦ hstep y (List.mem_cons_of_mem x hy)

/-- Working on some items and then on others. -/
theorem forM_append_eq_ok {f : ι → EStateM ε σ PUnit} {ys : List ι} {u : PUnit} :
    (xs ++ ys).forM f s = .ok u s' ↔ ∃ t, xs.forM f s = .ok ⟨⟩ t ∧ ys.forM f t = .ok u s' := by
  induction xs generalizing s with
  | nil =>
    constructor
    · exact fun h ↦ ⟨s, rfl, h⟩
    · rintro ⟨t, hnil, h⟩
      obtain ⟨-, rfl⟩ := pure_eq_ok.mp hnil
      exact h
  | cons x xs ih =>
    constructor
    · intro h
      obtain ⟨y, t, hx, hrest⟩ := bind_eq_ok.mp h
      obtain ⟨t', hxs, hys⟩ := ih.mp hrest
      exact ⟨t', bind_eq_ok.mpr ⟨y, t, hx, hxs⟩, hys⟩
    · rintro ⟨t', hxxs, hys⟩
      obtain ⟨y, t, hx, hxs⟩ := bind_eq_ok.mp hxxs
      exact bind_eq_ok.mpr ⟨y, t, hx, ih.mpr ⟨t', hxs, hys⟩⟩

/-- What is done for an item stays done. -/
theorem forM_done {f : ι → EStateM ε σ PUnit} {P : σ → Prop} {Q : ι → σ → Prop} {u : PUnit}
    (h : xs.forM f s = .ok u s') (hs : P s) (hstep : ∀ x ∈ xs, ∀ t u t', P t → f x t = .ok u t' →
      P t' ∧ Q x t' ∧ ∀ y, Q y t → Q y t') :
    P s' ∧ (∀ x ∈ xs, Q x s') ∧ ∀ y, Q y s → Q y s' := by
  induction xs generalizing s with
  | nil =>
    obtain ⟨-, rfl⟩ := pure_eq_ok.mp h
    exact ⟨hs, fun _ hx ↦ absurd hx List.not_mem_nil, fun _ hy ↦ hy⟩
  | cons x xs ih =>
    obtain ⟨u₁, s₁, hx, hxs⟩ := bind_eq_ok.mp h
    obtain ⟨hs₁, hdone, hkept⟩ := hstep x List.mem_cons_self s u₁ s₁ hs hx
    obtain ⟨hs', hall, hkept'⟩ := ih hxs hs₁ fun y hy ↦ hstep y (List.mem_cons_of_mem x hy)
    exact ⟨hs', List.forall_mem_cons.mpr ⟨hkept' x hdone, hall⟩, fun y hy ↦ hkept' y (hkept y hy)⟩

/-- An invariant that knows how many items have been worked on. -/
theorem forM_induct_idx {f : ι → EStateM ε σ PUnit} {P : Nat → σ → Prop} {u : PUnit}
    (h : xs.forM f s = .ok u s') (hs : P 0 s)
    (hstep : ∀ k x, xs[k]? = some x → ∀ t u t', P k t → f x t = .ok u t' → P (k + 1) t') :
    P xs.length s' := by
  induction xs generalizing s P with
  | nil =>
    obtain ⟨-, rfl⟩ := pure_eq_ok.mp h
    exact hs
  | cons x xs ih =>
    obtain ⟨u₁, s₁, hx, hxs⟩ := bind_eq_ok.mp h
    exact ih (P := fun k ↦ P (k + 1)) hxs (hstep 0 x rfl s u₁ s₁ hs hx)
      fun k y hy ↦ hstep (k + 1) y hy

/-- An invariant about the results so far. -/
theorem mapM_induct {f : ι → EStateM ε σ α} {P : List α → σ → Prop}
    (h : xs.mapM f s = .ok ys s') (hs : P [] s)
    (hstep : ∀ k x, xs[k]? = some x → ∀ ys t y t', ys.length = k → P ys t → f x t = .ok y t' →
      P (ys ++ [y]) t') : P ys s' := by
  induction xs generalizing s ys P with
  | nil =>
    obtain ⟨rfl, rfl⟩ := mapM_nil_eq_ok.mp h
    exact hs
  | cons x xs ih =>
    obtain ⟨y, s₁, zs, hx, hxs, rfl⟩ := mapM_cons_eq_ok.mp h
    refine ih (P := fun zs ↦ P (y :: zs)) hxs (hstep 0 x rfl [] s y s₁ rfl hs hx) ?_
    exact fun k x' hx' zs t z t' hk hzs hz ↦
      hstep (k + 1) x' hx' (y :: zs) t z t' (congrArg Nat.succ hk) hzs hz

/-- An invariant whose step may look at the run that led to it. -/
theorem mapM_induct_run {f : ι → EStateM ε σ α} {P : List α → σ → Prop}
    (h : xs.mapM f s = .ok ys s') (hs : P [] s)
    (hstep : ∀ before x after ys t y t', xs = before ++ x :: after → before.mapM f s = .ok ys t →
      P ys t → f x t = .ok y t' → P (ys ++ [y]) t') : P ys s' := by
  induction xs generalizing s ys P with
  | nil =>
    obtain ⟨rfl, rfl⟩ := mapM_nil_eq_ok.mp h
    exact hs
  | cons x xs ih =>
    obtain ⟨y, s₁, zs, hx, hxs, rfl⟩ := mapM_cons_eq_ok.mp h
    have hfirst := hstep [] x xs [] s y s₁ rfl rfl hs hx
    refine ih (P := fun zs ↦ P (y :: zs)) hxs hfirst fun before x' after zs t z t' heq hrun ↦ ?_
    exact hstep (x :: before) x' after (y :: zs) t z t' (congrArg (x :: ·) heq)
      (mapM_cons_eq_ok.mpr ⟨y, s₁, zs, hx, hrun, rfl⟩)

theorem forM_induct_run {f : ι → EStateM ε σ PUnit} {P : List ι → σ → Prop} {u : PUnit}
    (h : xs.forM f s = .ok u s') (hs : P [] s)
    (hstep : ∀ before x after t u t', xs = before ++ x :: after → before.forM f s = .ok ⟨⟩ t →
      P before t → f x t = .ok u t' → P (before ++ [x]) t') : P xs s' := by
  induction xs generalizing s P with
  | nil =>
    obtain ⟨-, rfl⟩ := pure_eq_ok.mp h
    exact hs
  | cons x xs ih =>
    obtain ⟨u₁, s₁, hx, hxs⟩ := bind_eq_ok.mp h
    have hfirst := hstep [] x xs s u₁ s₁ rfl rfl hs hx
    refine ih (P := fun zs ↦ P (x :: zs)) hxs hfirst fun before x' after t u t' heq hrun ↦ ?_
    exact hstep (x :: before) x' after t u t' (congrArg (x :: ·) heq)
      (bind_eq_ok.mpr ⟨u₁, s₁, hx, hrun⟩)

/-- An invariant, and what it says of each item and its result. -/
theorem mapM_relates {f : ι → EStateM ε σ α} {P : σ → Prop} {R : ι → α → Prop}
    (h : xs.mapM f s = .ok ys s') (hs : P s)
    (hstep : ∀ x ∈ xs, ∀ t y t', P t → f x t = .ok y t' → P t' ∧ R x y) :
    P s' ∧ List.Forall₂ R xs ys := by
  induction xs generalizing s ys with
  | nil =>
    obtain ⟨rfl, rfl⟩ := mapM_nil_eq_ok.mp h
    exact ⟨hs, .nil⟩
  | cons x xs ih =>
    obtain ⟨y, s₁, zs, hx, hxs, rfl⟩ := mapM_cons_eq_ok.mp h
    obtain ⟨hs₁, hy⟩ := hstep x List.mem_cons_self s y s₁ hs hx
    obtain ⟨hs', hzs⟩ := ih hxs hs₁ fun x hx ↦ hstep x (List.mem_cons_of_mem _ hx)
    exact ⟨hs', .cons hy hzs⟩

/-! ## Failure -/

theorem pure_ne_error {x : α} {e : ε} : (pure x : EStateM ε σ α) s ≠ .error e s' := by
  simp [pure, EStateM.pure]

/-- A sequence fails in its first part or in its second. -/
theorem bind_eq_error {x : EStateM ε σ α} {f : α → EStateM ε σ β} {e : ε} :
    (x >>= f) s = .error e s' ↔ x s = .error e s' ∨ ∃ a s₁, x s = .ok a s₁ ∧ f a s₁ = .error e s' := by
  simp only [bind, EStateM.bind]
  cases x s with
  | ok a s₁ => simp
  | error e' s₁ => simp

/-- Work on a list that fails does so at one of its elements. -/
theorem mapM_eq_error {ι : Type} {f : ι → EStateM ε σ α} {e : ε} {xs : List ι}
    (h : xs.mapM f s = .error e s') : ∃ before x after ys t,
      xs = before ++ x :: after ∧ before.mapM f s = .ok ys t ∧ f x t = .error e s' := by
  induction xs generalizing s with
  | nil => exact absurd h pure_ne_error
  | cons x xs ih =>
    rw [List.mapM_cons] at h
    rcases bind_eq_error.mp h with hx | ⟨y, s₁, hx, h⟩
    · exact ⟨[], x, xs, [], s, rfl, rfl, hx⟩
    · rcases bind_eq_error.mp h with hxs | ⟨_, _, -, h⟩
      · obtain ⟨before, x', after, ys, t, rfl, hbefore, hx'⟩ := ih hxs
        exact ⟨x :: before, x', after, y :: ys, t, rfl,
          mapM_cons_eq_ok.mpr ⟨y, s₁, ys, hx, hbefore, rfl⟩, hx'⟩
      · exact absurd h pure_ne_error

theorem forM_eq_error {ι : Type} {f : ι → EStateM ε σ PUnit} {e : ε} {xs : List ι}
    (h : xs.forM f s = .error e s') : ∃ before x after t,
      xs = before ++ x :: after ∧ before.forM f s = .ok () t ∧ f x t = .error e s' := by
  induction xs generalizing s with
  | nil => exact absurd h pure_ne_error
  | cons x xs ih =>
    rcases bind_eq_error.mp h with hx | ⟨_, s₁, hx, hxs⟩
    · exact ⟨[], x, xs, s, rfl, rfl, hx⟩
    · obtain ⟨before, x', after, t, rfl, hbefore, hx'⟩ := ih hxs
      exact ⟨x :: before, x', after, t, rfl, bind_eq_ok.mpr ⟨_, s₁, hx, hbefore⟩, hx'⟩

/-! ## Looking at the state -/

theorem get_bind (p : σ → EStateM ε σ α) (s : σ) : (get >>= p) s = p s s := rfl

theorem node_bind (id : NodeId) (p : Node → Work α) (w : Workspace) :
    (node id >>= p) w = p (w.forest.node id) w := rfl

theorem modifySession_bind (f : Session → Session) (p : PUnit → Work α) (w : Workspace) :
    (modifySession f >>= p) w = p ⟨⟩ { w with session := f w.session } := rfl

end Work

end TreeCover
