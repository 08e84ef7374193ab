import TreeCover.Proofs.Independence.Shift

/-!
# Two runs side by side

`Follows S E g x y` compares two pieces of work that are run from related states: `y` succeeds when
`x` does, with the image of its result under `g`, and fails when `x` does, with the image of its
error under `E`; the states that they leave behind are related again. The relation goes through
every combinator, so that whole passes are compared by comparing their steps.
-/

namespace TreeCover

variable {ε σ α β γ : Type} {S : σ → σ → Prop} {E : ε → ε} {g : α → α} {h : β → β}
  {x y : EStateM ε σ α}

/-- From states `s` and `t`, `y` does what `x` does. -/
def FollowsFrom (S : σ → σ → Prop) (E : ε → ε) (g : α → α) (x y : EStateM ε σ α) (s t : σ) : Prop :=
  match x s with
  | .ok a s' => ∃ t', y t = .ok (g a) t' ∧ S s' t'
  | .error e s' => ∃ t', y t = .error (E e) t' ∧ S s' t'

/-- From related states, `y` does what `x` does. -/
def Follows (S : σ → σ → Prop) (E : ε → ε) (g : α → α) (x y : EStateM ε σ α) : Prop :=
  ∀ s t, S s t → FollowsFrom S E g x y s t

namespace Follows

theorem pure {a b : α} (hb : b = g a) : Follows S E g (pure a) (pure b) := by
  intro s t hst
  exact ⟨t, by rw [hb]; rfl, hst⟩

theorem throw {e e' : ε} (he : e' = E e) : Follows S E g (throw e) (throw e') := by
  intro s t hst
  exact ⟨t, by rw [he]; rfl, hst⟩

/-- Work that goes on with what came before. -/
theorem bind {p q : α → EStateM ε σ β} (hxy : Follows S E g x y)
    (hpq : ∀ a, Follows S E h (p a) (q (g a))) : Follows S E h (x >>= p) (y >>= q) := by
  intro s t hst
  have hfirst := hxy s t hst
  unfold FollowsFrom at hfirst ⊢
  change match EStateM.bind x p s with | .ok a s' => _ | .error e s' => _
  rw [EStateM.bind]
  cases hx : x s with
  | ok a s' =>
    rw [hx] at hfirst
    obtain ⟨t', hy, hst'⟩ := hfirst
    have hrun : (y >>= q) t = q (g a) t' := by
      change EStateM.bind y q t = _
      rw [EStateM.bind, hy]
    rw [hrun]
    exact hpq a s' t' hst'
  | error e s' =>
    rw [hx] at hfirst
    obtain ⟨t', hy, hst'⟩ := hfirst
    refine ⟨t', ?_, hst'⟩
    change EStateM.bind y q t = _
    rw [EStateM.bind, hy]

/-- Work that reads the state: what it does next is compared for the two states that are read. -/
theorem get_bind {p q : σ → EStateM ε σ β} (hpq : ∀ s t, S s t → Follows S E h (p s) (q t)) :
    Follows S E h (get >>= p) (get >>= q) :=
  fun s t hst ↦ hpq s t hst s t hst

theorem modify {p q : σ → σ} (hpq : ∀ s t, S s t → S (p s) (q t)) :
    Follows S E id (modify p) (modify q) :=
  fun s t hst ↦ ⟨q t, rfl, hpq s t hst⟩

theorem modifyGet {p q : σ → α × σ} (hresult : ∀ s t, S s t → (q t).1 = g (p s).1)
    (hstate : ∀ s t, S s t → S (p s).2 (q t).2) :
    Follows S E g (modifyGet p) (modifyGet q) := by
  intro s t hst
  refine ⟨(q t).2, ?_, hstate s t hst⟩
  rw [← hresult s t hst]
  rfl

/-- Work that may start with something more. -/
theorem when_bind {c : Prop} [Decidable c] {x y : EStateM ε σ PUnit} {p q : PUnit → EStateM ε σ β}
    (hxy : Follows S E id x y) (hpq : Follows S E h (p ()) (q ())) :
    Follows S E h (if c then x >>= p else p ()) (if c then y >>= q else q ()) := by
  split
  · exact bind hxy fun _ ↦ hpq
  · exact hpq

theorem unless_bind {c : Prop} [Decidable c] {x y : EStateM ε σ PUnit} {p q : PUnit → EStateM ε σ β}
    (hxy : Follows S E id x y) (hpq : Follows S E h (p ()) (q ())) :
    Follows S E h (if c then p () else x >>= p) (if c then q () else y >>= q) := by
  split
  · exact hpq
  · exact bind hxy fun _ ↦ hpq

/-- A result that nothing looks at. -/
theorem discard (hxy : Follows S E g x y) : Follows S E id (discard x) (discard y) := by
  refine bind (x := x) (y := y) hxy fun _ ↦ pure rfl

/-! ## Lists -/

variable {p q : α → EStateM ε σ β}

theorem mapM (xs : List α) (hpq : ∀ a, Follows S E h (p a) (q (g a))) :
    Follows S E (List.map h) (xs.mapM p) ((xs.map g).mapM q) := by
  induction xs with
  | nil => exact pure rfl
  | cons a xs ih =>
    rw [List.map_cons, List.mapM_cons, List.mapM_cons]
    refine bind (hpq a) fun b ↦ bind ih fun bs ↦ pure rfl

theorem forM {p q : α → EStateM ε σ PUnit} (xs : List α)
    (hpq : ∀ a, Follows S E id (p a) (q (g a))) :
      Follows S E id (xs.forM p) ((xs.map g).forM q) := by
  induction xs with
  | nil => exact pure rfl
  | cons a xs ih =>
    rw [List.map_cons]
    exact bind (hpq a) fun _ ↦ ih

theorem foldlM {p q : β → α → EStateM ε σ β} (xs : List α)
    (hpq : ∀ b a, Follows S E h (p b a) (q (h b) (g a))) (b : β) :
    Follows S E h (xs.foldlM p b) ((xs.map g).foldlM q (h b)) := by
  induction xs generalizing b with
  | nil => exact pure rfl
  | cons a xs ih =>
    rw [List.map_cons, List.foldlM_cons, List.foldlM_cons]
    exact bind (hpq b a) fun c ↦ ih c

/-! ## The same data on both sides -/

theorem mapM_same {p q : α → EStateM ε σ β} (xs : List α) (hpq : ∀ a, Follows S E h (p a) (q a)) :
    Follows S E (List.map h) (xs.mapM p) (xs.mapM q) := by
  simpa using mapM (g := id) xs hpq

theorem forM_same {p q : α → EStateM ε σ PUnit} (xs : List α)
    (hpq : ∀ a, Follows S E id (p a) (q a)) : Follows S E id (xs.forM p) (xs.forM q) := by
  simpa using forM (g := id) xs hpq

end Follows

/-- From related states, `x` and `y` do the same. -/
abbrev Alike (S : σ → σ → Prop) (E : ε → ε) (x y : EStateM ε σ α) : Prop := Follows S E id x y

namespace Alike

theorem mapM {p q : α → EStateM ε σ β} (xs : List α) (hpq : ∀ a, Alike S E (p a) (q a)) :
    Alike S E (xs.mapM p) (xs.mapM q) := by
  have hmap : List.map id = (id : List β → List β) := List.map_id_fun
  have hxs := Follows.mapM_same xs hpq
  rwa [hmap] at hxs

theorem foldlM {p q : β → α → EStateM ε σ β} (xs : List α)
    (hpq : ∀ b a, Alike S E (p b a) (q b a)) (b : β) :
    Alike S E (xs.foldlM p b) (xs.foldlM q b) := by
  have hxs : Alike S E (xs.foldlM p b) ((xs.map id).foldlM q b) := Follows.foldlM xs hpq b
  rwa [List.map_id] at hxs

end Alike

end TreeCover
