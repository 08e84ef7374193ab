import TreeCover.Proofs.Lists
import TreeCover.Proofs.Work.Success

/-!
# What work keeps and how it ends

`Keeps P x` says that `P` holds of the state behind `x` if it held before and `x` succeeded. It goes
through every combinator, so that a whole pass keeps what its steps keep.

`Answers P x fault? Q` says how `x` ends, from any state in which `P` holds: with the fault, if there is
one, and otherwise with an answer, in a state in which `Q` holds. Of two faults in a row the first one
counts, and work on a list ends with the first fault of an item.
-/

namespace TreeCover

open Work

variable {ε σ α β : Type} {P : σ → Prop} {x : EStateM ε σ α} {p : α → EStateM ε σ β} {s s₁ : σ}

/-! ## Work whose outcome is known -/

theorem Work.bind_of_ok {a : α} (h : x s = .ok a s₁) : (x >>= p) s = p a s₁ := by
  simp only [bind, EStateM.bind, h]

theorem Work.bind_of_error {e : ε} (h : x s = .error e s₁) : (x >>= p) s = .error e s₁ := by
  simp only [bind, EStateM.bind, h]

/-! ## Invariants -/

/-- `P` still holds if `x` succeeds. -/
def Keeps (P : σ → Prop) (x : EStateM ε σ α) : Prop := ∀ s a s', P s → x s = .ok a s' → P s'

namespace Keeps

theorem pure (a : α) : Keeps P (Pure.pure a : EStateM ε σ α) := by
  intro s _ s' hs h
  obtain ⟨-, rfl⟩ := pure_eq_ok.mp h
  exact hs

theorem throw (e : ε) : Keeps P (throw e : EStateM ε σ α) :=
  fun _ _ _ _ h ↦ absurd h throw_ne_ok

/-- Work that goes on with what came before. -/
theorem bind (hx : Keeps P x) (hp : ∀ a, Keeps P (p a)) : Keeps P (x >>= p) := by
  intro s b s' hs h
  obtain ⟨a, s₁, ha, hb⟩ := bind_eq_ok.mp h
  exact hp a s₁ b s' (hx s a s₁ hs ha) hb

/-- Work that reads the state. -/
theorem get_bind {p : σ → EStateM ε σ β} (hp : ∀ s, Keeps P (p s)) : Keeps P (get >>= p) :=
  fun s b s' hs h ↦ hp s s b s' hs h

theorem modify {g : σ → σ} (hg : ∀ s, P s → P (g s)) : Keeps P (modify g : EStateM ε σ PUnit) := by
  intro s _ s' hs h
  obtain rfl := modify_eq_ok.mp h
  exact hg s hs

theorem modifyGet {g : σ → α × σ} (hg : ∀ s, P s → P (g s).2) :
    Keeps P (modifyGet g : EStateM ε σ α) := by
  intro s _ s' hs h
  obtain ⟨-, rfl⟩ := modifyGet_eq_ok.mp h
  exact hg s hs

/-- Work that may start with something more. -/
theorem when_bind {c : Prop} [Decidable c] {x : EStateM ε σ PUnit} {p : PUnit → EStateM ε σ β}
    (hx : Keeps P x) (hp : Keeps P (p ())) : Keeps P (if c then x >>= p else p ()) := by
  split
  · exact bind hx fun _ ↦ hp
  · exact hp

theorem unless_bind {c : Prop} [Decidable c] {x : EStateM ε σ PUnit} {p : PUnit → EStateM ε σ β}
    (hx : Keeps P x) (hp : Keeps P (p ())) : Keeps P (if c then p () else x >>= p) := by
  split
  · exact hp
  · exact bind hx fun _ ↦ hp

/-- A result that nothing looks at. -/
theorem discard (hx : Keeps P x) : Keeps P (discard x) := by
  intro s _ s' hs h
  obtain ⟨a, h⟩ := discard_eq_ok.mp h
  exact hx s a s' hs h

/-! ## Lists -/

theorem mapM (xs : List α) (hp : ∀ a, Keeps P (p a)) : Keeps P (xs.mapM p) := by
  intro s ys s' hs h
  exact mapM_induct (P := fun _ t ↦ P t) h hs fun _ x _ _ t y t' _ ht hx ↦ hp x t y t' ht hx

theorem forM {p : α → EStateM ε σ PUnit} (xs : List α) (hp : ∀ a ∈ xs, Keeps P (p a)) :
    Keeps P (xs.forM p) := by
  intro s u s' hs h
  exact forM_induct h hs fun x hx t u t' ht h ↦ hp x hx t u t' ht h

theorem foldlM {p : β → α → EStateM ε σ β} (xs : List α) (hp : ∀ b a, Keeps P (p b a)) (b : β) :
    Keeps P (xs.foldlM p b) := by
  induction xs generalizing b with
  | nil => exact pure b
  | cons a xs ih =>
    rw [List.foldlM_cons]
    exact bind (hp b a) fun c ↦ ih c

end Keeps

/-! ## Outcomes -/

variable {ι : Type} {Q R : σ → Prop} {fault? fault?' : Option ε}

/-- From `P`, the work `x` fails with a fault, or leads to `Q` if there is none. -/
def Answers (P : σ → Prop) (x : EStateM ε σ α) (fault? : Option ε) (Q : σ → Prop) : Prop :=
  ∀ s, P s → match fault? with
    | none => ∃ a s', x s = .ok a s' ∧ Q s'
    | some e => ∃ s', x s = .error e s'

namespace Answers

theorem pure (a : α) : Answers P (Pure.pure a : EStateM ε σ α) none P := fun s hs ↦ ⟨a, s, rfl, hs⟩

theorem throw (e : ε) : Answers P (throw e : EStateM ε σ α) (some e) Q := fun s _ ↦ ⟨s, rfl⟩

/-- The first fault counts. -/
theorem bind (hx : Answers P x fault? Q) (hp : ∀ a, Answers Q (p a) fault?' R) :
    Answers P (x >>= p) (fault?.or fault?') R := by
  intro s hs
  have houtcome := hx s hs
  cases fault? with
  | some e =>
    obtain ⟨s', hfail⟩ := houtcome
    exact ⟨s', bind_of_error hfail⟩
  | none =>
    obtain ⟨a, s', hanswer, hs'⟩ := houtcome
    rw [bind_of_ok hanswer, Option.none_or]
    exact hp a s' hs'

/-- Work behind work that does not fail. -/
theorem after (hx : Answers P x none Q) (hp : ∀ a, Answers Q (p a) fault? R) :
    Answers P (x >>= p) fault? R :=
  hx.bind hp

/-- Work before work that does not fail. -/
theorem before (hx : Answers P x fault? Q) (hp : ∀ a, Answers Q (p a) none R) :
    Answers P (x >>= p) fault? R := by
  have h := hx.bind hp
  rwa [Option.or_none] at h

/-- Work that looks at the state. -/
theorem get_bind {p : σ → EStateM ε σ β} (hp : ∀ s, P s → Answers P (p s) fault? Q) :
    Answers P (get >>= p) fault? Q :=
  fun s hs ↦ hp s hs s hs

theorem modify {g : σ → σ} (hg : ∀ s, P s → Q (g s)) :
    Answers P (modify g : EStateM ε σ PUnit) none Q :=
  fun s hs ↦ ⟨⟨⟩, g s, rfl, hg s hs⟩

theorem modifyGet {g : σ → α × σ} (hg : ∀ s, P s → Q (g s).2) :
    Answers P (modifyGet g : EStateM ε σ α) none Q :=
  fun s hs ↦ ⟨(g s).1, (g s).2, rfl, hg s hs⟩

theorem discard (hx : Answers P x fault? Q) : Answers P (discard x) fault? Q :=
  hx.before fun _ ↦ .pure _

/-- Work that may start with something more. -/
theorem when_bind {c : Prop} [Decidable c] {x : EStateM ε σ PUnit} {p : PUnit → EStateM ε σ β}
    (hx : Answers P x none P) (hp : Answers P (p ()) fault? Q) :
    Answers P (if c then x >>= p else p ()) fault? Q := by
  split
  · exact hx.after fun _ ↦ hp
  · exact hp

/-! ## Lists, with a state that knows how far the work has come -/

variable {S : Nat → σ → Prop} {fault : ι → Option ε} {xs : List ι}

private theorem shift {y : ι → EStateM ε σ β} {a : ι} (k : Nat)
    (hp : ∀ j x, (a :: xs)[j]? = some x → Answers (S (k + j)) (y x) (fault x) (S (k + j + 1))) :
    ∀ j x, xs[j]? = some x → Answers (S (k + 1 + j)) (y x) (fault x) (S (k + 1 + j + 1)) := by
  intro j x hx
  have heq : k + (j + 1) = k + 1 + j := by omega
  exact heq ▸ hp (j + 1) x hx

theorem forM {p : ι → EStateM ε σ PUnit} (k : Nat)
    (hp : ∀ j a, xs[j]? = some a → Answers (S (k + j)) (p a) (fault a) (S (k + j + 1))) :
    Answers (S k) (xs.forM p) (xs.findSome? fault) (S (k + xs.length)) := by
  induction xs generalizing k with
  | nil => exact .pure _
  | cons a xs ih =>
    rw [List.length_cons, Nat.add_comm xs.length 1, ← Nat.add_assoc, findSome?_cons_eq_or]
    exact (hp 0 a rfl).bind fun _ ↦ ih (k + 1) (shift k hp)

theorem mapM {p : ι → EStateM ε σ β} (k : Nat)
    (hp : ∀ j a, xs[j]? = some a → Answers (S (k + j)) (p a) (fault a) (S (k + j + 1))) :
    Answers (S k) (xs.mapM p) (xs.findSome? fault) (S (k + xs.length)) := by
  induction xs generalizing k with
  | nil => exact .pure []
  | cons a xs ih =>
    rw [List.length_cons, Nat.add_comm xs.length 1, ← Nat.add_assoc, List.mapM_cons,
      findSome?_cons_eq_or]
    exact (hp 0 a rfl).bind fun _ ↦ (ih (k + 1) (shift k hp)).before fun _ ↦ .pure _

theorem foldlM {p : β → ι → EStateM ε σ β} (k : Nat) (y : β)
    (hp : ∀ y j a, xs[j]? = some a → Answers (S (k + j)) (p y a) (fault a) (S (k + j + 1))) :
    Answers (S k) (xs.foldlM p y) (xs.findSome? fault) (S (k + xs.length)) := by
  induction xs generalizing k y with
  | nil => exact .pure y
  | cons a xs ih =>
    rw [List.length_cons, Nat.add_comm xs.length 1, ← Nat.add_assoc, List.foldlM_cons,
      findSome?_cons_eq_or]
    exact (hp y 0 a rfl).bind fun z ↦ ih (k + 1) z fun y ↦ shift k (hp y)

/-- Work on a list that keeps what it needs. -/
theorem mapM_keeps {p : ι → EStateM ε σ β} (hp : ∀ a ∈ xs, Answers P (p a) (fault a) P) :
    Answers P (xs.mapM p) (xs.findSome? fault) P :=
  mapM (S := fun _ ↦ P) 0 fun _ a ha ↦ hp a (List.mem_of_getElem? ha)

/-- Work on a list that keeps what it needs and does not fail. -/
theorem forM_keeps {p : ι → EStateM ε σ PUnit} (hp : ∀ a ∈ xs, Answers P (p a) none P) :
    Answers P (xs.forM p) none P := by
  have h : Answers P (xs.forM p) (xs.findSome? fun _ ↦ (none : Option ε)) P :=
    forM (S := fun _ ↦ P) 0 fun _ a ha ↦ hp a (List.mem_of_getElem? ha)
  rwa [List.findSome?_eq_none_iff.mpr fun _ _ ↦ rfl] at h

end Answers

end TreeCover
