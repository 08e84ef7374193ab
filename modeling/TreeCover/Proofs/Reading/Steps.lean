import Mathlib.Data.List.Forall2
import TreeCover.Ir.Reader

/-!
# Steps of the reader

A reading step that succeeds is a chain of successes: each part read its tokens and left the rest to
the next. Both directions are stated here, so that the success of a step can be taken apart and can
be put together from its parts.
-/

namespace TreeCover.Ir

variable {ε α β ν ν' τ τ' : Type}

/-! ## Results and faults -/

namespace Except

theorem bind_eq_ok {x : Except ε α} {f : α → Except ε β} {b : β} :
    x >>= f = .ok b ↔ ∃ a, x = .ok a ∧ f a = .ok b := by
  cases x with
  | ok a => simp [bind, Except.bind]
  | error e => simp [bind, Except.bind]

theorem pure_eq_ok {a a' : α} : (pure a : Except ε α) = .ok a' ↔ a' = a := by
  simp [pure, Except.pure, eq_comm]

theorem throw_ne_ok {e : ε} {a : α} : (throw e : Except ε α) ≠ .ok a := nofun

/-- A check before the rest: the rest succeeds, and the fault does not arise. -/
theorem guard_bind_eq_ok {c : Prop} [Decidable c] {e : ε} {x : Except ε α} {a : α} :
    (if c then do let _ ← (throw e : Except ε Unit); x else x) = .ok a ↔ ¬c ∧ x = .ok a := by
  by_cases hc : c
  · rw [if_pos hc]
    exact ⟨fun h ↦ absurd (bind_eq_ok.mp h) fun ⟨_, h, _⟩ ↦ throw_ne_ok h, fun h ↦ absurd hc h.1⟩
  · rw [if_neg hc]
    exact ⟨fun h ↦ ⟨hc, h⟩, fun h ↦ h.2⟩

/-- A list has a result if its items have, and these are its items. -/
theorem mapM_eq_ok_iff {f : α → Except ε β} {xs : List α} {ys : List β} :
    xs.mapM f = .ok ys ↔ List.Forall₂ (fun x y ↦ f x = .ok y) xs ys := by
  induction xs generalizing ys with
  | nil => rw [List.mapM_nil, pure_eq_ok, List.forall₂_nil_left_iff]
  | cons x xs ih =>
    rw [List.mapM_cons, bind_eq_ok, List.forall₂_cons_left_iff]
    constructor
    · rintro ⟨y, hy, h⟩
      obtain ⟨ys', hys, h⟩ := bind_eq_ok.mp h
      exact ⟨y, ys', hy, ih.mp hys, pure_eq_ok.mp h⟩
    · rintro ⟨y, ys', hy, hys, rfl⟩
      exact ⟨y, hy, bind_eq_ok.mpr ⟨ys', ih.mpr hys, rfl⟩⟩

end Except

theorem orFault_eq_ok {x : Option α} {fault : ReadFault} {a : α} :
    orFault x fault = .ok a ↔ x = some a := by
  cases x with
  | some b => simp [orFault]
  | none => simp [orFault]

/-! ## Reading within a line -/

namespace LineReader

variable {ts ts' : List Token}

theorem run_bind_eq_ok {x : LineReader α} {f : α → LineReader β} {b : β} :
    (x >>= f).run ts = .ok (b, ts') ↔
      ∃ a ts₁, x.run ts = .ok (a, ts₁) ∧ (f a).run ts₁ = .ok (b, ts') := by
  rw [StateT.run_bind, Except.bind_eq_ok]
  exact ⟨fun ⟨p, hx, hf⟩ ↦ ⟨p.1, p.2, hx, hf⟩, fun ⟨a, ts₁, hx, hf⟩ ↦ ⟨(a, ts₁), hx, hf⟩⟩

theorem run_pure_eq_ok {a a' : α} :
    (pure a : LineReader α).run ts = .ok (a', ts') ↔ a' = a ∧ ts' = ts := by
  rw [StateT.run_pure, Except.pure_eq_ok, Prod.mk.injEq]

theorem run_get_eq_ok {ts₁ : List Token} :
    (get : LineReader (List Token)).run ts = .ok (ts₁, ts') ↔ ts₁ = ts ∧ ts' = ts := by
  rw [StateT.run_get, Except.pure_eq_ok, Prod.mk.injEq]

theorem run_set_eq_ok {ts₁ : List Token} {u : PUnit} :
    (set ts₁ : LineReader PUnit).run ts = .ok (u, ts') ↔ ts' = ts₁ := by
  rw [StateT.run_set, Except.pure_eq_ok, Prod.mk.injEq]
  exact and_iff_right rfl

theorem run_throw_ne_ok {e : ReadFault} {a : α} :
    (throw e : LineReader α).run ts ≠ .ok (a, ts') := by
  rw [StateT.run_throw]
  exact fun h ↦ by cases h

/-- A check before the rest of a step. -/
theorem run_guard_bind_eq_ok {c : Prop} [Decidable c] {e : ReadFault} {x : LineReader α} {a : α} :
    (if c then do let _ ← (throw e : LineReader Unit); x else x).run ts = .ok (a, ts') ↔
      ¬c ∧ x.run ts = .ok (a, ts') := by
  by_cases hc : c
  · rw [if_pos hc]
    refine ⟨fun h ↦ ?_, fun h ↦ absurd hc h.1⟩
    obtain ⟨_, _, h, -⟩ := run_bind_eq_ok.mp h
    exact absurd h run_throw_ne_ok
  · rw [if_neg hc]
    exact ⟨fun h ↦ ⟨hc, h⟩, fun h ↦ h.2⟩

/-! ### Single tokens -/

theorem next_eq_ok {t : Token} : next.run ts = .ok (t, ts') ↔ ts = t :: ts' := by
  cases ts with
  | nil => exact ⟨nofun, nofun⟩
  | cons u ts =>
    change Except.ok (u, ts) = Except.ok (t, ts') ↔ _
    rw [Except.ok.injEq, Prod.mk.injEq, List.cons.injEq]

/-- A step that takes the content of one kind of token. -/
theorem next_content_eq_ok {f : Token → LineReader α} {g : α → Token} {a : α}
    (hg : ∀ a, f (g a) = pure a) (hf : ∀ t, (∃ a, t = g a) ∨ ∃ e, f t = throw e) :
    (next >>= f).run ts = .ok (a, ts') ↔ ts = g a :: ts' := by
  rw [run_bind_eq_ok]
  constructor
  · rintro ⟨t, ts₁, ht, h⟩
    obtain rfl := next_eq_ok.mp ht
    rcases hf t with ⟨b, rfl⟩ | ⟨e, he⟩
    · rw [hg] at h
      obtain ⟨rfl, rfl⟩ := run_pure_eq_ok.mp h
      rfl
    · rw [he] at h
      exact absurd h run_throw_ne_ok
  · rintro rfl
    exact ⟨g a, ts', next_eq_ok.mpr rfl, by rw [hg, run_pure_eq_ok]; exact ⟨rfl, rfl⟩⟩

theorem word_eq_ok {s : String} : word.run ts = .ok (s, ts') ↔ ts = .word s :: ts' :=
  next_content_eq_ok (fun _ ↦ rfl) fun t ↦ by
    cases t with
    | word s => exact .inl ⟨s, rfl⟩
    | _ => exact .inr ⟨_, rfl⟩

theorem localName_eq_ok {s : String} :
    localName.run ts = .ok (s, ts') ↔ ts = .localName s :: ts' :=
  next_content_eq_ok (fun _ ↦ rfl) fun t ↦ by
    cases t with
    | localName s => exact .inl ⟨s, rfl⟩
    | _ => exact .inr ⟨_, rfl⟩

theorem globalName_eq_ok {s : String} :
    globalName.run ts = .ok (s, ts') ↔ ts = .globalName s :: ts' :=
  next_content_eq_ok (fun _ ↦ rfl) fun t ↦ by
    cases t with
    | globalName s => exact .inl ⟨s, rfl⟩
    | _ => exact .inr ⟨_, rfl⟩

theorem run_accept_cons (t u : Token) (ts : List Token) :
    (accept t).run (u :: ts) = if u = t then .ok (true, ts) else .ok (false, u :: ts) := by
  by_cases hu : u = t
  · rw [if_pos hu, accept, StateT.run_bind, StateT.run_get]
    change StateT.run (if u = t then _ else _) (u :: ts) = _
    rw [if_pos hu]
    rfl
  · rw [if_neg hu, accept, StateT.run_bind, StateT.run_get]
    change StateT.run (if u = t then _ else _) (u :: ts) = _
    rw [if_neg hu]
    rfl

theorem accept_eq_ok {t : Token} {taken : Bool} : (accept t).run ts = .ok (taken, ts') ↔
    taken = true ∧ ts = t :: ts' ∨ taken = false ∧ ts.head? ≠ some t ∧ ts' = ts := by
  cases ts with
  | nil =>
    change Except.ok (false, []) = Except.ok (taken, ts') ↔ _
    simp [eq_comm]
  | cons u ts =>
    rw [run_accept_cons]
    split
    next hu => simp [hu, eq_comm]
    next hu =>
      rw [Except.ok.injEq, Prod.mk.injEq, eq_comm, eq_comm (a := u :: ts)]
      simp [hu]

/-- A step that fails unless a token comes next. -/
theorem unless_accept_eq_ok {t : Token} {e : ReadFault} {u : Unit} :
    (do unless ← accept t do throw e : LineReader Unit).run ts = .ok (u, ts') ↔ ts = t :: ts' := by
  rw [run_bind_eq_ok]
  constructor
  · rintro ⟨taken, ts₁, haccept, h⟩
    obtain ⟨rfl, rfl⟩ | ⟨rfl, _, rfl⟩ := accept_eq_ok.mp haccept
    · rw [(run_pure_eq_ok.mp h).2]
    · exact absurd h run_throw_ne_ok
  · rintro rfl
    exact ⟨true, ts', accept_eq_ok.mpr (Or.inl ⟨rfl, rfl⟩), rfl⟩

theorem punct_eq_ok {c : Char} {u : Unit} :
    (punct c).run ts = .ok (u, ts') ↔ ts = .punct c :: ts' := unless_accept_eq_ok

theorem keyword_eq_ok {s : String} {u : Unit} :
    (keyword s).run ts = .ok (u, ts') ↔ ts = .word s :: ts' := unless_accept_eq_ok

theorem endOfLine_eq_ok {u : Unit} : endOfLine.run ts = .ok (u, ts') ↔ ts = [] ∧ ts' = [] := by
  cases ts with
  | nil =>
    change Except.ok ((), []) = Except.ok (u, ts') ↔ _
    simp [eq_comm]
  | cons t ts =>
    change Except.error (ReadFault.trailing t) = Except.ok (u, ts') ↔ _
    simp

/-! ### Lists of items -/

/-- What each item keeps, seeing those before it, holds of all items. -/
theorem itemsToParen_induct {P : List α → Prop} {item : List α → LineReader α} {fuel : Nat}
    {items xs : List α}
    (hitem : ∀ items x ts ts', P items → (item items).run ts = .ok (x, ts') → P (items ++ [x]))
    (hitems : P items) (h : (itemsToParen item fuel items).run ts = .ok (xs, ts')) : P xs := by
  induction fuel generalizing items ts with
  | zero => exact absurd h run_throw_ne_ok
  | succ fuel ih =>
    rw [itemsToParen] at h
    obtain ⟨x, ts₁, hx, h⟩ := run_bind_eq_ok.mp h
    obtain ⟨closed, ts₂, -, h⟩ := run_bind_eq_ok.mp h
    have hnext := hitem items x ts ts₁ hitems hx
    cases closed with
    | true =>
      obtain ⟨rfl, -⟩ := run_pure_eq_ok.mp h
      exact hnext
    | false =>
      obtain ⟨_, ts₃, -, h⟩ := run_bind_eq_ok.mp h
      exact ih hnext h

theorem parenthesized_induct {P : List α → Prop} {item : List α → LineReader α} {xs : List α}
    (hitem : ∀ items x ts ts', P items → (item items).run ts = .ok (x, ts') → P (items ++ [x]))
    (hnil : P []) (h : (parenthesized item).run ts = .ok (xs, ts')) : P xs := by
  rw [parenthesized] at h
  obtain ⟨_, ts₁, -, h⟩ := run_bind_eq_ok.mp h
  obtain ⟨closed, ts₂, -, h⟩ := run_bind_eq_ok.mp h
  cases closed with
  | true =>
    obtain ⟨rfl, -⟩ := run_pure_eq_ok.mp h
    exact hnil
  | false =>
    obtain ⟨rest, ts₃, -, h⟩ := run_bind_eq_ok.mp h
    exact itemsToParen_induct hitem hnil h

end LineReader

/-! ## Texts as lists of characters -/

/-- The tokens of a text that is given by its characters. -/
def scanChars (cs : List Char) : Except ReadError (List Line) := do
  let lines ← (splitLines cs).zipIdx.mapM fun (cs, k) ↦
    match scanLine cs with
    | .ok tokens => pure (k + 1, tokens)
    | .error e => throw ⟨k + 1, .scan e⟩
  return lines.filter fun (_, tokens) ↦ !tokens.isEmpty

/-- The functions of a text that is given by its characters. A closed text is best read in this form,
since lists of characters are cheap to compute with and strings are not. -/
def parseChars (cs : List Char) : Except ReadError (List Func) :=
  match scanChars cs with
  | .ok lines => (readLines none lines).toExcept
  | .error e => .error e

theorem parse_eq_parseChars (text : String) : parse text = parseChars text.toList := by
  have hscan : scan text = scanChars text.toList := rfl
  rw [parse, readText, parseChars, ← hscan]
  cases scan text with
  | ok lines => rfl
  | error e => rfl

end TreeCover.Ir
