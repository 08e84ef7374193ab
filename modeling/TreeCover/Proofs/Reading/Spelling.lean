import Mathlib.Data.List.TakeWhile
import TreeCover.Ir.Token

/-!
# Spelled tokens

How tokens are written, and how a line is laid out: tokens stand one after the other, with any number
of blanks before, between and behind them, and a comment may end the line. Two tokens may touch if the
second does not begin with what would make the first longer. The scanner reads every such line as the
tokens it was made from. Main statement: `scanLine_of_laid`.
-/

namespace TreeCover.Ir

variable {cs w : List Char} {ts : List Token} {t : Token}

/-! ## Numbers -/

theorem readNat?_toDigits (n : Nat) : readNat? (Nat.toDigits 10 n) = some n := by
  have hdigits : (Nat.toDigits 10 n).all Char.isDigit = true :=
    List.all_eq_true.mpr fun c hc ↦ Nat.isDigit_of_mem_toDigits (by decide) (by decide) hc
  have hvalue : digitsValue (Nat.toDigits 10 n) = n :=
    Nat.ofDigitChars_toDigits (b := 10) (by decide) (by decide)
  rw [readNat?, hdigits, hvalue, List.isEmpty_eq_false_iff.mpr Nat.toDigits_ne_nil]
  rfl

/-- The digits of an integer, behind a minus sign if it is negative. -/
theorem toList_repr_cases (n : Int) : ∃ m : Nat,
    (n = m ∧ (toString n).toList = Nat.toDigits 10 m) ∨
      (n = -m ∧ (toString n).toList = '-' :: Nat.toDigits 10 m) := by
  cases n with
  | ofNat m => exact ⟨m, Or.inl ⟨rfl, Nat.toList_repr⟩⟩
  | negSucc m =>
    refine ⟨m + 1, Or.inr ⟨Int.negSucc_eq m, ?_⟩⟩
    change ("-" ++ (m + 1).repr).toList = _
    rw [String.toList_append, Nat.toList_repr]
    rfl

/-- Digits follow the first character, which is a digit or a minus sign that a digit follows. -/
theorem exists_digits (n : Int) : ∃ c w, (toString n).toList = c :: w ∧
    (∀ x ∈ w, x.isDigit = true) ∧ (c.isDigit = true ∨ c = '-' ∧ ∃ d w', w = d :: w') := by
  have hdigits : ∀ m : Nat, ∀ x ∈ Nat.toDigits 10 m, x.isDigit = true := fun m x hx ↦
    Nat.isDigit_of_mem_toDigits (by decide) (by decide) hx
  obtain ⟨m, ⟨-, h⟩ | ⟨-, h⟩⟩ := toList_repr_cases n
  · obtain ⟨c, w, hcw⟩ := List.exists_cons_of_ne_nil (Nat.toDigits_ne_nil (b := 10) (n := m))
    obtain ⟨hc, hw⟩ := List.forall_mem_cons.mp (hcw ▸ hdigits m)
    exact ⟨c, w, h.trans hcw, hw, Or.inl hc⟩
  · exact ⟨'-', _, h, hdigits m, Or.inr ⟨rfl, List.exists_cons_of_ne_nil Nat.toDigits_ne_nil⟩⟩

theorem readInt?_toString (n : Int) : readInt? (toString n).toList = some n := by
  obtain ⟨m, ⟨rfl, h⟩ | ⟨rfl, h⟩⟩ := toList_repr_cases n
  · rw [h, readInt?.eq_2]
    · rw [readNat?_toDigits]
      rfl
    · intro ds hds
      have hminus : '-'.isDigit = true :=
        Nat.isDigit_of_mem_toDigits (b := 10) (n := m) (by decide) (by decide) (hds ▸ List.mem_cons_self)
      exact absurd hminus (by decide)
  · rw [h, readInt?, readNat?_toDigits]
    rfl

/-! ## Tokens -/

/-- A name that may stand behind `%` or `@`. -/
def IsName (s : String) : Prop := s ≠ "" ∧ ∀ c ∈ s.toList, isNameChar c = true

/-- A name that may stand alone: it begins with a letter or an underscore. -/
def IsWord (s : String) : Prop :=
  IsName s ∧ ∀ c ∈ s.toList.head?, isWordStart c = true

/-- The characters that spell a token. -/
inductive Token.Spells : Token → List Char → Prop
  | word {s : String} (hs : IsWord s) : Spells (.word s) s.toList
  | localName {s : String} (hs : IsName s) : Spells (.localName s) ('%' :: s.toList)
  | globalName {s : String} (hs : IsName s) : Spells (.globalName s) ('@' :: s.toList)
  | int {n : Int} (hn : fitsSigned 128 n = true) : Spells (.int n) (toString n).toList
  | punct {c : Char} (hc : isPunct c = true) : Spells (.punct c) [c]

/-- Whether a token would be longer if the character came behind it. -/
def Token.goesOn (t : Token) (c : Char) : Bool :=
  match t with
  | .word _ | .localName _ | .globalName _ => isNameChar c
  | .int _ | .float _ => c.isDigit || c == '.' || c == 'e' || c == 'E'
  | .punct _ => false

/-- A line with the given tokens. -/
inductive Laid : List Token → List Char → Prop
  | nil : Laid [] []
  | comment (cs : List Char) : Laid [] (';' :: cs)
  | blank {c : Char} {cs : List Char} {ts : List Token} (hc : isBlank c = true) (h : Laid ts cs) :
      Laid ts (c :: cs)
  | token {t : Token} {w cs : List Char} {ts : List Token} (hw : t.Spells w)
      (hend : ∀ c ∈ cs.head?, t.goesOn c = false) (h : Laid ts cs) : Laid (t :: ts) (w ++ cs)

/-! ## Scanning -/

theorem takeWhile_append_of_ends {p : Char → Bool} (hw : ∀ c ∈ w, p c = true)
    (hend : ∀ c ∈ cs.head?, p c = false) : (w ++ cs).takeWhile p = w := by
  rw [List.takeWhile_append_of_pos hw]
  cases cs with
  | nil => simp
  | cons c cs => rw [List.takeWhile_cons_of_neg (by simp [hend c rfl]), List.append_nil]

/-- A number ends where no digit, point or exponent mark follows. -/
theorem numberTail_append {prev : Char} (hprev : prev ≠ 'e' ∧ prev ≠ 'E')
    (hw : ∀ c ∈ w, c.isDigit = true)
    (hend : ∀ c ∈ cs.head?, (c.isDigit || c == '.' || c == 'e' || c == 'E') = false) :
    numberTail prev (w ++ cs) = w := by
  have hsign : ∀ c : Char, ((c == '-' || c == '+') && (prev == 'e' || prev == 'E')) = false := by
    intro c
    rw [beq_eq_false_iff_ne.mpr hprev.1, beq_eq_false_iff_ne.mpr hprev.2]
    exact Bool.and_false _
  induction w generalizing prev with
  | nil =>
    cases cs with
    | nil => rfl
    | cons c cs =>
      have hc := hend c rfl
      rw [List.nil_append, numberTail, hsign, hc]
      rfl
  | cons c w ih =>
    obtain ⟨hc, hw⟩ := List.forall_mem_cons.mp hw
    have hne : c ≠ 'e' ∧ c ≠ 'E' :=
      ⟨by rintro rfl; exact absurd hc (by decide), by rintro rfl; exact absurd hc (by decide)⟩
    rw [List.cons_append, numberTail, hc]
    exact congrArg (c :: ·) (ih hne hw fun c' ↦ by
      rw [beq_eq_false_iff_ne.mpr hne.1, beq_eq_false_iff_ne.mpr hne.2]
      exact Bool.and_false _)

theorem not_isDigit_of_isWordStart {c : Char} (hc : isWordStart c = true) : c.isDigit = false := by
  rw [isWordStart, Bool.or_eq_true, beq_iff_eq] at hc
  rcases hc with hc | rfl
  · delta Char.isAlpha Char.isUpper Char.isLower at hc
    simp only [Bool.or_eq_true, Bool.and_eq_true, decide_eq_true_eq, ge_iff_le,
      UInt32.le_iff_toNat_le] at hc
    rw [Bool.eq_false_iff]
    intro hd
    simp only [Char.isDigit, Bool.and_eq_true, decide_eq_true_eq, ge_iff_le,
      UInt32.le_iff_toNat_le] at hd
    grind
  · rfl

/-- A run of digits is an integer, for it has no point and no exponent. -/
theorem readNumber?_toString {n : Int} (hn : fitsSigned 128 n = true) :
    readNumber? (toString n).toList = some (.int n) := by
  have hdigits : ∀ m : Nat, (Nat.toDigits 10 m).any (fun c ↦ c == '.' || c == 'e' || c == 'E') = false := by
    intro m
    refine List.any_eq_false.mpr fun c hc h ↦ ?_
    have hdigit := Nat.isDigit_of_mem_toDigits (b := 10) (by decide) (by decide) hc
    simp only [Bool.or_eq_true, beq_iff_eq] at h
    rcases h with (rfl | rfl) | rfl <;> exact absurd hdigit (by decide)
  have hplain : (toString n).toList.any (fun c ↦ c == '.' || c == 'e' || c == 'E') = false := by
    obtain ⟨m, ⟨-, h⟩ | ⟨-, h⟩⟩ := toList_repr_cases n
    · rw [h, hdigits]
    · rw [h, List.any_cons, hdigits]
      rfl
  rw [readNumber?, hplain, readInt?_toString]
  simp [hn]

theorem IsName.isEmpty_toList {s : String} (hs : IsName s) : s.toList.isEmpty = false :=
  List.isEmpty_eq_false_iff.mpr fun h ↦ hs.1 (String.toList_eq_nil_iff.mp h)

/-- A token is scanned from its spelling, whatever comes behind it that does not make it longer. -/
theorem scanToken_of_spells {c : Char} (hw : t.Spells (c :: w))
    (hend : ∀ c ∈ cs.head?, t.goesOn c = false) :
    scanToken c (w ++ cs) = .ok (t, w.length) := by
  generalize hspelling : c :: w = spelling at hw
  cases hw with
  | @word s hs =>
    obtain ⟨hname, hstart⟩ := hs
    rw [← hspelling] at hstart
    have hc : isWordStart c = true := hstart c rfl
    have hdigit := not_isDigit_of_isWordStart hc
    have hsigil : ¬(c == '%' || c == '@') = true := by
      rw [Bool.or_eq_true, beq_iff_eq, beq_iff_eq]
      rintro (rfl | rfl) <;> exact absurd hc (by decide)
    have hnumber : ¬startsNumber c (w ++ cs) = true := by
      rw [startsNumber, hdigit, Bool.false_or, Bool.and_eq_true, beq_iff_eq]
      rintro ⟨rfl, -⟩
      exact absurd hc (by decide)
    have htail : (w ++ cs).takeWhile isNameChar = w := by
      refine takeWhile_append_of_ends (fun x hx ↦ hname.2 x ?_) hend
      rw [← hspelling]
      exact List.mem_cons_of_mem _ hx
    rw [scanToken, if_neg hsigil, if_neg hnumber, if_pos hc, htail]
    dsimp only
    rw [hspelling, String.ofList_toList]
    rfl
  | @localName s hs =>
    obtain ⟨rfl, rfl⟩ := List.cons.inj hspelling
    have hname : (s.toList ++ cs).takeWhile isNameChar = s.toList :=
      takeWhile_append_of_ends hs.2 hend
    rw [scanToken, if_pos (by decide), hname]
    dsimp only
    rw [hs.isEmpty_toList, String.ofList_toList]
    rfl
  | @globalName s hs =>
    obtain ⟨rfl, rfl⟩ := List.cons.inj hspelling
    have hname : (s.toList ++ cs).takeWhile isNameChar = s.toList :=
      takeWhile_append_of_ends hs.2 hend
    rw [scanToken, if_pos (by decide), hname]
    dsimp only
    rw [hs.isEmpty_toList, String.ofList_toList]
    rfl
  | @int n hn =>
    have hread := readNumber?_toString hn
    rw [← hspelling] at hread
    obtain ⟨c', w', hcw, hw, hfirst⟩ := exists_digits n
    obtain ⟨rfl, rfl⟩ := List.cons.inj (hspelling.trans hcw)
    have hprev : c ≠ 'e' ∧ c ≠ 'E' := by
      rcases hfirst with hc | ⟨rfl, -⟩
      · exact ⟨by rintro rfl; exact absurd hc (by decide), by rintro rfl; exact absurd hc (by decide)⟩
      · exact ⟨by decide, by decide⟩
    have hsigil : ¬(c == '%' || c == '@') = true := by
      rw [Bool.or_eq_true, beq_iff_eq, beq_iff_eq]
      rcases hfirst with hc | ⟨rfl, -⟩
      · rintro (rfl | rfl) <;> exact absurd hc (by decide)
      · decide
    have hnumber : startsNumber c (w ++ cs) = true := by
      rcases hfirst with hc | ⟨rfl, d, w', rfl⟩
      · rw [startsNumber, hc]
        rfl
      · rw [startsNumber, List.cons_append, List.head?_cons, Option.any_some,
          hw d List.mem_cons_self]
        rfl
    rw [scanToken, if_neg hsigil, if_pos hnumber, numberTail_append hprev hw hend]
    dsimp only
    rw [hread]
    rfl
  | @punct c hc =>
    obtain ⟨rfl, rfl⟩ := List.cons.inj hspelling
    simp only [isPunct, List.mem_cons, List.not_mem_nil, or_false, decide_eq_true_eq] at hc
    rcases hc with rfl | rfl | rfl | rfl | rfl | rfl | rfl | rfl | rfl <;> rfl

/-- No token begins with a blank or with what opens a comment. -/
theorem not_starts {c : Char} (hc : c = ';' ∨ isBlank c = true) :
    isWordStart c = false ∧ c.isDigit = false ∧ isPunct c = false ∧ c ∉ ['%', '@', '-'] := by
  simp only [isBlank, List.mem_cons, List.not_mem_nil, or_false, decide_eq_true_eq] at hc
  rcases hc with rfl | rfl | rfl | rfl | rfl | rfl <;> decide

theorem Token.Spells.exists_cons (h : t.Spells w) :
    ∃ c w', w = c :: w' ∧ ¬(c = ';' ∨ isBlank c = true) := by
  cases h with
  | @word s hs =>
    obtain ⟨c, w, hw⟩ := List.exists_cons_of_ne_nil (List.isEmpty_eq_false_iff.mp hs.1.isEmpty_toList)
    refine ⟨c, w, hw, fun hc ↦ ?_⟩
    exact absurd (hs.2 c (by rw [hw]; rfl)) (by rw [(not_starts hc).1]; exact Bool.false_ne_true)
  | localName hs => exact ⟨_, _, rfl, by decide⟩
  | globalName hs => exact ⟨_, _, rfl, by decide⟩
  | @int n hn =>
    obtain ⟨c, w, hw, -, hfirst⟩ := exists_digits n
    refine ⟨c, w, hw, fun hc ↦ ?_⟩
    obtain ⟨-, hdigit, -, hminus⟩ := not_starts hc
    rcases hfirst with h | ⟨rfl, -⟩
    · exact absurd h (by rw [hdigit]; exact Bool.false_ne_true)
    · exact hminus (by decide)
  | @punct c hc' =>
    refine ⟨c, [], rfl, fun hc ↦ ?_⟩
    exact absurd hc' (by rw [(not_starts hc).2.2.1]; exact Bool.false_ne_true)

/-- **Layout.** A line is read as the tokens that were laid out in it. -/
theorem scanLine_of_laid (h : Laid ts cs) : scanLine cs = .ok ts := by
  induction h with
  | nil =>
    rw [scanLine]
    rfl
  | comment cs =>
    rw [scanLine]
    rfl
  | @blank c cs ts hc _ ih =>
    have hcomment : ¬(c == ';') = true := by
      rw [beq_iff_eq]
      rintro rfl
      exact absurd hc (by decide)
    rw [scanLine, if_neg hcomment, if_pos hc, ih]
  | @token t w cs ts hw hend _ ih =>
    obtain ⟨c, w, rfl, hc⟩ := hw.exists_cons
    rw [not_or, ← beq_iff_eq] at hc
    rw [List.cons_append, scanLine, if_neg hc.1, if_neg hc.2, scanToken_of_spells hw hend]
    change (do return t :: (← scanLine ((w ++ cs).drop w.length))) = _
    rw [List.drop_left, ih]
    rfl

end TreeCover.Ir
