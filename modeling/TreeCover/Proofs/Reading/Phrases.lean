import TreeCover.Proofs.Reading.Format

/-!
# Reading phrases

What the format writes for a type, an operand, a list or an operation is read as what it was written
for, and what comes behind it is left. Main statement: `readInst_of_spells`.
-/

namespace TreeCover.Ir

open LineReader

variable {α : Type} {ty : Ty} {a b o : Operand String} {s t : Token} {ts rest : List Token}

/-! ## Names of types and operators -/

theorem Ty.ofText?_text (hty : ty.IsWritten) : ofText? ty.text = some ty := by
  cases ty with
  | int n =>
    have htext : (Ty.int n).text.toList = 'i' :: Nat.toDigits 10 n := by
      rw [text, String.toList_append]
      exact congrArg ('i' :: ·) Nat.toList_repr
    have hne : ∀ s : String, s.toList.head? ≠ some 'i' → (Ty.int n).text ≠ s := by
      rintro s hs rfl
      exact hs (by rw [htext]; rfl)
    rw [ofText?, if_neg (hne _ (by decide)), if_neg (hne _ (by decide)), if_neg (hne _ (by decide)),
      htext]
    simp only [readNat?_toDigits]
    rw [Option.filter_some, if_pos]
    · rfl
    · simpa [IsWritten] using hty
  | _ => rfl

theorem Ty.token_ne (hty : ty.IsWritten) {s : String} (hs : ofText? s ≠ some ty) :
    ty.token ≠ .word s := fun h ↦ hs (Token.word.inj h ▸ ofText?_text hty)

theorem BinaryOp.ofText?_text (op : BinaryOp) : ofText? op.text = some op := by cases op <;> decide

theorem CastOp.ofText?_text (op : CastOp) : ofText? op.text = some op := by cases op <;> decide

/-- No cast has the name of a binary operator. -/
theorem CastOp.binaryOfText?_text (op : CastOp) : BinaryOp.ofText? op.text = none := by
  cases op <;> decide

theorem Predicate.ofText?_text (p : Predicate) : ofText? p.text = some p := by cases p <;> decide

/-! ## Types and operands -/

theorem readTy_eq_ok (hty : ty.IsWritten) : readTy.run (ty.token :: ts) = .ok (ty, ts) := by
  refine run_bind_eq_ok.mpr ⟨ty.text, ts, rfl, ?_⟩
  rw [Ty.ofText?_text hty]
  rfl

theorem readOperand_eq_ok (ho : o.Spells ty t) : (readOperand ty).run (t :: ts) = .ok (o, ts) := by
  cases ho <;> rfl

theorem readTypedOperand_eq_ok (hty : ty.IsWritten) (ho : o.Spells ty t) :
    readTypedOperand.run (ty.token :: t :: ts) = .ok ((ty, o), ts) :=
  run_bind_eq_ok.mpr ⟨ty, _, readTy_eq_ok hty,
    run_bind_eq_ok.mpr ⟨o, ts, readOperand_eq_ok ho, rfl⟩⟩

theorem readOperandPair_eq_ok (hty : ty.IsWritten) (ha : a.Spells ty s) (hb : b.Spells ty t) :
    readOperandPair.run (ty.token :: s :: .punct ',' :: t :: ts) = .ok ((ty, a, b), ts) :=
  run_bind_eq_ok.mpr ⟨(ty, a), _, readTypedOperand_eq_ok hty ha,
    run_bind_eq_ok.mpr ⟨(), _, punct_eq_ok.mpr rfl,
      run_bind_eq_ok.mpr ⟨b, ts, readOperand_eq_ok hb, rfl⟩⟩⟩

theorem readPointer_eq_ok (ha : a.Spells .ptr s) :
    readPointer.run (.punct ',' :: Ty.ptr.token :: s :: ts) = .ok (a, ts) :=
  run_bind_eq_ok.mpr ⟨(), _, punct_eq_ok.mpr rfl,
    run_bind_eq_ok.mpr ⟨(), _, keyword_eq_ok.mpr rfl, readOperand_eq_ok ha⟩⟩

theorem readIncoming_eq_ok {p : Operand String × String} (hp : SpellsIncoming ty p ts) :
    (readIncoming ty).run (ts ++ rest) = .ok (p, rest) := by
  cases hp with
  | intro ho =>
    exact run_bind_eq_ok.mpr ⟨(), _, punct_eq_ok.mpr rfl,
      run_bind_eq_ok.mpr ⟨_, _, readOperand_eq_ok ho,
        run_bind_eq_ok.mpr ⟨(), _, punct_eq_ok.mpr rfl,
          run_bind_eq_ok.mpr ⟨_, _, rfl, run_bind_eq_ok.mpr ⟨(), rest, punct_eq_ok.mpr rfl, rfl⟩⟩⟩⟩⟩

/-! ## Lists -/

theorem separated_cons_cons (item item' : List Token) (items : List (List Token)) :
    separated (item :: item' :: items) = item ++ .punct ',' :: separated (item' :: items) := by
  rw [separated, List.intercalate_cons_cons, List.append_assoc]
  rfl

theorem separated_singleton (item : List Token) : separated [item] = item :=
  List.intercalate_singleton

/-- Items with tokens of their own are no more than the tokens. -/
theorem length_le_separated {items : List (List Token)} (h : ∀ item ∈ items, item ≠ []) :
    items.length ≤ (separated items).length := by
  induction items with
  | nil => exact Nat.zero_le _
  | cons item items ih =>
    obtain ⟨hitem, hitems⟩ := List.forall_mem_cons.mp h
    have hpos := List.length_pos_of_ne_nil hitem
    have ih := ih hitems
    cases items with
    | nil =>
      rw [separated_singleton]
      exact hpos
    | cons item' items =>
      rw [separated_cons_cons]
      simp only [List.length_append, List.length_cons] at ih ⊢
      omega

/-- Items are read up to the parenthesis, each behind those before it. -/
theorem itemsToParen_eq_ok {item : List α → LineReader α} {R : α → List Token → Prop} {xs : List α}
    {groups : List (List Token)} (h : List.Forall₂ R xs groups) (hne : xs ≠ []) {before : List α}
    (hitem : ∀ pre x post ts rest, before ++ xs = pre ++ x :: post → R x ts →
      (item pre).run (ts ++ rest) = .ok (x, rest)) {fuel : Nat} (hfuel : xs.length ≤ fuel) :
    (itemsToParen item fuel before).run (separated groups ++ .punct ')' :: rest) =
      .ok (before ++ xs, rest) := by
  induction h generalizing before fuel with
  | nil => exact absurd rfl hne
  | @cons x ts xs groups hx hxs ih =>
    obtain ⟨fuel, rfl⟩ : ∃ n, fuel = n + 1 := ⟨fuel - 1, by rw [List.length_cons] at hfuel; omega⟩
    have hread := fun rest ↦ hitem before x xs ts rest rfl hx
    rw [itemsToParen]
    cases hxs with
    | nil =>
      rw [separated_singleton]
      exact run_bind_eq_ok.mpr ⟨x, _, hread _,
        run_bind_eq_ok.mpr ⟨true, rest, accept_eq_ok.mpr (Or.inl ⟨rfl, rfl⟩), rfl⟩⟩
    | @cons x' ts' xs' groups' hx' hxs' =>
      rw [separated_cons_cons, List.append_assoc, List.cons_append]
      refine run_bind_eq_ok.mpr ⟨x, _, hread _,
        run_bind_eq_ok.mpr ⟨false, _, accept_eq_ok.mpr (Or.inr ⟨rfl, by simp, rfl⟩),
          run_bind_eq_ok.mpr ⟨(), _, punct_eq_ok.mpr rfl, ?_⟩⟩⟩
      rw [List.append_cons before x (x' :: xs')]
      refine ih (List.cons_ne_nil _ _) (fun pre y post ts rest hpre ↦ hitem pre y post ts rest ?_)
        (Nat.le_of_succ_le_succ hfuel)
      rw [← hpre, List.append_assoc]
      rfl

/-- A list in parentheses, none of whose items begins with the closing one. -/
theorem parenthesized_eq_ok {item : List α → LineReader α} {R : α → List Token → Prop}
    {xs : List α} {groups : List (List Token)} (h : List.Forall₂ R xs groups)
    (hstart : ∀ x ts, R x ts → ∃ t ts', ts = t :: ts' ∧ t ≠ .punct ')')
    (hitem : ∀ pre x post ts rest, xs = pre ++ x :: post → R x ts →
      (item pre).run (ts ++ rest) = .ok (x, rest)) :
    (parenthesized item).run (.punct '(' :: (separated groups ++ .punct ')' :: rest)) =
      .ok (xs, rest) := by
  refine run_bind_eq_ok.mpr ⟨(), _, punct_eq_ok.mpr rfl, ?_⟩
  have hgroups : ∀ group ∈ groups, group ≠ [] := by
    intro group hgroup
    obtain ⟨k, hk, rfl⟩ := List.getElem_of_mem hgroup
    obtain ⟨t, ts', hts, -⟩ := hstart _ _ (h.get (h.length_eq ▸ hk) hk)
    exact List.ne_nil_of_length_pos (by rw [show groups[k] = t :: ts' from hts]; simp)
  have hlength := length_le_separated hgroups
  cases h with
  | nil =>
    exact run_bind_eq_ok.mpr ⟨true, rest, accept_eq_ok.mpr (Or.inl ⟨rfl, rfl⟩), rfl⟩
  | @cons x ts xs groups hx hxs =>
    obtain ⟨t, ts', rfl, ht⟩ := hstart x _ hx
    have hhead : (separated ((t :: ts') :: groups) ++ .punct ')' :: rest).head? ≠
        some (.punct ')') := by
      cases groups with
      | nil => rw [separated_singleton]; simpa using ht
      | cons => rw [separated_cons_cons]; simpa using ht
    refine run_bind_eq_ok.mpr ⟨false, _, accept_eq_ok.mpr (Or.inr ⟨rfl, hhead, rfl⟩), ?_⟩
    refine run_bind_eq_ok.mpr ⟨_, _, run_get_eq_ok.mpr ⟨rfl, rfl⟩, ?_⟩
    refine itemsToParen_eq_ok (.cons hx hxs) nofun hitem ?_
    rw [List.length_cons, hxs.length_eq, List.length_append]
    rw [List.length_cons] at hlength
    omega

/-- Items are read for as long as commas follow. -/
theorem itemsWhileComma_eq_ok {item : LineReader α} {R : α → List Token → Prop} {xs : List α}
    {groups : List (List Token)} (h : List.Forall₂ R xs groups) (hne : xs ≠ [])
    (hitem : ∀ x ts rest, R x ts → item.run (ts ++ rest) = .ok (x, rest)) {fuel : Nat}
    (hfuel : xs.length ≤ fuel) :
    (itemsWhileComma item fuel).run (separated groups) = .ok (xs, []) := by
  induction h generalizing fuel with
  | nil => exact absurd rfl hne
  | @cons x ts xs groups hx hxs ih =>
    obtain ⟨fuel, rfl⟩ : ∃ n, fuel = n + 1 := ⟨fuel - 1, by rw [List.length_cons] at hfuel; omega⟩
    rw [itemsWhileComma]
    cases hxs with
    | nil =>
      rw [separated_singleton, ← List.append_nil ts]
      exact run_bind_eq_ok.mpr ⟨x, [], hitem x ts [] hx,
        run_bind_eq_ok.mpr ⟨false, [], accept_eq_ok.mpr (Or.inr ⟨rfl, by simp, rfl⟩), rfl⟩⟩
    | @cons x' ts' xs' groups' hx' hxs' =>
      rw [separated_cons_cons]
      exact run_bind_eq_ok.mpr ⟨x, _, hitem x ts _ hx,
        run_bind_eq_ok.mpr ⟨true, _, accept_eq_ok.mpr (Or.inl ⟨rfl, rfl⟩),
          run_bind_eq_ok.mpr ⟨_, [], ih (List.cons_ne_nil _ _) (Nat.le_of_succ_le_succ hfuel), rfl⟩⟩⟩

/-- A nonempty list with commas at the end of a line. -/
theorem commaSeparated_eq_ok {item : LineReader α} {R : α → List Token → Prop} {xs : List α}
    {groups : List (List Token)} (h : List.Forall₂ R xs groups) (hne : xs ≠ [])
    (hstart : ∀ x ts, R x ts → ts ≠ [])
    (hitem : ∀ x ts rest, R x ts → item.run (ts ++ rest) = .ok (x, rest)) :
    (commaSeparated item).run (separated groups) = .ok (xs, []) := by
  refine run_bind_eq_ok.mpr ⟨_, _, run_get_eq_ok.mpr ⟨rfl, rfl⟩, ?_⟩
  have hlength : groups.length ≤ (separated groups).length := by
    refine length_le_separated fun group hgroup ↦ ?_
    obtain ⟨k, hk, rfl⟩ := List.getElem_of_mem hgroup
    exact hstart _ _ (h.get (h.length_eq ▸ hk) hk)
  exact itemsWhileComma_eq_ok h hne hitem (by rw [h.length_eq]; omega)

/-! ## Operations -/

variable {op : Operation String String}

theorem readCall_eq_ok (hty : ty.IsWritten) (h : SpellsCall ty op (.word "call" :: ts)) :
    readCall.run ts = .ok ((ty, op), []) := by
  cases h with
  | call hargs =>
    refine run_bind_eq_ok.mpr ⟨ty, _, readTy_eq_ok hty, run_bind_eq_ok.mpr ⟨_, _, rfl, ?_⟩⟩
    refine run_bind_eq_ok.mpr ⟨_, [], parenthesized_eq_ok hargs ?_ ?_, rfl⟩
    · rintro _ _ ⟨⟩
      exact ⟨_, _, rfl, nofun⟩
    · rintro _ _ _ _ _ - ⟨hty, ho⟩
      exact run_bind_eq_ok.mpr ⟨_, _, readTypedOperand_eq_ok hty ho, rfl⟩

theorem readDefinition_eq_ok (hty : ty.IsWritten) (h : SpellsDefinition ty op ts) :
    readDefinition.run ts = .ok ((ty, op), []) := by
  cases h with
  | binary ha hb =>
    refine run_bind_eq_ok.mpr ⟨_, _, rfl, ?_⟩
    rw [BinaryOp.ofText?_text]
    exact run_bind_eq_ok.mpr ⟨_, [], readOperandPair_eq_ok hty ha hb, rfl⟩
  | @cast _ source op a s hsource ha =>
    refine run_bind_eq_ok.mpr ⟨_, _, rfl, ?_⟩
    rw [CastOp.binaryOfText?_text, CastOp.ofText?_text]
    exact run_bind_eq_ok.mpr ⟨_, _, readTypedOperand_eq_ok hsource ha,
      run_bind_eq_ok.mpr ⟨(), _, keyword_eq_ok.mpr rfl,
        run_bind_eq_ok.mpr ⟨ty, [], readTy_eq_ok hty, rfl⟩⟩⟩
  | icmp hsource ha hb =>
    refine run_bind_eq_ok.mpr ⟨"icmp", _, rfl, run_bind_eq_ok.mpr ⟨_, _, rfl, ?_⟩⟩
    rw [Predicate.ofText?_text]
    exact run_bind_eq_ok.mpr ⟨_, [], readOperandPair_eq_ok hsource ha hb, rfl⟩
  | alloca =>
    exact run_bind_eq_ok.mpr ⟨"alloca", _, rfl, run_bind_eq_ok.mpr ⟨ty, [], readTy_eq_ok hty,
      run_bind_eq_ok.mpr ⟨false, [], rfl, rfl⟩⟩⟩
  | alignedAlloca n =>
    exact run_bind_eq_ok.mpr ⟨"alloca", _, rfl, run_bind_eq_ok.mpr ⟨ty, _, readTy_eq_ok hty,
      run_bind_eq_ok.mpr ⟨true, _, accept_eq_ok.mpr (Or.inl ⟨rfl, rfl⟩), rfl⟩⟩⟩
  | load ha =>
    exact run_bind_eq_ok.mpr ⟨"load", _, rfl, run_bind_eq_ok.mpr ⟨ty, _, readTy_eq_ok hty,
      run_bind_eq_ok.mpr ⟨_, [], readPointer_eq_ok ha, rfl⟩⟩⟩
  | phi hpairs hne =>
    refine run_bind_eq_ok.mpr ⟨"phi", _, rfl, run_bind_eq_ok.mpr ⟨ty, _, readTy_eq_ok hty, ?_⟩⟩
    refine run_bind_eq_ok.mpr ⟨_, [], commaSeparated_eq_ok hpairs hne ?_ ?_, rfl⟩
    · rintro _ _ ⟨⟩
      exact nofun
    · exact fun _ _ _ hp ↦ readIncoming_eq_ok hp
  | call h =>
    cases h with
    | call hargs =>
      exact run_bind_eq_ok.mpr ⟨"call", _, rfl, readCall_eq_ok hty (.call hargs)⟩

theorem readStatement_eq_ok (hty : ty.IsWritten) (h : SpellsStatement ty op ts) :
    readStatement.run ts = .ok ((ty, op), []) := by
  cases h with
  | store hv ha =>
    exact run_bind_eq_ok.mpr ⟨"store", _, rfl,
      run_bind_eq_ok.mpr ⟨_, _, readTypedOperand_eq_ok hty hv,
        run_bind_eq_ok.mpr ⟨_, [], readPointer_eq_ok ha, rfl⟩⟩⟩
  | br =>
    exact run_bind_eq_ok.mpr ⟨"br", _, rfl,
      run_bind_eq_ok.mpr ⟨true, _, accept_eq_ok.mpr (Or.inl ⟨rfl, rfl⟩), rfl⟩⟩
  | @condBr source c s onTrue onFalse hsource hc =>
    have hlabel : Ty.ofText? "label" = none := by decide
    have hstart : (source.token :: s :: Token.punct ',' :: Token.word "label" ::
        Token.localName onTrue :: Token.punct ',' :: Token.word "label" ::
          [Token.localName onFalse]).head? ≠ some (.word "label") := fun h ↦
      Ty.token_ne hsource (fun h ↦ absurd (hlabel.symm.trans h) nofun) (Option.some.inj h)
    exact run_bind_eq_ok.mpr ⟨"br", _, rfl,
      run_bind_eq_ok.mpr ⟨false, _, accept_eq_ok.mpr (Or.inr ⟨rfl, hstart, rfl⟩),
        run_bind_eq_ok.mpr ⟨_, _, readTypedOperand_eq_ok hsource hc,
          run_bind_eq_ok.mpr ⟨(), _, punct_eq_ok.mpr rfl,
            run_bind_eq_ok.mpr ⟨(), _, keyword_eq_ok.mpr rfl,
              run_bind_eq_ok.mpr ⟨onTrue, _, rfl,
                run_bind_eq_ok.mpr ⟨(), _, punct_eq_ok.mpr rfl,
                  run_bind_eq_ok.mpr ⟨(), _, keyword_eq_ok.mpr rfl,
                    run_bind_eq_ok.mpr ⟨onFalse, [], rfl, rfl⟩⟩⟩⟩⟩⟩⟩⟩⟩
  | retVoid =>
    exact run_bind_eq_ok.mpr ⟨"ret", _, rfl,
      run_bind_eq_ok.mpr ⟨true, [], accept_eq_ok.mpr (Or.inl ⟨rfl, rfl⟩), rfl⟩⟩
  | @ret _ v s hne hv =>
    have hread : Ty.ofText? "void" = some .void := by decide
    have hvoid : [ty.token, s].head? ≠ some (.word "void") := fun h ↦
      Ty.token_ne hty (fun h ↦ hne (Option.some.inj (hread.symm.trans h)).symm) (Option.some.inj h)
    exact run_bind_eq_ok.mpr ⟨"ret", _, rfl,
      run_bind_eq_ok.mpr ⟨false, _, accept_eq_ok.mpr (Or.inr ⟨rfl, hvoid, rfl⟩),
        run_bind_eq_ok.mpr ⟨_, [], readTypedOperand_eq_ok hty hv, rfl⟩⟩⟩
  | call h =>
    cases h with
    | call hargs =>
      exact run_bind_eq_ok.mpr ⟨"call", _, rfl, readCall_eq_ok hty (.call hargs)⟩

/-- **Instructions.** A line is read as the instruction it was written for, if that has a new name. -/
theorem readInst_of_spells {i : Inst String String} {taken : List String} (hty : i.ty.IsWritten)
    (h : i.Spells ts) (hname : ∀ name, i.name = some name → name ∉ taken) :
    (readInst taken).run ts = .ok (i, []) := by
  cases h with
  | definition h =>
    exact readInst_localName_eq_ok.mpr ⟨_, _, rfl, readDefinition_eq_ok hty h, hname _ rfl, rfl⟩
  | statement h =>
    have hstart : ∀ name rest, ts ≠ .localName name :: rest := by
      rintro name rest rfl
      cases h with
      | call h => nomatch h
    exact (readInst_eq_ok hstart).mpr ⟨_, readStatement_eq_ok hty h, rfl⟩

end TreeCover.Ir
