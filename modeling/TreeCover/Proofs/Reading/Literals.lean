import TreeCover.Proofs.Reading.Named

/-!
# Literals and their types

A floating literal is written after the type that was named last on its line, and the reader keeps the
literal but not the type. The literals on the line of an instruction are the floating operands of the
instruction, in order; the type they are written with is the type of the instruction if that is all it
names, as for binary operators, phis and returns. The instructions of the functions in a text stand on
the lines that are no headers, labels or braces, one after the other. Main statements: `typed_of_readInst`
and `parse_instLines`.
-/

namespace TreeCover.Ir

variable {ν ν' β β' α : Type} {ty : Ty} {ty? : Option Ty} {ts ts' : List Token}

/-! ## Floating operands -/

/-- The value of a floating literal. -/
def Operand.float? : Operand ν → Option Binary64
  | .float x => some x
  | _ => none

/-- The value of a floating literal at a place. -/
def Place.float? : Place ν β → Option Binary64
  | .operand o => o.float?
  | .block _ => none

/-- The floating operands in order. -/
def Operation.floats (op : Operation ν β) : List Binary64 := op.places.filterMap Place.float?

theorem Operand.Resolves.float? {f : ν → Except ReadFault ν'} {o : Operand ν} {o' : Operand ν'}
    (h : o.Resolves f o') : o'.float? = o.float? := by
  cases h <;> rfl

/-- Resolving names keeps the literals. -/
theorem Operation.Resolves.floats {f : ν → Except ReadFault ν'} {g : β → Except ReadFault β'}
    {op : Operation ν β} {op' : Operation ν' β'} (h : op.Resolves f g op') :
    op'.floats = op.floats := by
  have hplaces := h.places
  rw [Operation.floats, Operation.floats]
  generalize op.places = ps, op'.places = ps' at hplaces
  induction hplaces with
  | nil => rfl
  | @cons p p' ps ps' hp _ ih =>
    have hfloat : p'.float? = p.float? := by
      cases hp with
      | operand ho => exact ho.float?
      | block => rfl
    rw [List.filterMap_cons, List.filterMap_cons, hfloat, ih]

/-- How many floating operands stand before a place. -/
def Operation.floatsBefore (op : Operation ν β) (idx : Nat) : Nat :=
  ((op.places.take idx).filterMap Place.float?).length

theorem Operation.getElem?_floats {op : Operation ν β} {idx : Nat} {x : Binary64}
    (h : op.places[idx]? = some (.operand (.float x))) : op.floats[op.floatsBefore idx]? = some x := by
  rw [floats, floatsBefore, List.filterMap_eq_flatMap_toList, List.filterMap_eq_flatMap_toList]
  exact getElem?_flatMap_take (g := fun p ↦ p.float?.toList) (k := 0) h rfl

/-- Whether the operands have the type of the instruction. -/
def Opcode.sharesType : Opcode → Bool
  | .binary _ | .phi | .ret => true
  | _ => false

/-! ## Literals of a line -/

/-- The floating literals of a line, each with the type that was named last before it. -/
def literals : Option Ty → List Token → List (Option Ty × Binary64)
  | _, [] => []
  | ty?, .float x :: ts => (ty?, x) :: literals ty? ts
  | ty?, .word s :: ts => literals ((Ty.ofText? s).or ty?) ts
  | ty?, _ :: ts => literals ty? ts

@[simp] theorem literals_punct (c : Char) : literals ty? (.punct c :: ts) = literals ty? ts := rfl

@[simp] theorem literals_localName (s : String) :
    literals ty? (.localName s :: ts) = literals ty? ts := rfl

@[simp] theorem literals_globalName (s : String) :
    literals ty? (.globalName s :: ts) = literals ty? ts := rfl

theorem literals_type {s : String} (h : Ty.ofText? s = some ty) :
    literals ty? (.word s :: ts) = literals (some ty) ts := by
  rw [literals, h, Option.some_or]

theorem literals_word {s : String} (h : Ty.ofText? s = none) :
    literals ty? (.word s :: ts) = literals ty? ts := by
  rw [literals, h, Option.none_or]

/-- The literals among operands, each written after a type for which `P` holds. -/
structure Typed (P : Ty → Prop) (xs : List (Option Ty × Binary64)) (os : List (Operand ν)) : Prop where
  values : xs.map (·.2) = os.filterMap Operand.float?
  types : ∀ x ∈ xs, ∃ ty, x.1 = some ty ∧ P ty

namespace Typed

variable {P Q : Ty → Prop} {xs ys : List (Option Ty × Binary64)} {os os' : List (Operand ν)}

theorem nil : Typed P [] ([] : List (Operand ν)) := ⟨rfl, nofun⟩

theorem append (h : Typed P xs os) (h' : Typed P ys os') : Typed P (xs ++ ys) (os ++ os') := by
  refine ⟨?_, List.forall_mem_append.mpr ⟨h.types, h'.types⟩⟩
  rw [List.map_append, List.filterMap_append, h.values, h'.values]

theorem imp (h : Typed P xs os) (hP : ∀ ty, P ty → Q ty) : Typed Q xs os :=
  ⟨h.values, fun x hx ↦ (h.types x hx).imp fun ty hty ↦ ⟨hty.1, hP ty hty.2⟩⟩

end Typed

/-- Of the tokens `ts`, the operands `os` take those before `ts'`. What was named last before the tokens
is `ty?`, and behind the operands it is `ty?'`. -/
def Spans (P : Ty → Prop) (ty? : Option Ty) (ts : List Token) (os : List (Operand ν))
    (ty?' : Option Ty) (ts' : List Token) : Prop :=
  ∃ xs, literals ty? ts = xs ++ literals ty?' ts' ∧ Typed P xs os

namespace Spans

variable {P Q : Ty → Prop} {ty?' ty?₁ : Option Ty} {ts₁ : List Token} {os os' : List (Operand ν)}

theorem skip (h : literals ty? ts = literals ty?' ts') :
    Spans P ty? ts ([] : List (Operand ν)) ty?' ts' :=
  ⟨[], h, .nil⟩

theorem trans (h : Spans P ty? ts os ty?₁ ts₁) (h' : Spans P ty?₁ ts₁ os' ty?' ts') :
    Spans P ty? ts (os ++ os') ty?' ts' := by
  obtain ⟨xs, heq, hxs⟩ := h
  obtain ⟨ys, heq', hys⟩ := h'
  exact ⟨xs ++ ys, by rw [heq, heq', List.append_assoc], hxs.append hys⟩

theorem imp (h : Spans P ty? ts os ty?' ts') (hP : ∀ ty, P ty → Q ty) :
    Spans Q ty? ts os ty?' ts' :=
  Exists.imp (fun _ hxs ↦ ⟨hxs.1, hxs.2.imp hP⟩) h

/-- Tokens without literals in front. -/
theorem of_eq (heq : literals ty? ts = literals ty?₁ ts₁) (h : Spans P ty?₁ ts₁ os ty?' ts') :
    Spans P ty? ts os ty?' ts' := by
  rwa [Spans, heq]

end Spans

/-! ## Phrases -/

open LineReader

variable {a b o : Operand String}

theorem literals_readTy (h : readTy.run ts = .ok (ty, ts')) :
    literals ty? ts = literals (some ty) ts' := by
  rw [readTy, run_bind_eq_ok] at h
  obtain ⟨s, ts₁, hs, h⟩ := h
  obtain rfl := word_eq_ok.mp hs
  split at h
  next t hty =>
    obtain ⟨rfl, rfl⟩ := run_pure_eq_ok.mp h
    exact literals_type hty
  next => exact absurd h run_throw_ne_ok

/-- An operand behind its type. -/
theorem spans_readOperand {t : Ty} (h : (readOperand t).run ts = .ok (o, ts')) :
    Spans (· = ty) (some ty) ts [o] (some ty) ts' := by
  rw [readOperand, run_bind_eq_ok] at h
  obtain ⟨u, ts₁, hu, h⟩ := h
  obtain rfl := next_eq_ok.mp hu
  split at h
  next => 
    obtain ⟨rfl, rfl⟩ := run_pure_eq_ok.mp h
    exact ⟨[], rfl, rfl, nofun⟩
  next =>
    obtain ⟨rfl, rfl⟩ := run_pure_eq_ok.mp h
    exact ⟨[], rfl, rfl, nofun⟩
  next x =>
    obtain ⟨rfl, rfl⟩ := run_pure_eq_ok.mp h
    exact ⟨[(some ty, x)], rfl, rfl, by simp⟩
  next =>
    obtain ⟨rfl, rfl⟩ := run_pure_eq_ok.mp h
    exact ⟨[], literals_word (by decide), rfl, nofun⟩
  next =>
    obtain ⟨rfl, rfl⟩ := run_pure_eq_ok.mp h
    exact ⟨[], literals_word (by decide), rfl, nofun⟩
  next =>
    obtain ⟨rfl, rfl⟩ := run_pure_eq_ok.mp h
    exact ⟨[], literals_word (by decide), rfl, nofun⟩
  next => exact absurd h run_throw_ne_ok

theorem spans_readTypedOperand {p : Ty × Operand String}
    (h : readTypedOperand.run ts = .ok (p, ts')) :
    Spans (· = p.1) ty? ts [p.2] (some p.1) ts' := by
  simp only [readTypedOperand, run_bind_eq_ok, run_pure_eq_ok] at h
  obtain ⟨ty, ts₁, hty, o, ts₂, ho, rfl, rfl⟩ := h
  exact .of_eq (literals_readTy hty) (spans_readOperand ho)

theorem spans_readOperandPair {p : Ty × Operand String × Operand String}
    (h : readOperandPair.run ts = .ok (p, ts')) :
    Spans (· = p.1) ty? ts [p.2.1, p.2.2] (some p.1) ts' := by
  simp only [readOperandPair, run_bind_eq_ok, run_pure_eq_ok, punct_eq_ok] at h
  obtain ⟨⟨ty, a⟩, ts₁, ha, _, ts₂, rfl, b, ts₃, hb, rfl, rfl⟩ := h
  have hb : Spans (· = ty) (some ty) ts₂ [b] (some ty) ts' := spans_readOperand hb
  exact (spans_readTypedOperand ha).trans (.of_eq (literals_punct _) hb)

theorem spans_readPointer (h : readPointer.run ts = .ok (o, ts')) :
    Spans (· = .ptr) ty? ts [o] (some .ptr) ts' := by
  simp only [readPointer, run_bind_eq_ok, punct_eq_ok, keyword_eq_ok] at h
  obtain ⟨_, ts₁, rfl, _, ts₂, rfl, ho⟩ := h
  have hptr : literals ty? (.punct ',' :: .word "ptr" :: ts₂) = literals (some .ptr) ts₂ :=
    literals_type rfl
  exact .of_eq hptr (spans_readOperand ho)

/-- A value for a phi, behind the type of the phi. -/
theorem spans_readIncoming {t : Ty} {p : Operand String × String}
    (h : (readIncoming t).run ts = .ok (p, ts')) :
    Spans (· = ty) (some ty) ts [p.1] (some ty) ts' := by
  simp only [readIncoming, run_bind_eq_ok, run_pure_eq_ok, punct_eq_ok, localName_eq_ok] at h
  obtain ⟨_, ts₁, rfl, v, ts₂, hv, _, ts₃, rfl, b, ts₄, rfl, _, ts₅, rfl, rfl, rfl⟩ := h
  have hv : Spans (· = ty) (some ty) ts₁ [v] (some ty) (.punct ',' :: .localName b :: .punct ']' :: ts') :=
    spans_readOperand hv
  exact .of_eq (literals_punct _) (hv.trans (.skip rfl))

/-! ## Lists -/

theorem spans_itemsWhileComma {t : Ty} {fuel : Nat} {ps : List (Operand String × String)}
    (h : (itemsWhileComma (readIncoming t) fuel).run ts = .ok (ps, ts')) :
    Spans (· = ty) (some ty) ts (ps.map (·.1)) (some ty) ts' := by
  induction fuel generalizing ts ps with
  | zero => exact absurd h run_throw_ne_ok
  | succ fuel ih =>
    rw [itemsWhileComma] at h
    simp only [run_bind_eq_ok] at h
    obtain ⟨p, ts₁, hp, more, ts₂, hmore, h⟩ := h
    have hp : Spans (· = ty) (some ty) ts [p.1] (some ty) ts₁ := spans_readIncoming hp
    rcases accept_eq_ok.mp hmore with ⟨rfl, rfl⟩ | ⟨rfl, -, rfl⟩
    · simp only [if_true, run_bind_eq_ok, run_pure_eq_ok] at h
      obtain ⟨rest, ts₃, hrest, rfl, rfl⟩ := h
      exact hp.trans (.of_eq (literals_punct _) (ih hrest))
    · obtain ⟨rfl, rfl⟩ := run_pure_eq_ok.mp h
      exact hp

/-- The arguments of a call, each behind a type of its own. -/
theorem spans_itemsToParen {fuel : Nat} {items os : List (Operand String)}
    (h : (itemsToParen (fun _ ↦ return (← readTypedOperand).2) fuel items).run ts = .ok (os, ts')) :
    ∃ new ty?', os = items ++ new ∧ Spans (fun _ ↦ True) ty? ts new ty?' ts' := by
  induction fuel generalizing ts ty? items with
  | zero => exact absurd h run_throw_ne_ok
  | succ fuel ih =>
    -- one argument, and then the parenthesis or a comma and the rest
    simp only [itemsToParen, run_bind_eq_ok, run_pure_eq_ok] at h
    obtain ⟨o, ts₁, ⟨p, ts₁, hp, rfl, rfl⟩, closed, ts₂, hclosed, h⟩ := h
    have hp : Spans (fun _ ↦ True) ty? ts [p.2] (some p.1) ts₁ :=
      (spans_readTypedOperand hp).imp fun _ _ ↦ trivial
    rcases accept_eq_ok.mp hclosed with ⟨rfl, rfl⟩ | ⟨rfl, -, rfl⟩
    · obtain ⟨rfl, rfl⟩ := run_pure_eq_ok.mp h
      exact ⟨[p.2], some p.1, rfl, hp.trans (.skip (literals_punct _))⟩
    · simp only [Bool.false_eq_true, if_false, run_bind_eq_ok, punct_eq_ok] at h
      obtain ⟨_, ts₃, rfl, h⟩ := h
      obtain ⟨new, ty?', rfl, hnew⟩ := ih h
      exact ⟨p.2 :: new, ty?', List.append_assoc _ _ _, hp.trans (.of_eq (literals_punct _) hnew)⟩

theorem spans_readCall {raw : RawOperation} (h : readCall.run ts = .ok (raw, ts')) :
    ∃ callee args ty?', raw.2 = .call callee args ∧
      Spans (fun _ ↦ True) ty? ts args ty?' ts' := by
  simp only [readCall, parenthesized, run_bind_eq_ok, run_pure_eq_ok, globalName_eq_ok, punct_eq_ok] at h
  obtain ⟨ty, ts₁, hty, callee, ts₂, rfl, args, ts₃, ⟨_, ts₄, rfl, closed, ts₅, hclosed, h⟩, rfl, rfl⟩ := h
  have hopen : literals ty? ts = literals (some ty) ts₄ :=
    (literals_readTy hty).trans (literals_globalName _)
  rcases accept_eq_ok.mp hclosed with ⟨rfl, rfl⟩ | ⟨rfl, -, rfl⟩
  · obtain ⟨rfl, rfl⟩ := run_pure_eq_ok.mp h
    exact ⟨callee, [], some ty, rfl, .of_eq hopen (.skip (literals_punct _))⟩
  · simp only [Bool.false_eq_true, if_false, run_bind_eq_ok, run_get_eq_ok] at h
    obtain ⟨_, _, ⟨rfl, rfl⟩, h⟩ := h
    obtain ⟨args, ty?', rfl, hargs⟩ := spans_itemsToParen h
    exact ⟨callee, args, ty?', rfl, .of_eq hopen hargs⟩

/-! ## Instructions -/

theorem BinaryOp.tyOfText?_eq_none {s : String} {op : BinaryOp} (h : ofText? s = some op) :
    Ty.ofText? s = none := by
  have htext : op.text = s := by simpa using List.find?_some h
  rw [← htext]
  cases op <;> decide

theorem CastOp.tyOfText?_eq_none {s : String} {op : CastOp} (h : ofText? s = some op) :
    Ty.ofText? s = none := by
  have htext : op.text = s := by simpa using List.find?_some h
  rw [← htext]
  cases op <;> decide

theorem Predicate.tyOfText?_eq_none {s : String} {p : Predicate} (h : ofText? s = some p) :
    Ty.ofText? s = none := by
  have htext : p.text = s := by simpa using List.find?_some h
  rw [← htext]
  cases p <;> decide

theorem Operation.floats_call (callee : String) (args : List (Operand ν)) :
    (.call callee args : Operation ν β).floats = args.filterMap Operand.float? :=
  List.filterMap_map

theorem Operation.floats_phi (ps : List (Operand ν × β)) :
    (.phi ps : Operation ν β).floats = (ps.map (·.1)).filterMap Operand.float? := by
  rw [floats, places]
  induction ps with
  | nil => rfl
  | cons p ps ih =>
    rw [List.flatMap_cons, List.filterMap_append, ih, List.map_cons, List.filterMap_cons]
    obtain ⟨o, b⟩ := p
    cases o <;> rfl

/-- The operation that was read takes its floating operands from the literals before `ts'`. -/
def RawOperation.Takes (raw : RawOperation) (ty? : Option Ty) (ts ts' : List Token) : Prop :=
  raw.2.opcode ≠ .alloca → ∃ (os : List (Operand String)) (ty?' : Option Ty),
    raw.2.floats = os.filterMap Operand.float? ∧
      Spans (fun ty ↦ raw.2.opcode.sharesType = true → ty = raw.1) ty? ts os ty?' ts'

variable {raw : RawOperation}

/-- Tokens without literals in front. -/
theorem RawOperation.Takes.of_eq {ty?₁ : Option Ty} {ts₁ : List Token}
    (heq : literals ty? ts = literals ty?₁ ts₁) (h : raw.Takes ty?₁ ts₁ ts') : raw.Takes ty? ts ts' := by
  intro hop
  obtain ⟨os, ty?', hfloats, hos⟩ := h hop
  exact ⟨os, ty?', hfloats, .of_eq heq hos⟩

theorem takes_of_readCall (h : readCall.run ts = .ok (raw, ts')) : raw.Takes ty? ts ts' := by
  obtain ⟨ty, op⟩ := raw
  obtain ⟨callee, args, ty?', rfl, hargs⟩ := spans_readCall h
  exact fun _ ↦ ⟨args, ty?', Operation.floats_call callee args, hargs.imp fun _ _ h ↦ absurd h Bool.false_ne_true⟩

theorem takes_of_readDefinition (h : readDefinition.run ts = .ok (raw, ts')) :
    raw.Takes ty? ts ts' := by
  rw [readDefinition, run_bind_eq_ok] at h
  obtain ⟨op, ts₁, hop, h⟩ := h
  obtain rfl := word_eq_ok.mp hop
  cases hbinary : BinaryOp.ofText? op with
  | some b =>
    simp only [hbinary, run_bind_eq_ok, run_pure_eq_ok] at h
    obtain ⟨p, ts₂, hp, rfl, rfl⟩ := h
    refine .of_eq (literals_word (BinaryOp.tyOfText?_eq_none hbinary)) fun _ ↦ ?_
    exact ⟨_, _, rfl, (spans_readOperandPair hp).imp fun _ hty _ ↦ hty⟩
  | none =>
    cases hcast : CastOp.ofText? op with
    | some c =>
      simp only [hbinary, hcast, run_bind_eq_ok, run_pure_eq_ok, keyword_eq_ok] at h
      obtain ⟨p, ts₂, hp, _, ts₃, rfl, ty, ts₄, hty, rfl, rfl⟩ := h
      refine .of_eq (literals_word (CastOp.tyOfText?_eq_none hcast)) fun _ ↦ ?_
      have hto : literals (some p.1) (.word "to" :: ts₃) = literals (some ty) ts' :=
        (literals_word rfl).trans (literals_readTy hty)
      exact ⟨_, _, rfl, ((spans_readTypedOperand hp).trans (.skip hto)).imp fun _ _ h ↦ absurd h Bool.false_ne_true⟩
    | none =>
      simp only [hbinary, hcast] at h
      split at h
      next =>
        simp only [run_bind_eq_ok] at h
        obtain ⟨name, ts₂, hname, h⟩ := h
        obtain rfl := word_eq_ok.mp hname
        split at h
        next p hpredicate =>
          simp only [run_bind_eq_ok, run_pure_eq_ok] at h
          obtain ⟨q, ts₃, hq, rfl, rfl⟩ := h
          have hskip : literals ty? (.word "icmp" :: .word name :: ts₂) = literals ty? ts₂ :=
            literals_word (Predicate.tyOfText?_eq_none hpredicate)
          refine .of_eq hskip fun _ ↦ ?_
          exact ⟨_, _, rfl, (spans_readOperandPair hq).imp fun _ _ h ↦ absurd h Bool.false_ne_true⟩
        next => exact absurd h run_throw_ne_ok
      next =>
        -- what follows the type of an `alloca` is no operand
        simp only [run_bind_eq_ok] at h
        obtain ⟨ty, _, -, aligned, _, -, h⟩ := h
        refine fun hne ↦ absurd ?_ hne
        cases aligned with
        | false =>
          obtain ⟨rfl, -⟩ := run_pure_eq_ok.mp h
          rfl
        | true =>
          simp only [if_true, run_bind_eq_ok, run_pure_eq_ok] at h
          obtain ⟨_, _, -, _, _, -, rfl, -⟩ := h
          rfl
      next =>
        simp only [run_bind_eq_ok, run_pure_eq_ok] at h
        obtain ⟨ty, ts₂, hty, o, ts₃, ho, rfl, rfl⟩ := h
        refine .of_eq ((literals_word rfl).trans (literals_readTy hty)) fun _ ↦ ?_
        exact ⟨_, _, rfl, (spans_readPointer ho).imp fun _ _ h ↦ absurd h Bool.false_ne_true⟩
      next =>
        simp only [commaSeparated, run_bind_eq_ok, run_pure_eq_ok, run_get_eq_ok] at h
        obtain ⟨ty, _, hty, ps, ts₃, ⟨_, _, ⟨rfl, rfl⟩, hps⟩, rfl, rfl⟩ := h
        refine .of_eq ((literals_word rfl).trans (literals_readTy hty)) fun _ ↦ ?_
        exact ⟨_, _, Operation.floats_phi ps, (spans_itemsWhileComma hps).imp fun _ hty _ ↦ hty⟩
      next => exact .of_eq (literals_word rfl) (takes_of_readCall h)
      next => exact absurd h run_throw_ne_ok

theorem takes_of_readStatement (h : readStatement.run ts = .ok (raw, ts')) :
    raw.Takes ty? ts ts' := by
  rw [readStatement, run_bind_eq_ok] at h
  obtain ⟨op, ts₁, hop, h⟩ := h
  obtain rfl := word_eq_ok.mp hop
  split at h
  next =>
    simp only [run_bind_eq_ok, run_pure_eq_ok] at h
    obtain ⟨p, ts₂, hp, o, ts₃, ho, rfl, rfl⟩ := h
    refine .of_eq (literals_word rfl) fun _ ↦ ⟨[p.2, o], some .ptr, rfl, ?_⟩
    refine .trans ((spans_readTypedOperand hp).imp fun _ _ h ↦ absurd h Bool.false_ne_true) ?_
    exact (spans_readPointer ho).imp fun _ _ h ↦ absurd h Bool.false_ne_true
  next =>
    simp only [run_bind_eq_ok] at h
    obtain ⟨label, ts₂, hlabel, h⟩ := h
    rcases accept_eq_ok.mp hlabel with ⟨rfl, rfl⟩ | ⟨rfl, -, rfl⟩
    · simp only [if_true, run_bind_eq_ok, run_pure_eq_ok, localName_eq_ok] at h
      obtain ⟨b, _, rfl, rfl, rfl⟩ := h
      exact fun _ ↦ ⟨[], ty?, rfl, .skip rfl⟩
    · simp only [Bool.false_eq_true, if_false, run_bind_eq_ok, run_pure_eq_ok, punct_eq_ok, keyword_eq_ok,
        localName_eq_ok] at h
      obtain ⟨p, ts₃, hp, _, _, rfl, _, _, rfl, t, _, rfl, _, _, rfl, _, _, rfl, e, _, rfl, rfl, rfl⟩ := h
      refine .of_eq (literals_word rfl) fun _ ↦ ⟨[p.2], some p.1, rfl, ?_⟩
      exact ((spans_readTypedOperand hp).trans (.skip rfl)).imp fun _ _ h ↦ absurd h Bool.false_ne_true
  next =>
    simp only [run_bind_eq_ok] at h
    obtain ⟨void, ts₂, hvoid, h⟩ := h
    rcases accept_eq_ok.mp hvoid with ⟨rfl, rfl⟩ | ⟨rfl, -, rfl⟩
    · obtain ⟨rfl, rfl⟩ := run_pure_eq_ok.mp h
      exact fun _ ↦ ⟨[], some .void, rfl, .skip rfl⟩
    · simp only [Bool.false_eq_true, if_false, run_bind_eq_ok, run_pure_eq_ok] at h
      obtain ⟨p, ts₃, hp, rfl, rfl⟩ := h
      refine .of_eq (literals_word rfl) fun _ ↦ ⟨[p.2], some p.1, rfl, ?_⟩
      exact (spans_readTypedOperand hp).imp fun _ hty _ ↦ hty
  next => exact .of_eq (literals_word rfl) (takes_of_readCall h)
  next => exact absurd h run_throw_ne_ok

/-- **Literals.** The literals on the line of an instruction are its floating operands, in order. Each is
written after a type, which is that of the instruction if the operands share it. -/
theorem typed_of_readInst {taken : List String} {i : Inst String String}
    (h : (readInst taken).run ts = .ok (i, [])) (hop : i.opcode ≠ .alloca) :
    (literals none ts).map (·.2) = i.operation.floats ∧ ∀ x ∈ literals none ts,
      ∃ ty, x.1 = some ty ∧ (i.opcode.sharesType = true → ty = i.ty) := by
  have htakes : RawOperation.Takes (i.ty, i.operation) none ts [] := by
    by_cases hts : ∃ name rest, ts = .localName name :: rest
    · obtain ⟨name, rest, rfl⟩ := hts
      obtain ⟨ts₁, raw, rfl, hraw, -, rfl⟩ := readInst_localName_eq_ok.mp h
      have hskip : literals none (.localName name :: .punct '=' :: ts₁) = literals none ts₁ := rfl
      exact .of_eq hskip (takes_of_readDefinition hraw)
    · obtain ⟨raw, hraw, rfl⟩ := (readInst_eq_ok fun name rest hts' ↦ hts ⟨name, rest, hts'⟩).mp h
      exact takes_of_readStatement hraw
  obtain ⟨os, ty?', hfloats, xs, hxs, htyped⟩ := htakes hop
  -- nothing is left of the line, so there are no other literals
  have hliterals : literals none ts = xs := hxs.trans (List.append_nil xs)
  rw [hliterals]
  exact ⟨htyped.values.trans hfloats.symm, htyped.types⟩

/-! ## Lines with instructions -/

/-- Whether a line begins with a label. -/
def isLabel : List Token → Bool
  | .word _ :: .punct ':' :: _ => true
  | _ => false

/-- Whether a line is no header, no label and no closing brace. -/
def isInstLine (l : Line) : Bool :=
  l.2.head? ≠ some (.word "define") && !isLabel l.2 && l.2 ≠ [.punct '\x7d']

/-- The lines of a text that have instructions. -/
def instLines (text : String) : List Line :=
  match scan text with
  | .ok lines => lines.filter isInstLine
  | .error _ => []

/-- A line was read as an instruction. -/
def DraftInst.StandsOn (l : Line) (i : DraftInst String String) : Prop :=
  i.line = l.1 ∧ ∃ taken, (readInst taken).run l.2 = .ok (i.inst, [])

/-- A line was read as an instruction whose names were resolved then. -/
def StandsOn (l : Line) (j : ResolvedInst) : Prop :=
  ∃ d i, DraftInst.StandsOn l i ∧ DraftInst.Reads d i j

/-- The literals on the line of an instruction are its floating operands. -/
theorem StandsOn.typed {l : Line} {j : ResolvedInst} (h : StandsOn l j) (hop : j.opcode ≠ .alloca) :
    (literals none l.2).map (·.2) = j.operation.floats ∧ ∀ x ∈ literals none l.2,
      ∃ ty, x.1 = some ty ∧ (j.opcode.sharesType = true → ty = j.ty) := by
  obtain ⟨d, i, ⟨-, taken, hread⟩, hreads⟩ := h
  have hop' : i.inst.opcode = j.opcode := hreads.opcode.symm
  obtain ⟨op, hvalues, hblocks⟩ := hreads.operation
  have hfloats : j.operation.floats = i.inst.operation.floats :=
    (Operation.resolves_of_resolve hblocks).floats.trans (Operation.resolves_of_resolve hvalues).floats
  rw [hfloats, hreads.ty, ← hop']
  exact typed_of_readInst hread (hop' ▸ hop)

/-- No instruction begins with `define`. -/
theorem readInst_define_ne_ok {taken : List String} {i : Inst String String} :
    (readInst taken).run (.word "define" :: ts) ≠ .ok (i, ts') := by
  intro h
  obtain ⟨raw, h, -⟩ := (readInst_eq_ok (by simp)).mp h
  rw [readStatement, run_bind_eq_ok] at h
  obtain ⟨op, ts₁, hop, h⟩ := h
  obtain ⟨heq, rfl⟩ := List.cons.inj (word_eq_ok.mp hop)
  obtain rfl := Token.word.inj heq
  exact absurd h run_throw_ne_ok

namespace Draft

variable {d d' : Draft} {f : Func} {line : Nat}

/-- A line within a function opens a block or adds an instruction. -/
theorem insts_addLine (h : d.addLine line ts = .ok d') (hts : ts ≠ [.punct '\x7d']) :
    isInstLine (line, ts) = false ∧ d'.insts = d.insts ∨
      isInstLine (line, ts) = true ∧ ∃ i, d'.insts = d.insts ++ [i] ∧ DraftInst.StandsOn (line, ts) i := by
  by_cases hlabel : ∃ label rest, ts = .word label :: .punct ':' :: rest
  · obtain ⟨label, rest, rfl⟩ := hlabel
    obtain ⟨-, -, rfl⟩ := openBlock_eq_ok.mp (addLine_label_eq_ok.mp h).2
    exact .inl ⟨by simp [isInstLine, isLabel], by simp [insts]⟩
  · -- the first instruction of all opens a block of its own
    obtain ⟨b, bs, hblocks⟩ := d.exists_opened
    have hadd := (addLine_eq_ok fun label rest heq ↦ hlabel ⟨label, rest, heq⟩).mp h
    obtain ⟨-, -, i, hi, -, rfl⟩ := (addInst_eq_ok hblocks).mp hadd
    refine .inr ⟨?_, ⟨line, i⟩, ?_, rfl, _, hi⟩
    · have hhead : ts.head? ≠ some (.word "define") := by
        intro hdefine
        obtain ⟨rest, rfl⟩ := List.head?_eq_some_iff.mp hdefine
        exact absurd hi readInst_define_ne_ok
      have hlabel : isLabel ts = false := isLabel.eq_2 _ fun _ _ heq ↦ hlabel ⟨_, _, heq⟩
      simp [isInstLine, hhead, hlabel, hts]
    · have hopened : d.opened.insts = d.insts := by
        rw [opened]
        split
        next hnil => simp [insts, List.isEmpty_iff.mp hnil]
        next => rfl
      rw [← hopened]
      generalize d.opened = d at hblocks
      obtain ⟨name, ret, params, blocks⟩ := d
      obtain rfl : blocks = b :: bs := hblocks
      exact insts_cons _ b bs

/-- Resolving the names of a function that stands on lines. -/
theorem standsOn_finish {ls : List Line} (hls : List.Forall₂ DraftInst.StandsOn ls d.insts)
    (h : d.finish line = .ok f) : List.Forall₂ StandsOn ls f.insts := by
  obtain ⟨-, -, -, -, hblocks⟩ := finish_eq_ok.mp h
  have hinsts : List.Forall₂ (DraftInst.Reads d) d.insts f.insts :=
    List.rel_flatMap hblocks fun _ _ hb ↦ hb.insts
  refine (forall₂_comp_iff.mp ⟨d.insts, hls, hinsts⟩).imp fun l j ⟨i, hi, hj⟩ ↦ ?_
  exact ⟨d, i, hi, hj⟩

end Draft

theorem header_define {d : Draft} (h : Draft.header.run ts = .ok (d, ts')) :
    ∃ rest, ts = .word "define" :: rest ∧ d.insts = [] := by
  simp only [Draft.header, run_bind_eq_ok, run_pure_eq_ok, keyword_eq_ok] at h
  obtain ⟨_, rest, rfl, ret, _, -, name, _, -, params, _, -, _, _, -, _, _, -, rfl, -⟩ := h
  exact ⟨rest, rfl, rfl⟩

/-- The instructions of the function that is open. -/
def Position.insts (at? : Position) : List (DraftInst String String) :=
  (at?.map (·.2.insts)).getD []

/-- A line goes on with a function or ends it. -/
theorem standsOn_readLine {at? at?' : Position} {l : Line} {func : Option Func} {ls : List Line}
    (h : readLine at? l = .ok (at?', func))
    (hls : List.Forall₂ DraftInst.StandsOn ls (Position.insts at?)) :
    func = none ∧ List.Forall₂ DraftInst.StandsOn (ls ++ [l].filter isInstLine) (Position.insts at?') ∨
      ∃ f, func = some f ∧ at?' = none ∧ isInstLine l = false ∧ List.Forall₂ StandsOn ls f.insts := by
  obtain ⟨line, tokens⟩ := l
  cases at? with
  | none =>
    obtain rfl := List.forall₂_nil_right_iff.mp hls
    rw [readLine] at h
    split at h
    next d rest hhead =>
      obtain ⟨rfl, rfl⟩ := Prod.mk.inj (Except.ok.inj h)
      obtain ⟨rest, rfl, hd⟩ := header_define hhead
      have hline : isInstLine (line, .word "define" :: rest) = false := by simp [isInstLine]
      refine .inl ⟨rfl, ?_⟩
      rw [List.filter_singleton, hline]
      exact List.forall₂_nil_left_iff.mpr hd
    next => cases h
  | some p =>
    obtain ⟨start, d⟩ := p
    rw [readLine] at h
    split at h
    next hclose =>
      obtain ⟨f, hf, h⟩ := Except.bind_eq_ok.mp h
      obtain ⟨rfl, rfl⟩ := Prod.mk.inj (Except.pure_eq_ok.mp h)
      exact .inr ⟨f, rfl, rfl, by simp [isInstLine, hclose], Draft.standsOn_finish hls hf⟩
    next hopen =>
      split at h
      next d' hadd =>
        obtain ⟨rfl, rfl⟩ := Prod.mk.inj (Except.ok.inj h)
        refine .inl ⟨rfl, ?_⟩
        rw [List.filter_singleton]
        rcases Draft.insts_addLine hadd hopen with ⟨hline, hinsts⟩ | ⟨hline, i, hinsts, hi⟩
        · rw [hline]
          change List.Forall₂ _ (ls ++ []) d'.insts
          rwa [List.append_nil, hinsts]
        · rw [hline]
          change List.Forall₂ _ (ls ++ [_]) d'.insts
          rw [hinsts]
          exact List.rel_append hls (.cons hi .nil)
      next => cases h

/-- The instructions that are read are those of the open function and of the lines. -/
theorem standsOn_readLines {at? : Position} {lines ls : List Line}
    (herror : (readLines at? lines).error = none)
    (hls : List.Forall₂ DraftInst.StandsOn ls (Position.insts at?)) :
    List.Forall₂ StandsOn (ls ++ lines.filter isInstLine)
      ((readLines at? lines).functions.flatMap Func.insts) := by
  induction lines generalizing at? ls with
  | nil =>
    cases at? with
    | none =>
      obtain rfl := List.forall₂_nil_right_iff.mp hls
      exact .nil
    | some p => cases herror
  | cons l lines ih =>
    rw [readLines.eq_3] at herror ⊢
    rw [← List.singleton_append, List.filter_append, ← List.append_assoc]
    split
    next e hread =>
      rw [hread] at herror
      cases herror
    next at?' func hread =>
      rw [hread] at herror
      rcases standsOn_readLine hread hls with ⟨rfl, hnext⟩ | ⟨f, rfl, rfl, hline, hf⟩
      · exact ih herror hnext
      · rw [List.filter_singleton, hline]
        change List.Forall₂ _ (ls ++ [] ++ _) ((f :: _).flatMap Func.insts)
        rw [List.append_nil, List.flatMap_cons]
        exact List.rel_append hf (ih herror .nil)

/-- **Instructions of a text.** Those of its functions stand on its lines with instructions, one by
one. -/
theorem standsOn_instLines {text : String} {fs : List Func} (h : parse text = .ok fs) :
    List.Forall₂ StandsOn (instLines text) (fs.flatMap Func.insts) := by
  rw [parse, Reading.toExcept] at h
  split at h
  next herror =>
    obtain rfl := Except.ok.inj h
    cases hscan : scan text with
    | ok lines =>
      have hread : readText text = readLines none lines := by rw [readText, hscan]
      have hlines : instLines text = lines.filter isInstLine := by rw [instLines, hscan]
      rw [hread] at herror ⊢
      rw [hlines]
      exact standsOn_readLines herror .nil
    | error e =>
      have hread : readText text = ⟨[], some e⟩ := by rw [readText, hscan]
      rw [hread] at herror
      cases herror
  next => cases h

end TreeCover.Ir
