import TreeCover.Proofs.Reading.Spelling
import TreeCover.Proofs.Reading.WellFormed

/-!
# The text format

How functions are written. The format is a relation, since a text says more than the function it
stands for: the types of some operands are not kept, and lines can be laid out in many ways. The
functions that can be written are those whose operations have the shape of their form, with literals
of the width of the type written before them; each of them has a text (`exists_isText`).
-/

namespace TreeCover.Ir

/-! ## Types and operands -/

/-- A type that has a name: an integer type has a positive 32-bit width. -/
def Ty.IsWritten : Ty → Prop
  | .int n => 0 < n ∧ n < 0x100000000
  | .void | .ptr | .double => True

def Ty.token (t : Ty) : Token := .word t.text

/-- A token that stands for an operand behind its type, which gives a literal its width. -/
inductive Operand.Spells (ty : Ty) : Operand String → Token → Prop
  | value (name : String) : Spells ty (.value name) (.localName name)
  | int (n : Int) : Spells ty (.int n ty.bits) (.int n)
  | true : Spells ty (.int 1 ty.bits) (.word "true")
  | false : Spells ty (.int 0 ty.bits) (.word "false")
  | null : Spells ty (.int 0 ty.bits) (.word "null")

/-- Items with commas between them. -/
def separated (items : List (List Token)) : List Token := [Token.punct ','].intercalate items

/-- An argument of a call. -/
inductive SpellsArgument : Operand String → List Token → Prop
  | intro {ty : Ty} {o : Operand String} {t : Token} (hty : ty.IsWritten) (ho : o.Spells ty t) :
      SpellsArgument o [ty.token, t]

/-- A value of a phi and the block it comes from. -/
inductive SpellsIncoming (ty : Ty) : Operand String × String → List Token → Prop
  | intro {o : Operand String} {t : Token} {block : String} (ho : o.Spells ty t) :
      SpellsIncoming ty (o, block) [.punct '[', t, .punct ',', .localName block, .punct ']']

/-- A parameter in the header of a function. -/
def Param.tokens (p : Param) : List Token := [p.ty.token, .localName p.name]

/-! ## Instructions -/

/-- The tokens of a call. -/
inductive SpellsCall : Ty → Operation String String → List Token → Prop
  | call {ty : Ty} {callee : String} {args : List (Operand String)} {items : List (List Token)}
      (hargs : List.Forall₂ SpellsArgument args items) :
      SpellsCall ty (.call callee args)
        (.word "call" :: ty.token :: .globalName callee :: .punct '(' ::
          (separated items ++ [.punct ')']))

/-- The tokens of an operation behind `%name =`, with the type of its result. -/
inductive SpellsDefinition : Ty → Operation String String → List Token → Prop
  | binary {ty : Ty} {op : BinaryOp} {a b : Operand String} {s t : Token} (ha : a.Spells ty s)
      (hb : b.Spells ty t) :
      SpellsDefinition ty (.binary op a b) [.word op.text, ty.token, s, .punct ',', t]
  | cast {ty source : Ty} {op : CastOp} {a : Operand String} {s : Token}
      (hsource : source.IsWritten) (ha : a.Spells source s) :
      SpellsDefinition ty (.cast op a) [.word op.text, source.token, s, .word "to", ty.token]
  | icmp {source : Ty} {p : Predicate} {a b : Operand String} {s t : Token}
      (hsource : source.IsWritten) (ha : a.Spells source s) (hb : b.Spells source t) :
      SpellsDefinition (.int 1) (.icmp p a b)
        [.word "icmp", .word p.text, source.token, s, .punct ',', t]
  | alloca {ty : Ty} : SpellsDefinition ty .alloca [.word "alloca", ty.token]
  | alignedAlloca {ty : Ty} (n : Int) :
      SpellsDefinition ty .alloca [.word "alloca", ty.token, .punct ',', .word "align", .int n]
  | load {ty : Ty} {a : Operand String} {s : Token} (ha : a.Spells .ptr s) :
      SpellsDefinition ty (.load a) [.word "load", ty.token, .punct ',', Ty.ptr.token, s]
  | phi {ty : Ty} {pairs : List (Operand String × String)} {items : List (List Token)}
      (hpairs : List.Forall₂ (SpellsIncoming ty) pairs items) (hne : pairs ≠ []) :
      SpellsDefinition ty (.phi pairs) (.word "phi" :: ty.token :: separated items)
  | call {ty : Ty} {op : Operation String String} {ts : List Token} (h : SpellsCall ty op ts) :
      SpellsDefinition ty op ts

/-- The tokens of an operation without a result, or of a call that does not name it. -/
inductive SpellsStatement : Ty → Operation String String → List Token → Prop
  | store {ty : Ty} {v a : Operand String} {s t : Token} (hv : v.Spells ty s)
      (ha : a.Spells .ptr t) :
      SpellsStatement ty (.store v a)
        [.word "store", ty.token, s, .punct ',', Ty.ptr.token, t]
  | br {target : String} :
      SpellsStatement .void (.br target) [.word "br", .word "label", .localName target]
  | condBr {source : Ty} {c : Operand String} {s : Token} {onTrue onFalse : String}
      (hsource : source.IsWritten) (hc : c.Spells source s) :
      SpellsStatement .void (.condBr c onTrue onFalse)
        [.word "br", source.token, s, .punct ',', .word "label", .localName onTrue, .punct ',',
          .word "label", .localName onFalse]
  | retVoid : SpellsStatement .void (.ret none) [.word "ret", Ty.void.token]
  | ret {ty : Ty} {v : Operand String} {s : Token} (hty : ty ≠ .void) (hv : v.Spells ty s) :
      SpellsStatement ty (.ret (some v)) [.word "ret", ty.token, s]
  | call {ty : Ty} {op : Operation String String} {ts : List Token} (h : SpellsCall ty op ts) :
      SpellsStatement ty op ts

/-- The tokens of an instruction. -/
inductive Inst.Spells : Inst String String → List Token → Prop
  | definition {name : String} {ty : Ty} {op : Operation String String} {ts : List Token}
      (h : SpellsDefinition ty op ts) :
      Spells ⟨some name, ty, op⟩ (.localName name :: .punct '=' :: ts)
  | statement {ty : Ty} {op : Operation String String} {ts : List Token}
      (h : SpellsStatement ty op ts) : Spells ⟨none, ty, op⟩ ts

/-! ## Functions -/

namespace Func

variable (f : Func)

/-- The name of a value. -/
def valueName? : Value → Option String
  | .arg k => f.params[k]?.map (·.name)
  | .inst id => (f.inst? id).bind (·.name)

/-- The name of a block. -/
def blockName? (b : BlockId) : Option String := f.blocks[b]?.map (·.name)

/-- An instruction with names in the place of numbers. -/
structure Names (i : ResolvedInst) (j : Inst String String) : Prop where
  name : j.name = i.name
  ty : j.ty = i.ty
  operation : i.operation.resolve f.valueName? f.blockName? = some j.operation

/-- The line of an instruction. -/
def SpellsInst (i : ResolvedInst) (line : List Token) : Prop := ∃ j, f.Names i j ∧ j.Spells line

/-- The lines of a block: its label and its instructions. -/
inductive SpellsBlock (block : Block) : List (List Token) → Prop
  | intro {lines : List (List Token)} (h : List.Forall₂ f.SpellsInst block.insts lines) :
      SpellsBlock block ([.word block.name, .punct ':'] :: lines)

/-- The line that opens a function. -/
def header : List Token :=
  .word "define" :: f.ret.token :: .globalName f.name :: .punct '(' ::
    (separated (f.params.map Param.tokens) ++ [.punct ')', .punct '\x7b'])

/-- The lines of a function. If the first block has the name `entry`, no label is needed. -/
inductive Spells : List (List Token) → Prop
  | labelled {groups : List (List (List Token))} (h : List.Forall₂ f.SpellsBlock f.blocks groups) :
      Spells (f.header :: (groups.flatten ++ [[.punct '\x7d']]))
  | unlabelled {entry : Block} {blocks : List Block} {lines : List (List Token)}
      {groups : List (List (List Token))} (hblocks : f.blocks = entry :: blocks)
      (hname : entry.name = "entry") (hentry : List.Forall₂ f.SpellsInst entry.insts lines)
      (h : List.Forall₂ f.SpellsBlock blocks groups) :
      Spells (f.header :: (lines ++ groups.flatten ++ [[.punct '\x7d']]))

end Func

/-- A text of functions: one after the other, in lines laid out in any way. Lines without tokens may
stand anywhere. -/
inductive IsText (fs : List Func) : String → Prop
  | intro {text : String} {groups : List (List (List Token))}
      {lines : List (List Token × List Char)} (hfs : List.Forall₂ Func.Spells fs groups)
      (htokens : (lines.map (·.1)).filter (fun ts ↦ !ts.isEmpty) = groups.flatten)
      (hlaid : ∀ l ∈ lines, Laid l.1 l.2 ∧ '\n' ∉ l.2) (hlines : lines ≠ [])
      (htext : text.toList = ['\n'].intercalate (lines.map (·.2))) : IsText fs text

/-! ## What can be written -/

/-- An operand that can stand behind the type: a literal is a 128-bit integer of its width. -/
def Operand.Fits {ν : Type} (ty : Ty) : Operand ν → Prop
  | .int n bits => bits = ty.bits ∧ fitsSigned 128 n = true
  | .float _ => False
  | .value _ => True

/-- An instruction of the shape of its form. Whatever has a result has a name, except that a call may
have none. -/
def Inst.Writable {ν β : Type} (i : Inst ν β) : Prop :=
  i.ty.IsWritten ∧
    match i.operation with
    | .binary _ a b => i.name.isSome = true ∧ a.Fits i.ty ∧ b.Fits i.ty
    | .cast _ a => i.name.isSome = true ∧ ∃ source : Ty, source.IsWritten ∧ a.Fits source
    | .icmp _ a b => i.name.isSome = true ∧ i.ty = .int 1 ∧
        ∃ source : Ty, source.IsWritten ∧ a.Fits source ∧ b.Fits source
    | .alloca => i.name.isSome = true
    | .load a => i.name.isSome = true ∧ a.Fits .ptr
    | .store v a => i.name = none ∧ v.Fits i.ty ∧ a.Fits .ptr
    | .br _ => i.name = none ∧ i.ty = .void
    | .condBr c _ _ => i.name = none ∧ i.ty = .void ∧ ∃ source : Ty, source.IsWritten ∧ c.Fits source
    | .ret none => i.name = none ∧ i.ty = .void
    | .ret (some v) => i.name = none ∧ i.ty ≠ .void ∧ v.Fits i.ty
    | .call callee args => IsName callee ∧ ∀ a ∈ args, ∃ ty : Ty, ty.IsWritten ∧ a.Fits ty
    | .phi pairs => i.name.isSome = true ∧ pairs ≠ [] ∧ ∀ p ∈ pairs, p.1.Fits i.ty

/-- A well-formed function whose names are words and whose instructions have the shape of their
forms. -/
structure Func.Writable (f : Func) : Prop where
  wellFormed : f.WellFormed
  name : IsName f.name
  ret : f.ret.IsWritten
  params : ∀ p ∈ f.params, p.ty.IsWritten
  valueNames : ∀ name ∈ f.params.map (·.name) ++ f.insts.filterMap (·.name), IsName name
  blockNames : ∀ block ∈ f.blocks, IsWord block.name
  insts : ∀ i ∈ f.insts, i.Writable

/-! ## Tokens that can be spelled -/

/-- A token that has a spelling. -/
def Token.Spellable (t : Token) : Prop := ∃ w, t.Spells w

-- the characters of the name are looked through, not all there are
instance (s : String) : Decidable (IsName s) :=
  @instDecidableAnd _ _ inferInstance (List.decidableBAll _ _)

instance (s : String) : Decidable (IsWord s) :=
  @instDecidableAnd _ _ inferInstance (Option.decidableForallMem _)

namespace Token

theorem spellable_word {s : String} (hs : IsWord s) : (word s).Spellable := ⟨_, .word hs⟩

theorem spellable_localName {s : String} (hs : IsName s) : (localName s).Spellable :=
  ⟨_, .localName hs⟩

theorem spellable_globalName {s : String} (hs : IsName s) : (globalName s).Spellable :=
  ⟨_, .globalName hs⟩

theorem spellable_int {n : Int} (hn : fitsSigned 128 n = true) : (int n).Spellable := ⟨_, .int hn⟩

theorem spellable_punct {c : Char} (hc : isPunct c = true) : (punct c).Spellable := ⟨_, .punct hc⟩

end Token

theorem BinaryOp.isWord_text (op : BinaryOp) : IsWord op.text := by cases op <;> decide

theorem CastOp.isWord_text (op : CastOp) : IsWord op.text := by cases op <;> decide

theorem Predicate.isWord_text (p : Predicate) : IsWord p.text := by cases p <;> decide

theorem Ty.isWord_text (ty : Ty) : IsWord ty.text := by
  cases ty with
  | int n =>
    have htext : (Ty.int n).text.toList = 'i' :: Nat.toDigits 10 n := by
      rw [text, String.toList_append]
      exact congrArg ('i' :: ·) Nat.toList_repr
    refine ⟨⟨fun h ↦ ?_, fun c hc ↦ ?_⟩, fun c hc ↦ ?_⟩
    · rw [h] at htext
      exact absurd htext nofun
    · rcases List.mem_cons.mp (htext ▸ hc) with rfl | hc
      · decide
      · have hdigit : c.isDigit = true := Nat.isDigit_of_mem_toDigits (by decide) (by decide) hc
        rw [isNameChar, Char.isAlphanum, hdigit, Bool.or_true, Bool.true_or, Bool.true_or]
    · rw [htext] at hc
      obtain rfl := Option.some.inj hc
      decide
  | _ => decide

@[simp] theorem Ty.spellable_token (ty : Ty) : ty.token.Spellable := Token.spellable_word ty.isWord_text

/-! ## Every function has a text -/

/-- No spelling breaks a line. -/
theorem Token.Spells.lineFeed_not_mem {t : Token} {w : List Char} (h : t.Spells w) : '\n' ∉ w := by
  have hname : ∀ {s : String}, IsName s → '\n' ∉ s.toList := fun hs hfeed ↦
    absurd (hs.2 _ hfeed) (by decide)
  cases h with
  | word hs => exact hname hs.1
  | localName hs => exact List.not_mem_cons_of_ne_of_not_mem (by decide) (hname hs)
  | globalName hs => exact List.not_mem_cons_of_ne_of_not_mem (by decide) (hname hs)
  | @int n hn =>
    obtain ⟨c, w, hcw, hw, hc⟩ := exists_digits n
    rw [hcw]
    refine List.not_mem_cons_of_ne_of_not_mem ?_ fun hfeed ↦ absurd (hw _ hfeed) (by decide)
    rintro rfl
    rcases hc with hc | ⟨hc, -⟩
    · exact absurd hc (by decide)
    · exact absurd hc (by decide)
  | @punct c hc =>
    rw [List.mem_singleton]
    rintro rfl
    exact absurd hc (by decide)

theorem Token.goesOn_blank (t : Token) : t.goesOn ' ' = false := by cases t <;> rfl

/-- Tokens can be laid out with one blank behind each. -/
theorem exists_laid {ts : List Token} (hts : ∀ t ∈ ts, t.Spellable) :
    ∃ cs, Laid ts cs ∧ '\n' ∉ cs := by
  induction ts with
  | nil => exact ⟨[], .nil, List.not_mem_nil⟩
  | cons t ts ih =>
    obtain ⟨⟨w, hw⟩, hts⟩ := List.forall_mem_cons.mp hts
    obtain ⟨cs, hcs, hfeed⟩ := ih hts
    refine ⟨w ++ ' ' :: cs, .token hw (fun c hc ↦ ?_) (.blank (by decide) hcs), ?_⟩
    · obtain rfl := Option.some.inj hc
      exact t.goesOn_blank
    · rw [List.mem_append, List.mem_cons, not_or, not_or]
      exact ⟨hw.lineFeed_not_mem, by decide, hfeed⟩

theorem spellable_separated {items : List (List Token)}
    (h : ∀ item ∈ items, ∀ t ∈ item, t.Spellable) : ∀ t ∈ separated items, t.Spellable := by
  induction items with
  | nil => exact fun t ht ↦ absurd ht List.not_mem_nil
  | cons item items ih =>
    obtain ⟨hitem, hitems⟩ := List.forall_mem_cons.mp h
    cases items with
    | nil => rwa [separated, List.intercalate_singleton]
    | cons item' items =>
      rw [separated, List.intercalate_cons_cons]
      refine List.forall_mem_append.mpr ⟨List.forall_mem_append.mpr ⟨hitem, fun t ht ↦ ?_⟩, ih hitems⟩
      obtain rfl := List.mem_singleton.mp ht
      exact Token.spellable_punct (by decide)

/-- What can be found for each item of a list can be found for all of them. -/
theorem exists_forall₂ {α β : Type} {R : α → β → Prop} {P : β → Prop} (xs : List α)
    (h : ∀ x ∈ xs, ∃ y, R x y ∧ P y) : ∃ ys, List.Forall₂ R xs ys ∧ ∀ y ∈ ys, P y := by
  induction xs with
  | nil => exact ⟨[], .nil, fun _ h ↦ absurd h List.not_mem_nil⟩
  | cons x xs ih =>
    obtain ⟨⟨y, hx, hy⟩, hxs⟩ := List.forall_mem_cons.mp h
    obtain ⟨ys, hys, hspell⟩ := ih hxs
    exact ⟨y :: ys, .cons hx hys, List.forall_mem_cons.mpr ⟨hy, hspell⟩⟩

/-- A list has a result if its items have, and these are its items. -/
theorem Option.mapM_eq_some_iff {α β : Type} {f : α → Option β} {xs : List α} {ys : List β} :
    xs.mapM f = some ys ↔ List.Forall₂ (fun x y ↦ f x = some y) xs ys := by
  induction xs generalizing ys with
  | nil => simp [List.forall₂_nil_left_iff, eq_comm]
  | cons x xs ih =>
    simp only [List.mapM_cons, List.forall₂_cons_left_iff, ← ih, Option.bind_eq_bind,
      Option.bind_eq_some_iff, Option.pure_def, Option.some.injEq]
    constructor
    · rintro ⟨y, hy, ys', hys, rfl⟩
      exact ⟨y, ys', hy, hys, rfl⟩
    · rintro ⟨y, ys', hy, hys, rfl⟩
      exact ⟨y, hy, ys', hys, rfl⟩

theorem Inst.Spells.ne_nil {i : Inst String String} {ts : List Token} (h : i.Spells ts) :
    ts ≠ [] := by
  cases h with
  | definition h => exact nofun
  | statement h =>
    cases h with
    | call h => cases h; exact nofun
    | _ => exact nofun

theorem Func.SpellsInst.ne_nil {f : Func} {i : ResolvedInst} {line : List Token}
    (h : f.SpellsInst i line) : line ≠ [] := by
  obtain ⟨j, -, hj⟩ := h
  exact hj.ne_nil

namespace Func.Writable

variable {f : Func} {i : ResolvedInst}

theorem exists_valueName (hf : f.Writable) {v : Value} (hv : f.Defines v) :
    ∃ name, f.valueName? v = some name ∧ IsName name := by
  cases v with
  | arg k =>
    have hk : k < f.params.length := hv
    refine ⟨f.params[k].name, ?_, hf.valueNames _ (List.mem_append_left _ ?_)⟩
    · rw [valueName?, List.getElem?_eq_getElem hk]
      rfl
    · exact List.mem_map_of_mem (List.getElem_mem hk)
  | inst id =>
    obtain ⟨i, hi, hname⟩ := hv
    obtain ⟨name, hname⟩ := Option.isSome_iff_exists.mp hname
    refine ⟨name, ?_, hf.valueNames _ (List.mem_append_right _ ?_)⟩
    · rw [valueName?, hi]
      exact hname
    · exact List.mem_filterMap.mpr ⟨i, List.mem_of_getElem? hi, hname⟩

theorem exists_operand (hf : f.Writable) (hi : i ∈ f.insts) (o : Operand Value) (ty : Ty)
    (ho : .operand o ∈ i.operation.places) (hfits : o.Fits ty) :
    ∃ o' t, o.resolve f.valueName? = some o' ∧ o'.Spells ty t ∧ t.Spellable := by
  cases o with
  | int n bits =>
    obtain ⟨rfl, hn⟩ := hfits
    exact ⟨_, _, rfl, .int n, Token.spellable_int hn⟩
  | float x => exact hfits.elim
  | value v =>
    obtain ⟨name, hname, hword⟩ := hf.exists_valueName (hf.wellFormed.values i hi v ho)
    refine ⟨.value name, _, ?_, .value name, Token.spellable_localName hword⟩
    rw [Operand.resolve, hname]
    rfl

theorem exists_block (hf : f.Writable) (hi : i ∈ f.insts) (b : BlockId)
    (hb : .block b ∈ i.operation.places) :
    ∃ name, f.blockName? b = some name ∧ (Token.localName name).Spellable := by
  have hlt := hf.wellFormed.targets i hi b (Operation.mem_blocks_iff.mpr hb)
  refine ⟨f.blocks[b].name, ?_, Token.spellable_localName (hf.blockNames _ (List.getElem_mem hlt)).1⟩
  rw [blockName?, List.getElem?_eq_getElem hlt]
  rfl

theorem exists_line_of_definition {name : Option String} {ty : Ty} {op : Operation Value BlockId}
    {op' : Operation String String} {ts : List Token} (hf : f.Writable)
    (hi : ⟨name, ty, op⟩ ∈ f.insts) (hname : name.isSome = true)
    (hop : op.resolve f.valueName? f.blockName? = some op') (hts : SpellsDefinition ty op' ts)
    (hspell : ∀ t ∈ ts, t.Spellable) :
    ∃ line, f.SpellsInst ⟨name, ty, op⟩ line ∧ ∀ t ∈ line, t.Spellable := by
  obtain ⟨s, rfl⟩ := Option.isSome_iff_exists.mp hname
  have hs : IsName s := hf.valueNames _ (List.mem_append_right _ (List.mem_filterMap.mpr ⟨_, hi, rfl⟩))
  refine ⟨_, ⟨⟨some s, ty, op'⟩, ⟨rfl, rfl, hop⟩, .definition hts⟩, ?_⟩
  exact List.forall_mem_cons.mpr ⟨Token.spellable_localName hs,
    List.forall_mem_cons.mpr ⟨Token.spellable_punct (by decide), hspell⟩⟩

theorem exists_line_of_statement {name : Option String} {ty : Ty} {op : Operation Value BlockId}
    {op' : Operation String String} {ts : List Token} (hname : name = none)
    (hop : op.resolve f.valueName? f.blockName? = some op') (hts : SpellsStatement ty op' ts)
    (hspell : ∀ t ∈ ts, t.Spellable) :
    ∃ line, f.SpellsInst ⟨name, ty, op⟩ line ∧ ∀ t ∈ line, t.Spellable :=
  ⟨_, ⟨⟨none, ty, op'⟩, ⟨hname.symm, rfl, hop⟩, .statement hts⟩, hspell⟩

/-- Every instruction has a line. -/
theorem exists_spellsInst (hf : f.Writable) (hi : i ∈ f.insts) :
    ∃ line, f.SpellsInst i line ∧ ∀ t ∈ line, t.Spellable := by
  have hoperand := hf.exists_operand hi
  have hblock := hf.exists_block hi
  obtain ⟨-, hshape⟩ := hf.insts i hi
  obtain ⟨name, ty, op⟩ := i
  cases op with
  | binary op a b =>
    obtain ⟨hname, ha, hb⟩ := hshape
    obtain ⟨a', s, ha', has, hs⟩ := hoperand a ty (by simp [Operation.places]) ha
    obtain ⟨b', t, hb', hbt, ht⟩ := hoperand b ty (by simp [Operation.places]) hb
    refine hf.exists_line_of_definition hi hname (by rw [Operation.resolve, ha', hb']; rfl)
      (.binary has hbt) ?_
    simp (disch := decide) [Token.spellable_word op.isWord_text, Token.spellable_punct, hs, ht]
  | cast op a =>
    obtain ⟨hname, source, hsource, ha⟩ := hshape
    obtain ⟨a', s, ha', has, hs⟩ := hoperand a source (by simp [Operation.places]) ha
    refine hf.exists_line_of_definition hi hname (by rw [Operation.resolve, ha']; rfl)
      (.cast hsource has) ?_
    simp (disch := decide) [Token.spellable_word op.isWord_text, Token.spellable_word, hs]
  | icmp p a b =>
    obtain ⟨hname, rfl, source, hsource, ha, hb⟩ := hshape
    obtain ⟨a', s, ha', has, hs⟩ := hoperand a source (by simp [Operation.places]) ha
    obtain ⟨b', t, hb', hbt, ht⟩ := hoperand b source (by simp [Operation.places]) hb
    refine hf.exists_line_of_definition hi hname (by rw [Operation.resolve, ha', hb']; rfl)
      (.icmp hsource has hbt) ?_
    simp (disch := decide) [Token.spellable_word p.isWord_text, Token.spellable_word,
      Token.spellable_punct, hs, ht]
  | alloca =>
    refine hf.exists_line_of_definition hi hshape rfl .alloca ?_
    simp (disch := decide) [Token.spellable_word]
  | load a =>
    obtain ⟨hname, ha⟩ := hshape
    obtain ⟨a', s, ha', has, hs⟩ := hoperand a .ptr (by simp [Operation.places]) ha
    refine hf.exists_line_of_definition hi hname (by rw [Operation.resolve, ha']; rfl)
      (.load has) ?_
    simp (disch := decide) [Token.spellable_word, Token.spellable_punct, hs]
  | store v a =>
    obtain ⟨hname, hv, ha⟩ := hshape
    obtain ⟨v', s, hv', hvs, hs⟩ := hoperand v ty (by simp [Operation.places]) hv
    obtain ⟨a', t, ha', hat, ht⟩ := hoperand a .ptr (by simp [Operation.places]) ha
    refine exists_line_of_statement hname (by rw [Operation.resolve, hv', ha']; rfl)
      (.store hvs hat) ?_
    simp (disch := decide) [Token.spellable_word, Token.spellable_punct, hs, ht]
  | br target =>
    obtain ⟨hname, rfl⟩ := hshape
    obtain ⟨target', htarget, hspell⟩ := hblock target (by simp [Operation.places])
    refine exists_line_of_statement hname (by rw [Operation.resolve, htarget]; rfl) .br ?_
    simp (disch := decide) [Token.spellable_word, hspell]
  | condBr c onTrue onFalse =>
    obtain ⟨hname, rfl, source, hsource, hc⟩ := hshape
    obtain ⟨c', s, hc', hcs, hs⟩ := hoperand c source (by simp [Operation.places]) hc
    obtain ⟨onTrue', htrue, hspell⟩ := hblock onTrue (by simp [Operation.places])
    obtain ⟨onFalse', hfalse, hspell'⟩ := hblock onFalse (by simp [Operation.places])
    refine exists_line_of_statement hname (by rw [Operation.resolve, hc', htrue, hfalse]; rfl)
      (.condBr hsource hcs) ?_
    simp (disch := decide) [Token.spellable_word, Token.spellable_punct, hs, hspell, hspell']
  | ret v =>
    cases v with
    | none =>
      obtain ⟨hname, rfl⟩ := hshape
      refine exists_line_of_statement hname rfl .retVoid ?_
      simp (disch := decide) [Token.spellable_word]
    | some v =>
      obtain ⟨hname, hty, hv⟩ := hshape
      obtain ⟨v', s, hv', hvs, hs⟩ := hoperand v ty (by simp [Operation.places]) hv
      refine exists_line_of_statement hname (by rw [Operation.resolve, hv']; rfl)
        (.ret hty hvs) ?_
      simp (disch := decide) [Token.spellable_word, hs]
  | call callee args =>
    obtain ⟨hcallee, hargs⟩ := hshape
    obtain ⟨items, hitems, hspell⟩ := exists_forall₂ (P := fun ts ↦ ∀ t ∈ ts, Token.Spellable t)
      (R := fun a ts ↦ ∃ a', Operand.resolve f.valueName? a = some a' ∧ SpellsArgument a' ts)
      args fun a ha ↦ by
        obtain ⟨source, hsource, hfits⟩ := hargs a ha
        obtain ⟨a', s, ha', has, hs⟩ := hoperand a source (by simp [Operation.places, ha]) hfits
        exact ⟨_, ⟨a', ha', .intro hsource has⟩, by simp [hs]⟩
    obtain ⟨args', hargs', hitems⟩ := forall₂_comp_iff.mpr hitems
    have hop : (Operation.call callee args).resolve f.valueName? f.blockName? =
        some (.call callee args') := by
      rw [Operation.resolve, Option.mapM_eq_some_iff.mpr hargs']
      rfl
    have hcall : SpellsCall ty (.call callee args') _ := .call hitems
    have hspellable := spellable_separated hspell
    have hline : ∀ t ∈ (.word "call" :: ty.token :: .globalName callee :: .punct '(' ::
        (separated items ++ [.punct ')']) : List Token), t.Spellable := by
      simpa (disch := decide) [Token.spellable_word, Token.spellable_punct,
        Token.spellable_globalName hcallee, or_imp, forall_and] using hspellable
    cases hname : name with
    | some s => exact hf.exists_line_of_definition (hname ▸ hi) rfl hop (.call hcall) hline
    | none => exact exists_line_of_statement rfl hop (.call hcall) hline
  | phi pairs =>
    obtain ⟨hname, hne, hpairs⟩ := hshape
    obtain ⟨items, hitems, hspell⟩ := exists_forall₂ (P := fun ts ↦ ∀ t ∈ ts, Token.Spellable t)
      (R := fun p ts ↦ ∃ p', (do return (← p.1.resolve f.valueName?, ← f.blockName? p.2)) = some p' ∧
        SpellsIncoming ty p' ts) pairs fun p hp ↦ by
        obtain ⟨a', s, ha', has, hs⟩ := hoperand p.1 ty
          (by simp only [Operation.places, List.mem_flatMap]; exact ⟨p, hp, by simp⟩) (hpairs p hp)
        obtain ⟨b', hb', hb⟩ := hblock p.2
          (by simp only [Operation.places, List.mem_flatMap]; exact ⟨p, hp, by simp⟩)
        refine ⟨_, ⟨(a', b'), by rw [ha', hb']; rfl, .intro has⟩, ?_⟩
        simp (disch := decide) [Token.spellable_punct, hs, hb]
    obtain ⟨pairs', hpairs', hitems⟩ := forall₂_comp_iff.mpr hitems
    have hop : (Operation.phi pairs).resolve f.valueName? f.blockName? = some (.phi pairs') := by
      rw [Operation.resolve, Option.mapM_eq_some_iff.mpr hpairs']
      rfl
    have hne' : pairs' ≠ [] := fun h ↦ hne (by
      rw [h] at hpairs'
      exact List.forall₂_nil_right_iff.mp hpairs')
    refine hf.exists_line_of_definition hi hname hop (.phi hitems hne') ?_
    have hspellable := spellable_separated hspell
    simpa (disch := decide) [Token.spellable_word] using hspellable

/-- Every function has lines. -/
theorem exists_spells (hf : f.Writable) :
    ∃ lines, f.Spells lines ∧ ∀ line ∈ lines, line ≠ [] ∧ ∀ t ∈ line, t.Spellable := by
  obtain ⟨groups, hgroups, hlines⟩ := exists_forall₂ (R := f.SpellsBlock)
    (P := fun lines ↦ ∀ line ∈ lines, line ≠ [] ∧ ∀ t ∈ line, Token.Spellable t) f.blocks
    fun block hblock ↦ by
      obtain ⟨lines, hlines, hspell⟩ := exists_forall₂ (R := f.SpellsInst)
        (P := fun line ↦ line ≠ [] ∧ ∀ t ∈ line, Token.Spellable t) block.insts fun i hi ↦ by
          obtain ⟨line, hline, hspell⟩ := hf.exists_spellsInst
            (List.mem_flatMap.mpr ⟨block, hblock, hi⟩)
          exact ⟨line, hline, hline.ne_nil, hspell⟩
      refine ⟨_, .intro hlines, List.forall_mem_cons.mpr ⟨⟨nofun, ?_⟩, hspell⟩⟩
      simp (disch := decide) [Token.spellable_word (hf.blockNames block hblock),
        Token.spellable_punct]
  refine ⟨_, .labelled hgroups, List.forall_mem_cons.mpr ⟨⟨nofun, ?_⟩, ?_⟩⟩
  · have hparams : ∀ t ∈ separated (f.params.map Param.tokens), t.Spellable := by
      refine spellable_separated fun item hitem ↦ ?_
      obtain ⟨p, hp, rfl⟩ := List.mem_map.mp hitem
      have hname : IsName p.name := hf.valueNames _ (List.mem_append_left _ (List.mem_map_of_mem hp))
      simp [Param.tokens, Token.spellable_localName hname]
    simpa (disch := decide) [header, Token.spellable_word, Token.spellable_punct,
      Token.spellable_globalName hf.name, or_imp, forall_and] using hparams
  · refine List.forall_mem_append.mpr ⟨fun line hline ↦ ?_, ?_⟩
    · obtain ⟨lines, hmem, hline⟩ := List.mem_flatten.mp hline
      exact hlines lines hmem line hline
    · simp (disch := decide) [Token.spellable_punct]

end Func.Writable

/-- Functions that can be written have a text. -/
theorem exists_isText {fs : List Func} (hfs : ∀ f ∈ fs, f.Writable) : ∃ text, IsText fs text := by
  obtain ⟨groups, hgroups, hlines⟩ := exists_forall₂ fs fun f hf ↦ (hfs f hf).exists_spells
  obtain ⟨css, hcss, -⟩ := exists_forall₂ (P := fun _ ↦ True)
    (R := fun ts cs ↦ Laid ts cs ∧ '\n' ∉ cs) (groups.flatten ++ [[]]) fun ts hts ↦ by
      have hspell : ∀ t ∈ ts, t.Spellable := by
        rcases List.mem_append.mp hts with hts | hts
        · obtain ⟨lines, hmem, hline⟩ := List.mem_flatten.mp hts
          exact (hlines lines hmem ts hline).2
        · obtain rfl := List.mem_singleton.mp hts
          exact fun t ht ↦ absurd ht List.not_mem_nil
      obtain ⟨cs, hcs⟩ := exists_laid hspell
      exact ⟨cs, hcs, trivial⟩
  have hlength := hcss.length_eq
  refine ⟨String.ofList (['\n'].intercalate (((groups.flatten ++ [[]]).zip css).map Prod.snd)),
    .intro hgroups ?_ ?_ ?_ String.toList_ofList⟩
  · rw [List.map_fst_zip hlength.le, List.filter_append, List.filter_eq_self.mpr]
    · simp
    · intro ts hts
      obtain ⟨lines, hmem, hline⟩ := List.mem_flatten.mp hts
      simpa using (hlines lines hmem ts hline).1
  · intro l hl
    exact List.forall₂_iff_zip.mp hcss |>.2 hl
  · intro h
    have := congrArg List.length h
    simp [List.length_zip, ← hlength] at this

end TreeCover.Ir
