import TreeCover.Proofs.Forest.Demands
import TreeCover.Proofs.Reading.Literals

/-!
# Literals and the types of instructions

The reader drops the type that a floating literal is written with, and building goes by the type of the
instruction: a literal is refused where that is an integer type, except in a store. The two types are one
for binary operators, phis and returns. Main statement: `literals_judged`.
-/

namespace TreeCover

open Ir Machine Work

variable {text : String} {fs : List Func} {f : Func} {n : Nat} {x : Binary64}

/-- Whether a type is an integer type. -/
def Ir.Ty.isInt : Ty → Bool
  | .int _ => true
  | _ => false

/-- The literals on the lines of a text with instructions. -/
def writtenLiterals (text : String) : List (List (Option Ty × Binary64)) :=
  (instLines text).map fun l ↦ literals none l.2

/-- Literal number `r` on the line of instruction number `k` of a text, with the type that is written
before it. -/
def writtenLiteral? (text : String) (k r : Nat) : Option (Option Ty × Binary64) :=
  (writtenLiterals text)[k]?.bind (·[r]?)

/-- How many instructions stand before function number `n` of a text. -/
def instsBefore (fs : List Func) (n : Nat) : Nat := ((fs.take n).flatMap Func.insts).length

namespace Ir.Func.Demand

/-- Which of the floating operands of its instruction a demand is for, if it is for one. -/
def floatsBefore (q : Demand) : Nat := q.inst.operation.floatsBefore q.idx

variable {q : Demand}

theorem fault?_eq_none_iff (hx : q.operand? = some (.float x)) :
    q.fault? f = none ↔ q.inst.opcode = .store ∨ q.inst.ty.isInt = false := by
  rw [fault?, hx, Inst.refusesDouble]
  cases q.inst.ty with
  | int bits => by_cases hstore : q.inst.opcode = .store <;> simp [hstore, Ty.isInt]
  | _ => simp [Ty.isInt]

/-- A floating literal that building asks for stands in the text, behind a type. -/
theorem exists_written (hparse : parse text = .ok fs) (hf : fs[n]? = some f) (hq : q ∈ f.demands)
    (hx : q.operand? = some (.float x)) :
    ∃ ty, writtenLiteral? text (instsBefore fs n + q.user) q.floatsBefore = some (some ty, x) ∧
      (q.inst.opcode.sharesType = true → ty = q.inst.ty) := by
  obtain ⟨hinst, hplace⟩ := place_of_mem_demands hq hx
  have hinst : (fs.flatMap Func.insts)[instsBefore fs n + q.user]? = some q.inst :=
    getElem?_flatMap_take hf hinst
  obtain ⟨l, hl, hstands⟩ := exists_getElem?_of_forall₂ (standsOn_instLines hparse) hinst
  have hop : q.inst.opcode ≠ .alloca := by
    intro hop
    rw [Inst.opcode] at hop
    cases hoperation : q.inst.operation with
    | alloca =>
      rw [hoperation] at hplace
      cases hplace
    | _ =>
      rw [hoperation] at hop
      cases hop
  obtain ⟨hvalues, htypes⟩ := hstands.typed hop
  have hfloat : ((literals none l.2).map (·.2))[q.floatsBefore]? = some x :=
    hvalues ▸ Operation.getElem?_floats hplace
  rw [List.getElem?_map] at hfloat
  obtain ⟨⟨ty?, x'⟩, hliteral, rfl⟩ := Option.map_eq_some_iff.mp hfloat
  obtain ⟨ty, rfl, hshared⟩ := htypes _ (List.mem_of_getElem? hliteral)
  refine ⟨ty, ?_, hshared⟩
  rw [writtenLiteral?, writtenLiterals, List.getElem?_map, hl]
  exact hliteral

end Ir.Func.Demand

/-- **Literals.** Building fails for a floating literal exactly if that is the first operand that cannot
be resolved. A literal in a store can be. One that is written with an integer type cannot be if its
instruction has an integer type too, and one that is written with another type can be if its instruction
has none either; what a binary operator, a phi or a return has is the type that is written. -/
theorem literals_judged (hparse : parse text = .ok fs) (hf : fs[n]? = some f) :
    (∀ s x op, (∃ w, buildForest f (.start f s) = .error (.floatLiteral x op) w) ↔
      ∃ q, f.demands.find? (fun q ↦ (q.fault? f).isSome) = some q ∧
        q.operand? = some (.float x) ∧ q.inst.opcode = op) ∧
    ∀ q ∈ f.demands, ∀ x, q.operand? = some (.float x) →
      ∃ ty, writtenLiteral? text (instsBefore fs n + q.user) q.floatsBefore = some (some ty, x) ∧
        (q.inst.opcode = .store → q.fault? f = none) ∧
        (q.inst.opcode ≠ .store → q.inst.ty.isInt = ty.isInt →
          (q.fault? f = none ↔ ty.isInt = false)) ∧
        (q.inst.opcode.sharesType = true → q.inst.ty = ty) := by
  refine ⟨buildForest_floatLiteral_iff f, fun q hq x hx ↦ ?_⟩
  obtain ⟨ty, hwritten, hshared⟩ := q.exists_written hparse hf hq hx
  have hfault : q.fault? f = none ↔ _ := Func.Demand.fault?_eq_none_iff hx
  refine ⟨ty, hwritten, fun hstore ↦ hfault.mpr (.inl hstore), fun hstore hty ↦ ?_,
    fun h ↦ (hshared h).symm⟩
  rw [hfault, hty]
  exact or_iff_right hstore

/-! ## A literal in a store and one in a call -/

/-- A store of a literal behind an integer type, and a call with an integer result and a literal behind
`double`. -/
def mixedText : String :=
  "define i64 @f(ptr %p) \x7b\n" ++
  "  store i64 1.5, ptr %p\n" ++
  "  %r = call i64 @g(double 2.5)\n" ++
  "  ret i64 %r\n" ++
  "\x7d\n"

def mixed : Func :=
  { name := "f", ret := .int 64, params := [⟨"p", .ptr⟩]
    blocks := [
      ⟨"entry", [
        ⟨none, .int 64, .store (.float ⟨0x3ff8000000000000⟩) (.value (.arg 0))⟩,
        ⟨some "r", .int 64, .call "g" [.float ⟨0x4004000000000000⟩]⟩,
        ⟨none, .int 64, .ret (some (.value (.inst 1)))⟩]⟩] }

theorem parse_mixedText : parse mixedText = .ok [mixed] := by
  rw [parse_eq_parseChars]
  unfold mixedText
  simp only [String.toList_append, String.reduceToList]
  decide +kernel

theorem literals_judged_mixed :
    parse mixedText = .ok [mixed] ∧ [mixed][0]? = some mixed ∧
    (∀ s x op, (∃ w, buildForest mixed (.start mixed s) = .error (.floatLiteral x op) w) ↔
      ∃ q, mixed.demands.find? (fun q ↦ (q.fault? mixed).isSome) = some q ∧
        q.operand? = some (.float x) ∧ q.inst.opcode = op) ∧
    ∀ q ∈ mixed.demands, ∀ x, q.operand? = some (.float x) →
      ∃ ty, writtenLiteral? mixedText (instsBefore [mixed] 0 + q.user) q.floatsBefore =
          some (some ty, x) ∧
        (q.inst.opcode = .store → q.fault? mixed = none) ∧
        (q.inst.opcode ≠ .store → q.inst.ty.isInt = ty.isInt →
          (q.fault? mixed = none ↔ ty.isInt = false)) ∧
        (q.inst.opcode.sharesType = true → q.inst.ty = ty) :=
  ⟨parse_mixedText, rfl, literals_judged parse_mixedText rfl⟩

theorem writtenLiterals_mixedText : writtenLiterals mixedText =
    [[(some (.int 64), ⟨0x3ff8000000000000⟩)], [(some .double, ⟨0x4004000000000000⟩)], []] := by
  have hscan : scan mixedText = scanChars mixedText.toList := rfl
  rw [writtenLiterals, instLines, hscan]
  unfold mixedText
  simp only [String.toList_append, String.reduceToList]
  decide +kernel

/-- The literal in the store is taken, although an integer type is written before it, and building fails
for the one in the call, which is written behind `double`. -/
theorem mixed_not_judged_by_written :
    parse mixedText = .ok [mixed] ∧
    writtenLiteral? mixedText 0 0 = some (some (.int 64), ⟨0x3ff8000000000000⟩) ∧
    (∃ q ∈ mixed.demands, q.operand? = some (.float ⟨0x3ff8000000000000⟩) ∧ q.fault? mixed = none) ∧
    writtenLiteral? mixedText 1 0 = some (some .double, ⟨0x4004000000000000⟩) ∧
    ∃ w, buildForest mixed (.start mixed {}) = .error (.floatLiteral ⟨0x4004000000000000⟩ .call) w := by
  refine ⟨parse_mixedText, ?_, by decide, ?_,
    (buildForest_floatLiteral_iff _ _ _ _).mpr ⟨_, rfl, rfl, rfl⟩⟩
  · rw [writtenLiteral?, writtenLiterals_mixedText]
    rfl
  · rw [writtenLiteral?, writtenLiterals_mixedText]
    rfl

end TreeCover
