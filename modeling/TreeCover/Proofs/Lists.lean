import Mathlib.Data.List.Forall2
import Mathlib.Data.List.Nodup
import Mathlib.Data.List.TakeWhile

/-!
# Lists

Lists whose items are related one by one, taken apart by their form and put together again, lists
without the repetitions in them, what is found first in a list, and the parts it is put together from.
-/

namespace TreeCover

variable {α β : Type} {R : α → β → Prop} {a a' a'' : α} {ys : List β}

/-! ## Items that are related -/

theorem exists_of_forall₂_one (hys : List.Forall₂ R [a] ys) : ∃ y, R a y ∧ ys = [y] := by
  obtain ⟨y, _, hy, hnil, rfl⟩ := List.forall₂_cons_left_iff.mp hys
  obtain rfl := List.forall₂_nil_left_iff.mp hnil
  exact ⟨y, hy, rfl⟩

theorem exists_of_forall₂_two (hys : List.Forall₂ R [a, a'] ys) :
    ∃ y y', R a y ∧ R a' y' ∧ ys = [y, y'] := by
  obtain ⟨y, _, hy, hrest, rfl⟩ := List.forall₂_cons_left_iff.mp hys
  obtain ⟨y', hy', rfl⟩ := exists_of_forall₂_one hrest
  exact ⟨y, y', hy, hy', rfl⟩

theorem exists_of_forall₂_three (hys : List.Forall₂ R [a, a', a''] ys) :
    ∃ y y' y'', R a y ∧ R a' y' ∧ R a'' y'' ∧ ys = [y, y', y''] := by
  obtain ⟨y, _, hy, hrest, rfl⟩ := List.forall₂_cons_left_iff.mp hys
  obtain ⟨y', y'', hy', hy'', rfl⟩ := exists_of_forall₂_two hrest
  exact ⟨y, y', y'', hy, hy', hy'', rfl⟩

theorem exists_getElem?_of_forall₂ {xs : List α} {idx : Nat} {y : β} (hys : List.Forall₂ R xs ys)
    (hy : ys[idx]? = some y) : ∃ x, xs[idx]? = some x ∧ R x y := by
  obtain ⟨hlt, rfl⟩ := List.getElem?_eq_some_iff.mp hy
  have hlt' : idx < xs.length := hys.length_eq ▸ hlt
  exact ⟨xs[idx], List.getElem?_eq_getElem hlt', hys.get hlt' hlt⟩

theorem exists_of_forall₂ {xs : List α} {y : β} (hys : List.Forall₂ R xs ys) (hy : y ∈ ys) :
    ∃ x ∈ xs, R x y := by
  obtain ⟨idx, hidx⟩ := List.mem_iff_getElem?.mp hy
  obtain ⟨x, hx, hrel⟩ := exists_getElem?_of_forall₂ hys hidx
  exact ⟨x, List.mem_of_getElem? hx, hrel⟩

theorem exists_forall₂ {xs : List α} (hxs : ∀ x ∈ xs, ∃ y, R x y) : ∃ ys, List.Forall₂ R xs ys := by
  induction xs with
  | nil => exact ⟨[], .nil⟩
  | cons x xs ih =>
    obtain ⟨⟨y, hy⟩, hrest⟩ := List.forall_mem_cons.mp hxs
    obtain ⟨ys, hys⟩ := ih hrest
    exact ⟨y :: ys, .cons hy hys⟩

theorem forall₂_mem {xs : List α} (hys : List.Forall₂ R xs ys) :
    List.Forall₂ (fun x y ↦ x ∈ xs ∧ y ∈ ys ∧ R x y) xs ys := by
  obtain ⟨hlength, hzip⟩ := List.forall₂_iff_zip.mp hys
  exact List.forall₂_iff_zip.mpr
    ⟨hlength, fun hmem ↦ ⟨(List.of_mem_zip hmem).1, (List.of_mem_zip hmem).2, hzip hmem⟩⟩

theorem forall₂_of_zip {xs : List α} {gs : List β} {γ : Type} {Q : α × β → γ → Prop} {zs : List γ}
    (hlength : xs.length = gs.length) (hzs : List.Forall₂ Q (xs.zip gs) zs) :
    List.Forall₂ (fun g z ↦ ∃ x ∈ xs, Q (x, g) z) gs zs := by
  induction xs generalizing gs zs with
  | nil =>
    obtain rfl := List.length_eq_zero_iff.mp hlength.symm
    exact List.forall₂_nil_left_iff.mpr (List.forall₂_nil_left_iff.mp hzs)
  | cons x xs ih =>
    cases gs with
    | nil => exact absurd hlength (by simp)
    | cons g gs =>
      rw [List.zip_cons_cons] at hzs
      obtain ⟨z, zs', hz, hrest, rfl⟩ := List.forall₂_cons_left_iff.mp hzs
      refine .cons ⟨x, List.mem_cons_self, hz⟩ ((ih (by simpa using hlength) hrest).imp ?_)
      exact fun _ _ ⟨x', hx', hq⟩ ↦ ⟨x', List.mem_cons_of_mem x hx', hq⟩

theorem forall₂_concat {xs : List α} {x : α}
    (h : List.Forall₂ R (xs ++ [x]) ys) :
    ∃ ys' y, ys = ys' ++ [y] ∧ List.Forall₂ R xs ys' ∧ R x y := by
  induction xs generalizing ys with
  | nil =>
    cases h with
    | cons hy hnil =>
      cases hnil
      exact ⟨[], _, rfl, .nil, hy⟩
  | cons x' xs ih =>
    cases h with
    | cons hy hys =>
      obtain ⟨ys', y, rfl, hys', hlast⟩ := ih hys
      exact ⟨_ :: ys', y, rfl, .cons hy hys', hlast⟩

theorem exists_append_of_forall₂ {xs xs' : List α} (h : List.Forall₂ R (xs ++ xs') ys) :
    ∃ zs zs', ys = zs ++ zs' ∧ List.Forall₂ R xs zs ∧ List.Forall₂ R xs' zs' := by
  refine ⟨_, _, (List.take_append_drop xs.length ys).symm, ?_, ?_⟩
  · simpa only [List.take_left] using List.forall₂_take xs.length h
  · simpa only [List.drop_left] using List.forall₂_drop xs.length h

/-- What one step relates to what the next relates on. -/
theorem forall₂_comp_iff {γ : Type} {S : β → γ → Prop} {xs : List α} {zs : List γ} : (∃ ys, List.Forall₂ R xs ys ∧ List.Forall₂ S ys zs) ↔
      List.Forall₂ (fun x z ↦ ∃ y, R x y ∧ S y z) xs zs := by
  constructor
  · rintro ⟨ys, hxs, hzs⟩
    induction hxs generalizing zs with
    | nil =>
      obtain rfl := List.forall₂_nil_left_iff.mp hzs
      exact .nil
    | cons hx _ ih =>
      obtain ⟨z, zs', hz, hzs', rfl⟩ := List.forall₂_cons_left_iff.mp hzs
      exact .cons ⟨_, hx, hz⟩ (ih hzs')
  · intro h
    induction h with
    | nil => exact ⟨[], .nil, .nil⟩
    | cons h _ ih =>
      obtain ⟨y, hx, hz⟩ := h
      obtain ⟨ys, hxs, hzs⟩ := ih
      exact ⟨y :: ys, .cons hx hxs, .cons hz hzs⟩

/-! ## Parts of a list -/

theorem nodup_eraseDups [BEq α] [LawfulBEq α] : ∀ xs : List α, xs.eraseDups.Nodup
  | [] => List.nodup_nil
  | x :: xs => by
    rw [List.eraseDups_cons]
    refine List.nodup_cons.mpr ⟨fun h ↦ ?_, nodup_eraseDups _⟩
    have hne := (List.mem_filter.mp (List.mem_eraseDups.mp h)).2
    simp at hne
termination_by xs => xs.length
decreasing_by exact Nat.lt_succ_of_le (List.length_filter_le _ _)

/-- What comes first in a list is what its longest such beginning holds. -/
theorem lt_length_takeWhile_iff {p : α → Bool} {xs : List α}
    (h : xs.Pairwise fun x y ↦ p y = true → p x = true) {k : Nat} {x : α} (hx : xs[k]? = some x) :
    p x = true ↔ k < (xs.takeWhile p).length := by
  induction xs generalizing k with
  | nil => exact absurd hx nofun
  | cons y ys ih =>
    obtain ⟨hy, hys⟩ := List.pairwise_cons.mp h
    rw [List.takeWhile_cons]
    cases k with
    | zero =>
      obtain rfl := Option.some.inj hx
      cases hp : p y <;> simp
    | succ k =>
      have hx : ys[k]? = some x := hx
      cases hp : p y with
      | true => simpa using ih hys hx
      | false =>
        have hpx : ¬p x = true := fun hpx ↦ by
          have := hy x (List.mem_of_getElem? hx) hpx
          simp [hp] at this
        simpa using hpx

/-- What stands first of two in a list without repetition has the smaller place. -/
theorem idxOf_lt_of_sublist [BEq α] [LawfulBEq α] {b : α} {l : List α} (hnodup : l.Nodup)
    (h : [a, b].Sublist l) : l.idxOf a < l.idxOf b := by
  have hpairs : l.Pairwise fun x y ↦ l.idxOf x < l.idxOf y := by
    rw [List.pairwise_iff_getElem]
    intro i j hi hj hij
    rwa [hnodup.idxOf_getElem, hnodup.idxOf_getElem]
  exact List.pairwise_iff_forall_sublist.mp hpairs h

/-- A table without two entries for one key gives each entry back. -/
theorem lookup_of_mem [BEq α] [LawfulBEq α] {b : β} {l : List (α × β)}
    (hnodup : (l.map (·.1)).Nodup) (h : (a, b) ∈ l) : l.lookup a = some b := by
  obtain ⟨before, after, rfl⟩ := List.append_of_mem h
  refine List.lookup_eq_some_iff.mpr ⟨before, after, rfl, fun p hp ↦ bne_iff_ne.mpr ?_⟩
  rintro rfl
  rw [List.map_append, List.map_cons] at hnodup
  exact List.disjoint_of_nodup_append hnodup (List.mem_map_of_mem hp) List.mem_cons_self

/-- Pairs are distinct if their first parts are, and those that share it differ in the second. -/
theorem nodup_pairs {l : List α} {g : α → List β} (hl : l.Nodup) (hg : ∀ a ∈ l, (g a).Nodup) :
    (l.flatMap fun a ↦ (g a).map (a, ·)).Nodup := by
  refine List.nodup_flatMap.mpr ⟨fun a ha ↦ (hg a ha).map fun _ _ heq ↦ (Prod.mk.inj heq).2, ?_⟩
  refine hl.imp fun {a a'} hne x hx hx' ↦ hne ?_
  obtain ⟨_, -, rfl⟩ := List.mem_map.mp hx
  obtain ⟨_, -, heq⟩ := List.mem_map.mp hx'
  exact (Prod.mk.inj heq).1.symm

/-- What holds of one item only of a list without repetition picks that item. -/
theorem filter_eq_singleton {l : List α} {p : α → Bool} (hl : l.Nodup) (ha : a ∈ l)
    (hp : ∀ b ∈ l, p b = true ↔ b = a) : l.filter p = [a] := by
  obtain ⟨before, after, rfl⟩ := List.append_of_mem ha
  have hnone : ∀ xs : List α, (∀ b ∈ xs, b ∈ before ++ a :: after) → a ∉ xs → xs.filter p = [] := by
    refine fun xs hxs hnot ↦ List.filter_eq_nil_iff.mpr fun b hb htrue ↦ hnot ?_
    exact (hp b (hxs b hb)).mp htrue ▸ hb
  obtain ⟨-, hrest, hdisjoint⟩ := List.nodup_append.mp hl
  rw [List.filter_append, List.filter_cons_of_pos ((hp a ha).mpr rfl),
    hnone before (fun b hb ↦ List.mem_append_left _ hb) fun h ↦
      hdisjoint a h a List.mem_cons_self rfl,
    hnone after (fun b hb ↦ List.mem_append_right _ (List.mem_cons_of_mem a hb))
      (List.nodup_cons.mp hrest).1, List.nil_append]

/-- Of two lists side by side, what stands beside one item is one item if no two items of the second
list look alike. -/
theorem eq_of_mem_zip {γ : Type} {xs : List α} {h : β → γ} (hnodup : (ys.map h).Nodup) {y y' : β}
    (hx : (a, y) ∈ xs.zip ys) (hx' : (a', y') ∈ xs.zip ys) (heq : h y = h y') : a = a' := by
  obtain ⟨j, hj⟩ := List.mem_iff_getElem?.mp hx
  obtain ⟨j', hj'⟩ := List.mem_iff_getElem?.mp hx'
  obtain ⟨ha, hy⟩ := List.getElem?_zip_eq_some.mp hj
  obtain ⟨ha', hy'⟩ := List.getElem?_zip_eq_some.mp hj'
  have hj : (ys.map h)[j]? = (ys.map h)[j']? := by
    rw [List.getElem?_map, hy, List.getElem?_map, hy', Option.map_some, Option.map_some, heq]
  have hlt : j < (ys.map h).length := by
    rw [List.length_map]
    exact (List.getElem?_eq_some_iff.mp hy).1
  obtain rfl := (List.getElem?_inj hlt hnodup).mp hj
  exact Option.some.inj (ha.symm.trans ha')

/-- The items of a part stand behind those of the parts before it. -/
theorem getElem?_flatMap_take {g : α → List β} {xs : List α} {n k : Nat} {y : β}
    (ha : xs[n]? = some a) (hy : (g a)[k]? = some y) :
    (xs.flatMap g)[((xs.take n).flatMap g).length + k]? = some y := by
  obtain ⟨hlt, hget⟩ := List.getElem?_eq_some_iff.mp ha
  have hsplit : xs.flatMap g = (xs.take n).flatMap g ++ (g a ++ (xs.drop (n + 1)).flatMap g) := by
    rw [← List.flatMap_cons, ← List.flatMap_append, ← hget, ← List.drop_eq_getElem_cons hlt,
      List.take_append_drop]
  rw [hsplit, List.getElem?_append_right (Nat.le_add_right _ _), Nat.add_sub_cancel_left,
    List.getElem?_append_left (List.getElem?_eq_some_iff.mp hy).1, hy]

/-! ## The first item of a kind -/

theorem findSome?_cons_eq_or (p : α → Option β) (a : α) (xs : List α) :
    (a :: xs).findSome? p = (p a).or (xs.findSome? p) := by
  rw [List.findSome?_cons]
  cases p a <;> rfl

/-- The items of the parts are searched part by part. -/
theorem findSome?_flatMap {γ : Type} (p : β → Option γ) (g : α → List β) (xs : List α) :
    (xs.flatMap g).findSome? p = xs.findSome? fun x ↦ (g x).findSome? p := by
  simp only [← List.head?_filterMap, List.filterMap_flatMap, List.head?_flatMap]

/-- What is found of a kind is what the first item of that kind gives. -/
theorem findSome?_eq_find?_bind (p : α → Option β) (xs : List α) :
    xs.findSome? p = (xs.find? fun a ↦ (p a).isSome).bind p := by
  induction xs with
  | nil => rfl
  | cons a xs ih =>
    rw [List.findSome?_cons, List.find?_cons]
    cases ha : p a with
    | none => simpa [ha] using ih
    | some b => simp [ha]

/-! ## Items of a list that is put together -/

/-- An entry of a list that is put together stands in the first part or in the second. -/
theorem append_eq_append_cons_iff {xs zs xs' l : List α} :
    xs ++ zs = xs' ++ a :: l ↔ (∃ l', xs = xs' ++ a :: l' ∧ l = l' ++ zs) ∨
      ∃ l', xs' = xs ++ l' ∧ zs = l' ++ a :: l := by
  rw [List.append_eq_append_iff, or_comm]
  constructor
  · rintro (⟨l', rfl, hl⟩ | h)
    · cases l' with
      | nil => exact Or.inr ⟨[], by simp, hl.symm⟩
      | cons y l' =>
        obtain ⟨rfl, rfl⟩ := List.cons.inj hl
        exact Or.inl ⟨l', rfl, rfl⟩
    · exact Or.inr h
  · rintro (⟨l', rfl, rfl⟩ | h)
    · exact Or.inl ⟨a :: l', rfl, rfl⟩
    · exact Or.inr h

/-! ## The largest number of a list -/

theorem le_foldl_max (l : List Nat) (n : Nat) :
    n ≤ l.foldl max n ∧ ∀ a ∈ l, a ≤ l.foldl max n := by
  induction l generalizing n with
  | nil => exact ⟨Nat.le_refl n, fun _ h ↦ absurd h List.not_mem_nil⟩
  | cons b l ih =>
    obtain ⟨hn, hl⟩ := ih (max n b)
    rw [List.foldl_cons]
    exact ⟨by omega, List.forall_mem_cons.mpr ⟨by omega, hl⟩⟩

theorem foldl_max_mem (l : List Nat) (n : Nat) : l.foldl max n = n ∨ l.foldl max n ∈ l := by
  induction l generalizing n with
  | nil => exact Or.inl rfl
  | cons b l ih =>
    rw [List.foldl_cons]
    rcases ih (max n b) with heq | hmem
    · rw [heq]
      rcases Nat.le_total n b with hle | hle
      · exact Or.inr (by rw [Nat.max_eq_right hle]; exact List.mem_cons_self)
      · exact Or.inl (Nat.max_eq_left hle)
    · exact Or.inr (List.mem_cons_of_mem b hmem)

end TreeCover
