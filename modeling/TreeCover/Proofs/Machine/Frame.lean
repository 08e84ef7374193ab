import Mathlib.Data.List.Induction
import TreeCover.Machine.Frame

/-!
# Slots that do not overlap

A frame is the answer to a sequence of requests. The first request for a key makes its slot, at the
bottom of the frame and as large as was asked for, in whole slots of four bytes; later requests for
the key change nothing. So every slot lies between the frame pointer and the bottom, and above all
that was made after it.
-/

namespace TreeCover.Machine

variable {reqs : List (LocalKey × Nat)} {key key' : LocalKey} {m m' : Mem} {f : Frame} {bytes : Nat}

/-- Two stretches of the frame without a byte in common. -/
def Mem.ClearOf (m : Mem) (bytes : Nat) (m' : Mem) (bytes' : Nat) : Prop :=
  m.disp + bytes ≤ m'.disp ∨ m'.disp + bytes' ≤ m.disp

theorem Mem.ClearOf.symm {bytes' : Nat} (h : m.ClearOf bytes m' bytes') :
    m'.ClearOf bytes' m bytes := Or.symm h

namespace Frame

/-- The frame after requests, each a key with the bytes it needs. -/
def answer (reqs : List (LocalKey × Nat)) : Frame :=
  reqs.foldl (fun f r ↦ (f.request r.1 r.2).2) {}

/-- The bytes of the slot of a key, which are those of the first request for it. -/
def extent (reqs : List (LocalKey × Nat)) (key : LocalKey) : Nat :=
  roundToSlot ((reqs.lookup key).getD 0)

@[simp]
theorem answer_concat (r : LocalKey × Nat) :
    answer (reqs ++ [r]) = ((answer reqs).request r.1 r.2).2 := by
  rw [answer, List.foldl_append, answer]
  rfl

/-! ## One request -/

theorem slot?_push_self : (f.push key bytes).slot? key =
    some (.frame (-((f.push key bytes).localBytes : Nat))) := by
  rw [slot?, push, List.lookup_cons_self]
  rfl

theorem slot?_push_of_ne (hne : key' ≠ key) : (f.push key bytes).slot? key' = f.slot? key' := by
  have hbeq : (key' == key) = false := beq_eq_false_iff_ne.mpr hne
  rw [slot?, push, List.lookup_cons, hbeq, slot?]

theorem request_of_slot? (h : f.slot? key = some m) : f.request key bytes = (m, f) := by
  rw [request, h]

theorem request_of_none (h : f.slot? key = none) : f.request key bytes =
    (.frame (-((f.push key bytes).localBytes : Nat)), f.push key bytes) := by
  rw [request, h]

/-- A request is answered with the slot that the key has from then on. -/
theorem slot?_request (f : Frame) (key : LocalKey) (bytes : Nat) :
    (f.request key bytes).2.slot? key = some (f.request key bytes).1 := by
  cases h : f.slot? key with
  | some m => rw [request_of_slot? h, h]
  | none => rw [request_of_none h, slot?_push_self]

/-- A slot that was made stays where it is. -/
theorem slot?_request_of_slot? (h : f.slot? key' = some m) :
    (f.request key bytes).2.slot? key' = some m := by
  cases hkey : f.slot? key with
  | some m' => rwa [request_of_slot? hkey]
  | none =>
    rw [request_of_none hkey, slot?_push_of_ne, h]
    rintro rfl
    exact absurd (h.symm.trans hkey) (by simp)

/-! ## Extents -/

theorem lookup_isSome_iff : (reqs.lookup key).isSome ↔ key ∈ reqs.map (·.1) := by
  rw [List.lookup_isSome_iff, List.mem_map]
  exact exists_congr fun r ↦ and_congr_right fun _ ↦ beq_iff_eq.trans eq_comm

theorem lookup_concat (r : LocalKey × Nat) : (reqs ++ [r]).lookup key =
    if key ∈ reqs.map (·.1) then reqs.lookup key else if key = r.1 then some r.2 else none := by
  rw [List.lookup_append]
  split
  next hmem =>
    obtain ⟨n, hn⟩ := Option.isSome_iff_exists.mp (lookup_isSome_iff.mpr hmem)
    rw [hn, Option.some_or]
  next hmem =>
    have hnone : reqs.lookup key = none :=
      Option.not_isSome_iff_eq_none.mp (mt lookup_isSome_iff.mp hmem)
    rw [hnone, Option.none_or, List.lookup_cons, List.lookup_nil]
    by_cases hkey : key = r.1
    · rw [if_pos hkey, beq_iff_eq.mpr hkey]
    · rw [if_neg hkey, beq_eq_false_iff_ne.mpr hkey]

theorem extent_concat_of_mem (r : LocalKey × Nat) (h : key ∈ reqs.map (·.1)) :
    extent (reqs ++ [r]) key = extent reqs key := by
  rw [extent, lookup_concat, if_pos h, extent]

theorem extent_concat_self (h : key ∉ reqs.map (·.1)) :
    extent (reqs ++ [(key, bytes)]) key = roundToSlot bytes := by
  rw [extent, lookup_concat, if_neg h, if_pos rfl, Option.getD_some]

/-! ## All requests -/

/-- The slots of a frame after requests. -/
structure Laid (reqs : List (LocalKey × Nat)) (f : Frame) : Prop where
  size : returnAddressBytes ≤ f.size
  made : ∀ key, (f.slot? key).isSome ↔ key ∈ reqs.map (·.1)
  inside : ∀ key m, f.slot? key = some m →
    ∃ d : Nat, m = .frame (-d) ∧ extent reqs key ≤ d ∧ d ≤ f.localBytes
  clear : ∀ key key' m m', key ≠ key' → f.slot? key = some m → f.slot? key' = some m' →
    m.ClearOf (extent reqs key) m' (extent reqs key')

/-- A request for a key that has a slot. -/
theorem Laid.again (h : Laid reqs f) (hkey : key ∈ reqs.map (·.1)) :
    Laid (reqs ++ [(key, bytes)]) f := by
  have hmem : ∀ k m, f.slot? k = some m → k ∈ reqs.map (·.1) := fun k m hm ↦
    (h.made k).mp (by rw [hm]; rfl)
  refine ⟨h.size, fun k ↦ ?_, fun k m hm ↦ ?_, fun k k' m m' hne hm hm' ↦ ?_⟩
  · rw [h.made, List.map_append, List.mem_append]
    refine ⟨Or.inl, fun hk ↦ hk.elim id fun hk ↦ ?_⟩
    rwa [List.mem_singleton.mp hk]
  · rw [extent_concat_of_mem _ (hmem k m hm)]
    exact h.inside k m hm
  · rw [extent_concat_of_mem _ (hmem k m hm), extent_concat_of_mem _ (hmem k' m' hm')]
    exact h.clear k k' m m' hne hm hm'

theorem localBytes_push (h : returnAddressBytes ≤ f.size) :
    (f.push key bytes).localBytes = f.localBytes + roundToSlot bytes := by
  simp only [localBytes, push]
  omega

/-- A request that makes a slot below all others. -/
theorem Laid.push (h : Laid reqs f) (hkey : key ∉ reqs.map (·.1)) :
    Laid (reqs ++ [(key, bytes)]) (f.push key bytes) := by
  have hbottom : (f.push key bytes).localBytes = f.localBytes + roundToSlot bytes :=
    localBytes_push h.size
  have hold : ∀ k m, k ≠ key → (f.push key bytes).slot? k = some m →
      f.slot? k = some m ∧ extent (reqs ++ [(key, bytes)]) k = extent reqs k := by
    intro k m hne hm
    rw [slot?_push_of_ne hne] at hm
    exact ⟨hm, extent_concat_of_mem _ ((h.made k).mp (by rw [hm]; rfl))⟩
  -- the new slot ends where the frame ended before, so all older slots lie above it
  have hnew : ∀ k m m', k ≠ key → (f.push key bytes).slot? k = some m →
      (f.push key bytes).slot? key = some m' →
      m.ClearOf (extent (reqs ++ [(key, bytes)]) k) m' (extent (reqs ++ [(key, bytes)]) key) := by
    intro k m m' hne hm hm'
    obtain ⟨hm, hextent⟩ := hold k m hne hm
    obtain ⟨d, rfl, -, hd⟩ := h.inside k m hm
    obtain rfl := Option.some.inj (slot?_push_self.symm.trans hm')
    right
    rw [extent_concat_self hkey, hbottom]
    simp only [Mem.frame, Mem.based]
    omega
  refine ⟨Nat.le_trans h.size (Nat.le_add_right _ _), fun k ↦ ?_, fun k m hm ↦ ?_,
    fun k k' m m' hne hm hm' ↦ ?_⟩
  · by_cases hk : k = key
    · subst hk
      simp [slot?_push_self]
    · rw [slot?_push_of_ne hk, h.made, List.map_append, List.mem_append]
      simp [hk]
  · by_cases hk : k = key
    · subst hk
      obtain rfl := Option.some.inj (slot?_push_self.symm.trans hm)
      exact ⟨_, rfl, by rw [extent_concat_self hkey, hbottom]; omega, Nat.le_refl _⟩
    · obtain ⟨hm, hextent⟩ := hold k m hk hm
      obtain ⟨d, hd, hle, hbytes⟩ := h.inside k m hm
      exact ⟨d, hd, hextent ▸ hle, by omega⟩
  · by_cases hk : k = key
    · subst hk
      exact (hnew k' m' m (Ne.symm hne) hm' hm).symm
    · by_cases hk' : k' = key
      · subst hk'
        exact hnew k m m' hk hm hm'
      · obtain ⟨hm, hextent⟩ := hold k m hk hm
        obtain ⟨hm', hextent'⟩ := hold k' m' hk' hm'
        rw [hextent, hextent']
        exact h.clear k k' m m' hne hm hm'

/-- **Slots do not overlap.** After any requests, each key that was asked for has a slot inside the
frame, and slots of different keys have no byte in common. -/
theorem laid_answer (reqs : List (LocalKey × Nat)) : Laid reqs (answer reqs) := by
  induction reqs using List.reverseRecOn with
  | nil =>
    refine ⟨Nat.le_refl _, fun key ↦ ?_, fun key m hm ↦ ?_, fun key _ m _ _ hm _ ↦ ?_⟩
    · exact ⟨fun h ↦ absurd h Bool.false_ne_true, fun h ↦ absurd h List.not_mem_nil⟩
    · exact absurd hm (by simp [answer, slot?])
    · exact absurd hm (by simp [answer, slot?])
  | append_singleton reqs r ih =>
    rw [answer_concat]
    cases h : (answer reqs).slot? r.1 with
    | some m =>
      rw [request_of_slot? h]
      exact ih.again ((ih.made r.1).mp (by rw [h]; rfl))
    | none =>
      rw [request_of_none h]
      refine ih.push fun hmem ↦ ?_
      have hsome := (ih.made r.1).mpr hmem
      rw [h] at hsome
      exact Bool.false_ne_true hsome

/-! ## Room for allocas -/

/-- `f.Extends f'` says that `f'` is `f` after requests of allocas. -/
def Extends (f f' : Frame) : Prop :=
  ∃ rooms : List (Nat × Nat), f' = rooms.foldl (fun f r ↦ (f.request (.value r.1) r.2).2) f

theorem Extends.refl (f : Frame) : f.Extends f := ⟨[], rfl⟩

theorem Extends.trans {f' f'' : Frame} (h : f.Extends f') (h' : f'.Extends f'') : f.Extends f'' := by
  obtain ⟨rooms, rfl⟩ := h
  obtain ⟨rooms', rfl⟩ := h'
  exact ⟨rooms ++ rooms', List.foldl_append.symm⟩

theorem Extends.request (f : Frame) (inst bytes : Nat) :
    f.Extends (f.request (.value inst) bytes).2 := ⟨[(inst, bytes)], rfl⟩

/-- A slot that was made stays where it is. -/
theorem Extends.slot? {f' : Frame} (h : f.Extends f') (hm : f.slot? key = some m) :
    f'.slot? key = some m := by
  obtain ⟨rooms, rfl⟩ := h
  induction rooms generalizing f with
  | nil => exact hm
  | cons room rooms ih => exact ih (slot?_request_of_slot? hm)

/-- A frame that only allocas asked for room has no slot of a register. -/
theorem Extends.exists_answer {f' : Frame} (h : Extends {} f') :
    ∃ reqs, f' = answer reqs ∧ ∀ v n, (.spill v, n) ∉ reqs := by
  obtain ⟨rooms, rfl⟩ := h
  refine ⟨rooms.map fun r ↦ (.value r.1, r.2), ?_, fun v n hmem ↦ ?_⟩
  · rw [answer, List.foldl_map]
  · obtain ⟨_, -, heq⟩ := List.mem_map.mp hmem
    exact LocalKey.noConfusion (Prod.mk.inj heq).1

end Frame

end TreeCover.Machine
