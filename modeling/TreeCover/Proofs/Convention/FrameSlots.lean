import TreeCover.Forest.Build
import TreeCover.Proofs.Convention.Frames
import TreeCover.Proofs.Lists
import TreeCover.Proofs.Machine.Frame

/-!
# Everything in a frame has bytes of its own

Two formulas place what a function keeps in its frame. The slots that were asked for are counted from the
frame pointer, in a frame whose size begins with the return address; the registers that have to be saved
are put below them when the function is laid out, counted from the size the frame has then. Whatever was
asked for, in whatever order and how often, and whatever the allocation uses, these stretches of bytes do
not meet. They lie between the stack pointer that the prologue leaves and the frame pointer, so that they
do not meet the words above the frame pointer either.
-/

namespace TreeCover

open Machine Assembly Work

variable {reqs before after : List (LocalKey × Nat)} {key : LocalKey} {m : Mem} {n n' : Nat}
  {x y : Mem × Nat} {bytes : Nat} {regs : List PhysReg} {s s' : Session} {f : Assembly}

namespace Machine.Frame

/-! ## Requests for the same key -/

theorem slot?_answer_append (h : (answer before).slot? key = some m) (after : List (LocalKey × Nat)) :
    (answer (before ++ after)).slot? key = some m := by
  induction after using List.reverseRecOn with
  | nil => rwa [List.append_nil]
  | append_singleton after r ih =>
    rw [← List.append_assoc, answer_concat]
    exact slot?_request_of_slot? ih

/-- A request for a key that was asked for before is answered as it was then, and makes no room. -/
theorem request_again (before after : List (LocalKey × Nat)) (key : LocalKey) (n n' : Nat) :
    (answer (before ++ (key, n) :: after)).request key n'
      = (((answer before).request key n).1, answer (before ++ (key, n) :: after)) := by
  have hfirst : (answer (before ++ [(key, n)])).slot? key
      = some ((answer before).request key n).1 := by
    rw [answer_concat]
    exact slot?_request _ key n
  have hlater := slot?_answer_append hfirst after
  rw [List.append_assoc, List.singleton_append] at hlater
  exact request_of_slot? hlater

/-! ## Stretches of bytes -/

/-- The slots that requests made, the lowest first, with their bytes. -/
def stretches (reqs : List (LocalKey × Nat)) : List (Mem × Nat) :=
  (answer reqs).slots.map fun (key, m) ↦ (m, extent reqs key)

/-- Each key has one slot. -/
theorem nodup_keys (reqs : List (LocalKey × Nat)) : ((answer reqs).slots.map (·.1)).Nodup := by
  induction reqs using List.reverseRecOn with
  | nil => exact List.nodup_nil
  | append_singleton reqs r ih =>
    rw [answer_concat]
    cases h : (answer reqs).slot? r.1 with
    | some m => rwa [request_of_slot? h]
    | none =>
      rw [request_of_none h]
      refine List.nodup_cons.mpr ⟨fun hmem ↦ ?_, ih⟩
      obtain ⟨e, he, heq⟩ := List.mem_map.mp hmem
      have hsome : (answer reqs).slot? e.1 = some e.2 := lookup_of_mem ih he
      rw [heq, h] at hsome
      exact absurd hsome (by simp)

theorem mem_stretches_of_slot? (h : (answer reqs).slot? key = some m) :
    (m, extent reqs key) ∈ stretches reqs := by
  obtain ⟨above, below, hslots, -⟩ := List.lookup_eq_some_iff.mp h
  refine List.mem_map.mpr ⟨(key, m), ?_, rfl⟩
  rw [hslots]
  exact List.mem_append_right above List.mem_cons_self

/-- The slot of a key that was asked for has the bytes asked for first, in whole slots. -/
theorem exists_stretch (h : reqs.lookup key = some n) :
    ∃ m, (answer reqs).slot? key = some m ∧ (m, roundToSlot n) ∈ stretches reqs := by
  have hmade := ((laid_answer reqs).made key).mpr (lookup_isSome_iff.mp (by rw [h]; rfl))
  obtain ⟨m, hm⟩ := Option.isSome_iff_exists.mp hmade
  have hextent : extent reqs key = roundToSlot n := by rw [extent, h, Option.getD_some]
  exact ⟨m, hm, hextent ▸ mem_stretches_of_slot? hm⟩

theorem pairwise_stretches (reqs : List (LocalKey × Nat)) :
    (stretches reqs).Pairwise fun x y ↦ x.1.ClearOf x.2 y.1 y.2 := by
  have hkeys := List.pairwise_map.mp (nodup_keys reqs)
  refine List.pairwise_map.mpr (hkeys.imp_of_mem ?_)
  rintro ⟨key, m⟩ ⟨key', m'⟩ hm hm' hne
  exact (laid_answer reqs).clear key key' m m' hne (lookup_of_mem (nodup_keys reqs) hm)
    (lookup_of_mem (nodup_keys reqs) hm')

/-- Slots lie below the frame pointer, and within the frame as it was before registers are saved. -/
theorem bounds_of_mem_stretches (h : x ∈ stretches reqs) :
    x.1 = .frame x.1.disp ∧ -((answer reqs).localBytes : Int) ≤ x.1.disp ∧
      x.1.disp + x.2 ≤ 0 ∧ 0 < x.2 := by
  obtain ⟨⟨key, m⟩, hm, rfl⟩ := List.mem_map.mp h
  obtain ⟨d, rfl, hextent, hd⟩ :=
    (laid_answer reqs).inside key m (lookup_of_mem (nodup_keys reqs) hm)
  have hpos : 0 < extent reqs key := by
    rw [extent, roundToSlot]
    omega
  refine ⟨rfl, ?_⟩
  simp only [Mem.frame, Mem.based]
  omega

end Machine.Frame

/-! ## Saved registers -/

/-- The words in which registers are saved, with their bytes. -/
def Save.stretches (saves : List Save) : List (Mem × Nat) := saves.map fun e ↦ (e.2, 8)

/-- Saved registers lie between the slots of the frame and the stack pointer. -/
theorem Save.bounds_of_mem_stretches (h : x ∈ Save.stretches (saveSlots bytes regs)) :
    x.1 = .frame x.1.disp ∧ -(bytes + 8 * regs.length : Nat) + 8 ≤ x.1.disp ∧
      x.1.disp ≤ -(bytes : Int) ∧ x.2 = 8 := by
  obtain ⟨⟨r, m⟩, hm, rfl⟩ := List.mem_map.mp h
  obtain ⟨k, hk, -, rfl⟩ := mem_saveSlots hm
  refine ⟨rfl, ?_, ?_, rfl⟩
  all_goals
    simp only [Mem.frame, Mem.based]
    omega

theorem Save.pairwise_stretches (bytes : Nat) (regs : List PhysReg) :
    (Save.stretches (saveSlots bytes regs)).Pairwise fun x y ↦ x.1.ClearOf x.2 y.1 y.2 :=
  List.pairwise_map.mpr (pairwise_saveSlots.imp fun h ↦ Or.inr h)

/-! ## The finished frame -/

/-- All that a function keeps below its frame pointer: the slots that were asked for, and the words in
which it saves registers. -/
def frameStretches (reqs : List (LocalKey × Nat)) (regs : List PhysReg) : List (Mem × Nat) :=
  Frame.stretches reqs ++ Save.stretches (saveSlots (Frame.answer reqs).size regs)

/-- What lies above the frame pointer: the saved frame pointer, which it points to, the return address
and the arguments of the function. -/
def callerStretches (args : Nat) : List (Mem × Nat) :=
  (.frame 0, 8) :: (.frame returnAddressBytes, 8) ::
    (List.range args).map fun k ↦ (argumentSlot k, 8)

theorem bounds_of_mem_frameStretches (h : x ∈ frameStretches reqs regs) :
    x.1 = .frame x.1.disp ∧ -((Frame.answer reqs).size + 8 * regs.length : Nat) ≤ x.1.disp ∧
      x.1.disp + x.2 ≤ 0 ∧ 0 < x.2 := by
  have hsize : (Frame.answer reqs).localBytes + returnAddressBytes = (Frame.answer reqs).size :=
    Nat.sub_add_cancel (Frame.laid_answer reqs).size
  have hword : returnAddressBytes = 8 := rfl
  rcases List.mem_append.mp h with h | h
  · obtain ⟨hframe, hlow, hhigh, hpos⟩ := Frame.bounds_of_mem_stretches h
    exact ⟨hframe, by omega, hhigh, hpos⟩
  · obtain ⟨hframe, hlow, hhigh, hbytes⟩ := Save.bounds_of_mem_stretches h
    exact ⟨hframe, by omega, by omega, by omega⟩

/-- No two of them have a byte in common. -/
theorem pairwise_frameStretches (reqs : List (LocalKey × Nat)) (regs : List PhysReg) :
    (frameStretches reqs regs).Pairwise fun x y ↦ x.1.ClearOf x.2 y.1 y.2 := by
  refine List.pairwise_append.mpr ⟨Frame.pairwise_stretches reqs, Save.pairwise_stretches _ regs, ?_⟩
  intro x hx y hy
  -- the frame counts the return address, so the first saved register ends where the last slot begins
  have hsize : (Frame.answer reqs).localBytes + returnAddressBytes = (Frame.answer reqs).size :=
    Nat.sub_add_cancel (Frame.laid_answer reqs).size
  have hword : returnAddressBytes = 8 := rfl
  obtain ⟨-, hlow, -, -⟩ := Frame.bounds_of_mem_stretches hx
  obtain ⟨-, -, hhigh, hbytes⟩ := Save.bounds_of_mem_stretches hy
  exact Or.inr (by omega)

theorem clear_of_callerStretches (hx : x ∈ frameStretches reqs regs) {args : Nat}
    (hy : y ∈ callerStretches args) : x.1.ClearOf x.2 y.1 y.2 := by
  obtain ⟨-, -, hbelow, -⟩ := bounds_of_mem_frameStretches hx
  have habove : 0 ≤ y.1.disp := by
    rcases List.mem_cons.mp hy with rfl | hy
    · exact Int.le_refl 0
    rcases List.mem_cons.mp hy with rfl | hy
    · exact Int.natCast_nonneg returnAddressBytes
    obtain ⟨k, -, rfl⟩ := List.mem_map.mp hy
    simp only [argumentSlot, argumentBase, Mem.frame, Mem.based]
    omega
  exact Or.inl (Int.le_trans hbelow habove)

/-- The frame of a laid-out function: its registers are saved below the bytes it was given. -/
theorem frame_of_layout {name : String} {blocks : List Block} {a : Allocation}
    (h : layout name blocks bytes a s = .ok f s') :
    f.saved = a.used.toList ∧ f.frameBytes = bytes + 8 * f.saved.length ∧
      ∃ rest, f.insts = prologue f.frameBytes (saveSlots bytes f.saved) ++ rest := by
  obtain ⟨pieces, _, stubCode, _, -, -, hcode, -, hsaved, hbytes⟩ := layout_ok h
  refine ⟨hsaved, hbytes, pieces.flatMap (·.1) ++ stubCode.flatten, ?_⟩
  rw [hcode, hsaved, List.append_assoc]
  rfl

/-- **Nothing in a frame overlaps.** Slots are asked for in any order, and the function is laid out with
any allocation. Asking again for a key gives the slot it has and leaves the frame alone, and the slot of a
key has at least the bytes that were asked for first. The slots and the words in which the prologue saves
registers have no byte in common, lie below the frame pointer and at or above the stack pointer that the
prologue leaves, and meet neither the saved frame pointer nor the return address nor an argument. Up to
2 GiB every distance is a signed number of 32 bits. -/
theorem layout_frame_disjoint {name : String} {blocks : List Block} {a : Allocation}
    (h : layout name blocks (Frame.answer reqs).size a s = .ok f s') :
    (∀ before key n after n', reqs = before ++ (key, n) :: after →
      (Frame.answer reqs).request key n' =
        (((Frame.answer before).request key n).1, Frame.answer reqs)) ∧
    (∀ key n, reqs.lookup key = some n → n ≤ roundToSlot n ∧ ∃ m,
      (Frame.answer reqs).slot? key = some m ∧ (m, roundToSlot n) ∈ Frame.stretches reqs) ∧
    (f.saved = a.used.toList ∧ ∃ rest, f.insts =
      prologue f.frameBytes (saveSlots (Frame.answer reqs).size f.saved) ++ rest) ∧
    (frameStretches reqs f.saved).Pairwise (fun x y ↦ x.1.ClearOf x.2 y.1 y.2) ∧
    ∀ x ∈ frameStretches reqs f.saved,
      (x.1 = .frame x.1.disp ∧ -(f.frameBytes : Int) ≤ x.1.disp ∧ x.1.disp + x.2 ≤ 0 ∧ 0 < x.2) ∧
      (∀ args, ∀ y ∈ callerStretches args, x.1.ClearOf x.2 y.1 y.2) ∧
      (f.frameBytes ≤ 2 ^ 31 → fitsSigned 32 x.1.disp = true) := by
  obtain ⟨hsaved, hbytes, hprologue⟩ := frame_of_layout h
  refine ⟨?_, fun key n hn ↦ ⟨?_, Frame.exists_stretch hn⟩, ⟨hsaved, hprologue⟩,
    pairwise_frameStretches reqs f.saved, fun x hx ↦ ?_⟩
  · rintro before key n after n' rfl
    exact Frame.request_again before after key n n'
  · rw [roundToSlot]
    omega
  · have hbounds := bounds_of_mem_frameStretches hx
    rw [← hbytes] at hbounds
    refine ⟨hbounds, fun args y hy ↦ clear_of_callerStretches hx hy, fun hsmall ↦ ?_⟩
    obtain ⟨-, hlow, hhigh, hpos⟩ := hbounds
    have hpow : (Nat.pow 2 31 : Nat) = 2 ^ 31 := rfl
    exact fitsSigned_succ_iff.mpr (by rw [hpow]; omega)

/-- Requests for an alloca, for a spilled register, for the alloca again, and for one without bytes. -/
def mixedRequests : List (LocalKey × Nat) :=
  [(.value 0, 16), (.spill 3, 8), (.value 0, 99), (.value 1, 0)]

/-- Two registers are saved below these slots. -/
theorem layout_frame_disjoint_mixed :
    ∃ f s', layout "f" [] (Frame.answer mixedRequests).size { used := ⟨[.rbx, .rsi]⟩ } {} = .ok f s' ∧
      f.frameBytes = 52 ∧ frameStretches mixedRequests f.saved =
        [(.frame (-28), 4), (.frame (-24), 8), (.frame (-16), 16), (.frame (-36), 8),
          (.frame (-44), 8)] ∧
      (frameStretches mixedRequests f.saved).Pairwise (fun x y ↦ x.1.ClearOf x.2 y.1 y.2) := by
  have hlayout : layout "f" [] (Frame.answer mixedRequests).size { used := ⟨[.rbx, .rsi]⟩ } {} =
      .ok _ _ := rfl
  exact ⟨_, _, hlayout, rfl, rfl, (layout_frame_disjoint hlayout).2.2.2.1⟩

end TreeCover
