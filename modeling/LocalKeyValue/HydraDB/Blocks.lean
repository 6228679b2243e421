import LocalKeyValue.HydraDB.Chunks

/-!
# The Blocks of the HydraDB Arena

What a request has to give: a block in the arena, apart from the blocks that are
handed out, with headers that are so too, and a last chunk whose size is what it
was less the block and a header. Or null, with nothing changed.

`metalloc` gives such a block if there is room in the last chunk for the block
and one more header. It does not look whether there is. The comparison that would
return null is commented out, and a request for more writes a header behind the
arena.

## Main definitions

* `Handed`: The block, the headers and the rest of the last chunk.
* `BlockOk`: A request gives a block or null, and giving back leaves the blocks of
  the others alone.

## Theorems

* `handed_of_fits`: What fits is handed out.
* `blockOk_freealloc`: Giving back.
* `blockOk_iff_fits`: All calls of a run are so just when all requests fit.
-/

namespace LocalKeyValue

namespace HydraDB

open Run

/-- Two ranges of addresses share none. -/
def Apart (a m b n : Nat) : Prop :=
  a + m ≤ b ∨ b + n ≤ a

/-- A range of addresses lies in the arena. -/
def Inside (ar : Arena) (a n : Nat) : Prop :=
  ar.dynamicBlock ≤ a ∧ a + n ≤ ar.dynamicBlock + blockSize

/-- The size of the block behind a header, which is as long as was asked for. -/
def blockLength (s : Heap) (p : BitVec 64) : Nat :=
  (s.header (headerOf p)).size.toNat

/-- A request of `size` bytes in `s` has given the block at `p`, and left `t`. It has
    written the header in front of the block and the one behind. -/
structure Handed (ar : Arena) (s : Alloc) (size : BitVec 32) (t : Heap) (p : BitVec 64) :
    Prop where
  block : Inside ar p.toNat size.toNat
  front : Inside ar (headerOf p) sizeofMemEntry
  behind : Inside ar (p.toNat + size.toNat) sizeofMemEntry
  written : ∀ a, a ≠ headerOf p → a ≠ p.toNat + size.toNat → t.header a = s.1.header a
  apart : ∀ q ∈ s.2, Apart p.toNat size.toNat q.toNat (blockLength s.1 q) ∧
    Apart (headerOf p) sizeofMemEntry q.toNat (blockLength s.1 q) ∧
    Apart (p.toNat + size.toNat) sizeofMemEntry q.toNat (blockLength s.1 q)
  length : blockLength t p = size.toNat
  kept : ∀ q ∈ s.2, blockLength t q = blockLength s.1 q
  /-- The size recorded for the last chunk does not wrap. -/
  rest : ∃ l, t.last = some l ∧
    (t.header l).size.toNat + sizeofMemEntry + size.toNat = lastSize ar s.1

/-- A request gives a block, or null and changes nothing. A pointer given back leaves
    the lengths of the blocks as they are. -/
def BlockOk (ar : Arena) (s : Alloc) : AllocOp → Prop
  | .metalloc size => ∃ t p, metalloc ar s.1 size = some (t, p) ∧
      ((p = 0 ∧ t = s.1) ∨ (p ≠ 0 ∧ Handed ar s size t p))
  | .freealloc p => ∃ r, freealloc ar s.1 p = some r ∧
      ∀ q ∈ s.2, blockLength r.1 q = blockLength s.1 q

theorem toNat_blockOf (a : Nat) (ha : a + sizeofMemEntry < 2 ^ 64) :
    (blockOf a).toNat = a + sizeofMemEntry := by
  unfold blockOf
  rw [BitVec.toNat_ofNat, Nat.mod_eq_of_lt ha]

/-- The set-up writes the header of the last chunk only. -/
theorem ready_header (ar : Arena) (s : Heap) (live : List (BitVec 64)) (cs : List Nat) (l a : Nat)
    (hc : Chunks ar (ready ar s) live cs l) (hal : a ≠ l) :
    (ready ar s).header a = s.header a := by
  have hlast := hc.last
  unfold ready at hlast ⊢
  by_cases hi : s.initialized = true
  · rw [if_pos hi]
  · rw [if_neg hi] at hlast ⊢
    have hl : ar.dynamicBlock = l := by
      rw [← Option.some.injEq]
      exact hlast
    exact Function.update_of_ne (by rwa [hl]) ..

theorem handed_of_fits (ar : Arena) (s : Alloc) (size : BitVec 32) (cs : List Nat) (l : Nat)
    (hc : Chunks ar (ready ar s.1) s.2 cs l) (hfits : RequestFits ar s (.metalloc size)) :
    blockOf l ≠ 0 ∧ Handed ar s size (allocated (ready ar s.1) l size) (blockOf l) := by
  have hin := (requestFits_iff ar s size cs l hc).mp hfits
  have hlo := (chunks_inArena ar _ s.2 cs l hc l List.mem_concat_self).1
  have hmem := ar.inMemory
  rcases hin with ⟨hin, hend⟩
  have hp := toNat_blockOf l (by simp only [sizeofMemEntry] at hend ⊢; omega)
  have hfront : headerOf (blockOf l) = l :=
    headerOf_blockOf l (by simp only [sizeofMemEntry] at hend; omega)
  -- The blocks that are handed out end before the last chunk.
  have hbefore (q : BitVec 64) (hq : q ∈ s.2) :
      headerOf q < l ∧ q.toNat + blockLength s.1 q ≤ l := by
    rcases hc.block q hq with ⟨hqmem, _, hblock⟩
    have hlt := chunks_before ar _ s.2 cs l hc _ hqmem
    have hq' := toNat_blockOf (headerOf q) (by simp only [sizeofMemEntry] at hend ⊢; omega)
    have hlength := hblock l List.mem_concat_self hlt
    rw [ready_header ar s.1 s.2 cs l _ hc (Nat.ne_of_lt hlt)] at hlength
    rw [blockOf_headerOf] at hq'
    refine ⟨hlt, ?_⟩
    unfold blockLength
    omega
  -- The header of the last chunk is written, and one more behind its block.
  have hwritten (a : Nat) (hal : a ≠ l) (ha : a ≠ l + sizeofMemEntry + size.toNat) :
      (allocated (ready ar s.1) l size).header a = s.1.header a := by
    rw [allocated_other _ l size a hal ha, ready_header ar s.1 s.2 cs l a hc hal]
  refine ⟨fun h => ?_, ?_⟩
  · rw [h, show BitVec.toNat (0 : BitVec 64) = 0 from rfl] at hp
    simp only [sizeofMemEntry] at hp
    omega
  · exact {
      block := by
        rw [hp]
        exact ⟨by omega, by omega⟩
      front := by
        rw [hfront]
        exact ⟨hlo, by omega⟩
      behind := by
        rw [hp]
        exact ⟨hin, hend⟩
      written := fun a ha ha' => by
        rw [hfront] at ha
        rw [hp] at ha'
        exact hwritten a ha ha'
      apart := fun q hq => by
        have hle := (hbefore q hq).2
        rw [hp, hfront]
        exact ⟨Or.inr (by omega), Or.inr hle, Or.inr (by omega)⟩
      length := by
        unfold blockLength
        rw [hfront, allocated_last]
      kept := fun q hq => by
        have hlt := (hbefore q hq).1
        unfold blockLength
        rw [hwritten _ (Nat.ne_of_lt hlt) (by omega)]
      rest := by
        have hroom := (inArena_iff_fits ar _ s.2 cs l hc size).mp ⟨hin, hend⟩
        refine ⟨_, rfl, ?_⟩
        unfold lastSize
        rw [hc.last, allocated_new, rest_toNat _ _ hroom]
        simp only
        omega }

/-- Giving back changes no length of a block. -/
theorem blockOk_freealloc (ar : Arena) (s : Alloc) (hs : AllocOk ar s) (p : BitVec 64) :
    BlockOk ar s (.freealloc p) := by
  rcases hs with ⟨hi, _⟩ | ⟨cs, l, hne, hc⟩
  · exact ⟨_, freealloc_uninitialized ar s.1 p hi, fun _ _ => rfl⟩
  · rcases freealloc_cases ar s.1 s.2 cs l hc hne p with ⟨r, hr, heffect⟩
    refine ⟨r, hr, fun q hq => ?_⟩
    unfold blockLength
    cases heffect with
    | rejected e free => rfl
    | marked mem busy alone => rw [(markFree_same s.1 _ _).2.2]
    | merged d b mem busy prev free before lt succ behind gt =>
        -- The chunk that grows is free, and so not a block.
        have hqd : headerOf q ≠ d := by
          intro h
          have hbusy := (hc.block q hq).2.1
          rw [h, free] at hbusy
          exact absurd hbusy (by simp only [Bool.true_eq_false, not_false_eq_true])
        rw [(merged_same s.1 d _ b _ hqd).2.2]

theorem blockOk_iff (ar : Arena) (s : Alloc) (hs : AllocOk ar s) (op : AllocOp) :
    BlockOk ar s op ↔ RequestFits ar s op := by
  cases op with
  | freealloc p => exact iff_of_true (blockOk_freealloc ar s hs p) trivial
  | metalloc size =>
      rcases chunks_ready ar s hs with ⟨cs, l, hc⟩
      constructor
      · -- Only a request that fits comes back.
        intro h
        rcases h with ⟨t, p, hres, _⟩
        have hstep : allocStep ar s (.metalloc size) = some (t, p :: s.2) := by
          rw [allocStep, hres, Option.map_some]
        exact (requestFits_iff ar s size cs l hc).mpr
          (allocStep_metalloc ar s _ size cs l hc hstep).1
      · intro h
        refine ⟨_, _, ?_, Or.inr (handed_of_fits ar s size cs l hc h)⟩
        rw [metalloc_spec ar s.1 s.2 cs l size hc,
          if_pos ((requestFits_iff ar s size cs l hc).mp h)]

/-- Every request of a run gives a block of its own, or null, just when every request
    fits into the last chunk with a further header. -/
theorem blockOk_iff_fits (ar : Arena) (header : Nat → MemEntry) (freeList : FreeList)
    (ops : List AllocOp) :
    Along (allocStep ar) (BlockOk ar) ops (Heap.start header freeList, []) ↔
      Along (allocStep ar) (RequestFits ar) ops (Heap.start header freeList, []) :=
  along_congr (allocStep ar) (BlockOk ar) (RequestFits ar) (AllocOk ar)
    (fun s op hs => ⟨blockOk_iff ar s hs op, fun s' h => chunks_step ar s s' op hs h⟩) ops _
    (allocOk_start ar header freeList)

/-- A first request for all that 32 bits can ask for. -/
theorem oversized_request : ¬ Along (allocStep zeroArena) (BlockOk zeroArena)
    [.metalloc 4294967295] (zeroHeap, []) := by
  intro h
  rcases h.1 with ⟨t, p, hres, _⟩
  have hnone : (metalloc zeroArena zeroHeap 4294967295).isNone = true := by decide +kernel
  rw [hres] at hnone
  exact absurd hnone (by simp only [Option.isNone_some, Bool.false_eq_true, not_false_eq_true])

end HydraDB

end LocalKeyValue
