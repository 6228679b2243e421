import LocalKeyValue.HydraDB.Blocks

/-!
# The Leak Report of the HydraDB Allocator

`leekHarvest` goes through the headers and adds up the sizes of the chunks that
are not free, which it reports as memory that was not given back. A chunk given
back is marked free, but not if it is merged with the chunk before: its header
stays in the list, and is as busy as before. So the report is of the blocks that
are still handed out and of all those that were merged when they were given
back, and it is the truth just when those were of no bytes.

## Main definitions

* `leekHarvest`: The sum that is reported.
* `mergedBytes`, `lost`: What a call gives back by merging, and what a run does.
* `heldBytes`: The sizes of the blocks handed out.
* `Counted`: What is counted is what is handed out, and some bytes more.

## Theorems

* `leekHarvest_chunks`: The sum over the chunks of the list.
* `countOk_step`: What a call does to the count.
* `leekHarvest_run`: What is reported after any run.
-/

namespace LocalKeyValue

namespace HydraDB

open Links Run

/-- The loop of `leekHarvest` from header `ptr`, with `n` steps to go. -/
def leekFrom (ar : Arena) (s : Heap) : Nat → Option Nat → Option Nat
  | 0, _ => none
  | _ + 1, none => some 0
  | n + 1, some ptr =>
    match header? ar s (some ptr) with
    | none => none
    | some e => (leekFrom ar s n e.succ).map fun rest =>
        (if e.isFree then 0 else e.size.toNat) + rest

/-- `leekHarvest`. The second loop starts at `bigRoot`, which is null: nothing sets it. -/
def leekHarvest (ar : Arena) (s : Heap) : Option Nat :=
  match leekFrom ar s blockSize s.smallRoot with
  | none => none
  | some small => (leekFrom ar s blockSize none).map fun big => small + big

/-- What a chunk counts for. -/
def chunkLeek (s : Heap) (a : Nat) : Nat :=
  if (s.header a).isFree then 0 else (s.header a).size.toNat

/-- The bytes of the blocks that are handed out. -/
def heldBytes (s : Alloc) : Nat :=
  (s.2.map (blockLength s.1)).sum

/-- The bytes of the block that a call gives back by merging its chunk. -/
def mergedBytes (s : Alloc) : AllocOp → Nat
  | .metalloc _ => 0
  | .freealloc p => if Merges s.1 (headerOf p) then blockLength s.1 p else 0

/-- The bytes that a run gives back by merging. -/
def lost (ar : Arena) : List AllocOp → Alloc → Nat
  | [], _ => 0
  | op :: ops, s => mergedBytes s op +
    match allocStep ar s op with
    | none => 0
    | some s' => lost ar ops s'

/-! ## The sum over the chunks -/

theorem leekFrom_linked (ar : Arena) (s : Heap) : ∀ (as : List Nat) (p : Option Nat) (n : Nat),
    Linked (fun a => (s.header a).succ) p as → (∀ a ∈ as, InArena ar a) → as.length < n →
    leekFrom ar s n p = some (as.map (chunkLeek s)).sum := by
  intro as
  induction as with
  | nil =>
      intro p n hlinked _ hn
      cases n with
      | zero => exact absurd hn (Nat.not_lt_zero _)
      | succ n =>
          rw [Linked] at hlinked
          rw [hlinked]
          rfl
  | cons a as ih =>
      intro p n hlinked hin hn
      cases n with
      | zero => exact absurd hn (Nat.not_lt_zero _)
      | succ n =>
          rw [List.forall_mem_cons] at hin
          have hrest := ih _ n hlinked.2 hin.2 (Nat.lt_of_succ_lt_succ hn)
          rw [hlinked.1, leekFrom]
          simp only [header?, if_pos hin.1, hrest, Option.map_some, List.map_cons, List.sum_cons]
          rfl

/-- The last chunk is free, so the sum is over those before it. -/
theorem leekHarvest_chunks (ar : Arena) (s : Heap) (live : List (BitVec 64)) (cs : List Nat)
    (l : Nat) (hc : Chunks ar s live cs l) :
    leekHarvest ar s = some (cs.map (chunkLeek s)).sum := by
  have hlen := chunks_length ar s live cs l hc
  have hsum := leekFrom_linked ar s (cs ++ [l]) _ blockSize hc.linked
    (chunks_inArena ar s live cs l hc) (by simp only [blockSize]; omega)
  have hlast : chunkLeek s l = 0 := by rw [chunkLeek, hc.tail_free, if_pos rfl]
  have hbig : leekFrom ar s blockSize none = some 0 := rfl
  rw [leekHarvest, hc.root, hsum, hbig, List.map_append, List.sum_append]
  simp only [List.map_cons, List.map_nil, List.sum_cons, List.sum_nil, hlast, Option.map_some,
    Nat.add_zero]

/-! ## The calls -/

/-- What is counted is what is handed out, and `gone` bytes more. -/
structure Counted (s : Heap) (live : List (BitVec 64)) (cs : List Nat) (gone : Nat) : Prop where
  nodup : live.Nodup
  sum : (cs.map (chunkLeek s)).sum = (live.map (blockLength s)).sum + gone

theorem counted_allocated (ar : Arena) (s : Heap) (live : List (BitVec 64)) (cs : List Nat)
    (l gone : Nat) (hc : Chunks ar s live cs l) (size : BitVec 32) (h : Counted s live cs gone) :
    Counted (allocated s l size) (blockOf l :: live) (cs ++ [l]) gone := by
  have hl : headerOf (blockOf l) = l := by
    refine headerOf_blockOf l ?_
    have hin := (chunks_inArena ar s live cs l hc l List.mem_concat_self).2
    have hmem := ar.inMemory
    simp only [sizeofMemEntry] at hin
    omega
  have hbefore : ∀ a ∈ cs, chunkLeek (allocated s l size) a = chunkLeek s a := by
    intro a ha
    rw [chunkLeek, allocated_before ar s live cs l hc size a ha, chunkLeek]
  have hlive : ∀ p ∈ live, blockLength (allocated s l size) p = blockLength s p := by
    intro p hp
    rw [blockLength, allocated_before ar s live cs l hc size _ (hc.block p hp).1, blockLength]
  have hnew : chunkLeek (allocated s l size) l = size.toNat := by
    rw [chunkLeek, allocated_last, if_neg (by simp only [Bool.false_eq_true, not_false_eq_true])]
  constructor
  · rw [List.nodup_cons]
    refine ⟨fun hp => ?_, h.nodup⟩
    -- The chunk of a block handed out lies before the last.
    have hlt := chunks_before ar s live cs l hc _ (hc.block _ hp).1
    omega
  · have hblock : blockLength (allocated s l size) (blockOf l) = size.toNat := by
      rw [blockLength, hl, allocated_last]
    simp only [List.map_append, List.sum_append, List.map_cons, List.map_nil, List.sum_cons,
      List.sum_nil, List.map_congr_left hbefore, List.map_congr_left hlive, h.sum, hnew, hblock]
    omega

theorem sum_filter_ne {f : BitVec 64 → Nat} {live : List (BitVec 64)} (hnodup : live.Nodup)
    {p : BitVec 64} (hp : p ∈ live) :
    f p + ((live.filter (· ≠ p)).map f).sum = (live.map f).sum := by
  have hfilter : live.filter (· ≠ p) = live.erase p := by
    rw [hnodup.erase_eq_filter]
    refine List.filter_congr fun q _ => ?_
    simp only [ne_eq, bne, decide_not, BEq.beq]
  rw [hfilter]
  exact ((List.perm_cons_erase hp).map f).sum_nat.symm

theorem counted_marked (ar : Arena) (s : Heap) (live : List (BitVec 64)) (cs : List Nat)
    (l gone : Nat) (hc : Chunks ar s live cs l) (p : BitVec 64) (hp : p ∈ live)
    (h : Counted s live cs gone) :
    Counted (markFree s (headerOf p)) (live.filter (· ≠ p)) cs gone := by
  obtain ⟨hmem, hbusy, _⟩ := hc.block p hp
  have hsame : ∀ q, blockLength (markFree s (headerOf p)) q = blockLength s q := fun q =>
    congrArg BitVec.toNat (markFree_same s (headerOf p) (headerOf q)).2.2
  have hnodup : cs.Nodup := by
    have hsorted := (chunks_sorted ar s live cs l hc).imp fun h => Nat.ne_of_lt h
    exact (List.nodup_append.mp hsorted).1
  have hrest : ∀ a ∈ cs.erase (headerOf p),
      chunkLeek (markFree s (headerOf p)) a = chunkLeek s a := by
    intro a ha
    rw [chunkLeek, markFree_other s _ a (hnodup.mem_erase_iff.mp ha).1, chunkLeek]
  have hself : chunkLeek (markFree s (headerOf p)) (headerOf p) = 0 := by
    rw [chunkLeek, markFree_self]
    exact if_pos rfl
  have hsplit : ∀ f : Nat → Nat,
      (cs.map f).sum = f (headerOf p) + ((cs.erase (headerOf p)).map f).sum := fun f =>
    ((List.perm_cons_erase hmem).map f).sum_nat
  have hbefore : chunkLeek s (headerOf p) = blockLength s p := by
    rw [chunkLeek, hbusy, if_neg (by simp only [Bool.false_eq_true, not_false_eq_true]),
      blockLength]
  constructor
  · exact h.nodup.filter _
  · have hsum := h.sum
    rw [hsplit, hbefore, ← sum_filter_ne h.nodup hp] at hsum
    rw [hsplit, hself, List.map_congr_left hrest, List.map_congr_left fun q _ => hsame q]
    omega

/-- A chunk that is merged goes on being counted. -/
theorem counted_merged (ar : Arena) (s : Heap) (live : List (BitVec 64)) (cs : List Nat)
    (l gone : Nat) (hc : Chunks ar s live cs l) (p : BitVec 64) (hp : p ∈ live) (q b : Nat)
    (hfree : (s.header q).isFree = true) (hqp : q < headerOf p) (hpb : headerOf p < b)
    (h : Counted s live cs gone) :
    Counted (merged s q (headerOf p) b) (live.filter (· ≠ p)) cs (gone + blockLength s p) := by
  have hqb : q ≠ b := by omega
  have hchunk : ∀ a ∈ cs, chunkLeek (merged s q (headerOf p) b) a = chunkLeek s a := by
    intro a _
    by_cases ha : a = q
    · -- The free chunk before it grows, and counts for nothing.
      rw [ha, chunkLeek, merged_pred s q _ b hqb, chunkLeek, hfree]
      exact if_pos rfl
    · have hsame := merged_same s q (headerOf p) b a ha
      rw [chunkLeek, hsame.2.1, hsame.2.2, chunkLeek]
  have hlive : ∀ p' ∈ live.filter (· ≠ p),
      blockLength (merged s q (headerOf p) b) p' = blockLength s p' := by
    intro p' hp'
    obtain ⟨_, hbusy, _⟩ := hc.block p' (mem_given_back live p p' hp').1
    have hne : headerOf p' ≠ q := by
      intro he
      rw [he, hfree] at hbusy
      exact absurd hbusy (by simp only [Bool.true_eq_false, not_false_eq_true])
    exact congrArg BitVec.toNat (merged_same s q (headerOf p) b _ hne).2.2
  constructor
  · exact h.nodup.filter _
  · rw [List.map_congr_left hchunk, h.sum, List.map_congr_left hlive,
      ← sum_filter_ne h.nodup hp]
    omega

/-! ## Runs -/

/-- Before the first request nothing is counted. -/
def CountOk (ar : Arena) (s : Alloc) (gone : Nat) : Prop :=
  (s.1.initialized = false ∧ s.1.smallRoot = none ∧ s.2 = [] ∧ gone = 0) ∨
    ∃ cs l, cs ≠ [] ∧ Chunks ar s.1 s.2 cs l ∧ Counted s.1 s.2 cs gone

/-- A call adds to the count what it hands out, and takes off what it gives back without
    merging. -/
theorem countOk_step (ar : Arena) (s s' : Alloc) (op : AllocOp) (gone : Nat)
    (h : CountOk ar s gone) (hlive : LiveFree s op) (hstep : allocStep ar s op = some s') :
    CountOk ar s' (gone + mergedBytes s op) := by
  cases op with
  | metalloc size =>
      have hready : ∃ cs l, Chunks ar (ready ar s.1) s.2 cs l ∧
          Counted (ready ar s.1) s.2 cs gone := by
        rcases h with ⟨hi, _, hnone, hgone⟩ | ⟨cs, l, _, hc, hcount⟩
        · -- The first request sets up the block as one chunk.
          refine ⟨[], ar.dynamicBlock, ?_, ?_⟩
          · rw [ready, hi, if_neg (by simp only [Bool.false_eq_true, not_false_eq_true]), hnone]
            exact chunks_initBlock ar s.1
          · rw [hnone, hgone]
            exact ⟨List.nodup_nil, rfl⟩
        · rw [ready_of_initialized ar s.1 hc.initialized]
          exact ⟨cs, l, hc, hcount⟩
      rcases hready with ⟨cs, l, hc, hcount⟩
      rcases allocStep_metalloc ar s s' size cs l hc hstep with ⟨hin, rfl⟩
      exact Or.inr ⟨cs ++ [l], _, List.concat_ne_nil l cs,
        chunks_allocated ar _ s.2 cs l hc size hin,
        counted_allocated ar _ s.2 cs l gone hc size hcount⟩
  | freealloc p =>
      rcases h with ⟨_, _, hnone, _⟩ | ⟨cs, l, hne, hc, hcount⟩
      · change p ∈ s.2 at hlive
        rw [hnone] at hlive
        exact absurd hlive List.not_mem_nil
      · rcases allocStep_live ar s p cs l hc hne hlive with ⟨t, ht, heffect⟩
        rw [hstep, Option.some.injEq] at ht
        subst ht
        have hc' := chunks_freealloc ar s.1 s.2 cs l hc p _ heffect
        refine Or.inr ⟨cs, l, hne, hc', ?_⟩
        rw [mergedBytes]
        cases heffect with
        | marked mem busy alone =>
            rw [if_neg alone]
            exact counted_marked ar s.1 s.2 cs l gone hc p hlive hcount
        | merged q b mem busy prev free before lt succ behind gt =>
            rw [if_pos ⟨q, prev, free⟩]
            exact counted_merged ar s.1 s.2 cs l gone hc p hlive q b free lt gt hcount

theorem countOk_run (ar : Arena) : ∀ (ops : List AllocOp) (s t : Alloc) (gone : Nat),
    CountOk ar s gone → Along (allocStep ar) LiveFree ops s →
    run (allocStep ar) ops s = some t → CountOk ar t (gone + lost ar ops s) := by
  intro ops
  induction ops with
  | nil =>
      intro s t gone h _ hrun
      simp only [run, Option.some.injEq] at hrun
      rw [← hrun]
      exact h
  | cons op ops ih =>
      intro s t gone h hlive hrun
      rcases run_cons_eq_some _ op ops s t hrun with ⟨s', hstep, hrest⟩
      rw [along_cons _ _ op ops s s' hstep] at hlive
      have hend := ih s' t _ (countOk_step ar s s' op gone h hlive.1 hstep) hlive.2 hrest
      rw [lost, hstep, ← Nat.add_assoc]
      exact hend

/-- After any run of requests and of pointers given back once, the report is of the bytes
    that are still handed out, and of all those whose chunks were merged when they were
    given back. -/
theorem leekHarvest_run (ar : Arena) (header : Nat → MemEntry) (freeList : FreeList)
    (ops : List AllocOp) (t : Alloc)
    (hlive : Along (allocStep ar) LiveFree ops (Heap.start header freeList, []))
    (hrun : run (allocStep ar) ops (Heap.start header freeList, []) = some t) :
    leekHarvest ar t.1 =
      some (heldBytes t + lost ar ops (Heap.start header freeList, [])) := by
  have hok := countOk_run ar ops _ t 0 (Or.inl ⟨rfl, rfl, rfl, rfl⟩) hlive hrun
  rw [Nat.zero_add] at hok
  rcases hok with ⟨_, hroot, hnone, hgone⟩ | ⟨cs, l, _, hc, hcount⟩
  · rw [hgone, heldBytes, hnone, leekHarvest, hroot]
    rfl
  · rw [leekHarvest_chunks ar t.1 t.2 cs l hc, hcount.sum, heldBytes]

/-- Of two blocks given back in the order they were handed out, the second is reported. -/
theorem leekHarvest_run_two : ∃ t, run (allocStep zeroArena)
    [.metalloc 8, .metalloc 16, .freealloc 4120, .freealloc 4152] (zeroHeap, []) = some t ∧
      leekHarvest zeroArena t.1 = some (heldBytes t + lost zeroArena
        [.metalloc 8, .metalloc 16, .freealloc 4120, .freealloc 4152] (zeroHeap, [])) ∧
      heldBytes t = 0 ∧ lost zeroArena
        [.metalloc 8, .metalloc 16, .freealloc 4120, .freealloc 4152] (zeroHeap, []) = 16 := by
  have hres : ∃ t ∈ run (allocStep zeroArena)
      [.metalloc 8, .metalloc 16, .freealloc 4120, .freealloc 4152] (zeroHeap, []),
      heldBytes t = 0 := by decide +kernel
  rcases hres with ⟨t, hrun, hheld⟩
  exact ⟨t, hrun, leekHarvest_run zeroArena _ _ _ t (by decide +kernel) hrun, hheld,
    by decide +kernel⟩

end HydraDB

end LocalKeyValue
