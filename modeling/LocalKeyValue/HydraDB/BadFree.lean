import LocalKeyValue.HydraDB.Chunks

/-!
# Detecting a Bad Free

`freealloc` is to take an error exit just when the pointer is not one that has been
handed out and not been given back. It compares the pointer with the headers of
the list and then looks at the bit of the header, so what it takes for handed out
are the chunks that are not marked free. Those are the blocks that are handed
out, as long as no chunk has been merged: the header of a merged chunk stays in the
list, and its bit is not set. A second free of its pointer goes through.

## Main definitions

* `Rejected`: The call takes an error exit and changes nothing.
* `Detects`: That is so of the pointers that are not handed out.

## Theorems

* `rejected_iff`: What is let through.
* `detects_iff`: What is to hold of the chunks.
* `detects_step`: A call keeps it if it merges nothing.
* `detects_iff_noMerge`: Bad frees are detected in all states of a run just when it
  merges nothing.
-/

namespace LocalKeyValue

namespace HydraDB

open Run

/-- The call takes an error exit, with the headers and `free_list` as they were. -/
def Rejected (ar : Arena) (s : Heap) (p : BitVec 64) : Prop :=
  ∃ e, freealloc ar s p = some (s, some e)

/-- A pointer is rejected just when it is not one handed out and not given back. -/
def Detects (ar : Arena) (s : Alloc) : Prop :=
  ∀ p, Rejected ar s.1 p ↔ p ∉ s.2

/-- The header in front of a pointer is one of the list, and not marked free. -/
def Busy (s : Heap) (cs : List Nat) (p : BitVec 64) : Prop :=
  headerOf p ∈ cs ∧ (s.header (headerOf p)).isFree = false

theorem rejected_iff (ar : Arena) (s : Heap) (live : List (BitVec 64)) (cs : List Nat) (l : Nat)
    (hc : Chunks ar s live cs l) (hne : cs ≠ []) (p : BitVec 64) :
    Rejected ar s p ↔ ¬ Busy s cs p := by
  rcases freealloc_cases ar s live cs l hc hne p with ⟨r, hr, heffect⟩
  unfold Rejected
  rw [hr]
  cases heffect with
  | rejected e free =>
      refine iff_of_true ⟨e, rfl⟩ (fun hbusy => ?_)
      rw [Busy, free (List.mem_append_left _ hbusy.1)] at hbusy
      exact absurd hbusy.2 (by simp only [Bool.true_eq_false, not_false_eq_true])
  | marked mem busy alone =>
      refine iff_of_false (fun h => ?_) (fun h => h ⟨mem, busy⟩)
      rcases h with ⟨e, he⟩
      simp only [Option.some.injEq, Prod.mk.injEq, reduceCtorEq, and_false] at he
  | merged q b mem busy prev free before lt succ behind gt =>
      refine iff_of_false (fun h => ?_) (fun h => h ⟨mem, busy⟩)
      rcases h with ⟨e, he⟩
      simp only [Option.some.injEq, Prod.mk.injEq, reduceCtorEq, and_false] at he

/-- All chunks that are not marked free are to be handed out. -/
theorem detects_iff (ar : Arena) (s : Alloc) (cs : List Nat) (l : Nat)
    (hc : Chunks ar s.1 s.2 cs l) (hne : cs ≠ []) :
    Detects ar s ↔ ∀ p, Busy s.1 cs p → p ∈ s.2 := by
  unfold Detects
  refine forall_congr' fun p => ?_
  rw [rejected_iff ar s.1 s.2 cs l hc hne p, not_iff_not]
  constructor
  · intro h
    exact h.mp
  · intro h
    refine ⟨h, fun hp => ?_⟩
    rcases hc.block p hp with ⟨hmem, hbusy, _⟩
    exact ⟨hmem, hbusy⟩

theorem detects_start (ar : Arena) (header : Nat → MemEntry) (freeList : FreeList) :
    Detects ar (Heap.start header freeList, []) := by
  intro p
  exact iff_of_true ⟨_, freealloc_uninitialized ar _ p rfl⟩ List.not_mem_nil

/-- The block that a request gives is handed out. -/
theorem detects_allocated (ar : Arena) (s : Heap) (live : List (BitVec 64)) (cs : List Nat)
    (l : Nat) (hc : Chunks ar s live cs l) (size : BitVec 32)
    (hin : InArena ar (l + sizeofMemEntry + size.toNat)) (h : ∀ p, Busy s cs p → p ∈ live) :
    Detects ar (allocated s l size, blockOf l :: live) := by
  rw [detects_iff ar _ _ _ (chunks_allocated ar s live cs l hc size hin) (List.concat_ne_nil l cs)]
  intro p hp
  rcases hp with ⟨hmem, hbusy⟩
  rcases List.mem_append.mp hmem with hmem | hmem
  · rw [allocated_before ar s live cs l hc size _ hmem] at hbusy
    exact List.mem_cons_of_mem _ (h p ⟨hmem, hbusy⟩)
  · rw [List.mem_singleton] at hmem
    rw [← blockOf_headerOf p, hmem]
    exact List.mem_cons_self ..

theorem detects_markFree (ar : Arena) (s : Heap) (live : List (BitVec 64)) (cs : List Nat) (l : Nat)
    (hc : Chunks ar s live cs l) (hne : cs ≠ []) (p : BitVec 64) (hp : headerOf p ∈ cs)
    (h : ∀ p, Busy s cs p → p ∈ live) :
    Detects ar (markFree s (headerOf p), live.filter (· ≠ p)) := by
  rw [detects_iff ar _ cs l (chunks_markFree ar s live cs l hc p hp) hne]
  intro p' hp'
  rcases hp' with ⟨hmem, hbusy⟩
  have hpp : headerOf p' ≠ headerOf p := by
    intro heq
    rw [heq, markFree_self] at hbusy
    exact absurd hbusy (by simp only [Bool.true_eq_false, not_false_eq_true])
  rw [markFree_other s _ _ hpp] at hbusy
  rw [List.mem_filter, decide_eq_true_eq]
  exact ⟨h p' ⟨hmem, hbusy⟩, fun heq => hpp (by rw [heq])⟩

/-- The merged chunk is not marked free, and its pointer is not handed out. -/
theorem not_detects_merged (ar : Arena) (s : Heap) (live : List (BitVec 64)) (cs : List Nat)
    (l q b : Nat) (p : BitVec 64)
    (hc : Chunks ar (merged s q (headerOf p) b) (live.filter (· ≠ p)) cs l) (hne : cs ≠ [])
    (hp : Busy s cs p) (hq : headerOf p ≠ q) :
    ¬ Detects ar (merged s q (headerOf p) b, live.filter (· ≠ p)) := by
  rw [detects_iff ar _ cs l hc hne]
  intro h
  have hmem := h p ⟨hp.1, by rw [(merged_same s q _ b _ hq).2.1, hp.2]⟩
  rw [List.mem_filter, decide_eq_true_eq] at hmem
  exact hmem.2 rfl

/-- A call that comes back keeps bad frees detected just when it merges nothing. -/
theorem detects_step (ar : Arena) (s s' : Alloc) (op : AllocOp) (hs : AllocOk ar s)
    (hd : Detects ar s) (hstep : allocStep ar s op = some s') :
    Detects ar s' ↔ NoMerge s op := by
  cases op with
  | metalloc size =>
      rcases hs with ⟨hi, hlive⟩ | ⟨cs, l, hne, hc⟩
      · -- The set-up leaves a free chunk only.
        have hready : ready ar s.1 = initBlock ar s.1 :=
          if_neg (by rw [hi]; exact Bool.false_ne_true)
        have hc := chunks_initBlock ar s.1
        rw [← hlive, ← hready] at hc
        rcases allocStep_metalloc ar s s' size [] _ hc hstep with ⟨hin, rfl⟩
        exact iff_of_true (detects_allocated ar _ s.2 [] _ hc size hin
          (fun p hp => absurd hp.1 List.not_mem_nil)) trivial
      · have hready := ready_of_initialized ar s.1 hc.initialized
        have hc' := hc
        rw [← hready] at hc'
        rcases allocStep_metalloc ar s s' size cs l hc' hstep with ⟨hin, rfl⟩
        rw [detects_iff ar s cs l hc hne, ← hready] at hd
        exact iff_of_true (detects_allocated ar _ s.2 cs l hc' size hin hd) trivial
  | freealloc p =>
      rcases hs with ⟨hi, hlive⟩ | ⟨cs, l, hne, hc⟩
      · rw [allocStep, freealloc_uninitialized ar s.1 p hi, Option.map_some, Option.some.injEq,
          if_neg (by simp only [reduceCtorEq, not_false_eq_true])] at hstep
        rw [← hstep]
        refine iff_of_true hd (fun hp => ?_)
        rw [hlive] at hp
        exact absurd hp List.not_mem_nil
      · rcases allocStep_freealloc ar s p cs l hc hne with ⟨r, hr, heffect, hstep'⟩
        rw [hstep, Option.some.injEq] at hstep'
        subst hstep'
        have hd' := (detects_iff ar s cs l hc hne).mp hd
        have hc' := chunks_freealloc ar s.1 s.2 cs l hc p r heffect
        cases heffect with
        | rejected e free =>
            -- What is rejected is not handed out, so that nothing is asked of it.
            exact iff_of_true hd (fun hp => absurd hp ((hd p).mp ⟨e, hr⟩))
        | marked mem busy alone =>
            exact iff_of_true (detects_markFree ar s.1 s.2 cs l hc hne p mem hd') (fun _ => alone)
        | merged q b mem busy prev free before lt succ behind gt =>
            -- What is let through is handed out, as bad frees were detected so far.
            exact iff_of_false (not_detects_merged ar s.1 s.2 cs l q b p hc' hne ⟨mem, busy⟩
              (by omega)) (fun h => h (hd' p ⟨mem, busy⟩) ⟨q, prev, free⟩)

/-- Over a run that completes, bad frees are detected in every state just when no
    chunk is merged. -/
theorem detects_iff_noMerge (ar : Arena) (header : Nat → MemEntry) (freeList : FreeList)
    (ops : List AllocOp) (t : Alloc)
    (hrun : run (allocStep ar) ops (Heap.start header freeList, []) = some t) :
    Throughout (allocStep ar) (Detects ar) ops (Heap.start header freeList, []) ↔
      Along (allocStep ar) NoMerge ops (Heap.start header freeList, []) := by
  refine throughout_iff_along_of _ (fun s op => ∃ s', allocStep ar s op = some s') _ (AllocOk ar)
    (Detects ar) (fun s op hs hd hop => ?_) ops _ (allocOk_start ar header freeList)
    (detects_start ar header freeList) (along_of_run _ ops _ t hrun)
  rcases hop with ⟨s', hstep⟩
  simp only [hstep, Option.some.injEq, exists_eq_left', forall_eq']
  exact ⟨detects_step ar s s' op hs hd hstep, fun _ => chunks_step ar s s' op hs hstep⟩

theorem detects_iff_noMerge_three :
    ∃ t, run (allocStep zeroArena) [.metalloc 8, .freealloc 4120, .freealloc 4120]
        (zeroHeap, []) = some t ∧
      Throughout (allocStep zeroArena) (Detects zeroArena)
        [.metalloc 8, .freealloc 4120, .freealloc 4120] (zeroHeap, []) := by
  have hsome : (run (allocStep zeroArena) [.metalloc 8, .freealloc 4120, .freealloc 4120]
      (zeroHeap, [])).isSome = true := by decide +kernel
  rcases Option.isSome_iff_exists.mp hsome with ⟨t, ht⟩
  exact ⟨t, ht, (detects_iff_noMerge zeroArena _ _ _ t ht).mpr (by decide +kernel)⟩

/-- The second of two neighbours is given back twice. -/
theorem second_free_accepted :
    ∃ t, run (allocStep zeroArena)
        [.metalloc 8, .metalloc 8, .freealloc 4120, .freealloc 4152] (zeroHeap, []) = some t ∧
      4152 ∉ t.2 ∧ ¬ Rejected zeroArena t.1 4152 := by
  have hrun : ∃ t ∈ run (allocStep zeroArena)
      [.metalloc 8, .metalloc 8, .freealloc 4120, .freealloc 4152] (zeroHeap, []),
      4152 ∉ t.2 ∧ (freealloc zeroArena t.1 4152).map (fun r => r.2) = some none := by
    decide +kernel
  rcases hrun with ⟨t, hrun, hgone, hfree⟩
  refine ⟨t, hrun, hgone, fun h => ?_⟩
  rcases h with ⟨e, he⟩
  rw [he] at hfree
  exact absurd hfree (by simp only [Option.map_some, Option.some.injEq, reduceCtorEq,
    not_false_eq_true])

end HydraDB

end LocalKeyValue
