import LocalKeyValue.HydraDB.Chunks

/-!
# The Partition of the HydraDB Arena

The chunks of the arena, in the order the headers are linked in, are meant to be
the arena cut into pieces: each ends where the next begins, each points back to
the one before, and the last ends where the arena does. A request keeps this, and
so does marking a chunk free. Merging does not: the chunk that grows now reaches
over the one merged with it, whose header is still the next in the list. The
statement that is to take it out, `pred->succ == ptr->succ`, only compares.

## Main definitions

* `Partitioned`: The arena is cut into the chunks of the list.

## Theorems

* `partitioned_iff`: With the headers linked, what is left is that neighbours meet.
* `follows_allocated`, `follows_markFree`: A request and marking keep it.
* `not_follows_merged`: Merging breaks it.
* `partitioned_iff_noMerge`: The arena stays cut into its chunks just when no chunk
  is merged.
-/

namespace LocalKeyValue

namespace HydraDB

open Links Run

/-- Chunk `a` ends where `b` begins, and `b` points back to it. -/
def Follows (s : Heap) (a b : Nat) : Prop :=
  a + sizeofMemEntry + (s.header a).size.toNat = b ∧ (s.header b).prev = some a

/-- The arena is cut into the chunks `as`. -/
structure Tiles (ar : Arena) (s : Heap) (as : List Nat) : Prop where
  visited : Linked (fun a => (s.header a).succ) s.smallRoot as
  adjacent : as.IsChain (Follows s)
  first : ∀ a ∈ as.head?, a = ar.dynamicBlock ∧ (s.header a).prev = none
  ending : ∃ l ∈ as.getLast?,
    l + sizeofMemEntry + (s.header l).size.toNat = ar.dynamicBlock + blockSize
  total : (as.map fun a => sizeofMemEntry + (s.header a).size.toNat).sum = blockSize

/-- Following `succ` from `smallRoot` visits the pieces that the arena is cut into. -/
def Partitioned (ar : Arena) (s : Heap) : Prop :=
  ∃ as, Tiles ar s as

/-- The lengths of adjacent ranges add up. -/
theorem sum_of_adjacent (len : Nat → Nat) (l : Nat) : ∀ (as : List Nat) (a : Nat),
    (a :: (as ++ [l])).IsChain (fun a b => a + len a = b) →
    a + ((a :: (as ++ [l])).map len).sum = l + len l := by
  intro as
  induction as with
  | nil =>
      intro a h
      have hal := List.rel_of_isChain_cons_cons h
      simp only [List.nil_append, List.map_cons, List.map_nil, List.sum_cons, List.sum_nil]
      omega
  | cons b bs ih =>
      intro a h
      have hab := List.rel_of_isChain_cons_cons h
      have hsum := ih b h.tail
      simp only [List.cons_append, List.map_cons, List.sum_cons] at hsum ⊢
      omega

/-- With the headers linked, the arena is cut into chunks just when neighbours meet
    and the first points back to none. -/
theorem partitioned_iff (ar : Arena) (s : Heap) (live : List (BitVec 64)) (cs : List Nat) (l : Nat)
    (hc : Chunks ar s live cs l) :
    Partitioned ar s ↔
      (cs ++ [l]).IsChain (Follows s) ∧ (s.header ar.dynamicBlock).prev = none := by
  have hhead := chunks_head ar s live cs l hc
  constructor
  · intro h
    rcases h with ⟨as, h⟩
    have hvisited := h.visited
    rw [hc.root] at hvisited
    have has := linked_unique _ as (cs ++ [l]) _ hvisited hc.linked
    subst has
    exact ⟨h.adjacent, (h.first _ hhead).2⟩
  · intro h
    refine ⟨cs ++ [l], ?_, h.1, fun a ha => ?_, ⟨l, List.getLast?_concat, hc.tail⟩, ?_⟩
    · rw [hc.root]
      exact hc.linked
    · rw [hhead, Option.mem_def, Option.some.injEq] at ha
      exact ⟨ha.symm, ha ▸ h.2⟩
    · have htail := hc.tail
      have hadjacent : (cs ++ [l]).IsChain
          (fun a b => a + (sizeofMemEntry + (s.header a).size.toNat) = b) :=
        h.1.imp fun a b hab => by
          have hend := hab.1
          omega
      cases cs with
      | nil =>
          rw [List.nil_append, List.head?_cons, Option.some.injEq] at hhead
          rw [List.nil_append, List.map_singleton, List.sum_singleton]
          omega
      | cons c cs =>
          rw [List.cons_append, List.head?_cons, Option.some.injEq] at hhead
          have hsum := sum_of_adjacent _ l cs c hadjacent
          rw [List.cons_append]
          omega

/-! ## The calls -/

theorem partitioned_initBlock (ar : Arena) (s : Heap) : Partitioned ar (initBlock ar s) := by
  refine (partitioned_iff ar _ [] [] ar.dynamicBlock (chunks_initBlock ar s)).mpr
    ⟨List.isChain_singleton _, ?_⟩
  simp only [initBlock, Function.update_self]

theorem partitioned_ready (ar : Arena) (s : Heap) (h : s.initialized = true → Partitioned ar s) :
    Partitioned ar (ready ar s) := by
  unfold ready
  by_cases hi : s.initialized = true
  · rw [if_pos hi]
    exact h hi
  · rw [if_neg hi]
    exact partitioned_initBlock ar s

/-- The chunk cut off and the rest meet, and the others are as they were. -/
theorem follows_allocated (ar : Arena) (s : Heap) (live : List (BitVec 64)) (cs : List Nat)
    (l : Nat) (hc : Chunks ar s live cs l) (size : BitVec 32)
    (hin : InArena ar (l + sizeofMemEntry + size.toNat)) (h : Partitioned ar s) :
    Partitioned ar (allocated s l size) := by
  rw [partitioned_iff ar s live cs l hc] at h
  rw [partitioned_iff ar _ _ _ _ (chunks_allocated ar s live cs l hc size hin)]
  have hprev := allocated_prev ar s live cs l hc size
  refine ⟨List.isChain_append.mpr ⟨?_, List.isChain_singleton _, fun a ha b hb => ?_⟩, ?_⟩
  · -- The first of two neighbours is not the last chunk.
    refine h.1.imp_of_mem_imp fun a b ha hb hab => ?_
    rcases hab with ⟨hend, hback⟩
    have hal : a ≠ l := by
      -- It lies before the second, which is the last chunk or lies before it.
      have hle := chunks_le_last ar s live cs l hc b hb
      simp only [sizeofMemEntry] at hend
      omega
    have hacs : a ∈ cs := (List.mem_append.mp ha).resolve_right fun hl =>
      hal (List.mem_singleton.mp hl)
    unfold Follows
    rw [hprev b hb, allocated_before ar s live cs l hc size a hacs]
    exact ⟨hend, hback⟩
  · rw [List.getLast?_concat, Option.mem_def, Option.some.injEq] at ha
    rw [List.head?_cons, Option.mem_def, Option.some.injEq] at hb
    unfold Follows
    rw [← ha, ← hb, allocated_last, allocated_new]
    exact ⟨rfl, rfl⟩
  · rw [hprev _ (List.mem_of_mem_head? (chunks_head ar s live cs l hc))]
    exact h.2

theorem follows_markFree (ar : Arena) (s : Heap) (live live' : List (BitVec 64)) (cs : List Nat)
    (l a : Nat) (hc : Chunks ar s live cs l) (hc' : Chunks ar (markFree s a) live' cs l)
    (h : Partitioned ar s) : Partitioned ar (markFree s a) := by
  rw [partitioned_iff ar s live cs l hc] at h
  rw [partitioned_iff ar _ live' cs l hc', (markFree_same s a _).2.1]
  refine ⟨h.1.imp fun b c hbc => ?_, h.2⟩
  unfold Follows
  rw [(markFree_same s a b).2.2, (markFree_same s a c).2.1]
  exact hbc

/-- The chunk that grows reaches over the next. -/
theorem not_follows_merged (ar : Arena) (s : Heap) (live live' : List (BitVec 64)) (cs : List Nat)
    (l q a b : Nat) (hc : Chunks ar s live cs l) (hc' : Chunks ar (merged s q a b) live' cs l)
    (ha : a ∈ cs) (hal : a + sizeofMemEntry + (s.header a).size.toNat ≤ l)
    (hprev : (s.header a).prev = some q) (hqb : q ≠ b) (h : Partitioned ar s) :
    ¬ Partitioned ar (merged s q a b) := by
  rw [partitioned_iff ar s live cs l hc] at h
  rw [partitioned_iff ar _ live' cs l hc']
  intro h'
  have hlinked := hc.linked
  rcases List.append_of_mem (List.mem_append_left [l] ha) with ⟨as, bs, hcs⟩
  rw [hcs] at h h' hlinked
  rcases List.eq_nil_or_concat as with rfl | ⟨as, c, rfl⟩
  · -- The first chunk points back to none.
    have hroot := hlinked.1
    rw [Option.some.injEq] at hroot
    rw [← hroot, h.2] at hprev
    exact absurd hprev (by simp only [reduceCtorEq, not_false_eq_true])
  · rw [List.concat_eq_append, List.append_assoc, List.singleton_append] at h h'
    rcases (List.isChain_append_cons_cons.mp h.1).2.1 with ⟨hend, hback⟩
    rw [hprev, Option.some.injEq] at hback
    subst hback
    have hend' := (List.isChain_append_cons_cons.mp h'.1).2.1.1
    rw [merged_pred s q a b hqb] at hend'
    simp only at hend'
    -- What the size has grown by is not a multiple of 2 ^ 32.
    have hlo := (chunks_inArena ar s live _ l hc a (List.mem_append_left _ ha)).1
    have htail := hc.tail
    simp only [sizeofMemEntry, blockSize] at hal hend hend' htail
    rw [BitVec.toNat_add, BitVec.toNat_add, BitVec.toNat_ofNat] at hend'
    omega

/-! ## Runs -/

/-- Once the arena is set up, it is cut into its chunks. -/
def Intact (ar : Arena) (s : Alloc) : Prop :=
  s.1.initialized = true → Partitioned ar s.1

/-- A request that fits, or a pointer handed out. -/
def FitAndLive (ar : Arena) (s : Alloc) (op : AllocOp) : Prop :=
  RequestFits ar s op ∧ LiveFree s op

instance (ar : Arena) (s : Alloc) (op : AllocOp) : Decidable (FitAndLive ar s op) :=
  inferInstanceAs (Decidable (_ ∧ _))

/-- Such a call comes back, and keeps the partition if it merges nothing. -/
theorem intact_step (ar : Arena) (s : Alloc) (op : AllocOp) (hs : AllocOk ar s) (hp : Intact ar s)
    (hop : FitAndLive ar s op) :
    ∃ s', allocStep ar s op = some s' ∧ AllocOk ar s' ∧ (Intact ar s' ↔ NoMerge s op) := by
  cases op with
  | metalloc size =>
      rcases chunks_ready ar s hs with ⟨cs, l, hc⟩
      have hstep := allocStep_of_fits ar s size cs l hc hop.1
      refine ⟨_, hstep, chunks_step ar s _ _ hs hstep, iff_of_true (fun _ => ?_) trivial⟩
      exact follows_allocated ar _ s.2 cs l hc size ((requestFits_iff ar s size cs l hc).mp hop.1)
        (partitioned_ready ar s.1 hp)
  | freealloc p =>
      have hlive : p ∈ s.2 := hop.2
      rcases chunks_of_live ar s hs p hlive with ⟨cs, l, hne, hc⟩
      rcases allocStep_live ar s p cs l hc hne hlive with ⟨t, hstep, hr⟩
      have hp' := hp hc.initialized
      have hc' := chunks_freealloc ar s.1 s.2 cs l hc p _ hr
      refine ⟨_, hstep, chunks_step ar s _ _ hs hstep, ?_⟩
      cases hr with
      | marked mem busy alone =>
          -- Neither a link nor a size changes.
          exact iff_of_true (fun _ => follows_markFree ar s.1 s.2 _ cs l _ hc hc' hp')
            (fun _ => alone)
      | merged q b mem busy prev free before lt succ behind gt =>
          -- The block of a pointer handed out ends where the next header is, or before.
          refine iff_of_false (fun h => ?_) (fun h => h hlive ⟨q, prev, free⟩)
          have hblock := (hc.block p hlive).2.2 l List.mem_concat_self
            (chunks_before ar s.1 s.2 cs l hc _ mem)
          exact not_follows_merged ar s.1 s.2 _ cs l q _ b hc hc' mem hblock prev (by omega) hp'
            (h hc'.initialized)

/-- Over a run of requests that fit and of pointers given back once, the arena stays
    cut into its chunks just when no chunk is merged. -/
theorem partitioned_iff_noMerge (ar : Arena) (header : Nat → MemEntry) (freeList : FreeList)
    (ops : List AllocOp)
    (hops : Along (allocStep ar) (FitAndLive ar) ops (Heap.start header freeList, [])) :
    Throughout (allocStep ar) (Intact ar) ops (Heap.start header freeList, []) ↔
      Along (allocStep ar) NoMerge ops (Heap.start header freeList, []) := by
  refine throughout_iff_along_of _ _ _ (AllocOk ar) (Intact ar) (fun s op hs hp hop => ?_) ops _
    (allocOk_start ar header freeList)
    (fun hi => absurd hi (by simp only [Heap.start, Bool.false_eq_true, not_false_eq_true])) hops
  rcases intact_step ar s op hs hp hop with ⟨s', hstep, hok, hiff⟩
  simp only [hstep, Option.some.injEq, exists_eq_left', forall_eq']
  exact ⟨hiff, fun _ => hok⟩

theorem partitioned_iff_noMerge_two :
    Throughout (allocStep zeroArena) (Intact zeroArena)
      [.metalloc 8, .metalloc 0, .freealloc 4120] (zeroHeap, []) :=
  (partitioned_iff_noMerge zeroArena _ _ [.metalloc 8, .metalloc 0, .freealloc 4120]
    (by decide +kernel)).mpr (by decide +kernel)

theorem first_follows (ar : Arena) (s : Heap) (a b : Nat) (h : Partitioned ar s)
    (ha : s.smallRoot = some a) (hb : (s.header a).succ = some b) : Follows s a b := by
  rcases h with ⟨as, h⟩
  have hvisited := h.visited
  have hadjacent := h.adjacent
  rw [ha] at hvisited
  cases as with
  | nil => exact absurd hvisited (by simp only [Linked, reduceCtorEq, not_false_eq_true])
  | cons a' as =>
      rcases hvisited with ⟨ha', hvisited⟩
      rw [Option.some.injEq] at ha'
      subst ha'
      simp only [hb] at hvisited
      cases as with
      | nil => exact absurd hvisited (by simp only [Linked, reduceCtorEq, not_false_eq_true])
      | cons b' as =>
          have hb' := hvisited.1
          rw [Option.some.injEq] at hb'
          rw [hb']
          exact List.rel_of_isChain_cons_cons hadjacent

/-- Two blocks given back in the order they were handed out. -/
theorem partition_broken :
    Along (allocStep zeroArena) (FitAndLive zeroArena)
        [.metalloc 8, .metalloc 8, .freealloc 4120, .freealloc 4152] (zeroHeap, []) ∧
      ∃ t, run (allocStep zeroArena)
          [.metalloc 8, .metalloc 8, .freealloc 4120, .freealloc 4152] (zeroHeap, []) = some t ∧
        ¬ Intact zeroArena t := by
  have hrun : ∃ t ∈ run (allocStep zeroArena)
      [.metalloc 8, .metalloc 8, .freealloc 4120, .freealloc 4152] (zeroHeap, []),
      t.1.initialized = true ∧ t.1.smallRoot = some 4096 ∧
        (t.1.header 4096).succ = some 4128 ∧ (t.1.header 4096).size = 40 := by decide +kernel
  rcases hrun with ⟨t, hrun, hi, hroot, hsucc, hsize⟩
  refine ⟨by decide +kernel, t, hrun, fun h => ?_⟩
  have hend := (first_follows zeroArena t.1 4096 4128 (h hi) hroot hsucc).1
  rw [hsize] at hend
  exact absurd hend (by decide)

end HydraDB

end LocalKeyValue
