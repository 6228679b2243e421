import LocalKeyValue.HydraDB.Metalloc
import LocalKeyValue.Lib.Run

/-!
# The Chunks of the HydraDB Arena

What holds of the headers over runs of `metalloc` and `freealloc`, with a record
of the pointers that have been handed out and not been given back. The list of
headers only grows, at its end: a request puts one more behind the last, and
nothing takes one away. No header lies in a block that is handed out, and the
last chunk reaches to the end of the arena.

This is less than the arena being cut into its chunks, which merging breaks. It
is what survives merging, and enough for every call that gives back a pointer
handed out to come back.

## Main definitions

* `AllocOp`, `allocStep`: The calls, and the record of the pointers.
* `ready`: The heap that `metalloc` works on.
* `Chunks`: The invariant.
* `allocated`, `merged`: What the calls leave.

## Theorems

* `metalloc_spec`: A request comes back just when the new header is in the arena.
* `freealloc_cases`: What `freealloc` does with any pointer.
* `chunks_allocated`, `chunks_markFree`, `chunks_merged`: The invariant.
* `chunks_step`: A call keeps it.
-/

namespace LocalKeyValue

namespace HydraDB

open Links Run

/-! ## Calls -/

/-- A call of the allocator. -/
inductive AllocOp
  | metalloc (size : BitVec 32)
  | freealloc (p : BitVec 64)

/-- The heap, and the pointers handed out and not given back. -/
abbrev Alloc := Heap × List (BitVec 64)

/-- A call, with the record of the pointers. A call that takes an error exit gives
    nothing back. -/
def allocStep (ar : Arena) (s : Alloc) : AllocOp → Option Alloc
  | .metalloc size => (metalloc ar s.1 size).map fun r => (r.1, r.2 :: s.2)
  | .freealloc p => (freealloc ar s.1 p).map fun r =>
      (r.1, if r.2 = none then s.2.filter (· ≠ p) else s.2)

/-- A pointer that is given back has been handed out. -/
def LiveFree (s : Alloc) : AllocOp → Prop
  | .metalloc _ => True
  | .freealloc p => p ∈ s.2

instance (s : Alloc) (op : AllocOp) : Decidable (LiveFree s op) :=
  match op with
  | .metalloc _ => isTrue trivial
  | .freealloc p => inferInstanceAs (Decidable (p ∈ s.2))

/-- The heap a request is met from. -/
def ready (ar : Arena) (s : Heap) : Heap :=
  if s.initialized then s else initBlock ar s

/-- The recorded size of the chunk that a request is met from. -/
def lastSize (ar : Arena) (s : Heap) : Nat :=
  match (ready ar s).last with
  | none => 0
  | some l => ((ready ar s).header l).size.toNat

/-- What is asked for fits into the last chunk, with a further header. -/
def RequestFits (ar : Arena) (s : Alloc) : AllocOp → Prop
  | .metalloc size => size.toNat + sizeofMemEntry ≤ lastSize ar s.1
  | .freealloc _ => True

instance (ar : Arena) (s : Alloc) (op : AllocOp) : Decidable (RequestFits ar s op) :=
  match op with
  | .metalloc size => inferInstanceAs (Decidable (size.toNat + sizeofMemEntry ≤ lastSize ar s.1))
  | .freealloc _ => isTrue trivial

theorem ready_of_initialized (ar : Arena) (s : Heap) (hi : s.initialized = true) :
    ready ar s = s :=
  if_pos hi

/-! ## Pointers and headers -/

/-- The pointer to the block behind a header. -/
def blockOf (a : Nat) : BitVec 64 :=
  BitVec.ofNat 64 (a + sizeofMemEntry)

theorem headerOf_blockOf (a : Nat) (ha : a < 2 ^ 64) : headerOf (blockOf a) = a := by
  unfold headerOf blockOf
  rw [BitVec.toNat_sub, BitVec.toNat_ofNat, BitVec.toNat_ofNat]
  simp only [sizeofMemEntry]
  omega

theorem blockOf_headerOf (p : BitVec 64) : blockOf (headerOf p) = p := by
  have hp := p.isLt
  apply BitVec.eq_of_toNat_eq
  unfold headerOf blockOf
  rw [BitVec.toNat_ofNat, BitVec.toNat_sub, BitVec.toNat_ofNat]
  simp only [sizeofMemEntry]
  omega

theorem headerOf_injective (p q : BitVec 64) (h : headerOf p = headerOf q) : p = q := by
  rw [← blockOf_headerOf p, ← blockOf_headerOf q, h]

/-! ## The invariant -/

/-- The headers before the last are `cs`, the last is `l`, and the pointers `live`
    are handed out. -/
structure Chunks (ar : Arena) (s : Heap) (live : List (BitVec 64)) (cs : List Nat) (l : Nat) :
    Prop where
  initialized : s.initialized = true
  root : s.smallRoot = some ar.dynamicBlock
  last : s.last = some l
  linked : Linked (fun a => (s.header a).succ) (some ar.dynamicBlock) (cs ++ [l])
  apart : (cs ++ [l]).Pairwise (fun a b => a + sizeofMemEntry ≤ b)
  tail : l + sizeofMemEntry + (s.header l).size.toNat = ar.dynamicBlock + blockSize
  tail_free : (s.header l).isFree = true
  prev : ∀ a ∈ cs ++ [l], ∀ q, (s.header a).prev = some q → q ∈ cs ∧ q < a
  /-- A block that is handed out has no header in it. -/
  block : ∀ p ∈ live, headerOf p ∈ cs ∧ (s.header (headerOf p)).isFree = false ∧
    ∀ c ∈ cs ++ [l], headerOf p < c →
      headerOf p + sizeofMemEntry + (s.header (headerOf p)).size.toNat ≤ c

theorem chunks_sorted (ar : Arena) (s : Heap) (live : List (BitVec 64)) (cs : List Nat) (l : Nat)
    (hc : Chunks ar s live cs l) : (cs ++ [l]).Pairwise (· < ·) :=
  hc.apart.imp fun h => by
    simp only [sizeofMemEntry] at h
    omega

/-- The first header is the arena's. -/
theorem chunks_head (ar : Arena) (s : Heap) (live : List (BitVec 64)) (cs : List Nat) (l : Nat)
    (hc : Chunks ar s live cs l) : (cs ++ [l]).head? = some ar.dynamicBlock :=
  linked_head _ _ _ hc.linked

/-- The headers before the last lie before it, with room for a header between. -/
theorem chunks_lt_last (ar : Arena) (s : Heap) (live : List (BitVec 64)) (cs : List Nat) (l : Nat)
    (hc : Chunks ar s live cs l) (a : Nat) (ha : a ∈ cs) : a + sizeofMemEntry ≤ l :=
  (List.pairwise_append.mp hc.apart).2.2 a ha l (List.mem_cons_self ..)

theorem chunks_before (ar : Arena) (s : Heap) (live : List (BitVec 64)) (cs : List Nat) (l : Nat)
    (hc : Chunks ar s live cs l) (a : Nat) (ha : a ∈ cs) : a < l := by
  have hle := chunks_lt_last ar s live cs l hc a ha
  simp only [sizeofMemEntry] at hle
  omega

theorem chunks_le_last (ar : Arena) (s : Heap) (live : List (BitVec 64)) (cs : List Nat) (l : Nat)
    (hc : Chunks ar s live cs l) (a : Nat) (ha : a ∈ cs ++ [l]) : a ≤ l := by
  rcases List.mem_append.mp ha with ha | ha
  · exact Nat.le_of_lt (chunks_before ar s live cs l hc a ha)
  · exact Nat.le_of_eq (List.mem_singleton.mp ha)

/-- The headers lie in the arena. -/
theorem chunks_inArena (ar : Arena) (s : Heap) (live : List (BitVec 64)) (cs : List Nat) (l : Nat)
    (hc : Chunks ar s live cs l) (a : Nat) (ha : a ∈ cs ++ [l]) : InArena ar a := by
  have htail := hc.tail
  -- The others come after the first.
  have hroot : ar.dynamicBlock ≤ a := by
    have hhead := chunks_head ar s live cs l hc
    have hsorted := chunks_sorted ar s live cs l hc
    cases hcs : cs ++ [l] with
    | nil => exact absurd hcs (List.concat_ne_nil l cs)
    | cons c ds =>
        rw [hcs] at hhead hsorted ha
        rw [List.head?_cons, Option.some.injEq] at hhead
        rcases List.mem_cons.mp ha with rfl | ha
        · omega
        · have hlt := (List.pairwise_cons.mp hsorted).1 a ha
          omega
  have hle := chunks_le_last ar s live cs l hc a ha
  exact ⟨hroot, by omega⟩

theorem chunks_header (ar : Arena) (s : Heap) (live : List (BitVec 64)) (cs : List Nat) (l : Nat)
    (hc : Chunks ar s live cs l) (a : Nat) (ha : a ∈ cs ++ [l]) :
    header? ar s (some a) = some (s.header a) :=
  if_pos (chunks_inArena ar s live cs l hc a ha)

theorem chunks_succ (ar : Arena) (s : Heap) (live : List (BitVec 64)) (cs : List Nat) (l : Nat)
    (hc : Chunks ar s live cs l) (a : Nat) (ha : a ∈ cs ++ [l]) :
    succ? ar s a = some (s.header a).succ := by
  unfold succ?
  rw [chunks_header ar s live cs l hc a ha]
  rfl

/-- An arena has fewer headers than bytes. -/
theorem chunks_length (ar : Arena) (s : Heap) (live : List (BitVec 64)) (cs : List Nat) (l : Nat)
    (hc : Chunks ar s live cs l) : (cs ++ [l]).length < blockSize := by
  have hnodup : (cs ++ [l]).Nodup := (chunks_sorted ar s live cs l hc).imp fun h => Nat.ne_of_lt h
  have hsub : cs ++ [l] ⊆ List.range' ar.dynamicBlock (blockSize - 1) := by
    intro a ha
    rcases chunks_inArena ar s live cs l hc a ha with ⟨hlo, hhi⟩
    rw [List.mem_range'_1]
    simp only [sizeofMemEntry, blockSize] at hhi ⊢
    omega
  have hle := (hnodup.subperm hsub).length_le
  rw [List.length_range'] at hle
  simp only [blockSize] at hle ⊢
  omega

/-- The size of the one chunk of the set-up is recorded in full. -/
theorem initBlock_size (ar : Arena) (s : Heap) :
    ((initBlock ar s).header ar.dynamicBlock).size.toNat + sizeofMemEntry = blockSize := by
  simp only [initBlock, Function.update_self]
  decide

/-- The set-up leaves one chunk. -/
theorem chunks_initBlock (ar : Arena) (s : Heap) :
    Chunks ar (initBlock ar s) [] [] ar.dynamicBlock where
  initialized := rfl
  root := rfl
  last := rfl
  linked := ⟨rfl, by simp only [initBlock, Function.update_self, Linked]⟩
  apart := List.pairwise_singleton ..
  tail := by
    have hsize := initBlock_size ar s
    omega
  tail_free := by simp only [initBlock, Function.update_self]
  prev := fun a ha q hq => by
    rw [List.nil_append, List.mem_singleton] at ha
    rw [ha] at hq
    simp only [initBlock, Function.update_self, reduceCtorEq] at hq
  block := fun p hp => absurd hp List.not_mem_nil

/-! ## Getting a block -/

/-- The heap after a request met from chunk `l`. -/
def allocated (s : Heap) (l : Nat) (size : BitVec 32) : Heap :=
  let succ := l + sizeofMemEntry + size.toNat
  let rest := (s.header l).size - BitVec.ofNat 32 sizeofMemEntry - size
  { s with
    last := some succ
    header := Function.update
      (Function.update s.header succ { succ := none, prev := some l, isFree := true, size := rest })
      l { succ := some succ, prev := (s.header l).prev, isFree := false, size := size }
    freeList := (insertFreeList (removeFromFreeList s.freeList l).1 succ rest).1 }

theorem allocated_last (s : Heap) (l : Nat) (size : BitVec 32) :
    (allocated s l size).header l =
      { succ := some (l + sizeofMemEntry + size.toNat), prev := (s.header l).prev, isFree := false,
        size := size } :=
  Function.update_self ..

theorem allocated_new (s : Heap) (l : Nat) (size : BitVec 32) :
    (allocated s l size).header (l + sizeofMemEntry + size.toNat) =
      { succ := none, prev := some l, isFree := true,
        size := (s.header l).size - BitVec.ofNat 32 sizeofMemEntry - size } := by
  have hne : l + sizeofMemEntry + size.toNat ≠ l := by
    simp only [sizeofMemEntry]
    omega
  exact (Function.update_of_ne hne ..).trans (Function.update_self ..)

theorem allocated_other (s : Heap) (l : Nat) (size : BitVec 32) (a : Nat) (ha : a ≠ l)
    (ha' : a ≠ l + sizeofMemEntry + size.toNat) :
    (allocated s l size).header a = s.header a :=
  (Function.update_of_ne ha ..).trans (Function.update_of_ne ha' ..)

/-- The headers before the last are as they were. -/
theorem allocated_before (ar : Arena) (s : Heap) (live : List (BitVec 64)) (cs : List Nat) (l : Nat)
    (hc : Chunks ar s live cs l) (size : BitVec 32) (a : Nat) (ha : a ∈ cs) :
    (allocated s l size).header a = s.header a := by
  have hlt := chunks_before ar s live cs l hc a ha
  exact allocated_other s l size a (by omega) (by omega)

/-- They and the last point back as they did. -/
theorem allocated_prev (ar : Arena) (s : Heap) (live : List (BitVec 64)) (cs : List Nat) (l : Nat)
    (hc : Chunks ar s live cs l) (size : BitVec 32) (a : Nat) (ha : a ∈ cs ++ [l]) :
    ((allocated s l size).header a).prev = (s.header a).prev := by
  rcases List.mem_append.mp ha with ha | ha
  · rw [allocated_before ar s live cs l hc size a ha]
  · rw [List.mem_singleton] at ha
    rw [ha, allocated_last]

/-- A request comes back just when the header behind its block is in the arena. -/
theorem metalloc_spec (ar : Arena) (s : Heap) (live : List (BitVec 64)) (cs : List Nat) (l : Nat)
    (size : BitVec 32) (hc : Chunks ar (ready ar s) live cs l) :
    metalloc ar s size =
      if InArena ar (l + sizeofMemEntry + size.toNat) then
        some (allocated (ready ar s) l size, blockOf l) else none := by
  have hin := chunks_inArena ar _ live cs l hc l List.mem_concat_self
  have hend : ((ready ar s).header l).succ = none := linked_last _ l cs _ hc.linked
  have hne : l + sizeofMemEntry + size.toNat ≠ l := by
    simp only [sizeofMemEntry]
    omega
  unfold metalloc
  simp only [← ready.eq_1 ar s, hc.last]
  by_cases hfits : InArena ar (l + sizeofMemEntry + size.toNat)
  · rw [if_neg (not_not.mpr ⟨hin, hfits⟩), if_pos hfits]
    simp only [Heap.setHeader, pointBack, hend, Function.update_self,
      Function.update_of_ne hne, Function.update_of_ne (Ne.symm hne)]
    -- Both headers are written more than once, and the last writes stay.
    rw [Function.update_comm (Ne.symm hne), Function.update_idem, Function.update_idem]
    rfl
  · rw [if_pos (fun hboth => hfits hboth.2), if_neg hfits]

/-- The header behind a block is in the arena just when the block and the header
    fit into the last chunk. -/
theorem inArena_iff_fits (ar : Arena) (s : Heap) (live : List (BitVec 64)) (cs : List Nat) (l : Nat)
    (hc : Chunks ar s live cs l) (size : BitVec 32) :
    InArena ar (l + sizeofMemEntry + size.toNat) ↔
      size.toNat + sizeofMemEntry ≤ (s.header l).size.toNat := by
  have htail := hc.tail
  have hlo := (chunks_inArena ar s live cs l hc l List.mem_concat_self).1
  unfold InArena
  omega

/-- What is left of the last chunk is recorded in full. -/
theorem rest_toNat (left size : BitVec 32) (h : size.toNat + sizeofMemEntry ≤ left.toNat) :
    (left - BitVec.ofNat 32 sizeofMemEntry - size).toNat =
      left.toNat - sizeofMemEntry - size.toNat := by
  simp only [sizeofMemEntry] at h ⊢
  bv_omega

/-- A request keeps the invariant. -/
theorem chunks_allocated (ar : Arena) (s : Heap) (live : List (BitVec 64)) (cs : List Nat) (l : Nat)
    (hc : Chunks ar s live cs l) (size : BitVec 32)
    (hin : InArena ar (l + sizeofMemEntry + size.toNat)) :
    Chunks ar (allocated s l size) (blockOf l :: live) (cs ++ [l])
      (l + sizeofMemEntry + size.toNat) := by
  have hfits := (inArena_iff_fits ar s live cs l hc size).mp hin
  have hlast := (chunks_inArena ar s live cs l hc l List.mem_concat_self).2
  have hlive : headerOf (blockOf l) = l := by
    have hmem := ar.inMemory
    simp only [sizeofMemEntry] at hlast
    exact headerOf_blockOf l (by omega)
  have hsame := allocated_before ar s live cs l hc size
  exact {
    initialized := hc.initialized
    root := hc.root
    last := rfl
    linked := linked_extend _ _ l _ (by rw [allocated_last]) (by rw [allocated_new]) cs _
      (fun a ha => by rw [hsame a ha]) hc.linked
    apart := by
      refine List.pairwise_append.mpr ⟨hc.apart, List.pairwise_singleton .., fun a ha b hb => ?_⟩
      have hle := chunks_le_last ar s live cs l hc a ha
      rw [List.mem_singleton] at hb
      rw [hb]
      omega
    tail := by
      have htail := hc.tail
      rw [allocated_new, rest_toNat _ _ hfits]
      omega
    tail_free := by rw [allocated_new]
    prev := fun a ha q hq => by
      rcases List.mem_append.mp ha with ha | ha
      · -- An old header points back as before, to one that is no longer the last.
        rw [allocated_prev ar s live cs l hc size a ha] at hq
        rcases hc.prev a ha q hq with ⟨hq', hqa⟩
        exact ⟨List.mem_append_left _ hq', hqa⟩
      · rw [List.mem_singleton] at ha
        rw [ha, allocated_new, Option.some.injEq] at hq
        rw [ha, ← hq]
        exact ⟨List.mem_concat_self, by
          simp only [sizeofMemEntry]
          omega⟩
    block := fun p hp => by
      rcases List.mem_cons.mp hp with rfl | hp
      · rw [hlive, allocated_last]
        refine ⟨List.mem_concat_self, rfl, fun c hcm hlc => ?_⟩
        -- Only the new header lies behind the block.
        rcases List.mem_append.mp hcm with hcm | hcm
        · have hle := chunks_le_last ar s live cs l hc c hcm
          omega
        · rw [List.mem_singleton] at hcm
          exact Nat.le_of_eq hcm.symm
      · -- An older block ends before the chunk that has been cut.
        rcases hc.block p hp with ⟨hmem, hbusy, hblock⟩
        rw [hsame _ hmem]
        refine ⟨List.mem_append_left _ hmem, hbusy, fun c hcm hpc => ?_⟩
        rcases List.mem_append.mp hcm with hcm | hcm
        · exact hblock c hcm hpc
        · have hle := hblock l List.mem_concat_self (chunks_before ar s live cs l hc _ hmem)
          rw [List.mem_singleton] at hcm
          omega }

/-! ## Giving it back -/

/-- The chunk before, as the header has it, is free. -/
def Merges (s : Heap) (a : Nat) : Prop :=
  ∃ q, (s.header a).prev = some q ∧ (s.header q).isFree = true

theorem not_merges_of_none (s : Heap) (a : Nat) (hprev : (s.header a).prev = none) :
    ¬ Merges s a := by
  intro h
  rcases h with ⟨q, hq, _⟩
  rw [hprev] at hq
  exact absurd hq (by simp only [reduceCtorEq, not_false_eq_true])

theorem merges_iff (s : Heap) (a q : Nat) (hprev : (s.header a).prev = some q) :
    Merges s a ↔ (s.header q).isFree = true := by
  simp only [Merges, hprev, Option.some.injEq, exists_eq_left']

instance (s : Heap) (a : Nat) : Decidable (Merges s a) :=
  match hq : (s.header a).prev with
  | none => isFalse (not_merges_of_none s a hq)
  | some q => decidable_of_iff _ (merges_iff s a q hq).symm

/-- The heap after chunk `a`, with `b` behind it, has been merged with the free
    chunk `q`. Header `a` stays in the list. -/
def merged (s : Heap) (q a b : Nat) : Heap :=
  let size := (s.header q).size + (BitVec.ofNat 32 sizeofMemEntry + (s.header a).size)
  { s with
    header := Function.update (Function.update s.header q { s.header q with size := size }) b
      { s.header b with prev := some q }
    freeList := clearFirst (resizeFirst s.freeList (some q) size) (some a) }

theorem merged_pred (s : Heap) (q a b : Nat) (hqb : q ≠ b) : (merged s q a b).header q =
    { s.header q with
      size := (s.header q).size + (BitVec.ofNat 32 sizeofMemEntry + (s.header a).size) } :=
  (Function.update_of_ne hqb ..).trans (Function.update_self ..)

theorem merged_succ (s : Heap) (q a b : Nat) :
    (merged s q a b).header b = { s.header b with prev := some q } :=
  Function.update_self ..

theorem merged_other (s : Heap) (q a b c : Nat) (hcq : c ≠ q) (hcb : c ≠ b) :
    (merged s q a b).header c = s.header c :=
  (Function.update_of_ne hcb ..).trans (Function.update_of_ne hcq ..)

/-- The pointer given back is none whose chunk will be merged. -/
def NoMerge (s : Alloc) : AllocOp → Prop
  | .metalloc _ => True
  | .freealloc p => p ∈ s.2 → ¬ Merges s.1 (headerOf p)

instance (s : Alloc) (op : AllocOp) : Decidable (NoMerge s op) :=
  match op with
  | .metalloc _ => isTrue trivial
  | .freealloc p => inferInstanceAs (Decidable (p ∈ s.2 → ¬ Merges s.1 (headerOf p)))

theorem mergeFree_spec (ar : Arena) (s : Heap) (q a b : Nat) (hqa : q < a) (hab : a < b)
    (hprev : (s.header a).prev = some q) (hsucc : (s.header a).succ = some b)
    (hin : InArena ar b) : mergeFree ar s q a = some (merged s q a b) := by
  have hqa' : a ≠ q := Nat.ne_of_gt hqa
  have hab' : a ≠ b := Nat.ne_of_lt hab
  have hqb : b ≠ q := by omega
  unfold mergeFree
  simp only [Heap.setHeader, Function.update_self, Function.update_of_ne hqa', hsucc, pointBack,
    if_pos hin, Function.update_of_ne hqb, Function.update_of_ne (Ne.symm hqb), updateFreeList,
    Function.update_of_ne hab', hprev]
  rfl

/-- A chunk before the last has one behind it. -/
theorem chunks_next (ar : Arena) (s : Heap) (live : List (BitVec 64)) (cs : List Nat) (l : Nat)
    (hc : Chunks ar s live cs l) (a : Nat) (ha : a ∈ cs) :
    ∃ b, (s.header a).succ = some b ∧ b ∈ cs ++ [l] ∧ a < b := by
  rcases List.append_of_mem ha with ⟨as, bs, rfl⟩
  have hsorted := chunks_sorted ar s live _ l hc
  have hlinked := hc.linked
  rw [List.append_assoc, List.cons_append] at hsorted hlinked
  rcases linked_next _ a as (bs ++ [l]) _ (by simp only [ne_eq, List.append_eq_nil_iff,
    List.cons_ne_nil, and_false, not_false_eq_true]) hlinked with ⟨b, hb, hmem⟩
  refine ⟨b, hb, ?_, ?_⟩
  · rw [List.append_assoc, List.cons_append]
    exact List.mem_append_right _ (List.mem_cons_of_mem a hmem)
  · exact (List.pairwise_cons.mp (List.pairwise_append.mp hsorted).2.1).1 b hmem

theorem seekHeader_found (ar : Arena) (s : Heap) (live : List (BitVec 64)) (cs : List Nat) (l : Nat)
    (hc : Chunks ar s live cs l) (a : Nat) (ha : a ∈ cs ++ [l]) :
    seekHeader ar s a = some (.found a) := by
  unfold seekHeader
  rw [hc.root]
  exact seek_found (succ? ar s) (fun a => (s.header a).succ) a (cs ++ [l]) _ blockSize hc.linked
    (chunks_succ ar s live cs l hc) (chunks_sorted ar s live cs l hc)
    (chunks_length ar s live cs l hc) ha

theorem seekHeader_missing (ar : Arena) (s : Heap) (live : List (BitVec 64)) (cs : List Nat)
    (l : Nat) (hc : Chunks ar s live cs l) (a : Nat) (ha : a ∉ cs ++ [l]) :
    seekHeader ar s a = some .passed ∨ seekHeader ar s a = some .ended := by
  unfold seekHeader
  rw [hc.root]
  rcases seek_missing (succ? ar s) (fun a => (s.header a).succ) a (cs ++ [l]) _ blockSize hc.linked
    (chunks_succ ar s live cs l hc) (chunks_sorted ar s live cs l hc)
    (chunks_length ar s live cs l hc) ha with ⟨_, h⟩ | ⟨_, h⟩
  · exact Or.inl h
  · exact Or.inr h

/-- With two headers or more, no null pointer is followed on the way to the end. -/
theorem lastButOne_of_linked (ar : Arena) (s : Heap) (c l : Nat) :
    ∀ (as : List Nat) (p : Option Nat) (n : Nat),
      Linked (fun a => (s.header a).succ) p (as ++ [c, l]) →
      (∀ a ∈ as ++ [c, l], succ? ar s a = some (s.header a).succ) → as.length < n →
      lastButOne ar s n p = some () := by
  intro as
  induction as with
  | nil =>
      intro p n h hread hn
      rcases Nat.exists_eq_succ_of_ne_zero (Nat.ne_of_gt hn) with ⟨n, rfl⟩
      have hl : (s.header l).succ = none := h.2.2
      rw [h.1]
      simp only [lastButOne, hread c (List.mem_cons_self ..), h.2.1,
        hread l (List.mem_cons_of_mem c (List.mem_cons_self ..)), hl]
  | cons a as ih =>
      intro p n h hread hn
      rcases Nat.exists_eq_succ_of_ne_zero (Nat.ne_of_gt (Nat.zero_lt_of_lt hn)) with ⟨n, rfl⟩
      have hrest := ih (s.header a).succ n h.2 (fun b hb => hread b (List.mem_cons_of_mem a hb))
        (Nat.lt_of_succ_lt_succ hn)
      rcases linked_next _ a [] (as ++ [c, l]) p (by simp only [ne_eq, List.append_eq_nil_iff,
        List.cons_ne_nil, and_false, not_false_eq_true]) h with ⟨b, hb, hmem⟩
      rw [h.1]
      simp only [lastButOne, hread a (List.mem_cons_self ..), hb,
        hread b (List.mem_cons_of_mem a hmem)]
      -- The loop stops before the last header, or goes on from the next one.
      cases (s.header b).succ with
      | none => rfl
      | some d =>
          rw [hb] at hrest
          exact hrest

theorem lastButOne_of_chunks (ar : Arena) (s : Heap) (live : List (BitVec 64)) (cs : List Nat)
    (l : Nat) (hc : Chunks ar s live cs l) (hne : cs ≠ []) :
    lastButOne ar s blockSize s.smallRoot = some () := by
  rcases List.eq_nil_or_concat cs with hnil | ⟨as, c, hcs⟩
  · exact absurd hnil hne
  · have hlist : cs ++ [l] = as ++ [c, l] := by
      rw [hcs, List.concat_eq_append, List.append_assoc, List.singleton_append]
    have hlength := chunks_length ar s live cs l hc
    have hlinked := hc.linked
    have hread := chunks_succ ar s live cs l hc
    rw [hlist] at hlength hlinked hread
    rw [List.length_append] at hlength
    rw [hc.root]
    exact lastButOne_of_linked ar s c l as _ blockSize hlinked hread (by omega)

/-- What `freealloc` does. -/
inductive FreeEffect (s : Heap) (cs : List Nat) (l : Nat) (p : BitVec 64) :
    Heap × Option FreeError → Prop
  /-- It is given no chunk, or a free one. -/
  | rejected (e : FreeError)
      (free : headerOf p ∈ cs ++ [l] → (s.header (headerOf p)).isFree = true) :
      FreeEffect s cs l p (s, some e)
  | marked (mem : headerOf p ∈ cs) (busy : (s.header (headerOf p)).isFree = false)
      (alone : ¬ Merges s (headerOf p)) : FreeEffect s cs l p (markFree s (headerOf p), none)
  | merged (q b : Nat) (mem : headerOf p ∈ cs) (busy : (s.header (headerOf p)).isFree = false)
      (prev : (s.header (headerOf p)).prev = some q) (free : (s.header q).isFree = true)
      (before : q ∈ cs) (lt : q < headerOf p) (succ : (s.header (headerOf p)).succ = some b)
      (behind : b ∈ cs ++ [l]) (gt : headerOf p < b) :
      FreeEffect s cs l p (merged s q (headerOf p) b, none)

theorem freealloc_missing (ar : Arena) (s : Heap) (live : List (BitVec 64)) (cs : List Nat)
    (l : Nat) (hc : Chunks ar s live cs l) (hne : cs ≠ []) (p : BitVec 64)
    (hmem : headerOf p ∉ cs ++ [l]) : ∃ e, freealloc ar s p = some (s, some e) := by
  unfold freealloc
  rw [hc.initialized, if_neg (by simp only [Bool.true_eq_false, not_false_eq_true])]
  rcases seekHeader_missing ar s live cs l hc _ hmem with hseek | hseek
  · rw [hseek]
    exact ⟨_, rfl⟩
  · simp only [hseek, lastButOne_of_chunks ar s live cs l hc hne]
    exact ⟨_, rfl⟩

theorem freealloc_found (ar : Arena) (s : Heap) (live : List (BitVec 64)) (cs : List Nat) (l : Nat)
    (hc : Chunks ar s live cs l) (p : BitVec 64) (hmem : headerOf p ∈ cs ++ [l]) :
    ∃ r, freealloc ar s p = some r ∧ FreeEffect s cs l p r := by
  unfold freealloc
  rw [hc.initialized, if_neg (by simp only [Bool.true_eq_false, not_false_eq_true]),
    seekHeader_found ar s live cs l hc _ hmem]
  simp only [chunks_header ar s live cs l hc _ hmem]
  by_cases hfree : (s.header (headerOf p)).isFree = true
  · rw [if_pos hfree]
    exact ⟨_, rfl, FreeEffect.rejected .alreadyFree (fun _ => hfree)⟩
  · have hbusy := Bool.eq_false_iff.mpr hfree
    have hcs : headerOf p ∈ cs := by
      -- The last chunk is free.
      rcases List.mem_append.mp hmem with hcs | hl
      · exact hcs
      · rw [List.mem_singleton] at hl
        rw [hl] at hfree
        exact absurd hc.tail_free hfree
    rw [if_neg hfree]
    cases hprev : (s.header (headerOf p)).prev with
    | none => exact ⟨_, rfl, FreeEffect.marked hcs hbusy (not_merges_of_none s _ hprev)⟩
    | some q =>
        rcases hc.prev _ hmem q hprev with ⟨hq, hlt⟩
        simp only [chunks_header ar s live cs l hc q (List.mem_append_left _ hq)]
        by_cases hqfree : (s.header q).isFree = true
        · rcases chunks_next ar s live cs l hc _ hcs with ⟨b, hb, hbmem, hgt⟩
          rw [if_pos hqfree, mergeFree_spec ar s q _ b hlt hgt hprev hb
            (chunks_inArena ar s live cs l hc b hbmem)]
          exact ⟨_, rfl, FreeEffect.merged q b hcs hbusy hprev hqfree hq hlt hb hbmem hgt⟩
        · rw [if_neg hqfree]
          exact ⟨_, rfl, FreeEffect.marked hcs hbusy fun hm =>
            hqfree ((merges_iff s _ q hprev).mp hm)⟩

/-- `freealloc` comes back from any pointer once a block has been handed out. -/
theorem freealloc_cases (ar : Arena) (s : Heap) (live : List (BitVec 64)) (cs : List Nat) (l : Nat)
    (hc : Chunks ar s live cs l) (hne : cs ≠ []) (p : BitVec 64) :
    ∃ r, freealloc ar s p = some r ∧ FreeEffect s cs l p r := by
  by_cases hmem : headerOf p ∈ cs ++ [l]
  · exact freealloc_found ar s live cs l hc p hmem
  · rcases freealloc_missing ar s live cs l hc hne p hmem with ⟨e, he⟩
    exact ⟨_, he, FreeEffect.rejected e (fun h => absurd h hmem)⟩

theorem markFree_self (s : Heap) (a : Nat) :
    (markFree s a).header a = { s.header a with isFree := true } :=
  Function.update_self ..

theorem markFree_other (s : Heap) (a c : Nat) (hca : c ≠ a) :
    (markFree s a).header c = s.header c :=
  Function.update_of_ne hca ..

/-- Marking a chunk changes no link and no size. -/
theorem markFree_same (s : Heap) (a c : Nat) :
    ((markFree s a).header c).succ = (s.header c).succ ∧
      ((markFree s a).header c).prev = (s.header c).prev ∧
        ((markFree s a).header c).size = (s.header c).size := by
  by_cases hca : c = a
  · rw [hca, markFree_self]
    exact ⟨rfl, rfl, rfl⟩
  · rw [markFree_other s a c hca]
    exact ⟨rfl, rfl, rfl⟩

/-- A pointer that is still handed out is another one, with a chunk of its own. -/
theorem mem_given_back (live : List (BitVec 64)) (p q : BitVec 64)
    (hq : q ∈ live.filter (· ≠ p)) : q ∈ live ∧ headerOf q ≠ headerOf p := by
  rw [List.mem_filter, decide_eq_true_eq] at hq
  exact ⟨hq.1, fun h => hq.2 (headerOf_injective q p h)⟩

theorem chunks_markFree (ar : Arena) (s : Heap) (live : List (BitVec 64)) (cs : List Nat) (l : Nat)
    (hc : Chunks ar s live cs l) (p : BitVec 64) (hp : headerOf p ∈ cs) :
    Chunks ar (markFree s (headerOf p)) (live.filter (· ≠ p)) cs l := by
  have hsame := markFree_same s (headerOf p)
  have hl : l ≠ headerOf p := Nat.ne_of_gt (chunks_before ar s live cs l hc _ hp)
  exact {
    initialized := hc.initialized
    root := hc.root
    last := hc.last
    linked := linked_congr _ _ _ _ (fun a _ => (hsame a).1) hc.linked
    apart := hc.apart
    tail := by
      rw [markFree_other s _ l hl]
      exact hc.tail
    tail_free := by
      rw [markFree_other s _ l hl]
      exact hc.tail_free
    prev := fun a ha q hq => by
      rw [(hsame a).2.1] at hq
      exact hc.prev a ha q hq
    block := fun q hq => by
      rcases mem_given_back live p q hq with ⟨hmem, hne⟩
      rw [markFree_other s _ _ hne]
      exact hc.block q hmem }

/-- Of a header other than the one that grows, merging may change where it points
    back to. -/
theorem merged_same (s : Heap) (q a b c : Nat) (hcq : c ≠ q) :
    ((merged s q a b).header c).succ = (s.header c).succ ∧
      ((merged s q a b).header c).isFree = (s.header c).isFree ∧
        ((merged s q a b).header c).size = (s.header c).size := by
  by_cases hcb : c = b
  · rw [hcb, merged_succ]
    exact ⟨rfl, rfl, rfl⟩
  · rw [merged_other s q a b c hcq hcb]
    exact ⟨rfl, rfl, rfl⟩

/-- The chunk that grows is free, so the blocks that are handed out keep theirs. -/
theorem chunks_merged (ar : Arena) (s : Heap) (live live' : List (BitVec 64)) (cs : List Nat)
    (l : Nat) (hc : Chunks ar s live cs l) (q a b : Nat) (hq : q ∈ cs) (hqa : q < a) (hab : a < b)
    (hfree : (s.header q).isFree = true) (hlive : ∀ p ∈ live', p ∈ live) :
    Chunks ar (merged s q a b) live' cs l := by
  have hqb : q ≠ b := by omega
  have hlq : l ≠ q := Nat.ne_of_gt (chunks_before ar s live cs l hc q hq)
  have hl := merged_same s q a b l hlq
  exact {
    initialized := hc.initialized
    root := hc.root
    last := hc.last
    linked := by
      refine linked_congr _ _ _ _ (fun c _ => ?_) hc.linked
      by_cases hcq : c = q
      · rw [hcq, merged_pred s q a b hqb]
      · exact (merged_same s q a b c hcq).1
    apart := hc.apart
    tail := by
      rw [hl.2.2]
      exact hc.tail
    tail_free := by
      rw [hl.2.1]
      exact hc.tail_free
    prev := fun c hcm d hd => by
      -- Only the chunk behind is made to point back to another.
      by_cases hcb : c = b
      · rw [hcb, merged_succ, Option.some.injEq] at hd
        rw [hcb, ← hd]
        exact ⟨hq, by omega⟩
      · by_cases hcq : c = q
        · rw [hcq, merged_pred s q a b hqb] at hd
          exact hc.prev c hcm d (by rw [hcq]; exact hd)
        · rw [merged_other s q a b c hcq hcb] at hd
          exact hc.prev c hcm d hd
    block := fun p hp => by
      rcases hc.block p (hlive p hp) with ⟨hmem, hbusy, hblock⟩
      have hne : headerOf p ≠ q := by
        intro h
        rw [h, hfree] at hbusy
        exact absurd hbusy (by simp only [Bool.true_eq_false, not_false_eq_true])
      have hsame := merged_same s q a b _ hne
      rw [hsame.2.1, hsame.2.2]
      exact ⟨hmem, hbusy, hblock⟩ }

/-! ## Runs -/

/-- Before the first call, or with at least one block cut off. -/
def AllocOk (ar : Arena) (s : Alloc) : Prop :=
  (s.1.initialized = false ∧ s.2 = []) ∨ ∃ cs l, cs ≠ [] ∧ Chunks ar s.1 s.2 cs l

theorem allocOk_start (ar : Arena) (header : Nat → MemEntry) (freeList : FreeList) :
    AllocOk ar (Heap.start header freeList, []) :=
  Or.inl ⟨rfl, rfl⟩

/-- The heap a request is met from has its chunks. -/
theorem chunks_ready (ar : Arena) (s : Alloc) (hs : AllocOk ar s) :
    ∃ cs l, Chunks ar (ready ar s.1) s.2 cs l := by
  rcases hs with ⟨hi, hlive⟩ | ⟨cs, l, _, hc⟩
  · refine ⟨[], ar.dynamicBlock, ?_⟩
    unfold ready
    rw [hi, if_neg (by simp only [Bool.false_eq_true, not_false_eq_true]), hlive]
    exact chunks_initBlock ar s.1
  · rw [ready_of_initialized ar s.1 hc.initialized]
    exact ⟨cs, l, hc⟩

/-- A request that comes back. -/
theorem allocStep_metalloc (ar : Arena) (s s' : Alloc) (size : BitVec 32) (cs : List Nat) (l : Nat)
    (hc : Chunks ar (ready ar s.1) s.2 cs l) (h : allocStep ar s (.metalloc size) = some s') :
    InArena ar (l + sizeofMemEntry + size.toNat) ∧
      s' = (allocated (ready ar s.1) l size, blockOf l :: s.2) := by
  rw [allocStep, metalloc_spec ar s.1 s.2 cs l size hc] at h
  by_cases hin : InArena ar (l + sizeofMemEntry + size.toNat)
  · rw [if_pos hin, Option.map_some, Option.some.injEq] at h
    exact ⟨hin, h.symm⟩
  · rw [if_neg hin] at h
    exact absurd h (by simp only [Option.map_none, reduceCtorEq, not_false_eq_true])

theorem requestFits_iff (ar : Arena) (s : Alloc) (size : BitVec 32) (cs : List Nat) (l : Nat)
    (hc : Chunks ar (ready ar s.1) s.2 cs l) :
    RequestFits ar s (.metalloc size) ↔ InArena ar (l + sizeofMemEntry + size.toNat) := by
  rw [inArena_iff_fits ar _ s.2 cs l hc size]
  unfold RequestFits lastSize
  rw [hc.last]

/-- A request comes back if it fits. -/
theorem allocStep_of_fits (ar : Arena) (s : Alloc) (size : BitVec 32) (cs : List Nat) (l : Nat)
    (hc : Chunks ar (ready ar s.1) s.2 cs l) (hfits : RequestFits ar s (.metalloc size)) :
    allocStep ar s (.metalloc size) =
      some (allocated (ready ar s.1) l size, blockOf l :: s.2) := by
  rw [allocStep, metalloc_spec ar s.1 s.2 cs l size hc,
    if_pos ((requestFits_iff ar s size cs l hc).mp hfits), Option.map_some]

/-- A pointer given back, once a block has been handed out. -/
theorem allocStep_freealloc (ar : Arena) (s : Alloc) (p : BitVec 64) (cs : List Nat) (l : Nat)
    (hc : Chunks ar s.1 s.2 cs l) (hne : cs ≠ []) :
    ∃ r, freealloc ar s.1 p = some r ∧ FreeEffect s.1 cs l p r ∧
      allocStep ar s (.freealloc p) =
        some (r.1, if r.2 = none then s.2.filter (· ≠ p) else s.2) := by
  rcases freealloc_cases ar s.1 s.2 cs l hc hne p with ⟨r, hr, heffect⟩
  exact ⟨r, hr, heffect, by rw [allocStep, hr, Option.map_some]⟩

/-- Before the first request `freealloc` reports that there is nothing to free. -/
theorem freealloc_uninitialized (ar : Arena) (s : Heap) (p : BitVec 64)
    (hi : s.initialized = false) : freealloc ar s p = some (s, some .uninitialized) := by
  unfold freealloc
  rw [if_pos hi]

/-- Once a block has been handed out the arena is set up. -/
theorem chunks_of_live (ar : Arena) (s : Alloc) (hs : AllocOk ar s) (p : BitVec 64)
    (hp : p ∈ s.2) : ∃ cs l, cs ≠ [] ∧ Chunks ar s.1 s.2 cs l := by
  rcases hs with ⟨_, hlive⟩ | hc
  · rw [hlive] at hp
    exact absurd hp List.not_mem_nil
  · exact hc

/-- A pointer that has been handed out is taken back. -/
theorem allocStep_live (ar : Arena) (s : Alloc) (p : BitVec 64) (cs : List Nat) (l : Nat)
    (hc : Chunks ar s.1 s.2 cs l) (hne : cs ≠ []) (hp : p ∈ s.2) :
    ∃ t, allocStep ar s (.freealloc p) = some (t, s.2.filter (· ≠ p)) ∧
      FreeEffect s.1 cs l p (t, none) := by
  rcases allocStep_freealloc ar s p cs l hc hne with ⟨r, _, hr, hstep⟩
  rcases hc.block p hp with ⟨hmem, hbusy, _⟩
  cases hr with
  | rejected e free =>
      have hfree := free (List.mem_append_left _ hmem)
      rw [hbusy] at hfree
      exact absurd hfree (by simp only [Bool.false_eq_true, not_false_eq_true])
  | marked mem busy alone => exact ⟨_, hstep, FreeEffect.marked mem busy alone⟩
  | merged q b mem busy prev free before lt succ behind gt =>
      exact ⟨_, hstep, FreeEffect.merged q b mem busy prev free before lt succ behind gt⟩

theorem chunks_freealloc (ar : Arena) (s : Heap) (live : List (BitVec 64)) (cs : List Nat) (l : Nat)
    (hc : Chunks ar s live cs l) (p : BitVec 64) (r : Heap × Option FreeError)
    (hr : FreeEffect s cs l p r) :
    Chunks ar r.1 (if r.2 = none then live.filter (· ≠ p) else live) cs l := by
  cases hr with
  | rejected e free =>
      rw [if_neg (by simp only [reduceCtorEq, not_false_eq_true])]
      exact hc
  | marked mem busy alone =>
      rw [if_pos rfl]
      exact chunks_markFree ar s live cs l hc p mem
  | merged q b mem busy prev free before lt succ behind gt =>
      rw [if_pos rfl]
      exact chunks_merged ar s live _ cs l hc q _ b before lt gt free
        (fun p' hp' => (mem_given_back live p p' hp').1)

/-- A call that comes back keeps the invariant. -/
theorem chunks_step (ar : Arena) (s s' : Alloc) (op : AllocOp) (hs : AllocOk ar s)
    (h : allocStep ar s op = some s') : AllocOk ar s' := by
  cases op with
  | metalloc size =>
      rcases chunks_ready ar s hs with ⟨cs, l, hc⟩
      rcases allocStep_metalloc ar s s' size cs l hc h with ⟨hin, rfl⟩
      exact Or.inr ⟨cs ++ [l], _, List.concat_ne_nil l cs,
        chunks_allocated ar _ s.2 cs l hc size hin⟩
  | freealloc p =>
      rcases hs with ⟨hi, hlive⟩ | ⟨cs, l, hne, hc⟩
      · rw [allocStep, freealloc_uninitialized ar s.1 p hi, Option.map_some, Option.some.injEq,
          if_neg (by simp only [reduceCtorEq, not_false_eq_true])] at h
        rw [← h]
        exact Or.inl ⟨hi, hlive⟩
      · rcases allocStep_freealloc ar s p cs l hc hne with ⟨r, _, hr, hstep⟩
        rw [h, Option.some.injEq] at hstep
        rw [hstep]
        exact Or.inr ⟨cs, l, hne, chunks_freealloc ar s.1 s.2 cs l hc p r hr⟩

/-- An arena behind the first page, with memory that holds zeros. -/
def zeroArena : Arena where
  dynamicBlock := 4096
  freeMemory := fun _ => { addr := none, size := 0 }
  notNull := by decide
  inMemory := by decide

def zeroHeap : Heap :=
  Heap.start (fun _ => { succ := none, prev := none, isFree := false, size := 0 })
    zeroArena.freeMemory

end HydraDB

end LocalKeyValue
