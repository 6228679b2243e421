import LocalKeyValue.HydraDB.Chunks
import LocalKeyValue.Lib.Entries

/-!
# The Free List of the HydraDB Arena

`free_list` is to have one entry for each free chunk, with its size. What it is
held against is a table from addresses to sizes: each of its functions is an
update of that table, if the list describes the table before and, for an insert,
an entry is empty. Over the table the calls of the allocator do the same to the
chunks.

The list is right until one of two things happens. The set-up clears as many bytes
as there are entries, which is less than a tenth of them, so that what the memory
held behind is taken for chunks unless the addresses are null. And a chunk that is
given back when no entry is empty is not put in; nothing looks at the code.

## Main definitions

* `Lists`: The entries are those of a table.
* `freeChunks`: The table of the free chunks of a list of headers.
* `FreeListOk`: The entries are the free chunks, and searches find them.
* `EntryReady`: The condition.

## Theorems

* `lists_remove`, `lists_insert`, `lists_resize`: What the functions do to the table.
* `findsFree_of_lists`: Searching.
* `freeChunks_allocated`, `freeChunks_markFree`, `freeChunks_merged`: What the calls
  do to it.
* `freeListOk_iff_entryReady`: The list is right after all calls just when the
  condition is met at each.
-/

namespace LocalKeyValue

namespace HydraDB

open Links Run Entries

/-! ## The first entry of a kind -/

theorem entryFrom_cases (fl : FreeList) (stop : FreeEntry → Bool) : ∀ (n i : Nat),
    (∃ j, j < i + n ∧ entryFrom fl stop n i = some j ∧ stop (fl j) = true) ∨
      (entryFrom fl stop n i = none ∧ ∀ j, i ≤ j → j < i + n → stop (fl j) = false) := by
  intro n
  induction n with
  | zero =>
      intro i
      exact Or.inr ⟨rfl, fun j hij hj => absurd hj (Nat.not_lt.mpr hij)⟩
  | succ n ih =>
      intro i
      rw [entryFrom]
      by_cases hi : stop (fl i) = true
      · rw [if_pos hi]
        exact Or.inl ⟨i, by omega, rfl, hi⟩
      · rw [if_neg hi]
        rcases ih (i + 1) with ⟨j, hj, hres, hstop⟩ | ⟨hres, hnone⟩
        · exact Or.inl ⟨j, by omega, hres, hstop⟩
        · refine Or.inr ⟨hres, fun j hij hj => ?_⟩
          by_cases hji : j = i
          · rw [hji]
            exact Bool.eq_false_iff.mpr hi
          · exact hnone j (by omega) (by omega)

theorem firstEntry_cases (fl : FreeList) (stop : FreeEntry → Bool) :
    (∃ j, j < freeEntries ∧ firstEntry fl stop = some j ∧ stop (fl j) = true) ∨
      (firstEntry fl stop = none ∧ ∀ j, j < freeEntries → stop (fl j) = false) := by
  rcases entryFrom_cases fl stop freeEntries 0 with ⟨j, hj, hres, hstop⟩ | ⟨hres, hnone⟩
  · exact Or.inl ⟨j, by omega, hres, hstop⟩
  · exact Or.inr ⟨hres, fun j hj => hnone j (Nat.zero_le j) (by omega)⟩

theorem firstEntry_zero (fl : FreeList) (stop : FreeEntry → Bool) (h : stop (fl 0) = true) :
    firstEntry fl stop = some 0 :=
  if_pos h

/-! ## The functions -/

/-- The entries with an address are the chunks of `free`, each once and with its size. -/
abbrev Lists (fl : FreeList) (free : Nat → Option (BitVec 32)) : Prop :=
  Describes FreeEntry.addr FreeEntry.size freeEntries fl free

/-- There is an entry with a null address. -/
def HasEmpty (fl : FreeList) : Prop :=
  ∃ i < freeEntries, (fl i).addr = none

/-- The search of `insert_free_list` tells. -/
theorem hasEmpty_iff (fl : FreeList) :
    (firstEntry fl fun e => e.addr = none).isSome = true ↔ HasEmpty fl := by
  rcases firstEntry_cases fl (fun e => e.addr = none) with ⟨i, hi, hres, hstop⟩ | ⟨hres, hnone⟩
  · rw [hres]
    exact iff_of_true rfl ⟨i, hi, of_decide_eq_true hstop⟩
  · rw [hres]
    refine iff_of_false (by simp only [Option.isSome_none, Bool.false_eq_true,
      not_false_eq_true]) (fun h => ?_)
    rcases h with ⟨i, hi, hempty⟩
    exact of_decide_eq_false (hnone i hi) hempty

instance (fl : FreeList) : Decidable (HasEmpty fl) :=
  decidable_of_iff _ (hasEmpty_iff fl)

/-- The search for an address comes to its entry, if it is in the table. -/
theorem firstEntry_addr (fl : FreeList) (free : Nat → Option (BitVec 32)) (h : Lists fl free)
    (a : Nat) :
    (∃ i, i < freeEntries ∧ firstEntry fl (fun e => e.addr = some a) = some i ∧
      (fl i).addr = some a) ∨
      (firstEntry fl (fun e => e.addr = some a) = none ∧ free a = none) := by
  rcases firstEntry_cases fl (fun e => e.addr = some a) with ⟨i, hi, hres, hstop⟩ | ⟨hres, hnone⟩
  · exact Or.inl ⟨i, hi, hres, of_decide_eq_true hstop⟩
  · exact Or.inr ⟨hres, absent_of_key_ne _ _ _ fl free h a fun i hi =>
      of_decide_eq_false (hnone i hi)⟩

theorem lists_remove (fl : FreeList) (free : Nat → Option (BitVec 32)) (h : Lists fl free)
    (a : Nat) : Lists (removeFromFreeList fl a).1 (Function.update free a none) := by
  unfold removeFromFreeList
  rcases firstEntry_addr fl free h a with ⟨i, hi, hres, haddr⟩ | ⟨hres, habsent⟩
  · rw [hres]
    exact describes_erase _ _ _ fl free h a i _ hi haddr rfl
  · rw [hres, ← habsent, Function.update_eq_self]
    exact h

/-- Taking a chunk out leaves an empty entry. -/
theorem hasEmpty_remove (fl : FreeList) (free : Nat → Option (BitVec 32)) (h : Lists fl free)
    (a : Nat) (z : BitVec 32) (ha : free a = some z) : HasEmpty (removeFromFreeList fl a).1 := by
  unfold removeFromFreeList
  rcases firstEntry_addr fl free h a with ⟨i, hi, hres, _⟩ | ⟨_, habsent⟩
  · rw [hres]
    exact ⟨i, hi, by simp only [Function.update_self]⟩
  · rw [ha] at habsent
    exact absurd habsent (by simp only [reduceCtorEq, not_false_eq_true])

theorem lists_insert (fl : FreeList) (free : Nat → Option (BitVec 32)) (h : Lists fl free)
    (hempty : HasEmpty fl) (a : Nat) (z : BitVec 32) (ha : free a = none) :
    Lists (insertFreeList fl a z).1 (Function.update free a (some z)) := by
  unfold insertFreeList
  rcases firstEntry_cases fl (fun e => e.addr = none) with ⟨i, hi, hres, hstop⟩ | ⟨_, hnone⟩
  · rw [hres]
    exact describes_fill _ _ _ fl free h a i _ hi (of_decide_eq_true hstop) rfl ha
  · rcases hempty with ⟨i, hi, hnull⟩
    exact absurd hnull (of_decide_eq_false (hnone i hi))

/-- Without an empty entry the chunk is left out. -/
theorem insert_full (fl : FreeList) (hfull : ¬ HasEmpty fl) (a : Nat) (z : BitVec 32) :
    insertFreeList fl a z = (fl, -1) := by
  unfold insertFreeList
  rcases firstEntry_cases fl (fun e => e.addr = none) with ⟨i, hi, _, hstop⟩ | ⟨hres, _⟩
  · exact absurd ⟨i, hi, of_decide_eq_true hstop⟩ hfull
  · rw [hres]

theorem lists_resize (fl : FreeList) (free : Nat → Option (BitVec 32)) (h : Lists fl free)
    (a : Nat) (y z : BitVec 32) (ha : free a = some y) :
    Lists (resizeFirst fl (some a) z) (Function.update free a (some z)) := by
  unfold resizeFirst
  rcases firstEntry_addr fl free h a with ⟨i, hi, hres, haddr⟩ | ⟨_, habsent⟩
  · rw [hres]
    exact describes_revalue _ _ _ fl free h a i { fl i with size := z } hi haddr haddr
  · rw [ha] at habsent
    exact absurd habsent (by simp only [reduceCtorEq, not_false_eq_true])

/-- Emptying the entry of a chunk that has none. -/
theorem clear_absent (fl : FreeList) (free : Nat → Option (BitVec 32)) (h : Lists fl free)
    (a : Nat) (ha : free a = none) : clearFirst fl (some a) = fl := by
  unfold clearFirst
  rcases firstEntry_addr fl free h a with ⟨i, hi, _, haddr⟩ | ⟨hres, _⟩
  · exact absurd haddr (key_ne_of_absent _ _ _ fl free h a ha i hi)
  · rw [hres]

/-- `find_free` returns a free chunk of at least the size if there is one. -/
def FindsFree (fl : FreeList) (free : Nat → Option (BitVec 32)) (size : BitVec 32) : Prop :=
  match findFree fl size with
  | some a => ∃ z, free a = some z ∧ size ≤ z
  | none => ∀ a z, free a = some z → ¬ size ≤ z

theorem findsFree_of_lists (fl : FreeList) (free : Nat → Option (BitVec 32)) (h : Lists fl free)
    (size : BitVec 32) : FindsFree fl free size := by
  unfold FindsFree findFree
  rcases firstEntry_cases fl (fun e => e.addr.isSome ∧ size ≤ e.size) with
    ⟨i, hi, hres, hstop⟩ | ⟨hres, hnone⟩
  · rcases of_decide_eq_true hstop with ⟨hsome, hle⟩
    rcases Option.isSome_iff_exists.mp hsome with ⟨a, haddr⟩
    simp only [hres, haddr]
    exact ⟨_, h.sound i a hi haddr, hle⟩
  · simp only [hres]
    intro a z hz hle
    rcases h.listed a z hz with ⟨i, hi, haddr⟩
    have hsize := h.sound i a hi haddr
    rw [hz, Option.some.injEq] at hsize
    refine of_decide_eq_false (hnone i hi) ⟨?_, ?_⟩
    · rw [haddr, Option.isSome_some]
    · rwa [← hsize]

/-! ## The free chunks -/

/-- The free chunks among `as`, with their sizes. -/
def freeChunks (s : Heap) (as : List Nat) (a : Nat) : Option (BitVec 32) :=
  if a ∈ as ∧ (s.header a).isFree = true then some (s.header a).size else none

theorem freeChunks_free (s : Heap) (as : List Nat) (a : Nat) (ha : a ∈ as)
    (hfree : (s.header a).isFree = true) : freeChunks s as a = some (s.header a).size :=
  if_pos ⟨ha, hfree⟩

theorem freeChunks_busy (s : Heap) (as : List Nat) (a : Nat)
    (hbusy : (s.header a).isFree = false) : freeChunks s as a = none := by
  unfold freeChunks
  rw [hbusy, if_neg (by simp only [Bool.false_eq_true, and_false, not_false_eq_true])]

theorem freeChunks_outside (s : Heap) (as : List Nat) (a : Nat) (ha : a ∉ as) :
    freeChunks s as a = none :=
  if_neg fun h => ha h.1

/-- Following `succ` from `smallRoot`, the entries of `free_list` are the free chunks,
    and a search for a size finds one that is large enough if there is one. -/
def FreeListOk (s : Heap) : Prop :=
  ∃ as, Linked (fun a => (s.header a).succ) s.smallRoot as ∧ Lists s.freeList (freeChunks s as) ∧
    ∀ size, FindsFree s.freeList (freeChunks s as) size

theorem freeListOk_iff (ar : Arena) (s : Heap) (live : List (BitVec 64)) (cs : List Nat) (l : Nat)
    (hc : Chunks ar s live cs l) :
    FreeListOk s ↔ Lists s.freeList (freeChunks s (cs ++ [l])) := by
  constructor
  · intro h
    rcases h with ⟨as, hlinked, hlists, _⟩
    rw [hc.root] at hlinked
    rwa [linked_unique _ as (cs ++ [l]) _ hlinked hc.linked] at hlists
  · intro h
    refine ⟨cs ++ [l], ?_, h, findsFree_of_lists _ _ h⟩
    rw [hc.root]
    exact hc.linked

/-- The last chunk becomes a block, and what is left of it a free chunk. -/
theorem freeChunks_allocated (s : Heap) (cs : List Nat) (l : Nat) (size : BitVec 32) :
    freeChunks (allocated s l size) (cs ++ [l] ++ [l + sizeofMemEntry + size.toNat]) =
      Function.update (Function.update (freeChunks s (cs ++ [l])) l none)
        (l + sizeofMemEntry + size.toNat)
        (some ((s.header l).size - BitVec.ofNat 32 sizeofMemEntry - size)) := by
  ext1 a
  by_cases ha' : a = l + sizeofMemEntry + size.toNat
  · rw [ha', Function.update_self, freeChunks_free _ _ _ List.mem_concat_self (by
      rw [allocated_new]), allocated_new]
  · rw [Function.update_of_ne ha']
    by_cases ha : a = l
    · rw [ha, Function.update_self, freeChunks_busy _ _ _ (by rw [allocated_last])]
    · have hmem : a ∈ cs ++ [l] ++ [l + sizeofMemEntry + size.toNat] ↔ a ∈ cs ++ [l] := by
        rw [List.mem_append, List.mem_singleton, or_iff_left ha']
      rw [Function.update_of_ne ha]
      simp only [freeChunks, allocated_other s l size a ha ha', hmem]

theorem freeChunks_markFree (s : Heap) (as : List Nat) (a : Nat) (ha : a ∈ as) :
    freeChunks (markFree s a) as =
      Function.update (freeChunks s as) a (some (s.header a).size) := by
  ext1 b
  by_cases hb : b = a
  · rw [hb, Function.update_self, freeChunks_free _ _ _ ha (by rw [markFree_self]), markFree_self]
  · rw [Function.update_of_ne hb]
    unfold freeChunks
    rw [markFree_other s a b hb]

/-- The chunk that grows stays free, and no other becomes so. -/
theorem freeChunks_merged (s : Heap) (as : List Nat) (q a b : Nat) (hq : q ∈ as)
    (hfree : (s.header q).isFree = true) (hqb : q ≠ b) :
    freeChunks (merged s q a b) as = Function.update (freeChunks s as) q
      (some ((s.header q).size + (BitVec.ofNat 32 sizeofMemEntry + (s.header a).size))) := by
  ext1 c
  by_cases hcq : c = q
  · rw [hcq, Function.update_self, freeChunks_free _ _ _ hq (by
      rw [merged_pred s q a b hqb, hfree]), merged_pred s q a b hqb]
  · have hsame := merged_same s q a b c hcq
    rw [Function.update_of_ne hcq]
    unfold freeChunks
    rw [hsame.2.1, hsame.2.2]

/-! ## The calls -/

/-- A request keeps the list right: it empties an entry before it needs one. -/
theorem freeListOk_allocated (ar : Arena) (s : Heap) (live : List (BitVec 64)) (cs : List Nat)
    (l : Nat) (hc : Chunks ar s live cs l) (size : BitVec 32)
    (hin : InArena ar (l + sizeofMemEntry + size.toNat)) (h : FreeListOk s) :
    FreeListOk (allocated s l size) := by
  rw [freeListOk_iff ar s live cs l hc] at h
  rw [freeListOk_iff ar _ _ _ _ (chunks_allocated ar s live cs l hc size hin),
    freeChunks_allocated s cs l size]
  have hl := freeChunks_free s (cs ++ [l]) l List.mem_concat_self hc.tail_free
  refine lists_insert _ _ (lists_remove _ _ h l) (hasEmpty_remove _ _ h l _ hl) _ _ ?_
  -- The header behind the block is a new one.
  rw [Function.update_of_ne (by simp only [sizeofMemEntry]; omega)]
  refine freeChunks_outside s _ _ fun hmem => ?_
  have hle := chunks_le_last ar s live cs l hc _ hmem
  simp only [sizeofMemEntry] at hle
  omega

/-- A chunk marked free is in the list just when an entry was empty. -/
theorem freeListOk_markFree (ar : Arena) (s : Heap) (live live' : List (BitVec 64)) (cs : List Nat)
    (l a : Nat) (hc : Chunks ar s live cs l) (hc' : Chunks ar (markFree s a) live' cs l)
    (ha : a ∈ cs) (hbusy : (s.header a).isFree = false) (h : FreeListOk s) :
    FreeListOk (markFree s a) ↔ HasEmpty s.freeList := by
  rw [freeListOk_iff ar s live cs l hc] at h
  rw [freeListOk_iff ar _ live' cs l hc', freeChunks_markFree s _ a (List.mem_append_left _ ha)]
  have hlist : (markFree s a).freeList =
      (insertFreeList s.freeList a (s.header a).size).1 := by
    simp only [markFree, Heap.setHeader, Function.update_self]
  have hnone := freeChunks_busy s (cs ++ [l]) a hbusy
  rw [hlist]
  constructor
  · intro h'
    by_contra hfull
    rw [insert_full _ hfull] at h'
    -- The chunk is in the table and has no entry.
    rcases h'.listed a _ (Function.update_self ..) with ⟨i, hi, haddr⟩
    exact key_ne_of_absent _ _ _ _ _ h a hnone i hi haddr
  · intro hempty
    exact lists_insert _ _ h hempty a _ hnone

theorem freeListOk_merged (ar : Arena) (s : Heap) (live live' : List (BitVec 64)) (cs : List Nat)
    (l q a b : Nat) (hc : Chunks ar s live cs l) (hc' : Chunks ar (merged s q a b) live' cs l)
    (hq : q ∈ cs) (hfree : (s.header q).isFree = true) (hbusy : (s.header a).isFree = false)
    (hqa : q ≠ a) (hqb : q ≠ b) (h : FreeListOk s) : FreeListOk (merged s q a b) := by
  rw [freeListOk_iff ar s live cs l hc] at h
  rw [freeListOk_iff ar _ live' cs l hc',
    freeChunks_merged s _ q a b (List.mem_append_left _ hq) hfree hqb]
  have hlists := lists_resize _ _ h q _
    ((s.header q).size + (BitVec.ofNat 32 sizeofMemEntry + (s.header a).size))
    (freeChunks_free s _ q (List.mem_append_left _ hq) hfree)
  unfold merged
  simp only
  -- A chunk that was handed out has no entry to empty.
  rw [clear_absent _ _ hlists a (by
    rw [Function.update_of_ne (Ne.symm hqa), freeChunks_busy s _ a hbusy])]
  exact hlists

/-! ## The first request -/

/-- The entries that the set-up does not clear have a null address. -/
def RestNull (ar : Arena) : Prop :=
  ∀ i, freeEntries / sizeofFreeEntry ≤ i → i < freeEntries → (ar.freeMemory i).addr = none

instance : Decidable (RestNull zeroArena) :=
  isTrue fun _ _ _ => rfl

theorem initBlock_list (ar : Arena) (s : Heap) :
    (initBlock ar s).freeList 0 = {
      addr := some ar.dynamicBlock
      size := BitVec.ofNat 32 (blockSize - sizeofMemEntry) } := by
  simp only [initBlock, Function.update_self]

theorem freeListOk_initBlock (ar : Arena) (s : Heap) (h : RestNull ar) :
    FreeListOk (initBlock ar s) := by
  rw [freeListOk_iff ar _ [] [] ar.dynamicBlock (chunks_initBlock ar s), List.nil_append]
  have hroot : ((initBlock ar s).header ar.dynamicBlock).isFree = true ∧
      ((initBlock ar s).header ar.dynamicBlock).size =
        BitVec.ofNat 32 (blockSize - sizeofMemEntry) := by
    simp only [initBlock, Function.update_self, and_self]
  have hfree := freeChunks_free (initBlock ar s) [ar.dynamicBlock] ar.dynamicBlock
    (List.mem_cons_self ..) hroot.1
  rw [hroot.2] at hfree
  -- All entries but the first are empty.
  have hzero (i a : Nat) (hi : i < freeEntries)
      (haddr : ((initBlock ar s).freeList i).addr = some a) : i = 0 := by
    by_contra hne
    have hi' : (initBlock ar s).freeList i =
        if i < freeEntries / sizeofFreeEntry then { addr := none, size := 0 }
        else ar.freeMemory i := by
      simp only [initBlock, Function.update_of_ne hne]
    rw [hi'] at haddr
    by_cases hlt : i < freeEntries / sizeofFreeEntry
    · rw [if_pos hlt] at haddr
      exact absurd haddr (by simp only [reduceCtorEq, not_false_eq_true])
    · rw [if_neg hlt, h i (Nat.not_lt.mp hlt) hi] at haddr
      exact absurd haddr (by simp only [reduceCtorEq, not_false_eq_true])
  exact {
    sound := fun i a hi haddr => by
      have hi0 := hzero i a hi haddr
      subst hi0
      rw [initBlock_list, Option.some.injEq] at haddr
      rw [← haddr, hfree, initBlock_list]
    listed := fun a z hz => by
      refine ⟨0, by decide, ?_⟩
      rw [initBlock_list]
      by_cases ha : a = ar.dynamicBlock
      · rw [ha]
      · rw [freeChunks_outside _ _ a (by rwa [List.mem_singleton])] at hz
        exact absurd hz (by simp only [reduceCtorEq, not_false_eq_true])
    once := fun i j a hi hj hia hja => (hzero i a hi hia).trans (hzero j a hj hja).symm }

/-- The first request leaves the entries that the set-up does not clear as they are,
    and has the first entry for the one free chunk. -/
theorem first_list (ar : Arena) (s : Heap) (size : BitVec 32) :
    ((allocated (initBlock ar s) ar.dynamicBlock size).freeList 0).addr =
        some (ar.dynamicBlock + sizeofMemEntry + size.toNat) ∧
      ∀ i, freeEntries / sizeofFreeEntry ≤ i →
        (allocated (initBlock ar s) ar.dynamicBlock size).freeList i = ar.freeMemory i := by
  unfold allocated
  simp only
  have hremoved : (removeFromFreeList (initBlock ar s).freeList ar.dynamicBlock).1 =
      Function.update (initBlock ar s).freeList 0 { addr := none, size := 0 } := by
    unfold removeFromFreeList
    rw [firstEntry_zero _ _ (by rw [initBlock_list]; exact decide_eq_true rfl)]
  unfold insertFreeList
  rw [hremoved, firstEntry_zero _ _ (by rw [Function.update_self]; rfl)]
  refine ⟨by simp only [Function.update_self], fun i hi => ?_⟩
  have hne : i ≠ 0 := by
    intro h0
    rw [h0] at hi
    exact absurd hi (by decide)
  simp only [Function.update_of_ne hne, initBlock, if_neg (Nat.not_lt.mpr hi)]

/-- After the first request the list is right just when the memory that is not
    cleared has null addresses. -/
theorem freeListOk_first (ar : Arena) (s : Heap) (size : BitVec 32)
    (hin : InArena ar (ar.dynamicBlock + sizeofMemEntry + size.toNat)) :
    FreeListOk (allocated (initBlock ar s) ar.dynamicBlock size) ↔ RestNull ar := by
  have hc := chunks_initBlock ar s
  constructor
  · -- An address that is found there is a second entry for some chunk, or for none.
    intro h i hi hlt
    rw [freeListOk_iff ar _ _ _ _ (chunks_allocated ar _ [] [] _ hc size hin)] at h
    rcases first_list ar s size with ⟨hzero, hrest⟩
    cases haddr : (ar.freeMemory i).addr with
    | none => rfl
    | some a =>
        have haddr' := haddr
        rw [← hrest i hi] at haddr'
        have hfree := h.sound i a hlt haddr'
        -- The address would be that of the one free chunk, which the first entry has.
        have ha : a = ar.dynamicBlock + sizeofMemEntry + size.toNat := by
          by_contra hne
          rw [freeChunks_allocated _ [] _ size, Function.update_of_ne hne] at hfree
          by_cases hroot : a = ar.dynamicBlock
          · rw [hroot, Function.update_self] at hfree
            exact absurd hfree (by simp only [reduceCtorEq, not_false_eq_true])
          · rw [Function.update_of_ne hroot, freeChunks_outside _ _ a (by
              rwa [List.nil_append, List.mem_singleton])] at hfree
            exact absurd hfree (by simp only [reduceCtorEq, not_false_eq_true])
        rw [ha] at haddr'
        have h0 := h.once i 0 _ hlt (by decide) haddr' hzero
        rw [h0] at hi
        exact absurd hi (by decide)
  · intro h
    exact freeListOk_allocated ar _ [] [] _ hc size hin (freeListOk_initBlock ar s h)

/-! ## Runs -/

/-- The first request finds null addresses where the set-up does not clear, and a
    chunk given back that is not merged finds an empty entry. -/
def EntryReady (ar : Arena) (s : Alloc) : AllocOp → Prop
  | .metalloc _ => s.1.initialized = false → RestNull ar
  | .freealloc p => ¬ Merges s.1 (headerOf p) → HasEmpty s.1.freeList

instance (ar : Arena) [Decidable (RestNull ar)] (s : Alloc) (op : AllocOp) :
    Decidable (EntryReady ar s op) :=
  match op with
  | .metalloc _ => inferInstanceAs (Decidable (s.1.initialized = false → RestNull ar))
  | .freealloc p =>
    inferInstanceAs (Decidable (¬ Merges s.1 (headerOf p) → HasEmpty s.1.freeList))

/-- Once the arena is set up, the list is right. -/
def ListOk (s : Alloc) : Prop :=
  s.1.initialized = true → FreeListOk s.1

/-- A call that comes back leaves the list right just when the condition is met. -/
theorem listOk_step (ar : Arena) (s s' : Alloc) (op : AllocOp) (hs : AllocOk ar s) (hp : ListOk s)
    (hlive : LiveFree s op) (hstep : allocStep ar s op = some s') :
    ListOk s' ↔ EntryReady ar s op := by
  cases op with
  | metalloc size =>
      rcases chunks_ready ar s hs with ⟨cs, l, hc⟩
      rcases allocStep_metalloc ar s s' size cs l hc hstep with ⟨hin, rfl⟩
      have hiff : ListOk (allocated (ready ar s.1) l size, blockOf l :: s.2) ↔
          FreeListOk (allocated (ready ar s.1) l size) :=
        ⟨fun h => h hc.initialized, fun h _ => h⟩
      rw [hiff]
      by_cases hi : s.1.initialized = true
      · -- A later request asks nothing of the memory.
        refine iff_of_true ?_ (fun h => ?_)
        · have hp' := hp hi
          rw [ready_of_initialized ar s.1 hi] at hc ⊢
          exact freeListOk_allocated ar s.1 s.2 cs l hc size hin hp'
        · rw [hi] at h
          exact absurd h (by simp only [Bool.true_eq_false, not_false_eq_true])
      · -- The first request sets the list up.
        have hready : ready ar s.1 = initBlock ar s.1 := if_neg hi
        have hl : ar.dynamicBlock = l := by
          have hlast := hc.last
          rw [hready] at hlast
          exact Option.some.inj hlast
        subst hl
        rw [hready, freeListOk_first ar s.1 size hin]
        exact ⟨fun h _ => h, fun h => h (Bool.eq_false_iff.mpr hi)⟩
  | freealloc p =>
      rcases chunks_of_live ar s hs p hlive with ⟨cs, l, hne, hc⟩
      rcases allocStep_live ar s p cs l hc hne hlive with ⟨t, hstep', hr⟩
      rw [hstep, Option.some.injEq] at hstep'
      subst hstep'
      have hp' := hp hc.initialized
      have hc' := chunks_freealloc ar s.1 s.2 cs l hc p _ hr
      have hiff : ListOk (t, s.2.filter (· ≠ p)) ↔ FreeListOk t :=
        ⟨fun h => h hc'.initialized, fun h _ => h⟩
      rw [hiff]
      cases hr with
      | marked mem busy alone =>
          rw [freeListOk_markFree ar s.1 s.2 _ cs l _ hc hc' mem busy hp']
          exact ⟨fun h _ => h, fun h => h alone⟩
      | merged q b mem busy prev free before lt succ behind gt =>
          -- The chunk before has its entry, and gets the new size there.
          exact iff_of_true (freeListOk_merged ar s.1 s.2 _ cs l q _ b hc hc' before free busy
            (by omega) (by omega) hp') (fun h => absurd ⟨q, prev, free⟩ h)

/-- Over a run that completes and gives back only what has been handed out, the free
    list is right after every call just when the first request finds null addresses
    where the set-up does not clear, and each chunk that becomes free an empty entry. -/
theorem freeListOk_iff_entryReady (ar : Arena) (header : Nat → MemEntry) (freeList : FreeList)
    (ops : List AllocOp) (t : Alloc)
    (hrun : run (allocStep ar) ops (Heap.start header freeList, []) = some t)
    (hlive : Along (allocStep ar) LiveFree ops (Heap.start header freeList, [])) :
    Throughout (allocStep ar) ListOk ops (Heap.start header freeList, []) ↔
      Along (allocStep ar) (EntryReady ar) ops (Heap.start header freeList, []) := by
  refine throughout_iff_along_of _ (fun s op => LiveFree s op ∧ ∃ s', allocStep ar s op = some s')
    _ (AllocOk ar) ListOk (fun s op hs hp hop => ?_) ops _ (allocOk_start ar header freeList)
    (fun hi => absurd hi (by simp only [Heap.start, Bool.false_eq_true, not_false_eq_true]))
    ((along_and _ _ _ ops _).mpr ⟨hlive, along_of_run _ ops _ t hrun⟩)
  rcases hop with ⟨hlive, s', hstep⟩
  simp only [hstep, Option.some.injEq, exists_eq_left', forall_eq']
  exact ⟨listOk_step ar s s' op hs hp hlive hstep, fun _ => chunks_step ar s s' op hs hstep⟩

theorem freeListOk_iff_entryReady_four :
    ∃ t, run (allocStep zeroArena)
        [.metalloc 8, .metalloc 8, .freealloc 4120, .freealloc 4152] (zeroHeap, []) = some t ∧
      Throughout (allocStep zeroArena) ListOk
        [.metalloc 8, .metalloc 8, .freealloc 4120, .freealloc 4152] (zeroHeap, []) := by
  have hsome : (run (allocStep zeroArena)
      [.metalloc 8, .metalloc 8, .freealloc 4120, .freealloc 4152]
      (zeroHeap, [])).isSome = true := by decide +kernel
  rcases Option.isSome_iff_exists.mp hsome with ⟨t, ht⟩
  exact ⟨t, ht, (freeListOk_iff_entryReady zeroArena _ _ _ t ht (by decide +kernel)).mpr
    (by decide +kernel)⟩

/-- An arena with other memory for `free_list`. -/
def garbageArena : Arena :=
  { zeroArena with freeMemory := fun _ => { addr := some 1, size := 0 } }

/-- The first request finds addresses where the set-up has not cleared. -/
theorem list_of_garbage :
    ∃ t, run (allocStep garbageArena) [.metalloc 8] (zeroHeap, []) = some t ∧
      Along (allocStep garbageArena) LiveFree [.metalloc 8] (zeroHeap, []) ∧ ¬ ListOk t := by
  have hsome : (allocStep garbageArena (zeroHeap, []) (.metalloc 8)).isSome = true := by
    decide +kernel
  rcases Option.isSome_iff_exists.mp hsome with ⟨t, ht⟩
  refine ⟨t, run_cons _ _ [] _ t ht, by decide +kernel, fun h => ?_⟩
  have hstart : ListOk (zeroHeap, []) := fun hi =>
    absurd hi (by simp only [zeroHeap, Heap.start, Bool.false_eq_true, not_false_eq_true])
  have hnull := (listOk_step garbageArena _ t (.metalloc 8) (allocOk_start garbageArena _ _) hstart
    trivial ht).mp h rfl
  exact absurd (hnull 625 (by decide) (by decide))
    (by simp only [garbageArena, reduceCtorEq, not_false_eq_true])

end HydraDB

end LocalKeyValue
