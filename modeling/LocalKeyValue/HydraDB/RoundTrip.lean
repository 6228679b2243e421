import LocalKeyValue.HydraDB.Calls

/-!
# Values in HydraDB Items

An insert and an update are given a value with its length, and record the
length, but copy the value as a C string. Bytes after a NUL are lost: the item
has NULs in their place. So a value comes back as it was given just when no byte
other than NUL comes after a NUL in it. The rest of a write is exact for every
value: the descriptor has its length, and no other item changes but for the flag
of the one an update replaces.

## Main definitions

* `Textual`: No byte other than NUL comes after a NUL.
* `ReadsBack`: A search finds the value.
* `OthersKept`: The other items are as they were.

## Theorems

* `strncpy_nul`, `strncpy_kept`, `strncpy_eq_iff`: What `strncpy` copies exactly.
* `insert_writes`, `update_writes`: What a write leaves, for any value.
* `round_trip_iff`: When a value reads back.
-/

namespace LocalKeyValue

namespace HydraDB

open Cells Run

/-- Of the first `n` bytes, none after a NUL is another byte. -/
def Textual (value : Nat → Byte) (n : Nat) : Prop :=
  ∀ i j, i ≤ j → j < n → value i = 0 → value j = 0

/-- The search returns a descriptor of size `n` and an item with the value. -/
def ReadsBack (h : HashTable) (key : Int) (value : Nat → Byte) (n : Nat) : Prop :=
  ∃ p a, Finds h key p a ∧ (h.slot p).size.toNat = n ∧
    ∀ i, i < n → (h.buckets a).p i = value i

/-- The items other than the one handed out have the keys and the values they had,
    and but for item `old` the flags. -/
def OthersKept (h h' : HashTable) (old : Option Nat) : Prop :=
  ∀ a, a ≠ h.index → (h'.buckets a).key = (h.buckets a).key ∧ (h'.buckets a).p = (h.buckets a).p ∧
    (some a ≠ old → (h'.buckets a).flag = (h.buckets a).flag)

theorem nul_upTo_iff (src : Nat → Byte) (i : Nat) :
    (List.range (i + 1)).any (fun j => src j = 0) = true ↔ ∃ j, j ≤ i ∧ src j = 0 := by
  simp only [List.any_eq_true, List.mem_range, decide_eq_true_eq, Nat.lt_succ_iff]

/-- From a NUL on, the copy has NULs. -/
theorem strncpy_nul (dst src : Nat → Byte) (n i j : Nat) (hi : i < n) (hj : j ≤ i)
    (h0 : src j = 0) : strncpy dst src n i = 0 := by
  unfold strncpy
  rw [if_pos hi, if_pos ((nul_upTo_iff src i).mpr ⟨j, hj, h0⟩)]

/-- Before the first NUL, the copy has the bytes of the source. -/
theorem strncpy_kept (dst src : Nat → Byte) (n i : Nat) (hi : i < n)
    (h : ∀ j, j ≤ i → src j ≠ 0) : strncpy dst src n i = src i := by
  have hnone : ¬ ∃ j, j ≤ i ∧ src j = 0 := by
    intro hc
    rcases hc with ⟨j, hj, h0⟩
    exact h j hj h0
  unfold strncpy
  rw [if_pos hi, if_neg (fun hc => hnone ((nul_upTo_iff src i).mp hc))]

/-- The first `n` bytes are copied as they are just if none of them is lost. -/
theorem strncpy_eq_iff (dst value : Nat → Byte) (n : Nat) :
    (∀ i, i < n → strncpy dst value n i = value i) ↔ Textual value n := by
  constructor
  · intro hcopy i j hij hj hi
    rw [← hcopy j hj]
    exact strncpy_nul dst value n j i hj hij hi
  · intro ht i hi
    by_cases hnul : ∃ j, j ≤ i ∧ value j = 0
    · rcases hnul with ⟨j, hj, hj0⟩
      rw [strncpy_nul dst value n i j hi hj hj0]
      exact (ht j i hj hi hj0).symm
    · exact strncpy_kept dst value n i hi fun j hj hj0 => hnul ⟨j, hj, hj0⟩

/-- The value a search finds after a write is the copy. -/
theorem readsBack_iff (h h' : HashTable) (ok : SlotsOk h') (p : Nat × Nat) (key : Int)
    (value : Nat → Byte) (n : Nat) (hk : key ≠ 0)
    (hp : cells h' p = some (key, { item := h.index, size := n }))
    (hvalue : (h'.buckets h.index).p = strncpy (h.buckets h.index).p value n) :
    ReadsBack h' key value n ↔ Textual value n := by
  have hfinds : Finds h' key p h.index := search_entry h' ok p key _ hp hk
  have hsize := ((cells_eq_some h' p key _).mp hp).2.2.2.2
  rw [← strncpy_eq_iff (h.buckets h.index).p value n, ← hvalue]
  constructor
  · intro hr
    rcases hr with ⟨q, a, hq, _, hbytes⟩
    -- The search finds one item only.
    unfold Finds at hfinds hq
    rw [hfinds, Option.some.injEq, SearchReturn.mk.injEq, Option.some.injEq] at hq
    rcases hq with ⟨_, ha, _⟩
    rw [Option.some.injEq] at ha
    rw [ha]
    exact hbytes
  · intro hbytes
    exact ⟨p, h.index, hfinds, hsize, hbytes⟩

/-- What an insert of an absent key leaves. -/
theorem insert_writes (h : HashTable) (ok : SlotsOk h) (key : Int) (value : Nat → Byte) (n : Nat)
    (hk : 0 < key) (hn : n ≤ keySize) (hroom : h.index < h.poolSize) (habs : ¬ Stored h key)
    (hfree : findFreeSlot h (calcHash key) ≠ -1) :
    ∃ h', hashtableInsert h key value n = some (h', 0) ∧
      (ReadsBack h' key value n ↔ Textual value n) ∧ OthersKept h h' none := by
  have h0 : (0 : Int) ≤ n := Int.natCast_nonneg n
  have h32 : (n : Int) ≤ keySize := by omega
  rcases insert_spec h key value n ok (Int.le_of_lt hk) h0 h32 hroom with
    ⟨hfull, _⟩ | ⟨i, hi, hbusy, hbefore, hres⟩
  · rcases findFreeSlot_spec h (calcHash key) with ⟨hc, _⟩ | ⟨j, _, hj, hjfree, _⟩
    · exact absurd hc hfree
    · exact absurd hjfree (hfull j hj)
  · have hin : InTable (calcHash key, i) := ⟨calcHash_lt key (Int.le_of_lt hk), hi⟩
    have hw := writes_inserted h (calcHash key, i) key value n h0 h32 hroom
    have ok' := slotsOk_effect h _ (.insert key value n) ok ⟨Int.le_of_lt hk, habs⟩
      (Effect.inserted key value n i hin hbusy hbefore ⟨hroom, h0, h32⟩)
    refine ⟨_, hres, readsBack_iff h _ ok' (calcHash key, i) key value n (by omega) ?_
      (by rw [inserted_new, Int.toNat_natCast]), fun a ha => ?_⟩
    · rw [cells_write h _ _ key _ ok hw hin, Function.update_self, Int.toNat_natCast]
    · rw [inserted_other h _ key value n a ha]
      exact ⟨rfl, rfl, fun _ => rfl⟩

/-- What an update of a stored key leaves. -/
theorem update_writes (h : HashTable) (ok : SlotsOk h) (key : Int) (value : Nat → Byte) (n : Nat)
    (hk : 0 < key) (hn : n ≤ keySize) (hroom : h.index < h.poolSize) (hs : Stored h key) :
    ∃ p old h' r, Finds h key p old ∧ updateHashKey h key value n = some (h', r) ∧
      (ReadsBack h' key value n ↔ Textual value n) ∧ OthersKept h h' (some old) := by
  have h0 : (0 : Int) ≤ n := Int.natCast_nonneg n
  have h32 : (n : Int) ≤ keySize := by omega
  rcases (stored_iff h ok key (Int.le_of_lt hk)).mp hs with ⟨e, p, hp⟩
  rcases (cells_eq_some h p key e).mp hp with ⟨hin, hbusy, haddr, _, _⟩
  have hold : e.item ≠ h.index := by
    have hlt := ok.below p e.item hin haddr
    omega
  have hfinds : Finds h key p e.item := search_entry h ok p key e hp (by omega)
  have hres := update_spec h p e.item key value n hfinds hold h0 h32 hroom
  have hw := writes_updated h p e.item key value n hbusy h0 h32 hroom
  have ok' := slotsOk_effect h _ (.update key value n) ok ⟨Int.le_of_lt hk, trivial⟩
    (Effect.updated key value n p e hp ⟨hroom, h0, h32⟩)
  refine ⟨p, e.item, _, _, hfinds, hres, readsBack_iff h _ ok' p key value n (by omega) ?_
    (by rw [updated_new, Int.toNat_natCast]), fun a ha => ?_⟩
  · rw [cells_write h _ p key _ ok hw hin, Function.update_self, Int.toNat_natCast]
  · by_cases hae : a = e.item
    · rw [hae, updated_old h p e.item key value n hold]
      exact ⟨rfl, rfl, fun hc => absurd rfl hc⟩
    · rw [updated_other h p e.item key value n a ha hae]
      exact ⟨rfl, rfl, fun _ => rfl⟩

/-- In every table that a run of calls reaches, with room for it, a value of up to
    32 bytes reads back after it has been written, by an insert or an update, and
    the other items are kept, just when no byte of it is lost behind a NUL. -/
theorem round_trip_iff (h : HashTable) (hi : h.index = 0) (ops : List TableOp) (u : HashTable)
    (hcalls : Along callStep ClientCall ops (hashtableCreate h maxPool))
    (hrun : run callStep ops (hashtableCreate h maxPool) = some u) (key : Int)
    (value : Nat → Byte) (n : Nat) (hk : 0 < key) (hn : n ≤ keySize)
    (hroom : u.index < u.poolSize) :
    (¬ Stored u key → findFreeSlot u (calcHash key) ≠ -1 →
      ((∃ h', hashtableInsert u key value n = some (h', 0) ∧ ReadsBack h' key value n ∧
        OthersKept u h' none) ↔ Textual value n)) ∧
    (Stored u key →
      ((∃ p old h' r, Finds u key p old ∧ updateHashKey u key value n = some (h', r) ∧
        ReadsBack h' key value n ∧ OthersKept u h' (some old)) ↔ Textual value n)) := by
  have ok := slotsOk_run h hi ops u hcalls hrun
  refine ⟨fun habs hfree => ?_, fun hs => ?_⟩
  · rcases insert_writes u ok key value n hk hn hroom habs hfree with ⟨h', hins, hiff, hkept⟩
    constructor
    · intro hc
      rcases hc with ⟨t, ht, hback, _⟩
      rw [hins, Option.some.injEq, Prod.mk.injEq] at ht
      rw [← ht.1] at hback
      exact hiff.mp hback
    · intro ht
      exact ⟨h', hins, hiff.mpr ht, hkept⟩
  · rcases update_writes u ok key value n hk hn hroom hs with
      ⟨p, old, h', r, hfinds, hup, hiff, hkept⟩
    constructor
    · intro hc
      rcases hc with ⟨_, _, t, _, _, ht, hback, _⟩
      rw [hup, Option.some.injEq, Prod.mk.injEq] at ht
      rw [← ht.1] at hback
      exact hiff.mp hback
    · intro ht
      exact ⟨p, old, h', r, hfinds, hup, hiff.mpr ht, hkept⟩

/-- Key 5 is updated with a value of 32 bytes, and key 6 inserted with an empty one. -/
theorem round_trip_iff_five :
    ∃ u, run callStep [.insert 5 (fun _ => 65) 3] (hashtableCreate roomyMemory maxPool) = some u ∧
      (∃ h', hashtableInsert u 6 (fun _ => 0) 0 = some (h', 0) ∧ ReadsBack h' 6 (fun _ => 0) 0 ∧
        OthersKept u h' none) ∧
      ∃ p old h' r, Finds u 5 p old ∧ updateHashKey u 5 (fun _ => 255) 32 = some (h', r) ∧
        ReadsBack h' 5 (fun _ => 255) 32 ∧ OthersKept u h' (some old) := by
  have hrun : ∃ u ∈ run callStep [.insert 5 (fun _ => 65) 3] (hashtableCreate roomyMemory maxPool),
      u.index < u.poolSize ∧ ¬ Stored u 6 ∧ findFreeSlot u (calcHash 6) ≠ -1 ∧ Stored u 5 := by
    decide +kernel
  rcases hrun with ⟨u, hrun, hroom, habs, hfree, hs⟩
  have hcalls : Along callStep ClientCall [.insert 5 (fun _ => 65) 3]
      (hashtableCreate roomyMemory maxPool) := by decide +kernel
  have hins := round_trip_iff roomyMemory rfl _ u hcalls hrun 6 (fun _ => 0) 0 (by decide)
    (by decide) hroom
  have hup := round_trip_iff roomyMemory rfl _ u hcalls hrun 5 (fun _ => 255) 32 (by decide)
    (by decide) hroom
  exact ⟨u, hrun, (hins.1 habs hfree).mpr fun _ _ _ _ _ => rfl,
    (hup.2 hs).mpr fun _ _ _ _ h =>
      absurd h (by decide : (255 : Byte) ≠ 0)⟩

/-- The bytes 65, 0, 66 come back as 65, 0, 0. -/
theorem value_cut_at_nul :
    ∃ h', hashtableInsert (hashtableCreate roomyMemory maxPool) 5
        (fun i => if i = 0 then 65 else if i = 1 then 0 else 66) 3 = some (h', 0) ∧
      hashtableSearch h' 5 = some {
        descriptor := some (5, 0), keyAddress := some 0, extEnabled := 0 } ∧
      (h'.slot (5, 0)).size = 3 ∧ (h'.buckets 0).p 2 = 0 := by
  have hrun : ∃ s ∈ hashtableInsert (hashtableCreate roomyMemory maxPool) 5
      (fun i => if i = 0 then 65 else if i = 1 then 0 else 66) 3, s.2 = 0 ∧
      hashtableSearch s.1 5 = some {
        descriptor := some (5, 0), keyAddress := some 0, extEnabled := 0 } ∧
      (s.1.slot (5, 0)).size = 3 ∧ (s.1.buckets 0).p 2 = 0 := by decide +kernel
  rcases hrun with ⟨⟨h', r⟩, hins, hr, hrest⟩
  exact ⟨h', by rw [hins, ← hr], hrest⟩

end HydraDB

end LocalKeyValue
