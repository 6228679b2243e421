import LocalKeyValue.HydraDB.Invariant

/-!
# Loading the HydraDB Table

What `hash_table_initialize` leaves. It inserts the keys from 0 up into an empty
table, so key `k` gets item `k` of the pool, and slot `k / MAX_POOL` of its
bucket, the slots of a bucket being filled in order. The client's addressing
relies on the first.

## Main definitions

* `LoadedTo`: The table holds the keys below a bound, and nothing else.
* `UnfilledFrom`: The slots of the keys from a bound on have no address.

## Theorems

* `insert_loadedTo`: One more key.
* `initializeFrom_succ`, `initializeFrom_rule`: A turn of the load's loop, and its
  rule.
* `initialize_loadedTo`, `initialize_unfilledFrom`: The whole load.
* `initialize_finds`: Where each key is found after it.
-/

namespace LocalKeyValue

namespace HydraDB

/-- The slot key `k` is loaded into. -/
def loadSlot (k : Nat) : Nat × Nat :=
  (k % maxPool, k / maxPool)

/-- The keys below `n` are in the table, each in its slot and item, and the other
    slots are as `hashtable_create` left them. -/
structure LoadedTo (h : HashTable) (n : Nat) : Prop where
  full : ∀ k, k < n → (h.slot (loadSlot k)).busy ≠ 0 ∧ (h.slot (loadSlot k)).addr = some k
  free : ∀ k, n ≤ k → k < slots * maxPool → (h.slot (loadSlot k)).busy = 0
  items : ∀ k, k < n → (h.buckets k).key = k ∧ (h.buckets k).flag = 0
  index : h.index = n

theorem calcHash_natCast (k : Nat) : calcHash k = k % maxPool := by
  have heq := calcHash_eq k (Int.natCast_nonneg k)
  omega

theorem loadSlot_inTable (k : Nat) (hk : k < slots * maxPool) : InTable (loadSlot k) := by
  simp only [InTable, loadSlot, slots, maxPool] at hk ⊢
  omega

/-- Two keys with one slot are equal. -/
theorem loadSlot_injective (k k' : Nat) (h : loadSlot k = loadSlot k') : k = k' := by
  simp only [loadSlot, Prod.mk.injEq] at h
  have hk := Nat.div_add_mod k maxPool
  have hk' := Nat.div_add_mod k' maxPool
  rw [h.1, h.2] at hk
  omega

/-- The slots of a key's bucket before its own are those of smaller keys. -/
theorem loadSlot_of_lt (k i : Nat) (hi : i < k / maxPool) :
    (k % maxPool, i) = loadSlot (i * maxPool + k % maxPool) ∧ i * maxPool + k % maxPool < k := by
  simp only [loadSlot, Prod.mk.injEq, maxPool] at hi ⊢
  omega

theorem loadedTo_create (h : HashTable) (hi : h.index = 0) :
    LoadedTo (hashtableCreate h maxPool) 0 where
  full := fun k hk => absurd hk (Nat.not_lt_zero k)
  free := fun k _ hk => by
    have hin : (loadSlot k).1 < maxPool ∧ (loadSlot k).2 < slots := loadSlot_inTable k hk
    simp only [hashtableCreate, if_pos hin]
  items := fun k hk => absurd hk (Nat.not_lt_zero k)
  index := hi

/-- The first free slot of the next key's bucket is its own. -/
theorem findFreeSlot_loadedTo (h : HashTable) (n : Nat) (hl : LoadedTo h n)
    (hn : n < slots * maxPool) :
    findFreeSlot h (calcHash n) = ((n / maxPool : Nat) : Int) := by
  have hfree : (h.slot (n % maxPool, n / maxPool)).busy = 0 := hl.free n (Nat.le_refl n) hn
  have hlt : n / maxPool < slots := by
    simp only [slots, maxPool] at hn ⊢
    omega
  rw [calcHash_natCast]
  rcases findFreeSlot_spec h (n % maxPool) with hfull | hslot
  · exact absurd hfree (hfull.2 _ hlt)
  · rcases hslot with ⟨j, hj, _, hbusy, hbefore⟩
    -- Its own slot is free, and those before it hold smaller keys.
    have hle : ¬ n / maxPool < j := fun hc => hbefore _ hc hfree
    have hge : ¬ j < n / maxPool := by
      intro hc
      rcases loadSlot_of_lt n j hc with ⟨hs, hk⟩
      rw [hs] at hbusy
      exact (hl.full _ hk).1 hbusy
    rw [hj]
    omega

/-- The slots of the keys from `n` on have no address yet. -/
def UnfilledFrom (h : HashTable) (n : Nat) : Prop :=
  ∀ k, n ≤ k → k < slots * maxPool → (h.slot (loadSlot k)).addr = none

theorem unfilledFrom_create (h : HashTable) : UnfilledFrom (hashtableCreate h maxPool) 0 := by
  intro k _ hk
  have hin : (loadSlot k).1 < maxPool ∧ (loadSlot k).2 < slots := loadSlot_inTable k hk
  simp only [hashtableCreate, if_pos hin]

/-- Inserting the next key fills its slot. -/
theorem insert_loadedTo (h : HashTable) (n : Nat) (value : Nat → Byte) (size : Int)
    (hl : LoadedTo h n) (hn : n < slots * maxPool) (hpool : n < h.poolSize) (h0 : 0 ≤ size)
    (h32 : size ≤ keySize) :
    hashtableInsert h n value size = some (inserted h (loadSlot n) n value size, 0) := by
  have hres := insert_free h n value size (n / maxPool) (calcHash_lt n (Int.natCast_nonneg n))
    (findFreeSlot_loadedTo h n hl hn) h0 h32 (by rw [hl.index]; exact hpool)
  rw [calcHash_natCast] at hres
  exact hres

theorem unfilledFrom_inserted (h : HashTable) (n : Nat) (value : Nat → Byte) (size : Int)
    (hu : UnfilledFrom h n) : UnfilledFrom (inserted h (loadSlot n) n value size) (n + 1) := by
  intro k hk hmax
  rw [inserted_slot_other _ _ _ _ _ _ (fun hc => by
    have := loadSlot_injective k n hc
    omega)]
  exact hu k (by omega) hmax

theorem loadedTo_inserted (h : HashTable) (n : Nat) (value : Nat → Byte) (size : Int)
    (hl : LoadedTo h n) : LoadedTo (inserted h (loadSlot n) n value size) (n + 1) := by
  have hother : ∀ k, k ≠ n → loadSlot k ≠ loadSlot n :=
    fun k hk hc => hk (loadSlot_injective k n hc)
  exact {
    full := fun k hk => by
      by_cases hkn : k = n
      · rw [hkn, inserted_slot, hl.index]
        exact ⟨(by decide : (1 : Byte) ≠ 0), rfl⟩
      · rw [inserted_slot_other _ _ _ _ _ _ (hother k hkn)]
        exact hl.full k (by omega)
    free := fun k hk hk' => by
      rw [inserted_slot_other _ _ _ _ _ _ (hother k (by omega))]
      exact hl.free k (by omega) hk'
    items := fun k hk => by
      by_cases hkn : k = n
      · rw [hkn, ← hl.index, inserted_new]
        exact ⟨rfl, rfl⟩
      · rw [inserted_other _ _ _ _ _ k (by rw [hl.index]; exact hkn)]
        exact hl.items k (by omega)
    index := congrArg (· + 1) hl.index }

theorem randomSize_le (i : Nat) : (randomSize i : Int) ≤ keySize := by
  have hmod := Nat.mod_lt i (by decide : 0 < keySize)
  unfold randomSize
  split
  · rename_i hz
    rw [hz]
    decide
  · omega

/-- A turn of the load comes back if there is an interval to divide by, the insert
    takes the key and the rest of the load comes back. -/
theorem initializeFrom_succ (draws : Nat → Nat) (randMax interval n i c : Nat)
    (txt : Nat → Byte) (h h' : HashTable) :
    initializeFrom draws randMax interval (n + 1) i c txt h = some h' ↔
      interval ≠ 0 ∧ ∃ t, hashtableInsert h i (randStr draws randMax (randomSize i) 0 c txt).1
          (randomSize i) = some (t, 0) ∧
        initializeFrom draws randMax interval n (i + 1)
          (randStr draws randMax (randomSize i) 0 c txt).2
          (randStr draws randMax (randomSize i) 0 c txt).1 t = some h' := by
  rw [initializeFrom]
  constructor
  · intro hrun
    cases hins : hashtableInsert h i (randStr draws randMax (randomSize i) 0 c txt).1
        (randomSize i) with
    | none => simp only [hins, reduceCtorEq] at hrun
    | some s =>
        rcases s with ⟨t, r⟩
        simp only [hins] at hrun
        by_cases hr : r = 0
        · rw [if_neg (not_not.mpr hr)] at hrun
          by_cases hint : interval = 0
          · rw [if_pos hint] at hrun
            exact absurd hrun (by simp only [reduceCtorEq, not_false_eq_true])
          · rw [if_neg hint] at hrun
            exact ⟨hint, t, by rw [hr], hrun⟩
        · -- The load ends the program.
          rw [if_pos hr] at hrun
          exact absurd hrun (by simp only [reduceCtorEq, not_false_eq_true])
  · intro hturn
    rcases hturn with ⟨hint, t, hins, hrest⟩
    simp only [hins]
    rw [if_neg (not_not.mpr rfl), if_neg hint]
    exact hrest

/-- The loop rule of the load: what each insert of the next key keeps, the loop
    keeps, and it completes. -/
theorem initializeFrom_rule (draws : Nat → Nat) (randMax interval m : Nat) (hint : interval ≠ 0)
    (I : Nat → HashTable → Prop)
    (hstep : ∀ i h (txt : Nat → Byte), I i h → i < m →
      ∃ h', hashtableInsert h i txt (randomSize i) = some (h', 0) ∧ I (i + 1) h') :
    ∀ n i c txt h, I i h → i + n ≤ m →
      ∃ h', initializeFrom draws randMax interval n i c txt h = some h' ∧ I (i + n) h' := by
  intro n
  induction n with
  | zero => intro i c txt h hI _; exact ⟨h, rfl, hI⟩
  | succ n ih =>
      intro i c txt h hI hm
      rcases hstep i h (randStr draws randMax (randomSize i) 0 c txt).1 hI (by omega) with
        ⟨h', hres, hI'⟩
      rcases ih (i + 1) (randStr draws randMax (randomSize i) 0 c txt).2
        (randStr draws randMax (randomSize i) 0 c txt).1 h' hI' (by omega) with ⟨h'', hrest, hI''⟩
      refine ⟨h'', (initializeFrom_succ ..).mpr ⟨hint, h', hres, hrest⟩, ?_⟩
      rw [show i + (n + 1) = i + 1 + n by omega]
      exact hI''

/-- Loading from 10 to `7 * MAX_POOL` keys into an empty table completes, and
    fills the slots of these keys only. -/
theorem initialize_unfilledFrom (draws : Nat → Nat) (randMax : Nat) (txt : Nat → Byte)
    (h : HashTable) (size : Nat) (hi : h.index = 0) (hlo : 10 ≤ size)
    (hhi : size ≤ slots * maxPool) (hpool : size ≤ h.poolSize) :
    ∃ h', hashTableInitialize draws randMax txt (hashtableCreate h maxPool) size = some h' ∧
      LoadedTo h' size ∧ h'.poolSize = h.poolSize ∧ UnfilledFrom h' size := by
  have hrule := initializeFrom_rule draws randMax (size / 10) size (by omega)
    (fun i t => LoadedTo t i ∧ t.poolSize = h.poolSize ∧ UnfilledFrom t i) (by
      intro i t value hI hlt
      rcases hI with ⟨hl, hp, hu⟩
      exact ⟨_, insert_loadedTo t i value (randomSize i) hl (by omega) (by omega)
        (Int.natCast_nonneg _) (randomSize_le i), loadedTo_inserted t i value (randomSize i) hl,
        hp, unfilledFrom_inserted t i value (randomSize i) hu⟩)
  rcases hrule size 0 0 txt (hashtableCreate h maxPool)
    ⟨loadedTo_create h hi, rfl, unfilledFrom_create h⟩ (by omega) with ⟨h', hres, hI⟩
  rw [Nat.zero_add] at hI
  exact ⟨h', hres, hI⟩

/-- Loading from 10 to `7 * MAX_POOL` keys into an empty table completes. -/
theorem initialize_loadedTo (draws : Nat → Nat) (randMax : Nat) (txt : Nat → Byte)
    (h : HashTable) (size : Nat) (hi : h.index = 0) (hlo : 10 ≤ size)
    (hhi : size ≤ slots * maxPool) (hpool : size ≤ h.poolSize) :
    ∃ h', hashTableInitialize draws randMax txt (hashtableCreate h maxPool) size = some h' ∧
      LoadedTo h' size ∧ h'.poolSize = h.poolSize := by
  rcases initialize_unfilledFrom draws randMax txt h size hi hlo hhi hpool with
    ⟨h', hres, hl, hp, _⟩
  exact ⟨h', hres, hl, hp⟩

/-- The search for a loaded key passes over smaller keys and stops at its slot. -/
theorem search_loadedTo (h : HashTable) (n : Nat) (hl : LoadedTo h n) (hn : n ≤ slots * maxPool)
    (hpool : n ≤ h.poolSize) (k : Nat) (hk : k < n) : hashtableSearch h k =
      some { descriptor := some (loadSlot k), keyAddress := some k, extEnabled := 0 } := by
  have hitem : ∀ k', k' < n → item? h (h.slot (loadSlot k')).addr = some (h.buckets k') := by
    intro k' hk'
    rw [(hl.full k' hk').2]
    exact if_pos (Nat.lt_of_lt_of_le hk' hpool)
  have hlt : k / maxPool < slots := by
    simp only [slots, maxPool] at hn ⊢
    omega
  unfold hashtableSearch
  rw [if_pos (calcHash_lt k (Int.natCast_nonneg k)), calcHash_natCast]
  rw [searchFrom_hit h (k % maxPool) k (k / maxPool) (h.buckets k) (hitem k hk) (hl.items k hk).1
    slots 0 (Nat.zero_le _) (by omega) ?_]
  · rw [show (h.slot (k % maxPool, k / maxPool)).addr = some k from (hl.full k hk).2]
    rfl
  · intro i _ hi
    rcases loadSlot_of_lt k i hi with ⟨hslot, hless⟩
    rw [hslot]
    refine ⟨_, hitem _ (Nat.lt_trans hless hk), ?_⟩
    rw [(hl.items _ (Nat.lt_trans hless hk)).1]
    omega

/-- After the load each key below `size` is found in its slot, with the item of the
    pool that has its number and a cleared flag. -/
theorem initialize_finds (draws : Nat → Nat) (randMax : Nat) (txt : Nat → Byte) (h : HashTable)
    (size : Nat) (hi : h.index = 0) (hlo : 10 ≤ size) (hhi : size ≤ slots * maxPool)
    (hpool : size ≤ h.poolSize) :
    ∃ h', hashTableInitialize draws randMax txt (hashtableCreate h maxPool) size = some h' ∧
      ∀ k : Nat, k < size → hashtableSearch h' k = some {
          descriptor := some (k % maxPool, k / maxPool), keyAddress := some k, extEnabled := 0 } ∧
        (h'.buckets k).flag = 0 := by
  rcases initialize_loadedTo draws randMax txt h size hi hlo hhi hpool with ⟨h', hres, hl, hp⟩
  exact ⟨h', hres, fun k hk => ⟨search_loadedTo h' size hl hhi (by rw [hp]; exact hpool) k hk,
    (hl.items k hk).2⟩⟩

/-- Memory that holds sevens, with items for two updates past the load. -/
def roomyMemory : HashTable where
  slot := fun _ => { size := 7, addr := some 7, busy := 7, lease := 7 }
  buckets := fun _ => { key := 7, flag := 7, p := fun _ => 7 }
  poolSize := 4000002
  index := 0

/-- The last of four million keys is in the fourth slot of the last bucket. -/
theorem initialize_finds_last : ∃ h',
    hashTableInitialize id 2147483647 (fun _ => 0) (hashtableCreate roomyMemory maxPool) 4000000 =
      some h' ∧ hashtableSearch h' 3999999 = some {
        descriptor := some (999999, 3), keyAddress := some 3999999, extEnabled := 0 } := by
  rcases initialize_finds id 2147483647 (fun _ => 0) roomyMemory 4000000 rfl (by decide)
    (by decide) (by decide) with ⟨h', hres, hfinds⟩
  exact ⟨h', hres, (hfinds 3999999 (by decide)).1⟩

end HydraDB

end LocalKeyValue
