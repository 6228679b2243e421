import LocalKeyValue.HydraDB.Load
import LocalKeyValue.Lib.Run

/-!
# Updates and One-Sided Reads of the HydraDB Table

What becomes of a loaded table under PUT requests, and what a client sees of it.

An update leaves the old item where it is, with its flag set, and gives the
key's slot the next item of the pool. So item `k`, which key `k` was loaded
into, keeps its key for good, and its flag says whether the slot still points to
it; while it does the item is as it was loaded. A reader that looks at the flag
can tell.

The client does not look. Its GET reads item `k` of the pool for key `k`, after
asking the server or from its own cache: the server searches for the key and
throws the result away, and the test of the flag is commented out. So the read
is of the item the search returns until the first PUT of the key, and of the
superseded one ever after.

## Main definitions

* `Put`, `putStep`: A PUT request.
* `CacheEntry`, `clientGet`: A client's GET.
* `UpdatedFrom`: A loaded table after PUT requests.

## Theorems

* `search_updatedFrom`: The search finds each key where its slot points.
* `updatedFrom_updated`, `updatedFrom_put`: A PUT request keeps the description of
  the table.
* `stale_detectable`: An item's flag says whether it is still its key's.
* `get_reads_stale`: A GET of a key that has been put reads the old item.
* `get_agrees_iff`: A GET and the search agree on the keys not put.
-/

namespace LocalKeyValue

namespace HydraDB

open Run

/-! ## Requests -/

/-- A PUT request, with what `run_server` passes to `update_hash_key`. -/
structure Put where
  key : Nat
  value : Nat → Byte
  size : Int

def putStep (h : HashTable) (r : Put) : Option HashTable :=
  match updateHashKey h r.key r.value r.size with
  | none => none
  | some (h', _) => some h'

/-- A request on one of the keys below `n`, with a value that fits. -/
def Put.fits (n : Nat) (r : Put) : Prop :=
  r.key < n ∧ 0 ≤ r.size ∧ r.size ≤ keySize

instance (n : Nat) (r : Put) : Decidable (r.fits n) :=
  inferInstanceAs (Decidable (_ ∧ _))

/-- `local_cache_s`, with the seconds and nanoseconds of `request_time`. -/
structure CacheEntry where
  key : Int
  lease : Int
  sec : Int
  nsec : Int

/-- What a GET did: whether it went straight to the pool, which item it read, and
    the cache after it. -/
structure GetResult where
  direct : Bool
  item : Nat
  cache : Nat → CacheEntry

/-- The number of entries of `local_cache`. -/
abbrev cacheSize : Nat := 4000000

/-- The nanoseconds from a cache entry's request to a reading of the clock. -/
def cpuTimePassed (e : CacheEntry) (sec nsec : Int) : Int :=
  (sec - e.sec) * 1000000000 + (nsec - e.nsec)

/-- A client's read of item `key` of the pool. -/
def readItem (h : HashTable) (key : Nat) (direct : Bool) (cache : Nat → CacheEntry) :
    Option GetResult :=
  if key < h.poolSize then some { direct := direct, item := key, cache := cache } else none

/-- A GET through the server, from the label `again`. The server searches for the
    key; what it finds stays there. -/
def messageGet (h : HashTable) (cache : Nat → CacheEntry) (key : Nat) (sec nsec : Int) :
    Option GetResult :=
  match hashtableSearch h key with
  | none => none
  | some _ => readItem h key false (Function.update cache (key % cacheSize)
      { key := key, lease := 1, sec := sec, nsec := nsec })

/-- The GET branch of `run_client`. -/
def clientGet (h : HashTable) (cache : Nat → CacheEntry) (key : Nat) (sec nsec : Int) :
    Option GetResult :=
  if (cache key).key ≠ key then messageGet h cache key sec nsec
  else if (cache (key % cacheSize)).lease > cpuTimePassed (cache (key % cacheSize)) sec nsec then
    messageGet h cache key sec nsec
  else readItem h key true cache

/-! ## A loaded table under PUT requests -/

/-- The table `h` has come from `h₀`, loaded with the keys below `n`, by PUT
    requests: each key's slot points to an item with the key, either the one it
    was loaded into or one past the loaded ones, and the flag of the former says
    which. -/
structure UpdatedFrom (h₀ : HashTable) (n : Nat) (h : HashTable) : Prop where
  slot : ∀ k, k < n → ∃ a, (h.slot (loadSlot k)).addr = some a ∧ a < h.index ∧
    (h.buckets a).key = k ∧ (a = k ∨ n ≤ a)
  key : ∀ k, k < n → (h.buckets k).key = k
  flag : ∀ k, k < n → ((h.buckets k).flag = 0 ↔ (h.slot (loadSlot k)).addr = some k)
  contents : ∀ k, k < n → (h.buckets k).flag = 0 → h.buckets k = h₀.buckets k
  loaded : n ≤ h.index
  bound : n ≤ slots * maxPool
  pool : h.index ≤ h.poolSize

theorem updatedFrom_loaded (h : HashTable) (n : Nat) (hl : LoadedTo h n)
    (hn : n ≤ slots * maxPool) (hpool : n ≤ h.poolSize) : UpdatedFrom h n h where
  slot := fun k hk => ⟨k, (hl.full k hk).2, by rw [hl.index]; exact hk, (hl.items k hk).1,
    Or.inl rfl⟩
  key := fun k hk => (hl.items k hk).1
  flag := fun k hk => iff_of_true (hl.items k hk).2 (hl.full k hk).2
  contents := fun _ _ _ => rfl
  loaded := Nat.le_of_eq hl.index.symm
  bound := hn
  pool := by rw [hl.index]; exact hpool

/-- The search finds each key where its slot points. The slots before it are
    those of smaller keys, and point to items with those. -/
theorem search_updatedFrom (h₀ h : HashTable) (n : Nat) (hu : UpdatedFrom h₀ n h) (k a : Nat)
    (hk : k < n) (ha : (h.slot (loadSlot k)).addr = some a) :
    hashtableSearch h k =
      some { descriptor := some (loadSlot k), keyAddress := some a, extEnabled := 0 } := by
  have hpool := hu.pool
  have hkey : a < h.index ∧ (h.buckets a).key = k := by
    rcases hu.slot k hk with ⟨a', ha', hlt, hkey, _⟩
    rw [ha, Option.some.injEq] at ha'
    rw [ha']
    exact ⟨hlt, hkey⟩
  have hslot : k / maxPool < slots := by
    have hbound := hu.bound
    simp only [slots, maxPool] at hbound ⊢
    omega
  have hitem : item? h (h.slot (k % maxPool, k / maxPool)).addr = some (h.buckets a) := by
    rw [show (k % maxPool, k / maxPool) = loadSlot k from rfl, ha]
    exact item?_some h a (by omega)
  unfold hashtableSearch
  rw [if_pos (calcHash_lt k (Int.natCast_nonneg k)), calcHash_natCast]
  rw [searchFrom_hit h (k % maxPool) k (k / maxPool) (h.buckets a) hitem hkey.2 slots 0
    (Nat.zero_le _) (by omega)]
  · rw [show (k % maxPool, k / maxPool) = loadSlot k from rfl, ha]
  · intro l _ hl
    rcases loadSlot_of_lt k l hl with ⟨hs, hlt⟩
    rcases hu.slot _ (Nat.lt_trans hlt hk) with ⟨c, hc, hclt, hckey, _⟩
    refine ⟨h.buckets c, by rw [hs, hc]; exact item?_some h c (by omega), ?_⟩
    rw [hckey]
    omega

/-- A PUT request moves its key's slot to a new item and flags the old one. -/
theorem putStep_eq (h₀ h : HashTable) (n : Nat) (hu : UpdatedFrom h₀ n h) (r : Put)
    (hr : r.fits n) (a : Nat) (ha : (h.slot (loadSlot r.key)).addr = some a)
    (hroom : h.index < h.poolSize) :
    putStep h r = some (updated h (loadSlot r.key) a r.key r.value r.size) := by
  have hlt : a < h.index := by
    rcases hu.slot r.key hr.1 with ⟨a', ha', hlt, _⟩
    rw [ha, Option.some.injEq] at ha'
    rw [ha']
    exact hlt
  unfold putStep
  rw [update_spec h (loadSlot r.key) a r.key r.value r.size
    (search_updatedFrom h₀ h n hu r.key a hr.1 ha) (by omega) hr.2.1 hr.2.2 hroom]

theorem updated_loadSlot_other (h : HashTable) (k a : Nat) (key : Int) (value : Nat → Byte)
    (size : Int) (k' : Nat) (hk' : k' ≠ k) :
    (updated h (loadSlot k) a key value size).slot (loadSlot k') = h.slot (loadSlot k') :=
  updated_slot_other _ _ _ _ _ _ _ fun hc => hk' (loadSlot_injective k' k hc)

/-- Moving a key's slot to a new item keeps the description of the table. -/
theorem updatedFrom_updated (h₀ h : HashTable) (n : Nat) (hu : UpdatedFrom h₀ n h) (k a : Nat)
    (value : Nat → Byte) (size : Int) (hk : k < n) (ha : (h.slot (loadSlot k)).addr = some a)
    (hroom : h.index < h.poolSize) :
    UpdatedFrom h₀ n (updated h (loadSlot k) a k value size) := by
  rcases hu.slot k hk with ⟨a', ha', halt, hakey, hamin⟩
  rw [ha, Option.some.injEq] at ha'
  rw [← ha'] at halt hakey hamin
  have hloaded := hu.loaded
  have hself : ((updated h (loadSlot k) a k value size).slot (loadSlot k)).addr =
      some h.index := by rw [updated_slot]
  -- The item a key was loaded into changes only when it is the one superseded.
  have hitem : ∀ c, c < n → c ≠ a →
      (updated h (loadSlot k) a k value size).buckets c = h.buckets c :=
    fun c hc hca => updated_other _ _ _ _ _ _ c (by omega) hca
  have hold := updated_old h (loadSlot k) a k value size (by omega)
  have hstale : ∀ c, c = a →
      ((updated h (loadSlot k) a k value size).buckets c).flag ≠ 0 := by
    intro c hca
    rw [hca, hold]
    exact (by decide : (1 : Byte) ≠ 0)
  -- If the item superseded is a loaded one, it is that of the key put.
  have hak : ∀ c, c < n → c = a → c = k := by
    intro c hc hca
    rcases hamin with he | hge
    · rw [hca, he]
    · omega
  exact {
    slot := fun c hc => by
      by_cases hck : c = k
      · refine ⟨h.index, by rw [hck]; exact hself, Nat.lt_succ_self _, ?_, Or.inr hloaded⟩
        rw [updated_new, hck]
      · rcases hu.slot c hc with ⟨b, hb, hblt, hbkey, hbmin⟩
        refine ⟨b, by rw [updated_loadSlot_other h k a k value size c hck]; exact hb,
          Nat.lt_succ_of_lt hblt, ?_, hbmin⟩
        have hba : b ≠ a := by
          intro he
          rw [he, hakey] at hbkey
          omega
        rw [updated_other _ _ _ _ _ _ b (by omega) hba]
        exact hbkey
    key := fun c hc => by
      by_cases hca : c = a
      · rw [hca, hold, ← hca]
        exact hu.key c hc
      · rw [hitem c hc hca]
        exact hu.key c hc
    flag := fun c hc => by
      by_cases hck : c = k
      · rw [hck, hself]
        have hne : ¬ (some h.index = some k) := by
          intro he
          rw [Option.some.injEq] at he
          omega
        refine iff_of_false ?_ hne
        -- The flag is set now, or was set by the first PUT of the key.
        by_cases hka : k = a
        · exact hstale k hka
        · rw [hitem k hk hka, hu.flag k hk, ha, Option.some.injEq]
          exact fun he => hka he.symm
      · rw [updated_loadSlot_other h k a k value size c hck,
          hitem c hc fun hca => hck (hak c hc hca)]
        exact hu.flag c hc
    contents := fun c hc hflag => by
      by_cases hca : c = a
      · exact absurd hflag (hstale c hca)
      · rw [hitem c hc hca] at hflag ⊢
        exact hu.contents c hc hflag
    loaded := Nat.le_succ_of_le hloaded
    bound := hu.bound
    pool := hroom }

/-- A PUT request comes back, and moves one slot to the next item. -/
theorem updatedFrom_put (h₀ h : HashTable) (n : Nat) (hu : UpdatedFrom h₀ n h) (r : Put)
    (hr : r.fits n) (hroom : h.index < h.poolSize) :
    ∃ h', putStep h r = some h' ∧ UpdatedFrom h₀ n h' ∧ h'.index = h.index + 1 ∧
      h'.poolSize = h.poolSize ∧ (h'.slot (loadSlot r.key)).addr = some h.index ∧
      ∀ k, k < n → k ≠ r.key → (h'.slot (loadSlot k)).addr = (h.slot (loadSlot k)).addr := by
  rcases hu.slot r.key hr.1 with ⟨a, ha, _, _, _⟩
  refine ⟨_, putStep_eq h₀ h n hu r hr a ha hroom,
    updatedFrom_updated h₀ h n hu r.key a r.value r.size hr.1 ha hroom, rfl, rfl,
    by rw [updated_slot], fun k _ hk => ?_⟩
  rw [updated_loadSlot_other h r.key a r.key r.value r.size k hk]

/-- A run of PUT requests completes, and leaves the slots of the keys that are
    not put as they were and those of the others past the loaded items. -/
theorem updatedFrom_run (h₀ : HashTable) (n : Nat) : ∀ (rs : List Put) (h : HashTable),
    UpdatedFrom h₀ n h → (∀ r ∈ rs, r.fits n) → h.index + rs.length ≤ h.poolSize →
      ∃ t, run putStep rs h = some t ∧ UpdatedFrom h₀ n t ∧ ∀ k, k < n →
        ((t.slot (loadSlot k)).addr = some k ↔
          (h.slot (loadSlot k)).addr = some k ∧ ∀ r ∈ rs, r.key ≠ k) := by
  intro rs
  induction rs with
  | nil =>
      intro h hu _ _
      exact ⟨h, rfl, hu, fun k _ => ⟨fun ha => ⟨ha, fun r hr => absurd hr List.not_mem_nil⟩,
        fun ha => ha.1⟩⟩
  | cons r rs ih =>
      intro h hu hfits hroom
      rw [List.length_cons] at hroom
      rcases updatedFrom_put h₀ h n hu r (hfits r (List.mem_cons_self ..)) (by omega) with
        ⟨h', hstep, hu', hindex, hpool, hself, hother⟩
      rcases ih h' hu' (fun r' hr' => hfits r' (List.mem_cons_of_mem r hr')) (by omega) with
        ⟨t, hrun, ht, hslots⟩
      refine ⟨t, by rw [run_cons putStep r rs h h' hstep]; exact hrun, ht, fun k hk => ?_⟩
      rw [hslots k hk]
      have hloaded := hu.loaded
      by_cases hkr : k = r.key
      · -- The slot points past the loaded items from here on.
        rw [hkr, hself, Option.some.injEq]
        refine iff_of_false (fun hc => ?_) (fun hc => hc.2 r (List.mem_cons_self ..) rfl)
        have := (hfits r (List.mem_cons_self ..)).1
        omega
      · rw [hother k hk hkr]
        refine and_congr_right fun _ => ⟨fun hall r' hr' => ?_, fun hall r' hr' =>
          hall r' (List.mem_cons_of_mem r hr')⟩
        rcases List.mem_cons.mp hr' with rfl | hr'
        · exact fun hc => hkr hc.symm
        · exact hall r' hr'

/-! ## One-sided readers -/

/-- The search returns item `a`. -/
def SearchReturns (h : HashTable) (key a : Nat) : Prop :=
  ∃ ret, hashtableSearch h key = some ret ∧ ret.keyAddress = some a

theorem searchReturns_iff (h₀ h : HashTable) (n : Nat) (hu : UpdatedFrom h₀ n h) (k c : Nat)
    (hk : k < n) : SearchReturns h k c ↔ (h.slot (loadSlot k)).addr = some c := by
  rcases hu.slot k hk with ⟨a, ha, _⟩
  have hs := search_updatedFrom h₀ h n hu k a hk ha
  constructor
  · intro hret
    rcases hret with ⟨ret, hret, hc⟩
    rw [hs, Option.some.injEq] at hret
    rw [ha, ← hc, ← hret]
  · intro hc
    rw [ha] at hc
    exact ⟨_, hs, hc⟩

/-- After a load and any PUT requests the pool has room for, the item each key
    was loaded into still has the key, its flag is 0 just when the search returns
    it, and it is then as it was loaded. -/
theorem stale_detectable (draws : Nat → Nat) (randMax : Nat) (txt : Nat → Byte) (h : HashTable)
    (size : Nat) (hi : h.index = 0) (hlo : 10 ≤ size) (hhi : size ≤ slots * maxPool)
    (rs : List Put) (hfits : ∀ r ∈ rs, r.fits size) (hpool : size + rs.length ≤ h.poolSize) :
    ∃ h₀ t, hashTableInitialize draws randMax txt (hashtableCreate h maxPool) size = some h₀ ∧
      run putStep rs h₀ = some t ∧ ∀ k, k < size →
        (t.buckets k).key = k ∧ ((t.buckets k).flag = 0 ↔ SearchReturns t k k) ∧
          ((t.buckets k).flag = 0 → t.buckets k = h₀.buckets k) := by
  rcases initialize_loadedTo draws randMax txt h size hi hlo hhi (by omega) with
    ⟨h₀, hload, hl, hp⟩
  rcases updatedFrom_run h₀ size rs h₀ (updatedFrom_loaded h₀ size hl hhi (by omega)) hfits
    (by rw [hl.index, hp]; exact hpool) with ⟨t, hrun, hu, _⟩
  refine ⟨h₀, t, hload, hrun, fun k hk => ⟨hu.key k hk, ?_, hu.contents k hk⟩⟩
  rw [searchReturns_iff h₀ t size hu k k hk]
  exact hu.flag k hk

/-- Ten keys and room for ten more, in memory that holds sevens. -/
def sevensMemory : HashTable where
  slot := fun _ => { size := 7, addr := some 7, busy := 7, lease := 7 }
  buckets := fun _ => { key := 7, flag := 7, p := fun _ => 7 }
  poolSize := 20
  index := 0

/-- Two PUTs of key 3 and one of key 0. -/
def threePuts : List Put :=
  [{ key := 3, value := fun _ => 65, size := 20 }, { key := 0, value := fun _ => 66, size := 32 },
    { key := 3, value := fun _ => 67, size := 0 }]

theorem stale_detectable_threePuts : ∃ h₀ t,
    hashTableInitialize id 2147483647 (fun _ => 0) (hashtableCreate sevensMemory maxPool) 10 =
      some h₀ ∧ run putStep threePuts h₀ = some t ∧ ∀ k, k < 10 →
        (t.buckets k).key = k ∧ ((t.buckets k).flag = 0 ↔ SearchReturns t k k) ∧
          ((t.buckets k).flag = 0 → t.buckets k = h₀.buckets k) :=
  stale_detectable id 2147483647 (fun _ => 0) sevensMemory 10 rfl (by decide) (by decide)
    threePuts (by decide) (by decide)

/-- Whatever its cache and its clock say, a client's GET reads the item with the
    key's number. -/
theorem clientGet_item (h₀ h : HashTable) (n : Nat) (hu : UpdatedFrom h₀ n h)
    (cache : Nat → CacheEntry) (k : Nat) (sec nsec : Int) (hk : k < n) :
    ∃ res, clientGet h cache k sec nsec = some res ∧ res.item = k := by
  have hloaded := hu.loaded
  have hpool := hu.pool
  have hread : ∀ direct cache', readItem h k direct cache' =
      some { direct := direct, item := k, cache := cache' } :=
    fun _ _ => if_pos (by omega)
  have hmsg : ∃ res, messageGet h cache k sec nsec = some res ∧ res.item = k := by
    rcases hu.slot k hk with ⟨a, ha, _⟩
    unfold messageGet
    rw [search_updatedFrom h₀ h n hu k a hk ha]
    exact ⟨_, hread _ _, rfl⟩
  unfold clientGet
  split
  · exact hmsg
  · split
    · exact hmsg
    · exact ⟨_, hread _ _, rfl⟩

/-- After one PUT of key 3 the search returns item 10, and a client's GET reads
    item 3. -/
theorem get_reads_stale : ∃ h₀ t res,
    hashTableInitialize id 2147483647 (fun _ => 0) (hashtableCreate sevensMemory maxPool) 10 =
      some h₀ ∧ run putStep (threePuts.take 1) h₀ = some t ∧
      clientGet t (fun _ => { key := 0, lease := 0, sec := 0, nsec := 0 }) 3 1 0 = some res ∧
      res.item = 3 ∧ SearchReturns t 3 10 ∧ ¬ SearchReturns t 3 res.item := by
  have hres : (hashTableInitialize id 2147483647 (fun _ => 0)
      (hashtableCreate sevensMemory maxPool) 10).bind (fun h₀ =>
        (run putStep (threePuts.take 1) h₀).bind fun t =>
          (clientGet t (fun _ => { key := 0, lease := 0, sec := 0, nsec := 0 }) 3 1 0).map
            fun res => (res.item, (hashtableSearch t 3).map SearchReturn.keyAddress)) =
      some (3, some (some 10)) := by
    decide +kernel
  rcases Option.bind_eq_some_iff.mp hres with ⟨h₀, hload, hres⟩
  rcases Option.bind_eq_some_iff.mp hres with ⟨t, hrun, hres⟩
  rcases Option.map_eq_some_iff.mp hres with ⟨res, hget, hres⟩
  rw [Prod.mk.injEq] at hres
  rcases hres with ⟨hitem, hsearch⟩
  rcases Option.map_eq_some_iff.mp hsearch with ⟨ret, hret, haddr⟩
  refine ⟨h₀, t, res, hload, hrun, hget, hitem, ⟨ret, hret, haddr⟩, fun hc => ?_⟩
  rcases hc with ⟨ret', hret', haddr'⟩
  rw [show ((3 : Nat) : Int) = 3 from rfl] at hret'
  rw [hret, Option.some.injEq] at hret'
  rw [← hret', haddr, hitem] at haddr'
  exact absurd haddr' (by decide)

/-- After a load and any PUT requests the pool has room for, a client's GET of a
    key reads the item the server's search returns just when the key has not been
    put, whatever the client's cache and clock. -/
theorem get_agrees_iff (draws : Nat → Nat) (randMax : Nat) (txt : Nat → Byte) (h : HashTable)
    (size : Nat) (hi : h.index = 0) (hlo : 10 ≤ size) (hhi : size ≤ slots * maxPool)
    (rs : List Put) (hfits : ∀ r ∈ rs, r.fits size) (hpool : size + rs.length ≤ h.poolSize) :
    ∃ h₀ t, hashTableInitialize draws randMax txt (hashtableCreate h maxPool) size = some h₀ ∧
      run putStep rs h₀ = some t ∧ ∀ cache k sec nsec, k < size →
        ∃ res, clientGet t cache k sec nsec = some res ∧
          (SearchReturns t k res.item ↔ ∀ r ∈ rs, r.key ≠ k) := by
  rcases initialize_loadedTo draws randMax txt h size hi hlo hhi (by omega) with
    ⟨h₀, hload, hl, hp⟩
  rcases updatedFrom_run h₀ size rs h₀ (updatedFrom_loaded h₀ size hl hhi (by omega)) hfits
    (by rw [hl.index, hp]; exact hpool) with ⟨t, hrun, hu, hslots⟩
  refine ⟨h₀, t, hload, hrun, fun cache k sec nsec hk => ?_⟩
  rcases clientGet_item h₀ t size hu cache k sec nsec hk with ⟨res, hget, hitem⟩
  refine ⟨res, hget, ?_⟩
  rw [hitem, searchReturns_iff h₀ t size hu k k hk, hslots k hk]
  exact ⟨fun hc => hc.2, fun hc => ⟨(hl.full k hk).2, hc⟩⟩

theorem get_agrees_iff_threePuts : ∃ h₀ t,
    hashTableInitialize id 2147483647 (fun _ => 0) (hashtableCreate sevensMemory maxPool) 10 =
      some h₀ ∧ run putStep threePuts h₀ = some t ∧ ∀ cache k sec nsec, k < 10 →
        ∃ res, clientGet t cache k sec nsec = some res ∧
          (SearchReturns t k res.item ↔ ∀ r ∈ threePuts, r.key ≠ k) :=
  get_agrees_iff id 2147483647 (fun _ => 0) sevensMemory 10 rfl (by decide) (by decide)
    threePuts (by decide) (by decide)

end HydraDB

end LocalKeyValue
