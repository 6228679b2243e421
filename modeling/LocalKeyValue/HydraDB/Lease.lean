import LocalKeyValue.HydraDB.Stale

/-!
# Client Leases

When a HydraDB client may read the pool without asking the server. Its cache has
an entry for each key, with the time of the last GET that went through the
server and a lease, and a GET whose entry is there goes back to the label
`again` of the other branch, and so through the server, if
`lease > cpu_time_passed`. A lease is meant to be good until its time is up; the
comparison makes it good from then on.

The lease is always 1, and the time is in nanoseconds. So a GET is kept off the
pool if the key's last GET was at the same reading of the clock, and goes there
if it was earlier. The very first GET of key 0 goes there too, since the
zero-initialised entry has the tag of key 0.

The difference of the clock readings is a `double` in the source. It is an
integer here, as rounding cannot carry an integer across 0 or 1, the leases it
is compared with.

## Main definitions

* `Get`, `Client`, `getStep`: A GET, and what it does to a client.
* `ClockOk`: The clock does not go back.
* `Leased`: A GET keeps to the lease.
* `Fresh`: The GET comes when the key's last one did, or is the first of a key
  other than 0.

## Theorems

* `leased_iff_fresh`: Which GETs keep to the lease after others that do.
* `lease_read_expired`: A GET a second after the last does not.
* `leases_kept_iff`: The runs whose GETs all do, for any clock.
-/

namespace LocalKeyValue

namespace HydraDB

open Run

/-- A GET, with the server's table and the reading of the clock at the time. -/
structure Get where
  table : HashTable
  key : Fin cacheSize
  sec : Int
  nsec : Int

/-- The nanoseconds from another reading of the clock to that of the GET. -/
def Get.since (g : Get) (reading : Int × Int) : Int :=
  (g.sec - reading.1) * 1000000000 + (g.nsec - reading.2)

/-- The clock does not go back. -/
def ClockOk (gets : List Get) : Prop :=
  gets.Pairwise fun g g' => 0 ≤ g'.since (g.sec, g.nsec)

/-- A client's cache, and when its last GET of each key that went through the
    server was made. -/
structure Client where
  cache : Nat → CacheEntry
  asked : Nat → Option (Int × Int)

/-- The zero-initialised `local_cache`. -/
def Client.start : Client where
  cache := fun _ => { key := 0, lease := 0, sec := 0, nsec := 0 }
  asked := fun _ => none

/-- The cache entry a GET through the server leaves. -/
def Get.entry (g : Get) : CacheEntry :=
  { key := g.key.val, lease := 1, sec := g.sec, nsec := g.nsec }

def getStep (c : Client) (g : Get) : Option Client :=
  match clientGet g.table c.cache g.key.val g.sec g.nsec with
  | none => none
  | some res => some {
      cache := res.cache
      asked := if res.direct then c.asked
        else Function.update c.asked g.key.val (some (g.sec, g.nsec)) }

/-- A GET that goes straight to the pool comes after one of the key that went
    through the server, in less time than the cached lease; any other refreshes
    the key's entry. -/
def Leased (c : Client) (g : Get) : Prop :=
  ∀ res, clientGet g.table c.cache g.key.val g.sec g.nsec = some res →
    (res.direct = true → ∃ last, c.asked g.key.val = some last ∧
      g.since last < (c.cache g.key.val).lease) ∧
    (res.direct = false → res.cache = Function.update c.cache g.key.val g.entry)

/-- When the last GET of each key was made, however it went. -/
def seenStep (seen : Nat → Option (Int × Int)) (g : Get) : Option (Nat → Option (Int × Int)) :=
  some (Function.update seen g.key.val (some (g.sec, g.nsec)))

/-- The GET comes less than a nanosecond after the key's last, or there is none
    and the key is not 0; for key 0 the clock would have to be negative. -/
def Fresh (seen : Nat → Option (Int × Int)) (g : Get) : Prop :=
  match seen g.key.val with
  | some last => g.since last < 1
  | none => g.key.val ≠ 0 ∨ g.since (0, 0) < 0

instance (seen : Nat → Option (Int × Int)) (g : Get) : Decidable (Fresh seen g) :=
  match h : seen g.key.val with
  | some last => decidable_of_iff (g.since last < 1) (by rw [Fresh, h])
  | none => decidable_of_iff (g.key.val ≠ 0 ∨ g.since (0, 0) < 0) (by rw [Fresh, h])

/-! ## One GET -/

/-- The entry is not that of the key, or its lease has not expired: what sends a
    GET through the server. -/
def Asks (c : Client) (g : Get) : Prop :=
  (c.cache g.key.val).key ≠ g.key.val ∨
    (c.cache g.key.val).lease > cpuTimePassed (c.cache g.key.val) g.sec g.nsec

theorem messageGet_result (h : HashTable) (cache : Nat → CacheEntry) (key : Nat) (sec nsec : Int)
    (res : GetResult) (hget : messageGet h cache key sec nsec = some res) :
    res.direct = false ∧ res.cache = Function.update cache (key % cacheSize)
      { key := key, lease := 1, sec := sec, nsec := nsec } := by
  unfold messageGet at hget
  cases hs : hashtableSearch h key with
  | none =>
      rw [hs] at hget
      exact absurd hget (by simp only [reduceCtorEq, not_false_eq_true])
  | some ret =>
      simp only [hs, readItem] at hget
      split at hget
      · rw [Option.some.injEq] at hget
        rw [← hget]
        exact ⟨rfl, rfl⟩
      · exact absurd hget (by simp only [reduceCtorEq, not_false_eq_true])

/-- A GET that asks the server leaves a new entry, and one that does not leaves
    the cache as it is. -/
theorem clientGet_result (c : Client) (g : Get) (res : GetResult)
    (hget : clientGet g.table c.cache g.key.val g.sec g.nsec = some res) :
    (Asks c g ∧ res.direct = false ∧ res.cache = Function.update c.cache g.key.val g.entry) ∨
      (¬ Asks c g ∧ res.direct = true ∧ res.cache = c.cache) := by
  -- Keys are below the size of the cache, so both of its indexes are the key.
  have hmod : g.key.val % cacheSize = g.key.val := Nat.mod_eq_of_lt g.key.isLt
  have hmsg : messageGet g.table c.cache g.key.val g.sec g.nsec = some res →
      res.direct = false ∧ res.cache = Function.update c.cache g.key.val g.entry := by
    intro h
    rcases messageGet_result _ _ _ _ _ res h with ⟨hd, hc⟩
    rw [hmod] at hc
    exact ⟨hd, hc⟩
  unfold clientGet at hget
  rw [hmod] at hget
  by_cases hkey : (c.cache g.key.val).key ≠ g.key.val
  · rw [if_pos hkey] at hget
    exact Or.inl ⟨Or.inl hkey, hmsg hget⟩
  · rw [if_neg hkey] at hget
    by_cases hlease : (c.cache g.key.val).lease > cpuTimePassed (c.cache g.key.val) g.sec g.nsec
    · -- The jump to `again`.
      rw [if_pos hlease] at hget
      exact Or.inl ⟨Or.inr hlease, hmsg hget⟩
    · rw [if_neg hlease, readItem] at hget
      refine Or.inr ⟨fun h => h.elim hkey hlease, ?_⟩
      split at hget
      · rw [Option.some.injEq] at hget
        rw [← hget]
        exact ⟨rfl, rfl⟩
      · exact absurd hget (by simp only [reduceCtorEq, not_false_eq_true])

/-- A client all of whose GETs have gone through the server: an entry is that of
    the key's last GET, or as it was at the start. -/
def AllAsked (c : Client) (seen : Nat → Option (Int × Int)) : Prop :=
  ∀ k, c.asked k = seen k ∧ c.cache k = match seen k with
    | some last => { key := k, lease := 1, sec := last.1, nsec := last.2 }
    | none => { key := 0, lease := 0, sec := 0, nsec := 0 }

theorem asks_iff_fresh (c : Client) (seen : Nat → Option (Int × Int)) (g : Get)
    (h : AllAsked c seen) : Asks c g ↔ Fresh seen g := by
  have hentry := (h g.key.val).2
  unfold Asks Fresh
  cases hs : seen g.key.val with
  | none =>
      rw [hs] at hentry
      simp only [hentry, cpuTimePassed, Get.since]
      -- The entry is zero, and so is the tag of key 0.
      constructor
      · intro h
        exact h.imp (fun hk hc => hk (by rw [hc, Nat.cast_zero])) id
      · intro h
        exact h.imp (fun hk hc => hk (by omega)) id
  | some last =>
      rw [hs] at hentry
      simp only [hentry, ne_eq, not_true_eq_false, false_or, cpuTimePassed, Get.since, gt_iff_lt]

/-- A GET keeps to the lease only by asking the server: one that does not ask
    comes when the lease has run out, or without a lease. -/
theorem leased_iff_asks (c : Client) (seen : Nat → Option (Int × Int)) (g : Get)
    (h : AllAsked c seen) (res : GetResult)
    (hget : clientGet g.table c.cache g.key.val g.sec g.nsec = some res) :
    Leased c g ↔ Asks c g := by
  have hsame : ∀ res', clientGet g.table c.cache g.key.val g.sec g.nsec = some res' →
      res' = res := by
    intro res' hres'
    rw [hget, Option.some.injEq] at hres'
    exact hres'.symm
  rcases clientGet_result c g res hget with ⟨hasks, hd, hc⟩ | ⟨hasks, hd, _⟩
  · refine iff_of_true (fun res' hres' => ?_) hasks
    rw [hsame res' hres']
    exact ⟨fun ht => absurd (hd.symm.trans ht) (by decide), fun _ => hc⟩
  · refine iff_of_false (fun hl => ?_) hasks
    rcases (hl res hget).1 hd with ⟨last, hlast, hlt⟩
    rcases h g.key.val with ⟨hasked, hentry⟩
    rw [hasked] at hlast
    rw [hlast] at hentry
    -- The time that has passed is that since the entry was made.
    have hpassed : cpuTimePassed (c.cache g.key.val) g.sec g.nsec = g.since last := by
      rw [hentry, cpuTimePassed, Get.since]
    exact hasks (Or.inr (by rw [hpassed]; exact hlt))

theorem leased_iff_fresh (c : Client) (seen : Nat → Option (Int × Int)) (g : Get)
    (h : AllAsked c seen) (c' : Client) (hstep : getStep c g = some c') :
    (Leased c g ↔ Fresh seen g) ∧
      (Leased c g → ∃ seen', seenStep seen g = some seen' ∧ AllAsked c' seen') := by
  unfold getStep at hstep
  cases hget : clientGet g.table c.cache g.key.val g.sec g.nsec with
  | none =>
      rw [hget] at hstep
      exact absurd hstep (by simp only [reduceCtorEq, not_false_eq_true])
  | some res =>
      rw [hget, Option.some.injEq] at hstep
      have hiff := leased_iff_asks c seen g h res hget
      refine ⟨hiff.trans (asks_iff_fresh c seen g h), fun hl => ⟨_, rfl, fun k => ?_⟩⟩
      rcases clientGet_result c g res hget with ⟨_, hd, hc⟩ | ⟨hasks, _⟩
      · rw [← hstep, hd, hc]
        by_cases hk : k = g.key.val
        · simp only [hk, Function.update_self, Bool.false_eq_true, if_false]
          exact ⟨trivial, rfl⟩
        · simp only [Function.update_of_ne hk, Bool.false_eq_true, if_false]
          exact h k
      · exact absurd (hiff.mp hl) hasks

/-! ## Runs of GETs -/

/-- A loaded table, and two GETs of key 3 a second apart. -/
theorem lease_read_expired : ¬ ∀ gets c, ClockOk gets → run getStep gets Client.start = some c →
    Along getStep Leased gets Client.start := by
  intro h
  -- The second GET is one the client is not to make without asking.
  have hres : (hashTableInitialize id 2147483647 (fun _ => 0)
      (hashtableCreate sevensMemory maxPool) 10).bind (fun t =>
        (run getStep [⟨t, 3, 1, 0⟩, ⟨t, 3, 2, 0⟩] Client.start).map fun _ =>
          ((getStep Client.start ⟨t, 3, 1, 0⟩).bind fun c =>
            (clientGet t c.cache 3 2 0).map fun res =>
              (res.direct, c.asked 3, (c.cache 3).lease))) =
      some (some (true, some (1, 0), 1)) := by
    decide +kernel
  rcases Option.bind_eq_some_iff.mp hres with ⟨t, _, hres⟩
  rcases Option.map_eq_some_iff.mp hres with ⟨u, hrun, hres⟩
  rcases Option.bind_eq_some_iff.mp hres with ⟨c, hfirst, hres⟩
  rcases Option.map_eq_some_iff.mp hres with ⟨res, hget, hres⟩
  rw [Prod.mk.injEq, Prod.mk.injEq] at hres
  rcases hres with ⟨hdirect, hasked, hlease⟩
  have hclock : ClockOk [⟨t, 3, 1, 0⟩, ⟨t, 3, 2, 0⟩] := by simp [ClockOk, Get.since]
  have hall := ((along_cons _ _ _ _ _ _ hfirst).mp (h _ u hclock hrun)).2
  rcases (hall.1 res hget).1 hdirect with ⟨last, hlast, hlt⟩
  have hat : last = (1, 0) := by
    rw [← Option.some.injEq, ← hlast]
    exact hasked
  rw [hat] at hlt
  -- A second is more than the lease.
  exact absurd (lt_of_lt_of_eq hlt hlease) (by simp only [Get.since]; decide)

/-- In a client's run of GETs, whatever the server's tables and the clock, each
    keeps to the lease just when each comes less than a nanosecond after the
    last GET of its key, or is the first of a key other than 0. -/
theorem leases_kept_iff (gets : List Get) (c : Client)
    (hrun : run getStep gets Client.start = some c) :
    Along getStep Leased gets Client.start ↔ Along seenStep Fresh gets (fun _ => none) :=
  along_iff_of_related getStep seenStep Leased Fresh AllAsked
    (fun c seen g c' h hstep => leased_iff_fresh c seen g h c' hstep) gets Client.start c
    (fun _ => none) (fun _ => ⟨rfl, rfl⟩) hrun

/-- Two GETs at one reading of the clock, and one of another key later. -/
theorem leases_kept_iff_sameReading : ∃ t, hashTableInitialize id 2147483647 (fun _ => 0)
      (hashtableCreate sevensMemory maxPool) 10 = some t ∧
    Along getStep Leased [⟨t, 3, 1, 0⟩, ⟨t, 3, 1, 0⟩, ⟨t, 4, 2, 0⟩] Client.start := by
  have hres : (hashTableInitialize id 2147483647 (fun _ => 0)
      (hashtableCreate sevensMemory maxPool) 10).map (fun t =>
        (run getStep [⟨t, 3, 1, 0⟩, ⟨t, 3, 1, 0⟩, ⟨t, 4, 2, 0⟩] Client.start).isSome) =
      some true := by
    decide +kernel
  rcases Option.map_eq_some_iff.mp hres with ⟨t, hload, hrun⟩
  rcases Option.isSome_iff_exists.mp hrun with ⟨c, hc⟩
  refine ⟨t, hload, (leases_kept_iff _ c hc).mpr ⟨Or.inl ?_, ?_, Or.inl ?_, trivial⟩⟩
  · change ((3 : Fin cacheSize) : Nat) ≠ 0
    decide
  · change ((1 : Int) - 1) * 1000000000 + (0 - 0) < 1
    decide
  · change ((4 : Fin cacheSize) : Nat) ≠ 0
    decide

end HydraDB

end LocalKeyValue
