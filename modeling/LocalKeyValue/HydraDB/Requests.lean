import LocalKeyValue.HydraDB.Stale

/-!
# Which Request Keys the HydraDB Server Survives

What `run_server` does with a request whose key was never loaded. The search
returns nulls for a key it has not found in any of the seven slots of a bucket,
and reads the item of each slot to find out. The load of 4000000 keys fills four
of them, so the search for an absent key comes to a slot with a null address and
follows it. Its null result is never returned. A negative key's remainder is
negative too, and its bucket is far past the end of the table, or is bucket 0.

So the loaded keys are handled and no other key is. `Serving` is the state of
the server between requests: what PUT requests make of a loaded table, with the
loaded slots still in use and the others still without an address.

The pool is taken to be at least as large as the load. How many requests it has
room for is a separate matter: what `Handled` asks of an update is that the slot
and the item it is to write to are there, whether or not an item is left for the
new value.

## Main definitions

* `Request`, `applyRequest`, `serveRequest`: A request, and the server at it.
* `Serving`: The table between requests.
* `Loaded`: The keys the table is loaded with.
* `Handled`: The operations on a key keep to the table.

## Theorems

* `search_absent`: The search for an absent key follows a null address.
* `present_iff_loaded`: The keys in the table are the loaded ones.
* `handled_iff`: The loaded keys are those that are handled.
* `requests_handled_iff`: Every state a run of requests reaches.
-/

namespace LocalKeyValue

namespace HydraDB

open Run CInt

/-- `struct request_s` -/
structure Request where
  req : Int
  key : Int
  val : Fin 32 → Byte

/-- What a request does to the table. An update writes 20 bytes of `item`; the
    result of a search is not used. -/
def applyRequest (item : Nat → Byte) (h : HashTable) (r : Request) : Option HashTable :=
  if r.req = 1 then (updateHashKey h (toInt32 r.key) item 20).map Prod.fst
  else if r.req = 2 then (hashtableSearch h (toInt32 r.key)).map fun _ => h
  else some h

/-- `run_server` at a record. Key 0 is no request. -/
def serveRequest (item : Nat → Byte) (h : HashTable) (r : Request) : Option HashTable :=
  if r.key ≠ 0 then applyRequest item h r else some h

/-- The number of keys `setup_buffers` loads. -/
abbrev loadSize : Nat := 4000000

/-- The key is one of the first `n`. -/
def Loaded (n : Nat) (k : Int) : Prop :=
  0 ≤ k ∧ k < n

instance (n : Nat) (k : Int) : Decidable (Loaded n k) :=
  inferInstanceAs (Decidable (_ ∧ _))

theorem loaded_toNat (n : Nat) (k : Int) (h : Loaded n k) : k.toNat < n := by
  rcases h with ⟨h0, hn⟩
  omega

/-- The request is for a loaded key, or for nothing. -/
def Request.Fits (n : Nat) (r : Request) : Prop :=
  r.key = 0 ∨ (r.req ≠ 1 ∧ r.req ≠ 2) ∨ Loaded n (toInt32 r.key)

instance (n : Nat) (r : Request) : Decidable (r.Fits n) :=
  inferInstanceAs (Decidable (_ ∨ _))

/-- The table between requests: a loaded one after updates, with the loaded slots
    in use and the others without an address. -/
structure Serving (h₀ : HashTable) (n : Nat) (h : HashTable) : Prop where
  updated : UpdatedFrom h₀ n h
  busy : ∀ k, k < n → (h.slot (loadSlot k)).busy ≠ 0
  unfilled : UnfilledFrom h n

/-- The operations on a key keep to the table: the search follows no null address
    and returns nulls exactly for a key that is not in it; the update, which does
    not test what the search returns, is given a slot of the table and an item of
    the pool, and goes through if the pool has an item left. -/
structure Handled (item : Nat → Byte) (h : HashTable) (k : Int) : Prop where
  search : ∃ ret, hashtableSearch h k = some ret ∧
    ((ret.descriptor = none ∧ ret.keyAddress = none) ↔ ¬ Cells.Present (cells h) k)
  target : ∃ ret p a, hashtableSearch h k = some ret ∧ ret.descriptor = some p ∧ InTable p ∧
    ret.keyAddress = some a ∧ a < h.poolSize
  update : h.index < h.poolSize → updateHashKey h k item 20 ≠ none

/-! ## The search for an absent key -/

/-- The search follows the null address of a slot it comes to. -/
theorem searchFrom_null (h : HashTable) (b : Nat) (key : Int) (j : Nat)
    (hnull : (h.slot (b, j)).addr = none) :
    ∀ n i, i ≤ j → j < i + n →
      (∀ l, i ≤ l → l < j → ∀ a, (h.slot (b, l)).addr = some a → (h.buckets a).key ≠ key) →
      searchFrom h b key n i = none := by
  intro n
  induction n with
  | zero => intro i hij hj _; omega
  | succ n ih =>
      intro i hij hj hne
      unfold searchFrom
      by_cases hi : i = j
      · rw [hi, hnull]
        rfl
      · cases ha : (h.slot (b, i)).addr with
        | none => rfl
        | some a =>
            -- An item past the pool ends the search too; one inside has another key.
            have hrest := ih (i + 1) (by omega) (by omega) (fun l hl => hne l (by omega))
            have hkey := hne i (Nat.le_refl i) (by omega) a ha
            unfold item?
            by_cases hlt : a < h.poolSize
            · simp only [if_pos hlt, if_neg hkey, hrest]
            · simp only [if_neg hlt]

/-- The number of the key whose slot this is. -/
theorem loadSlot_surjective (b i : Nat) (hb : b < maxPool) (hi : i < slots) :
    (b, i) = loadSlot (i * maxPool + b) ∧ i * maxPool + b < slots * maxPool := by
  simp only [loadSlot, Prod.mk.injEq, slots, maxPool] at hb hi ⊢
  omega

/-- A slot with an address is a loaded key's, and points to an item with it. -/
theorem serving_slot (h₀ h : HashTable) (n : Nat) (hs : Serving h₀ n h) (b i : Nat)
    (hb : b < maxPool) (hi : i < slots) (a : Nat) (ha : (h.slot (b, i)).addr = some a) :
    ∃ k, k < n ∧ (b, i) = loadSlot k ∧ (h.buckets a).key = k := by
  rcases loadSlot_surjective b i hb hi with ⟨heq, hmax⟩
  rw [heq] at ha
  -- The number of the key that belongs in the slot says whether it was loaded.
  by_cases hk : i * maxPool + b < n
  · rcases hs.updated.slot _ hk with ⟨c, hc, _, hkey, _⟩
    rw [ha, Option.some.injEq] at hc
    exact ⟨_, hk, heq, by rw [hc]; exact hkey⟩
  · rw [hs.unfilled _ (by omega) hmax] at ha
    exact absurd ha (by simp only [reduceCtorEq, not_false_eq_true])

/-- If the last slot of every bucket is unfilled, the search for a key that was
    not loaded does not come back. -/
theorem search_absent (h₀ h : HashTable) (n : Nat) (hs : Serving h₀ n h) (hn : n ≤ 6 * maxPool)
    (k : Int) (hk : ¬ Loaded n k) : hashtableSearch h k = none := by
  unfold hashtableSearch
  by_cases hb : calcHash k < maxPool
  · rw [if_pos hb]
    -- Slot 6 of the bucket is one the load leaves without an address.
    rcases loadSlot_surjective (calcHash k) 6 hb (by decide) with ⟨heq, hmax⟩
    have hnull : (h.slot (calcHash k, 6)).addr = none := by
      rw [heq]
      exact hs.unfilled _ (by omega) hmax
    refine searchFrom_null h _ k 6 hnull slots 0 (Nat.zero_le 6) (by decide) (fun l _ hl a ha => ?_)
    rcases serving_slot h₀ h n hs _ l hb (Nat.lt_trans hl (by decide)) a ha with
      ⟨k', hk', _, hkey⟩
    rw [hkey]
    intro hc
    exact hk ⟨by omega, by omega⟩
  · rw [if_neg hb]

/-- The keys in the table are the loaded ones. -/
theorem present_iff_loaded (h₀ h : HashTable) (n : Nat) (hs : Serving h₀ n h) (k : Int) :
    Cells.Present (cells h) k ↔ Loaded n k := by
  constructor
  · intro hp
    rcases hp with ⟨e, p, hp⟩
    rcases (cells_eq_some h p k e).mp hp with ⟨hin, _, haddr, hkey, _⟩
    rcases serving_slot h₀ h n hs p.1 p.2 hin.1 hin.2 e.item haddr with ⟨k', hk', _, hkey'⟩
    rw [hkey] at hkey'
    exact ⟨by omega, by omega⟩
  · intro hk
    have hbound := hs.updated.bound
    have hk' := loaded_toNat n k hk
    rcases hs.updated.slot _ hk' with ⟨a, ha, _, hkey, _⟩
    have hin : InTable (loadSlot k.toNat) :=
      loadSlot_inTable _ (Nat.lt_of_lt_of_le hk' hbound)
    rw [Int.toNat_of_nonneg hk.1] at hkey
    refine ⟨{ item := a, size := (h.slot (loadSlot k.toNat)).size.toNat }, loadSlot k.toNat, ?_⟩
    exact (cells_eq_some h _ k _).mpr ⟨hin, hs.busy _ hk', ha, hkey, rfl⟩

/-! ## Requests -/

/-- A search for a loaded key finds its slot and item. -/
theorem search_loaded (h₀ h : HashTable) (n : Nat) (hs : Serving h₀ n h) (k : Int)
    (hk : Loaded n k) : ∃ a, a < h.index ∧ hashtableSearch h k =
      some { descriptor := some (loadSlot k.toNat), keyAddress := some a, extEnabled := 0 } := by
  have hk' := loaded_toNat n k hk
  rcases hs.updated.slot _ hk' with ⟨a, ha, hlt, _, _⟩
  have hsearch := search_updatedFrom h₀ h n hs.updated k.toNat a hk' ha
  rw [Int.toNat_of_nonneg hk.1] at hsearch
  exact ⟨a, hlt, hsearch⟩

/-- The loaded keys are the ones that are handled. -/
theorem handled_iff (item : Nat → Byte) (h₀ h : HashTable) (n : Nat) (hs : Serving h₀ n h)
    (hn : n ≤ 6 * maxPool) (k : Int) : Handled item h k ↔ Loaded n k := by
  constructor
  · intro hh
    rcases hh.search with ⟨ret, hret, _⟩
    by_contra hk
    rw [search_absent h₀ h n hs hn k hk] at hret
    exact absurd hret (by simp only [reduceCtorEq, not_false_eq_true])
  · intro hk
    rcases search_loaded h₀ h n hs k hk with ⟨a, hlt, hsearch⟩
    have hin : InTable (loadSlot k.toNat) :=
      loadSlot_inTable _ (Nat.lt_of_lt_of_le (loaded_toNat n k hk) hs.updated.bound)
    refine ⟨⟨_, hsearch, ?_⟩, ⟨_, _, a, hsearch, rfl, hin, rfl,
      Nat.lt_of_lt_of_le hlt hs.updated.pool⟩, fun hroom => ?_⟩
    · refine iff_of_false (fun hc => ?_) (not_not.mpr ((present_iff_loaded h₀ h n hs k).mpr hk))
      exact absurd hc.1 (by simp only [reduceCtorEq, not_false_eq_true])
    · rw [update_spec h _ a k item 20 hsearch (by omega) (by decide) (by decide) hroom]
      simp only [ne_eq, reduceCtorEq, not_false_eq_true]

/-- An update of a loaded key keeps the table serving. -/
theorem serving_put (item : Nat → Byte) (h₀ h : HashTable) (n : Nat) (hs : Serving h₀ n h)
    (k : Int) (hk : Loaded n k) (hroom : h.index < h.poolSize) :
    ∃ h' ret, updateHashKey h k item 20 = some (h', ret) ∧ Serving h₀ n h' ∧
      h'.index = h.index + 1 ∧ h'.poolSize = h.poolSize := by
  have hk' := loaded_toNat n k hk
  have h20 : (0 : Int) ≤ 20 ∧ (20 : Int) ≤ keySize := by decide
  rcases hs.updated.slot _ hk' with ⟨a, ha, hlt, _, _⟩
  have hsearch := search_updatedFrom h₀ h n hs.updated k.toNat a hk' ha
  have hu' := updatedFrom_updated h₀ h n hs.updated k.toNat a item 20 hk' ha hroom
  rw [Int.toNat_of_nonneg hk.1] at hsearch hu'
  have hup := update_spec h _ a k item 20 hsearch (by omega) h20.1 h20.2 hroom
  refine ⟨_, _, hup, ⟨hu', fun k' hk'' => ?_, fun k' hle hmax => ?_⟩, rfl, rfl⟩
  · -- An update leaves `busy` as it was.
    by_cases hkk : k' = k.toNat
    · rw [hkk, updated_slot]
      exact hs.busy _ hk'
    · rw [updated_loadSlot_other h k.toNat a k item 20 k' hkk]
      exact hs.busy k' hk''
  · rw [updated_loadSlot_other h k.toNat a k item 20 k' (by omega)]
    exact hs.unfilled k' hle hmax

/-- An update writes no item past the pool. -/
theorem update_full (h : HashTable) (k : Int) (item : Nat → Byte) (size : Int)
    (hfull : ¬ h.index < h.poolSize) : updateHashKey h k item size = none := by
  unfold updateHashKey
  cases hashtableSearch h k with
  | none => rfl
  | some ret =>
      rcases ret with ⟨_ | p, _ | a, e⟩
      · rfl
      · rfl
      · rfl
      · have hitem : item? (h.setItem a { h.buckets a with flag := 1 }) (some h.index) = none :=
          if_neg hfull
        simp only [hitem]

/-- What a request is: nothing to do, a PUT or a GET. -/
theorem serveRequest_cases (item : Nat → Byte) (h : HashTable) (r : Request) :
    serveRequest item h r = some h ∨
      (r.key ≠ 0 ∧ r.req = 1 ∧ serveRequest item h r =
        (updateHashKey h (toInt32 r.key) item 20).map Prod.fst) ∨
      (r.key ≠ 0 ∧ r.req = 2 ∧ serveRequest item h r =
        (hashtableSearch h (toInt32 r.key)).map fun _ => h) := by
  unfold serveRequest
  by_cases h0 : r.key = 0
  · exact Or.inl (if_neg (not_not.mpr h0))
  · rw [if_pos h0, applyRequest]
    by_cases h1 : r.req = 1
    · exact Or.inr (Or.inl ⟨h0, h1, if_pos h1⟩)
    · rw [if_neg h1]
      by_cases h2 : r.req = 2
      · exact Or.inr (Or.inr ⟨h0, h2, if_pos h2⟩)
      · exact Or.inl (if_neg h2)

/-- A PUT or a GET that fits is for a loaded key. -/
theorem loaded_of_fits (n : Nat) (r : Request) (h : r.Fits n) (h0 : r.key ≠ 0)
    (hreq : r.req = 1 ∨ r.req = 2) : Loaded n (toInt32 r.key) := by
  rcases h with hc | hc | hk
  · exact absurd hc h0
  · rcases hreq with h1 | h2
    · exact absurd h1 hc.1
    · exact absurd h2 hc.2
  · exact hk

/-- A request that goes through keeps the table serving. -/
theorem serving_request (item : Nat → Byte) (h₀ h h' : HashTable) (n : Nat)
    (hs : Serving h₀ n h) (hn : n ≤ 6 * maxPool) (r : Request)
    (hr : serveRequest item h r = some h') : Serving h₀ n h' := by
  rcases serveRequest_cases item h r with hnone | ⟨_, _, hput⟩ | ⟨_, _, hget⟩
  · rw [hnone, Option.some.injEq] at hr
    exact hr ▸ hs
  · -- It went through, so the key was loaded and the pool had an item left.
    rw [hput] at hr
    rcases Option.map_eq_some_iff.mp hr with ⟨⟨t, ret⟩, hup, rfl⟩
    by_cases hroom : h.index < h.poolSize
    · by_cases hk : Loaded n (toInt32 r.key)
      · rcases serving_put item h₀ h n hs _ hk hroom with ⟨t', ret', hup', hs', _⟩
        rw [hup', Option.some.injEq, Prod.mk.injEq] at hup
        rw [← hup.1]
        exact hs'
      · rw [updateHashKey, search_absent h₀ h n hs hn _ hk] at hup
        exact absurd hup (by simp only [reduceCtorEq, not_false_eq_true])
    · rw [update_full h _ item 20 hroom] at hup
      exact absurd hup (by simp only [reduceCtorEq, not_false_eq_true])
  · rw [hget] at hr
    rcases Option.map_eq_some_iff.mp hr with ⟨_, _, rfl⟩
    exact hs

/-- A request for a loaded key goes through while the pool has an item left, and
    takes at most one. -/
theorem request_completes (item : Nat → Byte) (h₀ h : HashTable) (n : Nat) (hs : Serving h₀ n h)
    (r : Request) (hf : r.Fits n) (hroom : h.index < h.poolSize) :
    ∃ h', serveRequest item h r = some h' ∧ h'.index ≤ h.index + 1 ∧
      h'.poolSize = h.poolSize := by
  rcases serveRequest_cases item h r with hnone | ⟨h0, h1, hput⟩ | ⟨h0, h2, hget⟩
  · exact ⟨h, hnone, Nat.le_succ _, rfl⟩
  · have hk := loaded_of_fits n r hf h0 (Or.inl h1)
    rcases serving_put item h₀ h n hs _ hk hroom with ⟨h', _, hup, _, hi, hp⟩
    exact ⟨h', by rw [hput, hup]; rfl, Nat.le_of_eq hi, hp⟩
  · have hk := loaded_of_fits n r hf h0 (Or.inr h2)
    rcases search_loaded h₀ h n hs _ hk with ⟨_, _, hsearch⟩
    exact ⟨h, by rw [hget, hsearch]; rfl, Nat.le_succ _, rfl⟩

/-- A run of requests for loaded keys completes if the pool has room for it. -/
theorem serving_run (item : Nat → Byte) (h₀ : HashTable) (n : Nat) (hn : n ≤ 6 * maxPool) :
    ∀ (rs : List Request) (h : HashTable), Serving h₀ n h → (∀ r ∈ rs, r.Fits n) →
      h.index + rs.length ≤ h.poolSize → ∃ t, run (serveRequest item) rs h = some t := by
  intro rs
  induction rs with
  | nil => intro h _ _ _; exact ⟨h, rfl⟩
  | cons r rs ih =>
      intro h hs hfits hroom
      rw [List.length_cons] at hroom
      rcases request_completes item h₀ h n hs r (hfits r List.mem_cons_self) (by omega) with
        ⟨h', hrun, hi, hp⟩
      -- One item fewer is left for one request fewer.
      rcases ih h' (serving_request item h₀ h h' n hs hn r hrun)
        (fun r' hr' => hfits r' (List.mem_cons_of_mem r hr')) (by omega) with ⟨t, ht⟩
      exact ⟨t, by rw [run_cons (serveRequest item) r rs h h' hrun]; exact ht⟩

/-- The table `setup_buffers` makes. -/
theorem initialize_serving (draws : Nat → Nat) (randMax : Nat) (txt : Nat → Byte)
    (h : HashTable) (hi : h.index = 0) (hpool : loadSize ≤ h.poolSize) :
    ∃ h₀, hashTableInitialize draws randMax txt (hashtableCreate h maxPool) loadSize = some h₀ ∧
      Serving h₀ loadSize h₀ ∧ h₀.index = loadSize ∧ h₀.poolSize = h.poolSize := by
  rcases initialize_unfilledFrom draws randMax txt h loadSize hi (by decide) (by decide) hpool with
    ⟨h₀, hload, hl, hp, hu⟩
  exact ⟨h₀, hload, ⟨updatedFrom_loaded h₀ loadSize hl (by decide) (by rw [hp]; exact hpool),
    fun k hk => (hl.full k hk).1, hu⟩, hl.index, hp⟩

/-- After the load any run of requests for loaded keys that the pool has room for
    completes. In every state any run of requests reaches, the keys that are
    handled are the loaded ones. -/
theorem requests_handled_iff (draws : Nat → Nat) (randMax : Nat) (txt : Nat → Byte)
    (h : HashTable) (hi : h.index = 0) (hpool : loadSize ≤ h.poolSize) (item : Nat → Byte)
    (rs : List Request) :
    ∃ h₀, hashTableInitialize draws randMax txt (hashtableCreate h maxPool) loadSize = some h₀ ∧
      ((∀ r ∈ rs, r.Fits loadSize) → loadSize + rs.length ≤ h.poolSize →
        ∃ t, run (serveRequest item) rs h₀ = some t) ∧
      ∀ t, run (serveRequest item) rs h₀ = some t →
        ∀ key, Handled item t (toInt32 key) ↔ Loaded loadSize (toInt32 key) := by
  have hsix : loadSize ≤ 6 * maxPool := by decide
  rcases initialize_serving draws randMax txt h hi hpool with ⟨h₀, hload, hs, hindex, hp⟩
  refine ⟨h₀, hload, fun hfits hroom => ?_, fun t hrun key => ?_⟩
  · exact serving_run item h₀ loadSize hsix rs h₀ hs hfits (by rw [hindex, hp]; exact hroom)
  · have hst := run_invariant_along (serveRequest item) (fun _ _ => True) (Serving h₀ loadSize)
      (fun s r s' hI _ hstep => serving_request item h₀ s s' loadSize hI hsix r hstep) rs h₀ t hs
      (along_true _ rs h₀) hrun
    exact handled_iff item h₀ t loadSize hst hsix (toInt32 key)

/-- A PUT and a GET of the last key. -/
def lastKeyRequests : List Request :=
  [{ req := 1, key := 3999999, val := fun _ => 0 }, { req := 2, key := 3999999, val := fun _ => 0 }]

theorem requests_handled_iff_lastKey : ∃ h₀ t,
    hashTableInitialize id 2147483647 (fun _ => 0) (hashtableCreate roomyMemory maxPool) loadSize =
      some h₀ ∧ run (serveRequest fun _ => 65) lastKeyRequests h₀ = some t ∧
      Handled (fun _ => 65) t 3999999 ∧ ¬ Handled (fun _ => 65) t 4000000 := by
  rcases requests_handled_iff id 2147483647 (fun _ => 0) roomyMemory rfl (by decide) (fun _ => 65)
    lastKeyRequests with ⟨h₀, hload, hrun, hall⟩
  rcases hrun (by decide) (by decide) with ⟨t, ht⟩
  have hin := hall t ht 3999999
  have hout := hall t ht 4000000
  rw [toInt32_of_inInt32 _ (by decide)] at hin hout
  exact ⟨h₀, t, hload, ht, hin.mpr (by decide), fun hc => absurd (hout.mp hc) (by decide)⟩

/-- A GET of key 4000000 as the first request follows a null address. -/
theorem request_follows_null : ¬ ∀ draws randMax txt (h : HashTable), h.index = 0 →
    loadSize ≤ h.poolSize → ∀ item rs, ∃ h₀,
      hashTableInitialize draws randMax txt (hashtableCreate h maxPool) loadSize = some h₀ ∧
        ∀ t, run (serveRequest item) rs h₀ = some t → ∀ key, Handled item t (toInt32 key) := by
  intro h
  rcases h id 2147483647 (fun _ => 0) roomyMemory rfl (by decide) (fun _ => 65) [] with
    ⟨h₀, hload, hall⟩
  rcases initialize_serving id 2147483647 (fun _ => 0) roomyMemory rfl (by decide) with
    ⟨h₁, hload', hs, _⟩
  rw [hload', Option.some.injEq] at hload
  rw [← hload] at hall
  have hh := hall h₁ rfl 4000000
  rw [handled_iff _ h₁ h₁ loadSize hs (by decide), toInt32_of_inInt32 _ (by decide)] at hh
  exact absurd hh (by decide)

end HydraDB

end LocalKeyValue
