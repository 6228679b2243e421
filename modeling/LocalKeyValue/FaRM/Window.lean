import LocalKeyValue.FaRM.HopExact

/-!
# The Client's One-Sided Window

A FaRM client answers a GET without the server: it reads six consecutive
buckets of the server's array by RDMA and looks for the key among them. Six is
the reach of a home, so the window holds the key if it starts at the key's home.
The client starts it at the key itself. It neither reduces the key modulo the
size of the table, as the server's hash does, nor stops at the last bucket, and
a read that leaves the registered region is refused by the network card.

The two agree exactly where neither matters: on keys whose six buckets are all
inside the array. Such a key is its own home.

## Main definitions

* `lookupAt`: The bucket in which `hopscotch_lookup` finds a key.
* `clientWindow`, `clientRead`: The buckets a GET reads.
* `WindowHolds`: The window is registered and has the key's bucket in it.

## Theorems

* `lookupAt_lookup`: What a lookup returns is in the bucket it finds.
* `lookupAt_stored`: A stored key is found within reach of its home.
* `windowHolds_iff`: The window has the bucket exactly when it is inside.
* `windowHolds_get`: The GET then reads what the server's lookup would return.
-/

namespace LocalKeyValue

namespace FaRM

/-- The bucket in which `hopscotch_lookup` finds the key. -/
def lookupAt (ht : HashTable) (key : Int) : Option Nat :=
  match findFrom ht (ht.homeIdx key) key with
  | some (some i) => some (ht.homeIdx key + i)
  | _ => none

/-- The indices of the buckets a GET of the key reads,
    `6 * sizeof(struct hopscotch_bucket)` from
    `buf + sizeof(struct hopscotch_bucket) * key` on. -/
def clientWindow (key : Int) : List Nat :=
  (List.range 6).map (fun b => key.toNat + b)

/-- The read itself. The region registered at the server is the bucket array,
    and a read that leaves it is refused as a whole. -/
def clientRead (ht : HashTable) (key : Int) : Option (List Bucket) :=
  if ∀ p ∈ clientWindow key, p < ht.sz then some ((clientWindow key).map ht.buckets) else none

/-- The client's window is registered and contains the bucket in which the
    server would find the key. -/
def WindowHolds (ht : HashTable) (key : Int) : Prop :=
  (∃ window, clientRead ht key = some window) ∧
    ∃ p, lookupAt ht key = some p ∧ p ∈ clientWindow key

theorem mem_clientWindow (key : Int) (p : Nat) :
    p ∈ clientWindow key ↔ key.toNat ≤ p ∧ p < key.toNat + 6 := by
  simp only [clientWindow, List.mem_map, List.mem_range]
  constructor
  · intro h
    rcases h with ⟨b, hb, rfl⟩
    omega
  · intro h
    exact ⟨p - key.toNat, by omega, by omega⟩

/-- The read succeeds if the last of the six buckets is inside. -/
theorem clientRead_isSome (ht : HashTable) (key : Int) :
    (∃ window, clientRead ht key = some window) ↔ key.toNat + 5 < ht.sz := by
  have hall : (∀ p ∈ clientWindow key, p < ht.sz) ↔ key.toNat + 5 < ht.sz := by
    constructor
    · intro h
      exact h (key.toNat + 5) ((mem_clientWindow key _).mpr (by omega))
    · intro h p hp
      have := (mem_clientWindow key p).mp hp
      omega
  rw [← hall, clientRead]
  by_cases h : ∀ p ∈ clientWindow key, p < ht.sz
  · rw [if_pos h]
    exact iff_of_true ⟨_, rfl⟩ h
  · rw [if_neg h]
    exact iff_of_false (fun ⟨_, hc⟩ => absurd hc (by simp only [reduceCtorEq, not_false_eq_true])) h

/-- What a lookup returns is the data of the bucket it finds. -/
theorem lookupAt_lookup (ht : HashTable) (key : Int) (p : Nat) (h : lookupAt ht key = some p) :
    (ht.buckets p).key = key ∧ hopscotchLookup ht key = some (ht.buckets p).data := by
  unfold lookupAt at h
  cases hf : findFrom ht (ht.homeIdx key) key with
  | none => rw [hf] at h; exact absurd h (by simp only [reduceCtorEq, not_false_eq_true])
  | some r =>
      cases r with
      | none => rw [hf] at h; exact absurd h (by simp only [reduceCtorEq, not_false_eq_true])
      | some d =>
          simp only [hf, Option.some.injEq] at h
          rcases findFrom_sound ht _ key d hf with ⟨_, _, _, hkey⟩
          rw [hopscotchLookup, hf]
          simp only [h] at hkey ⊢
          exact ⟨hkey, trivial⟩

/-- A key stored in a hop-exact table is found within reach of its home. -/
theorem lookupAt_stored (ht : HashTable) (h : HopExact ht) (k : Int) (hs : Stored ht k) :
    ∃ p, lookupAt ht k = some p ∧ home k ≤ p ∧ p < home k + hopscotchHopinfoSize := by
  rcases (hopExact_iff ht).mp h with ⟨hE, hu⟩
  have hk : 0 ≤ k := by
    rcases hs with ⟨_, hk, _⟩
    exact hk
  rcases (stored_iff ht hE k).mp hs with ⟨v, p, hp⟩
  rcases findFrom_entry ht hu p k v hp with ⟨hf, hpos⟩
  rcases findFrom_sound ht _ k _ hf with ⟨h6, _, _, _⟩
  refine ⟨p, ?_, by omega, by omega⟩
  rw [lookupAt, homeIdx_eq ht k hk, hf]
  simp only [hpos]

/-- For every stored key of a hop-exact table, the window a GET reads contains
    the bucket of the key exactly when the window is inside the array. -/
theorem windowHolds_iff (ht : HashTable) (h : HopExact ht) (k : Int) (hs : Stored ht k) :
    WindowHolds ht k ↔ k + 5 < 2 ^ hopscotchInitBsizeExponent := by
  have hk : 0 ≤ k := by
    rcases hs with ⟨_, hk, _⟩
    exact hk
  have hsz : ht.sz = 2 ^ hopscotchInitBsizeExponent := by rw [HashTable.sz, h.exponent]
  have hread : (∃ window, clientRead ht k = some window) ↔
      k + 5 < 2 ^ hopscotchInitBsizeExponent := by
    rw [clientRead_isSome, hsz]
    simp only [hopscotchInitBsizeExponent]
    omega
  rw [WindowHolds, hread]
  constructor
  · intro hw
    exact hw.1
  · -- Inside the array the key is its own home, so window and reach are the same buckets.
    intro hlt
    rcases lookupAt_stored ht h k hs with ⟨p, hp, hle, hreach⟩
    refine ⟨hlt, p, hp, (mem_clientWindow k p).mpr ?_⟩
    simp only [home, hopscotchInitBsizeExponent, hopscotchHopinfoSize] at hle hreach hlt
    omega

/-- A GET whose window holds the key's bucket reads what the server's lookup
    returns. -/
theorem windowHolds_get (ht : HashTable) (key : Int) (h : WindowHolds ht key) :
    ∃ window, clientRead ht key = some window ∧
      ∃ b ∈ window, b.key = key ∧ hopscotchLookup ht key = some b.data := by
  rcases h with ⟨⟨window, hw⟩, p, hp, hmem⟩
  refine ⟨window, hw, ht.buckets p, ?_, lookupAt_lookup ht key p hp⟩
  unfold clientRead at hw
  by_cases hin : ∀ p ∈ clientWindow key, p < ht.sz
  · rw [if_pos hin, Option.some.injEq] at hw
    rw [← hw]
    exact List.mem_map.mpr ⟨p, hmem, rfl⟩
  · rw [if_neg hin] at hw
    exact absurd hw (by simp only [reduceCtorEq, not_false_eq_true])

theorem windowHolds_iff_oneKeyTable : Stored oneKeyTable 5 ∧ WindowHolds oneKeyTable 5 := by
  have hs : Stored oneKeyTable 5 := ⟨7, by decide, 5, by decide, rfl, rfl⟩
  exact ⟨hs, (windowHolds_iff oneKeyTable hopExact_oneKeyTable 5 hs).mpr (by decide)⟩

/-- Key 4194304 is accepted and stored in bucket 0. Its window starts one bucket
    past the end of the array. -/
theorem window_misses_bucket :
    ¬ ∀ ht ht' k d, HopExact ht → 0 ≤ k → ¬ Stored ht k →
      hopscotchInsert ht k d = some (ht', 0) → HopExact ht' → Stored ht' k → WindowHolds ht' k := by
  intro h
  -- The insert of the key whose home is bucket 0.
  rcases hopExact_insert emptyTable hopExact_emptyTable 4194304 7 (by decide)
    (not_stored_emptyTable _) with
    ⟨ht', r, hrun, _, hr⟩
  have hres : (hopscotchInsert emptyTable 4194304 7).map Prod.snd = some 0 := by decide +kernel
  rw [hrun, Option.map_some, Option.some.injEq] at hres
  simp only at hres
  rcases hr hres with ⟨hex, hh⟩
  have hs : Stored ht' 4194304 :=
    (stored_iff ht' ((hopExact_iff ht').mp hex).1 _).mpr ⟨_, (hh _ _).mpr (Or.inr ⟨rfl, rfl⟩)⟩
  have hw := h emptyTable ht' 4194304 7 hopExact_emptyTable (by decide) (not_stored_emptyTable _)
    (by rw [hrun, hres]) hex hs
  exact absurd ((windowHolds_iff ht' hex _ hs).mp hw) (by decide)

end FaRM

end LocalKeyValue
