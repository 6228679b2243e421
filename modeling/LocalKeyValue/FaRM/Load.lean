import LocalKeyValue.FaRM.Displace
import LocalKeyValue.Lib.Run

/-!
# Loading the FaRM Table

What the server's `main` does with its table before the first request: it
inserts every number below `2^22` under itself. The table has exactly as many
buckets, so each key is its own home. The insert of `n` finds the buckets below
`n` taken, `n` itself empty and within reach, and moves nothing.

`Loading n` is the state after `n` calls. It keeps what the later operations
depend on, the keys and the `hopinfo` words, and leaves the data free, so the
full table satisfies it through every run of updates. The words stay as
`hopscotch_init` makes them: all their bits are set, which `store` does not
change and which no displacement looks at here.

## Main definitions

* `mainLoad`: The load loop of `main`.
* `insertHops`: The number of entries an insert displaces.
* `Loading`, `Full`: The table after `n` calls, and after all of them.
* `updateStep`, `written`: A run of updates, and the value it leaves of a key.

## Theorems

* `loading_insert`: One call of the loop.
* `mainLoad_loading`: The loop after `n` calls.
* `full_update`, `full_lookup`: Update and lookup of a loaded key.
* `full_run_updates`: A run of updates.
* `main_stores_last_written`: The load and the updates after it.
-/

namespace LocalKeyValue

namespace FaRM

open Run

/-- The load loop of `main`, its first `n` calls with what they return. -/
def mainLoad : Nat → Option (HashTable × List Int)
  | 0 => some (hopscotchInit, [])
  | n + 1 =>
    match mainLoad n with
    | none => none
    | some (ht, rs) =>
      match hopscotchInsert ht n n with
      | none => none
      | some (ht', r) => some (ht', rs ++ [r])

/-- The number of hops the displacement from hole `i` makes. -/
def hopCount (idx : Nat) : Nat → HashTable → Nat → Nat
  | 0, _, _ => 0
  | fuel + 1, ht, i =>
    if i - idx < hopscotchHopinfoSize then 0
    else match donor ht i (hopscotchHopinfoSize - 1) 1 with
      | none => 0
      | some (j, off) => hopCount idx fuel (hop ht i j off) (i - j + off) + 1

/-- The number of entries an insert of the key displaces. -/
def insertHops (ht : HashTable) (key : Int) : Nat :=
  match firstEmpty ht (ht.sz - ht.homeIdx key) (ht.homeIdx key) with
  | none => 0
  | some i => hopCount (ht.homeIdx key) (i + 1) ht i

/-- The table after `n` calls of the load loop: the keys below `n` are each in
    the bucket of their own number. -/
structure Loading (n : Nat) (ht : HashTable) : Prop where
  exponent : ht.exponent = hopscotchInitBsizeExponent
  key : ∀ p, p < ht.sz → (ht.buckets p).key = if p < n then (p : Int) else -1
  hopinfo : ∀ p, p < ht.sz → (ht.buckets p).hopinfo = BitVec.allOnes 32

/-- The table after the load loop, whatever its data. -/
def Full (ht : HashTable) : Prop :=
  Loading (2 ^ hopscotchInitBsizeExponent) ht

/-- The keys the load loop inserts. -/
def InTable (k : Int) : Prop :=
  0 ≤ k ∧ k < 2 ^ hopscotchInitBsizeExponent

instance (k : Int) : Decidable (InTable k) :=
  inferInstanceAs (Decidable (_ ∧ _))

/-- A key the table is loaded with is its own home. -/
theorem homeIdx_inTable (ht : HashTable) (k : Int) (hk : InTable k) :
    ht.homeIdx k = k.toNat := by
  rw [homeIdx_eq ht k hk.1, home, Int.emod_eq_of_lt hk.1 hk.2]

theorem loading_sz (n : Nat) (ht : HashTable) (h : Loading n ht) :
    ht.sz = 2 ^ hopscotchInitBsizeExponent := by
  rw [HashTable.sz, h.exponent]

theorem inTable_natCast (n : Nat) (hn : n < 2 ^ hopscotchInitBsizeExponent) :
    InTable (n : Int) := by
  refine ⟨Int.natCast_nonneg n, ?_⟩
  simp only [hopscotchInitBsizeExponent] at hn ⊢
  omega

/-! ## The load loop -/

/-- A word with all its bits set stays so when a bit is set. -/
theorem setBit_allOnes (off : Nat) : setBit (BitVec.allOnes 32) off = BitVec.allOnes 32 := by
  rw [setBit, BitVec.allOnes_or]

/-- One call of the load loop stores the key in the bucket of its own number
    and moves nothing. -/
theorem loading_insert (n : Nat) (ht : HashTable) (h : Loading n ht)
    (hn : n < 2 ^ hopscotchInitBsizeExponent) (d : Int) :
    hopscotchInsert ht n d = some (store ht n n n d, 0) ∧ insertHops ht n = 0 ∧
      Loading (n + 1) (store ht n n n d) := by
  have hsz := loading_sz n ht h
  have hidx : ht.homeIdx n = n := by
    rw [homeIdx_inTable ht n (inTable_natCast n hn), Int.toNat_natCast]
  -- The probe stops where it starts.
  have hempty : firstEmpty ht (ht.sz - n) n = some n := by
    rw [show ht.sz - n = ht.sz - n - 1 + 1 by omega, firstEmpty, h.key n (by omega),
      if_neg (Nat.lt_irrefl n), if_pos rfl]
  have hreach : n - n < hopscotchHopinfoSize := by
    rw [Nat.sub_self]
    decide
  refine ⟨?_, ?_, ?_⟩
  · exact insert_stored ht n d n hidx ht n n hempty (by rw [displace, if_pos hreach])
  · rw [insertHops, hidx]
    simp only [hempty, hopCount, if_pos hreach]
  · refine ⟨h.exponent, fun p hp => ?_, fun p hp => ?_⟩
    · rw [store_key]
      by_cases hpn : p = n
      · rw [if_pos hpn, if_pos (by omega), hpn]
      · rw [if_neg hpn, h.key p hp]
        by_cases hlt : p < n
        · rw [if_pos hlt, if_pos (by omega)]
        · rw [if_neg hlt, if_neg (by omega)]
    · -- Only the home's word is written, and it had all its bits.
      rw [store, setHopinfo_hopinfo, setBucket_self]
      have hold : (ht.buckets p).hopinfo = BitVec.allOnes 32 := h.hopinfo p hp
      by_cases hpn : p = n
      · rw [hpn] at hold
        simp only [if_pos hpn, hold, setBit_allOnes]
      · rw [if_neg hpn, setBucket_other _ _ _ p hpn, hold]

/-- The loop after `n` calls: each has returned 0, and bucket `k` has key and
    data `k` for every `k` below `n`. -/
theorem mainLoad_loading : ∀ n : Nat, n ≤ 2 ^ hopscotchInitBsizeExponent →
    ∃ ht, mainLoad n = some (ht, List.replicate n 0) ∧ Loading n ht ∧
      ∀ k, k < n → (ht.buckets k).data = k := by
  intro n
  induction n with
  | zero =>
      intro _
      exact ⟨hopscotchInit, rfl, ⟨rfl, fun _ _ => rfl, fun _ _ => rfl⟩, fun k hk => by omega⟩
  | succ n ih =>
      intro hn
      rcases ih (by omega) with ⟨ht, hrun, hload, hdata⟩
      rcases loading_insert n ht hload (by omega) n with ⟨hins, _, hload'⟩
      refine ⟨store ht n n n n, ?_, hload', fun k hk => ?_⟩
      · rw [mainLoad, hrun]
        simp only [hins, List.replicate_succ']
      · rw [store_data]
        by_cases hkn : k = n
        · rw [if_pos hkn, hkn]
        · rw [if_neg hkn]
          exact hdata k (by omega)

/-! ## Updates of the full table -/

theorem full_key (ht : HashTable) (h : Full ht) (p : Nat) (hp : p < ht.sz) :
    (ht.buckets p).key = p := by
  rw [h.key p hp, if_pos (by rw [← loading_sz _ ht h]; exact hp)]

/-- The search for a loaded key stops at its home. -/
theorem full_findFrom (ht : HashTable) (h : Full ht) (k : Int) (hk : InTable k) :
    findFrom ht (ht.homeIdx k) k = some (some 0) := by
  have hsz := loading_sz _ ht h
  have hlt : k.toNat < ht.sz := by
    rcases hk with ⟨h0, h1⟩
    rw [hsz]
    simp only [hopscotchInitBsizeExponent] at h1 ⊢
    omega
  rw [homeIdx_inTable ht k hk]
  -- Bit 0 is set, so the first bucket the search looks at is the home.
  refine findFrom_hit ht k.toNat 0 k ?_ (by decide) hlt ?_ (fun b hb => by omega)
  · rw [bit, h.hopinfo _ hlt]
    rfl
  · rw [Nat.add_zero, full_key ht h _ hlt]
    exact Int.toNat_of_nonneg hk.1

/-- An update of a loaded key returns 1 and changes its bucket only. -/
theorem full_update (ht : HashTable) (h : Full ht) (k v : Int) (hk : InTable k) :
    hopscotchUpdate ht k v =
        some (ht.setBucket k.toNat (updated (ht.buckets k.toNat) v), 1) ∧
      Full (ht.setBucket k.toNat (updated (ht.buckets k.toNat) v)) := by
  constructor
  · rw [hopscotchUpdate, full_findFrom ht h k hk]
    simp only [homeIdx_inTable ht k hk, Nat.add_zero]
  · refine ⟨h.exponent, fun p hp => ?_, fun p hp => ?_⟩
    · rw [← h.key p hp]
      by_cases hpk : p = k.toNat
      · rw [hpk, setBucket_self]
        rfl
      · rw [setBucket_other ht _ _ p hpk]
    · rw [← h.hopinfo p hp]
      exact setBucket_hopinfo ht _ _ p rfl

/-- A lookup of a loaded key returns the data of its bucket. -/
theorem full_lookup (ht : HashTable) (h : Full ht) (k : Int) (hk : InTable k) :
    hopscotchLookup ht k = some (ht.buckets k.toNat).data := by
  rw [hopscotchLookup, full_findFrom ht h k hk]
  simp only [homeIdx_inTable ht k hk, Nat.add_zero]

/-- One call `hopscotch_update(ht, k, v)`. -/
def updateStep (ht : HashTable) (u : Int × Int) : Option HashTable :=
  (hopscotchUpdate ht u.1 u.2).map Prod.fst

/-- The value of the last update of `k`, or `v` if there is none. -/
def written (k : Int) (us : List (Int × Int)) (v : Int) : Int :=
  us.foldl (fun v u => if u.1 = k then u.2 else v) v

/-- A run of updates of loaded keys leaves each bucket with the last value
    written to it. -/
theorem full_run_updates : ∀ (us : List (Int × Int)) (ht : HashTable), Full ht →
    (∀ u ∈ us, InTable u.1) →
    ∃ ht', run updateStep us ht = some ht' ∧ Full ht' ∧
      ∀ k, InTable k → (ht'.buckets k.toNat).data = written k us (ht.buckets k.toNat).data := by
  intro us
  induction us with
  | nil => intro ht h _; exact ⟨ht, rfl, h, fun _ _ => rfl⟩
  | cons u us ih =>
      intro ht h hus
      have hu : InTable u.1 := hus u List.mem_cons_self
      rcases full_update ht h u.1 u.2 hu with ⟨hrun, hfull⟩
      rcases ih _ hfull (fun w hw => hus w (List.mem_cons_of_mem u hw)) with ⟨ht', hr, hf', hd⟩
      refine ⟨ht', ?_, hf', fun k hk => ?_⟩
      · rw [run_cons updateStep u us ht _ (by rw [updateStep, hrun]; rfl), hr]
      · rw [hd k hk, written, written, List.foldl_cons]
        by_cases huk : u.1 = k
        · rw [if_pos huk, ← huk, setBucket_self]
          rfl
        · -- Two loaded keys are in two buckets.
          have hne : k.toNat ≠ u.1.toNat := by
            have h1 := hk.1
            have h2 := hu.1
            omega
          rw [if_neg huk, setBucket_other ht _ _ _ hne]

/-- The server as `main` drives it. After `n` calls of the load loop each has
    returned 0, bucket `k` holds `k` under `k` for every `k` below `n`, the rest
    is empty and the next call will move nothing. After the whole loop every run
    of updates completes, a lookup returns the last value written, or else the
    key, and the next update returns 1 and changes one bucket. -/
theorem main_stores_last_written (n : Nat) (hn : n ≤ 2 ^ hopscotchInitBsizeExponent)
    (us : List (Int × Int)) (hus : ∀ u ∈ us, InTable u.1) :
    (∃ ht, mainLoad n = some (ht, List.replicate n 0) ∧
      (∀ k, k < n → (ht.buckets k).key = k ∧ (ht.buckets k).data = k) ∧
      (∀ p, n ≤ p → p < ht.sz → (ht.buckets p).key = -1) ∧
      (n < 2 ^ hopscotchInitBsizeExponent → insertHops ht n = 0)) ∧
    (∃ ht0 rs ht, mainLoad (2 ^ hopscotchInitBsizeExponent) = some (ht0, rs) ∧
      run updateStep us ht0 = some ht ∧
      (∀ k, InTable k → hopscotchLookup ht k = some (written k us k)) ∧
      ∀ k v, InTable k → ∃ ht', hopscotchUpdate ht k v = some (ht', 1) ∧
        ht'.buckets k.toNat = updated (ht.buckets k.toNat) v ∧
        ∀ p, p ≠ k.toNat → ht'.buckets p = ht.buckets p) := by
  constructor
  · rcases mainLoad_loading n hn with ⟨ht, hrun, hload, hdata⟩
    have hsz := loading_sz n ht hload
    refine ⟨ht, hrun, fun k hk => ⟨?_, hdata k hk⟩, fun p hp hsz => ?_, fun hlt => ?_⟩
    · rw [hload.key k (by omega), if_pos hk]
    · rw [hload.key p hsz, if_neg (by omega)]
    · exact (loading_insert n ht hload hlt n).2.1
  · rcases mainLoad_loading _ (Nat.le_refl _) with ⟨ht0, hrun0, hfull0, hdata0⟩
    rcases full_run_updates us ht0 hfull0 hus with ⟨ht, hrun, hfull, hdata⟩
    refine ⟨ht0, _, ht, hrun0, hrun, fun k hk => ?_, fun k v hk => ?_⟩
    · -- The load left each key as its own data.
      have h0 : (ht0.buckets k.toNat).data = k := by
        rcases hk with ⟨hk0, hk1⟩
        rw [hdata0 k.toNat (by simp only [hopscotchInitBsizeExponent] at hk1 ⊢; omega)]
        exact Int.toNat_of_nonneg hk0
      rw [full_lookup ht hfull k hk, hdata k hk, h0]
    · exact ⟨_, (full_update ht hfull k v hk).1, setBucket_self _ _ _,
        fun p hp => setBucket_other _ _ _ p hp⟩

theorem main_stores_last_written_twice :
    written 3 [(3, 30), (4, 40), (3, 31)] 3 = 31 ∧ written 5 [(3, 30), (4, 40), (3, 31)] 5 = 5 ∧
      ∃ ht0 rs ht, mainLoad (2 ^ hopscotchInitBsizeExponent) = some (ht0, rs) ∧
        run updateStep [(3, 30), (4, 40), (3, 31)] ht0 = some ht ∧
        hopscotchLookup ht 3 = some 31 ∧ hopscotchLookup ht 5 = some 5 := by
  rcases (main_stores_last_written 2 (by decide) [(3, 30), (4, 40), (3, 31)] (by decide)).2 with
    ⟨ht0, rs, ht, hload, hrun, hlook, _⟩
  exact ⟨rfl, rfl, ht0, rs, ht, hload, hrun, hlook 3 (by decide), hlook 5 (by decide)⟩

end FaRM

end LocalKeyValue
