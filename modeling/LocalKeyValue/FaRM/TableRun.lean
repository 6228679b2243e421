import LocalKeyValue.FaRM.HopExact
import LocalKeyValue.Lib.Run

/-!
# Runs of the FaRM Table

Sequences of inserts, updates and removes on one table, with a ledger of what
the callers have been told: a key enters the ledger when its insert returns 0,
takes the new data when an update returns 1, and leaves it on a remove. The
table serves its callers if it finds every key of the ledger with the ledger's
data.

From a hop-exact table it does. From the table `hopscotch_init` makes it does
not. `memset` with -1 sets every `hopinfo` bit of every bucket, so the first
displacement takes the entry just below the hole to belong to the home there,
whatever its home is, and moves it out of the reach of its own. Seven inserts
with one home are enough.

The same initial bits are harmless until something acts on them: the search
compares keys, and a false bit costs it a comparison. `trusted` says that a call
acts on no false bit, which for an insert is `insertTrusted` and for the
searching calls that an absent key is not looked for past the end of the array.
Runs of trusted calls keep the ledger from any table whose entries match it,
the initial one included.

## Main definitions

* `TableOp`, `tableStep`: The calls, and a call on table and ledger.
* `FindsAccepted`: The table finds every key of the ledger.
* `allowed`: The calls a client may make.
* `insertTrusted`, `trusted`: The calls that act on no false bit.
* `collidingInserts`: Seven inserts of keys with one home.

## Theorems

* `ledger_step`: A trusted call keeps the ledger's match with the entries.
* `init_run_loses_key`: A run from the initial table loses an accepted key.
* `init_run_finds_accepted`: A run of trusted calls from it does not.
* `exact_run_finds_accepted`: Nor does any run from a hop-exact table.
-/

namespace LocalKeyValue

namespace FaRM

open Run

/-- A call on the table. -/
inductive TableOp
  | insert (key data : Int)
  | update (key nval : Int)
  | remove (key : Int)
deriving DecidableEq

/-- What the callers have been told the table holds. -/
abbrev Ledger := Int → Option Int

/-- A call on the table, entered in the ledger by its result. -/
def tableStep (s : HashTable × Ledger) : TableOp → Option (HashTable × Ledger)
  | .insert key data =>
    match hopscotchInsert s.1 key data with
    | none => none
    | some (ht, r) => some (ht, if r = 0 then Function.update s.2 key (some data) else s.2)
  | .update key nval =>
    match hopscotchUpdate s.1 key nval with
    | none => none
    | some (ht, r) => some (ht, if r = 1 then Function.update s.2 key (some nval) else s.2)
  | .remove key =>
    match hopscotchRemove s.1 key with
    | none => none
    | some (ht, _) => some (ht, Function.update s.2 key none)

/-- Lookup and update find every key of the ledger, lookup with its data. -/
def FindsAccepted (s : HashTable × Ledger) : Prop :=
  ∀ k d, s.2 k = some d → hopscotchLookup s.1 k = some d ∧
    ∀ nval, ∃ ht, hopscotchUpdate s.1 k nval = some (ht, 1)

/-- The calls a client may make: on non-negative keys, and an insert only of a
    key that is not stored. -/
def allowed (s : HashTable × Ledger) : TableOp → Prop
  | .insert key _ => 0 ≤ key ∧ s.2 key = none
  | .update key _ => 0 ≤ key
  | .remove key => 0 ≤ key

instance (s : HashTable × Ledger) (op : TableOp) : Decidable (allowed s op) :=
  match op with
  | .insert key _ => inferInstanceAs (Decidable (0 ≤ key ∧ s.2 key = none))
  | .update key _ => inferInstanceAs (Decidable (0 ≤ key))
  | .remove key => inferInstanceAs (Decidable (0 ≤ key))

/-! ## Trusted calls -/

/-- Every bit the displacement from hole `i` follows is true. -/
def hopsTrusted (idx : Nat) : Nat → HashTable → Nat → Bool
  | 0, _, _ => true
  | fuel + 1, ht, i =>
    if i - idx < hopscotchHopinfoSize then true
    else match donor ht i (hopscotchHopinfoSize - 1) 1 with
      | none => true
      | some (j, off) =>
        decide (TrueBit ht (i - j) off) && hopsTrusted idx fuel (hop ht i j off) (i - j + off)

/-- Every bit the displacement of an insert of `key` would follow is true. -/
def insertTrusted (ht : HashTable) (key : Int) : Bool :=
  match firstEmpty ht (ht.sz - home key) (home key) with
  | none => true
  | some i => hopsTrusted (home key) (i + 1) ht i

theorem hopInvariant_hopsTrusted (idx : Nat) :
    HopInvariant idx (fun fuel t q => hopsTrusted idx fuel t q = true) := by
  -- The check made of one hop and of those after it.
  have hunfold : ∀ fuel t q j off, hopsTrusted idx (fuel + 1) t q = true →
      hopscotchHopinfoSize ≤ q - idx →
      donor t q (hopscotchHopinfoSize - 1) 1 = some (j, off) →
      TrueBit t (q - j) off ∧ hopsTrusted idx fuel (hop t q j off) (q - j + off) = true := by
    intro fuel t q j off h h6 hd
    rw [hopsTrusted, if_neg (by omega), hd] at h
    simp only [Bool.and_eq_true, decide_eq_true_eq] at h
    exact h
  exact ⟨fun fuel t q j off h h6 hd => (hunfold fuel t q j off h h6 hd).1,
    fun fuel t q j off h _ h6 hd => (hunfold fuel t q j off h h6 hd).2⟩

/-- The call acts on no false bit. -/
def trusted (s : HashTable × Ledger) : TableOp → Prop
  | .insert key _ => insertTrusted s.1 key = true
  | .update key _ => s.2 key ≠ none ∨ searchInside s.1 key = true
  | .remove key => s.2 key ≠ none ∨ searchInside s.1 key = true

instance (s : HashTable × Ledger) (op : TableOp) : Decidable (trusted s op) :=
  match op with
  | .insert key _ => inferInstanceAs (Decidable (insertTrusted s.1 key = true))
  | .update key _ => inferInstanceAs (Decidable (s.2 key ≠ none ∨ searchInside s.1 key = true))
  | .remove key => inferInstanceAs (Decidable (s.2 key ≠ none ∨ searchInside s.1 key = true))

/-! ## The ledger invariant -/

/-- The table's entries, with their data alone. -/
def dataCells (ht : HashTable) : Nat → Option (Int × Int) :=
  Cells.mapValues Payload.data (entries ht)

/-- The entries hold exactly what the ledger says, each key once. -/
structure Honest (s : HashTable × Ledger) : Prop where
  unique : Cells.KeysUnique (entries s.1)
  ledger : Cells.Represents (dataCells s.1) s.2

/-- A table without entries matches the empty ledger. -/
theorem honest_of_no_entries (ht : HashTable) (h : ∀ p, entries ht p = none) :
    Honest (ht, fun _ => none) := by
  refine ⟨fun p q k v w hp => ?_, fun k d => ⟨?_, fun hc => ?_⟩⟩
  · rw [h] at hp
    exact absurd hp (by simp only [reduceCtorEq, not_false_eq_true])
  · intro hh
    rcases hh with ⟨p, hp⟩
    rw [dataCells, Cells.mapValues, h] at hp
    exact absurd hp (by simp only [Option.map_none, reduceCtorEq, not_false_eq_true])
  · exact absurd hc (by simp only [reduceCtorEq, not_false_eq_true])

theorem honest_absent (s : HashTable × Ledger) (h : Honest s) (k : Int) (hk : s.2 k = none) :
    ¬ Cells.Present (entries s.1) k := by
  intro hp
  rcases hp with ⟨v, hv⟩
  have := (h.ledger k v.data).mp ((Cells.holds_mapValues _ _ _ _).mpr ⟨v, hv, rfl⟩)
  rw [hk] at this
  exact absurd this (by simp only [reduceCtorEq, not_false_eq_true])

theorem honest_entry (s : HashTable × Ledger) (h : Honest s) (k d : Int) (hk : s.2 k = some d) :
    ∃ p v, entries s.1 p = some (k, v) ∧ v.data = d := by
  rcases (Cells.holds_mapValues _ _ _ _).mp ((h.ledger k d).mpr hk) with ⟨v, ⟨p, hp⟩, hv⟩
  exact ⟨p, v, hp, hv⟩

/-- An honest table finds what it accepted. -/
theorem findsAccepted_of_honest (s : HashTable × Ledger) (h : Honest s) : FindsAccepted s := by
  intro k d hk
  rcases honest_entry s h k d hk with ⟨p, v, hp, hv⟩
  refine ⟨by rw [lookup_entry s.1 h.unique p k v hp, hv], fun nval => ?_⟩
  exact ⟨_, update_entry s.1 h.unique p k v nval hp⟩

theorem honest_update (s : HashTable × Ledger) (h : Honest s) (p : Nat) (k : Int) (v : Payload)
    (nval : Int) (hp : entries s.1 p = some (k, v)) :
    Honest (s.1.setBucket p (updated (s.1.buckets p) nval),
      Function.update s.2 k (some nval)) := by
  rcases (entries_eq_some s.1 p k v).mp hp with ⟨hm, hkey, _⟩
  have hent := entries_updated s.1 p nval hm
  rw [hkey] at hent
  constructor
  · rw [hent]
    exact Cells.keysUnique_set _ h.unique p k v _ hp
  · rw [dataCells, hent, Cells.mapValues_update]
    exact Cells.represents_set _ (Cells.keysUnique_mapValues _ _ h.unique) s.2 h.ledger p k v.data
      nval ((Cells.mapValues_eq_some _ _ _ _ _).mpr ⟨v, hp, rfl⟩)

theorem honest_remove (s : HashTable × Ledger) (h : Honest s) (p : Nat) (k : Int) (v : Payload)
    (ht : HashTable) (hp : entries s.1 p = some (k, v))
    (hent : entries ht = Function.update (entries s.1) p none) :
    Honest (ht, Function.update s.2 k none) := by
  constructor
  · rw [hent]
    exact Cells.keysUnique_clear _ h.unique p
  · rw [dataCells, hent, Cells.mapValues_update]
    exact Cells.represents_clear _ (Cells.keysUnique_mapValues _ _ h.unique) s.2 h.ledger p k
      v.data ((Cells.mapValues_eq_some _ _ _ _ _).mpr ⟨v, hp, rfl⟩)

/-- An insert whose displacement follows true bits. Besides keeping the ledger
    it says where it left the displacement's invariant. -/
theorem honest_insert (s : HashTable × Ledger) (h : Honest s) (key data : Int)
    (J : Nat → HashTable → Nat → Prop) (hJ : HopInvariant (home key) J) (hk : 0 ≤ key)
    (habs : s.2 key = none)
    (h0 : ∀ i, firstEmpty s.1 (s.1.sz - home key) (home key) = some i → J (i + 1) s.1 i) :
    ∃ s', tableStep s (.insert key data) = some s' ∧ Honest s' ∧
      (s'.1 = s.1 ∨ (∃ fuel i, J fuel s'.1 i) ∨
        ∃ ht1 i, s'.1 = store ht1 (home key) i key data ∧ home key ≤ i ∧
          i - home key < hopscotchHopinfoSize ∧ i < ht1.sz ∧ entries ht1 i = none ∧
          ∃ fuel, J fuel ht1 i) := by
  -- Moves leave the ledger the match it had.
  have hrep : ∀ ht1, (∀ k v, Cells.Holds (entries ht1) k v ↔ Cells.Holds (entries s.1) k v) →
      Cells.Represents (dataCells ht1) s.2 := by
    intro ht1 hh
    refine Cells.represents_congr _ _ _ (fun k d => ?_) h.ledger
    simp only [dataCells, Cells.holds_mapValues, hh]
  rcases insert_moves s.1 key data J hJ hk h.unique (honest_absent s h key habs) h0 with
    ⟨ht1, hh, hu1, _, ⟨hrun, hend⟩ | ⟨i, hrun, hle, h6, hsz, hn, hJ1, hst, hu'⟩⟩
  · -- A failed insert may have moved entries, and the ledger is not written.
    refine ⟨(ht1, s.2), by simp only [tableStep, hrun]; rfl, ⟨hu1, hrep ht1 hh⟩, ?_⟩
    rcases hend with heq | ⟨fuel, i, hJ1, _⟩
    · exact Or.inl heq
    · exact Or.inr (Or.inl ⟨fuel, i, hJ1⟩)
  · refine ⟨(store ht1 (home key) i key data, Function.update s.2 key (some data)),
      by simp only [tableStep, hrun, if_true], ⟨hu', ?_⟩,
      Or.inr (Or.inr ⟨ht1, i, rfl, hle, h6, hsz, hn, hJ1⟩)⟩
    rw [dataCells, hst, Cells.mapValues_update]
    exact Cells.represents_put _ s.2 (hrep ht1 hh) i key data
      (by rw [dataCells, Cells.mapValues, hn]; rfl) habs

/-- Calls other than inserts, when an absent key's search stays inside the
    array. They keep an exact table exact. -/
theorem honest_search (s : HashTable × Ledger) (h : Honest s) (op : TableOp)
    (hins : ∀ key data, op ≠ .insert key data) (hok : allowed s op) (htr : trusted s op) :
    ∃ s', tableStep s op = some s' ∧ Honest s' ∧ ∀ E, Exact s.1 E → Exact s'.1 E := by
  cases op with
  | insert key data => exact absurd rfl (hins key data)
  | update key nval =>
      cases hk : s.2 key with
      | none =>
          have hin : searchInside s.1 key = true := htr.resolve_left (fun hc => hc hk)
          have hrun := update_miss s.1 key nval hok (honest_absent s h key hk) hin
          exact ⟨s, by simp only [tableStep, hrun]; rfl, h, fun _ hE => hE⟩
      | some d =>
          rcases honest_entry s h key d hk with ⟨p, v, hp, _⟩
          have hrun := update_entry s.1 h.unique p key v nval hp
          exact ⟨_, by simp only [tableStep, hrun, if_true], honest_update s h p key v nval hp,
            fun E hE => exact_updated s.1 p nval E hE⟩
  | remove key =>
      cases hk : s.2 key with
      | none =>
          have hin : searchInside s.1 key = true := htr.resolve_left (fun hc => hc hk)
          rcases remove_miss s.1 key hok (honest_absent s h key hk) hin with ⟨r, hrun⟩
          -- Neither the table nor the ledger had the key.
          have hsame : Function.update s.2 key none = s.2 := by
            rw [← hk, Function.update_eq_self]
          exact ⟨s, by simp only [tableStep, hrun, hsame], h, fun _ hE => hE⟩
      | some d =>
          rcases honest_entry s h key d hk with ⟨p, v, hp, _⟩
          rcases remove_entry s.1 h.unique p key v hp with ⟨hrun, hent⟩
          rcases findFrom_entry s.1 h.unique p key v hp with ⟨hf, hpos⟩
          rcases findFrom_sound s.1 (home key) key _ hf with ⟨h6, _, _, hkey⟩
          exact ⟨_, by simp only [tableStep, hrun], honest_remove s h p key v _ hp hent,
            fun E hE => exact_removed s.1 (home key) _ E hE h6 (by rw [hkey])⟩

/-- A trusted call keeps the ledger's match with the entries. -/
theorem ledger_step (s : HashTable × Ledger) (h : Honest s) (op : TableOp) (hok : allowed s op)
    (htr : trusted s op) : ∃ s', tableStep s op = some s' ∧ Honest s' := by
  cases op with
  | insert key data =>
      have hstart : ∀ i, firstEmpty s.1 (s.1.sz - home key) (home key) = some i →
          hopsTrusted (home key) (i + 1) s.1 i = true := by
        intro i hi
        have htr' : insertTrusted s.1 key = true := htr
        rwa [insertTrusted, hi] at htr'
      rcases honest_insert s h key data _ (hopInvariant_hopsTrusted (home key)) hok.1 hok.2 hstart
        with ⟨s', hrun, hs', _⟩
      exact ⟨s', hrun, hs'⟩
  | update key nval =>
      rcases honest_search s h _ (fun _ _ hc => by cases hc) hok htr with ⟨s', hrun, hs', _⟩
      exact ⟨s', hrun, hs'⟩
  | remove key =>
      rcases honest_search s h _ (fun _ _ hc => by cases hc) hok htr with ⟨s', hrun, hs', _⟩
      exact ⟨s', hrun, hs'⟩

/-! ## Runs from a hop-exact table -/

/-- The ledger matches the entries, and every bit is true. A failed insert can
    leave a stale key behind, so some buckets may stay exempt. -/
def ExactHonest (s : HashTable × Ledger) : Prop :=
  Honest s ∧ ∃ E, Exact s.1 E

theorem exactHonest_step (s : HashTable × Ledger) (h : ExactHonest s) (op : TableOp)
    (hok : allowed s op) : ∃ s', tableStep s op = some s' ∧ ExactHonest s' := by
  rcases h with ⟨hs, E, hE⟩
  cases op with
  | insert key data =>
      rcases honest_insert s hs key data _ (hopInvariant_exact (home key) E) hok.1 hok.2
        (exactHole_start s.1 E hE (home key)) with ⟨s', hrun, hs', hend⟩
      refine ⟨s', hrun, hs', ?_⟩
      -- No empty bucket, a failure after some hops with one more bucket exempt, or a store.
      rcases hend with heq | ⟨_, i, _, _, hE1⟩ | ⟨ht1, i, heq, hle, h6, hsz, hn, _, _, _, hE1⟩
      · exact ⟨E, by rw [heq]; exact hE⟩
      · exact ⟨_, hE1⟩
      · exact ⟨E, by rw [heq]; exact exact_store ht1 i key data E hE1 hok.1 hle h6 hsz hn⟩
  | update key nval =>
      rcases honest_search s hs _ (fun _ _ hc => by cases hc) hok
        (Or.inr (searchInside_of_exact s.1 E hE key hok)) with ⟨s', hrun, hs', hE'⟩
      exact ⟨s', hrun, hs', E, hE' E hE⟩
  | remove key =>
      rcases honest_search s hs _ (fun _ _ hc => by cases hc) hok
        (Or.inr (searchInside_of_exact s.1 E hE key hok)) with ⟨s', hrun, hs', hE'⟩
      exact ⟨s', hrun, hs', E, hE' E hE⟩

/-- Any run of allowed calls from a hop-exact table completes, and the table
    finds every key it accepted. -/
theorem exact_run_finds_accepted (ht : HashTable) (m : Ledger) (h : HopExact ht)
    (hm : ∀ k d, m k = some d ↔ Stores ht k d) (ops : List TableOp)
    (hok : Along tableStep allowed ops (ht, m)) :
    ∃ s, run tableStep ops (ht, m) = some s ∧ FindsAccepted s := by
  rcases (hopExact_iff ht).mp h with ⟨hE, hu⟩
  have h0 : ExactHonest (ht, m) := by
    refine ⟨⟨hu, fun k d => ?_⟩, _, hE⟩
    rw [hm, stores_iff ht hE, dataCells, Cells.holds_mapValues]
  rcases run_of_along tableStep allowed ExactHonest (fun s op hs ho => exactHonest_step s hs op ho)
    ops (ht, m) h0 hok with ⟨s, hrun, hs⟩
  exact ⟨s, hrun, findsAccepted_of_honest s hs.1⟩

/-! ## Runs from the initial table -/

/-- The server's table and an empty ledger. -/
def initState : HashTable × Ledger :=
  (hopscotchInit, fun _ => none)

/-- The initial table has no entry, every key being -1. -/
theorem honest_initState : Honest initState :=
  honest_of_no_entries hopscotchInit (fun p => entries_of_empty hopscotchInit p rfl)

/-- A run of trusted calls from the initial table completes, and the table
    finds every key it accepted. -/
theorem init_run_finds_accepted (ops : List TableOp)
    (h : Along tableStep (fun s op => allowed s op ∧ trusted s op) ops initState) :
    ∃ s, run tableStep ops initState = some s ∧ FindsAccepted s := by
  rcases run_of_along tableStep (fun s op => allowed s op ∧ trusted s op) Honest
    (fun s op hs hok => ledger_step s hs op hok.1 hok.2) ops initState honest_initState h with
    ⟨s, hrun, hs⟩
  exact ⟨s, hrun, findsAccepted_of_honest s hs⟩

/-- Fill the reach of home 0 with its own bucket's key and five others at their
    homes, then insert a second key of home 0. The displacement moves key 5 on
    from its own home, along a true bit. -/
theorem init_run_finds_accepted_displaced :
    ∃ s, run tableStep [.insert 0 10, .insert 1 11, .insert 2 12, .insert 3 13, .insert 4 14,
      .insert 5 15, .insert 4194304 16, .update 5 25, .remove 1] initState = some s ∧
      FindsAccepted s :=
  init_run_finds_accepted _ (by decide +kernel)

/-- Seven inserts of keys with home 0. -/
def collidingInserts : List TableOp :=
  [.insert 0 0, .insert 4194304 1, .insert 8388608 2, .insert 12582912 3, .insert 16777216 4,
    .insert 20971520 5, .insert 25165824 6]

/-- The seventh insert displaces the sixth key, by the bit of bucket 5, out of
    the reach of home 0. All seven were accepted. -/
theorem init_run_loses_key :
    ¬ ∀ ops s, Along tableStep allowed ops initState → run tableStep ops initState = some s →
      FindsAccepted s := by
  intro h
  -- The ledger has the sixth key with its data, and lookup returns 0 for it.
  have hres : (run tableStep collidingInserts initState).map
      (fun s => (s.2 20971520, hopscotchLookup s.1 20971520)) = some (some 5, some 0) := by
    decide +kernel
  rcases Option.map_eq_some_iff.mp hres with ⟨s, hrun, hs⟩
  rw [Prod.mk.injEq] at hs
  have hfound := (h collidingInserts s (by decide +kernel) hrun 20971520 5 hs.1).1
  rw [hs.2, Option.some.injEq] at hfound
  exact absurd hfound (by decide)

end FaRM

end LocalKeyValue
