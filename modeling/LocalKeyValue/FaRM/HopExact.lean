import LocalKeyValue.FaRM.Displace

/-!
# The Hopscotch Table as a Finite Map

The invariant under which the hopscotch table is a finite map, and that the
operations keep it. In a hop-exact table a bit of `hopinfo` is set exactly when
the bucket it names holds a key of that home, so the bits the displacement
follows are true and every key is where the search looks.

The insert breaks the invariant on the way. After a hop the bucket the entry
came from still holds its key, which no bit names any more: the table has a
stale second copy of a key in the hole. `Exact` is the invariant with a set of
buckets exempt from being marked, and the loop invariant is `Exact` with the
hole exempt. The store at the end overwrites the hole, and the exemption goes.

## Main definitions

* `HopExact`: The invariant of a table at rest.
* `Stores`: The table's map.
* `Exact`: The invariant with some buckets exempt.
* `Vacant`: A table with no keys and no bits.
* `emptyTable`: The one of them that the examples start from.
* `filledTable`: The empty table with its first buckets filled.

## Theorems

* `hopExact_iff`: Hop-exactness is `Exact` with no exemption and unique keys.
* `exact_hop`, `exact_store`, `exact_removed`, `exact_updated`: The four
  effects keep the invariant.
* `stores_iff`: The map is what the entries hold.
* `stores_insert`, `stores_remove`: What one entry more or less does to the map.
* `hopExact_store`: Storing a new key in an empty bucket.
* `exact_of_vacant`: A table with no keys is exact.
* `filledTable_spec`: A table filled from the start is hop-exact.
* `hopExact_insert`, `hopExact_update`, `hopExact_remove`: The operations on a
  hop-exact table.
* `hopExact_simulates_map`: The three together.
-/

namespace LocalKeyValue

namespace FaRM

/-- The invariant of a table at rest. -/
structure HopExact (ht : HashTable) : Prop where
  exponent : ht.exponent = hopscotchInitBsizeExponent
  keys : ∀ p, p < ht.sz → (ht.buckets p).key = -1 ∨ 0 ≤ (ht.buckets p).key
  unique : ∀ p q, p < ht.sz → q < ht.sz → 0 ≤ (ht.buckets p).key →
    (ht.buckets p).key = (ht.buckets q).key → p = q
  bits : ∀ h b, h < ht.sz → (bit ht h b = true ↔ b < hopscotchHopinfoSize ∧ h + b < ht.sz ∧
    0 ≤ (ht.buckets (h + b)).key ∧ home (ht.buckets (h + b)).key = h)
  near : ∀ p, p < ht.sz → 0 ≤ (ht.buckets p).key →
    ∃ b, b < hopscotchHopinfoSize ∧ p = home (ht.buckets p).key + b

/-- Some bucket holds the key with the data. -/
def Stores (ht : HashTable) (k d : Int) : Prop :=
  0 ≤ k ∧ ∃ p, p < ht.sz ∧ (ht.buckets p).key = k ∧ (ht.buckets p).data = d

/-- Some bucket holds the key. -/
def Stored (ht : HashTable) (k : Int) : Prop :=
  ∃ d, Stores ht k d

/-- Hop-exactness but for uniqueness, with some buckets exempt from being
    marked. -/
structure Exact (ht : HashTable) (exempt : Nat → Prop) : Prop where
  exponent : ht.exponent = hopscotchInitBsizeExponent
  keys : ∀ p, p < ht.sz → (ht.buckets p).key = -1 ∨ 0 ≤ (ht.buckets p).key
  bits : ∀ h b, h < ht.sz → bit ht h b = true →
    b < hopscotchHopinfoSize ∧ h + b < ht.sz ∧ TrueBit ht h b
  marked : ∀ p, p < ht.sz → ¬ exempt p → 0 ≤ (ht.buckets p).key → Marked ht p

theorem home_lt_sz (ht : HashTable) (hexp : ht.exponent = hopscotchInitBsizeExponent) (k : Int) :
    home k < ht.sz := by
  rw [HashTable.sz, hexp]
  exact home_lt k

/-- Hop-exactness is exactness with no exemption, and unique entries. -/
theorem hopExact_iff (ht : HashTable) :
    HopExact ht ↔ Exact ht (fun _ => False) ∧ Cells.KeysUnique (entries ht) := by
  constructor
  · intro h
    refine ⟨⟨h.exponent, h.keys, fun a b ha hb => ?_, fun p hp _ hk => ?_⟩, ?_⟩
    · rcases (h.bits a b ha).mp hb with ⟨h6, hsz, htrue⟩
      exact ⟨h6, hsz, htrue⟩
    · rcases h.near p hp hk with ⟨b, h6, hpb⟩
      -- The bucket is near its home, so the home has a bit for it, and it is set.
      have hbit : bit ht (home (ht.buckets p).key) b = true :=
        (h.bits _ b (home_lt_sz ht h.exponent _)).mpr
          ⟨h6, by omega, by rw [← hpb]; exact hk, by rw [← hpb]⟩
      have hsub : p - home (ht.buckets p).key = b := by omega
      exact ⟨hp, hk, by omega, by omega, by rw [hsub]; exact hbit⟩
    · intro p q k v w hp hq
      rcases (entries_eq_some ht p k v).mp hp with ⟨hmp, hkp, _⟩
      rcases (entries_eq_some ht q k w).mp hq with ⟨hmq, hkq, _⟩
      exact h.unique p q hmp.1 hmq.1 hmp.2.1 (by rw [hkp, hkq])
  · intro h
    rcases h with ⟨h, hu⟩
    refine ⟨h.exponent, h.keys, fun p q hp hq hk hpq => ?_, fun a b ha => ⟨?_, ?_⟩,
      fun p hp hk => ?_⟩
    · -- Two buckets with the key are both entries, and the entries are unique.
      have hmp := h.marked p hp not_false hk
      have hmq := h.marked q hq not_false (by rw [← hpq]; exact hk)
      refine hu p q _ _ (payload (ht.buckets q)) (entries_of_marked ht p hmp) ?_
      rw [entries_of_marked ht q hmq, hpq]
    · intro hb
      rcases h.bits a b ha hb with ⟨h6, hsz, h0, hh⟩
      exact ⟨h6, hsz, h0, hh⟩
    · intro h
      rcases h with ⟨h6, hsz, h0, hh⟩
      have hm := h.marked (a + b) hsz not_false h0
      have hbit := hm.2.2.2.2
      rw [hh, Nat.add_sub_cancel_left] at hbit
      exact hbit
    · have hm := h.marked p hp not_false hk
      exact ⟨p - home (ht.buckets p).key, hm.2.2.2.1, by have := hm.2.2.1; omega⟩

/-! ## The effects keep exactness -/

theorem marked_iff (ht : HashTable) (p : Nat) : Marked ht p ↔ entries ht p ≠ none := by
  rw [Ne, entries_eq_none, Classical.not_not]

/-- A set bit of an exact table names an entry. -/
theorem marked_of_exact_bit (ht : HashTable) (exempt : Nat → Prop) (h : Exact ht exempt)
    (a b : Nat) (ha : a < ht.sz) (hb : bit ht a b = true) : Marked ht (a + b) := by
  rcases h.bits a b ha hb with ⟨h6, hsz, h0, hh⟩
  exact marked_of_bit ht a b _ h0 hh hb h6 hsz rfl

/-- A hop moves the exemption with the hole. -/
theorem exact_hop (ht : HashTable) (i j off : Nat) (E : Nat → Prop)
    (h : Exact ht (fun p => p = i ∨ E p))
    (hj1 : 1 ≤ j) (hj : j < hopscotchHopinfoSize) (hji : j ≤ i) (hoff : off < j) (hsz : i < ht.sz)
    (hbit : bit ht (i - j) off = true) (hhole : entries ht i = none) :
    Exact (hop ht i j off) (fun p => p = i - j + off ∨ E p) := by
  have htrue : TrueBit ht (i - j) off := (h.bits (i - j) off (by omega) hbit).2.2
  have hmove := entries_hop ht i j off hj1 hj hji hoff hsz hbit htrue
  refine ⟨h.exponent, fun p hp => ?_, fun a b ha hb => ?_, fun p hp hpe hk => ?_⟩
  · rw [hop_key]
    by_cases hpi : p = i
    · rw [if_pos hpi]
      exact Or.inr htrue.1
    · rw [if_neg hpi]
      exact h.keys p hp
  · rw [hop_bit ht i j off a b hj hoff] at hb
    by_cases hab : a = i - j ∧ b = j
    · -- The bit the hop sets.
      rcases hab with ⟨rfl, rfl⟩
      have hpos : i - b + b = i := by omega
      refine ⟨hj, by rw [hpos]; exact hsz, ?_⟩
      simp only [TrueBit, hpos, hop_key, if_true]
      exact htrue
    · -- A bit that was set before, and does not name the hole.
      have hold : bit ht a b = true := by
        by_cases haj : a = i - j
        · rw [if_pos haj] at hb
          have hbj : b ≠ j := fun hc => hab ⟨haj, hc⟩
          simp only [hbj, decide_false, Bool.or_false, Bool.and_eq_true] at hb
          exact hb.1
        · rwa [if_neg haj] at hb
      have hne : a + b ≠ i := by
        intro hc
        have := marked_of_exact_bit ht _ h a b ha hold
        rw [hc, marked_iff] at this
        exact this hhole
      rcases h.bits a b ha hold with ⟨h6, hs, ht0⟩
      refine ⟨h6, hs, ?_⟩
      simp only [TrueBit, hop_key, if_neg hne]
      exact ht0
  · -- Only the bucket the entry came from keeps a key no bit names.
    rw [marked_iff, hmove, Cells.move, Function.update_of_ne (fun hc => hpe (Or.inl hc))]
    by_cases hpi : p = i
    · rw [hpi, Function.update_self, ← marked_iff]
      exact marked_of_exact_bit ht _ h (i - j) off (by omega) hbit
    · rw [Function.update_of_ne hpi, ← marked_iff]
      rw [hop_key, if_neg hpi] at hk
      exact h.marked p hp (fun hc => hc.elim hpi (fun he => hpe (Or.inr he))) hk

/-- The store at the end of an insert overwrites the exempt bucket. -/
theorem exact_store (ht : HashTable) (i : Nat) (key data : Int) (E : Nat → Prop)
    (h : Exact ht (fun p => p = i ∨ E p)) (hk : 0 ≤ key) (hle : home key ≤ i)
    (h6 : i - home key < hopscotchHopinfoSize) (hsz : i < ht.sz) (hhole : entries ht i = none) :
    Exact (store ht (home key) i key data) E := by
  have hst := entries_store ht (home key) i key data hk rfl hle h6 hsz
  refine ⟨h.exponent, fun p hp => ?_, fun a b ha hb => ?_, fun p hp hpe hkp => ?_⟩
  · rw [store_key]
    by_cases hpi : p = i
    · rw [if_pos hpi]
      exact Or.inr hk
    · rw [if_neg hpi]
      exact h.keys p hp
  · rw [store_bit ht _ i key data a b h6, Bool.or_eq_true, decide_eq_true_eq] at hb
    rcases hb with hold | ⟨rfl, rfl⟩
    · -- A bit that was set names an entry, and the hole is none.
      have hne : a + b ≠ i := by
        intro hc
        have := marked_of_exact_bit ht _ h a b ha hold
        rw [hc, marked_iff] at this
        exact this hhole
      rcases h.bits a b ha hold with ⟨hb6, hs, ht0⟩
      refine ⟨hb6, hs, ?_⟩
      simp only [TrueBit, store_key, if_neg hne]
      exact ht0
    · have hpos : home key + (i - home key) = i := by omega
      refine ⟨h6, by rw [hpos]; exact hsz, ?_⟩
      simp only [TrueBit, hpos, store_key, if_true]
      exact ⟨hk, trivial⟩
  · rw [marked_iff, hst]
    by_cases hpi : p = i
    · rw [hpi, Function.update_self]
      exact Option.some_ne_none _
    · rw [Function.update_of_ne hpi, ← marked_iff]
      rw [store_key, if_neg hpi] at hkp
      exact h.marked p hp (fun hc => hc.elim hpi hpe) hkp

/-- A remove clears the one bit that named the bucket it empties. -/
theorem exact_removed (ht : HashTable) (idx d : Nat) (E : Nat → Prop) (h : Exact ht E)
    (hd : d < hopscotchHopinfoSize) (hhome : home (ht.buckets (idx + d)).key = idx) :
    Exact (removed ht idx d) E := by
  have hent := entries_removed ht idx d hd
  refine ⟨h.exponent, fun p hp => ?_, fun a b ha hb => ?_, fun p hp hpe hk => ?_⟩
  · by_cases hpd : p = idx + d
    · rw [hpd, removed_key_self]
      exact Or.inl rfl
    · rw [(removed_other ht idx d p hpd).1]
      exact h.keys p hp
  · rw [removed_bit ht idx d a b (by simp only [hopscotchHopinfoSize] at hd; omega),
      Bool.and_eq_true, Bool.not_eq_true', decide_eq_false_iff_not] at hb
    rcases h.bits a b ha hb.1 with ⟨h6, hs, ht0⟩
    -- A true bit that names the bucket is in its key's home, so it is the one cleared.
    have hne : a + b ≠ idx + d := by
      intro hc
      have hai : a = idx := by rw [← ht0.2, hc, hhome]
      exact hb.2 ⟨hai, by omega⟩
    refine ⟨h6, hs, ?_⟩
    simp only [TrueBit, (removed_other ht idx d _ hne).1]
    exact ht0
  · have hpd : p ≠ idx + d := by
      intro hc
      rw [hc, removed_key_self] at hk
      omega
    rw [marked_iff, hent, Function.update_of_ne hpd, ← marked_iff]
    rw [(removed_other ht idx d p hpd).1] at hk
    exact h.marked p hp hpe hk

/-- An update touches neither keys nor bits. -/
theorem exact_updated (ht : HashTable) (p : Nat) (nval : Int) (E : Nat → Prop) (h : Exact ht E) :
    Exact (ht.setBucket p (updated (ht.buckets p) nval)) E := by
  have hkey : ∀ q, ((ht.setBucket p (updated (ht.buckets p) nval)).buckets q).key
      = (ht.buckets q).key := by
    intro q
    by_cases hq : q = p
    · rw [hq, setBucket_self]
      rfl
    · rw [setBucket_other ht p _ q hq]
  have hbit := bit_setBucket ht p (updated (ht.buckets p) nval) rfl
  refine ⟨h.exponent, fun q hq => ?_, fun a b ha hb => ?_, fun q hq hqe hk => ?_⟩
  · rw [hkey]
    exact h.keys q hq
  · rw [hbit] at hb
    simp only [TrueBit, hkey, setBucket_sz]
    exact h.bits a b ha hb
  · rw [hkey] at hk
    simp only [Marked, hkey, hbit, setBucket_sz]
    exact h.marked q hq hqe hk

/-! ## The operations on a hop-exact table -/

/-- The map of an exact table is what its entries hold. -/
theorem stores_iff (ht : HashTable) (h : Exact ht (fun _ => False)) (k d : Int) :
    Stores ht k d ↔ ∃ v, Cells.Holds (entries ht) k v ∧ v.data = d := by
  constructor
  · intro h
    rcases h with ⟨hk, p, hp, hkey, hdata⟩
    have hm := h.marked p hp not_false (by rw [hkey]; exact hk)
    exact ⟨payload (ht.buckets p), ⟨p, by rw [entries_of_marked ht p hm, hkey]⟩, hdata⟩
  · intro h
    rcases h with ⟨v, ⟨p, hp⟩, hd⟩
    rcases (entries_eq_some ht p k v).mp hp with ⟨hm, hkey, hv⟩
    exact ⟨by rw [← hkey]; exact hm.2.1, p, hm.1, hkey, by rw [← hd, ← hv]; rfl⟩

theorem stored_iff (ht : HashTable) (h : Exact ht (fun _ => False)) (k : Int) :
    Stored ht k ↔ Cells.Present (entries ht) k := by
  constructor
  · intro h
    rcases h with ⟨d, hd⟩
    rcases (stores_iff ht h k d).mp hd with ⟨v, hv, _⟩
    exact ⟨v, hv⟩
  · intro h
    rcases h with ⟨v, hv⟩
    exact ⟨v.data, (stores_iff ht h k v.data).mpr ⟨v, hv, rfl⟩⟩

theorem exact_mono (ht : HashTable) (E E' : Nat → Prop) (h : Exact ht E) (hsub : ∀ p, E p → E' p) :
    Exact ht E' :=
  ⟨h.exponent, h.keys, h.bits, fun p hp hpe => h.marked p hp (fun he => hpe (hsub p he))⟩

/-- A table that a key has been stored in holds what it held and that, at most. -/
theorem stores_store (ht : HashTable) (idx i : Nat) (key data k d : Int) :
    Stores (store ht idx i key data) k d → Stores ht k d ∨ (k = key ∧ d = data) := by
  intro h
  rcases h with ⟨hk, p, hp, hkey, hdata⟩
  rw [store_key] at hkey
  rw [store_data] at hdata
  by_cases hpi : p = i
  · rw [if_pos hpi] at hkey hdata
    exact Or.inr ⟨hkey.symm, hdata.symm⟩
  · rw [if_neg hpi] at hkey hdata
    exact Or.inl ⟨hk, p, hp, hkey, hdata⟩

theorem stored_store (ht : HashTable) (idx i : Nat) (key data k : Int)
    (h : Stored (store ht idx i key data) k) : k = key ∨ Stored ht k := by
  rcases h with ⟨d, hd⟩
  rcases stores_store ht idx i key data k d hd with hold | ⟨hnew, _⟩
  · exact Or.inr ⟨d, hold⟩
  · exact Or.inl hnew

/-- Storing a new key in an empty bucket within its reach. -/
theorem hopExact_store (ht : HashTable) (h : HopExact ht) (i : Nat) (k d : Int) (hk : 0 ≤ k)
    (habs : ¬ Stored ht k) (hle : home k ≤ i) (h6 : i - home k < hopscotchHopinfoSize)
    (hsz : i < ht.sz) (hempty : (ht.buckets i).key = -1) :
    HopExact (store ht (home k) i k d) := by
  rcases (hopExact_iff ht).mp h with ⟨hE, hu⟩
  have hhole := entries_of_empty ht i hempty
  refine (hopExact_iff _).mpr ⟨exact_store ht i k d _ (exact_mono ht _ _ hE (fun _ he => Or.inr he))
    hk hle h6 hsz hhole, ?_⟩
  rw [entries_store ht (home k) i k d hk rfl hle h6 hsz]
  exact Cells.keysUnique_put _ hu i k _ (fun hp => habs ((stored_iff ht hE k).mpr hp))

/-- Displacement in an exact table, with the hole exempt besides `E`. -/
def ExactHole (E : Nat → Prop) (_ : Nat) (t : HashTable) (q : Nat) : Prop :=
  q < t.sz ∧ entries t q = none ∧ Exact t (fun p => p = q ∨ E p)

/-- An exact table's bits are true wherever a displacement looks, and a hop
    keeps it exact. -/
theorem hopInvariant_exact (idx : Nat) (E : Nat → Prop) : HopInvariant idx (ExactHole E) := by
  constructor
  · rintro _ t q j off ⟨hq, _, hE⟩ _ hd
    rcases donor_spec t q _ 1 j off hd with ⟨_, _, _, hbit, _⟩
    exact (hE.bits (q - j) off (by omega) hbit).2.2
  · rintro _ t q j off ⟨hq, hqn, hE⟩ _ h6 hd
    rcases donor_hop t idx q j off h6 hd with ⟨hj1, hj6, hjq, hoff, hbit, _, hlt⟩
    have htrue := (hE.bits (q - j) off (by omega) hbit).2.2
    refine ⟨Nat.lt_trans hlt hq, ?_, exact_hop t q j off E hE hj1 hj6 hjq hoff hq hbit hqn⟩
    rw [entries_hop t q j off hj1 hj6 hjq hoff hq hbit htrue, Cells.move, Function.update_self]

/-- The probe of an insert into an exact table stops at an unmarked bucket. -/
theorem exactHole_start (ht : HashTable) (E : Nat → Prop) (h : Exact ht E) (idx i : Nat)
    (hi : firstEmpty ht (ht.sz - idx) idx = some i) : ExactHole E (i + 1) ht i := by
  rcases firstEmpty_spec ht _ _ i hi with ⟨_, hlt, hempty⟩
  exact ⟨by omega, entries_of_empty ht i hempty, exact_mono ht E _ h (fun _ he => Or.inr he)⟩

/-- An insert of an absent key that returns 0 adds its entry, and every other
    entry is kept with its whole payload. -/
theorem hopExact_insert (ht : HashTable) (h : HopExact ht) (k d : Int) (hk : 0 ≤ k)
    (habs : ¬ Stored ht k) :
    ∃ ht' r, hopscotchInsert ht k d = some (ht', r) ∧ (r = 0 ∨ r = -1) ∧
      (r = 0 → HopExact ht' ∧ ∀ k' v, Cells.Holds (entries ht') k' v ↔
        Cells.Holds (entries ht) k' v ∨ (k' = k ∧ v = newPayload d)) := by
  rcases (hopExact_iff ht).mp h with ⟨hE, hu⟩
  rw [stored_iff ht hE] at habs
  -- The displacement follows true bits only, the table being exact but for the hole.
  rcases insert_moves ht k d _ (hopInvariant_exact (home k) (fun _ => False)) hk hu habs
    (exactHole_start ht _ hE (home k)) with
    ⟨ht1, hh, hu1, _, ⟨hrun, _⟩ | ⟨i, hrun, hle, h6, hsz, hn, ⟨_, _, _, hE1⟩, hst, hu'⟩⟩
  · exact ⟨ht1, -1, hrun, Or.inr rfl, fun hc => absurd hc (by decide)⟩
  · refine ⟨_, 0, hrun, Or.inl rfl, fun _ => ⟨?_, fun k' v => ?_⟩⟩
    · exact (hopExact_iff _).mpr ⟨exact_store ht1 i k d _ hE1 hk hle h6 hsz hn, hu'⟩
    · rw [hst, Cells.holds_put _ i k _ hn, hh k' v]

/-- An exact table's search for a key stays inside the array. -/
theorem searchInside_of_exact (ht : HashTable) (E : Nat → Prop) (h : Exact ht E) (k : Int)
    (hk : 0 ≤ k) : searchInside ht k = true := by
  have hlt := home_lt_sz ht h.exponent k
  rw [searchInside, homeIdx_eq ht k hk, Bool.and_eq_true, decide_eq_true_eq]
  refine ⟨hlt, List.all_eq_true.mpr (fun b _ => ?_)⟩
  cases hb : bit ht (home k) b with
  | false => rfl
  | true =>
      rw [Bool.not_true, Bool.false_or, decide_eq_true_eq]
      exact (h.bits (home k) b hlt hb).2.1

/-- An update of a stored key rewrites its bucket, one of another key does
    nothing. -/
theorem hopExact_update (ht : HashTable) (h : HopExact ht) (k d : Int) (hk : 0 ≤ k) :
    (Stored ht k ∧ ∃ p, p < ht.sz ∧ (ht.buckets p).key = k ∧
        HopExact (ht.setBucket p (updated (ht.buckets p) d)) ∧
        hopscotchUpdate ht k d = some (ht.setBucket p (updated (ht.buckets p) d), 1)) ∨
      (¬ Stored ht k ∧ hopscotchUpdate ht k d = some (ht, 0)) := by
  rcases (hopExact_iff ht).mp h with ⟨hE, hu⟩
  rw [stored_iff ht hE]
  by_cases hp : Cells.Present (entries ht) k
  · rcases hp with ⟨v, p, hpv⟩
    have hm := (entries_eq_some ht p k v).mp hpv
    refine Or.inl ⟨⟨v, p, hpv⟩, p, hm.1.1, hm.2.1,
      (hopExact_iff _).mpr ⟨exact_updated ht p d _ hE, ?_⟩, update_entry ht hu p k v d hpv⟩
    rw [entries_updated ht p d hm.1]
    exact Cells.keysUnique_set _ hu p _ _ _ (entries_of_marked ht p hm.1)
  · exact Or.inr ⟨hp, update_miss ht k d hk hp (searchInside_of_exact ht _ hE k hk)⟩

/-- A remove of a stored key returns its data and empties its bucket alone. -/
theorem hopExact_remove (ht : HashTable) (h : HopExact ht) (k d : Int) (hs : Stores ht k d) :
    ∃ p ht', p < ht.sz ∧ (ht.buckets p).key = k ∧ hopscotchRemove ht k = some (ht', d) ∧
      HopExact ht' ∧ entries ht' = Function.update (entries ht) p none ∧
      ∀ q, q ≠ p → (ht'.buckets q).key = (ht.buckets q).key ∧
        payload (ht'.buckets q) = payload (ht.buckets q) := by
  rcases (hopExact_iff ht).mp h with ⟨hE, hu⟩
  rcases (stores_iff ht hE k d).mp hs with ⟨v, ⟨p, hpv⟩, rfl⟩
  rcases (entries_eq_some ht p k v).mp hpv with ⟨hm, hkey, _⟩
  rcases remove_entry ht hu p k v hpv with ⟨hrun, hent⟩
  have hpos : home k + (p - home k) = p := by
    have := hm.2.2.1
    rw [hkey] at this
    omega
  refine ⟨p, _, hm.1, hkey, hrun, (hopExact_iff _).mpr ⟨?_, ?_⟩, hent, fun q hq => ?_⟩
  · refine exact_removed ht (home k) (p - home k) _ hE ?_ (by rw [hpos, hkey])
    have := hm.2.2.2.1
    rwa [hkey] at this
  · rw [hent]
    exact Cells.keysUnique_clear _ hu p
  · exact removed_other ht (home k) (p - home k) q (by rw [hpos]; exact hq)

/-! ## Tables with no keys -/

/-- Every key is -1 and every `hopinfo` 0. -/
structure Vacant (ht : HashTable) : Prop where
  exponent : ht.exponent = hopscotchInitBsizeExponent
  keys : ∀ p, p < ht.sz → (ht.buckets p).key = -1
  hopinfo : ∀ p, p < ht.sz → (ht.buckets p).hopinfo = 0

theorem entries_of_vacant (ht : HashTable) (h : Vacant ht) (p : Nat) : entries ht p = none := by
  by_cases hp : p < ht.sz
  · exact entries_of_empty ht p (h.keys p hp)
  · -- Past the end of the array there are no entries.
    exact (entries_eq_none ht p).mpr (fun hm => hp hm.1)

theorem exact_of_vacant (ht : HashTable) (h : Vacant ht) : Exact ht (fun _ => False) where
  exponent := h.exponent
  keys := fun p hp => Or.inl (h.keys p hp)
  bits := fun a b ha hb => by
    rw [bit, h.hopinfo a ha, BitVec.ofNat_eq_ofNat, BitVec.getLsbD_zero] at hb
    exact absurd hb (by decide)
  marked := fun p hp _ hk => by
    rw [h.keys p hp] at hk
    exact absurd hk (by decide)

theorem keysUnique_of_vacant (ht : HashTable) (h : Vacant ht) : Cells.KeysUnique (entries ht) := by
  intro p q k v w hp
  rw [entries_of_vacant ht h] at hp
  exact absurd hp (by simp only [reduceCtorEq, not_false_eq_true])

theorem not_stored_of_vacant (ht : HashTable) (h : Vacant ht) (k : Int) : ¬ Stored ht k := by
  intro hs
  rcases hs with ⟨_, hk, p, hp, hkey, _⟩
  rw [h.keys p hp] at hkey
  omega

/-- The table with key -1 and no bit in every bucket. -/
def emptyTable : HashTable where
  exponent := hopscotchInitBsizeExponent
  keylen := 16
  buckets := fun _ => { memsetBucket with hopinfo := 0 }

@[simp] theorem emptyTable_key (p : Nat) : (emptyTable.buckets p).key = -1 := rfl

theorem vacant_emptyTable : Vacant emptyTable where
  exponent := rfl
  keys := fun _ _ => rfl
  hopinfo := fun _ _ => rfl

theorem hopExact_emptyTable : HopExact emptyTable :=
  (hopExact_iff _).mpr
    ⟨exact_of_vacant _ vacant_emptyTable, keysUnique_of_vacant _ vacant_emptyTable⟩

theorem not_stored_emptyTable (k : Int) : ¬ Stored emptyTable k :=
  not_stored_of_vacant emptyTable vacant_emptyTable k

/-- A table with data 7 stored under key 5. -/
def oneKeyTable : HashTable :=
  store emptyTable 5 5 5 7

theorem hopExact_oneKeyTable : HopExact oneKeyTable :=
  hopExact_store emptyTable hopExact_emptyTable 5 5 7 (by decide) (not_stored_emptyTable 5)
    (by decide) (by decide) (by decide) (emptyTable_key 5)

/-! ## Tables filled from the start -/

/-- The empty table with keys stored in its first buckets, one in each. -/
def filledTable (key : Nat → Int) : Nat → HashTable
  | 0 => emptyTable
  | n + 1 => store (filledTable key n) (home (key n)) n (key n) n

/-- It is hop-exact if the keys are distinct and each is near its home. -/
theorem filledTable_spec (key : Nat → Int) (n : Nat) (hn : n ≤ 2 ^ hopscotchInitBsizeExponent)
    (hnew : ∀ m, m < n → ∀ l, l < m → key m ≠ key l)
    (hnear : ∀ m, m < n → 0 ≤ key m ∧ home (key m) ≤ m ∧
      m - home (key m) < hopscotchHopinfoSize) :
    HopExact (filledTable key n) ∧ (∀ p, n ≤ p → ((filledTable key n).buckets p).key = -1) ∧
      ∀ a, Stored (filledTable key n) a → ∃ m, m < n ∧ a = key m := by
  induction n with
  | zero =>
      exact ⟨hopExact_emptyTable, fun p _ => emptyTable_key p,
        fun a ha => absurd ha (not_stored_emptyTable a)⟩
  | succ n ih =>
      rcases ih (by omega) (fun m hm => hnew m (by omega)) (fun m hm => hnear m (by omega)) with
        ⟨hex, hempty, hstored⟩
      rcases hnear n (Nat.lt_succ_self n) with ⟨h0, hle, h6⟩
      -- The next key is new, and its bucket still empty.
      have habs : ¬ Stored (filledTable key n) (key n) := by
        intro hs
        rcases hstored _ hs with ⟨m, hm, he⟩
        exact hnew n (Nat.lt_succ_self n) m hm he
      refine ⟨?_, fun p hp => ?_, fun a ha => ?_⟩
      · refine hopExact_store _ hex n (key n) n h0 habs hle h6 ?_ (hempty n (Nat.le_refl n))
        rw [HashTable.sz, hex.exponent]
        omega
      · rw [filledTable, store_key, if_neg (by omega)]
        exact hempty p (by omega)
      · rcases stored_store _ _ _ _ _ a ha with he | hold
        · exact ⟨n, Nat.lt_succ_self n, he⟩
        · rcases hstored a hold with ⟨m, hm, he⟩
          exact ⟨m, Nat.lt_succ_of_lt hm, he⟩

/-- Another key is not stored in it. -/
theorem filledTable_absent (key : Nat → Int) (n : Nat) (hn : n ≤ 2 ^ hopscotchInitBsizeExponent)
    (hnew : ∀ m, m < n → ∀ l, l < m → key m ≠ key l)
    (hnear : ∀ m, m < n → 0 ≤ key m ∧ home (key m) ≤ m ∧
      m - home (key m) < hopscotchHopinfoSize) (k : Int) (hk : ∀ m, m < n → k ≠ key m) :
    HopExact (filledTable key n) ∧ ¬ Stored (filledTable key n) k := by
  rcases filledTable_spec key n hn hnew hnear with ⟨hex, _, hstored⟩
  refine ⟨hex, fun hs => ?_⟩
  rcases hstored k hs with ⟨m, hm, he⟩
  exact hk m hm he

/-- The keys 0 to 5, each in its home, so that the first empty bucket is out of
    the reach of home 0. -/
def rowTable : HashTable :=
  filledTable (fun m => m) 6

theorem rowTable_spec : HopExact rowTable ∧ ¬ Stored rowTable 4194304 :=
  filledTable_absent (fun m => m) 6 (by decide) (by decide) (by decide) 4194304 (by decide)

/-! ## The map -/

/-- A table whose entries are those of another and one more has one more pair. -/
theorem stores_insert (ht ht' : HashTable) (hE : Exact ht (fun _ => False))
    (hE' : Exact ht' (fun _ => False)) (k d : Int)
    (hh : ∀ k' v, Cells.Holds (entries ht') k' v ↔
      Cells.Holds (entries ht) k' v ∨ (k' = k ∧ v = newPayload d)) (k' d' : Int) :
    Stores ht' k' d' ↔ Stores ht k' d' ∨ (k' = k ∧ d' = d) := by
  rw [stores_iff ht' hE', stores_iff ht hE]
  constructor
  · intro h
    rcases h with ⟨v, hv, rfl⟩
    rcases (hh k' v).mp hv with hold | ⟨rfl, rfl⟩
    · exact Or.inl ⟨v, hold, rfl⟩
    · exact Or.inr ⟨rfl, rfl⟩
  · intro h
    rcases h with ⟨v, hv, rfl⟩ | ⟨rfl, rfl⟩
    · exact ⟨v, (hh k' v).mpr (Or.inl hv), rfl⟩
    · exact ⟨newPayload d', (hh k' _).mpr (Or.inr ⟨rfl, rfl⟩), rfl⟩

/-- A table with the entry of one key removed has no pair of that key. -/
theorem stores_remove (ht ht' : HashTable) (hE : Exact ht (fun _ => False))
    (hE' : Exact ht' (fun _ => False)) (hu : Cells.KeysUnique (entries ht)) (p : Nat) (k : Int)
    (v : Payload) (hp : entries ht p = some (k, v))
    (hent : entries ht' = Function.update (entries ht) p none) (k' d' : Int) :
    Stores ht' k' d' ↔ Stores ht k' d' ∧ k' ≠ k := by
  rw [stores_iff ht' hE', stores_iff ht hE, hent]
  constructor
  · intro h
    rcases h with ⟨w, hw, rfl⟩
    rcases (Cells.holds_clear _ hu p k v hp k' w).mp hw with ⟨hne, hold⟩
    exact ⟨⟨w, hold, rfl⟩, hne⟩
  · intro h
    rcases h with ⟨⟨w, hw, rfl⟩, hne⟩
    exact ⟨w, (Cells.holds_clear _ hu p k v hp k' w).mpr ⟨hne, hw⟩, rfl⟩

/-- The hop-exact table simulates a finite map. An insert of an absent key that
    returns 0 adds its pair, an update reports whether the key is stored and
    changes its bucket only, and a remove of a stored key removes its pair. -/
theorem hopExact_simulates_map (ht : HashTable) (h : HopExact ht) (k : Int) (hk : 0 ≤ k) :
    (∀ d, ¬ Stored ht k → ∃ ht' r, hopscotchInsert ht k d = some (ht', r) ∧
      (r = 0 → HopExact ht' ∧
        (∀ k' d', Stores ht' k' d' ↔ Stores ht k' d' ∨ (k' = k ∧ d' = d)) ∧
        (∀ p, p < ht.sz → 0 ≤ (ht.buckets p).key → ∃ q, q < ht'.sz ∧
          (ht'.buckets q).key = (ht.buckets p).key ∧
          payload (ht'.buckets q) = payload (ht.buckets p)))) ∧
    (∀ d, ∃ ht' r, hopscotchUpdate ht k d = some (ht', r) ∧ HopExact ht' ∧
      (r = 1 ↔ Stored ht k) ∧
      (r = 1 → ∃ p, p < ht.sz ∧ (ht.buckets p).key = k ∧
        ht' = ht.setBucket p (updated (ht.buckets p) d)) ∧
      (r ≠ 1 → r = 0 ∧ ht' = ht)) ∧
    (Stored ht k → ∃ ht' r, hopscotchRemove ht k = some (ht', r) ∧ Stores ht k r ∧ HopExact ht' ∧
      (∀ k' d', Stores ht' k' d' ↔ Stores ht k' d' ∧ k' ≠ k) ∧
      (∀ q, q < ht.sz → (ht.buckets q).key ≠ k → (ht'.buckets q).key = (ht.buckets q).key ∧
        payload (ht'.buckets q) = payload (ht.buckets q))) := by
  rcases (hopExact_iff ht).mp h with ⟨hE, hu⟩
  refine ⟨fun d habs => ?_, fun d => ?_, fun ⟨d, hs⟩ => ?_⟩
  · -- Insert: the cells gain the new entry and keep the payloads of the others.
    rcases hopExact_insert ht h k d hk habs with ⟨ht', r, hrun, _, hr⟩
    refine ⟨ht', r, hrun, fun hr0 => ?_⟩
    rcases hr hr0 with ⟨hex, hh⟩
    have hE' := ((hopExact_iff ht').mp hex).1
    refine ⟨hex, stores_insert ht ht' hE hE' k d hh, fun p hp hkp => ?_⟩
    have hm := hE.marked p hp not_false hkp
    rcases (hh _ _).mpr (Or.inl ⟨p, entries_of_marked ht p hm⟩) with ⟨q, hq⟩
    rcases (entries_eq_some ht' q _ _).mp hq with ⟨hmq, hkq, hvq⟩
    exact ⟨q, hmq.1, hkq, hvq⟩
  · -- Update: the two cases of the key being stored or not.
    rcases hopExact_update ht h k d hk with ⟨hs, p, hp, hkey, hex, hrun⟩ | ⟨hns, hrun⟩
    · exact ⟨_, 1, hrun, hex, ⟨fun _ => hs, fun _ => rfl⟩, fun _ => ⟨p, hp, hkey, rfl⟩,
        fun hc => absurd rfl hc⟩
    · exact ⟨ht, 0, hrun, h, ⟨fun hc => absurd hc (by decide), fun hc => absurd hc hns⟩,
        fun hc => absurd hc (by decide), fun _ => ⟨rfl, rfl⟩⟩
  · -- Remove: the one cell with the key is emptied.
    rcases hopExact_remove ht h k d hs with ⟨p, ht', hp, hkey, hrun, hex, hent, hrest⟩
    have hE' := ((hopExact_iff ht').mp hex).1
    have hm := hE.marked p hp not_false (by rw [hkey]; exact hk)
    have hpv := entries_of_marked ht p hm
    rw [hkey] at hpv
    refine ⟨ht', d, hrun, hs, hex, stores_remove ht ht' hE hE' hu p k _ hpv hent,
      fun q _ hq => hrest q ?_⟩
    intro hc
    exact hq (by rw [hc, hkey])

/-- A second key of home 0 sends key 5 on to bucket 6, an update finds key 3, and
    a remove returns what is stored under key 5. -/
theorem hopExact_simulates_map_rowTable :
    (∃ ht', hopscotchInsert rowTable 4194304 9 = some (ht', 0) ∧ HopExact ht' ∧
      (ht'.buckets 6).key = 5 ∧ Stores ht' 4194304 9 ∧ Stores ht' 5 5) ∧
    (∃ ht', hopscotchUpdate rowTable 3 8 = some (ht', 1) ∧ HopExact ht' ∧
      ht' = rowTable.setBucket 3 (updated (rowTable.buckets 3) 8)) ∧
    ∃ ht', hopscotchRemove rowTable 5 = some (ht', 5) ∧ HopExact ht' ∧ ¬ Stored ht' 5 := by
  have hex := rowTable_spec.1
  have h5 : Stores rowTable 5 5 := ⟨by decide, 5, by decide, rfl, rfl⟩
  refine ⟨?_, ?_, ?_⟩
  · rcases (hopExact_simulates_map rowTable hex 4194304 (by decide)).1 9 rowTable_spec.2 with
      ⟨ht', r, hrun, hr⟩
    -- The first empty bucket is bucket 6, and key 5 is the one that can go there.
    have hres : (hopscotchInsert rowTable 4194304 9).map
        (fun s => (s.2, (s.1.buckets 6).key)) = some (0, 5) := by decide +kernel
    rw [hrun, Option.map_some, Option.some.injEq, Prod.mk.injEq] at hres
    rcases hres with ⟨rfl, h6⟩
    rcases hr rfl with ⟨hex', hst, _⟩
    exact ⟨ht', hrun, hex', h6, (hst _ _).mpr (Or.inr ⟨rfl, rfl⟩), (hst _ _).mpr (Or.inl h5)⟩
  · rcases (hopExact_simulates_map rowTable hex 3 (by decide)).2.1 8 with
      ⟨ht', r, hrun, hex', hr, hupd, _⟩
    have hr1 : r = 1 := hr.mpr ⟨3, by decide, 3, by decide, rfl, rfl⟩
    rcases hupd hr1 with ⟨p, hp, hkey, he⟩
    have hp3 : p = 3 := hex.unique p 3 hp (by decide) (by rw [hkey]; decide) hkey
    exact ⟨ht', by rw [hrun, hr1], hex', by rw [he, hp3]⟩
  · rcases (hopExact_simulates_map rowTable hex 5 (by decide)).2.2 ⟨5, h5⟩ with
      ⟨ht', r, hrun, _, hex', hst, _⟩
    have hres : (hopscotchRemove rowTable 5).map Prod.snd = some 5 := by decide +kernel
    rw [hrun, Option.map_some, Option.some.injEq] at hres
    exact ⟨ht', by rw [hrun, ← hres], hex', fun ⟨d, hd⟩ => ((hst 5 d).mp hd).2 rfl⟩

end FaRM

end LocalKeyValue
