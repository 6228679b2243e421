import LocalKeyValue.FaRM.Entries

/-!
# What the Operations Do to the Entries

The specification of each operation of the hopscotch table over its cells,
under the one assumption displacement needs: every bit a hop follows is true.

`displace_rule` is the loop rule of the displacement. It takes an invariant of
table and hole and asks only that a hop keeps it; the loop then ends, either
with the hole within reach of the home or at a hole no entry can be moved into,
and in both cases the invariant holds there. The hole moves down by at least
one bucket a hop, so its own position is fuel enough.

`displace_moves` is the rule for an invariant that makes the bits true, which
`HopInvariant` packages: the loop then only moves entries, and the table still
represents the map it did.

## Main definitions

* `HopInvariant`: What a displacement along true bits keeps.
* `newPayload`: What an insert stores with its key.
* `searchInside`: The search for a key stays inside the array.

## Theorems

* `firstEmpty_spec`, `firstEmpty_min`, `firstEmpty_eq_none`: What the probe
  returns.
* `donor_hop`: Where a hop takes the hole.
* `displace_rule`: The loop rule of the displacement.
* `displace_moves`: A displacement along true bits keeps what the table holds.
* `insert_full`, `insert_stuck`, `insert_stored`: What an insert returns.
* `insert_moves`: The insert built on it.
* `update_entry`, `update_miss`: Update of a present and of an absent key.
* `remove_entry`, `remove_miss`: Remove of a present and of an absent key.
* `lookup_entry`: Lookup of a present key.
-/

namespace LocalKeyValue

namespace FaRM

/-- The probe stops at the first bucket with key -1. -/
theorem firstEmpty_spec (ht : HashTable) : ∀ (n i p : Nat), firstEmpty ht n i = some p →
    i ≤ p ∧ p < i + n ∧ (ht.buckets p).key = -1 := by
  intro n
  induction n with
  | zero => intro i p h; simp only [firstEmpty, reduceCtorEq] at h
  | succ n ih =>
      intro i p h
      unfold firstEmpty at h
      by_cases hk : (ht.buckets i).key = -1
      · rw [if_pos hk, Option.some.injEq] at h
        exact ⟨by omega, by omega, by rw [← h]; exact hk⟩
      · rw [if_neg hk] at h
        rcases ih (i + 1) p h with ⟨h1, h2, h3⟩
        exact ⟨by omega, by omega, h3⟩

/-- There is none before it. -/
theorem firstEmpty_min (ht : HashTable) : ∀ (n i p : Nat), firstEmpty ht n i = some p →
    ∀ q, i ≤ q → q < p → (ht.buckets q).key ≠ -1 := by
  intro n
  induction n with
  | zero => intro i p h; simp only [firstEmpty, reduceCtorEq] at h
  | succ n ih =>
      intro i p h q hi hq
      unfold firstEmpty at h
      by_cases hk : (ht.buckets i).key = -1
      · rw [if_pos hk, Option.some.injEq] at h
        omega
      · rw [if_neg hk] at h
        by_cases hqi : q = i
        · rw [hqi]
          exact hk
        · exact ih (i + 1) p h q (by omega) hq

/-- The probe finds a bucket just when there is one with key -1. -/
theorem firstEmpty_eq_none (ht : HashTable) : ∀ (n i : Nat), firstEmpty ht n i = none ↔
    ∀ q, i ≤ q → q < i + n → (ht.buckets q).key ≠ -1 := by
  intro n
  induction n with
  | zero => intro i; exact iff_of_true rfl (fun q h1 h2 => by omega)
  | succ n ih =>
      intro i
      unfold firstEmpty
      by_cases hk : (ht.buckets i).key = -1
      · rw [if_pos hk]
        exact iff_of_false (by simp only [reduceCtorEq, not_false_eq_true])
          (fun h => h i (Nat.le_refl _) (by omega) hk)
      · rw [if_neg hk, ih (i + 1)]
        constructor
        · intro h q h1 h2
          by_cases hqi : q = i
          · rw [hqi]
            exact hk
          · exact h q (by omega) (by omega)
        · intro h q h1 h2
          exact h q (by omega) (by omega)

/-- A displacement that is out of the home's reach asks a donor whose reach ends
    at the hole at the latest; its hop brings the hole nearer to the home. -/
theorem donor_hop (ht : HashTable) (idx i j off : Nat) (h6 : hopscotchHopinfoSize ≤ i - idx)
    (hd : donor ht i (hopscotchHopinfoSize - 1) 1 = some (j, off)) :
    1 ≤ j ∧ j < hopscotchHopinfoSize ∧ j ≤ i ∧ off < j ∧ bit ht (i - j) off = true ∧
      idx ≤ i - j + off ∧ i - j + off < i := by
  rcases donor_spec ht i _ 1 j off hd with ⟨hj1, hj, hoff, hbit, _⟩
  have hj6 : j < hopscotchHopinfoSize := by simp only [hopscotchHopinfoSize] at hj ⊢; omega
  have hji : j ≤ i - idx := by omega
  exact ⟨hj1, hj6, by omega, hoff, hbit, by omega, by omega⟩

/-- The loop rule of the displacement: what every hop keeps holds where the
    loop ends, and the loop ends. -/
theorem displace_rule (idx : Nat) (I : Nat → HashTable → Nat → Prop)
    (hstep : ∀ fuel ht i j off, I (fuel + 1) ht i → hopscotchHopinfoSize ≤ i - idx →
      donor ht i (hopscotchHopinfoSize - 1) 1 = some (j, off) →
      I fuel (hop ht i j off) (i - j + off)) :
    ∀ (fuel : Nat) (ht : HashTable) (i : Nat), I fuel ht i → idx ≤ i → i < fuel →
      ∃ ht' r, displace idx fuel ht i = some (ht', r) ∧ ht'.exponent = ht.exponent ∧
        ∃ fuel' i', I fuel' ht' i' ∧ idx ≤ i' ∧ i' ≤ i ∧
          ((r = some i' ∧ i' - idx < hopscotchHopinfoSize) ∨
            (r = none ∧ hopscotchHopinfoSize ≤ i' - idx ∧
              donor ht' i' (hopscotchHopinfoSize - 1) 1 = none)) := by
  intro fuel
  induction fuel with
  | zero => intro ht i _ _ h; omega
  | succ fuel ih =>
      intro ht i hI hle hlt
      unfold displace
      by_cases h6 : i - idx < hopscotchHopinfoSize
      · -- Within reach of the home: the loop stops with this hole.
        rw [if_pos h6]
        exact ⟨ht, some i, rfl, rfl, fuel + 1, i, hI, hle, Nat.le_refl _, Or.inl ⟨rfl, h6⟩⟩
      · rw [if_neg h6]
        cases hd : donor ht i (hopscotchHopinfoSize - 1) 1 with
        | none =>
            exact ⟨ht, none, rfl, rfl, fuel + 1, i, hI, hle, Nat.le_refl _,
              Or.inr ⟨rfl, by omega, hd⟩⟩
        | some jo =>
            -- The hole moves down by `j - off`, so one unit of fuel is enough for the hop.
            rcases jo with ⟨j, off⟩
            have h6' := Nat.not_lt.mp h6
            rcases donor_hop ht idx i j off h6' hd with ⟨_, _, _, _, _, hge, hlow⟩
            have hI' := hstep fuel ht i j off hI h6' hd
            rcases ih (hop ht i j off) (i - j + off) hI' hge (by omega) with
              ⟨ht', r, hrun, hexp, fuel', i', hI'', h1, h2, h3⟩
            exact ⟨ht', r, hrun, hexp, fuel', i', hI'', h1, by omega, h3⟩

section Moves

variable (idx : Nat) (J : Nat → HashTable → Nat → Prop)

/-- What a displacement is assumed to keep: `J` gives the bits the hops follow,
    and a hop keeps `J`. -/
structure HopInvariant : Prop where
  trueBit : ∀ fuel t q j off, J (fuel + 1) t q → hopscotchHopinfoSize ≤ q - idx →
    donor t q (hopscotchHopinfoSize - 1) 1 = some (j, off) → TrueBit t (q - j) off
  hop : ∀ fuel t q j off, J (fuel + 1) t q → q < t.sz → hopscotchHopinfoSize ≤ q - idx →
    donor t q (hopscotchHopinfoSize - 1) 1 = some (j, off) →
    J fuel (hop t q j off) (q - j + off)

variable {idx J}

/-- A displacement along true bits only moves entries. It ends, and the table
    holds what it held. -/
theorem displace_moves (hJ : HopInvariant idx J) (ht : HashTable) (i : Nat)
    (hu : Cells.KeysUnique (entries ht)) (h0 : J (i + 1) ht i)
    (hsz : i < ht.sz) (hle : idx ≤ i) (hhole : entries ht i = none) :
    ∃ ht' r, displace idx (i + 1) ht i = some (ht', r) ∧ ht'.exponent = ht.exponent ∧
      Cells.KeysUnique (entries ht') ∧
      (∀ k v, Cells.Holds (entries ht') k v ↔ Cells.Holds (entries ht) k v) ∧
      ∃ fuel i', J fuel ht' i' ∧ idx ≤ i' ∧ i' < ht'.sz ∧ entries ht' i' = none ∧
        ((r = some i' ∧ i' - idx < hopscotchHopinfoSize) ∨
          (r = none ∧ hopscotchHopinfoSize ≤ i' - idx ∧
            donor ht' i' (hopscotchHopinfoSize - 1) 1 = none)) := by
  -- The loop invariant: the hole is empty and inside, and the cells hold what they held.
  have hrule := displace_rule idx
    (fun fuel t q => J fuel t q ∧ q < t.sz ∧ entries t q = none ∧
      Cells.KeysUnique (entries t) ∧
      ∀ k v, Cells.Holds (entries t) k v ↔ Cells.Holds (entries ht) k v)
    ?_ (i + 1) ht i ⟨h0, hsz, hhole, hu, fun _ _ => Iff.rfl⟩ hle (by omega)
  · rcases hrule with ⟨ht', r, hrun, hexp, fuel', i', ⟨hJ', hsz', hhole', hu', hh⟩, h1, _, h3⟩
    exact ⟨ht', r, hrun, hexp, hu', hh, fuel', i', hJ', h1, hsz', hhole', h3⟩
  · -- One hop is one move of an entry into the hole.
    rintro fuel t q j off ⟨hq0, hq, hqn, hu', hh⟩ h6 hd
    rcases donor_hop t idx q j off h6 hd with ⟨hj1, hj6, hjq, hoff, hbit, _, hlt⟩
    have hmove := entries_hop t q j off hj1 hj6 hjq hoff hq hbit
      (hJ.trueBit fuel t q j off hq0 h6 hd)
    have hne := Nat.ne_of_lt hlt
    refine ⟨hJ.hop fuel t q j off hq0 hq h6 hd, ?_, ?_, ?_, ?_⟩
    · exact Nat.lt_trans hlt hq
    · rw [hmove, Cells.move, Function.update_self]
    · rw [hmove]
      exact Cells.keysUnique_move _ hu' _ _
    · intro k v
      rw [hmove, Cells.holds_move _ _ _ hne hqn, hh k v]

end Moves

/-! ## What an insert returns -/

section Returns

variable (ht : HashTable) (key data : Int) (idx : Nat)

/-- There is no empty bucket. -/
theorem insert_full (hidx : ht.homeIdx key = idx) (hfe : firstEmpty ht (ht.sz - idx) idx = none) :
    hopscotchInsert ht key data = some (ht, -1) := by
  unfold hopscotchInsert
  simp only [hidx, hfe]

/-- The displacement is stuck. -/
theorem insert_stuck (hidx : ht.homeIdx key = idx) (ht' : HashTable) (i : Nat)
    (hfe : firstEmpty ht (ht.sz - idx) idx = some i)
    (hd : displace idx (i + 1) ht i = some (ht', none)) :
    hopscotchInsert ht key data = some (ht', -1) := by
  unfold hopscotchInsert
  simp only [hidx, hfe, hd]

/-- The hole comes within reach. -/
theorem insert_stored (hidx : ht.homeIdx key = idx) (ht' : HashTable) (i i' : Nat)
    (hfe : firstEmpty ht (ht.sz - idx) idx = some i)
    (hd : displace idx (i + 1) ht i = some (ht', some i')) :
    hopscotchInsert ht key data = some (store ht' idx i' key data, 0) := by
  unfold hopscotchInsert
  simp only [hidx, hfe, hd]

end Returns

/-- What an insert stores with its key. -/
def newPayload (data : Int) : Payload :=
  { data := data, headerVersion := 1, lock := 0, cVer := 1 }

/-- An insert of an absent key whose displacement follows true bits returns.
    If it returns 0, it stored the new entry in a free bucket near its home,
    after moves only; if it returns -1, there was no empty bucket, or there
    were moves only and none is left to make. -/
theorem insert_moves (ht : HashTable) (key data : Int) (J : Nat → HashTable → Nat → Prop)
    (hJ : HopInvariant (home key) J) (hk : 0 ≤ key) (hu : Cells.KeysUnique (entries ht))
    (habs : ¬ Cells.Present (entries ht) key)
    (h0 : ∀ i, firstEmpty ht (ht.sz - home key) (home key) = some i → J (i + 1) ht i) :
    ∃ ht1, (∀ k v, Cells.Holds (entries ht1) k v ↔ Cells.Holds (entries ht) k v) ∧
      Cells.KeysUnique (entries ht1) ∧ ht1.exponent = ht.exponent ∧
      ((hopscotchInsert ht key data = some (ht1, -1) ∧
          (ht1 = ht ∨ ∃ fuel i, J fuel ht1 i ∧ entries ht1 i = none ∧
            hopscotchHopinfoSize ≤ i - home key ∧
            donor ht1 i (hopscotchHopinfoSize - 1) 1 = none)) ∨
        (∃ i, hopscotchInsert ht key data = some (store ht1 (home key) i key data, 0) ∧
          home key ≤ i ∧ i - home key < hopscotchHopinfoSize ∧ i < ht1.sz ∧
          entries ht1 i = none ∧ (∃ fuel, J fuel ht1 i) ∧
          entries (store ht1 (home key) i key data) =
            Function.update (entries ht1) i (some (key, newPayload data)) ∧
          Cells.KeysUnique (entries (store ht1 (home key) i key data)))) := by
  have hidx := homeIdx_eq ht key hk
  cases hfe : firstEmpty ht (ht.sz - home key) (home key) with
  | none =>
      exact ⟨ht, fun _ _ => Iff.rfl, hu, rfl,
        Or.inl ⟨insert_full ht key data _ hidx hfe, Or.inl rfl⟩⟩
  | some i =>
      rcases firstEmpty_spec ht _ _ i hfe with ⟨hle, hlt, hempty⟩
      have hhole := entries_of_empty ht i hempty
      rcases displace_moves hJ ht i hu (h0 i hfe) (by omega) hle hhole with
        ⟨ht1, r, hrun, hexp, hu1, hh1, fuel, i', hJ', h1, hsz', hhole', hend⟩
      rcases hend with ⟨rfl, h6⟩ | ⟨rfl, h6, hd⟩
      · -- The hole came within reach, and the new entry is stored there.
        have hst := entries_store ht1 (home key) i' key data hk rfl h1 h6 hsz'
        have habs1 : ¬ Cells.Present (entries ht1) key := by
          intro h
          rcases h with ⟨v, hv⟩
          exact habs ⟨v, (hh1 key v).mp hv⟩
        refine ⟨ht1, hh1, hu1, hexp,
          Or.inr ⟨i', insert_stored ht key data _ hidx ht1 i i' hfe hrun, h1, h6, hsz', hhole',
            ⟨fuel, hJ'⟩, hst, ?_⟩⟩
        rw [hst]
        exact Cells.keysUnique_put _ hu1 i' key _ habs1
      · -- The moves made so far stay made.
        exact ⟨ht1, hh1, hu1, hexp, Or.inl ⟨insert_stuck ht key data _ hidx ht1 i hfe hrun,
          Or.inr ⟨fuel, i', hJ', hhole', h6, hd⟩⟩⟩

/-! ## The searching operations -/

/-- The search for a key stays inside the array: from the home on, a set bit
    names a bucket inside it. -/
def searchInside (ht : HashTable) (key : Int) : Bool :=
  decide (ht.homeIdx key < ht.sz) && (List.range hopscotchHopinfoSize).all
    (fun b => !bit ht (ht.homeIdx key) b || decide (ht.homeIdx key + b < ht.sz))

theorem searchInside_spec (ht : HashTable) (key : Int) (h : searchInside ht key = true) :
    ht.homeIdx key < ht.sz ∧ ∀ b, b < hopscotchHopinfoSize → bit ht (ht.homeIdx key) b = true →
      ht.homeIdx key + b < ht.sz := by
  rw [searchInside, Bool.and_eq_true, decide_eq_true_eq] at h
  refine ⟨h.1, fun b hb hbit => ?_⟩
  have hb' := List.all_eq_true.mp h.2 b (List.mem_range.mpr hb)
  simp only [hbit, Bool.not_true, Bool.false_or, decide_eq_true_eq] at hb'
  exact hb'

/-- The search finds no absent key. -/
theorem findFrom_absent (ht : HashTable) (key : Int) (hk : 0 ≤ key)
    (habs : ¬ Cells.Present (entries ht) key) (hin : searchInside ht key = true) :
    findFrom ht (ht.homeIdx key) key = some none := by
  rcases searchInside_spec ht key hin with ⟨hidx, hbits⟩
  -- A marked bucket with the key would be an entry for it.
  refine findFrom_miss ht _ key hidx (fun b hb hbit => ⟨hbits b hb hbit, fun hkey => ?_⟩)
  have hm := marked_of_bit ht (ht.homeIdx key) b key hk (homeIdx_eq ht key hk).symm hbit hb
    (hbits b hb hbit) hkey
  exact habs ⟨_, _, by rw [entries_of_marked ht _ hm, hkey]⟩

/-- Update of a present key rewrites its bucket and returns 1. -/
theorem update_entry (ht : HashTable) (hu : Cells.KeysUnique (entries ht)) (p : Nat) (k : Int)
    (v : Payload) (nval : Int) (hp : entries ht p = some (k, v)) :
    hopscotchUpdate ht k nval = some (ht.setBucket p (updated (ht.buckets p) nval), 1) := by
  have hm := (entries_eq_some ht p k v).mp hp
  have hk : 0 ≤ k := hm.2.1 ▸ hm.1.2.1
  rcases findFrom_entry ht hu p k v hp with ⟨hf, hpos⟩
  rw [hopscotchUpdate, homeIdx_eq ht k hk, hf]
  simp only [hpos]

/-- Update of an absent key changes nothing and returns 0. -/
theorem update_miss (ht : HashTable) (key nval : Int) (hk : 0 ≤ key)
    (habs : ¬ Cells.Present (entries ht) key) (hin : searchInside ht key = true) :
    hopscotchUpdate ht key nval = some (ht, 0) := by
  rw [hopscotchUpdate, findFrom_absent ht key hk habs hin]

/-- Lookup of a present key returns its data. -/
theorem lookup_entry (ht : HashTable) (hu : Cells.KeysUnique (entries ht)) (p : Nat) (k : Int)
    (v : Payload) (hp : entries ht p = some (k, v)) : hopscotchLookup ht k = some v.data := by
  have hm := (entries_eq_some ht p k v).mp hp
  have hk : 0 ≤ k := hm.2.1 ▸ hm.1.2.1
  rcases findFrom_entry ht hu p k v hp with ⟨hf, hpos⟩
  rw [hopscotchLookup, homeIdx_eq ht k hk, hf]
  simp only [hpos, ← hm.2.2, payload]

/-- The mask a remove applies to the home index does nothing to an index inside
    the array. -/
theorem homeIdx_mask (ht : HashTable) (key : Int) (h : ht.homeIdx key < ht.sz) :
    ht.homeIdx key &&& (ht.sz - 1) = ht.homeIdx key := by
  rw [HashTable.sz] at h ⊢
  rw [Nat.and_two_pow_sub_one_eq_mod, Nat.mod_eq_of_lt h]

/-- A remove in terms of the search the other operations make. -/
theorem hopscotchRemove_eq (ht : HashTable) (key : Int) (h : ht.homeIdx key < ht.sz) :
    hopscotchRemove ht key = match findFrom ht (ht.homeIdx key) key with
      | none => none
      | some none =>
        some (ht, if (ht.buckets (ht.homeIdx key)).hopinfo = 0 then 0 else -1)
      | some (some d) =>
        some (removed ht (ht.homeIdx key) d, (ht.buckets (ht.homeIdx key + d)).data) := by
  rw [hopscotchRemove]
  simp only [homeIdx_mask ht key h, findFrom, HashTable.bucket?, if_pos h]
  -- The early exit returns 0 where the loop returns -1.
  by_cases h0 : (ht.buckets (ht.homeIdx key)).hopinfo = 0
  · simp only [if_pos h0]
  · simp only [if_neg h0]
    rcases findBucket ht (ht.homeIdx key) key hopscotchHopinfoSize 0 with _ | _ | d
    · rfl
    · rfl
    · rfl

/-- Remove of a present key empties its cell and returns its data. -/
theorem remove_entry (ht : HashTable) (hu : Cells.KeysUnique (entries ht)) (p : Nat) (k : Int)
    (v : Payload) (hp : entries ht p = some (k, v)) :
    hopscotchRemove ht k = some (removed ht (home k) (p - home k), v.data) ∧
      entries (removed ht (home k) (p - home k)) = Function.update (entries ht) p none := by
  have hm := (entries_eq_some ht p k v).mp hp
  have hk : 0 ≤ k := hm.2.1 ▸ hm.1.2.1
  rcases findFrom_entry ht hu p k v hp with ⟨hf, hpos⟩
  rcases findFrom_sound ht (home k) k _ hf with ⟨h6, _, hsz, _⟩
  constructor
  · rw [hopscotchRemove_eq ht k (by rw [homeIdx_eq ht k hk]; omega), homeIdx_eq ht k hk, hf]
    simp only [hpos, ← hm.2.2, payload]
  · rw [entries_removed ht (home k) (p - home k) h6, hpos]

/-- Remove of an absent key changes nothing. -/
theorem remove_miss (ht : HashTable) (key : Int) (hk : 0 ≤ key)
    (habs : ¬ Cells.Present (entries ht) key) (hin : searchInside ht key = true) :
    ∃ r, hopscotchRemove ht key = some (ht, r) := by
  rw [hopscotchRemove_eq ht key (searchInside_spec ht key hin).1,
    findFrom_absent ht key hk habs hin]
  exact ⟨_, rfl⟩

end FaRM

end LocalKeyValue
