import LocalKeyValue.FaRM.Complete

/-!
# Inserts That Fail

What a failed insert leaves behind. The displacement returns -1 where it is
stuck and takes back none of its hops, where the resize, which can fail half way
too, puts the old table back. A hop has moved an entry into what was the empty
bucket, and the bucket the entry came from keeps the key: the table now holds
the key twice, once with a bit that names it and once without.

So a failed insert is harmless only if it made no hop: there was no empty
bucket, or none that the inner loop could move an entry into.

## Main definitions

* `Harmless`: If the insert fails the table is as before.
* `StuckAtOnce`: The displacement cannot make its first hop.
* `fullTable`: A table in which an insert fails and is harmless.
* `crowdedTable`: One in which it makes a hop and fails.

## Theorems

* `displace_hopped`: After the first hop the table is another.
* `insert_harmless_iff`: When an insert is harmless.
-/

namespace LocalKeyValue

namespace FaRM

/-- No key is in two buckets. -/
def NoSecondCopy (ht : HashTable) : Prop :=
  ∀ p q, p < ht.sz → q < ht.sz → 0 ≤ (ht.buckets p).key →
    (ht.buckets p).key = (ht.buckets q).key → p = q

/-- If the insert returns -1 every bucket is as before, so that no key is in two. -/
def Harmless (ht : HashTable) (k d : Int) : Prop :=
  ∃ ht' r, hopscotchInsert ht k d = some (ht', r) ∧
    (r = -1 → (∀ p, p < ht.sz → ht'.buckets p = ht.buckets p) ∧ NoSecondCopy ht')

/-- The first empty bucket, if there is one, is out of the key's reach, and no
    entry can be moved into it. -/
def StuckAtOnce (ht : HashTable) (k : Int) : Prop :=
  ∀ i ∈ firstEmpty ht (ht.sz - home k) (home k),
    hopscotchHopinfoSize ≤ i - home k ∧ donor ht i (hopscotchHopinfoSize - 1) 1 = none

instance (ht : HashTable) (k : Int) : Decidable (StuckAtOnce ht k) :=
  inferInstanceAs (Decidable (∀ i ∈ firstEmpty ht (ht.sz - home k) (home k), _))

/-- A hop puts a key into the empty bucket, and it stays there. -/
theorem displace_hopped (ht : HashTable) (h : HopExact ht) (idx i j off : Nat) (hi : i < ht.sz)
    (h6 : hopscotchHopinfoSize ≤ i - idx)
    (hd : donor ht i (hopscotchHopinfoSize - 1) 1 = some (j, off)) :
    ∃ t r, displace idx (i + 1) ht i = some (t, r) ∧ 0 ≤ (t.buckets i).key := by
  rcases donor_hop ht idx i j off h6 hd with ⟨_, _, _, _, hbit, hge, hlow⟩
  have hkey : 0 ≤ ((hop ht i j off).buckets i).key := by
    rw [hop_key, if_pos rfl]
    exact ((((hopExact_iff ht).mp h).1).bits (i - j) off (by omega) hbit).2.2.1
  rw [displace, if_neg (by omega), hd]
  have hrule := displace_rule idx (fun _ t q => 0 ≤ (t.buckets i).key ∧ q < i) ?_ i (hop ht i j off)
    (i - j + off) ⟨hkey, hlow⟩ hge hlow
  · rcases hrule with ⟨t, r, hrun, _, _, _, hI, _⟩
    exact ⟨t, r, hrun, hI.1⟩
  · -- The later holes lie below the bucket.
    rintro _ t q j' off' ⟨hI, hq⟩ h6' hd'
    rcases donor_hop t idx q j' off' h6' hd' with ⟨_, _, _, _, _, _, hlow'⟩
    refine ⟨?_, Nat.lt_trans hlow' hq⟩
    rw [hop_key, if_neg (Nat.ne_of_gt hq)]
    exact hI

/-- An insert of an absent key leaves the table as it was if it fails just when
    it does not fail or makes no hop. -/
theorem insert_harmless_iff (ht : HashTable) (h : HopExact ht) (k d : Int) (hk : 0 ≤ k)
    (habs : ¬ Stored ht k) : Harmless ht k d ↔ Arrangeable ht k ∨ StuckAtOnce ht k := by
  rcases insert_room ht k _ ((hopExact_iff ht).mp h).1 d hk with ⟨ht', r, hrun, hr, hroom⟩
  rw [room_iff_arrangeable ht h k hk habs] at hroom
  have hidx := homeIdx_eq ht k hk
  -- Any other way to run it gives the same.
  have hreturns : ∀ t s, hopscotchInsert ht k d = some (t, s) → ht' = t ∧ r = s := by
    intro t s hts
    rw [hrun, Option.some.injEq, Prod.mk.injEq] at hts
    exact hts
  constructor
  · intro hharm
    rcases hharm with ⟨t, s, hts, hsame⟩
    rcases hreturns t s hts with ⟨rfl, rfl⟩
    by_cases hr0 : r = 0
    · exact Or.inl (hroom.mp hr0)
    refine Or.inr (fun i hi => ?_)
    rcases firstEmpty_spec ht _ _ i hi with ⟨hle, hlt, hempty⟩
    have hbefore := (hsame (hr.resolve_left hr0)).1 i (by omega)
    have hfailed : ∀ t p, displace (home k) (i + 1) ht i ≠ some (t, some p) := fun t p hd =>
      hr0 (hreturns _ _ (insert_stored ht k d _ hidx t i p hi hd)).2
    by_cases h6 : i - home k < hopscotchHopinfoSize
    · -- Within reach at once, so it has not failed.
      exact absurd (by rw [displace, if_pos h6]) (hfailed ht i)
    · refine ⟨Nat.not_lt.mp h6, ?_⟩
      cases hd : donor ht i (hopscotchHopinfoSize - 1) 1 with
      | none => rfl
      | some jo =>
          -- The first hop has filled the empty bucket.
          rcases displace_hopped ht h (home k) i jo.1 jo.2 (by omega) (Nat.not_lt.mp h6) hd with
            ⟨t, q, hdisp, hkey⟩
          cases q with
          | none =>
              rw [← (hreturns t _ (insert_stuck ht k d _ hidx t i hi hdisp)).1, hbefore,
                hempty] at hkey
              omega
          | some q => exact absurd hdisp (hfailed t q)
  · intro hcond
    refine ⟨ht', r, hrun, fun hr1 => ?_⟩
    have hna : ¬ Arrangeable ht k := fun ha => by
      have := hroom.mpr ha
      omega
    -- It has failed without a hop.
    have hsame : ht' = ht := by
      cases hfe : firstEmpty ht (ht.sz - home k) (home k) with
      | none => exact (hreturns ht _ (insert_full ht k d _ hidx hfe)).1
      | some i =>
          rcases hcond.resolve_left hna i hfe with ⟨h6, hd⟩
          have hdisp : displace (home k) (i + 1) ht i = some (ht, none) := by
            rw [displace, if_neg (by omega), hd]
          exact (hreturns ht _ (insert_stuck ht k d _ hidx ht i hfe hdisp)).1
    rw [hsame]
    exact ⟨fun _ _ => rfl, h.unique⟩

/-! ## Crowded tables -/

/-- Six keys of home 0 in its buckets. -/
def fullTable : HashTable :=
  filledTable (fun m => m * 4194304) 6

/-- These, and key 6 in its home. -/
def crowdedTable : HashTable :=
  filledTable (fun m => if m = 6 then 6 else (m : Int) * 4194304) 7

theorem fullTable_spec : HopExact fullTable ∧ ¬ Stored fullTable 25165824 :=
  filledTable_absent (fun m => m * 4194304) 6 (by decide) (by decide) (by decide) 25165824
    (by decide)

theorem crowdedTable_spec : HopExact crowdedTable ∧ ¬ Stored crowdedTable 25165824 :=
  filledTable_absent (fun m => if m = 6 then 6 else (m : Int) * 4194304) 7 (by decide) (by decide)
    (by decide) 25165824 (by decide)

/-- A seventh key of home 0 fails at once where no entry can be moved out of its
    way. -/
theorem insert_harmless_iff_fullTable :
    (hopscotchInsert fullTable 25165824 9).map Prod.snd = some (-1) ∧
      Harmless fullTable 25165824 9 :=
  ⟨by decide +kernel, (insert_harmless_iff fullTable fullTable_spec.1 25165824 9 (by decide)
    fullTable_spec.2).mpr (Or.inr (by decide +kernel))⟩

/-- With key 6 in its home the insert fails too, but after key 6 has been moved on
    to bucket 7 for it; it is in bucket 6 still. -/
theorem insert_leaves_copy : HopExact crowdedTable ∧ ¬ Stored crowdedTable 25165824 ∧
    ∃ ht', hopscotchInsert crowdedTable 25165824 9 = some (ht', -1) ∧
      (crowdedTable.buckets 7).key = -1 ∧ (ht'.buckets 6).key = 6 ∧ (ht'.buckets 7).key = 6 := by
  have hres : (hopscotchInsert crowdedTable 25165824 9).map
      (fun s => (s.2, (s.1.buckets 6).key, (s.1.buckets 7).key)) = some (-1, 6, 6) := by
    decide +kernel
  rcases Option.map_eq_some_iff.mp hres with ⟨⟨ht', r⟩, hrun, hs⟩
  simp only [Prod.mk.injEq] at hs
  rcases hs with ⟨rfl, h6, h7⟩
  exact ⟨crowdedTable_spec.1, crowdedTable_spec.2, ht', hrun, by decide +kernel, h6, h7⟩

end FaRM

end LocalKeyValue
