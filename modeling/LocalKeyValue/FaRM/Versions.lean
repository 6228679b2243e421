import LocalKeyValue.FaRM.TableRun

/-!
# The Version Check of FaRM Buckets

A bucket has a version in its header, of 64 bits, and one after its data, of 8.
An update counts both up, and a client that reads a bucket over the network is
to accept it if it is not locked and the two are equal, which says that no
update was under way.

The two are equal as long as neither wraps around, and the short one does at
256. An insert starts both at 1 and displacement copies them, so the 255th
update of a key since its insert leaves the header at 256 and the other at 0,
and the bucket fails the check at rest. Up to there every occupied bucket
passes it, stale copies a failed insert has left behind included.

## Main definitions

* `ReaderAccepts`: The reader's check.
* `Stable`: Every occupied bucket passes it.
* `counterFits`: An update finds its bucket's version below 255.

## Theorems

* `readerAccepts_updated_iff`: The check after one update.
* `stable_insert`, `stable_update_iff`, `stable_remove`: The operations.
* `update_wraps_version`: 255 updates are too many.
* `stable_iff`: The buckets are stable throughout just when no counter wraps.
-/

namespace LocalKeyValue

namespace FaRM

open Run

/-- `!lock && header_version == c_ver`, where C widens `c_ver`. -/
def ReaderAccepts (b : Bucket) : Prop :=
  b.lock = 0 ∧ b.headerVersion = b.cVer.setWidth 64

instance (b : Bucket) : Decidable (ReaderAccepts b) :=
  inferInstanceAs (Decidable (_ ∧ _))

/-- Every occupied bucket passes the reader's check. -/
def Stable (ht : HashTable) : Prop :=
  ∀ p, p < ht.sz → 0 ≤ (ht.buckets p).key → ReaderAccepts (ht.buckets p)

/-- The check looks at a bucket's payload alone. -/
theorem readerAccepts_congr (b b' : Bucket) (h : payload b = payload b') :
    ReaderAccepts b ↔ ReaderAccepts b' := by
  simp only [payload, Payload.mk.injEq] at h
  rw [ReaderAccepts, ReaderAccepts, h.2.1, h.2.2.1, h.2.2.2]

/-- Counting up keeps the two versions equal until the short one wraps. -/
theorem readerAccepts_updated_iff (b : Bucket) (nval : Int) (h : ReaderAccepts b) :
    ReaderAccepts (updated b nval) ↔ b.headerVersion ≠ 255 := by
  rcases h with ⟨_, hver⟩
  have hlt := b.cVer.isLt
  rw [ReaderAccepts, updated, hver]
  -- The two sums as numbers, one modulo `2^64` and the other modulo `2^8`.
  simp only [true_and, ne_eq, ← BitVec.toNat_inj, BitVec.toNat_add, BitVec.toNat_setWidth,
    BitVec.ofNat_eq_ofNat, BitVec.toNat_ofNat]
  omega

/-! ## The operations -/

/-- A bucket that has taken over key and payload of another passes if that one
    does. -/
theorem stable_hop (ht : HashTable) (i j off : Nat) (h : Stable ht) (hi : i < ht.sz)
    (hoff : off < j) (hji : j ≤ i) : Stable (hop ht i j off) := by
  intro p hp hk
  rw [hop_key] at hk
  by_cases hpi : p = i
  · rw [if_pos hpi] at hk
    have hpay := hop_payload ht i j off p
    rw [if_pos hpi] at hpay
    -- The hole now has what its source has.
    exact (readerAccepts_congr _ _ hpay).mpr (h _ (by omega) hk)
  · rw [if_neg hpi] at hk
    have hpay := hop_payload ht i j off p
    rw [if_neg hpi] at hpay
    exact (readerAccepts_congr _ _ hpay).mpr (h p hp hk)

theorem stable_store (ht : HashTable) (idx i : Nat) (key data : Int) (h : Stable ht) :
    Stable (store ht idx i key data) := by
  intro p hp hk
  have hpay := store_payload ht idx i key data p
  by_cases hpi : p = i
  · -- The new bucket has version 1 twice and is not locked.
    simp only [if_pos hpi, payload, Payload.mk.injEq] at hpay
    rw [ReaderAccepts, hpay.2.1, hpay.2.2.1, hpay.2.2.2]
    decide
  · rw [store_key, if_neg hpi] at hk
    rw [if_neg hpi] at hpay
    exact (readerAccepts_congr _ _ hpay).mpr (h p hp hk)

theorem stable_insert (ht ht' : HashTable) (key data r : Int) (h : Stable ht)
    (hrun : hopscotchInsert ht key data = some (ht', r)) : Stable ht' := by
  cases hfe : firstEmpty ht (ht.sz - ht.homeIdx key) (ht.homeIdx key) with
  | none =>
      rw [insert_full ht key data _ rfl hfe, Option.some.injEq, Prod.mk.injEq] at hrun
      exact hrun.1 ▸ h
  | some i =>
      rcases firstEmpty_spec ht _ _ i hfe with ⟨hle, hlt, _⟩
      -- Each hop keeps the buckets stable and the hole inside the array.
      have hhop : ∀ (fuel : Nat) (t : HashTable) (q j off : Nat), Stable t ∧ q < t.sz →
          hopscotchHopinfoSize ≤ q - ht.homeIdx key →
          donor t q (hopscotchHopinfoSize - 1) 1 = some (j, off) →
          Stable (hop t q j off) ∧ q - j + off < (hop t q j off).sz := by
        intro fuel t q j off hq h6 hd
        rcases donor_hop t _ q j off h6 hd with ⟨_, _, hjq, hoff, _, _, hlt'⟩
        exact ⟨stable_hop t q j off hq.1 hq.2 hoff hjq, Nat.lt_trans hlt' hq.2⟩
      rcases displace_rule (ht.homeIdx key) (fun _ t q => Stable t ∧ q < t.sz) hhop (i + 1) ht i
        ⟨h, by omega⟩ hle (by omega) with ⟨ht1, r1, hd, _, _, _, ⟨hs, _⟩, _⟩
      cases r1 with
      | none =>
          rw [insert_stuck ht key data _ rfl ht1 i hfe hd, Option.some.injEq, Prod.mk.injEq] at hrun
          exact hrun.1 ▸ hs
      | some i' =>
          rw [insert_stored ht key data _ rfl ht1 i i' hfe hd, Option.some.injEq,
            Prod.mk.injEq] at hrun
          exact hrun.1 ▸ stable_store ht1 _ i' key data hs

theorem stable_removed (ht : HashTable) (idx d : Nat) (h : Stable ht) :
    Stable (removed ht idx d) := by
  intro p hp hk
  by_cases hpd : p = idx + d
  · rw [hpd, removed_key_self] at hk
    exact absurd hk (by decide)
  · rcases removed_other ht idx d p hpd with ⟨hkey, hpay⟩
    rw [hkey] at hk
    exact (readerAccepts_congr _ _ hpay).mpr (h p hp hk)

theorem stable_remove (ht ht' : HashTable) (key r : Int) (h : Stable ht) (hk : 0 ≤ key)
    (hexp : ht.exponent = hopscotchInitBsizeExponent)
    (hrun : hopscotchRemove ht key = some (ht', r)) : Stable ht' := by
  have hidx : ht.homeIdx key < ht.sz := by
    rw [homeIdx_eq ht key hk]
    exact home_lt_sz ht hexp key
  rw [hopscotchRemove_eq ht key hidx] at hrun
  rcases hf : findFrom ht (ht.homeIdx key) key with _ | _ | d
  · simp only [hf, reduceCtorEq] at hrun
  · simp only [hf, Option.some.injEq, Prod.mk.injEq] at hrun
    exact hrun.1 ▸ h
  · simp only [hf, Option.some.injEq, Prod.mk.injEq] at hrun
    exact hrun.1 ▸ stable_removed ht _ d h

/-- The version the update of a key would count up, if it finds the key. -/
def foundVersion (ht : HashTable) (key : Int) : Option (BitVec 64) :=
  match findFrom ht (ht.homeIdx key) key with
  | some (some i) => some (ht.buckets (ht.homeIdx key + i)).headerVersion
  | _ => none

theorem stable_update_iff (ht ht' : HashTable) (key nval r : Int) (h : Stable ht) (hk : 0 ≤ key)
    (hrun : hopscotchUpdate ht key nval = some (ht', r)) :
    Stable ht' ↔ foundVersion ht key ≠ some 255 := by
  rw [hopscotchUpdate] at hrun
  unfold foundVersion
  rcases hf : findFrom ht (ht.homeIdx key) key with _ | _ | d
  · simp only [hf, reduceCtorEq] at hrun
  · simp only [hf, Option.some.injEq, Prod.mk.injEq] at hrun
    exact iff_of_true (hrun.1 ▸ h) (by simp only [ne_eq, reduceCtorEq, not_false_eq_true])
  · simp only [hf, Option.some.injEq, Prod.mk.injEq] at hrun
    rcases findFrom_sound ht _ key d hf with ⟨_, _, hsz, hkey⟩
    have hiff := readerAccepts_updated_iff _ nval (h _ hsz (by rw [hkey]; exact hk))
    simp only [ne_eq, Option.some.injEq]
    rw [← ne_eq, ← hiff, ← hrun.1]
    constructor
    · intro hs
      have hb := hs (ht.homeIdx key + d) hsz
      rw [setBucket_self] at hb
      exact hb (by rw [updated, hkey]; exact hk)
    · -- No other bucket changes.
      intro hb p hp hkp
      by_cases hpd : p = ht.homeIdx key + d
      · rw [hpd, setBucket_self]
        exact hb
      · rw [setBucket_other _ _ _ p hpd] at hkp ⊢
        exact h p hp hkp

/-! ## Runs from a table with no keys -/

theorem exactHonest_of_vacant (ht : HashTable) (h : Vacant ht) :
    ExactHonest (ht, fun _ => none) :=
  ⟨honest_of_no_entries ht (entries_of_vacant ht h), fun _ => False, exact_of_vacant ht h⟩

/-- An update finds its key's bucket, if any, with a version other than 255. -/
def counterFits (s : HashTable × Ledger) : TableOp → Prop
  | .update key _ => foundVersion s.1 key ≠ some 255
  | _ => True

instance (s : HashTable × Ledger) (op : TableOp) : Decidable (counterFits s op) :=
  match op with
  | .update key _ => inferInstanceAs (Decidable (foundVersion s.1 key ≠ some 255))
  | .insert _ _ => isTrue trivial
  | .remove _ => isTrue trivial

/-- One call on a stable table. -/
theorem stable_step_iff (s s' : HashTable × Ledger) (op : TableOp) (h : Stable s.1)
    (hexp : s.1.exponent = hopscotchInitBsizeExponent) (hok : allowed s op)
    (hstep : tableStep s op = some s') : Stable s'.1 ↔ counterFits s op := by
  cases op with
  | insert key data =>
      rcases hr : hopscotchInsert s.1 key data with _ | ⟨ht', r⟩
      · simp only [tableStep, hr, reduceCtorEq] at hstep
      · simp only [tableStep, hr, Option.some.injEq] at hstep
        rw [← hstep]
        exact iff_of_true (stable_insert s.1 ht' key data r h hr) trivial
  | update key nval =>
      rcases hr : hopscotchUpdate s.1 key nval with _ | ⟨ht', r⟩
      · simp only [tableStep, hr, reduceCtorEq] at hstep
      · simp only [tableStep, hr, Option.some.injEq] at hstep
        rw [← hstep]
        exact stable_update_iff s.1 ht' key nval r h hok hr
  | remove key =>
      rcases hr : hopscotchRemove s.1 key with _ | ⟨ht', r⟩
      · simp only [tableStep, hr, reduceCtorEq] at hstep
      · simp only [tableStep, hr, Option.some.injEq] at hstep
        rw [← hstep]
        exact iff_of_true (stable_remove s.1 ht' key r h hok hexp hr) trivial

/-- A key, inserted and updated 255 times. -/
def wrappingUpdates : List TableOp :=
  .insert 5 7 :: List.replicate 255 (.update 5 8)

theorem update_wraps_version :
    ¬ ∀ ops, Along tableStep allowed ops (emptyTable, fun _ => none) →
      ∀ s, run tableStep ops (emptyTable, fun _ => none) = some s → Stable s.1 := by
  intro h
  -- The header has come to 256, which is 0 in 8 bits.
  have hres : (run tableStep wrappingUpdates (emptyTable, fun _ => none)).map
      (fun s => (s.1.exponent, s.1.buckets 5)) =
        some (22, ⟨5, 256, 8, 0, 0, 1⟩) := by
    decide +kernel
  rcases Option.map_eq_some_iff.mp hres with ⟨s, hrun, hs⟩
  rw [Prod.mk.injEq] at hs
  have hacc := h wrappingUpdates (by decide +kernel) s hrun 5 (by rw [HashTable.sz, hs.1]; decide)
    (by rw [hs.2]; decide)
  rw [hs.2] at hacc
  exact absurd hacc (by decide)

/-- From a table with no keys, every occupied bucket passes the reader's check
    in every state of a run just when no update of it finds its key's bucket
    with version 255. -/
theorem stable_iff (ht : HashTable) (h : Vacant ht) (ops : List TableOp)
    (hok : Along tableStep allowed ops (ht, fun _ => none)) :
    Throughout tableStep (fun s => Stable s.1) ops (ht, fun _ => none) ↔
      Along tableStep counterFits ops (ht, fun _ => none) := by
  refine throughout_iff_along_of tableStep allowed counterFits ExactHonest (fun s => Stable s.1) ?_
    ops (ht, fun _ => none) (exactHonest_of_vacant ht h) ?_ hok
  · intro s op hI hs hop
    -- The call goes through, and whether it keeps the buckets stable is the step lemma.
    rcases exactHonest_step s hI op hop with ⟨s', hstep, hI'⟩
    rcases hI with ⟨_, _, hE⟩
    rw [← stable_step_iff s s' op hs hE.exponent hop hstep]
    simp only [hstep, Option.some.injEq, exists_eq_left', forall_eq', hI', implies_true, and_self]
  · intro p hp hk
    rw [h.keys p hp] at hk
    exact absurd hk (by decide)

/-- One update fewer than too many, and after a second insert one more. -/
theorem stable_iff_beforeWrap : Throughout tableStep (fun s => Stable s.1)
    (.insert 5 7 :: List.replicate 254 (.update 5 8) ++ [.remove 5, .insert 5 9, .update 5 10])
      (emptyTable, fun _ => none) :=
  (stable_iff emptyTable vacant_emptyTable _ (by decide +kernel)).mpr (by decide +kernel)

end FaRM

end LocalKeyValue
