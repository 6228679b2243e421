import LocalKeyValue.FaRM.Versions
import LocalKeyValue.FaRM.Writes

/-!
# Snapshots of the FaRM Table

What a client may read while the server is in the middle of an operation. The
reader's check is meant to turn away buckets that are half-written, so that the
key and the data of one it accepts belong together.

For update and remove that is so. An update takes the lock before its first
store and releases it after its last, and a remove takes the key out first.

An insert takes no lock. The store at its end sets the versions and clears the
lock first, so that the bucket passes the check when the key is stored, with
the data still to come, and a hop stores key and data into a bucket that may
pass the check all along. So the first store of a key makes a pair of that key
and the data the bucket had. A snapshot with that pair is right only if that is
the data which is stored next.

## Main definitions

* `Fine`, `Untorn`: A bucket, and all buckets, may be accepted.
* `fillInPlace`, `inPlace`: Each bucket that receives a key while it passes the
  check holds the data that belongs to it.
* `Displacing`: The table and the hole in the course of a displacement.

## Theorems

* `throughout_writesTo`: Stores to one bucket, followed on that bucket.
* `hopFields_fine_iff`, `storeFields_fine_iff`: The stores that make a pair.
* `insert_untorn_iff`, `update_untorn`, `remove_untorn`: The operations.
* `insert_shows_half`: A reader is shown a pair that is in no map.
* `snapshots_untorn_iff`: Which operations show their readers whole pairs only.
-/

namespace LocalKeyValue

namespace FaRM

open Run

/-- The bucket holds no key, fails the reader's check, or holds a pair of `M`. -/
def Fine (M : Int → Int → Prop) (b : Bucket) : Prop :=
  0 ≤ b.key → ReaderAccepts b → M b.key b.data

/-- What a reader accepts is in `M`. -/
def Untorn (M : Int → Int → Prop) (ht : HashTable) : Prop :=
  ∀ p, p < ht.sz → Fine M (ht.buckets p)

theorem untorn_of_stores (M : Int → Int → Prop) (ht : HashTable)
    (h : ∀ k d, Stores ht k d → M k d) : Untorn M ht :=
  fun p hp hk _ => h _ _ ⟨hk, p, hp, rfl, rfl⟩

def fieldStep (b : Bucket) (f : FieldWrite) : Option Bucket :=
  some (f.set b)

/-- Stores to one bucket show a reader what that bucket goes through, if the
    others are fine. -/
theorem throughout_writesTo (M : Int → Int → Prop) (i : Nat) (fs : List FieldWrite)
    (ht : HashTable) (hi : i < ht.sz) (hrest : ∀ p, p < ht.sz → p ≠ i → Fine M (ht.buckets p)) :
    Throughout writeStep (Untorn M) (writesTo i fs) ht ↔
      Throughout fieldStep (Fine M) fs (ht.buckets i) := by
  -- The other buckets stay fine, so the table is fine when bucket `i` is.
  refine throughout_map writeStep fieldStep (Untorn M) (Fine M) (fun t => t.buckets i)
    (Write.mk i) (fun t => i < t.sz ∧ ∀ p, p < t.sz → p ≠ i → Fine M (t.buckets p))
    (fun t ht => ⟨fun h => h i ht.1, fun h p hp => ?_⟩) (fun t f ht => ?_) fs ht ⟨hi, hrest⟩
  · by_cases hpi : p = i
    · rw [hpi]
      exact h
    · exact ht.2 p hp hpi
  · refine ⟨_, rfl, ⟨ht.1, fun p hp hpi => ?_⟩, by rw [setBucket_self]; rfl⟩
    rw [setBucket_other _ _ _ p hpi]
    exact ht.2 p hp hpi

/-- Stores to `hopinfo` show a reader nothing. -/
theorem throughout_hopinfo (M : Int → Int → Prop) (i : Nat) (ws : List (BitVec 32))
    (ht : HashTable) (hi : i < ht.sz) (h : Untorn M ht) :
    Throughout writeStep (Untorn M) (writesTo i (ws.map .hopinfo)) ht := by
  rw [throughout_writesTo M i _ ht hi (fun p hp _ => h p hp)]
  have hfine : ∀ (ws : List (BitVec 32)) (b : Bucket), Fine M b →
      Throughout fieldStep (Fine M) (ws.map .hopinfo) b := by
    intro ws
    induction ws with
    | nil => exact fun b hb => hb
    | cons w ws ih => exact fun b hb => ⟨hb, ih _ hb⟩
  exact hfine ws _ (h i hi)

/-- Nor do they after stores to a bucket. -/
theorem throughout_writesTo_hopinfo (M : Int → Int → Prop) (i h : Nat) (fs : List FieldWrite)
    (ws : List (BitVec 32)) (ht : HashTable) (hi : i < ht.sz) (hh : h < ht.sz)
    (hM : Untorn M ht) :
    Throughout writeStep (Untorn M) (writesTo i fs ++ writesTo h (ws.map .hopinfo)) ht ↔
      Throughout fieldStep (Fine M) fs (ht.buckets i) := by
  have hrun := run_writesTo i fs ht
  rw [throughout_append writeStep _ _ _ ht _ hrun,
    ← throughout_writesTo M i fs ht hi (fun p hp _ => hM p hp)]
  constructor
  · intro hw
    exact hw.1
  · intro hw
    exact ⟨hw, throughout_hopinfo M h ws _ hh (throughout_last writeStep _ _ ht _ hrun hw)⟩

/-! ## The stores to one bucket -/

theorem updateFields_fine (M : Int → Int → Prop) (b : Bucket) (nval : Int) (hb : Fine M b)
    (hM : 0 ≤ b.key → M b.key nval) :
    Throughout fieldStep (Fine M) (updateFields b nval) b := by
  -- Up to the last store the bucket is locked.
  have hlock : ∀ b' : Bucket, b'.lock = 1 → Fine M b' := by
    intro b' h1 _ hacc
    exact absurd (hacc.1.symm.trans h1) (by decide)
  exact ⟨hb, hlock _ rfl, hlock _ rfl, hlock _ rfl, hlock _ rfl, fun hk _ => hM hk⟩

theorem removeFields_fine (M : Int → Int → Prop) (b : Bucket) (hb : Fine M b) :
    Throughout fieldStep (Fine M) [.key (-1), .data (-1)] b := by
  have hneg : ¬ (0 : Int) ≤ -1 := by decide
  exact ⟨hb, fun hk => absurd hk hneg, fun hk => absurd hk hneg⟩

/-- The first store of a hop pairs the key with the data of the hole. -/
theorem hopFields_fine_iff (M : Int → Int → Prop) (b src : Bucket) (hb : Fine M b)
    (hk : 0 ≤ src.key) (hM : M src.key src.data) :
    Throughout fieldStep (Fine M) (hopFields src) b ↔ (ReaderAccepts b → M src.key b.data) := by
  constructor
  · intro h hacc
    exact h.2.1 hk hacc
  · intro h
    -- From the second store on the pair is the one that is moved.
    exact ⟨hb, fun _ => h, fun _ _ => hM, fun _ _ => hM, fun _ _ => hM, fun _ _ => hM⟩

/-- The store of the new key pairs it with the data of the hole, in a bucket
    that passes the check. -/
theorem storeFields_fine_iff (M : Int → Int → Prop) (b : Bucket) (key data : Int)
    (hb : 0 ≤ b.key → M b.key b.data) (hM : 0 ≤ key → M key data) :
    Throughout fieldStep (Fine M) (storeFields key data) b ↔ (0 ≤ key → M key b.data) := by
  constructor
  · intro h hk
    exact h.2.2.2.2.1 hk ⟨rfl, rfl⟩
  · intro h
    exact ⟨fun hk _ => hb hk, fun hk _ => hb hk, fun hk _ => hb hk, fun hk _ => hb hk,
      fun hk _ => h hk, fun hk _ => hM hk⟩

/-! ## Displacement -/

/-- The table and the hole in the course of a displacement that began with `ht`.
    The table holds the pairs it held, and what key the hole still holds, some
    other bucket holds with its data. -/
structure Displacing (ht t : HashTable) (q : Nat) : Prop where
  hole : ExactHole (fun _ => False) 0 t q
  same : ∀ k d, Stores t k d ↔ Stores ht k d
  copy : 0 ≤ (t.buckets q).key → ∃ p, p < t.sz ∧ p ≠ q ∧
    (t.buckets p).key = (t.buckets q).key ∧ (t.buckets p).data = (t.buckets q).data

/-- A hop's donor is in the array and holds the pair it is asked for. -/
theorem hop_source (ht t : HashTable) (idx q j off : Nat) (h : Displacing ht t q)
    (h6 : hopscotchHopinfoSize ≤ q - idx)
    (hd : donor t q (hopscotchHopinfoSize - 1) 1 = some (j, off)) :
    q - j + off < q ∧ q - j < t.sz ∧
      Stores ht (t.buckets (q - j + off)).key (t.buckets (q - j + off)).data := by
  rcases donor_hop t idx q j off h6 hd with ⟨_, _, _, _, _, _, hlt⟩
  have htrue := (hopInvariant_exact idx (fun _ => False)).trueBit 0 t q j off h.hole h6 hd
  have hq := h.hole.1
  exact ⟨hlt, by omega, (h.same _ _).mp ⟨htrue.1, _, Nat.lt_trans hlt hq, rfl, rfl⟩⟩

/-- A hop leaves a second copy of the pair where the hole now is. -/
theorem displacing_hop (ht t : HashTable) (idx q j off : Nat) (h : Displacing ht t q)
    (h6 : hopscotchHopinfoSize ≤ q - idx)
    (hd : donor t q (hopscotchHopinfoSize - 1) 1 = some (j, off)) :
    Displacing ht (hop t q j off) (q - j + off) := by
  rcases hop_source ht t idx q j off h h6 hd with ⟨hlt, _, _⟩
  have hne : q - j + off ≠ q := by omega
  have hq := h.hole.1
  refine ⟨(hopInvariant_exact idx _).hop 0 t q j off h.hole hq h6 hd, fun k d => ?_, fun _ => ?_⟩
  · rw [← h.same k d]
    constructor
    · -- The hole has taken over a pair the table holds.
      intro hs
      rcases hs with ⟨hk, p, hp, hkey, hdata⟩
      rw [hop_key] at hkey
      rw [hop_data] at hdata
      by_cases hpq : p = q
      · rw [if_pos hpq] at hkey hdata
        exact ⟨hk, q - j + off, by omega, hkey, hdata⟩
      · rw [if_neg hpq] at hkey hdata
        exact ⟨hk, p, hp, hkey, hdata⟩
    · intro hs
      rcases hs with ⟨hk, p, hp, hkey, hdata⟩
      -- The pair may be the hole's, and then it is elsewhere too.
      have hother : ∃ p', p' < t.sz ∧ p' ≠ q ∧ (t.buckets p').key = k ∧
          (t.buckets p').data = d := by
        by_cases hpq : p = q
        · rw [hpq] at hkey hdata
          rcases h.copy (by rw [hkey]; exact hk) with ⟨p', hp', hne', hk', hd'⟩
          exact ⟨p', hp', hne', hk'.trans hkey, hd'.trans hdata⟩
        · exact ⟨p, hp, hpq, hkey, hdata⟩
      rcases hother with ⟨p', hp', hne', hk', hd'⟩
      exact ⟨hk, p', hp', by rw [hop_key, if_neg hne']; exact hk',
        by rw [hop_data, if_neg hne']; exact hd'⟩
  · refine ⟨q, hq, Ne.symm hne, ?_, ?_⟩
    · rw [hop_key, hop_key, if_pos rfl, if_neg hne]
    · rw [hop_data, hop_data, if_pos rfl, if_neg hne]

/-- The probe of an insert into a hop-exact table starts a displacement. -/
theorem displacing_start (ht : HashTable) (h : HopExact ht) (idx i : Nat)
    (hi : firstEmpty ht (ht.sz - idx) idx = some i) : Displacing ht ht i := by
  rcases firstEmpty_spec ht _ _ i hi with ⟨_, _, hempty⟩
  refine ⟨exactHole_start ht _ ((hopExact_iff ht).mp h).1 idx i hi, fun _ _ => Iff.rfl,
    fun hk => ?_⟩
  rw [hempty] at hk
  exact absurd hk (by decide)

/-- A displacement ends, with the table and the hole as they may be in its
    course. -/
theorem displace_displacing (ht : HashTable) (idx i : Nat) (h : Displacing ht ht i)
    (hle : idx ≤ i) :
    ∃ t r, displace idx (i + 1) ht i = some (t, r) ∧
      (∀ k d, Stores t k d ↔ Stores ht k d) ∧
      ∀ i', r = some i' → Displacing ht t i' := by
  rcases displace_rule idx (fun _ t q => Displacing ht t q)
    (fun _ t q j off hI h6 hd => displacing_hop ht t idx q j off hI h6 hd) (i + 1) ht i h hle
    (by omega) with ⟨t, r, hrun, _, _, i', hI, _, _, hend⟩
  refine ⟨t, r, hrun, hI.same, fun i'' hr => ?_⟩
  rcases hend with ⟨hr', _⟩ | ⟨hr', _⟩
  · rw [hr, Option.some.injEq] at hr'
    rw [hr']
    exact hI
  · rw [hr] at hr'
    exact absurd hr' (by simp only [reduceCtorEq, not_false_eq_true])

/-! ## Inserts -/

/-- From a hole on: a bucket that receives a key by a hop fails the reader's
    check or holds the data that comes with the key, and the one that receives
    the new key holds the new data. -/
def fillInPlace (idx : Nat) (key data : Int) : Nat → HashTable → Nat → Bool
  | 0, _, _ => true
  | fuel + 1, ht, i =>
    if i - idx < hopscotchHopinfoSize then decide (0 ≤ key → (ht.buckets i).data = data)
    else match donor ht i (hopscotchHopinfoSize - 1) 1 with
      | none => true
      | some (j, off) =>
        decide (ReaderAccepts (ht.buckets i) →
          (ht.buckets i).data = (ht.buckets (i - j + off)).data) &&
          fillInPlace idx key data fuel (hop ht i j off) (i - j + off)

def insertInPlace (ht : HashTable) (key data : Int) : Bool :=
  match firstEmpty ht (ht.sz - ht.homeIdx key) (ht.homeIdx key) with
  | none => true
  | some i => fillInPlace (ht.homeIdx key) key data (i + 1) ht i

/-- The stores of an insert from a hole on, seen by a reader who is to find the
    pairs of the table before and, if it is stored, the new one. -/
theorem fillWrites_untorn_iff (ht : HashTable) (M : Int → Int → Prop) (idx : Nat) (key data : Int)
    (hold : ∀ k d, Stores ht k d → M k d) (hone : ∀ k d d', Stores ht k d → M k d' → d' = d) :
    ∀ (fuel : Nat) (t t' : HashTable) (i : Nat) (r : Option Nat), Displacing ht t i → idx < t.sz →
      displace idx fuel t i = some (t', r) → (r ≠ none → 0 ≤ key → ∀ d, M key d ↔ d = data) →
      (Throughout writeStep (Untorn M) (fillWrites idx key data fuel t i) t ↔
        fillInPlace idx key data fuel t i = true) := by
  intro fuel
  induction fuel with
  | zero => intro t t' i r _ _ h _; simp only [displace, reduceCtorEq] at h
  | succ fuel ih =>
      intro t t' i r hdis hidx h hnew
      have hM : Untorn M t := untorn_of_stores M t (fun k d hs => hold k d ((hdis.same k d).mp hs))
      rw [displace] at h
      rw [fillWrites, fillInPlace]
      by_cases h6 : i - idx < hopscotchHopinfoSize
      · -- The hole is filled with the new pair.
        rw [if_pos h6, Option.some.injEq, Prod.mk.injEq] at h
        have hnew' := hnew (by rw [← h.2]; exact Option.some_ne_none i)
        rw [if_pos h6, if_pos h6, decide_eq_true_eq, storeWrites]
        have hstore := throughout_writesTo_hopinfo M i idx (storeFields key data)
          [setBit (t.buckets idx).hopinfo (i - idx)] t hdis.hole.1 hidx hM
        rw [List.map_singleton] at hstore
        rw [hstore, storeFields_fine_iff M _ key data
          (fun hk => hold _ _ ((hdis.same _ _).mp ⟨hk, i, hdis.hole.1, rfl, rfl⟩))
          (fun hk => (hnew' hk data).mpr rfl)]
        exact forall_congr' (fun hk => hnew' hk _)
      · rw [if_neg h6] at h ⊢
        rw [if_neg h6]
        cases hd : donor t i (hopscotchHopinfoSize - 1) 1 with
        | none => exact iff_of_true hM rfl
        | some jo =>
            rcases jo with ⟨j, off⟩
            simp only [hd] at h ⊢
            rcases hop_source ht t idx i j off hdis (by omega) hd with ⟨_, hlt, hsrc⟩
            -- One hop, and the rest from the hole it leaves.
            rw [throughout_append writeStep _ _ _ t _ (run_hopWrites t i j off),
              ih _ t' _ r (displacing_hop ht t idx i j off hdis (by omega) hd) hidx h hnew,
              Bool.and_eq_true, decide_eq_true_eq, hopWrites]
            have hhop := throughout_writesTo_hopinfo M i (i - j)
              (hopFields (t.buckets (i - j + off)))
              [clearBit (t.buckets (i - j)).hopinfo off,
                setBit (clearBit (t.buckets (i - j)).hopinfo off) j] t hdis.hole.1 hlt hM
            rw [List.map_cons, List.map_singleton] at hhop
            rw [hhop, hopFields_fine_iff M _ _ (hM i hdis.hole.1) hsrc.1 (hold _ _ hsrc)]
            refine and_congr_left' (forall_congr' (fun _ => ⟨hone _ _ _ hsrc, fun hc => ?_⟩))
            rw [hc]
            exact hold _ _ hsrc

/-- The pairs a reader may be shown in the course of an operation. -/
def BeforeOrAfter (ht ht' : HashTable) (k d : Int) : Prop :=
  Stores ht k d ∨ Stores ht' k d

theorem stores_store_self (ht : HashTable) (idx i : Nat) (key data : Int) (hi : i < ht.sz)
    (hk : 0 ≤ key) : Stores (store ht idx i key data) key data :=
  ⟨hk, i, hi, by rw [store_key, if_pos rfl], by rw [store_data, if_pos rfl]⟩

theorem stores_unique (ht : HashTable) (h : HopExact ht) (k d d' : Int) (hd : Stores ht k d)
    (hd' : Stores ht k d') : d' = d := by
  rcases hd with ⟨hk, p, hp, hkp, hdp⟩
  rcases hd' with ⟨_, q, hq, hkq, hdq⟩
  have hpq := h.unique p q hp hq (by rw [hkp]; exact hk) (hkp.trans hkq.symm)
  rw [← hdp, ← hdq, hpq]

/-- An insert shows its readers whole pairs just when each bucket that receives
    a key while it passes the check holds the key's data. -/
theorem insert_untorn_iff (ht ht' : HashTable) (h : HopExact ht) (key data r : Int)
    (habs : ¬ Stored ht key) (hrun : hopscotchInsert ht key data = some (ht', r)) :
    Throughout writeStep (Untorn (BeforeOrAfter ht ht')) (insertWrites ht key data) ht ↔
      insertInPlace ht key data = true := by
  rw [insertWrites, insertInPlace]
  cases hfe : firstEmpty ht (ht.sz - ht.homeIdx key) (ht.homeIdx key) with
  | none => exact iff_of_true (untorn_of_stores _ ht (fun _ _ hs => Or.inl hs)) rfl
  | some i =>
      rcases firstEmpty_spec ht _ _ i hfe with ⟨hle, hlt, _⟩
      have hstart := displacing_start ht h _ i hfe
      rcases displace_displacing ht _ i hstart hle with ⟨t, r1, hd, hsame, hend⟩
      have hht : ht' = filled (ht.homeIdx key) key data t r1 := by
        cases r1 with
        | none =>
            rw [insert_stuck ht key data _ rfl t i hfe hd, Option.some.injEq, Prod.mk.injEq] at hrun
            exact hrun.1.symm
        | some i' =>
            rw [insert_stored ht key data _ rfl t i i' hfe hd, Option.some.injEq,
              Prod.mk.injEq] at hrun
            exact hrun.1.symm
      -- The table after has the pairs of the table before, and the new one if it is stored.
      have hafter : ∀ k d, Stores ht' k d → Stores ht k d ∨ (k = key ∧ d = data) := by
        intro k d hs
        rw [hht] at hs
        cases r1 with
        | none => exact Or.inl ((hsame k d).mp hs)
        | some i' => exact (stores_store t _ i' key data k d hs).imp_left (hsame k d).mp
      refine fillWrites_untorn_iff ht _ _ key data (fun _ _ hs => Or.inl hs)
        (fun k d d' hs hs' => ?_) (i + 1) ht t i r1 hstart (by omega) hd (fun hr hk d => ⟨?_, ?_⟩)
      · -- A stored key has the same data after the insert.
        rcases hs' with hs' | hs'
        · exact stores_unique ht h k d d' hs hs'
        · rcases hafter k d' hs' with hs' | ⟨rfl, _⟩
          · exact stores_unique ht h k d d' hs hs'
          · exact absurd ⟨d, hs⟩ habs
      · -- The new key has no data but its own.
        intro hs
        rcases hs with hs | hs
        · exact absurd ⟨d, hs⟩ habs
        · rcases hafter key d hs with hs | ⟨_, hdata⟩
          · exact absurd ⟨d, hs⟩ habs
          · exact hdata
      · rintro rfl
        rcases Option.ne_none_iff_exists'.mp hr with ⟨i', hi'⟩
        rw [hht, hi']
        exact Or.inr (stores_store_self t _ i' key d (hend i' hi').hole.1 hk)

/-! ## Updates and removes -/

theorem update_untorn (ht ht' : HashTable) (key nval r : Int)
    (hrun : hopscotchUpdate ht key nval = some (ht', r)) :
    Throughout writeStep (Untorn (BeforeOrAfter ht ht')) (updateWrites ht key nval) ht := by
  have hM : Untorn (BeforeOrAfter ht ht') ht := untorn_of_stores _ ht (fun _ _ hs => Or.inl hs)
  rw [hopscotchUpdate] at hrun
  rw [updateWrites]
  rcases hf : findFrom ht (ht.homeIdx key) key with _ | _ | d
  · exact hM
  · exact hM
  · rcases findFrom_sound ht _ key d hf with ⟨_, _, hsz, _⟩
    simp only [hf, Option.some.injEq, Prod.mk.injEq] at hrun
    refine (throughout_writesTo _ _ _ ht hsz (fun p hp _ => hM p hp)).mpr
      (updateFields_fine _ _ nval (hM _ hsz) (fun hk => Or.inr ?_))
    -- The bucket's new pair is in the table after.
    rw [← hrun.1]
    exact ⟨hk, _, hsz, by rw [setBucket_self]; rfl, by rw [setBucket_self]; rfl⟩

theorem remove_untorn (ht ht' : HashTable) (key : Int) :
    Throughout writeStep (Untorn (BeforeOrAfter ht ht')) (removeWrites ht key) ht := by
  have hM : Untorn (BeforeOrAfter ht ht') ht := untorn_of_stores _ ht (fun _ _ hs => Or.inl hs)
  rw [removeWrites]
  rcases hb : ht.bucket? (ht.homeIdx key &&& (ht.sz - 1)) with _ | b
  · exact hM
  · rcases bucket?_eq_some ht _ b hb with ⟨hidx, _⟩
    by_cases h0 : b.hopinfo = 0
    · simp only [if_pos h0]
      exact hM
    · simp only [if_neg h0]
      rcases hf : findBucket ht (ht.homeIdx key &&& (ht.sz - 1)) key hopscotchHopinfoSize 0 with
        _ | _ | d
      · exact hM
      · exact hM
      · rcases findBucket_sound ht _ key _ 0 d hf with ⟨_, _, _, hsz, _⟩
        -- A reader does not look at the bit that is cleared first.
        have hrun := run_writesTo (ht.homeIdx key &&& (ht.sz - 1)) [.hopinfo (clearBit b.hopinfo d)]
          ht
        have hclear := throughout_hopinfo _ _ [clearBit b.hopinfo d] ht hidx hM
        have hM' := throughout_last writeStep _ _ ht _ hrun hclear
        refine (throughout_append writeStep _ _ _ ht _ hrun).mpr ⟨hclear,
          (throughout_writesTo _ _ _ _ ?_ (fun p hp _ => hM' p hp)).mpr
            (removeFields_fine _ _ (hM' _ ?_))⟩ <;>
          exact hsz

/-! ## All operations -/

/-- An insert is of a key that is not stored. -/
def insertsAbsent (ht : HashTable) : TableOp → Prop
  | .insert key _ => ¬ Stored ht key
  | _ => True

/-- The condition for an insert; the other calls need none. -/
def inPlace (ht : HashTable) : TableOp → Bool
  | .insert key data => insertInPlace ht key data
  | _ => true

/-- Data 7 goes to a bucket with data -1, and the reader who comes after the
    key has been stored and before the data accepts the pair of 5 and -1. -/
theorem insert_shows_half :
    ¬ ∀ ht op ht', HopExact ht → Stable ht → insertsAbsent ht op → callTable ht op = some ht' →
      Throughout writeStep (Untorn (BeforeOrAfter ht ht')) (callWrites ht op) ht := by
  intro h
  have hstable : Stable emptyTable := fun p _ hk => absurd hk (by rw [emptyTable_key]; decide)
  have hrun : hopscotchInsert emptyTable 5 7 = some (store emptyTable 5 5 5 7, 0) := by
    rfl
  have hall := h emptyTable (.insert 5 7) (store emptyTable 5 5 5 7) hopExact_emptyTable hstable
    (not_stored_emptyTable 5) (by rw [callTable, hrun]; rfl)
  -- The exact condition, decided for this insert.
  have hplace := (insert_untorn_iff emptyTable _ hopExact_emptyTable 5 7 0
    (not_stored_emptyTable 5) hrun).mp hall
  exact absurd hplace (by decide +kernel)

/-- A call on a hop-exact table is its stores, and between any two of them a
    reader accepts only pairs of the table before or after it just when, in an
    insert, each bucket that receives a key while it passes the check holds the
    data that belongs to the key. -/
theorem snapshots_untorn_iff (ht ht' : HashTable) (op : TableOp) (h : HopExact ht)
    (habs : insertsAbsent ht op) (hcall : callTable ht op = some ht') :
    run writeStep (callWrites ht op) ht = some ht' ∧
      (Throughout writeStep (Untorn (BeforeOrAfter ht ht')) (callWrites ht op) ht ↔
        inPlace ht op = true) := by
  refine ⟨run_callWrites ht ht' op hcall, ?_⟩
  cases op with
  | insert key data =>
      rcases Option.map_eq_some_iff.mp hcall with ⟨⟨t, r⟩, hrun, rfl⟩
      exact insert_untorn_iff ht t h key data r habs hrun
  | update key nval =>
      rcases Option.map_eq_some_iff.mp hcall with ⟨⟨t, r⟩, hrun, rfl⟩
      exact iff_of_true (update_untorn ht t key nval r hrun) rfl
  | remove key => exact iff_of_true (remove_untorn ht ht' key) rfl

/-- The data of an empty bucket is -1, and that may be inserted. -/
theorem snapshots_untorn_iff_sameData : Throughout writeStep
    (Untorn (BeforeOrAfter emptyTable (store emptyTable 5 5 5 (-1))))
      (callWrites emptyTable (.insert 5 (-1))) emptyTable :=
  (snapshots_untorn_iff emptyTable _ (.insert 5 (-1)) hopExact_emptyTable
    (not_stored_emptyTable 5) (by rfl)).2.mpr (by decide +kernel)

end FaRM

end LocalKeyValue
