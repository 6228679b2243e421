import LocalKeyValue.Pilaf.Chain

/-!
# Chains That Are Cut Off

What a call of `place` that declares a cycle has done to the table. Each call
has overwritten a bucket, and the key left out at the end is some key of the
cycle, so the table is as before only if the chain has come round: every bucket
it wrote in holds its old key again, and the old bucket said already what `place`
writes into a bucket, this call's value included.

All three hash functions are one, so the keys of one residue share three
buckets, and the chain goes round in these. The tables overlap in a bucket,
which is that of the greatest residue in the one table and that of residue 0 in
the next: keys of these two residues can push each other round in four buckets.
The chain is therefore followed on a wheel of four buckets, of which the ones a
key can be in depend only on whether its residue is the greatest. A label stands
for each of the five keys that take part, so there are finitely many wheels and
after six calls they repeat every twelve.

## Main definitions

* `Wheel`, `Mixed`, `spin`: The chain on labels.
* `Last`: A key of the greatest residue.
* `spot`, `label`: What the wheel's buckets and labels stand for.
* `Follows`: A table and a key in hand against the wheel.
* `ComesRound`: The table is as before when the chain is cut off.

## Theorems

* `restored_iff`, `wroteIn_writes`: When the wheel comes round, and what it has
  written in.
* `follows_spin`: An eviction turns the wheel.
* `place_declares_cycle`: A call that is cut off leaves the table as it was just
  when the chain comes round.
-/

namespace LocalKeyValue

namespace Pilaf

open CInt

/-! ## The wheel -/

/-- Four buckets in a row, of which each table has two next to each other. Label
    0 is the key that is placed and label `j + 1` the one that is in bucket `j`
    to begin with. A bucket that has been written in has the label of the key
    put there. -/
structure Wheel where
  hand : Fin 5
  tableID : Fin 3
  written : Fin 4 → Option (Fin 5)

def Wheel.start : Wheel where
  hand := 0
  tableID := 0
  written := fun _ => none

/-- Which of the keys go into the second of their table's two buckets: the key
    placed, and those in the two buckets in the middle. The key in the first
    bucket can only be of the other kind and the key in the last only of this. -/
structure Mixed where
  key : Bool
  second : Bool
  third : Bool

def Mixed.high (m : Mixed) (l : Fin 5) : Bool :=
  match l with
  | 0 => m.key
  | 1 => false
  | 2 => m.second
  | 3 => m.third
  | 4 => true

/-- Where the key in hand goes. -/
def Wheel.bucket (m : Mixed) (w : Wheel) : Fin 4 :=
  if m.high w.hand then w.tableID.succ else w.tableID.castSucc

/-- The key in hand changes places with the one in its bucket. -/
def spin (m : Mixed) (w : Wheel) : Wheel where
  hand := (w.written (w.bucket m)).getD (w.bucket m).succ
  tableID := w.tableID + 1
  written := Function.update w.written (w.bucket m) (some w.hand)

/-- The buckets written in have their own keys again. -/
def Wheel.Restored (w : Wheel) : Prop :=
  ∀ j, w.written j = none ∨ w.written j = some j.succ

instance (w : Wheel) : Decidable w.Restored :=
  inferInstanceAs (Decidable (∀ _, _))

/-- It has written in these buckets and no others. -/
def Wheel.WroteIn (w : Wheel) (js : List (Fin 4)) : Prop :=
  ∀ j, w.written j ≠ none ↔ j ∈ js

instance (w : Wheel) (js : List (Fin 4)) : Decidable (w.WroteIn js) :=
  inferInstanceAs (Decidable (∀ _, _))

/-- The numbers of calls after which the wheel has come round. -/
def Mixed.round (m : Mixed) (n : Nat) : Prop :=
  (m.key = m.second ∧ m.key = m.third ∧ n % 12 = 0) ∨
    (m.key = true ∧ m.second = false ∧ (n % 6 = 0 ∨ n % 6 = 2)) ∨
    (m.key = true ∧ m.second = true ∧ m.third = false ∧ (n % 6 = 0 ∨ n % 6 = 4))

instance (m : Mixed) (n : Nat) : Decidable (m.round n) :=
  inferInstanceAs (Decidable (_ ∨ _))

/-- The buckets it has then written in. -/
def Mixed.writes (m : Mixed) (n : Nat) : List (Fin 4) :=
  match m.key, m.second, m.third with
  | false, _, _ => [0, 1, 2]
  | true, true, true => [1, 2, 3]
  | true, true, false => [1, 2]
  | true, false, _ => if n = 2 then [1] else [1, 3]

theorem wheel_ext (w w' : Wheel)
    (h : w.hand = w'.hand ∧ w.tableID = w'.tableID ∧ ∀ j, w.written j = w'.written j) : w = w' := by
  rcases w with ⟨hand, tableID, written⟩
  rcases w' with ⟨hand', tableID', written'⟩
  rcases h with ⟨h1, h2, h3⟩
  simp only at h1 h2 h3
  rw [h1, h2, funext h3]

/-- After the sixth call the wheel repeats every twelve. -/
theorem spin_repeats (m : Mixed) : (spin m)^[18] .start = (spin m)^[6] .start := by
  have hsmall : ∀ key second third : Bool, let m : Mixed := ⟨key, second, third⟩
      let w := (spin m)^[18] .start
      let w' := (spin m)^[6] .start
      w.hand = w'.hand ∧ w.tableID = w'.tableID ∧ ∀ j, w.written j = w'.written j := by
    decide +kernel
  exact wheel_ext _ _ (hsmall m.key m.second m.third)

/-- So any number of calls is as good as one below 18. -/
theorem spin_reduce (m : Mixed) (n : Nat) (hn : n ≠ 0) :
    ∃ r, r < 18 ∧ r ≠ 0 ∧ r % 12 = n % 12 ∧ (r = 2 ↔ n = 2) ∧
      (spin m)^[n] .start = (spin m)^[r] .start := by
  by_cases hlt : n < 18
  · exact ⟨n, hlt, hn, rfl, Iff.rfl, rfl⟩
  · have hperiod : Function.IsPeriodicPt (spin m) 12 ((spin m)^[6] .start) := by
      rw [Function.IsPeriodicPt, Function.IsFixedPt, ← Function.iterate_add_apply]
      exact spin_repeats m
    refine ⟨(n - 6) % 12 + 6, by omega, by omega, by omega, by omega, ?_⟩
    rw [Function.iterate_add_apply, hperiod.iterate_mod_apply, ← Function.iterate_add_apply,
      Nat.sub_add_cancel (by omega)]

theorem restored_iff (m : Mixed) (n : Nat) (hn : n ≠ 0) :
    ((spin m)^[n] .start).Restored ↔ m.round n := by
  have hsmall : ∀ key second third : Bool, ∀ r < 18, r ≠ 0 →
      (((spin ⟨key, second, third⟩)^[r] .start).Restored ↔
        (⟨key, second, third⟩ : Mixed).round r) := by
    decide +kernel
  rcases spin_reduce m n hn with ⟨r, hr, hr0, hmod, _, hspin⟩
  have h6 : r % 6 = n % 6 := by omega
  rw [hspin, hsmall m.key m.second m.third r hr hr0, Mixed.round, Mixed.round, hmod, h6]

theorem wroteIn_writes (m : Mixed) (n : Nat) (hn : n ≠ 0) (hround : m.round n) :
    ((spin m)^[n] .start).WroteIn (m.writes n) := by
  have hsmall : ∀ key second third : Bool, ∀ r < 18, r ≠ 0 →
      (⟨key, second, third⟩ : Mixed).round r →
      ((spin ⟨key, second, third⟩)^[r] .start).WroteIn
        ((⟨key, second, third⟩ : Mixed).writes r) := by
    decide +kernel
  rcases spin_reduce m n hn with ⟨r, hr, hr0, hmod, htwo, hspin⟩
  have h6 : r % 6 = n % 6 := by omega
  have hround' : m.round r := by
    rw [Mixed.round, hmod, h6]
    exact hround
  have hwrites : m.writes n = m.writes r := by simp only [Mixed.writes, htwo]
  rw [hspin, hwrites]
  exact hsmall m.key m.second m.third r hr hr0 hround'

/-! ## The buckets of a key -/

/-- The key's residue is the greatest. -/
def Last (a : Int) : Prop :=
  a % maxn = maxn - 1

instance (a : Int) : Decidable (Last a) :=
  inferInstanceAs (Decidable (_ = _))

/-- The residue of the keys that go into the first bucket of each table's two:
    that of the key placed, or 0 if that goes into the second. -/
def base (key : Int) : Nat :=
  if Last key then 0 else (key % maxn).toNat

/-- Where bucket `j` of the wheel is in the array. -/
def spot (key : Int) (j : Nat) : Nat :=
  base key + j * (maxn - 1)

/-- The key a label stands for. -/
def label (t : Table) (key : Int) (l : Fin 5) : Int :=
  Fin.cases key (fun j => (t (spot key j)).key) l

def mixed (t : Table) (key : Int) : Mixed where
  key := decide (Last key)
  second := decide (Last (t (spot key 1)).key)
  third := decide (Last (t (spot key 2)).key)

/-- A key that goes round on the wheel. -/
structure Rides (key a : Int) : Prop where
  inRange : InRange a
  last : Last a → base key = 0
  first : ¬ Last a → a % maxn = base key

theorem base_lt (key : Int) : base key < maxn - 1 := by
  have hlo := Int.emod_nonneg key (by decide : (maxn : Int) ≠ 0)
  have hhi := Int.emod_lt_of_pos key (by decide : (0 : Int) < maxn)
  by_cases hl : Last key
  · rw [base, if_pos hl]
    decide
  · rw [base, if_neg hl]
    unfold Last at hl
    simp only [maxn] at hl hlo hhi ⊢
    omega

theorem rides_self (key : Int) (h : InRange key) : Rides key key where
  inRange := h
  last := fun hl => if_pos hl
  first := fun hl => by
    have hlo := Int.emod_nonneg key (by decide : (maxn : Int) ≠ 0)
    rw [base, if_neg hl, Int.toNat_of_nonneg hlo]

theorem spot_inj (key : Int) (i j : Nat) (h : spot key i = spot key j) : i = j := by
  unfold spot at h
  simp only [maxn] at h
  omega

/-- A key that goes round has its buckets on the wheel. -/
theorem slot_of_rides (key a : Int) (h : Rides key a) (i : Nat) (hi : i < ver) :
    slot i a = spot key (if Last a then i + 1 else i) := by
  have hslot := (slot_eq i a h.inRange hi).1
  by_cases hl : Last a
  · have hbase := h.last hl
    have hmod : a % maxn = maxn - 1 := hl
    rw [if_pos hl, spot, hbase]
    simp only [maxn] at hslot hmod ⊢
    omega
  · have hbase := h.first hl
    rw [if_neg hl, spot]
    simp only [maxn] at hslot hbase ⊢
    omega

/-- A key in a bucket of the wheel goes round. In the first bucket it does not
    have the greatest residue, in the last it has. -/
theorem rides_spot (t : Table) (key : Int) (j : Fin 4) (h : Sound t)
    (hj : spot key j < ver * maxn) (hne : (t (spot key j)).key ≠ intMin) :
    Rides key (t (spot key j)).key ∧ (j = 0 → ¬ Last (t (spot key j)).key) ∧
      (j = 3 → Last (t (spot key j)).key) := by
  rcases h.positioned _ hj with he | ⟨hr, i, hi, hslot⟩
  · exact absurd he hne
  generalize (t (spot key j)).key = a at hr hslot
  have hs := (slot_eq i a hr hi).1
  have hbase := base_lt key
  have hlo := Int.emod_nonneg a (by decide : (maxn : Int) ≠ 0)
  have hhi := Int.emod_lt_of_pos a (by decide : (0 : Int) < maxn)
  rw [← hslot, spot] at hs
  have hj4 := j.isLt
  -- Its own bucket of some table is this one or the one before it.
  refine ⟨⟨hr, fun hl => ?_, fun hl => ?_⟩, fun h0 hl => ?_, fun h3 => ?_⟩ <;>
    unfold Last at * <;> simp only [maxn, ver] at *
  · omega
  · omega
  · rw [h0] at hs
    simp only [Fin.val_zero] at hs
    omega
  · rw [h3] at hs
    omega

/-! ## The chain on the wheel -/

section Follow

variable (t : Table) (key value : Int)

/-- A label that has been in hand. -/
structure Good (l : Fin 5) : Prop where
  rides : Rides key (label t key l)
  high : (mixed t key).high l = decide (Last (label t key l))
  inArray : ∀ j : Fin 4, l = j.succ → spot key j < ver * maxn

/-- The table is the one the wheel started from, but for what has been written. -/
structure Follows (t' : Table) (held : Int) (w : Wheel) : Prop where
  hand : held = label t key w.hand
  good : Good t key w.hand
  written : ∀ j l, w.written j = some l → Good t key l ∧ spot key j < ver * maxn
  at_spot : ∀ j : Fin 4, t' (spot key j) =
    (w.written j).elim (t (spot key j)) (fun l => evicted (label t key l) value)
  elsewhere : ∀ idx, (∀ j : Fin 4, idx ≠ spot key j) → t' idx = t idx

variable {t key}

theorem good_zero (hk : InRange key) : Good t key 0 where
  rides := rides_self key hk
  high := rfl
  inArray := fun j hj => absurd hj (Fin.succ_ne_zero j).symm

theorem good_succ (ht : Sound t) (j : Fin 4) (hj : spot key j < ver * maxn)
    (hne : (t (spot key j)).key ≠ intMin) : Good t key j.succ where
  rides := (rides_spot t key j ht hj hne).1
  high := by
    rcases rides_spot t key j ht hj hne with ⟨_, hfirst, hlast⟩
    fin_cases j
    · exact (decide_eq_false (hfirst rfl)).symm
    · rfl
    · rfl
    · exact (decide_eq_true (hlast rfl)).symm
  inArray := fun i hi => by
    rw [← Fin.succ_inj.mp hi]
    exact hj

variable {value}

theorem follows_start (hk : InRange key) : Follows t key value t key .start where
  hand := rfl
  good := good_zero hk
  written := fun _ _ h => absurd h (by simp only [Wheel.start, reduceCtorEq, not_false_eq_true])
  at_spot := fun _ => rfl
  elsewhere := fun _ _ => rfl

/-- The bucket of the key in hand is the wheel's. -/
theorem slot_of_follows (t' : Table) (held : Int) (w : Wheel)
    (h : Follows t key value t' held w) :
    slot w.tableID held = spot key (w.bucket (mixed t key)) := by
  have hslot := slot_of_rides key held (by rw [h.hand]; exact h.good.rides) w.tableID w.tableID.isLt
  rw [hslot, Wheel.bucket, h.good.high, ← h.hand]
  by_cases hl : Last held
  · rw [if_pos hl, decide_eq_true hl, if_pos rfl, Fin.val_succ]
  · rw [if_neg hl, decide_eq_false hl, if_neg Bool.false_ne_true, Fin.val_castSucc]

/-- An eviction turns the wheel. -/
theorem follows_spin (ht : Sound t) (t' : Table) (held : Int) (w : Wheel)
    (h : Follows t key value t' held w) (hne : (t' (slot w.tableID held)).key ≠ intMin) :
    Follows t key value (evict t' w.tableID held value) (t' (slot w.tableID held)).key
      (spin (mixed t key) w) := by
  have hslot := slot_of_follows t' held w h
  have hr : Rides key held := by rw [h.hand]; exact h.good.rides
  have harray := slot_lt w.tableID held hr.inRange w.tableID.isLt
  unfold evict
  rw [hslot] at hne harray ⊢
  generalize hb : w.bucket (mixed t key) = b at hne harray ⊢
  have hspin : spin (mixed t key) w =
      ⟨(w.written b).getD b.succ, w.tableID + 1, Function.update w.written b (some w.hand)⟩ := by
    rw [spin, hb]
  have hbucket := h.at_spot b
  rw [hspin]
  constructor
  case hand =>
    -- The bucket has its own key, or the one the wheel has written there.
    cases hw : w.written b with
    | none => rw [hbucket, hw]; rfl
    | some l => rw [hbucket, hw]; rfl
  case good =>
    cases hw : w.written b with
    | none =>
        rw [hbucket, hw] at hne
        exact good_succ ht b harray hne
    | some l => exact (h.written b l hw).1
  case written =>
    -- Only the bucket of this turn is written in addition.
    intro j l hj
    simp only at hj
    by_cases hjb : j = b
    · rw [hjb, Function.update_self, Option.some.injEq] at hj
      rw [hjb, ← hj]
      exact ⟨h.good, harray⟩
    · rw [Function.update_of_ne hjb] at hj
      exact h.written j l hj
  case at_spot =>
    intro j
    simp only
    by_cases hjb : j = b
    · rw [hjb, Function.update_self, Function.update_self, h.hand]
      rfl
    · have hspot : spot key j ≠ spot key b := fun he => hjb (Fin.ext (spot_inj key j b he))
      rw [Function.update_of_ne hspot, Function.update_of_ne hjb]
      exact h.at_spot j
  case elsewhere =>
    intro idx hidx
    rw [Function.update_of_ne (hidx b)]
    exact h.elsewhere idx hidx

/-- A chain that is cut off turns it with each of its calls. -/
theorem follows_chain (ht : Sound t) : ∀ (n : Nat) (t' : Table) (held : Int) (w : Wheel),
    Follows t key value t' held w → unpositioned t' held value w.tableID n ≠ none →
    ∃ t'' held', place t' held value w.tableID n = some t'' ∧
      Follows t key value t'' held' ((spin (mixed t key))^[n] w) := by
  intro n
  induction n with
  | zero => intro t' held w h _; exact ⟨t', held, rfl, h⟩
  | succ n ih =>
      intro t' held w h hcut
      have hr : InRange held := by rw [h.hand]; exact h.good.rides.inRange
      have hid := w.tableID.isLt
      -- Finding the key or an empty bucket would be the end of the chain.
      by_cases hf : Found t' held
      · exact absurd (call_found t' held value w.tableID n hr hf).2 hcut
      by_cases hb : (t' (slot w.tableID held)).key = intMin
      · exact absurd (call_empty t' held value w.tableID n hr hid hf hb).2 hcut
      have hnext := follows_spin ht t' held w h hb
      have hr' : InRange (t' (slot w.tableID held)).key := by
        rw [hnext.hand]
        exact hnext.good.rides.inRange
      have hid' : (w.tableID.val + 1) % ver = (spin (mixed t key) w).tableID.val := rfl
      rcases call_evict t' held value w.tableID n hr hid hf hr' with ⟨hplace, hcut'⟩
      rw [hcut', hid'] at hcut
      rw [hplace, hid', Function.iterate_succ_apply]
      exact ih _ _ _ hnext hcut

end Follow

/-! ## The table afterwards -/

/-- The bucket says what `place` would write into it with its key. -/
def AsWritten (t : Table) (value : Int) (j : Nat) : Prop :=
  t j = evicted (t j).key value

instance (t : Table) (value : Int) (j : Nat) : Decidable (AsWritten t value j) :=
  inferInstanceAs (Decidable (_ = _))

/-- The chain is back where it began after `n` calls, and it has changed nothing
    in the buckets it has come by. With keys of one kind alone it takes twelve
    calls to get round. If the key's residue is the greatest and its first
    bucket holds a key of residue 0, that one goes back to the same bucket at
    once; if its second bucket does, after four calls. -/
def ComesRound (t : Table) (key value : Int) (n : Nat) : Prop :=
  let last i := Last (t (slot i key)).key
  let same i := AsWritten t value (slot i key)
  (¬ Last key ∧ ¬ last 1 ∧ ¬ last 2 ∧ n % 12 = 0 ∧ same 0 ∧ same 1 ∧ same 2) ∨
    (Last key ∧ last 0 ∧ last 1 ∧ n % 12 = 0 ∧ same 0 ∧ same 1 ∧ same 2) ∨
    (Last key ∧ ¬ last 0 ∧ (n % 6 = 0 ∨ n % 6 = 2) ∧ same 0 ∧ (n ≠ 2 → same 2)) ∨
    (Last key ∧ last 0 ∧ ¬ last 1 ∧ (n % 6 = 0 ∨ n % 6 = 4) ∧ same 0 ∧ same 1)

instance (t : Table) (key value : Int) (n : Nat) : Decidable (ComesRound t key value n) :=
  inferInstanceAs (Decidable (_ ∨ _))

/-- What has been written in a bucket is what was there if it is the bucket's
    own key and the bucket said all else already. -/
theorem evicted_eq_iff (t : Table) (key value : Int) (ht : Sound t)
    (hns : ¬ Stored t key) (j : Fin 4) (l : Fin 5) (hl : Good t key l)
    (hj : spot key j < ver * maxn) :
    evicted (label t key l) value = t (spot key j) ↔
      l = j.succ ∧ AsWritten t value (spot key j) := by
  constructor
  · intro h
    have hkey : label t key l = (t (spot key j)).key := congrArg Bucket.key h
    refine ⟨?_, ?_⟩
    · cases l using Fin.cases with
      | zero => exact absurd ⟨spot key j, hj, hkey.symm⟩ hns
      | succ i =>
          have hi := hl.inArray i rfl
          have hspot := ht.distinct _ _ hi hj (inRange_ne_intMin _ hl.rides.inRange) hkey
          rw [Fin.ext (spot_inj key i j hspot)]
    · rw [AsWritten, ← hkey]
      exact h.symm
  · intro h
    rcases h with ⟨hlj, hsame⟩
    rw [hlj]
    exact hsame.symm

/-- The table at the end of the chain is the one at the beginning if what has
    been written is what was there. -/
theorem follows_eq_iff (t : Table) (key value : Int) (ht : Sound t)
    (hns : ¬ Stored t key) (t' : Table) (held : Int) (w : Wheel)
    (h : Follows t key value t' held w) :
    t' = t ↔ w.Restored ∧ ∀ j, w.written j ≠ none → AsWritten t value (spot key j) := by
  have hbucket : ∀ j : Fin 4, t' (spot key j) = t (spot key j) ↔
      (w.written j = none ∨ w.written j = some j.succ) ∧
        (w.written j ≠ none → AsWritten t value (spot key j)) := by
    intro j
    rw [h.at_spot j]
    cases hw : w.written j with
    | none =>
        exact iff_of_true rfl ⟨Or.inl rfl, fun hne => absurd rfl hne⟩
    | some l =>
        rcases h.written j l hw with ⟨hl, hj⟩
        simp only [Option.elim, evicted_eq_iff t key value ht hns j l hl hj, reduceCtorEq,
          false_or, Option.some.injEq, ne_eq, not_false_eq_true, forall_const]
  constructor
  · intro he
    have hall := fun j => (hbucket j).mp (by rw [he])
    exact ⟨fun j => (hall j).1, fun j => (hall j).2⟩
  · intro hall
    funext idx
    by_cases hidx : ∃ j : Fin 4, idx = spot key j
    · rcases hidx with ⟨j, rfl⟩
      exact (hbucket j).mpr ⟨hall.1 j, hall.2 j⟩
    · exact h.elsewhere idx (fun j hj => hidx ⟨j, hj⟩)

/-- Said of the wheel. -/
theorem comesRound_iff (t : Table) (key value : Int) (n : Nat) (hk : InRange key) :
    ComesRound t key value n ↔ (mixed t key).round n ∧
      ∀ j ∈ (mixed t key).writes n, AsWritten t value (spot key j) := by
  have hslot := slot_of_rides key key (rides_self key hk)
  unfold ComesRound
  by_cases hl : Last key
  · -- The key's buckets are the last three.
    simp only [if_pos hl] at hslot
    simp only [hslot 0 (by decide), hslot 1 (by decide), hslot 2 (by decide)]
    by_cases h1 : Last (t (spot key 1)).key
    · by_cases h2 : Last (t (spot key 2)).key
      · have hm : mixed t key = ⟨true, true, true⟩ := by simp only [mixed, hl, h1, h2, decide_true]
        simp [hm, Mixed.round, Mixed.writes, hl, h1, h2]
      · have hm : mixed t key = ⟨true, true, false⟩ := by
          simp only [mixed, hl, h1, h2, decide_true, decide_false]
        simp [hm, Mixed.round, Mixed.writes, hl, h1, h2]
    · have hm : mixed t key = ⟨true, false, decide (Last (t (spot key 2)).key)⟩ := by
        simp only [mixed, hl, h1, decide_true, decide_false]
      by_cases htwo : n = 2
      · simp [hm, Mixed.round, Mixed.writes, hl, h1, htwo]
      · simp [hm, Mixed.round, Mixed.writes, hl, h1, htwo]
  · simp only [if_neg hl] at hslot
    simp only [hslot 0 (by decide), hslot 1 (by decide), hslot 2 (by decide)]
    have hm : mixed t key =
        ⟨false, decide (Last (t (spot key 1)).key), decide (Last (t (spot key 2)).key)⟩ := by
      simp only [mixed, hl, decide_false]
    simp [hm, Mixed.round, Mixed.writes, hl, and_assoc]

/-- A call of `place` for a new key that declares a cycle leaves out one key, the
    one in hand, of those stored and its own. The table is the same as before
    just when the chain has come round. -/
theorem place_declares_cycle (t : Table) (ht : Sound t) (key : Int) (hk : InRange key)
    (hns : ¬ Stored t key) (value : Int) (n : Nat) (hn : 1 ≤ n) (cut : Int)
    (hcut : unpositioned t key value 0 n = some cut) :
    ∃ t', place t key value 0 n = some t' ∧ Sound t' ∧
      (∀ a, InRange a → (Stored t' a ↔ (Stored t a ∨ a = key) ∧ a ≠ cut)) ∧
      (t' = t ↔ ComesRound t key value n) := by
  rcases chain_stored t ht key hk value 0 (by decide) n (fun _ => hns) with
    ⟨t', hplace, hsound, hstored⟩
  have hcut' : unpositioned t key value Wheel.start.tableID n ≠ none := by
    intro hc
    rw [show Wheel.start.tableID.val = 0 from rfl, hcut] at hc
    exact absurd hc (by simp only [reduceCtorEq, not_false_eq_true])
  rcases follows_chain ht n t key .start (follows_start hk) hcut' with ⟨u, held, hu, hfollows⟩
  have htu : t' = u := by
    rw [show Wheel.start.tableID.val = 0 from rfl, hplace, Option.some.injEq] at hu
    exact hu
  have hn0 : n ≠ 0 := by omega
  refine ⟨t', hplace, hsound, fun a ha => ?_, ?_⟩
  · rw [hstored a ha, hcut, ne_eq, Option.some.injEq]
    exact and_congr_right (fun _ => ⟨Ne.symm, Ne.symm⟩)
  rw [htu, follows_eq_iff t key value ht hns u held _ hfollows, restored_iff _ n hn0,
    comesRound_iff t key value n hk]
  refine and_congr_right (fun hround => ?_)
  have hwrote := wroteIn_writes (mixed t key) n hn0 hround
  exact forall_congr' (fun j => imp_congr_left (hwrote j))

/-- Three keys of one residue in their buckets, which they share with key 5. -/
def roundTable : Table :=
  writtenTable 7 [(0, 2500005), (1, 5000005), (2, 7500005)]

theorem roundTable_spec : Sound roundTable ∧
    ∀ a, InRange a → (Stored roundTable a ↔ a ∈ [2500005, 5000005, 7500005]) :=
  writtenTable_spec 7 [(0, 2500005), (1, 5000005), (2, 7500005)] (by decide) (by decide)
    (by decide +kernel)

/-- With the value the buckets have, twelve calls for it bring the chain round,
    and it is left out itself. -/
theorem place_declares_cycle_roundTable : place roundTable 5 7 0 12 = some roundTable ∧
    unpositioned roundTable 5 7 0 12 = some 5 ∧ ¬ Stored roundTable 5 := by
  have hcut : unpositioned roundTable 5 7 0 12 = some 5 := by decide +kernel
  rcases place_declares_cycle roundTable roundTable_spec.1 5 (by decide)
    (by rw [roundTable_spec.2 5 (by decide)]; decide) 7 12 (by decide) 5 hcut with
    ⟨t', hplace, _, hstored, hround⟩
  rw [hround.mpr (by decide +kernel)] at hplace hstored
  exact ⟨hplace, hcut, fun hs => ((hstored 5 (by decide)).mp hs).2 rfl⟩

/-- The call for a key of the residue of another that is cut off leaves the other
    out. -/
theorem place_cycle_drops : ∃ t', place loneTable 5 1 0 1 = some t' ∧
    unpositioned loneTable 5 1 0 1 = some 2500005 ∧ Sound loneTable ∧ ¬ Stored loneTable 5 ∧
      Stored loneTable 2500005 ∧ ¬ Stored t' 2500005 ∧ t' ≠ loneTable := by
  rcases loneTable_spec with ⟨hsound, hstored⟩
  have hnew : ¬ Stored loneTable 5 := by
    rw [hstored 5 (by decide)]
    decide
  have hold : Stored loneTable 2500005 :=
    (hstored 2500005 (by decide)).mpr (List.mem_singleton_self _)
  have hcut : unpositioned loneTable 5 1 0 1 = some 2500005 := by decide +kernel
  rcases chain_stored loneTable hsound 5 (by decide) 1 0 (by decide) 1 (fun _ => hnew) with
    ⟨t', hplace, _, hstored'⟩
  have hdropped : ¬ Stored t' 2500005 := fun h => ((hstored' 2500005 (by decide)).mp h).2 hcut
  exact ⟨t', hplace, hcut, hsound, hnew, hold, hdropped, fun he => hdropped (he ▸ hold)⟩

end Pilaf

end LocalKeyValue
