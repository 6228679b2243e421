import LocalKeyValue.Pilaf.Placement

/-!
# The Eviction Chain

The chain of evictions `place` sets off in a table whose keys are all of the
kind it is made for, each in one of its own buckets and stored once. Between two
calls one key is in hand and in no bucket, so every call is on a key that is not
stored, but perhaps the first: the chain ends at an empty bucket or is cut off.

`chain_rule` is the induction on the chain, for whatever is to be shown of the
table it starts from, the table it leaves and the key it is cut off with. What
the table holds afterwards is the first use of it.

The conditions are on the buckets of the array alone; a table is a function, and
what lies beyond the array is no part of it.

## Main definitions

* `Sound`: Keys are in their own buckets, and once each.
* `Stored`: Some bucket of the array holds the key.
* `Bare`: No bucket holds any.
* `evict`: The table one eviction leaves.
* `writtenTable`: The bare table with a few keys written into it.

## Theorems

* `call_found`, `call_empty`, `call_evict`: What one call does.
* `chain_rule`: Induction along the chain.
* `chain_stored`: The chain loses no key but the one it is cut off with.
* `place_stores`: A call that is not cut off stores its key and loses none.
-/

namespace LocalKeyValue

namespace Pilaf

open CInt

/-- Each bucket is empty or holds a key the table is made for, which is in one
    of its own buckets and in no other. -/
structure Sound (t : Table) : Prop where
  positioned : ∀ j, j < ver * maxn → (t j).key = intMin ∨
    (InRange (t j).key ∧ ∃ i, i < ver ∧ j = slot i (t j).key)
  distinct : ∀ i j, i < ver * maxn → j < ver * maxn → (t i).key ≠ intMin →
    (t i).key = (t j).key → i = j

/-- Some bucket of the array holds the key. -/
def Stored (t : Table) (key : Int) : Prop :=
  ∃ j, j < ver * maxn ∧ (t j).key = key

/-- The table after a key has taken the place of the one in its bucket. -/
def evict (t : Table) (tableID : Nat) (key value : Int) : Table :=
  Function.update t (slot tableID key) (evicted key value)

/-- All buckets of the array are empty. -/
def Bare (t : Table) : Prop :=
  ∀ j, j < ver * maxn → (t j).key = intMin

/-- Nothing in the table but the key that makes a bucket empty. -/
def bareTable : Table := fun _ => {
  inUse := 0
  offset := 0
  key := intMin
  hashBucket := 0
  size := 0
  hashKeyValue := 0 }

theorem inRange_ne_intMin (key : Int) (h : InRange key) : key ≠ intMin := by
  intro he
  rw [he] at h
  exact absurd h.1 (by decide)

theorem slot_lt (i : Nat) (key : Int) (h : InRange key) (hi : i < ver) :
    slot i key < ver * maxn :=
  (slot_eq i key h hi).2

theorem sound_inRange (t : Table) (j : Nat) (h : Sound t) (hj : j < ver * maxn)
    (hb : (t j).key ≠ intMin) : InRange (t j).key := by
  rcases h.positioned j hj with he | ⟨hr, _⟩
  · exact absurd he hb
  · exact hr

theorem bare_bareTable : Bare bareTable := fun _ _ => rfl

theorem sound_of_bare (t : Table) (h : Bare t) : Sound t where
  positioned := fun j hj => Or.inl (h j hj)
  distinct := fun i _ hi _ hne => absurd (h i hi) hne

theorem not_stored_of_bare (t : Table) (key : Int) (h : Bare t) (hk : InRange key) :
    ¬ Stored t key := by
  intro hs
  rcases hs with ⟨j, hj, hkey⟩
  rw [h j hj] at hkey
  exact inRange_ne_intMin key hk hkey.symm

/-- Looking in a key's own buckets is looking everywhere. -/
theorem found_iff_stored (t : Table) (key : Int) (h : Sound t) (hk : InRange key) :
    Found t key ↔ Stored t key := by
  constructor
  · intro hf
    rcases hf with ⟨i, hi, hkey⟩
    exact ⟨slot i key, slot_lt i key hk hi, hkey⟩
  · intro hs
    rcases hs with ⟨j, hj, hkey⟩
    rcases h.positioned j hj with he | ⟨_, i, hi, hslot⟩
    · rw [hkey] at he
      exact absurd he (inRange_ne_intMin key hk)
    · rw [hkey] at hslot
      exact ⟨i, hi, by rw [← hslot]; exact hkey⟩

/-- Writing a key that is not stored into one of its own buckets. -/
theorem sound_put (t : Table) (i : Nat) (key : Int) (b : Bucket) (h : Sound t)
    (hk : InRange key) (hi : i < ver) (hns : ¬ Stored t key) (hb : b.key = key) :
    Sound (Function.update t (slot i key) b) where
  positioned := fun j hj => by
    by_cases hjs : j = slot i key
    · rw [hjs, Function.update_self, hb]
      exact Or.inr ⟨hk, i, hi, rfl⟩
    · rw [Function.update_of_ne hjs]
      exact h.positioned j hj
  distinct := fun p q hp hq hne heq => by
    -- A bucket other than the one written does not hold the key.
    have hother : ∀ j, j < ver * maxn → (t j).key ≠ key := fun j hj hkey => hns ⟨j, hj, hkey⟩
    by_cases hps : p = slot i key
    · by_cases hqs : q = slot i key
      · rw [hps, hqs]
      · rw [hps, Function.update_self, Function.update_of_ne hqs, hb] at heq
        exact absurd heq.symm (hother q hq)
    · rw [Function.update_of_ne hps] at hne heq
      by_cases hqs : q = slot i key
      · rw [hqs, Function.update_self, hb] at heq
        exact absurd heq (hother p hp)
      · rw [Function.update_of_ne hqs] at heq
        exact h.distinct p q hp hq hne heq

/-- What is stored then: the key, and what was stored but for what its bucket
    held. -/
theorem stored_put (t : Table) (s : Nat) (a : Int) (b : Bucket) (h : Sound t)
    (hs : s < ver * maxn) (ha : InRange a) :
    Stored (Function.update t s b) a ↔ a = b.key ∨ (Stored t a ∧ a ≠ (t s).key) := by
  constructor
  · intro hst
    rcases hst with ⟨j, hj, hkey⟩
    by_cases hjs : j = s
    · rw [hjs, Function.update_self] at hkey
      exact Or.inl hkey.symm
    · rw [Function.update_of_ne hjs] at hkey
      refine Or.inr ⟨⟨j, hj, hkey⟩, fun has => hjs (h.distinct j s hj hs ?_ ?_)⟩
      · rw [hkey]
        exact inRange_ne_intMin a ha
      · rw [hkey, has]
  · intro hst
    rcases hst with he | ⟨⟨j, hj, hkey⟩, hne⟩
    · exact ⟨s, hs, by rw [Function.update_self, he]⟩
    · have hjs : j ≠ s := fun he => hne (by rw [← hkey, he])
      exact ⟨j, hj, by rw [Function.update_of_ne hjs]; exact hkey⟩

/-- After an eviction the key that was in the bucket is in hand alone. -/
theorem stored_evict (t : Table) (tableID : Nat) (key value a : Int) (h : Sound t)
    (hk : InRange key) (hid : tableID < ver) (ha : InRange a) :
    Stored (evict t tableID key value) a ↔
      a = key ∨ (Stored t a ∧ a ≠ (t (slot tableID key)).key) :=
  stored_put t (slot tableID key) a (evicted key value) h (slot_lt tableID key hk hid) ha

theorem not_stored_evict (t : Table) (tableID : Nat) (key value : Int) (h : Sound t)
    (hk : InRange key) (hid : tableID < ver) (hns : ¬ Stored t key)
    (hr : InRange (t (slot tableID key)).key) :
    ¬ Stored (evict t tableID key value) (t (slot tableID key)).key := by
  intro hs
  rcases (stored_evict t tableID key value _ h hk hid hr).mp hs with he | ⟨_, hne⟩
  · -- The key was not stored, so the bucket did not hold it.
    exact hns ⟨slot tableID key, slot_lt tableID key hk hid, he⟩
  · exact hne rfl

/-! ## One call -/

section Call

variable (t : Table) (key value : Int) (tableID n : Nat)

/-- A key that is found is left where it is. -/
theorem call_found (hk : InRange key) (hf : Found t key) :
    place t key value tableID (n + 1) = some t ∧
      unpositioned t key value tableID (n + 1) = none := by
  have hi := indexable_of_inRange key hk
  refine ⟨place_found t key value tableID n hi hf, ?_⟩
  rw [← toInt32_of_inRange key hk] at hf
  exact unpositioned_found t key value tableID n ((indexable_toInt32 key).mpr hi) hf

/-- It goes into an empty bucket. -/
theorem call_empty (hk : InRange key) (hid : tableID < ver) (hf : ¬ Found t key)
    (hb : (t (slot tableID key)).key = intMin) :
    place t key value tableID (n + 1) =
        some (Function.update t (slot tableID key) { t (slot tableID key) with key := key }) ∧
      unpositioned t key value tableID (n + 1) = none := by
  have hi := indexable_of_inRange key hk
  refine ⟨place_empty t key value tableID n hi hid hf hb, ?_⟩
  rw [← toInt32_of_inRange key hk] at hf hb
  exact unpositioned_empty t key value tableID n ((indexable_toInt32 key).mpr hi) hid hf hb

/-- It takes the place of another, and the chain goes on with that, which is in
    range, so that narrowing leaves it alone. -/
theorem call_evict (hk : InRange key) (hid : tableID < ver) (hf : ¬ Found t key)
    (hr : InRange (t (slot tableID key)).key) :
    place t key value tableID (n + 1) =
        place (evict t tableID key value) (t (slot tableID key)).key value
          ((tableID + 1) % ver) n ∧
      unpositioned t key value tableID (n + 1) =
        unpositioned (evict t tableID key value) (t (slot tableID key)).key value
          ((tableID + 1) % ver) n := by
  have hb := inRange_ne_intMin _ hr
  have hi := indexable_of_inRange key hk
  have h32 := toInt32_of_inRange key hk
  constructor
  · rw [place_evict t key value tableID n hi hid hf hb, toInt32_of_inRange _ hr]
    rfl
  · rw [unpositioned_evict t key value tableID n ((indexable_toInt32 key).mpr hi) hid (by rwa [h32])
      (by rwa [h32]), h32]
    rfl

/-- A call that is not cut off has a limit to begin with. -/
theorem limit_ne_zero (hcut : unpositioned t key value tableID n = none) : n ≠ 0 := by
  intro h0
  rw [h0, unpositioned] at hcut
  exact absurd hcut (by simp only [reduceCtorEq, not_false_eq_true])

end Call

/-! ## The chain -/

theorem chainInvariant_sound : ChainInvariant InRange Sound where
  indexable := fun k hk => (indexable_toInt32 k).mpr (indexable_of_inRange k hk)
  take := fun t i k ht hk hi hb => by
    rw [toInt32_of_inRange k hk] at hb ⊢
    exact sound_inRange t _ ht (slot_lt i k hk hi) hb
  put := fun t i k b ht hk hi hf hb => by
    rw [toInt32_of_inRange k hk] at hf hb ⊢
    exact sound_put t i k b ht hk hi (fun hs => hf ((found_iff_stored t k ht hk).mpr hs)) hb

/-- Induction along the chain: it is cut off, meets the key, meets an empty
    bucket, or takes up the key it meets. -/
theorem chain_rule (value : Int) (Q : ChainProperty)
    (hcut : ∀ t key tableID, Sound t → Q t key tableID 0 t (some key))
    (hfound : ∀ t key tableID n, Sound t → InRange key → Stored t key →
      Q t key tableID (n + 1) t none)
    (hempty : ∀ t key tableID n, Sound t → InRange key → tableID < ver → ¬ Stored t key →
      (t (slot tableID key)).key = intMin →
      Q t key tableID (n + 1)
        (Function.update t (slot tableID key) { t (slot tableID key) with key := key }) none)
    (hevict : ∀ t key tableID n t' cut, Sound t → InRange key → tableID < ver → ¬ Stored t key →
      InRange (t (slot tableID key)).key →
      Q (evict t tableID key value) (t (slot tableID key)).key ((tableID + 1) % ver) n t' cut →
      Q t key tableID (n + 1) t' cut) (n : Nat) (t : Table) (key : Int) (tableID : Nat)
    (ht : Sound t) (hk : InRange key) (hid : tableID < ver) :
    ∃ t', place t key value tableID n = some t' ∧ Sound t' ∧
      Q t key tableID n t' (unpositioned t key value tableID n) := by
  -- Keys in range are not narrowed, and are stored where they are found.
  have hrule := place_rule chainInvariant_sound value Q hcut ?found ?empty ?evict n t key tableID
    ht hk hid
  case found =>
    intro t key tableID n ht hk hf
    rw [toInt32_of_inRange key hk] at hf
    exact hfound t key tableID n ht hk ((found_iff_stored t key ht hk).mp hf)
  case empty =>
    intro t key tableID n ht hk hid hf hb
    rw [toInt32_of_inRange key hk, found_iff_stored t key ht hk] at hf
    rw [toInt32_of_inRange key hk] at hb ⊢
    exact hempty t key tableID n ht hk hid hf hb
  case evict =>
    intro t key tableID n t' cut ht hk hid hf hb hQ
    rw [toInt32_of_inRange key hk, found_iff_stored t key ht hk] at hf
    rw [toInt32_of_inRange key hk] at hb hQ
    exact hevict t key tableID n t' cut ht hk hid hf
      (sound_inRange t _ ht (slot_lt tableID key hk hid) hb) hQ
  rwa [toInt32_of_inRange key hk] at hrule

/-! ## What the table holds afterwards -/

/-- The chain leaves the keys that were stored and its own, but for the one it is
    cut off with. A call that is cut off at once is to have a new key in hand. -/
theorem chain_stored (t : Table) (ht : Sound t) (key : Int) (hk : InRange key) (value : Int)
    (tableID : Nat) (hid : tableID < ver) (n : Nat) (hns : n = 0 → ¬ Stored t key) :
    ∃ t', place t key value tableID n = some t' ∧ Sound t' ∧ ∀ a, InRange a →
      (Stored t' a ↔ (Stored t a ∨ a = key) ∧ unpositioned t key value tableID n ≠ some a) := by
  have hrule := chain_rule value
    (fun t key _ n t' cut => (n = 0 → ¬ Stored t key) → ∀ a, InRange a →
      (Stored t' a ↔ (Stored t a ∨ a = key) ∧ cut ≠ some a))
    ?cut ?found ?empty ?evict n t key tableID ht hk hid
  case cut =>
    intro t key _ _ hns a _
    rw [ne_eq, Option.some.injEq]
    constructor
    · intro hst
      exact ⟨Or.inl hst, fun he => hns rfl (he ▸ hst)⟩
    · rintro ⟨hst | he, hne⟩
      · exact hst
      · exact absurd he.symm hne
  case found =>
    intro t key _ _ _ _ hst _ a _
    simp only [ne_eq, reduceCtorEq, not_false_eq_true, and_true]
    exact (or_iff_left_of_imp (fun he => he ▸ hst)).symm
  case empty =>
    intro t key tableID n ht hk hid _ hb _ a ha
    have hne := inRange_ne_intMin a ha
    rw [stored_put t _ a _ ht (slot_lt tableID key hk hid) ha, hb]
    simp only [ne_eq, hne, not_false_eq_true, and_true, reduceCtorEq]
    exact or_comm
  case evict =>
    intro t key tableID n t' cut ht hk hid hns hr hQ _ a ha
    -- The key evicted is stored before, and is the one in hand after.
    have hbucket : Stored t (t (slot tableID key)).key := ⟨_, slot_lt tableID key hk hid, rfl⟩
    rw [hQ (fun _ => not_stored_evict t tableID key value ht hk hid hns hr) a ha,
      stored_evict t tableID key value a ht hk hid ha]
    refine and_congr_left (fun _ => ?_)
    by_cases he : a = (t (slot tableID key)).key
    · exact iff_of_true (Or.inr he) (Or.inl (he ▸ hbucket))
    · simp only [he, ne_eq, not_false_eq_true, and_true, or_false]
      exact or_comm
  rcases hrule with ⟨t', hplace, hsound, hstored⟩
  exact ⟨t', hplace, hsound, hstored hns⟩

/-- A call of `place` that is not cut off leaves each key in one of its own
    buckets, once, and stores the keys that were stored and its own. -/
theorem place_stores (t : Table) (ht : Sound t) (key : Int) (hk : InRange key) (value : Int)
    (tableID : Nat) (hid : tableID < ver) (n : Nat)
    (hcut : unpositioned t key value tableID n = none) :
    ∃ t', place t key value tableID n = some t' ∧ Sound t' ∧
      ∀ a, InRange a → (Stored t' a ↔ Stored t a ∨ a = key) := by
  have hn := limit_ne_zero t key value tableID n hcut
  rcases chain_stored t ht key hk value tableID hid n (fun h0 => absurd h0 hn) with
    ⟨t', hplace, hsound, hstored⟩
  simp only [hcut, ne_eq, reduceCtorEq, not_false_eq_true, and_true] at hstored
  exact ⟨t', hplace, hsound, hstored⟩

/-! ## Tables with a few keys -/

/-- The bare table with keys written into buckets of theirs, as an eviction does. -/
def writtenTable (value : Int) : List (Nat × Int) → Table
  | [] => bareTable
  | item :: items =>
    Function.update (writtenTable value items) (slot item.1 item.2) (evicted item.2 value)

theorem writtenTable_spec (value : Int) (items : List (Nat × Int))
    (hitems : ∀ item ∈ items, item.1 < ver ∧ InRange item.2)
    (hkeys : (items.map Prod.snd).Nodup)
    (hslots : (items.map fun item => slot item.1 item.2).Nodup) :
    Sound (writtenTable value items) ∧
      ∀ a, InRange a → (Stored (writtenTable value items) a ↔ a ∈ items.map Prod.snd) := by
  -- A bucket that is not written is as it was.
  have hbare : ∀ (items : List (Nat × Int)) j, j ∉ items.map (fun item => slot item.1 item.2) →
      (writtenTable value items j).key = intMin := by
    intro items j
    induction items with
    | nil => exact fun _ => rfl
    | cons item items ih =>
        rw [List.map_cons, List.mem_cons, not_or]
        rintro ⟨hne, hj⟩
        rw [writtenTable, Function.update_of_ne hne]
        exact ih hj
  induction items with
  | nil =>
      refine ⟨sound_of_bare _ bare_bareTable, fun a ha => ?_⟩
      exact iff_of_false (not_stored_of_bare _ a bare_bareTable ha) List.not_mem_nil
  | cons item items ih =>
      rw [List.map_cons, List.nodup_cons] at hkeys hslots
      rcases ih (fun i hi => hitems i (List.mem_cons_of_mem item hi)) hkeys.2 hslots.2 with
        ⟨hsound, hstored⟩
      rcases hitems item (List.mem_cons_self ..) with ⟨hid, hk⟩
      refine ⟨sound_put _ item.1 item.2 _ hsound hk hid
        (fun hs => hkeys.1 ((hstored _ hk).mp hs)) rfl, fun a ha => ?_⟩
      -- The bucket was empty, so no key is lost.
      rw [writtenTable, stored_put _ _ a _ hsound (slot_lt item.1 item.2 hk hid) ha, hstored a ha,
        hbare items _ hslots.1, List.map_cons, List.mem_cons]
      exact or_congr_right (and_iff_left (inRange_ne_intMin a ha))

/-- A table with one key, in its first bucket. -/
def loneTable : Table :=
  writtenTable 7 [(0, 2500005)]

theorem loneTable_spec : Sound loneTable ∧
    ∀ a, InRange a → (Stored loneTable a ↔ a ∈ [2500005]) :=
  writtenTable_spec 7 [(0, 2500005)] (by decide) (by decide) (by decide)

/-- Another key of its residue, which sends it on to its second bucket. -/
theorem place_stores_loneTable : ∃ t', place loneTable 5 1 0 3 = some t' ∧ Sound t' ∧
    (t' (slot 0 5)).key = 5 ∧ (t' (slot 1 2500005)).key = 2500005 ∧
      ∀ a, InRange a → (Stored t' a ↔ a = 2500005 ∨ a = 5) := by
  rcases place_stores loneTable loneTable_spec.1 5 (by decide) 1 0 (by decide) 3
    (by decide +kernel) with ⟨t', hplace, hsound, hstored⟩
  have hres : (place loneTable 5 1 0 3).map
      (fun t => ((t (slot 0 5)).key, (t (slot 1 2500005)).key)) = some (5, 2500005) := by
    decide +kernel
  rw [hplace, Option.map_some, Option.some.injEq, Prod.mk.injEq] at hres
  refine ⟨t', hplace, hsound, hres.1, hres.2, fun a ha => ?_⟩
  rw [hstored a ha, loneTable_spec.2 a ha, List.mem_singleton]

end Pilaf

end LocalKeyValue
