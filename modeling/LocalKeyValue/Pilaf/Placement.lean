import LocalKeyValue.Pilaf.Cuckoo

/-!
# Placing Keys

What `place` keeps, whatever chain of evictions it sets off. A chain only ever
writes a key into one of the key's own buckets and goes on with a key it has
read from the table, so an invariant that survives such a write survives the
chain: that is `place_invariant`. `place_rule` is the induction on the chain.
The keys of the table are kept too, except that the chain may be cut off with a
key in hand, which is `place_keeps`.

## Main definitions

* `Readable`: The keys in the table narrow to keys it is made for.
* `Positioned`: Each key is in one of its own buckets.
* `Distinct`: Each key is in one bucket only.
* `ChainInvariant`: What a chain keeps.

## Theorems

* `place_invariant`: What a write of a key into its own bucket keeps, `place`
  keeps.
* `place_rule`: Induction along the chain.
* `place_positioned`: `place` stays inside the array, and each key in one of its
  own buckets.
* `place_keeps`: A stored key stays stored or is the one cut off.
* `place_drops`: The one cut off is no longer stored.
-/

namespace LocalKeyValue

namespace Pilaf

open CInt

/-- Evicting a bucket's key gives a key the table is made for. -/
def Readable (t : Table) : Prop :=
  ∀ j, (t j).key ≠ intMin → 0 ≤ toInt32 (t j).key

/-- Each key from `lo` on is in one of its own buckets. -/
def Positioned (lo : Int) (t : Table) : Prop :=
  ∀ j, lo ≤ (t j).key → InRange (t j).key → ∃ i, i < ver ∧ j = slot i (t j).key

/-- No two buckets hold the same key. -/
def Distinct (t : Table) : Prop :=
  ∀ i j, InRange (t i).key → (t i).key = (t j).key → i = j

/-! ## Writing a key into its own bucket -/

/-- What is true of all the keys and of the one written is true of all after. -/
theorem keys_put (P : Int → Prop) (t : Table) (s : Nat) (b : Bucket) (h : ∀ j, P (t j).key)
    (hb : P b.key) (j : Nat) : P (Function.update t s b j).key := by
  by_cases hjs : j = s
  · rw [hjs, Function.update_self]
    exact hb
  · rw [Function.update_of_ne hjs]
    exact h j

theorem readable_put (t : Table) (s : Nat) (key : Int) (b : Bucket) (h : Readable t)
    (hk : InRange key) (hb : b.key = key) : Readable (Function.update t s b) := by
  refine keys_put (fun k => k ≠ intMin → 0 ≤ toInt32 k) t s b h (fun _ => ?_)
  rw [hb, toInt32_of_inRange key hk]
  exact hk.1

theorem positioned_put (lo : Int) (t : Table) (i : Nat) (key : Int) (b : Bucket)
    (h : Positioned lo t) (hi : i < ver) (hb : b.key = key) :
    Positioned lo (Function.update t (slot i key) b) := by
  intro j hlo hj
  by_cases hjs : j = slot i key
  · rw [hjs, Function.update_self, hb]
    exact ⟨i, hi, rfl⟩
  · rw [Function.update_of_ne hjs] at hlo hj ⊢
    exact h j hlo hj

theorem distinct_put (t : Table) (s : Nat) (key : Int) (b : Bucket) (h : Distinct t)
    (hnew : ∀ j, (t j).key ≠ key) (hb : b.key = key) : Distinct (Function.update t s b) := by
  intro i j hi hij
  by_cases his : i = s
  · by_cases hjs : j = s
    · rw [his, hjs]
    · -- The new key was in no bucket, so no other bucket holds it now.
      rw [his, Function.update_self, Function.update_of_ne hjs, hb] at hij
      exact absurd hij.symm (hnew j)
  · by_cases hjs : j = s
    · rw [hjs, Function.update_self, Function.update_of_ne his, hb] at hij
      exact absurd hij (hnew i)
    · rw [Function.update_of_ne his, Function.update_of_ne hjs] at hij
      rw [Function.update_of_ne his] at hi
      exact h i j hi hij

theorem found_put (t : Table) (i : Nat) (key : Int) (b : Bucket) (hi : i < ver)
    (hb : b.key = key) : Found (Function.update t (slot i key) b) key :=
  ⟨i, hi, by rw [Function.update_self, hb]⟩

/-- A stored key stays stored unless the write is to its bucket. -/
theorem found_update (t : Table) (s : Nat) (b : Bucket) (key : Int) (h : Found t key) :
    Found (Function.update t s b) key ∨ (t s).key = key := by
  rcases h with ⟨i, hi, hk⟩
  by_cases hs : slot i key = s
  · exact Or.inr (by rw [← hs]; exact hk)
  · exact Or.inl ⟨i, hi, by rw [Function.update_of_ne hs]; exact hk⟩

/-- Where keys are in their own buckets, a key that is not found is nowhere. -/
theorem key_ne_of_not_found (t : Table) (key : Int) (h : Positioned 0 t) (hk : InRange key)
    (hf : ¬ Found t key) (j : Nat) : (t j).key ≠ key := by
  intro hj
  rcases h j (by rw [hj]; exact hk.1) (by rw [hj]; exact hk) with ⟨i, hi, hs⟩
  exact hf ⟨i, hi, by rw [← hj, ← hs]⟩

/-! ## The chain of evictions -/

/-- What is kept by writing a key into one of its own buckets is kept by
    `place`, if the keys the chain takes up are of the same kind as the first. -/
theorem place_invariant (K : Int → Prop) (I : Table → Prop) (hK : ∀ k, K k → Indexable k)
    (htake : ∀ t j, I t → (t j).key ≠ intMin → K (toInt32 (t j).key))
    (hput : ∀ t i k b, I t → i < ver → K k → b.key = k → I (Function.update t (slot i k) b))
    (value : Int) : ∀ (n : Nat) (t : Table) (key : Int) (tableID : Nat), I t → K key →
      tableID < ver → ∃ t', place t key value tableID n = some t' ∧ I t' := by
  intro n
  induction n with
  | zero => intro t key tableID ht _ _; exact ⟨t, rfl, ht⟩
  | succ n ih =>
      intro t key tableID ht hk hid
      have hr := hK key hk
      by_cases hf : Found t key
      · exact ⟨t, place_found t key value tableID n hr hf, ht⟩
      · by_cases hb : (t (slot tableID key)).key = intMin
        · exact ⟨_, place_empty t key value tableID n hr hid hf hb,
            hput t tableID key _ ht hid hk rfl⟩
        · -- The chain goes on with a key read from the table.
          rw [place_evict t key value tableID n hr hid hf hb]
          exact ih _ _ _ (hput t tableID key _ ht hid hk rfl) (htake t _ ht hb)
            (Nat.mod_lt _ (by decide))

/-- From a readable table `place` reads and writes inside the array, and leaves
    each key in one of its own buckets. -/
theorem place_positioned (lo : Int) (t : Table) (key value : Int) (tableID n : Nat)
    (ht : Readable t) (hp : Positioned lo t) (hk : InRange key) (hid : tableID < ver) :
    ∃ t', place t key value tableID n = some t' ∧ Readable t' ∧ Positioned lo t' :=
  place_invariant InRange (fun t => Readable t ∧ Positioned lo t) indexable_of_inRange
    (fun _ j h hj => inRange_toInt32 _ (h.1 j hj))
    (fun t i k b h hi hk hb =>
      ⟨readable_put t _ k b h.1 hk hb, positioned_put lo t i k b h.2 hi hb⟩)
    value n t key tableID ⟨ht, hp⟩ hk hid

/-- What is to be shown of a table, the key in hand, where it goes and how many
    calls are left, of the table the chain leaves from there and of the key it
    is cut off with. -/
abbrev ChainProperty : Type :=
  Table → Int → Nat → Nat → Table → Option Int → Prop

/-- What is true of the keys a chain takes in hand and of the tables it leaves:
    such a key has its buckets in the array, a bucket's key is such a key, and
    writing one that was not found keeps the table's part. -/
structure ChainInvariant (H : Int → Prop) (I : Table → Prop) : Prop where
  indexable : ∀ k, H k → Indexable (toInt32 k)
  take : ∀ t i k, I t → H k → i < ver → (t (slot i (toInt32 k))).key ≠ intMin →
    H (t (slot i (toInt32 k))).key
  put : ∀ t i k b, I t → H k → i < ver → ¬ Found t (toInt32 k) → b.key = toInt32 k →
    I (Function.update t (slot i (toInt32 k)) b)

/-- Induction along the chain: it is cut off, finds the key, meets an empty
    bucket, or takes up the key it meets. -/
theorem place_rule {H : Int → Prop} {I : Table → Prop} (hI : ChainInvariant H I) (value : Int)
    (Q : ChainProperty)
    (hcut : ∀ t held tableID, I t → Q t held tableID 0 t (some held))
    (hfound : ∀ t held tableID n, I t → H held → Found t (toInt32 held) →
      Q t held tableID (n + 1) t none)
    (hempty : ∀ t held tableID n, I t → H held → tableID < ver → ¬ Found t (toInt32 held) →
      (t (slot tableID (toInt32 held))).key = intMin →
      Q t held tableID (n + 1) (Function.update t (slot tableID (toInt32 held))
        { t (slot tableID (toInt32 held)) with key := toInt32 held }) none)
    (hevict : ∀ t held tableID n t' cut, I t → H held → tableID < ver →
      ¬ Found t (toInt32 held) → (t (slot tableID (toInt32 held))).key ≠ intMin →
      Q (Function.update t (slot tableID (toInt32 held)) (evicted (toInt32 held) value))
        (t (slot tableID (toInt32 held))).key ((tableID + 1) % ver) n t' cut →
      Q t held tableID (n + 1) t' cut) :
    ∀ (n : Nat) (t : Table) (held : Int) (tableID : Nat), I t → H held → tableID < ver →
      ∃ t', place t (toInt32 held) value tableID n = some t' ∧ I t' ∧
        Q t held tableID n t' (unpositioned t held value tableID n) := by
  intro n
  induction n with
  | zero => intro t held tableID ht _ _; exact ⟨t, rfl, ht, hcut t held tableID ht⟩
  | succ n ih =>
      intro t held tableID ht hh hid
      have hi := hI.indexable held hh
      by_cases hf : Found t (toInt32 held)
      · refine ⟨t, place_found t _ value tableID n hi hf, ht, ?_⟩
        rw [unpositioned_found t held value tableID n hi hf]
        exact hfound t held tableID n ht hh hf
      by_cases hb : (t (slot tableID (toInt32 held))).key = intMin
      · refine ⟨_, place_empty t _ value tableID n hi hid hf hb,
          hI.put t tableID held _ ht hh hid hf rfl, ?_⟩
        rw [unpositioned_empty t held value tableID n hi hid hf hb]
        exact hempty t held tableID n ht hh hid hf hb
      · rcases ih _ _ ((tableID + 1) % ver)
          (hI.put t tableID held (evicted (toInt32 held) value) ht hh hid hf rfl)
          (hI.take t tableID held ht hh hid hb) (Nat.mod_lt _ (by decide)) with ⟨t', ht', hI', hQ⟩
        refine ⟨t', (place_evict t _ value tableID n hi hid hf hb).trans ht', hI', ?_⟩
        rw [unpositioned_evict t held value tableID n hi hid hf hb]
        exact hevict t held tableID n t' _ ht hh hid hf hb hQ

theorem chainInvariant_readable : ChainInvariant (fun k => InRange (toInt32 k)) Readable where
  indexable := fun _ hk => indexable_of_inRange _ hk
  take := fun _ _ _ ht _ _ hb => inRange_toInt32 _ (ht _ hb)
  put := fun t _ _ b ht hk _ _ hb => readable_put t _ _ b ht hk hb

/-- A stored key, and the key placed, is stored after `place`, unless it is in
    hand where the chain is cut off. -/
theorem place_keeps (value a : Int) (ha : InRange a) (n : Nat) (t t' : Table) (held : Int)
    (tableID : Nat) (ht : Readable t) (hk : InRange (toInt32 held)) (hid : tableID < ver)
    (hfa : Found t a ∨ held = a) (h : place t (toInt32 held) value tableID n = some t') :
    Found t' a ∨ unpositioned t held value tableID n = some a := by
  -- Narrowing loses nothing of the key in question.
  have hself : ∀ held, held = a → toInt32 held = a := fun held he => by
    rw [he, toInt32_of_inRange a ha]
  have hrule := place_rule chainInvariant_readable value
    (fun t held _ _ t' cut => Found t a ∨ held = a → Found t' a ∨ cut = some a)
    ?cut ?found ?empty ?evict n t held tableID ht hk hid
  case cut =>
    intro t held _ _ hfa
    exact hfa.imp_right (congrArg some)
  case found =>
    intro t held _ _ _ _ hf hfa
    rcases hfa with hfa | he
    · exact Or.inl hfa
    · rw [hself held he] at hf
      exact Or.inl hf
  case empty =>
    intro t held tableID _ _ _ hid _ hb hfa
    refine Or.inl ?_
    rcases hfa with hfa | he
    · rcases found_update t (slot tableID (toInt32 held))
        { t (slot tableID (toInt32 held)) with key := toInt32 held } a hfa with hfa | hsa
      · exact hfa
      · -- The bucket was empty, so it did not hold the key.
        exact absurd ha.1 (by rw [← hsa, hb]; decide)
    · rw [hself held he]
      exact found_put t tableID a _ hid rfl
  case evict =>
    intro t held tableID n t' cut _ _ hid _ _ hQ hfa
    -- The key is left where it is, taken in hand, or written by this call.
    rcases hfa with hfa | he
    · exact hQ (found_update t _ _ a hfa)
    · rw [hself held he] at hQ
      exact hQ (Or.inl (found_put t tableID a _ hid rfl))
  rcases hrule with ⟨u, hu, _, hQ⟩
  rw [h, Option.some.injEq] at hu
  rw [hu]
  exact hQ hfa

/-- Where keys are stored once each, a key taken out of its bucket is stored
    nowhere. -/
theorem not_found_evicted (t : Table) (i : Nat) (key value : Int) (hd : Distinct t)
    (hi : i < ver) (hf : ¬ Found t key) (hr : InRange (t (slot i key)).key) :
    ¬ Found (Function.update t (slot i key) (evicted key value)) (t (slot i key)).key := by
  intro h
  rcases h with ⟨j, hj, hk⟩
  by_cases hs : slot j (t (slot i key)).key = slot i key
  · -- The bucket now holds `key`, which would have been stored before.
    rw [hs, Function.update_self] at hk
    exact hf ⟨i, hi, hk.symm⟩
  · -- Another bucket with the key would be a second one.
    rw [Function.update_of_ne hs] at hk
    exact hs (hd _ _ (by rw [hk]; exact hr) hk)

theorem chainInvariant_distinct : ChainInvariant (fun k => InRange (toInt32 k))
    (fun t => Readable t ∧ Positioned 0 t ∧ Distinct t) where
  indexable := fun _ hk => indexable_of_inRange _ hk
  take := fun _ _ _ ht _ _ hb => inRange_toInt32 _ (ht.1 _ hb)
  put := fun t i _ b ht hk hi hf hb => ⟨readable_put t _ _ b ht.1 hk hb,
    positioned_put 0 t i _ b ht.2.1 hi hb,
    -- A key that is not found is in no bucket, so writing it keeps keys distinct.
    distinct_put t _ _ b ht.2.2 (key_ne_of_not_found t _ ht.2.1 hk hf) hb⟩

/-- Where keys are in their own buckets and once each, they remain so, and a key
    in hand where the chain is cut off is stored nowhere. -/
theorem place_drops (value : Int) (n : Nat) (t t' : Table) (held : Int) (tableID : Nat)
    (ht : Readable t) (hp : Positioned 0 t) (hd : Distinct t) (hk : InRange (toInt32 held))
    (hid : tableID < ver) (hheld : n = 0 → InRange held → ¬ Found t held)
    (h : place t (toInt32 held) value tableID n = some t') :
    Distinct t' ∧ ∀ a, InRange a → unpositioned t held value tableID n = some a →
      ¬ Found t' a := by
  have hrule := place_rule chainInvariant_distinct value
    (fun t held _ n t' cut => (n = 0 → InRange held → ¬ Found t held) →
      ∀ a, InRange a → cut = some a → ¬ Found t' a)
    (fun t held _ _ hheld a ha hu => ?cut)
    (fun _ _ _ _ _ _ _ _ _ _ hu => absurd hu (by simp only [reduceCtorEq, not_false_eq_true]))
    (fun _ _ _ _ _ _ _ _ _ _ _ _ hu =>
      absurd hu (by simp only [reduceCtorEq, not_false_eq_true]))
    (fun t held tableID n t' cut ht _ hid hf _ hQ _ => ?evict) n t held tableID ⟨ht, hp, hd⟩ hk hid
  case cut =>
    rw [Option.some.injEq] at hu
    rw [← hu] at ha ⊢
    exact hheld rfl ha
  case evict =>
    exact hQ (fun _ hr => not_found_evicted t tableID _ value ht.2.2 hid hf hr)
  rcases hrule with ⟨u, hu, ⟨_, _, hdu⟩, hQ⟩
  rw [h, Option.some.injEq] at hu
  rw [hu]
  exact ⟨hdu, hQ hheld⟩

end Pilaf

end LocalKeyValue
