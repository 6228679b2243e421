import LocalKeyValue.Lib.CInt
import LocalKeyValue.Pilaf.Crc64

/-!
# The Pilaf Cuckoo Table

The hash table of the Pilaf server: `ver` tables of `MAXN` buckets in one array,
table `i` starting at index `i * (MAXN - 1)`, and three hash functions that are
the same function. A bucket is taken to be empty when its key is `INT_MIN`.

`place` puts a key into its bucket of the first table, takes out the key that
was there, puts that into its bucket of the next table, and so on round the
tables, until it meets an empty bucket or a key that is stored already, or has
been called `n` times. What it then has in hand it drops; `unpositioned` says
what that is. The C function recurses on a counter that runs up to `n`, the one
here on how far the counter still has to run.

The table is memory: `bucket?` is `none` where an index lies outside the array,
and a function that reads there returns `none`.

## Main definitions

* `Bucket`, `Table`: The array.
* `hash`, `index`, `position`: Where a key goes in a table.
* `present`, `place`, `lookup`: The functions of the table.
* `unpositioned`: The key `place` is left with.
* `memsetTable`, `setupBuffers`, `initTable`: The array filled with one byte.

## Theorems

* `place_found`, `place_evict`, `place_empty`: What one call of `place` does.
* `lookup_spec`, `lookup_ne_iff`: What `lookup` finds.
-/

namespace LocalKeyValue

namespace Pilaf

open CInt

/-- `MAXN` -/
abbrev maxn : Nat := 2500000

/-- `ver` -/
abbrev ver : Nat := 3

/-- `INT_MIN` -/
abbrev intMin : Int := -2147483648

/-- `fix_cucko_bucket` -/
structure Bucket where
  inUse : Int
  offset : Int
  key : Int
  hashBucket : BitVec 64
  size : Int
  hashKeyValue : BitVec 64
deriving DecidableEq

abbrev Table := Nat → Bucket

/-- The bucket at an index, if the array has one. -/
def bucket? (t : Table) (idx : Int) : Option Bucket :=
  if 0 ≤ idx ∧ idx < ver * maxn then some (t idx.toNat) else none

def setBucket (t : Table) (idx : Int) (b : Bucket) : Table :=
  Function.update t idx.toNat b

/-- The value of hash function `function`, for an `int` key. -/
def hash (function : Nat) (key : Int) : Int :=
  match function with
  | 1 => key.tmod maxn
  | 2 => key.tmod maxn
  | 3 => key.tmod maxn
  | _ => 0

/-- Where position `pos` of table `i` lies in the array. -/
def index (i : Nat) (pos : Int) : Int :=
  i * (maxn - 1) + pos

/-- Where `place` looks for a key in table `i`. The key is narrowed on its way
    to the hash function. -/
@[irreducible]
def position (i : Nat) (key : Int) : Int :=
  index i (hash (i + 1) (toInt32 key))

/-- The loop of `place` over the tables: whether the key is in its bucket of one
    of them. -/
def present (t : Table) (key : Int) : List Nat → Option Bool
  | [] => some false
  | i :: is => match bucket? t (position i key) with
    | none => none
    | some b => if b.key = key then some true else present t key is

/-- The checksum `place` stores, which is that of a fixed string. -/
def itemChecksum : BitVec 64 :=
  crc64 0 (cString "abcdefghijklmnopqrstuwxyzaaaaaa")

/-- The bucket of a key that has taken the place of another. -/
def evicted (key value : Int) : Bucket where
  inUse := 1
  offset := toInt32 value
  key := key
  hashBucket := itemChecksum
  size := 16
  hashKeyValue := itemChecksum

/-- `place`, with `n - cnt` for the pair of counters. -/
def place (t : Table) (key value : Int) (tableID : Nat) : Nat → Option Table
  -- `cnt == n`: the key in hand is dropped.
  | 0 => some t
  | n + 1 => match present t key [0, 1, 2] with
    | none => none
    | some true => some t
    | some false => match bucket? t (position tableID key) with
      | none => none
      | some b =>
        if b.key ≠ intMin then
          -- The variable `dis`, which takes the evicted key, is an `int`.
          place (setBucket t (position tableID key) (evicted key value)) (toInt32 b.key) value
            ((tableID + 1) % ver) n
        else some (setBucket t (position tableID key) { b with key := key })

/-- What the chain of evictions that begins with `held` has in hand where it
    comes to its `n`th call, if it does: the key as the bucket had it, which the
    next call would narrow. -/
def unpositioned (t : Table) (held value : Int) (tableID : Nat) : Nat → Option Int
  | 0 => some held
  | n + 1 =>
    let key := toInt32 held
    match present t key [0, 1, 2], bucket? t (position tableID key) with
    | some false, some b =>
      if b.key ≠ intMin then
        unpositioned (setBucket t (position tableID key) (evicted key value)) b.key value
          ((tableID + 1) % ver) n
      else none
    | _, _ => none

/-- The loop of `lookup` over the hash functions. -/
def lookupFrom (t : Table) (key : Int) : List Nat → Option Int
  | [] => some (-1)
  | f :: fs => match bucket? t (index (f - 1) (hash f key)) with
    | none => none
    | some b => if b.key = key then some (hash f key) else lookupFrom t key fs

/-- The position of an `int` key in the first table that holds it, or -1. -/
def lookup (t : Table) (key : Int) : Option Int :=
  lookupFrom t key [1, 2, 3]

/-- `n` bytes of one value, as an integer. -/
def repeated (byte n : Nat) : Nat :=
  (List.replicate n byte).foldl (fun word b => 256 * word + b) 0

/-- The array after `memset` with a byte. -/
def memsetTable (byte : BitVec 8) : Table := fun _ => {
  inUse := toInt32 (repeated byte.toNat 4)
  offset := toInt32 (repeated byte.toNat 4)
  key := Int.bmod (repeated byte.toNat 8) (2 ^ 64)
  hashBucket := BitVec.ofNat 64 (repeated byte.toNat 8)
  size := toInt32 (repeated byte.toNat 4)
  hashKeyValue := BitVec.ofNat 64 (repeated byte.toNat 8) }

/-- The table the server starts with. -/
def setupBuffers : Table :=
  memsetTable 1

/-- The table `initTable` makes. The byte is the low one of `INT_MIN`, so no
    bucket's key is `INT_MIN`. -/
def initTable : Table :=
  memsetTable (BitVec.ofInt 8 intMin)

/-! ## Keys that are not negative -/

/-- A key the table is made for. -/
def InRange (key : Int) : Prop :=
  0 ≤ key ∧ key < 2 ^ 31

instance (key : Int) : Decidable (InRange key) :=
  inferInstanceAs (Decidable (_ ∧ _))

/-- The index of a key's bucket in table `i`. -/
def slot (i : Nat) (key : Int) : Nat :=
  (position i key).toNat

/-- The key is in its bucket of one of the tables. -/
def Found (t : Table) (key : Int) : Prop :=
  ∃ i, i < ver ∧ (t (slot i key)).key = key

instance (t : Table) (key : Int) : Decidable (Found t key) :=
  decidable_of_iff (∃ i : Fin ver, (t (slot i key)).key = key)
    ⟨fun ⟨i, h⟩ => ⟨i, i.isLt, h⟩, fun ⟨i, hi, h⟩ => ⟨⟨i, hi⟩, h⟩⟩

theorem inInt32_of_inRange (key : Int) (h : InRange key) : InInt32 key :=
  ⟨by rcases h with ⟨h, _⟩; omega, h.2⟩

theorem toInt32_of_inRange (key : Int) (h : InRange key) : toInt32 key = key :=
  toInt32_of_inInt32 key (inInt32_of_inRange key h)

theorem inRange_toInt32 (key : Int) (h : 0 ≤ toInt32 key) : InRange (toInt32 key) :=
  ⟨h, (inInt32_toInt32 key).2⟩

theorem hash_eq (f : Nat) (key : Int) (hf : 1 ≤ f) (hf' : f ≤ ver) :
    hash f key = key.tmod maxn := by
  -- The three hash functions are the same one.
  have hcases : f = 1 ∨ f = 2 ∨ f = 3 := by
    simp only [ver] at hf'
    omega
  rcases hcases with rfl | rfl | rfl <;> rfl

theorem position_eq_tmod (i : Nat) (key : Int) (hi : i < ver) :
    position i key = i * (maxn - 1) + (toInt32 key).tmod maxn := by
  rw [position, hash_eq (i + 1) _ (by omega) hi, index]

theorem position_eq (i : Nat) (key : Int) (h : InRange key) (hi : i < ver) :
    position i key = i * (maxn - 1) + key % maxn := by
  rw [position_eq_tmod i key hi, toInt32_of_inRange key h, Int.tmod_eq_emod_of_nonneg h.1]

theorem slot_eq (i : Nat) (key : Int) (h : InRange key) (hi : i < ver) :
    (slot i key : Int) = i * (maxn - 1) + key % maxn ∧ slot i key < ver * maxn := by
  have hpos := position_eq i key h hi
  simp only [ver, maxn] at hi hpos ⊢
  simp only [slot]
  omega

/-! ## Keys with a place in the array -/

/-- The key narrows to one whose remainder is not negative. -/
def Indexable (key : Int) : Prop :=
  0 ≤ toInt32 key ∨ (maxn : Int) ∣ toInt32 key

instance (key : Int) : Decidable (Indexable key) :=
  inferInstanceAs (Decidable (_ ∨ _))

theorem indexable_of_inRange (key : Int) (h : InRange key) : Indexable key :=
  Or.inl (by rw [toInt32_of_inRange key h]; exact h.1)

theorem indexable_toInt32 (key : Int) : Indexable (toInt32 key) ↔ Indexable key := by
  rw [Indexable, Indexable, toInt32_of_inInt32 _ (inInt32_toInt32 key)]

/-- The positions of such a key lie in the array. -/
theorem bucket?_position (t : Table) (i : Nat) (key : Int) (h : Indexable key) (hi : i < ver) :
    bucket? t (position i key) = some (t (slot i key)) := by
  refine if_pos ?_
  rw [position_eq_tmod i key hi]
  rcases tmod_cases (toInt32 key) maxn (by decide) with ⟨_, hmod⟩ | ⟨hn, _⟩
  · have hlo := Int.emod_nonneg (toInt32 key) (by decide : (maxn : Int) ≠ 0)
    have hhi := Int.emod_lt_of_pos (toInt32 key) (by decide : (0 : Int) < maxn)
    rw [hmod]
    simp only [ver, maxn] at hi hlo hhi ⊢
    omega
  · exact absurd h hn

/-- The first position of any other key lies before the array. -/
theorem bucket?_position_zero (t : Table) (key : Int) (h : ¬ Indexable key) :
    bucket? t (position 0 key) = none := by
  refine if_neg ?_
  rw [position_eq_tmod 0 key (by decide)]
  rcases tmod_cases (toInt32 key) maxn (by decide) with ⟨hi, _⟩ | ⟨_, hmod⟩
  · exact absurd hi h
  · have hhi := Int.emod_lt_of_pos (toInt32 key) (by decide : (0 : Int) < maxn)
    rw [hmod]
    omega

/-- The loop over some tables, for a key with a place in them. -/
theorem present_eq (t : Table) (key : Int) (h : Indexable key) (is : List Nat)
    (his : ∀ i ∈ is, i < ver) :
    present t key is = some (decide (∃ i, i ∈ is ∧ (t (slot i key)).key = key)) := by
  induction is with
  | nil => simp only [present, List.not_mem_nil, false_and, exists_false, decide_false]
  | cons i is ih =>
      rw [present, bucket?_position t i key h (his i (List.mem_cons_self ..))]
      by_cases hk : (t (slot i key)).key = key
      · rw [decide_eq_true ⟨i, List.mem_cons_self .., hk⟩]
        exact if_pos hk
      · -- The loop goes on, and this table is not the one.
        refine (if_neg hk).trans ?_
        rw [ih fun j hj => his j (List.mem_cons_of_mem i hj)]
        refine congrArg some (decide_eq_decide.mpr ⟨?_, ?_⟩)
        · intro h
          rcases h with ⟨j, hj, hjk⟩
          exact ⟨j, List.mem_cons_of_mem i hj, hjk⟩
        · intro h
          rcases h with ⟨j, hj, hjk⟩
          rcases List.mem_cons.mp hj with rfl | hj
          · exact absurd hjk hk
          · exact ⟨j, hj, hjk⟩

/-- The loop over all tables says whether the key is stored. -/
theorem present_eq_found (t : Table) (key : Int) (h : Indexable key) :
    (present t key [0, 1, 2] = some true ∧ Found t key) ∨
      (present t key [0, 1, 2] = some false ∧ ¬ Found t key) := by
  have hmem : ∀ i, i ∈ [0, 1, 2] ↔ i < ver := by
    intro i
    simp only [List.mem_cons, List.not_mem_nil, or_false, ver]
    omega
  rw [present_eq t key h [0, 1, 2] fun i hi => (hmem i).mp hi]
  by_cases hf : Found t key
  · refine Or.inl ⟨congrArg some (decide_eq_true ?_), hf⟩
    rcases hf with ⟨i, hi, hk⟩
    exact ⟨i, (hmem i).mpr hi, hk⟩
  · refine Or.inr ⟨congrArg some (decide_eq_false ?_), hf⟩
    intro h
    rcases h with ⟨i, hi, hk⟩
    exact hf ⟨i, (hmem i).mp hi, hk⟩

/-! ## What one call does -/

/-- A call on a key that is stored changes nothing. -/
theorem place_found (t : Table) (key value : Int) (tableID n : Nat) (h : Indexable key)
    (hf : Found t key) : place t key value tableID (n + 1) = some t := by
  rcases present_eq_found t key h with ⟨hp, _⟩ | ⟨_, hn⟩
  · rw [place, hp]
  · exact absurd hf hn

/-- A call that meets an occupied bucket puts its key there and goes on with
    the other. -/
theorem place_evict (t : Table) (key value : Int) (tableID n : Nat) (h : Indexable key)
    (hid : tableID < ver) (hf : ¬ Found t key) (hb : (t (slot tableID key)).key ≠ intMin) :
    place t key value tableID (n + 1) =
      place (Function.update t (slot tableID key) (evicted key value))
        (toInt32 (t (slot tableID key)).key) value ((tableID + 1) % ver) n := by
  rcases present_eq_found t key h with ⟨_, hn⟩ | ⟨hp, _⟩
  · exact absurd hn hf
  · rw [place, hp, bucket?_position t tableID key h hid]
    exact if_pos hb

/-- A call that meets an empty bucket ends there. -/
theorem place_empty (t : Table) (key value : Int) (tableID n : Nat) (h : Indexable key)
    (hid : tableID < ver) (hf : ¬ Found t key) (hb : (t (slot tableID key)).key = intMin) :
    place t key value tableID (n + 1) =
      some (Function.update t (slot tableID key) { t (slot tableID key) with key := key }) := by
  rcases present_eq_found t key h with ⟨_, hn⟩ | ⟨hp, _⟩
  · exact absurd hn hf
  · rw [place, hp, bucket?_position t tableID key h hid]
    exact if_neg (not_not.mpr hb)

/-- The same for what is left in hand. -/
theorem unpositioned_found (t : Table) (held value : Int) (tableID n : Nat)
    (h : Indexable (toInt32 held)) (hf : Found t (toInt32 held)) :
    unpositioned t held value tableID (n + 1) = none := by
  rcases present_eq_found t _ h with ⟨hp, _⟩ | ⟨_, hn⟩
  · rw [unpositioned, hp]
  · exact absurd hf hn

theorem unpositioned_evict (t : Table) (held value : Int) (tableID n : Nat)
    (h : Indexable (toInt32 held)) (hid : tableID < ver) (hf : ¬ Found t (toInt32 held))
    (hb : (t (slot tableID (toInt32 held))).key ≠ intMin) :
    unpositioned t held value tableID (n + 1) =
      unpositioned (Function.update t (slot tableID (toInt32 held))
        (evicted (toInt32 held) value)) (t (slot tableID (toInt32 held))).key value
        ((tableID + 1) % ver) n := by
  rcases present_eq_found t _ h with ⟨_, hn⟩ | ⟨hp, _⟩
  · exact absurd hn hf
  · rw [unpositioned, hp, bucket?_position t tableID _ h hid]
    exact if_pos hb

theorem unpositioned_empty (t : Table) (held value : Int) (tableID n : Nat)
    (h : Indexable (toInt32 held)) (hid : tableID < ver) (hf : ¬ Found t (toInt32 held))
    (hb : (t (slot tableID (toInt32 held))).key = intMin) :
    unpositioned t held value tableID (n + 1) = none := by
  rcases present_eq_found t _ h with ⟨_, hn⟩ | ⟨hp, _⟩
  · exact absurd hn hf
  · rw [unpositioned, hp, bucket?_position t tableID _ h hid]
    exact if_neg (not_not.mpr hb)

/-! ## Lookup -/

theorem lookupFrom_eq (t : Table) (key : Int) (h32 : InInt32 key) (h : Indexable key)
    (fs : List Nat) (hfs : ∀ f ∈ fs, 1 ≤ f ∧ f ≤ ver) :
    lookupFrom t key fs =
      some (if ∃ f, f ∈ fs ∧ (t (slot (f - 1) key)).key = key then key.tmod maxn else -1) := by
  induction fs with
  | nil =>
      rw [lookupFrom, if_neg]
      intro h
      rcases h with ⟨f, hf, _⟩
      exact absurd hf List.not_mem_nil
  | cons f fs ih =>
      rcases hfs f (List.mem_cons_self ..) with ⟨h1, h3⟩
      -- `lookup` counts the hash functions from 1 and `place` the tables from 0.
      have hpos : index (f - 1) (hash f key) = position (f - 1) key := by
        rw [position, toInt32_of_inInt32 key h32, Nat.sub_add_cancel h1]
      rw [lookupFrom, hpos, bucket?_position t (f - 1) key h (by omega)]
      by_cases hk : (t (slot (f - 1) key)).key = key
      · rw [if_pos ⟨f, List.mem_cons_self .., hk⟩]
        refine (if_pos hk).trans ?_
        rw [hash_eq f key h1 h3]
      · refine (if_neg hk).trans ?_
        rw [ih fun g hg => hfs g (List.mem_cons_of_mem f hg)]
        refine congrArg some (ite_congr (propext ⟨?_, ?_⟩) (fun _ => rfl) (fun _ => rfl))
        · intro h
          rcases h with ⟨g, hg, hgk⟩
          exact ⟨g, List.mem_cons_of_mem f hg, hgk⟩
        · intro h
          rcases h with ⟨g, hg, hgk⟩
          rcases List.mem_cons.mp hg with rfl | hg
          · exact absurd hgk hk
          · exact ⟨g, hg, hgk⟩

/-- `lookup` returns -1 for a key that is not stored and the key's position in
    its table, the same for every table, for one that is. -/
theorem lookup_spec (t : Table) (key : Int) (h : InRange key) :
    (Found t key ∧ lookup t key = some (key % maxn)) ∨
      (¬ Found t key ∧ lookup t key = some (-1)) := by
  have hmem : ∀ f, f ∈ [1, 2, 3] ↔ 1 ≤ f ∧ f ≤ ver := by
    intro f
    simp only [List.mem_cons, List.not_mem_nil, or_false, ver]
    omega
  rw [lookup, lookupFrom_eq t key (inInt32_of_inRange key h) (indexable_of_inRange key h)
    [1, 2, 3] fun f hf => (hmem f).mp hf, Int.tmod_eq_emod_of_nonneg h.1]
  by_cases hf : Found t key
  · refine Or.inl ⟨hf, congrArg some (if_pos ?_)⟩
    rcases hf with ⟨i, hi, hk⟩
    exact ⟨i + 1, (hmem _).mpr ⟨by omega, hi⟩, hk⟩
  · refine Or.inr ⟨hf, congrArg some (if_neg ?_)⟩
    intro h
    rcases h with ⟨f, hf', hk⟩
    rcases (hmem f).mp hf' with ⟨h1, h3⟩
    exact hf ⟨f - 1, by omega, hk⟩

/-- `lookup` finds exactly the keys that are stored. -/
theorem lookup_ne_iff (t : Table) (key : Int) (h : InRange key) :
    lookup t key ≠ some (-1) ↔ Found t key := by
  rcases lookup_spec t key h with ⟨hf, hl⟩ | ⟨hf, hl⟩
  · -- A position is a residue, which is not negative.
    refine iff_of_true (fun hc => ?_) hf
    rw [hl, Option.some.injEq] at hc
    have := Int.emod_nonneg key (by decide : (maxn : Int) ≠ 0)
    omega
  · exact iff_of_false (not_not.mpr hl) hf

end Pilaf

end LocalKeyValue
