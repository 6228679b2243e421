import LocalKeyValue.Lib.CInt

/-!
# The FaRM Hopscotch Table

The hash table of the FaRM server, function by function from `hopscotch.c`.

A key's home is the bucket its hash names, and a key may sit in any of the
`HOPSCOTCH_HOPINFO_SIZE` buckets from its home on. Which of them do hold keys
of that home is recorded in the home's `hopinfo` word, one bit per bucket, and
the three searching operations visit only buckets whose bit is set. They share
their loop, `findBucket`.

The array has `2^exponent` buckets and C does not check the index. Here a read
past the end is `none`, so that a result says the call stayed inside the array.
Only the searching loop can leave it: `hopscotch_insert` probes below
`2^exponent`, and displacement walks down from where the probe stopped.

`hopscotch_insert` puts the key into the first empty bucket at or after its
home. When that is too far, `displace` moves the hole down: it looks at the
homes just below the hole for one whose lowest `hopinfo` bit names a bucket
below the hole, moves the entry of that bucket up into the hole, and goes on
from the bucket it came from. The C loop has no bound of its own. The hole only
moves down, so the position of the hole is one, and `displace` takes it as fuel.

The `value` field of a bucket is left out, as nothing reads or writes it.

## Main definitions

* `Bucket`, `HashTable`: `struct hopscotch_bucket`, `struct hopscotch_hash_table`.
* `jenkinsHash`, `homeIdx`: The hash and the index it is converted to.
* `findBucket`: The searching loop of update, lookup and remove.
* `hopscotchUpdate`, `hopscotchLookup`, `hopscotchInsert`, `hopscotchRemove`:
  The four operations.
* `firstEmpty`, `donor`, `hop`, `displace`, `store`: The parts of insert.
* `hopscotchInit`: The table the server starts with.
-/

namespace LocalKeyValue

namespace FaRM

/-- `HOPSCOTCH_INIT_BSIZE_EXPONENT` -/
def hopscotchInitBsizeExponent : Nat := 22

/-- `HOPSCOTCH_HOPINFO_SIZE` -/
def hopscotchHopinfoSize : Nat := 6

/-- One bucket. Each field has the width of the C field, `key`, `data` and
    `lock` being `int32_t`. -/
structure Bucket where
  key : Int
  headerVersion : BitVec 64
  data : Int
  lock : Int
  cVer : BitVec 8
  hopinfo : BitVec 32
deriving DecidableEq

/-- The table: the bucket array and the logarithm of its size. -/
structure HashTable where
  exponent : Nat
  keylen : Nat
  buckets : Nat → Bucket

/-- The size of the bucket array, `1ULL << ht->exponent`. -/
def HashTable.sz (ht : HashTable) : Nat :=
  2 ^ ht.exponent

/-- Reading a bucket by index, `none` past the end of the array. -/
def HashTable.bucket? (ht : HashTable) (i : Nat) : Option Bucket :=
  if i < ht.sz then some (ht.buckets i) else none

/-- Storing a bucket. -/
def HashTable.setBucket (ht : HashTable) (i : Nat) (b : Bucket) : HashTable :=
  { ht with buckets := fun q => if q = i then b else ht.buckets q }

/-- Storing a bucket's `hopinfo` alone. -/
def HashTable.setHopinfo (ht : HashTable) (h : Nat) (w : BitVec 32) : HashTable :=
  ht.setBucket h { ht.buckets h with hopinfo := w }

@[simp] theorem setBucket_self (ht : HashTable) (i : Nat) (b : Bucket) :
    (ht.setBucket i b).buckets i = b := by
  simp only [HashTable.setBucket, if_true]

theorem setBucket_other (ht : HashTable) (i : Nat) (b : Bucket) (q : Nat) (h : q ≠ i) :
    (ht.setBucket i b).buckets q = ht.buckets q := by
  simp only [HashTable.setBucket, if_neg h]

@[simp] theorem setBucket_sz (ht : HashTable) (i : Nat) (b : Bucket) :
    (ht.setBucket i b).sz = ht.sz := rfl

/-- A store that keeps a bucket's `hopinfo` keeps every `hopinfo`. -/
theorem setBucket_hopinfo (ht : HashTable) (i : Nat) (b : Bucket) (q : Nat)
    (h : b.hopinfo = (ht.buckets i).hopinfo) :
    ((ht.setBucket i b).buckets q).hopinfo = (ht.buckets q).hopinfo := by
  by_cases hq : q = i
  · rw [hq, setBucket_self, h]
  · rw [setBucket_other ht i b q hq]

theorem bucket?_eq_some (ht : HashTable) (i : Nat) (b : Bucket) (h : ht.bucket? i = some b) :
    i < ht.sz ∧ b = ht.buckets i := by
  rw [HashTable.bucket?] at h
  by_cases hi : i < ht.sz
  · rw [if_pos hi, Option.some.injEq] at h
    exact ⟨hi, h.symm⟩
  · rw [if_neg hi] at h
    exact absurd h (by simp only [reduceCtorEq, not_false_eq_true])

theorem setHopinfo_hopinfo (ht : HashTable) (h : Nat) (w : BitVec 32) (q : Nat) :
    ((ht.setHopinfo h w).buckets q).hopinfo = if q = h then w else (ht.buckets q).hopinfo := by
  by_cases hq : q = h
  · rw [if_pos hq, hq, HashTable.setHopinfo, setBucket_self]
  · rw [if_neg hq, HashTable.setHopinfo, setBucket_other ht h _ q hq]

/-- A store to `hopinfo` changes nothing else. -/
theorem setHopinfo_rest (ht : HashTable) (h : Nat) (w : BitVec 32) (q : Nat) :
    ∃ w', (ht.setHopinfo h w).buckets q = { ht.buckets q with hopinfo := w' } := by
  by_cases hq : q = h
  · exact ⟨w, by rw [hq, HashTable.setHopinfo, setBucket_self]⟩
  · exact ⟨(ht.buckets q).hopinfo, by rw [HashTable.setHopinfo, setBucket_other ht h _ q hq]⟩

/-- `_jenkins_hash`. The key length is passed and not used. -/
def jenkinsHash (key : Int) (_len : Nat) : Int :=
  key.tmod (2 ^ hopscotchInitBsizeExponent)

/-- The index of a key's home: the hash as a `uint32_t`, then as a `size_t`. -/
def HashTable.homeIdx (ht : HashTable) (key : Int) : Nat :=
  CInt.toUInt32 (jenkinsHash key ht.keylen)

/-- The searching loop, from offset `i` for `n` more offsets: the offset of the
    first marked bucket that holds the key. -/
def findBucket (ht : HashTable) (idx : Nat) (key : Int) : Nat → Nat → Option (Option Nat)
  | 0, _ => some none
  | n + 1, i =>
    if (ht.buckets idx).hopinfo.getLsbD i then
      -- Past the end of the array, if the home is one of the last five buckets.
      match ht.bucket? (idx + i) with
      | none => none
      | some b => if key = b.key then some (some i) else findBucket ht idx key n (i + 1)
    else findBucket ht idx key n (i + 1)

/-- The search from a home: an early exit on an empty `hopinfo`, then the loop
    over all its bits. -/
def findFrom (ht : HashTable) (idx : Nat) (key : Int) : Option (Option Nat) :=
  match ht.bucket? idx with
  | none => none
  | some b =>
    if b.hopinfo = 0 then some none else findBucket ht idx key hopscotchHopinfoSize 0

/-- The stores of an update: lock, version, data, version, unlock. -/
def updated (b : Bucket) (nval : Int) : Bucket :=
  { b with
    headerVersion := b.headerVersion + 1
    data := nval
    cVer := b.cVer + 1
    lock := 0 }

/-- `hopscotch_update` -/
def hopscotchUpdate (ht : HashTable) (key nval : Int) : Option (HashTable × Int) :=
  match findFrom ht (ht.homeIdx key) key with
  | none => none
  | some none => some (ht, 0)
  | some (some i) =>
    some (ht.setBucket (ht.homeIdx key + i) (updated (ht.buckets (ht.homeIdx key + i)) nval), 1)

/-- `hopscotch_lookup` -/
def hopscotchLookup (ht : HashTable) (key : Int) : Option Int :=
  match findFrom ht (ht.homeIdx key) key with
  | none => none
  | some none => some 0
  | some (some i) => some (ht.buckets (ht.homeIdx key + i)).data

/-- Clear one bit of a `hopinfo` word, `hopinfo &= ~(1ULL << off)`. -/
def clearBit (w : BitVec 32) (off : Nat) : BitVec 32 :=
  w &&& ~~~(1#32 <<< off)

/-- Set one bit of a `hopinfo` word, `hopinfo |= (1ULL << off)`. -/
def setBit (w : BitVec 32) (off : Nat) : BitVec 32 :=
  w ||| (1#32 <<< off)

/-- `hopscotch_remove`. Unlike the other two it masks the home index with
    `sz - 1`, and it returns 0 on an empty `hopinfo` but -1 when the loop finds
    nothing. -/
def hopscotchRemove (ht : HashTable) (key : Int) : Option (HashTable × Int) :=
  let idx := ht.homeIdx key &&& (ht.sz - 1)
  match ht.bucket? idx with
  | none => none
  | some b =>
    if b.hopinfo = 0 then some (ht, 0)
    else match findBucket ht idx key hopscotchHopinfoSize 0 with
      | none => none
      | some none => some (ht, -1)
      | some (some i) =>
        let data := (ht.buckets (idx + i)).data
        -- The bit goes before the key, in the order of the source.
        let ht1 := ht.setHopinfo idx (clearBit (ht.buckets idx).hopinfo i)
        let ht2 := ht1.setBucket (idx + i) { ht1.buckets (idx + i) with key := -1, data := -1 }
        some (ht2, data)

/-- Linear probing: the first bucket with key -1 among the `n` from `i` on. -/
def firstEmpty (ht : HashTable) : Nat → Nat → Option Nat
  | 0, _ => none
  | n + 1, i => if (ht.buckets i).key = -1 then some i else firstEmpty ht n (i + 1)

/-- The home at distance `j` or more below the hole `i` whose lowest `hopinfo`
    bit names a bucket below the hole, with that bit. `n` distances are left. -/
def donor (ht : HashTable) (i : Nat) : Nat → Nat → Option (Nat × Nat)
  | 0, _ => none
  | n + 1, j =>
    let hopinfo := (ht.buckets (i - j)).hopinfo
    -- `__builtin_ctz` is undefined on 0, and the source tests for it.
    if hopinfo ≠ 0 ∧ hopinfo.ctz.toNat < j then some (j, hopinfo.ctz.toNat)
    else donor ht i n (j + 1)

/-- Move the entry at offset `off` of home `i - j` into the hole `i`, and
    record the move in the home's `hopinfo`. The bucket it came from is left as
    it is. -/
def hop (ht : HashTable) (i j off : Nat) : HashTable :=
  let src := ht.buckets (i - j + off)
  let ht1 := ht.setBucket i { ht.buckets i with
    key := src.key
    data := src.data
    headerVersion := src.headerVersion
    lock := src.lock
    cVer := src.cVer }
  ht1.setHopinfo (i - j) (setBit (clearBit (ht1.buckets (i - j)).hopinfo off) j)

/-- The displacement loop: move the hole `i` down until it is within reach of
    the home `idx`. The second component is where the hole ends up, or `none`
    if no entry can be moved into it. `none` altogether is fuel running out. -/
def displace (idx : Nat) : Nat → HashTable → Nat → Option (HashTable × Option Nat)
  | 0, _, _ => none
  | fuel + 1, ht, i =>
    -- The condition of the `while` loop.
    if i - idx < hopscotchHopinfoSize then some (ht, some i)
    else match donor ht i (hopscotchHopinfoSize - 1) 1 with
      | none => some (ht, none)
      | some (j, off) => displace idx fuel (hop ht i j off) (i - j + off)

/-- Store the new key in the hole `i` and mark it in its home's `hopinfo`. -/
def store (ht : HashTable) (idx i : Nat) (key data : Int) : HashTable :=
  let ht1 := ht.setBucket i { ht.buckets i with
    headerVersion := 1
    lock := 0
    cVer := 1
    key := key
    data := data }
  ht1.setHopinfo idx (setBit (ht1.buckets idx).hopinfo (i - idx))

/-- `hopscotch_insert` -/
def hopscotchInsert (ht : HashTable) (key data : Int) : Option (HashTable × Int) :=
  let idx := ht.homeIdx key
  -- The probe goes to the end of the array and does not wrap around.
  match firstEmpty ht (ht.sz - idx) idx with
  | none => some (ht, -1)
  | some i =>
    match displace idx (i + 1) ht i with
    | none => none
    | some (ht', none) => some (ht', -1)
    | some (ht', some i') => some (store ht' idx i' key data, 0)

/-- A bucket after `memset(buckets, -1, ...)`. -/
def memsetBucket : Bucket where
  key := -1
  headerVersion := BitVec.allOnes 64
  data := -1
  lock := -1
  cVer := BitVec.allOnes 8
  hopinfo := BitVec.allOnes 32

/-- `hopscotch_init`, as `setup_buffers` calls it: every byte of every bucket
    is -1, the bytes of `hopinfo` among them. -/
def hopscotchInit : HashTable where
  exponent := hopscotchInitBsizeExponent
  keylen := 16
  buckets := fun _ => memsetBucket

end FaRM

end LocalKeyValue
