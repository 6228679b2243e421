import LocalKeyValue.Lib.CInt

/-!
# The HydraDB Hash Table

The hash table of the HydraDB server. A key has one bucket, of seven slots; a
slot in use points to an item, which holds the key and the value. Items come
from a pool, `buckets`, in order: `index_` is the next one, and it only grows.
An update writes a new item and flags the old one; a delete frees the slot but
leaves its address where it is, and writes key 0 into the item.

A search does not look at `busy`. It reads the item of each slot in turn, so it
follows every address it comes to before it finds its key.

The functions work on memory and are partial for it: `none` is a null address
followed, an item past the end of the pool, a bucket past the end of the table,
or a copy past the end of an item's 32 bytes.

## Main definitions

* `HashItem`, `HashKey`, `HashTable`: The pool, the slots and `index_`.
* `calcHash`, `findFreeSlot`, `strncpy`: What the operations are made of.
* `hashtableCreate`, `hashtableInsert`, `hashtableSearch`, `updateHashKey`,
  `hashtableDelete`: The operations.
* `randStr`, `hashTableInitialize`: Loading the table.
-/

namespace LocalKeyValue

namespace HydraDB

open CInt

abbrev Byte := BitVec 8

/-- `MAX_POOL`, the number of buckets of the table. -/
abbrev maxPool : Nat := 1000000

/-- The slots of a bucket. -/
abbrev slots : Nat := 7

/-- `Key_size`, the bytes of an item's value. -/
abbrev keySize : Nat := 32

/-- `DEFAULT_LEASE` -/
abbrev defaultLease : Byte := 1

/-- `hash_item_t` -/
structure HashItem where
  key : Int
  flag : Byte
  p : Nat → Byte

/-- `hash_key_t`. The address is an item's number in the pool, or null. -/
structure HashKey where
  size : Byte
  addr : Option Nat
  busy : Byte
  lease : Byte

/-- The table, the pool with its size, and `index_`. Slot `i` of bucket `b` is
    `slot (b, i)`. -/
structure HashTable where
  slot : Nat × Nat → HashKey
  buckets : Nat → HashItem
  poolSize : Nat
  index : Nat

/-- `search_return_t` -/
structure SearchReturn where
  descriptor : Option (Nat × Nat)
  keyAddress : Option Nat
  extEnabled : Int
deriving DecidableEq

def HashTable.setSlot (h : HashTable) (p : Nat × Nat) (k : HashKey) : HashTable :=
  { h with slot := Function.update h.slot p k }

def HashTable.setItem (h : HashTable) (a : Nat) (item : HashItem) : HashTable :=
  { h with buckets := Function.update h.buckets a item }

/-- The item at an address. -/
def item? (h : HashTable) (addr : Option Nat) : Option HashItem :=
  match addr with
  | none => none
  | some a => if a < h.poolSize then some (h.buckets a) else none

/-- `calc_hash`. A negative remainder converts to a large `size_t`. -/
def calcHash (key : Int) : Nat :=
  (key.tmod maxPool % 2 ^ 64).toNat

/-- `strncpy(dst, src, size)`: the bytes of `src` up to a NUL, then NULs. -/
def strncpy (dst src : Nat → Byte) (size : Nat) : Nat → Byte := fun i =>
  if i < size then (if (List.range (i + 1)).any (fun j => src j = 0) then 0 else src i)
  else dst i

/-- `strncpy` into an item's value, if it fits. -/
def copyValue (item : HashItem) (src : Nat → Byte) (size : Int) : Option HashItem :=
  if 0 ≤ size ∧ size ≤ keySize then some { item with p := strncpy item.p src size.toNat }
  else none

/-- The loop of `find_free_slot` from slot `i`, with `n` slots to go. -/
def findFreeSlotFrom (h : HashTable) (b : Nat) : Nat → Nat → Int
  | 0, _ => -1
  | n + 1, i => if (h.slot (b, i)).busy = 0 then i else findFreeSlotFrom h b n (i + 1)

/-- The first slot of bucket `b` that is not busy, or -1. -/
def findFreeSlot (h : HashTable) (b : Nat) : Int :=
  findFreeSlotFrom h b slots 0

/-- `hashtable_create`: empty the slots of the first `size` buckets. -/
def hashtableCreate (h : HashTable) (size : Nat) : HashTable :=
  { h with slot := fun p =>
      if p.1 < size ∧ p.2 < slots then
        { h.slot p with addr := none, lease := defaultLease, busy := 0 }
      else h.slot p }

/-- Write an item at the next place of the pool and move on. -/
def hashtableInsert (h : HashTable) (key : Int) (value : Nat → Byte) (size : Int) :
    Option (HashTable × Int) :=
  let hashv := calcHash key
  if hashv < maxPool then
    let i := findFreeSlot h hashv
    if i ≠ -1 then
      -- `index_` is not compared with the size of the pool.
      match item? h (some h.index) with
      | none => none
      | some item =>
        match copyValue { item with key := key, flag := 0 } value size with
        | none => none
        | some item =>
          let slot := { h.slot (hashv, i.toNat) with
            addr := some h.index, size := BitVec.ofInt 8 size, lease := defaultLease, busy := 1 }
          some ({ (h.setSlot (hashv, i.toNat) slot).setItem h.index item with
            index := h.index + 1 }, 0)
    else some (h, -1)
  else none

/-- The loop of `hashtable_search` from slot `i`, with `n` slots to go. -/
def searchFrom (h : HashTable) (b : Nat) (key : Int) : Nat → Nat → Option SearchReturn
  | 0, _ => some { descriptor := none, keyAddress := none, extEnabled := 0 }
  | n + 1, i => match item? h (h.slot (b, i)).addr with
    | none => none
    | some iter =>
      -- The address was followed whether it is null or not.
      if iter.key = key then
        some { descriptor := some (b, i), keyAddress := (h.slot (b, i)).addr, extEnabled := 0 }
      else searchFrom h b key n (i + 1)

/-- The slot and the item of a key, or nulls. -/
def hashtableSearch (h : HashTable) (key : Int) : Option SearchReturn :=
  if calcHash key < maxPool then searchFrom h (calcHash key) key slots 0 else none

/-- Flag the key's item and give its slot a new one. -/
def updateHashKey (h : HashTable) (key : Int) (newValue : Nat → Byte) (size : Int) :
    Option (HashTable × SearchReturn) :=
  match hashtableSearch h key with
  | none => none
  | some ret =>
    match ret.descriptor, ret.keyAddress with
    | some p, some a =>
      let flagged := h.setItem a { h.buckets a with flag := 1 }
      match item? flagged (some h.index) with
      | none => none
      | some item =>
        match copyValue item newValue size with
        | none => none
        | some item =>
          let slot := { h.slot p with
            size := BitVec.ofInt 8 size, addr := some h.index, lease := defaultLease }
          some ({ (flagged.setSlot p slot).setItem h.index { item with key := key } with
            index := h.index + 1 }, { ret with keyAddress := some h.index })
    -- A key that is not there: the flag is written through a null address.
    | _, _ => none

/-- The loop of `hashtable_delete` from slot `i`, with `n` slots to go. -/
def deleteFrom (h : HashTable) (b : Nat) (key : Int) : Nat → Nat → Option HashTable
  | 0, _ => some h
  | n + 1, i => match (h.slot (b, i)).addr with
    -- The search does not make this test.
    | none => deleteFrom h b key n (i + 1)
    | some a => match item? h (some a) with
      | none => none
      | some item =>
        if key = item.key then
          deleteFrom ((h.setSlot (b, i) { h.slot (b, i) with busy := 0 }).setItem a
            { item with key := 0 }) b key n (i + 1)
        else deleteFrom h b key n (i + 1)

/-- Free the slot of a key, and write key 0 into its item. -/
def hashtableDelete (h : HashTable) (key : Int) : Option HashTable :=
  if calcHash key < maxPool then deleteFrom h (calcHash key) key slots 0 else none

/-! ## Loading the table -/

/-- The array `charset`, which ends with a NUL. -/
def charset : List Byte :=
  cString "0123456789abcdefghijklmnopqrstuvwxyzABCDEFGHIJKLMNOPQRSTUVWXYZ"

/-- `rand_str` from byte `i` of `dest`, with `length` characters to go. The calls
    of `rand` give `draws` in turn, this one the `c`th, and `randMax` is their
    maximum; the quotient is taken exactly. Returns how many have been made. -/
def randStr (draws : Nat → Nat) (randMax : Nat) :
    Nat → Nat → Nat → (Nat → Byte) → (Nat → Byte) × Nat
  | 0, i, c, dest => (Function.update dest i 0, c)
  | length + 1, i, c, dest =>
    let index := draws c * (charset.length - 1) / randMax
    randStr draws randMax length (i + 1) (c + 1) (Function.update dest i (charset.getD index 0))

/-- The length of the value of key `i`, from 1 to 31. -/
def randomSize (i : Nat) : Nat :=
  if i % keySize = 0 then i % keySize + 1 else i % keySize

/-- The loop of `hash_table_initialize` from key `i`, with `n` keys to go. It
    ends the program where an insert fails, and divides by `interval` to report
    how far it is. -/
def initializeFrom (draws : Nat → Nat) (randMax interval : Nat) :
    Nat → Nat → Nat → (Nat → Byte) → HashTable → Option HashTable
  | 0, _, _, _, h => some h
  | n + 1, i, c, randomTxt, h =>
    let txt := randStr draws randMax (randomSize i) 0 c randomTxt
    match hashtableInsert h i txt.1 (randomSize i) with
    | none => none
    | some (h', r) =>
      -- A failed insert ends the program, and so does the remainder by an interval of 0.
      if r ≠ 0 then none
      else if interval = 0 then none
      else initializeFrom draws randMax interval n (i + 1) txt.2 txt.1 h'

/-- Insert the keys below `size`, each with a random value. -/
def hashTableInitialize (draws : Nat → Nat) (randMax : Nat) (randomTxt : Nat → Byte)
    (h : HashTable) (size : Nat) : Option HashTable :=
  initializeFrom draws randMax (size / 10) size 0 0 randomTxt h

end HydraDB

end LocalKeyValue
