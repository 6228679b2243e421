import LocalKeyValue.Lib.Links

/-!
# The HydraDB Allocator

The allocator of the HydraDB server, which hands out blocks of one arena,
`dynamic_block`. The arena is cut into chunks, each with a header in front; the
headers are linked both ways. A request is always met from the last chunk: it is
cut in two, and the rest becomes the last. A freed chunk is marked free, or
merged with the chunk before if that is free. Nothing is ever taken from a
chunk that has been freed.

`free_list` is an array beside the chunks, which is meant to hold the free ones.
An entry with a null address is empty.

The functions work on memory and are partial for it: `none` is a null address
followed, or a header outside the arena read or written. A header is written at
its address as a whole; no two headers of a list overlap. Addresses are numbers,
and a pointer that a caller has is 64 bits wide.

## Main definitions

* `Arena`, `MemEntry`, `FreeEntry`, `Heap`: The memory and the globals.
* `updateFreeList`, `findFree`, `insertFreeList`, `removeFromFreeList`: The
  functions of `free_list`.
* `metalloc`, `freealloc`: Getting a block and giving it back.
-/

namespace LocalKeyValue

namespace HydraDB

open Links

/-- `BLOCKSIZE` -/
abbrev blockSize : Nat := 3000000000

/-- `sizeof(MemEntry)`: two pointers, the unit of the bit and an `unsigned int`. -/
abbrev sizeofMemEntry : Nat := 24

/-- `sizeof(FreeEntry_t)`: a pointer and an `unsigned int`, padded. -/
abbrev sizeofFreeEntry : Nat := 16

/-- The entries of `free_list`. -/
abbrev freeEntries : Nat := 10000

/-- `MemEntry` -/
structure MemEntry where
  succ : Option Nat
  prev : Option Nat
  isFree : Bool
  size : BitVec 32
deriving DecidableEq

/-- `FreeEntry_t` -/
structure FreeEntry where
  addr : Option Nat
  size : BitVec 32
deriving DecidableEq

abbrev FreeList := Nat → FreeEntry

/-- Where `dynamic_block` lies, and what the memory holds that `malloc` gives for
    `free_list`. -/
structure Arena where
  dynamicBlock : Nat
  freeMemory : FreeList
  notNull : 0 < dynamicBlock
  inMemory : dynamicBlock + blockSize ≤ 2 ^ 64

/-- The globals, the headers by address, and `free_list`. -/
structure Heap where
  initialized : Bool
  smallRoot : Option Nat
  last : Option Nat
  header : Nat → MemEntry
  freeList : FreeList

/-- The globals before the first call, and whatever the memory holds. -/
def Heap.start (header : Nat → MemEntry) (freeList : FreeList) : Heap where
  initialized := false
  smallRoot := none
  last := none
  header := header
  freeList := freeList

def Heap.setHeader (s : Heap) (a : Nat) (e : MemEntry) : Heap :=
  { s with header := Function.update s.header a e }

/-- A header at `a` lies in the arena. -/
def InArena (ar : Arena) (a : Nat) : Prop :=
  ar.dynamicBlock ≤ a ∧ a + sizeofMemEntry ≤ ar.dynamicBlock + blockSize

instance (ar : Arena) (a : Nat) : Decidable (InArena ar a) :=
  inferInstanceAs (Decidable (_ ∧ _))

/-- The header at an address. -/
def header? (ar : Arena) (s : Heap) (addr : Option Nat) : Option MemEntry :=
  match addr with
  | none => none
  | some a => if InArena ar a then some (s.header a) else none

/-! ## The free list -/

/-- The loops over `free_list` that stop at the first entry of a kind: from entry
    `i`, with `n` to go. -/
def entryFrom (fl : FreeList) (stop : FreeEntry → Bool) : Nat → Nat → Option Nat
  | 0, _ => none
  | n + 1, i => if stop (fl i) then some i else entryFrom fl stop n (i + 1)

/-- The first entry of a kind. -/
def firstEntry (fl : FreeList) (stop : FreeEntry → Bool) : Option Nat :=
  entryFrom fl stop freeEntries 0

/-- Set the address of the first entry with address `addr` to null. -/
def clearFirst (fl : FreeList) (addr : Option Nat) : FreeList :=
  match firstEntry fl (fun e => e.addr = addr) with
  | none => fl
  | some i => Function.update fl i { fl i with addr := none }

/-- Set the size of the first entry with address `addr`. -/
def resizeFirst (fl : FreeList) (addr : Option Nat) (size : BitVec 32) : FreeList :=
  match firstEntry fl (fun e => e.addr = addr) with
  | none => fl
  | some i => Function.update fl i { fl i with size := size }

/-- `update_free_list`, which returns 0. The type is 0 for a chunk merged with the
    one after it and 1 for one merged with the one before. -/
def updateFreeList (fl : FreeList) (header : Nat → MemEntry) (freeAddress : Nat)
    (size : BitVec 32) (type : Int) : FreeList × Int :=
  match type with
  | 0 =>
    -- The first loop of this type does not stop at an entry it has changed.
    let resized : FreeList := fun j =>
      if j < freeEntries ∧ (fl j).addr = some freeAddress then { fl j with size := size } else fl j
    (clearFirst resized (header freeAddress).succ, 0)
  | 1 => (clearFirst (resizeFirst fl (header freeAddress).prev size) (some freeAddress), 0)
  | _ => (fl, 0)

/-- `find_free`: the first entry of at least a size. -/
def findFree (fl : FreeList) (size : BitVec 32) : Option Nat :=
  match firstEntry fl (fun e => e.addr.isSome ∧ size ≤ e.size) with
  | none => none
  | some i => (fl i).addr

/-- `insert_free_list`: fill the first entry with a null address, or return -1. -/
def insertFreeList (fl : FreeList) (freeAddress : Nat) (size : BitVec 32) : FreeList × Int :=
  match firstEntry fl (fun e => e.addr = none) with
  | none => (fl, -1)
  | some i => (Function.update fl i { addr := some freeAddress, size := size }, 0)

/-- `remove_from_free_list`: empty the first entry with the address, or return -1. -/
def removeFromFreeList (fl : FreeList) (address : Nat) : FreeList × Int :=
  match firstEntry fl (fun e => e.addr = some address) with
  | none => (fl, -1)
  | some i => (Function.update fl i { addr := none, size := 0 }, 0)

/-! ## Getting a block -/

/-- The set-up of the first call: one free chunk, and `free_list` with it. The
    `memset` is given the number of entries for the number of bytes. -/
def initBlock (ar : Arena) (s : Heap) : Heap :=
  let size := BitVec.ofNat 32 (blockSize - sizeofMemEntry)
  let root : MemEntry := { succ := none, prev := none, isFree := true, size := size }
  let cleared : FreeList := fun i =>
    if i < freeEntries / sizeofFreeEntry then { addr := none, size := 0 } else ar.freeMemory i
  { initialized := true
    smallRoot := some ar.dynamicBlock
    last := some ar.dynamicBlock
    header := Function.update s.header ar.dynamicBlock root
    freeList := Function.update cleared 0 { addr := some ar.dynamicBlock, size := size } }

/-- `if (next != NULL) next->prev = a` -/
def pointBack (ar : Arena) (s : Heap) (next : Option Nat) (a : Nat) : Option Heap :=
  match next with
  | none => some s
  | some b => if InArena ar b then some (s.setHeader b { s.header b with prev := some a }) else none

/-- `metalloc`: cut the last chunk in two. Returns the address after its header,
    never null: the size is not compared with the chunk's. -/
def metalloc (ar : Arena) (s : Heap) (size : BitVec 32) : Option (Heap × BitVec 64) :=
  let s := if s.initialized then s else initBlock ar s
  match s.last with
  | none => none
  | some p =>
    let succ := p + sizeofMemEntry + size.toNat
    if ¬ (InArena ar p ∧ InArena ar succ) then none
    else
      let s := s.setHeader succ { s.header succ with prev := some p, succ := (s.header p).succ }
      match pointBack ar s (s.header p).succ succ with
      | none => none
      | some s =>
        let s := s.setHeader p { s.header p with succ := some succ }
        let s := s.setHeader succ { s.header succ with
          size := (s.header p).size - BitVec.ofNat 32 sizeofMemEntry - size, isFree := true }
        let s := s.setHeader p { s.header p with size := size, isFree := false }
        -- The codes of both calls are dropped.
        let removed := (removeFromFreeList s.freeList p).1
        some ({ s with
          last := some succ, freeList := (insertFreeList removed succ (s.header succ).size).1 },
          BitVec.ofNat 64 (p + sizeofMemEntry))

/-! ## Giving it back -/

/-- The error exits of `freealloc`. All but the first end the program. -/
inductive FreeError
  | uninitialized
  | inside
  | notAllocated
  | alreadyFree
deriving DecidableEq

/-- What `freealloc` prints first. -/
def FreeError.text : FreeError → String
  | .uninitialized => "Memory block uninitialized. Nothing to free."
  | .inside => "Space at %p is somewhere on the inside of the block that was originally " ++
      "allocated, or the allocated memory is being freed twice."
  | .notAllocated => "%p is not an allocated memory chunk in the memory block."
  | .alreadyFree => "Space at %x is already free."

/-- The header in front of a pointer. -/
def headerOf (p : BitVec 64) : Nat :=
  (p - BitVec.ofNat 64 sizeofMemEntry).toNat

/-- The header after this one, if it can be read. -/
def succ? (ar : Arena) (s : Heap) (a : Nat) : Option (Option Nat) :=
  (header? ar s (some a)).map MemEntry.succ

/-- The first loop of `freealloc`, which looks for a header in the list. An arena
    has fewer headers than bytes. -/
def seekHeader (ar : Arena) (s : Heap) (target : Nat) : Option (Sought Nat) :=
  seek (succ? ar s) target blockSize s.smallRoot

/-- The loop of `freealloc` for a header not found, with `n` steps to go. It follows
    `ptr->succ->succ` up to the end, only to print it. -/
def lastButOne (ar : Arena) (s : Heap) : Nat → Option Nat → Option Unit
  | 0, _ => none
  | _ + 1, none => some ()
  | n + 1, some ptr =>
    match succ? ar s ptr with
    | none => none
    -- `ptr->succ` is null here, and is followed.
    | some none => none
    | some (some succ) =>
      match succ? ar s succ with
      | none => none
      | some none => some ()
      | some (some _) => lastButOne ar s n (some succ)

/-- A chunk is merged with the free one before it. The statement that is to take
    its header out of the list is a comparison, `pred->succ == ptr->succ`. -/
def mergeFree (ar : Arena) (s : Heap) (pred ptr : Nat) : Option Heap :=
  let s := s.setHeader pred { s.header pred with
    size := (s.header pred).size + (BitVec.ofNat 32 sizeofMemEntry + (s.header ptr).size) }
  match pointBack ar s (s.header ptr).succ pred with
  | none => none
  | some s => some { s with
      freeList := (updateFreeList s.freeList s.header ptr (s.header pred).size 1).1 }

/-- A chunk is marked free, and put into `free_list` if there is room. -/
def markFree (s : Heap) (ptr : Nat) : Heap :=
  let s := s.setHeader ptr { s.header ptr with isFree := true }
  { s with freeList := (insertFreeList s.freeList ptr (s.header ptr).size).1 }

/-- `freealloc`, with the exit it takes if that is an error. -/
def freealloc (ar : Arena) (s : Heap) (p : BitVec 64) : Option (Heap × Option FreeError) :=
  if s.initialized = false then some (s, some .uninitialized)
  else
    match seekHeader ar s (headerOf p) with
    | none => none
    | some .passed => some (s, some .inside)
    | some .ended => (lastButOne ar s blockSize s.smallRoot).map fun _ => (s, some .notAllocated)
    | some (.found ptr) =>
      match header? ar s (some ptr) with
      | none => none
      | some e =>
        if e.isFree then some (s, some .alreadyFree)
        else
          match e.prev with
          | none => some (markFree s ptr, none)
          | some pred =>
            match header? ar s (some pred) with
            | none => none
            | some before =>
              if before.isFree then (mergeFree ar s pred ptr).map fun s => (s, none)
              else some (markFree s ptr, none)

end HydraDB

end LocalKeyValue
