import LocalKeyValue.FaRM.TableRun

/-!
# The Writes of the FaRM Operations

A client reads buckets over the network while the server works on them, so what
it can see is the table between any two stores of an operation. Here each
operation is the list of its stores, in the order of the source, every store to
one field of one bucket. The atomic instructions an update takes and releases
the lock with are stores too, as the server is the only one to write.

The stores of an operation are listed from the table before it, and running
them makes the table after it.

## Main definitions

* `FieldWrite`, `Write`: A store to a field, and to a field of a bucket.
* `writeStep`: One store.
* `callWrites`: The stores of a call.
* `callTable`: The table after a call.

## Theorems

* `run_hopWrites`, `run_storeWrites`: The stores of the parts of an insert.
* `run_callWrites`: Running a call's stores is making the call.
-/

namespace LocalKeyValue

namespace FaRM

open Run

/-- A value stored to a field of a bucket. -/
inductive FieldWrite
  | key (v : Int)
  | headerVersion (v : BitVec 64)
  | data (v : Int)
  | lock (v : Int)
  | cVer (v : BitVec 8)
  | hopinfo (v : BitVec 32)
deriving DecidableEq

def FieldWrite.set (b : Bucket) : FieldWrite → Bucket
  | .key v => { b with key := v }
  | .headerVersion v => { b with headerVersion := v }
  | .data v => { b with data := v }
  | .lock v => { b with lock := v }
  | .cVer v => { b with cVer := v }
  | .hopinfo v => { b with hopinfo := v }

/-- A store to the bucket at an index. -/
structure Write where
  idx : Nat
  field : FieldWrite
deriving DecidableEq

def writeStep (ht : HashTable) (w : Write) : Option HashTable :=
  some (ht.setBucket w.idx (w.field.set (ht.buckets w.idx)))

/-- Stores to one bucket. -/
def writesTo (i : Nat) (fs : List FieldWrite) : List Write :=
  fs.map (Write.mk i)

/-! ## The operations -/

/-- The stores of an update to the bucket it finds. -/
def updateFields (b : Bucket) (nval : Int) : List FieldWrite :=
  [.lock 1, .headerVersion (b.headerVersion + 1), .data nval, .cVer (b.cVer + 1), .lock 0]

def updateWrites (ht : HashTable) (key nval : Int) : List Write :=
  match findFrom ht (ht.homeIdx key) key with
  | some (some i) =>
    writesTo (ht.homeIdx key + i) (updateFields (ht.buckets (ht.homeIdx key + i)) nval)
  | _ => []

def removeWrites (ht : HashTable) (key : Int) : List Write :=
  let idx := ht.homeIdx key &&& (ht.sz - 1)
  match ht.bucket? idx with
  | none => []
  | some b =>
    if b.hopinfo = 0 then []
    else match findBucket ht idx key hopscotchHopinfoSize 0 with
      | some (some i) =>
        writesTo idx [.hopinfo (clearBit b.hopinfo i)] ++
          writesTo (idx + i) [.key (-1), .data (-1)]
      | _ => []

/-- The stores of a hop to the hole. -/
def hopFields (src : Bucket) : List FieldWrite :=
  [.key src.key, .data src.data, .headerVersion src.headerVersion, .lock src.lock, .cVer src.cVer]

def hopWrites (ht : HashTable) (i j off : Nat) : List Write :=
  let hopinfo := (ht.buckets (i - j)).hopinfo
  writesTo i (hopFields (ht.buckets (i - j + off))) ++
    writesTo (i - j) [.hopinfo (clearBit hopinfo off), .hopinfo (setBit (clearBit hopinfo off) j)]

/-- The stores of an insert to the hole that is left. -/
def storeFields (key data : Int) : List FieldWrite :=
  [.headerVersion 1, .lock 0, .cVer 1, .key key, .data data]

def storeWrites (ht : HashTable) (idx i : Nat) (key data : Int) : List Write :=
  writesTo i (storeFields key data) ++
    writesTo idx [.hopinfo (setBit (ht.buckets idx).hopinfo (i - idx))]

/-- The stores of an insert from where its probe has found a hole. -/
def fillWrites (idx : Nat) (key data : Int) : Nat → HashTable → Nat → List Write
  | 0, _, _ => []
  | fuel + 1, ht, i =>
    if i - idx < hopscotchHopinfoSize then storeWrites ht idx i key data
    else match donor ht i (hopscotchHopinfoSize - 1) 1 with
      | none => []
      | some (j, off) =>
        hopWrites ht i j off ++ fillWrites idx key data fuel (hop ht i j off) (i - j + off)

def insertWrites (ht : HashTable) (key data : Int) : List Write :=
  let idx := ht.homeIdx key
  match firstEmpty ht (ht.sz - idx) idx with
  | none => []
  | some i => fillWrites idx key data (i + 1) ht i

/-- The stores of a call, none for a call that leaves the array. -/
def callWrites (ht : HashTable) : TableOp → List Write
  | .insert key data => insertWrites ht key data
  | .update key nval => updateWrites ht key nval
  | .remove key => removeWrites ht key

/-- The table after a call. -/
def callTable (ht : HashTable) : TableOp → Option HashTable
  | .insert key data => (hopscotchInsert ht key data).map Prod.fst
  | .update key nval => (hopscotchUpdate ht key nval).map Prod.fst
  | .remove key => (hopscotchRemove ht key).map Prod.fst

/-! ## Running the writes -/

theorem setBucket_setBucket (ht : HashTable) (i : Nat) (b b' : Bucket) :
    (ht.setBucket i b).setBucket i b' = ht.setBucket i b' := by
  simp only [HashTable.setBucket, HashTable.mk.injEq, true_and]
  funext q
  by_cases hq : q = i
  · rw [if_pos hq, if_pos hq]
  · rw [if_neg hq, if_neg hq, if_neg hq]

theorem setBucket_same (ht : HashTable) (i : Nat) : ht.setBucket i (ht.buckets i) = ht := by
  have hb : (ht.setBucket i (ht.buckets i)).buckets = ht.buckets := by
    funext q
    by_cases hq : q = i
    · rw [hq, setBucket_self]
    · rw [setBucket_other ht i _ q hq]
  calc ht.setBucket i (ht.buckets i)
      = { ht with buckets := (ht.setBucket i (ht.buckets i)).buckets } := rfl
    _ = ht := by rw [hb]

/-- Stores to one bucket add up to one store of the whole bucket. -/
theorem run_writesTo (i : Nat) : ∀ (fs : List FieldWrite) (ht : HashTable),
    run writeStep (writesTo i fs) ht =
      some (ht.setBucket i (fs.foldl FieldWrite.set (ht.buckets i))) := by
  intro fs
  induction fs with
  | nil =>
      intro ht
      rw [List.foldl_nil, setBucket_same]
      rfl
  | cons f fs ih =>
      intro ht
      change run writeStep (writesTo i fs) (ht.setBucket i (f.set (ht.buckets i))) = _
      rw [ih, setBucket_setBucket, setBucket_self]
      rfl

theorem run_hopWrites (ht : HashTable) (i j off : Nat) :
    run writeStep (hopWrites ht i j off) ht = some (hop ht i j off) := by
  have hrun := run_writesTo i (hopFields (ht.buckets (i - j + off))) ht
  -- The stores to the hole leave the donor's `hopinfo` as it was.
  have hinfo := setBucket_hopinfo ht i
    ((hopFields (ht.buckets (i - j + off))).foldl FieldWrite.set (ht.buckets i)) (i - j) rfl
  rw [hopWrites, run_append writeStep _ _ ht _ hrun, run_writesTo, ← hinfo]
  rfl

theorem run_storeWrites (ht : HashTable) (idx i : Nat) (key data : Int) :
    run writeStep (storeWrites ht idx i key data) ht = some (store ht idx i key data) := by
  have hrun := run_writesTo i (storeFields key data) ht
  have hinfo := setBucket_hopinfo ht i
    ((storeFields key data).foldl FieldWrite.set (ht.buckets i)) idx rfl
  rw [storeWrites, run_append writeStep _ _ ht _ hrun, run_writesTo, ← hinfo]
  rfl

/-- The table an insert makes of what its displacement has left. -/
def filled (idx : Nat) (key data : Int) (ht : HashTable) : Option Nat → HashTable
  | none => ht
  | some i => store ht idx i key data

/-- The stores from the hole on make the hops, and then the store if a hole
    came within reach. -/
theorem run_fillWrites (idx : Nat) (key data : Int) :
    ∀ (fuel : Nat) (ht ht' : HashTable) (i : Nat) (r : Option Nat),
      displace idx fuel ht i = some (ht', r) →
      run writeStep (fillWrites idx key data fuel ht i) ht = some (filled idx key data ht' r) := by
  intro fuel
  induction fuel with
  | zero => intro ht ht' i r h; simp only [displace, reduceCtorEq] at h
  | succ fuel ih =>
      intro ht ht' i r h
      rw [displace] at h
      rw [fillWrites]
      by_cases h6 : i - idx < hopscotchHopinfoSize
      · rw [if_pos h6, Option.some.injEq, Prod.mk.injEq] at h
        -- The hole is within reach, and only the stores of the new entry are left.
        rw [if_pos h6, run_storeWrites, ← h.1, ← h.2]
        rfl
      · rw [if_neg h6] at h ⊢
        cases hd : donor ht i (hopscotchHopinfoSize - 1) 1 with
        | none =>
            simp only [hd, Option.some.injEq, Prod.mk.injEq] at h
            rw [← h.1, ← h.2]
            rfl
        | some jo =>
            simp only [hd] at h ⊢
            -- The stores of one hop, then those from the hole it leaves.
            rw [run_append writeStep _ _ ht _ (run_hopWrites ht i jo.1 jo.2)]
            exact ih _ ht' _ r h

theorem run_insertWrites (ht ht' : HashTable) (key data r : Int)
    (h : hopscotchInsert ht key data = some (ht', r)) :
    run writeStep (insertWrites ht key data) ht = some ht' := by
  rw [hopscotchInsert] at h
  rw [insertWrites]
  cases hfe : firstEmpty ht (ht.sz - ht.homeIdx key) (ht.homeIdx key) with
  | none =>
      simp only [hfe, Option.some.injEq, Prod.mk.injEq] at h
      rw [← h.1]
      rfl
  | some i =>
      simp only [hfe] at h ⊢
      rcases hd : displace (ht.homeIdx key) (i + 1) ht i with _ | ⟨ht1, r1⟩
      · simp only [hd, reduceCtorEq] at h
      · rw [run_fillWrites _ key data (i + 1) ht ht1 i r1 hd]
        cases r1 <;> simp only [hd, Option.some.injEq, Prod.mk.injEq] at h <;> rw [← h.1] <;> rfl

theorem run_updateWrites (ht ht' : HashTable) (key nval r : Int)
    (h : hopscotchUpdate ht key nval = some (ht', r)) :
    run writeStep (updateWrites ht key nval) ht = some ht' := by
  rw [hopscotchUpdate] at h
  rw [updateWrites]
  rcases hf : findFrom ht (ht.homeIdx key) key with _ | _ | d <;>
    simp only [hf, Option.some.injEq, Prod.mk.injEq, reduceCtorEq] at h ⊢
  · rw [← h.1]
    rfl
  · rw [run_writesTo, ← h.1]
    rfl

theorem run_removeWrites (ht ht' : HashTable) (key r : Int)
    (h : hopscotchRemove ht key = some (ht', r)) :
    run writeStep (removeWrites ht key) ht = some ht' := by
  rw [hopscotchRemove] at h
  rw [removeWrites]
  rcases hb : ht.bucket? (ht.homeIdx key &&& (ht.sz - 1)) with _ | b
  · simp only [hb, reduceCtorEq] at h
  · rcases bucket?_eq_some ht _ b hb with ⟨_, hbk⟩
    simp only [hb] at h ⊢
    by_cases h0 : b.hopinfo = 0
    · rw [if_pos h0, Option.some.injEq, Prod.mk.injEq] at h
      rw [if_pos h0, ← h.1]
      rfl
    · rw [if_neg h0] at h ⊢
      rcases hf : findBucket ht (ht.homeIdx key &&& (ht.sz - 1)) key hopscotchHopinfoSize 0 with
        _ | _ | d <;> simp only [hf, Option.some.injEq, Prod.mk.injEq, reduceCtorEq] at h ⊢
      · rw [← h.1]
        rfl
      · rw [run_append writeStep _ _ ht _ (run_writesTo _ _ ht), run_writesTo, ← h.1, hbk]
        rfl

/-- Running the stores of a call makes the table the call makes. -/
theorem run_callWrites (ht ht' : HashTable) (op : TableOp) (h : callTable ht op = some ht') :
    run writeStep (callWrites ht op) ht = some ht' := by
  cases op with
  | insert key data =>
      rcases Option.map_eq_some_iff.mp h with ⟨⟨t, r⟩, hrun, rfl⟩
      exact run_insertWrites ht t key data r hrun
  | update key nval =>
      rcases Option.map_eq_some_iff.mp h with ⟨⟨t, r⟩, hrun, rfl⟩
      exact run_updateWrites ht t key nval r hrun
  | remove key =>
      rcases Option.map_eq_some_iff.mp h with ⟨⟨t, r⟩, hrun, rfl⟩
      exact run_removeWrites ht t key r hrun

end FaRM

end LocalKeyValue
