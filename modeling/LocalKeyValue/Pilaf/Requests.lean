import LocalKeyValue.Pilaf.Serve

/-!
# Pilaf Requests

Where the server's requests take it in the array. The key of a request has 128
bits and `run_server` narrows it to an `int` before it calls `place`. The
remainder of C is negative for a negative key that `MAXN` does not divide, and
`place` and `lookup` use it as it is, so their first index for such a key lies
before the array.

For any other key all indices lie in the array, those of evicted keys included.
An evicted key is one that was placed before or a byte pattern the array was
filled with, and both of them narrow to keys that have a position.

## Main definitions

* `RequestKey`, `lookupPlaceCost`: The key of a request, before and after it is
  narrowed.
* `requestStep`: One request.
* `Evictable`: The keys in the table have positions in the array.

## Theorems

* `place_ne_none_iff`, `lookup_ne_none_iff`: The calls that stay in the array.
* `request_leaves_table`: A request with key -1 does not.
* `requests_in_table_iff`: Which runs and which requests do.
-/

namespace LocalKeyValue

namespace Pilaf

open CInt Run

/-- The key of `request_s`, an `__int128_t`. -/
abbrev RequestKey := BitVec 128

/-- The variable `run_server` puts the key in. -/
def lookupPlaceCost (key : RequestKey) : Int :=
  toInt32 key.toInt

/-- What `run_server` does to the table for a request. -/
def requestStep (t : Table) (key : RequestKey) : Option Table :=
  place t (lookupPlaceCost key) 1 0 3

/-- The keys `place` may take out of the table have positions in the array. -/
def Evictable (t : Table) : Prop :=
  ∀ j, (t j).key ≠ intMin → Indexable (t j).key

theorem evictable_setupBuffers : Evictable setupBuffers := by
  intro j _
  rw [setupBuffers_key]
  decide

theorem evictable_initTable : Evictable initTable := by
  intro j _
  rw [initTable_key]
  decide

theorem evictable_put (t : Table) (s : Nat) (key : Int) (b : Bucket) (h : Evictable t)
    (hk : Indexable key) (hb : b.key = key) : Evictable (Function.update t s b) := by
  refine keys_put (fun k => k ≠ intMin → Indexable k) t s b h (fun _ => ?_)
  rw [hb]
  exact hk

/-! ## Calls that stay in the array -/

/-- A chain of evictions that begins with such a key stays in the array. -/
theorem place_evictable (t : Table) (key value : Int) (tableID n : Nat) (h : Evictable t)
    (hk : Indexable key) (hid : tableID < ver) :
    ∃ t', place t key value tableID n = some t' ∧ Evictable t' :=
  place_invariant Indexable Evictable (fun _ hk => hk)
    (fun _ j h hj => (indexable_toInt32 _).mpr (h j hj))
    (fun t _ k b h _ hk hb => evictable_put t _ k b h hk hb) value n t key tableID h hk hid

/-- The loop of `place` over the tables begins with the first. -/
theorem place_eq_none (t : Table) (key value : Int) (tableID n : Nat) (h : ¬ Indexable key) :
    place t key value tableID (n + 1) = none := by
  have hp : present t key [0, 1, 2] = none := by
    rw [present, bucket?_position_zero t key h]
  rw [place, hp]

theorem place_ne_none_iff (t : Table) (key value : Int) (tableID n : Nat) (h : Evictable t)
    (hid : tableID < ver) : place t key value tableID (n + 1) ≠ none ↔ Indexable key := by
  by_cases hk : Indexable key
  · rcases place_evictable t key value tableID (n + 1) h hk hid with ⟨t', ht, _⟩
    refine iff_of_true ?_ hk
    rw [ht]
    simp only [ne_eq, reduceCtorEq, not_false_eq_true]
  · exact iff_of_false (not_not.mpr (place_eq_none t key value tableID n hk)) hk

/-- `lookup` only reads, so this holds in any table. -/
theorem lookup_ne_none_iff (t : Table) (key : Int) (h32 : InInt32 key) :
    lookup t key ≠ none ↔ Indexable key := by
  by_cases hk : Indexable key
  · refine iff_of_true ?_ hk
    rw [lookup, lookupFrom_eq t key h32 hk [1, 2, 3] (by decide)]
    simp only [ne_eq, reduceCtorEq, not_false_eq_true]
  · refine iff_of_false (not_not.mpr ?_) hk
    have hpos : index (1 - 1) (hash 1 key) = position 0 key := by
      rw [position, toInt32_of_inInt32 key h32]
    rw [lookup, lookupFrom, hpos, bucket?_position_zero t key hk]

/-! ## Runs of requests -/

theorem requestStep_iff (t : Table) (key : RequestKey) (h : Evictable t) :
    ((∃ t', requestStep t key = some t') ↔ Indexable (lookupPlaceCost key)) ∧
      ∀ t', requestStep t key = some t' → Evictable t' := by
  rw [requestStep, ← Option.ne_none_iff_exists', place_ne_none_iff t _ 1 0 2 h (by decide)]
  refine ⟨Iff.rfl, fun t' ht' => ?_⟩
  -- The request was served, so its key has a position.
  have hk := (place_ne_none_iff t _ 1 0 2 h (by decide)).mp
    (Option.ne_none_iff_exists'.mpr ⟨t', ht'⟩)
  rcases place_evictable t _ 1 0 3 h hk (by decide) with ⟨t'', ht'', hev⟩
  rw [ht', Option.some.injEq] at ht''
  exact ht'' ▸ hev

/-- The first request of all leaves the array if its key is -1. -/
theorem request_leaves_table : run requestStep [BitVec.ofInt 128 (-1)] setupBuffers = none := by
  rw [run, requestStep, place_eq_none _ _ _ _ _ (by decide)]

/-- A run of requests stays in the array just when each of its keys narrows to
    one that is not negative or a multiple of `MAXN`, and wherever it ends just
    the calls of `place` and `lookup` for such keys do. -/
theorem requests_in_table_iff (t₀ : Table) (h₀ : t₀ = setupBuffers ∨ t₀ = initTable)
    (keys : List RequestKey) :
    ((∃ t, run requestStep keys t₀ = some t) ↔
      ∀ key ∈ keys, Indexable (lookupPlaceCost key)) ∧
    ∀ t, run requestStep keys t₀ = some t → ∀ key : RequestKey,
      (∀ (value : Int) (tableID : Fin ver) (n : Nat),
        place t (lookupPlaceCost key) value tableID.val (n + 1) ≠ none ↔
          Indexable (lookupPlaceCost key)) ∧
      (lookup t (lookupPlaceCost key) ≠ none ↔ Indexable (lookupPlaceCost key)) := by
  have hstart : Evictable t₀ := by
    rcases h₀ with rfl | rfl
    · exact evictable_setupBuffers
    · exact evictable_initTable
  -- Whether a request goes through is up to its key, in every evictable table.
  rcases run_iff_forall requestStep (fun key => Indexable (lookupPlaceCost key)) Evictable
    requestStep_iff keys t₀ hstart with ⟨hiff, hend⟩
  refine ⟨hiff, fun t ht key => ⟨fun value tableID n => ?_, ?_⟩⟩
  · exact place_ne_none_iff t _ value tableID.val n (hend t ht) tableID.isLt
  · exact lookup_ne_none_iff t _ (inInt32_toInt32 key.toInt)

/-- Keys of one residue, one of them with a bit set that narrowing drops and one
    negative. -/
theorem requests_in_table_iff_residue :
    (∃ t, run requestStep ([0, 2500000, 0x100000000004c4b40, -2500000].map (BitVec.ofInt 128))
      setupBuffers = some t) ∧
    ∀ t, run requestStep ([0, 2500000, 0x100000000004c4b40, -2500000].map (BitVec.ofInt 128))
      setupBuffers = some t → lookup t (lookupPlaceCost (BitVec.ofInt 128 (-2500001))) = none :=
  ⟨(requests_in_table_iff setupBuffers (Or.inl rfl) _).1.mpr
      (List.forall_mem_map.mpr (by decide)),
    fun t ht => not_not.mp (fun hne => absurd
      (((requests_in_table_iff setupBuffers (Or.inl rfl) _).2 t ht _).2.mp hne) (by decide))⟩

end Pilaf

end LocalKeyValue
