import LocalKeyValue.Pilaf.Cuckoo

/-!
# The Seams Between the Pilaf Tables

The tables lie in one array, and `place` and `lookup` start table `i` at index
`i * (MAXN - 1)`, where a table has `MAXN` positions. So a table ends one bucket
after the next begins: the last position of a table and the first of the next
one are a bucket that both use. Away from these seams the tables are apart.

## Main definitions

* `AtSeam`: A position and one of the next table with the same bucket.

## Theorems

* `index_inj`: Positions of one table are apart.
* `index_eq_iff`: The positions that share a bucket.
* `tables_disjoint_iff`: Which pairs of positions, and of keys, are kept apart.
-/

namespace LocalKeyValue

namespace Pilaf

open CInt

/-- Position `pos` is the last of table `i` and `pos'` the first of the next, or
    the other way round. -/
def AtSeam (i : Nat) (pos : Int) (j : Nat) (pos' : Int) : Prop :=
  (j = i + 1 ∧ pos = maxn - 1 ∧ pos' = 0) ∨ (i = j + 1 ∧ pos' = maxn - 1 ∧ pos = 0)

instance (i : Nat) (pos : Int) (j : Nat) (pos' : Int) : Decidable (AtSeam i pos j pos') :=
  inferInstanceAs (Decidable (_ ∨ _))

/-- The positions of a table. -/
def InPositions (pos : Int) : Prop :=
  0 ≤ pos ∧ pos < maxn

instance (pos : Int) : Decidable (InPositions pos) :=
  inferInstanceAs (Decidable (_ ∧ _))

/-- Every position has an index of the array. -/
theorem index_lt (i : Nat) (pos : Int) (hi : i < ver) (hp : InPositions pos) :
    0 ≤ index i pos ∧ index i pos < ver * maxn := by
  unfold index
  unfold InPositions at hp
  simp only [ver, maxn] at hi hp ⊢
  omega

/-- Positions of one table are apart. -/
theorem index_inj (i : Nat) (pos pos' : Int) (h : index i pos = index i pos') : pos = pos' := by
  unfold index at h
  omega

/-- Two positions of different tables have one index just at a seam. -/
theorem index_eq_iff (i j : Nat) (pos pos' : Int) (hij : i ≠ j) (hp : InPositions pos)
    (hp' : InPositions pos') : index i pos = index j pos' ↔ AtSeam i pos j pos' := by
  unfold index AtSeam
  unfold InPositions at hp hp'
  simp only [maxn] at hp hp' ⊢
  -- Tables two apart are further apart than a table is long.
  have hcases : j = i + 1 ∨ i = j + 1 ∨ i + 2 ≤ j ∨ j + 2 ≤ i := by omega
  rcases hcases with rfl | rfl | hlt | hlt
  · omega
  · omega
  · omega
  · omega

/-- A store at an index is seen at no other index, and always at its own. -/
theorem bucket?_setBucket_iff (idx idx' : Int) (hlo : 0 ≤ idx) (hlo' : 0 ≤ idx')
    (hhi' : idx' < ver * maxn) :
    (∀ (t : Table) (b : Bucket), bucket? (setBucket t idx b) idx' = bucket? t idx') ↔
      idx ≠ idx' := by
  constructor
  · intro h heq
    -- A bucket that was not there before is seen through the other index.
    have hstored := h (fun _ => evicted 0 0) (evicted 1 0)
    unfold bucket? at hstored
    rw [heq, if_pos ⟨hlo', hhi'⟩, if_pos ⟨hlo', hhi'⟩, Option.some.injEq] at hstored
    unfold setBucket at hstored
    rw [Function.update_self] at hstored
    exact absurd (congrArg Bucket.key hstored)
      (by simp only [evicted, one_ne_zero, not_false_eq_true])
  · intro hne t b
    unfold bucket? setBucket
    rw [Function.update_of_ne (by omega)]

/-- A key with a place in the array has a position in each table. -/
theorem inPositions_hash (i : Nat) (key : Int) (hi : i < ver) (h : Indexable key) :
    InPositions (hash (i + 1) (toInt32 key)) := by
  rw [hash_eq (i + 1) _ (by omega) hi]
  rcases tmod_cases (toInt32 key) maxn (by decide) with ⟨_, hmod⟩ | ⟨hn, _⟩
  · rw [hmod]
    exact ⟨Int.emod_nonneg _ (by decide), Int.emod_lt_of_pos _ (by decide)⟩
  · exact absurd h hn

/-- Two different positions have different indexes, both in the array, just when
    they are not at a seam. And what is stored in one table's bucket of a key
    leaves another table's bucket of a key alone just when these are not. -/
theorem tables_disjoint_iff (i j : Nat) (hi : i < ver) (hj : j < ver) :
    (∀ pos pos', InPositions pos → InPositions pos' → (i, pos) ≠ (j, pos') →
      ((index i pos ≠ index j pos' ∧ 0 ≤ index i pos ∧ index i pos < ver * maxn ∧
        0 ≤ index j pos' ∧ index j pos' < ver * maxn) ↔ ¬ AtSeam i pos j pos')) ∧
    ∀ key key', i ≠ j → Indexable key → Indexable key' →
      ((∀ (t : Table) (b : Bucket), bucket? (setBucket t (position i key) b) (position j key') =
        bucket? t (position j key')) ↔
          ¬ AtSeam i (hash (i + 1) (toInt32 key)) j (hash (j + 1) (toInt32 key'))) := by
  refine ⟨fun pos pos' hp hp' hne => ?_, fun key key' hij hk hk' => ?_⟩
  · rcases index_lt i pos hi hp with ⟨hlo, hhi⟩
    rcases index_lt j pos' hj hp' with ⟨hlo', hhi'⟩
    have hseam : index i pos = index j pos' ↔ AtSeam i pos j pos' := by
      by_cases hij : i = j
      · subst hij
        refine iff_of_false (fun heq => ?_) (fun hs => ?_)
        · exact hne (Prod.ext rfl (index_inj i pos pos' heq))
        · unfold AtSeam at hs
          omega
      · exact index_eq_iff i j pos pos' hij hp hp'
    rw [← hseam]
    exact ⟨fun h => h.1, fun h => ⟨h, hlo, hhi, hlo', hhi'⟩⟩
  · have hp := inPositions_hash i key hi hk
    have hp' := inPositions_hash j key' hj hk'
    have hlo := (index_lt i _ hi hp).1
    rcases index_lt j _ hj hp' with ⟨hlo', hhi'⟩
    unfold position
    rw [bucket?_setBucket_iff _ _ hlo hlo' hhi', ne_eq, index_eq_iff i j _ _ hij hp hp']

/-- Position 5 of the first and the second table, and key 5 in them. -/
theorem tables_disjoint_iff_five : (index 0 5 ≠ index 1 5 ∧ 0 ≤ index 0 5 ∧
    index 0 5 < ver * maxn ∧ 0 ≤ index 1 5 ∧ index 1 5 < ver * maxn) ∧
    ∀ (t : Table) (b : Bucket), bucket? (setBucket t (position 0 5) b) (position 1 5) =
      bucket? t (position 1 5) := by
  have h := tables_disjoint_iff 0 1 (by decide) (by decide)
  exact ⟨(h.1 5 5 (by decide) (by decide) (by decide)).mpr (by decide),
    (h.2 5 5 (by decide) (by decide) (by decide)).mpr (by decide)⟩

/-- The last bucket of the first table is the first of the second: the store of
    key 2499999 in the one is seen at the position of key 0 in the other. -/
theorem tables_overlap : index 0 2499999 = index 1 0 ∧
    bucket? (setBucket setupBuffers (position 0 2499999) (evicted 2499999 7)) (position 1 0) ≠
      bucket? setupBuffers (position 1 0) := by
  have hpos : position 0 2499999 = position 1 0 ∧ position 1 0 = 2499999 := by
    rw [position_eq 0 2499999 (by decide) (by decide), position_eq 1 0 (by decide) (by decide)]
    decide
  refine ⟨rfl, fun hc => ?_⟩
  rw [hpos.1, hpos.2] at hc
  unfold bucket? setBucket at hc
  rw [Function.update_self, if_pos (by decide), if_pos (by decide), Option.some.injEq] at hc
  exact absurd (congrArg Bucket.key hc) (by decide +kernel)

end Pilaf

end LocalKeyValue
