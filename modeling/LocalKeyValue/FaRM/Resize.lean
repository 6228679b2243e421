import LocalKeyValue.FaRM.HopExact

/-!
# Resizing the Table

`hopscotch_resize` allocates a new array and inserts the old buckets into it.
Three conventions have to agree for that: how the new array is cleared, what an
insert takes for an empty bucket and what the resize takes for an occupied one.
They do not. The array is cleared to zeros, an insert looks for key -1, and the
resize passes over key 0. So the first bucket that is not passed over is
inserted into an array without an empty bucket, and the resize gives up.

There would be no reason to. Reinserting the keys into a larger table that is
empty never even displaces one: when it comes to the turn of a bucket, the new
table has its first keys in buckets before that one, so the new place is no
farther from the home than the old one was.

## Main definitions

* `reinsert`: The loop over the old buckets.
* `hopscotchResize`: The function.
* `Reinserts`: The stored keys go into an empty table.
* `ResizeOk`: The resize keeps the map if they do, and the table if not.

## Theorems

* `resize_fails`: The resize of a hop-exact table gives up.
* `reinserts`: Its keys go into any empty table as large.
* `resize_not_ok`: The resize never does what it is for.
-/

namespace LocalKeyValue

namespace FaRM

/-- The loop over `n` of the old buckets, from bucket `i` on, inserting those that
    are occupied. -/
def reinsert (occupied : Bucket → Bool) (obuckets : Nat → Bucket) :
    Nat → Nat → HashTable → Option (HashTable × Int)
  | 0, _, ht => some (ht, 0)
  | n + 1, i, ht =>
    if occupied (obuckets i) then
      match hopscotchInsert ht (obuckets i).key (obuckets i).data with
      | none => none
      | some (ht', ret) =>
        if ret < 0 then some (ht', -1) else reinsert occupied obuckets n (i + 1) ht'
    else reinsert occupied obuckets n (i + 1) ht

/-- A bucket after `memset(nbuckets, 0, ...)`. -/
def zeroBucket : Bucket where
  key := 0
  headerVersion := 0
  data := 0
  lock := 0
  cVer := 0
  hopinfo := 0

/-- `hopscotch_resize`. The old array is put back if an insert fails. -/
def hopscotchResize (ht : HashTable) (delta : Nat) (allocated : Bool) :
    Option (HashTable × Int) :=
  if allocated then
    match reinsert (fun b => b.key ≠ 0) ht.buckets (2 ^ ht.exponent) 0
      { ht with exponent := ht.exponent + delta, buckets := fun _ => zeroBucket } with
    | none => none
    | some (ht', ret) => if ret < 0 then some (ht, -1) else some (ht', 0)
  else some (ht, -1)

/-- An empty table of the new size. -/
def emptyResized (ht : HashTable) (delta : Nat) : HashTable :=
  { ht with exponent := ht.exponent + delta, buckets := emptyTable.buckets }

/-- The stored keys can be inserted into it one after the other, in the order of
    their buckets. -/
def Reinserts (ht : HashTable) (delta : Nat) : Prop :=
  ∃ t, reinsert (fun b => 0 ≤ b.key) ht.buckets (2 ^ ht.exponent) 0 (emptyResized ht delta) =
    some (t, 0)

/-- If they can, the resize returns 0 and the new table holds the same pairs and
    finds them; if not, it returns -1 and the table is as before. -/
def ResizeOk (ht : HashTable) (delta : Nat) : Prop :=
  ∃ ht' r, hopscotchResize ht delta true = some (ht', r) ∧
    (Reinserts ht delta → r = 0 ∧ ht'.exponent = ht.exponent + delta ∧
      ∀ k d, (Stores ht' k d ↔ Stores ht k d) ∧
        (Stores ht k d → hopscotchLookup ht' k = some d)) ∧
    (¬ Reinserts ht delta →
      r = -1 ∧ ht'.exponent = ht.exponent ∧ ht'.buckets = ht.buckets)

/-! ## The resize gives up -/

/-- An insert fails where no bucket has key -1, and the loop with it at the first
    key that is not 0. -/
theorem reinsert_no_empty (obuckets : Nat → Bucket) (ht : HashTable)
    (h : ∀ p, (ht.buckets p).key ≠ -1) : ∀ (n i : Nat),
    (∃ p, i ≤ p ∧ p < i + n ∧ (obuckets p).key ≠ 0) →
      reinsert (fun b => b.key ≠ 0) obuckets n i ht = some (ht, -1) := by
  intro n
  have hnone : ∀ m idx, firstEmpty ht m idx = none := fun m idx =>
    (firstEmpty_eq_none ht m idx).mpr (fun q _ _ => h q)
  induction n with
  | zero =>
      rintro i ⟨p, h1, h2, _⟩
      omega
  | succ n ih =>
      rintro i ⟨p, h1, h2, hp⟩
      unfold reinsert
      by_cases hi : (obuckets i).key = 0
      · have hpi : p ≠ i := fun he => hp (by rw [he]; exact hi)
        rw [if_neg (by simp only [hi, ne_eq, not_true_eq_false, decide_false, Bool.false_eq_true,
          not_false_eq_true])]
        exact ih (i + 1) ⟨p, by omega, by omega, hp⟩
      · rw [if_pos (decide_eq_true hi), insert_full ht _ _ _ rfl (hnone _ _)]
        exact if_pos (by decide)

/-- There is such a key, for no key is in two buckets. -/
theorem resize_fails (ht : HashTable) (h : HopExact ht) (delta : Nat) :
    hopscotchResize ht delta true = some (ht, -1) := by
  have hsz : ht.sz = 2 ^ 22 := by rw [HashTable.sz, h.exponent]; rfl
  have hex : ∃ p, 0 ≤ p ∧ p < 0 + 2 ^ ht.exponent ∧ (ht.buckets p).key ≠ 0 := by
    by_cases h0 : (ht.buckets 0).key = 0
    · refine ⟨1, by omega, ?_, fun h1 => ?_⟩
      · change 1 < 0 + ht.sz
        omega
      · have := h.unique 0 1 (by omega) (by omega) (by omega) (by rw [h0, h1])
        omega
    · exact ⟨0, by omega, by rw [Nat.zero_add]; exact Nat.two_pow_pos _, h0⟩
  have hzero : zeroBucket.key ≠ -1 := by decide
  rw [hopscotchResize, if_pos rfl, reinsert_no_empty ht.buckets _ (fun _ => hzero) _ 0 hex]
  exact if_pos (by decide)

/-! ## The keys can be inserted -/

/-- A key within reach of a bucket that is empty, with all above it, is stored
    there or below, without a displacement. -/
theorem insert_below (t : HashTable) (k d : Int) (hk : 0 ≤ k) (i : Nat) (hle : home k ≤ i)
    (h6 : i - home k < hopscotchHopinfoSize) (hi : i < t.sz)
    (hempty : ∀ q, i ≤ q → (t.buckets q).key = -1) :
    ∃ t', hopscotchInsert t k d = some (t', 0) ∧ t'.sz = t.sz ∧
      ∀ q, i + 1 ≤ q → (t'.buckets q).key = -1 := by
  cases hfe : firstEmpty t (t.sz - home k) (home k) with
  | none =>
      have hfull := (firstEmpty_eq_none t _ _).mp hfe i hle (by omega)
      exact absurd (hempty i (Nat.le_refl i)) hfull
  | some p =>
      have hpi : p ≤ i := by
        by_contra hc
        exact firstEmpty_min t _ _ p hfe i hle (by omega) (hempty i (Nat.le_refl i))
      have hp6 : p - home k < hopscotchHopinfoSize := by omega
      refine ⟨_, insert_stored t k d _ (homeIdx_eq t k hk) t p p hfe (by rw [displace, if_pos hp6]),
        rfl, fun q hq => ?_⟩
      rw [store_key, if_neg (by omega)]
      exact hempty q (by omega)

/-- The loop comes to each bucket with the new table empty from there on. -/
theorem reinsert_keys (obuckets : Nat → Bucket) : ∀ (n i : Nat) (t : HashTable), i + n ≤ t.sz →
    (∀ q, i ≤ q → (t.buckets q).key = -1) →
    (∀ p, i ≤ p → p < i + n → 0 ≤ (obuckets p).key → home (obuckets p).key ≤ p ∧
      p - home (obuckets p).key < hopscotchHopinfoSize) →
    ∃ t', reinsert (fun b => 0 ≤ b.key) obuckets n i t = some (t', 0) := by
  intro n
  induction n with
  | zero => intro i t _ _ _; exact ⟨t, rfl⟩
  | succ n ih =>
      intro i t hsz hempty hnear
      unfold reinsert
      by_cases hk : 0 ≤ (obuckets i).key
      · rcases hnear i (Nat.le_refl i) (by omega) hk with ⟨hle, h6⟩
        rcases insert_below t _ (obuckets i).data hk i hle h6 (by omega) hempty with
          ⟨t', hrun, hsz', hempty'⟩
        rw [if_pos (decide_eq_true hk), hrun]
        simp only [Int.lt_irrefl, if_false]
        exact ih (i + 1) t' (by omega) hempty' (fun p h1 h2 => hnear p (by omega) (by omega))
      · rw [if_neg (by simp only [hk, decide_false, Bool.false_eq_true, not_false_eq_true])]
        exact ih (i + 1) t (by omega) (fun q hq => hempty q (by omega))
          (fun p h1 h2 => hnear p (by omega) (by omega))

theorem reinserts (ht : HashTable) (h : HopExact ht) (delta : Nat) : Reinserts ht delta := by
  refine reinsert_keys ht.buckets (2 ^ ht.exponent) 0 (emptyResized ht delta) ?_
    (fun q _ => emptyTable_key q) (fun p _ hp hk => ?_)
  · rw [Nat.zero_add]
    exact Nat.pow_le_pow_right (by decide) (Nat.le_add_right _ _)
  · have hm := (((hopExact_iff ht).mp h).1).marked p (by rw [Nat.zero_add] at hp; exact hp)
      not_false hk
    exact ⟨hm.2.2.1, hm.2.2.2.1⟩

/-- The resize of a hop-exact table never does what it is for: its keys can be
    inserted, and it gives up. -/
theorem resize_not_ok (ht : HashTable) (h : HopExact ht) (delta : Nat) : ¬ ResizeOk ht delta := by
  rintro ⟨ht', r, hrun, hok, _⟩
  rw [resize_fails ht h delta, Option.some.injEq, Prod.mk.injEq] at hrun
  have hr := (hok (reinserts ht h delta)).1
  omega

/-- A table of six keys that is to be doubled. -/
theorem resize_not_ok_rowTable : ¬ ResizeOk rowTable 1 :=
  resize_not_ok rowTable rowTable_spec.1 1

/-- One key is enough. -/
theorem resize_gives_up : Reinserts oneKeyTable 1 ∧
    hopscotchResize oneKeyTable 1 true = some (oneKeyTable, -1) :=
  ⟨reinserts oneKeyTable hopExact_oneKeyTable 1, resize_fails oneKeyTable hopExact_oneKeyTable 1⟩

end FaRM

end LocalKeyValue
