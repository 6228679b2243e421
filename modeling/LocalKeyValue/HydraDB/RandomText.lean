import LocalKeyValue.HydraDB.RoundTrip

/-!
# The Values of the HydraDB Load

The load gives each key a value that `rand_str` makes up: a character of
`charset` for each draw, then a NUL. The draw is scaled by its maximum, so the
largest draw gives the index 62. The characters have the indexes up to 61, and
behind them the array has its own NUL. A value with that draw in it ends there,
when it is copied into an item, and the size recorded with it is larger.

## Main definitions

* `Alphanumeric`, `WritesText`: What `rand_str` is to write.
* `textLength`: How far a string goes in the bytes it is given.
* `LoadedSlot`, `StoredWhole`: The slot of a loaded key, and its value.
* `NoMaxDraw`: None of some draws is the largest.
* `LoadedFrom`: What each key adds to the load.

## Theorems

* `drawn_alphanumeric_iff`: What one draw gives.
* `randStr_calls`, `randStr_text`, `randStr_end`, `randStr_other`: What `rand_str`
  does.
* `strncpy_ne_zero_iff`, `storedWhole_inserted`: What becomes of a NUL in the copy.
* `initializeFrom_invariant`: The rule of a load that comes back.
* `random_text_iff`: The values are as long as recorded just when the largest draw
  is not made.
-/

namespace LocalKeyValue

namespace HydraDB

open CInt

/-- One of the digits, the capital and the small letters. -/
def Alphanumeric (b : Byte) : Prop :=
  (48 ≤ b ∧ b ≤ 57) ∨ (65 ≤ b ∧ b ≤ 90) ∨ (97 ≤ b ∧ b ≤ 122)

instance (b : Byte) : Decidable (Alphanumeric b) :=
  inferInstanceAs (Decidable (_ ∨ _ ∨ _))

/-- Over `dest`, `length` characters have been written and a NUL behind them. -/
def WritesText (dest text : Nat → Byte) (length : Nat) : Prop :=
  (∀ i, i < length → Alphanumeric (text i)) ∧ text length = 0 ∧ ∀ i, length < i → text i = dest i

/-- None of `n` draws from the `c`th on is the largest. -/
def NoMaxDraw (draws : Nat → Nat) (randMax c n : Nat) : Prop :=
  ∀ i, i < n → draws (c + i) ≠ randMax

/-- How many of the first `n` bytes come before a NUL. -/
def textLength (p : Nat → Byte) : Nat → Nat
  | 0 => 0
  | n + 1 => if p 0 = 0 then 0 else textLength (fun i => p (i + 1)) n + 1

/-- How many draws the load has made before it comes to a key. -/
def firstDraw : Nat → Nat
  | 0 => 0
  | k + 1 => firstDraw k + randomSize k

/-- Slot `q` is in use for a loaded key, with item `a` and the size of its value. -/
structure LoadedSlot (h : HashTable) (k a : Nat) (q : Nat × Nat) : Prop where
  inTable : InTable q
  bucket : q.1 = calcHash k
  busy : (h.slot q).busy ≠ 0
  addr : (h.slot q).addr = some a
  key : (h.buckets a).key = k
  size : (h.slot q).size.toNat = randomSize k

/-- The string in item `a`, read up to the size in slot `q`, has that size. -/
def StoredWhole (h : HashTable) (a : Nat) (q : Nat × Nat) : Prop :=
  textLength (h.buckets a).p (h.slot q).size.toNat = (h.slot q).size.toNat

/-! ## One draw -/

/-- The character that draw `c` gives. -/
def drawn (draws : Nat → Nat) (randMax c : Nat) : Byte :=
  charset.getD (draws c * (charset.length - 1) / randMax) 0

/-- All bytes of the array but the last are characters. -/
theorem charset_alphanumeric : ∀ i, i < 62 → Alphanumeric (charset.getD i 0) := by
  decide +kernel

theorem charset_end : charset.length - 1 = 62 ∧ charset.getD 62 0 = 0 := by
  decide +kernel

/-- The largest draw gives the NUL at the end of the array. -/
theorem drawn_max (draws : Nat → Nat) (randMax c : Nat) (hpos : 0 < randMax)
    (h : draws c = randMax) : drawn draws randMax c = 0 := by
  unfold drawn
  rw [h, charset_end.1, Nat.mul_div_cancel_left 62 hpos, charset_end.2]

theorem drawn_alphanumeric (draws : Nat → Nat) (randMax c : Nat) (hlt : draws c < randMax) :
    Alphanumeric (drawn draws randMax c) := by
  have hpos : 0 < randMax := Nat.zero_lt_of_lt hlt
  unfold drawn
  rw [charset_end.1]
  refine charset_alphanumeric _ ((Nat.div_lt_iff_lt_mul hpos).mpr ?_)
  omega

theorem drawn_alphanumeric_iff (draws : Nat → Nat) (randMax c : Nat) (hpos : 0 < randMax)
    (hdraw : draws c ≤ randMax) :
    Alphanumeric (drawn draws randMax c) ↔ draws c ≠ randMax := by
  constructor
  · intro h hmax
    rw [drawn_max draws randMax c hpos hmax] at h
    exact absurd h (by decide)
  · intro h
    exact drawn_alphanumeric draws randMax c (by omega)

/-- A draw gives a NUL or a character. -/
theorem drawn_ne_zero_iff (draws : Nat → Nat) (randMax c : Nat) (hpos : 0 < randMax)
    (hdraw : draws c ≤ randMax) : drawn draws randMax c ≠ 0 ↔ draws c ≠ randMax := by
  constructor
  · intro h hmax
    exact h (drawn_max draws randMax c hpos hmax)
  · intro h hzero
    have halpha := drawn_alphanumeric draws randMax c (by omega)
    rw [hzero] at halpha
    exact absurd halpha (by decide)

/-! ## `rand_str` -/

/-- One call of `rand` for each character. -/
theorem randStr_calls (draws : Nat → Nat) (randMax : Nat) : ∀ length i c dest,
    (randStr draws randMax length i c dest).2 = c + length := by
  intro length
  induction length with
  | zero => intro i c dest; rfl
  | succ n ih =>
      intro i c dest
      rw [randStr, ih]
      omega

/-- What comes before is left alone, and so is what comes behind the NUL. -/
theorem randStr_other (draws : Nat → Nat) (randMax : Nat) : ∀ length i c dest j,
    j < i ∨ i + length < j → (randStr draws randMax length i c dest).1 j = dest j := by
  intro length
  induction length with
  | zero =>
      intro i c dest j hj
      exact Function.update_of_ne (by omega) ..
  | succ n ih =>
      intro i c dest j hj
      rw [randStr, ih (i + 1) (c + 1) _ j (by omega)]
      exact Function.update_of_ne (by omega) ..

/-- A character for each draw. -/
theorem randStr_text (draws : Nat → Nat) (randMax : Nat) : ∀ length i c dest j, j < length →
    (randStr draws randMax length i c dest).1 (i + j) = drawn draws randMax (c + j) := by
  intro length
  induction length with
  | zero => intro i c dest j hj; exact absurd hj (Nat.not_lt_zero j)
  | succ n ih =>
      intro i c dest j hj
      rw [randStr]
      cases j with
      | zero =>
          -- The rest of the loop leaves this byte alone.
          rw [randStr_other draws randMax n (i + 1) (c + 1) _ (i + 0) (by omega)]
          exact Function.update_self ..
      | succ j =>
          rw [show i + (j + 1) = i + 1 + j by omega, ih (i + 1) (c + 1) _ j (by omega),
            show c + 1 + j = c + (j + 1) by omega]

theorem randStr_end (draws : Nat → Nat) (randMax : Nat) : ∀ length i c dest,
    (randStr draws randMax length i c dest).1 (i + length) = 0 := by
  intro length
  induction length with
  | zero => intro i c dest; exact Function.update_self ..
  | succ n ih =>
      intro i c dest
      rw [randStr, show i + (n + 1) = i + 1 + n by omega]
      exact ih (i + 1) (c + 1) _

/-- `rand_str` writes a text just when it does not draw the maximum. -/
theorem writesText_iff (draws : Nat → Nat) (randMax : Nat) (hpos : 0 < randMax)
    (hdraws : ∀ c, draws c ≤ randMax) (length c : Nat) (dest : Nat → Byte) :
    WritesText dest (randStr draws randMax length 0 c dest).1 length ↔
      NoMaxDraw draws randMax c length := by
  have htext (i : Nat) (hi : i < length) :
      (randStr draws randMax length 0 c dest).1 i = drawn draws randMax (c + i) := by
    have h := randStr_text draws randMax length 0 c dest i hi
    rwa [Nat.zero_add] at h
  have hend := randStr_end draws randMax length 0 c dest
  rw [Nat.zero_add] at hend
  constructor
  · intro h i hi
    have halpha := h.1 i hi
    rw [htext i hi] at halpha
    exact (drawn_alphanumeric_iff draws randMax (c + i) hpos (hdraws _)).mp halpha
  · intro h
    refine ⟨fun i hi => ?_, hend, fun i hi => randStr_other draws randMax length 0 c dest i
      (Or.inr (by omega))⟩
    rw [htext i hi]
    exact (drawn_alphanumeric_iff draws randMax (c + i) hpos (hdraws _)).mpr (h i hi)

/-- And it writes no NUL before the last just then. -/
theorem randStr_ne_zero_iff (draws : Nat → Nat) (randMax : Nat) (hpos : 0 < randMax)
    (hdraws : ∀ c, draws c ≤ randMax) (length c : Nat) (dest : Nat → Byte) :
    (∀ i, i < length → (randStr draws randMax length 0 c dest).1 i ≠ 0) ↔
      NoMaxDraw draws randMax c length := by
  refine forall_congr' fun i => forall_congr' fun hi => ?_
  have htext := randStr_text draws randMax length 0 c dest i hi
  rw [Nat.zero_add] at htext
  rw [htext]
  exact drawn_ne_zero_iff draws randMax (c + i) hpos (hdraws _)

/-! ## The copy in an item -/

/-- A string fills the bytes it is given just if none of them is a NUL. -/
theorem textLength_eq_iff : ∀ n (p : Nat → Byte), textLength p n = n ↔ ∀ i, i < n → p i ≠ 0 := by
  intro n
  induction n with
  | zero => intro p; exact iff_of_true rfl fun i hi => absurd hi (Nat.not_lt_zero i)
  | succ n ih =>
      intro p
      rw [textLength]
      by_cases h0 : p 0 = 0
      · rw [if_pos h0]
        exact iff_of_false (Nat.succ_ne_zero n).symm fun h => h 0 (Nat.succ_pos n) h0
      · rw [if_neg h0, Nat.add_right_cancel_iff, ih]
        constructor
        · intro h i hi
          cases i with
          | zero => exact h0
          | succ i => exact h i (Nat.lt_of_succ_lt_succ hi)
        · intro h i hi
          exact h (i + 1) (Nat.succ_lt_succ hi)

/-- A copy has no NUL just if the source has none. -/
theorem strncpy_ne_zero_iff (dst src : Nat → Byte) (n : Nat) :
    (∀ i, i < n → strncpy dst src n i ≠ 0) ↔ ∀ i, i < n → src i ≠ 0 := by
  constructor
  · intro h i hi hzero
    exact h i hi (strncpy_nul dst src n i i hi (Nat.le_refl i) hzero)
  · intro h i hi
    rw [strncpy_kept dst src n i hi fun j hj => h j (Nat.lt_of_le_of_lt hj hi)]
    exact h i hi

/-! ## The load -/

/-- An insert of a key gives it a slot, with the size of its value. -/
theorem loadedSlot_inserted (h : HashTable) (k j : Nat) (value : Nat → Byte)
    (hb : calcHash k < maxPool) (hj : j < slots) :
    LoadedSlot (inserted h (calcHash k, j) k value (randomSize k)) k h.index (calcHash k, j) where
  inTable := ⟨hb, hj⟩
  bucket := rfl
  busy := by
    rw [inserted_slot]
    exact (by decide : (1 : Byte) ≠ 0)
  addr := by rw [inserted_slot]
  key := by rw [inserted_new]
  size := by
    rw [inserted_slot]
    exact toNat_ofInt_size _ (Int.natCast_nonneg _) (randomSize_le k)

/-- The value is stored whole just if it has no NUL. -/
theorem storedWhole_inserted (h : HashTable) (p : Nat × Nat) (k : Nat) (value : Nat → Byte) :
    StoredWhole (inserted h p k value (randomSize k)) h.index p ↔
      ∀ i, i < randomSize k → value i ≠ 0 := by
  have hsize := toNat_ofInt_size (randomSize k) (Int.natCast_nonneg _) (randomSize_le k)
  rw [Int.toNat_natCast] at hsize
  unfold StoredWhole
  rw [inserted_slot, inserted_new]
  simp only [hsize, Int.toNat_natCast]
  rw [textLength_eq_iff, strncpy_ne_zero_iff]

/-- An insert leaves the other slots and items alone. -/
theorem loadedSlot_inserted_other (h : HashTable) (p : Nat × Nat) (key : Int)
    (value : Nat → Byte) (size : Int) (k a : Nat) (q : Nat × Nat) (hq : q ≠ p) (ha : a ≠ h.index)
    (hl : LoadedSlot h k a q) : LoadedSlot (inserted h p key value size) k a q where
  inTable := hl.inTable
  bucket := hl.bucket
  busy := by
    rw [inserted_slot_other h p key value size q hq]
    exact hl.busy
  addr := by
    rw [inserted_slot_other h p key value size q hq]
    exact hl.addr
  key := by
    rw [inserted_other h p key value size a ha]
    exact hl.key
  size := by
    rw [inserted_slot_other h p key value size q hq]
    exact hl.size

theorem storedWhole_inserted_other (h : HashTable) (p : Nat × Nat) (key : Int)
    (value : Nat → Byte) (size : Int) (a : Nat) (q : Nat × Nat) (hq : q ≠ p) (ha : a ≠ h.index) :
    StoredWhole (inserted h p key value size) a q ↔ StoredWhole h a q := by
  unfold StoredWhole
  rw [inserted_slot_other h p key value size q hq, inserted_other h p key value size a ha]

/-- The rule of a load that comes back: what the insert of each key keeps, given
    the draws of the key, the load keeps. -/
theorem initializeFrom_invariant (draws : Nat → Nat) (randMax interval : Nat)
    (I : Nat → HashTable → Prop)
    (hstep : ∀ i h h' (dest : Nat → Byte), I i h → hashtableInsert h i
        (randStr draws randMax (randomSize i) 0 (firstDraw i) dest).1 (randomSize i) =
          some (h', 0) → I (i + 1) h') :
    ∀ n i txt h h', I i h →
      initializeFrom draws randMax interval n i (firstDraw i) txt h = some h' → I (i + n) h' := by
  intro n
  induction n with
  | zero =>
      intro i txt h h' hI hrun
      rw [initializeFrom, Option.some.injEq] at hrun
      rw [← hrun]
      exact hI
  | succ n ih =>
      intro i txt h h' hI hrun
      rcases (initializeFrom_succ ..).mp hrun with ⟨_, t, hins, hrest⟩
      -- The next key's draws begin where this one's end.
      rw [randStr_calls] at hrest
      rw [show i + (n + 1) = i + 1 + n by omega]
      exact ih (i + 1) _ t h' (hstep i h t txt hI hins) hrest

/-- The keys below `n` are in their slots, with items from `a` on, and their values
    are whole just when none of their draws is the largest. -/
structure LoadedFrom (draws : Nat → Nat) (randMax a n : Nat) (h : HashTable) : Prop where
  index : h.index = a + n
  values : ∀ k, k < n → ∃ q, LoadedSlot h k (a + k) q ∧
    (StoredWhole h (a + k) q ↔ NoMaxDraw draws randMax (firstDraw k) (randomSize k))

/-- One more key. -/
theorem loadedFrom_insert (draws : Nat → Nat) (randMax : Nat) (hpos : 0 < randMax)
    (hdraws : ∀ c, draws c ≤ randMax) (a n : Nat) (h h' : HashTable) (dest : Nat → Byte)
    (hl : LoadedFrom draws randMax a n h)
    (hins : hashtableInsert h n (randStr draws randMax (randomSize n) 0 (firstDraw n) dest).1
      (randomSize n) = some (h', 0)) : LoadedFrom draws randMax a (n + 1) h' := by
  rcases insert_cases h h' n _ (randomSize n) 0 hins with
    ⟨hb, ⟨_, _, h0⟩ | ⟨j, hj, hfree, _, _, _, _, hres, _⟩⟩
  · exact absurd h0 (by decide)
  · rw [hres]
    refine { index := by rw [← Nat.add_assoc, ← hl.index]; rfl, values := fun k hk => ?_ }
    by_cases hkn : k = n
    · rw [hkn, ← hl.index]
      exact ⟨(calcHash n, j), loadedSlot_inserted h n j _ hb hj,
        (storedWhole_inserted h _ n _).trans (randStr_ne_zero_iff draws randMax hpos hdraws _ _ _)⟩
    · rcases hl.values k (by omega) with ⟨q, hslot, hwhole⟩
      -- The slot that is filled was free.
      have hq : q ≠ (calcHash n, j) := fun hc => hslot.busy (by rw [hc]; exact hfree)
      have ha : a + k ≠ h.index := by
        rw [hl.index]
        omega
      exact ⟨q, loadedSlot_inserted_other h _ n _ _ k _ q hq ha hslot,
        (storedWhole_inserted_other h _ n _ _ _ q hq ha).trans hwhole⟩

/-- `rand_str` writes as many alphanumerics as it is asked for and a NUL, whatever
    was there before, just when none of its draws is the largest; and the value of
    each key that has been loaded is as long as its slot has it just when none of
    the draws made for the key is. -/
theorem random_text_iff (draws : Nat → Nat) (randMax : Nat) (hpos : 0 < randMax)
    (hdraws : ∀ c, draws c ≤ randMax) :
    (∀ length c dest, WritesText dest (randStr draws randMax length 0 c dest).1 length ↔
      NoMaxDraw draws randMax c length) ∧
    ∀ txt h size h', hashTableInitialize draws randMax txt h size = some h' →
      ∀ k, k < size → ∃ q, LoadedSlot h' k (h.index + k) q ∧
        (StoredWhole h' (h.index + k) q ↔
          NoMaxDraw draws randMax (firstDraw k) (randomSize k)) := by
  refine ⟨writesText_iff draws randMax hpos hdraws, fun txt h size h' hrun => ?_⟩
  have hload := initializeFrom_invariant draws randMax (size / 10)
    (LoadedFrom draws randMax h.index)
    (fun n t t' dest => loadedFrom_insert draws randMax hpos hdraws h.index n t t' dest)
    size 0 txt h h'
    { index := rfl, values := fun k hk => absurd hk (Nat.not_lt_zero k) } hrun
  rw [Nat.zero_add] at hload
  exact hload.values

/-- Draws of 0 give a text of zeros, and load four million keys whose values are
    whole. -/
theorem random_text_iff_zeros :
    WritesText (fun _ => 7) (randStr (fun _ => 0) 2147483647 31 0 0 fun _ => 7).1 31 ∧
      ∃ h', hashTableInitialize (fun _ => 0) 2147483647 (fun _ => 0)
          (hashtableCreate roomyMemory maxPool) 4000000 = some h' ∧
        ∃ q, LoadedSlot h' 3999999 3999999 q ∧ StoredWhole h' 3999999 q := by
  have hmax (c n : Nat) : NoMaxDraw (fun _ => 0) 2147483647 c n :=
    fun _ _ => (by decide : (0 : Nat) ≠ 2147483647)
  rcases random_text_iff (fun _ => 0) 2147483647 (by decide) (fun _ => by decide) with
    ⟨htext, hvalues⟩
  rcases initialize_loadedTo (fun _ => 0) 2147483647 (fun _ => 0) roomyMemory 4000000 rfl
    (by decide) (by decide) (by decide) with ⟨h', hres, _⟩
  rcases hvalues _ _ _ _ hres 3999999 (by decide) with ⟨q, hslot, hwhole⟩
  rw [show (hashtableCreate roomyMemory maxPool).index + 3999999 = 3999999 from rfl] at hslot hwhole
  exact ⟨(htext 31 0 _).mpr (hmax 0 31), h', hres, q, hslot, hwhole.mpr (hmax _ _)⟩

/-- The largest draw is made first: the text of one character is a NUL, and the
    value of key 0 is empty where its slot has size 1. -/
theorem random_text_cut :
    (∀ c : Nat, (if c = 0 then 2147483647 else 0) ≤ 2147483647) ∧
      ¬ WritesText (fun _ => 7)
        (randStr (fun c => if c = 0 then 2147483647 else 0) 2147483647 1 0 0 fun _ => 7).1 1 ∧
      ∃ h', hashTableInitialize (fun c => if c = 0 then 2147483647 else 0) 2147483647
          (fun _ => 0) (hashtableCreate roomyMemory maxPool) 10 = some h' ∧
        (h'.slot (0, 0)).addr = some 0 ∧ (h'.buckets 0).key = 0 ∧ (h'.slot (0, 0)).size = 1 ∧
        textLength (h'.buckets 0).p 1 = 0 := by
  have hchar : ¬ Alphanumeric ((randStr (fun c => if c = 0 then 2147483647 else 0) 2147483647
      1 0 0 fun _ => 7).1 0) := by decide +kernel
  have hrun : ∃ h' ∈ hashTableInitialize (fun c => if c = 0 then 2147483647 else 0) 2147483647
      (fun _ => 0) (hashtableCreate roomyMemory maxPool) 10,
      (h'.slot (0, 0)).addr = some 0 ∧ (h'.buckets 0).key = 0 ∧ (h'.slot (0, 0)).size = 1 ∧
        textLength (h'.buckets 0).p 1 = 0 := by decide +kernel
  refine ⟨fun c => ?_, fun hc => hchar (hc.1 0 (by decide)), hrun⟩
  split <;> decide

end HydraDB

end LocalKeyValue
