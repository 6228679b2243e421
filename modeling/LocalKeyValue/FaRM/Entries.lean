import LocalKeyValue.FaRM.Hopscotch
import LocalKeyValue.Lib.Cells

/-!
# The Entries of a Hopscotch Table

What the table says it holds. A bucket counts as an entry when its key's home
marks it: the key is non-negative, the bucket is within reach of its home, and
the bit for it is set in the home's `hopinfo`. These are the buckets the
searching loop can find, and the table is read as an array of cells that are
full where a bucket is an entry.

Each part of the four operations is then one operation on cells: an update
rewrites a cell, a remove empties one, the store at the end of an insert fills
one, and a hop of the displacement moves one. The last needs an assumption.
A hop takes the entry its donor's lowest bit names, without looking at the key
there, so it is a move of that home's entry only if the bit is true.

## Main definitions

* `Payload`, `payload`: What a bucket keeps with its key.
* `home`: The home of a non-negative key.
* `Marked`: The bucket is an entry.
* `entries`: The cells of a table.
* `TrueBit`: The bucket a bit names holds a key of the home the bit is in.

## Theorems

* `homeIdx_eq`: The index the operations compute is the home.
* `findFrom_hit`, `findFrom_miss`: What the searching loop returns.
* `findFrom_entry`: The search finds an entry, without leaving the array.
* `entries_updated`, `entries_removed`, `entries_store`, `entries_hop`: The four
  effects on cells.
* `donor_spec`, `donor_none`: What the donor search returns.
-/

namespace LocalKeyValue

namespace FaRM

/-- What a bucket keeps with its key, and an insert's displacement moves with it. -/
structure Payload where
  data : Int
  headerVersion : BitVec 64
  lock : Int
  cVer : BitVec 8
deriving DecidableEq

def payload (b : Bucket) : Payload :=
  { data := b.data, headerVersion := b.headerVersion, lock := b.lock, cVer := b.cVer }

/-- The home of a non-negative key. -/
def home (key : Int) : Nat :=
  (key % 2 ^ hopscotchInitBsizeExponent).toNat

theorem home_lt (key : Int) : home key < 2 ^ hopscotchInitBsizeExponent := by
  simp only [home, hopscotchInitBsizeExponent]
  omega

/-- The index the operations compute for a non-negative key is its home. -/
theorem homeIdx_eq (ht : HashTable) (key : Int) (hk : 0 ≤ key) : ht.homeIdx key = home key := by
  have hlt := home_lt key
  have hmod : jenkinsHash key ht.keylen = key % 2 ^ hopscotchInitBsizeExponent := by
    rw [jenkinsHash, Int.tmod_eq_emod_of_nonneg hk]
  -- Below `2^22` neither conversion of the hash loses anything.
  simp only [HashTable.homeIdx, hmod, home, hopscotchInitBsizeExponent] at hlt ⊢
  exact CInt.toUInt32_of_nonneg _ (by omega) (by omega)

/-- Bit `b` of the `hopinfo` of bucket `h`. -/
def bit (ht : HashTable) (h b : Nat) : Bool :=
  (ht.buckets h).hopinfo.getLsbD b

/-- The bucket is an entry: it is in the array, and its key's home marks it. -/
def Marked (ht : HashTable) (p : Nat) : Prop :=
  p < ht.sz ∧ 0 ≤ (ht.buckets p).key ∧ home (ht.buckets p).key ≤ p ∧
    p - home (ht.buckets p).key < hopscotchHopinfoSize ∧
    bit ht (home (ht.buckets p).key) (p - home (ht.buckets p).key) = true

instance (ht : HashTable) (p : Nat) : Decidable (Marked ht p) :=
  inferInstanceAs (Decidable (_ ∧ _))

/-- The table as an array of cells. -/
def entries (ht : HashTable) (p : Nat) : Option (Int × Payload) :=
  if Marked ht p then some ((ht.buckets p).key, payload (ht.buckets p)) else none

theorem entries_of_marked (ht : HashTable) (p : Nat) (h : Marked ht p) :
    entries ht p = some ((ht.buckets p).key, payload (ht.buckets p)) := by
  rw [entries, if_pos h]

theorem entries_eq_some (ht : HashTable) (p : Nat) (k : Int) (v : Payload) :
    entries ht p = some (k, v) ↔
      Marked ht p ∧ (ht.buckets p).key = k ∧ payload (ht.buckets p) = v := by
  by_cases h : Marked ht p
  · rw [entries_of_marked ht p h, Option.some.injEq, Prod.mk.injEq]
    simp only [h, true_and]
  · rw [entries, if_neg h]
    simp only [reduceCtorEq, h, false_and]

theorem entries_eq_none (ht : HashTable) (p : Nat) : entries ht p = none ↔ ¬ Marked ht p := by
  unfold entries
  by_cases h : Marked ht p
  · simp only [h, if_true, reduceCtorEq, not_true_eq_false]
  · simp only [h, if_false, not_false_eq_true]

/-- A bucket with key -1 is no entry. -/
theorem entries_of_empty (ht : HashTable) (p : Nat) (h : (ht.buckets p).key = -1) :
    entries ht p = none := by
  rw [entries_eq_none]
  intro hm
  rcases hm with ⟨_, hk, _⟩
  omega

/-! ## Bits -/

theorem getLsbD_one_shiftLeft (off b : Nat) (hoff : off < 32) :
    (1#32 <<< off).getLsbD b = decide (b = off) := by
  rw [BitVec.getLsbD_shiftLeft, BitVec.getLsbD_one, Bool.eq_iff_iff]
  simp only [Bool.and_eq_true, decide_eq_true_eq, Bool.not_eq_true', decide_eq_false_iff_not]
  omega

theorem getLsbD_setBit (w : BitVec 32) (off b : Nat) (hoff : off < 32) :
    (setBit w off).getLsbD b = (w.getLsbD b || decide (b = off)) := by
  rw [setBit, BitVec.getLsbD_or, getLsbD_one_shiftLeft off b hoff]

theorem getLsbD_clearBit (w : BitVec 32) (off b : Nat) (hoff : off < 32) :
    (clearBit w off).getLsbD b = (w.getLsbD b && !decide (b = off)) := by
  rw [clearBit, BitVec.getLsbD_and, BitVec.getLsbD_not, getLsbD_one_shiftLeft off b hoff]
  -- The complement has its bits inside the width only, as has the word it masks.
  by_cases hb : b < 32
  · simp only [hb, decide_true, Bool.true_and]
  · rw [BitVec.getLsbD_of_ge w b (by omega), Bool.false_and, Bool.false_and]

/-! ## The searching loop -/

/-- The loop stops at the first marked bucket that holds the key. -/
theorem findBucket_hit (ht : HashTable) (idx d : Nat) (key : Int) (hd : bit ht idx d = true)
    (hsz : idx + d < ht.sz) (hkey : (ht.buckets (idx + d)).key = key) :
    ∀ (n i : Nat), i ≤ d → d < i + n →
      (∀ b, i ≤ b → b < d → bit ht idx b = true → (ht.buckets (idx + b)).key ≠ key) →
      findBucket ht idx key n i = some (some d) := by
  intro n
  induction n with
  | zero => intro i hid hdn _; omega
  | succ n ih =>
      intro i hid hdn hfirst
      have hb : ht.bucket? (idx + i) = some (ht.buckets (idx + i)) := by
        rw [HashTable.bucket?, if_pos (by omega)]
      by_cases hi : i = d
      · -- The loop has come to the bucket.
        rw [findBucket, hb]
        simp only [bit] at hd
        simp only [hi, hd, hkey, if_true]
      · rw [findBucket, hb, ih (i + 1) (by omega) (by omega)
          (fun b hib => hfirst b (by omega))]
        by_cases hbit : bit ht idx i = true
        · -- A marked bucket before it holds another key.
          have hne := hfirst i (Nat.le_refl _) (by omega) hbit
          simp only [if_neg (Ne.symm hne), ite_self]
        · simp only [bit] at hbit
          rw [if_neg hbit]

/-- The loop finds nothing if no marked bucket holds the key. -/
theorem findBucket_miss (ht : HashTable) (idx : Nat) (key : Int) :
    ∀ (n i : Nat), (∀ b, i ≤ b → b < i + n → bit ht idx b = true →
        idx + b < ht.sz ∧ (ht.buckets (idx + b)).key ≠ key) →
      findBucket ht idx key n i = some none := by
  intro n
  induction n with
  | zero => intro i _; rfl
  | succ n ih =>
      intro i hmiss
      rw [findBucket, ih (i + 1) (fun b h1 h2 => hmiss b (by omega) (by omega))]
      by_cases hbit : bit ht idx i = true
      · rcases hmiss i (Nat.le_refl _) (by omega) hbit with ⟨hsz, hne⟩
        rw [HashTable.bucket?, if_pos hsz]
        simp only [if_neg (Ne.symm hne), ite_self]
      · simp only [bit] at hbit
        rw [if_neg hbit]

/-- What a search returned is a marked bucket with the key. -/
theorem findBucket_sound (ht : HashTable) (idx : Nat) (key : Int) :
    ∀ (n i d : Nat), findBucket ht idx key n i = some (some d) →
      i ≤ d ∧ d < i + n ∧ bit ht idx d = true ∧ idx + d < ht.sz ∧
        (ht.buckets (idx + d)).key = key := by
  intro n
  induction n with
  | zero => intro i d h; simp only [findBucket, Option.some.injEq, reduceCtorEq] at h
  | succ n ih =>
      intro i d h
      unfold findBucket at h
      by_cases hbit : (ht.buckets idx).hopinfo.getLsbD i = true
      · rw [if_pos hbit, HashTable.bucket?] at h
        by_cases hsz : idx + i < ht.sz
        · rw [if_pos hsz] at h
          simp only at h
          by_cases hk : key = (ht.buckets (idx + i)).key
          · rw [if_pos hk, Option.some.injEq, Option.some.injEq] at h
            exact ⟨by omega, by omega, h ▸ hbit, h ▸ hsz, by rw [← h]; exact hk.symm⟩
          · rw [if_neg hk] at h
            rcases ih (i + 1) d h with ⟨h1, h2, h3⟩
            exact ⟨by omega, by omega, h3⟩
        · -- A read past the end ends the search without an answer.
          rw [if_neg hsz] at h
          exact absurd h (by simp only [reduceCtorEq, not_false_eq_true])
      · rw [if_neg hbit] at h
        rcases ih (i + 1) d h with ⟨h1, h2, h3⟩
        exact ⟨by omega, by omega, h3⟩

theorem findFrom_hit (ht : HashTable) (idx d : Nat) (key : Int) (hd : bit ht idx d = true)
    (h6 : d < hopscotchHopinfoSize) (hsz : idx + d < ht.sz)
    (hkey : (ht.buckets (idx + d)).key = key)
    (hfirst : ∀ b, b < d → bit ht idx b = true → (ht.buckets (idx + b)).key ≠ key) :
    findFrom ht idx key = some (some d) := by
  -- The early exit is not taken, bit `d` being set.
  have hne : (ht.buckets idx).hopinfo ≠ 0 := by
    intro h0
    rw [bit, h0, BitVec.ofNat_eq_ofNat, BitVec.getLsbD_zero] at hd
    exact absurd hd (by simp only [Bool.false_eq_true, not_false_eq_true])
  rw [findFrom, HashTable.bucket?, if_pos (by omega)]
  simp only [if_neg hne]
  exact findBucket_hit ht idx d key hd hsz hkey hopscotchHopinfoSize 0 (Nat.zero_le _) (by omega)
    (fun b _ => hfirst b)

theorem findFrom_miss (ht : HashTable) (idx : Nat) (key : Int) (hidx : idx < ht.sz)
    (hmiss : ∀ b, b < hopscotchHopinfoSize → bit ht idx b = true →
      idx + b < ht.sz ∧ (ht.buckets (idx + b)).key ≠ key) :
    findFrom ht idx key = some none := by
  rw [findFrom, HashTable.bucket?, if_pos hidx]
  simp only [findBucket_miss ht idx key hopscotchHopinfoSize 0
    (fun b _ hb => hmiss b (by omega)), ite_self]

theorem findFrom_sound (ht : HashTable) (idx : Nat) (key : Int) (d : Nat)
    (h : findFrom ht idx key = some (some d)) :
    d < hopscotchHopinfoSize ∧ bit ht idx d = true ∧ idx + d < ht.sz ∧
      (ht.buckets (idx + d)).key = key := by
  rw [findFrom, HashTable.bucket?] at h
  by_cases hidx : idx < ht.sz
  · rw [if_pos hidx] at h
    simp only at h
    by_cases h0 : (ht.buckets idx).hopinfo = 0
    · rw [if_pos h0] at h
      exact absurd h (by simp only [Option.some.injEq, reduceCtorEq, not_false_eq_true])
    · rw [if_neg h0] at h
      rcases findBucket_sound ht idx key hopscotchHopinfoSize 0 d h with ⟨_, h2, h3⟩
      exact ⟨by omega, h3⟩
  · rw [if_neg hidx] at h
    exact absurd h (by simp only [reduceCtorEq, not_false_eq_true])

/-- An entry is a bucket the search from its key's home passes. -/
theorem marked_of_bit (ht : HashTable) (idx d : Nat) (key : Int) (hk : 0 ≤ key)
    (hhome : home key = idx) (hd : bit ht idx d = true) (h6 : d < hopscotchHopinfoSize)
    (hsz : idx + d < ht.sz) (hkey : (ht.buckets (idx + d)).key = key) : Marked ht (idx + d) := by
  refine ⟨hsz, by rw [hkey]; exact hk, by rw [hkey, hhome]; omega, ?_, ?_⟩
  · rw [hkey, hhome, Nat.add_sub_cancel_left]
    exact h6
  · rw [hkey, hhome, Nat.add_sub_cancel_left]
    exact hd

/-- The search finds an entry. It does not leave the array on the way, the
    buckets before the entry being inside it. -/
theorem findFrom_entry (ht : HashTable) (hu : Cells.KeysUnique (entries ht)) (p : Nat) (k : Int)
    (v : Payload) (hp : entries ht p = some (k, v)) :
    findFrom ht (home k) k = some (some (p - home k)) ∧ home k + (p - home k) = p := by
  rcases (entries_eq_some ht p k v).mp hp with ⟨⟨hsz, hk0, hle, h6, hbit⟩, hkey, _⟩
  rw [hkey] at hk0 hle h6 hbit
  have hpos : home k + (p - home k) = p := by omega
  refine ⟨findFrom_hit ht (home k) (p - home k) k hbit h6 (by omega) (by rw [hpos]; exact hkey) ?_,
    hpos⟩
  -- An earlier match would be a second entry for the key.
  intro b hb hbbit hbkey
  have hm := marked_of_bit ht (home k) b k hk0 rfl hbbit (by omega) (by omega) hbkey
  have hent := entries_of_marked ht (home k + b) hm
  rw [hbkey] at hent
  have := hu (home k + b) p k _ v hent hp
  omega

/-! ## Effects on cells -/

/-- A cell keeps its contents if the bucket keeps its key and payload and the
    home keeps its bit. -/
theorem entries_frame (ht ht' : HashTable) (q : Nat) (hsz : ht'.sz = ht.sz)
    (hkey : (ht'.buckets q).key = (ht.buckets q).key)
    (hpay : payload (ht'.buckets q) = payload (ht.buckets q))
    (hbit : home (ht.buckets q).key ≤ q →
      bit ht' (home (ht.buckets q).key) (q - home (ht.buckets q).key)
        = bit ht (home (ht.buckets q).key) (q - home (ht.buckets q).key)) :
    entries ht' q = entries ht q := by
  -- Whether the bucket is marked depends on its key and on one bit of one home.
  have hm : Marked ht' q ↔ Marked ht q := by
    simp only [Marked, hsz, hkey]
    constructor
    · intro h
      rcases h with ⟨h1, h2, h3, h4, h5⟩
      exact ⟨h1, h2, h3, h4, by rw [← hbit h3]; exact h5⟩
    · intro h
      rcases h with ⟨h1, h2, h3, h4, h5⟩
      exact ⟨h1, h2, h3, h4, by rw [hbit h3]; exact h5⟩
  by_cases h : Marked ht q
  · rw [entries_of_marked ht q h, entries_of_marked ht' q (hm.mpr h), hkey, hpay]
  · rw [(entries_eq_none ht q).mpr h, (entries_eq_none ht' q).mpr (fun hc => h (hm.mp hc))]

/-- A store that leaves every `hopinfo` alone leaves every bit alone. -/
theorem bit_setBucket (ht : HashTable) (i : Nat) (b : Bucket)
    (h : b.hopinfo = (ht.buckets i).hopinfo) (q n : Nat) :
    bit (ht.setBucket i b) q n = bit ht q n := by
  rw [bit, setBucket_hopinfo ht i b q h, bit]

theorem bit_setHopinfo (ht : HashTable) (h : Nat) (w : BitVec 32) (q n : Nat) :
    bit (ht.setHopinfo h w) q n = if q = h then w.getLsbD n else bit ht q n := by
  rw [bit, setHopinfo_hopinfo]
  by_cases hq : q = h
  · rw [if_pos hq, if_pos hq]
  · rw [if_neg hq, if_neg hq, bit]

@[simp] theorem setHopinfo_key (ht : HashTable) (h : Nat) (w : BitVec 32) (q : Nat) :
    ((ht.setHopinfo h w).buckets q).key = (ht.buckets q).key := by
  rcases setHopinfo_rest ht h w q with ⟨w', hw⟩
  rw [hw]

@[simp] theorem setHopinfo_payload (ht : HashTable) (h : Nat) (w : BitVec 32) (q : Nat) :
    payload ((ht.setHopinfo h w).buckets q) = payload (ht.buckets q) := by
  rcases setHopinfo_rest ht h w q with ⟨w', hw⟩
  rw [hw]
  rfl

/-- An update rewrites the cell of its bucket. -/
theorem entries_updated (ht : HashTable) (p : Nat) (nval : Int) (hp : Marked ht p) :
    entries (ht.setBucket p (updated (ht.buckets p) nval)) =
      Function.update (entries ht) p
        (some ((ht.buckets p).key, payload (updated (ht.buckets p) nval))) := by
  have hbit := bit_setBucket ht p (updated (ht.buckets p) nval) rfl
  funext q
  by_cases hq : q = p
  · have hm : Marked (ht.setBucket p (updated (ht.buckets p) nval)) p := by
      simp only [Marked, setBucket_self, setBucket_sz, hbit]
      exact hp
    rw [hq, entries_of_marked _ p hm, Function.update_self, setBucket_self]
    rfl
  · rw [Function.update_of_ne hq]
    refine entries_frame ht _ q rfl ?_ ?_ (fun _ => hbit _ _) <;>
      rw [setBucket_other ht p _ q hq]

/-- The table after a successful remove at offset `d` of home `idx`. -/
def removed (ht : HashTable) (idx d : Nat) : HashTable :=
  let ht1 := ht.setHopinfo idx (clearBit (ht.buckets idx).hopinfo d)
  ht1.setBucket (idx + d) { ht1.buckets (idx + d) with key := -1, data := -1 }

theorem removed_bit (ht : HashTable) (idx d h b : Nat) (hd : d < 32) :
    bit (removed ht idx d) h b = (bit ht h b && !decide (h = idx ∧ b = d)) := by
  rw [removed, bit_setBucket _ _ _ (by rfl), bit_setHopinfo, getLsbD_clearBit _ _ _ hd, ← bit]
  by_cases hh : h = idx
  · simp only [hh, if_true, true_and]
  · simp only [hh, if_false, false_and, decide_false, Bool.not_false, Bool.and_true]

/-- A remove leaves the other buckets their keys and payloads. -/
theorem removed_other (ht : HashTable) (idx d q : Nat) (hq : q ≠ idx + d) :
    ((removed ht idx d).buckets q).key = (ht.buckets q).key ∧
      payload ((removed ht idx d).buckets q) = payload (ht.buckets q) := by
  rw [removed, setBucket_other _ _ _ q hq]
  exact ⟨setHopinfo_key _ _ _ q, setHopinfo_payload _ _ _ q⟩

theorem removed_key_self (ht : HashTable) (idx d : Nat) :
    ((removed ht idx d).buckets (idx + d)).key = -1 := by
  rw [removed, setBucket_self]

/-- A remove empties one cell. -/
theorem entries_removed (ht : HashTable) (idx d : Nat) (hd : d < hopscotchHopinfoSize) :
    entries (removed ht idx d) = Function.update (entries ht) (idx + d) none := by
  funext q
  by_cases hq : q = idx + d
  · rw [hq, Function.update_self]
    exact entries_of_empty _ _ (removed_key_self ht idx d)
  · rw [Function.update_of_ne hq]
    rcases removed_other ht idx d q hq with ⟨hkey, hpay⟩
    refine entries_frame ht _ q rfl hkey hpay (fun hle => ?_)
    rw [removed_bit ht idx d _ _ (by simp only [hopscotchHopinfoSize] at hd; omega)]
    -- Another bucket of the same home has another bit.
    have : ¬ (home (ht.buckets q).key = idx ∧ q - home (ht.buckets q).key = d) := by omega
    simp only [this, decide_false, Bool.not_false, Bool.and_true]

theorem store_key (ht : HashTable) (idx i : Nat) (key data : Int) (q : Nat) :
    ((store ht idx i key data).buckets q).key = if q = i then key else (ht.buckets q).key := by
  rw [store, setHopinfo_key]
  by_cases hq : q = i
  · rw [if_pos hq, hq, setBucket_self]
  · rw [if_neg hq, setBucket_other _ _ _ q hq]

theorem store_payload (ht : HashTable) (idx i : Nat) (key data : Int) (q : Nat) :
    payload ((store ht idx i key data).buckets q) =
      if q = i then { data := data, headerVersion := 1, lock := 0, cVer := 1 }
      else payload (ht.buckets q) := by
  rw [store, setHopinfo_payload]
  by_cases hq : q = i
  · rw [if_pos hq, hq, setBucket_self]
    rfl
  · rw [if_neg hq, setBucket_other _ _ _ q hq]

theorem store_data (ht : HashTable) (idx i : Nat) (key data : Int) (q : Nat) :
    ((store ht idx i key data).buckets q).data = if q = i then data else (ht.buckets q).data := by
  have hpay := congrArg Payload.data (store_payload ht idx i key data q)
  by_cases hq : q = i
  · rw [if_pos hq] at hpay ⊢
    exact hpay
  · rw [if_neg hq] at hpay ⊢
    exact hpay

theorem store_bit (ht : HashTable) (idx i : Nat) (key data : Int) (h b : Nat)
    (h6 : i - idx < hopscotchHopinfoSize) :
    bit (store ht idx i key data) h b = (bit ht h b || decide (h = idx ∧ b = i - idx)) := by
  have h32 : i - idx < 32 := by simp only [hopscotchHopinfoSize] at h6; omega
  rw [store, bit_setHopinfo, getLsbD_setBit _ _ _ h32, ← bit, bit_setBucket _ _ _ (by rfl),
    bit_setBucket _ _ _ (by rfl)]
  by_cases hh : h = idx
  · simp only [hh, if_true, true_and]
  · simp only [hh, if_false, false_and, decide_false, Bool.or_false]

/-- The store at the end of an insert fills one cell. -/
theorem entries_store (ht : HashTable) (idx i : Nat) (key data : Int) (hk : 0 ≤ key)
    (hhome : home key = idx) (hle : idx ≤ i) (h6 : i - idx < hopscotchHopinfoSize)
    (hsz : i < ht.sz) :
    entries (store ht idx i key data) = Function.update (entries ht) i
      (some (key, { data := data, headerVersion := 1, lock := 0, cVer := 1 })) := by
  have hst : (store ht idx i key data).sz = ht.sz := rfl
  funext q
  by_cases hq : q = i
  · have hm : Marked (store ht idx i key data) i := by
      simp only [Marked, hst, store_key, if_true, hhome, store_bit ht idx i key data _ _ h6,
        and_self, decide_true, Bool.or_true, and_true]
      exact ⟨hsz, hk, hle, h6⟩
    rw [hq, Function.update_self, entries_of_marked _ i hm, store_key, store_payload, if_pos rfl,
      if_pos rfl]
  · rw [Function.update_of_ne hq]
    refine entries_frame ht _ q hst (by rw [store_key, if_neg hq])
      (by rw [store_payload, if_neg hq]) (fun hqle => ?_)
    rw [store_bit ht idx i key data _ _ h6]
    -- The bit that is set is the one for bucket `i`.
    have : ¬ (home (ht.buckets q).key = idx ∧ q - home (ht.buckets q).key = i - idx) := by omega
    simp only [this, decide_false, Bool.or_false]

/-! ## Displacement -/

/-- The bucket at offset `off` of home `h` holds a key of that home: the bit
    for it, if set, is true. -/
def TrueBit (ht : HashTable) (h off : Nat) : Prop :=
  0 ≤ (ht.buckets (h + off)).key ∧ home (ht.buckets (h + off)).key = h

instance (ht : HashTable) (h off : Nat) : Decidable (TrueBit ht h off) :=
  inferInstanceAs (Decidable (_ ∧ _))

/-- A donor is a home just below the hole with its lowest bit set below the
    hole. -/
theorem donor_spec (ht : HashTable) (i : Nat) :
    ∀ (n j j' off : Nat), donor ht i n j = some (j', off) →
      j ≤ j' ∧ j' < j + n ∧ off < j' ∧ bit ht (i - j') off = true ∧
        ∀ b, b < off → bit ht (i - j') b = false := by
  intro n
  induction n with
  | zero => intro j j' off h; simp only [donor, reduceCtorEq] at h
  | succ n ih =>
      intro j j' off h
      unfold donor at h
      by_cases hc : (ht.buckets (i - j)).hopinfo ≠ 0 ∧ (ht.buckets (i - j)).hopinfo.ctz.toNat < j
      · simp only [if_pos hc, Option.some.injEq, Prod.mk.injEq] at h
        rcases h with ⟨rfl, rfl⟩
        exact ⟨Nat.le_refl _, by omega, hc.2, BitVec.getLsbD_true_ctz_of_ne_zero hc.1,
          fun b hb => BitVec.getLsbD_false_of_lt_ctz hb⟩
      · simp only [if_neg hc] at h
        rcases ih (j + 1) j' off h with ⟨h1, h2, h3⟩
        exact ⟨by omega, by omega, h3⟩

/-- Without a donor no home just below the hole has a bit set below the hole. -/
theorem donor_none (ht : HashTable) (i : Nat) :
    ∀ (n j : Nat), donor ht i n j = none →
      ∀ j', j ≤ j' → j' < j + n → ∀ b, b < j' → bit ht (i - j') b = false := by
  intro n
  induction n with
  | zero => intro j _ j' h1 h2; omega
  | succ n ih =>
      intro j h j' h1 h2 b hb
      unfold donor at h
      by_cases hc : (ht.buckets (i - j)).hopinfo ≠ 0 ∧ (ht.buckets (i - j)).hopinfo.ctz.toNat < j
      · simp only [if_pos hc, reduceCtorEq] at h
      · simp only [if_neg hc] at h
        by_cases hj : j' = j
        · -- The home was passed over: no bit at all, or its lowest one past the hole.
          by_cases h0 : (ht.buckets (i - j)).hopinfo = 0
          · rw [bit, hj, h0, BitVec.ofNat_eq_ofNat, BitVec.getLsbD_zero]
          · have hle : ¬ (ht.buckets (i - j)).hopinfo.ctz.toNat < j := fun hlt => hc ⟨h0, hlt⟩
            rw [bit, hj]
            exact BitVec.getLsbD_false_of_lt_ctz (by omega)
        · exact ih (j + 1) h j' (by omega) (by omega) b hb

theorem hop_key (ht : HashTable) (i j off q : Nat) :
    ((hop ht i j off).buckets q).key =
      if q = i then (ht.buckets (i - j + off)).key else (ht.buckets q).key := by
  rw [hop, setHopinfo_key]
  by_cases hq : q = i
  · rw [if_pos hq, hq, setBucket_self]
  · rw [if_neg hq, setBucket_other _ _ _ q hq]

theorem hop_payload (ht : HashTable) (i j off q : Nat) :
    payload ((hop ht i j off).buckets q) =
      if q = i then payload (ht.buckets (i - j + off)) else payload (ht.buckets q) := by
  rw [hop, setHopinfo_payload]
  by_cases hq : q = i
  · rw [if_pos hq, hq, setBucket_self]
    rfl
  · rw [if_neg hq, setBucket_other _ _ _ q hq]

theorem hop_data (ht : HashTable) (i j off q : Nat) :
    ((hop ht i j off).buckets q).data =
      if q = i then (ht.buckets (i - j + off)).data else (ht.buckets q).data := by
  have hpay := congrArg Payload.data (hop_payload ht i j off q)
  by_cases hq : q = i
  · rw [if_pos hq] at hpay ⊢
    exact hpay
  · rw [if_neg hq] at hpay ⊢
    exact hpay

theorem hop_bit (ht : HashTable) (i j off h b : Nat) (hj : j < hopscotchHopinfoSize)
    (hoff : off < j) :
    bit (hop ht i j off) h b =
      if h = i - j then ((bit ht h b && !decide (b = off)) || decide (b = j)) else bit ht h b := by
  have hj32 : j < 32 := by simp only [hopscotchHopinfoSize] at hj; omega
  rw [hop, bit_setHopinfo, getLsbD_setBit _ _ _ hj32, getLsbD_clearBit _ _ _ (by omega), ← bit,
    bit_setBucket _ _ _ (by rfl), bit_setBucket _ _ _ (by rfl)]
  by_cases hh : h = i - j
  · simp only [hh, if_true]
  · simp only [hh, if_false]

/-- A hop along a true bit moves the entry of the bucket it takes into the
    hole. -/
theorem entries_hop (ht : HashTable) (i j off : Nat) (hj1 : 1 ≤ j) (hj : j < hopscotchHopinfoSize)
    (hji : j ≤ i) (hoff : off < j) (hsz : i < ht.sz) (hbit : bit ht (i - j) off = true)
    (htrue : TrueBit ht (i - j) off) :
    entries (hop ht i j off) = Cells.move (entries ht) (i - j + off) i := by
  rcases htrue with ⟨hk0, hhome⟩
  have hst : (hop ht i j off).sz = ht.sz := rfl
  have hp : Marked ht (i - j + off) :=
    marked_of_bit ht (i - j) off _ hk0 hhome hbit (by omega) (by omega) rfl
  have hne : i - j + off ≠ i := by omega
  funext q
  by_cases hq : q = i - j + off
  · -- The bucket it came from: its bit is cleared.
    rw [hq, Cells.move, Function.update_self, entries_eq_none]
    intro h
    rcases h with ⟨_, _, _, _, hb⟩
    rw [hop_key, if_neg hne, hhome, hop_bit ht i j off _ _ hj hoff, if_pos rfl,
      Nat.add_sub_cancel_left] at hb
    simp only [decide_true, Bool.not_true, Bool.and_false, Bool.false_or, decide_eq_true_eq] at hb
    omega
  · by_cases hqi : q = i
    · -- The hole: the home's bit for it is set.
      have hm : Marked (hop ht i j off) i := by
        simp only [Marked, hst, hop_key, if_true, hhome, hop_bit ht i j off _ _ hj hoff]
        refine ⟨hsz, hk0, by omega, by omega, ?_⟩
        rw [show i - (i - j) = j by omega, decide_eq_true rfl, Bool.or_true]
      rw [hqi, Cells.move, Function.update_of_ne (Ne.symm hne), Function.update_self,
        entries_of_marked _ i hm, entries_of_marked ht _ hp, hop_key, hop_payload, if_pos rfl,
        if_pos rfl]
    · rw [Cells.move, Function.update_of_ne hq, Function.update_of_ne hqi]
      refine entries_frame ht _ q hst (by rw [hop_key, if_neg hqi])
        (by rw [hop_payload, if_neg hqi]) (fun hqle => ?_)
      rw [hop_bit ht i j off _ _ hj hoff]
      by_cases hh : home (ht.buckets q).key = i - j
      · -- A third bucket of the donor's home has neither of the two bits.
        rw [if_pos hh]
        have h1 : q - home (ht.buckets q).key ≠ off := by omega
        have h2 : q - home (ht.buckets q).key ≠ j := by omega
        simp only [h1, h2, decide_false, Bool.not_false, Bool.and_true, Bool.or_false]
      · rw [if_neg hh]

end FaRM

end LocalKeyValue
