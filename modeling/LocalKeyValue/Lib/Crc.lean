import Mathlib

/-!
# Cyclic Redundancy Checks

A shift register of `w` bits that divides a message, fed one bit at a time, by a
polynomial over the field of two elements. The register is reflected: its low
bit is the highest power, so dividing one bit out is a shift to the right, and a
word holds its message bits with the first of them lowest.

Feeding is linear in the register and the message together, and it is injective
in the register when the polynomial has a constant term, which is the top bit of
the reflected word. So two messages that differ in a window no longer than the
register leave different remainders: fed into the register the window is a word,
and then it is only shifted. Two single bits cancel when the register comes back
to where it was in the bits between them, which the order of the shift rules out.

## Main definitions

* `shift`: Dividing out one bit.
* `feedBit`, `feed`: One bit of a message, and a message.
* `ofBits`: The word a short message makes.
* `unit`, `mul`, `power`: One, products and powers in the register.
* `value`, `divisor`, `message`: The polynomials of a register, of the division
  and of a message.

## Theorems

* `shift_xor`, `feed_xor`: Linearity.
* `shift_injective`: The shift loses nothing.
* `feed_ofBits`: A short message is added as a word.
* `feed_burst`: What differs in a short window is told apart.
* `power_eq`, `iterate_unit_eq_iff`: Powers by squaring, and the order of the shift.
* `feed_ne_of_count`: Messages that differ in one or two bits are told apart.
* `value_feed`: The register holds the remainder of the division.
-/

namespace LocalKeyValue

namespace Crc

variable {w : Nat}

/-- Divide one bit out of the register. -/
def shift (poly s : BitVec w) : BitVec w :=
  if s.getLsbD 0 then (s >>> 1) ^^^ poly else s >>> 1

/-- Feed one bit of the message. -/
def feedBit (poly s : BitVec w) (b : Bool) : BitVec w :=
  shift poly (s ^^^ BitVec.setWidth w (BitVec.ofBool b))

def feed (poly s : BitVec w) (bits : List Bool) : BitVec w :=
  bits.foldl (feedBit poly) s

/-! ## Linearity -/

theorem xor_right_comm (a b c : BitVec w) : a ^^^ b ^^^ c = a ^^^ c ^^^ b := by
  rw [BitVec.xor_assoc, BitVec.xor_comm b c, BitVec.xor_assoc]

theorem xor_xor_self (a b : BitVec w) : a ^^^ b ^^^ b = a := by
  rw [BitVec.xor_assoc, BitVec.xor_self, BitVec.xor_zero]

theorem shift_xor (poly s t : BitVec w) :
    shift poly (s ^^^ t) = shift poly s ^^^ shift poly t := by
  unfold shift
  rw [BitVec.getLsbD_xor, BitVec.ushiftRight_xor_distrib]
  cases hs : s.getLsbD 0 with
  | false =>
      cases ht : t.getLsbD 0 with
      | false => rfl
      | true => exact BitVec.xor_assoc ..
  | true =>
      cases ht : t.getLsbD 0 with
      | false => exact xor_right_comm ..
      | true =>
          -- The polynomial is added twice.
          simp only [Bool.xor_self, Bool.false_eq_true, if_false, if_true]
          rw [← BitVec.xor_assoc, xor_right_comm (s >>> 1) poly, xor_xor_self]

theorem iterate_xor (poly : BitVec w) : ∀ (n : Nat) (s t : BitVec w),
    (shift poly)^[n] (s ^^^ t) = (shift poly)^[n] s ^^^ (shift poly)^[n] t := by
  intro n
  induction n with
  | zero => intro s t; rfl
  | succ n ih =>
      intro s t
      simp only [Function.iterate_succ_apply, shift_xor, ih]

theorem shift_zero (poly : BitVec w) : shift poly 0 = 0 := by
  unfold shift
  rw [if_neg (by simp only [BitVec.ofNat_eq_ofNat, BitVec.getLsbD_zero, Bool.false_eq_true,
    not_false_eq_true])]
  exact BitVec.zero_ushiftRight ..

theorem iterate_zero (poly : BitVec w) (n : Nat) : (shift poly)^[n] 0 = 0 :=
  Function.iterate_fixed (shift_zero poly) n

theorem feed_append (poly s : BitVec w) (u v : List Bool) :
    feed poly s (u ++ v) = feed poly (feed poly s u) v :=
  List.foldl_append

theorem feedBit_xor (poly s t : BitVec w) (a b : Bool) :
    feedBit poly (s ^^^ t) (a ^^ b) = feedBit poly s a ^^^ feedBit poly t b := by
  have hbit : BitVec.setWidth w (BitVec.ofBool (a ^^ b)) =
      BitVec.setWidth w (BitVec.ofBool a) ^^^ BitVec.setWidth w (BitVec.ofBool b) := by
    rw [← BitVec.setWidth_xor, BitVec.ofBool_xor_ofBool]
  unfold feedBit
  rw [hbit, ← shift_xor]
  congr 1
  rw [BitVec.xor_assoc, BitVec.xor_assoc, ← BitVec.xor_assoc t, ← BitVec.xor_assoc _ t,
    BitVec.xor_comm t]

/-- The remainder of a sum is the sum of the remainders. -/
theorem feed_xor (poly : BitVec w) : ∀ (u v : List Bool) (s t : BitVec w),
    u.length = v.length →
      feed poly (s ^^^ t) (List.zipWith xor u v) = feed poly s u ^^^ feed poly t v := by
  intro u
  induction u with
  | nil =>
      intro v s t hlen
      rw [List.length_nil] at hlen
      rw [List.eq_nil_of_length_eq_zero hlen.symm]
      rfl
  | cons a u ih =>
      intro v s t hlen
      cases v with
      | nil => exact absurd hlen (Nat.succ_ne_zero _)
      | cons b v =>
          simp only [feed, List.zipWith_cons_cons, List.foldl_cons, feedBit_xor]
          exact ih v _ _ (Nat.succ.inj hlen)

/-! ## Injectivity -/

theorem eq_zero_of_shift {poly : BitVec w} (hpoly : poly.msb = true) {s : BitVec w}
    (h : shift poly s = 0) : s = 0 := by
  unfold shift at h
  cases hs : s.getLsbD 0 with
  | true =>
      -- The top bit of the polynomial stays.
      rw [hs, if_pos rfl] at h
      have hmsb := congrArg BitVec.msb h
      rw [BitVec.msb_xor, hpoly, BitVec.msb_ushiftRight] at hmsb
      simp at hmsb
  | false =>
      rw [hs, if_neg (by decide)] at h
      ext i hi
      cases i with
      | zero =>
          rw [← BitVec.getLsbD_eq_getElem, hs, ← BitVec.getLsbD_eq_getElem]
          exact (BitVec.getLsbD_zero).symm
      | succ i =>
          have hbit := congrArg (fun x => x.getLsbD i) h
          simp only [BitVec.getLsbD_ushiftRight, BitVec.ofNat_eq_ofNat, BitVec.getLsbD_zero] at hbit
          rw [Nat.add_comm] at hbit
          simpa [BitVec.getLsbD_eq_getElem hi] using hbit

theorem eq_of_xor_zero {a b : BitVec w} (h : a ^^^ b = 0) : a = b := by
  have := xor_xor_self a b
  rw [h] at this
  rw [← this]
  exact BitVec.zero_xor

theorem shift_injective {poly : BitVec w} (hpoly : poly.msb = true) :
    Function.Injective (shift poly) := by
  intro s t h
  apply eq_of_xor_zero
  apply eq_zero_of_shift hpoly
  rw [shift_xor, h]
  exact BitVec.xor_self

theorem feed_injective {poly : BitVec w} (hpoly : poly.msb = true) (bits : List Bool) :
    Function.Injective fun s => feed poly s bits := by
  induction bits with
  | nil => exact fun _ _ h => h
  | cons b bits ih =>
      intro s t h
      have hbit := shift_injective hpoly (ih h)
      rw [← xor_xor_self s, ← xor_xor_self t]
      exact congrArg (· ^^^ _) hbit

/-! ## Words -/

/-- The word of a short message, its first bit lowest. -/
def ofBits (w : Nat) : List Bool → BitVec w
  | [] => 0
  | b :: u => (ofBits w u <<< 1) ^^^ BitVec.setWidth w (BitVec.ofBool b)

theorem getLsbD_ofBits : ∀ (u : List Bool) (i : Nat),
    (ofBits w u).getLsbD i = (decide (i < w) && u.getD i false) := by
  intro u
  induction u with
  | nil => intro i; simp [ofBits]
  | cons b u ih =>
      intro i
      cases i with
      | zero => simp [ofBits]
      | succ i =>
          simp only [ofBits, BitVec.getLsbD_xor, BitVec.getLsbD_shiftLeft, ih]
          by_cases hi : i + 1 < w
          · simp [hi, Nat.lt_of_succ_lt hi]
          · simp [hi]

theorem ofBits_inj {u v : List Bool} (hlen : u.length = v.length) (hw : u.length ≤ w)
    (h : ofBits w u = ofBits w v) : u = v := by
  apply List.ext_getElem hlen
  intro i hi hi'
  have hbit := congrArg (fun x => x.getLsbD i) h
  simp only [getLsbD_ofBits, Nat.lt_of_lt_of_le hi hw, decide_true, Bool.true_and] at hbit
  rwa [List.getD_eq_getElem _ _ hi, List.getD_eq_getElem _ _ hi'] at hbit

theorem shift_shiftLeft (poly : BitVec w) {s : BitVec w} (h : s.msb = false) :
    shift poly (s <<< 1) = s := by
  unfold shift
  rw [if_neg (by simp)]
  ext i hi
  by_cases hlast : i + 1 = w
  · have hlast' : i = w - 1 := by omega
    rw [BitVec.msb_eq_getLsbD_last, ← hlast'] at h
    simp [← BitVec.getLsbD_eq_getElem, h, hlast, Nat.add_comm 1 i]
  · have hlt : 1 + i < w := by omega
    simp [hlt]

/-- A message no longer than the register is added to it as a word. -/
theorem feed_ofBits (poly : BitVec w) : ∀ (u : List Bool) (s : BitVec w), u.length ≤ w →
    feed poly s u = (shift poly)^[u.length] (s ^^^ ofBits w u) := by
  intro u
  induction u with
  | nil => intro s _; exact BitVec.xor_zero.symm
  | cons b u ih =>
      intro s hlen
      rw [List.length_cons] at hlen
      have hmsb : (ofBits w u).msb = false := by
        rw [BitVec.msb_eq_getLsbD_last, getLsbD_ofBits,
          List.getD_eq_default _ _ (by omega), Bool.and_false]
      have hfeed : feed poly s (b :: u) = feed poly (feedBit poly s b) u := rfl
      rw [hfeed, ih _ (by omega), List.length_cons, Function.iterate_succ_apply, ofBits,
        BitVec.xor_comm (ofBits w u <<< 1), ← BitVec.xor_assoc, shift_xor,
        shift_shiftLeft poly hmsb]
      rfl

/-- Messages that differ in a window no longer than the register only are told apart. -/
theorem feed_burst {poly : BitVec w} (hpoly : poly.msb = true) (s : BitVec w)
    {p u v q : List Bool} (hlen : u.length = v.length) (hw : u.length ≤ w)
    (h : feed poly s (p ++ u ++ q) = feed poly s (p ++ v ++ q)) : u = v := by
  simp only [feed_append] at h
  have hword := feed_injective hpoly q h
  rw [feed_ofBits poly u _ hw, feed_ofBits poly v _ (hlen ▸ hw), ← hlen] at hword
  have hxor := (shift_injective hpoly).iterate u.length hword
  apply ofBits_inj hlen hw
  have hcancel : ∀ x : BitVec w, x = feed poly s p ^^^ (feed poly s p ^^^ x) := by
    intro x
    rw [← BitVec.xor_assoc, BitVec.xor_self, BitVec.zero_xor]
  rw [hcancel (ofBits w u), hxor, ← hcancel]

theorem shift_iterate_of_low (poly : BitVec w) : ∀ (n : Nat) (s : BitVec w),
    (∀ i < n, s.getLsbD i = false) → (shift poly)^[n] s = s >>> n := by
  intro n
  induction n with
  | zero => intro s _; exact (BitVec.ushiftRight_zero s).symm
  | succ n ih =>
      intro s hlow
      have hshift : shift poly s = s >>> 1 := by
        unfold shift
        rw [hlow 0 (by omega), if_neg (by decide)]
      rw [Function.iterate_succ_apply, hshift, ih, ← BitVec.shiftRight_add, Nat.add_comm]
      intro i hi
      rw [BitVec.getLsbD_ushiftRight]
      exact hlow _ (by omega)

/-! ## The order of the shift -/

/-- One, which is the power that only the top bit holds. -/
def unit : BitVec w := 1#w <<< (w - 1)

def mulFrom (poly : BitVec w) : Nat → BitVec w → BitVec w → BitVec w
  | 0, _, _ => 0
  | k + 1, a, b => (if b.getLsbD k then a else 0) ^^^ mulFrom poly k (shift poly a) b

/-- The product: `a` shifted once for each power below the top one that `b` holds. -/
def mul (poly a b : BitVec w) : BitVec w := mulFrom poly w a b

/-- What `n` shifts make of one, by squaring. -/
def power (poly : BitVec w) : Nat → Nat → BitVec w
  | 0, _ => unit
  | fuel + 1, n =>
    let r := power poly fuel (n / 2)
    if n % 2 = 1 then shift poly (mul poly r r) else mul poly r r

theorem mulFrom_shift (poly b : BitVec w) : ∀ (k : Nat) (a : BitVec w),
    mulFrom poly k (shift poly a) b = shift poly (mulFrom poly k a b) := by
  intro k
  induction k with
  | zero => intro a; exact (shift_zero poly).symm
  | succ k ih =>
      intro a
      rw [mulFrom, ih, mulFrom, shift_xor]
      congr 1
      split
      · rfl
      · exact (shift_zero poly).symm

theorem mul_iterate (poly b : BitVec w) : ∀ (n : Nat) (a : BitVec w),
    mul poly ((shift poly)^[n] a) b = (shift poly)^[n] (mul poly a b) := by
  intro n
  induction n with
  | zero => intro a; rfl
  | succ n ih =>
      intro a
      rw [Function.iterate_succ_apply, ih, Function.iterate_succ_apply]
      exact congrArg _ (mulFrom_shift poly b w a)

theorem shift_one_shiftLeft (poly : BitVec w) {k : Nat} (hk : k + 1 < w) :
    shift poly (1#w <<< (k + 1)) = 1#w <<< k := by
  rw [BitVec.shiftLeft_add]
  apply shift_shiftLeft
  rw [BitVec.msb_eq_getLsbD_last, BitVec.getLsbD_shiftLeft, BitVec.getLsbD_one]
  simp only [Bool.and_eq_false_imp, decide_eq_true_eq, decide_eq_false_iff_not]
  omega

/-- Powers of one up to the top of the register select the bits of the other factor. -/
theorem getLsbD_mulFrom (poly b : BitVec w) : ∀ k < w, ∀ i,
    (mulFrom poly (k + 1) (1#w <<< k) b).getLsbD i = (decide (i ≤ k) && b.getLsbD i) := by
  have hhead : ∀ k i, k < w → (if b.getLsbD k then 1#w <<< k else 0).getLsbD i =
      (decide (i = k) && b.getLsbD k) := by
    intro k i hk
    cases b.getLsbD k with
    | false => simp
    | true =>
        simp only [if_true, BitVec.getLsbD_shiftLeft, BitVec.getLsbD_one, Bool.and_true]
        grind
  intro k
  induction k with
  | zero =>
      intro hk i
      rw [mulFrom, mulFrom, BitVec.getLsbD_xor, hhead 0 i hk]
      cases i with
      | zero => simp
      | succ i => simp
  | succ k ih =>
      intro hk i
      rw [mulFrom, BitVec.getLsbD_xor, hhead _ i hk, shift_one_shiftLeft poly hk, ih (by omega)]
      by_cases hi : i = k + 1
      · simp [hi]
      · have hle : (i ≤ k + 1) ↔ i ≤ k := by omega
        simp [hi, hle]

theorem mul_unit (poly b : BitVec w) : mul poly unit b = b := by
  cases w with
  | zero => exact Subsingleton.elim _ _
  | succ w =>
      ext i hi
      have hle : i ≤ w := Nat.le_of_lt_succ hi
      rw [← BitVec.getLsbD_eq_getElem, mul, unit, Nat.add_sub_cancel,
        getLsbD_mulFrom poly b w (Nat.lt_succ_self w)]
      simp [hle, hi]

theorem mul_iterate_unit (poly b : BitVec w) (n : Nat) :
    mul poly ((shift poly)^[n] unit) b = (shift poly)^[n] b := by
  rw [mul_iterate, mul_unit]

theorem power_eq (poly : BitVec w) : ∀ (fuel n : Nat), n < 2 ^ fuel →
    power poly fuel n = (shift poly)^[n] unit := by
  intro fuel
  induction fuel with
  | zero =>
      intro n hn
      rw [Nat.lt_one_iff.mp hn]
      rfl
  | succ fuel ih =>
      intro n hn
      rw [power, ih (n / 2) (by omega), mul_iterate_unit, ← Function.iterate_add_apply]
      split
      · rename_i hodd
        rw [← Function.iterate_succ_apply' (shift poly), show (n / 2 + n / 2).succ = n by omega]
      · rw [show n / 2 + n / 2 = n by omega]

/-- The order of the shift: a period of one, that no prime can be divided out of. -/
theorem iterate_unit_eq_iff {poly : BitVec w} {N : Nat}
    (hperiod : (shift poly)^[N] unit = unit)
    (hprime : ∀ p, p.Prime → p ∣ N → (shift poly)^[N / p] unit ≠ unit) (n : Nat) :
    (shift poly)^[n] unit = unit ↔ N ∣ n := by
  let m := Function.minimalPeriod (shift poly) (unit : BitVec w)
  have hmN : m ∣ N := Function.IsPeriodicPt.minimalPeriod_dvd hperiod
  have hm : m = N := by
    by_contra hne
    obtain ⟨c, hc⟩ := hmN
    have hc1 : c ≠ 1 := by
      rintro rfl
      exact hne (by rw [hc, Nat.mul_one])
    obtain ⟨p, hp, d, rfl⟩ := Nat.exists_prime_and_dvd hc1
    -- The period divides what is left of `N` without this prime.
    apply hprime p hp ⟨m * d, by rw [hc]; ring⟩
    have hdiv : N / p = m * d := by
      rw [hc, show m * (p * d) = m * d * p by ring, Nat.mul_div_cancel _ hp.pos]
    rw [hdiv]
    exact (Function.isPeriodicPt_minimalPeriod (shift poly) unit).mul_const d
  rw [← hm]
  exact Function.isPeriodicPt_iff_minimalPeriod_dvd

/-! ## One or two bits -/

/-- The bit that feeding adds, before it is shifted. -/
def fedBit : BitVec w := BitVec.setWidth w (BitVec.ofBool true)

theorem feed_cons_false (poly s : BitVec w) (d : List Bool) :
    feed poly s (false :: d) = feed poly (shift poly s) d := by
  have hbit : feedBit poly s false = shift poly s := by
    unfold feedBit
    simp
  rw [← hbit]
  rfl

theorem feed_of_count_zero (poly : BitVec w) : ∀ (d : List Bool) (s : BitVec w),
    d.count true = 0 → feed poly s d = (shift poly)^[d.length] s := by
  intro d
  induction d with
  | nil => intro s _; rfl
  | cons b d ih =>
      intro s hcount
      cases b with
      | true => simp at hcount
      | false =>
          rw [List.count_cons_of_ne (by decide)] at hcount
          rw [List.length_cons, Function.iterate_succ_apply, ← ih _ hcount, feed_cons_false]

theorem feed_cons_true (poly s : BitVec w) (d : List Bool) :
    feed poly s (true :: d) = feed poly (shift poly (s ^^^ fedBit)) d := rfl

theorem iterate_of_feed_zero {poly : BitVec w} (hpoly : poly.msb = true) :
    ∀ (d : List Bool) (s : BitVec w), d.count true = 1 → feed poly s d = 0 →
      ∃ i < d.length, (shift poly)^[i] s = fedBit := by
  intro d
  induction d with
  | nil => intro s hcount _; exact absurd hcount (by decide)
  | cons b d ih =>
      intro s hcount h
      cases b with
      | false =>
          rw [List.count_cons_of_ne (by decide)] at hcount
          obtain ⟨i, hi, heq⟩ := ih _ hcount (feed_cons_false poly s d ▸ h)
          exact ⟨i + 1, Nat.succ_lt_succ hi, heq⟩
      | true =>
          -- Nothing is added after this bit, so it meets its like here.
          rw [List.count_cons_self] at hcount
          rw [feed_cons_true, feed_of_count_zero poly d _ (Nat.succ.inj hcount),
            ← Function.iterate_succ_apply] at h
          refine ⟨0, Nat.succ_pos _, eq_of_xor_zero ?_⟩
          apply (shift_injective hpoly).iterate (d.length + 1)
          exact h.trans (iterate_zero poly _).symm

theorem fedBit_ne_zero (hw : 0 < w) : (fedBit : BitVec w) ≠ 0 := by
  intro h
  have hbit := congrArg (fun x => x.getLsbD 0) h
  simp [fedBit, hw] at hbit

theorem iterate_of_feed_two {poly : BitVec w} (hpoly : poly.msb = true) :
    ∀ d : List Bool, d.count true = 2 → feed poly 0 d = 0 →
      ∃ i, 0 < i ∧ i < d.length ∧ (shift poly)^[i] fedBit = (fedBit : BitVec w) := by
  intro d
  induction d with
  | nil => intro hcount _; exact absurd hcount (by decide)
  | cons b d ih =>
      intro hcount h
      cases b with
      | false =>
          rw [List.count_cons_of_ne (by decide)] at hcount
          rw [feed_cons_false, shift_zero] at h
          obtain ⟨i, hpos, hi, heq⟩ := ih hcount h
          exact ⟨i, hpos, Nat.lt_succ_of_lt hi, heq⟩
      | true =>
          -- The first bit is alone in the register until the second comes.
          rw [List.count_cons_self] at hcount
          have hzero : (0 : BitVec w) ^^^ fedBit = fedBit := BitVec.zero_xor
          rw [feed_cons_true, hzero] at h
          obtain ⟨i, hi, heq⟩ := iterate_of_feed_zero hpoly d _ (Nat.succ.inj hcount) h
          exact ⟨i + 1, Nat.succ_pos _, Nat.succ_lt_succ hi, heq⟩

theorem iterate_unit (poly : BitVec w) : ∀ j < w, (shift poly)^[j] unit = 1#w <<< (w - 1 - j) := by
  intro j
  induction j with
  | zero => intro _; rfl
  | succ j ih =>
      intro hj
      rw [Function.iterate_succ_apply', ih (by omega),
        show w - 1 - j = w - 1 - (j + 1) + 1 by omega]
      exact shift_one_shiftLeft poly (by omega)

theorem fedBit_eq (poly : BitVec w) (hw : 0 < w) : fedBit = (shift poly)^[w - 1] unit := by
  rw [iterate_unit poly (w - 1) (by omega), Nat.sub_self, BitVec.shiftLeft_zero]
  ext i hi
  rw [fedBit, ← BitVec.getLsbD_eq_getElem, ← BitVec.getLsbD_eq_getElem]
  simp [hi]

/-- Messages that differ in one bit, or in two no further apart than the order, are told apart. -/
theorem feed_ne_of_count {poly : BitVec w} (hpoly : poly.msb = true) (hw : 0 < w) {N : Nat}
    (horder : ∀ i, 0 < i → i < N → (shift poly)^[i] unit ≠ unit) (s : BitVec w)
    {u v : List Bool} (hlen : u.length = v.length) (hN : u.length ≤ N)
    (hpos : 0 < (List.zipWith xor u v).count true) (htwo : (List.zipWith xor u v).count true ≤ 2) :
    feed poly s u ≠ feed poly s v := by
  intro h
  have hzero : feed poly 0 (List.zipWith xor u v) = 0 := by
    have hxor := feed_xor poly u v s s hlen
    rw [h] at hxor
    rw [BitVec.xor_self, BitVec.xor_self] at hxor
    exact hxor
  have hlenN : (List.zipWith xor u v).length ≤ N := by
    rw [List.length_zipWith, ← hlen, Nat.min_self]
    exact hN
  rcases Nat.lt_or_ge 1 ((List.zipWith xor u v).count true) with hcount | hcount
  · -- The register has come back to where the first bit put it.
    obtain ⟨i, hi0, hi, heq⟩ := iterate_of_feed_two hpoly _ (by omega) hzero
    rw [fedBit_eq poly hw, ← Function.iterate_add_apply, Nat.add_comm,
      Function.iterate_add_apply] at heq
    exact horder i hi0 (by omega) ((shift_injective hpoly).iterate _ heq)
  · -- One bit has nothing to cancel it.
    obtain ⟨i, _, heq⟩ := iterate_of_feed_zero hpoly _ _ (by omega) hzero
    rw [iterate_zero] at heq
    exact fedBit_ne_zero hw heq.symm

/-! ## Polynomials -/

section Polynomials

open Polynomial

/-- The polynomial a register holds: its low bit is the highest power. -/
noncomputable def value (s : BitVec w) : (ZMod 2)[X] :=
  ∑ i ∈ Finset.range w, if s.getLsbD i then X ^ (w - 1 - i) else 0

/-- The polynomial divided by. -/
noncomputable def divisor (poly : BitVec w) : (ZMod 2)[X] := X ^ w + value poly

/-- The polynomial of a message, its first bit the highest power. -/
noncomputable def message : List Bool → (ZMod 2)[X]
  | [] => 0
  | b :: u => (if b then X ^ u.length else 0) + message u

theorem degree_value (s : BitVec w) : (value s).degree < w := by
  rw [← mem_degreeLT]
  apply Submodule.sum_mem
  intro i hi
  rw [Finset.mem_range] at hi
  split
  · rw [mem_degreeLT]
    exact lt_of_le_of_lt (degree_X_pow_le _) (Nat.cast_lt.mpr (by omega))
  · exact Submodule.zero_mem _

theorem divisor_monic (poly : BitVec w) : (divisor poly).Monic :=
  monic_X_pow_add (degree_value poly)

theorem degree_value_lt_divisor (poly s : BitVec w) : (value s).degree < (divisor poly).degree := by
  rw [divisor, degree_add_eq_left_of_degree_lt (by
    rw [degree_X_pow]
    exact degree_value poly), degree_X_pow]
  exact degree_value s

theorem value_xor (s t : BitVec w) : value (s ^^^ t) = value s + value t := by
  rw [value, value, value, ← Finset.sum_add_distrib]
  apply Finset.sum_congr rfl
  intro i _
  rw [BitVec.getLsbD_xor]
  cases s.getLsbD i with
  | false => simp
  | true =>
      cases t.getLsbD i with
      | false => simp
      | true => simp [CharTwo.add_self_eq_zero]

/-- The bit shifted out is the power that has become too high. -/
theorem X_mul_value (s : BitVec w) :
    X * value s = (if s.getLsbD 0 then X ^ w else 0) + value (s >>> 1) := by
  cases w with
  | zero => simp [value]
  | succ w =>
      rw [value, Finset.sum_range_succ', mul_add, Finset.mul_sum, value, Finset.sum_range_succ,
        add_comm]
      congr 1
      · split
        · rw [Nat.add_sub_cancel, Nat.sub_zero, pow_succ']
        · exact mul_zero _
      · have hlast : (s >>> 1).getLsbD w = false := by
          rw [BitVec.getLsbD_ushiftRight, BitVec.getLsbD_of_ge _ _ (by omega)]
        rw [hlast, if_neg (by decide), add_zero]
        apply Finset.sum_congr rfl
        intro i hi
        rw [Finset.mem_range] at hi
        rw [BitVec.getLsbD_ushiftRight, Nat.add_comm 1 i]
        split
        · rw [← pow_succ']
          congr 1
          omega
        · exact mul_zero _

theorem X_mul_value_shift (poly s : BitVec w) :
    X * value s = value (shift poly s) + if s.getLsbD 0 then divisor poly else 0 := by
  rw [X_mul_value, shift]
  split
  · rw [value_xor, divisor, add_assoc, add_comm (value poly), add_assoc,
      CharTwo.add_self_eq_zero, add_zero, add_comm]
  · rw [zero_add, add_zero]

theorem X_mul_value_bit (b : Bool) :
    X * value (BitVec.setWidth w (BitVec.ofBool b)) = if b ∧ 0 < w then X ^ w else 0 := by
  rw [X_mul_value]
  have hshift : (BitVec.setWidth w (BitVec.ofBool b)) >>> 1 = 0 := by
    ext i hi
    simp
  have hzero : value (0 : BitVec w) = 0 := by simp [value]
  rw [hshift, hzero, add_zero]
  cases b with
  | false => simp
  | true => simp

/-- A message fed is the dividend, up to multiples of the divisor. -/
theorem exists_value_feed (poly : BitVec w) (hw : 0 < w) : ∀ (u : List Bool) (s : BitVec w),
    ∃ q, value s * X ^ u.length + X ^ w * message u = value (feed poly s u) + divisor poly * q := by
  intro u
  induction u with
  | nil =>
      intro s
      exact ⟨0, by simp [message, feed]⟩
  | cons b u ih =>
      intro s
      obtain ⟨q, hq⟩ := ih (feedBit poly s b)
      -- The power that has become too high takes the divisor out once.
      have hbit := X_mul_value_shift poly (s ^^^ BitVec.setWidth w (BitVec.ofBool b))
      rw [value_xor, mul_add, X_mul_value_bit] at hbit
      change _ = value (feedBit poly s b) + _ at hbit
      change ∃ q, _ = value (feed poly (feedBit poly s b) u) + divisor poly * q
      refine ⟨q + (if (s ^^^ BitVec.setWidth w (BitVec.ofBool b)).getLsbD 0 then X ^ u.length
        else 0), ?_⟩
      rw [mul_add, ← add_assoc, ← hq, message, List.length_cons, pow_succ]
      have hstep : value s * (X ^ u.length * X) + X ^ w * (if b then X ^ u.length else 0) =
          X ^ u.length * (X * value s + if b ∧ 0 < w then X ^ w else 0) := by
        cases b with
        | false => simp; ring
        | true => simp [hw]; ring
      rw [mul_add (X ^ w), ← add_assoc, hstep, hbit]
      split <;> ring

/-- The register holds the remainder of its old contents followed by the message. -/
theorem value_feed (poly s : BitVec w) (hw : 0 < w) (u : List Bool) :
    value (feed poly s u) = (value s * X ^ u.length + X ^ w * message u) %ₘ divisor poly := by
  obtain ⟨q, hq⟩ := exists_value_feed poly hw u s
  exact ((div_modByMonic_unique q _ (divisor_monic poly)
    ⟨hq.symm, degree_value_lt_divisor poly _⟩).2).symm

end Polynomials

end Crc

end LocalKeyValue
