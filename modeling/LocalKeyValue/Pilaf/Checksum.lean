import LocalKeyValue.Lib.Crc
import LocalKeyValue.Pilaf.Crc64

/-!
# What the Checksum Computes

The table makes eight steps of a shift register at a time. So the checksum of a
byte string is the remainder of its bits, the low bit of each byte first, by the
Jones polynomial, and tells byte strings apart that differ in at most 64 bits in
a row, or in at most two bits that lie within the order of the polynomial. Its
order is `2 ^ 64 - 1`, the largest a register of 64 bits has.

## Main definitions

* `crc64Poly`: The polynomial, as the word the table has for the byte 128.
* `crc64Bits`: The bits of a byte string as the checksum takes them.

## Theorems

* `crc64_feed`: The checksum is the register's contents after the bits.
* `crc64_remainder`: It is the remainder of the polynomial division.
* `crc64_burst`: A change within 64 bits in a row changes it.
* `crc64_two_bits`: A change of one or two bits changes it.
-/

namespace LocalKeyValue

namespace Pilaf

def crc64Poly : BitVec 64 := 0x95ac9329ac4bc9b5

-- Reflected, the polynomial is the one the table's source names.
example : crc64Poly.reverse = 0xad93d23594c935a9 := by
  decide +kernel

def byteBits (byte : BitVec 8) : List Bool :=
  (List.range 8).map byte.getLsbD

def crc64Bits (s : List (BitVec 8)) : List Bool :=
  s.flatMap byteBits

theorem length_crc64Bits (s : List (BitVec 8)) : (crc64Bits s).length = 8 * s.length := by
  induction s with
  | nil => rfl
  | cons byte s ih =>
      rw [crc64Bits, List.flatMap_cons, List.length_append, List.length_cons]
      rw [crc64Bits] at ih
      rw [ih, byteBits, List.length_map, List.length_range]
      omega

theorem byteBits_injective : Function.Injective byteBits := by
  intro a b h
  ext i hi
  have hbit := congrArg (fun u => u.getD i false) h
  simpa [byteBits, hi] using hbit

theorem crc64Bits_injective : Function.Injective crc64Bits := by
  intro s
  induction s with
  | nil =>
      intro t h
      have hlen := congrArg List.length h
      rw [length_crc64Bits, length_crc64Bits] at hlen
      exact (List.eq_nil_of_length_eq_zero (by simpa using hlen.symm)).symm
  | cons a s ih =>
      intro t h
      cases t with
      | nil =>
          have hlen := congrArg List.length h
          rw [length_crc64Bits, length_crc64Bits] at hlen
          exact absurd hlen (by simp)
      | cons b t =>
          rw [crc64Bits, crc64Bits, List.flatMap_cons, List.flatMap_cons] at h
          obtain ⟨hbyte, hrest⟩ := List.append_inj h (by simp [byteBits])
          rw [byteBits_injective hbyte, ih hrest]

/-! ## One byte -/

theorem crc64Tab_steps : ∀ low : Fin 256,
    crc64Tab.getD low.val 0 = (Crc.shift crc64Poly)^[8] (BitVec.ofNat 64 low.val) := by
  decide +kernel

theorem ofBits_byteBits (byte : BitVec 8) :
    Crc.ofBits 64 (byteBits byte) = byte.setWidth 64 := by
  apply BitVec.eq_of_getLsbD_eq
  intro i hi
  rw [Crc.getLsbD_ofBits, BitVec.getLsbD_setWidth]
  congr 1
  by_cases hlt : i < 8
  · rw [byteBits, List.getD_eq_getElem _ _ (by simpa using hlt)]
    simp
  · rw [List.getD_eq_default _ _ (by simp [byteBits]; omega), BitVec.getLsbD_of_ge _ _ (by omega)]

/-- The low byte of a word and the rest of it. -/
theorem low_xor_rest (x : BitVec 64) :
    x = (x.truncate 8).setWidth 64 ^^^ ((x >>> 8) <<< 8) := by
  apply BitVec.eq_of_getLsbD_eq
  intro i hi
  by_cases hlt : i < 8
  · simp [hi, hlt]
  · simp [hi, hlt, show 8 + (i - 8) = i by omega]

theorem shift_eight (x : BitVec 64) :
    (Crc.shift crc64Poly)^[8] x = crc64Tab.getD (x.truncate 8).toNat 0 ^^^ (x >>> 8) := by
  conv => lhs; rw [low_xor_rest x]
  rw [Crc.iterate_xor, crc64Tab_steps ⟨_, (x.truncate 8).isLt⟩]
  congr 1
  · congr 1
    apply BitVec.eq_of_toNat_eq
    simp
  · -- The rest has no bits in the low byte, so nothing is divided out.
    rw [Crc.shift_iterate_of_low]
    · apply BitVec.eq_of_getLsbD_eq
      intro i hi
      by_cases hlt : i + 8 < 64
      · simp [show ¬ 8 + i < 8 by omega, show 8 + i < 64 by omega]
      · simp [show ¬ 8 + i < 64 by omega, BitVec.getLsbD_of_ge x (8 + i) (by omega)]
    · intro i hi
      simp [hi]

theorem crc64Byte_feed (crc : BitVec 64) (byte : BitVec 8) :
    crc64Byte crc byte = Crc.feed crc64Poly crc (byteBits byte) := by
  have hlen : (byteBits byte).length = 8 := by
    rw [byteBits, List.length_map, List.length_range]
  rw [Crc.feed_ofBits _ _ _ (by omega), hlen, ofBits_byteBits, shift_eight, crc64Byte]
  congr 1
  · congr 1
    rw [BitVec.truncate_eq_setWidth, BitVec.truncate_eq_setWidth, BitVec.setWidth_xor,
      BitVec.setWidth_setWidth_of_le _ (by decide), BitVec.setWidth_eq]
  · apply BitVec.eq_of_getLsbD_eq
    intro i hi
    simp

theorem crc64_feed : ∀ (s : List (BitVec 8)) (crc : BitVec 64),
    crc64 crc s = Crc.feed crc64Poly crc (crc64Bits s) := by
  intro s
  induction s with
  | nil => intro crc; rfl
  | cons byte s ih =>
      intro crc
      have hcons : crc64 crc (byte :: s) = crc64 (crc64Byte crc byte) s := rfl
      have hbits : crc64Bits (byte :: s) = byteBits byte ++ crc64Bits s := List.flatMap_cons
      rw [hcons, ih, hbits, Crc.feed_append, crc64Byte_feed]

/-! ## What it detects -/

theorem crc64_remainder (crc : BitVec 64) (s : List (BitVec 8)) :
    Crc.value (crc64 crc s) =
      (Crc.value crc * Polynomial.X ^ (8 * s.length) +
        Polynomial.X ^ 64 * Crc.message (crc64Bits s)) %ₘ Crc.divisor crc64Poly := by
  rw [crc64_feed, Crc.value_feed _ _ (by decide), length_crc64Bits]

/-- Byte strings that agree but for 64 bits in a row have different checksums. -/
theorem crc64_burst (crc : BitVec 64) (s t : List (BitVec 8)) (p u v q : List Bool)
    (hs : crc64Bits s = p ++ u ++ q) (ht : crc64Bits t = p ++ v ++ q)
    (hlen : u.length = v.length) (h64 : u.length ≤ 64) (hne : s ≠ t) :
    crc64 crc s ≠ crc64 crc t := by
  intro hcrc
  rw [crc64_feed, crc64_feed, hs, ht] at hcrc
  apply hne
  apply crc64Bits_injective
  rw [hs, ht, Crc.feed_burst (by decide) crc hlen h64 hcrc]

theorem crc64_burst_word :
    crc64 0 [0, 1, 2, 3, 4, 5, 6, 7, 8, 0] ≠ crc64 0 [0, 8, 7, 6, 5, 4, 3, 2, 1, 0] :=
  crc64_burst 0 [0, 1, 2, 3, 4, 5, 6, 7, 8, 0] [0, 8, 7, 6, 5, 4, 3, 2, 1, 0] (crc64Bits [0])
    (crc64Bits [1, 2, 3, 4, 5, 6, 7, 8]) (crc64Bits [8, 7, 6, 5, 4, 3, 2, 1]) (crc64Bits [0])
    rfl rfl rfl (by decide) (by decide)

/-! ## The order of the polynomial -/

theorem crc64Poly_period :
    (Crc.shift crc64Poly)^[2 ^ 64 - 1] Crc.unit = Crc.unit := by
  rw [← Crc.power_eq crc64Poly 64 _ (by decide)]
  decide +kernel

theorem order_primes {p : Nat} (hp : p.Prime) (h : p ∣ 2 ^ 64 - 1) :
    p ∈ [3, 5, 17, 257, 641, 65537, 6700417] := by
  have hfactor : 2 ^ 64 - 1 = 3 * (5 * (17 * (257 * (641 * (65537 * 6700417))))) := by norm_num
  rw [hfactor] at h
  have hmem : ∀ q, q.Prime → p ∣ q → p = q := by
    intro q hq hpq
    exact (Nat.prime_dvd_prime_iff_eq hp hq).mp hpq
  simp only [List.mem_cons, List.not_mem_nil, or_false]
  simp only [hp.dvd_mul] at h
  rcases h with h | h | h | h | h | h | h
  · exact Or.inl (hmem 3 (by norm_num) h)
  · exact Or.inr (Or.inl (hmem 5 (by norm_num) h))
  · exact Or.inr (Or.inr (Or.inl (hmem 17 (by norm_num) h)))
  · exact Or.inr (Or.inr (Or.inr (Or.inl (hmem 257 (by norm_num) h))))
  · exact Or.inr (Or.inr (Or.inr (Or.inr (Or.inl (hmem 641 (by norm_num) h)))))
  · exact Or.inr (Or.inr (Or.inr (Or.inr (Or.inr (Or.inl (hmem 65537 (by norm_num) h))))))
  · exact Or.inr (Or.inr (Or.inr (Or.inr (Or.inr (Or.inr (hmem 6700417 (by norm_num) h))))))

theorem order_quotients : ∀ p ∈ [3, 5, 17, 257, 641, 65537, 6700417],
    Crc.power crc64Poly 64 ((2 ^ 64 - 1) / p) ≠ Crc.unit := by
  decide +kernel

/-- The shift comes back to one after `2 ^ 64 - 1` steps and not before. -/
theorem crc64Poly_order (n : Nat) :
    (Crc.shift crc64Poly)^[n] Crc.unit = Crc.unit ↔ 2 ^ 64 - 1 ∣ n := by
  apply Crc.iterate_unit_eq_iff crc64Poly_period
  intro p hp hdvd
  have hne := order_quotients p (order_primes hp hdvd)
  rwa [Crc.power_eq crc64Poly 64 _ (Nat.lt_of_le_of_lt (Nat.div_le_self _ _) (by decide))] at hne

/-- Byte strings of one length below `2 ^ 61` that differ in one or two bits have different
checksums. -/
theorem crc64_two_bits (crc : BitVec 64) (s t : List (BitVec 8)) (hlen : s.length = t.length)
    (h61 : s.length < 2 ^ 61)
    (hpos : 0 < (List.zipWith xor (crc64Bits s) (crc64Bits t)).count true)
    (htwo : (List.zipWith xor (crc64Bits s) (crc64Bits t)).count true ≤ 2) :
    crc64 crc s ≠ crc64 crc t := by
  rw [crc64_feed, crc64_feed]
  have hbits := length_crc64Bits s
  refine Crc.feed_ne_of_count (N := 2 ^ 64 - 1) (by decide) (by decide) ?_ crc ?_ ?_ hpos htwo
  · intro i hi hlt heq
    exact absurd (Nat.le_of_dvd hi ((crc64Poly_order i).mp heq)) (by omega)
  · rw [hbits, length_crc64Bits, hlen]
  · omega

theorem crc64_two_bits_apart : crc64 0 [1, 2] ≠ crc64 0 [2, 2] :=
  crc64_two_bits 0 [1, 2] [2, 2] rfl (by decide) (by decide) (by decide)

end Pilaf

end LocalKeyValue
