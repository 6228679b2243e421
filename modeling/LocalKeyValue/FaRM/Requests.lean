import LocalKeyValue.FaRM.Load
import LocalKeyValue.FaRM.PutProtocol

/-!
# Which Request Keys Stay Inside the Array

The server narrows a request's key to an `int32_t` and hands it to
`hopscotch_update` unchecked. On the loaded table every `hopinfo` bit of every
bucket is set, so the search for a key that is not stored reads all six buckets
from the index it computes, and the key alone decides whether they are inside.

Two things can go wrong. The remainder of a negative key is negative, and as a
`uint32_t` and then a `size_t` it is an index near `2^32`; `hopscotch_remove`
masks it, `hopscotch_update` and `hopscotch_lookup` do not. And the homes of the
last five buckets have their reach past the end of the array, where a key of
such a home that is not the bucket's own is looked for.

## Main definitions

* `HomeInside`, `ReachInside`: The key's index, and the buckets from it on, are
  inside the array.
* `serveKey`: The server handles a request.

## Theorems

* `homeIdx_lt_iff`, `homeIdx_mask_eq`: The index, and the index masked.
* `full_findFrom_iff`: When a search of the full table stays inside.
* `full_update_iff`, `full_lookup_iff`, `full_remove_iff`: The operations.
* `requests_inside_iff`: Every state a run of requests reaches.
-/

namespace LocalKeyValue

namespace FaRM

open CInt Run

/-- The index `_jenkins_hash` gives for the key is inside the array. -/
def HomeInside (key : Int) : Prop :=
  0 ≤ key ∨ (2 : Int) ^ hopscotchInitBsizeExponent ∣ key

/-- The search is inside from the key's home on: the loaded keys are found at
    their home, and any other key is looked for in all six buckets. -/
def ReachInside (key : Int) : Prop :=
  InTable key ∨ key % 2 ^ hopscotchInitBsizeExponent + 5 < 2 ^ hopscotchInitBsizeExponent

/-- The server at a record with the given key: a 0 is no request, and of any
    other key the low 32 bits are taken. -/
def serveKey (ht : HashTable) (key : Int) : Option HashTable :=
  if key = 0 then some ht else farmApply ht (toInt32 key)

/-! ## The index -/

/-- The index is inside the array unless the remainder is negative. -/
theorem homeIdx_lt_iff (ht : HashTable) (key : Int) :
    ht.homeIdx key < 2 ^ hopscotchInitBsizeExponent ↔ HomeInside key := by
  have h := tmod_cases key (2 ^ hopscotchInitBsizeExponent) (by decide)
  -- A negative remainder becomes a `uint32_t` near `2^32`.
  simp only [HashTable.homeIdx, jenkinsHash, toUInt32, HomeInside, hopscotchInitBsizeExponent]
    at h ⊢
  omega

/-- Masked with the size less one, the index is the home of the key even when
    the key is negative. -/
theorem homeIdx_mask_eq (ht : HashTable) (hexp : ht.exponent = hopscotchInitBsizeExponent)
    (key : Int) : ht.homeIdx key &&& (ht.sz - 1) = home key := by
  have h := tmod_cases key (2 ^ hopscotchInitBsizeExponent) (by decide)
  -- The size divides `2^32`, so the mask undoes the conversion.
  rw [HashTable.sz, hexp, Nat.and_two_pow_sub_one_eq_mod]
  simp only [HashTable.homeIdx, jenkinsHash, toUInt32, home, hopscotchInitBsizeExponent] at h ⊢
  omega

/-- An index inside the array is the home of the key. -/
theorem homeIdx_eq_home (ht : HashTable) (hexp : ht.exponent = hopscotchInitBsizeExponent)
    (key : Int) (h : HomeInside key) : ht.homeIdx key = home key := by
  have hlt := (homeIdx_lt_iff ht key).mpr h
  rw [← homeIdx_mask_eq ht hexp key, homeIdx_mask ht key (by rw [HashTable.sz, hexp]; exact hlt)]

/-! ## The search -/

/-- The loop leaves the array if it comes to a marked bucket past the end
    before it finds the key. -/
theorem findBucket_outside (ht : HashTable) (idx d : Nat) (key : Int) (hd : bit ht idx d = true)
    (hout : ht.sz ≤ idx + d) :
    ∀ (n i : Nat), i ≤ d → d < i + n →
      (∀ b, i ≤ b → idx + b < ht.sz → (ht.buckets (idx + b)).key ≠ key) →
      findBucket ht idx key n i = none := by
  intro n
  induction n with
  | zero => intro i hid hdn _; omega
  | succ n ih =>
      intro i hid hdn hne
      rw [findBucket, HashTable.bucket?]
      by_cases hin : idx + i < ht.sz
      · -- The bucket holds another key, and the loop goes on.
        have hrest := ih (i + 1) (by omega) (by omega) (fun b hb => hne b (by omega))
        have hkey := hne i (Nat.le_refl _) hin
        rw [if_pos hin]
        simp only [if_neg (Ne.symm hkey), hrest, ite_self]
      · rw [if_neg hin]
        by_cases hi : (ht.buckets idx).hopinfo.getLsbD i = true
        · rw [if_pos hi]
        · -- An unmarked bucket past the end is not read, and `d` is still ahead.
          have hid' : i ≠ d := fun hc => hi (by rw [hc]; exact hd)
          rw [if_neg hi]
          exact ih (i + 1) (by omega) (by omega) (fun b hb => hne b (by omega))

theorem full_bit (ht : HashTable) (h : Full ht) (idx : Nat) (hidx : idx < ht.sz) (b : Nat)
    (hb : b < hopscotchHopinfoSize) : bit ht idx b = true := by
  rw [bit, h.hopinfo idx hidx, BitVec.getLsbD_allOnes, decide_eq_true_eq]
  simp only [hopscotchHopinfoSize] at hb
  omega

/-- A search of the full table from the home of the key stays inside exactly
    when the key's reach does. -/
theorem full_findFrom_iff (ht : HashTable) (h : Full ht) (key : Int) :
    findFrom ht (home key) key ≠ none ↔ ReachInside key := by
  have hsz := loading_sz _ ht h
  have hidx : home key < ht.sz := by
    rw [hsz]
    exact home_lt key
  by_cases hin : InTable key
  · have hf := full_findFrom ht h key hin
    rw [homeIdx_eq ht key hin.1] at hf
    rw [hf]
    exact iff_of_true (by simp only [ne_eq, reduceCtorEq, not_false_eq_true]) (Or.inl hin)
  · -- No bucket holds the key, since the keys of the table are the numbers of its buckets.
    have hne : ∀ b, home key + b < ht.sz → (ht.buckets (home key + b)).key ≠ key := by
      intro b hb hc
      rw [full_key ht h _ hb] at hc
      refine hin ⟨by omega, ?_⟩
      rw [hsz] at hb
      simp only [hopscotchInitBsizeExponent] at hb ⊢
      omega
    have hreach : ReachInside key ↔ home key + 5 < ht.sz := by
      rw [ReachInside, hsz]
      simp only [hin, false_or, home, hopscotchInitBsizeExponent]
      omega
    rw [hreach]
    by_cases hend : home key + 5 < ht.sz
    · have hmiss := findFrom_miss ht (home key) key hidx (fun b hb _ => by
        simp only [hopscotchHopinfoSize] at hb
        exact ⟨by omega, hne b (by omega)⟩)
      rw [hmiss]
      exact iff_of_true (by simp only [ne_eq, reduceCtorEq, not_false_eq_true]) hend
    · -- The sixth bucket is marked like the others and past the end.
      have hout := findBucket_outside ht (home key) 5 key (full_bit ht h _ hidx 5 (by decide))
        (by omega) hopscotchHopinfoSize 0 (by omega) (by decide) (fun b _ => hne b)
      have h0 : (ht.buckets (home key)).hopinfo ≠ 0 := by
        rw [h.hopinfo _ hidx]
        decide
      have hnone : findFrom ht (home key) key = none := by
        rw [findFrom, HashTable.bucket?, if_pos hidx]
        simp only [if_neg h0, hout]
      rw [hnone]
      exact iff_of_false (fun hc => hc rfl) hend

/-! ## The operations -/

/-- Update and lookup take the index as it is. -/
theorem full_search_iff (ht : HashTable) (h : Full ht) (key : Int) :
    findFrom ht (ht.homeIdx key) key ≠ none ↔ HomeInside key ∧ ReachInside key := by
  by_cases hhome : HomeInside key
  · rw [homeIdx_eq_home ht h.exponent key hhome, full_findFrom_iff ht h key]
    simp only [hhome, true_and]
  · have hout : ¬ ht.homeIdx key < ht.sz := by
      rw [loading_sz _ ht h, homeIdx_lt_iff]
      exact hhome
    rw [findFrom, HashTable.bucket?, if_neg hout]
    exact iff_of_false (fun hc => hc rfl) (fun hc => hhome hc.1)

theorem full_update_iff (ht : HashTable) (h : Full ht) (key nval : Int) :
    hopscotchUpdate ht key nval ≠ none ↔ HomeInside key ∧ ReachInside key := by
  rw [← full_search_iff ht h key, hopscotchUpdate]
  rcases findFrom ht (ht.homeIdx key) key with _ | _ | d
  · exact iff_of_false (fun hc => hc rfl) (fun hc => hc rfl)
  · simp only [ne_eq, reduceCtorEq, not_false_eq_true]
  · simp only [ne_eq, reduceCtorEq, not_false_eq_true]

theorem full_lookup_iff (ht : HashTable) (h : Full ht) (key : Int) :
    hopscotchLookup ht key ≠ none ↔ HomeInside key ∧ ReachInside key := by
  rw [← full_search_iff ht h key, hopscotchLookup]
  rcases findFrom ht (ht.homeIdx key) key with _ | _ | d
  · exact iff_of_false (fun hc => hc rfl) (fun hc => hc rfl)
  · simp only [ne_eq, reduceCtorEq, not_false_eq_true]
  · simp only [ne_eq, reduceCtorEq, not_false_eq_true]

/-- Remove masks the index, so only the reach can leave the array. -/
theorem full_remove_iff (ht : HashTable) (h : Full ht) (key : Int) :
    hopscotchRemove ht key ≠ none ↔ ReachInside key := by
  have hidx : home key < ht.sz := by
    rw [loading_sz _ ht h]
    exact home_lt key
  have h0 : (ht.buckets (home key)).hopinfo ≠ 0 := by
    rw [h.hopinfo _ hidx]
    decide
  rw [← full_findFrom_iff ht h key, hopscotchRemove]
  simp only [homeIdx_mask_eq ht h.exponent key, findFrom, HashTable.bucket?, if_pos hidx,
    if_neg h0]
  rcases findBucket ht (home key) key hopscotchHopinfoSize 0 with _ | _ | d
  · exact iff_of_false (fun hc => hc rfl) (fun hc => hc rfl)
  · simp only [ne_eq, reduceCtorEq, not_false_eq_true]
  · simp only [ne_eq, reduceCtorEq, not_false_eq_true]

/-- An update leaves the table full, whether it finds its key or not. -/
theorem full_hopscotchUpdate (ht ht' : HashTable) (h : Full ht) (key nval r : Int)
    (hrun : hopscotchUpdate ht key nval = some (ht', r)) : Full ht' := by
  by_cases hin : InTable key
  · rcases full_update ht h key nval hin with ⟨hrun', hfull⟩
    rw [hrun', Option.some.injEq, Prod.mk.injEq] at hrun
    rw [← hrun.1]
    exact hfull
  · rw [hopscotchUpdate] at hrun
    cases hf : findFrom ht (ht.homeIdx key) key with
    | none => rw [hf] at hrun; exact absurd hrun (by simp only [reduceCtorEq, not_false_eq_true])
    | some o =>
        cases o with
        | none =>
            simp only [hf, Option.some.injEq, Prod.mk.injEq] at hrun
            rw [← hrun.1]
            exact h
        | some d =>
            -- A key the search finds is the number of a bucket.
            rcases findFrom_sound ht _ key d hf with ⟨_, _, hsz, hkey⟩
            rw [full_key ht h _ hsz] at hkey
            rw [loading_sz _ ht h] at hsz
            exact absurd (hkey ▸ inTable_natCast _ hsz) hin

/-- One request: it is handled inside the array exactly when its key fits, and
    the table stays full. -/
theorem full_serveKey (ht : HashTable) (h : Full ht) (key : Int) :
    ((∃ ht', serveKey ht key = some ht') ↔
        HomeInside (toInt32 key) ∧ ReachInside (toInt32 key)) ∧
      ∀ ht', serveKey ht key = some ht' → Full ht' := by
  unfold serveKey
  by_cases h0 : key = 0
  · -- A free record; 0 itself would fit.
    rw [if_pos h0, h0]
    refine ⟨iff_of_true ⟨ht, rfl⟩ ⟨Or.inl (by decide), Or.inl (by decide)⟩, fun ht' hs => ?_⟩
    rw [Option.some.injEq] at hs
    exact hs ▸ h
  · rw [if_neg h0, farmApply, ← full_update_iff ht h (toInt32 key) (toInt32 key)]
    cases hu : hopscotchUpdate ht (toInt32 key) (toInt32 key) with
    | none => simp only [Option.map_none, reduceCtorEq, exists_false, ne_eq, not_true_eq_false,
        false_implies, implies_true, and_self]
    | some r =>
        refine ⟨iff_of_true ⟨r.1, rfl⟩ (by simp only [ne_eq, reduceCtorEq, not_false_eq_true]),
          fun ht' hs => ?_⟩
        rw [Option.map_some, Option.some.injEq] at hs
        rw [← hs]
        exact full_hopscotchUpdate ht r.1 h _ _ r.2 hu

/-- After the load loop a run of requests is handled inside the array exactly
    when every key of it fits. In every state reached, an update or a lookup
    stays inside exactly when index and reach of its key do, and a remove when
    the reach does. -/
theorem requests_inside_iff (keys : List Int) :
    ∃ ht0 rs, mainLoad (2 ^ hopscotchInitBsizeExponent) = some (ht0, rs) ∧
      ((∃ ht, run serveKey keys ht0 = some ht) ↔
        ∀ key ∈ keys, HomeInside (toInt32 key) ∧ ReachInside (toInt32 key)) ∧
      ∀ ht, run serveKey keys ht0 = some ht →
        (∀ key nval, hopscotchUpdate ht (toInt32 key) nval ≠ none ↔
          HomeInside (toInt32 key) ∧ ReachInside (toInt32 key)) ∧
        ∀ key, (hopscotchLookup ht key ≠ none ↔ HomeInside key ∧ ReachInside key) ∧
          (hopscotchRemove ht key ≠ none ↔ ReachInside key) := by
  rcases mainLoad_loading _ (Nat.le_refl _) with ⟨ht0, hrun0, hfull0, _⟩
  rcases run_iff_forall serveKey _ Full (fun ht key h => full_serveKey ht h key) keys ht0 hfull0
    with ⟨hall, hend⟩
  refine ⟨ht0, _, hrun0, hall, fun ht hrun => ?_⟩
  -- Every state reached is full, which is all that the operations need.
  have hfull := hend ht hrun
  exact ⟨fun key nval => full_update_iff ht hfull _ nval,
    fun key => ⟨full_lookup_iff ht hfull key, full_remove_iff ht hfull key⟩⟩

/-- The home of key 8388607 is the last bucket, whose own key is 4194303, so the
    search goes on past the end of the array. The first request for it is enough. -/
theorem request_leaves_array :
    ¬ ∀ keys ht0 rs ht, mainLoad (2 ^ hopscotchInitBsizeExponent) = some (ht0, rs) →
      run serveKey keys ht0 = some ht →
      (∀ key nval, hopscotchUpdate ht (toInt32 key) nval ≠ none) ∧
      ∀ key, InInt32 key → hopscotchLookup ht key ≠ none ∧ hopscotchRemove ht key ≠ none := by
  intro h
  rcases mainLoad_loading _ (Nat.le_refl _) with ⟨ht0, hrun0, hfull0, _⟩
  have hupd := (h [] ht0 _ ht0 hrun0 rfl).1 8388607 0
  rw [full_update_iff ht0 hfull0, toInt32_of_inInt32 8388607 (by decide)] at hupd
  have hreach : ¬ ReachInside 8388607 := by
    unfold ReachInside
    decide
  exact hreach hupd.2

end FaRM

end LocalKeyValue
