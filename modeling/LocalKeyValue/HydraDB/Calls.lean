import LocalKeyValue.HydraDB.Pool

/-!
# What the HydraDB Calls Do

The calls on keys that are not negative, key 0 included. A freed slot points to
an item with key 0, so key 0 is found in it as a stored key is: an update of 0
may go to a freed slot, which it gives a new item without putting it in use. An
`Effect` says once what a call that comes back has done; the invariant `SlotsOk`
is kept by all of them as long as no stored key is inserted again.

## Main definitions

* `Holding`, `Stored`: The slots in use for a key.
* `Effect`: What a call does.
* `ClientCall`: A call on a key that is not negative, no insert of a stored one.

## Theorems

* `effect_of_call`: A call that comes back has one of the effects.
* `slotsOk_effect`, `slotsOk_run`: The invariant.
-/

namespace LocalKeyValue

namespace HydraDB

open Cells Run

/-- Slot `p` is in use for a key. -/
def Holding (h : HashTable) (p : Nat × Nat) (key : Int) : Prop :=
  (h.slot p).busy ≠ 0 ∧ ∃ a, (h.slot p).addr = some a ∧ (h.buckets a).key = key

instance (h : HashTable) (p : Nat × Nat) (key : Int) : Decidable (Holding h p key) :=
  match ha : (h.slot p).addr with
  | none => isFalse fun hc => by
    rcases hc.2 with ⟨a, hs, _⟩
    rw [ha] at hs
    exact absurd hs (by simp only [reduceCtorEq, not_false_eq_true])
  | some a => decidable_of_iff ((h.slot p).busy ≠ 0 ∧ (h.buckets a).key = key) (by
    simp only [Holding, ha, Option.some.injEq, exists_eq_left'])

/-- A slot of the key's bucket is in use for it. -/
def Stored (h : HashTable) (key : Int) : Prop :=
  ∃ i, i < slots ∧ Holding h (calcHash key, i) key

instance (h : HashTable) (key : Int) : Decidable (Stored h key) :=
  inferInstanceAs (Decidable (∃ i, i < slots ∧ Holding h (calcHash key, i) key))

theorem holding_iff (h : HashTable) (p : Nat × Nat) (key : Int) (hp : InTable p) :
    Holding h p key ↔ ∃ e, cells h p = some (key, e) := by
  constructor
  · intro hh
    rcases hh with ⟨hb, a, ha, hk⟩
    exact ⟨{ item := a, size := _ }, (cells_eq_some h p key _).mpr ⟨hp, hb, ha, hk, rfl⟩⟩
  · intro hc
    rcases hc with ⟨e, he⟩
    rcases (cells_eq_some h p key e).mp he with ⟨_, hb, ha, hk, _⟩
    exact ⟨hb, e.item, ha, hk⟩

theorem stored_iff (h : HashTable) (ok : SlotsOk h) (key : Int) (hk : 0 ≤ key) :
    Stored h key ↔ Present (cells h) key := by
  have hb := calcHash_lt key hk
  constructor
  · intro hs
    rcases hs with ⟨i, hi, hh⟩
    rcases (holding_iff h _ key ⟨hb, hi⟩).mp hh with ⟨e, he⟩
    exact ⟨e, _, he⟩
  · intro hp
    rcases hp with ⟨e, p, hp⟩
    have hin := ((cells_eq_some h p key e).mp hp).1
    rcases p with ⟨b, i⟩
    have hhash : calcHash key = b := (ok.live _ key e hp).2
    exact ⟨i, hin.2, by rw [hhash]; exact (holding_iff h (b, i) key hin).mpr ⟨e, hp⟩⟩

/-! ## Effects -/

/-- There is an item for a write, and the value fits into it. -/
def WriteFits (h : HashTable) (size : Int) : Prop :=
  h.index < h.poolSize ∧ 0 ≤ size ∧ size ≤ keySize

/-- What a call does to a table between operations. -/
inductive Effect (h : HashTable) : TableOp → HashTable → Prop
  | refused (key : Int) (value : Nat → Byte) (size : Int)
      (hfull : findFreeSlot h (calcHash key) = -1) : Effect h (.insert key value size) h
  | inserted (key : Int) (value : Nat → Byte) (size : Int) (i : Nat)
      (hin : InTable (calcHash key, i)) (hfree : (h.slot (calcHash key, i)).busy = 0)
      (hbefore : ∀ l, l < i → (h.slot (calcHash key, l)).addr ≠ none) (hfits : WriteFits h size) :
      Effect h (.insert key value size) (inserted h (calcHash key, i) key value size)
  | updated (key : Int) (value : Nat → Byte) (size : Int) (p : Nat × Nat) (e : Entry)
      (hp : cells h p = some (key, e)) (hfits : WriteFits h size) :
      Effect h (.update key value size) (updated h p e.item key value size)
  /-- An update of key 0 that has found a freed slot. -/
  | refilled (value : Nat → Byte) (size : Int) (p : Nat × Nat) (a : Nat) (hin : InTable p)
      (hfree : (h.slot p).busy = 0) (haddr : (h.slot p).addr = some a)
      (hfits : WriteFits h size) : Effect h (.update 0 value size) (updated h p a 0 value size)
  | deleted (key : Int) (p : Nat × Nat) (e : Entry) (hp : cells h p = some (key, e)) :
      Effect h (.delete key) (deleted h p e.item)
  | absent (key : Int) (habs : ¬ Present (cells h) key) : Effect h (.delete key) h

/-- A call that comes back has one of these effects. -/
theorem effect_of_call (h h' : HashTable) (op : TableOp) (ok : SlotsOk h) (hk : 0 ≤ op.key)
    (hrun : callStep h op = some h') : Effect h op h' := by
  cases op with
  | insert key value size =>
      rcases Option.map_eq_some_iff.mp hrun with ⟨⟨t, r⟩, hins, rfl⟩
      rcases insert_cases h t key value size r hins with ⟨hb, ⟨hfull, rfl, _⟩ | ⟨i, hi, hfree,
        hbefore, hroom, h0, h32, rfl, _⟩⟩
      · exact Effect.refused key value size hfull
      · -- The slots before are busy, and a busy slot has an address.
        exact Effect.inserted key value size i ⟨hb, hi⟩ hfree
          (fun l hl => ok.busy_addr _ ⟨hb, Nat.lt_trans hl hi⟩ (hbefore l hl)) ⟨hroom, h0, h32⟩
  | update key value size =>
      rcases Option.map_eq_some_iff.mp hrun with ⟨⟨t, r⟩, hup, rfl⟩
      rcases update_cases h t key value size r hup with ⟨p, a, hs, hroom, h0, h32, _, _, htable⟩
      rcases search_cases h key _ hs with ⟨hb, ⟨i, c, hi, haddr, _, hkey, heq⟩ | ⟨heq, _⟩⟩
      · rw [SearchReturn.mk.injEq, Option.some.injEq, Option.some.injEq] at heq
        rcases heq with ⟨rfl, rfl, _⟩
        have hin : InTable (calcHash key, i) := ⟨hb, hi⟩
        have hlt := ok.below _ a hin haddr
        rw [htable (by omega)]
        by_cases hbusy : (h.slot (calcHash key, i)).busy = 0
        · -- A freed slot's item has key 0.
          have h0key : key = 0 := hkey.symm.trans (ok.freed _ a hin hbusy haddr)
          subst h0key
          exact Effect.refilled value size _ a hin hbusy haddr ⟨hroom, h0, h32⟩
        · exact Effect.updated key value size _ { item := a, size := _ }
            ((cells_eq_some h _ key _).mpr ⟨hin, hbusy, haddr, hkey, rfl⟩) ⟨hroom, h0, h32⟩
      · simp only [SearchReturn.mk.injEq, reduceCtorEq, false_and] at heq
  | delete key =>
      by_cases hp : Present (cells h) key
      · rcases hp with ⟨e, p, hp⟩
        have hdel := delete_entry h ok p key e hp
        rw [callStep, hdel, Option.some.injEq] at hrun
        rw [← hrun]
        exact Effect.deleted key p e hp
      · rw [callStep, delete_absent h ok key hk hp, Option.some.injEq] at hrun
        rw [← hrun]
        exact Effect.absent key hp

/-! ## The invariant -/

theorem updated_busy (h : HashTable) (p : Nat × Nat) (a : Nat) (key : Int) (value : Nat → Byte)
    (size : Int) (q : Nat × Nat) :
    ((updated h p a key value size).slot q).busy = (h.slot q).busy := by
  by_cases hq : q = p
  · rw [hq, updated_slot]
  · rw [updated_slot_other h p a key value size q hq]

/-- Items handed out before keep their keys. -/
theorem updated_key (h : HashTable) (p : Nat × Nat) (a : Nat) (key : Int) (value : Nat → Byte)
    (size : Int) (c : Nat) (hc : c < h.index) :
    ((updated h p a key value size).buckets c).key = (h.buckets c).key := by
  by_cases hca : c = a
  · rw [hca, updated_old h p a key value size (by omega)]
  · rw [updated_other h p a key value size c (by omega) hca]

/-- A freed slot that is given a new item is not in use for it. -/
theorem cells_refilled (h : HashTable) (ok : SlotsOk h) (p : Nat × Nat) (a : Nat)
    (value : Nat → Byte) (size : Int) (hfree : (h.slot p).busy = 0) :
    cells (updated h p a 0 value size) = cells h := by
  funext q
  unfold cells
  rw [updated_busy]
  by_cases hc : InTable q ∧ (h.slot q).busy ≠ 0
  · rw [if_pos hc, if_pos hc, updated_slot_other h p a 0 value size q
      (fun hq => hc.2 (by rw [hq]; exact hfree))]
    cases hq : (h.slot q).addr with
    | none => rfl
    | some c =>
        rw [Option.map_some, Option.map_some, updated_key _ _ _ _ _ _ c (ok.below q c hc.1 hq)]
  · rw [if_neg hc, if_neg hc]

/-- A freed slot that is given a new item with key 0 is still a freed slot. -/
theorem slotsOk_refilled (h : HashTable) (ok : SlotsOk h) (p : Nat × Nat) (a : Nat)
    (value : Nat → Byte) (size : Int) (hin : InTable p) (hfree : (h.slot p).busy = 0)
    (haddr : (h.slot p).addr = some a) (hroom : h.index < h.poolSize) :
    SlotsOk (updated h p a 0 value size) := by
  have hslot := updated_slot h p a 0 value size
  have hother := updated_slot_other h p a 0 value size
  have hcells := cells_refilled h ok p a value size hfree
  exact {
    toAddrsOk := addrsOk_next h _ p ok.toAddrsOk hother (by rw [hslot]) rfl hroom rfl fun i hi =>
      ok.addr_prefix p.1 i p.2 hin.1 (by omega) hin.2 (by
        rw [haddr]
        simp only [ne_eq, reduceCtorEq, not_false_eq_true])
    busy_addr := fun q hq hb => by
      rw [updated_busy] at hb
      rw [hother q (fun hqp => hb (by rw [hqp]; exact hfree))]
      exact ok.busy_addr q hq hb
    freed := fun q c hq hb hc => by
      rw [updated_busy] at hb
      by_cases hqp : q = p
      · rw [hqp, hslot, Option.some.injEq] at hc
        rw [← hc, updated_new]
      · rw [hother q hqp] at hc
        rw [updated_key _ _ _ _ _ _ c (ok.below q c hq hc)]
        exact ok.freed q c hq hb hc
    live := by
      rw [hcells]
      exact ok.live
    unique := by
      rw [hcells]
      exact ok.unique }

/-- An insert is not of a stored key. -/
def InsertsAbsent (h : HashTable) : TableOp → Prop
  | .insert key _ _ => ¬ Stored h key
  | .update _ _ _ => True
  | .delete _ => True

instance (h : HashTable) (op : TableOp) : Decidable (InsertsAbsent h op) :=
  match op with
  | .insert key _ _ => inferInstanceAs (Decidable (¬ Stored h key))
  | .update _ _ _ => isTrue trivial
  | .delete _ => isTrue trivial

/-- A call on a key that is not negative, and no insert of a stored key. -/
def ClientCall (h : HashTable) (op : TableOp) : Prop :=
  0 ≤ op.key ∧ InsertsAbsent h op

instance (h : HashTable) (op : TableOp) : Decidable (ClientCall h op) :=
  inferInstanceAs (Decidable (_ ∧ _))

theorem slotsOk_effect (h h' : HashTable) (op : TableOp) (ok : SlotsOk h) (hc : ClientCall h op)
    (he : Effect h op h') : SlotsOk h' := by
  rcases hc with ⟨hk, habs⟩
  cases he with
  | refused _ _ _ _ => exact ok
  | inserted key value size i hin hfree hbefore hfits =>
      have hw := writes_inserted h (calcHash key, i) key value size hfits.2.1 hfits.2.2 hfits.1
      exact slotsOk_write h _ _ key size.toNat ok hw hin hk rfl hbefore (keysUnique_put _ ok.unique
        _ key _ (fun hp => habs ((stored_iff h ok key hk).mpr hp)))
  | updated key value size p e hp hfits =>
      rcases (cells_eq_some h p key e).mp hp with ⟨hin, hbusy, haddr, _, _⟩
      have hw := writes_updated h p e.item key value size hbusy hfits.2.1 hfits.2.2 hfits.1
      exact slotsOk_write h _ p key size.toNat ok hw hin hk (ok.live p key e hp).2
        (fun l hl => ok.addr_prefix p.1 l p.2 hin.1 (by omega) hin.2 (by
          rw [haddr]
          simp only [ne_eq, reduceCtorEq, not_false_eq_true]))
        (keysUnique_set _ ok.unique p key e _ hp)
  | refilled value size p a hin hfree haddr hfits =>
      exact slotsOk_refilled h ok p a value size hin hfree haddr hfits.1
  | deleted key p e hp => exact slotsOk_deleted h ok p key e hp
  | absent _ _ => exact ok

/-- A run of such calls keeps the invariant. -/
theorem slotsOk_run (h : HashTable) (hi : h.index = 0) (ops : List TableOp) (u : HashTable)
    (hcalls : Along callStep ClientCall ops (hashtableCreate h maxPool))
    (hrun : run callStep ops (hashtableCreate h maxPool) = some u) : SlotsOk u :=
  run_invariant_along callStep ClientCall SlotsOk (fun s op s' ok hc hstep =>
    slotsOk_effect s s' op ok hc (effect_of_call s s' op ok hc.1 hstep)) ops _ u
    (hashOk_create h hi).toSlotsOk hcalls hrun

end HydraDB

end LocalKeyValue
