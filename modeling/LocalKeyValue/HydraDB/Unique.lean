import LocalKeyValue.HydraDB.Calls

/-!
# Keys over Runs of HydraDB Calls

An insert does not look for its key. A key that is stored already is given a
second slot, if its bucket has one free, and from then on the search and the
update come to one of the two and a delete to both. As long as no insert does
that, each positive key is in one slot at most, and what was written last is
what a search finds.

## Main definitions

* `OneSlotEach`: No two slots of a bucket are in use for one key.
* `Answered`: A search finds what the call has written.
* `FreshInsert`: An insert of a key that is not stored, or one that is refused.

## Theorems

* `hashOk_effect`: A fresh call keeps the invariant on positive keys.
* `insert_stored_twice`: An insert that is not fresh stores the key twice.
* `one_slot_each_iff`: When each key has one slot throughout a run.
-/

namespace LocalKeyValue

namespace HydraDB

open Cells Run

/-- At most one slot of a positive key's bucket is in use for it. -/
def OneSlotEach (h : HashTable) : Prop :=
  ∀ key i j, 0 < key → i < slots → j < slots → Holding h (calcHash key, i) key →
    Holding h (calcHash key, j) key → i = j

/-- The search finds the item that a write from `h` to `h'` has filled, by a
    descriptor with the size of the value. -/
def WrittenFound (h h' : HashTable) (key : Int) (value : Nat → Byte) (size : Int) : Prop :=
  ∃ p, Finds h' key p h.index ∧ (h'.slot p).size.toNat = size.toNat ∧
    (h'.buckets h.index).key = key ∧
    (h'.buckets h.index).p = strncpy (h.buckets h.index).p value size.toNat

/-- After a write that succeeds a search for its key finds what it has written. -/
def Answered (h : HashTable) : TableOp → Prop
  | .insert key value size => ∀ h', hashtableInsert h key value size = some (h', 0) →
      WrittenFound h h' key value size
  | .update key value size => ∀ h' r, updateHashKey h key value size = some (h', r) →
      WrittenFound h h' key value size
  | .delete _ => True

/-- An insert is of a key that is not stored, or into a bucket that is full. -/
def FreshInsert (h : HashTable) : TableOp → Prop
  | .insert key _ _ => ¬ Stored h key ∨ findFreeSlot h (calcHash key) = -1
  | .update _ _ _ => True
  | .delete _ => True

instance (h : HashTable) (op : TableOp) : Decidable (FreshInsert h op) :=
  match op with
  | .insert key _ _ =>
      inferInstanceAs (Decidable (¬ Stored h key ∨ findFreeSlot h (calcHash key) = -1))
  | .update _ _ _ => isTrue trivial
  | .delete _ => isTrue trivial

theorem findFreeSlot_ne (h : HashTable) (b i : Nat) (hi : i < slots)
    (hfree : (h.slot (b, i)).busy = 0) : findFreeSlot h b ≠ -1 := by
  rcases findFreeSlot_spec h b with ⟨_, hbusy⟩ | ⟨j, hj, _⟩
  · exact absurd hfree (hbusy i hi)
  · omega

/-- Every cell is an old one or one of the call's key. -/
theorem effect_cell (h h' : HashTable) (op : TableOp) (ok : SlotsOk h) (he : Effect h op h')
    (q : Nat × Nat) (k : Int) (e : Entry) (hq : cells h' q = some (k, e)) :
    k = op.key ∨ cells h q = some (k, e) := by
  -- What a write leaves in the cells.
  have hwrite : ∀ p key size, Writes h h' p key size → InTable p →
      k = key ∨ cells h q = some (k, e) := by
    intro p key size hw hin
    rw [cells_write h h' p key size ok hw hin] at hq
    by_cases hqp : q = p
    · rw [hqp, Function.update_self, Option.some.injEq, Prod.mk.injEq] at hq
      exact Or.inl hq.1.symm
    · rw [Function.update_of_ne hqp] at hq
      exact Or.inr hq
  cases he with
  | refused _ _ _ _ => exact Or.inr hq
  | inserted key value size i hin hfree hbefore hfits =>
      exact hwrite _ key _ (writes_inserted h _ key value size hfits.2.1 hfits.2.2 hfits.1) hin
  | updated key value size p e' hp hfits =>
      rcases (cells_eq_some h p key e').mp hp with ⟨hin, hbusy, _⟩
      exact hwrite p key _
        (writes_updated h p e'.item key value size hbusy hfits.2.1 hfits.2.2 hfits.1) hin
  | refilled value size p a hin hfree haddr hfits =>
      rw [cells_refilled h ok p a value size hfree] at hq
      exact Or.inr hq
  | deleted key p e' hp =>
      rw [cells_deleted h ok p key e' hp] at hq
      by_cases hqp : q = p
      · rw [hqp, Function.update_self] at hq
        exact absurd hq (by simp only [reduceCtorEq, not_false_eq_true])
      · rw [Function.update_of_ne hqp] at hq
        exact Or.inr hq
  | absent _ _ => exact Or.inr hq

/-- A fresh call on a positive key keeps the invariant. -/
theorem hashOk_effect (h h' : HashTable) (op : TableOp) (ok : HashOk h) (hk : 0 < op.key)
    (hf : FreshInsert h op) (he : Effect h op h') : HashOk h' := by
  have oks := ok.toSlotsOk
  refine ⟨?_, fun q k e hq => ?_⟩
  · cases he with
    | refused _ _ _ _ => exact oks
    | inserted key value size i hin hfree hbefore hfits =>
        -- A bucket with a free slot is not full.
        have habs := hf.resolve_right (findFreeSlot_ne h _ i hin.2 hfree)
        exact slotsOk_effect h _ _ oks ⟨Int.le_of_lt hk, habs⟩
          (Effect.inserted key value size i hin hfree hbefore hfits)
    | updated key value size p e hp hfits =>
        exact slotsOk_effect h _ _ oks ⟨Int.le_of_lt hk, trivial⟩
          (Effect.updated key value size p e hp hfits)
    | refilled value size p a hin hfree haddr hfits => exact absurd rfl (Int.ne_of_gt hk)
    | deleted key p e hp =>
        exact slotsOk_effect h _ _ oks ⟨Int.le_of_lt hk, trivial⟩ (Effect.deleted key p e hp)
    | absent _ _ => exact oks
  · rcases effect_cell h h' op oks he q k e hq with rfl | hold
    · omega
    · exact ok.nonzero q k e hold

theorem oneSlotEach_of_hashOk (h : HashTable) (ok : HashOk h) : OneSlotEach h := by
  intro key i j hk hi hj hh hh'
  have hb := calcHash_lt key (Int.le_of_lt hk)
  rcases (holding_iff h _ key ⟨hb, hi⟩).mp hh with ⟨e, he⟩
  rcases (holding_iff h _ key ⟨hb, hj⟩).mp hh' with ⟨e', he'⟩
  exact congrArg Prod.snd (ok.unique _ _ key e e' he he')

/-- An insert of a stored key into a free slot leaves two slots in use for it. -/
theorem insert_stored_twice (h : HashTable) (ok : HashOk h) (key : Int) (value : Nat → Byte)
    (size : Int) (i : Nat) (hk : 0 < key) (hin : InTable (calcHash key, i))
    (hfree : (h.slot (calcHash key, i)).busy = 0) (hs : Stored h key) :
    ¬ OneSlotEach (inserted h (calcHash key, i) key value size) := by
  intro hone
  rcases hs with ⟨j, hj, hbusy, a, ha, hak⟩
  have hij : (calcHash key, j) ≠ (calcHash key, i) := by
    intro hc
    rw [hc] at hbusy
    exact hbusy hfree
  have hlt := ok.below (calcHash key, j) a ⟨hin.1, hj⟩ ha
  refine hij (congrArg (Prod.mk (calcHash key)) (hone key j i hk hj hin.2 ?_ ?_))
  · refine ⟨?_, a, ?_, ?_⟩
    · rw [inserted_slot_other _ _ _ _ _ _ hij]
      exact hbusy
    · rw [inserted_slot_other _ _ _ _ _ _ hij]
      exact ha
    · rw [inserted_other _ _ _ _ _ a (by omega)]
      exact hak
  · refine ⟨?_, h.index, ?_, ?_⟩
    · rw [inserted_slot]
      exact (by decide : (1 : Byte) ≠ 0)
    · rw [inserted_slot]
    · rw [inserted_new]

/-- A step keeps each key in one slot just when it is fresh. -/
theorem oneSlotEach_step_iff (h h' : HashTable) (op : TableOp) (ok : HashOk h) (hk : 0 < op.key)
    (hrun : callStep h op = some h') : OneSlotEach h' ↔ FreshInsert h op := by
  have he := effect_of_call h h' op ok.toSlotsOk (Int.le_of_lt hk) hrun
  constructor
  · intro hone
    cases he with
    | refused key value size hfull => exact Or.inr hfull
    | inserted key value size i hin hfree hbefore hfits =>
        refine Or.inl fun hs => ?_
        exact insert_stored_twice h ok key value size i hk hin hfree hs hone
    | updated _ _ _ _ _ _ _ => trivial
    | refilled _ _ _ _ _ _ _ _ => trivial
    | deleted _ _ _ _ => trivial
    | absent _ _ => trivial
  · intro hf
    exact oneSlotEach_of_hashOk h' (hashOk_effect h h' op ok hk hf he)

/-- A write that keeps the invariant is found. -/
theorem writtenFound_of_cell (h h' : HashTable) (ok : HashOk h') (p : Nat × Nat) (key : Int)
    (value : Nat → Byte) (size : Int)
    (hp : cells h' p = some (key, { item := h.index, size := size.toNat }))
    (hvalue : (h'.buckets h.index).p = strncpy (h.buckets h.index).p value size.toNat) :
    WrittenFound h h' key value size := by
  rcases (cells_eq_some h' p key _).mp hp with ⟨_, _, _, hkey, hsize⟩
  exact ⟨p, search_entry h' ok.toSlotsOk p key _ hp (ok.nonzero p key _ hp),
    hsize, hkey, hvalue⟩

/-- A fresh call is answered. -/
theorem answered_of_fresh (h : HashTable) (op : TableOp) (ok : HashOk h) (hk : 0 < op.key)
    (hf : FreshInsert h op) : Answered h op := by
  have oks := ok.toSlotsOk
  cases op with
  | insert key value size =>
      intro h' hins
      rcases insert_cases h h' key value size 0 hins with ⟨hb, ⟨_, _, h0⟩ | ⟨i, hi, hfree, hbefore,
        hroom, h0, h32, rfl, _⟩⟩
      · omega
      · have hw := writes_inserted h (calcHash key, i) key value size h0 h32 hroom
        have he := effect_of_call h _ (.insert key value size) oks (Int.le_of_lt hk)
          (by rw [callStep, hins]; rfl)
        refine writtenFound_of_cell h _ (hashOk_effect h _ _ ok hk hf he) (calcHash key, i) key
          value size ?_ (by rw [inserted_new])
        rw [cells_write h _ _ key size.toNat oks hw ⟨hb, hi⟩, Function.update_self]
  | update key value size =>
      intro h' r hup
      have hstep : callStep h (.update key value size) = some h' := by rw [callStep, hup]; rfl
      have he := effect_of_call h h' _ oks (Int.le_of_lt hk) hstep
      have ok' := hashOk_effect h h' _ ok hk hf he
      cases he with
      | updated _ _ _ p e hp hfits =>
          rcases (cells_eq_some h p key e).mp hp with ⟨hin, hbusy, _⟩
          have hw := writes_updated h p e.item key value size hbusy hfits.2.1 hfits.2.2 hfits.1
          refine writtenFound_of_cell h _ ok' p key value size ?_ (by rw [updated_new])
          rw [cells_write h _ p key size.toNat oks hw hin, Function.update_self]
      | refilled _ _ _ _ _ _ _ _ => exact absurd rfl (Int.ne_of_gt hk)
  | delete key => trivial

/-- In a run on positive keys each key has one slot throughout, and each write is
    found, just when every insert is of a key that is not stored or is refused. -/
theorem one_slot_each_iff (h : HashTable) (hi : h.index = 0) (ops : List TableOp) (u : HashTable)
    (hpos : ∀ op ∈ ops, 0 < op.key)
    (hrun : run callStep ops (hashtableCreate h maxPool) = some u) :
    (Throughout callStep OneSlotEach ops (hashtableCreate h maxPool) ∧
      Along callStep Answered ops (hashtableCreate h maxPool)) ↔
        Along callStep FreshInsert ops (hashtableCreate h maxPool) := by
  have hstart := hashOk_create h hi
  have hkeys := along_of_forall callStep (fun op : TableOp => 0 < op.key) ops
    (hashtableCreate h maxPool) hpos
  have hiff := throughout_iff_along_of callStep
    (fun s op => 0 < op.key ∧ ∃ s', callStep s op = some s') FreshInsert HashOk OneSlotEach
    (fun s op ok _ hpre => by
      rcases hpre with ⟨hk, s', hs'⟩
      refine ⟨?_, fun t ht hone => ?_⟩
      · rw [← oneSlotEach_step_iff s s' op ok hk hs']
        simp only [hs', Option.some.injEq, exists_eq_left']
      · exact hashOk_effect s t op ok hk ((oneSlotEach_step_iff s t op ok hk ht).mp hone)
          (effect_of_call s t op ok.toSlotsOk (Int.le_of_lt hk) ht))
    ops _ hstart (oneSlotEach_of_hashOk _ hstart)
    ((along_and callStep _ _ ops _).mpr ⟨hkeys, along_of_run callStep ops _ u hrun⟩)
  rw [hiff]
  refine ⟨fun hs => hs.1, fun hf => ⟨hf, ?_⟩⟩
  exact along_imp callStep (fun s op => 0 < op.key ∧ FreshInsert s op) Answered HashOk
    (fun s op ok hs => ⟨answered_of_fresh s op ok hs.1 hs.2, fun s' hs' =>
      hashOk_effect s s' op ok hs.1 hs.2
        (effect_of_call s s' op ok.toSlotsOk (Int.le_of_lt hs.1) hs')⟩)
    ops _ hstart ((along_and callStep _ _ ops _).mpr ⟨hkeys, hf⟩)

/-- A key is inserted again after it has been deleted. -/
theorem one_slot_each_iff_again :
    Throughout callStep OneSlotEach [.insert 5 (fun _ => 65) 3, .insert 1000005 (fun _ => 66) 32,
      .update 5 (fun _ => 67) 0, .delete 5, .insert 5 (fun _ => 68) 20]
      (hashtableCreate roomyMemory maxPool) := by
  have hrun : ∃ u ∈ run callStep [.insert 5 (fun _ => 65) 3, .insert 1000005 (fun _ => 66) 32,
      .update 5 (fun _ => 67) 0, .delete 5, .insert 5 (fun _ => 68) 20]
      (hashtableCreate roomyMemory maxPool), u.index = 4 := by decide +kernel
  rcases hrun with ⟨u, hrun, _⟩
  exact ((one_slot_each_iff roomyMemory rfl _ u (by decide) hrun).mpr (by decide +kernel)).1

/-- Two inserts of one key both return 0. Two slots are in use for it, and the
    search finds the item of the first. -/
theorem insert_twice_unfound :
    ∃ u, run callStep [.insert 5 (fun _ => 65) 3, .insert 5 (fun _ => 66) 3]
        (hashtableCreate roomyMemory maxPool) = some u ∧ u.index = 2 ∧
      Holding u (5, 0) 5 ∧ Holding u (5, 1) 5 ∧ (u.slot (5, 1)).addr = some 1 ∧
      hashtableSearch u 5 = some {
        descriptor := some (5, 0), keyAddress := some 0, extEnabled := 0 } := by
  have hrun : ∃ u ∈ run callStep [.insert 5 (fun _ => 65) 3, .insert 5 (fun _ => 66) 3]
      (hashtableCreate roomyMemory maxPool), u.index = 2 ∧ Holding u (5, 0) 5 ∧
      Holding u (5, 1) 5 ∧ (u.slot (5, 1)).addr = some 1 ∧ hashtableSearch u 5 = some {
        descriptor := some (5, 0), keyAddress := some 0, extEnabled := 0 } := by decide +kernel
  exact hrun

end HydraDB

end LocalKeyValue
