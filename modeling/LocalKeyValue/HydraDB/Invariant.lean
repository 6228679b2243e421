import LocalKeyValue.HydraDB.Hash
import LocalKeyValue.Lib.Cells

/-!
# The HydraDB Table Invariant

What holds of the table between operations, and that each operation keeps it.

A search follows the address of every slot before its key's, in use or not. It
is safe because slots are given addresses in order and never lose them: a slot
is filled only when all before it are busy, so the slots with an address are the
first ones of the bucket. It is right because a freed slot points to an item
whose key is 0, no two slots point to one item, and no two slots in use point to
items with one key.

Seen as cells, the slots in use hold their keys with the item and the size. An
insert fills an empty cell, an update rewrites one and a delete empties one,
which is all a caller can see; the finite map follows.

## Main definitions

* `Entry`, `cells`: The slots in use, as cells.
* `HashOk`: The invariant.
* `Writes`: What an insert and an update have in common.

## Theorems

* `search_entry`: The search finds a key's slot and item.
* `hashOk_write`, `cells_write`: A write keeps the invariant and sets one cell.
* `findFreeSlot_spec`: The first slot that is not busy.
* `insert_spec`, `update_spec`, `delete_entry`: What the operations do.
-/

namespace LocalKeyValue

namespace HydraDB

open Cells

/-- What a slot in use says of its key. -/
structure Entry where
  item : Nat
  size : Nat
deriving DecidableEq

/-- The slot is one of the table's. -/
def InTable (p : Nat × Nat) : Prop :=
  p.1 < maxPool ∧ p.2 < slots

instance (p : Nat × Nat) : Decidable (InTable p) :=
  inferInstanceAs (Decidable (_ ∧ _))

/-- The slots in use, each with its item's key. -/
def cells (h : HashTable) (p : Nat × Nat) : Option (Int × Entry) :=
  if InTable p ∧ (h.slot p).busy ≠ 0 then
    (h.slot p).addr.map fun a =>
      ((h.buckets a).key, { item := a, size := (h.slot p).size.toNat })
  else none

theorem cells_eq_some (h : HashTable) (p : Nat × Nat) (k : Int) (e : Entry) :
    cells h p = some (k, e) ↔ InTable p ∧ (h.slot p).busy ≠ 0 ∧
      (h.slot p).addr = some e.item ∧ (h.buckets e.item).key = k ∧
      (h.slot p).size.toNat = e.size := by
  unfold cells
  by_cases hp : InTable p ∧ (h.slot p).busy ≠ 0
  · rw [if_pos hp, Option.map_eq_some_iff]
    constructor
    · intro hc
      rcases hc with ⟨a, ha, he⟩
      rw [Prod.mk.injEq] at he
      rcases he with ⟨hk, he⟩
      rw [← he]
      exact ⟨hp.1, hp.2, ha, hk, rfl⟩
    · intro hc
      rcases hc with ⟨_, _, ha, hk, hs⟩
      exact ⟨e.item, ha, by rw [hk, hs]⟩
  · rw [if_neg hp]
    exact iff_of_false (by simp only [reduceCtorEq, not_false_eq_true])
      (fun hc => hp ⟨hc.1, hc.2.1⟩)

theorem cells_eq_none (h : HashTable) (p : Nat × Nat) (hp : (h.slot p).busy = 0) :
    cells h p = none :=
  if_neg fun hc => hc.2 hp

/-- What holds of the addresses between operations. -/
structure AddrsOk (h : HashTable) : Prop where
  addr_prefix : ∀ b i j, b < maxPool → i ≤ j → j < slots →
    (h.slot (b, j)).addr ≠ none → (h.slot (b, i)).addr ≠ none
  below : ∀ p a, InTable p → (h.slot p).addr = some a → a < h.index
  distinct : ∀ p q a, InTable p → InTable q →
    (h.slot p).addr = some a → (h.slot q).addr = some a → p = q
  pool : h.index ≤ h.poolSize

/-- What holds between operations on keys that are not negative. -/
structure SlotsOk (h : HashTable) : Prop extends AddrsOk h where
  busy_addr : ∀ p, InTable p → (h.slot p).busy ≠ 0 → (h.slot p).addr ≠ none
  freed : ∀ p a, InTable p → (h.slot p).busy = 0 → (h.slot p).addr = some a →
    (h.buckets a).key = 0
  live : ∀ p k e, cells h p = some (k, e) → 0 ≤ k ∧ calcHash k = p.1
  unique : KeysUnique (cells h)

/-- What holds between operations on positive keys. -/
structure HashOk (h : HashTable) : Prop extends SlotsOk h where
  nonzero : ∀ p k e, cells h p = some (k, e) → k ≠ 0

theorem hashOk_create (h : HashTable) (hi : h.index = 0) :
    HashOk (hashtableCreate h maxPool) := by
  -- No slot has an address and none is busy, so nothing is left to show of one.
  have haddr : ∀ p, InTable p → ((hashtableCreate h maxPool).slot p).addr = none ∧
      ((hashtableCreate h maxPool).slot p).busy = 0 := by
    intro p hp
    simp only [hashtableCreate, if_pos (show p.1 < maxPool ∧ p.2 < slots from hp), and_self]
  have hcells : ∀ p, cells (hashtableCreate h maxPool) p = none := by
    intro p
    by_cases hp : InTable p
    · exact cells_eq_none _ p (haddr p hp).2
    · exact if_neg fun hc => hp hc.1
  exact {
    busy_addr := fun p hp hb => absurd (haddr p hp).2 hb
    addr_prefix := fun b i j hb _ hj ha => absurd (haddr (b, j) ⟨hb, hj⟩).1 ha
    below := fun p a hp ha => absurd ((haddr p hp).1.symm.trans ha)
      (by simp only [reduceCtorEq, not_false_eq_true])
    distinct := fun p q a hp _ ha => absurd ((haddr p hp).1.symm.trans ha)
      (by simp only [reduceCtorEq, not_false_eq_true])
    freed := fun p a hp _ ha => absurd ((haddr p hp).1.symm.trans ha)
      (by simp only [reduceCtorEq, not_false_eq_true])
    live := fun p k e hc => absurd ((hcells p).symm.trans hc)
      (by simp only [reduceCtorEq, not_false_eq_true])
    nonzero := fun p k e hc => absurd ((hcells p).symm.trans hc)
      (by simp only [reduceCtorEq, not_false_eq_true])
    unique := fun p q k e e' hc => absurd ((hcells p).symm.trans hc)
      (by simp only [reduceCtorEq, not_false_eq_true])
    pool := by
      change h.index ≤ h.poolSize
      omega }

theorem calcHash_eq (key : Int) (h : 0 ≤ key) : (calcHash key : Int) = key % maxPool := by
  unfold calcHash
  rw [Int.tmod_eq_emod_of_nonneg h]
  have hlo := Int.emod_nonneg key (by decide : (maxPool : Int) ≠ 0)
  have hhi := Int.emod_lt_of_pos key (by decide : (0 : Int) < maxPool)
  simp only [maxPool] at hlo hhi ⊢
  omega

theorem calcHash_lt (key : Int) (h : 0 ≤ key) : calcHash key < maxPool := by
  have heq := calcHash_eq key h
  have hhi := Int.emod_lt_of_pos key (by decide : (0 : Int) < maxPool)
  omega

/-! ## Searching -/

/-- The search passes over the slots before the key's. -/
theorem searchFrom_hit (h : HashTable) (b : Nat) (key : Int) (j : Nat) (item : HashItem)
    (hitem : item? h (h.slot (b, j)).addr = some item) (hkey : item.key = key) :
    ∀ n i, i ≤ j → j < i + n →
      (∀ l, i ≤ l → l < j → ∃ it, item? h (h.slot (b, l)).addr = some it ∧ it.key ≠ key) →
      searchFrom h b key n i = some {
        descriptor := some (b, j), keyAddress := (h.slot (b, j)).addr, extEnabled := 0 } := by
  intro n
  induction n with
  | zero => intro i hij hj _; omega
  | succ n ih =>
      intro i hij hj hmiss
      unfold searchFrom
      by_cases hi : i = j
      · rw [hi, hitem]
        exact if_pos hkey
      · -- A slot before has an item, with another key, and the search goes on.
        rcases hmiss i (Nat.le_refl i) (by omega) with ⟨it, hit, hne⟩
        rw [hit]
        refine (if_neg hne).trans ?_
        exact ih (i + 1) (by omega) (by omega) fun l hl hlj => hmiss l (by omega) hlj

-- A slot other than the key's, in use or freed, points to an item with another
-- key: two slots in use never share one, and a freed slot's is 0.
theorem key_ne_of_other (h : HashTable) (ok : SlotsOk h) (p q : Nat × Nat) (k : Int) (e : Entry)
    (hp : cells h p = some (k, e)) (hk0 : k ≠ 0) (hq : InTable q) (hne : q ≠ p) (a : Nat)
    (ha : (h.slot q).addr = some a) : (h.buckets a).key ≠ k := by
  intro hk
  by_cases hb : (h.slot q).busy = 0
  · have h0 := ok.freed q a hq hb ha
    exact hk0 (hk.symm.trans h0)
  · have hqc : cells h q = some (k, { item := a, size := (h.slot q).size.toNat }) :=
      (cells_eq_some h q k _).mpr ⟨hq, hb, ha, hk, rfl⟩
    exact hne (ok.unique q p k _ e hqc hp)

theorem item?_some (h : HashTable) (a : Nat) (ha : a < h.poolSize) :
    item? h (some a) = some (h.buckets a) :=
  if_pos ha

theorem item?_eq_some (h : HashTable) (addr : Option Nat) (item : HashItem)
    (hi : item? h addr = some item) : ∃ a, addr = some a ∧ a < h.poolSize ∧ h.buckets a = item := by
  cases addr with
  | none => exact absurd hi (by simp only [item?, reduceCtorEq, not_false_eq_true])
  | some a =>
      simp only [item?, Option.ite_none_right_eq_some, Option.some.injEq] at hi
      exact ⟨a, rfl, hi⟩

/-- What a search that comes back has found: the first slot whose item has the
    key, or nothing. -/
theorem searchFrom_cases (h : HashTable) (b : Nat) (key : Int) : ∀ n i ret,
    searchFrom h b key n i = some ret →
      (∃ j a, j < i + n ∧ (h.slot (b, j)).addr = some a ∧ a < h.poolSize ∧
        (h.buckets a).key = key ∧
        ret = { descriptor := some (b, j), keyAddress := some a, extEnabled := 0 }) ∨
      (ret = { descriptor := none, keyAddress := none, extEnabled := 0 } ∧
        ∀ l a, i ≤ l → l < i + n → (h.slot (b, l)).addr = some a → (h.buckets a).key ≠ key) := by
  intro n
  induction n with
  | zero =>
      intro i ret hret
      rw [searchFrom, Option.some.injEq] at hret
      exact Or.inr ⟨hret.symm, fun l a hl hl' => by omega⟩
  | succ n ih =>
      intro i ret hret
      unfold searchFrom at hret
      cases hitem : item? h (h.slot (b, i)).addr with
      | none =>
          rw [hitem] at hret
          exact absurd hret (by simp only [reduceCtorEq, not_false_eq_true])
      | some iter =>
          simp only [hitem] at hret
          rcases item?_eq_some h _ iter hitem with ⟨a, ha, hlt, rfl⟩
          -- The search ends at the first item with the key, busy or not.
          by_cases hk : (h.buckets a).key = key
          · rw [if_pos hk, Option.some.injEq] at hret
            refine Or.inl ⟨i, a, by omega, ha, hlt, hk, ?_⟩
            rw [← hret, ha]
          · rw [if_neg hk] at hret
            rcases ih (i + 1) ret hret with ⟨j, c, hj, hc⟩ | ⟨hnull, hmiss⟩
            · exact Or.inl ⟨j, c, by omega, hc⟩
            · refine Or.inr ⟨hnull, fun l c hl hl' hc => ?_⟩
              by_cases hli : l = i
              · rw [hli, ha, Option.some.injEq] at hc
                rw [← hc]
                exact hk
              · exact hmiss l c (by omega) (by omega) hc

theorem search_cases (h : HashTable) (key : Int) (ret : SearchReturn)
    (hret : hashtableSearch h key = some ret) : calcHash key < maxPool ∧
      ((∃ j a, j < slots ∧ (h.slot (calcHash key, j)).addr = some a ∧ a < h.poolSize ∧
        (h.buckets a).key = key ∧
        ret = { descriptor := some (calcHash key, j), keyAddress := some a, extEnabled := 0 }) ∨
      (ret = { descriptor := none, keyAddress := none, extEnabled := 0 } ∧
        ∀ l a, l < slots → (h.slot (calcHash key, l)).addr = some a →
          (h.buckets a).key ≠ key)) := by
  unfold hashtableSearch at hret
  by_cases hb : calcHash key < maxPool
  · rw [if_pos hb] at hret
    refine ⟨hb, ?_⟩
    rcases searchFrom_cases h _ key slots 0 ret hret with ⟨j, a, hj, ha⟩ | ⟨hnull, hmiss⟩
    · exact Or.inl ⟨j, a, by omega, ha⟩
    · exact Or.inr ⟨hnull, fun l a hl => hmiss l a (Nat.zero_le l) (by omega)⟩
  · rw [if_neg hb] at hret
    exact absurd hret (by simp only [reduceCtorEq, not_false_eq_true])

/-- An address of a slot is of an item of the pool. -/
theorem addr_lt (h : HashTable) (ok : AddrsOk h) (p : Nat × Nat) (a : Nat)
    (hp : InTable p) (ha : (h.slot p).addr = some a) : a < h.poolSize := by
  have hlt := ok.below p a hp ha
  have hpool := ok.pool
  omega

/-- The search finds a key in its slot, and follows no null address. -/
theorem search_entry (h : HashTable) (ok : SlotsOk h) (p : Nat × Nat) (k : Int) (e : Entry)
    (hp : cells h p = some (k, e)) (hk0 : k ≠ 0) :
    hashtableSearch h k =
      some { descriptor := some p, keyAddress := some e.item, extEnabled := 0 } := by
  rcases (cells_eq_some h p k e).mp hp with ⟨hin, _, haddr, hkey, _⟩
  rcases ok.live p k e hp with ⟨hnonneg, hhash⟩
  unfold hashtableSearch
  rw [if_pos (calcHash_lt k hnonneg), hhash]
  have hitem : item? h (h.slot (p.1, p.2)).addr = some (h.buckets e.item) := by
    rw [haddr]
    exact item?_some h e.item (addr_lt h ok.toAddrsOk p e.item hin haddr)
  have hlt := hin.2
  have hhit := searchFrom_hit h p.1 k p.2 (h.buckets e.item) hitem hkey slots 0 (Nat.zero_le _)
    (by omega) ?_
  · rw [hhit, haddr]
  · intro l _ hl
    have hl' : InTable (p.1, l) := ⟨hin.1, Nat.lt_trans hl hin.2⟩
    -- The key's slot has an address, so those before it have one.
    have hne := ok.addr_prefix p.1 l p.2 hin.1 (by omega) hin.2
      (by rw [haddr]; simp only [ne_eq, reduceCtorEq, not_false_eq_true])
    rcases Option.ne_none_iff_exists'.mp hne with ⟨a, ha⟩
    have hlt' := addr_lt h ok.toAddrsOk (p.1, l) a hl' ha
    refine ⟨h.buckets a, by rw [ha]; exact item?_some h a hlt', ?_⟩
    refine key_ne_of_other h ok p (p.1, l) k e hp hk0 hl' ?_ a ha
    intro hc
    have : l = p.2 := congrArg Prod.snd hc
    omega

/-! ## Writing a new item -/

/-- From `h` to `h'` a slot is given the next item of the pool, with a key and a
    size, and nothing else that the cells show is changed. -/
structure Writes (h h' : HashTable) (p : Nat × Nat) (k : Int) (size : Nat) : Prop where
  slot_other : ∀ q, q ≠ p → h'.slot q = h.slot q
  addr : (h'.slot p).addr = some h.index
  busy : (h'.slot p).busy ≠ 0
  size : (h'.slot p).size.toNat = size
  key : (h'.buckets h.index).key = k
  key_other : ∀ a, a ≠ h.index → (h'.buckets a).key = (h.buckets a).key
  index : h'.index = h.index + 1
  room : h.index < h.poolSize
  pool : h'.poolSize = h.poolSize

/-- A write sets one cell. -/
theorem cells_write (h h' : HashTable) (p : Nat × Nat) (k : Int) (size : Nat) (ok : SlotsOk h)
    (hw : Writes h h' p k size) (hin : InTable p) :
    cells h' = Function.update (cells h) p (some (k, { item := h.index, size := size })) := by
  funext q
  by_cases hq : q = p
  · rw [hq, Function.update_self, cells_eq_some]
    exact ⟨hin, hw.busy, hw.addr, hw.key, hw.size⟩
  · rw [Function.update_of_ne hq]
    unfold cells
    rw [hw.slot_other q hq]
    by_cases hc : InTable q ∧ (h.slot q).busy ≠ 0
    · rw [if_pos hc, if_pos hc]
      cases ha : (h.slot q).addr with
      | none => rfl
      | some a =>
          -- The item is an old one, and old items keep their keys.
          have hlt := ok.below q a hc.1 ha
          rw [Option.map_some, Option.map_some, hw.key_other a (by omega)]
    · rw [if_neg hc, if_neg hc]

/-- Giving a slot the next item keeps the addresses in order, if the slots before
    have theirs. -/
theorem addrsOk_next (h h' : HashTable) (p : Nat × Nat) (ok : AddrsOk h)
    (hother : ∀ q, q ≠ p → h'.slot q = h.slot q) (haddr : (h'.slot p).addr = some h.index)
    (hindex : h'.index = h.index + 1) (hroom : h.index < h.poolSize)
    (hpool : h'.poolSize = h.poolSize) (hbefore : ∀ i, i < p.2 → (h.slot (p.1, i)).addr ≠ none) :
    AddrsOk h' := by
  -- The item is new: the addresses of slots are below `index_`.
  have hnew : ∀ q, InTable q → (h.slot q).addr ≠ some h.index := by
    intro q hq ha
    have hlt := ok.below q h.index hq ha
    omega
  exact {
    addr_prefix := fun b i j hb hij hj ha => by
      by_cases hip : (b, i) = p
      · rw [hip, haddr]
        simp only [ne_eq, reduceCtorEq, not_false_eq_true]
      · rw [hother _ hip]
        by_cases hjp : (b, j) = p
        · -- The slots before the one written have addresses by assumption.
          have hi : i ≠ j := fun he => hip (by rw [he]; exact hjp)
          rw [← hjp] at hbefore
          exact hbefore i (by omega)
        · rw [hother _ hjp] at ha
          exact ok.addr_prefix b i j hb hij hj ha
    below := fun q a hq ha => by
      rw [hindex]
      by_cases hqp : q = p
      · rw [hqp, haddr, Option.some.injEq] at ha
        omega
      · rw [hother q hqp] at ha
        have hlt := ok.below q a hq ha
        omega
    distinct := fun q r a hq hr ha hb => by
      by_cases hqp : q = p
      · by_cases hrp : r = p
        · rw [hqp, hrp]
        · rw [hqp, haddr, Option.some.injEq] at ha
          rw [hother r hrp, ← ha] at hb
          exact absurd hb (hnew r hr)
      · by_cases hrp : r = p
        · rw [hrp, haddr, Option.some.injEq] at hb
          rw [hother q hqp, ← hb] at ha
          exact absurd ha (hnew q hq)
        · rw [hother q hqp] at ha
          rw [hother r hrp] at hb
          exact ok.distinct q r a hq hr ha hb
    pool := by
      rw [hindex, hpool]
      exact hroom }

/-- A write keeps the invariant if the slots before have their addresses and the
    cells keep their keys apart. -/
theorem slotsOk_write (h h' : HashTable) (p : Nat × Nat) (k : Int) (size : Nat) (ok : SlotsOk h)
    (hw : Writes h h' p k size) (hin : InTable p) (hk : 0 ≤ k) (hhash : calcHash k = p.1)
    (hbefore : ∀ i, i < p.2 → (h.slot (p.1, i)).addr ≠ none)
    (hu : KeysUnique
      (Function.update (cells h) p (some (k, { item := h.index, size := size })))) :
    SlotsOk h' := by
  have hcells := cells_write h h' p k size ok hw hin
  exact {
    toAddrsOk := addrsOk_next h h' p ok.toAddrsOk hw.slot_other hw.addr hw.index hw.room hw.pool
      hbefore
    busy_addr := fun q hq hb => by
      by_cases hqp : q = p
      · rw [hqp, hw.addr]
        simp only [ne_eq, reduceCtorEq, not_false_eq_true]
      · rw [hw.slot_other q hqp] at hb ⊢
        exact ok.busy_addr q hq hb
    freed := fun q a hq hb ha => by
      by_cases hqp : q = p
      · rw [hqp] at hb
        exact absurd hb hw.busy
      · rw [hw.slot_other q hqp] at hb ha
        -- The item written is past those the slots have.
        have hlt := ok.below q a hq ha
        rw [hw.key_other a (by omega)]
        exact ok.freed q a hq hb ha
    live := fun q k' e' hc => by
      rw [hcells] at hc
      by_cases hqp : q = p
      · rw [hqp, Function.update_self, Option.some.injEq, Prod.mk.injEq] at hc
        rw [← hc.1, hqp]
        exact ⟨hk, hhash⟩
      · rw [Function.update_of_ne hqp] at hc
        exact ok.live q k' e' hc
    unique := by
      rw [hcells]
      exact hu }

/-- A write of a positive key keeps the keys positive. -/
theorem hashOk_write (h h' : HashTable) (p : Nat × Nat) (k : Int) (size : Nat) (ok : HashOk h)
    (hw : Writes h h' p k size) (hin : InTable p) (hk : 0 < k) (hhash : calcHash k = p.1)
    (hbefore : ∀ i, i < p.2 → (h.slot (p.1, i)).addr ≠ none)
    (hu : KeysUnique
      (Function.update (cells h) p (some (k, { item := h.index, size := size })))) :
    HashOk h' := by
  have oks := ok.toSlotsOk
  refine ⟨slotsOk_write h h' p k size oks hw hin (by omega) hhash hbefore hu,
    fun q k' e hq => ?_⟩
  rw [cells_write h h' p k size oks hw hin] at hq
  by_cases hqp : q = p
  · rw [hqp, Function.update_self, Option.some.injEq, Prod.mk.injEq] at hq
    omega
  · rw [Function.update_of_ne hqp] at hq
    exact ok.nonzero q k' e hq

/-! ## Free slots -/

/-- The first slot that is not busy, if there is one. -/
theorem findFreeSlotFrom_spec (h : HashTable) (b : Nat) : ∀ n i,
    (findFreeSlotFrom h b n i = -1 ∧ ∀ l, i ≤ l → l < i + n → (h.slot (b, l)).busy ≠ 0) ∨
      ∃ j : Nat, findFreeSlotFrom h b n i = (j : Int) ∧ j < i + n ∧ (h.slot (b, j)).busy = 0 ∧
        ∀ l, i ≤ l → l < j → (h.slot (b, l)).busy ≠ 0 := by
  intro n
  induction n with
  | zero => exact fun i => Or.inl ⟨rfl, fun l hl hl' => by omega⟩
  | succ n ih =>
      intro i
      unfold findFreeSlotFrom
      by_cases hi : (h.slot (b, i)).busy = 0
      · rw [if_pos hi]
        exact Or.inr ⟨i, rfl, by omega, hi, fun l hl hl' => by omega⟩
      · rw [if_neg hi]
        -- Slot `i` joins those known to be busy.
        have hext : ∀ m, (∀ l, i + 1 ≤ l → l < m → (h.slot (b, l)).busy ≠ 0) →
            ∀ l, i ≤ l → l < m → (h.slot (b, l)).busy ≠ 0 := by
          intro m hm l hl hlm
          by_cases hli : l = i
          · rw [hli]
            exact hi
          · exact hm l (by omega) hlm
        rcases ih (i + 1) with hfull | hfree
        · exact Or.inl ⟨hfull.1, hext _ fun l hl hl' => hfull.2 l hl (by omega)⟩
        · rcases hfree with ⟨j, hj, hlt, hbusy, hbefore⟩
          exact Or.inr ⟨j, hj, by omega, hbusy, hext j hbefore⟩

theorem findFreeSlot_spec (h : HashTable) (b : Nat) :
    (findFreeSlot h b = -1 ∧ ∀ i, i < slots → (h.slot (b, i)).busy ≠ 0) ∨
      ∃ j : Nat, findFreeSlot h b = (j : Int) ∧ j < slots ∧ (h.slot (b, j)).busy = 0 ∧
        ∀ i, i < j → (h.slot (b, i)).busy ≠ 0 := by
  rcases findFreeSlotFrom_spec h b slots 0 with hfull | hfree
  · exact Or.inl ⟨hfull.1, fun i hi => hfull.2 i (Nat.zero_le i) (by omega)⟩
  · rcases hfree with ⟨j, hj, hlt, hbusy, hbefore⟩
    exact Or.inr ⟨j, hj, by omega, hbusy, fun i hi => hbefore i (Nat.zero_le i) hi⟩

/-! ## The operations -/

theorem copyValue_spec (item : HashItem) (src : Nat → Byte) (size : Int) (h0 : 0 ≤ size)
    (h32 : size ≤ keySize) :
    copyValue item src size = some { item with p := strncpy item.p src size.toNat } :=
  if_pos ⟨h0, h32⟩

theorem toNat_ofInt_size (size : Int) (h0 : 0 ≤ size) (h32 : size ≤ keySize) :
    (BitVec.ofInt 8 size).toNat = size.toNat := by
  rw [BitVec.toNat_ofInt]
  simp only [keySize] at h32
  omega

/-- The table after an insert into slot `p`. -/
def inserted (h : HashTable) (p : Nat × Nat) (key : Int) (value : Nat → Byte) (size : Int) :
    HashTable :=
  { (h.setSlot p { h.slot p with
      addr := some h.index, size := BitVec.ofInt 8 size, lease := defaultLease,
      busy := 1 }).setItem h.index { h.buckets h.index with
        key := key, flag := 0, p := strncpy (h.buckets h.index).p value size.toNat } with
    index := h.index + 1 }

theorem inserted_slot (h : HashTable) (p : Nat × Nat) (key : Int) (value : Nat → Byte)
    (size : Int) : (inserted h p key value size).slot p = { h.slot p with
      addr := some h.index, size := BitVec.ofInt 8 size, lease := defaultLease, busy := 1 } :=
  Function.update_self ..

theorem inserted_new (h : HashTable) (p : Nat × Nat) (key : Int) (value : Nat → Byte)
    (size : Int) : (inserted h p key value size).buckets h.index = { h.buckets h.index with
      key := key, flag := 0, p := strncpy (h.buckets h.index).p value size.toNat } :=
  Function.update_self ..

theorem inserted_slot_other (h : HashTable) (p : Nat × Nat) (key : Int) (value : Nat → Byte)
    (size : Int) (q : Nat × Nat) (hq : q ≠ p) :
    (inserted h p key value size).slot q = h.slot q :=
  Function.update_of_ne hq ..

theorem inserted_other (h : HashTable) (p : Nat × Nat) (key : Int) (value : Nat → Byte)
    (size : Int) (a : Nat) (ha : a ≠ h.index) :
    (inserted h p key value size).buckets a = h.buckets a :=
  Function.update_of_ne ha ..

theorem writes_inserted (h : HashTable) (p : Nat × Nat) (key : Int) (value : Nat → Byte)
    (size : Int) (h0 : 0 ≤ size) (h32 : size ≤ keySize) (hroom : h.index < h.poolSize) :
    Writes h (inserted h p key value size) p key size.toNat where
  slot_other := inserted_slot_other h p key value size
  addr := by rw [inserted_slot]
  busy := by rw [inserted_slot]; exact (by decide : (1 : Byte) ≠ 0)
  size := by rw [inserted_slot]; exact toNat_ofInt_size size h0 h32
  key := by rw [inserted_new]
  key_other := fun a ha => by rw [inserted_other h p key value size a ha]
  index := rfl
  room := hroom
  pool := rfl

/-- An insert goes to the slot that is free. -/
theorem insert_free (h : HashTable) (key : Int) (value : Nat → Byte) (size : Int) (j : Nat)
    (hb : calcHash key < maxPool) (hj : findFreeSlot h (calcHash key) = j) (h0 : 0 ≤ size)
    (h32 : size ≤ keySize) (hroom : h.index < h.poolSize) :
    hashtableInsert h key value size =
      some (inserted h (calcHash key, j) key value size, 0) := by
  have hitem : item? h (some h.index) = some (h.buckets h.index) := if_pos hroom
  unfold hashtableInsert
  rw [if_pos hb, hj, if_pos (by omega), hitem, Int.toNat_natCast]
  simp only [copyValue_spec _ value size h0 h32]
  rfl

/-- An insert takes the first slot that is not busy, or refuses. -/
theorem insert_spec (h : HashTable) (key : Int) (value : Nat → Byte) (size : Int) (ok : SlotsOk h)
    (hk : 0 ≤ key) (h0 : 0 ≤ size) (h32 : size ≤ keySize) (hroom : h.index < h.poolSize) :
    ((∀ i, i < slots → (h.slot (calcHash key, i)).busy ≠ 0) ∧
      hashtableInsert h key value size = some (h, -1)) ∨
    ∃ i, i < slots ∧ (h.slot (calcHash key, i)).busy = 0 ∧
      (∀ l, l < i → (h.slot (calcHash key, l)).addr ≠ none) ∧
      hashtableInsert h key value size =
        some (inserted h (calcHash key, i) key value size, 0) := by
  have hb := calcHash_lt key hk
  rcases findFreeSlot_spec h (calcHash key) with hfull | hfree
  · refine Or.inl ⟨hfull.2, ?_⟩
    unfold hashtableInsert
    rw [if_pos hb]
    exact if_neg (not_not.mpr hfull.1)
  · rcases hfree with ⟨j, hj, hlt, hbusy, hbefore⟩
    -- The slots before are busy, and a busy slot has an address.
    refine Or.inr ⟨j, hlt, hbusy, fun l hl => ?_,
      insert_free h key value size j hb hj h0 h32 hroom⟩
    exact ok.busy_addr (calcHash key, l) ⟨hb, Nat.lt_trans hl hlt⟩ (hbefore l hl)

/-- What an insert that comes back has done: it takes the first slot that is not
    busy and the next item, or finds none and changes nothing. -/
theorem insert_cases (h h' : HashTable) (key : Int) (value : Nat → Byte) (size r : Int)
    (hrun : hashtableInsert h key value size = some (h', r)) : calcHash key < maxPool ∧
      ((findFreeSlot h (calcHash key) = -1 ∧ h' = h ∧ r = -1) ∨
        ∃ i, i < slots ∧ (h.slot (calcHash key, i)).busy = 0 ∧
          (∀ l, l < i → (h.slot (calcHash key, l)).busy ≠ 0) ∧ h.index < h.poolSize ∧ 0 ≤ size ∧
          size ≤ keySize ∧ h' = inserted h (calcHash key, i) key value size ∧ r = 0) := by
  by_cases hb : calcHash key < maxPool
  · refine ⟨hb, ?_⟩
    rcases findFreeSlot_spec h (calcHash key) with ⟨hfull, _⟩ | ⟨i, hi, hlt, hbusy, hbefore⟩
    · unfold hashtableInsert at hrun
      simp only [if_pos hb] at hrun
      rw [if_neg (not_not.mpr hfull), Option.some.injEq, Prod.mk.injEq] at hrun
      exact Or.inl ⟨hfull, hrun.1.symm, hrun.2.symm⟩
    · -- Past all memory, or with a value too long, the call does not come back.
      by_cases hfits : h.index < h.poolSize ∧ 0 ≤ size ∧ size ≤ keySize
      · rcases hfits with ⟨hroom, h0, h32⟩
        rw [insert_free h key value size i hb hi h0 h32 hroom, Option.some.injEq,
          Prod.mk.injEq] at hrun
        exact Or.inr ⟨i, hlt, hbusy, hbefore, hroom, h0, h32, hrun.1.symm, hrun.2.symm⟩
      · unfold hashtableInsert at hrun
        simp only [if_pos hb, hi, item?, copyValue] at hrun
        rw [if_pos (by omega)] at hrun
        by_cases hroom : h.index < h.poolSize
        · simp only [if_pos hroom, if_neg (fun hc => hfits ⟨hroom, hc⟩), reduceCtorEq] at hrun
        · simp only [if_neg hroom, reduceCtorEq] at hrun
  · unfold hashtableInsert at hrun
    simp only [if_neg hb, reduceCtorEq] at hrun

/-- The table after an update of the key with item `a` in slot `p`. -/
def updated (h : HashTable) (p : Nat × Nat) (a : Nat) (key : Int) (value : Nat → Byte)
    (size : Int) : HashTable :=
  { ((h.setItem a { h.buckets a with flag := 1 }).setSlot p { h.slot p with
      size := BitVec.ofInt 8 size, addr := some h.index,
      lease := defaultLease }).setItem h.index { h.buckets h.index with
        p := strncpy (h.buckets h.index).p value size.toNat, key := key } with
    index := h.index + 1 }

theorem updated_slot (h : HashTable) (p : Nat × Nat) (a : Nat) (key : Int) (value : Nat → Byte)
    (size : Int) : (updated h p a key value size).slot p = { h.slot p with
      size := BitVec.ofInt 8 size, addr := some h.index, lease := defaultLease } :=
  Function.update_self ..

theorem updated_slot_other (h : HashTable) (p : Nat × Nat) (a : Nat) (key : Int)
    (value : Nat → Byte) (size : Int) (q : Nat × Nat) (hq : q ≠ p) :
    (updated h p a key value size).slot q = h.slot q :=
  Function.update_of_ne hq ..

theorem updated_new (h : HashTable) (p : Nat × Nat) (a : Nat) (key : Int) (value : Nat → Byte)
    (size : Int) : (updated h p a key value size).buckets h.index = { h.buckets h.index with
      p := strncpy (h.buckets h.index).p value size.toNat, key := key } :=
  Function.update_self ..

theorem updated_old (h : HashTable) (p : Nat × Nat) (a : Nat) (key : Int) (value : Nat → Byte)
    (size : Int) (ha : a ≠ h.index) :
    (updated h p a key value size).buckets a = { h.buckets a with flag := 1 } :=
  (Function.update_of_ne ha ..).trans (Function.update_self ..)

theorem updated_other (h : HashTable) (p : Nat × Nat) (a : Nat) (key : Int) (value : Nat → Byte)
    (size : Int) (c : Nat) (hc : c ≠ h.index) (hca : c ≠ a) :
    (updated h p a key value size).buckets c = h.buckets c :=
  (Function.update_of_ne hc ..).trans (Function.update_of_ne hca ..)

theorem writes_updated (h : HashTable) (p : Nat × Nat) (a : Nat) (key : Int) (value : Nat → Byte)
    (size : Int) (hbusy : (h.slot p).busy ≠ 0) (h0 : 0 ≤ size) (h32 : size ≤ keySize)
    (hroom : h.index < h.poolSize) :
    Writes h (updated h p a key value size) p key size.toNat where
  slot_other := updated_slot_other h p a key value size
  addr := by rw [updated_slot]
  busy := by rw [updated_slot]; exact hbusy
  size := by rw [updated_slot]; exact toNat_ofInt_size size h0 h32
  key := by rw [updated_new]
  key_other := fun c hc => by
    by_cases hca : c = a
    · rw [hca] at hc ⊢
      rw [updated_old h p a key value size hc]
    · rw [updated_other h p a key value size c hc hca]
  index := rfl
  room := hroom
  pool := rfl

/-- An update of a key the search finds gives its slot a new item. -/
theorem update_spec (h : HashTable) (p : Nat × Nat) (a : Nat) (key : Int) (value : Nat → Byte)
    (size : Int) (hs : hashtableSearch h key =
      some { descriptor := some p, keyAddress := some a, extEnabled := 0 })
    (ha : a ≠ h.index) (h0 : 0 ≤ size) (h32 : size ≤ keySize) (hroom : h.index < h.poolSize) :
    updateHashKey h key value size = some (updated h p a key value size,
      { descriptor := some p, keyAddress := some h.index, extEnabled := 0 }) := by
  -- The item flagged is not the new one.
  have hitem : item? (h.setItem a { h.buckets a with flag := 1 }) (some h.index) =
      some (h.buckets h.index) := by
    refine (if_pos hroom).trans (congrArg some ?_)
    exact Function.update_of_ne (Ne.symm ha) ..
  unfold updateHashKey
  rw [hs]
  simp only [hitem, copyValue_spec _ value size h0 h32]
  rfl

/-- What an update that comes back has done: it gives the slot the search found
    the next item. -/
theorem update_cases (h h' : HashTable) (key : Int) (value : Nat → Byte) (size : Int)
    (r : SearchReturn) (hrun : updateHashKey h key value size = some (h', r)) :
    ∃ p a, hashtableSearch h key =
        some { descriptor := some p, keyAddress := some a, extEnabled := 0 } ∧
      h.index < h.poolSize ∧ 0 ≤ size ∧ size ≤ keySize ∧
      h'.slot = Function.update h.slot p { h.slot p with
        size := BitVec.ofInt 8 size, addr := some h.index, lease := defaultLease } ∧
      h'.index = h.index + 1 ∧ (a ≠ h.index → h' = updated h p a key value size) := by
  unfold updateHashKey at hrun
  cases hs : hashtableSearch h key with
  | none => simp only [hs, reduceCtorEq] at hrun
  | some ret =>
      rw [hs] at hrun
      rcases (search_cases h key ret hs).2 with ⟨j, a, _, _, _, _, rfl⟩ | ⟨rfl, _⟩
      · simp only [item?, copyValue] at hrun
        by_cases hroom : h.index < h.poolSize
        · by_cases hsize : 0 ≤ size ∧ size ≤ keySize
          · rw [if_pos (show h.index < (h.setItem a _).poolSize from hroom)] at hrun
            simp only [if_pos hsize, Option.some.injEq, Prod.mk.injEq] at hrun
            refine ⟨_, a, rfl, hroom, hsize.1, hsize.2, ?_, ?_, fun ha => ?_⟩
            · rw [← hrun.1]
              rfl
            · rw [← hrun.1]
            · -- The item flagged is not the new one.
              rw [← hrun.1]
              unfold updated
              simp only [HashTable.setItem, HashTable.setSlot, Function.update_of_ne (Ne.symm ha)]
          · rw [if_pos (show h.index < (h.setItem a _).poolSize from hroom)] at hrun
            simp only [if_neg hsize, reduceCtorEq] at hrun
        · rw [if_neg (show ¬ h.index < (h.setItem a _).poolSize from hroom)] at hrun
          simp only [reduceCtorEq] at hrun
      · simp only [reduceCtorEq] at hrun

/-! ## Deleting -/

/-- The table after a delete of the key with item `a` in slot `p`. -/
def deleted (h : HashTable) (p : Nat × Nat) (a : Nat) : HashTable :=
  (h.setSlot p { h.slot p with busy := 0 }).setItem a { h.buckets a with key := 0 }

/-- Freeing a slot that is free changes nothing. -/
theorem deleted_of_freed (h : HashTable) (p : Nat × Nat) (a : Nat) (hb : (h.slot p).busy = 0)
    (hk : (h.buckets a).key = 0) : deleted h p a = h := by
  have hslot : Function.update h.slot p { h.slot p with busy := 0 } = h.slot := by
    conv => lhs; rw [← hb]
    exact Function.update_eq_self p h.slot
  have hitem : Function.update h.buckets a { h.buckets a with key := 0 } = h.buckets := by
    conv => lhs; rw [← hk]
    exact Function.update_eq_self a h.buckets
  unfold deleted HashTable.setItem HashTable.setSlot
  simp only [hslot, hitem]

/-- A delete of the key does not change what slot `l` of the bucket has. -/
def Untouched (h : HashTable) (b : Nat) (key : Int) (l : Nat) : Prop :=
  ∀ a, (h.slot (b, l)).addr = some a → item? h (some a) = some (h.buckets a) ∧
    ((h.buckets a).key = key → deleted h (b, l) a = h)

/-- One step of the loop at a slot that it does not change. -/
theorem deleteFrom_untouched (h : HashTable) (b : Nat) (key : Int) (n i : Nat)
    (hu : Untouched h b key i) : deleteFrom h b key (n + 1) i = deleteFrom h b key n (i + 1) := by
  conv => lhs; unfold deleteFrom
  cases ha : (h.slot (b, i)).addr with
  | none => rfl
  | some a =>
      rcases hu a ha with ⟨hitem, hsame⟩
      simp only [hitem]
      by_cases hk : (h.buckets a).key = key
      · rw [if_pos hk.symm]
        exact congrArg (fun t => deleteFrom t b key n (i + 1)) (hsame hk)
      · rw [if_neg (Ne.symm hk)]

theorem deleteFrom_miss (h : HashTable) (b : Nat) (key : Int) : ∀ n i,
    (∀ l, i ≤ l → l < i + n → Untouched h b key l) → deleteFrom h b key n i = some h := by
  intro n
  induction n with
  | zero => intro i _; rfl
  | succ n ih =>
      intro i hmiss
      rw [deleteFrom_untouched h b key n i (hmiss i (Nat.le_refl i) (by omega))]
      exact ih (i + 1) fun l hl hl' => hmiss l (by omega) (by omega)

/-- The slots before the key's are passed over. -/
theorem deleteFrom_hit (h : HashTable) (b : Nat) (key : Int) (j a : Nat)
    (ha : (h.slot (b, j)).addr = some a) (hitem : item? h (some a) = some (h.buckets a))
    (hkey : (h.buckets a).key = key) : ∀ n i, i ≤ j → j < i + n →
    (∀ l, i ≤ l → l < j → Untouched h b key l) →
    deleteFrom h b key n i = deleteFrom (deleted h (b, j) a) b key (i + n - (j + 1)) (j + 1) := by
  intro n
  induction n with
  | zero => intro i hij hj _; omega
  | succ n ih =>
      intro i hij hj hmiss
      by_cases hi : i = j
      · -- The loop does not stop here: it goes on through the slots after.
        rw [show i + (n + 1) - (j + 1) = n by omega, hi]
        conv => lhs; unfold deleteFrom
        simp only [ha, hitem]
        rw [if_pos hkey.symm]
        simp only [deleted, ha]
      · rw [deleteFrom_untouched h b key n i (hmiss i (Nat.le_refl i) (by omega)),
          ih (i + 1) (by omega) (by omega) fun l hl hl' => hmiss l (by omega) hl',
          show i + (n + 1) - (j + 1) = i + 1 + n - (j + 1) by omega]

theorem deleted_slot (h : HashTable) (p : Nat × Nat) (a : Nat) :
    (deleted h p a).slot p = { h.slot p with busy := 0 } :=
  Function.update_self ..

theorem deleted_slot_other (h : HashTable) (p : Nat × Nat) (a : Nat) (q : Nat × Nat)
    (hq : q ≠ p) : (deleted h p a).slot q = h.slot q :=
  Function.update_of_ne hq ..

theorem deleted_addr (h : HashTable) (p : Nat × Nat) (a : Nat) (q : Nat × Nat) :
    ((deleted h p a).slot q).addr = (h.slot q).addr := by
  by_cases hq : q = p
  · rw [hq, deleted_slot]
  · rw [deleted_slot_other h p a q hq]

theorem deleted_item (h : HashTable) (p : Nat × Nat) (a : Nat) :
    (deleted h p a).buckets a = { h.buckets a with key := 0 } :=
  Function.update_self ..

theorem deleted_item_other (h : HashTable) (p : Nat × Nat) (a c : Nat) (hc : c ≠ a) :
    (deleted h p a).buckets c = h.buckets c :=
  Function.update_of_ne hc ..

/-- A delete empties one cell. -/
theorem cells_deleted (h : HashTable) (ok : SlotsOk h) (p : Nat × Nat) (k : Int) (e : Entry)
    (hp : cells h p = some (k, e)) :
    cells (deleted h p e.item) = Function.update (cells h) p none := by
  rcases (cells_eq_some h p k e).mp hp with ⟨hin, _, haddr, _, _⟩
  funext q
  by_cases hq : q = p
  · rw [hq, Function.update_self]
    exact cells_eq_none _ p (congrArg HashKey.busy (deleted_slot h p e.item))
  · rw [Function.update_of_ne hq]
    unfold cells
    rw [deleted_slot_other h p e.item q hq]
    by_cases hc : InTable q ∧ (h.slot q).busy ≠ 0
    · rw [if_pos hc, if_pos hc]
      cases ha : (h.slot q).addr with
      | none => rfl
      | some a =>
          -- No other slot points to the item.
          have hne : a ≠ e.item := fun he => hq (ok.distinct q p a hc.1 hin ha (he ▸ haddr))
          rw [Option.map_some, Option.map_some, deleted_item_other h p e.item a hne]
    · rw [if_neg hc, if_neg hc]

/-- A delete keeps the invariant. The slot keeps its address, and the item has
    key 0, as a freed slot's must. -/
theorem slotsOk_deleted (h : HashTable) (ok : SlotsOk h) (p : Nat × Nat) (k : Int) (e : Entry)
    (hp : cells h p = some (k, e)) : SlotsOk (deleted h p e.item) := by
  rcases (cells_eq_some h p k e).mp hp with ⟨hin, _, haddr, _, _⟩
  have hcells := cells_deleted h ok p k e hp
  have hbusy : ∀ q, q ≠ p → ((deleted h p e.item).slot q).busy = (h.slot q).busy :=
    fun q hq => by rw [deleted_slot_other h p e.item q hq]
  exact {
    busy_addr := fun q hq hb => by
      by_cases hqp : q = p
      · rw [hqp, deleted_slot] at hb
        exact absurd rfl hb
      · rw [hbusy q hqp] at hb
        rw [deleted_addr]
        exact ok.busy_addr q hq hb
    addr_prefix := fun b i j hb hij hj ha => by
      rw [deleted_addr] at ha ⊢
      exact ok.addr_prefix b i j hb hij hj ha
    below := fun q a hq ha => by
      rw [deleted_addr] at ha
      exact ok.below q a hq ha
    distinct := fun q r a hq hr ha hb => by
      rw [deleted_addr] at ha hb
      exact ok.distinct q r a hq hr ha hb
    freed := fun q a hq hb ha => by
      rw [deleted_addr] at ha
      by_cases hqp : q = p
      · rw [hqp, haddr, Option.some.injEq] at ha
        rw [← ha, deleted_item]
      · rw [hbusy q hqp] at hb
        -- No two slots share an item, so this one keeps its key 0.
        have hne : a ≠ e.item := fun he => hqp (ok.distinct q p a hq hin ha (he ▸ haddr))
        rw [deleted_item_other h p e.item a hne]
        exact ok.freed q a hq hb ha
    live := fun q k' e' hc => by
      rw [hcells] at hc
      by_cases hqp : q = p
      · rw [hqp, Function.update_self] at hc
        exact absurd hc (by simp only [reduceCtorEq, not_false_eq_true])
      · rw [Function.update_of_ne hqp] at hc
        exact ok.live q k' e' hc
    unique := by
      rw [hcells]
      exact keysUnique_clear (cells h) ok.unique p
    pool := ok.pool }

theorem hashOk_deleted (h : HashTable) (ok : HashOk h) (p : Nat × Nat) (k : Int) (e : Entry)
    (hp : cells h p = some (k, e)) : HashOk (deleted h p e.item) := by
  have oks := ok.toSlotsOk
  refine ⟨slotsOk_deleted h oks p k e hp, fun q k' e' hq => ?_⟩
  rw [cells_deleted h oks p k e hp] at hq
  by_cases hqp : q = p
  · rw [hqp, Function.update_self] at hq
    exact absurd hq (by simp only [reduceCtorEq, not_false_eq_true])
  · rw [Function.update_of_ne hqp] at hq
    exact ok.nonzero q k' e' hq

/-- A slot whose item has a key that no cell, or another slot's, has is free, so a
    delete of the key leaves it as it is. -/
theorem untouched_of_ne (h : HashTable) (ok : SlotsOk h) (b : Nat) (k : Int) (l : Nat)
    (hin : InTable (b, l)) (hne : ∀ e, cells h (b, l) ≠ some (k, e)) : Untouched h b k l := by
  intro a ha
  refine ⟨item?_some h a (addr_lt h ok.toAddrsOk (b, l) a hin ha), fun hk => ?_⟩
  by_cases hb : (h.slot (b, l)).busy = 0
  · exact deleted_of_freed h (b, l) a hb (ok.freed (b, l) a hin hb ha)
  · exact absurd ((cells_eq_some h (b, l) k { item := a, size := _ }).mpr ⟨hin, hb, ha, hk, rfl⟩)
      (hne _)

/-- A delete of a key frees its slot, and no other. -/
theorem delete_entry (h : HashTable) (ok : SlotsOk h) (p : Nat × Nat) (k : Int) (e : Entry)
    (hp : cells h p = some (k, e)) : hashtableDelete h k = some (deleted h p e.item) := by
  rcases (cells_eq_some h p k e).mp hp with ⟨hin, _, haddr, hkey, _⟩
  rcases ok.live p k e hp with ⟨hnonneg, hhash⟩
  have hlt := hin.2
  unfold hashtableDelete
  rw [if_pos (calcHash_lt k hnonneg), hhash]
  rw [deleteFrom_hit h p.1 k p.2 e.item haddr
    (item?_some h e.item (addr_lt h ok.toAddrsOk p e.item hin haddr)) hkey slots 0 (Nat.zero_le _)
    (by omega) ?_]
  · -- The slots after are those of the table that the first part of the loop leaves.
    refine deleteFrom_miss _ p.1 k _ _ fun l hl hl' => ?_
    refine untouched_of_ne _ (slotsOk_deleted h ok p k e hp) p.1 k l ⟨hin.1, by omega⟩
      fun e' hc => ?_
    have hlp : (p.1, l) ≠ p := fun hq => by
      have : l = p.2 := congrArg Prod.snd hq
      omega
    rw [cells_deleted h ok p k e hp, Function.update_of_ne hlp] at hc
    exact hlp (ok.unique _ _ k e' e hc hp)
  · intro l _ hl
    refine untouched_of_ne h ok p.1 k l ⟨hin.1, by omega⟩ fun e' hc => ?_
    have : l = p.2 := congrArg Prod.snd (ok.unique _ _ k e' e hc hp)
    omega

/-- A delete of a key that is not there changes nothing. -/
theorem delete_absent (h : HashTable) (ok : SlotsOk h) (k : Int) (hk : 0 ≤ k)
    (habs : ¬ Present (cells h) k) : hashtableDelete h k = some h := by
  unfold hashtableDelete
  rw [if_pos (calcHash_lt k hk)]
  refine deleteFrom_miss h _ k slots 0 fun l _ hl => ?_
  exact untouched_of_ne h ok _ k l ⟨calcHash_lt k hk, by omega⟩ fun e hc => habs ⟨e, _, hc⟩

end HydraDB

end LocalKeyValue
