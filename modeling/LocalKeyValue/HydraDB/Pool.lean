import LocalKeyValue.HydraDB.Map
import LocalKeyValue.HydraDB.Requests

/-!
# The Item Pool of the HydraDB Server

`index_` only grows: an insert and an update each take the item it names and
move it on, and nothing is ever given back. So an item that a slot points to is
never handed out again. But the pool ends, and neither operation looks for its
end. `setup_buffers` loads as many keys as the pool has items, which leaves
`index_` at the end of it, and the first item handed out after that lies past
the pool.

Runs are arbitrary here: any keys, any values, in any order. A call that has
undefined behaviour, such as one whose bucket is past the end of the table, ends
its run without a state. What is left to a run that keeps to the pool is to
delete: each bucket has free slots after the load, so no insert is refused.

## Main definitions

* `callStep`: A call on the table.
* `InPool`, `NotReused`: The two halves of pool safety.
* `Keeps`, `HandsOut`: What a call does to the addresses.
* `PoolInvariant`: The table after the load and any deletes.

## Theorems

* `delete_keeps`, `insert_handsOut`, `update_handsOut`: What each call does.
* `pool_run_iff`: Runs from a table that satisfies the invariant.
* `pool_safe_iff`: Runs from the loaded table.
-/

namespace LocalKeyValue

namespace HydraDB

open Run

/-- A call on the table, its result left out. -/
def callStep (h : HashTable) : TableOp → Option HashTable
  | .insert key value size => (hashtableInsert h key value size).map Prod.fst
  | .update key value size => (updateHashKey h key value size).map Prod.fst
  | .delete key => hashtableDelete h key

/-- Every address in a slot is of one of the pool's items. -/
def InPool (h : HashTable) : Prop :=
  ∀ p a, InTable p → (h.slot p).addr = some a → a < loadSize

/-- The item to be handed out next is not one a slot in use points to. -/
def NotReused (h : HashTable) : Prop :=
  ∀ p, InTable p → (h.slot p).busy ≠ 0 → (h.slot p).addr ≠ some h.index

/-- A delete of a key whose bucket is inside the table. -/
def DeletesInside : TableOp → Prop
  | .insert _ _ _ => False
  | .update _ _ _ => False
  | .delete key => calcHash key < maxPool

instance (op : TableOp) : Decidable (DeletesInside op) :=
  match op with
  | .insert _ _ _ => isFalse not_false
  | .update _ _ _ => isFalse not_false
  | .delete key => inferInstanceAs (Decidable (calcHash key < maxPool))

/-! ## What a call does to the addresses -/

/-- The addresses are as they were, and free slots stay free. -/
structure Keeps (h h' : HashTable) : Prop where
  addr : ∀ p, (h'.slot p).addr = (h.slot p).addr
  free : ∀ p, (h.slot p).busy = 0 → (h'.slot p).busy = 0
  index : h'.index = h.index
  pool : h'.poolSize = h.poolSize

/-- Slot `p` has been given the next item. -/
structure HandsOut (h h' : HashTable) (p : Nat × Nat) : Prop where
  inTable : InTable p
  addr : (h'.slot p).addr = some h.index
  other : ∀ q, q ≠ p → (h'.slot q).addr = (h.slot q).addr
  index : h'.index = h.index + 1

theorem keeps_refl (h : HashTable) : Keeps h h :=
  ⟨fun _ => rfl, fun _ hp => hp, rfl, rfl⟩

theorem keeps_trans (h h' h'' : HashTable) (k : Keeps h h') (k' : Keeps h' h'') : Keeps h h'' :=
  ⟨fun p => (k'.addr p).trans (k.addr p), fun p hp => k'.free p (k.free p hp),
    k'.index.trans k.index, k'.pool.trans k.pool⟩

theorem keeps_deleted (h : HashTable) (p : Nat × Nat) (a : Nat) : Keeps h (deleted h p a) := by
  refine ⟨deleted_addr h p a, fun q hq => ?_, rfl, rfl⟩
  by_cases hqp : q = p
  · rw [hqp, deleted_slot]
  · rw [deleted_slot_other h p a q hqp]
    exact hq

/-- Storing the next item's address in a slot, and moving on. -/
theorem handsOut_update (h t : HashTable) (p : Nat × Nat) (k : HashKey) (hin : InTable p)
    (hk : k.addr = some h.index) (hslot : t.slot = Function.update h.slot p k)
    (hi : t.index = h.index + 1) : HandsOut h t p := by
  refine ⟨hin, ?_, fun q hq => ?_, hi⟩
  · rw [hslot, Function.update_self, hk]
  · rw [hslot, Function.update_of_ne hq]

/-- The loop of a delete keeps the addresses. -/
theorem deleteFrom_keeps (b : Nat) (key : Int) : ∀ n i (h h' : HashTable),
    deleteFrom h b key n i = some h' → Keeps h h' := by
  intro n
  induction n with
  | zero =>
      intro i h h' hrun
      rw [deleteFrom, Option.some.injEq] at hrun
      rw [← hrun]
      exact keeps_refl h
  | succ n ih =>
      intro i h h' hrun
      unfold deleteFrom at hrun
      cases ha : (h.slot (b, i)).addr with
      | none => rw [ha] at hrun; exact ih (i + 1) h h' hrun
      | some a =>
          rw [ha] at hrun
          by_cases hlt : a < h.poolSize
          · simp only [item?_some h a hlt] at hrun
            by_cases hk : key = (h.buckets a).key
            · -- The slot is freed and keeps its address, and the loop goes on.
              rw [if_pos hk] at hrun
              exact keeps_trans _ _ _ (keeps_deleted h (b, i) a) (ih (i + 1) _ h' hrun)
            · rw [if_neg hk] at hrun
              exact ih (i + 1) h h' hrun
          · simp only [item?, if_neg hlt] at hrun
            exact absurd hrun (by simp only [reduceCtorEq, not_false_eq_true])

/-- The loop of a delete completes if no address is past the pool. -/
theorem deleteFrom_total (b : Nat) (key : Int) : ∀ n i (h : HashTable),
    (∀ l a, l < i + n → (h.slot (b, l)).addr = some a → a < h.poolSize) →
      ∃ h', deleteFrom h b key n i = some h' := by
  intro n
  induction n with
  | zero => intro i h _; exact ⟨h, rfl⟩
  | succ n ih =>
      intro i h hin
      unfold deleteFrom
      cases ha : (h.slot (b, i)).addr with
      | none => exact ih (i + 1) h (fun l a hl => hin l a (by omega))
      | some a =>
          simp only [item?_some h a (hin i a (by omega) ha)]
          by_cases hk : key = (h.buckets a).key
          · rw [if_pos hk]
            -- The loop does not stop at the key, and the slot it freed keeps its address.
            refine ih (i + 1) (deleted h (b, i) a) (fun l c hl hc => ?_)
            rw [deleted_addr] at hc
            exact hin l c (by omega) hc
          · rw [if_neg hk]
            exact ih (i + 1) h (fun l c hl => hin l c (by omega))

/-- A delete keeps the addresses. -/
theorem delete_keeps (h h' : HashTable) (key : Int) (hrun : hashtableDelete h key = some h') :
    calcHash key < maxPool ∧ Keeps h h' := by
  unfold hashtableDelete at hrun
  by_cases hb : calcHash key < maxPool
  · rw [if_pos hb] at hrun
    exact ⟨hb, deleteFrom_keeps _ key slots 0 h h' hrun⟩
  · rw [if_neg hb] at hrun
    exact absurd hrun (by simp only [reduceCtorEq, not_false_eq_true])

/-- A delete whose bucket is inside the table completes. -/
theorem delete_total (h : HashTable) (key : Int) (hb : calcHash key < maxPool)
    (hin : ∀ p a, InTable p → (h.slot p).addr = some a → a < h.poolSize) :
    ∃ h', hashtableDelete h key = some h' := by
  unfold hashtableDelete
  rw [if_pos hb]
  exact deleteFrom_total _ key slots 0 h (fun l a hl ha => hin (_, l) a ⟨hb, by omega⟩ ha)

/-- An insert that is not refused hands out the next item. -/
theorem insert_handsOut (h h' : HashTable) (key : Int) (value : Nat → Byte) (size r : Int)
    (hrun : hashtableInsert h key value size = some (h', r)) :
    calcHash key < maxPool ∧
      ((findFreeSlot h (calcHash key) = -1 ∧ h' = h) ∨ ∃ p, HandsOut h h' p) := by
  rcases insert_cases h h' key value size r hrun with
    ⟨hb, ⟨hfull, hsame, _⟩ | ⟨i, hi, _, _, _, _, _, rfl, _⟩⟩
  · exact ⟨hb, Or.inl ⟨hfull, hsame⟩⟩
  · exact ⟨hb, Or.inr ⟨(calcHash key, i), handsOut_update h _ _ _ ⟨hb, hi⟩ rfl rfl rfl⟩⟩

/-- An update hands out the next item. -/
theorem update_handsOut (h h' : HashTable) (key : Int) (value : Nat → Byte) (size : Int)
    (r : SearchReturn) (hrun : updateHashKey h key value size = some (h', r)) :
    ∃ p, HandsOut h h' p := by
  rcases update_cases h h' key value size r hrun with ⟨p, a, hs, _, _, _, hslot, hindex, _⟩
  -- The slot is in the table because its bucket was searched.
  rcases search_cases h key _ hs with ⟨hb, ⟨j, c, hj, _, _, _, heq⟩ | ⟨heq, _⟩⟩
  · rw [SearchReturn.mk.injEq, Option.some.injEq] at heq
    rw [heq.1] at hslot
    exact ⟨(calcHash key, j), handsOut_update h h' _ _ ⟨hb, hj⟩ rfl hslot hindex⟩
  · simp only [SearchReturn.mk.injEq, reduceCtorEq, false_and] at heq

/-! ## Runs -/

/-- The addresses of slots are of items handed out before. -/
def BelowIndex (h : HashTable) : Prop :=
  ∀ p a, InTable p → (h.slot p).addr = some a → a < h.index

theorem notReused_of_belowIndex (h : HashTable) (hb : BelowIndex h) : NotReused h := by
  intro p hp _ ha
  exact Nat.lt_irrefl _ (hb p h.index hp ha)

theorem belowIndex_keeps (h h' : HashTable) (hb : BelowIndex h) (hk : Keeps h h') :
    BelowIndex h' := by
  intro p a hp ha
  rw [hk.addr] at ha
  rw [hk.index]
  exact hb p a hp ha

theorem belowIndex_handsOut (h h' : HashTable) (hb : BelowIndex h) (p : Nat × Nat)
    (hh : HandsOut h h' p) : BelowIndex h' := by
  intro q a hq ha
  rw [hh.index]
  by_cases hqp : q = p
  · rw [hqp, hh.addr, Option.some.injEq] at ha
    omega
  · rw [hh.other q hqp] at ha
    exact Nat.lt_succ_of_lt (hb q a hq ha)

/-- No call makes an address of an item still to be handed out. -/
theorem belowIndex_step (h h' : HashTable) (op : TableOp) (hb : BelowIndex h)
    (hrun : callStep h op = some h') : BelowIndex h' := by
  cases op with
  | insert key value size =>
      rcases Option.map_eq_some_iff.mp hrun with ⟨⟨t, r⟩, hins, rfl⟩
      rcases (insert_handsOut h t key value size r hins).2 with ⟨_, rfl⟩ | ⟨p, hh⟩
      · exact hb
      · exact belowIndex_handsOut h t hb p hh
  | update key value size =>
      rcases Option.map_eq_some_iff.mp hrun with ⟨⟨t, r⟩, hup, rfl⟩
      rcases update_handsOut h t key value size r hup with ⟨p, hh⟩
      exact belowIndex_handsOut h t hb p hh
  | delete key => exact belowIndex_keeps h h' hb (delete_keeps h h' key hrun).2

/-- The table after the load and any deletes: every item of the pool has been
    handed out, and the last slot of each bucket is free. -/
structure PoolInvariant (h : HashTable) : Prop where
  below : BelowIndex h
  spent : loadSize ≤ h.index
  room : loadSize ≤ h.poolSize
  free : ∀ b, b < maxPool → (h.slot (b, 6)).busy = 0

/-- An item handed out now is not one of the pool's. -/
theorem not_inPool_of_handsOut (h h' : HashTable) (hI : PoolInvariant h) (p : Nat × Nat)
    (hh : HandsOut h h' p) : ¬ InPool h' := by
  intro hp
  have hlt := hp p h.index hh.inTable hh.addr
  have hspent := hI.spent
  omega

/-- A call leads to a state that keeps to the pool exactly if it is a delete
    inside the table. -/
theorem pool_step_iff (h : HashTable) (op : TableOp) (hI : PoolInvariant h) (hP : InPool h) :
    ((∃ h', callStep h op = some h' ∧ InPool h' ∧ NotReused h') ↔ DeletesInside op) ∧
      ∀ h', callStep h op = some h' → InPool h' → PoolInvariant h' := by
  cases op with
  | insert key value size =>
      -- The bucket has a free slot, so an insert that goes through hands out an item.
      have hout : ∀ h', callStep h (.insert key value size) = some h' → ¬ InPool h' := by
        intro h' hrun
        rcases Option.map_eq_some_iff.mp hrun with ⟨⟨t, r⟩, hins, rfl⟩
        rcases insert_handsOut h t key value size r hins with ⟨hb, ⟨hfull, _⟩ | ⟨p, hh⟩⟩
        · rcases findFreeSlot_spec h (calcHash key) with ⟨_, hbusy⟩ | ⟨j, hj, _⟩
          · exact absurd (hI.free _ hb) (hbusy 6 (by decide))
          · omega
        · exact not_inPool_of_handsOut h t hI p hh
      exact ⟨iff_of_false (fun ⟨h', hrun, hin, _⟩ => hout h' hrun hin) not_false,
        fun h' hrun hin => absurd hin (hout h' hrun)⟩
  | update key value size =>
      -- An update that goes through always hands out an item.
      have hout : ∀ h', callStep h (.update key value size) = some h' → ¬ InPool h' := by
        intro h' hrun
        rcases Option.map_eq_some_iff.mp hrun with ⟨⟨t, r⟩, hup, rfl⟩
        rcases update_handsOut h t key value size r hup with ⟨p, hh⟩
        exact not_inPool_of_handsOut h t hI p hh
      exact ⟨iff_of_false (fun ⟨h', hrun, hin, _⟩ => hout h' hrun hin) not_false,
        fun h' hrun hin => absurd hin (hout h' hrun)⟩
  | delete key =>
      refine ⟨⟨fun ⟨h', hrun, _⟩ => (delete_keeps h h' key hrun).1, fun hb => ?_⟩,
        fun h' hrun _ => ?_⟩
      · -- A delete comes back and leaves every address as it was.
        rcases delete_total h key hb (fun p a hp ha => Nat.lt_of_lt_of_le (hP p a hp ha) hI.room)
          with ⟨h', hrun⟩
        have hkeep := (delete_keeps h h' key hrun).2
        refine ⟨h', hrun, fun p a hp ha => ?_, notReused_of_belowIndex h'
          (belowIndex_keeps h h' hI.below hkeep)⟩
        rw [hkeep.addr] at ha
        exact hP p a hp ha
      · have hkeep := (delete_keeps h h' key hrun).2
        exact ⟨belowIndex_keeps h h' hI.below hkeep, by rw [hkeep.index]; exact hI.spent,
          by rw [hkeep.pool]; exact hI.room, fun b hb => hkeep.free _ (hI.free b hb)⟩

/-- A run keeps to the pool exactly if it deletes only. -/
theorem pool_run_iff (h : HashTable) (hI : PoolInvariant h) (hP : InPool h) (ops : List TableOp) :
    Throughout callStep (fun t => InPool t ∧ NotReused t) ops h ↔
      ∀ op ∈ ops, DeletesInside op := by
  rw [throughout_iff_along_of callStep (fun _ _ => True) (fun _ op => DeletesInside op)
    PoolInvariant _ (fun t op ht hPt _ => ⟨(pool_step_iff t op ht hPt.1).1,
      fun t' hrun hPt' => (pool_step_iff t op ht hPt.1).2 t' hrun hPt'.1⟩)
    ops h hI ⟨hP, notReused_of_belowIndex h hI.below⟩ (along_true callStep ops h)]
  -- The condition is one on the calls alone.
  refine along_iff_forall callStep DeletesInside (fun t => PoolInvariant t ∧ InPool t)
    (fun t op ht hok => ?_) ops h ⟨hI, hP⟩
  rcases (pool_step_iff t op ht.1 ht.2).1.mpr hok with ⟨t', hrun, hin, _⟩
  exact ⟨t', hrun, (pool_step_iff t op ht.1 ht.2).2 t' hrun hin, hin⟩

/-- The load hands out the whole pool and no more. -/
theorem poolInvariant_loaded (h : HashTable) (hl : LoadedTo h loadSize)
    (hu : UnfilledFrom h loadSize) (hp : loadSize ≤ h.poolSize) : PoolInvariant h ∧ InPool h := by
  -- The load puts item `k` into the slot of key `k`, and leaves the others without.
  have haddr : ∀ p a, InTable p → (h.slot p).addr = some a → a < loadSize := by
    intro p a hp ha
    rcases loadSlot_surjective p.1 p.2 hp.1 hp.2 with ⟨heq, hmax⟩
    rw [show p = (p.1, p.2) from rfl, heq] at ha
    by_cases hk : p.2 * maxPool + p.1 < loadSize
    · rw [(hl.full _ hk).2, Option.some.injEq] at ha
      omega
    · rw [hu _ (by omega) hmax] at ha
      exact absurd ha (by simp only [reduceCtorEq, not_false_eq_true])
  refine ⟨⟨fun p a hp ha => ?_, Nat.le_of_eq hl.index.symm, hp, fun b hb => ?_⟩, haddr⟩
  · rw [hl.index]
    exact haddr p a hp ha
  · rcases loadSlot_surjective b 6 hb (by decide) with ⟨heq, hmax⟩
    rw [heq]
    exact hl.free _ (by simp only [loadSize, maxPool]; omega) hmax

/-- A run from the loaded table keeps to the pool exactly if it deletes only. In
    every state any run reaches, the item handed out next is not in use. -/
theorem pool_safe_iff (draws : Nat → Nat) (randMax : Nat) (txt : Nat → Byte) (h : HashTable)
    (hi : h.index = 0) (hpool : loadSize ≤ h.poolSize) (ops : List TableOp) :
    ∃ h₀, hashTableInitialize draws randMax txt (hashtableCreate h maxPool) loadSize = some h₀ ∧
      (Throughout callStep (fun t => InPool t ∧ NotReused t) ops h₀ ↔
        ∀ op ∈ ops, DeletesInside op) ∧
      ∀ t, run callStep ops h₀ = some t → NotReused t := by
  rcases initialize_unfilledFrom draws randMax txt h loadSize hi (by decide) (by decide) hpool with
    ⟨h₀, hload, hl, hp, hu⟩
  rcases poolInvariant_loaded h₀ hl hu (by rw [hp]; exact hpool) with ⟨hI, hP⟩
  refine ⟨h₀, hload, pool_run_iff h₀ hI hP ops, fun t hrun => ?_⟩
  -- The second half needs no condition on the run.
  exact notReused_of_belowIndex t (run_invariant_along callStep (fun _ _ => True) BelowIndex
    (fun s op s' hb _ hstep => belowIndex_step s s' op hb hstep) ops h₀ t hI.below
    (along_true callStep ops h₀) hrun)

theorem pool_safe_iff_deletes : ∃ h₀,
    hashTableInitialize id 2147483647 (fun _ => 0) (hashtableCreate roomyMemory maxPool) loadSize =
      some h₀ ∧
      Throughout callStep (fun t => InPool t ∧ NotReused t) [.delete 5, .delete 3999999] h₀ := by
  rcases pool_safe_iff id 2147483647 (fun _ => 0) roomyMemory rfl (by decide)
    [.delete 5, .delete 3999999] with ⟨h₀, hload, hiff, _⟩
  exact ⟨h₀, hload, hiff.mpr (by decide)⟩

/-- The first update after the load stores the address past the last item. -/
theorem update_leaves_pool : ∃ h₀ t,
    hashTableInitialize id 2147483647 (fun _ => 0) (hashtableCreate roomyMemory maxPool) loadSize =
      some h₀ ∧ run callStep [.update 0 (fun _ => 65) 20] h₀ = some t ∧
      (t.slot (0, 0)).addr = some 4000000 ∧ ¬ InPool t := by
  rcases initialize_serving id 2147483647 (fun _ => 0) roomyMemory rfl (by decide) with
    ⟨h₀, hload, hs, hindex, hp⟩
  rcases search_loaded h₀ h₀ loadSize hs 0 (by decide) with ⟨a, hlt, hsearch⟩
  have hup := update_spec h₀ _ a 0 (fun _ => 65) 20 hsearch (by omega) (by decide) (by decide)
    (by rw [hindex, hp]; decide)
  have haddr : ((updated h₀ (loadSlot 0) a 0 (fun _ => 65) 20).slot (0, 0)).addr =
      some 4000000 := by
    rw [show ((0, 0) : Nat × Nat) = loadSlot 0 from rfl, updated_slot, hindex]
  refine ⟨h₀, _, hload, run_cons callStep _ [] h₀ _ (by rw [callStep, hup]; rfl), haddr,
    fun hin => ?_⟩
  exact absurd (hin (0, 0) _ (by decide) haddr) (by decide)

end HydraDB

end LocalKeyValue
