import LocalKeyValue.HydraDB.Map

/-!
# The Flags of HydraDB Items

The flag of an item says that an update has put another in its place. An update
sets the flag of the item it replaces. An insert clears the flag of the item it
fills, and an update does not: it leaves the flag that the memory of the pool
had. So a key that has been updated is found with a clear flag just when the
pool's memory happened to be clear there. The flags of the items replaced are
always set, and stay so.

## Main definitions

* `flagStep`: A call, with a record of the items replaced.
* `FlagsRight`: What the flags should say.
* `Cleared`: The item an update is going to fill has a clear flag.

## Theorems

* `flagsRight_iff`: What the flags should say, on the cells.
* `flags_step_iff`: A call keeps them right just when the item is cleared.
* `flags_right_iff`: The same over a run.
-/

namespace LocalKeyValue

namespace HydraDB

open Cells Run

/-- The table and the ledger, with the items that updates have replaced. -/
abbrev Replaced := (HashTable × Ledger) × List Nat

/-- A call, with a record of the item it replaces. -/
def flagStep (s : Replaced) (op : TableOp) : Option Replaced :=
  match opStep s.1 op with
  | none => none
  | some t => some (t, match op with
    | .insert _ _ _ => s.2
    | .update key _ _ => (s.1.2 key).toList.map Entry.item ++ s.2
    | .delete _ => s.2)

/-- Each key that is there is found with a clear flag, and the items replaced have
    theirs set. -/
def FlagsRight (s : Replaced) : Prop :=
  (∀ k, s.1.2 k ≠ none → ∃ p a, Finds s.1.1 k p a ∧ (s.1.1.buckets a).flag = 0) ∧
    ∀ a ∈ s.2, (s.1.1.buckets a).flag = 1

/-- The item an update is going to fill has a clear flag. -/
def Cleared (s : Replaced) : TableOp → Prop
  | .insert _ _ _ => True
  | .update _ _ _ => (s.1.1.buckets s.1.1.index).flag = 0
  | .delete _ => True

instance (s : Replaced) (op : TableOp) : Decidable (Cleared s op) :=
  match op with
  | .insert _ _ _ => isTrue trivial
  | .update _ _ _ => inferInstanceAs (Decidable ((s.1.1.buckets s.1.1.index).flag = 0))
  | .delete _ => isTrue trivial

/-- The items of the slots in use have clear flags. -/
def LiveClear (h : HashTable) : Prop :=
  ∀ p k e, cells h p = some (k, e) → (h.buckets e.item).flag = 0

/-- The item has been handed out and is in no slot in use. -/
def Retired (h : HashTable) (a : Nat) : Prop :=
  a < h.index ∧ ∀ p k e, cells h p = some (k, e) → e.item ≠ a

/-- The invariant: the ledger matches, and the items replaced are retired. -/
structure FlagsOk (s : Replaced) : Prop where
  map : MapOk s.1
  retired : ∀ a ∈ s.2, Retired s.1.1 a

/-- What a search returns is the item of the key's cell. -/
theorem flagsRight_iff (s : Replaced) (hs : MapOk s.1) :
    FlagsRight s ↔ LiveClear s.1.1 ∧ ∀ a ∈ s.2, (s.1.1.buckets a).flag = 1 := by
  refine and_congr_left fun _ => ⟨fun hflags p k e hp => ?_, fun hlive k hk => ?_⟩
  · have hk := (hs.rep k e).mp ⟨p, hp⟩
    rcases hflags k (by rw [hk]; simp only [ne_eq, reduceCtorEq, not_false_eq_true]) with
      ⟨q, a, hfinds, hflag⟩
    have hcell := finds_of_cell s.1 hs p k e hp
    unfold Finds at hcell hfinds
    rw [hcell, Option.some.injEq, SearchReturn.mk.injEq, Option.some.injEq,
      Option.some.injEq] at hfinds
    rw [hfinds.2.1]
    exact hflag
  · rcases Option.ne_none_iff_exists'.mp hk with ⟨e, he⟩
    rcases cell_of_entry s.1 hs k e he with ⟨p, hp⟩
    exact ⟨p, e.item, finds_of_cell s.1 hs p k e hp, hlive p k e hp⟩

theorem not_retired_index (h : HashTable) (a : Nat) (hr : Retired h a) : a ≠ h.index :=
  Nat.ne_of_lt hr.1

/-- A write retires no item it does not replace. -/
theorem retired_write (h h' : HashTable) (p : Nat × Nat) (k : Int) (size : Nat) (ok : SlotsOk h)
    (hw : Writes h h' p k size) (hin : InTable p) (a : Nat) (ha : a < h.index)
    (hother : ∀ q k e, q ≠ p → cells h q = some (k, e) → e.item ≠ a) : Retired h' a := by
  refine ⟨by rw [hw.index]; omega, fun q k' e hq => ?_⟩
  rw [cells_write h h' p k size ok hw hin] at hq
  by_cases hqp : q = p
  · rw [hqp, Function.update_self, Option.some.injEq, Prod.mk.injEq] at hq
    rw [← hq.2]
    exact Nat.ne_of_gt ha
  · rw [Function.update_of_ne hqp] at hq
    exact hother q k' e hqp hq

/-- Two cells have different items. -/
theorem cell_item_ne (h : HashTable) (ok : SlotsOk h) (p q : Nat × Nat) (k k' : Int) (e e' : Entry)
    (hp : cells h p = some (k, e)) (hq : cells h q = some (k', e')) (hne : q ≠ p) :
    e'.item ≠ e.item := by
  rcases (cells_eq_some h p k e).mp hp with ⟨hin, _, ha, _, _⟩
  rcases (cells_eq_some h q k' e').mp hq with ⟨hin', _, ha', _, _⟩
  exact fun hc => hne (ok.distinct q p e'.item hin' hin ha' (by rw [hc]; exact ha))

/-- The flags after a write are right if those of the items of before are and the
    new one's is clear. -/
theorem liveClear_write_iff (h h' : HashTable) (p : Nat × Nat) (k : Int) (size : Nat)
    (ok : SlotsOk h) (hw : Writes h h' p k size) (hin : InTable p) (hlive : LiveClear h)
    (hold : ∀ q k e, q ≠ p → cells h q = some (k, e) →
      (h'.buckets e.item).flag = (h.buckets e.item).flag) :
    LiveClear h' ↔ (h'.buckets h.index).flag = 0 := by
  have hcells := cells_write h h' p k size ok hw hin
  constructor
  · intro hc
    exact hc p k { item := h.index, size := size } (by rw [hcells, Function.update_self])
  · intro hnew q k' e hq
    rw [hcells] at hq
    by_cases hqp : q = p
    · rw [hqp, Function.update_self, Option.some.injEq, Prod.mk.injEq] at hq
      rw [← hq.2]
      exact hnew
    · rw [Function.update_of_ne hqp] at hq
      rw [hold q k' e hqp hq]
      exact hlive q k' e hq

/-! ## The calls -/

/-- An insert clears the flag of the item it fills. -/
theorem flags_inserted (s : Replaced) (ok : FlagsOk s) (hP : FlagsRight s) (key : Int)
    (value : Nat → Byte) (size : Int) (i : Nat) (hc : allowed s.1 (.insert key value size))
    (hroom : s.1.1.index < s.1.1.poolSize) (hi : i < slots) (m : Ledger)
    (hm : MapOk (inserted s.1.1 (calcHash key, i) key value size, m)) :
    FlagsOk ((inserted s.1.1 (calcHash key, i) key value size, m), s.2) ∧
      FlagsRight ((inserted s.1.1 (calcHash key, i) key value size, m), s.2) := by
  rcases hc with ⟨hpos, _, h0, h32⟩
  have oks := slotsOk_of_mapOk s.1 ok.map
  have hin : InTable (calcHash key, i) := ⟨calcHash_lt key (Int.le_of_lt hpos), hi⟩
  have hw := writes_inserted s.1.1 (calcHash key, i) key value size h0 h32 hroom
  rcases (flagsRight_iff s ok.map).mp hP with ⟨hlive, hset⟩
  refine ⟨⟨hm, fun a ha => ?_⟩, (flagsRight_iff _ hm).mpr ⟨?_, fun a ha => ?_⟩⟩
  · rcases ok.retired a ha with ⟨hlt, hne⟩
    exact retired_write _ _ _ key _ oks hw hin a hlt (fun q k e _ hq => hne q k e hq)
  · refine (liveClear_write_iff _ _ _ key _ oks hw hin hlive fun q k e _ hq => ?_).mpr
      (by rw [inserted_new])
    rw [inserted_other _ _ _ _ _ e.item (item_ne_index s.1 ok.map q k e hq)]
  · change ((inserted s.1.1 (calcHash key, i) key value size).buckets a).flag = 1
    rw [inserted_other _ _ _ _ _ a (not_retired_index _ a (ok.retired a ha))]
    exact hset a ha

/-- An update sets one flag, and leaves the flag of the item it fills. -/
theorem flags_updated (s : Replaced) (ok : FlagsOk s) (hP : FlagsRight s) (key : Int)
    (value : Nat → Byte) (size : Int) (p : Nat × Nat) (e : Entry)
    (hc : allowed s.1 (.update key value size)) (hroom : s.1.1.index < s.1.1.poolSize)
    (hp : cells s.1.1 p = some (key, e)) (m : Ledger)
    (hm : MapOk (updated s.1.1 p e.item key value size, m)) :
    FlagsOk ((updated s.1.1 p e.item key value size, m), e.item :: s.2) ∧
      (FlagsRight ((updated s.1.1 p e.item key value size, m), e.item :: s.2) ↔
        (s.1.1.buckets s.1.1.index).flag = 0) := by
  rcases hc with ⟨_, _, h0, h32⟩
  have oks := slotsOk_of_mapOk s.1 ok.map
  rcases (cells_eq_some s.1.1 p key e).mp hp with ⟨hin, hbusy, haddr, _, _⟩
  have hw := writes_updated s.1.1 p e.item key value size hbusy h0 h32 hroom
  have hitem := item_ne_index s.1 ok.map p key e hp
  rcases (flagsRight_iff s ok.map).mp hP with ⟨hlive, hset⟩
  have hother : ∀ q k e', q ≠ p → cells s.1.1 q = some (k, e') → e'.item ≠ e.item :=
    fun q k e' hqp hq => cell_item_ne s.1.1 oks p q key k e e' hp hq hqp
  -- The items replaced before have their flags set, and so has the one replaced now.
  have hset' : ∀ a ∈ e.item :: s.2,
      ((updated s.1.1 p e.item key value size).buckets a).flag = 1 := by
    intro a ha
    by_cases hae : a = e.item
    · rw [hae, updated_old _ _ _ _ _ _ hitem]
    · have ha' := (List.mem_cons.mp ha).resolve_left hae
      rw [updated_other _ _ _ _ _ _ a (not_retired_index _ a (ok.retired a ha')) hae]
      exact hset a ha'
  refine ⟨⟨hm, fun a ha => ?_⟩, ?_⟩
  · rcases List.mem_cons.mp ha with rfl | ha
    · exact retired_write _ _ p key _ oks hw hin e.item (oks.below p e.item hin haddr) hother
    · rcases ok.retired a ha with ⟨hlt, hne⟩
      exact retired_write _ _ p key _ oks hw hin a hlt (fun q k e' _ hq => hne q k e' hq)
  · rw [flagsRight_iff _ hm]
    have hiff := liveClear_write_iff _ _ p key _ oks hw hin hlive fun q k e' hqp hq => by
      rw [updated_other _ _ _ _ _ _ e'.item (item_ne_index s.1 ok.map q k e' hq)
        (hother q k e' hqp hq)]
    rw [updated_new] at hiff
    exact ⟨fun h => hiff.mp h.1, fun h => ⟨hiff.mpr h, hset'⟩⟩

/-- A delete leaves the flags. -/
theorem flags_deleted (s : Replaced) (ok : FlagsOk s) (hP : FlagsRight s) (key : Int)
    (p : Nat × Nat) (e : Entry) (hp : cells s.1.1 p = some (key, e)) (m : Ledger)
    (hm : MapOk (deleted s.1.1 p e.item, m)) :
    FlagsOk ((deleted s.1.1 p e.item, m), s.2) ∧ FlagsRight ((deleted s.1.1 p e.item, m), s.2) := by
  have oks := slotsOk_of_mapOk s.1 ok.map
  rcases (flagsRight_iff s ok.map).mp hP with ⟨hlive, hset⟩
  have hflag : ∀ a, ((deleted s.1.1 p e.item).buckets a).flag = (s.1.1.buckets a).flag := by
    intro a
    by_cases hae : a = e.item
    · rw [hae, deleted_item]
    · rw [deleted_item_other s.1.1 p e.item a hae]
  -- A cell that is left is one of before.
  have hcell : ∀ q k e', cells (deleted s.1.1 p e.item) q = some (k, e') →
      cells s.1.1 q = some (k, e') := by
    intro q k e' hq
    rw [cells_deleted s.1.1 oks p key e hp] at hq
    by_cases hqp : q = p
    · rw [hqp, Function.update_self] at hq
      exact absurd hq (by simp only [reduceCtorEq, not_false_eq_true])
    · rwa [Function.update_of_ne hqp] at hq
  refine ⟨⟨hm, fun a ha => ?_⟩, (flagsRight_iff _ hm).mpr ⟨fun q k e' hq => ?_, fun a ha => ?_⟩⟩
  · rcases ok.retired a ha with ⟨hlt, hne⟩
    exact ⟨hlt, fun q k e' hq => hne q k e' (hcell q k e' hq)⟩
  · rw [hflag]
    exact hlive q k e' (hcell q k e' hq)
  · rw [hflag]
    exact hset a ha

/-- A call keeps the flags right just when the item it fills is cleared. -/
theorem flags_step_iff (s s' : Replaced) (op : TableOp) (ok : FlagsOk s) (hP : FlagsRight s)
    (hc : allowed s.1 op) (hstep : flagStep s op = some s') :
    (FlagsRight s' ↔ Cleared s op) ∧ FlagsOk s' := by
  unfold flagStep at hstep
  cases hop : opStep s.1 op with
  | none => rw [hop] at hstep; exact absurd hstep (by simp only [reduceCtorEq, not_false_eq_true])
  | some t =>
      rw [hop, Option.some.injEq] at hstep
      subst hstep
      cases op with
      | insert key value size =>
          simp only [opStep] at hop
          cases hins : hashtableInsert s.1.1 key value size with
          | none => rw [hins] at hop; simp only [reduceCtorEq] at hop
          | some hr =>
              rcases hr with ⟨h', r⟩
              rw [hins] at hop
              simp only [Option.some.injEq] at hop
              subst hop
              rcases insert_cases _ _ key value size r hins with ⟨hb, ⟨_, rfl, rfl⟩ | ⟨i, hi, hfree,
                hbusy, hroom, _, _, rfl, rfl⟩⟩
              · -- A refused insert changes nothing.
                rw [if_neg (by decide)]
                exact ⟨iff_of_true hP trivial, ok⟩
              · have oks := slotsOk_of_mapOk s.1 ok.map
                have hbefore : ∀ l, l < i → (s.1.1.slot (calcHash key, l)).addr ≠ none :=
                  fun l hl => oks.busy_addr _ ⟨hb, Nat.lt_trans hl hi⟩ (hbusy l hl)
                rw [if_pos rfl]
                rcases flags_inserted s ok hP key value size i hc hroom hi _
                  (mapOk_inserted s.1 ok.map key value size i hc hroom hi hfree hbefore) with
                  ⟨hok', hP'⟩
                exact ⟨iff_of_true hP' trivial, hok'⟩
      | update key value size =>
          rcases Option.ne_none_iff_exists'.mp hc.2.1 with ⟨e, he⟩
          rcases cell_of_entry s.1 ok.map key e he with ⟨p, hp⟩
          simp only [opStep] at hop
          cases hup : updateHashKey s.1.1 key value size with
          | none => rw [hup] at hop; simp only [reduceCtorEq] at hop
          | some hr =>
              rcases hr with ⟨h', r⟩
              rw [hup] at hop
              simp only [Option.some.injEq] at hop
              subst hop
              have hroom : s.1.1.index < s.1.1.poolSize := by
                rcases update_cases _ _ key value size r hup with ⟨_, _, _, hroom, _⟩
                exact hroom
              have hres := update_spec s.1.1 p e.item key value size
                (finds_of_cell s.1 ok.map p key e hp) (item_ne_index s.1 ok.map p key e hp)
                hc.2.2.1 hc.2.2.2 hroom
              rw [hres, Option.some.injEq, Prod.mk.injEq] at hup
              rw [← hup.1]
              rcases flags_updated s ok hP key value size p e hc hroom hp _
                (mapOk_updated s.1 ok.map key value size p e hc hroom hp) with ⟨hok', hiff⟩
              simp only [he, Option.toList_some, List.map_cons, List.map_nil, List.singleton_append]
              exact ⟨hiff, hok'⟩
      | delete key =>
          rcases Option.ne_none_iff_exists'.mp hc.2 with ⟨e, he⟩
          rcases cell_of_entry s.1 ok.map key e he with ⟨p, hp⟩
          rw [opStep, delete_entry s.1.1 (slotsOk_of_mapOk s.1 ok.map) p key e hp,
            Option.some.injEq] at hop
          subst hop
          rcases flags_deleted s ok hP key p e hp _ (mapOk_deleted s.1 ok.map key p e hp) with
            ⟨hok', hP'⟩
          exact ⟨iff_of_true hP' trivial, hok'⟩

/-- From a table that `hashtable_create` has made, with whatever the pool holds, a
    run of allowed calls keeps the flags right just when the item that each update
    fills has a clear flag. -/
theorem flags_right_iff (h : HashTable) (hi : h.index = 0) (ops : List TableOp) (t : Replaced)
    (hok : Along flagStep (fun s op => allowed s.1 op) ops
      ((hashtableCreate h maxPool, fun _ => none), []))
    (hrun : run flagStep ops ((hashtableCreate h maxPool, fun _ => none), []) = some t) :
    Throughout flagStep FlagsRight ops ((hashtableCreate h maxPool, fun _ => none), []) ↔
      Along flagStep Cleared ops ((hashtableCreate h maxPool, fun _ => none), []) := by
  refine throughout_iff_along_of flagStep
    (fun s op => allowed s.1 op ∧ ∃ s', flagStep s op = some s') Cleared FlagsOk FlagsRight
    (fun s op ok hP hpre => ?_) ops _ ⟨mapOk_create h hi, fun a ha => absurd ha List.not_mem_nil⟩
    ⟨fun k hk => absurd rfl hk, fun a ha => absurd ha List.not_mem_nil⟩
    ((along_and flagStep _ _ ops _).mpr ⟨hok, along_of_run flagStep ops _ t hrun⟩)
  rcases hpre with ⟨hc, s', hs'⟩
  refine ⟨?_, fun s'' hs'' _ => (flags_step_iff s s'' op ok hP hc hs'').2⟩
  rw [← (flags_step_iff s s' op ok hP hc hs').1]
  simp only [hs', Option.some.injEq, exists_eq_left']

/-- In memory with clear flags a key is inserted, updated and deleted. -/
theorem flags_right_iff_clear :
    Throughout flagStep FlagsRight [.insert 5 (fun _ => 65) 3, .update 5 (fun _ => 66) 20,
      .delete 5] ((hashtableCreate { onesMemory with
        buckets := fun _ => { key := 1, flag := 0, p := fun _ => 1 } } maxPool,
        fun _ => none), []) := by
  have hrun : ∃ t ∈ run flagStep [.insert 5 (fun _ => 65) 3, .update 5 (fun _ => 66) 20, .delete 5]
      ((hashtableCreate { onesMemory with
        buckets := fun _ => { key := 1, flag := 0, p := fun _ => 1 } } maxPool,
        fun _ => none), []), t.1.1.index = 2 := by decide +kernel
  rcases hrun with ⟨t, hrun, _⟩
  exact (flags_right_iff _ rfl _ t (by decide +kernel) hrun).mpr (by decide +kernel)

/-- In memory that holds ones, key 5 is found with flag 1 once it has been updated. -/
theorem update_leaves_flag :
    ∃ t, run flagStep [.insert 5 (fun _ => 65) 3, .update 5 (fun _ => 66) 20]
        ((hashtableCreate onesMemory maxPool, fun _ => none), []) = some t ∧
      t.1.2 5 = some { item := 1, size := 20 } ∧
      hashtableSearch t.1.1 5 = some {
        descriptor := some (5, 0), keyAddress := some 1, extEnabled := 0 } ∧
      (t.1.1.buckets 1).flag = 1 := by
  have hrun : ∃ t ∈ run flagStep [.insert 5 (fun _ => 65) 3, .update 5 (fun _ => 66) 20]
      ((hashtableCreate onesMemory maxPool, fun _ => none), []),
      t.1.2 5 = some { item := 1, size := 20 } ∧ hashtableSearch t.1.1 5 = some {
        descriptor := some (5, 0), keyAddress := some 1, extEnabled := 0 } ∧
      (t.1.1.buckets 1).flag = 1 := by decide +kernel
  exact hrun

end HydraDB

end LocalKeyValue
