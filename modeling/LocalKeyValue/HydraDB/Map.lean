import LocalKeyValue.HydraDB.Invariant
import LocalKeyValue.Lib.Run

/-!
# The HydraDB Table as a Map

Runs of inserts, updates and deletes on a table `hashtable_create` has made,
with a ledger of what the callers have been told: a key enters it when its
insert returns 0, with the item and the size it was given, takes a new item and
a new size on an update, and leaves it on a delete.

The cells of the table represent the ledger after any such run of calls on
positive keys, each call on a key that is there or is not there as it should be,
and with an item of the pool for each insert and update. What the callers see
follows from the invariant of the table, `HashOk`.

## Main definitions

* `TableOp`, `opStep`: The calls, and a call on table and ledger.
* `allowed`: The calls a client may make.
* `HasRoom`: The pool has an item for the call.
* `SevenShare`: Seven keys of the ledger share a key's bucket.
* `Serves`: What the callers see.

## Theorems

* `sevenShare_of_full`, `full_of_sevenShare`: A bucket is full when seven keys
  share it.
* `mapOk_step`: A call keeps the match of the cells and the ledger.
* `create_run_serves`: Any run of allowed calls serves its callers.
-/

namespace LocalKeyValue

namespace HydraDB

open Cells Run

/-- A call on the table. -/
inductive TableOp
  | insert (key : Int) (value : Nat → Byte) (size : Int)
  | update (key : Int) (value : Nat → Byte) (size : Int)
  | delete (key : Int)

/-- The key a call is on. -/
def TableOp.key : TableOp → Int
  | .insert key _ _ => key
  | .update key _ _ => key
  | .delete key => key

/-- The keys the callers have been told are there, with the item and the size of
    the last write. -/
abbrev Ledger := Int → Option Entry

/-- A call on the table, entered in the ledger by its result. -/
def opStep (s : HashTable × Ledger) : TableOp → Option (HashTable × Ledger)
  | .insert key value size =>
    match hashtableInsert s.1 key value size with
    | none => none
    | some (h, r) => some (h, if r = 0 then
        Function.update s.2 key (some { item := s.1.index, size := size.toNat }) else s.2)
  | .update key value size =>
    match updateHashKey s.1 key value size with
    | none => none
    | some (h, _) =>
      some (h, Function.update s.2 key (some { item := s.1.index, size := size.toNat }))
  | .delete key =>
    match hashtableDelete s.1 key with
    | none => none
    | some h => some (h, Function.update s.2 key none)

/-- The calls a client may make: on positive keys, an insert only of a key that
    is not there and the others only of one that is, with a value that fits. -/
def allowed (s : HashTable × Ledger) : TableOp → Prop
  | .insert key _ size => 0 < key ∧ s.2 key = none ∧ 0 ≤ size ∧ size ≤ keySize
  | .update key _ size => 0 < key ∧ s.2 key ≠ none ∧ 0 ≤ size ∧ size ≤ keySize
  | .delete key => 0 < key ∧ s.2 key ≠ none

instance (s : HashTable × Ledger) (op : TableOp) : Decidable (allowed s op) :=
  match op with
  | .insert key _ size =>
      inferInstanceAs (Decidable (0 < key ∧ s.2 key = none ∧ 0 ≤ size ∧ size ≤ keySize))
  | .update key _ size =>
      inferInstanceAs (Decidable (0 < key ∧ s.2 key ≠ none ∧ 0 ≤ size ∧ size ≤ keySize))
  | .delete key => inferInstanceAs (Decidable (0 < key ∧ s.2 key ≠ none))

/-- How many items of the pool a call may need. -/
def TableOp.writes : TableOp → Nat
  | .insert _ _ _ => 1
  | .update _ _ _ => 1
  | .delete _ => 0

/-- The pool has an item for the call. -/
def HasRoom (s : HashTable × Ledger) (op : TableOp) : Prop :=
  s.1.index + op.writes ≤ s.1.poolSize

/-- Seven keys of the ledger have the bucket of `key`. -/
def SevenShare (m : Ledger) (key : Int) : Prop :=
  ∃ ks : List Int, ks.length = slots ∧ ks.Nodup ∧
    ∀ k ∈ ks, m k ≠ none ∧ calcHash k = calcHash key

/-- The search returns slot `p` and item `a`. -/
def Finds (h : HashTable) (key : Int) (p : Nat × Nat) (a : Nat) : Prop :=
  hashtableSearch h key = some { descriptor := some p, keyAddress := some a, extEnabled := 0 }

/-- What the callers see of a table. -/
structure Serves (s : HashTable × Ledger) : Prop where
  /-- A key that is there is found in a busy slot of its bucket, which points to
      the item of its last write and has that write's size. -/
  finds : ∀ k e, s.2 k = some e → ∃ i, i < slots ∧ Finds s.1 k (calcHash k, i) e.item ∧
    (s.1.slot (calcHash k, i)).busy ≠ 0 ∧ (s.1.slot (calcHash k, i)).addr = some e.item ∧
    (s.1.slot (calcHash k, i)).size.toNat = e.size ∧ (s.1.buckets e.item).key = k
  /-- An insert is refused when seven keys share the bucket, and else it is found. -/
  inserts : ∀ k value size, allowed s (.insert k value size) → s.1.index < s.1.poolSize →
    ∃ h r, hashtableInsert s.1 k value size = some (h, r) ∧ (r = -1 ↔ SevenShare s.2 k) ∧
      (r ≠ -1 → r = 0 ∧ ∃ p, Finds h k p s.1.index)
  /-- No two slots in use point to one item, and the items are below `index_`. -/
  distinct : ∀ p q a, InTable p → InTable q → (s.1.slot p).busy ≠ 0 → (s.1.slot q).busy ≠ 0 →
    (s.1.slot p).addr = some a → (s.1.slot q).addr = some a → p = q ∧ a < s.1.index
  /-- A call on one key leaves the slot and the item of any other as they were. -/
  frame : ∀ op, allowed s op → HasRoom s op → ∃ s', opStep s op = some s' ∧ ∀ k e, k ≠ op.key →
    s.2 k = some e → s'.2 k = some e ∧ ∃ p, Finds s.1 k p e.item ∧ Finds s'.1 k p e.item ∧
      s'.1.slot p = s.1.slot p ∧ s'.1.buckets e.item = s.1.buckets e.item

/-- The table keeps its invariant and its cells are the ledger's entries. -/
structure MapOk (s : HashTable × Ledger) : Prop where
  ok : HashOk s.1
  rep : Represents (cells s.1) s.2

theorem mapOk_create (h : HashTable) (hi : h.index = 0) :
    MapOk (hashtableCreate h maxPool, fun _ => none) := by
  refine ⟨hashOk_create h hi, fun k e => ⟨?_, fun hc => absurd hc
    (by simp only [reduceCtorEq, not_false_eq_true])⟩⟩
  intro hh
  rcases hh with ⟨p, hp⟩
  rcases (cells_eq_some _ p k e).mp hp with ⟨hin, hb, _⟩
  simp only [hashtableCreate, if_pos (show p.1 < maxPool ∧ p.2 < slots from hin)] at hb
  exact absurd rfl hb

/-- The cell of a key that is there. -/
theorem cell_of_entry (s : HashTable × Ledger) (hs : MapOk s) (k : Int) (e : Entry)
    (hk : s.2 k = some e) : ∃ p, cells s.1 p = some (k, e) :=
  (hs.rep k e).mpr hk

theorem slotsOk_of_mapOk (s : HashTable × Ledger) (hs : MapOk s) : SlotsOk s.1 :=
  hs.ok.toSlotsOk

theorem not_present (s : HashTable × Ledger) (hs : MapOk s) (k : Int) (hk : s.2 k = none) :
    ¬ Present (cells s.1) k := by
  intro hp
  rcases hp with ⟨e, hh⟩
  have he := (hs.rep k e).mp hh
  rw [hk] at he
  exact absurd he (by simp only [reduceCtorEq, not_false_eq_true])

/-! ## Full buckets -/

/-- A bucket whose slots are all busy holds seven keys. -/
theorem sevenShare_of_full (s : HashTable × Ledger) (hs : MapOk s) (key : Int) (hk : 0 ≤ key)
    (hfull : ∀ i, i < slots → (s.1.slot (calcHash key, i)).busy ≠ 0) : SevenShare s.2 key := by
  have hb := calcHash_lt key hk
  have hcell : ∀ i, i < slots → ∃ k e, cells s.1 (calcHash key, i) = some (k, e) := by
    intro i hi
    have hin : InTable (calcHash key, i) := ⟨hb, hi⟩
    rcases Option.ne_none_iff_exists'.mp (hs.ok.busy_addr _ hin (hfull i hi)) with ⟨a, ha⟩
    exact ⟨_, { item := a, size := _ },
      (cells_eq_some s.1 _ _ _).mpr ⟨hin, hfull i hi, ha, rfl, rfl⟩⟩
  -- The seven slots hold seven keys, no key being in two of them.
  choose! key' entry hkey using hcell
  refine ⟨(List.range slots).map key', by rw [List.length_map, List.length_range], ?_, ?_⟩
  · refine List.Nodup.map_on ?_ List.nodup_range
    intro i hi j hj hij
    rw [List.mem_range] at hi hj
    have hci := hkey i hi
    rw [hij] at hci
    exact congrArg Prod.snd (hs.ok.unique _ _ _ _ _ hci (hkey j hj))
  · intro k hk
    rcases List.mem_map.mp hk with ⟨i, hi, rfl⟩
    rw [List.mem_range] at hi
    have hc := hkey i hi
    refine ⟨?_, (hs.ok.live _ _ _ hc).2⟩
    rw [(hs.rep _ _).mp ⟨_, hc⟩]
    simp only [ne_eq, reduceCtorEq, not_false_eq_true]

/-- Seven keys leave no slot of their bucket free: each has one of its own. -/
theorem full_of_sevenShare (s : HashTable × Ledger) (hs : MapOk s) (key : Int)
    (hseven : SevenShare s.2 key) :
    ∀ i, i < slots → (s.1.slot (calcHash key, i)).busy ≠ 0 := by
  intro j hj hfree
  rcases hseven with ⟨ks, hlen, hnodup, hks⟩
  have hslot : ∀ k ∈ ks, ∃ i, i < slots ∧ ∃ e, cells s.1 (calcHash key, i) = some (k, e) := by
    intro k hk
    rcases hks k hk with ⟨hne, hhash⟩
    rcases Option.ne_none_iff_exists'.mp hne with ⟨e, he⟩
    rcases cell_of_entry s hs k e he with ⟨p, hp⟩
    have hin := ((cells_eq_some s.1 p k e).mp hp).1
    have hp1 := (hs.ok.live p k e hp).2
    refine ⟨p.2, hin.2, e, ?_⟩
    rw [← hhash, hp1]
    exact hp
  choose! slot hlt entry hcell using hslot
  have hinj : ∀ k ∈ ks, ∀ k' ∈ ks, slot k = slot k' → k = k' := by
    intro k hk k' hk' heq
    have hc := hcell k hk
    rw [heq, hcell k' hk', Option.some.injEq, Prod.mk.injEq] at hc
    exact hc.1.symm
  -- Seven different slots, of the six that are left.
  have hsub : ks.map slot ⊆ (List.range slots).erase j := by
    intro i hi
    rcases List.mem_map.mp hi with ⟨k, hk, rfl⟩
    refine (List.nodup_range.mem_erase_iff).mpr ⟨?_, List.mem_range.mpr (hlt k hk)⟩
    intro heq
    have hbusy := ((cells_eq_some s.1 _ k _).mp (hcell k hk)).2.1
    rw [heq] at hbusy
    exact hbusy hfree
  have hle := ((hnodup.map_on hinj).subperm hsub).length_le
  rw [List.length_map, hlen, List.length_erase_of_mem (List.mem_range.mpr hj),
    List.length_range] at hle
  omega

/-! ## Calls -/

/-- Any two entries of the ledger are in different slots with different items. -/
theorem entry_ne (s : HashTable × Ledger) (hs : MapOk s) (p q : Nat × Nat) (k k' : Int)
    (e e' : Entry) (hp : cells s.1 p = some (k, e)) (hq : cells s.1 q = some (k', e'))
    (hne : k ≠ k') : p ≠ q ∧ e.item ≠ e'.item := by
  have hpq : p ≠ q := by
    intro hc
    rw [hc, hq, Option.some.injEq, Prod.mk.injEq] at hp
    exact hne hp.1.symm
  rcases (cells_eq_some s.1 p k e).mp hp with ⟨hinp, _, hap, _, _⟩
  rcases (cells_eq_some s.1 q k' e').mp hq with ⟨hinq, _, haq, _, _⟩
  exact ⟨hpq, fun hc => hpq (hs.ok.distinct p q e.item hinp hinq hap (by rw [hc]; exact haq))⟩

theorem finds_of_cell (s : HashTable × Ledger) (hs : MapOk s) (p : Nat × Nat) (k : Int)
    (e : Entry) (hp : cells s.1 p = some (k, e)) : Finds s.1 k p e.item :=
  search_entry s.1 (slotsOk_of_mapOk s hs) p k e hp (hs.ok.nonzero p k e hp)

theorem item_ne_index (s : HashTable × Ledger) (hs : MapOk s) (p : Nat × Nat) (k : Int)
    (e : Entry) (hp : cells s.1 p = some (k, e)) : e.item ≠ s.1.index := by
  rcases (cells_eq_some s.1 p k e).mp hp with ⟨hin, _, ha, _, _⟩
  have hlt := hs.ok.below p e.item hin ha
  omega

/-- What a call leaves alone: the slots and the items of the other keys. -/
def Frame (s s' : HashTable × Ledger) (key : Int) : Prop :=
  ∀ p k e, k ≠ key → cells s.1 p = some (k, e) →
    s'.1.slot p = s.1.slot p ∧ s'.1.buckets e.item = s.1.buckets e.item

/-- An insert that finds a slot. -/
theorem mapOk_inserted (s : HashTable × Ledger) (hs : MapOk s) (key : Int) (value : Nat → Byte)
    (size : Int) (i : Nat) (hok : allowed s (.insert key value size))
    (hroom : s.1.index < s.1.poolSize) (hi : i < slots)
    (hfree : (s.1.slot (calcHash key, i)).busy = 0)
    (hbefore : ∀ l, l < i → (s.1.slot (calcHash key, l)).addr ≠ none) :
    MapOk (inserted s.1 (calcHash key, i) key value size,
      Function.update s.2 key (some { item := s.1.index, size := size.toNat })) := by
  rcases hok with ⟨hpos, habs, h0, h32⟩
  have hin : InTable (calcHash key, i) := ⟨calcHash_lt key (by omega), hi⟩
  have hw := writes_inserted s.1 (calcHash key, i) key value size h0 h32 hroom
  have hnone := cells_eq_none s.1 (calcHash key, i) hfree
  refine ⟨hashOk_write s.1 _ _ key size.toNat hs.ok hw hin hpos rfl hbefore
    (keysUnique_put _ hs.ok.unique _ key _ (not_present s hs key habs)), ?_⟩
  rw [cells_write s.1 _ _ key size.toNat (slotsOk_of_mapOk s hs) hw hin]
  exact represents_put _ _ hs.rep _ key _ hnone habs

theorem frame_inserted (s : HashTable × Ledger) (hs : MapOk s) (key : Int) (value : Nat → Byte)
    (size : Int) (p : Nat × Nat) (m : Ledger) (hfree : (s.1.slot p).busy = 0) :
    Frame s (inserted s.1 p key value size, m) key := by
  intro q k e _ hq
  have hqp : q ≠ p := by
    intro hc
    rw [hc, cells_eq_none s.1 p hfree] at hq
    exact absurd hq (by simp only [reduceCtorEq, not_false_eq_true])
  exact ⟨inserted_slot_other s.1 p key value size q hqp,
    inserted_other s.1 p key value size e.item (item_ne_index s hs q k e hq)⟩

/-- An update of a key that is there. -/
theorem mapOk_updated (s : HashTable × Ledger) (hs : MapOk s) (key : Int) (value : Nat → Byte)
    (size : Int) (p : Nat × Nat) (e : Entry) (hok : allowed s (.update key value size))
    (hroom : s.1.index < s.1.poolSize) (hp : cells s.1 p = some (key, e)) :
    MapOk (updated s.1 p e.item key value size,
      Function.update s.2 key (some { item := s.1.index, size := size.toNat })) := by
  rcases hok with ⟨hpos, _, h0, h32⟩
  rcases (cells_eq_some s.1 p key e).mp hp with ⟨hin, hbusy, haddr, _, _⟩
  have hw := writes_updated s.1 p e.item key value size hbusy h0 h32 hroom
  refine ⟨hashOk_write s.1 _ p key size.toNat hs.ok hw hin hpos (hs.ok.live p key e hp).2
    (fun l hl => hs.ok.addr_prefix p.1 l p.2 hin.1 (by omega) hin.2 (by
      rw [haddr]
      simp only [ne_eq, reduceCtorEq, not_false_eq_true]))
    (keysUnique_set _ hs.ok.unique p key e _ hp), ?_⟩
  rw [cells_write s.1 _ p key size.toNat (slotsOk_of_mapOk s hs) hw hin]
  exact represents_set _ hs.ok.unique _ hs.rep p key e _ hp

theorem frame_updated (s : HashTable × Ledger) (hs : MapOk s) (key : Int) (value : Nat → Byte)
    (size : Int) (p : Nat × Nat) (e : Entry) (m : Ledger) (hp : cells s.1 p = some (key, e)) :
    Frame s (updated s.1 p e.item key value size, m) key := by
  intro q k e' hk hq
  rcases entry_ne s hs q p k key e' e hq hp hk with ⟨hqp, hitem⟩
  exact ⟨updated_slot_other s.1 p e.item key value size q hqp,
    updated_other s.1 p e.item key value size e'.item (item_ne_index s hs q k e' hq) hitem⟩

/-- A delete of a key that is there. -/
theorem mapOk_deleted (s : HashTable × Ledger) (hs : MapOk s) (key : Int) (p : Nat × Nat)
    (e : Entry) (hp : cells s.1 p = some (key, e)) :
    MapOk (deleted s.1 p e.item, Function.update s.2 key none) := by
  refine ⟨hashOk_deleted s.1 hs.ok p key e hp, ?_⟩
  rw [cells_deleted s.1 (slotsOk_of_mapOk s hs) p key e hp]
  exact represents_clear _ hs.ok.unique _ hs.rep p key e hp

theorem frame_deleted (s : HashTable × Ledger) (hs : MapOk s) (key : Int) (p : Nat × Nat)
    (e : Entry) (m : Ledger) (hp : cells s.1 p = some (key, e)) :
    Frame s (deleted s.1 p e.item, m) key := by
  intro q k e' hk hq
  rcases entry_ne s hs q p k key e' e hq hp hk with ⟨hqp, hitem⟩
  exact ⟨deleted_slot_other s.1 p e.item q hqp, deleted_item_other s.1 p e.item e'.item hitem⟩

/-- What a call does to the rest: the other keys, in the table and the ledger,
    stay as they are, and the pool loses an item at most. -/
structure Bounded (s s' : HashTable × Ledger) (op : TableOp) : Prop where
  frame : Frame s s' op.key
  ledger : ∀ k, k ≠ op.key → s'.2 k = s.2 k
  index : s'.1.index ≤ s.1.index + op.writes
  pool : s'.1.poolSize = s.1.poolSize

/-- A call completes and keeps the match. -/
theorem mapOk_step (s : HashTable × Ledger) (hs : MapOk s) (op : TableOp) (hok : allowed s op)
    (hroom : HasRoom s op) : ∃ s', opStep s op = some s' ∧ MapOk s' ∧ Bounded s s' op := by
  cases op with
  | insert key value size =>
      have hok' := hok
      rcases hok' with ⟨hpos, habs, h0, h32⟩
      rcases insert_spec s.1 key value size (slotsOk_of_mapOk s hs) (by omega) h0 h32 hroom with
        ⟨_, hres⟩ | ⟨i, hi, hfree, hbefore, hres⟩
      · -- A refused insert changes neither side.
        refine ⟨(s.1, s.2), ?_, hs, fun _ _ _ _ _ => ⟨rfl, rfl⟩, fun _ _ => rfl,
          Nat.le_add_right _ _, rfl⟩
        simp only [opStep, hres, if_neg (by decide : ¬ (-1 : Int) = 0)]
      · refine ⟨_, ?_, mapOk_inserted s hs key value size i hok hroom hi hfree hbefore,
          frame_inserted s hs key value size _ _ hfree, fun k hk => Function.update_of_ne hk ..,
          Nat.le_refl _, rfl⟩
        simp only [opStep, hres, if_pos]
  | update key value size =>
      rcases Option.ne_none_iff_exists'.mp hok.2.1 with ⟨e, he⟩
      rcases cell_of_entry s hs key e he with ⟨p, hp⟩
      have hres := update_spec s.1 p e.item key value size (finds_of_cell s hs p key e hp)
        (item_ne_index s hs p key e hp) hok.2.2.1 hok.2.2.2 hroom
      refine ⟨_, ?_, mapOk_updated s hs key value size p e hok hroom hp,
        frame_updated s hs key value size p e _ hp, fun k hk => Function.update_of_ne hk ..,
        Nat.le_refl _, rfl⟩
      rw [opStep, hres]
  | delete key =>
      rcases Option.ne_none_iff_exists'.mp hok.2 with ⟨e, he⟩
      rcases cell_of_entry s hs key e he with ⟨p, hp⟩
      refine ⟨_, ?_, mapOk_deleted s hs key p e hp, frame_deleted s hs key p e _ hp,
        fun k hk => Function.update_of_ne hk .., Nat.le_refl _, rfl⟩
      rw [opStep, delete_entry s.1 (slotsOk_of_mapOk s hs) p key e hp]

/-! ## What the callers see -/

/-- An insert is refused just when seven keys share the bucket. -/
theorem insert_refused_iff (s : HashTable × Ledger) (hs : MapOk s) (k : Int)
    (value : Nat → Byte) (size : Int) (hok : allowed s (.insert k value size))
    (hroom : s.1.index < s.1.poolSize) :
    ∃ h r, hashtableInsert s.1 k value size = some (h, r) ∧ (r = -1 ↔ SevenShare s.2 k) ∧
      (r ≠ -1 → r = 0 ∧ ∃ p, Finds h k p s.1.index) := by
  have hok' := hok
  rcases hok' with ⟨hpos, _, h0, h32⟩
  rcases insert_spec s.1 k value size (slotsOk_of_mapOk s hs) (by omega) h0 h32 hroom with
    ⟨hfull, hres⟩ | ⟨i, hi, hfree, hbefore, hres⟩
  · exact ⟨_, _, hres, iff_of_true rfl (sevenShare_of_full s hs k (by omega) hfull),
      fun hne => absurd rfl hne⟩
  · refine ⟨_, _, hres, iff_of_false (by decide) fun hseven => ?_, fun _ => ⟨rfl, ?_⟩⟩
    · exact full_of_sevenShare s hs k hseven i hi hfree
    · have hs' := mapOk_inserted s hs k value size i hok hroom hi hfree hbefore
      rcases cell_of_entry _ hs' k { item := s.1.index, size := size.toNat }
        (Function.update_self ..) with ⟨p, hp⟩
      exact ⟨p, finds_of_cell _ hs' p k _ hp⟩

theorem serves_of_mapOk (s : HashTable × Ledger) (hs : MapOk s) : Serves s where
  finds := fun k e hk => by
    rcases cell_of_entry s hs k e hk with ⟨p, hp⟩
    have hfind := finds_of_cell s hs p k e hp
    rcases (cells_eq_some s.1 p k e).mp hp with ⟨hin, hbusy, haddr, hkey, hsize⟩
    have hpe : p = (calcHash k, p.2) := Prod.ext (hs.ok.live p k e hp).2.symm rfl
    rw [hpe] at hfind hbusy haddr hsize
    exact ⟨p.2, hin.2, hfind, hbusy, haddr, hsize, hkey⟩
  inserts := insert_refused_iff s hs
  distinct := fun p q a hp hq _ _ ha hb =>
    ⟨hs.ok.distinct p q a hp hq ha hb, hs.ok.below p a hp ha⟩
  frame := fun op hok hroom => by
    rcases mapOk_step s hs op hok hroom with ⟨s', hstep, hs', hbound⟩
    refine ⟨s', hstep, fun k e hk he => ?_⟩
    rcases cell_of_entry s hs k e he with ⟨p, hp⟩
    rcases hbound.frame p k e hk hp with ⟨hslot, hitem⟩
    -- The slot and the item are the same, so the cell is.
    have hp' : cells s'.1 p = some (k, e) := by
      rcases (cells_eq_some s.1 p k e).mp hp with ⟨hin, hbusy, haddr, hkey, hsize⟩
      refine (cells_eq_some s'.1 p k e).mpr ?_
      rw [hslot, hitem]
      exact ⟨hin, hbusy, haddr, hkey, hsize⟩
    exact ⟨by rw [hbound.ledger k hk]; exact he, p, finds_of_cell s hs p k e hp,
      finds_of_cell s' hs' p k e hp', hslot, hitem⟩

/-- A run with no more inserts and updates than the pool has items left finds an
    item for each. -/
theorem along_hasRoom : ∀ (ops : List TableOp) (s : HashTable × Ledger), MapOk s →
    s.1.index + (ops.map TableOp.writes).sum ≤ s.1.poolSize → Along opStep allowed ops s →
      Along opStep (fun s op => allowed s op ∧ HasRoom s op) ops s := by
  intro ops
  induction ops with
  | nil => intro s _ _ _; trivial
  | cons op ops ih =>
      intro s hs hsum hok
      rw [List.map_cons, List.sum_cons] at hsum
      have hroom : HasRoom s op := by
        unfold HasRoom
        omega
      rcases mapOk_step s hs op hok.1 hroom with ⟨s', hstep, hs', hbound⟩
      rw [along_cons _ _ _ _ _ _ hstep] at hok ⊢
      refine ⟨⟨hok.1, hroom⟩, ih s' hs' ?_ hok.2⟩
      -- What the call took of the pool is off the sum.
      have hindex := hbound.index
      rw [hbound.pool]
      omega

/-- Any run of allowed calls from a table `hashtable_create` has made, in whatever
    memory, completes and serves its callers, if it has no more inserts and
    updates than the pool has items. -/
theorem create_run_serves (h : HashTable) (hi : h.index = 0) (ops : List TableOp)
    (hok : Along opStep allowed ops (hashtableCreate h maxPool, fun _ => none))
    (hpool : (ops.map TableOp.writes).sum ≤ h.poolSize) :
    ∃ s, run opStep ops (hashtableCreate h maxPool, fun _ => none) = some s ∧ Serves s := by
  have hstart := mapOk_create h hi
  have hok' := along_hasRoom ops _ hstart (by
    change h.index + _ ≤ h.poolSize
    omega) hok
  rcases run_of_along opStep (fun s op => allowed s op ∧ HasRoom s op) MapOk
    (fun s op hs ho => by
      rcases mapOk_step s hs op ho.1 ho.2 with ⟨s', hstep, hs', _⟩
      exact ⟨s', hstep, hs'⟩) ops _ hstart hok' with ⟨s, hrun, hs⟩
  exact ⟨s, hrun, serves_of_mapOk s hs⟩

/-- Memory that holds ones, with a pool of four items. -/
def onesMemory : HashTable where
  slot := fun _ => { size := 1, addr := some 1, busy := 1, lease := 1 }
  buckets := fun _ => { key := 1, flag := 1, p := fun _ => 1 }
  poolSize := 4
  index := 0

/-- Two keys of one bucket are inserted, the first updated and deleted, and a
    third takes its slot. -/
theorem create_run_serves_ones : ∃ s, run opStep [.insert 5 (fun _ => 65) 3,
    .insert 1000005 (fun _ => 66) 32, .update 5 (fun _ => 67) 0, .delete 5,
    .insert 2000005 (fun _ => 68) 20] (hashtableCreate onesMemory maxPool, fun _ => none) =
      some s ∧ Serves s :=
  create_run_serves onesMemory rfl _ (by decide +kernel) (by decide)

end HydraDB

end LocalKeyValue
