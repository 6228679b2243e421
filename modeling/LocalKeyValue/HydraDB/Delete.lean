import LocalKeyValue.HydraDB.Calls

/-!
# Deleting from the HydraDB Table

A delete marks the item it frees by writing key 0 into it, and a search looks at
the keys of items only. But 0 is a key: the load inserts it. So a delete of key
0 marks nothing, and the search goes on finding the slot that was freed; and a
delete of another key of bucket 0 makes its slot one that a search for key 0
finds, if it comes to it first. Apart from that a delete takes away its key and
changes no other search.

## Main definitions

* `Isolated`: A delete takes away its key and no other.
* `ZeroBefore`: A search for key 0 stops before it comes to the key's slot.

## Theorems

* `searchFrom_found`: A search finds the first item with its key.
* `delete_hides_key`, `delete_keeps_search`: What a delete does to a search.
* `delete_zero_found`, `delete_gone`: A search for the key that was deleted.
* `delete_isolated_iff`: When a delete takes away its key and no other.
-/

namespace LocalKeyValue

namespace HydraDB

open Cells Run

/-- The bucket of the key is in the table, and its slots all have an address. -/
def Addressed (h : HashTable) (key : Int) : Prop :=
  calcHash key < maxPool ∧ ∀ i, i < slots → (h.slot (calcHash key, i)).addr ≠ none

instance (h : HashTable) (key : Int) : Decidable (Addressed h key) :=
  inferInstanceAs (Decidable (_ ∧ _))

/-- Slot `p` points to an item with the key. -/
def ItemKey (h : HashTable) (p : Nat × Nat) (key : Int) : Prop :=
  ∃ a, (h.slot p).addr = some a ∧ (h.buckets a).key = key

/-- After a delete of `k` no slot whose item had the key is found for it, and
    another key `k2` is found where it was. -/
def Isolated (h : HashTable) (k k2 : Int) : Prop :=
  ∃ h', hashtableDelete h k = some h' ∧
    (∀ ret p, hashtableSearch h' k = some ret → ret.descriptor = some p → ¬ ItemKey h p k) ∧
    (k2 ≠ k → ∃ ret, hashtableSearch h k2 = some ret ∧ hashtableSearch h' k2 = some ret)

/-- A slot before the one that is in use for the key points to an item with key 0. -/
def ZeroBefore (h : HashTable) (k : Int) : Prop :=
  ∃ i j, i < j ∧ j < slots ∧ Holding h (calcHash k, j) k ∧ ItemKey h (calcHash k, i) 0

/-! ## Searches -/

/-- A search that meets addresses only comes back. -/
theorem searchFrom_total (h : HashTable) (b : Nat) (key : Int) : ∀ n i,
    (∀ l, i ≤ l → l < i + n → ∃ a, (h.slot (b, l)).addr = some a ∧ a < h.poolSize) →
      ∃ ret, searchFrom h b key n i = some ret := by
  intro n
  induction n with
  | zero => intro i _; exact ⟨_, rfl⟩
  | succ n ih =>
      intro i hall
      rcases hall i (Nat.le_refl i) (by omega) with ⟨a, ha, hlt⟩
      unfold searchFrom
      rw [ha, item?_some h a hlt]
      by_cases hk : (h.buckets a).key = key
      · exact ⟨_, if_pos hk⟩
      · rcases ih (i + 1) (fun l hl hl' => hall l (by omega) (by omega)) with ⟨ret, hret⟩
        exact ⟨ret, (if_neg hk).trans hret⟩

/-- A search sees of a bucket only where the slots point and which items have its
    key. -/
theorem searchFrom_congr (h h' : HashTable) (b : Nat) (key : Int)
    (hpool : h'.poolSize = h.poolSize) : ∀ n i,
    (∀ l, i ≤ l → l < i + n → (h'.slot (b, l)).addr = (h.slot (b, l)).addr ∧
      ∀ a, (h.slot (b, l)).addr = some a → ((h'.buckets a).key = key ↔ (h.buckets a).key = key)) →
    searchFrom h' b key n i = searchFrom h b key n i := by
  intro n
  induction n with
  | zero => intro i _; rfl
  | succ n ih =>
      intro i hsame
      have hrest := ih (i + 1) fun l hl hl' => hsame l (by omega) (by omega)
      rcases hsame i (Nat.le_refl i) (by omega) with ⟨haddr, hkey⟩
      unfold searchFrom
      rw [haddr]
      cases ha : (h.slot (b, i)).addr with
      | none => rfl
      | some a =>
          unfold item?
          rw [hpool]
          by_cases hlt : a < h.poolSize
          · simp only [if_pos hlt, hkey a ha, hrest]
          · simp only [if_neg hlt]

/-- A search finds the first item with its key. -/
theorem searchFrom_found (h : HashTable) (b : Nat) (key : Int) (j : Nat)
    (hj : ItemKey h (b, j) key)
    (haddr : ∀ l, l ≤ j → ∃ a, (h.slot (b, l)).addr = some a ∧ a < h.poolSize) : ∀ n i, i ≤ j →
    j < i + n → ∃ l, l ≤ j ∧ ItemKey h (b, l) key ∧
      (∀ m, i ≤ m → m < l → ¬ ItemKey h (b, m) key) ∧ searchFrom h b key n i = some {
        descriptor := some (b, l), keyAddress := (h.slot (b, l)).addr, extEnabled := 0 } := by
  intro n
  induction n with
  | zero => intro i hi hn; omega
  | succ n ih =>
      intro i hi hn
      rcases haddr i hi with ⟨a, ha, hlt⟩
      unfold searchFrom
      rw [ha, item?_some h a hlt]
      by_cases hk : (h.buckets a).key = key
      · exact ⟨i, hi, ⟨a, ha, hk⟩, fun m hm hm' => by omega, (if_pos hk).trans (by rw [ha])⟩
      · -- The key's slot is a later one.
        have hne : ¬ ItemKey h (b, i) key := by
          intro hc
          rcases hc with ⟨c, hc, hck⟩
          rw [ha, Option.some.injEq] at hc
          exact hk (hc ▸ hck)
        have hij : i ≠ j := fun he => hne (by rw [he]; exact hj)
        rcases ih (i + 1) (by omega) (by omega) with ⟨l, hl, hkey, hfirst, hres⟩
        refine ⟨l, hl, hkey, fun m hm hml => ?_, (if_neg hk).trans hres⟩
        by_cases hmi : m = i
        · rw [hmi]
          exact hne
        · exact hfirst m (by omega) hml

/-- The form for a table between operations. -/
theorem search_found (h : HashTable) (ok : SlotsOk h) (key : Int) (hk : 0 ≤ key) (j : Nat)
    (hj : j < slots) (hkey : ItemKey h (calcHash key, j) key) :
    ∃ l, l ≤ j ∧ ItemKey h (calcHash key, l) key ∧
      (∀ m, m < l → ¬ ItemKey h (calcHash key, m) key) ∧ hashtableSearch h key = some {
        descriptor := some (calcHash key, l), keyAddress := (h.slot (calcHash key, l)).addr,
        extEnabled := 0 } := by
  have hb := calcHash_lt key hk
  have hkey' := hkey
  rcases hkey' with ⟨a, ha, _⟩
  have haddr : ∀ l, l ≤ j → ∃ c, (h.slot (calcHash key, l)).addr = some c ∧ c < h.poolSize := by
    intro l hl
    have hne := ok.addr_prefix _ l j hb hl hj (by
      rw [ha]
      simp only [ne_eq, reduceCtorEq, not_false_eq_true])
    rcases Option.ne_none_iff_exists'.mp hne with ⟨c, hc⟩
    exact ⟨c, hc, addr_lt h ok.toAddrsOk _ c ⟨hb, Nat.lt_of_le_of_lt hl hj⟩ hc⟩
  unfold hashtableSearch
  rw [if_pos hb]
  rcases searchFrom_found h _ key j hkey haddr slots 0 (Nat.zero_le j) (by omega) with
    ⟨l, hl, hlk, hfirst, hres⟩
  exact ⟨l, hl, hlk, fun m hm => hfirst m (Nat.zero_le m) hm, hres⟩

/-! ## What a delete does to them -/

theorem deleted_key (h : HashTable) (p : Nat × Nat) (a c : Nat) (hc : c ≠ a) :
    ((deleted h p a).buckets c).key = (h.buckets c).key := by
  rw [deleted_item_other h p a c hc]

/-- A key other than 0 is gone from the items of its bucket. -/
theorem delete_hides_key (h : HashTable) (ok : SlotsOk h) (p : Nat × Nat) (k : Int) (e : Entry)
    (hp : cells h p = some (k, e)) (hk : k ≠ 0) (q : Nat × Nat) (hq : InTable q) :
    ¬ ItemKey (deleted h p e.item) q k := by
  intro hc
  rcases hc with ⟨a, ha, hkey⟩
  rw [deleted_addr] at ha
  by_cases hae : a = e.item
  · rw [hae, deleted_item] at hkey
    exact hk hkey.symm
  · rw [deleted_key h p e.item a hae] at hkey
    have haddr := ((cells_eq_some h p k e).mp hp).2.2.1
    have hqp : q ≠ p := by
      intro hqp
      rw [hqp, haddr, Option.some.injEq] at ha
      exact hae ha.symm
    exact key_ne_of_other h ok p q k e hp hk hq hqp a ha hkey

/-- Key 0 is in the same items after a delete of it. -/
theorem delete_zero_items (h : HashTable) (p : Nat × Nat) (e : Entry)
    (hp : cells h p = some (0, e)) (q : Nat × Nat) (key : Int) :
    ItemKey (deleted h p e.item) q key ↔ ItemKey h q key := by
  have hkey0 := ((cells_eq_some h p 0 e).mp hp).2.2.2.1
  unfold ItemKey
  rw [deleted_addr]
  have hsame : ∀ a, ((deleted h p e.item).buckets a).key = (h.buckets a).key := by
    intro a
    by_cases hae : a = e.item
    · rw [hae, deleted_item, hkey0]
    · exact deleted_key h p e.item a hae
  simp only [hsame]

/-- A search for another key sees nothing of a delete, if it is not for key 0 in
    the same bucket. -/
theorem delete_keeps_search (h : HashTable) (ok : SlotsOk h) (p : Nat × Nat) (k : Int) (e : Entry)
    (hp : cells h p = some (k, e)) (k2 : Int) (hne : k2 ≠ k)
    (h0 : k2 = 0 → calcHash k ≠ calcHash k2) :
    hashtableSearch (deleted h p e.item) k2 = hashtableSearch h k2 := by
  rcases (cells_eq_some h p k e).mp hp with ⟨hin, _, haddr, hkey, _⟩
  have hhash := (ok.live p k e hp).2
  unfold hashtableSearch
  by_cases hb : calcHash k2 < maxPool
  · rw [if_pos hb, if_pos hb]
    refine searchFrom_congr h (deleted h p e.item) _ k2 rfl slots 0 fun l _ hl => ?_
    refine ⟨deleted_addr h p e.item _, fun a ha => ?_⟩
    by_cases hae : a = e.item
    · -- The slot is the one freed, so the bucket is the key's.
      have hq := ok.distinct (calcHash k2, l) p a ⟨hb, by omega⟩ hin ha (by rw [hae]; exact haddr)
      have hk2 : calcHash k2 = p.1 := congrArg Prod.fst hq
      rw [hae, deleted_item, hkey]
      exact iff_of_false (fun hc => h0 hc.symm (by rw [hhash, hk2])) (Ne.symm hne)
    · rw [deleted_key h p e.item a hae]
  · rw [if_neg hb, if_neg hb]

/-- A search for key 0 that stops before it comes to the freed slot stops where it
    did, and only such a search. -/
theorem delete_keeps_zero_iff (h : HashTable) (ok : SlotsOk h) (p : Nat × Nat) (k : Int)
    (e : Entry) (hp : cells h p = some (k, e)) (hk : k ≠ 0) (hb : calcHash k = calcHash 0) :
    (∃ ret, hashtableSearch h 0 = some ret ∧ hashtableSearch (deleted h p e.item) 0 = some ret) ↔
      ZeroBefore h k := by
  rcases (cells_eq_some h p k e).mp hp with ⟨hin, _, haddr, hkey, _⟩
  have hp1 : (calcHash 0, p.2) = p := Prod.ext (hb.symm.trans (ok.live p k e hp).2) rfl
  -- The freed slot is found for key 0, if no slot before is.
  have hnew : ItemKey (deleted h p e.item) (calcHash 0, p.2) 0 := by
    rw [hp1]
    exact ⟨e.item, by rw [deleted_addr]; exact haddr, by rw [deleted_item]⟩
  constructor
  · intro hsame
    rcases hsame with ⟨ret, hold, hret⟩
    rcases search_found _ (slotsOk_deleted h ok p k e hp) 0 (Int.le_refl 0) p.2 hin.2 hnew with
      ⟨l, hl, _, _, hres⟩
    rw [hret, Option.some.injEq] at hres
    rcases (search_cases h 0 ret hold).2 with ⟨i, a, _, ha, _, hak, heq⟩ | ⟨heq, _⟩
    · rw [hres, SearchReturn.mk.injEq, Option.some.injEq, Prod.mk.injEq] at heq
      rcases heq with ⟨⟨_, rfl⟩, _⟩
      -- Before the delete this slot is not the key's, which has the key.
      have hlp : l ≠ p.2 := by
        intro hc
        rw [hc, hp1, haddr, Option.some.injEq] at ha
        rw [← ha, hkey] at hak
        exact hk hak
      have hp1' : (calcHash k, p.2) = p := by
        rw [hb]
        exact hp1
      refine ⟨l, p.2, by omega, hin.2, ?_, a, by rw [hb]; exact ha, hak⟩
      rw [hp1']
      exact (holding_iff h p k hin).mpr ⟨e, hp⟩
    · rw [hres] at heq
      simp only [SearchReturn.mk.injEq, reduceCtorEq, false_and] at heq
  · intro hz
    rcases hz with ⟨i, j, hij, hj, hhold, hzero⟩
    rw [hb] at hhold hzero
    -- The slot that is in use for the key is the one freed.
    have hjp : j = p.2 := by
      rcases (holding_iff h _ k ⟨calcHash_lt 0 (Int.le_refl 0), hj⟩).mp hhold with ⟨e', he'⟩
      rw [← hp1] at hp
      exact congrArg Prod.snd (ok.unique _ _ k e' e he' hp)
    rcases search_found h ok 0 (Int.le_refl 0) i (Nat.lt_trans hij hj) hzero with
      ⟨l, hl, hlk, hfirst, hres⟩
    -- The items of the slots before are others than the freed one's.
    have hbefore : ∀ m, m ≤ l → ∀ a, (h.slot (calcHash 0, m)).addr = some a →
        ((deleted h p e.item).buckets a).key = (h.buckets a).key := by
      intro m hm a ha
      refine deleted_key h p e.item a fun hae => ?_
      have hmp := ok.distinct (calcHash 0, m) p a ⟨calcHash_lt 0 (Int.le_refl 0), by omega⟩ hin ha
        (by rw [hae]; exact haddr)
      have : m = p.2 := congrArg Prod.snd hmp
      omega
    rcases hlk with ⟨a, ha, hak⟩
    have hal : ItemKey (deleted h p e.item) (calcHash 0, l) 0 :=
      ⟨a, by rw [deleted_addr]; exact ha, by rw [hbefore l (Nat.le_refl l) a ha]; exact hak⟩
    rcases search_found _ (slotsOk_deleted h ok p k e hp) 0 (Int.le_refl 0) l (by omega) hal with
      ⟨l', hl', hlk', _, hres'⟩
    have hll : l' = l := by
      by_contra hne
      rcases hlk' with ⟨c, hc, hck⟩
      rw [deleted_addr] at hc
      rw [hbefore l' hl' c hc] at hck
      exact hfirst l' (by omega) ⟨c, hc, hck⟩
    rw [hll, deleted_addr] at hres'
    exact ⟨_, hres, hres'⟩

/-- With an address in each slot the search comes back. -/
theorem search_total (u : HashTable) (ok : SlotsOk u) (key : Int) (hfull : Addressed u key) :
    ∃ ret, hashtableSearch u key = some ret := by
  unfold hashtableSearch
  rw [if_pos hfull.1]
  refine searchFrom_total u _ key slots 0 fun l _ hl => ?_
  rcases Option.ne_none_iff_exists'.mp (hfull.2 l (by omega)) with ⟨a, ha⟩
  exact ⟨a, ha, addr_lt u ok.toAddrsOk _ a ⟨hfull.1, by omega⟩ ha⟩

/-- After a delete of key 0 a search for it finds a slot that had key 0 before. -/
theorem delete_zero_found (u : HashTable) (ok : SlotsOk u) (p : Nat × Nat) (e : Entry)
    (hp : cells u p = some (0, e)) :
    ∃ l ret, hashtableSearch (deleted u p e.item) 0 = some ret ∧
      ret.descriptor = some (calcHash 0, l) ∧ ItemKey u (calcHash 0, l) 0 := by
  have hin := ((cells_eq_some u p 0 e).mp hp).1
  have hp1 : (calcHash 0, p.2) = p := Prod.ext (ok.live p 0 e hp).2 rfl
  have hzero : ItemKey u (calcHash 0, p.2) 0 := by
    rcases (cells_eq_some u p 0 e).mp hp with ⟨_, _, haddr, hkey, _⟩
    rw [hp1]
    exact ⟨e.item, haddr, hkey⟩
  rcases search_found _ (slotsOk_deleted u ok p 0 e hp) 0 (Int.le_refl 0) p.2 hin.2
    ((delete_zero_items u p e hp _ 0).mpr hzero) with ⟨l, _, hlk, _, hres⟩
  exact ⟨l, _, hres, rfl, (delete_zero_items u p e hp _ 0).mp hlk⟩

/-- After a delete of another key a search for it finds nothing that had the key. -/
theorem delete_gone (u : HashTable) (ok : SlotsOk u) (p : Nat × Nat) (k : Int) (e : Entry)
    (hp : cells u p = some (k, e)) (hk0 : k ≠ 0) (ret : SearchReturn) (q : Nat × Nat)
    (hret : hashtableSearch (deleted u p e.item) k = some ret) (hq : ret.descriptor = some q) :
    ¬ ItemKey u q k := by
  rcases search_cases _ k ret hret with ⟨hb, ⟨i, a, hi, ha, _, hak, rfl⟩ | ⟨rfl, _⟩⟩
  · exact absurd ⟨a, ha, hak⟩ (delete_hides_key u ok p k e hp hk0 _ ⟨hb, hi⟩)
  · simp only [reduceCtorEq] at hq

/-- A delete of a stored key takes the key away and leaves the search for `k2`
    alone, just when the key is not 0, and `k2` is not 0 in the same bucket or the
    search for it stops before. -/
theorem delete_isolated_iff (h : HashTable) (hi : h.index = 0) (ops : List TableOp) (u : HashTable)
    (hcalls : Along callStep ClientCall ops (hashtableCreate h maxPool))
    (hrun : run callStep ops (hashtableCreate h maxPool) = some u) (k k2 : Int) (hk : 0 ≤ k)
    (hstored : Stored u k) (hfull : Addressed u k2) :
    Isolated u k k2 ↔ k ≠ 0 ∧ (k2 = 0 → calcHash k = calcHash k2 → ZeroBefore u k) := by
  have ok := slotsOk_run h hi ops u hcalls hrun
  rcases (stored_iff u ok k hk).mp hstored with ⟨e, p, hp⟩
  have hdel := delete_entry u ok p k e hp
  constructor
  · intro hiso
    rcases hiso with ⟨h', hd, hgone, hkept⟩
    rw [hdel, Option.some.injEq] at hd
    subst hd
    have hk0 : k ≠ 0 := by
      intro hk0
      subst hk0
      rcases delete_zero_found u ok p e hp with ⟨l, ret, hret, hdesc, hitem⟩
      exact hgone ret _ hret hdesc hitem
    refine ⟨hk0, fun hk2 hb => ?_⟩
    subst hk2
    exact (delete_keeps_zero_iff u ok p k e hp hk0 hb).mp (hkept (Ne.symm hk0))
  · intro hc
    rcases hc with ⟨hk0, hzero⟩
    refine ⟨deleted u p e.item, hdel, delete_gone u ok p k e hp hk0, fun hne => ?_⟩
    by_cases h0 : k2 = 0 ∧ calcHash k = calcHash k2
    · rcases h0 with ⟨rfl, hb⟩
      exact (delete_keeps_zero_iff u ok p k e hp hk0 hb).mpr (hzero rfl hb)
    · -- No item that a search for `k2` looks for has changed.
      rcases search_total u ok k2 hfull with ⟨ret, hret⟩
      refine ⟨ret, hret, ?_⟩
      rw [delete_keeps_search u ok p k e hp k2 hne (fun h2 hb => h0 ⟨h2, hb⟩)]
      exact hret

/-- Inserts of seven keys of the key's bucket. -/
def fillBucket (key : Int) : List TableOp :=
  (List.range slots).map fun i => .insert (key + maxPool * i) (fun _ => 65) 3

theorem delete_isolated_iff_fillBucket :
    ∃ u, run callStep (fillBucket 5) (hashtableCreate roomyMemory maxPool) = some u ∧
      Isolated u 5 1000005 := by
  have hrun : ∃ u ∈ run callStep (fillBucket 5) (hashtableCreate roomyMemory maxPool),
      Stored u 5 ∧ Addressed u 1000005 := by decide +kernel
  rcases hrun with ⟨u, hrun, hstored, hfull⟩
  refine ⟨u, hrun, (delete_isolated_iff roomyMemory rfl (fillBucket 5) u (by decide +kernel) hrun 5
    1000005 (by decide) hstored hfull).mpr ⟨by decide, fun h => absurd h (by decide)⟩⟩

/-- Key 0 is found in its slot after it has been deleted. -/
theorem delete_keeps_zero :
    ∃ u, run callStep (fillBucket 0) (hashtableCreate roomyMemory maxPool) = some u ∧
      Along callStep ClientCall (fillBucket 0) (hashtableCreate roomyMemory maxPool) ∧
      Stored u 0 ∧ Addressed u 0 ∧ ∃ h', hashtableDelete u 0 = some h' ∧
        hashtableSearch u 0 = some {
          descriptor := some (0, 0), keyAddress := some 0, extEnabled := 0 } ∧
        hashtableSearch h' 0 = some {
          descriptor := some (0, 0), keyAddress := some 0, extEnabled := 0 } := by
  have hcalls : Along callStep ClientCall (fillBucket 0) (hashtableCreate roomyMemory maxPool) := by
    decide +kernel
  have hrun : ∃ u ∈ run callStep (fillBucket 0) (hashtableCreate roomyMemory maxPool),
      Stored u 0 ∧ Addressed u 0 ∧ ∃ h' ∈ hashtableDelete u 0,
        hashtableSearch u 0 = some {
          descriptor := some (0, 0), keyAddress := some 0, extEnabled := 0 } ∧
        hashtableSearch h' 0 = some {
          descriptor := some (0, 0), keyAddress := some 0, extEnabled := 0 } := by decide +kernel
  rcases hrun with ⟨u, hrun, hstored, hfull, h', hdel, hold, hnew⟩
  exact ⟨u, hrun, hcalls, hstored, hfull, h', hdel, hold, hnew⟩

end HydraDB

end LocalKeyValue
