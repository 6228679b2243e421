import LocalKeyValue.Pilaf.Recv

/-!
# What a Race of Pilaf's PUTs Leaves

Messages that overwrite one another, which nothing in the server or the clients
prevents. A key is lost when the next message arrives before it is read, and the
key of the next is placed instead. So each completion is for a key that has
arrived, although perhaps not its own, and what is read last is what arrived
last: once the server has handled what there is, the last key that arrived is
the last one it has placed, and it is found.

That a key is found right after it was placed is not a matter of course. The
chain of evictions may come back to it and evict it again; but it is cut off
before it could leave the key in no bucket.

## Main definitions

* `loggedStep`: A step beside the keys that have arrived.
* `ArrivalOk`: What is in the area, and what it has been in.

## Theorems

* `unpositioned_some`: What it takes that a chain is cut off with a key.
* `place_self`: A key is found after a request has placed it.
* `arrivalOk_step`: Any step keeps what the area is.
* `recv_run_last`: The last key that arrived is the last one placed, and found.
-/

namespace LocalKeyValue

namespace Pilaf

open CInt Run

/-! ## The key of a request -/

/-- Each call of a chain that is cut off finds its key nowhere and takes up another. -/
theorem unpositioned_some (t : Table) (held value : Int) (tableID n : Nat) (a : Int)
    (hi : Indexable (toInt32 held)) (hid : tableID < ver)
    (h : unpositioned t held value tableID (n + 1) = some a) :
    ¬ Found t (toInt32 held) ∧ (t (slot tableID (toInt32 held))).key ≠ intMin ∧
      unpositioned (Function.update t (slot tableID (toInt32 held)) (evicted (toInt32 held) value))
        (t (slot tableID (toInt32 held))).key value ((tableID + 1) % ver) n = some a := by
  by_cases hf : Found t (toInt32 held)
  · rw [unpositioned_found t held value tableID n hi hf] at h
    exact absurd h (by simp only [reduceCtorEq, not_false_eq_true])
  by_cases hb : (t (slot tableID (toInt32 held))).key = intMin
  · rw [unpositioned_empty t held value tableID n hi hid hf hb] at h
    exact absurd h (by simp only [reduceCtorEq, not_false_eq_true])
  · rw [unpositioned_evict t held value tableID n hi hid hf hb] at h
    exact ⟨hf, hb, h⟩

/-- The chain of a request may evict its key again, but is not cut off with it. -/
theorem unpositioned_ne_self (t : Table) (key : Int) (h : TableOk t) (hk : InRange key) :
    unpositioned t key 1 0 3 ≠ some key := by
  intro hu
  have h32 := toInt32_of_inRange key hk
  -- Each of the three calls finds its key nowhere, and the last leaves over what it evicts.
  rcases unpositioned_some t key 1 0 2 key (by rw [h32]; exact indexable_of_inRange key hk)
    (by decide) hu with ⟨hf, hb, hu⟩
  rw [h32] at hf hb hu
  have hk1 := inRange_toInt32 _ (h.readable _ hb)
  have ht1 := readable_put t (slot 0 key) key (evicted key 1) h.readable hk rfl
  generalize (t (slot 0 key)).key = held1 at hk1 hu
  rcases unpositioned_some _ held1 1 _ 1 key (indexable_of_inRange _ hk1) (by decide) hu with
    ⟨hf1, hb1, hu⟩
  have hk2 := inRange_toInt32 _ (ht1 _ hb1)
  generalize (Function.update t (slot 0 key) (evicted key 1)
    (slot ((0 + 1) % ver) (toInt32 held1))).key = held2 at hk2 hu
  rcases unpositioned_some _ held2 1 _ 0 key (indexable_of_inRange _ hk2) (by decide) hu with
    ⟨_, _, hu⟩
  rw [unpositioned, Option.some.injEq] at hu
  have hs0 := (slot_eq 0 key hk (by decide)).1
  have hs2 := (slot_eq 2 (toInt32 held2) hk2 (by decide)).1
  have hmod0 := Int.emod_lt_of_pos key (by decide : (0 : Int) < maxn)
  have hmod2 := Int.emod_nonneg (toInt32 held2) (by decide : (maxn : Int) ≠ 0)
  by_cases hs : slot 2 (toInt32 held2) = slot 1 (toInt32 held1)
  · -- It would be the key of the second call, which is stored where the first put it.
    rw [show ((0 + 1) % ver + 1) % ver = 2 from rfl, show (0 + 1) % ver = 1 from rfl, hs,
      Function.update_self] at hu
    rw [show toInt32 held1 = key from hu] at hf1
    exact hf1 (found_put t 0 key _ (by decide) rfl)
  · -- What the last call evicts was there at first, and `key` was in no bucket.
    have hne : slot 2 (toInt32 held2) ≠ slot 0 key := by
      simp only [maxn] at hs0 hs2 hmod0 hmod2
      omega
    rw [show ((0 + 1) % ver + 1) % ver = 2 from rfl, show (0 + 1) % ver = 1 from rfl,
      Function.update_of_ne hs, Function.update_of_ne hne] at hu
    exact key_ne_of_not_found t key h.positioned hk hf _ hu

/-- A request is found after it was handled, and the table stays as it should be. -/
theorem place_self (t : Table) (key : Int) (h : TableOk t) (hk : InRange key) :
    ∃ t', place t key 1 0 3 = some t' ∧ TableOk t' ∧ Found t' key := by
  have h32 := toInt32_of_inRange key hk
  rcases serveStep_spec (t, []) ⟨key, hk⟩ h with ⟨t', ht', _, hok⟩
  refine ⟨t', ht', hok, ?_⟩
  rcases place_keeps 1 key hk 3 t t' key 0 h.readable (by rw [h32]; exact hk) (by decide)
    (Or.inr rfl) (by rw [h32]; exact ht') with hfound | hcut
  · exact hfound
  · exact absurd hcut (unpositioned_ne_self t key h hk)

/-! ## What has arrived -/

/-- The key that arrives in a step. -/
def arriving (s : State) : Action → List Int
  | .deliver c => ((s.sends c).head?.map Subtype.val).toList
  | .server _ => []

/-- A step beside the keys that have arrived, in their order. -/
def loggedStep (n cnLo : Nat) (s : State × List Int) (a : Action) : Option (State × List Int) :=
  (step n cnLo s.1 a).map fun t => (t, s.2 ++ arriving s.1 a)

/-- A message has arrived that the server has not handled. -/
def Unhandled (s : State) : Prop :=
  (∃ c, s.completions c ≠ []) ∨ inBatch s ≠ []

/-- The area holds the key that arrived last, and keys that have arrived are placed; where
    the server has handled what there was, it has placed that key last. -/
structure ArrivalOk (s : State) (log : List Int) : Prop where
  recvs : ∀ c, ∀ addr ∈ s.recvs c, addr = 0
  area : ∀ k, log.getLast? = some k → s.serverRequestArea 0 = k
  sends : ∀ c, ∀ k ∈ s.sends c, InRange k.val
  inRange : ∀ k ∈ log, InRange k
  waits : Unhandled s → log ≠ []
  handled : s.placed.length + (inBatch s).length = s.polled.length
  placed : ∀ k ∈ s.placed, k ∈ log
  last : Unhandled s ∨ s.placed.getLast? = log.getLast?
  table : run (fun t k => place t k 1 0 3) s.placed setupBuffers = some s.table
  tableOk : TableOk s.table
  found : ∀ k, s.placed.getLast? = some k → Found s.table k

theorem arrivalOk_init (n cnLo : Nat) (sends : Nat → List SendKey)
    (hsends : ∀ c, ∀ k ∈ sends c, InRange k.val) :
    ArrivalOk (State.init n cnLo sends) [] where
  recvs := (areaOk_init n cnLo sends).recvs
  area := fun k h => absurd h (by simp only [List.getLast?_nil, reduceCtorEq, not_false_eq_true])
  sends := hsends
  inRange := fun k h => absurd h List.not_mem_nil
  waits := fun h => by
    rcases h with ⟨c, hc⟩ | hb
    · exact absurd rfl hc
    · exact absurd rfl hb
  handled := rfl
  placed := fun k h => absurd h List.not_mem_nil
  last := Or.inr rfl
  table := rfl
  tableOk := tableOk_setupBuffers
  found := fun k h => absurd h (by
    simp only [State.init, List.getLast?_nil, reduceCtorEq, not_false_eq_true])

/-- A message overwrites what is in the area. -/
theorem arrivalOk_deliver (s t : State) (log : List Int) (c : Nat) (h : ArrivalOk s log)
    (hstep : deliver s c = some t) : ArrivalOk t (log ++ arriving s (.deliver c)) := by
  unfold deliver at hstep
  cases hs : s.sends c with
  | nil =>
      rw [hs] at hstep
      exact absurd hstep (by simp only [reduceCtorEq, not_false_eq_true])
  | cons k ks =>
      cases hr : s.recvs c with
      | nil =>
          rw [hs, hr] at hstep
          exact absurd hstep (by simp only [reduceCtorEq, not_false_eq_true])
      | cons addr addrs =>
          rw [hs, hr, Option.some.injEq] at hstep
          have hrecvs := h.recvs c
          rw [hr, List.forall_mem_cons] at hrecvs
          have hsends := h.sends c
          rw [hs, List.forall_mem_cons] at hsends
          have harr : arriving s (.deliver c) = [k.val] := by
            simp only [arriving, hs, List.head?_cons, Option.map_some, Option.toList_some]
          -- The message's own completion is there to be polled.
          have hwaits : Unhandled t := by
            refine Or.inl ⟨c, ?_⟩
            rw [← hstep]
            simp only [Function.update_self, ne_eq, List.append_eq_nil_iff, List.cons_ne_nil,
              and_false, not_false_eq_true]
          rw [harr]
          refine ⟨fun c' => ?_, fun k' hk' => ?_, fun c' => ?_, fun k' hk' => ?_, fun _ => ?_, ?_,
            fun k' hk' => ?_, Or.inl hwaits, ?_, ?_, ?_⟩
          · rw [← hstep]
            by_cases hc : c' = c
            · simp only [hc, Function.update_self]
              exact hrecvs.2
            · simp only [Function.update_of_ne hc]
              exact h.recvs c'
          · rw [List.getLast?_concat, Option.some.injEq] at hk'
            rw [← hstep, ← hk', hrecvs.1]
            exact Function.update_self 0 k.val s.serverRequestArea
          · rw [← hstep]
            by_cases hc : c' = c
            · simp only [hc, Function.update_self]
              exact hsends.2
            · simp only [Function.update_of_ne hc]
              exact h.sends c'
          · rcases List.mem_append.mp hk' with hold | hnew
            · exact h.inRange k' hold
            · rw [List.mem_singleton.mp hnew]
              exact hsends.1
          · simp only [ne_eq, List.append_eq_nil_iff, List.cons_ne_nil, and_false,
              not_false_eq_true]
          · rw [← hstep]
            exact h.handled
          · rw [← hstep] at hk'
            exact List.mem_append_left _ (h.placed k' hk')
          · rw [← hstep]
            exact h.table
          · rw [← hstep]
            exact h.tableOk
          · rw [← hstep]
            exact h.found

/-- Completions that are taken are in the batch instead. -/
theorem arrivalOk_take (s t : State) (log : List Int) (cn m : Nat) (h : ArrivalOk s log)
    (hpc : s.pc = .poll) (hm : m ≠ 0) (hlen : m ≤ (s.completions cn).length)
    (hrecvs : ∀ c, ∀ addr ∈ t.recvs c, addr = 0) (hsends : t.sends = s.sends)
    (harea : t.serverRequestArea = s.serverRequestArea)
    (htpc : t.pc = .batch cn ((s.completions cn).take m)) (hplaced : t.placed = s.placed)
    (hpolled : t.polled = s.polled ++ (s.completions cn).take m) (htable : t.table = s.table) :
    ArrivalOk t log := by
  have hin : inBatch t = (s.completions cn).take m := by rw [inBatch, htpc]
  have hin' : inBatch s = [] := by rw [inBatch, hpc]
  have htake : ((s.completions cn).take m).length = m := List.length_take_of_le hlen
  have hwaits : Unhandled s := by
    refine Or.inl ⟨cn, fun hnil => hm ?_⟩
    rw [hnil] at hlen
    exact Nat.le_zero.mp hlen
  have hwaits' : Unhandled t := by
    refine Or.inr fun hnil => hm ?_
    rw [hin] at hnil
    rw [← htake, hnil]
    rfl
  -- No key is read yet, so nothing is placed.
  have hhandled := h.handled
  rw [hin'] at hhandled
  refine ⟨hrecvs, ?_, ?_, h.inRange, fun _ => h.waits hwaits, ?_, ?_, Or.inl hwaits', ?_, ?_, ?_⟩
  · rw [harea]
    exact h.area
  · rw [hsends]
    exact h.sends
  · rw [hin, hplaced, hpolled, List.length_append, ← hhandled]
    rfl
  · rw [hplaced]
    exact h.placed
  · rw [hplaced, htable]
    exact h.table
  · rw [htable]
    exact h.tableOk
  · rw [hplaced, htable]
    exact h.found

theorem arrivalOk_poll (n cnLo : Nat) (s t : State) (log : List Int) (m : Nat)
    (h : ArrivalOk s log) (hpc : s.pc = .poll) (hstep : poll n cnLo s m = some t) :
    ArrivalOk t log := by
  simp only [poll] at hstep
  split at hstep
  · rename_i hm
    split at hstep
    · rw [Option.some.injEq] at hstep
      rw [← hstep]
      exact ⟨h.recvs, h.area, h.sends, h.inRange, h.waits, h.handled, h.placed, h.last, h.table,
        h.tableOk, h.found⟩
    · rename_i hzero
      split at hstep
      · rw [Option.some.injEq] at hstep
        refine arrivalOk_take s t log (cnLo + (s.iter + 1) % n) m h hpc hzero hm.1
          ?_ ?_ ?_ ?_ ?_ ?_ ?_ <;> rw [← hstep]
        · exact recvs_postRecvs _ _ _ h.recvs
        all_goals rfl
      · rw [Option.some.injEq] at hstep
        refine arrivalOk_take s t log (cnLo + (s.iter + 1) % n) m h hpc hzero hm.1
          ?_ ?_ ?_ ?_ ?_ ?_ ?_ <;> rw [← hstep]
        exact h.recvs
  · exact absurd hstep (by simp only [reduceCtorEq, not_false_eq_true])

/-- What is placed is the key that arrived last, whatever the completion is for. -/
theorem arrivalOk_placeNext (s t : State) (log : List Int) (cn : Nat) (keys : List Int)
    (h : ArrivalOk s log) (hpc : s.pc = .batch cn keys) (hstep : placeNext s cn keys = some t) :
    ArrivalOk t log := by
  have hin : inBatch s = keys := by rw [inBatch, hpc]
  cases keys with
  | nil =>
      rw [placeNext, Option.some.injEq] at hstep
      have hsame : inBatch t = inBatch s := by
        rw [hin, ← hstep]
        rfl
      have hwaits : Unhandled t ↔ Unhandled s := by
        rw [Unhandled, Unhandled, hsame, ← hstep]
      have hhandled := h.handled
      rw [← hsame] at hhandled
      have hw := h.waits
      have hl := h.last
      rw [← hwaits] at hw hl
      rw [← hstep] at hhandled hw hl ⊢
      exact ⟨h.recvs, h.area, h.sends, h.inRange, hw, hhandled, h.placed, hl, h.table, h.tableOk,
        h.found⟩
  | cons k rest =>
      -- The completion is of a key that has arrived, so the area holds the last such key.
      have hne : log ≠ [] := h.waits (Or.inr (by
        rw [hin]
        exact List.cons_ne_nil _ _))
      rcases Option.ne_none_iff_exists'.mp (mt List.getLast?_eq_none_iff.mp hne) with ⟨a, ha⟩
      have hmem : a ∈ log := List.mem_of_getLast? ha
      have hrange := h.inRange a hmem
      rcases place_self s.table a h.tableOk hrange with ⟨table, hp, hok, hfound⟩
      simp only [placeNext, h.area a ha, toInt32_of_inRange a hrange, hp,
        Option.some.injEq] at hstep
      have hhandled := h.handled
      rw [hin, List.length_cons] at hhandled
      rw [← hstep]
      refine ⟨h.recvs, h.area, h.sends, h.inRange, fun _ => hne, ?_, fun k' hk' => ?_, ?_, ?_, hok,
        fun k' hk' => ?_⟩
      · simp only [inBatch, List.length_append, List.length_singleton]
        omega
      · rcases List.mem_append.mp hk' with hold | hnew
        · exact h.placed k' hold
        · rw [List.mem_singleton.mp hnew]
          exact hmem
      · exact Or.inr (List.getLast?_concat.trans ha.symm)
      · rw [run_append _ _ _ _ _ h.table, run_cons _ a [] _ table hp]
        rfl
      · rw [List.getLast?_concat, Option.some.injEq] at hk'
        rw [← hk']
        exact hfound

theorem arrivalOk_step (n cnLo : Nat) (s : State × List Int) (a : Action) (t : State × List Int)
    (h : ArrivalOk s.1 s.2) (hstep : loggedStep n cnLo s a = some t) : ArrivalOk t.1 t.2 := by
  rcases Option.map_eq_some_iff.mp hstep with ⟨u, hu, rfl⟩
  cases a with
  | deliver c =>
      rw [step] at hu
      split at hu
      · exact arrivalOk_deliver s.1 u s.2 c h hu
      · exact absurd hu (by simp only [reduceCtorEq, not_false_eq_true])
  | server m =>
      simp only [arriving, List.append_nil]
      rw [step] at hu
      cases hpc : s.1.pc with
      | poll =>
          rw [hpc] at hu
          exact arrivalOk_poll n cnLo s.1 u s.2 m h hpc hu
      | batch cn keys =>
          rw [hpc] at hu
          exact arrivalOk_placeNext s.1 u s.2 cn keys h hpc hu

/-- In any run of messages with keys the table is made for, whether or not they overwrite
    one another, the server does to the table what it would do with the keys it places
    alone, as many as it has handled completions; each of them has arrived; and where it has
    handled all there is, the last one it has placed is the last that arrived, which is
    found. -/
theorem recv_run_last (n cnLo : Nat) (sends : Nat → List SendKey)
    (hsends : ∀ c, ∀ k ∈ sends c, InRange k.val) (as : List Action) (t : State) (log : List Int)
    (hrun : run (loggedStep n cnLo) as (State.init n cnLo sends, []) = some (t, log)) :
    run (fun t k => place t k 1 0 3) t.placed setupBuffers = some t.table ∧
      t.placed.length + (inBatch t).length = t.polled.length ∧ (∀ k ∈ t.placed, k ∈ log) ∧
      (¬ Unhandled t → t.placed.getLast? = log.getLast? ∧
        ∀ k, log.getLast? = some k → lookup t.table k ≠ some (-1)) := by
  have h : ArrivalOk t log := run_invariant_along (loggedStep n cnLo) (fun _ _ => True)
    (fun s => ArrivalOk s.1 s.2) (fun s a t h _ hstep => arrivalOk_step n cnLo s a t h hstep) as _
    (t, log) (arrivalOk_init n cnLo sends hsends) (along_true _ _ _) hrun
  refine ⟨h.table, h.handled, h.placed, fun hdone => ?_⟩
  have hlast := h.last.resolve_left hdone
  refine ⟨hlast, fun k hk => ?_⟩
  rw [lookup_ne_iff t.table k (h.inRange k (List.mem_of_getLast? hk))]
  exact h.found k (hlast.trans hk)

/-- The run that loses the first of two messages places the second, twice. -/
theorem recv_run_last_twoSends : ∃ t, run (loggedStep 2 0)
    [.deliver 0, .deliver 1, .server 1, .server 0, .server 0, .server 1, .server 0, .server 0]
      (State.init 2 0 twoSends, []) = some (t, [1, 2]) ∧ t.placed.length = 2 ∧
      (¬ Unhandled t → lookup t.table 2 ≠ some (-1)) := by
  have hres : (run (loggedStep 2 0)
      [.deliver 0, .deliver 1, .server 1, .server 0, .server 0, .server 1, .server 0, .server 0]
        (State.init 2 0 twoSends, [])).map (fun s => (s.2, s.1.placed.length)) =
          some ([1, 2], 2) := by decide +kernel
  rcases Option.map_eq_some_iff.mp hres with ⟨⟨t, log⟩, hrun, hs⟩
  rw [Prod.mk.injEq] at hs
  rcases hs with ⟨rfl, hlength⟩
  have hsends : ∀ c, ∀ k ∈ twoSends c, InRange k.val := by
    intro c
    match c with
    | 0 => decide
    | 1 => decide
    | c + 2 => exact fun k hk => absurd hk List.not_mem_nil
  exact ⟨t, hrun, hlength, fun hdone =>
    ((recv_run_last 2 0 twoSends hsends _ t [1, 2] hrun).2.2.2 hdone).2 2 rfl⟩

end Pilaf

end LocalKeyValue
