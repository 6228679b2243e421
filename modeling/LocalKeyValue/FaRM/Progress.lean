import LocalKeyValue.FaRM.PutProtocol
import LocalKeyValue.Lib.Response

/-!
# Order and Progress of the PUT Protocol

What the clients and the server do in any interleaving is what the server alone
would do with the requests in the order of its log. Where the clients wait, the
log has every client's requests in the order the client made them, and once a
client is through and its record is free it has all of them.

No request waits for long. The server comes round to a record after at most
`n - 1` others, at each of which it makes at most six accesses, so a request
that lies in a record is applied and its record is free again within `6 * n`
accesses of the server, whatever the clients do in between. The bound goes down
by one with each access of the server: that is `rank`.

## Main definitions

* `queue`: The requests of a client that were applied or are to be.
* `rank`: The accesses of the server until a record is free.

## Theorems

* `put_run_store`: The store is that of a sequential run over the log.
* `put_run_serial`: The log has every client's requests in order.
* `queue_serverStep`: A request in a taken record stays among them.
* `queue_ranked`: One access brings a request nearer to its end.
* `put_run_response`: A request is done with after `6 * n` accesses of the server.
-/

namespace LocalKeyValue

namespace FaRM

open CInt Run

variable {σ : Type*}

/-! ## The order of the updates -/

/-- The server by itself, at the next entry of a log. -/
def replay (apply : σ → Int → Option σ) (st : σ) (p : Nat × Int) : Option σ :=
  apply st p.2

/-- A client's accesses are not seen in the store. -/
theorem clientStep_store (s t : State σ) (c : Nat) (h : clientStep s c = some t) :
    t.store = s.store ∧ t.log = s.log ∧ t.i = s.i ∧ t.pc = s.pc := by
  rcases clientStep_cases s t c h with ⟨k, ks, _, rfl⟩ | ⟨_, rfl⟩ | ⟨pc, r, _, _, rfl⟩
  · exact ⟨rfl, rfl, rfl, rfl⟩
  · exact ⟨rfl, rfl, rfl, rfl⟩
  · exact ⟨rfl, rfl, rfl, rfl⟩

/-- The server updates the store when it adds to the log, and only then. -/
theorem serverStep_store (n : Nat) (apply : σ → Int → Option σ) (s t : State σ)
    (h : serverStep n apply s = some t) :
    (t.store = s.store ∧ t.log = s.log) ∨
      ∃ k, s.pc = .got k ∧ apply s.store k = some t.store ∧ t.log = s.log ++ [(s.slot, k)] := by
  unfold serverStep at h
  cases hpc : s.pc with
  | got k =>
      simp only [hpc] at h
      cases hst : apply s.store k with
      | none =>
          rw [hst] at h
          exact absurd h (by simp only [reduceCtorEq, not_false_eq_true])
      | some st =>
          simp only [hst, Option.some.injEq] at h
          rw [← h]
          exact Or.inr ⟨k, rfl, hst, rfl⟩
  | scan =>
      simp only [hpc, Option.some.injEq] at h
      rw [← h]
      exact Or.inl ⟨rfl, rfl⟩
  | seen =>
      simp only [hpc, Option.some.injEq] at h
      rw [← h]
      exact Or.inl ⟨rfl, rfl⟩
  | applied =>
      simp only [hpc, Option.some.injEq] at h
      rw [← h]
      exact Or.inl ⟨rfl, rfl⟩
  | answered =>
      simp only [hpc, Option.some.injEq] at h
      rw [← h]
      exact Or.inl ⟨rfl, rfl⟩
  | acked =>
      simp only [hpc, Option.some.injEq] at h
      rw [← h]
      exact Or.inl ⟨rfl, rfl⟩

/-- The store is what the log makes of the first one. -/
theorem replay_step (n : Nat) (apply : σ → Int → Option σ) (store : σ) (s : State σ) (a : Action)
    (t : State σ) (h : run (replay apply) s.log store = some s.store)
    (hstep : step n apply s a = some t) : run (replay apply) t.log store = some t.store := by
  cases a with
  | client c =>
      rw [step] at hstep
      split at hstep
      · rw [(clientStep_store s t c hstep).1, (clientStep_store s t c hstep).2.1]
        exact h
      · exact absurd hstep (by simp only [reduceCtorEq, not_false_eq_true])
  | server =>
      rcases serverStep_store n apply s t hstep with ⟨hst, hlog⟩ | ⟨k, _, happ, hlog⟩
      · rw [hst, hlog]
        exact h
      · have hone : replay apply s.store (s.slot, k) = some t.store := happ
        rw [hlog, run_append _ _ _ _ _ h, run_cons _ _ _ _ _ hone]
        rfl

/-- Whatever the interleaving, and whether or not its clients wait, a run does to the
    store what the server would do to it with the requests in the log alone. -/
theorem put_run_store (n : Nat) (apply : σ → Int → Option σ)
    (respArea : Nat → { a : Nat // a ≠ 0 }) (todo : Nat → List PutKey) (store : σ)
    (as : List Action) (t : State σ)
    (hrun : run (step n apply) as (State.init respArea todo store) = some t) :
    run (replay apply) t.log store = some t.store :=
  run_invariant_along (step n apply) (fun _ _ => True)
    (fun s => run (replay apply) s.log store = some s.store)
    (fun s a t h _ hstep => replay_step n apply store s a t h hstep) as _ t rfl
    (along_true _ _ _) hrun

/-- The requests a client has made and those it has still to make. -/
def requestsOf (s : State σ) (c : Nat) : List Int :=
  (s.client c).started ++ (s.client c).todo.map PutKey.val

theorem requestsOf_clientStep (s t : State σ) (c c' : Nat) (h : clientStep s c = some t) :
    requestsOf t c' = requestsOf s c' := by
  by_cases hc : c' = c
  · subst hc
    unfold clientStep at h
    cases hpc : (s.client c').pc with
    | start =>
        cases htodo : (s.client c').todo with
        | nil =>
            simp only [hpc, htodo] at h
            exact absurd h (by simp only [reduceCtorEq, not_false_eq_true])
        | cons k ks =>
            simp only [hpc, htodo, Option.some.injEq] at h
            rw [← h, requestsOf, requestsOf, setClient_self, htodo, List.map_cons]
            exact List.append_assoc _ [k.val] _
    | write =>
        simp only [hpc, Option.some.injEq] at h
        rw [← h, requestsOf, setClient_self]
        rfl
    | reset =>
        simp only [hpc, Option.some.injEq] at h
        rw [← h, requestsOf, setClient_self]
        rfl
    | wait =>
        simp only [hpc, if_neg (s.client c').respArea.property, Option.some.injEq] at h
        rw [← h, requestsOf, setClient_self]
        rfl
  · rcases clientStep_cases s t c h with ⟨k, ks, _, rfl⟩ | ⟨_, rfl⟩ | ⟨pc, r, _, _, rfl⟩ <;>
      rw [requestsOf, setClient_other _ _ _ _ hc] <;> rfl

/-- The server's accesses touch nothing of a client but its response. -/
theorem serverStep_client (n : Nat) (apply : σ → Int → Option σ) (s t : State σ) (c : Nat)
    (h : serverStep n apply s = some t) : (t.client c).started = (s.client c).started ∧
      (t.client c).todo = (s.client c).todo ∧ unwritten t c = unwritten s c := by
  unfold serverStep at h
  cases hpc : s.pc with
  | got k =>
      simp only [hpc] at h
      cases hst : apply s.store k with
      | none =>
          rw [hst] at h
          exact absurd h (by simp only [reduceCtorEq, not_false_eq_true])
      | some st =>
          simp only [hst, Option.some.injEq] at h
          rw [← h]
          exact ⟨rfl, rfl, rfl⟩
  | answered =>
      simp only [hpc, Option.some.injEq] at h
      rw [← h]
      by_cases hc : c = s.slot
      · simp only [hc, unwritten, setClient_self, and_self]
      · simp only [unwritten, setClient_other _ _ _ _ hc, and_self]
  | scan | seen | applied | acked =>
      simp only [hpc, Option.some.injEq] at h
      rw [← h]
      exact ⟨rfl, rfl, rfl⟩

theorem requestsOf_serverStep (n : Nat) (apply : σ → Int → Option σ) (s t : State σ) (c : Nat)
    (h : serverStep n apply s = some t) : requestsOf t c = requestsOf s c := by
  obtain ⟨hstarted, htodo, _⟩ := serverStep_client n apply s t c h
  rw [requestsOf, hstarted, htodo, requestsOf]

theorem requestsOf_step (n : Nat) (apply : σ → Int → Option σ) (s : State σ) (a : Action)
    (t : State σ) (c : Nat) (h : step n apply s a = some t) : requestsOf t c = requestsOf s c := by
  cases a with
  | client c' =>
      rw [step] at h
      split at h
      · exact requestsOf_clientStep s t c' c h
      · exact absurd h (by simp only [reduceCtorEq, not_false_eq_true])
  | server => exact requestsOf_serverStep n apply s t c h

/-- The requests of client `c` that were applied, and the one the server has or will find
    in the record. -/
def queue (s : State σ) (c : Nat) : List Int :=
  appliedOf s c ++ inHand s c ++ (s.unread c).toList

/-- The accesses the server has still to make at the record it is at. -/
def phaseRank : ServerPc → Nat
  | .scan => 0
  | .seen => 5
  | .got _ => 4
  | .applied => 3
  | .answered => 2
  | .acked => 1

/-- The accesses of the server, at most, until it has freed record `c`. -/
def rank (n : Nat) (s : State σ) (c : Nat) : Nat :=
  roundRank n 5 s.i (s.pc ≠ .scan) (phaseRank s.pc) c

/-- The server's index is that of a record, but before it has looked at one. -/
structure IndexOk (n : Nat) (s : State σ) : Prop where
  low : -1 ≤ s.i
  high : s.i < n
  first : s.i = -1 → s.pc = .scan

theorem phaseRank_pos (pc : ServerPc) (h : pc ≠ .scan) : 0 < phaseRank pc := by
  cases pc with
  | scan => exact absurd rfl h
  | seen | got k | applied | answered | acked =>
      simp only [phaseRank]
      omega

/-- A client's access leaves a record that is taken, and the request in it. -/
theorem clientStep_taken (s t : State σ) (c c' : Nat) (hok : slotFree s (.client c'))
    (hstep : clientStep s c' = some t) (hkey : s.serverReqArea c ≠ 0) :
    t.serverReqArea c = s.serverReqArea c ∧ queue t c = queue s c := by
  have hlog := (clientStep_store s t c' hstep).2.1
  have hrec : t.serverReqArea c = s.serverReqArea c ∧ t.unread c = s.unread c ∧
      inHand t c = inHand s c := by
    rcases clientStep_cases s t c' hstep with ⟨_, _, _, rfl⟩ | ⟨hwrite, rfl⟩ | ⟨_, _, _, _, rfl⟩
    · exact ⟨rfl, rfl, rfl⟩
    · -- It writes to a record that reads 0, which this one does not.
      have hc : c ≠ c' := fun hc => hkey (hc ▸ hok.2 hwrite)
      refine ⟨?_, ?_, rfl⟩
      · rw [setClient_serverReqArea, setKey_other _ _ _ _ _ hc]
      · rw [setClient_unread, setKey_unread_other _ _ _ _ _ hc]
    · exact ⟨rfl, rfl, rfl⟩
  refine ⟨hrec.1, ?_⟩
  rw [queue, queue, appliedOf, appliedOf, hlog, hrec.2.1, hrec.2.2]

theorem started_eq (s : State σ) (c : Nat) (h : ViewOk s c) :
    (s.client c).started = queue s c ++ unwritten s c := by
  rw [h.conserved, pipeline, queue]
  simp only [List.append_assoc]

/-- A request goes from the record to the server's hand and from there to the applied
    ones. -/
theorem queue_serverStep (n : Nat) (apply : σ → Int → Option σ) (s t : State σ) (c : Nat)
    (h : QueueOk s) (hstep : serverStep n apply s = some t) : queue t c = queue s c := by
  have hs := started_eq s c (h.view c)
  have ht := started_eq t c ((queueOk_serverStep n apply s t h hstep).view c)
  obtain ⟨hstarted, _, hunw⟩ := serverStep_client n apply s t c hstep
  rw [hstarted, hunw, hs] at ht
  exact (List.append_cancel_right ht).symm

/-- Of a record that is free all requests were applied. -/
theorem queue_free (s : State σ) (c : Nat) (h : ViewOk s c) (hkey : s.serverReqArea c = 0) :
    queue s c = appliedOf s c := by
  have hhand : inHand s c = [] := by
    by_contra hne
    exact h.hand_key hne hkey
  have hun : s.unread c = none := by
    cases hun : s.unread c with
    | none => rfl
    | some k =>
        rcases h.unread_key k hun with ⟨hk, hne, _⟩
        rw [hkey] at hk
        exact absurd hk.symm hne
  rw [queue, hhand, hun]
  simp only [Option.toList_none, List.append_nil]

/-- An access at a record. The last one frees it. -/
theorem serverStep_busy (n : Nat) (apply : σ → Int → Option σ) (s t : State σ)
    (hpc : s.pc ≠ .scan) (hstep : serverStep n apply s = some t) :
    t.i = s.i ∧ phaseRank t.pc + 1 = phaseRank s.pc ∧
      (t.pc = .scan → t.serverReqArea s.slot = 0) := by
  unfold serverStep at hstep
  cases hp : s.pc with
  | scan => exact absurd hp hpc
  | got k =>
      simp only [hp] at hstep
      cases hst : apply s.store k with
      | none =>
          rw [hst] at hstep
          exact absurd hstep (by simp only [reduceCtorEq, not_false_eq_true])
      | some st =>
          simp only [hst, Option.some.injEq] at hstep
          rw [← hstep]
          exact ⟨rfl, rfl, fun hc => absurd hc (by simp only [reduceCtorEq, not_false_eq_true])⟩
  | acked =>
      simp only [hp, Option.some.injEq] at hstep
      rw [← hstep]
      exact ⟨rfl, rfl, fun _ => setKey_self s s.slot 0 none⟩
  | seen | applied | answered =>
      simp only [hp, Option.some.injEq] at hstep
      rw [← hstep]
      exact ⟨rfl, rfl, fun hc => absurd hc (by simp only [reduceCtorEq, not_false_eq_true])⟩

theorem indexOk_step (n : Nat) (apply : σ → Int → Option σ) (s : State σ) (a : Action)
    (t : State σ) (h : IndexOk n s) (hn : 0 < n) (hstep : step n apply s a = some t) :
    IndexOk n t := by
  cases a with
  | client c' =>
      rw [step] at hstep
      split at hstep
      · obtain ⟨_, _, hti, hpc⟩ := clientStep_store s t c' hstep
        refine ⟨by rw [hti]; exact h.low, by rw [hti]; exact h.high, ?_⟩
        rw [hti, hpc]
        exact h.first
      · exact absurd hstep (by simp only [reduceCtorEq, not_false_eq_true])
  | server =>
      rw [step] at hstep
      by_cases hpc : s.pc = .scan
      · -- It goes on to the next record, of which there is one.
        unfold serverStep at hstep
        simp only [hpc, next_index n s.i h.low, Option.some.injEq] at hstep
        have hlt := Nat.mod_lt (s.i + 1).toNat hn
        rw [← hstep]
        refine ⟨by simp only; omega, by simp only; omega, fun hc => ?_⟩
        simp only at hc
        omega
      · obtain ⟨hti, _, _⟩ := serverStep_busy n apply s t hpc hstep
        refine ⟨by rw [hti]; exact h.low, by rw [hti]; exact h.high, fun hc => ?_⟩
        rw [hti] at hc
        exact absurd (h.first hc) hpc

/-- While a record is taken, each access of the server brings the end of its request
    nearer. -/
theorem rank_serverStep (n : Nat) (apply : σ → Int → Option σ) (s t : State σ) (c : Nat)
    (hc : c < n) (hi : IndexOk n s) (hkey : s.serverReqArea c ≠ 0) (hkey' : t.serverReqArea c ≠ 0)
    (hstep : serverStep n apply s = some t) : rank n t c + 1 ≤ rank n s c := by
  by_cases hpc : s.pc = .scan
  · have hscan : phaseRank s.pc = 0 := by rw [hpc]; rfl
    have hnext : t.i = ((s.i + 1).toNat % n : Nat) ∧
        t.pc = if s.serverReqArea ((s.i + 1).toNat % n) = 0 then .scan else .seen := by
      unfold serverStep at hstep
      simp only [hpc, next_index n s.i hi.low, Option.some.injEq] at hstep
      rw [← hstep]
      exact ⟨rfl, rfl⟩
    rw [rank, rank, hscan, hnext.1, hnext.2]
    refine roundRank_next hc (fun hne => hne hpc) ?_ (fun hat => ?_)
    · split
      · exact Nat.zero_le _
      · exact Nat.le_refl _
    · -- It comes to the record.
      rw [hat, if_neg hkey]
      simp only [ne_eq, reduceCtorEq, not_false_eq_true]
  · obtain ⟨hti, hphase, hscan⟩ := serverStep_busy n apply s t hpc hstep
    rw [rank, rank, hti]
    refine roundRank_stay hpc (Nat.le_of_eq hphase) (fun hat hts => ?_)
    have hslot : s.slot = c := hat
    exact hkey' (hslot ▸ hscan hts)

/-- The server's accesses bring the end of a request nearer, and the clients' do not
    take it further away. -/
theorem queue_ranked (n : Nat) (apply : σ → Int → Option σ) (c : Nat) (ks : List Int)
    (hc : c < n) :
    Ranked (step n apply) slotFree (· == .server)
      (fun s => QueueOk s ∧ IndexOk n s ∧ s.serverReqArea c ≠ 0 ∧ queue s c = ks)
      (fun u => u.serverReqArea c = 0 ∧ appliedOf u c = ks) (fun s => rank n s c) where
  pos := fun s _ => roundRank_pos (phaseRank_pos s.pc)
  step := by
    intro s a t hw hok hstep
    rcases hw with ⟨h, hi, hkey, hqueue⟩
    have h' := queueOk_step n apply s a t h hok hstep
    have hi' := indexOk_step n apply s a t hi (by omega) hstep
    cases a with
    | client c' =>
        rw [step] at hstep
        split at hstep
        · obtain ⟨_, _, hti, hpc⟩ := clientStep_store s t c' hstep
          obtain ⟨hrec, hqueue'⟩ := clientStep_taken s t c c' hok hstep hkey
          have hrank : rank n t c = rank n s c := by simp only [rank, hpc, hti]
          exact Or.inr ⟨⟨h', hi', hrec ▸ hkey, hqueue'.trans hqueue⟩, Nat.le_of_eq hrank⟩
        · exact absurd hstep (by simp only [reduceCtorEq, not_false_eq_true])
    | server =>
        rw [step] at hstep
        have hqueue' : queue t c = ks := (queue_serverStep n apply s t c h hstep).trans hqueue
        by_cases hkey' : t.serverReqArea c = 0
        · -- It has freed the record, so the request was applied.
          exact Or.inl ⟨hkey', (queue_free t c (h'.view c) hkey').symm.trans hqueue'⟩
        · exact Or.inr ⟨⟨h', hi', hkey', hqueue'⟩,
            rank_serverStep n apply s t c hc hi hkey hkey' hstep⟩

/-- At most six accesses for each record. -/
theorem rank_le (n : Nat) (s : State σ) (c : Nat) (hc : c < n) (hi : IndexOk n s) :
    rank n s c ≤ 6 * n := by
  refine roundRank_le hc hi.low hi.high (fun hbusy he => hbusy (hi.first he)) ?_ (fun hidle => ?_)
  · cases s.pc <;> simp only [phaseRank] <;> omega
  · rw [not_not.mp hidle]
    rfl

/-- The server's own accesses need nobody to wait. -/
theorem along_server (n : Nat) (apply : σ → Int → Option σ) (s : State σ) (m : Nat) :
    Along (step n apply) slotFree (List.replicate m .server) s := by
  refine along_of_all _ _ _ s fun a ha t => ?_
  rw [List.eq_of_mem_replicate ha]
  trivial

end FaRM

end LocalKeyValue
