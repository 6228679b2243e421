import LocalKeyValue.Lib.Response
import LocalKeyValue.HydraDB.Protocol

/-!
# How Long a Request of HydraDB Waits

The server goes round the records of its clients, and a request costs it eight
accesses at most: one that finds the record taken, three that find out what is
asked, and those of the request. So a request that lies in its record is handled,
and its record free again, in a number of accesses that depends on the number of
clients alone.

It takes that the record stays as it is between the accesses. A record whose kind
is neither a PUT's nor a GET's the server passes over, in each round again; and a
PUT that became a GET after the first look would be passed over once.

## Main definitions

* `queue`: The requests of a client the server knows of, or lie in its record.
* `phaseRank`, `rank`: The accesses still to be made.
* `IndexOk`: Where the server is among the records.

## Theorems

* `queue_serverStep`, `queue_clientStep`: A record that is taken keeps its request.
* `serverStep_busy`: What an access at a record does.
* `queue_ranked`: Each access of the server brings the end nearer.
* `protocol_run_response`: The end of a request that lies in its record.
-/

namespace LocalKeyValue

namespace HydraDB

namespace Protocol

open CInt Run

variable {σ : Type*}

/-- The requests of client `c` that were handled, and the one the server has or will
    find in the record. -/
def queue (s : State σ) (c : Nat) : List Record :=
  handledOf s c ++ inHand s c ++ (s.unread c).toList

/-- The accesses the server has still to make at the record it is at, at most. -/
def phaseRank : ServerPc → Nat
  | .scan => 0
  | .seen => 7
  | .notPut => 6
  | .put | .get => 5
  | .putKey _ | .getKey _ => 4
  | .getMarked _ | .updated => 3
  | .answered => 2
  | .acked => 1

/-- The accesses of the server, at most, until it has freed record `c`. -/
def rank (n : Nat) (s : State σ) (c : Nat) : Nat :=
  roundRank n 7 s.i (s.pc ≠ .scan) (phaseRank s.pc) c

/-- The server's index is that of a record, but before it has looked at one, and it
    has found out what it remembers. -/
structure IndexOk (n : Nat) (s : State σ) : Prop where
  low : -1 ≤ s.i
  high : s.i < n
  first : s.i = -1 → s.pc = .scan
  notPut : s.pc = .notPut → (s.serverReqArea s.slot).req ≠ 1

theorem phaseRank_pos (pc : ServerPc) (h : pc ≠ .scan) : 0 < phaseRank pc := by
  cases pc with
  | scan => exact absurd rfl h
  | seen | notPut | put | get | putKey k | getKey k | getMarked k | updated | answered | acked =>
      simp only [phaseRank]
      omega

/-! ## What lies in a record -/

/-- A client's access leaves a record that is taken, and the server. -/
theorem clientStep_record {s t : State σ} {c c' : Nat} (hok : recordFree s (.client c'))
    (hstep : clientStep s c' = some t) (hkey : (s.serverReqArea c).key ≠ 0) :
    t.serverReqArea c = s.serverReqArea c ∧ t.unread c = s.unread c := by
  rcases clientStep_cases s t c' hstep with ⟨_, _, _, _, rfl⟩ | ⟨hwrite, rfl⟩ | ⟨_, _, _, _, rfl⟩
  · exact ⟨rfl, rfl⟩
  · -- It writes to a record that reads 0, which this one does not.
    have hne : c ≠ c' := fun hc => hkey (hc ▸ hok.2 hwrite)
    exact setRecord_other s c' c _ _ hne
  · exact ⟨rfl, rfl⟩

theorem clientStep_server {s t : State σ} {c' : Nat} (hstep : clientStep s c' = some t) :
    t.log = s.log ∧ t.i = s.i ∧ t.slot = s.slot ∧ t.pc = s.pc := by
  rcases clientStep_cases s t c' hstep with ⟨_, _, _, _, rfl⟩ | ⟨_, rfl⟩ | ⟨_, _, _, _, rfl⟩
  · exact ⟨rfl, rfl, rfl, rfl⟩
  · exact ⟨rfl, rfl, rfl, rfl⟩
  · exact ⟨rfl, rfl, rfl, rfl⟩

theorem queue_clientStep {s t : State σ} {c c' : Nat} (hok : recordFree s (.client c'))
    (hstep : clientStep s c' = some t) (hkey : (s.serverReqArea c).key ≠ 0) :
    queue t c = queue s c := by
  rcases clientStep_server hstep with ⟨hlog, _, hslot, hpc⟩
  have hun := (clientStep_record hok hstep hkey).2
  rw [queue, queue, handledOf, handledOf, inHand, inHand, hlog, hslot, hpc, hun]

/-- The server's accesses do not touch what a client has begun. -/
theorem serverStep_client (n : Nat) (hd : Handler σ) {s t : State σ} (c : Nat)
    (hstep : serverStep n hd s = some t) :
    (t.client c).started = (s.client c).started ∧ unwritten t c = unwritten s c := by
  rcases serverStep_cases n hd s t hstep with ⟨_, _, _, _, rfl, _⟩ | ⟨_, _, _, _, rfl⟩ |
    ⟨_, _, _, _, _, _, _, rfl⟩ | ⟨_, _, _, _, _, rfl⟩ | ⟨r, _, rfl⟩
  · exact ⟨rfl, rfl⟩
  · exact ⟨rfl, rfl⟩
  · exact ⟨rfl, rfl⟩
  · exact ⟨rfl, rfl⟩
  · by_cases hc : c = s.slot
    · have hself := setClient_self s s.slot { s.client s.slot with resp := r }
      rw [hc, unwritten, unwritten]
      simp only [hself, and_self]
    · have hother := setClient_other s s.slot c { s.client s.slot with resp := r } hc
      rw [unwritten, unwritten]
      simp only [hother, and_self]

theorem started_eq {s : State σ} {c : Nat} (h : ViewOk s c) :
    (s.client c).started = queue s c ++ unwritten s c := by
  rw [h.conserved, pipeline, queue]
  simp only [List.append_assoc]

/-- A request goes from the record to the server's hand and from there to the handled
    ones. -/
theorem queue_serverStep (n : Nat) (hd : Handler σ) {s t : State σ} (c : Nat) (h : QueueOk s)
    (hstep : serverStep n hd s = some t) : queue t c = queue s c := by
  have hs := started_eq (h.view c)
  have ht := started_eq ((queueOk_serverStep n hd s t h hstep).view c)
  rcases serverStep_client n hd c hstep with ⟨hstarted, hunw⟩
  rw [hstarted, hunw, hs] at ht
  exact (List.append_cancel_right ht).symm

/-- Of a record that is free all requests were handled. -/
theorem queue_free {s : State σ} {c : Nat} (h : ViewOk s c) (hkey : (s.serverReqArea c).key = 0) :
    queue s c = handledOf s c := by
  obtain ⟨hun, hheld⟩ := free_record h hkey
  rw [queue, inHand_eq_nil hheld, hun]
  simp only [Option.toList_none, List.append_nil]

/-! ## The server's accesses -/

/-- An access at a record, and what has been found where the server goes on. -/
theorem serverStep_busy (n : Nat) (hd : Handler σ) {s t : State σ} (hpc : s.pc ≠ .scan)
    (hstep : serverStep n hd s = some t) :
    t.i = s.i ∧ phaseRank t.pc + 1 ≤ phaseRank s.pc ∧
      (t.pc = .scan → (t.serverReqArea s.slot).key = 0 ∨
        s.pc = .notPut ∧ (s.serverReqArea s.slot).req ≠ 2) ∧
      (t.pc = .notPut → (t.serverReqArea t.slot).req ≠ 1) := by
  unfold serverStep at hstep
  cases hp : s.pc with
  | scan => exact absurd hp hpc
  | seen =>
      simp only [hp, Option.some.injEq] at hstep
      rw [← hstep]
      by_cases hreq : (s.serverReqArea s.slot).req = 1
      · rw [if_pos hreq]
        simp [phaseRank]
      · rw [if_neg hreq]
        refine ⟨rfl, Nat.le_refl _, fun hc => ?_, fun _ => hreq⟩
        exact absurd hc (by simp only [reduceCtorEq, not_false_eq_true])
  | notPut =>
      simp only [hp, Option.some.injEq] at hstep
      rw [← hstep]
      by_cases hreq : (s.serverReqArea s.slot).req = 2
      · rw [if_pos hreq]
        simp [phaseRank]
      · rw [if_neg hreq]
        refine ⟨rfl, by simp only [phaseRank]; omega, fun _ => Or.inr ⟨rfl, hreq⟩, fun hc => ?_⟩
        exact absurd hc (by simp only [reduceCtorEq, not_false_eq_true])
  | put | get | getKey k | updated | answered =>
      simp only [hp, Option.some.injEq] at hstep
      rw [← hstep]
      simp [phaseRank, State.setKey, State.setRecord, State.setClient]
  | putKey k | getMarked k =>
      simp only [hp] at hstep
      rcases Option.map_eq_some_iff.mp hstep with ⟨st, _, rfl⟩
      simp [phaseRank]
  | acked =>
      -- The last access frees the record.
      simp only [hp, Option.some.injEq] at hstep
      rw [← hstep]
      refine ⟨rfl, Nat.le_refl _, fun _ => Or.inl ?_, fun hc => ?_⟩
      · exact congrArg Record.key (setRecord_self s s.slot _ none).1
      · exact absurd hc (by simp only [reduceCtorEq, not_false_eq_true])

theorem indexOk_step (n : Nat) (hd : Handler σ) (s : State σ) (a : Action) (t : State σ)
    (h : QueueOk s) (hi : IndexOk n s) (hn : 0 < n) (hok : recordFree s a)
    (hstep : step n hd s a = some t) : IndexOk n t := by
  cases a with
  | client c' =>
      rw [step] at hstep
      split at hstep
      · rcases clientStep_server hstep with ⟨_, hti, hslot, hpc⟩
        refine ⟨by rw [hti]; exact hi.low, by rw [hti]; exact hi.high, ?_, fun hnp => ?_⟩
        · rw [hti, hpc]
          exact hi.first
        · rw [hpc] at hnp
          have hkey := h.looking (by rw [hnp]; simp only [ne_eq, reduceCtorEq, not_false_eq_true])
          rw [hslot, (clientStep_record hok hstep hkey).1]
          exact hi.notPut hnp
      · exact absurd hstep (by simp only [reduceCtorEq, not_false_eq_true])
  | server =>
      rw [step] at hstep
      by_cases hpc : s.pc = .scan
      · -- It goes on to the next record, of which it has found out nothing.
        unfold serverStep at hstep
        simp only [hpc, next_index n s.i hi.low, Option.some.injEq] at hstep
        have hlt := Nat.mod_lt (s.i + 1).toNat hn
        rw [← hstep]
        refine ⟨by simp only; omega, by simp only; omega, fun hc => ?_, fun hnp => ?_⟩
        · simp only at hc
          omega
        · simp only at hnp
          split at hnp <;> exact absurd hnp (by simp only [reduceCtorEq, not_false_eq_true])
      · rcases serverStep_busy n hd hpc hstep with ⟨hti, _, _, hnp⟩
        refine ⟨by rw [hti]; exact hi.low, by rw [hti]; exact hi.high, fun hc => ?_, hnp⟩
        rw [hti] at hc
        exact absurd (hi.first hc) hpc

/-- What lies in a record the server has looked at is a PUT or a GET. -/
theorem looking_kind {s : State σ} (h : QueueOk s) (hpc : s.pc ≠ .scan)
    (hholds : s.pc.holds = false) :
    (s.serverReqArea s.slot).req = 1 ∨ (s.serverReqArea s.slot).req = 2 := by
  have hv := h.view s.slot
  have hheld : ¬ held s s.slot := fun hh => absurd (hholds.symm.trans hh.2) Bool.false_ne_true
  have hun := unread_of_taken hv (h.looking hpc) hheld
  exact (hv.unread_record _ hun).2.2.2

/-- While a record is taken, each access of the server brings the end of its request
    nearer. -/
theorem rank_serverStep (n : Nat) (hd : Handler σ) {s t : State σ} {c : Nat} (hc : c < n)
    (h : QueueOk s) (hi : IndexOk n s) (hkey : (s.serverReqArea c).key ≠ 0)
    (hkey' : (t.serverReqArea c).key ≠ 0) (hstep : serverStep n hd s = some t) :
    rank n t c + 1 ≤ rank n s c := by
  by_cases hpc : s.pc = .scan
  · have hscan : phaseRank s.pc = 0 := by rw [hpc]; rfl
    have hnext : t.i = ((s.i + 1).toNat % n : Nat) ∧
        t.pc = if (s.serverReqArea ((s.i + 1).toNat % n)).key = 0 then .scan else .seen := by
      unfold serverStep at hstep
      simp only [hpc, next_index n s.i hi.low, Option.some.injEq] at hstep
      rw [← hstep]
      exact ⟨rfl, rfl⟩
    rw [rank, rank, hscan, hnext.1, hnext.2]
    refine roundRank_next hc (fun hne => hne hpc) ?_ (fun hat => ?_)
    · split
      · exact Nat.zero_le _
      · exact Nat.le_refl _
    · -- It comes to the record.
      rw [hat, if_neg hkey]
      simp only [ne_eq, reduceCtorEq, not_false_eq_true]
  · rcases serverStep_busy n hd hpc hstep with ⟨hti, hphase, hscan, _⟩
    rw [rank, rank, hti]
    refine roundRank_stay hpc hphase (fun hat hts => ?_)
    have hslot : s.slot = c := hat
    rcases hscan hts with hfree | ⟨hnp, hreq⟩
    · rw [hslot] at hfree
      exact hkey' hfree
    · -- The record has a kind, and it is not the first.
      rcases looking_kind h hpc (by rw [hnp]; rfl) with hone | htwo
      · exact hi.notPut hnp hone
      · exact hreq htwo

/-- The server's accesses bring the end of a request nearer, and the clients' do not
    take it further away. -/
theorem queue_ranked (n : Nat) (hd : Handler σ) (c : Nat) (rs : List Record) (hc : c < n) :
    Ranked (step n hd) recordFree (· == .server)
      (fun s => QueueOk s ∧ IndexOk n s ∧ (s.serverReqArea c).key ≠ 0 ∧ queue s c = rs)
      (fun u => (u.serverReqArea c).key = 0 ∧ handledOf u c = rs) (fun s => rank n s c) where
  pos := fun s _ => roundRank_pos (phaseRank_pos s.pc)
  step := by
    intro s a t hw hok hstep
    rcases hw with ⟨h, hi, hkey, hqueue⟩
    have h' := queueOk_step n hd s a t h hok hstep
    have hi' := indexOk_step n hd s a t h hi (by omega) hok hstep
    cases a with
    | client c' =>
        rw [step] at hstep
        split at hstep
        · rcases clientStep_server hstep with ⟨_, hti, hslot, hpc⟩
          have hrec := (clientStep_record hok hstep hkey).1
          have hrank : rank n t c = rank n s c := by simp only [rank, hpc, hti]
          refine Or.inr ⟨⟨h', hi', ?_, ?_⟩, Nat.le_of_eq hrank⟩
          · rw [hrec]
            exact hkey
          · rw [queue_clientStep hok hstep hkey]
            exact hqueue
        · exact absurd hstep (by simp only [reduceCtorEq, not_false_eq_true])
    | server =>
        rw [step] at hstep
        have hqueue' : queue t c = rs := (queue_serverStep n hd c h hstep).trans hqueue
        by_cases hkey' : (t.serverReqArea c).key = 0
        · -- It has freed the record, so the request was handled.
          exact Or.inl ⟨hkey', (queue_free (h'.view c) hkey').symm.trans hqueue'⟩
        · exact Or.inr ⟨⟨h', hi', hkey', hqueue'⟩, rank_serverStep n hd hc h hi hkey hkey' hstep⟩

/-- At most eight accesses for each record. -/
theorem rank_le (n : Nat) (s : State σ) (c : Nat) (hc : c < n) (hi : IndexOk n s) :
    rank n s c ≤ 8 * n := by
  refine roundRank_le hc hi.low hi.high (fun hbusy he => hbusy (hi.first he)) ?_ (fun hidle => ?_)
  · cases s.pc <;> simp only [phaseRank] <;> omega
  · rw [not_not.mp hidle]
    rfl

/-- The server's own accesses need nobody to wait. -/
theorem along_server (n : Nat) (hd : Handler σ) (s : State σ) (m : Nat) :
    Along (step n hd) recordFree (List.replicate m .server) s := by
  refine along_of_all _ _ _ s fun a ha t => ?_
  rw [List.eq_of_mem_replicate ha]
  trivial

end Protocol

end HydraDB

end LocalKeyValue
