import LocalKeyValue.Lib.Response
import LocalKeyValue.Pilaf.Flow

/-!
# How Long a PUT of Pilaf Waits

The server polls its clients in turn and answers what it finds before it goes
on. A poll takes all that has arrived of a client, which is one PUT at most,
since a client has one under way. So a client costs the server five statements
at most before its turn comes to the next one, and a PUT that has arrived is
answered in a number of them that depends on the number of clients alone.

## Main definitions

* `Eager`: A poll takes what has arrived.
* `rank`: The statements of the server before the answer.
* `Arrived`: A PUT that has arrived and is not answered.

## Theorems

* `serverStep_busy`: What a statement between two polls does.
* `arrived_ranked`: Each statement of the server brings the answer nearer.
* `flow_run_response`: The answer to a PUT that has arrived.
-/

namespace LocalKeyValue

namespace Pilaf

namespace Flow

open Run Verbs

/-- A poll takes what has arrived, up to the `Q_DEPTH` it asks for. -/
def Eager (n cnLo : Nat) (s : State) : Action → Prop
  | .server m => s.server.prog.pc = .poll →
      m = min qDepth (s.toServer (cnLo + (s.server.prog.iter + 1) % n)).done
  | .client _ _ | .arriveServer _ | .arriveClient _ => True

instance (n cnLo : Nat) (s : State) (a : Action) : Decidable (Eager n cnLo s a) :=
  match a with
  | .server m => inferInstanceAs (Decidable (s.server.prog.pc = .poll →
      m = min qDepth (s.toServer (cnLo + (s.server.prog.iter + 1) % n)).done))
  | .client _ _ | .arriveServer _ | .arriveClient _ => isTrue trivial

def Action.isServer : Action → Bool
  | .server _ => true
  | .client _ _ | .arriveServer _ | .arriveClient _ => false

/-- The statements before the next poll, at most. -/
def phaseRank (n cnLo : Nat) : ServerPc → Nat
  | .postRecvs cn => cnLo + n - cn + n + 2
  | .greet cn => cnLo + n - cn + 1
  | .poll => 0
  | .topUp _ k => 2 * k + 2
  | .reply _ k => 2 * k + 1
  | .signalled _ k => 2 * k + 2

/-- The statements of the server, at most, until it has answered client `c`. -/
def rank (n cnLo : Nat) (s : ServerState) (c : Nat) : Nat :=
  if inBatch s.pc c = 0 then phaseRank n cnLo s.pc + 5 * turn n ((s.iter + 1) % n) (c - cnLo) + 4
  else phaseRank n cnLo s.pc - 1

/-- A PUT of client `c` has arrived and is not answered, and the server has sent the
    client `k` messages. -/
def Arrived (s : State) (c k : Nat) : Prop :=
  (s.toServer c).done + inBatch s.server.prog.pc c = 1 ∧ s.server.prog.totSends c = k

/-- It is answered. -/
def Answered (s : State) (c k : Nat) : Prop :=
  atServer s c = 0 ∧ (s.toClient c).flying = 1 ∧ s.server.prog.totSends c = k + 1

/-! ## The server's statements -/

section Server

variable (n cnLo : Nat) {s : ServerState}

/-- A statement between two polls brings the next one nearer. -/
theorem serverStep_busy (m c : Nat) (hpc : s.pc ≠ .poll) :
    (serverStep n cnLo s m).1.iter = s.iter ∧
      phaseRank n cnLo (serverStep n cnLo s m).1.pc + 1 ≤ phaseRank n cnLo s.pc ∧
      ungreeted (serverStep n cnLo s m).1.pc c ≤ ungreeted s.pc c := by
  unfold serverStep
  cases hp : s.pc with
  | poll => exact absurd hp hpc
  | postRecvs cn =>
      simp only
      split
      · refine ⟨rfl, ?_, Nat.le_refl _⟩
        simp only [phaseRank]
        omega
      · refine ⟨rfl, ?_, ?_⟩
        · simp only [phaseRank]
          omega
        · simp only [ungreeted]
          split <;> omega
  | greet cn =>
      simp only
      split
      · refine ⟨rfl, ?_, ?_⟩
        · simp only [phaseRank]
          omega
        · simp only [ungreeted]
          split <;> split <;> omega
      · exact ⟨rfl, Nat.le_add_left _ _, Nat.zero_le _⟩
  | topUp cn k =>
      simp only
      split <;> exact ⟨rfl, Nat.le_refl _, Nat.le_refl _⟩
  | reply cn k =>
      cases k with
      | zero => exact ⟨rfl, Nat.le_refl _, Nat.le_refl _⟩
      | succ k =>
          simp only
          split
          · exact ⟨rfl, Nat.le_refl _, Nat.le_refl _⟩
          · refine ⟨rfl, ?_, Nat.le_refl _⟩
            simp only [phaseRank]
            omega
  | signalled cn k => exact ⟨rfl, Nat.le_refl _, Nat.le_refl _⟩

/-- A poll goes on to the next client, with what it has found. -/
theorem serverStep_poll (m : Nat) (hpc : s.pc = .poll) :
    (serverStep n cnLo s m).1.iter = s.iter + 1 ∧
      (serverStep n cnLo s m).1.pc =
        if m = 0 then .poll else .topUp (cnLo + (s.iter + 1) % n) m := by
  unfold serverStep
  simp only [hpc]
  split <;> exact ⟨rfl, rfl⟩

theorem phaseRank_of_inBatch (pc : ServerPc) (c : Nat) (h : inBatch pc c ≠ 0) :
    2 ≤ phaseRank n cnLo pc := by
  cases pc with
  | postRecvs cn | greet cn | poll => exact absurd rfl h
  | topUp cn k =>
      simp only [phaseRank]
      omega
  | reply cn k =>
      simp only [inBatch] at h
      split at h
      · simp only [phaseRank]
        omega
      · exact absurd rfl h
  | signalled cn k =>
      simp only [phaseRank]
      omega

end Server

/-! ## The rank -/

section Rank

variable {n cnLo sn : Nat} {s t : State} {c k : Nat}

/-- No more of a client is under way than its PUT. -/
theorem arrived_alone (h : FlowOk n cnLo sn s) (hc : Served n cnLo c) (harr : Arrived s c k) :
    (s.toServer c).flying = 0 ∧ ungreeted s.server.prog.pc c = 0 ∧
      (s.toClient c).flying = 0 ∧ (s.toClient c).done = 0 := by
  have htoken := h.token c hc
  have howed := owed_le_one (s.client c).prog
  have hone := harr.1
  simp only [underWay, atServer] at htoken
  omega

/-- The server has one answer of a client in hand, or none. -/
theorem inBatch_le_one (h : FlowOk n cnLo sn s) (hc : Served n cnLo c) :
    (s.toServer c).done + inBatch s.server.prog.pc c ≤ 1 := by
  have htoken := h.token c hc
  have howed := owed_le_one (s.client c).prog
  simp only [underWay, atServer] at htoken
  omega

/-- A statement between two polls answers the PUT or brings the answer nearer. -/
theorem arrived_busy (h : FlowOk n cnLo sn s) (h' : FlowOk n cnLo sn t) (hc : Served n cnLo c)
    (harr : Arrived s c k) (m : Nat) (hpc : s.server.prog.pc ≠ .poll)
    (hstep : serverMove n cnLo s m = some t) :
    Answered t c k ∨ Arrived t c k ∧
      rank n cnLo t.server.prog c + 1 ≤ rank n cnLo s.server.prog c := by
  rcases Option.map_eq_some_iff.mp hstep with ⟨⟨u, out, into⟩, hlink, rfl⟩
  rcases linkedStep_spec _ _ _ _ _ _ _ _ hlink with ⟨htr, hwires⟩
  have hprog := trackedStep_prog _ _ _ _ htr
  rcases hwires c with ⟨hflying, hdone, hflying', hdone'⟩
  rcases serverStep_flow n cnLo s.server.prog m c hc with ⟨hflow, hsends⟩
  rcases serverStep_busy n cnLo m c hpc with ⟨hiter, hphase, hungreeted⟩
  -- Only a poll takes completions.
  have htaken : takenOn (serverStep n cnLo s.server.prog m).2 c = 0 := by
    rw [takenOn_server, if_neg fun hc => hpc hc.1]
  rcases arrived_alone h hc harr with ⟨hz1, hz2, hz3, hz4⟩
  rcases harr with ⟨hone, htot⟩
  rw [← hprog] at hflow hsends hiter hphase hungreeted
  by_cases hsent : sentOn (serverStep n cnLo s.server.prog m).2 c = 0
  · -- What the server had in hand it still has.
    have hbatch : inBatch u.prog.pc c = inBatch s.server.prog.pc c := by omega
    refine Or.inr ⟨⟨?_, ?_⟩, ?_⟩
    · simp only
      omega
    · simp only
      omega
    · simp only [rank, hbatch, hiter]
      split
      · omega
      · rename_i hin
        have htwo := phaseRank_of_inBatch n cnLo u.prog.pc c (hbatch ▸ hin)
        omega
  · -- It sends, and this was the one answer.
    have htoken := h'.token c hc
    have howed := owed_le_one (s.client c).prog
    simp only [underWay, atServer] at htoken
    left
    refine ⟨?_, ?_, ?_⟩
    · simp only [atServer]
      omega
    · simp only
      omega
    · simp only
      omega

/-- A poll of another client brings the turn nearer, and one of this client finds its
    PUT. -/
theorem arrived_poll (h : FlowOk n cnLo sn s) (hn : 0 < n) (hc : Served n cnLo c)
    (harr : Arrived s c k) (m : Nat) (hpc : s.server.prog.pc = .poll)
    (hm : m = min qDepth (s.toServer (cnLo + (s.server.prog.iter + 1) % n)).done)
    (hstep : serverMove n cnLo s m = some t) :
    Arrived t c k ∧ rank n cnLo t.server.prog c + 1 ≤ rank n cnLo s.server.prog c := by
  rcases Option.map_eq_some_iff.mp hstep with ⟨⟨u, out, into⟩, hlink, rfl⟩
  rcases linkedStep_spec _ _ _ _ _ _ _ _ hlink with ⟨htr, hwires⟩
  have hprog := trackedStep_prog _ _ _ _ htr
  rcases hwires c with ⟨_, _, _, hdone'⟩
  rcases serverStep_flow n cnLo s.server.prog m c hc with ⟨hflow, hsends⟩
  rcases serverStep_poll n cnLo m hpc with ⟨hiter, hpc'⟩
  have hlt := Nat.mod_lt (s.server.prog.iter + 1) hn
  have hcn : Served n cnLo (cnLo + (s.server.prog.iter + 1) % n) :=
    ⟨Nat.le_add_right _ _, Nat.add_lt_add_left hlt _⟩
  have hle := inBatch_le_one h hcn
  have hlow : cnLo ≤ c := hc.1
  have hhigh : c < cnLo + n := hc.2
  rcases harr with ⟨hone, htot⟩
  rw [← hprog] at hflow hsends hiter hpc'
  rw [takenOn_server] at hflow hdone'
  simp only [hpc, true_and, inBatch, ungreeted] at hflow hdone' hle hone
  have hq : 1 ≤ qDepth := by decide
  by_cases hturn : (s.server.prog.iter + 1) % n = c - cnLo
  · -- Its own turn: it polls what the client has sent.
    have hcc : c = cnLo + (s.server.prog.iter + 1) % n := by omega
    rw [← hcc] at hm hpc' hflow hdone'
    rw [if_pos rfl] at hflow hdone'
    have hone' : m = 1 := by omega
    rw [hone', if_neg Nat.one_ne_zero] at hpc'
    simp only [hpc', if_true] at hflow
    refine ⟨⟨?_, ?_⟩, ?_⟩
    · simp only [hpc', inBatch, if_true]
      omega
    · simp only
      omega
    · simp only [rank, hpc', hpc, inBatch, if_true, phaseRank]
      rw [if_neg Nat.one_ne_zero]
      omega
  · have hcc : c ≠ cnLo + (s.server.prog.iter + 1) % n := by omega
    rw [if_neg hcc] at hflow hdone'
    have hnear := turn_next n _ (c - cnLo) hlt (by omega) hturn
    rw [Nat.mod_add_mod] at hnear
    by_cases hzero : m = 0
    · rw [if_pos hzero] at hpc'
      simp only [hpc'] at hflow
      refine ⟨⟨?_, ?_⟩, ?_⟩
      · simp only [hpc', inBatch]
        omega
      · simp only
        omega
      · simp only [rank, hpc', hpc, hiter, inBatch, if_true, phaseRank]
        omega
    · -- It has one PUT of another client to answer first.
      have hone' : m = 1 := by omega
      rw [hone', if_neg Nat.one_ne_zero] at hpc'
      simp only [hpc', if_neg hcc] at hflow
      refine ⟨⟨?_, ?_⟩, ?_⟩
      · simp only [hpc', inBatch, if_neg hcc]
        omega
      · simp only
        omega
      · simp only [rank, hpc', hpc, hiter, inBatch, if_neg hcc, if_true, phaseRank]
        omega

/-- A client's statement, and a message that arrives, leave a PUT with the server where
    it is. -/
theorem arrived_other (h' : FlowOk n cnLo sn t) (hc : Served n cnLo c) (harr : Arrived s c k)
    (hserver : t.server = s.server) (hdone : (s.toServer c).done ≤ (t.toServer c).done) :
    Arrived t c k ∧ rank n cnLo t.server.prog c = rank n cnLo s.server.prog c := by
  have hle := inBatch_le_one h' hc
  rcases harr with ⟨hone, htot⟩
  rw [hserver] at hle
  refine ⟨⟨?_, ?_⟩, ?_⟩
  · rw [hserver]
    omega
  · rw [hserver]
    exact htot
  · rw [hserver]

/-- What the others do takes nothing from the server. -/
theorem step_other (a : Action) (hstep : step n cnLo sn s a = some t)
    (ha : a.isServer = false) :
    t.server = s.server ∧ (s.toServer c).done ≤ (t.toServer c).done := by
  cases a with
  | server m => exact absurd ha (by simp only [Action.isServer, Bool.true_eq_false,
      not_false_eq_true])
  | client c' choice =>
      rw [step] at hstep
      split at hstep
      · rcases Option.map_eq_some_iff.mp hstep with ⟨⟨u, out, into⟩, hlink, rfl⟩
        have hdone := ((linkedStep_spec _ _ _ _ _ _ _ _ hlink).2 sn).2.1
        refine ⟨rfl, ?_⟩
        by_cases hcc : c = c'
        · simp only [hcc, Function.update_self]
          exact Nat.le_of_eq hdone.symm
        · simp only [Function.update_of_ne hcc]
          exact Nat.le_refl _
      · exact absurd hstep (by simp only [reduceCtorEq, not_false_eq_true])
  | arriveServer c' =>
      rw [step] at hstep
      split at hstep
      · rcases Option.map_eq_some_iff.mp hstep with ⟨w, hw, rfl⟩
        have hdone := (arrive_eq_some _ _ _ hw).2
        refine ⟨rfl, ?_⟩
        by_cases hcc : c = c'
        · simp only [hcc, Function.update_self]
          omega
        · simp only [Function.update_of_ne hcc]
          exact Nat.le_refl _
      · exact absurd hstep (by simp only [reduceCtorEq, not_false_eq_true])
  | arriveClient c' =>
      rw [step] at hstep
      split at hstep
      · rcases Option.map_eq_some_iff.mp hstep with ⟨w, hw, rfl⟩
        exact ⟨rfl, Nat.le_refl _⟩
      · exact absurd hstep (by simp only [reduceCtorEq, not_false_eq_true])

/-- Each statement of the server brings the answer nearer, and nothing else takes it
    further away. -/
theorem arrived_ranked (hn : 0 < n) (hc : Served n cnLo c) :
    Ranked (step n cnLo sn) (Eager n cnLo) Action.isServer
      (fun s => FlowOk n cnLo sn s ∧ Arrived s c k) (fun u => Answered u c k)
      (fun s => rank n cnLo s.server.prog c) where
  pos := by
    intro s _
    rw [rank]
    split
    · exact Nat.le_add_left _ _
    · -- A batch with an answer has the statement that sends it and another.
      rename_i hin
      have htwo := phaseRank_of_inBatch n cnLo s.server.prog.pc c hin
      omega
  step := by
    intro s a t hw hok hstep
    rcases hw with ⟨h, harr⟩
    have h' := flowOk_step n cnLo sn s a t h hstep
    cases ha : a.isServer with
    | false =>
        rcases step_other (c := c) a hstep ha with ⟨hserver, hdone⟩
        rcases arrived_other h' hc harr hserver hdone with ⟨harr', hrank⟩
        refine Or.inr ⟨⟨h', harr'⟩, ?_⟩
        rw [hrank]
        exact Nat.le_refl _
    | true =>
        cases a with
        | client c' choice | arriveServer c' | arriveClient c' =>
            exact absurd ha (by simp only [Action.isServer, Bool.false_eq_true,
              not_false_eq_true])
        | server m =>
            by_cases hpc : s.server.prog.pc = .poll
            · rcases arrived_poll h hn hc harr m hpc (hok hpc) hstep with ⟨harr', hrank⟩
              exact Or.inr ⟨⟨h', harr'⟩, hrank⟩
            · rcases arrived_busy h h' hc harr m hpc hstep with hend | ⟨harr', hrank⟩
              · exact Or.inl hend
              · exact Or.inr ⟨⟨h', harr'⟩, hrank⟩

/-- At most six statements for each client, and two. -/
theorem rank_le (hn : 0 < n) (h : FlowOk n cnLo sn s) (hc : Served n cnLo c)
    (harr : Arrived s c k) : rank n cnLo s.server.prog c ≤ 6 * n + 2 := by
  have hlo : cnLo ≤ c := hc.1
  have hhi : c < cnLo + n := hc.2
  have hturn := turn_lt n _ (c - cnLo) (Nat.mod_lt (s.server.prog.iter + 1) hn) (by omega)
  have hungreeted := (arrived_alone h hc harr).2.1
  have hat := h.server.atClient
  have hphase : phaseRank n cnLo s.server.prog.pc ≤ n + 3 := by
    cases hpc : s.server.prog.pc with
    | poll => exact Nat.zero_le _
    | postRecvs cn =>
        -- No client has been greeted, and this one has a PUT under way.
        rw [hpc, ungreeted] at hungreeted
        exact absurd hungreeted Nat.one_ne_zero
    | greet cn =>
        -- Those up to this client have been.
        rw [hpc, ungreeted] at hungreeted
        simp only [phaseRank]
        split at hungreeted <;> omega
    | topUp cn j | reply cn j | signalled cn j =>
        rw [hpc] at hat
        have hle := inBatch_le_one h hat
        simp only [hpc, inBatch, if_true] at hle
        simp only [phaseRank]
        omega
  rw [rank]
  split <;> omega

end Rank

/-- Where the polls take what has arrived, a PUT that has arrived is answered within
    `6 * n + 2` statements of the server, however the statements of the clients and the
    messages come between them. -/
theorem flow_run_response (n cnLo sn : Nat) (hn : 0 < n) (as as' : List Action) (s t : State)
    (c : Nat) (hc : Served n cnLo c)
    (hrun : run (step n cnLo sn) as (State.start cnLo) = some s)
    (hok' : Along (step n cnLo sn) (Eager n cnLo) as' s)
    (hrun' : run (step n cnLo sn) as' s = some t) (hdone : 0 < (s.toServer c).done)
    (hcount : 6 * n + 2 ≤ as'.countP Action.isServer) :
    Responds (step n cnLo sn) Action.isServer
      (fun u => Answered u c (s.server.prog.totSends c)) (6 * n + 2) as' s t := by
  have h : FlowOk n cnLo sn s := run_invariant_along (step n cnLo sn) (fun _ _ => True)
    (FlowOk n cnLo sn) (fun s a t h _ hstep => flowOk_step n cnLo sn s a t h hstep) as _ s
    (flowOk_start n cnLo sn) (along_true _ _ _) hrun
  have harr : Arrived s c (s.server.prog.totSends c) := by
    have hle := inBatch_le_one h hc
    exact ⟨by omega, rfl⟩
  have hrank := rank_le hn h hc harr
  have hresponds := responds_of_ranked (step n cnLo sn) (Eager n cnLo) Action.isServer _ _ _
    (arrived_ranked hn hc) as' s t ⟨h, harr⟩ hok' hrun' (Nat.le_trans hrank hcount)
  exact responds_mono hresponds hrank fun _ hend => hend

/-- The server's own statements, where each poll takes `m`. -/
def serves (ms : List Nat) : List Action :=
  ms.map .server

/-- The PUT of client 1 of two has arrived when the server comes back to client 0. -/
def oneArrived : List Action :=
  serves (List.replicate 7 0) ++
    [.client 1 .put, .arriveClient 1, .client 1 .put, .client 1 .put, .client 1 .put,
      .client 1 .put, .client 1 .put, .client 1 .put, .arriveServer 1]

theorem flow_run_response_oneArrived : ∃ s t,
    run (step 2 0 0) oneArrived (State.start 0) = some s ∧
      Responds (step 2 0 0) Action.isServer
        (fun u => Answered u 1 (s.server.prog.totSends 1)) 14
        (serves (0 :: 1 :: List.replicate 12 0)) s t := by
  have hres : ((run (step 2 0 0) oneArrived (State.start 0)).bind fun s =>
      (run (step 2 0 0) (serves (0 :: 1 :: List.replicate 12 0)) s).map fun _ =>
        ((s.toServer 1).done, decide (Along (step 2 0 0) (Eager 2 0)
          (serves (0 :: 1 :: List.replicate 12 0)) s))) = some (1, true) := by decide +kernel
  rcases Option.bind_eq_some_iff.mp hres with ⟨s, hrun, hrest⟩
  rcases Option.map_eq_some_iff.mp hrest with ⟨t, hrun', hsend⟩
  rw [Prod.mk.injEq] at hsend
  rcases hsend with ⟨hdone, heager⟩
  exact ⟨s, t, hrun, flow_run_response 2 0 0 Nat.two_pos oneArrived
    (serves (0 :: 1 :: List.replicate 12 0)) s t 1 ⟨Nat.zero_le 1, Nat.one_lt_two⟩ hrun
    (of_decide_eq_true heager) hrun' (by omega) (by decide)⟩

end Flow

end Pilaf

end LocalKeyValue
