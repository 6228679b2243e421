import LocalKeyValue.Lib.Wires
import LocalKeyValue.Pilaf.Credits

/-!
# Pilaf's Loops Joined

The loop of `run_server` and those of its clients, with the messages between
them. Each loop counts its own work requests; here a client's SEND is a message
that arrives at the server, where the completion of a RECV waits to be polled,
and the server's SEND goes the other way. A message waits until a RECV is posted
for it, where a network may lose it, and a loop that polls for what has not
arrived is held up.

What makes the two fit together is that a client has one request. It is in one
place: on its way to the server, arrived, in the batch the server handles, on its
way back or arrived there; and it is in none of them when the client owes no
wait. The server's greeting is the first such token. So neither side ever runs
out of RECVs, although the server has only a batch of them for each client, the
server is never held up, and a client only while its answer is under way.

A client's wait for a READ is for the bucket and not for a message, and is left
out: the client goes on at once, as it would when the READ is over.

## Main definitions

* `State`, `step`: The loops and the wires between them.
* `owed`: The answers a client has still to wait for.
* `atServer`, `underWay`: Where a client's request is.
* `FlowOk`: The counters, and one token for each client.

## Theorems

* `clientStep_flow`, `serverStep_flow`: What a statement does to the token.
* `flowOk_step`: Any step keeps it.
* `flow_run`: Nothing is held up but by an answer under way, and each PUT gets one.
-/

namespace LocalKeyValue

namespace Pilaf

namespace Flow

open Run Verbs

/-- The loops beside their queue pairs, and for each client the wires to the server
    and back. -/
structure State where
  client : Nat → Tracked ClientState Nat
  server : Tracked ServerState Nat
  toServer : Nat → Wire
  toClient : Nat → Wire

inductive Action
  | client (c : Nat) (choice : Choice)
  | server (numPolls : Nat)
  | arriveServer (c : Nat)
  | arriveClient (c : Nat)
deriving DecidableEq

def State.start (cnLo : Nat) : State where
  client := fun _ => ⟨.start, fun _ => .none⟩
  server := ⟨.start cnLo, fun _ => .none⟩
  toServer := fun _ => .none
  toClient := fun _ => .none

/-- A statement of client `c`, whose queue pair with the server has number `sn`. -/
def clientMove (sn : Nat) (s : State) (c : Nat) (choice : Choice) : Option State :=
  (linkedStep (clientStep sn) (s.client c) (fun _ => s.toServer c) (fun _ => s.toClient c)
    choice).map fun r => { s with
      client := Function.update s.client c r.1
      toServer := Function.update s.toServer c (r.2.1 sn)
      toClient := Function.update s.toClient c (r.2.2 sn) }

/-- A statement of the server. A poll finds no more than has arrived. -/
def serverMove (n cnLo : Nat) (s : State) (numPolls : Nat) : Option State :=
  (linkedStep (serverStep n cnLo) s.server s.toClient s.toServer numPolls).map fun r => { s with
    server := r.1
    toClient := r.2.1
    toServer := r.2.2 }

/-- A message of client `c` arrives at the server. -/
def arriveServer (s : State) (c : Nat) : Option State :=
  ((s.toServer c).arrive (s.server.pending c)).map fun w =>
    { s with toServer := Function.update s.toServer c w }

/-- A message of the server arrives at client `c`. -/
def arriveClient (sn : Nat) (s : State) (c : Nat) : Option State :=
  ((s.toClient c).arrive ((s.client c).pending sn)).map fun w =>
    { s with toClient := Function.update s.toClient c w }

/-- A step of the system of a server and its `n` clients from `cnLo` on. -/
def step (n cnLo sn : Nat) (s : State) : Action → Option State
  | .client c choice => if cnLo ≤ c ∧ c < cnLo + n then clientMove sn s c choice else none
  | .server numPolls => serverMove n cnLo s numPolls
  | .arriveServer c => if cnLo ≤ c ∧ c < cnLo + n then arriveServer s c else none
  | .arriveClient c => if cnLo ≤ c ∧ c < cnLo + n then arriveClient sn s c else none

/-! ## The token of a client -/

/-- The answers a client has still to wait for: the greeting, or that to its PUT. -/
def owed (s : ClientState) : Nat :=
  match s.pc with
  | .postRecvs | .greeting => 1
  | .request => 0
  | .topUp | .reapRead | .reapSend | .complete => if s.wsPhase = send1 then 1 else 0

/-- The answers the server has in hand for client `c`. -/
def inBatch (pc : ServerPc) (c : Nat) : Nat :=
  match pc with
  | .topUp cn m | .reply cn m => if c = cn then m else 0
  | .signalled cn m => if c = cn then m + 1 else 0
  | .postRecvs _ | .greet _ | .poll => 0

/-- The greeting the server has still to send to client `c`. -/
def ungreeted (pc : ServerPc) (c : Nat) : Nat :=
  match pc with
  | .postRecvs _ => 1
  | .greet cn => if cn ≤ c then 1 else 0
  | .poll | .topUp _ _ | .reply _ _ | .signalled _ _ => 0

/-- What is to be answered to client `c`, on its way to the server included. -/
def atServer (s : State) (c : Nat) : Nat :=
  (s.toServer c).flying + (s.toServer c).done + inBatch s.server.prog.pc c +
    ungreeted s.server.prog.pc c

def underWay (s : State) (c : Nat) : Nat :=
  atServer s c + (s.toClient c).flying + (s.toClient c).done

/-- The client has no request before it is greeted. -/
def Fresh (s : ClientState) : Prop :=
  s.pc = .postRecvs ∨ s.pc = .greeting → s.wsPhase = 0

/-- Both sides' counters are right, and each client has as many requests or answers
    under way as it waits for. -/
structure FlowOk (n cnLo sn : Nat) (s : State) : Prop where
  client : ∀ c, ClientOk (s.client c).prog ((s.client c).pending sn)
  fresh : ∀ c, Fresh (s.client c).prog
  server : ServerOk n cnLo s.server.prog s.server.pending
  taken : ∀ cn m, s.server.prog.pc = .topUp cn m → 0 < m
  token : ∀ c, Served n cnLo c → underWay s c = owed (s.client c).prog
  counted : ∀ c, Served n cnLo c →
    s.server.prog.totSends c + atServer s c = (s.client c).prog.numSends + 1

theorem owed_le_one (s : ClientState) : owed s ≤ 1 := by
  unfold owed
  split
  · exact Nat.le_refl 1
  · exact Nat.le_refl 1
  · exact Nat.zero_le 1
  all_goals
    split
    · exact Nat.le_refl 1
    · exact Nat.zero_le 1

theorem flowOk_start (n cnLo sn : Nat) : FlowOk n cnLo sn (State.start cnLo) where
  client := fun _ => clientOk_start
  fresh := fun _ _ => rfl
  server := serverOk_start n cnLo
  taken := fun cn m h => absurd h (by
    simp only [State.start, ServerState.start, reduceCtorEq, not_false_eq_true])
  token := fun _ _ => rfl
  counted := fun _ _ => rfl

/-! ## What a statement sends and takes -/

/-- A client's SEND is a PUT, and it takes an answer when it owes a wait. -/
theorem clientStep_flow (sn : Nat) (s : ClientState) (choice : Choice) (h : Fresh s) :
    Fresh (clientStep sn s choice).1 ∧
      owed (clientStep sn s choice).1 + takenOn (clientStep sn s choice).2 sn =
        owed s + sentOn (clientStep sn s choice).2 sn ∧
      (clientStep sn s choice).1.numSends =
        s.numSends + sentOn (clientStep sn s choice).2 sn := by
  unfold Fresh at h ⊢
  unfold clientStep
  cases hpc : s.pc with
  | postRecvs =>
      have hws := h (Or.inl hpc)
      simp [owed, hpc, takenOn, sentOn, Verb.taken, Verb.sent, hws]
  | greeting =>
      have hws := h (Or.inr hpc)
      simp [owed, hpc, takenOn, sentOn, Verb.taken, Verb.sent, hws]
  | topUp =>
      simp only
      split
      · simp [owed, hpc, takenOn, sentOn, Verb.taken, Verb.sent]
      · simp [owed, hpc, takenOn, sentOn]
  | reapRead =>
      simp only
      split
      · split
        · simp [owed, hpc, takenOn, sentOn, Verb.taken, Verb.sent]
        · simp [owed, hpc, takenOn, sentOn]
      · simp [owed, hpc, takenOn, sentOn]
  | reapSend =>
      simp only
      split
      · split
        · simp [owed, hpc, takenOn, sentOn, Verb.taken, Verb.sent]
        · simp [owed, hpc, takenOn, sentOn]
      · simp [owed, hpc, takenOn, sentOn]
  | complete =>
      simp only
      split
      · -- It takes the answer to its PUT.
        rename_i hput
        simp [owed, hpc, takenOn, sentOn, Verb.taken, Verb.sent, hput]
      · rename_i hput
        simp [owed, hpc, takenOn, sentOn, hput]
  | request =>
      simp only
      split
      · cases choice with
        | put => simp [owed, hpc, takenOn, sentOn, Verb.taken, Verb.sent]
        | get1 => simp [owed, hpc, takenOn, sentOn, Verb.taken, Verb.sent]
        | get2 => simp [owed, hpc, takenOn, sentOn, Verb.taken, Verb.sent]
      · rename_i hnew
        split
        · rename_i hread
          -- The phase after a READ is another READ.
          have hput : s.wsPhase + 1 ≠ send1 := by
            rcases hread with hread | hread
            · rw [hread]
              decide
            · rw [hread]
              decide
          simp [owed, hpc, takenOn, sentOn, Verb.taken, Verb.sent, hput]
        · have hput : s.wsPhase ≠ send1 := fun hput => hnew (Or.inr (Or.inl hput))
          simp [owed, hpc, takenOn, sentOn, hput]

theorem update_add_one (tot : Nat → Nat) (cn c : Nat) :
    Function.update tot cn (tot cn + 1) c = tot c + if c = cn then 1 else 0 := by
  by_cases hc : c = cn
  · rw [hc, Function.update_self, if_pos rfl]
  · rw [Function.update_of_ne hc, if_neg hc]
    rfl

/-- The server sends an answer for each completion it has taken, and the greetings. -/
theorem serverStep_flow (n cnLo : Nat) (s : ServerState) (m c : Nat) (hc : Served n cnLo c) :
    inBatch (serverStep n cnLo s m).1.pc c + ungreeted (serverStep n cnLo s m).1.pc c +
        sentOn (serverStep n cnLo s m).2 c =
      inBatch s.pc c + ungreeted s.pc c + takenOn (serverStep n cnLo s m).2 c ∧
    (serverStep n cnLo s m).1.totSends c = s.totSends c + sentOn (serverStep n cnLo s m).2 c := by
  rcases hc with ⟨hlo, hhi⟩
  unfold serverStep
  cases hpc : s.pc with
  | postRecvs cn =>
      simp only
      split
      · simp [inBatch, ungreeted, takenOn, sentOn, Verb.taken, Verb.sent]
      · simp [inBatch, ungreeted, takenOn, sentOn, hlo]
  | greet cn =>
      -- The greeting of client `cn` goes out, if there is such a client left.
      simp only
      split
      · simp only [inBatch, ungreeted, takenOn, sentOn, Verb.taken, Verb.sent, update_add_one,
          ite_self]
        refine ⟨?_, trivial⟩
        split <;> split <;> split <;> omega
      · simp only [inBatch, ungreeted, takenOn, sentOn]
        refine ⟨?_, rfl⟩
        rw [if_neg (by omega)]
  | poll =>
      simp only
      split
      · simp [inBatch, ungreeted, takenOn, sentOn, Verb.taken, Verb.sent]
      · simp [inBatch, ungreeted, takenOn, sentOn, Verb.taken, Verb.sent]
  | topUp cn k =>
      simp only
      split
      · simp [inBatch, ungreeted, takenOn, sentOn, Verb.taken, Verb.sent]
      · simp [inBatch, ungreeted, takenOn, sentOn]
  | reply cn k =>
      -- One answer of the batch goes out, at once or after a completion is reaped.
      cases k with
      | zero => simp [inBatch, ungreeted, takenOn, sentOn]
      | succ k =>
          simp only
          split
          · simp [inBatch, ungreeted, takenOn, sentOn, Verb.taken, Verb.sent]
          · simp only [inBatch, ungreeted, takenOn, sentOn, Verb.taken, Verb.sent,
              update_add_one, ite_self]
            refine ⟨?_, trivial⟩
            split <;> omega
  | signalled cn k =>
      simp only [inBatch, ungreeted, takenOn, sentOn, Verb.taken, Verb.sent, update_add_one,
        ite_self]
      refine ⟨?_, trivial⟩
      split <;> omega

/-- Where the server posts more RECVs it has something to answer. -/
theorem serverStep_topUp (n cnLo : Nat) (s : ServerState) (m cn k : Nat)
    (h : (serverStep n cnLo s m).1.pc = .topUp cn k) : 0 < k := by
  unfold serverStep at h
  cases hpc : s.pc with
  | poll =>
      simp only [hpc] at h
      split at h
      · exact absurd h (by simp only [reduceCtorEq, not_false_eq_true])
      · rename_i hm
        rw [ServerPc.topUp.injEq] at h
        omega
  | postRecvs c =>
      simp only [hpc] at h
      split at h <;> exact absurd h (by simp only [reduceCtorEq, not_false_eq_true])
  | greet c =>
      simp only [hpc] at h
      split at h <;> exact absurd h (by simp only [reduceCtorEq, not_false_eq_true])
  | topUp c j =>
      simp only [hpc] at h
      split at h <;> exact absurd h (by simp only [reduceCtorEq, not_false_eq_true])
  | reply c j =>
      cases j with
      | zero =>
          simp only [hpc] at h
          exact absurd h (by simp only [reduceCtorEq, not_false_eq_true])
      | succ j =>
          simp only [hpc] at h
          split at h <;> exact absurd h (by simp only [reduceCtorEq, not_false_eq_true])
  | signalled c j =>
      simp only [hpc] at h
      exact absurd h (by simp only [reduceCtorEq, not_false_eq_true])

/-! ## Steps -/

section Steps

variable {n cnLo sn : Nat} {s t : State}

/-- A client's statement takes the token it waits for, or sends one. -/
theorem flowOk_client (h : FlowOk n cnLo sn s) (c : Nat) (choice : Choice)
    (hstep : clientMove sn s c choice = some t) : FlowOk n cnLo sn t := by
  rcases Option.map_eq_some_iff.mp hstep with ⟨⟨u, out, into⟩, hlink, rfl⟩
  rcases linkedStep_spec _ _ _ _ _ _ _ _ hlink with ⟨htr, hwires⟩
  rcases hwires sn with ⟨hflying, hdone, hflying', hdone'⟩
  have hprog := trackedStep_prog _ _ _ _ htr
  -- What the statement sends and takes is on its own two wires, so the sum stays.
  rcases clientStep_flow sn (s.client c).prog choice (h.fresh c) with ⟨hfresh, howed, hsends⟩
  rw [← hprog] at hfresh howed hsends
  have hok : ClientOk u.prog (u.pending sn) := by
    rcases (tracked_of_proceeds (clientStep sn) (fun p q => ClientOk p (q sn)) (s.client c) choice
      (clientOk_step sn choice (h.client c))).2 with ⟨u', hu', hok⟩
    rw [htr, Option.some.injEq] at hu'
    rw [hu']
    exact hok
  refine ⟨fun c' => ?_, fun c' => ?_, h.server, h.taken, fun c' hc' => ?_, fun c' hc' => ?_⟩
  · by_cases hc : c' = c
    · simp only [hc, Function.update_self]
      exact hok
    · simp only [Function.update_of_ne hc]
      exact h.client c'
  · by_cases hc : c' = c
    · simp only [hc, Function.update_self]
      exact hfresh
    · simp only [Function.update_of_ne hc]
      exact h.fresh c'
  · have htoken := h.token c' hc'
    by_cases hc : c' = c
    · simp only [underWay, atServer, hc, Function.update_self] at htoken ⊢
      omega
    · simp only [underWay, atServer, Function.update_of_ne hc] at htoken ⊢
      exact htoken
  · have hcounted := h.counted c' hc'
    by_cases hc : c' = c
    · simp only [atServer, hc, Function.update_self] at hcounted ⊢
      omega
    · simp only [atServer, Function.update_of_ne hc] at hcounted ⊢
      exact hcounted

/-- The server's statement turns a completion into an answer. -/
theorem flowOk_server (h : FlowOk n cnLo sn s) (m : Nat)
    (hstep : serverMove n cnLo s m = some t) : FlowOk n cnLo sn t := by
  rcases Option.map_eq_some_iff.mp hstep with ⟨⟨u, out, into⟩, hlink, rfl⟩
  rcases linkedStep_spec _ _ _ _ _ _ _ _ hlink with ⟨htr, hwires⟩
  have hprog := trackedStep_prog _ _ _ _ htr
  have hok := (serverOk_tracked s.server m h.server).2 u htr
  refine ⟨h.client, h.fresh, hok, fun cn k hpc => ?_, fun c hc => ?_, fun c hc => ?_⟩
  · rw [hprog] at hpc
    exact serverStep_topUp n cnLo s.server.prog m cn k hpc
  · have htoken := h.token c hc
    rcases hwires c with ⟨hflying, hdone, hflying', hdone'⟩
    have hflow := (serverStep_flow n cnLo s.server.prog m c hc).1
    rw [← hprog] at hflow
    simp only [underWay, atServer] at htoken ⊢
    omega
  · have hcounted := h.counted c hc
    rcases hwires c with ⟨hflying, hdone, hflying', hdone'⟩
    rcases serverStep_flow n cnLo s.server.prog m c hc with ⟨hflow, hsends⟩
    rw [← hprog] at hflow hsends
    simp only [atServer] at hcounted ⊢
    omega

/-- A message that arrives is where it was, as far as the counting goes. -/
theorem flowOk_arriveServer (h : FlowOk n cnLo sn s) (c : Nat)
    (hstep : arriveServer s c = some t) : FlowOk n cnLo sn t := by
  rcases Option.map_eq_some_iff.mp hstep with ⟨w, hw, rfl⟩
  rcases arrive_eq_some _ _ _ hw with ⟨hflying, hdone⟩
  refine ⟨h.client, h.fresh, h.server, h.taken, fun c' hc' => ?_, fun c' hc' => ?_⟩
  · have htoken := h.token c' hc'
    by_cases hc : c' = c
    · simp only [underWay, atServer, hc, Function.update_self] at htoken ⊢
      omega
    · simp only [underWay, atServer, Function.update_of_ne hc] at htoken ⊢
      exact htoken
  · have hcounted := h.counted c' hc'
    by_cases hc : c' = c
    · simp only [atServer, hc, Function.update_self] at hcounted ⊢
      omega
    · simp only [atServer, Function.update_of_ne hc] at hcounted ⊢
      exact hcounted

theorem flowOk_arriveClient (h : FlowOk n cnLo sn s) (c : Nat)
    (hstep : arriveClient sn s c = some t) : FlowOk n cnLo sn t := by
  rcases Option.map_eq_some_iff.mp hstep with ⟨w, hw, rfl⟩
  rcases arrive_eq_some _ _ _ hw with ⟨hflying, hdone⟩
  refine ⟨h.client, h.fresh, h.server, h.taken, fun c' hc' => ?_, h.counted⟩
  have htoken := h.token c' hc'
  by_cases hc : c' = c
  · simp only [underWay, atServer, hc, Function.update_self] at htoken ⊢
    omega
  · simp only [underWay, atServer, Function.update_of_ne hc] at htoken ⊢
    exact htoken

end Steps

theorem flowOk_step (n cnLo sn : Nat) (s : State) (a : Action) (t : State)
    (h : FlowOk n cnLo sn s) (hstep : step n cnLo sn s a = some t) : FlowOk n cnLo sn t := by
  cases a with
  | client c choice =>
      rw [step] at hstep
      split at hstep
      · exact flowOk_client h c choice hstep
      · exact absurd hstep (by simp only [reduceCtorEq, not_false_eq_true])
  | server m => exact flowOk_server h m hstep
  | arriveServer c =>
      rw [step] at hstep
      split at hstep
      · exact flowOk_arriveServer h c hstep
      · exact absurd hstep (by simp only [reduceCtorEq, not_false_eq_true])
  | arriveClient c =>
      rw [step] at hstep
      split at hstep
      · exact flowOk_arriveClient h c hstep
      · exact absurd hstep (by simp only [reduceCtorEq, not_false_eq_true])

/-! ## What holds nothing up -/

/-- The client polls for the greeting or for the answer to its PUT. -/
def Waits (s : ClientState) : Prop :=
  s.pc = .greeting ∨ s.pc = .complete ∧ s.wsPhase = send1

instance (s : ClientState) : Decidable (Waits s) :=
  inferInstanceAs (Decidable (_ ∨ _))

section Progress

variable {n cnLo sn : Nat} {s : State}

theorem takenOn_client (sn : Nat) (s : ClientState) (choice : Choice) (i : Nat) :
    takenOn (clientStep sn s choice).2 i = if i = sn ∧ Waits s then 1 else 0 := by
  unfold clientStep
  cases hpc : s.pc with
  | postRecvs | greeting => simp [takenOn, Verb.taken, Waits, hpc]
  | topUp =>
      simp only
      split <;> simp [takenOn, Verb.taken, Waits, hpc]
  | reapRead | reapSend =>
      simp only
      split
      · split <;> simp [takenOn, Verb.taken, Waits, hpc]
      · simp [takenOn, Waits, hpc]
  | complete =>
      simp only
      split <;> rename_i hput <;> simp [takenOn, Verb.taken, Waits, hpc, hput]
  | request =>
      simp only
      split
      · cases choice <;> simp [takenOn, Verb.taken, Waits, hpc]
      · split <;> simp [takenOn, Verb.taken, Waits, hpc]

/-- A client is held up only while what it waits for has not arrived. -/
theorem clientMove_none_iff (h : FlowOk n cnLo sn s) (c : Nat) (choice : Choice) :
    clientMove sn s c choice = none ↔ Waits (s.client c).prog ∧ (s.toClient c).done = 0 := by
  have htr : trackedStep (clientStep sn) (s.client c) choice ≠ none := by
    rcases (tracked_of_proceeds (clientStep sn) (fun p q => ClientOk p (q sn)) (s.client c) choice
      (clientOk_step sn choice (h.client c))).2 with ⟨u, hu, _⟩
    rw [hu]
    simp only [ne_eq, reduceCtorEq, not_false_eq_true]
  have htaken := takenOn_client sn (s.client c).prog choice
  rw [clientMove, Option.map_eq_none_iff, ← not_iff_not]
  refine (linkedStep_ne_none _ _ _ _ _).trans ?_
  rw [not_and']
  constructor
  · intro hall hdone hwaits
    have hle := hall.2 sn
    rw [htaken, if_pos ⟨rfl, hwaits⟩, hdone] at hle
    exact Nat.not_succ_le_zero 0 hle
  · intro himp
    refine ⟨htr, fun i => ?_⟩
    rw [htaken]
    split
    · rename_i hwaits
      exact Nat.pos_of_ne_zero fun hdone => himp hdone hwaits.2
    · exact Nat.zero_le _

theorem takenOn_server (n cnLo : Nat) (s : ServerState) (m i : Nat) :
    takenOn (serverStep n cnLo s m).2 i =
      if s.pc = .poll ∧ i = cnLo + (s.iter + 1) % n then m else 0 := by
  unfold serverStep
  cases hpc : s.pc with
  | postRecvs cn | greet cn | topUp cn k =>
      simp only
      split <;> simp [takenOn, Verb.taken]
  | poll =>
      simp only
      split
      · rename_i hm
        simp [takenOn, Verb.taken, hm]
      · simp [takenOn, Verb.taken]
  | reply cn k =>
      cases k with
      | zero => simp [takenOn]
      | succ k =>
          simp only
          split <;> simp [takenOn, Verb.taken]
  | signalled cn k => simp [takenOn, Verb.taken]

/-- The server is not held up, whatever its poll finds of what has arrived. -/
theorem serverMove_ne_none (hn : 0 < n) (h : FlowOk n cnLo sn s) (m : Nat)
    (hm : s.server.prog.pc = .poll →
      m ≤ (s.toServer (cnLo + (s.server.prog.iter + 1) % n)).done) :
    serverMove n cnLo s m ≠ none := by
  have hrecvs : s.server.prog.pc = .poll →
      m ≤ (s.server.pending (cnLo + (s.server.prog.iter + 1) % n)).recvs := by
    -- A client has one request, and the server has posted more RECVs than one for it.
    intro hpc
    have hserved : Served n cnLo (cnLo + (s.server.prog.iter + 1) % n) :=
      ⟨Nat.le_add_right _ _, Nat.add_lt_add_left (Nat.mod_lt _ hn) _⟩
    have hpeer := h.server.peer (cnLo + (s.server.prog.iter + 1) % n)
    have hcount := hpeer.recvs
    have hlow := hpeer.low hserved
    have htoken := h.token _ hserved
    have howed := owed_le_one (s.client (cnLo + (s.server.prog.iter + 1) % n)).prog
    have hdone := hm hpc
    simp only [hpc, ServerPc.low, sDepth] at hlow
    simp only [underWay, atServer] at htoken
    omega
  have htr : trackedStep (serverStep n cnLo) s.server m ≠ none := by
    rcases (tracked_of_proceeds (serverStep n cnLo) (ServerOk n cnLo) s.server m
      (serverOk_step h.server m hrecvs)).2 with ⟨u, hu, _⟩
    rw [hu]
    simp only [ne_eq, reduceCtorEq, not_false_eq_true]
  rw [serverMove, ne_eq, Option.map_eq_none_iff]
  refine (linkedStep_ne_none _ _ _ _ _).mpr ⟨htr, fun i => ?_⟩
  rw [takenOn_server]
  split
  · rename_i hpoll
    rw [hpoll.2]
    exact hm hpoll.1
  · exact Nat.zero_le _

/-- A request under way to the server finds it with RECVs. -/
theorem low_of_flying (h : FlowOk n cnLo sn s) (c : Nat) (hc : Served n cnLo c)
    (hflying : 0 < (s.toServer c).flying) :
    (s.toServer c).done = 0 ∧ s.server.prog.pc.low c = sDepth := by
  have htoken := h.token c hc
  have howed := owed_le_one (s.client c).prog
  simp only [underWay, atServer] at htoken
  refine ⟨by omega, ?_⟩
  -- It is the client's only token, so there is no greeting and no batch.
  have hbatch : inBatch s.server.prog.pc c = 0 := by omega
  have hgreeted : ungreeted s.server.prog.pc c = 0 := by omega
  cases hpc : s.server.prog.pc with
  | postRecvs cn =>
      rw [hpc] at hgreeted
      exact absurd hgreeted Nat.one_ne_zero
  | topUp cn k =>
      have hk := h.taken cn k hpc
      rw [hpc, inBatch] at hbatch
      refine if_neg fun hcn => ?_
      rw [if_pos hcn] at hbatch
      omega
  | greet cn | poll | reply cn k | signalled cn k => rfl

/-- There is a RECV for each message to the server. -/
theorem arriveServer_ne_none (h : FlowOk n cnLo sn s) (c : Nat) (hc : Served n cnLo c)
    (hflying : 0 < (s.toServer c).flying) : arriveServer s c ≠ none := by
  rcases low_of_flying h c hc hflying with ⟨hdone, hlow⟩
  have hpeer := h.server.peer c
  have hle := hpeer.low hc
  have hcount := hpeer.recvs
  rw [hlow, sDepth] at hle
  rw [arriveServer, Wire.arrive, if_pos ⟨hflying, by omega⟩]
  simp only [Option.map_some, ne_eq, reduceCtorEq, not_false_eq_true]

/-- There is a RECV for each message to a client that has begun. -/
theorem arriveClient_ne_none (h : FlowOk n cnLo sn s) (c : Nat) (hc : Served n cnLo c)
    (hflying : 0 < (s.toClient c).flying) (hpc : (s.client c).prog.pc ≠ .postRecvs) :
    arriveClient sn s c ≠ none := by
  have htoken := h.token c hc
  have howed := owed_le_one (s.client c).prog
  have hrecvs := (h.client c).recvs
  have hlow := (h.client c).low
  simp only [underWay, atServer] at htoken
  have hpos : (0 : Int) < (s.client c).prog.recvs := by
    cases hpc' : (s.client c).prog.pc with
    | postRecvs => exact absurd hpc' hpc
    | greeting =>
        simp only [ClientState.recvs, hpc']
        decide
    | request =>
        -- Between two requests nothing is on its way.
        have hzero : owed (s.client c).prog = 0 := by rw [owed, hpc']
        omega
    | topUp | reapRead | reapSend | complete =>
        simp only [ClientState.low, hpc', sDepth] at hlow
        omega
  rw [arriveClient, Wire.arrive, if_pos ⟨hflying, by omega⟩]
  simp only [Option.map_some, ne_eq, reduceCtorEq, not_false_eq_true]

end Progress

/-- In every interleaving of the loops of a server and its clients and of the messages
    between them the server is never held up, a client only while the greeting or the
    answer to its PUT has not arrived, which is then the one thing of it under way, and
    a message finds a RECV posted unless the client has not begun. The server has sent
    each client the greeting and an answer to each of its PUTs, but for the one it still
    has. A client does not wait for its READs here, and a message that found no RECV
    would wait for one, not be lost. -/
theorem flow_run (n cnLo sn : Nat) (hn : 0 < n) (as : List Action) (t : State)
    (hrun : run (step n cnLo sn) as (State.start cnLo) = some t) :
    (∀ m, (t.server.prog.pc = .poll →
        m ≤ (t.toServer (cnLo + (t.server.prog.iter + 1) % n)).done) →
      step n cnLo sn t (.server m) ≠ none) ∧
    ∀ c, Served n cnLo c →
      (∀ choice, step n cnLo sn t (.client c choice) = none ↔
        Waits (t.client c).prog ∧ (t.toClient c).done = 0) ∧
      (Waits (t.client c).prog → underWay t c = 1) ∧
      (0 < (t.toServer c).flying → step n cnLo sn t (.arriveServer c) ≠ none) ∧
      (0 < (t.toClient c).flying → (t.client c).prog.pc ≠ .postRecvs →
        step n cnLo sn t (.arriveClient c) ≠ none) ∧
      t.server.prog.totSends c + atServer t c = (t.client c).prog.numSends + 1 := by
  have h : FlowOk n cnLo sn t := run_invariant_along (step n cnLo sn) (fun _ _ => True)
    (FlowOk n cnLo sn) (fun s a t h _ hstep => flowOk_step n cnLo sn s a t h hstep) as _ t
    (flowOk_start n cnLo sn) (along_true _ _ _) hrun
  refine ⟨fun m hm => serverMove_ne_none hn h m hm, fun c hc => ?_⟩
  have hserved : cnLo ≤ c ∧ c < cnLo + n := hc
  simp only [step, if_pos hserved]
  refine ⟨clientMove_none_iff h c, fun hwaits => ?_, arriveServer_ne_none h c hc,
    arriveClient_ne_none h c hc, h.counted c hc⟩
  rw [h.token c hc]
  rcases hwaits with hpc | ⟨hpc, hput⟩
  · rw [owed, hpc]
  · rw [owed, hpc]
    exact if_pos hput

/-- A greeting and a PUT of one client, up to the answer. -/
def onePut : List Action :=
  [.server 0, .server 0, .server 0, .server 0, .client 0 .put, .arriveClient 0, .client 0 .put,
    .client 0 .put, .client 0 .put, .client 0 .put, .client 0 .put, .client 0 .put,
    .arriveServer 0, .server 1, .server 0, .server 0, .client 0 .put, .client 0 .put]

theorem flow_run_onePut : ∃ t, run (step 1 0 0) onePut (State.start 0) = some t ∧
    (t.toClient 0).flying = 1 ∧ step 1 0 0 t (.arriveClient 0) ≠ none ∧
    t.server.prog.totSends 0 = 2 := by
  have hres : (run (step 1 0 0) onePut (State.start 0)).map
      (fun t => ((t.toClient 0).flying, (t.client 0).prog.pc, (t.client 0).prog.numSends,
        atServer t 0)) = some (1, .reapSend, 1, 0) := by decide +kernel
  rcases Option.map_eq_some_iff.mp hres with ⟨t, hrun, ht⟩
  simp only [Prod.mk.injEq] at ht
  rcases ht with ⟨hflying, hpc, hsends, hserver⟩
  rcases (flow_run 1 0 0 Nat.one_pos onePut t hrun).2 0 ⟨Nat.le_refl 0, by decide⟩ with
    ⟨_, _, _, harrive, hcount⟩
  refine ⟨t, hrun, hflying, harrive (by omega) ?_, by omega⟩
  rw [hpc]
  simp only [ne_eq, reduceCtorEq, not_false_eq_true]

end Flow

end Pilaf

end LocalKeyValue
