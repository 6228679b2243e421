import LocalKeyValue.Lib.Verbs
import LocalKeyValue.Pilaf.Recv

/-!
# Pilaf Credits and Completions

How the two loops of Pilaf keep count of their work requests. Both sides keep
the number of RECVs posted and not consumed, and post them in batches when it
falls below `S_DEPTH`. Both signal every other SEND, and the client every other
READ, and reap the completion of one before they post the next. The parities
are those of counters that go on in different branches, and the client tests
before it knows which branch it will take, so it remembers for which count it
has reaped.

The steps here are the statements of the loops that touch a counter or a queue
pair. What comes between them, and what decides between a PUT and a GET, is left
to the actions. The counters do not overflow.

## Main definitions

* `ClientState`, `clientStep`: The loop of `run_client`, with a window of 1.
* `ServerState`, `serverStep`: The loop of `run_server`.
* `ClientOk`, `ServerOk`: What the counters say of the queue pairs.

## Theorems

* `clientOk_step`, `serverOk_step`: A statement keeps it, and waits only for
  what is there.
* `completions_accounted`: So does a run.
-/

namespace LocalKeyValue

namespace Pilaf

open Run Verbs

/-- `WINDOW_SIZE_` -/
abbrev windowSize_ : Nat := 1

/-- `WS_SERVER_` -/
abbrev wsServer_ : Nat := 1

/-- `READ_1` -/
abbrev read1 : Nat := 11

/-- `READ_2` -/
abbrev read2 : Nat := 12

/-- `READ_3` -/
abbrev read3 : Nat := 13

/-- `SEND_1` -/
abbrev send1 : Nat := 14

/-! ## The client -/

/-- Where the client is: the two statements before the loop, and those in it, of
    which `topUp` is the first. -/
inductive ClientPc
  | postRecvs
  | greeting
  | topUp
  | reapRead
  | reapSend
  | complete
  | request
deriving DecidableEq

/-- The counters of `run_client`. `wsPhase` is `ws_phase[0]`, the window having
    one slot. -/
structure ClientState where
  pc : ClientPc
  numRecvs : Int
  numSends : Nat
  numReads : Nat
  oldNumSends : Nat
  oldNumReads : Nat
  sendSignal : Bool
  readSignal : Bool
  wsPhase : Nat

/-- What a new request is: a PUT, or a GET with one READ or two before the last. -/
inductive Choice
  | put
  | get1
  | get2
deriving DecidableEq

/-- A statement of `run_client`, on its queue pair `sn`. -/
def clientStep (sn : Nat) (s : ClientState) (c : Choice) : ClientState × Option (Nat × Verb) :=
  match s.pc with
  | .postRecvs => ({ s with pc := .greeting }, some (sn, .postRecvs qDepth))
  | .greeting => ({ s with numRecvs := qDepth - 1, pc := .topUp }, some (sn, .pollRecvs 1))
  | .topUp =>
    let s' := { s with sendSignal := false, readSignal := false, pc := .reapRead }
    if s.numRecvs < sDepth then
      ({ s' with numRecvs := qDepth }, some (sn, .postRecvs (qDepth - s.numRecvs).toNat))
    else (s', none)
  | .reapRead =>
    if s.numReads &&& windowSize_ = 0 then
      let s' := { s with readSignal := true, pc := .reapSend }
      if s.numReads ≠ 0 ∧ s.numReads ≠ s.oldNumReads then
        ({ s' with oldNumReads := s.numReads }, some (sn, .pollRead))
      else (s', none)
    else ({ s with pc := .reapSend }, none)
  | .reapSend =>
    if s.numSends &&& windowSize_ = 0 then
      let s' := { s with sendSignal := true, pc := .complete }
      if s.numSends ≠ 0 ∧ s.numSends ≠ s.oldNumSends then
        ({ s' with oldNumSends := s.numSends }, some (sn, .pollSend))
      else (s', none)
    else ({ s with pc := .complete }, none)
  | .complete =>
    -- After a READ the client waits for the bucket it reads into, not for a completion.
    if s.wsPhase = send1 then
      ({ s with numRecvs := s.numRecvs - 1, pc := .request }, some (sn, .pollRecvs 1))
    else ({ s with pc := .request }, none)
  | .request =>
    if s.wsPhase = read3 ∨ s.wsPhase = send1 ∨ s.wsPhase = 0 then match c with
      | .put => ({ s with wsPhase := send1, numSends := s.numSends + 1, pc := .topUp },
          some (sn, .postSend s.sendSignal))
      | .get2 => ({ s with wsPhase := read1, numReads := s.numReads + 1, pc := .topUp },
          some (sn, .postRead s.readSignal))
      | .get1 => ({ s with wsPhase := read2, numReads := s.numReads + 1, pc := .topUp },
          some (sn, .postRead s.readSignal))
    else if s.wsPhase = read1 ∨ s.wsPhase = read2 then
      ({ s with wsPhase := s.wsPhase + 1, numReads := s.numReads + 1, pc := .topUp },
        some (sn, .postRead s.readSignal))
    else ({ s with pc := .topUp }, none)

def ClientState.start : ClientState where
  pc := .postRecvs
  numRecvs := 0
  numSends := 0
  numReads := 0
  oldNumSends := 0
  oldNumReads := 0
  sendSignal := false
  readSignal := false
  wsPhase := 0

/-- The RECVs the client has posted and not reaped, as it counts them; it sets
    its counter after its greeting. -/
def ClientState.recvs (s : ClientState) : Int :=
  match s.pc with
  | .postRecvs => 0
  | .greeting => qDepth
  | _ => s.numRecvs

/-- The least the counter can be at a statement. -/
def ClientState.low (s : ClientState) : Int :=
  match s.pc with
  | .postRecvs => 0
  | .reapRead | .reapSend | .complete => sDepth
  | _ => sDepth - 1

/-- From where a signal is decided to where it is used, it is the right one. -/
def ClientState.readDecided (s : ClientState) : Prop :=
  match s.pc with
  | .reapSend | .complete | .request => Decided s.readSignal s.numReads s.oldNumReads
  | .topUp | .postRecvs | .greeting => True
  | .reapRead => s.readSignal = false

def ClientState.sendDecided (s : ClientState) : Prop :=
  match s.pc with
  | .complete | .request => Decided s.sendSignal s.numSends s.oldNumSends
  | .topUp | .postRecvs | .greeting => True
  | .reapRead | .reapSend => s.sendSignal = false

/-- What the client's counters say of its queue pair. -/
structure ClientOk (s : ClientState) (p : Pending) : Prop where
  recvs : (p.recvs : Int) = s.recvs
  low : s.low ≤ s.recvs
  high : s.recvs ≤ qDepth
  reads : Selective s.numReads s.oldNumReads p.reads
  sends : Selective s.numSends s.oldNumSends p.sends
  readDecided : s.readDecided
  sendDecided : s.sendDecided

theorem clientOk_start : ClientOk ClientState.start Pending.none where
  recvs := rfl
  low := Int.le_refl _
  high := by decide
  reads := selective_zero
  sends := selective_zero
  readDecided := trivial
  sendDecided := trivial

section ClientSteps

variable (sn : Nat) (s : ClientState) (pending : Nat → Pending) (c : Choice)

/-- The statement proceeds, and the client's counters still hold. -/
def ClientKeeps : Prop :=
  Proceeds (fun s' pending' => ClientOk s' (pending' sn)) pending (clientStep sn s c)

variable {s pending}

theorem clientKeeps_issue (s' : ClientState) (v : Verb) (p : Pending)
    (hstep : clientStep sn s c = (s', some (sn, v))) (hfound : (pending sn).found v)
    (hafter : (pending sn).after v = some p) (hok : ClientOk s' p) :
    ClientKeeps sn s pending c := by
  unfold ClientKeeps
  rw [hstep]
  refine ⟨hfound, p, hafter, ?_⟩
  simp only [Function.update_self]
  exact hok

theorem clientKeeps_silent (s' : ClientState) (hstep : clientStep sn s c = (s', none))
    (hok : ClientOk s' (pending sn)) : ClientKeeps sn s pending c := by
  unfold ClientKeeps
  rw [hstep]
  exact hok

theorem clientOk_postRecvs (h : ClientOk s (pending sn)) (hpc : s.pc = .postRecvs) :
    ClientKeeps sn s pending c := by
  have hrecvs := h.recvs
  simp only [ClientState.recvs, hpc] at hrecvs
  refine clientKeeps_issue sn c _ (.postRecvs qDepth) _ (by simp only [clientStep, hpc]; rfl)
    trivial rfl ?_
  exact {
    recvs := by simp only [ClientState.recvs]; omega
    low := by simp only [ClientState.low, ClientState.recvs]; decide
    high := Int.le_refl _
    reads := h.reads
    sends := h.sends
    readDecided := trivial
    sendDecided := trivial }

/-- The server's greeting takes one of the RECVs. -/
theorem clientOk_greeting (h : ClientOk s (pending sn)) (hpc : s.pc = .greeting) :
    ClientKeeps sn s pending c := by
  have hrecvs := h.recvs
  simp only [ClientState.recvs, hpc, qDepth] at hrecvs
  refine clientKeeps_issue sn c _ (.pollRecvs 1) _ (by simp only [clientStep, hpc]; rfl)
    trivial (if_pos (by omega)) ?_
  exact {
    recvs := by simp only [ClientState.recvs, qDepth]; omega
    low := by simp only [ClientState.low, ClientState.recvs]; decide
    high := by simp only [ClientState.recvs, qDepth]; decide
    reads := h.reads
    sends := h.sends
    readDecided := trivial
    sendDecided := trivial }

/-- RECVs are posted up to `Q_DEPTH` when few are left. -/
theorem clientOk_topUp (h : ClientOk s (pending sn)) (hpc : s.pc = .topUp) :
    ClientKeeps sn s pending c := by
  have hrecvs := h.recvs
  have hhigh := h.high
  simp only [ClientState.recvs, hpc] at hrecvs hhigh
  by_cases hlt : s.numRecvs < sDepth
  · refine clientKeeps_issue sn c _ (.postRecvs (qDepth - s.numRecvs).toNat) _
      (by simp only [clientStep, hpc, if_pos hlt]; rfl) trivial rfl ?_
    exact {
      recvs := by simp only [ClientState.recvs]; omega
      low := by simp only [ClientState.low, ClientState.recvs]; decide
      high := Int.le_refl _
      reads := h.reads
      sends := h.sends
      readDecided := rfl
      sendDecided := rfl }
  · refine clientKeeps_silent sn c _ (by simp only [clientStep, hpc, if_neg hlt]; rfl) ?_
    exact {
      recvs := hrecvs
      low := by simp only [ClientState.low, ClientState.recvs]; omega
      high := hhigh
      reads := h.reads
      sends := h.sends
      readDecided := rfl
      sendDecided := rfl }

/-- The completion of a signalled READ is reaped before the next is decided. -/
theorem clientOk_reapRead (h : ClientOk s (pending sn)) (hpc : s.pc = .reapRead) :
    ClientKeeps sn s pending c := by
  rcases h with ⟨hrecvs, hlow, hhigh, hreads, hsends, hread, hsend⟩
  simp only [ClientState.recvs, ClientState.low, ClientState.readDecided,
    ClientState.sendDecided, hpc] at hrecvs hlow hhigh hread hsend
  by_cases heven : s.numReads &&& windowSize_ = 0
  · have hmod : s.numReads % 2 = 0 := by rwa [Nat.and_one_is_mod] at heven
    rcases selective_reap _ _ _ hreads hmod with ⟨hone, hsame, hnext⟩
    by_cases hdue : s.numReads ≠ 0 ∧ s.numReads ≠ s.oldNumReads
    · have hzero : (pending sn).reads - 1 = 0 := by rw [hone hdue]
      refine clientKeeps_issue sn c _ .pollRead _
        (by simp only [clientStep, hpc, if_pos heven, if_pos hdue]; rfl) (hone hdue)
        (if_pos (by rw [hone hdue]; decide)) ?_
      refine ⟨hrecvs, hlow, hhigh, ?_, hsends, decided_even _ hmod, hsend⟩
      rw [hzero]
      exact hnext
    · refine clientKeeps_silent sn c _
        (by simp only [clientStep, hpc, if_pos heven, if_neg hdue]; rfl) ?_
      refine ⟨hrecvs, hlow, hhigh, hreads, hsends, ?_, hsend⟩
      simp only [ClientState.readDecided, hsame hdue]
      exact decided_even _ hmod
  · refine clientKeeps_silent sn c _ (by simp only [clientStep, hpc, if_neg heven]; rfl) ?_
    refine ⟨hrecvs, hlow, hhigh, hreads, hsends, ?_, hsend⟩
    simp only [ClientState.readDecided, hread]
    exact decided_odd _ _ (by rwa [Nat.and_one_is_mod] at heven)

/-- The same for SENDs. -/
theorem clientOk_reapSend (h : ClientOk s (pending sn)) (hpc : s.pc = .reapSend) :
    ClientKeeps sn s pending c := by
  rcases h with ⟨hrecvs, hlow, hhigh, hreads, hsends, hread, hsend⟩
  simp only [ClientState.recvs, ClientState.low, ClientState.readDecided,
    ClientState.sendDecided, hpc] at hrecvs hlow hhigh hread hsend
  by_cases heven : s.numSends &&& windowSize_ = 0
  · have hmod : s.numSends % 2 = 0 := by rwa [Nat.and_one_is_mod] at heven
    rcases selective_reap _ _ _ hsends hmod with ⟨hone, hsame, hnext⟩
    by_cases hdue : s.numSends ≠ 0 ∧ s.numSends ≠ s.oldNumSends
    · have hzero : (pending sn).sends - 1 = 0 := by rw [hone hdue]
      refine clientKeeps_issue sn c _ .pollSend _
        (by simp only [clientStep, hpc, if_pos heven, if_pos hdue]; rfl) (hone hdue)
        (if_pos (by rw [hone hdue]; decide)) ?_
      refine ⟨hrecvs, hlow, hhigh, hreads, ?_, hread, decided_even _ hmod⟩
      rw [hzero]
      exact hnext
    · refine clientKeeps_silent sn c _
        (by simp only [clientStep, hpc, if_pos heven, if_neg hdue]; rfl) ?_
      refine ⟨hrecvs, hlow, hhigh, hreads, hsends, hread, ?_⟩
      simp only [ClientState.sendDecided, hsame hdue]
      exact decided_even _ hmod
  · refine clientKeeps_silent sn c _ (by simp only [clientStep, hpc, if_neg heven]; rfl) ?_
    refine ⟨hrecvs, hlow, hhigh, hreads, hsends, hread, ?_⟩
    simp only [ClientState.sendDecided, hsend]
    exact decided_odd _ _ (by rwa [Nat.and_one_is_mod] at heven)

/-- The reply to a PUT takes one of the RECVs, of which there are enough. -/
theorem clientOk_complete (h : ClientOk s (pending sn)) (hpc : s.pc = .complete) :
    ClientKeeps sn s pending c := by
  rcases h with ⟨hrecvs, hlow, hhigh, hreads, hsends, hread, hsend⟩
  simp only [ClientState.recvs, ClientState.low, ClientState.readDecided,
    ClientState.sendDecided, hpc, sDepth] at hrecvs hlow hhigh hread hsend
  by_cases hput : s.wsPhase = send1
  · refine clientKeeps_issue sn c _ (.pollRecvs 1) _
      (by simp only [clientStep, hpc, if_pos hput]; rfl) trivial (if_pos (by omega)) ?_
    refine ⟨?_, ?_, ?_, hreads, hsends, hread, hsend⟩ <;>
      simp only [ClientState.recvs, ClientState.low, sDepth] <;> omega
  · refine clientKeeps_silent sn c _ (by simp only [clientStep, hpc, if_neg hput]; rfl) ?_
    refine ⟨hrecvs, ?_, hhigh, hreads, hsends, hread, hsend⟩
    simp only [ClientState.recvs, ClientState.low, sDepth]
    omega

/-- The request is posted as decided, whatever it is. -/
theorem clientOk_request (h : ClientOk s (pending sn)) (hpc : s.pc = .request) :
    ClientKeeps sn s pending c := by
  rcases h with ⟨hrecvs, hlow, hhigh, hreads, hsends, hread, hsend⟩
  simp only [ClientState.recvs, ClientState.low, ClientState.readDecided,
    ClientState.sendDecided, hpc] at hrecvs hlow hhigh hread hsend
  have hread' := selective_post _ _ _ _ hreads hread
  have hsend' := selective_post _ _ _ _ hsends hsend
  by_cases hnew : s.wsPhase = read3 ∨ s.wsPhase = send1 ∨ s.wsPhase = 0
  · cases c with
    | put =>
        refine clientKeeps_issue sn _ _ (.postSend s.sendSignal) _
          (by simp only [clientStep, hpc, if_pos hnew]; rfl) trivial rfl ?_
        exact ⟨hrecvs, hlow, hhigh, hreads, hsend', trivial, trivial⟩
    | get1 =>
        refine clientKeeps_issue sn _ _ (.postRead s.readSignal) _
          (by simp only [clientStep, hpc, if_pos hnew]; rfl) trivial rfl ?_
        exact ⟨hrecvs, hlow, hhigh, hread', hsends, trivial, trivial⟩
    | get2 =>
        refine clientKeeps_issue sn _ _ (.postRead s.readSignal) _
          (by simp only [clientStep, hpc, if_pos hnew]; rfl) trivial rfl ?_
        exact ⟨hrecvs, hlow, hhigh, hread', hsends, trivial, trivial⟩
  · by_cases hmore : s.wsPhase = read1 ∨ s.wsPhase = read2
    · refine clientKeeps_issue sn c _ (.postRead s.readSignal) _
        (by simp only [clientStep, hpc, if_neg hnew, if_pos hmore]; rfl) trivial rfl ?_
      exact ⟨hrecvs, hlow, hhigh, hread', hsends, trivial, trivial⟩
    · refine clientKeeps_silent sn c _
        (by simp only [clientStep, hpc, if_neg hnew, if_neg hmore]; rfl) ?_
      exact ⟨hrecvs, hlow, hhigh, hreads, hsends, trivial, trivial⟩

theorem clientOk_step (h : ClientOk s (pending sn)) : ClientKeeps sn s pending c := by
  cases hpc : s.pc with
  | postRecvs => exact clientOk_postRecvs sn c h hpc
  | greeting => exact clientOk_greeting sn c h hpc
  | topUp => exact clientOk_topUp sn c h hpc
  | reapRead => exact clientOk_reapRead sn c h hpc
  | reapSend => exact clientOk_reapSend sn c h hpc
  | complete => exact clientOk_complete sn c h hpc
  | request => exact clientOk_request sn c h hpc

end ClientSteps

/-! ## The server -/

/-- Where the server is: posting RECVs to client `cn`, greeting it, polling, or
    at the statements that handle `numPolls` completions of client `cn`, one
    after the other. -/
inductive ServerPc
  | postRecvs (cn : Nat)
  | greet (cn : Nat)
  | poll
  | topUp (cn numPolls : Nat)
  | reply (cn left : Nat)
  | signalled (cn left : Nat)
deriving DecidableEq

/-- The counters of `run_server`. -/
structure ServerState where
  pc : ServerPc
  totSends : Nat → Nat
  totRecvs : Nat → Int
  iter : Nat

/-- A statement of `run_server`, for `n` clients from `cnLo` on. Where it polls it
    finds `numPolls` completions. -/
def serverStep (n cnLo : Nat) (s : ServerState) (numPolls : Nat) :
    ServerState × Option (Nat × Verb) :=
  match s.pc with
  | .postRecvs cn =>
    if cn < cnLo + n then
      ({ s with
        pc := .postRecvs (cn + 1)
        totRecvs := Function.update s.totRecvs cn (s.totRecvs cn + qDepth) },
        some (cn, .postRecvs qDepth))
    else ({ s with pc := .greet cnLo }, none)
  | .greet cn =>
    if cn < cnLo + n then
      ({ s with
        pc := .greet (cn + 1)
        totSends := Function.update s.totSends cn (s.totSends cn + 1) },
        some (cn, .postSend true))
    else ({ s with pc := .poll }, none)
  | .poll =>
    let cn := cnLo + (s.iter + 1) % n
    if numPolls = 0 then ({ s with iter := s.iter + 1 }, some (cn, .pollRecvs 0))
    else
      ({ s with
        pc := .topUp cn numPolls
        iter := s.iter + 1
        totRecvs := Function.update s.totRecvs cn (s.totRecvs cn - numPolls) },
        some (cn, .pollRecvs numPolls))
  | .topUp cn m =>
    if s.totRecvs cn < sDepth then
      ({ s with
        pc := .reply cn m
        totRecvs := Function.update s.totRecvs cn qDepth },
        some (cn, .postRecvs (qDepth - s.totRecvs cn).toNat))
    else ({ s with pc := .reply cn m }, none)
  | .reply _ 0 => ({ s with pc := .poll }, none)
  | .reply cn (m + 1) =>
    if s.totSends cn &&& wsServer_ = 0 then ({ s with pc := .signalled cn m }, some (cn, .pollSend))
    else
      ({ s with
        pc := .reply cn m
        totSends := Function.update s.totSends cn (s.totSends cn + 1) },
        some (cn, .postSend false))
  | .signalled cn m =>
    ({ s with
      pc := .reply cn m
      totSends := Function.update s.totSends cn (s.totSends cn + 1) },
      some (cn, .postSend true))

def ServerState.start (cnLo : Nat) : ServerState where
  pc := .postRecvs cnLo
  totSends := fun _ => 0
  totRecvs := fun _ => 0
  iter := 0

/-- A client of the server. -/
def Served (n cnLo cn : Nat) : Prop :=
  cnLo ≤ cn ∧ cn < cnLo + n

/-- The least the counter of one of the server's clients can be at a statement. -/
def ServerPc.low (pc : ServerPc) (cn : Nat) : Int :=
  match pc with
  | .postRecvs c => if cn < c then sDepth else 0
  | .topUp c _ => if cn = c then 0 else sDepth
  | _ => sDepth

/-- The signalled SENDs pending for one of them: the last, but for the moment
    between its reaping and the next. -/
def ServerPc.sendsPending (pc : ServerPc) (cn : Nat) : Nat :=
  match pc with
  | .postRecvs _ => 0
  | .greet c => if cn < c then 1 else 0
  | .signalled c _ => if cn = c then 0 else 1
  | _ => 1

/-- The client a statement is about is one of the server's. -/
def ServerPc.AtClient (n cnLo : Nat) (pc : ServerPc) : Prop :=
  match pc with
  | .postRecvs c => cnLo ≤ c ∧ c ≤ cnLo + n
  | .greet c => cnLo ≤ c ∧ c ≤ cnLo + n
  | .poll => True
  | .topUp c _ => Served n cnLo c
  | .reply c _ => Served n cnLo c
  | .signalled c _ => Served n cnLo c

/-- What the server's counter for client `cn` says of its queue pair. -/
structure PeerOk (n cnLo : Nat) (pc : ServerPc) (cn : Nat) (tot : Int) (p : Pending) : Prop where
  recvs : (p.recvs : Int) = tot
  high : tot ≤ qDepth
  low : Served n cnLo cn → pc.low cn ≤ tot
  others : ¬ Served n cnLo cn → tot = 0
  unposted : ∀ c, pc = .postRecvs c → c ≤ cn → tot = 0
  sends : Served n cnLo cn → p.sends = pc.sendsPending cn

structure ServerOk (n cnLo : Nat) (s : ServerState) (pending : Nat → Pending) : Prop where
  peer : ∀ cn, PeerOk n cnLo s.pc cn (s.totRecvs cn) (pending cn)
  atClient : s.pc.AtClient n cnLo

theorem serverOk_start (n cnLo : Nat) :
    ServerOk n cnLo (ServerState.start cnLo) (fun _ => Pending.none) := by
  refine ⟨fun cn => ?_, Nat.le_refl _, Nat.le_add_right _ _⟩
  refine ⟨rfl, ?_, fun hcn => ?_, fun _ => rfl, fun _ _ _ => rfl, fun _ => rfl⟩
  · simp only [ServerState.start]
    decide
  simp only [ServerState.start, ServerPc.low, if_neg (Nat.not_lt.mpr hcn.1)]
  exact Int.le_refl 0

/-- A statement about another client leaves a client's counter right. -/
theorem peerOk_other (n cnLo : Nat) (pc pc' : ServerPc) (cn : Nat) (tot : Int) (p : Pending)
    (h : PeerOk n cnLo pc cn tot p) (hlow : Served n cnLo cn → pc'.low cn ≤ pc.low cn)
    (hunposted : ∀ c, pc' = .postRecvs c → c ≤ cn → ∃ c', pc = .postRecvs c' ∧ c' ≤ cn)
    (hsends : Served n cnLo cn → pc'.sendsPending cn = pc.sendsPending cn) :
    PeerOk n cnLo pc' cn tot p where
  recvs := h.recvs
  high := h.high
  low := fun hcn => le_trans (hlow hcn) (h.low hcn)
  others := h.others
  unposted := fun c hc hle => by
    rcases hunposted c hc hle with ⟨c', hc', hle'⟩
    exact h.unposted c' hc' hle'
  sends := fun hcn => by rw [h.sends hcn, hsends hcn]

/-- A statement about client `cn` changes its counter and queue pair alone. -/
theorem peers_update (n cnLo : Nat) (pc : ServerPc) (totRecvs : Nat → Int)
    (pending : Nat → Pending) (cn : Nat) (tot : Int) (p : Pending)
    (hcn : PeerOk n cnLo pc cn tot p)
    (hother : ∀ q, q ≠ cn → PeerOk n cnLo pc q (totRecvs q) (pending q)) (q : Nat) :
    PeerOk n cnLo pc q (Function.update totRecvs cn tot q) (Function.update pending cn p q) := by
  by_cases hq : q = cn
  · rw [hq, Function.update_self, Function.update_self]
    exact hcn
  · rw [Function.update_of_ne hq, Function.update_of_ne hq]
    exact hother q hq

/-- One that leaves the counter alone. -/
theorem peers_update_pending (n cnLo : Nat) (pc : ServerPc) (totRecvs : Nat → Int)
    (pending : Nat → Pending) (cn : Nat) (p : Pending)
    (hcn : PeerOk n cnLo pc cn (totRecvs cn) p)
    (hother : ∀ q, q ≠ cn → PeerOk n cnLo pc q (totRecvs q) (pending q)) (q : Nat) :
    PeerOk n cnLo pc q (totRecvs q) (Function.update pending cn p q) := by
  have h := peers_update n cnLo pc totRecvs pending cn (totRecvs cn) p hcn hother q
  rwa [Function.update_eq_self] at h

section ServerSteps

variable {n cnLo : Nat} {s : ServerState} {pending : Nat → Pending}

theorem serverOk_postRecvs (h : ServerOk n cnLo s pending) (cn m : Nat)
    (hpc : s.pc = .postRecvs cn) :
    Proceeds (ServerOk n cnLo) pending (serverStep n cnLo s m) := by
  rcases h with ⟨hpeer, hat⟩
  rw [hpc] at hpeer hat
  rcases hat with ⟨hlo, hhi⟩
  unfold serverStep
  rw [hpc]
  by_cases hlt : cn < cnLo + n
  · simp only [if_pos hlt]
    have hzero := (hpeer cn).unposted cn rfl (Nat.le_refl _)
    have hrecvs := (hpeer cn).recvs
    refine ⟨trivial, _, rfl, peers_update n cnLo _ _ _ cn _ _ ?_ (fun q hq => ?_), by omega,
      by omega⟩
    · exact {
        recvs := by simp only; omega
        high := by rw [hzero]; decide
        low := fun _ => by rw [hzero, ServerPc.low, if_pos (Nat.lt_succ_self cn)]; decide
        others := fun hns => absurd ⟨hlo, hlt⟩ hns
        unposted := fun c hc hle => by
          rw [ServerPc.postRecvs.injEq] at hc
          omega
        sends := (hpeer cn).sends }
    · refine peerOk_other n cnLo _ _ q _ _ (hpeer q) (fun _ => ?_) (fun c hc hle => ?_)
        (fun _ => rfl)
      · simp only [ServerPc.low]
        by_cases hqc : q < cn
        · rw [if_pos hqc, if_pos (by omega)]
        · rw [if_neg hqc, if_neg (by omega)]
      · rw [ServerPc.postRecvs.injEq] at hc
        exact ⟨cn, rfl, by omega⟩
  · -- All of the server's clients have their RECVs.
    simp only [if_neg hlt]
    refine ⟨fun q => peerOk_other n cnLo _ _ q _ _ (hpeer q) (fun hq => ?_) (fun c hc _ => ?_)
      (fun hq => ?_), Nat.le_refl _, Nat.le_add_right _ _⟩
    · simp only [ServerPc.low]
      rw [if_pos (by have := hq.2; omega)]
    · exact absurd hc (by simp only [reduceCtorEq, not_false_eq_true])
    · simp only [ServerPc.sendsPending]
      exact if_neg (Nat.not_lt.mpr hq.1)

/-- The greeting is a signalled SEND. -/
theorem serverOk_greet (h : ServerOk n cnLo s pending) (cn m : Nat) (hpc : s.pc = .greet cn) :
    Proceeds (ServerOk n cnLo) pending (serverStep n cnLo s m) := by
  rcases h with ⟨hpeer, hat⟩
  rw [hpc] at hpeer hat
  rcases hat with ⟨hlo, hhi⟩
  unfold serverStep
  rw [hpc]
  by_cases hlt : cn < cnLo + n
  · simp only [if_pos hlt]
    refine ⟨trivial, _, rfl, peers_update_pending n cnLo _ _ _ cn _ ?_ (fun q hq => ?_), by omega,
      by omega⟩
    · rcases hpeer cn with ⟨hrecvs, hhigh, hlow, hothers, _, hsends⟩
      refine ⟨hrecvs, hhigh, hlow, hothers, fun c hc _ => ?_, fun hcn => ?_⟩
      · exact absurd hc (by simp only [reduceCtorEq, not_false_eq_true])
      · -- It had none pending, and now it has this one.
        have hnone := hsends hcn
        simp only [ServerPc.sendsPending, Nat.lt_irrefl, if_false] at hnone
        simp only [ServerPc.sendsPending, if_pos (Nat.lt_succ_self cn), if_true, hnone]
    · refine peerOk_other n cnLo _ _ q _ _ (hpeer q) (fun _ => Int.le_refl _) (fun c hc _ => ?_)
        (fun _ => ?_)
      · exact absurd hc (by simp only [reduceCtorEq, not_false_eq_true])
      · simp only [ServerPc.sendsPending]
        by_cases hqc : q < cn
        · rw [if_pos hqc, if_pos (by omega)]
        · rw [if_neg hqc, if_neg (by omega)]
  · simp only [if_neg hlt]
    refine ⟨fun q => peerOk_other n cnLo _ _ q _ _ (hpeer q) (fun _ => Int.le_refl _)
      (fun c hc _ => ?_) (fun hq => ?_), trivial⟩
    · exact absurd hc (by simp only [reduceCtorEq, not_false_eq_true])
    · simp only [ServerPc.sendsPending]
      rw [if_pos (by have := hq.2; omega)]

/-- No more completions are found than there are RECVs of the client polled. -/
theorem serverOk_poll (h : ServerOk n cnLo s pending) (m : Nat) (hpc : s.pc = .poll)
    (hm : m ≤ (pending (cnLo + (s.iter + 1) % n)).recvs) :
    Proceeds (ServerOk n cnLo) pending (serverStep n cnLo s m) := by
  rcases h with ⟨hpeer, _⟩
  rw [hpc] at hpeer
  unfold serverStep
  rw [hpc]
  by_cases hzero : m = 0
  · simp only [if_pos hzero]
    generalize cnLo + (s.iter + 1) % n = cn
    exact ⟨trivial, pending cn, by simp only [Pending.after, Nat.zero_le, if_true, Nat.sub_zero],
      peers_update_pending n cnLo _ _ _ cn _ (hpeer cn) (fun q _ => hpeer q), trivial⟩
  · simp only [if_neg hzero]
    generalize hcn : cnLo + (s.iter + 1) % n = cn at hm ⊢
    rcases hpeer cn with ⟨hrecvs, hhigh, _, hothers, _, hsends⟩
    -- A client with RECVs is one of the server's.
    have hserved : Served n cnLo cn := by
      by_contra hns
      have := hothers hns
      omega
    refine ⟨trivial, _, if_pos hm, peers_update n cnLo _ _ _ cn _ _ ?_ (fun q hq => ?_), hserved⟩
    · refine ⟨by simp only; omega, by omega, fun _ => ?_, fun hns => absurd hserved hns,
        fun c hc _ => ?_, hsends⟩
      · simp only [ServerPc.low, if_true]
        omega
      · exact absurd hc (by simp only [reduceCtorEq, not_false_eq_true])
    · refine peerOk_other n cnLo _ _ q _ _ (hpeer q) (fun _ => ?_) (fun c hc _ => ?_)
        (fun _ => rfl)
      · simp only [ServerPc.low, if_neg hq]
        exact Int.le_refl _
      · exact absurd hc (by simp only [reduceCtorEq, not_false_eq_true])

/-- RECVs are posted up to `Q_DEPTH` when few are left. -/
theorem serverOk_topUp (h : ServerOk n cnLo s pending) (cn k m : Nat)
    (hpc : s.pc = .topUp cn k) :
    Proceeds (ServerOk n cnLo) pending (serverStep n cnLo s m) := by
  rcases h with ⟨hpeer, hat⟩
  rw [hpc] at hpeer hat
  have hother : ∀ q, q ≠ cn → PeerOk n cnLo (.reply cn k) q (s.totRecvs q) (pending q) := by
    intro q hq
    refine peerOk_other n cnLo _ _ q _ _ (hpeer q) (fun _ => ?_) (fun c hc _ => ?_) (fun _ => rfl)
    · simp only [ServerPc.low, if_neg hq]
      exact Int.le_refl _
    · exact absurd hc (by simp only [reduceCtorEq, not_false_eq_true])
  rcases hpeer cn with ⟨hrecvs, hhigh, _, hothers, _, hsends⟩
  unfold serverStep
  rw [hpc]
  by_cases hlt : s.totRecvs cn < sDepth
  · simp only [if_pos hlt]
    refine ⟨trivial, _, rfl, peers_update n cnLo _ _ _ cn _ _ ?_ hother, hat⟩
    refine ⟨by simp only; omega, Int.le_refl _, fun _ => by simp only [ServerPc.low]; decide,
      fun hns => absurd hat hns, fun c hc _ => ?_, hsends⟩
    exact absurd hc (by simp only [reduceCtorEq, not_false_eq_true])
  · simp only [if_neg hlt]
    refine ⟨fun q => ?_, hat⟩
    by_cases hq : q = cn
    · rw [hq]
      refine ⟨hrecvs, hhigh, fun _ => Int.not_lt.mp hlt, hothers, fun c hc _ => ?_, hsends⟩
      exact absurd hc (by simp only [reduceCtorEq, not_false_eq_true])
    · exact hother q hq

/-- A reply is an unsignalled SEND, or waits for the completion of the last
    signalled one. -/
theorem serverOk_reply (h : ServerOk n cnLo s pending) (cn k m : Nat)
    (hpc : s.pc = .reply cn k) :
    Proceeds (ServerOk n cnLo) pending (serverStep n cnLo s m) := by
  rcases h with ⟨hpeer, hat⟩
  rw [hpc] at hpeer hat
  have hone := (hpeer cn).sends hat
  simp only [ServerPc.sendsPending] at hone
  unfold serverStep
  rw [hpc]
  cases k with
  | zero =>
      refine ⟨fun q => peerOk_other n cnLo _ _ q _ _ (hpeer q) (fun _ => Int.le_refl _)
        (fun c hc _ => ?_) (fun _ => rfl), trivial⟩
      exact absurd hc (by simp only [reduceCtorEq, not_false_eq_true])
  | succ k =>
      have hother : ∀ q, q ≠ cn → ∀ pc' : ServerPc, pc' = .signalled cn k ∨ pc' = .reply cn k →
          PeerOk n cnLo pc' q (s.totRecvs q) (pending q) := by
        intro q hq pc' hpc'
        refine peerOk_other n cnLo _ _ q _ _ (hpeer q) (fun _ => ?_) (fun c hc _ => ?_)
          (fun _ => ?_) <;> rcases hpc' with rfl | rfl
        · exact Int.le_refl _
        · exact Int.le_refl _
        · exact absurd hc (by simp only [reduceCtorEq, not_false_eq_true])
        · exact absurd hc (by simp only [reduceCtorEq, not_false_eq_true])
        · simp only [ServerPc.sendsPending, if_neg hq]
        · rfl
      rcases hpeer cn with ⟨hrecvs, hhigh, hlow, hothers, _, _⟩
      by_cases heven : s.totSends cn &&& wsServer_ = 0
      · simp only [if_pos heven]
        refine ⟨hone, _, if_pos (by rw [hone]; decide), peers_update_pending n cnLo _ _ _ cn _ ?_
          (fun q hq => hother q hq _ (Or.inl rfl)), hat⟩
        refine ⟨hrecvs, hhigh, hlow, hothers, fun c hc _ => ?_, fun _ => ?_⟩
        · exact absurd hc (by simp only [reduceCtorEq, not_false_eq_true])
        · simp only [ServerPc.sendsPending, if_true, hone]
      · simp only [if_neg heven]
        refine ⟨trivial, _, rfl, peers_update_pending n cnLo _ _ _ cn _ ?_
          (fun q hq => hother q hq _ (Or.inr rfl)), hat⟩
        refine ⟨hrecvs, hhigh, hlow, hothers, fun c hc _ => ?_, fun _ => hone⟩
        exact absurd hc (by simp only [reduceCtorEq, not_false_eq_true])

/-- A signalled reply follows the reaping. -/
theorem serverOk_signalled (h : ServerOk n cnLo s pending) (cn k m : Nat)
    (hpc : s.pc = .signalled cn k) :
    Proceeds (ServerOk n cnLo) pending (serverStep n cnLo s m) := by
  rcases h with ⟨hpeer, hat⟩
  rw [hpc] at hpeer hat
  unfold serverStep
  rw [hpc]
  refine ⟨trivial, _, rfl, peers_update_pending n cnLo _ _ _ cn _ ?_ (fun q hq => ?_), hat⟩
  · rcases hpeer cn with ⟨hrecvs, hhigh, hlow, hothers, _, hsends⟩
    refine ⟨hrecvs, hhigh, hlow, hothers, fun c hc _ => ?_, fun hcn => ?_⟩
    · exact absurd hc (by simp only [reduceCtorEq, not_false_eq_true])
    · have hnone := hsends hcn
      simp only [ServerPc.sendsPending, if_true] at hnone
      simp only [ServerPc.sendsPending, if_true, hnone]
  · refine peerOk_other n cnLo _ _ q _ _ (hpeer q) (fun _ => Int.le_refl _) (fun c hc _ => ?_)
      (fun _ => ?_)
    · exact absurd hc (by simp only [reduceCtorEq, not_false_eq_true])
    · simp only [ServerPc.sendsPending, if_neg hq]

/-- Any statement keeps the server's counters right, if polling finds no more
    completions than there are RECVs. -/
theorem serverOk_step (h : ServerOk n cnLo s pending) (m : Nat)
    (hm : s.pc = .poll → m ≤ (pending (cnLo + (s.iter + 1) % n)).recvs) :
    Proceeds (ServerOk n cnLo) pending (serverStep n cnLo s m) := by
  cases hpc : s.pc with
  | postRecvs cn => exact serverOk_postRecvs h cn m hpc
  | greet cn => exact serverOk_greet h cn m hpc
  | poll => exact serverOk_poll h m hpc (hm hpc)
  | topUp cn k => exact serverOk_topUp h cn k m hpc
  | reply cn k => exact serverOk_reply h cn k m hpc
  | signalled cn k => exact serverOk_signalled h cn k m hpc

/-- A poll that would find more does not happen, and no other statement is held
    up. -/
theorem serverOk_tracked (t : Tracked ServerState Nat) (m : Nat)
    (h : ServerOk n cnLo t.prog t.pending) :
    Awaited (serverStep n cnLo) t m ∧
      ∀ t', trackedStep (serverStep n cnLo) t m = some t' → ServerOk n cnLo t'.prog t'.pending := by
  by_cases hm : t.prog.pc = .poll → m ≤ (t.pending (cnLo + (t.prog.iter + 1) % n)).recvs
  · rcases tracked_of_proceeds (serverStep n cnLo) (ServerOk n cnLo) t m
      (serverOk_step h m hm) with ⟨haw, t', ht', hok⟩
    refine ⟨haw, fun u hu => ?_⟩
    rw [ht', Option.some.injEq] at hu
    exact hu ▸ hok
  · rcases Classical.not_imp.mp hm with ⟨hpc, hmany⟩
    have hne : m ≠ 0 := by omega
    have hstep : (serverStep n cnLo t.prog m).2 =
        some (cnLo + (t.prog.iter + 1) % n, .pollRecvs m) := by
      simp only [serverStep, hpc, if_neg hne]
    refine ⟨fun i v hv => ?_, fun u hu => ?_⟩
    · rw [hstep, Option.some.injEq, Prod.mk.injEq] at hv
      rw [← hv.2]
      trivial
    · unfold trackedStep at hu
      rw [show serverStep n cnLo t.prog m = ((serverStep n cnLo t.prog m).1,
        some (cnLo + (t.prog.iter + 1) % n, .pollRecvs m)) by rw [← hstep]] at hu
      simp only [Pending.after, if_neg hmany] at hu
      exact absurd hu (by simp only [reduceCtorEq, not_false_eq_true])

end ServerSteps

/-! ## Runs -/

/-- `num_recvs` is the number of RECVs posted and not reaped, is set once the
    client is greeted, and is between `S_DEPTH - 1` and `Q_DEPTH` at the end of
    an iteration. -/
structure ClientCredit (s : ClientState) (p : Pending) : Prop where
  counted : s.pc ≠ .postRecvs → s.pc ≠ .greeting → (p.recvs : Int) = s.numRecvs
  high : p.recvs ≤ qDepth
  low : s.pc = .topUp → (sDepth : Int) - 1 ≤ s.numRecvs

theorem clientCredit_of_ok (s : ClientState) (p : Pending) (h : ClientOk s p) :
    ClientCredit s p where
  counted := fun hpost hgreet => by
    have hrecvs := h.recvs
    unfold ClientState.recvs at hrecvs
    split at hrecvs
    · rename_i hpc; exact absurd hpc hpost
    · rename_i hpc; exact absurd hpc hgreet
    · exact hrecvs
  high := by
    have hrecvs := h.recvs
    have hhigh := h.high
    omega
  low := fun hpc => by
    have hlow := h.low
    simp only [ClientState.low, ClientState.recvs, hpc] at hlow
    exact hlow

/-- `tot_recvs[cn]` is the number of RECVs of client `cn` posted and not reaped,
    and at the end of an iteration is between `S_DEPTH` and `Q_DEPTH` if the
    client is one of the server's. -/
structure ServerCredit (n cnLo : Nat) (s : ServerState) (pending : Nat → Pending) (cn : Nat) :
    Prop where
  counted : ((pending cn).recvs : Int) = s.totRecvs cn
  high : (pending cn).recvs ≤ qDepth
  low : s.pc = .poll → Served n cnLo cn → (sDepth : Int) ≤ s.totRecvs cn

theorem serverCredit_of_ok (n cnLo : Nat) (s : ServerState) (pending : Nat → Pending)
    (h : ServerOk n cnLo s pending) (cn : Nat) : ServerCredit n cnLo s pending cn where
  counted := (h.peer cn).recvs
  high := by
    have hrecvs := (h.peer cn).recvs
    have hhigh := (h.peer cn).high
    omega
  low := fun hpc hcn => by
    have hlow := (h.peer cn).low hcn
    rw [hpc] at hlow
    exact hlow

/-- A client and a server wait for the completion of a SEND or a READ only when
    just one is to come, and their counters are right. The client is never held
    up, whatever it requests; the server goes on as long as what its polls find
    is there to be found. -/
theorem completions_accounted :
    (∀ (sn : Nat) (choices : List Choice),
      let step := trackedStep (clientStep sn)
      let start : Tracked ClientState Nat := ⟨.start, fun _ => .none⟩
      Along step (Awaited (clientStep sn)) choices start ∧
        ∃ t, run step choices start = some t ∧ ClientCredit t.prog (t.pending sn)) ∧
    (∀ (n cnLo : Nat) (polls : List Nat),
      let step := trackedStep (serverStep n cnLo)
      let start : Tracked ServerState Nat := ⟨.start cnLo, fun _ => .none⟩
      Along step (Awaited (serverStep n cnLo)) polls start ∧
        ∀ t, run step polls start = some t →
          ∀ cn, ServerCredit n cnLo t.prog t.pending cn) := by
  constructor
  · intro sn choices
    have hrun := run_of_kept (trackedStep (clientStep sn)) (Awaited (clientStep sn))
      (fun t => ClientOk t.prog (t.pending sn))
      (fun t c h => tracked_of_proceeds (clientStep sn) _ t c (clientOk_step sn c h))
      choices ⟨.start, fun _ => .none⟩ clientOk_start
    rcases hrun with ⟨hawaited, t, ht, hok⟩
    exact ⟨hawaited, t, ht, clientCredit_of_ok t.prog (t.pending sn) hok⟩
  · intro n cnLo polls
    have hrun := along_of_kept (trackedStep (serverStep n cnLo)) (Awaited (serverStep n cnLo))
      (fun t => ServerOk n cnLo t.prog t.pending) serverOk_tracked
      polls ⟨.start cnLo, fun _ => .none⟩ (serverOk_start n cnLo)
    rcases hrun with ⟨hawaited, hend⟩
    exact ⟨hawaited, fun t ht cn => serverCredit_of_ok n cnLo _ _ (hend t ht) cn⟩

end Pilaf

end LocalKeyValue
