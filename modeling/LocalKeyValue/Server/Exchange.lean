import LocalKeyValue.Lib.Visits
import LocalKeyValue.Server.Replies

/-!
# Setting up the Connections

Before a server serves and a client makes requests, `server_exch_dest` and
`client_exch_dest` tell each other their memory regions and queue pairs over a
socket. A client goes through the servers one after the other; a server accepts
its clients in the order they connect. All processes run on their own, so what
is shown is shown of every interleaving. A write is taken to arrive whole, as
the code does; a call that fails is left out.

The set-up always completes, and after it a queue pair of a server and one of a
client are connected to each other, and each side has the other's regions. The
arrays of a server are then those that `serverExchDest` fills in.

## Main definitions

* `Msg`: What is written to a socket.
* `Setup`: What the processes have before.
* `ClientEnd`, `ServerEnd`, `roles`: FaRM's and HydraDB's exchange.
* `RcUc`: Attributes of a queue pair of each kind.
* `PilafSetup`, `PilafClientEnd`, `PilafServerEnd`, `pilafRoles`: Pilaf's.

## Theorems

* `exchange_completes`: No interleaving gets stuck.
* `exchange_paired`, `pilaf_exchange_paired`: What both sides then have.
* `exchange_conns`: The server's arrays are those of the accept loop.
-/

namespace LocalKeyValue

namespace Server

open Session Visits

/-- `S_STG` or `S_QPA` bytes. -/
inductive Msg where
  | stag (s : Stag)
  | qpAttr (a : QpAttr)

def writeStag {σ : Type} (get : σ → Stag) : Op σ Msg := .send fun d => .stag (get d)

def writeQpAttr {σ : Type} (get : σ → QpAttr) : Op σ Msg := .send fun d => .qpAttr (get d)

/-- A read of a region. The scripts below never read what is of the other size. -/
def readStag {σ : Type} (set : σ → Stag → σ) : Op σ Msg := .recv fun d msg =>
  match msg with
  | .stag s => set d s
  | .qpAttr _ => d

def readQpAttr {σ : Type} (set : σ → QpAttr → σ) : Op σ Msg := .recv fun d msg =>
  match msg with
  | .qpAttr a => set d a
  | .stag _ => d

/-! ## FaRM and HydraDB -/

/-- A client's variables for one server. -/
structure ClientEnd where
  serverReqAreaStag : Stag
  serverPointerHashAreaStag : Stag
  clientRespAreaStag : Stag
  localQpAttr : QpAttr
  remoteQpAttr : QpAttr

/-- A server's variables for one connection, and what its queue pair is connected to. -/
structure ServerEnd where
  serverReqAreaStag : Stag
  serverHashAreaStag : Stag
  clientReqAreaStag : Stag
  localQpAttr : QpAttr
  remoteQpAttr : QpAttr
  connected : Option QpAttr

/-- The loop body of `client_exch_dest` after `connect`. -/
def clientScript : List (Op ClientEnd Msg) :=
  [readStag fun d s => { d with serverReqAreaStag := s },
   readStag fun d s => { d with serverPointerHashAreaStag := s },
   writeStag ClientEnd.clientRespAreaStag,
   writeQpAttr ClientEnd.localQpAttr,
   readQpAttr fun d a => { d with remoteQpAttr := a }]

/-- The loop body of `server_exch_dest` after `accept`. `connect_ctx` is called
    between the last read and the last write. -/
def serverScript : List (Op ServerEnd Msg) :=
  [writeStag ServerEnd.serverReqAreaStag,
   writeStag ServerEnd.serverHashAreaStag,
   readStag fun d s => { d with clientReqAreaStag := s },
   readQpAttr fun d a => { d with remoteQpAttr := a, connected := some a },
   writeQpAttr ServerEnd.localQpAttr]

/-- What the processes have registered and created, by server and by client or
    connection, and what is in the variables that are read into. -/
structure Setup where
  reqAreaStag : Nat → Stag
  hashAreaStag : Nat → Stag
  serverQpAttr : Nat → Nat → QpAttr
  hello : Nat → Nat → Hello
  stag₀ : Stag
  attr₀ : QpAttr

def roles (P : Setup) : Roles ClientEnd ServerEnd Msg where
  clientTodo := clientScript
  serverTodo := serverScript
  clientData c s := ⟨P.stag₀, P.stag₀, (P.hello s c).clientRespAreaStag, (P.hello s c).localQpAttr,
    P.attr₀⟩
  serverData s k := ⟨P.reqAreaStag s, P.hashAreaStag s, P.stag₀, P.serverQpAttr s k, P.attr₀, none⟩
  dual := trivial

/-- `main` of a client after the exchange: its queue pair is connected to the remote one. -/
def ClientEnd.connectCtx (d : ClientEnd) : QpAttr := d.remoteQpAttr

theorem roles_goal (P : Setup) (c s k : Nat) : (roles P).goal c s k =
    (⟨P.reqAreaStag s, P.hashAreaStag s, (P.hello s c).clientRespAreaStag,
        (P.hello s c).localQpAttr, P.serverQpAttr s k⟩,
      ⟨P.reqAreaStag s, P.hashAreaStag s, (P.hello s c).clientRespAreaStag, P.serverQpAttr s k,
        (P.hello s c).localQpAttr, some (P.hello s c).localQpAttr⟩) :=
  rfl

/-- Two clients of one server, the second of which comes first. -/
def secondFirst : List Mover :=
  [.client 1, .client 0, .server 0, .server 0, .server 0, .client 1, .client 1, .client 1,
    .client 1, .server 0, .server 0, .server 0, .server 0, .client 1, .client 1, .server 0,
    .server 0, .server 0, .client 0, .client 0, .client 0, .client 0, .server 0, .server 0,
    .server 0, .server 0, .client 0, .client 0]

def secondFirstSetup : Setup where
  reqAreaStag _ := ⟨0x1000, 7, 96⟩
  hashAreaStag _ := ⟨0x2000, 8, 65536⟩
  serverQpAttr _ k := ⟨1, 2, 3, 100 + k, 9⟩
  hello _ c := ⟨⟨0x3000, 9, 48⟩, ⟨1, 2, 4, 200 + c, 8⟩⟩
  stag₀ := ⟨0, 0, 0⟩
  attr₀ := ⟨0, 0, 0, 0, 0⟩

theorem secondFirst_run : ∃ net, Run.run (step (roles secondFirstSetup) 2 1) secondFirst
    (start (roles secondFirstSetup)) = some net ∧ Over 2 1 net ∧ net.accepted 0 = [1, 0] := by
  refine ⟨_, rfl, ?_⟩
  unfold Over
  decide

section Exchange

variable (P : Setup) (n m : Nat) (es : List Mover) (net : Net ClientEnd ServerEnd Msg)

/-- However the processes run, the set-up ends: it takes 14 moves for every client
    and server, and before these are made some process can go on. -/
theorem exchange_completes (h : Run.run (step (roles P) n m) es (start (roles P)) = some net) :
    es.length ≤ n * m * 14 ∧
      ((∀ e, step (roles P) n m net e = none) → es.length = n * m * 14 ∧ Over n m net) :=
  run_completes h

theorem exchange_completes_secondFirst : ∃ net : Net ClientEnd ServerEnd Msg,
    net.accepted 0 = [1, 0] ∧ secondFirst.length ≤ 28 ∧
      ((∀ e, step (roles secondFirstSetup) 2 1 net e = none) →
        secondFirst.length = 28 ∧ Over 2 1 net) := by
  obtain ⟨net, hrun, _, horder⟩ := secondFirst_run
  exact ⟨net, horder, exchange_completes secondFirstSetup 2 1 secondFirst net hrun⟩

/-- After the set-up every server has accepted every client once. The two queue pairs
    of a connection are connected to each other, and the regions are known. -/
theorem exchange_paired (h : Run.run (step (roles P) n m) es (start (roles P)) = some net)
    (hover : Over n m net) (s : Nat) (hs : s < m) :
    (net.accepted s).Perm (List.range n) ∧
      ∀ k c : Nat, (net.accepted s)[k]? = some c →
        (net.conn c s).right.data.connected = some (P.hello s c).localQpAttr ∧
        (net.conn c s).left.data.connectCtx = P.serverQpAttr s k ∧
        (net.conn c s).left.data.serverReqAreaStag = P.reqAreaStag s ∧
        (net.conn c s).left.data.serverPointerHashAreaStag = P.hashAreaStag s ∧
        (net.conn c s).right.data.clientReqAreaStag = (P.hello s c).clientRespAreaStag := by
  have hsound := run_sound h
  refine ⟨perm_of_over hsound hover hs, fun k c hk => ?_⟩
  have hgoal := goal_of_over hsound hover hs hk
  rw [roles_goal, Prod.mk.injEq] at hgoal
  rw [hgoal.1, hgoal.2]
  exact ⟨rfl, rfl, rfl, rfl, rfl⟩

theorem exchange_paired_secondFirst : ∃ net : Net ClientEnd ServerEnd Msg,
    net.accepted 0 = [1, 0] ∧ (net.accepted 0).Perm (List.range 2) ∧
    ∀ k c : Nat, (net.accepted 0)[k]? = some c →
      (net.conn c 0).right.data.connected = some ⟨1, 2, 4, 200 + c, 8⟩ ∧
      (net.conn c 0).left.data.connectCtx = ⟨1, 2, 3, 100 + k, 9⟩ ∧
      (net.conn c 0).left.data.serverReqAreaStag = ⟨0x1000, 7, 96⟩ ∧
      (net.conn c 0).left.data.serverPointerHashAreaStag = ⟨0x2000, 8, 65536⟩ ∧
      (net.conn c 0).right.data.clientReqAreaStag = ⟨0x3000, 9, 48⟩ := by
  obtain ⟨net, hrun, hover, horder⟩ := secondFirst_run
  exact ⟨net, horder,
    exchange_paired secondFirstSetup 2 1 secondFirst net hrun hover 0 (by decide)⟩

/-- The arrays of a server: index `k` is the `k`th connection's, if there was one. -/
def connsOf (net : Net ClientEnd ServerEnd Msg) (s : Nat) (cs : Conns) : Conns where
  clientReqAreaStag k :=
    match (net.accepted s)[k]? with
    | some c => (net.conn c s).right.data.clientReqAreaStag
    | none => cs.clientReqAreaStag k
  remoteQpAttrs k :=
    match (net.accepted s)[k]? with
    | some c => (net.conn c s).right.data.remoteQpAttr
    | none => cs.remoteQpAttrs k

/-- The accept loop by itself fills in the same arrays, given the order in which the
    clients came. -/
theorem exchange_conns (h : Run.run (step (roles P) n m) es (start (roles P)) = some net)
    (hover : Over n m net) (s : Nat) (hs : s < m) (cs : Conns) :
    connsOf net s cs = serverExchDest (P.hello s) (net.accepted s) cs := by
  have hsound := run_sound h
  have hget : ∀ k : Nat,
      (connsOf net s cs).clientReqAreaStag k =
        (serverExchDest (P.hello s) (net.accepted s) cs).clientReqAreaStag k ∧
      (connsOf net s cs).remoteQpAttrs k =
        (serverExchDest (P.hello s) (net.accepted s) cs).remoteQpAttrs k := by
    intro k
    cases hk : (net.accepted s)[k]? with
    | some c =>
        have hgoal := goal_of_over hsound hover hs hk
        rw [roles_goal, Prod.mk.injEq] at hgoal
        rcases serverExchDest_get (P.hello s) (net.accepted s) cs k c hk with ⟨hstag, hattr⟩
        simp only [connsOf, hk, hgoal.2, hstag, hattr, and_self]
    | none =>
        -- There was no such connection, and the loop does not touch the entry.
        have hout := (acceptFrom_get (P.hello s) k (net.accepted s) 0 cs).1
          (Or.inr (by rw [Nat.zero_add]; exact List.getElem?_eq_none_iff.mp hk))
        simp only [connsOf, hk, serverExchDest, hout.1, hout.2, and_self]
  have hstags := funext fun k => (hget k).1
  have hattrs := funext fun k => (hget k).2
  cases hc : serverExchDest (P.hello s) (net.accepted s) cs
  rw [hc] at hstags hattrs
  cases hd : connsOf net s cs
  rw [hd] at hstags hattrs
  rw [Conns.mk.injEq]
  exact ⟨hstags, hattrs⟩

theorem exchange_conns_secondFirst : ∃ net : Net ClientEnd ServerEnd Msg,
    net.accepted 0 = [1, 0] ∧
    connsOf net 0 ⟨fun _ => ⟨0, 0, 0⟩, fun _ => ⟨0, 0, 0, 0, 0⟩⟩ =
      serverExchDest (secondFirstSetup.hello 0) (net.accepted 0)
        ⟨fun _ => ⟨0, 0, 0⟩, fun _ => ⟨0, 0, 0, 0, 0⟩⟩ := by
  obtain ⟨net, hrun, hover, horder⟩ := secondFirst_run
  exact ⟨net, horder,
    exchange_conns secondFirstSetup 2 1 secondFirst net hrun hover 0 (by decide) _⟩

end Exchange

/-! ## Pilaf -/

/-- The attributes of an RC queue pair and of a UC one. -/
structure RcUc where
  rc : QpAttr
  uc : QpAttr

structure PilafClientEnd where
  serverReqAreaStag : Stag
  localQpAttr : RcUc
  remoteQpAttr : RcUc

/-- A server's variables for one connection, and what its queue pairs are connected to. -/
structure PilafServerEnd where
  serverReqAreaStag : Stag
  localQpAttr : RcUc
  remoteQpAttr : RcUc
  rcConnected : Option QpAttr
  ucConnected : Option QpAttr

def pilafClientScript : List (Op PilafClientEnd Msg) :=
  [readStag fun d s => { d with serverReqAreaStag := s },
   writeQpAttr fun d => d.localQpAttr.rc,
   readQpAttr fun d a => { d with remoteQpAttr := { d.remoteQpAttr with rc := a } },
   writeQpAttr fun d => d.localQpAttr.uc,
   readQpAttr fun d a => { d with remoteQpAttr := { d.remoteQpAttr with uc := a } }]

/-- `connect_ctx` follows each read. -/
def pilafServerScript : List (Op PilafServerEnd Msg) :=
  [writeStag PilafServerEnd.serverReqAreaStag,
   readQpAttr fun d a => { d with
     remoteQpAttr := { d.remoteQpAttr with rc := a }
     rcConnected := some a },
   writeQpAttr fun d => d.localQpAttr.rc,
   readQpAttr fun d a => { d with
     remoteQpAttr := { d.remoteQpAttr with uc := a }
     ucConnected := some a },
   writeQpAttr fun d => d.localQpAttr.uc]

structure PilafSetup where
  reqAreaStag : Nat → Stag
  serverQpAttr : Nat → Nat → RcUc
  clientQpAttr : Nat → Nat → RcUc
  stag₀ : Stag
  attr₀ : RcUc

def pilafRoles (P : PilafSetup) : Roles PilafClientEnd PilafServerEnd Msg where
  clientTodo := pilafClientScript
  serverTodo := pilafServerScript
  clientData c s := ⟨P.stag₀, P.clientQpAttr s c, P.attr₀⟩
  serverData s k := ⟨P.reqAreaStag s, P.serverQpAttr s k, P.attr₀, none, none⟩
  dual := trivial

/-- `main` of a client after the exchange connects both its queue pairs. -/
def PilafClientEnd.connectCtx (d : PilafClientEnd) : RcUc := d.remoteQpAttr

theorem pilafRoles_goal (P : PilafSetup) (c s k : Nat) : (pilafRoles P).goal c s k =
    (⟨P.reqAreaStag s, P.clientQpAttr s c, P.serverQpAttr s k⟩,
      ⟨P.reqAreaStag s, P.serverQpAttr s k, P.clientQpAttr s c, some (P.clientQpAttr s c).rc,
        some (P.clientQpAttr s c).uc⟩) :=
  rfl

section PilafExchange

variable (P : PilafSetup) (n m : Nat) (es : List Mover)
  (net : Net PilafClientEnd PilafServerEnd Msg)

/-- Every run of the set-up that cannot go on has made 14 moves for every client and
    server. The RC queue pairs of each connection are then connected to each other, and
    so are its UC queue pairs, and the client knows the server's buckets. -/
theorem pilaf_exchange_paired
    (h : Run.run (step (pilafRoles P) n m) es (start (pilafRoles P)) = some net)
    (hstuck : ∀ e, step (pilafRoles P) n m net e = none) :
    es.length = n * m * 14 ∧ ∀ s < m,
      (net.accepted s).Perm (List.range n) ∧
        ∀ k c : Nat, (net.accepted s)[k]? = some c →
          (net.conn c s).right.data.rcConnected = some (P.clientQpAttr s c).rc ∧
          (net.conn c s).right.data.ucConnected = some (P.clientQpAttr s c).uc ∧
          (net.conn c s).left.data.connectCtx = P.serverQpAttr s k ∧
          (net.conn c s).left.data.serverReqAreaStag = P.reqAreaStag s := by
  have hsound := run_sound h
  obtain ⟨hlen, hover⟩ := (run_completes h).2 hstuck
  refine ⟨hlen, fun s hs => ⟨perm_of_over hsound hover hs, fun k c hk => ?_⟩⟩
  have hgoal := goal_of_over hsound hover hs hk
  rw [pilafRoles_goal, Prod.mk.injEq] at hgoal
  rw [hgoal.1, hgoal.2]
  exact ⟨rfl, rfl, rfl, rfl⟩

def secondFirstPilaf : PilafSetup where
  reqAreaStag _ := ⟨0x1000, 7, 96⟩
  serverQpAttr _ k := ⟨⟨1, 2, 3, 100 + k, 9⟩, ⟨1, 2, 3, 300 + k, 9⟩⟩
  clientQpAttr _ c := ⟨⟨1, 2, 4, 200 + c, 8⟩, ⟨1, 2, 4, 400 + c, 8⟩⟩
  stag₀ := ⟨0, 0, 0⟩
  attr₀ := ⟨⟨0, 0, 0, 0, 0⟩, ⟨0, 0, 0, 0, 0⟩⟩

/-- The same two clients: a server of Pilaf starts with one write. -/
def secondFirstMoves : List Mover :=
  [.client 1, .client 0, .server 0, .server 0, .client 1, .client 1, .server 0, .server 0,
    .client 1, .client 1, .server 0, .server 0, .server 0, .client 1, .client 1, .server 0,
    .server 0, .client 0, .client 0, .server 0, .server 0, .client 0, .client 0, .server 0,
    .server 0, .server 0, .client 0, .client 0]

theorem secondFirstMoves_run : ∃ net, Run.run (step (pilafRoles secondFirstPilaf) 2 1)
    secondFirstMoves (start (pilafRoles secondFirstPilaf)) = some net ∧ Over 2 1 net ∧
      net.accepted 0 = [1, 0] := by
  refine ⟨_, rfl, ?_⟩
  unfold Over
  decide

theorem pilaf_exchange_paired_secondFirst : ∃ net : Net PilafClientEnd PilafServerEnd Msg,
    net.accepted 0 = [1, 0] ∧ secondFirstMoves.length = 28 ∧ ∀ s < 1,
    (net.accepted s).Perm (List.range 2) ∧
      ∀ k c : Nat, (net.accepted s)[k]? = some c →
        (net.conn c s).right.data.rcConnected = some (secondFirstPilaf.clientQpAttr s c).rc ∧
        (net.conn c s).right.data.ucConnected = some (secondFirstPilaf.clientQpAttr s c).uc ∧
        (net.conn c s).left.data.connectCtx = secondFirstPilaf.serverQpAttr s k ∧
        (net.conn c s).left.data.serverReqAreaStag = secondFirstPilaf.reqAreaStag s := by
  obtain ⟨net, hrun, hover, horder⟩ := secondFirstMoves_run
  exact ⟨net, horder, pilaf_exchange_paired secondFirstPilaf 2 1 secondFirstMoves net hrun
    (step_eq_none_of_over (run_sound hrun) hover)⟩

end PilafExchange

end Server

end LocalKeyValue
