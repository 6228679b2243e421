import LocalKeyValue.FaRM.HopExact
import LocalKeyValue.FaRM.PutProtocol
import LocalKeyValue.HydraDB.Requests

/-!
# Replies of the FaRM and HydraDB Servers

How a reply finds its client, and what is in it. The two servers set up their
connections with the same code and answer a request with the same stores, so
both are instances of one `Service`: a table, a record, and what a request does
to the table.

A server accepts its clients' connections one after the other and keeps what the
`i`th client says of itself, its response area and its queue pair, at index `i`.
A client writes its requests to the record its command-line id names. The server
answers a request in record `i` over queue pair `i`, so the two numberings have
to agree, and nothing makes them: the clients are numbered by hand and accepted
as they come.

The acknowledgement is put into record `i`, and what is sent is the record at
the start of the request area. For every client but the first, the reply is what
another client has last written.

## Main definitions

* `Hello`, `Conns`, `serverExchDest`: The connections.
* `Write`, `postWrite`: A one-sided write.
* `Service`, `Service.serveSlot`: A server at a record of its request area.
* `farmService`, `hydraService`: The two servers.
* `Routed`: The write goes to the client.
* `RepliesAlike`: Two areas get one reply, the acknowledgement.

## Theorems

* `serverExchDest_get`: Index `i` is the client accepted `i`th.
* `serveSlot_answer`: What a handled request is answered with.
* `ack_routed_iff`: Where the reply goes.
* `replies_alike_iff`: What is in the reply.
-/

namespace LocalKeyValue

namespace Server

open CInt

/-- `NUM_CLIENTS`, the connections a server accepts. -/
def numClients : Nat := 24

/-- `NUM_CLIENTS_PER_SERVER`, the records a server goes round. -/
def numClientsPerServer : Nat := 24

/-! ## The connections -/

/-- `struct stag`, a registered region. -/
structure Stag where
  buf : BitVec 64
  rkey : BitVec 32
  size : BitVec 32
deriving DecidableEq

/-- `struct qp_attr`, which names a queue pair. -/
structure QpAttr where
  gidGlobalInterfaceId : BitVec 64
  gidGlobalSubnetPrefix : BitVec 64
  lid : Int
  qpn : Int
  psn : Int
deriving DecidableEq

/-- What `client_exch_dest` sends: the stag of the client's response area and the
    attributes of its queue pair for this server. -/
structure Hello where
  clientRespAreaStag : Stag
  localQpAttr : QpAttr
deriving DecidableEq

/-- What the server keeps by connection: the stag it was sent, and the queue pair
    its own is connected to. -/
structure Conns where
  clientReqAreaStag : Nat → Stag
  remoteQpAttrs : Nat → QpAttr

/-- Connection `i` is accepted and read from. -/
def Conns.accept (cs : Conns) (i : Nat) (hello : Hello) : Conns where
  clientReqAreaStag := Function.update cs.clientReqAreaStag i hello.clientRespAreaStag
  remoteQpAttrs := Function.update cs.remoteQpAttrs i hello.localQpAttr

/-- The accept loop of `server_exch_dest` from index `i` on. The clients still to
    come are given by their ids in the order they are accepted. -/
def acceptFrom (hello : Nat → Hello) : List Nat → Nat → Conns → Conns
  | [], _, cs => cs
  | c :: order, i, cs => acceptFrom hello order (i + 1) (cs.accept i (hello c))

/-- `server_exch_dest` -/
def serverExchDest (hello : Nat → Hello) (order : List Nat) (cs : Conns) : Conns :=
  acceptFrom hello order 0 cs

theorem acceptFrom_get (hello : Nat → Hello) (j : Nat) :
    ∀ (order : List Nat) (i : Nat) (cs : Conns),
      ((j < i ∨ i + order.length ≤ j) →
        (acceptFrom hello order i cs).clientReqAreaStag j = cs.clientReqAreaStag j ∧
        (acceptFrom hello order i cs).remoteQpAttrs j = cs.remoteQpAttrs j) ∧
      ∀ c, i ≤ j → order[j - i]? = some c →
        (acceptFrom hello order i cs).clientReqAreaStag j = (hello c).clientRespAreaStag ∧
        (acceptFrom hello order i cs).remoteQpAttrs j = (hello c).localQpAttr := by
  intro order
  induction order with
  | nil =>
      intro i cs
      refine ⟨fun _ => ⟨rfl, rfl⟩, fun c _ hc => ?_⟩
      rw [List.getElem?_nil] at hc
      exact absurd hc (by simp only [reduceCtorEq, not_false_eq_true])
  | cons d order ih =>
      intro i cs
      rw [acceptFrom]
      rcases ih (i + 1) (cs.accept i (hello d)) with ⟨hout, hin⟩
      refine ⟨fun hj => ?_, fun c hj hc => ?_⟩
      · rw [List.length_cons] at hj
        have hne : j ≠ i := by omega
        rw [(hout (by omega)).1, (hout (by omega)).2, Conns.accept]
        exact ⟨Function.update_of_ne hne _ _, Function.update_of_ne hne _ _⟩
      · by_cases hji : j = i
        · -- Its own entry, which the rest of the loop does not come back to.
          rw [hji, Nat.sub_self, List.getElem?_cons_zero, Option.some.injEq] at hc
          rw [(hout (by omega)).1, (hout (by omega)).2, hji, Conns.accept, hc]
          exact ⟨Function.update_self _ _ _, Function.update_self _ _ _⟩
        · rw [show j - i = j - (i + 1) + 1 by omega, List.getElem?_cons_succ] at hc
          exact hin c (by omega) hc

/-- After the loop index `i` belongs to the client accepted `i`th. -/
theorem serverExchDest_get (hello : Nat → Hello) (order : List Nat) (cs : Conns) (i c : Nat)
    (h : order[i]? = some c) :
    (serverExchDest hello order cs).clientReqAreaStag i = (hello c).clientRespAreaStag ∧
      (serverExchDest hello order cs).remoteQpAttrs i = (hello c).localQpAttr :=
  (acceptFrom_get hello i order 0 cs).2 c (Nat.zero_le i) (by rw [Nat.sub_zero]; exact h)

/-! ## The server at a record -/

section Service

variable {σ ρ : Type*}

/-- An RDMA write: the queue pair it goes over ends at `remoteQp`. -/
structure Write (ρ : Type*) where
  remoteQp : QpAttr
  remoteAddr : BitVec 64
  remoteKey : BitVec 32
  record : ρ

/-- `post_write` of the record at `local_addr` over queue pair `qpn`. -/
def postWrite (cs : Conns) (qpn : Nat) (record : ρ) (remoteAddr : BitVec 64)
    (remoteKey : BitVec 32) : Write ρ where
  remoteQp := cs.remoteQpAttrs qpn
  remoteAddr := remoteAddr
  remoteKey := remoteKey
  record := record

/-- What the two servers do not share: the record's key, whether there is an
    answer to the request, and what the request does to the table. -/
structure Service (σ ρ : Type*) where
  key : ρ → Int
  setKey : ρ → Int → ρ
  key_setKey : ∀ r k, key (setKey r k) = k
  answers : ρ → Bool
  apply : σ → ρ → Option σ

variable (sv : Service σ ρ)

/-- Put 1 into record `i`, post the record at the start of the request area to
    connection `i`, and put 0 into record `i`. -/
def Service.acknowledge (cs : Conns) (area : Nat → ρ) (i : Nat) : (Nat → ρ) × Write ρ :=
  let area1 := Function.update area i (sv.setKey (area i) 1)
  -- `local_addr` is the start of the area, whichever record is handled.
  (Function.update area1 i (sv.setKey (area1 i) 0),
    postWrite cs i (area1 0) (cs.clientReqAreaStag i).buf (cs.clientReqAreaStag i).rkey)

/-- `run_server` at record `i`. -/
def Service.serveSlot (cs : Conns) (s : σ) (area : Nat → ρ) (i : Nat) :
    Option (σ × (Nat → ρ) × Option (Write ρ)) :=
  if sv.key (area i) ≠ 0 ∧ sv.answers (area i) = true then
    match sv.apply s (area i) with
    | none => none
    | some s' => some (s', (sv.acknowledge cs area i).1, some (sv.acknowledge cs area i).2)
  else some (s, area, none)

/-- The request in record `i` is one that is handled: its key is not 0, it is of
    a kind that is answered, and the table takes it. -/
def Service.Handles (s s' : σ) (area : Nat → ρ) (i : Nat) : Prop :=
  sv.key (area i) ≠ 0 ∧ sv.answers (area i) = true ∧ sv.apply s (area i) = some s'

/-- A handled request is answered. -/
theorem serveSlot_answer (cs : Conns) (s s' : σ) (area : Nat → ρ) (i : Nat)
    (h : sv.Handles s s' area i) :
    sv.serveSlot cs s area i =
      some (s', (sv.acknowledge cs area i).1, some (sv.acknowledge cs area i).2) := by
  rcases h with ⟨hkey, hans, happ⟩
  rw [Service.serveSlot, if_pos ⟨hkey, hans⟩, happ]

/-- The write goes over the client's queue pair to its response area. -/
def Routed (hello : Nat → Hello) (w : Write ρ) (c : Nat) : Prop :=
  w.remoteQp = (hello c).localQpAttr ∧ w.remoteAddr = (hello c).clientRespAreaStag.buf ∧
    w.remoteKey = (hello c).clientRespAreaStag.rkey

/-- The record a client writes its requests to. -/
def clientSlot (id : Nat) : Nat :=
  id % numClientsPerServer

/-- The reply to the request in client `c`'s record goes to `c` exactly if `c` is
    the client accepted at that index. -/
theorem serveSlot_routed (hello : Nat → Hello)
    (hqp : ∀ c d, c < numClients → d < numClients →
      (hello c).localQpAttr = (hello d).localQpAttr → c = d)
    (start : Conns) (order : List Nat) (hperm : order.Perm (List.range numClients)) (c : Nat)
    (hc : c < numClients) (s s' : σ) (area : Nat → ρ) (h : sv.Handles s s' area (clientSlot c)) :
    ∃ out w, sv.serveSlot (serverExchDest hello order start) s area (clientSlot c) =
        some (s', out, some w) ∧
      (Routed hello w c ↔ order[clientSlot c]? = some c) := by
  refine ⟨_, _, serveSlot_answer sv _ s s' area _ h, ?_⟩
  -- Some client was accepted at the index.
  have hlen : order.length = numClients := by rw [hperm.length_eq, List.length_range]
  have hlt : clientSlot c < order.length := by
    rw [hlen]
    exact Nat.mod_lt c (by decide)
  have hd : order[clientSlot c]? = some order[clientSlot c] := List.getElem?_eq_getElem hlt
  have hdn : order[clientSlot c] < numClients :=
    List.mem_range.mp (hperm.mem_iff.mp (List.getElem_mem hlt))
  rcases serverExchDest_get hello order start (clientSlot c) _ hd with ⟨hstag, hattr⟩
  simp only [Service.acknowledge, postWrite, Routed, hstag, hattr, hd, Option.some.injEq]
  constructor
  · intro hr
    exact hqp _ _ hdn hc hr.1
  · intro heq
    rw [heq]
    exact ⟨rfl, rfl, rfl⟩

/-- The record sent back when record `i` is handled is the same for both areas,
    and its key is the acknowledgement. -/
def Service.RepliesAlike (cs : Conns) (s : σ) (area area' : Nat → ρ) (i : Nat) : Prop :=
  ∃ s' out out' w w', sv.serveSlot cs s area i = some (s', out, some w) ∧
    sv.serveSlot cs s area' i = some (s', out', some w') ∧
    w.record = w'.record ∧ sv.key w.record = 1

/-- What is sent is the record at the start of the area, with its key set if that
    is the record handled. -/
theorem acknowledge_record (cs : Conns) (area : Nat → ρ) (i : Nat) :
    (sv.acknowledge cs area i).2.record = if i = 0 then sv.setKey (area 0) 1 else area 0 := by
  by_cases hi : i = 0
  · rw [if_pos hi, hi]
    exact Function.update_self 0 _ area
  · rw [if_neg hi]
    exact Function.update_of_ne (Ne.symm hi) _ area

/-- Two areas that agree on record `i` get the same reply from it exactly if it
    is the first record, or if the first records agree and have key 1. -/
theorem repliesAlike_iff (cs : Conns) (s s' : σ) (area area' : Nat → ρ) (i : Nat)
    (hi : area i = area' i) (h : sv.Handles s s' area i) :
    sv.RepliesAlike cs s area area' i ↔
      i = 0 ∨ (area 0 = area' 0 ∧ sv.key (area 0) = 1) := by
  have h' : sv.Handles s s' area' i := by
    unfold Service.Handles at h ⊢
    rw [← hi]
    exact h
  -- Both requests are handled, so only the two records matter.
  have hrec : sv.RepliesAlike cs s area area' i ↔
      (sv.acknowledge cs area i).2.record = (sv.acknowledge cs area' i).2.record ∧
        sv.key (sv.acknowledge cs area i).2.record = 1 := by
    constructor
    · intro hr
      rcases hr with ⟨_, _, _, w, w', hw, hw', heq, hkey⟩
      rw [serveSlot_answer sv cs s s' area i h, Option.some.injEq, Prod.mk.injEq, Prod.mk.injEq,
        Option.some.injEq] at hw
      rw [serveSlot_answer sv cs s s' area' i h', Option.some.injEq, Prod.mk.injEq,
        Prod.mk.injEq, Option.some.injEq] at hw'
      rw [hw.2.2, hw'.2.2]
      exact ⟨heq, hkey⟩
    · intro hr
      exact ⟨s', _, _, _, _, serveSlot_answer sv cs s s' area i h,
        serveSlot_answer sv cs s s' area' i h', hr.1, hr.2⟩
  rw [hrec, acknowledge_record, acknowledge_record]
  by_cases h0 : i = 0
  · rw [if_pos h0, if_pos h0]
    refine iff_of_true ⟨?_, sv.key_setKey _ _⟩ (Or.inl h0)
    rw [← h0, hi]
  · rw [if_neg h0, if_neg h0]
    simp only [h0, false_or]

end Service

/-! ## The two servers -/

/-- FaRM's `struct request_s` -/
structure FarmRequest where
  key : Int
  val : Fin 32 → BitVec 8

/-- FaRM's `run_server` updates the key to itself. -/
def farmService : Service FaRM.HashTable FarmRequest where
  key := FarmRequest.key
  setKey r k := { r with key := k }
  key_setKey _ _ := rfl
  answers _ := true
  apply ht r := FaRM.farmApply ht (toInt32 r.key)

/-- HydraDB's `run_server` answers an update, request 1, and a search, request 2,
    and no other request. -/
def hydraService (item : Nat → HydraDB.Byte) : Service HydraDB.HashTable HydraDB.Request where
  key := HydraDB.Request.key
  setKey r k := { r with key := k }
  key_setKey _ _ := rfl
  answers r := decide (r.req = 1 ∨ r.req = 2)
  apply := HydraDB.applyRequest item

/-- Where a reply goes. Whatever the order in which the clients are accepted, the
    reply to a request in client `c`'s record goes to `c` exactly if `c` was
    accepted at that place. -/
theorem ack_routed_iff (hello : Nat → Hello)
    (hqp : ∀ c d, c < numClients → d < numClients →
      (hello c).localQpAttr = (hello d).localQpAttr → c = d)
    (start : Conns) (order : List Nat) (hperm : order.Perm (List.range numClients)) (c : Nat)
    (hc : c < numClients) :
    (∀ ht ht' area, farmService.Handles ht ht' area (clientSlot c) →
      ∃ out w, farmService.serveSlot (serverExchDest hello order start) ht area (clientSlot c) =
          some (ht', out, some w) ∧
        (Routed hello w c ↔ order[clientSlot c]? = some c)) ∧
    (∀ item h h' area, (hydraService item).Handles h h' area (clientSlot c) →
      ∃ out w, (hydraService item).serveSlot (serverExchDest hello order start) h area
          (clientSlot c) = some (h', out, some w) ∧
        (Routed hello w c ↔ order[clientSlot c]? = some c)) :=
  ⟨fun ht ht' area => serveSlot_routed farmService hello hqp start order hperm c hc ht ht' area,
    fun item h h' area =>
      serveSlot_routed (hydraService item) hello hqp start order hperm c hc h h' area⟩

/-- A queue pair of the one port. -/
def someQp (qpn : Nat) : QpAttr where
  gidGlobalInterfaceId := 0
  gidGlobalSubnetPrefix := 0
  lid := 1
  qpn := qpn
  psn := 0

/-- Clients on queue pairs of their own numbers, with response areas a page
    apart. -/
def someHello (c : Nat) : Hello where
  clientRespAreaStag := { buf := 4096 * BitVec.ofNat 64 (c + 1), rkey := 7, size := 0 }
  localQpAttr := someQp c

theorem someHello_injective (c d : Nat)
    (h : (someHello c).localQpAttr = (someHello d).localQpAttr) : c = d :=
  Int.ofNat_inj.mp (congrArg QpAttr.qpn h)

/-- The arrays before any connection. -/
def noConns : Conns where
  clientReqAreaStag := fun _ => { buf := 0, rkey := 0, size := 0 }
  remoteQpAttrs := fun _ => someQp 0

/-- Every record asks for key 7. -/
def sevenArea : Nat → FarmRequest :=
  fun _ => { key := 7, val := fun _ => 0 }

theorem handles_sevenArea (i : Nat) :
    farmService.Handles FaRM.emptyTable FaRM.emptyTable sevenArea i :=
  ⟨(by decide : (7 : Int) ≠ 0), rfl, rfl⟩

/-- The clients accepted in the order of their numbers. -/
theorem ack_routed_iff_inOrder : ∃ out w,
    farmService.serveSlot (serverExchDest someHello (List.range numClients) noConns)
        FaRM.emptyTable sevenArea (clientSlot 5) = some (FaRM.emptyTable, out, some w) ∧
      Routed someHello w 5 := by
  rcases (ack_routed_iff someHello (fun c d _ _ => someHello_injective c d) noConns
    (List.range numClients) (List.Perm.refl _) 5 (by decide)).1 _ _ sevenArea
    (handles_sevenArea _) with ⟨out, w, hrun, hiff⟩
  exact ⟨out, w, hrun, hiff.mpr (by decide)⟩

/-- Clients 0 and 1 are accepted the other way round. The reply to client 0's
    request goes to client 1. -/
theorem ack_misrouted : ¬ ∀ hello : Nat → Hello,
    (∀ c d, c < numClients → d < numClients →
      (hello c).localQpAttr = (hello d).localQpAttr → c = d) →
    ∀ start order, order.Perm (List.range numClients) → ∀ c, c < numClients →
      ∀ ht ht' area, farmService.Handles ht ht' area (clientSlot c) →
        ∃ out w, farmService.serveSlot (serverExchDest hello order start) ht area
          (clientSlot c) = some (ht', out, some w) ∧ Routed hello w c := by
  intro h
  rcases h someHello (fun c d _ _ => someHello_injective c d) noConns
    (1 :: 0 :: (List.range numClients).drop 2) (by decide) 0 (by decide) _ _ sevenArea
    (handles_sevenArea _) with ⟨out, w, hrun, hr⟩
  rw [serveSlot_answer _ _ _ _ _ _ (handles_sevenArea _), Option.some.injEq, Prod.mk.injEq,
    Prod.mk.injEq, Option.some.injEq] at hrun
  rw [← hrun.2.2] at hr
  exact absurd hr.1 (by decide)

/-- What is in a reply. Of two request areas that agree on record `i`, the
    replies to its request are the same, with key 1, exactly if `i` is the first
    record, or the first records of both are the same and have key 1. -/
theorem replies_alike_iff (cs : Conns) (i : Nat) :
    (∀ ht ht' area area', area i = area' i → farmService.Handles ht ht' area i →
      (farmService.RepliesAlike cs ht area area' i ↔
        i = 0 ∨ (area 0 = area' 0 ∧ (area 0).key = 1))) ∧
    (∀ item h h' area area', area i = area' i → (hydraService item).Handles h h' area i →
      ((hydraService item).RepliesAlike cs h area area' i ↔
        i = 0 ∨ (area 0 = area' 0 ∧ (area 0).key = 1))) :=
  ⟨fun ht ht' area area' hi h => repliesAlike_iff farmService cs ht ht' area area' i hi h,
    fun item h h' area area' hi hh => repliesAlike_iff (hydraService item) cs h h' area area' i
      hi hh⟩

/-- Keys of a request area: 1 in the first record, 7 in the second, and another in
    the rest. -/
def ackKey (k : Int) (i : Nat) : Int :=
  if i = 0 then 1 else if i = 1 then 7 else k

def farmAckArea (k : Int) : Nat → FarmRequest :=
  fun i => { key := ackKey k i, val := fun _ => 0 }

/-- GETs of the keys. -/
def hydraAckArea (k : Int) : Nat → HydraDB.Request :=
  fun i => { req := 2, key := ackKey k i, val := fun _ => 0 }

/-- The second client's reply where the first client's request is for key 1. HydraDB's
    table is the one the server loads. -/
theorem replies_alike_iff_keyOne :
    farmService.RepliesAlike noConns FaRM.emptyTable (farmAckArea 8) (farmAckArea 9) 1 ∧
    ∃ h, HydraDB.hashTableInitialize id 2147483647 (fun _ => 0)
        (HydraDB.hashtableCreate HydraDB.roomyMemory HydraDB.maxPool) HydraDB.loadSize = some h ∧
      (hydraService fun _ => 65).RepliesAlike noConns h (hydraAckArea 8) (hydraAckArea 9) 1 := by
  rcases replies_alike_iff noConns 1 with ⟨hfarm, hhydra⟩
  rcases HydraDB.initialize_serving id 2147483647 (fun _ => 0) HydraDB.roomyMemory rfl (by decide)
    with ⟨h, hload, hs, _⟩
  rcases HydraDB.search_loaded h h HydraDB.loadSize hs 7 (by decide) with ⟨_, _, hsearch⟩
  -- Key 7 is one of those loaded, so the table takes the GET.
  have happly : HydraDB.applyRequest (fun _ => 65) h (hydraAckArea 8 1) = some h := by
    rw [HydraDB.applyRequest, if_neg (by decide), if_pos (by decide : (hydraAckArea 8 1).req = 2),
      show toInt32 (hydraAckArea 8 1).key = 7 by decide, hsearch]
    rfl
  refine ⟨(hfarm FaRM.emptyTable FaRM.emptyTable (farmAckArea 8) (farmAckArea 9) rfl
    ⟨by decide, rfl, rfl⟩).mpr (Or.inr ⟨rfl, rfl⟩), h, hload, ?_⟩
  exact (hhydra _ h h (hydraAckArea 8) (hydraAckArea 9) rfl
    ⟨by decide, by decide, happly⟩).mpr (Or.inr ⟨rfl, rfl⟩)

/-- The second client's reply changes with the first client's key, and is not an
    acknowledgement. -/
theorem reply_depends_on_other : ¬ ∀ cs i ht ht' area area', i < numClientsPerServer →
    area i = area' i → farmService.Handles ht ht' area i →
      farmService.RepliesAlike cs ht area area' i := by
  intro h
  have hr := h noConns 1 _ _ sevenArea
    (Function.update sevenArea 0 { key := 9, val := fun _ => 0 }) (by decide)
    (Function.update_of_ne (by decide) _ _).symm (handles_sevenArea 1)
  rw [repliesAlike_iff farmService _ _ _ _ _ _ (Function.update_of_ne (by decide) _ _).symm
    (handles_sevenArea 1)] at hr
  rcases hr with h0 | ⟨_, hkey⟩
  · exact absurd h0 (by decide)
  · exact absurd hkey (by decide)

end Server

end LocalKeyValue
