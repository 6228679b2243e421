import LocalKeyValue.Pilaf.Serve

/-!
# The Pilaf Message Path

How a PUT gets from a client's SEND to the server's call of `place`. The server
posts RECVs to each client's queue pair; a message that arrives consumes one,
which names the record of the request area it is written to, and adds a
completion to the client's queue. The server goes round the clients, takes what
completions there are, and for each of them places the key it then reads from
the first record of the area.

`post_recvs` is called for every client with the address of that first record,
although the area has a record for each. So a message overwrites the last one
whether it has been read or not, and the server then places one key twice and
the other never.

It goes well as long as no message arrives while one with another key waits.
Along such runs the keys placed are the keys of the completions taken, in order,
up to those of the batch in hand.

## Main definitions

* `State`: The area, the queues of each client and where the server is.
* `deliver`, `poll`, `placeNext`, `step`: What can happen.
* `Applied`: The server has placed each key it has taken a completion for.
* `areaFree`: A message arrives while none with another key waits.

## Theorems

* `recv_loses_update`: Two clients are enough to lose an update.
* `recv_run_applied`: None is lost in runs that keep the area free.
-/

namespace LocalKeyValue

namespace Pilaf

open CInt Run

/-- `Q_DEPTH` -/
abbrev qDepth : Nat := 2048

/-- `S_DEPTH` -/
abbrev sDepth : Nat := 1024

/-- A key a client may send: an `int` of its key file. -/
abbrev SendKey := { key : Int // InInt32 key }

/-- Where the server is in its loop: polling, or handling a batch of client
    `cn`'s completions. `keys` are those of the messages they are for, of which
    the server only knows how many there are. -/
inductive Pc
  | poll
  | batch (cn : Nat) (keys : List Int)
deriving DecidableEq

/-- `sends c` are the messages client `c` has yet to get through, `recvs c` the
    records named by the RECVs posted to it, `completions c` its completion
    queue, with the keys of the messages. `placed` are the keys of the calls of
    `place`, `polled` those of the completions taken. -/
structure State where
  sends : Nat → List SendKey
  recvs : Nat → List Nat
  completions : Nat → List Int
  serverRequestArea : Nat → Int
  totRecvs : Nat → Int
  iter : Nat
  pc : Pc
  table : Table
  placed : List Int
  polled : List Int

/-- `post_recvs`: `num` RECVs to client `c` that name the record `addr`. -/
def postRecvs (s : State) (num : Int) (c addr : Nat) : State :=
  { s with recvs := Function.update s.recvs c (s.recvs c ++ List.replicate num.toNat addr) }

/-- The next message of client `c` arrives. -/
def deliver (s : State) (c : Nat) : Option State :=
  match s.sends c, s.recvs c with
  | k :: ks, addr :: addrs => some { s with
      sends := Function.update s.sends c ks
      recvs := Function.update s.recvs c addrs
      serverRequestArea := Function.update s.serverRequestArea addr k.val
      completions := Function.update s.completions c (s.completions c ++ [k.val]) }
  | _, _ => none

/-- The server takes `numPolls` completions of the next of its `n` clients, which
    start at `cnLo`, and posts RECVs in batches to replace those consumed. -/
def poll (n cnLo : Nat) (s : State) (numPolls : Nat) : Option State :=
  let iter := s.iter + 1
  let cn := cnLo + iter % n
  if numPolls ≤ (s.completions cn).length ∧ numPolls ≤ qDepth then
    if numPolls = 0 then some { s with iter := iter }
    else
      let tot := s.totRecvs cn - numPolls
      let keys := (s.completions cn).take numPolls
      let s' := { s with
        iter := iter
        pc := .batch cn keys
        completions := Function.update s.completions cn ((s.completions cn).drop numPolls)
        polled := s.polled ++ keys }
      if tot < sDepth then
        some { postRecvs s' (qDepth - tot) cn 0 with
          totRecvs := Function.update s.totRecvs cn qDepth }
      else some { s' with totRecvs := Function.update s.totRecvs cn tot }
  else none

/-- The server handles one completion: read the key, place it, reply. -/
def placeNext (s : State) (cn : Nat) (keys : List Int) : Option State :=
  match keys with
  | [] => some { s with pc := .poll }
  | _ :: rest =>
    let key := toInt32 (s.serverRequestArea 0)
    match place s.table key 1 0 3 with
    | none => none
    | some t => some { s with pc := .batch cn rest, table := t, placed := s.placed ++ [key] }

/-- A message of client `c` arrives, or the server moves; if it polls, it takes
    `numPolls` completions. -/
inductive Action
  | deliver (c : Nat)
  | server (numPolls : Nat)
deriving DecidableEq

def step (n cnLo : Nat) (s : State) : Action → Option State
  | .deliver c => if cnLo ≤ c ∧ c < cnLo + n then deliver s c else none
  | .server numPolls => match s.pc with
    | .poll => poll n cnLo s numPolls
    | .batch cn keys => placeNext s cn keys

/-- Before the first message: the area is zero and each client of the server has
    its RECVs. -/
def State.init (n cnLo : Nat) (sends : Nat → List SendKey) : State where
  sends := sends
  recvs := fun c => if cnLo ≤ c ∧ c < cnLo + n then List.replicate qDepth 0 else []
  completions := fun _ => []
  serverRequestArea := fun _ => 0
  totRecvs := fun c => if cnLo ≤ c ∧ c < cnLo + n then qDepth else 0
  iter := 0
  pc := .poll
  table := setupBuffers
  placed := []
  polled := []

/-- The keys of the completions taken and not handled. -/
def inBatch (s : State) : List Int :=
  match s.pc with
  | .poll => []
  | .batch _ keys => keys

/-- Each completion taken has been placed, or is still to be, with the key of
    its own message. -/
def Applied (s : State) : Prop :=
  (s.placed ++ inBatch s).Perm s.polled

instance (s : State) : Decidable (Applied s) :=
  inferInstanceAs (Decidable (List.Perm _ _))

/-- The message that arrives lands where no message of the server's clients with
    another key waits to be read. -/
def areaFree (n cnLo : Nat) (s : State) : Action → Prop
  | .deliver c => ∀ k ∈ (s.sends c).head?,
      (∀ c', c' < cnLo + n → ∀ k' ∈ s.completions c', k' = k.val) ∧ ∀ k' ∈ inBatch s, k' = k.val
  | .server _ => True

instance (n cnLo : Nat) (s : State) (a : Action) : Decidable (areaFree n cnLo s a) :=
  match a with
  | .deliver c => inferInstanceAs (Decidable (∀ k ∈ (s.sends c).head?,
      (∀ c', c' < cnLo + n → ∀ k' ∈ s.completions c', k' = k.val) ∧
        ∀ k' ∈ inBatch s, k' = k.val))
  | .server _ => isTrue trivial

/-! ## Runs that keep the area free -/

/-- Every RECV names the first record, which holds the key of every message that
    waits; and the keys placed are those taken, in order. -/
structure AreaOk (n cnLo : Nat) (s : State) : Prop where
  recvs : ∀ c, ∀ addr ∈ s.recvs c, addr = 0
  ours : ∀ c, s.completions c ≠ [] → c < cnLo + n
  waiting : ∀ c, ∀ k ∈ s.completions c, s.serverRequestArea 0 = k ∧ InInt32 k
  batch : ∀ k ∈ inBatch s, s.serverRequestArea 0 = k ∧ InInt32 k
  order : s.placed ++ inBatch s = s.polled
  table : run (fun t k => place t k 1 0 3) s.placed setupBuffers = some s.table

theorem areaOk_init (n cnLo : Nat) (sends : Nat → List SendKey) :
    AreaOk n cnLo (State.init n cnLo sends) where
  recvs := fun c addr h => by
    simp only [State.init] at h
    split at h
    · exact (List.mem_replicate.mp h).2
    · exact absurd h List.not_mem_nil
  ours := fun c h => absurd rfl h
  waiting := fun _ k h => absurd h List.not_mem_nil
  batch := fun k h => absurd h List.not_mem_nil
  order := rfl
  table := rfl

theorem areaOk_deliver (n cnLo : Nat) (s t : State) (c : Nat) (h : AreaOk n cnLo s)
    (hc : c < cnLo + n) (hok : areaFree n cnLo s (.deliver c)) (hstep : deliver s c = some t) :
    AreaOk n cnLo t := by
  unfold deliver at hstep
  cases hs : s.sends c with
  | nil =>
      rw [hs] at hstep
      exact absurd hstep (by simp only [reduceCtorEq, not_false_eq_true])
  | cons k ks =>
      cases hr : s.recvs c with
      | nil =>
          rw [hs, hr] at hstep
          exact absurd hstep (by simp only [reduceCtorEq, not_false_eq_true])
      | cons addr addrs =>
          rw [hs, hr, Option.some.injEq] at hstep
          -- Whatever client it is from, the message lands in the first record.
          have haddr : addr = 0 := h.recvs c addr (by rw [hr]; exact List.mem_cons_self ..)
          rcases hok k (by rw [hs]; exact rfl) with ⟨hwait, hbatch⟩
          have harea : t.serverRequestArea 0 = k.val := by
            rw [← hstep, haddr]
            exact Function.update_self 0 k.val s.serverRequestArea
          have hin : inBatch t = inBatch s := by rw [← hstep]; rfl
          have hcomp : t.completions =
              Function.update s.completions c (s.completions c ++ [k.val]) := by rw [← hstep]
          exact {
            recvs := fun c' a ha => by
              rw [← hstep] at ha
              by_cases hcc : c' = c
              · simp only [hcc, Function.update_self] at ha
                exact h.recvs c a (by rw [hr]; exact List.mem_cons_of_mem addr ha)
              · simp only [Function.update_of_ne hcc] at ha
                exact h.recvs c' a ha
            ours := fun c' hne => by
              by_cases hcc : c' = c
              · rw [hcc]
                exact hc
              · rw [hcomp, Function.update_of_ne hcc] at hne
                exact h.ours c' hne
            waiting := fun c' k' hk' => by
              rw [harea]
              by_cases hcc : c' = c
              · rw [hcomp, hcc, Function.update_self, List.mem_append, List.mem_singleton] at hk'
                rcases hk' with hk' | hk'
                · exact ⟨(hwait c hc k' hk').symm, (h.waiting c k' hk').2⟩
                · exact ⟨hk'.symm, by rw [hk']; exact k.property⟩
              · rw [hcomp, Function.update_of_ne hcc] at hk'
                have hlt := h.ours c' (List.ne_nil_of_mem hk')
                exact ⟨(hwait c' hlt k' hk').symm, (h.waiting c' k' hk').2⟩
            batch := fun k' hk' => by
              rw [hin] at hk'
              rw [harea]
              exact ⟨(hbatch k' hk').symm, (h.batch k' hk').2⟩
            order := by
              rw [hin, ← hstep]
              exact h.order
            table := by
              rw [← hstep]
              exact h.table }

/-- Posting RECVs for the first record. -/
theorem recvs_postRecvs (s : State) (num : Int) (c : Nat)
    (h : ∀ c', ∀ addr ∈ s.recvs c', addr = 0) :
    ∀ c', ∀ addr ∈ (postRecvs s num c 0).recvs c', addr = 0 := by
  intro c' addr ha
  by_cases hc : c' = c
  · simp only [postRecvs, hc, Function.update_self, List.mem_append] at ha
    rcases ha with ha | ha
    · exact h c addr ha
    · exact (List.mem_replicate.mp ha).2
  · simp only [postRecvs, Function.update_of_ne hc] at ha
    exact h c' addr ha

/-- Taking completions moves them from the queue to the batch. -/
theorem areaOk_take (n cnLo : Nat) (s t : State) (cn m : Nat) (h : AreaOk n cnLo s)
    (hpc : s.pc = .poll) (hrecvs : ∀ c, ∀ addr ∈ t.recvs c, addr = 0)
    (hcomp : t.completions = Function.update s.completions cn ((s.completions cn).drop m))
    (harea : t.serverRequestArea = s.serverRequestArea)
    (htpc : t.pc = .batch cn ((s.completions cn).take m)) (hplaced : t.placed = s.placed)
    (hpolled : t.polled = s.polled ++ (s.completions cn).take m) (htable : t.table = s.table) :
    AreaOk n cnLo t := by
  -- The batch was empty and becomes what is taken off the queue.
  have hin : inBatch t = (s.completions cn).take m := by rw [inBatch, htpc]
  have hin' : inBatch s = [] := by rw [inBatch, hpc]
  have hsub : ∀ c, ∀ k ∈ t.completions c, k ∈ s.completions c := by
    intro c k hk
    by_cases hc : c = cn
    · rw [hcomp, hc, Function.update_self] at hk
      rw [hc]
      exact List.mem_of_mem_drop hk
    · rw [hcomp, Function.update_of_ne hc] at hk
      exact hk
  exact {
    recvs := hrecvs
    ours := fun c hne => by
      rcases List.exists_mem_of_ne_nil _ hne with ⟨k, hk⟩
      exact h.ours c (List.ne_nil_of_mem (hsub c k hk))
    waiting := fun c k hk => by
      rw [harea]
      exact h.waiting c k (hsub c k hk)
    batch := fun k hk => by
      rw [hin] at hk
      rw [harea]
      exact h.waiting cn k (List.mem_of_mem_take hk)
    order := by
      have horder := h.order
      rw [hin', List.append_nil] at horder
      rw [hin, hplaced, hpolled, horder]
    table := by rw [hplaced, htable]; exact h.table }

theorem areaOk_poll (n cnLo : Nat) (s t : State) (m : Nat) (h : AreaOk n cnLo s)
    (hpc : s.pc = .poll) (hstep : poll n cnLo s m = some t) : AreaOk n cnLo t := by
  simp only [poll] at hstep
  -- No completion taken; some taken and RECVs posted; some taken and none posted.
  split at hstep
  · split at hstep
    · rw [Option.some.injEq] at hstep
      rw [← hstep]
      exact ⟨h.recvs, h.ours, h.waiting, h.batch, h.order, h.table⟩
    · split at hstep
      · rw [Option.some.injEq] at hstep
        refine areaOk_take n cnLo s t (cnLo + (s.iter + 1) % n) m h hpc ?_ ?_ ?_ ?_ ?_ ?_ ?_ <;>
          rw [← hstep]
        · exact recvs_postRecvs _ _ _ h.recvs
        all_goals rfl
      · rw [Option.some.injEq] at hstep
        refine areaOk_take n cnLo s t (cnLo + (s.iter + 1) % n) m h hpc ?_ ?_ ?_ ?_ ?_ ?_ ?_ <;>
          rw [← hstep]
        exact h.recvs
  · exact absurd hstep (by simp only [reduceCtorEq, not_false_eq_true])

/-- Handling a completion places the key of its own message. -/
theorem areaOk_placeNext (n cnLo : Nat) (s t : State) (cn : Nat) (keys : List Int)
    (h : AreaOk n cnLo s) (hpc : s.pc = .batch cn keys)
    (hstep : placeNext s cn keys = some t) : AreaOk n cnLo t := by
  have hin : inBatch s = keys := by rw [inBatch, hpc]
  cases keys with
  | nil =>
      rw [placeNext, Option.some.injEq] at hstep
      have hin' : inBatch t = [] := by rw [← hstep]; rfl
      rw [← hstep]
      rw [← hstep] at hin'
      exact ⟨h.recvs, h.ours, h.waiting,
        fun k hk => absurd hk (by rw [hin']; exact List.not_mem_nil),
        by rw [hin', ← hin]; exact h.order, h.table⟩
  | cons k rest =>
      simp only [placeNext] at hstep
      -- What is read from the area is the key of the message handled.
      rcases h.batch k (by rw [hin]; exact List.mem_cons_self ..) with ⟨hk, hfits⟩
      rw [hk, toInt32_of_inInt32 k hfits] at hstep
      cases hp : place s.table k 1 0 3 with
      | none =>
          rw [hp] at hstep
          exact absurd hstep (by simp only [reduceCtorEq, not_false_eq_true])
      | some table =>
          rw [hp, Option.some.injEq] at hstep
          rw [← hstep]
          exact {
            recvs := h.recvs
            ours := h.ours
            waiting := h.waiting
            batch := fun k' hk' => h.batch k' (by rw [hin]; exact List.mem_cons_of_mem k hk')
            order := by
              have horder := h.order
              rw [hin] at horder
              rw [← horder]
              exact List.append_assoc _ _ _
            table := by
              rw [run_append _ _ _ _ _ h.table, run_cons _ k [] _ table hp]
              rfl }

theorem areaOk_step (n cnLo : Nat) (s : State) (a : Action) (t : State) (h : AreaOk n cnLo s)
    (hok : areaFree n cnLo s a) (hstep : step n cnLo s a = some t) : AreaOk n cnLo t := by
  cases a with
  | deliver c =>
      rw [step] at hstep
      by_cases hc : cnLo ≤ c ∧ c < cnLo + n
      · rw [if_pos hc] at hstep
        exact areaOk_deliver n cnLo s t c h hc.2 hok hstep
      · rw [if_neg hc] at hstep
        exact absurd hstep (by simp only [reduceCtorEq, not_false_eq_true])
  | server m =>
      rw [step] at hstep
      cases hpc : s.pc with
      | poll =>
          rw [hpc] at hstep
          exact areaOk_poll n cnLo s t m h hpc hstep
      | batch cn keys =>
          rw [hpc] at hstep
          exact areaOk_placeNext n cnLo s t cn keys h hpc hstep

/-! ## The server's clients -/

/-- Client 0 sends 1 and client 1 sends 2. -/
def twoSends : Nat → List SendKey
  | 0 => [⟨1, by decide⟩]
  | 1 => [⟨2, by decide⟩]
  | _ => []

/-- Both messages arrive before the server polls. It places the second twice. -/
theorem recv_loses_update : ∃ s, run (step 2 0)
    [.deliver 0, .deliver 1, .server 1, .server 0, .server 0, .server 1, .server 0, .server 0]
      (State.init 2 0 twoSends) = some s ∧ s.pc = .poll ∧ s.placed = [2, 2] ∧
      s.polled = [2, 1] ∧ ¬ Applied s := by
  have hres : (run (step 2 0)
      [.deliver 0, .deliver 1, .server 1, .server 0, .server 0, .server 1, .server 0, .server 0]
        (State.init 2 0 twoSends)).map
          (fun s => (s.pc, s.placed, s.polled, decide (Applied s))) =
            some (.poll, [2, 2], [2, 1], false) := by
    decide +kernel
  rcases Option.map_eq_some_iff.mp hres with ⟨s, hrun, hs⟩
  simp only [Prod.mk.injEq, decide_eq_false_iff_not] at hs
  exact ⟨s, hrun, hs⟩

/-- In a run whose messages arrive while none with another key waits, whatever
    the number of clients and the order of things, the server has placed the
    keys whose completions it has taken. -/
theorem recv_run_applied (n cnLo : Nat) (sends : Nat → List SendKey) (as : List Action)
    (t : State) (hok : Along (step n cnLo) (areaFree n cnLo) as (State.init n cnLo sends))
    (hrun : run (step n cnLo) as (State.init n cnLo sends) = some t) :
    Applied t ∧ (t.pc = .poll → t.placed.Perm t.polled) := by
  have h := run_invariant_along (step n cnLo) (areaFree n cnLo) (AreaOk n cnLo)
    (areaOk_step n cnLo) as _ t (areaOk_init n cnLo sends) hok hrun
  have happ : Applied t := List.Perm.of_eq h.order
  refine ⟨happ, fun hpc => ?_⟩
  have hin : inBatch t = [] := by rw [inBatch, hpc]
  rw [Applied, hin, List.append_nil] at happ
  exact happ

/-- The two messages, each handled before the next arrives. -/
theorem recv_run_applied_twoSends : ∃ t, run (step 2 0)
    [.deliver 0, .server 0, .server 1, .server 0, .server 0, .deliver 1, .server 1, .server 0,
      .server 0] (State.init 2 0 twoSends) = some t ∧
      (Applied t ∧ (t.pc = .poll → t.placed.Perm t.polled)) ∧ t.placed = [1, 2] := by
  have hres : (run (step 2 0)
      [.deliver 0, .server 0, .server 1, .server 0, .server 0, .deliver 1, .server 1, .server 0,
        .server 0] (State.init 2 0 twoSends)).map (fun s => s.placed) = some [1, 2] := by
    decide +kernel
  rcases Option.map_eq_some_iff.mp hres with ⟨t, hrun, ht⟩
  exact ⟨t, hrun, recv_run_applied 2 0 twoSends _ t (by decide +kernel) hrun, ht⟩

end Pilaf

end LocalKeyValue
