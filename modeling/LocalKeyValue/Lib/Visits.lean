import LocalKeyValue.Lib.Run
import LocalKeyValue.Lib.Session

/-!
# Clients that Visit Servers

Every one of `n` clients goes round the same `m` servers in the same order, and
has a session with each. A server has its sessions one after the other, in the
order the clients have joined its backlog. All parties move on their own, so a
run is any interleaving of their moves.

No run gets stuck before every session is over, since a client that waits does
so for a server that is busy with another client, who does not wait for anyone
but that server. Every move is counted, so all runs that cannot go on have the
same length, and after them every two parties hold what their session ends with.

## Main definitions

* `Roles`: The two scripts and what the parties start with.
* `Net`, `step`: The state of all parties and their moves.
* `Over`: Every client has been everywhere, and no server is busy.
* `work`: The moves that are left.
* `Sound`: The invariant.

## Theorems

* `step_cases`: What a move can be.
* `step_sound`, `run_sound`: The invariant is kept.
* `exists_step_of_not_over`: Before it is over, somebody can move.
* `moved_work`, `run_length`: A move is one move less.
* `run_completes`: Every run that cannot go on has come to the end.
* `step_eq_none_of_over`: Once it is over, nobody can.
* `perm_of_over`, `goal_of_over`: What is true in the end.
-/

namespace LocalKeyValue

namespace Visits

open Session

/-- The scripts, which fit each other, and the data of client `c` for server `s`
    and of server `s` for its `k`th client. -/
structure Roles (σ τ M : Type*) where
  clientTodo : List (Op σ M)
  serverTodo : List (Op τ M)
  clientData : Nat → Nat → σ
  serverData : Nat → Nat → τ
  dual : Dual clientTodo serverTodo

variable {σ τ M : Type*}

/-- What the session of client `c`, the `k`th of server `s`, ends with. -/
def Roles.goal (R : Roles σ τ M) (c s k : Nat) : σ × τ :=
  finish R.clientTodo R.serverTodo (R.clientData c s) (R.serverData s k)

def Roles.server (R : Roles σ τ M) (s k : Nat) : Party τ M := ⟨R.serverTodo, R.serverData s k⟩

/-- The server each client is at and whether it has joined its backlog there; the
    clients that wait for each server, those it has accepted, and whether it is
    busy with the last of them; and the connections. -/
structure Net (σ τ M : Type*) where
  place : Nat → Nat
  joined : Nat → Bool
  backlog : Nat → List Nat
  accepted : Nat → List Nat
  serving : Nat → Bool
  conn : Nat → Nat → Conn σ τ M

def Net.setConn (net : Net σ τ M) (c s : Nat) (x : Conn σ τ M) : Net σ τ M :=
  { net with conn := Function.update net.conn c (Function.update (net.conn c) s x) }

/-- The server's side of a connection is there from its acceptance on only. -/
def start (R : Roles σ τ M) : Net σ τ M where
  place _ := 0
  joined _ := false
  backlog _ := []
  accepted _ := []
  serving _ := false
  conn c s := ⟨⟨R.clientTodo, R.clientData c s⟩, R.server s 0, [], []⟩

/-- A client joins, does the next operation, or leaves for the next server. -/
def clientStep (net : Net σ τ M) (c : Nat) : Option (Net σ τ M) :=
  let s := net.place c
  if net.joined c = false then
    some { net with
      joined := Function.update net.joined c true
      backlog := Function.update net.backlog s (net.backlog s ++ [c]) }
  else if (net.conn c s).left.todo.isEmpty then
    some { net with
      place := Function.update net.place c (s + 1)
      joined := Function.update net.joined c false }
  else
    (net.conn c s).stepLeft.map (net.setConn c s)

/-- A server accepts, does the next operation, or is done with a client. -/
def serverStep (R : Roles σ τ M) (n : Nat) (net : Net σ τ M) (s : Nat) : Option (Net σ τ M) :=
  if net.serving s then
    match (net.accepted s).getLast? with
    | none => none
    | some c =>
      if (net.conn c s).right.todo.isEmpty then
        some { net with serving := Function.update net.serving s false }
      else
        (net.conn c s).stepRight.map (net.setConn c s)
  else
    match net.backlog s with
    | [] => none
    | c :: rest =>
      if (net.accepted s).length < n then
        some ({ net with
          backlog := Function.update net.backlog s rest
          accepted := Function.update net.accepted s (net.accepted s ++ [c])
          serving := Function.update net.serving s true }.setConn c s
            ((net.conn c s).withRight (R.server s (net.accepted s).length)))
      else
        none

/-- Who moves. -/
inductive Mover where
  | client (c : Nat)
  | server (s : Nat)

/-- The next move of one of the `n` clients or of one of the `m` servers. -/
def step (R : Roles σ τ M) (n m : Nat) (net : Net σ τ M) : Mover → Option (Net σ τ M)
  | .client c => if c < n ∧ net.place c < m then clientStep net c else none
  | .server s => if s < m then serverStep R n net s else none

theorem setConn_self (net : Net σ τ M) (c s : Nat) (x : Conn σ τ M) :
    (net.setConn c s x).conn c s = x := by
  simp only [Net.setConn, Function.update_self]

theorem setConn_of_ne (net : Net σ τ M) (c s : Nat) (x : Conn σ τ M) {c' s' : Nat}
    (h : c' ≠ c ∨ s' ≠ s) : (net.setConn c s x).conn c' s' = net.conn c' s' := by
  simp only [Net.setConn]
  by_cases hc : c' = c
  · rw [hc] at h ⊢
    rw [Function.update_self, Function.update_of_ne (h.resolve_left (absurd rfl))]
  · rw [Function.update_of_ne hc]

/-- What both the old connection and the new one have, every connection has. -/
theorem setConn_forall {net : Net σ τ M} {c s : Nat} {x : Conn σ τ M}
    {P : Nat → Nat → Conn σ τ M → Prop} {c' s' : Nat} (hx : c' = c → s' = s → P c s x)
    (hold : P c' s' (net.conn c' s')) : P c' s' ((net.setConn c s x).conn c' s') := by
  by_cases h : c' = c ∧ s' = s
  · rw [h.1, h.2, setConn_self]
    exact hx h.1 h.2
  · rw [setConn_of_ne net c s x (by omega)]
    exact hold

/-- The moves there are. -/
inductive Moved (R : Roles σ τ M) (n m : Nat) (net : Net σ τ M) : Net σ τ M → Prop where
  | join (c : Nat) (hc : c < n) (hs : net.place c < m) (hjoined : net.joined c = false) :
      Moved R n m net { net with
        joined := Function.update net.joined c true
        backlog := Function.update net.backlog (net.place c) (net.backlog (net.place c) ++ [c]) }
  | leave (c : Nat) (hc : c < n) (hs : net.place c < m) (hjoined : net.joined c = true)
      (htodo : (net.conn c (net.place c)).left.todo = []) :
      Moved R n m net { net with
        place := Function.update net.place c (net.place c + 1)
        joined := Function.update net.joined c false }
  | left (c : Nat) (x : Conn σ τ M) (hc : c < n) (hs : net.place c < m)
      (hjoined : net.joined c = true) (hx : (net.conn c (net.place c)).stepLeft = some x) :
      Moved R n m net (net.setConn c (net.place c) x)
  | accept (c s : Nat) (rest : List Nat) (hs : s < m) (hserving : net.serving s = false)
      (hbacklog : net.backlog s = c :: rest) (hn : (net.accepted s).length < n) :
      Moved R n m net ({ net with
        backlog := Function.update net.backlog s rest
        accepted := Function.update net.accepted s (net.accepted s ++ [c])
        serving := Function.update net.serving s true }.setConn c s
          ((net.conn c s).withRight (R.server s (net.accepted s).length)))
  | close (c s : Nat) (hs : s < m) (hserving : net.serving s = true)
      (hlast : (net.accepted s).getLast? = some c) (htodo : (net.conn c s).right.todo = []) :
      Moved R n m net { net with serving := Function.update net.serving s false }
  | right (c s : Nat) (x : Conn σ τ M) (hs : s < m) (hserving : net.serving s = true)
      (hlast : (net.accepted s).getLast? = some c) (hx : (net.conn c s).stepRight = some x) :
      Moved R n m net (net.setConn c s x)

theorem step_cases {R : Roles σ τ M} {n m : Nat} {net net' : Net σ τ M} {e : Mover}
    (h : step R n m net e = some net') : Moved R n m net net' := by
  cases e with
  | client c =>
      rw [step] at h
      split at h
      · rename_i hc
        simp only [clientStep] at h
        split at h
        · rename_i hjoined
          rw [← Option.some.inj h]
          exact Moved.join c hc.1 hc.2 hjoined
        · rename_i hjoined
          rw [Bool.not_eq_false] at hjoined
          split at h
          · rename_i htodo
            rw [← Option.some.inj h]
            exact Moved.leave c hc.1 hc.2 hjoined (List.isEmpty_iff.mp htodo)
          · rw [Option.map_eq_some_iff] at h
            rcases h with ⟨x, hx, hnet⟩
            rw [← hnet]
            exact Moved.left c x hc.1 hc.2 hjoined hx
      · exact absurd h (by simp only [reduceCtorEq, not_false_eq_true])
  | server s =>
      rw [step] at h
      split at h
      · rename_i hs
        rw [serverStep] at h
        split at h
        · rename_i hserving
          split at h
          · exact absurd h (by simp only [reduceCtorEq, not_false_eq_true])
          · rename_i c hlast
            split at h
            · rename_i htodo
              rw [← Option.some.inj h]
              exact Moved.close c s hs hserving hlast (List.isEmpty_iff.mp htodo)
            · rw [Option.map_eq_some_iff] at h
              rcases h with ⟨x, hx, hnet⟩
              rw [← hnet]
              exact Moved.right c s x hs hserving hlast hx
        · rename_i hserving
          rw [Bool.not_eq_true] at hserving
          split at h
          · exact absurd h (by simp only [reduceCtorEq, not_false_eq_true])
          · rename_i c rest hbacklog
            split at h
            · rename_i hn
              rw [← Option.some.inj h]
              exact Moved.accept c s rest hs hserving hbacklog hn
            · exact absurd h (by simp only [reduceCtorEq, not_false_eq_true])
      · exact absurd h (by simp only [reduceCtorEq, not_false_eq_true])

/-! ## The invariant -/

/-- The client has come to the server. -/
def Net.Entered (net : Net σ τ M) (c s : Nat) : Prop :=
  s < net.place c ∨ (s = net.place c ∧ net.joined c = true)

/-- The lists of a server are the clients that have come to it. A connection is on
    the way to the end of its session, whichever client of the server it will
    have been until the server accepts it. -/
structure Sound (R : Roles σ τ M) (n m : Nat) (net : Net σ τ M) : Prop where
  nodup : ∀ s, (net.accepted s ++ net.backlog s).Nodup
  mem_iff : ∀ c s, c ∈ net.accepted s ++ net.backlog s ↔ c < n ∧ s < m ∧ net.Entered c s
  place_le : ∀ c, net.place c ≤ m
  place_lt : ∀ c, net.joined c = true → net.place c < m
  waiting : ∀ c s k, c ∉ net.accepted s →
    ((net.conn c s).withRight (R.server s k)).Agrees (R.goal c s k)
  fresh : ∀ c s, c ∉ net.accepted s → (net.conn c s).right.todo = R.serverTodo
  served : ∀ c s k : Nat, (net.accepted s)[k]? = some c → (net.conn c s).Agrees (R.goal c s k)
  left_done : ∀ c s, s < net.place c → (net.conn c s).left.todo = []
  right_done : ∀ c s k : Nat, (net.accepted s)[k]? = some c →
    (k + 1 < (net.accepted s).length ∨ net.serving s = false) → (net.conn c s).right.todo = []
  busy : ∀ s, net.serving s = true → net.accepted s ≠ []

theorem start_sound (R : Roles σ τ M) (n m : Nat) : Sound R n m (start R) where
  nodup _ := List.nodup_nil
  mem_iff c s := by
    rw [Net.Entered]
    simp [start]
  place_le _ := Nat.zero_le m
  place_lt c h := absurd h (by simp only [start, Bool.false_eq_true, not_false_eq_true])
  waiting _ _ _ _ := agrees_start R.dual
  fresh _ _ _ := rfl
  served c s k h := absurd h (by simp [start])
  left_done c s h := absurd h (Nat.not_lt_zero s)
  right_done c s k h := absurd h (by simp [start])
  busy s h := absurd h (by simp only [start, Bool.false_eq_true, not_false_eq_true])

section Moves

variable {R : Roles σ τ M} {n m : Nat} {net : Net σ τ M}

theorem join_sound (hs : Sound R n m net) {c : Nat} (hc : c < n) (hplace : net.place c < m)
    (hjoined : net.joined c = false) : Sound R n m { net with
      joined := Function.update net.joined c true
      backlog := Function.update net.backlog (net.place c)
        (net.backlog (net.place c) ++ [c]) } := by
  -- A client that has not joined is on neither list of its server.
  have hnot : c ∉ net.accepted (net.place c) ++ net.backlog (net.place c) := by
    rw [hs.mem_iff, Net.Entered, hjoined]
    simp
  have hlist : ∀ s, net.accepted s ++
      Function.update net.backlog (net.place c) (net.backlog (net.place c) ++ [c]) s =
      net.accepted s ++ net.backlog s ++ if s = net.place c then [c] else [] := by
    intro s
    by_cases h : s = net.place c
    · rw [h, Function.update_self, if_pos rfl, List.append_assoc]
    · rw [Function.update_of_ne h, if_neg h, List.append_nil]
  refine ⟨?_, ?_, hs.place_le, ?_, hs.waiting, hs.fresh, hs.served, hs.left_done, hs.right_done,
    hs.busy⟩
  · intro s
    simp only [hlist]
    split
    · rename_i h
      rw [h, List.nodup_append]
      refine ⟨hs.nodup _, List.nodup_singleton c, ?_⟩
      intro a ha b hb hab
      rw [hab, List.mem_singleton.mp hb] at ha
      exact hnot ha
    · rw [List.append_nil]
      exact hs.nodup s
  · intro c' s
    simp only [hlist, List.mem_append (t := ite _ _ _), hs.mem_iff, Net.Entered]
    by_cases h : c' = c
    · rw [h, Function.update_self, hjoined]
      by_cases hsp : s = net.place c
      · simp [hsp, hc, hplace]
      · simp [hsp]
    · rw [Function.update_of_ne h]
      have hmem : c' ∉ (if s = net.place c then [c] else []) := by
        split
        · simpa using h
        · exact List.not_mem_nil
      simp [hmem]
  · intro c' h
    by_cases hcc : c' = c
    · rw [hcc]
      exact hplace
    · simp only [Function.update_of_ne hcc] at h
      exact hs.place_lt c' h

theorem leave_sound (hs : Sound R n m net) {c : Nat} (hplace : net.place c < m)
    (hjoined : net.joined c = true) (htodo : (net.conn c (net.place c)).left.todo = []) :
    Sound R n m { net with
      place := Function.update net.place c (net.place c + 1)
      joined := Function.update net.joined c false } := by
  refine ⟨hs.nodup, ?_, ?_, ?_, hs.waiting, hs.fresh, hs.served, ?_, hs.right_done, hs.busy⟩
  · intro c' s
    rw [hs.mem_iff]
    simp only [Net.Entered]
    by_cases h : c' = c
    · rw [h, Function.update_self, Function.update_self, hjoined]
      simp only [and_true, Bool.false_eq_true, and_false, or_false]
      omega
    · rw [Function.update_of_ne h, Function.update_of_ne h]
  · intro c'
    by_cases h : c' = c
    · simp only [h, Function.update_self]
      exact hplace
    · simp only [Function.update_of_ne h]
      exact hs.place_le c'
  · intro c' hj
    by_cases h : c' = c
    · simp only [h, Function.update_self] at hj
      exact absurd hj (by decide)
    · simp only [Function.update_of_ne h] at hj ⊢
      exact hs.place_lt c' hj
  · intro c' s hlt
    by_cases h : c' = c
    · simp only [h, Function.update_self] at hlt ⊢
      rcases Nat.lt_succ_iff_lt_or_eq.mp hlt with hlt | heq
      · exact hs.left_done c s hlt
      · rw [heq]
        exact htodo
    · simp only [Function.update_of_ne h] at hlt
      exact hs.left_done c' s hlt

theorem left_sound (hs : Sound R n m net) {c : Nat} {x : Conn σ τ M}
    (hx : (net.conn c (net.place c)).stepLeft = some x) :
    Sound R n m (net.setConn c (net.place c) x) := by
  refine ⟨hs.nodup, hs.mem_iff, hs.place_le, hs.place_lt, ?_, ?_, ?_, ?_, ?_, hs.busy⟩
  · intro c' s k h
    refine setConn_forall (P := fun c s y => (y.withRight (R.server s k)).Agrees (R.goal c s k))
      ?_ (hs.waiting c' s k h)
    rintro rfl rfl
    exact agrees_stepLeft (hs.waiting _ _ k h) (stepLeft_withRight hx _)
  · intro c' s h
    refine setConn_forall (P := fun _ _ y => y.right.todo = R.serverTodo) ?_ (hs.fresh c' s h)
    rintro rfl rfl
    rw [(stepLeft_spec hx).1]
    exact hs.fresh _ _ h
  · intro c' s k h
    refine setConn_forall (P := fun c s y => y.Agrees (R.goal c s k)) ?_ (hs.served c' s k h)
    rintro rfl rfl
    exact agrees_stepLeft (hs.served _ _ k h) hx
  · intro c' s h
    refine setConn_forall (P := fun _ _ y => y.left.todo = []) ?_ (hs.left_done c' s h)
    rintro rfl rfl
    exact absurd h (Nat.lt_irrefl _)
  · intro c' s k h hor
    refine setConn_forall (P := fun _ _ y => y.right.todo = []) ?_ (hs.right_done c' s k h hor)
    rintro rfl rfl
    rw [(stepLeft_spec hx).1]
    exact hs.right_done _ _ k h hor

/-- The last client that was accepted is so at one index only. -/
theorem index_of_last (hs : Sound R n m net) {c s k : Nat}
    (hlast : (net.accepted s).getLast? = some c) (hk : (net.accepted s)[k]? = some c) :
    k + 1 = (net.accepted s).length := by
  rw [List.getLast?_eq_getElem?] at hlast
  have hnodup := (List.nodup_append.mp (hs.nodup s)).1
  have hlt : k < (net.accepted s).length := (List.getElem?_eq_some_iff.mp hk).1
  have heq := (List.getElem?_inj hlt hnodup).mp (hk.trans hlast.symm)
  omega

theorem right_sound (hs : Sound R n m net) {c s : Nat} {x : Conn σ τ M}
    (hserving : net.serving s = true) (hlast : (net.accepted s).getLast? = some c)
    (hx : (net.conn c s).stepRight = some x) : Sound R n m (net.setConn c s x) := by
  have hmem : c ∈ net.accepted s := List.mem_of_getLast? hlast
  refine ⟨hs.nodup, hs.mem_iff, hs.place_le, hs.place_lt, ?_, ?_, ?_, ?_, ?_, hs.busy⟩
  · intro c' s' k h
    refine setConn_forall (P := fun c s y => (y.withRight (R.server s k)).Agrees (R.goal c s k))
      ?_ (hs.waiting c' s' k h)
    rintro rfl rfl
    exact absurd hmem h
  · intro c' s' h
    refine setConn_forall (P := fun _ _ y => y.right.todo = R.serverTodo) ?_ (hs.fresh c' s' h)
    rintro rfl rfl
    exact absurd hmem h
  · intro c' s' k h
    refine setConn_forall (P := fun c s y => y.Agrees (R.goal c s k)) ?_ (hs.served c' s' k h)
    rintro rfl rfl
    exact agrees_stepRight (hs.served _ _ k h) hx
  · intro c' s' h
    refine setConn_forall (P := fun _ _ y => y.left.todo = []) ?_ (hs.left_done c' s' h)
    rintro rfl rfl
    rw [(stepRight_spec hx).1]
    exact hs.left_done _ _ h
  · intro c' s' k h hor
    refine setConn_forall (P := fun _ _ y => y.right.todo = []) ?_ (hs.right_done c' s' k h hor)
    rintro rfl rfl
    -- The server is not done with this one.
    have hk := index_of_last hs hlast h
    rcases hor with hlt | hidle
    · change k + 1 < (net.accepted s').length at hlt
      omega
    · change net.serving s' = false at hidle
      rw [hserving] at hidle
      exact absurd hidle (by decide)

theorem close_sound (hs : Sound R n m net) {c s : Nat}
    (hlast : (net.accepted s).getLast? = some c) (htodo : (net.conn c s).right.todo = []) :
    Sound R n m { net with serving := Function.update net.serving s false } := by
  refine ⟨hs.nodup, hs.mem_iff, hs.place_le, hs.place_lt, hs.waiting, hs.fresh, hs.served,
    hs.left_done, ?_, ?_⟩
  · intro c' s' k h hor
    change (net.accepted s')[k]? = some c' at h
    by_cases hss : s' = s
    · subst hss
      by_cases hk : k + 1 < (net.accepted s').length
      · exact hs.right_done c' s' k h (Or.inl hk)
      · have hlt : k < (net.accepted s').length := (List.getElem?_eq_some_iff.mp h).1
        rw [List.getLast?_eq_getElem?, show (net.accepted s').length - 1 = k by omega, h,
          Option.some.injEq] at hlast
        rw [hlast]
        exact htodo
    · simp only [Function.update_of_ne hss] at hor
      exact hs.right_done c' s' k h hor
  · intro s' h
    by_cases hss : s' = s
    · simp only [hss, Function.update_self] at h
      exact absurd h (by decide)
    · simp only [Function.update_of_ne hss] at h
      exact hs.busy s' h

theorem accept_sound (hs : Sound R n m net) {c s : Nat} {rest : List Nat}
    (hserving : net.serving s = false) (hbacklog : net.backlog s = c :: rest) :
    Sound R n m ({ net with
      backlog := Function.update net.backlog s rest
      accepted := Function.update net.accepted s (net.accepted s ++ [c])
      serving := Function.update net.serving s true }.setConn c s
        ((net.conn c s).withRight (R.server s (net.accepted s).length))) := by
  -- Accepting moves the client from one list to the other, and the two together stay.
  have hlist : ∀ s', Function.update net.accepted s (net.accepted s ++ [c]) s' ++
      Function.update net.backlog s rest s' = net.accepted s' ++ net.backlog s' := by
    intro s'
    by_cases h : s' = s
    · rw [h, Function.update_self, Function.update_self, hbacklog, List.append_assoc,
        List.singleton_append]
    · rw [Function.update_of_ne h, Function.update_of_ne h]
  have hnot : c ∉ net.accepted s := by
    have hnodup := hs.nodup s
    rw [hbacklog, List.nodup_append] at hnodup
    intro hmem
    exact hnodup.2.2 c hmem c List.mem_cons_self rfl
  have hold : ∀ c' s', c' ∉ Function.update net.accepted s (net.accepted s ++ [c]) s' →
      c' ∉ net.accepted s' ∧ ¬ (c' = c ∧ s' = s) := by
    intro c' s' h
    by_cases hss : s' = s
    · rw [hss, Function.update_self, List.mem_append, List.mem_singleton, not_or] at h
      rw [hss]
      exact ⟨h.1, fun hand => h.2 hand.1⟩
    · rw [Function.update_of_ne hss] at h
      exact ⟨h, fun hand => hss hand.2⟩
  -- Whoever is accepted now was before, or is this client, the last of the server's.
  have hget : ∀ (c' s' k : Nat),
      (Function.update net.accepted s (net.accepted s ++ [c]) s')[k]? = some c' →
      (net.accepted s')[k]? = some c' ∧ ¬ (c' = c ∧ s' = s) ∨
        c' = c ∧ s' = s ∧ k = (net.accepted s).length := by
    intro c' s' k h
    by_cases hss : s' = s
    · rw [hss, Function.update_self] at h
      by_cases hk : k < (net.accepted s).length
      · rw [List.getElem?_append_left hk] at h
        left
        rw [hss]
        refine ⟨h, fun hand => ?_⟩
        rw [hand.1] at h
        exact hnot (List.mem_of_getElem? h)
      · rw [List.getElem?_append_right (by omega), List.getElem?_singleton] at h
        split at h
        · rename_i hzero
          exact Or.inr ⟨(Option.some.inj h).symm, hss, by omega⟩
        · exact absurd h (by simp only [reduceCtorEq, not_false_eq_true])
    · rw [Function.update_of_ne hss] at h
      exact Or.inl ⟨h, fun hand => hss hand.2⟩
  refine ⟨?_, ?_, hs.place_le, hs.place_lt, ?_, ?_, ?_, ?_, ?_, ?_⟩
  · intro s'
    change (Function.update net.accepted s (net.accepted s ++ [c]) s' ++
      Function.update net.backlog s rest s').Nodup
    rw [hlist]
    exact hs.nodup s'
  · intro c' s'
    change c' ∈ Function.update net.accepted s (net.accepted s ++ [c]) s' ++
      Function.update net.backlog s rest s' ↔ _
    rw [hlist]
    exact hs.mem_iff c' s'
  · intro c' s' k h
    obtain ⟨hc', hne⟩ := hold c' s' h
    rw [setConn_of_ne _ _ _ _ (by omega)]
    exact hs.waiting c' s' k hc'
  · intro c' s' h
    obtain ⟨hc', hne⟩ := hold c' s' h
    rw [setConn_of_ne _ _ _ _ (by omega)]
    exact hs.fresh c' s' hc'
  · intro c' s' k h
    rcases hget c' s' k h with ⟨hk, hne⟩ | ⟨hc', hs', hk⟩
    · rw [setConn_of_ne _ _ _ _ (by omega)]
      exact hs.served c' s' k hk
    · rw [hc', hs', setConn_self, hk]
      exact hs.waiting c s _ hnot
  · intro c' s' h
    refine setConn_forall (P := fun _ _ y => y.left.todo = []) ?_ (hs.left_done c' s' h)
    rintro rfl rfl
    exact hs.left_done _ _ h
  · intro c' s' k h hor
    rcases hget c' s' k h with ⟨hk, hne⟩ | ⟨_, hs', hk⟩
    · rw [setConn_of_ne _ _ _ _ (by omega)]
      refine hs.right_done c' s' k hk ?_
      by_cases hss : s' = s
      · exact Or.inr (hss ▸ hserving)
      · simpa only [Net.setConn, Function.update_of_ne hss] using hor
    · rw [hs'] at hor
      simp only [Net.setConn, Function.update_self, List.length_append, List.length_singleton,
        Bool.true_eq_false, or_false] at hor
      omega
  · intro s' h
    by_cases hss : s' = s
    · simp only [Net.setConn, hss, Function.update_self]
      exact List.append_ne_nil_of_right_ne_nil _ (List.cons_ne_nil _ _)
    · simp only [Net.setConn, Function.update_of_ne hss] at h ⊢
      exact hs.busy s' h

theorem moved_sound {net' : Net σ τ M} (hs : Sound R n m net) (h : Moved R n m net net') :
    Sound R n m net' := by
  cases h with
  | join c hc hplace hjoined => exact join_sound hs hc hplace hjoined
  | leave c hc hplace hjoined htodo => exact leave_sound hs hplace hjoined htodo
  | left c x hc hplace hjoined hx => exact left_sound hs hx
  | accept c s rest hsm hserving hbacklog hn => exact accept_sound hs hserving hbacklog
  | close c s hsm hserving hlast htodo => exact close_sound hs hlast htodo
  | right c s x hsm hserving hlast hx => exact right_sound hs hserving hlast hx

theorem step_sound {net' : Net σ τ M} {e : Mover} (hs : Sound R n m net)
    (h : step R n m net e = some net') : Sound R n m net' :=
  moved_sound hs (step_cases h)

/-! ## Progress -/

/-- Every client has been everywhere, and no server has anything left to do. -/
def Over (n m : Nat) (net : Net σ τ M) : Prop :=
  (∀ c < n, net.place c = m) ∧ ∀ s < m, net.backlog s = [] ∧ net.serving s = false

theorem client_enabled {c : Nat} (hc : c < n) (hplace : net.place c < m)
    (h : net.joined c = true →
      (net.conn c (net.place c)).left.todo = [] ∨ (net.conn c (net.place c)).stepLeft ≠ none) :
    ∃ e, step R n m net e ≠ none := by
  refine ⟨Mover.client c, ?_⟩
  rw [step, if_pos ⟨hc, hplace⟩, clientStep]
  split
  · simp only [ne_eq, reduceCtorEq, not_false_eq_true]
  · rename_i hjoined
    split
    · simp only [ne_eq, reduceCtorEq, not_false_eq_true]
    · rename_i htodo
      rw [Bool.not_eq_false] at hjoined
      rw [List.isEmpty_iff] at htodo
      rw [ne_eq, Option.map_eq_none_iff]
      exact (h hjoined).resolve_left htodo

theorem server_enabled {c s : Nat} (hsm : s < m) (hserving : net.serving s = true)
    (hlast : (net.accepted s).getLast? = some c)
    (h : (net.conn c s).right.todo = [] ∨ (net.conn c s).stepRight ≠ none) :
    ∃ e, step R n m net e ≠ none := by
  refine ⟨Mover.server s, ?_⟩
  rw [step, if_pos hsm, serverStep, if_pos hserving, hlast]
  simp only []
  split
  · simp only [ne_eq, reduceCtorEq, not_false_eq_true]
  · rename_i htodo
    rw [List.isEmpty_iff] at htodo
    rw [ne_eq, Option.map_eq_none_iff]
    exact h.resolve_left htodo

/-- A busy server or its client can move. -/
theorem enabled_of_serving (hs : Sound R n m net) {s : Nat} (hsm : s < m)
    (hserving : net.serving s = true) : ∃ e, step R n m net e ≠ none := by
  have hne := hs.busy s hserving
  have hlast := List.getLast?_eq_some_getLast hne
  generalize hc : (net.accepted s).getLast hne = c at hlast
  have hmem : c ∈ net.accepted s := List.mem_of_getLast? hlast
  obtain ⟨k, hk⟩ := List.getElem?_of_mem hmem
  by_cases htodo : (net.conn c s).right.todo = []
  · exact server_enabled hsm hserving hlast (Or.inl htodo)
  · rcases enabled_of_agrees (hs.served c s k hk) (Or.inr htodo) with hleft | hright
    · -- The client has something to do here, so it has not left.
      obtain ⟨hcn, _, hentered⟩ := (hs.mem_iff c s).mp (List.mem_append_left _ hmem)
      rcases hentered with hlt | ⟨heq, hjoined⟩
      · refine absurd ?_ hleft
        rw [Conn.stepLeft, hs.left_done c s hlt]
      · rw [heq] at hleft hsm
        exact client_enabled hcn hsm (fun _ => Or.inr hleft)
    · exact server_enabled hsm hserving hlast (Or.inr hright)

theorem length_le (hs : Sound R n m net) (s : Nat) :
    (net.accepted s ++ net.backlog s).length ≤ n := by
  have hsub : ∀ c ∈ net.accepted s ++ net.backlog s, c ∈ List.range n := by
    intro c hc
    exact List.mem_range.mpr ((hs.mem_iff c s).mp hc).1
  have hle := ((hs.nodup s).subperm hsub).length_le
  rwa [List.length_range] at hle

/-- An idle server accepts a client that waits. -/
theorem enabled_of_backlog (hs : Sound R n m net) {s : Nat} (hserving : net.serving s = false)
    (hbacklog : net.backlog s ≠ []) : ∃ e, step R n m net e ≠ none := by
  obtain ⟨c, rest, hcons⟩ := List.exists_cons_of_ne_nil hbacklog
  have hmem : c ∈ net.accepted s ++ net.backlog s := by
    rw [hcons]
    exact List.mem_append_right _ List.mem_cons_self
  have hlen := length_le hs s
  rw [hcons, List.length_append, List.length_cons] at hlen
  refine ⟨Mover.server s, ?_⟩
  rw [step, if_pos ((hs.mem_iff c s).mp hmem).2.1, serverStep, hserving, if_neg (by decide), hcons]
  simp only [if_pos (show (net.accepted s).length < n by omega), ne_eq, reduceCtorEq,
    not_false_eq_true]

/-- A client that is not through can move when no server is busy or has one to accept. -/
theorem enabled_of_place (hs : Sound R n m net) {c : Nat} (hc : c < n) (hplace : net.place c < m)
    (hidle : ∀ s < m, net.backlog s = [] ∧ net.serving s = false) :
    ∃ e, step R n m net e ≠ none := by
  apply client_enabled hc hplace
  intro hjoined
  by_cases htodo : (net.conn c (net.place c)).left.todo = []
  · exact Or.inl htodo
  · right
    obtain ⟨hbacklog, hserving⟩ := hidle _ hplace
    have hmem := (hs.mem_iff c (net.place c)).mpr ⟨hc, hplace, Or.inr ⟨rfl, hjoined⟩⟩
    rw [hbacklog, List.append_nil] at hmem
    obtain ⟨k, hk⟩ := List.getElem?_of_mem hmem
    have hdone := hs.right_done c _ k hk (Or.inr hserving)
    rcases enabled_of_agrees (hs.served c _ k hk) (Or.inl htodo) with hleft | hright
    · exact hleft
    · -- The server has done its part.
      refine absurd ?_ hright
      rw [Conn.stepRight, Option.map_eq_none_iff, Conn.stepLeft]
      simp only [Conn.swap, hdone]

theorem exists_step_of_not_over (hs : Sound R n m net) (h : ¬ Over n m net) :
    ∃ e, step R n m net e ≠ none := by
  by_cases hbusy : ∃ s < m, net.serving s = true
  · obtain ⟨s, hsm, hserving⟩ := hbusy
    exact enabled_of_serving hs hsm hserving
  · by_cases hwait : ∃ s < m, net.backlog s ≠ []
    · obtain ⟨s, hsm, hbacklog⟩ := hwait
      have hserving : net.serving s = false := by
        rw [← Bool.not_eq_true]
        exact fun hserving => hbusy ⟨s, hsm, hserving⟩
      exact enabled_of_backlog hs hserving hbacklog
    · have hidle : ∀ s < m, net.backlog s = [] ∧ net.serving s = false := by
        intro s hsm
        refine ⟨?_, ?_⟩
        · by_contra hne
          exact hwait ⟨s, hsm, hne⟩
        · rw [← Bool.not_eq_true]
          exact fun hserving => hbusy ⟨s, hsm, hserving⟩
      by_cases hplace : ∃ c < n, net.place c < m
      · obtain ⟨c, hc, hlt⟩ := hplace
        exact enabled_of_place hs hc hlt hidle
      · refine absurd ⟨?_, hidle⟩ h
        intro c hc
        have hle := hs.place_le c
        by_contra hne
        exact hplace ⟨c, hc, by omega⟩

/-! ## The end -/

theorem perm_of_over (hs : Sound R n m net) (h : Over n m net) {s : Nat} (hsm : s < m) :
    (net.accepted s).Perm (List.range n) := by
  have hnodup := hs.nodup s
  rw [(h.2 s hsm).1, List.append_nil] at hnodup
  rw [List.perm_ext_iff_of_nodup hnodup List.nodup_range]
  intro c
  have hmem := hs.mem_iff c s
  rw [(h.2 s hsm).1, List.append_nil] at hmem
  rw [hmem, List.mem_range]
  constructor
  · exact fun hand => hand.1
  · intro hc
    refine ⟨hc, hsm, Or.inl ?_⟩
    rw [h.1 c hc]
    exact hsm

theorem done_of_over (hs : Sound R n m net) (h : Over n m net) {c s : Nat} (hc : c < n)
    (hsm : s < m) : (net.conn c s).left.todo = [] ∧ (net.conn c s).right.todo = [] := by
  have hmem : c ∈ net.accepted s := (perm_of_over hs h hsm).mem_iff.mpr (List.mem_range.mpr hc)
  obtain ⟨k, hk⟩ := List.getElem?_of_mem hmem
  refine ⟨hs.left_done c s ?_, hs.right_done c s k hk (Or.inr (h.2 s hsm).2)⟩
  rw [h.1 c hc]
  exact hsm

theorem goal_of_over (hs : Sound R n m net) (h : Over n m net) {c s k : Nat} (hsm : s < m)
    (hk : (net.accepted s)[k]? = some c) :
    ((net.conn c s).left.data, (net.conn c s).right.data) = R.goal c s k := by
  have hc : c < n :=
    ((hs.mem_iff c s).mp (List.mem_append_left _ (List.mem_of_getElem? hk))).1
  obtain ⟨hleft, hright⟩ := done_of_over hs h hc hsm
  exact eq_of_agrees (hs.served c s k hk) hleft hright

/-! ## Counting the moves -/

/-- Two moves for each server a client has not left, less the one of joining. -/
def clientWork (m : Nat) (net : Net σ τ M) (c : Nat) : Nat :=
  2 * (m - net.place c) - if net.joined c then 1 else 0

def serverWork (n : Nat) (net : Net σ τ M) (s : Nat) : Nat :=
  2 * (n - (net.accepted s).length) + if net.serving s then 1 else 0

def connWork (x : Conn σ τ M) : Nat := x.left.todo.length + x.right.todo.length

/-- The moves that are left. -/
def work (n m : Nat) (net : Net σ τ M) : Nat :=
  (∑ c ∈ Finset.range n, clientWork m net c) + (∑ s ∈ Finset.range m, serverWork n net s) +
    ∑ c ∈ Finset.range n, ∑ s ∈ Finset.range m, connWork (net.conn c s)

theorem sum_succ_of_one {f g : Nat → Nat} {n i : Nat} (hi : i < n) (hone : f i = g i + 1)
    (hrest : ∀ j, j ≠ i → f j = g j) :
    ∑ j ∈ Finset.range n, f j = (∑ j ∈ Finset.range n, g j) + 1 := by
  rw [← Finset.add_sum_erase _ f (Finset.mem_range.mpr hi),
    ← Finset.add_sum_erase _ g (Finset.mem_range.mpr hi), hone,
    Finset.sum_congr rfl (fun j hj => hrest j (Finset.ne_of_mem_erase hj))]
  exact Nat.add_right_comm ..

theorem work_of_client {net' : Net σ τ M} {c : Nat} (hc : c < n)
    (hone : clientWork m net c = clientWork m net' c + 1)
    (hrest : ∀ c', c' ≠ c → clientWork m net c' = clientWork m net' c')
    (hserver : ∀ s, serverWork n net s = serverWork n net' s)
    (hconn : ∀ c s, connWork (net.conn c s) = connWork (net'.conn c s)) :
    work n m net = work n m net' + 1 := by
  simp only [work, hserver, hconn, sum_succ_of_one hc hone hrest]
  omega

theorem work_of_server {net' : Net σ τ M} {s : Nat} (hsm : s < m)
    (hone : serverWork n net s = serverWork n net' s + 1)
    (hrest : ∀ s', s' ≠ s → serverWork n net s' = serverWork n net' s')
    (hclient : ∀ c, clientWork m net c = clientWork m net' c)
    (hconn : ∀ c s, connWork (net.conn c s) = connWork (net'.conn c s)) :
    work n m net = work n m net' + 1 := by
  simp only [work, hclient, hconn, sum_succ_of_one hsm hone hrest]
  omega

theorem work_setConn {c s : Nat} {x : Conn σ τ M} (hc : c < n) (hsm : s < m)
    (hone : connWork (net.conn c s) = connWork x + 1) :
    work n m net = work n m (net.setConn c s x) + 1 := by
  have hconn : ∑ c ∈ Finset.range n, ∑ s ∈ Finset.range m, connWork (net.conn c s) =
      (∑ c' ∈ Finset.range n, ∑ s' ∈ Finset.range m,
        connWork ((net.setConn c s x).conn c' s')) + 1 := by
    refine sum_succ_of_one hc (sum_succ_of_one hsm ?_ ?_) ?_
    · rw [setConn_self, hone]
    · intro s' hs'
      rw [setConn_of_ne net c s x (Or.inr hs')]
    · intro c' hc'
      refine Finset.sum_congr rfl ?_
      intro s' _
      rw [setConn_of_ne net c s x (Or.inl hc')]
  rw [work, hconn]
  rfl

/-- Every move is one of those that are left. -/
theorem moved_work {net' : Net σ τ M} (hs : Sound R n m net) (h : Moved R n m net net') :
    work n m net = work n m net' + 1 := by
  cases h with
  | join c hc hplace hjoined =>
      refine work_of_client hc ?_ ?_ (fun _ => rfl) (fun _ _ => rfl)
      · simp only [clientWork, hjoined, Function.update_self, Bool.false_eq_true, if_false, if_true]
        omega
      · intro c' hc'
        simp only [clientWork, Function.update_of_ne hc']
  | leave c hc hplace hjoined htodo =>
      refine work_of_client hc ?_ ?_ (fun _ => rfl) (fun _ _ => rfl)
      · simp only [clientWork, hjoined, Function.update_self, Bool.false_eq_true, if_false, if_true]
        omega
      · intro c' hc'
        simp only [clientWork, Function.update_of_ne hc']
  | left c x hc hplace hjoined hx =>
      refine work_setConn hc hplace ?_
      have hspec := stepLeft_spec hx
      rw [connWork, connWork, hspec.1, hspec.2]
      omega
  | accept c s rest hsm hserving hbacklog hn =>
      refine work_of_server hsm ?_ ?_ (fun _ => rfl) ?_
      · simp only [serverWork, Net.setConn, Function.update_self, hserving, List.length_append,
          List.length_singleton, Bool.false_eq_true, if_false, if_true]
        omega
      · intro s' hs'
        simp only [serverWork, Net.setConn, Function.update_of_ne hs']
      · intro c' s'
        refine setConn_forall (P := fun c s y => connWork (net.conn c s) = connWork y) ?_ rfl
        rintro rfl rfl
        -- The server's script was there before.
        have hnot : c' ∉ net.accepted s' := by
          have hnodup := hs.nodup s'
          rw [hbacklog, List.nodup_append] at hnodup
          exact fun hmem => hnodup.2.2 c' hmem c' List.mem_cons_self rfl
        rw [connWork, hs.fresh c' s' hnot]
        rfl
  | close c s hsm hserving hlast htodo =>
      refine work_of_server hsm ?_ ?_ (fun _ => rfl) (fun _ _ => rfl)
      · simp only [serverWork, hserving, Function.update_self, Bool.false_eq_true, if_false,
          if_true]
      · intro s' hs'
        simp only [serverWork, Function.update_of_ne hs']
  | right c s x hsm hserving hlast hx =>
      have hmem := (hs.mem_iff c s).mp (List.mem_append_left _ (List.mem_of_getLast? hlast))
      refine work_setConn hmem.1 hsm ?_
      have hspec := stepRight_spec hx
      rw [connWork, connWork, hspec.1, hspec.2]
      omega

theorem work_eq_zero_of_over (hs : Sound R n m net) (h : Over n m net) : work n m net = 0 := by
  have hclient : ∀ c ∈ Finset.range n, clientWork m net c = 0 := by
    intro c hc
    have hplace := h.1 c (Finset.mem_range.mp hc)
    rw [clientWork, hplace, Nat.sub_self, Nat.mul_zero, Nat.zero_sub]
  have hserver : ∀ s ∈ Finset.range m, serverWork n net s = 0 := by
    intro s hsm
    rw [Finset.mem_range] at hsm
    have hlen := (perm_of_over hs h hsm).length_eq
    rw [List.length_range] at hlen
    simp only [serverWork, hlen, (h.2 s hsm).2, Nat.sub_self, Bool.false_eq_true, if_false]
  have hconn : ∀ c ∈ Finset.range n, ∑ s ∈ Finset.range m, connWork (net.conn c s) = 0 := by
    intro c hc
    refine Finset.sum_eq_zero ?_
    intro s hsm
    have hdone := done_of_over hs h (Finset.mem_range.mp hc) (Finset.mem_range.mp hsm)
    rw [connWork, hdone.1, hdone.2]
    rfl
  simp only [work, Finset.sum_eq_zero hclient, Finset.sum_eq_zero hserver,
    Finset.sum_eq_zero hconn, Nat.add_zero]

theorem step_eq_none_of_over (hs : Sound R n m net) (h : Over n m net) (e : Mover) :
    step R n m net e = none := by
  cases hstep : step R n m net e with
  | none => rfl
  | some net' =>
      have hwork := moved_work hs (step_cases hstep)
      rw [work_eq_zero_of_over hs h] at hwork
      exact absurd hwork (by omega)

/-! ## Runs -/

/-- The moves of a whole run: joining and leaving, accepting and closing, and the scripts. -/
def moves (R : Roles σ τ M) (n m : Nat) : Nat :=
  n * m * (R.clientTodo.length + R.serverTodo.length + 4)

theorem work_start : work n m (start R) = moves R n m := by
  simp only [work, start, clientWork, serverWork, connWork, Roles.server, Finset.sum_const,
    Finset.card_range, smul_eq_mul, List.length_nil, Nat.sub_zero, Bool.false_eq_true, if_false,
    moves]
  ring

theorem run_sound_work : ∀ (es : List Mover) (net net' : Net σ τ M), Sound R n m net →
    Run.run (step R n m) es net = some net' →
      Sound R n m net' ∧ work n m net = work n m net' + es.length := by
  intro es
  induction es with
  | nil =>
      intro net net' hs h
      simp only [Run.run, Option.some.injEq] at h
      rw [← h]
      exact ⟨hs, rfl⟩
  | cons e es ih =>
      intro net net' hs h
      rcases Run.run_cons_eq_some _ e es net net' h with ⟨net₁, he, hrest⟩
      obtain ⟨hsound, hwork⟩ := ih net₁ net' (step_sound hs he) hrest
      refine ⟨hsound, ?_⟩
      rw [moved_work hs (step_cases he), hwork, List.length_cons]
      omega

theorem run_sound {net' : Net σ τ M} {es : List Mover}
    (h : Run.run (step R n m) es (start R) = some net') : Sound R n m net' :=
  (run_sound_work es _ _ (start_sound R n m) h).1

theorem run_length {net' : Net σ τ M} {es : List Mover}
    (h : Run.run (step R n m) es (start R) = some net') :
    work n m net' + es.length = moves R n m := by
  rw [← work_start, (run_sound_work es _ _ (start_sound R n m) h).2]

/-- No run has more moves, and one that cannot go on has them all and is over. -/
theorem run_completes {net' : Net σ τ M} {es : List Mover}
    (h : Run.run (step R n m) es (start R) = some net') :
    es.length ≤ moves R n m ∧
      ((∀ e, step R n m net' e = none) → es.length = moves R n m ∧ Over n m net') := by
  have hs := run_sound h
  have hlen := run_length h
  refine ⟨by omega, fun hstuck => ?_⟩
  have hover : Over n m net' := by
    by_contra hnot
    obtain ⟨e, he⟩ := exists_step_of_not_over hs hnot
    exact he (hstuck e)
  rw [work_eq_zero_of_over hs hover] at hlen
  exact ⟨by omega, hover⟩

end Moves

end Visits

end LocalKeyValue
