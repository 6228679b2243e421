import LocalKeyValue.Pilaf.Requests
import LocalKeyValue.Pilaf.Credits

/-!
# Pilaf's GETs beside its PUTs

The READs of a client's GETs, and the server that places keys in the meantime. A
client posts a READ of the bucket with its key's number into its response area,
which it has set to 0, and goes round until the `offset` there is not 0. So a
bucket whose offset is 0 would keep it there forever, and what keeps it going is
that the server has none: the array is filled with ones, and no chain of
evictions writes an offset of 0, or leaves the array. A key that is no number of
a bucket keeps it there too, as its READ is of memory the server has not
registered.

A READ is taken to see a bucket as it is between two calls of `place`. The PUTs
of a client are with the messages; they touch neither the area nor a READ. At
the top of its loop a client also polls for the completion of every other READ.
That is left out: it is of a READ that has brought its offset already.

## Main definitions

* `Get`: What a client asks for, and how many READs it takes.
* `Reader`, `readerStep`: The READs of `run_client`.
* `State`, `step`: The clients beside the messages and the server.
* `Spins`: A client finds an offset of 0.
* `HasBucket`: The keys that are numbers of buckets.
* `Filled`: No bucket has one.

## Theorems

* `place_filled`: `place` keeps the table filled.
* `readsOk_step`: Any step keeps what a READ is waited for.
* `reads_run`: A client spins just while its READ is under way.
* `spins_forever`: A READ of no bucket is never over.
-/

namespace LocalKeyValue

namespace Pilaf

namespace Reads

open CInt Run

/-- A GET: whether the client takes it to need two READs before the last, and its key. -/
structure Get where
  two : Bool
  key : SendKey
deriving DecidableEq

/-- The phase a GET begins with. -/
def Get.first (g : Get) : Nat :=
  if g.two then read1 else read2

/-- A bucket of zeros. -/
def zeroBucket : Bucket :=
  memsetTable 0 0

/-- `run_client` as far as its READs go. `posted` are the buckets of the READs that are
    posted and not performed, `todo` the GETs still to make. -/
structure Reader where
  wsPhase : Nat
  key : Int
  clientRespArea : Bucket
  posted : List Int
  numReads : Nat
  todo : List Get

/-- The client finds that its response area has an offset of 0. -/
def Spins (r : Reader) : Prop :=
  r.wsPhase ≠ 0 ∧ r.clientRespArea.offset = 0

instance (r : Reader) : Decidable (Spins r) :=
  inferInstanceAs (Decidable (_ ∧ _))

/-- One round of the loop: wait for the last READ, and post the next one of the GET or
    the first of a new GET. -/
def readerStep (r : Reader) : Option Reader :=
  if Spins r then none
  else if r.wsPhase = read3 ∨ r.wsPhase = 0 then
    match r.todo with
    | [] => none
    | g :: gs => some {
        wsPhase := g.first
        key := g.key.val
        clientRespArea := { r.clientRespArea with offset := 0, key := 0 }
        posted := r.posted ++ [g.key.val]
        numReads := r.numReads + 1
        todo := gs }
  else some { r with
    wsPhase := r.wsPhase + 1
    clientRespArea := zeroBucket
    posted := r.posted ++ [r.key]
    numReads := r.numReads + 1 }

/-- The first of the READs is performed, if it is of a bucket of the server. -/
def perform (t : Table) (r : Reader) : Option Reader :=
  match r.posted with
  | [] => none
  | key :: keys => (bucket? t key).map fun b =>
    { r with clientRespArea := b, posted := keys }

/-- The messages and the server, and the clients' READs. -/
structure State where
  server : Pilaf.State
  reader : Nat → Reader

inductive Action
  | put (a : Pilaf.Action)
  | client (c : Nat)
  | read (c : Nat)
deriving DecidableEq

def State.setReader (s : State) (c : Nat) (r : Reader) : State :=
  { s with reader := Function.update s.reader c r }

def step (n cnLo : Nat) (s : State) : Action → Option State
  | .put a => (Pilaf.step n cnLo s.server a).map fun v => { s with server := v }
  | .client c => (readerStep (s.reader c)).map (s.setReader c)
  | .read c => (perform s.server.table (s.reader c)).map (s.setReader c)

def Reader.init (gets : List Get) : Reader where
  wsPhase := 0
  key := 0
  clientRespArea := zeroBucket
  posted := []
  numReads := 0
  todo := gets

def State.init (n cnLo : Nat) (sends : Nat → List SendKey) (gets : Nat → List Get) : State where
  server := Pilaf.State.init n cnLo sends
  reader := fun c => Reader.init (gets c)

/-! ## The table -/

/-- No bucket has an offset of 0. -/
def Filled (t : Table) : Prop :=
  ∀ j, (t j).offset ≠ 0

theorem filled_setupBuffers : Filled setupBuffers := by
  intro j
  simp only [setupBuffers, memsetTable]
  decide

theorem filled_put (t : Table) (s : Nat) (b : Bucket) (h : Filled t) (hb : b.offset ≠ 0) :
    Filled (Function.update t s b) := by
  intro j
  by_cases hj : j = s
  · rw [hj, Function.update_self]
    exact hb
  · rw [Function.update_of_ne hj]
    exact h j

theorem chainInvariant_evictable :
    ChainInvariant (fun k => Indexable (toInt32 k)) Evictable where
  indexable := fun _ hk => hk
  take := fun _ _ _ ht _ _ hb => (indexable_toInt32 _).mpr (ht _ hb)
  put := fun t _ _ b ht hk _ _ hb => evictable_put t _ _ b ht hk hb

/-- A chain of evictions writes its value into each bucket but an empty one, which keeps
    its offset. -/
theorem place_filled (value : Int) (hvalue : toInt32 value ≠ 0) (t : Table) (key : Int)
    (tableID n : Nat) (ht : Evictable t) (hfilled : Filled t) (hk : Indexable key)
    (hid : tableID < ver) :
    ∃ t', place t (toInt32 key) value tableID n = some t' ∧ Evictable t' ∧ Filled t' := by
  have hrule := place_rule chainInvariant_evictable value
    (fun t _ _ _ t' _ => Filled t → Filled t')
    (fun t _ _ _ h => h) (fun _ _ _ _ _ _ _ h => h) ?empty ?evict n t key tableID ht
    ((indexable_toInt32 key).mpr hk) hid
  case empty =>
    -- The key goes into an empty bucket, whose offset stays.
    intro t held tableID _ _ _ _ _ _ h
    exact filled_put t _ _ h (h _)
  case evict =>
    intro t held tableID _ t' _ _ _ _ _ _ hQ h
    exact hQ (filled_put t _ _ h hvalue)
  rcases hrule with ⟨t', ht', hev, hQ⟩
  exact ⟨t', ht', hev, hQ hfilled⟩

/-! ## The server -/

/-- The keys on their way to the server have positions, and the table is filled. -/
structure ServerOk (s : Pilaf.State) : Prop where
  sends : ∀ c, ∀ k ∈ s.sends c, Indexable k.val
  area : ∀ a, Indexable (s.serverRequestArea a)
  evictable : Evictable s.table
  filled : Filled s.table

theorem serverOk_init (n cnLo : Nat) (sends : Nat → List SendKey)
    (hsends : ∀ c, ∀ k ∈ sends c, Indexable k.val) : ServerOk (Pilaf.State.init n cnLo sends) where
  sends := hsends
  area := fun _ => indexable_of_inRange 0 (by decide)
  evictable := evictable_setupBuffers
  filled := filled_setupBuffers

/-- Each message writes its key into the area. -/
theorem serverOk_deliver (s t : Pilaf.State) (c : Nat) (h : ServerOk s)
    (hstep : deliver s c = some t) : ServerOk t := by
  unfold deliver at hstep
  split at hstep
  · rename_i k ks addr addrs hs _
    rw [Option.some.injEq] at hstep
    have hall := h.sends c
    rw [hs, List.forall_mem_cons] at hall
    rw [← hstep]
    refine ⟨fun c' => ?_, fun a => ?_, h.evictable, h.filled⟩
    · by_cases hc : c' = c
      · simp only [hc, Function.update_self]
        exact hall.2
      · simp only [Function.update_of_ne hc]
        exact h.sends c'
    · by_cases ha : a = addr
      · simp only [ha, Function.update_self]
        exact hall.1
      · simp only [Function.update_of_ne ha]
        exact h.area a
  · exact absurd hstep (by simp only [reduceCtorEq, not_false_eq_true])

/-- The key the server reads can be placed. -/
theorem placeNext_ok (s : Pilaf.State) (cn : Nat) (keys : List Int) (h : ServerOk s) :
    ∃ t, placeNext s cn keys = some t ∧ ServerOk t := by
  cases keys with
  | nil => exact ⟨_, rfl, h.sends, h.area, h.evictable, h.filled⟩
  | cons k rest =>
      rcases place_filled 1 (by decide) s.table _ 0 3 h.evictable h.filled (h.area 0) (by decide)
        with ⟨table, hp, hev, hfilled⟩
      refine ⟨{ s with
        pc := .batch cn rest, table := table
        placed := s.placed ++ [toInt32 (s.serverRequestArea 0)] }, ?_, h.sends, h.area, hev,
        hfilled⟩
      simp only [placeNext, hp]

theorem poll_ok (n cnLo : Nat) (s : Pilaf.State) (m : Nat) (h : ServerOk s) :
    (poll n cnLo s m ≠ none ↔
      m ≤ (s.completions (cnLo + (s.iter + 1) % n)).length ∧ m ≤ qDepth) ∧
      ∀ t, poll n cnLo s m = some t → ServerOk t := by
  simp only [poll]
  split
  · rename_i hm
    split
    · refine ⟨iff_of_true (by simp only [ne_eq, reduceCtorEq, not_false_eq_true]) hm,
        fun t ht => ?_⟩
      rw [Option.some.injEq] at ht
      rw [← ht]
      exact ⟨h.sends, h.area, h.evictable, h.filled⟩
    · split
      all_goals
        refine ⟨iff_of_true (by simp only [ne_eq, reduceCtorEq, not_false_eq_true]) hm,
          fun t ht => ?_⟩
        rw [Option.some.injEq] at ht
        rw [← ht]
        exact ⟨h.sends, h.area, h.evictable, h.filled⟩
  · rename_i hm
    exact ⟨iff_of_false (fun hne => hne rfl) hm,
      fun t ht => absurd ht (by simp only [reduceCtorEq, not_false_eq_true])⟩

theorem serverOk_step (n cnLo : Nat) (s : Pilaf.State) (a : Pilaf.Action) (t : Pilaf.State)
    (h : ServerOk s) (hstep : Pilaf.step n cnLo s a = some t) : ServerOk t := by
  unfold Pilaf.step at hstep
  cases a with
  | deliver c =>
      simp only at hstep
      split at hstep
      · exact serverOk_deliver s t c h hstep
      · exact absurd hstep (by simp only [reduceCtorEq, not_false_eq_true])
  | server m =>
      simp only at hstep
      cases hpc : s.pc with
      | poll =>
          rw [hpc] at hstep
          exact (poll_ok n cnLo s m h).2 t hstep
      | batch cn keys =>
          rw [hpc] at hstep
          rcases placeNext_ok s cn keys h with ⟨t', ht', hok⟩
          have heq : t' = t := Option.some.inj (ht'.symm.trans hstep)
          exact heq ▸ hok

/-- The server goes on unless it polls for more than there is. -/
theorem server_ne_none (n cnLo : Nat) (s : Pilaf.State) (m : Nat) (h : ServerOk s) :
    Pilaf.step n cnLo s (.server m) ≠ none ↔ (s.pc = .poll →
      m ≤ (s.completions (cnLo + (s.iter + 1) % n)).length ∧ m ≤ qDepth) := by
  unfold Pilaf.step
  cases hpc : s.pc with
  | poll =>
      simp only [forall_const]
      exact (poll_ok n cnLo s m h).1
  | batch cn keys =>
      rcases placeNext_ok s cn keys h with ⟨t, ht, _⟩
      simp only [ht, ne_eq, reduceCtorEq, not_false_eq_true, false_implies]

/-! ## A client's READs -/

/-- The READs of the GET a client is at that it has not posted. -/
def left (wsPhase : Nat) : Nat :=
  if wsPhase = read1 then 2 else if wsPhase = read2 then 1 else 0

/-- The READs a GET takes. -/
def Get.reads (g : Get) : Nat :=
  1 + left g.first

/-- The READs that some GETs take. -/
def readsOf (gs : List Get) : Nat :=
  (gs.map Get.reads).sum

theorem first_cases (g : Get) : g.first = read1 ∨ g.first = read2 := by
  unfold Get.first
  split
  · exact Or.inl rfl
  · exact Or.inr rfl

/-- Where a GET has READs left, it goes on with one of them. -/
theorem left_going (p : Nat) (h : p = read1 ∨ p = read2) :
    p ≠ 0 ∧ left p = 1 + left (p + 1) ∧ (p + 1 = read2 ∨ p + 1 = read3) := by
  rcases h with rfl | rfl
  · decide
  · decide

/-- A GET is over at its last READ. -/
theorem left_over (p : Nat) (h : p = read3 ∨ p = 0) : left p = 0 := by
  rcases h with rfl | rfl
  · rfl
  · rfl

/-- A client spins just while it has a READ under way, and `total` are all the READs it has
    to make. -/
structure ReaderOk (total : Nat) (r : Reader) : Prop where
  posted : r.posted = [] ∧ ¬ Spins r ∨ r.posted = [r.key] ∧ Spins r
  phase : r.wsPhase = 0 ∨ r.wsPhase = read1 ∨ r.wsPhase = read2 ∨ r.wsPhase = read3
  count : r.numReads + left r.wsPhase + readsOf r.todo = total

theorem readerOk_init (gets : List Get) : ReaderOk (readsOf gets) (Reader.init gets) where
  posted := Or.inl ⟨rfl, fun h => h.1 rfl⟩
  phase := Or.inl rfl
  count := Nat.zero_add _

/-- A GET that is not over has a READ to go on with. -/
theorem ReaderOk.going {total : Nat} {r : Reader} (h : ReaderOk total r)
    (hphase : ¬ (r.wsPhase = read3 ∨ r.wsPhase = 0)) : r.wsPhase = read1 ∨ r.wsPhase = read2 := by
  rcases h.phase with hp | hp | hp | hp
  · exact absurd (Or.inr hp) hphase
  · exact Or.inl hp
  · exact Or.inr hp
  · exact absurd (Or.inl hp) hphase

/-- A round of the loop posts a READ and sets the offset to 0. -/
theorem readerOk_step (total : Nat) (r r' : Reader) (h : ReaderOk total r)
    (hstep : readerStep r = some r') : ReaderOk total r' := by
  unfold readerStep at hstep
  split at hstep
  · exact absurd hstep (by simp only [reduceCtorEq, not_false_eq_true])
  · rename_i hspins
    -- The READ before has been performed, or the client would go round.
    have hposted : r.posted = [] := by
      rcases h.posted with ⟨hnil, _⟩ | ⟨_, hs⟩
      · exact hnil
      · exact absurd hs hspins
    have hcount := h.count
    split at hstep
    · rename_i hphase
      have hover := left_over _ hphase
      cases htodo : r.todo with
      | nil =>
          rw [htodo] at hstep
          exact absurd hstep (by simp only [reduceCtorEq, not_false_eq_true])
      | cons g gs =>
          have hgoing := left_going _ (first_cases g)
          rw [htodo, readsOf, List.map_cons, List.sum_cons, Get.reads] at hcount
          simp only [htodo, hposted, List.nil_append, Option.some.injEq] at hstep
          rw [← hstep]
          refine ⟨Or.inr ⟨rfl, hgoing.1, rfl⟩, ?_, ?_⟩
          · exact Or.inr ((first_cases g).imp_right Or.inl)
          · simp only [readsOf]
            omega
    · rename_i hphase
      rw [Option.some.injEq] at hstep
      rw [← hstep]
      have hzero : zeroBucket.offset = 0 := by decide
      rcases left_going _ (h.going hphase) with ⟨_, hleft, hnext⟩
      refine ⟨Or.inr ⟨?_, Nat.succ_ne_zero _, hzero⟩, Or.inr (Or.inr hnext), ?_⟩
      · simp only [hposted, List.nil_append]
      · simp only
        omega

/-- The key is the number of a bucket of the server. -/
def HasBucket (key : Int) : Prop :=
  0 ≤ key ∧ key < ver * maxn

instance (key : Int) : Decidable (HasBucket key) :=
  inferInstanceAs (Decidable (_ ∧ _))

/-- A READ can be performed while the client spins and only then, if it is of a bucket, and
    brings it an offset that is not 0. -/
theorem perform_spec (total : Nat) (t : Table) (r : Reader) (h : ReaderOk total r)
    (ht : Filled t) :
    (perform t r ≠ none ↔ Spins r ∧ HasBucket r.key) ∧
      ∀ r', perform t r = some r' → ReaderOk total r' ∧ ¬ Spins r' := by
  rcases h.posted with ⟨hposted, hspins⟩ | ⟨hposted, hspins⟩
  · rw [perform, hposted]
    exact ⟨iff_of_false (fun hne => hne rfl) (fun hs => hspins hs.1),
      fun r' hr' => absurd hr' (by simp only [reduceCtorEq, not_false_eq_true])⟩
  · rw [perform, hposted]
    by_cases hb : HasBucket r.key
    · have hbucket : bucket? t r.key = some (t r.key.toNat) := if_pos hb
      simp only [hbucket, Option.map_some, ne_eq, reduceCtorEq, not_false_eq_true, true_iff,
        Option.some.injEq]
      refine ⟨⟨hspins, hb⟩, fun r' hr' => ?_⟩
      rw [← hr']
      -- The bucket it brings has an offset.
      have hfree : ¬ Spins { r with clientRespArea := t r.key.toNat, posted := [] } :=
        fun hs => ht r.key.toNat hs.2
      exact ⟨⟨Or.inl ⟨rfl, hfree⟩, h.phase, h.count⟩, hfree⟩
    · have hbucket : bucket? t r.key = none := if_neg hb
      simp only [hbucket, Option.map_none, ne_eq, not_true_eq_false, false_iff, not_and]
      exact ⟨fun _ => hb, fun r' hr' => absurd hr' (by simp only [reduceCtorEq, not_false_eq_true])⟩

/-- The client stops going round where it spins or has made all its READs. -/
theorem readerStep_none_iff (total : Nat) (r : Reader) (h : ReaderOk total r) :
    readerStep r = none ↔ Spins r ∨ r.numReads = total := by
  have hcount := h.count
  unfold readerStep
  split
  · rename_i hspins
    exact iff_of_true rfl (Or.inl hspins)
  · rename_i hspins
    split
    · rename_i hphase
      have hover := left_over _ hphase
      cases htodo : r.todo with
      | nil =>
          rw [htodo] at hcount
          refine iff_of_true rfl (Or.inr ?_)
          simp only [readsOf, List.map_nil, List.sum_nil] at hcount
          omega
      | cons g gs =>
          rw [htodo, readsOf, List.map_cons, List.sum_cons, Get.reads] at hcount
          refine iff_of_false (by simp only [reduceCtorEq, not_false_eq_true]) (fun hc => ?_)
          rcases hc with hs | hall
          · exact hspins hs
          · omega
    · rename_i hphase
      have hleft := (left_going _ (h.going hphase)).2.1
      refine iff_of_false (by simp only [reduceCtorEq, not_false_eq_true]) (fun hc => ?_)
      rcases hc with hs | hall
      · exact hspins hs
      · omega

/-! ## Runs -/

structure ReadsOk (gets : Nat → List Get) (s : State) : Prop where
  server : ServerOk s.server
  reader : ∀ c, ReaderOk (readsOf (gets c)) (s.reader c)

theorem readsOk_setReader (gets : Nat → List Get) (s : State) (c : Nat) (r : Reader)
    (h : ReadsOk gets s) (hr : ReaderOk (readsOf (gets c)) r) : ReadsOk gets (s.setReader c r) := by
  refine ⟨h.server, fun c' => ?_⟩
  rw [State.setReader]
  by_cases hc : c' = c
  · simp only [hc, Function.update_self]
    exact hr
  · simp only [Function.update_of_ne hc]
    exact h.reader c'

theorem readsOk_step (n cnLo : Nat) (gets : Nat → List Get) (s : State) (a : Action) (t : State)
    (h : ReadsOk gets s) (hstep : step n cnLo s a = some t) : ReadsOk gets t := by
  cases a with
  | put a =>
      rcases Option.map_eq_some_iff.mp hstep with ⟨v, hv, rfl⟩
      exact ⟨serverOk_step n cnLo s.server a v h.server hv, h.reader⟩
  | client c =>
      rcases Option.map_eq_some_iff.mp hstep with ⟨r, hr, rfl⟩
      exact readsOk_setReader gets s c r h (readerOk_step _ _ r (h.reader c) hr)
  | read c =>
      rcases Option.map_eq_some_iff.mp hstep with ⟨r, hr, rfl⟩
      have hspec := (perform_spec _ s.server.table _ (h.reader c) h.server.filled).2 r hr
      exact readsOk_setReader gets s c r h hspec.1

/-- A client that spins takes no step, and a READ of no bucket is not performed. -/
theorem spins_forever (n cnLo : Nat) (c : Nat) (s t : State) (total : Nat)
    (hok : ReaderOk total (s.reader c)) (hspins : Spins (s.reader c))
    (hb : ¬ HasBucket (s.reader c).key) (as : List Action)
    (hrun : run (step n cnLo) as s = some t) : t.reader c = s.reader c := by
  refine run_invariant_along (step n cnLo) (fun _ _ => True)
    (fun u => u.reader c = s.reader c) ?_ as s t rfl (along_true _ _ _) hrun
  -- Only an action of its own could change the client, and it has none.
  have hother : ∀ (u : State) c' r, c' ≠ c → (u.setReader c' r).reader c = u.reader c :=
    fun u c' r hne => Function.update_of_ne (Ne.symm hne) ..
  intro u a v hu _ hstep
  cases a with
  | put a =>
      rcases Option.map_eq_some_iff.mp hstep with ⟨w, _, rfl⟩
      exact hu
  | client c' =>
      rcases Option.map_eq_some_iff.mp hstep with ⟨r, hr, rfl⟩
      refine (hother u c' r (fun he => ?_)).trans hu
      rw [he, hu, readerStep, if_pos hspins] at hr
      exact absurd hr (by simp only [reduceCtorEq, not_false_eq_true])
  | read c' =>
      rcases Option.map_eq_some_iff.mp hstep with ⟨r, hr, rfl⟩
      refine (hother u c' r (fun he => ?_)).trans hu
      rcases hok.posted with ⟨_, hno⟩ | ⟨hposted, _⟩
      · exact absurd hspins hno
      · rw [he, hu, perform, hposted] at hr
        have hnone : bucket? u.server.table (s.reader c).key = none := if_neg hb
        simp only [hnone, Option.map_none, reduceCtorEq] at hr

/-- Whatever the order of messages, server and clients, if the keys sent have positions:
    the server goes on unless it polls for more than there is; the READ a client spins on
    can be performed just when its key has a bucket, and the client does not spin after it;
    if the key has none the client spins for good; and a client that does not spin goes on
    until it has posted three READs or two for each of its GETs, and no more. -/
theorem reads_run (n cnLo : Nat) (sends : Nat → List SendKey) (gets : Nat → List Get)
    (hsends : ∀ c, ∀ k ∈ sends c, Indexable k.val) (as : List Action) (t : State)
    (hrun : run (step n cnLo) as (State.init n cnLo sends gets) = some t) :
    (∀ m, step n cnLo t (.put (.server m)) ≠ none ↔ (t.server.pc = .poll →
      m ≤ (t.server.completions (cnLo + (t.server.iter + 1) % n)).length ∧ m ≤ qDepth)) ∧
    ∀ c, (step n cnLo t (.read c) ≠ none ↔ Spins (t.reader c) ∧ HasBucket (t.reader c).key) ∧
      (∀ u, step n cnLo t (.read c) = some u → ¬ Spins (u.reader c)) ∧
      (Spins (t.reader c) → ¬ HasBucket (t.reader c).key → ∀ bs u,
        run (step n cnLo) bs t = some u → u.reader c = t.reader c) ∧
      (step n cnLo t (.client c) = none ↔
        Spins (t.reader c) ∨ (t.reader c).numReads = readsOf (gets c)) ∧
      (t.reader c).numReads ≤ readsOf (gets c) := by
  have h : ReadsOk gets t := run_invariant_along (step n cnLo) (fun _ _ => True) (ReadsOk gets)
    (fun s a t h _ hstep => readsOk_step n cnLo gets s a t h hstep) as _ t
    ⟨serverOk_init n cnLo sends hsends, fun c => readerOk_init (gets c)⟩ (along_true _ _ _) hrun
  refine ⟨fun m => ?_, fun c => ?_⟩
  · rw [step, ne_eq, Option.map_eq_none_iff]
    exact server_ne_none n cnLo t.server m h.server
  · rcases perform_spec _ t.server.table _ (h.reader c) h.server.filled with ⟨hiff, hdone⟩
    have hcount := (h.reader c).count
    have hforever := fun hs hb bs u =>
      spins_forever n cnLo c t u _ (h.reader c) hs hb bs
    simp only [step, ne_eq, Option.map_eq_none_iff]
    refine ⟨hiff, fun u hu => ?_, hforever, readerStep_none_iff _ _ (h.reader c), by omega⟩
    rcases Option.map_eq_some_iff.mp hu with ⟨r, hr, rfl⟩
    rw [State.setReader]
    simp only [Function.update_self]
    exact (hdone r hr).2

/-- Client 0 has a GET of key 6 to make, and client 1 one of a key with no bucket. -/
def twoGets : Nat → List Get
  | 0 => [⟨false, ⟨6, by decide⟩⟩]
  | 1 => [⟨true, ⟨8000000, by decide⟩⟩]
  | _ => []

/-- The server places two keys between client 0's two READs. Client 1 spins whatever is
    done then. -/
theorem reads_run_twoGets : ∃ t, run (step 2 0) [.client 0, .client 1, .read 0,
      .put (.deliver 0), .put (.deliver 1), .put (.server 1), .put (.server 0), .put (.server 0),
      .client 0] (State.init 2 0 twoSends twoGets) = some t ∧
      (Spins (t.reader 0) ∧ step 2 0 t (.read 0) ≠ none) ∧
      ∀ bs u, run (step 2 0) bs t = some u → Spins (u.reader 1) := by
  have hres : (run (step 2 0) [.client 0, .client 1, .read 0,
      .put (.deliver 0), .put (.deliver 1), .put (.server 1), .put (.server 0), .put (.server 0),
      .client 0] (State.init 2 0 twoSends twoGets)).map (fun t =>
        decide ((Spins (t.reader 0) ∧ HasBucket (t.reader 0).key) ∧ Spins (t.reader 1) ∧
          ¬ HasBucket (t.reader 1).key)) = some true := by decide +kernel
  rcases Option.map_eq_some_iff.mp hres with ⟨t, hrun, ht⟩
  rcases of_decide_eq_true ht with ⟨h0, hspins, hnone⟩
  have hreads := (reads_run 2 0 twoSends twoGets (fun c => ?_) _ t hrun).2
  · refine ⟨t, hrun, ⟨h0.1, (hreads 0).1.mpr h0⟩, fun bs u hu => ?_⟩
    rw [(hreads 1).2.2.1 hspins hnone bs u hu]
    exact hspins
  · match c with
    | 0 => decide
    | 1 => decide
    | c + 2 => exact fun k hk => absurd hk List.not_mem_nil

end Reads

end Pilaf

end LocalKeyValue
