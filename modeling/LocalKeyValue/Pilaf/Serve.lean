import LocalKeyValue.Lib.Run
import LocalKeyValue.Pilaf.Placement

/-!
# The Pilaf Server

The server handles PUT requests one after the other: it calls `place` with the
request's key, a limit of 3 and the first table, and replies whatever came of
it. The state is the table and the keys replied to.

Three things go wrong. All three hash functions are one, so a key has three
buckets and shares them with every key of the same residue; a fourth such key
evicts three residents in a row and the last of them is cut off and dropped,
replied to or not. The bytes `setup_buffers` fills the table with are read as
keys, since none of them is `INT_MIN`; the first eviction narrows one to
16843009 and stores it, so the table holds a key nobody asked for. And a client
reads the bucket with its key's number, which is the key's own bucket in the
first table if the key is below `MAXN` and no bucket of it otherwise.

Each is settled exactly: which runs keep the replied keys, which runs are free of
the phantom, and which keys a client's read finds. After a run of requests that
is, of the keys of one residue, the one put last while it was not found; the
greatest residue is left out there, as its bucket in the first table is one of
the second table too.

## Main definitions

* `Request`: The keys a client puts.
* `serveStep`: One request, from the table and the keys replied to.
* `PlaceCall`, `placeStep`: One call of `place`.
* `ProbeOk`: A client's read finds its key.
* `PutLast`: The key is the last of its residue that was put while not found.

## Theorems

* `serve_loses_key`: A replied key is lost.
* `replied_found_iff`: It is when, and only when, it is cut off.
* `serve_stores_phantom`: A key nobody asked for is found.
* `no_phantom_iff`: It is unless the first request is for it.
* `probe_misses`: A client's read does not find a stored key.
* `probe_iff`: It finds the keys below `MAXN` that are in their first bucket.
* `probe_run_iff`: These are the ones put last.
-/

namespace LocalKeyValue

namespace Pilaf

open CInt Run

/-- A key of a PUT request. -/
abbrev Request := { key : Int // InRange key }

/-- What `run_server` does with a request: place the key and reply. -/
def serveStep (s : Table × List Int) (r : Request) : Option (Table × List Int) :=
  match place s.1 r.val 1 0 3 with
  | none => none
  | some t => some (t, s.2 ++ [r.val])

/-- The server before its first request. -/
def serverStart : Table × List Int :=
  (setupBuffers, [])

/-- The key of a bucket `setup_buffers` has filled, and what it narrows to. -/
abbrev fillKey : Int := 0x0101010101010101

abbrev phantom : Int := 16843009

theorem memsetTable_key (byte : BitVec 8) (j : Nat) :
    (memsetTable byte j).key = Int.bmod (repeated byte.toNat 8) (2 ^ 64) := by
  rw [memsetTable]

theorem setupBuffers_key (j : Nat) : (setupBuffers j).key = fillKey := by
  rw [setupBuffers, memsetTable_key]
  decide

theorem initTable_key (j : Nat) : (initTable j).key = 0 := by
  rw [initTable, memsetTable_key]
  decide

theorem not_inRange_fillKey : ¬ InRange fillKey := by
  decide

/-- The keys the table is made for, and the bytes it is filled with. -/
structure TableOk (t : Table) : Prop where
  readable : Readable t
  positioned : Positioned 0 t
  distinct : Distinct t

theorem tableOk_setupBuffers : TableOk setupBuffers where
  readable := fun j _ => by rw [setupBuffers_key]; decide
  positioned := fun j _ h => absurd h (by rw [setupBuffers_key]; exact not_inRange_fillKey)
  distinct := fun i j h _ => absurd h (by rw [setupBuffers_key]; exact not_inRange_fillKey)

theorem not_found_setupBuffers (key : Int) (h : InRange key) : ¬ Found setupBuffers key := by
  intro h
  rcases h with ⟨i, _, hk⟩
  rw [setupBuffers_key] at hk
  exact not_inRange_fillKey (hk ▸ h)

/-- A request leaves no key in two buckets, and what it drops in none. -/
theorem request_drops (t t' : Table) (r : Request) (h : TableOk t)
    (ht : place t r.val 1 0 3 = some t') : Distinct t' ∧
      ∀ a, InRange a → unpositioned t r.val 1 0 3 = some a → ¬ Found t' a := by
  have h32 := toInt32_of_inRange r.val r.property
  refine place_drops 1 3 t t' r.val 0 h.readable h.positioned h.distinct ?_ (by decide) ?_ ?_
  · rw [h32]
    exact r.property
  · exact fun h3 => absurd h3 (by decide)
  · rw [h32]
    exact ht

theorem inRange_replied (ks : List Int) (r : Request) (h : ∀ k ∈ ks, InRange k) :
    ∀ k ∈ ks ++ [r.val], InRange k := by
  intro k hk
  rcases List.mem_append.mp hk with hk | hk
  · exact h k hk
  · rw [List.mem_singleton.mp hk]
    exact r.property

/-- A request is handled inside the table, whatever the requests before it. -/
theorem serveStep_spec (s : Table × List Int) (r : Request) (h : TableOk s.1) :
    ∃ t, place s.1 r.val 1 0 3 = some t ∧ serveStep s r = some (t, s.2 ++ [r.val]) ∧
      TableOk t := by
  rcases place_positioned 0 s.1 r.val 1 0 3 h.readable h.positioned r.property (by decide) with
    ⟨t, ht, hread, hpos⟩
  exact ⟨t, ht, by rw [serveStep, ht], hread, hpos, (request_drops s.1 t r h ht).1⟩

/-! ## Keys replied to -/

/-- Every key replied to is found. -/
def RepliedFound (s : Table × List Int) : Prop :=
  ∀ k ∈ s.2, lookup s.1 k ≠ some (-1)

/-- The chain of evictions the request sets off is not cut off with a key in
    hand that is replied to, before or for this request. -/
def keepsReplied (s : Table × List Int) (r : Request) : Prop :=
  ∀ k ∈ s.2 ++ [r.val], unpositioned s.1 r.val 1 0 3 ≠ some k

/-- Four keys with one hash value: the fourth evicts the third, the third the
    second, the second the first, and there it ends. -/
theorem serve_loses_key : ∃ s, run serveStep
    [⟨0, by decide⟩, ⟨2500000, by decide⟩, ⟨5000000, by decide⟩, ⟨7500000, by decide⟩]
      serverStart = some s ∧ 0 ∈ s.2 ∧ lookup s.1 0 = some (-1) := by
  have hres : (run serveStep
      [⟨0, by decide⟩, ⟨2500000, by decide⟩, ⟨5000000, by decide⟩, ⟨7500000, by decide⟩]
        serverStart).map (fun s => (decide (0 ∈ s.2), lookup s.1 0)) =
          some (true, some (-1)) := by
    decide +kernel
  rcases Option.map_eq_some_iff.mp hres with ⟨s, hrun, hs⟩
  rw [Prod.mk.injEq, decide_eq_true_eq] at hs
  exact ⟨s, hrun, hs⟩

/-- The keys replied to are found in every state of a run just when no request
    of it cuts one of them off. -/
theorem replied_found_iff (rs : List Request) :
    Throughout serveStep RepliedFound rs serverStart ↔
      Along serveStep keepsReplied rs serverStart := by
  refine throughout_iff_along serveStep keepsReplied
    (fun s => TableOk s.1 ∧ ∀ k ∈ s.2, InRange k) RepliedFound ?_ rs serverStart
    ⟨tableOk_setupBuffers, fun k hk => absurd hk List.not_mem_nil⟩
    (fun k hk => absurd hk List.not_mem_nil)
  intro s r hs hfound
  rcases hs with ⟨hok, hin⟩
  rcases serveStep_spec s r hok with ⟨t, ht, hstep, hok'⟩
  have hin' := inRange_replied s.2 r hin
  refine ⟨_, hstep, ⟨hok', hin'⟩, ?_, ?_⟩
  · -- A key that was cut off is found no more, so none of them was.
    intro hf k hk hu
    exact (request_drops s.1 t r hok ht).2 k (hin' k hk) hu
      ((lookup_ne_iff t k (hin' k hk)).mp (hf k hk))
  · -- A key that was not cut off is stored where it was, or where the chain put it.
    intro hkeep k hk
    have h32 := toInt32_of_inRange r.val r.property
    rw [lookup_ne_iff t k (hin' k hk)]
    have hfk : Found s.1 k ∨ r.val = k := by
      rcases List.mem_append.mp hk with hk' | hk'
      · exact Or.inl ((lookup_ne_iff s.1 k (hin k hk')).mp (hfound k hk'))
      · exact Or.inr (List.mem_singleton.mp hk').symm
    rcases place_keeps 1 k (hin' k hk) 3 s.1 t r.val 0 hok.readable
      (by rw [h32]; exact r.property) (by decide) hfk (by rw [h32]; exact ht) with hft | hu
    · exact hft
    · exact absurd hu (hkeep k hk)

/-! ## Keys nobody asked for -/

/-- Only keys of requests are found. -/
def NoPhantom (s : Table × List Int) : Prop :=
  ∀ k, InRange k → lookup s.1 k ≠ some (-1) → k ∈ s.2

/-- One request is enough for the fill to be found. -/
theorem serve_stores_phantom : ∃ s, run serveStep [⟨5, by decide⟩] serverStart = some s ∧
    s.2 = [5] ∧ lookup s.1 phantom = some 1843009 := by
  have hres : (run serveStep [⟨5, by decide⟩] serverStart).map
      (fun s => (s.2, lookup s.1 phantom)) = some ([5], some 1843009) := by
    decide +kernel
  rcases Option.map_eq_some_iff.mp hres with ⟨s, hrun, hs⟩
  rw [Prod.mk.injEq] at hs
  exact ⟨s, hrun, hs⟩

/-- The first request stores its key, and what the fill narrows to. -/
theorem serve_first (r : Request) (hr : r.val ≠ phantom) :
    ∃ t, serveStep serverStart r = some (t, [r.val]) ∧ Found t phantom := by
  have hfill : toInt32 fillKey = phantom := by decide
  have hin : InRange phantom := by decide
  have hne : ∀ k, InRange k → fillKey ≠ k := fun k hk he => not_inRange_fillKey (he ▸ hk)
  have h1 := place_evict setupBuffers r.val 1 0 2 (indexable_of_inRange _ r.property) (by decide)
    (not_found_setupBuffers r.val r.property) (by rw [setupBuffers_key]; decide)
  rw [setupBuffers_key, hfill] at h1
  -- The second call stores the phantom, and the third finds it.
  have hf : ¬ Found (Function.update setupBuffers (slot 0 r.val) (evicted r.val 1)) phantom := by
    intro h
    rcases h with ⟨i, _, hk⟩
    by_cases hs : slot i phantom = slot 0 r.val
    · rw [hs, Function.update_self] at hk
      exact hr hk
    · rw [Function.update_of_ne hs, setupBuffers_key] at hk
      exact hne phantom hin hk
  -- The first bucket of one key is not the second bucket of the other.
  have hb : Function.update setupBuffers (slot 0 r.val) (evicted r.val 1) (slot 1 phantom) =
      setupBuffers (slot 1 phantom) := by
    refine Function.update_of_ne ?_ _ _
    have h0 := (slot_eq 0 r.val r.property (by decide)).1
    have h1 := (slot_eq 1 phantom hin (by decide)).1
    have hmod : phantom % (maxn : Int) = 1843009 := by decide
    rw [hmod] at h1
    simp only [maxn] at h0 h1
    omega
  have h2 := place_evict _ phantom 1 1 1 (indexable_of_inRange _ hin) (by decide) hf
    (by rw [hb, setupBuffers_key]; decide)
  rw [hb, setupBuffers_key, hfill] at h2
  have hfound : Found (Function.update (Function.update setupBuffers (slot 0 r.val)
      (evicted r.val 1)) (slot 1 phantom) (evicted phantom 1)) phantom :=
    found_put _ 1 phantom (evicted phantom 1) (by decide) rfl
  have h3 := place_found _ phantom 1 2 0 (indexable_of_inRange _ hin) hfound
  have hserve : place serverStart.1 r.val 1 0 3 = _ := h1.trans (h2.trans h3)
  exact ⟨_, by rw [serveStep, hserve]; rfl, hfound⟩

/-- The table holds keys of requests and bytes of the fill, and the fill narrows
    to a key of a request. -/
structure Requested (s : Table × List Int) : Prop where
  keys : ∀ j, (s.1 j).key = fillKey ∨ (s.1 j).key ∈ s.2
  phantom_mem : phantom ∈ s.2
  inRange : ∀ k ∈ s.2, InRange k

theorem noPhantom_of_requested (s : Table × List Int) (h : Requested s) : NoPhantom s := by
  intro k hk hl
  rcases (lookup_ne_iff s.1 k hk).mp hl with ⟨i, _, hik⟩
  rcases h.keys (slot i k) with hfill | hmem
  · exact absurd (hfill.symm.trans hik) (fun he => not_inRange_fillKey (he ▸ hk))
  · rw [← hik]
    exact hmem

/-- Requests keep it so, once the phantom has been asked for. -/
theorem requested_serveStep (s : Table × List Int) (r : Request)
    (hkeys : ∀ j, (s.1 j).key = fillKey ∨ (s.1 j).key ∈ s.2)
    (hmem : phantom ∈ s.2 ++ [r.val]) (hin : ∀ k ∈ s.2, InRange k) :
    ∃ s', serveStep s r = some s' ∧ Requested s' := by
  have hin' := inRange_replied s.2 r hin
  -- The chain takes up keys of requests, and the phantom, which is one.
  have htake : ∀ (t : Table) j, (∀ j, (t j).key = fillKey ∨ (t j).key ∈ s.2 ++ [r.val]) →
      (t j).key ≠ intMin → toInt32 (t j).key ∈ s.2 ++ [r.val] := by
    intro t j h _
    rcases h j with hfill | hk
    · rw [hfill]
      exact hmem
    · rw [toInt32_of_inRange _ (hin' _ hk)]
      exact hk
  rcases place_invariant (fun k => k ∈ s.2 ++ [r.val])
    (fun t => ∀ j, (t j).key = fillKey ∨ (t j).key ∈ s.2 ++ [r.val])
    (fun k hk => indexable_of_inRange k (hin' k hk)) htake
    (fun t i k b h _ hk hb => keys_put (fun a => a = fillKey ∨ a ∈ s.2 ++ [r.val]) t (slot i k) b h
      (Or.inr (by rw [hb]; exact hk)))
    1 3 s.1 r.val 0 (fun j => (hkeys j).imp_right fun h => List.mem_append_left _ h)
    (List.mem_append_right _ (List.mem_singleton_self _)) (by decide) with ⟨t, ht, hkeys'⟩
  exact ⟨_, by rw [serveStep, ht], hkeys', hmem, hin'⟩

/-- Only keys of requests are found in every state of a run just when its first
    request, if any, is for the phantom. -/
theorem no_phantom_iff (rs : List Request) :
    Throughout serveStep NoPhantom rs serverStart ↔ ∀ r ∈ rs.head?, r.val = phantom := by
  have hstart : NoPhantom serverStart := fun k hk hl =>
    absurd ((lookup_ne_iff _ k hk).mp hl) (not_found_setupBuffers k hk)
  cases rs with
  | nil =>
      refine iff_of_true hstart fun r hr => ?_
      exact absurd hr (by simp only [List.head?_nil, Option.mem_def, reduceCtorEq,
        not_false_eq_true])
  | cons r rs =>
      have hhead : (∀ r' ∈ (r :: rs).head?, r'.val = phantom) ↔ r.val = phantom := by
        simp only [List.head?_cons, Option.mem_def, Option.some.injEq, forall_eq']
      rw [hhead]
      constructor
      · -- After another first request the phantom is found and not among the requests.
        intro hthru
        by_contra hr
        rcases serve_first r hr with ⟨t, ht, hfound⟩
        have hno := throughout_head serveStep NoPhantom rs _
          ((throughout_cons serveStep NoPhantom r rs _ _ ht).mp hthru).2
        have hmem := hno phantom (by decide)
          ((lookup_ne_iff t phantom (by decide)).mpr hfound)
        exact hr (List.mem_singleton.mp hmem).symm
      · intro hr
        rcases requested_serveStep serverStart r (fun j => Or.inl (setupBuffers_key j))
          (List.mem_singleton.mpr hr.symm) (fun k hk => absurd hk List.not_mem_nil) with
          ⟨s, hs, hreq⟩
        refine (throughout_cons serveStep NoPhantom r rs _ s hs).mpr ⟨hstart, ?_⟩
        exact throughout_of_invariant serveStep Requested NoPhantom
          (fun s r h => requested_serveStep s r h.keys
            (List.mem_append_left _ h.phantom_mem) h.inRange)
          noPhantom_of_requested rs s hreq

/-! ## The client's read -/

/-- A call of `place`. -/
structure PlaceCall where
  key : Request
  value : Int
  tableID : Fin ver
  limit : Nat

def placeStep (t : Table) (c : PlaceCall) : Option Table :=
  place t c.key.val c.value c.tableID.val c.limit

/-- The bucket a client reads for a key, at `key * sizeof(fix_cucko_bucket)` from
    the start of the array, lies in the array and holds the key. -/
def ProbeOk (t : Table) (key : Int) : Prop :=
  (bucket? t key).map Bucket.key = some key

instance (t : Table) (key : Int) : Decidable (ProbeOk t key) :=
  inferInstanceAs (Decidable (_ = _))

/-- The second key of a residue takes the bucket the first is read from. -/
theorem probe_misses : ∃ t, run placeStep
    [⟨⟨0, by decide⟩, 1, 0, 3⟩, ⟨⟨2500000, by decide⟩, 1, 0, 3⟩] setupBuffers = some t ∧
      lookup t 0 = some 0 ∧ ¬ ProbeOk t 0 := by
  have hres : (run placeStep
      [⟨⟨0, by decide⟩, 1, 0, 3⟩, ⟨⟨2500000, by decide⟩, 1, 0, 3⟩] setupBuffers).map
        (fun t => (lookup t 0, decide (ProbeOk t 0))) = some (some 0, false) := by
    decide +kernel
  rcases Option.map_eq_some_iff.mp hres with ⟨t, hrun, ht⟩
  rw [Prod.mk.injEq, decide_eq_false_iff_not] at ht
  exact ⟨t, hrun, ht⟩

theorem placeStep_positioned (lo : Int) (t : Table) (c : PlaceCall)
    (h : Readable t ∧ Positioned lo t) :
    ∃ t', placeStep t c = some t' ∧ Readable t' ∧ Positioned lo t' :=
  place_positioned lo t c.key.val c.value c.tableID.val c.limit h.1 h.2 c.key.property
    c.tableID.isLt

/-- A key's number is one of its positions only in the first table. -/
theorem key_eq_slot_iff (key : Int) (h : InRange key) :
    (∃ i, i < ver ∧ key.toNat = slot i key) ↔ key < maxn := by
  constructor
  · intro h
    rcases h with ⟨i, hi, hs⟩
    have hslot := (slot_eq i key h hi).1
    -- The start of a table is a multiple of `MAXN` for the first table only.
    rw [← hs, Int.toNat_of_nonneg h.1] at hslot
    simp only [ver, maxn] at hi hslot ⊢
    have hi3 : i = 0 ∨ i = 1 ∨ i = 2 := by omega
    rcases hi3 with rfl | rfl | rfl <;> omega
  · intro hlt
    have hslot := (slot_eq 0 key h (by decide)).1
    have h0 := h.1
    refine ⟨0, by decide, ?_⟩
    simp only [maxn] at hlt hslot
    omega

theorem probeOk_iff (t : Table) (k : Request) (hpos : Positioned 1 t) :
    ProbeOk t k.val ↔ k.val < maxn ∧ (t (slot 0 k.val)).key = k.val := by
  have hk := k.property
  have hpos0 : k.val < maxn → slot 0 k.val = k.val.toNat := by
    intro hlt
    have hslot := (slot_eq 0 k.val hk (by decide)).1
    have h0 := hk.1
    simp only [maxn] at hlt hslot
    omega
  constructor
  · intro hprobe
    have hb : 0 ≤ k.val ∧ k.val < ver * maxn := by
      by_contra hb
      rw [ProbeOk, bucket?, if_neg hb] at hprobe
      exact absurd hprobe (by simp only [Option.map_none, reduceCtorEq, not_false_eq_true])
    rw [ProbeOk, bucket?, if_pos hb, Option.map_some, Option.some.injEq] at hprobe
    have hlt : k.val < maxn := by
      by_contra hge
      -- A key this large holds no bucket with its own number.
      rcases hpos k.val.toNat (by rw [hprobe]; simp only [maxn] at hge; omega)
        (by rw [hprobe]; exact hk) with ⟨i, hi, hs⟩
      rw [hprobe] at hs
      exact hge ((key_eq_slot_iff k.val hk).mp ⟨i, hi, hs⟩)
    exact ⟨hlt, by rw [hpos0 hlt]; exact hprobe⟩
  · intro h
    rcases h with ⟨hlt, hkey⟩
    have hb : 0 ≤ k.val ∧ k.val < ver * maxn :=
      ⟨hk.1, by simp only [ver, maxn] at hlt ⊢; omega⟩
    rw [ProbeOk, bucket?, if_pos hb, Option.map_some, Option.some.injEq, ← hpos0 hlt]
    exact hkey

/-- After any calls of `place` a client's read finds its key just when the key
    is below `MAXN` and in its bucket of the first table, and it is then the
    bucket at one of the key's positions. -/
theorem probe_iff (t₀ : Table) (h₀ : t₀ = setupBuffers ∨ t₀ = initTable) (cs : List PlaceCall) :
    ∃ t, run placeStep cs t₀ = some t ∧ ∀ k : Request,
      (ProbeOk t k.val ↔ k.val < maxn ∧ (t (slot 0 k.val)).key = k.val) ∧
      (ProbeOk t k.val → ∃ i, i < ver ∧ k.val.toNat = slot i k.val) := by
  have hstart : Readable t₀ ∧ Positioned 1 t₀ := by
    rcases h₀ with rfl | rfl
    · refine ⟨tableOk_setupBuffers.readable, fun j _ h => absurd h ?_⟩
      rw [setupBuffers_key]
      exact not_inRange_fillKey
    · refine ⟨fun j _ => by rw [initTable_key]; decide, fun j h _ => absurd h ?_⟩
      rw [initTable_key]
      decide
  rcases run_of_along placeStep (fun _ _ => True) (fun t => Readable t ∧ Positioned 1 t)
    (fun t c h _ => placeStep_positioned 1 t c h) cs t₀ hstart (along_true placeStep cs t₀) with
    ⟨t, hrun, _, hpos⟩
  refine ⟨t, hrun, fun k => ⟨probeOk_iff t k hpos, fun hprobe => ?_⟩⟩
  exact (key_eq_slot_iff k.val k.property).mpr ((probeOk_iff t k hpos).mp hprobe).1

/-- Four keys of one residue in the table `initTable` makes, one of them placed
    in the second table with no limit to speak of. -/
theorem probe_iff_initTable : ∃ t, run placeStep
    [⟨⟨3, by decide⟩, 1, 0, 3⟩, ⟨⟨2500003, by decide⟩, 2, 0, 3⟩, ⟨⟨5000003, by decide⟩, 3, 1, 100⟩,
      ⟨⟨7500003, by decide⟩, 4, 0, 3⟩] initTable = some t ∧ ∀ k : Request,
      (ProbeOk t k.val ↔ k.val < maxn ∧ (t (slot 0 k.val)).key = k.val) ∧
      (ProbeOk t k.val → ∃ i, i < ver ∧ k.val.toNat = slot i k.val) :=
  probe_iff initTable (Or.inr rfl) _

/-! ## Which key is in its first bucket -/

/-- A chain that does not come back to the first table writes there with its
    first call alone, and the buckets before the last of that table belong to no
    other. -/
theorem place_first (value : Int) (n : Nat) (t : Table) (held : Int) (tableID : Nat)
    (ht : Readable t) (hk : InRange (toInt32 held)) (hid : tableID < ver)
    (hn : tableID + n ≤ ver) (j : Nat) (hj : j < maxn - 1) :
    ∃ t', place t (toInt32 held) value tableID n = some t' ∧ (t' j).key =
      if tableID = 0 ∧ n ≠ 0 ∧ ¬ Found t (toInt32 held) ∧ slot 0 (toInt32 held) = j then
        toInt32 held else (t j).key := by
  -- The other tables begin after the bucket.
  have hslot : ∀ i key, InRange key → i < ver → i ≠ 0 → j ≠ slot i key := by
    intro i key hk hi h0 he
    have hs := (slot_eq i key hk hi).1
    have hmod := Int.emod_nonneg key (by decide : (maxn : Int) ≠ 0)
    simp only [ver, maxn] at hi hj hs hmod
    omega
  have hwrite : ∀ (t : Table) i key b, InRange key → i < ver → b.key = key →
      (Function.update t (slot i key) b j).key =
        if i = 0 ∧ slot 0 key = j then key else (t j).key := by
    intro t i key b hk hi hb
    by_cases h0 : i = 0
    · by_cases hs : slot 0 key = j
      · rw [if_pos ⟨h0, hs⟩, h0, hs, Function.update_self, hb]
      · rw [if_neg (fun h => hs h.2), h0, Function.update_of_ne (Ne.symm hs)]
    · rw [if_neg (fun h => h0 h.1), Function.update_of_ne (hslot i key hk hi h0)]
  have hrule := place_rule chainInvariant_readable value
    (fun t held tableID n t' _ => InRange (toInt32 held) → tableID < ver → tableID + n ≤ ver →
      (t' j).key = if tableID = 0 ∧ n ≠ 0 ∧ ¬ Found t (toInt32 held) ∧
        slot 0 (toInt32 held) = j then toInt32 held else (t j).key)
    ?cut ?found ?empty ?evict n t held tableID ht hk hid
  case cut =>
    intro t held tableID _ _ _ _
    rw [if_neg (fun h => h.2.1 rfl)]
  case found =>
    intro t held tableID n _ _ hf _ _ _
    rw [if_neg (fun h => h.2.2.1 hf)]
  case empty =>
    intro t held tableID n _ hk hid hf _ _ _ _
    rw [hwrite t tableID _ _ hk hid rfl]
    simp only [hf, ne_eq, Nat.add_one_ne_zero, not_false_eq_true, true_and]
  case evict =>
    intro t held tableID n t' _ ht hk hid hf hb hQ _ _ hn
    -- The rest of the chain is in the other tables, or there is none.
    have hlater : ¬ ((tableID + 1) % ver = 0 ∧ n ≠ 0) := by
      simp only [ver] at hid hn ⊢
      omega
    rw [hQ (chainInvariant_readable.take t tableID held ht hk hid hb) (Nat.mod_lt _ (by decide))
        (by simp only [ver] at hid hn ⊢; omega), if_neg (fun h => hlater ⟨h.1, h.2.1⟩),
      hwrite t tableID _ _ hk hid rfl]
    simp only [hf, ne_eq, Nat.add_one_ne_zero, not_false_eq_true, true_and]
  rcases hrule with ⟨t', hplace, _, hQ⟩
  exact ⟨t', hplace, hQ hk hid hn⟩

/-- A request for a key that is not found puts it into its first bucket, and
    leaves all other first buckets alone. -/
theorem serveStep_first (s s' : Table × List Int) (r : Request) (h : TableOk s.1)
    (hs : serveStep s r = some s') (j : Nat) (hj : j < maxn - 1) :
    (s'.1 j).key = if ¬ Found s.1 r.val ∧ slot 0 r.val = j then r.val else (s.1 j).key := by
  have h32 := toInt32_of_inRange r.val r.property
  rcases place_first 1 3 s.1 r.val 0 h.readable (by rw [h32]; exact r.property) (by decide)
    (by decide) j hj with ⟨t, ht, hkey⟩
  rw [h32] at ht hkey
  simp only [serveStep, ht, Option.some.injEq] at hs
  rw [← hs, hkey]
  simp only [ne_eq, OfNat.ofNat_ne_zero, not_false_eq_true, true_and]

/-- The request is not for a key of its residue, or for one that is found. -/
def leavesFirst (k : Request) (s : Table × List Int) (r : Request) : Prop :=
  slot 0 r.val = slot 0 k.val → Found s.1 r.val

/-- Of the requests for keys of its residue that are not found when they come,
    the last is for the key. -/
def PutLast (k : Request) : List Request → Table × List Int → Prop
  | [], _ => False
  | r :: rs, s => match serveStep s r with
    | none => False
    | some s' => (r = k ∧ ¬ Found s.1 k.val ∧ Along serveStep (leavesFirst k) rs s') ∨
      PutLast k rs s'

/-- From any table the key is in its first bucket after a run if it has been put
    there last, or was there and no request has changed that. -/
theorem putLast_run (k : Request) (hk : slot 0 k.val < maxn - 1) : ∀ (rs : List Request)
    (s : Table × List Int), TableOk s.1 → ∃ s', run serveStep rs s = some s' ∧ TableOk s'.1 ∧
      ((s'.1 (slot 0 k.val)).key = k.val ↔ PutLast k rs s ∨
        ((s.1 (slot 0 k.val)).key = k.val ∧ Along serveStep (leavesFirst k) rs s)) := by
  intro rs
  induction rs with
  | nil =>
      intro s h
      exact ⟨s, rfl, h, ⟨fun hkey => Or.inr ⟨hkey, trivial⟩,
        fun hor => hor.elim False.elim And.left⟩⟩
  | cons r rs ih =>
      intro s h
      rcases serveStep_spec s r h with ⟨t, _, hstep, hok⟩
      rcases ih (t, s.2 ++ [r.val]) hok with ⟨s', hrun, hok', hiff⟩
      refine ⟨s', by rw [run_cons serveStep r rs s _ hstep]; exact hrun, hok', hiff.trans ?_⟩
      rw [PutLast, hstep, along_cons serveStep _ r rs s _ hstep, or_assoc, or_left_comm]
      refine or_congr_right ?_
      have hfirst := serveStep_first s _ r h hstep (slot 0 k.val) hk
      rw [hfirst]
      by_cases hput : ¬ Found s.1 r.val ∧ slot 0 r.val = slot 0 k.val
      · -- The bucket is the request's own now.
        rw [if_pos hput]
        constructor
        · rintro ⟨he, halong⟩
          have hrk : r = k := Subtype.ext he
          exact Or.inl ⟨hrk, hrk ▸ hput.1, halong⟩
        · rintro (⟨hrk, _, halong⟩ | ⟨_, hleave, _⟩)
          · exact ⟨by rw [hrk], halong⟩
          · exact absurd (hleave hput.2) hput.1
      · -- The bucket is as before.
        rw [if_neg hput]
        have hleave : leavesFirst k s r := fun hs => by
          by_contra hf
          exact hput ⟨hf, hs⟩
        constructor
        · rintro ⟨hkey, halong⟩
          exact Or.inr ⟨hkey, hleave, halong⟩
        · rintro (⟨hrk, hf, _⟩ | ⟨hkey, _, halong⟩)
          · exact absurd ⟨hrk ▸ hf, by rw [hrk]⟩ hput
          · exact ⟨hkey, halong⟩

/-- After the requests of a run a client's read finds its key just when that is
    the last of its residue that was put while it was not found. -/
theorem probe_run_iff (k : Request) (hk : k.val < maxn - 1) (rs : List Request) :
    ∃ s, run serveStep rs serverStart = some s ∧
      (ProbeOk s.1 k.val ↔ PutLast k rs serverStart) := by
  have hslot := (slot_eq 0 k.val k.property (by decide)).1
  have h0 := k.property.1
  have hlt : slot 0 k.val < maxn - 1 := by
    simp only [maxn] at hk hslot ⊢
    omega
  rcases putLast_run k hlt rs serverStart tableOk_setupBuffers with ⟨s, hrun, hok, hiff⟩
  refine ⟨s, hrun, ?_⟩
  have hpos : Positioned 1 s.1 := fun j hj hr => hok.positioned j (by omega) hr
  -- Before the first request the bucket holds no key.
  have hstart : (setupBuffers (slot 0 k.val)).key ≠ k.val := by
    rw [setupBuffers_key]
    exact fun he => not_inRange_fillKey (he ▸ k.property)
  rw [probeOk_iff s.1 k hpos, hiff]
  constructor
  · rintro ⟨_, hlast | ⟨hkey, _⟩⟩
    · exact hlast
    · exact absurd hkey hstart
  · intro hlast
    exact ⟨by simp only [maxn] at hk ⊢; omega, Or.inl hlast⟩

end Pilaf

end LocalKeyValue
