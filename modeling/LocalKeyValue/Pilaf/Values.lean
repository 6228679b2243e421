import LocalKeyValue.Pilaf.Chain
import LocalKeyValue.Pilaf.Serve

/-!
# Values in the Cuckoo Table

What becomes of the values given to `place`. A bucket is written in two ways. A
key that takes the place of another gets the value of the call, whether it is
the call's key or one that was itself displaced; one that comes into an empty
bucket gets nothing, and the bucket's `in_use` and `offset` stay what they were.
A key that is stored already keeps the value it has.

So a run keeps values with their keys only while each call does no harm, which
is settled exactly: a call for a stored key gives the value it has, and one for
a new key moves only keys with that same value, and ends at a bucket that says
already what it is to say.

## Main definitions

* `trail`: The keys a chain moves, and the bucket it ends at.
* `At`: Which bucket a key is in.
* `ValueCall`, `valueStep`: A call, beside the values last given.
* `ValuesFollow`, `valuesKept`: The property and the condition.

## Theorems

* `place_trail`: What a chain leaves in the buckets.
* `values_follow_iff`: Values follow their keys in just the runs whose calls all
  meet the condition.
-/

namespace LocalKeyValue

namespace Pilaf

open CInt Run

/-! ## The trail of a chain -/

/-- The keys a chain puts in the place of others, one after the other, and the
    key it ends with, beside the empty bucket that takes it. -/
structure Trail where
  moved : List Int
  last : Option (Int × Bucket)

/-- The trail of the chain that begins with a key that is not stored. -/
def trail (t : Table) (key value : Int) (tableID : Nat) : Nat → Trail
  | 0 => { moved := [], last := none }
  | n + 1 =>
    if (t (slot tableID key)).key = intMin then
      { moved := [], last := some (key, t (slot tableID key)) }
    else
      let rest := trail (evict t tableID key value) (t (slot tableID key)).key value
        ((tableID + 1) % ver) n
      { rest with moved := key :: rest.moved }

/-- The bucket is one of the array and the one the key is in. -/
def At (t : Table) (key : Int) (b : Bucket) : Prop :=
  ∃ j, j < ver * maxn ∧ t j = b ∧ b.key = key

theorem stored_of_at (t : Table) (key : Int) (b : Bucket) (h : At t key b) : Stored t key := by
  rcases h with ⟨j, hj, hb, hkey⟩
  exact ⟨j, hj, by rw [hb, hkey]⟩

theorem at_of_stored (t : Table) (key : Int) (h : Stored t key) : ∃ b, At t key b := by
  rcases h with ⟨j, hj, hkey⟩
  exact ⟨t j, j, hj, rfl, hkey⟩

/-- A key is in one bucket. -/
theorem at_unique (t : Table) (key : Int) (b b' : Bucket) (ht : Sound t) (hk : InRange key)
    (h : At t key b) (h' : At t key b') : b = b' := by
  rcases h with ⟨i, hi, hb, hkey⟩
  rcases h' with ⟨j, hj, hb', hkey'⟩
  have hij := ht.distinct i j hi hj (by rw [hb, hkey]; exact inRange_ne_intMin key hk)
    (by rw [hb, hb', hkey, hkey'])
  rw [← hb, ← hb', hij]

theorem at_put (t : Table) (i : Nat) (key : Int) (b : Bucket) (hk : InRange key) (hi : i < ver)
    (hb : b.key = key) : At (Function.update t (slot i key) b) key b :=
  ⟨slot i key, slot_lt i key hk hi, Function.update_self _ _ _, hb⟩

/-- A key stays in its bucket unless that is the one written. -/
theorem at_put_of_ne (t : Table) (s : Nat) (a : Int) (b b' : Bucket) (h : At t a b')
    (hne : a ≠ (t s).key) : At (Function.update t s b) a b' := by
  rcases h with ⟨j, hj, hb', hkey⟩
  have hjs : j ≠ s := fun he => hne (by rw [← he, hb', hkey])
  exact ⟨j, hj, by rw [Function.update_of_ne hjs]; exact hb', hkey⟩

/-- What a chain that is not cut off leaves in the buckets: the key it ends with
    is in what was an empty bucket, the others it has moved are in buckets of
    this call, and all the rest are where they were. -/
structure Leaves (t : Table) (value : Int) (tr : Trail) (t' : Table) (key a : Int) (b : Bucket) :
    Prop where
  last : tr.last = some (a, b)
  at_last : At t' a { b with key := a }
  inRange : InRange a
  moved : ∀ c ∈ tr.moved, InRange c ∧ (c ≠ a → At t' c (evicted c value))
  rest : ∀ c b', InRange c → c ≠ a → c ∉ tr.moved → At t c b' → At t' c b'
  first : key ∈ tr.moved ∨ key = a

theorem leaves_empty (t : Table) (key value : Int) (tableID n : Nat) (hk : InRange key)
    (hid : tableID < ver) (hb : (t (slot tableID key)).key = intMin) :
    Leaves t value (trail t key value tableID (n + 1))
      (Function.update t (slot tableID key) { t (slot tableID key) with key := key }) key key
      (t (slot tableID key)) := by
  rw [trail, if_pos hb]
  refine ⟨rfl, at_put t tableID key _ hk hid rfl, hk, fun c hc => absurd hc List.not_mem_nil,
    fun c b' hc _ _ hat => ?_, Or.inr rfl⟩
  exact at_put_of_ne t _ c _ b' hat (by rw [hb]; exact inRange_ne_intMin c hc)

theorem leaves_evict (t t' : Table) (key value : Int) (tableID n : Nat) (a : Int) (b : Bucket)
    (hk : InRange key) (hid : tableID < ver) (hr : InRange (t (slot tableID key)).key)
    (h : Leaves (evict t tableID key value) value
      (trail (evict t tableID key value) (t (slot tableID key)).key value ((tableID + 1) % ver) n)
      t' (t (slot tableID key)).key a b) :
    Leaves t value (trail t key value tableID (n + 1)) t' key a b := by
  rw [trail, if_neg (inRange_ne_intMin _ hr)]
  refine ⟨h.last, h.at_last, h.inRange, fun c hc => ?_, fun c b' hc hne hmoved hat => ?_,
    Or.inl (List.mem_cons_self ..)⟩
  · by_cases hrest : c ∈ (trail (evict t tableID key value) (t (slot tableID key)).key value
        ((tableID + 1) % ver) n).moved
    · exact h.moved c hrest
    · -- Only this call has moved the key, so it is where this call put it.
      have hck : c = key := (List.mem_cons.mp hc).resolve_right hrest
      rw [hck] at hrest ⊢
      exact ⟨hk, fun hne => h.rest key _ hk hne hrest (at_put t tableID key _ hk hid rfl)⟩
  · have hcut := List.not_mem_of_not_mem_cons hmoved
    refine h.rest c b' hc hne hcut (at_put_of_ne t _ c _ b' hat (fun he => ?_))
    -- The key taken out of the bucket is moved by the next call, or the last.
    have hfirst := h.first
    rw [← he] at hfirst hcut
    exact hfirst.elim hcut hne

/-- The chain of a call that is not cut off leaves what its trail says. -/
theorem place_trail (t : Table) (ht : Sound t) (key : Int) (hk : InRange key)
    (hns : ¬ Stored t key) (value : Int) (tableID : Nat) (hid : tableID < ver) (n : Nat)
    (hcut : unpositioned t key value tableID n = none) :
    ∃ t', place t key value tableID n = some t' ∧ Sound t' ∧
      ∃ a b, Leaves t value (trail t key value tableID n) t' key a b := by
  have hrule := chain_rule value
    (fun t key tableID n t' cut => ¬ Stored t key → cut = none →
      ∃ a b, Leaves t value (trail t key value tableID n) t' key a b)
    (fun _ _ _ _ _ hc => absurd hc (by simp only [reduceCtorEq, not_false_eq_true]))
    (fun t key _ _ _ _ hst hns => absurd hst hns)
    (fun t key tableID n _ hk hid _ hb _ _ => ⟨_, _, leaves_empty t key value tableID n hk hid hb⟩)
    ?evict n t key tableID ht hk hid
  case evict =>
    intro t key tableID n t' cut ht hk hid hns hr hQ _ hc
    rcases hQ (not_stored_evict t tableID key value ht hk hid hns hr) hc with ⟨a, b, hleaves⟩
    exact ⟨a, b, leaves_evict t t' key value tableID n a b hk hid hr hleaves⟩
  rcases hrule with ⟨t', hplace, hsound, hleaves⟩
  exact ⟨t', hplace, hsound, hleaves hns hcut⟩

/-! ## Runs of calls -/

/-- A call of `place` with the first table and a value that fits an `int`. -/
structure ValueCall where
  key : Request
  value : { value : Int // InInt32 value }
  limit : Nat

/-- A call, beside the values last given for the keys. -/
def valueStep (s : Table × (Int → Option Int)) (c : ValueCall) :
    Option (Table × (Int → Option Int)) :=
  match place s.1 c.key.val c.value.val 0 c.limit with
  | none => none
  | some t => some (t, Function.update s.2 c.key.val (some c.value.val))

/-- The key's bucket is in use and has the value. -/
def Right (t : Table) (key value : Int) : Prop :=
  ∃ b, At t key b ∧ b.inUse = 1 ∧ b.offset = value

/-- Every key placed has the value last given for it. -/
def ValuesFollow (s : Table × (Int → Option Int)) : Prop :=
  ∀ k v, s.2 k = some v → Right s.1 k v

/-- The call is not cut off. -/
def notCut (s : Table × (Int → Option Int)) (c : ValueCall) : Prop :=
  unpositioned s.1 c.key.val c.value.val 0 c.limit = none

instance (s : Table × (Int → Option Int)) (c : ValueCall) : Decidable (notCut s c) :=
  inferInstanceAs (Decidable (_ = none))

/-- The keys moved have the value of the call, but for the one the chain ends
    with, and the empty bucket for that says it is in use and has that key's
    value. -/
def Trail.kept (tr : Trail) (given : Int → Option Int) (value : Int) : Prop :=
  match tr.last with
  | none => False
  | some (a, b) => (∀ k ∈ tr.moved, k ≠ a → given k = some value) ∧
    b.inUse = 1 ∧ given a = some b.offset

instance (tr : Trail) (given : Int → Option Int) (value : Int) :
    Decidable (tr.kept given value) :=
  match h : tr.last with
  | none => isFalse (by rw [Trail.kept, h]; exact id)
  | some (a, b) =>
    decidable_of_iff ((∀ k ∈ tr.moved, k ≠ a → given k = some value) ∧
      b.inUse = 1 ∧ given a = some b.offset) (by rw [Trail.kept, h])

/-- A call for a stored key gives the value last given, and one for a new key
    sets off a chain that does no harm. -/
def valuesKept (s : Table × (Int → Option Int)) (c : ValueCall) : Prop :=
  if Found s.1 c.key.val then s.2 c.key.val = some c.value.val
  else (trail s.1 c.key.val c.value.val 0 c.limit).kept
    (Function.update s.2 c.key.val (some c.value.val)) c.value.val

instance (s : Table × (Int → Option Int)) (c : ValueCall) : Decidable (valuesKept s c) :=
  inferInstanceAs (Decidable (if Found s.1 c.key.val then s.2 c.key.val = some c.value.val
    else (trail s.1 c.key.val c.value.val 0 c.limit).kept
      (Function.update s.2 c.key.val (some c.value.val)) c.value.val))

/-- What is stored is what has been given a value. -/
structure GivenOk (s : Table × (Int → Option Int)) : Prop where
  sound : Sound s.1
  stored : ∀ k, InRange k → (Stored s.1 k ↔ ∃ v, s.2 k = some v)
  inRange : ∀ k v, s.2 k = some v → InRange k

/-- What a key's bucket says decides whether its value is right. -/
theorem right_iff (t : Table) (ht : Sound t) (key : Int) (hk : InRange key) (b : Bucket)
    (h : At t key b) (value : Int) : Right t key value ↔ b.inUse = 1 ∧ b.offset = value := by
  constructor
  · intro hright
    rcases hright with ⟨b', hat, hfields⟩
    rw [at_unique t key b b' ht hk h hat]
    exact hfields
  · intro hfields
    exact ⟨b, h, hfields⟩

theorem right_evicted (t : Table) (ht : Sound t) (key value v : Int) (hk : InRange key)
    (hv : InInt32 value) (h : At t key (evicted key value)) : Right t key v ↔ v = value := by
  rw [right_iff t ht key hk _ h v]
  simp only [evicted, toInt32_of_inInt32 value hv, true_and]
  exact eq_comm

theorem givenOk_start (t : Table) (h : Bare t) : GivenOk (t, fun _ => none) where
  sound := sound_of_bare t h
  stored := fun k hk => iff_of_false (not_stored_of_bare t k h hk) (fun hv => by
    rcases hv with ⟨v, hv⟩
    exact absurd hv (by simp only [reduceCtorEq, not_false_eq_true]))
  inRange := fun _ _ hv => absurd hv (by simp only [reduceCtorEq, not_false_eq_true])

/-- A call that is not cut off stores its key, with the others. -/
theorem valueStep_spec (s : Table × (Int → Option Int)) (c : ValueCall) (h : GivenOk s)
    (hcut : notCut s c) : ∃ t, place s.1 c.key.val c.value.val 0 c.limit = some t ∧
      valueStep s c = some (t, Function.update s.2 c.key.val (some c.value.val)) ∧
        GivenOk (t, Function.update s.2 c.key.val (some c.value.val)) := by
  have hlimit := limit_ne_zero _ _ _ _ _ hcut
  rcases chain_stored s.1 h.sound c.key.val c.key.property c.value.val 0 (by decide) c.limit
    (fun h0 => absurd h0 hlimit) with ⟨t, ht, hsound, hstored⟩
  rw [show unpositioned s.1 c.key.val c.value.val 0 c.limit = none from hcut] at hstored
  simp only [ne_eq, reduceCtorEq, not_false_eq_true, and_true] at hstored
  refine ⟨t, ht, by rw [valueStep, ht], hsound, fun k hk => ?_, fun k v hv => ?_⟩
  · simp only
    rw [hstored k hk, h.stored k hk]
    by_cases hkc : k = c.key.val
    · rw [hkc, Function.update_self]
      exact iff_of_true (Or.inr rfl) ⟨_, rfl⟩
    · rw [Function.update_of_ne hkc]
      exact or_iff_left hkc
  · by_cases hkc : k = c.key.val
    · rw [hkc]
      exact c.key.property
    · simp only [Function.update_of_ne hkc] at hv
      exact h.inRange k v hv

/-- A call for a stored key changes nothing, so it is to give the value the key
    has. -/
theorem valuesFollow_found (s : Table × (Int → Option Int)) (c : ValueCall) (h : GivenOk s)
    (hP : ValuesFollow s) (hst : Stored s.1 c.key.val) :
    ValuesFollow (s.1, Function.update s.2 c.key.val (some c.value.val)) ↔
      s.2 c.key.val = some c.value.val := by
  rcases (h.stored _ c.key.property).mp hst with ⟨w, hw⟩
  rcases at_of_stored s.1 _ hst with ⟨b, hat⟩
  constructor
  · intro hall
    have hnew := hall c.key.val c.value.val (Function.update_self ..)
    have hold := hP c.key.val w hw
    rw [right_iff s.1 h.sound _ c.key.property b hat] at hnew hold
    rw [hw, ← hold.2, hnew.2]
  · intro he
    rw [← he, Function.update_eq_self]
    exact hP

/-- After a call for a new key all depends on what its chain has left. -/
theorem valuesFollow_leaves (s : Table × (Int → Option Int)) (c : ValueCall)
    (hP : ValuesFollow s) (t : Table) (tr : Trail) (a : Int) (b : Bucket)
    (h' : GivenOk (t, Function.update s.2 c.key.val (some c.value.val)))
    (hleaves : Leaves s.1 c.value.val tr t c.key.val a b) :
    ValuesFollow (t, Function.update s.2 c.key.val (some c.value.val)) ↔
      tr.kept (Function.update s.2 c.key.val (some c.value.val)) c.value.val := by
  simp only [Trail.kept, hleaves.last]
  generalize hg : Function.update s.2 c.key.val (some c.value.val) = given at h' ⊢
  have hlast := right_iff t h'.sound a hleaves.inRange _ hleaves.at_last
  have hgiven : ∀ k b, InRange k → At t k b → ∃ v, given k = some v := fun k b hk hat =>
    (h'.stored k hk).mp (stored_of_at t k b hat)
  constructor
  · intro hall
    refine ⟨fun k hk hne => ?_, ?_⟩
    · rcases hleaves.moved k hk with ⟨hkr, hat⟩
      rcases hgiven k _ hkr (hat hne) with ⟨v, hv⟩
      rw [hv, (right_evicted t h'.sound k _ v hkr c.value.property (hat hne)).mp (hall k v hv)]
    · rcases hgiven a _ hleaves.inRange hleaves.at_last with ⟨v, hv⟩
      rcases (hlast v).mp (hall a v hv) with ⟨huse, hoff⟩
      exact ⟨huse, by rw [hv, ← hoff]⟩
  · rintro ⟨hmoved, huse, hoff⟩ k v hv
    simp only at hv ⊢
    have hkr := h'.inRange k v hv
    by_cases hka : k = a
    · rw [hka, hoff, Option.some.injEq] at hv
      rw [hka]
      exact (hlast v).mpr ⟨huse, hv⟩
    by_cases hk : k ∈ tr.moved
    · rw [hmoved k hk hka, Option.some.injEq] at hv
      rw [right_evicted t h'.sound k _ v hkr c.value.property ((hleaves.moved k hk).2 hka)]
      exact hv.symm
    · -- The key is not the one placed, and is where it was.
      have hkc : k ≠ c.key.val := fun he =>
        hleaves.first.elim (fun hf => hk (he ▸ hf)) (fun hf => hka (he.trans hf))
      rw [← hg, Function.update_of_ne hkc] at hv
      rcases hP k v hv with ⟨b', hat, hfields⟩
      exact ⟨b', hleaves.rest k b' hkr hka hk hat, hfields⟩

/-- From a table with all buckets empty, in a run no call of which is cut off:
    every key placed is, in every state, in a bucket that is in use and has the
    value last given for it, just when every call meets the condition. -/
theorem values_follow_iff (t : Table) (ht : Bare t) (cs : List ValueCall)
    (hcut : Along valueStep notCut cs (t, fun _ => none)) :
    Throughout valueStep ValuesFollow cs (t, fun _ => none) ↔
      Along valueStep valuesKept cs (t, fun _ => none) := by
  refine throughout_iff_along_of valueStep notCut valuesKept GivenOk ValuesFollow ?_ cs _
    (givenOk_start t ht)
    (fun _ _ hv => absurd hv (by simp only [reduceCtorEq, not_false_eq_true])) hcut
  intro s c h hP hcut
  rcases valueStep_spec s c h hcut with ⟨t', ht', hstep, h'⟩
  have hfs := found_iff_stored s.1 c.key.val h.sound c.key.property
  rw [hstep]
  simp only [Option.some.injEq, exists_eq_left', forall_eq']
  refine ⟨?_, fun _ => h'⟩
  unfold valuesKept
  by_cases hst : Stored s.1 c.key.val
  · -- The limit is not 0, or the call would be cut off, so it leaves the table alone.
    rw [if_pos (hfs.mpr hst), ← valuesFollow_found s c h hP hst]
    rcases Nat.exists_eq_succ_of_ne_zero (limit_ne_zero _ _ _ _ _ hcut) with ⟨n, hn⟩
    rw [hn, (call_found s.1 c.key.val c.value.val 0 n c.key.property (hfs.mpr hst)).1,
      Option.some.injEq] at ht'
    rw [ht']
  · rcases place_trail s.1 h.sound c.key.val c.key.property hst c.value.val 0 (by decide) c.limit
      hcut with ⟨t'', ht'', _, a, b, hleaves⟩
    have htt : t'' = t' := by rwa [ht', Option.some.injEq, eq_comm] at ht''
    rw [htt] at hleaves
    rw [if_neg (fun hf => hst (hfs.mp hf))]
    exact valuesFollow_leaves s c hP t' _ a b h' hleaves

/-- No keys, but buckets that say they are in use and have a value. -/
def stampedTable : Table := fun j => { bareTable j with inUse := 1, offset := 7 }

/-- Two keys of one residue, of which the second moves the first, and the first
    again, all with the value the buckets have. -/
theorem values_follow_iff_stampedTable :
    Throughout valueStep ValuesFollow
      [⟨⟨5, by decide⟩, ⟨7, by decide⟩, 3⟩, ⟨⟨2500005, by decide⟩, ⟨7, by decide⟩, 3⟩,
        ⟨⟨5, by decide⟩, ⟨7, by decide⟩, 3⟩] (stampedTable, fun _ => none) :=
  (values_follow_iff stampedTable (fun _ _ => rfl) _ (by decide +kernel)).mpr (by decide +kernel)

/-- A key that comes into an empty bucket does not get its value. -/
theorem place_gives_no_value : Bare bareTable ∧
    Along valueStep notCut [⟨⟨5, by decide⟩, ⟨7, by decide⟩, 3⟩] (bareTable, fun _ => none) ∧
    ¬ Throughout valueStep ValuesFollow [⟨⟨5, by decide⟩, ⟨7, by decide⟩, 3⟩]
      (bareTable, fun _ => none) := by
  refine ⟨bare_bareTable, by decide +kernel, fun h => ?_⟩
  have hempty := (call_empty bareTable 5 7 0 2 (by decide) (by decide)
    (fun hf => not_stored_of_bare bareTable 5 bare_bareTable (by decide)
      ((found_iff_stored bareTable 5 (sound_of_bare _ bare_bareTable) (by decide)).mp hf)) rfl).1
  simp only [Throughout, valueStep, hempty] at h
  rcases h.2 5 7 (by simp only [Function.update_self]) with ⟨b, ⟨j, _, hb, _⟩, huse, _⟩
  simp only at hb
  -- No bucket is in use, the one the key is in included.
  by_cases hj : j = slot 0 5
  · rw [hj, Function.update_self] at hb
    exact absurd huse (by rw [← hb]; decide)
  · rw [Function.update_of_ne hj] at hb
    exact absurd huse (by rw [← hb]; simp only [bareTable]; decide)

end Pilaf

end LocalKeyValue
