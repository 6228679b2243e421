import LocalKeyValue.FaRM.Complete
import LocalKeyValue.FaRM.Writes

/-!
# Keys in Two Buckets

Update, lookup and remove stop at the first bucket that is marked and holds the
key, so they rely on there being no other. An insert does not look whether the
key is stored: it is the caller's part not to insert a key again, and one that
does gets a second marked bucket with it, if there is room.

Nothing else makes one. In runs of any calls with keys that are not negative the
keys stay unique exactly as long as no such insert is made. Two consequences are
followed with it: after a remove the key is found no more, and after an update
no bucket has it with other data. For the second a stale copy that a failed
insert has left behind must not disagree, since an update does not see it.

## Main definitions

* `Call`, `callStep`: A call with a key that is not negative.
* `UniqueMarked`: No key is in two marked buckets.
* `CallOk`: That and its consequences, after a call.
* `fresh`: The condition.
* `looksFirst`: A call of a caller that looks before it inserts.

## Theorems

* `insert_unique_iff`: When an insert keeps the keys unique.
* `exact_call`: Any call returns.
* `callOk_iff`: What a call does to a table with unique keys.
* `along_fresh_of_looksFirst`: A caller that looks first meets the condition.
* `keys_unique_iff`: The keys stay unique in just the runs whose calls all meet
  the condition.
-/

namespace LocalKeyValue

namespace FaRM

open Run

def TableOp.key : TableOp → Int
  | .insert key _ => key
  | .update key _ => key
  | .remove key => key

/-- A call with a key that is not negative. -/
abbrev Call : Type :=
  { op : TableOp // 0 ≤ op.key }

def callStep (ht : HashTable) (c : Call) : Option HashTable :=
  callTable ht c.val

/-- No key is in two buckets that its home marks. -/
def UniqueMarked (ht : HashTable) : Prop :=
  ∀ p q, Marked ht p → Marked ht q → (ht.buckets p).key = (ht.buckets q).key → p = q

theorem uniqueMarked_iff (ht : HashTable) :
    UniqueMarked ht ↔ Cells.KeysUnique (entries ht) := by
  constructor
  · intro h p q k v w hp hq
    rcases (entries_eq_some ht p k v).mp hp with ⟨hmp, hkp, _⟩
    rcases (entries_eq_some ht q k w).mp hq with ⟨hmq, hkq, _⟩
    exact h p q hmp hmq (by rw [hkp, hkq])
  · intro h p q hmp hmq hpq
    refine h p q _ _ (payload (ht.buckets q)) (entries_of_marked ht p hmp) ?_
    rw [entries_of_marked ht q hmq, hpq]

/-- After the call no key is in two marked buckets; a key that a remove has found
    is found no more, and no bucket has the key of an update with other data. -/
def CallOk (ht : HashTable) (c : Call) : Prop :=
  ∀ ht', callStep ht c = some ht' → UniqueMarked ht' ∧ match c.val with
    | .insert _ _ => True
    | .update k v => ∀ p, p < ht'.sz → (ht'.buckets p).key = k → (ht'.buckets p).data = v
    | .remove k => (∃ i, findFrom ht (ht.homeIdx k) k = some (some i)) →
      findFrom ht' (ht'.homeIdx k) k = some none

/-- An insert is of a key that is not stored, or one there is no room for; for an
    update the buckets that hold its key unmarked have its data. -/
def fresh (ht : HashTable) (c : Call) : Prop :=
  match c.val with
  | .insert k _ => (∀ p, Marked ht p → (ht.buckets p).key ≠ k) ∨ ¬ Room ht k
  | .update k v => ∀ p, p < ht.sz → (ht.buckets p).key = k → ¬ Marked ht p →
    (ht.buckets p).data = v
  | .remove _ => True

/-! ## Any call returns -/

theorem exact_insert (ht : HashTable) (E : Nat → Prop) (hE : Exact ht E) (k d : Int) (hk : 0 ≤ k) :
    ∃ ht' r, hopscotchInsert ht k d = some (ht', r) ∧ ∃ E', Exact ht' E' := by
  rcases insert_tracks ht k E hE d hk with ⟨hrun, _⟩ | ⟨t, q, hq, ⟨hrun, h6⟩ | ⟨hrun, _, _⟩⟩
  · exact ⟨ht, -1, hrun, E, hE⟩
  · have hqt : q < t.sz := by rw [hq.sz]; exact hq.inArray
    exact ⟨_, 0, hrun, E, exact_store t q k d E hq.exact hk hq.le h6 hqt hq.hole⟩
  · exact ⟨t, -1, hrun, _, hq.exact⟩

/-- A search whose bits stay inside the array comes to an end. -/
theorem findBucket_inside (ht : HashTable) (idx : Nat) (key : Int) : ∀ (n i : Nat),
    (∀ b, i ≤ b → b < i + n → bit ht idx b = true → idx + b < ht.sz) →
      ∃ r, findBucket ht idx key n i = some r := by
  intro n
  induction n with
  | zero => intro i _; exact ⟨none, rfl⟩
  | succ n ih =>
      intro i hin
      rcases ih (i + 1) (fun b h1 h2 => hin b (by omega) (by omega)) with ⟨r, hr⟩
      rw [findBucket, hr]
      by_cases hbit : (ht.buckets idx).hopinfo.getLsbD i = true
      · rw [if_pos hbit, HashTable.bucket?, if_pos (hin i (Nat.le_refl i) (by omega) hbit)]
        by_cases hk : key = (ht.buckets (idx + i)).key
        · exact ⟨some i, if_pos hk⟩
        · exact ⟨r, if_neg hk⟩
      · exact ⟨r, if_neg hbit⟩

/-- So does any search of an exact table. -/
theorem findFrom_exact (ht : HashTable) (E : Nat → Prop) (hE : Exact ht E) (k : Int) (hk : 0 ≤ k) :
    ∃ r, findFrom ht (ht.homeIdx k) k = some r := by
  have hlt := home_lt_sz ht hE.exponent k
  rw [homeIdx_eq ht k hk, findFrom, HashTable.bucket?, if_pos hlt]
  simp only
  by_cases h0 : (ht.buckets (home k)).hopinfo = 0
  · exact ⟨none, if_pos h0⟩
  · rw [if_neg h0]
    exact findBucket_inside ht (home k) k _ 0 (fun b _ _ hb => (hE.bits (home k) b hlt hb).2.1)

/-- Every call of a run returns, and leaves the bits true. -/
theorem exact_call (ht : HashTable) (c : Call) (h : ∃ E, Exact ht E) :
    ∃ ht', callStep ht c = some ht' ∧ ∃ E, Exact ht' E := by
  rcases h with ⟨E, hE⟩
  rcases c with ⟨op, hk⟩
  cases op with
  | insert k d =>
      rcases exact_insert ht E hE k d hk with ⟨ht', r, hrun, hE'⟩
      exact ⟨ht', by rw [callStep, callTable, hrun]; rfl, hE'⟩
  | update k d =>
      rcases findFrom_exact ht E hE k hk with ⟨r, hr⟩
      rw [callStep, callTable, hopscotchUpdate, hr]
      cases r with
      | none => exact ⟨ht, rfl, E, hE⟩
      | some i => exact ⟨_, rfl, E, exact_updated ht _ d E hE⟩
  | remove k =>
      have hlt := home_lt_sz ht hE.exponent k
      rcases findFrom_exact ht E hE k hk with ⟨r, hr⟩
      rw [callStep, callTable, hopscotchRemove_eq ht k (by rw [homeIdx_eq ht k hk]; exact hlt), hr]
      cases r with
      | none => exact ⟨ht, rfl, E, hE⟩
      | some i =>
          rcases findFrom_sound ht _ k i hr with ⟨h6, _, _, hkey⟩
          exact ⟨_, rfl, E, exact_removed ht _ i E hE h6 (by rw [hkey, homeIdx_eq ht k hk])⟩

/-! ## One call -/

/-- An insert keeps the keys unique just when its key is not stored or there is
    no room for it. -/
theorem insert_unique_iff (ht ht' : HashTable) (E : Nat → Prop) (hE : Exact ht E)
    (hu : Cells.KeysUnique (entries ht)) (k d r : Int) (hk : 0 ≤ k)
    (hrun : hopscotchInsert ht k d = some (ht', r)) :
    Cells.KeysUnique (entries ht') ↔ ¬ Cells.Present (entries ht) k ∨ ¬ Room ht k := by
  rcases insert_room ht k E hE d hk with ⟨t, s, hts, _, hroom⟩
  rw [hrun, Option.some.injEq, Prod.mk.injEq] at hts
  rcases hts with ⟨rfl, rfl⟩
  rw [← hroom]
  have hidx := homeIdx_eq ht k hk
  cases hfe : firstEmpty ht (ht.sz - home k) (home k) with
  | none =>
      rw [insert_full ht k d _ hidx hfe, Option.some.injEq, Prod.mk.injEq] at hrun
      rw [← hrun.1, ← hrun.2]
      exact iff_of_true hu (Or.inr (by decide))
  | some i =>
      rcases firstEmpty_spec ht _ _ i hfe with ⟨hle, hlt, hempty⟩
      rcases displace_moves (hopInvariant_exact (home k) E) ht i hu
        (exactHole_start ht E hE (home k) i hfe) (by omega) hle (entries_of_empty ht i hempty) with
        ⟨ht1, q, hdisp, _, hu1, hh1, _, i', _, h1, hsz', hhole', hend⟩
      rcases hend with ⟨rfl, h6⟩ | ⟨rfl, _, _⟩
      · rw [insert_stored ht k d _ hidx ht1 i i' hfe hdisp, Option.some.injEq,
          Prod.mk.injEq] at hrun
        rw [← hrun.1, ← hrun.2, entries_store ht1 (home k) i' k d hk rfl h1 h6 hsz']
        constructor
        · intro hu'
          -- Wherever the key was stored before, it is there besides.
          refine Or.inl (fun hp => ?_)
          rcases hp with ⟨v, hv⟩
          rcases (hh1 k v).mpr hv with ⟨p, hp⟩
          have hne : p ≠ i' := fun he => by
            rw [he, hhole'] at hp
            exact absurd hp (by simp only [reduceCtorEq, not_false_eq_true])
          refine hne (hu' p i' k v _ ?_ (Function.update_self ..))
          rw [Function.update_of_ne hne]
          exact hp
        · intro hcond
          refine Cells.keysUnique_put _ hu1 i' k _ (fun hp => ?_)
          rcases hp with ⟨v, hv⟩
          exact hcond.elim (fun hn => hn ⟨v, (hh1 k v).mp hv⟩) (fun hn => hn rfl)
      · rw [insert_stuck ht k d _ hidx ht1 i hfe hdisp, Option.some.injEq, Prod.mk.injEq] at hrun
        rw [← hrun.1, ← hrun.2]
        exact iff_of_true hu1 (Or.inr (by decide))

/-- The key is stored if some marked bucket holds it. -/
theorem present_iff (ht : HashTable) (k : Int) :
    Cells.Present (entries ht) k ↔ ∃ p, Marked ht p ∧ (ht.buckets p).key = k := by
  constructor
  · intro h
    rcases h with ⟨v, p, hp⟩
    rcases (entries_eq_some ht p k v).mp hp with ⟨hm, hkey, _⟩
    exact ⟨p, hm, hkey⟩
  · intro h
    rcases h with ⟨p, hm, hkey⟩
    exact ⟨_, p, by rw [entries_of_marked ht p hm, hkey]⟩

/-- An update leaves the key with its data alone just when the buckets it does
    not see agree. -/
theorem update_agrees_iff (ht ht' : HashTable) (E : Nat → Prop) (hE : Exact ht E)
    (hu : Cells.KeysUnique (entries ht)) (k d r : Int) (hk : 0 ≤ k)
    (hrun : hopscotchUpdate ht k d = some (ht', r)) :
    Cells.KeysUnique (entries ht') ∧
      ((∀ p, p < ht'.sz → (ht'.buckets p).key = k → (ht'.buckets p).data = d) ↔
        ∀ p, p < ht.sz → (ht.buckets p).key = k → ¬ Marked ht p → (ht.buckets p).data = d) := by
  by_cases hp : Cells.Present (entries ht) k
  · rcases hp with ⟨v, p, hpv⟩
    have hm := (entries_eq_some ht p k v).mp hpv
    rw [update_entry ht hu p k v d hpv, Option.some.injEq, Prod.mk.injEq] at hrun
    rw [← hrun.1, setBucket_sz]
    constructor
    · rw [entries_updated ht p d hm.1]
      exact Cells.keysUnique_set _ hu p _ _ _ (entries_of_marked ht p hm.1)
    · constructor
      · intro hall q hq hkey hnm
        have hqp : q ≠ p := fun he => hnm (he ▸ hm.1)
        have hq' := hall q hq
        rw [setBucket_other ht p _ q hqp] at hq'
        exact hq' hkey
      · intro hall q hq hkey
        by_cases hqp : q = p
        · rw [hqp, setBucket_self]
          rfl
        · -- Another bucket with the key is not marked.
          rw [setBucket_other ht p _ q hqp] at hkey ⊢
          refine hall q hq hkey (fun hmq => hqp ?_)
          exact (uniqueMarked_iff ht).mpr hu q p hmq hm.1 (by rw [hkey, hm.2.1])
  · rw [update_miss ht k d hk hp (searchInside_of_exact ht E hE k hk), Option.some.injEq,
      Prod.mk.injEq] at hrun
    rw [← hrun.1]
    refine ⟨hu, ?_⟩
    constructor
    · intro hall p hp hkey _
      exact hall p hp hkey
    · intro hall q hq hkey
      exact hall q hq hkey (fun hmq => hp ((present_iff ht k).mpr ⟨q, hmq, hkey⟩))

/-- A key that is removed is not found after. -/
theorem remove_unfinds (ht ht' : HashTable) (E : Nat → Prop) (hE : Exact ht E)
    (hE' : ∃ E', Exact ht' E') (hu : Cells.KeysUnique (entries ht)) (k r : Int) (hk : 0 ≤ k)
    (hrun : hopscotchRemove ht k = some (ht', r)) :
    Cells.KeysUnique (entries ht') ∧ ((∃ i, findFrom ht (ht.homeIdx k) k = some (some i)) →
      findFrom ht' (ht'.homeIdx k) k = some none) := by
  by_cases hp : Cells.Present (entries ht) k
  · rcases hp with ⟨v, p, hpv⟩
    rcases remove_entry ht hu p k v hpv with ⟨hrun', hent⟩
    rw [hrun', Option.some.injEq, Prod.mk.injEq] at hrun
    rw [hrun.1] at hent
    refine ⟨by rw [hent]; exact Cells.keysUnique_clear _ hu p, fun _ => ?_⟩
    rcases hE' with ⟨E', hE'⟩
    refine findFrom_absent ht' k hk (fun hp' => ?_) (searchInside_of_exact ht' E' hE' k hk)
    rcases hp' with ⟨w, hw⟩
    rw [hent, Cells.holds_clear _ hu p k v hpv] at hw
    exact hw.1 rfl
  · rcases remove_miss ht k hk hp (searchInside_of_exact ht E hE k hk) with ⟨s, hrun'⟩
    rw [hrun', Option.some.injEq, Prod.mk.injEq] at hrun
    rw [← hrun.1]
    refine ⟨hu, fun hfound => ?_⟩
    rcases hfound with ⟨i, hi⟩
    rw [findFrom_absent ht k hk hp (searchInside_of_exact ht E hE k hk)] at hi
    exact absurd hi (by simp only [Option.some.injEq, reduceCtorEq, not_false_eq_true])

/-- A call does what is asked of it just when it meets the condition. -/
theorem callOk_iff (ht : HashTable) (c : Call) (hE : ∃ E, Exact ht E) (hu : UniqueMarked ht) :
    CallOk ht c ↔ fresh ht c := by
  rcases exact_call ht c hE with ⟨ht', hcall, hE'⟩
  rcases hE with ⟨E, hE⟩
  rw [uniqueMarked_iff] at hu
  have hthis : CallOk ht c ↔ UniqueMarked ht' ∧ match c.val with
      | .insert _ _ => True
      | .update k v => ∀ p, p < ht'.sz → (ht'.buckets p).key = k → (ht'.buckets p).data = v
      | .remove k => (∃ i, findFrom ht (ht.homeIdx k) k = some (some i)) →
        findFrom ht' (ht'.homeIdx k) k = some none := by
    simp only [CallOk, hcall, Option.some.injEq, forall_eq']
  rw [hthis, uniqueMarked_iff]
  rcases c with ⟨op, hk⟩
  cases op with
  | insert k d =>
      rcases Option.map_eq_some_iff.mp hcall with ⟨⟨t, r⟩, hrun, rfl⟩
      simp only [fresh, and_true]
      rw [insert_unique_iff ht t E hE hu k d r hk hrun, present_iff]
      simp only [not_exists, not_and, ne_eq]
  | update k d =>
      rcases Option.map_eq_some_iff.mp hcall with ⟨⟨t, r⟩, hrun, rfl⟩
      rcases update_agrees_iff ht t E hE hu k d r hk hrun with ⟨hu', hiff⟩
      simp only [fresh]
      rw [← hiff]
      exact and_iff_right hu'
  | remove k =>
      rcases Option.map_eq_some_iff.mp hcall with ⟨⟨t, r⟩, hrun, rfl⟩
      exact iff_of_true (remove_unfinds ht t E hE hE' hu k r hk hrun) trivial

/-! ## Callers that look first -/

/-- An insert is of a key the search does not find, and returns 0. -/
def looksFirst (ht : HashTable) (c : Call) : Prop :=
  match c.val with
  | .insert k d => findFrom ht (ht.homeIdx k) k = some none ∧
    (hopscotchInsert ht k d).map Prod.snd = some 0
  | _ => True

instance (ht : HashTable) (c : Call) : Decidable (looksFirst ht c) :=
  match c with
  | ⟨.insert k d, _⟩ => inferInstanceAs (Decidable (findFrom ht (ht.homeIdx k) k = some none ∧
      (hopscotchInsert ht k d).map Prod.snd = some 0))
  | ⟨.update _ _, _⟩ => isTrue trivial
  | ⟨.remove _, _⟩ => isTrue trivial

/-- The table a call leaves is the one its function returns. -/
theorem hopExact_returned (ht' t : HashTable) (r : Int) (f : Option (HashTable × Int))
    (hf : f = some (t, r)) (ht : HopExact t) (hrun : f.map Prod.fst = some ht') :
    HopExact ht' := by
  rw [hf, Option.map_some, Option.some.injEq] at hrun
  exact hrun ▸ ht

/-- On a hop-exact table such a call meets the condition, and the table it leaves
    is hop-exact again. -/
theorem fresh_of_looksFirst (ht : HashTable) (h : HopExact ht) (c : Call) (hc : looksFirst ht c) :
    fresh ht c ∧ ∀ ht', callStep ht c = some ht' → HopExact ht' := by
  rcases (hopExact_iff ht).mp h with ⟨hE, hu⟩
  rcases c with ⟨op, hk⟩
  cases op with
  | insert k d =>
      -- A key that is there would have been found.
      have habs : ¬ Cells.Present (entries ht) k := by
        rintro ⟨v, p, hp⟩
        have hfind := (findFrom_entry ht hu p k v hp).1
        rw [← homeIdx_eq ht k hk, hc.1] at hfind
        exact absurd hfind (by simp only [Option.some.injEq, reduceCtorEq, not_false_eq_true])
      refine ⟨Or.inl (fun p hm hkey => habs ((present_iff ht k).mpr ⟨p, hm, hkey⟩)),
        fun ht' hrun => ?_⟩
      rcases hopExact_insert ht h k d hk ((stored_iff ht hE k).not.mpr habs) with
        ⟨t, r, hins, _, hr⟩
      have hr0 := hc.2
      rw [hins, Option.map_some, Option.some.injEq] at hr0
      exact hopExact_returned ht' _ _ _ hins (hr hr0).1 hrun
  | update k d =>
      -- Every bucket with a key is marked.
      refine ⟨fun p hp hkey hm => absurd (hE.marked p hp not_false (hkey ▸ hk)) hm,
        fun ht' hrun => ?_⟩
      rcases hopExact_update ht h k d hk with ⟨_, p, _, _, hex, hupd⟩ | ⟨_, hupd⟩
      · exact hopExact_returned ht' _ _ _ hupd hex hrun
      · exact hopExact_returned ht' _ _ _ hupd h hrun
  | remove k =>
      refine ⟨trivial, fun ht' hrun => ?_⟩
      by_cases hs : Stored ht k
      · rcases hs with ⟨d, hs⟩
        rcases hopExact_remove ht h k d hs with ⟨_, t, _, _, hrem, hex, _⟩
        exact hopExact_returned ht' _ _ _ hrem hex hrun
      · -- A remove of any other key changes nothing.
        rcases remove_miss ht k hk ((stored_iff ht hE k).not.mp hs)
          (searchInside_of_exact ht _ hE k hk) with ⟨r, hrem⟩
        exact hopExact_returned ht' _ _ _ hrem h hrun

/-- So a caller that looks whether a key is stored before it inserts it, and has
    room for it, never breaks the condition. -/
theorem along_fresh_of_looksFirst (ht : HashTable) (h : HopExact ht) (cs : List Call)
    (hcs : Along callStep looksFirst cs ht) : Along callStep fresh cs ht :=
  along_imp callStep looksFirst fresh HopExact (fun t c ht hc => fresh_of_looksFirst t ht c hc) cs
    ht h hcs

/-! ## Runs -/

/-- Any run of calls from an empty table completes, and all its calls keep the
    keys unique, and do what follows from it, just when each meets the
    condition. -/
theorem keys_unique_iff (ht : HashTable) (h : Vacant ht) (cs : List Call) :
    (∃ ht', run callStep cs ht = some ht') ∧
      (Along callStep CallOk cs ht ↔ Along callStep fresh cs ht) := by
  have hE : ∃ E, Exact ht E := ⟨_, exact_of_vacant ht h⟩
  rcases run_of_along callStep (fun _ _ => True) (fun t => ∃ E, Exact t E)
    (fun t c hE _ => exact_call t c hE) cs ht hE (along_true callStep cs ht) with ⟨u, hrun, _⟩
  refine ⟨⟨u, hrun⟩, ?_⟩
  -- The run against itself: while the calls are right the keys are unique.
  refine along_iff_of_related callStep callStep CallOk fresh
    (fun s t => s = t ∧ (∃ E, Exact s E) ∧ UniqueMarked s) ?_ cs ht u ht
    ⟨rfl, hE, (uniqueMarked_iff ht).mpr (keysUnique_of_vacant ht h)⟩ hrun
  rintro s _ c s' ⟨rfl, hE, hu⟩ hs'
  refine ⟨callOk_iff s c hE hu, fun hok => ⟨s', hs', rfl, ?_, (hok s' hs').1⟩⟩
  rcases exact_call s c hE with ⟨t, ht, hE'⟩
  rw [hs', Option.some.injEq] at ht
  exact ht ▸ hE'

/-- Two keys of home 5, of which one is updated, and the other removed and
    inserted again. -/
def freshCalls : List Call :=
  [⟨.insert 5 7, by decide⟩, ⟨.insert 4194309 8, by decide⟩, ⟨.update 4194309 9, by decide⟩,
    ⟨.remove 5, by decide⟩, ⟨.insert 5 10, by decide⟩]

theorem keys_unique_iff_freshCalls : (∃ ht', run callStep freshCalls emptyTable = some ht') ∧
    Along callStep CallOk freshCalls emptyTable := by
  rcases keys_unique_iff emptyTable vacant_emptyTable freshCalls with ⟨hrun, hiff⟩
  exact ⟨hrun, hiff.mpr (along_fresh_of_looksFirst emptyTable hopExact_emptyTable freshCalls
    (by decide +kernel))⟩

/-- A key inserted twice is found after it has been removed. -/
theorem second_insert_remains : Vacant emptyTable ∧ ∃ u u',
    run callStep [⟨.insert 5 7, by decide⟩, ⟨.insert 5 8, by decide⟩] emptyTable = some u ∧
      (Marked u 5 ∧ Marked u 6 ∧ (u.buckets 5).key = 5 ∧ (u.buckets 6).key = 5) ∧
      callStep u ⟨.remove 5, by decide⟩ = some u' ∧ hopscotchLookup u' 5 = some 8 := by
  have hres : (run callStep [⟨.insert 5 7, by decide⟩, ⟨.insert 5 8, by decide⟩] emptyTable).bind
      (fun u => (callStep u ⟨.remove 5, by decide⟩).map (fun u' =>
        (decide (Marked u 5 ∧ Marked u 6 ∧ (u.buckets 5).key = 5 ∧ (u.buckets 6).key = 5),
          hopscotchLookup u' 5))) = some (true, some 8) := by
    decide +kernel
  rcases Option.bind_eq_some_iff.mp hres with ⟨u, hu, hmap⟩
  rcases Option.map_eq_some_iff.mp hmap with ⟨u', hu', hs⟩
  rw [Prod.mk.injEq, decide_eq_true_eq] at hs
  exact ⟨vacant_emptyTable, u, u', hu, hs.1, hu', hs.2⟩

end FaRM

end LocalKeyValue
