import LocalKeyValue.Pilaf.Serve

/-!
# Building the Table

`cuckoo` initialises the table and places an array of keys, each with the number
of keys as limit. It is written for a table with no keys in it, and that is what
`initTable` is to make; but it fills the table with one byte of `INT_MIN`, which
is 0, and what no call of `place` takes for an empty bucket is a bucket with key
0. So key 0 is in the table from the beginning and, unless a chain is cut off
with it, to the end.

Nothing else goes wrong: evictions neither lose a key nor make one up.

## Main definitions

* `cuckoo`: The array of keys, placed in the table `initTable` makes.
* `notCutOff`: A call of it is not cut off.

## Theorems

* `cuckoo_found`: What is found is the keys placed, and 0.
* `cuckoo_built_iff`: Just the keys placed are found if 0 is one of them.
-/

namespace LocalKeyValue

namespace Pilaf

open CInt Run

/-- The loop of `cuckoo`, for the keys and values it has yet to place. -/
def cuckooStep (n : Nat) (t : Table) (item : Int × Int) : Option Table :=
  place t item.1 item.2 0 n

def cuckoo (items : List (Int × Int)) : Option Table :=
  run (cuckooStep items.length) items initTable

/-- The call is not cut off. -/
def notCutOff (n : Nat) (t : Table) (item : Int × Int) : Prop :=
  unpositioned t item.1 item.2 0 n = none

instance (n : Nat) (t : Table) (item : Int × Int) : Decidable (notCutOff n t item) :=
  inferInstanceAs (Decidable (_ = none))

/-- The buckets hold keys of a list, and some of these are found. -/
structure BuiltOf (keys : List Int) (placed : Int → Prop) (t : Table) : Prop where
  keys : ∀ j, (t j).key ∈ keys
  found : ∀ k, placed k → Found t k

theorem builtOf_initTable (keys : List Int) (h0 : 0 ∈ keys) :
    BuiltOf keys (fun k => k = 0) initTable where
  keys := fun j => by rw [initTable_key]; exact h0
  found := fun k hk => ⟨0, by decide, by rw [initTable_key, hk]⟩

/-- A call that is not cut off puts no key into the table but its own, and loses
    none. -/
theorem builtOf_step (keys : List Int) (hkeys : ∀ k ∈ keys, InRange k) (n : Nat)
    (placed : Int → Prop) (hplaced : ∀ k, placed k → k ∈ keys) (t : Table) (item : Int × Int)
    (hitem : item.1 ∈ keys) (h : BuiltOf keys placed t) (hcut : notCutOff n t item) :
    ∃ t', cuckooStep n t item = some t' ∧ BuiltOf keys (fun k => placed k ∨ k = item.1) t' := by
  have hr := hkeys item.1 hitem
  have h32 := toInt32_of_inRange item.1 hr
  have hread : Readable t := fun j _ => by
    rw [toInt32_of_inRange _ (hkeys _ (h.keys j))]
    exact (hkeys _ (h.keys j)).1
  rcases place_invariant (fun k => k ∈ keys) (fun t => ∀ j, (t j).key ∈ keys)
    (fun k hk => indexable_of_inRange k (hkeys k hk))
    (fun t j ht _ => by rw [toInt32_of_inRange _ (hkeys _ (ht j))]; exact ht j)
    (fun t i k b ht _ hk hb => keys_put (fun k => k ∈ keys) t (slot i k) b ht
      (by rw [hb]; exact hk))
    item.2 n t item.1 0 h.keys hitem (by decide) with ⟨t', ht', hkeys'⟩
  refine ⟨t', ht', hkeys', fun k hk => ?_⟩
  have hkr : InRange k := hk.elim (fun hp => hkeys k (hplaced k hp)) (fun he => he ▸ hr)
  rcases place_keeps item.2 k hkr n t t' item.1 0 hread (by rwa [h32]) (by decide)
    (hk.imp (h.found k) Eq.symm) (by rwa [h32]) with hf | hu
  · exact hf
  · rw [show unpositioned t item.1 item.2 0 n = none from hcut] at hu
    exact absurd hu (by simp only [reduceCtorEq, not_false_eq_true])

/-- So does the loop. -/
theorem builtOf_run (keys : List Int) (hkeys : ∀ k ∈ keys, InRange k) (n : Nat) :
    ∀ (items : List (Int × Int)) (placed : Int → Prop) (t : Table),
      (∀ k, placed k → k ∈ keys) → (∀ item ∈ items, item.1 ∈ keys) → BuiltOf keys placed t →
      Along (cuckooStep n) (notCutOff n) items t →
      ∃ t', run (cuckooStep n) items t = some t' ∧
        BuiltOf keys (fun k => placed k ∨ k ∈ items.map Prod.fst) t' := by
  intro items
  induction items with
  | nil =>
      intro placed t _ _ h _
      refine ⟨t, rfl, h.keys, fun k hk => h.found k ?_⟩
      exact hk.resolve_right List.not_mem_nil
  | cons item items ih =>
      intro placed t hplaced hitems h hcut
      have hitem := hitems item (List.mem_cons_self ..)
      rcases builtOf_step keys hkeys n placed hplaced t item hitem h hcut.1 with ⟨t', ht', h'⟩
      have hcut' := ((along_cons _ _ item items t t' ht').mp hcut).2
      rcases ih _ t' (fun k hk => hk.elim (hplaced k) (fun he => he ▸ hitem))
        (fun i hi => hitems i (List.mem_cons_of_mem item hi)) h' hcut' with ⟨u, hu, hbuilt⟩
      refine ⟨u, by rw [run_cons _ item items t t' ht']; exact hu, hbuilt.keys, fun k hk => ?_⟩
      rw [List.map_cons, List.mem_cons, ← or_assoc] at hk
      exact hbuilt.found k hk

/-- If no call is cut off the table ends up with the keys placed, and 0. -/
theorem cuckoo_found (items : List (Int × Int)) (hitems : ∀ item ∈ items, InRange item.1)
    (hcut : Along (cuckooStep items.length) (notCutOff items.length) items initTable) :
    ∃ t, cuckoo items = some t ∧
      ∀ k, InRange k → (lookup t k ≠ some (-1) ↔ k = 0 ∨ k ∈ items.map Prod.fst) := by
  have hkeys : ∀ k ∈ 0 :: items.map Prod.fst, InRange k := by
    intro k hk
    rcases List.mem_cons.mp hk with rfl | hk
    · decide
    · rcases List.mem_map.mp hk with ⟨item, hitem, rfl⟩
      exact hitems item hitem
  have h0 : (0 : Int) ∈ 0 :: items.map Prod.fst := List.mem_cons_self ..
  rcases builtOf_run (0 :: items.map Prod.fst) hkeys items.length items (fun k => k = 0) initTable
    (fun k hk => hk ▸ h0)
    (fun item hitem => List.mem_cons_of_mem 0 (List.mem_map_of_mem hitem))
    (builtOf_initTable _ h0) hcut with ⟨t, ht, hbuilt⟩
  refine ⟨t, ht, fun k hk => ?_⟩
  rw [lookup_ne_iff t k hk]
  constructor
  · intro hf
    rcases hf with ⟨i, _, hkey⟩
    have hmem := hbuilt.keys (slot i k)
    rw [hkey] at hmem
    exact List.mem_cons.mp hmem
  · exact hbuilt.found k

/-- If no call is cut off, the keys found in the end are the keys placed just
    when 0 is one of them. -/
theorem cuckoo_built_iff (items : List (Int × Int)) (hitems : ∀ item ∈ items, InRange item.1)
    (hcut : Along (cuckooStep items.length) (notCutOff items.length) items initTable) :
    ∃ t, cuckoo items = some t ∧
      ((∀ k, InRange k → (lookup t k ≠ some (-1) ↔ k ∈ items.map Prod.fst)) ↔
        0 ∈ items.map Prod.fst) := by
  rcases cuckoo_found items hitems hcut with ⟨t, ht, hfound⟩
  refine ⟨t, ht, fun h => ?_, fun h0 k hk => ?_⟩
  · exact (h 0 (by decide)).mp ((hfound 0 (by decide)).mpr (Or.inl rfl))
  · rw [hfound k hk]
    exact or_iff_right_of_imp (fun he => he ▸ h0)

/-- Key 0 beside two keys of one residue, of which the second moves the first. -/
theorem cuckoo_built_iff_three : ∃ t, cuckoo [(5, 1), (0, 2), (2500005, 3)] = some t ∧
    ∀ k, InRange k →
      (lookup t k ≠ some (-1) ↔ k ∈ [(5, 1), (0, 2), (2500005, 3)].map Prod.fst) := by
  rcases cuckoo_built_iff [(5, 1), (0, 2), (2500005, 3)] (by decide) (by decide +kernel) with
    ⟨t, ht, hiff⟩
  exact ⟨t, ht, hiff.mpr (by decide)⟩

/-- Key 0 is found among two others. -/
theorem cuckoo_invents_zero :
    Along (cuckooStep 2) (notCutOff 2) [(5, 1), (7, 2)] initTable ∧
    ∃ t, cuckoo [(5, 1), (7, 2)] = some t ∧ lookup t 0 ≠ some (-1) ∧
      (0 : Int) ∉ [((5 : Int), (1 : Int)), (7, 2)].map Prod.fst := by
  have hres : (cuckoo [(5, 1), (7, 2)]).map (fun t => lookup t 0) = some (some 0) := by
    decide +kernel
  rcases Option.map_eq_some_iff.mp hres with ⟨t, ht, hlookup⟩
  refine ⟨by decide +kernel, t, ht, ?_, by decide⟩
  rw [hlookup]
  decide

end Pilaf

end LocalKeyValue
