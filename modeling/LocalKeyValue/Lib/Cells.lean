import Mathlib.Logic.Function.Basic
import Mathlib.Tactic.Common

/-!
# Keyed Cells

What a hash table is for, with the hashing left out: an array of cells, each
holding at most one key with a value, no key in two cells. Such an array is a
finite map, and the four things a table does to its cells are the map's
operations: filling an empty cell with an absent key inserts, rewriting a
cell's value updates, emptying a cell removes, and moving an entry from one
cell to an empty one changes nothing at all.

The last is what makes open addressing work. A table that displaces entries to
make room is moving them between cells, and however long the chain of moves is,
the map it represents stays what it was.

## Main definitions

* `Holds`: Some cell holds the key with the value.
* `Present`: Some cell holds the key.
* `KeysUnique`: No key is in two cells.
* `move`: An entry moved from one cell to another.
* `mapValues`: The cells with a function applied to every value.
* `Represents`: The cells hold exactly the entries of a finite map.

## Theorems

* `holds_put`, `keysUnique_put`: Filling an empty cell.
* `holds_set`, `keysUnique_set`: Rewriting the value in a cell.
* `holds_clear`, `keysUnique_clear`: Emptying a cell.
* `holds_move`, `keysUnique_move`: Moving an entry.
* `represents_put`, `represents_set`, `represents_clear`: Three of the operations
  are the map's insert, update and remove.
-/

namespace LocalKeyValue

namespace Cells

variable {ι K V : Type*}

/-- Some cell holds key `k` with value `v`. -/
def Holds (c : ι → Option (K × V)) (k : K) (v : V) : Prop :=
  ∃ i, c i = some (k, v)

/-- Some cell holds key `k`. -/
def Present (c : ι → Option (K × V)) (k : K) : Prop :=
  ∃ v, Holds c k v

/-- No key is in two cells. -/
def KeysUnique (c : ι → Option (K × V)) : Prop :=
  ∀ i j k v w, c i = some (k, v) → c j = some (k, w) → i = j

/-- The cells with a function applied to every value. -/
def mapValues {W : Type*} (f : V → W) (c : ι → Option (K × V)) (i : ι) : Option (K × W) :=
  (c i).map (fun e => (e.1, f e.2))

theorem mapValues_eq_some {W : Type*} (f : V → W) (c : ι → Option (K × V)) (i : ι) (k : K)
    (w : W) : mapValues f c i = some (k, w) ↔ ∃ v, c i = some (k, v) ∧ f v = w := by
  rw [mapValues, Option.map_eq_some_iff]
  constructor
  · intro h
    rcases h with ⟨⟨k', v⟩, hv, he⟩
    rw [Prod.mk.injEq] at he
    exact ⟨v, by rw [hv, ← he.1], he.2⟩
  · intro h
    rcases h with ⟨v, hv, rfl⟩
    exact ⟨(k, v), hv, rfl⟩

theorem holds_mapValues {W : Type*} (f : V → W) (c : ι → Option (K × V)) (k : K) (w : W) :
    Holds (mapValues f c) k w ↔ ∃ v, Holds c k v ∧ f v = w := by
  constructor
  · intro h
    rcases h with ⟨i, hi⟩
    rcases (mapValues_eq_some f c i k w).mp hi with ⟨v, hv, hw⟩
    exact ⟨v, ⟨i, hv⟩, hw⟩
  · intro h
    rcases h with ⟨v, ⟨i, hi⟩, hw⟩
    exact ⟨i, (mapValues_eq_some f c i k w).mpr ⟨v, hi, hw⟩⟩

theorem keysUnique_mapValues {W : Type*} (f : V → W) (c : ι → Option (K × V))
    (hu : KeysUnique c) : KeysUnique (mapValues f c) := by
  intro i j k v w hi hj
  rcases (mapValues_eq_some f c i k v).mp hi with ⟨v', hv', _⟩
  rcases (mapValues_eq_some f c j k w).mp hj with ⟨w', hw', _⟩
  exact hu i j k v' w' hv' hw'

/-- The cells hold exactly the entries of the finite map `m`. -/
def Represents (c : ι → Option (K × V)) (m : K → Option V) : Prop :=
  ∀ k v, Holds c k v ↔ m k = some v

theorem represents_congr (c c' : ι → Option (K × V)) (m : K → Option V)
    (h : ∀ k v, Holds c' k v ↔ Holds c k v) (hm : Represents c m) : Represents c' m := by
  intro k v
  rw [h k v, hm k v]

section Operations

variable [DecidableEq ι]

theorem mapValues_update {W : Type*} (f : V → W) (c : ι → Option (K × V)) (i : ι)
    (e : Option (K × V)) :
    mapValues f (Function.update c i e) =
      Function.update (mapValues f c) i (e.map (fun e => (e.1, f e.2))) := by
  funext j
  by_cases hj : j = i
  · rw [mapValues, hj, Function.update_self, Function.update_self]
  · rw [mapValues, Function.update_of_ne hj, Function.update_of_ne hj, mapValues]

/-- Move the entry of cell `i` to cell `j`. -/
def move (c : ι → Option (K × V)) (i j : ι) : ι → Option (K × V) :=
  Function.update (Function.update c j (c i)) i none

/-- Filling an empty cell adds one entry. -/
theorem holds_put (c : ι → Option (K × V)) (i : ι) (k : K) (v : V) (hi : c i = none)
    (k' : K) (v' : V) :
    Holds (Function.update c i (some (k, v))) k' v' ↔ Holds c k' v' ∨ (k' = k ∧ v' = v) := by
  constructor
  · intro h
    rcases h with ⟨j, hj⟩
    by_cases hji : j = i
    · rw [hji, Function.update_self, Option.some.injEq, Prod.mk.injEq] at hj
      exact Or.inr ⟨hj.1.symm, hj.2.symm⟩
    · rw [Function.update_of_ne hji] at hj
      exact Or.inl ⟨j, hj⟩
  · intro h
    rcases h with ⟨j, hj⟩ | ⟨rfl, rfl⟩
    · refine ⟨j, ?_⟩
      -- Cell `i` was empty, so an entry of before is in another cell.
      have hji : j ≠ i := by
        intro h
        rw [h, hi] at hj
        exact absurd hj (by simp only [reduceCtorEq, not_false_eq_true])
      rw [Function.update_of_ne hji]
      exact hj
    · exact ⟨i, Function.update_self i _ c⟩

/-- Filling a cell with an absent key keeps the keys unique. -/
theorem keysUnique_put (c : ι → Option (K × V)) (hu : KeysUnique c) (i : ι) (k : K) (v : V)
    (habs : ¬ Present c k) : KeysUnique (Function.update c i (some (k, v))) := by
  intro a b k' va vb ha hb
  by_cases hai : a = i
  · by_cases hbi : b = i
    · rw [hai, hbi]
    · -- Cell `b` held `k` before the fill.
      rw [hai, Function.update_self, Option.some.injEq, Prod.mk.injEq] at ha
      rw [Function.update_of_ne hbi] at hb
      exact absurd ⟨vb, b, by rw [ha.1]; exact hb⟩ habs
  · rw [Function.update_of_ne hai] at ha
    by_cases hbi : b = i
    · rw [hbi, Function.update_self, Option.some.injEq, Prod.mk.injEq] at hb
      exact absurd ⟨va, a, by rw [hb.1]; exact ha⟩ habs
    · rw [Function.update_of_ne hbi] at hb
      exact hu a b k' va vb ha hb

/-- Rewriting the value in a cell changes the value of that key only. -/
theorem holds_set (c : ι → Option (K × V)) (hu : KeysUnique c) (i : ι) (k : K) (v w : V)
    (hi : c i = some (k, v)) (k' : K) (v' : V) :
    Holds (Function.update c i (some (k, w))) k' v' ↔
      (k' = k ∧ v' = w) ∨ (k' ≠ k ∧ Holds c k' v') := by
  constructor
  · intro h
    rcases h with ⟨j, hj⟩
    by_cases hji : j = i
    · rw [hji, Function.update_self, Option.some.injEq, Prod.mk.injEq] at hj
      exact Or.inl ⟨hj.1.symm, hj.2.symm⟩
    · -- The key is not `k`, as `k` is in cell `i` already.
      rw [Function.update_of_ne hji] at hj
      refine Or.inr ⟨fun hk => hji (hu j i k v' v ?_ hi), j, hj⟩
      rw [← hk]
      exact hj
  · intro h
    rcases h with ⟨rfl, rfl⟩ | ⟨hk, j, hj⟩
    · exact ⟨i, Function.update_self i _ c⟩
    · refine ⟨j, ?_⟩
      have hji : j ≠ i := by
        intro h
        rw [h, hi, Option.some.injEq, Prod.mk.injEq] at hj
        exact hk hj.1.symm
      rw [Function.update_of_ne hji]
      exact hj

theorem keysUnique_set (c : ι → Option (K × V)) (hu : KeysUnique c) (i : ι) (k : K) (v w : V)
    (hi : c i = some (k, v)) : KeysUnique (Function.update c i (some (k, w))) := by
  intro a b k' va vb ha hb
  by_cases hai : a = i
  · by_cases hbi : b = i
    · rw [hai, hbi]
    · -- The written cell held the same key before, so uniqueness of before applies.
      rw [hai, Function.update_self, Option.some.injEq, Prod.mk.injEq] at ha
      rw [Function.update_of_ne hbi] at hb
      rw [hai]
      exact hu i b k v vb hi (by rw [ha.1]; exact hb)
  · rw [Function.update_of_ne hai] at ha
    by_cases hbi : b = i
    · rw [hbi, Function.update_self, Option.some.injEq, Prod.mk.injEq] at hb
      rw [hbi]
      exact hu a i k va v (by rw [hb.1]; exact ha) hi
    · rw [Function.update_of_ne hbi] at hb
      exact hu a b k' va vb ha hb

/-- Emptying a cell removes its key. -/
theorem holds_clear (c : ι → Option (K × V)) (hu : KeysUnique c) (i : ι) (k : K) (v : V)
    (hi : c i = some (k, v)) (k' : K) (v' : V) :
    Holds (Function.update c i none) k' v' ↔ k' ≠ k ∧ Holds c k' v' := by
  constructor
  · intro h
    rcases h with ⟨j, hj⟩
    have hji : j ≠ i := by
      intro h
      rw [h, Function.update_self] at hj
      exact absurd hj (by simp only [reduceCtorEq, not_false_eq_true])
    rw [Function.update_of_ne hji] at hj
    refine ⟨fun hk => hji (hu j i k v' v ?_ hi), j, hj⟩
    rw [← hk]
    exact hj
  · intro h
    rcases h with ⟨hk, j, hj⟩
    refine ⟨j, ?_⟩
    have hji : j ≠ i := by
      intro h
      rw [h, hi, Option.some.injEq, Prod.mk.injEq] at hj
      exact hk hj.1.symm
    rw [Function.update_of_ne hji]
    exact hj

theorem keysUnique_clear (c : ι → Option (K × V)) (hu : KeysUnique c) (i : ι) :
    KeysUnique (Function.update c i none) := by
  intro a b k va vb ha hb
  -- An entry of after is one of before, in the same cell.
  have hne : ∀ j w, Function.update c i none j = some (k, w) → c j = some (k, w) := by
    intro j w hj
    by_cases hji : j = i
    · rw [hji, Function.update_self] at hj
      exact absurd hj (by simp only [reduceCtorEq, not_false_eq_true])
    · rwa [Function.update_of_ne hji] at hj
  exact hu a b k va vb (hne a va ha) (hne b vb hb)

/-- Moving an entry to an empty cell changes nothing the cells hold. -/
theorem holds_move (c : ι → Option (K × V)) (i j : ι) (hij : i ≠ j) (hj : c j = none)
    (k : K) (v : V) : Holds (move c i j) k v ↔ Holds c k v := by
  have hself : move c i j j = c i := by
    rw [move, Function.update_of_ne (Ne.symm hij), Function.update_self]
  constructor
  · intro h
    rcases h with ⟨a, ha⟩
    by_cases haj : a = j
    · -- What cell `j` holds came from cell `i`.
      rw [haj, hself] at ha
      exact ⟨i, ha⟩
    · have hai : a ≠ i := by
        intro h
        rw [h, move, Function.update_self] at ha
        exact absurd ha (by simp only [reduceCtorEq, not_false_eq_true])
      rw [move, Function.update_of_ne hai, Function.update_of_ne haj] at ha
      exact ⟨a, ha⟩
  · intro h
    rcases h with ⟨a, ha⟩
    by_cases hai : a = i
    · exact ⟨j, by rw [hself, ← hai]; exact ha⟩
    · -- Cell `j` was empty, so an entry elsewhere is not overwritten.
      have haj : a ≠ j := by
        intro h
        rw [h, hj] at ha
        exact absurd ha (by simp only [reduceCtorEq, not_false_eq_true])
      exact ⟨a, by rw [move, Function.update_of_ne hai, Function.update_of_ne haj]; exact ha⟩

/-- Where a moved entry's cell was before the move. -/
theorem move_eq_some (c : ι → Option (K × V)) (i j a : ι) (e : K × V)
    (h : move c i j a = some e) : a ≠ i ∧ ((a = j ∧ c i = some e) ∨ (a ≠ j ∧ c a = some e)) := by
  have hai : a ≠ i := by
    intro hc
    rw [hc, move, Function.update_self] at h
    exact absurd h (by simp only [reduceCtorEq, not_false_eq_true])
  refine ⟨hai, ?_⟩
  rw [move, Function.update_of_ne hai] at h
  by_cases haj : a = j
  · rw [haj, Function.update_self] at h
    exact Or.inl ⟨haj, h⟩
  · rw [Function.update_of_ne haj] at h
    exact Or.inr ⟨haj, h⟩

theorem keysUnique_move (c : ι → Option (K × V)) (hu : KeysUnique c) (i j : ι) :
    KeysUnique (move c i j) := by
  intro a b k va vb ha hb
  -- Trace both cells back: two that come from `i` are both `j`, one that comes from
  -- `i` shares its key with no other.
  rcases move_eq_some c i j a (k, va) ha with ⟨hai, ⟨haj, hia⟩ | ⟨_, ha'⟩⟩
  · rcases move_eq_some c i j b (k, vb) hb with ⟨hbi, ⟨hbj, _⟩ | ⟨_, hb'⟩⟩
    · rw [haj, hbj]
    · exact absurd (hu b i k vb va hb' hia) hbi
  · rcases move_eq_some c i j b (k, vb) hb with ⟨_, ⟨_, hib⟩ | ⟨_, hb'⟩⟩
    · exact absurd (hu a i k va vb ha' hib) hai
    · exact hu a b k va vb ha' hb'

section Maps

variable [DecidableEq K]

theorem represents_put (c : ι → Option (K × V)) (m : K → Option V) (hm : Represents c m)
    (i : ι) (k : K) (v : V) (hi : c i = none) (habs : m k = none) :
    Represents (Function.update c i (some (k, v))) (Function.update m k (some v)) := by
  intro k' v'
  rw [holds_put c i k v hi, hm k' v']
  by_cases hk : k' = k
  · -- The map had no value for `k`, so only the new one is left.
    rw [hk, Function.update_self, habs]
    simp only [reduceCtorEq, true_and, false_or, Option.some.injEq, eq_comm]
  · rw [Function.update_of_ne hk]
    simp only [hk, false_and, or_false]

theorem represents_set (c : ι → Option (K × V)) (hu : KeysUnique c) (m : K → Option V)
    (hm : Represents c m) (i : ι) (k : K) (v w : V) (hi : c i = some (k, v)) :
    Represents (Function.update c i (some (k, w))) (Function.update m k (some w)) := by
  intro k' v'
  rw [holds_set c hu i k v w hi, hm k' v']
  by_cases hk : k' = k
  · rw [hk, Function.update_self]
    simp only [ne_eq, not_true_eq_false, true_and, false_and, or_false, Option.some.injEq, eq_comm]
  · rw [Function.update_of_ne hk]
    simp only [hk, ne_eq, not_false_eq_true, false_and, true_and, false_or]

theorem represents_clear (c : ι → Option (K × V)) (hu : KeysUnique c) (m : K → Option V)
    (hm : Represents c m) (i : ι) (k : K) (v : V) (hi : c i = some (k, v)) :
    Represents (Function.update c i none) (Function.update m k none) := by
  intro k' v'
  rw [holds_clear c hu i k v hi, hm k' v']
  by_cases hk : k' = k
  · rw [hk, Function.update_self]
    simp only [ne_eq, not_true_eq_false, false_and, reduceCtorEq]
  · rw [Function.update_of_ne hk]
    simp only [ne_eq, hk, not_false_eq_true, true_and]

end Maps

end Operations

end Cells

end LocalKeyValue
