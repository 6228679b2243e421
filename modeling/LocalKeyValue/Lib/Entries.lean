import Mathlib.Logic.Function.Basic
import Mathlib.Tactic.Common

/-!
# Tables Kept in an Array

An array whose entries have a key or none, and a value, and which is read as a
table from keys to values: the entries with a key are those of the table, each
key once. The order of the entries and the values of those without a key do not
matter. Overwriting one entry changes the table where its key was and where the
new one is, and `describes_write` says what is to be checked for that; the other
theorems are the forms for taking an entry out, putting one in and changing a
value.

## Main definitions

* `Describes`: The first `n` entries are those of a table.

## Theorems

* `describes_write`: Overwriting an entry.
* `describes_erase`, `describes_fill`, `describes_revalue`: Its forms.
-/

namespace LocalKeyValue

namespace Entries

variable {ε α β : Type*}

/-- The first `n` entries with a key are those of `table`, each once. -/
structure Describes (key : ε → Option α) (value : ε → β) (n : Nat) (es : Nat → ε)
    (table : α → Option β) : Prop where
  sound : ∀ i a, i < n → key (es i) = some a → table a = some (value (es i))
  listed : ∀ a z, table a = some z → ∃ i, i < n ∧ key (es i) = some a
  once : ∀ i j a, i < n → j < n → key (es i) = some a → key (es j) = some a → i = j

variable (key : ε → Option α) (value : ε → β) (n : Nat) (es : Nat → ε) (table : α → Option β)

/-- What is not in the table has no entry. -/
theorem key_ne_of_absent (h : Describes key value n es table) (a : α) (ha : table a = none)
    (i : Nat) (hi : i < n) : key (es i) ≠ some a := by
  intro hkey
  have hfree := h.sound i a hi hkey
  rw [ha] at hfree
  exact absurd hfree (by simp only [reduceCtorEq, not_false_eq_true])

theorem absent_of_key_ne (h : Describes key value n es table) (a : α)
    (ha : ∀ i < n, key (es i) ≠ some a) : table a = none := by
  cases hz : table a with
  | none => rfl
  | some z =>
      rcases h.listed a z hz with ⟨i, hi, hkey⟩
      exact absurd hkey (ha i hi)

/-- One entry is overwritten: the table loses the key it had and gets the new one,
    which no other entry has. -/
theorem describes_write (h : Describes key value n es table) (table' : α → Option β) (i : Nat)
    (e : ε) (hi : i < n)
    (hnew : ∀ a, key e = some a → table' a = some (value e))
    (hsame : ∀ a, key e ≠ some a → key (es i) ≠ some a → table' a = table a)
    (hgone : ∀ a, key e ≠ some a → key (es i) = some a → table' a = none)
    (hfresh : ∀ a, key e = some a → key (es i) = some a ∨ table a = none) :
    Describes key value n (Function.update es i e) table' := by
  -- The key of another entry is neither.
  have hother (j : Nat) (a : α) (hj : j < n) (hji : j ≠ i) (hkey : key (es j) = some a) :
      key e ≠ some a ∧ key (es i) ≠ some a := by
    have hne : key (es i) ≠ some a := fun hia => hji (h.once j i a hj hi hkey hia)
    refine ⟨fun hea => ?_, hne⟩
    rcases hfresh a hea with hia | hnone
    · exact hne hia
    · exact key_ne_of_absent key value n es table h a hnone j hj hkey
  exact {
    sound := fun j a hj hkey => by
      by_cases hji : j = i
      · rw [hji, Function.update_self] at hkey ⊢
        exact hnew a hkey
      · rw [Function.update_of_ne hji] at hkey ⊢
        rcases hother j a hj hji hkey with ⟨hea, hia⟩
        rw [hsame a hea hia]
        exact h.sound j a hj hkey
    listed := fun a z hz => by
      by_cases hea : key e = some a
      · exact ⟨i, hi, by rw [Function.update_self]; exact hea⟩
      · by_cases hia : key (es i) = some a
        · rw [hgone a hea hia] at hz
          exact absurd hz (by simp only [reduceCtorEq, not_false_eq_true])
        · rw [hsame a hea hia] at hz
          rcases h.listed a z hz with ⟨j, hj, hkey⟩
          have hji : j ≠ i := fun hji => hia (hji ▸ hkey)
          exact ⟨j, hj, by rw [Function.update_of_ne hji]; exact hkey⟩
    once := fun j k a hj hk hja hka => by
      -- Two others are the same as before, and another does not have the new key.
      by_cases hji : j = i
      · by_cases hki : k = i
        · rw [hji, hki]
        · rw [hji, Function.update_self] at hja
          rw [Function.update_of_ne hki] at hka
          exact absurd hja (hother k a hk hki hka).1
      · rw [Function.update_of_ne hji] at hja
        by_cases hki : k = i
        · rw [hki, Function.update_self] at hka
          exact absurd hka (hother j a hj hji hja).1
        · rw [Function.update_of_ne hki] at hka
          exact h.once j k a hj hk hja hka }

variable [DecidableEq α]

/-- The entry of a key is taken out. -/
theorem describes_erase (h : Describes key value n es table) (a : α) (i : Nat) (e : ε) (hi : i < n)
    (hkey : key (es i) = some a) (he : key e = none) :
    Describes key value n (Function.update es i e) (Function.update table a none) := by
  refine describes_write key value n es table h _ i e hi (fun b hb => ?_) (fun b _ hb => ?_)
    (fun b _ hb => ?_) (fun b hb => ?_)
  · rw [he] at hb
    exact absurd hb (by simp only [reduceCtorEq, not_false_eq_true])
  · rw [hkey] at hb
    exact Function.update_of_ne (fun hba => hb (by rw [hba])) ..
  · rw [hkey, Option.some.injEq] at hb
    rw [hb, Function.update_self]
  · rw [he] at hb
    exact absurd hb (by simp only [reduceCtorEq, not_false_eq_true])

/-- An entry without a key is filled. -/
theorem describes_fill (h : Describes key value n es table) (a : α) (i : Nat) (e : ε) (hi : i < n)
    (hkey : key (es i) = none) (he : key e = some a) (ha : table a = none) :
    Describes key value n (Function.update es i e) (Function.update table a (some (value e))) := by
  refine describes_write key value n es table h _ i e hi (fun b hb => ?_) (fun b hb _ => ?_)
    (fun b _ hb => ?_) (fun b hb => ?_)
  · rw [he, Option.some.injEq] at hb
    rw [hb, Function.update_self]
  · rw [he] at hb
    exact Function.update_of_ne (fun hba => hb (by rw [hba])) ..
  · rw [hkey] at hb
    exact absurd hb (by simp only [reduceCtorEq, not_false_eq_true])
  · rw [he, Option.some.injEq] at hb
    rw [← hb]
    exact Or.inr ha

/-- The value of a key is changed. -/
theorem describes_revalue (h : Describes key value n es table) (a : α) (i : Nat) (e : ε)
    (hi : i < n) (hkey : key (es i) = some a) (he : key e = some a) :
    Describes key value n (Function.update es i e) (Function.update table a (some (value e))) := by
  refine describes_write key value n es table h _ i e hi (fun b hb => ?_) (fun b hb _ => ?_)
    (fun b hb hb' => ?_) (fun b hb => ?_)
  · rw [he, Option.some.injEq] at hb
    rw [hb, Function.update_self]
  · rw [he] at hb
    exact Function.update_of_ne (fun hba => hb (by rw [hba])) ..
  · rw [he] at hb
    rw [hkey] at hb'
    exact absurd hb' hb
  · rw [he] at hb
    exact Or.inl (hkey.trans hb)

end Entries

end LocalKeyValue
