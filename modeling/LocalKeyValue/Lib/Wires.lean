import LocalKeyValue.Lib.Verbs

/-!
# Messages between Two Programs

Queue pairs of two programs joined by wires. A send puts a message on a wire; it
arrives when a receive has been posted for it, and then there is a completion
for the receiving program to take. `linkedStep` runs a program's step beside the
wires that lead out of its queue pairs and into them. A step that takes
completions is held up where they are not there.

Only numbers are kept. What a program's step does to them is what it sends and
what it takes, so an invariant that adds up numbers of messages is kept by a step
if the program's own counters go the same way.

## Main definitions

* `Wire`: Messages on their way, and completions to be taken.
* `sentOn`, `takenOn`: The messages a step sends and takes on a queue pair.
* `linkedStep`: A step of a program beside its queue pairs and wires.
* `Wire.arrive`: A message arrives.

## Theorems

* `linkedStep_spec`: What a step does to the wires.
* `linkedStep_ne_none`: When it is not held up.
-/

namespace LocalKeyValue

namespace Verbs

/-- One direction of a connection: the messages sent and not arrived, and the
    receives completed and not taken. -/
structure Wire where
  flying : Nat
  done : Nat
deriving DecidableEq

/-- A wire nothing has been sent on. -/
def Wire.none : Wire where
  flying := 0
  done := 0

/-- A message arrives, if a receive is posted that has no completion. -/
def Wire.arrive (w : Wire) (p : Pending) : Option Wire :=
  if 0 < w.flying ∧ w.done < p.recvs then
    some { flying := w.flying - 1, done := w.done + 1 }
  else Option.none

def Verb.sent : Verb → Nat
  | .postSend _ => 1
  | _ => 0

def Verb.taken : Verb → Nat
  | .pollRecvs k => k
  | _ => 0

section Linked

variable {σ α ι : Type*} [DecidableEq ι]

/-- The messages a step sends on queue pair `i`. -/
def sentOn (v : Option (ι × Verb)) (i : ι) : Nat :=
  match v with
  | none => 0
  | some (j, v) => if i = j then v.sent else 0

/-- The completions of receives a step takes on queue pair `i`. -/
def takenOn (v : Option (ι × Verb)) (i : ι) : Nat :=
  match v with
  | none => 0
  | some (j, v) => if i = j then v.taken else 0

/-- A step of a program beside its queue pairs and the wires out of them and into them. -/
def linkedStep (step : σ → α → σ × Option (ι × Verb)) (t : Tracked σ ι) (out into : ι → Wire)
    (a : α) : Option (Tracked σ ι × (ι → Wire) × (ι → Wire)) :=
  match trackedStep step t a, (step t.prog a).2 with
  | none, _ => none
  | some t', none => some (t', out, into)
  | some t', some (i, v) =>
    if v.taken ≤ (into i).done then
      some (t', Function.update out i { out i with flying := (out i).flying + v.sent },
        Function.update into i { into i with done := (into i).done - v.taken })
    else none

theorem trackedStep_prog (step : σ → α → σ × Option (ι × Verb)) (t t' : Tracked σ ι) (a : α)
    (h : trackedStep step t a = some t') : t'.prog = (step t.prog a).1 := by
  unfold trackedStep at h
  rcases hstep : step t.prog a with ⟨s, _ | ⟨i, v⟩⟩
  · simp only [hstep, Option.some.injEq] at h
    rw [← h]
  · simp only [hstep] at h
    split at h
    · exact absurd h (by simp only [reduceCtorEq, not_false_eq_true])
    · rw [Option.some.injEq] at h
      rw [← h]

/-- What a step does to the wires is what it sends and takes. -/
theorem linkedStep_spec (step : σ → α → σ × Option (ι × Verb)) (t t' : Tracked σ ι)
    (out into out' into' : ι → Wire) (a : α)
    (h : linkedStep step t out into a = some (t', out', into')) :
    trackedStep step t a = some t' ∧ ∀ i,
      (out' i).flying = (out i).flying + sentOn (step t.prog a).2 i ∧
      (out' i).done = (out i).done ∧ (into' i).flying = (into i).flying ∧
      (into' i).done + takenOn (step t.prog a).2 i = (into i).done := by
  unfold linkedStep at h
  cases htr : trackedStep step t a with
  | none =>
      rw [htr] at h
      exact absurd h (by simp only [reduceCtorEq, not_false_eq_true])
  | some u =>
      rw [htr] at h
      cases hv : (step t.prog a).2 with
      | none =>
          simp only [hv, Option.some.injEq, Prod.mk.injEq] at h
          rcases h with ⟨rfl, rfl, rfl⟩
          exact ⟨rfl, fun i => ⟨rfl, rfl, rfl, rfl⟩⟩
      | some jv =>
          rcases jv with ⟨j, v⟩
          simp only [hv] at h
          split at h
          · rename_i htaken
            simp only [Option.some.injEq, Prod.mk.injEq] at h
            rcases h with ⟨rfl, rfl, rfl⟩
            refine ⟨rfl, fun i => ?_⟩
            by_cases hij : i = j
            · rw [hij]
              simp only [Function.update_self, sentOn, takenOn, if_true, true_and]
              exact Nat.sub_add_cancel htaken
            · simp only [Function.update_of_ne hij, sentOn, takenOn, if_neg hij, Nat.add_zero,
                and_self]
          · exact absurd h (by simp only [reduceCtorEq, not_false_eq_true])

/-- A step goes through if it does by itself and what it takes has arrived. -/
theorem linkedStep_ne_none (step : σ → α → σ × Option (ι × Verb)) (t : Tracked σ ι)
    (out into : ι → Wire) (a : α) : linkedStep step t out into a ≠ none ↔
      trackedStep step t a ≠ none ∧ ∀ i, takenOn (step t.prog a).2 i ≤ (into i).done := by
  unfold linkedStep
  cases htr : trackedStep step t a with
  | none => simp only [ne_eq, not_true_eq_false, false_and]
  | some u =>
      cases hv : (step t.prog a).2 with
      | none =>
          simp only [ne_eq, reduceCtorEq, not_false_eq_true, true_and, true_iff]
          exact fun i => Nat.zero_le _
      | some jv =>
          rcases jv with ⟨j, v⟩
          -- A step takes completions of one queue pair only.
          have hone : (∀ i, takenOn (some (j, v)) i ≤ (into i).done) ↔ v.taken ≤ (into j).done := by
            constructor
            · intro hall
              have hj := hall j
              rwa [takenOn, if_pos rfl] at hj
            · intro hle i
              by_cases hij : i = j
              · rw [hij, takenOn, if_pos rfl]
                exact hle
              · rw [takenOn, if_neg hij]
                exact Nat.zero_le _
          rw [hone]
          by_cases hle : v.taken ≤ (into j).done
          · refine iff_of_true ?_ ⟨by simp only [ne_eq, reduceCtorEq, not_false_eq_true], hle⟩
            simp only [if_pos hle, ne_eq, reduceCtorEq, not_false_eq_true]
          · refine iff_of_false ?_ (fun hc => hle hc.2)
            simp only [if_neg hle, ne_eq, not_true_eq_false, not_false_eq_true]

end Linked

theorem arrive_eq_some (w w' : Wire) (p : Pending) (h : w.arrive p = some w') :
    w'.flying + 1 = w.flying ∧ w'.done = w.done + 1 := by
  unfold Wire.arrive at h
  split at h
  · rename_i hcond
    rw [Option.some.injEq] at h
    rw [← h]
    exact ⟨Nat.sub_add_cancel hcond.1, rfl⟩
  · exact absurd h (by simp only [reduceCtorEq, not_false_eq_true])

end Verbs

end LocalKeyValue
