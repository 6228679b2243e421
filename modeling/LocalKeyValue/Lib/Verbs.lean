import LocalKeyValue.Lib.Run
import Mathlib.Logic.Function.Basic
import Mathlib.Tactic.Common

/-!
# Work Requests and Completions

Accounting for the queue pairs of an RDMA program. A program posts receives,
sends and reads, and reaps completions: every receive that is consumed makes
one, a send or read makes one if it was posted signalled. Reaping a send's or
a read's completion waits until there is one, so a program that reaps what it
has not asked for waits for good, and one that asks for more than it reaps fills
the completion queue.

A program is a step function that says which verb, if any, the step issues.
`trackedStep` runs it beside what is pending on each of its queue pairs.
`Awaited` is the property to prove of every step: a wait finds exactly one
signalled request pending.

Signalling every other request is the usual way to save completions: before a
signalled request is posted the completion of the one before it is reaped, which
a second counter keeps from being done twice. `Selective` is the invariant of
the two counters and the number pending.

## Main definitions

* `Verb`, `Pending`: The calls, and what they leave on a queue pair.
* `trackedStep`: A step of a program beside its queue pairs.
* `Awaited`, `Proceeds`: What a step waits for is there.
* `Selective`, `Decided`: Every other request is signalled and reaped.

## Theorems

* `tracked_of_proceeds`: A step that proceeds, beside its queue pairs.
* `selective_reap`, `selective_post`: What keeps the invariant.
-/

namespace LocalKeyValue

namespace Verbs

/-- A call on a queue pair. Receives are posted in batches and their completions
    taken as they come, `n` of them; the completion of a send or a read is waited
    for. -/
inductive Verb
  | postRecvs (n : Nat)
  | pollRecvs (n : Nat)
  | postSend (signal : Bool)
  | pollSend
  | postRead (signal : Bool)
  | pollRead
deriving DecidableEq

/-- What has been posted on a queue pair and has had no completion reaped:
    receives, and signalled sends and reads. -/
structure Pending where
  recvs : Nat
  sends : Nat
  reads : Nat
deriving DecidableEq

/-- A queue pair nothing has been posted on. -/
def Pending.none : Pending where
  recvs := 0
  sends := 0
  reads := 0

/-- What a call leaves pending, if it comes to an end: no more completions of
    receives are found than there are receives, and a wait for a completion
    that was not asked for does not end. -/
def Pending.after (p : Pending) : Verb → Option Pending
  | .postRecvs n => some { p with recvs := p.recvs + n }
  | .pollRecvs n => if n ≤ p.recvs then some { p with recvs := p.recvs - n } else Option.none
  | .postSend signal => some { p with sends := if signal then p.sends + 1 else p.sends }
  | .pollSend => if 0 < p.sends then some { p with sends := p.sends - 1 } else Option.none
  | .postRead signal => some { p with reads := if signal then p.reads + 1 else p.reads }
  | .pollRead => if 0 < p.reads then some { p with reads := p.reads - 1 } else Option.none

/-- What a call waits for is there, and nothing else of its kind. -/
def Pending.found (p : Pending) : Verb → Prop
  | .pollSend => p.sends = 1
  | .pollRead => p.reads = 1
  | _ => True

instance (p : Pending) (v : Verb) : Decidable (p.found v) :=
  match v with
  | .pollSend => inferInstanceAs (Decidable (p.sends = 1))
  | .pollRead => inferInstanceAs (Decidable (p.reads = 1))
  | .postRecvs _ => isTrue trivial
  | .pollRecvs _ => isTrue trivial
  | .postSend _ => isTrue trivial
  | .postRead _ => isTrue trivial

section Program

variable {σ α ι : Type*} [DecidableEq ι]

/-- A program's state beside its queue pairs. -/
structure Tracked (σ ι : Type*) where
  prog : σ
  pending : ι → Pending

/-- A step of the program, with the verb it issues and on which queue pair. -/
def trackedStep (step : σ → α → σ × Option (ι × Verb)) (t : Tracked σ ι) (a : α) :
    Option (Tracked σ ι) :=
  match step t.prog a with
  | (s, none) => some { t with prog := s }
  | (s, some (i, v)) => match (t.pending i).after v with
    | none => none
    | some p => some { prog := s, pending := Function.update t.pending i p }

/-- What the step waits for is there, and nothing else of its kind. -/
def Awaited (step : σ → α → σ × Option (ι × Verb)) (t : Tracked σ ι) (a : α) : Prop :=
  ∀ i v, (step t.prog a).2 = some (i, v) → (t.pending i).found v

/-- The step comes to an end and leaves the invariant: what it waits for is
    there, and nothing else of its kind. -/
def Proceeds (I : σ → (ι → Pending) → Prop) (pending : ι → Pending) :
    σ × Option (ι × Verb) → Prop
  | (s, none) => I s pending
  | (s, some (i, v)) => (pending i).found v ∧
    ∃ p, (pending i).after v = some p ∧ I s (Function.update pending i p)

theorem tracked_of_proceeds (step : σ → α → σ × Option (ι × Verb))
    (I : σ → (ι → Pending) → Prop) (t : Tracked σ ι) (a : α)
    (h : Proceeds I t.pending (step t.prog a)) :
    Awaited step t a ∧ ∃ t', trackedStep step t a = some t' ∧ I t'.prog t'.pending := by
  unfold Awaited trackedStep
  rcases hstep : step t.prog a with ⟨s, _ | ⟨i, v⟩⟩
  · rw [hstep] at h
    exact ⟨fun i v hv => absurd hv (by simp only [reduceCtorEq, not_false_eq_true]), _, rfl, h⟩
  · rw [hstep] at h
    rcases h with ⟨hfound, p, hp, hI⟩
    refine ⟨fun j w hw => ?_, { prog := s, pending := Function.update t.pending i p }, ?_, hI⟩
    · rw [Option.some.injEq, Prod.mk.injEq] at hw
      rw [← hw.1, ← hw.2]
      exact hfound
    · simp only [hp]

end Program

/-! ## Selective signalling -/

/-- `num` requests have been posted, the ones of even number signalled; `old` is
    what `num` was when a completion was reaped last, and `out` how many are
    pending. -/
structure Selective (num old out : Nat) : Prop where
  even : old % 2 = 0
  le : old ≤ num
  out : out = if num = old then 0 else 1

theorem selective_zero : Selective 0 0 0 where
  even := rfl
  le := Nat.le_refl 0
  out := rfl

/-- Before a signalled request there is a completion to be reaped, and only one,
    or none was asked for since the last. -/
theorem selective_reap (num old out : Nat) (h : Selective num old out) (heven : num % 2 = 0) :
    (num ≠ 0 ∧ num ≠ old → out = 1) ∧ (¬ (num ≠ 0 ∧ num ≠ old) → old = num) ∧
      Selective num num 0 := by
  have hle := h.le
  refine ⟨fun hne => ?_, fun hne => ?_, heven, Nat.le_refl num, (if_pos rfl).symm⟩
  · rw [h.out, if_neg hne.2]
  · -- Nothing posted yet, or nothing since the last reaping.
    omega

/-- The decision to signal the next request: whether its number is even, and
    then the last signalled one has been reaped. -/
structure Decided (signal : Bool) (num old : Nat) : Prop where
  signal : signal = true ↔ num % 2 = 0
  reaped : num % 2 = 0 → old = num

theorem decided_odd (num old : Nat) (hodd : ¬ num % 2 = 0) : Decided false num old where
  signal := iff_of_false Bool.false_ne_true hodd
  reaped := fun heven => absurd heven hodd

theorem decided_even (num : Nat) (heven : num % 2 = 0) : Decided true num num where
  signal := iff_of_true rfl heven
  reaped := fun _ => rfl

/-- The next request is posted as decided. -/
theorem selective_post (signal : Bool) (num old out : Nat) (h : Selective num old out)
    (hd : Decided signal num old) :
    Selective (num + 1) old (if signal then out + 1 else out) := by
  have hle := h.le
  have heven := h.even
  refine ⟨heven, by omega, ?_⟩
  rw [if_neg (by omega : num + 1 ≠ old), h.out]
  by_cases hnum : num % 2 = 0
  · rw [if_pos (hd.signal.mpr hnum), if_pos (hd.reaped hnum).symm]
  · -- The number is odd, so it is not that of the last reaping.
    rw [if_neg (fun hs => hnum (hd.signal.mp hs)), if_neg (by omega)]

end Verbs

end LocalKeyValue
