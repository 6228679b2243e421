import Mathlib.Tactic.Common

/-!
# Runs of a Partial Step Function

A machine is a function that takes a state and an action and returns the next
state, or `none` where the action is not possible. A run is a list of actions.
For a sequential program the actions are the calls its clients make; for a
concurrent one they name the party that moves next, so that quantifying over
lists of actions is quantifying over interleavings.

`run_invariant_along` is the induction every safety theorem needs, done once:
what holds at the start and is kept by each step that meets a condition holds
wherever a run of such steps ends. `run_of_along` is the form for a step that
is total only under a condition: if the condition holds at every step of the run
then the run completes, and the invariant holds where it does.
`throughout_iff_along` is for the exact condition: it turns a property of every
state a run passes through into a condition on its steps.

## Main definitions

* `run`: Iterating a partial step function along a list of actions.
* `Along`: A condition on state and action that holds at each step of a run.
* `Throughout`: A property of every state a run passes through.

## Theorems

* `run_append`: Splitting a run at an intermediate state.
* `along_and`: Two conditions at once.
* `along_of_run`: The steps of a run that completes are possible.
* `run_invariant_along`: An invariant kept by the steps that meet a condition.
* `run_of_along`: A run whose steps are all enabled completes.
* `along_imp`, `along_congr`: A condition that implies another, or is the same, under
  an invariant.
* `along_of_all`, `along_of_kept`: A condition that every action meets, or every step
  under an invariant.
* `run_iff_forall`: When being enabled is up to the action, a run completes just
  when all its actions are.
* `throughout_append`: The same for the states a run passes through.
* `throughout_map`: Following a run on a part of the state.
* `throughout_of_invariant`: What an invariant implies holds throughout.
* `throughout_iff_along_of`, `throughout_iff_along`: A property of all states
  reached, as a condition on the steps.
* `along_iff_of_related`: A condition on the steps of one machine as a condition
  on the steps of another that runs beside it.
-/

namespace LocalKeyValue

namespace Run

variable {σ α : Type*}

/-- Take the actions one after the other, or `none` if one is not possible. -/
def run (step : σ → α → Option σ) : List α → σ → Option σ
  | [], s => some s
  | a :: as, s => match step s a with
    | none => none
    | some s' => run step as s'

/-- The condition holds of each action in the state it is taken in. -/
def Along (step : σ → α → Option σ) (ok : σ → α → Prop) : List α → σ → Prop
  | [], _ => True
  | a :: as, s => ok s a ∧ match step s a with
    | none => True
    | some s' => Along step ok as s'

theorem along_cons (step : σ → α → Option σ) (ok : σ → α → Prop) (a : α) (as : List α)
    (s s' : σ) (h : step s a = some s') :
    Along step ok (a :: as) s ↔ ok s a ∧ Along step ok as s' := by
  simp only [Along, h]

theorem along_true (step : σ → α → Option σ) (as : List α) (s : σ) :
    Along step (fun _ _ => True) as s := by
  induction as generalizing s with
  | nil => trivial
  | cons a as ih =>
      refine ⟨trivial, ?_⟩
      cases step s a with
      | none => trivial
      | some s' => exact ih s'

/-- A condition on the actions that all of them meet holds along any run of them. -/
theorem along_of_forall (step : σ → α → Option σ) (ok : α → Prop) :
    ∀ (as : List α) (s : σ), (∀ a ∈ as, ok a) → Along step (fun _ a => ok a) as s := by
  intro as
  induction as with
  | nil => intro s _; trivial
  | cons a as ih =>
      intro s h
      rw [List.forall_mem_cons] at h
      refine ⟨h.1, ?_⟩
      cases step s a with
      | none => trivial
      | some s' => exact ih s' h.2

theorem along_and (step : σ → α → Option σ) (ok ok' : σ → α → Prop) :
    ∀ (as : List α) (s : σ), Along step (fun s a => ok s a ∧ ok' s a) as s ↔
      Along step ok as s ∧ Along step ok' as s := by
  intro as
  induction as with
  | nil => intro s; exact iff_of_true trivial ⟨trivial, trivial⟩
  | cons a as ih =>
      intro s
      simp only [Along]
      cases step s a with
      | none => simp only [and_true]
      | some s' =>
          simp only [ih s']
          exact and_and_and_comm

/-- A condition on the actions alone holds along a run just when all its actions
    meet it, if those that do can be taken. -/
theorem along_iff_forall (step : σ → α → Option σ) (ok : α → Prop) (I : σ → Prop)
    (hstep : ∀ s a, I s → ok a → ∃ s', step s a = some s' ∧ I s') :
    ∀ (as : List α) (s : σ), I s → (Along step (fun _ a => ok a) as s ↔ ∀ a ∈ as, ok a) := by
  intro as
  induction as with
  | nil => intro s _; exact iff_of_true trivial (fun a ha => absurd ha List.not_mem_nil)
  | cons a as ih =>
      intro s hI
      rw [List.forall_mem_cons]
      constructor
      · intro h
        rcases hstep s a hI h.1 with ⟨s', ha, hI'⟩
        exact ⟨h.1, (ih s' hI').mp ((along_cons step _ a as s s' ha).mp h).2⟩
      · intro h
        rcases hstep s a hI h.1 with ⟨s', ha, hI'⟩
        exact (along_cons step _ a as s s' ha).mpr ⟨h.1, (ih s' hI').mpr h.2⟩

/-- A decidable condition can be checked along a run. -/
instance decidableAlong (step : σ → α → Option σ) (ok : σ → α → Prop)
    [∀ s a, Decidable (ok s a)] : ∀ (as : List α) (s : σ), Decidable (Along step ok as s)
  | [], _ => isTrue trivial
  | a :: as, s =>
    have : Decidable (match step s a with
        | none => True
        | some s' => Along step ok as s') :=
      match step s a with
      | none => isTrue trivial
      | some s' => decidableAlong step ok as s'
    inferInstanceAs (Decidable (_ ∧ _))

theorem run_cons (step : σ → α → Option σ) (a : α) (as : List α) (s s' : σ)
    (h : step s a = some s') : run step (a :: as) s = run step as s' := by
  simp only [run, h]

/-- A run that completes takes its first action and completes from there. -/
theorem run_cons_eq_some (step : σ → α → Option σ) (a : α) (as : List α) (s t : σ)
    (h : run step (a :: as) s = some t) : ∃ s', step s a = some s' ∧ run step as s' = some t := by
  simp only [run] at h
  cases ha : step s a with
  | none => rw [ha] at h; exact absurd h (by simp only [reduceCtorEq, not_false_eq_true])
  | some s' =>
      rw [ha] at h
      exact ⟨s', rfl, h⟩

/-- Each step of a run that completes is possible. -/
theorem along_of_run (step : σ → α → Option σ) :
    ∀ (as : List α) (s t : σ), run step as s = some t →
      Along step (fun s a => ∃ s', step s a = some s') as s := by
  intro as
  induction as with
  | nil => intro s t _; trivial
  | cons a as ih =>
      intro s t h
      rcases run_cons_eq_some step a as s t h with ⟨s', ha, hrest⟩
      exact (along_cons step _ a as s s' ha).mpr ⟨⟨s', ha⟩, ih s' t hrest⟩

theorem run_append (step : σ → α → Option σ) (as bs : List α) (s t : σ)
    (h : run step as s = some t) : run step (as ++ bs) s = run step bs t := by
  induction as generalizing s with
  | nil =>
      simp only [run, Option.some.injEq] at h
      rw [List.nil_append, h]
  | cons a as ih =>
      rcases run_cons_eq_some step a as s t h with ⟨s', hstep, hrest⟩
      rw [List.cons_append, run_cons step a _ s s' hstep]
      exact ih s' hrest

/-- What each step that meets the condition keeps, a run whose steps all meet
    it keeps. -/
theorem run_invariant_along (step : σ → α → Option σ) (ok : σ → α → Prop) (I : σ → Prop)
    (hstep : ∀ s a s', I s → ok s a → step s a = some s' → I s') :
    ∀ (as : List α) (s t : σ), I s → Along step ok as s → run step as s = some t → I t := by
  intro as
  induction as with
  | nil =>
      intro s t hs _ h
      simp only [run, Option.some.injEq] at h
      rwa [← h]
  | cons a as ih =>
      intro s t hs hok h
      rcases run_cons_eq_some step a as s t h with ⟨s', ha, hrest⟩
      rw [along_cons step ok a as s s' ha] at hok
      exact ih s' t (hstep s a s' hs hok.1 ha) hok.2 hrest

/-- A run whose steps are all enabled completes, and keeps the invariant. -/
theorem run_of_along (step : σ → α → Option σ) (ok : σ → α → Prop) (I : σ → Prop)
    (hstep : ∀ s a, I s → ok s a → ∃ s', step s a = some s' ∧ I s') :
    ∀ (as : List α) (s : σ), I s → Along step ok as s →
      ∃ t, run step as s = some t ∧ I t := by
  intro as
  induction as with
  | nil => intro s hs _; exact ⟨s, rfl, hs⟩
  | cons a as ih =>
      intro s hs hok
      -- The condition at the first step is what lets the machine take it.
      rcases hstep s a hs hok.1 with ⟨s', ha, hs'⟩
      rcases ih s' hs' ((along_cons step ok a as s s' ha).mp hok).2 with ⟨t, ht, hI⟩
      exact ⟨t, by rw [run_cons step a as s s' ha]; exact ht, hI⟩

/-- If under an invariant, which the steps that meet a condition keep, these meet a
    second one, then a run that meets the first meets the second. -/
theorem along_imp (step : σ → α → Option σ) (ok ok' : σ → α → Prop) (I : σ → Prop)
    (hstep : ∀ s a, I s → ok s a → ok' s a ∧ ∀ s', step s a = some s' → I s') :
    ∀ (as : List α) (s : σ), I s → Along step ok as s → Along step ok' as s := by
  intro as
  induction as with
  | nil => intro s _ _; trivial
  | cons a as ih =>
      intro s hs hok
      rcases hstep s a hs hok.1 with ⟨hok', hkeep⟩
      refine ⟨hok', ?_⟩
      cases ha : step s a with
      | none => trivial
      | some s' => exact ih s' (hkeep s' ha) ((along_cons step ok a as s s' ha).mp hok).2

/-- A condition that all its actions meet in any state holds along a run. -/
theorem along_of_all (step : σ → α → Option σ) (ok : σ → α → Prop) (as : List α) (s : σ)
    (h : ∀ a ∈ as, ∀ t, ok t a) : Along step ok as s :=
  along_imp step (fun _ a => ∀ t, ok t a) ok (fun _ => True)
    (fun t _ _ ha => ⟨ha t, fun _ _ => trivial⟩) as s trivial
    (along_of_forall step (fun a => ∀ t, ok t a) as s h)

/-- Conditions that are the same under an invariant of the steps are so along a run. -/
theorem along_congr (step : σ → α → Option σ) (ok ok' : σ → α → Prop) (I : σ → Prop)
    (hstep : ∀ s a, I s → (ok s a ↔ ok' s a) ∧ ∀ s', step s a = some s' → I s') :
    ∀ (as : List α) (s : σ), I s → (Along step ok as s ↔ Along step ok' as s) := by
  intro as s hs
  exact ⟨along_imp step ok ok' I
      (fun s a hs h => ⟨(hstep s a hs).1.mp h, (hstep s a hs).2⟩) as s hs,
    along_imp step ok' ok I
      (fun s a hs h => ⟨(hstep s a hs).1.mpr h, (hstep s a hs).2⟩) as s hs⟩

/-- If under the invariant every step meets the condition and keeps the
    invariant, the condition is met along every run, and the invariant holds
    where it ends. -/
theorem along_of_kept (step : σ → α → Option σ) (ok : σ → α → Prop) (I : σ → Prop)
    (hstep : ∀ s a, I s → ok s a ∧ ∀ s', step s a = some s' → I s') :
    ∀ (as : List α) (s : σ), I s → Along step ok as s ∧ ∀ t, run step as s = some t → I t := by
  intro as s hs
  have halong := along_imp step (fun _ _ => True) ok I (fun s a hs _ => hstep s a hs) as s hs
    (along_true step as s)
  exact ⟨halong, fun t ht => run_invariant_along step ok I
    (fun s a s' hs _ ha => (hstep s a hs).2 s' ha) as s t hs halong ht⟩

/-- The form for a step that is always possible. -/
theorem run_of_kept (step : σ → α → Option σ) (ok : σ → α → Prop) (I : σ → Prop)
    (hstep : ∀ s a, I s → ok s a ∧ ∃ s', step s a = some s' ∧ I s') :
    ∀ (as : List α) (s : σ), I s → Along step ok as s ∧ ∃ t, run step as s = some t ∧ I t := by
  intro as s hs
  have halong := (along_of_kept step ok I (fun s a hs => ⟨(hstep s a hs).1, fun s' ha => by
    rcases (hstep s a hs).2 with ⟨t, ht, hI⟩
    rw [ht, Option.some.injEq] at ha
    exact ha ▸ hI⟩) as s hs).1
  exact ⟨halong, run_of_along step ok I (fun s a hs _ => (hstep s a hs).2) as s hs halong⟩

/-- If under the invariant it is up to the action alone whether it can be taken,
    a run completes just when all its actions can. -/
theorem run_iff_forall (step : σ → α → Option σ) (ok : α → Prop) (I : σ → Prop)
    (hstep : ∀ s a, I s → ((∃ s', step s a = some s') ↔ ok a) ∧
      ∀ s', step s a = some s' → I s') :
    ∀ (as : List α) (s : σ), I s →
      ((∃ t, run step as s = some t) ↔ ∀ a ∈ as, ok a) ∧
        ∀ t, run step as s = some t → I t := by
  intro as
  induction as with
  | nil =>
      intro s hI
      refine ⟨iff_of_true ⟨s, rfl⟩ (fun a ha => absurd ha (List.not_mem_nil)), fun t ht => ?_⟩
      simp only [run, Option.some.injEq] at ht
      rwa [← ht]
  | cons a as ih =>
      intro s hI
      rcases hstep s a hI with ⟨hok, hkeep⟩
      rw [List.forall_mem_cons, ← hok]
      cases ha : step s a with
      | none =>
          -- The run stops at its first action.
          simp only [run, ha, reduceCtorEq, exists_false, false_and, false_implies, implies_true,
            and_self]
      | some s' =>
          rcases ih s' (hkeep s' ha) with ⟨hall, hend⟩
          rw [run_cons step a as s s' ha, hall]
          exact ⟨⟨fun h => ⟨⟨s', rfl⟩, h⟩, fun h => h.2⟩, hend⟩

/-- The run completes and the property holds in each state it passes through,
    the first and the last included. -/
def Throughout (step : σ → α → Option σ) (P : σ → Prop) : List α → σ → Prop
  | [], s => P s
  | a :: as, s => P s ∧ match step s a with
    | none => False
    | some s' => Throughout step P as s'

theorem throughout_cons (step : σ → α → Option σ) (P : σ → Prop) (a : α) (as : List α)
    (s s' : σ) (h : step s a = some s') :
    Throughout step P (a :: as) s ↔ P s ∧ Throughout step P as s' := by
  simp only [Throughout, h]

theorem throughout_head (step : σ → α → Option σ) (P : σ → Prop) (as : List α) (s : σ)
    (h : Throughout step P as s) : P s := by
  cases as with
  | nil => exact h
  | cons a as => exact h.1

/-- The states of a run are those of its first part and those of its second. -/
theorem throughout_append (step : σ → α → Option σ) (P : σ → Prop) (as bs : List α) (s t : σ)
    (h : run step as s = some t) :
    Throughout step P (as ++ bs) s ↔ Throughout step P as s ∧ Throughout step P bs t := by
  induction as generalizing s with
  | nil =>
      simp only [run, Option.some.injEq] at h
      rw [List.nil_append, h]
      exact ⟨fun hb => ⟨throughout_head step P bs t hb, hb⟩, fun hb => hb.2⟩
  | cons a as ih =>
      rcases run_cons_eq_some step a as s t h with ⟨s', hstep, hrest⟩
      rw [List.cons_append, throughout_cons step P a _ s s' hstep,
        throughout_cons step P a _ s s' hstep, ih s' hrest, and_assoc]

theorem throughout_last (step : σ → α → Option σ) (P : σ → Prop) (as : List α) (s t : σ)
    (hrun : run step as s = some t) (h : Throughout step P as s) : P t := by
  rw [← List.append_nil as, throughout_append step P as [] s t hrun] at h
  exact h.2

/-- A run can be followed on a part of the state, if the steps are steps of that
    part and the property is a property of it. -/
theorem throughout_map {τ β : Type*} (step : σ → α → Option σ) (step' : τ → β → Option τ)
    (P : σ → Prop) (P' : τ → Prop) (f : σ → τ) (g : β → α) (I : σ → Prop)
    (hP : ∀ s, I s → (P s ↔ P' (f s)))
    (hstep : ∀ s b, I s → ∃ s', step s (g b) = some s' ∧ I s' ∧ step' (f s) b = some (f s')) :
    ∀ (bs : List β) (s : σ), I s →
      (Throughout step P (bs.map g) s ↔ Throughout step' P' bs (f s)) := by
  intro bs
  induction bs with
  | nil => intro s hI; exact hP s hI
  | cons b bs ih =>
      intro s hI
      rcases hstep s b hI with ⟨s', hs, hI', hs'⟩
      rw [List.map_cons, throughout_cons step P _ _ s s' hs,
        throughout_cons step' P' b bs _ _ hs', hP s hI, ih s' hI']

/-- What an invariant of a total step implies holds throughout. -/
theorem throughout_of_invariant (step : σ → α → Option σ) (I P : σ → Prop)
    (hstep : ∀ s a, I s → ∃ s', step s a = some s' ∧ I s') (hP : ∀ s, I s → P s) :
    ∀ (as : List α) (s : σ), I s → Throughout step P as s := by
  intro as
  induction as with
  | nil => intro s hI; exact hP s hI
  | cons a as ih =>
      intro s hI
      rcases hstep s a hI with ⟨s', ha, hI'⟩
      exact (throughout_cons step P a as s s' ha).mpr ⟨hP s hI, ih s' hI'⟩

/-- A property holds in every state a run passes through just when a condition
    is met at each step, along a run that keeps to a precondition: each step is
    possible and keeps the property just when the condition is met. -/
theorem throughout_iff_along_of (step : σ → α → Option σ) (pre ok : σ → α → Prop) (I P : σ → Prop)
    (hstep : ∀ s a, I s → P s → pre s a → ((∃ s', step s a = some s' ∧ P s') ↔ ok s a) ∧
      ∀ s', step s a = some s' → P s' → I s') :
    ∀ (as : List α) (s : σ), I s → P s → Along step pre as s →
      (Throughout step P as s ↔ Along step ok as s) := by
  intro as
  induction as with
  | nil => intro s _ hP _; exact iff_of_true hP trivial
  | cons a as ih =>
      intro s hI hP hpre
      rcases hstep s a hI hP hpre.1 with ⟨hiff, hkeep⟩
      cases ha : step s a with
      | none =>
          -- Neither side can hold: the run stops here, so the condition is not met.
          refine iff_of_false (fun h => ?_) (fun h => ?_)
          · rw [Throughout, ha] at h
            exact h.2
          · rcases hiff.mpr h.1 with ⟨s', hs', _⟩
            rw [ha] at hs'
            exact absurd hs' (by simp only [reduceCtorEq, not_false_eq_true])
      | some s' =>
          have hpre' := ((along_cons step pre a as s s' ha).mp hpre).2
          have hiff' : P s' ↔ ok s a := by
            rw [← hiff, ha]
            simp only [Option.some.injEq, exists_eq_left']
          rw [throughout_cons step P a as s s' ha, along_cons step ok a as s s' ha, ← hiff']
          -- Either side gives the property in `s'`, where the induction takes over.
          constructor
          · intro h
            have hP' := throughout_head step P as s' h.2
            exact ⟨hP', (ih s' (hkeep s' ha hP') hP' hpre').mp h.2⟩
          · intro h
            exact ⟨hP, (ih s' (hkeep s' ha h.1) h.1 hpre').mpr h.2⟩

/-- The form for a total step and no precondition. -/
theorem throughout_iff_along (step : σ → α → Option σ) (ok : σ → α → Prop) (I P : σ → Prop)
    (hstep : ∀ s a, I s → P s → ∃ s', step s a = some s' ∧ I s' ∧ (P s' ↔ ok s a)) :
    ∀ (as : List α) (s : σ), I s → P s → (Throughout step P as s ↔ Along step ok as s) := by
  intro as s hI hP
  refine throughout_iff_along_of step (fun _ _ => True) ok I P (fun s a hI hP _ => ?_) as s hI hP
    (along_true step as s)
  rcases hstep s a hI hP with ⟨s', ha, hI', hiff⟩
  simp only [ha, Option.some.injEq, exists_eq_left', forall_eq']
  exact ⟨hiff, fun _ => hI'⟩

/-- A second machine runs beside the first. If in related states a condition on
    the one is a condition on the other, and while it is met the states stay
    related, then it is met along a run of the one just when it is along the
    run of the other. -/
theorem along_iff_of_related {τ : Type*} (step : σ → α → Option σ) (step' : τ → α → Option τ)
    (ok : σ → α → Prop) (ok' : τ → α → Prop) (R : σ → τ → Prop)
    (hstep : ∀ s t a s', R s t → step s a = some s' →
      (ok s a ↔ ok' t a) ∧ (ok s a → ∃ t', step' t a = some t' ∧ R s' t')) :
    ∀ (as : List α) (s u : σ) (t : τ), R s t → run step as s = some u →
      (Along step ok as s ↔ Along step' ok' as t) := by
  intro as
  induction as with
  | nil => intro s u t _ _; exact Iff.rfl
  | cons a as ih =>
      intro s u t hR hrun
      rcases run_cons_eq_some step a as s u hrun with ⟨s', ha, hrest⟩
      rcases hstep s t a s' hR ha with ⟨hiff, hnext⟩
      rw [along_cons step ok a as s s' ha]
      constructor
      · intro h
        rcases hnext h.1 with ⟨t', ha', hR'⟩
        exact (along_cons step' ok' a as t t' ha').mpr
          ⟨hiff.mp h.1, (ih s' u t' hR' hrest).mp h.2⟩
      · intro h
        have hok := hiff.mpr h.1
        rcases hnext hok with ⟨t', ha', hR'⟩
        exact ⟨hok, (ih s' u t' hR' hrest).mpr ((along_cons step' ok' a as t t' ha').mp h).2⟩

end Run

end LocalKeyValue
