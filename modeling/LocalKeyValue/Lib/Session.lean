import Mathlib

/-!
# Sessions over a Connection

Two parties exchange messages over a connection that keeps each direction in
order. What a party does is a script of sends and receives over its own data.
Scripts that are dual, one receiving where the other sends, always come to the
same end, whichever party runs ahead: only one can be ahead, by the messages
that are on the way, and a party that waits does so because the other can move.

## Main definitions

* `Op`, `Party`: The operations, and a party with what it has still to do.
* `Conn`, `Conn.stepLeft`, `Conn.stepRight`: The connection and its steps.
* `Dual`, `finish`: Scripts that fit, and what the parties hold in the end.
* `Ahead`, `Conn.Agrees`: A connection that is on its way to this end.

## Theorems

* `stepLeft_cases`: What a step can be.
* `agrees_stepLeft`, `agrees_stepRight`: A step does not change the end.
* `enabled_of_agrees`: A session that is not over can go on.
* `eq_of_agrees`: When it is over the parties hold what they should.
* `stepLeft_spec`, `stepRight_spec`: What one step does.
-/

namespace LocalKeyValue

namespace Session

variable {σ τ M : Type*}

/-- A send of what the data say, or a receive into the data. -/
inductive Op (σ M : Type*) where
  | send (f : σ → M)
  | recv (g : σ → M → σ)

/-- What a party has still to do, and its data. -/
structure Party (σ M : Type*) where
  todo : List (Op σ M)
  data : σ

/-- The two parties and the messages on the way to each. -/
structure Conn (σ τ M : Type*) where
  left : Party σ M
  right : Party τ M
  toRight : List M
  toLeft : List M

/-- The connection as the other party sees it. -/
def Conn.swap (s : Conn σ τ M) : Conn τ σ M where
  left := s.right
  right := s.left
  toRight := s.toLeft
  toLeft := s.toRight

/-- The left party's next operation. A receive waits for a message. -/
def Conn.stepLeft (s : Conn σ τ M) : Option (Conn σ τ M) :=
  match s.left.todo, s.toLeft with
  | [], _ => none
  | .send f :: rest, _ => some { s with
      left := ⟨rest, s.left.data⟩
      toRight := s.toRight ++ [f s.left.data] }
  | .recv _ :: _, [] => none
  | .recv g :: rest, m :: ms => some { s with
      left := ⟨rest, g s.left.data m⟩
      toLeft := ms }

def Conn.stepRight (s : Conn σ τ M) : Option (Conn σ τ M) :=
  s.swap.stepLeft.map Conn.swap

/-- One script receives where the other sends. -/
def Dual : List (Op σ M) → List (Op τ M) → Prop
  | [], [] => True
  | .send _ :: l, .recv _ :: r => Dual l r
  | .recv _ :: l, .send _ :: r => Dual l r
  | _, _ => False

/-- What the parties hold after every message has gone over. -/
def finish : List (Op σ M) → List (Op τ M) → σ → τ → σ × τ
  | .send f :: l, .recv g :: r, a, b => finish l r a (g b (f a))
  | .recv g :: l, .send f :: r, a, b => finish l r (g a (f b)) b
  | _, _, a, b => (a, b)

theorem dual_symm : ∀ (l : List (Op σ M)) (r : List (Op τ M)), Dual l r → Dual r l := by
  intro l
  induction l with
  | nil =>
      intro r h
      cases r with
      | nil => trivial
      | cons o r => exact absurd h (by simp only [Dual, not_false_eq_true])
  | cons o l ih =>
      intro r h
      cases r with
      | nil => exact absurd h (by simp only [Dual, not_false_eq_true])
      | cons o' r =>
          cases o with
          | send f =>
              cases o' with
              | send f' => exact absurd h (by simp only [Dual, not_false_eq_true])
              | recv g => exact ih r h
          | recv g =>
              cases o' with
              | send f => exact ih r h
              | recv g' => exact absurd h (by simp only [Dual, not_false_eq_true])

theorem finish_swap : ∀ (l : List (Op σ M)) (r : List (Op τ M)) (a : σ) (b : τ),
    finish r l b a = (finish l r a b).swap := by
  intro l
  induction l with
  | nil =>
      intro r a b
      cases r with
      | nil => rfl
      | cons o r => cases o <;> rfl
  | cons o l ih =>
      intro r a b
      cases r with
      | nil => cases o <;> rfl
      | cons o' r =>
          cases o with
          | send f =>
              cases o' with
              | send f' => rfl
              | recv g => exact ih r a (g b (f a))
          | recv g =>
              cases o' with
              | send f => exact ih r (g a (f b)) b
              | recv g' => rfl

/-! ## The way to the end -/

/-- The left party is ahead by the messages on the way: once they are received
    the scripts are dual and end at the goal. -/
inductive Ahead (goal : σ × τ) : Party σ M → List M → Party τ M → Prop
  | level {l : Party σ M} {r : Party τ M} (hdual : Dual l.todo r.todo)
      (hgoal : finish l.todo r.todo l.data r.data = goal) : Ahead goal l [] r
  | queued {l : Party σ M} {m : M} {ms : List M} {g : τ → M → τ} {rest : List (Op τ M)} {b : τ}
      (h : Ahead goal l ms ⟨rest, g b m⟩) : Ahead goal l (m :: ms) ⟨.recv g :: rest, b⟩

/-- One of the parties is ahead, and nothing is on the way to it. -/
def Conn.Agrees (s : Conn σ τ M) (goal : σ × τ) : Prop :=
  (s.toLeft = [] ∧ Ahead goal s.left s.toRight s.right) ∨
    (s.toRight = [] ∧ Ahead goal.swap s.right s.toLeft s.left)

theorem agrees_swap {s : Conn σ τ M} {goal : σ × τ} (h : s.Agrees goal) :
    s.swap.Agrees goal.swap := by
  rcases h with h | h
  · right
    rw [Prod.swap_swap]
    exact h
  · left
    exact h

theorem agrees_start {l : Party σ M} {r : Party τ M} (hdual : Dual l.todo r.todo) :
    (Conn.mk l r [] []).Agrees (finish l.todo r.todo l.data r.data) :=
  Or.inl ⟨rfl, Ahead.level hdual rfl⟩

/-- At the point where neither is ahead, either may be said to be. -/
theorem ahead_swap {goal : σ × τ} {l : Party σ M} {r : Party τ M} (h : Ahead goal l [] r) :
    Ahead goal.swap r [] l := by
  cases h with
  | level hdual hgoal =>
      refine Ahead.level (dual_symm _ _ hdual) ?_
      rw [finish_swap, hgoal]

theorem ahead_send {goal : σ × τ} {f : σ → M} {rest : List (Op σ M)} {a : σ} :
    ∀ {ms : List M} {r : Party τ M}, Ahead goal ⟨.send f :: rest, a⟩ ms r →
      Ahead goal ⟨rest, a⟩ (ms ++ [f a]) r := by
  intro ms
  induction ms with
  | nil =>
      intro r h
      cases h with
      | level hdual hgoal =>
          rcases r with ⟨todo, b⟩
          cases todo with
          | nil => exact absurd hdual (by simp only [Dual, not_false_eq_true])
          | cons o todo =>
              cases o with
              | send f' => exact absurd hdual (by simp only [Dual, not_false_eq_true])
              | recv g =>
                  -- It was level and is ahead by this message.
                  exact Ahead.queued (Ahead.level hdual hgoal)
  | cons m ms ih =>
      intro r h
      cases h with
      | queued h => exact Ahead.queued (ih h)

/-- A step sends, or it receives what is on the way. -/
theorem stepLeft_cases {s s' : Conn σ τ M} (h : s.stepLeft = some s') :
    (∃ f rest, s.left.todo = .send f :: rest ∧
      s' = { s with left := ⟨rest, s.left.data⟩, toRight := s.toRight ++ [f s.left.data] }) ∨
    ∃ g rest m ms, s.left.todo = .recv g :: rest ∧ s.toLeft = m :: ms ∧
      s' = { s with left := ⟨rest, g s.left.data m⟩, toLeft := ms } := by
  rcases s with ⟨⟨todo, a⟩, r, toRight, toLeft⟩
  cases todo with
  | nil => exact absurd h (by simp only [Conn.stepLeft, reduceCtorEq, not_false_eq_true])
  | cons o todo =>
      cases o with
      | send f =>
          simp only [Conn.stepLeft, Option.some.injEq] at h
          exact Or.inl ⟨f, todo, rfl, h.symm⟩
      | recv g =>
          cases toLeft with
          | nil => exact absurd h (by simp only [Conn.stepLeft, reduceCtorEq, not_false_eq_true])
          | cons m ms =>
              simp only [Conn.stepLeft, Option.some.injEq] at h
              exact Or.inr ⟨g, todo, m, ms, rfl, rfl, h.symm⟩

theorem agrees_stepLeft {s s' : Conn σ τ M} {goal : σ × τ} (h : s.Agrees goal)
    (hstep : s.stepLeft = some s') : s'.Agrees goal := by
  rcases s with ⟨⟨todo, a⟩, r, toRight, toLeft⟩
  rcases stepLeft_cases hstep with ⟨f, rest, htodo, hs'⟩ | ⟨g, rest, m, ms, htodo, hms, hs'⟩
  · subst htodo hs'
    rcases h with ⟨hleft, hahead⟩ | ⟨hright, hahead⟩
    · exact Or.inl ⟨hleft, ahead_send hahead⟩
    · -- The right party cannot be ahead of a send, so the two are level.
      cases toLeft with
      | nil =>
          have hlevel := ahead_swap hahead
          rw [Prod.swap_swap] at hlevel
          refine Or.inl ⟨rfl, ?_⟩
          change toRight = [] at hright
          rw [hright]
          exact ahead_send hlevel
      | cons m ms => cases hahead
  · subst htodo hms hs'
    rcases h with ⟨hleft, _⟩ | ⟨hright, hahead⟩
    · exact absurd hleft (List.cons_ne_nil _ _)
    · cases hahead with
      | queued hahead => exact Or.inr ⟨hright, hahead⟩

theorem agrees_stepRight {s s' : Conn σ τ M} {goal : σ × τ} (h : s.Agrees goal)
    (hstep : s.stepRight = some s') : s'.Agrees goal := by
  rw [Conn.stepRight, Option.map_eq_some_iff] at hstep
  rcases hstep with ⟨t, ht, hs'⟩
  have hswap := agrees_swap (agrees_stepLeft (agrees_swap h) ht)
  rw [Prod.swap_swap, hs'] at hswap
  exact hswap

/-! ## Progress -/

theorem enabled_of_ahead {s : Conn σ τ M} {goal : σ × τ}
    (hahead : Ahead goal s.left s.toRight s.right)
    (htodo : s.left.todo ≠ [] ∨ s.right.todo ≠ []) :
    s.stepLeft ≠ none ∨ s.stepRight ≠ none := by
  rcases s with ⟨⟨ltodo, a⟩, ⟨rtodo, b⟩, toRight, toLeft⟩
  cases hahead with
  | queued h =>
      -- The right party waits for what is on the way.
      right
      simp [Conn.stepRight, Conn.swap, Conn.stepLeft]
  | level hdual _ =>
      cases ltodo with
      | nil =>
          cases rtodo with
          | nil => exact (htodo.elim (absurd rfl) (absurd rfl))
          | cons o r => exact absurd hdual (by simp only [Dual, not_false_eq_true])
      | cons o l =>
          cases o with
          | send f =>
              left
              simp [Conn.stepLeft]
          | recv g =>
              -- Its partner is at the send.
              cases rtodo with
              | nil => exact absurd hdual (by simp only [Dual, not_false_eq_true])
              | cons o' r =>
                  cases o' with
                  | recv g' => exact absurd hdual (by simp only [Dual, not_false_eq_true])
                  | send f =>
                      right
                      simp [Conn.stepRight, Conn.swap, Conn.stepLeft]

theorem stepRight_ne_none {s : Conn σ τ M} (h : s.swap.stepLeft ≠ none) : s.stepRight ≠ none := by
  rw [Conn.stepRight, ne_eq, Option.map_eq_none_iff]
  exact h

theorem stepLeft_ne_none {s : Conn σ τ M} (h : s.swap.stepRight ≠ none) : s.stepLeft ≠ none := by
  rw [Conn.stepRight, ne_eq, Option.map_eq_none_iff] at h
  exact h

/-- Neither party waits for the other to wait for it. -/
theorem enabled_of_agrees {s : Conn σ τ M} {goal : σ × τ} (h : s.Agrees goal)
    (htodo : s.left.todo ≠ [] ∨ s.right.todo ≠ []) :
    s.stepLeft ≠ none ∨ s.stepRight ≠ none := by
  rcases h with ⟨_, hahead⟩ | ⟨_, hahead⟩
  · exact enabled_of_ahead hahead htodo
  · have hswap : s.swap.left.todo ≠ [] ∨ s.swap.right.todo ≠ [] := htodo.symm
    rcases enabled_of_ahead (s := s.swap) hahead hswap with hleft | hright
    · exact Or.inr (stepRight_ne_none hleft)
    · exact Or.inl (stepLeft_ne_none hright)

theorem data_of_ahead {goal : σ × τ} {l : Party σ M} {ms : List M} {r : Party τ M}
    (h : Ahead goal l ms r) (hl : l.todo = []) (hr : r.todo = []) : (l.data, r.data) = goal := by
  cases h with
  | queued _ => exact absurd hr (List.cons_ne_nil _ _)
  | level _ hgoal =>
      rw [hl, hr] at hgoal
      exact hgoal

/-- A session both parties are done with has come to its end. -/
theorem eq_of_agrees {s : Conn σ τ M} {goal : σ × τ} (h : s.Agrees goal)
    (hleft : s.left.todo = []) (hright : s.right.todo = []) :
    (s.left.data, s.right.data) = goal := by
  rcases h with ⟨_, hahead⟩ | ⟨_, hahead⟩
  · exact data_of_ahead hahead hleft hright
  · rw [← Prod.swap_swap goal, ← data_of_ahead hahead hright hleft]
    rfl

/-! ## One step -/

/-- The other party may be replaced: it is not looked at. -/
def Conn.withRight (s : Conn σ τ M) (r : Party τ M) : Conn σ τ M := { s with right := r }

theorem stepLeft_withRight {s s' : Conn σ τ M} (h : s.stepLeft = some s') (r : Party τ M) :
    (s.withRight r).stepLeft = some (s'.withRight r) := by
  rcases s with ⟨⟨todo, a⟩, r₀, toRight, toLeft⟩
  rcases stepLeft_cases h with ⟨f, rest, htodo, hs'⟩ | ⟨g, rest, m, ms, htodo, hms, hs'⟩
  · subst htodo hs'
    rfl
  · subst htodo hms hs'
    rfl

/-- A step does one operation and leaves the other party as it is. -/
theorem stepLeft_spec {s s' : Conn σ τ M} (h : s.stepLeft = some s') :
    s'.right = s.right ∧ s.left.todo.length = s'.left.todo.length + 1 := by
  rcases stepLeft_cases h with ⟨f, rest, htodo, hs'⟩ | ⟨g, rest, m, ms, htodo, _, hs'⟩
  · rw [hs', htodo]
    exact ⟨rfl, rfl⟩
  · rw [hs', htodo]
    exact ⟨rfl, rfl⟩

theorem stepRight_spec {s s' : Conn σ τ M} (h : s.stepRight = some s') :
    s'.left = s.left ∧ s.right.todo.length = s'.right.todo.length + 1 := by
  rw [Conn.stepRight, Option.map_eq_some_iff] at h
  rcases h with ⟨t, ht, hs'⟩
  rw [← hs']
  exact stepLeft_spec ht

end Session

end LocalKeyValue
