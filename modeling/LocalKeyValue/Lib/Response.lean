import LocalKeyValue.Lib.Run

/-!
# Bounded Response

When a run is bound to come to something. Some of its actions are the ones that
count: those of a process that is asked for an answer, among those of all the
others. A state from which the answer is still to come has a rank, which no
action makes larger and each action that counts makes smaller. Then the answer
comes within as many counted actions as the rank, wherever the others come
between them.

A process that goes round others has in its rank how many of them come before
the one that waits.

## Main definitions

* `Responds`: A run reaches a state, and with how few counted actions.
* `Ranked`: What each step does to the rank.
* `turn`: How many come before one, going round.
* `roundRank`: The rank of one that waits for a process that goes round.

## Theorems

* `responds_of_ranked`: The answer comes.
* `turn_next`: Going on brings one nearer.
* `roundRank_next`, `roundRank_stay`: What a step of the process does to the rank.
* `roundRank_le`: The rank at most.
-/

namespace LocalKeyValue

namespace Run

variable {σ α : Type*}

/-- The run from `s` over `as` to `t` comes through a state in which `Q` holds, with at
    most `k` counted actions before it. -/
def Responds (step : σ → α → Option σ) (counts : α → Bool) (Q : σ → Prop) (k : Nat)
    (as : List α) (s t : σ) : Prop :=
  ∃ bs cs u, as = bs ++ cs ∧ run step bs s = some u ∧ run step cs u = some t ∧
    bs.countP counts ≤ k ∧ Q u

/-- Where `W` holds the answer is still to come. A step brings it or keeps `W`, and then
    the rank does not rise, and falls if the action counts. -/
structure Ranked (step : σ → α → Option σ) (ok : σ → α → Prop) (counts : α → Bool)
    (W Q : σ → Prop) (rank : σ → Nat) : Prop where
  pos : ∀ s, W s → 0 < rank s
  step : ∀ s a t, W s → ok s a → step s a = some t →
    Q t ∨ W t ∧ rank t + (if counts a then 1 else 0) ≤ rank s

theorem responds_of_ranked (step : σ → α → Option σ) (ok : σ → α → Prop) (counts : α → Bool)
    (W Q : σ → Prop) (rank : σ → Nat) (h : Ranked step ok counts W Q rank) :
    ∀ (as : List α) (s t : σ), W s → Along step ok as s → run step as s = some t →
      rank s ≤ as.countP counts → Responds step counts Q (rank s) as s t := by
  intro as
  induction as with
  | nil =>
      intro s t hw _ _ hcount
      have hpos := h.pos s hw
      rw [List.countP_nil] at hcount
      omega
  | cons a as ih =>
      intro s t hw hok hrun hcount
      rcases run_cons_eq_some step a as s t hrun with ⟨s', ha, hrest⟩
      rw [along_cons step ok a as s s' ha] at hok
      rw [List.countP_cons] at hcount
      rcases h.step s a s' hw hok.1 ha with hend | ⟨hw', hrank⟩
      · -- The answer comes with this action.
        have hpos := h.pos s hw
        refine ⟨[a], as, s', rfl, ?_, hrest, ?_, hend⟩
        · rw [run_cons step a [] s s' ha]
          rfl
        · rw [List.countP_cons, List.countP_nil]
          split <;> omega
      · rcases ih s' t hw' hok.2 hrest (by omega) with ⟨bs, cs, u, has, hbs, hcs, hle, hend⟩
        refine ⟨a :: bs, cs, u, by rw [has]; rfl, ?_, hcs, ?_, hend⟩
        · rw [run_cons step a bs s s' ha]
          exact hbs
        · rw [List.countP_cons]
          omega

/-- A smaller rank and a weaker answer. -/
theorem responds_mono {step : σ → α → Option σ} {counts : α → Bool} {Q Q' : σ → Prop}
    {k k' : Nat} {as : List α} {s t : σ} (h : Responds step counts Q k as s t) (hk : k ≤ k')
    (hQ : ∀ u, Q u → Q' u) : Responds step counts Q' k' as s t := by
  rcases h with ⟨bs, cs, u, has, hbs, hcs, hle, hend⟩
  exact ⟨bs, cs, u, has, hbs, hcs, Nat.le_trans hle hk, hQ u hend⟩

/-! ## Going round -/

/-- Going round `n` of them from the `r`th on, how many come before the `d`th. -/
def turn (n r d : Nat) : Nat :=
  if r ≤ d then d - r else d + n - r

theorem turn_lt (n r d : Nat) (hr : r < n) (hd : d < n) : turn n r d < n := by
  unfold turn
  split <;> omega

theorem turn_next (n r d : Nat) (hr : r < n) (hd : d < n) (h : r ≠ d) :
    turn n ((r + 1) % n) d + 1 = turn n r d := by
  have hnext : (r + 1) % n = if r + 1 = n then 0 else r + 1 := by
    split
    · rename_i heq
      rw [heq, Nat.mod_self]
    · exact Nat.mod_eq_of_lt (by omega)
  unfold turn
  rw [hnext]
  split
  · rw [if_pos (Nat.zero_le d)]
    split <;> omega
  · split <;> split <;> omega

/-- What a C program computes for the next, from an index that is -1 before the first. -/
theorem next_index (n : Nat) (i : Int) (h : -1 ≤ i) :
    (i + 1).tmod n = ((i + 1).toNat % n : Nat) := by
  rcases Int.eq_ofNat_of_zero_le (show 0 ≤ i + 1 by omega) with ⟨m, hm⟩
  rw [hm, Int.toNat_natCast, Int.ofNat_tmod]

/-- A process goes round `n` of them and is at the one with index `i`, busy with it for
    another `phase` steps of `k` at most, or about to go on. The steps, at most, until it
    is done with the `c`th. -/
def roundRank (n k : Nat) (i : Int) (busy : Prop) [Decidable busy] (phase c : Nat) : Nat :=
  if i.toNat = c ∧ busy then phase
  else phase + (k + 1) * turn n ((i + 1).toNat % n) c + (k + 1)

section RoundRank

variable {n k c phase phase' : Nat} {i : Int} {busy busy' : Prop} [Decidable busy]
  [Decidable busy']

theorem roundRank_away (h : ¬ (i.toNat = c ∧ busy)) : roundRank n k i busy phase c =
    phase + (k + 1) * turn n ((i + 1).toNat % n) c + (k + 1) := if_neg h

/-- It goes on to the next, and is busy there if this is the one. -/
theorem roundRank_next (hc : c < n) (hidle : ¬ busy) (hphase : phase' ≤ k)
    (hat : (i + 1).toNat % n = c → busy') :
    roundRank n k ((i + 1).toNat % n : Nat) busy' phase' c + 1 ≤ roundRank n k i busy 0 c := by
  have hlt := Nat.mod_lt (i + 1).toNat (show 0 < n by omega)
  rw [roundRank_away fun h => hidle h.2]
  generalize (i + 1).toNat % n = r at hlt hat ⊢
  by_cases hrc : r = c
  · rw [roundRank, if_pos ⟨hrc, hat hrc⟩]
    omega
  · have hnear := congrArg ((k + 1) * ·) (turn_next n r c hlt hc hrc)
    simp only [Nat.mul_add_one] at hnear
    have haway : roundRank n k (r : Int) busy' phase' c =
        phase' + (k + 1) * turn n ((r + 1) % n) c + (k + 1) :=
      roundRank_away fun h => hrc h.1
    rw [haway]
    omega

/-- It does a step where it is, and stays busy if this is the one. -/
theorem roundRank_stay (hbusy : busy) (hphase : phase' + 1 ≤ phase) (hat : i.toNat = c → busy') :
    roundRank n k i busy' phase' c + 1 ≤ roundRank n k i busy phase c := by
  by_cases hi : i.toNat = c
  · rw [roundRank, roundRank, if_pos ⟨hi, hat hi⟩, if_pos ⟨hi, hbusy⟩]
    exact hphase
  · rw [roundRank_away fun h => hi h.1, roundRank_away fun h => hi h.1]
    omega

/-- One that waits is done with after as many steps as there are in a round. -/
theorem roundRank_le (hc : c < n) (hlow : -1 ≤ i) (hhigh : i < n) (hfirst : busy → i ≠ -1)
    (hphase : phase ≤ k) (hidle : ¬ busy → phase = 0) :
    roundRank n k i busy phase c ≤ (k + 1) * n := by
  have hlt := turn_lt n _ c (Nat.mod_lt (i + 1).toNat (show 0 < n by omega)) hc
  by_cases hbusy : busy
  · by_cases hi : i.toNat = c
    · have hround := Nat.mul_le_mul_left (k + 1) (show 1 ≤ n by omega)
      rw [roundRank, if_pos ⟨hi, hbusy⟩]
      omega
    · -- It is at another one, so this is not the last it comes to.
      have hne := hfirst hbusy
      have hnear := turn_next n i.toNat c (by omega) hc hi
      have hfar := turn_lt n i.toNat c (by omega) hc
      have hnext : (i + 1).toNat = i.toNat + 1 := by omega
      rw [← hnext] at hnear
      have hround := Nat.mul_le_mul_left (k + 1)
        (show turn n ((i + 1).toNat % n) c + 1 + 1 ≤ n by omega)
      simp only [Nat.mul_add_one] at hround
      rw [roundRank_away fun h => hi h.1]
      omega
  · have hround := Nat.mul_le_mul_left (k + 1)
      (show turn n ((i + 1).toNat % n) c + 1 ≤ n by omega)
    simp only [Nat.mul_add_one] at hround
    rw [roundRank_away fun h => hbusy h.2, hidle hbusy]
    omega

theorem roundRank_pos (hphase : busy → 0 < phase) : 0 < roundRank n k i busy phase c := by
  rw [roundRank]
  split
  · rename_i h
    exact hphase h.2
  · omega

end RoundRank

end Run

end LocalKeyValue
