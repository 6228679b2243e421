import Mathlib

/-!
# Linked Lists in Memory

A list whose nodes are addresses: each node names the next one, and the last
names none. `Linked` says which nodes there are, so that what a program does to
the pointers can be stated on a list. The list is determined by the pointers,
depends on the pointers of its nodes only, and grows at its end by one pointer.

`seek` is the search of a list that is sorted by address: it goes on while the
node lies before its target. It reads the pointer of every node it passes, and a
pointer that cannot be read ends it without a result.

## Main definitions

* `Linked`: Following the pointers visits these nodes and ends.
* `Sought`, `seek`: Searching a sorted list.

## Theorems

* `linked_unique`: The nodes are determined.
* `linked_congr`, `linked_extend`: Changing pointers.
* `linked_head`, `linked_last`, `linked_next`: The ends, and the way between.
* `seek_found`, `seek_missing`: Where a search ends.
-/

namespace LocalKeyValue

namespace Links

variable {α : Type*}

/-- From `p` on, following `next` visits the nodes of the list and ends. -/
def Linked (next : α → Option α) : Option α → List α → Prop
  | p, [] => p = none
  | p, a :: as => p = some a ∧ Linked next (next a) as

theorem linked_unique (next : α → Option α) : ∀ (as bs : List α) (p : Option α),
    Linked next p as → Linked next p bs → as = bs := by
  intro as
  induction as with
  | nil =>
      intro bs p ha hb
      cases bs with
      | nil => rfl
      | cons b bs =>
          rw [Linked] at ha
          rw [Linked, ha] at hb
          exact absurd hb.1 (by simp only [reduceCtorEq, not_false_eq_true])
  | cons a as ih =>
      intro bs p ha hb
      cases bs with
      | nil =>
          rw [Linked] at hb
          rw [Linked, hb] at ha
          exact absurd ha.1 (by simp only [reduceCtorEq, not_false_eq_true])
      | cons b bs =>
          rw [Linked] at ha hb
          have hab : a = b := by
            have heq := ha.1.symm.trans hb.1
            rwa [Option.some.injEq] at heq
          subst hab
          rw [ih bs (next a) ha.2 hb.2]

/-- Only the pointers of the nodes matter. -/
theorem linked_congr (next next' : α → Option α) : ∀ (as : List α) (p : Option α),
    (∀ a ∈ as, next' a = next a) → Linked next p as → Linked next' p as := by
  intro as
  induction as with
  | nil => intro p _ h; exact h
  | cons a as ih =>
      intro p hsame h
      refine ⟨h.1, ?_⟩
      rw [hsame a (List.mem_cons_self ..)]
      exact ih (next a) (fun b hb => hsame b (List.mem_cons_of_mem a hb)) h.2

/-- The first node is the one to start from. -/
theorem linked_head (next : α → Option α) (p : Option α) (as : List α) (h : Linked next p as) :
    as.head? = p := by
  cases as with
  | nil =>
      rw [Linked] at h
      rw [h, List.head?_nil]
  | cons a as => rw [List.head?_cons, h.1]

theorem linked_last (next : α → Option α) (l : α) : ∀ (as : List α) (p : Option α),
    Linked next p (as ++ [l]) → next l = none := by
  intro as
  induction as with
  | nil => intro p h; exact h.2
  | cons a as ih => intro p h; exact ih (next a) h.2

/-- The last node is given a next one. -/
theorem linked_extend (next next' : α → Option α) (l m : α) (hl : next' l = some m)
    (hm : next' m = none) : ∀ (as : List α) (p : Option α), (∀ a ∈ as, next' a = next a) →
    Linked next p (as ++ [l]) → Linked next' p (as ++ [l] ++ [m]) := by
  intro as
  induction as with
  | nil => intro p _ h; exact ⟨h.1, by rw [hl]; exact ⟨rfl, hm⟩⟩
  | cons a as ih =>
      intro p hsame h
      refine ⟨h.1, ?_⟩
      rw [hsame a (List.mem_cons_self ..)]
      exact ih (next a) (fun b hb => hsame b (List.mem_cons_of_mem a hb)) h.2

/-- A node that is not the last is followed by a node behind it. -/
theorem linked_next (next : α → Option α) (a : α) : ∀ (as bs : List α) (p : Option α), bs ≠ [] →
    Linked next p (as ++ a :: bs) → ∃ b, next a = some b ∧ b ∈ bs := by
  intro as
  induction as with
  | nil =>
      intro bs p hne h
      cases bs with
      | nil => exact absurd rfl hne
      | cons b bs => exact ⟨b, h.2.1, List.mem_cons_self ..⟩
  | cons c as ih => intro bs p hne h; exact ih bs (next c) hne h.2

/-! ## Searching a sorted list -/

/-- Where a search ends: at its target, at a node past it, or at the end. -/
inductive Sought (α : Type*)
  | found (a : α)
  | passed
  | ended
deriving DecidableEq

variable [LinearOrder α]

/-- Search from node `p` for `target`, with `n` steps to go. -/
def seek (next : α → Option (Option α)) (target : α) : Nat → Option α → Option (Sought α)
  | 0, _ => none
  | _ + 1, none => some .ended
  | n + 1, some a =>
    if a < target then
      match next a with
      | none => none
      | some p => seek next target n p
    else if target < a then some .passed
    else some (.found a)

/-- While its nodes lie before the target the search goes on. -/
theorem seek_skip (next : α → Option (Option α)) (next' : α → Option α) (target : α) :
    ∀ (as bs : List α) (p : Option α) (n : Nat), Linked next' p (as ++ bs) →
      (∀ a ∈ as, next a = some (next' a)) → (∀ a ∈ as, a < target) → as.length ≤ n →
      ∃ q, Linked next' q bs ∧ seek next target n p = seek next target (n - as.length) q := by
  intro as
  induction as with
  | nil => intro bs p n h _ _ _; exact ⟨p, h, rfl⟩
  | cons a as ih =>
      intro bs p n h hnext hlt hn
      cases n with
      | zero => exact absurd hn (Nat.not_succ_le_zero _)
      | succ n =>
          rcases ih bs (next' a) n h.2 (fun b hb => hnext b (List.mem_cons_of_mem a hb))
            (fun b hb => hlt b (List.mem_cons_of_mem a hb)) (Nat.le_of_succ_le_succ hn) with
            ⟨q, hq, hseek⟩
          refine ⟨q, hq, ?_⟩
          rw [h.1, seek, if_pos (hlt a (List.mem_cons_self ..)), hnext a (List.mem_cons_self ..),
            List.length_cons, Nat.add_sub_add_right]
          exact hseek

theorem seek_found (next : α → Option (Option α)) (next' : α → Option α) (target : α)
    (cs : List α) (p : Option α) (n : Nat) (h : Linked next' p cs)
    (hnext : ∀ a ∈ cs, next a = some (next' a)) (hsorted : cs.Pairwise (· < ·))
    (hn : cs.length < n) (ht : target ∈ cs) : seek next target n p = some (.found target) := by
  rcases List.append_of_mem ht with ⟨as, bs, rfl⟩
  rw [List.length_append] at hn
  rcases seek_skip next next' target as (target :: bs) p n h
    (fun a ha => hnext a (List.mem_append_left _ ha))
    (fun a ha => (List.pairwise_append.mp hsorted).2.2 a ha target (List.mem_cons_self ..))
    (by omega) with ⟨q, hq, hseek⟩
  rw [hseek, hq.1, show n - as.length = (n - as.length - 1) + 1 by omega, seek,
    if_neg (lt_irrefl target), if_neg (lt_irrefl target)]

/-- A sorted list splits at a target that is not in it. -/
theorem split_at (target : α) : ∀ (cs : List α), cs.Pairwise (· < ·) → target ∉ cs →
    ∃ as bs, cs = as ++ bs ∧ (∀ a ∈ as, a < target) ∧ ∀ b ∈ bs, target < b := by
  intro cs
  induction cs with
  | nil =>
      intro _ _
      exact ⟨[], [], rfl, fun a ha => absurd ha List.not_mem_nil,
        fun b hb => absurd hb List.not_mem_nil⟩
  | cons c cs ih =>
      intro hsorted hnot
      rw [List.pairwise_cons] at hsorted
      rw [List.mem_cons, not_or] at hnot
      rcases lt_or_gt_of_ne hnot.1 with hlt | hgt
      · refine ⟨[], c :: cs, rfl, fun a ha => absurd ha List.not_mem_nil, fun b hb => ?_⟩
        rcases List.mem_cons.mp hb with rfl | hb
        · exact hlt
        · exact lt_trans hlt (hsorted.1 b hb)
      · rcases ih hsorted.2 hnot.2 with ⟨as, bs, rfl, has, hbs⟩
        refine ⟨c :: as, bs, rfl, fun a ha => ?_, hbs⟩
        rcases List.mem_cons.mp ha with rfl | ha
        · exact hgt
        · exact has a ha

/-- A search for what is not in the list stops at the first node past it, or at the
    end if there is none. -/
theorem seek_missing (next : α → Option (Option α)) (next' : α → Option α) (target : α)
    (cs : List α) (p : Option α) (n : Nat) (h : Linked next' p cs)
    (hnext : ∀ a ∈ cs, next a = some (next' a)) (hsorted : cs.Pairwise (· < ·))
    (hn : cs.length < n) (ht : target ∉ cs) :
    ((∃ c ∈ cs, target < c) ∧ seek next target n p = some .passed) ∨
      ((∀ c ∈ cs, c < target) ∧ seek next target n p = some .ended) := by
  rcases split_at target cs hsorted ht with ⟨as, bs, rfl, has, hbs⟩
  rw [List.length_append] at hn
  rcases seek_skip next next' target as bs p n h (fun a ha => hnext a (List.mem_append_left _ ha))
    has (by omega) with ⟨q, hq, hseek⟩
  rw [hseek, show n - as.length = (n - as.length - 1) + 1 by omega]
  cases bs with
  | nil =>
      rw [List.append_nil]
      rw [Linked] at hq
      rw [hq, seek]
      exact Or.inr ⟨has, rfl⟩
  | cons b bs =>
      have hb := hbs b (List.mem_cons_self ..)
      rw [hq.1, seek, if_neg (lt_asymm hb), if_pos hb]
      exact Or.inl ⟨⟨b, List.mem_append_right _ (List.mem_cons_self ..), hb⟩, rfl⟩

end Links

end LocalKeyValue
