import LocalKeyValue.FaRM.HopExact
import LocalKeyValue.Lib.Assign

/-!
# When an Insert Succeeds

The displacement of an insert is greedy: it starts from the first empty bucket,
takes the nearest home that can move an entry into it, and of that home the
entry its lowest bit names. It never needs to undo a choice. When it succeeds,
the places the entries are then in, and the new key's, are an arrangement of all
of them. When it is stuck, no home just below the hole has an entry below it, so
every entry between the new key's home and the hole belongs to a home whose
reach ends before the hole, and so does the new key: they are one too many for
the buckets between the two.

The buckets from the key's home up to the hole are as they were before the
insert, whatever hops have been made above, so the count is of the table the
insert began with.

An insert that fails leaves stale copies behind, so this is done for tables that
have some already. A stale bucket is never used again: it is not empty, and no
bit names it.

## Main definitions

* `Stale`: A bucket with a key that no bit names.
* `Item`, `Suits`, `Room`: The entries from a key's home on and the key itself
  fit into the buckets from there on.
* `Tracks`: The loop invariant of the displacement.
* `Arrangeable`: The stored keys and a new one fit.

## Theorems

* `not_room_below`: Buckets filled with entries that cannot get out of them.
* `insert_tracks`: How an insert ends.
* `insert_room`: An insert succeeds just when there is room.
* `insert_complete`: In a hop-exact table it does when the keys can be arranged.
-/

namespace LocalKeyValue

namespace FaRM

open Assign

/-- The bucket holds a key and is no entry. -/
def Stale (ht : HashTable) (p : Nat) : Prop :=
  p < ht.sz ∧ 0 ≤ (ht.buckets p).key ∧ ¬ Marked ht p

instance (ht : HashTable) (p : Nat) : Decidable (Stale ht p) :=
  inferInstanceAs (Decidable (_ ∧ _))

/-- What is to have a bucket: the new key, `none`, or the entry of a bucket. -/
abbrev Item : Type :=
  Option Nat

def itemHome (ht : HashTable) (k : Int) : Item → Nat
  | none => home k
  | some p => home (ht.buckets p).key

/-- The new key, and the entries from its home on. -/
def items (ht : HashTable) (k : Int) : Set Item :=
  {a | ∀ p ∈ a, Marked ht p ∧ home k ≤ p}

/-- The bucket lies from the new key's home on and within reach of the item's,
    and is not a stale one. -/
def Suits (ht : HashTable) (k : Int) (a : Item) (q : Nat) : Prop :=
  home k ≤ q ∧ q < ht.sz ∧ ¬ Stale ht q ∧ itemHome ht k a ≤ q ∧
    q < itemHome ht k a + hopscotchHopinfoSize

/-- The new key and the entries fit into these buckets. -/
def Room (ht : HashTable) (k : Int) : Prop :=
  Assignable (items ht k) (Suits ht k)

/-- A bucket with a key is an entry or stale. -/
theorem marked_or_stale (ht : HashTable) (E : Nat → Prop) (hE : Exact ht E) (p : Nat)
    (hp : p < ht.sz) (hne : (ht.buckets p).key ≠ -1) : Marked ht p ∨ Stale ht p := by
  by_cases hm : Marked ht p
  · exact Or.inl hm
  · exact Or.inr ⟨hp, (hE.keys p hp).resolve_left hne, hm⟩

/-- There is no room if the buckets from the home up to some point are filled
    with entries that cannot be moved past it, nor the new key put there. -/
theorem not_room_below (ht : HashTable) (E : Nat → Prop) (hE : Exact ht E) (k : Int) (e : Nat)
    (hfull : ∀ p, home k ≤ p → p < e → (ht.buckets p).key ≠ -1)
    (hreach : e = ht.sz ∨ (home k + hopscotchHopinfoSize ≤ e ∧ ∀ p, Marked ht p → home k ≤ p →
      p < e → home (ht.buckets p).key + hopscotchHopinfoSize ≤ e)) : ¬ Room ht k := by
  let A := (Finset.range e).filter (fun p => home k ≤ p ∧ Marked ht p)
  have hA : ∀ p, p ∈ A ↔ p < e ∧ home k ≤ p ∧ Marked ht p := fun p => by
    simp only [A, Finset.mem_filter, Finset.mem_range]
  refine not_assignable_of_confined (items ht k) (Suits ht k) (Finset.insertNone A) A
    (fun a ha p hp => ?_) (fun a ha q hq => ?_) ?_
  · have hpA := (hA p).mp (Finset.mem_insertNone.mp ha p hp)
    exact ⟨hpA.2.2, hpA.2.1⟩
  · rcases hq with ⟨hle, hsz, hns, _, hlt⟩
    have hqe : q < e := by
      rcases hreach with hend | ⟨hnew, hold⟩
      · omega
      · cases a with
        | none => exact Nat.lt_of_lt_of_le hlt hnew
        | some p =>
            have hpA := (hA p).mp (Finset.mem_insertNone.mp ha p rfl)
            exact Nat.lt_of_lt_of_le hlt (hold p hpA.2.2 hpA.2.1 hpA.1)
    exact (hA q).mpr ⟨hqe, hle, (marked_or_stale ht E hE q hsz (hfull q hle hqe)).resolve_right hns⟩
  · rw [Finset.card_insertNone]
    exact Nat.lt_succ_self _

/-! ## The displacement -/

/-- The table `t` and hole `q` of a displacement that began with `ht`. Up to the
    hole nothing has changed, and there is no empty bucket from the home on; the
    entries are in buckets from the home on still, no two in one. -/
structure Tracks (ht : HashTable) (k : Int) (E : Nat → Prop) (t : HashTable) (q : Nat) : Prop where
  sz : t.sz = ht.sz
  inArray : q < ht.sz
  hole : entries t q = none
  exact : Exact t (fun p => p = q ∨ E p)
  le : home k ≤ q
  below : ∀ p, p < q → entries t p = entries ht p
  full : ∀ p, home k ≤ p → p < q → (ht.buckets p).key ≠ -1
  usable : ¬ Stale ht q
  moved : ∃ pos : Nat → Nat, (∀ p, Marked ht p → home k ≤ p →
      home k ≤ pos p ∧ ¬ Stale ht (pos p) ∧ entries t (pos p) = entries ht p) ∧
    Set.InjOn pos {p | Marked ht p ∧ home k ≤ p}

section Insert

variable (ht : HashTable) (k : Int) (E : Nat → Prop)

theorem tracks_start (hE : Exact ht E) (i : Nat)
    (hi : firstEmpty ht (ht.sz - home k) (home k) = some i) : Tracks ht k E ht i := by
  rcases firstEmpty_spec ht _ _ i hi with ⟨hle, hlt, hempty⟩
  refine ⟨rfl, by omega, entries_of_empty ht i hempty,
    exact_mono ht E _ hE (fun _ he => Or.inr he), hle, fun _ _ => rfl,
    firstEmpty_min ht _ _ i hi, fun hst => ?_, id, fun p hm hp => ?_, Set.injOn_id _⟩
  · have := hst.2.1
    omega
  · exact ⟨hp, fun hst => hst.2.2 hm, rfl⟩

/-- No entry is in the hole. -/
theorem ne_hole (t : HashTable) (q p s : Nat) (hhole : entries t q = none) (hm : Marked ht p)
    (hent : entries t s = entries ht p) : s ≠ q := by
  intro hs
  rw [hs, hhole] at hent
  exact (marked_iff ht p).mp hm hent.symm

/-- A hop moves one entry into the hole. -/
theorem tracks_hop (t : HashTable) (q j off : Nat) (h : Tracks ht k E t q)
    (h6 : hopscotchHopinfoSize ≤ q - home k)
    (hd : donor t q (hopscotchHopinfoSize - 1) 1 = some (j, off)) :
    Tracks ht k E (hop t q j off) (q - j + off) := by
  rcases donor_hop t (home k) q j off h6 hd with ⟨hj1, hj6, hjq, hoff, hbit, hle, hlt⟩
  have hqt : q < t.sz := by rw [h.sz]; exact h.inArray
  have htrue := (h.exact.bits (q - j) off (by omega) hbit).2.2
  have hmove := entries_hop t q j off hj1 hj6 hjq hoff hqt hbit htrue
  rcases (hopInvariant_exact (home k) E).hop 0 t q j off ⟨hqt, h.hole, h.exact⟩ hqt h6 hd with
    ⟨_, hhole, hexact⟩
  -- The bucket it takes the entry from is one of those that have not changed.
  have hsrc : Marked ht (q - j + off) := by
    rw [marked_iff, ← h.below _ hlt, ← marked_iff]
    exact marked_of_exact_bit t _ h.exact (q - j) off (by omega) hbit
  rcases h.moved with ⟨pos, hpos, hinj⟩
  have hne : ∀ p, Marked ht p → home k ≤ p → pos p ≠ q := fun p hm hp =>
    ne_hole ht t q p (pos p) h.hole hm (hpos p hm hp).2.2
  refine ⟨h.sz, Nat.lt_trans hlt h.inArray, hhole, hexact, hle, fun p hp => ?_,
    fun p hp hpq => h.full p hp (by omega), fun hst => hst.2.2 hsrc,
    fun p => if pos p = q - j + off then q else pos p, fun p hm hp => ?_, fun a ha b hb hab => ?_⟩
  · rw [hmove, Cells.move, Function.update_of_ne (by omega), Function.update_of_ne (by omega)]
    exact h.below p (by omega)
  · rcases hpos p hm hp with ⟨hge, hns, hent⟩
    by_cases hps : pos p = q - j + off
    · simp only [if_pos hps]
      refine ⟨h.le, h.usable, ?_⟩
      rw [hmove, Cells.move, Function.update_of_ne (by omega), Function.update_self, ← hps, hent]
    · simp only [if_neg hps]
      refine ⟨hge, hns, ?_⟩
      rw [hmove, Cells.move, Function.update_of_ne hps, Function.update_of_ne (hne p hm hp), hent]
  · simp only at hab
    by_cases hpa : pos a = q - j + off
    · by_cases hpb : pos b = q - j + off
      · exact hinj ha hb (hpa.trans hpb.symm)
      · rw [if_pos hpa, if_neg hpb] at hab
        exact absurd hab.symm (hne b hb.1 hb.2)
    · by_cases hpb : pos b = q - j + off
      · rw [if_neg hpa, if_pos hpb] at hab
        exact absurd hab (hne a ha.1 ha.2)
      · rw [if_neg hpa, if_neg hpb] at hab
        exact hinj ha hb hab

/-- Where the hole comes within reach, the table is an arrangement. -/
theorem tracks_reached (t : HashTable) (q : Nat) (h : Tracks ht k E t q)
    (h6 : q - home k < hopscotchHopinfoSize) : Room ht k := by
  rcases h.moved with ⟨pos, hpos, hinj⟩
  have hne : ∀ p, Marked ht p → home k ≤ p → pos p ≠ q := fun p hm hp =>
    ne_hole ht t q p (pos p) h.hole hm (hpos p hm hp).2.2
  refine ⟨fun a => a.elim q pos, fun a ha => ?_, fun a ha b hb hab => ?_⟩
  · cases a with
    | none =>
        have hle := h.le
        exact ⟨h.le, h.inArray, h.usable, h.le, by simp only [itemHome, Option.elim]; omega⟩
    | some p =>
        rcases ha p rfl with ⟨hm, hp⟩
        rcases hpos p hm hp with ⟨hge, hns, hent⟩
        -- The entry is within reach of its home where it is now.
        rw [entries_of_marked ht p hm, entries_eq_some] at hent
        rcases hent with ⟨⟨hsz, _, hlo, hhi, _⟩, hkey, _⟩
        rw [hkey] at hlo hhi
        rw [h.sz] at hsz
        exact ⟨hge, hsz, hns, hlo, by simp only [itemHome, Option.elim]; omega⟩
  · cases a with
    | none =>
        cases b with
        | none => rfl
        | some p => exact absurd hab.symm (hne p (hb p rfl).1 (hb p rfl).2)
    | some p =>
        cases b with
        | none => exact absurd hab (hne p (ha p rfl).1 (ha p rfl).2)
        | some p' => exact congrArg some (hinj (ha p rfl) (hb p' rfl) hab)

/-- Where it is stuck there is no arrangement. -/
theorem tracks_stuck (hE : Exact ht E) (t : HashTable) (q : Nat) (h : Tracks ht k E t q)
    (h6 : hopscotchHopinfoSize ≤ q - home k)
    (hd : donor t q (hopscotchHopinfoSize - 1) 1 = none) : ¬ Room ht k := by
  have hle := h.le
  refine not_room_below ht E hE k q h.full (Or.inr ⟨by omega, ?_⟩)
  intro p hm _ hpq
  have hent := h.below p hpq
  rw [entries_of_marked ht p hm, entries_eq_some] at hent
  rcases hent with ⟨⟨_, _, hlo, _, hbit⟩, hkey, _⟩
  rw [hkey] at hlo hbit
  by_contra hreach
  -- A home that reaches the hole would be a donor, the entry lying below the hole.
  have hnone := donor_none t q _ 1 hd (q - home (ht.buckets p).key) (by omega)
    (by simp only [hopscotchHopinfoSize] at hreach ⊢; omega) (p - home (ht.buckets p).key)
    (by omega)
  rw [show q - (q - home (ht.buckets p).key) = home (ht.buckets p).key by omega, hbit] at hnone
  exact absurd hnone (by decide)

/-- An insert finds no empty bucket, or ends with the hole within reach of the
    home, or with the displacement stuck. -/
theorem insert_tracks (hE : Exact ht E) (d : Int) (hk : 0 ≤ k) :
    (hopscotchInsert ht k d = some (ht, -1) ∧
        ∀ p, home k ≤ p → p < ht.sz → (ht.buckets p).key ≠ -1) ∨
      ∃ t q, Tracks ht k E t q ∧
        ((hopscotchInsert ht k d = some (store t (home k) q k d, 0) ∧
            q - home k < hopscotchHopinfoSize) ∨
          (hopscotchInsert ht k d = some (t, -1) ∧ hopscotchHopinfoSize ≤ q - home k ∧
            donor t q (hopscotchHopinfoSize - 1) 1 = none)) := by
  have hidx := homeIdx_eq ht k hk
  have hlt := home_lt_sz ht hE.exponent k
  cases hfe : firstEmpty ht (ht.sz - home k) (home k) with
  | none =>
      have hfull := (firstEmpty_eq_none ht _ _).mp hfe
      exact Or.inl ⟨insert_full ht k d _ hidx hfe, fun p hp hsz => hfull p hp (by omega)⟩
  | some i =>
      have hstart := tracks_start ht k E hE i hfe
      rcases displace_rule (home k) (fun _ t q => Tracks ht k E t q)
        (fun _ t q j off h h6 hd => tracks_hop ht k E t q j off h h6 hd) (i + 1) ht i hstart
        hstart.le (Nat.lt_succ_self i) with ⟨t, r, hrun, _, _, q, hq, _, _, hend⟩
      refine Or.inr ⟨t, q, hq, ?_⟩
      rcases hend with ⟨rfl, h6⟩ | ⟨rfl, h6, hd⟩
      · exact Or.inl ⟨insert_stored ht k d _ hidx t i q hfe hrun, h6⟩
      · exact Or.inr ⟨insert_stuck ht k d _ hidx t i hfe hrun, h6, hd⟩

/-- An insert returns, and succeeds just when there is room. -/
theorem insert_room (hE : Exact ht E) (d : Int) (hk : 0 ≤ k) :
    ∃ ht' r, hopscotchInsert ht k d = some (ht', r) ∧ (r = 0 ∨ r = -1) ∧ (r = 0 ↔ Room ht k) := by
  rcases insert_tracks ht k E hE d hk with
    ⟨hrun, hfull⟩ | ⟨t, q, hq, ⟨hrun, h6⟩ | ⟨hrun, h6, hd⟩⟩
  · -- All buckets from the home on are filled.
    exact ⟨ht, -1, hrun, Or.inr rfl,
      iff_of_false (by decide) (not_room_below ht E hE k ht.sz hfull (Or.inl rfl))⟩
  · exact ⟨_, 0, hrun, Or.inl rfl, iff_of_true rfl (tracks_reached ht k E t q hq h6)⟩
  · exact ⟨t, -1, hrun, Or.inr rfl,
      iff_of_false (by decide) (tracks_stuck ht k E hE t q hq h6 hd)⟩

end Insert

/-! ## In a hop-exact table -/

/-- The keys in the buckets from the key's home on, and the key, fit into these
    buckets, no two into one and each within reach of its own home. -/
def Arrangeable (ht : HashTable) (k : Int) : Prop :=
  Assignable
    {a : Int | a = k ∨ (0 ≤ a ∧ ∃ p, home k ≤ p ∧ p < ht.sz ∧ (ht.buckets p).key = a)}
    (fun a q => home k ≤ q ∧ q < ht.sz ∧ home a ≤ q ∧ q < home a + hopscotchHopinfoSize)

/-- There no bucket is stale, and the keys tell the entries apart. -/
theorem room_iff_arrangeable (ht : HashTable) (h : HopExact ht) (k : Int) (hk : 0 ≤ k)
    (habs : ¬ Stored ht k) : Room ht k ↔ Arrangeable ht k := by
  rcases (hopExact_iff ht).mp h with ⟨hE, _⟩
  -- The key to come is none of the entries', so it can stand for itself.
  have hnew : ∀ p, Marked ht p → (ht.buckets p).key ≠ k := fun p hm he =>
    habs ⟨_, hk, p, hm.1, he, rfl⟩
  refine assignable_iff_of_bijOn (items ht k) _ (Suits ht k) _
    (fun a : Item => a.elim k (fun p => (ht.buckets p).key)) ⟨?maps, ?inj, ?surj⟩ ?suits
  case maps =>
    intro a ha
    cases a with
    | none => exact Or.inl rfl
    | some p =>
        rcases ha p rfl with ⟨hm, hp⟩
        exact Or.inr ⟨hm.2.1, p, hp, hm.1, rfl⟩
  case inj =>
    intro a ha b hb hab
    cases a with
    | none =>
        cases b with
        | none => rfl
        | some q => exact absurd hab.symm (hnew q (hb q rfl).1)
    | some p =>
        cases b with
        | none => exact absurd hab (hnew p (ha p rfl).1)
        | some q =>
            have hm := (ha p rfl).1
            exact congrArg some (h.unique p q hm.1 (hb q rfl).1.1 hm.2.1 hab)
  case surj =>
    intro a ha
    rcases ha with rfl | ⟨h0, p, hp, hsz, hkey⟩
    · exact ⟨none, fun p hp => absurd hp (Option.not_mem_none p), rfl⟩
    · refine ⟨some p, fun q hq => ?_, hkey⟩
      rw [Option.mem_some_iff] at hq
      rw [← hq]
      exact ⟨hE.marked p hsz not_false (by rw [hkey]; exact h0), hp⟩
  case suits =>
    intro a _ q
    -- Every bucket with a key is marked here.
    have hfresh : q < ht.sz → ¬ Stale ht q := fun hq hst =>
      hst.2.2 (hE.marked q hq not_false hst.2.1)
    have hhome : itemHome ht k a = home (a.elim k (fun p => (ht.buckets p).key)) := by
      cases a with
      | none => rfl
      | some p => rfl
    rw [Suits, hhome]
    constructor
    · intro hs
      exact ⟨hs.1, hs.2.1, hs.2.2.2⟩
    · intro hs
      exact ⟨hs.1, hs.2.1, hfresh hs.2.1, hs.2.2⟩

/-- An insert of an absent key returns, and returns 0 just when the keys from its
    home on can be arranged with it. -/
theorem insert_complete (ht : HashTable) (h : HopExact ht) (k d : Int) (hk : 0 ≤ k)
    (habs : ¬ Stored ht k) :
    ∃ ht' r, hopscotchInsert ht k d = some (ht', r) ∧ (r = 0 ∨ r = -1) ∧
      (r = 0 ↔ Arrangeable ht k) := by
  rw [← room_iff_arrangeable ht h k hk habs]
  exact insert_room ht k _ ((hopExact_iff ht).mp h).1 d hk

/-- A key whose home is full, and the first empty bucket out of its reach. -/
theorem insert_complete_rowTable : ∃ ht', hopscotchInsert rowTable 4194304 9 = some (ht', 0) ∧
    firstEmpty rowTable rowTable.sz 0 = some 6 ∧ Arrangeable rowTable 4194304 := by
  rcases insert_complete rowTable rowTable_spec.1 4194304 9 (by decide) rowTable_spec.2 with
    ⟨ht', r, hrun, _, hr⟩
  have hres : (hopscotchInsert rowTable 4194304 9).map Prod.snd = some 0 := by decide +kernel
  rw [hrun, Option.map_some, Option.some.injEq] at hres
  exact ⟨ht', by rw [hrun, ← hres], by decide +kernel, hr.mp hres⟩

end FaRM

end LocalKeyValue
