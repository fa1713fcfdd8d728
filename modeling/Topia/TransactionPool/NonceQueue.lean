import Mathlib.Data.List.Range
import Topia.Lib.Consecutive
import Topia.Lib.Run
import Topia.TransactionPool.Accounts

/-!
# The nonces of one account

Any sequence of `AddTx` and `removePendingTx` on one `accountTxManager`, with the nonces it accepted
and the transactions it sent. The calls hold the lock of the account, so each is one step.

The loop of `AddTx` keeps that the nonces sent so far are `1, …, maxContNonce` and that what waits
is later. It ends when nothing waits with the next nonce.
-/

namespace Topia.TransactionPool

open Lib Transaction

inductive AccountCall (T : TxCodec) where
  | addTx (wTx : TxWrapper T)
  | removePendingTx (nonce : Nat)

structure AccountRun (T : TxCodec) where
  account : AccountTxManager T
  accepted : List Nat
  sent : List (TxWrapper T)

namespace AccountRun

variable {T : TxCodec}

def new (T : TxCodec) : AccountRun T := ⟨.newAccountTxManager T, [], []⟩

def call (s : AccountRun T) : AccountCall T → Option (AccountRun T)
  | .addTx wTx =>
    match s.account.AddTx wTx with
    | .error _ => some s
    | .ok (account, sent) => some ⟨account, s.accepted ++ [wTx.Nonce], s.sent ++ sent⟩
  | .removePendingTx nonce => some { s with account := s.account.removePendingTx nonce }

structure NonceQueue (s : AccountRun T) : Prop where
  pending : ∀ n ∈ s.account.pendingTxs, n ≤ s.account.maxContNonce
  gap : ∀ n ∈ s.account.gapTxs, s.account.maxContNonce + 1 < n
  disjoint : ∀ n ∈ s.account.pendingTxs, n ∉ s.account.gapTxs
  held : ∀ wTx : TxWrapper T, wTx.Nonce ∈ s.account.pendingTxs ∨ wTx.Nonce ∈ s.account.gapTxs →
    ∃ err, s.account.AddTx wTx = .error err
  once : s.accepted.Nodup
  consecutive : Consecutive (s.sent.map TxWrapper.Nonce)

open AccountTxManager AList List

section Loop

variable {a : AccountTxManager T} {log sent : List (TxWrapper T)} {wTx : TxWrapper T}
  {accepted : List Nat}

structure Sending (accepted : List Nat) (log : List (TxWrapper T)) (a : AccountTxManager T) :
    Prop where
  max_lt : a.maxContNonce < 2 ^ 64 - 1
  pending : ∀ n ∈ a.pendingTxs, n ≤ a.maxContNonce
  gap : ∀ n w, a.gapTxs.lookup n = some w → w.Nonce = n ∧ a.maxContNonce < n ∧ n < 2 ^ 64 - 1
  accepted : ∀ n ∈ accepted, n ≤ a.maxContNonce ∨ n ∈ a.gapTxs
  sent : log.map TxWrapper.Nonce = range' 1 a.maxContNonce

theorem nextNonce_eq_succ (hmax : a.maxContNonce < 2 ^ 64 - 1) : a.nextNonce = a.maxContNonce + 1 :=
  Nat.mod_eq_of_lt (by omega)

theorem map_Nonce_concat (hnonce : wTx.Nonce = a.maxContNonce + 1)
    (h : log.map TxWrapper.Nonce = range' 1 a.maxContNonce) :
    (log ++ [wTx]).map TxWrapper.Nonce = range' 1 (a.maxContNonce + 1) := by
  rw [map_append, h, map_singleton, hnonce, range'_concat, Nat.one_mul, Nat.add_comm]

theorem sending_pendGap (h : Sending accepted log a)
    (hnonce : wTx.Nonce = a.nextNonce) (hbelow : wTx.Nonce < 2 ^ 64 - 1) :
    Sending accepted (log ++ [wTx]) (a.pendGap wTx) := by
  have hsucc := nextNonce_eq_succ h.max_lt
  have hmax : (a.pendGap wTx).maxContNonce = a.maxContNonce + 1 := hsucc
  refine ⟨by omega, ?_, ?_, ?_, ?_⟩
  · intro n hn
    rcases (mem_insert _).mp hn with rfl | hn
    · omega
    · have hle := h.pending n hn
      omega
  · intro n w hw
    rw [lookup_pendGap] at hw
    split_ifs at hw with hne
    obtain ⟨hnonce, hlater, hbelow⟩ := h.gap n w hw
    exact ⟨hnonce, by omega, hbelow⟩
  · intro n hn
    rcases h.accepted n hn with hle | hwaits
    · exact .inl (by omega)
    · by_cases hne : n = a.nextNonce
      · exact .inl (by omega)
      · exact .inr (mem_erase.mpr ⟨hne, hwaits⟩)
  · rw [hmax]
    exact map_Nonce_concat (hnonce.trans hsucc) h.sent

theorem sending_promote (fuel : Nat) (h : Sending accepted (log ++ sent) a) :
    Sending accepted (log ++ (a.promote fuel sent).2) (a.promote fuel sent).1 := by
  refine promote_induction
    (P := fun a sent => Sending accepted (log ++ sent) a) ?_ fuel h
  intro a sent wTxNew h hgap
  obtain ⟨hnonce, _, hbelow⟩ := h.gap _ _ hgap
  rw [← append_assoc]
  exact sending_pendGap h hnonce (hnonce ▸ hbelow)

theorem pend_eq_pendGap (hgap : a.gapTxs.lookup a.nextNonce = none) :
    a.pend wTx = a.pendGap wTx := by
  have herase : a.gapTxs.erase a.nextNonce = a.gapTxs :=
    AList.ext (kerase_of_notMem_keys (lookup_eq_none.mp hgap))
  rw [pendGap, herase]
  rfl

end Loop

section Run

variable {s s' : AccountRun T} {wTx : TxWrapper T} {nonce : Nat}

structure Queued (s : AccountRun T) : Prop where
  sending : Sending s.accepted s.sent s.account
  closed : s.account.gapTxs.lookup s.account.nextNonce = none
  once : s.accepted.Nodup

theorem queued_new (T : TxCodec) : Queued (new T) := by
  refine ⟨⟨Nat.sub_pos_of_lt (by decide), ?_, ?_, by simp [new], rfl⟩, rfl, nodup_nil⟩
  · intro n hn
    exact absurd hn (notMem_empty n)
  · intro n w hw
    cases hw

theorem queued_addTx {account : AccountTxManager T} {sent : List (TxWrapper T)} (h : Queued s)
    (hlt : wTx.Nonce < 2 ^ 64 - 1) (hok : s.account.AddTx wTx = .ok (account, sent)) :
    Queued ⟨account, s.accepted ++ [wTx.Nonce], s.sent ++ sent⟩ := by
  have hsucc := nextNonce_eq_succ h.sending.max_lt
  obtain ⟨_, hgap, hcase⟩ := AddTx_cases hok
  have hwaits : wTx.Nonce ∉ s.account.gapTxs := lookup_eq_none.mp hgap
  have hfresh : s.account.nextNonce ≤ wTx.Nonce → wTx.Nonce ∉ s.accepted := by
    intro hle hmem
    rcases h.sending.accepted _ hmem with hknown | hknown
    · omega
    · exact hwaits hknown
  rcases hcase with ⟨hnext, heq⟩ | ⟨hlater, rfl, rfl⟩
  · -- the next nonce, and those that follow it
    have hpend := sending_pendGap h.sending hnext hlt
    rw [← pend_eq_pendGap (hnext ▸ hgap)] at hpend
    have hstart : Sending (s.accepted ++ [wTx.Nonce]) (s.sent ++ [wTx]) (s.account.pend wTx) := by
      refine { hpend with accepted := ?_ }
      intro n hn
      rcases mem_append.mp hn with hn | hn
      · exact hpend.accepted n hn
      · rw [mem_singleton.mp hn, hnext]
        exact .inl (Nat.le_refl _)
    have hloop := sending_promote s.account.gapTxs.keys.length hstart
    have hdone := promote_done (a := s.account.pend wTx) [wTx]
      (Nat.le_refl s.account.gapTxs.keys.length)
    rw [← heq] at hloop hdone
    refine ⟨hloop, hdone, ?_⟩
    rw [← concat_eq_append]
    exact h.once.concat (hfresh (Nat.le_of_eq hnext.symm))
  · -- a later nonce waits
    refine ⟨⟨h.sending.max_lt, h.sending.pending, ?_, ?_, by simpa using h.sending.sent⟩, ?_, ?_⟩
    · intro n w hw
      rw [lookup_gapInsert] at hw
      split_ifs at hw with hn
      · cases hw
        exact ⟨hn.symm, by show s.account.maxContNonce < n; omega, by omega⟩
      · exact h.sending.gap n w hw
    · intro n hn
      rw [mem_insert]
      rcases mem_append.mp hn with hn | hn
      · exact (h.sending.accepted n hn).imp_right .inr
      · exact .inr (.inl (mem_singleton.mp hn))
    · show (s.account.gapTxs.insert wTx.Nonce wTx).lookup s.account.nextNonce = none
      rw [lookup_gapInsert, if_neg (Nat.ne_of_lt hlater)]
      exact h.closed
    · rw [← concat_eq_append]
      exact h.once.concat (hfresh (Nat.le_of_lt hlater))

theorem queued_removePendingTx (h : Queued s) :
    Queued { s with account := s.account.removePendingTx nonce } := by
  refine ⟨{ h.sending with pending := ?_ }, h.closed, h.once⟩
  intro n hn
  exact h.sending.pending n (mem_erase.mp hn).2

theorem nonceQueue_of_queued (h : Queued s) : NonceQueue s := by
  have hsucc := nextNonce_eq_succ h.sending.max_lt
  have hgap : ∀ n ∈ s.account.gapTxs, s.account.maxContNonce + 1 < n := by
    intro n hn
    obtain ⟨w, hw⟩ := Option.isSome_iff_exists.mp (lookup_isSome.mpr hn)
    obtain ⟨_, hlater, _⟩ := h.sending.gap n w hw
    have hne : n ≠ s.account.nextNonce := by
      rintro rfl
      rw [h.closed] at hw
      cases hw
    omega
  refine ⟨h.sending.pending, hgap, ?_, ?_, h.once, ?_⟩
  · intro n hpending hwaits
    have hle := h.sending.pending n hpending
    have hlt := hgap n hwaits
    omega
  · intro wTx hheld
    cases hadd : s.account.AddTx wTx with
    | error err => exact ⟨err, rfl⟩
    | ok result =>
      obtain ⟨hpending, hwaits, _⟩ := AddTx_cases hadd
      rcases hheld with hheld | hheld
      · exact absurd hheld (lookup_eq_none.mp hpending)
      · exact absurd hheld (lookup_eq_none.mp hwaits)
  · rw [h.sending.sent]
    exact isChain_range' 1 s.account.maxContNonce 1

theorem queued_call {c : AccountCall T} (h : Queued s)
    (hlt : ∀ wTx, c = .addTx wTx → wTx.Nonce < 2 ^ 64 - 1) (hcall : s.call c = some s') :
    Queued s' := by
  cases c with
  | addTx wTx =>
    cases hadd : s.account.AddTx wTx with
    | error err =>
      simp only [call, hadd] at hcall
      cases hcall
      exact h
    | ok result =>
      simp only [call, hadd] at hcall
      cases hcall
      exact queued_addTx h (hlt wTx rfl) hadd
  | removePendingTx nonce =>
    cases hcall
    exact queued_removePendingTx h

/-- **The nonces of an account are in order all along.** Pending nonces are at most `maxContNonce`,
waiting ones later than the next, none is both or accepted twice, and what was sent is
consecutive. -/
theorem nonceQueue_of_run (T : TxCodec) (calls : List (AccountCall T))
    (hnonces : ∀ wTx, .addTx wTx ∈ calls → wTx.Nonce < 2 ^ 64 - 1) :
    Throughout call NonceQueue (new T) calls := by
  have halong : Along call (fun _ c => ∀ wTx, c = .addTx wTx → wTx.Nonce < 2 ^ 64 - 1) (new T)
      calls := by
    refine along_of_forall_mem ?_ (new T)
    rintro c hc _ wTx rfl
    exact hnonces wTx hc
  exact throughout_of_along (fun _ _ _ => queued_call)
    (fun _ h => nonceQueue_of_queued h) (queued_new T) halong

theorem nonceQueue_of_late_first_nonce :
    Throughout call NonceQueue (new plainCodec)
      [.addTx (.plain 1 2 1 0 100), .addTx (.plain 1 1 1 1 100), .addTx (.plain 1 1 2 2 100),
        .removePendingTx 1] := by
  refine nonceQueue_of_run plainCodec _ ?_
  intro wTx hwTx
  simp only [mem_cons, AccountCall.addTx.injEq, reduceCtorEq, not_mem_nil, or_false] at hwTx
  rcases hwTx with rfl | rfl | rfl
  · decide
  · decide
  · decide

end Run

end AccountRun

end Topia.TransactionPool
