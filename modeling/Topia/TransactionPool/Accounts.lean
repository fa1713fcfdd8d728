import Mathlib.Data.List.AList
import Topia.TransactionPool.SortedTxs

/-!
# The transactions of one account

`accountTxManager` of `transaction_pool/core/accounts_txs.go`. A transaction with the nonce after
`maxContNonce` is pending and goes to the channel, and the following nonces that wait in `gapTxs`
after it. `AddTx` returns the transactions it sends.
-/

namespace Topia.TransactionPool

open Lib Transaction

inductive AddError where
  | existedTx (txID : TxID)
  | existedPending (nonce : Nat) (txID : TxID)
  | existedGap (nonce : Nat) (txID : TxID)
  | invalidNonce (nonce expected : Nat) (txID : TxID)
deriving DecidableEq, Repr

structure AccountTxManager (T : TxCodec) where
  pendingTxs : AList (fun _ : Nat => TxWrapper T)
  gapTxs : AList (fun _ : Nat => TxWrapper T)
  maxContNonce : Nat

namespace AccountTxManager

variable {T : TxCodec}

def newAccountTxManager (T : TxCodec) : AccountTxManager T := ⟨∅, ∅, 0⟩

variable (a : AccountTxManager T) (wTx : TxWrapper T)

def nextNonce : Nat := wrap64 (a.maxContNonce + 1)

def pend : AccountTxManager T :=
  { a with pendingTxs := a.pendingTxs.insert a.nextNonce wTx, maxContNonce := a.nextNonce }

def pendGap : AccountTxManager T :=
  { a.pend wTx with gapTxs := a.gapTxs.erase a.nextNonce }

/-- The loop of `AddTx` over the waiting ones, with what is sent; the first argument bounds the
rounds. -/
def promote : Nat → AccountTxManager T → List (TxWrapper T) →
    AccountTxManager T × List (TxWrapper T)
  | 0, a, sent => (a, sent)
  | fuel + 1, a, sent =>
    match a.gapTxs.lookup a.nextNonce with
    | none => (a, sent)
    | some wTxNew => promote fuel (a.pendGap wTxNew) (sent ++ [wTxNew])

def AddTx : Except AddError (AccountTxManager T × List (TxWrapper T)) :=
  if (a.pendingTxs.lookup wTx.Nonce).isSome then .error (.existedPending wTx.Nonce wTx.TxID)
  else if (a.gapTxs.lookup wTx.Nonce).isSome then .error (.existedGap wTx.Nonce wTx.TxID)
  else if wTx.Nonce = a.nextNonce then
    .ok ((a.pend wTx).promote a.gapTxs.keys.length [wTx])
  else if a.nextNonce < wTx.Nonce then
    .ok ({ a with gapTxs := a.gapTxs.insert wTx.Nonce wTx }, [])
  else .error (.invalidNonce wTx.Nonce a.nextNonce wTx.TxID)

def removePendingTx (nonce : Nat) : AccountTxManager T :=
  { a with pendingTxs := a.pendingTxs.erase nonce }

open AList

section Loop

variable {a a' : AccountTxManager T} {sent sent' : List (TxWrapper T)} {wTx : TxWrapper T}
variable {fuel : Nat}

theorem promote_of_none (hgap : a.gapTxs.lookup a.nextNonce = none) :
    promote (fuel + 1) a sent = (a, sent) := by
  simp [promote, hgap]

theorem promote_of_some (hgap : a.gapTxs.lookup a.nextNonce = some wTx) :
    promote (fuel + 1) a sent = promote fuel (a.pendGap wTx) (sent ++ [wTx]) := by
  simp [promote, hgap]

theorem promote_induction {P : AccountTxManager T → List (TxWrapper T) → Prop}
    (hround : ∀ a sent wTxNew, P a sent → a.gapTxs.lookup a.nextNonce = some wTxNew →
      P (a.pendGap wTxNew) (sent ++ [wTxNew]))
    (fuel : Nat) (hstart : P a sent) :
    P (promote fuel a sent).1 (promote fuel a sent).2 := by
  induction fuel generalizing a sent with
  | zero => exact hstart
  | succ fuel ih =>
    cases hgap : a.gapTxs.lookup a.nextNonce with
    | none =>
      rw [promote_of_none hgap]
      exact hstart
    | some wTxNew =>
      rw [promote_of_some hgap]
      exact ih (hround a sent wTxNew hstart hgap)

theorem promote_done (sent : List (TxWrapper T)) (hfuel : a.gapTxs.keys.length ≤ fuel) :
    (promote fuel a sent).1.gapTxs.lookup (promote fuel a sent).1.nextNonce = none := by
  induction fuel generalizing a sent with
  | zero =>
    have hempty : a.gapTxs.keys = [] := List.length_eq_zero_iff.mp (Nat.le_zero.mp hfuel)
    rw [promote, lookup_eq_none, mem_keys, hempty]
    exact List.not_mem_nil
  | succ fuel ih =>
    cases hgap : a.gapTxs.lookup a.nextNonce with
    | none =>
      rw [promote_of_none hgap]
      exact hgap
    | some wTxNew =>
      rw [promote_of_some hgap]
      refine ih _ ?_
      have hmem : a.nextNonce ∈ a.gapTxs.keys := by
        rw [← mem_keys, ← lookup_isSome, hgap]
        rfl
      have hlength := List.length_erase_of_mem hmem
      have hkeys : (a.pendGap wTxNew).gapTxs.keys = a.gapTxs.keys.erase a.nextNonce :=
        keys_erase _ _
      rw [hkeys, hlength]
      omega

theorem AddTx_cases (hok : a.AddTx wTx = .ok (a', sent)) :
    a.pendingTxs.lookup wTx.Nonce = none ∧ a.gapTxs.lookup wTx.Nonce = none ∧
    ((wTx.Nonce = a.nextNonce ∧ (a', sent) = (a.pend wTx).promote a.gapTxs.keys.length [wTx]) ∨
      (a.nextNonce < wTx.Nonce ∧ a' = { a with gapTxs := a.gapTxs.insert wTx.Nonce wTx } ∧
        sent = [])) := by
  unfold AddTx at hok
  split_ifs at hok with hpending hgap hnext hlater
  · refine ⟨by simpa using hpending, by simpa using hgap, .inl ⟨hnext, ?_⟩⟩
    exact (Except.ok.inj hok).symm
  · refine ⟨by simpa using hpending, by simpa using hgap, .inr ⟨hlater, ?_⟩⟩
    cases hok
    exact ⟨rfl, rfl⟩

theorem AddTx_accepts (hpending : a.pendingTxs.lookup wTx.Nonce = none)
    (hgap : a.gapTxs.lookup wTx.Nonce = none) (hnext : a.nextNonce ≤ wTx.Nonce) :
    ∃ a' sent, a.AddTx wTx = .ok (a', sent) := by
  unfold AddTx
  simp only [hpending, hgap, Option.isSome_none, Bool.false_eq_true, if_false]
  split_ifs with heq hlater
  · exact ⟨_, _, rfl⟩
  · exact ⟨_, _, rfl⟩
  · omega

end Loop

section Valid

variable {a a' : AccountTxManager T} {addr : Address} {wTx : TxWrapper T}
  {sent : List (TxWrapper T)}

/-- What is pending or waits is from the account and under its nonce, and waits above `low`. -/
structure Apart (addr : Address) (low : Nat) (a : AccountTxManager T) : Prop where
  max_lt : a.maxContNonce < 2 ^ 64
  pending : ∀ n w, a.pendingTxs.lookup n = some w → w.FromAddr = addr ∧ w.Nonce = n
  gap : ∀ n w, a.gapTxs.lookup n = some w → w.FromAddr = addr ∧ w.Nonce = n
  apart : ∀ n w, a.gapTxs.lookup n = some w → a.pendingTxs.lookup n = none
  above : ∀ n w, a.gapTxs.lookup n = some w → low < n

abbrev Valid (addr : Address) (a : AccountTxManager T) : Prop := a.Apart addr a.nextNonce

/-- What holds in the loop. -/
abbrev Open (addr : Address) (a : AccountTxManager T) : Prop := a.Apart addr a.maxContNonce

theorem nextNonce_lt (a : AccountTxManager T) : a.nextNonce < 2 ^ 64 :=
  Nat.mod_lt _ (by decide)

theorem nextNonce_eq (hmax : a.maxContNonce < 2 ^ 64) :
    a.nextNonce = if a.maxContNonce + 1 = 2 ^ 64 then 0 else a.maxContNonce + 1 := by
  unfold nextNonce wrap64
  split_ifs with hwrap
  · rw [hwrap]
    decide
  · exact Nat.mod_eq_of_lt (by omega)

theorem lookup_pend (n : Nat) :
    (a.pend wTx).pendingTxs.lookup n =
      if n = a.nextNonce then some wTx else a.pendingTxs.lookup n := by
  split_ifs with hn
  · rw [hn]
    exact lookup_insert _
  · exact lookup_insert_ne hn

theorem lookup_pendGap (n : Nat) :
    (a.pendGap wTx).gapTxs.lookup n =
      if n = a.nextNonce then none else a.gapTxs.lookup n := by
  split_ifs with hn
  · rw [hn]
    exact lookup_erase _ _
  · exact lookup_erase_ne hn

theorem lookup_gapInsert (n : Nat) :
    (a.gapTxs.insert wTx.Nonce wTx).lookup n =
      if n = wTx.Nonce then some wTx else a.gapTxs.lookup n := by
  split_ifs with hn
  · rw [hn]
    exact lookup_insert _
  · exact lookup_insert_ne hn

theorem nextNonce_of_gap (ha : a.Open addr) (hgap : a.gapTxs.lookup a.nextNonce = some wTx) :
    a.nextNonce = a.maxContNonce + 1 := by
  have hreached := ha.above _ _ hgap
  have hcase := nextNonce_eq ha.max_lt
  split_ifs at hcase with hwrap
  · omega
  · exact hcase

theorem pend_open (ha : a.Valid addr) (haddr : wTx.FromAddr = addr)
    (hgap : a.gapTxs.lookup wTx.Nonce = none) (hnonce : wTx.Nonce = a.nextNonce) :
    (a.pend wTx).Open addr := by
  refine ⟨a.nextNonce_lt, ?_, ha.gap, ?_, ha.above⟩
  · intro n w hw
    rw [lookup_pend] at hw
    split_ifs at hw with hn
    · cases hw
      exact ⟨haddr, hnonce.trans hn.symm⟩
    · exact ha.pending n w hw
  · intro n w hw
    rw [lookup_pend]
    split_ifs with hn
    · have hsome : a.gapTxs.lookup n = some w := hw
      rw [hn, ← hnonce, hgap] at hsome
      cases hsome
    · exact ha.apart n w hw

theorem pendGap_open (ha : a.Open addr) (hgap : a.gapTxs.lookup a.nextNonce = some wTx) :
    (a.pendGap wTx).Open addr := by
  refine ⟨a.nextNonce_lt, ?_, ?_, ?_, ?_⟩
  · intro n w hw
    have hw' : (a.pend wTx).pendingTxs.lookup n = some w := hw
    rw [lookup_pend] at hw'
    split_ifs at hw' with hn
    · cases hw'
      rw [hn]
      exact ha.gap _ _ hgap
    · exact ha.pending n w hw'
  · intro n w hw
    rw [lookup_pendGap] at hw
    split_ifs at hw with hn
    exact ha.gap n w hw
  · intro n w hw
    rw [lookup_pendGap] at hw
    split_ifs at hw with hn
    have hpending : (a.pendGap wTx).pendingTxs.lookup n = (a.pend wTx).pendingTxs.lookup n := rfl
    rw [hpending, lookup_pend, if_neg hn]
    exact ha.apart n w hw
  · intro n w hw
    rw [lookup_pendGap] at hw
    split_ifs at hw with hn
    have hlt := ha.above n w hw
    have heq := nextNonce_of_gap ha hgap
    change a.nextNonce < n
    omega

theorem promote_valid (sent : List (TxWrapper T)) {fuel : Nat} (ha : a.Open addr)
    (hfuel : a.gapTxs.keys.length ≤ fuel) : (promote fuel a sent).1.Valid addr := by
  have hopen : (promote fuel a sent).1.Open addr :=
    promote_induction (P := fun a _ => a.Open addr)
      (fun _ _ _ => pendGap_open) fuel ha
  have hdone := promote_done sent hfuel
  refine { hopen with above := ?_ }
  intro n w hw
  have hreached := hopen.above n w hw
  have hne : n ≠ (promote fuel a sent).1.nextNonce := by
    rintro rfl
    rw [hdone] at hw
    cases hw
  have heq := nextNonce_eq hopen.max_lt
  split_ifs at heq with hwrap <;> omega

theorem AddTx_valid (ha : a.Valid addr) (haddr : wTx.FromAddr = addr)
    (hok : a.AddTx wTx = .ok (a', sent)) : a'.Valid addr := by
  obtain ⟨hpending, hgap, ⟨hnext, heq⟩ | ⟨hlater, rfl, _⟩⟩ := AddTx_cases hok
  · have hfuel : (a.pend wTx).gapTxs.keys.length ≤ a.gapTxs.keys.length := Nat.le_refl _
    have hvalid := promote_valid [wTx] (pend_open ha haddr hgap hnext) hfuel
    rw [← heq] at hvalid
    exact hvalid
  refine ⟨ha.max_lt, ha.pending, ?_, ?_, ?_⟩
  · intro n w hw
    rw [lookup_gapInsert] at hw
    split_ifs at hw with hn
    · cases hw
      exact ⟨haddr, hn.symm⟩
    · exact ha.gap n w hw
  · intro n w hw
    rw [lookup_gapInsert] at hw
    split_ifs at hw with hn
    · rw [hn]
      exact hpending
    · exact ha.apart n w hw
  · intro n w hw
    rw [lookup_gapInsert] at hw
    split_ifs at hw with hn
    · rw [hn]
      exact hlater
    · exact ha.above n w hw

section Induction

variable {P : AccountTxManager T → List (TxWrapper T) → Prop} (ha : a.Valid addr)
  (haddr : wTx.FromAddr = addr)
  (hpend : a.pendingTxs.lookup wTx.Nonce = none → a.gapTxs.lookup wTx.Nonce = none →
    wTx.Nonce = a.nextNonce → P (a.pend wTx) [wTx])
  (hround : ∀ b sent wTxNew, b.Open addr → P b sent →
    b.gapTxs.lookup b.nextNonce = some wTxNew → P (b.pendGap wTxNew) (sent ++ [wTxNew]))
  (hgap : a.pendingTxs.lookup wTx.Nonce = none → a.gapTxs.lookup wTx.Nonce = none →
    a.nextNonce < wTx.Nonce → P { a with gapTxs := a.gapTxs.insert wTx.Nonce wTx } [])
include ha haddr hpend hround hgap

theorem AddTx_induction (hadd : a.AddTx wTx = .ok (a', sent)) : P a' sent := by
  obtain ⟨hfree, hfree', ⟨hnext, heq⟩ | ⟨hlater, rfl, rfl⟩⟩ := AddTx_cases hadd
  · have hloop := promote_induction (P := fun b sent => b.Open addr ∧ P b sent)
      (fun b sent wTxNew hb hgap =>
        ⟨pendGap_open hb.1 hgap, hround b sent wTxNew hb.1 hb.2 hgap⟩)
      a.gapTxs.keys.length ⟨pend_open ha haddr hfree' hnext, hpend hfree hfree' hnext⟩
    rw [← heq] at hloop
    exact hloop.2
  · exact hgap hfree hfree' hlater

end Induction

theorem lookup_removePendingTx {nonce n : Nat} :
    (a.removePendingTx nonce).pendingTxs.lookup n =
      if n = nonce then none else a.pendingTxs.lookup n := by
  split_ifs with hn
  · rw [hn]
    exact lookup_erase _ _
  · exact lookup_erase_ne hn

theorem removePendingTx_valid {nonce : Nat} (ha : a.Valid addr) :
    (a.removePendingTx nonce).Valid addr := by
  refine ⟨ha.max_lt, ?_, ha.gap, ?_, ha.above⟩
  · intro n w hw
    rw [lookup_removePendingTx] at hw
    split_ifs at hw with hn
    exact ha.pending n w hw
  · intro n w hw
    rw [lookup_removePendingTx]
    split_ifs with hn
    · rfl
    · exact ha.apart n w hw

theorem newAccountTxManager_valid : (newAccountTxManager T).Valid addr := by
  refine ⟨Nat.two_pow_pos 64, ?_, ?_, ?_, ?_⟩ <;>
    · intro n w hw
      simp [newAccountTxManager] at hw

end Valid

end AccountTxManager

end Topia.TransactionPool
