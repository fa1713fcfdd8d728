import Topia.TransactionPool.Collect

/-!
# A transaction that is not accepted

`AddTx` of the collection enters a transaction into `fullTxs` before its account decides. When the
account refuses the nonce the entry stays: `GetTx` finds the transaction, and every later call with
it ends at the check of `fullTxs` until it is removed.
-/

namespace Topia.TransactionPool

open Lib Transaction AccountTxManager

section RejectedAdd

variable {T : TxCodec} {c c' : CollectTxs T} {wTx : TxWrapper T} {e : AddError} {txID : TxID}

namespace CollectTxs

def Held (c : CollectTxs T) (txID : TxID) : Prop := (c.GetTx txID).isSome

/-- The same transactions, pending, waiting and in the channel. -/
structure SameContents (c c' : CollectTxs T) : Prop where
  held : ∀ txID, c'.GetTx txID = c.GetTx txID
  pending : ∀ addr, (c'.account addr).pendingTxs = (c.account addr).pendingTxs
  gap : ∀ addr, (c'.account addr).gapTxs = (c.account addr).gapTxs
  chan : c'.pendingTxChan = c.pendingTxChan

theorem account_setAccount_self (c : CollectTxs T) (addr addr' : Address) :
    (c.setAccount addr (c.account addr)).account addr' = c.account addr' := by
  rw [account_setAccount]
  split_ifs with haddr
  · rw [haddr]
  · rfl

theorem accountAddTx_error (hfail : (c.account wTx.FromAddr).AddTx wTx = .error e) :
    (c.accountAddTx wTx).1 = .error e ∧ SameContents c (c.accountAddTx wTx).2 := by
  unfold accountAddTx
  rw [hfail]
  refine ⟨rfl, ⟨fun _ => rfl, fun addr => ?_, fun addr => ?_, rfl⟩⟩
  · rw [account_setAccount_self]
  · rw [account_setAccount_self]

theorem AddTx_error_cases (hfail : (c.AddTx wTx).1 = .error e) :
    (c.Held wTx.TxID ∧ e = .existedTx wTx.TxID ∧ (c.AddTx wTx).2 = c) ∨
      ¬ c.Held wTx.TxID ∧ (c.account wTx.FromAddr).AddTx wTx = .error e ∧
        SameContents { c with fullTxs := c.fullTxs.insert wTx.TxID wTx } (c.AddTx wTx).2 := by
  by_cases hheld : c.Held wTx.TxID
  · have hregister : c.register wTx = .error (.existedTx wTx.TxID) := if_pos hheld
    simp only [AddTx, hregister] at hfail ⊢
    exact .inl ⟨hheld, (Except.error.inj hfail).symm, trivial⟩
  have hregister : c.register wTx = .ok { c with fullTxs := c.fullTxs.insert wTx.TxID wTx } :=
    if_neg hheld
  simp only [AddTx, hregister] at hfail ⊢
  refine .inr ⟨hheld, ?_⟩
  cases haccount : (c.account wTx.FromAddr).AddTx wTx with
  | ok result =>
    unfold accountAddTx at hfail
    have haccount' : (account { c with fullTxs := c.fullTxs.insert wTx.TxID wTx }
        wTx.FromAddr).AddTx wTx = .ok result := haccount
    rw [haccount'] at hfail
    cases hfail
  | error err =>
    obtain ⟨herr, hsame⟩ := accountAddTx_error
      (c := { c with fullTxs := c.fullTxs.insert wTx.TxID wTx }) haccount
    rw [herr] at hfail
    exact ⟨congrArg Except.error (Except.error.inj hfail), hsame⟩

theorem AddTx_of_held (hheld : c.Held wTx.TxID) :
    c.AddTx wTx = (.error (.existedTx wTx.TxID), c) := by
  have hregister : c.register wTx = .error (.existedTx wTx.TxID) := if_pos hheld
  rw [AddTx, hregister]

theorem AddTx_fails_of_refused (hheld : ¬ c.Held wTx.TxID)
    (hfail : (c.account wTx.FromAddr).AddTx wTx = .error e) : (c.AddTx wTx).1 = .error e := by
  have hregister : c.register wTx = .ok { c with fullTxs := c.fullTxs.insert wTx.TxID wTx } :=
    if_neg hheld
  rw [AddTx, hregister]
  exact (accountAddTx_error (c := { c with fullTxs := c.fullTxs.insert wTx.TxID wTx }) hfail).1

theorem held_of_AddTx_error (hfail : (c.AddTx wTx).1 = .error e) :
    (c.AddTx wTx).2.Held wTx.TxID := by
  rcases AddTx_error_cases hfail with ⟨hheld, _, hsame⟩ | ⟨_, _, hsame⟩
  · rw [hsame]
    exact hheld
  · unfold Held
    rw [hsame.held]
    simp [GetTx]

theorem held_register (hheld : c.Held txID) (hregister : c.register wTx = .ok c') :
    c'.Held txID := by
  unfold register at hregister
  split_ifs at hregister
  cases hregister
  by_cases hid : txID = wTx.TxID
  · subst hid
    simp [Held, GetTx]
  · simpa [Held, GetTx, AList.lookup_insert_ne hid] using hheld

end CollectTxs

open CollectTxs CollectSystem

theorem held_step {s s' : CollectSystem T} {event : CollectEvent T} (hheld : s.collect.Held txID)
    (hkeep : event ≠ .removeTx txID) (hstep : s.step event = some s') : s'.collect.Held txID := by
  cases event with
  | addTx wTx =>
    unfold step at hstep
    cases hregister : s.collect.register wTx with
    | error err =>
      simp only [hregister] at hstep
      cases hstep
      exact hheld
    | ok c =>
      simp only [hregister] at hstep
      cases hstep
      exact held_register hheld hregister
  | accountAddTx wTx =>
    unfold step at hstep
    dsimp only at hstep
    split_ifs at hstep
    cases hstep
    unfold Held GetTx
    rw [fullTxs_accountAddTx]
    exact hheld
  | removeTx removed =>
    cases hstep
    have hne : txID ≠ removed := fun heq => hkeep (heq ▸ rfl)
    unfold Held GetTx
    rw [(RemoveTx_lists s.collect removed).2.1, AList.lookup_erase_ne hne]
    exact hheld
  | receive addr =>
    obtain ⟨c, hreceive, rfl⟩ := Option.map_eq_some_iff.mp hstep
    obtain ⟨wTx, before, after, _, _, _, _, rfl⟩ := receive_cases hreceive
    exact hheld
  | insertReceived =>
    obtain ⟨c, hinsert, rfl⟩ := Option.map_eq_some_iff.mp hstep
    obtain ⟨wTx, _, rfl⟩ := insertReceived_cases hinsert
    exact hheld

theorem held_run {s s' : CollectSystem T} {events : List (CollectEvent T)}
    (hheld : s.collect.Held txID) (hkeep : ∀ event ∈ events, event ≠ .removeTx txID)
    (hrun : events.foldlM step s = some s') : s'.collect.Held txID := by
  exact run_invariant_along (fun _ _ _ => held_step) hheld
    (along_of_forall_mem (fun event hevent _ => hkeep event hevent) s) hrun

theorem sameContents_of_error_iff (hfail : (c.AddTx wTx).1 = .error e) :
    SameContents c (c.AddTx wTx).2 ↔ c.Held wTx.TxID := by
  constructor
  · intro hsame
    have hheld := held_of_AddTx_error hfail
    unfold Held at hheld
    rw [hsame.held] at hheld
    exact hheld
  · intro hheld
    rw [AddTx_of_held hheld]
    exact ⟨fun _ => rfl, fun _ => rfl, fun _ => rfl, rfl⟩

/-- **A failed call of `AddTx`** changes nothing exactly when the transaction was held before or its
account does not refuse it; it can only leave the entry in `fullTxs`, with which every call fails
until it is removed. -/
theorem rejectedAdd_iff (c : CollectTxs T) (wTx : TxWrapper T) :
    (((∃ e, (c.AddTx wTx).1 = .error e) → SameContents c (c.AddTx wTx).2) ↔
      c.Held wTx.TxID ∨ ∃ result, (c.account wTx.FromAddr).AddTx wTx = .ok result) ∧
    ((∃ e, (c.AddTx wTx).1 = .error e) →
      SameContents { c with fullTxs := (c.AddTx wTx).2.fullTxs } (c.AddTx wTx).2 ∧
      ∀ (adding : List (TxWrapper T)) (events : List (CollectEvent T)) (s : CollectSystem T),
        (∀ event ∈ events, event ≠ .removeTx wTx.TxID) →
        events.foldlM step ⟨(c.AddTx wTx).2, adding⟩ = some s →
          s.collect.AddTx wTx = (.error (.existedTx wTx.TxID), s.collect)) := by
  constructor
  · constructor
    · intro hnoop
      by_cases hheld : c.Held wTx.TxID
      · exact .inl hheld
      · cases haccount : (c.account wTx.FromAddr).AddTx wTx with
        | ok result => exact .inr ⟨result, rfl⟩
        | error err =>
          have hfail := AddTx_fails_of_refused hheld haccount
          exact .inl ((sameContents_of_error_iff hfail).mp (hnoop ⟨err, hfail⟩))
    · rintro haccepted ⟨e, hfail⟩
      rw [sameContents_of_error_iff hfail]
      rcases AddTx_error_cases hfail with ⟨hheld, _, _⟩ | ⟨_, hrefused, _⟩
      · exact hheld
      · refine haccepted.resolve_right ?_
        rintro ⟨result, haccount⟩
        rw [hrefused] at haccount
        cases haccount
  · rintro ⟨e, hfail⟩
    constructor
    · rcases AddTx_error_cases hfail with ⟨_, _, hsame⟩ | ⟨_, _, hsame⟩
      · rw [hsame]
        exact ⟨fun _ => rfl, fun _ => rfl, fun _ => rfl, rfl⟩
      · exact { hsame with held := fun _ => rfl }
    · intro adding events s hkeep hrun
      exact AddTx_of_held (held_run (held_of_AddTx_error hfail) hkeep hrun)

/-- Nonce 0 is refused and held, so that the next call fails for another reason. -/
theorem rejected_nonce_stays :
    (∃ nonce expected txID, ((NewCollectTxs plainCodec).AddTx (.plain 1 0 5 0 0)).1 =
        .error (.invalidNonce nonce expected txID)) ∧
      (NewCollectTxs plainCodec).GetTx (TxWrapper.plain 1 0 5 0 0).TxID = none ∧
      ((NewCollectTxs plainCodec).AddTx (.plain 1 0 5 0 0)).2.GetTx
        (TxWrapper.plain 1 0 5 0 0).TxID = some (.plain 1 0 5 0 0) ∧
      (((NewCollectTxs plainCodec).AddTx (.plain 1 0 5 0 0)).2.AddTx (.plain 1 0 5 0 0)).1 =
        .error (.existedTx (TxWrapper.plain 1 0 5 0 0).TxID) :=
  ⟨⟨0, 1, _, rfl⟩, rfl, rfl, rfl⟩

end RejectedAdd

end Topia.TransactionPool
