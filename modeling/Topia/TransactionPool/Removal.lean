import Topia.TransactionPool.Collect

/-!
# The removal of a transaction

`RemoveTx` takes a transaction out of `fullTxs` and out of the three lists, and out of its account
when it was listed. One that waits in a gap map, is in the channel or with the receiver is not found
there: the receiver lists it later.
-/

namespace Topia.TransactionPool

open Lib Transaction AccountTxManager

namespace CollectTxs

variable {T : TxCodec}

variable (c : CollectTxs T) (txID : TxID)

structure Absent : Prop where
  full : c.fullTxs.lookup txID = none
  gap : ∀ addr n w, (c.account addr).gapTxs.lookup n = some w → w.TxID ≠ txID
  pending : ∀ addr n w, (c.account addr).pendingTxs.lookup n = some w → w.TxID ≠ txID
  sorted : ∀ w ∈ c.sortedTxs.txList, w.TxID ≠ txID
  height : ∀ w ∈ c.heightTxs.txList, w.TxID ≠ txID
  time : ∀ w ∈ c.timeTxs.txList, w.TxID ≠ txID

def Waiting : Prop :=
  (∃ addr n w, (c.account addr).gapTxs.lookup n = some w ∧ w.TxID = txID) ∨
    ∃ w ∈ c.receiving.toList ++ c.pendingTxChan, w.TxID = txID

structure Gone : Prop where
  full : c.fullTxs.lookup txID = none
  gap : ∀ addr n w, (c.account addr).gapTxs.lookup n = some w → w.TxID ≠ txID
  live : ∀ w ∈ c.live, w.TxID ≠ txID

end CollectTxs

/-- Adds the transaction again: a call of `AddTx`, or its turn. -/
def CollectEvent.Readds {T : TxCodec} (txID : TxID) : CollectEvent T → Prop
  | .addTx wTx => wTx.TxID = txID
  | .accountAddTx wTx => wTx.TxID = txID
  | _ => False

namespace CollectSystem

variable {T : TxCodec}

variable (s : CollectSystem T) (txID : TxID)

def removed : CollectSystem T :=
  { s with collect := (s.collect.RemoveTx txID).2 }

/-- Once drained the transaction is nowhere, and not picked, while not added again. -/
def RemovedForGood : Prop :=
  ∀ (events : List (CollectEvent T)) (t : CollectSystem T),
    (∀ e ∈ events, ¬ e.Readds txID) → events.foldlM step (s.removed txID) = some t →
    (t.collect.Drained → t.collect.Absent txID) ∧
    ∀ blockMaxBytes blockMaxGas, ∀ tx ∈ t.collect.PickTxs blockMaxBytes blockMaxGas,
      tx.TxID T ≠ txID

end CollectSystem

open SortedTxList List AList Option

section Gone

open CollectTxs

variable {T : TxCodec} {c c' : CollectTxs T} {txID : TxID} {wTx : TxWrapper T} {addr : Address}
  {a a' : AccountTxManager T} {sent : List (TxWrapper T)}

theorem absent_of_gone (hc : Coherent c) (hgone : c.Gone txID) : c.Absent txID := by
  have hsorted : ∀ w ∈ c.sortedTxs.txList, w.TxID ≠ txID :=
    fun w hw => hgone.live w (Coherent.mem_live_of_listed hw)
  refine ⟨hgone.full, hgone.gap, ?_, hsorted, ?_, ?_⟩
  · intro addr n w hw
    obtain ⟨rfl, rfl⟩ := (hc.valid addr).pending n w hw
    exact hgone.live w (((hc.tied w.FromAddr).mem_iff w rfl).mpr hw)
  · exact fun w hw => hsorted w (hc.height.mem_iff.mp hw)
  · exact fun w hw => hsorted w (hc.time.mem_iff.mp hw)

theorem not_picked_of_gone (hgone : c.Gone txID) {blockMaxBytes blockMaxGas : Int}
    {tx : Transaction} (htx : tx ∈ c.PickTxs blockMaxBytes blockMaxGas) : tx.TxID T ≠ txID := by
  have hmem := (c.sortedTxs.pickTxs_prefix blockMaxBytes blockMaxGas).subset htx
  obtain ⟨w, hw, rfl⟩ := mem_map.mp hmem
  exact hgone.live w (Coherent.mem_live_of_listed hw)

theorem AddTx_origin (hok : a.AddTx wTx = .ok (a', sent)) :
    (∀ w ∈ sent, w = wTx ∨ ∃ n, a.gapTxs.lookup n = some w) ∧
    ∀ n w, a'.gapTxs.lookup n = some w → w = wTx ∨ a.gapTxs.lookup n = some w := by
  obtain ⟨_, _, ⟨_, heq⟩ | ⟨_, rfl, rfl⟩⟩ := AddTx_cases hok
  · have hstart : (∀ w ∈ [wTx], w = wTx ∨ ∃ n, a.gapTxs.lookup n = some w) ∧
        ∀ n w, (a.pend wTx).gapTxs.lookup n = some w → a.gapTxs.lookup n = some w :=
      ⟨by simp, fun n w hw => hw⟩
    have hloop := promote_induction
      (P := fun b sent => (∀ w ∈ sent, w = wTx ∨ ∃ n, a.gapTxs.lookup n = some w) ∧
        ∀ n w, b.gapTxs.lookup n = some w → a.gapTxs.lookup n = some w)
      ?_ a.gapTxs.keys.length hstart
    · rw [← heq] at hloop
      exact ⟨hloop.1, fun n w hw => .inr (hloop.2 n w hw)⟩
    rintro b sent wTxNew ⟨hsent, hgaps⟩ hgap
    constructor
    · intro w hw
      rcases mem_append.mp hw with hw | hw
      · exact hsent w hw
      · rw [mem_singleton.mp hw]
        exact .inr ⟨_, hgaps _ _ hgap⟩
    · intro n w hw
      rw [lookup_pendGap] at hw
      split_ifs at hw
      exact hgaps n w hw
  · refine ⟨by simp, fun n w hw => ?_⟩
    rw [lookup_gapInsert] at hw
    split_ifs at hw with hn
    · exact .inl (some.inj hw).symm
    · exact .inr hw

theorem gone_accountAddTx (hgone : c.Gone txID) (hne : wTx.TxID ≠ txID) :
    (c.accountAddTx wTx).2.Gone txID := by
  unfold CollectTxs.accountAddTx
  cases hadd : (c.account wTx.FromAddr).AddTx wTx with
  | error e =>
    refine { hgone with gap := ?_ }
    intro addr n w hw
    simp only [account_setAccount] at hw
    split_ifs at hw with haddr
    · exact hgone.gap _ n w hw
    · exact hgone.gap _ n w hw
  | ok result =>
    obtain ⟨a, sent⟩ := result
    obtain ⟨hsent, hgaps⟩ := AddTx_origin hadd
    refine ⟨hgone.full, ?_, ?_⟩
    · intro addr n w hw
      have hview : ({ c.setAccount wTx.FromAddr a with
          pendingTxChan := c.pendingTxChan ++ sent } : CollectTxs T).account addr =
            if addr = wTx.FromAddr then a else c.account addr := account_setAccount _ _ a addr
      rw [hview] at hw
      split_ifs at hw with haddr
      · rcases hgaps n w hw with rfl | hold
        · exact hne
        · exact hgone.gap _ n w hold
      · exact hgone.gap _ n w hw
    · intro w hw
      have hlive : ({ c.setAccount wTx.FromAddr a with
          pendingTxChan := c.pendingTxChan ++ sent } : CollectTxs T).live = c.live ++ sent := by
        simp [live, setAccount]
      rw [hlive] at hw
      rcases mem_append.mp hw with hw | hw
      · exact hgone.live w hw
      · rcases hsent w hw with rfl | ⟨n, hold⟩
        · exact hne
        · exact hgone.gap _ n w hold

theorem lookup_RemoveTx_self (c : CollectTxs T) (txID : TxID) :
    (c.RemoveTx txID).2.fullTxs.lookup txID = none := by
  rw [(RemoveTx_lists c txID).2.1]
  exact lookup_erase _ _

theorem live_RemoveTx_subset {w : TxWrapper T} (hw : w ∈ (c.RemoveTx txID).2.live) :
    w ∈ c.live := by
  obtain ⟨_, _, hchan, hreceiving, hsorted, _, _⟩ := RemoveTx_lists c txID
  rw [live, hchan, hreceiving, hsorted] at hw
  rcases mem_append.mp hw with hw | hw
  · exact mem_append_left _ (mem_of_mem_eraseP hw)
  · exact mem_append_right _ hw

theorem gone_of_not_waiting (hc : Coherent c) (hwaiting : ¬ c.Waiting txID) :
    (c.RemoveTx txID).2.Gone txID := by
  obtain ⟨_, _, hchan, hreceiving, hsorted, _, _⟩ := RemoveTx_lists c txID
  refine ⟨lookup_RemoveTx_self c txID, ?_, ?_⟩
  · intro addr n w hw hid
    rw [(parts_RemoveTx _ _ _).1] at hw
    exact hwaiting (.inl ⟨addr, n, w, hw, hid⟩)
  intro w hw hid
  have hw' := hw
  rw [live, hchan, hreceiving, hsorted] at hw'
  rcases mem_append.mp hw' with hlisted | hqueued
  · -- the list had the transaction twice
    cases hget : c.sortedTxs.getTx txID with
    | none =>
      rw [removeTx_of_getTx_none hget] at hlisted
      exact getTx_eq_none_iff.mp hget w hlisted hid
    | some wTx =>
      have hperm := removeTx_perm hget
      have hnodup : c.sortedTxs.txList.Nodup :=
        (nodup_append.mp (hc.tied wTx.FromAddr).nodup).1
      have hsame : w = wTx := by
        refine hc.eq_of_TxID_eq (live_RemoveTx_subset hw) ?_ ?_
        · exact Coherent.mem_live_of_listed (mem_of_getTx hget)
        · rw [hid, TxID_of_getTx hget]
      have hout := (nodup_cons.mp (hperm.nodup_iff.mp hnodup)).1
      exact hout (hsame ▸ hlisted)
  · exact hwaiting (.inr ⟨w, hqueued, hid⟩)

end Gone

namespace CollectSystem

open CollectTxs

variable {T : TxCodec} {s s' t : CollectSystem T} {txID : TxID} {e : CollectEvent T}

theorem step_gone (hgone : s.collect.Gone txID) (hother : ¬ e.Readds txID)
    (hstep : s.step e = some s') : s'.collect.Gone txID := by
  have hcase := step_cases hstep
  cases e with
  | addTx wTx =>
    obtain ⟨full, hfull, heq⟩ := hcase
    rw [heq]
    refine { hgone with full := ?_ }
    rcases hfull with rfl | rfl
    · exact hgone.full
    · exact (lookup_insert_ne (Ne.symm hother)).trans hgone.full
  | accountAddTx wTx =>
    rw [hcase.2]
    exact gone_accountAddTx hgone hother
  | removeTx txID' =>
    have heq : s'.collect = (s.collect.RemoveTx txID').2 := hcase
    rw [heq]
    refine ⟨?_, ?_, fun w hw => hgone.live w (live_RemoveTx_subset hw)⟩
    · by_cases hid : txID = txID'
      · rw [hid]
        exact lookup_RemoveTx_self _ _
      · rw [(RemoveTx_lists s.collect txID').2.1, lookup_erase_ne hid]
        exact hgone.full
    · intro addr n w hw
      rw [(parts_RemoveTx _ _ _).1] at hw
      exact hgone.gap addr n w hw
  | receive addr =>
    obtain ⟨w, before, after, hidle, hchan, _, _, heq⟩ := receive_cases hcase
    rw [heq]
    refine { hgone with live := ?_ }
    intro w' hw'
    refine hgone.live w' ?_
    simp only [live, hidle, hchan, toList_some, toList_none, mem_append,
      mem_cons, not_mem_nil] at hw' ⊢
    tauto
  | insertReceived =>
    obtain ⟨w, hreceiving, heq⟩ := insertReceived_cases hcase
    rw [heq]
    refine { hgone with live := ?_ }
    intro w' hw'
    refine hgone.live w' ?_
    simp only [live, enlist, hreceiving, toList_some, toList_none,
      mem_append, mem_singleton, mem_addTx, not_mem_nil] at hw' ⊢
    tauto

def Receiver : CollectEvent T → Prop
  | .receive _ => True
  | .insertReceived => True
  | _ => False

/-- The receiver alone empties the channel: what was sent is listed. -/
structure Drains (s t : CollectSystem T) (events : List (CollectEvent T)) : Prop where
  receiver : ∀ e ∈ events, Receiver e
  run : events.foldlM step s = some t
  drained : t.collect.Drained
  accounts : t.collect.accountTxs = s.collect.accountTxs
  listed : ∀ w, w ∈ s.collect.live → w ∈ t.collect.sortedTxs.txList

theorem Drains.cons {m : CollectSystem T} {events : List (CollectEvent T)}
    (hdrains : Drains m t events) (he : Receiver e) (hstep : s.step e = some m)
    (haccounts : m.collect.accountTxs = s.collect.accountTxs)
    (hlive : ∀ w, w ∈ s.collect.live → w ∈ m.collect.live) : Drains s t (e :: events) := by
  refine ⟨?_, ?_, hdrains.drained, hdrains.accounts.trans haccounts,
    fun w hw => hdrains.listed w (hlive w hw)⟩
  · intro e' he'
    rcases mem_cons.mp he' with rfl | he'
    · exact he
    · exact hdrains.receiver e' he'
  · rw [run_cons, hstep]
    exact hdrains.run

theorem mem_live_enlist {c : CollectTxs T} {wTx w : TxWrapper T}
    (hreceiving : c.receiving = some wTx) (hw : w ∈ c.live) : w ∈ (c.enlist wTx).live := by
  simp only [live, enlist, hreceiving, toList_some, toList_none, nil_append,
    mem_append, mem_singleton, mem_addTx] at hw ⊢
  tauto

theorem Drains.insertReceived {events : List (CollectEvent T)} {wTx : TxWrapper T}
    (hdrains : Drains { s with collect := s.collect.enlist wTx } t events)
    (hreceiving : s.collect.receiving = some wTx) : Drains s t (.insertReceived :: events) := by
  refine hdrains.cons trivial ?_ rfl (fun w hw => mem_live_enlist hreceiving hw)
  simp [step, CollectTxs.insertReceived, hreceiving]

theorem exists_drain (s : CollectSystem T) : ∃ events t, Drains s t events := by
  -- with a free receiver, by induction on what is in the channel
  have hfree : ∀ (chan : List (TxWrapper T)) (s : CollectSystem T), s.collect.receiving = none →
      s.collect.pendingTxChan = chan → ∃ events t, Drains s t events := by
    intro chan
    induction chan with
    | nil =>
      intro s hidle hchan
      refine ⟨[], s, ⟨by simp, rfl, ⟨hchan, hidle⟩, rfl, ?_⟩⟩
      intro w hw
      simpa [live, hidle, hchan] using hw
    | cons wTx chan ih =>
      intro s hidle hchan
      let m : CollectSystem T :=
        { s with collect := { s.collect with receiving := some wTx, pendingTxChan := chan } }
      obtain ⟨events, t, hdrains⟩ := ih { m with collect := m.collect.enlist wTx } rfl rfl
      have hnext : Drains m t (.insertReceived :: events) := hdrains.insertReceived rfl
      refine ⟨.receive wTx.FromAddr :: .insertReceived :: events, t, hnext.cons trivial ?_ rfl ?_⟩
      · simp [m, step, CollectTxs.receive, hidle, hchan]
      · intro w hw
        simpa [m, live, hidle, hchan] using hw
  cases hreceiving : s.collect.receiving with
  | none => exact hfree _ s hreceiving rfl
  | some wTx =>
    obtain ⟨events, t, hdrains⟩ := hfree _ { s with collect := s.collect.enlist wTx } rfl rfl
    exact ⟨.insertReceived :: events, t, hdrains.insertReceived hreceiving⟩

theorem not_readds_of_receiver (he : Receiver e) : ¬ e.Readds txID := by
  cases e with
  | receive addr => exact id
  | insertReceived => exact id
  | _ => exact he.elim

theorem not_removedForGood (hwaiting : s.collect.Waiting txID) : ¬ s.RemovedForGood txID := by
  intro hgood
  obtain ⟨events, t, hdrains⟩ := exists_drain (s.removed txID)
  have habsent := (hgood events t (fun e he => not_readds_of_receiver (hdrains.receiver e he))
    hdrains.run).1 hdrains.drained
  rcases hwaiting with ⟨addr, n, w, hw, hid⟩ | ⟨w, hw, hid⟩
  · refine habsent.gap addr n w ?_ hid
    have haccount : t.collect.account addr = (s.removed txID).collect.account addr := by
      rw [account, account, hdrains.accounts]
    rw [haccount]
    exact (congrArg (AList.lookup n) (parts_RemoveTx s.collect txID addr).1).trans hw
  · refine habsent.sorted w (hdrains.listed w ?_) hid
    obtain ⟨_, _, hchan, hreceiving, _⟩ := RemoveTx_lists s.collect txID
    refine mem_append_right _ ?_
    change w ∈ (s.collect.RemoveTx txID).2.receiving.toList ++
      (s.collect.RemoveTx txID).2.pendingTxChan
    rw [hchan, hreceiving]
    exact hw

/-- **When a removal is complete**: exactly when the transaction is not in a gap map, the channel or
with the receiver. -/
theorem removal_iff {events : List (CollectEvent T)} (hrun : events.foldlM step (new T) = some s)
    (txID : TxID) : s.RemovedForGood txID ↔ ¬ s.collect.Waiting txID := by
  refine ⟨fun hgood hwaiting => not_removedForGood hwaiting hgood, ?_⟩
  intro hwaiting after t hother hafter
  have hcoherent := run_coherent hrun
  have hstart : Coherent (s.removed txID).collect ∧ (s.removed txID).collect.Gone txID :=
    ⟨hcoherent.RemoveTx txID, gone_of_not_waiting hcoherent hwaiting⟩
  have hinv : ∀ (m : CollectSystem T) (e : CollectEvent T) (m' : CollectSystem T),
      Coherent m.collect ∧ m.collect.Gone txID → ¬ e.Readds txID → m.step e = some m' →
      Coherent m'.collect ∧ m'.collect.Gone txID :=
    fun m e m' hm he hstep => ⟨step_coherent hm.1 hstep, step_gone hm.2 he hstep⟩
  have hend := run_invariant_along hinv hstart
    (along_of_forall_mem (fun e he _ => hother e he) _) hafter
  exact ⟨fun _ => absent_of_gone hend.1 hend.2, fun _ _ _ => not_picked_of_gone hend.2⟩

theorem removal_listed :
    ∃ s, (arrives (.plain 1 1 1 0 100)).foldlM step (new plainCodec) = some s ∧
      ¬ s.collect.Waiting ((plainTx 1 1 1).TxID plainCodec) ∧
      s.RemovedForGood ((plainTx 1 1 1).TxID plainCodec) := by
  have hrun : ∃ s, (arrives (.plain 1 1 1 0 100)).foldlM step (new plainCodec) = some s ∧
      s.collect.receiving = none ∧ s.collect.pendingTxChan = [] ∧
      ∃ a, s.collect.accountTxs = insert [1] a ∅ ∧ a.gapTxs = ∅ :=
    ⟨_, rfl, rfl, rfl, _, rfl, rfl⟩
  obtain ⟨s, hrun, hidle, hchan, a, haccounts, hgap⟩ := hrun
  have hwaiting : ¬ s.collect.Waiting ((plainTx 1 1 1).TxID plainCodec) := by
    rintro (⟨addr, n, w, hw, _⟩ | ⟨w, hw, _⟩)
    · rw [account, haccounts] at hw
      by_cases haddr : addr = [1]
      · rw [haddr, lookup_insert, getD_some, hgap, lookup_empty] at hw
        cases hw
      · rw [lookup_insert_ne haddr, lookup_empty, getD_none] at hw
        cases hw
    · rw [hidle, hchan] at hw
      cases hw
  exact ⟨s, hrun, hwaiting, (removal_iff hrun _).mpr hwaiting⟩

/-- One is removed in the channel, one while it waits; both are picked later. -/
theorem removal_fails_on_queued :
    (∃ s t, (adds (.plain 1 1 1 0 100)).foldlM step (new plainCodec) = some s ∧
      (lists plainCodec [1]).foldlM step (s.removed ((plainTx 1 1 1).TxID plainCodec)) = some t ∧
      plainTx 1 1 1 ∈ t.collect.PickTxs 1000 (-1) ∧
      ¬ s.RemovedForGood ((plainTx 1 1 1).TxID plainCodec)) ∧
    ∃ s t, (adds (.plain 1 2 1 0 100)).foldlM step (new plainCodec) = some s ∧
      (arrives (.plain 1 1 1 0 100) ++ lists plainCodec [1]).foldlM step
        (s.removed ((plainTx 1 2 1).TxID plainCodec)) = some t ∧
      plainTx 1 2 1 ∈ t.collect.PickTxs 1000 (-1) ∧
      ¬ s.RemovedForGood ((plainTx 1 2 1).TxID plainCodec) := by
  constructor
  · refine ⟨_, _, rfl, rfl, by decide, ?_⟩
    exact not_removedForGood (.inr ⟨.plain 1 1 1 0 100, mem_singleton_self _, rfl⟩)
  · refine ⟨_, _, rfl, rfl, by decide, ?_⟩
    exact not_removedForGood (.inl ⟨[1], 2, .plain 1 2 1 0 100, rfl, rfl⟩)

end CollectSystem

end Topia.TransactionPool
