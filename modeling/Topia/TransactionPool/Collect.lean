import Topia.Lib.Run
import Topia.TransactionPool.Accounts

/-!
# The collection of transactions and its receiver

`CollectTxs` and `pendingTxList` of `transaction_pool/core`. The managers of the accounts send
pending transactions to a channel; one goroutine takes them from it and inserts them into the three
sorted lists.

`CollectSystem` adds the calls of `AddTx` between their entry into `fullTxs` and their turn.
-/

namespace Topia.TransactionPool

open Lib Transaction AccountTxManager

def pendingTxChanCap : Nat := 100

/-- `CollectTxs` with its `pendingTxList` and what the receiver has in hand. -/
structure CollectTxs (T : TxCodec) where
  fullTxs : AList (fun _ : TxID => TxWrapper T)
  accountTxs : AList (fun _ : Address => AccountTxManager T)
  pendingTxChan : List (TxWrapper T)
  receiving : Option (TxWrapper T)
  (sortedTxs heightTxs timeTxs : SortedTxList T)

open SortedTxList List Option

namespace CollectTxs

variable {T : TxCodec}

def NewCollectTxs (T : TxCodec) : CollectTxs T where
  fullTxs := ∅
  accountTxs := ∅
  pendingTxChan := []
  receiving := none
  sortedTxs := newSortedTxList T .misc
  heightTxs := newSortedTxList T .height
  timeTxs := newSortedTxList T .time

variable (c : CollectTxs T) (txID : TxID) (addr : Address) (wTx : TxWrapper T)

def account : AccountTxManager T :=
  (c.accountTxs.lookup addr).getD (newAccountTxManager T)

def setAccount (a : AccountTxManager T) : CollectTxs T :=
  { c with accountTxs := c.accountTxs.insert addr a }

def register : Except AddError (CollectTxs T) :=
  if (c.fullTxs.lookup wTx.TxID).isSome then .error (.existedTx wTx.TxID)
  else .ok { c with fullTxs := c.fullTxs.insert wTx.TxID wTx }

def accountAddTx : Except AddError Unit × CollectTxs T :=
  match (c.account wTx.FromAddr).AddTx wTx with
  | .ok (a, sent) =>
    (.ok (), { c.setAccount wTx.FromAddr a with pendingTxChan := c.pendingTxChan ++ sent })
  | .error e => (.error e, c.setAccount wTx.FromAddr (c.account wTx.FromAddr))

def AddTx : Except AddError Unit × CollectTxs T :=
  match c.register wTx with
  | .error e => (.error e, c)
  | .ok c' => c'.accountAddTx wTx

def unlist : CollectTxs T :=
  { c with
    fullTxs := c.fullTxs.erase txID
    sortedTxs := c.sortedTxs.removeTx txID
    heightTxs := c.heightTxs.removeTx txID
    timeTxs := c.timeTxs.removeTx txID }

/-- `RemoveTx`; only a listed transaction is removed from its account. -/
def RemoveTx : Option (TxWrapper T) × CollectTxs T :=
  match c.sortedTxs.getTx txID with
  | none => (none, c.unlist txID)
  | some wTx =>
    match c.accountTxs.lookup wTx.FromAddr with
    | none => (some wTx, c.unlist txID)
    | some a =>
      (some wTx, (c.unlist txID).setAccount wTx.FromAddr (a.removePendingTx wTx.Nonce))

/-- The receiver takes the oldest one of an account from the channel. -/
def receive : Option (CollectTxs T) :=
  match c.receiving, c.pendingTxChan.find? (fun w => decide (w.FromAddr = addr)) with
  | none, some wTx =>
    some { c with
      receiving := some wTx
      pendingTxChan := c.pendingTxChan.eraseP (fun w => decide (w.FromAddr = addr)) }
  | _, _ => none

def enlist : CollectTxs T :=
  { c with
    receiving := none
    sortedTxs := c.sortedTxs.addTx wTx
    heightTxs := c.heightTxs.addTx wTx
    timeTxs := c.timeTxs.addTx wTx }

def insertReceived : Option (CollectTxs T) :=
  c.receiving.map c.enlist

def PickTxs (blockMaxBytes blockMaxGas : Int) : List Transaction :=
  c.sortedTxs.pickTxs blockMaxBytes blockMaxGas

def GetTx : Option (TxWrapper T) :=
  c.fullTxs.lookup txID

def Drained : Prop :=
  c.pendingTxChan = [] ∧ c.receiving = none

instance : Decidable c.Drained :=
  inferInstanceAs (Decidable (_ ∧ _))

def live : List (TxWrapper T) :=
  c.sortedTxs.txList ++ (c.receiving.toList ++ c.pendingTxChan)

section Views

variable {c c' : CollectTxs T} {wTx : TxWrapper T} {txID : TxID} {addr : Address}

@[simp] theorem account_setAccount (c : CollectTxs T) (addr : Address) (a : AccountTxManager T)
    (addr' : Address) :
    (c.setAccount addr a).account addr' = if addr' = addr then a else c.account addr' := by
  unfold setAccount account
  split_ifs with haddr
  · rw [haddr, AList.lookup_insert]
    rfl
  · rw [AList.lookup_insert_ne haddr]

theorem account_RemoveTx (hget : c.sortedTxs.getTx txID = some wTx) (addr : Address) :
    (c.RemoveTx txID).2.account addr =
      if addr = wTx.FromAddr then (c.account addr).removePendingTx wTx.Nonce
      else c.account addr := by
  unfold RemoveTx
  simp only [hget]
  cases hlookup : c.accountTxs.lookup wTx.FromAddr with
  | none =>
    change c.account addr = _
    split_ifs with haddr
    · -- a new manager has no pending transaction to remove
      rw [haddr, account, hlookup]
      rfl
    · rfl
  | some a =>
    simp only [account_setAccount]
    split_ifs with haddr
    · rw [haddr, account, hlookup]
      rfl
    · rfl

theorem RemoveTx_of_not_listed (hget : c.sortedTxs.getTx txID = none) :
    c.RemoveTx txID = (none, { c with fullTxs := c.fullTxs.erase txID
                                      heightTxs := c.heightTxs.removeTx txID
                                      timeTxs := c.timeTxs.removeTx txID }) := by
  unfold RemoveTx
  simp [hget, unlist, removeTx_of_getTx_none hget]

theorem parts_RemoveTx (c : CollectTxs T) (txID : TxID) (addr : Address) :
    ((c.RemoveTx txID).2.account addr).gapTxs = (c.account addr).gapTxs ∧
    ((c.RemoveTx txID).2.account addr).maxContNonce = (c.account addr).maxContNonce := by
  cases hget : c.sortedTxs.getTx txID with
  | none =>
    rw [RemoveTx_of_not_listed hget]
    exact ⟨rfl, rfl⟩
  | some wTx =>
    rw [account_RemoveTx hget]
    split_ifs <;> exact ⟨rfl, rfl⟩

theorem RemoveTx_lists (c : CollectTxs T) (txID : TxID) :
    (c.RemoveTx txID).1 = c.sortedTxs.getTx txID ∧
    (c.RemoveTx txID).2.fullTxs = c.fullTxs.erase txID ∧
    (c.RemoveTx txID).2.pendingTxChan = c.pendingTxChan ∧
    (c.RemoveTx txID).2.receiving = c.receiving ∧
    (c.RemoveTx txID).2.sortedTxs = c.sortedTxs.removeTx txID ∧
    (c.RemoveTx txID).2.heightTxs = c.heightTxs.removeTx txID ∧
    (c.RemoveTx txID).2.timeTxs = c.timeTxs.removeTx txID := by
  unfold RemoveTx
  cases hget : c.sortedTxs.getTx txID with
  | none => simp [unlist]
  | some wTx =>
    simp only
    cases hlookup : c.accountTxs.lookup wTx.FromAddr with
    | none => simp [unlist]
    | some a => simp [unlist, setAccount]

theorem receive_cases (hreceive : c.receive addr = some c') :
    ∃ wTx before after, c.receiving = none ∧ c.pendingTxChan = before ++ wTx :: after ∧
      wTx.FromAddr = addr ∧ (∀ w ∈ before, w.FromAddr ≠ addr) ∧
      c' = { c with receiving := some wTx, pendingTxChan := before ++ after } := by
  unfold receive at hreceive
  split at hreceive
  · next wTx hidle hfind =>
      obtain ⟨haddr, before, after, hsplit, hbefore⟩ :=
        find?_eq_some_iff_append.mp hfind
      have hother : ∀ w ∈ before, w.FromAddr ≠ addr := by
        intro w hw
        simpa using hbefore w hw
      have hrest : c.pendingTxChan.eraseP (fun w => decide (w.FromAddr = addr)) =
          before ++ after := by
        rw [hsplit, eraseP_append_right _ (by simpa using hother), eraseP_cons, haddr]
        rfl
      rw [hrest] at hreceive
      exact ⟨wTx, before, after, hidle, hsplit, by simpa using haddr, hother,
        (some.inj hreceive).symm⟩
  · cases hreceive

theorem insertReceived_cases (hinsert : c.insertReceived = some c') :
    ∃ wTx, c.receiving = some wTx ∧ c' = c.enlist wTx := by
  obtain ⟨wTx, hwTx, heq⟩ := map_eq_some_iff.mp hinsert
  exact ⟨wTx, hwTx, heq.symm⟩

theorem fullTxs_accountAddTx (wTx : TxWrapper T) : (c.accountAddTx wTx).2.fullTxs = c.fullTxs := by
  unfold accountAddTx
  split <;> rfl

end Views

end CollectTxs

structure CollectSystem (T : TxCodec) where
  collect : CollectTxs T
  adding : List (TxWrapper T)

/-- `AddTx` enters `fullTxs`, has its turn at its account; `RemoveTx`; the receiver takes a
transaction, and inserts it. -/
inductive CollectEvent (T : TxCodec) where
  | addTx (wTx : TxWrapper T)
  | accountAddTx (wTx : TxWrapper T)
  | removeTx (txID : TxID)
  | receive (addr : Address)
  | insertReceived

namespace CollectSystem

variable {T : TxCodec}

def new (T : TxCodec) : CollectSystem T := ⟨CollectTxs.NewCollectTxs T, []⟩

def step (s : CollectSystem T) : CollectEvent T → Option (CollectSystem T)
  | .addTx wTx =>
    match s.collect.register wTx with
    | .error _ => some s
    | .ok c => some ⟨c, wTx :: s.adding⟩
  | .accountAddTx wTx =>
    if wTx ∈ s.adding then some ⟨(s.collect.accountAddTx wTx).2, s.adding.erase wTx⟩ else none
  | .removeTx txID => some { s with collect := (s.collect.RemoveTx txID).2 }
  | .receive addr => (s.collect.receive addr).map (fun c => { s with collect := c })
  | .insertReceived => s.collect.insertReceived.map (fun c => { s with collect := c })

def adds (wTx : TxWrapper T) : List (CollectEvent T) :=
  [.addTx wTx, .accountAddTx wTx]

def lists (T : TxCodec) (addr : Address) : List (CollectEvent T) :=
  [.receive addr, .insertReceived]

def arrives (wTx : TxWrapper T) : List (CollectEvent T) :=
  adds wTx ++ lists T wTx.FromAddr

end CollectSystem

section Coherence

open CollectTxs

variable {T : TxCodec} {addr : Address} {a a' : AccountTxManager T} {wTx : TxWrapper T}
  {live live' sent : List (TxWrapper T)} {txID : TxID}

structure Tied (addr : Address) (live : List (TxWrapper T)) (a : AccountTxManager T) : Prop where
  nodup : live.Nodup
  mem_iff : ∀ w : TxWrapper T, w.FromAddr = addr → (w ∈ live ↔ a.pendingTxs.lookup w.Nonce = some w)

theorem Tied.perm (htied : Tied addr live a) (hperm : live'.Perm live) : Tied addr live' a := by
  refine ⟨hperm.nodup_iff.mpr htied.nodup, fun w hw => ?_⟩
  rw [hperm.mem_iff]
  exact htied.mem_iff w hw

theorem Tied.frame (htied : Tied addr live a) (hpending : a'.pendingTxs = a.pendingTxs) :
    Tied addr live a' := by
  refine ⟨htied.nodup, fun w hw => ?_⟩
  rw [hpending]
  exact htied.mem_iff w hw

theorem Tied.of_cons_other (htied : Tied addr (wTx :: live) a) (hother : wTx.FromAddr ≠ addr) :
    Tied addr live a := by
  refine ⟨(nodup_cons.mp htied.nodup).2, fun w hw => ?_⟩
  rw [← htied.mem_iff w hw, mem_cons]
  have hne : w ≠ wTx := fun heq => hother (heq ▸ hw)
  simp [hne]

theorem Tied.removePendingTx (htied : Tied wTx.FromAddr (wTx :: live) a) :
    Tied wTx.FromAddr live (a.removePendingTx wTx.Nonce) := by
  obtain ⟨hgone, hnodup⟩ := nodup_cons.mp htied.nodup
  have hpending := (htied.mem_iff wTx rfl).mp mem_cons_self
  refine ⟨hnodup, fun w hw => ?_⟩
  rw [lookup_removePendingTx]
  split_ifs with hn
  · have hout : w ∉ live := by
      intro hmem
      have hpending' := (htied.mem_iff w hw).mp (mem_cons_of_mem _ hmem)
      rw [hn, hpending] at hpending'
      exact hgone ((some.inj hpending') ▸ hmem)
    simp [hout]
  · rw [← htied.mem_iff w hw, mem_cons]
    have hne : w ≠ wTx := fun heq => hn (congrArg TxWrapper.Nonce heq)
    simp [hne]

theorem Tied.append_other (htied : Tied addr live a) (hnodup : (live ++ sent).Nodup)
    (hother : ∀ w ∈ sent, w.FromAddr ≠ addr) : Tied addr (live ++ sent) a := by
  refine ⟨hnodup, fun w hw => ?_⟩
  rw [mem_append]
  have hsent : w ∉ sent := fun hmem => hother w hmem hw
  simp only [hsent, or_false]
  exact htied.mem_iff w hw

theorem Tied.pend (htied : Tied addr live a) (haddr : wTx.FromAddr = addr)
    (hnonce : wTx.Nonce = a.nextNonce) (hfree : a.pendingTxs.lookup a.nextNonce = none) :
    Tied addr (live ++ [wTx]) (a.pend wTx) := by
  have hnew : wTx ∉ live := by
    intro hmem
    have hpending := (htied.mem_iff wTx haddr).mp hmem
    rw [hnonce, hfree] at hpending
    cases hpending
  refine ⟨?_, fun w hw => ?_⟩
  · refine nodup_append.mpr ⟨htied.nodup, nodup_singleton _, ?_⟩
    intro w hw w' hw' heq
    rw [heq, mem_singleton.mp hw'] at hw
    exact hnew hw
  rw [lookup_pend, mem_append, mem_singleton]
  split_ifs with hn
  · constructor
    · rintro (hmem | rfl)
      · have hpending := (htied.mem_iff w hw).mp hmem
        rw [hn, hfree] at hpending
        cases hpending
      · rfl
    · intro heq
      exact .inr (some.inj heq).symm
  · constructor
    · rintro (hmem | rfl)
      · exact (htied.mem_iff w hw).mp hmem
      · exact absurd hnonce hn
    · intro hpending
      exact .inl ((htied.mem_iff w hw).mpr hpending)

theorem AddTx_tied (ha : a.Valid addr) (htied : Tied addr live a) (haddr : wTx.FromAddr = addr)
    (hok : a.AddTx wTx = .ok (a', sent)) :
    Tied addr (live ++ sent) a' ∧ ∀ w ∈ sent, w.FromAddr = addr := by
  refine AddTx_induction (P := fun a sent => Tied addr (live ++ sent) a ∧
    ∀ w ∈ sent, w.FromAddr = addr) ha haddr ?_ ?_ ?_ hok
  · intro hpending _ hnext
    exact ⟨htied.pend haddr hnext (hnext ▸ hpending), by simpa using haddr⟩
  · rintro b sent wTxNew hopen ⟨htied, hsent⟩ hgap
    obtain ⟨hfrom, hnonce⟩ := hopen.gap _ _ hgap
    constructor
    · rw [← append_assoc]
      exact (htied.pend hfrom hnonce (hopen.apart _ _ hgap)).frame rfl
    · intro w hw
      rcases mem_append.mp hw with hw | hw
      · exact hsent w hw
      · rw [mem_singleton.mp hw]
        exact hfrom
  · intro _ _ _
    rw [append_nil]
    exact ⟨htied.frame rfl, by simp⟩

structure Coherent (c : CollectTxs T) : Prop where
  valid : ∀ addr, (c.account addr).Valid addr
  tied : ∀ addr, Tied addr c.live (c.account addr)
  height : c.heightTxs.txList.Perm c.sortedTxs.txList
  time : c.timeTxs.txList.Perm c.sortedTxs.txList

namespace Coherent

variable {c c' : CollectTxs T} {w w' : TxWrapper T}

theorem pending_of_mem (hc : Coherent c) (hw : w ∈ c.live) :
    (c.account w.FromAddr).pendingTxs.lookup w.Nonce = some w :=
  ((hc.tied w.FromAddr).mem_iff w rfl).mp hw

theorem eq_of_TxID_eq (hc : Coherent c) (hw : w ∈ c.live) (hw' : w' ∈ c.live)
    (hid : w.TxID = w'.TxID) : w = w' := by
  have horigin := TxWrapper.orginTx_eq_of_TxID_eq hid
  have hpending := hc.pending_of_mem hw
  have hpending' := hc.pending_of_mem hw'
  have hfrom : w.FromAddr = w'.FromAddr := congrArg (fun tx => tx.Head.FromAddr) horigin
  have hnonce : w.Nonce = w'.Nonce := congrArg (fun tx => tx.Head.Nonce) horigin
  rw [hfrom, hnonce, hpending'] at hpending
  exact (some.inj hpending).symm

theorem mem_live_of_listed (hw : w ∈ c.sortedTxs.txList) : w ∈ c.live :=
  mem_append_left _ hw

section Coherent

variable (hc : Coherent c)
include hc

theorem getTx_eq {st : SortedTxList T} (hperm : st.txList.Perm c.sortedTxs.txList)
    (txID : TxID) : st.getTx txID = c.sortedTxs.getTx txID := by
  cases hget : c.sortedTxs.getTx txID with
  | none =>
    rw [getTx_eq_none_iff] at hget ⊢
    intro w hw
    exact hget w (hperm.mem_iff.mp hw)
  | some wTx =>
    cases hget' : st.getTx txID with
    | none =>
      have hmem := hperm.mem_iff.mpr (mem_of_getTx hget)
      exact absurd (TxID_of_getTx hget)
        (getTx_eq_none_iff.mp hget' _ hmem)
    | some wTx' =>
      have hmem := hperm.mem_iff.mp (mem_of_getTx hget')
      have hid := (TxID_of_getTx hget').trans (TxID_of_getTx hget).symm
      rw [hc.eq_of_TxID_eq (mem_live_of_listed hmem) (mem_live_of_listed (mem_of_getTx hget)) hid]

theorem removeTx_perm {st : SortedTxList T} (hperm : st.txList.Perm c.sortedTxs.txList)
    (txID : TxID) : (st.removeTx txID).txList.Perm (c.sortedTxs.removeTx txID).txList := by
  have hsame := hc.getTx_eq hperm txID
  cases hget : c.sortedTxs.getTx txID with
  | none =>
    rw [hget] at hsame
    rw [SortedTxList.removeTx_of_getTx_none hsame, SortedTxList.removeTx_of_getTx_none hget]
    exact hperm
  | some wTx =>
    rw [hget] at hsame
    have hleft := SortedTxList.removeTx_perm hsame
    have hright := SortedTxList.removeTx_perm hget
    exact Perm.cons_inv (hleft.symm.trans (hperm.trans hright))

theorem frame_fullTxs (fullTxs : AList (fun _ : TxID => TxWrapper T)) :
    Coherent { c with fullTxs := fullTxs } :=
  { hc with }

theorem relist (haccounts : c'.accountTxs = c.accountTxs)
    (hlive : c'.live.Perm c.live) (hheight : c'.heightTxs.txList.Perm c'.sortedTxs.txList)
    (htime : c'.timeTxs.txList.Perm c'.sortedTxs.txList) : Coherent c' := by
  have haccount : ∀ addr, c'.account addr = c.account addr := by
    intro addr
    rw [account, account, haccounts]
  refine ⟨fun addr => ?_, fun addr => ?_, hheight, htime⟩
  · rw [haccount]
    exact hc.valid addr
  · rw [haccount]
    exact (hc.tied addr).perm hlive

theorem register (hok : c.register wTx = .ok c') : Coherent c' := by
  unfold CollectTxs.register at hok
  split_ifs at hok
  cases hok
  exact hc.frame_fullTxs _

theorem accountAddTx (wTx : TxWrapper T) : Coherent (c.accountAddTx wTx).2 := by
  unfold CollectTxs.accountAddTx
  cases hadd : (c.account wTx.FromAddr).AddTx wTx with
  | error e =>
    have haccount : ∀ addr,
        (c.setAccount wTx.FromAddr (c.account wTx.FromAddr)).account addr = c.account addr := by
      intro addr
      rw [account_setAccount]
      split_ifs with haddr
      · rw [haddr]
      · rfl
    refine ⟨fun addr => ?_, fun addr => ?_, hc.height, hc.time⟩
    · rw [haccount]
      exact hc.valid addr
    · rw [haccount]
      exact hc.tied addr
  | ok result =>
    obtain ⟨a, sent⟩ := result
    have hvalid := AddTx_valid (hc.valid wTx.FromAddr) rfl hadd
    obtain ⟨htied, hsent⟩ := AddTx_tied (hc.valid wTx.FromAddr) (hc.tied wTx.FromAddr) rfl hadd
    have haccount : ∀ addr,
        ({ c.setAccount wTx.FromAddr a with
            pendingTxChan := c.pendingTxChan ++ sent } : CollectTxs T).account addr =
          if addr = wTx.FromAddr then a else c.account addr :=
      fun addr => account_setAccount _ _ a addr
    have hlive : ({ c.setAccount wTx.FromAddr a with
          pendingTxChan := c.pendingTxChan ++ sent } : CollectTxs T).live = c.live ++ sent := by
      simp [live, setAccount]
    refine ⟨fun addr => ?_, fun addr => ?_, hc.height, hc.time⟩
    · rw [haccount]
      split_ifs with haddr
      · rw [haddr]
        exact hvalid
      · exact hc.valid addr
    · rw [haccount, hlive]
      split_ifs with haddr
      · rw [haddr]
        exact htied
      · refine (hc.tied addr).append_other htied.nodup ?_
        intro w hw hfrom
        exact haddr (hfrom.symm.trans (hsent w hw))

theorem RemoveTx (txID : TxID) : Coherent (c.RemoveTx txID).2 := by
  obtain ⟨_, _, hchan, hreceiving, hsorted, hheight, htime⟩ := RemoveTx_lists c txID
  have hheight' :
      (c.RemoveTx txID).2.heightTxs.txList.Perm (c.RemoveTx txID).2.sortedTxs.txList := by
    rw [hheight, hsorted]
    exact hc.removeTx_perm hc.height txID
  have htime' : (c.RemoveTx txID).2.timeTxs.txList.Perm (c.RemoveTx txID).2.sortedTxs.txList := by
    rw [htime, hsorted]
    exact hc.removeTx_perm hc.time txID
  cases hget : c.sortedTxs.getTx txID with
  | none =>
    refine hc.relist ?_ ?_ hheight' htime'
    · rw [RemoveTx_of_not_listed hget]
    · rw [live, live, hchan, hreceiving, hsorted, SortedTxList.removeTx_of_getTx_none hget]
  | some wTx =>
    have hlive : c.live.Perm (wTx :: (c.RemoveTx txID).2.live) := by
      rw [live, live, hchan, hreceiving, hsorted]
      exact (SortedTxList.removeTx_perm hget).append_right _
    refine ⟨fun addr => ?_, fun addr => ?_, hheight', htime'⟩
    · rw [account_RemoveTx hget]
      split_ifs
      · exact removePendingTx_valid (hc.valid addr)
      · exact hc.valid addr
    have hcons := (hc.tied addr).perm hlive.symm
    rw [account_RemoveTx hget]
    split_ifs with haddr
    · rw [haddr] at hcons ⊢
      exact hcons.removePendingTx
    · exact hcons.of_cons_other (Ne.symm haddr)

theorem receive (hreceive : c.receive addr = some c') : Coherent c' := by
  obtain ⟨wTx, before, after, hidle, hchan, _, _, rfl⟩ := receive_cases hreceive
  refine hc.relist rfl ?_ hc.height hc.time
  simp only [live, hidle, hchan, toList_none, toList_some, nil_append, singleton_append]
  exact perm_middle.symm.append_left _

theorem insertReceived (hinsert : c.insertReceived = some c') : Coherent c' := by
  obtain ⟨wTx, hreceiving, rfl⟩ := insertReceived_cases hinsert
  refine hc.relist rfl ?_ ?_ ?_
  · simp only [live, enlist, hreceiving, toList_none, toList_some, nil_append, singleton_append]
    exact ((addTx_perm _ _).append_right _).trans perm_middle.symm
  · exact (addTx_perm _ _).trans
      ((hc.height.cons _).trans (addTx_perm _ _).symm)
  · exact (addTx_perm _ _).trans
      ((hc.time.cons _).trans (addTx_perm _ _).symm)

end Coherent

theorem NewCollectTxs : Coherent (CollectTxs.NewCollectTxs T) := by
  refine ⟨fun addr => newAccountTxManager_valid, fun addr => ⟨nodup_nil, ?_⟩,
    Perm.refl _, Perm.refl _⟩
  intro w _
  simp [live, CollectTxs.NewCollectTxs, account, newAccountTxManager, newSortedTxList]

end Coherent

namespace CollectSystem

variable {s s' : CollectSystem T} {e : CollectEvent T} {events : List (CollectEvent T)}

theorem step_cases : s.step e = some s' →
    match e with
    | .addTx wTx => ∃ full,
        (full = s.collect.fullTxs ∨ full = s.collect.fullTxs.insert wTx.TxID wTx) ∧
          s'.collect = { s.collect with fullTxs := full }
    | .accountAddTx wTx => wTx ∈ s.adding ∧ s'.collect = (s.collect.accountAddTx wTx).2
    | .removeTx txID => s'.collect = (s.collect.RemoveTx txID).2
    | .receive addr => s.collect.receive addr = some s'.collect
    | .insertReceived => s.collect.insertReceived = some s'.collect := by
  intro hstep
  cases e with
  | addTx wTx =>
    simp only [step] at hstep
    split at hstep
    · exact ⟨_, .inl rfl, (congrArg CollectSystem.collect (some.inj hstep)).symm⟩
    · next c hregister =>
        unfold CollectTxs.register at hregister
        split_ifs at hregister
        rw [← some.inj hstep, ← Except.ok.inj hregister]
        exact ⟨_, .inr rfl, rfl⟩
  | accountAddTx wTx =>
    simp only [step, ite_none_right_eq_some, some.injEq] at hstep
    obtain ⟨hmem, rfl⟩ := hstep
    exact ⟨hmem, rfl⟩
  | removeTx txID =>
    cases hstep
    rfl
  | receive addr =>
    obtain ⟨c, hreceive, rfl⟩ := map_eq_some_iff.mp hstep
    exact hreceive
  | insertReceived =>
    obtain ⟨c, hinsert, rfl⟩ := map_eq_some_iff.mp hstep
    exact hinsert

theorem step_coherent (hs : Coherent s.collect) (hstep : s.step e = some s') :
    Coherent s'.collect := by
  have hcase := step_cases hstep
  cases e with
  | addTx wTx =>
    obtain ⟨full, _, heq⟩ := hcase
    rw [heq]
    exact hs.frame_fullTxs full
  | accountAddTx wTx =>
    rw [hcase.2]
    exact hs.accountAddTx wTx
  | removeTx txID =>
    have heq : s'.collect = (s.collect.RemoveTx txID).2 := hcase
    rw [heq]
    exact hs.RemoveTx txID
  | receive addr => exact hs.receive hcase
  | insertReceived => exact hs.insertReceived hcase

theorem run_coherent (hrun : events.foldlM step (new T) = some s) : Coherent s.collect :=
  run_invariant (fun _ _ _ => step_coherent) Coherent.NewCollectTxs hrun

end CollectSystem

end Coherence

end Topia.TransactionPool
