import Topia.TransactionPool.Pool
import Topia.TransactionPool.Progress

/-!
# What a pool leaves in its store

A local transaction that is accepted is written to the store of the pool with its height, and
removed from it when it is removed from the sorted list.
-/

namespace Topia.TransactionPool

open Lib Transaction AccountTxManager AList TxWrapper

section Persisted

def Wrappable (T : TxCodec) (tx : Transaction) : Prop :=
  ∀ height now, ∃ wTx, GenerateTxWrapper T tx height now = .ok wTx

def slot (tx : Transaction) : Address × Nat := (tx.Head.FromAddr, tx.Head.Nonce)

structure Loadable (T : TxCodec) (txID : TxID) (sTx : StoredTx) : Prop where
  keyed : sTx.tx.TxID T = txID
  wrappable : Wrappable T sTx.tx
  nonce_ne : sTx.tx.Head.Nonce ≠ 0

/-- Transactions by identifier, no two with one sender and nonce. -/
structure PersistedTxs (T : TxCodec) where
  store : AList (fun _ : TxID => StoredTx)
  loadable : ∀ txID sTx, store.lookup txID = some sTx → Loadable T txID sTx
  slots : ∀ txID txID' sTx sTx', store.lookup txID = some sTx → store.lookup txID' = some sTx' →
    slot sTx.tx = slot sTx'.tx → txID = txID'

variable {T : TxCodec}

namespace PersistedTxs

def values (S : PersistedTxs T) : List StoredTx := S.store.entries.map (fun e => e.2)

def txs (S : PersistedTxs T) : List Transaction := S.values.map StoredTx.tx

variable {S : PersistedTxs T}

theorem mem_values {sTx : StoredTx} :
    sTx ∈ S.values ↔ S.store.lookup (sTx.tx.TxID T) = some sTx := by
  unfold values
  rw [List.mem_map]
  constructor
  · rintro ⟨⟨txID, s⟩, hmem, rfl⟩
    have hlookup : S.store.lookup txID = some s := mem_lookup_iff.mpr hmem
    rw [(S.loadable txID s hlookup).keyed]
    exact hlookup
  · intro hlookup
    exact ⟨⟨_, sTx⟩, mem_lookup_iff.mp hlookup, rfl⟩

theorem slots_nodup (S : PersistedTxs T) : (S.txs.map slot).Nodup := by
  have hentries : S.store.entries.Nodup := S.store.nodupKeys.nodup
  rw [txs, values, List.map_map, List.map_map]
  refine hentries.map_on ?_
  rintro ⟨txID, s⟩ hmem ⟨txID', s'⟩ hmem' hslot
  have hlookup : S.store.lookup txID = some s := mem_lookup_iff.mpr hmem
  have hlookup' : S.store.lookup txID' = some s' := mem_lookup_iff.mpr hmem'
  have hid := S.slots _ _ _ _ hlookup hlookup' hslot
  subst hid
  rw [hlookup] at hlookup'
  cases hlookup'
  rfl

def entry (T : TxCodec) (sTx : StoredTx) : Sigma (fun _ : TxID => StoredTx) :=
  ⟨sTx.tx.TxID T, sTx⟩

variable {sTxs : List StoredTx}

theorem nodupKeys_entries (hslots : (sTxs.map (fun sTx => slot sTx.tx)).Nodup) :
    (sTxs.map (entry T)).NodupKeys := by
  have hnodup : sTxs.Nodup := hslots.of_map
  rw [List.NodupKeys, List.keys, List.map_map]
  refine hnodup.map_on ?_
  intro sTx hsTx sTx' hsTx' heq
  have hid : sTx.tx.TxID T = sTx'.tx.TxID T := heq
  exact List.inj_on_of_nodup_map hslots hsTx hsTx' (congrArg slot (TxID_inj hid))

theorem mem_entries {txID : TxID} {sTx : StoredTx}
    (hmem : (⟨txID, sTx⟩ : Sigma (fun _ : TxID => StoredTx)) ∈ sTxs.map (entry T)) :
    sTx ∈ sTxs ∧ sTx.tx.TxID T = txID := by
  obtain ⟨sTx', hsTx, heq⟩ := List.mem_map.mp hmem
  cases heq
  exact ⟨hsTx, rfl⟩

section List

variable (sTxs) (hwrap : ∀ sTx ∈ sTxs, Wrappable T sTx.tx)
  (hnonce : ∀ sTx ∈ sTxs, sTx.tx.Head.Nonce ≠ 0)
  (hslots : (sTxs.map (fun sTx => slot sTx.tx)).Nodup)

def ofList : PersistedTxs T where
  store := ⟨sTxs.map (entry T), nodupKeys_entries hslots⟩
  loadable txID sTx h := by
    obtain ⟨hmem, hid⟩ := mem_entries (mem_lookup_iff.mp h)
    exact ⟨hid, hwrap sTx hmem, hnonce sTx hmem⟩
  slots txID txID' sTx sTx' h h' hslot := by
    obtain ⟨hsTx, hid⟩ := mem_entries (mem_lookup_iff.mp h)
    obtain ⟨hsTx', hid'⟩ := mem_entries (mem_lookup_iff.mp h')
    have heq : sTx = sTx' := List.inj_on_of_nodup_map hslots hsTx hsTx' hslot
    rw [← hid, ← hid', heq]

theorem values_ofList : (ofList sTxs hwrap hnonce hslots).values = sTxs := by
  simp [values, ofList, entry, Function.comp_def]

end List

end PersistedTxs

end Persisted

section FirstLife

variable {T : TxCodec}

theorem wrappable_of_GenerateTxWrapper {tx : Transaction} {height : Nat} {now : Int}
    {wTx : TxWrapper T} (hok : GenerateTxWrapper T tx height now = .ok wTx) :
    Wrappable T tx := by
  intro height' now'
  unfold GenerateTxWrapper at hok ⊢
  split at hok
  · next hcategory =>
      rw [if_pos hcategory]
      split at hok
      · cases hok
      · cases hok
      · exact ⟨_, rfl⟩
  · cases hok

namespace AccountTxManager

def Taken (a : AccountTxManager T) (n : Nat) : Prop :=
  n ≤ a.maxContNonce ∨ a.gapTxs.lookup n ≠ none

def seen (a : AccountTxManager T) : Nat := a.maxContNonce + a.gapTxs.keys.length

variable {addr : Address} {a a' : AccountTxManager T} {wTx : TxWrapper T}
  {sent : List (TxWrapper T)} {n : Nat}

theorem Taken.pendGap (ha : a.Open addr) (hgap : a.gapTxs.lookup a.nextNonce = some wTx)
    (hn : a.Taken n) : (a.pendGap wTx).Taken n := by
  have hnext := nextNonce_of_gap ha hgap
  have hmax : (a.pendGap wTx).maxContNonce = a.nextNonce := rfl
  unfold Taken
  rw [hmax, lookup_pendGap]
  rcases hn with hle | hwaits
  · left
    omega
  · by_cases heq : n = a.nextNonce
    · exact .inl heq.le
    · rw [if_neg heq]
      exact .inr hwaits

theorem seen_pendGap (hgap : a.gapTxs.lookup a.nextNonce = some wTx) :
    (a.pendGap wTx).seen ≤ a.seen := by
  have hmem : a.nextNonce ∈ a.gapTxs.keys := by
    rw [← mem_keys, ← lookup_isSome, hgap]
    rfl
  have hkeys : (a.pendGap wTx).gapTxs.keys = a.gapTxs.keys.erase a.nextNonce :=
    keys_erase _ _
  have hlength := List.length_erase_of_mem hmem
  have hpos := List.length_pos_of_mem hmem
  have hnext : a.nextNonce ≤ a.maxContNonce + 1 := Nat.mod_le _ _
  have hmax : (a.pendGap wTx).maxContNonce = a.nextNonce := rfl
  unfold seen
  rw [hkeys, hlength, hmax]
  omega

theorem AddTx_new (hmax : a.maxContNonce + 1 < 2 ^ 64) (hadd : a.AddTx wTx = .ok (a', sent)) :
    ¬ a.Taken wTx.Nonce ∧ wTx.Nonce ≠ 0 := by
  have hnext : a.nextNonce = a.maxContNonce + 1 := Nat.mod_eq_of_lt hmax
  obtain ⟨_, hfree, hcase⟩ := AddTx_cases hadd
  refine ⟨?_, by omega⟩
  rintro (hle | hwaits)
  · omega
  · exact hwaits hfree

theorem AddTx_taken (ha : a.Valid addr) (haddr : wTx.FromAddr = addr)
    (hmax : a.maxContNonce + 1 < 2 ^ 64) (hadd : a.AddTx wTx = .ok (a', sent))
    (hn : a.Taken n ∨ n = wTx.Nonce) : a'.Taken n := by
  have hnext : a.nextNonce = a.maxContNonce + 1 := Nat.mod_eq_of_lt hmax
  refine AddTx_induction (P := fun b _ => b.Taken n) ha haddr ?_ ?_ ?_ hadd
  · intro _ _ hnonce
    have hmax' : (a.pend wTx).maxContNonce = a.nextNonce := rfl
    rcases hn with (hle | hwaits) | rfl
    · exact .inl (by omega)
    · exact .inr hwaits
    · exact .inl (by omega)
  · intro b _ wTxNew hopen hb hgap
    exact hb.pendGap hopen hgap
  · intro _ _ _
    unfold Taken
    rw [lookup_gapInsert]
    split_ifs with heq
    · simp
    · exact hn.resolve_right heq

theorem AddTx_seen (ha : a.Valid addr) (haddr : wTx.FromAddr = addr)
    (hadd : a.AddTx wTx = .ok (a', sent)) : a'.seen ≤ a.seen + 1 := by
  refine AddTx_induction (P := fun b _ => b.seen ≤ a.seen + 1) ha haddr ?_ ?_ ?_ hadd
  · intro _ _ _
    have hnext : a.nextNonce ≤ a.maxContNonce + 1 := Nat.mod_le _ _
    simp only [seen, pend]
    omega
  · intro b _ wTxNew _ hb hgap
    exact (seen_pendGap hgap).trans hb
  · intro _ _ _
    have herase : (a.gapTxs.keys.erase wTx.Nonce).length ≤ a.gapTxs.keys.length :=
      List.length_erase_le
    simp only [seen, keys_insert, List.length_cons]
    omega

end AccountTxManager

namespace Pool

variable {p p' : Pool T} {e : PoolEvent} {tx : Transaction} {height : Nat}
  {curHeight : Option Nat} {now : Int} {wTx : TxWrapper T}

theorem collectTx_of_accepts {a : AccountTxManager T} {sent : List (TxWrapper T)}
    (hnew : p.txsCollect.fullTxs.lookup wTx.TxID = none)
    (hadd : (p.txsCollect.account wTx.FromAddr).AddTx wTx = .ok (a, sent)) :
    p.collectTx wTx = (.ok wTx, { p with
      txsCollect := { p.txsCollect.setAccount wTx.FromAddr a with
        fullTxs := p.txsCollect.fullTxs.insert wTx.TxID wTx
        pendingTxChan := p.txsCollect.pendingTxChan ++ sent }
      txCount := p.txCount + 1
      txSizeBytes := p.txSizeBytes + wTx.Size }) := by
  have haccount : ({ p.txsCollect with
      fullTxs := p.txsCollect.fullTxs.insert wTx.TxID wTx } : CollectTxs T).account
        wTx.FromAddr = p.txsCollect.account wTx.FromAddr := rfl
  simp [collectTx, CollectTxs.AddTx, CollectTxs.register, CollectTxs.accountAddTx,
    CollectTxs.setAccount, hnew, haccount, hadd]

theorem collectTx_cases (p : Pool T) (wTx : TxWrapper T) :
    ((∃ err, (p.collectTx wTx).1 = .error err) ∧
      (∀ addr, (p.collectTx wTx).2.txsCollect.account addr = p.txsCollect.account addr) ∧
      (p.collectTx wTx).2.store = p.store ∧
      (p.collectTx wTx).2.txsCollect.pendingTxChan = p.txsCollect.pendingTxChan) ∨
    ∃ a sent, p.txsCollect.fullTxs.lookup wTx.TxID = none ∧
      (p.txsCollect.account wTx.FromAddr).AddTx wTx = .ok (a, sent) := by
  cases hlookup : p.txsCollect.fullTxs.lookup wTx.TxID with
  | some w =>
    left
    simp [collectTx, CollectTxs.AddTx, CollectTxs.register, hlookup]
  | none =>
    have haccount : ({ p.txsCollect with
        fullTxs := p.txsCollect.fullTxs.insert wTx.TxID wTx } : CollectTxs T).account
          wTx.FromAddr = p.txsCollect.account wTx.FromAddr := rfl
    cases hadd : (p.txsCollect.account wTx.FromAddr).AddTx wTx with
    | ok result => exact .inr ⟨result.1, result.2, rfl, rfl⟩
    | error err =>
      left
      have hcollect : p.txsCollect.AddTx wTx = (.error err, CollectTxs.setAccount
          { p.txsCollect with fullTxs := p.txsCollect.fullTxs.insert wTx.TxID wTx }
          wTx.FromAddr (p.txsCollect.account wTx.FromAddr)) := by
        simp [CollectTxs.AddTx, CollectTxs.register, CollectTxs.accountAddTx, hlookup, haccount,
          hadd]
      unfold collectTx
      rw [hcollect]
      refine ⟨⟨_, rfl⟩, fun addr => ?_, rfl, rfl⟩
      rw [CollectTxs.account_setAccount]
      split_ifs with haddr
      · rw [haddr]
      · rfl

/-- After `n` calls every stored nonce has been seen, and no two stored transactions share one. -/
structure Stored (n : Nat) (p : Pool T) : Prop where
  valid : ∀ addr, (p.txsCollect.account addr).Valid addr
  seen : ∀ addr, (p.txsCollect.account addr).seen ≤ n
  loadable : ∀ txID sTx, p.store.lookup txID = some sTx → Loadable T txID sTx
  taken : ∀ txID sTx, p.store.lookup txID = some sTx →
    (p.txsCollect.account sTx.tx.Head.FromAddr).Taken sTx.tx.Head.Nonce
  slots : ∀ txID txID' sTx sTx', p.store.lookup txID = some sTx →
    p.store.lookup txID' = some sTx' → slot sTx.tx = slot sTx'.tx → txID = txID'

namespace Stored

variable {n : Nat}

section Stored

variable (hp : p.Stored n)
include hp

theorem frame
    (hvalid : ∀ addr, (p'.txsCollect.account addr).Valid addr)
    (hseen : ∀ addr, (p'.txsCollect.account addr).seen ≤ (p.txsCollect.account addr).seen)
    (htaken : ∀ addr m, (p.txsCollect.account addr).Taken m → (p'.txsCollect.account addr).Taken m)
    (hstore : ∀ txID sTx, p'.store.lookup txID = some sTx → p.store.lookup txID = some sTx) :
    p'.Stored n where
  valid := hvalid
  seen addr := (hseen addr).trans (hp.seen addr)
  loadable txID sTx h := hp.loadable txID sTx (hstore txID sTx h)
  taken txID sTx h := htaken _ _ (hp.taken txID sTx (hstore txID sTx h))
  slots txID txID' sTx sTx' h h' :=
    hp.slots txID txID' sTx sTx' (hstore txID sTx h) (hstore txID' sTx' h')

theorem forget (haccount : ∀ addr, p'.txsCollect.account addr = p.txsCollect.account addr)
    (hstore : ∀ txID sTx, p'.store.lookup txID = some sTx → p.store.lookup txID = some sTx) :
    p'.Stored n := by
  refine hp.frame (fun addr => ?_) (fun addr => ?_) (fun addr m hm => ?_) hstore
  · rw [haccount]
    exact hp.valid addr
  · rw [haccount]
  · rw [haccount]
    exact hm

theorem mono {m : Nat} (hle : n ≤ m) : p.Stored m :=
  { hp with seen := fun addr => (hp.seen addr).trans hle }

theorem accepts {a : AccountTxManager T} {sent : List (TxWrapper T)}
    (hn : n + 1 < 2 ^ 64)
    (hadd : (p.txsCollect.account wTx.FromAddr).AddTx wTx = .ok (a, sent))
    (haccount : ∀ addr, p'.txsCollect.account addr =
      if addr = wTx.FromAddr then a else p.txsCollect.account addr)
    (hstore : p'.store = p.store) :
    p'.Stored (n + 1) ∧ wTx.Nonce ≠ 0 ∧ (p'.txsCollect.account wTx.FromAddr).Taken wTx.Nonce ∧
    ∀ txID sTx, p'.store.lookup txID = some sTx → slot sTx.tx ≠ slot wTx.orginTx := by
  have hvalid := hp.valid wTx.FromAddr
  have hseen := hp.seen wTx.FromAddr
  have hmax : (p.txsCollect.account wTx.FromAddr).maxContNonce + 1 < 2 ^ 64 := by
    unfold AccountTxManager.seen at hseen
    omega
  obtain ⟨hnew, hzero⟩ := AddTx_new hmax hadd
  have htaken : ∀ addr m, (p.txsCollect.account addr).Taken m →
      (p'.txsCollect.account addr).Taken m := by
    intro addr m hm
    rw [haccount]
    split_ifs with haddr
    · rw [haddr] at hm
      exact AddTx_taken hvalid rfl hmax hadd (.inl hm)
    · exact hm
  refine ⟨?_, hzero, ?_, ?_⟩
  · refine ⟨fun addr => ?_, fun addr => ?_, ?_, ?_, ?_⟩
    · rw [haccount]
      split_ifs with haddr
      · rw [haddr]
        exact AddTx_valid hvalid rfl hadd
      · exact hp.valid addr
    · rw [haccount]
      split_ifs with haddr
      · have := AddTx_seen hvalid rfl hadd
        omega
      · exact (hp.seen addr).trans (Nat.le_succ n)
    · rw [hstore]
      exact hp.loadable
    · rw [hstore]
      exact fun txID sTx h => htaken _ _ (hp.taken txID sTx h)
    · rw [hstore]
      exact hp.slots
  · rw [haccount, if_pos rfl]
    exact AddTx_taken hvalid rfl hmax hadd (.inr rfl)
  · intro txID sTx hlookup hslot
    rw [hstore] at hlookup
    have hold := hp.taken txID sTx hlookup
    rw [show sTx.tx.Head.FromAddr = wTx.FromAddr from congrArg Prod.fst hslot,
      show sTx.tx.Head.Nonce = wTx.Nonce from congrArg Prod.snd hslot] at hold
    exact hnew hold

theorem save (hwrap : Wrappable T wTx.orginTx) (hzero : wTx.Nonce ≠ 0)
    (htaken : (p.txsCollect.account wTx.FromAddr).Taken wTx.Nonce)
    (hslot : ∀ txID sTx, p.store.lookup txID = some sTx → slot sTx.tx ≠ slot wTx.orginTx) :
    (p.saveTxIntoStore wTx).Stored n := by
  have hlookup : ∀ txID sTx, (p.saveTxIntoStore wTx).store.lookup txID = some sTx →
      (txID = wTx.TxID ∧ sTx = ⟨wTx.height, wTx.orginTx⟩) ∨ p.store.lookup txID = some sTx := by
    intro txID sTx h
    by_cases hid : txID = wTx.TxID
    · rw [hid, saveTxIntoStore, lookup_insert] at h
      exact .inl ⟨hid, (Option.some.inj h).symm⟩
    · rw [saveTxIntoStore, lookup_insert_ne hid] at h
      exact .inr h
  refine ⟨hp.valid, hp.seen, ?_, ?_, ?_⟩
  · intro txID sTx h
    rcases hlookup txID sTx h with ⟨rfl, rfl⟩ | hold
    · exact ⟨rfl, hwrap, hzero⟩
    · exact hp.loadable txID sTx hold
  · intro txID sTx h
    rcases hlookup txID sTx h with ⟨rfl, rfl⟩ | hold
    · exact htaken
    · exact hp.taken txID sTx hold
  intro txID txID' sTx sTx' h h' heq
  rcases hlookup txID sTx h with ⟨rfl, rfl⟩ | hold <;>
    rcases hlookup txID' sTx' h' with ⟨rfl, rfl⟩ | hold'
  · rfl
  · exact absurd heq.symm (hslot txID' sTx' hold')
  · exact absurd heq (hslot txID sTx hold)
  · exact hp.slots txID txID' sTx sTx' hold hold' heq

open CollectTxs

theorem addTx {result : Except PoolError (TxWrapper T)} (hn : n + 1 < 2 ^ 64)
    (hadd : p.addTx tx height curHeight now = some (result, p')) :
    p'.Stored (n + 1) ∧ ∀ wTx, result = .ok wTx →
      Wrappable T tx ∧ wTx.orginTx = tx ∧ tx.Head.Nonce ≠ 0 ∧
      (p'.txsCollect.account tx.Head.FromAddr).Taken tx.Head.Nonce ∧
      ∀ txID sTx, p'.store.lookup txID = some sTx → slot sTx.tx ≠ slot tx := by
  rcases addTx_collect hadd with ⟨rfl, ⟨err, rfl⟩, _⟩ | ⟨h, wTx, _, hgenerate, _, hcollect⟩
  · exact ⟨hp.mono (Nat.le_succ n), fun wTx hok => by cases hok⟩
  obtain ⟨rfl, _⟩ := GenerateTxWrapper_orginTx hgenerate
  rcases p.collectTx_cases wTx with ⟨⟨err, herr⟩, haccount, hstore, _⟩ | ⟨a, sent, hfree, hok⟩
  · rw [← hcollect] at herr haccount hstore
    refine ⟨?_, ?_⟩
    · refine (hp.forget haccount ?_).mono (Nat.le_succ n)
      rw [hstore]
      exact fun _ _ h => h
    · intro wTx' hok
      rw [show result = .error err from herr] at hok
      cases hok
  · rw [collectTx_of_accepts hfree hok] at hcollect
    have hp' := congrArg Prod.snd hcollect
    have haccount : ∀ addr, p'.txsCollect.account addr =
        if addr = wTx.FromAddr then a else p.txsCollect.account addr := by
      intro addr
      rw [show p' = _ from hp']
      exact account_setAccount _ _ _ _
    have hstore : p'.store = p.store := by rw [show p' = _ from hp']
    obtain ⟨hstored, hzero, htaken, hslot⟩ := hp.accepts hn hok haccount hstore
    refine ⟨hstored, fun wTx' hwTx' => ?_⟩
    rw [show result = _ from congrArg Prod.fst hcollect] at hwTx'
    cases hwTx'
    exact ⟨wrappable_of_GenerateTxWrapper hgenerate, rfl, hzero, htaken, hslot⟩

theorem removeTxByKey (txID : TxID) : (p.RemoveTxByKey txID).Stored n := by
  have haccount : ∀ addr, (p.RemoveTxByKey txID).txsCollect.account addr =
      (p.txsCollect.RemoveTx txID).2.account addr := by
    intro addr
    unfold RemoveTxByKey
    split <;> next heq => rw [heq]
  have hstore : ∀ id sTx, (p.RemoveTxByKey txID).store.lookup id = some sTx →
      p.store.lookup id = some sTx := by
    intro id sTx h
    unfold RemoveTxByKey at h
    split at h
    · exact h
    · exact lookup_of_lookup_erase h
  cases hget : p.txsCollect.sortedTxs.getTx txID with
  | none =>
    refine hp.forget (fun addr => ?_) hstore
    rw [haccount, RemoveTx_of_not_listed hget]
    rfl
  | some w =>
    have hcase : ∀ addr, (p.RemoveTxByKey txID).txsCollect.account addr =
        if addr = w.FromAddr then (p.txsCollect.account addr).removePendingTx w.Nonce
        else p.txsCollect.account addr := by
      intro addr
      rw [haccount, account_RemoveTx hget]
    -- only pending transactions leave their account
    refine hp.frame (fun addr => ?_) (fun addr => ?_) (fun addr m hm => ?_) hstore
    · rw [hcase]
      split_ifs
      · exact removePendingTx_valid (hp.valid addr)
      · exact hp.valid addr
    · rw [hcase]
      split_ifs <;> rfl
    · rw [hcase]
      split_ifs <;> exact hm

theorem updateTx {oldTxID : TxID} {curHeight' : Option Nat} {now' : Int}
    {result : Except PoolError Unit} (hn : n + 1 < 2 ^ 64)
    (hupdate : p.UpdateTx tx oldTxID curHeight curHeight' now now' = some (result, p')) :
    p'.Stored (n + 1) := by
  rcases UpdateTx_cases hupdate with
    ⟨rfl, _⟩ | ⟨_, wTx, added, q, _, ⟨h, _, hgenerate⟩, _, hadd, hq⟩
  · exact hp.mono (Nat.le_succ n)
  · obtain ⟨hstored, hresult⟩ := hp.addTx hn hadd
    rcases hq with ⟨_, rfl⟩ | ⟨⟨wTx', rfl⟩, rfl⟩
    · exact hstored
    · obtain ⟨hwrap, _, hzero, htaken, hslot⟩ := hresult wTx' rfl
      obtain ⟨rfl, _⟩ := GenerateTxWrapper_orginTx hgenerate
      have herase : ∀ id sTx, (q.removeTxFromStore oldTxID).store.lookup id = some sTx →
          q.store.lookup id = some sTx := fun _ _ h => lookup_of_lookup_erase h
      have hforgot : (q.removeTxFromStore oldTxID).Stored (n + 1) :=
        hstored.forget (fun _ => rfl) herase
      exact hforgot.save hwrap hzero htaken (fun id sTx h => hslot id sTx (herase id sTx h))

theorem step (hn : n + 1 < 2 ^ 64) (hstep : p.step e = some p') : p'.Stored (n + 1) := by
  cases e with
  | addTx tx isLocal curHeight now =>
    obtain ⟨⟨result, q⟩, hadd, rfl⟩ := Option.map_eq_some_iff.mp hstep
    obtain ⟨hq, hresult⟩ := hp.addTx hn hadd
    cases result with
    | error err => exact hq
    | ok wTx =>
      obtain ⟨hwrap, rfl, hzero, htaken, hslot⟩ := hresult wTx rfl
      cases isLocal with
      | false => exact hq
      | true => exact hq.save hwrap hzero htaken hslot
  | updateTx tx oldTxID curHeight curHeight' now now' =>
    obtain ⟨⟨_, q⟩, hupdate, rfl⟩ := Option.map_eq_some_iff.mp hstep
    exact hp.updateTx hn hupdate
  | removeTxByKey txID =>
    cases hstep
    exact (hp.removeTxByKey txID).mono (Nat.le_succ n)
  | receive addr =>
    obtain ⟨c, hreceive, rfl⟩ := Option.map_eq_some_iff.mp hstep
    obtain ⟨_, _, _, _, _, _, _, rfl⟩ := receive_cases hreceive
    exact (hp.mono (Nat.le_succ n)).forget (fun _ => rfl) (fun _ _ h => h)
  | insertReceived =>
    obtain ⟨c, hinsert, rfl⟩ := Option.map_eq_some_iff.mp hstep
    obtain ⟨_, _, rfl⟩ := insertReceived_cases hinsert
    exact (hp.mono (Nat.le_succ n)).forget (fun _ => rfl) (fun _ _ h => h)

theorem run {events : List PoolEvent} (hn : n + events.length < 2 ^ 64)
    (hrun : events.foldlM Pool.step p = some p') : p'.Stored (n + events.length) := by
  induction events generalizing p n with
  | nil =>
    cases hrun
    exact hp
  | cons e events ih =>
    obtain ⟨q, hstep, hrest⟩ := run_cons_success hrun
    rw [List.length_cons] at hn ⊢
    have hq := hp.step (by omega) hstep
    have := ih hq (by omega) hrest
    rwa [Nat.add_assoc, Nat.add_comm 1] at this

end Stored

theorem empty (config : TransactionPoolConfig) : (Pool.empty T config).Stored 0 := by
  refine ⟨fun _ => newAccountTxManager_valid, fun _ => Nat.le_refl 0, ?_, ?_, ?_⟩ <;>
    · intro txID sTx
      intros
      simp_all [Pool.empty]

end Stored

theorem persisted_of_run {config : TransactionPoolConfig} {events : List PoolEvent}
    (hlength : events.length < 2 ^ 64) (hrun : events.foldlM step (empty T config) = some p) :
    ∃ S : PersistedTxs T, S.store = p.store := by
  have hp := (Stored.empty config).run (by omega) hrun
  exact ⟨{ hp with store := p.store }, rfl⟩

theorem persisted_removeWaiting : ∃ p, ∃ S : PersistedTxs plainCodec,
    removeWaiting.foldlM step (empty plainCodec DefaultTransactionPoolConfig) = some p ∧
      S.store = p.store := by
  obtain ⟨p, hrun⟩ : ∃ p, removeWaiting.foldlM step
    (empty plainCodec DefaultTransactionPoolConfig) = some p := ⟨_, rfl⟩
  obtain ⟨S, hS⟩ := persisted_of_run (by decide) hrun
  exact ⟨p, S, hrun, hS⟩

end Pool
end FirstLife

end Topia.TransactionPool
