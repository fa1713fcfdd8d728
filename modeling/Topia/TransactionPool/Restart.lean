import Topia.TransactionPool.Load

/-!
# The pool after a restart

A pool that is created on the store of an earlier one should hold what was stored. The load waits
for ever when more than a hundred transactions can be sent, and a stored height of zero is replaced
by the current one.
-/

namespace Topia.TransactionPool

open Lib Transaction AccountTxManager

section Restart

variable {T : TxCodec}

def PoolEvent.OfReceiver : PoolEvent → Prop
  | .receive _ => True
  | .insertReceived => True
  | _ => False

namespace Pool

variable {p p' : Pool T} {S : PersistedTxs T} {conf config : TransactionPoolConfig}

structure Holds (S : PersistedTxs T) (p : Pool T) : Prop where
  full : ∀ txID, (p.txsCollect.fullTxs.lookup txID).map
    (fun w => (⟨w.height, w.orginTx⟩ : StoredTx)) = S.store.lookup txID
  accounts : ∀ txID w, p.txsCollect.fullTxs.lookup txID = some w →
    (p.txsCollect.account w.FromAddr).pendingTxs.lookup w.Nonce = some w ∨
    (p.txsCollect.account w.FromAddr).gapTxs.lookup w.Nonce = some w

def Restores (S : PersistedTxs T) (created : Created T) : Prop :=
  ∃ p, created = .returned p ∧ ∀ (events : List PoolEvent) p', (∀ e ∈ events, e.OfReceiver) →
    events.foldlM step p = some p' → Holds S p'

theorem Holds.step {e : PoolEvent} (hp : Holds S p) (he : e.OfReceiver)
    (hstep : p.step e = some p') : Holds S p' := by
  cases e with
  | receive addr =>
    obtain ⟨c, hreceive, rfl⟩ := Option.map_eq_some_iff.mp hstep
    obtain ⟨_, _, _, _, _, _, _, rfl⟩ := CollectTxs.receive_cases hreceive
    exact ⟨hp.full, hp.accounts⟩
  | insertReceived =>
    obtain ⟨c, hinsert, rfl⟩ := Option.map_eq_some_iff.mp hstep
    obtain ⟨_, _, rfl⟩ := CollectTxs.insertReceived_cases hinsert
    exact ⟨hp.full, hp.accounts⟩
  | _ => exact he.elim

theorem restores_returned_iff : Restores S (.returned p) ↔ Holds S p := by
  constructor
  · rintro ⟨q, heq, hholds⟩
    cases heq
    exact hholds [] p (by simp) rfl
  · intro hp
    refine ⟨p, rfl, fun events p' hevents hrun => ?_⟩
    exact run_invariant_along (fun _ _ _ => Holds.step) hp
      (along_of_forall_mem (fun e he _ => hevents e he) p) hrun

end Pool

open List LoadCall

namespace PersistedTxs

structure Iteration (S : PersistedTxs T) where
  calls : List LoadCall
  perm : (calls.map sTx).Perm S.values

variable {S : PersistedTxs T} {it : S.Iteration} {call : LoadCall}

theorem Iteration.mem_values (it : S.Iteration) (hcall : call ∈ it.calls) :
    S.store.lookup (call.sTx.tx.TxID T) = some call.sTx :=
  PersistedTxs.mem_values.mp (it.perm.mem_iff.mp (mem_map.mpr ⟨call, hcall, rfl⟩))

theorem Iteration.exists_call (it : S.Iteration) {txID : TxID} {sTx : StoredTx}
    (hlookup : S.store.lookup txID = some sTx) : ∃ call ∈ it.calls, call.sTx = sTx := by
  rw [← (S.loadable _ _ hlookup).keyed] at hlookup
  exact mem_map.mp (it.perm.mem_iff.mpr (PersistedTxs.mem_values.mpr hlookup))

theorem Iteration.perm_txs (it : S.Iteration) :
    (it.calls.map (fun call => call.sTx.tx)).Perm S.txs := by
  have hperm := it.perm.map StoredTx.tx
  rw [map_map] at hperm
  exact hperm

theorem Iteration.slots_nodup (it : S.Iteration) :
    (it.calls.map (fun call => slot call.sTx.tx)).Nodup := by
  have hperm := it.perm_txs.map slot
  rw [map_map] at hperm
  exact hperm.nodup_iff.mpr S.slots_nodup

theorem Iteration.call_inj (it : S.Iteration) {call' : LoadCall} (hcall : call ∈ it.calls)
    (hcall' : call' ∈ it.calls) (heq : call.sTx.tx = call'.sTx.tx) : call = call' :=
  inj_on_of_nodup_map it.slots_nodup hcall hcall' (congrArg slot heq)

end PersistedTxs

namespace Pool

variable {p : Pool T} {S : PersistedTxs T} {it : S.Iteration}
  {conf config : TransactionPoolConfig} {entered : List LoadCall} {ws : List (TxWrapper T)}

def created (S : PersistedTxs T) (conf : TransactionPoolConfig) : Pool T :=
  { empty T conf.Check with store := S.store }

theorem created_load (S : PersistedTxs T) (conf : TransactionPoolConfig) (it : S.Iteration) :
    ∃ entered ws, Sublist entered it.calls ∧ Forall₂ Wraps entered ws ∧
      Loaded conf.Check ((created S conf).load it.calls) ws ∧
      (Loaded.Fits conf.Check ([] : List (TxWrapper T)) it.calls → entered = it.calls) := by
  exact (Loaded.created conf S.store).load
    (fun call hcall => (S.loadable _ _ (it.mem_values hcall)).wrappable)
    (fun call hcall => (S.loadable _ _ (it.mem_values hcall)).nonce_ne)
    it.slots_nodup

theorem NewTransactionPool_eq (hcfg : conf.IsLoadCfg = false) (htxs : conf.IsLoadTxs = true) :
    NewTransactionPool T conf S.store it.calls =
      if ((created S conf).load it.calls).txsCollect.pendingTxChan.length ≤ pendingTxChanCap then
        .returned ((created S conf).load it.calls)
      else .blocks := by
  rw [NewTransactionPool, hcfg, htxs]
  exact loadAllTxs_eq (fun call hcall => (S.loadable _ _ (it.mem_values hcall)).wrappable)
    (Nat.zero_le _)

theorem map_orginTx_of_wraps (hwraps : Forall₂ Wraps entered ws) :
    ws.map TxWrapper.orginTx = entered.map (fun call => call.sTx.tx) := by
  induction hwraps with
  | nil => rfl
  | cons hhead _ ih => rw [map_cons, map_cons, ih, hhead.orginTx.1]

theorem exists_wraps {α β : Type*} {r : α → β → Prop} {l : List α} {l' : List β} {a : α}
    (h : Forall₂ r l l') (ha : a ∈ l) : ∃ b ∈ l', r a b := by
  induction h with
  | nil => cases ha
  | cons hhead _ ih =>
    rcases mem_cons.mp ha with rfl | ha
    · exact ⟨_, mem_cons_self, hhead⟩
    · obtain ⟨b, hb, hr⟩ := ih ha
      exact ⟨b, mem_cons_of_mem _ hb, hr⟩

def KeepsHeight (call : LoadCall) : Prop :=
  call.sTx.Height = 0 → call.curHeight = some 0

theorem heightOf_eq_iff {call : LoadCall} :
    heightOf call.sTx.Height call.curHeight = some call.sTx.Height ↔ KeepsHeight call := by
  unfold heightOf KeepsHeight
  split_ifs with hzero
  · simp [hzero]
  · simp [hzero]

theorem Loaded.holds_iff (hp : Loaded config p ws) (hsub : Sublist entered it.calls)
    (hwraps : Forall₂ Wraps entered ws) :
    Holds S p ↔ entered = it.calls ∧ ∀ call ∈ it.calls, KeepsHeight call := by
  constructor
  · intro hholds
    -- the pool holds every stored transaction, so each call has gone through
    have hheld : ∀ call ∈ it.calls, call ∈ entered ∧ KeepsHeight call := by
      intro call hcall
      have hfull := hholds.full (call.sTx.tx.TxID T)
      rw [it.mem_values hcall] at hfull
      obtain ⟨w, hlookup, hview⟩ := Option.map_eq_some_iff.mp hfull
      obtain ⟨hw, _⟩ := (hp.held _ _).mp hlookup
      obtain ⟨call', hcall', (hwraps' : call'.Wraps w)⟩ := exists_wraps hwraps.flip hw
      obtain ⟨horigin, hheight⟩ := hwraps'.orginTx
      have hsame : call' = call := by
        refine it.call_inj (hsub.subset hcall') hcall ?_
        rw [← horigin, ← hview]
      subst hsame
      refine ⟨hcall', heightOf_eq_iff.mp ?_⟩
      rw [hheight, ← hview]
    refine ⟨?_, fun call hcall => (hheld call hcall).2⟩
    have hnodup : it.calls.Nodup := it.slots_nodup.of_map
    have hsubset : it.calls ⊆ entered := fun call hcall => (hheld call hcall).1
    exact hsub.eq_of_length_le (subperm_of_subset hnodup hsubset).length_le
  · rintro ⟨rfl, hheights⟩
    have hview : ∀ call ∈ it.calls, ∀ w : TxWrapper T, call.Wraps w →
        (⟨w.height, w.orginTx⟩ : StoredTx) = call.sTx := by
      intro call hcall w hwraps'
      obtain ⟨horigin, hheight⟩ := hwraps'.orginTx
      rw [heightOf_eq_iff.mpr (hheights call hcall)] at hheight
      rw [horigin, ← Option.some.inj hheight]
    refine ⟨fun txID => Option.ext (fun sTx => ?_), ?_⟩
    · rw [Option.map_eq_some_iff]
      constructor
      · rintro ⟨w, hlookup, rfl⟩
        obtain ⟨hw, rfl⟩ := (hp.held _ _).mp hlookup
        obtain ⟨call, hcall, (hwraps' : call.Wraps w)⟩ := exists_wraps hwraps.flip hw
        rw [hview call hcall w hwraps', TxWrapper.TxID, hwraps'.orginTx.1]
        exact it.mem_values hcall
      · intro hlookup
        obtain ⟨call, hcall, rfl⟩ := it.exists_call hlookup
        obtain ⟨w, hw, hwraps'⟩ := exists_wraps hwraps hcall
        refine ⟨w, (hp.held _ _).mpr ⟨hw, ?_⟩, hview call hcall w hwraps'⟩
        rw [TxWrapper.TxID, hwraps'.orginTx.1]
        exact (S.loadable _ _ hlookup).keyed
    · intro txID w hlookup
      obtain ⟨hw, _⟩ := (hp.held _ _).mp hlookup
      exact (hp.filling w.FromAddr).kept w (mem_filter.mpr ⟨hw, by simp⟩)

open Transaction

/-- No configuration is loaded, the transactions are, the channel and the limits have room, and no
height is lost. -/
structure Restorable (S : PersistedTxs T) (conf : TransactionPoolConfig) (it : S.Iteration) :
    Prop where
  noConfig : conf.IsLoadCfg = false
  loads : conf.IsLoadTxs = true ∨ S.txs = []
  channel : (sendable S.txs).length ≤ pendingTxChanCap
  count : (S.txs.length : Int) ≤ conf.Check.TxPoolMaxCnt
  size : ((S.txs.map Size).sum : Int) ≤ conf.Check.TxPoolMaxSize
  heights : ∀ call ∈ it.calls, KeepsHeight call

theorem Loaded.chan_of_all (hp : Loaded config p ws)
    (hwraps : Forall₂ Wraps it.calls ws) :
    p.txsCollect.pendingTxChan.length = (sendable S.txs).length := by
  have horigin := map_orginTx_of_wraps hwraps
  have hslots : (ws.map (fun w => slot w.orginTx)).Nodup := by
    have hmap : ws.map (fun w => slot w.orginTx) = it.calls.map (fun call => slot call.sTx.tx) := by
      have := congrArg (map slot) horigin
      rwa [map_map, map_map] at this
    rw [hmap]
    exact it.slots_nodup
  rw [hp.length_pendingTxChan hslots, horigin]
  exact (sendable_perm it.perm_txs).length_eq

theorem Loaded.counters_of_all (hp : Loaded config p ws)
    (hwraps : Forall₂ Wraps it.calls ws) :
    p.txCount = S.txs.length ∧ p.txSizeBytes = (S.txs.map Size).sum := by
  have horigin := map_orginTx_of_wraps hwraps
  have hperm : (ws.map TxWrapper.orginTx).Perm S.txs := by
    rw [horigin]
    exact it.perm_txs
  refine ⟨?_, ?_⟩
  · rw [hp.count, ← hperm.length_eq, length_map]
  · rw [hp.size, ← (hperm.map Size).sum_eq, map_map]
    rfl

theorem Loaded.Fits.of_txs (hcount : (S.txs.length : Int) ≤ config.TxPoolMaxCnt)
    (hsize : ((S.txs.map Size).sum : Int) ≤ config.TxPoolMaxSize)
    (hheights : ∀ call ∈ it.calls, (heightOf call.sTx.Height call.curHeight).isSome) :
    Loaded.Fits config ([] : List (TxWrapper T)) it.calls := by
  have hlength := it.perm_txs.length_eq
  have hsum := (it.perm_txs.map Size).sum_eq
  rw [length_map] at hlength
  rw [map_map] at hsum
  refine ⟨?_, ?_, hheights⟩
  · rw [length_nil, hlength]
    omega
  · rw [map_nil, sum_nil, Nat.zero_add]
    change (((it.calls.map (Size ∘ fun call => call.sTx.tx)).sum : Nat) : Int) ≤ _
    rw [hsum]
    exact hsize

theorem Restorable.fits (hS : Restorable S conf it) :
    Loaded.Fits conf.Check ([] : List (TxWrapper T)) it.calls := by
  refine .of_txs hS.count hS.size (fun call hcall => ?_)
  rw [heightOf_eq_iff.mpr (hS.heights call hcall)]
  rfl

open PersistedTxs

theorem holds_created_iff : Holds S (created S conf) ↔ S.txs = [] := by
  have hnil : S.txs = [] ↔ S.store.entries = [] := by
    rw [txs, values, map_eq_nil_iff, map_eq_nil_iff]
  rw [hnil]
  constructor
  · intro hholds
    refine eq_nil_iff_forall_not_mem.mpr ?_
    rintro ⟨txID, sTx⟩ hmem
    have hfull := hholds.full txID
    rw [AList.mem_lookup_iff.mpr hmem] at hfull
    cases hfull
  · intro hempty
    have hstore : S.store = ∅ := AList.ext hempty
    refine ⟨fun txID => ?_, fun txID w hlookup => ?_⟩
    · rw [hstore]
      rfl
    · cases hlookup

/-- A restarted pool is returned and holds just its store, however iterated, exactly when no
configuration is loaded, the transactions are loaded if there are any, at most a hundred can be
sent, they are within the limits, and no stored height is zero unless the chain is still there. -/
theorem restart_iff (S : PersistedTxs T) (conf : TransactionPoolConfig) (it : S.Iteration) :
    Restores S (NewTransactionPool T conf S.store it.calls) ↔ Restorable S conf it := by
  cases hcfg : conf.IsLoadCfg with
  | true =>
    constructor
    · rintro ⟨p, hcreated, _⟩
      simp [NewTransactionPool, hcfg] at hcreated
    · intro hS
      rw [hS.noConfig] at hcfg
      cases hcfg
  | false =>
    cases htxs : conf.IsLoadTxs with
    | false =>
      have hcreated : NewTransactionPool T conf S.store it.calls = .returned (created S conf) := by
        simp [NewTransactionPool, hcfg, htxs, created]
      rw [hcreated, restores_returned_iff, holds_created_iff]
      constructor
      · intro hnil
        have hcalls : it.calls = [] := by
          have := it.perm_txs
          rwa [hnil, perm_nil, map_eq_nil_iff] at this
        have hroom := (Loaded.created (T := T) conf S.store).room
        refine ⟨hcfg, .inr hnil, ?_, ?_, ?_, ?_⟩
        · rw [hnil]
          exact Nat.zero_le _
        · rw [hnil]
          exact hroom.1
        · rw [hnil]
          exact hroom.2
        · simp [hcalls]
      · intro hS
        exact hS.loads.resolve_left (by simp [htxs])
    | true =>
      obtain ⟨entered, ws, hsub, hwraps, hloaded, hall⟩ := created_load S conf it
      rw [NewTransactionPool_eq hcfg htxs]
      constructor
      · rintro ⟨p, hcreated, hholds⟩
        split_ifs at hcreated with hchan
        cases hcreated
        obtain ⟨rfl, hheights⟩ :=
          (hloaded.holds_iff hsub hwraps).mp (hholds [] _ (by simp) rfl)
        obtain ⟨hcount, hsize⟩ := hloaded.counters_of_all hwraps
        have hroom := hloaded.room
        rw [hloaded.chan_of_all hwraps] at hchan
        rw [hcount, hsize] at hroom
        exact ⟨hcfg, .inl htxs, hchan, hroom.1, hroom.2, hheights⟩
      · intro hS
        obtain rfl := hall hS.fits
        rw [if_pos, restores_returned_iff]
        · exact (hloaded.holds_iff hsub hwraps).mpr ⟨rfl, hS.heights⟩
        · rw [hloaded.chan_of_all hwraps]
          exact hS.channel

theorem NewTransactionPool_blocks (hcfg : conf.IsLoadCfg = false) (htxs : conf.IsLoadTxs = true)
    (hfits : Loaded.Fits conf.Check ([] : List (TxWrapper T)) it.calls)
    (hmany : pendingTxChanCap < (sendable S.txs).length) :
    NewTransactionPool T conf S.store it.calls = .blocks := by
  obtain ⟨entered, ws, _, hwraps, hloaded, hall⟩ := created_load S conf it
  obtain rfl := hall hfits
  rw [NewTransactionPool_eq hcfg htxs, if_neg]
  rw [hloaded.chan_of_all hwraps]
  exact Nat.not_le_of_lt hmany

def firstTx (i : Fin 101) : StoredTx := ⟨5, plainTx (UInt8.ofNat i) 1 1⟩

theorem slot_firstTx_injective : Function.Injective (fun i => slot (firstTx i).tx) := by
  intro i j hij
  have haddr : [UInt8.ofNat i] = [UInt8.ofNat j] := congrArg Prod.fst hij
  have hval := congrArg UInt8.toNat (head_eq_of_cons_eq haddr)
  rw [UInt8.toNat_ofNat', UInt8.toNat_ofNat'] at hval
  omega

theorem forall_mem_firstTx {P : StoredTx → Prop} (hfirst : ∀ i, P (firstTx i)) :
    ∀ sTx ∈ (finRange 101).map firstTx, P sTx := by
  intro sTx hmem
  obtain ⟨i, _, rfl⟩ := mem_map.mp hmem
  exact hfirst i

def burst : PersistedTxs plainCodec :=
  .ofList ((finRange 101).map firstTx)
    (forall_mem_firstTx (fun _ _ _ => ⟨_, rfl⟩))
    (forall_mem_firstTx (fun _ => Nat.one_ne_zero))
    (by
      rw [map_map]
      exact (nodup_finRange 101).map slot_firstTx_injective)

theorem values_burst : burst.values = (finRange 101).map firstTx :=
  values_ofList _ _ _ _

theorem size_firstTx : ∀ i, (firstTx i).tx.Size = 31 := by
  decide +kernel

theorem size_burst : (burst.txs.map Size).sum = 101 * 31 := by
  have hsizes : burst.txs.map Size = replicate 101 31 := by
    rw [txs, values_burst, map_map, map_map]
    refine eq_replicate_iff.mpr ⟨by simp, fun n hn => ?_⟩
    obtain ⟨i, _, rfl⟩ := mem_map.mp hn
    exact size_firstTx i
  rw [hsizes]
  rfl

def genesis : PersistedTxs plainCodec :=
  .ofList [⟨0, plainTx 1 1 1⟩]
    (forall_mem_singleton.mpr (fun _ _ => ⟨_, rfl⟩))
    (forall_mem_singleton.mpr Nat.one_ne_zero)
    (nodup_singleton _)

/-- With a hundred and one first transactions `NewTransactionPool` does not return; the height zero
becomes seven. -/
theorem restart_fails_on_large_store :
    burst.txs.length = 101 ∧
    (∀ it : burst.Iteration, NewTransactionPool plainCodec DefaultTransactionPoolConfig
      burst.store it.calls = .blocks) ∧
    ¬ Restores genesis (NewTransactionPool plainCodec DefaultTransactionPoolConfig genesis.store
      [⟨⟨0, plainTx 1 1 1⟩, some 7, 0⟩]) := by
  have hlength : burst.txs.length = 101 := by
    rw [txs, values_burst]
    simp
  refine ⟨hlength, fun it => ?_, ?_⟩
  · refine NewTransactionPool_blocks rfl rfl (.of_txs ?_ ?_ ?_) ?_
    · decide
    · rw [size_burst]
      decide
    · intro call hcall
      have hmem : call.sTx ∈ burst.values :=
        it.perm.mem_iff.mp (mem_map.mpr ⟨call, hcall, rfl⟩)
      rw [values_burst] at hmem
      obtain ⟨i, _, heq⟩ := mem_map.mp hmem
      rw [← heq]
      rfl
    · decide
  · rintro ⟨p, hcreated, hholds⟩
    have hfull := (hholds [] p (by simp) rfl).full ((plainTx 1 1 1).TxID plainCodec)
    cases hcreated
    revert hfull
    decide

end Pool
end Restart

end Topia.TransactionPool
