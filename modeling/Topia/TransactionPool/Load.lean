import Topia.TransactionPool.Persisted

/-!
# The load of the stored transactions

`NewTransactionPool` of `transaction_pool/tx_pool.go` and `loadAllTxs` of
`transaction_pool/servant.go`. The stored transactions go through `addTx` before the receiver of the
channel is started, so the load stops for good when the channel is full.
-/

namespace Topia.TransactionPool

open Lib Transaction AccountTxManager

def TransactionPoolConfig.Check (conf : TransactionPoolConfig) : TransactionPoolConfig :=
  { conf with
    TxPoolMaxSize := max conf.TxPoolMaxSize DefaultTransactionPoolConfig.TxPoolMaxSize
    TxPoolMaxCnt := max conf.TxPoolMaxCnt DefaultTransactionPoolConfig.TxPoolMaxCnt }

structure LoadCall where
  sTx : StoredTx
  curHeight : Option Nat
  now : Int
deriving DecidableEq, Repr

/-- `NewTransactionPool` panics, waits for ever, or returns a pool. -/
inductive Created (T : TxCodec) where
  | panics
  | blocks
  | returned (p : Pool T)

namespace Pool

variable {T : TxCodec}

/-- Errors are dropped, and a send to the full channel never ends. -/
def loadAllTxs (p : Pool T) : List LoadCall → Created T
  | [] => .returned p
  | call :: calls =>
    match p.addTx call.sTx.tx call.sTx.Height call.curHeight call.now with
    | none => .panics
    | some (_, p') =>
      if pendingTxChanCap < p'.txsCollect.pendingTxChan.length then .blocks
      else p'.loadAllTxs calls

/-- `NewTransactionPool`. `loadPoolConfig` fails, as a configuration is no protobuf message, and
leaves a nil pointer that is read. -/
def NewTransactionPool (T : TxCodec) (conf : TransactionPoolConfig)
    (store : AList (fun _ : TxID => StoredTx)) (calls : List LoadCall) : Created T :=
  if conf.IsLoadCfg then .panics
  else if conf.IsLoadTxs then
    loadAllTxs { empty T conf.Check with store := store } calls
  else .returned { empty T conf.Check with store := store }

end Pool

section Loading

variable (txs : List Transaction) (tx : Transaction)

def Ready : Prop :=
  ∀ j < tx.Head.Nonce, 0 < j → (tx.Head.FromAddr, j) ∈ txs.map slot

instance : Decidable (Ready txs tx) :=
  inferInstanceAs (Decidable (∀ j < tx.Head.Nonce, 0 < j → _))

def sendable : List Transaction :=
  txs.filter (fun tx => decide (Ready txs tx))

theorem sendable_perm {txs txs' : List Transaction} (hperm : txs.Perm txs') :
    (sendable txs).Perm (sendable txs') := by
  have hready : ∀ tx, Ready txs tx ↔ Ready txs' tx := by
    intro tx
    unfold Ready
    simp [(hperm.map slot).mem_iff]
  unfold sendable
  simp only [hready]
  exact hperm.filter _

variable {T : TxCodec}

open TxWrapper

def LoadCall.Wraps (call : LoadCall) (wTx : TxWrapper T) : Prop :=
  ∃ h, Pool.heightOf call.sTx.Height call.curHeight = some h ∧
    GenerateTxWrapper T call.sTx.tx h call.now = .ok wTx

theorem LoadCall.Wraps.orginTx {call : LoadCall} {wTx : TxWrapper T} (hwraps : call.Wraps wTx) :
    wTx.orginTx = call.sTx.tx ∧
    Pool.heightOf call.sTx.Height call.curHeight = some wTx.height := by
  obtain ⟨h, hheight, hgenerate⟩ := hwraps
  obtain ⟨horigin, rfl⟩ := GenerateTxWrapper_orginTx hgenerate
  exact ⟨horigin, hheight⟩

namespace Pool

variable {p p' : Pool T} {call : LoadCall} {calls : List LoadCall} {ws : List (TxWrapper T)}
  {wTx : TxWrapper T} {config : TransactionPoolConfig}

def loadOne (p : Pool T) (call : LoadCall) : Pool T :=
  match p.addTx call.sTx.tx call.sTx.Height call.curHeight call.now with
  | none => p
  | some result => result.2

def load (p : Pool T) (calls : List LoadCall) : Pool T :=
  calls.foldl loadOne p

theorem loadOne_of_wrappable (hwrap : Wrappable T call.sTx.tx) :
    ∃ result, p.addTx call.sTx.tx call.sTx.Height call.curHeight call.now =
      some (result, p.loadOne call) := by
  have hsome : p.addTx call.sTx.tx call.sTx.Height call.curHeight call.now ≠ none := by
    unfold addTx
    split_ifs
    · split
      · simp
      · next h _ =>
          obtain ⟨wTx, hgenerate⟩ := hwrap h call.now
          simp [hgenerate]
    · simp
  obtain ⟨⟨result, p'⟩, hadd⟩ := Option.ne_none_iff_exists'.mp hsome
  refine ⟨result, ?_⟩
  simp [loadOne, hadd]

open List

theorem chan_loadOne (p : Pool T) (call : LoadCall) :
    p.txsCollect.pendingTxChan.length ≤ (p.loadOne call).txsCollect.pendingTxChan.length := by
  unfold loadOne
  cases hadd : p.addTx call.sTx.tx call.sTx.Height call.curHeight call.now with
  | none => exact Nat.le_refl _
  | some result =>
    obtain ⟨result, p'⟩ := result
    rcases addTx_collect hadd with ⟨rfl, _⟩ | ⟨_, wTx, _, _, _, hcollect⟩
    · exact Nat.le_refl _
    · have hp' : p' = (p.collectTx wTx).2 := congrArg Prod.snd hcollect
      rcases p.collectTx_cases wTx with ⟨_, _, _, hchan⟩ | ⟨a, sent, hfree, hok⟩
      · rw [hp', hchan]
      · rw [hp', collectTx_of_accepts hfree hok, length_append]
        exact Nat.le_add_right _ _

theorem chan_load (p : Pool T) (calls : List LoadCall) :
    p.txsCollect.pendingTxChan.length ≤ (p.load calls).txsCollect.pendingTxChan.length := by
  induction calls generalizing p with
  | nil => exact Nat.le_refl _
  | cons call calls ih => exact (chan_loadOne p call).trans (ih (p.loadOne call))

theorem loadAllTxs_eq (hwrap : ∀ call ∈ calls, Wrappable T call.sTx.tx)
    (hchan : p.txsCollect.pendingTxChan.length ≤ pendingTxChanCap) :
    p.loadAllTxs calls =
      if (p.load calls).txsCollect.pendingTxChan.length ≤ pendingTxChanCap then
        .returned (p.load calls)
      else .blocks := by
  induction calls generalizing p with
  | nil => exact (if_pos hchan).symm
  | cons call calls ih =>
    obtain ⟨result, hadd⟩ := loadOne_of_wrappable (p := p) (hwrap call mem_cons_self)
    have hgrows := chan_load (p.loadOne call) calls
    have hload : p.load (call :: calls) = (p.loadOne call).load calls := rfl
    rw [loadAllTxs, hadd, hload]
    simp only
    split_ifs with hfull hfits hfits
    · omega
    · rfl
    · rw [ih (fun c hc => hwrap c (mem_cons_of_mem _ hc)) (by omega), if_pos hfits]
    · rw [ih (fun c hc => hwrap c (mem_cons_of_mem _ hc)) (by omega), if_neg hfits]

theorem coherent_collectTx (hp : Coherent p.txsCollect) (wTx : TxWrapper T) :
    Coherent (p.collectTx wTx).2.txsCollect := by
  have hcollect : (p.collectTx wTx).2.txsCollect = (p.txsCollect.AddTx wTx).2 := by
    unfold collectTx
    split <;> next heq => rw [heq]
  rw [hcollect]
  unfold CollectTxs.AddTx
  cases hregister : p.txsCollect.register wTx with
  | error err => exact hp
  | ok c => exact (hp.register hregister).accountAddTx wTx

structure Loaded (config : TransactionPoolConfig) (p : Pool T) (ws : List (TxWrapper T)) :
    Prop where
  config_eq : p.config = config
  held : ∀ txID w, p.txsCollect.fullTxs.lookup txID = some w ↔ w ∈ ws ∧ w.TxID = txID
  filling : ∀ addr, Filling (newAccountTxManager T) (p.txsCollect.account addr) 0 (2 ^ 64 - 1)
    (ws.filter (fun w => decide (w.FromAddr = addr)))
  coherent : Coherent p.txsCollect
  unlisted : p.txsCollect.sortedTxs.txList = []
  idle : p.txsCollect.receiving = none
  count : p.txCount = ws.length
  size : p.txSizeBytes = (ws.map TxWrapper.Size).sum
  room : p.txCount ≤ config.TxPoolMaxCnt ∧ p.txSizeBytes ≤ config.TxPoolMaxSize

namespace Loaded

theorem created (conf : TransactionPoolConfig) (store : AList (fun _ : TxID => StoredTx)) :
    Loaded conf.Check { empty T conf.Check with store := store } [] := by
  refine ⟨rfl, ?_, ?_, Coherent.NewCollectTxs, rfl, rfl, rfl, rfl, ?_⟩
  · simp [empty, CollectTxs.NewCollectTxs]
  · intro addr
    refine Filling.start rfl (fun j _ _ => ?_)
    exact ⟨rfl, rfl⟩
  · have hcount : (0 : Int) ≤ conf.Check.TxPoolMaxCnt :=
      Int.le_trans (by decide) (Int.le_max_right _ _)
    have hsize : (0 : Int) ≤ conf.Check.TxPoolMaxSize :=
      Int.le_trans (by decide) (Int.le_max_right _ _)
    exact ⟨hcount, hsize⟩

theorem accepts (hp : Loaded config p ws) (hzero : wTx.Nonce ≠ 0)
    (hslot : slot wTx.orginTx ∉ ws.map (fun w => slot w.orginTx)) :
    p.txsCollect.fullTxs.lookup wTx.TxID = none ∧
    wTx.Nonce ∉ (ws.filter (fun w => decide (w.FromAddr = wTx.FromAddr))).map Nonce ∧
    ∃ a sent, (p.txsCollect.account wTx.FromAddr).AddTx wTx = .ok (a, sent) := by
  have hfree : p.txsCollect.fullTxs.lookup wTx.TxID = none := by
    cases hlookup : p.txsCollect.fullTxs.lookup wTx.TxID with
    | none => rfl
    | some w =>
      obtain ⟨hw, hid⟩ := (hp.held _ _).mp hlookup
      refine absurd (mem_map.mpr ⟨w, hw, ?_⟩) hslot
      rw [orginTx_eq_of_TxID_eq hid]
  have hnonce : wTx.Nonce ∉
      (ws.filter (fun w => decide (w.FromAddr = wTx.FromAddr))).map Nonce := by
    intro hmem
    obtain ⟨w, hw, heq⟩ := mem_map.mp hmem
    obtain ⟨hw, haddr⟩ := mem_filter.mp hw
    exact hslot (mem_map.mpr ⟨w, hw, Prod.ext (of_decide_eq_true haddr) heq⟩)
  have hlt := wTx.Nonce_lt
  obtain ⟨hpending, hgap, hbeyond⟩ :=
    (hp.filling wTx.FromAddr).free (Nat.pos_of_ne_zero hzero) (by omega) hnonce
  have hnext := nextNonce_of_lt hbeyond hlt
  exact ⟨hfree, hnonce, AddTx_accepts hpending hgap (by omega)⟩

theorem collectTx (hp : Loaded config p ws) (hroom : p.HasRoom wTx.orginTx)
    (hzero : wTx.Nonce ≠ 0) (hslot : slot wTx.orginTx ∉ ws.map (fun w => slot w.orginTx)) :
    Loaded config (p.collectTx wTx).2 (ws ++ [wTx]) := by
  obtain ⟨hfree, hnonce, a, sent, hadd⟩ := hp.accepts hzero hslot
  have hcoherent := coherent_collectTx hp.coherent wTx
  have hcount := hp.count
  have hsize := hp.size
  rw [collectTx_of_accepts hfree hadd] at hcoherent ⊢
  refine ⟨hp.config_eq, ?_, ?_, hcoherent, hp.unlisted, hp.idle, ?_, ?_, ?_⟩
  · intro txID w
    simp only [mem_append, mem_singleton]
    by_cases hid : txID = wTx.TxID
    · rw [hid, AList.lookup_insert]
      constructor
      · intro h
        cases h
        exact ⟨.inr rfl, rfl⟩
      · rintro ⟨hw | rfl, hid'⟩
        · rw [(hp.held _ _).mpr ⟨hw, hid'⟩] at hfree
          cases hfree
        · rfl
    · rw [AList.lookup_insert_ne hid, hp.held]
      refine and_congr_left (fun hid' => ⟨.inl, fun h => h.resolve_right ?_⟩)
      rintro rfl
      exact hid hid'.symm
  · intro addr
    change Filling _ ((p.txsCollect.setAccount wTx.FromAddr a).account addr) _ _ _
    rw [CollectTxs.account_setAccount, filter_append]
    split_ifs with haddr
    · subst haddr
      have hone : (p.txsCollect.account wTx.FromAddr).addOne wTx = a := by simp [addOne, hadd]
      have hlt := wTx.Nonce_lt
      have hfilling := (hp.filling wTx.FromAddr).addOne (hp.coherent.valid _) rfl
        (Nat.pos_of_ne_zero hzero) (by omega) hnonce
      rw [hone] at hfilling
      simpa using hfilling
    · have hother : ¬ wTx.FromAddr = addr := fun h => haddr h.symm
      simpa [hother] using hp.filling addr
  · simp [hcount]
  · simp [hsize]
  · have hconfig := hp.config_eq
    unfold HasRoom at hroom
    rw [hconfig] at hroom
    exact hroom

theorem loadOne (hp : Loaded config p ws) (hwrap : Wrappable T call.sTx.tx)
    (hzero : call.sTx.tx.Head.Nonce ≠ 0)
    (hslot : slot call.sTx.tx ∉ ws.map (fun w => slot w.orginTx)) :
    (∃ wTx : TxWrapper T, call.Wraps wTx ∧ Loaded config (p.loadOne call) (ws ++ [wTx])) ∨
    (p.loadOne call = p ∧
      ¬ (p.HasRoom call.sTx.tx ∧ (heightOf call.sTx.Height call.curHeight).isSome)) := by
  unfold Pool.loadOne addTx
  split_ifs with hroom
  · cases hheight : heightOf call.sTx.Height call.curHeight with
    | none => exact .inr ⟨rfl, by simp⟩
    | some h =>
      obtain ⟨wTx, hgenerate⟩ := hwrap h call.now
      obtain ⟨horigin, _⟩ := GenerateTxWrapper_orginTx hgenerate
      refine .inl ⟨wTx, ⟨h, hheight, hgenerate⟩, ?_⟩
      simp only [hgenerate]
      refine hp.collectTx ?_ ?_ ?_
      · rw [horigin]
        exact hroom
      · rw [Nonce, horigin]
        exact hzero
      · rw [horigin]
        exact hslot
  · exact .inr ⟨rfl, fun h => hroom h.1⟩

def Fits (config : TransactionPoolConfig) (ws : List (TxWrapper T)) (calls : List LoadCall) :
    Prop :=
  (ws.length + calls.length : Int) ≤ config.TxPoolMaxCnt ∧
  (((ws.map TxWrapper.Size).sum + (calls.map (fun call => call.sTx.tx.Size)).sum : Nat) : Int) ≤
    config.TxPoolMaxSize ∧
  ∀ call ∈ calls, (heightOf call.sTx.Height call.curHeight).isSome

theorem Fits.hasRoom (hp : Loaded config p ws) (hfits : Fits config ws (call :: calls)) :
    p.HasRoom call.sTx.tx ∧ (heightOf call.sTx.Height call.curHeight).isSome := by
  obtain ⟨hcount, hsize, hheight⟩ := hfits
  have hcount' := hp.count
  have hsize' := hp.size
  have hconfig := hp.config_eq
  rw [length_cons] at hcount
  rw [map_cons, sum_cons] at hsize
  refine ⟨⟨?_, ?_⟩, hheight call mem_cons_self⟩
  · rw [hconfig]
    omega
  · rw [hconfig]
    omega

theorem Fits.next (hwraps : call.Wraps wTx) (hfits : Fits config ws (call :: calls)) :
    Fits config (ws ++ [wTx]) calls := by
  obtain ⟨hcount, hsize, hheight⟩ := hfits
  have hsame : wTx.Size = call.sTx.tx.Size := by rw [TxWrapper.Size, hwraps.orginTx.1]
  rw [length_cons] at hcount
  rw [map_cons, sum_cons] at hsize
  refine ⟨?_, ?_, fun c hc => hheight c (mem_cons_of_mem _ hc)⟩
  · rw [length_append, length_singleton]
    omega
  · rw [map_append, sum_append, map_singleton, sum_singleton]
    omega

theorem load (hp : Loaded config p ws) (hwrap : ∀ call ∈ calls, Wrappable T call.sTx.tx)
    (hzero : ∀ call ∈ calls, call.sTx.tx.Head.Nonce ≠ 0)
    (hslots : (ws.map (fun w => slot w.orginTx) ++
      calls.map (fun call => slot call.sTx.tx)).Nodup) :
    ∃ entered ws', Sublist entered calls ∧ Forall₂ LoadCall.Wraps entered ws' ∧
      Loaded config (p.load calls) (ws ++ ws') ∧ (Fits config ws calls → entered = calls) := by
  induction calls generalizing p ws with
  | nil =>
    refine ⟨[], [], Sublist.refl _, .nil, ?_, fun _ => rfl⟩
    rw [append_nil]
    exact hp
  | cons call calls ih =>
    have hwrap' := fun c hc => hwrap c (mem_cons_of_mem _ hc)
    have hzero' := fun c hc => hzero c (mem_cons_of_mem _ hc)
    have hslot : slot call.sTx.tx ∉ ws.map (fun w => slot w.orginTx) := by
      intro hmem
      exact (nodup_append.mp hslots).2.2 _ hmem _ mem_cons_self rfl
    rcases hp.loadOne (hwrap call mem_cons_self) (hzero call mem_cons_self) hslot with
      ⟨wTx, hwraps, hnext⟩ | ⟨hsame, hnone⟩
    · have hslots' : ((ws ++ [wTx]).map (fun w => slot w.orginTx) ++
          calls.map (fun call => slot call.sTx.tx)).Nodup := by
        rw [map_append, map_singleton, hwraps.orginTx.1, append_assoc]
        exact hslots
      obtain ⟨entered, ws', hsub, hforall, hloaded, hall⟩ := ih hnext hwrap' hzero' hslots'
      refine ⟨call :: entered, wTx :: ws', hsub.cons_cons call, .cons hwraps hforall, ?_, ?_⟩
      · rw [append_cons]
        exact hloaded
      · intro hfits
        rw [hall (hfits.next hwraps)]
    · have hslots' : (ws.map (fun w => slot w.orginTx) ++
          calls.map (fun call => slot call.sTx.tx)).Nodup :=
        hslots.sublist ((sublist_cons_self _ _).append_left _)
      obtain ⟨entered, ws', hsub, hforall, hloaded, _⟩ := ih hp hwrap' hzero' hslots'
      refine ⟨entered, ws', hsub.cons call, hforall, ?_, ?_⟩
      · change Loaded config ((p.loadOne call).load calls) _
        rw [hsame]
        exact hloaded
      · intro hfits
        exact absurd (hfits.hasRoom hp) hnone

section Channel

variable {w : TxWrapper T}

variable (hp : Loaded config p ws)
include hp

theorem mem_of_pending
    (hpending : (p.txsCollect.account w.FromAddr).pendingTxs.lookup w.Nonce = some w)
    (hzero : w.Nonce ≠ 0) : w ∈ ws := by
  have hlt := w.Nonce_lt
  have hknown := (hp.filling w.FromAddr).known w.Nonce (Nat.pos_of_ne_zero hzero) (by omega)
    (.inl (by simp [hpending]))
  obtain ⟨w', hw', hnonce⟩ := mem_map.mp hknown
  have hkept := (hp.filling w.FromAddr).kept w' hw'
  rw [hnonce] at hkept
  rcases hkept with hpending' | hgap
  · rw [hpending] at hpending'
    cases hpending'
    exact (mem_filter.mp hw').1
  · rw [(hp.coherent.valid w.FromAddr).apart _ _ hgap] at hpending
    cases hpending

theorem pending_iff_ready (hw : w ∈ ws) :
    (p.txsCollect.account w.FromAddr).pendingTxs.lookup w.Nonce = some w ↔
      Ready (ws.map orginTx) w.orginTx := by
  have hfilling := hp.filling w.FromAddr
  have hvalid := hp.coherent.valid w.FromAddr
  have hmem : w ∈ ws.filter (fun w' => decide (w'.FromAddr = w.FromAddr)) :=
    mem_filter.mpr ⟨hw, by simp⟩
  have hlt := w.Nonce_lt
  have hpos := (hfilling.window w hmem).1
  have hloaded : ∀ j, (w.FromAddr, j) ∈ (ws.map orginTx).map slot ↔
      j ∈ (ws.filter (fun w' => decide (w'.FromAddr = w.FromAddr))).map Nonce := by
    intro j
    simp only [map_map, mem_map, mem_filter, decide_eq_true_eq]
    constructor
    · rintro ⟨w', hw', hslot⟩
      exact ⟨w', ⟨hw', congrArg Prod.fst hslot⟩, congrArg Prod.snd hslot⟩
    · rintro ⟨w', ⟨hw', haddr⟩, hnonce⟩
      exact ⟨w', hw', Prod.ext haddr hnonce⟩
  constructor
  · intro hpending j hj hj'
    have hj : j < w.Nonce := hj
    have hle : w.Nonce ≤ (p.txsCollect.account w.FromAddr).maxContNonce := by
      by_contra hbeyond
      rw [hfilling.ahead w.Nonce (by omega) (by omega)] at hpending
      cases hpending
    refine (hloaded j).mpr (hfilling.known j hj' (by omega) (.inl ?_))
    exact hfilling.filled j hj' (by omega)
  · intro hready
    rcases hfilling.kept w hmem with hpending | hgap
    · exact hpending
    -- the nonce after the largest pending one was not loaded
    exfalso
    have hbeyond : (p.txsCollect.account w.FromAddr).maxContNonce < w.Nonce := by
      by_contra hle
      exact hfilling.filled _ hpos (Nat.le_of_not_lt hle) (hvalid.apart _ _ hgap)
    have hnext := nextNonce_of_lt hbeyond hlt
    have hlater := hvalid.above _ _ hgap
    have hmem' := (hloaded (p.txsCollect.account w.FromAddr).nextNonce).mp
      (hready _ hlater (by omega))
    obtain ⟨w', hw', hnonce⟩ := mem_map.mp hmem'
    rcases hfilling.kept w' hw' with hpending' | hgap'
    · rw [hnonce, hfilling.ahead _ (by omega) (by omega)] at hpending'
      cases hpending'
    · have hlater' := hvalid.above _ _ hgap'
      omega

theorem length_pendingTxChan (hslots : (ws.map (fun w => slot w.orginTx)).Nodup) :
    p.txsCollect.pendingTxChan.length = (sendable (ws.map orginTx)).length := by
  have hlive : p.txsCollect.live = p.txsCollect.pendingTxChan := by
    simp [CollectTxs.live, hp.unlisted, hp.idle]
  have hnodup : p.txsCollect.pendingTxChan.Nodup := by
    rw [← hlive]
    exact (hp.coherent.tied []).nodup
  have hmem : ∀ w, w ∈ p.txsCollect.pendingTxChan ↔
      w ∈ ws.filter (fun w => decide (Ready (ws.map orginTx) w.orginTx)) := by
    intro w
    rw [← hlive, (hp.coherent.tied w.FromAddr).mem_iff w rfl, mem_filter, decide_eq_true_eq]
    constructor
    · intro hpending
      have hzero : w.Nonce ≠ 0 := by
        intro hzero
        rw [hzero, (hp.filling w.FromAddr).below 0 (Nat.le_refl 0)] at hpending
        simp [newAccountTxManager] at hpending
      have hw := hp.mem_of_pending hpending hzero
      exact ⟨hw, (hp.pending_iff_ready hw).mp hpending⟩
    · rintro ⟨hw, hready⟩
      exact (hp.pending_iff_ready hw).mpr hready
  have hperm := (perm_ext_iff_of_nodup hnodup (hslots.of_map.filter _)).mpr hmem
  rw [hperm.length_eq, sendable, filter_map, length_map]
  rfl

end Channel

end Loaded

end Pool
end Loading

end Topia.TransactionPool
