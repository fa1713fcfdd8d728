import Topia.TransactionPool.Collect

/-!
# The pool and its accounting

`transactionPool` of `transaction_pool/tx_pool.go` with its store: the limits, the counters and the
calls `AddTx`, `UpdateTx` and `RemoveTxByKey`. The counters change when `AddTx` succeeds and when
`RemoveTx` finds the transaction in the sorted list; `fullTxs` changes before the account has
accepted a transaction and whenever one is removed.
-/

namespace Topia.TransactionPool

open Lib Transaction AccountTxManager

structure TransactionPoolConfig where
  (IsLoadTxs IsLoadCfg : Bool)
  (TxPoolMaxSize TxPoolMaxCnt BlockMaxBytes BlockMaxGas : Int)
deriving DecidableEq, Repr

def DefaultTransactionPoolConfig : TransactionPoolConfig where
  IsLoadTxs := true
  IsLoadCfg := false
  TxPoolMaxSize := 20 * 1024 * 1024
  TxPoolMaxCnt := 40 * 1024
  BlockMaxBytes := 22020096
  BlockMaxGas := -1

structure StoredTx where
  Height : Nat
  tx : Transaction
deriving DecidableEq, Repr

inductive PoolError where
  | txPoolFull
  | txNotExist
  | currentHeight
  | unmarshal
  | add (e : AddError)
deriving DecidableEq, Repr

structure Pool (T : TxCodec) where
  config : TransactionPoolConfig
  txsCollect : CollectTxs T
  (txCount txSizeBytes : Int)
  store : AList (fun _ : TxID => StoredTx)

inductive PoolEvent where
  | addTx (tx : Transaction) (isLocal : Bool) (curHeight : Option Nat) (now : Int)
  | updateTx (tx : Transaction) (oldTxID : TxID) (curHeight curHeight' : Option Nat)
      (now now' : Int)
  | removeTxByKey (txID : TxID)
  | receive (addr : Address)
  | insertReceived

open CollectTxs TxWrapper

namespace Pool

variable {T : TxCodec}

def empty (T : TxCodec) (config : TransactionPoolConfig) : Pool T :=
  ⟨config, NewCollectTxs T, 0, 0, ∅⟩

variable (p : Pool T) (wTx : TxWrapper T) (tx : Transaction) (height : Nat)

def HasRoom : Prop :=
  p.txCount + 1 ≤ p.config.TxPoolMaxCnt ∧ p.txSizeBytes + tx.Size ≤ p.config.TxPoolMaxSize

instance : Decidable (p.HasRoom tx) :=
  inferInstanceAs (Decidable (_ ∧ _))

def collectTx : Except PoolError (TxWrapper T) × Pool T :=
  match p.txsCollect.AddTx wTx with
  | (.ok (), c) =>
    (.ok wTx, { p with
      txsCollect := c
      txCount := p.txCount + 1
      txSizeBytes := p.txSizeBytes + wTx.Size })
  | (.error e, c) => (.error (.add e), { p with txsCollect := c })

def heightOf (curHeight : Option Nat) : Option Nat :=
  if height = 0 then curHeight else some height

def addTx (curHeight : Option Nat) (now : Int) : Option (Except PoolError (TxWrapper T) × Pool T) :=
  if p.HasRoom tx then
    match heightOf height curHeight with
    | none => some (.error .currentHeight, p)
    | some h =>
      match GenerateTxWrapper T tx h now with
      | .error .unmarshal => some (.error .unmarshal, p)
      | .error .panics => none
      | .ok wTx => some (p.collectTx wTx)
  else some (.error .txPoolFull, p)

def saveTxIntoStore : Pool T :=
  { p with store := p.store.insert wTx.TxID ⟨wTx.height, wTx.orginTx⟩ }

def removeTxFromStore (txID : TxID) : Pool T :=
  { p with store := p.store.erase txID }

def AddTx (isLocal : Bool) (curHeight : Option Nat) (now : Int) : Option (Pool T) :=
  (p.addTx tx 0 curHeight now).map (fun result =>
    match result with
    | (.ok wTx, p') => if isLocal then p'.saveTxIntoStore wTx else p'
    | (.error _, p') => p')

/-- The new one is added; the old one stays, but in the store. -/
def UpdateTx (oldTxID : TxID) (curHeight curHeight' : Option Nat) (now now' : Int) : Option
    (Except PoolError Unit × Pool T) :=
  match p.txsCollect.GetTx oldTxID, curHeight with
  | none, _ => some (.error .txNotExist, p)
  | some _, none => some (.error .currentHeight, p)
  | some wTxOld, some h =>
    match GenerateTxWrapper T tx h now with
    | .error .unmarshal => some (.error .unmarshal, p)
    | .error .panics => none
    | .ok wTx =>
      if wTxOld.CanReplace wTx then
        (p.addTx tx 0 curHeight' now').map (fun result =>
          match result with
          | (.ok _, p') => (.ok (), (p'.removeTxFromStore oldTxID).saveTxIntoStore wTx)
          | (.error e, p') => (.error e, p'))
      else some (.ok (), p)

def RemoveTxByKey (txID : TxID) : Pool T :=
  match p.txsCollect.RemoveTx txID with
  | (none, c) => { p with txsCollect := c }
  | (some wTx, c) =>
    { p with
      txsCollect := c
      txCount := p.txCount - 1
      txSizeBytes := p.txSizeBytes - wTx.Size
      store := p.store.erase txID }

def step : PoolEvent → Option (Pool T)
  | .addTx tx isLocal curHeight now => p.AddTx tx isLocal curHeight now
  | .updateTx tx oldTxID curHeight curHeight' now now' =>
    (p.UpdateTx tx oldTxID curHeight curHeight' now now').map Prod.snd
  | .removeTxByKey txID => some (p.RemoveTxByKey txID)
  | .receive addr => (p.txsCollect.receive addr).map (fun c => { p with txsCollect := c })
  | .insertReceived => p.txsCollect.insertReceived.map (fun c => { p with txsCollect := c })

end Pool

section Accounting

variable {T : TxCodec}

def CollectTxs.heldSize (c : CollectTxs T) : Nat :=
  (c.fullTxs.entries.map (fun e => e.2.Size)).sum

namespace Pool

variable {p p' : Pool T} {tx : Transaction} {height : Nat} {curHeight : Option Nat} {now : Int}
  {wTx : TxWrapper T} {txID : TxID}

structure Accounted (p : Pool T) : Prop where
  count : p.txCount = p.txsCollect.fullTxs.entries.length
  size : p.txSizeBytes = p.txsCollect.heldSize

def Enters (p : Pool T) (tx : Transaction) (height : Nat) (curHeight : Option Nat) (now : Int)
    (wTx : TxWrapper T) : Prop :=
  p.HasRoom tx ∧ (∃ h, heightOf height curHeight = some h ∧
    GenerateTxWrapper T tx h now = .ok wTx) ∧
  p.txsCollect.fullTxs.lookup wTx.TxID = none

def Accepts (p : Pool T) (wTx : TxWrapper T) : Prop :=
  ∃ result, (p.txsCollect.account wTx.FromAddr).AddTx wTx = .ok result

def Balanced (p : Pool T) : PoolEvent → Prop
  | .addTx tx _ curHeight now => ∀ wTx, p.Enters tx 0 curHeight now wTx → p.Accepts wTx
  | .updateTx tx oldTxID curHeight curHeight' now now' =>
    ∀ wTxOld wTxNew, p.txsCollect.GetTx oldTxID = some wTxOld →
      (∃ h, curHeight = some h ∧ GenerateTxWrapper T tx h now = .ok wTxNew) →
      wTxOld.CanReplace wTxNew = true →
      ∀ wTx, p.Enters tx 0 curHeight' now' wTx → p.Accepts wTx
  | .removeTxByKey txID =>
    (p.txsCollect.sortedTxs.getTx txID).isSome ↔ (p.txsCollect.fullTxs.lookup txID).isSome
  | _ => True

def Keyed (p : Pool T) : Prop :=
  ∀ txID w, p.txsCollect.fullTxs.lookup txID = some w → w.TxID = txID

theorem collect_AddTx_of_new (hnew : p.txsCollect.fullTxs.lookup wTx.TxID = none) :
    (p.txsCollect.AddTx wTx).2.fullTxs = p.txsCollect.fullTxs.insert wTx.TxID wTx ∧
    ((∃ u, (p.txsCollect.AddTx wTx).1 = .ok u) ↔ p.Accepts wTx) := by
  have hregister : p.txsCollect.register wTx =
      .ok { p.txsCollect with fullTxs := p.txsCollect.fullTxs.insert wTx.TxID wTx } := by
    simp [CollectTxs.register, hnew]
  have hadd : p.txsCollect.AddTx wTx =
      CollectTxs.accountAddTx
        { p.txsCollect with fullTxs := p.txsCollect.fullTxs.insert wTx.TxID wTx } wTx := by
    simp [CollectTxs.AddTx, hregister]
  refine ⟨?_, ?_⟩
  · rw [hadd, fullTxs_accountAddTx]
  have haccount : ({ p.txsCollect with
      fullTxs := p.txsCollect.fullTxs.insert wTx.TxID wTx } : CollectTxs T).account
        wTx.FromAddr = p.txsCollect.account wTx.FromAddr := rfl
  rw [hadd]
  unfold CollectTxs.accountAddTx Accepts
  rw [haccount]
  cases hresult : (p.txsCollect.account wTx.FromAddr).AddTx wTx with
  | ok result => exact ⟨fun _ => ⟨result, rfl⟩, fun _ => ⟨(), rfl⟩⟩
  | error e =>
    constructor
    · rintro ⟨u, hu⟩
      cases hu
    · rintro ⟨result, hresult'⟩
      cases hresult'

variable {result : Except PoolError (TxWrapper T)}

open Option

theorem addTx_collect (hadd : p.addTx tx height curHeight now = some (result, p')) :
    (p' = p ∧ (∃ err, result = .error err) ∧
      ∀ h wTx, p.HasRoom tx → heightOf height curHeight = some h →
        GenerateTxWrapper T tx h now ≠ .ok wTx) ∨
    ∃ h wTx, heightOf height curHeight = some h ∧
      GenerateTxWrapper T tx h now = .ok wTx ∧ p.HasRoom tx ∧
      (result, p') = p.collectTx wTx := by
  unfold addTx at hadd
  split_ifs at hadd with hroom
  · split at hadd
    · next hheight =>
        cases hadd
        refine .inl ⟨rfl, ⟨_, rfl⟩, fun h wTx _ hh _ => ?_⟩
        rw [hheight] at hh
        cases hh
    · next h hheight =>
        split at hadd
        · next hgenerate =>
            cases hadd
            refine .inl ⟨rfl, ⟨_, rfl⟩, fun h' wTx _ hh hok => ?_⟩
            rw [hheight] at hh
            cases hh
            rw [hgenerate] at hok
            cases hok
        · cases hadd
        · next wTx hgenerate =>
            exact .inr ⟨h, wTx, hheight, hgenerate, hroom, (some.inj hadd).symm⟩
  · cases hadd
    exact .inl ⟨rfl, ⟨_, rfl⟩, fun _ _ hroom' => absurd hroom' hroom⟩

theorem addTx_cases (hadd : p.addTx tx height curHeight now = some (result, p')) :
    (p' = p ∧ (∃ e, result = .error e) ∧ ∀ wTx, ¬ p.Enters tx height curHeight now wTx) ∨
    ∃ wTx, p.Enters tx height curHeight now wTx ∧
      p'.txsCollect.fullTxs = p.txsCollect.fullTxs.insert wTx.TxID wTx ∧
      ((p.Accepts wTx ∧ result = .ok wTx ∧ p'.txCount = p.txCount + 1 ∧
          p'.txSizeBytes = p.txSizeBytes + wTx.Size) ∨
        (¬ p.Accepts wTx ∧ (∃ e, result = .error e) ∧ p'.txCount = p.txCount ∧
          p'.txSizeBytes = p.txSizeBytes)) := by
  rcases addTx_collect hadd with
    ⟨rfl, herror, hnone⟩ | ⟨h, wTx, hheight, hgenerate, hroom, hcollect⟩
  · refine .inl ⟨rfl, herror, ?_⟩
    rintro wTx ⟨hroom, ⟨h, hheight, hok⟩, _⟩
    exact hnone h wTx hroom hheight hok
  cases hlookup : p.txsCollect.fullTxs.lookup wTx.TxID with
  | some w =>
    have hexisted : p.txsCollect.AddTx wTx = (.error (.existedTx wTx.TxID), p.txsCollect) := by
      simp [CollectTxs.AddTx, CollectTxs.register, hlookup]
    rw [collectTx, hexisted] at hcollect
    cases hcollect
    refine .inl ⟨rfl, ⟨_, rfl⟩, ?_⟩
    rintro wTx' ⟨_, ⟨h', hh, hok⟩, hnew⟩
    rw [hheight] at hh
    cases hh
    rw [hgenerate] at hok
    cases hok
    rw [hlookup] at hnew
    cases hnew
  | none =>
    obtain ⟨hfull, haccepts⟩ := collect_AddTx_of_new hlookup
    refine .inr ⟨wTx, ⟨hroom, ⟨h, hheight, hgenerate⟩, hlookup⟩, ?_⟩
    unfold collectTx at hcollect
    cases hresult : p.txsCollect.AddTx wTx with
    | mk r c =>
      rw [hresult] at hcollect hfull haccepts
      cases r with
      | ok u =>
        cases hcollect
        exact ⟨hfull, .inl ⟨haccepts.mp ⟨u, rfl⟩, rfl, rfl, rfl⟩⟩
      | error e =>
        cases hcollect
        refine ⟨hfull, .inr ⟨?_, ⟨_, rfl⟩, rfl, rfl⟩⟩
        intro hok
        obtain ⟨_, h⟩ := haccepts.mpr hok
        cases h

variable {curHeight' : Option Nat} {oldTxID : TxID} {now' : Int}

theorem UpdateTx_cases {result : Except PoolError Unit}
    (hupdate : p.UpdateTx tx oldTxID curHeight curHeight' now now' = some (result, p')) :
    (p' = p ∧ ∀ wTxOld wTxNew, p.txsCollect.GetTx oldTxID = some wTxOld →
      (∃ h, curHeight = some h ∧ GenerateTxWrapper T tx h now = .ok wTxNew) →
      ¬ wTxOld.CanReplace wTxNew = true) ∨
    ∃ wTxOld wTx added q, p.txsCollect.GetTx oldTxID = some wTxOld ∧
      (∃ h, curHeight = some h ∧ GenerateTxWrapper T tx h now = .ok wTx) ∧
      wTxOld.CanReplace wTx = true ∧ p.addTx tx 0 curHeight' now' = some (added, q) ∧
      ((∃ err, added = .error err) ∧ p' = q ∨
        (∃ wTx', added = .ok wTx') ∧ p' = (q.removeTxFromStore oldTxID).saveTxIntoStore wTx) := by
  unfold UpdateTx at hupdate
  split at hupdate
  · next hold =>
      cases hupdate
      refine .inl ⟨rfl, fun wTxOld _ hold' => ?_⟩
      rw [hold] at hold'
      cases hold'
  · cases hupdate
    refine .inl ⟨rfl, ?_⟩
    rintro _ _ _ ⟨h, hh, _⟩
    cases hh
  · next wTxOld h hold =>
      split at hupdate
      · next hgenerate =>
          cases hupdate
          refine .inl ⟨rfl, ?_⟩
          rintro _ wTxNew _ ⟨h', hh, hok⟩
          cases hh
          rw [hgenerate] at hok
          cases hok
      · cases hupdate
      · next wTx hgenerate =>
          split_ifs at hupdate with hreplace
          · obtain ⟨⟨added, q⟩, hadd, hresult⟩ := map_eq_some_iff.mp hupdate
            refine .inr ⟨wTxOld, wTx, added, q, hold, ⟨h, rfl, hgenerate⟩, hreplace, hadd, ?_⟩
            cases added with
            | error err =>
              cases hresult
              exact .inl ⟨⟨_, rfl⟩, rfl⟩
            | ok wTx' =>
              cases hresult
              exact .inr ⟨⟨_, rfl⟩, rfl⟩
          · cases hupdate
            refine .inl ⟨rfl, ?_⟩
            rintro wTxOld' wTxNew hold' ⟨h', hh, hok⟩
            cases hh
            rw [hold] at hold'
            cases hold'
            rw [hgenerate] at hok
            cases hok
            exact hreplace

variable {c c' : CollectTxs T}

open AList

theorem heldSize_insert (hnew : c.fullTxs.lookup wTx.TxID = none)
    (hfull : c'.fullTxs = c.fullTxs.insert wTx.TxID wTx) :
    c'.fullTxs.entries.length = c.fullTxs.entries.length + 1 ∧
    c'.heldSize = wTx.Size + c.heldSize := by
  have hmem : wTx.TxID ∉ c.fullTxs := lookup_eq_none.mp hnew
  rw [heldSize, heldSize, hfull, entries_insert_of_notMem hmem]
  simp

theorem heldSize_erase {w : TxWrapper T}
    (hheld : c.fullTxs.lookup txID = some w) (hfull : c'.fullTxs = c.fullTxs.erase txID) :
    c.fullTxs.entries.length = c'.fullTxs.entries.length + 1 ∧
    c.heldSize = w.Size + c'.heldSize := by
  have hmem : txID ∈ c.fullTxs := by
    rw [← lookup_isSome, hheld]
    rfl
  obtain ⟨b, l₁, l₂, _, hsplit, hrest⟩ := List.exists_of_kerase (mem_keys.mp hmem)
  have hb : b = w := by
    have hin : (⟨txID, b⟩ : Sigma (fun _ : TxID => TxWrapper T)) ∈ c.fullTxs.entries := by
      rw [hsplit]
      simp
    have hlookup := mem_lookup_iff.mpr hin
    rw [hheld] at hlookup
    exact (some.inj hlookup).symm
  have hentries : c'.fullTxs.entries = l₁ ++ l₂ := by
    rw [hfull]
    exact hrest
  rw [heldSize, heldSize, hentries, hsplit, hb]
  simp only [List.length_append, List.length_cons, List.map_append, List.map_cons,
    List.sum_append, List.sum_cons]
  omega

theorem addTx_accounted_iff (hp : p.Accounted)
    (hadd : p.addTx tx height curHeight now = some (result, p')) :
    p'.Accounted ↔ ∀ wTx, p.Enters tx height curHeight now wTx → p.Accepts wTx := by
  rcases addTx_cases hadd with ⟨rfl, _, hnone⟩ | ⟨wTx, henters, hfull, hcase⟩
  · exact ⟨fun _ wTx hwTx => absurd hwTx (hnone wTx), fun _ => hp⟩
  obtain ⟨hlength, hsize⟩ := heldSize_insert henters.2.2 hfull
  have hunique : ∀ wTx', p.Enters tx height curHeight now wTx' → wTx' = wTx := by
    rintro wTx' ⟨_, ⟨h, hh, hok⟩, _⟩
    obtain ⟨_, ⟨h', hh', hok'⟩, _⟩ := henters
    rw [hh] at hh'
    cases hh'
    rw [hok] at hok'
    cases hok'
    rfl
  have hcount := hp.count
  have hbytes := hp.size
  rcases hcase with ⟨haccepts, _, hcount', hsize'⟩ | ⟨hrejects, _, hcount', _⟩
  · constructor
    · intro _ wTx' hwTx'
      rw [hunique wTx' hwTx']
      exact haccepts
    · intro _
      exact ⟨by omega, by omega⟩
  · constructor
    · intro hp'
      have := hp'.count
      omega
    · intro hall
      exact absurd (hall wTx henters) hrejects

theorem accounted_congr (hcollect : p'.txsCollect.fullTxs = p.txsCollect.fullTxs)
    (hcount : p'.txCount = p.txCount) (hsize : p'.txSizeBytes = p.txSizeBytes) :
    p'.Accounted ↔ p.Accounted := by
  have hheld : p'.txsCollect.heldSize = p.txsCollect.heldSize := by
    rw [heldSize, heldSize, hcollect]
  constructor
  · rintro ⟨h, h'⟩
    exact ⟨by rw [← hcount, ← hcollect, h], by rw [← hsize, ← hheld, h']⟩
  · rintro ⟨h, h'⟩
    exact ⟨by rw [hcount, hcollect, h], by rw [hsize, hheld, h']⟩

theorem AddTx_accounted_iff {isLocal : Bool} (hp : p.Accounted)
    (hadd : p.AddTx tx isLocal curHeight now = some p') :
    p'.Accounted ↔ p.Balanced (.addTx tx isLocal curHeight now) := by
  obtain ⟨⟨result, q⟩, hresult, rfl⟩ := map_eq_some_iff.mp hadd
  change _ ↔ ∀ wTx, p.Enters tx 0 curHeight now wTx → p.Accepts wTx
  rw [← addTx_accounted_iff hp hresult]
  cases result with
  | error e => rfl
  | ok wTx =>
    refine accounted_congr ?_ ?_ ?_ <;>
      · split_ifs <;> rfl

theorem UpdateTx_accounted_iff {result : Except PoolError Unit} (hp : p.Accounted)
    (hupdate : p.UpdateTx tx oldTxID curHeight curHeight' now now' = some (result, p')) :
    p'.Accounted ↔ p.Balanced (.updateTx tx oldTxID curHeight curHeight' now now') := by
  rcases UpdateTx_cases hupdate with
    ⟨rfl, hnone⟩ | ⟨wTxOld, wTx, added, q, hold, hwraps, hreplace, hadd, hq⟩
  · refine ⟨fun _ wTxOld wTxNew hold hnew hreplace => ?_, fun _ => hp⟩
    exact absurd hreplace (hnone wTxOld wTxNew hold hnew)
  have hbalanced : p.Balanced (.updateTx tx oldTxID curHeight curHeight' now now') ↔
      ∀ wTx, p.Enters tx 0 curHeight' now' wTx → p.Accepts wTx := by
    constructor
    · intro hall
      exact hall wTxOld wTx hold hwraps hreplace
    · intro hall _ _ _ _ _
      exact hall
  rw [hbalanced, ← addTx_accounted_iff hp hadd]
  rcases hq with ⟨_, rfl⟩ | ⟨_, rfl⟩
  · rfl
  · exact accounted_congr rfl rfl rfl

theorem RemoveTxByKey_accounted_iff (hkeyed : p.Keyed) (hp : p.Accounted) (txID : TxID) :
    (p.RemoveTxByKey txID).Accounted ↔ p.Balanced (.removeTxByKey txID) := by
  obtain ⟨hfound, hfull, _⟩ := RemoveTx_lists p.txsCollect txID
  have hcount := hp.count
  have hbytes := hp.size
  change _ ↔ ((p.txsCollect.sortedTxs.getTx txID).isSome ↔
    (p.txsCollect.fullTxs.lookup txID).isSome)
  unfold RemoveTxByKey
  cases hremove : p.txsCollect.RemoveTx txID with
  | mk r c =>
    rw [hremove] at hfound hfull
    replace hfull : c.fullTxs = p.txsCollect.fullTxs.erase txID := hfull
    cases hheld : p.txsCollect.fullTxs.lookup txID with
    | none =>
      -- nothing leaves `fullTxs`
      have hsame : c.fullTxs = p.txsCollect.fullTxs := by
        refine hfull.trans (ext ?_)
        exact List.kerase_of_notMem_keys (lookup_eq_none.mp hheld)
      cases r with
      | none =>
        rw [← hfound]
        have hiff : ({ p with txsCollect := c } : Pool T).Accounted ↔ p.Accounted :=
          accounted_congr hsame rfl rfl
        simp only [isSome_none, iff_self, iff_true]
        exact hiff.mpr hp
      | some w =>
        rw [← hfound]
        simp only [isSome_some, isSome_none, Bool.false_eq_true, iff_false, not_true_eq_false]
        rintro ⟨hcount', _⟩
        simp only [hsame] at hcount'
        omega
    | some w =>
      obtain ⟨hlength, hsize⟩ := heldSize_erase hheld hfull
      cases r with
      | none =>
        rw [← hfound]
        simp only [isSome_none, isSome_some, Bool.false_eq_true, iff_true, iff_false]
        rintro ⟨hcount', _⟩
        simp only at hcount'
        omega
      | some w' =>
        have hid : w'.TxID = w.TxID :=
          (SortedTxList.TxID_of_getTx hfound.symm).trans (hkeyed txID w hheld).symm
        have hsame : w'.Size = w.Size :=
          congrArg Transaction.Size (orginTx_eq_of_TxID_eq hid)
        rw [← hfound]
        simp only [isSome_some, iff_true]
        exact ⟨by simp only; omega, by simp only; omega⟩

theorem keyed_insert (hkeyed : p.Keyed)
    (hfull : p'.txsCollect.fullTxs = p.txsCollect.fullTxs.insert wTx.TxID wTx) : p'.Keyed := by
  intro txID w hw
  rw [hfull] at hw
  by_cases hid : txID = wTx.TxID
  · rw [hid, lookup_insert] at hw
    cases hw
    exact hid.symm
  · rw [lookup_insert_ne hid] at hw
    exact hkeyed txID w hw

theorem addTx_keyed (hkeyed : p.Keyed)
    (hadd : p.addTx tx height curHeight now = some (result, p')) : p'.Keyed := by
  rcases addTx_cases hadd with ⟨rfl, _⟩ | ⟨wTx, _, hfull, _⟩
  · exact hkeyed
  · exact keyed_insert hkeyed hfull

theorem keyed_congr (hkeyed : p.Keyed) (hfull : p'.txsCollect.fullTxs = p.txsCollect.fullTxs) :
    p'.Keyed := by
  intro txID w hw
  rw [hfull] at hw
  exact hkeyed txID w hw

theorem fullTxs_RemoveTxByKey :
    (p.RemoveTxByKey txID).txsCollect.fullTxs = p.txsCollect.fullTxs.erase txID := by
  obtain ⟨_, hfull, _⟩ := RemoveTx_lists p.txsCollect txID
  unfold RemoveTxByKey
  split <;> next hremove => exact (congrArg (fun r => r.2.fullTxs) hremove).symm.trans hfull

theorem receiver_frame
    (hstep : (∃ addr, p.txsCollect.receive addr = some c) ∨ p.txsCollect.insertReceived = some c) :
    c.fullTxs = p.txsCollect.fullTxs := by
  rcases hstep with ⟨addr, hreceive⟩ | hinsert
  · obtain ⟨_, _, _, _, _, _, _, rfl⟩ := receive_cases hreceive
    rfl
  · obtain ⟨_, _, rfl⟩ := insertReceived_cases hinsert
    rfl

theorem UpdateTx_keyed {result : Except PoolError Unit} (hkeyed : p.Keyed)
    (hupdate : p.UpdateTx tx oldTxID curHeight curHeight' now now' = some (result, p')) :
    p'.Keyed := by
  rcases UpdateTx_cases hupdate with ⟨rfl, _⟩ | ⟨_, _, added, q, _, _, _, hadd, hq⟩
  · exact hkeyed
  · have hkept := addTx_keyed hkeyed hadd
    rcases hq with ⟨_, rfl⟩ | ⟨_, rfl⟩
    · exact hkept
    · exact hkept

theorem lookup_of_lookup_erase {α β : Type} [DecidableEq α] {m : AList (fun _ : α => β)} {k k' : α}
    {v : β} (h : (m.erase k).lookup k' = some v) : m.lookup k' = some v := by
  by_cases hk : k' = k
  · rw [hk, lookup_erase] at h
    cases h
  · rwa [lookup_erase_ne hk] at h

variable {e : PoolEvent}

theorem step_keyed (hkeyed : p.Keyed) (hstep : p.step e = some p') : p'.Keyed := by
  cases e with
  | addTx tx isLocal curHeight now =>
    obtain ⟨⟨result, q⟩, hadd, rfl⟩ := map_eq_some_iff.mp hstep
    refine keyed_congr (addTx_keyed hkeyed hadd) ?_
    cases result with
    | error e => rfl
    | ok wTx =>
      split_ifs <;> rfl
  | updateTx tx oldTxID curHeight curHeight' now now' =>
    obtain ⟨⟨result, q⟩, hupdate, rfl⟩ := map_eq_some_iff.mp hstep
    exact UpdateTx_keyed hkeyed hupdate
  | removeTxByKey txID =>
    cases hstep
    intro txID' w hw
    rw [fullTxs_RemoveTxByKey] at hw
    exact hkeyed txID' w (lookup_of_lookup_erase hw)
  | receive addr =>
    obtain ⟨c, hreceive, rfl⟩ := map_eq_some_iff.mp hstep
    exact keyed_congr hkeyed (receiver_frame (.inl ⟨addr, hreceive⟩))
  | insertReceived =>
    obtain ⟨c, hinsert, rfl⟩ := map_eq_some_iff.mp hstep
    exact keyed_congr hkeyed (receiver_frame (.inr hinsert))

theorem step_accounted_iff (hkeyed : p.Keyed) (hp : p.Accounted)
    (hstep : p.step e = some p') : p'.Accounted ↔ p.Balanced e := by
  cases e with
  | addTx tx isLocal curHeight now => exact AddTx_accounted_iff hp hstep
  | updateTx tx oldTxID curHeight curHeight' now now' =>
    obtain ⟨⟨result, q⟩, hupdate, rfl⟩ := map_eq_some_iff.mp hstep
    exact UpdateTx_accounted_iff hp hupdate
  | removeTxByKey txID =>
    cases hstep
    exact RemoveTxByKey_accounted_iff hkeyed hp txID
  | receive addr =>
    obtain ⟨c, hreceive, rfl⟩ := map_eq_some_iff.mp hstep
    have hiff : ({ p with txsCollect := c } : Pool T).Accounted ↔ p.Accounted :=
      accounted_congr (receiver_frame (.inl ⟨addr, hreceive⟩)) rfl rfl
    exact ⟨fun _ => trivial, fun _ => hiff.mpr hp⟩
  | insertReceived =>
    obtain ⟨c, hinsert, rfl⟩ := map_eq_some_iff.mp hstep
    have hiff : ({ p with txsCollect := c } : Pool T).Accounted ↔ p.Accounted :=
      accounted_congr (receiver_frame (.inr hinsert)) rfl rfl
    exact ⟨fun _ => trivial, fun _ => hiff.mpr hp⟩

theorem addTx_ne_none_of_enters (henters : p.Enters tx height curHeight now wTx) :
    p.addTx tx height curHeight now ≠ none := by
  obtain ⟨hroom, ⟨h, hheight, hgenerate⟩, _⟩ := henters
  simp [addTx, hroom, hheight, hgenerate]

theorem balanced_of_disabled (hstep : p.step e = none) : p.Balanced e := by
  cases e with
  | addTx tx isLocal curHeight now =>
    intro wTx henters
    exact absurd (map_eq_none_iff.mp hstep) (addTx_ne_none_of_enters henters)
  | updateTx tx oldTxID curHeight curHeight' now now' =>
    rintro wTxOld wTxNew hold ⟨h, rfl, hgenerate⟩ hreplace wTx henters
    have hupdate := map_eq_none_iff.mp hstep
    simp only [UpdateTx, hold, hgenerate, hreplace, if_true] at hupdate
    exact absurd (map_eq_none_iff.mp hupdate) (addTx_ne_none_of_enters henters)
  | removeTxByKey txID => cases hstep
  | _ => exact trivial

/-- **When the counters are right**: all along a run exactly when every step is balanced. -/
theorem accounting_iff (T : TxCodec) (config : TransactionPoolConfig) (events : List PoolEvent) :
    Throughout step Accounted (empty T config) events ↔
      Along step Balanced (empty T config) events := by
  have hkeyed : (empty T config).Keyed := by
    intro txID w hw
    simp [empty, NewCollectTxs] at hw
  have hinv : ∀ (p : Pool T) (e : PoolEvent) (p' : Pool T),
      p.Keyed → p.step e = some p' → p'.Keyed :=
    fun _ _ _ => step_keyed
  exact throughout_iff_along hinv
    (fun _ _ _ => step_accounted_iff)
    (fun _ _ _ _ => balanced_of_disabled) hkeyed ⟨rfl, rfl⟩

def removeWaiting : List PoolEvent :=
  [.addTx (plainTx 1 5 1) true (some 100) 0, .removeTxByKey ((plainTx 1 5 1).TxID plainCodec)]

def addNonceZero : List PoolEvent :=
  [.addTx (plainTx 1 0 1) true (some 100) 0]

/-- After a removal the pool counts too much; after a rejection too little. -/
theorem accounting_fails_on_gap_and_rejection :
    (∃ p, removeWaiting.foldlM step (empty plainCodec DefaultTransactionPoolConfig) = some p ∧
      p.txCount = 1 ∧ p.txsCollect.fullTxs.entries.length = 0) ∧
    (∃ p, addNonceZero.foldlM step (empty plainCodec DefaultTransactionPoolConfig) = some p ∧
      p.txCount = 0 ∧ p.txsCollect.fullTxs.entries.length = 1) ∧
    ¬ Throughout step Accounted (empty plainCodec DefaultTransactionPoolConfig) removeWaiting ∧
    ¬ Throughout step Accounted (empty plainCodec DefaultTransactionPoolConfig) addNonceZero := by
  have hremove : ∃ p, removeWaiting.foldlM step (empty plainCodec DefaultTransactionPoolConfig) =
      some p ∧ p.txCount = 1 ∧ p.txsCollect.fullTxs.entries.length = 0 := ⟨_, rfl, rfl, rfl⟩
  have hadd : ∃ p, addNonceZero.foldlM step (empty plainCodec DefaultTransactionPoolConfig) =
      some p ∧ p.txCount = 0 ∧ p.txsCollect.fullTxs.entries.length = 1 := ⟨_, rfl, rfl, rfl⟩
  refine ⟨hremove, hadd, ?_, ?_⟩
  · intro hall
    obtain ⟨p, hrun, hcount, hlength⟩ := hremove
    have hright := (hall removeWaiting p List.prefix_rfl hrun).count
    omega
  · intro hall
    obtain ⟨p, hrun, hcount, hlength⟩ := hadd
    have hright := (hall addNonceZero p List.prefix_rfl hrun).count
    omega

end Pool

end Accounting

end Topia.TransactionPool
