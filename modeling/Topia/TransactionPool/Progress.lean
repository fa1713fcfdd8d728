import Topia.TransactionPool.Collect

/-!
# The nonces of the ledger and the nonces of the pool

The manager of an account counts its contiguous nonces from zero and from the transactions it has
seen; the nonce of the account in the ledger is never read. A batch with the nonces after the
ledger's becomes pending only when the two counters agree.
-/

namespace Topia.TransactionPool

open Lib Transaction AccountTxManager TxWrapper List

namespace AccountTxManager

variable {T : TxCodec}

def addOne (a : AccountTxManager T) (wTx : TxWrapper T) : AccountTxManager T :=
  match a.AddTx wTx with
  | .ok result => result.1
  | .error _ => a

def addAll (a : AccountTxManager T) (ws : List (TxWrapper T)) : AccountTxManager T :=
  ws.foldl addOne a

variable {addr : Address} {a a' a₀ : AccountTxManager T} {wTx : TxWrapper T} {n k : Nat}
  {added ws sent : List (TxWrapper T)}

theorem addOne_valid (ha : a.Valid addr) (haddr : wTx.FromAddr = addr) :
    (a.addOne wTx).Valid addr := by
  unfold addOne
  cases hadd : a.AddTx wTx with
  | error e => exact ha
  | ok result => exact AddTx_valid ha haddr hadd

theorem nextNonce_of_lt {m : Nat} (hlt : a.maxContNonce < m) (hm : m < 2 ^ 64) :
    a.nextNonce = a.maxContNonce + 1 := by
  have hcase := nextNonce_eq (a := a) (by omega)
  rw [if_neg (by omega)] at hcase
  exact hcase

section Filling

/-- An account takes the nonces `n + 1` to `n + k`: it fills up from `n`. -/
structure Filling (a₀ a : AccountTxManager T) (n k : Nat) (added : List (TxWrapper T)) : Prop where
  window : ∀ w ∈ added, n < w.Nonce ∧ w.Nonce ≤ n + k
  below : ∀ j ≤ n, a.pendingTxs.lookup j = a₀.pendingTxs.lookup j
  reached : n ≤ a.maxContNonce
  filled : ∀ j, n < j → j ≤ a.maxContNonce → a.pendingTxs.lookup j ≠ none
  ahead : ∀ j, a.maxContNonce < j → j ≤ n + k → a.pendingTxs.lookup j = none
  known : ∀ j, n < j → j ≤ n + k →
    a.pendingTxs.lookup j ≠ none ∨ a.gapTxs.lookup j ≠ none → j ∈ added.map Nonce
  kept : ∀ w ∈ added, a.pendingTxs.lookup w.Nonce = some w ∨ a.gapTxs.lookup w.Nonce = some w

theorem Filling.start (hmax : a.maxContNonce = n)
    (hfree : ∀ j, n < j → j ≤ n + k →
      a.pendingTxs.lookup j = none ∧ a.gapTxs.lookup j = none) : Filling a a n k [] := by
  refine ⟨by simp, fun _ _ => rfl, hmax.ge, ?_, ?_, ?_, by simp⟩
  · intro j hj hj'
    omega
  · intro j hj hj'
    exact (hfree j (by omega) hj').1
  · intro j hj hj' hheld
    obtain ⟨hpending, hgap⟩ := hfree j hj hj'
    simp [hpending, hgap] at hheld

section Filling

variable (ha : Filling a₀ a n k added)
include ha

theorem Filling.pend (hnext : a.nextNonce = a.maxContNonce + 1) (hnonce : wTx.Nonce = a.nextNonce)
    (hwindow : wTx.Nonce ≤ n + k) : Filling a₀ (a.pend wTx) n k (added ++ [wTx]) := by
  have hreached := ha.reached
  have hmax : (a.pend wTx).maxContNonce = a.maxContNonce + 1 := hnext
  have hfree : a.pendingTxs.lookup a.nextNonce = none := ha.ahead _ (by omega) (by omega)
  have hmem : ∀ w ∈ added ++ [wTx], w ∈ added ∨ w = wTx := by simp
  refine ⟨?_, ?_, ?_, ?_, ?_, ?_, ?_⟩
  · intro w hw
    rcases hmem w hw with hw | rfl
    · exact ha.window w hw
    · omega
  · intro j hj
    rw [lookup_pend, if_neg (by omega)]
    exact ha.below j hj
  · omega
  · intro j hj hj'
    rw [lookup_pend]
    split_ifs with heq
    · simp
    · exact ha.filled j hj (by omega)
  · intro j hj hj'
    rw [lookup_pend, if_neg (by omega)]
    exact ha.ahead j (by omega) hj'
  · intro j hj hj' hheld
    rw [map_append, mem_append]
    rw [lookup_pend] at hheld
    split_ifs at hheld with heq
    · exact .inr (by simp [heq, hnonce])
    · exact .inl (ha.known j hj hj' hheld)
  · intro w hw
    rw [lookup_pend]
    rcases hmem w hw with hw | rfl
    · split_ifs with heq
      · rcases ha.kept w hw with hpending | hgap
        · rw [heq, hfree] at hpending
          cases hpending
        · exact .inr hgap
      · exact ha.kept w hw
    · rw [if_pos hnonce]
      exact .inl rfl

theorem Filling.pendGap (hnext : a.nextNonce = a.maxContNonce + 1)
    (hgap : a.gapTxs.lookup a.nextNonce = some wTx) : Filling a₀ (a.pendGap wTx) n k added := by
  have hreached := ha.reached
  have hmax : (a.pendGap wTx).maxContNonce = a.maxContNonce + 1 := hnext
  have hlookup : ∀ j, (a.pendGap wTx).pendingTxs.lookup j =
      if j = a.nextNonce then some wTx else a.pendingTxs.lookup j := lookup_pend
  refine ⟨ha.window, ?_, ?_, ?_, ?_, ?_, ?_⟩
  · intro j hj
    rw [hlookup, if_neg (by omega)]
    exact ha.below j hj
  · omega
  · intro j hj hj'
    rw [hlookup]
    split_ifs with heq
    · simp
    · exact ha.filled j hj (by omega)
  · intro j hj hj'
    rw [hlookup, if_neg (by omega)]
    exact ha.ahead j (by omega) hj'
  · intro j hj hj' hheld
    rw [hlookup, lookup_pendGap] at hheld
    split_ifs at hheld with heq
    · refine ha.known j hj hj' (.inr ?_)
      rw [heq, hgap]
      simp
    · exact ha.known j hj hj' hheld
  · intro w hw
    rw [hlookup, lookup_pendGap]
    split_ifs with heq
    · -- what waited under the next nonce is what becomes pending
      rcases ha.kept w hw with hpending | hgap'
      · have hfree := ha.ahead a.nextNonce (by omega) (heq ▸ (ha.window w hw).2)
        rw [heq, hfree] at hpending
        cases hpending
      · rw [heq, hgap] at hgap'
        exact .inl hgap'
    · exact ha.kept w hw

theorem Filling.gapInsert (hwindow : n < wTx.Nonce)
    (hwindow' : wTx.Nonce ≤ n + k) (hfree : a.gapTxs.lookup wTx.Nonce = none) :
    Filling a₀ { a with gapTxs := a.gapTxs.insert wTx.Nonce wTx } n k (added ++ [wTx]) := by
  have hmem : ∀ w ∈ added ++ [wTx], w ∈ added ∨ w = wTx := by simp
  refine { ha with window := ?_, known := ?_, kept := ?_ }
  · intro w hw
    rcases hmem w hw with hw | rfl
    · exact ha.window w hw
    · exact ⟨hwindow, hwindow'⟩
  · intro j hj hj' hheld
    rw [map_append, mem_append]
    rw [lookup_gapInsert] at hheld
    split_ifs at hheld with heq
    · exact .inr (by simp [heq])
    · exact .inl (ha.known j hj hj' hheld)
  · intro w hw
    rw [lookup_gapInsert]
    rcases hmem w hw with hw | rfl
    · split_ifs with heq
      · rcases ha.kept w hw with hpending | hgap
        · exact .inl hpending
        · rw [heq, hfree] at hgap
          cases hgap
      · exact ha.kept w hw
    · exact .inr (by simp)

theorem Filling.free (hwindow : n < wTx.Nonce)
    (hwindow' : wTx.Nonce ≤ n + k) (hnew : wTx.Nonce ∉ added.map Nonce) :
    a.pendingTxs.lookup wTx.Nonce = none ∧ a.gapTxs.lookup wTx.Nonce = none ∧
    a.maxContNonce < wTx.Nonce := by
  have hpending : a.pendingTxs.lookup wTx.Nonce = none := by
    by_contra hheld
    exact hnew (ha.known _ hwindow hwindow' (.inl hheld))
  have hgap : a.gapTxs.lookup wTx.Nonce = none := by
    by_contra hheld
    exact hnew (ha.known _ hwindow hwindow' (.inr hheld))
  refine ⟨hpending, hgap, ?_⟩
  by_contra hle
  exact ha.filled _ hwindow (Nat.le_of_not_lt hle) hpending

end Filling

section Adding

variable (hvalid : a.Valid addr) (ha : Filling a₀ a n k added)
include hvalid ha

theorem Filling.addOne (haddr : wTx.FromAddr = addr) (hwindow : n < wTx.Nonce)
    (hwindow' : wTx.Nonce ≤ n + k) (hnew : wTx.Nonce ∉ added.map Nonce) :
    Filling a₀ (a.addOne wTx) n k (added ++ [wTx]) := by
  obtain ⟨hpending, hgap, hbeyond⟩ := ha.free hwindow hwindow' hnew
  have hnext := nextNonce_of_lt hbeyond wTx.Nonce_lt
  obtain ⟨a', sent, hadd⟩ := AddTx_accepts hpending hgap (by omega)
  have hresult : a.addOne wTx = a' := by simp [AccountTxManager.addOne, hadd]
  rw [hresult]
  refine AddTx_induction (P := fun b _ => Filling a₀ b n k (added ++ [wTx])) hvalid haddr ?_ ?_ ?_
    hadd
  · intro _ _ hnonce
    exact ha.pend hnext hnonce hwindow'
  · intro b _ wTxNew hopen hb hgap'
    exact hb.pendGap (nextNonce_of_gap hopen hgap') hgap'
  · intro _ hfree _
    exact ha.gapInsert hwindow hwindow' hfree

theorem Filling.addAll (hfrom : ∀ w ∈ ws, w.FromAddr = addr)
    (hwindow : ∀ w ∈ ws, n < w.Nonce ∧ w.Nonce ≤ n + k) (hnodup : ((added ++ ws).map Nonce).Nodup) :
    (a.addAll ws).Valid addr ∧ Filling a₀ (a.addAll ws) n k (added ++ ws) := by
  induction ws generalizing a added with
  | nil =>
    rw [append_nil]
    exact ⟨hvalid, ha⟩
  | cons w ws ih =>
    have haddr := hfrom w mem_cons_self
    obtain ⟨hlow, hhigh⟩ := hwindow w mem_cons_self
    have hnew : w.Nonce ∉ added.map Nonce := by
      rw [map_append, map_cons, nodup_append] at hnodup
      intro hmem
      exact hnodup.2.2 _ hmem _ mem_cons_self rfl
    rw [append_cons] at hnodup ⊢
    exact ih (addOne_valid hvalid haddr) (ha.addOne hvalid haddr hlow hhigh hnew)
      (fun w' hw' => hfrom w' (mem_cons_of_mem _ hw'))
      (fun w' hw' => hwindow w' (mem_cons_of_mem _ hw')) hnodup

theorem Filling.complete (hperm : (added.map Nonce).Perm (range' (n + 1) k)) :
    ∀ w ∈ added, a.pendingTxs.lookup w.Nonce = some w := by
  intro w hw
  rcases ha.kept w hw with hpending | hgap
  · exact hpending
  exfalso
  obtain ⟨hlow, hhigh⟩ := ha.window w hw
  have hbeyond : a.maxContNonce < w.Nonce := by
    by_contra hle
    exact ha.filled _ hlow (Nat.le_of_not_lt hle) (hvalid.apart _ _ hgap)
  have hnext := nextNonce_of_lt hbeyond w.Nonce_lt
  have hreached := ha.reached
  -- the transaction with the next nonce was added, and is neither pending nor waiting
  have hmem : a.nextNonce ∈ added.map Nonce := by
    rw [hperm.mem_iff, mem_range'_1]
    omega
  obtain ⟨w', hw', hnonce⟩ := mem_map.mp hmem
  rcases ha.kept w' hw' with hpending' | hgap'
  · rw [hnonce, ha.ahead a.nextNonce (by omega) (by omega)] at hpending'
    cases hpending'
  · have hlater' := hvalid.above _ _ hgap'
    omega

end Adding

end Filling

theorem addAll_keeps {P : AccountTxManager T → Prop} (hvalid : a.Valid addr)
    (hfrom : ∀ w ∈ ws, w.FromAddr = addr) (hP : P a)
    (hone : ∀ b, ∀ w ∈ ws, b.Valid addr → P b → P (b.addOne w)) : P (a.addAll ws) := by
  induction ws generalizing a with
  | nil => exact hP
  | cons w ws ih =>
    obtain ⟨haddr, hrest⟩ := forall_mem_cons.mp hfrom
    exact ih (addOne_valid hvalid haddr) hrest (hone a w mem_cons_self hvalid hP)
      (fun b w' hw' => hone b w' (mem_cons_of_mem _ hw'))

section Stuck

variable (hvalid : a.Valid addr) (hfrom : ∀ w ∈ ws, w.FromAddr = addr)
  (hwindow : ∀ w ∈ ws, n < w.Nonce)
include hvalid hfrom hwindow

theorem addAll_parks (hmax : a.maxContNonce < n) : (a.addAll ws).pendingTxs = a.pendingTxs := by
  refine (addAll_keeps (P := fun b => b.pendingTxs = a.pendingTxs ∧
    b.maxContNonce = a.maxContNonce) hvalid hfrom ⟨rfl, rfl⟩ ?_).1
  intro b w hw hb hsame
  have hlow := hwindow w hw
  have hnext := nextNonce_of_lt (a := b) (m := w.Nonce) (by omega) w.Nonce_lt
  unfold addOne
  cases hadd : b.AddTx w with
  | error e => exact hsame
  | ok result =>
    obtain ⟨b', sent⟩ := result
    obtain ⟨_, _, ⟨hnonce, _⟩ | ⟨_, rfl, _⟩⟩ := AddTx_cases hadd
    · omega
    · exact hsame

theorem addAll_passed (hmax : n < a.maxContNonce) :
    ∀ j ≤ n + 1, (a.addAll ws).pendingTxs.lookup j = a.pendingTxs.lookup j := by
  refine (addAll_keeps (P := fun b => n < b.maxContNonce ∧
    ∀ j ≤ n + 1, b.pendingTxs.lookup j = a.pendingTxs.lookup j) hvalid hfrom
    ⟨hmax, fun _ _ => rfl⟩ ?_).2
  intro b w hw hb hsame
  have hlow := hwindow w hw
  unfold addOne
  cases hadd : b.AddTx w with
  | error e => exact hsame
  | ok result =>
    refine AddTx_induction (P := fun b _ => n < b.maxContNonce ∧
      ∀ j ≤ n + 1, b.pendingTxs.lookup j = a.pendingTxs.lookup j) hb (hfrom w hw) ?_ ?_ ?_ hadd
    · intro _ _ hnonce
      have hcase := nextNonce_eq hb.max_lt
      have hnext : b.nextNonce = b.maxContNonce + 1 := by
        split_ifs at hcase with hwrap
        · omega
        · exact hcase
      have hmax' : (b.pend w).maxContNonce = b.maxContNonce + 1 := hnext
      refine ⟨by omega, fun j hj => ?_⟩
      rw [lookup_pend, if_neg (by omega)]
      exact hsame.2 j hj
    · intro b' _ wTxNew hopen hb' hgap
      have hnext := nextNonce_of_gap hopen hgap
      have hmax' : (b'.pendGap wTxNew).maxContNonce = b'.maxContNonce + 1 := hnext
      refine ⟨by omega, fun j hj => ?_⟩
      have hlookup : (b'.pendGap wTxNew).pendingTxs.lookup j =
          (b'.pend wTxNew).pendingTxs.lookup j := rfl
      rw [hlookup, lookup_pend, if_neg (by omega)]
      exact hb'.2 j hj
    · exact fun _ _ _ => hsame

end Stuck

theorem addAll_progress (hvalid : a.Valid addr) (hfrom : ∀ w ∈ ws, w.FromAddr = addr)
    (hperm : (ws.map Nonce).Perm (range' (n + 1) k))
    (hfree : ∀ j, n < j → j ≤ n + k → a.pendingTxs.lookup j = none ∧ a.gapTxs.lookup j = none) :
    ((∀ w ∈ ws, (a.addAll ws).pendingTxs.lookup w.Nonce = some w) ↔ k = 0 ∨ a.maxContNonce = n) ∧
    ∀ j ≤ n, (a.addAll ws).pendingTxs.lookup j = a.pendingTxs.lookup j := by
  have hwindow : ∀ w ∈ ws, n < w.Nonce ∧ w.Nonce ≤ n + k := by
    intro w hw
    have hmem := mem_range'_1.mp (hperm.mem_iff.mp (mem_map_of_mem hw))
    omega
  by_cases hmax : a.maxContNonce = n
  · have hnodup : (([] ++ ws).map Nonce).Nodup :=
      hperm.nodup_iff.mpr nodup_range'
    obtain ⟨hvalid', hfilling⟩ :=
      (Filling.start hmax hfree).addAll hvalid hfrom hwindow hnodup
    refine ⟨⟨fun _ => .inr hmax, fun _ => ?_⟩, hfilling.below⟩
    exact hfilling.complete hvalid' hperm
  have hlow : ∀ w ∈ ws, n < w.Nonce := fun w hw => (hwindow w hw).1
  have hsame : ∀ j ≤ n + 1, (a.addAll ws).pendingTxs.lookup j = a.pendingTxs.lookup j := by
    rcases Nat.lt_or_gt_of_ne hmax with hlt | hgt
    · intro j _
      rw [addAll_parks hvalid hfrom hlow hlt]
    · exact addAll_passed hvalid hfrom hlow hgt
  refine ⟨⟨fun hall => ?_, ?_⟩, fun j hj => hsame j (by omega)⟩
  · -- the nonce `n + 1` does not become pending
    by_contra hne
    have hmem : n + 1 ∈ ws.map Nonce := by
      rw [hperm.mem_iff, mem_range'_1]
      omega
    obtain ⟨w, hw, hnonce⟩ := mem_map.mp hmem
    have hpending := hall w hw
    rw [hnonce, hsame _ le_rfl, (hfree (n + 1) (by omega) (by omega)).1] at hpending
    cases hpending
  · rintro (rfl | heq)
    · intro w hw
      have hbounds := hwindow w hw
      omega
    · exact absurd heq hmax

end AccountTxManager

def turns {T : TxCodec} (addr : Address) (events : List (CollectEvent T)) : List (TxWrapper T) :=
  events.filterMap (fun e =>
    match e with
    | .accountAddTx wTx => if wTx.FromAddr = addr then some wTx else none
    | _ => none)

namespace CollectSystem

open CollectTxs

variable {T : TxCodec} {s s' t : CollectSystem T} {addr : Address} {n k : Nat}

def KeepsAccount (addr : Address) (e : CollectEvent T) : Prop :=
  ∀ txID, e = .removeTx txID → ∀ w : TxWrapper T, w.FromAddr = addr → w.TxID ≠ txID

theorem account_accountAddTx (c : CollectTxs T) (wTx : TxWrapper T) (addr : Address) :
    (c.accountAddTx wTx).2.account addr =
      if wTx.FromAddr = addr then (c.account addr).addOne wTx else c.account addr := by
  unfold CollectTxs.accountAddTx addOne
  by_cases haddr : wTx.FromAddr = addr
  · rw [if_pos haddr, ← haddr]
    cases hadd : (c.account wTx.FromAddr).AddTx wTx with
    | error e => simp
    | ok result =>
      have hview := account_setAccount c wTx.FromAddr result.1 wTx.FromAddr
      rw [if_pos rfl] at hview
      exact hview
  · rw [if_neg haddr]
    cases hadd : (c.account wTx.FromAddr).AddTx wTx with
    | error e => simp [Ne.symm haddr]
    | ok result =>
      have hview := account_setAccount c wTx.FromAddr result.1 addr
      rw [if_neg (Ne.symm haddr)] at hview
      exact hview

theorem account_step {e : CollectEvent T} (hkeeps : KeepsAccount addr e)
    (hstep : s.step e = some s') :
    s'.collect.account addr = (s.collect.account addr).addAll (turns addr [e]) := by
  have hcase := step_cases hstep
  cases e with
  | addTx wTx =>
    obtain ⟨full, _, heq⟩ := hcase
    rw [heq]
    rfl
  | accountAddTx wTx =>
    rw [hcase.2, account_accountAddTx]
    by_cases haddr : wTx.FromAddr = addr
    · simp [turns, haddr, addAll]
    · simp [turns, haddr, addAll]
  | removeTx txID =>
    have heq : s'.collect = (s.collect.RemoveTx txID).2 := hcase
    rw [heq]
    cases hget : s.collect.sortedTxs.getTx txID with
    | none =>
      rw [RemoveTx_of_not_listed hget]
      rfl
    | some wTx =>
      have hother : addr ≠ wTx.FromAddr := by
        intro haddr
        exact hkeeps txID rfl wTx haddr.symm (SortedTxList.TxID_of_getTx hget)
      rw [account_RemoveTx hget, if_neg hother]
      rfl
  | receive addr' =>
    obtain ⟨_, _, _, _, _, _, _, heq⟩ := receive_cases hcase
    rw [heq]
    rfl
  | insertReceived =>
    obtain ⟨_, _, heq⟩ := insertReceived_cases hcase
    rw [heq]
    rfl

theorem account_run {events : List (CollectEvent T)} (hkeeps : ∀ e ∈ events, KeepsAccount addr e)
    (hrun : events.foldlM step s = some t) :
    t.collect.account addr = (s.collect.account addr).addAll (turns addr events) := by
  induction events generalizing s with
  | nil =>
    cases hrun
    rfl
  | cons e events ih =>
    obtain ⟨m, hstep, hrest⟩ := run_cons_success hrun
    have hhead := account_step (hkeeps e mem_cons_self) hstep
    have htail := ih (fun e' he' => hkeeps e' (mem_cons_of_mem _ he')) hrest
    have hsplit : turns addr (e :: events) = turns addr [e] ++ turns addr events := by
      rw [turns, turns, turns, ← filterMap_append]
      rfl
    rw [htail, hhead, hsplit]
    simp [addAll, foldl_append]

/-- In a reached state, the new nonces `n + 1` to `n + k` are added in any order, among other steps,
and the channel is drained. -/
structure Batch (s t : CollectSystem T) (addr : Address) (n k : Nat)
    (events : List (CollectEvent T)) : Prop where
  reached : ∃ before : List (CollectEvent T), before.foldlM step (new T) = some s
  run : events.foldlM step s = some t
  drained : t.collect.Drained
  nonces : ((turns addr events).map Nonce).Perm (range' (n + 1) k)
  new : ∀ j, n < j → j ≤ n + k → (s.collect.account addr).pendingTxs.lookup j = none ∧
    (s.collect.account addr).gapTxs.lookup j = none
  keeps : ∀ e ∈ events, KeepsAccount addr e

/-- All of a batch is pending and can be picked, and no pick has a nonce up to `n`. -/
structure Progressed (c : CollectTxs T) (addr : Address) (n : Nat) (ws : List (TxWrapper T)) :
    Prop where
  pending : ∀ w ∈ ws, (c.account addr).pendingTxs.lookup w.Nonce = some w
  picked : ∃ limit : Int, ∀ blockMaxBytes ≥ limit, ∀ blockMaxGas, ∀ w ∈ ws,
    w.orginTx ∈ c.PickTxs blockMaxBytes blockMaxGas
  old : ∀ blockMaxBytes blockMaxGas, ∀ tx ∈ c.PickTxs blockMaxBytes blockMaxGas,
    tx.Head.FromAddr = addr → n < tx.Head.Nonce

theorem mem_sorted_iff {c : CollectTxs T} {w : TxWrapper T} (hcoherent : Coherent c)
    (hdrained : c.Drained) :
    w ∈ c.sortedTxs.txList ↔ (c.account w.FromAddr).pendingTxs.lookup w.Nonce = some w := by
  have hlive : c.live = c.sortedTxs.txList := by simp [live, hdrained.1, hdrained.2]
  rw [← hlive]
  exact (hcoherent.tied w.FromAddr).mem_iff w rfl

theorem progressed_iff {c : CollectTxs T} {ws : List (TxWrapper T)} (hcoherent : Coherent c)
    (hdrained : c.Drained) (hfrom : ∀ w ∈ ws, w.FromAddr = addr) :
    Progressed c addr n ws ↔
      (∀ w ∈ ws, (c.account addr).pendingTxs.lookup w.Nonce = some w) ∧
      ∀ j ≤ n, (c.account addr).pendingTxs.lookup j = none := by
  have hall : ∀ (blockMaxBytes blockMaxGas : Int),
      ((c.sortedTxs.txList.map TxWrapper.Size).sum : Nat) ≤ blockMaxBytes →
      ∀ w ∈ c.sortedTxs.txList, w.orginTx ∈ c.PickTxs blockMaxBytes blockMaxGas := by
    intro blockMaxBytes blockMaxGas hlimit w hw
    rw [PickTxs, SortedTxList.pickTxs_all blockMaxGas hlimit]
    exact mem_map_of_mem hw
  constructor
  · intro hprogressed
    refine ⟨hprogressed.pending, fun j hj => ?_⟩
    by_contra hne
    obtain ⟨w, hw⟩ := Option.ne_none_iff_exists'.mp hne
    obtain ⟨rfl, rfl⟩ := (hcoherent.valid addr).pending j w hw
    have hmem := (mem_sorted_iff hcoherent hdrained).mpr hw
    have hlt := hprogressed.old _ 0 w.orginTx (hall _ 0 (Int.le_refl _) w hmem) rfl
    exact absurd hlt (Nat.not_lt.mpr hj)
  · rintro ⟨hpending, hold⟩
    refine ⟨hpending, ⟨((c.sortedTxs.txList.map TxWrapper.Size).sum : Nat), ?_⟩, ?_⟩
    · intro blockMaxBytes hlimit blockMaxGas w hw
      refine hall blockMaxBytes blockMaxGas hlimit w ?_
      rw [mem_sorted_iff hcoherent hdrained, hfrom w hw]
      exact hpending w hw
    intro blockMaxBytes blockMaxGas tx htx haddr
    have hmem := (c.sortedTxs.pickTxs_prefix blockMaxBytes blockMaxGas).subset htx
    obtain ⟨w, hw, rfl⟩ := mem_map.mp hmem
    have hpending' := (mem_sorted_iff hcoherent hdrained).mp hw
    have haddr' : w.FromAddr = addr := haddr
    by_contra hle
    rw [haddr', hold w.Nonce (Nat.le_of_not_lt hle)] at hpending'
    cases hpending'

theorem from_of_mem_turns {events : List (CollectEvent T)} {w : TxWrapper T}
    (hw : w ∈ turns addr events) : w.FromAddr = addr := by
  obtain ⟨e, _, he⟩ := mem_filterMap.mp hw
  cases e with
  | accountAddTx wTx =>
    simp only [Option.ite_none_right_eq_some, Option.some.injEq] at he
    obtain ⟨haddr, rfl⟩ := he
    exact haddr
  | _ => cases he

/-- **When the nonces after the ledger's make progress.** Those after `n` can be picked, and nothing
up to `n` is, exactly when the counter was `n` and nothing up to `n` was pending. -/
theorem progress_iff {events : List (CollectEvent T)} (hbatch : Batch s t addr n k events) :
    Progressed t.collect addr n (turns addr events) ↔
      (k = 0 ∨ (s.collect.account addr).maxContNonce = n) ∧
      ∀ j ≤ n, (s.collect.account addr).pendingTxs.lookup j = none := by
  obtain ⟨before, hbefore⟩ := hbatch.reached
  have hcoherent := run_coherent hbefore
  have hcoherent' : Coherent t.collect :=
    run_invariant (fun _ _ _ => step_coherent) hcoherent hbatch.run
  obtain ⟨hiff, hbelow⟩ := addAll_progress (hcoherent.valid addr)
    (fun w hw => from_of_mem_turns hw) hbatch.nonces hbatch.new
  rw [progressed_iff hcoherent' hbatch.drained (fun w hw => from_of_mem_turns hw),
    account_run hbatch.keeps hbatch.run, hiff]
  refine and_congr_right (fun _ => forall₂_congr (fun j hj => ?_))
  rw [hbelow j hj]

def outOfOrder : List (CollectEvent plainCodec) :=
  adds (.plain 1 2 1 0 100) ++ adds (.plain 1 1 1 1 100) ++ lists plainCodec [1] ++
    lists plainCodec [1]

theorem progress_outOfOrder :
    ∃ t, Batch (new plainCodec) t [1] 0 2 outOfOrder ∧
      Progressed t.collect [1] 0 (turns [1] outOfOrder) := by
  have hbatch : ∃ t, Batch (new plainCodec) t [1] 0 2 outOfOrder := by
    refine ⟨_, ⟨[], rfl⟩, rfl, ⟨rfl, rfl⟩, by decide, fun j _ _ => ⟨rfl, rfl⟩, ?_⟩
    rintro e he txID rfl
    simp [outOfOrder, adds, lists] at he
  obtain ⟨t, hbatch⟩ := hbatch
  exact ⟨t, hbatch, (progress_iff hbatch).mpr ⟨.inr rfl, fun _ _ => rfl⟩⟩

def afterFive : List (CollectEvent plainCodec) :=
  adds (.plain 1 6 1 0 100)

/-- At ledger nonce 5 a new pool parks nonce 6; at ledger nonce 1 a pool picks nonce 1. -/
theorem progress_fails_on_fresh_pool :
    (∃ t, Batch (new plainCodec) t [1] 5 1 afterFive ∧ t.collect.PickTxs 1000 (-1) = [] ∧
      ¬ Progressed t.collect [1] 5 (turns [1] afterFive)) ∧
    ∃ s : CollectSystem plainCodec, Batch s s [1] 1 0 [] ∧
      s.collect.PickTxs 1000 (-1) = [plainTx 1 1 1] ∧
      ¬ Progressed s.collect [1] 1 (turns [1] []) := by
  constructor
  · refine ⟨_, ⟨⟨[], rfl⟩, rfl, ⟨rfl, rfl⟩, by decide, fun j _ _ => ⟨rfl, rfl⟩, ?_⟩, rfl, ?_⟩
    · rintro e he txID rfl
      simp [afterFive, adds] at he
    · intro hprogressed
      have hpending := hprogressed.pending (.plain 1 6 1 0 100) (by decide)
      cases hpending
  · have hrun : ∃ s, (arrives (.plain 1 1 1 0 100)).foldlM step (new plainCodec) = some s ∧
        s.collect.Drained ∧ s.collect.PickTxs 1000 (-1) = [plainTx 1 1 1] :=
      ⟨_, rfl, ⟨rfl, rfl⟩, by decide⟩
    obtain ⟨s, hrun, hdrained, hpick⟩ := hrun
    refine ⟨s, ⟨⟨_, hrun⟩, rfl, hdrained, Perm.refl _, ?_, by simp⟩, hpick, ?_⟩
    · intro j hj hj'
      omega
    · intro hprogressed
      have hlt := hprogressed.old 1000 (-1) (plainTx 1 1 1) (by rw [hpick]; simp) rfl
      exact absurd hlt (by decide)

end CollectSystem

end Topia.TransactionPool
