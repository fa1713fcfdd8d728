import Mathlib.Order.Bounds.Basic
import Topia.TransactionPool.Collect

/-!
# The order of the nonces in a pick

A block wants the transactions of a sender in the order of their nonces and without a gap. The
channel brings them in that order, but `addTx` of the sorted list places a transaction by gas price,
height and time, and a pick is a piece from the front of the list.
-/

namespace Topia.TransactionPool

open Lib Transaction AccountTxManager TxWrapper List

namespace CollectTxs

variable {T : TxCodec}

variable (c : CollectTxs T) (addr : Address)

def listed : List (TxWrapper T) :=
  c.sortedTxs.txList.filter (·.FromAddr = addr)

def queued : List (TxWrapper T) :=
  (c.receiving.toList ++ c.pendingTxChan).filter (·.FromAddr = addr)

def pendingNonces : Set Nat :=
  {n | (c.account addr).pendingTxs.lookup n ≠ none}

def pickedNonces (blockMaxBytes blockMaxGas : Int) (addr : Address) : List Nat :=
  ((c.PickTxs blockMaxBytes blockMaxGas).filter (·.Head.FromAddr = addr)).map (·.Head.Nonce)

/-- Every pick has the nonces of a sender in order, without a gap, from the lowest pending one. -/
def NonceOrdered : Prop :=
  ∀ blockMaxBytes blockMaxGas addr, ∃ m,
    c.pickedNonces blockMaxBytes blockMaxGas addr =
      range' m (c.pickedNonces blockMaxBytes blockMaxGas addr).length ∧
    (c.pickedNonces blockMaxBytes blockMaxGas addr ≠ [] → IsLeast (c.pendingNonces addr) m)

/-- The listed, then the queued nonces of a sender follow one another up to the largest contiguous
one. -/
def Ranged : Prop :=
  ∃ m k j, ((c.listed addr).map Nonce).Perm (range' m k) ∧
    (c.queued addr).map Nonce = range' (m + k) j ∧
    m + k + j = (c.account addr).maxContNonce + 1

end CollectTxs

/-- No account takes a nonce that has wrapped. -/
def CollectEvent.Nonzero {T : TxCodec} : CollectEvent T → Prop
  | .accountAddTx wTx => wTx.Nonce ≠ 0
  | _ => True

namespace CollectSystem

variable {T : TxCodec}

/-- Removals take a sender's lowest pending nonce, and no nonce wraps. -/
def RemovesLowest (s : CollectSystem T) : CollectEvent T → Prop
  | .removeTx txID =>
    ∀ wTx, s.collect.sortedTxs.getTx txID = some wTx →
      ∀ n ∈ s.collect.pendingNonces wTx.FromAddr, wTx.Nonce ≤ n
  | .accountAddTx wTx => wTx.Nonce ≠ 0
  | _ => True

/-- A listed transaction that is removed has the lowest pending nonce of its sender or the highest
listed one. What is inserted has all nonces from the lowest pending one listed, and `sort.Search`
gives it a place behind those of its sender. -/
def KeepsOrder (s : CollectSystem T) : CollectEvent T → Prop
  | .removeTx txID =>
    ∀ wTx, s.collect.sortedTxs.getTx txID = some wTx →
      (∀ n ∈ s.collect.pendingNonces wTx.FromAddr, wTx.Nonce ≤ n) ∨
        ∀ n ∈ (s.collect.listed wTx.FromAddr).map Nonce, n ≤ wTx.Nonce
  | .insertReceived =>
    ∀ wTx, s.collect.receiving = some wTx →
      (∀ n ∈ s.collect.pendingNonces wTx.FromAddr, ∀ x, n ≤ x → x < wTx.Nonce →
        x ∈ (s.collect.listed wTx.FromAddr).map Nonce) ∧
      ∀ w ∈ s.collect.sortedTxs.txList.drop (s.collect.sortedTxs.index wTx),
        w.FromAddr ≠ wTx.FromAddr
  | _ => True

end CollectSystem

open SortedTxList CollectTxs

section Ranges

variable {T : TxCodec} {c c' : CollectTxs T} {addr : Address} {a a' : AccountTxManager T}
  {wTx : TxWrapper T} {sent : List (TxWrapper T)} {txID : TxID}

theorem AddTx_sent (ha : a.Valid addr) (haddr : wTx.FromAddr = addr) (hzero : wTx.Nonce ≠ 0)
    (hok : a.AddTx wTx = .ok (a', sent)) :
    sent.map Nonce = range' (a.maxContNonce + 1) sent.length ∧
    a'.maxContNonce = a.maxContNonce + sent.length := by
  refine AddTx_induction (P := fun b sent =>
    sent.map Nonce = range' (a.maxContNonce + 1) sent.length ∧
      b.maxContNonce = a.maxContNonce + sent.length) ha haddr ?_ ?_ ?_ hok
  · intro _ _ hnext
    have hfirst : a.nextNonce = a.maxContNonce + 1 := by
      have hcase := nextNonce_eq ha.max_lt
      split_ifs at hcase with hwrap
      · exact absurd (hnext.trans hcase) hzero
      · exact hcase
    exact ⟨by simp [hnext, hfirst], hfirst⟩
  · rintro b sent wTxNew hopen ⟨hsent, hmax⟩ hgap
    have hnext := nextNonce_of_gap hopen hgap
    constructor
    · rw [map_append, hsent, length_append, length_singleton,
        range'_1_concat, map_singleton, (hopen.gap _ _ hgap).2, hnext, hmax]
      congr 2
      omega
    · change b.nextNonce = _
      rw [hnext, hmax, length_append, length_singleton]
      omega
  · simp

theorem queued_append (a : AccountTxManager T) (from_ : Address) (sent : List (TxWrapper T)) :
    ({ c.setAccount from_ a with pendingTxChan := c.pendingTxChan ++ sent } : CollectTxs T).queued
        addr = c.queued addr ++ sent.filter (·.FromAddr = addr) := by
  simp [queued, setAccount, ← append_assoc]

/-- What is listed stays, and what comes to the queue follows the largest contiguous nonce. -/
def CollectTxs.Grows (c c' : CollectTxs T) (addr : Address) : Prop :=
  c'.listed addr = c.listed addr ∧ ∃ j,
    (c'.queued addr).map Nonce =
      (c.queued addr).map Nonce ++ range' ((c.account addr).maxContNonce + 1) j ∧
    (c'.account addr).maxContNonce = (c.account addr).maxContNonce + j

theorem grows_of_same (hlisted : c'.listed addr = c.listed addr)
    (hqueued : c'.queued addr = c.queued addr)
    (hmax : (c'.account addr).maxContNonce = (c.account addr).maxContNonce) : c.Grows c' addr :=
  ⟨hlisted, 0, by simp [hqueued], hmax⟩

theorem grows_accountAddTx (hcoherent : Coherent c) (hzero : wTx.Nonce ≠ 0) (addr : Address) :
    c.Grows (c.accountAddTx wTx).2 addr := by
  unfold accountAddTx
  cases hadd : (c.account wTx.FromAddr).AddTx wTx with
  | error e =>
    refine grows_of_same rfl rfl ?_
    simp only [account_setAccount]
    split_ifs with haddr
    · rw [haddr]
    · rfl
  | ok result =>
    obtain ⟨a, sent⟩ := result
    obtain ⟨_, hfrom⟩ :=
      AddTx_tied (hcoherent.valid wTx.FromAddr) (hcoherent.tied wTx.FromAddr) rfl hadd
    show c.Grows { c.setAccount wTx.FromAddr a with pendingTxChan := c.pendingTxChan ++ sent } addr
    have haccount := account_setAccount c wTx.FromAddr a addr
    by_cases haddr : wTx.FromAddr = addr
    · subst haddr
      obtain ⟨hsent, hmax⟩ := AddTx_sent (hcoherent.valid wTx.FromAddr) rfl hzero hadd
      rw [if_pos rfl] at haccount
      refine ⟨rfl, sent.length, ?_, (congrArg maxContNonce haccount).trans hmax⟩
      rw [queued_append, filter_eq_self.mpr (by simpa using hfrom), map_append, hsent]
    · rw [if_neg (Ne.symm haddr)] at haccount
      refine grows_of_same rfl ?_ (congrArg maxContNonce haccount)
      rw [queued_append, filter_eq_nil_iff.mpr, append_nil]
      intro w hw
      simpa [hfrom w hw] using haddr

theorem CollectTxs.Grows.ranged (hgrows : c.Grows c' addr) (hc : c.Ranged addr) :
    c'.Ranged addr := by
  obtain ⟨hlisted, j', hqueued, hmax⟩ := hgrows
  obtain ⟨m, k, j, hm, hk, hj⟩ := hc
  refine ⟨m, k, j + j', hlisted ▸ hm, ?_, by omega⟩
  rw [hqueued, hk, ← hj]
  exact range'_append_1

theorem queued_receive {from_ : Address} (hreceive : c.receive from_ = some c') :
    c'.queued addr = c.queued addr := by
  obtain ⟨w, before, after, hidle, hchan, hfrom, hbefore, rfl⟩ := receive_cases hreceive
  simp only [queued, hidle, hchan, Option.toList_none, Option.toList_some, nil_append,
    singleton_append]
  by_cases haddr : w.FromAddr = addr
  · have hnone : before.filter (·.FromAddr = addr) = [] := by
      refine filter_eq_nil_iff.mpr ?_
      intro w' hw'
      simpa [← haddr, hfrom] using hbefore w' hw'
    simp [filter_append, haddr, hnone]
  · simp [filter_append, haddr]

theorem mem_pendingNonces (hcoherent : Coherent c) {n : Nat} :
    n ∈ c.pendingNonces addr ↔
      n ∈ (c.listed addr).map Nonce ∨ n ∈ (c.queued addr).map Nonce := by
  have hlive : n ∈ c.pendingNonces addr ↔ ∃ w ∈ c.live, w.FromAddr = addr ∧ w.Nonce = n := by
    constructor
    · intro hn
      obtain ⟨w, hw⟩ := Option.ne_none_iff_exists'.mp hn
      obtain ⟨rfl, rfl⟩ := (hcoherent.valid addr).pending n w hw
      exact ⟨w, ((hcoherent.tied w.FromAddr).mem_iff w rfl).mpr hw, rfl, rfl⟩
    · rintro ⟨w, hw, rfl, rfl⟩
      simp [pendingNonces, hcoherent.pending_of_mem hw]
  rw [hlive, ← mem_append, ← map_append, listed, queued, ← filter_append, ← live]
  simp only [mem_map, mem_filter, decide_eq_true_eq, and_assoc]

theorem queued_RemoveTx (c : CollectTxs T) (txID : TxID) (addr : Address) :
    (c.RemoveTx txID).2.queued addr = c.queued addr := by
  obtain ⟨_, _, hchan, hreceiving, _, _, _⟩ := RemoveTx_lists c txID
  rw [queued, queued, hchan, hreceiving]

theorem filter_RemoveTx (hget : c.sortedTxs.getTx txID = some wTx) (addr : Address) :
    (c.listed addr).Perm
      ((wTx :: (c.RemoveTx txID).2.sortedTxs.txList).filter (·.FromAddr = addr)) := by
  obtain ⟨_, _, _, _, hsorted, _, _⟩ := RemoveTx_lists c txID
  rw [hsorted]
  exact (removeTx_perm hget).filter _

theorem listed_RemoveTx (hget : c.sortedTxs.getTx txID = some wTx) :
    (c.listed wTx.FromAddr).Perm (wTx :: (c.RemoveTx txID).2.listed wTx.FromAddr) := by
  have hperm := filter_RemoveTx hget wTx.FromAddr
  rwa [filter_cons_of_pos (by simp)] at hperm

theorem sublist_RemoveTx (c : CollectTxs T) (txID : TxID) (addr : Address) :
    ((c.RemoveTx txID).2.listed addr).Sublist (c.listed addr) := by
  obtain ⟨_, _, _, _, hsorted, _, _⟩ := RemoveTx_lists c txID
  rw [listed, hsorted]
  exact eraseP_sublist.filter _

/-- What is inserted goes in front of the listed ones of its sender that `sort.Search` has behind
it. -/
theorem split_enlist (c : CollectTxs T) (wTx : TxWrapper T) : ∃ front behind,
    c.listed wTx.FromAddr = front ++ behind ∧
    (c.enlist wTx).listed wTx.FromAddr = front ++ wTx :: behind ∧
    ((∀ w ∈ c.sortedTxs.txList.drop (c.sortedTxs.index wTx), w.FromAddr ≠ wTx.FromAddr) ↔
      behind = []) := by
  refine ⟨(c.sortedTxs.txList.take (c.sortedTxs.index wTx)).filter (·.FromAddr = wTx.FromAddr),
    (c.sortedTxs.txList.drop (c.sortedTxs.index wTx)).filter (·.FromAddr = wTx.FromAddr),
    ?_, ?_, by simp⟩
  · rw [← filter_append, take_append_drop, listed]
  · show (c.sortedTxs.addTx wTx).txList.filter _ = _
    rw [addTx_txList, filter_append, filter_cons_of_pos (by simp)]

theorem listed_enlist :
    ((c.enlist wTx).listed wTx.FromAddr).Perm (wTx :: c.listed wTx.FromAddr) := by
  obtain ⟨front, behind, hlisted, hsplit, _⟩ := split_enlist c wTx
  rw [hlisted, hsplit]
  exact perm_middle

theorem ranged_RemoveTx (hcoherent : Coherent c) (hget : c.sortedTxs.getTx txID = some wTx)
    (hlowest : ∀ n ∈ c.pendingNonces wTx.FromAddr, wTx.Nonce ≤ n)
    (hc : c.Ranged wTx.FromAddr) : (c.RemoveTx txID).2.Ranged wTx.FromAddr := by
  obtain ⟨m, k, j, hm, hk, hj⟩ := hc
  have hperm := (listed_RemoveTx hget).map Nonce
  have hrange := mem_range'_1.mp (hm.mem_iff.mp (hperm.mem_iff.mpr mem_cons_self))
  -- the removed nonce is the first of the range
  obtain ⟨k, rfl⟩ : ∃ k', k = k' + 1 := ⟨k - 1, by omega⟩
  rw [range'_succ] at hm
  have hle := hlowest m ((mem_pendingNonces hcoherent).mpr (.inl (hm.mem_iff.mpr mem_cons_self)))
  obtain rfl : wTx.Nonce = m := le_antisymm hle hrange.1
  refine ⟨wTx.Nonce + 1, k, j, Perm.cons_inv (hperm.symm.trans hm), ?_, ?_⟩
  · rw [queued_RemoveTx, hk]
    congr 1
    omega
  · rw [(parts_RemoveTx _ _ _).2]
    omega

theorem ranged_enlist (hreceiving : c.receiving = some wTx) (hc : c.Ranged wTx.FromAddr) :
    (c.enlist wTx).Ranged wTx.FromAddr := by
  obtain ⟨m, k, j, hm, hk, hj⟩ := hc
  have hqueued : c.queued wTx.FromAddr =
      wTx :: c.pendingTxChan.filter (·.FromAddr = wTx.FromAddr) := by
    simp [queued, hreceiving]
  rw [hqueued, map_cons] at hk
  cases j with
  | zero => simp at hk
  | succ j =>
    rw [range'_succ, cons.injEq] at hk
    obtain ⟨hnonce, hrest⟩ := hk
    refine ⟨m, k + 1, j, (listed_enlist.map Nonce).trans ?_, ?_, ?_⟩
    · rw [map_cons, hnonce, range'_1_concat]
      exact (hm.cons _).trans (perm_append_singleton _ _).symm
    · simpa [queued, enlist, ← Nat.add_assoc] using hrest
    · change _ = (c.account wTx.FromAddr).maxContNonce + 1
      omega

end Ranges

section Order

variable {T : TxCodec} {c c' : CollectTxs T} {addr : Address} {wTx : TxWrapper T} {txID : TxID}

/-- The listed nonces increase, and everything from a pending nonce to a listed one is listed. -/
def CollectTxs.Straight (c : CollectTxs T) (addr : Address) : Prop :=
  ((c.listed addr).map Nonce).Pairwise (· < ·) ∧
    ∀ n ∈ c.pendingNonces addr, ∀ b ∈ (c.listed addr).map Nonce, ∀ x, n ≤ x → x ≤ b →
      x ∈ (c.listed addr).map Nonce

theorem pickedNonces_prefix (c : CollectTxs T) (addr : Address) (blockMaxBytes blockMaxGas : Int) :
    c.pickedNonces blockMaxBytes blockMaxGas addr <+: (c.listed addr).map Nonce := by
  have hprefix := ((c.sortedTxs.pickTxs_prefix blockMaxBytes blockMaxGas).filter
    (·.Head.FromAddr = addr)).map (·.Head.Nonce)
  rw [filter_map, map_map] at hprefix
  exact hprefix

theorem pickedNonces_all {blockMaxBytes : Int} (blockMaxGas : Int)
    (hlimit : ((c.sortedTxs.txList.map TxWrapper.Size).sum : Nat) ≤ blockMaxBytes) :
    c.pickedNonces blockMaxBytes blockMaxGas addr = (c.listed addr).map TxWrapper.Nonce := by
  rw [pickedNonces, PickTxs, pickTxs_all blockMaxGas hlimit, filter_map, map_map]
  rfl

theorem eq_range'_of_closed {l : List Nat} (hinc : l.Pairwise (· < ·))
    (hclosed : ∀ a ∈ l, ∀ b ∈ l, ∀ x, a ≤ x → x ≤ b → x ∈ l) : ∃ m, l = range' m l.length := by
  induction l with
  | nil => exact ⟨0, rfl⟩
  | cons a l ih =>
    obtain ⟨hlt, hinc⟩ := pairwise_cons.mp hinc
    obtain ⟨m, hm⟩ := ih hinc fun a' ha' b hb x hax hxb => by
      have hx := hclosed a' (mem_cons_of_mem _ ha') b (mem_cons_of_mem _ hb) x hax hxb
      have := hlt a' ha'
      exact (mem_cons.mp hx).resolve_left (by omega)
    refine ⟨a, ?_⟩
    rw [length_cons, range'_succ, cons.injEq, and_iff_right rfl]
    cases hlen : l.length with
    | zero => exact length_eq_zero_iff.mp hlen
    | succ k =>
      have hfirst : m ∈ l := by
        rw [hm, hlen]
        simp [mem_range'_1]
      have hnext := hclosed a mem_cons_self m (mem_cons_of_mem _ hfirst) (a + 1) (by omega)
        (hlt m hfirst)
      have hmem : a + 1 ∈ range' m l.length := hm ▸ (mem_cons.mp hnext).resolve_left (by omega)
      have := (mem_range'_1.mp hmem).1
      have := hlt m hfirst
      rw [hm, hlen, show m = a + 1 by omega]

theorem nonceOrdered_iff (hcoherent : Coherent c) : c.NonceOrdered ↔ ∀ addr, c.Straight addr := by
  constructor
  · intro hordered addr
    obtain ⟨m, hrange, hleast⟩ :=
      hordered ((c.sortedTxs.txList.map TxWrapper.Size).sum : Nat) 0 addr
    rw [pickedNonces_all 0 le_rfl] at hrange hleast
    refine ⟨by rw [hrange]; exact pairwise_lt_range', fun n hn b hb x hnx hxb => ?_⟩
    have hm := (hleast (ne_nil_of_mem hb)).2 hn
    rw [hrange, mem_range'_1] at hb ⊢
    omega
  · intro hstraight blockMaxBytes blockMaxGas addr
    obtain ⟨hinc, hclosed⟩ := hstraight addr
    have hpending : ∀ n ∈ (c.listed addr).map Nonce, n ∈ c.pendingNonces addr :=
      fun n hn => (mem_pendingNonces hcoherent).mpr (.inl hn)
    obtain ⟨m, hm⟩ := eq_range'_of_closed hinc fun a ha => hclosed a (hpending a ha)
    have hprefix := pickedNonces_prefix c addr blockMaxBytes blockMaxGas
    have hlength := hprefix.length_le
    refine ⟨m, ?_, fun hne => ?_⟩
    · obtain ⟨k, hk⟩ := Nat.exists_eq_add_of_le hlength
      rw [hk, ← range'_append_1] at hm
      obtain ⟨rest, hrest⟩ := hprefix
      exact append_inj_left (hrest.trans hm) (by simp)
    · have hpos := length_pos_iff.mpr hne
      have hfirst : m ∈ (c.listed addr).map Nonce := by
        rw [hm, mem_range'_1]
        omega
      refine ⟨hpending m hfirst, fun n hn => ?_⟩
      by_contra hlt
      have hlisted := hclosed n hn m hfirst n le_rfl (by omega)
      rw [hm, mem_range'_1] at hlisted
      omega

/-- No pending nonce is above the largest contiguous one. -/
def CollectTxs.Reached (c : CollectTxs T) (addr : Address) : Prop :=
  ∀ n ∈ c.pendingNonces addr, n ≤ (c.account addr).maxContNonce

section Growth

variable (hgrows : c.Grows c' addr) (hcoherent : Coherent c) (hcoherent' : Coherent c')
include hgrows hcoherent hcoherent'

theorem CollectTxs.Grows.pending {n : Nat} (hn : n ∈ c'.pendingNonces addr) :
    n ∈ c.pendingNonces addr ∨
      (c.account addr).maxContNonce < n ∧ n ≤ (c'.account addr).maxContNonce := by
  obtain ⟨hlisted, j, hqueued, hmax⟩ := hgrows
  rw [mem_pendingNonces hcoherent', hlisted, hqueued, mem_append, ← or_assoc,
    ← mem_pendingNonces hcoherent, mem_range'_1] at hn
  exact hn.imp_right fun h => by omega

theorem CollectTxs.Grows.reached (hc : c.Reached addr) : c'.Reached addr := by
  intro n hn
  rcases hgrows.pending hcoherent hcoherent' hn with hold | hnew
  · obtain ⟨_, j, _, hmax⟩ := hgrows
    exact (hc n hold).trans (by omega)
  · exact hnew.2

theorem CollectTxs.Grows.straight (hreached : c.Reached addr) (hc : c.Straight addr) :
    c'.Straight addr := by
  rw [Straight, hgrows.1]
  refine ⟨hc.1, fun n hn b hb x hnx hxb => ?_⟩
  rcases hgrows.pending hcoherent hcoherent' hn with hold | hnew
  · exact hc.2 n hold b hb x hnx hxb
  · have hle := hreached b ((mem_pendingNonces hcoherent).mpr (.inl hb))
    omega

end Growth

theorem mem_pendingNonces_RemoveTx (hget : c.sortedTxs.getTx txID = some wTx) {n : Nat} :
    n ∈ (c.RemoveTx txID).2.pendingNonces wTx.FromAddr ↔
      n ≠ wTx.Nonce ∧ n ∈ c.pendingNonces wTx.FromAddr := by
  rw [pendingNonces, account_RemoveTx hget, if_pos rfl, Set.mem_ofPred_eq, lookup_removePendingTx]
  split_ifs with hn
  · simp [hn]
  · simp [hn, pendingNonces]

theorem straight_RemoveTx_iff (hget : c.sortedTxs.getTx txID = some wTx)
    (hc : c.Straight wTx.FromAddr) : (c.RemoveTx txID).2.Straight wTx.FromAddr ↔
      (∀ n ∈ c.pendingNonces wTx.FromAddr, wTx.Nonce ≤ n) ∨
        ∀ n ∈ (c.listed wTx.FromAddr).map Nonce, n ≤ wTx.Nonce := by
  have hperm := (listed_RemoveTx hget).map Nonce
  have hnodup := hperm.nodup_iff.mp (hc.1.imp Nat.ne_of_lt)
  have hlisted : ∀ n, n ∈ ((c.RemoveTx txID).2.listed wTx.FromAddr).map Nonce ↔
      n ≠ wTx.Nonce ∧ n ∈ (c.listed wTx.FromAddr).map Nonce := by
    intro n
    rw [hperm.mem_iff, map_cons, mem_cons]
    constructor
    · intro hn
      exact ⟨fun heq => (nodup_cons.mp hnodup).1 (heq ▸ hn), .inr hn⟩
    · rintro ⟨hne, hn⟩
      exact hn.resolve_left hne
  simp only [Straight, mem_pendingNonces_RemoveTx hget, hlisted]
  constructor
  · rintro ⟨_, hclosed⟩
    by_contra! hcut
    obtain ⟨⟨n, hn, hlow⟩, b, hb, hhigh⟩ := hcut
    exact (hclosed n ⟨by omega, hn⟩ b ⟨by omega, hb⟩ wTx.Nonce (by omega) (by omega)).1 rfl
  · intro hcut
    refine ⟨hc.1.sublist ((sublist_RemoveTx c txID _).map _), ?_⟩
    rintro n ⟨hne, hn⟩ b ⟨hneb, hb⟩ x hnx hxb
    refine ⟨?_, hc.2 n hn b hb x hnx hxb⟩
    rintro rfl
    rcases hcut with hlow | hhigh
    · exact hne (le_antisymm hnx (hlow n hn))
    · exact hneb (le_antisymm (hhigh b hb) hxb)

theorem receiving_not_listed (hcoherent : Coherent c) (hreceiving : c.receiving = some wTx) :
    wTx.Nonce ∈ c.pendingNonces wTx.FromAddr ∧
      wTx.Nonce ∉ (c.listed wTx.FromAddr).map Nonce := by
  have hlive : wTx ∈ c.live := by simp [live, hreceiving]
  have hpending := hcoherent.pending_of_mem hlive
  refine ⟨by simp [pendingNonces, hpending], fun hmem => ?_⟩
  obtain ⟨w, hw, hnonce⟩ := mem_map.mp hmem
  obtain ⟨hw, hfrom⟩ : w ∈ c.sortedTxs.txList ∧ w.FromAddr = wTx.FromAddr := by
    simpa [listed] using hw
  have hsame := hcoherent.pending_of_mem (show w ∈ c.live by simp [live, hw])
  rw [hfrom, hnonce, hpending] at hsame
  cases hsame
  have hnodup := (hcoherent.tied []).nodup
  rw [live, nodup_append] at hnodup
  exact hnodup.2.2 wTx hw wTx (by simp [hreceiving]) rfl

theorem straight_enlist_iff (hcoherent : Coherent c) (hreceiving : c.receiving = some wTx)
    (hc : c.Straight wTx.FromAddr) : (c.enlist wTx).Straight wTx.FromAddr ↔
      (∀ n ∈ c.pendingNonces wTx.FromAddr, ∀ x, n ≤ x → x < wTx.Nonce →
        x ∈ (c.listed wTx.FromAddr).map Nonce) ∧
      ∀ w ∈ c.sortedTxs.txList.drop (c.sortedTxs.index wTx), w.FromAddr ≠ wTx.FromAddr := by
  obtain ⟨hpending, hfresh⟩ := receiving_not_listed hcoherent hreceiving
  -- a listed nonce above the new one would have it listed already
  have hbelow : ∀ b ∈ (c.listed wTx.FromAddr).map Nonce, b < wTx.Nonce := fun b hb => by
    by_contra hle
    exact hfresh (hc.2 _ hpending b hb _ le_rfl (by omega))
  obtain ⟨front, behind, hlisted, hsplit, hbehind⟩ := split_enlist c wTx
  have hmem : ∀ n, n ∈ ((c.enlist wTx).listed wTx.FromAddr).map Nonce ↔
      n = wTx.Nonce ∨ n ∈ (c.listed wTx.FromAddr).map Nonce := by
    intro n
    exact (listed_enlist.map Nonce).mem_iff.trans mem_cons
  rw [hbehind]
  constructor
  · rintro ⟨hinc, hclosed⟩
    refine ⟨fun n hn x hnx hx => ?_, eq_nil_iff_forall_not_mem.mpr fun w hw => ?_⟩
    · have hx' := hclosed n hn wTx.Nonce ((hmem _).mpr (.inl rfl)) x hnx hx.le
      exact ((hmem x).mp hx').resolve_left hx.ne
    · rw [hsplit, map_append, map_cons, pairwise_append, pairwise_cons] at hinc
      have hlt := hinc.2.1.1 w.Nonce (mem_map_of_mem hw)
      have hgt := hbelow w.Nonce (mem_map_of_mem (hlisted ▸ mem_append_right _ hw))
      omega
  · rintro ⟨hfilled, rfl⟩
    refine ⟨?_, fun n hn b hb x hnx hxb => (hmem x).mpr ?_⟩
    · rw [append_nil] at hlisted
      rw [hsplit, ← hlisted, map_append, pairwise_append]
      refine ⟨hc.1, pairwise_singleton _ _, fun b hb n hn => ?_⟩
      rw [mem_singleton.mp hn]
      exact hbelow b hb
    · rcases (hmem b).mp hb with rfl | hb
      · exact (Nat.eq_or_lt_of_le hxb).imp id (hfilled n hn x hnx)
      · exact .inr (hc.2 n hn b hb x hnx hxb)

namespace CollectSystem

variable {s s' : CollectSystem T} {e : CollectEvent T}

/-- What a step does to the sender `addr`: it grows, or the step removes a listed transaction of it
or inserts one. -/
theorem step_grows (hcoherent : Coherent s.collect) (hgood : e.Nonzero)
    (hstep : s.step e = some s') (addr : Address) : s.collect.Grows s'.collect addr ∨
      (∃ txID wTx, e = .removeTx txID ∧ s.collect.sortedTxs.getTx txID = some wTx ∧
        wTx.FromAddr = addr ∧ s'.collect = (s.collect.RemoveTx txID).2) ∨
      ∃ wTx, e = .insertReceived ∧ s.collect.receiving = some wTx ∧ wTx.FromAddr = addr ∧
        s'.collect = s.collect.enlist wTx := by
  have hcase := step_cases hstep
  cases e with
  | addTx wTx =>
    obtain ⟨full, _, heq⟩ := hcase
    rw [heq]
    exact .inl (grows_of_same rfl rfl rfl)
  | accountAddTx wTx =>
    rw [hcase.2]
    exact .inl (grows_accountAddTx hcoherent hgood addr)
  | receive from_ =>
    have hqueued : s'.collect.queued addr = s.collect.queued addr := queued_receive hcase
    obtain ⟨_, _, _, _, _, _, _, heq⟩ := receive_cases hcase
    exact .inl (grows_of_same (by rw [heq]; rfl) hqueued (by rw [heq]; rfl))
  | removeTx txID =>
    have heq : s'.collect = (s.collect.RemoveTx txID).2 := hcase
    rw [heq]
    cases hget : s.collect.sortedTxs.getTx txID with
    | none =>
      refine .inl (grows_of_same ?_ (queued_RemoveTx _ _ _) (parts_RemoveTx _ _ _).2)
      rw [RemoveTx_of_not_listed hget]
      rfl
    | some wTx =>
      by_cases haddr : wTx.FromAddr = addr
      · exact .inr (.inl ⟨txID, wTx, rfl, hget, haddr, rfl⟩)
      · refine .inl (grows_of_same ?_ (queued_RemoveTx _ _ _) (parts_RemoveTx _ _ _).2)
        have hperm := filter_RemoveTx hget addr
        rw [filter_cons_of_neg (by simpa using haddr)] at hperm
        exact (sublist_RemoveTx _ _ _).eq_of_length hperm.length_eq.symm
  | insertReceived =>
    obtain ⟨wTx, hreceiving, heq⟩ := insertReceived_cases hcase
    by_cases haddr : wTx.FromAddr = addr
    · exact .inr (.inr ⟨wTx, rfl, hreceiving, haddr, heq⟩)
    · rw [heq]
      refine .inl (grows_of_same (filter_addTx_of_not (by simpa using haddr)) ?_ rfl)
      simp [queued, enlist, hreceiving, haddr]

structure Lined (s : CollectSystem T) : Prop where
  coherent : Coherent s.collect
  ranged : ∀ addr, s.collect.Ranged addr

theorem new_lined : (new T).Lined := by
  refine ⟨Coherent.NewCollectTxs, fun addr => ⟨1, 0, 0, ?_, rfl, rfl⟩⟩
  exact Perm.refl _

theorem step_lined (hs : s.Lined) (hgood : s.RemovesLowest e) (hstep : s.step e = some s') :
    s'.Lined := by
  refine ⟨step_coherent hs.coherent hstep, fun addr => ?_⟩
  have hnonzero : e.Nonzero := by
    cases e with
    | accountAddTx wTx => exact hgood
    | _ => exact trivial
  rcases step_grows hs.coherent hnonzero hstep addr with
    hgrows | ⟨txID, wTx, rfl, hget, rfl, heq⟩ | ⟨wTx, rfl, hreceiving, rfl, heq⟩
  · exact hgrows.ranged (hs.ranged addr)
  · rw [heq]
    exact ranged_RemoveTx hs.coherent hget (hgood wTx hget) (hs.ranged _)
  · rw [heq]
    exact ranged_enlist hreceiving (hs.ranged _)

theorem run_ranged {events : List (CollectEvent T)}
    (hgood : Along step RemovesLowest (new T) events)
    (hrun : events.foldlM step (new T) = some s) (addr : Address) : s.collect.Ranged addr :=
  have hlined : s.Lined :=
    run_invariant_along (fun _ _ _ => step_lined) new_lined hgood hrun
  hlined.ranged addr

structure Counted (s : CollectSystem T) : Prop where
  coherent : Coherent s.collect
  reached : ∀ addr, s.collect.Reached addr

theorem step_counted (hs : s.Counted) (hgood : e.Nonzero) (hstep : s.step e = some s') :
    s'.Counted := by
  refine ⟨step_coherent hs.coherent hstep, fun addr => ?_⟩
  rcases step_grows hs.coherent hgood hstep addr with
    hgrows | ⟨txID, wTx, _, hget, rfl, heq⟩ | ⟨wTx, _, _, _, heq⟩
  · exact hgrows.reached hs.coherent (step_coherent hs.coherent hstep) (hs.reached addr)
  · rw [heq]
    intro n hn
    rw [(parts_RemoveTx _ _ _).2]
    exact hs.reached _ n ((mem_pendingNonces_RemoveTx hget).mp hn).2
  · rw [heq]
    exact hs.reached addr

theorem step_straight_iff (hs : s.Counted) (hc : ∀ addr, s.collect.Straight addr)
    (hgood : e.Nonzero) (hstep : s.step e = some s') :
    (∀ addr, s'.collect.Straight addr) ↔ s.KeepsOrder e := by
  have hcase := step_grows hs.coherent hgood hstep
  constructor
  · intro hstraight
    cases e with
    | removeTx txID =>
      intro wTx hget
      have heq : s'.collect = (s.collect.RemoveTx txID).2 := step_cases hstep
      exact (straight_RemoveTx_iff hget (hc _)).mp (heq ▸ hstraight wTx.FromAddr)
    | insertReceived =>
      intro wTx hreceiving
      obtain ⟨w, hw, heq⟩ := insertReceived_cases (step_cases hstep)
      cases hreceiving.symm.trans hw
      exact (straight_enlist_iff hs.coherent hreceiving (hc _)).mp (heq ▸ hstraight wTx.FromAddr)
    | _ => exact trivial
  · intro hkeeps addr
    rcases hcase addr with
      hgrows | ⟨txID, wTx, rfl, hget, rfl, heq⟩ | ⟨wTx, rfl, hreceiving, rfl, heq⟩
    · exact hgrows.straight hs.coherent (step_coherent hs.coherent hstep) (hs.reached addr)
        (hc addr)
    · rw [heq]
      exact (straight_RemoveTx_iff hget (hc _)).mpr (hkeeps wTx hget)
    · rw [heq]
      exact (straight_enlist_iff hs.coherent hreceiving (hc _)).mpr (hkeeps wTx hreceiving)

theorem keepsOrder_of_disabled (hstep : s.step e = none) : s.KeepsOrder e := by
  cases e with
  | removeTx txID => simp [step] at hstep
  | insertReceived =>
    intro wTx hreceiving
    simp [step, insertReceived, hreceiving] at hstep
  | _ => exact trivial

/-- **When picks are in the order of the nonces.** Exactly when every removal takes the lowest
pending or the highest listed nonce of its sender, and every insertion follows all lower pending
ones and gets a place behind them. -/
theorem nonceOrder_iff {events : List (CollectEvent T)}
    (hzero : ∀ e ∈ events, e.Nonzero) :
    Throughout step (fun s => s.collect.NonceOrdered) (new T) events ↔
      Along step KeepsOrder (new T) events := by
  have hgood : Along step (fun _ e => e.Nonzero) (new T) events :=
    along_of_forall_mem (fun e he _ => hzero e he) _
  have hnew : (new T).Counted := ⟨Coherent.NewCollectTxs, fun _ n hn => absurd rfl hn⟩
  refine throughout_iff_along_of (fun _ _ _ => step_counted) ?_
    (fun _ _ _ _ => keepsOrder_of_disabled) hnew ?_ hgood
  · intro s e s' hs hordered hgood hstep
    rw [nonceOrdered_iff (step_coherent hs.coherent hstep)]
    exact step_straight_iff hs ((nonceOrdered_iff hs.coherent).mp hordered) hgood hstep
  · rw [nonceOrdered_iff hnew.coherent]
    exact fun addr => ⟨Pairwise.nil, fun n hn => absurd rfl hn⟩

section Runs

instance {α : Type*} (o : Option α) (P : α → Prop) [DecidablePred P] :
    Decidable (∀ a, o = some a → P a) :=
  inferInstanceAs (Decidable (∀ a ∈ o, P a))

instance (c : CollectTxs T) (addr : Address) (P : Nat → Prop) [DecidablePred P] :
    Decidable (∀ n ∈ c.pendingNonces addr, P n) := by
  refine decidable_of_iff (∀ n ∈ (c.account addr).pendingTxs.keys, P n) ?_
  simp only [pendingNonces, Set.mem_ofPred_eq, Option.ne_none_iff_isSome, AList.lookup_isSome,
    AList.mem_keys]

instance : Decidable e.Nonzero := by
  cases e <;> dsimp only [CollectEvent.Nonzero] <;> infer_instance

instance : Decidable (s.RemovesLowest e) := by
  cases e <;> dsimp only [RemovesLowest] <;> infer_instance

instance : Decidable (s.KeepsOrder e) := by
  cases e <;> dsimp only [KeepsOrder] <;> infer_instance

def risingPrices : List (CollectEvent plainCodec) :=
  arrives (.plain 1 1 1 0 100) ++ arrives (.plain 1 2 2 0 100) ++
    [.removeTx ((plainTx 1 1 1).TxID plainCodec)] ++ arrives (.plain 1 3 3 0 100)

theorem nonceOrder_risingPrices :
    (∀ e ∈ risingPrices, e.Nonzero) ∧
    Throughout step (fun s => s.collect.NonceOrdered) (new plainCodec) risingPrices := by
  have hkeeps : Along step KeepsOrder (new plainCodec) risingPrices :=
    along_of_check (fun _ _ => of_decide_eq_true) (by decide)
  exact ⟨by decide, (nonceOrder_iff (by decide)).mpr hkeeps⟩

theorem ranged_risingPrices : ∃ s, risingPrices.foldlM step (new plainCodec) = some s ∧
    ∀ addr, s.collect.Ranged addr := by
  have hlowest : Along step RemovesLowest (new plainCodec) risingPrices :=
    along_of_check (fun _ _ => of_decide_eq_true) (by decide)
  exact ⟨_, rfl, run_ranged hlowest rfl⟩

def samePrice : List (CollectEvent plainCodec) :=
  arrives (.plain 1 1 1 0 100) ++ arrives (.plain 1 2 1 1 100)

def removeMiddle : List (CollectEvent plainCodec) :=
  arrives (.plain 1 1 1 0 100) ++ arrives (.plain 1 2 2 0 100) ++ arrives (.plain 1 3 3 0 100) ++
    [.removeTx ((plainTx 1 2 2).TxID plainCodec)]

/-- The picks have the nonces 2, 1 and the nonces 1, 3. -/
theorem nonceOrder_fails_on_time_and_removal :
    (∃ s, samePrice.foldlM step (new plainCodec) = some s ∧
      s.collect.pickedNonces 1000 (-1) [1] = [2, 1] ∧ ¬ s.collect.NonceOrdered) ∧
    ∃ s, removeMiddle.foldlM step (new plainCodec) = some s ∧
      s.collect.pickedNonces 1000 (-1) [1] = [1, 3] ∧ ¬ s.collect.NonceOrdered := by
  have hnot : ∀ {c : CollectTxs plainCodec} {m n : Nat}, c.pickedNonces 1000 (-1) [1] = [m, n] →
      n ≠ m + 1 → c.pickedNonces 1000 (-1) [1] = [m, n] ∧ ¬ c.NonceOrdered := by
    intro c m n hpicked hgap
    refine ⟨hpicked, fun hordered => ?_⟩
    obtain ⟨m', hrange, _⟩ := hordered 1000 (-1) [1]
    rw [hpicked] at hrange
    simp [range'] at hrange
    omega
  exact ⟨⟨_, rfl, hnot rfl (by decide)⟩, _, rfl, hnot rfl (by decide)⟩

end Runs

end CollectSystem

end Order

end Topia.TransactionPool
