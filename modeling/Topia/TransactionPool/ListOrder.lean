import Mathlib.Data.List.Induction
import Topia.TransactionPool.SortedTxs

/-!
# The orders of the sorted lists

Any sequence of `addTx` and `removeTx` on one `sortedTxList`. `addTx` inserts in front of the first
transaction that is less than the new one, so that the first one of the order comes last.

The orders by height and by time compare one number. In the order of prices two transactions of one
height are each less than the other when the cheaper one is older.
-/

namespace Topia.TransactionPool

open Lib Transaction

variable {T : TxCodec}

structure StrictWeak (S : TxWrapper T → Prop) (lt : TxWrapper T → TxWrapper T → Prop) :
    Prop where
  irrefl : ∀ a, S a → ¬ lt a a
  asymm : ∀ a b, S a → S b → lt a b → ¬ lt b a
  trans : ∀ a b c, S a → S b → S c → lt a b → lt b c → lt a c
  incomp : ∀ a b c, S a → S b → S c → ¬ lt a b ∧ ¬ lt b a → ¬ lt b c ∧ ¬ lt c b →
    ¬ lt a c ∧ ¬ lt c a

def TxWrapper.Lt (sWay : SortWay) (a b : TxWrapper T) : Prop := a.Less sWay b = true

inductive ListCall (T : TxCodec) where
  | addTx (wTx : TxWrapper T)
  | removeTx (txID : TxID)

structure ListRun (T : TxCodec) where
  list : SortedTxList T
  (added removed : List (TxWrapper T))

namespace ListRun

def new (T : TxCodec) (sWay : SortWay) : ListRun T := ⟨.newSortedTxList T sWay, [], []⟩

def call (s : ListRun T) : ListCall T → ListRun T
  | .addTx wTx => ⟨s.list.addTx wTx, wTx :: s.added, s.removed⟩
  | .removeTx txID =>
    ⟨s.list.removeTx txID, s.added, (s.list.getTx txID).toList ++ s.removed⟩

def run (T : TxCodec) (sWay : SortWay) (calls : List (ListCall T)) : ListRun T :=
  calls.foldl call (new T sWay)

def Kept (s : ListRun T) : Prop := s.added.Perm (s.removed ++ s.list.txList)

end ListRun

open TxWrapper List

section Insertion

variable {S : TxWrapper T → Prop} {lt : TxWrapper T → TxWrapper T → Prop} {sWay : SortWay}
  {st : SortedTxList T} {a b c wTx : TxWrapper T}

theorem StrictWeak.cotrans (h : StrictWeak S lt) (ha : S a) (hb : S b) (hc : S c) (hac : lt a c)
    (hab : ¬ lt a b) : lt b c := by
  by_contra hbc
  have hba : ¬ lt b a := fun hlt => hbc (h.trans b a c hb ha hc hlt hac)
  have hcb : ¬ lt c b := fun hlt => hab (h.trans a c b ha hc hb hac hlt)
  exact (h.incomp a b c ha hb hc ⟨hab, hba⟩ ⟨hbc, hcb⟩).1 hac

theorem addTx_sorted (hweak : StrictWeak S (Lt st.sWay)) (hlist : ∀ w ∈ st.txList, S w)
    (hwTx : S wTx) (hsorted : st.txList.Pairwise fun a b => ¬ a.Lt st.sWay b) :
    (st.addTx wTx).txList.Pairwise fun a b => ¬ a.Lt st.sWay b := by
  have hmono : ∀ k l, k ≤ l → l < st.txList.length →
      (st.txList[k]?).any (fun tw => tw.Less st.sWay wTx) = true →
      (st.txList[l]?).any (fun tw => tw.Less st.sWay wTx) = true := by
    intro k l hkl hl hless
    have hk : k < st.txList.length := by omega
    rw [getElem?_eq_getElem hk, Option.any_some] at hless
    rw [getElem?_eq_getElem hl, Option.any_some]
    rcases Nat.eq_or_lt_of_le hkl with rfl | hlt
    · exact hless
    · exact hweak.cotrans (hlist _ (getElem_mem hk)) (hlist _ (getElem_mem hl)) hwTx
        hless (pairwise_iff_getElem.mp hsorted k l hk hl hlt)
  obtain ⟨hbefore, hafter⟩ := search_spec hmono
  change ∀ k < st.index wTx, _ at hbefore
  have hle : st.index wTx ≤ st.txList.length := search_le
  rw [st.addTx_txList, pairwise_append, pairwise_cons]
  refine ⟨hsorted.sublist (take_sublist _ _), ⟨?_, hsorted.sublist (drop_sublist _ _)⟩, ?_⟩
  · intro b hb
    obtain ⟨k, hk, rfl⟩ := mem_drop_iff_getElem.mp hb
    have hless := hafter (st.index wTx + k) (Nat.le_add_right _ _) (by omega)
    rw [getElem?_eq_getElem (by omega), Option.any_some] at hless
    exact hweak.asymm _ _ (hlist _ (getElem_mem _)) hwTx hless
  · intro a ha b hb
    obtain ⟨k, hk, rfl⟩ := mem_take_iff_getElem.mp ha
    rcases mem_cons.mp hb with rfl | hb
    · have hless := hbefore k (by omega)
      rw [getElem?_eq_getElem (by omega), Option.any_some] at hless
      simp [Lt, hless]
    · obtain ⟨l, hl, rfl⟩ := mem_drop_iff_getElem.mp hb
      exact pairwise_iff_getElem.mp hsorted _ _ (by omega) (by omega) (by omega)

end Insertion

open SortedTxList

namespace ListRun

variable {S : TxWrapper T → Prop} {sWay : SortWay} {s : ListRun T} {calls : List (ListCall T)}

theorem kept_call (h : s.Kept) (c : ListCall T) : (s.call c).Kept := by
  cases c with
  | addTx wTx =>
    refine (h.cons wTx).trans ?_
    exact perm_middle.symm.trans ((addTx_perm s.list wTx).symm.append_left _)
  | removeTx txID =>
    refine h.trans ?_
    show (s.removed ++ s.list.txList).Perm
      (((s.list.getTx txID).toList ++ s.removed) ++ (s.list.removeTx txID).txList)
    cases hget : s.list.getTx txID with
    | none =>
      rw [removeTx_of_getTx_none hget]
      rfl
    | some wTx =>
      exact ((removeTx_perm hget).append_left _).trans perm_middle

theorem kept_of_run (T : TxCodec) (sWay : SortWay) (calls : List (ListCall T)) :
    (run T sWay calls).Kept := by
  induction calls using reverseRecOn with
  | nil => exact Perm.refl _
  | append_singleton calls c ih =>
    rw [run, foldl_concat]
    exact kept_call ih c

theorem sorted_of_run (hweak : StrictWeak S (Lt sWay))
    (hadds : ∀ wTx, .addTx wTx ∈ calls → S wTx) :
    (run T sWay calls).list.sWay = sWay ∧ (∀ w ∈ (run T sWay calls).list.txList, S w) ∧
      (run T sWay calls).list.txList.Pairwise fun a b => ¬ a.Lt sWay b := by
  induction calls using reverseRecOn with
  | nil => exact ⟨rfl, by simp [run, new, newSortedTxList], Pairwise.nil⟩
  | append_singleton calls c ih =>
    obtain ⟨hway, hlist, hsorted⟩ :=
      ih fun wTx hwTx => hadds wTx (mem_append_left _ hwTx)
    rw [run, foldl_concat]
    change ((run T sWay calls).call c).list.sWay = _ ∧
      (∀ w ∈ ((run T sWay calls).call c).list.txList, S w) ∧
      ((run T sWay calls).call c).list.txList.Pairwise _
    generalize run T sWay calls = s at hway hlist hsorted
    subst hway
    cases c with
    | addTx wTx =>
      have hwTx : S wTx := hadds wTx (by simp)
      refine ⟨rfl, ?_, addTx_sorted hweak hlist hwTx hsorted⟩
      intro w hw
      rcases mem_addTx.mp hw with rfl | hw
      · exact hwTx
      · exact hlist w hw
    | removeTx txID =>
      have hsub : (s.list.removeTx txID).txList.Sublist s.list.txList := eraseP_sublist
      exact ⟨rfl, fun w hw => hlist w (hsub.subset hw), hsorted.sublist hsub⟩

/-- **The lists by height and by time.** After all calls, each holds what was added and not removed,
from the highest, or the latest, down. -/
theorem heightTime_of_run (T : TxCodec) (calls : List (ListCall T)) :
    ((run T .height calls).Kept ∧
      (run T .height calls).list.txList.Pairwise fun a b => b.height ≤ a.height) ∧
    ((run T .time calls).Kept ∧
      (run T .time calls).list.txList.Pairwise fun a b => b.timeStamp ≤ a.timeStamp) := by
  have hheight : StrictWeak (fun _ => True) (Lt (T := T) .height) := by
    constructor <;> simp only [Lt, Less, decide_eq_true_eq] <;> omega
  have htime : StrictWeak (fun _ => True) (Lt (T := T) .time) := by
    constructor <;> simp only [Lt, Less, decide_eq_true_eq] <;> omega
  refine ⟨⟨kept_of_run T .height calls, ?_⟩, ⟨kept_of_run T .time calls, ?_⟩⟩
  · refine (sorted_of_run hheight fun _ _ => trivial).2.2.imp fun {a b} hab => ?_
    simpa [Lt, Less] using hab
  · refine (sorted_of_run htime fun _ _ => trivial).2.2.imp fun {a b} hab => ?_
    simpa [Lt, Less] using hab

end ListRun

section Prices

variable {S : TxWrapper T → Prop} {a b : TxWrapper T}

def TxWrapper.Better (a b : TxWrapper T) : Prop :=
  b.gasPrice < a.gasPrice ∨ a.gasPrice = b.gasPrice ∧
    (a.height < b.height ∨ a.height = b.height ∧ a.timeStamp < b.timeStamp)

def TxWrapper.Clash (a b : TxWrapper T) : Prop :=
  a.height = b.height ∧ a.timeStamp < b.timeStamp ∧ a.gasPrice < b.gasPrice

open ListRun

/-- What is expected of the order of prices on some transactions and of their lists. -/
structure PriceOrder (S : TxWrapper T → Prop) : Prop where
  weak : StrictWeak S (Lt .misc)
  agrees : ∀ a b, S a → S b → (a.Lt .misc b ↔ a.Better b)
  kept : ∀ calls, (∀ wTx, .addTx wTx ∈ calls → S wTx) → (run T .misc calls).Kept
  bestFirst : ∀ calls, (∀ wTx, .addTx wTx ∈ calls → S wTx) →
    (run T .misc calls).list.txList.Pairwise fun a b => ¬ b.Better a

theorem lt_misc_iff : a.Lt .misc b ↔ a.Better b ∨ a.Clash b := by
  unfold Lt Less lessMisc Better Clash
  split_ifs <;> simp only [true_iff, false_iff] <;> omega

theorem strictWeak_misc_iff :
    StrictWeak S (Lt .misc) ↔ ∀ a b, S a → S b → ¬ a.Clash b := by
  constructor
  · intro h a b ha hb hclash
    have hba : b.Better a := .inl hclash.2.2
    exact h.asymm a b ha hb (lt_misc_iff.mpr (.inr hclash)) (lt_misc_iff.mpr (.inl hba))
  intro h
  have hiff : ∀ a b, S a → S b → (a.Lt .misc b ↔ a.Better b) := fun a b ha hb =>
    lt_misc_iff.trans (or_iff_left (h a b ha hb))
  constructor
  · intro a ha
    rw [hiff a a ha ha]
    unfold Better
    omega
  · intro a b ha hb
    rw [hiff a b ha hb, hiff b a hb ha]
    unfold Better
    omega
  · intro a b c ha hb hc
    rw [hiff a b ha hb, hiff b c hb hc, hiff a c ha hc]
    unfold Better
    omega
  · intro a b c ha hb hc
    rw [hiff a b ha hb, hiff b a hb ha, hiff b c hb hc, hiff c b hc hb, hiff a c ha hc,
      hiff c a hc ha]
    unfold Better
    omega

/-- **When the order of prices is right.** On every set of transactions it is a strict weak order
exactly when no two clash; and the lists have the best first exactly when price, height and time are
the same for all. -/
theorem priceOrder_iff (S : TxWrapper T → Prop) :
    (StrictWeak S (Lt .misc) ↔ ∀ a b, S a → S b → ¬ a.Clash b) ∧
    (PriceOrder S ↔ ∀ a b, S a → S b →
      a.gasPrice = b.gasPrice ∧ a.height = b.height ∧ a.timeStamp = b.timeStamp) := by
  refine ⟨strictWeak_misc_iff, ?_, ?_⟩
  · intro h a b ha hb
    have hnot : ∀ a b, S a → S b → ¬ b.Better a := by
      intro a b ha hb hbetter
      -- the better one is added second and stays there
      have hlt : ¬ a.Lt .misc b := fun hlt =>
        h.weak.asymm b a hb ha ((h.agrees b a hb ha).mpr hbetter) hlt
      have hlist : (run T .misc [.addTx a, .addTx b]).list.txList = [a, b] := by
        have hless : a.Less .misc b = false := by simpa [Lt] using hlt
        simp [run, call, new, newSortedTxList, addTx, index, search, searchLoop, hless]
      have hsorted := h.bestFirst [.addTx a, .addTx b] (by simp [ha, hb])
      rw [hlist] at hsorted
      exact (pairwise_cons.mp hsorted).1 b mem_cons_self hbetter
    have hab := hnot a b ha hb
    have hba := hnot b a hb ha
    unfold Better at hab hba
    omega
  · intro hsame
    have hnot : ∀ a b, S a → S b → ¬ a.Better b := by
      intro a b ha hb
      have := hsame a b ha hb
      unfold Better
      omega
    have hclash : ∀ a b, S a → S b → ¬ a.Clash b := by
      intro a b ha hb
      have := hsame a b ha hb
      unfold Clash
      omega
    have hweak := strictWeak_misc_iff.mpr hclash
    refine ⟨hweak, fun a b ha hb => lt_misc_iff.trans (or_iff_left (hclash a b ha hb)),
      fun calls _ => kept_of_run T .misc calls, fun calls hcalls => ?_⟩
    obtain ⟨_, hlist, hsorted⟩ := sorted_of_run hweak hcalls
    exact hsorted.imp_of_mem fun ha hb _ => hnot _ _ (hlist _ hb) (hlist _ ha)

/-- At one height with the cheaper one older, each is less than the other; and of two prices the
lower comes first. -/
theorem price_order_fails :
    (plain 1 1 1 0 5).Less .misc (.plain 2 1 2 1 5) = true ∧
      (plain 2 1 2 1 5).Less .misc (.plain 1 1 1 0 5) = true ∧
      ((run plainCodec .misc [.addTx (.plain 1 1 1 0 5), .addTx (.plain 2 1 2 0 5)]).list.txList.map
          gasPrice) = [1, 2] := by
  decide

end Prices

section Picks

variable {blockMaxBytes : Int}

variable (totalSize : Nat) (l : List (TxWrapper T)) (gas : Transaction → Nat)

/-- Within the limits of a block; `-1` is no limit of the gas. -/
def Fits (blockMaxBytes blockMaxGas : Int) (txs : List Transaction) : Prop :=
  ((txs.map Transaction.Size).sum : Int) ≤ blockMaxBytes ∧
    (blockMaxGas ≠ -1 → ((txs.map gas).sum : Int) ≤ blockMaxGas)

/-- The longest prefix within the limits, or nothing when not even the empty one is. -/
structure LongestFitting (blockMaxBytes blockMaxGas : Int) (l txs : List Transaction) : Prop where
  isPrefix : txs <+: l
  fits : txs = [] ∨ Fits gas blockMaxBytes blockMaxGas txs
  longest : ∀ p, p <+: l → Fits gas blockMaxBytes blockMaxGas p → p <+: txs

theorem pickLoop_fits :
    pickLoop blockMaxBytes totalSize l = [] ∨
      (totalSize + ((pickLoop blockMaxBytes totalSize l).map
        Transaction.Size).sum : Int) ≤ blockMaxBytes := by
  induction l generalizing totalSize with
  | nil => exact .inl rfl
  | cons wTx l ih =>
    rw [pickLoop]
    split_ifs with hfull
    · exact .inl rfl
    right
    have hsize : wTx.Size = wTx.orginTx.Size := rfl
    rw [map_cons, sum_cons]
    rcases ih (totalSize + wTx.Size) with hnil | hfits
    · rw [hnil]
      simp only [map_nil, sum_nil]
      omega
    · omega

theorem prefix_pickLoop :
    ∀ p, p <+: l.map orginTx →
      (totalSize + (p.map Transaction.Size).sum : Int) ≤ blockMaxBytes →
      p <+: pickLoop blockMaxBytes totalSize l := by
  induction l generalizing totalSize with
  | nil => exact fun p hp _ => hp
  | cons wTx l ih =>
    intro p hp hfits
    cases p with
    | nil => exact nil_prefix
    | cons tx p =>
      obtain ⟨rfl, hrest⟩ := cons_prefix_cons.mp hp
      have hsize : wTx.Size = wTx.orginTx.Size := rfl
      rw [map_cons, sum_cons] at hfits
      rw [pickLoop, if_neg (by omega)]
      exact cons_prefix_cons.mpr ⟨rfl, ih _ p hrest (by omega)⟩

/-- **When a pick keeps the limits.** A pick is the longest prefix within the limits exactly when
there is no limit of the gas, or what fits by size is always within it. -/
theorem pickTxs_longest_iff (st : SortedTxList T) (gas : Transaction → Nat)
    (blockMaxBytes blockMaxGas : Int) :
    LongestFitting gas blockMaxBytes blockMaxGas (st.txList.map orginTx)
        (st.pickTxs blockMaxBytes blockMaxGas) ↔
      blockMaxGas = -1 ∨ ∀ p, p <+: st.txList.map orginTx → p ≠ [] →
        ((p.map Transaction.Size).sum : Int) ≤ blockMaxBytes →
        ((p.map gas).sum : Int) ≤ blockMaxGas := by
  have hlongest : ∀ p, p <+: st.txList.map orginTx →
      ((p.map Transaction.Size).sum : Int) ≤ blockMaxBytes →
      p <+: st.pickTxs blockMaxBytes blockMaxGas :=
    fun p hp hsize => prefix_pickLoop 0 st.txList p hp (by simpa using hsize)
  constructor
  · intro h
    refine or_iff_not_imp_left.mpr fun hgas p hp hne hsize => ?_
    obtain ⟨rest, hpick⟩ := hlongest p hp hsize
    rcases h.fits with hnil | hfits
    · simp [hnil, hne] at hpick
    · have hsum := hfits.2 hgas
      rw [← hpick, map_append, sum_append] at hsum
      omega
  intro h
  refine ⟨st.pickTxs_prefix _ _, ?_, fun p hp hfits => hlongest p hp hfits.1⟩
  by_cases hnil : st.pickTxs blockMaxBytes blockMaxGas = []
  · exact .inl hnil
  have hsize := (pickLoop_fits 0 st.txList).resolve_left hnil
  rw [Int.natCast_zero, zero_add] at hsize
  exact .inr ⟨hsize, fun hgas => h.resolve_left hgas _ (st.pickTxs_prefix _ _) hnil hsize⟩

/-- With a limit of no gas, a transaction of one unit is picked. -/
theorem pick_ignores_gas :
    pickTxs ⟨.misc, [.plain 1 1 1 0 5]⟩ 1000 0 = [plainTx 1 1 1] ∧
      ¬ Fits (fun _ => 1) 1000 0 [plainTx 1 1 1] := by
  refine ⟨by decide, fun h => ?_⟩
  exact absurd (h.2 (by decide)) (by decide)

end Picks

end Topia.TransactionPool
