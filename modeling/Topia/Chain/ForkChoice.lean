import Mathlib.Algebra.Field.Rat
import Mathlib.Data.List.MinMax
import Mathlib.Data.List.Nodup
import Topia.Chain.Types
import Topia.Lib.LinkedLists
import Topia.Lib.Loop

/-!
# The choice between forks

`chain/fork_choice.go`. `BlockHeadChoice` takes the head of the greater priority; it compares the
height of its first argument with itself, and keeps that argument at equal priorities.
`FindAncestor` goes through two chains from their ends and answers only where the hashes differ.
`ChainChoiceAfterAncestor` takes the chain of the greater weight after it, and does not count its
rounds.
-/

namespace Topia.Chain

open Lib List

inductive ForkError where
  | notSameHeight (bh1 bh2 : Nat)
deriving DecidableEq, Repr

open List

section Heads

def BlockHead.priority (bh : BlockHead) : Nat :=
  setBytes bh.MaxPri

/-- `BlockHeadChoice`; the height of `bh2` is not compared. -/
def BlockHeadChoice (bh1 bh2 : BlockHead) : Except ForkError BlockHead :=
  if bh1.Height ≠ bh1.Height then .error (.notSameHeight bh1.Height bh2.Height)
  else
    match compare bh1.priority bh2.priority with
    | .lt => .ok bh2
    | .gt => .ok bh1
    | .eq => .ok bh1

def chooseHead : List BlockHead → Option (Except ForkError BlockHead)
  | [] => none
  | first :: rest => some (rest.foldlM BlockHeadChoice first)

/-- The same choice in both orders, and an error exactly for different heights. -/
structure HeadsAgree (bh1 bh2 : BlockHead) : Prop where
  same : BlockHeadChoice bh1 bh2 = BlockHeadChoice bh2 bh1
  error : (BlockHeadChoice bh1 bh2).toOption = none ↔ bh1.Height ≠ bh2.Height

variable {bh1 bh2 best : BlockHead} {heads : List BlockHead}

theorem BlockHeadChoice_eq (bh1 bh2 : BlockHead) :
    BlockHeadChoice bh1 bh2 = .ok (if bh1.priority < bh2.priority then bh2 else bh1) := by
  rw [BlockHeadChoice, if_neg (not_not.mpr rfl)]
  cases hcmp : compare bh1.priority bh2.priority with
  | lt => rw [if_pos (compare_lt_iff_lt.mp hcmp)]
  | eq => rw [if_neg (compare_eq_iff_eq.mp hcmp).not_lt]
  | gt => rw [if_neg (compare_gt_iff_gt.mp hcmp).not_gt]

theorem headsAgree_iff :
    HeadsAgree bh1 bh2 ↔ bh1.Height = bh2.Height ∧ (bh1.priority = bh2.priority → bh1 = bh2) := by
  have herror : (BlockHeadChoice bh1 bh2).toOption ≠ none := by
    rw [BlockHeadChoice_eq]
    exact Option.some_ne_none _
  constructor
  · rintro ⟨hsame, hheight⟩
    refine ⟨not_not.mp fun hne => herror (hheight.mpr hne), ?_⟩
    intro hpriority
    rw [BlockHeadChoice_eq, BlockHeadChoice_eq, hpriority, if_neg (lt_irrefl _),
      if_neg (lt_irrefl _)] at hsame
    exact Except.ok.inj hsame
  · rintro ⟨hheight, hunique⟩
    refine ⟨?_, iff_of_false herror (not_not.mpr hheight)⟩
    rw [BlockHeadChoice_eq, BlockHeadChoice_eq]
    rcases lt_trichotomy bh1.priority bh2.priority with hlt | heq | hgt
    · rw [if_pos hlt, if_neg hlt.not_gt]
    · rw [hunique heq]
    · rw [if_neg hgt.not_gt, if_pos hgt]

open BlockHead

theorem chooseHead_eq (heads : List BlockHead) :
    chooseHead heads = (heads.argmax priority).map .ok := by
  cases heads with
  | nil => rfl
  | cons first rest =>
    have hfold : ∀ (rest : List BlockHead) (first : BlockHead),
        some (rest.foldlM BlockHeadChoice first) =
          (rest.foldl (argAux fun b c => priority c < b.priority)
            (some first)).map (.ok : BlockHead → Except ForkError BlockHead) := by
      intro rest
      induction rest with
      | nil => exact fun first => rfl
      | cons next rest ih =>
        intro first
        rw [foldlM_cons, BlockHeadChoice_eq, foldl_cons]
        split_ifs with hlt
        · rw [show argAux (fun b c => priority c < b.priority) (some first) next =
            some next from if_pos hlt]
          exact ih next
        · rw [show argAux (fun b c => priority c < b.priority) (some first) next =
            some first from if_neg hlt]
          exact ih first
    exact hfold rest first

theorem chooseHead_eq_some_iff :
    chooseHead heads = some (.ok best) ↔
      best ∈ heads ∧ (∀ bh ∈ heads, bh.priority ≤ best.priority) ∧
        ∀ bh ∈ heads, best.priority ≤ bh.priority → heads.idxOf best ≤ heads.idxOf bh := by
  rw [chooseHead_eq, ← argmax_eq_some_iff]
  simp

def OneGreatest (heads : List BlockHead) : Prop :=
  ∀ bh1 ∈ heads, ∀ bh2 ∈ heads, (∀ bh ∈ heads, bh.priority ≤ bh1.priority) →
    (∀ bh ∈ heads, bh.priority ≤ bh2.priority) → bh1 = bh2

theorem chooseHead_perm_iff :
    (∀ heads', heads' ~ heads → chooseHead heads' = chooseHead heads) ↔ OneGreatest heads := by
  constructor
  · intro hsame bh1 hbh1 bh2 hbh2 hbest1 hbest2
    have hfirst : ∀ bh ∈ heads, (∀ other ∈ heads, other.priority ≤ bh.priority) →
        chooseHead heads = some (.ok bh) := by
      intro bh hbh hbest
      obtain ⟨before, after, rfl⟩ := append_of_mem hbh
      have hperm : bh :: (before ++ after) ~ before ++ bh :: after := perm_middle.symm
      rw [← hsame _ hperm, chooseHead_eq_some_iff]
      refine ⟨mem_cons_self, fun other hother => hbest other (hperm.mem_iff.mp hother), ?_⟩
      intro other _ _
      rw [idxOf_cons_self]
      exact Nat.zero_le _
    have heq := (hfirst bh1 hbh1 hbest1).symm.trans (hfirst bh2 hbh2 hbest2)
    exact Except.ok.inj (Option.some.inj heq)
  · intro hunique heads' hperm
    rw [chooseHead_eq, chooseHead_eq]
    refine congrArg _ ?_
    cases hbest : heads.argmax priority with
    | none =>
      rw [argmax_eq_none] at hbest
      rw [argmax_eq_none, ← perm_nil, ← hbest]
      exact hperm
    | some best =>
      cases hbest' : heads'.argmax priority with
      | none =>
        rw [argmax_eq_none] at hbest'
        rw [hbest', nil_perm] at hperm
        rw [hperm] at hbest
        cases hbest
      | some best' =>
        refine congrArg some (hunique best' (hperm.mem_iff.mp (argmax_mem hbest')) best
          (argmax_mem hbest) ?_ fun bh hbh => le_of_mem_argmax hbh hbest)
        exact fun bh hbh => le_of_mem_argmax (hperm.mem_iff.mpr hbh) hbest'

/-- **When the choice between heads does not depend on the order**: for two heads when heights agree
and priorities do not; for a list when one head has the greatest priority. -/
theorem blockHeadChoice_iff (bh1 bh2 : BlockHead) (heads : List BlockHead) :
    (HeadsAgree bh1 bh2 ↔ bh1.Height = bh2.Height ∧ (bh1.priority = bh2.priority → bh1 = bh2)) ∧
    ((∀ heads', heads' ~ heads → chooseHead heads' = chooseHead heads) ↔ OneGreatest heads) :=
  ⟨headsAgree_iff, chooseHead_perm_iff⟩

def plainHead (height : Nat) (proposer parent maxPri : Bytes) : BlockHead :=
  { emptyHead height with
    ParentBlockHash := some parent, Proposer := some proposer, MaxPri := maxPri }

/-- Of two heads of one priority the first is chosen; different heights are no error. -/
theorem blockHeadChoice_of_first :
    chooseHead [plainHead 1 [1] [] [5], plainHead 1 [2] [] [5]] =
        some (.ok (plainHead 1 [1] [] [5])) ∧
      chooseHead [plainHead 1 [2] [] [5], plainHead 1 [1] [] [5]] =
        some (.ok (plainHead 1 [2] [] [5])) ∧
      plainHead 1 [1] [] [5] ≠ plainHead 1 [2] [] [5] ∧
      BlockHeadChoice (plainHead 1 [1] [] [5]) (plainHead 2 [2] [] [6]) =
        .ok (plainHead 2 [2] [] [6]) := by
  decide

end Heads

section Ancestor

inductive ChainOrder where
  | newestFirst
  | oldestFirst
deriving DecidableEq, Repr

/-- The loop of `FindAncestor` from the numbers `i + 1` and `j + 1`. -/
def ancestorLoop (HashBytes : Block → Bytes) (chain1 chain2 : List Block) :
    Nat → Nat → Option Block
  | i + 1, j + 1 =>
    if chain1[i]?.map HashBytes = chain2[j]?.map HashBytes then
      ancestorLoop HashBytes chain1 chain2 i j
    else if i < chain1.length - 1 then chain1[i + 1]?
    else none
  | _, _ => none

variable (HashBytes : Block → Bytes) (order : ChainOrder) (chain1 chain : List Block)

def FindAncestor (chain2 : List Block) : Option Block :=
  if chain1.length = 0 ∨ chain2.length = 0 then none
  else ancestorLoop HashBytes chain1 chain2 chain1.length chain2.length

def ChainOrder.newest : List Block :=
  match order with
  | .newestFirst => chain
  | .oldestFirst => chain.reverse

/-- Every block names the hash of the one before, and the hashes are distinct. -/
structure HashLinked : Prop where
  links : (order.newest chain).IsChain fun block parent =>
    block.Head.ParentBlockHash = some (HashBytes parent)
  distinct : (chain.map HashBytes).Nodup

def newestCommon (chain2 : List Block) : Option Block :=
  (order.newest chain1).find? (· ∈ chain2)

/-- Both lists are linked, without a collision, from the same oldest block. -/
structure SameStart (chain2 : List Block) : Prop where
  linked1 : HashLinked HashBytes order chain1
  linked2 : HashLinked HashBytes order chain2
  injective : ∀ a ∈ chain1, ∀ b ∈ chain2, HashBytes a = HashBytes b → a = b
  oldest : ∃ block, (order.newest chain1).getLast? = some block ∧
    (order.newest chain2).getLast? = some block

variable {HashBytes : Block → Bytes} {order : ChainOrder} {chain1 chain2 p1 p2 s : List Block}

theorem ancestorLoop_suffix {k : Nat} (hk : k ≤ s.length) :
    ancestorLoop HashBytes (p1 ++ s) (p2 ++ s) (p1.length + k) (p2.length + k) =
      ancestorLoop HashBytes (p1 ++ s) (p2 ++ s) p1.length p2.length := by
  induction k with
  | zero => rfl
  | succ k ih =>
    have hget : ∀ p, (p ++ s)[p.length + k]? = s[k]? := by
      intro p
      rw [getElem?_append_right (Nat.le_add_right _ _), Nat.add_sub_cancel_left]
    rw [← Nat.add_assoc, ← Nat.add_assoc, ancestorLoop, if_pos (by rw [hget, hget]),
      ih (Nat.le_of_succ_le hk)]

theorem ancestorLoop_apart (hapart : EndApart HashBytes p1 p2) :
    ancestorLoop HashBytes (p1 ++ s) (p2 ++ s) p1.length p2.length =
      if p1 = [] ∨ p2 = [] then none else s.head? := by
  cases p1 using reverseRecOn with
  | nil => simp [ancestorLoop]
  | append_singleton p1 a =>
    cases p2 using reverseRecOn with
    | nil => simp [ancestorLoop]
    | append_singleton p2 b =>
      have hne : HashBytes a ≠ HashBytes b := hapart a (by simp) b (by simp)
      cases s with
      | nil => simp [ancestorLoop, hne]
      | cons block s => simp [ancestorLoop, hne]

theorem FindAncestor_of_longest (hapart : EndApart HashBytes p1 p2) :
    FindAncestor HashBytes (p1 ++ s) (p2 ++ s) =
      if p1 = [] ∨ p2 = [] then none else s.head? := by
  have hloop : ancestorLoop HashBytes (p1 ++ s) (p2 ++ s) (p1 ++ s).length (p2 ++ s).length =
      if p1 = [] ∨ p2 = [] then none else s.head? := by
    rw [length_append, length_append, ancestorLoop_suffix le_rfl, ancestorLoop_apart hapart]
  unfold FindAncestor
  split_ifs with hempty hparts hparts
  · rfl
  · simp only [length_eq_zero_iff, append_eq_nil_iff] at hempty
    tauto
  · rw [hloop, if_pos hparts]
  · rw [hloop, if_neg hparts]

theorem FindAncestor_of_disjoint (hnone : ∀ a ∈ chain1, ∀ b ∈ chain2, HashBytes a ≠ HashBytes b) :
    FindAncestor HashBytes chain1 chain2 = none := by
  have hapart : EndApart HashBytes chain1 chain2 := by
    intro a ha b hb
    exact hnone a (mem_of_getLast? ha) b (mem_of_getLast? hb)
  have hfind := FindAncestor_of_longest (s := []) hapart
  rw [append_nil, append_nil] at hfind
  rw [hfind, head?_nil, ite_self]

theorem SameStart.next (h : SameStart HashBytes order chain1 chain2) (block : Block) :
    ∀ a ∈ chain1, ∀ b ∈ chain2, block.Head.ParentBlockHash = some (HashBytes a) →
      block.Head.ParentBlockHash = some (HashBytes b) → a = b := by
  intro a ha b hb hlink1 hlink2
  exact h.injective a ha b hb (Option.some.inj (hlink1.symm.trans hlink2))

section Longest

variable (h : SameStart HashBytes .newestFirst (p1 ++ s) (p2 ++ s))
  (hapart : EndApart HashBytes p1 p2)
include h hapart

theorem newestCommon_of_longest : newestCommon .newestFirst (p1 ++ s) (p2 ++ s) = s.head? := by
  obtain ⟨oldest, hlast1, hlast2⟩ := h.oldest
  have hfront := not_mem_of_longest h.next h.linked1.links h.linked2.links
    (.of_map _ h.linked1.distinct) (.of_map _ h.linked2.distinct) (hlast1.trans hlast2.symm)
    hapart
  have hskip : p1.find? (· ∈ p2 ++ s) = none := by
    rw [find?_eq_none]
    intro x hx hmem
    exact hfront x hx (of_decide_eq_true hmem)
  show (p1 ++ s).find? (· ∈ p2 ++ s) = s.head?
  rw [find?_append, hskip, Option.none_or]
  cases s with
  | nil => rfl
  | cons block s => simp

theorem SameStart.suffix_ne_nil : s ≠ [] := by
  rintro rfl
  obtain ⟨oldest, hlast1, hlast2⟩ := h.oldest
  simp only [ChainOrder.newest, append_nil] at hlast1 hlast2
  exact hapart oldest hlast1 oldest hlast2 rfl

end Longest

theorem findAncestor_newestFirst_iff (h : SameStart HashBytes .newestFirst chain1 chain2) :
    FindAncestor HashBytes chain1 chain2 = newestCommon .newestFirst chain1 chain2 ↔
      ¬ chain1 <:+ chain2 ∧ ¬ chain2 <:+ chain1 := by
  obtain ⟨p1, p2, s, rfl, rfl, hapart⟩ := exists_longest_suffix chain1 chain2 h.injective
  rw [FindAncestor_of_longest hapart, newestCommon_of_longest h hapart,
    suffix_iff_of_apart hapart, suffix_iff_of_apart (endApart_comm hapart), ← not_or]
  constructor
  · intro heq hnil
    rw [if_pos hnil, eq_comm, head?_eq_none_iff] at heq
    exact h.suffix_ne_nil hapart heq
  · intro hnil
    rw [if_neg hnil]

theorem FindAncestor_oldestFirst (h : SameStart HashBytes .oldestFirst chain1 chain2) :
    FindAncestor HashBytes chain1 chain2 = none := by
  obtain ⟨p1, p2, s, rfl, rfl, hapart⟩ := exists_longest_suffix chain1 chain2 h.injective
  rw [FindAncestor_of_longest hapart]
  split_ifs with hnil
  · rfl
  cases s using reverseRecOn with
  | nil => rfl
  | append_singleton s newest =>
    -- the newest blocks are the same, and so is the way from them to the oldest one
    exfalso
    obtain ⟨oldest, hlast1, hlast2⟩ := h.oldest
    have hlinks1 := h.linked1.links
    have hlinks2 := h.linked2.links
    have hnodup1 := nodup_reverse.mpr (.of_map _ h.linked1.distinct)
    have hnodup2 := nodup_reverse.mpr (.of_map _ h.linked2.distinct)
    have hreverse : ∀ p, (p ++ (s ++ [newest])).reverse =
        newest :: (p ++ s).reverse := by
      intro p
      rw [← append_assoc, reverse_append, reverse_singleton, singleton_append]
    simp only [ChainOrder.newest, hreverse] at hlast1 hlast2 hlinks1 hlinks2
    rw [hreverse] at hnodup1 hnodup2
    have hmem : ∀ p a, a ∈ (p ++ s).reverse →
        a ∈ p ++ (s ++ [newest]) := by
      intro p a ha
      rw [← append_assoc]
      exact mem_append_left _ (mem_reverse.mp ha)
    have hway := tail_eq_of_linked (fun block a ha b hb =>
      h.next block a (hmem p1 a ha) b (hmem p2 b hb)) hlinks1 hlinks2 hnodup1 hnodup2
      (hlast1.trans hlast2.symm)
    have hparts : p1 = p2 := append_cancel_right (reverse_injective hway)
    rw [hparts] at hapart hnil
    exact hnil (.inl (eq_nil_of_suffix hapart suffix_rfl))

theorem newestCommon_isSome (h : SameStart HashBytes order chain1 chain2) :
    (newestCommon order chain1 chain2).isSome := by
  obtain ⟨oldest, hlast1, hlast2⟩ := h.oldest
  have hmem2 : oldest ∈ chain2 := by
    have hmem := mem_of_getLast? hlast2
    cases order with
    | newestFirst => exact hmem
    | oldestFirst => exact mem_reverse.mp hmem
  rw [newestCommon, find?_isSome]
  exact ⟨oldest, mem_of_getLast? hlast1, decide_eq_true hmem2⟩

/-- **When the ancestor is found.** For two linked lists with the same oldest block: exactly when
the newest blocks are first and neither list ends with the other. Without a common block there is
none. -/
theorem findAncestor_iff (HashBytes : Block → Bytes) (chain1 chain2 : List Block) :
    (∀ order, SameStart HashBytes order chain1 chain2 →
      (FindAncestor HashBytes chain1 chain2 = newestCommon order chain1 chain2 ↔
        order = .newestFirst ∧ ¬ chain1 <:+ chain2 ∧ ¬ chain2 <:+ chain1)) ∧
    ((∀ a ∈ chain1, ∀ b ∈ chain2, HashBytes a ≠ HashBytes b) →
      FindAncestor HashBytes chain1 chain2 = none) := by
  refine ⟨?_, FindAncestor_of_disjoint⟩
  intro order h
  cases order with
  | newestFirst => simp [findAncestor_newestFirst_iff h]
  | oldestFirst =>
    refine iff_of_false ?_ (by simp)
    rw [FindAncestor_oldestFirst h]
    intro hnone
    have hsome := newestCommon_isSome h
    rw [← hnone] at hsome
    cases hsome

def heightHash (block : Block) : Bytes :=
  [UInt8.ofNat block.Head.Height]

def threeBlocks : List Block :=
  [⟨plainHead 3 [1] [2] [], []⟩, ⟨plainHead 2 [1] [1] [], []⟩, ⟨plainHead 1 [1] [0] [], []⟩]

/-- A chain and its extension have no ancestor, nor a chain and itself. -/
theorem findAncestor_fails_on_extension :
    SameStart heightHash .newestFirst threeBlocks.tail threeBlocks ∧
      newestCommon .newestFirst threeBlocks.tail threeBlocks = some ⟨plainHead 2 [1] [1] [], []⟩ ∧
      FindAncestor heightHash threeBlocks.tail threeBlocks = none ∧
      FindAncestor heightHash threeBlocks threeBlocks.tail = none ∧
      FindAncestor heightHash threeBlocks threeBlocks = none ∧
      FindAncestor heightHash threeBlocks.tail.reverse threeBlocks.reverse = none := by
  refine ⟨⟨⟨by decide, by decide⟩, ⟨by decide, by decide⟩, by decide, ?_⟩, by decide, by decide,
    by decide, by decide, by decide⟩
  exact ⟨⟨plainHead 1 [1] [0] [], []⟩, rfl, rfl⟩

end Ancestor

section Weight

structure WeightLoop where
  i : Nat
  (wTotalRadio1 wTotalRadio2 : ℚ≥0)

variable (out : Option (List Block)) (ratio : Nat → Bytes → Option ℚ≥0) (chain1 chain : List Block)

/-- The ratio of the proposer of block `i` is added; an index out of range and a version without a
state (`NewStateStoreAt`) panic. -/
def addRatio (i : Nat) (wTotalRadio : ℚ≥0) : Option ℚ≥0 := do
  let block ← chain[i]?
  let wRatio ← ratio block.Head.Height (block.Head.Proposer.getD [])
  return wTotalRadio + wRatio

def weightRound (chain2 : List Block) (s : WeightLoop) : WeightLoop ⊕ Option (List Block) :=
  let maxLen := if chain1.length < chain2.length then chain2.length else chain1.length
  if s.i < maxLen then
    match if s.i ≤ chain1.length then addRatio ratio chain1 s.i s.wTotalRadio1
        else some s.wTotalRadio1 with
    | none => .inr none
    | some wTotalRadio1 =>
      match if s.i < chain2.length then addRatio ratio chain2 s.i s.wTotalRadio2
          else some s.wTotalRadio2 with
      | none => .inr none
      | some wTotalRadio2 =>
        .inl { s with wTotalRadio1 := wTotalRadio1, wTotalRadio2 := wTotalRadio2 }
  else .inr (some (if s.wTotalRadio1 < s.wTotalRadio2 then chain2 else chain1))

def ChainChoiceAfterAncestor (chain2 : List Block) (n : Nat) : Option (Option (List Block)) :=
  if chain1.length = 0 then some (some chain2)
  else if chain2.length = 0 then some (some chain1)
  else rounds (weightRound ratio chain1 chain2) n ⟨0, 0, 0⟩

def Returns (chain2 : List Block) (out : Option (List Block)) : Prop :=
  ∃ n, ChainChoiceAfterAncestor ratio chain1 chain2 n = some out

def blockRatio (block : Block) : Option ℚ≥0 :=
  ratio block.Head.Height (block.Head.Proposer.getD [])

def chainWeight : ℚ≥0 :=
  (chain.map fun block => (blockRatio ratio block).getD 0).sum

/-- In both orders the call returns the same chain, and no chain is heavier. -/
def ChoosesHeavier (chain2 : List Block) : Prop :=
  ∃ out, Returns ratio chain1 chain2 (some out) ∧ Returns ratio chain2 chain1 (some out) ∧
    (out = chain1 ∨ out = chain2) ∧
    chainWeight ratio chain1 ≤ chainWeight ratio out ∧
    chainWeight ratio chain2 ≤ chainWeight ratio out

variable {ratio : Nat → Bytes → Option ℚ≥0} {chain chain1 chain2 : List Block}
  {block1 block2 : Block}

theorem addRatio_zero (total : ℚ≥0) :
    addRatio ratio (block1 :: chain) 0 total = (blockRatio ratio block1).map (total + ·) := by
  unfold addRatio
  cases hratio : blockRatio ratio block1 <;> simp_all [blockRatio]

theorem weightRound_zero {s : WeightLoop} (hi : s.i = 0) :
    weightRound ratio (block1 :: chain1) (block2 :: chain2) s =
      match blockRatio ratio block1, blockRatio ratio block2 with
      | some wRatio1, some wRatio2 =>
        .inl { s with
          wTotalRadio1 := s.wTotalRadio1 + wRatio1
          wTotalRadio2 := s.wTotalRadio2 + wRatio2 }
      | _, _ => .inr none := by
  have hlt : 0 < if (block1 :: chain1).length < (block2 :: chain2).length then
      (block2 :: chain2).length else (block1 :: chain1).length := by
    split_ifs <;> exact Nat.succ_pos _
  have hlt2 : 0 < (block2 :: chain2).length := Nat.succ_pos _
  simp only [weightRound, hi]
  rw [if_pos hlt, if_pos (Nat.zero_le _), if_pos hlt2, addRatio_zero, addRatio_zero]
  cases blockRatio ratio block1 with
  | none => rfl
  | some wRatio1 => cases blockRatio ratio block2 <;> rfl

theorem returns_cons_iff {out : Option (List Block)} :
    Returns ratio (block1 :: chain1) (block2 :: chain2) out ↔
      (blockRatio ratio block1 = none ∨ blockRatio ratio block2 = none) ∧ out = none := by
  show Ends (weightRound ratio (block1 :: chain1) (block2 :: chain2)) ⟨0, 0, 0⟩ out ↔ _
  have hround := @weightRound_zero ratio chain1 chain2 block1 block2
  cases hratio1 : blockRatio ratio block1 with
  | none =>
    simp only [hratio1] at hround
    rw [ends_of_result (hround rfl)]
    simp
  | some wRatio1 =>
    cases hratio2 : blockRatio ratio block2 with
    | none =>
      simp only [hratio1, hratio2] at hround
      rw [ends_of_result (hround rfl)]
      simp
    | some wRatio2 =>
      simp only [hratio1, hratio2] at hround
      refine iff_of_false ?_ (by simp)
      refine not_ends_of_invariant (P := fun s : WeightLoop => s.i = 0) rfl ?_
      intro s hi
      exact ⟨_, hround hi, hi⟩

theorem returns_nil_left : Returns ratio [] chain out ↔ out = some chain := by
  simp [Returns, ChainChoiceAfterAncestor, eq_comm]

theorem returns_nil_right : Returns ratio chain [] out ↔ out = some chain := by
  cases chain with
  | nil => exact returns_nil_left out
  | cons block chain => simp [Returns, ChainChoiceAfterAncestor, eq_comm]

/-- **When the heavier chain is chosen**: exactly when one of the chains is empty. -/
theorem chainChoice_iff (ratio : Nat → Bytes → ℚ≥0) (chain1 chain2 : List Block) :
    ChoosesHeavier (fun height nodeID => some (ratio height nodeID)) chain1 chain2 ↔
      chain1 = [] ∨ chain2 = [] := by
  constructor
  · rintro ⟨out, hreturns, -⟩
    cases chain1 with
    | nil => exact .inl rfl
    | cons block1 chain1 =>
      cases chain2 with
      | nil => exact .inr rfl
      | cons block2 chain2 => cases (returns_cons_iff.mp hreturns).2
  rintro (rfl | rfl)
  · refine ⟨chain2, (returns_nil_left _).mpr rfl, (returns_nil_right _).mpr rfl, .inr rfl, ?_,
      le_rfl⟩
    exact (bot_le : (⊥ : ℚ≥0) ≤ _)
  · refine ⟨chain1, (returns_nil_right _).mpr rfl, (returns_nil_left _).mpr rfl, .inl rfl,
      le_rfl, ?_⟩
    exact (bot_le : (⊥ : ℚ≥0) ≤ _)

/-- Two chains of one block each: the call does not return. -/
theorem chainChoice_never_returns :
    ¬∃ out, Returns (fun _ nodeID => some nodeID.length)
      [⟨plainHead 1 [1] [] [], []⟩] [⟨plainHead 1 [1, 2] [] [], []⟩] out := by
  rintro ⟨out, hreturns⟩
  rw [returns_cons_iff] at hreturns
  simp [blockRatio] at hreturns

end Weight

end Topia.Chain
