import Topia.Lib.Run
import Topia.Common
import Mathlib.Data.List.Forall2
import Mathlib.Data.List.Sort

/-!
# Fees for the Ethereum interface

`api/web3/handlers/adapt_eth.go`. `FeeHistory` reads the blocks *below* the oldest block, and keeps
the last percentile of each row. `EstimateTipFee` appends the prices of the blocks in the order in
which the goroutines answer, and waits for an answer that a goroutine may never give.
-/

namespace Topia.Web3

open List Lib

section FeeHistory

structure TxGasAndReward where
  (gasUsed reward : Nat)

/-- The number in the text for the gas of the head, if it has two characters to cut, and the data
chunks, if they can be decoded, with what is read of their transactions. -/
structure FeeBlock where
  gasFees : Option Nat
  dataChunks : List (Option (List TxGasAndReward))

structure FeeRequest (P : Type) where
  (lastBlock blockCount : Nat)
  percentiles : List P
  last_lt : lastBlock < 2 ^ 64
  count_pos : 0 < blockCount
  count_le : blockCount ≤ lastBlock + 1

structure FeeResponse where
  OldestBlock : Nat
  Reward : List (List (Option Nat))

/-- Numbers of more than 32 bits are the largest one. -/
def Hex2Dec (n : Nat) : Nat := min n (2 ^ 32 - 1)

/-- The gas and the transactions of the first chunk; `none` is a panic, or the return of nil for a
chunk that is not JSON. -/
def readBlock : Option FeeBlock → Option (Nat × TxGasAndReward × List TxGasAndReward)
  | some ⟨some gasFees, some (tx :: txs) :: _⟩ => some (Hex2Dec gasFees, tx, txs)
  | _ => none

def advance (threshold : Nat) :
    Nat → TxGasAndReward → List TxGasAndReward → Nat × TxGasAndReward × List TxGasAndReward
  | sum, tx, [] => (sum, tx, [])
  | sum, tx, next :: txs =>
    if sum < threshold then advance threshold (wrap64 (sum + next.gasUsed)) next txs
    else (sum, tx, next :: txs)

def rewards : List Nat → Nat → TxGasAndReward → List TxGasAndReward → List Nat
  | [], _, _, _ => []
  | threshold :: thresholds, sum, tx, txs =>
    let (sum, tx, txs) := advance threshold sum tx txs
    tx.reward :: rewards thresholds sum tx txs

/-- The row is made anew for every entry. -/
def rewardStr (reward : List Nat) : List (Option Nat) :=
  reward.zipIdx.foldl (fun _ v => (replicate reward.length none).set v.2 (some v.1)) []

variable {P : Type} (threshold : Nat → P → Nat) (chain : Nat → Option FeeBlock)

variable (req : FeeRequest P) (percentiles : List P) (t height : Nat)

def rowBelow (oldestBlock i : Nat) : Option (List (Option Nat)) := do
  let (gasUsed, tx, txs) ← readBlock (chain (wrap64 (oldestBlock + 2 ^ 64 - (i + 1))))
  return rewardStr (rewards (percentiles.map (threshold gasUsed)) (wrap64 tx.gasUsed) tx txs)

/-- `FeeHistory`; the last row is computed first. -/
def FeeHistory : Option FeeResponse := do
  let oldestBlock := wrap64 (Hex2Dec req.lastBlock + 1 + 2 ^ 64 - req.blockCount)
  let rows ← (range req.blockCount).reverse.mapM
    (rowBelow threshold chain req.percentiles oldestBlock)
  return ⟨oldestBlock, rows.reverse⟩

/-- The reward of the first transaction at which the cumulative gas, in numbers of some size,
reaches the threshold. -/
def firstReward (size : Nat → Nat) (threshold : Nat) : Nat → List TxGasAndReward → Option Nat
  | _, [] => none
  | sum, tx :: txs =>
    if threshold ≤ size (sum + tx.gasUsed) then some tx.reward
    else firstReward size threshold (size (sum + tx.gasUsed)) txs

def IsFirstReward (threshold : Nat) (txs : List TxGasAndReward) (reward : Nat) : Prop :=
  ∀ first, firstReward id threshold 0 txs = some first → reward = first

/-- In `uint64`, or the last transaction. -/
def reachedReward (threshold : Nat) (tx : TxGasAndReward) (txs : List TxGasAndReward) : Nat :=
  (firstReward wrap64 threshold 0 (tx :: txs)).getD (txs.getLastD tx).reward

/-- Every entry is the reward at its threshold among the transactions of all chunks. -/
def RowRight (row : List (Option Nat)) : Prop :=
  ∃ gasFees chunks, chain height = some ⟨some gasFees, map some chunks⟩ ∧
    Forall₂ (fun p r => ∃ reward, r = some reward ∧
      IsFirstReward (threshold (Hex2Dec gasFees) p) chunks.flatten reward) percentiles row

/-- **The history is aligned**: row `i` is that of block `OldestBlock + i`. -/
def FeeHistoryRight : Prop :=
  ∃ resp, FeeHistory threshold chain req = some resp ∧
    resp.OldestBlock = req.lastBlock + 1 - req.blockCount ∧
    Forall₂ (fun i row => RowRight threshold chain req.percentiles (resp.OldestBlock + i) row)
      (range req.blockCount) resp.Reward

/-- Below the oldest block a block has a transaction in its first chunk, all chunks of the block at
`height` can be read, and the rewards at the percentile agree. -/
def RowsAgree (below height : Nat) : Prop :=
  ∃ gasFees tx txs rest gasFees' chunks,
    chain below = some ⟨some gasFees, some (tx :: txs) :: rest⟩ ∧
    chain height = some ⟨some gasFees', map some chunks⟩ ∧
    ∀ p ∈ percentiles, IsFirstReward (threshold (Hex2Dec gasFees') p) chunks.flatten
      (reachedReward (threshold (Hex2Dec gasFees) p) tx txs)

variable {threshold chain} {percentiles : List P}

theorem advance_reward (sum : Nat) (tx : TxGasAndReward) (txs : List TxGasAndReward) :
    (advance t sum tx txs).2.1.reward =
      if t ≤ sum then tx.reward
      else (firstReward wrap64 t sum txs).getD (txs.getLastD tx).reward := by
  induction txs generalizing sum tx with
  | nil => simp [advance, firstReward]
  | cons next txs ih =>
    by_cases hsum : sum < t
    · rw [advance, if_pos hsum, ih, if_neg (Nat.not_le.mpr hsum), firstReward, getLastD_cons]
      split_ifs <;> rfl
    · rw [advance, if_neg hsum, if_pos (by omega)]

theorem reachedReward_eq (tx : TxGasAndReward) (txs : List TxGasAndReward) :
    (advance t (wrap64 tx.gasUsed) tx txs).2.1.reward = reachedReward t tx txs := by
  rw [advance_reward, reachedReward, firstReward, Nat.zero_add]
  split_ifs <;> rfl

theorem rewardStr_concat (reward : List Nat) (r : Nat) :
    rewardStr (reward ++ [r]) = replicate reward.length none ++ [some r] := by
  rw [rewardStr, zipIdx_append, foldl_append]
  simp [set_append, replicate_succ']

theorem rewardStr_of_two (r r' : Nat) (reward : List Nat) :
    ∃ rest, rewardStr (r :: r' :: reward) = none :: rest := by
  obtain ⟨init, last, heq⟩ := (eq_nil_or_concat' (r' :: reward)).resolve_left (cons_ne_nil _ _)
  rw [heq, ← cons_append, rewardStr_concat]
  exact ⟨_, rfl⟩

theorem rowRight_iff {height gasUsed : Nat} {tx : TxGasAndReward} {txs : List TxGasAndReward} :
    RowRight threshold chain percentiles height
        (rewardStr (rewards (percentiles.map (threshold gasUsed)) (wrap64 tx.gasUsed) tx txs)) ↔
      percentiles.length ≤ 1 ∧ ∃ gasFees chunks,
        chain height = some ⟨some gasFees, map some chunks⟩ ∧ ∀ p ∈ percentiles,
          IsFirstReward (threshold (Hex2Dec gasFees) p) chunks.flatten
            (reachedReward (threshold gasUsed p) tx txs) := by
  match percentiles with
  | [] => simp [RowRight, rewards, rewardStr]
  | [p] => simp [RowRight, rewards, rewardStr, reachedReward_eq]
  | p :: p' :: percentiles =>
    simp only [map_cons, rewards]
    obtain ⟨rest, hrow⟩ := rewardStr_of_two _ _ _
    rw [hrow]
    simp [RowRight]

theorem exists_rows_iff {β : Type} {f : Nat → Option β} {S : Nat → β → Prop} (l : List Nat) :
    (∃ rows, l.mapM f = some rows ∧ Forall₂ S l rows) ↔
      ∀ i ∈ l, ∃ row, f i = some row ∧ S i row := by
  induction l with
  | nil => simp
  | cons i l ih =>
    rw [mapM_cons, forall_mem_cons, ← ih]
    constructor
    · rintro ⟨rows, hrows, hright⟩
      obtain ⟨row, rows, hrow, hright, rfl⟩ := forall₂_cons_left_iff.mp hright
      cases hf : f i <;> cases hl : l.mapM f <;> simp_all
    · rintro ⟨⟨row, hf, hrow⟩, rows, hl, hright⟩
      exact ⟨row :: rows, by rw [hf, hl]; rfl, .cons hrow hright⟩

theorem readBlock_eq_some_iff {b : Option FeeBlock} {gasUsed : Nat} {tx : TxGasAndReward}
    {txs : List TxGasAndReward} : readBlock b = some (gasUsed, tx, txs) ↔
      ∃ gasFees rest, b = some ⟨some gasFees, some (tx :: txs) :: rest⟩ ∧
        gasUsed = Hex2Dec gasFees := by
  unfold readBlock
  split <;> simp_all [eq_comm, and_comm]

theorem rowBelow_iff {oldestBlock i height : Nat} :
    (∃ row, rowBelow threshold chain percentiles oldestBlock i = some row ∧
        RowRight threshold chain percentiles height row) ↔
      percentiles.length ≤ 1 ∧
        RowsAgree threshold chain percentiles (wrap64 (oldestBlock + 2 ^ 64 - (i + 1))) height := by
  simp only [rowBelow, Option.bind_eq_bind, Option.bind_eq_some_iff, Prod.exists,
    readBlock_eq_some_iff, Option.pure_def, Option.some.injEq]
  constructor
  · rintro ⟨_, ⟨_, tx, txs, ⟨gasFees, rest, hbelow, rfl⟩, rfl⟩, hright⟩
    obtain ⟨hlen, gasFees', chunks, hblock, hfirst⟩ := rowRight_iff.mp hright
    exact ⟨hlen, gasFees, tx, txs, rest, gasFees', chunks, hbelow, hblock, hfirst⟩
  · rintro ⟨hlen, gasFees, tx, txs, rest, gasFees', chunks, hbelow, hblock, hfirst⟩
    exact ⟨_, ⟨_, tx, txs, ⟨gasFees, rest, hbelow, rfl⟩, rfl⟩,
      rowRight_iff.mpr ⟨hlen, gasFees', chunks, hblock, hfirst⟩⟩

def heightChain : Option FeeBlock := some ⟨some 1, [some [⟨1, height⟩]]⟩

end FeeHistory

section TipFee

def defaultGasPrice : Int := 10 ^ 9
def maxPrice : Int := 500 * 10 ^ 9

/-- A missing block, with an error or without one, or which head chunks can be decoded, and the data
chunks with the prices of their transactions; `none` is a chunk that cannot be decoded, or a
transaction that is not found. -/
inductive PriceBlock where
  | missing (err : Bool)
  | block (headChunks : List Bool) (dataChunks : List (Option (List (Option Nat))))

inductive Answer where
  | silent
  | panic
  | sent (err : Bool) (values : List Int)

/-- The first prices from `ignorePrice` on, as `int64`; `none` is the panic for a missing
transaction. -/
def takePrices : Nat → List (Option Nat) → Option (List Int)
  | 0, _ | _, [] => some []
  | _ + 1, none :: _ => none
  | limit + 1, some price :: txs =>
    if price < 2 then takePrices (limit + 1) txs
    else (takePrices limit txs).map ((if price < 2 ^ 63 then price else price - 2 ^ 64) :: ·)

/-- The data chunks are read once for each head chunk. -/
def getBlockValues : PriceBlock → Answer
  | .missing err => .sent err []
  | .block headChunks dataChunks =>
    match headChunks.foldlM (fun txs ok =>
      if ok then (dataChunks.mapM id).map (txs ++ ·.flatten) else none) [] with
    | none => .silent
    | some txs =>
      match takePrices 3 txs with
      | none => .panic
      | some prices => .sent false (prices.insertionSort (· ≥ ·))

def orDefault (values : List Int) : List Int :=
  if values = [] then [defaultGasPrice] else values

inductive TipFee where
  | price (price : Int)
  | error
  | panic

/-- The call in its second loop; `exp` is the number of the goroutines that have not answered. -/
structure Estimate where
  number : Nat
  pending : List Nat
  results : List Int
  out : Option TipFee

def capped (price : Int) : Int := if maxPrice < price then maxPrice else price

def percentilePrice (results : List Int) : Int :=
  capped (results.getD ((results.length - 1) * 60 / 100) defaultGasPrice)

def Estimate.next (s : Estimate) : Estimate :=
  if s.pending = [] then { s with out := some (.price (percentilePrice s.results)) } else s

def Estimate.start (height : Nat) : Estimate :=
  Estimate.next ⟨height - 3, (range (min 3 height)).map (height - ·), [], none⟩

variable (blocks : Nat → PriceBlock)

def Estimate.step (s : Estimate) (k : Nat) : Option Estimate :=
  if s.out.isSome then none
  else s.pending[k]?.bind fun number =>
    match getBlockValues (blocks number) with
    | .silent => none
    | .panic => some ⟨s.number, [], s.results, some .panic⟩
    | .sent true _ => some ⟨s.number, [], s.results, some .error⟩
    | .sent false values =>
      let values := orDefault values
      let pending := s.pending.eraseIdx k
      if values.length = 1 ∧ s.results.length + 1 + pending.length < 6 ∧ 0 < s.number then
        some (next ⟨s.number - 1, pending ++ [s.number], s.results ++ values, none⟩)
      else some (next ⟨s.number, pending, s.results ++ values, none⟩)

/-- The prices that are to be sampled: those of the transactions, each once. -/
def samples : PriceBlock → List Int
  | .missing _ => [defaultGasPrice]
  | .block _ dataChunks =>
    orDefault ((takePrices 3 (dataChunks.filterMap id).flatten).getD [])

def tipFee (height number : Nat) : Int :=
  percentilePrice (((range (height - number)).flatMap fun i =>
    samples (blocks (number + 1 + i))).insertionSort (· ≤ ·))

/-- **The oracle**: in any order of the answers the call ends, with the percentile of the sorted
prices. -/
structure OracleRight (height : Nat) : Prop where
  ends : ∀ ks s, List.foldlM (Estimate.step blocks) (Estimate.start height) ks = some s →
    ks.length ≤ 2 * height ∧ (s.out = none → ∃ k, (s.step blocks k).isSome)
  price : ∀ ks s out, List.foldlM (Estimate.step blocks) (Estimate.start height) ks = some s →
    s.out = some out → out = .price (tipFee blocks height s.number)

/-- The last six blocks, of which the call asks for three to six, answer with one price. -/
def Uniform (height : Nat) (p : Int) : Prop :=
  ∀ number, 0 < number → number ≤ height → height < number + 6 →
    (∃ values, getBlockValues (blocks number) = .sent false values ∧
      ∀ v ∈ orDefault values, v = p) ∧ ∀ v ∈ samples (blocks number), v = p

variable {blocks} {height : Nat} {p : Int} {s s' : Estimate} {k : Nat}

theorem orDefault_ne_nil (values : List Int) : orDefault values ≠ [] := by
  rw [orDefault]
  split_ifs with h
  · simp
  · exact h

namespace Estimate

@[simp] theorem next_number : s.next.number = s.number := by
  rw [next]
  split_ifs <;> rfl

@[simp] theorem next_pending : s.next.pending = s.pending := by
  rw [next]
  split_ifs <;> rfl

@[simp] theorem next_results : s.next.results = s.results := by
  rw [next]
  split_ifs <;> rfl

def measure (s : Estimate) : Nat := 2 * s.number + s.pending.length

theorem step_cases (hstep : s.step blocks k = some s') : ∃ m, s.pending[k]? = some m ∧
    ((getBlockValues (blocks m) = .panic ∧ s' = ⟨s.number, [], s.results, some .panic⟩) ∨
      ∃ err values, getBlockValues (blocks m) = .sent err values ∧
        ((err = true ∧ s' = ⟨s.number, [], s.results, some .error⟩) ∨
          ∃ number added, number + added.length = s.number ∧
            (added = [] ∨ added = [s.number] ∧ s.results.length + s.pending.length < 6) ∧
            s' = next ⟨number, s.pending.eraseIdx k ++ added,
              s.results ++ orDefault values, none⟩)) := by
  rw [step] at hstep
  split_ifs at hstep with hout
  obtain ⟨m, hk, hstep⟩ := Option.bind_eq_some_iff.mp hstep
  refine ⟨m, hk, ?_⟩
  cases hanswer : getBlockValues (blocks m) with
  | silent => simp [hanswer] at hstep
  | panic => exact .inl ⟨rfl, by simpa [hanswer] using hstep.symm⟩
  | sent err values =>
    refine .inr ⟨err, values, rfl, ?_⟩
    cases err with
    | true => exact .inl ⟨rfl, by simpa [hanswer] using hstep.symm⟩
    | false =>
      simp only [hanswer] at hstep
      split_ifs at hstep with hmore
      · cases hstep
        obtain ⟨hlt, -⟩ := List.getElem?_eq_some_iff.mp hk
        have herase := length_eraseIdx_of_lt hlt
        exact .inr ⟨s.number - 1, [s.number], by simp; omega, .inr ⟨rfl, by omega⟩, rfl⟩
      · cases hstep
        exact .inr ⟨s.number, [], rfl, .inl rfl, by simp⟩

theorem measure_step (hstep : s.step blocks k = some s') : s'.measure < s.measure := by
  obtain ⟨m, hk, h⟩ := step_cases hstep
  obtain ⟨hlt, -⟩ := List.getElem?_eq_some_iff.mp hk
  have herase := length_eraseIdx_of_lt hlt
  rcases h with ⟨-, rfl⟩ | ⟨err, values, -, ⟨-, rfl⟩ | ⟨number, added, hsum, -, rfl⟩⟩
  · simp only [measure, length_nil]
    omega
  · simp only [measure, length_nil]
    omega
  · simp only [measure, next_number, next_pending, length_append]
    omega

structure Even (height : Nat) (p : Int) (s : Estimate) : Prop where
  number_le : s.number ≤ height
  few : height ≤ s.number + 6 ∧ height ≤ s.number + (s.results.length + s.pending.length)
  pending : ∀ m ∈ s.pending, s.number < m ∧ m ≤ height
  results : ∀ v ∈ s.results, v = p
  sampled : 0 < height → s.number < height ∧ (s.pending = [] → s.results ≠ [])
  empty : height = 0 → s.results = []
  out : if s.pending = [] then s.out = some (.price (percentilePrice s.results)) else s.out = none

theorem even_next (hout : s.out = none) (hnumber : s.number ≤ height)
    (hfew : height ≤ s.number + 6 ∧ height ≤ s.number + (s.results.length + s.pending.length))
    (hpending : ∀ m ∈ s.pending, s.number < m ∧ m ≤ height) (hresults : ∀ v ∈ s.results, v = p)
    (hsampled : 0 < height → s.number < height ∧ (s.pending = [] → s.results ≠ []))
    (hempty : height = 0 → s.results = []) : s.next.Even height p := by
  refine ⟨by simpa, by simpa, by simpa, by simpa, by simpa, by simpa, ?_⟩
  rw [next]
  split_ifs <;> simp_all

theorem even_start : (start height).Even height p := by
  refine even_next rfl (Nat.sub_le height 3) (by simp; omega) (fun m hm => ?_) (by simp)
    (fun h => ?_) (fun _ => rfl)
  · obtain ⟨i, hi, rfl⟩ := mem_map.mp hm
    rw [mem_range] at hi
    dsimp only
    omega
  · refine ⟨by dsimp only; omega, fun hnil => ?_⟩
    rw [map_eq_nil_iff, range_eq_nil] at hnil
    omega

theorem even_step (huni : Uniform blocks height p) (hs : s.Even height p)
    (hstep : s.step blocks k = some s') : s'.Even height p := by
  obtain ⟨m, hk, h⟩ := step_cases hstep
  obtain ⟨hlt, hle⟩ := hs.pending m (mem_of_getElem? hk)
  have hfew := hs.few
  obtain ⟨⟨values, hanswer, hvalues⟩, -⟩ := huni m (by omega) hle (by omega)
  rcases h with ⟨h, -⟩ | ⟨err, values', h, ⟨rfl, -⟩ | ⟨number, added, hsum, hadded, rfl⟩⟩
  · rw [hanswer] at h
    cases h
  · rw [hanswer] at h
    cases h
  · rw [hanswer] at h
    cases h
    have hadd : added.length ≤ 1 ∧ ∀ m' ∈ added, m' = s.number ∧ added.length = 1 ∧
        s.results.length + s.pending.length < 6 := by
      rcases hadded with rfl | ⟨rfl, hroom⟩ <;> simp_all
    refine even_next rfl ?_ ?_ ?_ ?_ ?_ (by omega)
    · dsimp only
      omega
    · have hvals := length_pos_iff.mpr (orDefault_ne_nil values)
      obtain ⟨hk, -⟩ := List.getElem?_eq_some_iff.mp hk
      have herase := length_eraseIdx_of_lt hk
      rcases hadded with rfl | ⟨rfl, hroom⟩ <;> simp_all <;> omega
    · intro m' hm'
      rcases mem_append.mp hm' with hm' | hm'
      · have := hs.pending m' (mem_of_mem_eraseIdx hm')
        dsimp only
        omega
      · have := hadd.2 m' hm'
        dsimp only
        omega
    · exact fun v hv => (mem_append.mp hv).elim (hs.results v) (hvalues v)
    · intro hpos
      refine ⟨by dsimp only; omega, fun _ hnil => ?_⟩
      exact orDefault_ne_nil values (append_eq_nil_iff.mp hnil).2

end Estimate

theorem percentilePrice_of_all {l : List Int} (hne : l ≠ []) (hall : ∀ v ∈ l, v = p) :
    percentilePrice l = capped p := by
  have hpos := length_pos_iff.mpr hne
  have hlt : (l.length - 1) * 60 / 100 < l.length := by omega
  rw [percentilePrice, getD_eq_getElem?_getD, List.getElem?_eq_getElem hlt, Option.getD_some,
    hall _ (getElem_mem hlt)]

theorem samples_ne_nil (b : PriceBlock) : samples b ≠ [] := by
  cases b with
  | missing err => simp [samples]
  | block headChunks dataChunks => exact orDefault_ne_nil _

section Uniform

variable (huni : Uniform blocks height p)
include huni

theorem tipFee_of_uniform {number : Nat} (hlt : number < height) (hfew : height ≤ number + 6) :
    tipFee blocks height number = capped p := by
  refine percentilePrice_of_all (fun hnil => ?_) (fun v hv => ?_)
  · have hlen := congrArg length hnil
    rw [length_insertionSort, length_nil, length_eq_zero_iff, flatMap_eq_nil_iff] at hlen
    exact samples_ne_nil _ (hlen 0 (by simpa using by omega))
  · rw [mem_insertionSort] at hv
    obtain ⟨i, hi, hv⟩ := mem_flatMap.mp hv
    rw [mem_range] at hi
    exact (huni _ (by omega) (by omega) (by omega)).2 v hv

theorem Estimate.Even.price (hs : s.Even height p) {out : TipFee} (hout : s.out = some out) :
    out = .price (tipFee blocks height s.number) := by
  have h := hs.out
  split_ifs at h with hnil
  · rw [hout] at h
    cases h
    rcases Nat.eq_zero_or_pos height with rfl | hpos
    · simp [hs.empty, tipFee]
    · obtain ⟨hlt, hne⟩ := hs.sampled hpos
      rw [tipFee_of_uniform huni hlt hs.few.1, percentilePrice_of_all (hne hnil) hs.results]
  · rw [hout] at h
    cases h

theorem Estimate.Even.progress (hs : s.Even height p) (hout : s.out = none) :
    ∃ k, (s.step blocks k).isSome := by
  have h := hs.out
  split_ifs at h with hnil
  · rw [hout] at h
    cases h
  · obtain ⟨m, rest, hpending⟩ := exists_cons_of_ne_nil hnil
    obtain ⟨hlt, hle⟩ := hs.pending m (by simp [hpending])
    have hfew := hs.few
    obtain ⟨⟨values, hanswer, -⟩, -⟩ := huni m (by omega) hle (by omega)
    refine ⟨0, ?_⟩
    simp only [step, hout, hpending, getElem?_cons_zero, Option.bind_some, hanswer,
      Option.isSome_none, Bool.false_eq_true, if_false]
    split_ifs <;> rfl

end Uniform

end TipFee

end Topia.Web3
