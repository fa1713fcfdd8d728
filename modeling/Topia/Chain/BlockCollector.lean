import Mathlib.Data.List.Nodup
import Topia.Lib.Run
import Topia.Lib.Consecutive
import Topia.Lib.Pairing
import Topia.Chain.Types

/-!
# The archiver's block collector

Every execution domain sends the head of a block with its own data chunks and results. `Collect` of
`chain/archiver/block_collector.go` keeps the parts of one height and merges them when a part of the
next height arrives. A part is compared only with parts of the same version, and its chunks never
with each other. Data and results are merged separately.
-/

namespace Topia.Chain

open Lib

structure BlockData where
  Version : Nat
  DataChunks : List Bytes
deriving DecidableEq, Repr

structure BlockResultData where
  Version : Nat
  ResultDataChunks : List Bytes
deriving DecidableEq, Repr

structure CollectedBlockInfo where
  Head : BlockHead
  Data : BlockData
  RSData : BlockResultData
deriving DecidableEq, Repr

namespace CollectedBlockInfo

def pairs (p : CollectedBlockInfo) : List (Bytes × Bytes) :=
  p.Data.DataChunks.zip p.RSData.ResultDataChunks

def SameHead (p q : CollectedBlockInfo) : Prop :=
  p.Head.Marshal = q.Head.Marshal

instance decidableSameHead (p q : CollectedBlockInfo) : Decidable (p.SameHead q) :=
  inferInstanceAs (Decidable (p.Head.Marshal = q.Head.Marshal))

def absorb (first part : CollectedBlockInfo) : CollectedBlockInfo :=
  { first with
    Data := { first.Data with
      DataChunks := first.Data.DataChunks ++ part.Data.DataChunks }
    RSData := { first.RSData with
      ResultDataChunks := first.RSData.ResultDataChunks ++ part.RSData.ResultDataChunks } }

def merge (first : CollectedBlockInfo) (rest : List CollectedBlockInfo) : CollectedBlockInfo :=
  rest.foldl absorb first

end CollectedBlockInfo

inductive CollectError where
  | sameData (height : Nat) (selfNode : Bytes)
  | differentHead (height : Nat) (selfNode : Bytes)
  | wrongHeight (received current : Nat) (selfNode : Bytes)
deriving DecidableEq, Repr

structure BlockCollector where
  nodeID : Bytes
  blockList : List CollectedBlockInfo
deriving DecidableEq, Repr

namespace BlockCollector

def new (nodeID : Bytes) : BlockCollector where
  nodeID := nodeID
  blockList := []

def isExistSameBlockData (bc : BlockCollector) (origin : BlockData) : Bool :=
  bc.blockList.any fun target =>
    origin.Version == target.Data.Version &&
      origin.DataChunks.any fun chunk =>
        target.Data.DataChunks.any fun targetChunk => chunk == targetChunk

def Collect (bc : BlockCollector) (part : CollectedBlockInfo) :
    Except CollectError (Option CollectedBlockInfo) × BlockCollector :=
  match bc.blockList with
  | [] => (.ok none, { bc with blockList := [part] })
  | first :: rest =>
    if part.Head.Height = first.Head.Height then
      if part.Head.Marshal = first.Head.Marshal then
        if bc.isExistSameBlockData part.Data then
          (.error (.sameData part.Head.Height bc.nodeID), bc)
        else (.ok none, { bc with blockList := bc.blockList ++ [part] })
      else (.error (.differentHead part.Head.Height bc.nodeID), bc)
    else if part.Head.Height = wrap64 (first.Head.Height + 1) then
      (.ok (some (first.merge rest)), { bc with blockList := [part] })
    else (.error (.wrongHeight part.Head.Height first.Head.Height bc.nodeID), bc)

theorem isExistSameBlockData_eq_false {bc : BlockCollector} {origin : BlockData} :
    bc.isExistSameBlockData origin = false ↔
      ∀ p ∈ bc.blockList, p.Data.Version = origin.Version →
        p.Data.DataChunks.Disjoint origin.DataChunks := by
  rw [← Bool.not_eq_true, not_iff_comm]
  simp only [isExistSameBlockData, List.any_eq_true, Bool.and_eq_true, beq_iff_eq,
    List.Disjoint, not_forall]
  constructor
  · rintro ⟨p, hp, hversion, chunk, hchunk, hchunk', -⟩
    exact ⟨p, hp, hversion.symm, chunk, hchunk', chunk, hchunk, rfl⟩
  · rintro ⟨p, hp, hversion, chunk, hchunk, _, hchunk', rfl⟩
    exact ⟨p, hp, hversion.symm, chunk, hchunk', hchunk, not_false⟩

end BlockCollector

/-- The collector, the accepted parts and the emitted blocks, oldest first. -/
structure Archive where
  bc : BlockCollector
  (accepted emitted : List CollectedBlockInfo)
deriving DecidableEq, Repr

namespace Archive

def new (nodeID : Bytes) : Archive where
  bc := .new nodeID
  accepted := []
  emitted := []

variable (s : Archive) (part : CollectedBlockInfo)

def collect : Archive :=
  match s.bc.Collect part with
  | (.error _, bc) => { s with bc := bc }
  | (.ok none, bc) => { s with bc := bc, accepted := s.accepted ++ [part] }
  | (.ok (some block), bc) =>
    { bc := bc, accepted := s.accepted ++ [part], emitted := s.emitted ++ [block] }

def step : Option Archive :=
  some (s.collect part)

def partsOf (block : CollectedBlockInfo) : List CollectedBlockInfo :=
  s.accepted.filter fun p => p.SameHead block

end Archive

/-- The block has exactly the chunks of the parts, in order, with their results. -/
structure Carries (block : CollectedBlockInfo) (parts : List CollectedBlockInfo) : Prop where
  chunks : block.Data.DataChunks = parts.flatMap (·.Data.DataChunks)
  once : block.Data.DataChunks.Nodup
  results : block.Data.DataChunks.length = block.RSData.ResultDataChunks.length
  paired : block.pairs = parts.flatMap (·.pairs)

/-- Distinct chunks, also between versions, and as many results. -/
structure Mergeable (parts : List CollectedBlockInfo) : Prop where
  once : ∀ p ∈ parts, p.Data.DataChunks.Nodup
  results : ∀ p ∈ parts, p.Data.DataChunks.length = p.RSData.ResultDataChunks.length
  versions : parts.Pairwise fun p q =>
    p.Data.Version ≠ q.Data.Version → p.Data.DataChunks.Disjoint q.Data.DataChunks

namespace Archive

/-- The emitted heights are consecutive, and the blocks carry the accepted parts. -/
structure Assembled (s : Archive) : Prop where
  heights : Consecutive (s.emitted.map (·.Head.Height))
  carries : ∀ block ∈ s.emitted, Carries block (s.partsOf block)

/-- An accepted part with chunks has no emitted head; an emitted block has mergeable parts and a
height that is a number. -/
structure Proper (s : Archive) (part : CollectedBlockInfo) : Prop where
  fresh : ∀ out, (s.bc.Collect part).1 = .ok out →
    part.Data.DataChunks = [] ∨ ∀ block ∈ s.emitted, ¬ part.SameHead block
  emits : ∀ block, (s.bc.Collect part).1 = .ok (some block) →
    Mergeable s.bc.blockList ∧ ∀ last ∈ s.emitted.getLast?, last.Head.Height + 1 < 2 ^ 64

structure Collecting (s : Archive) : Prop where
  oneHead : ∀ first ∈ s.bc.blockList.head?, ∀ p ∈ s.bc.blockList, p.SameHead first
  apart : s.bc.blockList.Pairwise fun p q =>
    p.Data.Version = q.Data.Version → p.Data.DataChunks.Disjoint q.Data.DataChunks
  earlier : ∃ before, s.accepted = before ++ s.bc.blockList ∧
    ∀ p ∈ before, ∃ block ∈ s.emitted, p.SameHead block
  started : s.bc.blockList = [] → s.emitted = []
  next : ∀ first ∈ s.bc.blockList.head?, ∀ last ∈ s.emitted.getLast?,
    first.Head.Height = wrap64 (last.Head.Height + 1)

end Archive

section Merge

variable {first : CollectedBlockInfo} {rest : List CollectedBlockInfo}

open CollectedBlockInfo

theorem head_merge : (first.merge rest).Head = first.Head := by
  induction rest generalizing first with
  | nil => rfl
  | cons p rest ih => exact ih

theorem dataChunks_merge :
    (first.merge rest).Data.DataChunks = (first :: rest).flatMap (·.Data.DataChunks) := by
  unfold merge
  induction rest generalizing first with
  | nil => simp
  | cons p rest ih =>
    rw [List.foldl_cons, ih]
    simp [absorb]

theorem resultDataChunks_merge :
    (first.merge rest).RSData.ResultDataChunks =
      (first :: rest).flatMap (·.RSData.ResultDataChunks) := by
  unfold merge
  induction rest generalizing first with
  | nil => simp
  | cons p rest ih =>
    rw [List.foldl_cons, ih]
    simp [absorb]

/-- **A merged block carries its parts exactly when they can be merged.** -/
theorem carries_merge_iff
    (hapart : (first :: rest).Pairwise fun p q =>
      p.Data.Version = q.Data.Version → p.Data.DataChunks.Disjoint q.Data.DataChunks) :
    Carries (first.merge rest) (first :: rest) ↔ Mergeable (first :: rest) := by
  have hnodup : (first.merge rest).Data.DataChunks.Nodup ↔
      (∀ p ∈ first :: rest, p.Data.DataChunks.Nodup) ∧
        (first :: rest).Pairwise fun p q => p.Data.DataChunks.Disjoint q.Data.DataChunks := by
    rw [dataChunks_merge, List.nodup_flatMap]
  have hpaired := zip_flatMap_iff (l := first :: rest) (f := (·.Data.DataChunks))
    (g := (·.RSData.ResultDataChunks))
  rw [← dataChunks_merge, ← resultDataChunks_merge] at hpaired
  constructor
  · intro h
    obtain ⟨honce, hdisjoint⟩ := hnodup.mp h.once
    refine ⟨honce, hpaired.mp ⟨h.results, h.paired⟩, hdisjoint.imp ?_⟩
    intro p q hpq _
    exact hpq
  · intro h
    obtain ⟨hresults, hpairs⟩ := hpaired.mpr h.results
    refine ⟨dataChunks_merge, hnodup.mpr ⟨h.once, ?_⟩, hresults, hpairs⟩
    -- two versions are apart by assumption, one version by the collector's comparison
    refine (hapart.and h.versions).imp ?_
    rintro p q ⟨hsame, hother⟩
    by_cases hversion : p.Data.Version = q.Data.Version
    · exact hsame hversion
    · exact hother hversion

theorem carries_concat_iff {block part : CollectedBlockInfo} {parts : List CollectedBlockInfo}
    (h : Carries block parts) : Carries block (parts ++ [part]) ↔ part.Data.DataChunks = [] := by
  constructor
  · intro hmore
    have hchunks := hmore.chunks
    rw [List.flatMap_append, ← h.chunks] at hchunks
    simpa using hchunks
  · intro hnil
    refine ⟨?_, h.once, h.results, ?_⟩
    · simp [List.flatMap_append, hnil, ← h.chunks]
    · have hpairs : part.pairs = [] := by simp [pairs, hnil]
      simp [List.flatMap_append, hpairs, h.paired]

end Merge

namespace Archive

section Collect

variable {s : Archive} {part : CollectedBlockInfo}

inductive CollectEffect (s : Archive) (part : CollectedBlockInfo) : Prop where
  | refused (err : CollectError)
      (hout : s.bc.Collect part = (.error err, s.bc))
      (hnext : s.collect part = s)
  | joined
      (hhead : ∀ first ∈ s.bc.blockList.head?, part.SameHead first)
      (hapart : ∀ p ∈ s.bc.blockList, p.Data.Version = part.Data.Version →
        p.Data.DataChunks.Disjoint part.Data.DataChunks)
      (hout : (s.bc.Collect part).1 = .ok none)
      (hnext : s.collect part =
        { s with
          bc := { s.bc with blockList := s.bc.blockList ++ [part] }
          accepted := s.accepted ++ [part] })
  | completed (first : CollectedBlockInfo) (rest : List CollectedBlockInfo)
      (hlist : s.bc.blockList = first :: rest)
      (hheight : part.Head.Height = wrap64 (first.Head.Height + 1))
      (hout : (s.bc.Collect part).1 = .ok (some (first.merge rest)))
      (hnext : s.collect part =
        { bc := { s.bc with blockList := [part] }
          accepted := s.accepted ++ [part]
          emitted := s.emitted ++ [first.merge rest] })

open BlockCollector

theorem collectEffect (s : Archive) (part : CollectedBlockInfo) : CollectEffect s part := by
  cases hlist : s.bc.blockList with
  | nil =>
    have hout : s.bc.Collect part = (.ok none, { s.bc with blockList := [part] }) := by
      simp [Collect, hlist]
    refine .joined ?_ ?_ (by rw [hout]) ?_
    · simp [hlist]
    · simp [hlist]
    · simp [collect, hout, hlist]
  | cons first rest =>
    by_cases hheight : part.Head.Height = first.Head.Height
    · by_cases hhead : part.Head.Marshal = first.Head.Marshal
      · cases hsame : s.bc.isExistSameBlockData part.Data with
        | true =>
          have hout : s.bc.Collect part =
              (.error (.sameData part.Head.Height s.bc.nodeID), s.bc) := by
            simp [Collect, hlist, hheight, hhead, hsame]
          exact .refused _ hout (by simp [collect, hout])
        | false =>
          have hout : s.bc.Collect part =
              (.ok none, { s.bc with blockList := s.bc.blockList ++ [part] }) := by
            simp [Collect, hlist, hheight, hhead, hsame]
          refine .joined ?_ (isExistSameBlockData_eq_false.mp hsame)
            (by rw [hout]) (by simp [collect, hout])
          intro first' hfirst
          rw [hlist, List.head?_cons] at hfirst
          cases hfirst
          exact hhead
      · have hout : s.bc.Collect part =
            (.error (.differentHead part.Head.Height s.bc.nodeID), s.bc) := by
          simp [Collect, hlist, hheight, hhead]
        exact .refused _ hout (by simp [collect, hout])
    · by_cases hnext : part.Head.Height = wrap64 (first.Head.Height + 1)
      · have hout : s.bc.Collect part =
            (.ok (some (first.merge rest)), { s.bc with blockList := [part] }) := by
          simp only [Collect, hlist]
          rw [if_neg hheight, if_pos hnext]
        exact .completed first rest hlist hnext (by rw [hout]) (by simp [collect, hout])
      · have hout : s.bc.Collect part =
            (.error (.wrongHeight part.Head.Height first.Head.Height s.bc.nodeID), s.bc) := by
          simp [Collect, hlist, hheight, hnext]
        exact .refused _ hout (by simp [collect, hout])

theorem collect_refused {bc : BlockCollector} {err : CollectError}
    (h : (bc.Collect part).1 = .error err) : (bc.Collect part).2 = bc := by
  have heffect := collectEffect ⟨bc, [], []⟩ part
  cases heffect with
  | refused _ hout _ => exact congrArg Prod.snd hout
  | joined _ _ hout _ | completed _ _ _ _ hout _ =>
    rw [h] at hout
    cases hout

theorem Collecting.earlier_concat (h : s.Collecting) (part : CollectedBlockInfo) :
    ∃ before, s.accepted ++ [part] = before ++ (s.bc.blockList ++ [part]) ∧
      ∀ p ∈ before, ∃ block ∈ s.emitted, p.SameHead block := by
  obtain ⟨before, haccepted, hbefore⟩ := h.earlier
  exact ⟨before, by rw [haccepted, List.append_assoc], hbefore⟩

theorem Collecting.join (h : s.Collecting)
    (hhead : ∀ first ∈ s.bc.blockList.head?, part.SameHead first)
    (hapart : ∀ p ∈ s.bc.blockList, p.Data.Version = part.Data.Version →
      p.Data.DataChunks.Disjoint part.Data.DataChunks) :
    Collecting { s with
      bc := { s.bc with blockList := s.bc.blockList ++ [part] }
      accepted := s.accepted ++ [part] } := by
  have hfirst : ∀ first ∈ (s.bc.blockList ++ [part]).head?,
      first ∈ s.bc.blockList.head? ∨ s.bc.blockList = [] ∧ first = part := by
    intro first hmem
    cases hlist : s.bc.blockList with
    | nil =>
      rw [hlist] at hmem
      exact .inr ⟨rfl, (Option.some.inj hmem).symm⟩
    | cons => exact .inl (by rwa [hlist] at hmem)
  refine ⟨?_, ?_, h.earlier_concat part, by simp, ?_⟩
  · intro first hmem p hp
    rcases hfirst first hmem with hold | ⟨hnil, rfl⟩
    · rcases List.mem_append.mp hp with hp | hp
      · exact h.oneHead first hold p hp
      · rw [List.mem_singleton.mp hp]
        exact hhead first hold
    · obtain rfl : p = first := by simpa [hnil] using hp
      rfl
  · refine List.pairwise_append.mpr ⟨h.apart, List.pairwise_singleton _ _, ?_⟩
    intro p hp q hq
    rw [List.mem_singleton.mp hq]
    exact hapart p hp
  · intro first hmem last hlast
    rcases hfirst first hmem with hold | ⟨hnil, -⟩
    · exact h.next first hold last hlast
    · rw [h.started hnil] at hlast
      cases hlast

variable {first p q : CollectedBlockInfo} {rest blocks : List CollectedBlockInfo}

open CollectedBlockInfo

theorem Collecting.complete (h : s.Collecting) (hlist : s.bc.blockList = first :: rest)
    (hheight : part.Head.Height = wrap64 (first.Head.Height + 1)) :
    Collecting {
      bc := { s.bc with blockList := [part] }
      accepted := s.accepted ++ [part]
      emitted := s.emitted ++ [first.merge rest] } := by
  have hfirst : first ∈ s.bc.blockList.head? := by rw [hlist]; rfl
  obtain ⟨before, haccepted, hbefore⟩ := h.earlier
  refine ⟨?_, List.pairwise_singleton _ _, ⟨s.accepted, rfl, ?_⟩, by simp, ?_⟩
  · simp [SameHead]
  · intro p hp
    rw [haccepted] at hp
    rcases List.mem_append.mp hp with hp | hp
    · obtain ⟨block, hblock, hsame⟩ := hbefore p hp
      exact ⟨block, List.mem_append_left _ hblock, hsame⟩
    · refine ⟨first.merge rest, by simp, ?_⟩
      rw [SameHead, head_merge]
      exact h.oneHead first hfirst p hp
  · intro first' hmem last hlast
    obtain rfl : part = first' := by simpa using hmem
    obtain rfl : first.merge rest = last := by simpa using hlast
    rw [head_merge]
    exact hheight

theorem collecting_collect (h : s.Collecting) (part : CollectedBlockInfo) :
    (s.collect part).Collecting := by
  cases collectEffect s part with
  | refused _ _ hnext => rwa [hnext]
  | joined hhead hapart _ hnext =>
    rw [hnext]
    exact h.join hhead hapart
  | completed first rest hlist hheight _ hnext =>
    rw [hnext]
    exact h.complete hlist hheight

theorem collecting_new (nodeID : Bytes) : (new nodeID).Collecting where
  oneHead := by simp [new, BlockCollector.new]
  apart := List.Pairwise.nil
  earlier := ⟨[], rfl, by simp⟩
  started := fun _ => rfl
  next := by simp [new]

theorem assembled_new (nodeID : Bytes) : (new nodeID).Assembled where
  heights := consecutive_nil
  carries := by simp [new]

theorem not_sameHead_of_lt (hlt : q.Head.Height < p.Head.Height) : ¬ p.SameHead q := by
  intro hsame
  have hheight := BlockHead.Height_of_Marshal hsame
  omega

theorem height_lt_of_consecutive {n : Nat} (h : Consecutive (blocks.map (·.Head.Height) ++ [n])) :
    ∀ block ∈ blocks, block.Head.Height < n := by
  intro block hblock
  obtain ⟨-, -, hlt⟩ := List.pairwise_append.mp h.increasing
  exact hlt _ (List.mem_map_of_mem hblock) n (List.mem_singleton_self n)

theorem Collecting.consecutive_iff (hc : s.Collecting) (h : s.Assembled)
    (hfirst : first ∈ s.bc.blockList.head?) :
    Consecutive (s.emitted.map (·.Head.Height) ++ [first.Head.Height]) ↔
      ∀ last ∈ s.emitted.getLast?, last.Head.Height + 1 < 2 ^ 64 := by
  rw [consecutive_concat, List.getLast?_map]
  constructor
  · rintro ⟨-, hnext⟩ last hlast
    have heq := hnext last.Head.Height (Option.map_eq_some_iff.mpr ⟨last, hlast, rfl⟩)
    have hwrap := hc.next first hfirst last hlast
    unfold wrap64 at hwrap
    omega
  · intro hlt
    refine ⟨h.heights, ?_⟩
    intro n hn
    obtain ⟨last, hlast, rfl⟩ := Option.map_eq_some_iff.mp hn
    rw [hc.next first hfirst last hlast]
    exact Nat.mod_eq_of_lt (hlt last hlast)

variable {t : Archive}

theorem Assembled.carries_concat_iff (h : s.Assembled)
    (haccepted : t.accepted = s.accepted ++ [part]) :
    (∀ block ∈ s.emitted, Carries block (t.partsOf block)) ↔
      part.Data.DataChunks = [] ∨ ∀ block ∈ s.emitted, ¬ part.SameHead block := by
  have hblock : ∀ block ∈ s.emitted, (Carries block (t.partsOf block) ↔
      part.Data.DataChunks = [] ∨ ¬ part.SameHead block) := by
    intro block hmem
    have hold := h.carries block hmem
    by_cases hsame : part.SameHead block
    · have hparts : t.partsOf block = s.partsOf block ++ [part] := by
        simp [partsOf, haccepted, hsame]
      simp [hparts, Chain.carries_concat_iff hold, hsame]
    · have hparts : t.partsOf block = s.partsOf block := by simp [partsOf, haccepted, hsame]
      simp [hparts, hold, hsame]
  constructor
  · intro hall
    by_cases hnil : part.Data.DataChunks = []
    · exact .inl hnil
    · right
      intro block hmem
      exact ((hblock block hmem).mp (hall block hmem)).resolve_left hnil
  · intro hor block hmem
    exact (hblock block hmem).mpr (hor.imp_right fun hall => hall block hmem)

theorem Collecting.partsOf_completed (hc : s.Collecting) (hlist : s.bc.blockList = first :: rest)
    (hheight : part.Head.Height = wrap64 (first.Head.Height + 1))
    (hlt : ∀ block ∈ s.emitted, block.Head.Height < first.Head.Height)
    (haccepted : t.accepted = s.accepted ++ [part]) :
    t.partsOf (first.merge rest) = first :: rest := by
  obtain ⟨before, hold, hbefore⟩ := hc.earlier
  have hhead : ∀ p : CollectedBlockInfo, p.SameHead (first.merge rest) ↔ p.SameHead first := by
    intro p
    rw [SameHead, head_merge, SameHead]
  have hearly : before.filter (fun p => p.SameHead first) = [] := by
    rw [List.filter_eq_nil_iff]
    intro p hp hsame
    obtain ⟨block, hblock, hsame'⟩ := hbefore p hp
    have hfirst : first.SameHead block := (of_decide_eq_true hsame).symm.trans hsame'
    exact not_sameHead_of_lt (hlt block hblock) hfirst
  have hlate : ¬ part.SameHead first := by
    intro hsame
    have heq := BlockHead.Height_of_Marshal hsame
    unfold wrap64 at hheight
    omega
  have hall : (first :: rest).filter (fun p => p.SameHead first) = first :: rest := by
    rw [List.filter_eq_self]
    intro p hp
    rw [← hlist] at hp
    exact decide_eq_true (hc.oneHead first (by rw [hlist]; rfl) p hp)
  simp only [partsOf, haccepted, hold, hlist, hhead, List.filter_append, hearly, hall]
  simp [hlate]

theorem Collecting.emitted_iff (hc : s.Collecting) (h : s.Assembled)
    (hlist : s.bc.blockList = first :: rest)
    (hheight : part.Head.Height = wrap64 (first.Head.Height + 1))
    (haccepted : t.accepted = s.accepted ++ [part]) :
    (Consecutive (s.emitted.map (·.Head.Height) ++ [first.Head.Height]) ∧
        Carries (first.merge rest) (t.partsOf (first.merge rest))) ↔
      Mergeable s.bc.blockList ∧ ∀ last ∈ s.emitted.getLast?, last.Head.Height + 1 < 2 ^ 64 := by
  have hfirst : first ∈ s.bc.blockList.head? := by rw [hlist]; rfl
  have hconsecutive := hc.consecutive_iff h hfirst
  have hmerge := carries_merge_iff (hlist ▸ hc.apart)
  rw [← hconsecutive, and_comm, hlist]
  refine and_congr_left fun hcons => ?_
  rw [hc.partsOf_completed hlist hheight (height_lt_of_consecutive hcons) haccepted]
  exact hmerge

theorem assembled_collect_iff (h : s.Assembled) (hc : s.Collecting)
    (part : CollectedBlockInfo) : (s.collect part).Assembled ↔ s.Proper part := by
  cases collectEffect s part with
  | refused err hout hnext =>
    rw [hnext]
    refine iff_of_true h ⟨?_, ?_⟩
    · intro out hok
      rw [hout] at hok
      cases hok
    · intro block hok
      rw [hout] at hok
      cases hok
  | joined hhead hapart hout hnext =>
    have haccepted : (s.collect part).accepted = s.accepted ++ [part] := by rw [hnext]
    have hemitted : (s.collect part).emitted = s.emitted := by rw [hnext]
    have hcarries := h.carries_concat_iff haccepted
    constructor
    · intro h'
      refine ⟨fun _ _ => hcarries.mp (hemitted ▸ h'.carries), ?_⟩
      intro block hok
      rw [hout] at hok
      cases hok
    · intro hproper
      refine ⟨hemitted ▸ h.heights, ?_⟩
      rw [hemitted]
      exact hcarries.mpr (hproper.fresh none hout)
  | completed first rest hlist hheight hout hnext =>
    have haccepted : (s.collect part).accepted = s.accepted ++ [part] := by rw [hnext]
    have hemitted : (s.collect part).emitted = s.emitted ++ [first.merge rest] := by rw [hnext]
    have hheights : (s.collect part).emitted.map (·.Head.Height) =
        s.emitted.map (·.Head.Height) ++ [first.Head.Height] := by
      rw [hemitted, List.map_append, List.map_singleton, head_merge]
    have hcarries := h.carries_concat_iff haccepted
    have hemits := hc.emitted_iff h hlist hheight haccepted
    constructor
    · intro h'
      refine ⟨fun _ _ => hcarries.mp ?_, fun _ _ => hemits.mp ⟨hheights ▸ h'.heights, ?_⟩⟩
      · intro block hblock
        exact h'.carries block (by simp [hemitted, hblock])
      · exact h'.carries (first.merge rest) (by simp [hemitted])
    · intro hproper
      obtain ⟨hcons, hlast⟩ := hemits.mpr (hproper.emits _ hout)
      refine ⟨hheights ▸ hcons, ?_⟩
      intro block hblock
      rw [hemitted] at hblock
      rcases List.mem_append.mp hblock with hold | hnew
      · exact hcarries.mpr (hproper.fresh _ hout) block hold
      · rwa [List.mem_singleton.mp hnew]

end Collect

/-- **A refused part changes nothing; the emitted blocks are consecutive and carry their parts
exactly when every part is proper.** -/
theorem blockCollector_iff (nodeID : Bytes) (parts : List CollectedBlockInfo) :
    (∀ (bc : BlockCollector) (part : CollectedBlockInfo) (err : CollectError),
      (bc.Collect part).1 = .error err → (bc.Collect part).2 = bc) ∧
    (Throughout step Assembled (new nodeID) parts ↔ Along step Proper (new nodeID) parts) := by
  refine ⟨fun bc part err => collect_refused, ?_⟩
  have hinv : ∀ s part s', Collecting s → step s part = some s' → Collecting s' := by
    rintro s part _ hc ⟨⟩
    exact collecting_collect hc part
  have hexact : ∀ s part s', Collecting s → Assembled s → step s part = some s' →
      (Assembled s' ↔ Proper s part) := by
    rintro s part _ hc h ⟨⟩
    exact assembled_collect_iff h hc part
  have hidle : ∀ s part, Collecting s → Assembled s → step s part = none → Proper s part := by
    rintro s part _ _ ⟨⟩
  exact throughout_iff_along hinv hexact hidle (collecting_new nodeID) (assembled_new nodeID)

section TwoVersions

def twoChunks (height : Nat) : BlockHead :=
  { emptyHead height with ChunkCount := 2 }

/-- Two parts of one block with the same chunk in different versions, and a part of the next
block. -/
def twoVersions : List CollectedBlockInfo :=
  [⟨twoChunks 1, ⟨1, [[7]]⟩, ⟨1, [[8]]⟩⟩, ⟨twoChunks 1, ⟨2, [[7]]⟩, ⟨2, [[8]]⟩⟩,
    ⟨twoChunks 2, ⟨1, [[9]]⟩, ⟨1, [[8]]⟩⟩]

theorem blockCollector_fails :
    ¬ Throughout step Assembled (new []) twoVersions ∧
      (twoVersions.foldlM step (new [])).map
        (fun s => s.emitted.map (·.Data.DataChunks)) = some [[[7], [7]]] := by
  have hchunks : (twoVersions.foldlM step (new [])).map
      (fun s => s.emitted.map (·.Data.DataChunks)) = some [[[7], [7]]] := by
    decide +kernel
  refine ⟨?_, hchunks⟩
  intro hall
  obtain ⟨s, hrun, hemitted⟩ := Option.map_eq_some_iff.mp hchunks
  have hassembled := hall twoVersions s (List.prefix_refl _) hrun
  have hmem : [[7], [7]] ∈ s.emitted.map (·.Data.DataChunks) := by simp [hemitted]
  obtain ⟨block, hblock, htwice⟩ := List.mem_map.mp hmem
  have honce := (hassembled.carries block hblock).once
  simp [htwice] at honce

end TwoVersions

end Archive

end Topia.Chain
