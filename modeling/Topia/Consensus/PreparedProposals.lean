import Mathlib.Data.List.Nodup
import Mathlib.Data.List.TakeWhile
import Topia.Lib.Consecutive
import Topia.Lib.Iterator
import Topia.Lib.Loop
import Topia.Lib.Run
import Topia.Consensus.Messages

/-!
# The list of the prepared proposals

A proposer keeps what was packed in `ppmPropList`: for each state version a map from domains to
messages. `receivePreparePackedMessagePropStart` of `consensus/proposer.go` adds a message;
`getAvailPPMProp` removes the entries in front of the version after the latest block, and takes that
one. Both hold `syncPPMPropList`, so each is one step. When the first entry is of a later version,
the loop of `getAvailPPMProp` does not end.
-/

namespace Topia.Consensus

open Lib

structure ReceivedPPMProp where
  StateVersion : UInt64
  DomainID : Bytes
  msg : PreparePackedMessageProp
deriving DecidableEq, Repr

inductive ReceivePPMPropError where
  | notSelected
  | noLatestBlock
  | outdated (stateVersion latestHeight : Nat)
  | same (domainID : Bytes) (stateVersion latestHeight : Nat)
  | invalid (expected actual : Nat)
deriving DecidableEq, Repr

/-- How `getAvailPPMProp` ends, with the last entry and the list; `spins` when it does not. -/
inductive AvailLoop where
  | ends (frontPPMPropMap : Option PreparePackedMessagePropMap)
      (ppmPropList : List PreparePackedMessagePropMap)
  | spins (ppmPropList : List PreparePackedMessagePropMap)
deriving DecidableEq, Repr

structure PreparedList where
  ppmPropList : List PreparePackedMessagePropMap
  latestHeight : Nat
  spinning : Bool
deriving DecidableEq, Repr

/-- A block is committed, a message comes in, or the messages after a height are looked for.
`selfSelected` and `readable` are answers of the epoch service and the ledger. -/
inductive PreparedEvent where
  | commit (height : UInt64)
  | receive (ppmProp : ReceivedPPMProp) (selfSelected readable : Bool)
  | avail (latestHeight : UInt64)
deriving DecidableEq, Repr

namespace PreparedList

def start (latestHeight : UInt64) : PreparedList where
  ppmPropList := []
  latestHeight := latestHeight.toNat
  spinning := false

variable (s : PreparedList) (ppmProp : ReceivedPPMProp) (latestHeight : Nat)
  (list : List PreparePackedMessagePropMap)

def newEntry : PreparePackedMessagePropMap where
  StateVersion := ppmProp.StateVersion.toNat
  PPMProps := [(ppmProp.DomainID, ppmProp.msg)]

def addMessage (entry : PreparePackedMessagePropMap) (ppmProp : ReceivedPPMProp) :
    PreparePackedMessagePropMap :=
  { entry with PPMProps := entry.PPMProps ++ [(ppmProp.DomainID, ppmProp.msg)] }

local instance lawfulBEqBytes : LawfulBEq Bytes :=
  inferInstance

def insert : Except ReceivePPMPropError (List PreparePackedMessagePropMap) :=
  match list.getLast? with
  | none => .ok [newEntry ppmProp]
  | some latest =>
    if ppmProp.StateVersion.toNat = latest.StateVersion then
      if ppmProp.DomainID ∈ latest.PPMProps.map Prod.fst then
        .error (.same ppmProp.DomainID ppmProp.StateVersion.toNat latestHeight)
      else .ok (list.dropLast ++ [addMessage latest ppmProp])
    else if ppmProp.StateVersion.toNat = wrap64 (latest.StateVersion + 1) then
      .ok (list ++ [newEntry ppmProp])
    else .error (.invalid (wrap64 (latest.StateVersion + 1)) ppmProp.StateVersion.toNat)

def receive (selfSelected readable : Bool) :
    Except ReceivePPMPropError (List PreparePackedMessagePropMap) :=
  if ¬ selfSelected then .error .notSelected
  else if ¬ readable then .error .noLatestBlock
  else if ppmProp.StateVersion.toNat ≤ s.latestHeight then
    .error (.outdated ppmProp.StateVersion.toNat s.latestHeight)
  else insert ppmProp s.latestHeight s.ppmPropList

def availLoop (next : Nat) (front : Option PreparePackedMessagePropMap) :
    List PreparePackedMessagePropMap → AvailLoop
  | [] => .ends front []
  | entry :: rest =>
    if entry.StateVersion = next then .ends (some entry) (entry :: rest)
    else if entry.StateVersion < next then availLoop next (some entry) rest
    else .spins (entry :: rest)

def availRound (next : Nat) :
    Option PreparePackedMessagePropMap × List PreparePackedMessagePropMap →
      (Option PreparePackedMessagePropMap × List PreparePackedMessagePropMap) ⊕
        (Option PreparePackedMessagePropMap × List PreparePackedMessagePropMap)
  | (front, []) => .inr (front, [])
  | (_, entry :: rest) =>
    if entry.StateVersion = next then .inr (some entry, entry :: rest)
    else if entry.StateVersion < next then .inl (some entry, rest)
    else .inl (some entry, entry :: rest)

def getAvailPPMProp :
    Option (Option PreparePackedMessagePropMap) × List PreparePackedMessagePropMap :=
  match availLoop (wrap64 (latestHeight + 1)) none list with
  | .spins list => (none, list)
  | .ends front list =>
    (some (front.filter fun entry => entry.StateVersion ≠ latestHeight), list)

def step : PreparedEvent → Option PreparedList
  | .commit height => some { s with latestHeight := height.toNat }
  | .receive ppmProp selfSelected readable =>
    if s.spinning then none
    else
      match s.receive ppmProp selfSelected readable with
      | .error _ => some s
      | .ok list => some { s with ppmPropList := list }
  | .avail latestHeight =>
    if s.spinning then none
    else
      some { s with
        ppmPropList := (getAvailPPMProp latestHeight.toNat s.ppmPropList).2
        spinning := (getAvailPPMProp latestHeight.toNat s.ppmPropList).1.isNone }

def InReach (next : Nat) (list : List PreparePackedMessagePropMap) : Prop :=
  ∀ entry ∈ list.find? fun entry => next ≤ entry.StateVersion, entry.StateVersion = next

/-- A search returns the entry after the height, and has removed those up to it. -/
def Trims : Prop :=
  ∀ entry left, getAvailPPMProp latestHeight list = (some (some entry), left) →
    entry.StateVersion = latestHeight + 1 ∧
      left = list.filter fun entry => latestHeight < entry.StateVersion

def versions : List Nat :=
  list.map PreparePackedMessagePropMap.StateVersion

/-- The versions are consecutive and distinct, with one message of a domain in each. -/
structure Prepared : Prop where
  consecutive : Consecutive (versions s.ppmPropList)
  nodup : (versions s.ppmPropList).Nodup
  domains : ∀ entry ∈ s.ppmPropList, (entry.PPMProps.map Prod.fst).Nodup

structure Listed : Prop where
  consecutive : Consecutive (versions list)
  domains : ∀ entry ∈ list, (entry.PPMProps.map Prod.fst).Nodup
  range : ∀ entry ∈ list, entry.StateVersion < 2 ^ 64

open List

section Insert

variable {list list' : List PreparePackedMessagePropMap} {ppmProp : ReceivedPPMProp}
  {latest : PreparePackedMessagePropMap} {latestHeight : Nat}

theorem listed_nil : Listed [] where
  consecutive := consecutive_nil
  domains := by simp
  range := by simp

theorem Listed.suffix (h : Listed list) (hsuffix : list' <:+ list) : Listed list' where
  consecutive := h.consecutive.suffix (hsuffix.map PreparePackedMessagePropMap.StateVersion)
  domains entry hentry := h.domains entry (hsuffix.subset hentry)
  range entry hentry := h.range entry (hsuffix.subset hentry)

theorem listed_concat_iff :
    Listed (list ++ [latest]) ↔
      Listed list ∧ (latest.PPMProps.map Prod.fst).Nodup ∧ latest.StateVersion < 2 ^ 64 ∧
        ∀ last, (versions list).getLast? = some last → latest.StateVersion = last + 1 := by
  have hversions : versions (list ++ [latest]) = versions list ++ [latest.StateVersion] :=
    map_append
  constructor
  · rintro ⟨hconsecutive, hdomains, hrange⟩
    rw [hversions, consecutive_concat] at hconsecutive
    rw [forall_mem_append] at hdomains hrange
    exact ⟨⟨hconsecutive.1, hdomains.1, hrange.1⟩, hdomains.2 latest mem_cons_self,
      hrange.2 latest mem_cons_self, hconsecutive.2⟩
  · rintro ⟨⟨hconsecutive, hdomains, hrange⟩, hnodup, hlt, hnext⟩
    refine ⟨?_, ?_, ?_⟩
    · rw [hversions, consecutive_concat]
      exact ⟨hconsecutive, hnext⟩
    · exact forall_mem_append.mpr ⟨hdomains, by simpa using hnodup⟩
    · exact forall_mem_append.mpr ⟨hrange, by simpa using hlt⟩

theorem nodup_newEntry (ppmProp : ReceivedPPMProp) :
    ((newEntry ppmProp).PPMProps.map Prod.fst).Nodup :=
  nodup_singleton ppmProp.DomainID

theorem listed_insert (h : Listed list) (hpos : 0 < ppmProp.StateVersion.toNat)
    (hinsert : insert ppmProp latestHeight list = .ok list') : Listed list' := by
  cases hlatest : list.getLast? with
  | none =>
    simp only [insert, hlatest] at hinsert
    cases hinsert
    exact listed_concat_iff.mpr
      ⟨listed_nil, nodup_newEntry ppmProp, ppmProp.StateVersion.toNat_lt, by simp [versions]⟩
  | some latest =>
    obtain ⟨init, rfl⟩ := getLast?_eq_some_iff.mp hlatest
    simp only [insert, hlatest] at hinsert
    split_ifs at hinsert with hversion hdomain hnext
    · -- one more domain in the last entry
      cases hinsert
      obtain ⟨hinit, hnodup, hlt, hlast⟩ := listed_concat_iff.mp h
      rw [dropLast_concat]
      refine listed_concat_iff.mpr ⟨hinit, ?_, hlt, hlast⟩
      simp only [addMessage, map_append, map_cons, map_nil]
      rw [← concat_eq_append]
      exact hnodup.concat hdomain
    · cases hinsert
      have hlt := h.range latest (mem_append_right _ mem_cons_self)
      refine listed_concat_iff.mpr ⟨h, nodup_newEntry ppmProp, ppmProp.StateVersion.toNat_lt, ?_⟩
      intro last hlast
      obtain rfl : latest.StateVersion = last := by simpa [versions] using hlast
      -- after the largest version comes version `0`, which is refused as outdated
      unfold wrap64 at hnext
      show ppmProp.StateVersion.toNat = latest.StateVersion + 1
      omega

end Insert

section Avail

variable {next latestHeight : Nat} {front : Option PreparePackedMessagePropMap}
  {list : List PreparePackedMessagePropMap}

theorem availLoop_eq :
    availLoop next front list =
      match list.dropWhile fun entry => entry.StateVersion < next with
      | [] => .ends (list.getLast?.or front) []
      | entry :: rest =>
        if entry.StateVersion = next then .ends (some entry) (entry :: rest)
        else .spins (entry :: rest) := by
  induction list generalizing front with
  | nil => rfl
  | cons entry rest ih =>
    by_cases hlt : entry.StateVersion < next
    · have hne : entry.StateVersion ≠ next := Nat.ne_of_lt hlt
      have hlast : (entry :: rest).getLast?.or front = rest.getLast?.or (some entry) := by
        cases rest <;> simp [getLast?_cons]
      rw [availLoop, if_neg hne, if_pos hlt, ih, dropWhile_cons_of_pos (by simpa using hlt),
        hlast]
    · simp [availLoop, hlt]

theorem getAvailPPMProp_list :
    (getAvailPPMProp latestHeight list).2 =
      list.dropWhile fun entry => entry.StateVersion < wrap64 (latestHeight + 1) := by
  simp only [getAvailPPMProp, availLoop_eq]
  cases hrest : list.dropWhile fun entry =>
      decide (entry.StateVersion < wrap64 (latestHeight + 1)) with
  | nil => rfl
  | cons entry rest =>
    by_cases heq : entry.StateVersion = wrap64 (latestHeight + 1) <;> simp [heq]

theorem availLoop_ends_iff (front : Option PreparePackedMessagePropMap) :
    (∃ front' list', availLoop next front list = .ends front' list') ↔ InReach next list := by
  have hfind : (list.find? fun entry => next ≤ entry.StateVersion) =
      (list.dropWhile fun entry => entry.StateVersion < next).head? := by
    rw [find?_eq_head?_dropWhile_not]
    simp [← decide_not]
  unfold InReach
  rw [availLoop_eq, hfind]
  cases list.dropWhile fun entry => decide (entry.StateVersion < next) with
  | nil => simp
  | cons entry rest =>
    by_cases heq : entry.StateVersion = next <;> simp [heq]

variable {list' rest left : List PreparePackedMessagePropMap}

theorem rounds_of_ends {front' : Option PreparePackedMessagePropMap}
    (hends : availLoop next front list = .ends front' list') :
    rounds (availRound next) (list.length + 1) (front, list) = some (front', list') := by
  induction list generalizing front with
  | nil =>
    cases hends
    rfl
  | cons entry rest ih =>
    rw [availLoop] at hends
    split_ifs at hends with heq hlt
    · cases hends
      exact rounds_of_result (by simp [availRound, heq])
    · have hround : availRound next (front, entry :: rest) = .inl (some entry, rest) := by
        simp [availRound, heq, hlt]
      rw [length_cons, rounds_of_next hround]
      exact ih hends

theorem not_ends_of_spins
    {out : Option PreparePackedMessagePropMap × List PreparePackedMessagePropMap}
    (hspins : availLoop next front list = .spins list') :
    ¬ Ends (availRound next) (front, list) out := by
  induction list generalizing front with
  | nil => cases hspins
  | cons entry rest ih =>
    rw [availLoop] at hspins
    split_ifs at hspins with heq hlt
    · have hround : availRound next (front, entry :: rest) = .inl (some entry, rest) := by
        simp [availRound, heq, hlt]
      rw [ends_of_next hround]
      exact ih hspins
    have hround : ∀ front, availRound next (front, entry :: rest) =
        .inl (some entry, entry :: rest) := by
      intro front
      simp [availRound, heq, hlt]
    rw [ends_of_next (hround front)]
    exact not_ends_of_fixed (hround (some entry))

/-- **A search ends in one pass, or never**: it ends exactly when the first entry not before the
version is of it, or there is none. -/
theorem avail_one_pass_iff (latestHeight : UInt64) (list : List PreparePackedMessagePropMap) :
    ((∃ out, rounds (availRound (wrap64 (latestHeight.toNat + 1))) (list.length + 1)
        (none, list) = some out) ↔ InReach (wrap64 (latestHeight.toNat + 1)) list) ∧
    ((∃ out, Ends (availRound (wrap64 (latestHeight.toNat + 1))) (none, list) out) ↔
      InReach (wrap64 (latestHeight.toNat + 1)) list) := by
  have hends : ∀ out, Ends (availRound (wrap64 (latestHeight.toNat + 1))) (none, list) out →
      InReach (wrap64 (latestHeight.toNat + 1)) list := by
    intro out hout
    rw [← availLoop_ends_iff none]
    cases hloop : availLoop (wrap64 (latestHeight.toNat + 1)) none list with
    | ends front' list' => exact ⟨front', list', rfl⟩
    | spins list' => exact absurd hout (not_ends_of_spins hloop)
  have hpass : InReach (wrap64 (latestHeight.toNat + 1)) list →
      ∃ out, rounds (availRound (wrap64 (latestHeight.toNat + 1))) (list.length + 1)
        (none, list) = some out := by
    intro hreach
    obtain ⟨front', list', hloop⟩ := (availLoop_ends_iff none).mpr hreach
    exact ⟨(front', list'), rounds_of_ends hloop⟩
  refine ⟨⟨?_, hpass⟩, ⟨?_, ?_⟩⟩
  · rintro ⟨out, hout⟩
    exact hends out ⟨_, hout⟩
  · rintro ⟨out, hout⟩
    exact hends out hout
  · intro hreach
    obtain ⟨out, hout⟩ := hpass hreach
    exact ⟨out, _, hout⟩

/-- At height `5` version `9` is taken into the empty list; the search for `6` does not end. -/
theorem avail_never_ends :
    let ppmProp : ReceivedPPMProp := ⟨9, ascii "a", ⟨[], [], [], [], []⟩⟩
    [PreparedEvent.receive ppmProp true true].foldlM step (start 5) =
        some { start 5 with ppmPropList := [newEntry ppmProp] } ∧
      ∀ out, ¬ Ends (availRound (wrap64 (5 + 1))) (none, [newEntry ppmProp]) out := by
  intro ppmProp
  refine ⟨rfl, fun out => ?_⟩
  have hspins : availLoop (wrap64 (5 + 1)) none [newEntry ppmProp] =
      .spins [newEntry ppmProp] := rfl
  exact not_ends_of_spins hspins

theorem dropWhile_versions (h : Consecutive (versions list)) (latestHeight : Nat) :
    (list.dropWhile fun entry => entry.StateVersion < latestHeight + 1) =
      list.filter fun entry => latestHeight < entry.StateVersion := by
  have hincreasing : list.Pairwise fun a b => a.StateVersion < b.StateVersion :=
    pairwise_map.mp h.increasing
  rw [dropWhile_eq_filter hincreasing]
  · refine filter_congr fun entry _ => ?_
    simp only [← decide_not, Nat.not_lt, Nat.succ_le_iff]
  · intro a b hab hb
    simp only [decide_eq_true_eq] at hb ⊢
    omega

theorem getAvailPPMProp_of_all
    (hall : ∀ entry ∈ list, entry.StateVersion < wrap64 (latestHeight + 1)) :
    getAvailPPMProp latestHeight list =
      (some (list.getLast?.filter fun entry => entry.StateVersion ≠ latestHeight), []) := by
  have hrest : (list.dropWhile fun entry =>
      decide (entry.StateVersion < wrap64 (latestHeight + 1))) = [] := by
    simpa [dropWhile_eq_nil_iff] using hall
  rw [getAvailPPMProp, availLoop_eq, hrest, Option.or_none]

theorem getAvailPPMProp_of_left {entry found : PreparePackedMessagePropMap}
    (hrest : (list.dropWhile fun entry =>
      decide (entry.StateVersion < wrap64 (latestHeight + 1))) = entry :: rest)
    (hfound : getAvailPPMProp latestHeight list = (some (some found), left)) :
    found.StateVersion = wrap64 (latestHeight + 1) ∧ left = entry :: rest := by
  rw [getAvailPPMProp, availLoop_eq, hrest] at hfound
  by_cases heq : entry.StateVersion = wrap64 (latestHeight + 1)
  · simp only [if_pos heq, Prod.mk.injEq, Option.some.injEq] at hfound
    obtain ⟨hsome, rfl⟩ := hfound
    obtain rfl : entry = found := Option.some.inj (Option.filter_eq_some_iff.mp hsome).1
    exact ⟨heq, rfl⟩
  · simp [heq] at hfound

theorem trims_iff_of_lt (h : Consecutive (versions list)) (hheight : latestHeight + 1 < 2 ^ 64) :
    Trims latestHeight list ↔ ∀ last ∈ list.getLast?, latestHeight ≤ last.StateVersion := by
  have hnext : wrap64 (latestHeight + 1) = latestHeight + 1 := Nat.mod_eq_of_lt hheight
  have hleft := dropWhile_versions h latestHeight
  cases hrest : list.dropWhile fun entry => decide (entry.StateVersion < latestHeight + 1) with
  | nil =>
    have hall : ∀ entry ∈ list, entry.StateVersion < latestHeight + 1 := by
      simpa using dropWhile_eq_nil_iff.mp hrest
    have havail := getAvailPPMProp_of_all (by rwa [hnext])
    constructor
    · intro htrims last hlast
      by_contra hlt
      have hfilter : (list.getLast?.filter fun entry => entry.StateVersion ≠ latestHeight) =
          some last :=
        Option.filter_eq_some_iff.mpr ⟨hlast, by simp; omega⟩
      have hversion := (htrims last [] (by rw [havail, hfilter])).1
      omega
    · intro hge entry left hfound
      -- the last entry is that of the height, so the search is an error
      rw [havail, Prod.mk.injEq, Option.some.injEq, Option.filter_eq_some_iff] at hfound
      obtain ⟨⟨hlast, hne⟩, -⟩ := hfound
      have hle := hall entry (mem_of_getLast? hlast)
      have hge := hge entry hlast
      exact absurd (show entry.StateVersion = latestHeight by omega) (by simpa using hne)
  | cons entry rest =>
    rw [hrest] at hleft
    constructor
    · intro _ last hlast
      obtain ⟨front, hfront⟩ : entry :: rest <:+ list := hrest ▸ dropWhile_suffix _
      have hmem : last ∈ entry :: rest := by
        rw [← hfront, getLast?_append_of_ne_nil _ (cons_ne_nil _ _)] at hlast
        exact mem_of_getLast? hlast
      rw [hleft, mem_filter] at hmem
      have hlater : latestHeight < last.StateVersion := by simpa using hmem.2
      omega
    · intro _ found left hfound
      obtain ⟨hversion, rfl⟩ := getAvailPPMProp_of_left (by rwa [hnext]) hfound
      exact ⟨by rw [hversion, hnext], hleft⟩

theorem trims_iff_of_largest (hheight : latestHeight + 1 = 2 ^ 64) :
    Trims latestHeight list ↔ ∀ first ∈ list.head?, first.StateVersion ≠ 0 := by
  have hnext : wrap64 (latestHeight + 1) = 0 := by
    rw [hheight]
    rfl
  unfold Trims
  simp only [getAvailPPMProp, hnext]
  cases list with
  | nil => simp [availLoop]
  | cons first rest =>
    by_cases hzero : first.StateVersion = 0
    · simp [availLoop, hzero]
      omega
    · simp [availLoop, hzero]

/-- **When a search trims the list**: unless it ends before the height, or the height is the largest
and the list begins with version `0`. -/
theorem avail_trims_iff (latestHeight : UInt64) {list : List PreparePackedMessagePropMap}
    (h : Consecutive (versions list)) :
    Trims latestHeight.toNat list ↔
      (latestHeight.toNat + 1 < 2 ^ 64 →
        ∀ last ∈ list.getLast?, latestHeight.toNat ≤ last.StateVersion) ∧
      (latestHeight.toNat + 1 = 2 ^ 64 → ∀ first ∈ list.head?, first.StateVersion ≠ 0) := by
  have hle := latestHeight.toNat_lt
  by_cases hheight : latestHeight.toNat + 1 < 2 ^ 64
  · rw [trims_iff_of_lt h hheight]
    constructor
    · intro hlast
      exact ⟨fun _ => hlast, fun heq => absurd heq (Nat.ne_of_lt hheight)⟩
    · intro hboth
      exact hboth.1 hheight
  · have heq : latestHeight.toNat + 1 = 2 ^ 64 := by omega
    rw [trims_iff_of_largest heq]
    constructor
    · intro hfirst
      exact ⟨fun hlt => absurd hlt hheight, fun _ => hfirst⟩
    · intro hboth
      exact hboth.2 heq

theorem avail_trims_from_seven :
    let list : List PreparePackedMessagePropMap := [⟨6, []⟩, ⟨7, []⟩, ⟨8, []⟩]
    Consecutive (versions list) ∧ Trims 6 list := by
  intro list
  have h : Consecutive (versions list) := by simp [list, versions, Consecutive]
  exact ⟨h, (avail_trims_iff 6 h).mpr ⟨by simp [list], by simp⟩⟩

/-- Version `3` is taken at height `2`; seven blocks later a search removes and returns it. -/
theorem avail_returns_removed :
    let ppmProp : ReceivedPPMProp := ⟨3, ascii "a", ⟨[], [], [], [], []⟩⟩
    [PreparedEvent.receive ppmProp true true, .commit 7].foldlM step (start 2) =
        some { start 7 with ppmPropList := [newEntry ppmProp] } ∧
      getAvailPPMProp 7 [newEntry ppmProp] = (some (some (newEntry ppmProp)), []) ∧
      (newEntry ppmProp).StateVersion = 3 :=
  ⟨rfl, rfl, rfl⟩

end Avail

section Run

variable {s s' : PreparedList} {event : PreparedEvent}

theorem listed_receive {ppmProp : ReceivedPPMProp} {selfSelected readable : Bool}
    {list : List PreparePackedMessagePropMap} (h : Listed s.ppmPropList)
    (hreceive : s.receive ppmProp selfSelected readable = .ok list) : Listed list := by
  unfold receive at hreceive
  split_ifs at hreceive with hselected hreadable houtdated
  exact listed_insert h (by omega) hreceive

theorem listed_step (h : Listed s.ppmPropList) (hstep : s.step event = some s') :
    Listed s'.ppmPropList := by
  cases event with
  | commit height =>
    cases hstep
    exact h
  | receive ppmProp selfSelected readable =>
    simp only [step] at hstep
    split_ifs at hstep
    cases hreceive : s.receive ppmProp selfSelected readable with
    | error err =>
      rw [hreceive] at hstep
      cases hstep
      exact h
    | ok list =>
      rw [hreceive] at hstep
      cases hstep
      exact listed_receive h hreceive
  | avail latestHeight =>
    simp only [step] at hstep
    split_ifs at hstep
    cases hstep
    rw [getAvailPPMProp_list]
    exact h.suffix (dropWhile_suffix _)

theorem prepared_of_listed (h : Listed s.ppmPropList) : Prepared s where
  consecutive := h.consecutive
  nodup := h.consecutive.increasing.imp Nat.ne_of_lt
  domains := h.domains

/-- **The list is consecutive in every run**, with one message of a domain in each version. -/
theorem prepared_of_run (latestHeight : UInt64) (events : List PreparedEvent) :
    Throughout step Prepared (start latestHeight) events := by
  intro before s _ hrun
  have hlisted : Listed s.ppmPropList :=
    run_invariant (fun _ _ _ => listed_step) listed_nil hrun
  exact prepared_of_listed hlisted

end Run

end PreparedList

end Topia.Consensus
