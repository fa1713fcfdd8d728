import Topia.Consensus.ActiveWeights

/-!
# The members of the selected domain

Every member of the selected consensus domain sends a `ConsensusDomainSelectedMessage` to the
executors. `startConsensusDomainSelectedMsg` of `consensus/executor.go` collects as many as they say
the domain has members, and hands the members to `UpdateData` of the epoch service.

A message is compared with the last one only, so a member can be collected twice; and during a
collection every other domain is refused.
-/

namespace Topia.Consensus

open Lib

inductive CollectError where
  | same (domainID : Bytes) (memberNumber : UInt32) (nodeIDOfMember : Bytes)
  | invalid (domainID expectedID : Bytes) (memberNumber expectedNumber : UInt32)
      (nodeIDOfMember : Bytes)
deriving DecidableEq, Repr

structure UpdateCall where
  msgs : List ConsensusDomainSelectedMessage
  csDomainMember : List NodeDomainMember
deriving DecidableEq, Repr

structure DomainCollection where
  csDomainSelMsgList : List ConsensusDomainSelectedMessage
  csDomainSelMembers : List NodeDomainMember
  updates : List UpdateCall
  errors : List CollectError
deriving DecidableEq, Repr

namespace DomainCollection

def new : DomainCollection where
  csDomainSelMsgList := []
  csDomainSelMembers := []
  updates := []
  errors := []

variable (s : DomainCollection) (msg : ConsensusDomainSelectedMessage)

def member : NodeDomainMember where
  NodeID := msg.NodeIDOfMember
  NodeRole := msg.NodeRoleOfMember
  Weight := msg.NodeWeightOfMember

def compareLast : Option ConsensusDomainSelectedMessage → Except CollectError UInt32
  | none => .ok msg.MemberNumber
  | some last =>
    if msg.DomainID = last.DomainID ∧ msg.MemberNumber = last.MemberNumber then
      if msg.NodeIDOfMember = last.NodeIDOfMember then
        .error (.same msg.DomainID msg.MemberNumber msg.NodeIDOfMember)
      else .ok last.MemberNumber
    else
      .error (.invalid msg.DomainID last.DomainID msg.MemberNumber last.MemberNumber
        msg.NodeIDOfMember)

def add (requiredMemberNumber : UInt32) : DomainCollection :=
  if UInt32.ofNat (s.csDomainSelMsgList ++ [msg]).length = requiredMemberNumber then
    { s with
      csDomainSelMsgList := []
      csDomainSelMembers := []
      updates := s.updates ++
        [⟨s.csDomainSelMsgList ++ [msg], s.csDomainSelMembers ++ [member msg]⟩] }
  else
    { s with
      csDomainSelMsgList := s.csDomainSelMsgList ++ [msg]
      csDomainSelMembers := s.csDomainSelMembers ++ [member msg] }

def collect : DomainCollection :=
  match compareLast msg s.csDomainSelMsgList.getLast? with
  | .error err => { s with errors := s.errors ++ [err] }
  | .ok requiredMemberNumber => s.add msg requiredMemberNumber

def step : Option DomainCollection :=
  some (s.collect msg)

def OneDomain (msgs : List ConsensusDomainSelectedMessage) (domainID : Bytes)
    (memberNumber : UInt32) : Prop :=
  ∀ msg ∈ msgs, msg.DomainID = domainID ∧ msg.MemberNumber = memberNumber

def Exact (u : UpdateCall) : Prop :=
  ∃ domainID memberNumber, OneDomain u.msgs domainID memberNumber ∧
    u.csDomainMember = u.msgs.map member ∧
    u.csDomainMember.length = memberNumber.toNat ∧
    (u.csDomainMember.map NodeDomainMember.NodeID).Nodup

/-- All updates are exact, and no domain was refused. -/
structure Collects : Prop where
  exact : ∀ u ∈ s.updates, Exact u
  unblocked : ∀ domainID expectedID memberNumber expectedNumber nodeID,
    .invalid domainID expectedID memberNumber expectedNumber nodeID ∈ s.errors →
      domainID = expectedID

def Finishes : Prop :=
  ∃ requiredMemberNumber,
    compareLast msg s.csDomainSelMsgList.getLast? = .ok requiredMemberNumber ∧
      UInt32.ofNat (s.csDomainSelMsgList ++ [msg]).length = requiredMemberNumber

/-- The message is of the collected domain, and with the last one each member has sent once. -/
structure Orderly : Prop where
  domain : ∀ last ∈ s.csDomainSelMsgList.getLast?, msg.DomainID = last.DomainID
  finished : s.Finishes msg → msg.MemberNumber ≠ 0 ∧
    ((s.csDomainSelMsgList ++ [msg]).map (·.NodeIDOfMember)).Nodup

structure Unfinished : Prop where
  members : s.csDomainSelMembers = s.csDomainSelMsgList.map member
  domain : ∀ last ∈ s.csDomainSelMsgList.getLast?,
    OneDomain s.csDomainSelMsgList last.DomainID last.MemberNumber
  few : ∀ last ∈ s.csDomainSelMsgList.getLast?,
    s.csDomainSelMsgList.length < last.MemberNumber.toNat ∨
      (last.MemberNumber = 0 ∧ s.csDomainSelMsgList.length < 2 ^ 32)

section Collect

variable {s : DomainCollection} {msg : ConsensusDomainSelectedMessage}

theorem collect_cases (s : DomainCollection) (msg : ConsensusDomainSelectedMessage) :
    (∃ last ∈ s.csDomainSelMsgList.getLast?, msg.DomainID = last.DomainID ∧ ¬ s.Finishes msg ∧
      s.collect msg = { s with errors := s.errors ++
        [.same msg.DomainID msg.MemberNumber msg.NodeIDOfMember] }) ∨
    (∃ last ∈ s.csDomainSelMsgList.getLast?, ¬ s.Finishes msg ∧
      s.collect msg = { s with errors := s.errors ++
        [.invalid msg.DomainID last.DomainID msg.MemberNumber last.MemberNumber
          msg.NodeIDOfMember] }) ∨
    ((∀ last ∈ s.csDomainSelMsgList.getLast?,
        msg.DomainID = last.DomainID ∧ msg.MemberNumber = last.MemberNumber) ∧
      (s.Finishes msg ↔ UInt32.ofNat (s.csDomainSelMsgList ++ [msg]).length = msg.MemberNumber) ∧
      s.collect msg = s.add msg msg.MemberNumber) := by
  cases hlast : s.csDomainSelMsgList.getLast? with
  | none =>
    right
    right
    simp only [Finishes, collect, hlast, compareLast, Except.ok.injEq, exists_eq_left']
    simp
  | some last =>
    by_cases hsame : msg.DomainID = last.DomainID ∧ msg.MemberNumber = last.MemberNumber
    · obtain ⟨hdomain, hnumber⟩ := hsame
      by_cases hnode : msg.NodeIDOfMember = last.NodeIDOfMember
      · left
        exact ⟨last, rfl, hdomain, by simp [Finishes, hlast, compareLast, hdomain, hnumber, hnode],
          by simp [collect, hlast, compareLast, hdomain, hnumber, hnode]⟩
      · right
        right
        simp only [Finishes, collect, hlast, compareLast, hdomain, hnumber, hnode, and_self,
          if_true, if_false, Except.ok.injEq, exists_eq_left']
        simp
    · right
      left
      exact ⟨last, rfl, by simp [Finishes, hlast, compareLast, hsame],
        by simp [collect, hlast, compareLast, hsame]⟩

theorem ofNat_eq_iff {k : Nat} {n : UInt32} : UInt32.ofNat k = n ↔ k % 2 ^ 32 = n.toNat := by
  rw [← UInt32.toNat_inj, UInt32.toNat_ofNat']

open List

section Agreeing

variable (h : s.Unfinished)
  (hagrees : ∀ last ∈ s.csDomainSelMsgList.getLast?,
    msg.DomainID = last.DomainID ∧ msg.MemberNumber = last.MemberNumber)
include h hagrees

theorem Unfinished.few_of_agrees :
    s.csDomainSelMsgList.length < msg.MemberNumber.toNat ∨
      (msg.MemberNumber = 0 ∧ s.csDomainSelMsgList.length < 2 ^ 32) := by
  cases hlast : s.csDomainSelMsgList.getLast? with
  | none =>
    have hnil : s.csDomainSelMsgList = [] := getLast?_eq_none_iff.mp hlast
    by_cases hzero : msg.MemberNumber = 0
    · exact .inr ⟨hzero, by simp [hnil]⟩
    · left
      have hne : msg.MemberNumber.toNat ≠ 0 := by simpa [← UInt32.toNat_inj] using hzero
      simp only [hnil, length_nil]
      omega
  | some last =>
    rw [(hagrees last hlast).2]
    exact h.few last hlast

theorem Unfinished.oneDomain_concat :
    OneDomain (s.csDomainSelMsgList ++ [msg]) msg.DomainID msg.MemberNumber := by
  intro m hm
  rcases mem_append.mp hm with hold | hnew
  · cases hlast : s.csDomainSelMsgList.getLast? with
    | none =>
      rw [getLast?_eq_none_iff.mp hlast] at hold
      cases hold
    | some last =>
      obtain ⟨hdomain, hnumber⟩ := hagrees last hlast
      rw [hdomain, hnumber]
      exact h.domain last hlast m hold
  · rw [mem_singleton.mp hnew]
    exact ⟨rfl, rfl⟩

end Agreeing

theorem unfinished_collect (h : s.Unfinished) (msg : ConsensusDomainSelectedMessage) :
    (s.collect msg).Unfinished := by
  rcases collect_cases s msg with ⟨_, _, _, _, heq⟩ | ⟨_, _, _, heq⟩ | ⟨hagrees, hfinishes, heq⟩
  · rw [heq]
    exact { h with }
  · rw [heq]
    exact { h with }
  · rw [heq, add]
    split_ifs with hfinished
    · exact ⟨rfl, by simp, by simp⟩
    · have hfew := h.few_of_agrees hagrees
      rw [ofNat_eq_iff, length_append, length_singleton] at hfinished
      refine ⟨?_, ?_, ?_⟩
      · rw [h.members, map_append]
        rfl
      · intro last hlast
        obtain rfl : msg = last := by simpa using hlast
        exact h.oneDomain_concat hagrees
      · intro last hlast
        obtain rfl : msg = last := by simpa using hlast
        have hlt := msg.MemberNumber.toNat_lt
        simp only [length_append, length_singleton]
        rcases hfew with hfew | ⟨hzero, hfew⟩
        · omega
        · refine .inr ⟨hzero, ?_⟩
          simp only [hzero, UInt32.toNat_zero] at hfinished
          omega

theorem exact_iff (h : s.Unfinished)
    (hagrees : ∀ last ∈ s.csDomainSelMsgList.getLast?,
      msg.DomainID = last.DomainID ∧ msg.MemberNumber = last.MemberNumber)
    (hfinished : UInt32.ofNat (s.csDomainSelMsgList ++ [msg]).length = msg.MemberNumber) :
    Exact ⟨s.csDomainSelMsgList ++ [msg], s.csDomainSelMembers ++ [member msg]⟩ ↔
      msg.MemberNumber ≠ 0 ∧ ((s.csDomainSelMsgList ++ [msg]).map (·.NodeIDOfMember)).Nodup := by
  have hmembers : s.csDomainSelMembers ++ [member msg] =
      (s.csDomainSelMsgList ++ [msg]).map member := by
    rw [h.members, map_append]
    rfl
  have hids : (s.csDomainSelMembers ++ [member msg]).map NodeDomainMember.NodeID =
      (s.csDomainSelMsgList ++ [msg]).map (·.NodeIDOfMember) := by
    rw [hmembers, map_map]
    rfl
  have hlength : (s.csDomainSelMembers ++ [member msg]).length =
      (s.csDomainSelMsgList ++ [msg]).length := by
    rw [hmembers, length_map]
  have hnumber : (s.csDomainSelMsgList ++ [msg]).length = msg.MemberNumber.toNat ↔
      msg.MemberNumber ≠ 0 := by
    have hfew := h.few_of_agrees hagrees
    rw [ofNat_eq_iff] at hfinished
    rw [length_append, length_singleton] at hfinished ⊢
    rw [Ne, ← UInt32.toNat_inj, UInt32.toNat_zero]
    constructor
    · omega
    · intro hne
      rcases hfew with hfew | ⟨hzero, _⟩
      · rwa [Nat.mod_eq_of_lt (by omega)] at hfinished
      · simp [hzero] at hne
  have hdomain := h.oneDomain_concat hagrees
  constructor
  · rintro ⟨domainID, memberNumber, hone, _, hcount, hnodup⟩
    obtain ⟨-, rfl⟩ := hone msg (by simp)
    exact ⟨hnumber.mp (hlength ▸ hcount), hids ▸ hnodup⟩
  · rintro ⟨hne, hnodup⟩
    exact ⟨_, _, hdomain, hmembers, hlength.trans (hnumber.mpr hne), hids.symm ▸ hnodup⟩

theorem collects_collect_iff (h : s.Collects) (hunfinished : s.Unfinished)
    (msg : ConsensusDomainSelectedMessage) : (s.collect msg).Collects ↔ s.Orderly msg := by
  rcases collect_cases s msg with ⟨last, hlast, hdomain, hnot, heq⟩ | ⟨last, hlast, hnot, heq⟩ |
    ⟨hagrees, hfinishes, heq⟩
  · rw [heq]
    refine iff_of_true ⟨h.exact, ?_⟩ ⟨?_, fun hfinishes => absurd hfinishes hnot⟩
    · intro domainID expectedID memberNumber expectedNumber nodeID hmem
      rcases mem_append.mp hmem with hold | hnew
      · exact h.unblocked _ _ _ _ _ hold
      · cases mem_singleton.mp hnew
    · intro last' hlast'
      cases Option.mem_unique hlast hlast'
      exact hdomain
  · rw [heq]
    constructor
    · intro hcollects
      have hdomain := hcollects.unblocked msg.DomainID last.DomainID msg.MemberNumber
        last.MemberNumber msg.NodeIDOfMember (by simp)
      refine ⟨?_, fun hfinishes => absurd hfinishes hnot⟩
      intro last' hlast'
      cases Option.mem_unique hlast hlast'
      exact hdomain
    · intro horderly
      refine ⟨h.exact, ?_⟩
      intro domainID expectedID memberNumber expectedNumber nodeID hmem
      rcases mem_append.mp hmem with hold | hnew
      · exact h.unblocked _ _ _ _ _ hold
      · cases mem_singleton.mp hnew
        exact horderly.domain last hlast
  · rw [heq, add]
    have hdomain : ∀ last ∈ s.csDomainSelMsgList.getLast?, msg.DomainID = last.DomainID :=
      fun last hlast => (hagrees last hlast).1
    split_ifs with hfinished
    · have hexact := exact_iff hunfinished hagrees hfinished
      constructor
      · intro hcollects
        exact ⟨hdomain, fun _ => hexact.mp (hcollects.exact _ (by simp))⟩
      intro horderly
      refine ⟨?_, h.unblocked⟩
      intro u hu
      rcases mem_append.mp hu with hold | hnew
      · exact h.exact u hold
      · rw [mem_singleton.mp hnew]
        exact hexact.mpr (horderly.finished (hfinishes.mpr hfinished))
    · exact iff_of_true { h with }
        ⟨hdomain, fun hfin => absurd (hfinishes.mp hfin) hfinished⟩

end Collect

section Run

theorem unfinished_new : new.Unfinished :=
  ⟨rfl, by simp [new], by simp [new]⟩

theorem collects_new : new.Collects :=
  ⟨by simp [new], by simp [new]⟩

/-- **When the collection is right**: exactly when no message of another domain comes in during a
collection, and in a finished one every member has sent once. -/
theorem domainCollection_iff (msgs : List ConsensusDomainSelectedMessage) :
    Throughout step Collects new msgs ↔ Along step Orderly new msgs := by
  have hinv : ∀ s msg s', Unfinished s → step s msg = some s' → Unfinished s' := by
    rintro s msg s' h ⟨⟩
    exact unfinished_collect h msg
  have hexact : ∀ s msg s', Unfinished s → Collects s → step s msg = some s' →
      (Collects s' ↔ Orderly s msg) := by
    rintro s msg s' hunfinished h ⟨⟩
    exact collects_collect_iff h hunfinished msg
  exact throughout_iff_along hinv hexact (by rintro s msg _ _ ⟨⟩) unfinished_new collects_new

def selectedMsg (domainID : Bytes) (memberNumber : UInt32) (nodeID : Bytes) :
    ConsensusDomainSelectedMessage :=
  ⟨[], 1, domainID, memberNumber, nodeID, 4, 1⟩

def repeatedMember : List ConsensusDomainSelectedMessage :=
  [selectedMsg [1] 3 [10], selectedMsg [1] 3 [11], selectedMsg [1] 3 [10]]

def staleDomain : List ConsensusDomainSelectedMessage :=
  [selectedMsg [1] 2 [10], selectedMsg [2] 2 [10], selectedMsg [2] 2 [11]]

/-- A member that sends twice counts as two. A new domain is refused for one old member. -/
theorem domainCollection_fails :
    (repeatedMember.foldl collect new).updates =
        [⟨repeatedMember, [⟨[10], 4, 1⟩, ⟨[11], 4, 1⟩, ⟨[10], 4, 1⟩]⟩] ∧
      (ActiveNodes.table [] [] (repeatedMember.map member)).activeValidatorIDs =
        [[10], [11], [10]] ∧
      (ActiveNodes.table [] [] (repeatedMember.map member)).activeValidatorWeights = 3 ∧
      (staleDomain.foldl collect new).updates = [] ∧
      (staleDomain.foldl collect new).errors =
        [.invalid [2] [1] 2 2 [10], .invalid [2] [1] 2 2 [11]] := by
  decide

end Run

end DomainCollection

end Topia.Consensus
