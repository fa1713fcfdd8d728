import Topia.Consensus.DkgPhases
import Mathlib.Data.List.Perm.Subperm

/-!
# An orderly exchange

The invariant `Exchanging` of a node with one exchange: its loops are in a phase, and its reports
are those of different participants with one key. As many reports as other participants are then all
reports, and an update that finds them is complete.
-/

namespace Topia.Consensus

namespace DkgNode

section Exchanging

variable {G D R : Type}

def Genuine (pubKey : Bytes) (s : DkgNode G D R) (d : DkgCrypt G D R)
    (msg : DKGFinishedMessage) : Prop :=
  msg.TriggerNumber = d.triggerNumber ∧ msg.PubPolyCommit = pubKey ∧
    msg.NodeID ∈ s.participants ∧ msg.NodeID ≠ s.nodeID

open DKGFinishedMessage

structure Roster (pubKey : Bytes) (s : DkgNode G D R) (d : DkgCrypt G D R)
    (msgs : List DKGFinishedMessage) : Prop where
  genuine : ∀ msg ∈ msgs, s.Genuine pubKey d msg
  distinct : (msgs.map NodeID).Nodup

def party (s : DkgNode G D R) (d : DkgCrypt G D R) :
    Bytes × List Bytes × Nat × Bool × UInt64 × Nat :=
  (s.nodeID, s.participants, s.dkgBLSUpdaters, s.starting.isSome, d.triggerNumber, d.nParticipant)

open DkgLoop

structure Exchanging (lib : DistKeyGenerator G D R) (pubKey : Bytes) (s : DkgNode G D R)
    (d : DkgCrypt G D R) (loops : List (DkgLoop D R)) : Prop where
  crypts : s.crypts = [d]
  updaters : s.dkgBLSUpdaters = 1
  nodup : s.participants.Nodup
  self : s.nodeID ∈ s.participants
  size : d.nParticipant = s.participants.length
  roster : s.Roster pubKey d (d.remoteFinished ++ loops.filterMap report)
  phases : Phases (lib.Certified d.dkGenerator) (lib.PubKey d.dkGenerator = some pubKey)
    s.starting.isSome s.finishedCh (loops.map kind)
  updates : Updates s.nodeID d.triggerNumber d.nParticipant d.remoteFinished.length s.finishedCh
    (busy (loops.map kind)) s.updates

variable {lib : DistKeyGenerator G D R} {pubKey : Bytes} {s s' : DkgNode G D R}
  {d d' : DkgCrypt G D R} {loops loops' rest : List (DkgLoop D R)} {loop next : DkgLoop D R}
  {msg : DKGFinishedMessage} {msgs : List DKGFinishedMessage}

theorem processAdvanceResp_certified (g : G) (resps : List R) (hcert : lib.Certified g = true) :
    lib.Certified (processAdvanceResp lib g resps) = true ∧
      lib.PubKey (processAdvanceResp lib g resps) = lib.PubKey g := by
  induction resps generalizing g with
  | nil => exact ⟨hcert, rfl⟩
  | cons resp resps ih =>
    obtain ⟨hkept, hsame⟩ := lib.certified_ProcessResponse g resp hcert
    unfold processAdvanceResp
    split
    · next g' heq =>
        rw [heq] at hkept hsame
        rw [← hsame]
        exact ih g' hkept
    · next g' heq =>
        rw [heq] at hkept hsame
        rw [← hsame]
        exact ih g' hkept
    · next g' _ _ heq =>
        rw [heq] at hkept hsame
        exact ⟨hkept, hsame⟩

theorem Roster.perm {msgs' : List DKGFinishedMessage} (h : s.Roster pubKey d msgs)
    (hperm : msgs.Perm msgs') : s.Roster pubKey d msgs' :=
  ⟨fun msg hmsg => h.genuine msg (hperm.mem_iff.mpr hmsg), (hperm.map _).nodup_iff.mp h.distinct⟩

theorem Roster.sublist {msgs' : List DKGFinishedMessage} (h : s.Roster pubKey d msgs)
    (hsub : msgs'.Sublist msgs) : s.Roster pubKey d msgs' :=
  ⟨fun msg hmsg => h.genuine msg (hsub.subset hmsg), (hsub.map _).nodup h.distinct⟩

namespace Exchanging

open List

section Exchanging

variable (h : Exchanging lib pubKey s d loops)
include h

theorem perm (hperm : loops.Perm loops') : Exchanging lib pubKey s d loops' := by
  have hbusy : busy (loops'.map kind) = busy (loops.map kind) := by
    unfold busy
    rw [(hperm.map kind).count_eq, (hperm.map kind).count_eq]
  have hupdates := h.updates
  rw [← hbusy] at hupdates
  exact ⟨h.crypts, h.updaters, h.nodup, h.self, h.size,
    h.roster.perm ((hperm.filterMap _).append_left _), h.phases.perm (hperm.map _), hupdates⟩

theorem current : s.dkgCrypt = some d := by
  rw [dkgCrypt, h.crypts]
  rfl

theorem subperm_others :
    ((d.remoteFinished ++ loops.filterMap report).map
      NodeID).Subperm (s.participants.erase s.nodeID) := by
  refine subperm_of_subset h.roster.distinct (fun id hid => ?_)
  obtain ⟨msg, hmsg, rfl⟩ := mem_map.mp hid
  obtain ⟨_, _, hmem, hne⟩ := h.roster.genuine msg hmsg
  exact (h.nodup.mem_erase_iff).mpr ⟨hne, hmem⟩

theorem length_others : (s.participants.erase s.nodeID).length + 1 = d.nParticipant := by
  have hpos := length_pos_of_mem h.self
  rw [length_erase_of_mem h.self, h.size]
  omega

theorem length_taken :
    d.remoteFinished.length + (loops.filterMap report).length + 1 ≤ d.nParticipant := by
  have hle := h.subperm_others.length_le
  rw [length_map, length_append] at hle
  have hothers := h.length_others
  omega

theorem complete_update (hlength : d.nParticipant ≤ d.remoteFinished.length + 1)
    (hkey : ∀ msg ∈ d.remoteFinished, lib.PubKey d.dkGenerator = some msg.PubPolyCommit) :
    DkgUpdate.Complete s.nodeID
      ⟨d.triggerNumber, s.participants, d.remoteFinished, lib.PubKey d.dkGenerator⟩ := by
  have hperm : (d.remoteFinished.map NodeID).Perm
      (s.participants.erase s.nodeID) := by
    have hsub : (d.remoteFinished.map NodeID).Subperm
        (s.participants.erase s.nodeID) := by
      have htaken := h.subperm_others
      rw [map_append] at htaken
      exact (sublist_append_left _ _).subperm.trans htaken
    refine hsub.perm_of_length_le ?_
    have hothers := h.length_others
    rw [length_map]
    omega
  intro other hmem hne
  obtain ⟨msg, hmsg, rfl⟩ :=
    mem_map.mp (hperm.mem_iff.mpr ((h.nodup.mem_erase_iff).mpr ⟨hne, hmem⟩))
  exact ⟨msg, hmsg, rfl, (h.roster.genuine msg (mem_append_left _ hmsg)).1, hkey msg hmsg⟩

theorem rebuild (hcrypts : s'.crypts = [d'])
    (hsame : s'.party d' = s.party d)
    (hroster : s.Roster pubKey d (d'.remoteFinished ++ loops'.filterMap report))
    (hphases : Phases (lib.Certified d'.dkGenerator) (lib.PubKey d'.dkGenerator = some pubKey)
      s.starting.isSome s'.finishedCh (loops'.map kind))
    (hupdates : Updates s.nodeID d.triggerNumber d.nParticipant d'.remoteFinished.length
      s'.finishedCh (busy (loops'.map kind)) s'.updates) :
    Exchanging lib pubKey s' d' loops' := by
  simp only [party, Prod.mk.injEq] at hsame
  obtain ⟨hid, hparticipants, hupdaters, hstarting, htrigger, hsize⟩ := hsame
  refine ⟨hcrypts, hupdaters ▸ h.updaters, hparticipants ▸ h.nodup, ?_, ?_, ⟨?_, hroster.distinct⟩,
    hstarting ▸ hphases, ?_⟩
  · rw [hid, hparticipants]
    exact h.self
  · rw [hsize, hparticipants]
    exact h.size
  · intro msg hmsg
    have hgenuine := hroster.genuine msg hmsg
    unfold Genuine at hgenuine ⊢
    rwa [htrigger, hparticipants, hid]
  · rw [hid, htrigger, hsize]
    exact hupdates

end Exchanging

section Exchanging

variable (h : Exchanging lib pubKey s d (loop :: rest))
include h

theorem quiet
    (hloop : loop.kind = .other ∨ loop.kind = .checking)
    (hnext : next.kind = .other ∨ next.kind = .checking)
    (hcrypts : s'.crypts = [d']) (hsame : s'.party d' = s.party d)
    (hunchanged : s'.finishedCh = s.finishedCh ∧ s'.updates = s.updates ∧
      d'.remoteFinished = d.remoteFinished)
    (hkept : lib.Certified d.dkGenerator = true → lib.Certified d'.dkGenerator = true ∧
      lib.PubKey d'.dkGenerator = lib.PubKey d.dkGenerator)
    (hlooks : lib.Certified d'.dkGenerator = true → next.kind = .checking ∨
      loop.kind = .other ∧ lib.Certified d.dkGenerator = true) :
    Exchanging lib pubKey s' d' (next :: rest) := by
  obtain ⟨hfinishedCh, hupdates, hreports⟩ := hunchanged
  have hnone : ∀ {l : DkgLoop D R}, l.kind = .other ∨ l.kind = .checking → l.report = none := by
    intro l hl
    refine report_eq_none ?_ ?_ ?_ <;> rcases hl with hl | hl <;> rw [hl] <;> decide
  have hbusy : busy ((next :: rest).map kind) = busy ((loop :: rest).map kind) := by
    unfold busy
    rcases hloop with hloop | hloop <;> rcases hnext with hnext | hnext <;> simp [hloop, hnext]
  refine h.rebuild hcrypts hsame ?_ ?_ ?_
  · have hroster := h.roster
    rw [filterMap_cons_none (hnone hloop)] at hroster
    rwa [filterMap_cons_none (hnone hnext), hreports]
  · rw [hfinishedCh]
    exact h.phases.quiet hloop hnext (fun hcert => (hkept hcert).1)
      (fun hcert hkey => (hkept hcert).2.trans hkey) hlooks
  · rw [hreports, hfinishedCh, hbusy, hupdates]
    exact h.updates

theorem skip (hloop : loop.kind = .other)
    (hnext : next.kind = .other) (hcrypts : s'.crypts = [d]) (hsame : s'.party d = s.party d)
    (hunchanged : s'.finishedCh = s.finishedCh ∧ s'.updates = s.updates) :
    Exchanging lib pubKey s' d (next :: rest) :=
  h.quiet (.inl hloop) (.inl hnext) hcrypts hsame ⟨hunchanged.1, hunchanged.2, rfl⟩
    (fun hcert => ⟨hcert, rfl⟩) (fun hcert => .inr ⟨hloop, hcert⟩)

theorem call (hloop : loop.kind = .checking)
    (hnone : loop.report = none) (caller : Caller R) (hcert : lib.Certified d.dkGenerator = true)
    (hfirst : s.finishedCh = 0) (hothers : ∀ l ∈ rest, l.inCallBack = false)
    (hcrypts : s'.crypts = [d]) (hsame : s'.party d = s.party d)
    (hunchanged : s'.finishedCh = s.finishedCh ∧ s'.updates = s.updates) :
    Exchanging lib pubKey s' d (.callState caller :: rest) := by
  obtain ⟨hfinishedCh, hupdates⟩ := hunchanged
  have hbefore : (rest.map kind).count .before = 0 := by
    refine count_kind_eq_zero (fun l hl hkind => ?_)
    have hin := inCallBack_of_kind (.inl hkind)
    rw [hothers l hl] at hin
    cases hin
  have hphases := h.phases
  have hroster := h.roster
  have hups := h.updates
  simp only [map_cons, hloop, hcert, hfirst] at hphases hups
  rw [filterMap_cons_none hnone] at hroster
  refine h.rebuild hcrypts hsame hroster ?_ ?_
  · rw [hfinishedCh, hfirst, hcert]
    exact hphases.move (.call rfl hbefore)
  · rw [hfinishedCh, hfirst, hupdates]
    exact hups

end Exchanging

theorem send {caller : Caller R} (h : Exchanging lib pubKey s d (.callSend caller :: rest))
    (hroom : s.finishedCh = 0) (hcrypts : s'.crypts = [d]) (hsame : s'.party d = s.party d)
    (hsent : s'.finishedCh = 1) (hupdates : s'.updates = s.updates) :
    Exchanging lib pubKey s' d (.callReport caller :: rest) := by
  have hphases := h.phases
  have hups := h.updates
  rw [hroom] at hphases hups
  refine h.rebuild hcrypts hsame h.roster ?_ ?_
  · rw [hsent]
    exact hphases.move .send
  · have hbusy : busy ((callReport caller :: rest).map kind) =
        1 + busy ((callSend caller :: rest).map kind) :=
      busy_cons_last (.inl rfl) _
    rw [hsent, hupdates, hbusy]
    exact hups.send

theorem addEarly (h : Exchanging lib pubKey s d (.finEarly msg :: rest))
    (hcrypts : s'.crypts = [{ d with remoteFinished := d.remoteFinished ++ [msg] }])
    (hsame : s'.party { d with remoteFinished := d.remoteFinished ++ [msg] } = s.party d)
    (hunchanged : s'.finishedCh = s.finishedCh ∧ s'.updates = s.updates) :
    Exchanging lib pubKey s' { d with remoteFinished := d.remoteFinished ++ [msg] }
      (.finIdle :: rest) := by
  obtain ⟨hfinishedCh, hupdates⟩ := hunchanged
  have hopen := h.phases.early (by simp [kind])
  refine h.rebuild hcrypts hsame ?_ ?_ ?_
  · rw [append_assoc]
    exact h.roster
  · rw [hfinishedCh]
    exact h.phases.move (.addEarly _)
  · have hadd := h.updates.addEarly (hopen.imp_right (fun hpos => Nat.add_pos_left hpos _))
    rw [hfinishedCh, hupdates, length_append]
    exact hadd

theorem add (h : Exchanging lib pubKey s d (.finAppend msg :: rest))
    (hcrypts : s'.crypts = [{ d with remoteFinished := d.remoteFinished ++ [msg] }])
    (hsame : s'.party { d with remoteFinished := d.remoteFinished ++ [msg] } = s.party d)
    (hunchanged : s'.finishedCh = s.finishedCh ∧ s'.updates = s.updates) :
    Exchanging lib pubKey s' { d with remoteFinished := d.remoteFinished ++ [msg] }
      (.finCount :: rest) := by
  obtain ⟨hfinishedCh, hupdates⟩ := hunchanged
  refine h.rebuild hcrypts hsame ?_ ?_ ?_
  · rw [append_assoc]
    exact h.roster
  · rw [hfinishedCh]
    exact h.phases.move (.add _)
  have hlength := h.length_taken
  rw [filterMap_cons_some (show report (.finAppend msg) = some msg from rfl),
    length_cons] at hlength
  have hadd := h.updates.add (by omega)
  have hbusy : busy ((finCount :: rest).map kind) =
      1 + busy ((finAppend msg :: rest).map kind) :=
    busy_cons_last (.inr rfl) _
  rw [hfinishedCh, hupdates, length_append, hbusy]
  exact hadd

theorem finish (h : Exchanging lib pubKey s d (loop :: rest))
    (hloop : loop.kind = .after ∨ loop.kind = .count)
    (hnext : next.kind = .other ∨ next.kind = .finIdle)
    (hmove : Phases.LoopMove (lib.Certified d.dkGenerator)
      (lib.PubKey d.dkGenerator = some pubKey) (rest.map kind) s.finishedCh loop.kind
      s.finishedCh next.kind)
    (hcrypts : s'.crypts = [d]) (hsame : s'.party d = s.party d)
    (hfinishedCh : s'.finishedCh = s.finishedCh)
    (hshort : d.remoteFinished.length + 1 < d.nParticipant → s'.updates = s.updates)
    (hfull : d.nParticipant ≤ d.remoteFinished.length + 1 →
      (∀ msg ∈ d.remoteFinished, lib.PubKey d.dkGenerator = some msg.PubPolyCommit) ∧
      s'.updates = (s.notifyUpdater lib d).updates) :
    Exchanging lib pubKey s' d (next :: rest) := by
  have hnone : loop.report = none := by
    refine report_eq_none ?_ ?_ ?_ <;> rcases hloop with hl | hl <;> rw [hl] <;> decide
  have hnone' : next.report = none := by
    refine report_eq_none ?_ ?_ ?_ <;> rcases hnext with hl | hl <;> rw [hl] <;> decide
  obtain ⟨hsent, hzero⟩ := h.phases.busy_last hloop
  have hups := h.updates
  have hroster := h.roster
  rw [map_cons, busy_cons_last hloop, hsent, hzero] at hups
  rw [filterMap_cons_none hnone] at hroster
  refine h.rebuild hcrypts hsame ?_ ?_ ?_
  · rwa [filterMap_cons_none hnone']
  · rw [hfinishedCh]
    exact h.phases.move hmove
  rw [map_cons, busy_cons_idle hnext, hzero, hfinishedCh, hsent]
  refine hups.finish hshort (fun hlength => ?_)
  obtain ⟨hkey, hupdate⟩ := hfull hlength
  refine ⟨_, hupdate.trans ?_, rfl, h.complete_update hlength hkey⟩
  rw [notifyUpdater, h.updaters]
  rfl

theorem take (h : Exchanging lib pubKey s d (.finIdle :: rest)) (hgenuine : s.Genuine pubKey d msg)
    (hfresh : msg.NodeID ∉ (d.remoteFinished ++ rest.filterMap report).map NodeID)
    (hreport : next.report = some msg)
    (hmove : Phases.LoopMove (lib.Certified d.dkGenerator)
      (lib.PubKey d.dkGenerator = some pubKey) (rest.map kind) s.finishedCh .finIdle
      s.finishedCh next.kind)
    (hbusy : busy (next.kind :: rest.map kind) = busy (rest.map kind))
    (hcrypts : s'.crypts = [d]) (hsame : s'.party d = s.party d)
    (hunchanged : s'.finishedCh = s.finishedCh ∧ s'.updates = s.updates) :
    Exchanging lib pubKey s' d (next :: rest) := by
  obtain ⟨hfinishedCh, hupdates⟩ := hunchanged
  refine h.rebuild hcrypts hsame ?_ ?_ ?_
  · rw [filterMap_cons_some hreport]
    refine Roster.perm ⟨?_, ?_⟩ perm_middle.symm
    · intro other hother
      rcases mem_cons.mp hother with rfl | hother
      · exact hgenuine
      · exact h.roster.genuine other hother
    · rw [map_cons, nodup_cons]
      exact ⟨hfresh, h.roster.distinct⟩
  · rw [hfinishedCh]
    exact h.phases.move hmove
  · rw [hfinishedCh, hupdates, map_cons, hbusy]
    exact h.updates

end Exchanging

theorem setCurrent_crypts (hcrypts : s.crypts = [d]) (d' : DkgCrypt G D R) :
    (s.setCurrent d').crypts = [d'] := by
  rw [setCurrent, setCrypt, hcrypts]
  rfl

theorem newBlock_cases {height : UInt64} {candidates : Option (List Bytes)}
    {generator : Option G} (halive : (s.newBlock height candidates generator).panicked = false) :
    (∃ t, s.newBlock height candidates generator = { s with triggerNumber := t }) ∨
    ∃ (t : UInt64) (nodeIDs : List Bytes) (g : G), generator = some g ∧
      (s.selfSelected = true ∨ s.nodeID ∈ nodeIDs) ∧
      s.newBlock height candidates generator =
        { s with
          triggerNumber := t
          selfSelected := true
          participants := nodeIDs.dedup
          crypts := s.crypts ++ [⟨t, nodeIDs.dedup.length, [], [], [], g⟩]
          dkgBLSUpdaters := s.dkgBLSUpdaters + 1
          starting := some t } := by
  unfold newBlock at halive ⊢
  dsimp only at halive ⊢
  split_ifs at halive ⊢ with hbusy hspan hsame
  · exact .inl ⟨_, rfl⟩
  · cases halive
  · exact .inl ⟨_, rfl⟩
  cases candidates with
  | none => exact .inl ⟨_, rfl⟩
  | some nodeIDs =>
    dsimp only at halive ⊢
    split_ifs at halive ⊢ with hselected
    · unfold initWhenStart at halive ⊢
      split at halive
      · cases halive
      · cases halive
      · exact .inr ⟨_, nodeIDs, _, rfl, hselected, rfl⟩
    · exact .inl ⟨_, rfl⟩

end Exchanging

end DkgNode

end Topia.Consensus
