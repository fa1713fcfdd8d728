import Topia.Consensus.DkgExchanging

/-!
# When the exchange of a key is complete

The updaters of `dkg_exchange.go` are to be called once for each trigger, after every other
participant has reported the same key. Own completion, the reports and `finishedCh` are separate,
and what one handler finds certified another one finds too.
-/

namespace Topia.Consensus

open Lib

namespace DkgNode

variable {G D R : Type} [DecidableEq D] [DecidableEq R]

/-- No handler waits for the channel, no trigger has two updates, an update comes after all reports,
and there is one at the end. -/
structure DkgCompletion (lib : DistKeyGenerator G D R) (s : DkgNode G D R) : Prop where
  unblocked : ∀ caller, .callSend caller ∈ s.loops → s.finishedCh < 1
  once : ∀ t, (s.updates.filter (fun u => u.triggerNumber = t)).length ≤ 1
  reported : ∀ u ∈ s.updates, ∀ nodeID ∈ u.participants, nodeID ≠ s.nodeID →
    ∃ msg ∈ u.reports, msg.NodeID = nodeID ∧ msg.TriggerNumber = u.triggerNumber ∧
      u.pubKey = some msg.PubPolyCommit
  complete : ∀ d ∈ s.dkgCrypt, lib.Certified d.dkGenerator = true →
    (∀ loop ∈ s.loops, loop.idle = true) →
    (∀ nodeID ∈ s.participants, nodeID ≠ s.nodeID → ∃ msg ∈ d.remoteFinished, msg.NodeID = nodeID) →
    (s.updates.filter (fun u => u.triggerNumber = d.triggerNumber)).length = 1

open DkgLoop DKGFinishedMessage

section Orderly

variable (lib : DistKeyGenerator G D R) (pubKey : Bytes) (s : DkgNode G D R)

def NotCalled : Prop :=
  s.finishedCh = 0 ∧ ∀ loop ∈ s.loops, loop.inCallBack = false

def CallOver : Prop :=
  s.finishedCh = 1 ∧ ∀ loop ∈ s.loops, loop.inCallBack = false

def taken (d : DkgCrypt G D R) : List DKGFinishedMessage :=
  d.remoteFinished ++ s.loops.filterMap report

/-- One handler finds the key certified, and no report is on its way when the callback looks at the
list. -/
def AdvancesInOrder (d : DkgCrypt G D R) : DkgLoop D R → Prop
  | .dealAdvance _ _ => lib.ExpectedDeals d.dkGenerator + 1 = d.nParticipant
  | .dealCheck _ _ | .respCheck => lib.Certified d.dkGenerator = true → s.NotCalled
  | .callSection _ => ∀ loop ∈ s.loops, loop.report = none
  | _ => True

/-- Nothing panics, one trigger, one report for each participant, and none from the certification to
the end of the callback. -/
def Orderly (event : DkgEvent G D R) : Prop :=
  (∀ s' ∈ s.step lib event, s'.panicked = false) ∧
  match event with
  | .newBlock height candidates generator =>
    (s.newBlock height candidates generator).crypts.length ≤ 1 ∧
      ∀ g ∈ generator, lib.Certified g = false
  | .takeFinished msg => ∀ d ∈ s.dkgCrypt, s.Genuine pubKey d msg ∧
      msg.NodeID ∉ (s.taken d).map NodeID ∧
      (lib.Certified d.dkGenerator = true → s.CallOver)
  | .advance loop _ => ∀ d ∈ s.dkgCrypt, s.AdvancesInOrder lib d loop
  | _ => True

end Orderly

open List

section Completion

variable {G D R : Type} {lib : DistKeyGenerator G D R} {pubKey : Bytes} {s : DkgNode G D R}
  {d : DkgCrypt G D R}

theorem completion_of_exchanging (h : Exchanging lib pubKey s d s.loops) : s.DkgCompletion lib := by
  have hphases := h.phases
  have hcases : s.updates = [] ∨ ∃ u, s.updates = [u] ∧ u.triggerNumber = d.triggerNumber ∧
      u.Complete s.nodeID :=
    h.updates.cases (Nat.le_trans (Nat.le_add_left _ _) hphases.calls)
  refine ⟨fun caller hmem => ?_, fun t => ?_, fun u hu => ?_, fun d' hd' hcert hidle hall => ?_⟩
  · have hbefore : 0 < (s.loops.map kind).count .before :=
      count_pos_iff.mpr (mem_map.mpr ⟨_, hmem, rfl⟩)
    have hcalls := hphases.calls
    omega
  · rcases hcases with heq | ⟨u, heq, _⟩
    · simp [heq]
    · rw [heq]
      exact length_filter_le _ _
  · rcases hcases with heq | ⟨u', heq, _, hcomplete⟩
    · rw [heq] at hu
      cases hu
    · rw [heq, mem_singleton] at hu
      rw [hu]
      exact hcomplete
  · rw [h.current] at hd'
    cases hd'
    have hnone : ∀ k, k ≠ .other → k ≠ .finIdle → (s.loops.map kind).count k = 0 := by
      intro k hother hfin
      refine count_kind_eq_zero (fun l hl hkind => ?_)
      rcases kind_of_idle (hidle l hl) with hl' | hl'
      · exact hother (hkind.symm.trans hl')
      · exact hfin (hkind.symm.trans hl')
    have hsent : s.finishedCh = 1 := by
      have hchecks := hphases.checks hcert
      have hcalls := hphases.calls
      rw [hnone .before (by decide) (by decide)] at hchecks hcalls
      rw [hnone .checking (by decide) (by decide)] at hchecks
      omega
    have hbusy : busy (s.loops.map kind) = 0 := by
      rw [busy, hnone .after (by decide) (by decide), hnone .count (by decide) (by decide)]
    have hlength : d.nParticipant ≤ d.remoteFinished.length + 1 := by
      have hsub : (s.participants.erase s.nodeID).Subperm
          (d.remoteFinished.map NodeID) := by
        refine subperm_of_subset (h.nodup.erase _) (fun id hid => ?_)
        obtain ⟨hne, hmem⟩ := (h.nodup.mem_erase_iff).mp hid
        obtain ⟨msg, hmsg, rfl⟩ := hall id hmem hne
        exact mem_map_of_mem hmsg
      have hle := hsub.length_le
      have hothers := h.length_others
      rw [length_map] at hle
      omega
    obtain ⟨u, heq, htrigger, _⟩ := h.updates.updated hsent hbusy hlength
    simp [heq, htrigger]

structure Fresh (s : DkgNode G D R) : Prop where
  crypts : s.crypts = []
  starting : s.starting = none
  startCh : s.startCh = none
  selfSelected : s.selfSelected = false
  updaters : s.dkgBLSUpdaters = 0
  finishedCh : s.finishedCh = 0
  loops : s.loops = [.sendIdle]
  updates : s.updates = []

def InOrder (lib : DistKeyGenerator G D R) (pubKey : Bytes) (s : DkgNode G D R) : Prop :=
  s.Fresh ∨ ∃ d, Exchanging lib pubKey s d s.loops

theorem completion_of_inOrder (h : InOrder lib pubKey s) : s.DkgCompletion lib := by
  rcases h with h | ⟨d, h⟩
  · refine ⟨?_, ?_, ?_, ?_⟩
    · simp [h.loops]
    · simp [h.updates]
    · simp [h.updates]
    · simp [dkgCrypt, h.crypts]
  · exact completion_of_exchanging h

end Completion

section Steps

variable {G D R : Type} [DecidableEq D] [DecidableEq R]
variable {lib : DistKeyGenerator G D R} {pubKey : Bytes} {s s' : DkgNode G D R}
  {d : DkgCrypt G D R} {loop : DkgLoop D R} {msg : DKGFinishedMessage} {delivered : Bool}

section Exchanging

variable (h : Exchanging lib pubKey s d s.loops)
include h

section Loop

variable (hmem : loop ∈ s.loops)
include hmem

theorem Exchanging.focus : Exchanging lib pubKey s d (loop :: s.loops.erase loop) :=
  h.perm (perm_cons_erase hmem)

theorem dealStep_exchanging
    (hok : s.AdvancesInOrder lib d loop) (hstep : s.dealStep lib 0 d loop delivered = some s')
    (halive : s'.panicked = false) : ∃ d', Exchanging lib pubKey s' d' s'.loops := by
  have hfocus := h.focus hmem
  have hset : ∀ d', (s.crypts.set 0 d') = [d'] := by
    intro d'
    rw [h.crypts]
    rfl
  unfold dealStep at hstep
  split at hstep
  · next c deal =>
      split_ifs at hstep
      · cases hstep
        cases halive
      · cases hstep
        exact ⟨_, hfocus.quiet (.inl rfl) (.inr rfl) (hset _) rfl
          ⟨rfl, rfl, rfl⟩ (lib.certified_ProcessDeal _ _) (fun _ => .inl rfl)⟩
  · next c result =>
      rw [if_pos (show lib.ExpectedDeals d.dkGenerator + 1 = d.nParticipant from hok)] at hstep
      cases hstep
      exact ⟨_, hfocus.quiet (.inr rfl) (.inr rfl) (hset _) rfl
        ⟨rfl, rfl, rfl⟩ (processAdvanceResp_certified _ _) (fun _ => .inl rfl)⟩
  · next c result =>
      split_ifs at hstep with hcert
      · cases hstep
        obtain ⟨hfirst, hothers⟩ := hok hcert
        exact ⟨d, hfocus.call rfl rfl _ hcert hfirst
          (fun l hl => hothers l (mem_of_mem_erase hl)) h.crypts
          rfl ⟨rfl, rfl⟩⟩
      · cases hstep
        exact ⟨d, hfocus.quiet (.inr rfl) (.inl rfl) h.crypts rfl
          ⟨rfl, rfl, rfl⟩ (fun hc => ⟨hc, rfl⟩) (fun hc => absurd hc hcert)⟩
  · cases hstep
    exact ⟨d, hfocus.skip rfl rfl h.crypts rfl ⟨rfl, rfl⟩⟩
  · cases hstep
    cases halive
  · split_ifs at hstep
    · cases hstep
      exact ⟨d, hfocus.skip rfl rfl h.crypts rfl ⟨rfl, rfl⟩⟩
    · cases hstep
      cases halive
  · cases hstep

theorem respStep_exchanging (hok : s.AdvancesInOrder lib d loop)
    (hstep : s.respStep lib d loop = some s') : ∃ d', Exchanging lib pubKey s' d' s'.loops := by
  have hfocus := h.focus hmem
  unfold respStep at hstep
  split at hstep
  · split_ifs at hstep
    · cases hstep
      exact ⟨d, hfocus.quiet (.inr rfl) (.inr rfl) h.crypts rfl
        ⟨rfl, rfl, rfl⟩ (fun hc => ⟨hc, rfl⟩) (fun _ => .inl rfl)⟩
    · cases hstep
      exact ⟨_, hfocus.quiet (.inr rfl) (.inr rfl) (setCurrent_crypts h.crypts _)
        rfl ⟨rfl, rfl, rfl⟩ (fun hc => ⟨hc, rfl⟩)
        (fun _ => .inl rfl)⟩
  · split_ifs at hstep with hcert
    · cases hstep
      obtain ⟨hfirst, hothers⟩ := hok hcert
      exact ⟨d, hfocus.call rfl rfl _ hcert hfirst
        (fun l hl => hothers l (mem_of_mem_erase hl)) h.crypts
        rfl ⟨rfl, rfl⟩⟩
    · cases hstep
      exact ⟨d, hfocus.quiet (.inr rfl) (.inl rfl) h.crypts rfl
        ⟨rfl, rfl, rfl⟩ (fun hc => ⟨hc, rfl⟩) (fun hc => absurd hc hcert)⟩
  · cases hstep

theorem finishedStep_exchanging
    (hstep : s.finishedStep lib d loop = some s') : ∃ d', Exchanging lib pubKey s' d' s'.loops := by
  have hfocus := h.focus hmem
  have hphases := hfocus.phases
  have hroster := hfocus.roster
  have hups := hfocus.updates
  unfold finishedStep at hstep
  split at hstep
  · next msg =>
      cases hstep
      exact ⟨_, hfocus.addEarly (setCurrent_crypts h.crypts _) rfl ⟨rfl, rfl⟩⟩
  · next msg =>
      split_ifs at hstep with hkey
      · cases hstep
        have hreported := (hroster.genuine msg (by simp [report])).2.1
        exact ⟨d, hfocus.rebuild h.crypts rfl hroster
          (hphases.move (.compare _ (hreported ▸ hkey))) hups⟩
      · cases hstep
        refine ⟨d, hfocus.rebuild h.crypts rfl ?_ (hphases.move (.drop _)) hups⟩
        exact hroster.sublist ((sublist_cons_self msg _).append_left _)
  · next msg =>
      cases hstep
      exact ⟨_, hfocus.add (setCurrent_crypts h.crypts _) rfl ⟨rfl, rfl⟩⟩
  · split_ifs at hstep with hfull
    · cases hstep
      refine ⟨d, hfocus.finish (.inr rfl) (.inr rfl) (.counted _) h.crypts
        rfl rfl (fun hshort => absurd hfull (by omega))
        (fun _ => ⟨fun msg hmsg => ?_, rfl⟩)⟩
      rw [(hroster.genuine msg (mem_append_left _ hmsg)).2.1]
      refine hphases.compares (Nat.add_pos_right _ ?_)
      exact count_pos_iff.mpr mem_cons_self
    · cases hstep
      exact ⟨d, hfocus.finish (.inr rfl) (.inr rfl) (.counted _) h.crypts
        rfl rfl (fun _ => rfl) (fun hlong => absurd hlong hfull)⟩
  · cases hstep

theorem callBackStep_exchanging
    (hok : s.AdvancesInOrder lib d loop) (hstep : s.callBackStep lib d loop delivered = some s')
    (halive : s'.panicked = false) : ∃ d', Exchanging lib pubKey s' d' s'.loops := by
  have hfocus := h.focus hmem
  have hphases := hfocus.phases
  have hups := hfocus.updates
  unfold callBackStep at hstep
  split at hstep
  · cases hstep
    exact ⟨d, hfocus.rebuild h.crypts rfl hfocus.roster hphases hups⟩
  · next caller =>
      split_ifs at hstep with hroom
      cases hstep
      have hzero : s.finishedCh = 0 := by omega
      exact ⟨d, hfocus.send hzero h.crypts rfl (congrArg (fun n => n + 1) hzero) rfl⟩
  · split at hstep
    · cases hstep
      cases halive
    · split_ifs at hstep
      · cases hstep
        exact ⟨d, hfocus.rebuild h.crypts rfl hfocus.roster hphases hups⟩
      · cases hstep
        cases halive
  · next caller =>
      have hother : (resume caller : DkgLoop D R).kind = .other := by cases caller <;> rfl
      have hearly : ((s.loops.erase (.callSection caller)).map kind).count .early = 0 := by
        refine count_kind_eq_zero (fun l hl hkind => ?_)
        exact report_ne_none hkind (hok l (mem_of_mem_erase hl))
      have hmove : Phases.LoopMove (lib.Certified d.dkGenerator)
          (lib.PubKey d.dkGenerator = some pubKey)
          ((s.loops.erase (.callSection caller)).map kind) s.finishedCh .after
          s.finishedCh (resume caller : DkgLoop D R).kind := by
        rw [hother]
        exact .over _ hearly
      split_ifs at hstep with hshort
      · cases hstep
        exact ⟨d, hfocus.finish (.inl rfl) (.inl hother) hmove h.crypts
          rfl rfl (fun _ => rfl) (fun hlong => absurd hshort (by omega))⟩
      · split at hstep
        · cases hstep
          cases halive
        · next ownKey hkey =>
            split_ifs at hstep with hall
            · cases hstep
              refine ⟨d, hfocus.finish (.inl rfl) (.inl hother) hmove h.crypts
                rfl rfl (fun hlt => absurd hlt hshort)
                (fun _ => ⟨fun msg hmsg => ?_, rfl⟩)⟩
              rw [hkey, of_decide_eq_true (all_eq_true.mp hall msg hmsg)]
            · cases hstep
              cases halive
  · cases hstep

theorem advance_exchanging
    (hok : s.AdvancesInOrder lib d loop) (hstep : s.advance lib loop delivered = some s')
    (halive : s'.panicked = false) : ∃ d', Exchanging lib pubKey s' d' s'.loops := by
  have hcurrent := h.current
  -- the deals of another exchange than the first have none to run on
  have hdeal : ∀ c, (s.crypts[c]?).bind (fun d => s.dealStep lib c d loop delivered) = some s' →
      ∃ d', Exchanging lib pubKey s' d' s'.loops := by
    intro c hc
    rw [h.crypts] at hc
    cases c with
    | zero => exact dealStep_exchanging h hmem hok hc halive
    | succ c => cases hc
  have hon : ∀ {call : DkgCrypt G D R → Option (DkgNode G D R)},
      s.dkgCrypt.bind call = some s' → call d = some s' := by
    intro call hcall
    rwa [hcurrent] at hcall
  cases loop with
  | sendEnd =>
    cases hstep
    exact ⟨d, (h.focus hmem).skip rfl rfl h.crypts rfl ⟨rfl, rfl⟩⟩
  | dealWait c deal | dealAdvance c result | dealCheck c result => exact hdeal c hstep
  | dealReply result =>
    have hreply := hon hstep
    rw [h.crypts] at hreply
    exact dealStep_exchanging h hmem hok hreply halive
  | respAdvance resp | respCheck => exact respStep_exchanging h hmem hok (hon hstep)
  | finEarly msg | finKey msg | finAppend msg
  | finCount => exact finishedStep_exchanging h hmem (hon hstep)
  | sendIdle | dealIdle | respIdle | finIdle => cases hstep
  | _ => exact callBackStep_exchanging h hmem hok (hon hstep) halive

end Loop

theorem takeDeal_exchanging {deal : Option D} (hstep : s.takeDeal deal = some s')
    (halive : s'.panicked = false) : ∃ d', Exchanging lib pubKey s' d' s'.loops := by
  unfold takeDeal at hstep
  split_ifs at hstep with hmem
  split at hstep
  · cases hstep
    cases halive
  · cases hstep
    exact ⟨d, (h.focus hmem).skip rfl rfl h.crypts rfl ⟨rfl, rfl⟩⟩

theorem takeResp_exchanging {resp : Option R} (hstep : s.takeResp lib resp = some s')
    (halive : s'.panicked = false) : ∃ d', Exchanging lib pubKey s' d' s'.loops := by
  have hcurrent := h.current
  unfold takeResp at hstep
  split_ifs at hstep with hmem
  cases resp with
  | none =>
    cases hstep
    cases halive
  | some resp =>
    have hchecks : ∀ {next : DkgLoop D R}, next.kind = .checking → ∃ d', Exchanging lib pubKey
        ((s.setCurrent { d with
          dkGenerator := (lib.ProcessResponse d.dkGenerator resp).1 }).move .respIdle next) d'
        (next :: s.loops.erase .respIdle) := fun hnext =>
      ⟨_, (h.focus hmem).quiet (.inl rfl) (.inr hnext) (setCurrent_crypts h.crypts _)
        rfl ⟨rfl, rfl, rfl⟩ (lib.certified_ProcessResponse _ _) (fun _ => .inl hnext)⟩
    rw [hcurrent] at hstep
    dsimp only [Option.bind_some] at hstep
    split at hstep
    · cases hstep
      exact hchecks rfl
    · cases hstep
      exact hchecks rfl
    · cases hstep
      exact hchecks rfl
    · cases hstep
      cases halive

theorem takeFinished_exchanging (hok : s.Orderly lib pubKey (.takeFinished msg))
    (hstep : s.takeFinished lib msg = some s') : ∃ d', Exchanging lib pubKey s' d' s'.loops := by
  have hcurrent := h.current
  obtain ⟨hgenuine, hfresh, hover⟩ := hok.2 d hcurrent
  unfold takeFinished at hstep
  split_ifs at hstep with hmem
  rw [hcurrent, Option.map_some, Option.some.injEq] at hstep
  have hfocus := h.focus hmem
  have hfresh' : msg.NodeID ∉ (d.remoteFinished ++
      (s.loops.erase .finIdle).filterMap report).map NodeID := by
    have hperm := ((perm_cons_erase hmem).filterMap report).append_left
      d.remoteFinished
    rwa [taken, (hperm.map _).mem_iff] at hfresh
  split_ifs at hstep with hcert
  · subst hstep
    obtain ⟨hsent, hothers⟩ := hover hcert
    refine ⟨d, hfocus.take hgenuine hfresh' rfl ?_ rfl h.crypts rfl ⟨rfl, rfl⟩⟩
    rw [hsent]
    refine .takeLate (count_kind_eq_zero (fun l hl hkind => ?_))
    have hin := inCallBack_of_kind (.inr hkind)
    rw [hothers l (mem_of_mem_erase hl)] at hin
    cases hin
  · subst hstep
    exact ⟨d, hfocus.take hgenuine hfresh' rfl (.takeEarly _ (Bool.eq_false_iff.mpr hcert)) rfl
      h.crypts rfl ⟨rfl, rfl⟩⟩

theorem sendDeals_exchanging (hstep : s.sendDeals delivered = some s')
    (halive : s'.panicked = false) : ∃ d', Exchanging lib pubKey s' d' s'.loops := by
  have hcurrent := h.current
  unfold sendDeals at hstep
  split_ifs at hstep with hmem
  obtain ⟨triggerNumber, _, rfl⟩ := Option.map_eq_some_iff.mp hstep
  rw [hcurrent] at halive ⊢
  dsimp only at halive ⊢
  split_ifs at halive ⊢
  · exact ⟨d, (h.focus hmem).skip rfl rfl h.crypts rfl ⟨rfl, rfl⟩⟩
  · cases halive

end Exchanging

variable {event : DkgEvent G D R}

theorem running_of_step (hstep : s.step lib event = some s') : ¬ s.panicked = true := by
  intro hpanicked
  unfold step at hstep
  rw [if_pos hpanicked] at hstep
  cases hstep

theorem fresh_step (h : s.Fresh) (hok : s.Orderly lib pubKey event)
    (hstep : s.step lib event = some s') : InOrder lib pubKey s' := by
  have halive := hok.1 s' hstep
  have hrunning := running_of_step hstep
  unfold step at hstep
  cases event with
  | newBlock height candidates generator =>
    dsimp only at hstep
    split_ifs at hstep with hready
    cases hstep
    obtain ⟨_, huncertified⟩ := hok.2
    rcases newBlock_cases halive with ⟨t, heq⟩ | ⟨t, nodeIDs, g, rfl, hselected, heq⟩
    · rw [heq]
      exact .inl { h with }
    · have hself : s.nodeID ∈ nodeIDs := by simpa [h.selfSelected] using hselected
      right
      rw [heq, h.crypts, h.updaters, h.loops]
      refine ⟨_, rfl, rfl, nodup_dedup _, mem_dedup.mpr hself, rfl,
        ⟨fun _ hmsg => absurd hmsg not_mem_nil, nodup_nil⟩, ?_, ?_⟩
      · rw [huncertified g rfl, h.finishedCh]
        constructor <;> simp [kind]
      · rw [h.finishedCh, h.updates]
        exact ⟨fun _ => rfl, fun hsent => absurd hsent (by decide)⟩
  | start => simp [h.starting, h.startCh] at hstep
  | sendDeals delivered => simp [sendDeals, h.startCh] at hstep
  | takeDeal deal => simp [takeDeal, h.loops] at hstep
  | takeResp resp => simp [takeResp, h.loops] at hstep
  | takeFinished msg => simp [takeFinished, h.loops] at hstep
  | advance loop delivered =>
    dsimp only at hstep
    split_ifs at hstep with hmem
    rw [h.loops, mem_singleton] at hmem
    subst hmem
    cases hstep

theorem exchanging_step (h : Exchanging lib pubKey s d s.loops) (hok : s.Orderly lib pubKey event)
    (hstep : s.step lib event = some s') : ∃ d', Exchanging lib pubKey s' d' s'.loops := by
  have halive := hok.1 s' hstep
  have hrunning := running_of_step hstep
  unfold step at hstep
  rw [if_neg hrunning] at hstep
  cases event with
  | newBlock height candidates generator =>
    dsimp only at hstep
    split_ifs at hstep with hready
    cases hstep
    obtain ⟨honce, _⟩ := hok.2
    rcases newBlock_cases halive with ⟨t, heq⟩ | ⟨t, nodeIDs, g, _, _, heq⟩
    · rw [heq]
      exact ⟨d, h.rebuild h.crypts rfl h.roster h.phases h.updates⟩
    · rw [heq, h.crypts] at honce
      simp at honce
  | start =>
    dsimp only at hstep
    split_ifs at hstep with hroom
    obtain ⟨t, hstarting, rfl⟩ := Option.map_eq_some_iff.mp hstep
    have hphases := h.phases
    rw [hstarting, Option.isSome_some] at hphases
    have hreports : (s.loops ++ [dealIdle, respIdle, finIdle]).filterMap
        report = s.loops.filterMap report := by
      rw [filterMap_append]
      exact append_nil _
    have hbusy : busy ((s.loops ++ [dealIdle, respIdle, finIdle]).map
        kind) = busy (s.loops.map kind) := by
      rw [map_append, busy, count_append, count_append]
      rfl
    refine ⟨d, h.crypts, h.updaters, h.nodup, h.self, h.size, ?_, ?_, ?_⟩
    · rw [hreports]
      exact ⟨h.roster.genuine, h.roster.distinct⟩
    · rw [map_append]
      exact hphases.started
    · rw [hbusy]
      exact h.updates
  | sendDeals delivered => exact sendDeals_exchanging h hstep halive
  | takeDeal deal => exact takeDeal_exchanging h hstep halive
  | takeResp resp => exact takeResp_exchanging h hstep halive
  | takeFinished msg => exact takeFinished_exchanging h hok hstep
  | advance loop delivered =>
    dsimp only at hstep
    split_ifs at hstep with hmem
    exact advance_exchanging h hmem (hok.2 d h.current) hstep halive

theorem step_inOrder (h : InOrder lib pubKey s) (hok : s.Orderly lib pubKey event)
    (hstep : s.step lib event = some s') : InOrder lib pubKey s' := by
  rcases h with h | ⟨d, h⟩
  · exact fresh_step h hok hstep
  · exact .inr (exchanging_step h hok hstep)

end Steps

section Runs

variable {G D R : Type} [DecidableEq D] [DecidableEq R]

/-- **An orderly exchange**: no handler waits for the channel, and the updaters are called once,
after all reports. -/
theorem dkgCompletion_of_orderly (lib : DistKeyGenerator G D R) (pubKey nodeID chainID : Bytes)
    (blocksPerEpoch : UInt64) (events : List (DkgEvent G D R)) (s : DkgNode G D R)
    (hok : Along (step lib) (Orderly lib pubKey) (newDKGExchange nodeID chainID blocksPerEpoch)
      events)
    (hrun : events.foldlM (step lib) (newDKGExchange nodeID chainID blocksPerEpoch) = some s) :
    s.DkgCompletion lib := by
  have hfresh : InOrder lib pubKey (newDKGExchange nodeID chainID blocksPerEpoch) :=
    .inl ⟨rfl, rfl, rfl, rfl, rfl, rfl, rfl, rfl⟩
  exact completion_of_inOrder (run_invariant_along (fun _ _ _ => step_inOrder) hfresh hok hrun)

end Runs

section Decidability

variable {G D R : Type} (lib : DistKeyGenerator G D R) (pubKey : Bytes) (s : DkgNode G D R)
  (d : DkgCrypt G D R)

-- node ids are compared as lists of bytes
local instance lawfulBEqBytes : LawfulBEq Bytes :=
  inferInstanceAs (LawfulBEq (List UInt8))

instance : Decidable s.NotCalled :=
  inferInstanceAs (Decidable (_ ∧ _))

instance : Decidable s.CallOver :=
  inferInstanceAs (Decidable (_ ∧ _))

instance (msg : DKGFinishedMessage) : Decidable (s.Genuine pubKey d msg) :=
  inferInstanceAs (Decidable (_ ∧ _ ∧ _ ∧ _))

instance (loop : DkgLoop D R) : Decidable (s.AdvancesInOrder lib d loop) := by
  unfold AdvancesInOrder
  split <;> infer_instance

instance [DecidableEq D] [DecidableEq R] (event : DkgEvent G D R) :
    Decidable (s.Orderly lib pubKey event) := by
  unfold Orderly
  cases event <;> infer_instance

end Decidability

section Instances

def countingGenerator (expected : Nat) : DistKeyGenerator Nat Nat Nat where
  ProcessDeal g _ := (g + 1, .responded true 0)
  ProcessResponse g _ := (g + 1, none)
  ExpectedDeals _ := expected
  Certified g := 2 ≤ g
  PubKey g := if 2 ≤ g then some [7] else none
  certified_ProcessDeal g _ hcert := by
    have hle : 2 ≤ g := of_decide_eq_true hcert
    simp [hle, Nat.le_succ_of_le hle]
  certified_ProcessResponse g _ hcert := by
    have hle : 2 ≤ g := of_decide_eq_true hcert
    simp [hle, Nat.le_succ_of_le hle]
  pubKey_isSome g hcert := by
    have hle : 2 ≤ g := of_decide_eq_true hcert
    simp [hle]

def certifying (height : UInt64) (participants : List Bytes) (c : Nat) :
    List (DkgEvent Nat Nat Nat) :=
  [.newBlock height (some participants) (some 0), .start, .sendDeals true,
    .advance .sendEnd true, .takeDeal (some 5), .advance (.dealWait c 5) true,
    .advance (.dealAdvance c (.responded true 0)) true,
    .advance (.dealCheck c (.responded true 0)) true,
    .advance (.dealReply (.responded true 0)) true, .takeResp (some 6)]

def calling : List (DkgEvent Nat Nat Nat) :=
  [.advance .respCheck true, .advance (.callState .resp) true]

def callingBack : List (DkgEvent Nat Nat Nat) :=
  calling ++ [.advance (.callSend .resp) true, .advance (.callReport .resp) true,
    .advance (.callSection .resp) true]

def reporting (nodeID : Bytes) : List (DkgEvent Nat Nat Nat) :=
  let msg : DKGFinishedMessage := ⟨[], 1, 1, nodeID, [7]⟩
  [.takeFinished msg, .advance (.finKey msg) true, .advance (.finAppend msg) true,
    .advance .finCount true]

def exchange (expected : Nat) (events : List (DkgEvent Nat Nat Nat)) :
    Option (DkgNode Nat Nat Nat) :=
  events.foldlM (step (countingGenerator expected)) (newDKGExchange [1] [] 100)

theorem dkgCompletion_of_two_participants :
    ∃ s, exchange 1 (certifying 10 [[1], [2]] 0 ++ callingBack ++ reporting [2]) = some s ∧
      s.updates.map DkgUpdate.triggerNumber = [1] ∧ s.DkgCompletion (countingGenerator 1) := by
  refine ⟨_, rfl, by decide, ?_⟩
  refine dkgCompletion_of_orderly (countingGenerator 1) [7] [1] [] 100
    (certifying 10 [[1], [2]] 0 ++ callingBack ++ reporting [2]) _ ?_ rfl
  exact along_of_check (fun s event => of_decide_eq_true) (by decide)

/-- **Other exchanges**: two updates for one trigger; one without a report of the third participant;
and a callback that waits forever. -/
theorem dkgCompletion_fails_on_race :
    (∃ s, exchange 1 (certifying 10 [[1], [2]] 0 ++ reporting [2] ++ callingBack) = some s ∧
      s.updates.map DkgUpdate.triggerNumber = [1, 1] ∧ ¬ s.DkgCompletion (countingGenerator 1)) ∧
    (∃ s, exchange 2 (certifying 10 [[1], [2], [3]] 0 ++ callingBack ++ reporting [2] ++
        reporting [2]) = some s ∧
      (∃ u ∈ s.updates, [3] ∈ u.participants ∧ ∀ msg ∈ u.reports, msg.NodeID ≠ [3]) ∧
      ¬ s.DkgCompletion (countingGenerator 2)) ∧
    (∃ s, exchange 1 (certifying 10 [[1], [2]] 0 ++ callingBack ++
        .takeResp (some 6) :: calling) = some s ∧
      (∀ (events : List (DkgEvent Nat Nat Nat)) (t : DkgNode Nat Nat Nat),
        events.foldlM (step (countingGenerator 1)) s = some t → t.Blocked .resp) ∧
      ¬ s.DkgCompletion (countingGenerator 1)) ∧
    (∃ s, exchange 1 (certifying 10 [[1], [2]] 0 ++ callingBack ++ reporting [2] ++
        certifying 110 [[1], [2]] 1 ++ calling) = some s ∧
      (∀ (events : List (DkgEvent Nat Nat Nat)) (t : DkgNode Nat Nat Nat),
        events.foldlM (step (countingGenerator 1)) s = some t → t.Blocked .resp) ∧
      ¬ s.DkgCompletion (countingGenerator 1)) := by
  refine ⟨⟨_, rfl, by decide, fun h => ?_⟩, ⟨_, rfl, by decide, fun h => ?_⟩,
    ⟨_, rfl, fun _ _ hrun => ?_, fun h => ?_⟩, ⟨_, rfl, fun _ _ hrun => ?_, fun h => ?_⟩⟩
  · exact absurd (h.once 1) (by decide)
  · obtain ⟨msg, hmsg, hfrom, _⟩ := h.reported _ mem_cons_self [3] (by decide) (by decide)
    revert msg
    decide
  · exact blocked_run ⟨by decide, by decide⟩ hrun
  · exact absurd (h.unblocked .resp (by decide)) (by decide)
  · exact blocked_run ⟨by decide, by decide⟩ hrun
  · exact absurd (h.unblocked .resp (by decide)) (by decide)

end Instances

end DkgNode

end Topia.Consensus
