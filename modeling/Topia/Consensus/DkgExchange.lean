import Topia.Consensus.Messages
import Topia.Lib.Run
import Mathlib.Data.List.Dedup

/-!
# The exchange of a distributed key

`consensus/dkg_exchange.go` and the part of `consensus/domain_consensus.go` that starts it, at one
node. Each exchange starts three more loops, for deals, responses and reports of others. A handler
that finds the key certified calls `callBackWhenFinished`, which sends to a channel of capacity one
that nothing receives from. The loops interleave at every shared access. A certified key of the
`kyber` library stays as it is.
-/

namespace Topia.Consensus

structure DKGFinishedMessage where
  ChainID : Bytes
  Version : Nat
  TriggerNumber : UInt64
  (NodeID PubPolyCommit : Bytes)
deriving DecidableEq, Repr

inductive VssError where
  | dealAlreadyProcessed
  | noDealBeforeResponse
  | existResponseOfSameOrigin
  | other
deriving DecidableEq, Repr

inductive DealResult (R : Type) where
  | failed (err : VssError)
  | responded (approval : Bool) (resp : R)
deriving DecidableEq, Repr

structure DistKeyGenerator (G D R : Type) where
  ProcessDeal : G → D → G × DealResult R
  ProcessResponse : G → R → G × Option VssError
  ExpectedDeals : G → Nat
  Certified : G → Bool
  /-- The commitment to the public key, `none` is an error. -/
  PubKey : G → Option Bytes
  certified_ProcessDeal : ∀ g d, Certified g = true → Certified (ProcessDeal g d).1 = true ∧
    PubKey (ProcessDeal g d).1 = PubKey g
  certified_ProcessResponse : ∀ g r, Certified g = true →
    Certified (ProcessResponse g r).1 = true ∧ PubKey (ProcessResponse g r).1 = PubKey g
  pubKey_isSome : ∀ g, Certified g = true → (PubKey g).isSome = true

structure DkgCrypt (G D R : Type) where
  triggerNumber : UInt64
  nParticipant : Nat
  remoteDeals : List D
  remoteAdvanResp : List R
  remoteFinished : List DKGFinishedMessage
  dkGenerator : G

inductive DKGExchangeState where
  | idle
  | exchangingDeal
  | finished
deriving DecidableEq, Repr

/-- Where `callBackWhenFinished` returns to: `processDeal` or the loop of the responses. -/
inductive Caller (R : Type) where
  | deal (c : Nat) (result : DealResult R)
  | resp
deriving DecidableEq, Repr

/-- A loop, by what it does next. Deals run on the exchange they were taken for, all else on the
current one. -/
inductive DkgLoop (D R : Type) where
  | sendIdle
  | sendEnd
  | dealIdle
  | dealWait (c : Nat) (deal : D)
  | dealAdvance (c : Nat) (result : DealResult R)
  | dealCheck (c : Nat) (result : DealResult R)
  | dealReply (result : DealResult R)
  | respIdle
  | respAdvance (resp : R)
  | respCheck
  | finIdle
  | finEarly (msg : DKGFinishedMessage)
  | finKey (msg : DKGFinishedMessage)
  | finAppend (msg : DKGFinishedMessage)
  | finCount
  | callState (caller : Caller R)
  | callSend (caller : Caller R)
  | callReport (caller : Caller R)
  | callSection (caller : Caller R)
deriving DecidableEq, Repr

structure DkgUpdate where
  triggerNumber : UInt64
  participants : List Bytes
  reports : List DKGFinishedMessage
  pubKey : Option Bytes
deriving DecidableEq, Repr

/-- The exchanges of one node, the current one last, and the service that triggers them; `starting`
is a trigger whose `start` waits. -/
structure DkgNode (G D R : Type) where
  (nodeID chainID : Bytes)
  (blocksPerEpoch triggerNumber : UInt64)
  selfSelected : Bool
  starting : Option UInt64
  State : DKGExchangeState
  startCh : Option UInt64
  /-- The number of values in the channel, at most one. -/
  finishedCh : Nat
  /-- The nodes of `initDKGPartPubKeys`. -/
  participants : List Bytes
  crypts : List (DkgCrypt G D R)
  /-- How often the domain service is among the updaters. -/
  dkgBLSUpdaters : Nat
  loops : List (DkgLoop D R)
  sent : List DKGFinishedMessage
  updates : List DkgUpdate
  panicked : Bool

/-- A new block with the candidates (`none` is an error) and the generator (`none` is a panic), the
start of an exchange, a message (`none` cannot be unmarshaled), or the next access of a loop. -/
inductive DkgEvent (G D R : Type) where
  | newBlock (height : UInt64) (candidates : Option (List Bytes)) (generator : Option G)
  | start
  | sendDeals (delivered : Bool)
  | takeDeal (deal : Option D)
  | takeResp (resp : Option R)
  | takeFinished (msg : DKGFinishedMessage)
  | advance (loop : DkgLoop D R) (delivered : Bool)

namespace DkgNode

variable {G D R : Type}

def triggerTimesOfEachEpoch : UInt64 := 1

def newDKGExchange (nodeID chainID : Bytes) (blocksPerEpoch : UInt64) : DkgNode G D R where
  nodeID := nodeID
  chainID := chainID
  blocksPerEpoch := blocksPerEpoch
  triggerNumber := 0
  selfSelected := false
  starting := none
  State := .idle
  startCh := none
  finishedCh := 0
  participants := []
  crypts := []
  dkgBLSUpdaters := 0
  loops := [.sendIdle]
  sent := []
  updates := []
  panicked := false

variable (s : DkgNode G D R)

def panic : DkgNode G D R :=
  { s with panicked := true }

def dkgCrypt : Option (DkgCrypt G D R) :=
  s.crypts.getLast?

def setCrypt (c : Nat) (d : DkgCrypt G D R) : DkgNode G D R :=
  { s with crypts := s.crypts.set c d }

def setCurrent (d : DkgCrypt G D R) : DkgNode G D R :=
  s.setCrypt (s.crypts.length - 1) d

def initWhenStart (participants : List Bytes) (generator : Option G) : DkgNode G D R :=
  match participants, generator with
  | [], _ => s.panic
  | _, none => s.panic
  | participants, some g =>
    { s with
      participants := participants
      crypts := s.crypts ++ [⟨s.triggerNumber, participants.length, [], [], [], g⟩]
      dkgBLSUpdaters := s.dkgBLSUpdaters + 1
      starting := some s.triggerNumber }

def newBlock (height : UInt64) (candidates : Option (List Bytes)) (generator : Option G) :
    DkgNode G D R :=
  let tSpan := s.blocksPerEpoch / triggerTimesOfEachEpoch
  let tNumber := height / tSpan * tSpan + 1
  if s.State ≠ .idle then s
  else if tSpan = 0 then s.panic
  else if tNumber = s.triggerNumber then s
  else
    match candidates with
    | none => { s with triggerNumber := tNumber }
    | some nodeIDs =>
      if s.selfSelected ∨ s.nodeID ∈ nodeIDs then
        { s with triggerNumber := tNumber, selfSelected := true }.initWhenStart
          nodeIDs.dedup generator
      else { s with triggerNumber := tNumber }

variable (lib : DistKeyGenerator G D R) [DecidableEq D] [DecidableEq R] (s : DkgNode G D R)
  (c : Nat) (d : DkgCrypt G D R) (loop : DkgLoop D R) (delivered : Bool)

def notifyUpdater : DkgNode G D R :=
  { s with
    State := .idle
    updates := s.updates ++ List.replicate s.dkgBLSUpdaters
      ⟨d.triggerNumber, s.participants, d.remoteFinished, lib.PubKey d.dkGenerator⟩ }

def processAdvanceResp (g : G) : List R → G
  | [] => g
  | resp :: resps =>
    match lib.ProcessResponse g resp with
    | (g', none) => processAdvanceResp g' resps
    | (g', some .existResponseOfSameOrigin) => processAdvanceResp g' resps
    | (g', some _) => g'

def holdsDeals : DkgLoop D R → Bool
  | .dealAdvance c' _ | .dealCheck c' _ | .callState (.deal c' _) | .callSend (.deal c' _)
  | .callReport (.deal c' _) | .callSection (.deal c' _) => c' = c
  | _ => false

def resume : Caller R → DkgLoop D R
  | .deal _ result => .dealReply result
  | .resp => .respIdle

def move (next : DkgLoop D R) : DkgNode G D R :=
  { s with loops := next :: s.loops.erase loop }

def dealStep : Option (DkgNode G D R) :=
  match loop with
  | .dealWait _ deal =>
    if s.loops.any (holdsDeals c) then none
    else if deal ∈ d.remoteDeals then some s.panic
    else
      let (g, result) := lib.ProcessDeal d.dkGenerator deal
      some ((s.setCrypt c { d with
        remoteDeals := d.remoteDeals ++ [deal]
        dkGenerator := g }).move loop (.dealAdvance c result))
  | .dealAdvance _ result =>
    if lib.ExpectedDeals d.dkGenerator + 1 = d.nParticipant then
      some ((s.setCrypt c { d with
        dkGenerator := processAdvanceResp lib d.dkGenerator d.remoteAdvanResp }).move loop
          (.dealCheck c result))
    else some (s.move loop (.dealReply result))
  | .dealCheck _ result =>
    if lib.Certified d.dkGenerator then some (s.move loop (.callState (.deal c result)))
    else some (s.move loop (.dealReply result))
  | .dealReply (.failed .dealAlreadyProcessed) => some (s.move loop .dealIdle)
  | .dealReply (.failed _) => some s.panic
  | .dealReply (.responded approval _) =>
    if approval ∧ delivered then some (s.move loop .dealIdle) else some s.panic
  | _ => none

def respStep : Option (DkgNode G D R) :=
  match loop with
  | .respAdvance resp =>
    if resp ∈ d.remoteAdvanResp then some (s.move loop .respCheck)
    else some ((s.setCurrent { d with
      remoteAdvanResp := d.remoteAdvanResp ++ [resp] }).move loop .respCheck)
  | .respCheck =>
    if lib.Certified d.dkGenerator then some (s.move loop (.callState .resp))
    else some (s.move loop .respIdle)
  | _ => none

def finishedStep : Option (DkgNode G D R) :=
  match loop with
  | .finEarly msg =>
    some ((s.setCurrent { d with
      remoteFinished := d.remoteFinished ++ [msg] }).move loop .finIdle)
  | .finKey msg =>
    if lib.PubKey d.dkGenerator = some msg.PubPolyCommit then
      some (s.move loop (.finAppend msg))
    else some (s.move loop .finIdle)
  | .finAppend msg =>
    some ((s.setCurrent { d with
      remoteFinished := d.remoteFinished ++ [msg] }).move loop .finCount)
  | .finCount =>
    if d.nParticipant ≤ d.remoteFinished.length + 1 then
      some ((s.notifyUpdater lib d).move loop .finIdle)
    else some (s.move loop .finIdle)
  | _ => none

/-- The next access of `callBackWhenFinished`; the send waits for room. -/
def callBackStep : Option (DkgNode G D R) :=
  match loop with
  | .callState caller => some ({ s with State := .finished }.move loop (.callSend caller))
  | .callSend caller =>
    if s.finishedCh < 1 then
      some ({ s with finishedCh := s.finishedCh + 1 }.move loop (.callReport caller))
    else none
  | .callReport caller =>
    match lib.PubKey d.dkGenerator with
    | none => some s.panic
    | some pubKey =>
      if delivered then
        let finishedMsg : DKGFinishedMessage :=
          ⟨s.chainID, CONSENSUS_VER, d.triggerNumber, s.nodeID, pubKey⟩
        some ({ s with sent := s.sent ++ [finishedMsg] }.move loop (.callSection caller))
      else some s.panic
  | .callSection caller =>
    if d.remoteFinished.length + 1 < d.nParticipant then some (s.move loop (resume caller))
    else
      match lib.PubKey d.dkGenerator with
      | none => some s.panic
      | some pubKey =>
        if d.remoteFinished.all (fun msg => msg.PubPolyCommit = pubKey) then
          some ((s.notifyUpdater lib d).move loop (resume caller))
        else some s.panic
  | _ => none

def advance : Option (DkgNode G D R) :=
  match loop with
  | .sendEnd => some ({ s with State := .exchangingDeal }.move loop .sendIdle)
  | .dealWait c _ | .dealAdvance c _ | .dealCheck c _ =>
    (s.crypts[c]?).bind (fun d => s.dealStep lib c d loop delivered)
  | .dealReply _ => s.dkgCrypt.bind (fun d => s.dealStep lib (s.crypts.length - 1) d loop delivered)
  | .respAdvance _ | .respCheck => s.dkgCrypt.bind (fun d => s.respStep lib d loop)
  | .finEarly _ | .finKey _ | .finAppend _ | .finCount =>
    s.dkgCrypt.bind (fun d => s.finishedStep lib d loop)
  | .callState _ | .callSend _ | .callReport _ | .callSection _ =>
    s.dkgCrypt.bind (fun d => s.callBackStep lib d loop delivered)
  | .sendIdle | .dealIdle | .respIdle | .finIdle => none

def sendDeals : Option (DkgNode G D R) :=
  if .sendIdle ∈ s.loops then
    s.startCh.map (fun triggerNumber =>
      match s.dkgCrypt with
      | none => s.panic
      | some d =>
        if d.triggerNumber = triggerNumber ∧ delivered then
          { s with startCh := none }.move .sendIdle .sendEnd
        else s.panic)
  else none

def takeDeal (deal : Option D) : Option (DkgNode G D R) :=
  if .dealIdle ∈ s.loops then
    match deal with
    | none => some s.panic
    | some deal => some (s.move .dealIdle (.dealWait (s.crypts.length - 1) deal))
  else none

def takeResp (resp : Option R) : Option (DkgNode G D R) :=
  if .respIdle ∈ s.loops then
    match resp with
    | none => some s.panic
    | some resp =>
      s.dkgCrypt.bind (fun d =>
        let (g, err) := lib.ProcessResponse d.dkGenerator resp
        let s := s.setCurrent { d with dkGenerator := g }
        match err with
        | none | some .existResponseOfSameOrigin => some (s.move .respIdle .respCheck)
        | some .noDealBeforeResponse => some (s.move .respIdle (.respAdvance resp))
        | some _ => some s.panic)
  else none

def takeFinished (msg : DKGFinishedMessage) : Option (DkgNode G D R) :=
  if .finIdle ∈ s.loops then
    s.dkgCrypt.map (fun d =>
      if lib.Certified d.dkGenerator then s.move .finIdle (.finKey msg)
      else s.move .finIdle (.finEarly msg))
  else none

def step (event : DkgEvent G D R) : Option (DkgNode G D R) :=
  if s.panicked then none
  else
    match event with
    | .newBlock height candidates generator =>
      if s.starting.isNone then some (s.newBlock height candidates generator) else none
    | .start =>
      if s.startCh.isNone then
        s.starting.map (fun triggerNumber =>
          { s with
            startCh := some triggerNumber
            starting := none
            loops := s.loops ++ [.dealIdle, .respIdle, .finIdle] })
      else none
    | .sendDeals delivered => s.sendDeals delivered
    | .takeDeal deal => s.takeDeal deal
    | .takeResp resp => s.takeResp lib resp
    | .takeFinished msg => s.takeFinished lib msg
    | .advance loop delivered => if loop ∈ s.loops then s.advance lib loop delivered else none

section Blocked

variable {lib} {s s' : DkgNode G D R} {d : DkgCrypt G D R} {loop : DkgLoop D R}
  {delivered : Bool} {caller : Caller R}

def Blocked (s : DkgNode G D R) (caller : Caller R) : Prop :=
  .callSend caller ∈ s.loops ∧ ¬ s.finishedCh < 1

structure Keeps (loop : DkgLoop D R) (s s' : DkgNode G D R) : Prop where
  loops : ∀ other ∈ s.loops, other ≠ loop → other ∈ s'.loops
  finishedCh : s.finishedCh ≤ s'.finishedCh

omit [DecidableEq D] [DecidableEq R] in
theorem keeps_panic (loop : DkgLoop D R) (s : DkgNode G D R) : Keeps loop s s.panic :=
  ⟨fun _ hmem _ => hmem, Nat.le_refl _⟩

theorem keeps_move {next : DkgLoop D R} (hloops : s'.loops = next :: s.loops.erase loop)
    (hfinishedCh : s.finishedCh ≤ s'.finishedCh) : Keeps loop s s' := by
  refine ⟨fun other hmem hne => ?_, hfinishedCh⟩
  rw [hloops]
  exact List.mem_cons_of_mem _ ((List.mem_erase_of_ne hne).mpr hmem)

theorem dealStep_keeps {c : Nat} (hstep : s.dealStep lib c d loop delivered = some s') :
    Keeps loop s s' := by
  unfold dealStep at hstep
  split at hstep <;> (try split_ifs at hstep) <;> cases hstep <;>
    first | exact keeps_panic _ _ | exact keeps_move rfl (Nat.le_refl _)

theorem respStep_keeps (hstep : s.respStep lib d loop = some s') : Keeps loop s s' := by
  unfold respStep at hstep
  split at hstep <;> (try split_ifs at hstep) <;> cases hstep <;>
    exact keeps_move rfl (Nat.le_refl _)

theorem finishedStep_keeps (hstep : s.finishedStep lib d loop = some s') : Keeps loop s s' := by
  unfold finishedStep at hstep
  split at hstep <;> (try split_ifs at hstep) <;> cases hstep <;>
    exact keeps_move rfl (Nat.le_refl _)

theorem callBackStep_keeps (hstep : s.callBackStep lib d loop delivered = some s') :
    Keeps loop s s' := by
  unfold callBackStep at hstep
  split at hstep
  · cases hstep
    exact keeps_move rfl (Nat.le_refl _)
  · split_ifs at hstep
    cases hstep
    exact keeps_move rfl (Nat.le_succ _)
  · split at hstep
    · cases hstep
      exact keeps_panic _ _
    · split_ifs at hstep
      · cases hstep
        exact keeps_move rfl (Nat.le_refl _)
      · cases hstep
        exact keeps_panic _ _
  · split_ifs at hstep
    · cases hstep
      exact keeps_move rfl (Nat.le_refl _)
    split at hstep
    · cases hstep
      exact keeps_panic _ _
    · split_ifs at hstep
      · cases hstep
        exact keeps_move rfl (Nat.le_refl _)
      · cases hstep
        exact keeps_panic _ _
  · cases hstep

theorem advance_keeps (hstep : s.advance lib loop delivered = some s') : Keeps loop s s' := by
  have hon : ∀ {found : Option (DkgCrypt G D R)} {call : DkgCrypt G D R → Option (DkgNode G D R)},
      found.bind call = some s' → (∀ d, call d = some s' → Keeps loop s s') → Keeps loop s s' := by
    intro found call hcall hkeeps
    obtain ⟨d, _, hd⟩ := Option.bind_eq_some_iff.mp hcall
    exact hkeeps d hd
  cases loop with
  | sendEnd =>
    cases hstep
    exact keeps_move rfl (Nat.le_refl _)
  | dealWait c deal | dealAdvance c result | dealCheck c result
  | dealReply result => exact hon hstep (fun _ => dealStep_keeps)
  | respAdvance resp | respCheck => exact hon hstep (fun _ => respStep_keeps)
  | finEarly msg | finKey msg | finAppend msg
  | finCount => exact hon hstep (fun _ => finishedStep_keeps)
  | sendIdle | dealIdle | respIdle | finIdle => cases hstep
  | _ => exact hon hstep (fun _ => callBackStep_keeps)

omit [DecidableEq D] [DecidableEq R] in
theorem newBlock_keeps (s : DkgNode G D R) (height : UInt64) (candidates : Option (List Bytes))
    (generator : Option G) : Keeps loop s (s.newBlock height candidates generator) := by
  have hsame : (s.newBlock height candidates generator).loops = s.loops ∧
      (s.newBlock height candidates generator).finishedCh = s.finishedCh := by
    unfold newBlock initWhenStart
    dsimp only
    split_ifs
    · exact ⟨rfl, rfl⟩
    · exact ⟨rfl, rfl⟩
    · exact ⟨rfl, rfl⟩
    · split
      · exact ⟨rfl, rfl⟩
      · split_ifs
        · split <;> exact ⟨rfl, rfl⟩
        · exact ⟨rfl, rfl⟩
  exact ⟨fun _ hmem _ => hsame.1 ▸ hmem, Nat.le_of_eq hsame.2.symm⟩

theorem takeResp_keeps {resp : Option R} (hstep : s.takeResp lib resp = some s') :
    Keeps .respIdle s s' := by
  unfold takeResp at hstep
  split_ifs at hstep
  split at hstep
  · cases hstep
    exact keeps_panic _ _
  obtain ⟨d, _, hd⟩ := Option.bind_eq_some_iff.mp hstep
  dsimp only at hd
  split at hd <;> cases hd
  · exact keeps_move rfl (Nat.le_refl _)
  · exact keeps_move rfl (Nat.le_refl _)
  · exact keeps_move rfl (Nat.le_refl _)
  · exact ⟨fun _ hmem _ => hmem, Nat.le_refl _⟩

theorem blocked_step {event : DkgEvent G D R} (h : s.Blocked caller)
    (hstep : s.step lib event = some s') : s'.Blocked caller := by
  obtain ⟨hmem, hfull⟩ := h
  suffices hkeeps : ∃ loop, loop ≠ .callSend caller ∧ Keeps loop s s' by
    obtain ⟨loop, hne, hkept⟩ := hkeeps
    refine ⟨hkept.loops _ hmem hne.symm, fun hroom => hfull ?_⟩
    exact Nat.lt_of_le_of_lt hkept.finishedCh hroom
  unfold step at hstep
  split at hstep
  · cases hstep
  cases event with
  | newBlock height candidates generator =>
    dsimp only at hstep
    split_ifs at hstep
    cases hstep
    exact ⟨.sendIdle, by simp, newBlock_keeps _ _ _ _⟩
  | start =>
    dsimp only at hstep
    split_ifs at hstep
    obtain ⟨t, _, rfl⟩ := Option.map_eq_some_iff.mp hstep
    exact ⟨.sendIdle, by simp, fun _ hother _ => List.mem_append_left _ hother, Nat.le_refl _⟩
  | sendDeals delivered =>
    refine ⟨.sendIdle, by simp, ?_⟩
    dsimp only [sendDeals] at hstep
    split_ifs at hstep
    obtain ⟨t, _, rfl⟩ := Option.map_eq_some_iff.mp hstep
    split
    · exact keeps_panic _ _
    · split_ifs
      · exact keeps_move rfl (Nat.le_refl _)
      · exact keeps_panic _ _
  | takeDeal deal =>
    refine ⟨.dealIdle, by simp, ?_⟩
    dsimp only [takeDeal] at hstep
    split_ifs at hstep
    split at hstep <;> cases hstep
    · exact keeps_panic _ _
    · exact keeps_move rfl (Nat.le_refl _)
  | takeResp resp => exact ⟨.respIdle, by simp, takeResp_keeps hstep⟩
  | takeFinished msg =>
    refine ⟨.finIdle, by simp, ?_⟩
    dsimp only [takeFinished] at hstep
    split_ifs at hstep
    obtain ⟨d, _, rfl⟩ := Option.map_eq_some_iff.mp hstep
    split_ifs
    · exact keeps_move rfl (Nat.le_refl _)
    · exact keeps_move rfl (Nat.le_refl _)
  | advance loop delivered =>
    dsimp only at hstep
    split_ifs at hstep
    refine ⟨loop, ?_, advance_keeps hstep⟩
    rintro rfl
    obtain ⟨d, _, hd⟩ := Option.bind_eq_some_iff.mp hstep
    simp [callBackStep, hfull] at hd

/-- **A callback that finds the channel full waits forever.** -/
theorem blocked_run {events : List (DkgEvent G D R)} {t : DkgNode G D R} (h : s.Blocked caller)
    (hrun : events.foldlM (step lib) s = some t) : t.Blocked caller := by
  exact Lib.run_invariant (fun _ _ _ => blocked_step) h hrun

end Blocked

end DkgNode

end Topia.Consensus
