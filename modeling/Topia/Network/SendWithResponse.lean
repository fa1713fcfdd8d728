import Mathlib.Data.List.Perm.Subperm
import Mathlib.Data.List.Count
import Topia.Common
import Topia.Lib.Run

/-!
# Asking several peers

`SendWithResponse` of `network/p2p/service.go` starts a goroutine for each peer, which opens a
stream, writes the request, reads the response and puts one entry into a channel with a place for
each peer. The caller takes entries until there is one for each peer or their number is at the
threshold. A goroutine whose stream cannot be opened ends without an entry.
-/

namespace Topia.Network

open Lib

universe u

def StreamMaxMsgSize : Nat := 2 ^ 30

structure NetworkMessage where
  (FromPeerID ProtocolID ModuleName : String)
  Data : Bytes
  ErrDesc : String
  Size : Nat
deriving DecidableEq, Repr

structure SendResponse (P : Type u) where
  NodeID : P
  RespData : Bytes
  Err : Option String
deriving DecidableEq, Repr

structure PeerStream where
  newStream : Except String String
  (writeMsg flush : Except String Unit)
  readMsg : Except String NetworkMessage

namespace PeerStream

variable (stream : PeerStream)

def writeMessage : Except String Unit :=
  match stream.writeMsg with
  | .error err => .error err
  | .ok _ => stream.flush

def readMessage (streamID : String) : Except String NetworkMessage :=
  match stream.readMsg with
  | .error err =>
    .error ("failed to read message: " ++ err ++ " and stream " ++ streamID ++ " will be reset")
  | .ok streamMsg =>
    if streamMsg.Size > StreamMaxMsgSize then
      .error ("received message exceeded permissible message maxSize FromPeerID=" ++
        streamMsg.FromPeerID ++ ", ProtocolID=" ++ streamMsg.ProtocolID ++ ", ModuleName=" ++
        streamMsg.ModuleName ++ ", size=" ++ toString streamMsg.Size ++ ", maxSize=" ++
        toString StreamMaxMsgSize)
    else .ok streamMsg

def opens : Bool :=
  stream.newStream.isOk

end PeerStream

inductive Stage where
  | opening
  | writing (streamID : String)
  | reading (streamID : String)
  | done
deriving DecidableEq, Repr

structure Goroutine (P : Type u) where
  peerID : P
  stream : PeerStream
  stage : Stage

namespace Goroutine

variable {P : Type u}

variable (g : Goroutine P)

def next : Option (Stage × Option (SendResponse P)) :=
  match g.stage with
  | .opening =>
    match g.stream.newStream with
    | .error _ => some (.done, none)
    | .ok streamID => some (.writing streamID, none)
  | .writing streamID =>
    match g.stream.writeMessage with
    | .error err =>
      some (.done, some ⟨g.peerID, [],
        some ("Stream sendMessage error: stream=" ++ streamID ++ ", err=" ++ err)⟩)
    | .ok _ => some (.reading streamID, none)
  | .reading streamID =>
    match g.stream.readMessage streamID with
    | .ok resp =>
      some (.done, some ⟨g.peerID, resp.Data,
        if resp.ErrDesc ≠ "" then some resp.ErrDesc else none⟩)
    | .error err => some (.done, some ⟨g.peerID, [], some ("read resp error " ++ err)⟩)
  | .done => none

def sent : Bool :=
  g.stage = .done && g.stream.opens

def Opened : Prop :=
  g.stage ≠ .opening → g.stage ≠ .done → g.stream.opens = true

def weight : Nat :=
  match g.stage with
  | .opening => 4
  | .writing _ => 3
  | .reading _ => 2
  | .done => 0

variable {g : Goroutine P} {stage : Stage} {resp : Option (SendResponse P)}

theorem next_cases (hnext : g.next = some (stage, resp)) :
    (g.stage = .opening ∧ g.stream.opens = false ∧ stage = .done ∧ resp = none) ∨
      (∃ id, g.stage = .opening ∧ g.stream.opens = true ∧ stage = .writing id ∧ resp = none) ∨
      (∃ id, g.stage = .writing id ∧ stage = .reading id ∧ resp = none) ∨
      (∃ id r, (g.stage = .writing id ∨ g.stage = .reading id) ∧ stage = .done ∧
        resp = some r ∧ r.NodeID = g.peerID) := by
  obtain ⟨peerID, stream, current⟩ := g
  cases current with
  | opening =>
    cases hstream : stream.newStream with
    | error err =>
      simp only [next, hstream] at hnext
      cases hnext
      exact .inl ⟨rfl, by rw [PeerStream.opens, hstream]; rfl, rfl, rfl⟩
    | ok streamID =>
      simp only [next, hstream] at hnext
      cases hnext
      exact .inr (.inl ⟨streamID, rfl, by rw [PeerStream.opens, hstream]; rfl, rfl, rfl⟩)
  | writing streamID =>
    cases hwrite : stream.writeMessage with
    | error err =>
      simp only [next, hwrite] at hnext
      cases hnext
      exact .inr (.inr (.inr ⟨streamID, _, .inl rfl, rfl, rfl, rfl⟩))
    | ok _ =>
      simp only [next, hwrite] at hnext
      cases hnext
      exact .inr (.inr (.inl ⟨streamID, rfl, rfl, rfl⟩))
  | reading streamID =>
    cases hread : stream.readMessage streamID with
    | error err | ok msg =>
      simp only [next, hread] at hnext
      cases hnext
      exact .inr (.inr (.inr ⟨streamID, _, .inr rfl, rfl, rfl, rfl⟩))
  | done => simp [next] at hnext

theorem next_spec (hopened : g.Opened) (hnext : g.next = some (stage, resp)) :
    g.sent = false ∧ ({ g with stage } : Goroutine P).Opened ∧
      ({ g with stage } : Goroutine P).sent = resp.isSome ∧
      (∀ r, resp = some r → r.NodeID = g.peerID) := by
  rcases next_cases hnext with ⟨hstage, hopens, rfl, rfl⟩ | ⟨id, hstage, hopens, rfl, rfl⟩ |
    ⟨id, hstage, rfl, rfl⟩ | ⟨id, r, hstage, rfl, rfl, hnode⟩
  · simp [sent, Opened, hstage, hopens]
  · simp [sent, Opened, hstage, hopens]
  · have hopens : g.stream.opens = true := hopened (by simp [hstage]) (by simp [hstage])
    simp [sent, Opened, hstage, hopens]
  have hopens : g.stream.opens = true := by
    rcases hstage with hstage | hstage
    · exact hopened (by simp [hstage]) (by simp [hstage])
    · exact hopened (by simp [hstage]) (by simp [hstage])
  have hunsent : g.sent = false := by
    rcases hstage with hstage | hstage
    · simp [sent, hstage]
    · simp [sent, hstage]
  refine ⟨hunsent, by simp [Opened], by simp [sent, hopens], ?_⟩
  rintro _ ⟨⟩
  exact hnode

theorem weight_next (hnext : g.next = some (stage, resp)) :
    ({ g with stage } : Goroutine P).weight + resp.toList.length < g.weight := by
  rcases next_cases hnext with ⟨hstage, _, rfl, rfl⟩ | ⟨id, hstage, _, rfl, rfl⟩ |
    ⟨id, hstage, rfl, rfl⟩ | ⟨id, r, hstage | hstage, rfl, rfl, _⟩
  · simp [weight, hstage]
  · simp [weight, hstage]
  · simp [weight, hstage]
  · simp [weight, hstage]
  · simp [weight, hstage]

theorem next_eq_none_iff : g.next = none ↔ g.stage = .done := by
  obtain ⟨peerID, stream, current⟩ := g
  cases current with
  | opening => cases hstream : stream.newStream <;> simp [next, hstream]
  | writing streamID => cases hwrite : stream.writeMessage <;> simp [next, hwrite]
  | reading streamID => cases hread : stream.readMessage streamID <;> simp [next, hread]
  | done => simp [next]

end Goroutine

/-- `SendWithResponse` from the start of its goroutines on; the channel has a place for each. -/
structure SendCall (P : Type u) where
  goroutines : List (Goroutine P)
  threshold : Int
  (respCh respList : List (SendResponse P))
  result : Option (Except String (List (SendResponse P)))

inductive SendEvent where
  /-- the operation that a goroutine is in returns -/
  | returns (i : Nat)
  /-- the caller takes an entry from the channel -/
  | collect
deriving DecidableEq, Repr

namespace SendCall

variable {P : Type u}

variable (targets : List (P × PeerStream)) (threshold : Int) (s : SendCall P)

/-- The peers and what their streams return. Without a peer there is an error. -/
def start : SendCall P where
  goroutines := targets.map fun target => ⟨target.1, target.2, .opening⟩
  threshold := threshold
  respCh := []
  respList := []
  result := if targets = [] then
      some (.error "There is no any target peer for SendWithResponse and check your network")
    else none

def take (r : SendResponse P) (rest : List (SendResponse P)) : SendCall P :=
  { s with
    respCh := rest
    respList := s.respList ++ [r]
    result :=
      if (s.respList ++ [r]).length ≥ s.goroutines.length ∨
          ((s.respList ++ [r]).length : Int) ≥ s.threshold then some (.ok (s.respList ++ [r]))
      else none }

def step : SendEvent → Option (SendCall P)
  | .returns i =>
    match s.goroutines[i]? with
    | none => none
    | some g =>
      match g.next with
      | none => none
      | some (stage, none) => some { s with goroutines := s.goroutines.set i { g with stage } }
      | some (stage, some resp) =>
        if s.respCh.length < s.goroutines.length then
          some { s with
            goroutines := s.goroutines.set i { g with stage }
            respCh := s.respCh ++ [resp] }
        else none
  | .collect =>
    match s.result, s.respCh with
    | none, r :: rest => some (s.take r rest)
    | _, _ => none

def Ended : Prop :=
  ∀ e, s.step e = none

def entries : Except String (List (SendResponse P)) → List (SendResponse P)
  | .error _ => []
  | .ok respList => respList

open SendResponse

/-- Returned, with enough entries and at most one for each peer. -/
def Answered : Prop :=
  ∃ result, s.result = some result ∧
    min threshold targets.length ≤ ((entries result).length : Int) ∧
    ((entries result).map NodeID).Subperm (targets.map Prod.fst)

def needed (n : Nat) (threshold : Int) : Nat :=
  max 1 (min n threshold.toNat)

def openable : Nat :=
  targets.countP fun target => target.2.opens

open Goroutine

structure Inv : Prop where
  launched : s.goroutines.map (fun g => (g.peerID, g.stream)) = targets
  asked : s.threshold = threshold
  opened : ∀ g ∈ s.goroutines, g.Opened
  /-- the entries are those of the goroutines that have sent one -/
  entered : ((s.respList ++ s.respCh).map NodeID).Perm
    ((s.goroutines.filter sent).map peerID)
  waiting : s.result = none → s.respList.length < needed targets.length threshold
  returned : ∀ result, s.result = some result → entries result = s.respList ∧
    (targets = [] ∨ s.respList.length = needed targets.length threshold)

open List

section Step

variable {targets : List (P × PeerStream)} {threshold : Int} {s s' : SendCall P} {e : SendEvent}

theorem step_cases (hstep : s.step e = some s') :
    (∃ before g after stage resp, s.goroutines = before ++ g :: after ∧
      g.next = some (stage, resp) ∧ s' = { s with
        goroutines := before ++ { g with stage } :: after
        respCh := s.respCh ++ resp.toList }) ∨
    ∃ r rest, s.result = none ∧ s.respCh = r :: rest ∧ s' = s.take r rest := by
  cases e with
  | returns i =>
    simp only [step] at hstep
    cases hg : s.goroutines[i]? with
    | none => simp [hg] at hstep
    | some g =>
      simp only [hg] at hstep
      obtain ⟨before, after, hbefore, -, hset⟩ := exists_process hg
      cases hnext : g.next with
      | none => simp [hnext] at hstep
      | some result =>
        obtain ⟨stage, resp⟩ := result
        refine .inl ⟨before, g, after, stage, resp, hbefore, hnext, ?_⟩
        cases resp with
        | none =>
          simp only [hnext] at hstep
          cases hstep
          simp [hset]
        | some r =>
          simp only [hnext] at hstep
          split_ifs at hstep
          cases hstep
          simp [hset]
  | collect =>
    simp only [step] at hstep
    cases hresult : s.result with
    | some result => simp [hresult] at hstep
    | none =>
      cases hrespCh : s.respCh with
      | nil => simp [hresult, hrespCh] at hstep
      | cons r rest =>
        simp only [hresult, hrespCh] at hstep
        cases hstep
        exact .inr ⟨r, rest, rfl, rfl, rfl⟩

theorem ends_iff (n : Nat) (threshold : Int) {k : Nat} (hk : 0 < k) :
    (k ≥ n ∨ (k : Int) ≥ threshold) ↔ needed n threshold ≤ k := by
  unfold needed
  omega

theorem stage_start {g : Goroutine P} (hg : g ∈ (start targets threshold).goroutines) :
    g.stage = .opening := by
  obtain ⟨target, _, rfl⟩ := mem_map.mp hg
  rfl

theorem inv_start (targets : List (P × PeerStream)) (threshold : Int) :
    (start targets threshold).Inv targets threshold where
  launched := by simp [start, Function.comp_def]
  asked := rfl
  opened := by
    intro g hg hstage
    exact absurd (stage_start hg) hstage
  entered := by
    have hnone : (start targets threshold).goroutines.filter sent = [] := by
      refine filter_eq_nil_iff.mpr ?_
      intro g hg
      simp [sent, stage_start hg]
    rw [hnone]
    exact Perm.refl _
  waiting := fun _ => Nat.lt_of_lt_of_le Nat.zero_lt_one (Nat.le_max_left _ _)
  returned := by
    intro result hresult
    obtain ⟨hempty, rfl⟩ := of_guard hresult
    exact ⟨rfl, .inl hempty⟩

theorem inv_step (h : s.Inv targets threshold) (hstep : s.step e = some s') :
    s'.Inv targets threshold := by
  rcases step_cases hstep with ⟨before, g, after, stage, resp, hsplit, hnext, rfl⟩ |
    ⟨r, rest, hresult, hrespCh, rfl⟩
  · have hg : g ∈ s.goroutines := by simp [hsplit]
    obtain ⟨hunsent, hopened, hsent, hnode⟩ := next_spec (h.opened g hg) hnext
    refine ⟨?_, h.asked, ?_, ?_, h.waiting, h.returned⟩
    · rw [← h.launched, hsplit]
      simp
    · intro g' hg'
      simp only [mem_append, mem_cons] at hg'
      rcases hg' with hg' | rfl | hg'
      · exact h.opened g' (by simp [hsplit, hg'])
      · exact hopened
      · exact h.opened g' (by simp [hsplit, hg'])
    · have hentered := h.entered
      simp only [hsplit, filter_append, filter_cons, hunsent] at hentered
      simp only [filter_append, filter_cons, hsent]
      cases resp with
      | none => simpa using hentered
      | some r =>
        -- the new entry is last in the channel, its goroutine somewhere in the list
        have hid : r.NodeID = g.peerID := hnode r rfl
        simp only [Option.isSome_some, if_true, Option.toList_some, map_append,
          map_cons, map_nil, ← append_assoc, hid]
        refine (perm_append_singleton _ _).trans ?_
        refine Perm.trans ?_ perm_middle.symm
        refine Perm.cons _ ?_
        simpa using hentered
  · have hlength : s.goroutines.length = targets.length := by rw [← h.launched, length_map]
    have hends := ends_iff targets.length threshold (show 0 < (s.respList ++ [r]).length by simp)
    have hbelow := h.waiting hresult
    refine ⟨h.launched, h.asked, h.opened, ?_, ?_, ?_⟩
    · have hentered := h.entered
      rw [hrespCh] at hentered
      simpa [take] using hentered
    · intro hwaiting
      simp only [take, h.asked, hlength] at hwaiting ⊢
      split_ifs at hwaiting with hcond
      exact not_le.mp (fun hle => hcond (hends.mpr hle))
    intro result hreturned
    simp only [take, h.asked, hlength] at hreturned ⊢
    split_ifs at hreturned with hcond
    cases hreturned
    refine ⟨rfl, .inr ?_⟩
    have hle := hends.mp hcond
    simp only [length_append, length_singleton] at hle ⊢
    omega

def measure (s : SendCall P) : Nat :=
  (s.goroutines.map weight).sum + s.respCh.length

theorem measure_step (s : SendCall P) (e : SendEvent) (s' : SendCall P)
    (hstep : s.step e = some s') : s'.measure < s.measure := by
  rcases step_cases hstep with ⟨before, g, after, stage, resp, hsplit, hnext, rfl⟩ |
    ⟨r, rest, _, hrespCh, rfl⟩
  · have hlower := weight_next hnext
    simp only [measure, hsplit, map_append, map_cons, sum_append, sum_cons, length_append]
    omega
  · simp [measure, take, hrespCh]

end Step

section Ended

variable {targets : List (P × PeerStream)} {threshold : Int} {s : SendCall P}

/-- **Every run ends**, with at most four steps for each peer. -/
theorem run_length_le_four {events : List SendEvent}
    (hrun : events.foldlM step (start targets threshold) = some s) :
    events.length ≤ 4 * targets.length := by
  have hle := run_length_le measure_step hrun
  have hstart : (start targets threshold).measure = 4 * targets.length := by
    simp [measure, start, weight, Function.comp_def, Nat.mul_comm]
  omega

theorem isSome_of_no_peer {events : List SendEvent}
    (hrun : events.foldlM step (start ([] : List (P × PeerStream)) threshold) = some s) :
    s.result.isSome := by
  have hlength := run_length_le_four hrun
  obtain rfl : events = [] := length_eq_zero_iff.mp (Nat.le_zero.mp hlength)
  cases hrun
  rfl

theorem length_entries (h : s.Inv targets threshold) :
    s.respList.length + s.respCh.length = (s.goroutines.filter sent).length := by
  have hlength := h.entered.length_eq
  simpa using hlength

theorem done_of_ended (h : s.Inv targets threshold) (hended : s.Ended) :
    ∀ g ∈ s.goroutines, g.stage = .done := by
  intro g hg
  rw [← next_eq_none_iff]
  by_contra hnext
  obtain ⟨⟨stage, resp⟩, hnext⟩ := Option.ne_none_iff_exists'.mp hnext
  obtain ⟨i, hi, hgi⟩ := List.getElem_of_mem hg
  have hget : s.goroutines[i]? = some g := List.getElem?_eq_some_iff.mpr ⟨hi, hgi⟩
  have hunsent := (next_spec (h.opened g hg) hnext).1
  have hroom : s.respCh.length < s.goroutines.length := by
    have hlt : (s.goroutines.filter sent).length < s.goroutines.length :=
      List.length_filter_lt_length_iff_exists.mpr ⟨g, hg, by simp [hunsent]⟩
    have heq := length_entries h
    omega
  have hstep := hended (.returns i)
  cases resp with
  | none => simp [step, hget, hnext] at hstep
  | some r => simp [step, hget, hnext, hroom] at hstep

theorem length_of_ended (h : s.Inv targets threshold) (hended : s.Ended) :
    s.respList.length + s.respCh.length = openable targets := by
  have hdone := done_of_ended h hended
  have hfilter : s.goroutines.filter sent =
      s.goroutines.filter (fun g => g.stream.opens) := by
    refine filter_congr ?_
    intro g hg
    simp [sent, hdone g hg]
  rw [length_entries h, hfilter, ← countP_eq_length_filter, openable, ← h.launched, countP_map]
  rfl

theorem result_iff_of_ended (hpeers : targets ≠ []) (h : s.Inv targets threshold)
    (hended : s.Ended) :
    s.result.isSome ↔ needed targets.length threshold ≤ openable targets := by
  have hlength := length_of_ended h hended
  cases hresult : s.result with
  | none =>
    have hempty : s.respCh = [] := by
      cases hrespCh : s.respCh with
      | nil => rfl
      | cons r rest =>
        have hstep := hended .collect
        simp [step, hresult, hrespCh] at hstep
    have hbelow := h.waiting hresult
    rw [hempty, length_nil] at hlength
    simp only [Option.isSome_none, Bool.false_eq_true, false_iff, not_le]
    omega
  | some result =>
    obtain ⟨_, hempty | hneeded⟩ := h.returned result hresult
    · exact absurd hempty hpeers
    · simp only [Option.isSome_some, true_iff]
      omega

theorem answered_of_result (h : s.Inv targets threshold) (hresult : s.result.isSome) :
    s.Answered targets threshold := by
  obtain ⟨result, hresult⟩ := Option.isSome_iff_exists.mp hresult
  obtain ⟨hentries, hcount⟩ := h.returned result hresult
  refine ⟨result, hresult, ?_, ?_⟩
  · rw [hentries]
    rcases hcount with rfl | hcount
    · rw [length_nil]
      omega
    · rw [hcount, needed]
      omega
  · rw [hentries]
    have hfirst : (s.respList.map NodeID).Subperm
        ((s.respList ++ s.respCh).map NodeID) :=
      ((sublist_append_left _ _).map _).subperm
    have hlast : ((s.goroutines.filter sent).map peerID).Subperm
        (s.goroutines.map peerID) := (filter_sublist.map _).subperm
    have hpeers : s.goroutines.map peerID = targets.map Prod.fst := by
      rw [← h.launched, map_map]
      rfl
    rw [← hpeers]
    exact (hfirst.trans h.entered.subperm).trans hlast

/-- **When the call returns.** Every run ends, and with enough entries and at most one for each
peer, exactly when there is no peer or enough streams can be opened. -/
theorem sendWithResponse_iff (targets : List (P × PeerStream)) (threshold : Int) :
    (∀ (events : List SendEvent) (s : SendCall P),
      events.foldlM step (start targets threshold) = some s →
        events.length ≤ 4 * targets.length ∧ (s.Ended → s.Answered targets threshold)) ↔
      targets = [] ∨ needed targets.length threshold ≤ openable targets := by
  have hinv : ∀ {events : List SendEvent} {s : SendCall P},
      events.foldlM step (start targets threshold) = some s → s.Inv targets threshold :=
    run_invariant (fun _ _ _ => inv_step) (inv_start targets threshold)
  by_cases hpeers : targets = []
  · subst hpeers
    refine iff_of_true ?_ (.inl rfl)
    intro events s hrun
    exact ⟨run_length_le_four hrun,
      fun _ => answered_of_result (hinv hrun) (isSome_of_no_peer hrun)⟩
  · simp only [hpeers, false_or]
    constructor
    · intro hall
      obtain ⟨events, s, hrun, hended⟩ :=
        exists_ended_run measure_step (start targets threshold)
      obtain ⟨result, hresult, _⟩ := (hall events s hrun).2 hended
      exact (result_iff_of_ended hpeers (hinv hrun) hended).mp (by simp [hresult])
    · intro henough events s hrun
      refine ⟨run_length_le_four hrun, fun hended => ?_⟩
      exact answered_of_result (hinv hrun)
        ((result_iff_of_ended hpeers (hinv hrun) hended).mpr henough)

end Ended

/-- The one stream cannot be opened: the goroutine ends, and the caller waits for good. -/
theorem sendWithResponse_hangs :
    ∃ s, [SendEvent.returns 0].foldlM step (start [('a', ⟨.error "no connection", .ok (), .ok (),
        .error ""⟩)] 1) = some s ∧ s.Ended ∧ s.result = none := by
  refine ⟨_, rfl, ?_, rfl⟩
  intro e
  cases e with
  | returns i =>
    cases i with
    | zero => rfl
    | succ i => rfl
  | collect => rfl

end SendCall

end Topia.Network
