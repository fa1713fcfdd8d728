import Topia.Common
import Topia.Lib.Run

/-!
# Decoding the transactions of a message in parallel

`UnmarshalTxsOfPreparePackedMessage` of `consensus/executor.go` starts a worker for every 500
transactions and a goroutine that waits for one message on an unbuffered channel and then cancels
the workers. A worker that cannot decode a transaction keeps the error, sends on the channel and
ends. The caller waits for the workers, sends as well, waits for the canceller and returns. Only one
message is received.
-/

namespace Topia.Consensus

open Lib

universe u v

def decodeBatch : Nat := 500

/-- The loop of a worker is before the index `m`, at its send, or over. -/
inductive DecodeStage where
  | running (m : Nat)
  | sending
  | done
deriving DecidableEq, Repr

structure DecodeWorker where
  (startI endI : Nat)
  stage : DecodeStage
deriving DecidableEq, Repr

/-- The canceller: not started, before its receive, before `cancel`, ended. -/
inductive DecodeCanceller where
  | idle
  | receiving
  | cancelling
  | done
deriving DecidableEq, Repr

/-- The caller: starting the workers, at `wg.Wait`, at its send, at `waitWG.Wait`, returned. -/
inductive DecodeCaller where
  | launching
  | waiting
  | sending
  | joining
  | returned
deriving DecidableEq, Repr

structure DecodeCall (τ : Type u) (ε : Type v) where
  i : Nat
  workers : List DecodeWorker
  receivedTxList : List (Option τ)
  errRtn : Option ε
  /-- the context is done -/
  cancelled : Bool
  canceller : DecodeCanceller
  caller : DecodeCaller
  result : Option (List (Option τ) × Option ε)
deriving DecidableEq, Repr

inductive DecodeEvent where
  /-- the loop starts a worker -/
  | launch
  /-- the loop has ended, and the canceller is started -/
  | startCanceller
  /-- a worker goes once through its loop -/
  | work (j : Nat)
  /-- the canceller receives from a worker -/
  | exit (j : Nat)
  | cancel
  /-- all workers have ended -/
  | wait
  /-- the canceller receives from the caller -/
  | send
  | finish
deriving DecidableEq, Repr

namespace DecodeCall

variable {τ : Type u} {ε : Type v}

open List

variable (unmarshal : Bytes → Except ε τ) (txs : List Bytes) (s : DecodeCall τ ε)

def start : DecodeCall τ ε where
  i := 0
  workers := []
  receivedTxList := replicate txs.length none
  errRtn := none
  cancelled := false
  canceller := .idle
  caller := .launching
  result := none

def endIndex (i : Nat) : Nat :=
  if i + decodeBatch ≥ txs.length then txs.length else i + decodeBatch

def work (j : Nat) (w : DecodeWorker) (m : Nat) : DecodeCall τ ε :=
  if m < w.endI then
    if s.cancelled then { s with workers := s.workers.set j { w with stage := .done } }
    else
      match unmarshal (txs.getD m []) with
      | .error err =>
        { s with
          workers := s.workers.set j { w with stage := .sending }
          errRtn := some err }
      | .ok tx =>
        { s with
          workers := s.workers.set j { w with stage := .running (m + 1) }
          receivedTxList := s.receivedTxList.set m (some tx) }
  else { s with workers := s.workers.set j { w with stage := .done } }

def step : DecodeEvent → Option (DecodeCall τ ε)
  | .launch =>
    if s.caller = .launching ∧ s.i < txs.length then
      some { s with
        i := endIndex txs s.i
        workers := s.workers ++ [⟨s.i, endIndex txs s.i, .running s.i⟩] }
    else none
  | .startCanceller =>
    if s.caller = .launching ∧ ¬ s.i < txs.length then
      some { s with canceller := .receiving, caller := .waiting }
    else none
  | .work j =>
    match s.workers[j]? with
    | some ⟨startI, endI, .running m⟩ =>
      some (work unmarshal txs s j ⟨startI, endI, .running m⟩ m)
    | _ => none
  | .exit j =>
    match s.workers[j]?, s.canceller with
    | some ⟨startI, endI, .sending⟩, .receiving =>
      some { s with workers := s.workers.set j ⟨startI, endI, .done⟩, canceller := .cancelling }
    | _, _ => none
  | .cancel =>
    if s.canceller = .cancelling then some { s with cancelled := true, canceller := .done }
    else none
  | .wait =>
    if s.caller = .waiting ∧ s.workers.all (fun w => w.stage = .done) then
      some { s with caller := .sending }
    else none
  | .send =>
    if s.caller = .sending ∧ s.canceller = .receiving then
      some { s with canceller := .cancelling, caller := .joining }
    else none
  | .finish =>
    if s.caller = .joining ∧ s.canceller = .done then
      some { s with caller := .returned, result := some (s.receivedTxList, s.errRtn) }
    else none

def Ended : Prop :=
  ∀ e, step unmarshal txs s e = none

def Malformed (tx : Bytes) : Prop :=
  ∃ err, unmarshal tx = .error err

/-- The call has returned, with an error exactly for a malformed transaction. -/
def Answered : Prop :=
  ∃ receivedTxList errRtn, s.result = some (receivedTxList, errRtn) ∧
    (errRtn ≠ none ↔ ∃ tx ∈ txs, Malformed unmarshal tx) ∧
    ((∀ tx ∈ txs, ¬ Malformed unmarshal tx) →
      receivedTxList = txs.map fun tx => (unmarshal tx).toOption)

section Step

variable {unmarshal : Bytes → Except ε τ} {txs : List Bytes} {s s' : DecodeCall τ ε}
variable {e : DecodeEvent}

/-- What a worker does next: its stage, the list, the error and the canceller after it. -/
inductive WorkerMove (unmarshal : Bytes → Except ε τ) (txs : List Bytes) (s : DecodeCall τ ε)
    (w : DecodeWorker) :
    DecodeStage → List (Option τ) → Option ε → DecodeCanceller → Prop where
  | ended (m : Nat) (hstage : w.stage = .running m) (hwhy : w.endI ≤ m ∨ s.cancelled = true) :
      WorkerMove unmarshal txs s w .done s.receivedTxList s.errRtn s.canceller
  | failed (m : Nat) (err : ε) (hstage : w.stage = .running m) (hlt : m < w.endI)
      (herr : unmarshal (txs.getD m []) = .error err) :
      WorkerMove unmarshal txs s w .sending s.receivedTxList (some err) s.canceller
  | decoded (m : Nat) (tx : τ) (hstage : w.stage = .running m) (hlt : m < w.endI)
      (hok : unmarshal (txs.getD m []) = .ok tx) :
      WorkerMove unmarshal txs s w (.running (m + 1)) (s.receivedTxList.set m (some tx)) s.errRtn
        s.canceller
  | exited (hstage : w.stage = .sending) (hcanceller : s.canceller = .receiving) :
      WorkerMove unmarshal txs s w .done s.receivedTxList s.errRtn .cancelling

def replaced (s : DecodeCall τ ε) (workers : List DecodeWorker) (list : List (Option τ))
    (errRtn : Option ε) (canceller : DecodeCanceller) : DecodeCall τ ε :=
  { s with workers := workers, receivedTxList := list, errRtn := errRtn, canceller := canceller }

inductive DecodeEffect (unmarshal : Bytes → Except ε τ) (txs : List Bytes)
    (s s' : DecodeCall τ ε) : Prop where
  | launched (hcaller : s.caller = .launching) (hlt : s.i < txs.length)
      (hnext : s' = { s with
        i := endIndex txs s.i
        workers := s.workers ++ [⟨s.i, endIndex txs s.i, .running s.i⟩] })
  | startedCanceller (hcaller : s.caller = .launching) (hend : ¬ s.i < txs.length)
      (hnext : s' = { s with canceller := .receiving, caller := .waiting })
  | moved (before after : List DecodeWorker) (w : DecodeWorker) (stage : DecodeStage)
      (list : List (Option τ)) (errRtn : Option ε) (canceller : DecodeCanceller)
      (hworkers : s.workers = before ++ w :: after)
      (hmove : WorkerMove unmarshal txs s w stage list errRtn canceller)
      (hnext : s' =
        s.replaced (before ++ { w with stage := stage } :: after) list errRtn canceller)
  | cancels (hcanceller : s.canceller = .cancelling)
      (hnext : s' = { s with cancelled := true, canceller := .done })
  | waited (hcaller : s.caller = .waiting) (hdone : ∀ w ∈ s.workers, w.stage = .done)
      (hnext : s' = { s with caller := .sending })
  | sent (hcaller : s.caller = .sending) (hcanceller : s.canceller = .receiving)
      (hnext : s' = { s with canceller := .cancelling, caller := .joining })
  | returns (hcaller : s.caller = .joining) (hcanceller : s.canceller = .done)
      (hnext : s' = { s with
        caller := .returned
        result := some (s.receivedTxList, s.errRtn) })

variable {w : DecodeWorker} {before after : List DecodeWorker} {list list' : List (Option τ)}
  {stage : DecodeStage} {errRtn : Option ε} {canceller : DecodeCanceller}

theorem moved_set {j : Nat} (hj : s.workers[j]? = some w)
    (hmove : WorkerMove unmarshal txs s w stage list errRtn canceller) :
    DecodeEffect unmarshal txs s
      (s.replaced (s.workers.set j { w with stage := stage }) list errRtn canceller) := by
  obtain ⟨before, after, hworkers, -, hset⟩ := exists_process hj
  exact .moved before after w stage list errRtn canceller hworkers hmove (by rw [hset])

theorem workEffect {j m : Nat} (hj : s.workers[j]? = some w) (hstage : w.stage = .running m) :
    DecodeEffect unmarshal txs s (work unmarshal txs s j w m) := by
  unfold work
  split_ifs with hlt hcancelled
  · exact moved_set hj (.ended m hstage (.inr hcancelled))
  · split
    · exact moved_set hj (.failed m _ hstage hlt ‹_›)
    · exact moved_set hj (.decoded m _ hstage hlt ‹_›)
  · exact moved_set hj (.ended m hstage (.inl (Nat.not_lt.mp hlt)))

theorem decodeEffect (hstep : step unmarshal txs s e = some s') :
    DecodeEffect unmarshal txs s s' := by
  cases e with
  | launch =>
    obtain ⟨h, rfl⟩ := of_guard hstep
    exact .launched h.1 h.2 rfl
  | startCanceller =>
    obtain ⟨h, rfl⟩ := of_guard hstep
    exact .startedCanceller h.1 h.2 rfl
  | work j =>
    simp only [step] at hstep
    split at hstep
    · rename_i hj
      cases hstep
      exact workEffect hj rfl
    · cases hstep
  | exit j =>
    simp only [step] at hstep
    split at hstep
    · rename_i startI endI hj hcanceller
      cases hstep
      exact moved_set hj (.exited rfl hcanceller)
    · cases hstep
  | cancel =>
    obtain ⟨h, rfl⟩ := of_guard hstep
    exact .cancels h rfl
  | wait =>
    obtain ⟨h, rfl⟩ := of_guard hstep
    refine .waited h.1 ?_ rfl
    simpa using h.2
  | send =>
    obtain ⟨h, rfl⟩ := of_guard hstep
    exact .sent h.1 h.2 rfl
  | finish =>
    obtain ⟨h, rfl⟩ := of_guard hstep
    exact .returns h.1 h.2 rfl

end Step

section Termination

variable {unmarshal : Bytes → Except ε τ} {txs : List Bytes}

def workerWeight (w : DecodeWorker) : Nat :=
  match w.stage with
  | .running m => w.endI - m + 2
  | .sending => 1
  | .done => 0

def cancellerWeight : DecodeCanceller → Nat
  | .idle => 0
  | .receiving => 2
  | .cancelling => 1
  | .done => 0

def callerWeight (txs : List Bytes) (i : Nat) : DecodeCaller → Nat
  | .launching => 4 * (txs.length - i) + 6
  | .waiting => 3
  | .sending => 2
  | .joining => 1
  | .returned => 0

def measure (txs : List Bytes) (s : DecodeCall τ ε) : Nat :=
  callerWeight txs s.i s.caller + cancellerWeight s.canceller + (s.workers.map workerWeight).sum

theorem endIndex_bounds {i : Nat} (hlt : i < txs.length) :
    i < endIndex txs i ∧ endIndex txs i ≤ txs.length := by
  unfold endIndex decodeBatch
  split_ifs
  · exact ⟨hlt, Nat.le_refl _⟩
  · omega

theorem measure_step (s : DecodeCall τ ε) (e : DecodeEvent) (s' : DecodeCall τ ε)
    (hstep : step unmarshal txs s e = some s') : measure txs s' < measure txs s := by
  cases decodeEffect hstep with
  | launched hcaller hlt hnext =>
    have hbounds := endIndex_bounds hlt
    subst hnext
    simp only [measure, hcaller, callerWeight, map_append, map_singleton,
      sum_append, sum_singleton, workerWeight]
    omega
  | startedCanceller hcaller hend hnext =>
    subst hnext
    simp only [measure, hcaller, callerWeight, cancellerWeight]
    omega
  | moved before after w stage list errRtn canceller hworkers hmove hnext =>
    subst hnext
    cases hmove with
    | ended m hstage hwhy | failed m err hstage hlt herr | decoded m tx hstage hlt hok =>
      simp only [measure, replaced, hworkers, map_append, map_cons, sum_append, sum_cons,
        workerWeight, hstage]
      omega
    | exited hstage hcanceller =>
      simp only [measure, replaced, hworkers, map_append, map_cons, sum_append, sum_cons,
        workerWeight, hstage, hcanceller, cancellerWeight]
      omega
  | cancels hcanceller hnext =>
    subst hnext
    simp only [measure, hcanceller, cancellerWeight]
    omega
  | waited hcaller hdone hnext =>
    subst hnext
    simp only [measure, hcaller, callerWeight]
    omega
  | sent hcaller hcanceller hnext =>
    subst hnext
    simp only [measure, hcaller, hcanceller, callerWeight, cancellerWeight]
    omega
  | returns hcaller hcanceller hnext =>
    subst hnext
    simp only [measure, hcaller, callerWeight]
    omega

/-- **Every run ends.** -/
theorem run_length_le_txs {s : DecodeCall τ ε} {events : List DecodeEvent}
    (hrun : events.foldlM (step unmarshal txs) (start txs) = some s) :
    events.length ≤ 4 * txs.length + 6 := by
  have hle := run_length_le measure_step hrun
  have hstart : measure txs (start txs : DecodeCall τ ε) = 4 * txs.length + 6 := by
    simp [measure, start, callerWeight, cancellerWeight]
  omega

end Termination

section Invariant

variable {unmarshal : Bytes → Except ε τ} {txs : List Bytes} {s s' : DecodeCall τ ε}
variable {e : DecodeEvent}

def spans (s : DecodeCall τ ε) : List (Nat × Nat) :=
  s.workers.map fun w => (w.startI, w.endI)

structure Ranges (txs : List Bytes) (s : DecodeCall τ ε) : Prop where
  length : s.receivedTxList.length = txs.length
  index : s.i ≤ txs.length
  launched : s.caller ≠ .launching → s.i = txs.length
  bound : ∀ span ∈ s.spans, span.2 ≤ txs.length
  covered : ∀ k, k < s.i → ∃ span ∈ s.spans, span.1 ≤ k ∧ k < span.2

theorem ranges_start : Ranges txs (start txs : DecodeCall τ ε) where
  length := length_replicate
  index := Nat.zero_le _
  launched := fun h => absurd rfl h
  bound := by simp [spans, start]
  covered := by simp [start]

variable {w : DecodeWorker} {before after : List DecodeWorker} {list list' : List (Option τ)}
  {stage : DecodeStage} {errRtn : Option ε} {canceller : DecodeCanceller}

theorem Ranges.replace (h : Ranges txs s) (hworkers : s.workers = before ++ w :: after)
    (hlength : list.length = s.receivedTxList.length) :
    Ranges txs
      (s.replaced (before ++ { w with stage := stage } :: after) list errRtn canceller) := by
  have hspans : (before ++ { w with stage := stage } :: after).map (fun w => (w.startI, w.endI)) =
      s.spans := by
    simp [spans, hworkers]
  refine ⟨hlength.trans h.length, h.index, h.launched, ?_, ?_⟩
  · rw [spans, replaced, hspans]
    exact h.bound
  · rw [spans, replaced, hspans]
    exact h.covered

theorem Ranges.launch (h : Ranges txs s) (hcaller : s.caller = .launching)
    (hlt : s.i < txs.length) :
    Ranges txs { s with
      i := endIndex txs s.i
      workers := s.workers ++ [⟨s.i, endIndex txs s.i, .running s.i⟩] } := by
  obtain ⟨-, hto⟩ := endIndex_bounds hlt
  have hspans : (s.workers ++ [(⟨s.i, endIndex txs s.i, .running s.i⟩ : DecodeWorker)]).map
      (fun w => (w.startI, w.endI)) = s.spans ++ [(s.i, endIndex txs s.i)] := by
    simp [spans]
  refine ⟨h.length, hto, fun hne => absurd hcaller hne, ?_, ?_⟩
  · rw [spans, hspans]
    intro span hspan
    rcases mem_append.mp hspan with hold | hnew
    · exact h.bound span hold
    · rw [mem_singleton.mp hnew]
      exact hto
  · rw [spans, hspans]
    intro k hk
    rcases Nat.lt_or_ge k s.i with hbefore | hafter
    · obtain ⟨span, hspan, hin⟩ := h.covered k hbefore
      exact ⟨span, mem_append_left _ hspan, hin⟩
    · exact ⟨(s.i, endIndex txs s.i), by simp, hafter, hk⟩

theorem ranges_step (h : Ranges txs s) (hstep : step unmarshal txs s e = some s') :
    Ranges txs s' := by
  cases decodeEffect hstep with
  | launched hcaller hlt hnext =>
    subst hnext
    exact h.launch hcaller hlt
  | startedCanceller hcaller hend hnext =>
    have hindex := h.index
    subst hnext
    exact { h with launched := fun _ => Nat.le_antisymm hindex (Nat.not_lt.mp hend) }
  | moved before after w stage list errRtn canceller hworkers hmove hnext =>
    subst hnext
    cases hmove <;> exact h.replace hworkers (by simp)
  | cancels hcanceller hnext =>
    subst hnext
    exact { h with }
  | waited hcaller hdone hnext | sent hcaller hcanceller hnext | returns hcaller hcanceller hnext =>
    subst hnext
    exact { h with launched := fun _ => h.launched (by simp [hcaller]) }

def SomeMalformed (unmarshal : Bytes → Except ε τ) (txs : List Bytes) : Prop :=
  ∃ tx ∈ txs, Malformed unmarshal tx

def Decoded (unmarshal : Bytes → Except ε τ) (txs : List Bytes) (list : List (Option τ))
    (k : Nat) : Prop :=
  ∃ tx, unmarshal (txs.getD k []) = .ok tx ∧ list[k]? = some (some tx)

def Taken (s : DecodeCall τ ε) : Prop :=
  s.canceller = .cancelling ∨ s.canceller = .done

/-- A running worker has decoded what is before it, a sending one has found a malformed transaction,
an ended one has decoded all or was cancelled. -/
structure WorkerOk (unmarshal : Bytes → Except ε τ) (txs : List Bytes) (list : List (Option τ))
    (taken : Prop) (w : DecodeWorker) : Prop where
  running : ∀ m, w.stage = .running m → ∀ k, w.startI ≤ k → k < m → Decoded unmarshal txs list k
  sending : w.stage = .sending → SomeMalformed unmarshal txs
  done : w.stage = .done → (∀ k, w.startI ≤ k → k < w.endI → Decoded unmarshal txs list k) ∨
    (SomeMalformed unmarshal txs ∧ taken)

variable {taken taken' : Prop} {m k : Nat}

theorem workerOk_of_running (hstage : w.stage = .running m)
    (hdecoded : ∀ k, w.startI ≤ k → k < m → Decoded unmarshal txs list k) :
    WorkerOk unmarshal txs list taken w := by
  refine ⟨?_, by simp [hstage], by simp [hstage]⟩
  intro m' hm'
  obtain rfl : m = m' := by simpa [hstage] using hm'
  exact hdecoded

theorem workerOk_of_sending
    (hstage : w.stage = .sending) (hmalformed : SomeMalformed unmarshal txs) :
    WorkerOk unmarshal txs list taken w :=
  ⟨by simp [hstage], fun _ => hmalformed, by simp [hstage]⟩

theorem workerOk_of_done
    (hstage : w.stage = .done)
    (hdone : (∀ k, w.startI ≤ k → k < w.endI → Decoded unmarshal txs list k) ∨
      (SomeMalformed unmarshal txs ∧ taken)) :
    WorkerOk unmarshal txs list taken w :=
  ⟨by simp [hstage], by simp [hstage], fun _ => hdone⟩

theorem WorkerOk.mono (h : WorkerOk unmarshal txs list taken w)
    (hlist : ∀ k, Decoded unmarshal txs list k → Decoded unmarshal txs list' k)
    (htaken : taken → taken') : WorkerOk unmarshal txs list' taken' w := by
  refine ⟨?_, h.sending, ?_⟩
  · intro m hstage k hfrom hlt
    exact hlist k (h.running m hstage k hfrom hlt)
  intro hstage
  refine (h.done hstage).imp ?_ ?_
  · intro hall k hfrom hlt
    exact hlist k (hall k hfrom hlt)
  · rintro ⟨hmalformed, hmessage⟩
    exact ⟨hmalformed, htaken hmessage⟩

theorem decoded_set {tx : τ} (hm : m < list.length) (hok : unmarshal (txs.getD m []) = .ok tx)
    (h : Decoded unmarshal txs list k) : Decoded unmarshal txs (list.set m (some tx)) k := by
  obtain ⟨tx', hok', hget⟩ := h
  by_cases hk : m = k
  · subst hk
    exact ⟨tx, hok, by simp [hm]⟩
  · exact ⟨tx', hok', by rw [getElem?_set_ne hk]; exact hget⟩

/-- The message on the channel is that of a worker with a malformed transaction, or of the caller,
when there is none. -/
structure Handshake (unmarshal : Bytes → Except ε τ) (txs : List Bytes) (s : DecodeCall τ ε) :
    Prop where
  workers : ∀ w ∈ s.workers, WorkerOk unmarshal txs s.receivedTxList s.Taken w
  error : s.errRtn ≠ none → SomeMalformed unmarshal txs
  started : s.caller = .launching ↔ s.canceller = .idle
  cancelled : s.cancelled = true → s.canceller = .done
  taken : s.Taken → SomeMalformed unmarshal txs ∨ s.caller = .joining ∨ s.caller = .returned
  waited : s.caller ≠ .launching → s.caller ≠ .waiting → ∀ w ∈ s.workers, w.stage = .done
  joined : s.caller = .joining ∨ s.caller = .returned → s.Taken ∧ ¬ SomeMalformed unmarshal txs
  result : s.result = if s.caller = .returned then some (s.receivedTxList, s.errRtn) else none

theorem handshake_start : Handshake unmarshal txs (start txs) where
  workers := by simp [start]
  error := fun h => absurd rfl h
  started := iff_of_true rfl rfl
  cancelled := fun h => Bool.noConfusion h
  taken := by simp [Taken, start]
  waited := fun h => absurd rfl h
  joined := by simp [start]
  result := rfl

section Handshake

variable (h : Handshake unmarshal txs s)
include h

theorem Handshake.caller_of_running (hw : w ∈ s.workers)
    (hstage : w.stage ≠ .done) : s.caller = .launching ∨ s.caller = .waiting := by
  by_contra hnot
  push Not at hnot
  exact hstage (h.waited hnot.1 hnot.2 w hw)

theorem Handshake.replace (hworkers : s.workers = before ++ w :: after) (hstage : w.stage ≠ .done)
    (hlist : ∀ k, Decoded unmarshal txs s.receivedTxList k → Decoded unmarshal txs list k)
    (herror : errRtn ≠ none → SomeMalformed unmarshal txs)
    (hok : WorkerOk unmarshal txs list s.Taken { w with stage := stage }) :
    Handshake unmarshal txs
      (s.replaced (before ++ { w with stage := stage } :: after) list errRtn s.canceller) := by
  have hcaller := h.caller_of_running (by simp [hworkers]) hstage
  refine ⟨?_, herror, h.started, h.cancelled, h.taken, ?_, h.joined, ?_⟩
  · intro w' hw'
    rcases mem_replaced w hw' with rfl | hold
    · exact hok
    · exact (h.workers w' (hworkers ▸ hold)).mono hlist id
  · intro hlaunching hwaiting
    exact (hcaller.elim hlaunching hwaiting).elim
  · rcases hcaller with hcaller | hcaller <;> simpa [replaced, hcaller] using h.result

theorem Handshake.not_someMalformed (hranges : Ranges txs s)
    (hlaunched : s.caller ≠ .launching) (hdone : ∀ w ∈ s.workers, w.stage = .done)
    (hnot : ¬ s.Taken) : ¬ SomeMalformed unmarshal txs := by
  rintro ⟨tx, htx, err, herr⟩
  obtain ⟨k, hk, rfl⟩ := getElem_of_mem htx
  have hend := hranges.launched hlaunched
  obtain ⟨span, hspan, hfrom, hto⟩ := hranges.covered k (by omega)
  obtain ⟨w, hw, rfl⟩ := mem_map.mp hspan
  rcases (h.workers w hw).done (hdone w hw) with hall | ⟨-, htaken⟩
  · obtain ⟨tx, hok, -⟩ := hall k hfrom hto
    rw [getD_eq_getElem?_getD, getElem?_eq_getElem hk, Option.getD_some, herr] at hok
    cases hok
  · exact hnot htaken

theorem Handshake.launch (hcaller : s.caller = .launching) (endI : Nat) :
    Handshake unmarshal txs { s with
      i := endI
      workers := s.workers ++ [⟨s.i, endI, .running s.i⟩] } := by
  refine { h with workers := ?_, waited := fun hne => absurd hcaller hne }
  intro w hw
  rcases mem_append.mp hw with hold | hnew
  · exact h.workers w hold
  · rw [mem_singleton.mp hnew]
    refine workerOk_of_running rfl ?_
    intro k hfrom hto
    exact absurd hto (Nat.not_lt.mpr hfrom)

theorem Handshake.startCanceller (hcaller : s.caller = .launching) :
    Handshake unmarshal txs { s with canceller := .receiving, caller := .waiting } := by
  have hidle := h.started.mp hcaller
  have hnot : ¬ s.Taken := by simp [Taken, hidle]
  refine ⟨?_, h.error, by simp, ?_, ?_, by simp, by simp, ?_⟩
  · intro w hw
    exact (h.workers w hw).mono (fun _ hk => hk) fun htaken => absurd htaken hnot
  · intro hcancelled
    simp [h.cancelled hcancelled] at hidle
  · simp [Taken]
  · simpa [hcaller] using h.result

theorem Handshake.someMalformed_of_cancelled (hw : w ∈ s.workers) (hstage : w.stage ≠ .done)
    (hcancelled : s.cancelled = true) : SomeMalformed unmarshal txs ∧ s.Taken := by
  have htaken : s.Taken := .inr (h.cancelled hcancelled)
  refine ⟨(h.taken htaken).resolve_right ?_, htaken⟩
  rcases h.caller_of_running hw hstage with hcaller | hcaller
  · simp [hcaller]
  · simp [hcaller]

theorem Handshake.exit (hworkers : s.workers = before ++ w :: after)
    (hstage : w.stage = .sending) (hcanceller : s.canceller = .receiving) :
    Handshake unmarshal txs (s.replaced (before ++ { w with stage := .done } :: after)
      s.receivedTxList s.errRtn .cancelling) := by
  have hw : w ∈ s.workers := by simp [hworkers]
  have hmalformed := (h.workers w hw).sending hstage
  have hwaiting : s.caller = .waiting := by
    refine (h.caller_of_running hw (by simp [hstage])).resolve_left ?_
    intro hlaunching
    simp [h.started.mp hlaunching] at hcanceller
  refine ⟨?_, h.error, by simp [replaced, hwaiting], ?_, fun _ => .inl hmalformed,
    by simp [replaced, hwaiting], by simp [replaced, hwaiting], ?_⟩
  · intro w' hw'
    rcases mem_replaced w hw' with rfl | hold
    · exact workerOk_of_done rfl (.inr ⟨hmalformed, .inl rfl⟩)
    · exact (h.workers w' (hworkers ▸ hold)).mono (fun _ hk => hk) fun _ => .inl rfl
  · intro hcancelled
    simp [h.cancelled hcancelled] at hcanceller
  · simpa [replaced, hwaiting] using h.result

theorem Handshake.move (hranges : Ranges txs s) (hworkers : s.workers = before ++ w :: after)
    (hmove : WorkerMove unmarshal txs s w stage list errRtn canceller) :
    Handshake unmarshal txs
      (s.replaced (before ++ { w with stage := stage } :: after) list errRtn canceller) := by
  have hw : w ∈ s.workers := by simp [hworkers]
  have hbound : w.endI ≤ txs.length := hranges.bound (w.startI, w.endI) (by simp [spans, hworkers])
  cases hmove with
  | ended m hstage hwhy =>
    refine h.replace hworkers (by simp [hstage]) (fun _ hk => hk) h.error (workerOk_of_done rfl ?_)
    rcases hwhy with hend | hcancelled
    · left
      intro k hfrom hto
      exact (h.workers w hw).running m hstage k hfrom (Nat.lt_of_lt_of_le hto hend)
    · right
      exact h.someMalformed_of_cancelled hw (by simp [hstage]) hcancelled
  | failed m err hstage hlt herr =>
    have hm : m < txs.length := by omega
    have hmalformed : SomeMalformed unmarshal txs := by
      refine ⟨txs[m], getElem_mem hm, err, ?_⟩
      rwa [getD_eq_getElem?_getD, getElem?_eq_getElem hm] at herr
    exact h.replace hworkers (by simp [hstage]) (fun _ hk => hk) (fun _ => hmalformed)
      (workerOk_of_sending rfl hmalformed)
  | decoded m tx hstage hlt hok =>
    have hm : m < s.receivedTxList.length := by
      rw [hranges.length]
      omega
    refine h.replace hworkers (by simp [hstage]) (fun k hk => decoded_set hm hok hk) h.error
      (workerOk_of_running rfl ?_)
    intro k hfrom hto
    rcases Nat.lt_succ_iff_lt_or_eq.mp hto with hbefore | rfl
    · exact decoded_set hm hok ((h.workers w hw).running m hstage k hfrom hbefore)
    · exact ⟨tx, hok, by simp [hm]⟩
  | exited hstage hcanceller => exact h.exit hworkers hstage hcanceller

theorem Handshake.cancel (hcanceller : s.canceller = .cancelling) :
    Handshake unmarshal txs { s with cancelled := true, canceller := .done } := by
  have hlaunched : s.caller ≠ .launching := by
    intro hlaunching
    simp [h.started.mp hlaunching] at hcanceller
  refine ⟨?_, h.error, by simp [hlaunched], fun _ => rfl, fun _ => h.taken (.inl hcanceller),
    h.waited, fun hjoined => ⟨.inr rfl, (h.joined hjoined).2⟩, h.result⟩
  intro w hw
  exact (h.workers w hw).mono (fun _ hk => hk) fun _ => .inr rfl

theorem Handshake.wait (hcaller : s.caller = .waiting) (hdone : ∀ w ∈ s.workers, w.stage = .done) :
    Handshake unmarshal txs { s with caller := .sending } := by
  have hstarted : s.canceller ≠ .idle := by
    intro hidle
    simp [h.started.mpr hidle] at hcaller
  refine ⟨h.workers, h.error, by simp [hstarted], h.cancelled, ?_, fun _ _ => hdone, by simp, ?_⟩
  · intro htaken
    refine .inl ((h.taken htaken).resolve_right ?_)
    simp [hcaller]
  · simpa [hcaller] using h.result

theorem Handshake.send (hranges : Ranges txs s)
    (hcaller : s.caller = .sending) (hcanceller : s.canceller = .receiving) :
    Handshake unmarshal txs { s with canceller := .cancelling, caller := .joining } := by
  have hdone := h.waited (by simp [hcaller]) (by simp [hcaller])
  have hnone := h.not_someMalformed hranges (by simp [hcaller]) hdone (by simp [Taken, hcanceller])
  refine ⟨?_, h.error, by simp, ?_, fun _ => .inr (.inl rfl), fun _ _ => hdone,
    fun _ => ⟨.inl rfl, hnone⟩, ?_⟩
  · intro w hw
    exact (h.workers w hw).mono (fun _ hk => hk) fun _ => .inl rfl
  · intro hcancelled
    simp [h.cancelled hcancelled] at hcanceller
  · simpa [hcaller] using h.result

theorem Handshake.finish (hcaller : s.caller = .joining) (hcanceller : s.canceller = .done) :
    Handshake unmarshal txs { s with
      caller := .returned
      result := some (s.receivedTxList, s.errRtn) } := by
  have hdone := h.waited (by simp [hcaller]) (by simp [hcaller])
  have hjoined := h.joined (.inl hcaller)
  exact ⟨h.workers, h.error, by simp [hcanceller], h.cancelled, fun _ => .inr (.inr rfl),
    fun _ _ => hdone, fun _ => hjoined, by simp⟩

theorem handshake_step (hranges : Ranges txs s)
    (hstep : step unmarshal txs s e = some s') : Handshake unmarshal txs s' := by
  cases decodeEffect hstep with
  | launched hcaller hlt hnext =>
    subst hnext
    exact h.launch hcaller _
  | startedCanceller hcaller hend hnext =>
    subst hnext
    exact h.startCanceller hcaller
  | moved before after w stage list errRtn canceller hworkers hmove hnext =>
    subst hnext
    exact h.move hranges hworkers hmove
  | cancels hcanceller hnext =>
    subst hnext
    exact h.cancel hcanceller
  | waited hcaller hdone hnext =>
    subst hnext
    exact h.wait hcaller hdone
  | sent hcaller hcanceller hnext =>
    subst hnext
    exact h.send hranges hcaller hcanceller
  | returns hcaller hcanceller hnext =>
    subst hnext
    exact h.finish hcaller hcanceller

end Handshake

theorem inv_of_run {events : List DecodeEvent}
    (hrun : events.foldlM (step unmarshal txs) (start txs) = some s) :
    Ranges txs s ∧ Handshake unmarshal txs s := by
  have hstep : ∀ s e s', Ranges txs s ∧ Handshake unmarshal txs s →
      step unmarshal txs s e = some s' → Ranges txs s' ∧ Handshake unmarshal txs s' :=
    fun _ _ _ h hs => ⟨ranges_step h.1 hs, handshake_step h.2 h.1 hs⟩
  exact run_invariant hstep ⟨ranges_start, handshake_start⟩ hrun

end Invariant

section Ended

variable {unmarshal : Bytes → Except ε τ} {txs : List Bytes} {s : DecodeCall τ ε}

theorem Handshake.result_eq_none (h : Handshake unmarshal txs s)
    (hmalformed : SomeMalformed unmarshal txs) : s.result = none := by
  have hcaller : s.caller ≠ .returned := by
    intro hreturned
    exact (h.joined (.inr hreturned)).2 hmalformed
  simpa [hcaller] using h.result

theorem step_of_running {w : DecodeWorker} {m : Nat} (hw : w ∈ s.workers)
    (hstage : w.stage = .running m) : ¬ Ended unmarshal txs s := by
  intro hended
  obtain ⟨j, hj, hget⟩ := getElem_of_mem hw
  have hsome : s.workers[j]? = some w := by rw [getElem?_eq_getElem hj, hget]
  have hnone := hended (.work j)
  obtain ⟨startI, endI, stage⟩ := w
  cases hstage
  simp [step, hsome] at hnone

variable (h : Handshake unmarshal txs s)
include h

theorem Handshake.returned_of_ended (hnone : ¬ SomeMalformed unmarshal txs)
    (hended : Ended unmarshal txs s) : s.caller = .returned := by
  have htaken : s.Taken → s.caller = .joining ∨ s.caller = .returned :=
    fun ht => (h.taken ht).resolve_left hnone
  cases hcaller : s.caller with
  | launching =>
    have hlaunch := hended .launch
    have hstart := hended .startCanceller
    by_cases hlt : s.i < txs.length
    · simp [step, hcaller, hlt] at hlaunch
    · simp [step, hcaller, hlt] at hstart
  | waiting =>
    have hwait := hended .wait
    have hrunning : ∃ w ∈ s.workers, w.stage ≠ .done := by
      by_contra hnot
      simp only [step, hcaller, true_and] at hwait
      rw [if_pos (by simpa using hnot)] at hwait
      cases hwait
    obtain ⟨w, hw, hstage⟩ := hrunning
    cases hw' : w.stage with
    | running m => exact absurd hended (step_of_running hw hw')
    | sending => exact absurd ((h.workers w hw).sending hw') hnone
    | done => exact absurd hw' hstage
  | sending =>
    have hsend := hended .send
    cases hcanceller : s.canceller with
    | idle => simp [h.started.mpr hcanceller] at hcaller
    | receiving => simp [step, hcaller, hcanceller] at hsend
    | cancelling => simpa [hcaller] using htaken (.inl hcanceller)
    | done => simpa [hcaller] using htaken (.inr hcanceller)
  | joining =>
    have hcancel := hended .cancel
    have hfinish := hended .finish
    rcases (h.joined (.inl hcaller)).1 with hcanceller | hcanceller
    · simp [step, hcanceller] at hcancel
    · simp [step, hcaller, hcanceller] at hfinish
  | returned => rfl

theorem Handshake.receivedTxList_eq (hranges : Ranges txs s) (hcaller : s.caller = .returned) :
    s.receivedTxList = txs.map fun tx => (unmarshal tx).toOption := by
  have hnone := (h.joined (.inr hcaller)).2
  have hdone := h.waited (by simp [hcaller]) (by simp [hcaller])
  refine ext_getElem? ?_
  intro k
  rcases Nat.lt_or_ge k txs.length with hk | hk
  · have hlaunched := hranges.launched (by simp [hcaller])
    obtain ⟨span, hspan, hfrom, hto⟩ := hranges.covered k (by omega)
    obtain ⟨w, hw, rfl⟩ := mem_map.mp hspan
    rcases (h.workers w hw).done (hdone w hw) with hall | ⟨hmalformed, -⟩
    · obtain ⟨tx, hok, hget⟩ := hall k hfrom hto
      rw [getD_eq_getElem?_getD, getElem?_eq_getElem hk, Option.getD_some] at hok
      rw [hget, getElem?_map, getElem?_eq_getElem hk, Option.map_some, hok]
      rfl
    · exact absurd hmalformed hnone
  · rw [getElem?_eq_none (by rw [hranges.length]; exact hk),
      getElem?_eq_none (by rw [length_map]; exact hk)]

theorem answered_iff_of_ended (hranges : Ranges txs s) (hended : Ended unmarshal txs s) :
    Answered unmarshal txs s ↔ ¬ SomeMalformed unmarshal txs := by
  constructor
  · rintro ⟨list, err, hresult, -⟩ hmalformed
    rw [h.result_eq_none hmalformed] at hresult
    cases hresult
  intro hnone
  have hcaller := h.returned_of_ended hnone hended
  have herror : s.errRtn = none := by
    by_contra hne
    exact hnone (h.error hne)
  refine ⟨s.receivedTxList, s.errRtn, by simpa [hcaller] using h.result, ?_, ?_⟩
  · exact iff_of_false (fun hne => hne herror) hnone
  · intro _
    exact h.receivedTxList_eq hranges hcaller

end Ended

/-- **Every run ends; and on every schedule the call returns, with the right result, exactly when no
transaction is malformed.** -/
theorem unmarshalTxs_iff (unmarshal : Bytes → Except ε τ) (txs : List Bytes) :
    (∀ (events : List DecodeEvent) (s : DecodeCall τ ε),
      events.foldlM (step unmarshal txs) (start txs) = some s →
        events.length ≤ 4 * txs.length + 6) ∧
    ((∀ (events : List DecodeEvent) (s : DecodeCall τ ε),
      events.foldlM (step unmarshal txs) (start txs) = some s → Ended unmarshal txs s →
        Answered unmarshal txs s) ↔ ∀ tx ∈ txs, ¬ Malformed unmarshal tx) := by
  refine ⟨fun _ _ => run_length_le_txs, ?_⟩
  have hnone : ¬ SomeMalformed unmarshal txs ↔ ∀ tx ∈ txs, ¬ Malformed unmarshal tx := by
    simp [SomeMalformed]
  rw [← hnone]
  constructor
  · intro hall
    have hlower : ∀ (s : DecodeCall τ ε) e s', step unmarshal txs s e = some s' →
        measure txs s' < measure txs s := measure_step
    obtain ⟨events, s, hrun, hended⟩ := exists_ended_run hlower (start txs)
    obtain ⟨hranges, hhandshake⟩ := inv_of_run hrun
    exact (answered_iff_of_ended hhandshake hranges hended).mp (hall events s hrun hended)
  · intro hnot events s hrun hended
    obtain ⟨hranges, hhandshake⟩ := inv_of_run hrun
    exact (answered_iff_of_ended hhandshake hranges hended).mpr hnot

section OneMalformed

/-- The byte `7` alone is a tag without its value. -/
def plainUnmarshal (tx : Bytes) : Except Bytes Bytes :=
  if tx = [7] then .error (ascii "EOF") else .ok tx

def oneMalformed : List DecodeEvent :=
  [.launch, .startCanceller, .work 0, .exit 0, .cancel, .wait]

def hung : DecodeCall Bytes Bytes where
  i := 1
  workers := [⟨0, 1, .done⟩]
  receivedTxList := [none]
  errRtn := some (ascii "EOF")
  cancelled := true
  canceller := .done
  caller := .sending
  result := none

/-- One malformed transaction: the run ends without a result. -/
theorem unmarshalTxs_hangs :
    oneMalformed.foldlM (step plainUnmarshal [[7]]) (start [[7]]) = some hung ∧
      Ended plainUnmarshal [[7]] hung ∧ hung.result = none := by
  refine ⟨by decide +kernel, ?_, rfl⟩
  intro e
  cases e with
  | work j => cases j <;> rfl
  | exit j => cases j <;> rfl
  | _ => rfl

end OneMalformed

end DecodeCall

end Topia.Consensus
