import Mathlib.Data.List.Nodup
import Mathlib.Data.List.Range
import Topia.Lib.Run

/-!
# The queue of a subscription

`api/rpc/queue.go`: a linked list of at most `MaxSubQueueLength` messages and a channel with one
slot, into which `enqueue` and `removeHead` offer the message at the head. The sender goroutine of
`api/rpc/subscription.go` receives from the channel, sends to the client, and calls `removeHead`
afterwards. `enqueue` and `removeHead` hold the queue's mutex, a receive does not.
-/

namespace Topia.Rpc

open Lib

universe u

def MaxSubQueueLength : Nat := 10

inductive EnqueueError where
  /-- `subscription queue is full` -/
  | queueFull
  /-- a send on a closed channel panics -/
  | sendOnClosed
deriving DecidableEq, Repr

structure Queue (α : Type u) where
  nodes : List α
  size : Nat
  outBuf : Option α
  /-- `clear` has closed the channel -/
  closed : Bool
  size_eq : size = nodes.length
  size_le : size ≤ MaxSubQueueLength
  closed_empty : closed = true → nodes = []
deriving DecidableEq

open List

namespace Queue

variable {α : Type u}

def newQueue : Queue α where
  nodes := []
  size := 0
  outBuf := none
  closed := false
  size_eq := rfl
  size_le := Nat.zero_le _
  closed_empty := fun _ => rfl

variable (q : Queue α)

/-- `enqueue`; the head is offered to the channel, if its slot is free. -/
def enqueue (eventMsg : α) : Except EnqueueError (Queue α) :=
  if hfull : q.size = MaxSubQueueLength then .error .queueFull
  else if q.closed then .error .sendOnClosed
  else .ok {
    nodes := q.nodes ++ [eventMsg]
    size := q.size + 1
    outBuf := q.outBuf.or (q.nodes ++ [eventMsg]).head?
    closed := false
    size_eq := by rw [q.size_eq, length_append, length_singleton]
    size_le := Nat.lt_of_le_of_ne q.size_le hfull
    closed_empty := nofun }

/-- `removeHead`; the next message, if any, is offered to the channel. -/
def removeHead : Queue α :=
  if q.nodes = [] then q
  else {
    nodes := q.nodes.tail
    size := q.size - 1
    outBuf := q.outBuf.or q.nodes.tail.head?
    closed := q.closed
    size_eq := by rw [q.size_eq, length_tail]
    size_le := (Nat.sub_le _ _).trans q.size_le
    closed_empty := fun hclosed => by rw [q.closed_empty hclosed]; rfl }

/-- `clear`; `none` is the panic of closing twice. The slot keeps its message. -/
def clear : Option (Queue α) :=
  if q.closed then none
  else some {
    nodes := []
    size := 0
    outBuf := q.outBuf
    closed := true
    size_eq := rfl
    size_le := Nat.zero_le _
    closed_empty := fun _ => rfl }

def takeOut : Queue α :=
  { q with outBuf := none }

variable {q q' : Queue α} {eventMsg x : α}

theorem enqueue_ok (henqueue : q.enqueue eventMsg = .ok q') :
    q'.nodes = q.nodes ++ [eventMsg] ∧ q'.outBuf = q.outBuf.or (q.nodes ++ [eventMsg]).head? := by
  unfold enqueue at henqueue
  split_ifs at henqueue
  cases henqueue
  exact ⟨rfl, rfl⟩

theorem closed_enqueue (henqueue : q.enqueue eventMsg = .ok q') : q'.closed = false := by
  unfold enqueue at henqueue
  split_ifs at henqueue
  cases henqueue
  rfl

theorem closed_of_sendOnClosed
    (henqueue : q.enqueue eventMsg = .error .sendOnClosed) : q.closed = true := by
  unfold enqueue at henqueue
  split_ifs at henqueue with hfull hclosed
  · cases henqueue
  · exact hclosed

theorem removeHead_cons {rest : List α} (hnodes : q.nodes = x :: rest) :
    q.removeHead.nodes = rest ∧ q.removeHead.outBuf = q.outBuf.or rest.head? := by
  have hne : q.nodes ≠ [] := by simp [hnodes]
  have htail : q.nodes.tail = rest := by rw [hnodes, tail_cons]
  rw [removeHead, if_neg hne]
  exact ⟨htail, by rw [← htail]⟩

theorem outBuf_removeHead (hout : q.outBuf = some x) : q.removeHead.outBuf = some x := by
  unfold removeHead
  split_ifs
  · exact hout
  · simp [hout]

end Queue

inductive QueueEvent (α : Type u) where
  | enqueue (eventMsg : α)
  /-- the sender gets a message from `wait()` -/
  | receive
  /-- the sender is done with the message it has received -/
  | removeHead
deriving DecidableEq, Repr

def QueueEvent.OfSender {α : Type u} : QueueEvent α → Prop
  | .enqueue _ => False
  | .receive => True
  | .removeHead => True

/-- A queue with its sender. Messages carry their place among the accepted ones. -/
structure Delivery (α : Type u) where
  queue : Queue (Nat × α)
  /-- the message between its receive and its `removeHead` -/
  sending : Option (Nat × α)
  /-- the messages whose `enqueue` has returned `nil` -/
  accepted : List (Nat × α)
  /-- the messages that the sender has received -/
  delivered : List (Nat × α)
deriving DecidableEq

namespace Delivery

variable {α : Type u} {s s' : Delivery α} {e : QueueEvent α} {x : Nat × α}

open Queue

def new : Delivery α where
  queue := newQueue
  sending := none
  accepted := []
  delivered := []

def step (s : Delivery α) : QueueEvent α → Option (Delivery α)
  | .enqueue eventMsg =>
    match s.queue.enqueue (s.accepted.length, eventMsg) with
    | .error .queueFull => some s
    | .error .sendOnClosed => none
    | .ok queue =>
      some { s with queue, accepted := s.accepted ++ [(s.accepted.length, eventMsg)] }
  | .receive =>
    match s.sending, s.queue.outBuf with
    | none, some x =>
      some { s with
        queue := s.queue.takeOut, sending := some x, delivered := s.delivered ++ [x] }
    | _, _ => none
  | .removeHead =>
    match s.sending with
    | some _ => some { s with queue := s.queue.removeHead, sending := none }
    | none => none

def Waiting (s : Delivery α) : Prop :=
  s.sending = none ∧ s.queue.outBuf = none

def Completes (s : Delivery α) : Prop :=
  ∃ (events : List (QueueEvent α)) (t : Delivery α),
    (∀ e ∈ events, e.OfSender) ∧ events.foldlM step s = some t ∧
      t.Waiting ∧ t.delivered = s.accepted

/-- None is delivered out of turn, and once the sender, alone, waits at an empty channel, it has
received just the accepted ones. -/
structure ExactlyOnce (s : Delivery α) : Prop where
  bounded : s.queue.nodes.length ≤ MaxSubQueueLength
  inOrder : s.delivered <+: s.accepted
  completed : s.Completes

def Quiet (s : Delivery α) (e : QueueEvent α) : Prop :=
  ∀ eventMsg queue, e = .enqueue eventMsg →
    s.queue.enqueue (s.accepted.length, eventMsg) = .ok queue → s.sending = none

theorem quiet_receive : s.Quiet .receive := by
  rintro _ _ ⟨⟩

theorem quiet_removeHead : s.Quiet .removeHead := by
  rintro _ _ ⟨⟩

/-- The slot holds the head of the list, unless the sender has it. -/
def InStep (s : Delivery α) : Prop :=
  match s.sending with
  | none => s.queue.outBuf = s.queue.nodes.head? ∧ s.accepted = s.delivered ++ s.queue.nodes
  | some x => s.queue.outBuf = none ∧
      ∃ rest, s.queue.nodes = x :: rest ∧ x ∈ s.delivered ∧ s.accepted = s.delivered ++ rest

/-- A message was delivered twice, or delivered and is in the slot again. -/
def Stale (s : Delivery α) : Prop :=
  ¬ s.delivered.Nodup ∨ ∃ x ∈ s.delivered, s.queue.outBuf = some x

def Numbered (s : Delivery α) : Prop :=
  s.accepted.map Prod.fst = range s.accepted.length

section Step

theorem step_cases (hstep : s.step e = some s') :
    (s' = s ∧ Quiet s e) ∨
      (∃ eventMsg queue, e = .enqueue eventMsg ∧
        s.queue.enqueue (s.accepted.length, eventMsg) = .ok queue ∧
        s' = { s with queue, accepted := s.accepted ++ [(s.accepted.length, eventMsg)] }) ∨
      (∃ x, e = .receive ∧ s.sending = none ∧ s.queue.outBuf = some x ∧ s' = { s with
          queue := s.queue.takeOut, sending := some x, delivered := s.delivered ++ [x] }) ∨
      (∃ x, e = .removeHead ∧ s.sending = some x ∧
        s' = { s with queue := s.queue.removeHead, sending := none }) := by
  cases e with
  | enqueue eventMsg =>
    simp only [step] at hstep
    cases henqueue : s.queue.enqueue (s.accepted.length, eventMsg) with
    | error error =>
      cases error with
      | queueFull =>
        rw [henqueue] at hstep
        cases hstep
        refine .inl ⟨rfl, ?_⟩
        rintro _ queue ⟨⟩ hok
        rw [henqueue] at hok
        cases hok
      | sendOnClosed => simp [henqueue] at hstep
    | ok queue =>
      rw [henqueue] at hstep
      cases hstep
      exact .inr (.inl ⟨eventMsg, queue, rfl, henqueue, rfl⟩)
  | receive =>
    simp only [step] at hstep
    cases hsending : s.sending with
    | none =>
      cases hout : s.queue.outBuf with
      | none => simp [hsending, hout] at hstep
      | some x =>
        rw [hsending, hout] at hstep
        cases hstep
        exact .inr (.inr (.inl ⟨x, rfl, rfl, rfl, rfl⟩))
    | some y => simp [hsending] at hstep
  | removeHead =>
    simp only [step] at hstep
    cases hsending : s.sending with
    | none => simp [hsending] at hstep
    | some x =>
      rw [hsending] at hstep
      cases hstep
      exact .inr (.inr (.inr ⟨x, rfl, rfl, rfl⟩))

theorem numbered_step (hnumbered : s.Numbered) (hstep : s.step e = some s') : s'.Numbered := by
  rcases step_cases hstep with
    ⟨rfl, _⟩ | ⟨_, _, _, _, rfl⟩ | ⟨_, _, _, _, rfl⟩ | ⟨_, _, _, rfl⟩
  · exact hnumbered
  · simp only [Numbered, map_append, map_cons, map_nil, length_append, length_cons, length_nil]
    rw [hnumbered, range_succ]
  · exact hnumbered
  · exact hnumbered

theorem nodup_of_numbered (hnumbered : s.Numbered) : s.accepted.Nodup := by
  refine Nodup.of_map Prod.fst ?_
  rw [hnumbered]
  exact nodup_range

theorem inStep_new : (new : Delivery α).InStep := ⟨rfl, rfl⟩

theorem inStep_step (h : s.InStep) (hquiet : s.Quiet e) (hstep : s.step e = some s') :
    s'.InStep := by
  rcases step_cases hstep with ⟨rfl, _⟩ | ⟨eventMsg, queue, rfl, henqueue, rfl⟩ |
    ⟨x, rfl, hsending, hout, rfl⟩ | ⟨x, rfl, hsending, rfl⟩
  · exact h
  · have hidle := hquiet eventMsg queue rfl henqueue
    obtain ⟨hnodes, hslot⟩ := enqueue_ok henqueue
    simp only [InStep, hidle] at h ⊢
    obtain ⟨hhead, haccepted⟩ := h
    refine ⟨?_, ?_⟩
    · rw [hslot, hnodes, hhead]
      cases s.queue.nodes <;> rfl
    · rw [hnodes, ← append_assoc, ← haccepted]
  · simp only [InStep, hsending] at h
    obtain ⟨hhead, haccepted⟩ := h
    obtain ⟨rest, hnodes⟩ := head?_eq_some_iff.mp (hhead.symm.trans hout)
    refine ⟨rfl, rest, hnodes, by simp, ?_⟩
    rw [haccepted, hnodes]
    simp
  · simp only [InStep, hsending] at h
    obtain ⟨hslot, rest, hnodes, _, haccepted⟩ := h
    obtain ⟨hrest, hout⟩ := removeHead_cons hnodes
    refine ⟨?_, ?_⟩
    · simp [hout, hrest, hslot]
    · simp only [hrest]
      exact haccepted

theorem stale_of_not_quiet (h : s.InStep) (hquiet : ¬ s.Quiet e)
    (hstep : s.step e = some s') : s'.Stale := by
  rcases step_cases hstep with ⟨_, hq⟩ | ⟨eventMsg, queue, rfl, henqueue, rfl⟩ |
    ⟨_, rfl, _⟩ | ⟨_, rfl, _⟩
  · exact absurd hq hquiet
  · cases hsending : s.sending with
    | none =>
      refine absurd ?_ hquiet
      intro _ _ _ _
      exact hsending
    | some x =>
      obtain ⟨_, hslot⟩ := enqueue_ok henqueue
      simp only [InStep, hsending] at h
      obtain ⟨hout, rest, hnodes, hdelivered, _⟩ := h
      refine .inr ⟨x, hdelivered, ?_⟩
      simp [hslot, hout, hnodes]
  · exact absurd quiet_receive hquiet
  · exact absurd quiet_removeHead hquiet

theorem stale_step (h : s.Stale) (hstep : s.step e = some s') : s'.Stale := by
  rcases step_cases hstep with ⟨rfl, _⟩ | ⟨eventMsg, queue, rfl, henqueue, rfl⟩ |
    ⟨x, rfl, _, hout, rfl⟩ | ⟨x, rfl, _, rfl⟩
  · exact h
  · rcases h with htwice | ⟨x, hx, hout⟩
    · exact .inl htwice
    · refine .inr ⟨x, hx, ?_⟩
      simp [(enqueue_ok henqueue).2, hout]
  · refine .inl ?_
    rcases h with htwice | ⟨y, hy, hslot⟩
    · intro hnodup
      exact htwice (nodup_append.mp hnodup).1
    · obtain rfl : x = y := Option.some.inj (hout.symm.trans hslot)
      intro hnodup
      exact (nodup_append.mp hnodup).2.2 x hy x (mem_singleton_self x) rfl
  · rcases h with htwice | ⟨y, hy, hslot⟩
    · exact .inl htwice
    · exact .inr ⟨y, hy, outBuf_removeHead hslot⟩

end Step

section Delivery

theorem completed_of_idle (hidle : s.sending = none) (h : s.InStep) : s.Completes := by
  -- the list gets shorter with each receive and `removeHead`
  induction hn : s.queue.nodes generalizing s with
  | nil =>
    simp only [InStep, hidle, hn] at h
    obtain ⟨hout, haccepted⟩ := h
    exact ⟨[], s, by simp, rfl, ⟨hidle, hout⟩, by simpa using haccepted.symm⟩
  | cons x rest ih =>
    have hout : s.queue.outBuf = some x := by
      simp only [InStep, hidle, hn] at h
      exact h.1
    have hreceive : s.step .receive = some { s with
        queue := s.queue.takeOut, sending := some x, delivered := s.delivered ++ [x] } := by
      simp [step, hidle, hout]
    have hreceived := inStep_step h quiet_receive hreceive
    have hremoved := inStep_step hreceived quiet_removeHead rfl
    have hnodes : s.queue.takeOut.nodes = x :: rest := hn
    obtain ⟨events, t, hsender, hrun, hwaiting, hdelivered⟩ :=
      ih rfl hremoved (removeHead_cons hnodes).1
    refine ⟨.receive :: .removeHead :: events, t, ?_, ?_, hwaiting, hdelivered⟩
    · simp only [mem_cons]
      rintro e (rfl | rfl | he)
      · exact trivial
      · exact trivial
      · exact hsender e he
    · rw [run_cons, hreceive]
      exact hrun

theorem exactlyOnce_of_inStep (h : s.InStep) : s.ExactlyOnce := by
  have hbounded : s.queue.nodes.length ≤ MaxSubQueueLength :=
    s.queue.size_eq.symm.le.trans s.queue.size_le
  cases hsending : s.sending with
  | none =>
    refine ⟨hbounded, ?_, completed_of_idle hsending h⟩
    simp only [InStep, hsending] at h
    exact ⟨_, h.2.symm⟩
  | some x =>
    refine ⟨hbounded, ?_, ?_⟩
    · simp only [InStep, hsending] at h
      obtain ⟨_, rest, _, _, haccepted⟩ := h
      exact ⟨rest, haccepted.symm⟩
    have hremove : s.step .removeHead =
        some { s with queue := s.queue.removeHead, sending := none } := by
      simp [step, hsending]
    obtain ⟨events, t, hsender, hrun, hwaiting, hdelivered⟩ :=
      completed_of_idle rfl (inStep_step h quiet_removeHead hremove)
    refine ⟨.removeHead :: events, t, ?_, ?_, hwaiting, hdelivered⟩
    · simp only [mem_cons]
      rintro e (rfl | he)
      · exact trivial
      · exact hsender e he
    · rw [run_cons, hremove]
      exact hrun

theorem not_exactlyOnce_of_stale (hnumbered : s.Numbered) (h : s.Stale) : ¬ s.ExactlyOnce := by
  intro honce
  obtain ⟨events, t, _, hrun, ⟨_, hout⟩, hdelivered⟩ := honce.completed
  have hstale : t.Stale := run_invariant (fun _ _ _ => stale_step) h hrun
  rcases hstale with htwice | ⟨x, _, hslot⟩
  · exact htwice (hdelivered ▸ nodup_of_numbered hnumbered)
  · rw [hout] at hslot
    cases hslot

/-- **When a subscription delivers** the accepted messages in order, each once: exactly when none is
accepted between a receive and its `removeHead`. -/
theorem exactlyOnce_iff (events : List (QueueEvent α)) :
    Throughout step ExactlyOnce (new : Delivery α) events ↔
      Along step Quiet (new : Delivery α) events := by
  have hinv : ∀ (s : Delivery α) (e : QueueEvent α) (s' : Delivery α),
      s.Numbered ∧ (s.InStep ∨ s.Stale) → s.step e = some s' →
        s'.Numbered ∧ (s'.InStep ∨ s'.Stale) := by
    rintro s e s' ⟨hnumbered, hin | hstale⟩ hstep
    · refine ⟨numbered_step hnumbered hstep, ?_⟩
      by_cases hquiet : s.Quiet e
      · exact .inl (inStep_step hin hquiet hstep)
      · exact .inr (stale_of_not_quiet hin hquiet hstep)
    · exact ⟨numbered_step hnumbered hstep, .inr (stale_step hstale hstep)⟩
  refine throughout_iff_along hinv ?_ ?_ ⟨rfl, .inl inStep_new⟩ (exactlyOnce_of_inStep inStep_new)
  · rintro s e s' ⟨hnumbered, hin | hstale⟩ honce hstep
    · constructor
      · intro honce'
        by_contra hquiet
        exact not_exactlyOnce_of_stale (numbered_step hnumbered hstep)
          (stale_of_not_quiet hin hquiet hstep) honce'
      · intro hquiet
        exact exactlyOnce_of_inStep (inStep_step hin hquiet hstep)
    · exact absurd honce (not_exactlyOnce_of_stale hnumbered hstale)
  · rintro s e _ _ hstep eventMsg queue rfl hok
    simp [step, hok] at hstep

/-- The second message arrives while the first is sent, which is sent again; the second is
dropped. -/
theorem second_message_lost :
    ([.enqueue 'a', .receive, .enqueue 'b', .removeHead, .receive, .removeHead].foldlM step
        new).map (fun s => (s.accepted, s.delivered, s.queue.nodes, s.queue.outBuf)) =
      some ([(0, 'a'), (1, 'b')], [(0, 'a'), (0, 'a')], [], none) ∧
    ¬ Throughout step ExactlyOnce (new : Delivery Char)
      [.enqueue 'a', .receive, .enqueue 'b', .removeHead, .receive, .removeHead] := by
  refine ⟨rfl, ?_⟩
  intro hall
  have honce := hall _ _ prefix_rfl rfl
  exact absurd honce.inOrder (by decide)

end Delivery

section Order

/-- What was delivered, is in the slot, or in the list, one after the other. -/
def stages (s : Delivery α) : List (Nat × α) :=
  s.delivered ++ (s.queue.outBuf.toList ++ s.queue.nodes)

def InTurn (accepted stages : List (Nat × α)) : Prop :=
  stages ⊆ accepted ∧ stages.Pairwise (·.1 ≤ ·.1)

/-- A free slot takes the head of the list. -/
theorem inTurn_refill {delivered nodes accepted : List (Nat × α)} {out : Option (Nat × α)}
    (h : InTurn accepted (delivered ++ (out.toList ++ nodes))) :
    InTurn accepted (delivered ++ ((out.or nodes.head?).toList ++ nodes)) := by
  cases out with
  | some x => exact h
  | none => cases nodes <;> grind [InTurn]

theorem inTurn_step (hnumbered : s.Numbered) (h : InTurn s.accepted s.stages)
    (hstep : s.step e = some s') : InTurn s'.accepted s'.stages := by
  rcases step_cases hstep with
    ⟨rfl, _⟩ | ⟨eventMsg, queue, rfl, henqueue, rfl⟩ | ⟨x, rfl, _, hout, rfl⟩ | ⟨x, rfl, _, rfl⟩
  · exact h
  · have hlast : ∀ x ∈ s.stages, x.1 ≤ s.accepted.length := by
      intro x hx
      have hmem : x.1 ∈ s.accepted.map Prod.fst := mem_map_of_mem (h.1 hx)
      rw [hnumbered, mem_range] at hmem
      exact hmem.le
    have hnew : InTurn (s.accepted ++ [(s.accepted.length, eventMsg)])
        (s.stages ++ [(s.accepted.length, eventMsg)]) :=
      ⟨append_subset.mpr ⟨subset_append_of_subset_left _ h.1, subset_append_right _ _⟩,
        pairwise_append.mpr ⟨h.2, pairwise_singleton _ _, by simpa using hlast⟩⟩
    obtain ⟨hnodes, hslot⟩ := enqueue_ok henqueue
    simp only [stages, append_assoc] at hnew
    simpa only [stages, hnodes, hslot] using inTurn_refill hnew
  · simpa [stages, takeOut, hout] using h
  · have hsub : s.delivered ++ (s.queue.outBuf.toList ++ s.queue.nodes.tail) <+ s.stages :=
      (tail_sublist _).append_left _ |>.append_left _
    have hrest := inTurn_refill ⟨Subset.trans hsub.subset h.1, h.2.sublist hsub⟩
    by_cases hnil : s.queue.nodes = []
    · simpa only [stages, removeHead, if_pos hnil] using h
    · simpa [stages, removeHead, hnil] using hrest

/-- **The client sees the messages in their order**, whatever is lost or sent twice: on every
interleaving no message is delivered after a later one, and only accepted ones are. -/
theorem delivered_inTurn (events : List (QueueEvent α)) :
    Throughout step (fun s => s.delivered ⊆ s.accepted ∧ s.delivered.Pairwise (·.1 ≤ ·.1)) new
      events := by
  intro before t _ hrun
  have hinv : ∀ (s : Delivery α) e s', s.Numbered ∧ InTurn s.accepted s.stages →
      s.step e = some s' → s'.Numbered ∧ InTurn s'.accepted s'.stages :=
    fun _ _ _ hs hstep => ⟨numbered_step hs.1 hstep, inTurn_step hs.1 hs.2 hstep⟩
  have hnew : Numbered (new : Delivery α) ∧ InTurn new.accepted (new : Delivery α).stages :=
    ⟨rfl, nil_subset _, Pairwise.nil⟩
  obtain ⟨-, hsub, hturn⟩ := run_invariant hinv hnew hrun
  exact ⟨fun x hx => hsub (mem_append_left _ hx), (pairwise_append.mp hturn).1⟩

end Order

end Delivery

end Topia.Rpc
