import Mathlib.Data.List.AList
import Topia.Lib.Run

/-!
# Composition states and the simple state builder

`state/composition_builder.go` makes composition states. For an executor each batch has its own; a
proposer or validator gets them from the simple builder, which keeps one for each state version
until it is committed, and makes forty in advance when few are left. The simple builder takes no
lock, so its calls and its timer interleave between their accesses.

A composition state writes through one transaction of the ledger backend, which the commit closes.
-/

namespace Topia.State

/-- A composition state, by its batch or by its version and number in the simple builder. -/
inductive CompState where
  | full (batch : Nat)
  | simple (stateVersion number : Nat)
deriving DecidableEq, Repr

/-- `compositionStateOfNodeSimple`; the last number counts the states made. -/
structure CompositionStateOfNodeSimple where
  compStates : AList (fun _ : Nat => Nat)
  (maxStateVersion made : Nat)

open AList CompState List

namespace CompositionStateOfNodeSimple

def new : CompositionStateOfNodeSimple where
  compStates := ∅
  maxStateVersion := 0
  made := 0

variable (b : CompositionStateOfNodeSimple) (commited : List CompState) (stateVersion : Nat)

def setState : CompositionStateOfNodeSimple :=
  { b with compStates := b.compStates.insert stateVersion b.made, made := b.made + 1 }

def removeState : CompositionStateOfNodeSimple :=
  { b with compStates := b.compStates.erase stateVersion }

def make : CompositionStateOfNodeSimple :=
  { b.setState stateVersion with maxStateVersion := stateVersion }

/-- A committed state is removed, not given out. -/
def createCompositionStateOfNode : Option CompState × CompositionStateOfNodeSimple :=
  match b.compStates.lookup stateVersion with
  | some number =>
    if simple stateVersion number ∈ commited then (none, b.removeState stateVersion)
    else (some (.simple stateVersion number), b)
  | none => (some (.simple stateVersion b.made), b.make stateVersion)

def commitedKeys : List Nat :=
  (b.compStates.entries.filter (fun entry => simple entry.1 entry.2 ∈ commited)).map Sigma.fst

def dropCommited : CompositionStateOfNodeSimple :=
  (b.commitedKeys commited).foldl removeState b

def maintain : CompositionStateOfNodeSimple :=
  if (b.dropCommited commited).compStates.entries.length ≤ 60 then
    (range 40).foldl (fun b' i => b'.make (b.maxStateVersion + 1 + i))
      (b.dropCommited commited)
  else b.dropCommited commited

variable {b commited stateVersion} in
theorem createCompositionStateOfNode_simple {c : CompState}
    (hfound : (b.createCompositionStateOfNode commited stateVersion).1 = some c) :
    ∃ number, c = .simple stateVersion number := by
  unfold createCompositionStateOfNode at hfound
  split at hfound
  · split_ifs at hfound
    exact ⟨_, (Option.some.inj hfound).symm⟩
  · exact ⟨_, (Option.some.inj hfound).symm⟩

end CompositionStateOfNodeSimple

/-- A call that found no state: it sets one, then the maximum. -/
inductive Creation where
  | set (stateVersion : Nat)
  | setMax (stateVersion : Nat)
deriving DecidableEq

/-- Where the timer is: between two ticks, with keys to remove, with few states left, or with the
maximum it has read and the number of states it has set. -/
inductive Maintenance where
  | idle
  | removing (willRemoveKey : List Nat)
  | counted
  | preparing (maxStateVer count : Nat)
deriving DecidableEq

def Maintenance.prepares : Maintenance → Bool
  | .preparing _ _ => true
  | _ => false

/-- The builder, with the calls that create, the versions that calls remove, and the timer. -/
structure SimpleRun where
  b : CompositionStateOfNodeSimple
  commited : List CompState
  creating : List Creation
  removing : List Nat
  timer : Maintenance

/-- The accesses to the builder: the lookup of a call, its removal or its writes, a commit, and the
next access of the timer. -/
inductive SimpleEvent where
  | get (stateVersion : Nat)
  | remove (stateVersion : Nat)
  | set (stateVersion : Nat)
  | setMax (stateVersion : Nat)
  | commit (stateVersion : Nat)
  | timer

namespace SimpleRun

open Lib

def start : SimpleRun := ⟨.new, [], [], [], .idle⟩

variable (s : SimpleRun) (e : SimpleEvent)

def maintainStep : SimpleRun :=
  match s.timer with
  | .idle => { s with timer := .removing (s.b.commitedKeys s.commited) }
  | .removing (v :: rest) => { s with b := s.b.removeState v, timer := .removing rest }
  | .removing [] =>
    { s with timer := if s.b.compStates.entries.length ≤ 60 then .counted else .idle }
  | .counted => { s with timer := .preparing s.b.maxStateVersion 0 }
  | .preparing maxStateVer count =>
    if count < 40 then
      { s with
        b := s.b.setState (maxStateVer + 1 + count)
        timer := .preparing maxStateVer (count + 1) }
    else { s with b := { s.b with maxStateVersion := maxStateVer + 40 }, timer := .idle }

def step : SimpleEvent → Option SimpleRun
  | .get v =>
    match s.b.compStates.lookup v with
    | some n =>
      some (if simple v n ∈ s.commited then { s with removing := v :: s.removing } else s)
    | none => some { s with creating := .set v :: s.creating }
  | .remove v =>
    if v ∈ s.removing then
      some { s with b := s.b.removeState v, removing := s.removing.erase v }
    else none
  | .set v =>
    if .set v ∈ s.creating then
      some { s with b := s.b.setState v, creating := .setMax v :: s.creating.erase (.set v) }
    else none
  | .setMax v =>
    if .setMax v ∈ s.creating then
      some { s with
        b := { s.b with maxStateVersion := v }
        creating := s.creating.erase (.setMax v) }
    else none
  | .commit v =>
    (s.b.compStates.lookup v).map fun n => { s with commited := .simple v n :: s.commited }
  | .timer => some s.maintainStep

def Committed (v : Nat) : Prop := ∃ n, simple v n ∈ s.commited

/-- A live state stays, a new one is for a version not committed, and the maximum does not
decrease. -/
def Keeps (b : CompositionStateOfNodeSimple) : Prop :=
  (∀ v n, s.b.compStates.lookup v = some n → simple v n ∉ s.commited →
      b.compStates.lookup v = some n) ∧
    (∀ v n, b.compStates.lookup v = some n → s.b.compStates.lookup v ≠ some n →
      ¬ s.Committed v) ∧
    s.b.maxStateVersion ≤ b.maxStateVersion

def OneLive : Prop := ∀ t, s.step e = some t → s.Keeps t.b

/-- Versions without a state are made in ascending order, not after their commit. -/
def Ascending : SimpleEvent → Prop
  | .set v => .set v ∈ s.creating → ¬ s.Committed v
  | .setMax v => .setMax v ∈ s.creating → s.b.maxStateVersion ≤ v
  | _ => True

/-- What the lock that is commented out would give: a call finds no state only when no other call
creates and the timer does not prepare, and the timer starts to prepare only when no call creates.
The versions are `uint64`, and the loop of the timer does not wrap. -/
def Alone : SimpleEvent → Prop
  | .get v => v < UInt64.size ∧
    (s.b.compStates.lookup v = none → s.creating = [] ∧ s.timer.prepares = false)
  | .timer => s.timer = .counted →
    s.creating = [] ∧ s.b.maxStateVersion + 40 < UInt64.size - 1
  | _ => True

instance : Decidable (s.Alone e) := by
  cases e <;> dsimp only [Alone] <;> infer_instance

/-- While the timer prepares, `bound` is the last version it has set. -/
def bound : Nat :=
  match s.timer with
  | .preparing maxStateVer count => maxStateVer + count
  | _ => s.b.maxStateVersion

/-- What holds while all run alone. -/
structure Tidy : Prop where
  covered : ∀ v, s.b.compStates.lookup v ≠ none ∨ s.Committed v →
    v ≤ s.bound ∨ .setMax v ∈ s.creating
  single : s.creating.length ≤ 1
  prepares : ∀ m i, s.timer = .preparing m i → m = s.b.maxStateVersion ∧ i ≤ 40 ∧ s.creating = []
  missing : ∀ v, .set v ∈ s.creating → s.b.compStates.lookup v = none
  removes : ∀ v, v ∈ s.removing ∨ (∃ keys, s.timer = .removing keys ∧ v ∈ keys) →
    s.Committed v ∧ ∀ n, s.b.compStates.lookup v = some n → simple v n ∈ s.commited

variable {s t : SimpleRun} {v : Nat}

open CompositionStateOfNodeSimple

theorem lookup_removeState {v' n : Nat} {b : CompositionStateOfNodeSimple}
    (hv : (b.removeState v).compStates.lookup v' = some n) :
    v' ≠ v ∧ b.compStates.lookup v' = some n := by
  by_cases hvv : v' = v
  · rw [hvv, removeState, lookup_erase] at hv
    cases hv
  · rw [removeState, lookup_erase_ne hvv] at hv
    exact ⟨hvv, hv⟩

theorem lookup_setState {v' : Nat} {b : CompositionStateOfNodeSimple} (hvv : v' ≠ v) :
    (b.setState v).compStates.lookup v' = b.compStates.lookup v' :=
  lookup_insert_ne hvv

theorem keeps_self : s.Keeps s.b :=
  ⟨fun _ _ hv _ => hv, fun _ _ hv hne => absurd hv hne, Nat.le_refl _⟩

theorem keeps_remove (hv : ∀ n, s.b.compStates.lookup v = some n → simple v n ∈ s.commited) :
    s.Keeps (s.b.removeState v) := by
  refine ⟨fun v' n hv' hlive => ?_, fun v' n hv' hne => ?_, Nat.le_refl _⟩
  · have hvv : v' ≠ v := by
      rintro rfl
      exact hlive (hv n hv')
    rwa [removeState, lookup_erase_ne hvv]
  · exact absurd (lookup_removeState hv').2 hne

theorem keeps_set_iff (hv : s.b.compStates.lookup v = none) :
    s.Keeps (s.b.setState v) ↔ ¬ s.Committed v := by
  constructor
  · exact fun h => h.2.1 v _ (lookup_insert _) (by simp [hv])
  intro hnot
  refine ⟨fun v' n hv' _ => ?_, fun v' n hv' hne => ?_, Nat.le_refl _⟩
  · rwa [lookup_setState (by rintro rfl; simp [hv] at hv')]
  · by_cases hvv : v' = v
    · exact hvv ▸ hnot
    · rw [lookup_setState hvv] at hv'
      exact absurd hv' hne

theorem keeps_max_iff {m : Nat} :
    s.Keeps { s.b with maxStateVersion := m } ↔ s.b.maxStateVersion ≤ m :=
  ⟨fun h => h.2.2, fun h => ⟨keeps_self.1, keeps_self.2.1, h⟩⟩

theorem ne_preparing {timer : Maintenance} (htimer : timer.prepares = false) (m i : Nat) :
    timer ≠ .preparing m i := by
  rintro rfl
  cases htimer

theorem bound_eq (htimer : s.timer.prepares = false) : s.bound = s.b.maxStateVersion := by
  unfold bound
  split
  · exact absurd ‹_› (ne_preparing htimer _ _)
  · rfl

theorem le_of_used {m i : Nat} (hs : s.Tidy) (htimer : s.timer = .preparing m i)
    (hv : s.b.compStates.lookup v ≠ none ∨ s.Committed v) : v ≤ m + i := by
  obtain ⟨-, -, hnone⟩ := hs.prepares m i htimer
  simpa [bound, htimer, hnone] using hs.covered v hv

theorem keeps_maintainStep (hs : s.Tidy) : s.Keeps s.maintainStep.b := by
  unfold maintainStep
  split
  · exact keeps_self
  · exact keeps_remove (hs.removes _ (.inr ⟨_, ‹_›, mem_cons_self⟩)).2
  · exact keeps_self
  · exact keeps_self
  · rename_i m i htimer
    have hfree : ¬ (s.b.compStates.lookup (m + 1 + i) ≠ none ∨ s.Committed (m + 1 + i)) := by
      intro hused
      have := le_of_used hs htimer hused
      omega
    obtain ⟨hmissing, hnot⟩ := not_or.mp hfree
    split
    · exact (keeps_set_iff (not_ne_iff.mp hmissing)).mpr hnot
    · have := (hs.prepares m i htimer).1
      exact keeps_max_iff.mpr (by omega)

theorem oneLive_iff (hs : s.Tidy) (e : SimpleEvent) : s.OneLive e ↔ s.Ascending e := by
  cases e with
  | get v =>
    refine iff_of_true (fun t hstep => ?_) trivial
    simp only [step] at hstep
    split at hstep <;> cases hstep
    · split <;> exact keeps_self
    · exact keeps_self
  | remove v =>
    refine iff_of_true (fun t hstep => ?_) trivial
    obtain ⟨hmem, rfl⟩ := of_guard hstep
    exact keeps_remove (hs.removes v (.inl hmem)).2
  | set v =>
    simp only [OneLive, step, Ascending]
    split_ifs with hmem
    · simpa [hmem] using keeps_set_iff (hs.missing v hmem)
    · simp [hmem]
  | setMax v =>
    simp only [OneLive, step, Ascending]
    split_ifs with hmem
    · simpa [hmem] using keeps_max_iff
    · simp [hmem]
  | commit v =>
    refine iff_of_true (fun t hstep => ?_) trivial
    obtain ⟨n, -, rfl⟩ := Option.map_eq_some_iff.mp hstep
    exact keeps_self
  | timer =>
    exact iff_of_true (fun t hstep => Option.some.inj hstep ▸ keeps_maintainStep hs) trivial

theorem tidy_removeState (hs : s.Tidy) (v : Nat) : Tidy { s with b := s.b.removeState v } where
  covered v' hv' := by
    refine hs.covered v' (hv'.imp_left fun hne => ?_)
    obtain ⟨n, hn⟩ := Option.ne_none_iff_exists'.mp hne
    simp [(lookup_removeState hn).2]
  single := hs.single
  prepares := hs.prepares
  missing v' hmem := by
    by_contra hne
    obtain ⟨n, hn⟩ := Option.ne_none_iff_exists'.mp hne
    simpa [(lookup_removeState hn).2] using hs.missing v' hmem
  removes v' hv' := by
    obtain ⟨hcommitted, hstate⟩ := hs.removes v' hv'
    exact ⟨hcommitted, fun n hn => hstate n (lookup_removeState hn).2⟩

theorem commitedKeys_spec (hv : v ∈ s.b.commitedKeys s.commited) :
    s.Committed v ∧ ∀ n, s.b.compStates.lookup v = some n → simple v n ∈ s.commited := by
  simp only [commitedKeys, mem_map, mem_filter, decide_eq_true_eq] at hv
  obtain ⟨⟨v, n⟩, ⟨hentry, hn⟩, rfl⟩ := hv
  refine ⟨⟨n, hn⟩, fun n' hn' => ?_⟩
  cases (mem_lookup_iff.mpr hentry).symm.trans hn'
  exact hn

theorem tidy_maintainStep (hs : s.Tidy) (halone : s.Alone .timer) : s.maintainStep.Tidy := by
  have hcovered : ∀ timer, s.timer.prepares = false → timer.prepares = false → ∀ v,
      s.b.compStates.lookup v ≠ none ∨ s.Committed v →
      v ≤ bound { s with timer := timer } ∨ .setMax v ∈ s.creating := by
    intro timer hold hnew v hv
    rw [bound_eq (s := { s with timer := timer }) hnew]
    exact bound_eq hold ▸ hs.covered v hv
  unfold maintainStep
  split
  · rename_i htimer
    refine ⟨hcovered _ (by rw [htimer]; rfl) rfl, hs.single, nofun, hs.missing, fun v hv => ?_⟩
    rcases hv with hv | ⟨keys, ⟨⟩, hv⟩
    · exact hs.removes v (.inl hv)
    · exact commitedKeys_spec hv
  · rename_i v rest htimer
    have hremoved := tidy_removeState hs v
    refine ⟨fun v' hv' => ?_, hs.single, nofun, hremoved.missing, fun v' hv' => ?_⟩
    · simpa [bound, htimer] using hremoved.covered v' hv'
    · refine hremoved.removes v' (hv'.imp_right ?_)
      rintro ⟨keys, ⟨⟩, hmem⟩
      exact ⟨_, htimer, mem_cons_of_mem _ hmem⟩
  · rename_i htimer
    have hprepares : s.timer.prepares = false := by rw [htimer]; rfl
    split_ifs
    all_goals
      refine ⟨hcovered _ hprepares rfl, hs.single, nofun, hs.missing, fun v hv => ?_⟩
      exact hs.removes v (hv.imp_right fun ⟨_, h, _⟩ => by cases h)
  · rename_i htimer
    refine ⟨fun v hv => ?_, hs.single, ?_, hs.missing, fun v hv => ?_⟩
    · simpa [bound, htimer] using hs.covered v hv
    · rintro m i ⟨⟩
      exact ⟨rfl, by omega, (halone htimer).1⟩
    · exact hs.removes v (hv.imp_right fun ⟨_, h, _⟩ => by cases h)
  · rename_i m i htimer
    obtain ⟨hmax, hi, hnone⟩ := hs.prepares m i htimer
    split_ifs with hcount
    · refine ⟨fun v hv => .inl ?_, hs.single, ?_, ?_, fun v hv => ?_⟩
      · show v ≤ m + (i + 1)
        by_cases hvv : v = m + 1 + i
        · omega
        · have := le_of_used hs htimer (v := v)
            (hv.imp_left fun hne => by rwa [lookup_setState hvv] at hne)
          omega
      · rintro m' i' ⟨⟩
        exact ⟨hmax, hcount, hnone⟩
      · simp [hnone]
      · obtain ⟨hcommitted, hstate⟩ := hs.removes v (hv.imp_right fun ⟨_, h, _⟩ => by cases h)
        have hle := le_of_used hs htimer (.inr hcommitted)
        refine ⟨hcommitted, fun n hn => hstate n ?_⟩
        rwa [lookup_setState (by omega)] at hn
    · refine ⟨fun v hv => .inl ?_, hs.single, nofun, hs.missing, fun v hv => ?_⟩
      · have := le_of_used hs htimer hv
        show v ≤ m + 40
        omega
      · exact hs.removes v (hv.imp_right fun ⟨_, h, _⟩ => by cases h)

theorem tidy_step {e : SimpleEvent} (hs : s.Tidy) (halone : s.Alone e) (hlive : s.OneLive e)
    (hstep : s.step e = some t) : t.Tidy := by
  have hkeeps := hlive t hstep
  -- a call that creates is the only one, and the timer does not prepare
  have hcreates : ∀ c ∈ s.creating, s.creating = [c] ∧ s.timer.prepares = false := by
    intro c hc
    constructor
    · obtain ⟨c', hc'⟩ := length_eq_one_iff.mp
        (Nat.le_antisymm hs.single (length_pos_iff.mpr (ne_nil_of_mem hc)))
      rw [hc', mem_singleton] at hc
      rw [hc', hc]
    · cases htimer : s.timer with
      | preparing m i => simp [(hs.prepares m i htimer).2.2] at hc
      | _ => rfl
  cases e with
  | get v =>
    simp only [step] at hstep
    split at hstep <;> cases hstep
    · rename_i n hv
      split_ifs with hcommited
      · refine ⟨hs.covered, hs.single, hs.prepares, hs.missing, fun v' hv' => ?_⟩
        by_cases hvv : v' = v
        · subst hvv
          exact ⟨⟨n, hcommited⟩, fun n' hn' => by cases hv.symm.trans hn'; exact hcommited⟩
        · exact hs.removes v' (hv'.imp_left fun h => (mem_cons.mp h).resolve_left hvv)
      · exact hs
    · rename_i hv
      obtain ⟨hnone, htimer⟩ := halone.2 hv
      refine ⟨fun v' hv' => ?_, by simp [hnone], fun m i h => absurd h (ne_preparing htimer m i),
        by simpa [hnone] using hv, hs.removes⟩
      simpa [hnone, bound] using hs.covered v' hv'
  | remove v =>
    obtain ⟨-, rfl⟩ := of_guard hstep
    obtain ⟨hcovered, hsingle, hprepares, hmissing, hremoves⟩ := tidy_removeState hs v
    exact ⟨hcovered, hsingle, hprepares, hmissing,
      fun v' hv' => hremoves v' (hv'.imp_left mem_of_mem_erase)⟩
  | set v =>
    obtain ⟨hmem, rfl⟩ := of_guard hstep
    have hnot := (keeps_set_iff (hs.missing v hmem)).mp hkeeps
    obtain ⟨honly, htimer⟩ := hcreates _ hmem
    refine ⟨fun v' hv' => ?_, by simp [honly], fun m i h => absurd h (ne_preparing htimer m i),
      by simp [honly], fun v' hv' => ?_⟩
    · by_cases hvv : v' = v
      · exact .inr (by simp [hvv])
      · have hcovered := hs.covered v' (hv'.imp_left fun h => by rwa [lookup_setState hvv] at h)
        rw [honly] at hcovered
        exact .inl (hcovered.resolve_right (by simp))
    · obtain ⟨hcommitted, hstate⟩ := hs.removes v' hv'
      refine ⟨hcommitted, fun n hn => hstate n ?_⟩
      rwa [lookup_setState (by rintro rfl; exact hnot hcommitted)] at hn
  | setMax v =>
    obtain ⟨hmem, rfl⟩ := of_guard hstep
    have hmax := keeps_max_iff.mp hkeeps
    obtain ⟨honly, htimer⟩ := hcreates _ hmem
    refine ⟨fun v' hv' => .inl ?_, by simp [honly], fun m i h => absurd h (ne_preparing htimer m i),
      by simp [honly], hs.removes⟩
    rw [bound_eq]
    rotate_left
    · exact htimer
    have hcovered := hs.covered v' hv'
    rw [honly, bound_eq htimer] at hcovered
    rcases hcovered with hle | hlast
    · exact Nat.le_trans hle hmax
    · cases mem_singleton.mp hlast
      exact Nat.le_refl _
  | commit v =>
    obtain ⟨n, hv, rfl⟩ := Option.map_eq_some_iff.mp hstep
    refine ⟨fun v' hv' => hs.covered v' ?_, hs.single, hs.prepares, hs.missing, fun v' hv' => ?_⟩
    · rcases hv' with h | ⟨n', h⟩
      · exact .inl h
      · rcases mem_cons.mp h with heq | h
        · cases heq
          exact .inl (by simp [hv])
        · exact .inr ⟨n', h⟩
    · obtain ⟨⟨n', hn'⟩, hstate⟩ := hs.removes v' hv'
      exact ⟨⟨n', mem_cons_of_mem _ hn'⟩, fun n hn => mem_cons_of_mem _ (hstate n hn)⟩
  | timer => exact Option.some.inj hstep ▸ tidy_maintainStep hs halone

def createAndTick : List SimpleEvent :=
  [.get 1, .set 1, .setMax 1, .commit 1, .timer, .timer, .timer, .timer, .timer]

end SimpleRun

end Topia.State
