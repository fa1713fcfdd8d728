import Topia.Lib.Run
import Mathlib.Data.List.Perm.Basic
import Mathlib.Logic.Function.Basic

/-!
# Timers

`time/timer_manager.go`. At every tick the manager starts a goroutine for each timer that is due;
the goroutine loads the ticker, the last ticker and the status, swaps the last ticker, runs the
handler, and then removes a one-time timer by its *name*. Each of these is a step, and so is a tick
or a call.
-/

namespace Topia.Time

open List Lib Function

structure TimerRoutine (N : Type) where
  id : N
  oneTime : Bool
  (interval lastTicker : Nat)
  (running triggerNextTick : Bool)

inductive Stage where
  | start
  | ticker (t : Nat)
  | loaded (t lastTicker : Nat)
  | checked (t lastTicker : Nat)
  | handling
  | finished
  deriving DecidableEq

/-- The handler was run, or is not going to be. -/
def Stage.Over : Stage → Prop
  | .handling | .finished => True
  | _ => False

structure Trigger where
  routine : Nat
  stage : Stage

/-- The routines by their addresses, the addresses in the map, and what was run at which tick. -/
structure TimerManager (N : Type) where
  ticker : Nat
  routines : Nat → TimerRoutine N
  next : Nat
  timers : List Nat
  triggers : List Trigger
  ran : List (Nat × Nat)

inductive TimerEvent (N : Type) where
  | tick
  | trigger (i : Nat)
  | registerPeriodicTimer (name : N) (interval : Nat)
  | registerOneTimeRoutine (name : N) (delay : Nat)
  | removeTimer (name : N)
  | clearTimers
  | startTimer (name : N)
  | startAndTriggerTimer (name : N)
  | stopTimer (name : N)

namespace TimerManager

variable {N : Type}

section Code

variable [DecidableEq N] (m : TimerManager N)

variable (r : Nat) (name : N) (f : TimerRoutine N → TimerRoutine N)

def getTimer : Option Nat := m.timers.find? fun r => (m.routines r).id = name

def setRoutine : TimerManager N :=
  { m with routines := update m.routines r (f (m.routines r)) }

def addTimer (tr : TimerRoutine N) : TimerManager N :=
  { m with
    routines := update m.routines m.next tr
    next := m.next + 1
    timers := m.next :: m.timers }

def RemoveTimer : TimerManager N :=
  { m with timers := m.timers.filter fun r => (m.routines r).id ≠ name }

def due : Bool :=
  ((m.routines r).running && (m.routines r).interval ≤ m.ticker + 1 - (m.routines r).lastTicker) ||
    (m.routines r).triggerNextTick

def tick : TimerManager N :=
  { m with
    ticker := m.ticker + 1
    routines := fun r =>
      if r ∈ m.timers ∧ m.due r then { m.routines r with triggerNextTick := false }
      else m.routines r
    triggers := m.triggers ++ (m.timers.filter m.due).map (⟨·, .start⟩) }

/-- The next access of `trigger`; a handler that panics ends as one that returns. -/
def trigger (g : Trigger) (rest : List Trigger) : TimerManager N :=
  let r := m.routines g.routine
  let goOn (stage : Stage) := { m with triggers := ⟨g.routine, stage⟩ :: rest }
  match g.stage with
  | .start => goOn (.ticker m.ticker)
  | .ticker t => goOn (.loaded t r.lastTicker)
  | .loaded t lastTicker => if r.running then goOn (.checked t lastTicker) else goOn .finished
  | .checked t lastTicker =>
    if lastTicker < t ∧ r.lastTicker = lastTicker then
      { (goOn .handling).setRoutine g.routine ({ · with lastTicker := t }) with
        ran := (g.routine, m.ticker) :: m.ran }
    else goOn .finished
  | .handling => goOn .finished
  | .finished =>
    { (if r.oneTime then m.RemoveTimer r.id else m) with triggers := rest }

def onTimer : TimerManager N :=
  match m.getTimer name with
  | none => m
  | some r => m.setRoutine r f

def RegisterPeriodicTimer (interval : Nat) : TimerManager N :=
  match m.getTimer name with
  | some _ => m
  | none => m.addTimer ⟨name, false, interval, m.ticker, false, false⟩

def RegisterOneTimeRoutine (delay : Nat) : TimerManager N :=
  match m.getTimer name with
  | some r => m.setRoutine r ({ · with lastTicker := m.ticker })
  | none => m.addTimer ⟨name, true, delay, m.ticker, true, false⟩

def step : TimerEvent N → Option (TimerManager N)
  | .tick => some m.tick
  | .trigger i => m.triggers[i]?.map fun g => m.trigger g (m.triggers.eraseIdx i)
  | .registerPeriodicTimer name interval => some (m.RegisterPeriodicTimer name interval)
  | .registerOneTimeRoutine name delay => some (m.RegisterOneTimeRoutine name delay)
  | .removeTimer name => some (m.RemoveTimer name)
  | .clearTimers => some { m with timers := [] }
  | .startTimer name => some (m.onTimer name ({ · with running := true, triggerNextTick := true }))
  | .startAndTriggerTimer name => some (m.onTimer name ({ · with running := true }))
  | .stopTimer name => some (m.onTimer name ({ · with running := false }))

def new : TimerManager N :=
  ⟨0, fun _ => ⟨name, false, 0, 0, false, false⟩, 0, [], [], []⟩

end Code

variable (m : TimerManager N)

def swaps (g : Trigger) : Bool :=
  match g.stage with
  | .checked t lastTicker => lastTicker < t && (m.routines g.routine).lastTicker = lastTicker
  | _ => false

/-- **The timers do what they should**: a handler is started for a running timer only, once for a
one-time routine and once in an interval for a periodic one, and a routine removes no other. -/
def TimersRight : Prop :=
  ∀ g ∈ m.triggers,
    (m.swaps g → (m.routines g.routine).running ∧ ∀ run ∈ m.ran, run.1 = g.routine →
      (m.routines g.routine).oneTime = false ∧
        run.2 + (m.routines g.routine).interval ≤ m.ticker) ∧
    (g.stage = .finished → (m.routines g.routine).oneTime → ∀ r ∈ m.timers,
      (m.routines r).id = (m.routines g.routine).id → r = g.routine)

/-- The goroutines end before the next tick or call, and `StartTimer`, with its additional
trigger, is not called. -/
def quick : TimerEvent N → Bool
  | .trigger _ => true
  | .startTimer _ => false
  | _ => m.triggers.isEmpty

section Quick

/-- The handler of a timer that is due is going to be run, at this tick. -/
structure Ready (ticker : Nat) (r : TimerRoutine N) (ran : List (Nat × Nat)) (g : Trigger) :
    Prop where
  running : r.running
  interval : r.interval ≤ ticker - r.lastTicker
  fresh : r.oneTime → ∀ run ∈ ran, run.1 ≠ g.routine
  loaded : match g.stage with
    | .ticker t => t = ticker
    | .loaded t lastTicker | .checked t lastTicker => t = ticker ∧ lastTicker = r.lastTicker
    | _ => True

structure Inv : Prop where
  unique : ∀ r ∈ m.timers, ∀ r' ∈ m.timers, (m.routines r).id = (m.routines r').id → r = r'
  nodup : m.timers.Nodup
  below : ∀ r ∈ m.timers, r < m.next
  last_le : ∀ r, (m.routines r).lastTicker ≤ m.ticker
  quiet : ∀ r, (m.routines r).triggerNextTick = false
  ran : ∀ run ∈ m.ran, run.1 < m.next ∧ run.2 ≤ (m.routines run.1).lastTicker
  ended : ∀ run ∈ m.ran, (m.routines run.1).oneTime → run.1 ∈ m.timers →
    ∃ g ∈ m.triggers, g.routine = run.1 ∧ g.stage.Over
  apart : (m.triggers.map Trigger.routine).Nodup
  triggers : ∀ g ∈ m.triggers, g.routine ∈ m.timers ∧
    (g.stage.Over ∨ Ready m.ticker (m.routines g.routine) m.ran g)

variable {m} {m' : TimerManager N} {g : Trigger} {rest : List Trigger}

section Inv

variable (hm : m.Inv)
include hm

theorem Inv.setRoutine {r : Nat} (hover : ∀ h ∈ m.triggers, h.routine = r → h.stage.Over)
    {f : TimerRoutine N → TimerRoutine N} (hid : ∀ tr, (f tr).id = tr.id)
    (hone : ∀ tr, (f tr).oneTime = tr.oneTime)
    (hquiet : ∀ tr, (f tr).triggerNextTick = tr.triggerNextTick)
    (hlast : (m.routines r).lastTicker ≤ (f (m.routines r)).lastTicker ∧
      (f (m.routines r)).lastTicker ≤ m.ticker) :
    (m.setRoutine r f).Inv := by
  cases hm
  constructor <;> simp only [TimerManager.setRoutine, update_apply] <;> grind

theorem Inv.addTimer (hnone : m.triggers = []) {tr : TimerRoutine N}
    (hnew : ∀ r ∈ m.timers, (m.routines r).id ≠ tr.id) (hlast : tr.lastTicker = m.ticker)
    (hquiet : tr.triggerNextTick = false) : (m.addTimer tr).Inv := by
  cases hm
  constructor <;> simp only [TimerManager.addTimer, update_apply] <;> grind

theorem Inv.shrink (hnone : m.triggers = []) {l : List Nat} (hl : l <+ m.timers) :
    Inv { m with timers := l } := by
  have hsub := hl.subset
  have hlnodup := hm.nodup.sublist hl
  cases hm
  constructor <;> grind

theorem Inv.tick (hnone : m.triggers = []) : m.tick.Inv := by
  have hsame : m.tick.routines = m.routines := by
    funext r
    simp only [TimerManager.tick, ite_eq_right_iff]
    intro _
    rw [← hm.quiet r]
  have htriggers : m.tick.triggers = (m.timers.filter m.due).map (⟨·, .start⟩) := by
    simp [TimerManager.tick, hnone]
  have happart : (m.tick.triggers.map Trigger.routine).Nodup := by
    rw [htriggers, map_map]
    exact (map_id _).symm ▸ hm.nodup.filter _
  have hran : ∀ run ∈ m.ran, (m.routines run.1).oneTime → run.1 ∉ m.timers := by
    simpa [hnone] using hm.ended
  refine ⟨hsame ▸ hm.unique, hm.nodup, hm.below, hsame ▸ fun r => Nat.le_succ_of_le (hm.last_le r),
    hsame ▸ hm.quiet, hsame ▸ hm.ran, ?_, happart, ?_⟩
  · rw [hsame]
    exact fun run hrun hone hmem => absurd hmem (hran run hrun hone)
  · intro g hg
    rw [htriggers, mem_map] at hg
    obtain ⟨r, hr, rfl⟩ := hg
    obtain ⟨hmem, hdue⟩ := mem_filter.mp hr
    simp only [due, hm.quiet, Bool.or_false, Bool.and_eq_true, decide_eq_true_eq] at hdue
    refine ⟨hmem, .inr ⟨hsame ▸ hdue.1, hsame ▸ hdue.2, ?_, trivial⟩⟩
    rintro hone run hrun rfl
    exact hran run hrun (hsame ▸ hone) hmem

theorem Inv.others (hperm : m.triggers.Perm (g :: rest)) :
    (∀ h, h ∈ m.triggers ↔ h = g ∨ h ∈ rest) ∧ (∀ h ∈ rest, h.routine ≠ g.routine) ∧
      (rest.map Trigger.routine).Nodup := by
  obtain ⟨hfree, hnodup⟩ := nodup_cons.mp ((hperm.map Trigger.routine).nodup_iff.mp hm.apart)
  exact ⟨fun h => hperm.mem_iff.trans mem_cons,
    fun h hh heq => hfree (heq ▸ mem_map_of_mem hh), hnodup⟩

theorem Inv.goOn (hperm : m.triggers.Perm (g :: rest)) {stage : Stage}
    (hover : g.stage.Over → stage.Over)
    (hready : stage.Over ∨ Ready m.ticker (m.routines g.routine) m.ran ⟨g.routine, stage⟩) :
    Inv { m with triggers := ⟨g.routine, stage⟩ :: rest } := by
  obtain ⟨hmem, hne, hrest⟩ := hm.others hperm
  constructor
  case ended =>
    intro run hrun hone hr
    obtain ⟨h, hh, heq, hdone⟩ := hm.ended run hrun hone hr
    rcases (hmem h).mp hh with rfl | hh
    · exact ⟨_, mem_cons_self, heq, hover hdone⟩
    · exact ⟨h, mem_cons_of_mem _ hh, heq, hdone⟩
  all_goals
    cases hm
    grind

theorem Inv.addRun (hg : g ∈ m.triggers)
    (hover : ∀ h ∈ m.triggers, h.routine = g.routine → h.stage.Over)
    (hlast : (m.routines g.routine).lastTicker = m.ticker) :
    Inv { m with ran := (g.routine, m.ticker) :: m.ran } := by
  cases hm
  constructor <;> grind [Ready]

theorem Inv.right : m.TimersRight := by
  intro g hg
  obtain ⟨hr, hor⟩ := hm.triggers g hg
  refine ⟨fun hswaps => ?_, fun _ _ r' hr' => hm.unique r' hr' _ hr⟩
  obtain hover | hready := hor
  · grind [swaps, Stage.Over]
  refine ⟨hready.running, fun run hrun heq =>
    ⟨Bool.eq_false_iff.mpr fun hone => hready.fresh hone run hrun heq, ?_⟩⟩
  have hran := heq ▸ (hm.ran run hrun).2
  have := hready.interval
  have := hm.last_le g.routine
  omega

end Inv

variable [DecidableEq N]

theorem Inv.finish (hm : m.Inv) (hperm : m.triggers.Perm (g :: rest)) :
    Inv { (if (m.routines g.routine).oneTime then m.RemoveTimer (m.routines g.routine).id else m)
      with triggers := rest } := by
  obtain ⟨hmem, hne, hrest⟩ := hm.others hperm
  have hstill : ∀ run ∈ m.ran, (m.routines run.1).oneTime → run.1 ∈ m.timers →
      run.1 ≠ g.routine → ∃ h ∈ rest, h.routine = run.1 ∧ h.stage.Over := by
    intro run hrun hone hr hother
    obtain ⟨h, hh, heq, hdone⟩ := hm.ended run hrun hone hr
    rcases (hmem h).mp hh with rfl | hh
    · exact absurd heq.symm hother
    · exact ⟨h, hh, heq, hdone⟩
  have hg := (hm.triggers g ((hmem g).mpr (.inl rfl))).1
  split_ifs with hone
  · constructor
    case triggers =>
      intro h hh
      obtain ⟨hr, hor⟩ := hm.triggers h ((hmem h).mpr (.inr hh))
      refine ⟨mem_filter.mpr ⟨hr, ?_⟩, hor⟩
      simpa using fun heq => hne h hh (hm.unique _ hr _ hg heq)
    case last_le => exact hm.last_le
    case quiet => exact hm.quiet
    all_goals
      cases hm
      grind [RemoveTimer]
  · cases hm
    constructor <;> grind

theorem Inv.trigger (hm : m.Inv) (hperm : m.triggers.Perm (g :: rest)) :
    (m.trigger g rest).Inv := by
  obtain ⟨hmem, hne, -⟩ := hm.others hperm
  have hor := (hm.triggers g ((hmem g).mpr (.inl rfl))).2
  rw [TimerManager.trigger]
  cases hstage : g.stage with
  | start | ticker t => exact hm.goOn hperm (by grind [Stage.Over]) (by grind [Stage.Over, Ready])
  | loaded t lastTicker =>
    dsimp only
    split_ifs
    · exact hm.goOn hperm (by grind [Stage.Over]) (by grind [Stage.Over, Ready])
    · exact hm.goOn hperm (fun _ => trivial) (.inl trivial)
  | checked t lastTicker =>
    have ht : t = m.ticker := by grind [Stage.Over, Ready]
    have hgo : Inv { m with triggers := ⟨g.routine, .handling⟩ :: rest } :=
      hm.goOn hperm (fun _ => trivial) (.inl trivial)
    dsimp only
    split_ifs
    · subst ht
      have hover : ∀ h ∈ ⟨g.routine, .handling⟩ :: rest, h.routine = g.routine → h.stage.Over :=
        forall_mem_cons.mpr ⟨fun _ => trivial, fun h hh heq => absurd heq (hne h hh)⟩
      have hset := hgo.setRoutine (f := ({ · with lastTicker := m.ticker })) hover (fun _ => rfl)
        (fun _ => rfl) (fun _ => rfl) ⟨hm.last_le _, Nat.le_refl _⟩
      exact hset.addRun (g := ⟨g.routine, .handling⟩) mem_cons_self hover
        (by simp [TimerManager.setRoutine])
    · exact hm.goOn hperm (fun _ => trivial) (.inl trivial)
  | handling => exact hm.goOn hperm (fun _ => trivial) (.inl trivial)
  | finished => exact hm.finish hperm

theorem Inv.setRunning (hm : m.Inv) (hnone : m.triggers = []) (name : N) (b : Bool) :
    (m.onTimer name ({ · with running := b })).Inv := by
  rw [TimerManager.onTimer]
  cases m.getTimer name with
  | none => exact hm
  | some r =>
    exact hm.setRoutine (by simp [hnone]) (fun _ => rfl) (fun _ => rfl) (fun _ => rfl)
      ⟨Nat.le_refl _, hm.last_le r⟩

theorem Inv.step {e : TimerEvent N} (hm : m.Inv) (hquick : m.quick e)
    (hstep : m.step e = some m') : m'.Inv := by
  cases e with
  | trigger i =>
    obtain ⟨g, hg, rfl⟩ := Option.map_eq_some_iff.mp hstep
    obtain ⟨hi, rfl⟩ := List.getElem?_eq_some_iff.mp hg
    exact hm.trigger (getElem_cons_eraseIdx_perm hi).symm
  | startTimer name => nomatch hquick
  | tick => exact Option.some.inj hstep ▸ hm.tick (isEmpty_iff.mp hquick)
  | removeTimer name =>
    exact Option.some.inj hstep ▸ hm.shrink (isEmpty_iff.mp hquick) filter_sublist
  | clearTimers => exact Option.some.inj hstep ▸ hm.shrink (isEmpty_iff.mp hquick) (nil_sublist _)
  | startAndTriggerTimer name | stopTimer name =>
    exact Option.some.inj hstep ▸ hm.setRunning (isEmpty_iff.mp hquick) name _
  | registerPeriodicTimer name interval =>
    cases hstep
    rw [RegisterPeriodicTimer]
    cases hget : m.getTimer name with
    | some r => exact hm
    | none => exact hm.addTimer (isEmpty_iff.mp hquick) (by simpa [getTimer] using hget) rfl rfl
  | registerOneTimeRoutine name delay =>
    have hnone := isEmpty_iff.mp hquick
    cases hstep
    rw [RegisterOneTimeRoutine]
    cases hget : m.getTimer name with
    | some r =>
      exact hm.setRoutine (by simp [hnone]) (fun _ => rfl) (fun _ => rfl) (fun _ => rfl)
        ⟨hm.last_le r, Nat.le_refl _⟩
    | none => exact hm.addTimer hnone (by simpa [getTimer] using hget) rfl rfl

/-- **The timers are right when goroutines and handlers are quick**: when they end before the next
tick or call, and `StartTimer` is not called. -/
theorem timers_right_of_quick (name : N) (events : List (TimerEvent N))
    (hquick : Along step (fun m e => m.quick e) (new name) events) :
    Throughout step TimersRight (new name) events := by
  have hnew : (new name).Inv := by
    constructor <;> simp [new]
  exact throughout_of_along (fun _ _ _ hm => hm.step) (fun _ hm => hm.right) hnew
    hquick

theorem timers_right_periodic :
    let events : List (TimerEvent Unit) :=
      [.registerPeriodicTimer () 1, .startAndTriggerTimer (), .tick] ++
        replicate 6 (.trigger 0) ++ [.tick]
    (events.foldlM step (new ())).map ran = some [(0, 1)] ∧
      Along step (fun m e => m.quick e) (new ()) events ∧
      Throughout step TimersRight (new ()) events := by
  intro events
  have hquick : Along step (fun m e => m.quick e) (new ()) events :=
    along_of_check (fun m e (hok : m.quick e = true) => hok) (by decide)
  exact ⟨by decide, hquick, timers_right_of_quick () events hquick⟩

/-- The handler of a one-time routine is still running at the next tick, and is run again. -/
theorem slow_handler_runs_twice :
    let events : List (TimerEvent Unit) := [.registerOneTimeRoutine () 1, .tick, .trigger 0,
      .trigger 0, .trigger 0, .trigger 0, .tick, .trigger 1, .trigger 0, .trigger 0,
      .trigger 0]
    ¬Throughout step TimersRight (new ()) events ∧
      (events.foldlM step (new ())).map ran = some [(0, 2), (0, 1)] := by
  intro events
  refine ⟨fun hright => ?_, by decide⟩
  have hlast := hright events.dropLast _ ( dropLast_prefix _) rfl
  revert hlast
  unfold TimersRight
  decide

end Quick

end TimerManager

end Topia.Time
