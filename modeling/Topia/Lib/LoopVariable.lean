import Topia.Lib.Run

/-!
# Goroutines that share the loop variable

A loop over `n` entries starts a goroutine for each; the goroutines read the variable of the loop
and not a copy of it. A goroutine checks the entry at which the variable stands when it starts to
run, and writes its outcome into shared slots, each at the place where the variable stands then.
When all are done the caller looks for an error in the slots.

The value `a` of a check is what its outcome depends on besides the entry.
-/

namespace Topia.Lib.LoopVariable

universe u v

variable {α : Type u} {ε : Type v}

/-- Where a goroutine is; from its check on, with the entry, the value and the error. -/
inductive Stage (α : Type u) (ε : Type v) where
  | started
  | checked (entry : Nat) (a : α) (err : Option ε)
  | marked (entry : Nat) (a : α) (err : Option ε)
  | done (entry : Nat) (a : α) (err : Option ε)

namespace Stage

def check? : Stage α ε → Option (Nat × α × Option ε)
  | .started => none
  | .checked entry a err | .marked entry a err | .done entry a err => some (entry, a, err)

def isDone : Stage α ε → Bool
  | .done _ _ _ => true
  | _ => false

end Stage

/-- The goroutines, the slots, and the caller's answer. -/
structure State (α : Type u) (ε : Type v) where
  stages : List (Stage α ε)
  oks : List Bool
  errs : List (Option ε)
  result : Option Bool

inductive Event (α : Type u) where
  /-- the loop starts the next goroutine -/
  | launch
  /-- a goroutine checks the entry of the loop variable -/
  | check (j : Nat) (a : α)
  /-- a goroutine writes whether the check passed -/
  | mark (j : Nat)
  /-- a goroutine writes the error, and ends -/
  | report (j : Nat)
  /-- the caller has waited for all goroutines -/
  | finish

open List

variable (n : Nat) (check : Nat → α → Option ε) (s : State α ε)

def new : State α ε where
  stages := []
  oks := replicate n false
  errs := replicate n none
  result := none

def State.i : Nat :=
  s.stages.length - 1

def step : Event α → Option (State α ε)
  | .launch =>
    if s.stages.length < n then some { s with stages := s.stages ++ [.started] } else none
  | .check j a =>
    match s.stages[j]? with
    | some .started => some { s with stages := s.stages.set j (.checked s.i a (check s.i a)) }
    | _ => none
  | .mark j =>
    match s.stages[j]? with
    | some (.checked entry a err) =>
      some { s with
        stages := s.stages.set j (.marked entry a err)
        oks := s.oks.set s.i err.isNone }
    | _ => none
  | .report j =>
    match s.stages[j]? with
    | some (.marked entry a err) =>
      some { s with
        stages := s.stages.set j (.done entry a err)
        errs := s.errs.set s.i err }
    | _ => none
  | .finish =>
    if s.stages.length = n ∧ s.stages.all Stage.isDone ∧ s.result = none then
      some { s with result := some (s.errs.all Option.isNone) }
    else none

/-- The caller sees no error only if every entry has passed its check. -/
def Sound : Prop :=
  s.result = some true →
    ∀ k, k < n → ∃ stage ∈ s.stages, ∃ a err, stage.check? = some (k, a, err) ∧ check k a = none

section Step

variable {n : Nat} {check : Nat → α → Option ε} {s s' : State α ε} {e : Event α}

/-- What a goroutine does next, and the slots for errors after it. -/
inductive Move (check : Nat → α → Option ε) (s : State α ε) :
    Stage α ε → Stage α ε → List (Option ε) → Prop where
  | check (a : α) : Move check s .started (.checked s.i a (check s.i a)) s.errs
  | mark (entry : Nat) (a : α) (err : Option ε) :
      Move check s (.checked entry a err) (.marked entry a err) s.errs
  | report (entry : Nat) (a : α) (err : Option ε) :
      Move check s (.marked entry a err) (.done entry a err) (s.errs.set s.i err)

/-- The loop goes on, a goroutine moves, or the caller answers. -/
inductive StepEffect (n : Nat) (check : Nat → α → Option ε) (s s' : State α ε) : Prop where
  | launched (hlt : s.stages.length < n)
      (hnext : s' = { s with stages := s.stages ++ [.started] })
  | moved (before after : List (Stage α ε)) (old new : Stage α ε) (oks : List Bool)
      (errs : List (Option ε)) (hstages : s.stages = before ++ old :: after)
      (hmove : Move check s old new errs)
      (hnext : s' = { s with stages := before ++ new :: after, oks := oks, errs := errs })
  | answers (hall : s.stages.length = n) (hdone : ∀ stage ∈ s.stages, stage.isDone = true)
      (hnone : s.result = none)
      (hnext : s' = { s with result := some (s.errs.all Option.isNone) })

theorem moved_set {j : Nat} {old new : Stage α ε} (oks : List Bool) {errs : List (Option ε)}
    (hj : s.stages[j]? = some old) (hmove : Move check s old new errs) :
    StepEffect n check s { s with stages := s.stages.set j new, oks := oks, errs := errs } := by
  obtain ⟨before, after, hstages, -, hset⟩ := exists_process hj
  exact .moved before after old new oks errs hstages hmove (by rw [hset])

theorem stepEffect (hstep : step n check s e = some s') : StepEffect n check s s' := by
  cases e with
  | launch =>
    obtain ⟨hlt, rfl⟩ := of_guard hstep
    exact .launched hlt rfl
  | check j a =>
    simp only [step] at hstep
    split at hstep
    · cases hstep
      exact moved_set s.oks ‹_› (.check a)
    · cases hstep
  | mark j =>
    simp only [step] at hstep
    split at hstep
    · cases hstep
      exact moved_set _ ‹_› (.mark _ _ _)
    · cases hstep
  | report j =>
    simp only [step] at hstep
    split at hstep
    · cases hstep
      exact moved_set s.oks ‹_› (.report _ _ _)
    · cases hstep
  | finish =>
    simp only [step] at hstep
    split_ifs at hstep with hwait
    obtain ⟨hall, hdone, hnone⟩ := hwait
    cases hstep
    exact .answers hall (all_eq_true.mp hdone) hnone rfl

/-- A goroutine that has checked knows the error of its entry; there is at most one, and a slot, for
each entry. -/
structure Recorded (n : Nat) (check : Nat → α → Option ε) (s : State α ε) : Prop where
  bound : s.stages.length ≤ n
  recorded : ∀ stage ∈ s.stages, ∀ entry a err, stage.check? = some (entry, a, err) →
    entry < n ∧ err = check entry a
  slots : s.errs.length = n

theorem recorded_new : Recorded n check (new n : State α ε) where
  bound := Nat.zero_le n
  recorded := by simp [new]
  slots := length_replicate

theorem Recorded.i_lt (h : Recorded n check s) (hne : s.stages ≠ []) : s.i < n := by
  have hpos := length_pos_iff.mpr hne
  have hbound := h.bound
  unfold State.i
  omega

theorem recorded_step (h : Recorded n check s) (hstep : step n check s e = some s') :
    Recorded n check s' := by
  cases stepEffect hstep with
  | launched hlt hnext =>
    subst hnext
    refine ⟨?_, ?_, h.slots⟩
    · rw [length_append, length_singleton]
      omega
    · intro stage hmem entry a err hcheck
      rcases mem_append.mp hmem with hold | hnew
      · exact h.recorded stage hold entry a err hcheck
      · rw [mem_singleton.mp hnew] at hcheck
        cases hcheck
  | moved before after old new oks errs hstages hmove hnext =>
    have hi := h.i_lt (by simp [hstages])
    subst hnext
    refine ⟨?_, ?_, ?_⟩
    · simpa [hstages] using h.bound
    · intro stage hmem entry a err hcheck
      rcases mem_replaced old hmem with rfl | hold
      · cases hmove with
        | check a' =>
          cases hcheck
          exact ⟨hi, rfl⟩
        | mark entry' a' err' =>
          exact h.recorded (.checked entry' a' err') (by simp [hstages]) entry a err hcheck
        | report entry' a' err' =>
          exact h.recorded (.marked entry' a' err') (by simp [hstages]) entry a err hcheck
      · exact h.recorded stage (hstages ▸ hold) entry a err hcheck
    · cases hmove <;> simpa using h.slots
  | answers hall hdone hnone hnext =>
    subst hnext
    exact { h with }

end Step

section NoPass

variable {n : Nat} {check : Nat → α → Option ε} {s s' : State α ε} {e : Event α}

/-- When no check passes, a goroutine that is done has left an error, which the caller sees. -/
structure Failing (n : Nat) (check : Nat → α → Option ε) (s : State α ε) : Prop where
  recorded : Recorded n check s
  error : ∀ stage ∈ s.stages, stage.isDone = true → ∃ err ∈ s.errs, err ≠ none
  result : s.result ≠ some true

theorem failing_step (hpos : 0 < n) (hfail : ∀ k, k < n → ∀ a, check k a ≠ none)
    (h : Failing n check s) (hstep : step n check s e = some s') : Failing n check s' := by
  refine ⟨recorded_step h.recorded hstep, ?_, ?_⟩
  · cases stepEffect hstep with
    | launched hlt hnext =>
      subst hnext
      intro stage hmem hdone
      rcases mem_append.mp hmem with hold | hnew
      · exact h.error stage hold hdone
      · rw [mem_singleton.mp hnew] at hdone
        cases hdone
    | moved before after old new oks errs hstages hmove hnext =>
      have hi := h.recorded.i_lt (by simp [hstages])
      subst hnext
      intro stage hmem hdone
      cases hmove with
      | check a | mark entry a err =>
        rcases mem_replaced _ hmem with rfl | hold
        · cases hdone
        · exact h.error stage (hstages ▸ hold) hdone
      | report entry a err =>
        -- the error that is written now
        obtain ⟨hentry, herr⟩ := h.recorded.recorded (.marked entry a err) (by simp [hstages])
          entry a err rfl
        refine ⟨err, mem_set (by rw [h.recorded.slots]; exact hi) err, ?_⟩
        rw [herr]
        exact hfail entry hentry a
    | answers hall hdone hnone hnext =>
      subst hnext
      exact h.error
  · cases stepEffect hstep with
    | launched _ hnext | moved _ _ _ _ _ _ _ _ hnext => exact hnext ▸ h.result
    | answers hall hdone hnone hnext =>
      subst hnext
      obtain ⟨stage, rest, hstages⟩ : ∃ stage rest, s.stages = stage :: rest :=
        exists_cons_of_length_pos (by omega)
      have hmem : stage ∈ s.stages := by simp [hstages]
      obtain ⟨err, herr, hsome⟩ := h.error stage hmem (hdone stage hmem)
      intro htrue
      have hall := all_eq_true.mp (Option.some.inj htrue) err herr
      exact hsome (Option.isNone_iff_eq_none.mp hall)

/-- **If no check can pass, the caller sees an error.** -/
theorem sound_of_no_pass (hfail : ∀ k, k < n → ∀ a, check k a ≠ none) {events : List (Event α)}
    (hrun : events.foldlM (step n check) (new n) = some s) : Sound n check s := by
  intro htrue k hk
  have hnew : Failing n check (new n : State α ε) := by
    refine ⟨recorded_new, by simp [new], by simp [new]⟩
  exact absurd htrue (run_invariant (fun _ _ _ => failing_step (by omega) hfail) hnew hrun).result

end NoPass

section OneEntry

variable {check : Nat → α → Option ε} {s s' : State α ε} {e : Event α}

structure OneEntry (check : Nat → α → Option ε) (s : State α ε) : Prop where
  recorded : Recorded 1 check s
  reported : ∀ entry a err, .done entry a err ∈ s.stages → s.errs = [err]
  answered : s.result = some true → ∃ entry a, s.stages = [.done entry a none]

theorem singleton_of_length_le {l before after : List (Stage α ε)} {stage : Stage α ε}
    (hlength : l.length ≤ 1) (hl : l = before ++ stage :: after) : before = [] ∧ after = [] := by
  rw [hl, length_append, length_cons] at hlength
  exact ⟨eq_nil_of_length_eq_zero (by omega), eq_nil_of_length_eq_zero (by omega)⟩

theorem oneEntry_step (h : OneEntry check s) (hstep : step 1 check s e = some s') :
    OneEntry check s' := by
  have hrecorded := recorded_step h.recorded hstep
  have hbound := h.recorded.bound
  cases stepEffect hstep with
  | launched hlt hnext =>
    have hnil : s.stages = [] := eq_nil_of_length_eq_zero (by omega)
    subst hnext
    refine ⟨hrecorded, by simp [hnil], ?_⟩
    intro htrue
    obtain ⟨entry, a, hdone⟩ := h.answered htrue
    simp [hnil] at hdone
  | moved before after old new oks errs hstages hmove hnext =>
    obtain ⟨rfl, rfl⟩ := singleton_of_length_le hbound hstages
    obtain ⟨slot, hslot⟩ := length_eq_one_iff.mp h.recorded.slots
    have hi : s.i = 0 := by simp [State.i, hstages]
    subst hnext
    refine ⟨hrecorded, ?_, ?_⟩
    · intro entry a err hmem
      cases hmove with
      | check a' | mark entry' a' err' => simp at hmem
      | report entry' a' err' =>
        have heq : Stage.done entry a err = .done entry' a' err' := by simpa using hmem
        cases heq
        simp [hslot, hi]
    · intro htrue
      obtain ⟨entry, a, hdone⟩ := h.answered htrue
      have heq : old = .done entry a none := by simpa [hstages] using hdone
      cases hmove <;> cases heq
  | answers hall hdone hnone hnext =>
    obtain ⟨stage, hstages⟩ := length_eq_one_iff.mp hall
    subst hnext
    refine ⟨hrecorded, h.reported, ?_⟩
    intro htrue
    have hisDone := hdone stage (by simp [hstages])
    cases stage with
    | done entry a err =>
      have herrs := h.reported entry a err (by simp [hstages])
      have hnone : err = none := by simpa [herrs] using htrue
      exact ⟨entry, a, by rw [hstages, hnone]⟩
    | _ => cases hisDone

/-- **One entry is checked rightly.** -/
theorem sound_of_one {events : List (Event α)}
    (hrun : events.foldlM (step 1 check) (new 1) = some s) : Sound 1 check s := by
  have hnew : OneEntry check (new 1 : State α ε) := ⟨recorded_new, by simp [new], by simp [new]⟩
  have h := run_invariant (fun _ _ _ => oneEntry_step) hnew hrun
  intro htrue k hk
  obtain ⟨entry, a, hstages⟩ := h.answered htrue
  obtain ⟨hentry, hcheck⟩ := h.recorded.recorded (.done entry a none) (by simp [hstages])
    entry a none rfl
  obtain rfl : entry = k := by omega
  exact ⟨.done entry a none, by simp [hstages], a, none, rfl, hcheck.symm⟩

end OneEntry

section HiddenError

variable {n : Nat} (check : Nat → α → Option ε) {s : State α ε} {a : α}

/-- All are started, and only the last slot may be written. -/
structure Late (n : Nat) (list : List (Stage α ε)) (last : Option ε) (s : State α ε) :
    Prop where
  stages : s.stages = list
  length : list.length = n + 1
  errs : s.errs = replicate n none ++ [last]
  result : s.result = none

variable {list before after : List (Stage α ε)} {last err : Option ε}

theorem Late.i (h : Late n list last s) : s.i = n := by
  rw [State.i, h.stages, h.length]
  rfl

theorem set_last (n : Nat) (last err : Option ε) :
    (replicate n none ++ [last]).set n err = replicate n none ++ [err] := by
  simp

theorem run_launch (m : Nat) (hlength : s.stages.length + m ≤ n) :
    (replicate m Event.launch).foldlM (step n check) s =
      some { s with stages := s.stages ++ replicate m .started } := by
  induction m generalizing s with
  | zero => simp
  | succ m ih =>
    have hfirst : step n check s .launch = some { s with stages := s.stages ++ [.started] } := by
      rw [step, if_pos (by omega)]
    rw [replicate_succ, run_cons, hfirst]
    simp only [Option.bind_some]
    rw [ih (by simp only [length_append, length_singleton]; omega)]
    simp [replicate_succ]

variable {entry k : Nat}

theorem run_report (h : Late n (before ++ .checked entry a err :: after) last s) :
    ∃ t, [Event.mark before.length, .report before.length].foldlM (step (n + 1) check) s =
        some t ∧ Late n (before ++ .done entry a err :: after) err t := by
  have hlength : before.length + (after.length + 1) = n + 1 := by simpa using h.length
  refine ⟨{ s with
    stages := before ++ .done entry a err :: after
    oks := s.oks.set s.i err.isNone
    errs := s.errs.set n err }, ?_, rfl, by simpa using h.length, ?_, h.result⟩
  · have hget : ∀ stage, (before ++ stage :: after)[before.length]? = some stage := by simp
    simp [step, h.stages, State.i, hlength, hget]
  · rw [h.errs, set_last]

theorem run_late_check (h : Late n (before ++ .started :: after) last s) :
    ∃ (events : List (Event α)) (t : State α ε), events.foldlM (step (n + 1) check) s = some t ∧
      Late n (before ++ .done n a (check n a) :: after) (check n a) t := by
  have hcheck : step (n + 1) check s (.check before.length a) = some { s with
      stages := before ++ .checked n a (check n a) :: after } := by
    simp [step, h.stages, h.i]
  have hlate : Late n (before ++ .checked n a (check n a) :: after) last { s with
      stages := before ++ .checked n a (check n a) :: after } :=
    ⟨rfl, by simpa using h.length, h.errs, h.result⟩
  obtain ⟨t, hrun, ht⟩ := run_report check hlate
  refine ⟨.check before.length a :: [.mark before.length, .report before.length], t, ?_, ht⟩
  rw [run_cons, hcheck]
  exact hrun

theorem run_late_checks (m : Nat)
    (h : Late n (before ++ replicate m .started ++ after) last s) :
    ∃ (events : List (Event α)) (t : State α ε) (last' : Option ε),
      events.foldlM (step (n + 1) check) s = some t ∧
      Late n (before ++ replicate m (.done n a (check n a)) ++ after) last' t := by
  induction m generalizing before s last with
  | zero => exact ⟨[], s, last, rfl, by simpa using h⟩
  | succ m ih =>
    rw [replicate_succ, append_assoc, cons_append] at h
    obtain ⟨events, t, hrun, ht⟩ := run_late_check check (a := a) h
    have ht' : Late n ((before ++ [.done n a (check n a)]) ++ replicate m .started ++ after)
        (check n a) t := by simpa using ht
    obtain ⟨events', t', last', hrun', hlate⟩ := ih ht'
    refine ⟨events ++ events', t', last', run_append_iff.mpr ⟨t, hrun, hrun'⟩, ?_⟩
    simpa [replicate_succ] using hlate

/-- The goroutine of the entry `k` checks at once, the others after the loop. -/
theorem exists_late_pass (hk : k ≤ n) (hpass : check k a = none) :
    ∃ (events : List (Event α)) (s : State α ε),
      events.foldlM (step (n + 1) check) (new (n + 1)) = some s ∧
        Late n (replicate k .started ++ .checked k a none ::
          replicate (n - k) .started) none s := by
  let s₁ : State α ε := { (new (n + 1) : State α ε) with
    stages := replicate k .started ++ [.started] }
  have hlaunch : (replicate (k + 1) Event.launch).foldlM (step (n + 1) check)
      (new (n + 1) : State α ε) = some s₁ := by
    rw [run_launch check (k + 1) (by simp only [new, length_nil]; omega)]
    simp [s₁, new, replicate_succ']
  let s₂ : State α ε := { s₁ with stages := replicate k .started ++ [.checked k a none] }
  have hcheck : step (n + 1) check s₁ (.check k a) = some s₂ := by
    simp [step, s₁, s₂, State.i, hpass]
  have hrest := run_launch check (s := s₂) (n := n + 1) (n - k)
    (by simp only [s₂, length_append, length_replicate, length_singleton]; omega)
  have hrun : (Event.check k a :: replicate (n - k) .launch).foldlM (step (n + 1) check) s₁ =
      some { s₂ with stages := s₂.stages ++ replicate (n - k) .started } := by
    rw [run_cons, hcheck]
    exact hrest
  refine ⟨_, _, run_append_iff.mpr ⟨s₁, hlaunch, hrun⟩, ⟨?_, ?_, ?_, rfl⟩⟩
  · simp [s₂]
  · simp only [length_append, length_replicate, length_cons]
    omega
  · simp [s₂, s₁, new, replicate_succ']

/-- The others report the last entry, and the first one after them, into the same slot. -/
theorem exists_all_reported
    (h : Late n (replicate k .started ++ .checked k a none :: replicate (n - k) .started) last s) :
    ∃ (events : List (Event α)) (t : State α ε),
      events.foldlM (step (n + 1) check) s = some t ∧
        Late n (replicate k (.done n a (check n a)) ++ .done k a none ::
          replicate (n - k) (.done n a (check n a))) none t := by
  have hbefore : Late n ([] ++ replicate k .started ++
      (.checked k a none :: replicate (n - k) .started)) last s := by simpa using h
  obtain ⟨events, s₁, last₁, hrun₁, h₁⟩ := run_late_checks check (a := a) k hbefore
  have hafter : Late n ((replicate k (.done n a (check n a)) ++ [.checked k a none]) ++
      replicate (n - k) .started ++ []) last₁ s₁ := by simpa using h₁
  obtain ⟨events', s₂, last₂, hrun₂, h₂⟩ := run_late_checks check (a := a) (n - k) hafter
  have hown : Late n (replicate k (.done n a (check n a)) ++ .checked k a none ::
      replicate (n - k) (.done n a (check n a))) last₂ s₂ := by simpa using h₂
  obtain ⟨t, hrun₃, ht⟩ := run_report check hown
  exact ⟨_, t, run_append_iff.mpr ⟨s₁, hrun₁, run_append_iff.mpr ⟨s₂, hrun₂, hrun₃⟩⟩, ht⟩

theorem Late.finish (h : Late n list none s) (hdone : ∀ stage ∈ s.stages, stage.isDone = true) :
    step (n + 1) check s .finish = some { s with result := some true } := by
  have hall : s.stages.all Stage.isDone = true := all_eq_true.mpr hdone
  have hnone : s.errs.all Option.isNone = true := by
    rw [h.errs]
    simp
  rw [step, if_pos ⟨by rw [h.stages, h.length], hall, h.result⟩, hnone]

/-- **A goroutine that has passed reports last, in the slot of the others.** -/
theorem exists_hidden_error (hk : k ≤ n) (hpass : check k a = none) :
    ∃ (events : List (Event α)) (t : State α ε),
      events.foldlM (step (n + 1) check) (new (n + 1)) = some t ∧ t.result = some true ∧
        ∀ stage ∈ t.stages, stage = .done k a none ∨ stage = .done n a (check n a) := by
  obtain ⟨events, s, hrun, hlate⟩ := exists_late_pass check hk hpass
  obtain ⟨events', t, hrun', hreported⟩ := exists_all_reported check hlate
  have hstages : ∀ stage ∈ t.stages, stage = .done k a none ∨ stage = .done n a (check n a) := by
    intro stage hmem
    simp only [hreported.stages, mem_append, mem_cons, mem_replicate] at hmem
    tauto
  have hfinish := hreported.finish check (by
    intro stage hmem
    rcases hstages stage hmem with rfl | rfl
    · rfl
    · rfl)
  refine ⟨events ++ (events' ++ [.finish]), { t with result := some true },
    run_append_iff.mpr ⟨s, hrun, run_append_iff.mpr ⟨t, hrun', ?_⟩⟩, rfl, hstages⟩
  rw [run_cons, hfinish]
  rfl

end HiddenError

/-- **The caller's answer can be relied on exactly when there is at most one entry or no check can
pass.** -/
theorem sound_iff (n : Nat) (check : Nat → α → Option ε) :
    (∀ (events : List (Event α)) (s : State α ε),
      events.foldlM (step n check) (new n) = some s → Sound n check s) ↔
      n ≤ 1 ∨ ∀ k, k < n → ∀ a, check k a ≠ none := by
  constructor
  · intro hsound
    by_contra hnot
    push Not at hnot
    obtain ⟨hn, k, hk, a, hpass⟩ := hnot
    obtain ⟨m, rfl⟩ : ∃ m, n = m + 1 := ⟨n - 1, by omega⟩
    by_cases hlast : ∃ a', check m a' = none
    · -- every goroutine checks the last entry, and the first entry is not checked
      obtain ⟨a', hpass'⟩ := hlast
      obtain ⟨events, t, hrun, htrue, hstages⟩ := exists_hidden_error check (Nat.le_refl m) hpass'
      obtain ⟨stage, hmem, a'', err, hcheck, -⟩ := hsound events t hrun htrue 0 (by omega)
      rcases hstages stage hmem with rfl | rfl
      · cases hcheck
        omega
      · cases hcheck
        omega
    · -- the last entry does not pass, and the error is overwritten
      have hle : k ≤ m := by omega
      obtain ⟨events, t, hrun, htrue, hstages⟩ := exists_hidden_error check hle hpass
      obtain ⟨stage, hmem, a', err, -, hnone⟩ := hsound events t hrun htrue m (by omega)
      exact hlast ⟨a', hnone⟩
  · rintro (hle | hfail) events s hrun
    · rcases Nat.le_one_iff_eq_zero_or_eq_one.mp hle with rfl | rfl
      · intro _ k hk
        omega
      · exact sound_of_one hrun
    · exact sound_of_no_pass hfail hrun

end Topia.Lib.LoopVariable
