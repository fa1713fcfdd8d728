import Mathlib.Data.List.Basic

/-!
# Runs of a deterministic transition system

A system is a step function `step : σ → α → Option σ`; a label that is not enabled in a state gives
`none`. A run over a list of labels is the monadic fold `labels.foldlM step s`.
-/

namespace Topia.Lib

universe u v

open List

section Run

variable {σ : Type u} {α : Type v}
variable {step : σ → α → Option σ}

@[simp] theorem run_nil (s : σ) : ([] : List α).foldlM step s = some s := by
  rfl

@[simp] theorem run_cons (s : σ) (a : α) (labels : List α) :
    (a :: labels).foldlM step s = (step s a).bind (fun s' => labels.foldlM step s') := by
  rfl

variable {labels xs ys : List α} {s t m : σ}

theorem run_cons_success {a : α} (hrun : (a :: labels).foldlM step s = some t) :
    ∃ s', step s a = some s' ∧ labels.foldlM step s' = some t := by
  exact Option.bind_eq_some_iff.mp hrun

theorem of_guard {p : Prop} [Decidable p] (hstep : (if p then some s else none) = some t) :
    p ∧ s = t := by
  simpa using hstep

theorem run_append_iff :
    (xs ++ ys).foldlM step s = some t ↔
      ∃ m, xs.foldlM step s = some m ∧ ys.foldlM step m = some t := by
  rw [foldlM_append]
  exact Option.bind_eq_some_iff

variable {Inv P : σ → Prop}

theorem run_invariant (hstep : ∀ s a s', Inv s → step s a = some s' → Inv s') {s t : σ}
    {labels : List α} (hs : Inv s) (hrun : labels.foldlM step s = some t) : Inv t := by
  induction labels generalizing s with
  | nil =>
    cases hrun
    exact hs
  | cons a labels ih =>
    obtain ⟨s', hfirst, hrest⟩ := run_cons_success hrun
    exact ih (hstep s a s' hs hfirst) hrest

/-- Every step of the run, as far as it goes, meets `ok`. -/
def Along (step : σ → α → Option σ) (ok : σ → α → Prop) : σ → List α → Prop
  | _, [] => True
  | s, a :: labels => ok s a ∧ ∀ s', step s a = some s' → Along step ok s' labels

variable {ok ok' good : σ → α → Prop}

theorem run_invariant_along (hstep : ∀ s a s', Inv s → ok s a → step s a = some s' → Inv s')
    {s t : σ} {labels : List α} (hs : Inv s) (hok : Along step ok s labels)
    (hrun : labels.foldlM step s = some t) : Inv t := by
  induction labels generalizing s with
  | nil =>
    cases hrun
    exact hs
  | cons a labels ih =>
    obtain ⟨s', hfirst, hrest⟩ := run_cons_success hrun
    obtain ⟨hhead, htail⟩ := hok
    exact ih (hstep s a s' hs hhead hfirst) (htail s' hfirst) hrest

theorem along_of_forall_mem (hall : ∀ a ∈ labels, ∀ s, ok s a) (s : σ) :
    Along step ok s labels := by
  induction labels generalizing s with
  | nil => exact trivial
  | cons a labels ih =>
    refine ⟨hall a mem_cons_self s, fun s' _ => ?_⟩
    exact ih (fun b hb => hall b (mem_cons_of_mem a hb)) s'

theorem along_of_invariant (hstep : ∀ s a s', Inv s → step s a = some s' → Inv s')
    (hok : ∀ s a, Inv s → ok s a) (hs : Inv s) (labels : List α) : Along step ok s labels := by
  induction labels generalizing s with
  | nil => exact trivial
  | cons a labels ih =>
    refine ⟨hok s a hs, ?_⟩
    intro s' hs'
    exact ih (hstep s a s' hs hs')

theorem along_append (hok : Along step ok s (xs ++ ys)) (hrun : xs.foldlM step s = some m) :
    Along step ok s xs ∧ Along step ok m ys := by
  induction xs generalizing s with
  | nil =>
    cases hrun
    exact ⟨trivial, hok⟩
  | cons a xs ih =>
    obtain ⟨s', hfirst, hrest⟩ := run_cons_success hrun
    obtain ⟨hhead, htail⟩ := hok
    obtain ⟨_, hys⟩ := ih (htail s' hfirst) hrest
    refine ⟨⟨hhead, ?_⟩, hys⟩
    intro s'' hs''
    rw [hfirst] at hs''
    cases hs''
    exact (ih (htail s' hfirst) hrest).1

theorem along_and (hok : Along step ok s labels) (hok' : Along step ok' s labels) :
    Along step (fun s a => ok s a ∧ ok' s a) s labels := by
  induction labels generalizing s with
  | nil => exact trivial
  | cons a labels ih =>
    obtain ⟨hhead, htail⟩ := hok
    obtain ⟨hhead', htail'⟩ := hok'
    exact ⟨⟨hhead, hhead'⟩, fun s' hs' => ih (htail s' hs') (htail' s' hs')⟩

theorem along_iff_of_invariant
    (hstep : ∀ s a s', Inv s → good s a → ok s a → step s a = some s' → Inv s')
    (hiff : ∀ s a, Inv s → (ok s a ↔ ok' s a)) {s : σ} {labels : List α} (hs : Inv s)
    (hgood : Along step good s labels) : Along step ok s labels ↔ Along step ok' s labels := by
  induction labels generalizing s with
  | nil => exact Iff.rfl
  | cons a labels ih =>
    rw [Along, Along, ← hiff s a hs]
    refine and_congr_right fun hok => forall₂_congr fun s' hs' => ?_
    exact ih (hstep s a s' hs hgood.1 hok hs') (hgood.2 s' hs')

/-- Every state of the run, as far as it goes, meets `P`. -/
def Throughout (step : σ → α → Option σ) (P : σ → Prop) (s : σ) (labels : List α) : Prop :=
  ∀ before t, before <+: labels → before.foldlM step s = some t → P t

theorem throughout_cons {a : α} :
    Throughout step P s (a :: labels) ↔
      P s ∧ ∀ s', step s a = some s' → Throughout step P s' labels := by
  constructor
  · intro hall
    refine ⟨hall [] s nil_prefix rfl, ?_⟩
    intro s' hs' before t hbefore hrun
    refine hall (a :: before) t (cons_prefix_cons.mpr ⟨rfl, hbefore⟩) ?_
    rw [run_cons, hs']
    exact hrun
  · rintro ⟨hs, hrest⟩ before t hbefore hrun
    cases before with
    | nil =>
      cases hrun
      exact hs
    | cons b before =>
      obtain ⟨rfl, hbefore'⟩ := cons_prefix_cons.mp hbefore
      obtain ⟨s', hfirst, hrun'⟩ := run_cons_success hrun
      exact hrest s' hfirst before t hbefore' hrun'

theorem throughout_of_along (hstep : ∀ s a s', Inv s → ok s a → step s a = some s' → Inv s')
    (hP : ∀ s, Inv s → P s) (hs : Inv s) (hok : Along step ok s labels) :
    Throughout step P s labels := by
  rintro before t ⟨rest, rfl⟩ hrun
  obtain ⟨hbefore, _⟩ := along_append hok hrun
  exact hP t (run_invariant_along hstep hs hbefore hrun)

/-- When a step keeps `P` exactly under `ok`, `P` holds all along a run exactly when all its steps
meet `ok`. -/
theorem throughout_iff_along_of (hinv : ∀ s a s', Inv s → good s a → step s a = some s' → Inv s')
    (hexact : ∀ s a s', Inv s → P s → good s a → step s a = some s' → (P s' ↔ ok s a))
    (hidle : ∀ s a, Inv s → P s → step s a = none → ok s a) (hs : Inv s) (hP : P s)
    (hgood : Along step good s labels) : Throughout step P s labels ↔ Along step ok s labels := by
  induction labels generalizing s with
  | nil =>
    refine ⟨fun _ => trivial, ?_⟩
    intro _ before t hbefore hrun
    rw [prefix_nil.mp hbefore, run_nil] at hrun
    cases hrun
    exact hP
  | cons a labels ih =>
    obtain ⟨hhead, htail⟩ := hgood
    rw [throughout_cons]
    cases hstep : step s a with
    | none => simp [Along, hstep, hP, hidle s a hs hP hstep]
    | some s' =>
      have hs' := hinv s a s' hs hhead hstep
      have hiff := hexact s a s' hs hP hhead hstep
      constructor
      · rintro ⟨_, hrest⟩
        have hP' : P s' := hrest s' rfl [] s' nil_prefix rfl
        refine ⟨hiff.mp hP', ?_⟩
        intro t ht
        rw [hstep] at ht
        cases ht
        exact (ih hs' hP' (htail s' hstep)).mp (hrest s' rfl)
      · rintro ⟨hok, hrest⟩
        refine ⟨hP, ?_⟩
        intro t ht
        cases ht
        exact (ih hs' (hiff.mpr hok) (htail s' hstep)).mpr (hrest s' hstep)

theorem throughout_iff_along (hinv : ∀ s a s', Inv s → step s a = some s' → Inv s')
    (hexact : ∀ s a s', Inv s → P s → step s a = some s' → (P s' ↔ ok s a))
    (hidle : ∀ s a, Inv s → P s → step s a = none → ok s a) (hs : Inv s) (hP : P s) :
    Throughout step P s labels ↔ Along step ok s labels := by
  have hall : Along step (fun _ _ => True) s labels :=
    along_of_forall_mem (fun _ _ _ => trivial) s
  exact throughout_iff_along_of (fun s a s' hs _ => hinv s a s' hs)
    (fun s a s' hs hP _ => hexact s a s' hs hP) hidle hs hP hall

def alongCheck (step : σ → α → Option σ) (ok : σ → α → Bool) : σ → List α → Bool
  | _, [] => true
  | s, a :: labels =>
    ok s a &&
      match step s a with
      | none => true
      | some s' => alongCheck step ok s' labels

theorem along_of_check {okCheck : σ → α → Bool} (hsound : ∀ s a, okCheck s a = true → ok s a)
    (hcheck : alongCheck step okCheck s labels = true) : Along step ok s labels := by
  induction labels generalizing s with
  | nil => exact trivial
  | cons a labels ih =>
    simp only [alongCheck, Bool.and_eq_true] at hcheck
    obtain ⟨hhead, htail⟩ := hcheck
    refine ⟨hsound s a hhead, ?_⟩
    intro s' hs'
    rw [hs'] at htail
    exact ih htail

theorem run_length_le {measure : σ → Nat}
    (hlower : ∀ s a s', step s a = some s' → measure s' < measure s)
    (hrun : labels.foldlM step s = some t) : labels.length + measure t ≤ measure s := by
  induction labels generalizing s with
  | nil =>
    cases hrun
    simp
  | cons a labels ih =>
    obtain ⟨s', hfirst, hrest⟩ := run_cons_success hrun
    have hstep := hlower s a s' hfirst
    have hle := ih hrest
    rw [length_cons]
    omega

theorem exists_ended_run {measure : σ → Nat}
    (hlower : ∀ s a s', step s a = some s' → measure s' < measure s) (s : σ) :
    ∃ (labels : List α) (t : σ), labels.foldlM step s = some t ∧ ∀ a, step t a = none := by
  induction hm : measure s using Nat.strongRecOn generalizing s with
  | ind m ih =>
    by_cases hended : ∀ a, step s a = none
    · exact ⟨[], s, rfl, hended⟩
    obtain ⟨a, ha⟩ := not_forall.mp hended
    obtain ⟨s', hs'⟩ := Option.ne_none_iff_exists'.mp ha
    obtain ⟨labels, t, hrun, ht⟩ := ih (measure s') (hm ▸ hlower s a s' hs') s' rfl
    refine ⟨a :: labels, t, ?_, ht⟩
    rw [run_cons, hs']
    exact hrun

end Run

section Processes

variable {α : Type u} {l before after : List α} {a b old : α}

theorem exists_process {j : Nat} (hj : l[j]? = some a) :
    ∃ before after, l = before ++ a :: after ∧ before.length = j ∧
      ∀ b, l.set j b = before ++ b :: after := by
  induction l generalizing j with
  | nil => simp at hj
  | cons c l ih =>
    cases j with
    | zero =>
      obtain rfl : c = a := by simpa using hj
      exact ⟨[], l, rfl, rfl, fun b => rfl⟩
    | succ j =>
      obtain ⟨before, after, rfl, rfl, hset⟩ := ih (by simpa using hj)
      exact ⟨c :: before, after, rfl, rfl, fun b => by simp⟩

theorem mem_replaced (old : α) (hmem : a ∈ before ++ b :: after) :
    a = b ∨ a ∈ before ++ old :: after := by
  simp only [mem_append, mem_cons] at hmem ⊢
  tauto

end Processes

section History

variable {α : Type u} {P : List α → α → Prop} {log : List α} {a : α}

/-- Every entry, oldest first, stands in `P` to those before it. -/
def EveryEntry (P : List α → α → Prop) (log : List α) : Prop :=
  ∀ before a after, log = before ++ a :: after → P before a

theorem everyEntry_nil : EveryEntry P [] := by
  intro before a after hsplit
  simp at hsplit

theorem everyEntry_concat (hlog : EveryEntry P log) (ha : P log a) : EveryEntry P (log ++ [a]) := by
  intro before b after hsplit
  rcases eq_nil_or_concat after with rfl | ⟨rest, c, rfl⟩
  · obtain ⟨rfl, hb⟩ := append_inj' hsplit rfl
    cases hb
    exact ha
  · have hsplit' : log ++ [a] = (before ++ b :: rest) ++ [c] := by simpa using hsplit
    obtain ⟨hlog', _⟩ := append_inj' hsplit' rfl
    exact hlog before b rest hlog'

end History

section Traversal

variable {α : Type u} {β : Type v} {f : α → Option β}

theorem mapM_eq_some_iff {as : List α} {bs : List β} :
    as.mapM f = some bs ↔ as.map f = bs.map some := by
  induction as generalizing bs with
  | nil => cases bs <;> simp
  | cons a as ih =>
    cases bs with
    | nil => simp [Option.bind_eq_some_iff]
    | cons b bs =>
      rw [map_cons, map_cons, cons.injEq, ← ih]
      simp [Option.bind_eq_some_iff]

end Traversal

end Topia.Lib
