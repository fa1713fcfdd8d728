import Mathlib.Data.List.Basic

/-!
# A multi-version key-value store

The store is the list of its commits in the order in which they were made. A commit carries one
timestamp and its writes; a write sets a key or, with `none`, deletes it. A read at timestamp `t`
sees the write with the greatest timestamp up to `t`, and among equal timestamps the last one.
-/

namespace Topia.Lib.Mvcc

universe u v

variable {K : Type u} {V : Type v} [DecidableEq K]

/-- A timestamp and the writes, in order. -/
structure Commit (K : Type u) (V : Type v) where
  ts : Nat
  writes : List (K × Option V)
deriving DecidableEq, Repr

def lastWrite (k : K) : List (K × Option V) → Option (Option V)
  | [] => none
  | w :: ws =>
    match lastWrite k ws with
    | some v => some v
    | none => if w.1 = k then some w.2 else none

def visible (t : Nat) (k : K) : List (Commit K V) → Option (Nat × Option V)
  | [] => none
  | c :: cs =>
    match visible t k cs with
    | some (ts, v) =>
      if ts < c.ts ∧ c.ts ≤ t then
        match lastWrite k c.writes with
        | some w => some (c.ts, w)
        | none => some (ts, v)
      else
        some (ts, v)
    | none =>
      if c.ts ≤ t then
        (lastWrite k c.writes).map (fun w => (c.ts, w))
      else
        none

def readAt (db : List (Commit K V)) (t : Nat) (k : K) : Option V :=
  (visible t k db).bind Prod.snd

variable {c : Commit K V}

theorem visible_cons_of_lt {t : Nat} (hts : t < c.ts) (k : K) (cs : List (Commit K V)) :
    visible t k (c :: cs) = visible t k cs := by
  have hnot : ¬ c.ts ≤ t := by omega
  simp only [visible]
  cases visible t k cs with
  | none => simp [hnot]
  | some w => simp [hnot]

theorem visible_append_of_lt {t : Nat} (hts : t < c.ts) (k : K) (cs : List (Commit K V)) :
    visible t k (cs ++ [c]) = visible t k cs := by
  induction cs with
  | nil =>
    simpa using visible_cons_of_lt hts k []
  | cons d cs ih =>
    simp [visible, ih]

/-- **Frame rule.** A commit above `t` changes no read at `t`. -/
theorem readAt_append_of_lt {t : Nat} (hts : t < c.ts) (db : List (Commit K V)) :
    readAt (db ++ [c]) t = readAt db t := by
  funext k
  simp [readAt, visible_append_of_lt hts k db]

theorem lastWrite_of_not_written {k : K} {ws : List (K × Option V)}
    (hws : ∀ w ∈ ws, w.1 ≠ k) : lastWrite k ws = none := by
  induction ws with
  | nil => rfl
  | cons w ws ih =>
    obtain ⟨hw, hws⟩ := List.forall_mem_cons.mp hws
    simp [lastWrite, ih hws, hw]

theorem readAt_of_not_written {k : K} {db : List (Commit K V)}
    (hdb : ∀ c ∈ db, ∀ w ∈ c.writes, w.1 ≠ k) (t : Nat) : readAt db t k = none := by
  have hvisible : visible t k db = none := by
    induction db with
    | nil => rfl
    | cons c cs ih =>
      obtain ⟨hc, hcs⟩ := List.forall_mem_cons.mp hdb
      simp [visible, ih hcs, lastWrite_of_not_written hc]
  rw [readAt, hvisible]
  rfl

end Topia.Lib.Mvcc
