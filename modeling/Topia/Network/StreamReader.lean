import Topia.Lib.Run
import Mathlib.Algebra.Order.Ring.Int

/-!
# The budget of a stream reader

`network/p2p/stream_reader.go`: a read has to return within what is left of a budget, which grows by
`waitPerByte` with every byte, up to `maxWait`. Durations are `int64` numbers of nanoseconds, and
their arithmetic wraps.
-/

namespace Topia.Network

open Lib

def wrapInt64 (x : Int) : Int := x.bmod (2 ^ 64)

structure StreamReader where
  (waitPerByte wait maxWait : Int)

def NewStreamReader (minSpeed maxWait : Int) : Option StreamReader :=
  if minSpeed = 0 then none else some ⟨Int.tdiv (10 ^ 9) minSpeed, maxWait, maxWait⟩

structure StreamRead where
  (dur n : Nat)

def elapsed (reads : List StreamRead) : Nat := (reads.map StreamRead.dur).sum
def bytesRead (reads : List StreamRead) : Nat := (reads.map StreamRead.n).sum

/-- `Read` with a read that returns by the deadline; `none` without a budget for it. -/
def StreamReader.Read (sr : StreamReader) (r : StreamRead) : Option StreamReader :=
  if sr.wait = 0 ∨ sr.wait < r.dur then none
  else
    let wait := wrapInt64 (wrapInt64 (sr.wait - r.dur) + wrapInt64 (r.n * sr.waitPerByte))
    let wait := if wait < 0 then 0 else wait
    some { sr with wait := if sr.maxWait < wait then sr.maxWait else wait }

theorem wrapInt64_eq {x : Int} (hlow : -2 ^ 63 ≤ x) (hx : x < 2 ^ 63) : wrapInt64 x = x :=
  Int.bmod_eq_of_le (by omega) (by omega)

theorem wrapInt64_le {x : Int} (hx : -2 ^ 63 ≤ x) : wrapInt64 x ≤ x := by
  rw [wrapInt64, Int.bmod_def]
  split <;> omega

section Budget

variable {sr sr' : StreamReader} {r : StreamRead} {reads : List StreamRead}

namespace StreamReader

structure Budgeted (sr : StreamReader) : Prop where
  perByte : 0 ≤ sr.waitPerByte
  wait_nonneg : 0 ≤ sr.wait
  wait_le : sr.wait ≤ sr.maxWait
  maxWait_lt : sr.maxWait < 2 ^ 63

/-- A read takes its time from the budget, and adds at most what its bytes are worth. -/
theorem Budgeted.read (h : sr.Budgeted) (hread : sr.Read r = some sr') :
    sr'.Budgeted ∧ sr'.maxWait = sr.maxWait ∧ sr'.waitPerByte = sr.waitPerByte ∧
      r.dur + sr'.wait ≤ sr.wait + r.n * sr.waitPerByte := by
  obtain ⟨hper, hnonneg, hle, hmax⟩ := h
  unfold Read at hread
  split_ifs at hread with hdone
  cases hread
  have hworth : (0 : Int) ≤ r.n * sr.waitPerByte := Int.mul_nonneg (Int.natCast_nonneg _) hper
  have hleft := wrapInt64_eq (x := sr.wait - r.dur) (by omega) (by omega)
  have hbytes := wrapInt64_le (x := r.n * sr.waitPerByte) (by omega)
  have hlow : -2 ^ 63 ≤ wrapInt64 (r.n * sr.waitPerByte) := Int.le_bmod (by decide)
  have hsum := wrapInt64_le (x := sr.wait - r.dur + wrapInt64 (r.n * sr.waitPerByte)) (by omega)
  rw [hleft]
  refine ⟨⟨hper, ?_, ?_, hmax⟩, rfl, rfl, ?_⟩ <;> dsimp only <;> split_ifs <;> omega

theorem Budgeted.run (h : sr.Budgeted) (hrun : reads.foldlM Read sr = some sr') :
    sr'.Budgeted ∧ sr'.maxWait = sr.maxWait ∧
      elapsed reads + sr'.wait ≤ sr.wait + bytesRead reads * sr.waitPerByte := by
  induction reads generalizing sr with
  | nil =>
    cases hrun
    exact ⟨h, rfl, by simp [elapsed, bytesRead]⟩
  | cons r reads ih =>
    obtain ⟨sr₁, hread, hrun⟩ := run_cons_success hrun
    obtain ⟨h₁, hmax₁, hper₁, hone⟩ := h.read hread
    obtain ⟨h', hmax', hrest⟩ := ih h₁ hrun
    refine ⟨h', hmax'.trans hmax₁, ?_⟩
    rw [hper₁] at hrest
    simp only [elapsed, bytesRead, List.map_cons, List.sum_cons, Int.natCast_add, Int.add_mul]
      at hrest ⊢
    omega

end StreamReader

/-- **The budget of the reads.**  After any reads of a new reader, what is left to wait is between
zero and `maxWait`, and the reads have taken at most `maxWait` and what their bytes are worth. -/
theorem read_budget {minSpeed maxWait : Int} (hspeed : 0 < minSpeed) (hwait : 0 ≤ maxWait)
    (hmax : maxWait < 2 ^ 63) : ∃ sr, NewStreamReader minSpeed maxWait = some sr ∧
      ∀ reads sr', List.foldlM StreamReader.Read sr reads = some sr' →
        0 ≤ sr'.wait ∧ sr'.wait ≤ maxWait ∧
        elapsed reads ≤ maxWait + bytesRead reads * (10 ^ 9 / minSpeed) := by
  refine ⟨_, if_neg (by omega), fun reads sr' hrun => ?_⟩
  have hnew : StreamReader.Budgeted ⟨10 ^ 9 / minSpeed, maxWait, maxWait⟩ :=
    ⟨Int.ediv_nonneg (by decide) (by omega), hwait, Int.le_refl _, hmax⟩
  rw [Int.tdiv_eq_ediv_of_nonneg (by decide)] at hrun
  obtain ⟨⟨-, hnonneg, hle, -⟩, heq, hsum⟩ := hnew.run hrun
  exact ⟨hnonneg, Int.le_trans hle (Int.le_of_eq heq),
    Int.le_trans (Int.le_add_of_nonneg_right hnonneg) hsum⟩

theorem read_budget_megabyte : ∃ sr, NewStreamReader (10 ^ 6) (5 * 10 ^ 9) = some sr ∧
    ∀ reads sr', List.foldlM StreamReader.Read sr reads = some sr' →
      0 ≤ sr'.wait ∧ sr'.wait ≤ 5 * 10 ^ 9 ∧
      elapsed reads ≤ 5 * 10 ^ 9 + bytesRead reads * ((10 ^ 9 : Int) / 10 ^ 6) :=
  read_budget (by decide) (by decide) (by decide)

end Budget

end Topia.Network
