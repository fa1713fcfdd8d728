import Topia.Common
import Topia.Lib.Run
import Topia.Lib.Mvcc
import Topia.Ledger.VersionManager
import Mathlib.Data.List.Pairwise

/-!
# The Badger backend: versions as commit timestamps

`ledger/backend/badger/backend.go` maps the saved versions of the ledger to commit timestamps of a
managed Badger database. A writer reads at the value of `tsCount` when it is opened. A commit takes
the timestamp `lastTs`, which is advanced only when it equals the read timestamp of the writer, and
writes at it after it has left the lock. A writer is used by one goroutine.

Badger itself is a multi-version store (`Lib.Mvcc`). Whether its `CommitAt` succeeds is an input.
-/

namespace Topia.Ledger

open Lib

structure BadgerVersionManager where
  vm : VersionManager
  vmap : Nat → Option Nat
  (tsCount lastTs : Nat)

open Function

namespace BadgerVersionManager

def updateCommitTs (m : BadgerVersionManager) (readts : Nat) : BadgerVersionManager :=
  if m.lastTs = readts then { m with lastTs := wrap64 (m.lastTs + 1) } else m

def versionTs (m : BadgerVersionManager) (ver : Nat) : Option Nat :=
  m.vmap ver

def Save (m : BadgerVersionManager) (target : Nat) :
    Except BackendError (Nat × BadgerVersionManager) :=
  match m.vm.Save target with
  | .error e => .error e
  | .ok (id, vm) =>
    .ok (id, { m with vm := vm, vmap := update m.vmap id (some m.lastTs) })

end BadgerVersionManager

structure BadgerWriter where
  readTs : Nat
  pending : List (Bytes × Option Bytes)
  discarded : Bool
deriving DecidableEq, Repr

/-- A call of `Commit` that has its timestamp and has not yet written. -/
structure CommitInFlight where
  writer : Nat
  w : BadgerWriter
  ts : Nat
deriving DecidableEq, Repr

structure BadgerBackend where
  db : List (Mvcc.Commit Bytes Bytes)
  vmgr : BadgerVersionManager
  writers : List BadgerWriter
  readers : List Nat
  openWriters : Int
  committing : List CommitInFlight

namespace BadgerBackend

def NewBadgerBackend : BadgerBackend where
  db := []
  vmgr :=
    { vm := VersionManager.NewVersionManager []
      vmap := fun _ => none
      tsCount := 0
      lastTs := 0 }
  writers := []
  readers := []
  openWriters := 0
  committing := []

variable (b₀ b : BadgerBackend) (i : Nat) (w : BadgerWriter)

def Reader : Nat :=
  b.vmgr.lastTs

variable (m : BadgerVersionManager) (readts version target : Nat)

def ReaderAt : Except BackendError Nat :=
  match b.vmgr.versionTs version with
  | none => .error .versionDoesNotExist
  | some ts => .ok ts

def content (ts : Nat) : Bytes → Option Bytes :=
  Mvcc.readAt b.db ts

def contentAt : Except BackendError (Bytes → Option Bytes) :=
  (b.ReaderAt version).map b.content

def ReadWriter : BadgerBackend :=
  { b with
    vmgr := { b.vmgr with tsCount := wrap64 (b.vmgr.tsCount + 1) }
    writers := b.writers ++ [{ readTs := b.vmgr.tsCount, pending := [], discarded := false }]
    openWriters := b.openWriters + 1 }

/-- `badgerWriter.Set`, `badgerWriter.Delete` with `none`: buffered. -/
def bufferWrite (key : Bytes) (value : Option Bytes) : BadgerBackend :=
  if key = [] ∨ w.discarded then b
  else
    { b with
      writers := b.writers.set i { w with pending := w.pending ++ [(key, value)] } }

def Discard : BadgerBackend :=
  if w.discarded then b
  else
    { b with
      writers := b.writers.set i { w with discarded := true }
      openWriters := b.openWriters - 1 }

/-- `badgerWriter.Commit` under the lock. -/
def updateCommitTs (b : BadgerBackend) (w : BadgerWriter) : BadgerBackend :=
  { b with vmgr := b.vmgr.updateCommitTs w.readTs }

/-- `badgerWriter.Commit` behind the lock; `committed` is the outcome of `CommitAt`. -/
def CommitAt (ts : Nat) (committed : Bool) : BadgerBackend :=
  Discard { b with db := if committed then b.db ++ [⟨ts, w.pending⟩] else b.db } i w

def save : Except BackendError (Nat × BadgerBackend) :=
  match b.vmgr.Save target with
  | .error e => .error e
  | .ok (id, vmgr) => .ok (id, { b with vmgr := vmgr })

def SaveVersion : Except BackendError BadgerBackend :=
  if target = 0 then .error .invalidVersion
  else (b.save target).map Prod.snd

inductive Op where
  | reader
  | readerAt (version : Nat)
  | readWriter
  | set (writer : Nat) (key value : Bytes)
  | delete (writer : Nat) (key : Bytes)
  | commit (writer : Nat)
  | commitAt (k : Nat) (committed : Bool)
  | discard (writer : Nat)
  | saveVersion (target : Nat)
deriving DecidableEq, Repr

/-- A writer that is not in the middle of its commit. -/
def idle : Option BadgerWriter :=
  if b.committing.any (fun c => c.writer == i) then none else b.writers[i]?

def step : Op → Option BadgerBackend
  | .reader => some { b with readers := b.readers ++ [b.Reader] }
  | .readerAt version =>
    match b.ReaderAt version with
    | .error _ => some b
    | .ok ts => some { b with readers := b.readers ++ [ts] }
  | .readWriter => some b.ReadWriter
  | .set i key value => (b.idle i).map (fun w => b.bufferWrite i w key (some value))
  | .delete i key => (b.idle i).map (fun w => b.bufferWrite i w key none)
  | .commit i =>
    (b.idle i).map (fun w =>
      if w.discarded then b
      else
        { b.updateCommitTs w with
          committing := b.committing ++ [⟨i, w, (b.updateCommitTs w).vmgr.lastTs⟩] })
  | .commitAt k committed =>
    (b.committing[k]?).map (fun c =>
      CommitAt { b with committing := b.committing.eraseIdx k } c.writer c.w c.ts committed)
  | .discard i => (b.idle i).map (fun w => b.Discard i w)
  | .saveVersion target =>
    match b.SaveVersion target with
    | .error _ => some b
    | .ok b' => some b'

def commitTimestamps : List Nat :=
  b.db.map Mvcc.Commit.ts

/-- Other than the committed data and the versions. -/
def touch (tsCount : Nat) (writers : List BadgerWriter) (readers : List Nat) (openWriters : Int) :
    BadgerBackend :=
  { b with
    vmgr := { b.vmgr with tsCount := tsCount }
    writers := writers
    readers := readers
    openWriters := openWriters }

def saveAt : BadgerBackend :=
  { b with
    vmgr := { b.vmgr with
      vm := b.vmgr.vm.add target
      vmap := update b.vmgr.vmap target (some b.vmgr.lastTs) } }

inductive Effect (b : BadgerBackend) : BadgerBackend → Op → Prop
  | quiet {op : Op} (tsCount writers readers openWriters) :
      Effect b (b.touch tsCount writers readers openWriters) op
  | begun {i : Nat} (w : BadgerWriter) (hw : b.idle i = some w) (hopen : w.discarded = false) :
      Effect b { b.updateCommitTs w with
        committing := b.committing ++ [⟨i, w, (b.updateCommitTs w).vmgr.lastTs⟩] } (.commit i)
  | committed {k : Nat} {ok : Bool} (c : CommitInFlight) (hc : b.committing[k]? = some c)
      (writers openWriters) :
      Effect b (touch { b with
        db := if ok then b.db ++ [⟨c.ts, c.w.pending⟩] else b.db
        committing := b.committing.eraseIdx k }
          b.vmgr.tsCount writers b.readers openWriters) (.commitAt k ok)
  | saved {target : Nat} (hfresh : target ∉ b.vmgr.vm.versions) :
      Effect b (b.saveAt target) (.saveVersion target)

theorem Discard_touch : ∃ writers openWriters,
    b.Discard i w = b.touch b.vmgr.tsCount writers b.readers openWriters := by
  unfold Discard
  split
  · exact ⟨b.writers, b.openWriters, rfl⟩
  · exact ⟨_, _, rfl⟩

open BadgerVersionManager

theorem updateCommitTs_vm :
    (m.updateCommitTs readts).vm = m.vm ∧ (m.updateCommitTs readts).vmap = m.vmap := by
  unfold BadgerVersionManager.updateCommitTs
  split <;> exact ⟨rfl, rfl⟩

theorem lastTs_updateCommitTs (hroom : m.lastTs + 1 < 2 ^ 64) : (m.updateCommitTs readts).lastTs =
      if m.lastTs = readts then m.lastTs + 1 else m.lastTs := by
  unfold BadgerVersionManager.updateCommitTs
  split_ifs
  · exact Nat.mod_eq_of_lt hroom
  · rfl

theorem bufferWrite_effect (key : Bytes) (value : Option Bytes) (op : Op) : Effect b
    (b.bufferWrite i w key value) op := by
  unfold bufferWrite
  split <;> exact .quiet b.vmgr.tsCount _ _ _

variable {b b' : BadgerBackend} {i target readts v ts : Nat}

theorem SaveVersion_ok (hsave : b.SaveVersion target = .ok b') :
    target ∉ b.vmgr.vm.versions ∧ b' = b.saveAt target := by
  unfold SaveVersion at hsave
  split at hsave
  · cases hsave
  rename_i hne
  cases hvm : b.vmgr.vm.Save target with
  | error e =>
    simp [save, Save, hvm, Except.map] at hsave
  | ok r =>
    obtain ⟨id, vm⟩ := r
    obtain ⟨hfresh, hadd, hid⟩ := VersionManager.Save_ok hvm
    have hid := hid hne
    subst hid hadd
    simp only [save, Save, hvm, Except.map, Except.ok.injEq] at hsave
    exact ⟨hfresh, hsave.symm⟩

theorem step_effect {op : Op} (hstep : b.step op = some b') : Effect b b' op := by
  cases op with
  | readerAt version =>
    simp only [step] at hstep
    split at hstep <;> cases hstep <;> exact .quiet b.vmgr.tsCount b.writers _ b.openWriters
  | set i key value | delete i key =>
    obtain ⟨w, _, rfl⟩ := Option.map_eq_some_iff.mp hstep
    exact bufferWrite_effect b i w key _ _
  | commit i =>
    obtain ⟨w, hw, rfl⟩ := Option.map_eq_some_iff.mp hstep
    split
    · exact .quiet b.vmgr.tsCount b.writers b.readers b.openWriters
    · exact .begun w hw (by simp_all)
  | commitAt k ok =>
    obtain ⟨c, hc, rfl⟩ := Option.map_eq_some_iff.mp hstep
    obtain ⟨writers, openWriters, heq⟩ := Discard_touch { b with
      db := if ok then b.db ++ [⟨c.ts, c.w.pending⟩] else b.db
      committing := b.committing.eraseIdx k } c.writer c.w
    rw [CommitAt, heq]
    exact .committed c hc writers openWriters
  | discard i =>
    obtain ⟨w, _, rfl⟩ := Option.map_eq_some_iff.mp hstep
    obtain ⟨writers, openWriters, heq⟩ := Discard_touch b i w
    rw [heq]
    exact .quiet _ _ _ _
  | saveVersion target =>
    simp only [step] at hstep
    split at hstep
    · cases hstep
      exact .quiet b.vmgr.tsCount b.writers b.readers b.openWriters
    · rename_i b'' hsave
      cases hstep
      obtain ⟨hfresh, rfl⟩ := SaveVersion_ok hsave
      exact .saved hfresh
  | _ =>
    cases hstep
    exact .quiet _ _ _ _

structure Ordered (b : BadgerBackend) : Prop where
  increasing : b.commitTimestamps.Pairwise (· < ·)
  committed_le : ∀ c ∈ b.db, c.ts ≤ b.vmgr.lastTs
  saved_le : ∀ v ts, b.vmgr.vmap v = some ts → ts ≤ b.vmgr.lastTs
  saved_mem : ∀ v ts, b.vmgr.vmap v = some ts → v ∈ b.vmgr.vm.versions
  inFlight : ∀ c ∈ b.committing, b.committing = [c] ∧ c.ts = b.vmgr.lastTs ∧
    (∀ d ∈ b.db, d.ts < c.ts) ∧ ∀ v ts, b.vmgr.vmap v = some ts → ts < c.ts

theorem NewBadgerBackend_ordered : NewBadgerBackend.Ordered := by
  constructor <;> simp [NewBadgerBackend, commitTimestamps]

/-- A commit takes its timestamp from a writer that reads at `lastTs`, not at the last one there
is; nothing is saved and no other commit begins before it has written. -/
def CommitsInOrder (b : BadgerBackend) : Op → Prop
  | .commit i => ∀ w ∈ b.idle i, w.discarded = false →
    w.readTs = b.vmgr.lastTs ∧ b.vmgr.lastTs + 1 < 2 ^ 64 ∧ b.committing = []
  | .saveVersion _ => b.committing = []
  | _ => True

instance (b : BadgerBackend) (op : Op) : Decidable (b.CommitsInOrder op) := by
  cases op <;> dsimp only [CommitsInOrder] <;> infer_instance

theorem commitTimestamps_append {c : Mvcc.Commit Bytes Bytes}
    (hinc : b.commitTimestamps.Pairwise (· < ·)) (hlt : ∀ d ∈ b.db, d.ts < c.ts) :
    ((b.db ++ [c]).map Mvcc.Commit.ts).Pairwise (· < ·) := by
  rw [List.map_append, List.pairwise_append]
  refine ⟨hinc, List.pairwise_singleton _ _, ?_⟩
  intro x hx y hy
  obtain ⟨d, hd, rfl⟩ := List.mem_map.mp hx
  rw [List.mem_singleton.mp hy]
  exact hlt d hd

theorem ordered_step {op : Op} (hb : b.Ordered) (hok : b.CommitsInOrder op)
    (hstep : b.step op = some b') : b'.Ordered := by
  cases step_effect hstep with
  | quiet => exact ⟨hb.increasing, hb.committed_le, hb.saved_le, hb.saved_mem, hb.inFlight⟩
  | begun w hw hopen =>
    obtain ⟨hread, hroom, hnone⟩ := hok w hw hopen
    obtain ⟨hvm, hvmap⟩ := updateCommitTs_vm b.vmgr w.readTs
    have hnew := lastTs_updateCommitTs b.vmgr w.readTs hroom
    rw [if_pos hread.symm] at hnew
    have hbelow : ∀ d ∈ b.db, d.ts < b.vmgr.lastTs + 1 := fun d hd =>
      Nat.lt_succ_of_le (hb.committed_le d hd)
    refine ⟨hb.increasing, fun d hd => ?_, ?_, ?_, ?_⟩ <;>
      simp only [updateCommitTs, hvm, hvmap, hnew, hnone]
    · exact (hbelow d hd).le
    · exact fun v ts hv => Nat.le_succ_of_le (hb.saved_le v ts hv)
    · exact hb.saved_mem
    · intro c hc
      rw [List.nil_append, List.mem_singleton] at hc
      subst hc
      exact ⟨rfl, rfl, hbelow, fun v ts hv => Nat.lt_succ_of_le (hb.saved_le v ts hv)⟩
  | @committed k ok c hc =>
    obtain ⟨honly, hts, hdb, hsaved⟩ := hb.inFlight c (List.mem_of_getElem? hc)
    have hnone : b.committing.eraseIdx k = [] := by
      rw [honly] at hc ⊢
      cases k with
      | zero => rfl
      | succ k => cases hc
    refine ⟨?_, ?_, hb.saved_le, hb.saved_mem, ?_⟩
    · cases ok with
      | false => exact hb.increasing
      | true => exact commitTimestamps_append hb.increasing hdb
    · cases ok with
      | false => exact hb.committed_le
      | true =>
        intro d hd
        rcases List.mem_append.mp hd with hd | hd
        · exact hb.committed_le d hd
        · rw [List.mem_singleton.mp hd]
          exact hts.le
    · intro c' hc'
      have hmem : c' ∈ b.committing.eraseIdx k := hc'
      rw [hnone] at hmem
      cases hmem
  | @saved target hfresh =>
    have hnone : b.committing = [] := hok
    have hcase : ∀ v ts, (b.saveAt target).vmgr.vmap v = some ts →
        v = target ∧ ts = b.vmgr.lastTs ∨ b.vmgr.vmap v = some ts := by
      intro v ts hv
      change update b.vmgr.vmap target (some b.vmgr.lastTs) v = some ts at hv
      by_cases hvt : v = target
      · rw [hvt, update_self] at hv
        exact .inl ⟨hvt, (Option.some.inj hv).symm⟩
      · rw [update_of_ne hvt] at hv
        exact .inr hv
    refine ⟨hb.increasing, hb.committed_le, fun v ts hv => ?_, fun v ts hv => ?_, fun c hc => ?_⟩
    · rcases hcase v ts hv with ⟨_, rfl⟩ | hv
      · exact le_rfl
      · exact hb.saved_le v ts hv
    · rcases hcase v ts hv with ⟨rfl, _⟩ | hv
      · exact Finset.mem_insert_self _ _
      · exact Finset.mem_insert_of_mem (hb.saved_mem v ts hv)
    · have hmem : c ∈ b.committing := hc
      rw [hnone] at hmem
      cases hmem

theorem contentAt_step {op : Op} (hb : b.Ordered) (hstep : b.step op = some b')
    (hv : b.vmgr.vmap v = some ts) :
    b'.vmgr.vmap v = some ts ∧ b'.content ts = b.content ts := by
  cases step_effect hstep with
  | quiet => exact ⟨hv, rfl⟩
  | begun w => exact ⟨by rw [← hv]; exact congrFun (updateCommitTs_vm b.vmgr w.readTs).2 v, rfl⟩
  | @committed k ok c hc =>
    refine ⟨hv, ?_⟩
    cases ok with
    | false => rfl
    | true =>
      obtain ⟨_, _, _, hsaved⟩ := hb.inFlight c (List.mem_of_getElem? hc)
      exact Mvcc.readAt_append_of_lt (hsaved v ts hv) b.db
  | @saved target hfresh =>
    have hvt : v ≠ target := by
      rintro rfl
      exact hfresh (hb.saved_mem v ts hv)
    exact ⟨(update_of_ne hvt _ _).trans hv, rfl⟩

theorem contentAt_of_vmap (hv : b.vmgr.vmap v = some ts) : b.contentAt v = .ok (b.content ts) := by
  simp [contentAt, ReaderAt, versionTs, hv, Except.map]

theorem ordered_run {ops : List Op} (hb : b.Ordered) (hok : Along step CommitsInOrder b ops)
    (hrun : ops.foldlM step b = some b') : b'.Ordered :=
  run_invariant_along (fun _ _ _ => ordered_step) hb hok hrun

theorem contentAt_run {ops : List Op} (hb : b.Ordered) (hok : Along step CommitsInOrder b ops)
    (hrun : ops.foldlM step b = some b') (hv : b.vmgr.vmap v = some ts) :
    b'.contentAt v = b.contentAt v := by
  have hinv : b'.Ordered ∧ b'.vmgr.vmap v = some ts ∧ b'.content ts = b.content ts := by
    have hkeep :
        ∀ s op s',
          (Ordered s ∧ s.vmgr.vmap v = some ts ∧ s.content ts = b.content ts) →
          CommitsInOrder s op → step s op = some s' →
          (Ordered s' ∧ s'.vmgr.vmap v = some ts ∧ s'.content ts = b.content ts) := by
      rintro s op s' ⟨hs, hsv, hsc⟩ hok hstep
      obtain ⟨hv', hc'⟩ := contentAt_step hs hstep hsv
      exact ⟨ordered_step hs hok hstep, hv', hc'.trans hsc⟩
    exact run_invariant_along hkeep ⟨hb, hv, rfl⟩ hok hrun
  obtain ⟨_, hv', hc'⟩ := hinv
  rw [contentAt_of_vmap hv', contentAt_of_vmap hv, hc']

/-- `SaveVersion(v)` returns after `before`; through `after`, commit timestamps increase and
`ReaderAt(v)` reads the same. -/
def SnapshotStable (before : List Op) (v : Nat) (after : List Op) : Prop :=
  ∀ b b₁ b₂,
    before.foldlM step b₀ = some b →
    b.SaveVersion v = .ok b₁ →
    after.foldlM step b₁ = some b₂ →
    b₂.commitTimestamps.Pairwise (· < ·) ∧ b₂.contentAt v = b₁.contentAt v

/-- **Snapshots are stable in every run whose commits come in order**, one after the other and with
nothing saved in the middle of one. -/
theorem snapshotStable_of_commitsInOrder (hb₀ : b₀.Ordered) (before : List Op) (v : Nat)
    (after : List Op) (hok : Along step CommitsInOrder b₀ (before ++ .saveVersion v :: after)) :
    SnapshotStable b₀ before v after := by
  intro b b₁ b₂ hbefore hsave hafter
  obtain ⟨hok₀, hok₁⟩ := along_append hok hbefore
  have hstep : b.step (.saveVersion v) = some b₁ := by simp [step, hsave]
  have hb : b.Ordered := ordered_run hb₀ hok₀ hbefore
  have hb₁ : b₁.Ordered := ordered_step hb hok₁.1 hstep
  have hok₂ : Along step CommitsInOrder b₁ after := hok₁.2 b₁ hstep
  obtain ⟨ts, hts⟩ : ∃ ts, b₁.vmgr.vmap v = some ts := by
    obtain ⟨_, rfl⟩ := SaveVersion_ok hsave
    exact ⟨_, update_self _ _ _⟩
  exact ⟨(ordered_run hb₁ hok₂ hafter).increasing, contentAt_run hb₁ hok₂ hafter hts⟩

theorem snapshotStable_two_commits :
    SnapshotStable NewBadgerBackend
      [.readWriter, .set 0 [1] [10], .commit 0, .commitAt 0 true] 1
      [.readWriter, .set 1 [1] [20], .commit 1, .commitAt 0 true] :=
  snapshotStable_of_commitsInOrder NewBadgerBackend NewBadgerBackend_ordered _ _ _
    (along_of_check (fun _ _ => of_decide_eq_true) (by decide))

/-- The second writer is discarded, so the third commits to the timestamp of version 1; and a
version is saved in the middle of the commit that then writes at its timestamp. -/
theorem snapshotStable_fails_after_discard :
    ¬ SnapshotStable NewBadgerBackend
        [.readWriter, .set 0 [1] [10], .commit 0, .commitAt 0 true] 1
        [.readWriter, .discard 1, .readWriter, .set 2 [1] [20], .commit 2, .commitAt 0 true] ∧
      ¬ SnapshotStable NewBadgerBackend [.readWriter, .set 0 [1] [10], .commit 0] 1
        [.commitAt 0 true] := by
  constructor
  · intro h
    obtain ⟨hinc, _⟩ := h _ _ _ rfl rfl rfl
    exact absurd hinc (by decide)
  · intro h
    obtain ⟨_, hcontent⟩ := h _ _ _ rfl rfl rfl
    exact absurd (congrFun (Except.ok.inj hcontent) [1]) (by decide)

/-- A call of `Commit` of a store: the backend before it, the outcome of `CommitAt`, and what others
do before it writes, before the versions are read and before the version is saved. The timestamps
do not wrap. -/
structure CommitCall where
  before : BadgerBackend
  i : Nat
  w : BadgerWriter
  committed : Bool
  (beforeCommitAt beforeRead beforeSave : List Op)
  (locked read saved : BadgerBackend)
  hw : before.writers[i]? = some w
  hlocked : beforeCommitAt.foldlM step (before.updateCommitTs w) = some locked
  hread : beforeRead.foldlM step (if w.discarded then before
    else locked.CommitAt i w (before.updateCommitTs w).vmgr.lastTs committed) = some read
  hsaved : beforeSave.foldlM step read = some saved
  hroom : before.vmgr.lastTs + 1 + beforeCommitAt.length + beforeRead.length + beforeSave.length <
    2 ^ 64

namespace CommitCall

variable (c : CommitCall)

def newVersion : Nat := c.read.vmgr.vm.next

def after : BadgerBackend :=
  match c.saved.SaveVersion c.newVersion with
  | .error _ => c.saved
  | .ok b => b

def stateStoreCommit (backendR : Bool) : Except String Unit × BadgerBackend :=
  if backendR then (.error "Can't commit because of read only state store", c.before)
  else (.ok (), c.after)

def metaStoreCommit : Except String Unit × BadgerBackend := (.ok (), c.after)

def Committed : Prop := c.w.discarded = false ∧ c.committed = true

/-- A new version, at a timestamp that shows a commit of the writes. -/
def Shown (b : BadgerBackend) : Prop :=
  c.newVersion ∉ c.saved.vmgr.vm.versions ∧ c.newVersion ∈ b.vmgr.vm.versions ∧
    ∃ commit ∈ b.db, commit.writes = c.w.pending ∧
      ∃ ts, b.vmgr.vmap c.newVersion = some ts ∧ commit.ts ≤ ts

/-- Nil only when the writes were committed and a new version shows them; with an error there is no
new version. -/
def Honest (result : Except String Unit × BadgerBackend) : Prop :=
  match result.1 with
  | .ok _ => c.Committed ∧ c.Shown result.2
  | .error _ => result.2.vmgr.vm = c.before.vmgr.vm

variable {c}

theorem db_step {b b' : BadgerBackend} {op : Op} {commit : Mvcc.Commit Bytes Bytes}
    (hb : commit ∈ b.db) (hstep : b.step op = some b') : commit ∈ b'.db := by
  cases step_effect hstep with
  | @committed k ok =>
    cases ok with
    | false => exact hb
    | true => exact List.mem_append_left _ hb
  | _ => exact hb

theorem lastTs_run {b b' : BadgerBackend} {ops : List Op}
    (hroom : b.vmgr.lastTs + ops.length < 2 ^ 64) (hrun : ops.foldlM step b = some b') :
    b.vmgr.lastTs ≤ b'.vmgr.lastTs ∧ b'.vmgr.lastTs ≤ b.vmgr.lastTs + ops.length := by
  induction ops generalizing b with
  | nil =>
    cases hrun
    exact ⟨le_rfl, le_rfl⟩
  | cons op ops ih =>
    obtain ⟨b₁, hstep, hrest⟩ := run_cons_success hrun
    rw [List.length_cons] at hroom ⊢
    have hfirst : b.vmgr.lastTs ≤ b₁.vmgr.lastTs ∧ b₁.vmgr.lastTs ≤ b.vmgr.lastTs + 1 := by
      cases step_effect hstep with
      | begun w =>
        simp only [updateCommitTs, lastTs_updateCommitTs b.vmgr w.readTs (by omega)]
        split_ifs <;> omega
      | _ => exact ⟨le_rfl, Nat.le_succ _⟩
    have hlater := ih (by omega) hrest
    omega

theorem commit_saved (hcommitted : c.Committed) :
    ∃ commit ∈ c.saved.db, commit.writes = c.w.pending ∧ commit.ts ≤ c.saved.vmgr.lastTs := by
  obtain ⟨hopen, hok⟩ := hcommitted
  have hroom := c.hroom
  have hread := c.hread
  rw [hopen, hok, if_neg Bool.false_ne_true] at hread
  have htaken := lastTs_updateCommitTs c.before.vmgr c.w.readTs (by omega)
  have hle : (c.before.updateCommitTs c.w).vmgr.lastTs ≤ c.before.vmgr.lastTs + 1 := by
    rw [updateCommitTs, htaken]
    split_ifs <;> omega
  have hlocked := lastTs_run (by omega) c.hlocked
  have hwritten : (c.locked.CommitAt c.i c.w (c.before.updateCommitTs c.w).vmgr.lastTs true).vmgr =
      c.locked.vmgr := by
    obtain ⟨_, _, heq⟩ := Discard_touch { c.locked with
      db := c.locked.db ++ [⟨(c.before.updateCommitTs c.w).vmgr.lastTs, c.w.pending⟩] } c.i c.w
    rw [CommitAt, if_pos rfl, heq]
    rfl
  have hread' := lastTs_run (by rw [hwritten]; omega) hread
  rw [hwritten] at hread'
  have hsaved := lastTs_run (by omega) c.hsaved
  refine ⟨⟨(c.before.updateCommitTs c.w).vmgr.lastTs, c.w.pending⟩, ?_, rfl, ?_⟩
  · refine run_invariant (fun _ _ _ => db_step) (run_invariant (fun _ _ _ => db_step) ?_ hread)
      c.hsaved
    simp [CommitAt, Discard, hopen]
  · show (c.before.updateCommitTs c.w).vmgr.lastTs ≤ _
    omega

theorem shown_iff (hcommitted : c.Committed) :
    c.Shown c.after ↔ ∃ b, c.saved.SaveVersion c.newVersion = .ok b := by
  unfold Shown after
  cases hsave : c.saved.SaveVersion c.newVersion with
  | error err => exact iff_of_false (fun h => h.1 h.2.1) fun ⟨_, h⟩ => by cases h
  | ok b =>
    refine iff_of_true ?_ ⟨b, rfl⟩
    obtain ⟨hfresh, rfl⟩ := SaveVersion_ok hsave
    obtain ⟨commit, hmem, hwrites, hts⟩ := commit_saved hcommitted
    exact ⟨hfresh, Finset.mem_insert_self _ _, commit, hmem, hwrites, _, update_self _ _ _, hts⟩

/-- **When `Commit` of a store is honest**: the outcome of the backend is never reported, so unless
the store is read only, exactly when both calls succeed. -/
theorem commit_honest_iff (c : CommitCall) (backendR : Bool) :
    (c.Honest (c.stateStoreCommit backendR) ↔
        backendR = true ∨ c.Committed ∧ ∃ b, c.saved.SaveVersion c.newVersion = .ok b) ∧
      (c.Honest c.metaStoreCommit ↔
        c.Committed ∧ ∃ b, c.saved.SaveVersion c.newVersion = .ok b) := by
  have hwritable : c.Honest (.ok (), c.after) ↔
      c.Committed ∧ ∃ b, c.saved.SaveVersion c.newVersion = .ok b :=
    and_congr_right shown_iff
  refine ⟨?_, hwritable⟩
  cases backendR with
  | true => exact iff_of_true rfl (.inl rfl)
  | false => simpa [stateStoreCommit] using hwritable

/-- A second `Commit` returns nil and makes a second version; a failed `CommitAt` makes a first
one. -/
theorem second_commit_returns_nil :
    (∃ c : CommitCall, c.w.discarded = true ∧ c.stateStoreCommit false = (.ok (), c.after) ∧
        c.saved.vmgr.vm.versions = {1} ∧ c.after.vmgr.vm.versions = {1, 2}) ∧
      ∃ c : CommitCall, c.committed = false ∧ c.w.pending = [([1], some [10])] ∧
        c.stateStoreCommit false = (.ok (), c.after) ∧ c.after.vmgr.vm.versions = {1} ∧
        c.after.db = [] := by
  let opened := NewBadgerBackend.ReadWriter.bufferWrite 0 ⟨0, [], false⟩ [1] (some [10])
  let failed : CommitCall := ⟨opened, 0, ⟨0, [([1], some [10])], false⟩, false, [], [], [], _, _, _,
    rfl, rfl, rfl, rfl, by decide⟩
  let second : CommitCall := ⟨failed.after, 0, ⟨0, [([1], some [10])], true⟩, true, [], [], [],
    _, _, _, rfl, rfl, rfl, rfl, by decide⟩
  exact ⟨⟨second, rfl, rfl, by decide, by decide⟩, failed, rfl, rfl, rfl, by decide, rfl⟩

end CommitCall

end BadgerBackend

end Topia.Ledger
