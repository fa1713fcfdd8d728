import Topia.Common
import Topia.Ledger.VersionSet

/-!
# The in-memory backend

`ledger/backend/memdb/backend.go`: the content is a B-tree, a saved version is a reference to the
tree of that moment, and a writer works on a copy-on-write clone that replaces the tree of the
database when it commits. Trees are changed in place.

A run records the content of a version when it was saved, what a reader saw when it was opened, and
the base and the writes of every writer.
-/

namespace Topia.Ledger

open Lib

abbrev BTree := Std.ExtTreeMap Bytes Bytes compare

abbrev TreePtr := Option Nat

inductive MemDBError where
  | transactionClosed
  | keyEmpty
  | valueNil
  | versionDoesNotExist
  | openTransactions
  | invalidVersion
  | badVersionHistory (last : Nat)
  | save (e : BackendError)
deriving DecidableEq, Repr

def wrap32 (n : Int) : Int :=
  n.bmod (2 ^ 32)

def ValidateKv (key : Bytes) (value : Option Bytes) : Except MemDBError Bytes :=
  if key = [] then .error .keyEmpty
  else
    match value with
    | none => .error .valueNil
    | some v => .ok v

structure MemDBBackend where
  trees : List BTree
  btree : TreePtr
  saved : Nat → Option TreePtr
  vmgr : VersionManager
  openWriters : Int

open Function

namespace MemDBBackend

def NewMemDBBackend : MemDBBackend where
  trees := [∅]
  btree := some 0
  saved := fun _ => none
  vmgr := VersionManager.NewVersionManager []
  openWriters := 0

variable (m : MemDBBackend) (target : Nat) (tree : TreePtr) (key : Bytes)

def content : Option BTree :=
  tree.bind fun p => m.trees[p]?

def Reader : TreePtr :=
  m.btree

def ReaderAt (version : Nat) : Except MemDBError TreePtr :=
  match m.saved version with
  | none => .error .versionDoesNotExist
  | some tree => .ok tree

def ReadWriter : Option (MemDBBackend × TreePtr) :=
  (m.content m.btree).map fun tree =>
    ({ m with
        trees := m.trees ++ [tree]
        openWriters := wrap32 (m.openWriters + 1) }, some m.trees.length)

def save (m : MemDBBackend) (target : Nat) : Except MemDBError (Nat × MemDBBackend) :=
  if m.openWriters > 0 then .error .openTransactions
  else
    match m.vmgr.Copy.Save target with
    | .error e => .error (.save e)
    | .ok (target, newVmgr) =>
      .ok (target, { m with
        saved := update m.saved target (some m.btree)
        vmgr := newVmgr })

def SaveNextVersion : Except MemDBError (Nat × MemDBBackend) :=
  m.save 0

def SaveVersion : Except MemDBError (Nat × MemDBBackend) :=
  if target = 0 then .error .invalidVersion else m.save target

def DeleteVersion : Except MemDBError MemDBBackend :=
  match m.saved target with
  | none => .error .versionDoesNotExist
  | some _ =>
    .ok { m with
      saved := update m.saved target none
      vmgr := m.vmgr.Copy.Delete target }

/-- `Revert`. The tree is assigned before the check, so the error leaves a nil tree. -/
def Revert : MemDBBackend × Option MemDBError :=
  if m.openWriters > 0 then (m, some .openTransactions)
  else
    let last := m.vmgr.Last
    if last = 0 then
      ({ m with trees := m.trees ++ [∅], btree := some m.trees.length }, none)
    else
      match m.saved last with
      | none => ({ m with btree := none }, some (.badVersionHistory last))
      | some tree =>
        ({ m with
            btree := tree
            saved := fun ver => if last < ver then none else m.saved ver }, none)

def Get : Except MemDBError (Option Bytes) :=
  match m.content tree with
  | none => .error .transactionClosed
  | some t => if key = [] then .error .keyEmpty else .ok t[key]?

def Has : Except MemDBError Bool :=
  match m.content tree with
  | none => .error .transactionClosed
  | some t => if key = [] then .error .keyEmpty else .ok (t.contains key)

def Set (value : Option Bytes) : Except MemDBError MemDBBackend :=
  match tree with
  | none => .error .transactionClosed
  | some p => do
      let v ← ValidateKv key value
      .ok { m with trees := m.trees.modify p (·.insert key v) }

def Delete : Except MemDBError MemDBBackend :=
  match tree with
  | none => .error .transactionClosed
  | some p =>
    if key = [] then .error .keyEmpty
    else .ok { m with trees := m.trees.modify p (·.erase key) }

def Discard : MemDBBackend × TreePtr :=
  match tree with
  | none => (m, none)
  | some _ => ({ m with openWriters := wrap32 (m.openWriters - 1) }, none)

def Commit : Except MemDBError (MemDBBackend × TreePtr) :=
  match tree with
  | none => .error .transactionClosed
  | some p => .ok (Discard { m with btree := some p } (some p))

end MemDBBackend

/-- A writer: its tree, the content it was opened on, and its writes, latest first (`none`
deletes). -/
structure MemDBWriter where
  tree : TreePtr
  base : BTree
  writes : List (Bytes × Option Bytes)

def MemDBWriter.view (w : MemDBWriter) (key : Bytes) : Option Bytes :=
  (w.writes.lookup key).getD w.base[key]?

/-- A database and its handles. A reader stands with what it saw when opened; `history` has the
content of every saved version, `commits` the writers since the last revert, latest first. -/
structure MemDBRun where
  db : MemDBBackend
  writers : List MemDBWriter
  readers : List (TreePtr × Option BTree)
  history : Nat → Option BTree
  commits : List Nat

namespace MemDBRun

inductive Op where
  | reader
  | readerAt (version : Nat)
  | discardReader (i : Nat)
  | readWriter
  | set (i : Nat) (key : Bytes) (value : Option Bytes)
  | delete (i : Nat) (key : Bytes)
  | commit (i : Nat)
  | discard (i : Nat)
  | saveNextVersion
  | saveVersion (target : Nat)
  | deleteVersion (target : Nat)
  | revert
deriving DecidableEq, Repr

open MemDBBackend

def start : MemDBRun where
  db := NewMemDBBackend
  writers := []
  readers := []
  history := fun _ => none
  commits := []

variable (s : MemDBRun)

def current : Option BTree :=
  s.db.content s.db.Reader

def openReader (tree : TreePtr) : MemDBRun :=
  { s with readers := s.readers ++ [(tree, s.db.content tree)] }

def write (i : Nat) (w : MemDBWriter) (key : Bytes) (value : Option Bytes) :
    Except MemDBError MemDBBackend → MemDBRun
  | .error _ => s
  | .ok db =>
    { s with
      db := db
      writers := s.writers.set i { w with writes := (key, value) :: w.writes } }

def saved : Except MemDBError (Nat × MemDBBackend) → MemDBRun
  | .error _ => s
  | .ok (version, db) =>
    { s with db := db, history := update s.history version s.current }

def step : Op → Option MemDBRun
  | .reader => some (s.openReader s.db.Reader)
  | .readerAt version =>
    match s.db.ReaderAt version with
    | .error _ => some s
    | .ok tree => some (s.openReader tree)
  | .discardReader i =>
    s.readers[i]?.map fun r => { s with readers := s.readers.set i (none, r.2) }
  | .readWriter => do
      let base ← s.current
      let (db, tree) ← s.db.ReadWriter
      some
        { s with db := db, writers := s.writers ++ [{ tree := tree, base := base, writes := [] }] }
  | .set i key value =>
    s.writers[i]?.map fun w => s.write i w key value (s.db.Set w.tree key value)
  | .delete i key =>
    s.writers[i]?.map fun w => s.write i w key none (s.db.Delete w.tree key)
  | .commit i =>
    s.writers[i]?.map fun w =>
      match s.db.Commit w.tree with
      | .error _ => s
      | .ok (db, tree) =>
        { s with
          db := db
          writers := s.writers.set i { w with tree := tree }
          commits := i :: s.commits }
  | .discard i =>
    s.writers[i]?.map fun w =>
      let (db, tree) := s.db.Discard w.tree
      { s with db := db, writers := s.writers.set i { w with tree := tree } }
  | .saveNextVersion => some (s.saved s.db.SaveNextVersion)
  | .saveVersion target => some (s.saved (s.db.SaveVersion target))
  | .deleteVersion target =>
    match s.db.DeleteVersion target with
    | .error _ => some s
    | .ok db => some { s with db := db }
  | .revert =>
    let (db, err) := s.db.Revert
    some { s with db := db, commits := if err = none then [] else s.commits }

open List

section Heap

variable {s s' : MemDBRun} {op : Op} {p i : Nat} {w : MemDBWriter} {tree : TreePtr} {t : BTree}

def Owned (s : MemDBRun) (p : Nat) : Prop :=
  ∃ w ∈ s.writers, w.tree = some p

def Shows (s : MemDBRun) (tree : TreePtr) (t : BTree) : Prop :=
  ∃ p, tree = some p ∧ s.db.trees[p]? = some t ∧ ¬ s.Owned p

theorem content_of_shows (hshows : s.Shows tree t) : s.db.content tree = some t := by
  obtain ⟨p, rfl, htree, _⟩ := hshows
  exact htree

def Frame (s s' : MemDBRun) : Prop :=
  ∀ p t, s.db.trees[p]? = some t → ¬ s.Owned p → s'.db.trees[p]? = some t ∧ ¬ s'.Owned p

theorem Frame.shows (hframe : Frame s s') (hshows : s.Shows tree t) : s'.Shows tree t := by
  obtain ⟨p, rfl, htree, howned⟩ := hshows
  obtain ⟨htree', howned'⟩ := hframe p t htree howned
  exact ⟨p, rfl, htree', howned'⟩

theorem frame_of_prefix (htrees : s.db.trees <+: s'.db.trees)
    (howned : ∀ p, s'.Owned p → s.Owned p ∨ s.db.trees[p]? = none) : Frame s s' := by
  intro p t htree hfree
  obtain ⟨rest, hrest⟩ := htrees
  constructor
  · rw [← hrest, List.getElem?_append_left (List.getElem?_eq_some_iff.mp htree).1]
    exact htree
  · intro hp
    rcases howned p hp with hp | hp
    · exact hfree hp
    · rw [hp] at htree
      cases htree

theorem frame_of_modify {f : BTree → BTree} (htrees : s'.db.trees = s.db.trees.modify i f)
    (hi : s.Owned i) (howned : ∀ p, s'.Owned p → s.Owned p) : Frame s s' := by
  intro p t htree hfree
  have hne : i ≠ p := fun heq => hfree (heq ▸ hi)
  refine ⟨?_, fun hp => hfree (howned p hp)⟩
  rw [htrees, getElem?_modify, htree]
  simp [hne]

theorem owned_of_set {w' : MemDBWriter} (hw : s.writers[i]? = some w)
    (hwriters : s'.writers = s.writers.set i w') (htree : w'.tree = w.tree ∨ w'.tree = none)
    (howned : s'.Owned p) : s.Owned p := by
  obtain ⟨v, hv, hvp⟩ := howned
  rw [hwriters] at hv
  rcases mem_or_eq_of_mem_set hv with hv | rfl
  · exact ⟨v, hv, hvp⟩
  · rcases htree with htree | htree
    · exact ⟨w, mem_of_getElem? hw, htree ▸ hvp⟩
    · rw [htree] at hvp
      cases hvp

end Heap

section Calls

variable {s s' : MemDBRun} {op : Op} {i : Nat} {w : MemDBWriter}

inductive Change (s : MemDBRun) : Op → MemDBRun → Prop where
  | refused (op : Op) : Change s op s
  | read (op : Op) (readers : List (TreePtr × Option BTree))
      (hreaders : ∀ r ∈ readers, r ∈ s.readers ∨ r.1 = none ∨ r.2 = s.db.content r.1 ∧
        (r.1 = s.db.btree ∨ ∃ ver, s.db.saved ver = some r.1)) :
      Change s op { s with readers := readers }
  | opened (base : BTree) (hbase : s.current = some base) :
      Change s .readWriter
        { s with
          db := { s.db with
            trees := s.db.trees ++ [base]
            openWriters := wrap32 (s.db.openWriters + 1) }
          writers := s.writers ++ [{ tree := some s.db.trees.length, base := base, writes := [] }] }
  | wrote (op : Op) (i p : Nat) (w : MemDBWriter) (f : BTree → BTree) (key : Bytes)
      (value : Option Bytes) (hw : s.writers[i]? = some w) (hp : w.tree = some p)
      (hkey : key ≠ [])
      (hf : ∀ (t : BTree) (k : Bytes), (f t)[k]? = if k = key then value else t[k]?) :
      Change s op
        { s with
          db := { s.db with trees := s.db.trees.modify p f }
          writers := s.writers.set i { w with writes := (key, value) :: w.writes } }
  | discarded (i p : Nat) (w : MemDBWriter) (hw : s.writers[i]? = some w)
      (hp : w.tree = some p) :
      Change s (.discard i)
        { s with
          db := { s.db with openWriters := wrap32 (s.db.openWriters - 1) }
          writers := s.writers.set i { w with tree := none } }
  | committed (i p : Nat) (w : MemDBWriter) (hw : s.writers[i]? = some w)
      (hp : w.tree = some p) :
      Change s (.commit i)
        { s with
          db := { s.db with btree := some p, openWriters := wrap32 (s.db.openWriters - 1) }
          writers := s.writers.set i { w with tree := none }
          commits := i :: s.commits }
  | saved (op : Op) (target version : Nat) (vm : VersionManager)
      (hop : op = .saveVersion target ∨ op = .saveNextVersion ∧ target = 0)
      (hsave : s.db.vmgr.Save target = .ok (version, vm)) :
      Change s op
        { s with
          db := { s.db with
            saved := update s.db.saved version (some s.db.btree), vmgr := vm }
          history := update s.history version s.current }
  | deleted (target : Nat) (hsaved : s.db.saved target ≠ none) :
      Change s (.deleteVersion target)
        { s with
          db := { s.db with
            saved := update s.db.saved target none
            vmgr := s.db.vmgr.Delete target } }
  | reverted :
      Change s .revert
        { s with
          db := s.db.Revert.1
          commits := if s.db.Revert.2 = none then [] else s.commits }

theorem change_Set (op : Op) (hw : s.writers[i]? = some w) (key : Bytes) (value : Option Bytes) :
    Change s op (s.write i w key value (s.db.Set w.tree key value)) := by
  cases htree : w.tree with
  | none => exact .refused op
  | some p =>
    by_cases hkey : key = []
    · simp only [MemDBBackend.Set, ValidateKv, if_pos hkey]
      exact .refused op
    cases value with
    | none =>
      simp only [MemDBBackend.Set, ValidateKv, if_neg hkey]
      exact .refused op
    | some v =>
      simp only [MemDBBackend.Set, ValidateKv, if_neg hkey]
      refine .wrote op i p w (·.insert key v) key (some v) hw htree hkey ?_
      intro t k
      simp [Std.ExtTreeMap.getElem?_insert, eq_comm (a := k)]

theorem change_Delete (op : Op) (hw : s.writers[i]? = some w) (key : Bytes) :
    Change s op (s.write i w key none (s.db.Delete w.tree key)) := by
  cases htree : w.tree with
  | none => exact .refused op
  | some p =>
    by_cases hkey : key = []
    · simp only [Delete, if_pos hkey]
      exact .refused op
    · simp only [Delete, if_neg hkey]
      refine .wrote op i p w (·.erase key) key none hw htree hkey ?_
      intro t k
      simp [Std.ExtTreeMap.getElem?_erase, eq_comm (a := k)]

theorem change_save {target : Nat}
    (hop : op = .saveVersion target ∨ op = .saveNextVersion ∧ target = 0) :
    Change s op (s.saved (s.db.save target)) := by
  unfold save
  split
  · exact .refused op
  · split
    · exact .refused op
    · exact .saved op target _ _ hop ‹_›

theorem change_openReader (op : Op) {tree : TreePtr}
    (htree : tree = s.db.btree ∨ ∃ ver, s.db.saved ver = some tree) :
    Change s op (s.openReader tree) := by
  refine .read op _ fun r hr => ?_
  rcases mem_append.mp hr with hr | hr
  · exact .inl hr
  · rw [mem_singleton.mp hr]
    exact .inr (.inr ⟨rfl, htree⟩)

theorem change_Discard (hw : s.writers[i]? = some w) :
    Change s (.discard i)
      { s with
        db := (s.db.Discard w.tree).1
        writers := s.writers.set i { w with tree := (s.db.Discard w.tree).2 } } := by
  cases htree : w.tree with
  | none =>
    have hsame : s.writers.set i { w with tree := none } = s.writers := by
      obtain ⟨hi, rfl⟩ := List.getElem?_eq_some_iff.mp hw
      rw [← htree]
      exact List.set_getElem_self hi
    simp only [Discard, hsame]
    exact .refused _
  | some p => exact .discarded i p w hw htree

theorem change_of_step (hstep : step s op = some s') : Change s op s' := by
  cases op with
  | reader =>
    cases hstep
    exact change_openReader _ (.inl rfl)
  | readerAt version =>
    cases hsaved : s.db.saved version with
    | none =>
      simp only [step, ReaderAt, hsaved] at hstep
      cases hstep
      exact .refused _
    | some tree =>
      simp only [step, ReaderAt, hsaved] at hstep
      cases hstep
      exact change_openReader _ (.inr ⟨version, hsaved⟩)
  | discardReader i =>
    obtain ⟨r, _, rfl⟩ := Option.map_eq_some_iff.mp hstep
    refine .read _ _ fun r' hr' => ?_
    rcases mem_or_eq_of_mem_set hr' with hr' | rfl
    · exact .inl hr'
    · exact .inr (.inl rfl)
  | readWriter =>
    obtain ⟨base, hbase, hstep⟩ := Option.bind_eq_some_iff.mp hstep
    have hcontent : s.db.content s.db.btree = some base := hbase
    simp only [ReadWriter, hcontent] at hstep
    cases hstep
    exact .opened base hbase
  | set i key value =>
    obtain ⟨w, hw, rfl⟩ := Option.map_eq_some_iff.mp hstep
    exact change_Set _ hw key value
  | delete i key =>
    obtain ⟨w, hw, rfl⟩ := Option.map_eq_some_iff.mp hstep
    exact change_Delete _ hw key
  | commit i =>
    obtain ⟨w, hw, rfl⟩ := Option.map_eq_some_iff.mp hstep
    cases htree : w.tree with
    | none => exact .refused _
    | some p => exact .committed i p w hw htree
  | discard i =>
    obtain ⟨w, hw, rfl⟩ := Option.map_eq_some_iff.mp hstep
    exact change_Discard hw
  | saveNextVersion =>
    cases hstep
    exact change_save (.inr ⟨rfl, rfl⟩)
  | saveVersion target =>
    cases hstep
    unfold SaveVersion
    split
    · exact .refused _
    · exact change_save (.inl rfl)
  | deleteVersion target =>
    cases hsaved : s.db.saved target with
    | none =>
      simp only [step, DeleteVersion, hsaved] at hstep
      cases hstep
      exact .refused _
    | some tree =>
      simp only [step, DeleteVersion, hsaved] at hstep
      cases hstep
      exact .deleted target (by simp [hsaved])
  | revert =>
    cases hstep
    exact .reverted

end Calls

section Trees

variable {s s' : MemDBRun} {op : Op} {i j : Nat} {w v : MemDBWriter}

theorem prefix_Revert (m : MemDBBackend) : m.trees <+: m.Revert.1.trees := by
  unfold Revert
  split
  · exact prefix_rfl
  dsimp only
  split
  · exact prefix_append _ _
  · split
    · exact prefix_rfl
    · exact prefix_rfl

theorem openWriters_Revert (m : MemDBBackend) : m.Revert.1.openWriters = m.openWriters := by
  unfold Revert
  split
  · rfl
  dsimp only
  split
  · rfl
  · split
    · rfl
    · rfl

theorem frame_of_change (hchange : Change s op s') : Frame s s' := by
  cases hchange with
  | refused | read | saved | deleted =>
    exact frame_of_prefix prefix_rfl fun _ hp => .inl hp
  | reverted => exact frame_of_prefix (prefix_Revert s.db) fun _ hp => .inl hp
  | opened base hbase =>
    refine frame_of_prefix (prefix_append _ _) fun p hp => ?_
    obtain ⟨v, hv, hvp⟩ := hp
    rcases mem_append.mp hv with hv | hv
    · exact .inl ⟨v, hv, hvp⟩
    · rw [mem_singleton.mp hv] at hvp
      cases hvp
      exact .inr (getElem?_eq_none (Nat.le_refl _))
  | wrote _ i p w f key value hw hp hkey hf =>
    refine frame_of_modify rfl ⟨w, mem_of_getElem? hw, hp⟩ fun _ howned => ?_
    refine owned_of_set hw rfl ?_ howned
    exact .inl rfl
  | discarded i p w hw hp | committed i p w hw hp =>
    exact frame_of_prefix prefix_rfl
      fun _ howned => .inl (owned_of_set hw rfl (.inr rfl) howned)

/-- Every open writer has its own tree, with its writes on the content it was opened on. -/
structure Heap (s : MemDBRun) : Prop where
  unique : ∀ (i j : Nat) (wi wj : MemDBWriter) (p : Nat), s.writers[i]? = some wi →
    s.writers[j]? = some wj → wi.tree = some p → wj.tree = some p → i = j
  written : ∀ (i : Nat) (w : MemDBWriter) (p : Nat), s.writers[i]? = some w → w.tree = some p →
    ∃ t, s.db.trees[p]? = some t ∧ ∀ key, t[key]? = w.view key

theorem getElem?_set_some {w' : MemDBWriter} (hv : (s.writers.set i w')[j]? = some v) :
    (j = i ∧ v = w') ∨ (j ≠ i ∧ s.writers[j]? = some v) := by
  rw [getElem?_set] at hv
  split_ifs at hv with heq
  · cases hv
    exact .inl ⟨heq.symm, rfl⟩
  · exact .inr ⟨fun h => heq h.symm, hv⟩

theorem heap_of_close (hheap : Heap s)
    (hwriters : s'.writers = s.writers.set i { w with tree := none })
    (htrees : s'.db.trees = s.db.trees) : Heap s' := by
  have hopen : ∀ {j p : Nat} {v : MemDBWriter}, s'.writers[j]? = some v → v.tree = some p →
      s.writers[j]? = some v := by
    intro j p v hv hvp
    rw [hwriters] at hv
    rcases getElem?_set_some hv with ⟨_, rfl⟩ | ⟨_, hv⟩
    · cases hvp
    · exact hv
  constructor
  · intro j k wj wk p hj hk hjp hkp
    exact hheap.unique j k wj wk p (hopen hj hjp) (hopen hk hkp) hjp hkp
  · intro j v p hv hvp
    rw [htrees]
    exact hheap.written j v p (hopen hv hvp) hvp

theorem heap_of_open {base : BTree} {openWriters : Int} (hheap : Heap s)
    (hv : v = { tree := some s.db.trees.length, base := base, writes := [] }) :
    Heap { s with
      db := { s.db with trees := s.db.trees ++ [base], openWriters := openWriters }
      writers := s.writers ++ [v] } := by
  have hbound : ∀ {j p : Nat} {w : MemDBWriter}, s.writers[j]? = some w → w.tree = some p →
      p < s.db.trees.length := by
    intro j p w hw hp
    obtain ⟨t, ht, _⟩ := hheap.written j w p hw hp
    exact (List.getElem?_eq_some_iff.mp ht).1
  have hcases : ∀ {j : Nat} {w : MemDBWriter}, (s.writers ++ [v])[j]? = some w →
      s.writers[j]? = some w ∨ j = s.writers.length ∧ w = v := by
    intro j w hw
    rcases Nat.lt_or_ge j s.writers.length with hlt | hge
    · rw [List.getElem?_append_left hlt] at hw
      exact .inl hw
    · rw [List.getElem?_append_right hge] at hw
      obtain ⟨hlt, hw⟩ := List.getElem?_eq_some_iff.mp hw
      rw [List.length_singleton] at hlt
      simp only [List.getElem_singleton] at hw
      exact .inr ⟨by omega, hw.symm⟩
  subst hv
  constructor
  · intro j k wj wk p hj hk hjp hkp
    rcases hcases hj with hj | ⟨rfl, rfl⟩ <;> rcases hcases hk with hk | ⟨rfl, rfl⟩
    · exact hheap.unique j k wj wk p hj hk hjp hkp
    · cases hkp
      exact absurd (hbound hj hjp) (Nat.lt_irrefl _)
    · cases hjp
      exact absurd (hbound hk hkp) (Nat.lt_irrefl _)
    · rfl
  · intro j w p hw hp
    rcases hcases hw with hw | ⟨rfl, rfl⟩
    · obtain ⟨t, ht, hread⟩ := hheap.written j w p hw hp
      exact ⟨t, (List.getElem?_append_left (hbound hw hp)).trans ht, hread⟩
    · cases hp
      exact ⟨base, by simp, fun key => rfl⟩

theorem heap_of_write {p : Nat} {f : BTree → BTree} {key : Bytes} {value : Option Bytes}
    (hheap : Heap s) (hw : s.writers[i]? = some w) (hp : w.tree = some p)
    (hf : ∀ (t : BTree) (k : Bytes), (f t)[k]? = if k = key then value else t[k]?) :
    Heap { s with
      db := { s.db with trees := s.db.trees.modify p f }
      writers := s.writers.set i { w with writes := (key, value) :: w.writes } } := by
  have hold : ∀ {j q : Nat} {v : MemDBWriter},
      (s.writers.set i { w with writes := (key, value) :: w.writes })[j]? = some v →
      v.tree = some q → ∃ v', s.writers[j]? = some v' ∧ v'.tree = some q := by
    intro j q v hv hvq
    rcases getElem?_set_some hv with ⟨rfl, rfl⟩ | ⟨_, hv⟩
    · exact ⟨w, hw, hvq⟩
    · exact ⟨v, hv, hvq⟩
  constructor
  · intro j k wj wk q hj hk hjq hkq
    obtain ⟨wj', hj', hjq'⟩ := hold hj hjq
    obtain ⟨wk', hk', hkq'⟩ := hold hk hkq
    exact hheap.unique j k wj' wk' q hj' hk' hjq' hkq'
  intro j v q hv hvq
  rcases getElem?_set_some hv with ⟨rfl, rfl⟩ | ⟨hne, hv⟩
  · obtain ⟨t, ht, hread⟩ := hheap.written j w q hw hvq
    cases hp.symm.trans hvq
    refine ⟨f t, by simp [ht], fun k => ?_⟩
    rw [hf t k, hread k, MemDBWriter.view, MemDBWriter.view, lookup_cons]
    by_cases hk : k = key
    · simp [hk]
    · simp [hk, beq_false_of_ne hk]
  · have hpq : p ≠ q := by
      rintro rfl
      exact hne (hheap.unique j i v w p hv hw hvq hp)
    obtain ⟨t, ht, hread⟩ := hheap.written j v q hv hvq
    exact ⟨t, by simp [ht, hpq], hread⟩

theorem heap_of_change (hheap : Heap s) (hchange : Change s op s') : Heap s' := by
  cases hchange with
  | refused | read | saved | deleted => exact { hheap with }
  | opened base hbase => exact heap_of_open hheap rfl
  | wrote _ i p w f key value hw hp hkey hf => exact heap_of_write hheap hw hp hf
  | discarded i p w hw hp | committed i p w hw hp => exact heap_of_close hheap rfl rfl
  | reverted =>
    refine ⟨hheap.unique, fun i w p hw hp => ?_⟩
    obtain ⟨t, ht, hread⟩ := hheap.written i w p hw hp
    obtain ⟨rest, hrest⟩ := prefix_Revert s.db
    refine ⟨t, ?_, hread⟩
    rw [← hrest, List.getElem?_append_left (List.getElem?_eq_some_iff.mp ht).1]
    exact ht

theorem not_owned_of_close {p : Nat} (hheap : Heap s) (hw : s.writers[i]? = some w)
    (hp : w.tree = some p) (hwriters : s'.writers = s.writers.set i { w with tree := none }) :
    ¬ s'.Owned p := by
  rintro ⟨v, hv, hvp⟩
  obtain ⟨j, hj⟩ := mem_iff_getElem?.mp hv
  rw [hwriters] at hj
  rcases getElem?_set_some hj with ⟨_, rfl⟩ | ⟨hne, hj⟩
  · cases hvp
  · exact hne (hheap.unique j i v w p hj hw hvp hp)

def Settled (s : MemDBRun) : Prop :=
  ∃ t, s.Shows s.db.btree t

theorem settled_of_change (hheap : Heap s) (hsettled : s.Settled)
    (hrevert : op = .revert → ∀ commits, Settled { s with db := s.db.Revert.1, commits := commits })
    (hchange : Change s op s') : s'.Settled := by
  have hframe := frame_of_change hchange
  obtain ⟨t, ht⟩ := hsettled
  cases hchange with
  | refused | read | opened | wrote | discarded | saved | deleted => exact ⟨t, hframe.shows ht⟩
  | committed i p w hw hp =>
    obtain ⟨t', ht', _⟩ := hheap.written i w p hw hp
    exact ⟨t', p, rfl, ht', not_owned_of_close hheap hw hp rfl⟩
  | reverted => exact hrevert rfl _

end Trees

/-- **Writers are isolated**, whatever others commit, discard or revert: an open writer reads its
own writes over what it was opened on. -/
theorem writers_isolated (ops : List Op) :
    Throughout step (fun s => ∀ w ∈ s.writers, w.tree ≠ none → ∀ key ≠ [],
      s.db.Get w.tree key = .ok (w.view key)) start ops := by
  intro before s _ hrun
  have hheap : s.Heap := run_invariant
    (fun _ _ _ hheap hstep => heap_of_change hheap (change_of_step hstep))
    ⟨by simp [start], by simp [start]⟩ hrun
  intro w hw hopen key hkey
  obtain ⟨i, hi⟩ := List.mem_iff_getElem?.mp hw
  obtain ⟨p, hp⟩ := Option.ne_none_iff_exists'.mp hopen
  obtain ⟨t, ht, hread⟩ := hheap.written i w p hi hp
  have hcontent : s.db.content w.tree = some t := hp ▸ ht
  simp [MemDBBackend.Get, hcontent, hkey, hread]

end MemDBRun

end Topia.Ledger
