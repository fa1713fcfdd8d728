import Topia.Ledger.MemDB

/-!
# Concurrent writers of the in-memory backend

`DBWriter` promises writers that detect conflicts. A writer of `ledger/backend/memdb/backend.go`
works on a clone of the tree, and its `Commit` replaces the tree of the database by that clone: what
other writers have committed since it was opened is gone, and both commits return nil.
-/

namespace Topia.Ledger

open Lib

namespace MemDBRun

variable (s : MemDBRun) (i : Nat) (key : Bytes)

def written : Option (Option Bytes) :=
  s.writers[i]?.bind fun w => w.writes.lookup key

structure Only (value : Option Bytes) : Prop where
  committed : i ∈ s.commits
  wrote : s.written i key = some value
  alone : ∀ j ∈ s.commits, j ≠ i → s.written j key = none

def NoLostUpdates : Prop :=
  ∀ i key value, s.Only i key value → s.db.Get s.db.Reader key = .ok value

/-- A writer that commits was opened with the updates that are the only ones to their keys, or has
written the key. -/
def UpToDate (op : Op) : Prop :=
  ∀ i w, op = .commit i → s.writers[i]? = some w → w.tree ≠ none →
    ∀ j key value, s.Only j key value → w.writes.lookup key = none → w.base[key]? = value

structure Unwritten : Prop where
  content : s.current ≠ none
  writers : s.writers = []
  commits : s.commits = []

open MemDBBackend List

section Writers

variable {s s' : MemDBRun} {op : Op} {i j : Nat} {key : Bytes} {value : Option Bytes}
  {tree : TreePtr} {t : BTree}

structure Writing (s : MemDBRun) : Prop where
  heap : s.Heap
  settled : s.Settled
  closed : ∀ i ∈ s.commits, ∃ w, s.writers[i]? = some w ∧ w.tree = none
  keys : ∀ i key value, s.written i key = some value → key ≠ []

theorem Get_of_shows (hshows : s.Shows tree t) (hkey : key ≠ []) :
    s.db.Get tree key = .ok t[key]? := by
  simp [Get, content_of_shows hshows, hkey]

open Option

theorem Unwritten.writing (hnew : Unwritten s) : Writing s := by
  obtain ⟨t, ht⟩ := ne_none_iff_exists'.mp hnew.content
  obtain ⟨p, hp, htree⟩ := bind_eq_some_iff.mp ht
  refine ⟨⟨?_, ?_⟩, ⟨t, p, hp, htree, ?_⟩, ?_, ?_⟩
  · simp [hnew.writers]
  · simp [hnew.writers]
  · simp [Owned, hnew.writers]
  · simp [hnew.commits]
  · simp [written, hnew.writers]

theorem kept_of_change (hwriting : Writing s) (hrevert : op ≠ .revert)
    (hcommit : ∀ i, op ≠ .commit i) (hchange : Change s op s') :
    s'.commits = s.commits ∧ s'.db.btree = s.db.btree ∧
      ∀ i ∈ s.commits, s'.writers[i]? = s.writers[i]? := by
  -- an open writer is not one of those that have committed
  have hother : ∀ {i j w p}, s.writers[i]? = some w → w.tree = some p → j ∈ s.commits → i ≠ j := by
    rintro i _ w p hw hp hj rfl
    obtain ⟨v, hv, hclosed⟩ := hwriting.closed i hj
    cases hw.symm.trans hv
    rw [hclosed] at hp
    cases hp
  cases hchange with
  | refused | read | saved | deleted => exact ⟨rfl, rfl, fun _ _ => rfl⟩
  | opened base hbase =>
    refine ⟨rfl, rfl, fun i hi => ?_⟩
    obtain ⟨w, hw, _⟩ := hwriting.closed i hi
    exact List.getElem?_append_left (List.getElem?_eq_some_iff.mp hw).1
  | wrote _ i p w f key value hw hp hkey hf | discarded i p w hw hp =>
    exact ⟨rfl, rfl, fun j hj => List.getElem?_set_ne (hother hw hp hj)⟩
  | committed i p w hw hp => exact absurd rfl (hcommit i)
  | reverted => exact absurd rfl hrevert

theorem written_close {w : MemDBWriter} (hw : s.writers[i]? = some w)
    (hwriters : s'.writers = s.writers.set i { w with tree := none }) : s'.written = s.written := by
  funext j key
  simp only [written, hwriters, List.getElem?_set]
  split_ifs with heq hlt
  · subst heq
    simp [hw]
  · subst heq
    exact absurd (List.getElem?_eq_some_iff.mp hw).1 hlt
  · rfl

theorem keys_of_change (hwriting : Writing s) (hchange : Change s op s') :
    ∀ i key value, s'.written i key = some value → key ≠ [] := by
  have hkeys := hwriting.keys
  cases hchange with
  | refused | read | saved | deleted | reverted => exact hkeys
  | opened base hbase =>
    intro i key value hwrote
    obtain ⟨w, hw, hlookup⟩ := bind_eq_some_iff.mp hwrote
    rcases Nat.lt_or_ge i s.writers.length with hlt | hge
    · rw [getElem?_append_left hlt] at hw
      exact hkeys i key value (bind_eq_some_iff.mpr ⟨w, hw, hlookup⟩)
    · rw [getElem?_append_right hge] at hw
      rw [mem_singleton.mp (mem_of_getElem? hw)] at hlookup
      cases hlookup
  | wrote _ i p w f key' value' hw hp hkey hf =>
    intro j key value hwrote
    obtain ⟨v, hv, hlookup⟩ := bind_eq_some_iff.mp hwrote
    rcases getElem?_set_some hv with ⟨rfl, rfl⟩ | ⟨_, hv⟩
    · by_cases heq : key = key'
      · rw [heq]
        exact hkey
      · rw [lookup_cons, beq_false_of_ne heq] at hlookup
        exact hkeys j key value (bind_eq_some_iff.mpr ⟨w, hw, hlookup⟩)
    · exact hkeys j key value (bind_eq_some_iff.mpr ⟨v, hv, hlookup⟩)
  | discarded i p w hw hp | committed i p w hw hp =>
    intro j key value hwrote
    rw [written_close hw rfl] at hwrote
    exact hkeys j key value hwrote

theorem commit_cases (hstep : step s (.commit i) = some s') :
    (s' = s ∧ ∃ w, s.writers[i]? = some w ∧ w.tree = none) ∨
      ∃ w p, s.writers[i]? = some w ∧ w.tree = some p ∧
        s' = { s with
          db := { s.db with btree := some p, openWriters := wrap32 (s.db.openWriters - 1) }
          writers := s.writers.set i { w with tree := none }
          commits := i :: s.commits } := by
  obtain ⟨w, hw, rfl⟩ := map_eq_some_iff.mp hstep
  cases htree : w.tree with
  | none => exact .inl ⟨rfl, w, hw, htree⟩
  | some p => exact .inr ⟨w, p, hw, htree, rfl⟩

theorem writing_step (hwriting : Writing s) (hrevert : op ≠ .revert)
    (hstep : step s op = some s') : Writing s' := by
  have hchange := change_of_step hstep
  refine ⟨heap_of_change hwriting.heap hchange,
    settled_of_change hwriting.heap hwriting.settled (fun h => absurd h hrevert) hchange,
    ?_, keys_of_change hwriting hchange⟩
  by_cases hcommit : ∃ i, op = .commit i
  · obtain ⟨i, rfl⟩ := hcommit
    rcases commit_cases hstep with ⟨rfl, _⟩ | ⟨w, p, hw, _, rfl⟩
    · exact hwriting.closed
    intro j hj
    by_cases hji : i = j
    · subst hji
      exact ⟨_, List.getElem?_set_self (List.getElem?_eq_some_iff.mp hw).1, rfl⟩
    · rw [List.getElem?_set_ne hji]
      exact hwriting.closed j ((List.mem_cons.mp hj).resolve_left fun h => hji h.symm)
  · obtain ⟨hcommits, _, hwriters⟩ :=
      kept_of_change hwriting hrevert (not_exists.mp hcommit) hchange
    intro i hi
    rw [hcommits] at hi
    rw [hwriters i hi]
    exact hwriting.closed i hi

section Committed

variable {w : MemDBWriter} {p : Nat}

theorem only_commit_iff (hw : s.writers[i]? = some w)
    (hwriters : s'.writers = s.writers.set i { w with tree := none })
    (hcommits : s'.commits = i :: s.commits) (hji : j ≠ i) :
    s'.Only j key value ↔ s.Only j key value ∧ w.writes.lookup key = none := by
  have hwritten := written_close hw hwriters
  have hi : s.written i key = w.writes.lookup key := by simp [written, hw]
  constructor
  · rintro ⟨hcommitted, hwrote, halone⟩
    rw [hwritten] at hwrote halone
    rw [hcommits] at hcommitted halone
    refine ⟨⟨(mem_cons.mp hcommitted).resolve_left hji, hwrote, ?_⟩, ?_⟩
    · intro k hk hkj
      exact halone k (mem_cons_of_mem i hk) hkj
    · rw [← hi]
      exact halone i mem_cons_self hji.symm
  · rintro ⟨⟨hcommitted, hwrote, halone⟩, hlookup⟩
    refine ⟨by simp [hcommits, hcommitted], by rw [hwritten]; exact hwrote, ?_⟩
    intro k hk hkj
    rw [hcommits] at hk
    rw [hwritten]
    rcases mem_cons.mp hk with rfl | hk
    · rw [hi]
      exact hlookup
    · exact halone k hk hkj

theorem Get_commit (hwriting : Writing s) (hwriting' : Writing s') (hw : s.writers[i]? = some w)
    (hp : w.tree = some p) (hbtree : s'.db.btree = some p) (htrees : s'.db.trees = s.db.trees)
    (hkey : key ≠ []) : s'.db.Get s'.db.Reader key = .ok (w.view key) := by
  obtain ⟨t, ht, hview⟩ := hwriting.heap.written i w p hw hp
  obtain ⟨t', ht'⟩ := hwriting'.settled
  have hcontent : s'.db.content s'.db.btree = some t := by
    rw [hbtree]
    simpa [content, htrees] using ht
  cases (content_of_shows ht').symm.trans hcontent
  rw [← hview key]
  exact Get_of_shows ht' hkey

theorem noLostUpdates_commit (hwriting : Writing s) (hwriting' : Writing s')
    (hw : s.writers[i]? = some w) (hp : w.tree = some p)
    (hbtree : s'.db.btree = some p) (htrees : s'.db.trees = s.db.trees)
    (hwriters : s'.writers = s.writers.set i { w with tree := none })
    (hcommits : s'.commits = i :: s.commits) :
    NoLostUpdates s' ↔
      ∀ j key value, s.Only j key value → w.writes.lookup key = none → w.base[key]? = value := by
  have hwritten : ∀ key, s.written i key = w.writes.lookup key := by
    intro key
    simp [written, hw]
  constructor
  · intro hno j key value honly hlookup
    have hji : j ≠ i := by
      rintro rfl
      have hwrote := honly.wrote
      rw [hwritten, hlookup] at hwrote
      cases hwrote
    have hvalue := hno j key value ((only_commit_iff hw hwriters hcommits hji).mpr ⟨honly, hlookup⟩)
    rw [Get_commit hwriting hwriting' hw hp hbtree htrees
      (hwriting.keys j key value honly.wrote)] at hvalue
    simpa [MemDBWriter.view, hlookup] using hvalue
  · intro hseen j key value honly
    have hwrote := honly.wrote
    rw [written_close hw hwriters] at hwrote
    rw [Get_commit hwriting hwriting' hw hp hbtree htrees (hwriting.keys j key value hwrote)]
    by_cases hji : j = i
    · subst hji
      rw [hwritten] at hwrote
      simp [MemDBWriter.view, hwrote]
    · obtain ⟨honly', hlookup⟩ := (only_commit_iff hw hwriters hcommits hji).mp honly
      simp [MemDBWriter.view, hlookup, hseen j key value honly' hlookup]

end Committed

theorem noLostUpdates_of_kept (hwriting : Writing s) (hno : NoLostUpdates s) (hframe : Frame s s')
    (hcommits : s'.commits = s.commits) (hbtree : s'.db.btree = s.db.btree)
    (hwriters : ∀ i ∈ s.commits, s'.writers[i]? = s.writers[i]?) : NoLostUpdates s' := by
  have hwritten : ∀ i ∈ s.commits, s'.written i = s.written i := by
    intro i hi
    funext key
    simp [written, hwriters i hi]
  intro i key value honly
  have hi : i ∈ s.commits := hcommits ▸ honly.committed
  have hwrote : s.written i key = some value := hwritten i hi ▸ honly.wrote
  have honly' : s.Only i key value := by
    refine ⟨hi, hwrote, fun j hj hji => ?_⟩
    rw [← hwritten j hj]
    exact honly.alone j (hcommits ▸ hj) hji
  have hkey := hwriting.keys i key value hwrote
  obtain ⟨t, ht⟩ := hwriting.settled
  have hvalue := hno i key value honly'
  rw [Reader, Get_of_shows ht hkey] at hvalue
  rw [Reader, hbtree, Get_of_shows (hframe.shows ht) hkey]
  exact hvalue

theorem noLostUpdates_step_iff (hwriting : Writing s) (hno : NoLostUpdates s)
    (hrevert : op ≠ .revert) (hstep : step s op = some s') : NoLostUpdates s' ↔ UpToDate s op := by
  have hchange := change_of_step hstep
  by_cases hcommit : ∃ i, op = .commit i
  · obtain ⟨i, rfl⟩ := hcommit
    have hwriting' := writing_step hwriting hrevert hstep
    rcases commit_cases hstep with ⟨rfl, w, hw, hclosed⟩ | ⟨w, p, hw, hp, rfl⟩
    · refine ⟨fun _ => ?_, fun _ => hno⟩
      rintro _ w' ⟨⟩ hw' hopen
      cases hw.symm.trans hw'
      exact absurd hclosed hopen
    rw [noLostUpdates_commit hwriting hwriting' hw hp rfl rfl rfl rfl]
    constructor
    · rintro hseen _ w' ⟨⟩ hw' _
      cases hw.symm.trans hw'
      exact hseen
    · intro hseen
      exact hseen i w rfl hw (by simp [hp])
  · have hother := not_exists.mp hcommit
    obtain ⟨hcommits, hbtree, hwriters⟩ := kept_of_change hwriting hrevert hother hchange
    refine ⟨fun _ i _ hop => absurd hop (hother i), fun _ => ?_⟩
    exact noLostUpdates_of_kept hwriting hno (frame_of_change hchange) hcommits hbtree hwriters

theorem upToDate_of_disabled (hstep : step s op = none) : UpToDate s op := by
  rintro i w rfl hw
  simp [step, hw] at hstep

end Writers

/-- **Concurrent writers.** A new reader sees every update that is the only one to its key, all
along a run without `Revert`, exactly when every writer that commits was opened with these updates,
except to keys it has written itself. -/
theorem noLostUpdates_iff (s : MemDBRun) (ops : List Op) (hnew : Unwritten s)
    (hops : Op.revert ∉ ops) :
    Throughout step NoLostUpdates s ops ↔ Along step UpToDate s ops := by
  have hinv : ∀ s op s', Writing s → op ≠ .revert → step s op = some s' → Writing s' :=
    fun _ _ _ => writing_step
  have hexact : ∀ s op s', Writing s → NoLostUpdates s → op ≠ .revert → step s op = some s' →
      (NoLostUpdates s' ↔ UpToDate s op) :=
    fun _ _ _ => noLostUpdates_step_iff
  have hidle : ∀ s op, Writing s → NoLostUpdates s → step s op = none → UpToDate s op :=
    fun _ _ _ _ => upToDate_of_disabled
  have hstart : NoLostUpdates s := by
    intro i key value honly
    have hmem := honly.committed
    rw [hnew.commits] at hmem
    cases hmem
  have hgood : Along step (fun _ op => op ≠ .revert) s ops := by
    refine along_of_forall_mem ?_ s
    rintro op hop _ rfl
    exact hops hop
  exact throughout_iff_along_of hinv hexact hidle hnew.writing hstart hgood

theorem unwritten_start : Unwritten start :=
  ⟨by simp [current, start, NewMemDBBackend, content,
    Reader], rfl, rfl⟩

theorem noLostUpdates_of_turns :
    Throughout step NoLostUpdates start
      [.readWriter, .set 0 [1] (some [5]), .commit 0, .readWriter, .set 1 [2] (some [6]),
        .commit 1] := by
  refine (noLostUpdates_iff start _ unwritten_start (by decide)).mpr ?_
  refine ⟨by simp [UpToDate], ?_⟩
  rintro _ ⟨⟩
  refine ⟨by simp [UpToDate], ?_⟩
  rintro _ ⟨⟩
  refine ⟨fun _ _ _ _ _ _ _ _ honly => absurd honly.committed not_mem_nil, ?_⟩
  rintro _ ⟨⟩
  refine ⟨by simp [UpToDate], ?_⟩
  rintro _ ⟨⟩
  refine ⟨by simp [UpToDate], ?_⟩
  rintro _ ⟨⟩
  refine ⟨?_, fun _ _ => trivial⟩
  rintro _ w ⟨⟩ ⟨⟩ _ j key value honly _
  obtain rfl : j = 0 := mem_singleton.mp honly.committed
  have hwrote : lookup key [([1], some [5])] = some value := honly.wrote
  by_cases hkey : key = [1]
  · subst hkey
    cases hwrote
    decide +kernel
  · rw [lookup_cons, beq_false_of_ne hkey] at hwrote
    cases hwrote

/-- Two writers of different keys commit, and the first update is gone. -/
theorem noLostUpdates_fails_on_two_writers :
    ¬ Throughout step NoLostUpdates start
      [.readWriter, .readWriter, .set 0 [1] (some [5]), .set 1 [2] (some [6]), .commit 0,
        .commit 1] := by
  intro hall
  have hno := hall _ _ prefix_rfl rfl
  have hget := hno 0 [1] (some [5]) ⟨by decide +kernel, by decide +kernel, by decide +kernel⟩
  revert hget
  decide +kernel

end MemDBRun

end Topia.Ledger
