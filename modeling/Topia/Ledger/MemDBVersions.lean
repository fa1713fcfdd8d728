import Topia.Ledger.MemDB

/-!
# The versions of the in-memory backend

A version of `ledger/backend/memdb/backend.go` is the tree that the database had when it was saved.
Along a run the saved trees are those of the version manager, the counter of the writers is right,
so that nothing is saved or reverted under an open writer, and no writer owns a tree that is saved
or read.
-/

namespace Topia.Ledger

open Lib

namespace MemDBRun

variable (s : MemDBRun)

def openCount : Nat :=
  s.writers.countP (·.tree.isSome)

def Reverts : Prop :=
  s.db.Revert.2 = none ∧
    (s.db.vmgr.versions = ∅ → s.db.Revert.1.content s.db.Revert.1.btree = some ∅) ∧
    ∀ ver, IsGreatest (s.db.vmgr.versions : Set Nat) ver →
      s.db.Revert.1.content s.db.Revert.1.btree = s.history ver

structure Versioned : Prop where
  keys : ∀ ver, (s.db.saved ver).isSome = s.db.vmgr.Exists ver
  writers : s.db.openWriters = s.openCount
  snapshot : ∀ ver, s.db.vmgr.Exists ver = true → ∃ tree content,
    s.db.ReaderAt ver = .ok tree ∧ s.history ver = some content ∧ s.db.content tree = some content
  readers : ∀ r ∈ s.readers, r.1 ≠ none → s.db.content r.1 = r.2
  history : ∀ last, s.db.Revert.2 ≠ some (.badVersionHistory last)
  revert : s.openCount = 0 → s.Reverts

def Op.Ranged : Op → Prop
  | .saveVersion target => target < 2 ^ 64
  | _ => True

/-- No version follows the largest number, and the counter of the writers does not overflow. -/
def Room : Op → Prop
  | .saveNextVersion | .saveVersion _ => s.db.vmgr.Last ≠ 2 ^ 64 - 1
  | .readWriter => s.openCount < 2 ^ 31 - 1
  | _ => True

instance : (op : Op) → Decidable (Room s op)
  | .saveNextVersion | .saveVersion _ => inferInstanceAs (Decidable (s.db.vmgr.Last ≠ 2 ^ 64 - 1))
  | .readWriter => inferInstanceAs (Decidable (s.openCount < 2 ^ 31 - 1))
  | .reader | .readerAt _ | .discardReader _ | .set _ _ _ | .delete _ _ | .commit _
  | .discard _ | .deleteVersion _ | .revert => .isTrue trivial

end MemDBRun

open Function Finset

namespace MemDBBackend

section Versions

variable {m : MemDBBackend} {target version : Nat} {vm : VersionManager}

/-- The version manager is right, and its versions are the saved trees. -/
structure Versions (m : MemDBBackend) : Prop where
  bounds : m.vmgr.Bounds
  nonzero : 0 ∉ m.vmgr.versions
  sized : ∀ ver ∈ m.vmgr.versions, ver < 2 ^ 64
  keys : ∀ ver, (m.saved ver).isSome = m.vmgr.Exists ver

variable (hversions : Versions m)
include hversions

theorem Versions.saved_iff (ver : Nat) : m.saved ver ≠ none ↔ ver ∈ m.vmgr.versions := by
  rw [← Option.isSome_iff_ne_none, hversions.keys ver, VersionManager.Exists, decide_eq_true_iff]

theorem Versions.save (hlast : m.vmgr.Last ≠ 2 ^ 64 - 1)
    (htarget : target < 2 ^ 64) (hsave : m.vmgr.Save target = .ok (version, vm)) :
    Versions { m with saved := update m.saved version (some m.btree), vmgr := vm } := by
  have hlast' : m.vmgr.Last < 2 ^ 64 - 1 := by
    rcases hversions.bounds with ⟨_, _, hzero⟩ | ⟨_, hgreatest⟩
    · omega
    · have := hversions.sized _ hgreatest.1
      omega
  have hlt : m.vmgr.Last < version := by
    rcases VersionManager.Save_exact hlast' hsave with ⟨_, rfl⟩ | ⟨hlt, rfl⟩
    · omega
    · exact hlt
  have hsized := VersionManager.Save_lt htarget hsave
  obtain ⟨_, rfl, _⟩ := VersionManager.Save_ok hsave
  constructor
  · exact VersionManager.bounds_add hversions.bounds hlt
  · simp only [VersionManager.add, mem_insert, not_or]
    exact ⟨by omega, hversions.nonzero⟩
  · simp only [VersionManager.add, mem_insert, forall_eq_or_imp]
    exact ⟨hsized, hversions.sized⟩
  intro ver
  by_cases hver : ver = version
  · subst hver
    simp [VersionManager.Exists, VersionManager.add]
  · have hkeys := hversions.keys ver
    simpa [VersionManager.Exists, VersionManager.add, hver] using hkeys

theorem Versions.delete (target : Nat) :
    Versions { m with
      saved := update m.saved target none, vmgr := m.vmgr.Delete target } := by
  constructor
  · exact VersionManager.bounds_Delete hversions.bounds target
  · exact fun hzero => hversions.nonzero (mem_of_mem_erase hzero)
  · exact fun ver hver => hversions.sized ver (mem_of_mem_erase hver)
  intro ver
  by_cases hver : ver = target
  · subst hver
    simp [VersionManager.Exists, VersionManager.Delete]
  · have hkeys := hversions.keys ver
    simpa [VersionManager.Exists, VersionManager.Delete, hver] using hkeys

theorem Versions.revert :
    (m.openWriters > 0 ∧ m.Revert = (m, some .openTransactions)) ∨
    (m.vmgr.versions = ∅ ∧
      m.Revert = ({ m with trees := m.trees ++ [∅], btree := some m.trees.length }, none)) ∨
    ∃ tree, IsGreatest (↑m.vmgr.versions) m.vmgr.Last ∧
      m.saved m.vmgr.Last = some tree ∧ m.Revert = ({ m with btree := tree }, none) := by
  by_cases hopen : m.openWriters > 0
  · exact .inl ⟨hopen, if_pos hopen⟩
  rcases hversions.bounds with ⟨hempty, _, hzero⟩ | ⟨_, hgreatest⟩
  · refine .inr (.inl ⟨hempty, ?_⟩)
    simp [Revert, if_neg hopen, hzero]
  have hlast : m.vmgr.Last ≠ 0 := fun hzero => hversions.nonzero (hzero ▸ hgreatest.1)
  obtain ⟨tree, htree⟩ := Option.ne_none_iff_exists'.mp
    ((hversions.saved_iff m.vmgr.Last).mpr hgreatest.1)
  refine .inr (.inr ⟨tree, hgreatest, htree, ?_⟩)
  -- nothing is saved after the last version, so nothing is removed
  have hsaved : (fun ver => if m.vmgr.Last < ver then none else m.saved ver) = m.saved := by
    funext ver
    split_ifs with hlt
    · by_contra hne
      have hle := hgreatest.2 ((hversions.saved_iff ver).mp fun h => hne h.symm)
      omega
    · rfl
  simp [Revert, if_neg hopen, if_neg hlast, htree, hsaved]

end Versions

end MemDBBackend

namespace MemDBRun

section Invariant

variable {s s' : MemDBRun} {op : Op} {i : Nat} {w : MemDBWriter}

structure Inv (s : MemDBRun) : Prop where
  heap : s.Heap
  settled : s.Settled
  versions : s.db.Versions
  saved : ∀ ver tree, s.db.saved ver = some tree → ∃ t, s.Shows tree t ∧ s.history ver = some t
  readers : ∀ r ∈ s.readers, r.1 ≠ none → ∃ t, s.Shows r.1 t ∧ r.2 = some t
  counter : s.db.openWriters = s.openCount
  small : s.openCount < 2 ^ 31

theorem wrap32_eq {n : Int} (hle : -2 ^ 31 ≤ n) (hlt : n < 2 ^ 31) : wrap32 n = n := by
  unfold wrap32
  rw [Int.bmod_def]
  omega

theorem countP_set (w' : MemDBWriter) (hw : s.writers[i]? = some w) :
    (s.writers.set i w').countP (·.tree.isSome) + (if w.tree.isSome then 1 else 0) =
      s.openCount + (if w'.tree.isSome then 1 else 0) := by
  obtain ⟨hi, rfl⟩ := List.getElem?_eq_some_iff.mp hw
  rw [List.countP_set hi]
  unfold openCount
  by_cases hopen : s.writers[i].tree.isSome = true
  · have hpos : 0 < s.writers.countP (·.tree.isSome) :=
      List.countP_pos_iff.mpr ⟨_, List.getElem_mem hi, hopen⟩
    simp only [hopen, if_true]
    omega
  · simp [hopen]

section Inv

variable (hinv : Inv s)
include hinv

theorem counter_of_close {p : Nat} (hw : s.writers[i]? = some w)
    (hp : w.tree = some p) (hwriters : s'.writers = s.writers.set i { w with tree := none })
    (hopen : s'.db.openWriters = wrap32 (s.db.openWriters - 1)) :
    s'.db.openWriters = s'.openCount ∧ s'.openCount < 2 ^ 31 := by
  have hcount : s'.openCount + 1 = s.openCount := by
    have hset := countP_set { w with tree := none } hw
    rw [← hwriters, hp] at hset
    simpa [openCount] using hset
  have hcounter := hinv.counter
  have hsmall := hinv.small
  rw [hopen, wrap32_eq (by omega) (by omega)]
  omega

theorem counter_of_change (hroom : Room s op) (hchange : Change s op s') :
    s'.db.openWriters = s'.openCount ∧ s'.openCount < 2 ^ 31 := by
  have hcounter := hinv.counter
  have hsmall := hinv.small
  cases hchange with
  | refused | read | saved | deleted => exact ⟨hcounter, hsmall⟩
  | opened base hbase =>
    have hroom : s.openCount < 2 ^ 31 - 1 := hroom
    simp only [openCount, List.countP_append, List.countP_singleton] at hcounter hroom ⊢
    rw [hcounter, wrap32_eq (by omega) (by omega)]
    simp only [Option.isSome_some, if_true]
    omega
  | wrote _ i p w f key value hw hp hkey hf =>
    have hset := countP_set { w with writes := (key, value) :: w.writes } hw
    simp only [openCount, hp] at hcounter hsmall hset ⊢
    omega
  | discarded i p w hw hp | committed i p w hw hp => exact counter_of_close hinv hw hp rfl rfl
  | reverted => exact ⟨(openWriters_Revert s.db).trans hcounter, hsmall⟩

theorem readers_of_change (hchange : Change s op s') :
    ∀ r ∈ s'.readers, r.1 ≠ none → ∃ t, s'.Shows r.1 t ∧ r.2 = some t := by
  have hframe := frame_of_change hchange
  have hold : ∀ r ∈ s.readers, r.1 ≠ none → ∃ t, s'.Shows r.1 t ∧ r.2 = some t := by
    intro r hr hopen
    obtain ⟨t, ht, hshown⟩ := hinv.readers r hr hopen
    exact ⟨t, hframe.shows ht, hshown⟩
  cases hchange with
  | refused | opened | wrote | discarded | committed | saved | deleted | reverted => exact hold
  | read _ readers hreaders =>
    intro r hr hopen
    rcases hreaders r hr with hr | hclosed | ⟨hshown, htree⟩
    · exact hold r hr hopen
    · exact absurd hclosed hopen
    have hshows : ∃ t, s.Shows r.1 t := by
      rcases htree with htree | ⟨ver, hver⟩
      · rw [htree]
        exact hinv.settled
      · obtain ⟨t, ht, _⟩ := hinv.saved ver r.1 hver
        exact ⟨t, ht⟩
    obtain ⟨t, ht⟩ := hshows
    exact ⟨t, hframe.shows ht, hshown.trans (content_of_shows ht)⟩

theorem settled_revert (commits : List Nat) :
    Settled { s with db := s.db.Revert.1, commits := commits } := by
  have hframe : Frame s { s with db := s.db.Revert.1, commits := commits } :=
    frame_of_prefix (prefix_Revert s.db) fun _ hp => .inl hp
  rcases hinv.versions.revert with ⟨_, hrevert⟩ | ⟨_, hrevert⟩ | ⟨tree, _, htree, hrevert⟩
  · obtain ⟨t, ht⟩ := hinv.settled
    refine ⟨t, ?_⟩
    rw [hrevert] at hframe ⊢
    exact hframe.shows ht
  · refine ⟨∅, s.db.trees.length, by rw [hrevert], by simp [hrevert], ?_⟩
    rintro ⟨w, hw, hp⟩
    obtain ⟨i, hi⟩ := List.mem_iff_getElem?.mp hw
    obtain ⟨t, ht, _⟩ := hinv.heap.written i w _ hi hp
    exact absurd (List.getElem?_eq_some_iff.mp ht).1 (Nat.lt_irrefl _)
  · obtain ⟨t, ht, _⟩ := hinv.saved _ tree htree
    refine ⟨t, ?_⟩
    rw [hrevert] at hframe ⊢
    exact hframe.shows ht

theorem versions_of_change (hranged : op.Ranged) (hroom : Room s op)
    (hchange : Change s op s') : s'.db.Versions := by
  have hversions := hinv.versions
  cases hchange with
  | refused | read | opened | wrote | discarded | committed =>
    exact { hversions with }
  | saved _ target version vm hop hsave =>
    rcases hop with rfl | ⟨rfl, rfl⟩
    · exact hversions.save hroom hranged hsave
    · exact hversions.save hroom (by omega) hsave
  | deleted target hsaved => exact hversions.delete target
  | reverted =>
    rcases hversions.revert with ⟨_, hrevert⟩ | ⟨_, hrevert⟩ | ⟨_, _, _, hrevert⟩ <;>
      rw [hrevert] <;>
      exact { hversions with }

theorem saved_of_change (hchange : Change s op s') :
    ∀ ver tree, s'.db.saved ver = some tree → ∃ t, s'.Shows tree t ∧ s'.history ver = some t := by
  have hframe := frame_of_change hchange
  have hold : ∀ ver tree, s.db.saved ver = some tree →
      ∃ t, s'.Shows tree t ∧ s.history ver = some t := by
    intro ver tree htree
    obtain ⟨t, ht, hhistory⟩ := hinv.saved ver tree htree
    exact ⟨t, hframe.shows ht, hhistory⟩
  cases hchange with
  | refused | read | opened | wrote | discarded | committed => exact hold
  | saved _ target version vm hop hsave =>
    intro ver tree htree
    by_cases hver : ver = version
    · subst hver
      obtain ⟨t, ht⟩ := hinv.settled
      dsimp only at htree ⊢
      rw [update_self] at htree
      cases htree
      refine ⟨t, hframe.shows ht, ?_⟩
      rw [update_self]
      exact content_of_shows ht
    · dsimp only at htree ⊢
      rw [update_of_ne hver] at htree
      obtain ⟨t, ht, hhistory⟩ := hold ver tree htree
      exact ⟨t, ht, by rw [update_of_ne hver, hhistory]⟩
  | deleted target hsaved =>
    intro ver tree htree
    by_cases hver : ver = target
    · subst hver
      dsimp only at htree
      rw [update_self] at htree
      cases htree
    · dsimp only at htree
      rw [update_of_ne hver] at htree
      exact hold ver tree htree
  | reverted =>
    intro ver tree htree
    have hsame : s.db.Revert.1.saved = s.db.saved := by
      rcases hinv.versions.revert with ⟨_, hrevert⟩ | ⟨_, hrevert⟩ | ⟨_, _, _, hrevert⟩ <;>
        rw [hrevert]
    rw [hsame] at htree
    exact hold ver tree htree

theorem inv_step (hranged : op.Ranged) (hroom : Room s op)
    (hstep : step s op = some s') : Inv s' := by
  have hchange := change_of_step hstep
  obtain ⟨hcounter, hsmall⟩ := counter_of_change hinv hroom hchange
  have hsettled := settled_of_change hinv.heap hinv.settled (fun _ => settled_revert hinv) hchange
  exact ⟨heap_of_change hinv.heap hchange, hsettled, versions_of_change hinv hranged hroom hchange,
    saved_of_change hinv hchange, readers_of_change hinv hchange, hcounter, hsmall⟩

theorem revert_of_inv (hopen : s.openCount = 0) : s.Reverts := by
  unfold Reverts
  have hcounter := hinv.counter
  rcases hinv.versions.revert with ⟨hpos, _⟩ | ⟨hempty, hrevert⟩ | ⟨tree, hlast, htree, hrevert⟩
  · omega
  · rw [hrevert]
    refine ⟨rfl, fun _ => ?_, fun ver hver => ?_⟩
    · simp [MemDBBackend.content]
    · rw [hempty] at hver
      simp [IsGreatest] at hver
  · rw [hrevert]
    obtain ⟨t, ht, hhistory⟩ := hinv.saved _ tree htree
    refine ⟨rfl, fun hempty => ?_, fun ver hver => ?_⟩
    · rw [hempty] at hlast
      simp [IsGreatest] at hlast
    · rw [hver.unique hlast, hhistory]
      exact content_of_shows ht

theorem versioned_of_inv : s.Versioned := by
  refine ⟨hinv.versions.keys, hinv.counter, fun ver hver => ?_, fun r hr hopen => ?_,
    fun last => ?_, revert_of_inv hinv⟩
  · obtain ⟨tree, htree⟩ := Option.isSome_iff_exists.mp ((hinv.versions.keys ver).trans hver)
    obtain ⟨t, ht, hhistory⟩ := hinv.saved ver tree htree
    exact ⟨tree, t, by simp [MemDBBackend.ReaderAt, htree], hhistory, content_of_shows ht⟩
  · obtain ⟨t, ht, hshown⟩ := hinv.readers r hr hopen
    rw [content_of_shows ht, hshown]
  · rcases hinv.versions.revert with ⟨_, hrevert⟩ | ⟨_, hrevert⟩ | ⟨_, _, _, hrevert⟩ <;>
      rw [hrevert] <;> simp

end Inv

theorem inv_start : Inv start := by
  refine ⟨⟨by simp [start], by simp [start]⟩, ⟨∅, 0, rfl, rfl, by simp [Owned, start]⟩,
    ⟨.inl ⟨rfl, rfl, rfl⟩, ?_, ?_, ?_⟩, ?_, ?_, rfl, by decide⟩
  · exact notMem_empty 0
  · exact fun ver hver => absurd hver (notMem_empty ver)
  · exact fun ver => rfl
  · exact fun ver tree htree => by cases htree
  · exact fun r hr => absurd hr List.not_mem_nil

end Invariant

/-- **MemDB versioning.** Along every run that saves no version after the largest number and has
fewer than `2 ^ 31` writers open at once, versions and readers keep their content, the counter is
the number of open writers, and `Revert` restores the last version. -/
theorem versioned_of_room (ops : List Op) (hranged : ∀ op ∈ ops, op.Ranged)
    (hroom : Along step Room start ops) : Throughout step Versioned start ops := by
  exact throughout_of_along (fun s op s' hinv hop => inv_step hinv hop.1 hop.2)
    (fun _ => versioned_of_inv) inv_start
    (along_and (along_of_forall_mem (fun op hop _ => hranged op hop) start) hroom)

theorem versioned_of_two_versions :
    Throughout step Versioned start
      [.readWriter, .set 0 [1] (some [5]), .commit 0, .saveVersion 7, .readerAt 7, .readWriter,
        .delete 1 [1], .commit 1, .saveNextVersion, .deleteVersion 8, .revert] := by
  have hsound : ∀ s op, decide (Room s op) = true → Room s op := fun _ _ => of_decide_eq_true
  exact versioned_of_room _ (by simp [Op.Ranged]) (along_of_check hsound (by decide +kernel))

/-- A version is saved after the largest number. `Revert` then removes the tree of the largest but
not its version, and a later one finds a bad history. -/
theorem versioned_fails_after_largest :
    ¬ Throughout step Versioned start
        [.saveVersion (2 ^ 64 - 1), .saveVersion 3, .revert, .deleteVersion 3] ∧
      ([Op.saveVersion (2 ^ 64 - 1), .saveVersion 3, .revert, .deleteVersion 3].foldlM step
        start).map (·.db.Revert.2) = some (some (.badVersionHistory (2 ^ 64 - 1))) := by
  refine ⟨fun hall => ?_, by decide +kernel⟩
  have hlast := (hall _ _ List.prefix_rfl rfl).history (2 ^ 64 - 1)
  revert hlast
  decide +kernel

end MemDBRun

end Topia.Ledger
