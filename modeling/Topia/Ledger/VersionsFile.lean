import Topia.Ledger.BadgerBackend
import Topia.Ledger.VersionSet

/-!
# The versions file of the Badger backend

`readVersionsFile` and `writeVersionsFile` of `ledger/backend/badger/backend.go`. A close writes one
row of CSV for every version, after a row for version `0` that holds the last commit timestamp; an
opening reads the rows back, and keeps version `0` among the versions. The file is opened without
truncation, so what a longer file had behind the new text is read as well.
-/

namespace Topia.Ledger

open Lib

inductive VersionsFileError where
  | fieldCount
  | parseUint
deriving DecidableEq, Repr

abbrev VersionRow := Nat × Nat

def rowText (row : VersionRow) : Bytes :=
  formatUint row.1 ++ 44 :: formatUint row.2 ++ [10]

def readRecord (line : Bytes) : Except VersionsFileError (Bytes × Bytes) :=
  match line.splitOn 44 with
  | [version, ts] => .ok (version, ts)
  | _ => .error .fieldCount

variable (text : Bytes) (rows : List VersionRow)

def readAll : Except VersionsFileError (List (Bytes × Bytes)) :=
  ((text.splitOn 10).filter (· ≠ [])).mapM readRecord

def parseRow (row : Bytes × Bytes) : Except VersionsFileError VersionRow :=
  match parseUint row.1, parseUint row.2 with
  | some version, some ts => .ok (version, ts)
  | _, _ => .error .parseUint

def readRows : Except VersionsFileError (List VersionRow) := do
  (← readAll text).mapM parseRow

def rowMap : Nat → Option Nat :=
  rows.foldl (fun vmap row => Function.update vmap row.1 (some row.2)) fun _ => none

def rowLastTs : Nat :=
  rows.foldl (fun lastTs row => if row.1 = 0 then row.2 else lastTs) 0

namespace BadgerVersionManager

def Delete (m : BadgerVersionManager) (target : Nat) : BadgerVersionManager :=
  { m with vm := m.vm.Delete target, vmap := Function.update m.vmap target none }

def ofRows (rows : List VersionRow) : BadgerVersionManager where
  vm := VersionManager.NewVersionManager (rows.map Prod.fst)
  vmap := rowMap rows
  tsCount := rowLastTs rows
  lastTs := rowLastTs rows

def readVersionsFile (file : Bytes) : Except VersionsFileError BadgerVersionManager :=
  (readRows file).map ofRows

variable (m : BadgerVersionManager) (order : List Nat)

/-- The rows of `writeVersionsFile`; a version without a timestamp panics. -/
def versionRows : Option (List VersionRow) :=
  (order.mapM fun ver => (m.vmap ver).map fun ts => (ver, ts)).map ((0, m.lastTs) :: ·)

def writeVersionsFile (old : Bytes) : Option Bytes :=
  (m.versionRows order).map fun rows =>
    let text := rows.flatMap rowText
    text ++ old.drop text.length

end BadgerVersionManager

open List

section Text

variable {rows : List VersionRow} {row : VersionRow} {tail : Bytes}

theorem ne_of_mem_formatUint {n : Nat} {b sep : UInt8} (hsep : sep.toNat < 48)
    (hb : b ∈ formatUint n) : (b == sep) = false := by
  obtain ⟨hle, _⟩ := digit_of_mem_formatUint hb
  refine beq_false_of_ne fun heq => ?_
  rw [heq] at hle
  omega

theorem splitOn_rowText (row : VersionRow) (tail : Bytes) :
    (rowText row ++ tail).splitOn 10 =
      (formatUint row.1 ++ 44 :: formatUint row.2) :: tail.splitOn 10 := by
  have hline : ∀ b ∈ formatUint row.1 ++ 44 :: formatUint row.2, (b == 10) = false := by
    intro b hb
    rcases mem_append.mp hb with hb | hb
    · exact ne_of_mem_formatUint (by decide) hb
    · rcases mem_cons.mp hb with rfl | hb
      · rfl
      · exact ne_of_mem_formatUint (by decide) hb
  have hsplit := splitOnP_append_cons_of_forall_mem hline 10 rfl tail
  rw [splitOn, splitOn, ← hsplit, rowText]
  simp

theorem fields_row (row : VersionRow) :
    (formatUint row.1 ++ 44 :: formatUint row.2).splitOn 44 =
      [formatUint row.1, formatUint row.2] := by
  have hfirst : ∀ b ∈ formatUint row.1, (b == 44) = false :=
    fun b hb => ne_of_mem_formatUint (by decide) hb
  have hsecond : ∀ b ∈ formatUint row.2, (b == 44) = false :=
    fun b hb => ne_of_mem_formatUint (by decide) hb
  rw [splitOn, splitOnP_append_cons_of_forall_mem hfirst 44 rfl, splitOnP_eq_singleton hsecond]

theorem mapM_cons_ok {α β : Type} {f : α → Except VersionsFileError β} {a : α} {b : β}
    (hb : f a = .ok b) (as : List α) : (a :: as).mapM f = (as.mapM f).map (b :: ·) := by
  rw [mapM_cons, hb]
  cases as.mapM f with
  | error e => rfl
  | ok bs => rfl

theorem forall_of_mapM_ok {α β : Type} {f : α → Except VersionsFileError β} {P : β → Prop}
    (hf : ∀ a b, f a = .ok b → P b) {as : List α} {bs : List β} (hbs : as.mapM f = .ok bs) :
    ∀ b ∈ bs, P b := by
  induction as generalizing bs with
  | nil =>
    cases hbs
    exact forall_mem_nil P
  | cons a as ih =>
    cases hfirst : f a with
    | error e =>
      rw [mapM_cons, hfirst] at hbs
      cases hbs
    | ok first =>
      rw [mapM_cons_ok hfirst] at hbs
      cases hrest : as.mapM f with
      | error e =>
        rw [hrest] at hbs
        cases hbs
      | ok rest =>
        rw [hrest] at hbs
        cases hbs
        exact forall_mem_cons.mpr ⟨hf a first hfirst, ih hrest⟩

theorem readRows_row (hrow : row.1 < 2 ^ 64 ∧ row.2 < 2 ^ 64) :
    readRows (rowText row ++ tail) = (readRows tail).map (row :: ·) := by
  have hline : decide (formatUint row.1 ++ 44 :: formatUint row.2 ≠ []) = true := by simp
  have hrecord : readRecord (formatUint row.1 ++ 44 :: formatUint row.2) =
      .ok (formatUint row.1, formatUint row.2) := by
    rw [readRecord, fields_row]
  have hparse : parseRow (formatUint row.1, formatUint row.2) = .ok row := by
    simp [parseRow, parseUint_formatUint hrow.1, parseUint_formatUint hrow.2]
  have hall : readAll (rowText row ++ tail) =
      (readAll tail).map ((formatUint row.1, formatUint row.2) :: ·) := by
    rw [readAll, splitOn_rowText, filter_cons, if_pos hline, mapM_cons_ok hrecord]
    rfl
  rw [readRows, readRows, hall]
  cases readAll tail with
  | error e => rfl
  | ok fields => exact mapM_cons_ok hparse fields

theorem readRows_append (hrows : ∀ row ∈ rows, row.1 < 2 ^ 64 ∧ row.2 < 2 ^ 64) :
    readRows (rows.flatMap rowText ++ tail) = (readRows tail).map (rows ++ ·) := by
  induction rows with
  | nil =>
    rw [flatMap_nil, nil_append]
    cases readRows tail with
    | error e => rfl
    | ok rows => rfl
  | cons row rows ih =>
    obtain ⟨hrow, hrows⟩ := forall_mem_cons.mp hrows
    rw [flatMap_cons, append_assoc, readRows_row hrow, ih hrows]
    cases readRows tail with
    | error e => rfl
    | ok rows => rfl

end Text

section Rows

variable {rows tail : List VersionRow} {ver ts : Nat}

theorem rowMap_concat (rows : List VersionRow) (row : VersionRow) (ver : Nat) :
    rowMap (rows ++ [row]) ver = if ver = row.1 then some row.2 else rowMap rows ver := by
  rw [rowMap, foldl_append, foldl_cons, foldl_nil, Function.update_apply]
  rfl

theorem rowMap_append (rows tail : List VersionRow) (ver : Nat) :
    rowMap (rows ++ tail) ver = (rowMap tail ver).or (rowMap rows ver) := by
  induction tail using reverseRecOn with
  | nil => simp [rowMap]
  | append_singleton tail row ih =>
    rw [← append_assoc, rowMap_concat, rowMap_concat, ih]
    split_ifs with hver
    · rfl
    · rfl

theorem rowLastTs_eq (rows : List VersionRow) : rowLastTs rows = (rowMap rows 0).getD 0 := by
  induction rows using reverseRecOn with
  | nil => rfl
  | append_singleton rows row ih =>
    rw [rowMap_concat, rowLastTs, foldl_append, foldl_cons, foldl_nil]
    by_cases hzero : row.1 = 0
    · rw [if_pos hzero, if_pos hzero.symm]
      rfl
    · rw [if_neg hzero, if_neg (Ne.symm hzero), ← ih]
      rfl

theorem rowMap_ne_none_iff : rowMap rows ver ≠ none ↔ ver ∈ rows.map Prod.fst := by
  induction rows using reverseRecOn with
  | nil => simp [rowMap]
  | append_singleton rows row ih =>
    rw [rowMap_concat, map_append, mem_append, ← ih]
    split_ifs with hver
    · simp [hver]
    · simp [hver]

theorem mem_of_rowMap (hts : rowMap rows ver = some ts) : (ver, ts) ∈ rows := by
  induction rows using reverseRecOn with
  | nil => cases hts
  | append_singleton rows row ih =>
    rw [rowMap_concat] at hts
    split_ifs at hts with hver
    · cases hts
      rw [hver]
      exact mem_append.mpr (.inr mem_cons_self)
    · exact mem_append.mpr (.inl (ih hts))

end Rows

def afterZero (versions : List Nat) : List Nat :=
  versions.foldl (fun after ver => if ver = 0 then [] else after ++ [ver]) []

def First (versions : List Nat) (first : Nat) : Prop :=
  (versions = [] ∧ first = 0) ∨ IsLeast {ver | ver ∈ versions} first

section Loaded

variable {versions : List Nat}

theorem First.unique {a b : Nat} (ha : First versions a) (hb : First versions b) : a = b := by
  rcases ha with ⟨hnil, rfl⟩ | ha
  · rcases hb with ⟨_, rfl⟩ | hb
    · rfl
    · have hmem := hb.1
      simp [hnil] at hmem
  · rcases hb with ⟨hnil, _⟩ | hb
    · have hmem := ha.1
      simp [hnil] at hmem
    · exact ha.unique hb

theorem afterZero_concat (versions : List Nat) (ver : Nat) :
    afterZero (versions ++ [ver]) = if ver = 0 then [] else afterZero versions ++ [ver] := by
  rw [afterZero, foldl_append, foldl_cons, foldl_nil]
  rfl

theorem ne_zero_of_mem_afterZero {ver : Nat} (hver : ver ∈ afterZero versions) : ver ≠ 0 := by
  induction versions using reverseRecOn generalizing ver with
  | nil => cases hver
  | append_singleton versions last ih =>
    rw [afterZero_concat] at hver
    split_ifs at hver with hzero
    · cases hver
    · rcases mem_append.mp hver with hver | hver
      · exact ih hver
      · rw [mem_singleton.mp hver]
        exact hzero

theorem first_initial (versions : List Nat) :
    First (afterZero versions) (VersionManager.NewVersionManager versions).initial := by
  induction versions using reverseRecOn with
  | nil => exact .inl ⟨rfl, rfl⟩
  | append_singleton versions ver ih =>
    have hinitial : (VersionManager.NewVersionManager (versions ++ [ver])).initial =
        if (VersionManager.NewVersionManager versions).initial = 0 ∨
            ver < (VersionManager.NewVersionManager versions).initial then ver
        else (VersionManager.NewVersionManager versions).initial := by
      exact foldl_concat _ _ _ _
    rw [hinitial, afterZero_concat]
    generalize (VersionManager.NewVersionManager versions).initial = first at ih
    by_cases hzero : ver = 0
    · rw [if_pos hzero]
      refine .inl ⟨rfl, ?_⟩
      split_ifs with hfirst
      · exact hzero
      · omega
    · rw [if_neg hzero]
      refine .inr ?_
      rcases ih with ⟨hnil, rfl⟩ | ⟨hmem, hle⟩
      · simp [hnil, IsLeast, lowerBounds]
      have hne := ne_zero_of_mem_afterZero hmem
      split_ifs with hlt
      · refine ⟨mem_append.mpr (.inr mem_cons_self), fun x hx => ?_⟩
        rcases mem_append.mp hx with hx | hx
        · have := hle hx
          omega
        · exact (mem_singleton.mp hx).ge
      · refine ⟨mem_append.mpr (.inl hmem), fun x hx => ?_⟩
        rcases mem_append.mp hx with hx | hx
        · exact hle hx
        · rw [mem_singleton.mp hx]
          omega

end Loaded

open Option

namespace BadgerVersionManager

section OfRows

variable {rows : List VersionRow} {ver : Nat}

theorem mem_versions_ofRows : ver ∈ (ofRows rows).vm.versions ↔ ver ∈ rows.map Prod.fst :=
  mem_toFinset

theorem lastTs_ofRows (rows : List VersionRow) :
    (ofRows rows).lastTs = ((ofRows rows).vmap 0).getD 0 :=
  rowLastTs_eq rows

theorem first_ofRows (row : VersionRow) (hzero : row.1 = 0) (rows : List VersionRow) :
    First (afterZero (rows.map Prod.fst)) (ofRows (row :: rows)).vm.Initial := by
  have hfirst := first_initial ((row :: rows).map Prod.fst)
  rw [map_cons, afterZero, foldl_cons, if_pos hzero] at hfirst
  exact hfirst

theorem isGreatest_ofRows (hzero : 0 ∈ rows.map Prod.fst) :
    IsGreatest ((ofRows rows).vm.versions : Set Nat) (ofRows rows).vm.Last := by
  have hset : {ver | ver ∈ 0 :: rows.map Prod.fst} = ((ofRows rows).vm.versions : Set Nat) := by
    ext ver
    rw [Set.mem_ofPred_eq, Finset.mem_coe, mem_versions_ofRows, mem_cons]
    exact ⟨fun hver => hver.elim (fun h => h ▸ hzero) id, .inr⟩
  rw [← hset]
  exact VersionManager.foldl_last 0 (rows.map Prod.fst)

end OfRows

section ReadBack

variable {m : BadgerVersionManager} {order : List Nat}

structure Mapped (m : BadgerVersionManager) : Prop where
  mapped : ∀ ver, m.vmap ver ≠ none ↔ ver ∈ m.vm.versions
  sized : ∀ ver ∈ m.vm.versions, ver < 2 ^ 64
  stamps : ∀ ver ts, m.vmap ver = some ts → ts < 2 ^ 64
  lastTs : m.lastTs < 2 ^ 64

structure Restored (m m' : BadgerVersionManager) : Prop where
  versions : m'.vm.versions = m.vm.versions
  stamps : ∀ ver ∈ m.vm.versions, m'.vmap ver = m.vmap ver
  initial : m'.vm.Initial = m.vm.Initial
  last : m'.vm.Last = m.vm.Last
  lastTs : m'.lastTs = m.lastTs

/-- A file is read back: version `0` has the last commit timestamp, `Last` is the largest version,
what the old file has behind the new text has the timestamps in memory too, and `Initial` is the
least version after the last row for version `0`. -/
def Legible (m : BadgerVersionManager) (order : List Nat) (old : Bytes) : Prop :=
  m.vmap 0 = some m.lastTs ∧ IsGreatest (m.vm.versions : Set Nat) m.vm.Last ∧
    ∀ rows, m.versionRows order = some rows →
      ∃ tail, readRows (old.drop (rows.flatMap rowText).length) = .ok tail ∧
        (∀ ver ts, rowMap tail ver = some ts → m.vmap ver = some ts) ∧
        First (afterZero (order ++ tail.map Prod.fst)) m.vm.Initial

theorem mapM_vmap (horder : ∀ ver ∈ order, m.vmap ver ≠ none) :
    ∃ rows, (order.mapM fun ver => (m.vmap ver).map fun ts => (ver, ts)) = some rows ∧
      rows.map Prod.fst = order ∧ ∀ row ∈ rows, m.vmap row.1 = some row.2 := by
  induction order with
  | nil => exact ⟨[], rfl, rfl, by simp⟩
  | cons ver order ih =>
    obtain ⟨hver, horder⟩ := forall_mem_cons.mp horder
    obtain ⟨rows, hrows, hfst, hmap⟩ := ih horder
    obtain ⟨ts, hts⟩ := ne_none_iff_exists'.mp hver
    refine ⟨(ver, ts) :: rows, ?_, by simp [hfst], ?_⟩
    · rw [mapM_cons, hrows, hts]
      rfl
    · exact forall_mem_cons.mpr ⟨hts, hmap⟩

theorem versionRows_eq (hmapped : Mapped m) (hwalk : m.vm.Walk order) :
    ∃ rows, m.versionRows order = some ((0, m.lastTs) :: rows) ∧ rows.map Prod.fst = order ∧
      rowMap rows = m.vmap ∧
      ∀ row ∈ (0, m.lastTs) :: rows, row.1 < 2 ^ 64 ∧ row.2 < 2 ^ 64 := by
  have hmem : ∀ ver, ver ∈ order ↔ ver ∈ m.vm.versions := by
    intro ver
    rw [← hwalk.2, List.mem_toFinset]
  obtain ⟨rows, hrows, hfst, hmap⟩ :=
    mapM_vmap fun ver hver => (hmapped.mapped ver).mpr ((hmem ver).mp hver)
  refine ⟨rows, by rw [versionRows, hrows]; rfl, hfst, ?_, ?_⟩
  · funext ver
    cases hts : rowMap rows ver with
    | some ts => exact (hmap _ (mem_of_rowMap hts)).symm
    | none =>
      have hnot : ver ∉ m.vm.versions := by
        rw [← hmem, ← hfst, ← rowMap_ne_none_iff]
        exact not_not.mpr hts
      by_contra hne
      exact hnot ((hmapped.mapped ver).mp fun h => hne h.symm)
  · refine forall_mem_cons.mpr ⟨⟨Nat.two_pow_pos 64, hmapped.lastTs⟩, fun row hrow => ?_⟩
    have hver : row.1 ∈ m.vm.versions :=
      (hmapped.mapped row.1).mp (by rw [hmap row hrow]; exact some_ne_none _)
    exact ⟨hmapped.sized _ hver, hmapped.stamps _ _ (hmap row hrow)⟩

section Written

variable {rows tail : List VersionRow}

theorem mem_versions_written (hwalk : m.vm.Walk order) (hfst : rows.map Prod.fst = order)
    {ver : Nat} : ver ∈ (ofRows ((0, m.lastTs) :: rows ++ tail)).vm.versions ↔
      ver = 0 ∨ ver ∈ m.vm.versions ∨ ver ∈ tail.map Prod.fst := by
  rw [mem_versions_ofRows, ← hwalk.2, ← hfst]
  simp

theorem vmap_written (hmap : rowMap rows = m.vmap) (ver : Nat) :
    (ofRows ((0, m.lastTs) :: rows ++ tail)).vmap ver =
      (rowMap tail ver).or ((m.vmap ver).or (rowMap [(0, m.lastTs)] ver)) := by
  rw [← hmap, ← rowMap_append, ← rowMap_append]
  rfl

theorem stamps_written (hmapped : Mapped m) (hmap : rowMap rows = m.vmap)
    (hagree : ∀ ver ts, rowMap tail ver = some ts → m.vmap ver = some ts) :
    ∀ ver ∈ m.vm.versions, (ofRows ((0, m.lastTs) :: rows ++ tail)).vmap ver = m.vmap ver := by
  intro ver hver
  obtain ⟨ts, hts⟩ := ne_none_iff_exists'.mp ((hmapped.mapped ver).mpr hver)
  rw [vmap_written hmap, hts]
  cases htail : rowMap tail ver with
  | none => rfl
  | some ts' =>
    have hsame := hagree ver ts' htail
    rw [hts] at hsame
    exact hsame.symm

theorem versions_written (hmapped : Mapped m) (hwalk : m.vm.Walk order)
    (hfst : rows.map Prod.fst = order) (hzero : 0 ∈ m.vm.versions)
    (hagree : ∀ ver ts, rowMap tail ver = some ts → m.vmap ver = some ts) :
    (ofRows ((0, m.lastTs) :: rows ++ tail)).vm.versions = m.vm.versions := by
  ext ver
  rw [mem_versions_written hwalk hfst]
  constructor
  · rintro (rfl | hver | hver)
    · exact hzero
    · exact hver
    · obtain ⟨ts, hts⟩ := ne_none_iff_exists'.mp (rowMap_ne_none_iff.mpr hver)
      exact (hmapped.mapped ver).mp (by simp [hagree ver ts hts])
  · exact fun hver => .inr (.inl hver)

theorem restored_iff (hmapped : Mapped m) (hwalk : m.vm.Walk order)
    (hfst : rows.map Prod.fst = order) (hmap : rowMap rows = m.vmap) :
    Restored m (ofRows ((0, m.lastTs) :: rows ++ tail)) ↔
      m.vmap 0 = some m.lastTs ∧ IsGreatest (m.vm.versions : Set Nat) m.vm.Last ∧
        (∀ ver ts, rowMap tail ver = some ts → m.vmap ver = some ts) ∧
        First (afterZero (order ++ tail.map Prod.fst)) m.vm.Initial := by
  have hinitial : First (afterZero (order ++ tail.map Prod.fst))
      (ofRows ((0, m.lastTs) :: rows ++ tail)).vm.Initial := by
    rw [← hfst, ← map_append]
    exact first_ofRows _ rfl _
  have hgreatest : IsGreatest ((ofRows ((0, m.lastTs) :: rows ++ tail)).vm.versions : Set Nat) _ :=
    isGreatest_ofRows mem_cons_self
  constructor
  · intro hrestored
    have hzero : 0 ∈ m.vm.versions := by
      rw [← hrestored.versions, mem_versions_written hwalk hfst]
      exact .inl rfl
    have hstamp := hrestored.stamps 0 hzero
    obtain ⟨ts, hts⟩ := ne_none_iff_exists'.mp ((hmapped.mapped 0).mpr hzero)
    refine ⟨?_, hrestored.last ▸ hrestored.versions ▸ hgreatest, fun ver ts hver => ?_,
      hrestored.initial ▸ hinitial⟩
    · have hts' := hrestored.lastTs
      rw [lastTs_ofRows, hstamp, hts] at hts'
      rw [hts, ← hts']
      rfl
    · have hmem : ver ∈ m.vm.versions := by
        rw [← hrestored.versions, mem_versions_written hwalk hfst]
        exact .inr (.inr (rowMap_ne_none_iff.mp (by simp [hver])))
      rw [← hrestored.stamps ver hmem, vmap_written hmap, hver]
      rfl
  · rintro ⟨hzero, hlast, hagree, hfirst⟩
    have hmem : 0 ∈ m.vm.versions := (hmapped.mapped 0).mp (by simp [hzero])
    have hstamps := stamps_written hmapped hmap hagree
    have hversions := versions_written hmapped hwalk hfst hmem hagree
    rw [hversions] at hgreatest
    refine ⟨hversions, hstamps, hinitial.unique hfirst, hgreatest.unique hlast, ?_⟩
    rw [lastTs_ofRows, hstamps 0 hmem, hzero]
    rfl

end Written

/-- **One close.** What is written over the old file is read back exactly when it is legible. -/
theorem readBack_iff (old : Bytes) (hmapped : Mapped m) (hwalk : m.vm.Walk order) :
    (∃ file m', m.writeVersionsFile order old = some file ∧ readVersionsFile file = .ok m' ∧
      Restored m m') ↔ m.Legible order old := by
  obtain ⟨rows, hrows, hfst, hmap, hsized⟩ := versionRows_eq hmapped hwalk
  have hread : ∀ text, readVersionsFile (((0, m.lastTs) :: rows).flatMap rowText ++ text) =
      (readRows text).map fun tail => ofRows ((0, m.lastTs) :: rows ++ tail) := by
    intro text
    rw [readVersionsFile, readRows_append hsized]
    cases readRows text with
    | error e => rfl
    | ok tail => rfl
  have hwrite : m.writeVersionsFile order old =
      some (((0, m.lastTs) :: rows).flatMap rowText ++
        old.drop (((0, m.lastTs) :: rows).flatMap rowText).length) := by
    rw [writeVersionsFile, hrows]
    rfl
  constructor
  · rintro ⟨file, m', hfile, hm', hrestored⟩
    rw [hwrite] at hfile
    cases hfile
    rw [hread] at hm'
    cases htail : readRows (old.drop (((0, m.lastTs) :: rows).flatMap rowText).length) with
    | error e =>
      rw [htail] at hm'
      cases hm'
    | ok tail =>
      rw [htail] at hm'
      cases hm'
      obtain ⟨hzero, hlast, hagree, hfirst⟩ :=
        (restored_iff hmapped hwalk hfst hmap).mp hrestored
      refine ⟨hzero, hlast, fun rows' hrows' => ?_⟩
      cases hrows.symm.trans hrows'
      exact ⟨tail, htail, hagree, hfirst⟩
  · rintro ⟨hzero, hlast, hrest⟩
    obtain ⟨tail, htail, hagree, hfirst⟩ := hrest _ hrows
    refine ⟨_, ofRows ((0, m.lastTs) :: rows ++ tail), hwrite, ?_, ?_⟩
    · rw [hread, htail]
      rfl
    · exact (restored_iff hmapped hwalk hfst hmap).mpr ⟨hzero, hlast, hagree, hfirst⟩

end ReadBack

end BadgerVersionManager

structure VersionsFileRun where
  file : Bytes
  vmgr : BadgerVersionManager
  isOpen : Bool

namespace VersionsFileRun

/-- Commits, saved and deleted versions (`0` is the next one), a close in an order of iteration, and
an opening. -/
inductive Op where
  | commit (readTs : Nat)
  | save (target : Nat)
  | delete (target : Nat)
  | close (order : List Nat)
  | reopen
deriving DecidableEq, Repr

open BadgerVersionManager

def fresh : VersionsFileRun where
  file := []
  vmgr := ofRows []
  isOpen := true

variable (s : VersionsFileRun)

def step : Op → Option VersionsFileRun
  | .commit readTs =>
    if s.isOpen then some { s with vmgr := s.vmgr.updateCommitTs readTs } else none
  | .save target =>
    if s.isOpen then
      match s.vmgr.Save target with
      | .error _ => some s
      | .ok (_, vmgr) => some { s with vmgr := vmgr }
    else none
  | .delete target =>
    if s.isOpen then
      if s.vmgr.vm.Exists target then some { s with vmgr := s.vmgr.Delete target }
      else some s
    else none
  | .close order =>
    if s.isOpen ∧ order.Nodup ∧ order.toFinset = s.vmgr.vm.versions then
      (s.vmgr.writeVersionsFile order s.file).map fun file =>
        { s with file := file, isOpen := false }
    else none
  | .reopen =>
    if s.isOpen then none
    else
      match readVersionsFile s.file with
      | .error _ => none
      | .ok vmgr => some { s with vmgr := vmgr, isOpen := true }

def ReadsBack : Prop :=
  s.isOpen = false → ∃ m', readVersionsFile s.file = .ok m' ∧
    Restored s.vmgr m'

def Op.Ranged : Op → Prop
  | .save target => target < 2 ^ 64
  | _ => True

def ClosesLegibly (op : Op) : Prop :=
  ∀ order, op = .close order → s.isOpen = true → s.vmgr.vm.Walk order → s.vmgr.Legible order s.file

section Run

variable {s s' : VersionsFileRun} {op : Op} {m m' : BadgerVersionManager}

theorem mapped_Save {target id : Nat} (hmapped : m.Mapped)
    (htarget : target < 2 ^ 64) (hsave : m.Save target = .ok (id, m')) : m'.Mapped := by
  unfold Save at hsave
  split at hsave
  · cases hsave
  rename_i id' vm hvm
  cases hsave
  have hid := VersionManager.Save_lt htarget hvm
  obtain ⟨_, rfl, _⟩ := VersionManager.Save_ok hvm
  constructor
  · intro ver
    by_cases hver : ver = id
    · simp [hver, VersionManager.add]
    · simpa [hver, VersionManager.add] using hmapped.mapped ver
  · simp only [VersionManager.add, Finset.mem_insert, forall_eq_or_imp]
    exact ⟨hid, hmapped.sized⟩
  · intro ver ts hts
    by_cases hver : ver = id
    · simp only [hver, Function.update_self, some.injEq] at hts
      rw [← hts]
      exact hmapped.lastTs
    · exact hmapped.stamps ver ts (by simpa [hver] using hts)
  · exact hmapped.lastTs

theorem mapped_Delete (hmapped : m.Mapped) (target : Nat) : (m.Delete target).Mapped := by
  constructor
  · intro ver
    by_cases hver : ver = target
    · simp [Delete, VersionManager.Delete, hver]
    · simpa [Delete, VersionManager.Delete, hver] using hmapped.mapped ver
  · exact fun ver hver => hmapped.sized ver (Finset.mem_of_mem_erase hver)
  · intro ver ts hts
    by_cases hver : ver = target
    · simp [Delete, hver] at hts
    · exact hmapped.stamps ver ts (by simpa [Delete, hver] using hts)
  · exact hmapped.lastTs

variable {text file : Bytes}

theorem parseUint_lt {n : Nat} (hparse : parseUint text = some n) : n < 2 ^ 64 := by
  unfold parseUint at hparse
  dsimp only at hparse
  split_ifs at hparse with hvalid
  cases hparse
  exact hvalid.2.2

theorem sized_of_readRows {rows : List VersionRow}
    (hread : readRows text = .ok rows) : ∀ row ∈ rows, row.1 < 2 ^ 64 ∧ row.2 < 2 ^ 64 := by
  have hparse : ∀ fields row, parseRow fields = .ok row → row.1 < 2 ^ 64 ∧ row.2 < 2 ^ 64 := by
    intro fields row hrow
    unfold parseRow at hrow
    split at hrow
    · cases hrow
      exact ⟨parseUint_lt ‹_›, parseUint_lt ‹_›⟩
    · cases hrow
  unfold readRows at hread
  cases hrecords : readAll text with
  | error e =>
    rw [hrecords] at hread
    cases hread
  | ok records =>
    rw [hrecords] at hread
    exact forall_of_mapM_ok hparse hread

theorem readVersionsFile_of_rows (rows : List VersionRow) (hrows : readRows file = .ok rows) :
    readVersionsFile file = .ok (ofRows rows) := by
  rw [readVersionsFile, hrows]
  rfl

theorem mapped_readVersionsFile
    (hread : readVersionsFile file = .ok m) : m.Mapped := by
  unfold readVersionsFile at hread
  cases hrows : readRows file with
  | error e =>
    rw [hrows] at hread
    cases hread
  | ok rows =>
    rw [hrows] at hread
    cases hread
    have hsized := sized_of_readRows hrows
    have hstamps : ∀ ver ts, rowMap rows ver = some ts → ts < 2 ^ 64 :=
      fun ver ts hts => (hsized _ (mem_of_rowMap hts)).2
    refine ⟨fun ver => ?_, fun ver hver => ?_, hstamps, ?_⟩
    · rw [mem_versions_ofRows]
      exact rowMap_ne_none_iff
    · obtain ⟨row, hrow, rfl⟩ := mem_map.mp (mem_versions_ofRows.mp hver)
      exact (hsized row hrow).1
    · rw [lastTs_ofRows]
      cases hts : (ofRows rows).vmap 0 with
      | none => exact Nat.two_pow_pos 64
      | some ts => exact hstamps 0 ts hts

theorem mapped_step (hmapped : s.vmgr.Mapped) (hranged : op.Ranged)
    (hstep : step s op = some s') : s'.vmgr.Mapped := by
  cases op with
  | commit readTs =>
    obtain ⟨-, rfl⟩ := of_guard hstep
    obtain ⟨hvm, hvmap⟩ := BadgerBackend.updateCommitTs_vm s.vmgr readTs
    refine ⟨?_, ?_, ?_, ?_⟩
    · intro ver
      rw [hvm, hvmap]
      exact hmapped.mapped ver
    · rw [hvm]
      exact hmapped.sized
    · rw [hvmap]
      exact hmapped.stamps
    · rw [updateCommitTs]
      split_ifs
      · exact Nat.mod_lt _ (Nat.two_pow_pos 64)
      · exact hmapped.lastTs
  | save target =>
    simp only [step] at hstep
    split_ifs at hstep
    split at hstep
    · cases hstep
      exact hmapped
    · cases hstep
      exact mapped_Save hmapped hranged ‹_›
  | delete target =>
    simp only [step] at hstep
    split_ifs at hstep
    · cases hstep
      exact mapped_Delete hmapped target
    · cases hstep
      exact hmapped
  | close order =>
    simp only [step] at hstep
    split_ifs at hstep
    obtain ⟨file, _, rfl⟩ := map_eq_some_iff.mp hstep
    exact hmapped
  | reopen =>
    simp only [step] at hstep
    split_ifs at hstep
    split at hstep
    · cases hstep
    · cases hstep
      exact mapped_readVersionsFile ‹_›

theorem isOpen_of_step (hclose : ∀ order, op ≠ .close order) (hstep : step s op = some s') :
    s'.isOpen = true := by
  cases op with
  | commit readTs =>
    obtain ⟨hopen, rfl⟩ := of_guard hstep
    exact hopen
  | save target =>
    simp only [step] at hstep
    split_ifs at hstep with hopen
    split at hstep <;> cases hstep <;> exact hopen
  | delete target =>
    simp only [step] at hstep
    split_ifs at hstep with hopen <;> cases hstep <;> exact hopen
  | close order => exact absurd rfl (hclose order)
  | reopen =>
    simp only [step] at hstep
    split_ifs at hstep
    split at hstep
    · cases hstep
    · cases hstep
      rfl

theorem close_eq {order : List Nat} (hopen : s.isOpen = true) (hwalk : s.vmgr.vm.Walk order) :
    step s (.close order) = (s.vmgr.writeVersionsFile order s.file).map fun file =>
      { s with file := file, isOpen := false } := by
  exact if_pos ⟨hopen, hwalk.1, hwalk.2⟩

theorem readsBack_step_iff (hmapped : s.vmgr.Mapped) (hstep : step s op = some s') :
    ReadsBack s' ↔ ClosesLegibly s op := by
  by_cases hclose : ∃ order, op = .close order
  · obtain ⟨order, rfl⟩ := hclose
    have henabled : s.isOpen = true ∧ s.vmgr.vm.Walk order := by
      simp only [step] at hstep
      split_ifs at hstep with henabled
      exact ⟨henabled.1, henabled.2⟩
    obtain ⟨hopen, hwalk⟩ := henabled
    rw [close_eq hopen hwalk] at hstep
    obtain ⟨file, hfile, rfl⟩ := map_eq_some_iff.mp hstep
    have hiff := readBack_iff s.file hmapped hwalk
    constructor
    · rintro hback _ ⟨⟩ _ _
      obtain ⟨m', hread, hrestored⟩ := hback rfl
      exact hiff.mp ⟨file, m', hfile, hread, hrestored⟩
    · intro hlegible _
      obtain ⟨file', m', hfile', hread, hrestored⟩ := hiff.mpr (hlegible order rfl hopen hwalk)
      cases hfile.symm.trans hfile'
      exact ⟨m', hread, hrestored⟩
  · have hother := not_exists.mp hclose
    constructor
    · exact fun _ order hop => absurd hop (hother order)
    · intro _ hclosed
      rw [isOpen_of_step hother hstep] at hclosed
      cases hclosed

theorem closesLegibly_of_disabled (hmapped : s.vmgr.Mapped) (hstep : step s op = none) :
    ClosesLegibly s op := by
  rintro order rfl hopen hwalk
  obtain ⟨rows, hrows, _⟩ := versionRows_eq hmapped hwalk
  rw [close_eq hopen hwalk, writeVersionsFile, hrows] at hstep
  cases hstep

end Run

/-- **The versions file over a run.** Every close is read back as what is in memory exactly when it
is legible. -/
theorem versionsFile_iff (s : VersionsFileRun) (ops : List Op) (hopen : s.isOpen = true)
    (hmapped : s.vmgr.Mapped) (hranged : ∀ op ∈ ops, op.Ranged) :
    Throughout step ReadsBack s ops ↔ Along step ClosesLegibly s ops := by
  have hinv : ∀ (s : VersionsFileRun) op s', s.vmgr.Mapped → op.Ranged → step s op = some s' →
      s'.vmgr.Mapped :=
    fun _ _ _ => mapped_step
  have hexact : ∀ (s : VersionsFileRun) op s', s.vmgr.Mapped → ReadsBack s → op.Ranged →
      step s op = some s' → (ReadsBack s' ↔ ClosesLegibly s op) :=
    fun _ _ _ hmapped _ _ => readsBack_step_iff hmapped
  have hidle : ∀ (s : VersionsFileRun) op, s.vmgr.Mapped → ReadsBack s → step s op = none →
      ClosesLegibly s op :=
    fun _ _ hmapped _ => closesLegibly_of_disabled hmapped
  have hstart : ReadsBack s := by
    intro hclosed
    rw [hopen] at hclosed
    cases hclosed
  exact throughout_iff_along_of hinv hexact hidle hmapped hstart
    (along_of_forall_mem (fun op hop _ => hranged op hop) s)

theorem versionsFile_of_reopened :
    Throughout step ReadsBack
      { file := ascii "0,1\n1,1\n"
        vmgr := ofRows [(0, 1), (1, 1)]
        isOpen := true }
      [.close [0, 1], .reopen, .close [0, 1]] := by
  have hlegible : ∀ (m : BadgerVersionManager) old, m.vmap 0 = some m.lastTs →
      m.vmap 1 = some 1 → m.lastTs = 1 → m.vm.versions = {0, 1} → m.vm.Initial = 1 →
      m.vm.Last = 1 → old.length ≤ 12 → m.Legible [0, 1] old := by
    intro m old hzero hone hlastTs hversions hinitial hlast hold
    refine ⟨hzero, ?_, fun rows hrows => ⟨[], ?_, by simp [rowMap], .inr ?_⟩⟩
    · rw [hversions, hlast]
      simp [IsGreatest, upperBounds]
    · have htext : (rows.flatMap rowText).length = 12 := by
        simp only [versionRows, mapM_cons, hzero, hone, hlastTs] at hrows
        cases hrows
        decide +kernel
      rw [htext, drop_eq_nil_of_le hold]
      rfl
    · rw [hinitial]
      simp [afterZero, IsLeast, lowerBounds]
  have hread := readVersionsFile_of_rows [(0, 1), (1, 1)]
    (show readRows (ascii "0,1\n1,1\n") = _ by decide +kernel)
  refine (versionsFile_iff _ _ rfl (mapped_readVersionsFile hread) (by simp [Op.Ranged])).mpr ?_
  refine ⟨?_, ?_⟩
  · rintro _ ⟨⟩ _ _
    exact hlegible _ _ rfl rfl rfl rfl rfl rfl (by decide +kernel)
  rintro _ ⟨⟩
  refine ⟨by simp [ClosesLegibly], ?_⟩
  intro s' hs'
  cases hs'
  refine ⟨?_, fun _ _ => trivial⟩
  rintro _ ⟨⟩ _ _
  exact hlegible _ _ rfl rfl rfl rfl rfl rfl (by decide +kernel)

/-- The first close adds version `0`. The row of a deleted version can stay behind the new text. A
longer timestamp can leave a row that can not be read. -/
theorem versionsFile_fails_on_first_close :
    ¬ Throughout step ReadsBack fresh [.commit 0, .save 1, .close [1]] ∧
      ([Op.commit 0, .save 1, .save 2, .close [1, 2], .reopen, .delete 1, .delete 2,
        .close [0], .reopen].foldlM step fresh).map (·.vmgr.vm.Exists 2) = some true ∧
      [Op.commit 0, .save 1, .save 2, .close [1, 2], .reopen, .commit 1, .commit 2, .commit 3,
        .commit 4, .commit 5, .commit 6, .commit 7, .commit 8, .commit 9, .delete 1, .delete 2,
        .close [0], .reopen].foldlM step fresh = none := by
  refine ⟨fun hall => ?_, by decide +kernel, ?_⟩
  · obtain ⟨m', hread, hrestored⟩ := hall _ _ prefix_rfl rfl rfl
    have hm' : ofRows [(0, 1), (1, 1)] = m' := by
      refine Except.ok.inj ((readVersionsFile_of_rows [(0, 1), (1, 1)] ?_).symm.trans hread)
      decide +kernel
    have hzero : 0 ∈ m'.vm.versions := by
      rw [← hm']
      decide +kernel
    rw [hrestored.versions] at hzero
    revert hzero
    decide +kernel
  · decide +kernel

end VersionsFileRun

end Topia.Ledger
