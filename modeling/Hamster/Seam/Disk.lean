import Hamster.CodeLib.Crash
import Hamster.CodeLib.SortedKV
import Mathlib.Data.List.Sort

/-!
# The disk of a node

`internal/seam/seam.go` and the disk of `internal/sim/disk.go`.  A change of a
file is staged until `sync` makes it durable.

`CrashesTo` is the crash contract of `seam.Disk`: a file with a staged change
holds its durable content afterwards, or a prefix of the staged content that
keeps what was durable before an append; a staged removal may have happened.
The simulator's `crash` picks one of these for each file
(`crash_crashesTo`).

Names stand for paths that pass `fs.ValidPath`, and an operation fails only
where a file does not exist.
-/

namespace Hamster.Seam

open CodeLib

/-- One change that is not durable yet.  `keep` bytes of `data` were durable
when the staging began by appending. -/
structure StagedChange where
  data : Bytes := []
  keep : Nat := 0
  removed : Bool := false
deriving DecidableEq

structure Disk where
  durable : SortedKV Bytes Bytes
  staged : SortedKV Bytes StagedChange

namespace Disk

def newDisk : Disk := ⟨SortedKV.empty, SortedKV.empty⟩

def writeFile (d : Disk) (name data : Bytes) : Disk :=
  { d with staged := d.staged.set name { data := data } }

def appendBase (d : Disk) (name : Bytes) : StagedChange :=
  match d.staged.get name with
  | none =>
    -- the first staged change: a crash cannot take the durable content back
    let durable := (d.durable.get name).getD []
    { data := durable, keep := durable.length }
  | some st => if st.removed then {} else st

def append (d : Disk) (name data : Bytes) : Disk :=
  let st := d.appendBase name
  { d with staged := d.staged.set name { st with data := st.data ++ data } }

def sync (d : Disk) (name : Bytes) : Disk :=
  match d.staged.get name with
  | none => d
  | some st =>
    { durable := if st.removed then d.durable.delete name else d.durable.set name st.data
      staged := d.staged.delete name }

def readFile (d : Disk) (name : Bytes) : Option Bytes :=
  match d.staged.get name with
  | some st => if st.removed then none else some st.data
  | none => d.durable.get name

def remove (d : Disk) (name : Bytes) : Option Disk :=
  let gone := { d with staged := d.staged.set name { removed := true } }
  match d.staged.get name with
  | some st => if st.removed then none else some gone
  | none => if (d.durable.get name).isNone then none else some gone

/-- The change staged for a name is a removal. -/
def stagedRemoved (d : Disk) (name : Bytes) : Bool :=
  ((d.staged.get name).map StagedChange.removed).getD false

def list (d : Disk) : List Bytes :=
  (d.durable.keys.filter (fun name => !d.stagedRemoved name) ++
    d.staged.keys.filter
      (fun name => !d.stagedRemoved name && (d.durable.get name).isNone)).insertionSort (· ≤ ·)

/-! ## Crashes -/

inductive Survives (durable : Option Bytes) : Option StagedChange → Option Bytes → Prop
  | quiet : Survives durable none durable
  | lost (st : StagedChange) : Survives durable (some st) durable
  | torn (st : StagedChange) (n : Nat) (hst : st.removed = false) (hkeep : st.keep ≤ n) :
      Survives durable (some st) (some (st.data.take n))
  | unlinked (st : StagedChange) (hst : st.removed = true) : Survives durable (some st) none

variable {durable after : Option Bytes}

theorem Survives.of_quiet (h : Survives durable none after) : after = durable := by
  cases h
  rfl

variable {st : StagedChange}

theorem Survives.of_written (h : Survives durable (some st) after) (hst : st.removed = false) :
    after = durable ∨ ∃ n, st.keep ≤ n ∧ after = some (st.data.take n) := by
  cases h with
  | lost _ => exact Or.inl rfl
  | torn _ n _ hkeep => exact Or.inr ⟨n, hkeep, rfl⟩
  | unlinked _ hremoved =>
    rw [hst] at hremoved
    cases hremoved

theorem Survives.of_removed (h : Survives durable (some st) after) (hst : st.removed = true) :
    after = durable ∨ after = none := by
  cases h with
  | lost _ => exact Or.inl rfl
  | torn _ n hkept _ =>
    rw [hst] at hkept
    cases hkept
  | unlinked _ _ => exact Or.inr rfl

structure CrashesTo (d d' : Disk) : Prop where
  files : ∀ name, Survives (d.durable.get name) (d.staged.get name) (d'.durable.get name)
  staged : d'.staged = SortedKV.empty

/-- The simulator's choice for one file: nothing of the change landed, or
this many bytes above the mark did. -/
abbrev Pick := Bytes → Option Nat

def crashFile (pick : Pick) (durable : SortedKV Bytes Bytes)
    (change : Bytes × StagedChange) : SortedKV Bytes Bytes :=
  let (name, st) := change
  if st.removed then durable
  else
    match pick name with
    | none => durable
    | some n => durable.set name (st.data.take (st.keep + n % (st.data.length - st.keep + 1)))

/-- The simulator's crash, file by file in name order. -/
def crash (pick : Pick) (d : Disk) : Disk where
  durable := d.staged.rows.foldl (crashFile pick) d.durable
  staged := SortedKV.empty

theorem get_crashFile_of_ne (pick : Pick) (durable : SortedKV Bytes Bytes)
    {change : Bytes × StagedChange} {name : Bytes} (h : name ≠ change.1) :
    (crashFile pick durable change).get name = durable.get name := by
  obtain ⟨n, st⟩ := change
  unfold crashFile
  dsimp only
  split
  · rfl
  · split
    · rfl
    · exact SortedKV.get_set_of_ne _ _ h

theorem get_foldl_crashFile (pick : Pick) {changes : List (Bytes × StagedChange)}
    (hsorted : changes.Pairwise (fun a b => a.1 < b.1))
    (durable : SortedKV Bytes Bytes) (name : Bytes) :
    (changes.foldl (crashFile pick) durable).get name =
      match changes.find? (fun c => c.1 = name) with
      | none => durable.get name
      | some c => (crashFile pick durable c).get name := by
  induction changes generalizing durable with
  | nil => rfl
  | cons c rest ih =>
    obtain ⟨hlt, hrest⟩ := List.pairwise_cons.mp hsorted
    rw [List.foldl_cons, ih hrest, List.find?_cons]
    by_cases heq : c.1 = name
    · have hnone : rest.find? (fun c => c.1 = name) = none := by
        rw [List.find?_eq_none]
        intro c' hc' h
        have hname : c'.1 = name := by simpa using h
        exact absurd (hlt c' hc') (by rw [heq, hname]; exact lt_irrefl _)
      simp [heq, hnone]
    · have hne : name ≠ c.1 := fun h => heq h.symm
      simp only [heq, decide_false]
      cases hfind : rest.find? (fun c => c.1 = name) with
      | none => exact get_crashFile_of_ne pick durable hne
      | some c' =>
        -- what happens to a file depends on what was durable for it
        have hname : c'.1 = name := by simpa using List.find?_some hfind
        have hkept := get_crashFile_of_ne pick durable hne
        obtain ⟨n', st'⟩ := c'
        simp only at hname
        subst hname
        unfold crashFile at hkept ⊢
        dsimp only at hkept ⊢
        split
        · exact hkept
        · split
          · exact hkept
          · rw [SortedKV.get_set_self, SortedKV.get_set_self]

theorem crash_crashesTo (pick : Pick) (d : Disk) : CrashesTo d (d.crash pick) where
  files name := by
    have hget : (d.crash pick).durable.get name = _ :=
      get_foldl_crashFile pick d.staged.rows_sorted d.durable name
    rw [hget]
    cases hfind : d.staged.rows.find? (fun c => c.1 = name) with
    | none =>
      have hquiet : d.staged.get name = none := by
        rw [Option.eq_none_iff_forall_ne_some]
        intro st hst
        exact absurd (by simp) (List.find?_eq_none.mp hfind (name, st) (SortedKV.mem_rows.mpr hst))
      rw [hquiet]
      exact .quiet
    | some c =>
      obtain ⟨n, st⟩ := c
      have hname : n = name := by simpa using List.find?_some hfind
      subst hname
      have hst := SortedKV.mem_rows.mp (List.mem_of_find?_eq_some hfind)
      rw [hst]
      dsimp only
      unfold crashFile
      dsimp only
      split
      · exact .lost st
      · rename_i hremoved
        split
        · exact .lost st
        · rw [SortedKV.get_set_self]
          exact .torn st _ (by simpa using hremoved) (by omega)
  staged := rfl

/-! ## One file -/

def SameFile (name : Bytes) (d d' : Disk) : Prop :=
  d'.durable.get name = d.durable.get name ∧ d'.staged.get name = d.staged.get name

section OneFile

variable (d : Disk) {name other : Bytes}

theorem readFile_of_quiet {d : Disk} (h : d.staged.get name = none) :
    d.readFile name = d.durable.get name := by
  rw [readFile, h]

theorem appendBase_of_quiet {d : Disk} (h : d.staged.get name = none) :
    d.appendBase name =
      { data := (d.durable.get name).getD [], keep := ((d.durable.get name).getD []).length } := by
  rw [appendBase, h]

theorem appendBase_kept (name : Bytes) : (d.appendBase name).removed = false := by
  unfold appendBase
  split
  · rfl
  · split_ifs with hremoved
    · rfl
    · simpa using hremoved

@[simp] theorem staged_writeFile_self (data : Bytes) :
    (d.writeFile name data).staged.get name = some { data := data } :=
  SortedKV.get_set_self _ _ _

@[simp] theorem staged_append_self (data : Bytes) :
    (d.append name data).staged.get name =
      some { d.appendBase name with data := (d.appendBase name).data ++ data } :=
  SortedKV.get_set_self _ _ _

theorem durable_sync_of_staged {d : Disk} (h : d.staged.get name = some st)
    (hst : st.removed = false) : (d.sync name).durable.get name = some st.data := by
  rw [sync, h]
  simp [hst]

@[simp] theorem staged_sync_self : (d.sync name).staged.get name = none := by
  unfold sync
  split
  · rename_i h
    exact h
  · exact SortedKV.get_delete_self _ _

theorem SameFile.refl (d : Disk) : SameFile name d d := ⟨rfl, rfl⟩

variable {d' : Disk}

theorem SameFile.trans {d d'' : Disk} (h : SameFile name d d') (h' : SameFile name d' d'') :
    SameFile name d d'' :=
  ⟨h'.1.trans h.1, h'.2.trans h.2⟩

theorem sameFile_writeFile (h : other ≠ name) (data : Bytes) :
    SameFile other d (d.writeFile name data) :=
  ⟨rfl, SortedKV.get_set_of_ne _ _ h⟩

theorem sameFile_append (h : other ≠ name) (data : Bytes) :
    SameFile other d (d.append name data) :=
  ⟨rfl, SortedKV.get_set_of_ne _ _ h⟩

theorem sameFile_sync (h : other ≠ name) : SameFile other d (d.sync name) := by
  unfold sync
  split
  · exact SameFile.refl d
  · rename_i st _
    refine ⟨?_, SortedKV.get_delete_of_ne _ h⟩
    dsimp only
    split
    · exact SortedKV.get_delete_of_ne _ h
    · exact SortedKV.get_set_of_ne _ _ h

/-- The file does not exist, and nothing is staged for it. -/
def Absent (name : Bytes) (d : Disk) : Prop :=
  d.durable.get name = none ∧ d.staged.get name = none

theorem SameFile.absent {d : Disk} (h : SameFile name d d') (hd : Absent name d) : Absent name d' :=
  ⟨h.1.trans hd.1, h.2.trans hd.2⟩

theorem remove_of_absent {d : Disk} (h : Absent name d) : d.remove name = none := by
  rw [remove, h.2]
  simp [h.1]

theorem remove_of_quiet {d : Disk} (h : d.staged.get name = none)
    (hfile : d.durable.get name ≠ none) :
    d.remove name = some { d with staged := d.staged.set name { removed := true } } := by
  rw [remove, h]
  simp [hfile]

theorem sameFile_remove {d : Disk} (h : other ≠ name) (hremove : d.remove name = some d') :
    SameFile other d d' := by
  have hd' : d' = { d with staged := d.staged.set name { removed := true } } := by
    unfold remove at hremove
    dsimp only at hremove
    split at hremove
    · split at hremove
      · cases hremove
      · exact (Option.some.inj hremove).symm
    · split at hremove
      · cases hremove
      · exact (Option.some.inj hremove).symm
  subst hd'
  exact ⟨rfl, SortedKV.get_set_of_ne _ _ h⟩

theorem absent_sync_of_removed {d : Disk} (h : d.staged.get name = some st)
    (hst : st.removed = true) : Absent name (d.sync name) := by
  refine ⟨?_, d.staged_sync_self⟩
  rw [sync, h]
  simp [hst]

theorem mem_list_of_quiet {d : Disk} (h : ∀ name, d.staged.get name = none) :
    name ∈ d.list ↔ d.durable.get name ≠ none := by
  have hstaged : d.staged = SortedKV.empty := SortedKV.ext_get (fun k => by rw [h]; rfl)
  have hkeys : d.staged.keys = [] := by rw [hstaged]; rfl
  have hkept : ∀ n, d.stagedRemoved n = false := fun n => by rw [stagedRemoved, h]; rfl
  rw [list, List.mem_insertionSort, hkeys]
  simp only [hkept, List.filter_nil, List.append_nil, Bool.not_false, List.filter_true]
  rw [d.durable.mem_keys, Option.isSome_iff_ne_none]
  rfl

theorem nodup_list_of_quiet {d : Disk} (h : ∀ name, d.staged.get name = none) : d.list.Nodup := by
  have hstaged : d.staged = SortedKV.empty := SortedKV.ext_get (fun k => by rw [h]; rfl)
  have hkeys : d.staged.keys = [] := by rw [hstaged]; rfl
  rw [list, hkeys, (List.perm_insertionSort _ _).nodup_iff, List.filter_nil, List.append_nil]
  refine List.Nodup.filter _ ?_
  exact d.durable.sorted.imp (fun hlt => ne_of_lt hlt)

theorem CrashesTo.durable_eq {d : Disk} (h : CrashesTo d d') (hquiet : d.staged.get name = none) :
    d'.durable.get name = d.durable.get name := by
  have hfile := h.files name
  rw [hquiet] at hfile
  exact hfile.of_quiet

theorem Absent.crash {d : Disk} (h : Absent name d) (hc : CrashesTo d d') :
    d'.durable.get name = none :=
  (hc.durable_eq h.2).trans h.1

theorem CrashesTo.quiet {d : Disk} (h : CrashesTo d d') (name : Bytes) :
    d'.staged.get name = none := by
  rw [h.staged]
  rfl

end OneFile

/-! ## Removing a file -/

/-- Remove a file and sync the removal.  One that is not there is no error. -/
def removeFile (name : Bytes) : Prog Disk Unit := do
  let removed ← Prog.act (fun d =>
    match d.remove name with
    | none => (false, d)
    | some d' => (true, d'))
  if removed then Prog.change (Disk.sync · name) else pure ()

section RemoveFile

variable {name : Bytes}

theorem removeFile_of_absent {d : Disk} (h : Absent name d) :
    removeFile name d = ⟨(), d, [d]⟩ := by
  show Exec.mk _ _ _ = _
  simp only [Prog.act, remove_of_absent h]
  rfl

theorem removeFile_triple (c : Option Bytes) :
    Prog.Triple (fun d : Disk => d.staged.get name = none ∧ d.durable.get name = c)
      (removeFile name) (fun _ d => Absent name d)
      (fun x => ∀ d', CrashesTo x d' → d'.durable.get name = c ∨ d'.durable.get name = none) := by
  intro d hd
  by_cases hfile : d.durable.get name = none
  · rw [removeFile_of_absent ⟨hfile, hd.1⟩]
    refine ⟨⟨hfile, hd.1⟩, ?_⟩
    intro x hx d' hc
    rw [List.mem_singleton.mp hx] at hc
    exact Or.inr ((hc.durable_eq hd.1).trans hfile)
  · have hremove := remove_of_quiet hd.1 hfile
    have hrun : removeFile name d =
        ⟨(), sync { d with staged := d.staged.set name { removed := true } } name,
          [d, { d with staged := d.staged.set name { removed := true } }]⟩ := by
      show Exec.mk _ _ _ = _
      simp only [Prog.act, hremove]
      rfl
    have hstaged : SortedKV.get (d.staged.set name { removed := true }) name =
        some { removed := true } := SortedKV.get_set_self _ _ _
    rw [hrun]
    refine ⟨absent_sync_of_removed hstaged rfl, ?_⟩
    intro x hx d' hc
    rcases List.mem_cons.mp hx with rfl | hx
    · exact Or.inl ((hc.durable_eq hd.1).trans hd.2)
    · -- the removal is staged
      have hsurvives := (List.mem_singleton.mp hx ▸ hc).files name
      dsimp only at hsurvives
      rw [hstaged, hd.2] at hsurvives
      exact hsurvives.of_removed rfl

theorem absent_removeFile {d : Disk} (h : ∀ c, d.staged.get name = some c → c.removed = false) :
    Absent name ((removeFile name).final d) := by
  cases hstaged : d.staged.get name with
  | none => exact (removeFile_triple _ d ⟨hstaged, rfl⟩).1
  | some c =>
    have hremove : d.remove name =
        some { d with staged := d.staged.set name { removed := true } } := by
      rw [remove, hstaged]
      simp [h c hstaged]
    rw [removeFile, Prog.final_bind]
    simp only [Prog.value, Prog.final, Prog.act, hremove]
    exact absent_sync_of_removed (SortedKV.get_set_self _ _ _) rfl

theorem removeFile_frame {other : Bytes} (h : other ≠ name) (d₀ : Disk) :
    Prog.Keeps (SameFile other d₀) (removeFile name) := by
  refine .bind (Prog.Triple.act (fun d hd => hd) (fun d hd => ?_)) (fun removed => ?_)
  · split
    · exact hd
    · rename_i d' hremove
      exact hd.trans (sameFile_remove h hremove)
  · cases removed with
    | false => exact .pure _
    | true => exact .change (fun d hd => hd.trans (d.sameFile_sync h))

end RemoveFile

end Disk

end Hamster.Seam
