import Hamster.Seam.Disk
import Hamster.Wal.Frame

/-!
# The write-ahead log

`Open` and `Append` of `internal/wal/wal.go` over the disk of a node, as
programs that a crash can cut short before each call of the disk.

`Holds` says what a log file contains: frames of records, then a tail.
`openLog_triple` says that `Open` returns the records before a torn tail and cuts
the tail off, and `append_triple` that wherever a crash strikes in `Append`, the
file holds the old records and a part of the new frame.

`Reaches` is the log over its lifetime, with any number of crashes.  The
rewrite inside `Open` is not safe: it stages the whole file anew, and a crash
before its `Sync` may leave any part of it.  Without a crash there, `Open`
returns every record whose `Append` returned
(`open_returns_acknowledged`); with one, it may return none of them
(`open_loses_acknowledged`).
-/

namespace Hamster.Wal

open CodeLib Seam

/-- `Open`: the intact records of a log.  A torn tail is cut off durably. -/
def openLog (name : Bytes) : Prog Disk (List Bytes) := do
  match ← Prog.look (Disk.readFile · name) with
  | none => pure []
  | some data =>
    let (good, records) := scanFrames data data.length 0 []
    if good ≠ data.length then
      Prog.change (Disk.writeFile · name (data.take good))
      Prog.change (Disk.sync · name)
    pure records

def append (name record : Bytes) : Prog Disk Unit := do
  Prog.change (Disk.append · name (frame record))
  Prog.change (Disk.sync · name)

section Runs

variable {name data : Bytes} {d : Disk} {good : Nat} {records : List Bytes}

theorem openLog_of_none (hread : d.readFile name = none) : openLog name d = ⟨[], d, [d]⟩ := by
  show Exec.mk _ _ _ = _
  simp only [Prog.look, Prog.act, hread]
  rfl

theorem openLog_of_whole (hread : d.readFile name = some data)
    (hscan : scanFrames data data.length 0 [] = (data.length, records)) :
    openLog name d = ⟨records, d, [d]⟩ := by
  show Exec.mk _ _ _ = _
  simp only [Prog.look, Prog.act, hread, hscan, ne_eq, not_true_eq_false, if_false]
  rfl

theorem openLog_of_torn (hread : d.readFile name = some data)
    (hscan : scanFrames data data.length 0 [] = (good, records)) (hne : good ≠ data.length) :
    openLog name d =
      ⟨records, (d.writeFile name (data.take good)).sync name,
        [d, d, d.writeFile name (data.take good)]⟩ := by
  show Exec.mk _ _ _ = _
  simp only [Prog.look, Prog.act, hread, hscan, hne, ne_eq, not_false_eq_true, if_true]
  rfl

theorem openLog_cases (name : Bytes) (d : Disk) :
    (openLog name d).final = d ∧ (∀ x ∈ (openLog name d).points, x = d) ∨
      ∃ data, d.readFile name ≠ none ∧ (openLog name d).final = (d.writeFile name data).sync name ∧
        ∀ x ∈ (openLog name d).points, x = d ∨ x = d.writeFile name data := by
  cases hread : d.readFile name with
  | none =>
    rw [openLog_of_none hread]
    exact Or.inl ⟨rfl, by simp⟩
  | some data =>
    obtain ⟨good, records, hscan⟩ : ∃ good records,
        scanFrames data data.length 0 [] = (good, records) := ⟨_, _, rfl⟩
    by_cases hwhole : good = data.length
    · rw [openLog_of_whole hread (hwhole ▸ hscan)]
      exact Or.inl ⟨rfl, by simp⟩
    · rw [openLog_of_torn hread hscan hwhole]
      exact Or.inr ⟨_, nofun, rfl, by simp⟩

end Runs

/-! ## The content of a log file -/

/-- Nothing is staged for the file, and it holds the frames of some records
and a tail.  A log that does not exist holds nothing. -/
structure Holds (name : Bytes) (rs : List Bytes) (tail : Bytes) (d : Disk) :
    Prop where
  quiet : d.staged.get name = none
  content : (d.durable.get name).getD [] = frames rs ++ tail

def Short (rs : List Bytes) : Prop := ∀ r ∈ rs, r.length < 2 ^ 31

section Content

variable {name : Bytes} {rs : List Bytes} {t r : Bytes} {d d' : Disk}

theorem Holds.of_sameFile (h : Holds name rs t d) (hsame : Disk.SameFile name d d') :
    Holds name rs t d' :=
  ⟨hsame.2.trans h.quiet, by rw [hsame.1, h.content]⟩

theorem Holds.crash (h : Holds name rs t d) (hc : Disk.CrashesTo d d') : Holds name rs t d' :=
  ⟨hc.quiet name, by rw [hc.durable_eq h.quiet, h.content]⟩

theorem Holds.of_frame (h : Holds name rs (frame r) d) : Holds name (rs ++ [r]) [] d :=
  ⟨h.quiet, by rw [h.content]; simp⟩

theorem Holds.to_frame (h : Holds name (rs ++ [r]) [] d) : Holds name rs (frame r) d :=
  ⟨h.quiet, by rw [h.content]; simp⟩

theorem Short.append (hrs : Short rs) (hr : r.length < 2 ^ 31) : Short (rs ++ [r]) := by
  intro r' hr'
  rcases List.mem_append.mp hr' with h | h
  · exact hrs r' h
  · rw [List.mem_singleton.mp h]
    exact hr

end Content

/-! ## Open -/

variable {other : Bytes}

section Open

variable {name : Bytes} {rs : List Bytes} {t : Bytes}

theorem rewrite_triple :
    Prog.Triple (fun d : Disk => Holds name rs t d)
      (do Prog.change (Disk.writeFile · name (frames rs))
          Prog.change (Disk.sync · name)
          pure rs)
      (fun records d => records = rs ∧ Holds name rs [] d)
      (fun x => x.staged.get name = none → Holds name rs t x) := by
  refine Prog.Triple.bind
    (Prog.Triple.change (Q := fun _ d => d.staged.get name = some { data := frames rs })
      (fun d hd _ => hd) (fun d _ => d.staged_writeFile_self _)) (fun _ => ?_)
  refine Prog.Triple.bind
    (Prog.Triple.change (Q := fun _ d => Holds name rs [] d) (fun d hd hquiet => ?_)
      (fun d hd => ⟨d.staged_sync_self, ?_⟩))
    (fun _ => Prog.Triple.pure (fun d hd => ⟨rfl, hd⟩))
  · rw [hd] at hquiet
    cases hquiet
  · rw [Disk.durable_sync_of_staged hd rfl]
    simp

/-- `Open` of a file with a torn tail returns the records before it.  Cut
short with nothing staged, it has changed nothing. -/
theorem openLog_triple (hrs : Short rs) (ht : parseFrame t = none) :
    Prog.Triple (fun d : Disk => Holds name rs t d) (openLog name)
      (fun records d => records = rs ∧ Holds name rs [] d)
      (fun x => x.staged.get name = none → Holds name rs t x) := by
  refine Prog.Triple.bind
    (Prog.Triple.look (Q := fun file d => Holds name rs t d ∧ file = d.durable.get name)
      (fun d hd _ => hd) (fun d hd => ⟨hd, Disk.readFile_of_quiet hd.quiet⟩)) (fun file => ?_)
  cases file with
  | none =>
    refine Prog.Triple.pure (fun d hd => ?_)
    have hempty : frames rs ++ t = [] := by
      rw [← hd.1.content, ← hd.2]
      rfl
    obtain ⟨hframes, htail⟩ := List.append_eq_nil_iff.mp hempty
    refine ⟨(frames_eq_nil_iff.mp hframes).symm, hd.1.quiet, ?_⟩
    rw [hd.1.content, htail]
  | some data =>
    by_cases hdata : data = frames rs ++ t
    · subst hdata
      have hscan : scanFrames (frames rs ++ t) (frames rs ++ t).length 0 [] =
          ((frames rs).length, rs) := scanFrames_frames hrs ht
      have hcut : (frames rs ++ t).take (frames rs).length = frames rs := List.take_left
      dsimp only
      rw [hscan]
      dsimp only
      rw [hcut]
      split
      · exact rewrite_triple.pre (fun d hd => hd.1)
      · -- nothing is torn
        rename_i hwhole
        have htail : t = [] := by
          have hlen := not_ne_iff.mp hwhole
          rw [List.length_append] at hlen
          exact List.length_eq_zero_iff.mp (by omega)
        refine Prog.Triple.pure (fun d hd => ⟨rfl, ?_⟩)
        rw [← htail]
        exact hd.1
    · intro d hd
      have hcontent := hd.1.content
      rw [← hd.2] at hcontent
      exact absurd hcontent hdata

theorem openLog_frame (h : other ≠ name) (d₀ : Disk) :
    Prog.Keeps (Disk.SameFile other d₀) (openLog name) := by
  refine .bind (.look _) (fun file => ?_)
  cases file with
  | none => exact .pure _
  | some data =>
    dsimp only
    split
    · refine .bind (.change (fun d hd => hd.trans (d.sameFile_writeFile h _))) (fun _ => ?_)
      refine .bind (.change (fun d hd => hd.trans (d.sameFile_sync h))) (fun _ => ?_)
      exact .pure _
    · exact .pure _

end Open

/-! ## Append -/

section Append

variable {name : Bytes} {rs : List Bytes} {r : Bytes}

/-- `Append` adds a record.  Wherever a crash strikes, the file holds the old
records and a part of the new frame. -/
theorem append_triple :
    Prog.Triple (fun d : Disk => Holds name rs [] d) (append name r)
      (fun _ d => Holds name (rs ++ [r]) [] d)
      (fun x => ∀ d', Disk.CrashesTo x d' → ∃ t, t <+: frame r ∧ Holds name rs t d') := by
  refine Prog.Triple.bind
    (Prog.Triple.change
      (Q := fun _ d => (d.durable.get name).getD [] = frames rs ∧
        d.staged.get name = some ⟨frames rs ++ frame r, (frames rs).length, false⟩)
      (fun d hd d' hc => ⟨[], List.nil_prefix, hd.crash hc⟩) (fun d hd => ?_)) (fun _ => ?_)
  · have hcontent : (d.durable.get name).getD [] = frames rs := by
      rw [hd.content, List.append_nil]
    refine ⟨hcontent, ?_⟩
    rw [Disk.staged_append_self, Disk.appendBase_of_quiet hd.quiet, hcontent]
  · refine Prog.Triple.change (fun d hd d' hc => ?_) (fun d hd => ⟨d.staged_sync_self, ?_⟩)
    · have hfile := hc.files name
      rw [hd.2] at hfile
      rcases hfile.of_written rfl with hlost | ⟨n, hkeep, htorn⟩
      · refine ⟨[], List.nil_prefix, hc.quiet name, ?_⟩
        rw [hlost, hd.1, List.append_nil]
      · -- what landed is at or above the old content
        refine ⟨(frame r).take (n - (frames rs).length), List.take_prefix _ _, hc.quiet name, ?_⟩
        have hold : (frames rs).take n = frames rs := List.take_of_length_le hkeep
        rw [htorn, Option.getD_some, List.take_append, hold]
    · rw [Disk.durable_sync_of_staged hd.2 rfl]
      simp

theorem append_frame (h : other ≠ name) (d₀ : Disk) :
    Prog.Keeps (Disk.SameFile other d₀) (append name r) := by
  refine .bind (.change (fun d hd => hd.trans (d.sameFile_append h _))) (fun _ => ?_)
  exact .change (fun d hd => hd.trans (d.sameFile_sync h))

end Append

/-! ## A lifetime of crashes -/

/-- The states of a log over any history of opens, appends and crashes.  The
arguments are: whether a process has it open, the records that an `Open`
returned or whose `Append` returned since, the record whose `Append` the last
crash cut short, and the disk.  `Struck` says in which states a crash may
strike while `Open` runs. -/
inductive Reaches (name : Bytes) (Struck : Disk → Prop) :
    Bool → List Bytes → Option Bytes → Disk → Prop
  | start {d : Disk} (hfile : d.durable.get name = none) (hquiet : d.staged.get name = none) :
      Reaches name Struck false [] none d
  | opened {up : Bool} {l : List Bytes} {p : Option Bytes} {d : Disk}
      (h : Reaches name Struck up l p d) :
      Reaches name Struck true ((openLog name).value d) none ((openLog name).final d)
  | appended {l : List Bytes} {p : Option Bytes} {d : Disk}
      (h : Reaches name Struck true l p d) (r : Bytes) (hr : r.length < 2 ^ 31) :
      Reaches name Struck true (l ++ [r]) none ((append name r).final d)
  | elsewhere {up : Bool} {l : List Bytes} {p : Option Bytes} {d d' : Disk}
      (h : Reaches name Struck up l p d) (hsame : Disk.SameFile name d d') :
      Reaches name Struck up l p d'
  | crashed {up : Bool} {l : List Bytes} {p : Option Bytes} {d d' : Disk}
      (h : Reaches name Struck up l p d) (hc : Disk.CrashesTo d d') :
      Reaches name Struck false l p d'
  | crashedInOpen {up : Bool} {l : List Bytes} {p : Option Bytes} {d x d' : Disk}
      (h : Reaches name Struck up l p d) (hx : x ∈ (openLog name).states d) (hs : Struck x)
      (hc : Disk.CrashesTo x d') : Reaches name Struck false l p d'
  | crashedInAppend {l : List Bytes} {p : Option Bytes} {d x d' : Disk}
      (h : Reaches name Struck true l p d) (r : Bytes) (hr : r.length < 2 ^ 31)
      (hx : x ∈ (append name r).states d) (hc : Disk.CrashesTo x d') :
      Reaches name Struck false l (some r) d'

/-- No crash strikes while the rewrite of `Open` is staged. -/
def BetweenRewrites (name : Bytes) (x : Disk) : Prop := x.staged.get name = none

/-- What the file holds along such a history: the records, and at most a part
of the frame that was cut short. -/
structure Intact (name : Bytes) (up : Bool) (l : List Bytes) (p : Option Bytes)
    (d : Disk) : Prop where
  short : Short l
  file : ∃ t, Holds name l t d ∧
    (t = [] ∨ up = false ∧ ∃ r, p = some r ∧ r.length < 2 ^ 31 ∧ t <+: frame r)

section Lifetime

variable {name : Bytes} {up : Bool} {l : List Bytes} {p : Option Bytes}
variable {d d' x : Disk}

theorem Intact.whole (h : Intact name true l p d) : Holds name l [] d := by
  obtain ⟨t, hholds, htail⟩ := h.file
  rcases htail with rfl | ⟨hdown, -⟩
  · exact hholds
  · cases hdown

/-- How `Open` reads an intact file: the frame that was cut short is a torn
tail, or it landed whole and is one more record. -/
def Reading (l : List Bytes) (p : Option Bytes) (rs : List Bytes)
    (t : Bytes) : Prop :=
  (rs = l ∧ (t = [] ∨ ∃ r, p = some r ∧ r.length < 2 ^ 31 ∧ t <+: frame r)) ∨
    (t = [] ∧ ∃ r, p = some r ∧ r.length < 2 ^ 31 ∧ rs = l ++ [r])

theorem Intact.reading (h : Intact name up l p d) :
    ∃ rs t, Reading l p rs t ∧ Short rs ∧ parseFrame t = none ∧ Holds name rs t d := by
  obtain ⟨t, hholds, htail⟩ := h.file
  rcases htail with rfl | ⟨-, r, hp, hr, hpart⟩
  · exact ⟨l, [], Or.inl ⟨rfl, Or.inl rfl⟩, h.short, rfl, hholds⟩
  · by_cases hwhole : t = frame r
    · subst hwhole
      exact ⟨l ++ [r], [], Or.inr ⟨rfl, r, hp, hr, rfl⟩, h.short.append hr, rfl, hholds.of_frame⟩
    · have hnone : parseFrame t = none := parseFrame_of_isPrefix (by omega) hpart hwhole
      exact ⟨l, t, Or.inl ⟨rfl, Or.inr ⟨r, hp, hr, hpart⟩⟩, h.short, hnone, hholds⟩

variable {rs : List Bytes} {t : Bytes}

theorem Reading.cut (h : Reading l p rs t) : Reading l p rs [] := by
  rcases h with ⟨hrs, -⟩ | ⟨-, hlanded⟩
  · exact Or.inl ⟨hrs, Or.inl rfl⟩
  · exact Or.inr ⟨rfl, hlanded⟩

theorem Reading.intact (h : Reading l p rs t) (hshort : Short l) (hholds : Holds name rs t x) :
    Intact name false l p x := by
  rcases h with ⟨rfl, htail⟩ | ⟨rfl, r, hp, hr, rfl⟩
  · refine ⟨hshort, t, hholds, ?_⟩
    rcases htail with hnil | hpart
    · exact Or.inl hnil
    · exact Or.inr ⟨rfl, hpart⟩
  · exact ⟨hshort, frame r, hholds.to_frame, Or.inr ⟨rfl, r, hp, hr, List.prefix_refl _⟩⟩

theorem Intact.opens (h : Intact name up l p d) :
    ((openLog name).value d = l ∨ ∃ r, p = some r ∧ (openLog name).value d = l ++ [r]) ∧
      Intact name true ((openLog name).value d) none ((openLog name).final d) ∧
      ∀ x ∈ (openLog name).states d, BetweenRewrites name x → Intact name false l p x := by
  obtain ⟨rs, t, hreading, hrs, hnone, hholds⟩ := h.reading
  obtain ⟨⟨hvalue, hfinal⟩, hpoints⟩ := openLog_triple hrs hnone d hholds
  refine ⟨?_, ⟨?_, [], ?_, Or.inl rfl⟩, ?_⟩
  · rw [Prog.value, hvalue]
    rcases hreading with ⟨hsame, -⟩ | ⟨-, r, hp, -, hmore⟩
    · exact Or.inl hsame
    · exact Or.inr ⟨r, hp, hmore⟩
  · rw [Prog.value, hvalue]
    exact hrs
  · rw [Prog.value, hvalue]
    exact hfinal
  · intro x hx hquiet
    rcases List.mem_append.mp hx with hx | hx
    · exact hreading.intact h.short (hpoints x hx hquiet)
    · rw [List.mem_singleton.mp hx]
      exact hreading.cut.intact h.short hfinal

theorem Intact.crash (h : Intact name up l p d) (hc : Disk.CrashesTo d d') :
    Intact name false l p d' := by
  obtain ⟨t, hholds, htail⟩ := h.file
  refine ⟨h.short, t, hholds.crash hc, ?_⟩
  rcases htail with hnil | ⟨-, hpart⟩
  · exact Or.inl hnil
  · exact Or.inr ⟨rfl, hpart⟩

theorem Reaches.intact (h : Reaches name (BetweenRewrites name) up l p d) :
    Intact name up l p d := by
  induction h with
  | start hfile hquiet =>
    refine ⟨fun r hr => absurd hr List.not_mem_nil, [], ⟨hquiet, ?_⟩, Or.inl rfl⟩
    rw [hfile]
    rfl
  | opened _ ih => exact ih.opens.2.1
  | appended _ r hr ih =>
    exact ⟨ih.short.append hr, [], append_triple.post ih.whole, Or.inl rfl⟩
  | elsewhere _ hsame ih =>
    obtain ⟨t, hholds, htail⟩ := ih.file
    exact ⟨ih.short, t, hholds.of_sameFile hsame, htail⟩
  | crashed _ hc ih => exact ih.crash hc
  | crashedInOpen _ hx hs hc ih => exact (ih.opens.2.2 _ hx hs).crash hc
  | crashedInAppend _ r hr hx hc ih =>
    obtain ⟨hpost, hpoints⟩ := append_triple (r := r) _ ih.whole
    rcases List.mem_append.mp hx with hx | hx
    · obtain ⟨t, hpart, hholds⟩ := hpoints _ hx _ hc
      exact ⟨ih.short, t, hholds, Or.inr ⟨rfl, r, rfl, hr, hpart⟩⟩
    · -- the record was durable when the crash came
      rw [List.mem_singleton.mp hx] at hc
      exact ⟨ih.short, frame r, (hpost.crash hc).to_frame,
        Or.inr ⟨rfl, r, rfl, hr, List.prefix_refl _⟩⟩

end Lifetime

/-- In every history in which no crash strikes between the rewrite of a torn
tail and its sync, `Open` returns every record whose `Append` returned, in
order, and after them at most the one that the last crash cut short. -/
theorem open_returns_acknowledged {name : Bytes} {up : Bool} {l : List Bytes}
    {p : Option Bytes} {d : Disk} (h : Reaches name (BetweenRewrites name) up l p d) :
    (openLog name).value d = l ∨ ∃ r, p = some r ∧ (openLog name).value d = l ++ [r] :=
  h.intact.opens.1

/-! ## Lifetimes without a crash

Here a record may have any length that a slice can have.  `Open` cannot read
one of 2^31 bytes or more: its frame is a torn tail from then on, with all that
is appended after it. -/

/-- What processes do with a log: append a record, or open it after a
restart. -/
inductive Use where
  | append (record : Bytes)
  | reopen

def use (name : Bytes) (d : Disk) : Use → Disk
  | .append r => (append name r).final d
  | .reopen => (openLog name).final d

def uses (name : Bytes) (d : Disk) (us : List Use) : Disk := us.foldl (use name) d

def Use.record : Use → Option Bytes
  | .append r => some r
  | .reopen => none

def appended (us : List Use) : List Bytes := us.filterMap Use.record

def ReadsBack (name : Bytes) (rs : List Bytes) (d : Disk) : Prop :=
  (openLog name).value d = rs ∧ (openLog name).final d = d

section WithoutCrash

variable {name t r : Bytes} {rs : List Bytes} {d : Disk} {us : List Use}

theorem holds_of_absent (hfile : d.durable.get name = none) (hquiet : d.staged.get name = none) :
    Holds name [] [] d :=
  ⟨hquiet, by rw [hfile]; rfl⟩

theorem appended_concat (us : List Use) (u : Use) :
    appended (us ++ [u]) = appended us ++ u.record.toList := by
  rw [appended, List.filterMap_append]
  cases u <;> rfl

theorem Holds.append (h : Holds name rs t d) :
    Holds name rs (t ++ frame r) ((append name r).final d) := by
  have hstaged : (d.append name (frame r)).staged.get name =
      some ⟨(frames rs ++ t) ++ frame r, (frames rs ++ t).length, false⟩ := by
    rw [Disk.staged_append_self, Disk.appendBase_of_quiet h.quiet, h.content]
  refine ⟨Disk.staged_sync_self _, ?_⟩
  show (((d.append name (frame r)).sync name).durable.get name).getD [] = _
  rw [Disk.durable_sync_of_staged hstaged rfl, Option.getD_some, List.append_assoc]

theorem Holds.readsBack (h : Holds name rs [] d) (hrs : Short rs) : ReadsBack name rs d := by
  have hread : d.readFile name = d.durable.get name := Disk.readFile_of_quiet h.quiet
  have hcontent := h.content
  rw [List.append_nil] at hcontent
  cases hfile : d.durable.get name with
  | none =>
    rw [hfile, Option.getD_none] at hcontent
    have hnil : rs = [] := frames_eq_nil_iff.mp hcontent.symm
    rw [ReadsBack, Prog.value, Prog.final, openLog_of_none (hread.trans hfile), hnil]
    exact ⟨rfl, rfl⟩
  | some data =>
    rw [hfile, Option.getD_some] at hcontent
    have hscan : scanFrames data data.length 0 [] = (data.length, rs) := by
      have h := scanFrames_frames hrs parseFrame_nil
      rwa [List.append_nil, ← hcontent] at h
    rw [ReadsBack, Prog.value, Prog.final, openLog_of_whole (hread.trans hfile) hscan]
    exact ⟨rfl, rfl⟩

theorem holds_uses (h : Holds name [] [] d) (us : List Use) (hshort : Short (appended us)) :
    Holds name (appended us) [] (uses name d us) := by
  induction us using List.reverseRecOn with
  | nil => exact h
  | append_singleton us u ih =>
    rw [appended_concat] at hshort ⊢
    have hus : Short (appended us) := fun r hr => hshort r (List.mem_append_left _ hr)
    have hholds := ih hus
    rw [uses, List.foldl_append]
    cases u with
    | append r => exact append_triple.post hholds
    | reopen =>
      rw [Use.record, Option.toList_none, List.append_nil]
      exact (openLog_triple hus parseFrame_nil).post hholds |>.2

/-- The tail starts with the frame of a record that `Open` cannot read. -/
def Stuck (t : Bytes) : Prop :=
  ∃ r rest, 2 ^ 31 ≤ r.length ∧ r.length < 2 ^ 64 ∧ t = frame r ++ rest

theorem Stuck.parseFrame (h : Stuck t) : parseFrame t = none := by
  obtain ⟨r, rest, hlong, hsize, rfl⟩ := h
  exact parseFrame_frame_of_long hlong hsize rest

theorem Stuck.append (h : Stuck t) (more : Bytes) : Stuck (t ++ more) := by
  obtain ⟨r, rest, hlong, hsize, rfl⟩ := h
  exact ⟨r, rest ++ more, hlong, hsize, List.append_assoc _ _ _⟩

def Lossy (name : Bytes) (n : Nat) (d : Disk) : Prop :=
  ∃ rs t, Short rs ∧ rs.length < n ∧ Holds name rs t d ∧ (t = [] ∨ Stuck t)

theorem Lossy.append {n : Nat} (h : Lossy name n d) (hr : r.length < 2 ^ 64) :
    Lossy name (n + 1) ((append name r).final d) := by
  obtain ⟨rs, t, hrs, hlen, hholds, htail⟩ := h
  have happend := hholds.append (r := r)
  rcases htail with rfl | hstuck
  · by_cases hlong : r.length < 2 ^ 31
    · refine ⟨rs ++ [r], [], hrs.append hlong, ?_, happend.of_frame, Or.inl rfl⟩
      rw [List.length_append, List.length_singleton]
      omega
    · exact ⟨rs, frame r, hrs, by omega, happend,
        Or.inr ⟨r, [], by omega, hr, (List.append_nil _).symm⟩⟩
  · exact ⟨rs, t ++ frame r, hrs, by omega, happend, Or.inr (hstuck.append _)⟩

theorem Lossy.opens {n : Nat} (h : Lossy name n d) :
    ((openLog name).value d).length < n ∧ Lossy name n ((openLog name).final d) := by
  obtain ⟨rs, t, hrs, hlen, hholds, htail⟩ := h
  have hnone : Wal.parseFrame t = none := by
    rcases htail with rfl | hstuck
    · exact parseFrame_nil
    · exact hstuck.parseFrame
  obtain ⟨hvalue, hfinal⟩ := (openLog_triple hrs hnone).post hholds
  exact ⟨by rw [hvalue]; exact hlen, rs, [], hrs, hlen, hfinal, Or.inl rfl⟩

theorem lossy_uses (h : Holds name [] [] d) (us : List Use)
    (hsize : ∀ r ∈ appended us, r.length < 2 ^ 64) (hlong : ¬ Short (appended us)) :
    Lossy name (appended us).length (uses name d us) := by
  induction us using List.reverseRecOn with
  | nil => exact absurd (fun r hr => absurd hr List.not_mem_nil) hlong
  | append_singleton us u ih =>
    rw [appended_concat] at hsize hlong ⊢
    have hus : ∀ r ∈ appended us, r.length < 2 ^ 64 :=
      fun r hr => hsize r (List.mem_append_left _ hr)
    rw [uses, List.foldl_append]
    cases u with
    | append r =>
      have hr : r.length < 2 ^ 64 := hsize r (List.mem_append_right _ (by simp [Use.record]))
      rw [Use.record, Option.toList_some, List.length_append, List.length_singleton]
      by_cases hshort : Short (appended us)
      · -- the record itself is the first that is too long
        have hr' : ¬ r.length < 2 ^ 31 := fun hr' => hlong (hshort.append hr')
        exact ⟨appended us, frame r, hshort, Nat.lt_succ_self _,
          (holds_uses h us hshort).append,
          Or.inr ⟨r, [], by omega, hr, (List.append_nil _).symm⟩⟩
      · exact (ih hus hshort).append hr
    | reopen =>
      rw [Use.record, Option.toList_none, List.append_nil] at hlong ⊢
      exact (ih hus hlong).opens.2

theorem readsBack_uses_iff (h : Holds name [] [] d) (us : List Use)
    (hsize : ∀ r ∈ appended us, r.length < 2 ^ 64) :
    ReadsBack name (appended us) (uses name d us) ↔ Short (appended us) := by
  constructor
  · intro hback
    by_contra hlong
    have hlt := (lossy_uses h us hsize hlong).opens.1
    rw [hback.1] at hlt
    exact Nat.lt_irrefl _ hlt
  · exact fun hshort => (holds_uses h us hshort).readsBack hshort

end WithoutCrash

/-! ## A crash inside the rewrite -/

/-- One record was appended, and a crash tore the append of a second one
after its first byte. -/
def tornDisk : Disk :=
  (((append [119] [1]).final Disk.newDisk).append [119] (frame [2])).crash (fun _ => some 1)

/-- A crash struck again while `Open` cut the tail off: nothing of the new
content had landed. -/
def lostDisk : Disk := (tornDisk.writeFile [119] (frame [1])).crash (fun _ => some 0)

theorem reaches_tornDisk (Struck : Disk → Prop) :
    Reaches [119] Struck false [[1]] (some [2]) tornDisk := by
  have hopen : Reaches [119] Struck true [] none Disk.newDisk :=
    .opened (.start (d := Disk.newDisk) rfl rfl)
  have happend : Reaches [119] Struck true [[1]] none ((append [119] [1]).final Disk.newDisk) :=
    .appended hopen [1] (by decide)
  exact .crashedInAppend happend [2] (by decide) (List.mem_cons_of_mem _ List.mem_cons_self)
    (Disk.crash_crashesTo _ _)

/-- The acknowledged record is there when the crash spares the rewrite. -/
theorem open_tornDisk :
    (openLog [119]).value tornDisk = [[1]] ∨
      ∃ r, some [2] = some r ∧ (openLog [119]).value tornDisk = [[1]] ++ [r] :=
  open_returns_acknowledged (reaches_tornDisk (BetweenRewrites [119]))

/-- A crash before the sync of the rewrite loses it: the file is empty, and
`Open` returns nothing. -/
theorem open_loses_acknowledged :
    Reaches [119] (fun _ => True) false [[1]] (some [2]) lostDisk ∧
      (openLog [119]).value lostDisk = [] := by
  refine ⟨?_, by decide +kernel⟩
  have hstaged : tornDisk.writeFile [119] (frame [1]) ∈ (openLog [119]).states tornDisk := by
    rw [Prog.states, @openLog_of_torn [119] (frame [1] ++ [1]) tornDisk (frame [1]).length [[1]]
      (by decide +kernel) (by decide +kernel) (by decide +kernel), List.take_left]
    simp
  exact .crashedInOpen (reaches_tornDisk _) hstaged trivial (Disk.crash_crashesTo _ _)

end Hamster.Wal
