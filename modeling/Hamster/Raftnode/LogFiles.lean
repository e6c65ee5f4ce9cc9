import Hamster.CodeLib.Decimal
import Hamster.Raftnode.Record
import Hamster.Wal.Log

/-!
# The log files of a node

`rotate`, `removeLog`, `validLog` and the search for a log file in `recover`,
from `internal/raftnode/raftnode.go`, as programs over the disk.

A running node has one log file (`OneLog`).  Between the first byte of a
rotation and the removal of the old file there are two, and a crash may leave
any part of the new one, or bring the old one back.  `Stored rs` says what all
these disks have in common: among the log files there is one that holds the
records `rs`; no newer one holds a record; and it opens with a snapshot or is
the oldest.

The triples say that `Stored` is what a crash leaves: of the old records or
the old and the new one after a crash in `Append`, of the old records or the
frame of the rotation after a crash in `rotate`.  `findLog_triple` is the other half:
from there `recover` finds the records, and `removeLogs_triple` ends with one
log file again.  All of it is for records that `Open` can read.
-/

namespace Hamster.Raftnode

open CodeLib Seam Wal

def logPrefix : Bytes := [114, 97, 102, 116, 47, 108, 111, 103, 46]

def logName (seq : UInt64) : Bytes := logPrefix ++ formatUint seq

abbrev removeLog (seq : UInt64) : Prog Disk Unit := Disk.removeFile (logName seq)

/-- The first half of `rotate`: a new file whose opening frame is `rec`.
`none` is the panic on records that were left in the file. -/
def startLog (logSeq : UInt64) (rec : Bytes) : Prog Disk (Option UInt64) := do
  let seq := logSeq + 1
  -- a torn rotation may have left a file with this name
  removeLog seq
  let records ← openLog (logName seq)
  if records ≠ [] then pure none
  else do
    Wal.append (logName seq) rec
    pure (some seq)

/-- Replace the log with a new file.  The old one is removed only after the
new frame is durable. -/
def rotate (logSeq : UInt64) (rec : Bytes) : Prog Disk (Option UInt64) := do
  match ← startLog logSeq rec with
  | none => pure none
  | some seq => do
    removeLog logSeq
    pure (some seq)

def removeLogs : List UInt64 → Prog Disk Unit
  | [] => pure ()
  | seq :: rest => do
    removeLog seq
    removeLogs rest

/-- The sequence numbers of the log files among the names; `none` is an alien
log file. -/
def logSeqs : List Bytes → Option (List UInt64)
  | [] => some []
  | name :: names =>
    if logPrefix.isPrefixOf name then
      match parseUint (name.drop logPrefix.length) with
      | none => none
      | some seq => (logSeqs names).map (seq :: ·)
    else logSeqs names

def newestFirst (seqs : List UInt64) : List UInt64 := (seqs.insertionSort (· ≤ ·)).reverse

/-- The log file that `recover` settles on, with the others that it found. -/
structure LogChoice where
  fresh : Bool
  seq : UInt64
  records : List Bytes
  others : List UInt64

inductive RecoverError where
  | alienLog
  | noValidLog (candidates : Nat)
  | replay (record : Nat)
deriving DecidableEq

variable [Protowire] [Raft]

def holdsSnapshot (r : Bytes) : Bool :=
  match decodeRecord r with
  | .error _ => false
  | .ok rec => !Raft.isEmptySnap rec.snap

/-- Whether the records of a log file can carry the state of a node: it opens
with a snapshot, or it is the oldest file. -/
def validLog (records : List Bytes) (oldest : Bool) : Bool :=
  if oldest then true
  else
    match records with
    | [] => false
    | r :: _ => holdsSnapshot r

def selectLog : List UInt64 → Prog Disk (Option (UInt64 × List Bytes))
  | [] => pure none
  | seq :: older => do
    let records ← openLog (logName seq)
    if validLog records older.isEmpty then pure (some (seq, records)) else selectLog older

def findLog : Prog Disk (Except RecoverError LogChoice) := do
  match logSeqs (← Prog.look Disk.list) with
  | none => pure (.error .alienLog)
  | some [] => do
    let _ ← openLog (logName 1)
    pure (.ok ⟨true, 1, [], []⟩)
  | some (seq :: seqs) => do
    let candidates := newestFirst (seq :: seqs)
    match ← selectLog candidates with
    | none => pure (.error (.noValidLog candidates.length))
    | some (s, records) => pure (.ok ⟨false, s, records, candidates.filter (· ≠ s)⟩)

/-! ## Names -/

variable {seqs : List UInt64}

section Names

omit [Protowire] [Raft]

theorem logName_inj {s s' : UInt64} (h : logName s = logName s') : s = s' :=
  formatUint_inj (List.append_cancel_left h)

theorem logName_ne {s s' : UInt64} (h : s ≠ s') : logName s ≠ logName s' :=
  fun heq => h (logName_inj heq)

theorem logPrefix_isPrefix (s : UInt64) : logPrefix <+: logName s := List.prefix_append _ _

/-- Every log file on the disk has a sequence number. -/
def Named (d : Disk) : Prop :=
  ∀ name, logPrefix <+: name → ¬ Disk.Absent name d → ∃ seq, name = logName seq

theorem Named.of_others {d d' : Disk} {seq : UInt64} (h : Named d)
    (hsame : ∀ other, other ≠ logName seq → Disk.SameFile other d d') : Named d' := by
  intro name hname hfile
  by_cases heq : name = logName seq
  · exact ⟨seq, heq⟩
  · exact h name hname (fun habsent => hfile ((hsame name heq).absent habsent))

theorem Named.crash {d d' : Disk} (h : Named d) (hc : Disk.CrashesTo d d') : Named d' := by
  intro name hname hfile
  exact h name hname (fun habsent => hfile ⟨habsent.crash hc, hc.quiet name⟩)

theorem logSeqs_eq {names : List Bytes}
    (h : ∀ name ∈ names, logPrefix <+: name → ∃ seq, name = logName seq) :
    ∃ seqs, logSeqs names = some seqs ∧ (∀ seq, seq ∈ seqs ↔ logName seq ∈ names) ∧
      (names.Nodup → seqs.Nodup) := by
  induction names with
  | nil => exact ⟨[], rfl, by simp, fun _ => List.nodup_nil⟩
  | cons name names ih =>
    obtain ⟨seqs, hseqs, hmem, hnodup⟩ := ih (fun n hn => h n (List.mem_cons_of_mem name hn))
    by_cases hlog : logPrefix <+: name
    · obtain ⟨seq, rfl⟩ := h name List.mem_cons_self hlog
      have hparse : parseUint ((logName seq).drop logPrefix.length) = some seq := by
        rw [logName, List.drop_left]
        exact parseUint_formatUint seq
      refine ⟨seq :: seqs, ?_, ?_, ?_⟩
      · rw [logSeqs, if_pos (List.isPrefixOf_iff_prefix.mpr hlog), hparse, hseqs]
        rfl
      · intro seq'
        rw [List.mem_cons, List.mem_cons, hmem]
        constructor
        · rintro (rfl | hin)
          · exact Or.inl rfl
          · exact Or.inr hin
        · rintro (heq | hin)
          · exact Or.inl (logName_inj heq)
          · exact Or.inr hin
      · intro hnames
        obtain ⟨hnot, hrest⟩ := List.nodup_cons.mp hnames
        exact List.nodup_cons.mpr ⟨fun hin => hnot ((hmem seq).mp hin), hnodup hrest⟩
    · refine ⟨seqs, ?_, ?_, fun hnames => hnodup (List.nodup_cons.mp hnames).2⟩
      · rw [logSeqs, if_neg (fun hp => hlog (List.isPrefixOf_iff_prefix.mp hp))]
        exact hseqs
      · intro seq'
        rw [List.mem_cons, hmem]
        constructor
        · exact Or.inr
        · rintro (rfl | hin)
          · exact absurd (logPrefix_isPrefix seq') hlog
          · exact hin

instance uint64Total : Std.Total (fun a b : UInt64 => a ≤ b) := ⟨UInt64.le_total⟩

instance uint64Trans : IsTrans UInt64 (fun a b => a ≤ b) := ⟨fun _ _ _ => UInt64.le_trans⟩

theorem mem_newestFirst {seq : UInt64} : seq ∈ newestFirst seqs ↔ seq ∈ seqs := by
  rw [newestFirst, List.mem_reverse, List.mem_insertionSort]

theorem pairwise_newestFirst (h : seqs.Nodup) : (newestFirst seqs).Pairwise (fun a b => b < a) := by
  rw [newestFirst, List.pairwise_reverse]
  have hle := List.pairwise_insertionSort (fun a b : UInt64 => a ≤ b) seqs
  have hne : (seqs.insertionSort (fun a b => a ≤ b)).Nodup :=
    (List.perm_insertionSort _ seqs).nodup_iff.mpr h
  refine (hle.and hne).imp (fun {a b} hab => ?_)
  rw [UInt64.lt_iff_toNat_lt]
  have h1 := UInt64.le_iff_toNat_le.mp hab.1
  have h2 : a.toNat ≠ b.toNat := fun heq => hab.2 (UInt64.toNat_inj.mp heq)
  omega

end Names

/-! ## Removing a file -/

section Remove

omit [Protowire] [Raft]

variable {seq : UInt64}

theorem removeLog_others (seq : UInt64) (d : Disk) :
    (∀ other, other ≠ logName seq → Disk.SameFile other d (removeLog seq d).final) ∧
      ∀ x ∈ (removeLog seq d).points, ∀ other, other ≠ logName seq → Disk.SameFile other d x :=
  Prog.Triple.all (fun _ h => Disk.removeFile_frame h d) d (fun _ _ => Disk.SameFile.refl d)

theorem appendLog_others (seq : UInt64) (r : Bytes) (d : Disk) :
    (∀ other, other ≠ logName seq →
        Disk.SameFile other d (Wal.append (logName seq) r d).final) ∧
      ∀ x ∈ (Wal.append (logName seq) r d).points, ∀ other, other ≠ logName seq →
        Disk.SameFile other d x :=
  Prog.Triple.all (fun _ h => append_frame h d) d (fun _ _ => Disk.SameFile.refl d)

end Remove

/-! ## What the disk holds -/

structure OneLog (s : UInt64) (rs : List Bytes) (d : Disk) : Prop where
  short : Short rs
  named : Named d
  file : Holds (logName s) rs [] d
  others : ∀ seq, seq ≠ s → Disk.Absent (logName seq) d

structure Found (s : UInt64) (rs : List Bytes) (d : Disk) : Prop where
  present : d.durable.get (logName s) ≠ none
  file : ∃ t, parseFrame t = none ∧ (d.durable.get (logName s)).getD [] = frames rs ++ t
  newer : ∀ seq, s < seq → parseFrame ((d.durable.get (logName seq)).getD []) = none
  base : (∃ r rest, rs = r :: rest ∧ holdsSnapshot r = true) ∨
    ∀ seq, seq < s → d.durable.get (logName seq) = none

/-- A disk after a crash, from which `recover` gets the records `rs`. -/
structure Stored (rs : List Bytes) (d : Disk) : Prop where
  short : Short rs
  quiet : ∀ name, d.staged.get name = none
  named : Named d
  found : (rs = [] ∧ ∀ seq, d.durable.get (logName seq) = none) ∨ ∃ s, Found s rs d

section States

variable {s : UInt64} {rs : List Bytes} {r : Bytes} {d d' : Disk}

theorem stored_of_one {t : Bytes} (hrs : Short rs) (hquiet : ∀ name, d.staged.get name = none)
    (hnamed : Named d) (ht : parseFrame t = none)
    (hfile : (d.durable.get (logName s)).getD [] = frames rs ++ t)
    (hothers : ∀ seq, seq ≠ s → d.durable.get (logName seq) = none) : Stored rs d := by
  refine ⟨hrs, hquiet, hnamed, ?_⟩
  by_cases hpresent : d.durable.get (logName s) = none
  · left
    rw [hpresent, Option.getD_none] at hfile
    refine ⟨frames_eq_nil_iff.mp (List.append_eq_nil_iff.mp hfile.symm).1, fun seq => ?_⟩
    by_cases heq : seq = s
    · rw [heq]
      exact hpresent
    · exact hothers seq heq
  · right
    refine ⟨s, hpresent, ⟨t, ht, hfile⟩, fun seq hlt => ?_, Or.inr (fun seq hlt => ?_)⟩
    · rw [hothers seq (fun heq => UInt64.lt_irrefl s (heq ▸ hlt))]
      rfl
    · exact hothers seq (fun heq => UInt64.lt_irrefl s (heq ▸ hlt))

theorem OneLog.crash (h : OneLog s rs d) (hc : Disk.CrashesTo d d') : Stored rs d' := by
  exact stored_of_one (s := s) (t := []) h.short hc.quiet (h.named.crash hc) rfl
    (h.file.crash hc).content (fun seq hne => (h.others seq hne).crash hc)

theorem Stored.crash (h : Stored rs d) (hc : Disk.CrashesTo d d') : Stored rs d' := by
  have hsame : ∀ name, d'.durable.get name = d.durable.get name :=
    fun name => hc.durable_eq (h.quiet name)
  refine ⟨h.short, hc.quiet, h.named.crash hc, ?_⟩
  rcases h.found with ⟨hnil, hnone⟩ | ⟨s, hfound⟩
  · exact Or.inl ⟨hnil, fun seq => (hsame _).trans (hnone seq)⟩
  · obtain ⟨hpresent, hfile, hnewer, hbase⟩ := hfound
    refine Or.inr ⟨s, ?_, ?_, ?_, ?_⟩
    all_goals simpa only [hsame]

end States

/-! ## Append and rotate -/

section Rotate

variable {s : UInt64} {rs : List Bytes} {r : Bytes}

/-- `Append` to the log.  A crash leaves the old records, or the new one as
well. -/
theorem appendLog_triple (hr : r.length < 2 ^ 31) :
    Prog.Triple (fun d => OneLog s rs d) (Wal.append (logName s) r)
      (fun _ d => OneLog s (rs ++ [r]) d)
      (fun x => ∀ d', Disk.CrashesTo x d' → Stored rs d' ∨ Stored (rs ++ [r]) d') := by
  intro d hd
  obtain ⟨hpost, hcut⟩ := append_triple (r := r) d hd.file
  obtain ⟨hframe, hframes⟩ := appendLog_others s r d
  refine ⟨⟨hd.short.append hr, hd.named.of_others hframe, hpost, ?_⟩, ?_⟩
  · intro seq hne
    exact (hframe _ (logName_ne hne)).absent (hd.others seq hne)
  · intro x hx d' hc
    obtain ⟨t, hpart, hholds⟩ := hcut x hx d' hc
    have hnamed : Named d' := (hd.named.of_others (hframes x hx)).crash hc
    have hothers : ∀ seq, seq ≠ s → d'.durable.get (logName seq) = none := by
      intro seq hne
      exact ((hframes x hx _ (logName_ne hne)).absent (hd.others seq hne)).crash hc
    by_cases hwhole : t = frame r
    · subst hwhole
      exact Or.inr (stored_of_one (s := s) (t := []) (hd.short.append hr) hc.quiet hnamed rfl
        hholds.of_frame.content hothers)
    · have hnone : parseFrame t = none := parseFrame_of_isPrefix (by omega) hpart hwhole
      exact Or.inl (stored_of_one (s := s) hd.short hc.quiet hnamed hnone hholds.content hothers)

structure TwoLogs (s : UInt64) (rs : List Bytes) (r : Bytes) (d : Disk) : Prop where
  named : Named d
  old : Holds (logName s) rs [] d
  new : Holds (logName (s + 1)) [r] [] d
  others : ∀ seq, seq ≠ s → seq ≠ s + 1 → Disk.Absent (logName seq) d

omit [Protowire] [Raft] in
theorem lt_add_one (hs : s.toNat + 1 < 2 ^ 64) : s < s + 1 := by
  rw [UInt64.lt_iff_toNat_lt, UInt64.toNat_add]
  have h1 : (1 : UInt64).toNat = 1 := rfl
  omega

variable {d : Disk}

theorem stored_of_two {t : Bytes} (hs : s.toNat + 1 < 2 ^ 64) (hrs : Short rs)
    (hr : r.length < 2 ^ 31) (hsnap : holdsSnapshot r = true)
    (hquiet : ∀ name, d.staged.get name = none) (hnamed : Named d) (hpart : t <+: frame r)
    (hold : (d.durable.get (logName s)).getD [] = frames rs)
    (hnew : (d.durable.get (logName (s + 1))).getD [] = t)
    (hothers : ∀ seq, seq ≠ s → seq ≠ s + 1 → d.durable.get (logName seq) = none) :
    Stored rs d ∨ Stored [r] d := by
  have hlt := lt_add_one hs
  by_cases hwhole : t = frame r
  · -- the rotation is complete
    subst hwhole
    right
    refine ⟨by simpa [Short] using hr, hquiet, hnamed, Or.inr ⟨s + 1, ?_, ⟨[], rfl, ?_⟩, ?_, ?_⟩⟩
    · intro hnone
      rw [hnone, Option.getD_none] at hnew
      exact frame_ne_nil hnew.symm
    · simpa using hnew
    · intro seq hseq
      rw [hothers seq (fun heq => UInt64.lt_asymm (heq ▸ hseq) hlt)
        (fun heq => UInt64.lt_irrefl _ (heq ▸ hseq))]
      rfl
    · exact Or.inl ⟨r, [], rfl, hsnap⟩
  · left
    have hnone : parseFrame t = none := parseFrame_of_isPrefix (by omega) hpart hwhole
    by_cases hpresent : d.durable.get (logName s) = none
    · -- there was no file yet, so the torn one is the oldest
      rw [hpresent, Option.getD_none] at hold
      refine stored_of_one (s := s + 1) hrs hquiet hnamed hnone (by rw [hnew, ← hold]; rfl) ?_
      intro seq hne
      by_cases heq : seq = s
      · rw [heq]
        exact hpresent
      · exact hothers seq heq hne
    · refine ⟨hrs, hquiet, hnamed, Or.inr ⟨s, hpresent, ⟨[], rfl, by simpa using hold⟩, ?_, ?_⟩⟩
      · intro seq hseq
        by_cases heq : seq = s + 1
        · rw [heq, hnew]
          exact hnone
        · rw [hothers seq (fun h => UInt64.lt_irrefl _ (h ▸ hseq)) heq]
          rfl
      · refine Or.inr (fun seq hseq => ?_)
        exact hothers seq (fun h => UInt64.lt_irrefl _ (h ▸ hseq))
          (fun h => UInt64.lt_asymm hlt (h ▸ hseq))

omit [Protowire] [Raft] in
theorem openLog_of_absent {name : Bytes} (h : Disk.Absent name d) :
    openLog name d = ⟨[], d, [d]⟩ :=
  openLog_of_none ((Disk.readFile_of_quiet h.2).trans h.1)

omit [Protowire] [Raft] in
/-- The new file is not there, so a rotation finds nothing to remove or read
and appends its frame. -/
theorem startLog_run (hd : OneLog s rs d) :
    startLog s r d = ⟨some (s + 1), (Wal.append (logName (s + 1)) r d).final,
      d :: d :: (Wal.append (logName (s + 1)) r d).points⟩ := by
  have habsent := hd.others (s + 1) (by simp)
  have hremove : removeLog (s + 1) d = ⟨(), d, [d]⟩ := Disk.removeFile_of_absent habsent
  rw [startLog, Prog.run_bind _ _ _ hremove,
    Prog.run_bind _ _ _ (openLog_of_absent habsent), if_neg (by simp),
    Prog.bind_apply (Wal.append (logName (s + 1)) r)]
  exact congrArg (Exec.mk _ _) (congrArg (d :: d :: ·) (List.append_nil _))

omit [Protowire] [Raft] in
theorem startLog_twoLogs (hd : OneLog s rs d) : TwoLogs s rs r (startLog s r d).final := by
  have hne : s + 1 ≠ s := by simp
  have habsent := hd.others (s + 1) hne
  obtain ⟨hpost, -⟩ := append_triple (r := r) d (holds_of_absent habsent.1 habsent.2)
  obtain ⟨hframe, -⟩ := appendLog_others (s + 1) r d
  rw [startLog_run hd]
  refine ⟨hd.named.of_others hframe, hd.file.of_sameFile (hframe _ (logName_ne hne.symm)),
    hpost, ?_⟩
  intro seq hseq hseq'
  exact (hframe _ (logName_ne hseq')).absent (hd.others seq hseq)

/-- Until its `Append` returns, a rotation can be cut short to the old records
or to its own frame. -/
theorem startLog_triple (hs : s.toNat + 1 < 2 ^ 64) (hr : r.length < 2 ^ 31)
    (hsnap : holdsSnapshot r = true) :
    Prog.Triple (fun d => OneLog s rs d) (startLog s r)
      (fun next d => next = some (s + 1) ∧ TwoLogs s rs r d)
      (fun x => ∀ d', Disk.CrashesTo x d' → Stored rs d' ∨ Stored [r] d') := by
  have hne : s + 1 ≠ s := by simp
  intro d hd
  refine ⟨⟨by rw [startLog_run hd], startLog_twoLogs hd⟩, ?_⟩
  have habsent := hd.others (s + 1) hne
  obtain ⟨-, hcut⟩ := append_triple (r := r) d (holds_of_absent habsent.1 habsent.2)
  obtain ⟨-, hframes⟩ := appendLog_others (s + 1) r d
  rw [startLog_run hd]
  intro x hx d' hc
  rcases List.mem_cons.mp hx with rfl | hx
  · exact Or.inl (hd.crash hc)
  rcases List.mem_cons.mp hx with rfl | hx
  · exact Or.inl (hd.crash hc)
  obtain ⟨t, hpart, hholds⟩ := hcut x hx d' hc
  have hold := ((hd.file.of_sameFile (hframes x hx _ (logName_ne hne.symm))).crash hc).content
  refine stored_of_two hs hd.short hr hsnap hc.quiet
    ((hd.named.of_others (hframes x hx)).crash hc) hpart (by simpa using hold)
    hholds.content ?_
  intro seq hseq hseq'
  exact ((hframes x hx _ (logName_ne hseq')).absent (hd.others seq hseq)).crash hc

omit [Protowire] [Raft] in
theorem removeOld_post (hd : TwoLogs s rs r d) :
    Named (removeLog s d).final ∧ Holds (logName (s + 1)) [r] [] (removeLog s d).final ∧
      ∀ seq, seq ≠ s + 1 → Disk.Absent (logName seq) (removeLog s d).final := by
  have hne : s + 1 ≠ s := by simp
  obtain ⟨hpost, -⟩ := Disk.removeFile_triple _ d ⟨hd.old.quiet, rfl⟩
  obtain ⟨hframe, -⟩ := removeLog_others s d
  refine ⟨hd.named.of_others hframe, hd.new.of_sameFile (hframe _ (logName_ne hne)), ?_⟩
  intro seq hseq
  by_cases heq : seq = s
  · rw [heq]
    exact hpost
  · exact (hframe _ (logName_ne heq)).absent (hd.others seq heq hseq)

theorem removeOld_triple (hs : s.toNat + 1 < 2 ^ 64) (hr : r.length < 2 ^ 31)
    (hsnap : holdsSnapshot r = true) :
    Prog.Triple (fun d => TwoLogs s rs r d) (removeLog s) (fun _ d => OneLog (s + 1) [r] d)
      (fun x => ∀ d', Disk.CrashesTo x d' → Stored [r] d') := by
  have hlt := lt_add_one hs
  have hne : s + 1 ≠ s := by simp
  have hshort : Short [r] := by simpa [Short] using hr
  intro d hd
  obtain ⟨hnamed, hnew, hothers⟩ := removeOld_post hd
  obtain ⟨-, hframes⟩ := removeLog_others s d
  refine ⟨⟨hshort, hnamed, hnew, hothers⟩, ?_⟩
  · intro x hx d' hc
    have hnew := ((hd.new.of_sameFile (hframes x hx _ (logName_ne hne))).crash hc).content
    refine ⟨hshort, hc.quiet, (hd.named.of_others (hframes x hx)).crash hc,
      Or.inr ⟨s + 1, ?_, ⟨[], rfl, hnew⟩, ?_, Or.inl ⟨r, [], rfl, hsnap⟩⟩⟩
    · intro hnone
      rw [hnone, Option.getD_none] at hnew
      exact frame_ne_nil (by simpa using hnew.symm)
    · intro seq hseq
      have hseq' : seq ≠ s := fun h => UInt64.lt_asymm (h ▸ hseq) hlt
      have hgone := (hframes x hx _ (logName_ne hseq')).absent
        (hd.others seq hseq' (fun h => UInt64.lt_irrefl _ (h ▸ hseq)))
      rw [hgone.crash hc]
      rfl

theorem stored_nil_of_long {d' : Disk} (hd : OneLog s rs d) (hlong : 2 ^ 31 ≤ r.length)
    (hr : r.length < 2 ^ 64)
    (hc : Disk.CrashesTo (removeLog s (startLog s r d).final).final d') : Stored [] d' := by
  obtain ⟨hnamed, hnew, hothers⟩ := removeOld_post (startLog_twoLogs hd)
  have hnone : parseFrame (frame r) = none := by
    have h := parseFrame_frame_of_long hlong hr []
    rwa [List.append_nil] at h
  refine stored_of_one (s := s + 1) (by simp [Short]) hc.quiet (hnamed.crash hc) hnone ?_ ?_
  · have hcontent := (hnew.crash hc).content
    simpa using hcontent
  · exact fun seq hseq => (hothers seq hseq).crash hc

omit [Protowire] [Raft] in
/-- The file of a rotation holds its frame, whatever was there under its name
and however long the frame is. -/
theorem holds_rotate (hquiet : d.staged.get (logName (s + 1)) = none) :
    Holds (logName (s + 1)) [r] [] ((rotate s r).final d) := by
  have hne : s + 1 ≠ s := by simp
  have habsent : Disk.Absent (logName (s + 1)) ((removeLog (s + 1)).final d) :=
    (Disk.removeFile_triple _).post ⟨hquiet, rfl⟩
  obtain ⟨d₁, hd₁⟩ : ∃ d₁, (removeLog (s + 1)).final d = d₁ := ⟨_, rfl⟩
  rw [hd₁] at habsent
  -- nothing is left under the name, so the rotation appends its frame
  have hstart : startLog s r d = ⟨some (s + 1), (Wal.append (logName (s + 1)) r).final d₁,
      (startLog s r d).points⟩ := by
    have hremove : removeLog (s + 1) d = ⟨(), d₁, (removeLog (s + 1) d).points⟩ := by
      rw [← hd₁]
      rfl
    rw [startLog, Prog.run_bind _ _ _ hremove, Prog.run_bind _ _ _ (openLog_of_absent habsent),
      if_neg (by simp)]
    rfl
  have happend : Holds (logName (s + 1)) [r] [] ((Wal.append (logName (s + 1)) r).final d₁) :=
    append_triple.post (holds_of_absent habsent.1 habsent.2)
  have hfinal : (rotate s r).final d =
      (removeLog s).final ((Wal.append (logName (s + 1)) r).final d₁) := by
    rw [rotate, Prog.final, Prog.run_bind _ _ _ hstart]
    rfl
  rw [hfinal]
  exact happend.of_sameFile
    ((Disk.removeFile_frame (logName_ne hne) _).post (Disk.SameFile.refl _))

end Rotate

/-! ## Records of any length -/

section AnyLength

omit [Protowire] [Raft]

/-- Without a crash, `Open` reads back what was appended to a log since it was
created, and removes nothing, exactly when every record has fewer than 2^31
bytes.  The same holds of the frame of a rotation. -/
theorem log_reads_back_iff (d : Disk) :
    (∀ (name : Bytes) (us : List Use), d.durable.get name = none →
      d.staged.get name = none → (∀ r ∈ appended us, r.length < 2 ^ 63) →
      (ReadsBack name (appended us) (uses name d us) ↔ ∀ r ∈ appended us, r.length < 2 ^ 31)) ∧
    ∀ (s : UInt64) (r : Bytes), d.staged.get (logName (s + 1)) = none → r.length < 2 ^ 63 →
      (ReadsBack (logName (s + 1)) [r] ((rotate s r).final d) ↔ r.length < 2 ^ 31) := by
  refine ⟨fun name us hfile hquiet hsize => ?_, fun s r hquiet hsize => ?_⟩
  · have hwide : ∀ r ∈ appended us, r.length < 2 ^ 64 :=
      fun r hr => Nat.lt_trans (hsize r hr) (by decide)
    exact readsBack_uses_iff (holds_of_absent hfile hquiet) us hwide
  · constructor
    · intro hback
      by_contra hlong
      have hstuck : Stuck (frame r) :=
        ⟨r, [], Nat.le_of_not_lt hlong, Nat.lt_trans hsize (by decide), (List.append_nil _).symm⟩
      have htail : Holds (logName (s + 1)) [] (frame r) ((rotate s r).final d) :=
        Holds.to_frame (holds_rotate hquiet)
      have hempty :=
        (openLog_triple (fun _ h => absurd h List.not_mem_nil) hstuck.parseFrame).post htail
      rw [hback.1] at hempty
      exact absurd hempty.1 (List.cons_ne_nil _ _)
    · intro hshort
      exact (holds_rotate hquiet).readsBack (by simpa [Short] using hshort)

/-- Two short records over a restart, and a rotation. -/
theorem log_reads_back_short :
    ReadsBack [119] [[1], [2]] (uses [119] Disk.newDisk [.append [1], .reopen, .append [2]]) ∧
      ReadsBack (logName (1 + 1)) [[7]] ((rotate 1 [7]).final Disk.newDisk) :=
  ⟨((log_reads_back_iff Disk.newDisk).1 [119] [.append [1], .reopen, .append [2]] rfl rfl
      (by decide)).mpr (by decide),
    ((log_reads_back_iff Disk.newDisk).2 1 [7] rfl (by decide)).mpr (by decide)⟩

theorem uses_long {r : Bytes} (hlong : 2 ^ 31 ≤ r.length) (hwide : r.length < 2 ^ 64) :
    let d := uses [119] Disk.newDisk [.append [1], .append r, .append [2]]
    (openLog [119]).value d = [[1]] ∧
      (((openLog [119]).final d).durable.get [119]).getD [] = frame [1] := by
  intro d
  have hone : Holds [119] [[1]] [] ((Wal.append [119] [1]).final Disk.newDisk) :=
    append_triple.post (holds_of_absent rfl rfl)
  have htail : Holds [119] [[1]] (frame r ++ frame [2]) d :=
    (hone.append (r := r)).append (r := [2])
  have hstuck : Stuck (frame r ++ frame [2]) := ⟨r, _, hlong, hwide, rfl⟩
  obtain ⟨hvalue, hfinal⟩ := (openLog_triple (by simp [Short]) hstuck.parseFrame).post htail
  refine ⟨hvalue, ?_⟩
  rw [hfinal.content]
  simp

def longRecord : Bytes := List.replicate (2 ^ 31) 0

/-- It is appended between two others: `Open` returns the first one, and the
file is cut after it. -/
theorem log_loses_long_record :
    let d := uses [119] Disk.newDisk [.append [1], .append longRecord, .append [2]]
    (openLog [119]).value d = [[1]] ∧
      (((openLog [119]).final d).durable.get [119]).getD [] = frame [1] :=
  have hlength : longRecord.length = 2 ^ 31 := List.length_replicate
  uses_long (Nat.le_of_eq hlength.symm) (Nat.lt_of_le_of_lt (Nat.le_of_eq hlength) (by decide))

end AnyLength

/-! ## Recover -/

/-- No rewrite of `Open` is staged: whatever is staged is a removal. -/
def BetweenRewrites (x : Disk) : Prop :=
  ∀ name st, x.staged.get name = some st → st.removed = true

section Recover

variable {s seq : UInt64} {rs : List Bytes} {d d' : Disk}

omit [Protowire] [Raft] in
theorem openLog_points {name : Bytes} :
    ∀ x ∈ (openLog name d).points, BetweenRewrites x → x = d := by
  intro x hx hbetween
  rcases openLog_cases name d with ⟨-, hpoints⟩ | ⟨data, -, -, hpoints⟩
  · exact hpoints x hx
  · rcases hpoints x hx with rfl | rfl
    · rfl
    · cases hbetween name _ (d.staged_writeFile_self data)

/-- The file is there, and `recover` has not passed it yet. -/
structure Readable (s : UInt64) (rs : List Bytes) (d : Disk) : Prop where
  short : Short rs
  quiet : ∀ name, d.staged.get name = none
  named : Named d
  found : Found s rs d

theorem Readable.stored (h : Readable s rs d) : Stored rs d :=
  ⟨h.short, h.quiet, h.named, Or.inr ⟨s, h.found⟩⟩

theorem Found.of_same (h : Found s rs d) (hne : seq ≠ s)
    (hsame : ∀ name, name ≠ logName seq → d'.durable.get name = d.durable.get name)
    (hnewer : s < seq → parseFrame ((d'.durable.get (logName seq)).getD []) = none)
    (holder : d.durable.get (logName seq) = none → d'.durable.get (logName seq) = none) :
    Found s rs d' := by
  have hs := hsame _ (logName_ne hne.symm)
  refine ⟨?_, ?_, ?_, ?_⟩
  · rw [hs]
    exact h.present
  · rw [hs]
    exact h.file
  · intro seq' hlt
    by_cases heq : seq' = seq
    · rw [heq] at hlt ⊢
      exact hnewer hlt
    · rw [hsame _ (logName_ne heq)]
      exact h.newer seq' hlt
  · rcases h.base with hsnap | hnone
    · exact Or.inl hsnap
    · refine Or.inr (fun seq' hlt => ?_)
      by_cases heq : seq' = seq
      · rw [heq]
        exact holder (hnone seq (heq ▸ hlt))
      · rw [hsame _ (logName_ne heq)]
        exact hnone seq' hlt

def Within (seqs : List UInt64) (d : Disk) : Prop :=
  ∀ seq, seq ∉ seqs → Disk.Absent (logName seq) d

omit [Protowire] [Raft] in
theorem openLog_quiet {name t : Bytes} {rs : List Bytes} (hrs : Short rs)
    (ht : parseFrame t = none) (hquiet : ∀ name, d.staged.get name = none)
    (hfile : (d.durable.get name).getD [] = frames rs ++ t) :
    (openLog name d).value = rs ∧ Holds name rs [] (openLog name d).final ∧
      (∀ other, other ≠ name → Disk.SameFile other d (openLog name d).final) ∧
      (∀ other, (openLog name d).final.staged.get other = none) ∧
      (d.durable.get name = none ↔ (openLog name d).final.durable.get name = none) := by
  obtain ⟨⟨hvalue, hholds⟩, -⟩ := openLog_triple hrs ht d ⟨hquiet name, hfile⟩
  obtain ⟨hframe, -⟩ := Prog.Triple.all (fun other (h : other ≠ name) => openLog_frame h d) d
    (fun other _ => Disk.SameFile.refl d)
  refine ⟨hvalue, hholds, hframe, fun other => ?_, ?_⟩
  · by_cases heq : other = name
    · rw [heq]
      exact hholds.quiet
    · exact (hframe other heq).2.trans (hquiet other)
  · rcases openLog_cases name d with ⟨hsame, -⟩ | ⟨data, hread, hwritten, -⟩
    · rw [hsame]
    · rw [Disk.readFile_of_quiet (hquiet name)] at hread
      rw [hwritten, Disk.durable_sync_of_staged (d.staged_writeFile_self _) rfl]
      simp [hread]

theorem Readable.open_newer (h : Readable s rs d) (hlt : s < seq) (hwithin : Within seqs d)
    (hseq : seq ∈ seqs) :
    (openLog (logName seq) d).value = [] ∧ Readable s rs (openLog (logName seq) d).final ∧
      Within seqs (openLog (logName seq) d).final := by
  have hne : seq ≠ s := (UInt64.ne_of_lt hlt).symm
  obtain ⟨hvalue, hholds, hsame, hquiet, hdurable⟩ :=
    @openLog_quiet d (logName seq) _ [] (by simp [Short]) (h.found.newer seq hlt) h.quiet rfl
  refine ⟨hvalue, ⟨h.short, hquiet, h.named.of_others hsame, ?_⟩, ?_⟩
  · refine h.found.of_same hne (fun name hname => (hsame name hname).1) (fun _ => ?_) hdurable.mp
    rw [hholds.content]
    rfl
  · intro seq' hnot
    have hne' : seq' ≠ seq := by
      rintro rfl
      exact hnot hseq
    exact (hsame _ (logName_ne hne')).absent (hwithin seq' hnot)

theorem Readable.open_self (h : Readable s rs d) (hwithin : Within seqs d) (hs : s ∈ seqs) :
    (openLog (logName s) d).value = rs ∧ Readable s rs (openLog (logName s) d).final ∧
      Holds (logName s) rs [] (openLog (logName s) d).final ∧
      Within seqs (openLog (logName s) d).final := by
  obtain ⟨t, ht, hfile⟩ := h.found.file
  obtain ⟨hvalue, hholds, hsame, hquiet, hdurable⟩ := openLog_quiet h.short ht h.quiet hfile
  refine ⟨hvalue, ⟨h.short, hquiet, h.named.of_others hsame, ?_⟩, hholds, ?_⟩
  · refine ⟨fun hnone => h.found.present (hdurable.mpr hnone), ⟨[], rfl, hholds.content⟩, ?_, ?_⟩
    · intro seq hlt
      rw [(hsame _ (logName_ne (UInt64.ne_of_lt hlt).symm)).1]
      exact h.found.newer seq hlt
    · rcases h.found.base with hsnap | holder
      · exact Or.inl hsnap
      · refine Or.inr (fun seq hlt => ?_)
        rw [(hsame _ (logName_ne (UInt64.ne_of_lt hlt))).1]
        exact holder seq hlt
  · intro seq hnot
    have hne : seq ≠ s := by
      rintro rfl
      exact hnot hs
    exact (hsame _ (logName_ne hne)).absent (hwithin seq hnot)

theorem selectLog_triple {newer older seqs : List UInt64} (hnewer : ∀ x ∈ newer, s < x)
    (hseqs : ∀ x ∈ newer ++ s :: older, x ∈ seqs) (hvalid : validLog rs older.isEmpty = true) :
    Prog.Triple (fun d => Readable s rs d ∧ Within seqs d) (selectLog (newer ++ s :: older))
      (fun found d => found = some (s, rs) ∧ Readable s rs d ∧ Holds (logName s) rs [] d ∧
        Within seqs d)
      (fun x => BetweenRewrites x → Stored rs x) := by
  induction newer with
  | nil =>
    intro d hd
    obtain ⟨hvalue, hreadable, hholds, hwithin⟩ := hd.1.open_self hd.2 (hseqs s (by simp))
    have hrun : selectLog (s :: older) d =
        ⟨some (s, rs), (openLog (logName s) d).final, (openLog (logName s) d).points⟩ := by
      rw [selectLog, Prog.bind_apply, hvalue, if_pos hvalid]
      exact congrArg (Exec.mk _ _) (List.append_nil _)
    rw [List.nil_append, hrun]
    refine ⟨⟨rfl, hreadable, hholds, hwithin⟩, fun x hx hbetween => ?_⟩
    rw [openLog_points x hx hbetween]
    exact hd.1.stored
  | cons y newer ih =>
    have hrest := ih (fun x hx => hnewer x (List.mem_cons_of_mem y hx))
      (fun x hx => hseqs x (List.mem_cons_of_mem y hx))
    intro d hd
    obtain ⟨hvalue, hreadable, hwithin⟩ :=
      hd.1.open_newer (hnewer y List.mem_cons_self) hd.2 (hseqs y List.mem_cons_self)
    obtain ⟨hpost, hcut⟩ := hrest _ ⟨hreadable, hwithin⟩
    -- the file holds no record and is not the oldest
    have hinvalid : validLog [] (newer ++ s :: older).isEmpty = false := by
      cases newer <;> rfl
    have hrun : selectLog (y :: (newer ++ s :: older)) d =
        ⟨(selectLog (newer ++ s :: older) (openLog (logName y) d).final).value,
          (selectLog (newer ++ s :: older) (openLog (logName y) d).final).final,
          (openLog (logName y) d).points ++
            (selectLog (newer ++ s :: older) (openLog (logName y) d).final).points⟩ := by
      rw [selectLog, Prog.bind_apply, hvalue, if_neg (by simp [hinvalid])]
    rw [List.cons_append, hrun]
    refine ⟨hpost, fun x hx hbetween => ?_⟩
    rcases List.mem_append.mp hx with hx | hx
    · rw [openLog_points x hx hbetween]
      exact hd.1.stored
    · exact hcut x hx hbetween

/-- The disk after the search: one log file counts, and the others are to be
removed. -/
structure Clearing (s : UInt64) (others : List UInt64) (rs : List Bytes) (d : Disk) :
    Prop where
  short : Short rs
  quiet : ∀ name, d.staged.get name = none
  named : Named d
  file : Holds (logName s) rs [] d
  within : ∀ seq, seq ≠ s → seq ∉ others → Disk.Absent (logName seq) d
  found : others = [] ∨ Found s rs d
  kept : s ∉ others

/-- `recover` finds the records, and the other files it found are older or
hold none. -/
theorem findLog_triple (d₀ : Disk) :
    Prog.Triple (fun d => d = d₀ ∧ Stored rs d) findLog
      (fun found d => ∃ choice, found = .ok choice ∧ choice.records = rs ∧
        Clearing choice.seq choice.others rs d ∧
        ∀ seq ∈ choice.others, seq < choice.seq ∨ (openLog (logName seq)).value d₀ = [])
      (fun x => BetweenRewrites x → Stored rs x) := by
  rintro d ⟨rfl, hd⟩
  have hnamed : ∀ name ∈ d.list, logPrefix <+: name → ∃ seq, name = logName seq := by
    intro name hname hlog
    refine hd.named name hlog (fun habsent => ?_)
    exact (Disk.mem_list_of_quiet hd.quiet).mp hname habsent.1
  obtain ⟨seqs, hseqs, hmem, hnodup⟩ := logSeqs_eq hnamed
  have hpresent : ∀ seq, seq ∈ seqs ↔ d.durable.get (logName seq) ≠ none :=
    fun seq => (hmem seq).trans (Disk.mem_list_of_quiet hd.quiet)
  have hwithin : ∀ seq, seq ∉ seqs → Disk.Absent (logName seq) d := by
    intro seq hnot
    exact ⟨not_ne_iff.mp (fun h => hnot ((hpresent seq).mpr h)), hd.quiet _⟩
  rw [findLog, Prog.run_bind _ _ _ (show Prog.look Disk.list d = ⟨d.list, d, [d]⟩ from rfl), hseqs]
  cases seqs with
  | nil =>
    -- no log file: a fresh node
    have hrs : rs = [] := by
      rcases hd.found with ⟨hnil, -⟩ | ⟨s, hfound⟩
      · exact hnil
      · exact absurd ((hpresent s).mpr hfound.present) List.not_mem_nil
    subst hrs
    have habsent := hwithin 1 List.not_mem_nil
    dsimp only
    rw [Prog.run_bind _ _ _ (openLog_of_absent habsent)]
    have hempty : Holds (logName 1) [] [] d := holds_of_absent habsent.1 habsent.2
    refine ⟨⟨⟨true, 1, [], []⟩, rfl, rfl, ⟨hd.short, hd.quiet, hd.named, hempty,
      fun seq _ _ => hwithin seq List.not_mem_nil, Or.inl rfl, List.not_mem_nil⟩,
      fun seq hseq => absurd hseq List.not_mem_nil⟩, fun x hx _ => ?_⟩
    have hx' : x ∈ [d, d] := hx
    simp only [List.mem_cons, List.not_mem_nil, or_false, or_self] at hx'
    rw [hx']
    exact hd
  | cons seq₀ seqs =>
    obtain ⟨s, hfound⟩ : ∃ s, Found s rs d := by
      rcases hd.found with ⟨-, hnone⟩ | hfound
      · exact absurd (hnone seq₀) ((hpresent seq₀).mp List.mem_cons_self)
      · exact hfound
    have hs : s ∈ newestFirst (seq₀ :: seqs) :=
      mem_newestFirst.mpr ((hpresent s).mpr hfound.present)
    have hsorted := pairwise_newestFirst (hnodup (Disk.nodup_list_of_quiet hd.quiet))
    obtain ⟨newer, older, hsplit⟩ := List.append_of_mem hs
    rw [hsplit] at hsorted
    obtain ⟨-, htail, hcross⟩ := List.pairwise_append.mp hsorted
    obtain ⟨holder, -⟩ := List.pairwise_cons.mp htail
    have hvalid : validLog rs older.isEmpty = true := by
      rcases hfound.base with ⟨r, rest, rfl, hsnap⟩ | hnone
      · cases older with
        | nil => rfl
        | cons _ _ => exact hsnap
      · -- an older candidate would be a file
        cases older with
        | nil => rfl
        | cons y _ =>
          have hy : y ∈ newestFirst (seq₀ :: seqs) := by
            rw [hsplit]
            simp
          exact absurd (hnone y (holder y List.mem_cons_self))
            ((hpresent y).mp (mem_newestFirst.mp hy))
    obtain ⟨hpost, hcut⟩ := @selectLog_triple _ _ s rs newer older (seq₀ :: seqs)
      (fun x hx => hcross x hx s List.mem_cons_self)
      (fun x hx => mem_newestFirst.mp (hsplit ▸ hx)) hvalid d
      ⟨⟨hd.short, hd.quiet, hd.named, hfound⟩, hwithin⟩
    obtain ⟨hvalue, hreadable, hholds, hwithin'⟩ := hpost
    dsimp only
    rw [hsplit, Prog.bind_apply, hvalue]
    refine ⟨⟨⟨false, s, rs, (newer ++ s :: older).filter (· ≠ s)⟩, rfl, rfl,
      ⟨hreadable.short, hreadable.quiet, hreadable.named, hholds, ?_, Or.inr hreadable.found,
        by simp⟩, ?_⟩, ?_⟩
    · intro seq hne hnot
      refine hwithin' seq (fun hin => hnot ?_)
      rw [List.mem_filter]
      exact ⟨hsplit ▸ mem_newestFirst.mpr hin, by simpa using hne⟩
    · intro seq hseq
      obtain ⟨hin, hne⟩ := List.mem_filter.mp hseq
      rcases List.mem_append.mp hin with hnew | hold
      · have hlt := hcross seq hnew s List.mem_cons_self
        exact Or.inr (openLog_quiet (by simp [Short]) (hfound.newer seq hlt) hd.quiet rfl).1
      · rcases List.mem_cons.mp hold with rfl | hold
        · simp at hne
        · exact Or.inl (holder seq hold)
    · intro x hx hbetween
      have hx' : x ∈ d :: ((selectLog (newer ++ s :: older) d).points ++ []) := hx
      rw [List.append_nil] at hx'
      rcases List.mem_cons.mp hx' with rfl | hx'
      · exact hd
      · exact hcut x hx' hbetween

/-- Removing the other files ends with one log file.  A crash on the way
loses nothing. -/
theorem removeLogs_triple {others : List UInt64} :
    Prog.Triple (fun d => Clearing s others rs d) (removeLogs others) (fun _ d => OneLog s rs d)
      (fun x => ∀ d', Disk.CrashesTo x d' → Stored rs d') := by
  induction others with
  | nil =>
    exact Prog.Triple.pure (fun d hd => ⟨hd.short, hd.named, hd.file,
      fun seq hne => hd.within seq hne List.not_mem_nil⟩)
  | cons seq rest ih =>
    refine Prog.Triple.bind (Q := fun _ d => Clearing s rest rs d) ?_ (fun _ => ih)
    intro d hd
    have hne : seq ≠ s := fun h => hd.kept (h ▸ List.mem_cons_self)
    have hfound : Found s rs d := by
      rcases hd.found with hnil | hfound
      · cases hnil
      · exact hfound
    obtain ⟨hpost, hcut⟩ := Disk.removeFile_triple _ d ⟨hd.quiet _, rfl⟩
    obtain ⟨hframe, hframes⟩ := removeLog_others seq d
    refine ⟨⟨hd.short, ?_, hd.named.of_others hframe,
      hd.file.of_sameFile (hframe _ (logName_ne hne.symm)), ?_, Or.inr ?_,
      fun h => hd.kept (List.mem_cons_of_mem seq h)⟩, ?_⟩
    · intro name
      by_cases heq : name = logName seq
      · rw [heq]
        exact hpost.2
      · exact (hframe name heq).2.trans (hd.quiet name)
    · intro seq' hseq' hnot
      by_cases heq : seq' = seq
      · rw [heq]
        exact hpost
      · refine (hframe _ (logName_ne heq)).absent (hd.within seq' hseq' ?_)
        rw [List.mem_cons, not_or]
        exact ⟨heq, hnot⟩
    · refine hfound.of_same hne (fun name h => (hframe name h).1) (fun _ => ?_) (fun _ => hpost.1)
      rw [hpost.1]
      rfl
    · intro x hx d' hc
      have hsame : ∀ name, name ≠ logName seq → d'.durable.get name = d.durable.get name := by
        intro name h
        rw [hc.durable_eq ((hframes x hx name h).2.trans (hd.quiet name))]
        exact (hframes x hx name h).1
      refine ⟨hd.short, hc.quiet, (hd.named.of_others (hframes x hx)).crash hc,
        Or.inr ⟨s, hfound.of_same hne hsame (fun hlt => ?_) (fun hnone => ?_)⟩⟩
      · rcases hcut x hx d' hc with hkept | hgone
        · rw [hkept]
          exact hfound.newer seq hlt
        · rw [hgone]
          rfl
      · rcases hcut x hx d' hc with hkept | hgone
        · exact hkept.trans hnone
        · exact hgone

end Recover

end Hamster.Raftnode
