import Hamster.Coord.Put
import Hamster.Meta.Scans

/-!
# The rewrap sweep

`internal/coord/rewrap.go`: while a rotation of the master key is open, the
leader walks the encrypted versions, wraps the data key of each one under the
new master key, and commits it with a `RewrapDEK` proposal.  When no version is
left on the old key, it closes the rotation.

The sweep has one proposal in flight.  `next` runs it up to that proposal, and
`rewrapped` takes the answer.  Every call of `Wrap` is part of the result of
`next`: `nextItems_spec` says that each one wraps the data key of an item
under a nonce from the address of its data.
-/

namespace Hamster.Coord

open CodeLib Meta Keys

structure WrapCall where
  kek : KEK
  dek : DEK
  nonce : Bytes
deriving DecidableEq

structure SweepItem where
  bucket : Bytes
  key : Bytes
  entry : VersionEntry

/-- A whole object that is encrypted.  Markers and multipart entries carry no
wrapped key of their own. -/
def isEncrypted (e : VersionEntry) : Bool :=
  e.kind = kindObject ∧ e.parts.length = 0 ∧ e.encAlgorithm ≠ encNone

def collectEncrypted (s : Store) : Except MetaError (List SweepItem) :=
  scanBuckets s (fun b work k e => if isEncrypted e then work ++ [⟨b, k, e⟩] else work) []

/-- Why a version was not rewrapped.  Errors of proposals are texts. -/
inductive RewrapFailure where
  | unwrap (bucket key : Bytes)
  | rewrap (bucket key : Bytes)
  | commit (bucket key text : Bytes)
  | complete (text : Bytes)
deriving DecidableEq

structure RewrapReport where
  objects : Nat := 0
  rewrapped : Nat := 0
  alreadyNew : Nat := 0
  remaining : Nat := 0
  completed : Bool := false
  failed : List RewrapFailure := []
deriving DecidableEq

def RewrapReport.fail (r : RewrapReport) (f : RewrapFailure) : RewrapReport :=
  { r with failed := r.failed ++ [f] }

/-- A sweep with the items that it has not looked at yet. -/
structure RewrapOp where
  oldKEK : KEK
  newKEK : KEK
  oldFP : UInt64
  newFP : UInt64
  work : List SweepItem
  report : RewrapReport := {}

inductive RewrapError where
  | busy
  | noRotation
  | oldKEK (fingerprint : UInt64)
  | newKEK (fingerprint : UInt64)
deriving DecidableEq

/-- What a sweep does next: it proposes a new wrapped key, it closes the
rotation, or it is done. -/
inductive RewrapStep where
  | rewrap (op : RewrapOp) (item : SweepItem) (p : RewrapDEK)
  | complete (op : RewrapOp) (p : CompleteKEKRotation)
  | done (report : RewrapReport)

namespace RewrapOp

/-- Close the pass: the rotation ends when no version is left on the old
key. -/
def finish (atMS : Int64) (s : Store) (op : RewrapOp) : Except MetaError RewrapStep := do
  let items ← collectEncrypted s
  let remaining := items.countP (·.entry.kekFingerprint ≠ op.newFP)
  let report := { op.report with remaining }
  if remaining > 0 then .ok (.done report)
  else .ok (.complete { op with report } ⟨atMS, op.newFP⟩)

variable [Stream.Gcm]

/-- Go through the items up to the first one that is rewrapped. -/
def nextItems (atMS : Int64) (s : Store) (op : RewrapOp) :
    List SweepItem → RewrapReport → Except MetaError (List WrapCall × RewrapStep)
  | [], report => do
    let step ← finish atMS s { op with work := [], report }
    .ok ([], step)
  | item :: rest, report =>
    let report := { report with objects := report.objects + 1 }
    let fp := item.entry.kekFingerprint
    if fp = op.newFP then
      nextItems atMS s op rest { report with alreadyNew := report.alreadyNew + 1 }
    else if fp ≠ op.oldFP ∧ fp ≠ 0 then
      -- not part of this rotation
      nextItems atMS s op rest report
    else
      match op.oldKEK.unwrap item.entry.wrappedDEK with
      | none => nextItems atMS s op rest (report.fail (.unwrap item.bucket item.key))
      | some dek =>
        let nonce := wrapNonce item.entry.dataID
        match op.newKEK.wrap dek nonce with
        | none => do
          let (calls, step) ←
            nextItems atMS s op rest (report.fail (.rewrap item.bucket item.key))
          .ok (⟨op.newKEK, dek, nonce⟩ :: calls, step)
        | some wrapped =>
          .ok ([⟨op.newKEK, dek, nonce⟩],
            .rewrap { op with work := rest, report } item
              ⟨atMS, item.bucket, item.key, item.entry.versionID, wrapped, op.newFP⟩)

def next (atMS : Int64) (s : Store) (op : RewrapOp) :
    Except MetaError (List WrapCall × RewrapStep) :=
  nextItems atMS s op op.work op.report

omit [Stream.Gcm] in
/-- The answer to a `RewrapDEK` proposal.  The sweep goes on in the following
turn of the loop. -/
def rewrapped (op : RewrapOp) (item : SweepItem) : Except Bytes Unit → RewrapOp
  | .error text => { op with report := op.report.fail (.commit item.bucket item.key text) }
  | .ok _ => { op with report := { op.report with rewrapped := op.report.rewrapped + 1 } }

omit [Stream.Gcm] in
/-- The answer to the proposal that closes the rotation. -/
def completed (op : RewrapOp) : Except Bytes Unit → RewrapReport
  | .error text => op.report.fail (.complete text)
  | .ok _ => { op.report with completed := true }

end RewrapOp

/-- `RewrapSweep`, up to its first call of `next`.  `keyring` is what `keyFor`
finds. -/
def rewrapSweep (sweeping : Bool) (keyring : UInt64 → Option KEK) (s : Store) :
    Except MetaError (Except RewrapError RewrapOp) :=
  if sweeping then .ok (.error .busy)
  else do
    let post ← encryptionPosture s
    let oldFP := post.currentKEKFingerprint
    let newFP := post.rotatingToKEKFingerprint
    if post.algorithm = encNone ∨ newFP = 0 then .ok (.error .noRotation)
    else
      match (keyring oldFP).filter KEK.loaded, (keyring newFP).filter KEK.loaded with
      | none, _ => .ok (.error (.oldKEK oldFP))
      | some _, none => .ok (.error (.newKEK newFP))
      | some oldKEK, some newKEK => do
        let work ← collectEncrypted s
        .ok (.ok { oldKEK, newKEK, oldFP, newFP, work })

/-! ## What a sweep works on -/

section Work

variable {s : Store}

theorem Typed.collectEncrypted_eq (hs : Typed s) (hn : Named s) :
    collectEncrypted s = .ok
      (((versionRows s).filter (fun r => isEncrypted r.2.2)).map
        (fun r => ⟨r.1, r.2.1, r.2.2⟩)) := by
  rw [collectEncrypted, hs.scanBuckets_eq hn]
  congr 1
  suffices h : ∀ work : List SweepItem,
      (versionRows s).foldl
        (fun work r => if isEncrypted r.2.2 then work ++ [⟨r.1, r.2.1, r.2.2⟩] else work) work =
      work ++ ((versionRows s).filter (fun r => isEncrypted r.2.2)).map
        (fun r => ⟨r.1, r.2.1, r.2.2⟩) by
    simpa using h []
  induction versionRows s with
  | nil => simp
  | cons r rest ih =>
    intro work
    rw [List.foldl_cons, ih]
    cases hr : isEncrypted r.2.2 with
    | true | false => simp [hr]

theorem Base.mem_collectEncrypted (hs : Meta.Base s) (hn : Named s) {items : List SweepItem}
    (h : collectEncrypted s = .ok items) {item : SweepItem} :
    item ∈ items ↔ versionAt s item.bucket item.key item.entry.versionID = some item.entry ∧
      isEncrypted item.entry = true := by
  rw [Typed.collectEncrypted_eq hs.typed hn] at h
  obtain rfl := Except.ok.inj h
  rw [List.mem_map]
  constructor
  · rintro ⟨r, hr, rfl⟩
    obtain ⟨hmem, henc⟩ := List.mem_filter.mp hr
    exact ⟨(hs.mem_versionRows hn).mp hmem, henc⟩
  · rintro ⟨hver, henc⟩
    exact ⟨(item.bucket, item.key, item.entry),
      List.mem_filter.mpr ⟨(hs.mem_versionRows hn).mpr hver, henc⟩, rfl⟩

end Work

/-! ## What a sweep wraps and proposes -/

section Next

variable [Stream.Gcm] {atMS : Int64} {s : Store} {op : RewrapOp}

/-- A call of `Wrap` for an item of the work list. -/
def RewrapOp.Wraps (op : RewrapOp) (work : List SweepItem) (c : WrapCall) : Prop :=
  ∃ item ∈ work, op.oldKEK.unwrap item.entry.wrappedDEK = some c.dek ∧
    c.kek = op.newKEK ∧ c.nonce = wrapNonce item.entry.dataID

/-- A proposal for an item of the work list, with the last call of `Wrap`, and
the sweep that waits for its answer. -/
structure RewrapOp.Proposes (op : RewrapOp) (work : List SweepItem) (calls : List WrapCall)
    (op' : RewrapOp) (item : SweepItem) (p : RewrapDEK) : Prop where
  item_mem : item ∈ work
  work_subset : op'.work ⊆ work
  oldKEK_eq : op'.oldKEK = op.oldKEK
  wrapped : ∃ dek, op.oldKEK.unwrap item.entry.wrappedDEK = some dek ∧
    op.newKEK.wrap dek (wrapNonce item.entry.dataID) = some p.wrappedDEK ∧
    ⟨op.newKEK, dek, wrapNonce item.entry.dataID⟩ ∈ calls
  target : p.bucket = item.bucket ∧ p.key = item.key ∧ p.versionID = item.entry.versionID

theorem RewrapOp.Wraps.cons {work : List SweepItem} {c : WrapCall} (h : op.Wraps work c)
    (item : SweepItem) : op.Wraps (item :: work) c := by
  obtain ⟨i, hi, hc⟩ := h
  exact ⟨i, List.mem_cons_of_mem _ hi, hc⟩

theorem RewrapOp.Proposes.cons {work : List SweepItem} {calls calls' : List WrapCall}
    {op' : RewrapOp} {i : SweepItem} {p : RewrapDEK} (h : op.Proposes work calls op' i p)
    (item : SweepItem) (hcalls : calls ⊆ calls') : op.Proposes (item :: work) calls' op' i p where
  item_mem := List.mem_cons_of_mem _ h.item_mem
  work_subset := fun _ hx => List.mem_cons_of_mem _ (h.work_subset hx)
  oldKEK_eq := h.oldKEK_eq
  wrapped := by
    obtain ⟨dek, hunwrap, hwrap, hcall⟩ := h.wrapped
    exact ⟨dek, hunwrap, hwrap, hcalls hcall⟩
  target := h.target

omit [Stream.Gcm] in
theorem RewrapOp.finish_ne_rewrap {op' : RewrapOp} {item : SweepItem} {p : RewrapDEK} :
    op.finish atMS s ≠ .ok (.rewrap op' item p) := by
  intro h
  obtain ⟨items, -, h⟩ := bind_eq_ok_iff.mp h
  dsimp only at h
  split at h <;> cases h

theorem RewrapOp.nextItems_spec {work : List SweepItem} {report : RewrapReport}
    {calls : List WrapCall} {step : RewrapStep}
    (h : op.nextItems atMS s work report = .ok (calls, step)) :
    (∀ c ∈ calls, op.Wraps work c) ∧
      ∀ op' item p, step = .rewrap op' item p → op.Proposes work calls op' item p := by
  induction work generalizing report calls step with
  | nil =>
    obtain ⟨step', hfinish, hpair⟩ := bind_eq_ok_iff.mp h
    cases hpair
    exact ⟨by simp, fun op' item p hstep => absurd (hstep ▸ hfinish) finish_ne_rewrap⟩
  | cons item rest ih =>
    have hskip : ∀ {report'} {calls' calls'' step'},
        op.nextItems atMS s rest report' = .ok (calls', step') → calls' ⊆ calls'' →
        (∀ c ∈ calls', op.Wraps (item :: rest) c) ∧
          ∀ op' i p, step' = .rewrap op' i p → op.Proposes (item :: rest) calls'' op' i p := by
      intro report' calls' calls'' step' h' hcalls'
      obtain ⟨hcalls, hstep⟩ := ih h'
      exact ⟨fun c hc => (hcalls c hc).cons item,
        fun op' i p hp => (hstep op' i p hp).cons item hcalls'⟩
    rw [nextItems] at h
    dsimp only at h
    split at h
    · exact hskip h (List.Subset.refl _)
    split at h
    · exact hskip h (List.Subset.refl _)
    split at h
    · exact hskip h (List.Subset.refl _)
    rename_i dek hunwrap
    have hwraps : op.Wraps (item :: rest) ⟨op.newKEK, dek, wrapNonce item.entry.dataID⟩ :=
      ⟨item, List.mem_cons_self, hunwrap, rfl, rfl⟩
    split at h
    · -- the wrap failed, and the sweep goes on
      obtain ⟨⟨calls', step'⟩, hrest, hpair⟩ := bind_eq_ok_iff.mp h
      cases hpair
      obtain ⟨hcalls, hstep⟩ := hskip hrest (List.subset_cons_self _ _)
      refine ⟨fun c hc => ?_, hstep⟩
      rcases List.mem_cons.mp hc with rfl | hc
      · exact hwraps
      · exact hcalls c hc
    · rename_i wrapped hwrap
      cases h
      refine ⟨fun c hc => ?_, ?_⟩
      · rw [List.mem_singleton.mp hc]
        exact hwraps
      · rintro op' i p ⟨⟩
        exact ⟨List.mem_cons_self, List.subset_cons_self _ _, rfl,
          ⟨dek, hunwrap, hwrap, List.mem_cons_self⟩, rfl, rfl, rfl⟩

end Next

end Hamster.Coord
