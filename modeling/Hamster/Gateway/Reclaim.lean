import Hamster.Cluster.Forward
import Hamster.CodeLib.Hex
import Hamster.CodeLib.Run
import Hamster.Meta.Ownership

/-!
# Reclaiming shards

The DELETE handlers of `internal/gateway/object.go`, `deleteobjects.go` and
`multipart.go`, with `DeleteShards` of `internal/coord/get.go`.  A handler reads
from the replica of its node what it is about to remove, proposes the removal, and
when that is accepted deletes the shards of what it has read.

`Reclaiming` puts any number of handlers next to the committed log.  A replica has
applied some part of the log, a handler may be at any point, and an entry may commit
at any time, also one that is in the log already: a commit whose answer was lost is
sent again.

The reads may be old, so the data is safe only because one row owns it all along
(`Meta.Sole`).  A commit that is applied twice gives one data ID to two versions;
`FirstCommit` rules that out.
-/

namespace Hamster.Gateway

open CodeLib Meta

/-! ## The handlers -/

/-- A request that removes metadata and reclaims the shards. -/
inductive Deletion where
  /-- `deleteObject` without a version, and each key of `deleteObjects` -/
  | object (bucket key : Bytes)
  /-- `deleteObjectVersion` -/
  | version (bucket key versionID : Bytes) (bypassGovernance : Bool)
  | abort (bucket key : Bytes) (uid : VersionID)
deriving DecidableEq

def nullLabel : Bytes := [110, 117, 108, 108]

def parseVersionID (s : Bytes) : Option VersionID :=
  (hexDecode s).bind (fun raw => if h : raw.length = 16 then some ⟨raw, h⟩ else none)

/-- The version that a `?versionId` selects in a bucket that is there. -/
def resolveVersion (s : Store) (bucket key versionID : Bytes) :
    Except MetaError (Option VersionEntry) :=
  if versionID = nullLabel then do
    let entries ← listVersions s bucket key
    .ok (entries.find? VersionEntry.nullVersion)
  else
    match parseVersionID versionID with
    | none => .ok none
    | some vid => getVersion s bucket key vid

def partRefsOf (parts : List PartRecord) : List PartRef :=
  parts.map (fun p =>
    { dataID := p.dataID, size := 0, partition := p.partition, ecDataShards := p.ecDataShards
      ecParityShards := p.ecParityShards })

inductive Stage where
  | started
  /-- `Current` names a version. -/
  | current (vid : VersionID)
  /-- The bucket is there. -/
  | bucketFound
  /-- What `DeleteShards` will be called with. -/
  | captured (e : VersionEntry)
  /-- The proposal is on its way; the log had `since` entries. -/
  | proposed (p : Proposal) (e : VersionEntry) (since : Nat)
  | finished
deriving DecidableEq

namespace Deletion

def read (s : Store) : Deletion → Stage → Stage
  | .object b k, .started =>
    match current s b k with
    | .ok (some cur) => .current cur.versionID
    | _ => .captured default
  | .object b k, .current vid =>
    match getVersion s b k vid with
    | .ok (some e) => .captured e
    | _ => .captured default
  | .version b _ _ _, .started =>
    match getBucket s b with
    | .ok (some _) => .bucketFound
    | _ => .finished
  | .version b k versionID _, .bucketFound =>
    match resolveVersion s b k versionID with
    | .ok (some e) => .captured e
    | _ => .finished
  | .abort b k uid, .started =>
    match listUploadParts s b k uid 0 (maxPartNumber.toNat + 1) with
    | .ok (parts, _) => .captured { (default : VersionEntry) with parts := partRefsOf parts }
    | .error _ => .finished
  | _, stage => stage

/-- What a handler proposes; `vid` and `now` are of `MintVersionID` or the clock. -/
def proposal (e : VersionEntry) (vid : VersionID) (now : Int64) : Deletion → Proposal
  | .object b k => .deleteObject { proposedAtUnixMS := now, bucket := b, key := k
                                   versionID := vid }
  | .version b k _ bypass =>
    .deleteVersion { proposedAtUnixMS := now, bucket := b, key := k, versionID := e.versionID
                     bypassGovernance := bypass }
  | .abort b k uid =>
    .abortMultipartUpload { proposedAtUnixMS := now, bucket := b, key := k, uploadID := uid }

end Deletion

/-- `reclaim`: whether `DeleteShards` is called for the displaced version. -/
def reclaim (freed : List VersionID) (displaced : VersionEntry) : Option VersionEntry :=
  match freed with
  | [] => none
  | d :: _ => if displaced.dataID = d then some displaced else none

/-- The entry that a handler calls `DeleteShards` with after its proposal was
accepted. -/
def Deletion.reclaims (e : VersionEntry) : Deletion → ApplyResult → Option VersionEntry
  | .object _ _, .deleteObject r => reclaim r.removedDataIDs e
  | .version _ _ _ _, .deleteVersion r => if r.removed ∧ e.kind = kindObject then some e else none
  | .abort _ _ _, .abort _ => if e.parts.length > 0 then some e else none
  | _, _ => none

/-- The data IDs that `DeleteShards` deletes the shards of: those of the parts, or the
entry's own.  A whole-blob entry has no width. -/
def deleteShards (e : VersionEntry) : List VersionID :=
  (e.addresses.filter (fun a => a.ecDataShards + a.ecParityShards ≠ 0)).map DataAddress.dataID

/-- The result of an accepted entry as the handler gets it, from its own node or over
the hop. -/
def told (forwarded : Bool) (p : Proposal) (r : ApplyResult) : ApplyResult :=
  if forwarded then Cluster.forwardResultFor p (Cluster.forwardResultOf r) else r

/-! ## Handlers and the log -/

structure Task where
  node : Nat
  request : Deletion
  stage : Stage := .started

structure Reclaiming where
  /-- The committed proposals. -/
  log : List Proposal := []
  /-- How much of the log a node has applied. -/
  applied : Nat → Nat := fun _ => 0
  tasks : List Task := []
  /-- The data IDs that `DeleteShards` was called for. -/
  deleted : List VersionID := []

inductive ReclaimEvent where
  | commit (p : Proposal)
  | catchUp (node upTo : Nat)
  | begin (node : Nat) (request : Deletion)
  | read (task : Nat)
  | propose (task : Nat) (vid : VersionID) (now : Int64)
  /-- The handler learns what became of its proposal as an entry of the log. -/
  | answer (task position : Nat) (forwarded : Bool)

namespace Reclaiming

def stateAt (log : List Proposal) (n : Nat) : Store := runMem newStore (log.take n)

/-- The data IDs that a handler deletes when its proposal `p` was applied at a
position of the log. -/
def reclaimedAt (log : List Proposal) (request : Deletion) (p : Proposal) (e : VersionEntry)
    (position : Nat) (forwarded : Bool) : List VersionID :=
  match (applyMem (stateAt log position) p).1 with
  | .error _ => []
  | .ok r => (request.reclaims e (told forwarded p r)).toList.flatMap deleteShards

def advance (w : Reclaiming) (i : Nat) (f : Task → Stage) : Reclaiming :=
  match w.tasks[i]? with
  | none => w
  | some t => { w with tasks := w.tasks.set i { t with stage := f t } }

theorem log_advance (w : Reclaiming) (i : Nat) (f : Task → Stage) :
    (w.advance i f).log = w.log := by
  unfold advance
  split <;> rfl

theorem deleted_advance (w : Reclaiming) (i : Nat) (f : Task → Stage) :
    (w.advance i f).deleted = w.deleted := by
  unfold advance
  split <;> rfl

/-- What the handler deletes when it learns the result at `position`. -/
def answered (w : Reclaiming) (i position : Nat) (forwarded : Bool) : List VersionID :=
  match w.tasks[i]? with
  | none => []
  | some t =>
    match t.stage with
    | .proposed p e since =>
      if since ≤ position ∧ w.log[position]? = some p then
        reclaimedAt w.log t.request p e position forwarded
      else []
    | _ => []

def step (w : Reclaiming) : ReclaimEvent → Reclaiming
  | .commit p => { w with log := w.log ++ [p] }
  | .catchUp node upTo =>
    { w with applied := fun n => if n = node then min upTo w.log.length else w.applied n }
  | .begin node request => { w with tasks := w.tasks ++ [{ node, request }] }
  | .read i => w.advance i (fun t => t.request.read (stateAt w.log (w.applied t.node)) t.stage)
  | .propose i vid now =>
    w.advance i (fun t =>
      match t.stage with
      | .captured e => .proposed (t.request.proposal e vid now) e w.log.length
      | stage => stage)
  | .answer i position forwarded =>
    { w.advance i (fun t =>
        match t.stage with
        | .proposed p _ since =>
          if since ≤ position ∧ w.log[position]? = some p then .finished else t.stage
        | stage => stage) with
      deleted := w.deleted ++ w.answered i position forwarded }

end Reclaiming

/-- The proposal brings no data ID and no upload that the log has already, and no
zero ID. -/
def FirstCommit (w : Reclaiming) : ReclaimEvent → Prop
  | .commit p =>
    (∀ d ∈ p.introduced, d ≠ VersionID.zero ∧ d ∉ w.log.filterMap Proposal.introduced) ∧
      ∀ u ∈ p.createdUpload, u ∉ w.log.filterMap Proposal.createdUpload
  | _ => True

instance (w : Reclaiming) (e : ReclaimEvent) : Decidable (FirstCommit w e) := by
  unfold FirstCommit
  split <;> infer_instance

/-! ## What a handler has read -/

/-- What the captured entry says about a state of the log at or before `bound`. -/
def Captured (log : List Proposal) (bound : Nat) (e : VersionEntry) (request : Deletion) : Prop :=
  ∃ n ≤ bound,
    match request with
    | .object b k =>
      e = default ∨ ∃ vid, versionAt (Reclaiming.stateAt log n) b k vid = some e
    | .version b k _ _ =>
      0 ∉ b → 0 ∉ k → versionAt (Reclaiming.stateAt log n) b k e.versionID = some e
    | .abort b k uid =>
      0 ∉ b → 0 ∉ k → ∀ part ∈ e.parts,
        look (Reclaiming.stateAt log n) (.upload b k uid) ≠ none ∧
          ∃ m pr, partAt (Reclaiming.stateAt log n) b k uid m = some pr ∧ pr.dataID = part.dataID

variable {since : Nat}

section Reads

variable {log log' : List Proposal} {n bound bound' : Nat} {e : VersionEntry} {request : Deletion}

theorem stateAt_append (h : n ≤ log.length) :
    Reclaiming.stateAt (log ++ log') n = Reclaiming.stateAt log n := by
  rw [Reclaiming.stateAt, Reclaiming.stateAt, List.take_append_of_le_length h]

theorem typed_stateAt (log : List Proposal) (n : Nat) : Typed (Reclaiming.stateAt log n) :=
  typed_runMem _

theorem Captured.mono (h : Captured log bound e request) (hbound : bound ≤ bound')
    (hlog : bound ≤ log.length) : Captured (log ++ log') bound' e request := by
  obtain ⟨n, hn, hcap⟩ := h
  refine ⟨n, hn.trans hbound, ?_⟩
  rw [stateAt_append (hn.trans hlog)]
  exact hcap

theorem captured_of_read {t : Stage}
    (hread : request.read (Reclaiming.stateAt log n) t = .captured e)
    (hn : n ≤ bound) (ht : t = .captured e → Captured log bound e request) :
    Captured log bound e request := by
  have hs := typed_stateAt log n
  unfold Deletion.read at hread
  split at hread
  · split at hread
    · cases hread
    · cases hread
      exact ⟨n, hn, Or.inl rfl⟩
  next b k vid =>
    rw [hs.getVersion_eq] at hread
    split at hread
    next e' hget =>
      cases hread
      exact ⟨n, hn, Or.inr ⟨vid, Except.ok.inj hget⟩⟩
    next =>
      cases hread
      exact ⟨n, hn, Or.inl rfl⟩
  · split at hread <;> cases hread
  next b k versionID bypass =>
    split at hread
    next e' hresolve =>
      cases hread
      refine ⟨n, hn, fun hb hk => ?_⟩
      unfold resolveVersion at hresolve
      split at hresolve
      · rw [hs.listVersions_eq hb hk] at hresolve
        have hfind : (versionList (Reclaiming.stateAt log n) b k).find? VersionEntry.nullVersion =
          some e := Except.ok.inj hresolve
        exact (hs.mem_versionList hb hk).mp (List.mem_of_find?_eq_some hfind)
      · split at hresolve
        · cases hresolve
        next vid _ =>
          rw [hs.getVersion_eq] at hresolve
          have hold := Except.ok.inj hresolve
          obtain ⟨-, -, rfl⟩ := hs.of_versionAt hold
          exact hold
    next => cases hread
  next b k uid =>
    split at hread
    next parts found hlist =>
      cases hread
      refine ⟨n, hn, fun hb hk part hpart => ?_⟩
      obtain ⟨pr, hpr, rfl⟩ := List.mem_map.mp hpart
      obtain ⟨hupload, hstored⟩ := hs.of_mem_listUploadParts hb hk hlist hpr
      exact ⟨hupload, pr.partNumber, pr, hstored, rfl⟩
    next => cases hread
  next => exact ht hread

theorem proposed_of_read {s : Store} {t : Stage} {p : Proposal}
    (hread : request.read s t = .proposed p e since) : t = .proposed p e since := by
  unfold Deletion.read at hread
  split at hread
  all_goals first
    | exact hread
    | (split at hread <;> cases hread)

end Reads

/-! ## What a handler deletes -/

variable {position : Nat} {vid : VersionID}

section Deleted

variable {l₁ l₂ l₃ : List Proposal} {p : Proposal} {d : VersionID} {e : VersionEntry}

theorem mem_addresses_of_mem_deleteShards (h : d ∈ deleteShards e) :
    d ∈ e.addresses.map DataAddress.dataID := by
  obtain ⟨a, ha, hd⟩ := List.mem_map.mp h
  exact List.mem_map.mpr ⟨a, (List.mem_filter.mp ha).1, hd⟩

theorem mem_dataIDs_of_mem_deleteShards (hd : d ∈ deleteShards e) :
    d ∈ e.dataIDs ∨ d = VersionID.zero := by
  have h := mem_addresses_of_mem_deleteShards hd
  unfold VersionEntry.addresses at h
  unfold VersionEntry.dataIDs
  split at h
  next hparts =>
    rw [if_pos hparts]
    rw [List.map_map] at h
    exact Or.inl h
  next hparts =>
    rw [if_neg hparts]
    obtain rfl : d = e.dataID := by simpa using h
    by_cases hzero : e.dataID.isZero
    · exact Or.inr (by simpa [VersionID.isZero] using hzero)
    · rw [if_neg hzero]
      exact Or.inl (List.mem_singleton_self _)

theorem mem_brought {α β : Type} {f : α → Option β} {l l' : List α} {x : β}
    (h : x ∈ l.filterMap f) : x ∈ (l ++ l').filterMap f := by
  rw [List.filterMap_append]
  exact List.mem_append_left _ h

theorem not_referenced_after (hlog : Unrepeated (l₁ ++ p :: l₃))
    (hd : d ∈ l₁.filterMap Proposal.introduced ∨ d = VersionID.zero)
    (hafter : ¬Referenced (applyMem (runMem newStore l₁) p).2 d) :
    ¬Referenced (runMem newStore (l₁ ++ p :: l₃)) d := by
  have hlog' : Unrepeated ((l₁ ++ [p]) ++ l₃) := by rwa [List.append_assoc]
  rw [List.append_cons]
  refine not_referenced_run (hlog'.not_introduced (hd.imp mem_brought id)) ?_
  rw [runMem_concat]
  exact hafter

variable {b k : Bytes}

theorem not_referenced_of_removed (hlog : Unrepeated (l₁ ++ p :: l₃)) (hp : p.introduced = none)
    (hsole : Sole (runMem newStore l₁) d (.version b k vid))
    (hgone : ¬(DataRow.version b k vid).Refers (applyMem (runMem newStore l₁) p).2 d)
    (hd : d ∈ l₁.filterMap Proposal.introduced) :
    ¬Referenced (runMem newStore (l₁ ++ p :: l₃)) d := by
  have hs := typed_runMem l₁
  refine not_referenced_after hlog (Or.inl hd) ?_
  exact (sole_version_applyMem hs (by rw [hp]; rintro ⟨⟩) hsole).not_referenced
    (typed_applyMem hs p) hgone

theorem deleteVersion_safe {q : DeleteVersion}
    (hlog : Unrepeated (l₁ ++ l₂ ++ .deleteVersion q :: l₃))
    (hread : 0 ∉ q.bucket → 0 ∉ q.key →
      versionAt (runMem newStore l₁) q.bucket q.key q.versionID = some e)
    {r : DeleteVersionResult}
    (hres : (applyMem (runMem newStore (l₁ ++ l₂)) (.deleteVersion q)).1 = .ok (.deleteVersion r))
    (hremoved : r.removed = true) (hd : d ∈ e.dataIDs) :
    d ∈ l₁.filterMap Proposal.introduced ∧
      ¬Referenced (runMem newStore (l₁ ++ l₂ ++ .deleteVersion q :: l₃)) d := by
  have hs := typed_runMem (l₁ ++ l₂)
  obtain ⟨hgone, hb, hk⟩ := deleteVersion_removed hs (applied_of_applyMem rfl hres) hremoved
  have hrefers : (DataRow.version q.bucket q.key q.versionID).Refers (runMem newStore l₁) d :=
    ⟨e, hread hb hk, hd⟩
  have hmem := mem_introduced_of_referenced ((typed_runMem l₁).referenced_iff.mpr ⟨_, hrefers⟩)
  have hfront : Unrepeated (l₁ ++ (l₂ ++ .deleteVersion q :: l₃)) := by
    rwa [← List.append_assoc]
  have hsole := sole_version_run (fun p hp => hfront.not_introduced (Or.inl hmem) p
    (List.mem_append_left _ hp)) (sole_of_refers hfront.of_append.ids hrefers)
  refine ⟨hmem, not_referenced_of_removed hlog rfl hsole ?_ (mem_brought hmem)⟩
  rintro ⟨e', hver, -⟩
  rw [hgone] at hver
  cases hver

theorem deleteObject_safe {q : DeleteObject} (hlog : Unrepeated (l₁ ++ .deleteObject q :: l₃))
    {r : DeleteObjectResult}
    (hres : (applyMem (runMem newStore l₁) (.deleteObject q)).1 = .ok (.deleteObject r))
    (hd : d ∈ r.removedDataIDs) :
    d ∈ l₁.filterMap Proposal.introduced ∧
      ¬Referenced (runMem newStore (l₁ ++ .deleteObject q :: l₃)) d := by
  have hs := typed_runMem l₁
  obtain ⟨vid, hrefers, hgone⟩ := deleteObject_freed hs (applied_of_applyMem rfl hres) hd
  have hmem := mem_introduced_of_referenced (hs.referenced_iff.mpr ⟨_, hrefers⟩)
  exact ⟨hmem, not_referenced_of_removed hlog rfl
    (sole_of_refers hlog.of_append.ids hrefers) hgone hmem⟩

theorem sole_part_run (hlog : Unrepeated (l₁ ++ l₂)) (hb : 0 ∉ b) (hk : 0 ∉ k) {uid : VersionID}
    {m : UInt32} (hcreated : (b, k, uid) ∈ l₁.filterMap Proposal.createdUpload)
    (hmem : d ∈ l₁.filterMap Proposal.introduced)
    (hsole : Sole (runMem newStore l₁) d (.part b k uid m)) :
    Sole (runMem newStore (l₁ ++ l₂)) d (.part b k uid m) ∨
      look (runMem newStore (l₁ ++ l₂)) (.upload b k uid) = none := by
  induction l₂ using List.reverseRecOn with
  | nil =>
    rw [List.append_nil]
    exact Or.inl hsole
  | append_singleton l₂ p ih =>
    rw [← List.append_assoc] at hlog ⊢
    have hp : p.introduced ≠ some d :=
      hlog.not_introduced (Or.inl (mem_brought hmem)) p (List.mem_singleton_self p)
    rcases ih hlog.of_append with hsole | hgone
    · rw [runMem_concat]
      rcases hsole.step (typed_runMem _) hp with hkept | ⟨q, n, row', -, hrow, hgone, -⟩
      · exact Or.inl hkept
      · cases hrow
        exact Or.inr hgone
    · exact Or.inr (hlog.upload_gone hb hk (mem_brought hcreated) hgone)

theorem abort_safe {q : AbortMultipartUpload}
    (hlog : Unrepeated (l₁ ++ l₂ ++ .abortMultipartUpload q :: l₃))
    (hread : 0 ∉ q.bucket → 0 ∉ q.key →
      look (runMem newStore l₁) (.upload q.bucket q.key q.uploadID) ≠ none ∧
        ∃ m pr, partAt (runMem newStore l₁) q.bucket q.key q.uploadID m = some pr ∧ pr.dataID = d)
    {r : ApplyResult}
    (hres : (applyMem (runMem newStore (l₁ ++ l₂)) (.abortMultipartUpload q)).1 = .ok r) :
    d ∈ l₁.filterMap Proposal.introduced ∧
      ¬Referenced (runMem newStore (l₁ ++ l₂ ++ .abortMultipartUpload q :: l₃)) d := by
  have hs := typed_runMem (l₁ ++ l₂)
  obtain ⟨hb, hk, hupload, hparts⟩ := abortMultipartUpload_gone hs (applied_of_applyMem rfl hres)
  obtain ⟨hthere, m, pr, hpart, hpr⟩ := hread hb hk
  have hrefers : (DataRow.part q.bucket q.key q.uploadID m).Refers (runMem newStore l₁) d :=
    ⟨hb, hk, pr, hpart, hpr⟩
  have hmem := mem_introduced_of_referenced ((typed_runMem l₁).referenced_iff.mpr ⟨_, hrefers⟩)
  rcases sole_part_run hlog.of_append hb hk (mem_created_of_upload hb hk hthere) hmem
    (sole_of_refers hlog.of_append.of_append.ids hrefers) with hsole | hgone
  · refine ⟨hmem, not_referenced_after hlog (Or.inl (mem_brought hmem)) ?_⟩
    rcases hsole.step hs (p := .abortMultipartUpload q) (by rintro ⟨⟩) with hkept | ⟨_, _, _, hp, _⟩
    · refine hkept.not_referenced (typed_applyMem hs _) ?_
      rintro ⟨-, -, pr', hpart', -⟩
      rw [hparts m] at hpart'
      cases hpart'
    · cases hp
  · exact absurd hgone hupload

theorem split_log {log : List Proposal} {n : Nat} (hn : n ≤ position)
    (hpos : log[position]? = some p) :
    ∃ l₁ l₂ l₃, log = l₁ ++ l₂ ++ p :: l₃ ∧ log.take n = l₁ ∧ log.take position = l₁ ++ l₂ := by
  obtain ⟨hlt, hget⟩ := List.getElem?_eq_some_iff.mp hpos
  have hpre : log.take n ++ (log.take position).drop n = log.take position := by
    have htake : (log.take position).take n = log.take n := by
      rw [List.take_take, Nat.min_eq_left hn]
    rw [← htake, List.take_append_drop]
  refine ⟨log.take n, (log.take position).drop n, log.drop (position + 1), ?_, rfl, hpre.symm⟩
  rw [hpre, ← hget, ← List.drop_eq_getElem_cons hlt, List.take_append_drop]

end Deleted

variable {forwarded : Bool}

section Answers

variable {log : List Proposal} {request : Deletion} {e : VersionEntry} {d : VersionID}

theorem told_eq {p : Proposal} {r : ApplyResult}
    (h : Cluster.forwardResultFor p (Cluster.forwardResultOf r) = r) (forwarded : Bool) :
    told forwarded p r = r := by
  cases forwarded
  · rfl
  · exact h

theorem of_mem_reclaim {freed : List VersionID} {displaced : VersionEntry}
    (hd : d ∈ (reclaim freed displaced).toList.flatMap deleteShards) :
    d ∈ deleteShards displaced ∧ displaced.dataID ∈ freed := by
  unfold reclaim at hd
  split at hd
  · cases hd
  next x rest =>
    split at hd
    next heq =>
      refine ⟨by simpa using hd, ?_⟩
      rw [heq]
      exact List.mem_cons_self
    next => cases hd

theorem reclaimedAt_safe (hlog : Unrepeated log) (hcap : Captured log since e request)
    (hsince : since ≤ position) {now : Int64}
    (hpos : log[position]? = some (request.proposal e vid now))
    (hd : d ∈ Reclaiming.reclaimedAt log request (request.proposal e vid now) e position forwarded)
    : (d ∈ log.filterMap Proposal.introduced ∨ d = VersionID.zero) ∧
      ¬Referenced (runMem newStore log) d := by
  -- the zero ID is never introduced
  by_cases hzero : d = VersionID.zero
  · subst hzero
    exact ⟨Or.inr rfl, fun href => hlog.nonzero (mem_introduced_of_referenced href)⟩
  obtain ⟨n, hn, hread⟩ := hcap
  obtain ⟨l₁, l₂, l₃, rfl, hfirst, hbefore⟩ := split_log (hn.trans hsince) hpos
  unfold Reclaiming.reclaimedAt Reclaiming.stateAt at hd
  unfold Reclaiming.stateAt at hread
  rw [hbefore] at hd
  rw [hfirst] at hread
  cases hres : (applyMem (runMem newStore (l₁ ++ l₂)) (request.proposal e vid now)).1 with
  | error err =>
    rw [hres] at hd
    cases hd
  | ok r =>
    rw [hres] at hd
    dsimp only at hd
    cases request with
    | object b k =>
      obtain ⟨res, rfl, -⟩ := eval_of_applyMem .deleteObject rfl hres
      rw [Deletion.proposal, told_eq rfl] at hd
      obtain ⟨hshards, hfreed⟩ := of_mem_reclaim hd
      have hids := (mem_dataIDs_of_mem_deleteShards hshards).resolve_right hzero
      -- the displaced version has no parts, so its data is the freed one
      have hdata : d = e.dataID := by
        rcases hread with rfl | ⟨vid, hver⟩
        · cases hids
        · refine mem_dataIDs_whole (by_contra fun hparts => ?_) hids
          rw [wholeOrParts_run l₁ b k vid e hver hparts] at hfreed
          exact hlog.nonzero (mem_brought (deleteObject_safe hlog hres hfreed).1)
      subst hdata
      obtain ⟨hmem, hnot⟩ := deleteObject_safe hlog hres hfreed
      exact ⟨Or.inl (mem_brought hmem), hnot⟩
    | version b k versionID bypass =>
      obtain ⟨res, rfl, -⟩ := eval_of_applyMem .deleteVersion rfl hres
      rw [Deletion.proposal, told_eq rfl, Deletion.reclaims] at hd
      split at hd
      next hremoved =>
        have hshards : d ∈ deleteShards e := by simpa using hd
        have hids := (mem_dataIDs_of_mem_deleteShards hshards).resolve_right hzero
        obtain ⟨hmem, hnot⟩ := deleteVersion_safe hlog hread hres hremoved.1 hids
        exact ⟨Or.inl (mem_brought (mem_brought hmem)), hnot⟩
      next => cases hd
    | abort b k uid =>
      obtain ⟨res, rfl, -⟩ := eval_of_applyMem .abort rfl hres
      rw [Deletion.proposal, told_eq rfl, Deletion.reclaims] at hd
      split at hd
      next hparts =>
        have hshards : d ∈ deleteShards e := by simpa using hd
        have haddress := mem_addresses_of_mem_deleteShards hshards
        rw [VersionEntry.addresses, if_pos hparts, List.map_map] at haddress
        obtain ⟨part, hpart, rfl⟩ := List.mem_map.mp haddress
        obtain ⟨hmem, hnot⟩ := abort_safe hlog (fun hb hk => hread hb hk part hpart) hres
        exact ⟨Or.inl (mem_brought (mem_brought hmem)), hnot⟩
      next => cases hd

end Answers

/-! ## Runs -/

/-- What a handler holds was read from the log. -/
def Task.Sound (log : List Proposal) (t : Task) : Prop :=
  match t.stage with
  | .captured e => Captured log log.length e t.request
  | .proposed p e since =>
    since ≤ log.length ∧ Captured log since e t.request ∧
      ∃ vid now, p = t.request.proposal e vid now
  | _ => True

theorem Task.Sound.append {log : List Proposal} {t : Task} (h : t.Sound log)
    (log' : List Proposal) :
    t.Sound (log ++ log') := by
  unfold Task.Sound at h ⊢
  cases hstage : t.stage with
  | captured e =>
    rw [hstage] at h
    exact h.mono (by simp) (Nat.le_refl _)
  | proposed p e since =>
    rw [hstage] at h
    obtain ⟨hsince, hcap, hp⟩ := h
    exact ⟨by simp; omega, hcap.mono (Nat.le_refl _) hsince, hp⟩
  | _ => trivial

structure Reclaiming.Sound (w : Reclaiming) : Prop where
  log : Unrepeated w.log
  applied : ∀ node, w.applied node ≤ w.log.length
  tasks : ∀ t ∈ w.tasks, t.Sound w.log
  deleted : ∀ d ∈ w.deleted,
    (d ∈ w.log.filterMap Proposal.introduced ∨ d = VersionID.zero) ∧
      ¬Referenced (runMem newStore w.log) d

namespace Reclaiming.Sound

variable {w : Reclaiming}

theorem commit (h : w.Sound) {p : Proposal} (hp : FirstCommit w (.commit p)) :
    (w.step (.commit p)).Sound where
  log := h.log.concat hp.1 hp.2
  applied node := (h.applied node).trans (by simp [Reclaiming.step])
  tasks t ht := (h.tasks t ht).append [p]
  deleted d hd := by
    obtain ⟨hmem, hnot⟩ := h.deleted d hd
    refine ⟨hmem.imp mem_brought id, not_referenced_run (fun p' hp' => ?_) hnot⟩
    obtain rfl := List.mem_singleton.mp hp'
    intro hintroduced
    obtain ⟨hnonzero, hfresh⟩ := hp.1 d hintroduced
    exact hmem.elim hfresh hnonzero

theorem advance (h : w.Sound) {f : Task → Stage} (i : Nat)
    (hf : ∀ t ∈ w.tasks, t.Sound w.log → Task.Sound w.log { t with stage := f t }) :
    (w.advance i f).Sound := by
  unfold Reclaiming.advance
  split
  · exact h
  next t ht =>
    refine ⟨h.log, h.applied, fun t' ht' => ?_, h.deleted⟩
    rcases List.mem_or_eq_of_mem_set ht' with hold | rfl
    · exact h.tasks t' hold
    · exact hf t (List.mem_of_getElem? ht) (h.tasks t (List.mem_of_getElem? ht))

theorem read (h : w.Sound) (i : Nat) : (w.step (.read i)).Sound := by
  refine h.advance i (fun t ht hsound => ?_)
  unfold Task.Sound
  dsimp only
  split
  next e hread =>
    refine captured_of_read hread (h.applied t.node) (fun hstage => ?_)
    rw [Task.Sound, hstage] at hsound
    exact hsound
  next p e since hread =>
    have hstage := proposed_of_read hread
    rw [Task.Sound, hstage] at hsound
    exact hsound
  next => trivial

theorem propose (h : w.Sound) (i : Nat) (vid : VersionID) (now : Int64) :
    (w.step (.propose i vid now)).Sound := by
  refine h.advance i (fun t ht hsound => ?_)
  cases hstage : t.stage with
  | captured e =>
    rw [Task.Sound, hstage] at hsound
    exact ⟨Nat.le_refl _, hsound, vid, now, rfl⟩
  | proposed p e since =>
    rw [Task.Sound, hstage] at hsound
    exact hsound
  | _ => trivial

theorem answered (h : w.Sound) {i : Nat} {d : VersionID} (hd : d ∈ w.answered i position forwarded)
    : (d ∈ w.log.filterMap Proposal.introduced ∨ d = VersionID.zero) ∧
      ¬Referenced (runMem newStore w.log) d := by
  unfold Reclaiming.answered at hd
  split at hd
  · cases hd
  next t ht =>
    have hsound := h.tasks t (List.mem_of_getElem? ht)
    split at hd
    next p e since hstage =>
      rw [Task.Sound, hstage] at hsound
      obtain ⟨-, hcap, vid, now, rfl⟩ := hsound
      split at hd
      next hpos => exact reclaimedAt_safe h.log hcap hpos.1 hpos.2 hd
      next => cases hd
    next => cases hd

theorem answer (h : w.Sound) (i position : Nat) (forwarded : Bool) :
    (w.step (.answer i position forwarded)).Sound := by
  have hmoved := h.advance (f := fun t =>
      match t.stage with
      | .proposed p _ since =>
        if since ≤ position ∧ w.log[position]? = some p then .finished else t.stage
      | stage => stage) i (fun t ht hsound => by
    cases hstage : t.stage with
    | proposed p e since =>
      dsimp only
      split
      · trivial
      · rw [Task.Sound, hstage] at hsound
        exact hsound
    | captured e =>
      rw [Task.Sound, hstage] at hsound
      exact hsound
    | _ => trivial)
  have hlog : (w.step (.answer i position forwarded)).log = w.log := w.log_advance i _
  refine ⟨hmoved.log, hmoved.applied, hmoved.tasks, fun d hd => ?_⟩
  rw [hlog]
  rcases List.mem_append.mp hd with hold | hnew
  · exact h.deleted d hold
  · exact h.answered hnew

theorem step (h : w.Sound) (e : ReclaimEvent) (he : FirstCommit w e) : (w.step e).Sound := by
  cases e with
  | commit p => exact h.commit he
  | catchUp node upTo =>
    refine ⟨h.log, fun n => ?_, h.tasks, h.deleted⟩
    show (if n = node then min upTo w.log.length else w.applied n) ≤ w.log.length
    split
    · exact Nat.min_le_right _ _
    · exact h.applied n
  | begin node request =>
    exact { h with
      tasks := List.forall_mem_append.mpr ⟨h.tasks, List.forall_mem_singleton.mpr trivial⟩ }
  | read i => exact h.read i
  | propose i vid now => exact h.propose i vid now
  | answer i position forwarded => exact h.answer i position forwarded

theorem start : Reclaiming.Sound {} where
  log := ⟨List.nodup_nil, List.not_mem_nil, List.nodup_nil⟩
  applied _ := Nat.le_refl _
  tasks _ ht := absurd ht List.not_mem_nil
  deleted _ hd := absurd hd List.not_mem_nil

end Reclaiming.Sound

theorem Reclaiming.deleted_step (w : Reclaiming) (e : ReclaimEvent) :
    w.deleted ⊆ (w.step e).deleted := by
  cases e with
  | read i | propose i vid now => rw [Reclaiming.step, w.deleted_advance]; exact List.Subset.refl _
  | answer i position forwarded => exact List.subset_append_left _ _
  | _ => exact List.Subset.refl _

/-- In a run in which no data ID and no upload enters the log twice, no row refers
to a data ID that `DeleteShards` was called for, then or later. -/
theorem reclaimed_not_referenced {es : List ReclaimEvent}
    (hes : EachStep Reclaiming.step FirstCommit {} es) {before after : List ReclaimEvent}
    (hbefore : before <+: after) (hafter : after <+: es) {d : VersionID}
    (hd : d ∈ (before.foldl Reclaiming.step {}).deleted) :
    ¬Referenced (runMem newStore (after.foldl Reclaiming.step {}).log) d := by
  have hsound := hes.invariant (I := Reclaiming.Sound) (fun w e he h => h.step e he)
    Reclaiming.Sound.start hafter
  obtain ⟨rest, rfl⟩ := hbefore
  refine (hsound.deleted d ?_).2
  rw [List.foldl_append]
  exact foldl_preserves (I := fun w : Reclaiming => d ∈ w.deleted)
    (fun w e h => w.deleted_step e h) rest hd

/-- The handler of `DELETE aaa/k?versionId=` for the version with the minted ID of a
PUT, on a node that has applied the whole log of `n` entries. -/
def deletePut (n : Nat) : List ReclaimEvent :=
  [ .catchUp 0 n
  , .begin 0 (.version [97, 97, 97] [107] (hexEncode (VersionID.newVersionID 9 0 0).bytes) false)
  , .read 0, .read 0
  , .propose 0 VersionID.zero 20
  , .commit (.deleteVersion { proposedAtUnixMS := 20, bucket := [97, 97, 97], key := [107]
                              versionID := VersionID.newVersionID 9 0 0,
                              bypassGovernance := false })
  , .answer 0 n true ]

def bytePut : PutObject where
  proposedAtUnixMS := 9
  bucket := [97, 97, 97]
  key := [107]
  size := 1
  versionID := VersionID.newVersionID 9 0 0
  ecDataShards := 1
  ecParityShards := 1

/-- The PUT goes to a bucket with versioning and is committed once. -/
def onePut : List ReclaimEvent :=
  [ .commit (.createBucket ⟨1, [97, 97, 97], false⟩)
  , .commit (.setBucketVersioning ⟨2, [97, 97, 97], versioningEnabled⟩)
  , .commit (.putObject bytePut) ]

theorem reclaimed_not_referenced_onePut :
    VersionID.newVersionID 9 0 0 ∈ ((onePut ++ deletePut 3).foldl Reclaiming.step {}).deleted ∧
      ¬Referenced (runMem newStore ((onePut ++ deletePut 3).foldl Reclaiming.step {}).log)
        (VersionID.newVersionID 9 0 0) := by
  have hdeleted :
      VersionID.newVersionID 9 0 0 ∈
        ((onePut ++ deletePut 3).foldl Reclaiming.step {}).deleted := by
    decide +kernel
  have hes : EachStep Reclaiming.step FirstCommit {} (onePut ++ deletePut 3) := by decide +kernel
  exact ⟨hdeleted, reclaimed_not_referenced hes (List.prefix_refl _) (List.prefix_refl _) hdeleted⟩

def committed (w : Cluster.World) : List Proposal :=
  w.log.filterMap (fun entry =>
    match entry with
    | .own _ => w.call.map Cluster.Call.proposal
    | .other p => some p)

/-- A follower forwards the PUT, the leader commits it, and the connection breaks
before the response.  It is sent again and committed a second time. -/
def resentPut : List Cluster.Event :=
  [ .commitOther (.createBucket ⟨1, [97, 97, 97], false⟩)
  , .commitOther (.setBucketVersioning ⟨2, [97, 97, 97], versioningEnabled⟩)
  , .begin (.putObject bytePut) false (.refused .notLeader)
  , .resolve true, .deliver 0 .accepted, .commit 0, .fail, .deliver 1 .accepted, .commit 1
  , .receive ]

/-- The two versions have one data ID, and deleting the first one deletes the data of
the second. -/
theorem reclaimed_referenced_resentPut :
    let log := committed (resentPut.foldl Cluster.World.step (.start newStore))
    let w := (log.map ReclaimEvent.commit ++ deletePut 4).foldl Reclaiming.step {}
    log.length = 4 ∧ VersionID.newVersionID 9 0 0 ∈ w.deleted ∧
      Referenced (runMem newStore w.log) (VersionID.newVersionID 9 0 0) := by
  decide +kernel

end Hamster.Gateway
