import Hamster.Meta.Dispatch

/-!
# Rollback

A transaction that ends in an error leaves the store as it was.  `Regular`
says it of a body: rolling back after the body gives the same keyspace as
rolling back before it.  It says too that the body looks at the keyspace
only, not at the undo log, and that its list of touched keys is right
(`Tracks`).  All three hold of the primitive steps and are closed under
sequencing, so they hold of every apply function.  `txn_error_store` is
the consequence for the store.
-/

namespace Hamster.Meta

open CodeLib

namespace TxKV

theorem rollback_set (t : TxKV) (k : Bytes) (v : Record) :
    (t.set k v).rollback.memKV = t.rollback.memKV := by
  have hback : undoOne (t.memKV.set k v) ⟨k, t.memKV.get k⟩ = t.memKV := by
    apply SortedKV.ext_get
    intro k'
    cases hk : t.memKV.get k with
    | none =>
      simp only [undoOne, SortedKV.get_delete, SortedKV.get_set]
      split
      · rename_i heq
        rw [heq, hk]
      · rfl
    | some w =>
      simp only [undoOne, SortedKV.get_set]
      split
      · rename_i heq
        rw [heq, hk]
      · rfl
  show (undoOne (t.memKV.set k v) ⟨k, t.memKV.get k⟩ |> t.undo.foldl undoOne) = _
  rw [hback]
  rfl

theorem rollback_delete (t : TxKV) (k : Bytes) :
    (t.delete k).rollback.memKV = t.rollback.memKV := by
  have hback : undoOne (t.memKV.delete k) ⟨k, t.memKV.get k⟩ = t.memKV := by
    apply SortedKV.ext_get
    intro k'
    cases hk : t.memKV.get k with
    | none =>
      simp only [undoOne, SortedKV.get_delete]
      split
      · rename_i heq
        rw [heq, hk]
      · rfl
    | some w =>
      simp only [undoOne, SortedKV.get_set, SortedKV.get_delete]
      split
      · rename_i heq
        rw [heq, hk]
      · rfl
  show (undoOne (t.memKV.delete k) ⟨k, t.memKV.get k⟩ |> t.undo.foldl undoOne) = _
  rw [hback]
  rfl

/-- The bookkeeping of a transaction that started from the keyspace `s`: the
touched keys are those of the undo log, each once, none is empty, and no other
key has changed. -/
structure Tracks (s : MemKV) (t : TxKV) : Prop where
  nodup : t.dirtyKeys.Nodup
  named : ∀ k ∈ t.dirtyKeys, k ≠ []
  touched : ∀ k, k ∈ t.dirtyKeys ↔ ∃ op ∈ t.undo, op.key = k
  kept : ∀ k, k ∉ t.dirtyKeys → t.memKV.get k = s.get k

theorem tracks_start (s : MemKV) : Tracks s (start s) where
  nodup := List.nodup_nil
  named := List.forall_mem_nil _
  touched k := by simp [start]
  kept _ _ := rfl

theorem mem_dirtyKeys_record {t : TxKV} {k k' : Bytes} :
    k' ∈ (t.record k).dirtyKeys ↔ k' = k ∨ k' ∈ t.dirtyKeys := by
  unfold record
  dsimp only
  split
  · rename_i hin
    constructor
    · exact Or.inr
    · rintro (rfl | h)
      · exact hin
      · exact h
  · rw [List.mem_append, List.mem_singleton, or_comm]

theorem Tracks.mutate {s : MemKV} {t : TxKV} {k : Bytes} {kv : MemKV} (h : Tracks s t)
    (hk : k ≠ []) (hother : ∀ k', k' ≠ k → kv.get k' = t.memKV.get k') :
    Tracks s { t.record k with memKV := kv } where
  nodup := by
    show (t.record k).dirtyKeys.Nodup
    unfold record
    dsimp only
    split
    · exact h.nodup
    · rename_i hnot
      rw [List.nodup_append]
      refine ⟨h.nodup, by simp, ?_⟩
      rintro a ha b hb rfl
      exact hnot (List.mem_singleton.mp hb ▸ ha)
  named k' hk' := by
    rcases mem_dirtyKeys_record.mp hk' with rfl | hk'
    · exact hk
    · exact h.named k' hk'
  touched k' := by
    show k' ∈ (t.record k).dirtyKeys ↔
        ∃ op ∈ (⟨k, t.memKV.get k⟩ :: t.undo : List UndoOp), op.key = k'
    rw [mem_dirtyKeys_record, h.touched]
    constructor
    · rintro (rfl | ⟨op, hop, hkey⟩)
      · exact ⟨_, List.mem_cons_self, rfl⟩
      · exact ⟨op, List.mem_cons_of_mem _ hop, hkey⟩
    · rintro ⟨op, hop, hkey⟩
      rcases List.mem_cons.mp hop with rfl | hop
      · exact Or.inl hkey.symm
      · exact Or.inr ⟨op, hop, hkey⟩
  kept k' hk' := by
    have hnot : ¬ (k' = k ∨ k' ∈ t.dirtyKeys) := fun hin => hk' (mem_dirtyKeys_record.mpr hin)
    show kv.get k' = s.get k'
    rw [hother k' (fun heq => hnot (Or.inl heq))]
    exact h.kept k' (fun hin => hnot (Or.inr hin))

end TxKV

namespace Tx

variable {α β : Type}

/-- A body that can be rolled back and that decides by the keyspace alone.

* A rollback after the body undoes everything the body did.
* The undo log and the touched keys do not influence the result.
* The body keeps the list of touched keys right. -/
class Regular (m : Tx α) : Prop where
  reverts : ∀ t : TxKV, (m.run t).2.rollback.memKV = t.rollback.memKV
  blind : ∀ t t' : TxKV, t.memKV = t'.memKV →
    (m.run t).1 = (m.run t').1 ∧ (m.run t).2.memKV = (m.run t').2.memKV
  tracks : ∀ (s : MemKV) (t : TxKV), TxKV.Tracks s t → TxKV.Tracks s (m.run t).2

theorem Regular.bind_of_result {m : Tx α} {f : α → Tx β} (hm : m.Regular)
    (hf : ∀ t a, (m.run t).1 = .ok a → (f a).Regular) : (m >>= f).Regular where
  reverts := by
    intro t
    have hfirst := hm.reverts t
    rw [run_bind]
    match hrun : m.run t with
    | (.ok a, t') =>
      rw [hrun] at hfirst
      exact ((hf t a (by rw [hrun])).reverts t').trans hfirst
    | (.error e, t') =>
      rw [hrun] at hfirst
      exact hfirst
  blind := by
    intro t t' h
    obtain ⟨hres, hmem⟩ := hm.blind t t' h
    rw [run_bind, run_bind]
    match hrun : m.run t, hrun' : m.run t' with
    | (.ok a, u), (.ok a', u') =>
      rw [hrun, hrun'] at hres hmem
      cases hres
      exact (hf t a (by rw [hrun])).blind u u' hmem
    | (.error e, u), (.error e', u') =>
      rw [hrun, hrun'] at hres hmem
      cases hres
      exact ⟨rfl, hmem⟩
    | (.ok a, u), (.error e', u') =>
      rw [hrun, hrun'] at hres
      cases hres
    | (.error e, u), (.ok a', u') =>
      rw [hrun, hrun'] at hres
      cases hres
  tracks := by
    intro s t h
    have hfirst := hm.tracks s t h
    rw [run_bind]
    match hrun : m.run t with
    | (.ok a, t') =>
      rw [hrun] at hfirst
      exact (hf t a (by rw [hrun])).tracks s t' hfirst
    | (.error e, t') =>
      rw [hrun] at hfirst
      exact hfirst

instance regular_bind {m : Tx α} {f : α → Tx β} [hm : m.Regular] [hf : ∀ a, (f a).Regular] :
    (m >>= f).Regular :=
  hm.bind_of_result (fun _ a _ => hf a)

instance regular_pure (a : α) : (pure a : Tx α).Regular where
  reverts _ := rfl
  blind _ _ h := ⟨rfl, h⟩
  tracks _ _ h := h

instance regular_fail (e : MetaError) : (fail e : Tx α).Regular where
  reverts _ := rfl
  blind _ _ h := ⟨rfl, h⟩
  tracks _ _ h := h

instance regular_read (f : MemKV → Except MetaError α) : (read f).Regular where
  reverts _ := rfl
  blind _ _ h := ⟨congrArg f h, h⟩
  tracks _ _ h := h

instance regular_check (r : Except MetaError α) : (check r).Regular where
  reverts _ := rfl
  blind _ _ h := ⟨rfl, h⟩
  tracks _ _ h := h

instance regular_get (k : Bytes) : (get k).Regular where
  reverts _ := rfl
  blind _ _ h := ⟨congrArg (fun kv : MemKV => Except.ok (kv.get k)) h, h⟩
  tracks _ _ h := h

/-- A key of a row: it starts with the letter of its kind. -/
class Lettered (k : Bytes) : Prop where
  ne_nil : k ≠ []

instance regular_set (k : Bytes) [hk : Lettered k] (v : Record) : (set k v).Regular where
  reverts t := t.rollback_set k v
  blind _ _ h := ⟨rfl, congrArg (fun kv : MemKV => kv.set k v) h⟩
  tracks _ t h := h.mutate hk.ne_nil (fun _ hne => t.memKV.get_set_of_ne v hne)

instance regular_delete (k : Bytes) [hk : Lettered k] : (delete k).Regular where
  reverts t := t.rollback_delete k
  blind _ _ h := ⟨rfl, congrArg (fun kv : MemKV => kv.delete k) h⟩
  tracks _ t h := h.mutate hk.ne_nil (fun _ hne => t.memKV.get_delete_of_ne hne)

instance regular_ite {c : Prop} [Decidable c] {m m' : Tx α} [hm : m.Regular]
    [hm' : m'.Regular] : (if c then m else m').Regular := by
  split
  · exact hm
  · exact hm'

instance regular_failIf (c : Prop) [Decidable c] (e : MetaError) : (failIf c e).Regular :=
  inferInstanceAs (Regular (if c then fail e else pure ()))

theorem Regular.bind {m : Tx α} {f : α → Tx β} (_ : m.Regular) (_ : ∀ a, (f a).Regular) :
    (m >>= f).Regular :=
  regular_bind

theorem Regular.bind_option {γ : Type} {m : Tx (Option γ)} {f : Option γ → Tx α}
    (hm : m.Regular) (hnone : (f none).Regular) (hsome : ∀ c, (f (some c)).Regular) :
    (m >>= f).Regular := by
  refine hm.bind (fun a => ?_)
  cases a with
  | none => exact hnone
  | some c => exact hsome c

end Tx

open Tx

/-! ## The apply functions

The bodies that branch on an optional row are taken by hand; the others are
sequences of such bodies and are found by instance search. -/

section Bodies

variable (bucket key : Bytes) (vid : VersionID)

instance lettered_bucketRowKey : Lettered (bucketRowKey bucket) := ⟨List.cons_ne_nil _ _⟩

instance lettered_versionRowKey : Lettered (versionRowKey bucket key vid) :=
  ⟨List.cons_ne_nil _ _⟩

instance lettered_currentRowKey : Lettered (currentRowKey bucket key) := ⟨List.cons_ne_nil _ _⟩

instance lettered_uploadRowKey : Lettered (uploadRowKey bucket key vid) := ⟨List.cons_ne_nil _ _⟩

instance lettered_partRowKey (part : UInt32) : Lettered (partRowKey bucket key vid part) :=
  ⟨List.cons_ne_nil _ _⟩

instance lettered_nodeRowKey : Lettered (nodeRowKey bucket) := ⟨List.cons_ne_nil _ _⟩

instance lettered_clusterLayoutKey : Lettered clusterLayoutKey := ⟨List.cons_ne_nil _ _⟩

instance lettered_encryptionPostureKey : Lettered encryptionPostureKey := ⟨List.cons_ne_nil _ _⟩

instance lettered_trustBundleKey : Lettered trustBundleKey := ⟨List.cons_ne_nil _ _⟩

instance regular_requireBucket : (requireBucket bucket).Regular :=
  (regular_read _).bind_option (regular_fail _) (fun _ => regular_pure _)

instance regular_removeNullVersion (atUnixMS : Int64) :
    (removeNullVersion bucket key atUnixMS).Regular :=
  (regular_read _).bind_option (regular_pure _) (fun _ => regular_bind)

instance regular_replaceNullVersion (atUnixMS : Int64) (isNull : Bool) :
    (replaceNullVersion bucket key atUnixMS isNull).Regular :=
  regular_ite

instance regular_refreshCurrent : (refreshCurrent bucket key).Regular :=
  (regular_read _).bind_option (regular_delete _) (fun _ => regular_ite)

instance regular_refreshIfNewest (wasNewest : Bool) :
    (refreshIfNewest bucket key wasNewest).Regular :=
  regular_ite

instance regular_lockTarget : (lockTarget bucket key vid).Regular :=
  (regular_requireBucket bucket).bind fun _ => (regular_check _).bind fun _ =>
    (regular_failIf _ _).bind fun _ =>
    (regular_read _).bind_option (regular_fail _) (fun _ => regular_bind)

instance regular_requireVersionRow : (requireVersionRow bucket key vid).Regular :=
  (regular_get _).bind_option (regular_fail _) (fun _ => regular_check _)

instance regular_requirePosture : requirePosture.Regular :=
  (regular_read _).bind_option (regular_fail _) (fun _ => regular_pure _)

instance regular_updateNode (nodeID : Bytes) (f : NodeRecord → NodeRecord) :
    (updateNode nodeID f).Regular :=
  (regular_failIf _ _).bind fun _ =>
    (regular_read _).bind_option (regular_fail _) (fun _ => regular_set _ _)

instance regular_requireUpload : (requireUpload bucket key vid).Regular :=
  (regular_read _).bind_option (regular_fail _) (fun _ => regular_pure _)

theorem regular_deleteRows {ks : List Bytes} (hks : ∀ k ∈ ks, Lettered k) :
    (deleteRows ks).Regular := by
  induction ks with
  | nil => exact regular_pure ()
  | cons k rest ih =>
    have := hks k List.mem_cons_self
    exact (regular_delete k).bind fun _ => ih (fun k' hk' => hks k' (List.mem_cons_of_mem k hk'))

instance regular_deleteParts (parts : List PartRecord) :
    (deleteRows (parts.map (fun pr => partRowKey bucket key vid pr.partNumber))).Regular :=
  regular_deleteRows (List.forall_mem_map.mpr (fun _ _ => inferInstance))

theorem isPrefix_of_uploadRowKeys {s : Store} {row : Bytes} {ks : List Bytes}
    (h : uploadRowKeys s row = .ok ks) : ∀ k ∈ ks, row <+: k := by
  rw [uploadRowKeys_eq, Except.ok.injEq] at h
  rw [← h]
  exact List.forall_mem_map.mpr (fun _ hr => (SortedKV.mem_rowsUnder.mp hr).2)

instance regular_deleteUploadRows {α : Type} {row : Bytes} [hrow : Lettered row]
    {f : Unit → Tx α} [∀ a, (f a).Regular] :
    (read (uploadRowKeys · row) >>= fun rows => deleteRows rows >>= f).Regular := by
  refine (regular_read _).bind_of_result (fun t rows hrows => ?_)
  refine (regular_deleteRows (fun k hk => ?_)).bind (fun _ => inferInstance)
  obtain ⟨rest, rfl⟩ := isPrefix_of_uploadRowKeys hrows k hk
  exact ⟨List.append_ne_nil_of_left_ne_nil hrow.ne_nil rest⟩

end Bodies

instance regular_deleteUnversioned (p : DeleteObject) : (deleteUnversioned p).Regular :=
  (regular_read _).bind_option (regular_pure _) (fun _ => regular_bind)

instance regular_insertMarker (p : DeleteObject) (cfg : BucketConfig) :
    (insertMarker p cfg).Regular := by
  unfold insertMarker
  dsimp only
  infer_instance

instance regular_applyDeleteVersion (p : DeleteVersion) : (applyDeleteVersion p).Regular :=
  (regular_requireBucket _).bind fun _ => (regular_check _).bind fun _ =>
    (regular_get _).bind_option (regular_pure _) (fun _ => regular_bind)

/-! The longer bodies name their first steps, which keeps the instance search
for the rest small. -/

instance regular_applyPutObject (p : PutObject) : (applyPutObject p).Regular :=
  (regular_requireBucket _).bind fun _ => (regular_check _).bind fun _ =>
    (regular_failIf _ _).bind fun _ => (regular_failIf _ _).bind fun _ =>
    (regular_read _).bind fun _ => regular_bind

instance regular_applyUploadPart (p : UploadPart) : (applyUploadPart p).Regular :=
  (regular_requireBucket _).bind fun _ => (regular_check _).bind fun _ =>
    (regular_failIf _ _).bind fun _ => (regular_get _).bind fun _ =>
    (regular_failIf _ _).bind fun _ => regular_bind

instance regular_applyCompleteMultipartUpload (p : CompleteMultipartUpload) :
    (applyCompleteMultipartUpload p).Regular :=
  (regular_requireBucket _).bind fun _ => (regular_check _).bind fun _ =>
    (regular_requireUpload _ _ _).bind fun _ => (regular_failIf _ _).bind fun _ =>
    (regular_read _).bind fun _ => (regular_failIf _ _).bind fun _ =>
    (regular_check _).bind fun _ => (regular_read _).bind fun _ =>
    (regular_replaceNullVersion _ _ _ _).bind fun _ => regular_bind

instance regular_applyAbortMultipartUpload (p : AbortMultipartUpload) :
    (applyAbortMultipartUpload p).Regular :=
  (regular_requireBucket _).bind fun _ => (regular_check _).bind fun _ =>
    (regular_get _).bind fun _ => (regular_failIf _ _).bind fun _ => regular_bind

instance regular_applySetEncryptionPosture (p : SetEncryptionPosture) :
    (applySetEncryptionPosture p).Regular :=
  (regular_failIf _ _).bind fun _ => (regular_read _).bind fun _ =>
    (regular_failIf _ _).bind fun _ => regular_bind

instance regular_applySetTrustBundle (p : SetTrustBundle) : (applySetTrustBundle p).Regular :=
  (regular_read _).bind fun _ => (regular_failIf _ _).bind fun _ =>
    (regular_failIf _ _).bind fun _ => (regular_failIf _ _).bind fun _ => regular_bind

/-- Every proposal's apply function is regular. -/
instance regular_applyBody (p : Proposal) : (applyBody p).Regular := by
  cases p with
  | createBucket p => unfold applyBody applyCreateBucket; infer_instance
  | deleteBucket p => unfold applyBody applyDeleteBucket; infer_instance
  | setBucketVersioning p => unfold applyBody applySetBucketVersioning; infer_instance
  | setObjectLockConfiguration p =>
    unfold applyBody applySetObjectLockConfiguration; infer_instance
  | putObject p => unfold applyBody; infer_instance
  | deleteObject p => unfold applyBody applyDeleteObject; infer_instance
  | deleteVersion p => unfold applyBody; infer_instance
  | updateRetention p => unfold applyBody applyUpdateRetention; infer_instance
  | updateLegalHold p => unfold applyBody applyUpdateLegalHold; infer_instance
  | createMultipartUpload p => unfold applyBody applyCreateMultipartUpload; infer_instance
  | uploadPart p => unfold applyBody; infer_instance
  | completeMultipartUpload p => unfold applyBody; infer_instance
  | abortMultipartUpload p => unfold applyBody; infer_instance
  | setClusterLayout p => unfold applyBody applySetClusterLayout; infer_instance
  | setEncryptionPosture p => unfold applyBody; infer_instance
  | beginKEKRotation p => unfold applyBody applyBeginKEKRotation; infer_instance
  | rewrapDEK p => unfold applyBody applyRewrapDEK; infer_instance
  | completeKEKRotation p => unfold applyBody applyCompleteKEKRotation; infer_instance
  | registerNode p => unfold applyBody applyRegisterNode; infer_instance
  | setNodeDraining p => unfold applyBody applySetNodeDraining; infer_instance
  | setNodeReplacedBy p => unfold applyBody applySetNodeReplacedBy; infer_instance
  | setNodeLeafCA p => unfold applyBody applySetNodeLeafCA; infer_instance
  | setNodeVersion p => unfold applyBody applySetNodeVersion; infer_instance
  | setTrustBundle p => unfold applyBody; infer_instance
  | reEncodeObject p => unfold applyBody applyReEncodeObject; infer_instance
  | unknown => unfold applyBody; infer_instance

/-! ## The store after a failed transaction -/

variable {persist : Persister} {s : Store} {e : MetaError}

/-- A failed transaction leaves the store as it was, whether the body failed
or the persister refused the changeset. -/
theorem txn_error_store {α : Type} {body : Tx α} [hbody : body.Regular]
    (h : (txn persist s body).result = .error e) : (txn persist s body).store = s := by
  have hback : (body.run (TxKV.start s)).2.rollback.memKV = s := hbody.reverts (TxKV.start s)
  unfold txn at h ⊢
  match hrun : body.run (TxKV.start s), persist with
  | (.error e', t), _ =>
    rw [hrun] at hback
    exact hback
  | (.ok a, t), none => simp [hrun] at h
  | (.ok a, t), some commit =>
    rw [hrun] at hback
    simp only [hrun] at h ⊢
    split at h
    · simp at h
    · rename_i hdirty
      split at h
      · simp at h
      · rename_i hcommit
        rw [if_neg hdirty, if_neg hcommit]
        exact hback

theorem txn_error_committed {α : Type} {body : Tx α} (h : (txn persist s body).result = .error e) :
    (txn persist s body).committed = none := by
  unfold txn at h ⊢
  match hrun : body.run (TxKV.start s), persist with
  | (.error e', t), _ => rfl
  | (.ok a, t), none => rfl
  | (.ok a, t), some commit =>
    rw [hrun] at h
    dsimp only at h ⊢
    split
    · rfl
    · rename_i hdirty
      rw [if_neg hdirty] at h
      split
      · rename_i hcommit
        rw [if_pos hcommit] at h
        cases h
      · rfl

/-- A transaction that succeeds: the body did, and what the persister took is
the changeset, unless nothing was touched. -/
theorem txn_ok {α : Type} {body : Tx α} {a : α} (h : (txn persist s body).result = .ok a) :
    ∃ t, body.run (TxKV.start s) = (.ok a, t) ∧ (txn persist s body).store = t.memKV ∧
      (txn persist s body).committed =
        if persist.isNone ∨ t.dirtyKeys = [] then none else some t.changeset := by
  unfold txn at h ⊢
  match hrun : body.run (TxKV.start s), persist with
  | (.error e, t), _ =>
    rw [hrun] at h
    cases h
  | (.ok a', t), none =>
    rw [hrun] at h
    cases h
    exact ⟨t, rfl, rfl, (if_pos (Or.inl rfl)).symm⟩
  | (.ok a', t), some commit =>
    rw [hrun] at h
    dsimp only at h ⊢
    by_cases hdirty : t.dirtyKeys = []
    · rw [if_pos hdirty] at h ⊢
      cases h
      exact ⟨t, rfl, rfl, (if_pos (Or.inr hdirty)).symm⟩
    · rw [if_neg hdirty] at h ⊢
      by_cases hcommit : commit t.changeset = true
      · rw [if_pos hcommit] at h ⊢
        cases h
        exact ⟨t, rfl, rfl, (if_neg (by simp [hdirty])).symm⟩
      · rw [if_neg hcommit] at h
        cases h

theorem apply_error_store {p : Proposal} (h : (apply persist s p).result = .error e) :
    (apply persist s p).store = s :=
  txn_error_store h

end Hamster.Meta
