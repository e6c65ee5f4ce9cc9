import Hamster.Meta.Multipart

/-!
# Dispatch

`internal/meta/dispatch.go`: one decoded proposal goes to its apply function.
`apply` runs it as a transaction with a persister; `applyMem` is the store
without one, which is what a replica's keyspace does under a log of
proposals, and `runMem` is that log applied in order.
-/

namespace Hamster.Meta

open CodeLib

/-- The apply function of a proposal, with its result. -/
def applyBody : Proposal → Tx ApplyResult
  | .createBucket p => do applyCreateBucket p; pure .nil
  | .deleteBucket p => do applyDeleteBucket p; pure .nil
  | .setBucketVersioning p => do applySetBucketVersioning p; pure .nil
  | .setObjectLockConfiguration p => do applySetObjectLockConfiguration p; pure .nil
  | .putObject p => do return .put (← applyPutObject p)
  | .deleteObject p => do return .deleteObject (← applyDeleteObject p)
  | .deleteVersion p => do return .deleteVersion (← applyDeleteVersion p)
  | .updateRetention p => do applyUpdateRetention p; pure .nil
  | .updateLegalHold p => do applyUpdateLegalHold p; pure .nil
  | .createMultipartUpload p => do applyCreateMultipartUpload p; pure .nil
  | .uploadPart p => do return .uploadPart (← applyUploadPart p)
  | .completeMultipartUpload p => do return .complete (← applyCompleteMultipartUpload p)
  | .abortMultipartUpload p => do return .abort (← applyAbortMultipartUpload p)
  | .setClusterLayout p => do applySetClusterLayout p; pure .nil
  | .setEncryptionPosture p => do applySetEncryptionPosture p; pure .nil
  | .beginKEKRotation p => do applyBeginKEKRotation p; pure .nil
  | .rewrapDEK p => do applyRewrapDEK p; pure .nil
  | .completeKEKRotation p => do applyCompleteKEKRotation p; pure .nil
  | .registerNode p => do applyRegisterNode p; pure .nil
  | .setNodeDraining p => do applySetNodeDraining p; pure .nil
  | .setNodeReplacedBy p => do applySetNodeReplacedBy p; pure .nil
  | .setNodeLeafCA p => do applySetNodeLeafCA p; pure .nil
  | .setNodeVersion p => do applySetNodeVersion p; pure .nil
  | .setTrustBundle p => do applySetTrustBundle p; pure .nil
  | .reEncodeObject p => do applyReEncodeObject p; pure .nil
  | .unknown => Tx.fail .unknownProposal

def apply (persist : Persister) (s : Store) (p : Proposal) : Outcome ApplyResult :=
  txn persist s (applyBody p)

def applyMem (s : Store) (p : Proposal) : Except MetaError ApplyResult × Store :=
  ((apply none s p).result, (apply none s p).store)

def runMem (s : Store) (ps : List Proposal) : Store :=
  ps.foldl (fun s p => (applyMem s p).2) s

end Hamster.Meta
