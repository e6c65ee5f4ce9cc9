import Hamster.Cluster.Forward
import Hamster.Meta.Codec
import Hamster.Meta.VersionStep

/-!
# What a forwarded proposal answers

The response of `handleForward` as bytes, `encodeForwardResponse` and
`decodeForwardResponse` of `internal/cluster/forward.go`, and what callers see of an
answer: its result, the sentinels that `errors.Is` finds in its error, and the
status that `mapError` of `internal/gateway/errors.go` gives it.

The bytes lose nothing (`decodeForwardResponse_encode`).  An error without a code
crosses as a text, and `errors.New` of a text is no sentinel.  A response that comes
after the deadline of its connection does not cross at all: the exchange fails, the
request goes out again, and what comes back is the outcome of the second one.
-/

namespace Hamster.Cluster

open CodeLib Meta

/-! ## The response as bytes -/

section Codec

variable [Protowire]

def protocolVersion : UInt64 := 1

def encodeForwardResponse (text : ProposeError → Bytes) (fr : ForwardResponse) : Bytes :=
  let b := putUvarint [] 1 protocolVersion
  let b := putUvarint b 2 fr.errCode
  let b := putString b 3 (fr.errMsg.elim [] text)
  let b := putID b 4 fr.resultID
  let b := fr.freedIDs.foldl (fun b id => putBytes b 5 id.bytes) b
  let b := putBool b 6 fr.removed
  putBool b 7 fr.markerCreated

/-- `forEachField`, for a callback that never fails.  It gets `u` of a varint and `b` of
bytes. -/
def forEachField {α : Type} (fn : α → Nat → UInt64 → Bytes → α) : FieldReader Unit α where
  varint acc num v := .ok (fn acc num v [])
  bytes acc num v := .ok (fn acc num 0 v)

omit [Protowire] in
theorem length_copy (id : VersionID) (b : Bytes) :
    (b.take 16 ++ id.bytes.drop b.length).length = 16 := by
  simp only [List.length_append, List.length_take, List.length_drop, id.length_eq]
  omega

def copyID (id : VersionID) (b : Bytes) : VersionID :=
  ⟨b.take 16 ++ id.bytes.drop b.length, length_copy id b⟩

/-- The switch of `decodeForwardResponse`.  An error that is made of a text is known
by the error that had the text, `whose`. -/
def forwardResponseField (whose : Bytes → Option ProposeError) (fr : ForwardResponse)
    (num : Nat) (u : UInt64) (b : Bytes) : ForwardResponse :=
  match num with
  | 2 => { fr with errCode := u }
  | 3 => { fr with errMsg := whose b }
  | 4 => { fr with resultID := copyID fr.resultID b }
  | 5 => { fr with freedIDs := fr.freedIDs ++ [copyID VersionID.zero b] }
  | 6 => { fr with removed := u != 0 }
  | 7 => { fr with markerCreated := u != 0 }
  | _ => fr

def decodeForwardResponse (whose : Bytes → Option ProposeError) (buf : Bytes) :
    Except Unit ForwardResponse :=
  (forEachField (forwardResponseField whose)).read () { errMsg := whose [] } buf

/-- What `forward` does with the bytes that came back. -/
def Call.afterBytes (c : Call) (whose : Bytes → Option ProposeError) (attempt : Nat)
    (buf : Bytes) : Phase :=
  match decodeForwardResponse whose buf with
  | .error () => .answered (.error .malformedResponse)
  | .ok fr => c.afterReply attempt fr

/-! ## The hop -/

/-- The deadline, in seconds, that `handleConn` sets on a connection. -/
def connDeadline : Nat := 10

def proposeWait : Nat := 30

inductive Hop where
  /-- `leaderDial` gives an address, or none. -/
  | resolve (known : Bool)
  /-- The exchange breaks before a node has the request. -/
  | broken
  /-- `proposeLocal` of the node comes back after some seconds.  The response may be
  lost on its way. -/
  | served (outcome : Except ProposeError ApplyResult) (seconds : Nat) (lost : Bool)

/-- The response as it arrives: after the deadline `writeFrame` fails. -/
def response (text : ProposeError → Bytes) (outcome : Except ProposeError ApplyResult)
    (seconds : Nat) (lost : Bool) : Option Bytes :=
  if seconds < connDeadline && !lost then
    some (encodeForwardResponse text (forwardResponseFor outcome))
  else none

/-- What comes of an exchange; without a response it has failed. -/
def Call.afterExchange (c : Call) (whose : Bytes → Option ProposeError) : Option Bytes → Call
  | none => c.fail
  | some buf =>
    match c.phase with
    | .exchanging attempt _ _ => { c with phase := c.afterBytes whose attempt buf }
    | _ => c

def Call.hop (text : ProposeError → Bytes) (whose : Bytes → Option ProposeError) (c : Call) :
    Hop → Call
  | .resolve known => c.resolve known
  | .broken => c.fail
  | .served outcome seconds lost => c.afterExchange whose (response text outcome seconds lost)

end Codec

/-! ## The round trip -/

section RoundTrip

variable {text : ProposeError → Bytes} {whose : Bytes → Option ProposeError}
  {fr : ForwardResponse}

theorem copyID_bytes (id id' : VersionID) : copyID id id'.bytes = id' := by
  obtain ⟨b, hb⟩ := id'
  simp only [copyID, VersionID.mk.injEq]
  rw [List.take_of_length_le hb.le, List.drop_of_length_le (id.length_eq.trans hb.symm).le,
    List.append_nil]

def forwardResponseFields (text : ProposeError → Bytes) (fr : ForwardResponse) : List Field :=
  uvarintField 1 protocolVersion ++ (uvarintField 2 fr.errCode ++
  (bytesField 3 (fr.errMsg.elim [] text) ++ (idField 4 fr.resultID ++
  (repeatedField VersionID.bytes 5 fr.freedIDs ++
  (boolField 6 fr.removed ++ boolField 7 fr.markerCreated)))))

theorem bytes_ne_nil (id : VersionID) : id.bytes ≠ [] := by
  intro hnil
  have hlen := id.length_eq
  rw [hnil] at hlen
  cases hlen

def readField (whose : Bytes → Option ProposeError) (fr : ForwardResponse) (f : Field) :
    ForwardResponse :=
  match f.value with
  | .varint v => forwardResponseField whose fr f.num v []
  | .bytes v => forwardResponseField whose fr f.num 0 v

theorem foldl_readField (whose : Bytes → Option ProposeError) (fr : ForwardResponse) :
    (forwardResponseFields text fr).foldl (readField whose) { errMsg := whose [] } =
      { fr with errMsg := whose (fr.errMsg.elim [] text) } := by
  have hfreed (acc : ForwardResponse) (ids : List VersionID) :
      (repeatedField VersionID.bytes 5 ids).foldl (readField whose) acc =
        { acc with freedIDs := acc.freedIDs ++ ids } := by
    induction ids generalizing acc with
    | nil => simp [repeatedField]
    | cons id ids ih =>
      refine (ih _).trans ?_
      simp [readField, forwardResponseField, copyID_bytes]
  have hid (acc : ForwardResponse) (id : VersionID) (hacc : acc.resultID = VersionID.zero) :
      (idField 4 id).foldl (readField whose) acc = { acc with resultID := id } := by
    unfold idField
    by_cases hzero : id = VersionID.zero
    · simp [VersionID.isZero, hzero, ← hacc]
    · simp [VersionID.isZero, hzero, readField, forwardResponseField, copyID_bytes]
  have htext (acc : ForwardResponse) (msg : Bytes) (hacc : acc.errMsg = whose []) :
      (bytesField 3 msg).foldl (readField whose) acc = { acc with errMsg := whose msg } := by
    unfold bytesField
    by_cases hnil : msg = []
    · simp [hnil, ← hacc]
    · simp [hnil, readField, forwardResponseField]
  have hcode (acc : ForwardResponse) (v : UInt64) (hacc : acc.errCode = 0) :
      (uvarintField 2 v).foldl (readField whose) acc = { acc with errCode := v } := by
    unfold uvarintField
    by_cases hzero : v = 0
    · simp [hzero, ← hacc]
    · simp [hzero, readField, forwardResponseField]
  have hversion (acc : ForwardResponse) :
      (uvarintField 1 protocolVersion).foldl (readField whose) acc = acc := rfl
  simp only [forwardResponseFields, List.foldl_append, hversion, hfreed]
  rw [hcode _ _ rfl, htext _ _ rfl, hid _ _ rfl]
  obtain ⟨code, msg, id, ids, removed, marker⟩ := fr
  cases removed <;> cases marker <;> rfl

variable [Protowire] [LawfulProtowire]

theorem encodeForwardResponse_eq :
    encodeForwardResponse text fr = encodeFields (forwardResponseFields text fr) := by
  have hfreed (ids : List VersionID) (b : Bytes) :
      ids.foldl (fun b id => putBytes b 5 id.bytes) b =
        b ++ encodeFields (repeatedField VersionID.bytes 5 ids) := by
    induction ids generalizing b with
    | nil => simp [repeatedField]
    | cons id ids ih =>
      rw [List.foldl_cons, ih, putBytes_eq, bytesField, if_neg (bytes_ne_nil id)]
      simp [repeatedField]
  simp only [encodeForwardResponse, forwardResponseFields, putUvarint_eq, putString_eq, putID_eq,
    hfreed, putBool_eq, encodeFields_append, List.nil_append, List.append_assoc]

omit [Protowire] [LawfulProtowire] in
theorem readable_forwardResponseFields (htext : ∀ e, (text e).length < 2 ^ 63) :
    ∀ f ∈ forwardResponseFields text fr, f.Numbered ∧ f.value.size < 2 ^ 63 := by
  intro f hf
  have hmsg : (fr.errMsg.elim [] text).length < 2 ^ 63 := by
    cases fr.errMsg with
    | none => exact Nat.two_pow_pos 63
    | some e => exact htext e
  have hid (id : VersionID) : id.bytes.length < 2 ^ 63 := by
    rw [id.length_eq]
    omega
  simp only [forwardResponseFields, uvarintField, bytesField, idField, repeatedField, boolField,
    List.mem_append, List.mem_map, List.mem_ite_nil_left, List.mem_ite_nil_right,
    List.mem_singleton] at hf
  rcases hf with ⟨-, rfl⟩ | ⟨-, rfl⟩ | ⟨-, rfl⟩ | ⟨-, rfl⟩ | ⟨id, -, rfl⟩ | ⟨-, rfl⟩ | ⟨-, rfl⟩ <;>
    refine ⟨Field.numbered_mk (by decide) _, ?_⟩
  case inr.inr.inl => exact hmsg
  case inr.inr.inr.inl => exact hid _
  case inr.inr.inr.inr.inl => exact hid _
  all_goals exact Nat.two_pow_pos 63

theorem decodeForwardResponse_encode (htext : ∀ e, (text e).length < 2 ^ 63) :
    decodeForwardResponse whose (encodeForwardResponse text fr) =
      .ok { fr with errMsg := whose (fr.errMsg.elim [] text) } := by
  have hfield : (forEachField (forwardResponseField whose)).field =
      fun acc f => pure (readField whose acc f) := by
    funext acc f
    obtain ⟨num, v | v⟩ := f <;> rfl
  rw [encodeForwardResponse_eq, decodeForwardResponse, FieldReader.read_encodeFields _ ()
    (fun f hf => (readable_forwardResponseFields htext f hf).1)
    (fun f hf => (readable_forwardResponseFields htext f hf).2), hfield, List.foldlM_pure]
  exact congrArg _ (foldl_readField whose fr)

end RoundTrip

/-! ## What a caller sees -/

inductive Sentinel where
  | apply (e : MetaError)
  | notLeader
  | unavailable
deriving DecidableEq

/-- `errors.Is`: an error made of a text is none of the sentinels. -/
def ProposeError.is : ProposeError → Sentinel → Bool
  | .notLeader, .notLeader => true
  | .timedOut, .unavailable => true
  | .noLeaderAccepted, .unavailable => true
  | .malformedResponse, .unavailable => true
  | .refused e, .apply e' => e = e'
  | _, _ => false

def errorStatuses : List (Sentinel × Nat) :=
  [(.unavailable, 503), (.apply .noSuchBucket, 404), (.apply .bucketExists, 409),
    (.apply .bucketNotEmpty, 409), (.apply .invalidBucketName, 400),
    (.apply .invalidObjectKey, 400), (.apply .noSuchVersion, 404),
    (.apply .invalidVersioningState, 409), (.apply .objectLocked, 403),
    (.apply .invalidRetention, 400), (.apply .noSuchUpload, 404),
    (.apply .invalidPartNumber, 400), (.apply .invalidPart, 400),
    (.apply .invalidPartOrder, 400), (.apply .partTooSmall, 400)]

def mapError (e : ProposeError) : Nat :=
  ((errorStatuses.find? (fun row => e.is row.1)).map Prod.snd).getD 500

/-- What `proposeLocal` can come back with on a leader, and after how many seconds: a
result, an apply error, or the timeout. -/
inductive LocalOutcome (p : Proposal) : Except ProposeError ApplyResult → Nat → Prop where
  | result {persist : Persister} {s : Store} {r : ApplyResult} {seconds : Nat}
      (h : (apply persist s p).result = .ok r) (hwait : seconds ≤ proposeWait) :
      LocalOutcome p (.ok r) seconds
  | refused (e : MetaError) {seconds : Nat} (hwait : seconds ≤ proposeWait) :
      LocalOutcome p (.error (.refused e)) seconds
  | timedOut {seconds : Nat} (hwait : proposeWait ≤ seconds) :
      LocalOutcome p (.error .timedOut) seconds

def errorsIs : Except ProposeError ApplyResult → Sentinel → Bool
  | .ok _, _ => false
  | .error e, t => e.is t

def errorStatus : Except ProposeError ApplyResult → Option Nat
  | .ok _ => none
  | .error e => some (mapError e)

/-- The follower's caller is told what the leader's would be. -/
structure AnswersAlike (leader follower : Except ProposeError ApplyResult) : Prop where
  result : ∀ r, leader = .ok r → follower = .ok r
  sentinels : ∀ t, errorsIs follower t = errorsIs leader t
  status : errorStatus follower = errorStatus leader

/-- The outcome is a result, or an apply error with a code of its own. -/
def Coded : Except ProposeError ApplyResult → Prop
  | .ok _ => True
  | .error (.refused e) => e ∈ forwardErrors.map Prod.snd
  | .error _ => False

section Answers

variable {persist : Persister} {r : ApplyResult}

theorem forwardResultFor_forwardResultOf {s : Store} {p : Proposal}
    (h : (apply persist s p).result = .ok r) : forwardResultFor p (forwardResultOf r) = r := by
  obtain ⟨t, hrun, -⟩ := txn_ok h
  have heval : (applyBody p).eval s = (.ok r, t.memKV) := by rw [Tx.eval, hrun]
  cases p with
  | unknown => cases heval
  | uploadPart p =>
    obtain ⟨⟨id⟩, rfl, -⟩ := eval_wrapped_ok heval
    by_cases hzero : id = VersionID.zero
    · simp [forwardResultOf, forwardResultFor, hzero]
    · simp [forwardResultOf, forwardResultFor, hzero]
  | _ =>
    obtain ⟨a, rfl, -⟩ := eval_wrapped_ok heval
    rfl

theorem forwardErr_coded {e : MetaError} (he : e ∈ forwardErrors.map Prod.snd)
    (msg : Option ProposeError) :
    forwardErr (forwardErrCode (.refused e)).1 msg = some (.refused e) := by
  cases e with
  | staleLayout | invalidLayout | invalidNode | invalidReEncode | invalidEncryption
  | encryptionDowngrade | kekMismatch | notEncrypting | invalidRewrap | staleTrustBundle
  | invalidTrustBundle | unknownProposal | panicked => exact absurd he (by decide)
  | _ => rfl

variable {e : ProposeError}

theorem forwardErr_uncoded (hleader : e ≠ .notLeader) (he : ¬Coded (.error e))
    (msg : Option ProposeError) : forwardErr (forwardErrCode e).1 msg = some (newError msg) := by
  cases e with
  | notLeader => exact absurd rfl hleader
  | refused e =>
    cases e with
    | staleLayout | invalidLayout | invalidNode | invalidReEncode | invalidEncryption
    | encryptionDowngrade | kekMismatch | notEncrypting | invalidRewrap | staleTrustBundle
    | invalidTrustBundle | unknownProposal | panicked => rfl
    | _ => exact absurd (by decide : _ ∈ forwardErrors.map Prod.snd) he
  | _ => rfl

theorem newError_is (msg : Option ProposeError) (t : Sentinel) : (newError msg).is t = false := by
  cases msg <;> cases t <;> rfl

theorem afterReply_ok {c : Call} {s : Store} (h : (apply persist s c.proposal).result = .ok r)
    (attempt : Nat) (msg : Option ProposeError) :
    c.afterReply attempt { forwardResultOf r with errMsg := msg } = .answered (.ok r) := by
  have hresult : forwardResultFor c.proposal { forwardResultOf r with errMsg := msg } = r :=
    (by cases c.proposal <;> rfl : _ = forwardResultFor c.proposal (forwardResultOf r)).trans
      (forwardResultFor_forwardResultOf h)
  have hcode : ({ forwardResultOf r with errMsg := msg } : ForwardResponse).errCode = fwdErrNone :=
    errCode_forwardResultOf r
  rw [Call.afterReply, hcode, forwardErr, if_pos rfl]
  exact congrArg (fun r => Phase.answered (.ok r)) hresult

theorem afterReply_coded (c : Call) {e : MetaError} (he : e ∈ forwardErrors.map Prod.snd)
    (attempt : Nat) (msg : Option ProposeError) :
    c.afterReply attempt { forwardResponseFor (.error (.refused e)) with errMsg := msg } =
      .answered (.error (.refused e)) := by
  simp only [Call.afterReply, forwardResponseFor, forwardErr_coded he]

theorem afterReply_uncoded (c : Call) (hleader : e ≠ .notLeader) (he : ¬Coded (.error e))
    (attempt : Nat) (msg : Option ProposeError) :
    c.afterReply attempt { forwardResponseFor (.error e) with errMsg := msg } =
      .answered (.error (newError msg)) := by
  simp only [Call.afterReply, forwardResponseFor, forwardErr_uncoded hleader he]
  cases msg <;> rfl

theorem not_answersAlike_newError {t : Sentinel} (ht : e.is t = true) (msg : Option ProposeError) :
    ¬AnswersAlike (.error e) (.error (newError msg)) := by
  intro halike
  have hsame := halike.sentinels t
  rw [errorsIs, errorsIs, newError_is, ht] at hsame
  cases hsame

theorem AnswersAlike.refl (outcome : Except ProposeError ApplyResult) :
    AnswersAlike outcome outcome := ⟨fun _ h => h, fun _ => rfl, rfl⟩

theorem fail_proposal {c : Call} : c.fail.proposal = c.proposal := by
  unfold Call.fail
  split
  · split_ifs <;> rfl
  · rfl

section Hops

variable [Protowire] {text : ProposeError → Bytes} {whose : Bytes → Option ProposeError} {c : Call}

theorem hop_proposal (h : Hop) : (c.hop text whose h).proposal = c.proposal := by
  cases h with
  | resolve known =>
    rw [Call.hop, Call.resolve]
    split
    · split_ifs <;> rfl
    · rfl
  | broken => exact fail_proposal
  | served outcome seconds lost =>
    rw [Call.hop]
    cases response text outcome seconds lost with
    | none => exact fail_proposal
    | some buf =>
      rw [Call.afterExchange]
      split <;> rfl

theorem hops_proposal (hs : List Hop) :
    (hs.foldl (Call.hop text whose) c).proposal = c.proposal := by
  induction hs generalizing c with
  | nil => rfl
  | cons h hs ih => exact ih.trans (hop_proposal h)

theorem hops_answered {answer : Except ProposeError ApplyResult}
    (hphase : c.phase = .answered answer) (hs : List Hop) :
    (hs.foldl (Call.hop text whose) c).phase = .answered answer := by
  induction hs generalizing c with
  | nil => exact hphase
  | cons h hs ih =>
    refine ih ?_
    have hfail : c.fail = c := by rw [Call.fail, hphase]
    cases h with
    | resolve known => simp only [Call.hop, Call.resolve, hphase]
    | broken => rw [Call.hop, hfail, hphase]
    | served outcome seconds lost =>
      rw [Call.hop]
      cases response text outcome seconds lost with
      | none => rw [Call.afterExchange, hfail, hphase]
      | some buf => simp only [Call.afterExchange, hphase]

end Hops

variable [Protowire] [LawfulProtowire] {text : ProposeError → Bytes}

theorem afterBytes_alike (htext : ∀ e, (text e).length < 2 ^ 63)
    (whose : Bytes → Option ProposeError) (c : Call) (attempt : Nat)
    {outcome : Except ProposeError ApplyResult} {seconds : Nat}
    (h : LocalOutcome c.proposal outcome seconds) (hseconds : seconds < connDeadline) :
    ∃ answer, c.afterBytes whose attempt (encodeForwardResponse text (forwardResponseFor outcome)) =
      .answered answer ∧ (AnswersAlike outcome answer ↔ Coded outcome) := by
  rw [Call.afterBytes, decodeForwardResponse_encode htext]
  cases h with
  | result h => exact ⟨_, afterReply_ok h attempt _, fun _ => trivial, fun _ => .refl _⟩
  | refused e =>
    by_cases he : e ∈ forwardErrors.map Prod.snd
    · exact ⟨_, afterReply_coded c he attempt _, fun _ => he, fun _ => .refl _⟩
    · have his : (ProposeError.refused e).is (.apply e) = true := by simp [ProposeError.is]
      exact ⟨_, afterReply_uncoded c (e := .refused e) nofun he attempt _,
        fun halike => absurd halike (not_answersAlike_newError his _), fun h => absurd h he⟩
  | timedOut hwait => exact absurd (hwait.trans_lt hseconds) (by decide)

/-- When the response to a request arrives, `forward` answers like the leader exactly
if the outcome there is a result or an apply error that has a code.  Whatever went
before and comes after makes no difference. -/
theorem answersAlike_iff (htext : ∀ e, (text e).length < 2 ^ 63)
    (whose : Bytes → Option ProposeError) (c : Call) (before after : List Hop)
    {attempt redial x : Nat}
    (hphase : (before.foldl (Call.hop text whose) c).phase = .exchanging attempt redial x)
    {outcome : Except ProposeError ApplyResult} {seconds : Nat}
    (h : LocalOutcome c.proposal outcome seconds) (hseconds : seconds < connDeadline) :
    ∃ answer, ((before ++ .served outcome seconds false :: after).foldl (Call.hop text whose)
        c).phase = .answered answer ∧ (AnswersAlike outcome answer ↔ Coded outcome) := by
  rw [← @hops_proposal _ text whose c before] at h
  obtain ⟨answer, hanswer, halike⟩ := afterBytes_alike htext whose _ attempt h hseconds
  refine ⟨answer, ?_, halike⟩
  rw [List.foldl_append, List.foldl_cons]
  refine hops_answered ?_ after
  rw [Call.hop, response, if_pos (by simp [hseconds]), Call.afterExchange, hphase]
  exact hanswer

end Answers

section Concrete

local instance responseWire : Protowire := wireFormat

def forwardedCreate : Call :=
  .start (.createBucket ⟨1, [97, 97, 97], false⟩) true (.refused .notLeader)

/-- The first exchange breaks, and the second is answered after two seconds. -/
theorem answersAlike_iff_bucketExists :
    ∃ answer, ([.resolve true, .broken, .served (.error (.refused .bucketExists)) 2 false].foldl
        (Call.hop (fun _ => []) (fun _ => none)) forwardedCreate).phase = .answered answer ∧
      (AnswersAlike (.error (.refused .bucketExists)) answer ↔
        Coded (.error (.refused .bucketExists))) :=
  haveI := wireFormat_lawful
  answersAlike_iff (fun _ => by decide) _ _ [.resolve true, .broken] [] rfl
    (.refused _ (by decide)) (by decide)

/-- The leader commits the bucket after fifteen seconds, and the connection takes no
response any more.  The request is sent again and finds the bucket there: 409 for a
bucket that was made. -/
theorem slowCommit_answered_bucketExists :
    let p := forwardedCreate.proposal
    let hops : List Hop :=
      [.resolve true, .served (.ok .nil) 15 false,
        .served (.error (.refused .bucketExists)) 0 false]
    let answer : Except ProposeError ApplyResult := .error (.refused .bucketExists)
    applied (applyMem newStore p).1 = .ok .nil ∧
      applied (applyMem (applyMem newStore p).2 p).1 = answer ∧
      (hops.foldl (Call.hop (fun _ => []) (fun _ => none)) forwardedCreate).phase =
        .answered answer ∧
      ¬AnswersAlike (.ok .nil) answer ∧ errorStatus answer = some 409 := by
  refine ⟨by decide +kernel, by decide +kernel, by decide +kernel, ?_, by decide⟩
  intro halike
  cases halike.result .nil rfl

end Concrete

end Hamster.Cluster
