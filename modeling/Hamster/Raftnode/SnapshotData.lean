import Hamster.CodeLib.Lists
import Hamster.Meta.KeyOrder
import Hamster.Meta.Persist
import Hamster.Raftnode.Membership

/-!
# The data of a snapshot

`encodeSnapshotData` and `decodeSnapshotData` of `internal/raftnode/record.go`: a dump
of the metadata, the address book and the removed identifiers.  A row that comes in
goes through `Restore` of `internal/meta/persist.go`, which decodes it.  The tables
below are the decoders of `internal/meta/codec.go` as far as they refuse bytes.

A node can read what it wrote as long as every row of its dump can be restored
(`decodeSnapshotData_encode`).
-/

namespace Hamster.Raftnode

open CodeLib Meta

section Codec

variable [Protowire]

/-! ## Rows -/

/-- The methods of `dec`: a varint below a bound, or bytes that a decoder takes. -/
inductive FieldKind where
  | varint (bound : Nat)
  | bytes (takes : Bytes → Bool)

/-- The loop of a decoder: field `n + 1` has the kind at `n`, any other is kept as
unknown. -/
def unmarshalFields (kinds : List FieldKind) : FieldReader Unit Unit where
  varint _ num v :=
    match num with
    | 0 => .ok ()
    | n + 1 =>
      match kinds[n]? with
      | none => .ok ()
      | some (.varint bound) => if v.toNat < bound then .ok () else .error ()
      | some (.bytes _) => .error ()
  bytes _ num v :=
    match num with
    | 0 => .ok ()
    | n + 1 =>
      match kinds[n]? with
      | none => .ok ()
      | some (.varint _) => .error ()
      | some (.bytes takes) => if takes v then .ok () else .error ()
  other num := if 0 < num ∧ num ≤ kinds.length then some () else none

def unmarshals (kinds : List FieldKind) (b : Bytes) : Bool :=
  ((unmarshalFields kinds).read () () b).isOk

namespace FieldKind

omit [Protowire]

def uvarint : FieldKind := .varint (2 ^ 64)
def uint32 : FieldKind := .varint (2 ^ 32)
def enum8 : FieldKind := .varint (2 ^ 8)
def string : FieldKind := .bytes (fun _ => true)
def id : FieldKind := .bytes (fun v => v.length = 16)

end FieldKind

open FieldKind in
/-- The fields of every record, in the order of their numbers. -/
def recordKinds : RowType → List FieldKind
  | .bucketConfig => [uint32, string, uvarint, enum8, uvarint, enum8, uint32, uint32]
  | .versionEntry =>
    [uint32, id, enum8, uvarint, uvarint, string, string, .bytes (unmarshals [string, string]),
      uvarint, uint32, uint32, string, string, enum8, uvarint, uvarint, uvarint, id,
      -- a `PartRef`
      .bytes (unmarshals [id, uvarint, string, uvarint, uint32, uint32, string, enum8, string,
        uvarint]),
      enum8, string, uvarint]
  | .currentRecord => [uint32, id, uvarint, string, uvarint, uint32]
  | .uploadRecord => [uint32, id, uvarint, string, .bytes (unmarshals [string, string])]
  | .partRecord =>
    [uint32, uint32, id, uvarint, string, string, uvarint, uvarint, uint32, uint32, string, enum8,
      string, uvarint]
  | .clusterLayout =>
    let layoutNode := .bytes (unmarshals [string, string, string, uvarint, uvarint])
    [uint32, uvarint, uint32, string, layoutNode, layoutNode]
  | .encryptionPosture => [uint32, enum8, uvarint, uvarint]
  | .trustBundle => [uint32, uvarint, .bytes (unmarshals [uvarint, string]), uvarint]
  | .nodeRecord =>
    [uint32, string, string, string, uint32, uvarint, string, uvarint, string, uint32]

def restores (r : EncodedRow) : Bool :=
  match decodeRow r.key with
  | none => false
  | some t => unmarshals (recordKinds t) r.value

/-! ## The payload -/

structure SnapshotData where
  rows : List EncodedRow := []
  members : List (UInt64 × PeerInfo) := []
  removed : List UInt64 := []
deriving DecidableEq

def encodeMember (id : UInt64) (info : PeerInfo) : Bytes :=
  let b := appendVarint (appendTag [] 1 varintType) id
  let b := appendBytes (appendTag b 2 bytesType) info.node
  if info.dial = [] then b else appendBytes (appendTag b 3 bytesType) info.dial

/-- Members and removed identifiers are given in the order of the identifiers. -/
def encodeSnapshotData (data : SnapshotData) : Bytes :=
  let b := appendVarint (appendTag [] 1 varintType) 1
  let b := data.rows.foldl (fun b r =>
    let row := appendBytes (appendTag [] 1 bytesType) r.key
    let row := appendBytes (appendTag row 2 bytesType) r.value
    appendBytes (appendTag b 2 bytesType) row) b
  let b := data.members.foldl (fun b m =>
    appendBytes (appendTag b 3 bytesType) (encodeMember m.1 m.2)) b
  data.removed.foldl (fun b id => appendVarint (appendTag b 4 varintType) id) b

def decodeMember : FieldReader Unit (UInt64 × PeerInfo) where
  varint acc num v := .ok (if num = 1 then (v, acc.2) else acc)
  bytes acc num v :=
    match num with
    | 2 => .ok (acc.1, { acc.2 with node := v })
    | 3 => .ok (acc.1, { acc.2 with dial := v })
    | _ => .ok acc

def decodeSnapshotRow : FieldReader Unit EncodedRow where
  varint _ _ _ := .error ()
  bytes acc num v :=
    match num with
    | 1 => .ok { acc with key := v }
    | 2 => .ok { acc with value := v }
    | _ => .ok acc
  other _ := some ()

/-- The maps of the code are lists here, with the last binding of a key at the end. -/
def readSnapshotData : FieldReader Unit SnapshotData where
  varint acc num v := .ok (if num = 4 then { acc with removed := acc.removed ++ [v] } else acc)
  bytes acc num v :=
    match num with
    | 2 => do
      let r ← decodeSnapshotRow.read () ⟨[], []⟩ v
      if restores r then .ok { acc with rows := acc.rows ++ [r] } else .error ()
    | 3 => do
      let m ← decodeMember.read () (0, {}) v
      .ok { acc with members := acc.members ++ [m] }
    | _ => .ok acc

def decodeSnapshotData (b : Bytes) : Except Unit SnapshotData := readSnapshotData.read () {} b

/-! ## The round trip -/

omit [Protowire] in
def snapshotRowFields (r : EncodedRow) : List Field := [⟨1, .bytes r.key⟩, ⟨2, .bytes r.value⟩]

omit [Protowire] in
def memberFields (m : UInt64 × PeerInfo) : List Field :=
  [⟨1, .varint m.1⟩, ⟨2, .bytes m.2.node⟩] ++
    if m.2.dial = [] then [] else [⟨3, .bytes m.2.dial⟩]

def snapshotRow (r : EncodedRow) : Field := ⟨2, .bytes (encodeFields (snapshotRowFields r))⟩

def snapshotDataFields (data : SnapshotData) : List Field :=
  [⟨1, .varint 1⟩] ++ (data.rows.map snapshotRow ++
    (data.members.map (fun m => ⟨3, .bytes (encodeFields (memberFields m))⟩) ++
      data.removed.map (fun id => ⟨4, .varint id⟩)))

variable [LawfulProtowire]

theorem encodeMember_eq (m : UInt64 × PeerInfo) :
    encodeMember m.1 m.2 = encodeFields (memberFields m) := by
  unfold encodeMember memberFields
  simp only [appendVarint_appendTag, appendBytes_appendTag, encodeFields_append]
  split_ifs <;> simp

theorem encodeSnapshotData_eq (data : SnapshotData) :
    encodeSnapshotData data = encodeFields (snapshotDataFields data) := by
  unfold encodeSnapshotData snapshotDataFields
  dsimp only
  rw [foldl_appendField (g := fun id => ⟨4, .varint id⟩)
    (fun b id => appendVarint_appendTag b 4 id),
    foldl_appendField (g := fun m => ⟨3, .bytes (encodeFields (memberFields m))⟩)
      (fun b m => by rw [encodeMember_eq, appendBytes_appendTag]),
    foldl_appendField (g := snapshotRow) (fun b r => by
      simp only [appendBytes_appendTag, List.nil_append, ← encodeFields_append]
      rfl),
    appendVarint_appendTag]
  simp only [encodeFields_append, List.nil_append, List.append_assoc]

theorem decodeSnapshotRow_encode {r : EncodedRow}
    (hsize : (encodeFields (snapshotRowFields r)).length < 2 ^ 63) :
    decodeSnapshotRow.read () ⟨[], []⟩ (encodeFields (snapshotRowFields r)) = .ok r := by
  rw [decodeSnapshotRow.read_encodeFields () ?_ (size_lt_of_mem_fields hsize (Nat.two_pow_pos 63))]
  · rfl
  · intro f hf
    simp only [snapshotRowFields, List.mem_cons, List.not_mem_nil, or_false] at hf
    rcases hf with rfl | rfl <;> exact Field.numbered_mk (by decide) _

theorem decodeMember_encode {m : UInt64 × PeerInfo}
    (hsize : (encodeFields (memberFields m)).length < 2 ^ 63) :
    decodeMember.read () (0, {}) (encodeFields (memberFields m)) = .ok m := by
  rw [decodeMember.read_encodeFields () ?_ (size_lt_of_mem_fields hsize (Nat.two_pow_pos 63))]
  · obtain ⟨id, node, dial⟩ := m
    unfold memberFields
    split_ifs with hdial
    · dsimp only at hdial
      rw [hdial]
      rfl
    · rfl
  · intro f hf
    simp only [memberFields, List.mem_append, List.mem_cons, List.not_mem_nil, or_false,
      List.mem_ite_nil_left] at hf
    rcases hf with (rfl | rfl) | ⟨-, rfl⟩ <;> exact Field.numbered_mk (by decide) _

theorem decodeSnapshotData_encode {data : SnapshotData}
    (hsize : (encodeSnapshotData data).length < 2 ^ 63)
    (hrows : ∀ r ∈ data.rows, restores r = true) :
    decodeSnapshotData (encodeSnapshotData data) = .ok data := by
  rw [encodeSnapshotData_eq] at hsize
  have hbytes : ∀ num v, (⟨num, .bytes v⟩ : Field) ∈ snapshotDataFields data → v.length < 2 ^ 63 :=
    fun num v h => (length_le_of_mem_fields h).trans_lt hsize
  rw [encodeSnapshotData_eq, decodeSnapshotData, readSnapshotData.read_encodeFields () ?nums
    (size_lt_of_mem_fields hsize (Nat.two_pow_pos 63))]
  case nums =>
    intro f hf
    simp only [snapshotDataFields, snapshotRow, List.mem_append, List.mem_singleton,
      List.mem_map] at hf
    rcases hf with rfl | ⟨r, -, rfl⟩ | ⟨m, -, rfl⟩ | ⟨id, -, rfl⟩ <;>
      exact Field.numbered_mk (by decide) _
  have hrow : (data.rows.map snapshotRow).foldlM readSnapshotData.field {} =
      .ok ⟨data.rows, [], []⟩ := by
    refine foldlM_collect (fun rs => SnapshotData.mk rs [] []) (fun r hr rs => ?_) []
    have hread := decodeSnapshotRow_encode (hbytes 2 _ (by
      simp only [snapshotDataFields, List.mem_append, List.mem_map]
      exact Or.inr (Or.inl ⟨r, hr, rfl⟩)))
    show (decodeSnapshotRow.read () ⟨[], []⟩ _ >>= _) = _
    rw [hread, bind_ok, if_pos (hrows r hr)]
  have hmember : (data.members.map (fun m => (⟨3, .bytes (encodeFields (memberFields m))⟩ : Field))
      ).foldlM readSnapshotData.field ⟨data.rows, [], []⟩ = .ok ⟨data.rows, data.members, []⟩ := by
    refine foldlM_collect (fun ms => SnapshotData.mk data.rows ms []) (fun m hm ms => ?_) []
    have hread := decodeMember_encode (hbytes 3 _ (by
      simp only [snapshotDataFields, List.mem_append, List.mem_map]
      exact Or.inr (Or.inr (Or.inl ⟨m, hm, rfl⟩))))
    show (decodeMember.read () (0, {}) _ >>= _) = _
    rw [hread, bind_ok]
  simp only [snapshotDataFields, List.foldlM_append]
  have hversion : [(⟨1, .varint 1⟩ : Field)].foldlM readSnapshotData.field {} = .ok {} := rfl
  rw [hversion, bind_ok, hrow, bind_ok, hmember, bind_ok]
  exact foldlM_collect (SnapshotData.mk data.rows data.members) (fun _ _ _ => rfl) []

/-! ## Rows of buckets -/

theorem unmarshals_encodeFields {kinds : List FieldKind} {fs : List Field}
    (hnums : ∀ f ∈ fs, f.Numbered) (hsize : (encodeFields fs).length < 2 ^ 63)
    (h : ∀ f ∈ fs, (unmarshalFields kinds).field () f = .ok ()) :
    unmarshals kinds (encodeFields fs) = true := by
  have hcollect : (fs.map id).foldlM (unmarshalFields kinds).field () = .ok () :=
    foldlM_collect (fun _ => ()) (fun f hf _ => h f hf) []
  rw [List.map_id] at hcollect
  rw [unmarshals, FieldReader.read_encodeFields _ () hnums
    (size_lt_of_mem_fields hsize (Nat.two_pow_pos 63)), hcollect]
  rfl

theorem restores_bucketConfig {c : BucketConfig} (hname : 0 ∉ c.name) (hunknown : c.unknown = [])
    (hsize : (marshalRecord (.bucketConfig c)).length < 2 ^ 63) :
    restores ⟨bucketRowKey c.name, marshalRecord (.bucketConfig c)⟩ = true := by
  have hkey : decodeRow (bucketRowKey c.name) = some .bucketConfig :=
    @decodeRow_encode (.bucket c.name) hname
  have hvalue : marshalRecord (.bucketConfig c) = encodeFields (bucketConfigFields c) := by
    rw [marshalRecord_eq]
    show _ ++ c.unknown = _
    rw [hunknown, List.append_nil]
    rfl
  rw [hvalue] at hsize
  simp only [restores, hkey, hvalue]
  refine unmarshals_encodeFields (fun f hf => ?_) hsize (fun f hf => ?_)
  all_goals
    simp only [bucketConfigFields, uvarintField, bytesField, boolField, List.mem_append,
      List.mem_ite_nil_left, List.mem_ite_nil_right, List.mem_singleton] at hf
    rcases hf with ⟨-, rfl⟩ | ⟨-, rfl⟩ | ⟨-, rfl⟩ | ⟨-, rfl⟩ | ⟨-, rfl⟩ | ⟨-, rfl⟩ | ⟨-, rfl⟩ |
      ⟨-, rfl⟩
  all_goals first
    | exact Field.numbered_mk (by decide) _
    | rfl
    | exact if_pos (UInt64.toNat_lt _)
    | exact if_pos (UInt32.toNat_lt _)
    | exact if_pos (UInt8.toNat_lt _)

theorem length_encodeSnapshotData_of_perm {rows rows' : List EncodedRow} {r : EncodedRow}
    (h : rows.Perm (r :: rows')) (members : List (UInt64 × PeerInfo)) (removed : List UInt64) :
    (encodeSnapshotData ⟨rows, members, removed⟩).length =
      (encodeSnapshotData ⟨rows', members, removed⟩).length + (snapshotRow r).encode.length := by
  have hrows : (encodeFields (rows.map snapshotRow)).length =
      (snapshotRow r).encode.length + (encodeFields (rows'.map snapshotRow)).length := by
    rw [← List.length_append]
    exact ((h.map snapshotRow).flatMap_right Field.encode).length_eq
  simp only [encodeSnapshotData_eq, snapshotDataFields, encodeFields_append, List.length_append,
    hrows]
  omega

end Codec

end Hamster.Raftnode
