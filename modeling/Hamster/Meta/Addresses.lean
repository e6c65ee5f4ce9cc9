import Hamster.Meta.RowInvariant
import Hamster.Meta.Uploads

/-!
# Data addresses

A `DataAddress` is one erasure-coded set of shards that the metadata names: an
object stored whole, a part of a multipart object, or an uploaded part of an
upload in progress.  `StoredAddress` says which addresses a store names;
`mem_rowAddresses` finds the row.

A store comes to name a data ID through the proposals that introduce it, and
through no others (`not_names_applyMem`).  The addresses themselves come from PUTs and
uploaded parts, and a completed upload keeps those of its parts
(`mem_storedAddresses_applyMem`).
-/

namespace Hamster.Meta

open CodeLib

structure DataAddress where
  dataID : VersionID
  partition : UInt64
  ecDataShards : UInt32
  ecParityShards : UInt32
deriving DecidableEq

def DataAddress.width (a : DataAddress) : Nat := a.ecDataShards.toNat + a.ecParityShards.toNat

def PartRef.address (p : PartRef) : DataAddress :=
  ⟨p.dataID, p.partition, p.ecDataShards, p.ecParityShards⟩

def PartRecord.address (p : PartRecord) : DataAddress :=
  ⟨p.dataID, p.partition, p.ecDataShards, p.ecParityShards⟩

/-- The sets of shards of a version: its parts, or its own. -/
def VersionEntry.addresses (e : VersionEntry) : List DataAddress :=
  if e.parts.length > 0 then e.parts.map PartRef.address
  else [⟨e.dataID, e.partition, e.ecDataShards, e.ecParityShards⟩]

inductive StoredAddress (s : Store) (a : DataAddress) : Prop where
  | version {b k : Bytes} {e : VersionEntry} (h : versionAt s b k e.versionID = some e)
      (hkind : e.kind = kindObject) (ha : a ∈ e.addresses)
  | part {b k : Bytes} {uid : VersionID} {n : UInt32} {pr : PartRecord}
      (h : partAt s b k uid n = some pr) (ha : a = pr.address)

def rowAddresses : Record → List DataAddress
  | .versionEntry e => if e.kind = kindObject then e.addresses else []
  | .partRecord pr => [pr.address]
  | _ => []

theorem mem_rowAddresses {s : Store} {a : DataAddress} (h : StoredAddress s a) :
    ∃ row ∈ s.rows, a ∈ rowAddresses row.2 := by
  cases h with
  | version h hkind ha =>
    refine ⟨(_, _), SortedKV.mem_rows.mpr (look_of_versionAt h), ?_⟩
    rw [rowAddresses, if_pos hkind]
    exact ha
  | part h ha =>
    exact ⟨(_, _), SortedKV.mem_rows.mpr (look_of_partAt h), List.mem_singleton.mpr ha⟩

/-! ## Data IDs and addresses -/

def Names (s : Store) (d : VersionID) : Prop :=
  ∃ row ∈ s.rows, ∃ a ∈ rowAddresses row.2, a.dataID = d
deriving Decidable

/-- The data ID that a proposal brings into the metadata. -/
def Proposal.introduced : Proposal → Option VersionID
  | .putObject p => some p.versionID
  | .uploadPart p => some p.dataID
  | .reEncodeObject p => some p.dataID
  | _ => none

def storedAddresses (s : Store) : List DataAddress := s.rows.flatMap (fun row => rowAddresses row.2)

theorem mem_storedAddresses {s : Store} {a : DataAddress} (h : StoredAddress s a) :
    a ∈ storedAddresses s :=
  List.mem_flatMap.mpr (mem_rowAddresses h)

def Proposal.stores : Proposal → Option DataAddress
  | .putObject p => some ⟨p.versionID, p.partition, p.ecDataShards, p.ecParityShards⟩
  | .uploadPart p => some ⟨p.dataID, p.partition, p.ecDataShards, p.ecParityShards⟩
  | _ => none

/-- The proposal moves a stored object to another address. -/
def Proposal.reEncodes : Proposal → Bool
  | .reEncodeObject _ => true
  | _ => false

/-- The address of an object without shards of its own. -/
def DataAddress.zero : DataAddress := ⟨VersionID.zero, 0, 0, 0⟩

def Addressed (P : DataAddress → Prop) (v : Record) : Prop := ∀ a ∈ rowAddresses v, P a

section Addressed

variable {P : DataAddress → Prop} {s : Store} {p : Proposal}

theorem allRows_addressed : AllRows (Addressed P) s ↔ ∀ a ∈ storedAddresses s, P a := by
  constructor
  · intro h a ha
    obtain ⟨row, hrow, hmem⟩ := List.mem_flatMap.mp ha
    exact h row.1 row.2 (SortedKV.mem_rows.mp hrow) a hmem
  · intro h k v hget a ha
    exact h a (List.mem_flatMap.mpr ⟨(k, v), SortedKV.mem_rows.mpr hget, ha⟩)

theorem addressed_versionEntry {e : VersionEntry} :
    Addressed P (.versionEntry e) ↔ (e.kind = kindObject → ∀ a ∈ e.addresses, P a) := by
  show (∀ a ∈ if e.kind = kindObject then e.addresses else [], P a) ↔ _
  split
  next hkind => rw [forall_prop_of_true hkind]
  next hkind => simp [hkind]

theorem Rewritten.addressed {b k : Bytes} {vid : VersionID} {e e' : VersionEntry}
    (h : Rewritten b k vid e e' p)
    (hmoves : ∀ q partition, p = .reEncodeObject q →
      P ⟨q.dataID, partition, q.ecDataShards, q.ecParityShards⟩)
    (he : Addressed P (.versionEntry e)) : Addressed P (.versionEntry e') := by
  rw [addressed_versionEntry] at he ⊢
  cases h with
  | retention q _ _ _ heq | hold q _ heq | rewrapped q _ heq =>
    subst heq
    exact he
  | reEncoded q _ hwhole heq =>
    subst heq
    intro hkind a ha
    unfold VersionEntry.addresses at ha
    -- an object of parts is not re-encoded
    rw [if_neg (by simp [reEncodedEntry, hwhole.2])] at ha
    rw [List.mem_singleton.mp ha]
    exact hmoves q e.partition rfl

/-- The addresses in what a proposal writes: stored ones, the one that it commits, and
the one that it moves an object to. -/
theorem addressed_of_written (hs : AllRows (Addressed P) s) (hzero : P DataAddress.zero)
    (hstores : ∀ a, p.stores = some a → P a)
    (hmoves : ∀ q partition, p = .reEncodeObject q →
      P ⟨q.dataID, partition, q.ecDataShards, q.ecParityShards⟩)
    {v : Record} (h : Written s p v) : Addressed P v := by
  cases h with
  | put q cfg vid =>
    refine addressed_versionEntry.mpr (fun _ a ha => ?_)
    rw [List.mem_singleton.mp ha]
    exact hstores _ rfl
  | marker q cfg vid => exact addressed_versionEntry.mpr (fun hkind => by cases hkind)
  | rewrite hold hnew => exact hnew.addressed hmoves (hs _ _ hold)
  | part q =>
    intro a ha
    rw [List.mem_singleton.mp ha]
    exact hstores _ rfl
  | complete q cfg upload parts vid hparts =>
    refine addressed_versionEntry.mpr (fun _ a ha => ?_)
    change a ∈ (if (parts.map partRefFor).length > 0
      then (parts.map partRefFor).map PartRef.address else [DataAddress.zero]) at ha
    split at ha
    · rw [List.map_map] at ha
      obtain ⟨pr, hpr, rfl⟩ := List.mem_map.mp ha
      obtain ⟨key, hget⟩ := hparts pr hpr
      exact hs key _ hget pr.address (List.mem_singleton_self _)
    · rw [List.mem_singleton.mp ha]
      exact hzero
  | system h => cases h <;> simp [Addressed, rowAddresses]
  | _ => simp [Addressed, rowAddresses]

theorem mem_storedAddresses_applyMem (hp : p.reEncodes = false) {a : DataAddress}
    (ha : a ∈ storedAddresses (applyMem s p).2) :
    a ∈ storedAddresses s ∨ p.stores = some a ∨ a = DataAddress.zero := by
  have hold : AllRows (Addressed fun a => a ∈ storedAddresses s ∨ p.stores = some a ∨
      a = DataAddress.zero) s := allRows_addressed.mpr (fun _ => Or.inl)
  refine allRows_addressed.mp (allRows_applyMem hold fun v hv => addressed_of_written hold
    (Or.inr (Or.inr rfl)) (fun _ h => Or.inr (Or.inl h)) (fun q _ hq => ?_) hv) a ha
  subst hq
  cases hp

theorem not_names_iff {d : VersionID} : ¬ Names s d ↔ AllRows (Addressed (·.dataID ≠ d)) s := by
  constructor
  · intro h k v hget a ha hd
    exact h ⟨(k, v), SortedKV.mem_rows.mpr hget, a, ha, hd⟩
  · rintro h ⟨row, hrow, a, ha, hd⟩
    exact h row.1 row.2 (SortedKV.mem_rows.mp hrow) a ha hd

theorem not_names_applyMem {d : VersionID} (hd : d ≠ VersionID.zero) (hp : p.introduced ≠ some d)
    (hs : ¬ Names s d) : ¬ Names (applyMem s p).2 d := by
  have hold := not_names_iff.mp hs
  refine not_names_iff.mpr (allRows_applyMem hold fun v hv => addressed_of_written hold hd.symm
    (fun a ha => ?_) (fun q _ hq => ?_) hv)
  · have hintroduced : p.introduced = some a.dataID := by
      cases p <;> cases ha <;> rfl
    exact fun heq => hp (hintroduced.trans (congrArg some heq))
  · subst hq
    exact fun heq => hp (congrArg some heq)

end Addressed

end Hamster.Meta
