import Hamster.Meta.RowInvariant

/-!
# The rows that a proposal leaves alone

A proposal leaves every row alone but those that `Proposal.Touches` lists
(`get_applyMem`).  The first byte of a key tells the family of its row,
and with it which proposals may have written it (`Proposal.cases_of_touches`).
-/

namespace Hamster.Meta

open CodeLib

def RowKey.System : RowKey → Prop
  | .clusterLayout | .encryptionPosture | .trustBundle | .node _ => True
  | _ => False

theorem RowKey.System.shape {r : RowKey} (h : r.System) : r.encode.head? = some 115 ∧ r.Plain := by
  cases r with
  | clusterLayout | encryptionPosture | trustBundle | node => exact ⟨rfl, trivial⟩
  | _ => cases h

variable {p : Proposal}

theorem Proposal.system_systemRow {r : RowKey} (h : p.systemRow = some r) : r.System := by
  cases p <;> cases h <;> trivial

def Proposal.multipart : Proposal → Bool
  | .createMultipartUpload _ | .uploadPart _ | .completeMultipartUpload _
  | .abortMultipartUpload _ => true
  | _ => false

variable {key b k : Bytes}

theorem OfObject.head? (h : OfObject b k key) : key.head? = some 118 ∨ key.head? = some 99 := by
  rcases h with ⟨vid, rfl⟩ | rfl
  · exact Or.inl rfl
  · exact Or.inr rfl

theorem head?_of_uploadRowKey {uid : VersionID} (h : uploadRowKey b k uid <+: key) :
    key.head? = some 117 := by
  obtain ⟨rest, rfl⟩ := h
  simp [uploadRowKey]

theorem Proposal.cases_of_touches (h : p.Touches key) :
    key.head? ∈ [some 98, some 118, some 99] ∨ (p.multipart = true ∧ key.head? = some 117) ∨
      ∃ r, p.systemRow = some r ∧ key = r.encode := by
  have hobject {b k : Bytes} (hof : OfObject b k key) :
      key.head? ∈ [some 98, some 118, some 99] := by
    rcases hof.head? with h | h <;> simp [h]
  cases p with
  | createBucket | deleteBucket | setBucketVersioning | setObjectLockConfiguration =>
    cases h
    exact Or.inl List.mem_cons_self
  | putObject | deleteObject | deleteVersion | updateRetention | updateLegalHold | reEncodeObject
  | rewrapDEK => exact Or.inl (hobject h)
  | createMultipartUpload | uploadPart | abortMultipartUpload =>
    exact Or.inr (Or.inl ⟨rfl, head?_of_uploadRowKey h⟩)
  | completeMultipartUpload =>
    rcases h with h | h
    · exact Or.inl (hobject h)
    · exact Or.inr (Or.inl ⟨rfl, head?_of_uploadRowKey h⟩)
  | _ => exact Or.inr (Or.inr h)

end Hamster.Meta
