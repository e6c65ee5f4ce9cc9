import Hamster.CodeLib.Bytes
import Mathlib.Data.List.Forall2

/-!
# Erasure codes

The interface of a Reed-Solomon library.  An encoder for `k` data slices and
`m` parity slices computes the parity, and rebuilds the data slices from any
`k` slices of the `k + m`.  A slice that is missing is empty.

`Encoder.Lawful` is what the library's documentation promises, for one pair of
`k` and `m`.  With one data slice the code is replication, and `replication` is
that code.  `xorParity` is the code of two data slices and one parity slice.
-/

namespace Hamster.CodeLib

/-- An encoder of the library.  `encode` gets the data slices and gives the
parity slices; `reconstructData` gets all slices, some of them empty, and gives
them with the data slices filled in.  `none` is an error. -/
structure Encoder where
  encode : List Bytes → Option (List Bytes)
  reconstructData : List Bytes → Option (List Bytes)

/-- The library: `new k m` is an encoder for `k` data and `m` parity slices. -/
class ReedSolomon where
  new : Nat → Nat → Option Encoder

/-- Some of the slices, and nothing at the other places. -/
def PartOf (slices all : List Bytes) : Prop :=
  List.Forall₂ (fun b a => b = [] ∨ b = a) slices all

/-- The slices that are there. -/
def present (slices : List Bytes) : Nat := slices.countP (fun b => !b.isEmpty)

/-- What the documentation promises of `k` data slices of one length, not zero:
there are `m` parity slices of the same length, and any `k` of all slices give
the data slices back. -/
def Encoder.Lawful (enc : Encoder) (k m : Nat) : Prop :=
  ∀ (data : List Bytes) (l : Nat), 0 < l → data.length = k → (∀ d ∈ data, d.length = l) →
    ∃ parity, enc.encode data = some parity ∧ parity.length = m ∧ (∀ p ∈ parity, p.length = l) ∧
      ∀ slices, PartOf slices (data ++ parity) → k ≤ present slices →
        ∃ out, enc.reconstructData slices = some out ∧ out.take k = data

/-- The library has a lawful encoder for `k` and `m`. -/
def Reconstructs [ReedSolomon] (k m : Nat) : Prop :=
  ∃ enc, ReedSolomon.new k m = some enc ∧ enc.Lawful k m

/-! ## Replication -/

/-- One data slice and `m` copies of it. -/
def replication (m : Nat) : Encoder where
  encode data :=
    match data with
    | [d] => some (List.replicate m d)
    | _ => none
  reconstructData slices :=
    match slices.find? (fun b => !b.isEmpty) with
    | none => none
    | some d => some (d :: slices.drop 1)

theorem replication_lawful (m : Nat) : (replication m).Lawful 1 m := by
  intro data l hl hdata hlen
  obtain ⟨d, rfl⟩ := List.length_eq_one_iff.mp hdata
  have hd := hlen d List.mem_cons_self
  refine ⟨List.replicate m d, rfl, List.length_replicate, ?_, ?_⟩
  · intro p hp
    rw [List.eq_of_mem_replicate hp, hd]
  intro slices hpart hpresent
  have hall : [d] ++ List.replicate m d = List.replicate (m + 1) d := rfl
  rw [hall] at hpart
  have hmem : ∀ b ∈ slices, b = [] ∨ b = d := by
    intro b hb
    obtain ⟨i, hi, rfl⟩ := List.getElem_of_mem hb
    have hi' : i < (List.replicate (m + 1) d).length := hpart.length_eq ▸ hi
    have h := hpart.get hi hi'
    rw [List.get_eq_getElem, List.get_eq_getElem, List.getElem_replicate] at h
    exact h
  match hfind : slices.find? (fun b => !b.isEmpty) with
  | none =>
    have hnone : present slices = 0 := by
      rw [present, List.countP_eq_zero]
      intro b hb
      simpa using List.find?_eq_none.mp hfind b hb
    omega
  | some b =>
    have hne : b ≠ [] := by simpa using List.find?_some hfind
    obtain rfl := (hmem b (List.mem_of_find?_eq_some hfind)).resolve_left hne
    refine ⟨b :: slices.drop 1, ?_, rfl⟩
    show (match slices.find? (fun b => !b.isEmpty) with
      | none => none
      | some d => some (d :: slices.drop 1)) = _
    rw [hfind]

/-! ## One parity slice -/

/-- Two data slices and their sum, bit by bit. -/
def xorParity : Encoder where
  encode
    | [a, b] => some [List.zipWith (· ^^^ ·) a b]
    | _ => none
  reconstructData
    | [[], b, p] => some [List.zipWith (· ^^^ ·) p b, b, p]
    | [a, [], p] => some [a, List.zipWith (· ^^^ ·) a p, p]
    | slices => some slices

theorem zipWith_xor_right {a b : Bytes} (h : a.length = b.length) :
    List.zipWith (· ^^^ ·) (List.zipWith (· ^^^ ·) a b) b = a := by
  refine List.ext_getElem (by simp [h]) (fun i _ _ => ?_)
  rw [List.getElem_zipWith, List.getElem_zipWith, UInt8.xor_assoc, UInt8.xor_self,
    UInt8.xor_zero]

theorem zipWith_xor_left {a b : Bytes} (h : a.length = b.length) :
    List.zipWith (· ^^^ ·) a (List.zipWith (· ^^^ ·) a b) = b := by
  refine List.ext_getElem (by simp [h]) (fun i _ _ => ?_)
  rw [List.getElem_zipWith, List.getElem_zipWith, ← UInt8.xor_assoc, UInt8.xor_self,
    UInt8.zero_xor]

theorem xorParity_lawful : xorParity.Lawful 2 1 := by
  intro data l hl hdata hlen
  obtain ⟨a, b, rfl⟩ := List.length_eq_two.mp hdata
  have ha := hlen a (by simp)
  have hb := hlen b (by simp)
  refine ⟨_, rfl, rfl, by simp [ha, hb], fun slices hpart hpresent => ?_⟩
  have hsame : a.length = b.length := ha.trans hb.symm
  obtain ⟨c, cs, rfl⟩ := List.exists_cons_of_length_pos (ha ▸ hl)
  obtain ⟨d, ds, rfl⟩ := List.exists_cons_of_length_pos (hb ▸ hl)
  match slices, hpart with
  | [x, y, z], .cons hx (.cons hy (.cons hz .nil)) =>
    rcases hx with rfl | rfl <;> rcases hy with rfl | rfl
    · have hone : present [z] ≤ 1 := List.countP_le_length
      have htwo : present [[], [], z] = present [z] := by simp [present]
      omega
    · rcases hz with rfl | rfl
      · exact absurd hpresent (by simp [present])
      · exact ⟨_, rfl, congrArg (fun x => [x, d :: ds]) (zipWith_xor_right hsame)⟩
    · rcases hz with rfl | rfl
      · exact absurd hpresent (by simp [present])
      · exact ⟨_, rfl, congrArg (fun x => [c :: cs, x]) (zipWith_xor_left hsame)⟩
    · exact ⟨_, rfl, rfl⟩

end Hamster.CodeLib
