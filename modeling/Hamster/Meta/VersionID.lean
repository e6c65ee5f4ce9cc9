import Hamster.CodeLib.BigEndian

/-!
# Version identifiers

`internal/meta/vid.go`.  A version identifier is an opaque 16-byte value that
starts life as a UUIDv7.  `Compare` orders identifiers as big-endian 128-bit
numbers and `Next` adds one, which is the bump that keeps a version list in
commit order.

`toNat` is the number an identifier spells.  Every ordering argument in the
development is an argument about `toNat`: `compare_le_zero_iff` and
`toNat_next` are the bridge.

`Next` wraps at the all-ones value.  A minted UUIDv7 stays clear of that
value by `2 ^ 79` (`IsUUIDv7.toNat_lt`), because its version nibble is `7`.
-/

namespace Hamster.Meta

open CodeLib

structure VersionID where
  bytes : Bytes
  length_eq : bytes.length = 16
deriving DecidableEq

namespace VersionID

def zero : VersionID := ⟨List.replicate 16 0, by simp⟩

instance : Inhabited VersionID := ⟨zero⟩

def toNat (v : VersionID) : Nat := beNat v.bytes

/-- `bytes.Compare` on the two identifiers: negative, zero or positive. -/
def compare (v o : VersionID) : Int :=
  if v.bytes < o.bytes then -1 else if v.bytes = o.bytes then 0 else 1

def next (v : VersionID) : VersionID :=
  ⟨increment v.bytes, by simp [v.length_eq]⟩

def isZero (v : VersionID) : Bool := v = zero

/-- Flip every bit, so that the newest identifier sorts first. -/
def complement (v : VersionID) : VersionID :=
  ⟨CodeLib.complement v.bytes, by simp [v.length_eq]⟩

/-- The identifier of a small number, for concrete inputs. -/
def ofByte (b : UInt8) : VersionID := ⟨List.replicate 15 0 ++ [b], by simp⟩

/-! ## Order -/

theorem toNat_lt (v : VersionID) : v.toNat < 2 ^ 128 := by
  have h := beNat_lt v.bytes
  rw [v.length_eq] at h
  exact lt_of_lt_of_eq h (by norm_num)

variable {v o : VersionID}

theorem toNat_inj : v.toNat = o.toNat ↔ v = o := by
  constructor
  · intro h
    have hbytes := beNat_inj (v.length_eq.trans o.length_eq.symm) h
    cases v
    cases o
    simpa using hbytes
  · rintro rfl
    rfl

theorem bytes_lt_iff {v o : VersionID} : v.bytes < o.bytes ↔ v.toNat < o.toNat :=
  lt_iff_beNat_lt (v.length_eq.trans o.length_eq.symm)

/-- `Compare` is at most zero exactly when the first identifier is not above
the second. -/
theorem compare_le_zero_iff : v.compare o ≤ 0 ↔ v.toNat ≤ o.toNat := by
  have hlt := @bytes_lt_iff v o
  rw [compare]
  split
  · rename_i h
    have := hlt.mp h
    omega
  · rename_i hnlt
    split
    · rename_i heq
      have : v.toNat = o.toNat := congrArg beNat heq
      omega
    · rename_i hne
      have hne' : v.toNat ≠ o.toNat :=
        fun h => hne (beNat_inj (v.length_eq.trans o.length_eq.symm) h)
      have : ¬ v.toNat < o.toNat := fun h => hnlt (hlt.mpr h)
      omega

theorem toNat_next (v : VersionID) : v.next.toNat = (v.toNat + 1) % 2 ^ 128 := by
  have h := beNat_increment v.bytes
  rw [v.length_eq] at h
  exact h.trans (by norm_num [toNat])

theorem toNat_next_of_lt (h : v.toNat + 1 < 2 ^ 128) : v.next.toNat = v.toNat + 1 := by
  rw [toNat_next, Nat.mod_eq_of_lt h]

theorem complement_bytes_lt_iff : v.complement.bytes < o.complement.bytes ↔ o.toNat < v.toNat := by
  rw [← bytes_lt_iff]
  exact complement_lt_complement_iff (v.length_eq.trans o.length_eq.symm)

theorem complement_inj : v.complement = o.complement ↔ v = o := by
  constructor
  · intro h
    have hbytes := congrArg (fun x => CodeLib.complement x.bytes) h
    simp only [complement, complement_complement] at hbytes
    cases v
    cases o
    simpa using hbytes
  · rintro rfl
    rfl

/-! ## Minted identifiers -/

/-- The version nibble is `7` and the variant bits are `10` (RFC 9562). -/
def IsUUIDv7 (v : VersionID) : Prop :=
  v.bytes.getD 6 0 &&& 0xf0 = 0x70 ∧ v.bytes.getD 8 0 &&& 0xc0 = 0x80
deriving Decidable

/-- Mint an identifier from a clock reading in milliseconds and two draws of
the generator.  Six timestamp bytes, then ten random bytes with the version
and variant bits set. -/
def newVersionID (ms r₁ r₂ : UInt64) : VersionID where
  bytes :=
    [ (ms >>> 40).toUInt8, (ms >>> 32).toUInt8, (ms >>> 24).toUInt8
    , (ms >>> 16).toUInt8, (ms >>> 8).toUInt8, ms.toUInt8
    , (r₁ >>> 8).toUInt8 &&& 0x0f ||| 0x70, r₁.toUInt8
    , (r₂ >>> 56).toUInt8 &&& 0x3f ||| 0x80, (r₂ >>> 48).toUInt8
    , (r₂ >>> 40).toUInt8, (r₂ >>> 32).toUInt8, (r₂ >>> 24).toUInt8
    , (r₂ >>> 16).toUInt8, (r₂ >>> 8).toUInt8, r₂.toUInt8 ]
  length_eq := rfl

private theorem toNat_lt_of_nibble {b : UInt8} (h : b &&& 0xf0 = 0x70) : b.toNat < 128 := by
  have hall : ∀ b : BitVec 8, b &&& 0xf0 = 0x70 → b.toNat < 128 := by decide +kernel
  exact hall b.toBitVec (UInt8.toBitVec_inj.mpr h)

theorem IsUUIDv7.toNat_lt (h : v.IsUUIDv7) : v.toNat < 2 ^ 128 - 2 ^ 79 := by
  obtain ⟨bytes, hlen⟩ := v
  -- split the sixteen bytes around the version byte
  have hsplit : bytes = bytes.take 6 ++ bytes.getD 6 0 :: bytes.drop 7 := by
    have hget : bytes.getD 6 0 = bytes[6] := by
      simp [List.getD_eq_getElem?_getD, hlen]
    rw [hget, ← List.drop_eq_getElem_cons, List.take_append_drop]
  have hhead := beNat_lt (bytes.take 6)
  have htail := beNat_lt (bytes.drop 7)
  have hnibble := toNat_lt_of_nibble h.1
  have hdrop : (bytes.drop 7).length = 9 := by simp [hlen]
  have htake : (bytes.take 6).length = 6 := by simp [hlen]
  have hval : beNat bytes = beNat (bytes.take 6) * 256 ^ 10 +
      ((bytes.getD 6 0).toNat * 256 ^ 9 + beNat (bytes.drop 7)) := by
    conv_lhs => rw [hsplit]
    rw [beNat_append, List.length_cons, hdrop, beNat, hdrop]
  rw [htake] at hhead
  rw [hdrop] at htail
  change beNat bytes < _
  rw [hval]
  norm_num at hhead htail hnibble ⊢
  omega

end VersionID

end Hamster.Meta
