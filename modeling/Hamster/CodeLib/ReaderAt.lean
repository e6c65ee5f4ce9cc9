import Hamster.CodeLib.Blocks
import Hamster.CodeLib.Bytes

/-!
# Readers at an offset

Go's `io.ReaderAt`: a read gives the bytes it got and, if they are fewer than
asked for, why.  A reader that keeps a cache passes its state along
(`StatefulReaderAt`).

`readBlocks` is the loop of a reader that gets its content block by block.
Indices and offsets are `int64`, as `Int` that wraps; a step that would crash
the program, and one that would never end, are faults of their own.  `readBlocks_eq` is the
result for a reader whose blocks are those of one content: the window that was
asked for, up to the end of the content.
-/

namespace Hamster.CodeLib

/-! ## Signed 64-bit integers -/

/-- The value that arithmetic on `int64` gives where the exact result is `x`. -/
def wrap64 (x : Int) : Int := (x + 2 ^ 63) % 2 ^ 64 - 2 ^ 63

theorem wrap64_of_mem {x : Int} (hlow : -2 ^ 63 ≤ x) (hhigh : x < 2 ^ 63) : wrap64 x = x := by
  unfold wrap64
  omega

variable {n : Nat}

theorem wrap64_natCast (h : n < 2 ^ 63) : wrap64 (n : Int) = n :=
  wrap64_of_mem (by omega) (by omega)

/-- A sum of two sizes that is not negative did not wrap. -/
theorem lt_of_wrap64_add_nonneg {a b : Nat} (ha : a < 2 ^ 63) (hb : b < 2 ^ 63)
    (h : 0 ≤ wrap64 ((a : Int) + b)) : a + b < 2 ^ 63 := by
  unfold wrap64 at h
  omega

/-- The conversion `int64(v)`. -/
def int64 (v : UInt64) : Int := wrap64 v.toNat

/-- The conversion `uint64(x)`. -/
def uint64 (x : Int) : UInt64 := UInt64.ofNat (x % 2 ^ 64).toNat

theorem toNat_uint64_natCast (h : n < 2 ^ 64) : (uint64 n).toNat = n := by
  rw [uint64, UInt64.toNat_ofNat']
  omega

theorem int64_uint64_natCast (h : n < 2 ^ 63) : int64 (uint64 n) = n := by
  rw [int64, toNat_uint64_natCast (by omega), wrap64_natCast h]

/-! ## Reads -/

/-- Why a read gave fewer bytes than asked for. -/
inductive ReadError (ε : Type) where
  | eof
  | fault (e : ε)
deriving DecidableEq

structure ReadResult (ε : Type) where
  data : Bytes
  err : Option (ReadError ε)
deriving DecidableEq

/-- A reader whose content does not change: `readAt r n off` reads `n` bytes. -/
class ReaderAt (ρ : Type) (ε : outParam Type) where
  readAt : ρ → Nat → Int → ReadResult ε

/-- A reader with a state, such as a cache. -/
class StatefulReaderAt (σ : Type) (ε : outParam Type) where
  readAt : σ → Nat → Int → ReadResult ε × σ

variable {ε σ : Type}

/-- What a read of `n` bytes at `off` gives when the content is `xs`. -/
def window (xs : Bytes) (n off : Nat) : ReadResult ε where
  data := (xs.drop off).take n
  err := if (xs.drop off).length < n then some .eof else none

/-- A full read: the bytes, or the cause of a short read.  An end of file is
`io.ErrUnexpectedEOF`, here `none`. -/
def ReadResult.full (res : ReadResult ε) (n : Nat) : Except (Option ε) Bytes :=
  if res.data.length < n then
    match res.err with
    | some (.fault e) => .error (some e)
    | _ => .error none
  else .ok res.data

variable {xs : Bytes}

theorem full_window {off : Nat} (h : off + n ≤ xs.length) :
    (window xs n off : ReadResult ε).full n = .ok ((xs.drop off).take n) := by
  have hlen : ¬ ((xs.drop off).take n).length < n := by
    rw [List.length_take, List.length_drop]
    omega
  exact if_neg hlen

/-- Every full read inside `xs` gives the bytes of `xs`. -/
def Holds {ρ : Type} [ReaderAt ρ ε] (r : ρ) (xs : Bytes) : Prop :=
  ∀ n off : Nat, off + n ≤ xs.length →
    (ReaderAt.readAt r n off).full n = .ok ((xs.drop off).take n)

/-- A reader whose states in `I` all read the content `xs`. -/
def Serves [StatefulReaderAt σ ε] (I : σ → Prop) (xs : Bytes) : Prop :=
  ∀ s, I s → ∀ n off : Nat, ∃ s', StatefulReaderAt.readAt s n off = (window xs n off, s') ∧ I s'

/-- The only error of a `bytes.Reader` besides the end. -/
inductive BytesReaderError where
  | negativeOffset
deriving DecidableEq

/-- `bytes.Reader`, as a reader at an offset. -/
structure BytesReader where
  content : Bytes
deriving DecidableEq

instance : ReaderAt BytesReader BytesReaderError where
  readAt r n off :=
    if off < 0 then ⟨[], some (.fault .negativeOffset)⟩
    else if off ≥ r.content.length then ⟨[], some .eof⟩
    else
      let data := (r.content.drop off.toNat).take n
      ⟨data, if data.length < n then some .eof else none⟩

theorem bytesReader_holds (xs : Bytes) : Holds (BytesReader.mk xs) xs := by
  intro n off h
  have hlen : ((xs.drop off).take n).length = n := by
    rw [List.length_take, List.length_drop]
    omega
  simp only [ReaderAt.readAt, if_neg (Int.not_lt.mpr (Int.natCast_nonneg off)),
    Int.toNat_natCast]
  rcases Nat.lt_or_ge off xs.length with hlt | hge
  · rw [if_neg (by omega)]
    exact if_neg (Nat.not_lt.mpr (Nat.le_of_eq hlen.symm))
  · obtain rfl : n = 0 := by omega
    rw [if_pos (by omega), List.take_zero]
    rfl

/-! ## Reading block by block -/

/-- The loop over the blocks that a read covers.  `want` bytes are still to be
read at `off`.  Every turn that goes on copies a byte at least, so the number
of bytes asked for bounds the turns. -/
def readBlocks (size blockSize : Int) (blockAt : σ → Int → Except ε Bytes × σ)
    (panicked endless : ε) : Nat → Nat → Int → Bytes → σ → ReadResult ε × σ
  | turns, want, off, acc, s =>
    if want = 0 then (⟨acc, none⟩, s)
    else if size ≤ off then (⟨acc, some .eof⟩, s)
    else
      match turns with
      | 0 => (⟨acc, some (.fault endless)⟩, s)
      | turns + 1 =>
        -- A division by zero.
        if blockSize = 0 then (⟨acc, some (.fault panicked)⟩, s)
        else
          let i := off.tdiv blockSize
          match blockAt s i with
          | (.error e, s') => (⟨acc, some (.fault e)⟩, s')
          | (.ok data, s') =>
            let start := off - i * blockSize
            -- A slice out of range.
            if start < 0 ∨ data.length < start then (⟨acc, some (.fault panicked)⟩, s')
            else
              let copied := (data.drop start.toNat).take want
              -- Nothing copied: the next turn is this one again.
              if copied = [] then (⟨acc, some (.fault endless)⟩, s')
              else
                readBlocks size blockSize blockAt panicked endless turns
                  (want - copied.length) (wrap64 (off + copied.length)) (acc ++ copied) s'

/-- What is read from one block is the head of what is asked for. -/
theorem take_drop_block (B : Nat) (xs : Bytes) (want off : Nat) :
    ((block B xs (off / B)).drop (off % B)).take want =
      (xs.drop off).take (min want (B - off % B)) := by
  have hoff : off / B * B + off % B = off := by rw [Nat.mul_comm, Nat.div_add_mod]
  rw [block, List.drop_take, List.drop_drop, hoff, List.take_take]

theorem sub_div_mul (off B : Nat) :
    (off : Int) - (off / B : Nat) * (B : Int) = (off % B : Nat) := by
  have h := Nat.div_add_mod off B
  rw [← Int.natCast_mul, Nat.mul_comm]
  omega

theorem not_out_of_range {B : Nat} (hB : 0 < B) {off : Nat} (hlt : off < xs.length) :
    ¬ (((off % B : Nat) : Int) < 0 ∨ ((block B xs (off / B)).length : Int) < (off % B : Nat)) := by
  have h := Nat.div_add_mod off B
  have hmod := Nat.mod_lt off hB
  rw [block, List.length_take, List.length_drop, Nat.mul_comm]
  omega

/-- A window is its first bytes and the window after them. -/
theorem window_split {want off : Nat} (hn : n ≤ want) (hxs : n ≤ (xs.drop off).length) :
    (window xs want off : ReadResult ε) =
      ⟨(xs.drop off).take n ++ (window xs (want - n) (off + n) : ReadResult ε).data,
        (window xs (want - n) (off + n)).err⟩ := by
  have hdrop : (xs.drop (off + n)).length = (xs.drop off).length - n := by
    rw [← List.drop_drop, List.length_drop]
  have hlt : (xs.drop (off + n)).length < want - n ↔ (xs.drop off).length < want := by omega
  have hdata : (xs.drop off).take want =
      (xs.drop off).take n ++ (xs.drop (off + n)).take (want - n) := by
    rw [← List.drop_drop, ← List.take_add, Nat.add_sub_cancel' hn]
  simp only [window, hlt, hdata]

theorem readBlocks_eq {B : Nat} (hB : 0 < B) (hxs : xs.length < 2 ^ 63)
    {blockAt : σ → Int → Except ε Bytes × σ} {I : σ → Prop}
    (hblock : ∀ s, I s → ∀ i : Nat, i * B < xs.length →
      ∃ s', blockAt s i = (.ok (block B xs i), s') ∧ I s')
    (panicked endless : ε) {turns want : Nat} (hturns : want ≤ turns) (off : Nat) (acc : Bytes)
    {s : σ} (hs : I s) :
    ∃ s', readBlocks xs.length B blockAt panicked endless turns want off acc s =
      (⟨acc ++ (window xs want off : ReadResult ε).data, (window xs want off).err⟩, s') ∧ I s' := by
  induction turns generalizing want off acc s with
  | zero =>
    obtain rfl := Nat.le_zero.mp hturns
    refine ⟨s, ?_, hs⟩
    rw [readBlocks, if_pos rfl]
    simp [window]
  | succ turns ih =>
    rw [readBlocks]
    rcases Nat.eq_zero_or_pos want with rfl | hwant
    · refine ⟨s, ?_, hs⟩
      rw [if_pos rfl]
      simp [window]
    rw [if_neg (by omega)]
    rcases Nat.lt_or_ge off xs.length with hlt | hge
    · rw [if_neg (by omega), if_neg (by omega)]
      have hdiv : (off : Int).tdiv B = (off / B : Nat) := by simp [Int.tdiv_eq_ediv]
      obtain ⟨s', hread, hs'⟩ := hblock s hs (off / B)
        (Nat.lt_of_le_of_lt (Nat.div_mul_le_self off B) hlt)
      have hcopied := take_drop_block B xs want off
      generalize hdef : ((block B xs (off / B)).drop (off % B)).take want = copied at hcopied
      have hcount : copied.length = min (min want (B - off % B)) (xs.drop off).length := by
        rw [hcopied, List.length_take]
      have htake : copied = (xs.drop off).take copied.length := by
        rw [hcount, hcopied, ← List.take_eq_take_min]
      obtain ⟨hpos, hle, hend⟩ : 0 < copied.length ∧ copied.length ≤ want ∧
          copied.length ≤ (xs.drop off).length := by
        have hmod := Nat.mod_lt off hB
        have hxsoff : (xs.drop off).length = xs.length - off := List.length_drop
        omega
      have hwrap : wrap64 ((off : Int) + copied.length) = (off + copied.length : Nat) := by
        rw [← Int.natCast_add]
        refine wrap64_natCast (Nat.lt_of_le_of_lt ?_ hxs)
        rw [List.length_drop] at hend
        omega
      obtain ⟨t, hrest, ht⟩ := ih (by omega : want - copied.length ≤ turns)
        (off + copied.length) (acc ++ copied) hs'
      refine ⟨t, ?_, ht⟩
      simp only [hdiv, hread, sub_div_mul, if_neg (not_out_of_range hB hlt), Int.toNat_natCast,
        hdef, if_neg (List.length_pos_iff.mp hpos), hwrap, hrest]
      rw [window_split hle hend, ← htake, List.append_assoc]
    · refine ⟨s, ?_, hs⟩
      rw [if_pos (by omega), window, List.drop_of_length_le hge]
      simp [hwant]

end Hamster.CodeLib
