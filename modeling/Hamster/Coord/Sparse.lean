import Hamster.CodeLib.ReaderAt

/-!
# Sparse files

`sparse` of `internal/coord/get.go`: the extents of a shard file that a read has
prefetched.  Extents may overlap and may be empty.  A read copies from the first extent
that covers its position, and stops at the first position that none covers.

`readAt_added` is the result: over extents of one file a read gives the bytes of that
file up to the first gap, and an error exactly if there is a gap in the request.
-/

namespace Hamster.Coord

open CodeLib

structure Extent where
  off : Int
  data : Bytes
deriving DecidableEq

namespace Extent

def stop (e : Extent) : Int := wrap64 (e.off + e.data.length)

def covers (e : Extent) (pos : Int) : Bool := e.off ≤ pos && pos < e.stop

end Extent

structure Sparse where
  /-- Sorted by offset. -/
  extents : List Extent := []

inductive SparseError where
  | notPrefetched (pos : Int)
  /-- No error of the source: a loop that never ends. -/
  | endless
deriving DecidableEq

namespace Sparse

/-- The extents are sorted, so `sort.Search` finds the first one that starts later. -/
def add (s : Sparse) (e : Extent) : Sparse :=
  ⟨s.extents.insertIdx (s.extents.findIdx (e.off < ·.off)) e⟩

/-- The loop of `ReadAt`, which has `got` and misses `want` bytes.  Every turn that goes
on copies a byte at least, so the number of bytes asked for bounds the turns. -/
def readFrom (s : Sparse) (off : Int) : Nat → Nat → Bytes → ReadResult SparseError
  | turns, want, got =>
    if want = 0 then ⟨got, none⟩
    else
      let pos := wrap64 (off + got.length)
      match s.extents.find? (·.covers pos) with
      | none =>
        ⟨got, some (if s.extents.any (pos < ·.stop) then .fault (.notPrefetched pos) else .eof)⟩
      | some e =>
        match turns with
        | 0 => ⟨got, some (.fault .endless)⟩
        | turns + 1 =>
          let copied := (e.data.drop (pos - e.off).toNat).take want
          readFrom s off turns (want - copied.length) (got ++ copied)

def readAt (s : Sparse) (n : Nat) (off : Int) : ReadResult SparseError := s.readFrom off n n []

end Sparse

/-! ## What the extents cover -/

def Extent.RangeOf (e : Extent) (file : Bytes) : Prop :=
  0 ≤ e.off ∧ e.off + e.data.length ≤ file.length ∧
    e.data = (file.drop e.off.toNat).take e.data.length

def Held (es : List Extent) (i : Nat) : Prop :=
  ∃ e ∈ es, e.off ≤ i ∧ (i : Int) < e.off + e.data.length

/-- What a read of `n` bytes at `off` gives: the bytes of the file up to the first gap,
and an error where there is one. -/
structure UpToGap (file : Bytes) (held : Nat → Prop) (off n : Nat)
    (res : ReadResult SparseError) : Prop where
  data : res.data = (file.drop off).take res.data.length
  le : res.data.length ≤ n
  covered : ∀ i < res.data.length, held (off + i)
  gap : res.data.length < n → ¬held (off + res.data.length)
  err : res.err = none ↔ ∀ i < n, held (off + i)
  ends : res.err ≠ some (.fault .endless)

section Reads

variable {file : Bytes} {es : List Extent} {e : Extent} {s : Sparse}

theorem Extent.RangeOf.covers_iff (h : e.RangeOf file) (hfile : file.length < 2 ^ 63) (i : Nat) :
    e.covers i = true ↔ e.off ≤ i ∧ (i : Int) < e.off + e.data.length := by
  obtain ⟨hzero, hend, -⟩ := h
  have hstop : e.stop = e.off + e.data.length := wrap64_of_mem (by omega) (by omega)
  rw [covers, hstop, Bool.and_eq_true, decide_eq_true_iff, decide_eq_true_iff]

theorem Extent.RangeOf.copied_eq (h : e.RangeOf file) {pos : Nat} (hlow : e.off ≤ pos)
    (want : Nat) :
    (e.data.drop ((pos : Int) - e.off).toNat).take want =
      (file.drop pos).take (min want (e.off + e.data.length - pos).toNat) := by
  obtain ⟨hzero, -, hdata⟩ := h
  have hdrop : ((pos : Int) - e.off).toNat = pos - e.off.toNat := by omega
  have hleft : (e.off + e.data.length - pos).toNat = e.data.length - (pos - e.off.toNat) := by omega
  rw [hdrop, hleft]
  generalize e.data.length = len at hdata
  rw [hdata, List.drop_take, List.drop_drop, Nat.add_sub_cancel' (by omega), List.take_take]

theorem readFrom_upToGap (hfile : file.length < 2 ^ 63) (hs : ∀ e ∈ s.extents, e.RangeOf file)
    {off turns want : Nat} {got : Bytes} (hturns : want ≤ turns)
    (hgot : got = (file.drop off).take got.length)
    (hheld : ∀ i < got.length, Held s.extents (off + i)) (hend : off + got.length < 2 ^ 63) :
    UpToGap file (Held s.extents) off (got.length + want) (s.readFrom off turns want got) := by
  induction want using Nat.strong_induction_on generalizing turns got with
  | _ want ih =>
    have hpos : wrap64 ((off : Int) + got.length) = (off + got.length : Nat) := by
      rw [← Int.natCast_add, wrap64_natCast hend]
    unfold Sparse.readFrom
    rw [hpos]
    split_ifs with hwant
    · subst hwant
      exact ⟨hgot, Nat.le_refl _, hheld, fun h => absurd h (Nat.lt_irrefl _),
        ⟨fun _ => hheld, fun _ => rfl⟩, nofun⟩
    dsimp only
    split
    next hfind =>
      have hgap : ¬Held s.extents (off + got.length) := by
        rintro ⟨e, he, hcovers⟩
        exact List.find?_eq_none.mp hfind e he (((hs e he).covers_iff hfile _).mpr hcovers)
      refine ⟨hgot, Nat.le_add_right _ _, hheld, fun _ => hgap, ⟨nofun, fun hall => ?_⟩, ?_⟩
      · exact absurd (hall got.length (by omega)) hgap
      · split_ifs <;> simp
    next e hfind =>
      have he := List.mem_of_find?_eq_some hfind
      obtain ⟨hlow, hhigh⟩ := ((hs e he).covers_iff hfile (off + got.length)).mp
        (List.find?_some (p := fun e : Extent => e.covers _) hfind)
      have hcopied := (hs e he).copied_eq hlow want
      obtain ⟨hzero, hin, -⟩ := hs e he
      obtain ⟨turns, rfl⟩ : ∃ t, turns = t + 1 := Nat.exists_eq_succ_of_ne_zero (by omega)
      generalize (e.data.drop _).take want = copied at hcopied
      have hlen : copied.length =
          min want (e.off + e.data.length - (off + got.length : Nat)).toNat := by
        rw [hcopied, List.length_take, List.length_drop]
        omega
      rw [← hlen] at hcopied
      have hgot' : got ++ copied = (file.drop off).take (got ++ copied).length := by
        rw [List.length_append, List.take_add, ← hgot, List.drop_drop, ← hcopied]
      have hheld' : ∀ i < (got ++ copied).length, Held s.extents (off + i) := by
        intro i hi
        rw [List.length_append] at hi
        rcases Nat.lt_or_ge i got.length with hlt | hge
        · exact hheld i hlt
        · exact ⟨e, he, by omega, by omega⟩
      have hnext := @ih (want - copied.length) (by omega) turns _ (by omega) hgot' hheld'
        (by rw [List.length_append]; omega)
      rw [List.length_append, Nat.add_assoc, Nat.add_sub_cancel' (by omega)] at hnext
      exact hnext

theorem mem_added : e ∈ (es.foldl Sparse.add s).extents ↔ e ∈ s.extents ∨ e ∈ es := by
  induction es generalizing s with
  | nil => simp
  | cons e' es ih =>
    rw [List.foldl_cons, ih, Sparse.add, List.mem_insertIdx List.findIdx_le_length, List.mem_cons,
      or_left_comm, or_assoc]

/-- A read over extents of a file, added in any order. -/
theorem readAt_added (hfile : file.length < 2 ^ 63) (hes : ∀ e ∈ es, e.RangeOf file) (n : Nat)
    {off : Nat} (hoff : off < 2 ^ 63) :
    UpToGap file (Held es) off n ((es.foldl Sparse.add {}).readAt n off) := by
  have hmem : ∀ e, e ∈ (es.foldl Sparse.add {}).extents ↔ e ∈ es := by simp [mem_added]
  have hheld : Held (es.foldl Sparse.add {}).extents = Held es := by
    funext i
    simp only [Held, hmem]
  have hs : ∀ e ∈ (es.foldl Sparse.add {}).extents, e.RangeOf file := fun e he =>
    hes e ((hmem e).mp he)
  have hread := @readFrom_upToGap file _ hfile hs off n n [] (Nat.le_refl n) (by simp) nofun hoff
  rw [hheld, List.length_nil, Nat.zero_add] at hread
  exact hread

end Reads

def overlapping : List Extent := [⟨2, [3, 4]⟩, ⟨1, [2, 3]⟩]

theorem readAt_added_overlapping : UpToGap [1, 2, 3, 4, 5] (Held overlapping) 1 4
    ((overlapping.foldl Sparse.add {}).readAt 4 1) :=
  readAt_added (by decide) (by simp [overlapping, Extent.RangeOf]) 4 (by decide)

end Hamster.Coord
