import Hamster.Meta.Keyspace

/-!
# Listing the derived index

`ListObjects` scans the `c/` rows of a bucket from a starting row, stops at
the first row outside the prefix, and stops when it has `max` rows.
`listingRows` is what the scan would yield without the bound:
`listingRows_sorted` and `mem_listingRows` say that these are the current
records of the bucket under the prefix and after the marker, in key order.
`listObjects_eq` says that the scan yields their first `max`.  No argument has
to be free of NUL: a row that a scan finds has a key without one.
-/

namespace Hamster.Meta

open CodeLib

def listingStart (b pre startAfter : Bytes) : Bytes :=
  if startAfter ≠ [] ∧ currentScanPrefix b ++ pre < currentRowKey b startAfter ++ [0] then
    currentRowKey b startAfter ++ [0]
  else currentScanPrefix b ++ pre

def listingRow (b : Bytes) (r : Bytes × Record) : Option ObjectListing :=
  r.2.current?.map (fun c => ⟨objectKeyFromCurrentRow r.1 b, c⟩)

/-- Every row of a listing, without the bound on their number. -/
def listingRows (s : Store) (b pre startAfter : Bytes) : List ObjectListing :=
  ((s.rowsUnder (currentScanPrefix b ++ pre)).filter
    (fun r => decide (listingStart b pre startAfter ≤ r.1))).filterMap (listingRow b)

section Rows

variable {s : Store} {b k pre startAfter : Bytes}

theorem currentRowKey_eq_append (b k : Bytes) :
    currentRowKey b k = currentScanPrefix b ++ k := by
  simp [currentRowKey, currentScanPrefix]

theorem objectKeyFromCurrentRow_currentRowKey (b k : Bytes) :
    objectKeyFromCurrentRow (currentRowKey b k) b = k := by
  rw [objectKeyFromCurrentRow, currentRowKey_eq_append, List.drop_left]

theorem currentRowKey_lt_iff {k' : Bytes} :
    currentRowKey b k < currentRowKey b k' ↔ k < k' := by
  rw [currentRowKey_eq_append, currentRowKey_eq_append, append_lt_append_left_iff]

/-- A row under the scan prefix is the current row of a key with the
prefix. -/
theorem Typed.of_mem_currentRows (hs : Typed s) {r : Bytes × Record}
    (h : r ∈ s.rowsUnder (currentScanPrefix b ++ pre)) :
    ∃ k c, r = (currentRowKey b k, .currentRecord c) ∧ pre <+: k := by
  obtain ⟨r₀, hr₀, hkey, hv, t, ht⟩ := hs.of_mem_rowsUnder h
  -- the encoding holds the separator once, so it is cut there
  have hrow : r₀ = .current b (pre ++ t) := by
    refine RowKey.encode_inj_of_left hr₀ id (ht.symm.trans ?_)
    rw [RowKey.encode, currentRowKey_eq_append, List.append_assoc]
  subst hrow
  obtain ⟨c, hc⟩ := hv.current
  exact ⟨pre ++ t, c, Prod.ext hkey hc, List.prefix_append pre t⟩

theorem listingStart_le_iff (hpre : pre <+: k) :
    listingStart b pre startAfter ≤ currentRowKey b k ↔ startAfter = [] ∨ startAfter < k := by
  have hrow : currentScanPrefix b ++ pre ≤ currentRowKey b k := by
    rw [currentRowKey_eq_append]
    exact le_of_isPrefix ((List.prefix_append_right_inj _).mpr hpre)
  have hafter : currentRowKey b startAfter ++ [0] ≤ currentRowKey b k ↔ startAfter < k := by
    rw [append_zero_le_iff, currentRowKey_lt_iff]
  unfold listingStart
  split
  · rename_i h
    rw [hafter, or_iff_right h.1]
  · rename_i h
    refine iff_of_true hrow ?_
    by_cases hnil : startAfter = []
    · exact Or.inl hnil
    · -- the marker's row lies at or below the scan prefix
      have hle : currentRowKey b startAfter ++ [0] ≤ currentScanPrefix b ++ pre :=
        not_lt.mp (fun hlt => h ⟨hnil, hlt⟩)
      exact Or.inr (hafter.mp (hle.trans hrow))

theorem Typed.mem_listingRows (hs : Typed s) {c : CurrentRecord} :
    ⟨k, c⟩ ∈ listingRows s b pre startAfter ↔
      currentAt s b k = some c ∧ pre <+: k ∧ (startAfter = [] ∨ startAfter < k) := by
  rw [listingRows, List.mem_filterMap]
  constructor
  · intro h
    obtain ⟨r, hr, hrow⟩ := h
    rw [List.mem_filter, decide_eq_true_eq] at hr
    obtain ⟨k', c', rfl, hpre⟩ := hs.of_mem_currentRows hr.1
    rw [listingRow, objectKeyFromCurrentRow_currentRowKey] at hrow
    cases hrow
    exact ⟨Option.bind_eq_some_iff.mpr ⟨_, (SortedKV.mem_rowsUnder.mp hr.1).1, rfl⟩, hpre,
      (listingStart_le_iff hpre).mp hr.2⟩
  · intro h
    obtain ⟨hcur, hpre, hafter⟩ := h
    have hget : s.get (currentRowKey b k) = some (.currentRecord c) := by
      rw [hs.get_current, hcur]
      rfl
    refine ⟨(currentRowKey b k, .currentRecord c), ?_, ?_⟩
    · rw [List.mem_filter, decide_eq_true_eq]
      refine ⟨SortedKV.mem_rowsUnder.mpr ⟨hget, ?_⟩, (listingStart_le_iff hpre).mpr hafter⟩
      show currentScanPrefix b ++ pre <+: currentRowKey b k
      rw [currentRowKey_eq_append]
      exact (List.prefix_append_right_inj _).mpr hpre
    · rw [listingRow, objectKeyFromCurrentRow_currentRowKey]
      rfl

theorem Typed.listingRows_sorted (hs : Typed s) :
    (listingRows s b pre startAfter).Pairwise (fun r r' => r.key < r'.key) := by
  rw [listingRows, List.pairwise_filterMap]
  refine ((s.rowsUnder_sorted _).filter _).imp_of_mem ?_
  intro r r' hr hr' hlt a ha a' ha'
  obtain ⟨k, c, rfl, -⟩ := hs.of_mem_currentRows (List.mem_filter.mp hr).1
  obtain ⟨k', c', rfl, -⟩ := hs.of_mem_currentRows (List.mem_filter.mp hr').1
  rw [listingRow, objectKeyFromCurrentRow_currentRowKey] at ha ha'
  cases ha
  cases ha'
  exact currentRowKey_lt_iff.mp hlt

end Rows

/-! ## The scan -/

/-- What the listing does at a row under the prefix. -/
def listingVisit (b : Bytes) (max : Int) (out : List ObjectListing) (k : Bytes)
    (v : Record) : Except MetaError (List ObjectListing × Bool) :=
  if 0 < max ∧ (out.length : Int) = max then .ok (out, false)
  else do
    let rec' ← v.asCurrentRecord
    .ok (out ++ [⟨objectKeyFromCurrentRow k b, rec'⟩], true)

theorem Typed.listObjects_eq {s : Store} (hs : Typed s) (b pre startAfter : Bytes)
    (max : Int) :
    listObjects s b pre startAfter max = .ok (cutTo max (listingRows s b pre startAfter)) := by
  have hstart : currentScanPrefix b ++ pre ≤ listingStart b pre startAfter := by
    unfold listingStart
    split
    · rename_i h
      exact h.2.le
    · exact le_rfl
  have hscan : listObjects s b pre startAfter max =
      SortedKV.scanRows (listingVisit b max) [] ((s.rowsUnder (currentScanPrefix b ++ pre)).filter
        (fun r => decide (listingStart b pre startAfter ≤ r.1))) :=
    SortedKV.scan_under s hstart (listingVisit b max)
      (fun _ _ _ hp => if_pos (hasPrefix_iff.mpr hp))
      (fun _ _ _ hp => if_neg (fun h => hp (hasPrefix_iff.mp h))) []
  rw [hscan]
  refine SortedKV.scanRows_cutTo (g := listingRow b) max (fun r hr => ?_) []
    (fun h => by simpa using h.le)
  obtain ⟨k, c, rfl, -⟩ := hs.of_mem_currentRows (List.mem_filter.mp hr).1
  exact ⟨⟨objectKeyFromCurrentRow (currentRowKey b k) b, c⟩, rfl, fun _ => rfl⟩

end Hamster.Meta
