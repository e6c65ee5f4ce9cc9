import Hamster.CodeLib.Grouping
import Hamster.Meta.CurrentIndex
import Hamster.Meta.Listing

/-!
# One page of a listing

`collectListing` of `internal/gateway/bucket.go` walks the derived index in
batches, groups keys by the delimiter and stops at `max` entries.  A truncated
page names the point to resume at: its last key, or its last common prefix.

`groupedListing` is the whole listing.  A page holds the first entries of what
is left of it at the resume point (`collectListing_eq`).  The resume point is
taken for a common prefix when it ends with the delimiter.  An object's key can
do so too: the delimiter then lies in the listing's prefix, at least in part
(`Stray`).  The entries that start with such a key are not left.
-/

namespace Hamster.Gateway

open CodeLib Meta

/-! ## The code -/

structure Listing where
  objects : List ObjectListing := []
  prefixes : List Bytes := []
  truncated : Bool := false
  /-- The resume point when truncated. -/
  next : Bytes := []
deriving DecidableEq

def listBatch : Nat := 1000

structure Collecting where
  out : Listing := {}
  lastGroup : Bytes
  count : Int := 0
  scanAfter : Bytes

/-- The group that a resume point stands for, if it looks like one. -/
def resumeGroup (pre delimiter after : Bytes) : Bytes :=
  if delimiter ≠ [] ∧ after ≠ [] ∧ pre <+: after ∧ delimiter <:+ after then after else []

/-- The loop over a batch, and whether it returned the page. -/
def collectRows (pre delimiter : Bytes) (max : Int) :
    List ObjectListing → Collecting → Collecting × Bool
  | [], c => (c, false)
  | o :: rows, c =>
    let c := { c with scanAfter := o.key }
    -- The remainder of a group that the listing has.
    if c.lastGroup ≠ [] ∧ hasPrefix o.key c.lastGroup then collectRows pre delimiter max rows c
    else
      match groupOf pre delimiter o.key with
      | some group =>
        if c.count = max then ({ c with out := { c.out with truncated := true } }, true)
        else
          collectRows pre delimiter max rows
            { c with
              out := { c.out with prefixes := c.out.prefixes ++ [group], next := group }
              lastGroup := group
              count := c.count + 1 }
      | none =>
        if c.count = max then ({ c with out := { c.out with truncated := true } }, true)
        else
          collectRows pre delimiter max rows
            { c with
              out := { c.out with objects := c.out.objects ++ [o], next := o.key }
              count := c.count + 1 }

/-- The loop over the batches.  Every batch but the last has a row, so the number
of rows bounds the turns. -/
def collectBatches (s : Store) (bucket pre delimiter : Bytes) (max : Int) :
    Nat → Collecting → Except MetaError Listing
  | 0, c => .ok c.out
  | turns + 1, c => do
    let batch ← listObjects s bucket pre c.scanAfter listBatch
    let (c, returned) := collectRows pre delimiter max batch c
    if returned ∨ batch.length < listBatch then .ok c.out
    else collectBatches s bucket pre delimiter max turns c

def collectListing (s : Store) (bucket pre delimiter after : Bytes) (max : Int) :
    Except MetaError Listing := do
  match ← getBucket s bucket with
  | none => .error .noSuchBucket
  | some _ =>
    if max ≤ 0 then .ok {}
    else
      collectBatches s bucket pre delimiter max (s.rows.length + 1)
        { lastGroup := resumeGroup pre delimiter after, scanAfter := after }

/-! ## The whole listing -/

abbrev ListEntry := Entry ObjectListing UInt8

def entryKey (e : ListEntry) : Bytes := e.key ObjectListing.key

def groupedRows (pre delimiter : Bytes) (rows : List ObjectListing) : List ListEntry :=
  grouped (delimiterGrouping pre delimiter) ObjectListing.key rows

/-- The objects and common prefixes of a bucket under a prefix. -/
def groupedListing (s : Store) (bucket pre delimiter : Bytes) : List ListEntry :=
  groupedRows pre delimiter (listingRows s bucket pre [])

/-! ## One page -/

def Listing.add (l : Listing) : ListEntry → Listing
  | .item o => { l with objects := l.objects ++ [o], next := o.key }
  | .group g => { l with prefixes := l.prefixes ++ [g], next := g }

/-- The first `n` entries after those of a page. -/
def fillPage (l : Listing) (n : Nat) (es : List ListEntry) : Listing :=
  { (es.take n).foldl Listing.add l with truncated := decide (n < es.length) }

/-- The rows that are not in a group that the listing has. -/
def outsideGroup (lastGroup : Bytes) (rows : List ObjectListing) : List ObjectListing :=
  rows.filter (fun o => !decide (lastGroup ≠ [] ∧ lastGroup <+: o.key))

/-- The group that the listing has after an entry. -/
def groupAfter (lastGroup : Bytes) : ListEntry → Bytes
  | .item _ => lastGroup
  | .group g => g

variable {o : ObjectListing} {c : Collecting} {key : Bytes}

section Rows

variable {pre delimiter : Bytes} {max : Int}

abbrev entryOfRow (pre delimiter : Bytes) (o : ObjectListing) : ListEntry :=
  entryOf (delimiterGrouping pre delimiter) ObjectListing.key o

theorem entryOfRow_cases (pre delimiter : Bytes) (o : ObjectListing) :
    groupOf pre delimiter o.key = none ∧ entryOfRow pre delimiter o = .item o ∨
      ∃ g, groupOf pre delimiter o.key = some g ∧ entryOfRow pre delimiter o = .group g := by
  cases hg : groupOf pre delimiter o.key with
  | none => exact Or.inl ⟨rfl, entryOf_of_none hg⟩
  | some g => exact Or.inr ⟨g, rfl, entryOf_of_some hg⟩

/-! The three things that the loop does at a row. -/

theorem collectRows_skip (h : c.lastGroup ≠ [] ∧ c.lastGroup <+: o.key) (rows : List ObjectListing)
    : collectRows pre delimiter max (o :: rows) c =
      collectRows pre delimiter max rows { c with scanAfter := o.key } := by
  rw [collectRows]
  exact if_pos ⟨h.1, hasPrefix_iff.mpr h.2⟩

theorem collectRows_full (h : ¬ (c.lastGroup ≠ [] ∧ c.lastGroup <+: o.key)) (hcount : c.count = max)
    (rows : List ObjectListing) :
    collectRows pre delimiter max (o :: rows) c =
      ({ c with scanAfter := o.key, out := { c.out with truncated := true } }, true) := by
  rw [collectRows]
  dsimp only
  rw [if_neg (fun hskip => h ⟨hskip.1, hasPrefix_iff.mp hskip.2⟩)]
  cases groupOf pre delimiter o.key with
  | none | some g => exact if_pos hcount

theorem collectRows_add (h : ¬ (c.lastGroup ≠ [] ∧ c.lastGroup <+: o.key)) (hcount : c.count ≠ max)
    (rows : List ObjectListing) :
    collectRows pre delimiter max (o :: rows) c =
      collectRows pre delimiter max rows
        { out := c.out.add (entryOfRow pre delimiter o)
          lastGroup := groupAfter c.lastGroup (entryOfRow pre delimiter o)
          count := c.count + 1
          scanAfter := o.key } := by
  rw [collectRows]
  dsimp only
  rw [if_neg (fun hskip => h ⟨hskip.1, hasPrefix_iff.mp hskip.2⟩)]
  rcases entryOfRow_cases pre delimiter o with ⟨hg, hentry⟩ | ⟨g, hg, hentry⟩
  · rw [hg, hentry]
    exact if_neg hcount
  · rw [hg, hentry]
    exact if_neg hcount

theorem collectRows_append (rows rows' : List ObjectListing) (c : Collecting) :
    collectRows pre delimiter max (rows ++ rows') c =
      if (collectRows pre delimiter max rows c).2 then collectRows pre delimiter max rows c
      else collectRows pre delimiter max rows' (collectRows pre delimiter max rows c).1 := by
  induction rows generalizing c with
  | nil => rfl
  | cons o rows ih =>
    rw [List.cons_append]
    by_cases hskip : c.lastGroup ≠ [] ∧ c.lastGroup <+: o.key
    · rw [collectRows_skip hskip, collectRows_skip hskip, ih]
    · by_cases hcount : c.count = max
      · rw [collectRows_full hskip hcount, collectRows_full hskip hcount]
        rfl
      · rw [collectRows_add hskip hcount, collectRows_add hskip hcount, ih]

variable {rows : List ObjectListing}

theorem scanAfter_collectRows (h : (collectRows pre delimiter max rows c).2 = false) :
    (collectRows pre delimiter max rows c).1.scanAfter =
      (rows.getLast?.map ObjectListing.key).getD c.scanAfter := by
  induction rows generalizing c with
  | nil => rfl
  | cons o rows ih =>
    have hlast : (((o :: rows).getLast?.map ObjectListing.key).getD c.scanAfter) =
        (rows.getLast?.map ObjectListing.key).getD o.key := by
      cases rows with
      | nil => rfl
      | cons o' rows =>
        rw [List.getLast?_cons_cons]
        obtain ⟨x, hx⟩ : ∃ x, (o' :: rows).getLast? = some x :=
          ⟨_, List.getLast?_eq_some_getLast (List.cons_ne_nil o' rows)⟩
        rw [hx]
        rfl
    rw [hlast]
    by_cases hskip : c.lastGroup ≠ [] ∧ c.lastGroup <+: o.key
    · rw [collectRows_skip hskip] at h ⊢
      exact ih h
    · by_cases hcount : c.count = max
      · rw [collectRows_full hskip hcount] at h
        cases h
      · rw [collectRows_add hskip hcount] at h ⊢
        exact ih h

variable {lastGroup : Bytes}

theorem outsideGroup_cons (hsorted : (o :: rows).Pairwise (fun o o' => o.key < o'.key))
    (hafter : lastGroup ≤ o.key) (h : ¬ (lastGroup ≠ [] ∧ lastGroup <+: o.key)) :
    outsideGroup lastGroup (o :: rows) = o :: rows := by
  refine List.filter_eq_self.mpr (fun o' ho' => ?_)
  rw [Bool.not_eq_true', decide_eq_false_iff_not]
  rintro ⟨hne, hpre⟩
  refine h ⟨hne, ?_⟩
  rcases List.mem_cons.mp ho' with rfl | hmem
  · exact hpre
  · have hlt := (List.pairwise_cons.mp hsorted).1 o' hmem
    exact isPrefix_of_le_of_le hafter hlt.le hpre

theorem groupedRows_outsideGroup {g : Bytes} (hg : groupOf pre delimiter key = some g)
    (rows : List ObjectListing) :
    groupedRows pre delimiter (outsideGroup g rows) =
      (groupedRows pre delimiter rows).filter (fun e => e.group? ≠ some g) := by
  have hne : g ≠ [] := by
    rintro rfl
    have hsuffix := groupOf_isSuffix hg
    exact (groupOf_eq_some hg).1 (List.suffix_nil.mp hsuffix)
  rw [groupedRows, groupedRows, ← grouped_filter]
  congr 1
  refine List.filter_congr (fun o _ => ?_)
  have hiff : g <+: o.key ↔ (entryOfRow pre delimiter o).group? = some g := by
    rw [group?_eq_some_iff]
    constructor
    · intro hpre
      exact entryOf_of_some (groupOf_of_isPrefix hg hpre)
    · intro hentry
      rcases entryOfRow_cases pre delimiter o with ⟨-, ho⟩ | ⟨g', hg', ho⟩
      · cases ho.symm.trans hentry
      · cases ho.symm.trans hentry
        exact groupOf_isPrefix hg'
  simp [hne, hiff]

theorem groupedRows_cons (hsorted : (o :: rows).Pairwise (fun o o' => o.key < o'.key))
    (hafter : lastGroup ≤ o.key) (h : ¬ (lastGroup ≠ [] ∧ lastGroup <+: o.key)) :
    groupedRows pre delimiter (o :: rows) = entryOfRow pre delimiter o ::
      groupedRows pre delimiter
        (outsideGroup (groupAfter lastGroup (entryOfRow pre delimiter o)) rows) := by
  rcases entryOfRow_cases pre delimiter o with ⟨hg, hentry⟩ | ⟨g, hg, hentry⟩
  · have hkeep := outsideGroup_cons hsorted hafter h
    have hrows : outsideGroup lastGroup rows = rows :=
      List.filter_eq_self.mpr
        (fun o' ho' => List.filter_eq_self.mp hkeep o' (List.mem_cons_of_mem o ho'))
    rw [hentry, groupAfter, hrows, groupedRows, grouped]
    simp only [delimiterGrouping, hg]
    rfl
  · rw [hentry, groupAfter, groupedRows_outsideGroup hg, groupedRows, grouped]
    simp only [delimiterGrouping, hg]
    rfl

theorem truncated_add (l : Listing) (e : ListEntry) : (l.add e).truncated = l.truncated := by
  cases e <;> rfl

/-- What the loop over sorted rows adds to a page: the first entries of the rows
that are not in the last group. -/
theorem collectRows_eq {rows : List ObjectListing}
    (hsorted : rows.Pairwise (fun o o' => o.key < o'.key)) {c : Collecting}
    (hafter : ∀ o ∈ rows, c.lastGroup ≤ o.key) (htruncated : c.out.truncated = false) {n : Nat}
    (hn : c.count + n = max) :
    let es := groupedRows pre delimiter (outsideGroup c.lastGroup rows)
    (collectRows pre delimiter max rows c).1.out = fillPage c.out n es ∧
      (collectRows pre delimiter max rows c).2 = decide (n < es.length) := by
  induction rows generalizing c n with
  | nil =>
    refine ⟨?_, rfl⟩
    have hout : c.out = { c.out with truncated := false } := by rw [← htruncated]
    simpa [collectRows, groupedRows, outsideGroup, grouped, fillPage] using hout
  | cons o rows ih =>
    obtain ⟨hhead, htail⟩ := List.pairwise_cons.mp hsorted
    have hafter' : ∀ o' ∈ rows, c.lastGroup ≤ o'.key :=
      fun o' ho' => hafter o' (List.mem_cons_of_mem o ho')
    by_cases hskip : c.lastGroup ≠ [] ∧ c.lastGroup <+: o.key
    · have hdrop : outsideGroup c.lastGroup (o :: rows) = outsideGroup c.lastGroup rows := by
        unfold outsideGroup
        rw [List.filter_cons_of_neg (by simpa using hskip)]
      rw [collectRows_skip hskip, hdrop]
      exact ih (c := { c with scanAfter := o.key }) htail hafter' htruncated hn
    · have hkeep := outsideGroup_cons hsorted (hafter o List.mem_cons_self) hskip
      rw [hkeep, groupedRows_cons hsorted (hafter o List.mem_cons_self) hskip]
      by_cases hcount : c.count = max
      · obtain rfl : n = 0 := by omega
        rw [collectRows_full hskip hcount]
        exact ⟨rfl, rfl⟩
      · obtain ⟨n, rfl⟩ : ∃ n', n = n' + 1 := ⟨n - 1, by omega⟩
        rw [collectRows_add hskip hcount]
        have hgroup : ∀ o' ∈ rows,
            groupAfter c.lastGroup (entryOfRow pre delimiter o) ≤ o'.key := by
          intro o' ho'
          rcases entryOfRow_cases pre delimiter o with ⟨-, hentry⟩ | ⟨g, hg, hentry⟩
          · rw [hentry]
            exact hafter' o' ho'
          · rw [hentry]
            exact (le_of_isPrefix (groupOf_isPrefix hg)).trans (hhead o' ho').le
        have hadd : (c.out.add (entryOfRow pre delimiter o)).truncated = false := by
          rw [truncated_add, htruncated]
        obtain ⟨hout, hreturned⟩ := ih htail (c := ⟨c.out.add (entryOfRow pre delimiter o),
          groupAfter c.lastGroup (entryOfRow pre delimiter o), c.count + 1, o.key⟩) hgroup hadd
          (n := n) (by push_cast at hn ⊢; omega)
        rw [hout, hreturned]
        refine ⟨?_, ?_⟩
        · simp [fillPage]
        · simp

end Rows

/-! ## Batches -/

section Batches

variable {s : Store} {b pre : Bytes} {after : Bytes}

theorem listingRows_after (hs : Typed s) (hafter : after ≠ []) :
    listingRows s b pre after =
      (listingRows s b pre []).filter (fun o => decide (after < o.key)) := by
  refine eq_of_sorted_of_mem_iff (r := fun o o' => o.key < o'.key) hs.listingRows_sorted
    (hs.listingRows_sorted.filter _) (fun o => ?_)
  obtain ⟨k, c⟩ := o
  rw [List.mem_filter, hs.mem_listingRows, hs.mem_listingRows, decide_eq_true_eq]
  simp [hafter, and_assoc]

theorem listingRows_next (hs : Typed s) (hkeyed : Keyed s) {i : Nat}
    (hi : (listingRows s b pre after)[i]? = some o) :
    listingRows s b pre o.key = (listingRows s b pre after).drop (i + 1) := by
  obtain ⟨k, c⟩ := o
  obtain ⟨hcur, -, hafter⟩ := hs.mem_listingRows.mp (List.mem_of_getElem? hi)
  rw [← filter_gt_getElem hs.listingRows_sorted hi (fun o' _ => decide_eq_true_iff),
    listingRows_after hs (hkeyed.current hcur)]
  by_cases hnil : after = []
  · rw [hnil]
  · have hlt : after < k := hafter.resolve_left hnil
    rw [listingRows_after hs hnil, List.filter_filter]
    refine List.filter_congr (fun o' _ => ?_)
    rw [← Bool.decide_and, decide_eq_decide]
    exact ⟨fun h => ⟨h, hlt.trans h⟩, fun h => h.1⟩

theorem length_listingRows_le (after : Bytes) :
    (listingRows s b pre after).length ≤ s.rows.length := by
  refine (List.length_filterMap_le _ _).trans ((List.length_filter_le _ _).trans ?_)
  exact List.length_filter_le _ _

theorem collectBatches_eq {delimiter : Bytes} {max : Int} (hs : Typed s) (hkeyed : Keyed s)
    {turns : Nat} (hturns : (listingRows s b pre c.scanAfter).length < turns * listBatch) :
    collectBatches s b pre delimiter max turns c =
      .ok (collectRows pre delimiter max (listingRows s b pre c.scanAfter) c).1.out := by
  induction turns generalizing c with
  | zero => omega
  | succ turns ih =>
    obtain ⟨rows, hrows⟩ : ∃ rows, rows = listingRows s b pre c.scanAfter := ⟨_, rfl⟩
    have hbatch : listObjects s b pre c.scanAfter listBatch = .ok (rows.take listBatch) := by
      rw [hs.listObjects_eq, hrows]
      rfl
    have hsplit := @collectRows_append pre delimiter max (rows.take listBatch)
      (rows.drop listBatch) c
    rw [List.take_append_drop] at hsplit
    rw [collectBatches, hbatch, ← hrows, hsplit]
    simp only [bind, Except.bind]
    cases hreturned : (collectRows pre delimiter max (rows.take listBatch) c).2 with
    | true => simp
    | false =>
      rcases Nat.lt_or_ge rows.length listBatch with hshort | hlong
      · have hlen : (rows.take listBatch).length < listBatch := by
          rw [List.length_take]
          omega
        rw [if_pos (Or.inr hlen), List.drop_of_length_le hshort.le]
        rfl
      · -- The next batch starts after the last row of this one.
        obtain ⟨o, ho⟩ : ∃ o, rows[listBatch - 1]? = some o :=
          ⟨_, List.getElem?_eq_getElem (by unfold listBatch at hlong ⊢; omega)⟩
        have hscan : (collectRows pre delimiter max (rows.take listBatch) c).1.scanAfter =
            o.key := by
          rw [scanAfter_collectRows hreturned, List.getLast?_eq_getElem?, List.length_take,
            Nat.min_eq_left hlong, List.getElem?_take_of_lt (by decide), ho]
          rfl
        have hnext : listingRows s b pre
            (collectRows pre delimiter max (rows.take listBatch) c).1.scanAfter =
              rows.drop listBatch := by
          rw [hscan, hrows]
          exact listingRows_next hs hkeyed (hrows ▸ ho)
        rw [if_neg (by simpa using hlong), ih, hnext]
        · rfl
        · rw [← hrows, Nat.add_mul, Nat.one_mul] at hturns
          rw [hnext, List.length_drop]
          omega

end Batches

/-! ## Resuming -/

/-- The key of an object that looks like a common prefix. -/
def Stray (pre delimiter key : Bytes) : Prop :=
  delimiter ≠ [] ∧ delimiter <:+ key ∧ groupOf pre delimiter key = none
deriving Decidable

/-- Whether a listing that resumes at `after` still has an entry. -/
def LeftAt (pre delimiter after : Bytes) (e : ListEntry) : Prop :=
  (after = [] ∨ after < entryKey e) ∧ ¬ (Stray pre delimiter after ∧ after <+: entryKey e)
deriving Decidable

section Resume

variable {s : Store} {b pre delimiter after : Bytes}

theorem entryKey_entryOfRow (o : ObjectListing) :
    entryKey (entryOfRow pre delimiter o) = (delimiterGrouping pre delimiter).label o.key :=
  key_entryOf o

theorem isPrefix_label (hpre : pre <+: key) :
    pre <+: (delimiterGrouping pre delimiter).label key := by
  cases hg : groupOf pre delimiter key with
  | none =>
    rwa [show (delimiterGrouping pre delimiter).label key = key from Grouping.label_of_none hg]
  | some g =>
    rw [show (delimiterGrouping pre delimiter).label key = g from Grouping.label_of_some hg]
    exact isPrefix_groupOf hpre hg

/-- The rows that the loop takes up at a resume point are those whose entries are
left. -/
theorem leftAt_entryOfRow_iff {o₀ : ObjectListing} (hpre : pre <+: o₀.key)
    (hafter : entryKey (entryOfRow pre delimiter o₀) = after) (hne : after ≠ [])
    (o : ObjectListing) :
    LeftAt pre delimiter after (entryOfRow pre delimiter o) ↔ after < o.key ∧
      ¬ (resumeGroup pre delimiter after ≠ [] ∧ resumeGroup pre delimiter after <+: o.key) := by
  rw [entryKey_entryOfRow] at hafter
  have hlabel : (delimiterGrouping pre delimiter).label after = after := by
    rw [← hafter, Grouping.label_label]
  have hpre' : pre <+: after := hafter ▸ isPrefix_label hpre
  rw [LeftAt, entryKey_entryOfRow, or_iff_right hne, Grouping.lt_label_iff _ hlabel]
  cases hg : groupOf pre delimiter after with
  | some g =>
    -- The resume point is a common prefix, and is taken for one.
    have hgroup : (delimiterGrouping pre delimiter).group after = some after := by
      have : (delimiterGrouping pre delimiter).label after = g := Grouping.label_of_some hg
      rw [← hlabel, this]
      exact (delimiterGrouping pre delimiter).closed hg (List.prefix_refl g)
    have hstray : ¬ Stray pre delimiter after := fun h => by
      rw [h.2.2] at hg
      cases hg
    have hresume : resumeGroup pre delimiter after = after := by
      exact if_pos ⟨(groupOf_eq_some hg).1, hne, hpre', groupOf_isSuffix hgroup⟩
    rw [hresume, Ne, Grouping.label_eq_iff hgroup]
    simp [hstray, hne]
  | none =>
    have hresume : resumeGroup pre delimiter after =
        if Stray pre delimiter after then after else [] := by
      refine if_congr ?_ rfl rfl
      exact ⟨fun h => ⟨h.1, h.2.2.2, hg⟩, fun h => ⟨h.1, hne, hpre', h.2.1⟩⟩
    rw [hresume, Grouping.isPrefix_label_iff hg]
    constructor
    · rintro ⟨⟨hlt, -⟩, hleft⟩
      refine ⟨hlt, ?_⟩
      split
      next hstray => exact fun h => hleft ⟨hstray, h.2⟩
      next => simp
    · rintro ⟨hlt, hleft⟩
      refine ⟨⟨hlt, Grouping.label_ne_of_none hg hlt⟩, fun h => hleft ?_⟩
      rw [if_pos h.1]
      exact ⟨hne, h.2⟩

theorem outsideGroup_resumeGroup (hs : Typed s)
    (hafter : after = [] ∨ ∃ e ∈ groupedListing s b pre delimiter, entryKey e = after) :
    outsideGroup (resumeGroup pre delimiter after) (listingRows s b pre after) =
      (listingRows s b pre []).filter
        (fun o => decide (LeftAt pre delimiter after (entryOfRow pre delimiter o))) := by
  by_cases hne : after = []
  · subst hne
    have hresume : resumeGroup pre delimiter [] = [] := if_neg (fun h => h.2.1 rfl)
    have hstray : ¬ Stray pre delimiter [] := fun h => h.1 (List.suffix_nil.mp h.2.1)
    rw [hresume, outsideGroup]
    refine List.filter_congr (fun o _ => ?_)
    simp [LeftAt, hstray]
  · obtain ⟨e, he, hkey⟩ := hafter.resolve_left hne
    obtain ⟨o₀, ho₀, rfl⟩ := mem_grouped.mp he
    obtain ⟨-, hpre, -⟩ := (hs.mem_listingRows (k := o₀.key) (c := o₀.current)).mp ho₀
    rw [listingRows_after hs hne, outsideGroup, List.filter_filter]
    refine List.filter_congr (fun o _ => ?_)
    rw [Bool.eq_iff_iff, Bool.and_eq_true, Bool.not_eq_true', decide_eq_true_iff,
      decide_eq_true_iff, decide_eq_false_iff_not, leftAt_entryOfRow_iff hpre hkey hne o, and_comm]

theorem collectListing_eq {cfg : BucketConfig} (hs : Typed s) (hkeyed : Keyed s)
    (hb : bucketAt s b = some cfg) {n : Nat} (hn : 0 < n)
    (hafter : after = [] ∨ ∃ e ∈ groupedListing s b pre delimiter, entryKey e = after) :
    collectListing s b pre delimiter after n =
      .ok (fillPage {} n ((groupedListing s b pre delimiter).filter
        (fun e => decide (LeftAt pre delimiter after e)))) := by
  have hturns : (listingRows s b pre after).length < (s.rows.length + 1) * listBatch := by
    refine Nat.lt_of_le_of_lt (length_listingRows_le after) ?_
    unfold listBatch
    omega
  have hgroup : ∀ o ∈ listingRows s b pre after, resumeGroup pre delimiter after ≤ o.key := by
    intro o ho
    obtain ⟨-, -, hlt⟩ := (hs.mem_listingRows (k := o.key) (c := o.current)).mp ho
    unfold resumeGroup
    split
    next h => exact (hlt.resolve_left h.2.1).le
    next => exact not_lt.mp (List.not_lt_nil _)
  obtain ⟨hout, -⟩ := @collectRows_eq pre delimiter n _ hs.listingRows_sorted
    { lastGroup := resumeGroup pre delimiter after, scanAfter := after } hgroup rfl n
    (Int.zero_add _)
  rw [collectListing, hs.getBucket_eq, hb]
  simp only [bind, Except.bind]
  rw [if_neg (by omega), collectBatches_eq hs hkeyed hturns, hout,
    outsideGroup_resumeGroup hs hafter]
  congr 2
  exact grouped_filter (G := delimiterGrouping pre delimiter)
    (fun e => decide (LeftAt pre delimiter after e)) (listingRows s b pre [])

end Resume

end Hamster.Gateway
