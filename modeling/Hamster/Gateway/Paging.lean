import Hamster.Gateway.Listing

/-!
# The pages of a listing

A client asks for one page after the other, each from the resume point of the
one before, until a page is not truncated (`Pages`).  `CompletePaging` says that
the pages are the whole listing.

`completePaging_iff` is the result: they are, unless a page ends at an object
whose key is taken for a common prefix and the next entry starts with it.  A
folder placeholder listed under its own name is such an object
(`paging_loses_object`).
-/

namespace Hamster.Gateway

open CodeLib Meta

/-- The pages of a listing from a resume point to the end. -/
inductive Pages (s : Store) (bucket pre delimiter : Bytes) (max : Int) :
    Bytes → List Listing → Prop where
  | last {after : Bytes} {l : Listing}
      (hpage : collectListing s bucket pre delimiter after max = .ok l)
      (htruncated : l.truncated = false) : Pages s bucket pre delimiter max after [l]
  | more {after : Bytes} {l : Listing} {ls : List Listing}
      (hpage : collectListing s bucket pre delimiter after max = .ok l)
      (htruncated : l.truncated = true) (hrest : Pages s bucket pre delimiter max l.next ls) :
      Pages s bucket pre delimiter max after (l :: ls)

def Listing.size (l : Listing) : Nat := l.objects.length + l.prefixes.length

/-- The pages are the whole listing, each entry once and in key order, and a page
is truncated exactly when an entry remains. -/
structure CompletePaging (es : List ListEntry) (ls : List Listing) : Prop where
  ordered : es.Pairwise (fun e e' => entryKey e < entryKey e')
  objects : ls.flatMap (·.objects) = es.filterMap Entry.item?
  prefixes : ls.flatMap (·.prefixes) = es.filterMap Entry.group?
  truncated : ∀ (i : Nat) (l : Listing), ls[i]? = some l →
    (l.truncated = true ↔ ((ls.take (i + 1)).map Listing.size).sum < es.length)

/-! ## Filling a page -/

variable {ls : List Listing} {e : ListEntry}

section Fill

theorem objects_foldl_add (es : List ListEntry) (l : Listing) :
    (es.foldl Listing.add l).objects = l.objects ++ es.filterMap Entry.item? := by
  induction es generalizing l with
  | nil => simp
  | cons e es ih => cases e <;> simp [ih, Listing.add, Entry.item?, List.filterMap_cons]

theorem prefixes_foldl_add (es : List ListEntry) (l : Listing) :
    (es.foldl Listing.add l).prefixes = l.prefixes ++ es.filterMap Entry.group? := by
  induction es generalizing l with
  | nil => simp
  | cons e es ih => cases e <;> simp [ih, Listing.add, Entry.group?, List.filterMap_cons]

theorem next_foldl_add (es : List ListEntry) (l : Listing) (e : ListEntry) :
    ((es ++ [e]).foldl Listing.add l).next = entryKey e := by
  rw [List.foldl_append]
  cases e <;> rfl

theorem length_filterMap_add (es : List ListEntry) :
    (es.filterMap Entry.item?).length + (es.filterMap Entry.group?).length = es.length := by
  induction es with
  | nil => rfl
  | cons e es ih =>
    cases e with
    | item o | group g =>
      simp only [List.filterMap_cons, Entry.item?, Entry.group?, List.length_cons]
      omega

variable {n : Nat} {es : List ListEntry}

theorem objects_fillPage : (fillPage {} n es).objects = (es.take n).filterMap Entry.item? :=
  (objects_foldl_add _ _).trans (List.nil_append _)

theorem prefixes_fillPage : (fillPage {} n es).prefixes = (es.take n).filterMap Entry.group? :=
  (prefixes_foldl_add _ _).trans (List.nil_append _)

theorem size_fillPage : (fillPage {} n es).size = min n es.length := by
  rw [Listing.size, objects_fillPage, prefixes_fillPage, length_filterMap_add, List.length_take]

theorem next_fillPage (he : es[n]? = some e) : (fillPage {} (n + 1) es).next = entryKey e := by
  have hlt : n < es.length := (List.getElem?_eq_some_iff.mp he).1
  have htake : es.take (n + 1) = es.take n ++ [e] := by
    rw [List.take_add_one, he]
    rfl
  show ((es.take (n + 1)).foldl Listing.add {}).next = entryKey e
  rw [htake, next_foldl_add]

theorem CompletePaging.sum_size (h : CompletePaging es ls) :
    (ls.map Listing.size).sum = es.length := by
  have hsum : ∀ ls : List Listing, (ls.map Listing.size).sum =
      (ls.flatMap (·.objects)).length + (ls.flatMap (·.prefixes)).length := by
    intro ls
    induction ls with
    | nil => rfl
    | cons l ls ih =>
      simp only [List.map_cons, List.sum_cons, List.flatMap_cons, List.length_append, ih,
        Listing.size]
      omega
  rw [hsum, h.objects, h.prefixes, length_filterMap_add]

variable (hsorted : es.Pairwise (fun e e' => entryKey e < entryKey e'))

include hsorted

theorem completePaging_last (hlen : es.length ≤ n) : CompletePaging es [fillPage {} n es] where
  ordered := hsorted
  objects := by rw [List.flatMap_singleton, objects_fillPage, List.take_of_length_le hlen]
  prefixes := by rw [List.flatMap_singleton, prefixes_fillPage, List.take_of_length_le hlen]
  truncated := fun i l hi => by
    obtain ⟨rfl, rfl⟩ : i = 0 ∧ l = fillPage {} n es := by
      cases i with
      | zero => exact ⟨rfl, (Option.some.inj hi).symm⟩
      | succ i => cases hi
    have hsize : (([fillPage {} n es].take (0 + 1)).map Listing.size).sum = es.length := by
      simp [size_fillPage, hlen]
    rw [hsize]
    refine iff_of_false ?_ (Nat.lt_irrefl _)
    simpa [fillPage] using hlen

theorem completePaging_cons (hlen : n < es.length) :
    CompletePaging es (fillPage {} n es :: ls) ↔ CompletePaging (es.drop n) ls := by
  have hsplit : ∀ {γ : Type} (f : ListEntry → Option γ) (xs : List γ),
      (es.take n).filterMap f ++ xs = es.filterMap f ↔ xs = (es.drop n).filterMap f := by
    intro γ f xs
    have hes : es.filterMap f = (es.take n).filterMap f ++ (es.drop n).filterMap f := by
      rw [← List.filterMap_append, List.take_append_drop]
    rw [hes, List.append_cancel_left_eq]
  have hsize : (fillPage {} n es).size = n := by rw [size_fillPage, Nat.min_eq_left hlen.le]
  have hdrop : (es.drop n).length = es.length - n := List.length_drop
  constructor
  · intro h
    refine ⟨hsorted.drop, ?_, ?_, fun i l hi => ?_⟩
    · rw [← hsplit, ← objects_fillPage, ← List.flatMap_cons, h.objects]
    · rw [← hsplit, ← prefixes_fillPage, ← List.flatMap_cons, h.prefixes]
    · rw [h.truncated (i + 1) l hi, List.take_succ_cons, List.map_cons, List.sum_cons, hsize]
      omega
  · intro h
    refine ⟨hsorted, ?_, ?_, fun i l hi => ?_⟩
    · rw [List.flatMap_cons, objects_fillPage, hsplit, h.objects]
    · rw [List.flatMap_cons, prefixes_fillPage, hsplit, h.prefixes]
    · cases i with
      | zero =>
        obtain rfl := Option.some.inj hi
        exact iff_of_true (decide_eq_true hlen) (by simpa [hsize] using hlen)
      | succ i =>
        rw [h.truncated i l hi, List.take_succ_cons, List.map_cons, List.sum_cons, hsize]
        omega

end Fill

/-! ## What a page hides -/

variable {after : Bytes}

section Hiding

variable {pre delimiter : Bytes} {n : Nat} {es : List ListEntry}

/-- What is left after a page: the entries after it, but for those that its last
entry hides. -/
def restOf (pre delimiter : Bytes) (last : ListEntry) (es : List ListEntry) : List ListEntry :=
  es.filter (fun e => decide
    (¬ (Stray pre delimiter (entryKey last) ∧ entryKey last <+: entryKey e)))

variable {last : ListEntry}

theorem filter_leftAt {all : List ListEntry} {i : Nat}
    (hsorted : all.Pairwise (fun e e' => entryKey e < entryKey e'))
    (hkeys : ∀ e ∈ all, entryKey e ≠ [])
    (hlast : (all.filter (fun e => decide (LeftAt pre delimiter after e)))[i]? = some last) :
    all.filter (fun e => decide (LeftAt pre delimiter (entryKey last) e)) =
      restOf pre delimiter last
        ((all.filter (fun e => decide (LeftAt pre delimiter after e))).drop (i + 1)) := by
  obtain ⟨hmem, hleft⟩ := List.mem_filter.mp (List.mem_of_getElem? hlast)
  rw [decide_eq_true_eq] at hleft
  have hstray : after = [] → ¬ Stray pre delimiter after := by
    rintro rfl h
    exact h.1 (List.suffix_nil.mp h.2.1)
  rw [← filter_gt_getElem (hsorted.filter _) hlast (fun e _ => decide_eq_true_iff), restOf,
    List.filter_filter, List.filter_filter]
  refine List.filter_congr (fun e _ => ?_)
  rw [Bool.eq_iff_iff]
  simp only [Bool.and_eq_true, decide_eq_true_eq]
  constructor
  · rintro ⟨hlt, hhidden⟩
    have hlt := hlt.resolve_left (hkeys last hmem)
    refine ⟨⟨hhidden, hlt⟩, hleft.1.imp_right (fun h => h.trans hlt), fun h => hleft.2 ⟨h.1, ?_⟩⟩
    have hafter := hleft.1.resolve_left (fun hnil => hstray hnil h.1)
    exact isPrefix_of_le_of_le hafter.le hlt.le h.2
  · rintro ⟨⟨hhidden, hlt⟩, -⟩
    exact ⟨Or.inr hlt, hhidden⟩

/-- No page ends at an entry that hides the next one. -/
def Unhidden (pre delimiter : Bytes) (n : Nat) (es : List ListEntry) : Prop :=
  ∀ (i : Nat) (e e' : ListEntry), (i + 1) % n = 0 → es[i]? = some e → es[i + 1]? = some e' →
    ¬ (Stray pre delimiter (entryKey e) ∧ entryKey e <+: entryKey e')

theorem unhidden_of_length_le (hlen : es.length ≤ n) :
    Unhidden pre delimiter n es := by
  intro i e e' hmod _ he'
  have hlt : i + 1 < es.length := (List.getElem?_eq_some_iff.mp he').1
  rw [Nat.mod_eq_of_lt (by omega)] at hmod
  omega

theorem unhidden_iff {next : ListEntry} (hn : 0 < n) (hlast : es[n - 1]? = some last)
    (hnext : es[n]? = some next) :
    Unhidden pre delimiter n es ↔
      ¬ (Stray pre delimiter (entryKey last) ∧ entryKey last <+: entryKey next) ∧
        Unhidden pre delimiter n (es.drop n) := by
  constructor
  · intro h
    refine ⟨h (n - 1) last next (by rw [Nat.sub_add_cancel hn, Nat.mod_self]) hlast
      (by rw [Nat.sub_add_cancel hn]; exact hnext), fun i e e' hmod he he' => ?_⟩
    rw [List.getElem?_drop] at he he'
    refine h (n + i) e e' ?_ he he'
    rw [Nat.add_assoc, Nat.add_mod_left, hmod]
  · rintro ⟨hfirst, hrest⟩ i e e' hmod he he'
    rcases Nat.lt_or_ge i n with hlt | hge
    · obtain rfl : i = n - 1 := by
        rcases Nat.lt_or_ge (i + 1) n with hlt' | hge'
        · rw [Nat.mod_eq_of_lt hlt'] at hmod
          omega
        · omega
      rw [Nat.sub_add_cancel hn] at he'
      cases hlast.symm.trans he
      cases hnext.symm.trans he'
      exact hfirst
    · obtain ⟨j, rfl⟩ := Nat.exists_eq_add_of_le hge
      refine hrest j e e' ?_ (by rw [List.getElem?_drop]; exact he)
        (by rw [List.getElem?_drop]; exact he')
      rw [Nat.add_assoc, Nat.add_mod_left] at hmod
      exact hmod

theorem restOf_eq_iff {last next : ListEntry} {later : List ListEntry}
    (hsorted : (last :: next :: later).Pairwise (fun e e' => entryKey e < entryKey e')) :
    restOf pre delimiter last (next :: later) = next :: later ↔
      ¬ (Stray pre delimiter (entryKey last) ∧ entryKey last <+: entryKey next) := by
  rw [restOf, List.filter_eq_self]
  constructor
  · intro h
    exact of_decide_eq_true (h next List.mem_cons_self)
  · intro h e he
    refine decide_eq_true (fun hhidden => h ⟨hhidden.1, ?_⟩)
    obtain ⟨hfirst, hrest⟩ := List.pairwise_cons.mp hsorted
    have hle : entryKey next ≤ entryKey e := by
      rcases List.mem_cons.mp he with rfl | hmem
      · exact le_rfl
      · exact ((List.pairwise_cons.mp hrest).1 e hmem).le
    exact isPrefix_of_le_of_le (hfirst next List.mem_cons_self).le hle hhidden.2

end Hiding

/-! ## All pages -/

section Pages

variable {s : Store} {b pre delimiter : Bytes} {cfg : BucketConfig}

theorem Pages.unique {max : Int} {ls' : List Listing} (h : Pages s b pre delimiter max after ls)
    (h' : Pages s b pre delimiter max after ls') : ls = ls' := by
  induction h generalizing ls' with
  | last hpage htruncated =>
    cases h' with
    | last hpage' _ => rw [Except.ok.inj (hpage.symm.trans hpage')]
    | more hpage' htruncated' _ =>
      rw [Except.ok.inj (hpage.symm.trans hpage'), htruncated'] at htruncated
      cases htruncated
  | more hpage htruncated _ ih =>
    cases h' with
    | last hpage' htruncated' =>
      rw [Except.ok.inj (hpage.symm.trans hpage'), htruncated'] at htruncated
      cases htruncated
    | more hpage' _ hrest' =>
      obtain rfl := Except.ok.inj (hpage.symm.trans hpage')
      rw [ih hrest']

theorem entryKey_ne_nil (hs : Typed s) (hkeyed : Keyed s)
    (he : e ∈ groupedListing s b pre delimiter) : entryKey e ≠ [] := by
  obtain ⟨o, ho, hrow⟩ := mem_grouped.mp he
  obtain ⟨hcur, -, -⟩ := (hs.mem_listingRows (k := o.key) (c := o.current)).mp ho
  rcases entryOfRow_cases pre delimiter o with ⟨-, hentry⟩ | ⟨g, hg, hentry⟩
  · obtain rfl := hrow.symm.trans hentry
    exact hkeyed.current hcur
  · obtain rfl := hrow.symm.trans hentry
    rintro rfl
    exact (groupOf_eq_some hg).1 (List.suffix_nil.mp (groupOf_isSuffix hg))

/-- From any resume point there are pages to the end.  They hold no more than
what is left, and all of it exactly when no page ends at an entry that hides
the next. -/
theorem exists_pages (hs : Typed s) (hkeyed : Keyed s) (hb : bucketAt s b = some cfg) {n : Nat}
    (hn : 0 < n) (hafter : after = [] ∨ ∃ e ∈ groupedListing s b pre delimiter, entryKey e = after)
    {es : List ListEntry}
    (hes : es = (groupedListing s b pre delimiter).filter
      (fun e => decide (LeftAt pre delimiter after e))) :
    ∃ ls, Pages s b pre delimiter n after ls ∧ (ls.map Listing.size).sum ≤ es.length ∧
      (CompletePaging es ls ↔ Unhidden pre delimiter n es) := by
  have hall : (groupedListing s b pre delimiter).Pairwise (fun e e' => entryKey e < entryKey e') :=
    grouped_sorted hs.listingRows_sorted
  -- By induction on what is left: a page that is truncated has an entry.
  induction hlen : es.length using Nat.strong_induction_on generalizing after es with
  | _ len ih =>
    have hpage := collectListing_eq hs hkeyed hb hn hafter
    rw [← hes] at hpage
    have hsorted : es.Pairwise (fun e e' => entryKey e < entryKey e') := hes ▸ hall.filter _
    rcases Nat.lt_or_ge n es.length with hmore | hlast
    · obtain ⟨m, rfl⟩ : ∃ m, n = m + 1 := ⟨n - 1, by omega⟩
      obtain ⟨last, hlast⟩ : ∃ last, es[m]? = some last :=
        ⟨_, List.getElem?_eq_getElem (by omega)⟩
      obtain ⟨next, hnext⟩ : ∃ next, es[m + 1]? = some next :=
        ⟨_, List.getElem?_eq_getElem hmore⟩
      have hmem : last ∈ groupedListing s b pre delimiter := by
        have h := List.mem_of_getElem? hlast
        rw [hes] at h
        exact (List.mem_filter.mp h).1
      have hrest := filter_leftAt hall (fun e he => entryKey_ne_nil hs hkeyed he) (hes ▸ hlast)
      rw [← hes] at hrest
      have hshort : (restOf pre delimiter last (es.drop (m + 1))).length ≤ es.length - (m + 1) :=
        (List.length_filter_le _ _).trans (Nat.le_of_eq List.length_drop)
      obtain ⟨ls, hpages, hsum, hiff⟩ := ih _ (by omega) (Or.inr ⟨last, hmem, rfl⟩) hrest.symm rfl
      refine ⟨fillPage {} (m + 1) es :: ls, .more hpage (decide_eq_true hmore) ?_, ?_, ?_⟩
      · rwa [next_fillPage hlast]
      · rw [List.map_cons, List.sum_cons, size_fillPage, Nat.min_eq_left hmore.le]
        omega
      · have hdrop : es.drop m = last :: next :: es.drop (m + 2) := by
          rw [List.drop_eq_getElem_cons (by omega), List.drop_eq_getElem_cons hmore]
          rw [List.getElem?_eq_some_iff] at hlast hnext
          rw [hlast.2, hnext.2]
        have hdrop' : es.drop (m + 1) = next :: es.drop (m + 2) := by
          rw [← List.drop_drop, hdrop]
          rfl
        have hhidden := @restOf_eq_iff pre delimiter last next (es.drop (m + 2))
          (hdrop ▸ hsorted.drop)
        rw [← hdrop'] at hhidden
        rw [completePaging_cons hsorted hmore, unhidden_iff hn hlast hnext, ← hhidden]
        by_cases heq : restOf pre delimiter last (es.drop (m + 1)) = es.drop (m + 1)
        · rw [heq] at hiff
          rw [hiff, and_iff_right heq]
        · refine iff_of_false (fun h => ?_) (fun h => heq h.1)
          have hlt : (restOf pre delimiter last (es.drop (m + 1))).length <
              (es.drop (m + 1)).length :=
            lt_of_le_of_ne (List.length_filter_le _ _) (fun h => heq
              (List.Sublist.eq_of_length List.filter_sublist h))
          have hsize := h.sum_size
          omega
    · refine ⟨[fillPage {} n es], .last hpage (decide_eq_false (Nat.not_lt.mpr hlast)), ?_, ?_⟩
      · simp [size_fillPage, hlen]
      · exact iff_of_true (completePaging_last hsorted hlast) (unhidden_of_length_le hlast)

end Pages

/-- No page ends at an object whose key ends with the delimiter and starts the
next entry. -/
def Resumable (delimiter : Bytes) (n : Nat) (es : List ListEntry) : Prop :=
  ∀ (i : Nat) (o : ObjectListing) (e : ListEntry), (i + 1) % n = 0 → es[i]? = some (.item o) →
    es[i + 1]? = some e → delimiter ≠ [] → delimiter <:+ o.key → ¬ o.key <+: entryKey e

theorem unhidden_iff_resumable {s : Store} {b pre delimiter : Bytes} {n : Nat} :
    Unhidden pre delimiter n (groupedListing s b pre delimiter) ↔
      Resumable delimiter n (groupedListing s b pre delimiter) := by
  have hitem : ∀ (e : ListEntry), e ∈ groupedListing s b pre delimiter →
      (Stray pre delimiter (entryKey e) ↔
        ∃ o, e = .item o ∧ delimiter ≠ [] ∧ delimiter <:+ o.key) := by
    intro e he
    obtain ⟨o, -, hrow⟩ := mem_grouped.mp he
    rcases entryOfRow_cases pre delimiter o with ⟨hg, hentry⟩ | ⟨g, hg, hentry⟩
    · obtain rfl := hrow.symm.trans hentry
      constructor
      · exact fun h => ⟨o, rfl, h.1, h.2.1⟩
      · rintro ⟨o', ho', hne, hsuffix⟩
        cases ho'
        exact ⟨hne, hsuffix, hg⟩
    · obtain rfl := hrow.symm.trans hentry
      have hgroup := groupOf_of_isPrefix hg (List.prefix_refl g)
      refine iff_of_false (fun h => ?_) (by rintro ⟨o', ho', -⟩; cases ho')
      rw [show entryKey (.group g : ListEntry) = g from rfl, Stray, hgroup] at h
      cases h.2.2
  constructor
  · intro h i o e hmod hi hnext hne hsuffix hpre
    exact h i _ e hmod hi hnext
      ⟨(hitem _ (List.mem_of_getElem? hi)).mpr ⟨o, rfl, hne, hsuffix⟩, hpre⟩
  · intro h i e e' hmod hi hnext hhidden
    obtain ⟨o, rfl, hne, hsuffix⟩ := (hitem e (List.mem_of_getElem? hi)).mp hhidden.1
    exact h i o e' hmod hi hnext hne hsuffix hhidden.2

/-- The pages of a listing are the whole listing exactly when no page ends at an
object that is taken for a common prefix and hides the next entry. -/
theorem completePaging_iff {ps : List Proposal} {b pre delimiter : Bytes}
    {cfg : BucketConfig} (hb : bucketAt (runMem newStore ps) b = some cfg) {n : Nat} (hn : 0 < n) :
    (∃ ls, Pages (runMem newStore ps) b pre delimiter n [] ls ∧
      CompletePaging (groupedListing (runMem newStore ps) b pre delimiter) ls) ↔
    Resumable delimiter n (groupedListing (runMem newStore ps) b pre delimiter) := by
  have hwhole : groupedListing (runMem newStore ps) b pre delimiter =
      (groupedListing (runMem newStore ps) b pre delimiter).filter
        (fun e => decide (LeftAt pre delimiter [] e)) := by
    refine (List.filter_eq_self.mpr (fun e _ => decide_eq_true ⟨Or.inl rfl, fun h => ?_⟩)).symm
    exact h.1.1 (List.suffix_nil.mp h.1.2.1)
  obtain ⟨ls, hpages, -, hiff⟩ := exists_pages (typed_runMem ps) (keyed_runMem ps) hb hn
    (Or.inl rfl) hwhole
  rw [← unhidden_iff_resumable, ← hiff]
  constructor
  · rintro ⟨ls', hpages', hcomplete⟩
    rwa [hpages.unique hpages']
  · exact fun h => ⟨ls, hpages, h⟩

/-! Objects in a folder, which is listed under the prefix `d/` with the delimiter
`/`. -/

def folder (keys : List Bytes) : Store :=
  runMem newStore (.createBucket ⟨1, [97, 97, 97], false⟩ :: keys.map (fun key =>
    .putObject { proposedAtUnixMS := 2, bucket := [97, 97, 97], key
                 versionID := VersionID.newVersionID 2 0 0 }))

def folderListing (keys : List Bytes) : List ListEntry :=
  groupedListing (folder keys) [97, 97, 97] [100, 47] [47]

/-- The placeholder of the folder, and one object: `d/` and `d/f`. -/
def placeholder : List Bytes := [[100, 47], [100, 47, 102]]

def firstPage : Listing :=
  (collectListing (folder placeholder) [97, 97, 97] [100, 47] [47] [] 1).toOption.getD {}

/-- In pages of one the placeholder ends the first page, and the second is
empty: the object in the folder is lost. -/
theorem paging_loses_object :
    (folderListing placeholder).map entryKey = placeholder ∧
    firstPage.objects.map (·.key) = [[100, 47]] ∧ firstPage.truncated = true ∧
    Pages (folder placeholder) [97, 97, 97] [100, 47] [47] 1 [] [firstPage, {}] ∧
    ¬ ∃ ls, Pages (folder placeholder) [97, 97, 97] [100, 47] [47] 1 [] ls ∧
      CompletePaging (folderListing placeholder) ls := by
  have hpages : Pages (folder placeholder) [97, 97, 97] [100, 47] [47] 1 [] [firstPage, {}] :=
    .more (by decide +kernel) (by decide +kernel) (.last (by decide +kernel) rfl)
  refine ⟨by decide +kernel, by decide +kernel, by decide +kernel, hpages, ?_⟩
  rintro ⟨ls, hls, hcomplete⟩
  obtain rfl := hls.unique hpages
  exact absurd hcomplete.sum_size (by decide +kernel)

/-- The objects `d/`, `d/f` and `d/h`, and two under `d/g/`. -/
def nested : List Bytes :=
  [[100, 47], [100, 47, 102], [100, 47, 103, 47, 120], [100, 47, 103, 47, 121], [100, 47, 104]]

/-- In pages of two the listing of four entries is whole. -/
theorem paging_by_two :
    (folderListing nested).map entryKey =
      [[100, 47], [100, 47, 102], [100, 47, 103, 47], [100, 47, 104]] ∧
    ∃ ls, Pages (folder nested) [97, 97, 97] [100, 47] [47] 2 [] ls ∧
      CompletePaging (folderListing nested) ls := by
  have hkeys : (folderListing nested).map entryKey =
      [[100, 47], [100, 47, 102], [100, 47, 103, 47], [100, 47, 104]] := by
    decide +kernel
  obtain ⟨cfg, hcfg⟩ : ∃ cfg, bucketAt (folder nested) [97, 97, 97] = some cfg :=
    Option.isSome_iff_exists.mp (by decide +kernel)
  refine ⟨hkeys, (completePaging_iff (n := 2) hcfg (by decide)).mpr ?_⟩
  intro i o e hmod hi hnext _ hsuffix
  have hlen : (folderListing nested).length = 4 := by simpa using congrArg List.length hkeys
  have hlt : i + 1 < 4 := hlen ▸ (List.getElem?_eq_some_iff.mp hnext).1
  -- The first page ends at `d/f`.
  obtain rfl : i = 1 := by omega
  have hkey : some (entryKey (.item o)) = some [100, 47, 102] := by
    rw [← Option.map_some, ← hi, ← List.getElem?_map]
    exact congrArg (·[1]?) hkeys
  have hkey : o.key = [100, 47, 102] := Option.some.inj hkey
  rw [hkey] at hsuffix
  exact absurd hsuffix (by decide)

end Hamster.Gateway
