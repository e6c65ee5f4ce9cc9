import Hamster.Place.Spread
import Mathlib.Data.Finset.Card
import Mathlib.Data.List.Chain

/-!
# Laws of placement

What the callers of `spread` rely on.  For distinct members a placement is a list
of distinct nodes that does not depend on the order of the member list, that a
narrower placement is a front of, and in which draining nodes come last
(`spread_lawful`).  Its shards are spread evenly over the zones and, inside a zone,
over the hosts, as far as the members allow (`spread_balanced`): in every round the
pick lies in a least loaded zone that has a member left, so a zone falls two behind
another one only when it has none left.

Members that occur twice are found by comparing neighbours in the ranking.  Their
scores are equal, but the ranking is by the weighted score, and entries of one ID
with different weights need not be neighbours.  `refusesDuplicates_iff` says when they
are found.
-/

namespace Hamster.Place

open CodeLib Meta

section Laws

variable {partition : UInt64} {members : List Node} {width : Nat}

def Drains (members : List Node) (id : NodeID) : Prop :=
  ∃ m ∈ members, m.id = id ∧ m.draining = true

structure Lawful (partition : UInt64) (members : List Node) (width : Nat) (ns : List NodeID) :
    Prop where
  length : ns.length = width
  nodup : ns.Nodup
  mem : ∀ id ∈ ns, id ∈ members.map (·.id)
  perm : ∀ members', members'.Perm members → spread partition members' width = .ok ns
  narrower : ∀ w, 0 < w → w ≤ width → spread partition members w = .ok (ns.take w)
  drainingLast : ns.Pairwise (fun a b => Drains members a → Drains members b)
  active : width ≤ (members.filter (!·.draining)).length →
    spread partition (members.filter (!·.draining)) width = .ok ns

theorem rank_eq_of_perm {members' : List Node} (hids : (members.map (·.id)).Nodup)
    (h : members'.Perm members) : rank partition members' = rank partition members :=
  insertionSort_eq_of_perm (h.map _) (ranked_anti hids)

theorem picks_drainingLast :
    (picks partition members width).Pairwise (fun a b => a.node.draining → b.node.draining) := by
  refine (greedy_pairwise better_active not_better_draining width Loads.none
    (rank partition members)).imp (fun h ha => ?_)
  by_contra hb
  simp_all

theorem drains_iff (hids : (members.map (·.id)).Nodup) {r : Ranked}
    (hr : r ∈ rank partition members) : Drains members r.node.id ↔ r.node.draining = true := by
  obtain ⟨m, hm, rfl⟩ := mem_rank.mp hr
  constructor
  · rintro ⟨m', hm', hid, hdrains⟩
    rw [← List.inj_on_of_nodup_map hids hm' hm hid]
    exact hdrains
  · exact fun hdrains => ⟨m, hm, rfl, hdrains⟩

/-- Every placement on distinct members that fits exists and is lawful. -/
theorem spread_lawful (hids : (members.map (·.id)).Nodup) (hpos : 0 < width)
    (hfit : width ≤ members.length) :
    ∃ ns, spread partition members width = .ok ns ∧ Lawful partition members width ns := by
  have hok {w : Nat} (hw : 0 < w) (hwfit : w ≤ members.length) : spread partition members w =
      .ok ((picks partition members w).map (·.node.id)) :=
    spread_eq_ok_iff.mpr ⟨hw, hwfit, duplicateMember_rank_of_nodup hids, rfl⟩
  have hspread := hok hpos hfit
  refine ⟨_, hspread, length_of_spread hspread, spread_nodup hids hspread, ?_, ?_, ?_, ?_, ?_⟩
  · intro id hid
    obtain ⟨m, hm, rfl⟩ := mem_of_mem_spread hspread hid
    exact List.mem_map.mpr ⟨m, hm, rfl⟩
  · intro members' hperm
    rw [← hspread, spread, spread, rank_eq_of_perm hids hperm, hperm.length_eq]
  · intro w hw hle
    rw [hok hw (hle.trans hfit), ← List.map_take, picks, picks, greedy_take hle]
  · rw [List.pairwise_map]
    refine picks_drainingLast.imp_of_mem (fun {a b} ha hb hab => ?_)
    rw [drains_iff hids (mem_of_mem_greedy ha), drains_iff hids (mem_of_mem_greedy hb)]
    exact hab
  · intro hactive
    rw [← spread_eq_active hids hactive, hspread]

end Laws

/-- Two hosts in one zone, and a draining one. -/
def threeNodes : List Node :=
  [{ id := [1], host := [1], zone := [9] }, { id := [2], host := [2], zone := [9], weight := 3 },
    { id := [3], host := [3], zone := [8], draining := true }]

theorem spread_lawful_threeNodes :
    ∃ ns, spread 5 threeNodes 2 = .ok ns ∧ Lawful 5 threeNodes 2 ns :=
  spread_lawful (by decide) (by decide) (by decide)

/-! ## Members that occur twice -/

variable {rs : List Ranked}

section Duplicates

variable {partition : UInt64} {members : List Node} {width : Nat}

/-- No placement has a node twice, and none is made of members that occur twice. -/
def RefusesDuplicates (partition : UInt64) (members : List Node) (width : Nat) : Prop :=
  (∀ ns, spread partition members width = .ok ns → ns.Nodup) ∧
    (¬(members.map (·.id)).Nodup → ∃ e, spread partition members width = .error e)

def RanksBetween (a c b : Ranked) : Prop :=
  rankedBefore a c ∧ rankedBefore c b ∨ rankedBefore b c ∧ rankedBefore c a

/-- An entry of another ID ranks between two of one ID. -/
def Parted (rs : List Ranked) (a b : Ranked) : Prop :=
  a.node.id = b.node.id → ∃ c ∈ rs, c.node.id ≠ a.node.id ∧ RanksBetween a c b

/-- An entry of another ID ranks between any two entries of one ID. -/
def Separated (partition : UInt64) (members : List Node) : Prop :=
  (members.map (rankedFor partition)).Pairwise (Parted (members.map (rankedFor partition)))

theorem duplicateMember_eq_none_iff :
    duplicateMember rs = none ↔ rs.IsChain (fun a b => b.node.id ≠ a.node.id) := by
  induction rs with
  | nil => simp [duplicateMember]
  | cons a rest ih =>
    cases rest with
    | nil => simp [duplicateMember]
    | cons b rest =>
      rw [duplicateMember, List.isChain_cons_cons, ← ih]
      split
      next heq => simp [heq]
      next hne => simp [hne]

/-- In a sorted list without neighbours of one ID, the entry after the first of two
parts them. -/
theorem parted_of_isChain (hsorted : rs.Pairwise rankedBefore)
    (h : rs.IsChain (fun a b => b.node.id ≠ a.node.id)) : rs.Pairwise (Parted rs) := by
  induction rs with
  | nil => exact .nil
  | cons a rest ih =>
    have hrest : rest.Pairwise (Parted (a :: rest)) :=
      (ih hsorted.of_cons h.tail).imp (fun hparted heq => by
        obtain ⟨c, hc, hbetween⟩ := hparted heq
        exact ⟨c, List.mem_cons_of_mem a hc, hbetween⟩)
    refine .cons (fun b hb heq => ?_) hrest
    cases rest with
    | nil => cases hb
    | cons c rest =>
      have hne := (List.isChain_cons_cons.mp h).1
      refine ⟨c, by simp, hne, Or.inl ⟨List.rel_of_pairwise_cons hsorted List.mem_cons_self, ?_⟩⟩
      rcases List.mem_cons.mp hb with rfl | hb
      · exact absurd heq.symm hne
      · exact List.rel_of_pairwise_cons hsorted.of_cons hb

theorem isChain_of_parted (hsorted : rs.Pairwise rankedBefore) (h : rs.Pairwise (Parted rs)) :
    rs.IsChain (fun a b => b.node.id ≠ a.node.id) := by
  refine List.isChain_iff_forall_rel_of_append_cons_cons.mpr ?_
  rintro a b front back rfl heq
  rw [List.pairwise_append, List.pairwise_cons, List.pairwise_cons] at hsorted h
  obtain ⟨c, hc, hne, hbetween⟩ := h.2.1.1 b List.mem_cons_self heq.symm
  have hapart {x : Ranked} (hx : x.node.id = a.node.id) (hcx : rankedBefore c x)
      (hxc : rankedBefore x c) : False := hne ((id_eq_of_rankedBefore hcx hxc).trans hx)
  simp only [List.mem_append, List.mem_cons] at hc
  rcases hc with hc | rfl | rfl | hc
  · have hca := hsorted.2.2 c hc a List.mem_cons_self
    have hcb := hsorted.2.2 c hc b (by simp)
    exact hbetween.elim (fun h => hapart rfl hca h.1) (fun h => hapart heq hcb h.1)
  · exact hne rfl
  · exact hne heq
  · have hac := hsorted.2.1.1 c (by simp [hc])
    have hbc := hsorted.2.1.2.1 c hc
    exact hbetween.elim (fun h => hapart heq h.2 hbc) (fun h => hapart rfl h.2 hac)

theorem parted_symm : Std.Symm (Parted rs) where
  symm a b h heq := by
    obtain ⟨c, hc, hne, hbetween⟩ := h heq.symm
    exact ⟨c, hc, heq ▸ hne, hbetween.symm⟩

theorem duplicateMember_rank_eq_none_iff :
    duplicateMember (rank partition members) = none ↔ Separated partition members := by
  have hsorted := List.pairwise_insertionSort rankedBefore (members.map (rankedFor partition))
  have hperm := List.perm_insertionSort rankedBefore (members.map (rankedFor partition))
  have hparted : Parted (rank partition members) = Parted (members.map (rankedFor partition)) := by
    funext a b
    simp only [Parted, rank, hperm.mem_iff]
  rw [duplicateMember_eq_none_iff, Separated, ← hparted]
  rw [← hperm.pairwise_iff (fun h => parted_symm.symm _ _ h)]
  exact ⟨parted_of_isChain hsorted, isChain_of_parted hsorted⟩

/-- Members that occur twice are refused, but for those that others rank between. -/
theorem refusesDuplicates_iff (partition : UInt64) (members : List Node) (width : Nat) :
    RefusesDuplicates partition members width ↔
      (members.map (·.id)).Nodup ∨ width = 0 ∨ members.length < width ∨
        ¬Separated partition members := by
  rw [← duplicateMember_rank_eq_none_iff]
  constructor
  · rintro ⟨-, hrefuses⟩
    by_contra hnot
    simp only [not_or, not_not, not_lt] at hnot
    obtain ⟨hids, hpos, hfit, hnone⟩ := hnot
    obtain ⟨e, he⟩ := hrefuses hids
    obtain ⟨ns, hns⟩ := spread_isOk_iff.mpr ⟨Nat.pos_of_ne_zero hpos, hfit, hnone⟩
    cases he.symm.trans hns
  · intro h
    by_cases hids : (members.map (·.id)).Nodup
    · exact ⟨fun ns hns => spread_nodup hids hns, fun hdup => absurd hids hdup⟩
    have hnot : ¬∃ ns, spread partition members width = .ok ns := by
      rw [spread_isOk_iff]
      rintro ⟨hpos, hfit, hnone⟩
      rcases h with h | h | h | h
      · exact hids h
      · omega
      · omega
      · exact h hnone
    refine ⟨fun ns hns => absurd ⟨ns, hns⟩ hnot, fun _ => ?_⟩
    cases hspread : spread partition members width with
    | error e => exact ⟨e, rfl⟩
    | ok ns => exact absurd ⟨ns, hspread⟩ hnot

end Duplicates

/-- Two entries of one ID whose weights rank them on either side of another member. -/
def twinNodes : List Node :=
  [{ id := [1], host := [1], zone := [1] }, { id := [2], host := [2], zone := [2] },
    { id := [1], host := [1], zone := [1], weight := 100 }]

/-- One node gets two shards. -/
theorem twinNodes_not_refused :
    spread 0 twinNodes 3 = .ok [[1], [2], [1]] ∧ ¬RefusesDuplicates 0 twinNodes 3 := by
  have hspread : spread 0 twinNodes 3 = .ok [[1], [2], [1]] := by decide +kernel
  refine ⟨hspread, fun h => ?_⟩
  exact absurd (h.1 _ hspread) (by decide)

/-! ## Balance -/

section Balance

variable {partition : UInt64} {members : List Node} {width : Nat}

/-- The members that a placement puts a shard on. -/
def placed (members : List Node) (ns : List NodeID) : List Node :=
  members.filter (fun m => ns.contains m.id)

def OneZone (members : List Node) : Prop :=
  ∀ m ∈ members, ∀ m' ∈ members, m.host = m'.host → m.zone = m'.zone

/-- The shards of a placement are spread over the zones, and inside a zone over the
hosts.  A domain falls more than one shard behind when it has no member left. -/
structure Balanced (members : List Node) (ns : List NodeID) : Prop where
  zones : ((placed members ns).map (·.zone)).toFinset.card =
    min ns.length (members.map (·.zone)).toFinset.card
  zoneLoad : ∀ z z', (placed members ns).countP (·.zone = z) + 1 <
      (placed members ns).countP (·.zone = z') → ∀ m ∈ members, m.zone = z → m.id ∈ ns
  hostLoad : OneZone members → ∀ m ∈ members, ∀ m' ∈ members, m.zone = m'.zone →
    (placed members ns).countP (·.host = m.host) + 1 <
      (placed members ns).countP (·.host = m'.host) →
    ∀ m₀ ∈ members, m₀.host = m.host → m₀.id ∈ ns

/-- What a round compares, in the order of its tests. -/
def loadKey (l : Loads) (r : Ranked) : Bool ×ₗ ℕ ×ₗ ℕ :=
  toLex (r.node.draining, toLex (l.zone r.node.zone, l.host r.node.host))

theorem better_iff (l : Loads) (a b : Ranked) :
    better l a b = true ↔ loadKey l a < loadKey l b := by
  rw [loadKey, loadKey, Prod.Lex.toLex_lt_toLex, Prod.Lex.toLex_lt_toLex, better]
  cases a.node.draining <;> cases b.node.draining <;> simp

/-- The picks so far, their loads and the members that are left. -/
structure Round (rs done : List Ranked) (l : Loads) (rest : List Ranked) : Prop where
  perm : (done ++ rest).Perm rs
  zone : ∀ z, l.zone z = done.countP (·.node.zone = z)
  host : ∀ h, l.host h = done.countP (·.node.host = h)
  zoneLoad : ∀ z, ∀ r ∈ rest, l.zone z ≤ l.zone r.node.zone + 1
  hostLoad : (∀ r ∈ rs, ∀ r' ∈ rs, r.node.host = r'.node.host → r.node.zone = r'.node.zone) →
    ∀ r ∈ rest, ∀ r' ∈ rs, r.node.zone = r'.node.zone →
      l.host r'.node.host ≤ l.host r.node.host + 1

variable {rest : List Ranked}

/-- The pick lies in a least loaded zone that has a member left and, there, on a
least loaded host. -/
theorem Round.step {done : List Ranked} {l : Loads} {x : Ranked}
    (hactive : ∀ r ∈ rs, r.node.draining = false) (h : Round rs done l rest)
    (hx : select (better l) rest = some x) :
    Round rs (done ++ [x]) (l.add x.node) (rest.erase x) := by
  have hmem := mem_of_select hx
  have hrs : ∀ r ∈ rest, r ∈ rs := fun r hr => h.perm.mem_iff.mp (List.mem_append_right _ hr)
  have hmin : ∀ r ∈ rest, l.zone x.node.zone < l.zone r.node.zone ∨
      l.zone x.node.zone = l.zone r.node.zone ∧ l.host x.node.host ≤ l.host r.node.host := by
    intro r hr
    have hle := key_select_le (better_iff l) hx r hr
    rw [loadKey, loadKey, hactive x (hrs x hmem), hactive r (hrs r hr), Prod.Lex.toLex_le_toLex,
      Prod.Lex.toLex_le_toLex] at hle
    simpa using hle
  refine ⟨?_, fun z => ?_, fun y => ?_, fun z r hr => ?_, fun hone r hr r' hr' hzone => ?_⟩
  · rw [List.append_assoc, List.singleton_append]
    exact ((List.perm_cons_erase hmem).symm.append_left done).trans h.perm
  · by_cases hz : z = x.node.zone
    · simp [Loads.add, h.zone, hz]
    · simp [Loads.add, h.zone, hz, Ne.symm hz]
  · by_cases hy : y = x.node.host
    · simp [Loads.add, h.host, hy]
    · simp [Loads.add, h.host, hy, Ne.symm hy]
  · have hr' := List.mem_of_mem_erase hr
    have hold := h.zoneLoad z r hr'
    have hbest := hmin r hr'
    simp only [Loads.add]
    split_ifs with hz hzr
    · omega
    · subst hz
      omega
    · omega
    · exact hold
  · have hrest := List.mem_of_mem_erase hr
    have hold := h.hostLoad hone r hrest r' hr' hzone
    have hbest := hmin r hrest
    simp only [Loads.add]
    split_ifs with hh hhr
    · omega
    · -- the pick is on the host of `r'`, so in the zone of `r`
      have hsame := hone r' hr' x (hrs x hmem) hh
      rw [hzone, hsame] at hbest
      rw [hh]
      omega
    · omega
    · exact hold

theorem placed_perm (hids : (members.map (·.id)).Nodup) (partition : UInt64) (width : Nat) :
    (placed members ((picks partition members width).map (·.node.id))).Perm
      ((picks partition members width).map (·.node)) := by
  have hpicks : (((picks partition members width).map (·.node)).map (·.id)).Nodup := by
    rw [List.map_map]
    exact picks_nodup hids
  refine (List.perm_ext_iff_of_nodup (hids.of_map.filter _) hpicks.of_map).mpr (fun m => ?_)
  rw [List.mem_filter, List.contains_iff_mem, List.mem_map, List.mem_map]
  constructor
  · rintro ⟨hm, r, hr, hid⟩
    obtain ⟨m', hm', rfl⟩ := mem_rank.mp (mem_of_mem_greedy hr)
    exact ⟨_, hr, List.inj_on_of_nodup_map hids hm' hm hid⟩
  · rintro ⟨r, hr, rfl⟩
    obtain ⟨m', hm', rfl⟩ := mem_rank.mp (mem_of_mem_greedy hr)
    exact ⟨hm', _, hr, rfl⟩

theorem exists_round (hactive : ∀ m ∈ members, m.draining = false) (partition : UInt64)
    (width : Nat) :
    ∃ l rest, Round (rank partition members) (picks partition members width) l rest := by
  refine exists_of_greedy (fun done l rest x h hx => ?_) width ?_
  · refine h.step (fun r hr => ?_) hx
    obtain ⟨m, hm, rfl⟩ := mem_rank.mp hr
    exact hactive m hm
  · exact ⟨.refl _, fun _ => rfl, fun _ => rfl, fun _ _ _ => Nat.zero_le _,
      fun _ _ _ _ _ _ => Nat.zero_le _⟩

theorem card_toFinset_eq_min {α : Type} [DecidableEq α] {xs ys : List α} (hsub : xs ⊆ ys)
    (h : ys ⊆ xs ∨ xs.Nodup) : xs.toFinset.card = min xs.length ys.toFinset.card := by
  have hmono {us vs : List α} (h : us ⊆ vs) : us.toFinset.card ≤ vs.toFinset.card :=
    Finset.card_le_card (fun z hz => List.mem_toFinset.mpr (h (List.mem_toFinset.mp hz)))
  have hle := hmono hsub
  have hlen := xs.toFinset_card_le
  rcases h with hall | hnodup
  · have hge := hmono hall
    omega
  · rw [List.toFinset_card_of_nodup hnodup] at hle ⊢
    omega

theorem Round.balanced {l : Loads} (hids : (members.map (·.id)).Nodup)
    (h : Round (rank partition members) (picks partition members width) l rest) :
    Balanced members ((picks partition members width).map (·.node.id)) := by
  have hperm := placed_perm hids partition width
  have hrest : ∀ m ∈ members, m.id ∉ (picks partition members width).map (·.node.id) →
      rankedFor partition m ∈ rest := by
    intro m hm hnot
    have hmem := h.perm.mem_iff.mpr (mem_rank.mpr ⟨m, hm, rfl⟩)
    exact (List.mem_append.mp hmem).resolve_left (fun h => hnot (List.mem_map.mpr ⟨_, h, rfl⟩))
  have hlen : ((picks partition members width).map (·.node.id)).length =
      (placed members ((picks partition members width).map (·.node.id))).length := by
    rw [hperm.length_eq, List.length_map, List.length_map]
  have hcount (p : Node → Bool) : (placed members
      ((picks partition members width).map (·.node.id))).countP p =
        (picks partition members width).countP (fun r => p r.node) := by
    rw [hperm.countP_eq, List.countP_map]
    rfl
  generalize (picks partition members width).map (·.node.id) = ns at hrest hlen hcount ⊢
  have hzone (z : Bytes) : (placed members ns).countP (·.zone = z) = l.zone z :=
    (hcount _).trans (h.zone z).symm
  have hhost (y : Bytes) : (placed members ns).countP (·.host = y) = l.host y :=
    (hcount _).trans (h.host y).symm
  refine ⟨?_, fun z z' hlt m hm hz => ?_, fun hone m hm m' hm' hz hlt m₀ hm₀ hh => ?_⟩
  · rw [hlen, ← List.length_map (·.zone)]
    refine card_toFinset_eq_min (List.map_subset _ List.filter_sublist.subset) ?_
    refine or_iff_not_imp_left.mpr (fun hall => List.nodup_iff_count_le_one.mpr (fun z => ?_))
    -- a zone without a shard has a member left, so no zone has two
    obtain ⟨m, hm, hnone⟩ : ∃ m ∈ members, m.zone ∉ (placed members ns).map (·.zone) := by
      simpa [List.subset_def] using hall
    have hcount (z : Bytes) : ((placed members ns).map (·.zone)).count z = l.zone z := by
      rw [← hzone, List.count_eq_countP, List.countP_map]
      exact List.countP_congr (fun _ _ => by simp)
    have hnot : m.id ∉ ns := fun hid =>
      hnone (List.mem_map.mpr ⟨m, List.mem_filter.mpr ⟨hm, List.contains_iff_mem.mpr hid⟩, rfl⟩)
    have hload := h.zoneLoad z _ (hrest m hm hnot)
    have hzero := hcount m.zone
    rw [List.count_eq_zero.mpr hnone] at hzero
    rw [hcount]
    rw [rankedFor, ← hzero] at hload
    exact hload
  · by_contra hnot
    have hload := h.zoneLoad z' _ (hrest m hm hnot)
    rw [hzone, hzone, ← hz] at hlt
    exact absurd hload (Nat.not_le.mpr hlt)
  · by_contra hnot
    have hranks : ∀ r ∈ rank partition members, ∀ r' ∈ rank partition members,
        r.node.host = r'.node.host → r.node.zone = r'.node.zone := by
      intro r hr r' hr' heq
      obtain ⟨n, hn, rfl⟩ := mem_rank.mp hr
      obtain ⟨n', hn', rfl⟩ := mem_rank.mp hr'
      exact hone n hn n' hn' heq
    have hload := h.hostLoad hranks _ (hrest m₀ hm₀ hnot) (rankedFor partition m')
      (mem_rank.mpr ⟨m', hm', rfl⟩) ((hone m₀ hm₀ m hm hh).trans hz)
    rw [hhost, hhost, ← hh] at hlt
    exact absurd hload (Nat.not_le.mpr hlt)

/-- A placement on distinct active members is balanced. -/
theorem spread_balanced (hids : (members.map (·.id)).Nodup)
    (hactive : ∀ m ∈ members, m.draining = false) (hpos : 0 < width)
    (hfit : width ≤ members.length) :
    ∃ ns, spread partition members width = .ok ns ∧ Balanced members ns := by
  obtain ⟨l, rest, hround⟩ := exists_round hactive partition width
  exact ⟨_, spread_eq_ok_iff.mpr ⟨hpos, hfit, duplicateMember_rank_of_nodup hids, rfl⟩,
    hround.balanced hids⟩

end Balance

def twoZones : List Node :=
  [{ id := [1], host := [1], zone := [9] }, { id := [2], host := [1], zone := [9] },
    { id := [3], host := [2], zone := [9] }, { id := [4], host := [3], zone := [8] }]

theorem spread_balanced_twoZones :
    ∃ ns, spread 5 twoZones 3 = .ok ns ∧ Balanced twoZones ns :=
  spread_balanced (by decide) (by decide) (by decide) (by decide)

end Hamster.Place
