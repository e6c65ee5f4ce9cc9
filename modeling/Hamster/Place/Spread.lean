import Hamster.CodeLib.Greedy
import Hamster.Meta.VersionID
import Mathlib.Algebra.Order.Field.Rat
import Mathlib.Data.Prod.Lex
import Mathlib.Tactic.FieldSimp

/-!
# Placement

`internal/place/place.go`: which partition an object belongs to, and which
nodes hold the shards of a partition.

`spread` ranks the members by weighted rendezvous hashing and picks nodes
greedily: active nodes before draining ones, then the zone with the fewest
picks, then the host, then the rank.  The ranking compares `weight / -ln(score)`
by cross multiplication in 128-bit integers.  A `Ranked` member carries that
both terms are positive, which is what makes the comparison an order: `key` is
the value it stands for and `rankedBefore_iff` the bridge.

`slices.SortFunc` leaves the order of equal elements open.  They have one ID
here, so the list is refused.
-/

namespace Hamster.Place

open CodeLib Meta

abbrev NodeID := Bytes

/-! ## Hashing -/

def mix (x : UInt64) : UInt64 :=
  let x := x ^^^ (x >>> 33)
  let x := x * 0xff51afd7ed558ccd
  let x := x ^^^ (x >>> 33)
  let x := x * 0xc4ceb9fe1a85ec53
  x ^^^ (x >>> 33)

def fnv64a (bs : Bytes) : UInt64 :=
  bs.foldl (fun h b => (h ^^^ b.toUInt64) * 1099511628211) 14695981039346656037

/-- The partition of a data ID.  A partition count of zero panics. -/
def partitionOf (id : VersionID) (count : UInt32) : Option UInt64 :=
  if count = 0 then none else some (mix (fnv64a id.bytes) % count.toUInt64)

def rendezvousScore (partition : UInt64) (id : NodeID) : UInt64 :=
  mix (fnv64a (putUint64 partition ++ id))

/-! ## Fixed-point logarithm -/

/-- `bits.Mul64`: the high and the low word of a product. -/
def mul64 (x y : UInt64) : UInt64 × UInt64 :=
  (UInt64.ofNat (x.toNat * y.toNat / 2 ^ 64), UInt64.ofNat (x.toNat * y.toNat))

def mulQ32 (x y : UInt64) : UInt64 :=
  ((mul64 x y).1 <<< 32) ||| ((mul64 x y).2 >>> 32)

def len64 (h : UInt64) : Nat := if h = 0 then 0 else Nat.log2 h.toNat + 1

/-- One squaring step: the next fractional bit of the logarithm. -/
def squareStep (s : UInt64 × UInt64) : UInt64 × UInt64 :=
  let x := mulQ32 s.1 s.1
  let frac := s.2 <<< 1
  if x ≥ (2 : UInt64) <<< 32 then (x >>> 1, frac ||| 1) else (x, frac)

def ln2Q32 : UInt64 := 2977044472

def orOne (x : UInt64) : UInt64 := if x = 0 then 1 else x

theorem orOne_pos (x : UInt64) : 0 < orOne x := by
  unfold orOne
  split
  · decide
  · rename_i hx
    exact UInt64.pos_iff_ne_zero.mpr hx

def negLn (h : UInt64) : UInt64 :=
  let h := orOne h
  let bl := len64 h
  let mant :=
    if bl - 1 ≤ 32 then h <<< UInt64.ofNat (32 - (bl - 1)) else h >>> UInt64.ofNat (bl - 1 - 32)
  let frac := (squareStep^[32] (mant, 0)).2
  let negLog2 := (UInt64.ofNat (65 - bl) <<< 32) - frac
  orOne (mulQ32 negLog2 ln2Q32)

/-! ## Ranking -/

/-- One member of a layout with its failure-domain labels. -/
structure Node where
  id : NodeID
  host : Bytes
  zone : Bytes
  weight : UInt32 := 0
  draining : Bool := false
deriving DecidableEq

structure Ranked where
  node : Node
  weight : UInt64
  negln : UInt64
  score : UInt64
  weight_pos : 0 < weight
  negln_pos : 0 < negln
deriving DecidableEq

def rankedFor (partition : UInt64) (m : Node) : Ranked where
  node := m
  weight := orOne m.weight.toUInt64
  negln := negLn (rendezvousScore partition m.id)
  score := rendezvousScore partition m.id
  weight_pos := orOne_pos _
  negln_pos := orOne_pos _

def cmpKey (wa na wb nb : UInt64) : Ordering :=
  let a := mul64 wa nb
  let b := mul64 wb na
  if a.1 ≠ b.1 then (if a.1 > b.1 then .lt else .gt)
  else if a.2 ≠ b.2 then (if a.2 > b.2 then .lt else .gt)
  else .eq

def cmpScore (a b : Ranked) : Ordering :=
  if a.score ≠ b.score then (if a.score > b.score then .lt else .gt)
  else if a.node.id < b.node.id then .lt
  else if a.node.id > b.node.id then .gt
  else .eq

def cmpRanked (a b : Ranked) : Ordering :=
  match cmpKey a.weight a.negln b.weight b.negln with
  | .lt => .lt
  | .gt => .gt
  | .eq => cmpScore a b

def rankedBefore (a b : Ranked) : Prop := cmpRanked a b ≠ .gt

instance : DecidableRel rankedBefore := fun a b => inferInstanceAs (Decidable (cmpRanked a b ≠ .gt))

def rank (partition : UInt64) (members : List Node) : List Ranked :=
  (members.map (rankedFor partition)).insertionSort rankedBefore

def duplicateMember : List Ranked → Option NodeID
  | a :: b :: rest =>
    if b.node.id = a.node.id then some b.node.id else duplicateMember (b :: rest)
  | _ => none

/-! ## Selection -/

/-- How many shards each zone and each host already has. -/
structure Loads where
  zone : Bytes → Nat
  host : Bytes → Nat

def Loads.none : Loads := ⟨fun _ => 0, fun _ => 0⟩

def Loads.add (l : Loads) (n : Node) : Loads where
  zone z := if z = n.zone then l.zone z + 1 else l.zone z
  host h := if h = n.host then l.host h + 1 else l.host h

/-- Whether a candidate replaces the best one so far: an active node a draining
one, and among nodes of equal status the less loaded zone, then host. -/
def better (l : Loads) (cand best : Ranked) : Bool :=
  if cand.node.draining ≠ best.node.draining then !cand.node.draining
  else
    l.zone cand.node.zone < l.zone best.node.zone ||
      (l.zone cand.node.zone = l.zone best.node.zone &&
        l.host cand.node.host < l.host best.node.host)

inductive PlaceError where
  | widthNotPositive
  | doNotFit (width nodes : Nat)
  | duplicateMember (id : NodeID)
  /-- the panic of `Partition` -/
  | zeroPartitionCount
deriving DecidableEq

/-- The nodes of the shards of a partition, in shard order. -/
def spread (partition : UInt64) (members : List Node) (width : Nat) :
    Except PlaceError (List NodeID) :=
  if width = 0 then .error .widthNotPositive
  else if members.length < width then .error (.doNotFit width members.length)
  else
    match duplicateMember (rank partition members) with
    | some id => .error (.duplicateMember id)
    | none =>
      .ok ((greedy better (fun l r => l.add r.node) width Loads.none
        (rank partition members)).map (·.node.id))

structure Layout where
  version : UInt64 := 0
  partitionCount : UInt32
  members : List Node
  previous : List Node := []

namespace Layout

def nodes (l : Layout) (partition : UInt64) (width : Nat) : Except PlaceError (List NodeID) :=
  spread partition l.members width

def activeCount (l : Layout) : Nat := (l.members.filter (!·.draining)).length

/-- The target placement and, during a transition, the prior one. -/
def locate (l : Layout) (partition : UInt64) (width : Nat) :
    Except PlaceError (List NodeID × Option (List NodeID)) := do
  let newNodes ← spread partition l.members width
  if l.previous.length = 0 then .ok (newNodes, none)
  else
    let oldNodes ← spread partition l.previous width
    .ok (newNodes, some oldNodes)

end Layout

/-! ## The ranking is an order -/

theorem toNat_mul64 (x y : UInt64) :
    (mul64 x y).1.toNat * 2 ^ 64 + (mul64 x y).2.toNat = x.toNat * y.toNat := by
  have hx := x.toNat_lt
  have hy := y.toNat_lt
  have hlt : x.toNat * y.toNat < 2 ^ 64 * 2 ^ 64 := Nat.mul_lt_mul'' hx hy
  have hhi : x.toNat * y.toNat / 2 ^ 64 < 2 ^ 64 := Nat.div_lt_of_lt_mul hlt
  rw [mul64, UInt64.toNat_ofNat_of_lt' hhi, UInt64.toNat_ofNat', Nat.div_add_mod']

theorem cmpKey_eq_compare (wa na wb nb : UInt64) :
    cmpKey wa na wb nb = compare (wb.toNat * na.toNat) (wa.toNat * nb.toNat) := by
  rw [← toNat_mul64 wb na, ← toNat_mul64 wa nb, cmpKey]
  generalize mul64 wa nb = a
  generalize mul64 wb na = b
  have ha := a.2.toNat_lt
  have hb := b.2.toNat_lt
  rw [Nat.compare_eq_ite_lt]
  simp only [ne_eq, ← UInt64.toNat_inj, gt_iff_lt, UInt64.lt_iff_toNat_lt]
  split_ifs <;> first | rfl | omega

theorem cmpKey_eq_compare_div {wa na wb nb : UInt64} (ha : 0 < na) (hb : 0 < nb) :
    cmpKey wa na wb nb =
      compare ((wb.toNat : ℚ) / nb.toNat) ((wa.toNat : ℚ) / na.toNat) := by
  have ha : (0 : ℚ) < na.toNat := Nat.cast_pos.mpr (UInt64.lt_iff_toNat_lt.mp ha)
  have hb : (0 : ℚ) < nb.toNat := Nat.cast_pos.mpr (UInt64.lt_iff_toNat_lt.mp hb)
  rw [cmpKey_eq_compare]
  rcases lt_trichotomy (wb.toNat * na.toNat) (wa.toNat * nb.toNat) with h | h | h
  · rw [compare_lt_iff_lt.mpr h, eq_comm, compare_lt_iff_lt, div_lt_div_iff₀ hb ha]
    exact_mod_cast h
  · rw [compare_eq_iff_eq.mpr h, eq_comm, compare_eq_iff_eq, div_eq_div_iff hb.ne' ha.ne']
    exact_mod_cast h
  · rw [compare_gt_iff_gt.mpr h, eq_comm, compare_gt_iff_gt, div_lt_div_iff₀ ha hb]
    exact_mod_cast h

/-- The score of a member and its ID, in the order of the ranking. -/
def Ranked.scoreKey (a : Ranked) : ℕᵒᵈ ×ₗ NodeID :=
  toLex (OrderDual.toDual a.score.toNat, a.node.id)

/-- What a member is ranked by: `weight / -ln(score)`, descending, then the
score and the ID. -/
def Ranked.key (a : Ranked) : ℚᵒᵈ ×ₗ ℕᵒᵈ ×ₗ NodeID :=
  toLex (OrderDual.toDual ((a.weight.toNat : ℚ) / a.negln.toNat), a.scoreKey)

theorem cmpScore_ne_gt_iff {a b : Ranked} : cmpScore a b ≠ .gt ↔ a.scoreKey ≤ b.scoreKey := by
  rw [Ranked.scoreKey, Ranked.scoreKey, Prod.Lex.le_iff]
  simp only [ofLex_toLex, OrderDual.toDual_lt_toDual, OrderDual.toDual_inj, cmpScore, ne_eq,
    ← UInt64.toNat_inj, gt_iff_lt, UInt64.lt_iff_toNat_lt]
  rcases lt_trichotomy a.score.toNat b.score.toNat with h | h | h
  · simp [h.ne, h.not_gt]
  · rcases lt_trichotomy a.node.id b.node.id with hid | hid | hid
    · simp [h, hid, hid.le]
    · simp [h, hid]
    · simp [h, hid, hid.not_gt]
  · simp [h.ne', h]

theorem rankedBefore_iff {a b : Ranked} : rankedBefore a b ↔ a.key ≤ b.key := by
  rw [Ranked.key, Ranked.key, Prod.Lex.le_iff, rankedBefore, cmpRanked,
    cmpKey_eq_compare_div a.negln_pos b.negln_pos]
  simp only [ofLex_toLex, OrderDual.toDual_lt_toDual, OrderDual.toDual_inj]
  rcases lt_trichotomy ((b.weight.toNat : ℚ) / b.negln.toNat) (a.weight.toNat / a.negln.toNat)
    with h | h | h
  · rw [compare_lt_iff_lt.mpr h]
    simp [h]
  · rw [h, compare_eq_iff_eq.mpr rfl]
    simp [cmpScore_ne_gt_iff]
  · rw [compare_gt_iff_gt.mpr h]
    simp [h.not_gt, h.ne]

instance : IsTrans Ranked rankedBefore where
  trans _ _ _ hab hbc :=
    rankedBefore_iff.mpr (le_trans (rankedBefore_iff.mp hab) (rankedBefore_iff.mp hbc))

instance : Std.Total rankedBefore where
  total a b := (le_total a.key b.key).imp rankedBefore_iff.mpr rankedBefore_iff.mpr

theorem id_eq_of_rankedBefore {a b : Ranked} (hab : rankedBefore a b) (hba : rankedBefore b a) :
    a.node.id = b.node.id := by
  have hkey : a.key = b.key := le_antisymm (rankedBefore_iff.mp hab) (rankedBefore_iff.mp hba)
  have hscore : a.scoreKey = b.scoreKey := congrArg (fun k => (ofLex k).2) hkey
  exact congrArg (fun k => (ofLex k).2) hscore

/-! ## What a placement is -/

section Spread

variable {partition : UInt64} {members : List Node} {width : Nat}

theorem length_rank : (rank partition members).length = members.length := by
  rw [rank, List.length_insertionSort, List.length_map]

theorem mem_rank {r : Ranked} :
    r ∈ rank partition members ↔ ∃ m ∈ members, rankedFor partition m = r := by
  rw [rank, List.mem_insertionSort, List.mem_map]

theorem ids_rank_perm :
    ((rank partition members).map (·.node.id)).Perm (members.map (·.id)) := by
  have hperm := (List.perm_insertionSort rankedBefore (members.map (rankedFor partition))).map
    (·.node.id)
  rwa [List.map_map] at hperm

theorem duplicateMember_eq_none {rs : List Ranked} (h : (rs.map (·.node.id)).Nodup) :
    duplicateMember rs = none := by
  induction rs with
  | nil => rfl
  | cons a rest ih =>
    cases rest with
    | nil => rfl
    | cons b rest =>
      rw [List.map_cons, List.nodup_cons] at h
      have hne : ¬b.node.id = a.node.id := by
        intro heq
        exact h.1 (List.mem_map.mpr ⟨b, List.mem_cons_self, heq⟩)
      rw [duplicateMember, if_neg hne]
      exact ih h.2

theorem duplicateMember_rank_of_nodup (h : (members.map (·.id)).Nodup) :
    duplicateMember (rank partition members) = none :=
  duplicateMember_eq_none (ids_rank_perm.nodup_iff.mpr h)

def picks (partition : UInt64) (members : List Node) (width : Nat) : List Ranked :=
  greedy better (fun l r => l.add r.node) width Loads.none (rank partition members)

variable {ns : List NodeID}

theorem spread_eq_ok_iff :
    spread partition members width = .ok ns ↔
      0 < width ∧ width ≤ members.length ∧ duplicateMember (rank partition members) = none ∧
        ns = (picks partition members width).map (·.node.id) := by
  unfold spread
  split
  · rename_i h
    simp [h]
  · rename_i hpos
    split
    · rename_i hfit
      simp [Nat.not_le.mpr hfit]
    · rename_i hfit
      cases hdup : duplicateMember (rank partition members) with
      | some id => simp
      | none =>
        simp [Nat.pos_of_ne_zero hpos, Nat.not_lt.mp hfit, picks, eq_comm]

theorem spread_isOk_iff :
    (∃ ns, spread partition members width = .ok ns) ↔
      0 < width ∧ width ≤ members.length ∧ duplicateMember (rank partition members) = none := by
  simp only [spread_eq_ok_iff]
  simp

theorem length_of_spread (h : spread partition members width = .ok ns) : ns.length = width := by
  obtain ⟨-, hfit, -, rfl⟩ := spread_eq_ok_iff.mp h
  rw [List.length_map, picks, length_greedy Loads.none (by rw [length_rank]; exact hfit)]

theorem mem_of_mem_spread (h : spread partition members width = .ok ns) {id : NodeID}
    (hid : id ∈ ns) : ∃ m ∈ members, m.id = id := by
  obtain ⟨-, -, -, rfl⟩ := spread_eq_ok_iff.mp h
  obtain ⟨r, hr, rfl⟩ := List.mem_map.mp hid
  obtain ⟨m, hm, rfl⟩ := mem_rank.mp (mem_of_mem_greedy hr)
  exact ⟨m, hm, rfl⟩

section

variable (hids : (members.map (·.id)).Nodup)

include hids

theorem picks_nodup : ((picks partition members width).map (·.node.id)).Nodup := by
  obtain ⟨rs, hperm, hsub⟩ : (picks partition members width).Subperm (rank partition members) :=
    greedy_subperm _ _ _
  have hrank : ((rank partition members).map (·.node.id)).Nodup :=
    ids_rank_perm.nodup_iff.mpr hids
  exact (hperm.map (·.node.id)).nodup_iff.mp ((hsub.map (·.node.id)).nodup hrank)

theorem spread_nodup (h : spread partition members width = .ok ns) : ns.Nodup := by
  obtain ⟨-, -, -, rfl⟩ := spread_eq_ok_iff.mp h
  exact picks_nodup hids

/-! ## Draining members -/

theorem ranked_anti :
    ∀ a ∈ members.map (rankedFor partition), ∀ b ∈ members.map (rankedFor partition),
      rankedBefore a b → rankedBefore b a → a = b := by
  intro a ha b hb hab hba
  obtain ⟨m, hm, rfl⟩ := List.mem_map.mp ha
  obtain ⟨m', hm', rfl⟩ := List.mem_map.mp hb
  rw [List.inj_on_of_nodup_map hids hm hm' (id_eq_of_rankedBefore hab hba)]

theorem rank_filter (p : Node → Bool) :
    rank partition (members.filter p) = (rank partition members).filter (fun r => p r.node) := by
  rw [rank, rank, ← insertionSort_filter (ranked_anti hids), List.filter_map]
  rfl

end

theorem better_active (l : Loads) (a b : Ranked) (ha : !a.node.draining) (hb : !!b.node.draining) :
    better l a b = true := by
  simp_all [better]

theorem not_better_draining (l : Loads) (a b : Ranked) (ha : !a.node.draining)
    (hb : !!b.node.draining) : better l b a = false := by
  simp_all [better]

section

variable (hids : (members.map (·.id)).Nodup) (hw : width ≤ (members.filter (!·.draining)).length)

include hids hw

theorem picks_eq_active :
    picks partition members width = picks partition (members.filter (!·.draining)) width := by
  have hrank : rank partition (members.filter (!·.draining)) =
      (rank partition members).filter (!·.node.draining) := rank_filter hids _
  have hlen : width ≤ ((rank partition members).filter (!·.node.draining)).length := by
    rw [← hrank, length_rank]
    exact hw
  rw [picks, picks, hrank]
  exact greedy_filter better_active not_better_draining Loads.none hlen

theorem spread_eq_active :
    spread partition members width = spread partition (members.filter (!·.draining)) width := by
  have hactive : ((members.filter (!·.draining)).map (·.id)).Nodup :=
    (List.filter_sublist.map _).nodup hids
  have hlen : (members.filter (!·.draining)).length ≤ members.length := List.length_filter_le _ _
  unfold spread
  rw [duplicateMember_rank_of_nodup hids, duplicateMember_rank_of_nodup hactive,
    if_neg (by omega : ¬members.length < width),
    if_neg (by omega : ¬(members.filter (!·.draining)).length < width)]
  exact congrArg (fun rs : List Ranked => if width = 0 then Except.error PlaceError.widthNotPositive
    else .ok (rs.map (·.node.id))) (picks_eq_active hids hw)

/-- Removing a member that is draining changes no placement that the active
members suffice for. -/
theorem spread_remove {x : NodeID} (hx : ∀ m ∈ members, m.id = x → m.draining = true) :
    spread partition (members.filter (·.id ≠ x)) width = spread partition members width := by
  have hactive : (members.filter (·.id ≠ x)).filter (!·.draining) =
      members.filter (!·.draining) := by
    rw [List.filter_filter]
    refine List.filter_congr (fun m hm => ?_)
    by_cases h : m.id = x
    · simp [h, hx m hm h]
    · simp [h]
  have hids' : ((members.filter (·.id ≠ x)).map (·.id)).Nodup :=
    (List.filter_sublist.map _).nodup hids
  rw [spread_eq_active hids hw, spread_eq_active hids' (by rw [hactive]; exact hw), hactive]

end

theorem exists_draining_pick (hw : (members.filter (!·.draining)).length < width)
    (hfit : width ≤ members.length) :
    ∃ r ∈ picks partition members width, r.node.draining = true := by
  by_contra hall
  have hactive : ∀ r ∈ picks partition members width, (!r.node.draining) = true := by
    intro r hr
    by_contra h
    exact hall ⟨r, hr, by simpa using h⟩
  have hsub : (picks partition members width).Subperm (rank partition members) :=
    greedy_subperm _ _ _
  have hcount := hsub.countP_le (!·.node.draining)
  have hrank : (rank partition members).countP (!·.node.draining) =
      (members.filter (!·.draining)).length := by
    rw [rank, (List.perm_insertionSort _ _).countP_eq, List.countP_map,
      List.countP_eq_length_filter]
    rfl
  have hpicks : (picks partition members width).length = width :=
    length_greedy Loads.none (by rw [length_rank]; exact hfit)
  rw [List.countP_eq_length.mpr hactive, hrank, hpicks] at hcount
  omega

end Spread

end Hamster.Place
