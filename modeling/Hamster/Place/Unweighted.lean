import Hamster.Place.Logarithm

/-!
# The unweighted ranking

`Nodes` of `internal/place/place.go`: the first members in the order of their bare
rendezvous scores.  `spread_eq_nodes` says that the weights, the drain marks and the
failure domains of `spread` change nothing where all members are alike in them.
Equal weights compare by the logarithm, which a larger score never raises; where it
ties, the score decides.  Where no domain differs in its load, every round takes the
next rank.
-/

namespace Hamster.Place

open CodeLib

/-- A member with its score, as `Nodes` ranks it. -/
structure Scored where
  id : NodeID
  score : UInt64
deriving DecidableEq

def scoredFor (partition : UInt64) (id : NodeID) : Scored := ⟨id, rendezvousScore partition id⟩

def cmpScored (a b : Scored) : Ordering :=
  if a.score ≠ b.score then (if a.score > b.score then .lt else .gt)
  else if a.id < b.id then .lt
  else if a.id > b.id then .gt
  else .eq

def scoredBefore (a b : Scored) : Prop := cmpScored a b ≠ .gt

instance scoredBeforeDecidable : DecidableRel scoredBefore := fun a b =>
  inferInstanceAs (Decidable (cmpScored a b ≠ .gt))

def rankScored (partition : UInt64) (members : List NodeID) : List Scored :=
  (members.map (scoredFor partition)).insertionSort scoredBefore

def duplicateScored : List Scored → Option NodeID
  | a :: b :: rest => if b.id = a.id then some b.id else duplicateScored (b :: rest)
  | _ => none

def nodes (partition : UInt64) (members : List NodeID) (width : Nat) :
    Except PlaceError (List NodeID) :=
  if width = 0 then .error .widthNotPositive
  else if members.length < width then .error (.doNotFit width members.length)
  else
    match duplicateScored (rankScored partition members) with
    | some id => .error (.duplicateMember id)
    | none => .ok (((rankScored partition members).take width).map (·.id))

def Ranked.scored (r : Ranked) : Scored := ⟨r.node.id, r.score⟩

theorem duplicateMember_eq (rs : List Ranked) :
    duplicateMember rs = duplicateScored (rs.map Ranked.scored) := by
  induction rs with
  | nil => rfl
  | cons a rest ih =>
    cases rest with
    | nil => rfl
    | cons b rest =>
      rw [duplicateMember, ih]
      rfl

section Alike

variable {partition : UInt64} {members : List Node}

theorem cmpRanked_eq {a b : Ranked} (hweight : a.weight = b.weight) (ha : a.negln = negLn a.score)
    (hb : b.negln = negLn b.score) : cmpRanked a b = cmpScored a.scored b.scored := by
  have hpos : 0 < a.weight.toNat := UInt64.lt_iff_toNat_lt.mp a.weight_pos
  -- a smaller logarithm comes from a larger score only
  have hscore : ∀ {s s' : UInt64}, (negLn s).toNat < (negLn s').toNat → s' < s := by
    intro s s' hlt
    by_contra hle
    exact Nat.not_le.mpr hlt (UInt64.le_iff_toNat_le.mp (negLn_anti (UInt64.not_lt.mp hle)))
  rw [cmpRanked, ← hweight, cmpKey_eq_compare]
  rcases lt_trichotomy a.negln.toNat b.negln.toNat with hlt | heq | hgt
  · have hlarger : b.score < a.score := hscore (by rwa [← ha, ← hb])
    rw [compare_lt_iff_lt.mpr (Nat.mul_lt_mul_of_pos_left hlt hpos), cmpScored]
    simp [Ranked.scored, hlarger, (UInt64.ne_of_lt hlarger).symm]
  · rw [heq, compare_eq_iff_eq.mpr rfl]
    rfl
  · have hsmaller : a.score < b.score := hscore (by rwa [← ha, ← hb])
    rw [compare_gt_iff_gt.mpr (Nat.mul_lt_mul_of_pos_left hgt hpos), cmpScored]
    simp [Ranked.scored, UInt64.ne_of_lt hsmaller, UInt64.lt_asymm hsmaller]

theorem rank_map_scored (hweight : ∀ m ∈ members, ∀ m' ∈ members,
      orOne m.weight.toUInt64 = orOne m'.weight.toUInt64) :
    (rank partition members).map Ranked.scored = rankScored partition (members.map (·.id)) := by
  have hsame : ∀ a ∈ members.map (rankedFor partition), ∀ b ∈ members.map (rankedFor partition),
      rankedBefore a b ↔ scoredBefore a.scored b.scored := by
    intro a ha b hb
    obtain ⟨m, hm, rfl⟩ := List.mem_map.mp ha
    obtain ⟨m', hm', rfl⟩ := List.mem_map.mp hb
    rw [rankedBefore, cmpRanked_eq (hweight m hm m' hm') rfl rfl, scoredBefore]
  rw [rankScored, List.map_map]
  refine (List.map_insertionSort rankedBefore scoredBefore Ranked.scored _ hsame).trans ?_
  rw [List.map_map]
  rfl

/-- Members of one weight, one host and one zone of which none drains are placed as by
their IDs alone. -/
theorem spread_eq_nodes (partition : UInt64) (width : Nat)
    (hweight : ∀ m ∈ members, ∀ m' ∈ members,
      orOne m.weight.toUInt64 = orOne m'.weight.toUInt64)
    (hactive : ∀ m ∈ members, m.draining = false)
    (hhost : ∀ m ∈ members, ∀ m' ∈ members, m.host = m'.host)
    (hzone : ∀ m ∈ members, ∀ m' ∈ members, m.zone = m'.zone) :
    spread partition members width = nodes partition (members.map (·.id)) width := by
  have hlevel : ∀ l, ∀ a ∈ rank partition members, ∀ b ∈ rank partition members,
      better l a b = false := by
    intro l a ha b hb
    obtain ⟨m, hm, rfl⟩ := mem_rank.mp ha
    obtain ⟨m', hm', rfl⟩ := mem_rank.mp hb
    simp [better, rankedFor, hactive m hm, hactive m' hm', hhost m hm m' hm', hzone m hm m' hm']
  have hids : ((rank partition members).take width).map (·.node.id) =
      ((rankScored partition (members.map (·.id))).take width).map (·.id) := by
    rw [← rank_map_scored hweight, ← List.map_take, List.map_map]
    rfl
  rw [spread, duplicateMember_eq, rank_map_scored hweight, greedy_eq_take hlevel, hids,
    ← List.length_map (·.id)]
  rfl

end Alike

/-- Three nodes of one host.  A zero counts as one. -/
def oneHost : List Node :=
  [{ id := [1], host := [7], zone := [9] }, { id := [2], host := [7], zone := [9], weight := 1 },
    { id := [3], host := [7], zone := [9] }]

theorem spread_eq_nodes_oneHost : spread 5 oneHost 2 = nodes 5 [[1], [2], [3]] 2 :=
  spread_eq_nodes 5 2 (by decide) (by decide) (by decide) (by decide)

end Hamster.Place
