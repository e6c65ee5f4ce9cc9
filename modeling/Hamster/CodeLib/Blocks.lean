import Hamster.CodeLib.Lists
import Mathlib.Tactic.Common
import Mathlib.Data.List.Basic

/-!
# Blocks of a list

A list in blocks of one size, the last one short.  `block B xs i` is the
`i`-th, `fullBlocks B xs` are those that are not short, and `rest B xs` is what
is left after them.

`fill` is the loop of a buffered writer: take from the input what the buffer
still holds, and emit the buffer when it is full.  `fill_eq` says what it
emits: the full blocks of what was buffered and what came in, one after the
other.  How the input was cut into calls plays no part, by
`fullBlocks_append` and `rest_append`.
-/

namespace Hamster.CodeLib

variable {α σ ε : Type} {B : Nat}

/-! ## Blocks -/

def block (B : Nat) (xs : List α) (i : Nat) : List α := (xs.drop (i * B)).take B

def fullBlocks (B : Nat) (xs : List α) : List (List α) :=
  (List.range (xs.length / B)).map (block B xs)

def rest (B : Nat) (xs : List α) : List α := xs.drop (xs.length / B * B)

/-- All blocks, the short one included. -/
def blocks (B : Nat) (xs : List α) : List (List α) :=
  if rest B xs = [] then fullBlocks B xs else fullBlocks B xs ++ [rest B xs]

variable {xs : List α}

theorem fullBlocks_of_lt (h : xs.length < B) : fullBlocks B xs = [] := by
  rw [fullBlocks, Nat.div_eq_of_lt h, List.range_zero, List.map_nil]

theorem rest_of_lt (h : xs.length < B) : rest B xs = xs := by
  rw [rest, Nat.div_eq_of_lt h, Nat.zero_mul, List.drop_zero]

theorem block_succ (B : Nat) (xs : List α) (i : Nat) :
    block B xs (i + 1) = block B (xs.drop B) i := by
  rw [block, block, List.drop_drop, Nat.add_mul, Nat.one_mul, Nat.add_comm]

section

variable (hB : 0 < B)

include hB

theorem length_div_of_le (h : B ≤ xs.length) : xs.length / B = (xs.drop B).length / B + 1 := by
  rw [List.length_drop, ← Nat.add_div_right _ hB, Nat.sub_add_cancel h]

theorem fullBlocks_of_le (h : B ≤ xs.length) :
    fullBlocks B xs = xs.take B :: fullBlocks B (xs.drop B) := by
  rw [fullBlocks, length_div_of_le hB h, List.range_succ_eq_map, List.map_cons, List.map_map,
    fullBlocks]
  congr 1
  · rw [block, Nat.zero_mul, List.drop_zero]
  · exact List.map_congr_left (fun i _ => block_succ B xs i)

theorem rest_of_le (h : B ≤ xs.length) : rest B xs = rest B (xs.drop B) := by
  rw [rest, rest, List.drop_drop, length_div_of_le hB h, Nat.add_mul, Nat.one_mul, Nat.add_comm]

theorem length_rest_lt (xs : List α) : (rest B xs).length < B := by
  rw [rest, List.length_drop, ← Nat.mod_eq_sub_div_mul]
  exact Nat.mod_lt _ hB

/-- Induction over a list that loses one block at a time. -/
theorem blockInduction {motive : List α → Prop} (short : ∀ xs, xs.length < B → motive xs)
    (long : ∀ xs, B ≤ xs.length → motive (xs.drop B) → motive xs) (xs : List α) : motive xs := by
  induction hn : xs.length using Nat.strongRecOn generalizing xs with
  | ind n ih =>
    rcases Nat.lt_or_ge xs.length B with hlt | hge
    · exact short xs hlt
    · refine long xs hge (ih (xs.drop B).length ?_ _ rfl)
      rw [List.length_drop]
      omega

theorem flatten_fullBlocks (xs : List α) : (fullBlocks B xs).flatten ++ rest B xs = xs := by
  induction xs using blockInduction hB with
  | short xs h => rw [fullBlocks_of_lt h, rest_of_lt h, List.flatten_nil, List.nil_append]
  | long xs h ih =>
    rw [fullBlocks_of_le hB h, rest_of_le hB h, List.flatten_cons, List.append_assoc, ih,
      List.take_append_drop]

theorem fullBlocks_append (xs ys : List α) :
    fullBlocks B (xs ++ ys) = fullBlocks B xs ++ fullBlocks B (rest B xs ++ ys) := by
  induction xs using blockInduction hB with
  | short xs h => rw [fullBlocks_of_lt h, rest_of_lt h, List.nil_append]
  | long xs h ih =>
    have happ : B ≤ (xs ++ ys).length := by
      rw [List.length_append]
      omega
    rw [fullBlocks_of_le hB happ, List.take_append_of_le_length h,
      List.drop_append_of_le_length h, ih, fullBlocks_of_le hB h, rest_of_le hB h,
      List.cons_append]

theorem rest_append (xs ys : List α) : rest B (xs ++ ys) = rest B (rest B xs ++ ys) := by
  induction xs using blockInduction hB with
  | short xs h => rw [rest_of_lt h]
  | long xs h ih =>
    have happ : B ≤ (xs ++ ys).length := by
      rw [List.length_append]
      omega
    rw [rest_of_le hB happ, List.drop_append_of_le_length h, ih, rest_of_le hB h]

theorem flatten_blocks (xs : List α) : (blocks B xs).flatten = xs := by
  unfold blocks
  split
  next hnil => simpa [hnil] using flatten_fullBlocks hB xs
  next => simpa using flatten_fullBlocks hB xs

/-- Every block, the short one included, is a window of the list. -/
theorem blocks_eq_map (xs : List α) :
    blocks B xs = (List.range (blocks B xs).length).map (block B xs) := by
  have hrest : rest B xs = block B xs (xs.length / B) := by
    exact (List.take_of_length_le (Nat.le_of_lt (length_rest_lt hB xs))).symm
  unfold blocks
  split
  · rw [fullBlocks, List.length_map, List.length_range]
  · rw [fullBlocks, List.length_append, List.length_map, List.length_range, List.length_singleton,
      List.range_succ, List.map_append, List.map_singleton, hrest]

end

theorem length_block (B : Nat) (xs : List α) (i : Nat) :
    (block B xs i).length = min B (xs.length - i * B) := by
  rw [block, List.length_take, List.length_drop]

theorem getElem?_block (B : Nat) (xs : List α) (i j : Nat) :
    (block B xs i)[j]? = if j < B then xs[i * B + j]? else none := by
  rw [block, List.getElem?_take, List.getElem?_drop]

/-- Two lists of one length with the same blocks are equal. -/
theorem eq_of_blocks (hB : 0 < B) {ys : List α} (hlen : xs.length = ys.length)
    (h : ∀ i, i * B < xs.length → block B xs i = block B ys i) : xs = ys := by
  refine List.ext_getElem? (fun p => ?_)
  rcases Nat.lt_or_ge p xs.length with hlt | hge
  · have hp := Nat.div_add_mod p B
    have hmod := Nat.mod_lt p hB
    rw [Nat.mul_comm] at hp
    have hget := congrArg (·[p % B]?) (h (p / B) (by omega))
    simp only [getElem?_block, if_pos hmod, hp] at hget
    exact hget
  · rw [List.getElem?_eq_none hge, List.getElem?_eq_none (hlen ▸ hge)]

variable {i : Nat}

theorem block_ne_nil (hB : 0 < B) (hi : i * B < xs.length) : block B xs i ≠ [] := by
  rw [← List.length_pos_iff, length_block]
  omega

theorem length_block_of_le (h : (i + 1) * B ≤ xs.length) : (block B xs i).length = B := by
  rw [Nat.add_mul, Nat.one_mul] at h
  rw [length_block]
  omega

theorem length_of_mem_fullBlocks {b : List α} (hb : b ∈ fullBlocks B xs) : b.length = B := by
  obtain ⟨i, hi, rfl⟩ := List.mem_map.mp hb
  exact length_block_of_le
    (Nat.le_trans (Nat.mul_le_mul_right B (List.mem_range.mp hi)) (Nat.div_mul_le_self _ B))

theorem ne_nil_of_mem_blocks (hB : 0 < B) {b : List α} (hb : b ∈ blocks B xs) : b ≠ [] := by
  have hfull : b ∈ fullBlocks B xs → b ≠ [] := fun h => by
    rw [← List.length_pos_iff, length_of_mem_fullBlocks h]
    exact hB
  unfold blocks at hb
  split at hb
  next => exact hfull hb
  next hrest =>
    rcases List.mem_append.mp hb with h | h
    · exact hfull h
    · rwa [List.mem_singleton.mp h]

theorem getElem?_blocks (hB : 0 < B) (hi : i < (blocks B xs).length) :
    (blocks B xs)[i]? = some (block B xs i) := by
  rw [blocks_eq_map hB, List.getElem?_map, List.getElem?_range hi, Option.map_some]

/-- How many blocks there are: the length over the size, rounded up. -/
theorem length_blocks (hB : 0 < B) (xs : List α) :
    (blocks B xs).length = (xs.length + B - 1) / B := by
  have hlen := Nat.div_add_mod xs.length B
  have hmod := Nat.mod_lt xs.length hB
  have hrest : (rest B xs).length = xs.length % B := by
    rw [rest, List.length_drop, Nat.mod_eq_sub_div_mul]
  have hnil : rest B xs = [] ↔ xs.length % B = 0 := by rw [← List.length_eq_zero_iff, hrest]
  unfold blocks
  by_cases hz : xs.length % B = 0
  · rw [if_pos (hnil.mpr hz), fullBlocks, List.length_map, List.length_range]
    refine (Nat.div_eq_of_lt_le ?_ ?_).symm
    · rw [Nat.mul_comm]
      omega
    · rw [Nat.add_mul, Nat.one_mul, Nat.mul_comm]
      omega
  · rw [if_neg (mt hnil.mp hz), fullBlocks, List.length_append, List.length_map, List.length_range,
      List.length_singleton]
    refine (Nat.div_eq_of_lt_le ?_ ?_).symm
    · rw [Nat.add_mul, Nat.one_mul, Nat.mul_comm]
      omega
    · rw [Nat.add_mul, Nat.add_mul, Nat.one_mul, Nat.mul_comm]
      omega

theorem lt_length_blocks_iff (hB : 0 < B) : i < (blocks B xs).length ↔ i * B < xs.length := by
  rw [length_blocks hB, Nat.lt_iff_add_one_le, Nat.le_div_iff_mul_le hB, Nat.add_mul, Nat.one_mul]
  omega

/-! ## Windows of concatenations -/

theorem length_flatten_of_forall {xss : List (List α)} {n : Nat} (h : ∀ xs ∈ xss, xs.length = n) :
    xss.flatten.length = xss.length * n := by
  induction xss with
  | nil => simp
  | cons xs xss ih =>
    rw [List.flatten_cons, List.length_append, h xs List.mem_cons_self,
      ih (fun ys hys => h ys (List.mem_cons_of_mem xs hys)), List.length_cons, Nat.add_mul,
      Nat.one_mul, Nat.add_comm]

theorem length_flatten_take_le (xss : List (List α)) (i : Nat) :
    (xss.take i).flatten.length ≤ xss.flatten.length := by
  conv_rhs => rw [← List.take_append_drop i xss]
  rw [List.flatten_append, List.length_append]
  exact Nat.le_add_right _ _

/-- One part of a concatenation is a window of it. -/
theorem take_drop_flatten {xss : List (List α)} (hi : xss[i]? = some xs) (tail : List α) :
    ((xss.flatten ++ tail).drop (xss.take i).flatten.length).take xs.length = xs := by
  obtain ⟨hlt, rfl⟩ := List.getElem?_eq_some_iff.mp hi
  have hsplit : xss.flatten =
      (xss.take i).flatten ++ (xss[i] ++ (xss.drop (i + 1)).flatten) := by
    conv_lhs => rw [← List.take_append_drop i xss, List.drop_eq_getElem_cons hlt,
      List.flatten_append, List.flatten_cons]
  rw [hsplit, List.append_assoc, List.drop_left, List.append_assoc, List.take_left]

/-! ## The loop of a buffered writer -/

/-- Move the input into a buffer of `size` elements, and emit the buffer each
time it is full.  Every turn takes an element at least, so the length of the
input bounds the turns. -/
def fill (size : Nat) (emit : σ → List α → Except ε σ) :
    Nat → List α → List α → σ → Except ε (List α × σ)
  | 0, buf, _, s => .ok (buf, s)
  | turns + 1, buf, p, s =>
    if p.isEmpty then .ok (buf, s)
    else
      let take := min (size - buf.length) p.length
      let buf' := buf ++ p.take take
      if buf'.length = size then
        emit s buf' >>= fun s' => fill size emit turns [] (p.drop take) s'
      else fill size emit turns buf' (p.drop take) s

/-- The loop emits the full blocks and keeps the rest. -/
theorem fill_eq (hB : 0 < B) (emit : σ → List α → Except ε σ) {turns : Nat} {buf p : List α}
    (hbuf : buf.length < B) (hturns : p.length ≤ turns) (s : σ) :
    fill B emit turns buf p s =
      (fullBlocks B (buf ++ p)).foldlM emit s >>= fun s' => .ok (rest B (buf ++ p), s') := by
  induction turns generalizing buf p s with
  | zero =>
    obtain rfl := List.length_eq_zero_iff.mp (Nat.le_zero.mp hturns)
    rw [List.append_nil, fullBlocks_of_lt hbuf, rest_of_lt hbuf]
    rfl
  | succ turns ih =>
    rw [fill]
    rcases eq_or_ne p [] with rfl | hne
    · rw [List.append_nil, fullBlocks_of_lt hbuf, rest_of_lt hbuf]
      rfl
    have hpos := List.length_pos_iff.mpr hne
    rw [if_neg (by simpa using hne)]
    rcases Nat.lt_or_ge (buf.length + p.length) B with hshort | hlong
    -- The whole input fits and the buffer is not full: the next turn ends.
    · have htake : min (B - buf.length) p.length = p.length := by omega
      have happ : (buf ++ p).length < B := by rwa [List.length_append]
      simp only [htake, List.take_length, List.drop_length]
      rw [if_neg (Nat.ne_of_lt happ), ih happ (by simp), List.append_nil]
    -- The buffer gets full: it is the first block of both together.
    · have htake : min (B - buf.length) p.length = B - buf.length := by omega
      have happ : B ≤ (buf ++ p).length := by rwa [List.length_append]
      have hfull : buf ++ p.take (B - buf.length) = (buf ++ p).take B := by
        rw [List.take_append, List.take_of_length_le (Nat.le_of_lt hbuf)]
      have hdrop : p.drop (B - buf.length) = (buf ++ p).drop B := by
        rw [List.drop_append, List.drop_of_length_le (Nat.le_of_lt hbuf), List.nil_append]
      have hlen : ((buf ++ p).take B).length = B := by
        rw [List.length_take]
        omega
      simp only [htake, hfull, hdrop]
      rw [if_pos hlen, fullBlocks_of_le hB happ, rest_of_le hB happ, List.foldlM_cons,
        bind_assoc]
      congr 1
      funext s'
      refine (ih (by simpa using hB) ?_ s').trans (by rw [List.nil_append])
      rw [← hdrop, List.length_drop]
      omega

end Hamster.CodeLib
