import Hamster.CodeLib.Bytes

/-!
# Storage profiles

The auto-policy ladder of `internal/ec/ec.go`: the `k+m` that a cluster of `n`
nodes writes with, and the small-object rule.
-/

namespace Hamster.Ec

structure Profile where
  data : Nat
  parity : Nat
deriving DecidableEq

def autoProfile (nodes : Nat) : Profile :=
  if nodes ≤ 1 then ⟨1, 0⟩
  else if nodes = 2 then ⟨1, 1⟩
  else if nodes ≤ 4 then ⟨2, 1⟩
  else if nodes = 5 then ⟨3, 2⟩
  else ⟨4, 2⟩

def smallObjectThreshold : Int64 := 131072

/-- The `k` and `m` of an object: a small one is replicated. -/
def Profile.params (p : Profile) (plaintextSize : Int64) : Nat × Nat :=
  if plaintextSize < smallObjectThreshold ∧ p.data > 1 then (1, p.parity) else (p.data, p.parity)

/-- What the ladder hands out: at least one data shard, at most six shards, and
no more shards than nodes. -/
structure Profile.Fits (p : Profile) (nodes : Nat) : Prop where
  data_pos : 0 < p.data
  le_six : p.data + p.parity ≤ 6
  le_nodes : p.data + p.parity ≤ max nodes 1

theorem autoProfile_fits (nodes : Nat) : (autoProfile nodes).Fits nodes := by
  unfold autoProfile
  split_ifs <;> constructor <;> dsimp only <;> omega

theorem Profile.Fits.params {p : Profile} {nodes : Nat} (h : p.Fits nodes) (size : Int64) :
    (Profile.mk (p.params size).1 (p.params size).2).Fits nodes := by
  have hdata := h.data_pos
  have hsix := h.le_six
  have hnodes := h.le_nodes
  unfold Profile.params
  split_ifs
  · constructor <;> dsimp only <;> omega
  · exact h

end Hamster.Ec
