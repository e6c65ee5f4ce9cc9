import Hamster.Ec.Writer

/-!
# Reading shards

`internal/ec/reader.go`: a reader that puts a frame together again from any `k`
of its shards.  With all data shards present a stripe is read from the data
slices; otherwise it is rebuilt from the first `k` slices that are there.  The
reader keeps the last stripe it read.

`newReader_eq` and `readAt_eq` are the results: over at least `k` shards of a
frame a reader opens, and from then on every read gives the window of the frame
that was asked for, whatever was read before.
-/

namespace Hamster.Ec

open CodeLib Meta

variable {ε ρ : Type} [ReaderAt ρ ε]

/-- A reader of shards.  An absent shard is `none`, and its payload offset is
`-1`. -/
structure Reader (ρ : Type) where
  geo : Geometry
  id : VersionID
  rs : Option Encoder
  shards : List (Option ρ)
  offs : List Int
  cachedIdx : Int := -1
  cached : Bytes := []

/-! ## Opening -/

structure Opening where
  present : Nat := 0
  geo : Geometry := ⟨0, 0, 0, 0⟩
  id : VersionID := VersionID.zero
  offs : List Int := []

section Open

variable [Protowire]

/-- One present shard of `slots`: its header must fit those before it. -/
def openShard (slots i : Nat) (s : ρ) (o : Opening) : Except (EcError ε) Opening :=
  match decodeShard s with
  | .error e => .error (.shard i e)
  | .ok (h, off) =>
    if h.index ≠ i then .error (.misplaced i h.index)
    else
      let g : Geometry := ⟨h.k, h.m, h.sliceSize, h.frameSize⟩
      if o.present = 0 then
        if (slots : Int) ≠ wrap64 (h.k + h.m) then .error (.shardSlots slots h.k h.m)
        else .ok ⟨1, g, h.id, (List.replicate slots (-1)).set i off⟩
      else if g ≠ o.geo ∨ h.id ≠ o.id then .error (.mixedShardSets i)
      else .ok { o with present := o.present + 1, offs := o.offs.set i off }

def openShards (slots : Nat) : Nat → List (Option ρ) → Opening → Except (EcError ε) Opening
  | _, [], o => .ok o
  | i, none :: shards, o => openShards slots (i + 1) shards o
  | i, some s :: shards, o => openShard slots i s o >>= openShards slots (i + 1) shards

def newReader [ReedSolomon] (shards : List (Option ρ)) : Except (EcError ε) (Reader ρ) := do
  let o ← openShards shards.length 0 shards {}
  if o.present = 0 then .error .noShards
  else if (o.present : Int) < o.geo.k then .error (.tooFewShards o.present o.geo.k o.geo.m)
  else if o.geo.m > 0 then
    match ReedSolomon.new o.geo.k.toNat o.geo.m.toNat with
    | none => .error (.noDecoder o.geo.k o.geo.m)
    | some rs => .ok { geo := o.geo, id := o.id, rs := some rs, shards, offs := o.offs }
  else .ok { geo := o.geo, id := o.id, rs := none, shards, offs := o.offs }

end Open

/-! ## Stripes -/

namespace Reader

def frameSize (r : Reader ρ) : Int := r.geo.frameSize

def readSlice (r : Reader ρ) (l sliceOff : Int) (i : Nat) : Except (EcError ε) Bytes :=
  match r.shards[i]?, r.offs[i]? with
  | some (some s), some off =>
    if l < 0 then .error .panicked else readFull s l.toNat (wrap64 (off + sliceOff))
  | _, _ => .error .panicked

/-- The first `k` slices that are there.  A slice that is not read is empty. -/
def gather (k : Int) (read : Nat → Except (EcError ε) Bytes) :
    Nat → Nat → List Int → Except (EcError ε) (List Bytes)
  | _, _, [] => .ok []
  | i, got, off :: offs =>
    if off < 0 ∨ (got : Int) = k then ([] :: ·) <$> gather k read (i + 1) got offs
    else do
      let b ← read i
      (b :: ·) <$> gather k read (i + 1) (got + 1) offs

/-- The slices that stripe `si` is put together from. -/
def dataOf (r : Reader ρ) (si : Int) : Except (EcError ε) (List Bytes) :=
  let (l, sliceOff) := r.geo.stripeSlice si
  let k := r.geo.k.toNat
  if (r.offs.take k).all (0 ≤ ·) then (List.range k).mapM (r.readSlice l sliceOff)
  else do
    let slices ← gather r.geo.k (r.readSlice l sliceOff) 0 0 r.offs
    match r.rs with
    | none => .error .panicked
    | some rs =>
      match rs.reconstructData slices with
      | none => .error (.reconstructing si)
      | some slices => .ok slices

def readStripe (r : Reader ρ) (si : Int) : Except (EcError ε) Bytes := do
  let slices ← r.dataOf si
  let data := (slices.take r.geo.k.toNat).flatten
  let n := r.geo.stripeData si
  if n < 0 ∨ data.length < n then .error .panicked else .ok (data.take n.toNat)

def stripeData (r : Reader ρ) (si : Int) : Except (EcError ε) Bytes × Reader ρ :=
  if si = r.cachedIdx then (.ok r.cached, r)
  else
    match r.readStripe si with
    | .error e => (.error e, r)
    | .ok data => (.ok data, { r with cachedIdx := si, cached := data })

def readAt (r : Reader ρ) (n : Nat) (off : Int) : ReadResult (EcError ε) × Reader ρ :=
  if off < 0 then (⟨[], some (.fault (.negativeOffset off))⟩, r)
  else readBlocks r.geo.frameSize r.geo.stripeBytes stripeData .panicked .endless n n off [] r

instance : StatefulReaderAt (Reader ρ) (EcError ε) := ⟨readAt⟩

end Reader

/-! ## The shards of a frame -/

variable {j : Nat}

section Shards

variable [Protowire] {rs : Option Encoder} {id : VersionID} {k m s : Nat} {frame : Bytes}
  {shards : List (Option ρ)}

/-- At least `k` of the shards of a frame, each at its own place.  The length of
a file is an `int64`. -/
structure ShardSet (shards : List (Option ρ)) (rs : Option Encoder) (id : VersionID) (k m s : Nat)
    (frame : Bytes) : Prop where
  length_eq : shards.length = k + m
  holds : ∀ j r, shards[j]? = some (some r) → Holds r (shardFile rs id k m s frame j)
  file_lt : ∀ j r, shards[j]? = some (some r) → (shardFile rs id k m s frame j).length < 2 ^ 63
  enough : k ≤ shards.countP Option.isSome

def front (id : VersionID) (k m s : Nat) (frame : Bytes) (j : Nat) : Bytes :=
  encodeShard ⟨id, j, k, m, s, frame.length⟩

def payloadOff (shards : List (Option ρ)) (front : Nat → Bytes) (j : Nat) : Int :=
  match shards[j]? with
  | some (some _) => (front j).length
  | _ => -1

def offsUpto (shards : List (Option ρ)) (front : Nat → Bytes) (i : Nat) : List Int :=
  (List.range shards.length).map (fun j => if j < i then payloadOff shards front j else -1)

omit [Protowire] [ReaderAt ρ ε] in
theorem offsUpto_zero (shards : List (Option ρ)) (front : Nat → Bytes) :
    offsUpto shards front 0 = List.replicate shards.length (-1) := by
  simp [offsUpto, List.map_const']

omit [Protowire] [ReaderAt ρ ε] in
theorem offsUpto_none {front : Nat → Bytes} {i : Nat} (hi : shards[i]? = some none) :
    offsUpto shards front (i + 1) = offsUpto shards front i := by
  refine List.map_congr_left (fun j _ => ?_)
  rcases Nat.lt_trichotomy j i with hlt | rfl | hgt
  · rw [if_pos hlt, if_pos (Nat.lt_succ_of_lt hlt)]
  · rw [if_pos (Nat.lt_succ_self j), if_neg (Nat.lt_irrefl j), payloadOff, hi]
  · rw [if_neg (by omega), if_neg (by omega)]

variable {r : ρ}

omit [Protowire] [ReaderAt ρ ε] in
theorem offsUpto_some {front : Nat → Bytes} {i : Nat} (hi : shards[i]? = some (some r)) :
    (offsUpto shards front i).set i (front i).length = offsUpto shards front (i + 1) := by
  refine List.ext_getElem (by simp [offsUpto]) (fun j hj hj' => ?_)
  simp only [offsUpto, List.getElem_set, List.getElem_map, List.getElem_range]
  rcases Nat.lt_trichotomy j i with hlt | rfl | hgt
  · rw [if_neg (by omega), if_pos hlt, if_pos (by omega)]
  · rw [if_pos rfl, if_pos (by omega), payloadOff, hi]
  · rw [if_neg (by omega), if_neg (by omega), if_neg (by omega)]

/-- The state of `NewReader` after the shards below `i`. -/
structure Opened (shards : List (Option ρ)) (id : VersionID) (k m s : Nat) (frame : Bytes)
    (i : Nat) (o : Opening) : Prop where
  present : o.present = (shards.take i).countP Option.isSome
  first : o.present = 0 →
    offsUpto shards (front id k m s frame) i = List.replicate shards.length (-1)
  later : o.present ≠ 0 → o.geo = Geometry.ofNat k m s frame.length ∧ o.id = id ∧
    o.offs = offsUpto shards (front id k m s frame) i

/-- The sizes of a written object are in the range of `int64`. -/
structure Sizes (k m s : Nat) (frame : Bytes) : Prop where
  params : ValidParams k m
  slice_pos : 0 < s
  stripe_lt : k * s < 2 ^ 63
  frame_pos : 0 < frame.length
  frame_lt : frame.length < 2 ^ 63

omit [Protowire] in
theorem Sizes.slice_lt (h : Sizes k m s frame) : s < 2 ^ 63 :=
  Nat.lt_of_le_of_lt (Nat.le_mul_of_pos_left s h.params.k_pos) h.stripe_lt

/-! ## The stripes of a frame -/

section Stripes

omit [Protowire]

variable (hsizes : Sizes k m s frame) {i : Nat} (hi : i * (k * s) < frame.length)

include hsizes hi

theorem stripe_cases :
    i < frame.length / (k * s) ∧ (block (k * s) frame i).length = k * s ∨
      ¬ i < frame.length / (k * s) ∧ frame.length / (k * s) = i ∧
        (block (k * s) frame i).length = frame.length - i * (k * s) := by
  have hB : 0 < k * s := Nat.mul_pos hsizes.params.k_pos hsizes.slice_pos
  rcases Nat.lt_or_ge i (frame.length / (k * s)) with hlt | hge
  · exact .inl ⟨hlt, length_block_of_le ((Nat.le_div_iff_mul_le hB).mp hlt)⟩
  · have heq : frame.length / (k * s) = i :=
      Nat.le_antisymm hge ((Nat.le_div_iff_mul_le hB).mpr hi.le)
    have hmod := Nat.mod_lt frame.length hB
    rw [Nat.mod_eq_sub_div_mul, heq] at hmod
    refine .inr ⟨by omega, heq, ?_⟩
    rw [length_block]
    omega

theorem stripeSlice_eq : (Geometry.ofNat k m s frame.length).stripeSlice i =
    (((sliceLen k (block (k * s) frame i).length : Nat) : Int), ((i * s : Nat) : Int)) := by
  have hk := hsizes.params.k_pos
  have hoff : wrap64 ((i : Int) * s) = (i * s : Nat) := by
    rw [← Int.natCast_mul]
    refine wrap64_natCast (Nat.lt_of_le_of_lt ?_ (hi.trans hsizes.frame_lt))
    exact Nat.mul_le_mul_left i (Nat.le_mul_of_pos_left s hk)
  rw [Geometry.stripeSlice, Geometry.fullStripes_ofNat hsizes.stripe_lt]
  rcases stripe_cases hsizes hi with ⟨hlt, hlen⟩ | ⟨hge, heq, hlen⟩
  · rw [if_pos (Int.ofNat_lt.mpr hlt), hlen, sliceLen_mul hk, ← hoff]
    rfl
  · rw [if_neg (mt Int.ofNat_lt.mp hge), heq, hlen, Geometry.lastLen_ofNat hsizes.stripe_lt hk,
      Nat.mod_eq_sub_div_mul, heq, ← hoff]
    rfl

theorem stripeData_eq : (Geometry.ofNat k m s frame.length).stripeData i =
    ((block (k * s) frame i).length : Nat) := by
  rw [Geometry.stripeData, Geometry.fullStripes_ofNat hsizes.stripe_lt,
    Geometry.stripeBytes_ofNat hsizes.stripe_lt]
  rcases stripe_cases hsizes hi with ⟨hlt, hlen⟩ | ⟨hge, heq, hlen⟩
  · rw [if_pos (Int.ofNat_lt.mpr hlt), hlen]
  · have hend := hsizes.frame_lt
    have hik : wrap64 ((i : Int) * k) = (i * k : Nat) := by
      rw [← Int.natCast_mul]
      refine wrap64_natCast (Nat.lt_of_le_of_lt ?_ (hi.trans hend))
      exact Nat.mul_le_mul_left i (Nat.le_mul_of_pos_right k hsizes.slice_pos)
    have hiks : wrap64 (((i * k : Nat) : Int) * s) = (i * (k * s) : Nat) := by
      rw [← Int.natCast_mul, Nat.mul_assoc, wrap64_natCast (hi.trans hend)]
    rw [if_neg (mt Int.ofNat_lt.mp hge), heq]
    show wrap64 ((frame.length : Int) - wrap64 (wrap64 ((i : Int) * k) * s)) = _
    rw [hik, hiks, hlen, ← Int.ofNat_sub hi.le, wrap64_natCast (by omega)]

theorem sliceOf_shardFile [Protowire] (hcode : Codes rs k m) (id : VersionID) (hj : j < k + m) :
    (front id k m s frame j).length + i * s + sliceLen k (block (k * s) frame i).length ≤
        (shardFile rs id k m s frame j).length ∧
      ((shardFile rs id k m s frame j).drop ((front id k m s frame j).length + i * s)).take
        (sliceLen k (block (k * s) frame i).length) = sliceOf rs k (block (k * s) frame i) j := by
  have hB : 0 < k * s := Nat.mul_pos hsizes.params.k_pos hsizes.slice_pos
  have hkpos := hsizes.params.k_pos
  set slices := (blocks (k * s) frame).map (fun d => sliceOf rs k d j) with hslices
  have hslice : ∀ t, t * (k * s) < frame.length →
      slices[t]? = some (sliceOf rs k (block (k * s) frame t) j) ∧
        0 < (block (k * s) frame t).length ∧
        (sliceOf rs k (block (k * s) frame t) j).length =
          sliceLen k (block (k * s) frame t).length := by
    intro t ht
    have hne := block_ne_nil hB ht
    refine ⟨?_, List.length_pos_iff.mpr hne, hcode.length_sliceOf hne hj⟩
    rw [hslices, List.getElem?_map, getElem?_blocks hB ((lt_length_blocks_iff hB).mpr ht),
      Option.map_some]
  obtain ⟨hget, hpos, hlen⟩ := hslice i hi
  have hbefore : (slices.take i).flatten.length = i * s := by
    have hcount : (slices.take i).length = i := by
      have hlt := (List.getElem?_eq_some_iff.mp hget).1
      rw [List.length_take]
      omega
    rw [length_flatten_of_forall (n := s), hcount]
    intro b hb
    obtain ⟨t, ht, rfl⟩ := List.mem_take_iff_getElem.mp hb
    -- Every stripe before this one is full.
    have hle : (t + 1) * (k * s) ≤ frame.length :=
      Nat.le_of_lt (Nat.lt_of_le_of_lt (Nat.mul_le_mul_right _ (by omega)) hi)
    obtain ⟨hgett, -, hlent⟩ := hslice t
      (Nat.lt_of_lt_of_le (Nat.mul_lt_mul_of_pos_right (Nat.lt_succ_self t) hB) hle)
    rw [length_block_of_le hle, sliceLen_mul hkpos] at hlent
    rw [← hlent, ← (List.getElem?_eq_some_iff.mp hgett).2]
  have hwindow := take_drop_flatten hget []
  rw [List.append_nil, hbefore, hlen] at hwindow
  have hfile : shardFile rs id k m s frame j = front id k m s frame j ++ slices.flatten := rfl
  refine ⟨?_, ?_⟩
  · have hle := congrArg List.length hwindow
    rw [List.length_take, List.length_drop, hlen] at hle
    have hslicePos := sliceLen_pos hkpos hpos
    rw [hfile, List.length_append]
    omega
  · rw [hfile, ← List.drop_drop, List.drop_left, hwindow]

end Stripes

variable [LawfulProtowire] [BoundedProtowire]

theorem decodeShard_shardFile (hsizes : Sizes k m s frame) (hj : j < k + m)
    (hr : Holds r (shardFile rs id k m s frame j)) :
    decodeShard r = .ok (⟨id, j, k, m, s, frame.length⟩,
      ((front id k m s frame j).length : Int)) := by
  have hle := hsizes.params.le
  have hsmall : ∀ {n : Nat}, n ≤ 256 → int64 (uint64 n) = n := fun h =>
    int64_uint64_natCast (Nat.lt_of_le_of_lt h (by decide))
  have hvalid : validateParams k m = .ok () :=
    (validateParams_eq_ok_iff (Nat.lt_of_le_of_lt hle (by decide))).mpr hsizes.params
  have hwrap : wrap64 ((k : Int) + m) = (k + m : Nat) := by
    rw [← Int.natCast_add, wrap64_natCast (Nat.lt_of_le_of_lt hle (by decide))]
  refine decodeShard_of_holds ⟨hsmall (by omega), hsmall (by omega), hsmall (by omega),
    int64_uint64_natCast hsizes.slice_lt, int64_uint64_natCast hsizes.frame_lt⟩ ?_ hr
  have hspos := hsizes.slice_pos
  have hfpos := hsizes.frame_pos
  rw [checkHeader, if_neg (by decide)]
  dsimp only
  rw [hvalid, hwrap]
  exact if_neg (by omega)

variable {o : Opening}

theorem Opened.openShard (hsizes : Sizes k m s frame) (hset : ShardSet shards rs id k m s frame)
    {i : Nat} (hi : shards[i]? = some (some r)) (ho : Opened shards id k m s frame i o) :
    ∃ o', openShard shards.length i r o = .ok o' ∧ Opened shards id k m s frame (i + 1) o' := by
  have hlt : i < shards.length := (List.getElem?_eq_some_iff.mp hi).1
  have hj : i < k + m := hset.length_eq ▸ hlt
  have hcount : (shards.take (i + 1)).countP Option.isSome =
      (shards.take i).countP Option.isSome + 1 := by
    rw [List.take_add_one, hi, List.countP_append]
    rfl
  have hwrap : wrap64 ((k : Int) + m) = shards.length := by
    rw [hset.length_eq, ← Int.natCast_add,
      wrap64_natCast (Nat.lt_of_le_of_lt hsizes.params.le (by decide))]
  rw [Ec.openShard, decodeShard_shardFile hsizes hj (hset.holds i r hi)]
  dsimp only
  rw [if_neg (not_not.mpr rfl)]
  by_cases hzero : o.present = 0
  · rw [if_pos hzero, hwrap, if_neg (not_not.mpr rfl)]
    refine ⟨_, rfl, ?_, (nomatch ·), fun _ => ⟨rfl, rfl, ?_⟩⟩
    · rw [hcount, ← ho.present, hzero]
    · rw [← ho.first hzero, offsUpto_some hi]
  · obtain ⟨hgeo, hid, hoffs⟩ := ho.later hzero
    have hsame : ¬ ((⟨k, m, s, frame.length⟩ : Geometry) ≠ o.geo ∨ id ≠ o.id) := by
      rw [hgeo, hid]
      simp [Geometry.ofNat]
    rw [if_neg hzero, if_neg hsame]
    refine ⟨_, rfl, ?_, (nomatch ·), fun _ => ⟨hgeo, hid, ?_⟩⟩
    · rw [hcount, ← ho.present]
    · rw [← offsUpto_some hi, ← hoffs]

theorem Opened.openShards (hsizes : Sizes k m s frame) (hset : ShardSet shards rs id k m s frame)
    {i : Nat} {suffix : List (Option ρ)} (hsuffix : shards.drop i = suffix)
    (ho : Opened shards id k m s frame i o) :
    ∃ o', openShards shards.length i suffix o = .ok o' ∧
      Opened shards id k m s frame (i + suffix.length) o' := by
  induction suffix generalizing i o with
  | nil => exact ⟨o, rfl, ho⟩
  | cons shard suffix ih =>
    have hi : shards[i]? = some shard := by
      rw [← List.head?_drop, hsuffix, List.head?_cons]
    have hrest : shards.drop (i + 1) = suffix := by
      rw [← List.drop_drop, hsuffix, List.drop_succ_cons, List.drop_zero]
    rw [List.length_cons, Nat.add_comm suffix.length 1, ← Nat.add_assoc]
    match shard, hi with
    | none, hi =>
      refine ih hrest ⟨?_, fun h => ?_, fun h => ?_⟩
      · rw [List.take_add_one, hi, List.countP_append, ho.present]
        rfl
      · rw [offsUpto_none hi, ho.first h]
      · rw [offsUpto_none hi]
        exact ho.later h
    | some r, hi =>
      obtain ⟨o₁, hopen, ho₁⟩ := ho.openShard hsizes hset hi
      obtain ⟨o', hopens, ho'⟩ := ih hrest ho₁
      refine ⟨o', ?_, ho'⟩
      rw [Ec.openShards, hopen, bind_ok, hopens]

structure Reading (r : Reader ρ) (rs : Option Encoder) (id : VersionID) (k m s : Nat)
    (frame : Bytes) : Prop where
  set : ShardSet r.shards rs id k m s frame
  geo : r.geo = Geometry.ofNat k m s frame.length
  rs_eq : r.rs = rs
  offs : r.offs = (List.range r.shards.length).map (payloadOff r.shards (front id k m s frame))
  cached : r.cachedIdx = -1 ∨
    ∃ i : Nat, r.cachedIdx = i ∧ r.cached = block (k * s) frame i

theorem newReader_eq [ReedSolomon] (hlaw : 0 < m → Reconstructs k m) (hsizes : Sizes k m s frame)
    (hset : ShardSet shards (codec k m) id k m s frame) :
    ∃ r, newReader shards = .ok r ∧ Reading r (codec k m) id k m s frame := by
  obtain ⟨o, hopen, ho⟩ : ∃ o, openShards shards.length 0 shards {} = .ok o ∧
      Opened shards id k m s frame (0 + shards.length) o :=
    Opened.openShards hsizes hset List.drop_zero ⟨rfl, fun _ => offsUpto_zero _ _,
      fun h => absurd rfl h⟩
  rw [Nat.zero_add] at ho
  have hpresent : k ≤ o.present := by
    rw [ho.present, List.take_length]
    exact hset.enough
  have hkpos := hsizes.params.k_pos
  obtain ⟨hgeo, hid, hoffs⟩ := ho.later (by omega)
  have hoffs' : o.offs =
      (List.range shards.length).map (payloadOff shards (front id k m s frame)) := by
    rw [hoffs]
    exact List.map_congr_left (fun j hj => if_pos (List.mem_range.mp hj))
  have hk : o.geo.k = k := by rw [hgeo]; rfl
  have hm : o.geo.m = m := by rw [hgeo]; rfl
  rw [newReader, hopen, bind_ok, if_neg (by omega), hk, hm, if_neg (by omega), Int.toNat_natCast,
    Int.toNat_natCast]
  rcases Nat.eq_zero_or_pos m with rfl | hmpos
  · rw [if_neg (by omega)]
    exact ⟨_, rfl, hset, hgeo, rfl, hoffs', .inl rfl⟩
  · obtain ⟨enc, henc, -⟩ := hlaw hmpos
    have hcodec : some enc = codec k m := by rw [codec, if_pos hmpos, henc]
    rw [if_pos (by omega), henc]
    exact ⟨_, rfl, hset, hgeo, hcodec, hoffs', .inl rfl⟩

end Shards

/-! ## Reading a stripe -/

/-- The first `k` slices that are there are slices of the stripe, and they are
enough. -/
theorem gather_eq {k : Nat} {read : Nat → Except (EcError ε) Bytes} {offs : List Int}
    {all : List Bytes} {i got : Nat} (hlen : offs.length = all.length)
    (hread : ∀ t off b, offs[t]? = some off → all[t]? = some b → 0 ≤ off → read (i + t) = .ok b)
    (hne : ∀ b ∈ all, b ≠ []) (hgot : got ≤ k) :
    ∃ slices, Reader.gather k read i got offs = .ok slices ∧ PartOf slices all ∧
      present slices = min (k - got) (offs.countP (0 ≤ ·)) := by
  induction offs generalizing i got all with
  | nil =>
    obtain rfl := List.length_eq_zero_iff.mp hlen.symm
    exact ⟨[], rfl, .nil, by simp [present]⟩
  | cons off offs ih =>
    obtain ⟨b, all, rfl⟩ := List.exists_cons_of_length_eq_add_one hlen.symm
    have hnext : ∀ t off' b', offs[t]? = some off' → all[t]? = some b' → 0 ≤ off' →
        read (i + 1 + t) = .ok b' := by
      intro t off' b' hoff hb hpos
      rw [Nat.add_assoc, Nat.add_comm 1 t]
      exact hread (t + 1) off' b' hoff hb hpos
    have hne' : ∀ b' ∈ all, b' ≠ [] := fun b' hb' => hne b' (List.mem_cons_of_mem b hb')
    have hlen' : offs.length = all.length := Nat.succ.inj hlen
    rw [Reader.gather]
    by_cases hskip : off < 0 ∨ (got : Int) = k
    · obtain ⟨slices, hgather, hpart, hcount⟩ := ih hlen' hnext hne' hgot
      refine ⟨[] :: slices, ?_, .cons (.inl rfl) hpart, ?_⟩
      · rw [if_pos hskip, hgather]
        rfl
      · have hzero : present ([] :: slices) = present slices := by simp [present]
        rw [hzero, hcount, List.countP_cons]
        split
        next hpos =>
          have hpos' : 0 ≤ off := by simpa using hpos
          have hfull : got = k := by omega
          omega
        next => rfl
    · rw [not_or] at hskip
      have hb : read i = .ok b := hread 0 off b rfl rfl (by omega)
      have hbne : b ≠ [] := hne b List.mem_cons_self
      obtain ⟨slices, hgather, hpart, hcount⟩ := @ih all (i + 1) (got + 1) hlen' hnext hne'
        (by omega)
      refine ⟨b :: slices, ?_, .cons (.inr rfl) hpart, ?_⟩
      · rw [if_neg (not_or.mpr hskip), hb, bind_ok, hgather]
        rfl
      · have hone : present (b :: slices) = present slices + 1 := by simp [present, hbne]
        have hposOff : decide (0 ≤ off) = true := by simp; omega
        rw [hone, hcount, List.countP_cons, if_pos hposOff]
        omega

section Stripe

variable [Protowire] {rs : Option Encoder} {id : VersionID} {k m s : Nat} {frame : Bytes}
  {r : Reader ρ}

omit [Protowire] [ReaderAt ρ ε] in
theorem payloadOff_nonneg_iff {shards : List (Option ρ)} {front : Nat → Bytes} :
    0 ≤ payloadOff shards front j ↔ ∃ r, shards[j]? = some (some r) := by
  unfold payloadOff
  split
  next r h => exact ⟨fun _ => ⟨r, h⟩, fun _ => Int.natCast_nonneg _⟩
  next h =>
    refine ⟨fun hneg => absurd hneg (by decide), ?_⟩
    rintro ⟨r, hr⟩
    exact absurd hr (h r)

theorem Reading.countP_offs (hr : Reading r rs id k m s frame) :
    r.offs.countP (0 ≤ ·) = r.shards.countP Option.isSome := by
  have hshards : r.shards = (List.range r.shards.length).map (fun j => (r.shards[j]?).join) := by
    refine List.ext_getElem (by simp) (fun j hj _ => ?_)
    simp [List.getElem?_eq_getElem hj]
  rw [hr.offs, List.countP_map]
  conv_rhs => rw [hshards]
  rw [List.countP_map]
  refine List.countP_congr (fun j hj => ?_)
  have hlt := List.mem_range.mp hj
  simp only [Function.comp_apply, decide_eq_true_eq, payloadOff_nonneg_iff,
    List.getElem?_eq_getElem hlt, Option.some.injEq, Option.join_some]
  exact Option.isSome_iff_exists.symm

variable (hsizes : Sizes k m s frame) (hcode : Codes rs k m) (hr : Reading r rs id k m s frame)
  {i : Nat} (hi : i * (k * s) < frame.length)

include hsizes hcode hr hi

theorem Reading.readSlice_eq {off : Int} (hoff : r.offs[j]? = some off) (hpos : 0 ≤ off) :
    r.readSlice (sliceLen k (block (k * s) frame i).length : Nat) (i * s : Nat) j =
      .ok (sliceOf rs k (block (k * s) frame i) j) := by
  have hlt : j < r.shards.length := by
    have h := (List.getElem?_eq_some_iff.mp hoff).1
    rw [hr.offs] at h
    simpa using h
  have hj : j < k + m := hr.set.length_eq ▸ hlt
  have hoffEq : off = payloadOff r.shards (front id k m s frame) j := by
    rw [hr.offs, List.getElem?_map, List.getElem?_range hlt] at hoff
    exact (Option.some.inj hoff).symm
  obtain ⟨shard, hshard⟩ := payloadOff_nonneg_iff.mp (hoffEq ▸ hpos)
  have hfront : off = ((front id k m s frame j).length : Int) := by
    rw [hoffEq, payloadOff, hshard]
  obtain ⟨hend, hslice⟩ := sliceOf_shardFile hsizes hi hcode id hj
  have hfile := hr.set.file_lt j shard hshard
  have hwrap : wrap64 (((front id k m s frame j).length : Int) + (i * s : Nat)) =
      ((front id k m s frame j).length + i * s : Nat) := by
    rw [← Int.natCast_add, wrap64_natCast (Nat.lt_of_le_of_lt (by omega) hfile)]
  rw [Reader.readSlice, hshard, hoff]
  dsimp only
  rw [if_neg (Int.not_lt.mpr (Int.natCast_nonneg _)), hfront, hwrap, Int.toNat_natCast,
    readFull_of_holds (hr.set.holds j shard hshard) hend, hslice]

theorem Reading.dataOf_eq : ∃ slices, r.dataOf i = .ok slices ∧
    slices.take k = stripeData k (block (k * s) frame i) := by
  have hB : 0 < k * s := Nat.mul_pos hsizes.params.k_pos hsizes.slice_pos
  have hne := block_ne_nil hB hi
  obtain ⟨parity, hparity, hall, hcount, hsize⟩ := hcode.stripe hne
  have hdata : (stripeData k (block (k * s) frame i)).length = k := length_dataSlices _ _ _
  have hk : r.geo.k = k := by rw [hr.geo]; rfl
  have hlenOffs : r.offs.length = k + m := by
    rw [hr.offs, List.length_map, List.length_range, hr.set.length_eq]
  rw [Reader.dataOf, hr.geo, stripeSlice_eq hsizes hi, ← hr.geo, hk, Int.toNat_natCast]
  dsimp only
  split
  next hpresent =>
    -- Every data shard is there.
    have hread : ∀ j ∈ List.range k,
        r.readSlice (sliceLen k (block (k * s) frame i).length : Nat) (i * s : Nat) j =
          .ok (sliceOf rs k (block (k * s) frame i) j) := by
      intro j hj
      have hjk := List.mem_range.mp hj
      have hjlt : j < r.offs.length := by omega
      refine hr.readSlice_eq hsizes hcode hi (List.getElem?_eq_getElem hjlt) ?_
      have hmem : r.offs[j] ∈ r.offs.take k := by
        rw [List.mem_take_iff_getElem]
        exact ⟨j, by omega, rfl⟩
      simpa using List.all_eq_true.mp hpresent _ hmem
    have hslices : (List.range k).map (sliceOf rs k (block (k * s) frame i)) =
        stripeData k (block (k * s) frame i) := by
      refine List.ext_getElem (by simp [hdata]) (fun j hj hj' => ?_)
      rw [List.getElem_map, List.getElem_range, sliceOf, hall, List.getD_eq_getElem?_getD,
        List.getElem?_append_left hj', List.getElem?_eq_getElem hj', Option.getD_some]
    exact ⟨_, mapM_eq_ok hread, by rw [hslices, List.take_of_length_le hdata.le]⟩
  next hmissing =>
    have hlenAll : (stripeSlices rs k (block (k * s) frame i)).length = k + m :=
      hcode.length_stripeSlices hne
    obtain ⟨slices, hgather, hpart, hpresent⟩ : ∃ slices, Reader.gather k
        (r.readSlice (sliceLen k (block (k * s) frame i).length : Nat) (i * s : Nat)) 0 0 r.offs =
          .ok slices ∧ PartOf slices (stripeSlices rs k (block (k * s) frame i)) ∧
        present slices = min (k - 0) (r.offs.countP (0 ≤ ·)) := by
      refine gather_eq (hlenOffs.trans hlenAll.symm) (fun t off b hoff hb hpos => ?_)
        (fun b hb => ?_) (Nat.zero_le k)
      · rw [Nat.zero_add, hr.readSlice_eq hsizes hcode hi hoff hpos, sliceOf,
          List.getD_eq_getElem?_getD, hb, Option.getD_some]
      · rw [← List.length_pos_iff, hsize b (hall ▸ hb)]
        exact sliceLen_pos hsizes.params.k_pos (List.length_pos_iff.mpr hne)
    rw [Nat.sub_zero, hr.countP_offs, Nat.min_eq_left hr.set.enough] at hpresent
    rw [hgather, bind_ok, hr.rs_eq]
    cases rs with
    | none =>
      -- A single copy that is there is not missing.
      have hm := hcode.none_of rfl
      have hk1 := hcode.params.striping hm
      have hcountOffs := hr.countP_offs
      have henough := hr.set.enough
      have hle : r.offs.countP (0 ≤ ·) ≤ r.offs.length := List.countP_le_length
      have heach := List.countP_eq_length.mp (by omega : r.offs.countP (0 ≤ ·) = r.offs.length)
      exact absurd (List.all_eq_true.mpr (fun off hoff => heach off (List.mem_of_mem_take hoff)))
        hmissing
    | some enc =>
      have hl := sliceLen_pos hsizes.params.k_pos (List.length_pos_iff.mpr hne)
      obtain ⟨parity', hencode, -, -, hrebuild⟩ := hcode.lawful enc rfl _ _ hl hdata
        (fun b hb => hsize b (List.mem_append_left parity hb))
      obtain rfl : parity' = parity := Option.some.inj (hencode.symm.trans hparity)
      obtain ⟨out, hout, htake⟩ := hrebuild slices (hall ▸ hpart) hpresent.ge
      refine ⟨out, ?_, htake⟩
      dsimp only
      rw [hout]

theorem Reading.readStripe_eq : r.readStripe i = .ok (block (k * s) frame i) := by
  have hB : 0 < k * s := Nat.mul_pos hsizes.params.k_pos hsizes.slice_pos
  have hkpos := hsizes.params.k_pos
  have hne := block_ne_nil hB hi
  have hk : r.geo.k = k := by rw [hr.geo]; rfl
  have hn : r.geo.stripeData i = ((block (k * s) frame i).length : Nat) := by
    rw [hr.geo, stripeData_eq hsizes hi]
  obtain ⟨slices, hslices, htake⟩ := hr.dataOf_eq hsizes hcode hi
  have hle := le_mul_sliceLen hkpos (block (k * s) frame i).length
  rw [Reader.readStripe, hslices, bind_ok, hk, Int.toNat_natCast, htake,
    flatten_stripeData hkpos hne, hn]
  dsimp only
  rw [length_padStripe hkpos, if_neg (by omega), Int.toNat_natCast, padStripe, List.take_left]

omit hi in
theorem Reading.stripeData_eq (i : Nat) (hi : i * (k * s) < frame.length) :
    ∃ r', r.stripeData i = (.ok (block (k * s) frame i), r') ∧ Reading r' rs id k m s frame := by
  unfold Reader.stripeData
  split
  next hcached =>
    refine ⟨r, ?_, hr⟩
    rcases hr.cached with hnone | ⟨i', hidx, hdata⟩
    · omega
    · obtain rfl : i' = i := by omega
      rw [hdata]
  next =>
    rw [hr.readStripe_eq hsizes hcode hi]
    exact ⟨_, rfl, hr.set, hr.geo, hr.rs_eq, hr.offs, .inr ⟨i, rfl, rfl⟩⟩

end Stripe

theorem serves_frame [Protowire] {rs : Option Encoder} {id : VersionID} {k m s : Nat}
    {frame : Bytes} (hsizes : Sizes k m s frame) (hcode : Codes rs k m) :
    Serves (fun r : Reader ρ => Reading r rs id k m s frame) frame := by
  intro r hr n off
  have hB : 0 < k * s := Nat.mul_pos hsizes.params.k_pos hsizes.slice_pos
  have hbytes : r.geo.stripeBytes = (k * s : Nat) := by
    rw [hr.geo, Geometry.stripeBytes_ofNat hsizes.stripe_lt]
  have hsize : r.geo.frameSize = frame.length := by rw [hr.geo]; rfl
  obtain ⟨r', hread, hr'⟩ := readBlocks_eq hB hsizes.frame_lt
    (fun r (hr : Reading r rs id k m s frame) i hi => hr.stripeData_eq hsizes hcode i hi)
    .panicked .endless (Nat.le_refl n) off [] hr
  refine ⟨r', ?_, hr'⟩
  show r.readAt n off = _
  rw [Reader.readAt, if_neg (Int.not_lt.mpr (Int.natCast_nonneg off)), hsize, hbytes, hread]
  rfl

end Hamster.Ec
