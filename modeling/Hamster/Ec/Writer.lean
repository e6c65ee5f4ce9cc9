import Hamster.CodeLib.Erasure
import Hamster.Ec.Shard
import Mathlib.Data.List.GetD

/-!
# Writing shards

`internal/ec/writer.go`: a writer that cuts a frame into stripes, cuts every
stripe into `k` slices, adds `m` parity slices, and appends slice `i` to shard
`i`.

`shardFile` says what shard `j` of a frame is, without a writer: its front, and
slice `j` of every stripe.  `writes_close_eq` is the result about the writer:
after any sequence of writes and a close that succeeded, the frame has the
declared size and the shards are the `shardFile`s of it.  How the frame was cut
into writes plays no part.
-/

namespace Hamster.Ec

open CodeLib Meta

inductive WriteError where
  | params (e : ParamsError)
  | frameSize (n : Int)
  | sinks (n : Nat) (k m : Int)
  | noEncoder (k m : Int)
  | writeAfterClose
  | exceedsDeclared (n : Int)
  | closedTwice
  | incomplete (written : Nat) (declared : Int)
  | encodingStripe
deriving DecidableEq

/-- A writer.  `shards` is what each sink got; the sinks are buffers and do not
fail.  There is no encoder for `1+0`, a single whole copy. -/
structure Writer where
  geo : Geometry
  rs : Option Encoder
  shards : List Bytes
  stripe : Bytes := []
  written : Nat := 0
  closed : Bool := false

def defaultSliceSize : Nat := 262144

/-- The `k` contiguous slices of length `l` of a stripe. -/
def dataSlices (k l : Nat) (stripe : Bytes) : List Bytes :=
  (List.range k).map (fun i => (stripe.drop (i * l)).take l)

/-- The parity slices.  Without an encoder there are none. -/
def paritySlices (rs : Option Encoder) (data : List Bytes) : Option (List Bytes) :=
  match rs with
  | none => some []
  | some rs => rs.encode data

/-- Encode the buffered stripe and append slice `i` to sink `i`. -/
def Writer.encodeStripe (w : Writer) (l : Nat) : Except WriteError Writer :=
  let data := dataSlices w.geo.k.toNat l w.stripe
  match paritySlices w.rs data with
  | none => .error .encodingStripe
  | some parity =>
    .ok { w with shards := List.zipWith (· ++ ·) w.shards (data ++ parity), stripe := [] }

section Writer

variable [Protowire] [ReedSolomon]

/-- `NewWriter`, into `sinks` sinks.  The slice size is a variable of the
package. -/
def newWriter (sliceSize : Nat) (id : VersionID) (k m frameSize : Int) (sinks : Nat) :
    Except WriteError Writer :=
  match validateParams k m with
  | .error e => .error (.params e)
  | .ok () =>
    if frameSize ≤ 0 then .error (.frameSize frameSize)
    else if (sinks : Int) ≠ wrap64 (k + m) then .error (.sinks sinks k m)
    else
      let shards := (List.range sinks).map
        (fun i : Nat => encodeShard ⟨id, i, k, m, sliceSize, frameSize⟩)
      let geo := ⟨k, m, sliceSize, frameSize⟩
      if m > 0 then
        match ReedSolomon.new k.toNat m.toNat with
        | none => .error (.noEncoder k m)
        | some rs => .ok { geo, rs := some rs, shards }
      else .ok { geo, rs := none, shards }

omit [Protowire] [ReedSolomon]

def Writer.write (w : Writer) (p : Bytes) : Except WriteError Writer :=
  if w.closed then .error .writeAfterClose
  else if (w.written + p.length : Nat) > w.geo.frameSize then
    .error (.exceedsDeclared w.geo.frameSize)
  else
    let full := (w.geo.k * w.geo.sliceSize).toNat
    fill full (fun w stripe => { w with stripe := stripe }.encodeStripe w.geo.sliceSize.toNat)
      p.length w.stripe p w >>= fun (stripe, w') =>
    .ok { w' with stripe := stripe, written := w.written + p.length }

/-- `Close`: the last stripe is padded with zeros to `k` slices of one length. -/
def Writer.close (w : Writer) : Except WriteError Writer :=
  if w.closed then .error .closedTwice
  else if (w.written : Int) ≠ w.geo.frameSize then .error (.incomplete w.written w.geo.frameSize)
  else if w.stripe.isEmpty then .ok { w with closed := true }
  else
    let l := w.geo.lastLen.toNat
    let padded := w.stripe ++ List.replicate (w.geo.k.toNat * l - w.stripe.length) 0
    { w with stripe := padded, closed := true }.encodeStripe l

end Writer

/-! ## The shards of a frame -/

/-- The length of the slices of a stripe of `n` bytes. -/
def sliceLen (k n : Nat) : Nat := (n + k - 1) / k

/-- A stripe, padded to `k` slices of one length. -/
def padStripe (k : Nat) (d : Bytes) : Bytes :=
  d ++ List.replicate (k * sliceLen k d.length - d.length) 0

def stripeData (k : Nat) (d : Bytes) : List Bytes :=
  dataSlices k (sliceLen k d.length) (padStripe k d)

/-- All slices of a stripe, one for each shard. -/
def stripeSlices (rs : Option Encoder) (k : Nat) (d : Bytes) : List Bytes :=
  stripeData k d ++ (paritySlices rs (stripeData k d)).getD []

def sliceOf (rs : Option Encoder) (k : Nat) (d : Bytes) (j : Nat) : Bytes :=
  (stripeSlices rs k d).getD j []

def shardFile [Protowire] (rs : Option Encoder) (id : VersionID) (k m s : Nat) (frame : Bytes)
    (j : Nat) : Bytes :=
  encodeShard ⟨id, j, k, m, s, frame.length⟩ ++
    ((blocks (k * s) frame).map (fun d => sliceOf rs k d j)).flatten

/-- The encoder that a writer and a reader of `k+m` use: none for `1+0`, else a
lawful one. -/
structure Codes (rs : Option Encoder) (k m : Nat) : Prop where
  params : ValidParams k m
  none_of : rs = none → m = 0
  lawful : ∀ enc, rs = some enc → enc.Lawful k m

variable {d : Bytes} {n : Nat}

section Slices

variable {rs : Option Encoder} {k m s : Nat}

theorem length_dataSlices (k l : Nat) (stripe : Bytes) : (dataSlices k l stripe).length = k := by
  simp [dataSlices]

variable {l : Nat}

theorem length_of_mem_dataSlices {stripe : Bytes} (hlen : stripe.length = k * l)
    (hd : d ∈ dataSlices k l stripe) : d.length = l := by
  obtain ⟨i, hi, rfl⟩ := List.mem_map.mp hd
  have hle : (i + 1) * l ≤ k * l := Nat.mul_le_mul_right l (List.mem_range.mp hi)
  rw [List.length_take, List.length_drop, hlen]
  rw [Nat.add_mul, Nat.one_mul] at hle
  omega

theorem flatten_dataSlices (hl : 0 < l) {stripe : Bytes} (hlen : stripe.length = k * l) :
    (dataSlices k l stripe).flatten = stripe := by
  have hdiv : stripe.length / l = k := by rw [hlen, Nat.mul_div_cancel k hl]
  have hrest : rest l stripe = [] := by
    rw [rest, hdiv, ← hlen, List.drop_length]
  have hall := flatten_fullBlocks hl stripe
  rw [fullBlocks, hdiv, hrest, List.append_nil] at hall
  exact hall

theorem le_mul_sliceLen (hk : 0 < k) (n : Nat) : n ≤ k * sliceLen k n := by
  have h := Nat.div_add_mod (n + k - 1) k
  have hmod := Nat.mod_lt (n + k - 1) hk
  rw [sliceLen]
  omega

theorem sliceLen_pos (hk : 0 < k) (hn : 0 < n) : 0 < sliceLen k n :=
  Nat.div_pos (by omega) hk

theorem sliceLen_mul (hk : 0 < k) (s : Nat) : sliceLen k (k * s) = s := by
  rw [sliceLen, Nat.add_sub_assoc hk, Nat.mul_add_div hk, Nat.div_eq_of_lt (by omega), Nat.add_zero]

theorem length_padStripe (hk : 0 < k) (d : Bytes) :
    (padStripe k d).length = k * sliceLen k d.length := by
  have h := le_mul_sliceLen hk d.length
  rw [padStripe, List.length_append, List.length_replicate]
  omega

theorem padStripe_of_full (hk : 0 < k) (hd : d.length = k * s) : padStripe k d = d := by
  rw [padStripe, hd, sliceLen_mul hk, Nat.sub_self, List.replicate_zero, List.append_nil]

theorem flatten_stripeData (hk : 0 < k) (hd : d ≠ []) : (stripeData k d).flatten = padStripe k d :=
  flatten_dataSlices (sliceLen_pos hk (List.length_pos_iff.mpr hd)) (length_padStripe hk d)

theorem Codes.parity (hcode : Codes rs k m) {data : List Bytes} (hl : 0 < l)
    (hdata : data.length = k) (hlen : ∀ d ∈ data, d.length = l) :
    ∃ parity, paritySlices rs data = some parity ∧ parity.length = m ∧
      ∀ p ∈ parity, p.length = l := by
  match rs, hcode with
  | none, hcode => exact ⟨[], rfl, (hcode.none_of rfl).symm, by simp⟩
  | some enc, hcode =>
    obtain ⟨parity, hencode, hcount, hsize, -⟩ := hcode.lawful enc rfl data l hl hdata hlen
    exact ⟨parity, hencode, hcount, hsize⟩

variable (hcode : Codes rs k m) (hd : d ≠ [])

include hcode hd

theorem Codes.stripe :
    ∃ parity, paritySlices rs (stripeData k d) = some parity ∧
      stripeSlices rs k d = stripeData k d ++ parity ∧ parity.length = m ∧
      ∀ b ∈ stripeData k d ++ parity, b.length = sliceLen k d.length := by
  have hk := hcode.params.k_pos
  have hl := sliceLen_pos hk (List.length_pos_iff.mpr hd)
  have hdata : ∀ b ∈ stripeData k d, b.length = sliceLen k d.length := fun b hb =>
    length_of_mem_dataSlices (length_padStripe hk d) hb
  have hcountData : (stripeData k d).length = k := length_dataSlices _ _ _
  obtain ⟨parity, hparity, hcount, hsize⟩ := hcode.parity hl hcountData hdata
  refine ⟨parity, hparity, ?_, hcount, ?_⟩
  · rw [stripeSlices, hparity, Option.getD_some]
  · intro b hb
    exact (List.mem_append.mp hb).elim (hdata b) (hsize b)

theorem Codes.length_stripeSlices : (stripeSlices rs k d).length = k + m := by
  obtain ⟨parity, -, heq, hcount, -⟩ := hcode.stripe hd
  rw [heq, List.length_append, hcount]
  exact congrArg (· + m) (length_dataSlices _ _ _)

theorem Codes.length_sliceOf {j : Nat} (hj : j < k + m) :
    (sliceOf rs k d j).length = sliceLen k d.length := by
  obtain ⟨parity, -, heq, -, hsize⟩ := hcode.stripe hd
  have hj' : j < (stripeSlices rs k d).length := by rwa [hcode.length_stripeSlices hd]
  rw [sliceOf, List.getD_eq_getElem _ _ hj']
  exact hsize _ (heq ▸ List.getElem_mem hj')

end Slices

/-! ## The writer -/

section Run

variable {rs : Option Encoder} {k m s : Nat}

def appendStripes (rs : Option Encoder) (k : Nat) (shards : List Bytes)
    (stripes : List Bytes) : List Bytes :=
  stripes.foldl (fun shards d => List.zipWith (· ++ ·) shards (stripeSlices rs k d)) shards

theorem appendStripes_append (rs : Option Encoder) (k : Nat)
    (shards stripes stripes' : List Bytes) :
    appendStripes rs k shards (stripes ++ stripes') =
      appendStripes rs k (appendStripes rs k shards stripes) stripes' := List.foldl_append

variable {stripes : List Bytes}

theorem appendStripes_eq (hcode : Codes rs k m) (front : Nat → Bytes)
    (hne : ∀ d ∈ stripes, d ≠ []) :
    appendStripes rs k ((List.range (k + m)).map front) stripes =
      (List.range (k + m)).map
        (fun j => front j ++ (stripes.map (fun d => sliceOf rs k d j)).flatten) := by
  induction stripes generalizing front with
  | nil =>
    simp only [List.map_nil, List.flatten_nil, List.append_nil]
    rfl
  | cons d stripes ih =>
    have hlen := hcode.length_stripeSlices (hne d List.mem_cons_self)
    have hzip : List.zipWith (· ++ ·) ((List.range (k + m)).map front) (stripeSlices rs k d) =
        (List.range (k + m)).map (fun j => front j ++ sliceOf rs k d j) := by
      refine List.ext_getElem (by simp [hlen]) (fun j hj hj' => ?_)
      have hjd : j < (stripeSlices rs k d).length := by
        simpa [hlen] using hj'
      simp [sliceOf, List.getElem?_eq_getElem hjd]
    have hrest := ih (fun j => front j ++ sliceOf rs k d j)
      (fun d' hd' => hne d' (List.mem_cons_of_mem d hd'))
    rw [appendStripes, List.foldl_cons, hzip]
    simp only [List.map_cons, List.flatten_cons, ← List.append_assoc]
    exact hrest

theorem encodeStripe_eq (hcode : Codes rs k m) {w : Writer} (hrs : w.rs = rs) (hk : w.geo.k = k)
    (hd : d ≠ []) (hstripe : w.stripe = padStripe k d) :
    w.encodeStripe (sliceLen k d.length) =
      .ok { w with shards := appendStripes rs k w.shards [d], stripe := [] } := by
  obtain ⟨parity, hparity, heq, -⟩ := hcode.stripe hd
  have hdata : dataSlices w.geo.k.toNat (sliceLen k d.length) w.stripe = stripeData k d := by
    rw [hk, hstripe, Int.toNat_natCast]
    rfl
  rw [Writer.encodeStripe, hdata, hrs, hparity]
  show _ = Except.ok (Writer.mk w.geo rs (List.zipWith (· ++ ·) w.shards (stripeSlices rs k d)) []
    w.written w.closed)
  rw [heq]

/-- What a writer has done with the bytes `X` that it got. -/
structure Writing (w : Writer) (rs : Option Encoder) (k m s n : Nat) (fronts : List Bytes)
    (X : Bytes) : Prop where
  geo : w.geo = Geometry.ofNat k m s n
  rs_eq : w.rs = rs
  stripe : w.stripe = rest (k * s) X
  shards : w.shards = appendStripes rs k fronts (fullBlocks (k * s) X)
  written : w.written = X.length
  open_ : w.closed = false

theorem foldlM_encodeStripe (hcode : Codes rs k m) (hs : 0 < s)
    (hfull : ∀ d ∈ stripes, d.length = k * s) {w : Writer} (hrs : w.rs = rs) (hk : w.geo.k = k)
    (hslice : w.geo.sliceSize = s) :
    ∃ stripe, stripes.foldlM
        (fun w stripe => { w with stripe := stripe }.encodeStripe w.geo.sliceSize.toNat) w =
      (.ok { w with shards := appendStripes rs k w.shards stripes, stripe := stripe } :
        Except WriteError Writer) := by
  have hkpos := hcode.params.k_pos
  induction stripes generalizing w with
  | nil => exact ⟨w.stripe, rfl⟩
  | cons d stripes ih =>
    have hd := hfull d List.mem_cons_self
    have hne : d ≠ [] := by
      rw [← List.length_pos_iff, hd]
      exact Nat.mul_pos hkpos hs
    have hstep := encodeStripe_eq hcode (w := { w with stripe := d }) hrs hk hne
      (padStripe_of_full hkpos hd).symm
    rw [hd, sliceLen_mul hkpos] at hstep
    obtain ⟨stripe, hrest⟩ := @ih (fun d' hd' => hfull d' (List.mem_cons_of_mem d hd'))
      { w with shards := appendStripes rs k w.shards [d], stripe := [] } hrs hk hslice
    refine ⟨stripe, ?_⟩
    rw [List.foldlM_cons, hslice, Int.toNat_natCast, hstep, bind_ok]
    exact hrest

variable {fronts : List Bytes} {X : Bytes} {p : Bytes}

theorem Writing.write_of_le (hcode : Codes rs k m) (hs : 0 < s) {w : Writer}
    (hw : Writing w rs k m s n fronts X) (hle : X.length + p.length ≤ n) :
    ∃ w', w.write p = .ok w' ∧ Writing w' rs k m s n fronts (X ++ p) := by
  obtain ⟨hgeo, hrs, hstripe, hshards, hwritten, hopen⟩ := hw
  have hB : 0 < k * s := Nat.mul_pos hcode.params.k_pos hs
  have hk : w.geo.k = k := by rw [hgeo]; rfl
  have hslice : w.geo.sliceSize = s := by rw [hgeo]; rfl
  have hframe : w.geo.frameSize = n := by rw [hgeo]; rfl
  have hfullSize : (w.geo.k * w.geo.sliceSize).toNat = k * s := by
    rw [hk, hslice, ← Int.natCast_mul, Int.toNat_natCast]
  rw [Writer.write, hopen, if_neg Bool.false_ne_true, hframe, hwritten, if_neg (by omega),
    hfullSize]
  dsimp only
  rw [fill_eq hB _ (hstripe ▸ length_rest_lt hB X) (Nat.le_refl _)]
  obtain ⟨stripe, hfold⟩ := foldlM_encodeStripe hcode hs
    (fun d hd => length_of_mem_fullBlocks hd) hrs hk hslice
  rw [hfold, bind_ok, bind_ok]
  refine ⟨_, rfl, ?_⟩
  exact {
    geo := hgeo
    rs_eq := hrs
    stripe := by
      rw [hstripe, ← rest_append hB]
    shards := by
      show appendStripes rs k w.shards (fullBlocks (k * s) (w.stripe ++ p)) = _
      rw [hstripe, hshards, fullBlocks_append hB X p, appendStripes_append]
    written := List.length_append.symm
    open_ := hopen }

variable {w' : Writer}

theorem Writing.write (hcode : Codes rs k m) (hs : 0 < s) {w : Writer}
    (hw : Writing w rs k m s n fronts X) (hwrite : w.write p = .ok w') :
    Writing w' rs k m s n fronts (X ++ p) := by
  have hle : X.length + p.length ≤ n := by
    have hframe : w.geo.frameSize = n := by rw [hw.geo]; rfl
    rw [Writer.write, hw.open_, if_neg Bool.false_ne_true, hframe, hw.written] at hwrite
    split at hwrite
    · cases hwrite
    next hle => omega
  obtain ⟨w'', hwrite', hw''⟩ := hw.write_of_le hcode hs hle
  rwa [Except.ok.inj (hwrite.symm.trans hwrite')]

variable {pieces : List Bytes}

theorem Writing.writes (hcode : Codes rs k m) (hs : 0 < s) {w : Writer}
    (hw : Writing w rs k m s n fronts X) (hwrites : pieces.foldlM Writer.write w = .ok w') :
    Writing w' rs k m s n fronts (X ++ pieces.flatten) := by
  induction pieces generalizing w X with
  | nil =>
    obtain rfl := Except.ok.inj hwrites
    rwa [List.flatten_nil, List.append_nil]
  | cons p pieces ih =>
    obtain ⟨w₁, hwrite, hrest⟩ := bind_eq_ok_iff.mp hwrites
    rw [List.flatten_cons, ← List.append_assoc]
    exact ih (hw.write hcode hs hwrite) hrest

theorem Writing.close (hcode : Codes rs k m) (hstripe : k * s < 2 ^ 63) {w : Writer}
    (hw : Writing w rs k m s n fronts X) (hclose : w.close = .ok w') :
    X.length = n ∧ w'.shards = appendStripes rs k fronts (blocks (k * s) X) := by
  obtain ⟨hgeo, hrs, hbuf, hshards, hwritten, hopen⟩ := hw
  have hkpos := hcode.params.k_pos
  have hframe : w.geo.frameSize = n := by rw [hgeo]; rfl
  rw [Writer.close, hopen, if_neg Bool.false_ne_true, hframe, hwritten] at hclose
  split at hclose
  · cases hclose
  have hn : X.length = n := by omega
  refine ⟨hn, ?_⟩
  split at hclose
  next hempty =>
    obtain rfl := Except.ok.inj hclose
    have hnil : rest (k * s) X = [] := by rwa [← hbuf, ← List.isEmpty_iff]
    rw [blocks, if_pos hnil]
    exact hshards
  next hempty =>
    have hne : rest (k * s) X ≠ [] := by rwa [← hbuf, ne_eq, ← List.isEmpty_iff]
    have hlast : w.geo.lastLen.toNat = sliceLen k (rest (k * s) X).length := by
      rw [hgeo, Geometry.lastLen_ofNat hstripe hkpos, Int.toNat_natCast, sliceLen, rest,
        List.length_drop, hn, ← Nat.mod_eq_sub_div_mul]
    have hk : w.geo.k = k := by rw [hgeo]; rfl
    have hstep := encodeStripe_eq hcode
      (w := { w with stripe := padStripe k (rest (k * s) X), written := X.length, closed := true })
      hrs hk hne rfl
    rw [hlast, hk, Int.toNat_natCast, hbuf] at hclose
    obtain rfl := Except.ok.inj (hclose.symm.trans hstep)
    rw [blocks, if_neg hne]
    show appendStripes rs k w.shards [rest (k * s) X] = _
    rw [hshards, appendStripes_append]

def codec [ReedSolomon] (k m : Nat) : Option Encoder :=
  if 0 < m then ReedSolomon.new k m else none

theorem codes_codec [ReedSolomon] (hparams : ValidParams k m) (hlaw : 0 < m → Reconstructs k m) :
    Codes (codec k m) k m := by
  rcases Nat.eq_zero_or_pos m with rfl | hm
  · refine ⟨hparams, fun _ => rfl, fun enc h => ?_⟩
    rw [codec, if_neg (Nat.lt_irrefl 0)] at h
    cases h
  · obtain ⟨enc, hnew, hlawful⟩ := hlaw hm
    have hcodec : codec k m = some enc := by rw [codec, if_pos hm, hnew]
    refine ⟨hparams, fun h => ?_, fun enc' h => ?_⟩
    · rw [hcodec] at h
      cases h
    · rw [hcodec] at h
      obtain rfl := Option.some.inj h
      exact hlawful

variable [Protowire] [ReedSolomon] {id : VersionID} {sinks : Nat}

theorem frameSize_pos_of_newWriter {k m frameSize : Int} {w : Writer}
    (hnew : newWriter s id k m frameSize sinks = .ok w) : 0 < frameSize := by
  unfold newWriter at hnew
  split at hnew
  · cases hnew
  split at hnew
  · cases hnew
  next hpos => omega

variable (hlaw : 0 < m → Reconstructs k m) (hk : k < 2 ^ 63) (hm : m < 2 ^ 63)

include hlaw hk hm

/-- A new writer has the fronts of the shards, and an encoder unless there is no
parity. -/
theorem newWriter_eq_ok {w : Writer} (hnew : newWriter s id k m n sinks = .ok w) :
    ValidParams k m ∧ 0 < n ∧ Writing w (codec k m) k m s n
      ((List.range (k + m)).map (fun i : Nat => encodeShard ⟨id, i, k, m, s, n⟩)) [] := by
  rw [newWriter] at hnew
  match hvalid : validateParams (k : Int) m with
  | .error e =>
    rw [hvalid] at hnew
    cases hnew
  | .ok () =>
  rw [hvalid] at hnew
  dsimp only at hnew
  split at hnew
  · cases hnew
  next hframe =>
  split at hnew
  · cases hnew
  next hsinks =>
  have hcount : (sinks : Int) = wrap64 ((k : Int) + m) := not_not.mp hsinks
  have hsum : k + m < 2 ^ 63 := lt_of_wrap64_add_nonneg hk hm (hcount ▸ Int.natCast_nonneg sinks)
  have hparams := (validateParams_eq_ok_iff hsum).mp hvalid
  obtain rfl : sinks = k + m := by
    rw [← Int.natCast_add, wrap64_natCast hsum] at hcount
    omega
  have hpos : 0 < n := by omega
  have hwriting : ∀ rs, Writing ⟨⟨k, m, s, n⟩, rs, (List.range (k + m)).map
      (fun i : Nat => encodeShard ⟨id, i, k, m, s, n⟩), [], 0, false⟩ rs k m s n
      ((List.range (k + m)).map (fun i : Nat => encodeShard ⟨id, i, k, m, s, n⟩)) [] := fun rs =>
    { geo := rfl, rs_eq := rfl, stripe := by simp [rest], written := rfl, open_ := rfl,
      shards := by simp [fullBlocks, appendStripes] }
  split at hnew
  next hm0 =>
    obtain ⟨enc, henc, -⟩ := hlaw (by omega)
    rw [Int.toNat_natCast, Int.toNat_natCast, henc] at hnew
    obtain rfl := Except.ok.inj hnew
    have hcodec : codec k m = some enc := by rw [codec, if_pos (by omega), henc]
    exact ⟨hparams, hpos, hcodec ▸ hwriting _⟩
  next hm0 =>
    obtain rfl := Except.ok.inj hnew
    have hcodec : codec k m = none := by rw [codec, if_neg (by omega)]
    exact ⟨hparams, hpos, hcodec ▸ hwriting _⟩

/-- After any sequence of writes and a close that succeeded, the shards are the
shards of the frame that was written. -/
theorem writes_close_eq (hs : 0 < s) (hstripe : k * s < 2 ^ 63) {w₀ w₁ w : Writer}
    (hnew : newWriter s id k m n sinks = .ok w₀) (hwrites : pieces.foldlM Writer.write w₀ = .ok w₁)
    (hclose : w₁.close = .ok w) :
    ValidParams k m ∧ 0 < n ∧ pieces.flatten.length = n ∧
      w.shards = (List.range (k + m)).map (shardFile (codec k m) id k m s pieces.flatten) := by
  obtain ⟨hparams, hn, hstart⟩ := newWriter_eq_ok hlaw hk hm hnew
  have hcode := codes_codec hparams hlaw
  have hB : 0 < k * s := Nat.mul_pos hcode.params.k_pos hs
  have hwriting := hstart.writes hcode hs hwrites
  rw [List.nil_append] at hwriting
  obtain ⟨hlen, hshards⟩ := hwriting.close hcode hstripe hclose
  refine ⟨hparams, hn, hlen, ?_⟩
  rw [hshards, appendStripes_eq hcode _ (fun d hd => ne_nil_of_mem_blocks hB hd), ← hlen]
  rfl

end Run

end Hamster.Ec
