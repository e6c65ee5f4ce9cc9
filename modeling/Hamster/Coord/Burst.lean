import Hamster.Coord.Put

/-!
# How much a write sends at once

The frame writer keeps a chunk back and the encoder a stripe, so one write of
the body can send nothing to a shard or several slices in a row.  This module
bounds what it sends.

`Encoding` is what both writers have done with the bytes they got.  `Grew n` says
that every shard got `n` bytes at most.  `Encoding.write` and `Encoding.close` are
the bounds for the two steps of a PUT.  They hold for objects that fit a window
as a whole, and for two data shards or more up to the largest object of a single
PUT (`Paceable`); a single data shard gets a whole chunk at once.
-/

namespace Hamster.Coord

open CodeLib Meta

/-- The sizes for which the windows that `step` asks for are large enough: the
object is smaller than a chunk, or it has two data shards and is not larger than
5 GiB. -/
def Paceable (k n : Nat) : Prop :=
  n + 4096 ≤ Stream.defaultChunkSize ∨ 2 ≤ k ∧ n ≤ 5 * 1024 * Stream.defaultChunkSize
deriving Decidable

/-! ## Shards that grow -/

def Grew (n : Nat) : List Bytes → List Bytes → Prop :=
  List.Forall₂ (fun b b' => ∃ d : Bytes, b' = b ++ d ∧ d.length ≤ n)

theorem Grew.refl (shards : List Bytes) (n : Nat) : Grew n shards shards :=
  List.forall₂_same.mpr (fun _ _ => ⟨[], (List.append_nil _).symm, Nat.zero_le n⟩)

theorem Grew.mono {m n : Nat} (hmn : m ≤ n) {a b : List Bytes} (h : Grew m a b) :
    Grew n a b :=
  h.imp (fun _ _ ⟨d, hd, hlen⟩ => ⟨d, hd, hlen.trans hmn⟩)

theorem Grew.trans {m n : Nat} {a b c : List Bytes} (hab : Grew m a b) (hbc : Grew n b c) :
    Grew (m + n) a c := by
  induction hab generalizing c with
  | nil =>
    cases hbc
    exact List.Forall₂.nil
  | cons h _ ih =>
    cases hbc with
    | cons h' hrest =>
      obtain ⟨d, rfl, hd⟩ := h
      obtain ⟨d', rfl, hd'⟩ := h'
      refine List.Forall₂.cons ⟨d ++ d', List.append_assoc _ _ _, ?_⟩ (ih hrest)
      rw [List.length_append]
      omega

theorem grew_zipWith {n : Nat} {shards slices : List Bytes}
    (hlen : shards.length = slices.length) (hslices : ∀ b ∈ slices, b.length ≤ n) :
    Grew n shards (List.zipWith (· ++ ·) shards slices) := by
  induction shards generalizing slices with
  | nil => exact List.Forall₂.nil
  | cons b shards ih =>
    cases slices with
    | nil => cases hlen
    | cons d slices =>
      refine List.Forall₂.cons ⟨d, rfl, hslices d List.mem_cons_self⟩ ?_
      exact ih (Nat.succ.inj hlen) (fun b hb => hslices b (List.mem_cons_of_mem d hb))

section Stripes

variable {rs : Option Encoder} {k m s : Nat}

theorem grew_appendStripes (hcode : Ec.Codes rs k m) {shards stripes : List Bytes}
    (hlen : shards.length = k + m) (hne : ∀ d ∈ stripes, d ≠ []) :
    (Ec.appendStripes rs k shards stripes).length = k + m ∧
      Grew (stripes.map (fun d => Ec.sliceLen k d.length)).sum shards
        (Ec.appendStripes rs k shards stripes) := by
  induction stripes generalizing shards with
  | nil => exact ⟨hlen, Grew.refl shards 0⟩
  | cons d stripes ih =>
    obtain ⟨parity, -, heq, -, hsize⟩ := hcode.stripe (hne d List.mem_cons_self)
    have hcount := hcode.length_stripeSlices (hne d List.mem_cons_self)
    have hfirst : Grew (Ec.sliceLen k d.length) shards
        (List.zipWith (· ++ ·) shards (Ec.stripeSlices rs k d)) :=
      grew_zipWith (hlen.trans hcount.symm) (fun b hb => (hsize b (heq ▸ hb)).le)
    have hzip : (List.zipWith (· ++ ·) shards (Ec.stripeSlices rs k d)).length = k + m := by
      rw [List.length_zipWith, hlen, hcount, Nat.min_self]
    obtain ⟨hlen', hrest⟩ := ih hzip (fun d' hd' => hne d' (List.mem_cons_of_mem d hd'))
    exact ⟨hlen', hfirst.trans hrest⟩

theorem getElem?_appendStripes (hcode : Ec.Codes rs k m) {fronts stripes : List Bytes}
    (hfronts : fronts.length = k + m) (hne : ∀ d ∈ stripes, d ≠ []) {i : Nat} {b : Bytes}
    (hb : fronts[i]? = some b) :
    (Ec.appendStripes rs k fronts stripes)[i]? =
      some (b ++ (stripes.map (fun d => Ec.sliceOf rs k d i)).flatten) := by
  have hmap : fronts = (List.range (k + m)).map (fun j => fronts.getD j []) := by
    refine List.ext_getElem (by simp [hfronts]) (fun j hj _ => ?_)
    simp [List.getElem?_eq_getElem hj]
  obtain ⟨hi, -⟩ := List.getElem?_eq_some_iff.mp hb
  rw [hmap, Ec.appendStripes_eq hcode _ hne, List.getElem?_map,
    List.getElem?_range (hfronts ▸ hi), Option.map_some, List.getD_eq_getElem?_getD, hb,
    Option.getD_some]

theorem length_fullBlocks (B : Nat) (X : Bytes) : (fullBlocks B X).length = X.length / B := by
  rw [fullBlocks, List.length_map, List.length_range]

theorem sum_sliceLen_full (hk : 0 < k) {stripes : List Bytes}
    (hfull : ∀ d ∈ stripes, d.length = k * s) :
    (stripes.map (fun d => Ec.sliceLen k d.length)).sum = stripes.length * s := by
  induction stripes with
  | nil => simp
  | cons d stripes ih =>
    rw [List.map_cons, List.sum_cons, hfull d List.mem_cons_self, Ec.sliceLen_mul hk,
      ih (fun d' hd' => hfull d' (List.mem_cons_of_mem d hd')), List.length_cons, Nat.add_mul,
      Nat.one_mul, Nat.add_comm]

theorem grew_fullBlocks (hcode : Ec.Codes rs k m) (hs : 0 < s) {fronts : List Bytes}
    (hfronts : fronts.length = k + m) {X Z : Bytes} (hXZ : X <+: Z) :
    (Ec.appendStripes rs k fronts (fullBlocks (k * s) Z)).length = k + m ∧
      Grew ((Z.length / (k * s) - X.length / (k * s)) * s)
        (Ec.appendStripes rs k fronts (fullBlocks (k * s) X))
        (Ec.appendStripes rs k fronts (fullBlocks (k * s) Z)) := by
  obtain ⟨Y, rfl⟩ := hXZ
  have hB : 0 < k * s := Nat.mul_pos hcode.params.k_pos hs
  have hfull : ∀ Z : Bytes, ∀ d ∈ fullBlocks (k * s) Z, d.length = k * s :=
    fun Z d hd => length_of_mem_fullBlocks hd
  have hne : ∀ Z : Bytes, ∀ d ∈ fullBlocks (k * s) Z, d ≠ [] := fun Z d hd =>
    List.ne_nil_of_length_pos (hfull Z d hd ▸ hB)
  have hsplit := fullBlocks_append hB X Y
  have hcount := congrArg List.length hsplit
  rw [List.length_append, length_fullBlocks, length_fullBlocks] at hcount
  rw [hsplit, Ec.appendStripes_append, hcount, Nat.add_sub_cancel_left,
    ← sum_sliceLen_full hcode.params.k_pos (hfull _)]
  exact grew_appendStripes hcode (grew_appendStripes hcode hfronts (hne X)).1 (hne _)

end Stripes

/-! ## Arithmetic of the bounds -/

theorem stripes_le_two {k n h tag x p : Nat} (hk : 2 ≤ k) (hk' : k ≤ 256) (hh : h ≤ 44)
    (htag : tag = 0 ∨ tag = 16) (hp : p ≤ k * 262144 - 4096) (hxp : x + p ≤ n)
    (hn : n ≤ 5368709120) :
    (h + (x + p) / 1048576 * (1048576 + tag)) / (k * 262144) ≤
      (h + x / 1048576 * (1048576 + tag)) / (k * 262144) + 2 := by
  have hM : 0 < k * 262144 := by omega
  rcases Nat.lt_or_ge k 3 with hlt | hge
  -- A chunk is two stripes, and what the tags and the header add stays below a stripe.
  · obtain rfl : k = 2 := by omega
    have hchunk : ∀ y : Nat, y ≤ n →
        (h + y / 1048576 * (1048576 + tag)) / (2 * 262144) = 2 * (y / 1048576) := by
      intro y hy
      rcases htag with rfl | rfl <;> omega
    rw [hchunk x (by omega), hchunk (x + p) hxp]
    omega
  · have hle : h + (x + p) / 1048576 * (1048576 + tag) <
        h + x / 1048576 * (1048576 + tag) + 2 * (k * 262144) := by
      rcases htag with rfl | rfl <;> omega
    have hdiv := Nat.div_le_div_right (c := k * 262144) (Nat.le_of_lt hle)
    rwa [Nat.add_mul_div_right _ _ hM] at hdiv

theorem mul_last_slices {k s r n : Nat} (hk : 0 < k) (hrn : r ≤ n) :
    k * ((n / (k * s) - r / (k * s)) * s + Ec.sliceLen k (n % (k * s))) ≤
      n - r + r % (k * s) + (k - 1) := by
  have hn := Nat.div_add_mod n (k * s)
  have hr := Nat.div_add_mod r (k * s)
  have hle := Nat.div_le_div_right (c := k * s) hrn
  have hslice : k * Ec.sliceLen k (n % (k * s)) ≤ n % (k * s) + k - 1 := Nat.mul_div_le _ _
  have hmul : k * ((n / (k * s) - r / (k * s)) * s) =
      k * s * (n / (k * s)) - k * s * (r / (k * s)) := by
    rw [← Nat.mul_sub, Nat.mul_comm (n / (k * s) - r / (k * s)) s, ← Nat.mul_assoc]
  have hmono := Nat.mul_le_mul_left (k * s) hle
  rw [Nat.mul_add, hmul]
  omega

theorem le_closeNeed {k g r e : Nat} (hk : 2 ≤ k) (hg : k * g ≤ e + r % (k * 262144) + (k - 1))
    (he : e ≤ 1120300) : g ≤ closeNeed := by
  by_contra hlt
  have hM : r % (k * 262144) < k * 262144 := Nat.mod_lt _ (by omega)
  have hmul : k * 851969 ≤ k * g := Nat.mul_le_mul_left k (Nat.not_le.mp hlt)
  omega

theorem le_of_mul_le_add {k g n : Nat} (hk : 0 < k) (hg : k * g ≤ n + (k - 1)) : g ≤ n := by
  by_contra hlt
  have hmul : k * (n + 1) ≤ k * g := Nat.mul_le_mul_left k (Nat.not_le.mp hlt)
  have hle : 1 * n ≤ k * n := Nat.mul_le_mul_right n hk
  rw [Nat.mul_add, Nat.mul_one] at hmul
  omega

/-! ## Both writers -/

theorem tagLenOf_eq (dek : Option Bytes) :
    Stream.tagLenOf dek = 0 ∨ Stream.tagLenOf dek = 16 := by
  cases dek with
  | none => exact Or.inl rfl
  | some key => exact Or.inr rfl

section Encoding

variable [Stream.Gcm]

/-- What the frame writer has sent after it got `X`: the header and the full
chunks. -/
def sentFrame (dek : Option Bytes) (n : Nat) (X : Bytes) : Bytes :=
  Stream.appendHeader (Stream.flagsOf dek) Stream.defaultChunkSize n ++
    (Stream.storedChunks dek (fullBlocks Stream.defaultChunkSize X)).flatten

/-- Both writers have got the first bytes `X` of an object of `n` bytes. -/
structure Encoding [ReedSolomon] (sw : Stream.Writer Ec.Writer) (k m n frameSize : Nat)
    (fronts : List Bytes) (dek : Option Bytes) (X : Bytes) : Prop where
  code : Ec.Codes (Ec.codec k m) k m
  key : ∀ key ∈ dek, key.length = Stream.dekLen
  length_fronts : fronts.length = k + m
  length_le : X.length ≤ n
  started : ∃ w₀, Ec.Writing w₀ (Ec.codec k m) k m Ec.defaultSliceSize frameSize fronts [] ∧
    Stream.Framing sw w₀ dek Stream.defaultChunkSize n X

theorem length_flatten_storedChunks [Stream.LawfulGcm] {dek : Option Bytes}
    (hdek : ∀ key ∈ dek, key.length = Stream.dekLen) (chunks : List Bytes) :
    (Stream.storedChunks dek chunks).flatten.length =
      chunks.flatten.length + chunks.length * Stream.tagLenOf dek := by
  induction chunks using List.reverseRecOn with
  | nil => simp [Stream.storedChunks]
  | append_singleton chunks d ih =>
    rw [Stream.storedChunks_append, List.flatten_append, List.flatten_append, List.length_append,
      List.length_append, List.length_append, ih, List.flatten_singleton,
      Stream.length_storedChunk hdek]
    simp only [List.length_cons, List.length_nil, List.flatten_singleton, Nat.add_mul]
    omega

theorem length_sentFrame [Stream.LawfulGcm] {dek : Option Bytes}
    (hdek : ∀ key ∈ dek, key.length = Stream.dekLen) (n : Nat) (X : Bytes) :
    (sentFrame dek n X).length =
      (Stream.appendHeader (Stream.flagsOf dek) Stream.defaultChunkSize n).length +
        X.length / Stream.defaultChunkSize * (Stream.defaultChunkSize + Stream.tagLenOf dek) := by
  rw [sentFrame, List.length_append, length_flatten_storedChunks hdek, length_fullBlocks,
    length_flatten_of_forall (fun d hd => length_of_mem_fullBlocks hd), length_fullBlocks,
    Nat.mul_add]

theorem storedChunks_isPrefix (dek : Option Bytes) {chunks chunks' : List Bytes}
    (h : chunks <+: chunks') :
    (Stream.storedChunks dek chunks).flatten <+: (Stream.storedChunks dek chunks').flatten := by
  obtain ⟨rest, rfl⟩ := h
  rw [Stream.storedChunks, Stream.storedChunks, List.mapIdx_append, List.flatten_append]
  exact List.prefix_append _ _

theorem sentFrame_append (dek : Option Bytes) (n : Nat) (X p : Bytes) :
    sentFrame dek n X <+: sentFrame dek n (X ++ p) := by
  refine (List.prefix_append_right_inj _).mpr (storedChunks_isPrefix dek ?_)
  rw [fullBlocks_append (by decide)]
  exact List.prefix_append _ _

variable {sw sw' : Stream.Writer Ec.Writer} {k m n frameSize : Nat}
  {fronts : List Bytes} {dek : Option Bytes} {X p : Bytes}

theorem length_le_of_write {w₀ : Ec.Writer}
    (h : Stream.Framing sw w₀ dek Stream.defaultChunkSize n X) (hwrite : sw.write p = .ok sw') :
    X.length + p.length ≤ n := by
  rw [Stream.Writer.write, h.open_, if_neg Bool.false_ne_true, h.sent.declared, h.written] at hwrite
  split at hwrite
  · cases hwrite
  next hle => omega

variable [ReedSolomon]

section

variable (h : Encoding sw k m n frameSize fronts dek X)

include h

theorem Encoding.writing :
    Ec.Writing sw.w (Ec.codec k m) k m Ec.defaultSliceSize frameSize fronts
      (sentFrame dek n X) := by
  obtain ⟨w₀, hw₀, hframing⟩ := h.started
  have hwriting := hw₀.writes h.code (by decide) hframing.sent.sink
  rwa [List.nil_append, List.flatten_cons] at hwriting

/-- Before a chunk is full only the header was sent, which is in the stripe buffer. -/
theorem Encoding.shards_eq_fronts [Stream.LawfulGcm] (hlt : X.length < Stream.defaultChunkSize) :
    sw.w.shards = fronts := by
  have hheader := Stream.length_appendHeader_le (Stream.flagsOf dek) Stream.defaultChunkSize n
  have hstripe : 262144 ≤ k * Ec.defaultSliceSize :=
    Nat.le_mul_of_pos_left Ec.defaultSliceSize h.code.params.k_pos
  have hsent := length_sentFrame h.key n X
  rw [Nat.div_eq_of_lt hlt, Nat.zero_mul] at hsent
  rw [h.writing.shards, fullBlocks_of_lt (by omega)]
  rfl

theorem Encoding.next (hwrite : sw.write p = .ok sw') :
    Encoding sw' k m n frameSize fronts dek (X ++ p) := by
  obtain ⟨w₀, hw₀, hframing⟩ := h.started
  have hle := length_le_of_write hframing hwrite
  exact ⟨h.code, h.key, h.length_fronts, by rwa [List.length_append], w₀, hw₀,
    hframing.write (by decide) hwrite⟩

theorem Encoding.write [Stream.LawfulGcm] (hpace : Paceable k n)
    (hp : p.length ≤ max (k * Ec.defaultSliceSize - 4096) 1) (hwrite : sw.write p = .ok sw') :
    Encoding sw' k m n frameSize fronts dek (X ++ p) ∧
      Grew (2 * Ec.defaultSliceSize) sw.w.shards sw'.w.shards := by
  have h' := h.next hwrite
  have hle := h'.length_le
  rw [List.length_append] at hle
  refine ⟨h', ?_⟩
  obtain ⟨-, hgrew⟩ := grew_fullBlocks h.code (by decide : 0 < Ec.defaultSliceSize)
    h.length_fronts (sentFrame_append dek n X p)
  rw [h.writing.shards, h'.writing.shards]
  refine hgrew.mono (Nat.mul_le_mul_right _ ?_)
  rw [length_sentFrame h.key, length_sentFrame h.key, List.length_append, Nat.sub_le_iff_le_add']
  have hh := Stream.length_appendHeader_le (Stream.flagsOf dek) Stream.defaultChunkSize n
  rcases hpace with hsmall | ⟨hk, hn⟩
  -- No chunk gets full.
  · have hzero : (X.length + p.length) / Stream.defaultChunkSize = 0 :=
      Nat.div_eq_of_lt (by omega)
    have hzero' : X.length / Stream.defaultChunkSize = 0 := Nat.div_eq_of_lt (by omega)
    rw [hzero, hzero']
    exact Nat.le_add_right _ _
  · have hwidth := h.code.params.le
    refine stripes_le_two hk (by omega) hh (tagLenOf_eq dek) ?_ hle hn
    have hpos : 1 ≤ k * Ec.defaultSliceSize - 4096 := by
      show 1 ≤ k * 262144 - 4096
      omega
    rwa [Nat.max_eq_left hpos] at hp

end

/-! ## A single data shard -/

theorem Encoding.write_chunk [Stream.LawfulGcm] (h : Encoding sw 1 m n frameSize fronts dek X)
    (hlt : X.length < Stream.defaultChunkSize)
    (heq : X.length + p.length = Stream.defaultChunkSize) (hn : Stream.defaultChunkSize ≤ n)
    (hframe : Stream.defaultChunkSize + 60 ≤ frameSize) :
    ∃ sw', sw.write p = .ok sw' ∧ ∀ (i : Nat) (b : Bytes), fronts[i]? = some b →
      ∃ d : Bytes, sw'.w.shards[i]? = some (b ++ d) ∧ Stream.defaultChunkSize ≤ d.length := by
  have hchunk : Stream.defaultChunkSize = 1048576 := rfl
  have hslice : 1 * Ec.defaultSliceSize = 262144 := rfl
  have hheader := Stream.length_appendHeader_le (Stream.flagsOf dek) Stream.defaultChunkSize n
  have htag := tagLenOf_eq dek
  have hsent := length_sentFrame h.key n X
  have hstored : (Stream.storedChunk dek 0 (X ++ p)).length =
      Stream.defaultChunkSize + Stream.tagLenOf dek := by
    rw [Stream.length_storedChunk h.key, List.length_append, heq]
  rw [Nat.div_eq_of_lt hlt, Nat.zero_mul, Nat.add_zero] at hsent
  obtain ⟨ecw, hecw, -⟩ := h.writing.write_of_le h.code (by decide)
    (p := Stream.storedChunk dek 0 (X ++ p)) (by omega)
  obtain ⟨w₀, hw₀, hframing⟩ := h.started
  obtain ⟨sw', hwrite, -⟩ := hframing.write_of_eq (by omega) hlt heq hecw
  refine ⟨sw', hwrite, fun i b hb => ?_⟩
  have h' := h.next hwrite
  have hshards := h'.writing.shards
  have hne : ∀ d ∈ fullBlocks (1 * Ec.defaultSliceSize) (sentFrame dek n (X ++ p)),
      d.length = 1 * Ec.defaultSliceSize := fun d hd => length_of_mem_fullBlocks hd
  rw [hshards, getElem?_appendStripes h.code h.length_fronts
    (fun d hd => List.ne_nil_of_length_pos (by rw [hne d hd]; decide)) hb]
  refine ⟨_, rfl, ?_⟩
  have hlen : ∀ d ∈ (fullBlocks (1 * Ec.defaultSliceSize) (sentFrame dek n (X ++ p))).map
      (fun d => Ec.sliceOf (Ec.codec 1 m) 1 d i), d.length = Ec.defaultSliceSize := by
    intro d hd
    obtain ⟨e, he, rfl⟩ := List.mem_map.mp hd
    obtain ⟨hi, -⟩ := List.getElem?_eq_some_iff.mp hb
    rw [h.code.length_sliceOf (List.ne_nil_of_length_pos (by rw [hne e he]; decide))
      (h.length_fronts ▸ hi), hne e he, Ec.sliceLen_mul (by decide)]
  rw [length_flatten_of_forall hlen, List.length_map, length_fullBlocks, length_sentFrame h.key,
    List.length_append, heq, Nat.div_self (by decide)]
  have hfour : 4 ≤ ((Stream.appendHeader (Stream.flagsOf dek) Stream.defaultChunkSize n).length +
      1 * (Stream.defaultChunkSize + Stream.tagLenOf dek)) / (1 * Ec.defaultSliceSize) := by
    rw [Nat.le_div_iff_mul_le (by decide)]
    omega
  exact Nat.mul_le_mul_right Ec.defaultSliceSize hfour

/-! ## The close -/

omit [Stream.Gcm] [ReedSolomon] in
theorem length_trailer_le (stored : List Bytes) :
    (Stream.trailer stored).length ≤ 14 * stored.length := by
  induction stored with
  | nil => exact Nat.le_refl 0
  | cons b stored ih =>
    have huvarint := length_appendUvarint_le (uint64 b.length)
    rw [Stream.trailer, List.length_append] at ih ⊢
    rw [List.flatMap_cons, List.flatMap_cons, List.length_append, List.length_append,
      length_putUint32LE, List.length_cons]
    omega

omit [ReedSolomon] in
theorem sentFrame_isPrefix_frame [Stream.LawfulGcm] (hdek : ∀ key ∈ dek, key.length = Stream.dekLen)
    (X : Bytes) :
    sentFrame dek X.length X <+: Stream.frame dek Stream.defaultChunkSize X ∧
      (Stream.frame dek Stream.defaultChunkSize X).length ≤
        (sentFrame dek X.length X).length + X.length % Stream.defaultChunkSize +
          Stream.tagLenOf dek + 14 * (X.length / Stream.defaultChunkSize + 1) + 4 := by
  have hblocks : fullBlocks Stream.defaultChunkSize X <+: blocks Stream.defaultChunkSize X := by
    rw [blocks]
    split
    · exact List.prefix_rfl
    · exact List.prefix_append _ _
  constructor
  · refine (List.prefix_append_right_inj _).mpr ?_
    exact (storedChunks_isPrefix dek hblocks).trans (List.prefix_append _ _)
  · have htrailer := length_trailer_le
      (Stream.storedChunks dek (blocks Stream.defaultChunkSize X))
    have hcount : (blocks Stream.defaultChunkSize X).length ≤
        X.length / Stream.defaultChunkSize + 1 := by
      rw [blocks]
      split
      · rw [length_fullBlocks]
        exact Nat.le_succ _
      · rw [List.length_append, length_fullBlocks, List.length_singleton]
    have hX := Nat.div_add_mod X.length Stream.defaultChunkSize
    have htags := Nat.mul_le_mul_right (Stream.tagLenOf dek) hcount
    rw [Stream.length_storedChunks] at htrailer
    rw [length_sentFrame hdek, Stream.frame]
    simp only [List.length_append, length_flatten_storedChunks hdek, length_putUint32LE,
      flatten_blocks (by decide : 0 < Stream.defaultChunkSize)]
    rw [Nat.mul_add, Nat.mul_comm _ Stream.defaultChunkSize]
    rw [Nat.add_mul, Nat.one_mul] at htags
    omega

omit [Stream.Gcm] [ReedSolomon] in
theorem length_rest (B : Nat) (X : Bytes) : (rest B X).length = X.length % B := by
  rw [rest, List.length_drop, Nat.mod_eq_sub_div_mul]

omit [Stream.Gcm] in
theorem grew_close (hcode : Ec.Codes (Ec.codec k m) k m) (hfronts : fronts.length = k + m)
    {w w' : Ec.Writer} {F : Bytes}
    (hw : Ec.Writing w (Ec.codec k m) k m Ec.defaultSliceSize frameSize fronts F)
    (hclose : w.close = .ok w') :
    Grew (Ec.sliceLen k (F.length % (k * Ec.defaultSliceSize))) w.shards w'.shards := by
  have hwidth := hcode.params.le
  have hB : 0 < k * Ec.defaultSliceSize := Nat.mul_pos hcode.params.k_pos (by decide)
  have hstripe : k * Ec.defaultSliceSize < 2 ^ 63 := by
    have hle : k * Ec.defaultSliceSize ≤ 256 * 262144 := Nat.mul_le_mul_right _ (by omega)
    omega
  obtain ⟨-, hshards⟩ := hw.close hcode hstripe hclose
  have hlen : w.shards.length = k + m := by
    rw [hw.shards]
    exact (grew_fullBlocks hcode (by decide) hfronts List.prefix_rfl).1
  rw [hshards, blocks]
  split
  · rw [← hw.shards]
    exact Grew.refl _ _
  next hne =>
    rw [Ec.appendStripes_append, ← hw.shards, ← length_rest]
    have hlast : ∀ d ∈ [rest (k * Ec.defaultSliceSize) F], d ≠ [] := by simpa using hne
    simpa using (grew_appendStripes hcode hlen hlast).2

/-- The close sends what fits the window it asked for.  A small object is sent as
a whole, and the shards had nothing but their fronts. -/
theorem Encoding.close [Stream.LawfulGcm] (h : Encoding sw k m n frameSize fronts dek X)
    (hpace : Paceable k n) (hclose : sw.close = .ok sw') :
    ∃ g₁ g₂, Grew g₁ sw.w.shards sw'.w.shards ∧
      (∀ w, sw'.w.close = .ok w → Grew g₂ sw'.w.shards w.shards) ∧
      (g₁ + g₂ ≤ closeNeed ∨
        sw.w.shards = fronts ∧ g₁ + g₂ + 2048 ≤ Stream.defaultChunkSize) := by
  obtain ⟨w₀, hw₀, hframing⟩ := h.started
  obtain ⟨rfl, -, pieces, hpieces, hflat⟩ := hframing.close hclose
  have hwriting := hw₀.writes h.code (by decide) hpieces
  rw [List.nil_append, hflat] at hwriting
  obtain ⟨hpre, hlen⟩ := sentFrame_isPrefix_frame h.key X
  obtain ⟨-, hgrew⟩ := grew_fullBlocks h.code (by decide : 0 < Ec.defaultSliceSize)
    h.length_fronts hpre
  rw [← h.writing.shards, ← hwriting.shards] at hgrew
  refine ⟨_, _, hgrew, fun w hw => grew_close h.code h.length_fronts hwriting hw, ?_⟩
  have hk := h.code.params.k_pos
  have hmul := mul_last_slices (s := Ec.defaultSliceSize) hk hpre.length_le
  have hsent := length_sentFrame h.key X.length X
  have hheader :=
    Stream.length_appendHeader_le (Stream.flagsOf dek) Stream.defaultChunkSize X.length
  have htag := tagLenOf_eq dek
  have hchunk : Stream.defaultChunkSize = 1048576 := rfl
  rcases hpace with hsmall | ⟨hk₂, hn⟩
  · right
    have hlt : X.length < Stream.defaultChunkSize := by omega
    have hzero := Nat.div_eq_of_lt hlt
    rw [hzero, Nat.zero_mul, Nat.add_zero] at hsent
    refine ⟨h.shards_eq_fronts hlt, ?_⟩
    have hmod := Nat.mod_le (sentFrame dek X.length X).length (k * Ec.defaultSliceSize)
    have hpreLen := hpre.length_le
    have hle := le_of_mul_le_add hk
      (hmul.trans (by omega : _ ≤ (Stream.frame dek Stream.defaultChunkSize X).length + (k - 1)))
    have hrest := Nat.mod_le X.length Stream.defaultChunkSize
    omega
  · left
    have hrest := Nat.mod_lt X.length (by decide : 0 < Stream.defaultChunkSize)
    have hcount : X.length / Stream.defaultChunkSize ≤ 5 * 1024 :=
      Nat.div_le_of_le_mul (by rwa [Nat.mul_comm])
    refine le_closeNeed hk₂ hmul ?_
    omega

end Encoding

end Hamster.Coord
