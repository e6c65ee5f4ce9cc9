import Hamster.Stream.Writer

/-!
# Reading frames

`internal/stream/reader.go`: a reader of the object in a frame.  Opening a
frame reads its header and its trailer, and checks both against each other; a
read of the object reads the chunks it covers, and checks the CRC of each.

`newReader_eq` and `readAt_eq` are the results: over any reader of a frame of
an object the frame opens, and from then on every read gives the window of the
object that was asked for, whatever was read before.
-/

namespace Hamster.Stream

open CodeLib

variable {σ ε : Type} [StatefulReaderAt σ ε]

structure Reader (σ : Type) where
  r : σ
  size : Int
  chunk : Int
  tagLen : Int
  /-- The key of an encrypted frame. -/
  crypter : Option Bytes
  /-- The offset of each chunk, and the end of the last. -/
  offsets : List Int
  crcs : List UInt32

def readAtFull (r : σ) (n : Nat) (off : Int) : Except (StreamError ε) Bytes × σ :=
  let (res, r') := StatefulReaderAt.readAt r n off
  match res.full n with
  | .error cause => (.error (.reading cause), r')
  | .ok b => (.ok b, r')

/-- A step that gave a result goes on with the state it left. -/
def onSuccess {α : Type} : Except (StreamError ε) α × σ → Except (StreamError ε) (α × σ)
  | (.error e, _) => .error e
  | (.ok a, r) => .ok (a, r)

/-! ## Opening -/

def plainLen (size chunk i : Int) : Int :=
  let rest := wrap64 (size - wrap64 (i * chunk))
  if rest < chunk then rest else chunk

/-- The lengths of `n` chunks from chunk `i` on, which starts at `off`: where
each of them ends, and the rest of the trailer. -/
def readLengths (size chunk tagLen : Int) :
    Nat → Int → Int → Bytes → Except (StreamError ε) (List Int × Bytes)
  | 0, _, _, trailer => .ok ([], trailer)
  | n + 1, i, off, trailer =>
    match uvarint trailer with
    | none => .error (.badLength i)
    | some (stored, used) =>
      let want := wrap64 (plainLen size chunk i + tagLen)
      if wrap64 stored ≠ want then .error (.chunkStores i stored want)
      else
        let next := wrap64 (off + wrap64 stored)
        readLengths size chunk tagLen n (i + 1) next (trailer.drop used) >>=
          fun (offs, trailer) => .ok (next :: offs, trailer)

/-- The key and the tag length of a frame with these flags. -/
def newCrypter (flags : UInt64) (dek : Option Bytes) :
    Except (StreamError ε) (Option Bytes × Int) :=
  if flags &&& flagEncrypted ≠ 0 then
    match dek with
    | none => .error .noKey
    | some key =>
      if key.length ≠ dekLen then .error (.keyLength key.length)
      else .ok (some key, gcmTagLen)
  else .ok (none, 0)

/-- The trailer of a frame with this header, and where it starts. -/
def readTrailer (r : σ) (frameSize : Int) (h : Header) :
    Except (StreamError ε) ((Bytes × Int) × σ) :=
  if frameSize < h.len + 4 then .error (.tooShort frameSize)
  else do
    let (lenField, r) ← onSuccess (readAtFull r 4 (frameSize - 4))
    let trailerLen : Nat := (uint32LE lenField).toNat
    if h.len + trailerLen + 4 > frameSize then .error (.trailerDoesNotFit trailerLen)
    else if chunkCount h.plaintextSize h.chunkSize > trailerLen / 5 then
      .error (.cannotIndex trailerLen (chunkCount h.plaintextSize h.chunkSize))
    else
      let start := frameSize - 4 - trailerLen
      let (trailer, r) ← onSuccess (readAtFull r trailerLen start)
      .ok ((trailer, start), r)

def newReader (r : σ) (frameSize : Int) (dek : Option Bytes) :
    Except (StreamError ε) (Reader σ) :=
  let hdrLen : Int := if frameSize < maxHeaderLen then frameSize else maxHeaderLen
  if hdrLen < 0 then .error .panicked
  else do
    let (front, r) ← onSuccess (readAtFull r hdrLen.toNat 0)
    let h ← parseHeader front
    let (crypter, tagLen) ← newCrypter h.flags dek
    let ((trailer, start), r) ← readTrailer r frameSize h
    let n := (chunkCount h.plaintextSize h.chunkSize).toNat
    let (offs, rest) ← readLengths h.plaintextSize h.chunkSize tagLen n 0 h.len trailer
    if rest.length ≠ 4 * n then .error (.crcsLeft rest.length)
    else
      let offsets := h.len :: offs
      let stop := offsets.getLastD 0
      if stop ≠ start then .error (.chunksEnd stop start)
      else
        .ok { r, size := h.plaintextSize, chunk := h.chunkSize, tagLen, crypter, offsets
              crcs := (List.range n).map (fun i => uint32LE (rest.drop (4 * i))) }

/-! ## Chunks -/

section Chunks

variable [Gcm]

namespace Reader

/-- A chunk as it was written: its CRC is checked, and then its tag. -/
def checkChunk (fr : Reader σ) (i : Int) (crc : UInt32) (stored : Bytes) :
    Except (StreamError ε) Bytes :=
  if checksum stored ≠ crc then .error (.chunkCRC i)
  else
    match fr.crypter with
    | none => .ok stored
    | some key =>
      match Gcm.aeadOpen key (chunkNonce i) stored with
      | none => .error (.chunkAuthentication i)
      | some plain => .ok plain

def readChunk (fr : Reader σ) (i : Int) : Except (StreamError ε) Bytes × Reader σ :=
  match fr.offsets[i.toNat]?, fr.offsets[i.toNat + 1]?, fr.crcs[i.toNat]? with
  | some start, some stop, some crc =>
    let n := wrap64 (stop - start)
    if i < 0 ∨ n < 0 then (.error .panicked, fr)
    else
      match readAtFull fr.r n.toNat start with
      | (.error e, r) => (.error e, { fr with r := r })
      | (.ok stored, r) => (fr.checkChunk i crc stored, { fr with r := r })
  | _, _, _ => (.error .panicked, fr)

def readAt (fr : Reader σ) (n : Nat) (off : Int) : ReadResult (StreamError ε) × Reader σ :=
  if off < 0 then (⟨[], some (.fault (.negativeOffset off))⟩, fr)
  else readBlocks fr.size fr.chunk readChunk .panicked .endless n n off [] fr

instance : StatefulReaderAt (Reader σ) (StreamError ε) := ⟨readAt⟩

end Reader

end Chunks

/-! ## The trailer of a frame -/

/-- Where each chunk ends, when the first one starts at `off`. -/
def endsFrom : Nat → List Bytes → List Nat
  | _, [] => []
  | off, b :: stored => (off + b.length) :: endsFrom (off + b.length) stored

variable {stored : List Bytes} {t : Nat}

theorem getElem?_endsFrom {off : Nat} (ht : t ≤ stored.length) :
    (off :: endsFrom off stored)[t]? = some (off + (stored.take t).flatten.length) := by
  induction t generalizing off stored with
  | zero => simp
  | succ t ih =>
    match stored, ht with
    | b :: stored, ht =>
      rw [List.getElem?_cons_succ, endsFrom, ih (Nat.le_of_succ_le_succ ht),
        List.take_succ_cons, List.flatten_cons, List.length_append, Nat.add_assoc]

theorem getLastD_endsFrom (off : Nat) (stored : List Bytes) (d : Int) :
    ((off : Int) :: (endsFrom off stored).map (↑)).getLastD d =
      (off + stored.flatten.length : Nat) := by
  induction stored generalizing off d with
  | nil => simp [endsFrom]
  | cons b stored ih =>
    rw [endsFrom, List.map_cons, List.getLastD_cons, ih, List.flatten_cons, List.length_append,
      Nat.add_assoc]

theorem readLengths_eq {size chunk tagLen : Int} {i off : Nat}
    (hlen : ∀ t b, stored[t]? = some b →
      (b.length : Int) = plainLen size chunk (i + t : Nat) + tagLen)
    (hend : off + stored.flatten.length < 2 ^ 63) (rest : Bytes) :
    readLengths size chunk tagLen stored.length i off
        (stored.flatMap (fun b => appendUvarint (uint64 b.length)) ++ rest) =
      (.ok ((endsFrom off stored).map (↑), rest) : Except (StreamError ε) _) := by
  induction stored generalizing i off with
  | nil => rfl
  | cons b stored ih =>
    rw [List.flatten_cons, List.length_append] at hend
    have hb : b.length < 2 ^ 63 := by omega
    have hu : (uint64 b.length).toNat = b.length := toNat_uint64_natCast (by omega)
    have hwant : plainLen size chunk i + tagLen = b.length := (hlen 0 b rfl).symm
    have hnext : wrap64 ((off : Int) + b.length) = (off + b.length : Nat) := by
      rw [← Int.natCast_add, wrap64_natCast (by omega)]
    have hrest := @ih (i + 1) (off + b.length)
      (fun t b' hb' => by
        rw [Nat.add_assoc, Nat.add_comm 1 t]
        exact hlen (t + 1) b' hb') (by omega)
    rw [List.flatMap_cons, List.append_assoc, List.length_cons, readLengths,
      uvarint_appendUvarint]
    dsimp only
    rw [hwant, hu, wrap64_natCast hb, if_neg (not_not.mpr rfl), hnext, List.drop_left,
      ← Int.natCast_succ, hrest, bind_ok]
    rfl

theorem readCRCs_eq (stored : List Bytes) :
    (List.range stored.length).map
        (fun i => uint32LE ((stored.flatMap (fun b => putUint32LE (checksum b))).drop (4 * i))) =
      stored.map checksum := by
  induction stored with
  | nil => rfl
  | cons b stored ih =>
    rw [List.length_cons, List.range_succ_eq_map, List.map_cons, List.map_map, List.map_cons,
      List.flatMap_cons, Nat.mul_zero, List.drop_zero, uint32LE_putUint32LE]
    refine congrArg (checksum b :: ·) ((List.map_congr_left (fun i _ => ?_)).trans ih)
    show uint32LE ((putUint32LE (checksum b) ++ _).drop (4 * (i + 1))) = _
    rw [Nat.mul_add, Nat.mul_one, Nat.add_comm, ← List.drop_drop]
    rfl

/-! ## The reader of a frame -/

section Frame

variable [Gcm] {dek : Option Bytes} {c : Nat} {P : Bytes}

/-- What a writer that closed has made sure of.  Sizes are `int64`. -/
structure Written (dek : Option Bytes) (c : Nat) (P : Bytes) : Prop where
  chunk_pos : 0 < c
  chunk_lt : c < 2 ^ 63
  size_lt : P.length < 2 ^ 63
  key : ∀ key ∈ dek, key.length = dekLen
  trailer_le : (trailer (storedChunks dek (blocks c P))).length ≤ Writer.maxUint32
  frame_lt : (frame dek c P).length < 2 ^ 63

def headerOf (dek : Option Bytes) (c : Nat) (P : Bytes) : Bytes :=
  appendHeader (flagsOf dek) c P.length

theorem length_frame (dek : Option Bytes) (c : Nat) (P : Bytes) :
    (frame dek c P).length = (headerOf dek c P).length +
      (storedChunks dek (blocks c P)).flatten.length +
      (trailer (storedChunks dek (blocks c P))).length + 4 := by
  simp only [frame, List.length_append, length_putUint32LE, headerOf]
  omega

theorem getElem?_storedChunks (hc : 0 < c) (ht : t * c < P.length) :
    (storedChunks dek (blocks c P))[t]? = some (storedChunk dek t (block c P t)) := by
  rw [storedChunks, List.getElem?_mapIdx, getElem?_blocks hc ((lt_length_blocks_iff hc).mpr ht),
    Option.map_some]

omit [Gcm] in
theorem plainLen_eq (hP : P.length < 2 ^ 63) (ht : t * c < P.length) :
    plainLen P.length c t = ((block c P t).length : Int) := by
  have htc : wrap64 ((t : Int) * c) = (t * c : Nat) := by
    rw [← Int.natCast_mul, wrap64_natCast (ht.trans hP)]
  have hrest : wrap64 ((P.length : Int) - (t * c : Nat)) = (P.length - t * c : Nat) := by
    rw [← Int.ofNat_sub ht.le, wrap64_natCast (by omega)]
  rw [plainLen, htc, hrest, length_block]
  split
  · rw [Nat.min_eq_right (by omega)]
  · rw [Nat.min_eq_left (by omega)]

omit [Gcm] in
theorem readAtFull_of_serves {I : σ → Prop} {xs : Bytes} (hserves : Serves I xs) {r : σ}
    (hr : I r) {n off : Nat} (h : off + n ≤ xs.length) :
    ∃ r', readAtFull r n off = (.ok ((xs.drop off).take n), r') ∧ I r' := by
  obtain ⟨r', hread, hr'⟩ := hserves r hr n off
  refine ⟨r', ?_, hr'⟩
  rw [readAtFull, hread]
  dsimp only
  rw [full_window h]

omit [Gcm] in
theorem newCrypter_eq (hkey : ∀ key ∈ dek, key.length = dekLen) :
    newCrypter (flagsOf dek) dek =
      (.ok (dek, (tagLenOf dek : Int)) : Except (StreamError ε) _) := by
  match dek, hkey with
  | none, _ => rfl
  | some key, hkey =>
    have hlen : ¬ key.length ≠ dekLen := not_not.mpr (hkey key rfl)
    have hflag : flagsOf (some key) &&& flagEncrypted ≠ 0 := by
      show flagEncrypted &&& flagEncrypted ≠ 0
      decide
    rw [newCrypter, if_pos hflag, if_neg hlen]
    rfl

omit [Gcm] in
theorem length_crcs (stored : List Bytes) :
    (stored.flatMap (fun b => putUint32LE (checksum b))).length = 4 * stored.length := by
  induction stored with
  | nil => rfl
  | cons b stored ih =>
    rw [List.flatMap_cons, List.length_append, ih, length_putUint32LE, List.length_cons]
    omega

omit [Gcm] in
theorem length_trailer_ge (stored : List Bytes) : 5 * stored.length ≤ (trailer stored).length := by
  have hlengths : stored.length ≤
      (stored.flatMap (fun b => appendUvarint (uint64 b.length))).length := by
    induction stored with
    | nil => simp
    | cons b stored ih =>
      have hpos := List.length_pos_iff.mpr (appendUvarint_ne_nil (uint64 b.length))
      rw [List.flatMap_cons, List.length_append, List.length_cons]
      omega
  rw [trailer, List.length_append, length_crcs]
  omega

/-- A reader of the frame of an object, over readers in `I`. -/
structure Framed (fr : Reader σ) (I : σ → Prop) (dek : Option Bytes) (c : Nat) (P : Bytes) :
    Prop where
  inv : I fr.r
  size : fr.size = P.length
  chunk : fr.chunk = c
  crypter : fr.crypter = dek
  offsets : ∀ t ≤ (storedChunks dek (blocks c P)).length, fr.offsets[t]? = some
    (((headerOf dek c P).length +
    ((storedChunks dek (blocks c P)).take t).flatten.length : Nat) : Int)
  crcs : fr.crcs = (storedChunks dek (blocks c P)).map checksum

section Open

variable {I : σ → Prop} (hw : Written dek c P) (hserves : Serves I (frame dek c P)) {r : σ}
  (hr : I r)

include hw hserves hr

theorem readHeader_eq : ∃ front r', readAtFull r (min maxHeaderLen (frame dek c P).length) 0 =
      (.ok front, r') ∧ I r' ∧ parseHeader front = (.ok ⟨flagsOf dek, c, P.length,
        (headerOf dek c P).length⟩ : Except (StreamError ε) _) := by
  obtain ⟨r', hread, hr'⟩ := readAtFull_of_serves hserves hr
    (by omega : 0 + min maxHeaderLen (frame dek c P).length ≤ (frame dek c P).length)
  refine ⟨_, r', hread, hr', ?_⟩
  have hflags : flagsOf dek &&& ~~~supportedFlags = 0 := by
    cases dek with
    | none => decide
    | some key =>
      show flagEncrypted &&& ~~~supportedFlags = 0
      decide
  have hle : (headerOf dek c P).length ≤ maxHeaderLen := length_appendHeader_le _ _ _
  have hlen := length_frame dek c P
  have hsplit : frame dek c P = headerOf dek c P ++
      (frame dek c P).drop (headerOf dek c P).length := by
    conv_lhs => rw [← List.take_append_drop (headerOf dek c P).length (frame dek c P)]
    rw [frame, headerOf, List.take_left]
  rw [List.drop_zero, hsplit, List.take_append, List.take_of_length_le (by rw [← hsplit]; omega)]
  exact parseHeader_append hflags hw.chunk_pos hw.chunk_lt hw.size_lt _

theorem readTrailer_eq : ∃ r', readTrailer r (frame dek c P).length ⟨flagsOf dek, c, P.length,
      (headerOf dek c P).length⟩ = .ok ((trailer (storedChunks dek (blocks c P)),
        (((headerOf dek c P).length + (storedChunks dek (blocks c P)).flatten.length : Nat) : Int)),
        r') ∧ I r' := by
  have hlen := length_frame dek c P
  have hcount := length_storedChunks dek (blocks c P)
  have hfits := hw.trailer_le
  have hindex := length_trailer_ge (storedChunks dek (blocks c P))
  have hframe : frame dek c P = (headerOf dek c P ++ (storedChunks dek (blocks c P)).flatten) ++
      (trailer (storedChunks dek (blocks c P)) ++
        putUint32LE (UInt32.ofNat (trailer (storedChunks dek (blocks c P))).length)) := by
    rw [frame, headerOf, List.append_assoc]
  generalize storedChunks dek (blocks c P) = stored at hlen hcount hfits hindex hframe
  set before := headerOf dek c P ++ stored.flatten with hbefore
  have hbeforeLen : before.length = (headerOf dek c P).length + stored.flatten.length := by
    rw [hbefore, List.length_append]
  have hword : (UInt32.ofNat (trailer stored).length).toNat = (trailer stored).length := by
    rw [UInt32.toNat_ofNat']
    unfold Writer.maxUint32 at hfits
    omega
  -- The last four bytes of the frame.
  obtain ⟨r₁, hread₁, hr₁⟩ := readAtFull_of_serves hserves hr
    (by omega : (before.length + (trailer stored).length) + 4 ≤ (frame dek c P).length)
  have hfield : ((frame dek c P).drop (before.length + (trailer stored).length)).take 4 =
      putUint32LE (UInt32.ofNat (trailer stored).length) := by
    rw [hframe, ← List.append_assoc, List.drop_left' (by rw [List.length_append])]
    rfl
  obtain ⟨r₂, hread₂, hr₂⟩ := readAtFull_of_serves hserves hr₁
    (by omega : before.length + (trailer stored).length ≤ (frame dek c P).length)
  have htrailer : ((frame dek c P).drop before.length).take (trailer stored).length =
      trailer stored := by
    rw [hframe, List.drop_left, List.take_left]
  rw [hfield] at hread₁
  rw [htrailer] at hread₂
  have hoff₁ : ((frame dek c P).length : Int) - 4 =
      (before.length + (trailer stored).length : Nat) := by
    omega
  have hoff₂ : ((before.length + (trailer stored).length : Nat) : Int) - (trailer stored).length =
      (before.length : Nat) := by
    omega
  refine ⟨r₂, ?_, hr₂⟩
  have hvalue : (uint32LE (putUint32LE (UInt32.ofNat (trailer stored).length))).toNat =
      (trailer stored).length := by
    rw [← List.append_nil (putUint32LE _), uint32LE_putUint32LE, hword]
  rw [readTrailer]
  dsimp only
  rw [if_neg (by omega), hoff₁, hread₁, onSuccess, bind_ok]
  dsimp only
  rw [hvalue, if_neg (by omega), chunkCount_natCast hw.chunk_pos, ← hcount,
    if_neg (by omega), hoff₂,
    hread₂, onSuccess, bind_ok, ← hbeforeLen]

theorem newReader_eq [LawfulGcm] : ∃ fr, newReader r (frame dek c P).length dek = .ok fr ∧
    Framed fr I dek c P := by
  obtain ⟨front, r₁, hfront, hr₁, hparse⟩ := readHeader_eq hw hserves hr
  obtain ⟨r₂, htrailer, hr₂⟩ := readTrailer_eq hw hserves hr₁
  have hlen := length_frame dek c P
  have hcount : (chunkCount P.length c).toNat = (storedChunks dek (blocks c P)).length := by
    rw [chunkCount_natCast hw.chunk_pos, Int.toNat_natCast, length_storedChunks]
  have hstored : ∀ t b, (storedChunks dek (blocks c P))[t]? = some b →
      (b.length : Int) = plainLen P.length c (0 + t : Nat) + tagLenOf dek := by
    intro t b hb
    have ht : t * c < P.length := by
      have hlt := (List.getElem?_eq_some_iff.mp hb).1
      rwa [length_storedChunks, lt_length_blocks_iff hw.chunk_pos] at hlt
    rw [getElem?_storedChunks hw.chunk_pos ht] at hb
    rw [← Option.some.inj hb, length_storedChunk hw.key, Nat.zero_add, plainLen_eq hw.size_lt ht,
      Int.natCast_add]
  have hframe := hw.frame_lt
  have hlengths := readLengths_eq (ε := ε) hstored
    (by omega : (headerOf dek c P).length + (storedChunks dek (blocks c P)).flatten.length < 2 ^ 63)
    ((storedChunks dek (blocks c P)).flatMap (fun b => putUint32LE (checksum b)))
  have hfrontLen : (if ((frame dek c P).length : Int) < maxHeaderLen then
      ((frame dek c P).length : Int) else maxHeaderLen) =
      (min maxHeaderLen (frame dek c P).length : Nat) := by
    split
    · rw [Nat.min_eq_right (by omega)]
    · rw [Nat.min_eq_left (by omega)]
  rw [newReader, hfrontLen]
  dsimp only
  rw [if_neg (Int.not_lt.mpr (Int.natCast_nonneg _)), Int.toNat_natCast]
  have hfront' : onSuccess (readAtFull r (min maxHeaderLen (frame dek c P).length) 0) =
      .ok (front, r₁) := by rw [hfront, onSuccess]
  rw [hfront', bind_ok]
  dsimp only
  rw [hparse, bind_ok]
  dsimp only
  rw [newCrypter_eq hw.key, bind_ok]
  dsimp only
  rw [htrailer, bind_ok]
  dsimp only
  rw [hcount, trailer, ← Int.natCast_zero, hlengths, bind_ok]
  dsimp only
  rw [length_crcs, if_neg (not_not.mpr rfl), getLastD_endsFrom, if_neg (not_not.mpr rfl),
    readCRCs_eq]
  refine ⟨_, rfl, hr₂, rfl, rfl, rfl, fun t ht => ?_, rfl⟩
  show (((headerOf dek c P).length :: endsFrom (headerOf dek c P).length
    (storedChunks dek (blocks c P))).map (fun n : Nat => (n : Int)))[t]? = _
  rw [List.getElem?_map, getElem?_endsFrom ht, Option.map_some]

end Open

variable [LawfulGcm] {I : σ → Prop} (hw : Written dek c P) (hserves : Serves I (frame dek c P))

include hw hserves

theorem Framed.readChunk_eq {fr : Reader σ} (hfr : Framed fr I dek c P) (i : Nat)
    (hi : i * c < P.length) :
    ∃ fr', fr.readChunk i = (.ok (block c P i), fr') ∧ Framed fr' I dek c P := by
  have hget : (storedChunks dek (blocks c P))[i]? = some (storedChunk dek i (block c P i)) :=
    getElem?_storedChunks hw.chunk_pos hi
  have hlt := (List.getElem?_eq_some_iff.mp hget).1
  have hstart := hfr.offsets i hlt.le
  have hstop := hfr.offsets (i + 1) hlt
  have hcrc : fr.crcs[i]? = some (checksum (storedChunk dek i (block c P i))) := by
    rw [hfr.crcs, List.getElem?_map, hget, Option.map_some]
  have hwindow := take_drop_flatten hget (trailer (storedChunks dek (blocks c P)) ++
    putUint32LE (UInt32.ofNat (trailer (storedChunks dek (blocks c P))).length))
  have hsucc : ((storedChunks dek (blocks c P)).take (i + 1)).flatten.length =
      ((storedChunks dek (blocks c P)).take i).flatten.length +
        (storedChunk dek i (block c P i)).length := by
    rw [List.take_add_one, hget, List.flatten_append, List.length_append]
    simp
  have htotal : ((storedChunks dek (blocks c P)).take (i + 1)).flatten.length ≤
      (storedChunks dek (blocks c P)).flatten.length := length_flatten_take_le _ _
  have hlen := length_frame dek c P
  have hframe := hw.frame_lt
  set at_ := (headerOf dek c P).length + ((storedChunks dek (blocks c P)).take i).flatten.length
    with hat
  set stored := storedChunk dek i (block c P i) with hstored
  have hsize : wrap64 (((headerOf dek c P).length +
      ((storedChunks dek (blocks c P)).take (i + 1)).flatten.length : Nat) - (at_ : Int)) =
      (stored.length : Nat) := by
    have hdiff : (((headerOf dek c P).length +
        ((storedChunks dek (blocks c P)).take (i + 1)).flatten.length : Nat) - (at_ : Int)) =
        (stored.length : Nat) := by omega
    rw [hdiff, wrap64_natCast (by omega)]
  obtain ⟨r', hread, hr'⟩ := readAtFull_of_serves hserves hfr.inv
    (by omega : at_ + stored.length ≤ (frame dek c P).length)
  have hbytes : ((frame dek c P).drop at_).take stored.length = stored := by
    rw [hat, ← List.drop_drop]
    have hbody : (frame dek c P).drop (headerOf dek c P).length = _ := List.drop_left
    rw [hbody, hwindow]
  rw [hbytes] at hread
  refine ⟨{ fr with r := r' }, ?_, hr', hfr.size, hfr.chunk, hfr.crypter, hfr.offsets, hfr.crcs⟩
  rw [Reader.readChunk, Int.toNat_natCast, hstart, hstop, hcrc]
  dsimp only
  rw [hsize, if_neg (by omega), Int.toNat_natCast, hread]
  dsimp only
  rw [Reader.checkChunk, if_neg (not_not.mpr rfl), hfr.crypter, hstored]
  cases dek with
  | none => rfl
  | some key =>
    show ((match Gcm.aeadOpen key (chunkNonce i)
        (Gcm.aeadSeal key (chunkNonce i) (block c P i)) with
      | none => .error (.chunkAuthentication i)
      | some plain => .ok plain : Except (StreamError ε) Bytes), _) = _
    rw [LawfulGcm.aeadOpen_aeadSeal _ (hw.key key rfl) (length_chunkNonce i)]

theorem serves_object : Serves (fun fr : Reader σ => Framed fr I dek c P) P := by
  intro fr hfr n off
  obtain ⟨fr', hread, hfr'⟩ := readBlocks_eq hw.chunk_pos hw.size_lt
    (fun fr (hfr : Framed fr I dek c P) i hi => hfr.readChunk_eq hw hserves i hi)
    .panicked .endless (Nat.le_refl n) off [] hfr
  refine ⟨fr', ?_, hfr'⟩
  show fr.readAt n off = _
  rw [Reader.readAt, if_neg (Int.not_lt.mpr (Int.natCast_nonneg off)), hfr.size, hfr.chunk, hread]
  rfl

end Frame

end Hamster.Stream
