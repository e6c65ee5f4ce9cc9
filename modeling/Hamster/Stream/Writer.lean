import Hamster.Stream.Frame

/-!
# Writing frames

`internal/stream/writer.go`: a writer that buffers one chunk, stores it when it
is full, and writes the trailer on close.

The writer sends its frame to a sink in pieces.  `writes_close_eq` is the
result: after any sequence of writes and a close that succeeded, the object has
the declared size, and the pieces that the sink got make up the `frame` of the
object.  How the object was cut into writes plays no part.
-/

namespace Hamster.Stream

open CodeLib

class Sink (σ : Type) (ε : outParam Type) where
  write : σ → Bytes → Except ε σ

/-- The errors of a writer.  `ε` are the errors of its sink. -/
inductive StreamWriteError (ε : Type) where
  | negativeSize (n : Int)
  | chunkSize (n : Int)
  | keyLength (n : Nat)
  | writing (e : ε)
  | writeAfterClose
  | exceedsDeclared (n : Int)
  | closedTwice
  | incomplete (written : Nat) (declared : Int)
  | trailerOverflow (n : Nat)
deriving DecidableEq

structure Writer (σ : Type) where
  w : σ
  chunkSize : Nat
  declared : Int
  /-- The key that chunks are sealed with. -/
  crypter : Option Bytes
  frameSize : Nat
  written : Nat := 0
  buf : Bytes := []
  lengths : List UInt64 := []
  crcs : List UInt32 := []
  closed : Bool := false

variable {σ ε : Type} [Sink σ ε]

def send (w : σ) (p : Bytes) : Except (StreamWriteError ε) σ :=
  match Sink.write w p with
  | .error e => .error (.writing e)
  | .ok w' => .ok w'

def newWriter (w : σ) (plaintextSize chunkSize : Int) (dek : Option Bytes) :
    Except (StreamWriteError ε) (Writer σ) :=
  if plaintextSize < 0 then .error (.negativeSize plaintextSize)
  else if chunkSize ≤ 0 then .error (.chunkSize chunkSize)
  else
    match dek.filter (fun key => key.length ≠ dekLen) with
    | some key => .error (.keyLength key.length)
    | none => do
      let hdr := appendHeader (flagsOf dek) chunkSize plaintextSize
      let w ← send w hdr
      .ok { w, chunkSize := chunkSize.toNat, declared := plaintextSize, crypter := dek,
            frameSize := hdr.length }

variable [Gcm]

namespace Writer

def flush (w : Writer σ) : Except (StreamWriteError ε) (Writer σ) := do
  let stored := storedChunk w.crypter w.lengths.length w.buf
  let sink ← send w.w stored
  .ok { w with
    w := sink
    lengths := w.lengths ++ [uint64 stored.length]
    crcs := w.crcs ++ [checksum stored]
    frameSize := w.frameSize + stored.length
    buf := [] }

def write (w : Writer σ) (p : Bytes) : Except (StreamWriteError ε) (Writer σ) :=
  if w.closed then .error .writeAfterClose
  else if (w.written + p.length : Nat) > w.declared then .error (.exceedsDeclared w.declared)
  else
    fill w.chunkSize (fun w buf => { w with buf := buf }.flush) p.length w.buf p w >>=
      fun (buf, w') => .ok { w' with buf := buf, written := w.written + p.length }

def maxUint32 : Nat := 4294967295

/-- `Close`: the last chunk, and the trailer with its own length. -/
def close (w : Writer σ) : Except (StreamWriteError ε) (Writer σ) :=
  if w.closed then .error .closedTwice
  else if (w.written : Int) ≠ w.declared then .error (.incomplete w.written w.declared)
  else do
    let w ← (if w.buf.isEmpty then .ok w else w.flush)
    let trailer := w.lengths.flatMap appendUvarint ++ w.crcs.flatMap putUint32LE
    if trailer.length > maxUint32 then .error (.trailerOverflow trailer.length)
    else
      let trailer := trailer ++ putUint32LE (UInt32.ofNat trailer.length)
      let sink ← send w.w trailer
      .ok { w with w := sink, frameSize := w.frameSize + trailer.length, closed := true }

end Writer

/-! ## What the sink gets -/

section Run

variable {σ₀ : σ} {dek : Option Bytes} {c n : Nat} {p : Bytes}

omit [Gcm] in
theorem send_eq_ok_iff {w w' : σ} : send w p = .ok w' ↔ Sink.write w p = .ok w' := by
  unfold send
  split
  next e h => simp [h]
  next v h => simp [h]

/-- The writer has sent the header and the chunks `ds`. -/
structure Sent (w : Writer σ) (σ₀ : σ) (dek : Option Bytes) (c n : Nat) (ds : List Bytes) :
    Prop where
  sink : (appendHeader (flagsOf dek) c n :: storedChunks dek ds).foldlM Sink.write σ₀ = .ok w.w
  lengths : w.lengths = (storedChunks dek ds).map (fun b => uint64 b.length)
  crcs : w.crcs = (storedChunks dek ds).map checksum
  crypter : w.crypter = dek
  chunkSize : w.chunkSize = c
  declared : w.declared = n

theorem storedChunks_append (dek : Option Bytes) (ds : List Bytes) (d : Bytes) :
    storedChunks dek (ds ++ [d]) = storedChunks dek ds ++ [storedChunk dek ds.length d] :=
  List.mapIdx_concat

variable {w w' : Writer σ}

theorem Sent.flush {ds : List Bytes} (hw : Sent w σ₀ dek c n ds) {d : Bytes}
    (hbuf : w.buf = d) (hflush : w.flush = .ok w') :
    Sent w' σ₀ dek c n (ds ++ [d]) ∧ w'.buf = [] ∧ w'.written = w.written ∧
      w'.closed = w.closed := by
  obtain ⟨sink, hsend, hrest⟩ := bind_eq_ok_iff.mp hflush
  obtain rfl := Except.ok.inj hrest
  have hindex : w.lengths.length = ds.length := by
    rw [hw.lengths, List.length_map, storedChunks, List.length_mapIdx]
  have hstored : storedChunk w.crypter w.lengths.length w.buf = storedChunk dek ds.length d := by
    rw [hw.crypter, hindex, hbuf]
  rw [hstored] at hsend
  refine ⟨⟨?_, ?_, ?_, hw.crypter, hw.chunkSize, hw.declared⟩, rfl, rfl, rfl⟩
  · rw [storedChunks_append, ← List.cons_append, List.foldlM_append, hw.sink, bind_ok,
      List.foldlM_cons, send_eq_ok_iff.mp hsend]
    rfl
  · rw [storedChunks_append, List.map_append, ← hw.lengths]
    simp [hstored]
  · rw [storedChunks_append, List.map_append, ← hw.crcs]
    simp [hstored]

theorem Sent.foldlM_flush {ds chunks : List Bytes} (hw : Sent w σ₀ dek c n ds)
    (hfold : chunks.foldlM (fun w buf => ({ w with buf := buf } : Writer σ).flush) w = .ok w') :
    Sent w' σ₀ dek c n (ds ++ chunks) ∧ w'.written = w.written ∧ w'.closed = w.closed := by
  induction chunks generalizing w ds with
  | nil =>
    obtain rfl := Except.ok.inj hfold
    exact ⟨by rwa [List.append_nil], rfl, rfl⟩
  | cons d chunks ih =>
    obtain ⟨w₁, hflush, hrest⟩ := bind_eq_ok_iff.mp hfold
    have hw₀ : Sent { w with buf := d } σ₀ dek c n ds :=
      ⟨hw.sink, hw.lengths, hw.crcs, hw.crypter, hw.chunkSize, hw.declared⟩
    obtain ⟨hw₁, -, hwritten, hclosed⟩ := hw₀.flush rfl hflush
    obtain ⟨hw', hwritten', hclosed'⟩ := ih hw₁ hrest
    refine ⟨?_, hwritten'.trans hwritten, hclosed'.trans hclosed⟩
    rwa [List.append_assoc] at hw'

structure Framing (w : Writer σ) (σ₀ : σ) (dek : Option Bytes) (c n : Nat) (X : Bytes) :
    Prop where
  sent : Sent w σ₀ dek c n (fullBlocks c X)
  buf : w.buf = rest c X
  written : w.written = X.length
  open_ : w.closed = false

variable {X : Bytes}

theorem Framing.write (hc : 0 < c) (hw : Framing w σ₀ dek c n X) (hwrite : w.write p = .ok w') :
    Framing w' σ₀ dek c n (X ++ p) := by
  obtain ⟨hsent, hbuf, hwritten, hopen⟩ := hw
  rw [Writer.write, hopen, if_neg Bool.false_ne_true] at hwrite
  split at hwrite
  · cases hwrite
  rw [hsent.chunkSize, fill_eq hc _ (hbuf ▸ length_rest_lt hc X) (Nat.le_refl _), bind_assoc]
    at hwrite
  obtain ⟨w₁, hfold, hrest⟩ := bind_eq_ok_iff.mp hwrite
  obtain rfl := Except.ok.inj hrest
  obtain ⟨hsent₁, -, hclosed⟩ := hsent.foldlM_flush hfold
  rw [hbuf, ← fullBlocks_append hc] at hsent₁
  refine ⟨⟨hsent₁.sink, hsent₁.lengths, hsent₁.crcs, hsent₁.crypter, hsent₁.chunkSize,
    hsent₁.declared⟩, ?_, ?_, hclosed.trans hopen⟩
  · rw [hbuf, ← rest_append hc]
  · rw [hwritten, List.length_append]

theorem Framing.write_of_lt (hw : Framing w σ₀ dek c n X) (hle : X.length + p.length ≤ n)
    (hlt : X.length + p.length < c) : ∃ w', w.write p = .ok w' ∧ w'.w = w.w := by
  have hbuf : w.buf = X := hw.buf.trans (rest_of_lt (by omega))
  rw [Writer.write, hw.open_, if_neg Bool.false_ne_true, hw.written, hw.sent.declared,
    if_neg (by omega), hw.sent.chunkSize, hbuf,
    fill_eq (by omega) _ (by omega) (Nat.le_refl _),
    fullBlocks_of_lt (by rwa [List.length_append])]
  exact ⟨_, rfl, rfl⟩

theorem Framing.write_of_eq {sink : σ} (hw : Framing w σ₀ dek c n X) (hle : X.length + p.length ≤ n)
    (hlt : X.length < c) (heq : X.length + p.length = c)
    (hsink : Sink.write w.w (storedChunk dek 0 (X ++ p)) = .ok sink) :
    ∃ w', w.write p = .ok w' ∧ w'.w = sink := by
  have hbuf : w.buf = X := hw.buf.trans (rest_of_lt hlt)
  have hlen : (X ++ p).length = c := by rw [List.length_append, heq]
  have hblocks : fullBlocks c (X ++ p) = [X ++ p] := by
    rw [fullBlocks, hlen, Nat.div_self (by omega)]
    simp [block, ← hlen]
  have hindex : w.lengths.length = 0 := by
    rw [hw.sent.lengths, fullBlocks_of_lt hlt]
    rfl
  rw [Writer.write, hw.open_, if_neg Bool.false_ne_true, hw.written, hw.sent.declared,
    if_neg (by omega), hw.sent.chunkSize, hbuf, fill_eq (by omega) _ hlt (Nat.le_refl _), hblocks,
    List.foldlM_cons, Writer.flush, hw.sent.crypter]
  dsimp only
  rw [hindex, send_eq_ok_iff.mpr hsink]
  exact ⟨_, rfl, rfl⟩

variable {pieces : List Bytes}

theorem Framing.writes (hc : 0 < c) (hw : Framing w σ₀ dek c n X)
    (hwrites : pieces.foldlM Writer.write w = .ok w') :
    Framing w' σ₀ dek c n (X ++ pieces.flatten) := by
  induction pieces generalizing w X with
  | nil =>
    obtain rfl := Except.ok.inj hwrites
    rwa [List.flatten_nil, List.append_nil]
  | cons p pieces ih =>
    obtain ⟨w₁, hwrite, hrest⟩ := bind_eq_ok_iff.mp hwrites
    rw [List.flatten_cons, ← List.append_assoc]
    exact ih (hw.write hc hwrite) hrest

theorem Framing.close {P : Bytes} (hw : Framing w σ₀ dek c n P) (hclose : w.close = .ok w') :
    P.length = n ∧ (trailer (storedChunks dek (blocks c P))).length ≤ Writer.maxUint32 ∧
      ∃ pieces : List Bytes,
        pieces.foldlM Sink.write σ₀ = .ok w'.w ∧ pieces.flatten = frame dek c P := by
  obtain ⟨hsent, hbuf, hwritten, hopen⟩ := hw
  rw [Writer.close, hopen, if_neg Bool.false_ne_true, hsent.declared, hwritten] at hclose
  split at hclose
  · cases hclose
  have hn : P.length = n := by omega
  obtain ⟨w₁, hlast, hclose⟩ := bind_eq_ok_iff.mp hclose
  -- The last chunk, if there is one.
  have hsent₁ : Sent w₁ σ₀ dek c n (blocks c P) := by
    split at hlast
    next hempty =>
      obtain rfl := Except.ok.inj hlast
      have hnil : rest c P = [] := by rwa [← hbuf, ← List.isEmpty_iff]
      rwa [blocks, if_pos hnil]
    next hempty =>
      have hne : rest c P ≠ [] := by rwa [← hbuf, ne_eq, ← List.isEmpty_iff]
      rw [blocks, if_neg hne]
      exact (hsent.flush hbuf hlast).1
  have htrailer : w₁.lengths.flatMap appendUvarint ++ w₁.crcs.flatMap putUint32LE =
      trailer (storedChunks dek (blocks c P)) := by
    rw [hsent₁.lengths, hsent₁.crcs, List.flatMap_map, List.flatMap_map]
    rfl
  rw [htrailer] at hclose
  dsimp only at hclose
  split at hclose
  · cases hclose
  next hfits =>
  obtain ⟨sink, hsend, hend⟩ := bind_eq_ok_iff.mp hclose
  obtain rfl := Except.ok.inj hend
  refine ⟨hn, Nat.not_lt.mp hfits, appendHeader (flagsOf dek) c n ::
    storedChunks dek (blocks c P) ++ [trailer (storedChunks dek (blocks c P)) ++
      putUint32LE (UInt32.ofNat (trailer (storedChunks dek (blocks c P))).length)], ?_, ?_⟩
  · rw [List.foldlM_append, hsent₁.sink, bind_ok, List.foldlM_cons, send_eq_ok_iff.mp hsend]
    rfl
  · rw [frame, hn]
    simp

omit [Gcm] in
theorem size_nonneg_of_newWriter {size : Int} (hnew : newWriter σ₀ size c dek = .ok w) :
    0 ≤ size := by
  unfold newWriter at hnew
  split at hnew
  · cases hnew
  next hpos => omega

theorem newWriter_eq_ok (hnew : newWriter σ₀ n c dek = .ok w) :
    0 < c ∧ (∀ key ∈ dek, key.length = dekLen) ∧ Framing w σ₀ dek c n [] := by
  rw [newWriter] at hnew
  split at hnew
  · cases hnew
  split at hnew
  · cases hnew
  next hchunk =>
  split at hnew
  · cases hnew
  next hkey =>
  obtain ⟨sink, hsend, hrest⟩ := bind_eq_ok_iff.mp hnew
  obtain rfl := Except.ok.inj hrest
  have hnone : storedChunks dek (fullBlocks c []) = [] := by simp [fullBlocks, storedChunks]
  refine ⟨by omega, ?_, ⟨?_, ?_, ?_, rfl, Int.toNat_natCast c, rfl⟩, by simp [rest], rfl, rfl⟩
  · intro key hmem
    obtain rfl := Option.mem_def.mp hmem
    simpa using hkey
  · rw [hnone, List.foldlM_cons, send_eq_ok_iff.mp hsend]
    rfl
  · rw [hnone]
    rfl
  · rw [hnone]
    rfl

/-- After any sequence of writes and a close that succeeded, the sink got the
frame of the object, in some pieces. -/
theorem writes_close_eq {w₀ w₁ : Writer σ} (hnew : newWriter σ₀ n c dek = .ok w₀)
    (hwrites : pieces.foldlM Writer.write w₀ = .ok w₁) (hclose : w₁.close = .ok w) :
    0 < c ∧ (∀ key ∈ dek, key.length = dekLen) ∧ pieces.flatten.length = n ∧
      (trailer (storedChunks dek (blocks c pieces.flatten))).length ≤ Writer.maxUint32 ∧
      ∃ sent : List Bytes,
        sent.foldlM Sink.write σ₀ = .ok w.w ∧ sent.flatten = frame dek c pieces.flatten := by
  obtain ⟨hc, hdek, hstart⟩ := newWriter_eq_ok hnew
  have hframing := hstart.writes hc hwrites
  rw [List.nil_append] at hframing
  exact ⟨hc, hdek, hframing.close hclose⟩

end Run

end Hamster.Stream
