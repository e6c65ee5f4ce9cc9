import Hamster.Coord.ReEncode

/-!
# What a re-encoding leaves behind

A re-encoding goes through stages (`Stage`): it probes, fetches, writes,
proposes, and has failed or succeeded.  Each kind of reply keeps the stage or
moves to the next, so every run ends in one of them (`stage_run`).

`safe_of_intact` is the result.  The operation picks the first `k` shards that
answer, whatever their checksums are, so it needs that those match.
`launders_rotted` is a run where they do not.
-/

namespace Hamster.Coord

open CodeLib Meta

/-! ## Fetching -/

variable {picked : List (Option Nat)} {i off t : Nat} {f : Bytes} {r : Request} {l : Nat}

namespace ReEncodeOp

theorem length_chosen (k : Nat) (lengths : List (Option Nat)) :
    (chosen k lengths).length = lengths.length := by
  induction lengths generalizing k with
  | nil => cases k <;> rfl
  | cons l ls ih =>
    match k, l with
    | 0, _ => exact congrArg (· + 1) (ih 0)
    | k + 1, none => exact congrArg (· + 1) (ih (k + 1))
    | k + 1, some l => exact congrArg (· + 1) (ih k)

theorem of_getElem?_chosen {k : Nat} {lengths : List (Option Nat)}
    (h : (chosen k lengths)[i]? = some (some l)) : lengths[i]? = some (some l) := by
  induction lengths generalizing k i with
  | nil => cases k <;> cases h
  | cons l' ls ih =>
    match k, l', i with
    | 0, _, 0 => cases h
    | k + 1, none, 0 => cases h
    | k + 1, some l', 0 => exact h
    | 0, _, i + 1 => exact ih h
    | k + 1, none, i + 1 => exact ih h
    | k + 1, some l', i + 1 => exact ih h

theorem fetchPiece_pos : 0 < fetchPiece := by decide

theorem mem_pieces :
    r ∈ pieces picked ↔ ∃ i l t, picked[i]? = some (some l) ∧ t * fetchPiece < l ∧
      r = piece i l t := by
  have hcount : ∀ l t : Nat, t < (l + fetchPiece - 1) / fetchPiece ↔ t * fetchPiece < l := by
    intro l t
    rw [Nat.lt_iff_add_one_le, Nat.le_div_iff_mul_le fetchPiece_pos, Nat.add_mul, Nat.one_mul]
    have := fetchPiece_pos
    omega
  constructor
  · intro hr
    obtain ⟨⟨l, i⟩, hmem, hr⟩ := List.mem_flatMap.mp hr
    match l, hr with
    | some l, hr =>
      obtain ⟨t, ht, rfl⟩ := List.mem_map.mp hr
      exact ⟨i, l, t, List.mem_zipIdx_iff_getElem?.mp hmem,
        (hcount l t).mp (List.mem_range.mp ht), rfl⟩
  · rintro ⟨i, l, t, hi, ht, rfl⟩
    exact List.mem_flatMap.mpr ⟨(some l, i), List.mem_zipIdx_iff_getElem?.mpr hi,
      List.mem_map.mpr ⟨t, List.mem_range.mpr ((hcount l t).mpr ht), rfl⟩⟩

theorem piece_inj {i' l' t' : Nat} (h : piece i l t = piece i' l' t') : i = i' ∧ t = t' := by
  injection h with hi hoff _
  exact ⟨hi, Nat.eq_of_mul_eq_mul_right fetchPiece_pos hoff⟩

variable {buf : Bytes} {b : Bytes}

theorem length_overlay (h : off + b.length ≤ buf.length) :
    (overlay buf off b).length = buf.length := by
  rw [overlay, List.length_append, List.length_append, List.length_take, List.length_drop]
  omega

theorem getElem?_overlay (h : off + b.length ≤ buf.length) (p : Nat) :
    (overlay buf off b)[p]? = if off ≤ p ∧ p < off + b.length then b[p - off]? else buf[p]? := by
  have htake : (buf.take off).length = off := by
    rw [List.length_take]
    omega
  rw [overlay, List.append_assoc]
  rcases Nat.lt_or_ge p off with hlt | hge
  · rw [List.getElem?_append_left (by omega), List.getElem?_take, if_pos hlt, if_neg (by omega)]
  · rw [List.getElem?_append_right (by omega), htake]
    rcases Nat.lt_or_ge (p - off) b.length with hin | hout
    · rw [List.getElem?_append_left hin, if_pos (by omega)]
    · rw [List.getElem?_append_right hout, List.getElem?_drop, if_neg (by omega)]
      congr 1
      omega

theorem block_overlay {B : Nat} (hlen : buf.length = f.length) (ht : t * B < f.length) (t' : Nat) :
    block B (overlay buf (t * B) (block B f t)) t' =
      if t' = t then block B f t else block B buf t' := by
  have hb := length_block B f t
  refine List.ext_getElem? (fun j => ?_)
  rw [getElem?_block]
  rcases Nat.lt_or_ge j B with hj | hj
  · rw [if_pos hj, getElem?_overlay (by omega)]
    rcases Nat.lt_trichotomy t' t with hlt | rfl | hgt
    · have hle : (t' + 1) * B ≤ t * B := Nat.mul_le_mul_right B hlt
      rw [Nat.add_mul, Nat.one_mul] at hle
      rw [if_neg (by omega), if_neg (Nat.ne_of_lt hlt), getElem?_block, if_pos hj]
    · rw [if_pos rfl, Nat.add_sub_cancel_left, getElem?_block, if_pos hj]
      split
      · rfl
      · rw [List.getElem?_eq_none (by omega), List.getElem?_eq_none (by omega)]
    · have hle : (t + 1) * B ≤ t' * B := Nat.mul_le_mul_right B hgt
      rw [Nat.add_mul, Nat.one_mul] at hle
      rw [if_neg (by omega), if_neg (Nat.ne_of_gt hgt), getElem?_block, if_pos hj]
  · rw [if_neg (by omega), List.getElem?_eq_none]
    split
    · omega
    · rw [length_block]
      omega

end ReEncodeOp

/-! ## Where the operation is -/

open ReEncodeOp

/-- The shards that were picked, as they are on their disks. -/
def fetchedShards (files : Nat → Option Bytes) (picked : List (Option Nat)) :
    List (Option Bytes) :=
  picked.mapIdx (fun i l => l.bind (fun _ => files i))

/-- Every piece that is not in flight is in its buffer. -/
structure Buffered (files : Nat → Option Bytes) (picked : List (Option Nat))
    (inFlight : List Request) (buffers : List (Option Bytes)) : Prop where
  length_eq : buffers.length = picked.length
  absent : ∀ i : Nat, picked[i]? = some none → buffers[i]? = some none
  present : ∀ i l : Nat, picked[i]? = some (some l) → ∃ f buf, files i = some f ∧ f.length = l ∧
    buffers[i]? = some (some buf) ∧ buf.length = l ∧
    ∀ t, t * fetchPiece < l → piece i l t ∉ inFlight → block fetchPiece buf t = block fetchPiece f t

variable {buffers : List (Option Bytes)}

theorem Buffered.eq_fetchedShards {files : Nat → Option Bytes}
    (h : Buffered files picked [] buffers) : buffers = fetchedShards files picked := by
  refine List.ext_getElem? (fun i => ?_)
  rw [fetchedShards, List.getElem?_mapIdx]
  match hi : picked[i]? with
  | none =>
    rw [List.getElem?_eq_none_iff, ← h.length_eq] at hi
    rw [List.getElem?_eq_none hi]
    rfl
  | some none => exact h.absent i hi
  | some (some l) =>
    obtain ⟨f, buf, hf, hflen, hbuf, hlen, hblocks⟩ := h.present i l hi
    have heq : buf = f := eq_of_blocks fetchPiece_pos (hlen.trans hflen.symm)
      (fun t ht => hblocks t (hlen ▸ ht) List.not_mem_nil)
    rw [hbuf, heq]
    exact congrArg some hf.symm

theorem buffered_pieces {files : Nat → Option Bytes}
    (hfiles : ∀ i l : Nat, picked[i]? = some (some l) → ∃ f, files i = some f ∧ f.length = l) :
    Buffered files picked (pieces picked) (picked.map (Option.map (List.replicate · 0))) where
  length_eq := List.length_map _
  absent := fun i hi => by rw [List.getElem?_map, hi]; rfl
  present := fun i l hi => by
    obtain ⟨f, hf, hlen⟩ := hfiles i l hi
    refine ⟨f, List.replicate l 0, hf, hlen, ?_, List.length_replicate, fun t ht hout => ?_⟩
    · rw [List.getElem?_map, hi]
      rfl
    · exact absurd (mem_pieces.mpr ⟨i, l, t, hi, ht, rfl⟩) hout

variable {inFlight : List Request}

theorem Buffered.fetched {files : Nat → Option Bytes}
    (h : Buffered files picked inFlight buffers) (hi : picked[i]? = some (some l))
    (ht : t * fetchPiece < l) (hf : files i = some f) :
    Buffered files picked (inFlight.erase (piece i l t))
      (buffers.modify i (Option.map (overlay · (t * fetchPiece) (block fetchPiece f t)))) where
  length_eq := by rw [List.length_modify, h.length_eq]
  absent := fun j hj => by
    rw [List.getElem?_modify, h.absent j hj]
    split <;> rfl
  present := fun j l' hj => by
    obtain ⟨f', buf, hf', hflen, hbuf, hlen, hblocks⟩ := h.present j l' hj
    rw [List.getElem?_modify, hbuf]
    rcases eq_or_ne i j with rfl | hne
    · obtain rfl : l = l' := Option.some.inj (Option.some.inj (hi.symm.trans hj))
      obtain rfl : f = f' := Option.some.inj (hf.symm.trans hf')
      have hblen := length_block fetchPiece f t
      refine ⟨f, overlay buf (t * fetchPiece) (block fetchPiece f t), hf, hflen, ?_, ?_, ?_⟩
      · simp
      · rw [length_overlay (by omega), hlen]
      · intro t' ht' hout
        rw [block_overlay (hlen.trans hflen.symm) (hflen ▸ ht)]
        split
        next heq => rw [heq]
        next hne =>
          refine hblocks t' ht' (fun hin => hout ?_)
          exact (List.mem_erase_of_ne (fun heq => hne (piece_inj heq).2)).mpr hin
    · refine ⟨f', buf, hf', hflen, ?_, hlen, fun t' ht' hout => hblocks t' ht' (fun hin => hout ?_)⟩
      · simp [hne]
      · exact (List.mem_erase_of_ne (fun heq => hne (piece_inj heq).1.symm)).mpr hin

/-- What a re-encoding is about: the old shards on their disks, whether the nodes
tell the truth about them, and both layouts. -/
structure Job where
  files : Nat → Option Bytes
  truthful : Prop
  sliceSize : Nat
  k : Nat
  m : Nat
  newK : Nat
  newM : Nat
  newDID : VersionID

/-- What stays the same, and what the replies to `Verify` have said. -/
structure Base (j : Job) (lengths : List (Option Nat)) (w : World) : Prop where
  oldK_eq : w.op.oldK = j.k
  newK_eq : w.op.newK = j.newK
  newM_eq : w.op.newM = j.newM
  newDID_eq : w.op.newDID = j.newDID
  lengths_eq : w.op.lengths = lengths
  lengths_length : lengths.length = j.k + j.m
  lengths_true : j.truthful → ∀ i l : Nat, lengths[i]? = some (some l) →
    ∃ f, j.files i = some f ∧ f.length = l
  newFiles_length : w.newFiles.length = j.newK + j.newM

/-- The version and its old shards are as they were. -/
def Untouched (w : World) : Prop := w.switched = false ∧ w.deletedOld = []

/-- The operation is not over, and has deleted none of the new shards. -/
structure Pending (j : Job) (lengths : List (Option Nat)) (w : World) : Prop
    extends Base j lengths w where
  result : w.op.result = none
  untouched : Untouched w
  kept : w.deletedNew = []

def Request.stage : Request → Nat
  | .verify _ => 0
  | .fetch .. => 1
  | .write _ => 2
  | .propose => 3

theorem stage_of_mem_pieces (h : r ∈ pieces picked) : r.stage = 1 := by
  obtain ⟨i, l, t, -, -, rfl⟩ := mem_pieces.mp h
  rfl

section Stages

variable [Protowire] [ReedSolomon] (j : Job) (lengths : List (Option Nat))

/-- The new shards are the encoding of what `k` picked shards hold. -/
structure Encoded (w : World) : Prop where
  enough : j.k ≤ (chosen j.k lengths).countP Option.isSome
  encoded : j.truthful → encodeShards j.sliceSize j.newDID j.newK j.newM
    (fetchedShards j.files (chosen j.k lengths)) = .ok w.op.newShards

/-- Every new shard is durable that is not in flight. -/
def Durable (w : World) : Prop := ∀ i < j.newK + j.newM, .write i ∉ w.inFlight →
  w.newFiles[i]? = some w.op.newShards[i]?

inductive Stage (w : World) : Prop where
  | probing (hopen : Pending j lengths w)
      (hflight : ∀ r ∈ w.inFlight, r.stage = 0) (hpending : w.op.pending = w.inFlight.length)
  | fetching (hopen : Pending j lengths w)
      (hflight : ∀ r ∈ w.inFlight, r ∈ pieces (chosen j.k lengths))
      (hpending : w.op.pending = w.inFlight.length)
      (henough : j.k ≤ (chosen j.k lengths).countP Option.isSome)
      (hbuffers : j.truthful → w.op.failed = false →
        Buffered j.files (chosen j.k lengths) w.inFlight w.op.buffers)
  | writing (hopen : Pending j lengths w) (hencoded : Encoded j lengths w)
      (hflight : ∀ r ∈ w.inFlight, r.stage = 2) (hleft : w.op.writesLeft = w.inFlight.length)
      (hdurable : w.op.writeErr = false → Durable j w)
  | proposing (hopen : Pending j lengths w) (hencoded : Encoded j lengths w)
      (hflight : w.inFlight = [.propose]) (hdurable : Durable j w)
  | failed (e : ReEncodeError) (hresult : w.op.result = some (.error e))
      (huntouched : Untouched w) (hflight : w.inFlight = [])
  | succeeded (hbase : Base j lengths w) (hresult : w.op.result = some (.ok ()))
      (hswitched : w.switched = true) (hencoded : Encoded j lengths w)
      (hdurable : Durable j w) (hflight : w.inFlight = [])

variable {j lengths} {w : World} {op : ReEncodeOp}

omit [Protowire] [ReedSolomon] in
theorem finish_eq (h : op.result = none) (result : Except ReEncodeError Unit) :
    op.finish result = { op with result := some result } := by
  rw [ReEncodeOp.finish, h]

theorem stage_encode (hopen : Pending j lengths w) (hflight : w.inFlight = [])
    (henough : j.k ≤ (chosen j.k lengths).countP Option.isSome)
    (hbuffers : j.truthful → w.op.buffers = fetchedShards j.files (chosen j.k lengths)) :
    Stage j lengths (w.act (w.op.encode j.sliceSize).1 (w.op.encode j.sliceSize).2) := by
  obtain ⟨files, truthful, s, k, m, newK, newM, newDID⟩ := j
  obtain ⟨rfl, rfl, rfl⟩ := And.intro hopen.newK_eq (And.intro hopen.newM_eq hopen.newDID_eq)
  dsimp only at hbuffers ⊢
  rw [ReEncodeOp.encode]
  cases hencode : encodeShards s w.op.newDID w.op.newK w.op.newM w.op.buffers with
  | error e =>
    dsimp only
    rw [finish_eq hopen.result, World.act_nil]
    exact .failed e rfl hopen.untouched hflight
  | ok shards =>
    dsimp only
    rw [World.act_send, hflight, List.nil_append]
    refine .writing { hopen with } ⟨henough, fun htrue => hbuffers htrue ▸ hencode⟩
      (fun r hr => ?_) ?_ (fun _ i hi hout => ?_)
    · obtain ⟨i, -, rfl⟩ := List.mem_map.mp hr
      rfl
    · rw [List.length_map, List.length_range]
    · exact absurd (List.mem_map_of_mem (List.mem_range.mpr hi)) hout

theorem stage_fetch (hopen : Pending j lengths w) (hflight : w.inFlight = []) :
    Stage j lengths (w.act (w.op.fetch j.sliceSize).1 (w.op.fetch j.sliceSize).2) := by
  obtain ⟨files, truthful, s, k, m, newK, newM, newDID⟩ := j
  obtain ⟨rfl, rfl⟩ := And.intro hopen.oldK_eq hopen.lengths_eq
  have hbuffered (htrue : truthful) := buffered_pieces
    (fun i l hi => hopen.lengths_true htrue i l (of_getElem?_chosen (k := w.op.oldK) hi))
  unfold ReEncodeOp.fetch
  dsimp only at hbuffered ⊢
  split
  · rw [finish_eq hopen.result, World.act_nil]
    exact .failed _ rfl hopen.untouched hflight
  next hnot =>
  have henough := Nat.not_lt.mp hnot
  split
  next hempty =>
    rw [List.isEmpty_iff.mp hempty] at hbuffered
    exact stage_encode (w := { w with op := { w.op with
      buffers := (chosen w.op.oldK w.op.lengths).map (Option.map (List.replicate · 0)) } })
      { hopen with } hflight henough (fun htrue => (hbuffered htrue).eq_fetchedShards)
  next =>
    have hact := fun op => World.act_send w op (pieces (chosen w.op.oldK w.op.lengths)) id
    simp only [id_eq, List.map_id, hflight, List.nil_append] at hact
    dsimp only
    rw [hact]
    exact .fetching { hopen with } (fun r hr => hr) rfl henough (fun htrue _ => hbuffered htrue)

omit [Protowire] [ReedSolomon] in
theorem Pending.verified (hopen : Pending j lengths w) {l : Option Nat}
    (hl : j.truthful → l = none ∨ l = (j.files i).map List.length) {pending : Nat} :
    Pending j (lengths.set i l) { w with
      op := { w.op with lengths := w.op.lengths.set i l, pending := pending }
      inFlight := inFlight } where
  __ := hopen
  lengths_eq := by rw [hopen.lengths_eq]
  lengths_length := by rw [List.length_set, hopen.lengths_length]
  lengths_true := fun htrue j lj hj => by
    rw [List.getElem?_set] at hj
    split at hj
    next heq =>
      split at hj
      · obtain rfl | rfl := hl htrue
        · cases hj
        · obtain ⟨f, hf, hlen⟩ := Option.map_eq_some_iff.mp (Option.some.inj hj)
          exact ⟨f, heq ▸ hf, hlen⟩
      · cases hj
    next => exact hopen.lengths_true htrue j lj hj

theorem stage_verified (hstage : Stage j lengths w) {l : Option Nat}
    (hin : .verify i ∈ w.inFlight)
    (hl : j.truthful → l = none ∨ l = (j.files i).map List.length) :
    Stage j (lengths.set i l) (w.answer j.sliceSize (.verify i, .verified l)) := by
  cases hstage with
  | probing hopen hflight hpending =>
    simp only [World.answer, ReEncodeOp.onVerified]
    split
    next hlast =>
      rw [hpending] at hlast
      refine stage_fetch (hopen.verified hl) (List.length_eq_zero_iff.mp ?_)
      exact (List.length_erase_of_mem hin).trans hlast
    next =>
      rw [World.act_nil]
      refine .probing (hopen.verified hl) ?_ ?_
      · exact fun r hr => hflight r (List.mem_of_mem_erase hr)
      · dsimp only
        rw [List.length_erase_of_mem hin, hpending]
  | fetching _ hflight => cases stage_of_mem_pieces (hflight _ hin)
  | writing _ _ hflight => cases hflight _ hin
  | proposing _ _ hflight | failed _ _ _ hflight | succeeded _ _ _ _ _ hflight =>
    simp [hflight] at hin

omit [Protowire] [ReedSolomon] in
theorem filter_fetched :
    (some ((f.drop (t * fetchPiece)).take (min fetchPiece (f.length - t * fetchPiece)))).filter
      (·.length = min fetchPiece (f.length - t * fetchPiece)) = some (block fetchPiece f t) := by
  have hblock : (f.drop (t * fetchPiece)).take (min fetchPiece (f.length - t * fetchPiece)) =
      block fetchPiece f t := by
    rw [block, List.take_eq_take_iff, List.length_drop]
    omega
  rw [hblock]
  exact Option.filter_some_pos (decide_eq_true (length_block fetchPiece f t))

theorem stage_pieceDone (hopen : Pending j lengths w)
    (hflight : ∀ r ∈ w.inFlight, r ∈ pieces (chosen j.k lengths))
    (hpending : w.op.pending = w.inFlight.length)
    (henough : j.k ≤ (chosen j.k lengths).countP Option.isSome)
    (hbuffers : j.truthful → w.op.failed = false →
      Buffered j.files (chosen j.k lengths) w.inFlight w.op.buffers)
    {actions : List Action}
    (hop : (if w.op.pending = 0 then
      if w.op.failed then (w.op.finish (.error .fetchingShards), []) else w.op.encode j.sliceSize
      else (w.op, [])) = (op, actions)) : Stage j lengths (w.act op actions) := by
  split at hop
  next hlast =>
    have hnil : w.inFlight = [] := List.length_eq_zero_iff.mp (hpending ▸ hlast)
    split at hop
    next =>
      cases hop
      rw [finish_eq hopen.result, World.act_nil]
      exact .failed _ rfl hopen.untouched hnil
    next hfailed =>
      rw [hnil] at hbuffers
      have h := stage_encode hopen hnil henough
        (fun htrue => (hbuffers htrue (Bool.not_eq_true _ ▸ hfailed)).eq_fetchedShards)
      rwa [hop] at h
  next =>
    cases hop
    rw [World.act_nil]
    exact .fetching hopen hflight hpending henough hbuffers

theorem stage_fetched (hstage : Stage j lengths w) {length : Nat}
    {b : Option Bytes} (hin : .fetch i off length ∈ w.inFlight)
    (hb : j.truthful → b = none ∨ b = (j.files i).map (fun f => (f.drop off).take length)) :
    Stage j lengths (w.answer j.sliceSize (.fetch i off length, .fetched b)) := by
  cases hstage with
  | fetching hopen hflight hpending henough hbuffers =>
    obtain ⟨_, l, t, hi, ht, heq⟩ := mem_pieces.mp (hflight _ hin)
    obtain ⟨rfl, rfl, rfl⟩ := Request.fetch.inj heq
    have hin : piece i l t ∈ w.inFlight := hin
    have hlength : w.op.pending - 1 = (w.inFlight.erase (piece i l t)).length := by
      rw [List.length_erase_of_mem hin, hpending]
    have hflight' : ∀ r ∈ w.inFlight.erase (piece i l t), r ∈ pieces (chosen j.k lengths) :=
      fun r hr => hflight r (List.mem_of_mem_erase hr)
    rw [World.answer]
    dsimp only [ReEncodeOp.onFetched]
    cases hfilter : b.filter (·.length = min fetchPiece (l - t * fetchPiece)) with
    | none =>
      exact stage_pieceDone (w := { w with
          op := { w.op with failed := true, pending := w.op.pending - 1 }
          inFlight := w.inFlight.erase (piece i l t) })
        { hopen with } hflight' hlength henough (fun _ h => by cases h) rfl
    | some b' =>
      refine stage_pieceDone (w := { w with
          op := { w.op with
            buffers := w.op.buffers.modify i (Option.map (overlay · (t * fetchPiece) b'))
            pending := w.op.pending - 1 }
          inFlight := w.inFlight.erase (piece i l t) })
        { hopen with } hflight' hlength henough (fun htrue h => ?_) rfl
      obtain ⟨f, hf, rfl⟩ := hopen.lengths_true htrue i l (of_getElem?_chosen hi)
      obtain rfl : b' = block fetchPiece f t := by
        obtain rfl | rfl := hb htrue
        · cases hfilter
        · rw [hf, Option.map_some, filter_fetched] at hfilter
          exact (Option.some.inj hfilter).symm
      exact (hbuffers htrue h).fetched hi ht hf
  | probing _ hflight | writing _ _ hflight => cases hflight _ hin
  | proposing _ _ hflight | failed _ _ _ hflight | succeeded _ _ _ _ _ hflight =>
    simp [hflight] at hin

theorem stage_written (hstage : Stage j lengths w) {ok : Bool} (hin : .write i ∈ w.inFlight) :
    Stage j lengths (w.answer j.sliceSize (.write i, .written ok)) := by
  cases hstage with
  | writing hopen hencoded hflight hleft hdurable =>
    have hlength : w.op.writesLeft - 1 = (w.inFlight.erase (.write i)).length := by
      rw [List.length_erase_of_mem hin, hleft]
    have hset : (if ok then w.newFiles.set i w.op.newShards[i]? else w.newFiles).length =
        j.newK + j.newM := by
      rw [apply_ite List.length, List.length_set, ite_self, hopen.newFiles_length]
    have hdone : (w.op.writeErr || !ok) = false → ∀ i' < j.newK + j.newM,
        .write i' ∉ w.inFlight.erase (.write i) →
        (if ok then w.newFiles.set i w.op.newShards[i]? else w.newFiles)[i']? =
          some w.op.newShards[i']? := by
      intro hok i' hi' hout
      rw [Bool.or_eq_false_iff, Bool.not_eq_false'] at hok
      rw [if_pos hok.2, List.getElem?_set]
      split
      next heq => rw [if_pos (by rw [hopen.newFiles_length, heq]; exact hi'), heq]
      next hne =>
        refine hdurable hok.1 i' hi' (fun hin => hout ?_)
        exact (List.mem_erase_of_ne (fun heq => hne (Request.write.inj heq).symm)).mpr hin
    simp only [World.answer, ReEncodeOp.onWritten]
    generalize (if ok then w.newFiles.set i w.op.newShards[i]? else w.newFiles) = newFiles
      at hset hdone ⊢
    split
    next hlast =>
      have hnil := List.length_eq_zero_iff.mp (hlength.symm.trans hlast)
      split
      next =>
        dsimp only
        rw [finish_eq, ReEncodeOp.cleanupNew, World.act_deleteNew]
        · exact .failed _ rfl hopen.untouched hnil
        · exact hopen.result
      next hok =>
        have hact := fun w op => World.act_send w op [Request.propose] id
        simp only [List.map_cons, id_eq, List.map_nil] at hact
        rw [hact]
        refine .proposing { hopen with newFiles_length := hset } { hencoded with } ?_ ?_
        · dsimp only
          rw [hnil, List.nil_append]
        · refine fun i' hi' _ => hdone (Bool.not_eq_true _ ▸ hok) i' hi' ?_
          rw [hnil]
          exact List.not_mem_nil
    next =>
      rw [World.act_nil]
      refine .writing { hopen with newFiles_length := hset } { hencoded with } ?_ hlength hdone
      exact fun r hr => hflight r (List.mem_of_mem_erase hr)
  | probing _ hflight => cases hflight _ hin
  | fetching _ hflight => cases stage_of_mem_pieces (hflight _ hin)
  | proposing _ _ hflight | failed _ _ _ hflight | succeeded _ _ _ _ _ hflight =>
    simp [hflight] at hin

theorem Stage.of_propose (hstage : Stage j lengths w) (hin : .propose ∈ w.inFlight) :
    Pending j lengths w ∧ Encoded j lengths w ∧ w.inFlight = [.propose] ∧ Durable j w := by
  cases hstage with
  | proposing hopen hencoded hflight hdurable => exact ⟨hopen, hencoded, hflight, hdurable⟩
  | probing _ hflight | writing _ _ hflight => cases hflight _ hin
  | fetching _ hflight => cases stage_of_mem_pieces (hflight _ hin)
  | failed _ _ _ hflight | succeeded _ _ _ _ _ hflight => simp [hflight] at hin

theorem stage_proposed (hstage : Stage j lengths w) {ok : Bool} (hin : .propose ∈ w.inFlight) :
    Stage j lengths (w.answer j.sliceSize (.propose, .proposed ok ok)) := by
  obtain ⟨hopen, hencoded, hflight, hdurable⟩ := hstage.of_propose hin
  have hnil : w.inFlight.erase .propose = [] := by
    rw [hflight]
    rfl
  cases ok with
  | false =>
    simp only [World.answer, ReEncodeOp.onProposed, Bool.false_eq_true, if_false, Bool.or_false]
    rw [finish_eq hopen.result, ReEncodeOp.cleanupNew, World.act_deleteNew]
    exact .failed _ rfl hopen.untouched hnil
  | true =>
    simp only [World.answer, ReEncodeOp.onProposed, if_true, Bool.or_true]
    rw [finish_eq hopen.result, World.act_deleteOld]
    refine .succeeded { hopen with } rfl rfl { hencoded with }
      (fun i hi _ => hdurable i hi ?_) hnil
    simp [hflight]

omit [Protowire] [ReedSolomon] in
/-- The lengths that the replies to `Verify` have reported. -/
def verifyReplies (width : Nat) (es : List Event) : List (Option Nat) :=
  es.foldl (fun lengths e =>
    match e with
    | (.verify i, .verified l) => lengths.set i l
    | _ => lengths) (List.replicate width none)

variable {es : List Event}

theorem Stage.answer {width : Nat} (hstage : Stage j (verifyReplies width es) w) {e : Event}
    (hin : e.1 ∈ w.inFlight) (hpossible : Possible j.files e)
    (hknown : e ≠ (.propose, .proposed false true)) :
    Stage j (verifyReplies width (es ++ [e])) (w.answer j.sliceSize e) := by
  rw [verifyReplies, List.foldl_append]
  match e, hpossible with
  | (.verify i, .verified l), hl => exact stage_verified hstage hin (fun _ => hl)
  | (.fetch i off length, .fetched b), hb => exact stage_fetched hstage hin (fun _ => hb)
  | (.write i, .written ok), _ => exact stage_written hstage hin
  | (.propose, .proposed true committed), hcommitted =>
    obtain rfl : committed = true := hcommitted rfl
    exact stage_proposed hstage hin
  | (.propose, .proposed false false), _ => exact stage_proposed hstage hin
  | (.propose, .proposed false true), _ => exact absurd rfl hknown

theorem stage_start (j : Job) : Stage j (List.replicate (j.k + j.m) none)
    (World.start j.k j.m j.newK j.newM j.newDID) := by
  rw [World.start, ReEncodeOp.probe]
  dsimp only
  rw [World.act_send, List.nil_append]
  refine .probing ⟨⟨rfl, rfl, rfl, rfl, rfl, List.length_replicate, ?_, List.length_replicate⟩,
    rfl, ⟨rfl, rfl⟩, rfl⟩ ?_ ?_
  · intro _ i l hi
    have := List.eq_of_mem_replicate (List.mem_of_getElem? hi)
    cases this
  · intro r hr
    obtain ⟨i, -, rfl⟩ := List.mem_map.mp hr
    rfl
  · rw [List.length_map, List.length_range]

/-- Where the operation is after any run in which the outcome of the proposal is
known. -/
theorem stage_run
    (hrun : World.Run j.files j.sliceSize (.start j.k j.m j.newK j.newM j.newDID) es w)
    (hknown : (.propose, .proposed false true) ∉ es) :
    Stage j (verifyReplies (j.k + j.m) es) w := by
  induction hrun with
  | nil => exact stage_start j
  | snoc hrun hflight hpossible ih =>
    rw [List.mem_append, List.mem_singleton, not_or] at hknown
    exact (ih hknown.1).answer hflight hpossible (Ne.symm hknown.2)

end Stages

/-! ## Decoding and encoding -/

variable {shards : List Bytes}

section Recoding

variable [Protowire] [ReedSolomon]

def decode (shards : List (Option BytesReader)) : Option Bytes := do
  let r ← (Ec.newReader shards).toOption
  let (res, _) := r.readAt r.frameSize.toNat 0
  if res.err = none then some res.data else none

variable {k m s : Nat} {id : VersionID} {frame : Bytes}

theorem decode_eq [LawfulProtowire] [BoundedProtowire] (hlaw : 0 < m → Reconstructs k m)
    (hsizes : Ec.Sizes k m s frame) {shards : List (Option BytesReader)}
    (hset : Ec.ShardSet shards (Ec.codec k m) id k m s frame) : decode shards = some frame := by
  obtain ⟨r, hopen, hreading⟩ := Ec.newReader_eq hlaw hsizes hset
  have hsize : r.frameSize.toNat = frame.length := by
    rw [Ec.Reader.frameSize, hreading.geo]
    rfl
  obtain ⟨r', hread, -⟩ := Ec.serves_frame hsizes (Ec.codes_codec hsizes.params hlaw) r hreading
    frame.length 0
  have hread' : r.readAt frame.length 0 = (window frame frame.length 0, r') := hread
  simp [decode, hopen, Except.toOption, hsize, hread', window]

omit [Protowire] [ReedSolomon] in
theorem copyFrame_eq {I : Ec.Reader BytesReader → Prop} (hserves : Serves I frame)
    (hsize : ∀ r, I r → r.frameSize = frame.length) {turns : Nat} {r : Ec.Reader BytesReader}
    (hr : I r) (hturns : frame.length - off ≤ turns) {w w' : Ec.Writer}
    (hcopy : copyFrame turns r off w = .ok w') :
    ∃ pieces : List Bytes, pieces.foldlM Ec.Writer.write w = .ok w' ∧
      pieces.flatten = frame.drop off := by
  induction turns generalizing off r w with
  | zero =>
    rw [copyFrame, hsize r hr, if_pos (by omega)] at hcopy
    cases hcopy
    exact ⟨[], rfl, (List.drop_of_length_le (by omega)).symm⟩
  | succ turns ih =>
    rw [copyFrame, hsize r hr] at hcopy
    rcases Nat.lt_or_ge off frame.length with hlt | hge
    · rw [if_neg (by omega), Int.toNat_natCast] at hcopy
      obtain ⟨n, hn⟩ : ∃ n, n = min copyBuffer (frame.length - off) := ⟨_, rfl⟩
      have hpos : 0 < n := by
        have : 0 < copyBuffer := by decide
        omega
      have hdrop : (frame.drop off).length = frame.length - off := List.length_drop
      have hlen : ((frame.drop off).take n).length = n := by
        rw [List.length_take]
        omega
      have hne : ((frame.drop off).take n).isEmpty = false := by
        rw [List.isEmpty_eq_false_iff, ← List.length_pos_iff]
        omega
      obtain ⟨r', hread, hr'⟩ := hserves r hr n off
      have hread' : r.readAt n off = (window frame n off, r') := hread
      rw [← hn, hread'] at hcopy
      simp only [window, hne, Bool.false_eq_true, if_false,
        if_neg (by omega : ¬ (frame.drop off).length < n), hlen] at hcopy
      cases hwrite : w.write ((frame.drop off).take n) with
      | error e =>
        rw [hwrite] at hcopy
        cases hcopy
      | ok w₁ =>
        rw [hwrite] at hcopy
        obtain ⟨pieces, hpieces, hflat⟩ := ih hr' (by omega) hcopy
        refine ⟨(frame.drop off).take n :: pieces, ?_, ?_⟩
        · rw [List.foldlM_cons, hwrite]
          exact hpieces
        · rw [List.flatten_cons, hflat, ← List.drop_drop, List.take_append_drop]
    · rw [if_pos (by omega)] at hcopy
      cases hcopy
      exact ⟨[], rfl, (List.drop_of_length_le hge).symm⟩

theorem encodeShards_eq [LawfulProtowire] [BoundedProtowire] (hlaw : 0 < m → Reconstructs k m)
    (hsizes : Ec.Sizes k m s frame)
    (hset : Ec.ShardSet (buffers.map (Option.map BytesReader.mk)) (Ec.codec k m) id k m s frame)
    {newK newM s' : Nat} {newDID : VersionID} (hlaw' : 0 < newM → Reconstructs newK newM)
    (hk : newK < 2 ^ 63) (hm : newM < 2 ^ 63) (hs : 0 < s') (hslice : s' < 2 ^ 55)
    (hencode : encodeShards s' newDID newK newM buffers = .ok shards) :
    Ec.Sizes newK newM s' frame ∧ shards =
      (List.range (newK + newM)).map
        (Ec.shardFile (Ec.codec newK newM) newDID newK newM s' frame) := by
  obtain ⟨r, hopen, hreading⟩ := Ec.newReader_eq hlaw hsizes hset
  have hserves : Serves (fun r : Ec.Reader BytesReader =>
      Ec.Reading r (Ec.codec k m) id k m s frame) frame :=
    Ec.serves_frame hsizes (Ec.codes_codec hsizes.params hlaw)
  have hsize : ∀ r : Ec.Reader BytesReader, Ec.Reading r (Ec.codec k m) id k m s frame →
      r.frameSize = frame.length := fun r hr => by
    rw [Ec.Reader.frameSize, hr.geo]
    rfl
  simp only [encodeShards, hopen, hsize r hreading, Int.toNat_natCast] at hencode
  split at hencode
  next => cases hencode
  next w₀ hnew =>
  split at hencode
  next => cases hencode
  next w₁ hcopy =>
  split at hencode
  next => cases hencode
  next w₂ hclose =>
  cases hencode
  obtain ⟨pieces, hwrites, hflat⟩ :=
    copyFrame_eq hserves hsize hreading (Nat.sub_le frame.length 0) hcopy
  have hparams := (Ec.newWriter_eq_ok hlaw' hk hm hnew).1
  have hstripe : newK * s' < 2 ^ 63 := by
    have hle := hparams.le
    exact Nat.lt_of_le_of_lt (Nat.mul_le_mul_right s' (by omega : newK ≤ 256)) (by omega)
  obtain ⟨-, -, -, hshards⟩ := Ec.writes_close_eq hlaw' hk hm hs hstripe hnew hwrites hclose
  rw [hflat, List.drop_zero] at hshards
  exact ⟨⟨hparams, hs, hstripe, hsizes.frame_pos, hsizes.frame_lt⟩, hshards⟩

end Recoding

/-! ## Safety -/

section Safety

variable [Protowire] [ReedSolomon]

/-- A version whose shards were written once: what its metadata says, and the
frame. -/
structure StoredVersion where
  dataID : VersionID
  k : Nat
  m : Nat
  sliceSize : Nat
  frame : Bytes
  sizes : Ec.Sizes k m sliceSize frame
  lawful : 0 < m → Reconstructs k m

namespace StoredVersion

def shard (v : StoredVersion) : Nat → Bytes :=
  Ec.shardFile (Ec.codec v.k v.m) v.dataID v.k v.m v.sliceSize v.frame

def checksum (v : StoredVersion) (i : Nat) : Bytes := sha256 (v.shard i)

def Intact (v : StoredVersion) (files : Nat → Option Bytes) (i : Nat) : Prop :=
  (files i).map sha256 = some (v.checksum i)
deriving Decidable

end StoredVersion

def selectNew (w : World) (present : Nat → Bool) : List (Option BytesReader) :=
  w.newFiles.mapIdx (fun i f => if present i then f.map .mk else none)

/-- A re-encoding that reports success has switched the version to new shards of
which any `newK` decode to the frame.  Until then, and when it reports an error,
the version and its old shards are as they were. -/
structure Safe (v : StoredVersion) (newK newM : Nat) (w : World) : Prop where
  succeeded : w.op.result = some (.ok ()) → w.switched = true ∧
    ∀ present : Nat → Bool, newK ≤ (List.range (newK + newM)).countP present →
      decode (selectNew w present) = some v.frame
  otherwise : w.op.result ≠ some (.ok ()) → w.switched = false ∧ w.deletedOld = []

variable {v : StoredVersion} {files : Nat → Option Bytes} {s newK newM : Nat}
  {newDID : VersionID} {w : World}

omit [Protowire] [ReedSolomon] in
theorem countP_mapIdx_map {α β : Type} (g : Nat → α → β) (l : List (Option α)) :
    (l.mapIdx (fun i => Option.map (g i))).countP Option.isSome = l.countP Option.isSome := by
  induction l generalizing g with
  | nil => rfl
  | cons o l ih =>
    rw [List.mapIdx_cons, List.countP_cons, List.countP_cons, ih (fun i => g (i + 1)),
      Option.isSome_map]

theorem shardSet_fetchedShards (hlen : picked.length = v.k + v.m)
    (henough : v.k ≤ picked.countP Option.isSome)
    (hnoCollision : ∀ i b, files i = some b → sha256 b = v.checksum i → b = v.shard i)
    (hshards : ∀ i < v.k + v.m, (v.shard i).length < 2 ^ 63)
    (hintact : ∀ i l : Nat, picked[i]? = some (some l) → v.Intact files i) :
    Ec.ShardSet ((fetchedShards files picked).map (Option.map BytesReader.mk))
      (Ec.codec v.k v.m) v.dataID v.k v.m v.sliceSize v.frame := by
  have hfile : ∀ i l : Nat, picked[i]? = some (some l) → files i = some (v.shard i) := by
    intro i l hi
    obtain ⟨b, hb, hsum⟩ := Option.map_eq_some_iff.mp (hintact i l hi)
    rw [hb, hnoCollision i b hb hsum]
  have hfetched : (fetchedShards files picked).map (Option.map BytesReader.mk) =
      picked.mapIdx (fun i => Option.map (fun _ => ⟨v.shard i⟩)) := by
    refine List.ext_getElem? (fun i => ?_)
    rw [fetchedShards, List.getElem?_map, List.getElem?_mapIdx, List.getElem?_mapIdx]
    match hi : picked[i]? with
    | none | some none => rfl
    | some (some l) => simp [hfile i l hi]
  have hget : ∀ (j : Nat) (r : BytesReader),
      (picked.mapIdx (fun i => Option.map (fun _ => (⟨v.shard i⟩ : BytesReader))))[j]? =
        some (some r) → j < v.k + v.m ∧ r = ⟨v.shard j⟩ := by
    intro j r hr
    rw [List.getElem?_mapIdx] at hr
    obtain ⟨l, hl, hr⟩ := Option.map_eq_some_iff.mp hr
    obtain ⟨_, -, hr⟩ := Option.map_eq_some_iff.mp hr
    exact ⟨hlen ▸ (List.getElem?_eq_some_iff.mp hl).1, hr.symm⟩
  rw [hfetched]
  exact {
    length_eq := by rw [List.length_mapIdx, hlen]
    holds := fun j r hr => by
      rw [(hget j r hr).2]
      exact bytesReader_holds _
    file_lt := fun j r hr => hshards j (hget j r hr).1
    enough := by rw [countP_mapIdx_map]; exact henough }

omit [Protowire] [ReedSolomon] in
theorem selectNew_eq (hlen : w.newFiles.length = shards.length)
    (hdurable : ∀ i < shards.length, w.newFiles[i]? = some shards[i]?) {present : Nat → Bool} :
    selectNew w present = keep present shards := by
  refine List.ext_getElem? (fun i => ?_)
  rw [selectNew, keep, List.getElem?_mapIdx, List.getElem?_mapIdx]
  rcases Nat.lt_or_ge i shards.length with hi | hi
  · rw [hdurable i hi, List.getElem?_eq_getElem hi]
    rfl
  · rw [List.getElem?_eq_none hi, List.getElem?_eq_none (hlen ▸ hi)]
    rfl

/-- A re-encoding is safe if the shards that it picks match their checksums and
the outcome of its proposal is known. -/
theorem safe_of_intact [LawfulProtowire] [BoundedProtowire]
    (hlaw : 0 < newM → Reconstructs newK newM) (hk : newK < 2 ^ 63) (hm : newM < 2 ^ 63)
    (hs : 0 < s) (hslice : s < 2 ^ 55)
    (hnoCollision : ∀ i b, files i = some b → sha256 b = v.checksum i → b = v.shard i)
    (hshards : ∀ i < v.k + v.m, (v.shard i).length < 2 ^ 63)
    (hnewShards : ∀ i < newK + newM,
      (Ec.shardFile (Ec.codec newK newM) newDID newK newM s v.frame i).length < 2 ^ 63)
    {es : List Event} (hrun : World.Run files s (.start v.k v.m newK newM newDID) es w)
    (hintact : ∀ i l : Nat, (chosen v.k (verifyReplies (v.k + v.m) es))[i]? = some (some l) →
      v.Intact files i)
    (hknown : (.propose, .proposed false true) ∉ es) : Safe v newK newM w := by
  cases stage_run (j := ⟨files, True, s, v.k, v.m, newK, newM, newDID⟩) hrun hknown with
  | probing hopen | fetching hopen | writing hopen | proposing hopen =>
    exact ⟨fun hok => (by cases hopen.result.symm.trans hok), fun _ => hopen.untouched⟩
  | failed e hresult huntouched =>
    exact ⟨fun hok => (by cases hresult.symm.trans hok), fun _ => huntouched⟩
  | succeeded hbase hresult hswitched hencoded hdurable hflight =>
    have hset := shardSet_fetchedShards (by rw [length_chosen, hbase.lengths_length])
      hencoded.enough hnoCollision hshards hintact
    obtain ⟨hsizes, hnew⟩ := encodeShards_eq v.lawful v.sizes hset hlaw hk hm hs hslice
      (hencoded.encoded trivial)
    refine ⟨fun _ => ⟨hswitched, fun present hpresent => ?_⟩, fun h => absurd hresult h⟩
    have hlen : w.op.newShards.length = newK + newM := by
      rw [hnew, List.length_map, List.length_range]
    rw [selectNew_eq (hbase.newFiles_length.trans hlen.symm) (fun i hi => hdurable i (hlen ▸ hi)
      (by rw [hflight]; exact List.not_mem_nil))]
    refine decode_eq hlaw hsizes (shardSet_keep hnew ?_ hpresent)
    rw [hnew]
    intro b hb
    obtain ⟨i, hi, rfl⟩ := List.mem_map.mp hb
    exact hnewShards i (List.mem_range.mp hi)

end Safety

section Concrete

local instance : Protowire := wireFormat

local instance : LawfulProtowire := wireFormat_lawful

local instance : BoundedProtowire := wireFormat_bounded

/-- The library for one data shard. -/
local instance : ReedSolomon := ⟨fun k m => if k = 1 then some (replication m) else none⟩

/-- A stand-in for AES-GCM: the object below has no key, and nothing is sealed. -/
local instance unsealed : Stream.Gcm := ⟨fun _ _ p => p, fun _ _ b => some b⟩

def mirrored : StoredVersion where
  dataID := VersionID.ofByte 1
  k := 1
  m := 1
  sliceSize := Ec.defaultSliceSize
  frame := Stream.frame none Stream.defaultChunkSize [1, 2, 3]
  sizes := ⟨⟨by decide, by decide, by decide⟩, by decide, by decide, by decide, by decide⟩
  lawful := fun _ => ⟨replication 1, rfl, replication_lawful 1⟩

/-- The last byte of the object has rotted in shard 0; shard 1 is as it was
written. -/
def rotted : Nat → Option Bytes
  | 0 => some ((mirrored.shard 0).set 52 4)
  | 1 => some (mirrored.shard 1)
  | _ => none

def shardLength : Nat := (mirrored.shard 0).length

/-- The replies up to the write of the one new shard, when shard `i` is picked. -/
def repliesFrom (i : Nat) (first : Option Nat) : List Event :=
  [(.verify 0, .verified first), (.verify 1, .verified (some shardLength)),
    (piece i shardLength 0, .fetched (rotted i)), (.write 0, .written true),
    (.propose, .proposed true true)]

def worldAfter (es : List Event) : World :=
  es.foldl (World.answer Ec.defaultSliceSize) (.start 1 1 1 0 (VersionID.ofByte 2))

/-- Both shards answer and the rotted one is picked: its bytes become the new
object, although the copy is intact. -/
theorem launders_rotted :
    let es := repliesFrom 0 (some shardLength)
    World.Run rotted Ec.defaultSliceSize (.start 1 1 1 0 (VersionID.ofByte 2)) es (worldAfter es) ∧
      mirrored.Intact rotted 1 ∧
      (worldAfter es).op.result = some (.ok ()) ∧ (worldAfter es).deletedOld = [0, 1] ∧
      decode (selectNew (worldAfter es) (fun _ => true)) = some (mirrored.frame.set 12 4) ∧
      ¬ Safe mirrored 1 0 (worldAfter es) := by
  have hresult : (worldAfter (repliesFrom 0 (some shardLength))).op.result = some (.ok ()) := by
    decide +kernel
  have hdecode : decode (selectNew (worldAfter (repliesFrom 0 (some shardLength)))
      (fun _ => true)) = some (mirrored.frame.set 12 4) := by decide +kernel
  refine ⟨World.Run.nil.append (by decide +kernel), by decide +kernel, hresult, by decide +kernel,
    hdecode, fun hsafe => ?_⟩
  have h := (hsafe.succeeded hresult).2 (fun _ => true) (by decide)
  rw [hdecode] at h
  exact absurd h (by decide +kernel)

theorem noCollision_rotted (i : Nat) (b : Bytes) (hb : rotted i = some b)
    (hsum : sha256 b = mirrored.checksum i) : b = mirrored.shard i := by
  obtain _ | _ | i := i
  · have hrot : ¬ mirrored.Intact rotted 0 := by decide +kernel
    rw [StoredVersion.Intact, hb] at hrot
    exact absurd (congrArg some hsum) hrot
  · exact (Option.some.inj hb).symm
  · exact absurd hb (by simp [rotted])

/-- The rotted shard does not answer and the copy is picked. -/
theorem safe_from_copy :
    let es := repliesFrom 1 none
    World.Run rotted Ec.defaultSliceSize (.start 1 1 1 0 (VersionID.ofByte 2)) es (worldAfter es) ∧
      (worldAfter es).op.result = some (.ok ()) ∧ Safe mirrored 1 0 (worldAfter es) := by
  have hrun : World.Run rotted Ec.defaultSliceSize (.start 1 1 1 0 (VersionID.ofByte 2))
      (repliesFrom 1 none) (worldAfter (repliesFrom 1 none)) :=
    World.Run.nil.append (by decide +kernel)
  have hpicked : ∀ i l : Nat, (chosen 1 (verifyReplies 2 (repliesFrom 1 none)))[i]? =
      some (some l) →
      mirrored.Intact rotted i := by
    rw [show chosen 1 (verifyReplies 2 (repliesFrom 1 none)) = [none, some shardLength] by
      decide +kernel]
    intro i l hi
    match i with
    | 0 => cases hi
    | 1 => decide +kernel
    | i + 2 => cases hi
  have hsafe : Safe mirrored 1 0 (worldAfter (repliesFrom 1 none)) :=
    safe_of_intact (fun h => absurd h (by decide)) (by decide) (by decide) (by decide) (by decide)
      noCollision_rotted (by decide +kernel) (by decide +kernel) hrun hpicked (by decide +kernel)
  exact ⟨hrun, by decide +kernel, hsafe⟩

end Concrete

end Hamster.Coord
