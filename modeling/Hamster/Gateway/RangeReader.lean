import Hamster.CodeLib.ReaderAt

/-!
# The windowed reader of an object

`rangeReader` (`gateway/object.go`) serves the body of a GET: it fetches the object
window by window from the data path, as `http.ServeContent` seeks and reads.

`Plays` says what a `bytes.Reader` over the content may answer to the same calls,
where a read may be cut short and a fetch may fail.  `rangeReader_plays` is the
result: every sequence of calls is answered so.
-/

namespace Hamster.Gateway

open CodeLib

inductive SeekError where
  | invalidWhence
  | negativePosition
deriving DecidableEq

/-- What `Read` and `Seek` return.  `data p` is `len(p)` and no error. -/
inductive ReadSeekResult (ε : Type) where
  | data (p : Bytes)
  | eof
  | failed (e : ε)
  | position (abs : Int)
  | refused (e : SeekError)
deriving DecidableEq

/-- The bytes of an offset and a length, from the data path. -/
abbrev Fetch (ε : Type) := Int → Int → Except ε Bytes

/-- A call; `fetch` is what the data path answers during it, `n` the length of the
buffer. -/
inductive ReadSeekCall (ε : Type) where
  | read (fetch : Fetch ε) (n : Nat)
  | seek (offset : Int64) (whence : Int)

structure RangeReader where
  size : Int
  pos : Int := 0
  /-- The buffered window. -/
  buf : Bytes := []
  /-- The offset of the window in the object. -/
  bufOff : Int := 0

def rangeWindow : Int := 4194304

namespace RangeReader

variable {ε : Type}

/-- The part of `Read` that fetches a window, if `pos` is outside the one it has. -/
def load (r : RangeReader) (fetch : Fetch ε) : Except ε RangeReader :=
  if r.pos < r.bufOff ∨ r.pos ≥ wrap64 (r.bufOff + r.buf.length) then
    let n := if wrap64 (r.pos + rangeWindow) > r.size then wrap64 (r.size - r.pos) else rangeWindow
    match fetch r.pos n with
    | .error e => .error e
    | .ok b => .ok { r with buf := b, bufOff := r.pos }
  else .ok r

def read (r : RangeReader) (fetch : Fetch ε) (n : Nat) : Option (ReadSeekResult ε × RangeReader) :=
  if r.pos ≥ r.size then some (.eof, r)
  else
    match r.load fetch with
    | .error e => some (.failed e, r)
    | .ok r =>
      let start := wrap64 (r.pos - r.bufOff)
      if start < 0 ∨ (r.buf.length : Int) < start then none
      else
        let p := (r.buf.drop start.toNat).take n
        some (.data p, { r with pos := wrap64 (r.pos + p.length) })

def seek (r : RangeReader) (offset : Int64) (whence : Int) : ReadSeekResult ε × RangeReader :=
  if whence = 0 then moveTo offset.toInt
  else if whence = 1 then moveTo (wrap64 (r.pos + offset.toInt))
  else if whence = 2 then moveTo (wrap64 (r.size + offset.toInt))
  else (.refused .invalidWhence, r)
where
  moveTo (abs : Int) : ReadSeekResult ε × RangeReader :=
    if abs < 0 then (.refused .negativePosition, r) else (.position abs, { r with pos := abs })

def call (r : RangeReader) : ReadSeekCall ε → Option (ReadSeekResult ε × RangeReader)
  | .read fetch n => r.read fetch n
  | .seek offset whence => some (r.seek offset whence)

/-- What the calls return, with the position after each. -/
def run (r : RangeReader) : List (ReadSeekCall ε) → Option (List (ReadSeekResult ε × Int))
  | [] => some []
  | c :: cs => do
    let (res, r') ← r.call c
    let out ← r'.run cs
    some ((res, r'.pos) :: out)

end RangeReader

/-! ## The reader over the content -/

section Plain

variable {ε : Type}

def plainRead (content : Bytes) (pos : Int) (n : Nat) : ReadSeekResult ε × Int :=
  if pos ≥ content.length then (.eof, pos)
  else (.data ((content.drop pos.toNat).take n), pos + ((content.drop pos.toNat).take n).length)

/-- What a seek counts from: the start, the position, or the end. -/
def seekOrigin (content : Bytes) (pos : Int) : Int → Option Int
  | 0 => some 0
  | 1 => some pos
  | 2 => some content.length
  | _ => none

/-- A seek of a reader at `pos`: to any position that an `int64` can name. -/
def plainSeek (content : Bytes) (pos : Int) (offset : Int64) (whence : Int) :
    ReadSeekResult ε × Int :=
  match seekOrigin content pos whence with
  | none => (.refused .invalidWhence, pos)
  | some origin =>
    let target := origin + offset.toInt
    if 0 ≤ target ∧ target < 2 ^ 63 then (.position target, target)
    else (.refused .negativePosition, pos)

/-- One call is answered as by the reader over the content at `pos`.  A read may be
that of a smaller buffer, and fails where the fetch does. -/
inductive Agrees (content : Bytes) (pos : Int) :
    ReadSeekCall ε → ReadSeekResult ε × Int → Prop where
  | seek (offset : Int64) (whence : Int) :
      Agrees content pos (.seek offset whence) (plainSeek content pos offset whence)
  | read {fetch : Fetch ε} {n : Nat} (n' : Nat) (hle : n' ≤ n) (hsome : 0 < n → 0 < n') :
      Agrees content pos (.read fetch n) (plainRead content pos n')
  | failed {fetch : Fetch ε} {n : Nat} {e : ε} (length : Int) (hremain : pos < content.length)
      (hfetch : fetch pos length = .error e) : Agrees content pos (.read fetch n) (.failed e, pos)

inductive Plays (content : Bytes) :
    Int → List (ReadSeekCall ε) → List (ReadSeekResult ε × Int) → Prop where
  | nil {pos : Int} : Plays content pos [] []
  | cons {pos : Int} {c : ReadSeekCall ε} {cs : List (ReadSeekCall ε)}
      {res : ReadSeekResult ε × Int} {out : List (ReadSeekResult ε × Int)}
      (hcall : Agrees content pos c res) (hrest : Plays content res.2 cs out) :
      Plays content pos (c :: cs) (res :: out)

/-- The data path returns exactly the bytes that it was asked for, or an error. -/
def ReadSeekCall.Exact (content : Bytes) : ReadSeekCall ε → Prop
  | .read fetch _ => ∀ (off length : Int) (b : Bytes), fetch off length = .ok b →
      ∃ o l : Nat, off = o ∧ length = l ∧ o + l ≤ content.length ∧ b = (content.drop o).take l
  | .seek _ _ => True

end Plain

/-! ## Simulation -/

/-- A reader between two calls: its window is a part of the content. -/
structure RangeReader.Sound (content : Bytes) (r : RangeReader) : Prop where
  size : r.size = content.length
  pos_nonneg : 0 ≤ r.pos
  pos_lt : r.pos < 2 ^ 63
  window : ∃ off : Nat, r.bufOff = off ∧ off + r.buf.length ≤ content.length ∧
    r.buf = (content.drop off).take r.buf.length

section Simulation

variable {ε : Type} {content : Bytes} {r : RangeReader} {fetch : Fetch ε} {n : Nat}

theorem RangeReader.Sound.moveTo (h : r.Sound content) {origin : Int} (horigin : 0 ≤ origin)
    (hlt : origin < 2 ^ 63) (offset : Int64) :
    ∃ res r', seek.moveTo (ε := ε) r (wrap64 (origin + offset.toInt)) = (res, r') ∧
      r'.Sound content ∧ (res, r'.pos) =
        if 0 ≤ origin + offset.toInt ∧ origin + offset.toInt < 2 ^ 63 then
          (.position (origin + offset.toInt), origin + offset.toInt)
        else (.refused .negativePosition, r.pos) := by
  have hoffset := offset.toInt_lt
  have hoffset' := offset.le_toInt
  unfold RangeReader.seek.moveTo
  by_cases hin : 0 ≤ origin + offset.toInt ∧ origin + offset.toInt < 2 ^ 63
  · rw [wrap64_of_mem (by omega) hin.2, if_neg (by omega), if_pos hin]
    exact ⟨_, _, rfl, ⟨h.size, hin.1, hin.2, h.window⟩, rfl⟩
  · have hneg : wrap64 (origin + offset.toInt) < 0 := by
      unfold wrap64
      omega
    rw [if_pos hneg, if_neg hin]
    exact ⟨_, _, rfl, h, rfl⟩

section

variable (h : r.Sound content) (hsize : content.length < 2 ^ 63)

include h hsize

theorem RangeReader.Sound.load (hremain : r.pos < content.length)
    (hexact : (ReadSeekCall.read fetch n).Exact content) :
    (∃ length e, r.load fetch = .error e ∧ fetch r.pos length = .error e) ∨
      ∃ r', r.load fetch = .ok r' ∧ r'.Sound content ∧ r'.pos = r.pos ∧ r'.bufOff ≤ r.pos ∧
        r.pos < r'.bufOff + r'.buf.length := by
  obtain ⟨off, hoff, hend, hbuf⟩ := h.window
  have hsz := h.size
  have hpos := h.pos_nonneg
  have hwrap : wrap64 (r.bufOff + r.buf.length) = r.bufOff + r.buf.length :=
    wrap64_of_mem (by omega) (by omega)
  unfold RangeReader.load
  rw [hwrap]
  split
  next =>
    -- At least one byte is asked for.
    obtain ⟨length, hlength⟩ : ∃ length, length = if wrap64 (r.pos + rangeWindow) > r.size then
        wrap64 (r.size - r.pos) else rangeWindow := ⟨_, rfl⟩
    have hsome : 0 < length := by
      rw [hlength, wrap64_of_mem (x := r.size - r.pos) (by omega) (by omega)]
      split
      · omega
      · decide
    dsimp only
    rw [← hlength]
    cases hfetch : fetch r.pos length with
    | error e => exact Or.inl ⟨length, e, rfl, hfetch⟩
    | ok b =>
      obtain ⟨o, l, ho, hl, hle, rfl⟩ := hexact _ _ _ hfetch
      have hlen : ((content.drop o).take l).length = l := by
        rw [List.length_take, List.length_drop]
        omega
      refine Or.inr ⟨_, rfl, ⟨hsz, hpos, h.pos_lt, o, ho, ?_, ?_⟩, rfl, le_refl _, ?_⟩
      · dsimp only
        omega
      · dsimp only
        rw [hlen]
      · dsimp only
        omega
  next hinside =>
    rw [not_or, Int.not_lt, ge_iff_le, Int.not_le] at hinside
    exact Or.inr ⟨r, rfl, h, rfl, hinside⟩

theorem RangeReader.Sound.read (hexact : (ReadSeekCall.read fetch n).Exact content) :
    ∃ res r', r.read fetch n = some (res, r') ∧ r'.Sound content ∧
      Agrees content r.pos (.read fetch n) (res, r'.pos) := by
  unfold RangeReader.read
  rw [h.size]
  split
  next hend =>
    have hplain : plainRead (ε := ε) content r.pos n = (.eof, r.pos) := if_pos hend
    exact ⟨_, _, rfl, h, hplain ▸ Agrees.read n (le_refl n) id⟩
  next hremain =>
  have hremain := Int.not_le.mp hremain
  rcases h.load hsize hremain hexact with ⟨length, e, hload, hfetch⟩ |
    ⟨r', hload, h', hpos', hlow, hhigh⟩
  · rw [hload]
    exact ⟨_, _, rfl, h, .failed length hremain hfetch⟩
  rw [hload]
  obtain ⟨off, hoff, hend, hbuf⟩ := h'.window
  have hpos := h.pos_nonneg
  obtain ⟨start, hstart⟩ : ∃ start : Nat, r'.pos - r'.bufOff = start :=
    Int.eq_ofNat_of_zero_le (by omega)
  dsimp only
  rw [hstart, wrap64_natCast (by omega), if_neg (by omega), Int.toNat_natCast]
  -- The bytes are those of a read of what is left of the window.
  have hdata : (r'.buf.drop start).take n =
      (content.drop r.pos.toNat).take (min n (r'.buf.length - start)) := by
    rw [hbuf, List.drop_take, List.drop_drop, List.take_take, ← hbuf,
      show off + start = r.pos.toNat by omega]
  have hplain : plainRead (ε := ε) content r.pos (min n (r'.buf.length - start)) =
      (.data ((r'.buf.drop start).take n), r.pos + ((r'.buf.drop start).take n).length) := by
    rw [plainRead, if_neg (by omega), hdata]
  have hlen : ((r'.buf.drop start).take n).length ≤ r'.buf.length - start := by
    rw [List.length_take, List.length_drop]
    omega
  have hnext : wrap64 (r'.pos + ((r'.buf.drop start).take n).length) =
      r.pos + ((r'.buf.drop start).take n).length := by
    rw [hpos']
    exact wrap64_of_mem (by omega) (by omega)
  rw [hnext]
  refine ⟨_, _, rfl, ⟨h'.size, by dsimp only; omega, by dsimp only; omega, h'.window⟩, ?_⟩
  rw [← hplain]
  exact .read _ (Nat.min_le_left _ _) (fun hn => by omega)

theorem RangeReader.Sound.call {c : ReadSeekCall ε} (hexact : c.Exact content) :
    ∃ res r', r.call c = some (res, r') ∧ r'.Sound content ∧
      Agrees content r.pos c (res, r'.pos) := by
  cases c with
  | read fetch n => exact h.read hsize hexact
  | seek offset whence =>
    have hplain := @Agrees.seek ε content r.pos offset whence
    have hcase : ∀ origin, 0 ≤ origin → origin < 2 ^ 63 →
        seekOrigin content r.pos whence = some origin →
        r.seek (ε := ε) offset whence = RangeReader.seek.moveTo r (wrap64 (origin + offset.toInt)) →
        ∃ res r', r.call (.seek offset whence) = some (res, r') ∧ r'.Sound content ∧
          Agrees content r.pos (.seek offset whence : ReadSeekCall ε) (res, r'.pos) := by
      intro origin hnonneg hlt horigin hseek
      obtain ⟨res, r', hmove, h', hres⟩ := h.moveTo (ε := ε) hnonneg hlt offset
      refine ⟨res, r', ?_, h', ?_⟩
      · rw [RangeReader.call, hseek, hmove]
      · rw [plainSeek, horigin] at hplain
        rw [hres]
        exact hplain
    by_cases h₀ : whence = 0
    · refine hcase 0 (le_refl 0) (by decide) (by rw [h₀]; rfl) ?_
      rw [RangeReader.seek, if_pos h₀, Int.zero_add,
        wrap64_of_mem offset.le_toInt offset.toInt_lt]
    by_cases h₁ : whence = 1
    · refine hcase r.pos h.pos_nonneg h.pos_lt (by rw [h₁]; rfl) ?_
      rw [RangeReader.seek, if_neg h₀, if_pos h₁]
    by_cases h₂ : whence = 2
    · refine hcase content.length (by omega) (by omega) (by rw [h₂]; rfl) ?_
      rw [RangeReader.seek, if_neg h₀, if_neg h₁, if_pos h₂, h.size]
    refine ⟨.refused .invalidWhence, r, ?_, h, ?_⟩
    · rw [RangeReader.call, RangeReader.seek, if_neg h₀, if_neg h₁, if_neg h₂]
    · have hnone : seekOrigin content r.pos whence = none := by
        unfold seekOrigin
        split
        · exact absurd rfl h₀
        · exact absurd rfl h₁
        · exact absurd rfl h₂
        · rfl
      rw [plainSeek, hnone] at hplain
      exact hplain

end

theorem RangeReader.Sound.run (h : r.Sound content) (hsize : content.length < 2 ^ 63)
    {calls : List (ReadSeekCall ε)} (hexact : ∀ c ∈ calls, c.Exact content) :
    ∃ out, r.run calls = some out ∧ Plays content r.pos calls out := by
  induction calls generalizing r with
  | nil => exact ⟨[], rfl, .nil⟩
  | cons c calls ih =>
    obtain ⟨res, r', hcall, h', hagrees⟩ := h.call hsize (hexact c List.mem_cons_self)
    obtain ⟨out, hrun, hplays⟩ := ih h' (fun c hc => hexact c (List.mem_cons_of_mem _ hc))
    refine ⟨(res, r'.pos) :: out, ?_, .cons hagrees hplays⟩
    simp only [RangeReader.run, hcall, hrun, Option.bind_eq_bind, Option.bind_some]

/-- Every sequence of calls is answered as by a reader over the content. -/
theorem rangeReader_plays (hsize : content.length < 2 ^ 63) {calls : List (ReadSeekCall ε)}
    (hexact : ∀ c ∈ calls, c.Exact content) :
    ∃ out, RangeReader.run { size := content.length } calls = some out ∧
      Plays content 0 calls out :=
  RangeReader.Sound.run ⟨rfl, le_refl 0, (by decide : (0 : Int) < 2 ^ 63), 0, rfl,
    Nat.zero_le _, rfl⟩ hsize hexact

def fetchFrom (content : Bytes) (off length : Int) : Except Unit Bytes :=
  if 0 ≤ off ∧ 0 ≤ length ∧ off + length ≤ content.length then
    .ok ((content.drop off.toNat).take length.toNat)
  else .error ()

theorem exact_fetchFrom (content : Bytes) (n : Nat) :
    (ReadSeekCall.read (fetchFrom content) n).Exact content := by
  intro off length b h
  unfold fetchFrom at h
  split at h
  next hin =>
    cases h
    exact ⟨off.toNat, length.toNat, by omega, by omega, by omega, rfl⟩
  next => cases h

/-- Reads and seeks back and forth, up to the end, before the start and with a
bad `whence`. -/
def threeByteCalls : List (ReadSeekCall Unit) :=
  [.read (fetchFrom [1, 2, 3]) 2, .seek (-2) 1, .read (fetchFrom [1, 2, 3]) 1, .seek (-1) 2,
    .read (fetchFrom [1, 2, 3]) 5, .read (fetchFrom [1, 2, 3]) 1, .seek 1 0, .seek (-4) 2,
    .seek 0 7]

theorem rangeReader_plays_threeBytes :
    ∃ out, RangeReader.run { size := 3 } threeByteCalls = some out ∧
      out = [(.data [1, 2], 2), (.position 0, 0), (.data [1], 1), (.position 2, 2),
        (.data [3], 3), (.eof, 3), (.position 1, 1), (.refused .negativePosition, 1),
        (.refused .invalidWhence, 1)] ∧ Plays [1, 2, 3] 0 threeByteCalls out := by
  obtain ⟨out, hrun, hplays⟩ := @rangeReader_plays Unit [1, 2, 3] (by decide) threeByteCalls
    (fun c hc => by
      simp only [threeByteCalls, List.mem_cons, List.not_mem_nil, or_false] at hc
      rcases hc with rfl | rfl | rfl | rfl | rfl | rfl | rfl | rfl | rfl
      all_goals first | exact exact_fetchFrom _ _ | trivial)
  refine ⟨out, hrun, ?_, hplays⟩
  exact Option.some.inj (hrun.symm.trans (by decide))

end Simulation

end Hamster.Gateway
