import Hamster.CodeLib.Uvarint
import Mathlib.Tactic.Common

/-!
# The protobuf wire format

A message is a sequence of fields.  A field is a tag, which holds the number
and the type of the field, and a value: a varint or a string of bytes with its
length.

`Protowire` is the interface of a wire library, and `LawfulProtowire` is what
its documentation promises: what was appended is consumed again, whatever
follows.  Nothing else about the library is used.  `wireFormat` is the format
itself, as one such library.

Encoders write `encodeFields` of a list of fields.  Decoders are loops over
the bytes of a message, with one step for each field: `readMessage`, or a
`FieldReader` for the usual step.  `readMessage_encodeFields` turns the loop
over the bytes into a fold over the fields, so that a round trip never looks at
a byte.
-/

namespace Hamster.CodeLib

/-- The type of a varint field. -/
def varintType : Nat := 0

/-- The type of a field of bytes with a length. -/
def bytesType : Nat := 2

/-- A library for the wire format.  An appending function gets the buffer to
append to.  A consuming function gives how many bytes it took; `none` is a
negative count, its error. -/
class Protowire where
  appendTag : Bytes → Nat → Nat → Bytes
  appendVarint : Bytes → UInt64 → Bytes
  appendBytes : Bytes → Bytes → Bytes
  consumeTag : Bytes → Option (Nat × Nat × Nat)
  consumeVarint : Bytes → Option (UInt64 × Nat)
  consumeBytes : Bytes → Option (Bytes × Nat)
  consumeFieldValue : Nat → Nat → Bytes → Option Nat

export Protowire (appendTag appendVarint appendBytes consumeTag consumeVarint consumeBytes
  consumeFieldValue)

/-- What the library's documentation says. -/
class LawfulProtowire [Protowire] : Prop where
  appendTag_eq : ∀ b num typ, appendTag b num typ = b ++ appendTag [] num typ
  appendVarint_eq : ∀ b v, appendVarint b v = b ++ appendVarint [] v
  appendBytes_eq : ∀ b v, appendBytes b v = b ++ appendBytes [] v
  consumeTag_appendTag : ∀ {num typ : Nat} (rest : Bytes), 0 < num → num < 2 ^ 29 → typ < 8 →
    consumeTag (appendTag [] num typ ++ rest) = some (num, typ, (appendTag [] num typ).length)
  consumeTag_nil : consumeTag [] = none
  consumeVarint_appendVarint : ∀ v rest,
    consumeVarint (appendVarint [] v ++ rest) = some (v, (appendVarint [] v).length)
  appendBytes_suffix : ∀ v, v <:+ appendBytes [] v
  consumeBytes_appendBytes : ∀ (v rest : Bytes), v.length < 2 ^ 63 →
    consumeBytes (appendBytes [] v ++ rest) = some (v, (appendBytes [] v).length)

/-- The sizes that the library's documentation promises: a varint takes at most
ten bytes, and bytes take their length more. -/
class BoundedProtowire [Protowire] : Prop where
  length_appendTag_le : ∀ num typ, (appendTag [] num typ).length ≤ 10
  length_appendVarint_le : ∀ v, (appendVarint [] v).length ≤ 10
  length_appendBytes_le : ∀ v, (appendBytes [] v).length ≤ 10 + v.length

/-! ## Fields -/

inductive FieldValue where
  | varint (v : UInt64)
  | bytes (v : Bytes)
deriving DecidableEq

/-- One field of a message. -/
structure Field where
  num : Nat
  value : FieldValue
deriving DecidableEq

variable {num : Nat}

namespace Field

def type (f : Field) : Nat :=
  match f.value with
  | .varint _ => varintType
  | .bytes _ => bytesType

/-- The number is one that the format allows. -/
def Numbered (f : Field) : Prop := 0 < f.num ∧ f.num < 2 ^ 29

theorem numbered_mk (h : 0 < num ∧ num < 2 ^ 29) (value : FieldValue) : Numbered ⟨num, value⟩ := h

theorem type_lt (f : Field) : f.type < 8 := by
  unfold type
  split
  · decide
  · decide

variable [Protowire]

/-- The bytes after the tag. -/
def payload (f : Field) : Bytes :=
  match f.value with
  | .varint v => appendVarint [] v
  | .bytes v => appendBytes [] v

def encode (f : Field) : Bytes := appendTag [] f.num f.type ++ f.payload

end Field

variable [Protowire]

/-- The fields of a message, one after the other. -/
def encodeFields (fs : List Field) : Bytes := fs.flatMap Field.encode

@[simp] theorem encodeFields_nil : encodeFields [] = [] := rfl

@[simp] theorem encodeFields_cons (f : Field) (fs : List Field) :
    encodeFields (f :: fs) = f.encode ++ encodeFields fs := rfl

@[simp] theorem encodeFields_append (fs gs : List Field) :
    encodeFields (fs ++ gs) = encodeFields fs ++ encodeFields gs := List.flatMap_append

variable {fs : List Field} {v : Bytes}

section Writing

variable [LawfulProtowire]

/-- A tag and a varint append one field. -/
theorem appendVarint_appendTag (b : Bytes) (num : Nat) (v : UInt64) :
    appendVarint (appendTag b num varintType) v = b ++ encodeFields [⟨num, .varint v⟩] := by
  rw [LawfulProtowire.appendVarint_eq, LawfulProtowire.appendTag_eq, List.append_assoc]
  simp [Field.encode, Field.type, Field.payload]

/-- A tag and bytes append one field. -/
theorem appendBytes_appendTag (b : Bytes) (num : Nat) (v : Bytes) :
    appendBytes (appendTag b num bytesType) v = b ++ encodeFields [⟨num, .bytes v⟩] := by
  rw [LawfulProtowire.appendBytes_eq, LawfulProtowire.appendTag_eq, List.append_assoc]
  simp [Field.encode, Field.type, Field.payload]

omit [LawfulProtowire] in
/-- A loop that appends one field for each element. -/
theorem foldl_appendField {β : Type} {step : Bytes → β → Bytes} {g : β → Field}
    (h : ∀ b x, step b x = b ++ encodeFields [g x]) (xs : List β) (b : Bytes) :
    xs.foldl step b = b ++ encodeFields (xs.map g) := by
  induction xs generalizing b with
  | nil => simp
  | cons x xs ih =>
    rw [List.foldl_cons, ih, h, List.append_assoc, ← encodeFields_append]
    rfl

/-- A reader gets the value of a varint field back. -/
theorem consumeVarint_payload (num : Nat) (v : UInt64) (rest : Bytes) :
    consumeVarint (Field.payload ⟨num, .varint v⟩ ++ rest) =
      some (v, (Field.payload ⟨num, .varint v⟩).length) :=
  LawfulProtowire.consumeVarint_appendVarint v rest

/-- A reader gets the value of a bytes field back. -/
theorem consumeBytes_payload (num : Nat) (hv : v.length < 2 ^ 63) (rest : Bytes) :
    consumeBytes (Field.payload ⟨num, .bytes v⟩ ++ rest) =
      some (v, (Field.payload ⟨num, .bytes v⟩).length) :=
  LawfulProtowire.consumeBytes_appendBytes v rest hv

/-- A bytes field of a message is no longer than the message. -/
theorem length_le_of_mem_fields (h : ⟨num, .bytes v⟩ ∈ fs) :
    v.length ≤ (encodeFields fs).length := by
  have hvalue : v.length ≤ (Field.encode ⟨num, .bytes v⟩).length := by
    have hsuffix := (LawfulProtowire.appendBytes_suffix v).length_le
    rw [Field.encode, List.length_append]
    show v.length ≤ _ + (appendBytes [] v).length
    omega
  have hpart := (List.sublist_flatten_of_mem (List.mem_map_of_mem (f := Field.encode) h)).length_le
  rw [← List.flatMap_def] at hpart
  exact hvalue.trans hpart

theorem appendTag_ne_nil {typ : Nat} (hpos : 0 < num) (hnum : num < 2 ^ 29) (htyp : typ < 8) :
    appendTag [] num typ ≠ [] := by
  intro hnil
  have h := LawfulProtowire.consumeTag_appendTag [] hpos hnum htyp
  rw [hnil, List.append_nil, LawfulProtowire.consumeTag_nil] at h
  cases h

end Writing

/-! ## Sizes -/

/-- The bytes of a value, its length apart. -/
def FieldValue.size : FieldValue → Nat
  | .varint _ => 0
  | .bytes v => v.length

theorem size_lt_of_mem_fields [LawfulProtowire] {n : Nat} (hlen : (encodeFields fs).length < n)
    (hn : 0 < n) : ∀ f ∈ fs, f.value.size < n := by
  rintro ⟨num, v | v⟩ hf
  · exact hn
  · exact (length_le_of_mem_fields hf).trans_lt hlen

/-- A field takes at most twenty bytes more than its value. -/
theorem length_encodeFields_le [BoundedProtowire] (fs : List Field) :
    (encodeFields fs).length ≤ (fs.map (fun f => 20 + f.value.size)).sum := by
  induction fs with
  | nil => exact Nat.le_refl 0
  | cons f fs ih =>
    have htag := BoundedProtowire.length_appendTag_le f.num f.type
    have hpayload : f.payload.length ≤ 10 + f.value.size := by
      obtain ⟨num, v | v⟩ := f
      · exact BoundedProtowire.length_appendVarint_le v
      · exact BoundedProtowire.length_appendBytes_le v
    rw [encodeFields_cons, Field.encode, List.length_append, List.length_append, List.map_cons,
      List.sum_cons]
    omega

/-! ## Reading a message -/

section Reading

variable {α ε : Type}

/-- One field of a message that is being read: what it makes of the value
read so far, and how many bytes its own value takes. -/
abbrev FieldStep (ε α : Type) := α → Nat → Nat → Bytes → Except ε (α × Nat)

/-- The loop over the bytes of a message.  Every turn takes a tag at least,
so the length of the message bounds the number of turns. -/
def readFields (parseError : ε) (step : FieldStep ε α) : Nat → α → Bytes → Except ε α
  | _, acc, [] => .ok acc
  | 0, _, _ :: _ => .error parseError
  | turns + 1, acc, c :: cs =>
    match consumeTag (c :: cs) with
    | none => .error parseError
    | some (num, typ, n) =>
      match step acc num typ ((c :: cs).drop n) with
      | .error e => .error e
      | .ok (acc', m) => readFields parseError step turns acc' (((c :: cs).drop n).drop m)

def readMessage (parseError : ε) (step : FieldStep ε α) (acc : α) (b : Bytes) : Except ε α :=
  readFields parseError step b.length acc b

variable [LawfulProtowire] {step : FieldStep ε α} {parseError : ε}

/-- One turn of the loop reads one field. -/
theorem readFields_encode {f : Field} (hf : f.Numbered) (turns : Nat) (acc : α) (rest : Bytes)
    : readFields parseError step (turns + 1) acc (f.encode ++ rest) =
      match step acc f.num f.type (f.payload ++ rest) with
      | .error e => .error e
      | .ok (acc', m) => readFields parseError step turns acc' ((f.payload ++ rest).drop m) := by
  obtain ⟨hpos, hnum⟩ := hf
  have htag := LawfulProtowire.consumeTag_appendTag (f.payload ++ rest) hpos hnum f.type_lt
  have hne := appendTag_ne_nil hpos hnum f.type_lt
  rw [Field.encode, List.append_assoc]
  match happ : appendTag [] f.num f.type ++ (f.payload ++ rest) with
  | [] => exact absurd (List.append_eq_nil_iff.mp happ).1 hne
  | c :: cs =>
    rw [happ] at htag
    rw [readFields, htag, ← happ]
    simp only [List.drop_left]

/-- A decoder whose step reads the fields of an encoding one by one folds over
them. -/
theorem readFields_encodeFields {upd : α → Field → Except ε α} (hnums : ∀ f ∈ fs, f.Numbered)
    (hstep : ∀ acc, ∀ f ∈ fs, ∀ rest, step acc f.num f.type (f.payload ++ rest) =
      (upd acc f).map (fun acc' => (acc', f.payload.length)))
    (turns : Nat) (hturns : fs.length ≤ turns) (acc : α) :
    readFields parseError step turns acc (encodeFields fs) = fs.foldlM upd acc := by
  induction fs generalizing turns acc with
  | nil =>
    cases turns with
    | zero | succ turns => rfl
  | cons f fs ih =>
    cases turns with
    | zero => simp at hturns
    | succ turns =>
      have hrest := ih (fun g hg => hnums g (List.mem_cons_of_mem f hg))
        (fun acc g hg => hstep acc g (List.mem_cons_of_mem f hg)) turns
        (by simpa using hturns)
      rw [encodeFields_cons, readFields_encode (hnums f List.mem_cons_self),
        hstep acc f List.mem_cons_self, List.foldlM_cons]
      cases hupd : upd acc f with
      | error e => rfl
      | ok acc' =>
        simp only [Except.map, List.drop_left]
        exact hrest acc'

theorem length_le_length_encodeFields (hnums : ∀ f ∈ fs, f.Numbered) :
    fs.length ≤ (encodeFields fs).length := by
  induction fs with
  | nil => exact Nat.le_refl 0
  | cons f fs ih =>
    obtain ⟨hpos, hnum⟩ := hnums f List.mem_cons_self
    have htag := List.length_pos_iff.mpr (appendTag_ne_nil hpos hnum f.type_lt)
    have hrest := ih (fun g hg => hnums g (List.mem_cons_of_mem f hg))
    simp only [encodeFields_cons, Field.encode, List.length_append, List.length_cons]
    omega

theorem readMessage_encodeFields {parseError : ε} {step : FieldStep ε α}
    {upd : α → Field → Except ε α} {fs : List Field} (hnums : ∀ f ∈ fs, f.Numbered)
    (hstep : ∀ acc, ∀ f ∈ fs, ∀ rest, step acc f.num f.type (f.payload ++ rest) =
      (upd acc f).map (fun acc' => (acc', f.payload.length)))
    (acc : α) : readMessage parseError step acc (encodeFields fs) = fs.foldlM upd acc :=
  readFields_encodeFields hnums hstep _ (length_le_length_encodeFields hnums) acc

end Reading

/-! ## Decoders -/

/-- A decoder by what it does with a field of each type.  A field of another type is
passed over, or refused with an error. -/
structure FieldReader (ε α : Type) where
  varint : α → Nat → UInt64 → Except ε α
  bytes : α → Nat → Bytes → Except ε α
  other : Nat → Option ε := fun _ => none

namespace FieldReader

variable {ε α : Type} (r : FieldReader ε α) (parseError : ε)

def step : FieldStep ε α := fun acc num typ b =>
  if typ = varintType then
    match consumeVarint b with
    | none => .error parseError
    | some (v, n) => (r.varint acc num v).map (·, n)
  else if typ = bytesType then
    match consumeBytes b with
    | none => .error parseError
    | some (v, n) => (r.bytes acc num v).map (·, n)
  else
    match r.other num, consumeFieldValue num typ b with
    | some e, _ => .error e
    | none, none => .error parseError
    | none, some n => .ok (acc, n)

def read (acc : α) (b : Bytes) : Except ε α := readMessage parseError (r.step parseError) acc b

/-- What it makes of one field. -/
def field (acc : α) (f : Field) : Except ε α :=
  match f.value with
  | .varint v => r.varint acc f.num v
  | .bytes v => r.bytes acc f.num v

variable [LawfulProtowire]

/-- A message is read field by field. -/
theorem read_encodeFields (hnums : ∀ f ∈ fs, f.Numbered)
    (hsize : ∀ f ∈ fs, f.value.size < 2 ^ 63) (acc : α) :
    r.read parseError acc (encodeFields fs) = fs.foldlM r.field acc := by
  refine readMessage_encodeFields hnums (fun acc f hf rest => ?_) acc
  obtain ⟨num, v | v⟩ := f
  · rw [step, if_pos (show Field.type ⟨num, .varint v⟩ = varintType from rfl),
      consumeVarint_payload]
    rfl
  · have hv : v.length < 2 ^ 63 := hsize _ hf
    have htype : Field.type ⟨num, .bytes v⟩ = bytesType := rfl
    rw [step, htype, if_neg (by decide), if_pos rfl, consumeBytes_payload num hv]
    rfl

end FieldReader

/-! ## The format itself -/

omit [Protowire]

/-- Read the length and the bytes of a field. -/
def lengthPrefixed (b : Bytes) : Option (Bytes × Nat) :=
  match uvarint b with
  | none => none
  | some (m, n) => if m > b.length - n then none else some ((b.drop n).take m, n + m)

/-- The wire format.  Groups are refused. -/
@[reducible] def wireFormat : Protowire where
  appendTag b num typ := b ++ appendUvarint (UInt64.ofNat (num * 8 + typ))
  appendVarint b v := b ++ appendUvarint v
  appendBytes b v := b ++ (appendUvarint (UInt64.ofNat v.length) ++ v)
  consumeTag b :=
    match uvarint b with
    | none => none
    | some (v, n) => if v / 8 < 1 ∨ v / 8 > 2 ^ 31 - 1 then none else some (v / 8, v % 8, n)
  consumeVarint b := (uvarint b).map (fun (v, n) => (UInt64.ofNat v, n))
  consumeBytes := lengthPrefixed
  consumeFieldValue _ typ b :=
    match typ with
    | 0 => (uvarint b).map Prod.snd
    | 1 => if b.length < 8 then none else some 8
    | 2 => (lengthPrefixed b).map Prod.snd
    | 5 => if b.length < 4 then none else some 4
    | _ => none

theorem lengthPrefixed_append (hv : v.length < 2 ^ 63) (rest : Bytes) :
    lengthPrefixed (appendUvarint (UInt64.ofNat v.length) ++ v ++ rest) =
      some (v, (appendUvarint (UInt64.ofNat v.length) ++ v).length) := by
  have hlen : (UInt64.ofNat v.length).toNat = v.length := by
    rw [UInt64.toNat_ofNat']
    omega
  rw [List.append_assoc, lengthPrefixed, uvarint_appendUvarint, hlen]
  simp

/-- The format keeps the laws. -/
theorem wireFormat_lawful : @LawfulProtowire wireFormat := by
  refine @LawfulProtowire.mk wireFormat (fun _ _ _ => rfl) (fun _ _ => rfl) (fun _ _ => rfl)
    ?tag rfl ?varint (fun v => List.suffix_append _ v)
    (fun v rest hv => lengthPrefixed_append hv rest)
  case tag =>
    intro num typ rest hpos hnum htyp
    have hv : (UInt64.ofNat (num * 8 + typ)).toNat = num * 8 + typ := by
      rw [UInt64.toNat_ofNat']
      omega
    have hdiv : (num * 8 + typ) / 8 = num := by omega
    have hmod : (num * 8 + typ) % 8 = typ := by omega
    have hrange : ¬ (num < 1 ∨ num > 2 ^ 31 - 1) := by omega
    show (match uvarint (appendUvarint (UInt64.ofNat (num * 8 + typ)) ++ rest) with
      | none => none
      | some (v, n) => if v / 8 < 1 ∨ v / 8 > 2 ^ 31 - 1 then none else some (v / 8, v % 8, n)) = _
    rw [uvarint_appendUvarint, hv]
    simp only [hdiv, hmod, if_neg hrange]
    rfl
  case varint =>
    intro v rest
    show (uvarint (appendUvarint v ++ rest)).map (fun (v, n) => (UInt64.ofNat v, n)) = _
    rw [uvarint_appendUvarint, Option.map_some]
    dsimp only
    rw [UInt64.ofNat_toNat]
    rfl

/-- The format keeps the bounds. -/
theorem wireFormat_bounded : @BoundedProtowire wireFormat := by
  refine @BoundedProtowire.mk wireFormat ?tag length_appendUvarint_le ?bytes
  case tag =>
    intro num typ
    exact length_appendUvarint_le (UInt64.ofNat (num * 8 + typ))
  case bytes =>
    intro v
    have hlen := length_appendUvarint_le (UInt64.ofNat v.length)
    show ([] ++ (appendUvarint (UInt64.ofNat v.length) ++ v)).length ≤ 10 + v.length
    rw [List.nil_append, List.length_append]
    omega

end Hamster.CodeLib
