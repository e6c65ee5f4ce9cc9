import Hamster.CodeLib.Lists
import Hamster.CodeLib.Wire
import Hamster.Raftnode.Raft

/-!
# A storage in memory

One library that keeps the laws of `LawfulRaft`: a storage as the library
documents its own, with the messages in the wire format of `raftpb`.  Nothing
is proved about the node with it.  It shows that the laws can be met, and runs
of the node on fixed inputs use it.

The entries follow the offset without a gap (`Consecutive`), which the storage
carries.
-/

namespace Hamster.Raftnode

open CodeLib

/-! ## Messages -/

section Messages

variable [Protowire]

def collectFields : FieldReader Unit (List Field) where
  varint fs num v := .ok (fs ++ [⟨num, .varint v⟩])
  bytes fs num v := .ok (fs ++ [⟨num, .bytes v⟩])
  other _ := some ()

def parseFields (b : Bytes) : Option (List Field) := (collectFields.read () [] b).toOption

theorem parseFields_encodeFields [LawfulProtowire] {fs : List Field}
    (hnums : ∀ f ∈ fs, f.Numbered) (hsize : (encodeFields fs).length < 2 ^ 63) :
    parseFields (encodeFields fs) = some fs := by
  have hcollect : (fs.map id).foldlM collectFields.field [] = .ok fs :=
    foldlM_collect (fun fs => fs) (fun f _ fs => by obtain ⟨num, v | v⟩ := f <;> rfl) []
  rw [List.map_id] at hcollect
  rw [parseFields, collectFields.read_encodeFields () hnums
    (size_lt_of_mem_fields hsize (Nat.two_pow_pos 63)), hcollect]
  rfl

end Messages

def varints (num : Nat) (fs : List Field) : List UInt64 :=
  fs.filterMap (fun f =>
    match f.value with
    | .varint v => if f.num = num then some v else none
    | .bytes _ => none)

def byteStrings (num : Nat) (fs : List Field) : List Bytes :=
  fs.filterMap (fun f =>
    match f.value with
    | .varint _ => none
    | .bytes v => if f.num = num then some v else none)

section Fields

variable (num : Nat) (fs gs : List Field)

@[simp] theorem varints_append : varints num (fs ++ gs) = varints num fs ++ varints num gs :=
  List.filterMap_append

@[simp] theorem varints_map (n : Nat) (vs : List UInt64) :
    varints num (vs.map (fun v => ⟨n, .varint v⟩)) = if n = num then vs else [] := by
  induction vs with
  | nil => simp [varints]
  | cons v vs ih =>
    unfold varints at ih ⊢
    by_cases h : n = num
    · simp_all
    · simp_all

end Fields

def EntryType.number : EntryType → UInt64
  | .entryNormal => 0
  | .entryConfChange => 1
  | .entryConfChangeV2 => 2

def EntryType.ofNumber (n : UInt64) : Option EntryType :=
  if n = 0 then some .entryNormal
  else if n = 1 then some .entryConfChange
  else if n = 2 then some .entryConfChangeV2
  else none

/-- A bytes field that is left out when it is empty. -/
def optionalBytes (num : Nat) (v : Bytes) : List Field :=
  if v = [] then [] else [⟨num, .bytes v⟩]

def hardStateFields (hs : HardState) : List Field :=
  [⟨1, .varint hs.term⟩, ⟨2, .varint hs.vote⟩, ⟨3, .varint hs.commit⟩]

def entryFields (e : Entry) : List Field :=
  [⟨1, .varint e.type.number⟩, ⟨2, .varint e.term⟩, ⟨3, .varint e.index⟩] ++ optionalBytes 4 e.data

def confStateFields (cs : ConfState) : List Field :=
  cs.voters.map (fun v => ⟨1, .varint v⟩) ++ (cs.learners.map (fun v => ⟨2, .varint v⟩) ++
    (cs.votersOutgoing.map (fun v => ⟨3, .varint v⟩) ++
      (cs.learnersNext.map (fun v => ⟨4, .varint v⟩) ++
        [⟨5, .varint (if cs.autoLeave then 1 else 0)⟩])))

section Marshal

variable [Protowire]

def metadataFields (m : SnapshotMetadata) : List Field :=
  [⟨1, .bytes (encodeFields (confStateFields m.confState))⟩, ⟨2, .varint m.index⟩,
    ⟨3, .varint m.term⟩]

def snapshotFields (snap : Snapshot) : List Field :=
  optionalBytes 1 snap.data ++ [⟨2, .bytes (encodeFields (metadataFields snap.metadata))⟩]

def readHardState (hs : HardState) (b : Bytes) : Option HardState := do
  let fs ← parseFields b
  some ⟨(varints 1 fs).getLastD hs.term, (varints 2 fs).getLastD hs.vote,
    (varints 3 fs).getLastD hs.commit⟩

def readEntry (b : Bytes) : Option Entry := do
  let fs ← parseFields b
  let type ← EntryType.ofNumber ((varints 1 fs).getLastD 0)
  some ⟨(varints 2 fs).getLastD 0, (varints 3 fs).getLastD 0, type, (byteStrings 4 fs).getLastD []⟩

def readConfState (b : Bytes) : Option ConfState := do
  let fs ← parseFields b
  some ⟨varints 1 fs, varints 2 fs, varints 3 fs, varints 4 fs, (varints 5 fs).getLastD 0 ≠ 0⟩

def readMetadata (b : Bytes) : Option SnapshotMetadata := do
  let fs ← parseFields b
  let confState ← readConfState ((byteStrings 1 fs).getLastD [])
  some ⟨confState, (varints 2 fs).getLastD 0, (varints 3 fs).getLastD 0⟩

def readSnapshot (snap : Snapshot) (b : Bytes) : Option Snapshot := do
  let fs ← parseFields b
  let metadata ← readMetadata ((byteStrings 2 fs).getLastD [])
  some ⟨(byteStrings 1 fs).getLastD snap.data, metadata⟩

section RoundTrip

variable [LawfulProtowire]

omit [Protowire] [LawfulProtowire] in
theorem numbered_of_nums {fs : List Field} (h : ∀ f ∈ fs, f.num ∈ [1, 2, 3, 4, 5]) :
    ∀ f ∈ fs, f.Numbered := by
  intro f hf
  have hnum := h f hf
  simp only [List.mem_cons, List.not_mem_nil, or_false] at hnum
  show 0 < f.num ∧ f.num < 2 ^ 29
  omega

theorem readHardState_marshal (hs : HardState)
    (hsize : (encodeFields (hardStateFields hs)).length < 2 ^ 63) :
    readHardState {} (encodeFields (hardStateFields hs)) = some hs := by
  rw [readHardState, parseFields_encodeFields (numbered_of_nums ?nums) hsize]
  · rfl
  case nums =>
    intro f hf
    simp only [hardStateFields, List.mem_cons, List.not_mem_nil, or_false] at hf
    rcases hf with rfl | rfl | rfl <;> simp

omit [Protowire] [LawfulProtowire] in
theorem ofNumber_number (t : EntryType) : EntryType.ofNumber t.number = some t := by
  cases t <;> rfl

theorem readEntry_marshal (e : Entry) (hsize : (encodeFields (entryFields e)).length < 2 ^ 63) :
    readEntry (encodeFields (entryFields e)) = some e := by
  rw [readEntry, parseFields_encodeFields (numbered_of_nums ?nums) hsize]
  · obtain ⟨term, index, type, data⟩ := e
    simp only [entryFields, Option.bind_eq_bind, Option.bind_some]
    by_cases hdata : data = []
    · simp [optionalBytes, hdata, varints, byteStrings, ofNumber_number]
    · simp [optionalBytes, hdata, varints, byteStrings, ofNumber_number]
  case nums =>
    intro f hf
    simp only [entryFields, optionalBytes] at hf
    split at hf
    · simp only [List.mem_cons, List.not_mem_nil, or_false, List.append_nil] at hf
      rcases hf with rfl | rfl | rfl <;> simp
    · simp only [List.mem_cons, List.not_mem_nil, or_false, List.mem_append] at hf
      rcases hf with (rfl | rfl | rfl) | rfl <;> simp

theorem readConfState_marshal (cs : ConfState)
    (hsize : (encodeFields (confStateFields cs)).length < 2 ^ 63) :
    readConfState (encodeFields (confStateFields cs)) = some cs := by
  rw [readConfState, parseFields_encodeFields (numbered_of_nums ?nums) hsize]
  · obtain ⟨voters, learners, outgoing, next, leave⟩ := cs
    simp only [confStateFields, Option.bind_eq_bind, Option.bind_some, varints_append, varints_map]
    cases leave <;> simp [varints]
  case nums =>
    intro f hf
    simp only [confStateFields, List.mem_append, List.mem_map, List.mem_singleton] at hf
    rcases hf with ⟨v, -, rfl⟩ | ⟨v, -, rfl⟩ | ⟨v, -, rfl⟩ | ⟨v, -, rfl⟩ | rfl <;> simp

theorem readMetadata_marshal (m : SnapshotMetadata)
    (hsize : (encodeFields (metadataFields m)).length < 2 ^ 63) :
    readMetadata (encodeFields (metadataFields m)) = some m := by
  have hconf : (encodeFields (confStateFields m.confState)).length < 2 ^ 63 :=
    (length_le_of_mem_fields List.mem_cons_self).trans_lt hsize
  rw [readMetadata, parseFields_encodeFields (numbered_of_nums ?nums) hsize]
  · simp [metadataFields, varints, byteStrings, readConfState_marshal _ hconf]
  case nums =>
    intro f hf
    simp only [metadataFields, List.mem_cons, List.not_mem_nil, or_false] at hf
    rcases hf with rfl | rfl | rfl <;> simp

theorem readSnapshot_marshal (snap : Snapshot)
    (hsize : (encodeFields (snapshotFields snap)).length < 2 ^ 63) :
    readSnapshot {} (encodeFields (snapshotFields snap)) = some snap := by
  have hmeta : (encodeFields (metadataFields snap.metadata)).length < 2 ^ 63 :=
    (length_le_of_mem_fields (List.mem_append_right _ (List.mem_singleton_self _))).trans_lt hsize
  rw [readSnapshot, parseFields_encodeFields (numbered_of_nums ?nums) hsize]
  · obtain ⟨data, metadata⟩ := snap
    simp only [snapshotFields, Option.bind_eq_bind, Option.bind_some]
    by_cases hdata : data = []
    · simp [optionalBytes, hdata, byteStrings, readMetadata_marshal _ hmeta]
    · simp [optionalBytes, hdata, byteStrings, readMetadata_marshal _ hmeta]
  case nums =>
    intro f hf
    simp only [snapshotFields, optionalBytes] at hf
    split at hf
    · simp only [List.nil_append, List.mem_singleton] at hf
      simp [hf]
    · simp only [List.mem_append, List.mem_singleton] at hf
      rcases hf with rfl | rfl <;> simp

end RoundTrip

end Marshal

/-! ## The storage -/

/-- The indexes of the entries are `n`, `n + 1` and so on. -/
def Consecutive : Nat → List Entry → Prop
  | _, [] => True
  | n, e :: es => e.index.toNat = n ∧ Consecutive (n + 1) es

instance Consecutive.decidable : (n : Nat) → (es : List Entry) → Decidable (Consecutive n es)
  | _, [] => .isTrue trivial
  | n, e :: es =>
    match decEq e.index.toNat n, Consecutive.decidable (n + 1) es with
    | .isTrue h, .isTrue h' => .isTrue ⟨h, h'⟩
    | .isFalse h, _ => .isFalse (fun hc => h hc.1)
    | _, .isFalse h => .isFalse (fun hc => h hc.2)

variable {es : List Entry}

theorem Consecutive.drop {n : Nat} (h : Consecutive n es) (k : Nat) :
    Consecutive (n + k) (es.drop k) := by
  induction k generalizing n es with
  | zero => exact h
  | succ k ih =>
    cases es with
    | nil => trivial
    | cons e es =>
      have hrest := ih h.2
      rwa [Nat.add_right_comm] at hrest

theorem Consecutive.bound {n : Nat} (h : Consecutive n es) (hn : n ≤ 2 ^ 64) :
    n + es.length ≤ 2 ^ 64 := by
  induction es generalizing n with
  | nil => simpa using hn
  | cons e es ih =>
    have hlt := e.index.toNat_lt
    have hindex := h.1
    have hrest := ih h.2 (by omega)
    rw [List.length_cons]
    omega

/-- The storage of the library, the entries without the dummy at their head. -/
@[ext] structure MemoryStorage where
  hardState : HardState := {}
  snapshot : Snapshot := {}
  offset : UInt64 := 0
  offsetTerm : UInt64 := 0
  ents : List Entry := []
  consecutive : Consecutive (offset.toNat + 1) ents := by trivial

namespace MemoryStorage

variable (st : MemoryStorage)

def lastIndex : UInt64 := st.offset + UInt64.ofNat st.ents.length

theorem offset_add_length : st.offset.toNat + st.ents.length < 2 ^ 64 := by
  have hlt := st.offset.toNat_lt
  have hbound := st.consecutive.bound (by omega)
  omega

theorem toNat_lastIndex : st.lastIndex.toNat = st.offset.toNat + st.ents.length := by
  have hlen := st.offset_add_length
  rw [lastIndex, UInt64.toNat_add, UInt64.toNat_ofNat']
  omega

def entries (lo hi : UInt64) : Option (List Entry) :=
  if lo ≤ st.offset ∨ hi > st.lastIndex + 1 ∨ st.ents = [] then none
  else some ((st.ents.drop (lo.toNat - (st.offset.toNat + 1))).take (hi - lo).toNat)

theorem entries_all (h : st.ents ≠ []) :
    st.entries (st.offset + 1) (st.lastIndex + 1) = some st.ents := by
  have hlen := st.offset_add_length
  have hpos : 0 < st.ents.length := List.length_pos_of_ne_nil h
  have hlast := st.toNat_lastIndex
  have hone : (1 : UInt64).toNat = 1 := rfl
  have hfirst : (st.offset + 1).toNat = st.offset.toNat + 1 := by
    rw [UInt64.toNat_add]
    omega
  have hcount : (st.lastIndex + 1 - (st.offset + 1)).toNat = st.ents.length := by
    rw [UInt64.toNat_sub, hfirst, UInt64.toNat_add]
    omega
  rw [entries, if_neg, hcount, hfirst]
  · simp
  · rintro (hlo | hhi | hnil)
    · rw [UInt64.le_iff_toNat_le] at hlo
      omega
    · exact UInt64.lt_irrefl _ hhi
    · exact h hnil

def appended (es : List Entry) : Option (List Entry) :=
  match es with
  | [] => some st.ents
  | e :: _ =>
    let first := st.offset.toNat + 1
    -- truncate compacted entries
    let fresh := es.drop (first - e.index.toNat)
    let keep := e.index.toNat - first
    if fresh = [] then some st.ents
    else if keep ≤ st.ents.length then some (st.ents.take keep ++ fresh)
    else none

def append (es : List Entry) : Option MemoryStorage :=
  match st.appended es with
  | none => none
  | some ents =>
    if h : Consecutive (st.offset.toNat + 1) ents then
      some { st with ents := ents, consecutive := h }
    else none

def applySnapshot (snap : Snapshot) : Option MemoryStorage :=
  if st.snapshot.metadata.index ≥ snap.metadata.index then none
  else some ⟨st.hardState, snap, snap.metadata.index, snap.metadata.term, [], trivial⟩

/-- The term of an index of the log, the offset included. -/
def termAt (i : UInt64) : UInt64 :=
  if i = st.offset then st.offsetTerm
  else ((st.ents.drop (i.toNat - (st.offset.toNat + 1))).head?.map Entry.term).getD 0

def createSnapshot (i : UInt64) (confState : ConfState) (data : Bytes) :
    Option (Snapshot × MemoryStorage) :=
  if i ≤ st.snapshot.metadata.index ∨ i < st.offset ∨ i > st.lastIndex then none
  else
    let snap : Snapshot := ⟨data, confState, i, st.termAt i⟩
    some (snap, { st with snapshot := snap })

def compact (i : UInt64) : Option MemoryStorage :=
  if h : i ≤ st.offset ∨ i > st.lastIndex then none
  else some
    { st with
      offset := i
      offsetTerm := st.termAt i
      ents := st.ents.drop (i.toNat - st.offset.toNat)
      consecutive := by
        have hlt : st.offset.toNat < i.toNat := by
          rw [not_or, UInt64.not_le, UInt64.lt_iff_toNat_lt] at h
          exact h.1
        have hrest := st.consecutive.drop (i.toNat - st.offset.toNat)
        have heq : st.offset.toNat + 1 + (i.toNat - st.offset.toNat) = i.toNat + 1 := by omega
        rwa [heq] at hrest }

theorem append_eq_some {st st' : MemoryStorage} (h : st.append es = some st') :
    ∃ ents, st.appended es = some ents ∧
      ∃ hc, st' = { st with ents := ents, consecutive := hc } := by
  unfold append at h
  cases happ : st.appended es with
  | none =>
    rw [happ] at h
    cases h
  | some ents =>
    rw [happ] at h
    dsimp only at h
    split at h
    · rename_i hc
      exact ⟨ents, rfl, hc, (Option.some.inj h).symm⟩
    · cases h

variable {st₁ st₂ : MemoryStorage}

theorem append_congr {st₁' : MemoryStorage} (hoffset : st₁.offset = st₂.offset)
    (hents : st₁.ents = st₂.ents) (h : st₁.append es = some st₁') :
    ∃ st₂', st₂.append es = some st₂' ∧ st₂'.ents = st₁'.ents := by
  obtain ⟨ents, happ, hc, rfl⟩ := append_eq_some h
  have happ₂ : st₂.appended es = some ents := by
    rw [← happ]
    unfold appended
    rw [hoffset, hents]
  refine ⟨{ st₂ with ents := ents, consecutive := hoffset ▸ hc }, ?_, rfl⟩
  rw [append, happ₂]
  exact dif_pos (hoffset ▸ hc)

theorem append_entries (hoffset : st₁.offset = st₂.offset) (hents : st₂.ents = []) :
    ∃ st₂', st₂.append st₁.ents = some st₂' ∧ st₂'.ents = st₁.ents := by
  have hc : Consecutive (st₂.offset.toNat + 1) st₁.ents := hoffset ▸ st₁.consecutive
  have happ : st₂.appended st₁.ents = some st₁.ents := by
    unfold appended
    cases hes : st₁.ents with
    | nil => rw [hents]
    | cons e es =>
      rw [hes] at hc
      have hindex : e.index.toNat = st₂.offset.toNat + 1 := hc.1
      dsimp only
      rw [hindex, Nat.sub_self, hents]
      simp
  refine ⟨{ st₂ with ents := st₁.ents, consecutive := hc }, ?_, rfl⟩
  rw [append, happ]
  exact dif_pos hc

theorem compact_eq_some {st : MemoryStorage} {i : UInt64} {confState : ConfState}
    {data : Bytes} {snap : Snapshot}
    (hcreate : st.createSnapshot i confState data = some (snap, st₁))
    (hcompact : st₁.compact i = some st₂) :
    st₂.hardState = st.hardState ∧ st₂.snapshot = snap ∧ st₂.offset = i := by
  unfold createSnapshot at hcreate
  split at hcreate
  · cases hcreate
  obtain ⟨rfl, rfl⟩ := Prod.mk.inj (Option.some.inj hcreate)
  unfold compact at hcompact
  split at hcompact
  · cases hcompact
  rw [← Option.some.inj hcompact]
  exact ⟨rfl, rfl, rfl⟩

theorem tail_eq :
    (if st.offset < st.lastIndex then st.entries (st.offset + 1) (st.lastIndex + 1) else some []) =
      some st.ents := by
  have hlast := st.toNat_lastIndex
  by_cases hnil : st.ents = []
  · rw [if_neg, hnil]
    rw [hnil, List.length_nil] at hlast
    rw [UInt64.lt_iff_toNat_lt]
    omega
  · have hpos : 0 < st.ents.length := List.length_pos_of_ne_nil hnil
    rw [if_pos, st.entries_all hnil]
    rw [UInt64.lt_iff_toNat_lt]
    omega

end MemoryStorage

@[reducible] def memoryRaft [Protowire] : Raft where
  Storage := MemoryStorage
  newMemoryStorage := {}
  initialState st := (st.hardState, st.snapshot.metadata.confState)
  snapshot := MemoryStorage.snapshot
  firstIndex st := st.offset + 1
  lastIndex := MemoryStorage.lastIndex
  entries := MemoryStorage.entries
  append := MemoryStorage.append
  setHardState st hs := some { st with hardState := hs }
  applySnapshot := MemoryStorage.applySnapshot
  createSnapshot := MemoryStorage.createSnapshot
  compact := MemoryStorage.compact
  isEmptyHardState hs := hs = {}
  isEmptySnap snap := snap.metadata.index = 0
  marshalHardState hs := encodeFields (hardStateFields hs)
  marshalEntry e := encodeFields (entryFields e)
  marshalSnapshot snap := encodeFields (snapshotFields snap)
  unmarshalHardState := readHardState
  unmarshalEntry := readEntry
  unmarshalSnapshot := readSnapshot

section Laws

variable [Protowire]

theorem contents_memory (st : MemoryStorage) :
    @Raft.contents memoryRaft st = ⟨st.hardState, st.snapshot, st.offset + 1, st.ents⟩ := by
  have hentries : (if st.offset + 1 ≤ st.lastIndex then
      (st.entries (st.offset + 1) (st.lastIndex + 1)).getD [] else []) = st.ents := by
    by_cases hnil : st.ents = []
    · have hnone : st.entries (st.offset + 1) (st.lastIndex + 1) = none := by
        rw [MemoryStorage.entries, if_pos (Or.inr (Or.inr hnil))]
      rw [hnone, hnil]
      exact ite_self _
    · have hlen := st.offset_add_length
      have hpos : 0 < st.ents.length := List.length_pos_of_ne_nil hnil
      have hlast := st.toNat_lastIndex
      have hone : (1 : UInt64).toNat = 1 := rfl
      rw [if_pos, st.entries_all hnil]
      · rfl
      · rw [UInt64.le_iff_toNat_le, UInt64.toNat_add]
        omega
  exact congrArg (Contents.mk _ _ _) hentries

theorem memoryRaft_lawful [LawfulProtowire] : @LawfulRaft memoryRaft := by
  have hinj : ∀ a b : UInt64, a + 1 = b + 1 → a = b := fun a b h => by simpa using h
  refine @LawfulRaft.mk memoryRaft (fun hs => decide_eq_true_iff) (fun snap => decide_eq_true_iff)
    readHardState_marshal readEntry_marshal readSnapshot_marshal ?new ?set ?snapshot ?newer ?keeps
    ?congr ?entries ?create ?compact
  case new => rw [contents_memory]; rfl
  case set =>
    intro st hs
    refine ⟨{ st with hardState := hs }, rfl, ?_⟩
    simp only [contents_memory]
  case snapshot =>
    intro st snap hlt
    simp only [contents_memory] at hlt ⊢
    refine ⟨⟨st.hardState, snap, snap.metadata.index, snap.metadata.term, [], trivial⟩, ?_, ?_⟩
    · exact if_neg (UInt64.not_le.mpr hlt)
    · rfl
  case newer =>
    intro st snap st' h
    simp only [contents_memory]
    have h : MemoryStorage.applySnapshot st snap = some st' := h
    unfold MemoryStorage.applySnapshot at h
    split at h
    · cases h
    · rename_i hge
      exact UInt64.not_le.mp hge
  case keeps =>
    intro st es st' h
    obtain ⟨ents, -, hc, rfl⟩ := MemoryStorage.append_eq_some h
    simp only [contents_memory]
  case congr =>
    intro st₁ st₂ es st₁' hfirst hents h
    simp only [contents_memory] at hfirst hents ⊢
    exact MemoryStorage.append_congr (hinj _ _ hfirst) hents h
  case entries =>
    intro st₁ st₂ hfirst hents
    simp only [contents_memory] at hfirst hents ⊢
    exact MemoryStorage.append_entries (hinj _ _ hfirst) hents
  case create =>
    intro st i confState data snap st' h
    simp only [contents_memory]
    have h : MemoryStorage.createSnapshot st i confState data = some (snap, st') := h
    unfold MemoryStorage.createSnapshot at h
    split at h
    · cases h
    · rename_i hrange
      obtain ⟨rfl, -⟩ := Prod.mk.inj (Option.some.inj h)
      exact ⟨rfl, rfl, rfl, UInt64.not_le.mp (not_or.mp hrange).1⟩
  case compact =>
    intro st i confState data snap st₁ st₂ hcreate hcompact
    obtain ⟨hhs, hsnap, rfl⟩ := MemoryStorage.compact_eq_some hcreate hcompact
    simp only [contents_memory]
    exact ⟨hhs, hsnap, trivial, st₂.tail_eq⟩

end Laws

end Hamster.Raftnode
