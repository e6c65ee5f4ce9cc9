import Hamster.Coord.Rewrap
import Hamster.Meta.CurrentIndex

/-!
# Nonces of wrapped keys

A PUT wraps its data key under a nonce from the address that it minted, and a
rewrap sweep uses the address that it finds in the entry, which a re-encoding
may have changed.  `KeyWorld` is a cluster doing all three: PUTs and parts with
their proposals in flight, re-encodings, sweeps that read any state the log has
been in, and proposals that are committed late, never, or more than once.

The invariant gives every version row one data key for good, and traces the
address in it to the PUT that sealed with that key or to a re-encoding of that
row.  So an address is used with one key only (`nonces_not_reused`), as long as
a nonce tells the address: it has twelve of the sixteen bytes, and two
addresses of one millisecond may agree on them (`nonce_reused`).

That a sweep gets back the key that was wrapped is a matter of AES-GCM, which
does not rule out that a ciphertext opens under another key.  It is assumed of
the wraps of the run and the master keys of its sweeps.
-/

namespace Hamster.Coord

open CodeLib Meta Keys

/-! ## PUTs -/

variable {setup : Setup} {c : WrapCall}

section Put

variable [Stream.Gcm]

def putCalls (env : PutEnv) (size : Int64) : List WrapCall :=
  let call := env.entropy.toList.map (fun dek => ⟨env.kek, dek, wrapNonce env.vid⟩)
  match setupPut env size with
  | .ok setup => if setup.dek.isSome then call else []
  | .error .wrappingDEK => call
  | .error _ => []

/-- What `beginPut` leaves for the proposal: no key, or the key it made. -/
structure SetupKey (env : PutEnv) (setup : Setup) (calls : List WrapCall) : Prop where
  vid : setup.vid = env.vid
  key : setup.encAlg = encNone ∨
    ∃ dek, calls = [⟨env.kek, dek, wrapNonce env.vid⟩] ∧
      env.kek.wrap dek (wrapNonce env.vid) = some setup.wrappedDEK

variable {env : PutEnv} {size : Int64}

theorem setupPut_key (h : setupPut env size = .ok setup) :
    SetupKey env setup (putCalls env size) := by
  rw [putCalls, h]
  dsimp only
  unfold setupPut at h
  split at h
  · cases h
  split at h
  · cases h
  dsimp only at h
  split at h
  · split at h
    · cases h
    split at h
    · cases h
    split at h
    · cases h
    rename_i dek hdek
    split at h
    · cases h
    rename_i wrapped hwrap
    cases h
    refine ⟨rfl, Or.inr ⟨dek, ?_, hwrap⟩⟩
    rw [hdek]
    rfl
  · cases h
    exact ⟨rfl, Or.inl rfl⟩

theorem putCalls_eq (h : c ∈ putCalls env size) :
    c = ⟨env.kek, c.dek, wrapNonce env.vid⟩ ∧
      ((putCalls env size).head?).map (·.dek) = some c.dek := by
  have hcalls : putCalls env size =
      env.entropy.toList.map (fun dek => ⟨env.kek, dek, wrapNonce env.vid⟩) := by
    unfold putCalls at h ⊢
    dsimp only at h ⊢
    split at h
    · split at h
      · exact if_pos ‹_›
      · cases h
    · rfl
    · cases h
  rw [hcalls] at h ⊢
  obtain ⟨dek, hdek, rfl⟩ := List.mem_map.mp h
  rw [Option.mem_toList.mp hdek]
  exact ⟨rfl, rfl⟩

end Put

/-! ## A cluster -/

/-- What an address was minted for: an object or a part, with the key that
seals it, or the new data of a version. -/
inductive MintUse where
  | object (dek : Option DEK)
  | moved (bucket key : Bytes) (vid : VersionID)

structure Mint where
  id : VersionID
  use : MintUse

/-- The log with all states it has been in, what the nodes are doing, and what
they have minted and wrapped so far. -/
structure KeyWorld where
  store : Store
  past : List Store := []
  puts : List (PutCall × Setup) := []
  sweeps : List (RewrapOp × SweepItem) := []
  proposed : List Proposal := []
  mints : List Mint := []
  calls : List WrapCall := []

inductive KeyEvent where
  | put (env : PutEnv) (call : PutCall)
  | putDone (j : Nat) (etag objSum : Bytes) (sums : List Bytes)
  | reEncode (q : ReEncodeObject)
  | sweep (i : Nat) (keyring : UInt64 → Option KEK) (atMS : Int64)
  | resume (j i : Nat) (atMS : Int64) (answer : Except Bytes Unit)
  | commit (j : Nat)
  | other (p : Proposal)

namespace KeyEvent

def minted : KeyEvent → List VersionID
  | .put env _ => [env.vid]
  | .reEncode q => [q.dataID]
  | _ => []

def versionIDs : KeyEvent → List VersionID
  | .put env _ => [env.vid]
  | .other p => p.mintedIDs
  | _ => []

end KeyEvent

/-- A proposal of something else than a PUT, a part, a re-encoding, a rewrap or
a deletion. -/
def isOther : Proposal → Bool
  | .putObject _ | .uploadPart _ | .reEncodeObject _ | .rewrapDEK _ => false
  | p => !p.removes

namespace KeyWorld

/-- The state that a node sees: any that the log has been in. -/
def view (w : KeyWorld) (i : Nat) : Option Store := (w.past ++ [w.store])[i]?

def apply (w : KeyWorld) (p : Proposal) : KeyWorld :=
  { w with store := (applyMem w.store p).2, past := w.past ++ [w.store] }

def advance (w : KeyWorld) : Except MetaError (List WrapCall × RewrapStep) → KeyWorld
  | .error _ => w
  | .ok (calls, .rewrap op item p) =>
    { w with
      calls := w.calls ++ calls
      sweeps := w.sweeps ++ [(op, item)]
      proposed := w.proposed ++ [.rewrapDEK p] }
  | .ok (calls, .complete _ p) =>
    { w with calls := w.calls ++ calls, proposed := w.proposed ++ [.completeKEKRotation p] }
  | .ok (calls, .done _) => { w with calls := w.calls ++ calls }

variable [Stream.Gcm]

def put (w : KeyWorld) (env : PutEnv) (call : PutCall) : KeyWorld :=
  let calls := putCalls env call.size
  { w with
    puts := w.puts ++ (setupPut env call.size).toOption.toList.map (Prod.mk call)
    mints := w.mints ++ [⟨env.vid, .object (calls.head?.map (·.dek))⟩]
    calls := w.calls ++ calls }

def step (w : KeyWorld) : KeyEvent → KeyWorld
  | .put env call => w.put env call
  | .putDone j etag objSum sums =>
    match w.puts[j]? with
    | none => w
    | some (call, setup) =>
      { w with proposed := w.proposed ++ [putProposal call setup etag objSum sums] }
  | .reEncode q =>
    { w with
      mints := w.mints ++ [⟨q.dataID, .moved q.bucket q.key q.versionID⟩]
      proposed := w.proposed ++ [.reEncodeObject q] }
  | .sweep i keyring atMS =>
    match w.view i with
    | none => w
    | some s =>
      match rewrapSweep false keyring s with
      | .ok (.ok op) => w.advance (op.next atMS s)
      | _ => w
  | .resume j i atMS answer =>
    match w.sweeps[j]?, w.view i with
    | some (op, item), some s =>
      { w with sweeps := w.sweeps.eraseIdx j }.advance ((op.rewrapped item answer).next atMS s)
    | _, _ => w
  | .commit j =>
    match w.proposed[j]? with
    | none => w
    | some p => w.apply p
  | .other p => if isOther p then w.apply p else w

def run (es : List KeyEvent) : KeyWorld := es.foldl step { store := newStore }

end KeyWorld

/-- A sweep of the run has the master key. -/
def SweepKey (es : List KeyEvent) (kek : KEK) : Prop :=
  ∃ i keyring atMS fp, .sweep i keyring atMS ∈ es ∧ keyring fp = some kek

/-- What the call wrapped opens under a master key to the same data key, or not
at all. -/
def WrapCall.AuthenticUnder [Stream.Gcm] (c : WrapCall) (kek : KEK) : Prop :=
  ∀ dek ∈ (c.kek.wrap c.dek c.nonce).bind kek.unwrap, dek = c.dek

/-! ## One key for each row -/

variable {p : Proposal}

section Invariant

variable [Stream.Gcm] (K : KEK → Prop)

/-- No master key of the sweeps `K` opens the bytes to another key. -/
def Wrapped (dek : DEK) (wrapped : Bytes) : Prop :=
  ∀ kek, K kek → ∀ dek', kek.unwrap wrapped = some dek' → dek' = dek

abbrev RowKeys := Bytes → Bytes → VersionID → Option DEK

/-- The address belongs to a PUT with this key, or to a re-encoding of the
row. -/
def Owned (mints : List Mint) (b k : Bytes) (vid id : VersionID) (dek : DEK) : Prop :=
  ⟨id, .object (some dek)⟩ ∈ mints ∨ ⟨id, .moved b k vid⟩ ∈ mints

/-- An encrypted version has the key of its row. -/
def EntryKey (key : RowKeys) (mints : List Mint) (b k : Bytes) (vid : VersionID)
    (e : VersionEntry) : Prop :=
  isEncrypted e = true →
    ∃ dek, key b k vid = some dek ∧ Wrapped K dek e.wrappedDEK ∧ Owned mints b k vid e.dataID dek

def ProposalKey (key : RowKeys) (mints : List Mint) : Proposal → Prop
  | .putObject q => q.encAlgorithm = encNone ∨
      ∃ dek, ⟨q.versionID, .object (some dek)⟩ ∈ mints ∧ Wrapped K dek q.wrappedDEK
  | .reEncodeObject q => ⟨q.dataID, .moved q.bucket q.key q.versionID⟩ ∈ mints
  | .rewrapDEK q => ∃ dek, key q.bucket q.key q.versionID = some dek ∧ Wrapped K dek q.wrappedDEK
  | p => p.removes = false

/-- The nonce of a call comes from an address that belongs to its key. -/
def CallKey (key : RowKeys) (mints : List Mint) (c : WrapCall) : Prop :=
  ∃ b k vid id, c.nonce = wrapNonce id ∧
    (⟨id, .object (some c.dek)⟩ ∈ mints ∨
      ⟨id, .moved b k vid⟩ ∈ mints ∧ key b k vid = some c.dek)

/-- Every version of the store has the key of its row. -/
def StoreKeys (key : RowKeys) (mints : List Mint) (s : Store) : Prop :=
  ∀ ⦃b k vid e⦄, versionAt s b k vid = some e → EntryKey K key mints b k vid e

/-- What holds of everything that is not in the store. -/
structure InFlight (key : RowKeys) (mints : List Mint) (w : KeyWorld) : Prop where
  past : ∀ s ∈ w.past, StoreKeys K key mints s
  puts : ∀ p ∈ w.puts, p.2.vid.IsUUIDv7 ∧ (p.2.encAlg = encNone ∨
    ∃ dek, ⟨p.2.vid, .object (some dek)⟩ ∈ mints ∧ Wrapped K dek p.2.wrappedDEK)
  sweeps : ∀ p ∈ w.sweeps, K p.1.oldKEK ∧ ∀ item ∈ p.1.work, isEncrypted item.entry = true ∧
    EntryKey K key mints item.bucket item.key item.entry.versionID item.entry
  proposed : ∀ p ∈ w.proposed, p.MintsUUIDv7 ∧ ProposalKey K key mints p
  calls : ∀ c ∈ w.calls, CallKey key mints c

structure KeyInv (key : RowKeys) (n : Nat) (w : KeyWorld) : Prop extends
    InFlight K key w.mints w where
  sound : Sound n w.store
  named : Named w.store
  based : ∀ s ∈ w.past, Meta.Base s ∧ Named s
  /-- No identifier at or below that of a row with a key is given again. -/
  below : ∀ ⦃b k vid dek⦄, key b k vid = some dek →
    ∃ vid' e, vid.toNat ≤ vid'.toNat ∧ versionAt w.store b k vid' = some e
  store : StoreKeys K key w.mints w.store

def RowKeys.insert (key : RowKeys) (b k : Bytes) (vid : VersionID) (dek : DEK) : RowKeys :=
  fun b' k' vid' => if b' = b ∧ k' = k ∧ vid' = vid then some dek else key b' k' vid'

def RowKeys.Extends (key key' : RowKeys) : Prop :=
  ∀ ⦃b k vid dek⦄, key b k vid = some dek → key' b k vid = some dek

variable {K}

section Growth

variable {key key' : RowKeys} {mints mints' : List Mint} {b k : Bytes} {vid id : VersionID}

omit [Stream.Gcm] in
theorem Owned.mono {dek : DEK} (h : Owned mints b k vid id dek) (hmints : mints ⊆ mints') :
    Owned mints' b k vid id dek :=
  h.imp (fun h => hmints h) (fun h => hmints h)

theorem EntryKey.mono {e : VersionEntry} (h : EntryKey K key mints b k vid e)
    (hkey : key.Extends key') (hmints : mints ⊆ mints') : EntryKey K key' mints' b k vid e := by
  intro henc
  obtain ⟨dek, hrow, hwrapped, howned⟩ := h henc
  exact ⟨dek, hkey hrow, hwrapped, howned.mono hmints⟩

theorem ProposalKey.mono (h : ProposalKey K key mints p) (hkey : key.Extends key')
    (hmints : mints ⊆ mints') : ProposalKey K key' mints' p := by
  cases p with
  | putObject q =>
    rcases h with hnone | ⟨dek, hmint, hwrapped⟩
    · exact Or.inl hnone
    · exact Or.inr ⟨dek, hmints hmint, hwrapped⟩
  | reEncodeObject q => exact hmints h
  | rewrapDEK q =>
    obtain ⟨dek, hrow, hwrapped⟩ := h
    exact ⟨dek, hkey hrow, hwrapped⟩
  | _ => exact h

omit [Stream.Gcm] in
theorem CallKey.mono (h : CallKey key mints c) (hkey : key.Extends key') (hmints : mints ⊆ mints') :
    CallKey key' mints' c := by
  obtain ⟨b, k, vid, id, hnonce, hid⟩ := h
  refine ⟨b, k, vid, id, hnonce, ?_⟩
  rcases hid with hobject | ⟨hmoved, hrow⟩
  · exact Or.inl (hmints hobject)
  · exact Or.inr ⟨hmints hmoved, hkey hrow⟩

theorem InFlight.mono {w : KeyWorld} (h : InFlight K key mints w) (hkey : key.Extends key')
    (hmints : mints ⊆ mints') : InFlight K key' mints' w where
  past := fun s hs b k vid e hver => (h.past s hs hver).mono hkey hmints
  puts := fun p hp => by
    obtain ⟨hvid, hnone | ⟨dek, hmint, hwrapped⟩⟩ := h.puts p hp
    · exact ⟨hvid, Or.inl hnone⟩
    · exact ⟨hvid, Or.inr ⟨dek, hmints hmint, hwrapped⟩⟩
  sweeps := fun p hp => ⟨(h.sweeps p hp).1, fun item hitem =>
    ⟨((h.sweeps p hp).2 item hitem).1, ((h.sweeps p hp).2 item hitem).2.mono hkey hmints⟩⟩
  proposed := fun p hp => ⟨(h.proposed p hp).1, (h.proposed p hp).2.mono hkey hmints⟩
  calls := fun c hc => (h.calls c hc).mono hkey hmints

end Growth

omit [Stream.Gcm] in
theorem RowKeys.Extends.refl (key : RowKeys) : key.Extends key := fun _ _ _ _ h => h

end Invariant

/-! ## One event -/

section Step

variable [Stream.Gcm] {K : KEK → Prop}
variable {key : RowKeys} {n : Nat} {w : KeyWorld}

theorem keyInv_init : KeyInv K (fun _ _ _ => none) 0 { store := newStore } where
  sound := sound_newStore
  named := fun b cfg h => by simp [bucketAt, look, newStore] at h
  based := List.forall_mem_nil _
  below := fun b k vid dek h => by cases h
  store := fun b k vid e h => by simp [versionAt, look, newStore] at h
  past := List.forall_mem_nil _
  puts := List.forall_mem_nil _
  sweeps := List.forall_mem_nil _
  proposed := List.forall_mem_nil _
  calls := List.forall_mem_nil _

theorem KeyInv.succ (h : KeyInv K key n w) : KeyInv K key (n + 1) w :=
  { h with
    sound := ⟨h.sound.base, fun b k vid e hver => by
      have hlt := h.sound.fresh hver
      omega, h.sound.indexed⟩ }

theorem KeyInv.mint (h : KeyInv K key n w) (m : Mint) :
    KeyInv K key n { w with mints := w.mints ++ [m] } := by
  have hmints : w.mints ⊆ w.mints ++ [m] := List.subset_append_left _ _
  have hkey := RowKeys.Extends.refl key
  have hflight := h.toInFlight.mono hkey hmints
  exact { hflight, h with store := fun b k vid e hver => (h.store hver).mono hkey hmints }

theorem KeyInv.propose (h : KeyInv K key n w) (hids : p.MintsUUIDv7)
    (hprop : ProposalKey K key w.mints p) :
    KeyInv K key n { w with proposed := w.proposed ++ [p] } :=
  { h with
    proposed := List.forall_mem_append.mpr
      ⟨h.proposed, List.forall_mem_singleton.mpr ⟨hids, hprop⟩⟩ }

theorem KeyInv.call (h : KeyInv K key n w) {calls : List WrapCall}
    (hcalls : ∀ c ∈ calls, CallKey key w.mints c) :
    KeyInv K key n { w with calls := w.calls ++ calls } :=
  { h with calls := List.forall_mem_append.mpr ⟨h.calls, hcalls⟩ }

theorem WrapCall.AuthenticUnder.wrapped (h : ∀ kek, K kek → c.AuthenticUnder kek)
    {wrapped : Bytes} (hwrap : c.kek.wrap c.dek c.nonce = some wrapped) :
    Wrapped K c.dek wrapped := by
  intro kek hkek dek hdek
  refine h kek hkek dek ?_
  rw [hwrap]
  exact hdek

theorem KeyInv.put (h : KeyInv K key n w) {env : PutEnv} (call : PutCall)
    (hvid : env.vid.IsUUIDv7)
    (hauth : ∀ c ∈ (w.put env call).calls, ∀ kek, K kek → c.AuthenticUnder kek) :
    KeyInv K key n (w.put env call) := by
  have hmint := h.mint ⟨env.vid, .object (((putCalls env call.size).head?).map (·.dek))⟩
  have hkeys : ∀ c ∈ putCalls env call.size, CallKey key
      (w.mints ++ [⟨env.vid, .object (((putCalls env call.size).head?).map (·.dek))⟩]) c := by
    intro c hc
    obtain ⟨heq, hhead⟩ := putCalls_eq hc
    refine ⟨[], [], env.vid, env.vid, by rw [heq], Or.inl ?_⟩
    rw [hhead]
    exact List.mem_append_right _ List.mem_cons_self
  have hcalls := hmint.call hkeys
  exact
    { hcalls with
      puts := fun p hp => by
        rcases List.mem_append.mp hp with hp | hp
        · exact hcalls.puts p hp
        obtain ⟨setup, hsetup, rfl⟩ := List.mem_map.mp hp
        cases hresult : setupPut env call.size with
        | error e =>
          rw [hresult] at hsetup
          cases hsetup
        | ok setup' =>
          rw [hresult] at hsetup
          obtain rfl : setup = setup' := by simpa [Except.toOption] using hsetup
          obtain ⟨hid, hkey⟩ := setupPut_key hresult
          refine ⟨hid ▸ hvid, hkey.imp id ?_⟩
          rintro ⟨dek, hcall, hwrap⟩
          have hmints : (w.put env call).mints =
              w.mints ++ [⟨env.vid, .object (((putCalls env call.size).head?).map (·.dek))⟩] := rfl
          have hmem : ⟨env.kek, dek, wrapNonce env.vid⟩ ∈ (w.put env call).calls :=
            List.mem_append_right _ (by rw [hcall]; exact List.mem_cons_self)
          refine ⟨dek, ?_, WrapCall.AuthenticUnder.wrapped (hauth _ hmem) hwrap⟩
          rw [hid, hmints, hcall]
          exact List.mem_append_right _ List.mem_cons_self }

theorem KeyInv.putDone (h : KeyInv K key n w) {call : PutCall} (hput : (call, setup) ∈ w.puts)
    (etag objSum : Bytes) (sums : List Bytes) :
    KeyInv K key n { w with proposed := w.proposed ++
      [putProposal call setup etag objSum sums] } := by
  obtain ⟨hvid, hkey⟩ := h.puts _ hput
  apply h.propose
  · unfold putProposal
    split
    · exact List.forall_mem_singleton.mpr hvid
    · exact List.forall_mem_nil _
  · unfold putProposal
    split
    · exact hkey
    · exact rfl

/-! ### Sweeps -/

/-- The items of a sweep have the keys of their rows. -/
def WorkKeys (K : KEK → Prop) (key : RowKeys) (mints : List Mint) (work : List SweepItem) : Prop :=
  ∀ item ∈ work, isEncrypted item.entry = true ∧
    EntryKey K key mints item.bucket item.key item.entry.versionID item.entry

variable {mints : List Mint} {s : Store}

theorem workKeys_of_collect (hs : Meta.Base s) (hn : Named s) (hstore : StoreKeys K key mints s)
    {items : List SweepItem} (h : collectEncrypted s = .ok items) : WorkKeys K key mints items := by
  intro item hitem
  obtain ⟨hver, henc⟩ := (Base.mem_collectEncrypted hs hn h).mp hitem
  exact ⟨henc, hstore hver⟩

variable {op : RewrapOp}

omit [Stream.Gcm] in
theorem rewrapSweep_work {keyring : UInt64 → Option KEK}
    (h : rewrapSweep false keyring s = .ok (.ok op)) :
    collectEncrypted s = .ok op.work ∧ ∃ fp, keyring fp = some op.oldKEK := by
  unfold rewrapSweep at h
  rw [if_neg (by decide)] at h
  obtain ⟨post, -, h⟩ := bind_eq_ok_iff.mp h
  dsimp only at h
  split at h
  · cases h
  split at h
  · cases h
  · cases h
  · rename_i oldKEK newKEK hold _
    obtain ⟨work, hwork, h⟩ := bind_eq_ok_iff.mp h
    cases h
    exact ⟨hwork, _, (Option.filter_eq_some_iff.mp hold).1⟩

theorem KeyInv.view (h : KeyInv K key n w) {i : Nat} (hview : w.view i = some s) :
    Meta.Base s ∧ Named s ∧ StoreKeys K key w.mints s := by
  rcases List.mem_append.mp (List.mem_of_getElem? hview) with hpast | hnow
  · exact ⟨(h.based s hpast).1, (h.based s hpast).2, h.past s hpast⟩
  · rw [List.mem_singleton.mp hnow]
    exact ⟨h.sound.base, h.named, h.store⟩

theorem KeyInv.advance (h : KeyInv K key n w) (hold : K op.oldKEK)
    (hwork : WorkKeys K key w.mints op.work) (atMS : Int64) (s : Store)
    (hauth : ∀ c ∈ (w.advance (op.next atMS s)).calls, ∀ kek, K kek → c.AuthenticUnder kek) :
    KeyInv K key n (w.advance (op.next atMS s)) := by
  cases hnext : op.next atMS s with
  | error e => exact h
  | ok r =>
    obtain ⟨calls, step⟩ := r
    obtain ⟨hwraps, hproposes⟩ := RewrapOp.nextItems_spec hnext
    have hkeys : ∀ c ∈ calls, CallKey key w.mints c := by
      intro c hc
      obtain ⟨item, hitem, hunwrap, -, hnonce⟩ := hwraps c hc
      obtain ⟨henc, hentry⟩ := hwork item hitem
      obtain ⟨dek, hrow, hwrapped, howned⟩ := hentry henc
      have hdek : c.dek = dek := hwrapped op.oldKEK hold c.dek hunwrap
      refine ⟨item.bucket, item.key, item.entry.versionID, item.entry.dataID, hnonce, ?_⟩
      rw [hdek]
      exact howned.imp id (fun hmoved => ⟨hmoved, hrow⟩)
    have hcalls := h.call hkeys
    cases step with
    | done report => exact hcalls
    | complete op' p =>
      exact hcalls.propose (List.forall_mem_nil _) rfl
    | rewrap op' item p =>
      obtain ⟨hitem, hsubset, hkek, ⟨dek', hunwrap, hwrap, hcall⟩, hb, hk, hvid⟩ :=
        hproposes op' item p rfl
      obtain ⟨henc, hentry⟩ := hwork item hitem
      obtain ⟨dek, hrow, hwrapped, -⟩ := hentry henc
      obtain rfl : dek' = dek := hwrapped op.oldKEK hold dek' hunwrap
      rw [hnext] at hauth
      have hprop : ProposalKey K key w.mints (.rewrapDEK p) :=
        ⟨dek', by rw [hb, hk, hvid]; exact hrow,
          WrapCall.AuthenticUnder.wrapped (hauth _ (List.mem_append_right _ hcall)) hwrap⟩
      have hproposed := hcalls.propose (p := .rewrapDEK p)
        (List.forall_mem_nil _) hprop
      exact
        { hproposed with
          sweeps := List.forall_mem_append.mpr
            ⟨h.sweeps, List.forall_mem_singleton.mpr
              ⟨hkek ▸ hold, fun i hi => hwork i (hsubset hi)⟩⟩ }

/-! ### Commits -/

theorem KeyInv.key_bumpedID (h : KeyInv K key n w) (hn : n < 2 ^ 79) (b k : Bytes)
    (minted : VersionID) : key b k (bumpedID minted (versionList w.store b k).head?) = none := by
  cases hkey : key b k (bumpedID minted (versionList w.store b k).head?) with
  | none => rfl
  | some dek =>
    obtain ⟨vid', e, hle, hver⟩ := h.below hkey
    obtain ⟨hb, hk, -⟩ := h.sound.base.typed.of_versionAt hver
    have hlt := h.sound.fresh.lt_bumpedID hn h.sound.base.typed hb hk minted hver
    omega

/-- The keys after a commit: a new row gets the key of its PUT. -/
structure NewKeys (K : KEK → Prop) (key key' : RowKeys) (mints : List Mint) (p : Proposal)
    (s s' : Store) : Prop where
  grown : key.Extends key'
  present : ∀ ⦃b k vid dek⦄, key' b k vid = some dek →
    key b k vid = some dek ∨ ∃ e, versionAt s' b k vid = some e
  put : ∀ ⦃q vid e⦄, p = .putObject q → vid = bumpedID q.versionID
    (versionList s q.bucket q.key).head? → versionAt s' q.bucket q.key vid = some e →
      q.encAlgorithm ≠ encNone → ∃ dek, key' q.bucket q.key vid = some dek ∧
        ⟨q.versionID, .object (some dek)⟩ ∈ mints ∧ Wrapped K dek q.wrappedDEK

theorem KeyInv.newKeys (h : KeyInv K key n w) (hn : n < 2 ^ 79)
    (hprop : ProposalKey K key w.mints p) :
    ∃ key', NewKeys K key key' w.mints p w.store (applyMem w.store p).2 := by
  have hkeep : (∀ q, p = .putObject q → ∀ vid e, vid = bumpedID q.versionID
      (versionList w.store q.bucket q.key).head? →
      versionAt (applyMem w.store p).2 q.bucket q.key vid = some e → q.encAlgorithm = encNone) →
      ∃ key', NewKeys K key key' w.mints p w.store (applyMem w.store p).2 := fun hnone =>
    ⟨key, RowKeys.Extends.refl key, fun b k vid dek hkey => Or.inl hkey,
      fun q vid e hp hid hver henc => absurd (hnone q hp vid e hid hver) henc⟩
  cases p with
  | putObject q =>
    rcases hprop with hnone | ⟨dek, hmint, hwrapped⟩
    · refine hkeep (fun q' hq vid e _ _ => ?_)
      cases hq
      exact hnone
    generalize hid : bumpedID q.versionID (versionList w.store q.bucket q.key).head? = vid
    cases hver : versionAt (applyMem w.store (.putObject q)).2 q.bucket q.key vid with
    | none =>
      refine hkeep (fun q' hq vid' e hvid' hver' => ?_)
      cases hq
      rw [hvid', hid, hver] at hver'
      cases hver'
    | some e =>
      -- the one new row
      have hfree := h.key_bumpedID hn q.bucket q.key q.versionID
      rw [hid] at hfree
      refine ⟨key.insert q.bucket q.key vid dek, ?_, ?_, ?_⟩
      · intro b' k' vid' dek' hkey
        by_cases hrow : b' = q.bucket ∧ k' = q.key ∧ vid' = vid
        · obtain ⟨rfl, rfl, rfl⟩ := hrow
          rw [hfree] at hkey
          cases hkey
        · rw [RowKeys.insert, if_neg hrow]
          exact hkey
      · intro b' k' vid' dek' hkey
        unfold RowKeys.insert at hkey
        split at hkey
        · rename_i hrow
          obtain ⟨rfl, rfl, rfl⟩ := hrow
          exact Or.inr ⟨e, hver⟩
        · exact Or.inl hkey
      · intro q' vid' e' hq hvid' _ _
        cases hq
        exact ⟨dek, if_pos ⟨rfl, rfl, hvid'.trans hid⟩, hmint, hwrapped⟩
  | _ => exact hkeep (fun q hq => by cases hq)

theorem ProposalKey.removes_eq (h : ProposalKey K key mints p) : p.removes = false := by
  cases p with
  | putObject | reEncodeObject | rewrapDEK => rfl
  | _ => exact h

theorem KeyInv.store_apply (h : KeyInv K key n w) {key' : RowKeys}
    (hprop : ProposalKey K key w.mints p)
    (hkeys : NewKeys K key key' w.mints p w.store (applyMem w.store p).2) :
    StoreKeys K key' w.mints (applyMem w.store p).2 := by
  intro b k vid e hver
  cases origin_applyMem h.sound.base.typed hver with
  | kept hold => exact (h.store hold).mono hkeys.grown (List.Subset.refl _)
  | committed hnew minted hminted hb hk hid =>
    cases hnew with
    | put q cfg hp htarget he =>
      subst hp
      obtain ⟨rfl, rfl⟩ := htarget
      intro henc
      have hq : q.encAlgorithm ≠ encNone := by
        rw [he] at henc
        simp only [isEncrypted, putEntry, decide_eq_true_eq] at henc
        exact henc.2.2
      rw [List.mem_singleton.mp hminted] at hid
      obtain ⟨dek, hrow, hmint, hwrapped⟩ := hkeys.put rfl hid hver hq
      refine ⟨dek, hrow, ?_, Or.inl ?_⟩
      · rw [he]
        exact hwrapped
      · rw [he]
        exact hmint
    | marker q cfg hp htarget he =>
      intro henc
      rw [he] at henc
      simp [isEncrypted, markerEntry, kindDeleteMarker, kindObject] at henc
    | completed q cfg upload parts hp htarget he =>
      intro henc
      rw [he] at henc
      simp [isEncrypted, completeEntry] at henc
  | rewritten e₀ hold hnew =>
    have hentry := (h.store hold).mono hkeys.grown (List.Subset.refl _)
    cases hnew with
    | retention q _ _ _ he | hold q _ he =>
      subst he
      exact hentry
    | reEncoded q htarget _ he =>
      subst he
      obtain ⟨rfl, rfl, rfl⟩ := htarget
      intro henc
      obtain ⟨dek, hrow, hwrapped, -⟩ := hentry henc
      exact ⟨dek, hrow, hwrapped, Or.inr hprop⟩
    | rewrapped q htarget he =>
      subst he
      obtain ⟨rfl, rfl, rfl⟩ := htarget
      intro henc
      obtain ⟨dek, hrow, -, howned⟩ := hentry henc
      obtain ⟨dek', hrow', hwrapped'⟩ := hprop
      have hsame : dek' = dek := Option.some.inj ((hkeys.grown hrow').symm.trans hrow)
      exact ⟨dek, hrow, hsame ▸ hwrapped', howned⟩

theorem KeyInv.apply (h : KeyInv K key n w) (hn : n < 2 ^ 79) (hids : p.MintsUUIDv7)
    (hprop : ProposalKey K key w.mints p) : ∃ key', KeyInv K key' (n + 1) (w.apply p) := by
  obtain ⟨key', hkeys⟩ := h.newKeys hn hprop
  have hgrown := hkeys.grown
  have hsame := List.Subset.refl w.mints
  have hflight := h.toInFlight.mono hgrown hsame
  refine ⟨key', ?_⟩
  exact
    { hflight with
      sound := sound_applyMem h.sound hn hids
      named := named_applyMem h.sound.base h.named p
      based := List.forall_mem_append.mpr
        ⟨h.based, List.forall_mem_singleton.mpr ⟨h.sound.base, h.named⟩⟩
      below := fun b k vid dek hkey => by
        rcases hkeys.present hkey with hold | ⟨e, hver⟩
        · obtain ⟨vid', e, hle, hver⟩ := h.below hold
          obtain ⟨vid'', e', hle', hver'⟩ := exists_newer_applyMem h.sound.base.typed
            h.sound.fresh hn hprop.removes_eq hver
          exact ⟨vid'', e', Nat.le_trans hle hle', hver'⟩
        · exact ⟨vid, e, Nat.le_refl _, hver⟩
      store := h.store_apply hprop hkeys
      past := List.forall_mem_append.mpr ⟨hflight.past, List.forall_mem_singleton.mpr
        fun b k vid e hver => (h.store hver).mono hgrown hsame⟩ }

theorem proposalKey_of_isOther (h : isOther p = true) : ProposalKey K key mints p := by
  cases p with
  | putObject | uploadPart | reEncodeObject | rewrapDEK | deleteObject | deleteVersion => cases h
  | _ => exact rfl

theorem KeyInv.step (h : KeyInv K key n w) (hn : n < 2 ^ 79) (ev : KeyEvent)
    (hids : ∀ v ∈ ev.versionIDs, v.IsUUIDv7) (hkeys : ∀ kek, SweepKey [ev] kek → K kek)
    (hauth : ∀ c ∈ (w.step ev).calls, ∀ kek, K kek → c.AuthenticUnder kek) :
    ∃ key', KeyInv K key' (n + 1) (w.step ev) := by
  cases ev with
  | put env call => exact ⟨key, (h.put call (hids _ List.mem_cons_self) hauth).succ⟩
  | putDone j etag objSum sums =>
    refine ⟨key, ?_⟩
    rw [KeyWorld.step]
    split
    · exact h.succ
    · rename_i call setup hput
      exact (h.putDone (List.mem_of_getElem? hput) etag objSum sums).succ
  | reEncode q =>
    have hmint := h.mint ⟨q.dataID, .moved q.bucket q.key q.versionID⟩
    exact ⟨key, (hmint.propose (p := .reEncodeObject q) (List.forall_mem_nil _)
      (List.mem_append_right _ List.mem_cons_self)).succ⟩
  | sweep i keyring atMS =>
    refine ⟨key, ?_⟩
    rw [KeyWorld.step] at hauth ⊢
    split at hauth
    · exact h.succ
    rename_i s hview
    split at hauth
    · rename_i op hop
      obtain ⟨hbase, hnamed, hstore⟩ := h.view hview
      obtain ⟨hcollect, fp, hkek⟩ := rewrapSweep_work hop
      exact (h.advance (hkeys _ ⟨i, keyring, atMS, fp, List.mem_cons_self, hkek⟩)
        (workKeys_of_collect hbase hnamed hstore hcollect) atMS s hauth).succ
    · exact h.succ
  | resume j i atMS answer =>
    refine ⟨key, ?_⟩
    rw [KeyWorld.step] at hauth ⊢
    split at hauth
    · rename_i op item s hsweep hview
      have herase : KeyInv K key n { w with sweeps := w.sweeps.eraseIdx j } :=
        { h with sweeps := fun q hq => h.sweeps q (List.mem_of_mem_eraseIdx hq) }
      have hsame : (op.rewrapped item answer).oldKEK = op.oldKEK ∧
          (op.rewrapped item answer).work = op.work := by cases answer <;> exact ⟨rfl, rfl⟩
      obtain ⟨hold, hwork⟩ := h.sweeps _ (List.mem_of_getElem? hsweep)
      exact (herase.advance (hsame.1 ▸ hold) (hsame.2 ▸ hwork) atMS s hauth).succ
    · exact h.succ
  | commit j =>
    rw [KeyWorld.step]
    split
    · exact ⟨key, h.succ⟩
    · rename_i p hp
      obtain ⟨hids', hprop⟩ := h.proposed p (List.mem_of_getElem? hp)
      exact h.apply hn hids' hprop
  | other p =>
    rw [KeyWorld.step]
    split
    · rename_i hother
      exact h.apply hn hids (proposalKey_of_isOther hother)
    · exact ⟨key, h.succ⟩

end Step

/-! ## Whole runs -/

section Runs

variable [Stream.Gcm]

theorem step_grows (w : KeyWorld) (ev : KeyEvent) :
    (w.step ev).mints.map Mint.id = w.mints.map Mint.id ++ ev.minted ∧
      w.calls ⊆ (w.step ev).calls := by
  have hsame : ∀ w' : KeyWorld, w'.mints = w.mints → w.calls ⊆ w'.calls →
      w'.mints.map Mint.id = w.mints.map Mint.id ++ [] ∧ w.calls ⊆ w'.calls := fun w' hmints h =>
    ⟨by rw [hmints, List.append_nil], h⟩
  have hadvance : ∀ (w : KeyWorld) r, (w.advance r).mints = w.mints ∧
      w.calls ⊆ (w.advance r).calls := by
    intro w r
    match r with
    | .error _ => exact ⟨rfl, List.Subset.refl _⟩
    | .ok (_, .rewrap _ _ _) | .ok (_, .complete _ _) | .ok (_, .done _) =>
      exact ⟨rfl, List.subset_append_left _ _⟩
  cases ev with
  | put env call => exact ⟨List.map_append, List.subset_append_left _ _⟩
  | reEncode q => exact ⟨List.map_append, List.Subset.refl _⟩
  | putDone j etag objSum sums | commit j | other p =>
    rw [KeyWorld.step]
    split <;> exact hsame _ rfl (List.Subset.refl _)
  | sweep i keyring atMS =>
    rw [KeyWorld.step]
    split
    · exact hsame _ rfl (List.Subset.refl _)
    split
    · exact hsame _ (hadvance _ _).1 (hadvance _ _).2
    · exact hsame _ rfl (List.Subset.refl _)
  | resume j i atMS answer =>
    rw [KeyWorld.step]
    split
    · obtain ⟨hmints, hcalls⟩ := hadvance { w with sweeps := w.sweeps.eraseIdx j } _
      exact hsame _ hmints hcalls
    · exact hsame _ rfl (List.Subset.refl _)

theorem run_concat (es : List KeyEvent) (ev : KeyEvent) :
    KeyWorld.run (es ++ [ev]) = (KeyWorld.run es).step ev := List.foldl_append

theorem mints_run (es : List KeyEvent) :
    (KeyWorld.run es).mints.map Mint.id = es.flatMap KeyEvent.minted := by
  induction es using List.reverseRecOn with
  | nil => rfl
  | append_singleton es ev ih =>
    rw [run_concat, (step_grows _ ev).1, ih, List.flatMap_append, List.flatMap_singleton]

theorem keyInv_run {K : KEK → Prop} (es : List KeyEvent) (hn : es.length ≤ 2 ^ 79)
    (hids : ∀ ev ∈ es, ∀ v ∈ ev.versionIDs, v.IsUUIDv7) (hkeys : ∀ kek, SweepKey es kek → K kek)
    (hauth : ∀ c ∈ (KeyWorld.run es).calls, ∀ kek, K kek → c.AuthenticUnder kek) :
    ∃ key, KeyInv K key es.length (KeyWorld.run es) := by
  induction es using List.reverseRecOn with
  | nil => exact ⟨_, keyInv_init⟩
  | append_singleton es ev ih =>
    rw [List.length_append, List.length_singleton] at hn ⊢
    rw [run_concat] at hauth ⊢
    obtain ⟨key, hinv⟩ := ih (by omega) (fun e he => hids e (List.mem_append_left _ he))
      (fun kek hkek => by
        obtain ⟨i, keyring, atMS, fp, hmem, hfp⟩ := hkek
        exact hkeys kek ⟨i, keyring, atMS, fp, List.mem_append_left _ hmem, hfp⟩)
      (fun c hc => hauth c ((step_grows _ ev).2 hc))
    refine hinv.step (by omega) ev (hids ev (List.mem_append_right _ List.mem_cons_self)) ?_ hauth
    rintro kek ⟨i, keyring, atMS, fp, hmem, hfp⟩
    exact hkeys kek ⟨i, keyring, atMS, fp, List.mem_append_right _ hmem, hfp⟩

omit [Stream.Gcm] in
theorem mint_eq_of_nonce {mints : List Mint} (h : (mints.map (wrapNonce ·.id)).Nodup) {m m' : Mint}
    (hm : m ∈ mints) (hm' : m' ∈ mints) (hnonce : wrapNonce m.id = wrapNonce m'.id) : m = m' :=
  List.inj_on_of_nodup_map h hm hm' hnonce

/-- In every run of PUTs, parts, re-encodings and rewrap sweeps in which the
minted addresses differ in their first twelve bytes, and no wrapped key opens
under a master key of a sweep to another one, no nonce is used with two data
keys under one master key. -/
theorem nonces_not_reused (es : List KeyEvent) (hn : es.length ≤ 2 ^ 79)
    (hids : ∀ ev ∈ es, ∀ v ∈ ev.versionIDs, v.IsUUIDv7)
    (hnonces : ((es.flatMap KeyEvent.minted).map wrapNonce).Nodup)
    (hauth : ∀ c ∈ (KeyWorld.run es).calls, ∀ kek, SweepKey es kek → c.AuthenticUnder kek) :
    ∀ c ∈ (KeyWorld.run es).calls, ∀ c' ∈ (KeyWorld.run es).calls,
      c.kek = c'.kek → c.nonce = c'.nonce → c.dek = c'.dek := by
  obtain ⟨key, hinv⟩ := keyInv_run es hn hids (fun _ h => h) hauth
  rw [← mints_run, List.map_map] at hnonces
  intro c hc c' hc' _ hnonce
  obtain ⟨b, k, vid, id, hid, howner⟩ := hinv.calls c hc
  obtain ⟨b', k', vid', id', hid', howner'⟩ := hinv.calls c' hc'
  rw [hid, hid'] at hnonce
  -- the two calls share a nonce, so their addresses are one mint
  rcases howner with hobject | ⟨hmoved, hrow⟩
  · rcases howner' with hobject' | ⟨hmoved', -⟩
    · have hmint := mint_eq_of_nonce hnonces hobject hobject' hnonce
      simp only [Mint.mk.injEq, MintUse.object.injEq, Option.some.injEq] at hmint
      exact hmint.2
    · cases mint_eq_of_nonce hnonces hobject hmoved' hnonce
  · rcases howner' with hobject' | ⟨hmoved', hrow'⟩
    · cases mint_eq_of_nonce hnonces hmoved hobject' hnonce
    · cases mint_eq_of_nonce hnonces hmoved hmoved' hnonce
      exact Option.some.inj (hrow.symm.trans hrow')

end Runs

/-! ## Two PUTs of one millisecond -/

section Concrete

/-- A stand-in for AES-GCM, whose tag is half of the key. -/
local instance nonceGcm : Stream.Gcm where
  aeadSeal key _ p := p ++ key.take 16
  aeadOpen key _ b :=
    if b.drop (b.length - 16) = key.take 16 then some (b.take (b.length - 16)) else none

def masterKey : KEK := KEK.load (List.replicate 32 7) rfl

def otherKey : KEK := KEK.load (List.replicate 32 8) rfl

def dataKey (b : UInt8) : DEK := ⟨List.replicate 32 b, List.length_replicate⟩

/-- An encrypted PUT on a cluster of two nodes that draws `dataKey b`. -/
def sealedEnv (vid : VersionID) (b : UInt8) : PutEnv where
  atMS := 1000
  vid := vid
  layout := some { partitionCount := 4096, members := [⟨[1], [1], [1], 1, false⟩,
    ⟨[2], [2], [2], 1, false⟩] }
  down := fun _ => false
  kek := masterKey
  encOn := true
  posture := { formatVersion := 1, algorithm := encAES256GCM }
  entropy := some (dataKey b)

def sealedCall : PutCall := { bucket := [97, 97, 97], key := [107], size := 3 }

def rotationKeys (fp : UInt64) : Option KEK :=
  if fp = otherKey.fingerprint then some otherKey else some masterKey

/-- A PUT is committed, its version is re-encoded, and a rotation rewraps
it. -/
def rotationRun : List KeyEvent :=
  [ .other (.createBucket ⟨1, [97, 97, 97], false⟩)
  , .other (.setEncryptionPosture ⟨1, encAES256GCM, masterKey.fingerprint⟩)
  , .put (sealedEnv (VersionID.newVersionID 1000 5 7) 1) sealedCall
  , .putDone 0 [] [] [[1], [2]]
  , .commit 0
  , .reEncode ⟨1001, [97, 97, 97], [107], VersionID.newVersionID 1000 5 7,
      VersionID.newVersionID 1001 0 0, 1, 1, [[3], [4]]⟩
  , .commit 1
  , .other (.beginKEKRotation ⟨1002, masterKey.fingerprint, otherKey.fingerprint⟩)
  , .sweep 5 rotationKeys 1003 ]

theorem sweepKey_rotationRun {kek : KEK} (h : SweepKey rotationRun kek) :
    kek = otherKey ∨ kek = masterKey := by
  obtain ⟨i, keyring, atMS, fp, hmem, hfp⟩ := h
  obtain rfl : keyring = rotationKeys := by
    simp only [rotationRun, List.mem_cons, List.not_mem_nil, reduceCtorEq, false_or, or_false,
      KeyEvent.sweep.injEq] at hmem
    exact hmem.2.1
  unfold rotationKeys at hfp
  split at hfp <;> cases hfp
  · exact Or.inl rfl
  · exact Or.inr rfl

theorem authentic_rotationRun : ∀ c ∈ (KeyWorld.run rotationRun).calls,
    c.AuthenticUnder otherKey ∧ c.AuthenticUnder masterKey := by
  unfold WrapCall.AuthenticUnder
  decide +kernel

theorem nonces_not_reused_rotationRun :
    (KeyWorld.run rotationRun).calls.length = 2 ∧
      ∀ c ∈ (KeyWorld.run rotationRun).calls, ∀ c' ∈ (KeyWorld.run rotationRun).calls,
        c.kek = c'.kek → c.nonce = c'.nonce → c.dek = c'.dek :=
  ⟨by decide +kernel,
    nonces_not_reused rotationRun (by decide) (by decide +kernel) (by decide +kernel)
      (fun c hc kek hkek => by
        rcases sweepKey_rotationRun hkek with rfl | rfl
        · exact (authentic_rotationRun c hc).1
        · exact (authentic_rotationRun c hc).2)⟩

/-- Two PUTs in one millisecond whose generators differ in the last draw. -/
def collidingRun : List KeyEvent :=
  [ .put (sealedEnv (VersionID.newVersionID 1000 5 7) 1) sealedCall
  , .put (sealedEnv (VersionID.newVersionID 1000 5 8) 2) sealedCall ]

/-- Their addresses differ, and the nonces of their keys do not. -/
theorem nonce_reused :
    (collidingRun.flatMap KeyEvent.minted).Nodup ∧
      (KeyWorld.run collidingRun).calls =
        [⟨masterKey, dataKey 1, wrapNonce (VersionID.newVersionID 1000 5 7)⟩,
          ⟨masterKey, dataKey 2, wrapNonce (VersionID.newVersionID 1000 5 8)⟩] ∧
      wrapNonce (VersionID.newVersionID 1000 5 7) = wrapNonce (VersionID.newVersionID 1000 5 8) ∧
      dataKey 1 ≠ dataKey 2 := by
  refine ⟨by decide +kernel, by decide +kernel, by decide +kernel, by decide +kernel⟩

end Concrete

end Hamster.Coord
