import Hamster.Meta.Eval
import Hamster.Meta.Keyspace

/-!
# What the shared steps of the apply functions do

One equation for each helper of the apply functions, over the typed view of
the store.  A caller rewrites with these and never looks at a scan or a type
assertion again.
-/

namespace Hamster.Meta

open CodeLib

variable {s' : Store}

namespace Tx

variable {α β : Type} {s : Store}

variable {f : α → Tx β} {b : β}

theorem eval_bind_ok {m : Tx α} [∀ a, (f a).Regular] (h : (m >>= f).eval s = (.ok b, s')) :
    ∃ a s₁, m.eval s = (.ok a, s₁) ∧ (f a).eval s₁ = (.ok b, s') := by
  rw [eval_bind] at h
  match hm : m.eval s with
  | (.ok a, s₁) =>
    rw [hm] at h
    exact ⟨a, s₁, rfl, h⟩
  | (.error e, s₁) =>
    rw [hm] at h
    cases h

theorem eval_failIf_ok {c : Prop} [Decidable c] {e : MetaError} {f : Unit → Tx β}
    (h : (failIf c e >>= f).eval s = (.ok b, s')) : ¬ c ∧ (f ()).eval s = (.ok b, s') := by
  rw [eval_failIf_bind] at h
  split at h
  · cases h
  · rename_i hc
    exact ⟨hc, h⟩

theorem eval_check_ok {r : Except MetaError α} (h : (check r >>= f).eval s = (.ok b, s')) :
    ∃ a, r = .ok a ∧ (f a).eval s = (.ok b, s') := by
  cases r with
  | ok a => exact ⟨a, rfl, h⟩
  | error e => cases h

theorem eval_read_ok {g : MemKV → Except MetaError α} (h : (read g >>= f).eval s = (.ok b, s')) :
    ∃ a, g s = .ok a ∧ (f a).eval s = (.ok b, s') := by
  cases hg : g s with
  | ok a =>
    rw [eval_read_bind s f hg] at h
    exact ⟨a, rfl, h⟩
  | error e =>
    rw [eval, run_read_bind_error (TxKV.start s) f hg] at h
    cases h

end Tx

open Tx

section Helpers

variable {s : Store} {b k : Bytes} {vid : VersionID}

theorem Typed.run_requireBucket (hs : Typed s) :
    (requireBucket b).run (TxKV.start s) =
      match bucketAt s b with
      | none => (.error .noSuchBucket, TxKV.start s)
      | some cfg => (.ok cfg, TxKV.start s) := by
  rw [requireBucket, run_read_bind_ok (TxKV.start s) _ hs.getBucket_eq]
  cases bucketAt s b <;> rfl

theorem requireBucket_ok {β : Type} {f : BucketConfig → Tx β} {r : β}
    (h : (requireBucket b >>= f).eval s = (.ok r, s')) :
    ∃ cfg, bucketAt s b = some cfg ∧ (f cfg).eval s = (.ok r, s') := by
  rw [eval, run_bind, requireBucket] at h
  cases hread : getBucket s b with
  | error e =>
    rw [run_read_bind_error (TxKV.start s) _ hread] at h
    cases h
  | ok o =>
    rw [run_read_bind_ok (TxKV.start s) _ hread] at h
    cases o with
    | none => cases h
    | some cfg => exact ⟨cfg, bucketAt_of_getBucket hread, h⟩

theorem Typed.eval_requireBucket_bind {β : Type} (hs : Typed s) {f : BucketConfig → Tx β}
    {cfg : BucketConfig} (hcfg : bucketAt s b = some cfg) :
    (requireBucket b >>= f).eval s = (f cfg).eval s := by
  rw [eval, run_bind, hs.run_requireBucket, hcfg]
  rfl

/-- The null version of a key, the one a null write replaces. -/
def nullEntry (s : Store) (b k : Bytes) : Option VersionEntry :=
  (versionList s b k).find? VersionEntry.nullVersion

/-- The store without the null version of a key. -/
def dropNull (s : Store) (b k : Bytes) : Store :=
  match nullEntry s b k with
  | none => s
  | some e => s.delete (versionRowKey b k e.versionID)

/-- The data of the null version, where a write replaces it. -/
def replacedIDs (s : Store) (b k : Bytes) (isNull : Bool) : List VersionID :=
  if isNull then ((nullEntry s b k).map VersionEntry.dataIDs).getD [] else []

variable {atUnixMS : Int64} {ids : List VersionID}

theorem removeNullVersion_ok (h : (removeNullVersion b k atUnixMS).eval s = (.ok ids, s')) :
    s' = dropNull s b k ∧ (∀ e ∈ nullEntry s b k, e.lockedAt atUnixMS false = false) ∧
      ids = ((nullEntry s b k).map VersionEntry.dataIDs).getD [] := by
  obtain ⟨_, hread, h⟩ := eval_read_ok h
  obtain rfl := of_nullVersion hread
  unfold dropNull nullEntry
  cases hnull : (versionList s b k).find? VersionEntry.nullVersion with
  | none =>
    simp only [hnull, eval_pure, Prod.mk.injEq, Except.ok.injEq] at h
    exact ⟨h.2.symm, by simp, h.1.symm⟩
  | some e =>
    simp only [hnull] at h
    obtain ⟨hlock, hrest⟩ := eval_failIf_ok h
    simp only [eval_delete_bind, eval_pure, Prod.mk.injEq, Except.ok.injEq] at hrest
    refine ⟨hrest.2.symm, ?_, hrest.1.symm⟩
    intro e' he'
    cases he'
    simpa using hlock

/-- What stands before a commit: the store without the null version when the
new entry is null, the store itself otherwise. -/
def commitBase (s : Store) (b k : Bytes) (isNull : Bool) : Store :=
  if isNull then dropNull s b k else s

variable {isNull : Bool}

theorem replaceNullVersion_ok (h : (replaceNullVersion b k atUnixMS isNull).eval s = (.ok ids, s'))
    : s' = commitBase s b k isNull ∧
      (isNull = true → ∀ e ∈ nullEntry s b k, e.lockedAt atUnixMS false = false) ∧
      ids = replacedIDs s b k isNull := by
  unfold replaceNullVersion at h
  cases isNull with
  | false =>
    cases h
    exact ⟨rfl, fun hfalse => absurd hfalse (by decide), rfl⟩
  | true =>
    obtain ⟨hstore, hlock, hids⟩ := removeNullVersion_ok h
    exact ⟨hstore, fun _ => hlock, hids⟩

theorem Typed.eval_replaceNullVersion (hs : Typed s) (hb : 0 ∉ b) (hk : 0 ∉ k)
    (hunlocked : isNull = true → ∀ e ∈ nullEntry s b k, e.lockedAt atUnixMS false = false) :
    (replaceNullVersion b k atUnixMS isNull).eval s =
      (.ok (replacedIDs s b k isNull), commitBase s b k isNull) := by
  unfold replaceNullVersion commitBase replacedIDs
  cases isNull with
  | false => rfl
  | true =>
    have hfree := hunlocked rfl
    simp only [if_true]
    rw [removeNullVersion, eval_read_bind s _ (hs.nullVersion_eq hb hk)]
    unfold dropNull
    unfold nullEntry at hfree ⊢
    cases hnull : (versionList s b k).find? VersionEntry.nullVersion with
    | none => rfl
    | some e =>
      have hlock := hfree e hnull
      simp [hlock]

/-- The current row that a version list calls for. -/
def derivedCurrent (l : List VersionEntry) : Option CurrentRecord :=
  match l.head? with
  | some e => if e.kind = kindObject then some (currentRecordFor e) else none
  | none => none

/-- Store or delete the current row of a key. -/
def putCurrent (s : Store) (b k : Bytes) : Option CurrentRecord → Store
  | some c => s.set (currentRowKey b k) (.currentRecord c)
  | none => s.delete (currentRowKey b k)

theorem Typed.eval_refreshCurrent (hs : Typed s) (hb : 0 ∉ b) (hk : 0 ∉ k) :
    (refreshCurrent b k).eval s =
      (.ok (), putCurrent s b k (derivedCurrent (versionList s b k))) := by
  rw [refreshCurrent, eval_read_bind s _ (hs.newestVersion_eq hb hk), derivedCurrent]
  cases (versionList s b k).head? with
  | none => rfl
  | some e =>
    by_cases hkind : e.kind = kindObject
    · simp only [if_pos hkind]
      rfl
    · simp only [if_neg hkind]
      rfl

theorem Typed.eval_refreshIfNewest (hs : Typed s) (hb : 0 ∉ b) (hk : 0 ∉ k) (wasNewest : Bool) :
    (refreshIfNewest b k wasNewest).eval s =
      (.ok (), if wasNewest then putCurrent s b k (derivedCurrent (versionList s b k)) else s) := by
  cases wasNewest with
  | true => exact hs.eval_refreshCurrent hb hk
  | false => rfl

theorem refreshIfNewest_ok {wasNewest : Bool} {r : Unit}
    (h : (refreshIfNewest b k wasNewest).eval s = (.ok r, s')) :
    s' = if wasNewest then putCurrent s b k (derivedCurrent (versionList s b k)) else s := by
  cases wasNewest with
  | false =>
    cases h
    rfl
  | true =>
    obtain ⟨_, hread, h⟩ := eval_read_ok h
    obtain rfl := of_newestVersion hread
    rw [if_pos rfl, derivedCurrent]
    cases hhead : (versionList s b k).head? with
    | none =>
      rw [hhead] at h
      cases h
      rfl
    | some e =>
      rw [hhead] at h
      by_cases hkind : e.kind = kindObject
      · simp only [hkind, if_true] at h ⊢
        cases h
        rfl
      · simp only [hkind, if_false] at h ⊢
        cases h
        rfl

variable {entry : VersionEntry}

theorem lockTarget_ok (h : (lockTarget b k vid).eval s = (.ok entry, s')) :
    s' = s ∧ versionAt s b k vid = some entry ∧ entry.kind = kindObject ∧
      ∃ cfg, bucketAt s b = some cfg ∧ cfg.objectLockEnabled = true := by
  obtain ⟨cfg, hcfg, h⟩ := requireBucket_ok h
  obtain ⟨_, -, h⟩ := eval_check_ok h
  obtain ⟨hlock, h⟩ := eval_failIf_ok h
  obtain ⟨o, hread, h⟩ := eval_read_ok h
  cases o with
  | none => cases h
  | some e =>
    obtain ⟨hkind, h⟩ := eval_failIf_ok h
    cases h
    exact ⟨rfl, versionAt_of_getVersion hread, by simpa using hkind, cfg,
      hcfg, by simpa using hlock⟩

theorem requireVersionRow_ok (h : (requireVersionRow b k vid).eval s = (.ok entry, s')) :
    s' = s ∧ versionAt s b k vid = some entry := by
  unfold requireVersionRow at h
  rw [eval_get_bind] at h
  cases hget : s.get (versionRowKey b k vid) with
  | none =>
    rw [hget] at h
    cases h
  | some v =>
    rw [hget] at h
    cases v with
    | versionEntry e =>
      cases h
      exact ⟨rfl, Option.bind_eq_some_iff.mpr ⟨_, hget, rfl⟩⟩
    | _ => cases h

end Helpers

end Hamster.Meta
