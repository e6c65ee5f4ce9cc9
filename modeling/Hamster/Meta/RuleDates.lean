import Hamster.Meta.DefaultRetention
import Mathlib.Order.Monotone.Basic

/-!
# The dates of default rules

A default rule should lock what is written under it, and a longer rule should not
unlock it earlier.  The date is computed by calendar and is then cut to 64 bits of
milliseconds, and `ApplySetObjectLockConfiguration` accepts any 32-bit number of
years.  `rule_protects_iff`: the rules of one unit up to a given one protect, in
order, exactly when the date of that one fits.

The dates of one unit grow by at most a leap year from one rule to the next
(`Steady`).  So the first date that does not fit is a negative number of
milliseconds.
-/

namespace Hamster.Meta

open CodeLib Tx

/-- Dates that grow step by step, by at most a leap year. -/
structure Steady (f : Nat → Int) : Prop where
  lt_succ : ∀ n, f n < f (n + 1)
  succ_le : ∀ n, f (n + 1) ≤ f n + 366 * dayMillis

theorem steady_days (ms : Int) : Steady (fun n => addDate ms 0 n) where
  lt_succ n := by
    rw [Nat.cast_succ, addDate_succ_day, dayMillis]
    omega
  succ_le n := by
    rw [Nat.cast_succ, addDate_succ_day, dayMillis]
    omega

theorem steady_years (ms : Int) : Steady (fun n => addDate ms n 0) where
  lt_succ n := by
    have hyear := (addDate_succ_year ms n 0).1
    rw [dayMillis] at hyear
    rw [Nat.cast_succ]
    omega
  succ_le n := by
    rw [Nat.cast_succ]
    exact (addDate_succ_year ms n 0).2

section Wrap

variable {f : Nat → Int} {at₀ : Int64} {n : Nat}

theorem Steady.toInt_ofInt (h : Steady f) (h0 : f 0 = at₀.toInt) (hat : 0 ≤ at₀.toInt)
    (hn : f n < 2 ^ 63) : (Int64.ofInt (f n)).toInt = f n := by
  have hle := (strictMono_nat_of_lt_succ h.lt_succ).monotone (Nat.zero_le n)
  exact Int64.toInt_ofInt_of_le (by omega) hn

theorem Steady.exists_wrapped (h : Steady f) (h0 : f 0 < 2 ^ 63) (hn : 2 ^ 63 ≤ f n) :
    ∃ m, 0 < m ∧ m ≤ n ∧ (Int64.ofInt (f m)).toInt < 0 := by
  have hex : ∃ m, 2 ^ 63 ≤ f m := ⟨n, hn⟩
  obtain ⟨m, hm, hleast⟩ : ∃ m, 2 ^ 63 ≤ f m ∧ ∀ k < m, f k < 2 ^ 63 :=
    ⟨Nat.find hex, Nat.find_spec hex, fun k hk => not_le.mp (Nat.find_min hex hk)⟩
  have hle : m ≤ n := not_lt.mp (fun hlt => absurd hn (not_le.mpr (hleast n hlt)))
  obtain _ | m := m
  · omega
  · refine ⟨m + 1, m.succ_pos, hle, ?_⟩
    have hstep := h.succ_le m
    have hbefore := hleast m (Nat.lt_succ_self m)
    rw [dayMillis] at hstep
    rw [Int64.toInt_ofInt, Int.bmod, Int64.size]
    split <;> omega

end Wrap

/-- Every rule up to `n`, by its date, locks after the write, and no date is before that
of a shorter rule. -/
def InOrder (atUnixMS : Int64) (date : UInt32 → Int64) (n : UInt32) : Prop :=
  ∀ m ≤ n, m ≠ 0 → atUnixMS < date m ∧ ∀ l ≤ m, date l ≤ date m

theorem Steady.inOrder_iff {f : Nat → Int} (h : Steady f) {atUnixMS : Int64}
    (h0 : f 0 = atUnixMS.toInt) (hat : 0 ≤ atUnixMS) (n : UInt32) :
    InOrder atUnixMS (fun m => Int64.ofInt (f m.toNat)) n ↔ f n.toNat < 2 ^ 63 := by
  have hmono := strictMono_nat_of_lt_succ h.lt_succ
  have hpos : 0 ≤ atUnixMS.toInt := Int64.le_iff_toInt_le.mp hat
  constructor
  · intro hdates
    by_contra hlarge
    obtain ⟨m, hm, hle, hwrapped⟩ :=
      h.exists_wrapped (h0 ▸ Int64.toInt_lt atUnixMS) (not_lt.mp hlarge)
    have hsize : m < 2 ^ 32 := lt_of_le_of_lt hle n.toNat_lt
    have hnat : (UInt32.ofNat m).toNat = m := UInt32.toNat_ofNat_of_lt hsize
    have hrule : UInt32.ofNat m ≤ n := by rwa [UInt32.le_iff_toNat_le, hnat]
    have hne : UInt32.ofNat m ≠ 0 := by
      intro hzero
      rw [hzero] at hnat
      exact hm.ne hnat
    have hlocks := (hdates _ hrule hne).1
    simp only [hnat, Int64.lt_iff_toInt_lt] at hlocks
    omega
  · intro hfits m hm hne
    have hfit : ∀ l ≤ m, f l.toNat < 2 ^ 63 := fun l hl =>
      lt_of_le_of_lt (hmono.monotone (UInt32.le_iff_toNat_le.mp (UInt32.le_trans hl hm))) hfits
    have hm0 : 0 < m.toNat := Nat.pos_of_ne_zero (fun hzero => hne (UInt32.toNat_inj.mp hzero))
    refine ⟨?_, fun l hl => ?_⟩
    · rw [Int64.lt_iff_toInt_lt, h.toInt_ofInt h0 hpos (hfit m (UInt32.le_refl m)), ← h0]
      exact hmono hm0
    · rw [Int64.le_iff_toInt_le, h.toInt_ofInt h0 hpos (hfit l hl),
        h.toInt_ofInt h0 hpos (hfit m (UInt32.le_refl m))]
      exact hmono.monotone (UInt32.le_iff_toNat_le.mp hl)

/-- The stored version is locked at the time of its write, and so it would be under every
shorter rule of the unit, for no longer. -/
structure Protects (atUnixMS : Int64) (days years : UInt32) (e : VersionEntry) : Prop where
  later : atUnixMS < e.retainUntilUnixMS
  locked : e.lockedAt atUnixMS false = true
  inDays : years = 0 → InOrder atUnixMS (fun d => retainUntilFromDefault atUnixMS d 0) days
  inYears : days = 0 → InOrder atUnixMS (fun y => retainUntilFromDefault atUnixMS 0 y) years

section Rules

variable {atUnixMS : Int64} {days years : UInt32}

theorem rule_of_accepted {s : Store} {c : SetObjectLockConfiguration}
    {r : ApplyResult} (h : (applyMem s (.setObjectLockConfiguration c)).1 = .ok r)
    (hmode : c.defaultRetentionMode ≠ retentionNone) :
    (c.defaultRetentionMode = retentionGovernance ∨ c.defaultRetentionMode = retentionCompliance) ∧
      (c.defaultRetentionDays = 0 ↔ c.defaultRetentionYears ≠ 0) := by
  obtain ⟨a, -, heval⟩ := eval_of_applyMem (fun _ => .nil) rfl h
  obtain ⟨cfg, -, heval⟩ := requireBucket_ok heval
  obtain ⟨-, heval⟩ := eval_failIf_ok heval
  obtain ⟨hvalid, -⟩ := eval_failIf_ok heval
  rw [invalidDefaultRule, if_neg hmode] at hvalid
  split_ifs at hvalid with hlock
  · refine ⟨hlock, ?_⟩
    by_cases hd : c.defaultRetentionDays = 0 <;> by_cases hy : c.defaultRetentionYears = 0 <;>
      simp_all
  · simp at hvalid

theorem lockedAt_of_lt {e : VersionEntry}
    (hmode : e.retentionMode = retentionGovernance ∨ e.retentionMode = retentionCompliance)
    (h : atUnixMS < e.retainUntilUnixMS) : e.lockedAt atUnixMS false = true := by
  rw [VersionEntry.lockedAt, if_neg (Int64.not_le.mpr h)]
  rcases hmode with hmode | hmode <;> rw [hmode] <;> split_ifs <;> first | rfl | contradiction

end Rules

def BucketConfig.HasRuleOf (cfg : BucketConfig) (c : SetObjectLockConfiguration) : Prop :=
  cfg.objectLockEnabled = true ∧ cfg.defaultRetentionMode = c.defaultRetentionMode ∧
    cfg.defaultRetentionDays = c.defaultRetentionDays ∧
    cfg.defaultRetentionYears = c.defaultRetentionYears

theorem lockable_runMem (ps : List Proposal) : Lockable (runMem newStore ps) :=
  foldl_preserves (I := Lockable) (fun _ p hs => hs.step p) ps
    ⟨typed_newStore, lockVersioned_newStore⟩

/-- A PUT under an accepted rule is protected, and so are those under the shorter rules,
exactly when the date of the rule is below `2 ^ 63` milliseconds. -/
theorem rule_protects_iff {ps qs : List Proposal} {c : SetObjectLockConfiguration}
    {r r' : ApplyResult}
    (haccepted : (applyMem (runMem newStore ps) (.setObjectLockConfiguration c)).1 = .ok r)
    (hmode : c.defaultRetentionMode ≠ retentionNone) {p : PutObject} {cfg : BucketConfig}
    (hbucket : getBucket (runMem newStore qs) p.bucket = .ok (some cfg)) (hrule : cfg.HasRuleOf c)
    (hown : p.retentionMode = retentionNone) (hat : 0 ≤ p.proposedAtUnixMS)
    (hput : (applyMem (runMem newStore qs) (.putObject p)).1 = .ok r') {vid : VersionID}
    (hvid : r'.committed = some vid) :
    ∃ e, getVersion (applyMem (runMem newStore qs) (.putObject p)).2 p.bucket p.key vid =
        .ok (some e) ∧
      (Protects p.proposedAtUnixMS c.defaultRetentionDays c.defaultRetentionYears e ↔
        addDate p.proposedAtUnixMS.toInt c.defaultRetentionYears.toNat
          c.defaultRetentionDays.toNat < 2 ^ 63) := by
  obtain ⟨hlocks, hunit⟩ := rule_of_accepted haccepted hmode
  obtain ⟨hlock, hcmode, hdays, hyears⟩ := hrule
  have hwrite : (Proposal.putObject p).unretainedWrite =
      some (p.bucket, p.key, p.proposedAtUnixMS) :=
    if_pos hown
  obtain ⟨e, hget, hemode, huntil⟩ := (lockable_runMem qs).retainsByDefault_putObject p hwrite
    hbucket ⟨hlock, hcmode ▸ hmode⟩ hput hvid
  rw [hdays, hyears] at huntil
  rw [hcmode] at hemode
  refine ⟨e, hget, ?_⟩
  generalize p.proposedAtUnixMS = atUnixMS at hat huntil ⊢
  generalize c.defaultRetentionDays = days at hunit huntil ⊢
  generalize c.defaultRetentionYears = years at hunit huntil ⊢
  have hinDays := (steady_days atUnixMS.toInt).inOrder_iff (addDate_zero _) hat days
  have hinYears := (steady_years atUnixMS.toInt).inOrder_iff (addDate_zero _) hat years
  have hprotects : ∀ {date : UInt32 → Int64} {n : UInt32}, n ≠ 0 → e.retainUntilUnixMS = date n →
      InOrder atUnixMS date n → atUnixMS < e.retainUntilUnixMS :=
    fun hn heq horder => heq ▸ (horder _ (UInt32.le_refl _) hn).1
  by_cases hd : days = 0
  · have hy := hunit.mp hd
    subst hd
    refine ⟨fun h => hinYears.mp (h.inYears rfl), fun hfits => ?_⟩
    have horder := hinYears.mpr hfits
    have hlater := hprotects hy huntil horder
    exact ⟨hlater, lockedAt_of_lt (hemode ▸ hlocks) hlater, fun h => absurd h hy, fun _ => horder⟩
  · have hy : years = 0 := not_not.mp (fun h => hd (hunit.mpr h))
    subst hy
    refine ⟨fun h => hinDays.mp (h.inDays rfl), fun hfits => ?_⟩
    have horder := hinDays.mpr hfits
    have hlater := hprotects hd huntil horder
    exact ⟨hlater, lockedAt_of_lt (hemode ▸ hlocks) hlater, fun _ => horder, fun h => absurd h hd⟩

/-- A lock bucket, and a GOVERNANCE rule for it. -/
def lockBucket : Proposal := .createBucket ⟨1, [97, 97, 97], true⟩

def ruleFor (days years : UInt32) : SetObjectLockConfiguration :=
  ⟨2, [97, 97, 97], retentionGovernance, days, years⟩

def plainPut : PutObject :=
  { proposedAtUnixMS := 3, bucket := [97, 97, 97], key := [107]
    versionID := VersionID.newVersionID 3 0 0 }

def underRule (days years : UInt32) : List Proposal :=
  [lockBucket, .setObjectLockConfiguration (ruleFor days years)]

theorem rule_protects_iff_oneDay :
    ∃ e, getVersion (applyMem (runMem newStore (underRule 1 0)) (.putObject plainPut)).2
        [97, 97, 97] [107] (VersionID.newVersionID 3 0 0) = .ok (some e) ∧ Protects 3 1 0 e := by
  have haccepted : (applyMem (runMem newStore [lockBucket])
      (.setObjectLockConfiguration (ruleFor 1 0))).1 = .ok .nil := by decide +kernel
  have hbucket : getBucket (runMem newStore (underRule 1 0)) plainPut.bucket = .ok (some
      { formatVersion := currentFormatVersion, name := [97, 97, 97], createdUnixMS := 1
        versioning := versioningEnabled, objectLockEnabled := true
        defaultRetentionMode := retentionGovernance, defaultRetentionDays := 1 }) := by
    decide +kernel
  have hput : (applyMem (runMem newStore (underRule 1 0)) (.putObject plainPut)).1 =
      .ok (.put ⟨VersionID.newVersionID 3 0 0, []⟩) := by decide +kernel
  obtain ⟨e, hget, hprotects⟩ := rule_protects_iff haccepted (by decide) hbucket
    ⟨rfl, rfl, rfl, rfl⟩ rfl (by decide) hput rfl
  exact ⟨e, hget, hprotects.mpr (by decide +kernel)⟩

/-- A rule of three hundred million years is accepted, and what is written under it is not
locked. -/
theorem longRule_unlocked :
    (applyMem (runMem newStore [lockBucket])
        (.setObjectLockConfiguration (ruleFor 0 300000000))).1 = .ok .nil ∧
      (getVersion (applyMem (runMem newStore (underRule 0 300000000)) (.putObject plainPut)).2
        [97, 97, 97] [107] (VersionID.newVersionID 3 0 0)).map
        (Option.map (fun e => (e.retentionMode, e.lockedAt 3 false))) =
          .ok (some (retentionGovernance, false)) := by
  decide +kernel

end Hamster.Meta
