/-
  The daily counter (transport.c: `initTodaySendResetTimer`,
  `resetTodaySendCounter`, and the counters of `tpSendMail`).

  A timer is armed at start-up for the end of the day and then every 86400
  seconds; when it expires, `todaySend` is reset.  `Daily` is a pool with a
  clock and, for each mail counted in `totalSend`, the time when it was
  counted.  The section of the reset is the first one on `tp->mtx` behind the
  expiry, so it is taken together with the second that brings it; a `newConn`
  under way keeps the lock, but touches no counter.

  * `expires_iff`: for which start times the timer expires at the local
    midnights;
  * `counted_of_reach`: then `todaySend` counts the mails of the day;
  * `stale_of_late`: otherwise a mail stays counted on the next day;
  * `daily_iff`: both are right exactly for these start times.
-/
import Mathlib.Algebra.Order.Group.Int
import SmtpProxy.Pool.Counters

namespace SmtpProxy

def TZDIFF : ℤ := 8 * 3600

/-- `struct itimerspec`, in seconds. -/
structure Itimerspec where
  it_value : ℤ
  it_interval : ℤ
  deriving DecidableEq

/-- What `initTodaySendResetTimer` arms the timer with at the time `now`. -/
def initTodaySendResetTimer (now : ℤ) : Itimerspec :=
  let todayLeft := 86400 - (now.tmod 86400 + TZDIFF)
  ⟨todayLeft, 86400⟩

/-- A timer set at `now` expires at `t`: a value of 0 disarms it, and
    `timer_settime` fails on a negative one. -/
def Itimerspec.Expires (its : Itimerspec) (now t : ℤ) : Prop :=
  0 < its.it_value ∧ ∃ k : ℕ, t = now + its.it_value + k * its.it_interval

/-- The same as a test. -/
def Itimerspec.expires (its : Itimerspec) (now t : ℤ) : Bool :=
  0 < its.it_value ∧ now + its.it_value ≤ t ∧ (t - now - its.it_value) % its.it_interval = 0

/-- A midnight of the local time zone. -/
def Midnight (t : ℤ) : Prop := (t + TZDIFF) % 86400 = 0

/-- The day of a time in the local time zone. -/
def localDay (t : ℤ) : ℤ := (t + TZDIFF) / 86400

/-! ## The expiries -/

section
variable {now t : ℤ}

theorem todayLeft_eq (h : 0 ≤ now) :
    (initTodaySendResetTimer now).it_value = 57600 - now % 86400 := by
  simp only [initTodaySendResetTimer, TZDIFF, Int.tmod_eq_emod_of_nonneg h]
  omega

/-- The expiries of the armed timer, without the count of the periods. -/
theorem expires_eq (h : 0 ≤ now) : (initTodaySendResetTimer now).Expires now t ↔
    now % 86400 < 57600 ∧ now < t ∧ Midnight t := by
  unfold Itimerspec.Expires Midnight
  rw [todayLeft_eq h]
  simp only [initTodaySendResetTimer, TZDIFF]
  constructor
  · rintro ⟨hpos, k, rfl⟩
    exact ⟨by omega, by omega, by omega⟩
  · rintro ⟨hlt, hnow, hmid⟩
    refine ⟨by omega, ((t - now - (57600 - now % 86400)) / 86400).toNat, ?_⟩
    omega

end

theorem Itimerspec.expires_iff {its : Itimerspec} {now t : ℤ} (h : 0 < its.it_interval) :
    its.expires now t ↔ its.Expires now t := by
  rw [expires, Expires, decide_eq_true_iff]
  refine and_congr_right fun _ => ?_
  constructor
  · rintro ⟨hle, hmod⟩
    obtain ⟨k, hk⟩ := Int.dvd_of_emod_eq_zero hmod
    have hnonneg : 0 ≤ k := by
      by_contra hneg
      have := Int.mul_neg_of_pos_of_neg h (by omega : k < 0)
      omega
    refine ⟨k.toNat, ?_⟩
    rw [Int.toNat_of_nonneg hnonneg, Int.mul_comm]
    omega
  · rintro ⟨k, rfl⟩
    have hmul : 0 ≤ (k : ℤ) * its.it_interval := Int.mul_nonneg (by omega) (by omega)
    refine ⟨by omega, ?_⟩
    rw [show now + its.it_value + k * its.it_interval - now - its.it_value = k * its.it_interval by
      omega]
    exact Int.mul_emod_left _ _

/-! ## Clock and counters -/

/-- A pool, the time, and the times at which the mails of `totalSend` were
    counted. -/
structure Daily where
  now : ℤ
  pool : Pool
  counted : List ℤ

namespace Daily

inductive Act where
  | pool (a : Action)
  | tick  -- a second passes

def init (now : ℤ) (n : ℕ) : Daily := ⟨now, .init n, []⟩

/-- A mail counted by a section is counted now; the reset goes with the second
    in which the timer set at `start` expires. -/
def step (tp : Tp) (start : ℤ) (d : Daily) : Act → Option Daily
  | .pool .resetToday => none
  | .pool a => (d.pool.step tp a).map fun s =>
      { d with
        pool := s
        counted := d.counted ++ List.replicate (s.totalSend - d.pool.totalSend).toNat d.now }
  | .tick => some
      { d with
        now := d.now + 1
        pool := if (initTodaySendResetTimer start).expires start (d.now + 1) then
          { d.pool with todaySend := 0 } else d.pool }

/-- The mails counted since the last local midnight, or since start-up. -/
def sinceMidnight (d : Daily) : ℕ := d.counted.countP fun t => localDay t = localDay d.now

/-- The counters are right. -/
structure Counted (d : Daily) : Prop where
  total : d.pool.totalSend = d.counted.length
  today : d.pool.todaySend = d.sinceMidnight

end Daily

namespace Daily

section
variable {tp : Tp} {start : ℤ} {n : ℕ} {d d' : Daily} {a : Action}

/-! ## A timer that is armed right -/

theorem localDay_midnight {t t' : ℤ} (h : Midnight (t + 1)) (ht : t' ≤ t) :
    localDay t' ≠ localDay (t + 1) := by
  unfold Midnight TZDIFF at h
  unfold localDay TZDIFF
  omega

theorem localDay_succ {t : ℤ} (h : ¬ Midnight (t + 1)) : localDay (t + 1) = localDay t := by
  unfold Midnight TZDIFF at h
  unfold localDay TZDIFF
  omega

/-- The counters are right, and the mails have been counted by now. -/
structure Inv (start : ℤ) (d : Daily) : Prop where
  counted : Counted d
  started : start ≤ d.now
  past : ∀ t ∈ d.counted, t ≤ d.now

theorem inv_init (start : ℤ) (n : ℕ) : Inv start (init start n) where
  counted := ⟨rfl, rfl⟩
  started := le_refl _
  past := by
    intro t ht
    cases ht

theorem step_pool (h : step tp start d (.pool a) = some d') : a ≠ .resetToday ∧
    d.pool.step tp a = some d'.pool ∧ d'.now = d.now ∧
      d'.counted = d.counted ++ List.replicate (d'.pool.totalSend - d.pool.totalSend).toNat d.now := by
  cases a with
  | resetToday => cases h
  | _ =>
    obtain ⟨s, hs, rfl⟩ := Option.map_eq_some_iff.1 h
    exact ⟨by simp, hs, rfl, rfl⟩

theorem inv_pool (hI : Inv start d) (h : step tp start d (.pool a) = some d') : Inv start d' := by
  obtain ⟨ha, hs, hnow, hcounted⟩ := step_pool h
  obtain ⟨⟨htotal, htoday⟩, hstart, hpast⟩ := hI
  rcases Pool.counts_of_step ha hs with ⟨h₁, h₂⟩ | ⟨h₁, h₂⟩
  · rw [h₁, Int.sub_self] at hcounted
    replace hcounted : d'.counted = d.counted := hcounted.trans (List.append_nil _)
    refine ⟨⟨?_, ?_⟩, by omega, ?_⟩
    · rw [h₁, htotal, hcounted]
    · rw [h₂, htoday, sinceMidnight, sinceMidnight, hcounted, hnow]
    · rw [hcounted, hnow]
      exact hpast
  · have hone : (d'.pool.totalSend - d.pool.totalSend).toNat = 1 := by omega
    rw [hone, List.replicate_one] at hcounted
    refine ⟨⟨?_, ?_⟩, by omega, ?_⟩
    · rw [h₁, htotal, hcounted, List.length_append, List.length_singleton]
      omega
    · rw [h₂, htoday, sinceMidnight, sinceMidnight, hcounted, hnow, List.countP_append]
      simp
    · rw [hcounted, hnow]
      intro t ht
      rcases List.mem_append.1 ht with ht | ht
      · exact hpast t ht
      · exact le_of_eq (List.mem_singleton.1 ht)

theorem inv_tick (h0 : 0 ≤ start) (hgood : start % 86400 < 57600) (hI : Inv start d)
    (h : step tp start d .tick = some d') : Inv start d' := by
  obtain rfl := Option.some.inj h
  obtain ⟨⟨htotal, htoday⟩, hstart, hpast⟩ := hI
  have hmid : (initTodaySendResetTimer start).expires start (d.now + 1) ↔ Midnight (d.now + 1) := by
    rw [Itimerspec.expires_iff (by simp [initTodaySendResetTimer]), expires_eq h0]
    refine ⟨fun h => h.2.2, fun h => ⟨hgood, by omega, h⟩⟩
  refine ⟨⟨?_, ?_⟩, by dsimp only; omega, fun t ht => by have := hpast t ht; dsimp only; omega⟩
  · dsimp only
    split <;> exact htotal
  · by_cases hm : Midnight (d.now + 1)
    · -- no mail has been counted on the new day
      have hzero : d.counted.countP (fun t => localDay t = localDay (d.now + 1)) = 0 := by
        refine List.countP_eq_zero.2 fun t ht => ?_
        simpa using localDay_midnight hm (hpast t ht)
      simp only [hmid.2 hm, if_true, sinceMidnight, hzero]
      rfl
    · simp only [mt hmid.1 hm, sinceMidnight, localDay_succ hm]
      exact htoday

theorem counted_of_reach (h0 : 0 ≤ start) (hgood : start % 86400 < 57600)
    (h : Runs.Reach (step tp start) (init start n) d) : Counted d := by
  refine (h.inv (I := Inv start) (inv_init start n) ?_).counted
  intro d x d' hI hx
  cases x with
  | pool a => exact inv_pool hI hx
  | tick => exact inv_tick h0 hgood hI hx

/-! ## A timer that is not armed -/

/-- The clock goes on. -/
theorem reach_ticks (h0 : 0 ≤ start) (hlate : 57600 ≤ start % 86400) (k : ℕ)
    (h : Runs.Reach (step tp start) (init start n) d) :
    Runs.Reach (step tp start) (init start n) { d with now := d.now + k } := by
  induction k with
  | zero => simpa using h
  | succ k ih =>
    have hno : (initTodaySendResetTimer start).expires start (d.now + k + 1) = false := by
      rw [Bool.eq_false_iff, ne_eq, Itimerspec.expires_iff (by simp [initTodaySendResetTimer]),
        expires_eq h0]
      omega
    refine ih.snoc (a := .tick) ?_
    simp only [step, hno, Bool.false_eq_true, if_false, Option.some.injEq, Daily.mk.injEq, and_true]
    push_cast
    omega

/-- One client has sent a mail. -/
theorem reach_one (start : ℤ) : ∃ s : Pool, s.todaySend = 1 ∧
    Runs.Reach (step tpPlain start) (init start 1) ⟨start, s, [start]⟩ := by
  have h : Runs.exec (step tpPlain start) (init start 1)
      (List.replicate 9 (.pool (.client 0 true))) =
      some ⟨start, ⟨none, ⟨[], 0⟩, ⟨[0], 1⟩, ⟨[], 0⟩, 0, 1, 1,
        [{ Conn.added with status := .idle, sendCount := 1 }], [.bcast 0], .out⟩, [start]⟩ := rfl
  exact ⟨_, rfl, Runs.Reach.refl.of_exec h⟩

/-- **A mail stays counted on the next day.** -/
theorem stale_of_late (h0 : 0 ≤ start) (hlate : 57600 ≤ start % 86400) :
    ∃ d, Runs.Reach (step tpPlain start) (init start 1) d ∧ d.pool.todaySend = 1 ∧
      d.sinceMidnight = 0 := by
  obtain ⟨s, hs, hreach⟩ := reach_one start
  refine ⟨_, reach_ticks h0 hlate 86400 hreach, hs, List.countP_eq_zero.2 ?_⟩
  intro t ht
  obtain rfl := List.mem_singleton.1 ht
  have hday : localDay t ≠ localDay (t + 86400) := by
    unfold localDay TZDIFF
    omega
  simpa using hday

/-- The local midnight after the end of the next day in UTC. -/
theorem midnight_after (start : ℤ) : ∃ t, start < t ∧ Midnight t := by
  refine ⟨(start / 86400 + 2) * 86400 - TZDIFF, ?_, ?_⟩
  · unfold TZDIFF
    omega
  · unfold Midnight TZDIFF
    omega

/-- **The daily counter.**  The timer expires exactly at the local midnights
    after start-up iff the start is before 16:00 UTC; and iff it is, the
    counters are right in every run, for every transport. -/
theorem daily_iff (h0 : 0 ≤ start) :
    ((∀ t, (initTodaySendResetTimer start).Expires start t ↔ start < t ∧ Midnight t) ↔
      start % 86400 < 57600) ∧
    ((∀ tp n d, Runs.Reach (step tp start) (init start n) d → Counted d) ↔
      start % 86400 < 57600) := by
  refine ⟨⟨fun hexp => ?_, fun hgood t => ?_⟩, ⟨fun hcount => ?_, fun hgood tp n d hreach => ?_⟩⟩
  · obtain ⟨t, ht⟩ := midnight_after start
    exact ((expires_eq h0).1 ((hexp t).2 ht)).1
  · rw [expires_eq h0]
    exact and_iff_right hgood
  · by_contra hlate
    obtain ⟨d, hreach, htoday, hsince⟩ := stale_of_late h0 (by omega)
    have := (hcount _ _ d hreach).today
    omega
  · exact counted_of_reach h0 hgood hreach

end

/-- A start at midnight UTC. -/
theorem daily_iff_zero : (initTodaySendResetTimer 0).Expires 0 57600 ∧
    ∀ tp n d, Runs.Reach (step tp 0) (init 0 n) d → Counted d :=
  ⟨((daily_iff (le_refl 0)).1.2 (by decide) 57600).2 ⟨by decide, rfl⟩,
    (daily_iff (le_refl 0)).2.2 (by decide)⟩

/-- **A start at 20:00 UTC**, 4:00 local time: the next local midnight is no
    expiry, and a mail stays counted on the next day. -/
theorem daily_late : 72000 < (144000 : ℤ) ∧ Midnight 144000 ∧
    ¬ (initTodaySendResetTimer 72000).Expires 72000 144000 ∧
    ∃ d, Runs.Reach (step tpPlain 72000) (init 72000 1) d ∧ d.pool.todaySend = 1 ∧
      d.sinceMidnight = 0 := by
  refine ⟨by decide, rfl, ?_, stale_of_late (by decide) (by decide)⟩
  rw [expires_eq (by decide)]
  intro h
  exact absurd h.1 (by decide)

end Daily

end SmtpProxy
