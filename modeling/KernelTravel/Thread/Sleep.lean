import Mathlib.Algebra.Group.Int.Defs
import Mathlib.Algebra.Group.Nat.Defs
import Mathlib.Data.List.Chain

/-!
# How long `sys_sleep` sleeps

A request of at least 20 ticks is left to a timer, and a shorter one is waited out by reading
the clock. `rdtime` counts 10 ns clocks. The timer path counts 23 ticks for a second, in which
23.84 pass, drops the rest of the nanoseconds and starts at a tick that may be long past. The
other path drops the part of a microsecond that has passed when it starts.
-/

namespace KernelTravel.Thread

structure Timespec where
  tvSec : Int
  tvNsec : Int

/-- A value as `unsigned long`. -/
def u64 (x : Int) : Int := x % 2 ^ 64

/-- A value as `long`. -/
def i64 (x : Int) : Int := (x + 2 ^ 63) % 2 ^ 64 - 2 ^ 63

def nsecPerSec : Int := 1000000000

def clkPerTick : Int := 0x400000

/-- `CLK_FREQUENCY / CLK_PER_TICK` in whole numbers. -/
def tickPerSec : Int := 100000000 / clkPerTick

def timespec2ticks (ts : Timespec) : Int :=
  u64 (u64 (ts.tvSec * tickPerSec) + u64 ts.tvNsec / 10 / clkPerTick)

/-- The time of day when `rdtime` gives `clk`. -/
def sysGettimeofday (clk : Nat) : Timespec :=
  ⟨clk / 100000000, clk / 100 % 1000000 * 1000⟩

/-- `end_timer` in `snap`. -/
def snapEnd (cur req : Timespec) : Timespec :=
  let nsec := u64 (cur.tvNsec + req.tvNsec)
  ⟨i64 (cur.tvSec + req.tvSec + nsec / nsecPerSec), nsec % nsecPerSec⟩

def Timespec.before (cur last : Timespec) : Bool :=
  cur.tvSec < last.tvSec || (cur.tvSec = last.tvSec && cur.tvNsec < last.tvNsec)

theorem Timespec.before_iff (cur last : Timespec) : cur.before last = true ↔
    cur.tvSec < last.tvSec ∨ cur.tvSec = last.tvSec ∧ cur.tvNsec < last.tvNsec := by
  simp [before]

/-- The loop of `snap` over the values that `rdtime` gives, with the one that ends it. -/
def snapLoop (last : Timespec) : List Nat → Option Nat
  | [] => none
  | clk :: clks => if (sysGettimeofday clk).before last then snapLoop last clks else some clk

def snap (req : Timespec) : List Nat → Option Nat
  | [] => none
  | clk :: clks => snapLoop (snapEnd (sysGettimeofday clk) req) (clk :: clks)

/-- `expire` in `normal_sleep`. -/
def normalSleepExpire (ticks sleepTicks : Int) : Int := u64 (ticks + sleepTicks)

/-! ## Executions -/

/-- A request with nanoseconds in their range. -/
structure Request extends Timespec where
  sec_range : -2 ^ 63 ≤ tvSec ∧ tvSec < 2 ^ 63
  nsec_range : 0 ≤ tvNsec ∧ tvNsec < nsecPerSec

/-- The two products and roundings of `timespec2ticks` as one sum. -/
theorem Request.ticks_eq (req : Request) : timespec2ticks req.toTimespec =
    (23 * req.tvSec + req.tvNsec / 41943040) % 2 ^ 64 := by
  have hnsec := req.nsec_range
  have hticks : req.tvNsec % 2 ^ 64 / 10 / 4194304 = req.tvNsec / 41943040 := by
    unfold nsecPerSec at hnsec
    omega
  have hper : tickPerSec = 23 := by decide
  rw [timespec2ticks, u64, u64, u64, clkPerTick, hticks, hper, Int.emod_add_emod, Int.mul_comm]

def Request.nsecs (req : Request) : Int := req.tvSec * nsecPerSec + req.tvNsec

/-- The state at a call: the clock, the number of ticks and the clocks since the last one. The
ticks are counted from 0 on, and the clock is far from its end. -/
structure Call where
  clk : Nat
  ticks : Nat
  phase : Nat
  phase_lt : phase < clkPerTick
  counted : ticks * clkPerTick + phase ≤ clk
  clk_lt : clk < 2 ^ 63

namespace Call

/-- The number of ticks `d` clocks after the call. -/
def ticksAfter (c : Call) (d : Nat) : Int := c.ticks + (c.phase + d) / clkPerTick

/-- The clock at a tick. -/
def clockOf (c : Call) (tick : Int) : Int := c.clk - c.phase + (tick - c.ticks) * clkPerTick

/-- `sys_sleep` may return at the clock `ret`: the timer was set some clocks after the call and
fired no earlier than at its tick, or the readings of the clock ended the loop. -/
def Returns (c : Call) (req : Request) (ret : Nat) : Prop :=
  let sleepTicks := timespec2ticks req.toTimespec
  if 20 ≤ sleepTicks then
    ∃ d, c.clk + d < 2 ^ 64 ∧ c.clk + d ≤ ret ∧
      c.clockOf (normalSleepExpire (c.ticksAfter d) sleepTicks) ≤ ret
  else
    ∃ clks last, (c.clk :: clks).IsChain (· ≤ ·) ∧ (∀ clk ∈ clks, clk < 2 ^ 64) ∧
      snap req.toTimespec clks = some last ∧ last ≤ ret

/-- No return comes before the requested time has passed. -/
def SleepRight (c : Call) (req : Request) : Prop :=
  ∀ ret, c.Returns req ret → req.nsecs ≤ 10 * (ret - c.clk : Int)

end Call

/-! ## The loop on the clock -/

section Snap

variable {req : Request} {clk start : Nat}

/-- On the short path the product of the seconds with 23 is close to a multiple of 2^64, so the
end of the wait does not overflow. -/
theorem Request.sec_of_short (req : Request) (h : ¬20 ≤ timespec2ticks req.toTimespec) :
    (-2 ^ 63 + 2 ^ 38 ≤ req.tvSec ∧ req.tvSec < 2 ^ 63 - 2 ^ 38) ∧
      (0 < req.tvSec → 2 ^ 40 ≤ req.tvSec) := by
  have hsec := req.sec_range
  have hnsec := req.nsec_range
  unfold nsecPerSec at hnsec
  rw [req.ticks_eq] at h
  have hnear : ∃ q r : Int, 23 * req.tvSec = 2 ^ 64 * q + r ∧ -24 ≤ r ∧ r < 20 :=
    ⟨(23 * req.tvSec + req.tvNsec / 41943040) / 2 ^ 64,
      (23 * req.tvSec + req.tvNsec / 41943040) % 2 ^ 64 - req.tvNsec / 41943040,
      by omega, by omega, by omega⟩
  clear h
  obtain ⟨q, r, hq, hr⟩ := hnear
  have hbound : -11 ≤ q ∧ q ≤ 11 := by omega
  have hpos : 0 < req.tvSec → 1 ≤ q := by omega
  omega

/-- The loop goes on while the whole microseconds are short of the requested time. -/
theorem before_snapEnd_iff (h : ¬20 ≤ timespec2ticks req.toTimespec) (hstart : start < 2 ^ 64) :
    (sysGettimeofday clk).before (snapEnd (sysGettimeofday start) req.toTimespec) = true ↔
      1000 * (clk / 100 : Int) < 1000 * (start / 100 : Int) + req.nsecs := by
  obtain ⟨⟨hlow, hhigh⟩, -⟩ := req.sec_of_short h
  have hnsec := req.nsec_range
  rw [Timespec.before_iff]
  simp only [sysGettimeofday, snapEnd, u64, i64, Request.nsecs, nsecPerSec] at hnsec ⊢
  -- no sum wraps around
  have hsum : ((start : Int) / 100 % 1000000 * 1000 + req.tvNsec) % 2 ^ 64 =
      start / 100 % 1000000 * 1000 + req.tvNsec := by omega
  have hend : ((start : Int) / 100000000 + req.tvSec +
        (start / 100 % 1000000 * 1000 + req.tvNsec) / 1000000000 + 2 ^ 63) % 2 ^ 64 - 2 ^ 63 =
      start / 100000000 + req.tvSec + (start / 100 % 1000000 * 1000 + req.tvNsec) / 1000000000 := by
    omega
  rw [hsum, hend]
  have hclkSec : (clk : Int) / 100000000 = clk / 100 / 1000000 := by omega
  have hstartSec : (start : Int) / 100000000 = start / 100 / 1000000 := by omega
  rw [hclkSec, hstartSec]
  generalize (clk : Int) / 100 = clkUsec
  generalize (start : Int) / 100 = startUsec
  clear hsum hend hclkSec hstartSec hstart hlow hhigh h
  omega

theorem snapLoop_eq_some {last : Timespec} {clks : List Nat} (h : snapLoop last clks = some clk) :
    clk ∈ clks ∧ (sysGettimeofday clk).before last = false := by
  induction clks with
  | nil => cases h
  | cons r clks ih =>
    rw [snapLoop] at h
    split at h
    next => exact ⟨List.mem_cons_of_mem r (ih h).1, (ih h).2⟩
    next hstop =>
      cases h
      exact ⟨List.mem_cons_self, Bool.eq_false_iff.mpr hstop⟩

/-- A call of the short path is right when nothing is requested, or when the request is short of
whole microseconds by at least what has passed of the first one. -/
theorem Call.sleepRight_short_iff (c : Call) (h : ¬20 ≤ timespec2ticks req.toTimespec) :
    c.SleepRight req ↔ req.nsecs ≤ 0 ∨ 0 < req.tvSec ∨
      10 * (c.clk % 100 : Int) + req.tvNsec ≤ (req.tvNsec + 999) / 1000 * 1000 := by
  have hlt := c.clk_lt
  have hnsec := req.nsec_range
  unfold nsecPerSec at hnsec
  constructor
  · intro right
    by_contra hbad
    unfold Request.nsecs nsecPerSec at hbad
    obtain ⟨hpos, hsec, hshort⟩ : 0 < req.nsecs ∧ req.tvSec = 0 ∧
        (req.tvNsec + 999) / 1000 * 1000 < 10 * (c.clk % 100 : Int) + req.tvNsec := by
      unfold Request.nsecs nsecPerSec
      omega
    -- the first reading is made at the call and the second when enough microseconds are full
    obtain ⟨clk, hclk⟩ : ∃ clk : Nat, (clk : Int) =
        100 * (c.clk / 100 + (req.tvNsec + 999) / 1000) :=
      ⟨_, Int.toNat_of_nonneg (by omega)⟩
    have hlater : c.clk ≤ clk ∧ clk < 2 ^ 64 := by omega
    have hfirst := @before_snapEnd_iff req c.clk c.clk h (by omega)
    have hsecond := @before_snapEnd_iff req clk c.clk h (by omega)
    have hns : req.nsecs = req.tvNsec := by rw [Request.nsecs, hsec, Int.zero_mul, Int.zero_add]
    have hsnap : snap req.toTimespec [c.clk, clk] = some clk := by
      have htrue := hfirst.mpr (by omega)
      have hfalse := mt hsecond.mp (by omega)
      simp [snap, snapLoop, htrue, hfalse]
    have hret := right clk (by
      rw [Call.Returns, if_neg h]
      refine ⟨[c.clk, clk], clk, ?_, ?_, hsnap, Nat.le_refl clk⟩
      · simp [hlater.1]
      · intro r hr
        simp only [List.mem_cons, List.not_mem_nil, or_false] at hr
        omega)
    omega
  · intro hcond ret hret
    rw [Call.Returns, if_neg h] at hret
    obtain ⟨clks, last, hchain, hbound, hsnap, hlast⟩ := hret
    cases clks with
    | nil => cases hsnap
    | cons first clks =>
      obtain ⟨hmem, hstop⟩ := snapLoop_eq_some hsnap
      have hle : c.clk ≤ first := (List.isChain_cons_cons.mp hchain).1
      have hafter : c.clk ≤ last :=
        (List.pairwise_cons.mp (List.isChain_iff_pairwise.mp hchain)).1 last hmem
      have hwait := mt (@before_snapEnd_iff req last first h
        (hbound first List.mem_cons_self)).mpr (Bool.eq_false_iff.mp hstop)
      have hlast_lt := hbound last hmem
      unfold Request.nsecs nsecPerSec at hwait hcond ⊢
      have hsec := (req.sec_of_short h).2
      omega

end Snap

/-! ## The timer -/

/-- A call of the timer path is right when nothing is requested, or when the request is a whole
number of ticks, less than a second, and made at a tick. -/
theorem Call.sleepRight_timer_iff (c : Call) {req : Request}
    (h : 20 ≤ timespec2ticks req.toTimespec) : c.SleepRight req ↔ req.nsecs ≤ 0 ∨
      req.tvSec = 0 ∧ req.tvNsec % 41943040 = 0 ∧ c.phase = 0 := by
  have hticks := req.ticks_eq
  have hnsec := req.nsec_range
  have hphase := c.phase_lt
  have hcounted := c.counted
  have hlt := c.clk_lt
  unfold nsecPerSec at hnsec
  unfold clkPerTick at hphase hcounted
  constructor
  · intro right
    by_contra hbad
    obtain ⟨ret, hret⟩ : ∃ ret : Nat, (ret : Int) = max (c.clk : Int) (c.clockOf
        (normalSleepExpire (c.ticksAfter 0) (timespec2ticks req.toTimespec))) :=
      ⟨_, Int.toNat_of_nonneg (by omega)⟩
    have hearly := right ret (by
      rw [Call.Returns, if_pos h]
      exact ⟨0, by omega, by omega, by omega⟩)
    unfold Request.nsecs nsecPerSec at hearly hbad
    have hsleep : timespec2ticks req.toTimespec ≤ 23 * req.tvSec + req.tvNsec / 41943040 := by
      omega
    have hexpire : normalSleepExpire (c.ticksAfter 0) (timespec2ticks req.toTimespec) ≤
        c.ticks + timespec2ticks req.toTimespec := by
      unfold normalSleepExpire Call.ticksAfter u64 clkPerTick
      omega
    unfold Call.clockOf clkPerTick at hret
    clear hticks
    omega
  · intro hcond ret hret
    rw [Call.Returns, if_pos h] at hret
    obtain ⟨d, hd, hafter, htick⟩ := hret
    unfold Call.clockOf normalSleepExpire Call.ticksAfter u64 clkPerTick at htick
    unfold Request.nsecs nsecPerSec at hcond ⊢
    omega

/-! ## Both paths -/

/-- When a call of `sys_sleep` cannot return early. -/
theorem sleepRight_iff (c : Call) (req : Request) : c.SleepRight req ↔ req.nsecs ≤ 0 ∨
      if 20 ≤ timespec2ticks req.toTimespec then
        req.tvSec = 0 ∧ req.tvNsec % 41943040 = 0 ∧ c.phase = 0 else 0 < req.tvSec ∨
        10 * (c.clk % 100 : Int) + req.tvNsec ≤ (req.tvNsec + 999) / 1000 * 1000 := by
  split
  next h => exact c.sleepRight_timer_iff h
  next h => exact c.sleepRight_short_iff h

/-- At the start of a tick a sleep of one second may end after 23 ticks, which are 964689920 ns;
shortly before a full microsecond a sleep of 1000 ns may end after 10 ns. -/
theorem early_returns :
    (Call.Returns ⟨0, 0, 0, by decide, by decide, by decide⟩ ⟨⟨1, 0⟩, by decide,
      by decide⟩ 96468992 ∧ 10 * (96468992 : Int) < nsecPerSec) ∧
    Call.Returns ⟨99, 0, 99, by decide, by decide, by decide⟩ ⟨⟨0, 1000⟩, by decide,
      by decide⟩ 100 ∧ 10 * (100 - 99 : Int) < 1000 := by
  refine ⟨⟨?_, by decide⟩, ?_, by decide⟩
  · rw [Call.Returns, if_pos (by decide)]
    exact ⟨0, by decide, by decide, by decide⟩
  · rw [Call.Returns, if_neg (by decide)]
    exact ⟨[99, 100], 100, by decide, by decide, by decide, Nat.le_refl _⟩

end KernelTravel.Thread
