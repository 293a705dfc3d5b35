/-
# `Risk.PageHinkley` — when it used to work and just stopped

The change detector of `risk/drift.py` over exact fractions, and the kill switch that runs two of
them.  The two directions mirror each other (`trace_mirror`), the level of the stream does not
matter (`trace_shift`), and as long as the mean does not go the wrong way the statistic stays zero
(`trace_of_sorted`), which keeps the switch quiet (`observeAll_quiet`).
-/
import TreasuryForge.Core.Gated
import Mathlib.Algebra.Order.Field.Basic
import Mathlib.Algebra.Order.Field.Rat
import Mathlib.Algebra.Order.Group.MinMax
import Mathlib.Data.String.Basic
import Mathlib.Tactic.FieldSimp
import Mathlib.Tactic.Linarith
import Mathlib.Tactic.Ring

namespace TreasuryForge

namespace Risk

/-- `"decrease"`, or any other text. -/
inductive Direction where
  | decrease
  | increase
  deriving DecidableEq, Repr

def Direction.flip : Direction → Direction
  | .decrease => .increase
  | .increase => .decrease

@[ext]
structure PageHinkley where
  delta : ℚ := 0
  lam : ℚ := 5 / 100
  direction : Direction := .decrease
  n : ℕ := 0
  mean : ℚ := 0
  m : ℚ := 0
  extreme : ℚ := 0
  alarm : Bool := false
  deriving DecidableEq, Repr

namespace PageHinkley

/-- The running mean with one more value. -/
def meanAfter (s : PageHinkley) (x : ℚ) : ℚ := s.mean + (x - s.mean) / (s.n + 1 : ℕ)

/-- The cumulated deviation with one more, its extreme, and the statistic. -/
def deviate (direction : Direction) (delta m extreme deviation : ℚ) : ℚ × ℚ × ℚ :=
  match direction with
  | .decrease =>
      let m := m + (deviation + delta)
      (m, max extreme m, max extreme m - m)
  | .increase =>
      let m := m + (deviation - delta)
      (m, min extreme m, m - min extreme m)

/-- One value: the statistic, and the detector after it. -/
def update (s : PageHinkley) (x : ℚ) : ℚ × PageHinkley :=
  let mean := s.meanAfter x
  let (m, extreme, ph) := deviate s.direction s.delta s.m s.extreme (x - mean)
  (ph, { s with
    n := s.n + 1, mean := mean, m := m, extreme := extreme
    alarm := if s.lam < ph then true else s.alarm })

def reset (s : PageHinkley) : PageHinkley :=
  { s with n := 0, mean := 0, m := 0, extreme := 0, alarm := false }

/-- The statistic and the alarm after each value of a stream. -/
def trace (s : PageHinkley) : List ℚ → List (ℚ × Bool)
  | [] => []
  | x :: xs => ((s.update x).1, (s.update x).2.alarm) :: trace (s.update x).2 xs

/-- The detector of the other direction on the negated stream. -/
def mirror (s : PageHinkley) : PageHinkley :=
  { s with direction := s.direction.flip, mean := -s.mean, m := -s.m, extreme := -s.extreme }

theorem meanAfter_mirror (s : PageHinkley) (x : ℚ) : s.mirror.meanAfter (-x) = -s.meanAfter x := by
  unfold meanAfter mirror
  ring

theorem deviate_flip (direction : Direction) (delta m extreme deviation : ℚ) :
    deviate direction.flip delta (-m) (-extreme) (-deviation) =
      (-(deviate direction delta m extreme deviation).1,
        -(deviate direction delta m extreme deviation).2.1,
        (deviate direction delta m extreme deviation).2.2) := by
  have hph : ∀ a b : ℚ, -a - -b = b - a := fun a b => by ring
  cases direction with
  | decrease =>
      have hm : -m + (-deviation - delta) = -(m + (deviation + delta)) := by ring
      unfold deviate Direction.flip
      dsimp only
      rw [hm, min_neg_neg, hph]
  | increase =>
      have hm : -m + (-deviation + delta) = -(m + (deviation - delta)) := by ring
      unfold deviate Direction.flip
      dsimp only
      rw [hm, max_neg_neg, hph]

theorem update_mirror (s : PageHinkley) (x : ℚ) :
    s.mirror.update (-x) = ((s.update x).1, (s.update x).2.mirror) := by
  have hgap : -x - -s.meanAfter x = -(x - s.meanAfter x) := by ring
  have hdeviate : deviate s.mirror.direction s.mirror.delta s.mirror.m s.mirror.extreme
      (-x - s.mirror.meanAfter (-x)) =
      (-(deviate s.direction s.delta s.m s.extreme (x - s.meanAfter x)).1,
        -(deviate s.direction s.delta s.m s.extreme (x - s.meanAfter x)).2.1,
        (deviate s.direction s.delta s.m s.extreme (x - s.meanAfter x)).2.2) := by
    rw [meanAfter_mirror, hgap]
    exact deviate_flip s.direction s.delta s.m s.extreme (x - s.meanAfter x)
  rw [update, hdeviate, meanAfter_mirror]
  rfl

theorem trace_mirror (s : PageHinkley) (xs : List ℚ) :
    s.mirror.trace (xs.map (-·)) = s.trace xs := by
  induction xs generalizing s with
  | nil => rfl
  | cons x xs ih =>
      rw [List.map_cons, trace, update_mirror, trace]
      exact congrArg _ (ih _)

/-- The detector on a stream that is higher by a constant; a first value replaces the mean. -/
def shifted (c : ℚ) (s : PageHinkley) : PageHinkley :=
  { s with mean := if s.n = 0 then s.mean else s.mean + c }

theorem meanAfter_shifted (c : ℚ) (s : PageHinkley) (x : ℚ) :
    (s.shifted c).meanAfter (x + c) = s.meanAfter x + c := by
  unfold meanAfter shifted
  dsimp only
  split
  · next hn =>
      rw [hn]
      push_cast
      ring
  · have hpos : ((s.n + 1 : ℕ) : ℚ) ≠ 0 := by exact_mod_cast Nat.succ_ne_zero s.n
    field_simp
    ring

theorem update_shifted (c : ℚ) (s : PageHinkley) (x : ℚ) :
    (s.shifted c).update (x + c) = ((s.update x).1, (s.update x).2.shifted c) := by
  have hgap : x + c - (s.meanAfter x + c) = x - s.meanAfter x := by ring
  have hmean : s.meanAfter x + c = if s.n + 1 = 0 then s.meanAfter x else s.meanAfter x + c :=
    (if_neg (Nat.succ_ne_zero s.n)).symm
  rw [update, meanAfter_shifted, hgap, hmean]
  rfl

theorem trace_shifted (c : ℚ) (s : PageHinkley) (xs : List ℚ) :
    (s.shifted c).trace (xs.map (· + c)) = s.trace xs := by
  induction xs generalizing s with
  | nil => rfl
  | cons x xs ih =>
      rw [List.map_cons, trace, update_shifted, trace]
      exact congrArg _ (ih _)

/-- What a detector of a falling mean keeps as long as the mean does not fall: it is at its
extreme, and the mean is no higher than the last value. -/
structure Calm (s : PageHinkley) : Prop where
  direction : s.direction = .decrease
  delta : 0 ≤ s.delta
  lam : 0 ≤ s.lam
  extreme : s.extreme = s.m
  alarm : s.alarm = false

theorem Calm.update {s : PageHinkley} (h : s.Calm) {x : ℚ} (hx : s.n ≠ 0 → s.mean ≤ x) :
    (s.update x).1 = 0 ∧ (s.update x).2.Calm ∧ (s.update x).2.mean ≤ x := by
  have hmean : s.meanAfter x ≤ x := by
    unfold meanAfter
    by_cases hn : s.n = 0
    · rw [hn]
      push_cast
      linarith
    · have hgap : 0 ≤ x - s.mean := sub_nonneg.mpr (hx hn)
      have hone : (1 : ℚ) ≤ (s.n + 1 : ℕ) := by exact_mod_cast Nat.le_add_left 1 s.n
      have hdiv := div_le_self hgap hone
      linarith
  have hrise : s.m ≤ s.m + (x - s.meanAfter x + s.delta) := by
    have hdelta := h.delta
    linarith
  have hdeviate : deviate s.direction s.delta s.m s.extreme (x - s.meanAfter x) =
      (s.m + (x - s.meanAfter x + s.delta), s.m + (x - s.meanAfter x + s.delta), 0) := by
    rw [h.direction, h.extreme]
    unfold deviate
    dsimp only
    rw [max_eq_right hrise, sub_self]
  rw [PageHinkley.update, hdeviate]
  refine ⟨rfl, ⟨h.direction, h.delta, h.lam, rfl, ?_⟩, hmean⟩
  show (if s.lam < 0 then true else s.alarm) = false
  rw [if_neg (not_lt.mpr h.lam)]
  exact h.alarm

/-- On a stream that never falls the statistic stays zero, and there is no alarm. -/
theorem Calm.trace {s : PageHinkley} (h : s.Calm) {xs : List ℚ} (hsorted : xs.Pairwise (· ≤ ·))
    (hfirst : s.n ≠ 0 → ∀ x ∈ xs, s.mean ≤ x) : ∀ p ∈ s.trace xs, p = (0, false) := by
  induction xs generalizing s with
  | nil =>
      intro p hp
      cases hp
  | cons x xs ih =>
      obtain ⟨hle, hrest⟩ := List.pairwise_cons.mp hsorted
      obtain ⟨hzero, hcalm, hmean⟩ := h.update fun hn => hfirst hn x List.mem_cons_self
      intro p hp
      rw [PageHinkley.trace] at hp
      rcases List.mem_cons.mp hp with rfl | hp
      · rw [hzero, hcalm.alarm]
      · exact ih hcalm hrest (fun _ y hy => hmean.trans (hle y hy)) p hp

/-- A new detector. -/
def fresh (delta lam : ℚ) (direction : Direction) : PageHinkley where
  delta := delta
  lam := lam
  direction := direction

theorem reset_eq (s : PageHinkley) : s.reset = fresh s.delta s.lam s.direction := rfl

/-- A rise is a fall of the negated stream, a constant changes nothing, and a stream that never
falls raises no alarm of a fall. -/
theorem symmetry_and_invariance {delta lam : ℚ} (hdelta : 0 ≤ delta) (hlam : 0 ≤ lam)
    (xs : List ℚ) :
    (fresh delta lam .increase).trace (xs.map (-·)) = (fresh delta lam .decrease).trace xs ∧
      (∀ direction c, (fresh delta lam direction).trace (xs.map (· + c)) =
        (fresh delta lam direction).trace xs) ∧
      (xs.Pairwise (· ≤ ·) → ∀ p ∈ (fresh delta lam .decrease).trace xs, p.2 = false) := by
  refine ⟨?_, ?_, ?_⟩
  · have hmirror : (fresh delta lam .decrease).mirror = fresh delta lam .increase := by
      unfold mirror fresh
      simp only [neg_zero, Direction.flip]
    rw [← hmirror, trace_mirror]
  · intro direction c
    exact trace_shifted c (fresh delta lam direction) xs
  · intro hsorted p hp
    have hcalm : (fresh delta lam .decrease).Calm := ⟨rfl, hdelta, hlam, rfl, rfl⟩
    rw [hcalm.trace hsorted (fun hn => absurd rfl hn) p hp]

theorem symmetry_and_invariance_of_rise :
    (fresh 0 (5 / 100) .increase).trace [-1, -2, -2, -5] =
        (fresh 0 (5 / 100) .decrease).trace [1, 2, 2, 5] ∧
      ∀ p ∈ (fresh 0 (5 / 100) .decrease).trace [1, 2, 2, 5], p.2 = false := by
  have hlam : (0 : ℚ) ≤ 5 / 100 := by norm_num
  obtain ⟨hmirror, -, hquiet⟩ := symmetry_and_invariance le_rfl hlam [1, 2, 2, 5]
  exact ⟨hmirror, hquiet (by decide +kernel)⟩

end PageHinkley

/-! ## The kill switch -/

structure DriftKillSwitch where
  expectancy : PageHinkley
  slippage : PageHinkley
  stressDdBand : ℚ := 30 / 100
  killed : Bool := false
  reason : String := ""

/-- The arguments of `observe`. -/
structure Observation where
  ret : Option ℚ := none
  slippage : Option ℚ := none
  drawdown : Option ℚ := none

namespace DriftKillSwitch

/-- `_kill`: the first reason stays. -/
def kill (s : DriftKillSwitch) (reason : String) : DriftKillSwitch :=
  if s.killed then s else { s with killed := true, reason := reason }

def seeDrawdown (s : DriftKillSwitch) : Option ℚ → DriftKillSwitch
  | none => s
  | some drawdown =>
      if s.stressDdBand < drawdown then
        s.kill (s!"KILL: DD_EXCEEDS_STRESS_BAND ({Gate.percent 0 drawdown} > " ++
          s!"{Gate.percent 0 s.stressDdBand})")
      else s

def seeRet (s : DriftKillSwitch) : Option ℚ → DriftKillSwitch
  | none => s
  | some ret =>
      let expectancy := (s.expectancy.update ret).2
      let s := { s with expectancy := expectancy }
      if expectancy.alarm then s.kill "KILL: EDGE_DRIFT_DETECTED" else s

def seeSlippage (s : DriftKillSwitch) : Option ℚ → DriftKillSwitch
  | none => s
  | some x =>
      let slippage := (s.slippage.update x).2
      let s := { s with slippage := slippage }
      if slippage.alarm then s.kill "KILL: EXECUTION_DEGRADED" else s

/-- The latest observations; the verdict is there from the first guard that trips on. -/
def observe (s : DriftKillSwitch) (o : Observation) : Option String × DriftKillSwitch :=
  if s.killed then (some s.reason, s)
  else
    let s := ((s.seeDrawdown o.drawdown).seeRet o.ret).seeSlippage o.slippage
    (if s.killed then some s.reason else none, s)

/-- The switch after some observations. -/
def observeAll (s : DriftKillSwitch) (os : List Observation) : DriftKillSwitch :=
  os.foldl (fun s o => (s.observe o).2) s

/-- "KILL means kill": nothing changes any more. -/
theorem observeAll_killed {s : DriftKillSwitch} (h : s.killed = true) (os : List Observation) :
    s.observeAll os = s := by
  induction os with
  | nil => rfl
  | cons o os ih =>
      have hstep : (s.observe o).2 = s := by rw [observe, if_pos h]
      rw [observeAll, List.foldl_cons, hstep]
      exact ih

/-- A switch that nothing has tripped, and how far its streams have come. -/
structure Quiet (s : DriftKillSwitch) (band : ℚ) (ret slip : Option ℚ) : Prop where
  killed : s.killed = false
  band : s.stressDdBand = band
  expectancy : s.expectancy.Calm
  slippage : s.slippage.mirror.Calm
  ret : s.expectancy.n ≠ 0 → ∃ r, ret = some r ∧ s.expectancy.mean ≤ r
  slip : s.slippage.n ≠ 0 → ∃ x, slip = some x ∧ x ≤ s.slippage.mean

/-- What a stream shows last. -/
def latest (seen new : Option ℚ) : Option ℚ := new.or seen

/-- Nothing the observation shows is worse than what was seen last. -/
structure NoWorse (band : ℚ) (ret slip : Option ℚ) (o : Observation) : Prop where
  ret : ∀ r ∈ o.ret, ∀ last ∈ ret, last ≤ r
  slip : ∀ x ∈ o.slippage, ∀ last ∈ slip, x ≤ last
  drawdown : ∀ d ∈ o.drawdown, d ≤ band

theorem Quiet.seeRet {s : DriftKillSwitch} {band : ℚ} {ret slip new : Option ℚ}
    (h : s.Quiet band ret slip)
    (hnew : ∀ r ∈ new, ∀ last ∈ ret, last ≤ r) :
    (s.seeRet new).Quiet band (latest ret new) slip := by
  cases new with
  | none => exact h
  | some r =>
      have hle : s.expectancy.n ≠ 0 → s.expectancy.mean ≤ r := by
        intro hn
        obtain ⟨last, hlast, hmean⟩ := h.ret hn
        exact hmean.trans (hnew r rfl last hlast)
      obtain ⟨-, hcalm, hmean⟩ := h.expectancy.update hle
      unfold DriftKillSwitch.seeRet
      dsimp only
      rw [hcalm.alarm]
      exact ⟨h.killed, h.band, hcalm, h.slippage, fun _ => ⟨r, rfl, hmean⟩, h.slip⟩

theorem Quiet.seeSlippage {s : DriftKillSwitch} {band : ℚ} {ret slip new : Option ℚ}
    (h : s.Quiet band ret slip)
    (hnew : ∀ x ∈ new, ∀ last ∈ slip, x ≤ last) :
    (s.seeSlippage new).Quiet band ret (latest slip new) := by
  cases new with
  | none => exact h
  | some x =>
      have hle : s.slippage.mirror.n ≠ 0 → s.slippage.mirror.mean ≤ -x := by
        intro hn
        obtain ⟨last, hlast, hmean⟩ := h.slip hn
        exact neg_le_neg ((hnew x rfl last hlast).trans hmean)
      -- the mirror of the detector sees a stream that does not fall
      obtain ⟨-, hcalm, hmean⟩ := h.slippage.update hle
      rw [PageHinkley.update_mirror] at hcalm hmean
      have halarm : (s.slippage.update x).2.alarm = false := hcalm.alarm
      unfold DriftKillSwitch.seeSlippage
      dsimp only
      rw [halarm]
      exact ⟨h.killed, h.band, h.expectancy, hcalm, h.ret,
        fun _ => ⟨x, rfl, neg_le_neg_iff.mp hmean⟩⟩

theorem Quiet.observe {s : DriftKillSwitch} {band : ℚ} {ret slip : Option ℚ}
    (h : s.Quiet band ret slip) {o : Observation} (ho : NoWorse band ret slip o) :
    (s.observe o).1 = none ∧
      (s.observe o).2.Quiet band (latest ret o.ret) (latest slip o.slippage) := by
  have hband : s.seeDrawdown o.drawdown = s := by
    cases hd : o.drawdown with
    | none => rfl
    | some d =>
        refine if_neg (not_lt.mpr ?_)
        rw [h.band]
        exact ho.drawdown d hd
  have hquiet := (h.seeRet ho.ret).seeSlippage ho.slip
  rw [DriftKillSwitch.observe, h.killed, hband]
  refine ⟨?_, hquiet⟩
  exact if_neg (Bool.eq_false_iff.mp hquiet.killed)

/-- Each observation is no worse than what was seen before it. -/
def Improving (band : ℚ) (ret slip : Option ℚ) : List Observation → Prop
  | [] => True
  | o :: os =>
      NoWorse band ret slip o ∧ Improving band (latest ret o.ret) (latest slip o.slippage) os

/-- A strategy that only improves is never killed. -/
theorem observeAll_quiet {s : DriftKillSwitch} {band : ℚ} {ret slip : Option ℚ}
    (h : s.Quiet band ret slip) {os : List Observation} (hos : Improving band ret slip os) :
    (s.observeAll os).killed = false := by
  induction os generalizing s ret slip with
  | nil => exact h.killed
  | cons o os ih => exact ih (h.observe hos.1).2 hos.2

/-- `make_kill_switch` -/
def make (expectancyDelta expectancyLambda slippageDelta slippageLambda : ℚ)
    (stressDdBand : ℚ := 30 / 100) : DriftKillSwitch where
  expectancy := .fresh expectancyDelta expectancyLambda .decrease
  slippage := .fresh slippageDelta slippageLambda .increase
  stressDdBand := stressDdBand

theorem make_quiet {expectancyDelta expectancyLambda slippageDelta slippageLambda : ℚ}
    (hed : 0 ≤ expectancyDelta) (hel : 0 ≤ expectancyLambda) (hsd : 0 ≤ slippageDelta)
    (hsl : 0 ≤ slippageLambda) (band : ℚ) :
    (make expectancyDelta expectancyLambda slippageDelta slippageLambda band).Quiet
      band none none where
  killed := rfl
  band := rfl
  expectancy := ⟨rfl, hed, hel, rfl, rfl⟩
  slippage := ⟨rfl, hsd, hsl, rfl, rfl⟩
  ret hn := absurd rfl hn
  slip hn := absurd rfl hn

end DriftKillSwitch

end Risk

end TreasuryForge
