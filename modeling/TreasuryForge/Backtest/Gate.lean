/-
# `Backtest.Gate` — does the regime gate only remove trades

The backtest with the gate against the same backtest without it.  A vetoed entry leaves the
gated run flat and the other in a position, and from there on the two answer the same z-scores
from different states.  `balance` accounts for the difference of their trades: it is what the
gate spared, less what it cost when a stop took the gated run alone out of a position.

For that the two must hold opposite sides, and they come to hold them on a swing only: the z-score
calls for one side and then for the other without coming back into the exit band.  Where none
reaches the stop after that, the gate only removes trades (`gate_removes`).
-/
import TreasuryForge.Backtest.Pairs

namespace TreasuryForge

namespace Backtest

open Loop Signals

variable {K : Type} [Field K] [LinearOrder K] {m : Maths K} {p : PairsParams K}

/-! ## One bar -/

/-- The position after a bar: what the signal says, or still flat if the gate vetoes it. -/
def Next (p : PairsParams K) (prev : PairPosition) (z : Option K) (new : PairPosition) : Prop :=
  new = p.bands.update prev z ∨ (p.regimeGate = true ∧ prev = .flat ∧ new = .flat)

theorem onBar_next {spread : List K} {s s' : Holding} {z : Option K} {t : ℕ}
    (h : onBar m p spread s (z, t) = .ok s') : Next p s.position z s'.position := by
  unfold onBar at h
  dsimp only at h
  split at h
  · next hgate =>
      obtain ⟨ok, -, h⟩ := bind_eq_ok.mp h
      split at h
      · cases h
        exact Or.inl rfl
      · cases h
        exact Or.inr ⟨hgate.1, hgate.2.1, rfl⟩
  · cases h
    exact Or.inl rfl

/-- The signal stands at the last position. -/
theorem position_after {spread : List K} {z : List (Option K)} {held : Holding}
    (h : positions m p spread z = .ok held) {t : ℕ} (ht : t < z.length) {s : Holding}
    (hs : after (onBar m p spread) {} z.zipIdx (t + 1) = .ok s) :
    s.position = held.pos.getD t .flat := by
  obtain ⟨s', hs', hpos⟩ := positions_take h (Nat.succ_le_of_lt ht)
  rw [hs] at hs'
  obtain rfl := Except.ok.inj hs'
  obtain ⟨s₀, hs₀, hstep⟩ := after_succ_ok (getElem?_enumerate ht) hs
  obtain ⟨s₁, hs₁, hpos₀⟩ := positions_take h ht.le
  rw [hs₀] at hs₁
  obtain rfl := Except.ok.inj hs₁
  have hlen : s₀.pos.length = t := by
    rw [hpos₀, List.length_take, length_positions h, min_eq_left ht.le]
  have hsofar : s.pos.take (t + 1) = held.pos.take (t + 1) := by
    rw [hpos, List.take_take, min_self]
  rw [← getD_congr hsofar (Nat.lt_succ_self t), onBar_pos hstep, List.getD_eq_getElem?_getD,
    List.getElem?_append_right hlen.le, hlen, Nat.sub_self]
  rfl

theorem positions_next {spread : List K} {z : List (Option K)} {held : Holding}
    (h : positions m p spread z = .ok held) {t : ℕ} (ht : t + 1 < z.length) :
    Next p (held.pos.getD t .flat) z[t + 1] (held.pos.getD (t + 1) .flat) := by
  obtain ⟨s, hs, -⟩ := positions_take h (Nat.succ_le_of_lt ht)
  obtain ⟨s₀, hs₀, hstep⟩ := after_succ_ok (getElem?_enumerate ht) hs
  rw [← position_after h (Nat.lt_of_succ_lt ht) hs₀, ← position_after h ht hs]
  exact onBar_next hstep

/-- No entry is made on the first bar when it takes a z-score above zero. -/
theorem first_flat [IsStrictOrderedRing K] (p : PairsParams K) {spread : List K}
    {z : List (Option K)} {held : Holding} (hz : rollingZscore m spread p.window = .ok z)
    (h : positions m p spread z = .ok held) (hentry : 0 < p.bands.entryZ) (hsqrt : m.sqrt 0 = 0) :
    held.pos.getD 0 .flat = .flat := by
  by_cases hlen : 0 < z.length
  · obtain ⟨s, hs, -⟩ := positions_take h (Nat.succ_le_of_lt hlen)
    obtain ⟨s₀, hs₀, hstep⟩ := after_succ_ok (getElem?_enumerate hlen) hs
    obtain rfl := Except.ok.inj hs₀
    rw [← position_after h hlen hs]
    rcases onBar_next hstep with hnext | ⟨-, -, hflat⟩
    · rw [hnext]
      have hspread : 0 < spread.length := by rwa [← length_rollingZscore hz]
      obtain ⟨hwarm, hpast⟩ := rollingZscore_get hz hspread
      have hget : z[0]? = some z[0] := List.getElem?_eq_getElem hlen
      rcases lt_or_ge ((0 : ℕ) : ℤ) (p.window - 1) with hwindow | hwindow
      · rw [hwarm hwindow] at hget
        rw [← Option.some.inj hget]
        rfl
      · obtain ⟨z₀, hz₀, hout⟩ := hpast hwindow
        rw [hout] at hget
        rw [← Option.some.inj hget, zscoreAt_zero hsqrt (by omega) hz₀]
        rw [p.bands.update_flat, if_neg (not_le.mpr hentry), if_neg (by linarith)]
    · exact hflat
  · rw [List.getD_eq_getElem?_getD, List.getElem?_eq_none]
    · rfl
    · rw [length_positions h]
      exact not_lt.mp hlen

/-! ## The balance of the two runs -/

section Balance
variable (on off : List PairPosition)

/-- Only the run without the gate is in a position after bar `t`. -/
def unmatched (t : ℕ) : Bool := on.getD t .flat = .flat && off.getD t .flat ≠ .flat

/-- Both runs are in a position, and on the next bar the gated one alone leaves its own. -/
def stoppedAlone (t : ℕ) : Bool :=
  on.getD t .flat ≠ .flat && off.getD t .flat ≠ .flat &&
    (on.getD (t + 1) .flat = .flat && off.getD (t + 1) .flat ≠ .flat)

/-- The run without the gate leaves a position that the gated one stayed out of, or opens one
while the gated one stays in its own. -/
def spared (t : ℕ) : Bool :=
  (unmatched on off t && on.getD (t + 1) .flat = .flat && off.getD (t + 1) .flat = .flat) ||
    (unmatched off on t && on.getD (t + 1) .flat ≠ .flat && off.getD (t + 1) .flat ≠ .flat)

/-- The next bar opens a position in the run without the gate, if it does in the gated one and
both are flat. -/
def Follows (t : ℕ) : Prop :=
  on.getD t .flat = .flat → off.getD t .flat = .flat → off.getD (t + 1) .flat = .flat →
    on.getD (t + 1) .flat = .flat

variable {on off}

theorem balance_step {t : ℕ} (h : Follows on off t) :
    (opens off t).toNat + (stoppedAlone on off t).toNat + (unmatched on off t).toNat =
      (opens on t).toNat + (spared on off t).toNat + (unmatched on off (t + 1)).toNat := by
  unfold Follows at h
  unfold opens stoppedAlone spared unmatched
  by_cases h₁ : on.getD t .flat = .flat <;> by_cases h₂ : off.getD t .flat = .flat <;>
    by_cases h₃ : on.getD (t + 1) .flat = .flat <;>
      by_cases h₄ : off.getD (t + 1) .flat = .flat <;> simp_all

theorem countP_range_succ (f : ℕ → Bool) (n : ℕ) :
    (List.range (n + 1)).countP f = (List.range n).countP f + (f n).toNat := by
  rw [List.range_succ, List.countP_append, List.countP_singleton]
  cases f n <;> rfl

/-- The trades of the two runs, after any number of steps. -/
theorem balance (n : ℕ) (h : ∀ t < n, Follows on off t) :
    tradesIn off n + (List.range n).countP (stoppedAlone on off) + (unmatched on off 0).toNat =
      tradesIn on n + (List.range n).countP (spared on off) + (unmatched on off n).toNat := by
  induction n with
  | zero => rfl
  | succ n ih =>
      have hsofar := ih fun t ht => h t (Nat.lt_succ_of_lt ht)
      have hstep := balance_step (h n (Nat.lt_succ_self n))
      unfold tradesIn at hsofar ⊢
      rw [countP_range_succ, countP_range_succ, countP_range_succ, countP_range_succ]
      omega

end Balance

/-! ## Opposite sides -/

section Swings
variable (bands : PairsBands K) (zs : List (Option K))

/-- The z-score of bar `t` is outside the exit band. -/
def Beyond (t : ℕ) : Prop := ∃ z ∈ zs.getD t none, bands.exitZ < |z|

/-- A z-score that a flat signal answers with this position. -/
def Enters (position : PairPosition) (t : ℕ) : Prop :=
  position ≠ .flat ∧ ∃ z ∈ zs.getD t none, bands.update .flat (some z) = position

/-- The z-score has called for this position, and has been outside the exit band since. -/
def CalledFor (position : PairPosition) (t : ℕ) : Prop :=
  ∃ e ≤ t, Enters bands zs position e ∧ ∀ v, e ≤ v → v ≤ t → Beyond bands zs v

/-- It has called for either side so. -/
def Swung (t : ℕ) : Prop :=
  CalledFor bands zs .shortSpread t ∧ CalledFor bands zs .longSpread t

/-- No z-score reaches the stop on a bar before which it had swung. -/
def NoStopAfterSwing : Prop :=
  ∀ stop ∈ bands.stopZ, ∀ t, ∀ z ∈ zs.getD (t + 1) none, stop ≤ |z| → ¬ Swung bands zs t

variable {bands zs} {t : ℕ} {position : PairPosition} {z : K}

theorem CalledFor.succ (h : CalledFor bands zs position t) (hbeyond : Beyond bands zs (t + 1)) :
    CalledFor bands zs position (t + 1) := by
  obtain ⟨e, he, henters, hout⟩ := h
  refine ⟨e, Nat.le_succ_of_le he, henters, fun v hv hle => ?_⟩
  rcases Nat.lt_or_eq_of_le hle with hlt | rfl
  · exact hout v hv (Nat.le_of_lt_succ hlt)
  · exact hbeyond

/-- An entry is outside the exit band. -/
theorem calledFor_enter [IsStrictOrderedRing K] (hz : zs.getD t none = some z)
    (h : bands.update .flat (some z) ≠ .flat) :
    CalledFor bands zs (bands.update .flat (some z)) t := by
  have hout : bands.entryZ ≤ |z| := by
    by_contra hin
    obtain ⟨hlow, hhigh⟩ := abs_lt.mp (not_le.mp hin)
    rw [bands.update_flat, if_neg (not_le.mpr hhigh), if_neg (not_le.mpr hlow)] at h
    exact h rfl
  refine ⟨t, le_rfl, ⟨h, z, hz, rfl⟩, fun v hv hle => ?_⟩
  obtain rfl := Nat.le_antisymm hv hle
  exact ⟨z, hz, bands.hysteresis.trans_le hout⟩

/-- A position that is kept on the next bar is outside the exit band there. -/
theorem CalledFor.kept (h : CalledFor bands zs position t) (hposition : position ≠ .flat)
    (hz : zs.getD (t + 1) none = some z) (hkept : bands.update position (some z) ≠ .flat) :
    CalledFor bands zs (bands.update position (some z)) (t + 1) := by
  have hnot := mt (bands.update_eq_flat_iff hposition z).mpr hkept
  obtain ⟨hblown, hout⟩ := not_or.mp hnot
  have hsame : bands.update position (some z) = position := by
    rw [PairsBands.update, if_neg hposition, if_neg]
    rw [Bool.or_eq_true, decide_eq_true_eq]
    exact hnot
  rw [hsame]
  exact h.succ ⟨z, hz, not_le.mp hout⟩

theorem CalledFor.ne_flat (h : CalledFor bands zs position t) : position ≠ .flat := by
  obtain ⟨e, -, henters, -⟩ := h
  exact henters.1

/-- Calls for two different sides are a swing. -/
theorem swung_of_ne {other : PairPosition} (h : CalledFor bands zs position t)
    (h' : CalledFor bands zs other t) (hne : position ≠ other) : Swung bands zs t := by
  cases position with
  | flat => exact absurd rfl h.ne_flat
  | shortSpread =>
      cases other with
      | flat => exact absurd rfl h'.ne_flat
      | shortSpread => exact absurd rfl hne
      | longSpread => exact ⟨h, h'⟩
  | longSpread =>
      cases other with
      | flat => exact absurd rfl h'.ne_flat
      | shortSpread => exact ⟨h', h⟩
      | longSpread => exact absurd rfl hne

theorem blown_reached [IsStrictOrderedRing K] (h : bands.blown position z = true) :
    ∃ stop ∈ bands.stopZ, stop ≤ |z| := by
  unfold PairsBands.blown at h
  split at h
  · cases h
  · next s hs =>
      refine ⟨s, hs, ?_⟩
      simp only [Bool.or_eq_true, Bool.and_eq_true, decide_eq_true_eq] at h
      rcases h with ⟨-, hup⟩ | ⟨-, hdown⟩
      · exact hup.trans (le_abs_self z)
      · exact (le_neg.mpr hdown).trans (neg_le_abs z)

end Swings

/-! ## With the gate and without -/

/-- The parameters with the gate on, or off. -/
def withGate (p : PairsParams K) (regimeGate : Bool) : PairsParams K := { p with regimeGate }

/-- The two runs on one pair of series. -/
structure Compared (m : Maths K) (p : PairsParams K) (a b : List K) where
  spread : List K
  z : List (Option K)
  on : Holding
  off : Holding
  spread_ok : spreadOf p a b = .ok spread
  z_ok : rollingZscore m spread p.window = .ok z
  on_ok : positions m (withGate p true) spread z = .ok on
  off_ok : positions m (withGate p false) spread z = .ok off

namespace Compared

variable {a b : List K} (c : Compared m p a b)

def steps : ℕ := c.spread.length - 1

theorem on_next {t : ℕ} (ht : t + 1 < c.z.length) :
    c.on.pos.getD (t + 1) .flat = p.bands.update (c.on.pos.getD t .flat) c.z[t + 1] ∨
      (c.on.pos.getD t .flat = .flat ∧ c.on.pos.getD (t + 1) .flat = .flat) :=
  (positions_next c.on_ok ht).imp_right And.right

theorem off_next {t : ℕ} (ht : t + 1 < c.z.length) :
    c.off.pos.getD (t + 1) .flat = p.bands.update (c.off.pos.getD t .flat) c.z[t + 1] :=
  (positions_next c.off_ok ht).resolve_right fun h => Bool.false_ne_true h.1

theorem follows {t : ℕ} (ht : t < c.steps) : Follows c.on.pos c.off.pos t := by
  intro hon hoff hnext
  have hlen : t + 1 < c.z.length := by
    rw [length_rollingZscore c.z_ok]
    exact Nat.add_lt_of_lt_sub ht
  rw [c.off_next hlen, hoff] at hnext
  rcases c.on_next hlen with h | h
  · rw [h, hon, hnext]
  · exact h.2

/-- The gated run is stopped out of a side while the other run holds the opposite one. -/
theorem stopped_opposite {t : ℕ} (ht : t < c.steps)
    (h : stoppedAlone c.on.pos c.off.pos t = true) :
    c.on.pos.getD t .flat ≠ c.off.pos.getD t .flat ∧
      ∃ z ∈ c.z.getD (t + 1) none, p.bands.blown (c.on.pos.getD t .flat) z = true := by
  have hlen : t + 1 < c.z.length := by
    rw [length_rollingZscore c.z_ok]
    exact Nat.add_lt_of_lt_sub ht
  simp only [stoppedAlone, Bool.and_eq_true, decide_eq_true_eq] at h
  obtain ⟨⟨hon, hoff⟩, hon', hoff'⟩ := h
  have hleft := (c.on_next hlen).resolve_right fun h => hon h.1
  rw [hon'] at hleft
  rw [c.off_next hlen] at hoff'
  rw [show c.z.getD (t + 1) none = c.z[t + 1] by
    rw [List.getD_eq_getElem?_getD, List.getElem?_eq_getElem hlen, Option.getD_some]]
  generalize c.z[t + 1] = z at hleft hoff'
  cases z with
  | none => exact absurd hleft.symm hon
  | some z =>
      have hout := (p.bands.update_eq_flat_iff hon z).mp hleft.symm
      obtain ⟨hkept, hfar⟩ := not_or.mp (mt (p.bands.update_eq_flat_iff hoff z).mpr hoff')
      have hblown := hout.resolve_right hfar
      refine ⟨?_, z, rfl, hblown⟩
      intro hsame
      rw [hsame] at hblown
      exact hkept hblown

/-- The trades of the two runs, on as many bars as one likes. -/
theorem balance_trades {n : ℕ} (hn : n ≤ c.steps) :
    tradesIn c.off.pos n + (List.range n).countP (stoppedAlone c.on.pos c.off.pos) +
        (unmatched c.on.pos c.off.pos 0).toNat =
      tradesIn c.on.pos n + (List.range n).countP (spared c.on.pos c.off.pos) +
        (unmatched c.on.pos c.off.pos n).toNat :=
  balance n fun _ ht => c.follows (ht.trans_le hn)

/-- Once there is a z-score, there is one on every bar. -/
theorem some_of_some {t : ℕ} {z : K} (hz : c.z.getD t none = some z) (ht : t + 1 < c.z.length) :
    ∃ z', c.z.getD (t + 1) none = some z' := by
  have hlen : t + 1 < c.spread.length := by rwa [← length_rollingZscore c.z_ok]
  obtain ⟨hwarm, -⟩ := rollingZscore_get c.z_ok (Nat.lt_of_succ_lt hlen)
  obtain ⟨-, hpast⟩ := rollingZscore_get c.z_ok hlen
  have hwindow : p.window - 1 ≤ t := by
    by_contra hlt
    rw [List.getD_eq_getElem?_getD, hwarm (not_le.mp hlt)] at hz
    cases hz
  obtain ⟨z', -, hget⟩ := hpast (by push_cast; omega)
  exact ⟨z', by rw [List.getD_eq_getElem?_getD, hget, Option.getD_some]⟩

/-- The z-score has called for every position that is held: the step from one bar to the next. -/
theorem calledFor_next [IsStrictOrderedRing K] {pos new : PairPosition} {t : ℕ}
    (ht : t + 1 < c.z.length) (hheld : pos ≠ .flat → CalledFor p.bands c.z pos t)
    (hnext : new = p.bands.update pos c.z[t + 1] ∨ (pos = .flat ∧ new = .flat))
    (hnew : new ≠ .flat) : CalledFor p.bands c.z new (t + 1) := by
  obtain rfl := hnext.resolve_right fun h => hnew h.2
  have hget : c.z.getD (t + 1) none = c.z[t + 1] := by
    rw [List.getD_eq_getElem?_getD, List.getElem?_eq_getElem ht, Option.getD_some]
  by_cases hpos : pos = .flat
  · subst hpos
    cases hz : c.z[t + 1] with
    | none =>
        rw [hz] at hnew
        exact absurd rfl hnew
    | some z =>
        rw [hz] at hget hnew
        exact calledFor_enter hget hnew
  · obtain ⟨e, he, -, hout⟩ := hheld hpos
    obtain ⟨z₀, hz₀, -⟩ := hout t he le_rfl
    obtain ⟨z, hz⟩ := c.some_of_some hz₀ ht
    rw [← hget, hz] at hnew ⊢
    exact (hheld hpos).kept hpos hz hnew

theorem on_calledFor [IsStrictOrderedRing K] (hentry : 0 < p.bands.entryZ) (hsqrt : m.sqrt 0 = 0)
    {t : ℕ} (ht : t < c.z.length) (hpos : c.on.pos.getD t .flat ≠ .flat) :
    CalledFor p.bands c.z (c.on.pos.getD t .flat) t := by
  induction t with
  | zero => exact absurd (first_flat (withGate p true) c.z_ok c.on_ok hentry hsqrt) hpos
  | succ t ih => exact c.calledFor_next ht (ih (Nat.lt_of_succ_lt ht)) (c.on_next ht) hpos

theorem off_calledFor [IsStrictOrderedRing K] (hentry : 0 < p.bands.entryZ) (hsqrt : m.sqrt 0 = 0)
    {t : ℕ} (ht : t < c.z.length) (hpos : c.off.pos.getD t .flat ≠ .flat) :
    CalledFor p.bands c.z (c.off.pos.getD t .flat) t := by
  induction t with
  | zero => exact absurd (first_flat (withGate p false) c.z_ok c.off_ok hentry hsqrt) hpos
  | succ t ih =>
      exact c.calledFor_next ht (ih (Nat.lt_of_succ_lt ht)) (Or.inl (c.off_next ht)) hpos

/-- Where no stop is reached after a swing, the gated run is never stopped out alone. -/
theorem never_stopped [IsStrictOrderedRing K] (hentry : 0 < p.bands.entryZ) (hsqrt : m.sqrt 0 = 0)
    (hstop : NoStopAfterSwing p.bands c.z) {t : ℕ} (ht : t < c.steps) :
    stoppedAlone c.on.pos c.off.pos t = false := by
  refine Bool.eq_false_iff.mpr fun h => ?_
  obtain ⟨hne, z, hz, hblown⟩ := c.stopped_opposite ht h
  simp only [stoppedAlone, Bool.and_eq_true, decide_eq_true_eq] at h
  obtain ⟨⟨hon, hoff⟩, -⟩ := h
  have hlen : t < c.z.length := by
    rw [length_rollingZscore c.z_ok]
    exact ht.trans_le (Nat.sub_le _ _)
  obtain ⟨s, hs, hreached⟩ := blown_reached hblown
  exact hstop s hs t z hz hreached (swung_of_ne (c.on_calledFor hentry hsqrt hlen hon)
    (c.off_calledFor hentry hsqrt hlen hoff) hne)

/-- The gated run makes no more trades, on as many bars as one likes. -/
theorem trades_le [IsStrictOrderedRing K] (hentry : 0 < p.bands.entryZ) (hsqrt : m.sqrt 0 = 0)
    (hstop : NoStopAfterSwing p.bands c.z) {n : ℕ} (hn : n ≤ c.steps) :
    tradesIn c.on.pos n ≤ tradesIn c.off.pos n := by
  have hbalance := c.balance_trades hn
  have hnone : (List.range n).countP (stoppedAlone c.on.pos c.off.pos) = 0 := by
    refine List.countP_eq_zero.mpr fun t ht => ?_
    rw [c.never_stopped hentry hsqrt hstop ((List.mem_range.mp ht).trans_le hn)]
    exact Bool.false_ne_true
  have hmatched : unmatched c.on.pos c.off.pos 0 = false := by
    rw [unmatched, first_flat (withGate p false) c.z_ok c.off_ok hentry hsqrt]
    simp
  rw [hnone, hmatched, Bool.toNat_false] at hbalance
  omega

end Compared

theorem exists_compared {a b : List K} {r r' : PairsBacktestResult K}
    (h : backtestPairs m (withGate p true) a b = .ok r)
    (h' : backtestPairs m (withGate p false) a b = .ok r') :
    ∃ c : Compared m p a b, r.nTrades = tradesIn c.on.pos c.steps ∧
      r'.nTrades = tradesIn c.off.pos c.steps := by
  obtain ⟨run⟩ := backtestPairs_run h
  obtain ⟨run'⟩ := backtestPairs_run h'
  have hspread : run'.spread = run.spread := by
    have hok : spreadOf p a b = .ok run'.spread := run'.spread_ok
    rw [show spreadOf p a b = .ok run.spread from run.spread_ok] at hok
    exact (Except.ok.inj hok).symm
  have hz : run'.z = run.z := by
    have hok : rollingZscore m run'.spread p.window = .ok run'.z := run'.z_ok
    rw [hspread, show rollingZscore m run.spread p.window = .ok run.z from run.z_ok] at hok
    exact (Except.ok.inj hok).symm
  have hoff := run'.held_ok
  rw [hspread, hz] at hoff
  refine ⟨⟨run.spread, run.z, run.held, run'.held, run.spread_ok, run.z_ok, run.held_ok, hoff⟩,
    congrArg (·.nTrades) run.report_eq, ?_⟩
  have hsteps : run'.spread.length - 1 = run.spread.length - 1 := by rw [hspread]
  exact (congrArg (·.nTrades) run'.report_eq).trans (congrArg (tradesIn run'.held.pos) hsteps)

/-- The gate only removes trades where no z-score reaches the stop after a swing. -/
theorem gate_removes [IsStrictOrderedRing K] {a b : List K} {r r' : PairsBacktestResult K}
    (hentry : 0 < p.bands.entryZ) (hsqrt : m.sqrt 0 = 0)
    (hstop : ∀ spread z, spreadOf p a b = .ok spread → rollingZscore m spread p.window = .ok z →
      NoStopAfterSwing p.bands z)
    (h : backtestPairs m (withGate p true) a b = .ok r)
    (h' : backtestPairs m (withGate p false) a b = .ok r') : r.nTrades ≤ r'.nTrades := by
  obtain ⟨c, hon, hoff⟩ := exists_compared h h'
  rw [hon, hoff]
  exact c.trades_le hentry hsqrt (hstop c.spread c.z c.spread_ok c.z_ok) le_rfl

/-- Bands of one deviation with a stop at one and a half, and a regime over twelve bars. -/
def stopping : PairsParams ℚ where
  alpha := 0
  beta := 0
  window := 4
  bands := {
    entryZ := 1, exitZ := 1 / 10, stopZ := some (3 / 2)
    hysteresis := by norm_num, stop := by norm_num }
  feePerLeg := 5 / 10 ^ 4
  regimeWindow := 12
  regime := { level := 5 / 100, maxHalfLife := 500, vrMax := 9 / 10 }

def swings : List ℚ :=
  [97, 110, 99, 108, 107, 103, 93, 91, 97, 99, 97, 95, 96, 101, 111, 111, 107, 98, 110]

def still : List ℚ := swings.map fun _ => 0

/-- The z-scores of the first seven bars. -/
def swingScores : List (Option ℚ) :=
  [none, none, none, some (4500000000000 / 5590169943749), some (100000000000 / 418330013267),
    some (-1250000000000 / 3561951712193), some (-2437500000000 / 1482976314713)]

/-- Seven bars: the last one is the first that calls for a position, and the gate vetoes it. -/
theorem gate_removes_seven : ∃ r r',
    backtestPairs .decimal (withGate stopping true) (swings.take 7) (still.take 7) = .ok r ∧
      backtestPairs .decimal (withGate stopping false) (swings.take 7) (still.take 7) = .ok r' ∧
      r.nTrades ≤ r'.nTrades := by
  obtain ⟨r, hr⟩ := exists_of_toBool (show (backtestPairs .decimal (withGate stopping true)
    (swings.take 7) (still.take 7)).toBool = true by decide +kernel)
  obtain ⟨r', hr'⟩ := exists_of_toBool (show (backtestPairs .decimal (withGate stopping false)
    (swings.take 7) (still.take 7)).toBool = true by decide +kernel)
  have hspread : spreadOf stopping (swings.take 7) (still.take 7) = .ok (swings.take 7) := by
    decide +kernel
  have hscores : rollingZscore .decimal (swings.take 7) stopping.window = .ok swingScores := by
    decide +kernel
  have hquiet : ∀ e < 6, ∀ z ∈ swingScores.getD e none,
      stopping.bands.update .flat (some z) ≠ .shortSpread := by decide +kernel
  refine ⟨r, r', hr, hr', gate_removes (by decide +kernel) (by decide +kernel) ?_ hr hr'⟩
  intro spread z hs hz
  rw [hspread] at hs
  obtain rfl := Except.ok.inj hs
  rw [hscores] at hz
  obtain rfl := Except.ok.inj hz
  intro stop _ t z hz _ hswung
  obtain ⟨e, he, ⟨-, z', hz', henters⟩, -⟩ := hswung.1
  rcases Nat.lt_or_ge t 6 with hlt | hge
  · exact hquiet e (he.trans_lt hlt) z' hz' henters
  · rw [List.getD_eq_getElem?_getD, List.getElem?_eq_none (Nat.succ_le_succ hge)] at hz
    cases hz

/-- The first entry is vetoed, for want of history; the gated run then goes short while the
other one is long, is stopped out, and enters again. -/
theorem gate_adds_trade :
    (backtestPairs .decimal (withGate stopping true) swings still).map (·.nTrades) = .ok 2 ∧
      (backtestPairs .decimal (withGate stopping false) swings still).map (·.nTrades) = .ok 1 := by
  decide +kernel

end Backtest

end TreasuryForge
