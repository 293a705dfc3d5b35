/-
# `Backtest.Pairs` — the backtest of a pairs trade, and what of the future it sees

`backtest/pairs_backtest.py`.  Spread, z-scores, gate and positions look at nothing later
(`positions_congr`); the notional that every return is divided by is a mean over the whole
series.  `no_look_ahead_iff` says when that shows in the returns up to a bar.
-/
import TreasuryForge.Signals.Pairs
import Mathlib.Data.List.ReduceOption
import Mathlib.Tactic.FieldSimp
import Mathlib.Tactic.Linarith

namespace TreasuryForge

namespace Backtest

open Loop Signals

variable {K : Type} [Field K] [LinearOrder K] (m : Maths K)

structure PairsParams (K : Type) [Field K] [LinearOrder K] where
  alpha : K
  beta : K
  window : ℤ := 60
  bands : PairsBands K
  feePerLeg : K := 5 / 10 ^ 4
  regimeGate : Bool := false
  regimeWindow : ℤ := 240
  regime : RegimeParams K

structure PairsBacktestResult (K : Type) where
  returns : List K
  equityCurve : List K
  nTrades : ℕ
  pctInPosition : K
  totalReturn : K
  nGated : ℕ

variable (p : PairsParams K)

def spreadOf (a b : List K) : Except String (List K) :=
  if b.length < a.length then .error "IndexError: list index out of range"
  else .ok (List.zipWith (fun x y => x - (p.alpha + p.beta * y)) a b)

/-- The gross dollar notional. -/
def notional (a b : List K) : Except String K := do
  let n := (← divide a.sum a.length) + |p.beta| * (← divide b.sum b.length)
  return if n ≤ 0 then 1 else n

/-! ## Positions -/

structure Holding where
  position : PairPosition := .flat
  pos : List PairPosition := []
  nGated : ℕ := 0
  deriving DecidableEq, Repr

/-- Whether an entry on bar `t` is let in: the bars up to it have to show the regime. -/
def admitted (spread : List K) (t : ℕ) : Except String Bool :=
  if p.regimeWindow ≤ t + 1 then
    (·.tradeable) <$> assessSpreadRegime m p.regime (slice spread (t + 1 - p.regimeWindow) (t + 1))
  else .ok false

/-- One bar: the signal, and the gate on what it opens. -/
def onBar (spread : List K) (s : Holding) (bar : Option K × ℕ) : Except String Holding :=
  let new := p.bands.update s.position bar.1
  if p.regimeGate = true ∧ s.position = .flat ∧ new ≠ .flat then do
    if ← admitted m p spread bar.2 then return { s with position := new, pos := s.pos ++ [new] }
    else return { position := .flat, pos := s.pos ++ [.flat], nGated := s.nGated + 1 }
  else .ok { s with position := new, pos := s.pos ++ [new] }

def positions (spread : List K) (z : List (Option K)) : Except String Holding :=
  z.zipIdx.foldlM (onBar m p spread) {}

/-! ## Returns -/

/-- The return of the step from bar `t` to the next one. -/
def stepReturn (spread : List K) (pos : List PairPosition) (notional : K) (t : ℕ) : K :=
  let held : K := (pos.getD t .flat).value
  let next : K := (pos.getD (t + 1) .flat).value
  held * (spread.getD (t + 1) 0 - spread.getD t 0) / notional - p.feePerLeg * |next - held|

/-- A position is opened on the step from bar `t` to the next one. -/
def opens (pos : List PairPosition) (t : ℕ) : Bool :=
  pos.getD (t + 1) .flat ≠ .flat && pos.getD t .flat = .flat

def tradesIn (pos : List PairPosition) (steps : ℕ) : ℕ := (List.range steps).countP (opens pos)

def report (spread : List K) (held : Holding) (notional : K) : PairsBacktestResult K :=
  let steps := spread.length - 1
  let returns := (List.range steps).map (stepReturn p spread held.pos notional)
  let equity := (returns.scanl (fun acc r => acc * (1 + r)) 1).tail
  let inCount := (List.range steps).countP fun t => held.pos.getD t .flat ≠ .flat
  { returns
    equityCurve := equity
    nTrades := tradesIn held.pos steps
    pctInPosition := if returns = [] then 0 else inCount / returns.length
    totalReturn := match equity.getLast? with | some e => e - 1 | none => 0
    nGated := held.nGated }

def backtestPairs (a b : List K) : Except String (PairsBacktestResult K) := do
  let spread ← spreadOf p a b
  let z ← rollingZscore m spread p.window
  let notional ← notional p a b
  let held ← positions m p spread z
  return report p spread held notional

/-! ## A run, and its parts -/

/-- What a run that returns has come by. -/
structure Run (a b : List K) (r : PairsBacktestResult K) where
  spread : List K
  z : List (Option K)
  scale : K
  held : Holding
  spread_ok : spreadOf p a b = .ok spread
  z_ok : rollingZscore m spread p.window = .ok z
  scale_ok : notional p a b = .ok scale
  held_ok : positions m p spread z = .ok held
  report_eq : r = report p spread held scale

variable {m p}

theorem backtestPairs_run {a b : List K} {r : PairsBacktestResult K}
    (h : backtestPairs m p a b = .ok r) : Nonempty (Run m p a b r) := by
  obtain ⟨spread, hspread, h⟩ := bind_eq_ok.mp h
  obtain ⟨z, hz, h⟩ := bind_eq_ok.mp h
  obtain ⟨scale, hscale, h⟩ := bind_eq_ok.mp h
  obtain ⟨held, hheld, h⟩ := bind_eq_ok.mp h
  exact ⟨spread, z, scale, held, hspread, hz, hscale, hheld, (Except.ok.inj h).symm⟩

theorem spreadOf_congr {a b a' b' spread spread' : List K} {t : ℕ}
    (h : spreadOf p a b = .ok spread) (h' : spreadOf p a' b' = .ok spread')
    (ha : a.take t = a'.take t) (hb : b.take t = b'.take t) : spread.take t = spread'.take t := by
  unfold spreadOf at h h'
  split at h
  · cases h
  · split at h'
    · cases h'
    · obtain rfl := Except.ok.inj h
      obtain rfl := Except.ok.inj h'
      rw [List.take_zipWith, List.take_zipWith, ha, hb]

theorem length_spreadOf {a b spread : List K} (h : spreadOf p a b = .ok spread) :
    spread.length = a.length := by
  unfold spreadOf at h
  split at h
  · cases h
  · next hlen =>
      obtain rfl := Except.ok.inj h
      rw [List.length_zipWith, min_eq_left (not_lt.mp hlen)]

/-- The notional is positive. -/
theorem notional_pos [IsStrictOrderedRing K] {a b : List K} {scale : K}
    (h : notional p a b = .ok scale) : 0 < scale := by
  obtain ⟨x, -, h⟩ := bind_eq_ok.mp h
  obtain ⟨y, -, h⟩ := bind_eq_ok.mp h
  obtain rfl := Except.ok.inj h
  split
  · exact one_pos
  · next hle => exact not_le.mp hle

/-- A bar adds one position, and leaves the earlier ones. -/
theorem onBar_pos {spread : List K} {s s' : Holding} {bar : Option K × ℕ}
    (h : onBar m p spread s bar = .ok s') : s'.pos = s.pos ++ [s'.position] := by
  unfold onBar at h
  dsimp only at h
  split at h
  · obtain ⟨ok, -, h⟩ := bind_eq_ok.mp h
    split at h
    · cases h
      rfl
    · cases h
      rfl
  · cases h
    rfl

theorem admitted_congr {spread spread' : List K} {t k : ℕ} (hk : k < t)
    (hagree : spread.take t = spread'.take t) : admitted m p spread k = admitted m p spread' k := by
  unfold admitted
  split
  · rw [slice_congr hagree (by omega) (by omega) (by omega)]
  · rfl

theorem onBar_congr {spread spread' : List K} {t k : ℕ} (hk : k < t)
    (hagree : spread.take t = spread'.take t) (s : Holding) (z : Option K) :
    onBar m p spread s (z, k) = onBar m p spread' s (z, k) := by
  unfold onBar
  rw [admitted_congr hk hagree]

/-- After so many bars, the positions so far are those of the whole run. -/
theorem positions_take {spread : List K} {z : List (Option K)} {held : Holding}
    (h : positions m p spread z = .ok held) {k : ℕ} (hk : k ≤ z.length) :
    ∃ s, after (onBar m p spread) {} z.zipIdx k = .ok s ∧ s.pos = held.pos.take k := by
  obtain ⟨s, hs, hrest⟩ := exists_after h k
  refine ⟨s, hs, ?_⟩
  have hlength : s.pos.length = k :=
    after_keeps (P := fun k s => s.pos.length = k) rfl
      (fun _ _ _ _ _ hlen hbar => by rw [onBar_pos hbar, List.length_append, hlen]; rfl)
      k (by rwa [List.length_zipIdx]) s hs
  have hprefix : s.pos <+: held.pos :=
    foldlM_keeps (P := fun _ s' => s.pos <+: s'.pos) hrest List.prefix_rfl
      (fun _ _ _ _ _ hsofar hbar => by
        rw [onBar_pos hbar]
        exact hsofar.trans (List.prefix_append _ _))
  rw [List.prefix_iff_eq_take.mp hprefix, hlength]

theorem length_positions {spread : List K} {z : List (Option K)} {held : Holding}
    (h : positions m p spread z = .ok held) : held.pos.length = z.length := by
  have hlength := foldlM_keeps (P := fun k s => s.pos.length = k) h rfl
    (fun _ _ _ _ _ hlen hbar => by rw [onBar_pos hbar, List.length_append, hlen]; rfl)
  rwa [List.length_zipIdx] at hlength

/-- Positions look at nothing later. -/
theorem positions_congr {spread spread' : List K} {z z' : List (Option K)} {held held' : Holding}
    {t : ℕ} (h : positions m p spread z = .ok held) (h' : positions m p spread' z' = .ok held')
    (ht : t ≤ z.length) (ht' : t ≤ z'.length) (hagree : spread.take t = spread'.take t)
    (hz : z.take t = z'.take t) : held.pos.take t = held'.pos.take t := by
  obtain ⟨s, hs, hpos⟩ := positions_take h ht
  obtain ⟨s', hs', hpos'⟩ := positions_take h' ht'
  have hlen : t ≤ z.zipIdx.length := by rwa [List.length_zipIdx]
  have hlen' : t ≤ z'.zipIdx.length := by rwa [List.length_zipIdx]
  have hstep : ∀ k < t, ∀ bar bar', z.zipIdx[k]? = some bar → z'.zipIdx[k]? = some bar' →
      ∀ s₁ s₂, id s₁ = id s₂ →
        (onBar m p spread s₁ bar).map id = (onBar m p spread' s₂ bar').map id := by
    rintro k hk bar bar' hbar hbar' s₁ _ rfl
    rw [List.getElem?_zipIdx, getElem?_congr hz hk] at hbar
    rw [List.getElem?_zipIdx] at hbar'
    obtain ⟨x, hx, rfl⟩ := Option.map_eq_some_iff.mp hbar'
    rw [hx] at hbar
    obtain rfl := Option.some.inj hbar
    rw [zero_add, onBar_congr hk hagree]
    rfl
  have hsame : (after (onBar m p spread) {} z.zipIdx t).map id =
      (after (onBar m p spread') {} z'.zipIdx t).map id := after_congr rfl hlen hlen' hstep
  rw [hs, hs'] at hsame
  rw [← hpos, ← hpos', show s = s' from Except.ok.inj hsame]

/-! ## Look-ahead -/

/-- A position is held over the step from bar `t` to the next one, and the spread moves. -/
def Exposed (m : Maths K) (p : PairsParams K) (a b : List K) (t : ℕ) : Prop :=
  ∃ spread z held, spreadOf p a b = .ok spread ∧ rollingZscore m spread p.window = .ok z ∧
    positions m p spread z = .ok held ∧ held.pos.getD t .flat ≠ .flat ∧
    spread.getD (t + 1) 0 ≠ spread.getD t 0

theorem Run.exposed_iff {a b : List K} {r : PairsBacktestResult K} (run : Run m p a b r) (t : ℕ) :
    Exposed m p a b t ↔ run.held.pos.getD t .flat ≠ .flat ∧
      run.spread.getD (t + 1) 0 ≠ run.spread.getD t 0 := by
  constructor
  · rintro ⟨spread, z, held, hspread, hz, hheld, hexposed⟩
    rw [run.spread_ok] at hspread
    obtain rfl := Except.ok.inj hspread
    rw [run.z_ok] at hz
    obtain rfl := Except.ok.inj hz
    rw [run.held_ok] at hheld
    obtain rfl := Except.ok.inj hheld
    exact hexposed
  · intro hexposed
    exact ⟨_, _, _, run.spread_ok, run.z_ok, run.held_ok, hexposed⟩

theorem value_eq_zero_iff [IsStrictOrderedRing K] {position : PairPosition} :
    (position.value : K) = 0 ↔ position = .flat := by
  cases position <;> simp [PairPosition.value]

/-- Two notionals make the same of a step exactly when they are the same, or the step earns
nothing. -/
theorem stepReturn_eq_iff [IsStrictOrderedRing K] {spread : List K} {pos : List PairPosition}
    {scale scale' : K} (hpos : 0 < scale) (hpos' : 0 < scale') (t : ℕ) :
    stepReturn p spread pos scale t = stepReturn p spread pos scale' t ↔
      scale = scale' ∨
        ¬ (pos.getD t .flat ≠ .flat ∧ spread.getD (t + 1) 0 ≠ spread.getD t 0) := by
  unfold stepReturn
  dsimp only
  rw [sub_left_inj, div_eq_div_iff hpos.ne' hpos'.ne', mul_eq_mul_left_iff, mul_eq_zero,
    value_eq_zero_iff, sub_eq_zero, not_and_or, not_not, not_not]
  exact or_congr_left eq_comm

theorem stepReturn_congr {spread spread' : List K} {pos pos' : List PairPosition} {t k : ℕ}
    (hk : k < t) (hspread : spread.take (t + 1) = spread'.take (t + 1))
    (hpos : pos.take (t + 1) = pos'.take (t + 1)) (scale : K) :
    stepReturn p spread pos scale k = stepReturn p spread' pos' scale k := by
  have hnow : k < t + 1 := Nat.lt_succ_of_lt hk
  have hnext : k + 1 < t + 1 := Nat.succ_lt_succ hk
  unfold stepReturn
  rw [getD_congr hspread hnow, getD_congr hspread hnext, getD_congr hpos hnow,
    getD_congr hpos hnext]

/-- On series that agree up to bar `t`, the returns up to it are the same exactly when the
notionals of the whole series are, or no position is held up to it while the spread moves. -/
theorem no_look_ahead_iff [IsStrictOrderedRing K] {a b a' b' : List K} {t : ℕ}
    {r r' : PairsBacktestResult K} (h : backtestPairs m p a b = .ok r)
    (h' : backtestPairs m p a' b' = .ok r') (ht : t < a.length) (ht' : t < a'.length)
    (ha : a.take (t + 1) = a'.take (t + 1)) (hb : b.take (t + 1) = b'.take (t + 1)) :
    r.returns.take t = r'.returns.take t ↔
      notional p a b = notional p a' b' ∨ ∀ s < t, ¬ Exposed m p a b s := by
  obtain ⟨run⟩ := backtestPairs_run h
  obtain ⟨run'⟩ := backtestPairs_run h'
  have hlen := length_spreadOf run.spread_ok
  have hlen' := length_spreadOf run'.spread_ok
  have hspread := spreadOf_congr run.spread_ok run'.spread_ok ha hb
  have hz := rollingZscore_congr run.z_ok run'.z_ok hspread
  have hpos := positions_congr run.held_ok run'.held_ok
    (by rw [length_rollingZscore run.z_ok]; omega) (by rw [length_rollingZscore run'.z_ok]; omega)
    hspread hz
  have hscale : notional p a b = notional p a' b' ↔ run.scale = run'.scale := by
    rw [run.scale_ok, run'.scale_ok, Except.ok.injEq]
  rw [run.report_eq, run'.report_eq, report, report, ← List.map_take, ← List.map_take,
    List.take_range, List.take_range, min_eq_left (by omega), min_eq_left (by omega),
    List.map_inj_left, hscale]
  have hstep : ∀ k < t, stepReturn p run.spread run.held.pos run.scale k =
      stepReturn p run'.spread run'.held.pos run'.scale k ↔
        run.scale = run'.scale ∨ ¬ Exposed m p a b k := fun k hk => by
    rw [← stepReturn_congr hk hspread hpos, run.exposed_iff,
      stepReturn_eq_iff (notional_pos run.scale_ok) (notional_pos run'.scale_ok)]
  constructor
  · intro hall
    by_cases hsame : run.scale = run'.scale
    · exact Or.inl hsame
    · refine Or.inr fun k hk => ?_
      exact ((hstep k hk).mp (hall k (List.mem_range.mpr hk))).resolve_left hsame
  · rintro (hsame | hnone) k hk
    · exact (hstep k (List.mem_range.mp hk)).mpr (Or.inl hsame)
    · exact (hstep k (List.mem_range.mp hk)).mpr (Or.inr (hnone k (List.mem_range.mp hk)))

/-- A window of two bars, and bands of one deviation. -/
def narrow : PairsParams ℚ where
  alpha := 0
  beta := 0
  window := 2
  bands := { entryZ := 1, exitZ := 1 / 2, hysteresis := by norm_num, stop := by simp }
  feePerLeg := 5 / 10 ^ 4
  regime := { level := 5 / 100, maxHalfLife := 500, vrMax := 9 / 10 }

def falling (last : ℚ) : List ℚ := [100, 102, 101, last]

/-- Up to bar 1 nothing is held, and the last price cannot be seen. -/
theorem no_look_ahead_iff_first : ∃ r r',
    backtestPairs .decimal narrow (falling 105) [0, 0, 0, 0] = .ok r ∧
      backtestPairs .decimal narrow (falling 201) [0, 0, 0, 0] = .ok r' ∧
      (r.returns.take 1 = r'.returns.take 1 ↔
        notional narrow (falling 105) [0, 0, 0, 0] = notional narrow (falling 201) [0, 0, 0, 0] ∨
          ∀ s < 1, ¬ Exposed .decimal narrow (falling 105) [0, 0, 0, 0] s) := by
  obtain ⟨r, hr⟩ := exists_of_toBool
    (show (backtestPairs .decimal narrow (falling 105) [0, 0, 0, 0]).toBool = true by
      decide +kernel)
  obtain ⟨r', hr'⟩ := exists_of_toBool
    (show (backtestPairs .decimal narrow (falling 201) [0, 0, 0, 0]).toBool = true by
      decide +kernel)
  exact ⟨r, r', hr, hr', no_look_ahead_iff hr hr' (by decide) (by decide) rfl rfl⟩

/-- A later price of 201 in place of 105 changes the return of bar 2 from 1/102 to 1/126. -/
theorem last_price_seen :
    (falling 105).take 3 = (falling 201).take 3 ∧
      (backtestPairs .decimal narrow (falling 105) [0, 0, 0, 0]).map (·.returns.take 2) =
        .ok [-1 / 2000, 1 / 102] ∧
      (backtestPairs .decimal narrow (falling 201) [0, 0, 0, 0]).map (·.returns.take 2) =
        .ok [-1 / 2000, 1 / 126] :=
  ⟨by decide, by decide +kernel, by decide +kernel⟩

end Backtest

end TreasuryForge
