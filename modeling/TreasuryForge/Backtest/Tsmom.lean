/-
# `Backtest.Tsmom` — the trend backtest, and what of the future it sees

`backtest_tsmom` of `tsmom_backtest.py`.  A period `t` decides on the closes up to `t` and earns
the return of the next one, so that nothing after it shows (`backtestTsmom_causal`).  With a
warm-up below zero the first periods would count from the end of the series; such a run raises
(`empty_of_warmup_neg`).
-/
import TreasuryForge.Signals.Tsmom

namespace TreasuryForge

namespace Backtest

open Loop Signals

variable {K : Type} [Field K] [LinearOrder K] (m : Maths K)

/-- Open, high, low and close. -/
abbrev OhlcBar (K : Type) := K × K × K × K

def OhlcBar.close (b : OhlcBar K) : K := b.2.2.2

structure TsmomResult (K : Type) where
  returns : List K := []
  positions : List K := []

/-- `max(lookback, vol_window) + 1` -/
def warmup (p : TsmomParams K) : ℤ := max p.lookback p.volWindow + 1

/-- The return of each bar, zero on the first one. -/
def barReturns (closes : List K) : List K :=
  0 :: List.zipWith (fun last close => if 0 < last then close / last - 1 else 0) closes closes.tail

structure TsmomState (K : Type) extends TsmomResult K where
  prevPos : K

variable (p : TsmomParams K)

def TsmomState.start : TsmomState K := { prevPos := 0 }

/-- The period after bar `t`. -/
def onPeriod (closes rets : List K) (s : TsmomState K) (t : ℤ) : Except String (TsmomState K) := do
  let pos ← targetPosition m (slice closes 0 (t + 1)) (slice rets 1 (t + 1)) p
  return {
    returns := s.returns ++ [pos * (← index rets (t + 1)) - p.cost * |pos - s.prevPos|]
    positions := s.positions ++ [pos]
    prevPos := pos }

def backtestTsmom (bars : List (OhlcBar K)) : Except String (TsmomResult K) := do
  let closes := bars.map (·.close)
  let rets := barReturns closes
  let s ← (range (warmup p) (closes.length - 1)).foldlM (onPeriod m p closes rets) .start
  return s.toTsmomResult

variable {m p}

/-! ## A period sees nothing later -/

theorem barReturns_congr {closes closes' : List K} {k : ℕ} (h : closes.take k = closes'.take k) :
    (barReturns closes).take k = (barReturns closes').take k := by
  cases k with
  | zero => rfl
  | succ k =>
      have hlast : closes.take k = closes'.take k := by
        rw [← min_eq_left (Nat.le_succ k), ← List.take_take, ← List.take_take, h]
      have hnext : closes.tail.take k = closes'.tail.take k := by
        rw [← List.drop_one, ← List.drop_one, List.take_drop, List.take_drop, Nat.add_comm 1, h]
      rw [barReturns, barReturns, List.take_succ_cons, List.take_succ_cons, List.take_zipWith,
        List.take_zipWith, hlast, hnext]

theorem onPeriod_congr {closes closes' rets rets' : List K} {k : ℕ}
    (hcloses : closes.take k = closes'.take k) (hrets : rets.take k = rets'.take k) {t : ℤ}
    (ht : 0 ≤ t) (hk : t + 1 < k) (s : TsmomState K) :
    onPeriod m p closes rets s t = onPeriod m p closes' rets' s t := by
  have hnext : index rets (t + 1) = index rets' (t + 1) := by
    rw [show t + 1 = ((t + 1).toNat : ℤ) by omega, index_natCast, index_natCast,
      getElem?_congr hrets (by omega)]
  rw [onPeriod, onPeriod, slice_congr hcloses le_rfl (by omega) hk.le,
    slice_congr hrets one_pos.le (by omega) hk.le, hnext]

/-- Runs over so many periods, none of which ends after what the series agree on. -/
theorem periods_congr {closes closes' rets rets' : List K} {k : ℕ}
    (hcloses : closes.take k = closes'.take k) (hrets : rets.take k = rets'.take k)
    {lo hi hi' : ℤ} (hlo : 0 ≤ lo) {n : ℕ} (hn : n ≤ (range lo hi).length)
    (hn' : n ≤ (range lo hi').length) (hk : lo + n < k) (s : TsmomState K) :
    (after (onPeriod m p closes rets) s (range lo hi) n).map id =
      (after (onPeriod m p closes' rets') s (range lo hi') n).map id := by
  refine after_congr rfl hn hn' ?_
  rintro j hj t t' ht ht' s _ rfl
  rw [length_range] at hn hn'
  rw [range_getElem? (by omega)] at ht ht'
  obtain rfl := Option.some.inj ht
  obtain rfl := Option.some.inj ht'
  rw [onPeriod_congr hcloses hrets (by omega) (by omega)]
  rfl

/-! ## The run, period by period -/

theorem onPeriod_ok {closes rets : List K} {s s' : TsmomState K} {t : ℤ}
    (h : onPeriod m p closes rets s t = .ok s') :
    ∃ pos next, targetPosition m (slice closes 0 (t + 1)) (slice rets 1 (t + 1)) p = .ok pos ∧
      s' = ⟨⟨s.returns ++ [pos * next - p.cost * |pos - s.prevPos|], s.positions ++ [pos]⟩,
        pos⟩ := by
  obtain ⟨pos, hpos, h⟩ := bind_eq_ok.mp h
  obtain ⟨next, -, h⟩ := bind_eq_ok.mp h
  exact ⟨pos, next, hpos, (Except.ok.inj h).symm⟩

theorem onPeriod_lengths {closes rets : List K} {s s' : TsmomState K} {t : ℤ} {k : ℕ}
    (hs : s.positions.length = k ∧ s.returns.length = k)
    (h : onPeriod m p closes rets s t = .ok s') :
    s'.positions.length = k + 1 ∧ s'.returns.length = k + 1 := by
  obtain ⟨pos, next, -, rfl⟩ := onPeriod_ok h
  obtain ⟨hpositions, hreturns⟩ := hs
  simp [hpositions, hreturns]

section Run
variable {closes rets : List K} {ts : List ℤ} {r : TsmomState K}

/-- The periods so far have written so many positions and returns, and the rest adds to them. -/
theorem after_periods (h : ts.foldlM (onPeriod m p closes rets) .start = .ok r) {k : ℕ}
    (hk : k ≤ ts.length) :
    ∃ s, after (onPeriod m p closes rets) .start ts k = .ok s ∧
      s.positions = r.positions.take k ∧ s.returns = r.returns.take k := by
  obtain ⟨s, hs, hrest⟩ := exists_after h k
  have hlength : s.positions.length = k ∧ s.returns.length = k :=
    after_keeps (P := fun k s => s.positions.length = k ∧ s.returns.length = k) ⟨rfl, rfl⟩
      (fun _ _ _ _ _ => onPeriod_lengths) k hk s hs
  have hfirst : s.positions <+: r.positions ∧ s.returns <+: r.returns :=
    foldlM_keeps (P := fun _ s' => s.positions <+: s'.positions ∧ s.returns <+: s'.returns) hrest
      ⟨List.prefix_rfl, List.prefix_rfl⟩
      (by
        rintro k t s₁ s₂ - ⟨hpositions, hreturns⟩ hperiod
        obtain ⟨pos, next, -, rfl⟩ := onPeriod_ok hperiod
        exact ⟨hpositions.trans (List.prefix_append _ _), hreturns.trans (List.prefix_append _ _)⟩)
  refine ⟨s, hs, ?_, ?_⟩
  · rw [List.prefix_iff_eq_take.mp hfirst.1, hlength.1]
  · rw [List.prefix_iff_eq_take.mp hfirst.2, hlength.2]

theorem length_periods (h : ts.foldlM (onPeriod m p closes rets) .start = .ok r) :
    r.positions.length = ts.length ∧ r.returns.length = ts.length :=
  foldlM_keeps (P := fun k s => s.positions.length = k ∧ s.returns.length = k) h ⟨rfl, rfl⟩
    fun _ _ _ _ _ => onPeriod_lengths

/-- Each of the periods could decide. -/
theorem decided_of_mem (h : ts.foldlM (onPeriod m p closes rets) .start = .ok r) {t : ℤ}
    (ht : t ∈ ts) :
    ∃ pos, targetPosition m (slice closes 0 (t + 1)) (slice rets 1 (t + 1)) p = .ok pos := by
  obtain ⟨k, hk⟩ := List.mem_iff_getElem?.mp ht
  obtain ⟨s, hs, -⟩ := exists_after h (k + 1)
  obtain ⟨s', -, hperiod⟩ := after_succ_ok hk hs
  obtain ⟨pos, next, hpos, -⟩ := onPeriod_ok hperiod
  exact ⟨pos, hpos⟩

end Run

/-- A run that starts below zero comes to a period without closes, where it would raise. -/
theorem empty_of_warmup_neg {bars : List (OhlcBar K)} {r : TsmomResult K}
    (h : backtestTsmom m p bars = .ok r) (hneg : warmup p < 0) : r = {} := by
  obtain ⟨s, hs, hr⟩ := bind_eq_ok.mp h
  obtain rfl := Except.ok.inj hr
  have hlookback : p.lookback ≤ -2 := by
    have := le_max_left p.lookback p.volWindow
    unfold warmup at hneg
    omega
  generalize bars.map (·.close) = closes at hs
  by_cases hrange : warmup p ≤ min (-1 : ℤ) (closes.length - 2)
  · exfalso
    obtain ⟨pos, hpos⟩ := decided_of_mem hs (mem_range.mpr ⟨hrange, by omega⟩)
    have hclosed : slice closes 0 (min (-1 : ℤ) (closes.length - 2) + 1) = [] := by
      cases closes with
      | nil => rfl
      | cons close closes =>
          rw [show min (-1 : ℤ) ((close :: closes).length - 2) + 1 = 0 by simp; omega]
          rfl
    rw [hclosed] at hpos
    obtain ⟨sign, hsign, -⟩ := bind_eq_ok.mp hpos
    exact momentumSign_nil hlookback sign hsign
  · obtain ⟨hpositions, hreturns⟩ := length_periods hs
    rw [length_range, Int.toNat_of_nonpos (by omega)] at hpositions hreturns
    obtain ⟨⟨returns, positions⟩, prevPos⟩ := s
    obtain rfl := List.length_eq_zero_iff.mp hpositions
    obtain rfl := List.length_eq_zero_iff.mp hreturns
    rfl

/-! ## Causality -/

/-- Where the first `k` bars agree, so do the positions and the returns of all periods that end
before bar `k`. -/
theorem backtestTsmom_causal {bars bars' : List (OhlcBar K)} {r r' : TsmomResult K}
    (h : backtestTsmom m p bars = .ok r) (h' : backtestTsmom m p bars' = .ok r') {k : ℕ}
    (hagree : bars.take k = bars'.take k) {i : ℕ} (hi : warmup p + i + 1 < k) :
    r.positions[i]? = r'.positions[i]? ∧ r.returns[i]? = r'.returns[i]? := by
  rcases lt_or_ge (warmup p) 0 with hneg | hwarm
  · rw [empty_of_warmup_neg h hneg, empty_of_warmup_neg h' hneg]
    exact ⟨rfl, rfl⟩
  rcases le_or_gt k bars.length with hk | hshort
  · have hk' : k ≤ bars'.length := by
      have := congrArg List.length hagree
      rw [List.length_take, List.length_take, min_eq_left hk] at this
      omega
    obtain ⟨s, hs, hr⟩ := bind_eq_ok.mp h
    obtain rfl := Except.ok.inj hr
    obtain ⟨s', hs', hr'⟩ := bind_eq_ok.mp h'
    obtain rfl := Except.ok.inj hr'
    have hcloses : (bars.map (·.close)).take k = (bars'.map (·.close)).take k := by
      rw [← List.map_take, ← List.map_take, hagree]
    have hrets := barReturns_congr hcloses
    have hlen : i + 1 ≤ (range (warmup p) ((bars.map (·.close)).length - 1)).length := by
      rw [length_range, List.length_map]
      omega
    have hlen' : i + 1 ≤ (range (warmup p) ((bars'.map (·.close)).length - 1)).length := by
      rw [length_range, List.length_map]
      omega
    obtain ⟨t, ht, hpositions, hreturns⟩ := after_periods hs hlen
    obtain ⟨t', ht', hpositions', hreturns'⟩ := after_periods hs' hlen'
    have hsame := periods_congr (m := m) (p := p) hcloses hrets hwarm hlen hlen'
      (by push_cast; omega) .start
    rw [ht, ht'] at hsame
    obtain rfl : t = t' := Except.ok.inj hsame
    exact ⟨getElem?_congr (hpositions.symm.trans hpositions') (Nat.lt_succ_self i),
      getElem?_congr (hreturns.symm.trans hreturns') (Nat.lt_succ_self i)⟩
  · -- the shorter series has no bar that the other lacks
    have hbars : bars = bars' := by
      have hlen := congrArg List.length hagree
      rw [List.length_take, List.length_take, min_eq_right hshort.le] at hlen
      rwa [List.take_of_length_le hshort.le, List.take_of_length_le (by omega)] at hagree
    subst hbars
    obtain rfl := Except.ok.inj (h.symm.trans h')
    exact ⟨rfl, rfl⟩

/-- A bar that traded at one price. -/
def quiet (price : ℚ) : OhlcBar ℚ := (price, price, price, price)

def brief : TsmomParams ℚ := { lookback := 1, volWindow := 2 }

/-- The sixth bar shows in the second period, and not in the first one. -/
theorem backtestTsmom_causal_of_five : ∃ r r',
    backtestTsmom .decimal brief ([100, 102, 101, 104, 90, 91].map quiet) = .ok r ∧
      backtestTsmom .decimal brief ([100, 102, 101, 104, 90, 300].map quiet) = .ok r' ∧
      r.positions[0]? = r'.positions[0]? ∧ r.returns[0]? = r'.returns[0]? := by
  obtain ⟨r, hr⟩ := exists_of_toBool
    (show (backtestTsmom .decimal brief
      ([100, 102, 101, 104, 90, 91].map quiet)).toBool = true by decide +kernel)
  obtain ⟨r', hr'⟩ := exists_of_toBool
    (show (backtestTsmom .decimal brief
      ([100, 102, 101, 104, 90, 300].map quiet)).toBool = true by decide +kernel)
  have hfive : ([100, 102, 101, 104, 90, 91].map quiet).take 5 =
      ([100, 102, 101, 104, 90, 300].map quiet).take 5 := rfl
  exact ⟨r, r', hr, hr', backtestTsmom_causal hr hr' hfive (by decide)⟩

end Backtest

end TreasuryForge
