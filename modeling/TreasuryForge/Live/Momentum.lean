/-
# `Live.Momentum` — the scalp rule over a whole series

`simulate_exit` of `signals/momentum.py` and `backtest_momentum` of
`momentum_backtest.py`, against the book that sees one bar at a time
(`Live.ScalpBook`).  The backtest looks at the bars after an entry and jumps behind the
exit; the book carries its peak and its age along.  `exitWalk` is what both do between
an entry and the exit.
-/
import TreasuryForge.Base.RoundingMode
import TreasuryForge.Base.Spells
import TreasuryForge.Live.ScalpBook
import Mathlib.Algebra.BigOperators.Group.List.Basic
import Mathlib.Data.List.GetD
import Mathlib.Tactic.FieldSimp
import Mathlib.Tactic.Linarith
import Mathlib.Tactic.NormNum
import Mathlib.Tactic.Ring

namespace TreasuryForge

open Spells

/-! ## The batch side -/

/-- `entry * (1.0 - p.stop_frac)`, each result rounded. -/
def stopLevel (ρ : RoundingMode ℚ) (entry : ℚ) (p : MomentumParams) : ℚ :=
  ρ (entry * ρ (1 - p.stopFrac))

/-- `peak * (1.0 - p.trail_frac)` -/
def trailLevel (ρ : RoundingMode ℚ) (peak : ℚ) (p : MomentumParams) : ℚ :=
  ρ (peak * ρ (1 - p.trailFrac))

/-- The loop of `simulate_exit` from bar `j` on: the exit it finds. -/
def exitLoop (ρ : RoundingMode ℚ) (entry : ℚ) (p : MomentumParams) (peak : ℚ) (j : ℕ) :
    List Bar → Option (ℕ × ℚ)
  | [] => none
  | bar :: bars =>
      let trailLevel := trailLevel ρ peak p
      let stopLevel := stopLevel ρ entry p
      if bar.low ≤ stopLevel ∧ stopLevel ≤ trailLevel then some (j + 1, -p.stopFrac)
      else if bar.low ≤ trailLevel then some (j + 1, ρ.simpleReturn trailLevel entry)
      else exitLoop ρ entry p (max peak bar.high) (j + 1) bars

/-- Bars held and gross return, over the bars after the entry bar. -/
def simulateExit (ρ : RoundingMode ℚ) (entry : ℚ) (bars : List Bar) (p : MomentumParams) : ℤ × ℚ :=
  let n := min p.maxHold bars.length
  match exitLoop ρ entry p entry 0 (bars.take n.toNat) with
  | some (held, gross) => (held, gross)
  | none =>
      (n, if 0 < n then ρ.simpleReturn (bars.getD (n - 1).toNat default).close entry else 0)

/-- A trade, by the bar it was entered on. -/
structure Trade where
  entryBar : ℕ
  held : ℤ
  gross : ℚ
  deriving DecidableEq, Repr

def closeAt (bars : List Bar) (i : ℕ) : ℚ := (bars.getD i default).close

/-- The loop of `backtest_momentum` from bar `i` on, with the trades it books.  A
negative hold takes the loop back to a bar it has seen: it never ends, `none`. -/
def backtestFrom (bars : List Bar) (p : MomentumParams) (i : ℕ) : Option (List Trade) :=
  if i + 1 < bars.length then
    if entryOk (closeAt bars (i - 2)) (closeAt bars (i - 1)) (closeAt bars i) p then
      let (held, gross) := simulateExit (.exact ℚ) (closeAt bars i) (bars.drop (i + 1)) p
      if held < 0 then none
      else (backtestFrom bars p (i + held.toNat + 1)).map ({ entryBar := i, held, gross } :: ·)
    else backtestFrom bars p (i + 1)
  else some []
termination_by bars.length - i

structure MomentumResult where
  returns : List ℚ := []
  holds : List ℤ := []
  deriving DecidableEq, Repr

def backtestTrades (bars : List Bar) (p : MomentumParams) : Option (List Trade) :=
  backtestFrom bars p 2

/-- `backtest_momentum` -/
def backtestMomentum (bars : List Bar) (p : MomentumParams) : Option MomentumResult :=
  (backtestTrades bars p).map fun trades =>
    { returns := trades.map (·.gross - p.cost), holds := trades.map (·.held) }

/-! ## The streaming side -/

namespace ScalpBook

/-- The book over a series of bars: what it answered, and where it stands. -/
def feed (b : ScalpBook) : List Bar → Option (List (Action × ℚ) × ScalpBook)
  | [] => some ([], b)
  | bar :: bars =>
      match b.observe bar.high bar.low bar.close with
      | (none, _) => none
      | (some out, b') => (feed b' bars).map fun r => (out :: r.1, r.2)

end ScalpBook

def Action.mark : Action → Mark
  | .flat => .idle
  | .hold => .stays
  | .enter => .opens
  | .exitStop | .exitTrail | .exitTime => .closes

/-- What an answer of the book does to its position. -/
def answerMark (a : Action × ℚ) : Mark := a.1.mark

/-- What a run of per-bar returns compounds to. -/
def compounded (rs : List ℚ) : ℚ := (rs.map (1 + ·)).prod - 1

/-- A completed trade of the book, from the spell of its answers. -/
def tradeOf (s : Spell (Action × ℚ)) : Option Trade :=
  s.closing.map fun last =>
    { entryBar := s.start, held := s.items.length
      gross := compounded ((s.items ++ [last]).map (·.2)) }

def bookTrades (k : ℕ) (cur : Option (Spell (Action × ℚ))) (trace : List (Action × ℚ)) :
    List Trade :=
  (spellsFrom answerMark k cur trace).filterMap tradeOf

def completedTrades (trace : List (Action × ℚ)) : List Trade := bookTrades 0 none trace

/-! ## The walk from an entry to its exit -/

/-- What stop, trail and time make of the bars after an entry; `none` when the bars end
first. -/
def exitWalk (entry : ℚ) (p : MomentumParams) (peak : ℚ) (h : ℕ) : List Bar → Option (ℕ × ℚ)
  | [] => none
  | bar :: bars =>
      if bar.low ≤ entry * (1 - p.stopFrac) ∧
          entry * (1 - p.stopFrac) ≤ peak * (1 - p.trailFrac) then some (h + 1, -p.stopFrac)
      else if bar.low ≤ peak * (1 - p.trailFrac) then
        some (h + 1, peak * (1 - p.trailFrac) / entry - 1)
      else if p.maxHold ≤ (h + 1 : ℕ) then some (h + 1, bar.close / entry - 1)
      else exitWalk entry p (max peak bar.high) (h + 1) bars

/-- With `m` bars to go before the time stop, the loop of `simulate_exit` and the walk
find the same exit, except that the walk also says what the time stop pays. -/
theorem exitLoop_take {entry : ℚ} {p : MomentumParams} :
    ∀ (bars : List Bar) (peak : ℚ) (h m : ℕ), p.maxHold = h + (m + 1 : ℕ) →
      (exitLoop (.exact ℚ) entry p peak h (bars.take (m + 1)) = exitWalk entry p peak h bars ∧
        (exitWalk entry p peak h bars = none → bars.length < m + 1)) ∨
      (exitLoop (.exact ℚ) entry p peak h (bars.take (m + 1)) = none ∧ m + 1 ≤ bars.length ∧
        exitWalk entry p peak h bars =
          some (h + (m + 1), (bars.getD m default).close / entry - 1)) := by
  intro bars
  induction bars with
  | nil =>
      intro peak h m _
      exact Or.inl ⟨rfl, fun _ => Nat.succ_pos m⟩
  | cons bar bars ih =>
      intro peak h m hmax
      rw [List.take_succ_cons]
      unfold exitLoop exitWalk stopLevel trailLevel RoundingMode.simpleReturn
      dsimp only [RoundingMode.exact_apply]
      split
      · exact Or.inl ⟨rfl, fun e => by cases e⟩
      · split
        · exact Or.inl ⟨rfl, fun e => by cases e⟩
        · cases m with
          | zero =>
              rw [if_pos (by omega)]
              exact Or.inr ⟨rfl, by simp, rfl⟩
          | succ m =>
              rw [if_neg (by omega)]
              rcases ih (max peak bar.high) (h + 1) m (by push_cast at hmax ⊢; omega) with
                ⟨heq, hlen⟩ | ⟨hnone, hlen, hwalk⟩
              · exact Or.inl ⟨heq, fun e => by simpa using hlen e⟩
              · refine Or.inr ⟨hnone, by simpa using hlen, ?_⟩
                rw [hwalk, List.getD_cons_succ, Nat.add_assoc, Nat.add_comm 1]

/-- `simulate_exit` over the bars after an entry: the walk's exit, or the end of data. -/
theorem simulateExit_walk (entry : ℚ) {p : MomentumParams} (bars : List Bar)
    (hmax : 1 ≤ p.maxHold) :
    (∃ held gross, exitWalk entry p entry 0 bars = some (held, gross) ∧
      simulateExit (.exact ℚ) entry bars p = ((held : ℤ), gross)) ∨
    (exitWalk entry p entry 0 bars = none ∧ (bars.length : ℤ) < p.maxHold ∧
      (simulateExit (.exact ℚ) entry bars p).1 = bars.length) := by
  obtain ⟨m, hm⟩ : ∃ m : ℕ, p.maxHold = (0 : ℕ) + (m + 1 : ℕ) :=
    ⟨(p.maxHold - 1).toNat, by push_cast; omega⟩
  have htake : bars.take (min p.maxHold bars.length).toNat = bars.take (m + 1) := by
    rw [show (min p.maxHold bars.length).toNat = min (m + 1) bars.length by omega]
    exact (List.take_eq_take_min ..).symm
  unfold simulateExit RoundingMode.simpleReturn
  dsimp only [RoundingMode.exact_apply]
  rw [htake]
  rcases exitLoop_take bars entry 0 m hm with ⟨heq, hlen⟩ | ⟨hnone, hlen, hwalk⟩
  · rw [heq]
    cases hwalk : exitWalk entry p entry 0 bars with
    | none =>
        have := hlen hwalk
        exact Or.inr ⟨rfl, by omega, by dsimp only; omega⟩
    | some out => exact Or.inl ⟨out.1, out.2, rfl, rfl⟩
  · rw [hnone]
    refine Or.inl ⟨_, _, hwalk, ?_⟩
    have hmin : min p.maxHold bars.length = (m + 1 : ℕ) := by omega
    dsimp only
    rw [hmin, if_pos (by omega), Nat.zero_add, show ((m + 1 : ℕ) - 1 : ℤ).toNat = m by omega]

/-! ## The book over the same bars -/

theorem closeAt_eq {bars rest : List Bar} {bar : Bar} {k : ℕ}
    (h : bars.drop k = bar :: rest) : closeAt bars k = bar.close ∧ bar ∈ bars ∧
      bars.drop (k + 1) = rest ∧ k + 1 + rest.length = bars.length := by
  have hlen : k < bars.length := by
    by_contra hle
    rw [List.drop_eq_nil_of_le (by omega)] at h
    cases h
  have hlength := congrArg List.length h
  rw [List.drop_eq_getElem_cons hlen] at h
  obtain ⟨hbar, hrest⟩ := List.cons.inj h
  refine ⟨?_, ?_, hrest, ?_⟩
  · rw [closeAt, List.getD_eq_getElem _ _ hlen, hbar]
  · rw [← hbar]
    exact List.getElem_mem hlen
  · rw [List.length_drop, List.length_cons] at hlength
    omega

/-- The close `d` bars before bar `k`, as the book remembers it: zero before the series. -/
def closeBefore (bars : List Bar) (k d : ℕ) : ℚ := if d ≤ k then closeAt bars (k - d) else 0

theorem closeBefore_succ (bars : List Bar) (k d : ℕ) :
    closeBefore bars (k + 1) (d + 1) = closeBefore bars k d := by
  unfold closeBefore
  rw [Nat.add_sub_add_right]
  simp only [Nat.add_le_add_iff_right]

theorem closeBefore_one (bars : List Bar) (k : ℕ) :
    closeBefore bars (k + 1) 1 = closeAt bars k := by
  rw [closeBefore_succ bars k 0]
  rfl

/-- The flat book before bar `k`. -/
def flatAt (bars : List Bar) (p : MomentumParams) (k : ℕ) : ScalpBook :=
  { params := p, prev := closeBefore bars k 1, prev2 := closeBefore bars k 2 }

/-- The book before bar `k` in a position of age `h`. -/
def heldAt (bars : List Bar) (p : MomentumParams) (entry peak : ℚ) (h k : ℕ) : ScalpBook :=
  { params := p, inPos := true, entry, peak, barsHeld := h
    prev := closeBefore bars k 1, prev2 := closeBefore bars k 2 }

section Bars
variable {bars rest : List Bar} {bar : Bar} {p : MomentumParams} {entry peak : ℚ} {h k : ℕ}

theorem flatAt_flat (hk : bars.drop k = bar :: rest)
    (hno : entryOk (closeBefore bars k 2) (closeBefore bars k 1) bar.close p = false) :
    (flatAt bars p k).observe bar.high bar.low bar.close =
      (some (.flat, 0), flatAt bars p (k + 1)) := by
  unfold ScalpBook.observe flatAt
  dsimp only
  rw [if_neg (by simp), hno, if_neg (by simp)]
  simp only [ScalpBook.shift, closeBefore_succ bars k 1, closeBefore_one, (closeAt_eq hk).1]

theorem flatAt_enter (hk : bars.drop k = bar :: rest)
    (hyes : entryOk (closeBefore bars k 2) (closeBefore bars k 1) bar.close p = true) :
    (flatAt bars p k).observe bar.high bar.low bar.close =
      (some (.enter, -(p.cost / 2)), heldAt bars p bar.close bar.close 0 (k + 1)) := by
  unfold ScalpBook.observe flatAt
  dsimp only
  rw [if_neg (by simp), hyes, if_pos rfl]
  simp only [ScalpBook.shift, heldAt, closeBefore_succ bars k 1, closeBefore_one,
    (closeAt_eq hk).1, Nat.cast_zero]

/-- The return of a bar that ends at `level`, on top of what the trade has made so far. -/
theorem paid_over {prev cost : ℚ} (entry level : ℚ) (hprev : 0 < prev) (hcost : cost = 0) :
    prev / entry * (1 + (level / prev - 1 - cost / 2)) = level / entry := by
  have hne : prev ≠ 0 := hprev.ne'
  rw [hcost]
  field_simp
  ring

/-- A bar of a position: the walk and the book exit together, at the same price. -/
theorem heldAt_observe (p : MomentumParams) (peak : ℚ) (h : ℕ) (hk : bars.drop k = bar :: rest)
    (hprev : 0 < closeBefore bars k 1) (hentry : 0 < entry) :
    (∃ gross, (∀ rest', exitWalk entry p peak h (bar :: rest') = some (h + 1, gross)) ∧
      ∃ a r, a.mark = .closes ∧
        (heldAt bars p entry peak h k).observe bar.high bar.low bar.close =
          (some (a, r), flatAt bars p (k + 1)) ∧
        (p.cost = 0 → closeBefore bars k 1 / entry * (1 + r) = 1 + gross)) ∨
    ((∀ rest', exitWalk entry p peak h (bar :: rest') =
        exitWalk entry p (max peak bar.high) (h + 1) rest') ∧ ((h + 1 : ℕ) : ℤ) < p.maxHold ∧
      ∃ r, (heldAt bars p entry peak h k).observe bar.high bar.low bar.close =
          (some (.hold, r), heldAt bars p entry (max peak bar.high) (h + 1) (k + 1)) ∧
        closeBefore bars k 1 / entry * (1 + r) = bar.close / entry) := by
  have hshift : closeBefore bars (k + 1) 1 = bar.close := by
    rw [closeBefore_one, (closeAt_eq hk).1]
  have hshift2 := closeBefore_succ bars k 1
  have hbook : (if 0 < closeBefore bars k 1 then bar.close / closeBefore bars k 1 - 1 else 0) =
      bar.close / closeBefore bars k 1 - 1 := if_pos hprev
  unfold ScalpBook.observe heldAt
  dsimp only
  rw [if_pos rfl, if_neg hprev.ne', if_neg hprev.ne', hbook]
  by_cases hstop : bar.low ≤ entry * (1 - p.stopFrac) ∧
      entry * (1 - p.stopFrac) ≤ peak * (1 - p.trailFrac)
  · refine Or.inl ⟨-p.stopFrac, fun _ => by rw [exitWalk, if_pos hstop], .exitStop,
      entry * (1 - p.stopFrac) / closeBefore bars k 1 - 1 - p.cost / 2, rfl, ?_, ?_⟩
    · rw [if_pos hstop]
      simp only [ScalpBook.flatten, ScalpBook.shift, flatAt, hshift, hshift2]
    · intro hcost
      rw [paid_over _ _ hprev hcost, mul_div_cancel_left₀ _ hentry.ne', sub_eq_add_neg]
  · rw [if_neg hstop]
    by_cases htrail : bar.low ≤ peak * (1 - p.trailFrac)
    · refine Or.inl ⟨peak * (1 - p.trailFrac) / entry - 1,
        fun _ => by rw [exitWalk, if_neg hstop, if_pos htrail], .exitTrail,
        peak * (1 - p.trailFrac) / closeBefore bars k 1 - 1 - p.cost / 2, rfl, ?_, ?_⟩
      · rw [if_pos htrail]
        simp only [ScalpBook.flatten, ScalpBook.shift, flatAt, hshift, hshift2]
      · intro hcost
        rw [paid_over _ _ hprev hcost, add_sub_cancel]
    · rw [if_neg htrail]
      by_cases htime : p.maxHold ≤ (h + 1 : ℕ)
      · refine Or.inl ⟨bar.close / entry - 1,
          fun _ => by rw [exitWalk, if_neg hstop, if_neg htrail, if_pos htime], .exitTime,
          bar.close / closeBefore bars k 1 - 1 - p.cost / 2, rfl, ?_, ?_⟩
        · rw [if_pos (by push_cast at htime; exact htime)]
          simp only [ScalpBook.flatten, ScalpBook.shift, flatAt, hshift, hshift2]
        · intro hcost
          rw [paid_over _ _ hprev hcost, add_sub_cancel]
      · refine Or.inr ⟨fun _ => by rw [exitWalk, if_neg hstop, if_neg htrail, if_neg htime],
          not_le.mp htime, bar.close / closeBefore bars k 1 - 1, ?_, ?_⟩
        · rw [if_neg (by push_cast at htime; exact htime)]
          simp only [ScalpBook.shift, hshift, hshift2]
          push_cast
          rfl
        · have hpaid := paid_over entry bar.close hprev rfl
          rwa [zero_div, sub_zero] at hpaid

/-! ## From the entry to the trade -/

variable {trace : List (Action × ℚ)} {s : Spell (Action × ℚ)} {a : Action × ℚ}

theorem bookTrades_open (hs : s.closing = none) : bookTrades k (some s) [] = [] := by
  simp [bookTrades, tradeOf, hs]

theorem bookTrades_closes (ha : answerMark a = .closes) : bookTrades k (some s) (a :: trace) =
    { entryBar := s.start, held := s.items.length
      gross := compounded ((s.items ++ [a]).map (·.2)) } :: bookTrades (k + 1) none trace := by
  rw [bookTrades, spellsFrom_closes ha]
  rfl

theorem bookTrades_opens (ha : answerMark a = .opens) : bookTrades k none (a :: trace) =
    bookTrades (k + 1) (some { start := k, items := [a] }) trace := by
  rw [bookTrades, spellsFrom_opens ha]
  rfl

theorem bookTrades_stays (ha : answerMark a = .stays) : bookTrades k (some s) (a :: trace) =
    bookTrades (k + 1) (some (s.push a)) trace := by
  rw [bookTrades, spellsFrom_stays ha]
  rfl

theorem bookTrades_idle (ha : answerMark a = .idle) : bookTrades k none (a :: trace) =
    bookTrades (k + 1) none trace := by
  rw [bookTrades, spellsFrom_idle ha]
  rfl

theorem feed_cons {b b' book : ScalpBook} (h : b.observe bar.high bar.low bar.close = (some a, b'))
    (hrest : b'.feed rest = some (trace, book)) :
    b.feed (bar :: rest) = some (a :: trace, book) := by
  rw [ScalpBook.feed, h]
  dsimp only
  rw [hrest]
  rfl

theorem closeBefore_pos (hpos : ∀ bar ∈ bars, 0 < bar.close) (hk : bars.drop k = bar :: rest)
    (h1 : 1 ≤ k) : 0 < closeBefore bars k 1 := by
  have hlen := (closeAt_eq hk).2.2.2
  obtain ⟨j, rfl⟩ : ∃ j, k = j + 1 := ⟨k - 1, by omega⟩
  rw [closeBefore_one, closeAt, List.getD_eq_getElem _ _ (by omega)]
  exact hpos _ (List.getElem_mem _)

/-- A book in a position: either the bars end first, or the walk's exit is the book's
next trade, and the book is flat behind it. -/
theorem heldAt_feed (hpos : ∀ bar ∈ bars, 0 < bar.close) (hentry : 0 < entry)
    (hflat : ∀ j, k ≤ j → ∃ out, (flatAt bars p j).feed (bars.drop j) = some out) :
    ∀ (rest : List Bar) (peak : ℚ) (h k' : ℕ) (s : Spell (Action × ℚ)), bars.drop k' = rest →
      k ≤ k' → 1 ≤ k' → s.start + h + 1 = k' → s.items.length = h + 1 → s.closing = none →
      (p.cost = 0 → (s.items.map (1 + ·.2)).prod = closeBefore bars k' 1 / entry) →
      (exitWalk entry p peak h rest = none ∧ ∃ trace book,
        (heldAt bars p entry peak h k').feed rest = some (trace, book) ∧ book.inPos = true ∧
        bookTrades k' (some s) trace = []) ∨
      (∃ held gross, exitWalk entry p peak h rest = some (held, gross) ∧ h < held ∧
        ∃ trace book later t, (heldAt bars p entry peak h k').feed rest = some (trace, book) ∧
        (flatAt bars p (s.start + held + 1)).feed (bars.drop (s.start + held + 1)) =
          some (later, book) ∧
        bookTrades k' (some s) trace = t :: bookTrades (s.start + held + 1) none later ∧
        t.entryBar = s.start ∧ t.held = held ∧ (p.cost = 0 → t.gross = gross)) := by
  intro rest
  induction rest with
  | nil =>
      intro peak h k' s _ _ _ _ _ hclosing _
      exact Or.inl ⟨rfl, [], _, rfl, rfl, bookTrades_open hclosing⟩
  | cons bar rest ih =>
      intro peak h k' s hk hle h1 hstart hlen hclosing hprod
      have hrest := (closeAt_eq hk).2.2.1
      rcases heldAt_observe p peak h hk (closeBefore_pos hpos hk h1) hentry with
        ⟨gross, hwalk, a, r, ha, hobs, hgross⟩ | ⟨hwalk, _, r, hobs, hmade⟩
      · -- the exit bar
        obtain ⟨⟨later, book⟩, hlater⟩ := hflat (k' + 1) (by omega)
        have hnext : s.start + (h + 1) + 1 = k' + 1 := by omega
        refine Or.inr ⟨h + 1, gross, hwalk rest, Nat.lt_succ_self h, (a, r) :: later, book, later,
          { entryBar := s.start, held := s.items.length
            gross := compounded ((s.items ++ [(a, r)]).map (·.2)) },
          feed_cons hobs (by rwa [← hrest]), by rwa [hnext], ?_, rfl, ?_, ?_⟩
        · rw [bookTrades_closes (a := (a, r)) ha, hnext]
        · exact congrArg Nat.cast hlen
        · intro hcost
          have htotal := hgross hcost
          rw [← hprod hcost] at htotal
          dsimp only
          rw [compounded, List.map_map, List.map_append, List.prod_append]
          simp only [List.map_cons, List.map_nil, List.prod_singleton, Function.comp_apply]
          exact sub_eq_iff_eq_add'.mpr htotal
      · -- one bar older
        have hprod' : p.cost = 0 → ((s.push (.hold, r)).items.map (1 + ·.2)).prod =
            closeBefore bars (k' + 1) 1 / entry := by
          intro hcost
          rw [Spell.push_items, List.map_append, List.prod_append, hprod hcost]
          simp only [List.map_cons, List.map_nil, List.prod_singleton]
          rw [hmade, closeBefore_one, (closeAt_eq hk).1]
        rcases ih (max peak bar.high) (h + 1) (k' + 1) (s.push (.hold, r)) hrest (by omega)
          (by omega) (by rw [Spell.push_start]; omega) (by simp [hlen]) hclosing hprod' with
          ⟨hnone, trace, book, hfeed, hin, htrades⟩ |
          ⟨held, gross, hsome, hheld, trace, book, later, t, hfeed, hlater, htrades, ht⟩
        · refine Or.inl ⟨by rw [hwalk, hnone], _, book, feed_cons hobs hfeed, hin, ?_⟩
          rw [bookTrades_stays rfl, htrades]
        · refine Or.inr ⟨held, gross, by rw [hwalk, hsome], by omega, _, book, later, t,
            feed_cons hobs hfeed, hlater, ?_, ht⟩
          rw [bookTrades_stays rfl, htrades]
          rfl

end Bars

/-! ## The two agree -/

/-- Where a trade stands in the series. -/
def Trade.place (t : Trade) : ℕ × ℤ := (t.entryBar, t.held)

/-- The batch has the streamed trades, and after them at most one that the end of the
data cut short while the book still held it; a streamed trade made without costs what
`simulate_exit` says it did. -/
def Agreed (bars : List Bar) (p : MomentumParams) (batch streamed : List Trade)
    (book : ScalpBook) : Prop :=
  (∃ cut : List Trade, batch.map Trade.place = streamed.map Trade.place ++ cut.map Trade.place ∧
    (cut = [] ∨ ∃ t, cut = [t] ∧ t.entryBar + t.held + 1 = bars.length ∧ t.held < p.maxHold ∧
      book.inPos = true)) ∧
  (p.cost = 0 → ∀ t ∈ streamed,
    simulateExit (.exact ℚ) (closeAt bars t.entryBar) (bars.drop (t.entryBar + 1)) p =
      (t.held, t.gross))

section Loop
variable {bars : List Bar} {p : MomentumParams} {i : ℕ}

theorem backtestFrom_end (h : ¬ i + 1 < bars.length) : backtestFrom bars p i = some [] := by
  rw [backtestFrom, if_neg h]

/-- A bar that is no entry is passed over, the last one included. -/
theorem backtestFrom_skip
    (hno : entryOk (closeAt bars (i - 2)) (closeAt bars (i - 1)) (closeAt bars i) p = false) :
    backtestFrom bars p i = backtestFrom bars p (i + 1) := by
  by_cases h : i + 1 < bars.length
  · rw [backtestFrom, if_pos h, hno, if_neg (by simp)]
  · rw [backtestFrom_end h, backtestFrom_end (by omega)]

theorem backtestFrom_trade {held : ℕ} (h : i + 1 < bars.length)
    (hyes : entryOk (closeAt bars (i - 2)) (closeAt bars (i - 1)) (closeAt bars i) p = true)
    (hheld : (simulateExit (.exact ℚ) (closeAt bars i) (bars.drop (i + 1)) p).1 = held) :
    backtestFrom bars p i = (backtestFrom bars p (i + held + 1)).map
      ({ entryBar := i, held
         gross := (simulateExit (.exact ℚ) (closeAt bars i) (bars.drop (i + 1)) p).2 } :: ·) := by
  rw [backtestFrom, if_pos h, hyes, if_pos rfl]
  dsimp only
  rw [hheld, if_neg (by omega), Int.toNat_natCast]

theorem entryOk_pos {prev2 prev close : ℚ} (h : entryOk prev2 prev close p = true) : 0 < prev2 := by
  by_contra hle
  rw [entryOk, if_pos (Or.inl (not_lt.mp hle))] at h
  cases h

theorem closeBefore_of_le {k d : ℕ} (h : d ≤ k) : closeBefore bars k d = closeAt bars (k - d) :=
  if_pos h

/-- From a flat book before bar `k` on. -/
def AgreedFrom (bars : List Bar) (p : MomentumParams) (k : ℕ) : Prop :=
  ∃ trace book trades, (flatAt bars p k).feed (bars.drop k) = some (trace, book) ∧
    backtestFrom bars p (max k 2) = some trades ∧
    Agreed bars p trades (bookTrades k none trace) book

theorem Agreed.nothing {book : ScalpBook} : Agreed bars p [] [] book :=
  ⟨⟨[], rfl, Or.inl rfl⟩, fun _ _ ht => absurd ht List.not_mem_nil⟩

/-- A trade both sides find is put before what they agree on. -/
theorem Agreed.trade {batch streamed : List Trade} {book : ScalpBook} {t t' : Trade}
    (hplace : t.place = t'.place)
    (hgross : p.cost = 0 →
      simulateExit (.exact ℚ) (closeAt bars t'.entryBar) (bars.drop (t'.entryBar + 1)) p =
        (t'.held, t'.gross))
    (h : Agreed bars p batch streamed book) : Agreed bars p (t :: batch) (t' :: streamed) book := by
  obtain ⟨⟨cut, hbatch, hcut⟩, hall⟩ := h
  refine ⟨⟨cut, ?_, hcut⟩, ?_⟩
  · rw [List.map_cons, hbatch, hplace]
    rfl
  · intro hcost u hu
    cases hu with
    | head => exact hgross hcost
    | tail _ hu => exact hall hcost u hu

variable {k : ℕ} {bar : Bar} {rest : List Bar}

theorem agreedFrom_end (hk : bars.drop k = []) : AgreedFrom bars p k := by
  have hend := List.drop_eq_nil_iff.mp hk
  refine ⟨[], flatAt bars p k, [], ?_, backtestFrom_end (by omega), Agreed.nothing⟩
  rw [hk]
  rfl

theorem agreedFrom_flat (hk : bars.drop k = bar :: rest)
    (hno : entryOk (closeBefore bars k 2) (closeBefore bars k 1) bar.close p = false)
    (hlater : AgreedFrom bars p (k + 1)) : AgreedFrom bars p k := by
  obtain ⟨hclose, _, hrest, _⟩ := closeAt_eq hk
  obtain ⟨trace, book, trades, hfeed, htrades, hagreed⟩ := hlater
  rw [hrest] at hfeed
  refine ⟨(.flat, 0) :: trace, book, trades, ?_, ?_, ?_⟩
  · rw [hk]
    exact feed_cons (flatAt_flat hk hno) hfeed
  · rcases Nat.lt_or_ge k 2 with hlt | hge
    · rwa [max_eq_right (by omega), ← max_eq_right (show k + 1 ≤ 2 by omega)]
    · rw [closeBefore_of_le hge, closeBefore_of_le (by omega), ← hclose] at hno
      rw [max_eq_left hge, backtestFrom_skip hno]
      rwa [max_eq_left (by omega)] at htrades
  · rwa [bookTrades_idle rfl]

/-- An entry: the trade that follows is the same, or the data ends in it. -/
theorem agreedFrom_enter (hpos : ∀ bar ∈ bars, 0 < bar.close) (hmax : 1 ≤ p.maxHold)
    (hk : bars.drop k = bar :: rest)
    (hyes : entryOk (closeBefore bars k 2) (closeBefore bars k 1) bar.close p = true)
    (hlater : ∀ j, k + 1 ≤ j → AgreedFrom bars p j) : AgreedFrom bars p k := by
  obtain ⟨hclose, hbar, hrest, hlength⟩ := closeAt_eq hk
  have hk2 : 2 ≤ k := by
    by_contra hlt
    have hprev2 := entryOk_pos hyes
    rw [closeBefore, if_neg hlt] at hprev2
    exact lt_irrefl _ hprev2
  have hyes' : entryOk (closeAt bars (k - 2)) (closeAt bars (k - 1)) (closeAt bars k) p = true := by
    rwa [← closeBefore_of_le hk2, ← closeBefore_of_le (by omega), hclose]
  have hfeeds : ∀ j, k + 1 ≤ j → ∃ out, (flatAt bars p j).feed (bars.drop j) = some out := by
    intro j hj
    obtain ⟨trace, book, _, hfeed, _⟩ := hlater j hj
    exact ⟨(trace, book), hfeed⟩
  have hprod : p.cost = 0 → (([(.enter, -(p.cost / 2))] : List (Action × ℚ)).map
      (1 + ·.2)).prod = closeBefore bars (k + 1) 1 / bar.close := by
    intro hcost
    rw [closeBefore_one, hclose, div_self (hpos bar hbar).ne', hcost]
    simp
  have hexit := simulateExit_walk bar.close rest hmax
  rcases heldAt_feed hpos (hpos bar hbar) hfeeds rest bar.close 0 (k + 1)
    { start := k, items := [(.enter, -(p.cost / 2))] } hrest le_rfl (by omega) rfl rfl rfl
    hprod with
    ⟨hnone, trace, book, hfeed, hin, htrades⟩ |
    ⟨held, gross, hsome, _, trace, book, later, t, hfeed, hflat, htrades, hbarOf, hheldOf, hgross⟩
  · -- the data ends in the position
    rcases hexit with ⟨_, _, hsome, _⟩ | ⟨_, hcut, hheld⟩
    · rw [hnone] at hsome
      cases hsome
    refine ⟨(.enter, -(p.cost / 2)) :: trace, book, ?_⟩
    rw [hk, feed_cons (flatAt_enter hk hyes) hfeed, bookTrades_opens rfl, htrades, max_eq_left hk2]
    by_cases hlast : k + 1 < bars.length
    · rw [← hclose, ← hrest] at hheld
      have hlen : (bars.drop (k + 1)).length = rest.length := by rw [hrest]
      rw [backtestFrom_trade hlast hyes' hheld, backtestFrom_end (by omega)]
      refine ⟨_, rfl, rfl, ⟨_, rfl, Or.inr ⟨_, rfl, ?_, ?_, hin⟩⟩,
        fun _ t ht => absurd ht List.not_mem_nil⟩
      · dsimp only
        omega
      · dsimp only
        omega
    · exact ⟨[], rfl, backtestFrom_end hlast, Agreed.nothing⟩
  · -- the walk exits
    rcases hexit with ⟨_, _, hsome', hheld⟩ | ⟨hnone, _⟩
    · obtain ⟨rfl, rfl⟩ : held = _ ∧ gross = _ := by
        rw [hsome] at hsome'
        exact Prod.mk.inj (Option.some.inj hsome')
      obtain ⟨trace', book', trades, hfeed', htrades', hagreed⟩ := hlater (k + held + 1) (by omega)
      rw [hflat] at hfeed'
      obtain ⟨rfl, rfl⟩ := Prod.mk.inj (Option.some.inj hfeed')
      rw [← hclose, ← hrest] at hheld
      have hlast : k + 1 < bars.length := by
        cases rest with
        | nil => cases hsome
        | cons bar' rest => rw [List.length_cons] at hlength; omega
      refine ⟨(.enter, -(p.cost / 2)) :: trace, book, ?_⟩
      rw [hk, feed_cons (flatAt_enter hk hyes) hfeed, bookTrades_opens rfl, htrades,
        max_eq_left hk2, backtestFrom_trade hlast hyes' (congrArg Prod.fst hheld)]
      rw [max_eq_left (by omega)] at htrades'
      refine ⟨_, rfl, congrArg _ htrades', hagreed.trade ?_ ?_⟩
      · rw [Trade.place, Trade.place, hbarOf, hheldOf]
      · intro hcost
        rw [hbarOf, hheldOf, hgross hcost]
        exact hheld
    · rw [hsome] at hnone
      cases hnone

/-- By induction on what is left of the series. -/
theorem agreedFrom (hpos : ∀ bar ∈ bars, 0 < bar.close) (hmax : 1 ≤ p.maxHold) :
    ∀ n k, bars.length - k ≤ n → AgreedFrom bars p k := by
  intro n
  induction n with
  | zero => exact fun k hn => agreedFrom_end (List.drop_eq_nil_of_le (by omega))
  | succ n ih =>
      intro k hn
      cases hk : bars.drop k with
      | nil => exact agreedFrom_end hk
      | cons bar rest =>
          have hlength := (closeAt_eq hk).2.2.2
          cases hentry :
              entryOk (closeBefore bars k 2) (closeBefore bars k 1) bar.close p with
          | false => exact agreedFrom_flat hk hentry (ih (k + 1) (by omega))
          | true => exact agreedFrom_enter hpos hmax hk hentry fun j hj => ih j (by omega)

end Loop

/-- Over every series of positive closes, the book fed bar by bar completes the trades
the backtest finds, except for a last one cut short by the end of the data. -/
theorem streaming_eq_batch (bars : List Bar) (p : MomentumParams)
    (hpos : ∀ bar ∈ bars, 0 < bar.close) (hmax : 1 ≤ p.maxHold) :
    ∃ trace book trades, ({ params := p } : ScalpBook).feed bars = some (trace, book) ∧
      backtestTrades bars p = some trades ∧
      backtestMomentum bars p = some
        { returns := trades.map (·.gross - p.cost), holds := trades.map (·.held) } ∧
      Agreed bars p trades (completedTrades trace) book := by
  obtain ⟨trace, book, trades, hfeed, htrades, hagreed⟩ :=
    agreedFrom hpos hmax bars.length 0 (Nat.sub_le _ _)
  refine ⟨trace, book, trades, hfeed, htrades, ?_, hagreed⟩
  rw [backtestMomentum, backtestTrades]
  exact congrArg _ htrades

/-- Two rising bars, an ignition, and the time stop two bars later. -/
def ignition : List Bar :=
  [⟨100, 100, 100⟩, ⟨101, 100, 101⟩, ⟨104, 101, 104⟩, ⟨105, 103, 105⟩, ⟨106, 104, 106⟩]

theorem streaming_eq_batch_ignition :
    ∃ trace book trades,
      ({ params := { maxHold := 2 } } : ScalpBook).feed ignition = some (trace, book) ∧
      backtestTrades ignition { maxHold := 2 } = some trades ∧
      backtestMomentum ignition { maxHold := 2 } = some
        { returns := trades.map (·.gross - 13 / 10000), holds := trades.map (·.held) } ∧
      Agreed ignition { maxHold := 2 } trades (completedTrades trace) book := by
  refine streaming_eq_batch ignition { maxHold := 2 } ?_ (by decide)
  intro bar hbar
  simp only [ignition, List.mem_cons, List.not_mem_nil, or_false] at hbar
  rcases hbar with rfl | rfl | rfl | rfl | rfl <;> norm_num

end TreasuryForge
