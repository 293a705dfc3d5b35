/-
# `Signals.Pairs` — z-scores of a spread, and the bands they are traded by

`signals/pairs.py`.  The window is an integer as in the source, and so are the indices of the
loop of `rolling_zscore`: with a window below one they count from the end of the list.
`rollingZscore_get` says what the loop comes to, and `zscoreAt_congr` that a z-score looks at
nothing later.
-/
import TreasuryForge.Base.Loop
import TreasuryForge.Signals.Regime

namespace TreasuryForge

namespace Signals

open Loop

inductive PairPosition where
  | shortSpread
  | flat
  | longSpread
  deriving DecidableEq, Repr

/-- `int(position)` -/
def PairPosition.value : PairPosition → ℤ
  | .shortSpread => -1
  | .flat => 0
  | .longSpread => 1

variable {K : Type} [Field K] [LinearOrder K] (m : Maths K)

/-! ## Rolling z-scores -/

/-- `xs[i]`, where a negative index counts from the end. -/
def index {A : Type} (xs : List A) (i : ℤ) : Except String A :=
  if i < -xs.length then .error "IndexError: list index out of range"
  else
    match xs[(if i < 0 then i + xs.length else i).toNat]? with
    | some x => .ok x
    | none => .error "IndexError: list index out of range"

/-- `xs[i] = x` -/
def setIndex {A : Type} (xs : List A) (i : ℤ) (x : A) : Except String (List A) :=
  if i < -xs.length ∨ (xs.length : ℤ) ≤ i then
    .error "IndexError: list assignment index out of range"
  else .ok (xs.set (if i < 0 then i + xs.length else i).toNat x)

/-- The z-score that the loop computes at `i`.  A negative variance has a complex root, which
cannot be compared. -/
def zscoreAt (spread : List K) (window i : ℤ) : Except String K := do
  let w := slice spread (i - window + 1) (i + 1)
  let mean ← divide w.sum window
  let var ← divide ((w.map fun x => (x - mean) ^ 2).sum) (window : K)
  if var < 0 then throw "TypeError: '>' not supported between instances of 'complex' and 'float'"
  let sd := m.sqrt var
  if 1 / 10 ^ 12 < sd then return ((← index spread i) - mean) / sd else return 0

def rollingZscore (spread : List K) (window : ℤ) : Except String (List (Option K)) :=
  (range (window - 1) spread.length).foldlM
    (fun out i => do setIndex out i (some (← zscoreAt m spread window i)))
    (List.replicate spread.length none)

/-! ## Bands -/

/-- The parameters of a `PairsSignal`, as its constructor accepts them. -/
structure PairsBands (K : Type) [LinearOrder K] where
  entryZ : K
  exitZ : K
  stopZ : Option K := none
  hysteresis : exitZ < entryZ
  stop : ∀ z ∈ stopZ, entryZ < z

namespace PairsBands

variable (p : PairsBands K)

/-- The spread has gone past the stop, against the position. -/
def blown (position : PairPosition) (z : K) : Bool :=
  match p.stopZ with
  | none => false
  | some s =>
      (position = .shortSpread && decide (s ≤ z)) || (position = .longSpread && decide (z ≤ -s))

/-- `PairsSignal.update`: the position after `z`. -/
def update (position : PairPosition) : Option K → PairPosition
  | none => position
  | some z =>
      if position = .flat then
        if p.entryZ ≤ z then .shortSpread
        else if z ≤ -p.entryZ then .longSpread
        else .flat
      else if p.blown position z || decide (|z| ≤ p.exitZ) then .flat
      else position

/-- A position is entered outside the bands. -/
theorem update_flat (z : K) : p.update .flat (some z) =
    if p.entryZ ≤ z then .shortSpread else if z ≤ -p.entryZ then .longSpread else .flat := by
  rw [update, if_pos rfl]

/-- A position is left past the stop, or near the mean. -/
theorem update_eq_flat_iff {position : PairPosition} (h : position ≠ .flat) (z : K) :
    p.update position (some z) = .flat ↔ p.blown position z = true ∨ |z| ≤ p.exitZ := by
  have hout : (p.blown position z || decide (|z| ≤ p.exitZ)) = true ↔
      p.blown position z = true ∨ |z| ≤ p.exitZ := by
    rw [Bool.or_eq_true, decide_eq_true_eq]
  rw [update, if_neg h, ← hout]
  split
  · next hleft => exact iff_of_true rfl hleft
  · next hstays => exact iff_of_false h hstays

end PairsBands

/-! ## What the loop comes to -/

variable {m}

section Index
variable {A : Type} {xs : List A}

theorem index_natCast (k : ℕ) : index xs (k : ℤ) =
    match xs[k]? with
    | some x => .ok x
    | none => .error "IndexError: list index out of range" := by
  rw [index, if_neg (by omega), if_neg (by omega), Int.toNat_natCast]

/-- An assignment that does not raise is at one place, counted from either end. -/
theorem setIndex_ok {i : ℤ} {x : A} {ys : List A} (h : setIndex xs i x = .ok ys) :
    ∃ k < xs.length, ys = xs.set k x ∧ (0 ≤ i → i = k) := by
  unfold setIndex at h
  split at h
  · cases h
  · next hi =>
      refine ⟨_, ?_, (Except.ok.inj h).symm, ?_⟩
      · split <;> omega
      · intro hnonneg
        rw [if_neg (not_lt.mpr hnonneg), Int.toNat_of_nonneg hnonneg]

end Index

/-- The z-scores of the list so far: what was written from the first index on, and nothing
before it. -/
structure Filled (m : Maths K) (spread : List K) (window : ℤ) (i : ℤ) (out : List (Option K)) :
    Prop where
  length : out.length = spread.length
  written : ∀ k : ℕ, window - 1 ≤ k → (k : ℤ) < i →
    ∃ z, zscoreAt m spread window k = .ok z ∧ out[k]? = some (some z)
  warmup : ∀ k : ℕ, (k : ℤ) < window - 1 → k < spread.length → out[k]? = some none

theorem Filled.step {spread : List K} {window i : ℤ} {out out' : List (Option K)}
    (h : Filled m spread window i out) (hi : window - 1 ≤ i) {z : K}
    (hz : zscoreAt m spread window i = .ok z) (hset : setIndex out i (some z) = .ok out') :
    Filled m spread window (i + 1) out' := by
  obtain ⟨j, hj, rfl, hplace⟩ := setIndex_ok hset
  refine ⟨by rw [List.length_set, h.length], ?_, ?_⟩
  · intro k hk hlt
    by_cases hkj : j = k
    · subst hkj
      by_cases hnonneg : 0 ≤ i
      · rw [← hplace hnonneg]
        exact ⟨z, hz, List.getElem?_set_self hj⟩
      · omega
    · rw [List.getElem?_set_ne hkj]
      refine h.written k hk ?_
      by_contra hle
      have hik : i = k := by omega
      exact hkj (by exact_mod_cast (hplace (by omega)).symm.trans hik)
  · intro k hk hlt
    have hkj : j ≠ k := by
      rintro rfl
      have := hplace (by omega)
      omega
    rw [List.getElem?_set_ne hkj]
    exact h.warmup k hk hlt

theorem rollingZscore_filled {spread : List K} {window : ℤ} {out : List (Option K)}
    (h : rollingZscore m spread window = .ok out) :
    Filled m spread window (max (window - 1) spread.length) out := by
  have hfilled := foldlM_keeps (P := fun k out => Filled m spread window (window - 1 + k) out) h
    ⟨List.length_replicate, fun k hk hlt => by omega,
      fun k _ hlt => by rw [List.getElem?_replicate_of_lt hlt]⟩
    (by
      intro k i out₁ out₂ hi hout hbody
      have hk : k < ((spread.length : ℤ) - (window - 1)).toNat := by
        have := (List.getElem?_eq_some_iff.mp hi).1
        rwa [length_range] at this
      rw [range_getElem? hk] at hi
      obtain rfl := Option.some.inj hi
      obtain ⟨z, hz, hset⟩ := bind_eq_ok.mp hbody
      rw [show window - 1 + (k + 1 : ℕ) = window - 1 + k + 1 by omega]
      exact hout.step (by omega) hz hset)
  rw [length_range] at hfilled
  rwa [show window - 1 + (((spread.length : ℤ) - (window - 1)).toNat : ℤ) =
    max (window - 1) spread.length by omega] at hfilled

/-- The z-scores, bar by bar: none in the warm-up, and that of the window after it. -/
theorem rollingZscore_get {spread : List K} {window : ℤ} {out : List (Option K)}
    (h : rollingZscore m spread window = .ok out) {k : ℕ} (hk : k < spread.length) :
    (k < window - 1 → out[k]? = some none) ∧
      (window - 1 ≤ k → ∃ z, zscoreAt m spread window k = .ok z ∧ out[k]? = some (some z)) :=
  ⟨fun hwarm => (rollingZscore_filled h).warmup k hwarm hk,
    fun hpast => (rollingZscore_filled h).written k hpast (by omega)⟩

theorem length_rollingZscore {spread : List K} {window : ℤ} {out : List (Option K)}
    (h : rollingZscore m spread window = .ok out) : out.length = spread.length :=
  (rollingZscore_filled h).length

/-- A window of at most one bar shows no deviation on the first one. -/
theorem zscoreAt_zero [IsStrictOrderedRing K] {spread : List K} {window : ℤ} {z : K}
    (hsqrt : m.sqrt 0 = 0) (hwindow : window ≤ 1) (h : zscoreAt m spread window (0 : ℕ) = .ok z) :
    z = 0 := by
  obtain ⟨mean, hmean, h⟩ := bind_eq_ok.mp h
  obtain ⟨var, hvar, h⟩ := bind_eq_ok.mp h
  obtain ⟨-, rfl⟩ := divide_eq_ok.mp hmean
  obtain ⟨-, rfl⟩ := divide_eq_ok.mp hvar
  have hslice : slice spread (((0 : ℕ) : ℤ) - window + 1) (((0 : ℕ) : ℤ) + 1) =
      (spread.take 1).drop (1 - window).toNat := by
    rw [slice_of_nonneg (by omega) (by omega)]
    congr 1
    omega
  rw [hslice] at h
  have hvar : (((spread.take 1).drop (1 - window).toNat).map fun x =>
      (x - ((spread.take 1).drop (1 - window).toNat).sum / window) ^ 2).sum = 0 := by
    rcases hwindow.lt_or_eq with hlt | rfl
    · rw [List.drop_eq_nil_of_le ((List.length_take_le 1 spread).trans (by omega))]
      rfl
    · cases spread with
      | nil => rfl
      | cons x spread => simp
  rw [hvar, zero_div, hsqrt] at h
  dsimp only at h
  rw [if_neg (lt_irrefl 0), if_neg (not_lt.mpr (by positivity))] at h
  exact (Except.ok.inj h).symm

/-- A z-score looks at nothing later. -/
theorem zscoreAt_congr {spread spread' : List K} {window : ℤ} {k t : ℕ} (hk : k < t)
    (hagree : spread.take t = spread'.take t) (hpast : window - 1 ≤ k) :
    zscoreAt m spread window k = zscoreAt m spread' window k := by
  have hslice : slice spread (k - window + 1) (k + 1) = slice spread' (k - window + 1) (k + 1) :=
    slice_congr hagree (by omega) (by omega) (by omega)
  have hindex : index spread (k : ℤ) = index spread' k := by
    rw [index_natCast, index_natCast, getElem?_congr hagree hk]
  rw [zscoreAt, zscoreAt, hslice, hindex]

/-- Z-scores of spreads that agree so far agree so far. -/
theorem rollingZscore_congr {spread spread' : List K} {window : ℤ} {out out' : List (Option K)}
    {t : ℕ} (h : rollingZscore m spread window = .ok out)
    (h' : rollingZscore m spread' window = .ok out') (hagree : spread.take t = spread'.take t) :
    out.take t = out'.take t := by
  refine List.ext_getElem? fun k => ?_
  by_cases hk : k < t
  · rw [List.getElem?_take_of_lt hk, List.getElem?_take_of_lt hk]
    have hspread := getElem?_congr hagree hk
    by_cases hlen : k < spread.length
    · have hlen' : k < spread'.length := by
        rw [List.getElem?_eq_getElem hlen] at hspread
        exact (List.getElem?_eq_some_iff.mp hspread.symm).1
      obtain ⟨hwarm, hpast⟩ := rollingZscore_get h hlen
      obtain ⟨hwarm', hpast'⟩ := rollingZscore_get h' hlen'
      rcases lt_or_ge (k : ℤ) (window - 1) with hlt | hge
      · rw [hwarm hlt, hwarm' hlt]
      · obtain ⟨z, hz, hout⟩ := hpast hge
        obtain ⟨z', hz', hout'⟩ := hpast' hge
        rw [zscoreAt_congr hk hagree hge, hz'] at hz
        rw [hout, hout', Except.ok.inj hz]
    · have hlen' : spread'.length ≤ k := by
        rw [List.getElem?_eq_none (not_lt.mp hlen)] at hspread
        exact List.getElem?_eq_none_iff.mp hspread.symm
      rw [List.getElem?_eq_none ((length_rollingZscore h).trans_le (not_lt.mp hlen)),
        List.getElem?_eq_none ((length_rollingZscore h').trans_le hlen')]
  · rw [List.getElem?_take_eq_none (not_lt.mp hk), List.getElem?_take_eq_none (not_lt.mp hk)]

end Signals

end TreasuryForge
