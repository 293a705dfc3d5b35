/-
# `Orders.Wire` — an order as it goes to Hyperliquid

`exchanges/hyperliquid/wire.py`.  Sizes are rounded to the coin's decimals, prices to five
significant figures and then to the decimals that are left, and both are written as plain
decimal texts.  A size that is rounded to zero is refused, a price is not, so an action is well
formed exactly when its price is above half a unit of the last decimal: above `0.500005` of it,
since the five figures come first (`wellFormed_iff`).
-/
import TreasuryForge.Base.DecimalText
import Mathlib.Data.String.Basic

namespace TreasuryForge.Orders.Hyperliquid

open Decimal

/-- How the interpreter spells a float, and a string between quotes, in a message. -/
structure Texts where
  str : ℚ → String
  repr : String → String

def perpMaxDecimals : ℤ := 6

def spotMaxDecimals : ℤ := 8

def tifs : List String := ["Alo", "Ioc", "Gtc"]

/-- Decimals that prices and sizes share. -/
def maxDecimals (isPerp : Bool) : ℤ := if isPerp then perpMaxDecimals else spotMaxDecimals

/-- `float_to_wire`, with the text of the `ValueError` it raises. -/
def floatToWire (w : Texts) (x : ℚ) : Except String String :=
  let rounded := Number.fixed 8 x
  if 1 / 10 ^ 12 ≤ |rounded.value - x| then
    .error s!"{w.str x} cannot be represented on the wire without loss"
  else .ok (String.ofList rounded.normalize.text)

def roundSize (sz : ℚ) (szDecimals : ℤ) : ℚ := roundAt sz szDecimals

def roundPrice (px : ℚ) (szDecimals : ℤ) (isPerp : Bool := true) : Except String ℚ :=
  if px ≤ 0 then .error "price must be positive"
  else
    let maxDec := maxDecimals isPerp - szDecimals
    .ok (roundAt (significant 5 px) maxDec)

/-- The order of an action, key by key; its type is `order` and its grouping `na`. -/
structure OrderAction where
  a : ℕ
  b : Bool
  p : String
  s : String
  r : Bool
  tif : String
  deriving DecidableEq, Repr

def buildOrderAction (w : Texts) (assetIndex : ℕ) (isBuy : Bool) (price size : ℚ) (szDecimals : ℤ)
    (tif : String := "Ioc") (reduceOnly : Bool := false) (isPerp : Bool := true) :
    Except String OrderAction :=
  if tif ∉ tifs then
    .error s!"tif must be one of ('Alo', 'Ioc', 'Gtc'), got {w.repr tif}"
  else do
    let px ← roundPrice price szDecimals isPerp
    let sz := roundSize size szDecimals
    if sz ≤ 0 then
      .error s!"size {w.str size} rounds to zero at szDecimals={szDecimals}"
    else
      let p ← floatToWire w px
      let s ← floatToWire w sz
      return { a := assetIndex, b := isBuy, p, s, r := reduceOnly, tif }

/-- `float` of a plain decimal text. -/
def float (text : String) : Option ℚ := read text.toList

/-! ## What is on the wire -/

/-- The number of a text on the wire: eight decimals at most. -/
def onWire (x : ℚ) : ℚ := (Number.fixed 8 x).value

/-- What `float_to_wire` lets through is off by less than `1e-12`, and read back as it was
written. -/
theorem floatToWire_ok {w : Texts} {x : ℚ} {text : String} (h : floatToWire w x = .ok text) :
    float text = some (onWire x) ∧ |onWire x - x| < 1 / 10 ^ 12 := by
  unfold floatToWire at h
  dsimp only at h
  split at h
  · cases h
  · next hclose =>
      obtain rfl := Except.ok.inj h
      refine ⟨?_, not_le.mp hclose⟩
      rw [float, String.toList_ofList, Number.read_text, Number.normalize_value, onWire]

/-- Eight decimals are not lossy. -/
theorem onWire_of_onGrid {x : ℚ} {n : ℤ} (h : OnGrid n x) (hn : n ≤ 8) : onWire x = x :=
  Number.fixed_value (n := 8) (h.mono hn)

theorem roundPrice_ok {px p : ℚ} {szDecimals : ℤ} {isPerp : Bool}
    (h : roundPrice px szDecimals isPerp = .ok p) :
    0 < px ∧ p = roundAt (significant 5 px) (maxDecimals isPerp - szDecimals) := by
  unfold roundPrice at h
  split at h
  · cases h
  · next hpos => exact ⟨not_le.mp hpos, (Except.ok.inj h).symm⟩

/-- What an action that is built holds. -/
structure Built (price size : ℚ) (szDecimals : ℤ) (isPerp : Bool) (action : OrderAction)
    (p s : ℚ) : Prop where
  price_pos : 0 < price
  price : p = roundAt (significant 5 price) (maxDecimals isPerp - szDecimals)
  size : s = roundAt size szDecimals
  size_pos : 0 < s
  price_text : float action.p = some (onWire p)
  size_text : float action.s = some (onWire s)
  price_close : |onWire p - p| < 1 / 10 ^ 12
  size_close : |onWire s - s| < 1 / 10 ^ 12

theorem buildOrderAction_ok {w : Texts} {assetIndex : ℕ} {isBuy reduceOnly isPerp : Bool}
    {price size : ℚ} {szDecimals : ℤ} {tif : String} {action : OrderAction}
    (h : buildOrderAction w assetIndex isBuy price size szDecimals tif reduceOnly isPerp =
      .ok action) :
    (action.a = assetIndex ∧ action.b = isBuy ∧ action.r = reduceOnly ∧ action.tif = tif) ∧
      ∃ p s, Built price size szDecimals isPerp action p s := by
  unfold buildOrderAction at h
  split at h
  · cases h
  · cases hpx : roundPrice price szDecimals isPerp with
    | error e =>
        rw [hpx] at h
        cases h
    | ok px =>
        obtain ⟨hpos, hprice⟩ := roundPrice_ok hpx
        rw [hpx] at h
        simp only [bind, Except.bind] at h
        split at h
        · cases h
        · next hsize =>
            cases hp : floatToWire w px with
            | error e =>
                rw [hp] at h
                cases h
            | ok p =>
                cases hs : floatToWire w (roundSize size szDecimals) with
                | error e =>
                    rw [hp, hs] at h
                    cases h
                | ok s =>
                    rw [hp, hs] at h
                    obtain rfl := Except.ok.inj h
                    obtain ⟨hptext, hpclose⟩ := floatToWire_ok hp
                    obtain ⟨hstext, hsclose⟩ := floatToWire_ok hs
                    exact ⟨⟨rfl, rfl, rfl, rfl⟩, px, _, hpos, hprice, rfl, not_le.mp hsize, hptext,
                      hstext, hpclose, hsclose⟩

/-! ## Well-formed actions -/

/-- Positive numbers, the rounded price and size, with no more figures and decimals than the
venue takes. -/
structure Sound (price size : ℚ) (szDecimals : ℤ) (isPerp : Bool) (p s : ℚ) : Prop where
  price_pos : 0 < p
  size_pos : 0 < s
  size_grid : OnGrid szDecimals s
  price_figures : HasDigits 5 p
  price_grid : OnGrid (maxDecimals isPerp - szDecimals) p
  price_rounded : roundPrice price szDecimals isPerp = .ok p
  size_rounded : roundSize size szDecimals = s

/-- The texts of the action are such numbers. -/
def WellFormed (price size : ℚ) (szDecimals : ℤ) (isPerp : Bool) (action : OrderAction) : Prop :=
  ∃ p s, float action.p = some p ∧ float action.s = some s ∧ Sound price size szDecimals isPerp p s

/-- A price of five figures is not rounded to zero when it is above half a unit of the last
decimal, and a price has such figures when it is above `0.500005` of that unit. -/
theorem roundAt_significant_pos_iff {price : ℚ} (hpos : 0 < price) (n : ℤ) :
    0 < roundAt (significant 5 price) n ↔ 500005 / 10 ^ 6 < price * 10 ^ n := by
  have hn := ten_zpow_pos n
  have hunit : (10 : ℚ) ^ (-n - 5) = (10 ^ n * 10 ^ 5)⁻¹ := by
    rw [← zpow_natCast, ten_zpow_mul, ← zpow_neg]
    congr 1
    push_cast
    ring
  have hfigures := lt_significant_iff (k := 5) (c := 50000) (by norm_num) hpos (-n - 5)
    (by norm_num) (by norm_num) (by norm_num)
  have hround : 0 < roundAt (significant 5 price) n ↔ 1 / 2 < significant 5 price * 10 ^ n := by
    rw [roundAt, div_pos_iff_of_pos_right hn, Int.cast_pos, ← not_le, roundEven_le_iff]
    push_cast
    constructor
    · intro h
      push Not at h
      rcases h.1.lt_or_eq with hlt | heq
      · linarith
      · exact (h.2 (by linarith)).elim
    · rintro h (hlt | ⟨heq, -⟩) <;> linarith
  rw [hround]
  rw [hunit] at hfigures
  push_cast at hfigures
  constructor
  · intro h
    have hlt : (50000 : ℚ) * (10 ^ n * 10 ^ 5)⁻¹ < significant 5 price := by
      rw [← div_eq_mul_inv, div_lt_iff₀ (by positivity)]
      linarith
    have hprice := hfigures.mp hlt
    rw [← div_eq_mul_inv, div_lt_iff₀ (by positivity)] at hprice
    linarith
  · intro h
    have hlt : (50000 + 1 / 2 : ℚ) * (10 ^ n * 10 ^ 5)⁻¹ < price := by
      rw [← div_eq_mul_inv, div_lt_iff₀ (by positivity)]
      linarith
    have hprice := hfigures.mpr hlt
    rw [← div_eq_mul_inv, div_lt_iff₀ (by positivity)] at hprice
    linarith

/-- An action that is built is well formed exactly when its price is above `0.500005` units of
the last decimal a price may have. -/
theorem wellFormed_iff {w : Texts} {assetIndex : ℕ} {isBuy reduceOnly isPerp : Bool}
    {price size : ℚ} {szDecimals : ℤ} {tif : String} {action : OrderAction}
    (hlow : 0 ≤ szDecimals) (hhigh : szDecimals ≤ maxDecimals isPerp)
    (h : buildOrderAction w assetIndex isBuy price size szDecimals tif reduceOnly isPerp =
      .ok action) :
    WellFormed price size szDecimals isPerp action ↔
      500005 / 10 ^ 6 < price * 10 ^ (maxDecimals isPerp - szDecimals) := by
  obtain ⟨-, p, s, hb⟩ := buildOrderAction_ok h
  have hmax : maxDecimals isPerp ≤ 8 := by cases isPerp <;> decide
  have hpgrid : OnGrid (maxDecimals isPerp - szDecimals) p := by
    rw [hb.price]
    exact roundAt_onGrid _ _
  have hsgrid : OnGrid szDecimals s := by
    rw [hb.size]
    exact roundAt_onGrid _ _
  have hp : float action.p = some p := by
    rw [hb.price_text, onWire_of_onGrid hpgrid (by omega)]
  have hs : float action.s = some s := by
    rw [hb.size_text, onWire_of_onGrid hsgrid (by omega)]
  have hround : roundPrice price szDecimals isPerp = .ok p := by
    rw [roundPrice, if_neg (not_le.mpr hb.price_pos), hb.price]
  have hfigures : HasDigits 5 p := by
    rw [hb.price]
    exact (hasDigits_significant (by norm_num) hb.price_pos).roundAt _
  rw [← roundAt_significant_pos_iff hb.price_pos, ← hb.price]
  constructor
  · rintro ⟨p', s', hp', -, hsound⟩
    rw [hp] at hp'
    exact Option.some.inj hp' ▸ hsound.price_pos
  · intro hpos
    exact ⟨p, s, hp, hs, hpos, hb.size_pos, hsgrid, hfigures, hpgrid, hround, hb.size.symm⟩

def plainTexts : Texts := ⟨fun _ => "", id⟩

/-- A perpetual at 3570.123 with four decimals of size. -/
theorem wellFormed_iff_ether :
    WellFormed (3570123 / 1000) (31 / 10000) 4 true ⟨1, true, "3570.1", "0.0031", false, "Ioc"⟩ ↔
      500005 / 10 ^ 6 < (3570123 / 1000 : ℚ) * 10 ^ (maxDecimals true - 4) :=
  have hbuilt : buildOrderAction plainTexts 1 true (3570123 / 1000) (31 / 10000) 4 =
      .ok ⟨1, true, "3570.1", "0.0031", false, "Ioc"⟩ := by decide +kernel
  wellFormed_iff (by decide) (by decide) hbuilt

/-- A hundred units at a price of 3e-7: the price goes out as zero. -/
theorem tiny_price_zero :
    buildOrderAction plainTexts 0 true (3 / 10 ^ 7) 100 0 = .ok ⟨0, true, "0", "100", false, "Ioc"⟩ ∧
      ¬ WellFormed (3 / 10 ^ 7) 100 0 true ⟨0, true, "0", "100", false, "Ioc"⟩ := by
  refine ⟨by decide +kernel, ?_⟩
  rintro ⟨p, s, hp, -, hsound⟩
  have hzero : float "0" = some 0 := by decide +kernel
  rw [hzero] at hp
  exact absurd (Option.some.inj hp) hsound.price_pos.ne

end TreasuryForge.Orders.Hyperliquid
