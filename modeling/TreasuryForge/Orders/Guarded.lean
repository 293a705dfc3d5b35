/-
# `Orders.Guarded` — the guards of the dry run and the order that goes out

The cap and the minimum are checked on size times mid, before slippage and rounding.
`guards_hold_of_kept` says when that is enough for the order that goes out: rounding moves the size,
and slippage and rounding the price, the harmless way, or the notional is further from the bound
than they can move it.  `limit_kept` says how far the price may be from a limit price.
-/
import TreasuryForge.Orders.Hyperliquid

namespace TreasuryForge.Orders.Hyperliquid

open Decimal HyperliquidExecutor

/-! ## Price and size on the wire -/

/-- The price an order goes out at, for the price it is asked for. -/
def wirePrice (px : ℚ) (szDecimals : ℤ) : ℚ :=
  onWire (roundAt (significant 5 px) (perpMaxDecimals - szDecimals))

/-- A size that goes out has eight decimals at most, and is rounded to them at once. -/
theorem onWire_roundAt {sz : ℚ} {szDecimals : ℤ} (hpos : 0 < roundAt sz szDecimals)
    (hclose : |onWire (roundAt sz szDecimals) - roundAt sz szDecimals| < 1 / 10 ^ 12) :
    onWire (roundAt sz szDecimals) = roundAt sz (min szDecimals 8) := by
  rcases le_or_gt szDecimals 8 with hle | hgt
  · rw [min_eq_left hle, onWire_of_onGrid (roundAt_onGrid _ _) hle]
  · rw [min_eq_right hgt.le]
    have hgrid : OnGrid 8 (onWire (roundAt sz szDecimals)) := by
      rw [onWire, Number.fixed_value_of_nonneg 8 hpos.le]
      exact roundAt_onGrid _ _
    have hhalf : (1 : ℚ) / 2 / 10 ^ szDecimals ≤ 1 / 2 / 10 ^ 9 := by
      refine div_le_div_of_nonneg_left (by norm_num) (by norm_num) ?_
      rw [← zpow_natCast]
      exact zpow_le_zpow_right₀ (by norm_num) (by push_cast; omega)
    have hround := (abs_roundAt_sub_le sz szDecimals).trans hhalf
    refine (roundAt_of_close hgrid ?_).symm
    calc |sz - onWire (roundAt sz szDecimals)|
        ≤ |sz - roundAt sz szDecimals| +
          |roundAt sz szDecimals - onWire (roundAt sz szDecimals)| := abs_sub_le _ _ _
      _ = |roundAt sz szDecimals - sz| +
          |onWire (roundAt sz szDecimals) - roundAt sz szDecimals| := by
        rw [abs_sub_comm sz, abs_sub_comm (roundAt sz szDecimals) (onWire _)]
      _ < 1 / 2 / 10 ^ (8 : ℤ) := by
        have h8 : (1 : ℚ) / 2 / 10 ^ (8 : ℤ) = 1 / 2 / 10 ^ 8 := by norm_num
        rw [h8]
        linarith

/-- Prices that the venue takes as they are: five figures, and the decimals it allows. -/
def OnPriceGrid (c : ℚ) (szDecimals : ℤ) : Prop :=
  HasDigits 5 c ∧ OnGrid (min (perpMaxDecimals - szDecimals) 8) c

variable {px c : ℚ} {szDecimals : ℤ}

theorem onWire_of_nonneg {x : ℚ} (h : 0 ≤ x) : onWire x = roundAt x 8 :=
  Number.fixed_value_of_nonneg 8 h

theorem wirePrice_le (hpx : 0 < px) (hc : OnPriceGrid c szDecimals) (h : px ≤ c) :
    wirePrice px szDecimals ≤ c := by
  obtain ⟨hdigits, hgrid⟩ := hc
  have hfigures := (significant_pos (k := 5) (by norm_num) hpx).le
  rw [wirePrice, onWire_of_nonneg (roundAt_nonneg _ hfigures)]
  exact (hgrid.mono (min_le_right _ _)).roundAt_le
    ((hgrid.mono (min_le_left _ _)).roundAt_le (hdigits.significant_le hpx h))

theorem le_wirePrice (hpos : 0 < c) (hc : OnPriceGrid c szDecimals) (h : c ≤ px) :
    c ≤ wirePrice px szDecimals := by
  obtain ⟨hdigits, hgrid⟩ := hc
  have hfigures := (significant_pos (k := 5) (by norm_num) (hpos.trans_le h)).le
  rw [wirePrice, onWire_of_nonneg (roundAt_nonneg _ hfigures)]
  exact (hgrid.mono (min_le_right _ _)).le_roundAt
    ((hgrid.mono (min_le_left _ _)).le_roundAt (hdigits.le_significant (by norm_num) hpos h))

theorem wirePrice_of_grid (hpos : 0 < c) (hc : OnPriceGrid c szDecimals) :
    wirePrice c szDecimals = c :=
  le_antisymm (wirePrice_le hpos hc le_rfl) (le_wirePrice hpos hc le_rfl)

theorem wirePrice_nonneg (hpx : 0 < px) (szDecimals : ℤ) : 0 ≤ wirePrice px szDecimals := by
  have hround := roundAt_nonneg (perpMaxDecimals - szDecimals)
    (significant_pos (k := 5) (by norm_num) hpx).le
  rw [wirePrice, onWire_of_nonneg hround]
  exact roundAt_nonneg _ hround

/-- Half a unit of the fifth figure, half a unit of the last decimal, and what the wire lets
through. -/
def priceSlack (limit : ℚ) (szDecimals : ℤ) : ℚ :=
  1 / 2 * 10 ^ (magnitude limit - 4) + 1 / 2 / 10 ^ (perpMaxDecimals - szDecimals) + 1 / 10 ^ 12

theorem abs_wirePrice_sub_le
    (hclose : |wirePrice px szDecimals -
      roundAt (significant 5 px) (perpMaxDecimals - szDecimals)| < 1 / 10 ^ 12) :
    |wirePrice px szDecimals - px| ≤ priceSlack px szDecimals := by
  have hfigures := abs_significant_sub_le px 5
  have hdecimals := abs_roundAt_sub_le (significant 5 px) (perpMaxDecimals - szDecimals)
  rw [show magnitude px + 1 - ((5 : ℕ) : ℤ) = magnitude px - 4 by push_cast; ring] at hfigures
  generalize roundAt (significant 5 px) (perpMaxDecimals - szDecimals) = p at hclose hdecimals
  calc |wirePrice px szDecimals - px|
      ≤ |wirePrice px szDecimals - p| + |p - px| := abs_sub_le _ _ _
    _ ≤ |wirePrice px szDecimals - p| + (|p - significant 5 px| + |significant 5 px - px|) := by
      gcongr
      exact abs_sub_le _ _ _
    _ ≤ _ := by
      rw [priceSlack]
      linarith

namespace HlTwoPhaseExecutor

variable {x : HlTwoPhaseExecutor} {info : HyperliquidInfo} {intent : Intent} {originId : String}
  {order : SentOrder}

/-! ## The bounds on the notional -/

/-- The guards, of the order that goes out. -/
structure WithinGuards (x : HlTwoPhaseExecutor) (order : SentOrder) : Prop where
  cap : order.sz * order.px ≤ x.maxNotionalUsd + eps
  minimum : order.reduceOnly = true ∨ minNotionalUsd - eps ≤ order.sz * order.px

/-- The price that is asked for at this mid. -/
def askedPrice (intent : Intent) (slippage mid : ℚ) : ℚ :=
  match intent.orderType, intent.limitPrice with
  | .limit, some limit => limit
  | _, _ => mid * (if intent.side = .buy then 1 + slippage else 1 - slippage)

/-- The size that is asked for at this mid. -/
def askedSize (intent : Intent) (mid : ℚ) : ℚ :=
  match intent.quoteAmount with
  | none => intent.baseAmount
  | some q => q / mid

theorem asked_eq {slippage : ℚ} {a : Asked} (h : asked info intent none slippage = .ok a) :
    price info intent.symbol intent.limitPrice = .ok a.mid ∧
      a.px = askedPrice intent slippage a.mid ∧ a.sz = askedSize intent a.mid := by
  have hpx : ∀ mid : ℚ, (match intent.orderType, intent.limitPrice with
      | .limit, some limit => (limit, "Gtc")
      | _, _ => (mid * (if intent.side = Side.buy then 1 + slippage else 1 - slippage), "Ioc")).1 =
      askedPrice intent slippage mid := by
    intro mid
    unfold askedPrice
    cases intent.orderType <;> cases intent.limitPrice <;> rfl
  unfold asked at h
  simp only [bind, Except.bind, Option.isSome_none, Bool.false_eq_true, if_false] at h
  cases hmid : price info intent.symbol intent.limitPrice with
  | error e =>
      rw [hmid] at h
      cases h
  | ok mid =>
      rw [hmid] at h
      unfold askedSize
      cases hquote : intent.quoteAmount with
      | none =>
          rw [hquote] at h
          obtain rfl := Except.ok.inj h
          exact ⟨rfl, hpx mid, rfl⟩
      | some q =>
          rw [hquote] at h
          dsimp only at h
          split at h
          · cases h
          · obtain rfl := Except.ok.inj h
            exact ⟨rfl, hpx mid, rfl⟩

/-- The notional is not above what was checked: the size is not rounded up, and the venue has a
price between the one asked for and the mid below which that was.  Or it is below the cap by more
than half a lot and the rounding of a price. -/
def CapKept (cap mid px sz : ℚ) (szDecimals : ℤ) : Prop :=
  (roundAt sz (min szDecimals 8) ≤ sz ∧ ∃ c, OnPriceGrid c szDecimals ∧ px ≤ c ∧ c ≤ mid) ∨
    (sz + 1 / 2 / 10 ^ min szDecimals 8) * (px + priceSlack px szDecimals) ≤ cap + eps

/-- The same of the minimum. -/
def MinimumKept (mid px sz : ℚ) (szDecimals : ℤ) : Prop :=
  (sz ≤ roundAt sz (min szDecimals 8) ∧ ∃ c, OnPriceGrid c szDecimals ∧ mid ≤ c ∧ c ≤ px) ∨
    (0 ≤ px - priceSlack px szDecimals ∧ minNotionalUsd - eps ≤
      (sz - 1 / 2 / 10 ^ min szDecimals 8) * (px - priceSlack px szDecimals))

/-- At the mid that is quoted and the decimals of the coin, `_guard` is enough for the order that
goes out. -/
def Kept (x : HlTwoPhaseExecutor) (info : HyperliquidInfo) (intent : Intent) : Prop :=
  ∀ mid index szDecimals, price info intent.symbol intent.limitPrice = .ok mid →
    assetOf info.perpUniverse intent.symbol = some (index, szDecimals) →
    let px := askedPrice intent x.slippage mid
    let sz := askedSize intent mid
    CapKept x.maxNotionalUsd mid px sz szDecimals ∧
      (x.reduceOnly = true ∨ MinimumKept mid px sz szDecimals)

/-- What the dry run lets through. -/
theorem guard_ok {notional : ℚ} (h : x.preview.guard notional x.reduceOnly = .ok ()) :
    notional ≤ x.maxNotionalUsd + eps ∧
      (x.reduceOnly = true ∨ minNotionalUsd - eps ≤ notional) := by
  unfold HyperliquidExecutor.guard preview at h
  dsimp only at h
  rw [Option.filter_some] at h
  split at h
  · cases h
  · next hcap =>
      have hle : notional ≤ x.maxNotionalUsd + eps := by
        by_contra hgt
        rw [decide_eq_true (not_le.mp hgt)] at hcap
        cases hcap
      refine ⟨hle, ?_⟩
      split at h
      · next hreduce => exact Or.inl hreduce
      · split at h
        · cases h
        · next hmin => exact Or.inr (not_lt.mp hmin)

/-- The size and the price of an order that goes out, with what rounding did to them. -/
structure OnTheWire (order : SentOrder) (a : Asked) (szDecimals : ℤ) : Prop where
  px : order.px = wirePrice a.px szDecimals
  sz : order.sz = roundAt a.sz (min szDecimals 8)
  px_nonneg : 0 ≤ order.px
  asked_pos : 0 < a.sz
  px_close : |order.px - a.px| ≤ priceSlack a.px szDecimals
  sz_close : |order.sz - a.sz| ≤ 1 / 2 / 10 ^ min szDecimals 8

theorem onTheWire {a : Asked} {index : ℕ} {szDecimals : ℤ} {p s : ℚ}
    (hs : Sends x info intent order a index szDecimals p s) : OnTheWire order a szDecimals := by
  have hpx : order.px = wirePrice a.px szDecimals := by rw [hs.px, hs.price, wirePrice]
  have hpos := hs.size_pos
  have hclose := hs.size_close
  rw [hs.size] at hpos hclose
  have hsz : order.sz = roundAt a.sz (min szDecimals 8) := by
    rw [hs.sz, hs.size, onWire_roundAt hpos hclose]
  have hnear := hs.price_close
  rw [← hs.px, hpx, hs.price] at hnear
  refine ⟨hpx, hsz, ?_, ?_, ?_, ?_⟩
  · rw [hpx]
    exact wirePrice_nonneg hs.price_pos szDecimals
  · by_contra hneg
    have hzero : OnGrid szDecimals 0 := ⟨0, by simp⟩
    exact absurd hpos (not_lt.mpr (hzero.roundAt_le (not_lt.mp hneg)))
  · rw [hpx]
    exact abs_wirePrice_sub_le hnear
  · rw [hsz]
    exact abs_roundAt_sub_le _ _

variable {a : Asked} {szDecimals : ℤ}

theorem OnTheWire.cap_of_kept (h : OnTheWire order a szDecimals) (hpx : 0 < a.px)
    (hguard : a.sz * a.mid ≤ x.maxNotionalUsd + eps)
    (hkept : CapKept x.maxNotionalUsd a.mid a.px a.sz szDecimals) :
    order.sz * order.px ≤ x.maxNotionalUsd + eps := by
  rcases hkept with ⟨hsize, c, hc, hlow, hhigh⟩ | hroom
  · have hprice : order.px ≤ a.mid := h.px ▸ (wirePrice_le hpx hc hlow).trans hhigh
    calc order.sz * order.px ≤ a.sz * a.mid :=
          mul_le_mul (h.sz ▸ hsize) hprice h.px_nonneg h.asked_pos.le
      _ ≤ _ := hguard
  · have hsize := (abs_le.mp h.sz_close).2
    have hprice := (abs_le.mp h.px_close).2
    have hhalf : (0 : ℚ) ≤ 1 / 2 / 10 ^ min szDecimals 8 :=
      div_nonneg (by norm_num) (ten_zpow_pos _).le
    calc order.sz * order.px
        ≤ (a.sz + 1 / 2 / 10 ^ min szDecimals 8) * (a.px + priceSlack a.px szDecimals) :=
          mul_le_mul (by linarith) (by linarith) h.px_nonneg (add_nonneg h.asked_pos.le hhalf)
      _ ≤ _ := hroom

theorem OnTheWire.minimum_of_kept (h : OnTheWire order a szDecimals)
    (hguard : minNotionalUsd - eps ≤ a.sz * a.mid)
    (hkept : MinimumKept a.mid a.px a.sz szDecimals) :
    minNotionalUsd - eps ≤ order.sz * order.px := by
  have hfloor : (0 : ℚ) < minNotionalUsd - eps := by norm_num [minNotionalUsd, eps]
  have hmid : 0 < a.mid := (mul_pos_iff_of_pos_left h.asked_pos).mp (hfloor.trans_le hguard)
  have hsz : 0 ≤ order.sz := h.sz ▸ roundAt_nonneg _ h.asked_pos.le
  rcases hkept with ⟨hsize, c, hc, hlow, hhigh⟩ | ⟨hpos, hroom⟩
  · have hprice : a.mid ≤ order.px :=
      h.px ▸ hlow.trans (le_wirePrice (hmid.trans_le hlow) hc hhigh)
    calc minNotionalUsd - eps ≤ a.sz * a.mid := hguard
      _ ≤ order.sz * order.px := mul_le_mul (h.sz ▸ hsize) hprice hmid.le hsz
  · have hsize := (abs_le.mp h.sz_close).1
    have hprice := (abs_le.mp h.px_close).1
    calc minNotionalUsd - eps
        ≤ (a.sz - 1 / 2 / 10 ^ min szDecimals 8) * (a.px - priceSlack a.px szDecimals) := hroom
      _ ≤ order.sz * order.px := mul_le_mul (by linarith) (by linarith) hpos hsz

/-- The guards hold of an order that goes out where what was asked for keeps them. -/
theorem guards_hold_of_kept (h : x.orderFor info intent originId = .ok order)
    (hkept : Kept x info intent) : WithinGuards x order := by
  obtain ⟨a, index, szDecimals, p, s, hs⟩ := sent_eq h
  obtain ⟨hmid, hpx, hsz⟩ := asked_eq hs.asked
  obtain ⟨hcap, hmin⟩ := hkept a.mid index szDecimals hmid hs.asset
  rw [← hpx, ← hsz] at hcap hmin
  obtain ⟨hbelow, habove⟩ := guard_ok hs.guarded
  have hwire := onTheWire hs
  refine ⟨hwire.cap_of_kept hs.price_pos hbelow hcap, ?_⟩
  rw [hs.reduceOnly]
  rcases habove with hreduce | habove
  · exact Or.inl hreduce
  · exact hmin.imp_right (hwire.minimum_of_kept habove)

/-- A limit order that the venue takes as it is: nothing is rounded. -/
theorem kept_of_limit {limit : ℚ} (htype : intent.orderType = .limit)
    (hlimit : intent.limitPrice = some limit)
    (hgrid : ∀ index szDecimals,
      assetOf info.perpUniverse intent.symbol = some (index, szDecimals) →
        OnPriceGrid limit szDecimals ∧ OnGrid (min szDecimals 8) (askedSize intent limit)) :
    Kept x info intent := by
  intro mid index szDecimals hmid hasset
  rw [hlimit] at hmid
  obtain rfl : limit = mid := Except.ok.inj hmid
  obtain ⟨hprice, hsize⟩ := hgrid index szDecimals hasset
  have hpx : askedPrice intent x.slippage limit = limit := by
    rw [askedPrice, htype, hlimit]
  have hsz := roundAt_of_onGrid hsize
  rw [hpx]
  exact ⟨Or.inl ⟨hsz.le, limit, hprice, le_rfl, le_rfl⟩,
    Or.inr (Or.inl ⟨hsz.ge, limit, hprice, le_rfl, le_rfl⟩)⟩

def anExecutor : HlTwoPhaseExecutor :=
  { texts := plainTexts, maxNotionalUsd := 100, sha256 := fun s => s.toList }

/-- Ether at 100, with four decimals of size. -/
def anInfo : HyperliquidInfo :=
  { allMids := Dict.empty.set "ETH" 100, perpUniverse := [("BTC", 5), ("ETH", 4)] }

def buyEther (amount : ℚ) : Intent := { symbol := "ETH", side := .buy, baseAmount := amount }

def bidEther (limit : ℚ) : Intent :=
  { symbol := "ETH", side := .buy, baseAmount := 1 / 2, orderType := .limit
    limitPrice := some limit }

/-- A bid for half an ether at 100 goes out as it is. -/
theorem guards_hold_of_kept_bid :
    WithinGuards anExecutor ⟨"ETH", true, 1 / 2, 100, "Gtc", false, ['0', 'x', 'o']⟩ := by
  have hsent : anExecutor.orderFor anInfo (bidEther 100) "o" =
      .ok ⟨"ETH", true, 1 / 2, 100, "Gtc", false, ['0', 'x', 'o']⟩ := by decide +kernel
  refine guards_hold_of_kept hsent (kept_of_limit rfl rfl fun index szDecimals hasset => ?_)
  obtain ⟨rfl, rfl⟩ : 1 = index ∧ (4 : ℤ) = szDecimals :=
    Prod.mk.inj (Option.some.inj (show some (1, (4 : ℤ)) = some (index, szDecimals) from hasset))
  have hcents : OnGrid 2 100 := ⟨10000, by norm_num⟩
  have hlots : OnGrid 4 (1 / 2) := ⟨5000, by norm_num⟩
  exact ⟨⟨⟨1, 2, by norm_num, by norm_num⟩, hcents⟩, hlots⟩

/-- One unit at a mid of 100 is within the cap of 100, and goes out at 102. -/
theorem cap_exceeded :
    anExecutor.orderFor anInfo (buyEther 1) "o" =
        .ok ⟨"ETH", true, 1, 102, "Ioc", false, ['0', 'x', 'o']⟩ ∧
      ¬ WithinGuards anExecutor ⟨"ETH", true, 1, 102, "Ioc", false, ['0', 'x', 'o']⟩ := by
  refine ⟨by decide +kernel, ?_⟩
  intro hwithin
  have hcap := hwithin.cap
  norm_num [anExecutor, eps] at hcap

/-! ## Limit prices -/

/-- The order of a limit intent goes out at the limit price, if that has five figures and the
decimals the venue takes, and at a price that is worse by no more than the rounding otherwise. -/
theorem limit_kept {limit : ℚ} (htype : intent.orderType = .limit)
    (hlimit : intent.limitPrice = some limit) (hpos : 0 < limit)
    (h : x.orderFor info intent originId = .ok order) :
    ∃ index szDecimals, assetOf info.perpUniverse intent.symbol = some (index, szDecimals) ∧
      (intent.side = .buy → order.px ≤ limit + priceSlack limit szDecimals) ∧
      (intent.side = .sell → limit - priceSlack limit szDecimals ≤ order.px) ∧
      (HasDigits 5 limit → OnGrid (min (perpMaxDecimals - szDecimals) 8) limit →
        order.px = limit) := by
  obtain ⟨a, index, szDecimals, p, s, hs⟩ := sent_eq h
  have hpx : a.px = limit := by
    rw [(asked_eq hs.asked).2.1, askedPrice, htype, hlimit]
  have hwire := onTheWire hs
  have hclose := hwire.px_close
  rw [hpx] at hclose
  obtain ⟨hlow, hhigh⟩ := abs_le.mp hclose
  refine ⟨index, szDecimals, hs.asset, fun _ => by linarith, fun _ => by linarith, ?_⟩
  intro hdigits hgrid
  rw [hwire.px, hpx]
  exact wirePrice_of_grid hpos ⟨hdigits, hgrid⟩

theorem limit_kept_bid :
    ∃ index szDecimals, assetOf anInfo.perpUniverse "ETH" = some (index, szDecimals) ∧
      (Side.buy = .buy → (100 : ℚ) ≤ 100 + priceSlack 100 szDecimals) ∧
      (Side.buy = .sell → 100 - priceSlack 100 szDecimals ≤ 100) ∧
      (HasDigits 5 100 → OnGrid (min (perpMaxDecimals - szDecimals) 8) 100 → (100 : ℚ) = 100) :=
  have hsent : anExecutor.orderFor anInfo (bidEther 100) "o" =
      .ok ⟨"ETH", true, 1 / 2, 100, "Gtc", false, ['0', 'x', 'o']⟩ := by decide +kernel
  limit_kept rfl rfl (by norm_num) hsent

/-- A bid at 100.006 goes out at 100.01. -/
theorem bid_rounded_up :
    anExecutor.orderFor anInfo (bidEther (100006 / 1000)) "o" =
        .ok ⟨"ETH", true, 1 / 2, 10001 / 100, "Gtc", false, ['0', 'x', 'o']⟩ ∧
      ¬ (10001 / 100 : ℚ) ≤ 100006 / 1000 := by
  exact ⟨by decide +kernel, by norm_num⟩

end HlTwoPhaseExecutor

end TreasuryForge.Orders.Hyperliquid
