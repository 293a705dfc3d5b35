/-
# `Marketlab.Fills` — a market order against the depth of a book

`marketlab/fills.py` over exact fractions, the numbers of a book already read.  The loop of
`walk_book` is the library's walk (`walkBook_eq`): what it fills and at which price is
`walkBook_fills`, and `parseBook_bestFirst` hands it the sides that this asks for.
-/
import TreasuryForge.Base.Loop
import TreasuryForge.Base.Walk
import Mathlib.Algebra.Order.Field.Rat
import Mathlib.Data.List.Sort
import Mathlib.Data.String.Basic
import Mathlib.Tactic.NormNum
import Mathlib.Tactic.Positivity

namespace TreasuryForge

namespace Marketlab

structure Level where
  px : ℚ
  sz : ℚ
  deriving DecidableEq, Repr

inductive Side where
  | buy
  | sell
  deriving DecidableEq, Repr

/-- The two shapes of a book: lists of levels, or sides by name. -/
inductive Book where
  | l2 (levels : List (List Level))
  | plain (bids asks : Option (List Level))
  deriving DecidableEq, Repr

/-- `lvl.px` or `-lvl.px`: a buy walks the asks from the lowest price up, and a sell the bids from
the highest one down. -/
def Side.key : Side → ℚ → ℚ
  | .buy, p => p
  | .sell, p => -p

/-- `sort(key=...)` is stable. -/
def Side.sort (side : Side) (levels : List Level) : List Level :=
  levels.mergeSort fun a b => decide (side.key a.px ≤ side.key b.px)

def rawSides : Book → Except String (List Level × List Level)
  | .l2 (bids :: asks :: _) => .ok (bids, asks)
  | .l2 _ => .error "IndexError: list index out of range"
  | .plain bids asks => .ok (bids.getD [], asks.getD [])

def parseBook (book : Book) : Except String (List Level × List Level) := do
  let (bids, asks) ← rawSides book
  return (Side.sell.sort bids, Side.buy.sort asks)

/-- What is left over is too little to go on for. -/
def dust : ℚ := 1 / 10 ^ 12

/-- The loop of `walk_book`, with what is left to take, its cost so far and what is filled. -/
def walkLevels : List Level → ℚ → ℚ → ℚ → ℚ × ℚ
  | [], _, cost, filled => (cost, filled)
  | lvl :: levels, remaining, cost, filled =>
      let take := min remaining lvl.sz
      let cost := cost + take * lvl.px
      let filled := filled + take
      let remaining := remaining - take
      if remaining ≤ dust then (cost, filled) else walkLevels levels remaining cost filled

/-- The price by volume, and what is filled. -/
def walkBook (levels : List Level) (size : ℚ) : ℚ × ℚ :=
  let r := walkLevels levels size 0 0
  (if 0 < r.2 then r.1 / r.2 else 0, r.2)

structure FillResult where
  vwap : ℚ
  filled : ℚ
  requested : ℚ
  mid : ℚ
  slippage : ℚ
  isPartial : Bool
  deriving DecidableEq, Repr

def fill (book : Book) (side : Side) (size : ℚ) : Except String FillResult := do
  match ← parseBook book with
  | (bid :: bids, ask :: asks) =>
      let mid := (bid.px + ask.px) / 2
      let levels := if side = .buy then ask :: asks else bid :: bids
      let (vwap, filled) := walkBook levels size
      if mid = 0 then .error "ZeroDivisionError: float division by zero"
      else
        let slip := if side = .buy then (vwap - mid) / mid else (mid - vwap) / mid
        return ⟨vwap, filled, size, mid, max slip 0, filled < size - dust⟩
  | _ => .error "ValueError: order book has an empty side"

/-! ## Sides in order -/

/-- The first price is no worse than the second one. -/
def Side.NoWorse : Side → ℚ → ℚ → Prop
  | .buy, p, q => p ≤ q
  | .sell, p, q => q ≤ p

/-- From the best price to the worst. -/
def Side.BestFirst (side : Side) (levels : List Level) : Prop :=
  levels.Pairwise fun a b => side.NoWorse a.px b.px

def depth (levels : List Level) : ℚ := (levels.map (·.sz)).sum

theorem Side.noWorse_iff (side : Side) (p q : ℚ) : side.NoWorse p q ↔ side.key p ≤ side.key q := by
  cases side with
  | buy => exact Iff.rfl
  | sell => exact neg_le_neg_iff.symm

theorem Side.bestFirst_sort (side : Side) (levels : List Level) :
    side.BestFirst (side.sort levels) := by
  have hpairs : (side.sort levels).Pairwise fun a b =>
      decide (side.key a.px ≤ side.key b.px) = true :=
    List.pairwise_mergeSort
      (fun a b c hab hbc =>
        decide_eq_true ((of_decide_eq_true hab).trans (of_decide_eq_true hbc)))
      (fun a b => by simpa using le_total (side.key a.px) (side.key b.px)) levels
  exact hpairs.imp fun hab => (side.noWorse_iff _ _).mpr (of_decide_eq_true hab)

/-- Both sides of a book are handed on from the best price to the worst. -/
theorem parseBook_bestFirst {book : Book} {bids asks : List Level}
    (h : parseBook book = .ok (bids, asks)) :
    Side.sell.BestFirst bids ∧ Side.buy.BestFirst asks := by
  obtain ⟨⟨bids', asks'⟩, -, h⟩ := Loop.bind_eq_ok.mp h
  cases h
  exact ⟨Side.sell.bestFirst_sort bids', Side.buy.bestFirst_sort asks'⟩

/-! ## The walk -/

/-- What the library's walk sees of a side. -/
def Side.offers (side : Side) (levels : List Level) : List (ℚ × ℚ) :=
  levels.map fun lvl => (side.key lvl.px, lvl.sz)

/-- The accumulators carry the walk. -/
theorem walkLevels_eq (levels : List Level) (remaining cost filled : ℚ) :
    walkLevels levels remaining cost filled =
      (cost + (Walk.walk dust (Side.buy.offers levels) remaining).1,
        filled + (Walk.walk dust (Side.buy.offers levels) remaining).2) := by
  induction levels generalizing remaining cost filled with
  | nil => simp [walkLevels, Side.offers, Walk.walk]
  | cons lvl levels ih =>
      have hoffers : Side.buy.offers (lvl :: levels) =
          (lvl.px, lvl.sz) :: Side.buy.offers levels := rfl
      by_cases hlast : remaining - min remaining lvl.sz ≤ dust
      · rw [hoffers, Walk.walk_last hlast, walkLevels, if_pos hlast]
      · rw [hoffers, Walk.walk_next hlast, walkLevels, if_neg hlast, ih, add_assoc, add_assoc]

theorem walk_key (side : Side) (levels : List Level) (size : ℚ) :
    Walk.walk dust (side.offers levels) size =
      (side.key (Walk.walk dust (Side.buy.offers levels) size).1,
        (Walk.walk dust (Side.buy.offers levels) size).2) := by
  cases side with
  | buy => rfl
  | sell =>
      have hflip : Side.sell.offers levels = Walk.flip (Side.buy.offers levels) := by
        simp [Side.offers, Walk.flip, Side.key]
      rw [hflip, Walk.walk_flip]
      rfl

theorem dust_nonneg : 0 ≤ dust := by norm_num [dust]

theorem Side.key_div (side : Side) (c f : ℚ) : side.key (c / f) = side.key c / f := by
  cases side with
  | buy => rfl
  | sell => exact (neg_div f c).symm

section Fills

variable {side : Side} {levels : List Level} {size : ℚ}

theorem walkBook_filled (side : Side) (levels : List Level) (size : ℚ) :
    (walkBook levels size).2 = (Walk.walk dust (side.offers levels) size).2 := by
  rw [walk_key, walkBook, walkLevels_eq]
  exact zero_add _

/-- The price by volume, where anything is filled. -/
theorem key_vwap (hpos : 0 < (Walk.walk dust (side.offers levels) size).2) :
    side.key (walkBook levels size).1 = (Walk.walk dust (side.offers levels) size).1 /
      (Walk.walk dust (side.offers levels) size).2 := by
  rw [walk_key] at hpos ⊢
  rw [walkBook, walkLevels_eq, zero_add, zero_add]
  dsimp only
  rw [if_pos hpos, Side.key_div]

theorem offers_nonneg (hsz : ∀ lvl ∈ levels, 0 ≤ lvl.sz) : Walk.Offers (side.offers levels) := by
  intro offer hoffer
  obtain ⟨lvl, hlvl, rfl⟩ := List.mem_map.mp hoffer
  exact hsz lvl hlvl

theorem depth_offers : Walk.depth (side.offers levels) = depth levels := by
  rw [Walk.depth, Side.offers, List.map_map]
  rfl

theorem rising_offers (h : side.BestFirst levels) :
    (side.offers levels).Pairwise fun a b => a.1 ≤ b.1 :=
  List.pairwise_map.mpr (h.imp fun hab => (side.noWorse_iff _ _).mp hab)

/-- The first price is the best, and the last one the worst. -/
theorem exists_ends (h : side.BestFirst levels) (hne : levels ≠ []) :
    ∃ best worst, levels.head? = some best ∧ levels.getLast? = some worst ∧
      ∀ offer ∈ side.offers levels, side.key best.px ≤ offer.1 ∧ offer.1 ≤ side.key worst.px := by
  refine ⟨levels.head hne, levels.getLast hne, List.head?_eq_some_head hne,
    List.getLast?_eq_some_getLast hne, fun offer hoffer => ?_⟩
  obtain ⟨lvl, hlvl, rfl⟩ := List.mem_map.mp hoffer
  have hrefl : Std.Refl fun a b : Level => side.NoWorse a.px b.px :=
    ⟨fun a => (side.noWorse_iff _ _).mpr le_rfl⟩
  exact ⟨(side.noWorse_iff _ _).mp (h.rel_head hlvl),
    (side.noWorse_iff _ _).mp (h.rel_getLast hlvl)⟩

/-- A walk over levels in order fills what is wanted or there, at a price between the first and
the last one, and the more it is to fill the worse is the price. -/
theorem walkBook_fills (side : Side) {levels : List Level} (hsorted : side.BestFirst levels)
    (hsz : ∀ lvl ∈ levels, 0 ≤ lvl.sz) (hdepth : 0 < depth levels) {size : ℚ}
    (hsize : dust < size) :
    |(walkBook levels size).2 - min size (depth levels)| ≤ dust ∧
      (∃ best worst, levels.head? = some best ∧ levels.getLast? = some worst ∧
        side.NoWorse best.px (walkBook levels size).1 ∧
        side.NoWorse (walkBook levels size).1 worst.px) ∧
      ∀ size', size ≤ size' → side.NoWorse (walkBook levels size).1 (walkBook levels size').1 := by
  have hoffers : Walk.Offers (side.offers levels) := offers_nonneg hsz
  have hnonneg : 0 ≤ size := dust_nonneg.trans hsize.le
  have hdeep : 0 < Walk.depth (side.offers levels) := depth_offers ▸ hdepth
  have hpos := Walk.filled_pos dust_nonneg hoffers hsize hdeep
  have hne : levels ≠ [] := by
    rintro rfl
    exact lt_irrefl 0 hdepth
  have hrising := rising_offers hsorted
  refine ⟨?_, ?_, ?_⟩
  · have hmost : (Walk.walk dust (side.offers levels) size).2 ≤ min size (depth levels) := by
      rw [← depth_offers]
      exact le_min_iff.mpr (Walk.filled_le hoffers hnonneg)
    have hleast : min size (depth levels) ≤
        (Walk.walk dust (side.offers levels) size).2 + dust := by
      rw [← depth_offers]
      exact Walk.le_filled dust_nonneg
    rw [walkBook_filled side, abs_sub_le_iff]
    exact ⟨by linarith [dust_nonneg], by linarith⟩
  · obtain ⟨best, worst, hbest, hworst, hends⟩ := exists_ends hsorted hne
    refine ⟨best, worst, hbest, hworst, ?_, ?_⟩
    · rw [side.noWorse_iff, key_vwap hpos, le_div_iff₀ hpos]
      exact Walk.le_cost hoffers hnonneg fun offer hoffer => (hends offer hoffer).1
    · rw [side.noWorse_iff, key_vwap hpos, div_le_iff₀ hpos]
      exact Walk.cost_le hoffers hnonneg fun offer hoffer => (hends offer hoffer).2
  · intro size' hle
    have hpos' := Walk.filled_pos dust_nonneg hoffers (hsize.trans_le hle) hdeep
    obtain ⟨best, worst, -, -, hends⟩ := exists_ends hsorted hne
    obtain ⟨px, -, hcost, hfilled, hmore⟩ := Walk.longer_costs dust_nonneg hoffers hnonneg hle
      hrising fun offer hoffer => (hends offer hoffer).1
    rw [side.noWorse_iff, key_vwap hpos, key_vwap hpos']
    exact Walk.average_le hpos hcost hfilled hmore

/-- An order is filled by a walk over the side it takes from, best price first, and never with a
gain on the mid price. -/
theorem fill_walks {book : Book} {r : FillResult} (h : fill book side size = .ok r) :
    ∃ bids asks, parseBook book = .ok (bids, asks) ∧
      side.BestFirst (if side = .buy then asks else bids) ∧
      (r.vwap, r.filled) = walkBook (if side = .buy then asks else bids) size ∧
      0 ≤ r.slippage := by
  obtain ⟨⟨bids, asks⟩, hparse, h⟩ := Loop.bind_eq_ok.mp h
  obtain ⟨hbids, hasks⟩ := parseBook_bestFirst hparse
  refine ⟨bids, asks, hparse, ?_, ?_⟩
  · cases side with
    | buy => exact hasks
    | sell => exact hbids
  · split at h
    · next bid bids' ask asks' hsides =>
        cases hsides
        dsimp only at h
        split at h
        · cases h
        · cases h
          exact ⟨rfl, le_max_right _ _⟩
    · cases h

/-- A walk down the bids, past a level without size. -/
theorem walkBook_fills_of_bids :
    |(walkBook [⟨101, 1⟩, ⟨100, 0⟩, ⟨99, 2⟩] 2).2 - min 2 (depth [⟨101, 1⟩, ⟨100, 0⟩, ⟨99, 2⟩])| ≤
        dust ∧
      ∀ size', 2 ≤ size' → (walkBook [⟨101, 1⟩, ⟨100, 0⟩, ⟨99, 2⟩] size').1 ≤
        (walkBook [⟨101, 1⟩, ⟨100, 0⟩, ⟨99, 2⟩] 2).1 := by
  have hsorted : Side.sell.BestFirst [⟨101, 1⟩, ⟨100, 0⟩, ⟨99, 2⟩] := by
    norm_num [Side.BestFirst, Side.NoWorse]
  obtain ⟨hfilled, -, hworse⟩ := walkBook_fills .sell hsorted (by norm_num)
    (by norm_num [depth]) (show dust < 2 by norm_num [dust])
  exact ⟨hfilled, hworse⟩

end Fills

end Marketlab

end TreasuryForge
