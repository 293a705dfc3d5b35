/-
# `Risk.Tax` — the FIFO tax ledger (`risk/tax.py`)

A buy opens a lot; a sell is matched against the lots of its coin, oldest first, each match
taking its share of the lot's fee and of the sell's.  A lot that a match leaves with no more
than the tolerance is retired, and what it still held is written off.

`Conserved` says what no sequence of fills can break: the sells are matched in full, and of
each coin nothing is lost but the dust of the retired lots.
-/
import Mathlib.Algebra.BigOperators.Group.List.Basic
import Mathlib.Algebra.Order.BigOperators.Group.List
import Mathlib.Algebra.Order.Field.Rat
import Mathlib.Data.List.Forall2
import Mathlib.Tactic.FieldSimp
import Mathlib.Tactic.Linarith
import Mathlib.Tactic.NormNum
import Mathlib.Tactic.Ring

namespace TreasuryForge.Tax

structure BuyLot where
  coin : String
  qty : ℚ
  price : ℚ
  ts : ℤ
  fee : ℚ
  fillId : String
deriving DecidableEq

structure MatchedTrade where
  coin : String
  qty : ℚ
  buyTs : ℤ
  sellTs : ℤ
  buyPrice : ℚ
  sellPrice : ℚ
  buyFee : ℚ
  sellFee : ℚ
  buyId : String
  sellId : String
  realizedPnl : ℚ
deriving DecidableEq

structure FifoTaxLedger where
  activeLots : List BuyLot := []
  matchedTrades : List MatchedTrade := []

/-- The arguments of `add_fill`. -/
structure TaxFill where
  fillId : String
  ts : ℤ
  coin : String
  side : String
  qty : ℚ
  price : ℚ
  fee : ℚ

/-- The `ValueError`s of `add_fill`, with what their texts name. -/
inductive Refused where
  | quantity (got : ℚ)
  | price (got : ℚ)
  | fee (got : ℚ)
  | inventory (coin : String) (need available : ℚ)
  | side (got : String)
deriving DecidableEq

/-- The float tolerance under which a lot is dropped. -/
def tolerance : ℚ := 1 / 10 ^ 10

/-- The lots of a coin. -/
def ofCoin (coin : String) (lots : List BuyLot) : List BuyLot :=
  lots.filter (·.coin = coin)

/-- `sum(lot.qty for lot in lots if lot.coin == coin)`. -/
def heldOf (coin : String) (lots : List BuyLot) : ℚ := ((ofCoin coin lots).map (·.qty)).sum

/-- One lot against what is left of a sell: the entry of the match, and the lot after it.
The sell comes with its coin in upper case. -/
def matchLot (sell : TaxFill) (remaining : ℚ) (lot : BuyLot) : MatchedTrade × BuyLot :=
  let matchQty := min remaining lot.qty
  let propBuyFee := if 0 < lot.qty then lot.fee * (matchQty / lot.qty) else 0
  let propSellFee := if 0 < sell.qty then sell.fee * (matchQty / sell.qty) else 0
  let proceeds := matchQty * sell.price
  let costBasis := matchQty * lot.price
  ({ coin := sell.coin
     qty := matchQty
     buyTs := lot.ts
     sellTs := sell.ts
     buyPrice := lot.price
     sellPrice := sell.price
     buyFee := propBuyFee
     sellFee := propSellFee
     buyId := lot.fillId
     sellId := sell.fillId
     realizedPnl := proceeds - costBasis - propBuyFee - propSellFee },
   { lot with qty := lot.qty - matchQty, fee := lot.fee - propBuyFee })

/-- The loop of `_match_sell`: the matches, and the new active lots. -/
def matchLots (sell : TaxFill) (remaining : ℚ) : List BuyLot → List MatchedTrade × List BuyLot
  | [] => ([], [])
  | lot :: lots =>
      if lot.coin ≠ sell.coin ∨ remaining ≤ 0 then
        let rest := matchLots sell remaining lots
        (rest.1, lot :: rest.2)
      else
        let cut := matchLot sell remaining lot
        let rest := matchLots sell (remaining - cut.1.qty) lots
        (cut.1 :: rest.1, if tolerance < cut.2.qty then cut.2 :: rest.2 else rest.2)

def matchSell (l : FifoTaxLedger) (sell : TaxFill) :
    Except Refused (List MatchedTrade × FifoTaxLedger) :=
  if heldOf sell.coin l.activeLots < sell.qty then
    .error (.inventory sell.coin sell.qty (heldOf sell.coin l.activeLots))
  else
    let (trades, lots) := matchLots sell sell.qty l.activeLots
    .ok (trades, { l with activeLots := lots })

section AddFill

-- `str.upper`, of which nothing is used.
variable (upper : String → String)

def buyLot (f : TaxFill) : BuyLot :=
  { coin := upper f.coin, qty := f.qty, price := f.price, ts := f.ts, fee := f.fee
    fillId := f.fillId }

/-- The matches that `add_fill` returns, and the ledger after it. -/
def addFill (l : FifoTaxLedger) (f : TaxFill) :
    Except Refused (List MatchedTrade × FifoTaxLedger) :=
  let side := upper f.side
  if f.qty ≤ 0 then .error (.quantity f.qty)
  else if f.price ≤ 0 then .error (.price f.price)
  else if f.fee < 0 then .error (.fee f.fee)
  else if side = "BUY" then
    .ok ([], { l with activeLots := l.activeLots ++ [buyLot upper f] })
  else if side = "SELL" then do
    let (trades, l) ← matchSell l { f with coin := upper f.coin }
    return (trades, { l with matchedTrades := l.matchedTrades ++ trades })
  else .error (.side side)

/-- The accepted fills with the matches they returned, and the ledger. -/
structure History where
  accepted : List (TaxFill × List MatchedTrade) := []
  ledger : FifoTaxLedger := {}

/-- A fill that is refused raises before anything is changed. -/
def History.add (h : History) (f : TaxFill) : History :=
  match addFill upper h.ledger f with
  | .ok (trades, l) => { accepted := h.accepted ++ [(f, trades)], ledger := l }
  | .error _ => h

/-- What becomes of a new ledger by these calls of `add_fill`. -/
def History.of (fs : List TaxFill) : History := fs.foldl (History.add upper) {}

end AddFill

/-! ## Sums over lots and trades -/

/-- What was matched of a coin. -/
def matchedOf (coin : String) (trades : List MatchedTrade) : ℚ :=
  ((trades.filter (·.coin = coin)).map (·.qty)).sum

variable {coin : String} {lot : BuyLot} {lots : List BuyLot}

@[simp] theorem ofCoin_nil : ofCoin coin [] = [] := rfl

theorem ofCoin_cons : ofCoin coin (lot :: lots) =
    if lot.coin = coin then lot :: ofCoin coin lots else ofCoin coin lots := by
  simp [ofCoin, List.filter_cons]

@[simp] theorem ofCoin_append {lots' : List BuyLot} :
    ofCoin coin (lots ++ lots') = ofCoin coin lots ++ ofCoin coin lots' :=
  List.filter_append ..

@[simp] theorem heldOf_nil : heldOf coin [] = 0 := rfl

@[simp] theorem heldOf_cons : heldOf coin (lot :: lots) =
    (if lot.coin = coin then lot.qty else 0) + heldOf coin lots := by
  rw [heldOf, ofCoin_cons]
  split
  · rfl
  · rw [zero_add, heldOf]

@[simp] theorem heldOf_append {lots' : List BuyLot} :
    heldOf coin (lots ++ lots') = heldOf coin lots + heldOf coin lots' := by
  simp [heldOf]

@[simp] theorem matchedOf_nil : matchedOf coin [] = 0 := rfl

@[simp] theorem matchedOf_cons {m : MatchedTrade} {trades : List MatchedTrade} :
    matchedOf coin (m :: trades) =
      (if m.coin = coin then m.qty else 0) + matchedOf coin trades := by
  unfold matchedOf
  by_cases h : m.coin = coin <;> simp [h]

@[simp] theorem matchedOf_append {trades trades' : List MatchedTrade} :
    matchedOf coin (trades ++ trades') = matchedOf coin trades + matchedOf coin trades' := by
  simp [matchedOf]

/-! ## One match -/

/-- What every match of a sell has from it. -/
structure OfSell (sell : TaxFill) (m : MatchedTrade) : Prop where
  coin : m.coin = sell.coin
  sellPrice : m.sellPrice = sell.price
  sellFee : m.sellFee = sell.fee * (m.qty / sell.qty)
  pnl : m.realizedPnl =
    m.qty * sell.price - m.qty * m.buyPrice - m.buyFee - sell.fee * (m.qty / sell.qty)

/-- A lot as a buy opened it, or what is left of it, at the fee per unit of the buy. -/
structure RemainsOf (lot buy : BuyLot) : Prop where
  coin : lot.coin = buy.coin
  price : lot.price = buy.price
  ts : lot.ts = buy.ts
  fillId : lot.fillId = buy.fillId
  qty_pos : 0 < lot.qty
  qty_le : lot.qty ≤ buy.qty
  ratio : lot.fee / lot.qty = buy.fee / buy.qty

/-- A match that took part of a buy, at the fee per unit of the buy. -/
structure CutFrom (m : MatchedTrade) (buy : BuyLot) : Prop where
  coin : m.coin = buy.coin
  buyPrice : m.buyPrice = buy.price
  buyTs : m.buyTs = buy.ts
  buyId : m.buyId = buy.fillId
  qty_pos : 0 < m.qty
  qty_le : m.qty ≤ buy.qty
  ratio : m.buyFee / m.qty = buy.fee / buy.qty

variable {sell : TaxFill} {remaining : ℚ} {buy : BuyLot}

theorem matchLot_ofSell (hsell : 0 < sell.qty) : OfSell sell (matchLot sell remaining lot).1 where
  coin := rfl
  sellPrice := rfl
  sellFee := if_pos hsell
  pnl := by
    simp only [matchLot, if_pos hsell]

theorem matchLot_qty : (matchLot sell remaining lot).1.qty = min remaining lot.qty := rfl

theorem matchLot_left : (matchLot sell remaining lot).2.qty =
    lot.qty - (matchLot sell remaining lot).1.qty := rfl

theorem matchLot_buyFee (hlot : 0 < lot.qty) : (matchLot sell remaining lot).1.buyFee =
    lot.fee * ((matchLot sell remaining lot).1.qty / lot.qty) :=
  if_pos hlot

theorem matchLot_cutFrom (hcoin : lot.coin = sell.coin) (hrem : 0 < remaining)
    (h : RemainsOf lot buy) : CutFrom (matchLot sell remaining lot).1 buy where
  coin := hcoin.symm.trans h.coin
  buyPrice := h.price
  buyTs := h.ts
  buyId := h.fillId
  qty_pos := lt_min hrem h.qty_pos
  qty_le := (min_le_right ..).trans h.qty_le
  ratio := by
    have hqty : 0 < (matchLot sell remaining lot).1.qty := lt_min hrem h.qty_pos
    have hlot : 0 < lot.qty := h.qty_pos
    rw [matchLot_buyFee h.qty_pos, ← h.ratio]
    field_simp

/-- What a match leaves of a lot has the fee ratio that the lot had. -/
theorem matchLot_remainsOf (hrem : 0 < remaining) (h : RemainsOf lot buy)
    (hleft : 0 < (matchLot sell remaining lot).2.qty) :
    RemainsOf (matchLot sell remaining lot).2 buy where
  coin := h.coin
  price := h.price
  ts := h.ts
  fillId := h.fillId
  qty_pos := hleft
  qty_le := by
    have hqty : 0 < (matchLot sell remaining lot).1.qty := lt_min hrem h.qty_pos
    have hle := h.qty_le
    rw [matchLot_left]
    linarith
  ratio := by
    have hlot : 0 < lot.qty := h.qty_pos
    have hfee : (matchLot sell remaining lot).2.fee =
        lot.fee - lot.fee * ((matchLot sell remaining lot).1.qty / lot.qty) := by
      rw [← matchLot_buyFee h.qty_pos]
      rfl
    rw [matchLot_left] at hleft ⊢
    rw [hfee, ← h.ratio]
    field_simp

/-! ## The loop -/

/-- The loop passes a lot of another coin by, and all lots once nothing is left to sell. -/
theorem matchLots_skip (h : lot.coin ≠ sell.coin ∨ remaining ≤ 0) :
    matchLots sell remaining (lot :: lots) =
      ((matchLots sell remaining lots).1, lot :: (matchLots sell remaining lots).2) :=
  if_pos h

theorem matchLots_cut (hcoin : lot.coin = sell.coin) (hrem : 0 < remaining) :
    matchLots sell remaining (lot :: lots) =
      let cut := matchLot sell remaining lot
      let rest := matchLots sell (remaining - cut.1.qty) lots
      (cut.1 :: rest.1, if tolerance < cut.2.qty then cut.2 :: rest.2 else rest.2) := by
  have hnot : ¬ (lot.coin ≠ sell.coin ∨ remaining ≤ 0) := by
    rintro (h | h)
    · exact h hcoin
    · exact absurd hrem (not_lt.mpr h)
  exact if_neg hnot

/-- Induction along the loop: a lot is passed by, or it is cut. -/
theorem loop_induct {P : ℚ → List BuyLot → Prop} (sell : TaxFill) (nil : ∀ r, P r [])
    (skip : ∀ r lot lots, lot.coin ≠ sell.coin ∨ r ≤ 0 → P r lots → P r (lot :: lots))
    (cut : ∀ r lot lots, lot.coin = sell.coin → 0 < r →
      P (r - (matchLot sell r lot).1.qty) lots → P r (lot :: lots))
    (r : ℚ) (lots : List BuyLot) : P r lots := by
  induction lots generalizing r with
  | nil => exact nil r
  | cons lot lots ih =>
      by_cases h : lot.coin ≠ sell.coin ∨ r ≤ 0
      · exact skip r lot lots h (ih r)
      · obtain ⟨hcoin, hr⟩ := not_or.mp h
        exact cut r lot lots (not_not.mp hcoin) (not_le.mp hr) (ih _)

theorem matchLots_ofSell (hsell : 0 < sell.qty) (remaining : ℚ) (lots : List BuyLot) :
    ∀ m ∈ (matchLots sell remaining lots).1, OfSell sell m := by
  induction remaining, lots using loop_induct sell with
  | nil r => simp [matchLots]
  | skip r lot lots h ih =>
      rw [matchLots_skip h]
      exact ih
  | cut r lot lots hcoin hr ih =>
      rw [matchLots_cut hcoin hr]
      intro m hm
      rcases List.mem_cons.mp hm with rfl | hm
      · exact matchLot_ofSell hsell
      · exact ih m hm

theorem heldOf_nonneg (hpos : ∀ lot ∈ lots, 0 < lot.qty) : 0 ≤ heldOf coin lots := by
  refine List.sum_nonneg ?_
  intro q hq
  obtain ⟨lot, hlot, rfl⟩ := List.mem_map.mp hq
  exact (hpos lot (List.mem_of_mem_filter hlot)).le

/-- With enough in the lots of the coin, the matches take exactly what there is to sell. -/
theorem matchLots_qty (hpos : ∀ lot ∈ lots, 0 < lot.qty) (hrem : 0 ≤ remaining)
    (hheld : remaining ≤ heldOf sell.coin lots) :
    ((matchLots sell remaining lots).1.map (·.qty)).sum = remaining := by
  induction remaining, lots using loop_induct sell with
  | nil r =>
      rw [heldOf_nil] at hheld
      exact le_antisymm hrem hheld
  | skip r lot lots h ih =>
      have hpos' := fun l hl => hpos l (List.mem_cons_of_mem lot hl)
      rw [matchLots_skip h]
      rcases h with h | h
      · rw [heldOf_cons, if_neg h, zero_add] at hheld
        exact ih hpos' hrem hheld
      · exact ih hpos' hrem (h.trans (heldOf_nonneg hpos'))
  | cut r lot lots hcoin hr ih =>
      have hpos' := fun l hl => hpos l (List.mem_cons_of_mem lot hl)
      rw [heldOf_cons, if_pos hcoin] at hheld
      have hrest : 0 ≤ r - (matchLot sell r lot).1.qty ∧
          r - (matchLot sell r lot).1.qty ≤ heldOf sell.coin lots := by
        rw [matchLot_qty]
        rcases min_cases r lot.qty with ⟨h, _⟩ | ⟨h, hlt⟩
        · rw [h, sub_self]
          exact ⟨le_rfl, heldOf_nonneg hpos'⟩
        · rw [h]
          constructor <;> linarith
      have hsum := ih hpos' hrest.1 hrest.2
      rw [matchLots_cut hcoin hr]
      simp only [List.map_cons, List.sum_cons, hsum]
      ring

/-- A sell whose matches add up to it: the quantity, the fee, and the P&L. -/
structure SoldInFull (sell : TaxFill) (trades : List MatchedTrade) : Prop where
  qty : (trades.map (·.qty)).sum = sell.qty
  fee : (trades.map (·.sellFee)).sum = sell.fee
  pnl : (trades.map (·.realizedPnl)).sum = sell.qty * sell.price -
    (trades.map fun m => m.qty * m.buyPrice).sum - (trades.map (·.buyFee)).sum - sell.fee
  each : ∀ m ∈ trades, OfSell sell m

/-- The sell fees and the P&L of matches follow from the quantity that they took. -/
theorem sums_of_ofSell {trades : List MatchedTrade} (htrades : ∀ m ∈ trades, OfSell sell m) :
    (trades.map (·.sellFee)).sum = sell.fee * ((trades.map (·.qty)).sum / sell.qty) ∧
    (trades.map (·.realizedPnl)).sum = (trades.map (·.qty)).sum * sell.price -
      (trades.map fun m => m.qty * m.buyPrice).sum - (trades.map (·.buyFee)).sum -
      sell.fee * ((trades.map (·.qty)).sum / sell.qty) := by
  induction trades with
  | nil => simp
  | cons m trades ih =>
      have hm := htrades m List.mem_cons_self
      obtain ⟨hfee, hpnl⟩ := ih fun n hn => htrades n (List.mem_cons_of_mem m hn)
      simp only [List.map_cons, List.sum_cons, hfee, hpnl, hm.sellFee, hm.pnl]
      constructor <;> ring

theorem matchLots_soldInFull (sell : TaxFill) (hpos : ∀ lot ∈ lots, 0 < lot.qty)
    (hqty : 0 < sell.qty) (hheld : sell.qty ≤ heldOf sell.coin lots) :
    SoldInFull sell (matchLots sell sell.qty lots).1 := by
  have hof := matchLots_ofSell hqty sell.qty lots
  have hsum := matchLots_qty hpos hqty.le hheld
  obtain ⟨hfee, hpnl⟩ := sums_of_ofSell hof
  rw [hsum, div_self hqty.ne', mul_one] at hfee hpnl
  exact ⟨hsum, hfee, hpnl, hof⟩

/-- The lots of a coin, counted. -/
def countOf (coin : String) (lots : List BuyLot) : ℕ := (ofCoin coin lots).length

/-- What neither the matches nor the lots account for. -/
def dust (coin : String) (bought : ℚ) (trades : List MatchedTrade) (lots : List BuyLot) : ℚ :=
  bought - matchedOf coin trades - heldOf coin lots

theorem countOf_cons : (countOf coin (lot :: lots) : ℚ) =
    (if lot.coin = coin then 1 else 0) + countOf coin lots := by
  rw [countOf, ofCoin_cons]
  split
  · rw [List.length_cons, Nat.cast_add, Nat.cast_one, add_comm]
    rfl
  · rw [zero_add, countOf]

/-- A sell writes off at most the tolerance for each lot that it retires. -/
theorem matchLots_dust (coin : String) (sell : TaxFill) (remaining : ℚ)
    (hpos : ∀ lot ∈ lots, 0 < lot.qty) :
    0 ≤ dust coin (heldOf coin lots) (matchLots sell remaining lots).1
      (matchLots sell remaining lots).2 ∧
    dust coin (heldOf coin lots) (matchLots sell remaining lots).1
      (matchLots sell remaining lots).2 ≤
      tolerance * (countOf coin lots - countOf coin (matchLots sell remaining lots).2) := by
  induction remaining, lots using loop_induct sell with
  | nil r => simp [matchLots, dust]
  | skip r lot lots h ih =>
      have hih := ih fun l hl => hpos l (List.mem_cons_of_mem lot hl)
      rw [matchLots_skip h]
      simp only [dust, heldOf_cons, countOf_cons] at hih ⊢
      constructor <;> linarith [hih.1, hih.2]
  | cut r lot lots hcoin hr ih =>
      have hih := ih fun l hl => hpos l (List.mem_cons_of_mem lot hl)
      have hleft : 0 ≤ (matchLot sell r lot).2.qty := by
        rw [matchLot_left, matchLot_qty]
        exact sub_nonneg.mpr (min_le_right ..)
      have hqty : lot.qty = (matchLot sell r lot).1.qty + (matchLot sell r lot).2.qty := by
        rw [matchLot_left]
        ring
      have hm : (matchLot sell r lot).1.coin = lot.coin := hcoin.symm
      have hl : (matchLot sell r lot).2.coin = lot.coin := rfl
      rw [matchLots_cut hcoin hr]
      simp only [dust] at hih ⊢
      split
      · -- the lot stays, with what it has left
        simp only [heldOf_cons, matchedOf_cons, countOf_cons, hm, hl]
        split <;> constructor <;> linarith [hih.1, hih.2]
      · -- the lot is retired
        rename_i hdrop
        simp only [heldOf_cons, matchedOf_cons, countOf_cons, hm]
        split <;> constructor <;> linarith [hih.1, hih.2]

/-- After a sell the lots are still what remains of the buys, in their order; and every match
is cut from one of the buys. -/
theorem matchLots_remains (sell : TaxFill) (remaining : ℚ) {buys : List BuyLot}
    (h : List.Forall₂ RemainsOf lots buys) :
    (∃ kept, kept.Sublist buys ∧
      List.Forall₂ RemainsOf (matchLots sell remaining lots).2 kept) ∧
    ∀ m ∈ (matchLots sell remaining lots).1, ∃ buy ∈ buys, CutFrom m buy := by
  induction remaining, lots using loop_induct sell generalizing buys with
  | nil r =>
      cases h
      exact ⟨⟨[], .slnil, .nil⟩, by simp [matchLots]⟩
  | skip r lot lots hskip ih =>
      cases h with
      | cons hlot hlots =>
          obtain ⟨⟨kept, hsub, hkept⟩, hcut⟩ := ih hlots
          rw [matchLots_skip hskip]
          refine ⟨⟨_, hsub.cons_cons _, .cons hlot hkept⟩, ?_⟩
          intro m hm
          obtain ⟨buy, hbuy, hm⟩ := hcut m hm
          exact ⟨buy, List.mem_cons_of_mem _ hbuy, hm⟩
  | cut r lot lots hcoin hr ih =>
      cases h with
      | cons hlot hlots =>
          obtain ⟨⟨kept, hsub, hkept⟩, hcut⟩ := ih hlots
          rw [matchLots_cut hcoin hr]
          refine ⟨?_, ?_⟩
          · simp only
            split
            · rename_i hleft
              have hpos : 0 < (matchLot sell r lot).2.qty := by
                refine lt_trans ?_ hleft
                norm_num [tolerance]
              exact ⟨_, hsub.cons_cons _, .cons (matchLot_remainsOf hr hlot hpos) hkept⟩
            · exact ⟨kept, hsub.cons _, hkept⟩
          · intro m hm
            rcases List.mem_cons.mp hm with rfl | hm
            · exact ⟨_, List.mem_cons_self, matchLot_cutFrom hcoin hr hlot⟩
            · obtain ⟨buy, hbuy, hm⟩ := hcut m hm
              exact ⟨buy, List.mem_cons_of_mem _ hbuy, hm⟩

/-! ## Conservation -/

variable (upper : String → String)

/-- The accepted buys, as the lots they opened. -/
def History.buys (h : History) : List BuyLot :=
  (h.accepted.filter fun p => upper p.1.side = "BUY").map fun p => buyLot upper p.1

def History.sells (h : History) : List TaxFill :=
  (h.accepted.filter fun p => upper p.1.side = "SELL").map (·.1)

/-- The sell as the loop sees it. -/
def sellFill (f : TaxFill) : TaxFill := { f with coin := upper f.coin }

/-- The lots retired of a coin are the buys that are no longer active. -/
structure Conserved (h : History) : Prop where
  booked : h.ledger.matchedTrades = h.accepted.flatMap (·.2)
  sold : ∀ p ∈ h.accepted, upper p.1.side = "SELL" → SoldInFull (sellFill upper p.1) p.2
  dust_bounds : ∀ coin,
    0 ≤ dust coin (heldOf coin (h.buys upper)) h.ledger.matchedTrades h.ledger.activeLots ∧
    dust coin (heldOf coin (h.buys upper)) h.ledger.matchedTrades h.ledger.activeLots ≤
      tolerance * (countOf coin (h.buys upper) - countOf coin h.ledger.activeLots)
  lots : ∃ kept, kept.Sublist (h.buys upper) ∧
    List.Forall₂ RemainsOf h.ledger.activeLots kept
  matched : ∀ m ∈ h.ledger.matchedTrades, ∃ buy ∈ h.buys upper, CutFrom m buy
  pnl : (h.ledger.matchedTrades.map (·.realizedPnl)).sum =
    ((h.sells upper).map fun s => s.qty * s.price).sum -
      (h.ledger.matchedTrades.map fun m => m.qty * m.buyPrice).sum -
      (h.ledger.matchedTrades.map (·.buyFee)).sum - ((h.sells upper).map (·.fee)).sum

variable {upper} {h : History} {f : TaxFill} {l : FifoTaxLedger} {trades : List MatchedTrade}

/-- What an accepted fill is, and what it makes of the ledger. -/
theorem addFill_ok (hadd : addFill upper h.ledger f = .ok (trades, l)) : 0 < f.qty ∧
    ((upper f.side = "BUY" ∧ trades = [] ∧
        l = { h.ledger with activeLots := h.ledger.activeLots ++ [buyLot upper f] }) ∨
      (upper f.side = "SELL" ∧ f.qty ≤ heldOf (upper f.coin) h.ledger.activeLots ∧
        trades = (matchLots (sellFill upper f) f.qty h.ledger.activeLots).1 ∧
        l = { activeLots := (matchLots (sellFill upper f) f.qty h.ledger.activeLots).2
              matchedTrades := h.ledger.matchedTrades ++ trades })) := by
  simp only [addFill] at hadd
  split at hadd
  · cases hadd
  rename_i hqty
  split at hadd
  · cases hadd
  split at hadd
  · cases hadd
  refine ⟨not_le.mp hqty, ?_⟩
  split at hadd
  · rename_i hside
    cases hadd
    exact .inl ⟨hside, rfl, rfl⟩
  split at hadd
  · rename_i hside
    by_cases hheld : heldOf (upper f.coin) h.ledger.activeLots < f.qty
    · simp only [matchSell, if_pos hheld] at hadd
      cases hadd
    · simp only [matchSell, if_neg hheld] at hadd
      cases hadd
      exact .inr ⟨hside, not_lt.mp hheld, rfl, rfl⟩
  · cases hadd

theorem buys_append : History.buys upper { accepted := h.accepted ++ [(f, trades)], ledger := l } =
    h.buys upper ++ if upper f.side = "BUY" then [buyLot upper f] else [] := by
  simp only [History.buys, List.filter_append, List.map_append]
  split <;> simp [*]

theorem sells_append :
    History.sells upper { accepted := h.accepted ++ [(f, trades)], ledger := l } =
      h.sells upper ++ if upper f.side = "SELL" then [f] else [] := by
  simp only [History.sells, List.filter_append, List.map_append]
  split <;> simp [*]

namespace Conserved

theorem qty_pos (hc : Conserved upper h) : ∀ lot ∈ h.ledger.activeLots, 0 < lot.qty := by
  obtain ⟨kept, _, hkept⟩ := hc.lots
  have hboth := hkept.imp fun lot buy hlot => And.intro hlot.qty_pos hlot
  exact ((List.forall₂_and_left _ _).mp hboth).1

theorem empty : Conserved upper {} where
  booked := rfl
  sold := by simp
  dust_bounds := by simp [History.buys, dust, countOf]
  lots := ⟨[], .slnil, .nil⟩
  matched := by simp
  pnl := by simp [History.sells]

/-- A buy opens a lot, which is all that remains of it and all there is of it. -/
theorem of_buy (hc : Conserved upper h) (hside : upper f.side = "BUY") (hqty : 0 < f.qty) :
    Conserved upper {
      accepted := h.accepted ++ [(f, [])]
      ledger := { h.ledger with activeLots := h.ledger.activeLots ++ [buyLot upper f] } } where
  booked := by simpa using hc.booked
  sold := by
    intro p hp hsell
    rcases List.mem_append.mp hp with hp | hp
    · exact hc.sold p hp hsell
    · obtain rfl := List.mem_singleton.mp hp
      exact absurd (hside.symm.trans hsell) (by decide)
  dust_bounds := by
    intro coin
    have hd := hc.dust_bounds coin
    rw [buys_append, if_pos hside]
    simp only [dust, heldOf_append, countOf, ofCoin_append, List.length_append,
      Nat.cast_add] at hd ⊢
    constructor <;> linarith [hd.1, hd.2]
  lots := by
    obtain ⟨kept, hsub, hkept⟩ := hc.lots
    have hnew : RemainsOf (buyLot upper f) (buyLot upper f) :=
      ⟨rfl, rfl, rfl, rfl, hqty, le_rfl, rfl⟩
    refine ⟨kept ++ [buyLot upper f], ?_, List.rel_append hkept (.cons hnew .nil)⟩
    rw [buys_append, if_pos hside]
    exact hsub.append_right _
  matched := by
    intro m hm
    obtain ⟨buy, hbuy, hcut⟩ := hc.matched m hm
    refine ⟨buy, ?_, hcut⟩
    rw [buys_append]
    exact List.mem_append_left _ hbuy
  pnl := by
    have hnot : upper f.side ≠ "SELL" := fun h => absurd (hside.symm.trans h) (by decide)
    rw [sells_append, if_neg hnot, List.append_nil]
    exact hc.pnl

/-- A sell is matched in full, from the lots it finds. -/
theorem of_sell (hc : Conserved upper h) (hside : upper f.side = "SELL") (hqty : 0 < f.qty)
    (hheld : f.qty ≤ heldOf (upper f.coin) h.ledger.activeLots) {trades : List MatchedTrade}
    (htrades : trades = (matchLots (sellFill upper f) f.qty h.ledger.activeLots).1) :
    Conserved upper {
      accepted := h.accepted ++ [(f, trades)]
      ledger := {
        activeLots := (matchLots (sellFill upper f) f.qty h.ledger.activeLots).2
        matchedTrades := h.ledger.matchedTrades ++ trades } } := by
  have hnot : upper f.side ≠ "BUY" := fun h => absurd (hside.symm.trans h) (by decide)
  have hsold : SoldInFull (sellFill upper f) trades := by
    rw [htrades]
    exact matchLots_soldInFull (sellFill upper f) hc.qty_pos hqty hheld
  obtain ⟨kept, hsub, hkept⟩ := hc.lots
  obtain ⟨⟨kept', hsub', hkept'⟩, hcut⟩ :=
    matchLots_remains (sellFill upper f) f.qty hkept
  rw [← htrades] at hcut
  constructor
  case booked =>
    rw [hc.booked]
    simp
  case sold =>
    intro p hp hsell
    rcases List.mem_append.mp hp with hp | hp
    · exact hc.sold p hp hsell
    · obtain rfl := List.mem_singleton.mp hp
      exact hsold
  case dust_bounds =>
    intro coin
    have hd := hc.dust_bounds coin
    have hloop := matchLots_dust coin (sellFill upper f) f.qty hc.qty_pos
    rw [buys_append, if_neg hnot, List.append_nil]
    rw [← htrades] at hloop
    simp only [dust, matchedOf_append] at hd hloop ⊢
    constructor <;> linarith [hd.1, hd.2, hloop.1, hloop.2]
  case lots =>
    rw [buys_append, if_neg hnot, List.append_nil]
    exact ⟨kept', hsub'.trans hsub, hkept'⟩
  case matched =>
    intro m hm
    rw [buys_append, if_neg hnot, List.append_nil]
    rcases List.mem_append.mp hm with hm | hm
    · exact hc.matched m hm
    · obtain ⟨buy, hbuy, hm⟩ := hcut m hm
      exact ⟨buy, hsub.subset hbuy, hm⟩
  case pnl =>
    have hpnl := hsold.pnl
    rw [sells_append, if_pos hside]
    simp only [List.map_append, List.sum_append, List.map_singleton, List.sum_singleton]
    rw [hc.pnl, hpnl]
    simp only [sellFill]
    ring

/-- One call of `add_fill`, accepted or not. -/
theorem add (hc : Conserved upper h) (f : TaxFill) : Conserved upper (h.add upper f) := by
  rw [History.add]
  split
  · rename_i trades l hadd
    obtain ⟨hqty, ⟨hside, rfl, rfl⟩ | ⟨hside, hheld, htrades, rfl⟩⟩ := addFill_ok hadd
    · exact hc.of_buy hside hqty
    · exact hc.of_sell hside hqty hheld htrades
  · exact hc

end Conserved

/-- Whatever fills a new ledger is given, of the ones it accepts nothing is lost. -/
theorem fills_conserved (fs : List TaxFill) : Conserved upper (History.of upper fs) :=
  List.foldlRecOn fs (History.add upper) Conserved.empty fun _ hc f _ => hc.add f

end TreasuryForge.Tax
