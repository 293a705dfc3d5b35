/-
# `Risk.TaxOrder` — first in, first out

Every lot that was ever opened, in the order of the buys, with what is left of it and whether it
is still active: `bookOf` follows the objects that `_match_sell` changes in place, the ones it
drops included.  Its active lots are those of the ledger (`bookOf_tracks`).  `sell_fifo` says
which of them a sale may touch.
-/
import TreasuryForge.Base.Loop
import TreasuryForge.Risk.Tax
import Mathlib.Data.List.Induction

namespace TreasuryForge.Tax

/-- A lot as it was opened and as it is now. -/
structure Entry where
  bought : BuyLot
  lot : BuyLot
  active : Bool

/-- The active lots of the book. -/
def activeOf (book : List Entry) : List BuyLot := (book.filter (·.active)).map (·.lot)

/-- A sale over the whole book: the loop of `_match_sell`, which sees the active lots only. -/
def sweep (sell : TaxFill) (remaining : ℚ) : List Entry → List Entry
  | [] => []
  | e :: book =>
      if e.active = false ∨ e.lot.coin ≠ sell.coin ∨ remaining ≤ 0 then
        e :: sweep sell remaining book
      else
        let cut := matchLot sell remaining e.lot
        ⟨e.bought, cut.2, decide (tolerance < cut.2.qty)⟩ ::
          sweep sell (remaining - cut.1.qty) book

section Book

variable (upper : String → String)

/-- The book after a call of `add_fill`. -/
def Entry.add (h : History) (book : List Entry) (f : TaxFill) : List Entry :=
  match addFill upper h.ledger f with
  | .error _ => book
  | .ok _ =>
      if upper f.side = "BUY" then book ++ [⟨buyLot upper f, buyLot upper f, true⟩]
      else sweep (sellFill upper f) f.qty book

/-- The book of these calls, beside what becomes of the ledger. -/
def recorded (fs : List TaxFill) : History × List Entry :=
  fs.foldl (fun s f => (s.1.add upper f, Entry.add upper s.1 s.2 f)) ({}, [])

def bookOf (fs : List TaxFill) : List Entry := (recorded upper fs).2

end Book

/-! ## One sale -/

variable {sell : TaxFill} {remaining : ℚ} {book : List Entry} {e : Entry}

/-- What the sale took from an entry. -/
def Consumed (p : Entry × Entry) : Prop := p.2.lot.qty < p.1.lot.qty

/-- Something was taken and something is left. -/
def Partly (p : Entry × Entry) : Prop := Consumed p ∧ 0 < p.2.lot.qty

theorem sweep_skip (h : e.active = false ∨ e.lot.coin ≠ sell.coin ∨ remaining ≤ 0) :
    sweep sell remaining (e :: book) = e :: sweep sell remaining book := if_pos h

theorem sweep_cut (hactive : e.active = true) (hcoin : e.lot.coin = sell.coin)
    (hrem : 0 < remaining) : sweep sell remaining (e :: book) =
      ⟨e.bought, (matchLot sell remaining e.lot).2,
          decide (tolerance < (matchLot sell remaining e.lot).2.qty)⟩ ::
        sweep sell (remaining - (matchLot sell remaining e.lot).1.qty) book := by
  refine if_neg ?_
  rintro (h | h | h)
  · rw [hactive] at h
    cases h
  · exact h hcoin
  · exact absurd hrem (not_lt.mpr h)

/-- Induction along the sale: an entry is passed by, or it is cut. -/
theorem sweep_induct {P : ℚ → List Entry → Prop} (sell : TaxFill) (nil : ∀ r, P r [])
    (skip : ∀ r e book, e.active = false ∨ e.lot.coin ≠ sell.coin ∨ r ≤ 0 → P r book →
      P r (e :: book))
    (cut : ∀ r e book, e.active = true → e.lot.coin = sell.coin → 0 < r →
      P (r - (matchLot sell r e.lot).1.qty) book → P r (e :: book))
    (r : ℚ) (book : List Entry) : P r book := by
  induction book generalizing r with
  | nil => exact nil r
  | cons e book ih =>
      by_cases h : e.active = false ∨ e.lot.coin ≠ sell.coin ∨ r ≤ 0
      · exact skip r e book h (ih r)
      · obtain ⟨hactive, hrest⟩ := not_or.mp h
        obtain ⟨hcoin, hr⟩ := not_or.mp hrest
        exact cut r e book (eq_true_of_ne_false hactive) (not_not.mp hcoin) (not_le.mp hr) (ih _)

/-- The loop over the active lots is the sale over the book. -/
theorem activeOf_sweep (sell : TaxFill) (remaining : ℚ) (book : List Entry) :
    activeOf (sweep sell remaining book) = (matchLots sell remaining (activeOf book)).2 := by
  induction remaining, book using sweep_induct sell with
  | nil r => rfl
  | skip r e book h ih =>
      rw [sweep_skip h]
      cases hactive : e.active with
      | false => simpa [activeOf, hactive] using ih
      | true =>
          have hskip : e.lot.coin ≠ sell.coin ∨ r ≤ 0 :=
            h.resolve_left (by rw [hactive]; exact Bool.noConfusion)
          have hcons : ∀ es, activeOf (e :: es) = e.lot :: activeOf es := by
            intro es
            simp [activeOf, hactive]
          rw [hcons, hcons, matchLots_skip hskip, ih]
  | cut r e book hactive hcoin hr ih =>
      have hcons : activeOf (e :: book) = e.lot :: activeOf book := by simp [activeOf, hactive]
      rw [sweep_cut hactive hcoin hr, hcons, matchLots_cut hcoin hr]
      dsimp only
      rw [← ih]
      by_cases hleft : tolerance < (matchLot sell r e.lot).2.qty
      · simp [activeOf, hleft]
      · simp [activeOf, hleft]

/-- Each entry keeps what it was bought as, and all of it unless it is of the coin. -/
theorem sweep_rows (sell : TaxFill) (remaining : ℚ) (book : List Entry) :
    List.Forall₂ (fun e e' => e'.bought = e.bought ∧ e'.lot.coin = e.lot.coin ∧
      (e.active = false ∨ e.lot.coin ≠ sell.coin → e' = e)) book (sweep sell remaining book) := by
  induction remaining, book using sweep_induct sell with
  | nil r => exact .nil
  | skip r e book h ih =>
      rw [sweep_skip h]
      exact .cons ⟨rfl, rfl, fun _ => rfl⟩ ih
  | cut r e book hactive hcoin hr ih =>
      rw [sweep_cut hactive hcoin hr]
      refine .cons ⟨rfl, rfl, ?_⟩ ih
      rintro (h | h)
      · rw [hactive] at h
        cases h
      · exact absurd hcoin h

/-- With nothing left to sell nothing is touched. -/
theorem sweep_done (hrem : remaining ≤ 0) (book : List Entry) :
    sweep sell remaining book = book := by
  induction book with
  | nil => rfl
  | cons e book ih => rw [sweep_skip (Or.inr (Or.inr hrem)), ih]

theorem not_consumed_self {p : Entry × Entry} {es : List Entry} (hp : p ∈ es.zip es) :
    ¬ Consumed p := by
  induction es with
  | nil => cases hp
  | cons e es ih =>
      rcases List.mem_cons.mp hp with rfl | hp
      · exact lt_irrefl _
      · exact ih hp

/-- The lots that no sale can leave: the active ones, and the dust of the others. -/
def Retired (book : List Entry) : Prop := ∀ e ∈ book, e.active = false → e.lot.qty ≤ tolerance

/-- First in, first out: what is taken is taken after all there was in the earlier lots of the
coin, and only the last lot touched may have something left. -/
structure SoldFifo (coin : String) (before after : List Entry) : Prop where
  bought : after.map (·.bought) = before.map (·.bought)
  first : (before.zip after).Pairwise fun p q =>
    p.1.lot.coin = coin → Consumed q → p.2.lot.qty ≤ tolerance
  last : (before.zip after).Pairwise fun p q => ¬ (Partly p ∧ Partly q)
  frame : ∀ p ∈ before.zip after, p.1.lot.coin ≠ coin → p.2 = p.1

/-- A cut takes the whole lot, or leaves nothing to sell. -/
theorem cut_all_or_done (sell : TaxFill) (r : ℚ) (lot : BuyLot) :
    (matchLot sell r lot).2.qty = 0 ∨ r - (matchLot sell r lot).1.qty ≤ 0 := by
  rw [matchLot_left, matchLot_qty]
  rcases min_cases r lot.qty with ⟨hmin, -⟩ | ⟨hmin, -⟩
  · exact Or.inr (by rw [hmin, sub_self])
  · exact Or.inl (by rw [hmin, sub_self])

/-- After a lot from which something is left nothing more is taken. -/
theorem sweep_after {p : Entry × Entry} {r : ℚ} {lot : BuyLot}
    (hp : p ∈ book.zip (sweep sell (r - (matchLot sell r lot).1.qty) book)) (hc : Consumed p) :
    (matchLot sell r lot).2.qty = 0 := by
  rcases cut_all_or_done sell r lot with hzero | hdone
  · exact hzero
  · rw [sweep_done hdone] at hp
    exact absurd hc (not_consumed_self hp)

theorem sweep_frame {p : Entry × Entry} (hp : p ∈ book.zip (sweep sell remaining book))
    (hskip : p.1.active = false ∨ p.1.lot.coin ≠ sell.coin) : p.2 = p.1 := by
  obtain ⟨-, hrows⟩ := List.forall₂_iff_zip.mp (sweep_rows sell remaining book)
  exact (hrows hp).2.2 hskip

theorem sweep_first (hretired : Retired book) :
    (book.zip (sweep sell remaining book)).Pairwise fun p q =>
      p.1.lot.coin = sell.coin → Consumed q → p.2.lot.qty ≤ tolerance := by
  induction remaining, book using sweep_induct sell with
  | nil r => exact .nil
  | skip r e book h ih =>
      have hrest : Retired book := fun e' he' => hretired e' (List.mem_cons_of_mem e he')
      rw [sweep_skip h, List.zip_cons_cons]
      refine .cons ?_ (ih hrest)
      intro q hq hcoin hc
      rcases h with hactive | hne | hdone
      · exact hretired e List.mem_cons_self hactive
      · exact absurd hcoin hne
      · rw [sweep_done hdone] at hq
        exact absurd hc (not_consumed_self hq)
  | cut r e book hactive hcoin hr ih =>
      have hrest : Retired book := fun e' he' => hretired e' (List.mem_cons_of_mem e he')
      rw [sweep_cut hactive hcoin hr, List.zip_cons_cons]
      refine .cons ?_ (ih hrest)
      intro q hq _ hc
      rw [sweep_after hq hc]
      norm_num [tolerance]

theorem sweep_last (sell : TaxFill) (remaining : ℚ) (book : List Entry) :
    (book.zip (sweep sell remaining book)).Pairwise fun p q => ¬ (Partly p ∧ Partly q) := by
  induction remaining, book using sweep_induct sell with
  | nil r => exact .nil
  | skip r e book h ih =>
      rw [sweep_skip h, List.zip_cons_cons]
      refine .cons ?_ ih
      rintro q - ⟨⟨hc, -⟩, -⟩
      exact lt_irrefl _ hc
  | cut r e book hactive hcoin hr ih =>
      rw [sweep_cut hactive hcoin hr, List.zip_cons_cons]
      refine .cons ?_ ih
      rintro q hq ⟨⟨-, hleft⟩, ⟨hc, -⟩⟩
      rw [sweep_after hq hc] at hleft
      exact lt_irrefl _ hleft

/-- A sale over any book is first in, first out. -/
theorem sweep_fifo (hretired : Retired book) :
    SoldFifo sell.coin book (sweep sell remaining book) where
  bought := by
    have hrows := sweep_rows sell remaining book
    generalize sweep sell remaining book = book' at hrows
    induction hrows with
    | nil => rfl
    | cons h _ ih =>
        rw [List.map_cons, List.map_cons, h.1,
          ih fun e he => hretired e (List.mem_cons_of_mem _ he)]
  first := sweep_first hretired
  last := sweep_last sell remaining book
  frame p hp hcoin := sweep_frame hp (Or.inr hcoin)

theorem sweep_retired (hretired : Retired book) : Retired (sweep sell remaining book) := by
  induction remaining, book using sweep_induct sell with
  | nil r => exact hretired
  | skip r e book h ih =>
      rw [sweep_skip h]
      intro e' he' hactive
      rcases List.mem_cons.mp he' with rfl | he'
      · exact hretired e' List.mem_cons_self hactive
      · exact ih (fun e he => hretired e (List.mem_cons_of_mem _ he)) e' he' hactive
  | cut r e book hactive hcoin hr ih =>
      rw [sweep_cut hactive hcoin hr]
      intro e' he' hoff
      rcases List.mem_cons.mp he' with rfl | he'
      · exact not_lt.mp (of_decide_eq_false hoff)
      · exact ih (fun e he => hretired e (List.mem_cons_of_mem _ he)) e' he' hoff

/-- The lots of all other coins are the same list. -/
theorem matchLots_others (sell : TaxFill) (remaining : ℚ) (lots : List BuyLot) :
    (matchLots sell remaining lots).2.filter (·.coin ≠ sell.coin) =
      lots.filter (·.coin ≠ sell.coin) := by
  induction remaining, lots using loop_induct sell with
  | nil r => rfl
  | skip r lot lots h ih =>
      rw [matchLots_skip h, List.filter_cons, List.filter_cons, ih]
  | cut r lot lots hcoin hr ih =>
      have hdrop : ∀ lot' : BuyLot, lot'.coin = sell.coin → ∀ ls : List BuyLot,
          (lot' :: ls).filter (·.coin ≠ sell.coin) = ls.filter (·.coin ≠ sell.coin) := by
        intro lot' hlot' ls
        exact List.filter_cons_of_neg (by simp [hlot'])
      rw [matchLots_cut hcoin hr, hdrop lot hcoin]
      dsimp only
      split
      · rw [hdrop (matchLot sell r lot).2 hcoin, ih]
      · exact ih

/-! ## Every run -/

section Run

variable {upper : String → String}

/-- The book is the ledger's: its active lots, its buys, and dust in the others. -/
structure Tracks (upper : String → String) (s : History × List Entry) : Prop where
  active : activeOf s.2 = s.1.ledger.activeLots
  bought : s.2.map (·.bought) = s.1.buys upper
  retired : Retired s.2

theorem recorded_append (fs : List TaxFill) (f : TaxFill) :
    recorded upper (fs ++ [f]) =
      ((recorded upper fs).1.add upper f,
        Entry.add upper (recorded upper fs).1 (recorded upper fs).2 f) := by
  rw [recorded, List.foldl_append]
  rfl

theorem recorded_history (fs : List TaxFill) : (recorded upper fs).1 = History.of upper fs := by
  induction fs using List.reverseRecOn with
  | nil => rfl
  | append_singleton fs f ih =>
      rw [recorded_append, History.of, List.foldl_append, ← History.of, ← ih]
      rfl

theorem add_error {h : History} {f : TaxFill} {why : Refused}
    (hadd : addFill upper h.ledger f = .error why) (book : List Entry) :
    h.add upper f = h ∧ Entry.add upper h book f = book := by
  constructor
  · rw [History.add, hadd]
  · rw [Entry.add, hadd]

theorem add_buy {h : History} {book : List Entry} {f : TaxFill} {trades : List MatchedTrade}
    {l : FifoTaxLedger} (hadd : addFill upper h.ledger f = .ok (trades, l))
    (hside : upper f.side = "BUY") :
    Entry.add upper h book f = book ++ [⟨buyLot upper f, buyLot upper f, true⟩] := by
  rw [Entry.add, hadd]
  exact if_pos hside

theorem add_sell {h : History} {book : List Entry} {f : TaxFill} {trades : List MatchedTrade}
    {l : FifoTaxLedger} (hadd : addFill upper h.ledger f = .ok (trades, l))
    (hside : upper f.side = "SELL") :
    Entry.add upper h book f = sweep (sellFill upper f) f.qty book := by
  rw [Entry.add, hadd]
  exact if_neg fun hbuy => absurd (hside.symm.trans hbuy) (by decide)

theorem Tracks.add {s : History × List Entry} (ht : Tracks upper s) (f : TaxFill) :
    Tracks upper (s.1.add upper f, Entry.add upper s.1 s.2 f) := by
  obtain ⟨h, book⟩ := s
  cases hadd : addFill upper h.ledger f with
  | error why =>
      obtain ⟨hsame, hbook⟩ := add_error hadd book
      rw [hsame, hbook]
      exact ht
  | ok result =>
      obtain ⟨trades, l⟩ := result
      have hh : h.add upper f = { accepted := h.accepted ++ [(f, trades)], ledger := l } := by
        rw [History.add, hadd]
      rw [hh]
      obtain ⟨-, ⟨hside, -, hl⟩ | ⟨hside, -, -, hl⟩⟩ := addFill_ok hadd
      · rw [add_buy hadd hside]
        constructor
        · have hnew : activeOf (book ++ [⟨buyLot upper f, buyLot upper f, true⟩]) =
              activeOf book ++ [buyLot upper f] := by simp [activeOf]
          rw [hnew, ht.active, hl]
        · rw [List.map_append, ht.bought, buys_append, if_pos hside]
          rfl
        · intro e he hoff
          rcases List.mem_append.mp he with he | he
          · exact ht.retired e he hoff
          · obtain rfl := List.mem_singleton.mp he
            cases hoff
      · rw [add_sell hadd hside]
        constructor
        · rw [activeOf_sweep, ht.active, hl]
        · have hnot : upper f.side ≠ "BUY" := fun h => absurd (hside.symm.trans h) (by decide)
          rw [(sweep_fifo ht.retired).bought, ht.bought, buys_append, if_neg hnot, List.append_nil]
        · exact sweep_retired ht.retired

theorem bookOf_tracks (fs : List TaxFill) : Tracks upper (recorded upper fs) := by
  have hempty : Tracks upper ({}, []) := ⟨rfl, rfl, fun e he => by cases he⟩
  exact List.foldlRecOn fs _ hempty fun _ ht f _ => ht.add f

/-- In every ledger that fills make, an accepted sale takes from the lots of its coin in the order
of the buys, each after all before it are exhausted; at most one is left in part, and the lots of
every other coin are what they were, in their order. -/
theorem sell_fifo (upper : String → String) (fs : List TaxFill) {f : TaxFill}
    {trades : List MatchedTrade} {l : FifoTaxLedger}
    (hadd : addFill upper (History.of upper fs).ledger f = .ok (trades, l))
    (hside : upper f.side = "SELL") :
    activeOf (bookOf upper fs) = (History.of upper fs).ledger.activeLots ∧
      activeOf (bookOf upper (fs ++ [f])) = l.activeLots ∧
      (bookOf upper fs).map (·.bought) = (History.of upper fs).buys upper ∧
      SoldFifo (upper f.coin) (bookOf upper fs) (bookOf upper (fs ++ [f])) ∧
      l.activeLots.filter (·.coin ≠ upper f.coin) =
        (History.of upper fs).ledger.activeLots.filter (·.coin ≠ upper f.coin) := by
  have ht : Tracks upper (recorded upper fs) := bookOf_tracks fs
  have hbook : bookOf upper (fs ++ [f]) = sweep (sellFill upper f) f.qty (bookOf upper fs) := by
    have hadd' : addFill upper (recorded upper fs).1.ledger f = .ok (trades, l) := by
      rwa [recorded_history]
    rw [bookOf, recorded_append]
    exact add_sell hadd' hside
  have hl : l.activeLots =
      (matchLots (sellFill upper f) f.qty (History.of upper fs).ledger.activeLots).2 := by
    obtain ⟨-, ⟨hbuy, -⟩ | ⟨-, -, -, hl⟩⟩ := addFill_ok hadd
    · exact absurd (hside.symm.trans hbuy) (by decide)
    · rw [hl]
  have hactive : activeOf (bookOf upper fs) = (History.of upper fs).ledger.activeLots := by
    rw [← recorded_history]
    exact ht.active
  refine ⟨hactive, ?_, ?_, ?_, ?_⟩
  · rw [hbook, activeOf_sweep, hactive, hl]
  · rw [← recorded_history]
    exact ht.bought
  · rw [hbook]
    exact @sweep_fifo (sellFill upper f) _ _ ht.retired
  · rw [hl]
    exact matchLots_others (sellFill upper f) f.qty _

end Run

def threeBuys : List TaxFill :=
  [⟨"1", 0, "BTC", "BUY", 1, 5, 0⟩, ⟨"2", 1, "ETH", "BUY", 1, 5, 0⟩,
    ⟨"3", 2, "BTC", "BUY", 1, 5, 0⟩]

/-- A sale of the first lot of a coin and half of the second, with another coin between them. -/
theorem sell_fifo_of_three :
    SoldFifo "BTC" (bookOf id threeBuys)
      (bookOf id (threeBuys ++ [⟨"4", 3, "BTC", "SELL", 3 / 2, 6, 0⟩])) := by
  obtain ⟨result, hadd⟩ := Loop.exists_of_toBool (e := addFill id (History.of id threeBuys).ledger
    ⟨"4", 3, "BTC", "SELL", 3 / 2, 6, 0⟩) (by decide +kernel)
  exact (sell_fifo id threeBuys hadd rfl).2.2.2.1

end TreasuryForge.Tax
