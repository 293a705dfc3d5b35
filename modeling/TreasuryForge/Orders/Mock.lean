/-
# `Orders.Mock` — the emulated exchange, and the wallet beside it

`exchanges/bitso/mock.py`, as the transport of the executor in `Orders.Bitso`: an order is
placed, the mock moves its balances, the reconcile reads the trade back as a fill, and the
fill is applied to a local wallet.

`wallet_follows` says that the two stay together: a wallet that starts with the mock's
balances has them after every order.
-/
import TreasuryForge.Base.Window
import TreasuryForge.Core.Wallet
import TreasuryForge.Orders.Bitso

namespace TreasuryForge.Orders.Bitso

/-- The prices by book, none of them zero or less. -/
structure PriceTable where
  table : Dict String ℚ
  positive : ∀ p ∈ table.items, 0 < p.2

structure MockOrder where
  book : String
  side : String
  type : String
  status : String
  originId : String
  deriving DecidableEq, Repr

structure MockBitsoAPI where
  balances : Dict String ℚ
  prices : PriceTable
  feeTaker : ℚ := 78 / 10000
  tid : ℤ := 0
  oid : ℕ := 0
  orders : Dict String MockOrder := Dict.empty
  trades : Dict String (List TradeRow) := Dict.empty
  injectRateLimit : ℕ := 0

/-- `_ok` -/
def granted (oid : Option String) (trades : List TradeRow) : Answer :=
  .ok { status := 200, success := true, oid, trades }

/-- `_err` -/
def refused (status : ℕ) (code message : String) : Answer :=
  .ok { status, success := false, code := some code, message := some message }

namespace MockBitsoAPI

/-- The books, each with its base and its quote currency. -/
def books : Dict String (String × String) :=
  (Dict.empty.set "btc_mxn" ("btc", "mxn")).set "eth_mxn" ("eth", "mxn")

variable (m : MockBitsoAPI)

/-- `self.balances.get(ccy, 0.0)` -/
def balance (ccy : String) : ℚ := m.balances.getD ccy 0

def credit (ccy : String) (amount : ℚ) : MockBitsoAPI :=
  { m with balances := m.balances.set ccy (m.balance ccy + amount) }

/-- The base and the quote amount of a market order at a price: spend exactly `minor`, or
trade `major`. -/
def amounts (p : Params) (price : ℚ) : Option (ℚ × ℚ) :=
  match p.minor, p.major with
  | some q, _ => some (q / price, q)
  | none, some b => some (b, b * price)
  | none, none => none

/-- A market order trades at once: one row in the log, and the order completed. -/
def complete (p : Params) (oid : String) (price baseGross fee : ℚ) : MockBitsoAPI :=
  { m with
    tid := m.tid + 1
    trades := m.trades.set oid [⟨baseGross, price, fee, m.tid + 1⟩]
    orders := m.orders.set oid ⟨p.book, p.side, "market", "completed", p.originId⟩ }

/-- The market branch of `_place`; `m` has the next order id. -/
def market (p : Params) (oid baseCcy quoteCcy : String) (price baseGross quoteAmt : ℚ) :
    Answer × MockBitsoAPI :=
  if quoteAmt < 10 - eps then (refused 400 "0309" "below minimum_value", m)
  else if p.side = "buy" then
    if m.balance quoteCcy < quoteAmt - eps then (refused 400 "0379" "insufficient funds", m)
    else
      let fee := baseGross * m.feeTaker
      (granted (some oid) [], (((m.credit quoteCcy (-quoteAmt)).credit baseCcy
        (baseGross - fee)).complete p oid price baseGross fee))
  else
    if m.balance baseCcy < baseGross - eps then (refused 400 "0379" "insufficient funds", m)
    else
      let fee := quoteAmt * m.feeTaker
      (granted (some oid) [], (((m.credit baseCcy (-baseGross)).credit quoteCcy
        (quoteAmt - fee)).complete p oid price baseGross fee))

/-- `_place` -/
def place (p : Params) : Answer × MockBitsoAPI :=
  match books.get? p.book, m.prices.table.get? p.book with
  | none, _ => (refused 400 "0308" "unknown book", m)
  | some _, none => (.error "KeyError", m)
  | some (baseCcy, quoteCcy), some price =>
      let oid := s!"oid{m.oid}"
      let m := { m with oid := m.oid + 1 }
      if p.type = "market" then
        match amounts p price with
        | none => (.error "KeyError", m)
        | some (baseGross, quoteAmt) => m.market p oid baseCcy quoteCcy price baseGross quoteAmt
      else if p.type = "limit" then
        (granted (some oid) [],
          { m with orders := m.orders.set oid ⟨p.book, p.side, "limit", "open", p.originId⟩ })
      else (refused 400 "0310" s!"unknown order type {p.type}", m)

/-- The trades of an order, found by its id or by its `origin_id`. -/
def userTrades (qualifier : Qualifier) (key : String) : List TradeRow :=
  let oid := match qualifier with
    | .oid => some key
    | .originId => (m.orders.items.find? fun o => o.2.originId = key).map Prod.fst
  match oid with
  | some oid => if oid = "" then [] else m.trades.getD oid []
  | none => []

/-- `__call__`, on a request that is signed. -/
def call : Transport MockBitsoAPI := fun m request =>
  if 0 < m.injectRateLimit then
    (refused 420 "0301" "rate limited", { m with injectRateLimit := m.injectRateLimit - 1 })
  else
    match request with
    | .post params => m.place params
    | .userTrades qualifier key => (granted none (m.userTrades qualifier key), m)

end MockBitsoAPI

/-! ## A wallet beside the exchange -/

/-- A symbol for each book, which the executor maps to the book. -/
structure Listing (ex : BitsoExecutor) where
  symbol : String → String
  maps : ∀ book ∈ MockBitsoAPI.books.keys, ex.book (symbol book) = book

/-- A market order, under the symbol of its book; and the prices when it is placed. -/
structure MarketOrder {ex : BitsoExecutor} (listing : Listing ex) where
  intent : Intent
  originId : String
  prices : PriceTable
  market : intent.orderType = .market
  listed : intent.symbol = listing.symbol (ex.book intent.symbol)

/-- The exchange, and the wallet that is kept locally. -/
structure Session where
  api : MockBitsoAPI
  wallet : SimWallet

variable {ex : BitsoExecutor} {listing : Listing ex}

/-- An order is placed and reconciled, and its fill, if there is one, applied. -/
def Session.next (s : Session) (o : MarketOrder listing) : Session :=
  let api := { s.api with prices := o.prices }
  match ex.placeOrder MockBitsoAPI.call api o.intent o.originId with
  | (.error _, api) => { s with api }
  | (.ok handle, api) =>
      match BitsoExecutor.reconcile MockBitsoAPI.call api handle o.intent.symbol with
      | (.ok (.fill fill), api) =>
          match s.wallet.applyFill fill with
          | .ok wallet => ⟨api, wallet⟩
          | .error _ => { s with api }
      | (_, api) => { s with api }

/-- The wallet has the exchange's balances: the quote, and under its symbol the base of each
book. -/
structure Agrees (listing : Listing ex) (s : Session) : Prop where
  quote : s.wallet.quote = s.api.balance "mxn"
  base : ∀ book base quote, MockBitsoAPI.books.get? book = some (base, quote) →
    s.wallet.baseBalance (listing.symbol book) = s.api.balance base

/-- The mock's balances cover the amounts of an order: what it gives, and the fee out of what
it receives. -/
def Covers (s : Session) (o : MarketOrder listing) : Prop :=
  ∀ p base quote price baseGross quoteAmt, ex.toParams o.intent = .ok p →
    MockBitsoAPI.books.get? p.book = some (base, quote) →
    o.prices.table.get? p.book = some price →
    MockBitsoAPI.amounts p price = some (baseGross, quoteAmt) →
    if o.intent.side = .buy then
      quoteAmt ≤ s.api.balance quote ∧
        baseGross * s.api.feeTaker ≤ s.api.balance base + baseGross
    else
      baseGross ≤ s.api.balance base ∧
        quoteAmt * s.api.feeTaker ≤ s.api.balance quote + quoteAmt

/-! ## What a market order does -/

namespace MockBitsoAPI

variable {m : MockBitsoAPI} {p : Params} {oid base quote baseCcy quoteCcy book : String}
  {price baseGross quoteAmt : ℚ}

theorem balance_credit (ccy ccy' : String) (amount : ℚ) :
    (m.credit ccy amount).balance ccy' =
      if ccy' = ccy then m.balance ccy + amount else m.balance ccy' := by
  rw [balance, credit, Dict.getD_set]
  split
  · rfl
  · rfl

/-- One currency is given, another is received. -/
theorem balance_swap {given received : String} (hne : received ≠ given) (x y : ℚ) (ccy : String) :
    ((m.credit given x).credit received y).balance ccy =
      if ccy = received then m.balance ccy + y
      else if ccy = given then m.balance ccy + x else m.balance ccy := by
  rw [balance_credit, balance_credit, balance_credit, if_neg hne]
  split
  · rename_i h
    rw [h]
  · split
    · rename_i h
      rw [h]
    · rfl

theorem books_cases (h : books.get? book = some (base, quote)) : quote = "mxn" ∧
    ((book = "btc_mxn" ∧ base = "btc") ∨ (book = "eth_mxn" ∧ base = "eth")) := by
  rw [books, Dict.get?_set] at h
  split at h
  · rename_i hbook
    cases h
    exact ⟨rfl, .inr ⟨hbook, rfl⟩⟩
  · rw [Dict.get?_set] at h
    split at h
    · rename_i hbook
      cases h
      exact ⟨rfl, .inl ⟨hbook, rfl⟩⟩
    · cases h

/-- What a market order that succeeds has changed: the balances of its two currencies, and
the log, which has its one trade. -/
structure Traded (m m' : MockBitsoAPI) (p : Params) (oid baseCcy quoteCcy : String)
    (price baseGross quoteAmt : ℚ) : Prop where
  minimum : 10 - eps ≤ quoteAmt
  row : ∃ tid, m'.trades.get? oid = some [⟨baseGross, price,
    if p.side = "buy" then baseGross * m.feeTaker else quoteAmt * m.feeTaker, tid⟩]
  limit : m'.injectRateLimit = m.injectRateLimit
  balance : ∀ ccy, m'.balance ccy =
    if p.side = "buy" then
      if ccy = baseCcy then m.balance ccy + (baseGross - baseGross * m.feeTaker)
      else if ccy = quoteCcy then m.balance ccy + -quoteAmt else m.balance ccy
    else
      if ccy = quoteCcy then m.balance ccy + (quoteAmt - quoteAmt * m.feeTaker)
      else if ccy = baseCcy then m.balance ccy + -baseGross else m.balance ccy

/-- An answer that `place_order` raises on. -/
def Denied (answer : Answer) : Prop :=
  ∀ book side originId, ∃ e, BitsoExecutor.placed book side originId answer = .error e

theorem denied_error (e : String) : Denied (.error e) := fun _ _ _ => ⟨_, rfl⟩

theorem denied_refused {status : ℕ} {code message : String}
    (h : classify status (some code) ≠ .submitted) : Denied (refused status code message) := by
  intro book side originId
  exact ⟨_, if_neg h⟩

theorem market_cases (m : MockBitsoAPI) (p : Params) (oid : String) (price baseGross quoteAmt : ℚ)
    (hne : baseCcy ≠ quoteCcy) :
    (∃ answer, Denied answer ∧
      m.market p oid baseCcy quoteCcy price baseGross quoteAmt = (answer, m)) ∨
    (∃ m', m.market p oid baseCcy quoteCcy price baseGross quoteAmt =
        (granted (some oid) [], m') ∧
      Traded m m' p oid baseCcy quoteCcy price baseGross quoteAmt) := by
  unfold market
  by_cases hmin : quoteAmt < 10 - eps
  · rw [if_pos hmin]
    exact .inl ⟨_, denied_refused (by decide), rfl⟩
  rw [if_neg hmin]
  by_cases hside : p.side = "buy"
  · rw [if_pos hside]
    by_cases hfunds : m.balance quoteCcy < quoteAmt - eps
    · rw [if_pos hfunds]
      exact .inl ⟨_, denied_refused (by decide), rfl⟩
    rw [if_neg hfunds]
    refine .inr ⟨_, rfl, not_lt.mp hmin, ⟨m.tid + 1, ?_⟩, rfl, ?_⟩
    · rw [if_pos hside]
      exact Dict.get?_set_self _ _ _
    · intro ccy
      rw [if_pos hside]
      exact balance_swap hne _ _ ccy
  · rw [if_neg hside]
    by_cases hfunds : m.balance baseCcy < baseGross - eps
    · rw [if_pos hfunds]
      exact .inl ⟨_, denied_refused (by decide), rfl⟩
    rw [if_neg hfunds]
    refine .inr ⟨_, rfl, not_lt.mp hmin, ⟨m.tid + 1, ?_⟩, rfl, ?_⟩
    · rw [if_neg hside]
      exact Dict.get?_set_self _ _ _
    · intro ccy
      rw [if_neg hside]
      exact balance_swap hne.symm _ _ ccy

/-- A market order is denied and the balances are as they were, or it trades at the price of
its book, and no rate limit is in the way of its reconcile. -/
theorem call_market (htype : p.type = "market") :
    (∃ answer m', Denied answer ∧ m.call (.post p) = (answer, m') ∧ m'.balances = m.balances) ∨
    (∃ baseCcy quoteCcy price baseGross quoteAmt m',
      books.get? p.book = some (baseCcy, quoteCcy) ∧
      m.prices.table.get? p.book = some price ∧ amounts p price = some (baseGross, quoteAmt) ∧
      m.call (.post p) = (granted (some s!"oid{m.oid}") [], m') ∧
      Traded m m' p s!"oid{m.oid}" baseCcy quoteCcy price baseGross quoteAmt ∧
      m'.injectRateLimit = 0) := by
  unfold call
  by_cases hlimit : 0 < m.injectRateLimit
  · rw [if_pos hlimit]
    exact .inl ⟨_, _, denied_refused (by decide), rfl, rfl⟩
  rw [if_neg hlimit]
  dsimp only
  unfold place
  cases hbook : books.get? p.book with
  | none => exact .inl ⟨_, _, denied_refused (by decide), rfl, rfl⟩
  | some ccys =>
      obtain ⟨baseCcy, quoteCcy⟩ := ccys
      cases hprice : m.prices.table.get? p.book with
      | none => exact .inl ⟨_, _, denied_error _, rfl, rfl⟩
      | some price =>
          dsimp only
          rw [if_pos htype]
          cases hamounts : amounts p price with
          | none => exact .inl ⟨_, _, denied_error _, rfl, rfl⟩
          | some a =>
              obtain ⟨baseGross, quoteAmt⟩ := a
              have hne : baseCcy ≠ quoteCcy := by
                obtain ⟨rfl, ⟨-, rfl⟩ | ⟨-, rfl⟩⟩ := books_cases hbook
                · decide
                · decide
              rcases market_cases { m with oid := m.oid + 1 } p s!"oid{m.oid}" price baseGross
                  quoteAmt hne with
                ⟨answer, hdenied, hmarket⟩ | ⟨m', hmarket, htraded⟩
              · exact .inl ⟨answer, _, hdenied, hmarket, rfl⟩
              · refine .inr ⟨baseCcy, quoteCcy, price, baseGross, quoteAmt, m', rfl, rfl, hamounts,
                  hmarket, ⟨htraded.minimum, htraded.row, htraded.limit, htraded.balance⟩, ?_⟩
                rw [htraded.limit]
                exact Nat.eq_zero_of_not_pos hlimit

/-- The order is worth its base amount at the price. -/
theorem amounts_mul (hprice : 0 < price) (h : amounts p price = some (baseGross, quoteAmt)) :
    baseGross * price = quoteAmt := by
  unfold amounts at h
  cases hminor : p.minor with
  | some q =>
      rw [hminor] at h
      cases h
      exact div_mul_cancel₀ _ hprice.ne'
  | none =>
      cases hmajor : p.major with
      | some b =>
          rw [hminor, hmajor] at h
          cases h
          rfl
      | none =>
          rw [hminor, hmajor] at h
          cases h

/-- The trade is found by the order's id. -/
theorem call_userTrades (hlimit : m.injectRateLimit = 0) (hoid : oid ≠ "") {rows : List TradeRow}
    (hrows : m.trades.get? oid = some rows) :
    m.call (.userTrades .oid oid) = (granted none rows, m) := by
  unfold call userTrades
  rw [if_neg (by omega)]
  dsimp only
  rw [if_neg hoid, Dict.getD, hrows]
  rfl

end MockBitsoAPI

/-! ## The wallet follows -/

section Follows

variable {s : Session} {o : MarketOrder listing} {p : Params}

theorem toParams_market {i : Intent} (hmarket : i.orderType = .market)
    (h : ex.toParams i = .ok p) : p.book = ex.book i.symbol ∧ p.type = "market" ∧
      (p.side = "buy" ↔ i.side = .buy) := by
  have hside : (if i.side = .buy then "buy" else "sell") = "buy" ↔ i.side = .buy := by
    cases i.side with
    | buy => simp
    | sell => simp
  unfold BitsoExecutor.toParams at h
  rw [hmarket] at h
  dsimp only at h
  cases hq : i.quoteAmount with
  | none =>
      rw [hq] at h
      cases h
      exact ⟨rfl, rfl, hside⟩
  | some q =>
      rw [hq] at h
      dsimp only at h
      split at h
      · cases h
      · cases h
        exact ⟨rfl, rfl, hside⟩

/-- The fill that a trade of the mock is reconciled to. -/
def mockFill (i : Intent) (m : MockBitsoAPI) (price baseGross quoteAmt : ℚ) (tid : ℤ) : Fill where
  symbol := i.symbol
  side := i.side
  baseAmount := baseGross
  price := price
  fee := if i.side = .buy then baseGross * m.feeTaker else quoteAmt * m.feeTaker
  ts := tid
  feeCurrency := if i.side = .buy then "base" else "quote"

theorem reconciled_row {handle : OrderHandle} {symbol : String} {price base fee : ℚ} {tid : ℤ}
    (hbase : 0 < base) :
    BitsoExecutor.reconciled handle symbol (granted none [⟨base, price, fee, tid⟩]) =
      .ok (.fill ⟨symbol, handle.side, base, price, fee, tid,
        if handle.side = .buy then "base" else "quote"⟩) := by
  unfold BitsoExecutor.reconciled granted
  simp [abs_of_pos hbase, not_le.mpr hbase, hbase.ne']

/-- An order is denied and leaves balances and wallet alone; or it trades, and its fill is
what the wallet is given. -/
theorem Session.next_cases (s : Session) (o : MarketOrder listing) :
    ((s.next o).wallet = s.wallet ∧ (s.next o).api.balances = s.api.balances) ∨
    (∃ p baseCcy quoteCcy price baseGross quoteAmt api tid, ex.toParams o.intent = .ok p ∧
      MockBitsoAPI.books.get? p.book = some (baseCcy, quoteCcy) ∧
      o.prices.table.get? p.book = some price ∧
      MockBitsoAPI.amounts p price = some (baseGross, quoteAmt) ∧
      MockBitsoAPI.Traded s.api api p s!"oid{s.api.oid}" baseCcy quoteCcy price baseGross quoteAmt ∧
      (s.next o).api = api ∧
      (s.next o).wallet = match s.wallet.applyFill
          (mockFill o.intent s.api price baseGross quoteAmt tid) with
        | .ok wallet => wallet
        | .error _ => s.wallet) := by
  unfold Session.next BitsoExecutor.placeOrder
  cases hp : ex.toParams o.intent with
  | error e => exact .inl ⟨rfl, rfl⟩
  | ok p =>
      obtain ⟨hbook, htype, hside⟩ := toParams_market o.market hp
      dsimp only
      rcases MockBitsoAPI.call_market (m := { s.api with prices := o.prices })
          (p := { p with originId := o.originId }) htype with
        ⟨answer, m', hdenied, hcall, hbalances⟩ |
        ⟨baseCcy, quoteCcy, price, baseGross, quoteAmt, m', hccys, hprice, hamounts, hcall, htraded,
          hlimit⟩
      · obtain ⟨e, he⟩ := hdenied p.book o.intent.side o.originId
        rw [hcall]
        dsimp only
        rw [he]
        exact .inl ⟨rfl, hbalances⟩
      · obtain ⟨tid, hrow⟩ := htraded.row
        have hpos : 0 < price := o.prices.positive _ (Dict.get?_eq_some.mp hprice)
        have hbase : 0 < baseGross := by
          have hmul := MockBitsoAPI.amounts_mul hpos hamounts
          have hmin : 0 < baseGross * price := by
            rw [hmul]
            exact lt_of_lt_of_le (by norm_num [eps]) htraded.minimum
          exact (mul_pos_iff_of_pos_right hpos).mp hmin
        have hoid : s!"oid{s.api.oid}" ≠ "" := by
          intro h
          have := congrArg String.length h
          simp at this
        have hget := MockBitsoAPI.call_userTrades hlimit hoid hrow
        rw [hcall]
        dsimp only [BitsoExecutor.placed, granted]
        rw [if_pos rfl]
        dsimp only [BitsoExecutor.reconcile, BitsoExecutor.tradesRequest]
        rw [if_neg hoid, hget]
        dsimp only
        rw [reconciled_row hbase]
        dsimp only
        have hfill : (⟨o.intent.symbol, o.intent.side, baseGross, price,
            if p.side = "buy" then baseGross * s.api.feeTaker else quoteAmt * s.api.feeTaker, tid,
            if o.intent.side = .buy then "base" else "quote"⟩ : Fill) =
            mockFill o.intent s.api price baseGross quoteAmt tid := by
          simp only [mockFill, hside]
        refine .inr ⟨p, baseCcy, quoteCcy, price, baseGross, quoteAmt, m', tid, rfl, hccys, hprice,
          hamounts, ⟨htraded.minimum, htraded.row, htraded.limit, htraded.balance⟩, ?_⟩
        rw [← hfill]
        cases s.wallet.applyFill _ with
        | ok wallet => exact ⟨rfl, rfl⟩
        | error e => exact ⟨rfl, rfl⟩

theorem keys_of_get {book : String} {ccys : String × String}
    (h : MockBitsoAPI.books.get? book = some ccys) : book ∈ MockBitsoAPI.books.keys :=
  List.mem_map.mpr ⟨_, Dict.get?_eq_some.mp h, rfl⟩

/-- What the fill of a trade does to a wallet: what the trade did to the mock's balances. -/
theorem mockFill_deltas (i : Intent) (m : MockBitsoAPI) (tid : ℤ) {price baseGross quoteAmt : ℚ}
    (hworth : baseGross * price = quoteAmt) :
    (mockFill i m price baseGross quoteAmt tid).quoteDelta =
      (if i.side = .buy then -quoteAmt else quoteAmt - quoteAmt * m.feeTaker) ∧
    (mockFill i m price baseGross quoteAmt tid).baseDelta =
      (if i.side = .buy then baseGross - baseGross * m.feeTaker else -baseGross) := by
  cases hside : i.side with
  | buy => simp [mockFill, Fill.quoteDelta, Fill.baseDelta, hside, hworth]
  | sell => simp [mockFill, Fill.quoteDelta, Fill.baseDelta, hside, hworth]

theorem Agrees.of_balances {s' : Session} (h : Agrees listing s) (hw : s'.wallet = s.wallet)
    (hb : s'.api.balances = s.api.balances) : Agrees listing s' := by
  have hbalance : ∀ ccy, s'.api.balance ccy = s.api.balance ccy := by
    intro ccy
    rw [MockBitsoAPI.balance, hb]
    rfl
  constructor
  · rw [hw, hbalance]
    exact h.quote
  · intro book base quote hbook
    rw [hw, hbalance]
    exact h.base book base quote hbook

/-- One order, denied or traded. -/
theorem Agrees.next (h : Agrees listing s) (hc : Covers s o) : Agrees listing (s.next o) := by
  rcases s.next_cases o with ⟨hw, hb⟩ |
    ⟨p, baseCcy, quoteCcy, price, baseGross, quoteAmt, api, tid, hp, hccys, hprice, hamounts,
      htraded, hapi, hwallet⟩
  · exact h.of_balances hw hb
  have hpos : 0 < price := o.prices.positive _ (Dict.get?_eq_some.mp hprice)
  have hworth := MockBitsoAPI.amounts_mul hpos hamounts
  obtain ⟨hbook, -, hside⟩ := toParams_market o.market hp
  have hcover := hc p baseCcy quoteCcy price baseGross quoteAmt hp hccys hprice hamounts
  have hsymbol : o.intent.symbol = listing.symbol p.book := by
    rw [hbook]
    exact o.listed
  obtain ⟨hquoteDelta, hbaseDelta⟩ :=
    mockFill_deltas o.intent s.api tid hworth
  obtain ⟨rfl, hbases⟩ := MockBitsoAPI.books_cases hccys
  have hheld : s.wallet.baseBalance o.intent.symbol = s.api.balance baseCcy := by
    rw [hsymbol]
    exact h.base _ _ _ hccys
  have hne : baseCcy ≠ "mxn" := by
    rcases hbases with ⟨-, rfl⟩ | ⟨-, rfl⟩
    · decide
    · decide
  -- what the trade leaves of the two balances is what the fill leaves of the wallet's
  have hquote : api.balance "mxn" = s.wallet.quote +
      (mockFill o.intent s.api price baseGross quoteAmt tid).quoteDelta := by
    rw [htraded.balance, hquoteDelta, h.quote]
    simp only [hside, if_neg hne.symm, if_true]
    split
    · rfl
    · rfl
  have hbase : api.balance baseCcy = s.wallet.baseBalance o.intent.symbol +
      (mockFill o.intent s.api price baseGross quoteAmt tid).baseDelta := by
    rw [htraded.balance, hbaseDelta, hheld]
    simp only [hside, if_neg hne, if_true]
    split
    · rfl
    · rfl
  have hcovered : 0 ≤ api.balance "mxn" ∧ 0 ≤ api.balance baseCcy := by
    rw [hquote, hbase, hquoteDelta, hbaseDelta, h.quote, hheld]
    split at hcover
    · rename_i hbuy
      rw [if_pos hbuy, if_pos hbuy]
      constructor <;> linarith [hcover.1, hcover.2]
    · rename_i hsell
      rw [if_neg hsell, if_neg hsell]
      constructor <;> linarith [hcover.1, hcover.2]
  have hsym : (mockFill o.intent s.api price baseGross quoteAmt tid).symbol = o.intent.symbol := rfl
  have happly : s.wallet.applyFill (mockFill o.intent s.api price baseGross quoteAmt tid) =
      .ok ⟨api.balance "mxn",
        s.wallet.positions.set o.intent.symbol (api.balance baseCcy)⟩ := by
    have heps : -eps ≤ 0 := by norm_num [eps]
    rw [SimWallet.applyFill_ok, hsym, ← hquote, ← hbase, max_eq_left hcovered.1,
      max_eq_left hcovered.2]
    exact ⟨heps.trans hcovered.1, heps.trans hcovered.2, rfl⟩
  rw [happly] at hwallet
  constructor
  · rw [hwallet, hapi]
  · intro book base quote hget
    rw [hwallet, hapi]
    by_cases hsame : book = p.book
    · subst hsame
      rw [hccys] at hget
      cases hget
      rw [← hsymbol]
      exact SimWallet.baseBalance_set _ _ _ _
    · -- another book has another symbol and another base
      have hother : listing.symbol book ≠ o.intent.symbol := by
        rw [hsymbol]
        intro heq
        have hmaps := congrArg ex.book heq
        rw [listing.maps _ (keys_of_get hget), listing.maps _ (keys_of_get hccys)] at hmaps
        exact hsame hmaps
      obtain ⟨-, hbase'⟩ := MockBitsoAPI.books_cases hget
      have hccy : base ≠ baseCcy ∧ base ≠ "mxn" := by
        rcases hbases with ⟨hb, rfl⟩ | ⟨hb, rfl⟩ <;>
          rcases hbase' with ⟨hb', rfl⟩ | ⟨hb', rfl⟩
        · exact absurd (hb'.trans hb.symm) hsame
        · decide
        · decide
        · exact absurd (hb'.trans hb.symm) hsame
      rw [SimWallet.baseBalance, Dict.getD_set, if_neg hother, htraded.balance]
      simp only [if_neg hccy.1, if_neg hccy.2, ite_self]
      exact h.base book base quote hget

/-- A wallet that starts with the mock's balances has them after every order, whatever the
orders are, if the balances cover them. -/
theorem wallet_follows {orders : List (MarketOrder listing)} (h : Agrees listing s)
    (hcovers : Window.Along Session.next Covers s orders) (k : ℕ) :
    Agrees listing ((orders.take k).foldl Session.next s) :=
  Window.Along.induction (fun _ _ h hc => h.next hc) h (hcovers.take k)

end Follows

/-! ## A purchase and a sale -/

def mxnExecutor : BitsoExecutor :=
  { bookMap := (Dict.empty.set "BTC" "btc_mxn").set "ETH" "eth_mxn" }

def mxnListing : Listing mxnExecutor where
  symbol book := if book = "btc_mxn" then "BTC" else "ETH"
  maps := by decide

def mxnPrices (btc : ℚ) (h : 0 < btc) : PriceTable where
  table := Dict.empty.set "btc_mxn" btc
  positive := by
    intro p hp
    obtain rfl := List.mem_singleton.mp hp
    exact h

/-- Spend 100 pesos on bitcoin. -/
def spendHundred : MarketOrder mxnListing where
  intent := { symbol := "BTC", side := .buy, baseAmount := 0, quoteAmount := some 100 }
  originId := "buy"
  prices := mxnPrices 1000000 (by norm_num)
  market := rfl
  listed := by decide

/-- Sell less than what it bought, at another price. -/
def sellSome : MarketOrder mxnListing where
  intent := { symbol := "BTC", side := .sell, baseAmount := 1 / 20000 }
  originId := "sell"
  prices := mxnPrices 900000 (by norm_num)
  market := rfl
  listed := by decide

def mxnSession : Session where
  api := {
    balances := (Dict.empty.set "mxn" 200).set "btc" 0
    prices := mxnPrices 1000000 (by norm_num) }
  wallet := { quote := 200 }

theorem wallet_follows_round_trip :
    Agrees mxnListing (([spendHundred, sellSome].take 2).foldl Session.next mxnSession) := by
  have hstart : Agrees mxnListing mxnSession := by
    refine ⟨by decide +kernel, ?_⟩
    intro book base quote hbook
    obtain ⟨-, ⟨rfl, rfl⟩ | ⟨rfl, rfl⟩⟩ := MockBitsoAPI.books_cases hbook
    · decide +kernel
    · decide +kernel
  have hcovers : Window.Along Session.next Covers mxnSession [spendHundred, sellSome] := by
    refine ⟨?_, ?_, trivial⟩
    · intro p base quote price baseGross quoteAmt hp hccys hprice hamounts
      cases hp
      cases hccys
      cases hprice
      cases hamounts
      decide +kernel
    · intro p base quote price baseGross quoteAmt hp hccys hprice hamounts
      cases hp
      cases hccys
      cases hprice
      cases hamounts
      decide +kernel
  exact wallet_follows hstart hcovers 2

/-- Both orders trade: 100 pesos are spent, and 45 come back less the fee. -/
example : ([spendHundred, sellSome].foldl Session.next mxnSession).wallet.quote =
    200 - 100 + 45 - 45 * (78 / 10000) := by
  decide +kernel

end TreasuryForge.Orders.Bitso
