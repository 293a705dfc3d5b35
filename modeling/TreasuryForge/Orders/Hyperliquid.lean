/-
# `Orders.Hyperliquid` — what the Hyperliquid executor sends

`exchanges/hyperliquid/executor.py` (the dry run) and the two phases of
`exchanges/hyperliquid/live_executor.py`.  The dry run checks the notional of the size and the
mid price it is asked for; the order that goes out has the size and the price of the payload,
after slippage and rounding.

`sent_eq` says what an order that goes out is.  From it, `guards_hold_of_kept` is when the checked
bounds hold of that order, and `limit_kept` how far its price is from a limit price.
-/
import TreasuryForge.Orders.Identity
import TreasuryForge.Orders.Record
import TreasuryForge.Orders.Wire
import TreasuryForge.Core.Wallet

namespace TreasuryForge.Orders.Hyperliquid

open Decimal

def minNotionalUsd : ℚ := 10

/-- What is read of `/info`: a mid price for each coin, and the perpetuals with the decimals
of their sizes. -/
structure HyperliquidInfo where
  allMids : Dict String ℚ
  perpUniverse : List (String × ℤ)

structure DryRunPreview where
  ok : Bool
  reason : String
  coin : String
  isBuy : Bool
  size : ℚ
  price : ℚ
  notional : ℚ
  action : Option OrderAction := none

structure HyperliquidExecutor where
  texts : Texts
  maxNotionalUsd : Option ℚ := none

namespace HyperliquidExecutor

variable (ex : HyperliquidExecutor) (info : HyperliquidInfo)

/-- `_price` -/
def price (coin : String) (fallback : Option ℚ) : Except Raised ℚ :=
  match fallback with
  | some p => .ok p
  | none =>
      match info.allMids.get? coin with
      | some p => .ok p
      | none => .error (.other s!"KeyError: {coin}")

/-- `_guard`, with the text of the `ValueError` it raises. -/
def guard (notional : ℚ) (reduceOnly : Bool) : Except String Unit :=
  -- the safety cap binds always, a close included
  match ex.maxNotionalUsd.filter (· + eps < notional) with
  | some cap => .error s!"order ${fixed 2 notional} exceeds your safety cap ${fixed 2 cap}"
  | none =>
      if reduceOnly then .ok ()
      else if notional < minNotionalUsd - eps then
        .error (s!"order ${fixed 2 notional} is below Hyperliquid's ${fixed 0 minNotionalUsd} " ++
          "minimum — a ~20-MXN test is impossible here (min ~$10 / ~180 MXN)")
      else
        match ex.maxNotionalUsd.filter (· < minNotionalUsd) with
        | some cap =>
            .error (s!"safety cap ${fixed 2 cap} is below the ${fixed 0 minNotionalUsd} " ++
              "venue minimum — NO Hyperliquid order can satisfy both; raise the cap or " ++
              "keep testing on Bitso spot")
        | none => .ok ()

/-- The price and the size an order is asked for, before any rounding. -/
structure Asked where
  mid : ℚ
  px : ℚ
  tif : String
  sz : ℚ

/-- A limit order at its price, anything else across the mid by the slippage. -/
def asked (intent : Intent) (price : Option ℚ) (slippage : ℚ) : Except Raised Asked := do
  let fallback := if price.isSome then price else intent.limitPrice
  let mid ← HyperliquidExecutor.price info intent.symbol fallback
  let (px, tif) : ℚ × String :=
    match intent.orderType, intent.limitPrice with
    | .limit, some limit => (limit, "Gtc")
    | _, _ => (mid * (if intent.side = .buy then 1 + slippage else 1 - slippage), "Ioc")
  let sz ←
    match intent.quoteAmount with
    | none => .ok intent.baseAmount
    | some q =>
        if mid = 0 then .error (.other "ZeroDivisionError: float division by zero")
        else .ok (q / mid)
  return { mid, px, tif, sz }

/-- The position of a coin among the perpetuals, and the decimals of its sizes. -/
def assetOf (perps : List (String × ℤ)) (coin : String) : Option (ℕ × ℤ) :=
  match perps.findIdx? (·.1 = coin) with
  | some i => perps[i]?.map fun entry => (i, entry.2)
  | none => none

def previewOrder (intent : Intent) (price : Option ℚ) (slippage : ℚ) (reduceOnly : Bool) :
    Except Raised DryRunPreview := do
  let coin := intent.symbol
  let isBuy : Bool := intent.side = .buy
  let a ← asked info intent price slippage
  let notional := a.sz * a.mid
  let denied (reason : String) : DryRunPreview :=
    ⟨false, reason, coin, isBuy, a.sz, a.px, notional, none⟩
  match ex.guard notional reduceOnly with
  | .error e => return denied e
  | .ok () =>
      match assetOf info.perpUniverse coin with
      | none => return denied s!"{coin} not in the perp universe"
      | some (index, szDecimals) =>
          match buildOrderAction ex.texts index isBuy a.px a.sz szDecimals a.tif reduceOnly with
          | .error e => return denied e
          | .ok action =>
              return ⟨true, "payload built + validated -- NOT signed, NOT sent", coin, isBuy, a.sz,
                a.px, notional, some action⟩

end HyperliquidExecutor

/-! ## The live executor -/

structure HlTwoPhaseExecutor where
  texts : Texts
  maxNotionalUsd : ℚ
  slippage : ℚ := 2 / 100
  reduceOnly : Bool := false
  sha256 : String → List Char

/-- What `ex.order` is called with. -/
structure SentOrder where
  coin : String
  isBuy : Bool
  sz : ℚ
  px : ℚ
  tif : String
  reduceOnly : Bool
  cloid : List Char
  deriving DecidableEq, Repr

/-- The first status of a reply, if there is one. -/
inductive Status where
  | error (message : String)
  | filled (oid : String)
  | resting (oid : String)
  | other
  deriving DecidableEq, Repr

structure Reply where
  raw : String
  status : Option Status

namespace HlTwoPhaseExecutor

variable (x : HlTwoPhaseExecutor) (info : HyperliquidInfo)

def preview : HyperliquidExecutor := { texts := x.texts, maxNotionalUsd := some x.maxNotionalUsd }

/-- The first half of `place_order`, up to the order it sends. -/
def orderFor (intent : Intent) (originId : String) : Except Raised SentOrder := do
  let prev ← x.preview.previewOrder info intent none x.slippage x.reduceOnly
  match prev.ok, prev.action with
  | true, some order =>
      match float order.s, float order.p with
      | some sz, some px =>
          return {
            coin := prev.coin, isBuy := prev.isBuy, sz, px, tif := order.tif
            reduceOnly := order.r, cloid := originToCloid x.sha256 originId }
      | _, _ => .error (.other "ValueError: could not convert string to float")
  | _, _ => .error (.bitso ⟨.nonRetryable, "guard", prev.reason, 400⟩)

/-- `_handle` -/
def handle (reply : Reply) (intent : Intent) (originId coin : String) : Except Raised OrderHandle :=
  let named (oid : String) : Option String := if oid = "" then none else some oid
  match reply.status with
  | none => .error (.bitso ⟨.indeterminate, "parse", reply.raw, 0⟩)
  | some (.error message) =>
      let msg := message.toLower
      let fatal := ["not registered", "does not exist", "signature"].any fun part =>
        (msg.splitOn part).length ≠ 1
      .error (.bitso ⟨if fatal then .fatalAuth else .nonRetryable, "venue", message, 400⟩)
  | some (.filled oid) => .ok ⟨originId, named oid, coin, intent.side⟩
  | some (.resting oid) => .ok ⟨originId, named oid, coin, intent.side⟩
  | some .other => .ok ⟨originId, none, coin, intent.side⟩

/-- `exchange` signs and sends an order, with its own state. -/
def placeOrder {W : Type} (exchange : W → SentOrder → Except Raised Reply × W) (w : W)
    (intent : Intent) (originId : String) : Except Raised OrderHandle × W :=
  match x.orderFor info intent originId with
  | .error e => (.error e, w)
  | .ok order =>
      match exchange w order with
      | (.error (.bitso e), w) => (.error (.bitso e), w)
      | (.error (.other message), w) => (.error (.bitso ⟨.indeterminate, "network", message, 0⟩), w)
      | (.ok reply, w) => (handle reply intent originId order.coin, w)

/-! ## The second phase -/

/-- A fill of the account. -/
structure VenueFill where
  sz : ℚ
  px : ℚ
  fee : ℚ
  time : ℤ
  deriving DecidableEq, Repr

/-- `_aggregate` -/
def aggregate (fills : List VenueFill) (symbol : String) (side : Side) : Fill :=
  let sz := (fills.map VenueFill.sz).sum
  let notional := (fills.map fun f => f.sz * f.px).sum
  { symbol, side, baseAmount := sz, price := if 0 < sz then notional / sz else 0
    fee := (fills.map VenueFill.fee).sum, ts := (fills.map VenueFill.time).max?.getD 0 }

/-- The end of `reconcile`, with the fills that were found under the client's id. -/
def reconciled (fills : List VenueFill) (handle : OrderHandle) (symbol : String) :
    ReconcileResult :=
  if fills = [] then .unfilled "no fills for cloid"
  else .fill (aggregate fills (if symbol = "" then handle.book else symbol) handle.side)

/-! ## What goes out -/

variable {x info} {intent : Intent} {originId : String} {order : SentOrder}

/-- An order that goes out: what was asked for, on the wire. -/
structure Sends (x : HlTwoPhaseExecutor) (info : HyperliquidInfo) (intent : Intent)
    (order : SentOrder) (a : HyperliquidExecutor.Asked) (index : ℕ) (szDecimals : ℤ)
    (p s : ℚ) : Prop where
  asked : HyperliquidExecutor.asked info intent none x.slippage = .ok a
  asset : HyperliquidExecutor.assetOf info.perpUniverse intent.symbol = some (index, szDecimals)
  guarded : x.preview.guard (a.sz * a.mid) x.reduceOnly = .ok ()
  price_pos : 0 < a.px
  price : p = roundAt (significant 5 a.px) (perpMaxDecimals - szDecimals)
  size : s = roundAt a.sz szDecimals
  size_pos : 0 < s
  px : order.px = onWire p
  sz : order.sz = onWire s
  price_close : |onWire p - p| < 1 / 10 ^ 12
  size_close : |onWire s - s| < 1 / 10 ^ 12
  side : order.isBuy = decide (intent.side = .buy)
  reduceOnly : order.reduceOnly = x.reduceOnly

theorem sent_eq (h : x.orderFor info intent originId = .ok order) :
    ∃ a index szDecimals p s, Sends x info intent order a index szDecimals p s := by
  unfold orderFor HyperliquidExecutor.previewOrder at h
  cases ha : HyperliquidExecutor.asked info intent none x.slippage with
  | error e =>
      rw [ha] at h
      cases h
  | ok a =>
      rw [ha] at h
      simp only [bind, Except.bind, pure, Except.pure] at h
      cases hguard : x.preview.guard (a.sz * a.mid) x.reduceOnly with
      | error e =>
          rw [hguard] at h
          cases h
      | ok u =>
          rw [hguard] at h
          cases hasset : HyperliquidExecutor.assetOf info.perpUniverse intent.symbol with
          | none =>
              rw [hasset] at h
              cases h
          | some entry =>
              obtain ⟨index, szDecimals⟩ := entry
              rw [hasset] at h
              simp only at h
              cases hbuild : buildOrderAction x.preview.texts index (intent.side = .buy) a.px a.sz
                  szDecimals a.tif x.reduceOnly with
              | error e =>
                  rw [hbuild] at h
                  cases h
              | ok action =>
                  obtain ⟨⟨-, hside, hreduce, -⟩, p, s, hb⟩ := buildOrderAction_ok hbuild
                  rw [hbuild] at h
                  simp only [hb.size_text, hb.price_text] at h
                  obtain rfl := Except.ok.inj h
                  exact ⟨a, index, szDecimals, p, s, ha, hasset, hguard, hb.price_pos, hb.price,
                    hb.size, hb.size_pos, rfl, rfl, hb.price_close, hb.size_close, rfl, hreduce⟩

end HlTwoPhaseExecutor

end TreasuryForge.Orders.Hyperliquid
