/-
# `Live.HlScalp` — one guarded scalp, by hand

`hl_scalp.py` as a program over the calls it makes: it reads the account and the market, runs the
preflight, previews the entry, and sends it through the idempotent manager, whose calls are carried
out on the exchange; an entry that is filled gets a stop.

`main_keeps` is what may be called after what.  `scalp_posts` reads off that what is sent in any
run: nothing but under `--send` and behind the guards, and a stop that closes what was filled;
`scalp_protected` that an entry whose fill came back is not left without one.
-/
import TreasuryForge.Base.Carry
import TreasuryForge.Live.Service
import TreasuryForge.Orders.Filled
import TreasuryForge.Orders.Hyperliquid

namespace TreasuryForge

namespace HlScalp

open Resume Protocol Orders Orders.Hyperliquid

/-! ## The calls -/

structure Position where
  coin : String
  size : ℚ
  deriving DecidableEq, Repr

/-- What `_place_stop` sends: a stop-market order at its trigger. -/
structure StopOrder where
  coin : String
  isBuy : Bool
  size : ℚ
  triggerPx : ℚ
  reduceOnly : Bool
  deriving DecidableEq, Repr

inductive Call where
  /-- `resolve_agent_credentials()` -/
  | credentials
  /-- `info.available_collateral(master)` -/
  | collateral
  /-- a reading of the mid prices and of the perpetuals -/
  | market
  /-- `info.open_positions(master)` -/
  | positions
  /-- `info.user_state(master)["time"]` -/
  | serverTime
  /-- `time.time()` -/
  | clock
  | preflight (c : Service.Call)
  /-- `_build_exchange(key, master)` -/
  | build
  /-- `Journal("state/hl_live")`, and the orders in it -/
  | journal
  /-- a call of the manager to its dictionary or its journal -/
  | manager (op : Orders.Op)
  /-- `info.fills_for_cloid(master, cloid)` -/
  | fills (cloid : List Char)
  /-- `exchange.order`, of the two-phase executor -/
  | order (o : SentOrder)
  /-- `exchange.order`, of `_place_stop` -/
  | stop (o : StopOrder)

def Reply : Call → Type
  | .credentials | .build | .journal | .stop _ => Except Raised Unit
  | .collateral => Except Raised ℚ
  | .market => Except Raised HyperliquidInfo
  | .positions => Except Raised (List Position)
  | .serverTime => Except Raised ℤ
  | .clock => ℚ
  | .preflight c => Service.Reply c
  | .manager op => Orders.Ret op
  | .fills _ => Except Raised (List HlTwoPhaseExecutor.VenueFill)
  | .order _ => Except Raised Hyperliquid.Reply

abbrev Run (A : Type) := Prog Call Reply Raised A

def ask (call : Call) : Run (Reply call) := Prog.ask call

/-- A call that raised raises here. -/
def returned {A : Type} : Except Raised A → Run A
  | .ok a => .ret a
  | .error e => .raise e

/-! ## The script -/

inductive Direction where
  | long
  | short
  deriving DecidableEq, Repr

structure Args where
  coin : String := "ETH"
  dir : Direction := .long
  usd : Option ℚ := none
  stop : ℚ := 5 / 10
  maxLev : ℚ := 3
  cap : ℚ := 60
  close : Bool := false
  send : Bool := false

/-- `MAX_LEV_HARD` -/
def maxLevHard : ℚ := 5

inductive Ended where
  | noPosition
  | noNotional
  | refused
  | safeHalted
  | notPreviewed (reason : String)
  | dryRun
  | closed (out : Outcome)
  /-- the entry, and what came of its stop if there was one to place -/
  | fired (out : Outcome) (stop : Option (Except Raised Unit))

namespace Args

variable (a : Args)

def cappedLev : ℚ := min a.maxLev maxLevHard

/-- The leverage is over the cap; without collateral it is infinite. -/
def overLeverage (usd collateral : ℚ) : Bool :=
  if 0 < collateral then a.cappedLev + eps < usd / collateral else true

def isBuy : Bool := a.dir = .long

def stopPx (mid : ℚ) : ℚ :=
  if a.isBuy then mid * (1 - a.stop / 100) else mid * (1 + a.stop / 100)

def config : PolicyConfig where
  allowedSymbols := [a.coin]
  maxNotionalPerTx := a.cap
  maxTxPerWindow := 10
  windowSteps := 3600
  maxDrawdownPct := 20 / 100
  minNotionalPerTx := some 10
  maxNotionalPerWindow := some a.cap

def inputs (collateral now : ℚ) (skew : Option ℚ) : PreflightInputs where
  mode := some "live"
  config := some a.config
  journalDir := some "state/hl_live"
  hasCredentials := true
  nowWall := now
  exchangeReachable := 0 ≤ collateral
  dataAgeS := some (5 / 10)
  clockSkewS := skew
  maxClockSkewS := 5

/-- The entry. -/
def entry (usd : ℚ) : Intent where
  symbol := a.coin
  side := if a.isBuy then .buy else .sell
  baseAmount := 0
  quoteAmount := some usd
  reason := "scalp " ++ if a.isBuy then "long" else "short"

/-- What flattens a position. -/
def flatten (p : Position) : Intent where
  symbol := a.coin
  side := if 0 < p.size then .sell else .buy
  baseAmount := |p.size|
  reason := "scalp close"

/-- `f"scalp:{what}:{args.coin}:{int(time.time())}"` -/
def origin (what : String) (now : ℚ) : String :=
  let seconds := if 0 ≤ now then ⌊now⌋ else ⌈now⌉
  s!"scalp:{what}:{a.coin}:{seconds}"

/-- What `_place_stop` is asked for. -/
def stopOrder (mid : ℚ) (f : Fill) : StopOrder where
  coin := a.coin
  isBuy := !a.isBuy
  size := f.baseAmount
  triggerPx := a.stopPx mid
  reduceOnly := true

end Args

variable (texts : Texts) (sha256 : String → List Char) (a : Args)

/-- The executor, for an entry or for a close. -/
def executor (reduceOnly : Bool) : HlTwoPhaseExecutor where
  texts := texts
  maxNotionalUsd := a.cap
  reduceOnly := reduceOnly
  sha256 := sha256

/-- `place_order` -/
def placeOrder (x : HlTwoPhaseExecutor) (intent : Intent) (originId : String) :
    Run (Except Raised OrderHandle) := do
  match ← ask .market with
  | .error e => return .error e
  | .ok info =>
      match x.orderFor info intent originId with
      | .error e => return .error e
      | .ok order =>
          match ← ask (.order order) with
          | .error (.bitso e) => return .error (.bitso e)
          | .error (.other message) =>
              return .error (.bitso ⟨.indeterminate, "network", message, 0⟩)
          | .ok reply => return HlTwoPhaseExecutor.handle reply intent originId order.coin

/-- `reconcile` -/
def reconcile (x : HlTwoPhaseExecutor) (handle : OrderHandle) (symbol : String) :
    Run (Except Raised ReconcileResult) := do
  match ← ask (.fills (originToCloid x.sha256 handle.originId)) with
  | .error e => return .error e
  | .ok fills => return .ok (HlTwoPhaseExecutor.reconciled fills handle symbol)

/-- How a call of the manager is carried out. -/
def carried (x : HlTwoPhaseExecutor) : (op : Orders.Op) → Run (Orders.Ret op)
  | .place r intent => placeOrder x intent r.originId
  | .reconcile handle symbol => reconcile x handle symbol
  | op => ask (.manager op)

/-- The exchange is built, the journal is read, and the intent submitted. -/
def send (reduceOnly : Bool) (what : String) (intent : Intent) : Run Outcome := do
  returned (← ask .build)
  returned (← ask .journal)
  let now ← ask .clock
  (submit intent (a.origin what now) a.coin 3).carry (carried (executor texts sha256 a reduceOnly))

/-- The close path. -/
def closing : Run Ended := do
  let positions ← returned (← ask .positions)
  match positions.find? fun p => p.coin = a.coin ∧ 0 < |p.size| with
  | none => return .noPosition
  | some p =>
      if a.send then return .closed (← send texts sha256 a true "close" (a.flatten p))
      else return .dryRun

/-- `_place_stop`, in its `try`. -/
def placeStop (o : StopOrder) : Run (Except Raised Unit) :=
  Prog.tryCatch (do
    returned (← ask .build)
    returned (← ask (.stop o))
    return .ok ()) fun e => return .error e

/-- The stop of a fill. -/
def protect (mid : ℚ) (out : Outcome) : Run (Option (Except Raised Unit)) :=
  match out.fill with
  | none => return none
  | some f => return some (← placeStop (a.stopOrder mid f))

/-- The entry is sent, and its stop behind it. -/
def fire (mid usd : ℚ) : Run Ended := do
  let out ← send texts sha256 a false "open" (a.entry usd)
  let stop ← protect a mid out
  let _ ← returned (← ask .positions)
  return .fired out stop

/-- The clock against the venue's, if that has a time. -/
def skewOf (serverMs : ℤ) : Run (Option ℚ) :=
  if serverMs = 0 then return none
  else do
    let now : ℚ ← ask .clock
    return some |now - serverMs / 1000|

/-- The open path. -/
def opening (collateral mid : ℚ) : Run Ended :=
  match a.usd.filter (· ≠ 0) with
  | none => return .noNotional
  | some usd =>
      if a.overLeverage usd collateral then return .refused
      else do
        let serverMs ← returned (← ask .serverTime)
        let skew ← skewOf serverMs
        let now ← ask .clock
        let report ← (Service.runPreflight (a.inputs collateral now skew)).carry
          fun c => ask (.preflight c)
        if report.ready then do
          let info ← returned (← ask .market)
          let preview ← returned
            (HyperliquidExecutor.previewOrder { texts := texts, maxNotionalUsd := some a.cap } info
              (a.entry usd) (some mid) (2 / 100) false)
          if preview.ok then
            if a.send then fire texts sha256 a mid usd else return .dryRun
          else return .notPreviewed preview.reason
        else return .safeHalted

def main : Run Ended := do
  returned (← ask .credentials)
  let collateral ← returned (← ask .collateral)
  let info ← returned (← ask .market)
  let mid ← returned (HyperliquidExecutor.price info a.coin none)
  if a.close then closing texts sha256 a else opening texts sha256 a collateral mid

/-! ## What may be sent after what -/

/-- The calls so far, with their replies. -/
abbrev History := List (Σ call : Call, Reply call)

/-- The call sends something to the venue. -/
def Call.sends : Call → Bool
  | .order _ | .stop _ => true
  | _ => false

def Call.isStop : Call → Bool
  | .stop _ => true
  | _ => false

/-- This was answered to this call. -/
def Answered (es : History) (call : Call) (r : Reply call) : Prop :=
  (⟨call, r⟩ : Σ call, Reply call) ∈ es

/-- What the script starts from. -/
def Starts (es : History) (collateral mid : ℚ) : Prop :=
  ∃ info rest, info.allMids.get? a.coin = some mid ∧
    es = ([⟨.credentials, .ok ()⟩, ⟨.collateral, .ok collateral⟩, ⟨.market, .ok info⟩] :
      History) ++ rest

/-- The last answer is this reading of the market. -/
def Reads (es : History) (info : HyperliquidInfo) : Prop :=
  ∃ before : History, es = before ++ [⟨.market, .ok info⟩]

/-- The entry of `usd` is through the guards. -/
structure Cleared (es : History) (collateral usd : ℚ) : Prop where
  opens : a.close = false
  sends : a.send = true
  asked : a.usd = some usd
  collateral_pos : 0 < collateral
  leverage : usd ≤ (a.cappedLev + eps) * collateral
  clock : ∃ (server : ℤ) (now : ℚ), Answered es .serverTime (.ok server) ∧ Answered es .clock now ∧
    |now - server / 1000| ≤ 5
  journal : Answered es (.preflight (.probe "state/hl_live")) (.ok true)

/-- The position is open, and to be closed. -/
structure ToClose (es : History) (p : Position) : Prop where
  closes : a.close = true
  sends : a.send = true
  listed : ∃ positions, Answered es .positions (.ok positions) ∧ p ∈ positions
  coin : p.coin = a.coin
  held : p.size ≠ 0

/-- The record with this id is the one of the run, or the one it found in its place. -/
def OfRun (what : String) (es : History) (id : String) : Prop :=
  ∃ now, Answered es .clock now ∧ (id = a.origin what now ∨
    ∃ r, Answered es (.manager (.get (a.origin what now))) (some r) ∧ id = r.originId)

/-- What was filled: the sum of what the venue lists under the client id of the order, or what its
record had already. -/
inductive Filled (what : String) (es : History) (f : Fill) : Prop
  | listed {id : String} {fills : List HlTwoPhaseExecutor.VenueFill} : OfRun a what es id →
      Answered es (.fills (originToCloid sha256 id)) (.ok fills) → fills ≠ [] →
      f.baseAmount = (fills.map HlTwoPhaseExecutor.VenueFill.sz).sum → Filled what es f
  | kept {now : ℚ} {r : OrderRecord} {d : FillDict} : Answered es .clock now →
      Answered es (.manager (.get (a.origin what now))) (some r) → r.fill = some d →
      d.toFill = some f → Filled what es f

/-- No stop has been sent. -/
def NoStop (es : History) : Prop := ∀ e ∈ es, e.1.isStop = false

inductive May (es : History) : Call → Prop
  | read {call : Call} : call.sends = false → May es call
  | entry {collateral mid usd : ℚ} {info : HyperliquidInfo} {origin : String} {o : SentOrder} :
      Starts a es collateral mid → Cleared a es collateral usd → Reads es info →
      (executor texts sha256 a false).orderFor info (a.entry usd) origin = .ok o → May es (.order o)
  | flatten {p : Position} {info : HyperliquidInfo} {origin : String} {o : SentOrder} :
      ToClose a es p → Reads es info →
      (executor texts sha256 a true).orderFor info (a.flatten p) origin = .ok o → May es (.order o)
  | stop {collateral mid usd : ℚ} {f : Fill} : Starts a es collateral mid →
      Cleared a es collateral usd → Filled sha256 a "open" es f → NoStop es →
      May es (.stop (a.stopOrder mid f))

/-! ## What was answered stays answered -/

section Grows
variable {sha256 a} {es es' : History}

theorem Answered.mono {call : Call} {r : Reply call} (h : Answered es call r) (hes : es <+: es') :
    Answered es' call r :=
  hes.subset h

theorem Answered.last (es : History) (call : Call) (r : Reply call) :
    Answered (es ++ [⟨call, r⟩]) call r :=
  List.mem_append_right es List.mem_cons_self

theorem Starts.mono {collateral mid : ℚ} (h : Starts a es collateral mid) (hes : es <+: es') :
    Starts a es' collateral mid := by
  obtain ⟨info, rest, hmid, rfl⟩ := h
  obtain ⟨more, rfl⟩ := hes
  exact ⟨info, rest ++ more, hmid, List.append_assoc _ _ _⟩

theorem Cleared.mono {collateral usd : ℚ} (h : Cleared a es collateral usd) (hes : es <+: es') :
    Cleared a es' collateral usd := by
  obtain ⟨server, now, hserver, hnow, hskew⟩ := h.clock
  exact { h with
    clock := ⟨server, now, hserver.mono hes, hnow.mono hes, hskew⟩
    journal := h.journal.mono hes }

theorem Filled.mono {what : String} {f : Fill} (h : Filled sha256 a what es f) (hes : es <+: es') :
    Filled sha256 a what es' f := by
  cases h with
  | listed hrun hfills hne hsum =>
      obtain ⟨now, hnow, hid⟩ := hrun
      refine .listed ⟨now, hnow.mono hes, ?_⟩ (hfills.mono hes) hne hsum
      exact hid.imp_right fun ⟨r, hr, hid⟩ => ⟨r, hr.mono hes, hid⟩
  | kept hnow hr hd hf => exact .kept (hnow.mono hes) (hr.mono hes) hd hf

theorem ToClose.mono {p : Position} (h : ToClose a es p) (hes : es <+: es') : ToClose a es' p := by
  obtain ⟨positions, hlisted, hp⟩ := h.listed
  exact { h with listed := ⟨positions, hlisted.mono hes, hp⟩ }

end Grows

/-! ## The functions, one by one -/

section Keeps
variable {texts sha256 a}

/-- The calls grew from `es`, with no stop among them. -/
structure Grown (es es' : History) : Prop where
  grown : es <+: es'
  noStop : NoStop es'

theorem Grown.refl {es : History} (h : NoStop es) : Grown es es := ⟨List.prefix_refl es, h⟩

theorem Grown.snoc {es es' : History} (h : Grown es es') (call : Call) (r : Reply call)
    (hcall : call.isStop = false) : Grown es (es' ++ [⟨call, r⟩]) := by
  refine ⟨h.grown.trans (List.prefix_append _ _), ?_⟩
  intro e he
  rcases List.mem_append.mp he with he | he
  · exact h.noStop e he
  · cases List.mem_singleton.mp he
    exact hcall

variable (texts sha256 a) in
/-- What may be called, after all that was called. -/
abbrev rules : Protocol Call Reply History := ofHistory (May texts sha256 a)

/-- A call that may raise, and what is done with its answer. -/
theorem returned_keeps {es : History} {A B : Type} {x : Except Raised A} {f : A → Run B}
    {Q : History → Except Raised B → Prop}
    (hok : ∀ v, x = .ok v → (rules texts sha256 a).Keeps es (f v) Q)
    (herr : ∀ e, Q es (.error e)) :
    (rules texts sha256 a).Keeps es (returned x >>= f) Q := by
  cases x with
  | ok v => exact hok v rfl
  | error e => exact herr e

/-! ### One submission -/

/-- A reply that the manager was given, as it was come by. -/
def Shown (sha256 : String → List Char) (es : History) : (op : Orders.Op) → Orders.Ret op → Prop
  | .get o, r => Answered es (.manager (.get o)) r
  | .reconcile handle _, .ok (.fill f) => ∃ fills,
      Answered es (.fills (originToCloid sha256 handle.originId)) (.ok fills) ∧ fills ≠ [] ∧
        f.baseAmount = (fills.map HlTwoPhaseExecutor.VenueFill.sz).sum
  | _, _ => True

theorem Shown.mono {es es' : History} {op : Orders.Op} {r : Orders.Ret op}
    (h : Shown sha256 es op r) (hes : es <+: es') : Shown sha256 es' op r := by
  cases op with
  | get o => exact Answered.mono h hes
  | reconcile handle symbol =>
      rcases r with e | ⟨f⟩ | reason
      · trivial
      · obtain ⟨fills, hfills, hne, hsum⟩ := h
        exact ⟨fills, hfills.mono hes, hne, hsum⟩
      · trivial
  | _ => trivial

/-- The manager's calls, and what was called for them. -/
structure Mirrors (sha256 : String → List Char) (now : ℚ) (es : History)
    (upper : Submitted.History) (lower : History) : Prop where
  grown : Grown es lower
  clock : Answered lower .clock now
  shown : ∀ op r, (⟨op, r⟩ : Σ op, Orders.Ret op) ∈ upper → Shown sha256 lower op r

theorem Mirrors.snoc {now : ℚ} {es lower lower' : History} {upper : Submitted.History}
    (h : Mirrors sha256 now es upper lower) (hgrown : Grown lower lower') (op : Orders.Op)
    (r : Orders.Ret op) (hshown : Shown sha256 lower' op r) :
    Mirrors sha256 now es (upper ++ [⟨op, r⟩]) lower' := by
  refine ⟨⟨h.grown.grown.trans hgrown.grown, hgrown.noStop⟩, h.clock.mono hgrown.grown, ?_⟩
  intro op' r' hmem
  rcases List.mem_append.mp hmem with hmem | hmem
  · exact (h.shown op' r' hmem).mono hgrown.grown
  · cases List.mem_singleton.mp hmem
    exact hshown

/-- A call of the manager that is carried out as it is. -/
theorem Mirrors.manager {now : ℚ} {es lower : History} {upper : Submitted.History}
    (h : Mirrors sha256 now es upper lower) (op : Orders.Op) (r : Orders.Ret op)
    (hshown : Shown sha256 (lower ++ [⟨.manager op, r⟩]) op r) :
    Mirrors sha256 now es (upper ++ [⟨op, r⟩]) (lower ++ [⟨.manager op, r⟩]) :=
  h.snoc ((Grown.refl h.grown.noStop).snoc (.manager op) r rfl) op r hshown

/-- The fill that the manager knows is one that was filled. -/
theorem Mirrors.filled {what : String} {now : ℚ} {es lower : History} {upper : Submitted.History}
    (h : Mirrors sha256 now es upper lower) {f : Fill}
    (hf : Submitted.Known (a.origin what now) upper f) : Filled sha256 a what lower f := by
  cases hf with
  | said hours hsaid =>
      obtain ⟨fills, hfills, hne, hsum⟩ := h.shown _ _ hsaid
      refine .listed ⟨now, h.clock, ?_⟩ hfills hne hsum
      rcases hours.cases with hasked | ⟨r, hfound, hid⟩
      · exact Or.inl hasked
      · exact Or.inr ⟨r, h.shown _ _ hfound, hid⟩
  | kept hfound hd hf => exact .kept h.clock (h.shown _ _ hfound) hd hf

/-- `place_order` sends what the gate lets through at the market it reads. -/
theorem placeOrder_keeps {x : HlTwoPhaseExecutor} {intent : Intent} {origin : String}
    {es : History} (hes : NoStop es)
    (hgate : ∀ es' info o, es <+: es' → Reads es' info → x.orderFor info intent origin = .ok o →
      May texts sha256 a es' (.order o)) :
    (rules texts sha256 a).Keeps es (placeOrder x intent origin) fun es' _ => Grown es es' := by
  refine ⟨.read rfl, ?_⟩
  intro reply
  have hread := (Grown.refl hes).snoc .market reply rfl
  cases reply with
  | error e => exact hread
  | ok info =>
      show Keeps _ _ (match x.orderFor info intent origin with | .error e => _ | .ok order => _) _
      cases horder : x.orderFor info intent origin with
      | error e => exact hread
      | ok order =>
          refine ⟨hgate _ info order hread.grown ⟨es, rfl⟩ horder, ?_⟩
          intro answer
          have hsent := hread.snoc (.order order) answer rfl
          rcases answer with (e | message) | reply
          · exact hsent
          · exact hsent
          · exact hsent

theorem reconcile_keeps {x : HlTwoPhaseExecutor} {handle : OrderHandle} {symbol : String}
    {es : History} (hes : NoStop es) :
    (rules texts sha256 a).Keeps es (reconcile x handle symbol) fun es' r => match r with
      | .ok r => Grown es es' ∧ Shown x.sha256 es' (.reconcile handle symbol) r
      | .error _ => False := by
  refine ⟨.read rfl, ?_⟩
  intro reply
  have hread := (Grown.refl hes).snoc (.fills (originToCloid x.sha256 handle.originId)) reply rfl
  cases reply with
  | error e => exact ⟨hread, trivial⟩
  | ok fills =>
      refine ⟨hread, ?_⟩
      by_cases hne : fills = []
      · simp [HlTwoPhaseExecutor.reconciled, hne, Shown]
      · simp only [HlTwoPhaseExecutor.reconciled, if_neg hne]
        exact ⟨fills, Answered.last _ _ _, hne, rfl⟩

variable (sha256 a) in
/-- A submission ends with no stop sent, and a fill that it returns was filled. -/
def Sent (what : String) (es es' : History) (r : Except Raised Outcome) : Prop :=
  Grown es es' ∧ ∀ out, r = .ok out → ∀ f, out.fill = some f → Filled sha256 a what es' f

/-- One that raises returns no fill. -/
theorem Grown.raised {what : String} {es es' : History} {e : Raised} (h : Grown es es') :
    Sent sha256 a what es es' (.error e) := by
  refine ⟨h, ?_⟩
  intro out hout
  cases hout

theorem send_keeps {reduceOnly : Bool} {what : String} {intent : Intent} {es : History}
    (hes : NoStop es)
    (hgate : ∀ es' info origin o, es <+: es' → Reads es' info →
      (executor texts sha256 a reduceOnly).orderFor info intent origin = .ok o →
      May texts sha256 a es' (.order o)) :
    (rules texts sha256 a).Keeps es (send texts sha256 a reduceOnly what intent)
      (Sent sha256 a what es) := by
  refine ⟨.read rfl, fun built => ?_⟩
  have hbuilt := (Grown.refl hes).snoc .build built rfl
  refine returned_keeps (fun _ _ => ⟨.read rfl, fun opened => ?_⟩) fun e => hbuilt.raised
  have hopened := hbuilt.snoc .journal opened rfl
  refine returned_keeps (fun _ _ => ⟨.read rfl, fun now => ?_⟩) fun e => hopened.raised
  have hclock := hopened.snoc .clock now rfl
  have hstart : Mirrors sha256 now es [] (es ++ [⟨.build, built⟩] ++ [⟨.journal, opened⟩] ++
      [⟨.clock, now⟩]) :=
    ⟨hclock, Answered.last _ .clock now, fun op r h => absurd h List.not_mem_nil⟩
  refine Keeps.carry ?_ ?_ hstart (Submitted.submit_keeps 3)
  · intro upper lower op hm hmay
    cases op with
    | place r i =>
        obtain ⟨rfl, -⟩ := hmay
        refine (placeOrder_keeps hm.grown.noStop ?_).mono ?_
        · intro es' info o hes' hreads horder
          exact hgate es' info _ o (hm.grown.grown.trans hes') hreads horder
        · rintro es' (e | reply) hes'
          · exact Grown.raised ⟨hm.grown.grown.trans hes'.grown, hes'.noStop⟩
          · exact hm.snoc hes' _ _ trivial
    | reconcile handle symbol =>
        refine (reconcile_keeps hm.grown.noStop).mono ?_
        rintro es' (e | reply) hes'
        · exact hes'.elim
        · exact hm.snoc hes'.1 _ _ hes'.2
    | get o => exact ⟨.read rfl, fun r => hm.manager (.get o) r (Answered.last _ _ r)⟩
    | ids => exact ⟨.read rfl, fun r => hm.manager .ids r trivial⟩
    | item o => exact ⟨.read rfl, fun r => hm.manager (.item o) r trivial⟩
    | store kept => exact ⟨.read rfl, fun r => hm.manager (.store kept) r trivial⟩
    | append event kept => exact ⟨.read rfl, fun r => hm.manager (.append event kept) r trivial⟩
    | checkpoint => exact ⟨.read rfl, fun r => hm.manager .checkpoint r trivial⟩
  · rintro upper lower (e | out) hm htells
    · exact hm.grown.raised
    · refine ⟨hm.grown, ?_⟩
      rintro out' hout f hf
      cases hout
      exact hm.filled (htells f hf)

/-! ### The two paths -/

theorem placeStop_keeps {es : History} {o : StopOrder} (hes : NoStop es)
    (hmay : ∀ es', Grown es es' → May texts sha256 a es' (.stop o)) :
    (rules texts sha256 a).Keeps es (placeStop o) fun es' r => ∃ placed, r = .ok placed ∧
      es <+: es' ∧ (Answered es' (.stop o) placed ∨
        ∃ e, placed = .error e ∧ Answered es' .build (.error e)) := by
  refine keeps_tryCatch ⟨.read rfl, fun built => ?_⟩
  have hbuilt := (Grown.refl hes).snoc .build built rfl
  cases built with
  | error e =>
      exact ⟨.error e, rfl, hbuilt.grown, Or.inr ⟨e, rfl, Answered.last es .build _⟩⟩
  | ok u =>
      refine ⟨hmay _ hbuilt, fun placed => ?_⟩
      have hgrown := hbuilt.grown.trans (List.prefix_append _ [⟨.stop o, placed⟩])
      cases placed with
      | error e => exact ⟨.error e, rfl, hgrown, Or.inl (Answered.last _ (.stop o) _)⟩
      | ok u => exact ⟨.ok u, rfl, hgrown, Or.inl (Answered.last _ (.stop o) _)⟩

variable (a) in
/-- The fill of the entry has its stop sent, or the exchange could not be built. -/
def Stopped (es : History) (out : Outcome) (stop : Option (Except Raised Unit)) : Prop :=
  ∀ f, out.fill = some f → ∃ placed, stop = some placed ∧
    ((∃ collateral mid, Starts a es collateral mid ∧
        Answered es (.stop (a.stopOrder mid f)) placed) ∨
      ∃ e, placed = .error e ∧ Answered es .build (.error e))

theorem Stopped.mono {es es' : History} {out : Outcome} {stop : Option (Except Raised Unit)}
    (h : Stopped a es out stop) (hes : es <+: es') : Stopped a es' out stop := by
  intro f hf
  obtain ⟨placed, hstop, ⟨collateral, mid, hstarts, hsent⟩ | ⟨e, hplaced, hbuild⟩⟩ := h f hf
  · exact ⟨placed, hstop, Or.inl ⟨collateral, mid, hstarts.mono hes, hsent.mono hes⟩⟩
  · exact ⟨placed, hstop, Or.inr ⟨e, hplaced, hbuild.mono hes⟩⟩

theorem protect_keeps {es : History} {collateral mid usd : ℚ} {out : Outcome} (hes : NoStop es)
    (hstarts : Starts a es collateral mid) (hcleared : Cleared a es collateral usd)
    (hfilled : ∀ f, out.fill = some f → Filled sha256 a "open" es f) :
    (rules texts sha256 a).Keeps es (protect a mid out) fun es' r =>
      ∃ stop, r = .ok stop ∧ Stopped a es' out stop := by
  unfold protect
  cases hfill : out.fill with
  | none =>
      refine ⟨none, rfl, ?_⟩
      intro f hf
      rw [hfill] at hf
      cases hf
  | some f =>
      refine keeps_bind ((placeStop_keeps hes ?_).mono ?_)
      · intro es' hes'
        exact .stop (hstarts.mono hes'.grown) (hcleared.mono hes'.grown)
          ((hfilled f hfill).mono hes'.grown) hes'.noStop
      · rintro es' r ⟨placed, rfl, hes', hplaced⟩
        refine ⟨some placed, rfl, ?_⟩
        intro f' hf'
        rw [hfill] at hf'
        cases hf'
        exact ⟨placed, rfl, hplaced.imp_left fun h => ⟨collateral, mid, hstarts.mono hes', h⟩⟩

variable (a) in
/-- How a run may end. -/
def Protects (es : History) : Except Raised Ended → Prop
  | .ok (.fired out stop) => Stopped a es out stop
  | _ => True

theorem closing_keeps {es : History} (hes : NoStop es) (hclose : a.close = true) :
    (rules texts sha256 a).Keeps es (closing texts sha256 a) (Protects a) := by
  refine ⟨.read rfl, fun reply => ?_⟩
  have hread := (Grown.refl hes).snoc .positions reply rfl
  refine returned_keeps (fun positions hreply => ?_) fun _ => trivial
  show Keeps _ _ (match positions.find? _ with | none => _ | some p => _) _
  cases hfind : positions.find? fun p => p.coin = a.coin ∧ 0 < |p.size| with
  | none => exact trivial
  | some p =>
      have hp : p.coin = a.coin ∧ 0 < |p.size| := by simpa using List.find?_some hfind
      by_cases hsend : a.send = true
      · simp only [hsend, if_true]
        have hto : ToClose a (es ++ [⟨.positions, reply⟩]) p := {
          closes := hclose
          sends := hsend
          listed := ⟨positions, hreply ▸ Answered.last _ _ _, List.mem_of_find?_eq_some hfind⟩
          coin := hp.1
          held := abs_pos.mp hp.2 }
        refine keeps_bind ((send_keeps hread.noStop ?_).mono ?_)
        · intro es' info origin o hes' hreads horder
          exact .flatten (hto.mono hes') hreads horder
        · rintro es' (e | out) -
          · exact trivial
          · exact trivial
      · simp only [hsend]
        exact trivial

theorem fire_keeps {es : History} {collateral mid usd : ℚ} (hes : NoStop es)
    (hstarts : Starts a es collateral mid) (hcleared : Cleared a es collateral usd) :
    (rules texts sha256 a).Keeps es (fire texts sha256 a mid usd) (Protects a) := by
  refine keeps_bind ((send_keeps hes ?_).mono ?_)
  · intro es' info origin o hes' hreads horder
    exact .entry (hstarts.mono hes') (hcleared.mono hes') hreads horder
  · rintro es' (e | out) ⟨hgrown, hfilled⟩
    · trivial
    · refine keeps_bind ((protect_keeps hgrown.noStop (hstarts.mono hgrown.grown)
        (hcleared.mono hgrown.grown) (hfilled out rfl)).mono ?_)
      rintro es'' r ⟨stop, rfl, hstop⟩
      refine ⟨.read rfl, fun reply => returned_keeps (fun _ _ => ?_) fun _ => trivial⟩
      exact hstop.mono (List.prefix_append _ _)

theorem leverage_of_not_over {usd collateral : ℚ} (h : a.overLeverage usd collateral = false) :
    0 < collateral ∧ usd ≤ (a.cappedLev + eps) * collateral := by
  unfold Args.overLeverage at h
  split at h
  · next hpos =>
      have hle : usd / collateral ≤ a.cappedLev + eps := not_lt.mp (of_decide_eq_false h)
      exact ⟨hpos, (div_le_iff₀ hpos).mp hle⟩
  · cases h

theorem skewOf_keeps {es : History} {serverMs : ℤ} (hes : NoStop es) :
    (rules texts sha256 a).Keeps es (skewOf serverMs) fun es' r => ∃ skew, r = .ok skew ∧
      Grown es es' ∧ ∀ s, skew = some s →
        ∃ now : ℚ, Answered es' .clock now ∧ s = |now - serverMs / 1000| := by
  unfold skewOf
  split
  · exact ⟨none, rfl, Grown.refl hes, fun s hs => by cases hs⟩
  · refine ⟨.read rfl, fun now => ⟨_, rfl, (Grown.refl hes).snoc .clock now rfl, ?_⟩⟩
    intro s hs
    cases hs
    exact ⟨now, Answered.last _ .clock now, rfl⟩

/-- The preflight is ready only if the directory of the journal can be written and the clock is
known to be right. -/
theorem preflight_keeps {es : History} {collateral now : ℚ} {skew : Option ℚ} (hes : NoStop es) :
    (rules texts sha256 a).Keeps es
      ((Service.runPreflight (a.inputs collateral now skew)).carry fun c => ask (.preflight c))
      fun es' r => Grown es es' ∧ ∀ report, r = .ok report → report.ready = true →
        Answered es' (.preflight (.probe "state/hl_live")) (.ok true) ∧
          ∃ s, skew = some s ∧ |s| ≤ 5 := by
  refine ⟨.read rfl, fun wrote => ?_⟩
  have hgrown := (Grown.refl hes).snoc (.preflight (.probe "state/hl_live")) wrote rfl
  rcases wrote with e | wrote
  · exact ⟨hgrown, fun report hreport => by cases hreport⟩
  · refine ⟨hgrown, ?_⟩
    intro report hreport hready
    cases hreport
    have hall := of_decide_eq_true hready
    simp only [ite_eq_left_iff, reduceCtorEq, imp_false, not_not, List.all_eq_true] at hall
    obtain rfl : wrote = true := hall ⟨"journal_writable", wrote⟩ (by simp)
    have hskew := hall ⟨"clock_skew_bounded", ∃ s ∈ skew, |s| ≤ 5⟩ (by simp [Args.inputs])
    obtain ⟨s, hs, hle⟩ := of_decide_eq_true hskew
    exact ⟨Answered.last _ _ _, s, hs, hle⟩

theorem opening_keeps {es : History} {collateral mid : ℚ} (hes : NoStop es)
    (hstarts : Starts a es collateral mid) (hopens : a.close = false) :
    (rules texts sha256 a).Keeps es (opening texts sha256 a collateral mid) (Protects a) := by
  unfold opening
  cases husd : a.usd.filter (· ≠ 0) with
  | none => trivial
  | some usd =>
      have hasked : a.usd = some usd := (Option.filter_eq_some_iff.mp husd).1
      show Keeps _ _ (if _ then _ else _) _
      by_cases hover : a.overLeverage usd collateral = true
      · simp only [hover, if_true]
        trivial
      · obtain ⟨hpos, hleverage⟩ := leverage_of_not_over (Bool.eq_false_iff.mpr hover)
        rw [if_neg hover]
        refine ⟨.read rfl, fun server => ?_⟩
        have hserver := (Grown.refl hes).snoc .serverTime server rfl
        refine returned_keeps (fun serverMs hms => ?_) fun _ => trivial
        have hasksServer : Answered (es ++ [⟨.serverTime, server⟩]) .serverTime (.ok serverMs) :=
          hms ▸ Answered.last es .serverTime server
        refine keeps_bind ((skewOf_keeps hserver.noStop).mono ?_)
        rintro es₁ r ⟨skew, rfl, hes₁, hskew⟩
        refine ⟨.read rfl, fun now => ?_⟩
        have hnow := hes₁.snoc .clock now rfl
        show Keeps _ _ (Prog.carry _ (Service.runPreflight _) >>= _) _
        refine keeps_bind ((preflight_keeps hnow.noStop).mono ?_)
        rintro es₂ (e | report) ⟨hes₂, hready⟩
        · trivial
        · show Keeps _ _ (if _ then _ else _) _
          by_cases hr : report.ready = true
          · obtain ⟨hjournal, s, rfl, hle⟩ := hready report rfl hr
            obtain ⟨thence, hthence, rfl⟩ := hskew s rfl
            have hto := hnow.grown.trans hes₂.grown
            rw [if_pos hr]
            refine ⟨.read rfl, fun reading => ?_⟩
            have hread := hes₂.snoc .market reading rfl
            refine returned_keeps (fun info _ => ?_) fun _ => trivial
            refine returned_keeps (fun preview _ => ?_) fun _ => trivial
            by_cases hok : preview.ok = true
            · by_cases hsend : a.send = true
              · simp only [hok, hsend, if_true]
                have hlast := List.prefix_append es₂ [⟨.market, reading⟩]
                have hall := hto.trans hlast
                have hclock : Answered _ .clock thence :=
                  (hthence.mono (List.prefix_append es₁ [⟨.clock, now⟩])).mono
                    (hes₂.grown.trans hlast)
                refine fire_keeps hread.noStop (hstarts.mono (hserver.grown.trans hall)) ?_
                exact {
                  opens := hopens
                  sends := hsend
                  asked := hasked
                  collateral_pos := hpos
                  leverage := hleverage
                  clock :=
                    ⟨serverMs, thence, hasksServer.mono hall, hclock, by simpa using hle⟩
                  journal := hjournal.mono (List.prefix_append _ _) }
              · simp only [hok, hsend]
                trivial
            · simp only [hok]
              trivial
          · rw [if_neg hr]
            trivial

variable (texts sha256 a) in
theorem main_keeps : (rules texts sha256 a).Keeps [] (main texts sha256 a) (Protects a) := by
  refine ⟨.read rfl, fun got => returned_keeps (fun u hu => ?_) fun _ => trivial⟩
  refine ⟨.read rfl, fun held => returned_keeps (fun collateral hc => ?_) fun _ => trivial⟩
  refine ⟨.read rfl, fun reading => returned_keeps (fun info hi => ?_) fun _ => trivial⟩
  refine returned_keeps (fun mid hmid => ?_) fun _ => trivial
  subst hu hc hi
  have hstop : NoStop ([] ++ [⟨.credentials, .ok u⟩] ++ [⟨.collateral, .ok collateral⟩] ++
      [⟨.market, .ok info⟩]) := by
    simp [NoStop, Call.isStop]
  have hprice : info.allMids.get? a.coin = some mid := by
    unfold HyperliquidExecutor.price at hmid
    cases hget : info.allMids.get? a.coin with
    | none => simp [hget] at hmid
    | some m => simpa [hget] using hmid
  by_cases hclose : a.close = true
  · simp only [hclose, if_true]
    exact closing_keeps hstop hclose
  · simp only [hclose]
    exact opening_keeps hstop ⟨info, [], hprice, rfl⟩ (Bool.eq_false_iff.mpr hclose)

end Keeps

/-! ## What is sent -/

section Sent
variable {texts sha256 a}

/-- How far a size on the wire may be from the one asked for: half a lot, and the last digits. -/
def lotSlack (szDecimals : ℤ) : ℚ := 1 / 2 / 10 ^ szDecimals + 1 / 10 ^ 12

variable (a) in
/-- The entry, as it goes out: its size is rounded to the lots of the coin in the universe that was
read last. -/
structure Opens (es : History) (usd : ℚ) (o : SentOrder) : Prop where
  isBuy : o.isBuy = a.isBuy
  reduceOnly : o.reduceOnly = false
  minimum : minNotionalUsd - eps ≤ usd
  cap : usd ≤ a.cap + eps
  size : ∃ info mid index szDecimals, Reads es info ∧ info.allMids.get? a.coin = some mid ∧
    HyperliquidExecutor.assetOf info.perpUniverse a.coin = some (index, szDecimals) ∧
    |o.sz - usd / mid| ≤ lotSlack szDecimals

variable (a) in
/-- What flattens a position, as it goes out. -/
structure Closes (es : History) (p : Position) (o : SentOrder) : Prop where
  isBuy : o.isBuy = decide (p.size < 0)
  reduceOnly : o.reduceOnly = true
  size : ∃ info index szDecimals, Reads es info ∧
    HyperliquidExecutor.assetOf info.perpUniverse a.coin = some (index, szDecimals) ∧
    |o.sz - abs p.size| ≤ lotSlack szDecimals

theorem Sends.size_slack {x : HlTwoPhaseExecutor} {info : HyperliquidInfo} {intent : Intent}
    {o : SentOrder} {asked : HyperliquidExecutor.Asked} {index : ℕ} {szDecimals : ℤ} {p s : ℚ}
    (h : HlTwoPhaseExecutor.Sends x info intent o asked index szDecimals p s) :
    |o.sz - asked.sz| ≤ lotSlack szDecimals := by
  have hlot := Decimal.abs_roundAt_sub_le asked.sz szDecimals
  have hwire := h.size_close
  rw [← h.size] at hlot
  rw [← h.sz] at hwire
  calc |o.sz - asked.sz| ≤ |o.sz - s| + |s - asked.sz| := abs_sub_le _ _ _
    _ ≤ lotSlack szDecimals := by
        rw [lotSlack]
        linarith

/-- What the guard of the executor lets through. -/
theorem guarded {ex : HyperliquidExecutor} {cap notional : ℚ} {reduceOnly : Bool}
    (hcap : ex.maxNotionalUsd = some cap) (h : ex.guard notional reduceOnly = .ok ()) :
    notional ≤ cap + eps ∧ (reduceOnly = false → minNotionalUsd - eps ≤ notional) := by
  unfold HyperliquidExecutor.guard at h
  rw [hcap] at h
  by_cases hover : cap + eps < notional
  · simp [Option.filter, hover] at h
  · refine ⟨not_lt.mp hover, ?_⟩
    intro hopens
    by_contra hunder
    simp [Option.filter, hover, hopens, not_le.mp hunder] at h

/-- What an order without a limit is asked for. -/
theorem asked_market {info : HyperliquidInfo} {intent : Intent} {slippage : ℚ}
    {asked : HyperliquidExecutor.Asked} (hlimit : intent.limitPrice = none)
    (h : HyperliquidExecutor.asked info intent none slippage = .ok asked) :
    info.allMids.get? intent.symbol = some asked.mid ∧
      (intent.quoteAmount = none → asked.sz = intent.baseAmount) ∧
      ∀ q, intent.quoteAmount = some q → asked.mid ≠ 0 ∧ asked.sz = q / asked.mid := by
  unfold HyperliquidExecutor.asked at h
  simp only [hlimit, Option.isSome_none, Bool.false_eq_true, if_false, HyperliquidExecutor.price,
    bind, Except.bind] at h
  cases hget : info.allMids.get? intent.symbol with
  | none => simp [hget] at h
  | some mid =>
      rw [hget] at h
      cases hquote : intent.quoteAmount with
      | none =>
          simp only [hquote] at h
          cases h
          refine ⟨rfl, fun _ => rfl, ?_⟩
          intro q hq
          cases hq
      | some q =>
          simp only [hquote] at h
          by_cases hmid : mid = 0
          · simp [hmid] at h
          · simp only [hmid, if_false] at h
            cases h
            refine ⟨rfl, ?_, ?_⟩
            · intro hnone
              cases hnone
            · intro q' hq'
              cases hq'
              exact ⟨hmid, rfl⟩

theorem opens_of_order {es : History} {info : HyperliquidInfo} {usd : ℚ} {origin : String}
    {o : SentOrder} (hreads : Reads es info)
    (h : (executor texts sha256 a false).orderFor info (a.entry usd) origin = .ok o) :
    Opens a es usd o := by
  obtain ⟨asked, index, szDecimals, p, s, hs⟩ := HlTwoPhaseExecutor.sent_eq h
  obtain ⟨hmid, -, hquote⟩ := asked_market rfl hs.asked
  obtain ⟨hne, hsz⟩ := hquote usd rfl
  obtain ⟨hcap, hmin⟩ := guarded rfl hs.guarded
  rw [hsz, div_mul_cancel₀ _ hne] at hcap hmin
  refine ⟨?_, hs.reduceOnly, hmin rfl, hcap, info, asked.mid, index, szDecimals, hreads, hmid,
    hs.asset, ?_⟩
  · rw [hs.side, Args.entry]
    cases a.isBuy with
    | true => rfl
    | false => rfl
  · rw [← hsz]
    exact Sends.size_slack hs

theorem closes_of_order {es : History} {info : HyperliquidInfo} {p : Position} {origin : String}
    {o : SentOrder} (hreads : Reads es info) (hheld : p.size ≠ 0)
    (h : (executor texts sha256 a true).orderFor info (a.flatten p) origin = .ok o) :
    Closes a es p o := by
  obtain ⟨asked, index, szDecimals, px, s, hs⟩ := HlTwoPhaseExecutor.sent_eq h
  obtain ⟨-, hbase, -⟩ := asked_market rfl hs.asked
  refine ⟨?_, hs.reduceOnly, info, index, szDecimals, hreads, hs.asset, ?_⟩
  · rw [hs.side, Args.flatten]
    rcases lt_or_gt_of_ne hheld with hneg | hpos
    · simp [hneg, hneg.le]
    · simp [hpos, hpos.le]
  · have hsz : asked.sz = |p.size| := hbase rfl
    rw [← hsz]
    exact Sends.size_slack hs

variable (sha256 a) in
/-- What may be said of a call by those before it. -/
def Posted (es : History) : Call → Prop
  | .order o =>
      (∃ collateral mid usd, Starts a es collateral mid ∧ Cleared a es collateral usd ∧
        Opens a es usd o) ∨
      ∃ p, ToClose a es p ∧ Closes a es p o
  | .stop o => ∃ collateral mid usd f, Starts a es collateral mid ∧ Cleared a es collateral usd ∧
      Filled sha256 a "open" es f ∧ o = a.stopOrder mid f ∧ NoStop es
  | _ => True

theorem May.posted {es : History} {call : Call} (h : May texts sha256 a es call) :
    Posted sha256 a es call := by
  cases h with
  | read hread =>
      cases call with
      | order o => cases hread
      | stop o => cases hread
      | _ => trivial
  | entry hstarts hcleared hreads horder =>
      exact Or.inl ⟨_, _, _, hstarts, hcleared, opens_of_order hreads horder⟩
  | flatten hto hreads horder =>
      exact Or.inr ⟨_, hto, closes_of_order hreads hto.held horder⟩
  | stop hstarts hcleared hfilled hno => exact ⟨_, _, _, _, hstarts, hcleared, hfilled, rfl, hno⟩

end Sent

variable {σ : Type} (h : σ → (call : Call) → Reply call × σ) (s : σ)

/-- Whatever is answered, an order is an entry that went through the guards or what flattens an open
position, and a stop is for what the entry was filled for; nothing is sent without `--send`. -/
theorem scalp_posts (pre post : History) (call : Call) (r : Reply call)
    (hcut : (main texts sha256 a).calls h s = pre ++ ⟨call, r⟩ :: post) :
    Posted sha256 a pre call := by
  have hfollows := (main_keeps texts sha256 a).follows h s
  rw [hcut] at hfollows
  exact hfollows.may.posted

/-! ### A scalp that is filled -/

/-- Forty-five dollars of Ether on twenty. -/
def aScalp : Args := { usd := some 45, send := true }

/-- Ether at 100, an empty account, and an order that is filled at once. -/
def filling (_ : Unit) : (call : Call) → Reply call × Unit
  | .credentials | .build | .journal | .stop _ => (.ok (), ())
  | .collateral => (.ok 20, ())
  | .market => (.ok ⟨Dict.empty.set "ETH" 100, [("BTC", 5), ("ETH", 4)]⟩, ())
  | .positions => (.ok [], ())
  | .serverTime => (.ok 1700000000000, ())
  | .clock => ((1700000000 : ℚ), ())
  | .preflight (.probe _) => (.ok true, ())
  | .preflight (.halt _) | .preflight (.keep _) => ((), ())
  | .preflight .recover => (.ok [], ())
  | .preflight (.observeData _) => (.ok (), ())
  | .preflight (.step _ _) => (.error (.other ""), ())
  | .manager (.get _) | .manager (.item _) => (none, ())
  | .manager .ids => ([], ())
  | .manager (.store _) | .manager (.append _ _) | .manager .checkpoint => ((), ())
  | .manager (.place _ _) | .manager (.reconcile _ _) => (.error (.other ""), ())
  | .fills _ => (.ok [⟨45 / 100, 102, 1 / 100, 0⟩], ())
  | .order _ => (.ok ⟨"", some (.filled "1")⟩, ())

def scalpCalls : History := (main plainTexts String.toList aScalp).calls filling ()

theorem exists_stop {call : Call} (h : call.isStop = true) : ∃ o, call = .stop o := by
  cases call with
  | stop o => exact ⟨o, rfl⟩
  | _ => cases h

/-- Its twenty-sixth call is a stop. -/
theorem scalp_posts_stop : ∃ pre o r post, scalpCalls = pre ++ ⟨.stop o, r⟩ :: post ∧
    Posted String.toList aScalp pre (.stop o) := by
  have hstop : ((scalpCalls.drop 25).head?.map fun e => e.1.isStop) = some true := by
    decide +kernel
  obtain ⟨⟨call, r⟩, hhead, hcall⟩ := Option.map_eq_some_iff.mp hstop
  obtain ⟨post, hdrop⟩ := List.head?_eq_some_iff.mp hhead
  obtain ⟨o, rfl⟩ := exists_stop hcall
  have hcut : scalpCalls = scalpCalls.take 25 ++ ⟨.stop o, r⟩ :: post := by
    rw [← hdrop, List.take_append_drop]
  exact ⟨_, o, r, post, hcut, scalp_posts _ _ _ _ _ _ _ _ _ hcut⟩

/-- Whatever is answered, a run that returns with a filled entry has sent its stop, or says that
the exchange could not be built. -/
theorem scalp_protected (out : Outcome) (stop : Option (Except Raised Unit))
    (hout : ((main texts sha256 a).eval h s).1 = .ok (.fired out stop)) :
    Stopped a ((main texts sha256 a).calls h s) out stop := by
  have hends := (main_keeps texts sha256 a).history h s
  rw [hout] at hends
  exact hends

/-- A run that was fired, with what was filled. -/
def filledBy : Except Raised Ended → Bool
  | .ok (.fired out _) => out.fill.isSome
  | _ => false

theorem scalp_protected_filled : ∃ out stop f, out.fill = some f ∧
    Stopped aScalp scalpCalls out stop := by
  have hfilled : filledBy ((main plainTexts String.toList aScalp).eval filling ()).1 = true := by
    decide +kernel
  cases hend : ((main plainTexts String.toList aScalp).eval filling ()).1 with
  | error e =>
      rw [hend] at hfilled
      cases hfilled
  | ok ended =>
      rw [hend] at hfilled
      cases ended with
      | fired out stop =>
          obtain ⟨f, hf⟩ := Option.isSome_iff_exists.mp hfilled
          exact ⟨out, stop, f, hf, scalp_protected _ _ _ _ _ _ _ hend⟩
      | _ => cases hfilled

end HlScalp

end TreasuryForge
