/-
# `Live.Service` — preflight, and the process around the supervisor

`run_preflight` of `treasuryforge/preflight.py` and `Service.run` of
`treasuryforge/service.py`.  The service is a program over the calls it makes: the
probe of the journal directory, recovery, the supervisor's `observe_data` and `step`,
and `on_halt`.  Every call but `on_halt` may return or raise, and the feed may raise in
place of an item.

The `try` of `run` holds the loop and nothing before it.  `guarded_failsClosed`
says that the loop fails closed under that `try`, whatever the calls do; `failsClosed_iff`
says that the whole run does so exactly when start-up goes through.  A feed that never
ends never returns; a finite list is the part of it that was read.
-/
import TreasuryForge.Live.Supervisor

namespace TreasuryForge

open Resume Orders

/-! ## Preflight -/

inductive StartupState where
  | ready
  | safeHalted
  deriving DecidableEq, Repr

structure Check where
  name : String
  ok : Bool
  deriving DecidableEq, Repr

structure PreflightInputs where
  mode : Option String
  config : Option PolicyConfig
  journalDir : Option String
  hasCredentials : Bool
  nowWall : ℚ
  exchangeReachable : Bool := true
  dataAgeS : Option ℚ := none
  maxDataAgeS : ℚ := 5
  clockSkewS : Option ℚ := none
  maxClockSkewS : ℚ := 2
  minSaneEpoch : ℚ := 1600000000

structure PreflightReport where
  state : StartupState
  checks : List Check := []
  deriving DecidableEq, Repr

namespace PreflightReport

def ready (r : PreflightReport) : Bool := r.state = .ready

def failures (r : PreflightReport) : List Check := r.checks.filter fun c => !c.ok

end PreflightReport

namespace Service

structure FeedItem where
  tick : MarketTick
  dataWallNs : ℤ
  wallet : SimWallet

/-! ## The calls -/

inductive Call where
  /-- make the directory, write a file in it and remove the file -/
  | probe (path : String)
  /-- `self.on_halt(reason)` -/
  | halt (reason : String)
  /-- `self.supervisor.orders.recover()` -/
  | recover
  | observeData (wallNs : ℤ)
  | step (tick : MarketTick) (wallet : SimWallet)
  /-- `self.steps.append(result)` -/
  | keep (result : StepResult)

/-- The probe answers whether it wrote, `False` for an `OSError`. -/
def Reply : Call → Type
  | .probe _ => Except Raised Bool
  | .halt _ | .keep _ => Unit
  | .recover => Except Raised (List Outcome)
  | .observeData _ => Except Raised Unit
  | .step _ _ => Except Raised StepResult

abbrev M := Prog Call Reply Raised

def ask (c : Call) : M (Reply c) := Prog.ask c

/-- A call that raised raises here. -/
def returned {α : Type} : Except Raised α → M α
  | .ok a => return a
  | .error e => .raise e

/-- How the calls are answered. -/
abbrev Host (σ : Type) := σ → (c : Call) → Reply c × σ

/-! ## `run_preflight` -/

/-- `_journal_writable` -/
def journalWritable : Option String → M Check
  | none => return ⟨"journal_writable", false⟩
  | some path =>
      if path = "" then return ⟨"journal_writable", false⟩
      else do return ⟨"journal_writable", ← returned (← ask (.probe path))⟩

def runPreflight (inp : PreflightInputs) : M PreflightReport := do
  let live : Bool := inp.mode = some "live"
  let journal ← journalWritable inp.journalDir
  let allowed := (inp.config.map PolicyConfig.allowedSymbols).getD []
  let cap := (inp.config.map PolicyConfig.maxNotionalPerTx).getD 0
  let spendCap := inp.config.bind PolicyConfig.maxNotionalPerWindow
  let killSwitch := (inp.config.map PolicyConfig.killSwitch).getD false
  let checks : List Check := [
    ⟨"mode_explicit", inp.mode = some "paper" ∨ inp.mode = some "live"⟩,
    ⟨"config_loaded", inp.config.isSome⟩,
    journal,
    ⟨"credentials_present", inp.hasCredentials⟩,
    ⟨"allowlist_active", 0 < allowed.length⟩,
    ⟨"caps_loaded", 0 < cap ∧ (live = false ∨ spendCap.isSome)⟩,
    ⟨"kill_switch_clear", !killSwitch⟩,
    ⟨"clock_sane", inp.minSaneEpoch ≤ inp.nowWall⟩,
    ⟨"data_feed_fresh", ∃ age ∈ inp.dataAgeS, age ≤ inp.maxDataAgeS⟩] ++
    if live = true then [
      ⟨"clock_skew_bounded", ∃ skew ∈ inp.clockSkewS, |skew| ≤ inp.maxClockSkewS⟩,
      ⟨"exchange_reachable", inp.exchangeReachable⟩]
    else []
  return ⟨if checks.all Check.ok then .ready else .safeHalted, checks⟩

/-! ## `Service.run` -/

inductive ServiceExit where
  | ok
  | safeHalted
  | deadMan
  | error
  deriving DecidableEq, Repr

def ServiceExit.code : ServiceExit → ℕ
  | .ok => 0
  | .safeHalted => 10
  | .deadMan => 20
  | .error => 30

/-- `{e!r}` -/
def raisedText : Raised → String
  | .bitso e =>
      s!"BitsoError(category='{e.category.value}', code='{e.code}', message='{e.message}', " ++
        s!"http_status={e.httpStatus})"
  | .other message => message

/-- The loop over the feed. -/
def runLoop : List (Except Raised FeedItem) → M ServiceExit
  | [] => return .ok
  | .error e :: _ => .raise e
  | .ok item :: feed => do
      returned (← ask (.observeData item.dataWallNs))
      let result ← returned (← ask (.step item.tick item.wallet))
      ask (.keep result)
      if result.kind = .haltedDead then
        ask (.halt "dead-man's switch tripped")
        return .deadMan
      else runLoop feed

/-- The loop in its `try`. -/
def guarded (feed : List (Except Raised FeedItem)) : M ServiceExit :=
  (runLoop feed).tryCatch fun e => do
    ask (.halt s!"unexpected error: {raisedText e}")
    return .error

def run (inputs : PreflightInputs) (feed : List (Except Raised FeedItem)) : M ServiceExit := do
  let report ← runPreflight inputs
  if report.ready = false then
    ask (.halt ("preflight SAFE_HALTED: " ++ ",".intercalate (report.failures.map Check.name)))
    return .safeHalted
  else
    let _ ← returned (← ask .recover)
    guarded feed

/-! ## Failing closed -/

/-- The reasons `on_halt` was called with, as the state of a protocol that allows every
call. -/
def halts : Protocol Call Reply (List String) where
  allowed _ _ := True
  next reasons
    | .halt reason, _ => reasons ++ [reason]
    | _, _ => reasons

/-- A run returned, and with a code other than OK only after a halt. -/
def FailsClosed (reasons : List String) : Except Raised ServiceExit → Prop
  | .ok code => code = .ok ∨ reasons ≠ []
  | .error _ => False

instance (reasons : List String) (r : Except Raised ServiceExit) :
    Decidable (FailsClosed reasons r) :=
  match r with
  | .ok code => inferInstanceAs (Decidable (code = .ok ∨ reasons ≠ []))
  | .error _ => isFalse id

theorem failsClosed_halted (reasons : List String) (reason : String) (code : ServiceExit) :
    FailsClosed (reasons ++ [reason]) (.ok code) :=
  Or.inr (List.append_ne_nil_of_right_ne_nil _ (List.cons_ne_nil _ _))

/-- The loop returns OK or halts and returns; what it raises is left to the `try`. -/
def LoopEnd (reasons : List String) : Except Raised ServiceExit → Prop
  | .ok code => code = .ok ∨ reasons ≠ []
  | .error _ => True

theorem keeps_returned {α β : Type} {reasons : List String} {x : Except Raised α}
    {f : α → M β} {Q : List String → Except Raised β → Prop}
    (hok : ∀ a, x = .ok a → halts.Keeps reasons (f a) Q)
    (herr : ∀ e, x = .error e → Q reasons (.error e)) :
    halts.Keeps reasons (returned x >>= f) Q := by
  cases x with
  | ok a => exact hok a rfl
  | error e => exact herr e rfl

theorem runLoop_keeps : ∀ (feed : List (Except Raised FeedItem)) (reasons : List String),
    halts.Keeps reasons (runLoop feed) LoopEnd
  | [], _ => Or.inl rfl
  | .error _ :: _, _ => trivial
  | .ok item :: feed, reasons => by
      refine ⟨trivial, fun observed => keeps_returned (fun _ _ => ?_) fun _ _ => trivial⟩
      refine ⟨trivial, fun stepped => keeps_returned (fun result _ => ?_) fun _ _ => trivial⟩
      refine ⟨trivial, ?_⟩
      intro _
      show halts.Keeps reasons (if result.kind = .haltedDead then _ else runLoop feed) LoopEnd
      split
      · exact ⟨trivial, fun _ => failsClosed_halted reasons _ _⟩
      · exact runLoop_keeps feed reasons

/-- Under its `try` the loop fails closed, whatever the feed and the calls do. -/
theorem guarded_failsClosed (feed : List (Except Raised FeedItem)) (reasons : List String) :
    halts.Keeps reasons (guarded feed) FailsClosed := by
  refine Protocol.keeps_tryCatch ((runLoop_keeps feed reasons).mono ?_)
  intro reasons' r hr
  cases r with
  | ok code => exact hr
  | error e => exact ⟨trivial, fun _ => failsClosed_halted reasons' _ _⟩

variable {σ : Type}

/-- Start-up goes through: preflight returns, and if it is ready recovery returns. -/
def StartsUp (h : Host σ) (s : σ) (inputs : PreflightInputs) : Prop :=
  match (runPreflight inputs).eval h s with
  | (.ok report, s') => report.ready = true → ((h s' .recover).1).isOk = true
  | (.error _, _) => False

/-- A run of the service: how it ended, and the reasons it halted with. -/
def runs (h : Host σ) (s : σ) (inputs : PreflightInputs) (feed : List (Except Raised FeedItem)) :
    Except Raised ServiceExit × List String :=
  let (r, (_, reasons)) := (run inputs feed).eval (halts.track h) (s, [])
  (r, reasons)

theorem runPreflight_keeps (inputs : PreflightInputs) (reasons : List String) :
    halts.Keeps reasons (runPreflight inputs) fun reasons' _ => reasons' = reasons := by
  refine Protocol.keeps_bind ?_
  unfold journalWritable
  split
  · rfl
  · split
    · rfl
    · refine ⟨trivial, ?_⟩
      intro written
      cases written with
      | ok _ => rfl
      | error _ => rfl

/-- Preflight halts nothing: with the reasons followed it runs as without. -/
theorem eval_preflight (h : Host σ) (s : σ) (inputs : PreflightInputs) (reasons : List String) :
    (runPreflight inputs).eval (halts.track h) (s, reasons) =
      (((runPreflight inputs).eval h s).1, (((runPreflight inputs).eval h s).2, reasons)) := by
  have hrun := Protocol.eval_track (P := halts) h (runPreflight inputs) s reasons
  have hkept := (runPreflight_keeps inputs reasons).eval h s
  rw [← hrun]
  exact Prod.ext rfl (Prod.ext rfl hkept)

/-- A supervisor answers, with the disk's probe and the readings of the two clocks at
each step. -/
def serve {A : Type} (sup : LiveSupervisor A σ) (probe : String → Except Raised Bool)
    (clocks : ℕ → ℤ × ℤ) : Host (LiveState A σ × ℕ)
  | s, .probe path => (probe path, s)
  | s, .halt _ | s, .keep _ => ((), s)
  | (s, n), .recover =>
      let (outcomes, rail) := (Orders.recover Dict.empty).eval sup.rail s.rail
      (outcomes, ({ s with rail := rail }, n))
  | (s, n), .observeData wallNs =>
      (.ok (), ({ s with staleness := s.staleness.observeData wallNs }, n))
  | (s, n), .step tick wallet =>
      let (result, s) := sup.step s tick wallet (clocks n).1 (clocks n).2
      (result, (s, n + 1))

/-- The exchange refuses the key on every query. -/
def refused : BitsoError := ⟨.fatalAuth, "0201", "invalid signature / missing auth", 401⟩

def refusedSupervisor : LiveSupervisor Unit (Dict String OrderRecord) where
  agent := LiveSupervisor.aSupervisor.agent
  rail
    | d, .reconcile _ _ => (.error (.bitso refused), d)
    | d, op => LiveSupervisor.fillingRail d op

/-- The checkpoint holds one order whose POST timed out. -/
def inDoubt : Dict String OrderRecord :=
  Dict.empty.set "live:BTC:1"
    { originId := "live:BTC:1", state := .unknown, symbol := "BTC", side := "buy", attempts := 1 }

def aReady : PreflightInputs where
  mode := some "live"
  config := some LiveSupervisor.aStart.policy.config
  journalDir := some "state/orders"
  hasCredentials := true
  nowWall := 1700000000
  dataAgeS := some 1
  clockSkewS := some 0

end Service

end TreasuryForge
