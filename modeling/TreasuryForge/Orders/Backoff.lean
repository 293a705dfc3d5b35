/-
# `Orders.Backoff` — what `submit` sends after a rate limit

The manager of `Orders.Manager` on the Bitso executor, and an exchange that gives a fixed
sequence of answers.  Whether the manager may go on after an answer is decided from the
answer alone (`afterPost`, `pending`), so the answers that a call is given can be read off
the sequence: `submit_answers`.

A rate limit (HTTP 420) comes back to the manager as an order of unknown fate, like a
timeout, and is followed at once by the next request; `backsOff_iff` says when it is not.
-/
import TreasuryForge.Orders.Bitso

namespace TreasuryForge.Orders.Bitso

open Resume

/-- The requests so far, with their answers. -/
abbrev Log := List (Request × Answer)

/-- An exchange that gives its answers in this order. -/
def scripted (script : ℕ → Answer) : Transport Log := fun log request =>
  (script log.length, log ++ [(request, script log.length)])

/-- HTTP 420. -/
def limited : Answer → Bool
  | .ok r => r.status = 420
  | .error _ => false

/-- An answer that is a rate limit is the last. -/
def BacksOff (answers : List Answer) : Prop :=
  ∀ before answer after, answers = before ++ answer :: after → limited answer = true → after = []

/-! ## Going on after an answer -/

/-- The state an order is in after the answer to its POST; `none` if the call raises. -/
def afterPost : Answer → Option OrderState
  | .error _ => none
  | .ok r =>
      if r.success then some .submitted
      else if classify r.status r.code = .submitted then some .submitted
      else if (classify r.status r.code).definitelyNotLanded then some .rejected
      else some .unknown

/-- The answer to a GET that leaves the order unfilled. -/
def pending : Answer → Bool
  | .error _ => false
  | .ok r =>
      if r.success then (r.trades.map fun t => |t.major|).sum ≤ 0
      else !(classify r.status r.code).definitelyNotLanded

/-- A rate limit is never the end of an order. -/
theorem afterPost_limited {a : Answer} (h : limited a = true) :
    ∃ state, afterPost a = some state ∧ state ≠ .rejected := by
  cases a with
  | error e => cases h
  | ok r =>
      have hstatus : r.status = 420 := of_decide_eq_true h
      have hclass : classify r.status r.code = .retryableBackoff := if_pos hstatus
      unfold afterPost
      dsimp only
      rw [hclass]
      cases r.success with
      | true => exact ⟨_, rfl, by decide⟩
      | false => exact ⟨_, rfl, by decide⟩

section Answers
variable (script : ℕ → Answer)

/-- The answers to the passes of the loop, from the `k`-th answer on: a POST each, and a GET
if the order was not rejected. -/
def loopAnswers : ℕ → ℕ → List Answer
  | 0, _ => []
  | n + 1, k =>
      script k ::
        match afterPost (script k) with
        | none | some .rejected => []
        | some .unknown =>
            script (k + 1) :: if pending (script (k + 1)) then loopAnswers n (k + 2) else []
        | some _ => [script (k + 1)]

/-- The answers to one call, for an order in this state and with these passes. -/
def callAnswers (sends : ℕ) : OrderState → List Answer
  | .filled | .rejected => []
  | .submitted | .open => [script 0]
  | .unknown => script 0 :: if pending (script 0) then loopAnswers script sends 1 else []
  | .placing => loopAnswers script sends 0

/-- From the `k`-th answer on, no POST is answered with a rate limit; and no GET is, while the
fate of the order is unknown and a pass is left. -/
def Quiet : ℕ → ℕ → Prop
  | 0, _ => True
  | n + 1, k =>
      limited (script k) = false ∧
      (afterPost (script k) = some .unknown → pending (script (k + 1)) = true →
        (limited (script (k + 1)) = true → n = 0) ∧ Quiet n (k + 2))

def QuietCall (sends : ℕ) : OrderState → Prop
  | .filled | .rejected | .submitted | .open => True
  | .unknown =>
      pending (script 0) = true → (limited (script 0) = true → sends = 0) ∧ Quiet script sends 1
  | .placing => Quiet script sends 0

end Answers

theorem backsOff_nil : BacksOff [] := by
  intro before answer after h
  cases before with
  | nil => cases h
  | cons b bs => cases h

theorem backsOff_cons {a : Answer} {as : List Answer} :
    BacksOff (a :: as) ↔ (limited a = true → as = []) ∧ BacksOff as := by
  constructor
  · intro h
    refine ⟨h [] a as rfl, ?_⟩
    intro before answer after has
    exact h (a :: before) answer after (congrArg (a :: ·) has)
  · rintro ⟨hfirst, hrest⟩ before answer after h
    cases before with
    | nil =>
        cases h
        exact hfirst
    | cons b bs =>
        obtain ⟨rfl, has⟩ := List.cons_eq_cons.mp h
        exact hrest bs answer after has

theorem backsOff_singleton (a : Answer) : BacksOff [a] :=
  backsOff_cons.mpr ⟨fun _ => rfl, backsOff_nil⟩

variable {script : ℕ → Answer}

theorem loopAnswers_eq_nil {n k : ℕ} : loopAnswers script n k = [] ↔ n = 0 := by
  cases n with
  | zero => simp [loopAnswers]
  | succ n => simp [loopAnswers]

theorem loop_backsOff_iff (n : ℕ) : ∀ k, BacksOff (loopAnswers script n k) ↔ Quiet script n k := by
  induction n with
  | zero => exact fun _ => ⟨fun _ => trivial, fun _ => backsOff_nil⟩
  | succ n ih =>
      intro k
      rw [loopAnswers, backsOff_cons, Quiet]
      cases hlimited : limited (script k) with
      | true =>
          -- a GET follows
          obtain ⟨state, hpost, hstate⟩ := afterPost_limited hlimited
          rw [hpost]
          constructor
          · rintro ⟨hnil, -⟩
            have hnil := hnil rfl
            cases state with
            | rejected => exact absurd rfl hstate
            | placing | submitted | unknown | «open» | filled => cases hnil
          · rintro ⟨h, -⟩
            cases h
      | false =>
          cases hpost : afterPost (script k) with
          | none => simp [backsOff_nil]
          | some state =>
              cases state with
              | unknown =>
                  cases hpending : pending (script (k + 1)) with
                  | false => simp [backsOff_singleton]
                  | true => simp [backsOff_cons, loopAnswers_eq_nil, ih]
              | rejected => simp [backsOff_nil]
              | placing => simp [backsOff_singleton]
              | submitted => simp [backsOff_singleton]
              | «open» => simp [backsOff_singleton]
              | filled => simp [backsOff_singleton]

theorem call_backsOff_iff (sends : ℕ) (state : OrderState) :
    BacksOff (callAnswers script sends state) ↔ QuietCall script sends state := by
  cases state with
  | placing => exact loop_backsOff_iff sends 0
  | unknown =>
      rw [callAnswers, QuietCall, backsOff_cons]
      cases pending (script 0) with
      | false => simp [backsOff_nil]
      | true => simp [loopAnswers_eq_nil, loop_backsOff_iff]
  | submitted => exact ⟨fun _ => trivial, fun _ => backsOff_singleton _⟩
  | «open» => exact ⟨fun _ => trivial, fun _ => backsOff_singleton _⟩
  | filled => exact ⟨fun _ => trivial, fun _ => backsOff_nil⟩
  | rejected => exact ⟨fun _ => trivial, fun _ => backsOff_nil⟩

/-! ## The manager's run -/

section Run

variable {ex : BitsoExecutor} {d : Blotter Log} {r : OrderRecord} {intent : Intent}
  {originId symbol : String}

/-- The answers so far. -/
def heard (d : Blotter Log) : List Answer := d.executor.map Prod.snd

variable (script ex) in
/-- The executor on this exchange. -/
abbrev wired : TwoPhaseExecutor Log := ex.twoPhase (scripted script)

theorem wired_reconcile (log : Log) (handle : OrderHandle) (symbol : String) :
    (wired script ex).reconcile log handle symbol =
      (BitsoExecutor.reconciled handle symbol (script log.length),
        log ++ [(BitsoExecutor.tradesRequest handle, script log.length)]) :=
  rfl

/-- What the manager reads off the answer to a GET. -/
theorem reconciled_cases (handle : OrderHandle) (symbol : String) (a : Answer) :
    (pending a = true ∧
      ∃ reason, BitsoExecutor.reconciled handle symbol a = .ok (.unfilled reason)) ∨
    (pending a = false ∧ ∀ reason, BitsoExecutor.reconciled handle symbol a ≠
      .ok (.unfilled reason)) := by
  cases a with
  | error e =>
      right
      exact ⟨rfl, fun _ h => by cases h⟩
  | ok r =>
      unfold pending BitsoExecutor.reconciled
      dsimp only
      cases r.success with
      | true =>
          rw [if_pos rfl, if_pos rfl]
          by_cases hnil : r.trades = []
          · rw [if_pos hnil, hnil]
            exact .inl ⟨by simp, _, rfl⟩
          · rw [if_neg hnil]
            by_cases hzero : (r.trades.map fun t => |t.major|).sum ≤ 0
            · rw [if_pos hzero]
              exact .inl ⟨decide_eq_true hzero, _, rfl⟩
            · rw [if_neg hzero]
              exact .inr ⟨decide_eq_false hzero, fun _ h => by cases h⟩
      | false =>
          rw [if_neg Bool.false_ne_true, if_neg Bool.false_ne_true]
          cases classify r.status r.code with
          | fatalAuth => exact .inr ⟨rfl, fun _ h => by cases h⟩
          | nonRetryable => exact .inr ⟨rfl, fun _ h => by cases h⟩
          | retryableBackoff => exact .inl ⟨rfl, _, rfl⟩
          | indeterminate => exact .inl ⟨rfl, _, rfl⟩
          | submitted => exact .inl ⟨rfl, _, rfl⟩
          | ok => exact .inl ⟨rfl, _, rfl⟩

variable (script ex) in
/-- A GET: the next answer is heard, and the order stays unfilled or the turn ends. -/
theorem tryFill_heard (d : Blotter Log) (r : OrderRecord) (symbol : String) :
    ∃ result d', (tryFill r symbol).eval (Blotter.exec (wired script ex)) d = (result, d') ∧
      heard d' = heard d ++ [script d.executor.length] ∧
      ((pending (script d.executor.length) = true ∧ result = .ok (false, r)) ∨
        (pending (script d.executor.length) = false ∧
          ((∃ e, result = .error e) ∨ ∃ r', result = .ok (true, r')))) := by
  have heval := Blotter.eval_tryFill (e := wired script ex) d r symbol
  have hcases := reconciled_cases r.handle (if symbol = "" then r.symbol else symbol)
    (script d.executor.length)
  rw [wired_reconcile] at heval
  dsimp only at heval
  rcases hcases with ⟨hpending, reason, hunfilled⟩ | ⟨hpending, hended⟩
  · rw [hunfilled] at heval
    exact ⟨_, _, heval, List.map_append, .inl ⟨hpending, rfl⟩⟩
  · cases hrec : BitsoExecutor.reconciled r.handle (if symbol = "" then r.symbol else symbol)
        (script d.executor.length) with
    | error e =>
        rw [hrec] at heval
        exact ⟨_, _, heval, List.map_append, .inr ⟨hpending, .inl ⟨_, rfl⟩⟩⟩
    | ok result =>
        rw [hrec] at heval
        cases result with
        | unfilled reason => exact absurd hrec (hended reason)
        | fill f =>
            exact ⟨_, _, heval, List.map_append, .inr ⟨hpending, .inr ⟨_, rfl⟩⟩⟩

/-- What the manager reads off the answer to a POST. -/
theorem placed_cases (book : String) (side : Side) (originId : String) (a : Answer) :
    (∃ e, BitsoExecutor.placed book side originId a = .error (.other e) ∧ afterPost a = none) ∨
    (∃ e : BitsoError, BitsoExecutor.placed book side originId a = .error (.bitso e) ∧
      afterPost a = some (if e.category.definitelyNotLanded then .rejected else .unknown)) ∨
    (∃ h, BitsoExecutor.placed book side originId a = .ok h ∧ afterPost a = some .submitted) := by
  cases a with
  | error e => exact .inl ⟨e, rfl, rfl⟩
  | ok r =>
      unfold BitsoExecutor.placed afterPost
      dsimp only
      cases r.success with
      | true =>
          rw [if_pos rfl, if_pos rfl]
          exact .inr (.inr ⟨_, rfl, rfl⟩)
      | false =>
          rw [if_neg Bool.false_ne_true, if_neg Bool.false_ne_true]
          by_cases hsubmitted : classify r.status r.code = .submitted
          · rw [if_pos hsubmitted, if_pos hsubmitted]
            exact .inr (.inr ⟨_, rfl, rfl⟩)
          · rw [if_neg hsubmitted, if_neg hsubmitted]
            refine .inr (.inl ⟨r.error, rfl, ?_⟩)
            rw [show r.error.category = classify r.status r.code from rfl]
            split
            · rfl
            · rfl

variable (script) in
/-- A POST: the next answer is heard, and decides the state of the order. -/
theorem placeOnce_heard (d : Blotter Log) (r : OrderRecord) {params : Params}
    (hvalid : ex.toParams intent = .ok params) :
    ∃ result d', (placeOnce r intent).eval (Blotter.exec (wired script ex)) d = (result, d') ∧
      heard d' = heard d ++ [script d.executor.length] ∧
      match afterPost (script d.executor.length) with
      | none => ∃ e, result = .error e
      | some state => ∃ r', result = .ok r' ∧ r'.state = state := by
  have hplace : (wired script ex).placeOrder d.executor intent r.originId =
      (BitsoExecutor.placed params.book intent.side r.originId (script d.executor.length),
        d.executor ++ [(.post { params with originId := r.originId },
          script d.executor.length)]) := by
    simp only [BitsoExecutor.twoPhase, BitsoExecutor.placeOrder, hvalid, scripted]
  unfold placeOnce
  dsimp only
  rw [Blotter.eval_place]
  dsimp only
  rw [hplace]
  rcases placed_cases params.book intent.side r.originId (script d.executor.length) with
    ⟨e, hplaced, hpost⟩ | ⟨e, hplaced, hpost⟩ | ⟨h, hplaced, hpost⟩
  · rw [hplaced, hpost]
    exact ⟨_, _, rfl, List.map_append, _, rfl⟩
  · rw [hplaced, hpost]
    dsimp only
    cases e.category.definitelyNotLanded with
    | true => exact ⟨_, _, rfl, List.map_append, _, rfl, rfl⟩
    | false => exact ⟨_, _, rfl, List.map_append, _, rfl, rfl⟩
  · rw [hplaced, hpost]
    exact ⟨_, _, rfl, List.map_append, _, rfl, rfl⟩

variable (script) in
/-- An intent that the executor has no parameters for is not sent. -/
theorem placeOnce_invalid (d : Blotter Log) (r : OrderRecord) {e : String}
    (hvalid : ex.toParams intent = .error e) :
    ∃ err d', (placeOnce r intent).eval (Blotter.exec (wired script ex)) d = (.error err, d') ∧
      heard d' = heard d := by
  have hplace : (wired script ex).placeOrder d.executor intent r.originId =
      (.error (.other e), d.executor) := by
    simp only [BitsoExecutor.twoPhase, BitsoExecutor.placeOrder, hvalid]
  unfold placeOnce
  dsimp only
  rw [Blotter.eval_place]
  dsimp only
  rw [hplace]
  exact ⟨_, _, rfl, rfl⟩

/-- Telling the outcome asks nothing of the exchange. -/
theorem outcome_heard (d : Blotter Log) (r : OrderRecord) :
    heard ((outcome r).eval (Blotter.exec (wired script ex)) d).2 = heard d := by
  unfold outcome
  cases r.fill with
  | none => rfl
  | some f =>
      dsimp only
      cases f.toFill with
      | none => rfl
      | some fill => rfl

/-- An order is marked as resting, and its outcome told. -/
theorem resting_heard (d : Blotter Log) (r : OrderRecord) :
    heard ((setState r .open "resting" >>= outcome).eval (Blotter.exec (wired script ex)) d).2 =
      heard d := by
  rw [Prog.eval_bind, Blotter.eval_setState]
  exact outcome_heard _ _

theorem next_index {d' : Blotter Log} {a : Answer} (h : heard d' = heard d ++ [a]) :
    d'.executor.length = d.executor.length + 1 := by
  have hlength := congrArg List.length h
  rwa [List.length_append, heard, heard, List.length_map, List.length_map] at hlength

/-- A GET, and what is done with an order it leaves unfilled: a resting one is left alone, one
of unknown fate goes on. -/
def polled (r : OrderRecord) (symbol : String) (next : OrderRecord → M Outcome) : M Outcome := do
  let (filled, r) ← tryFill r symbol
  if filled then outcome r
  else if r.state ≠ .unknown then
    let r ← setState r .open "resting"
    outcome r
  else next r

variable (script ex) in
theorem polled_heard (d : Blotter Log) (r : OrderRecord) (symbol : String)
    (next : OrderRecord → M Outcome) (rest : List Answer)
    (hnext : ∀ d' : Blotter Log, d'.executor.length = d.executor.length + 1 →
      heard ((next r).eval (Blotter.exec (wired script ex)) d').2 = heard d' ++ rest) :
    heard ((polled r symbol next).eval (Blotter.exec (wired script ex)) d).2 =
      heard d ++ script d.executor.length ::
        if r.state = .unknown ∧ pending (script d.executor.length) = true then rest else [] := by
  obtain ⟨result, d', heval, hheard, hresult⟩ :=
    tryFill_heard script ex d r symbol
  have hindex := next_index hheard
  rw [polled, Prog.eval_bind, heval]
  rcases hresult with ⟨hpending, rfl⟩ | ⟨hpending, ⟨e, rfl⟩ | ⟨r', rfl⟩⟩
  · dsimp only
    rw [if_neg Bool.false_ne_true, hpending]
    by_cases hunknown : r.state = .unknown
    · rw [if_neg (not_not.mpr hunknown), if_pos ⟨hunknown, rfl⟩, hnext d' hindex, hheard,
        List.append_assoc]
      rfl
    · rw [if_pos hunknown, if_neg fun h => hunknown h.1]
      exact (resting_heard d' r).trans hheard
  · rw [hpending, if_neg fun h => Bool.false_ne_true h.2]
    exact hheard
  · rw [hpending, if_neg fun h => Bool.false_ne_true h.2]
    dsimp only
    rw [if_pos rfl]
    exact (outcome_heard d' r').trans hheard

variable (ex intent) in
/-- The passes that send anything: none, if the executor has no parameters for the intent. -/
def sending (n : ℕ) : ℕ := if (ex.toParams intent).isOk then n else 0

theorem placeLoop_succ (n : ℕ) (r : OrderRecord) : placeLoop intent symbol (n + 1) r =
    (placeOnce r intent >>= fun r =>
      if r.state = .rejected then outcome r
      else polled r symbol (placeLoop intent symbol n)) :=
  rfl

variable (script ex intent symbol) in
/-- The loop is given the answers of its passes. -/
theorem placeLoop_heard (n : ℕ) : ∀ (d : Blotter Log) (r : OrderRecord),
    heard ((placeLoop intent symbol n r).eval (Blotter.exec (wired script ex)) d).2 =
      heard d ++ loopAnswers script (sending ex intent n) d.executor.length := by
  cases hvalid : ex.toParams intent with
  | error e =>
      intro d r
      have hsending : sending ex intent n = 0 := by
        rw [sending, hvalid]
        rfl
      rw [hsending, loopAnswers, List.append_nil]
      cases n with
      | zero => exact outcome_heard d r
      | succ n =>
          obtain ⟨err, d', heval, hheard⟩ := placeOnce_invalid script d r hvalid
          rw [placeLoop, Prog.eval_bind, heval]
          exact hheard
  | ok params =>
      have hsending : ∀ n, sending ex intent n = n := by
        intro n
        rw [sending, hvalid]
        rfl
      rw [hsending]
      induction n with
      | zero =>
          intro d r
          rw [loopAnswers, List.append_nil]
          exact outcome_heard d r
      | succ n ih =>
          intro d r
          obtain ⟨result, d₁, heval, hheard, hresult⟩ :=
            placeOnce_heard script d r hvalid
          have hindex := next_index hheard
          rw [placeLoop_succ, Prog.eval_bind, heval, loopAnswers]
          cases hpost : afterPost (script d.executor.length) with
          | none =>
              rw [hpost] at hresult
              obtain ⟨e, rfl⟩ := hresult
              exact hheard
          | some state =>
              rw [hpost] at hresult
              obtain ⟨r', rfl, hstate⟩ := hresult
              dsimp only
              by_cases hrejected : r'.state = .rejected
              · rw [if_pos hrejected, outcome_heard, hheard]
                rw [hstate] at hrejected
                rw [hrejected]
              · have hpolled := polled_heard script ex d₁ r' symbol
                  (placeLoop intent symbol n) (loopAnswers script n (d.executor.length + 2))
                  fun d' hd' => by rw [ih, hd', hindex]
                rw [if_neg hrejected, hpolled, hheard, hindex, List.append_assoc]
                rw [hstate] at hrejected ⊢
                cases state with
                | rejected => exact absurd rfl hrejected
                | unknown => simp
                | placing => simp
                | submitted => simp
                | «open» => simp
                | filled => simp

variable {maxAttempts : ℤ}

/-- A call that resolves a record is given the answers of its state. -/
theorem resolve_heard (d : Blotter Log) (hlog : d.executor = []) (r : OrderRecord) :
    heard ((resolve r intent symbol maxAttempts).eval (Blotter.exec (wired script ex)) d).2 =
      callAnswers script (sending ex intent (passes maxAttempts r)) r.state := by
  have hheard : heard d = [] := by
    rw [heard, hlog]
    rfl
  have hlength : d.executor.length = 0 := congrArg List.length hlog
  have hpolled := polled_heard script ex d r symbol
    (fun r => placeLoop intent symbol (passes maxAttempts r) r)
    (loopAnswers script (sending ex intent (passes maxAttempts r)) 1)
    fun d' hd' => by rw [placeLoop_heard, hd', hlength]
  have hloop := placeLoop_heard script ex intent symbol (passes maxAttempts r) d r
  rw [hheard, hlength, List.nil_append] at hpolled hloop
  have hresolve : resolve r intent symbol maxAttempts =
      if r.state.terminal then outcome r
      else if r.state = .submitted ∨ r.state = .open ∨ r.state = .unknown then
        polled r symbol fun r => placeLoop intent symbol (passes maxAttempts r) r
      else placeLoop intent symbol (passes maxAttempts r) r :=
    rfl
  rw [hresolve]
  cases hstate : r.state with
  | placing => exact hloop
  | submitted =>
      rw [hstate] at hpolled
      exact hpolled
  | «open» =>
      rw [hstate] at hpolled
      exact hpolled
  | unknown =>
      rw [hstate] at hpolled
      simp only [true_and] at hpolled
      exact hpolled
  | filled => exact (outcome_heard d r).trans hheard
  | rejected => exact (outcome_heard d r).trans hheard

/-- The state of an order and the attempts it has had, before the call. -/
def standing (d : Blotter Log) (originId : String) : OrderState × ℕ :=
  match d.orders.get? originId with
  | some r => (r.state, r.attempts)
  | none => (.placing, 0)

variable (script ex) in
/-- `submit`, on a manager from which nothing has been sent yet. -/
def submitted (d : Blotter Log) (intent : Intent) (originId symbol : String) (maxAttempts : ℤ) :
    Blotter Log :=
  ((submit intent originId symbol maxAttempts).eval (Blotter.exec (wired script ex))
    { d with executor := [] }).2

theorem submitted_heard (d : Blotter Log) :
    heard (submitted script ex d intent originId symbol maxAttempts) =
      callAnswers script (sending ex intent (maxAttempts - (standing d originId).2).toNat)
        (standing d originId).1 := by
  unfold submitted standing submit
  rw [Blotter.eval_get]
  dsimp only
  cases d.orders.get? originId with
  | some r => exact resolve_heard { d with executor := [] } rfl r
  | none =>
      exact resolve_heard (Blotter.persisted { d with executor := [] } {
        originId := originId, state := .placing, symbol := symbol,
        side := if intent.side = .buy then "buy" else "sell" } "placing") rfl _

/-- Nothing is sent after a rate limit exactly when the sequence is quiet: no POST of the call
is answered with one, and no GET while the fate of the order is unknown and a pass is left
that sends something. -/
theorem backsOff_iff (script : ℕ → Answer) (ex : BitsoExecutor) (d : Blotter Log) (intent : Intent)
    (originId symbol : String) (maxAttempts : ℤ) :
    BacksOff (heard (submitted script ex d intent originId symbol maxAttempts)) ↔
      QuietCall script (sending ex intent (maxAttempts - (standing d originId).2).toNat)
        (standing d originId).1 := by
  rw [submitted_heard]
  exact call_backsOff_iff _ _

end Run

/-! ## A rate limit on the first POST -/

/-- Every request is answered with HTTP 420. -/
def allLimited : ℕ → Answer := fun _ =>
  .ok { status := 420, success := false, code := some "0301", message := some "rate limited" }

def newBlotter : Blotter Log where
  executor := []
  filed := fun _ h => by cases h

def buyBitcoin : Intent := { symbol := "btc_mxn", side := .buy, baseAmount := 1 }

/-- With one attempt, the POST that is limited is followed by a GET. -/
theorem limited_post_goes_on :
    ¬ BacksOff (heard (submitted allLimited {} newBlotter buyBitcoin "o" "BTC" 1)) := by
  intro h
  have hheard : heard (submitted allLimited {} newBlotter buyBitcoin "o" "BTC" 1) =
      [allLimited 0, allLimited 1] := by
    decide +kernel
  exact absurd (h [] (allLimited 0) [allLimited 1] hheard rfl) (by decide)

end TreasuryForge.Orders.Bitso
