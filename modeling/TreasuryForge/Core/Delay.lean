/-
# `Core.Delay` — when an approved intent reaches the executor

The runner keeps one pending intent and settles it at the next tick, whatever
`execution_delay` above zero says.  To speak about when the executor is called and with
what, the executor is watched: `Executor.watched` behaves as the executor does and keeps
its calls.  `onTick_calls` says what one tick calls; `calls_next` and `calls_now` say it of
a run.
-/
import TreasuryForge.Core.Bounds
import Mathlib.Data.List.Basic

namespace TreasuryForge

/-- One call of an executor, and what it gave back. -/
structure Call where
  intent : Intent
  tick : MarketTick
  result : Except InsufficientFunds Fill

def Call.fill (c : Call) : Option Fill := c.result.toOption

/-- What the executor is called with, and when. -/
def Call.place (c : Call) : Intent × MarketTick := (c.intent, c.tick)

/-- The executor, with its calls so far. -/
def Executor.watched {X : Type} (e : Executor X) : Executor (X × List Call) where
  execute s intent tick wallet :=
    let (result, wallet', x) := e.execute s.1 intent tick wallet
    (result, wallet', x, s.2 ++ [⟨intent, tick, result⟩])

namespace Runner

variable {A X : Type}

def watched (r : Runner A X) : Runner A (X × List Call) where
  symbol := r.symbol
  agent := r.agent
  executor := r.executor.watched
  journaled := r.journaled
  audited := r.audited
  executionDelay := r.executionDelay

/-- The state with the calls forgotten. -/
def unwatched (s : RunState A (X × List Call)) : RunState A X where
  agent := s.agent
  executor := s.executor.1
  policy := s.policy
  wallet := s.wallet
  report := s.report
  first := s.first
  pending := s.pending
  lastPrices := s.lastPrices
  writes := s.writes
  auditLog := s.auditLog
  settled := s.settled

/-! ## Watching changes nothing -/

section Unwatched
variable (r : Runner A X) (s : RunState A (X × List Call)) (intent : Intent) (tick : MarketTick)

theorem watched_execute :
    r.watched.executor.execute s.executor intent tick s.wallet =
      let (result, wallet, x) := r.executor.execute s.executor.1 intent tick s.wallet
      (result, wallet, x, s.executor.2 ++ [⟨intent, tick, result⟩]) :=
  rfl

theorem unwatched_settle :
    unwatched (r.watched.settle s intent tick) = r.settle (unwatched s) intent tick := by
  unfold settle
  rw [watched_execute, show (unwatched s).wallet = s.wallet from rfl,
    show (unwatched s).executor = s.executor.1 from rfl]
  rcases r.executor.execute s.executor.1 intent tick s.wallet with ⟨e | fill, wallet, x⟩
  · rfl
  · dsimp only
    unfold journal
    rw [show r.watched.journaled = r.journaled from rfl]
    cases r.journaled <;> rfl

theorem unwatched_dispose :
    unwatched (r.watched.dispose s intent tick) = r.dispose (unwatched s) intent tick := by
  have hsettle := fun s' => unwatched_settle r s' intent tick
  unfold dispose
  dsimp only
  rw [show (unwatched s).policy = s.policy from rfl, show (unwatched s).wallet = s.wallet from rfl]
  cases hv : (s.policy.evaluate intent tick s.wallet none).1.allowed with
  | false =>
      rw [if_pos rfl, if_pos rfl]
      cases ht : (s.policy.evaluate intent tick s.wallet none).2.tripped with
      | false => rfl
      | true =>
          rw [if_pos rfl, if_pos rfl]
          unfold journal
          rw [show r.watched.journaled = r.journaled from rfl]
          cases r.journaled <;> rfl
  | true =>
      have hne : ¬ true = false := Bool.noConfusion
      rw [if_neg hne, if_neg hne]
      by_cases hd : r.executionDelay ≤ 0
      · rw [if_pos hd, if_pos (show r.watched.executionDelay ≤ 0 from hd), hsettle]
        rfl
      · rw [if_neg hd, if_neg (show ¬ r.watched.executionDelay ≤ 0 from hd)]
        rfl

theorem unwatched_settlePending :
    unwatched (r.watched.settlePending s tick) = r.settlePending (unwatched s) tick := by
  unfold settlePending
  rw [show (unwatched s).pending = s.pending from rfl]
  cases s.pending with
  | none => rfl
  | some p =>
      dsimp only
      rw [← unwatched_settle]
      rfl

theorem unwatched_onTick :
    unwatched (r.watched.onTick s tick) = r.onTick (unwatched s) tick := by
  have hopened : unwatched (opened s tick) = opened (unwatched s) tick := by
    unfold opened
    rw [show (unwatched s).first = s.first from rfl]
    cases s.first <;> rfl
  unfold onTick
  dsimp only
  rw [← hopened, ← unwatched_settlePending]
  generalize r.watched.settlePending (opened s tick) tick = s₂
  rw [show (unwatched s₂).agent = s₂.agent from rfl,
    show (unwatched s₂).wallet = s₂.wallet from rfl, show r.watched.agent = r.agent from rfl]
  rcases r.agent.decide s₂.agent tick s₂.wallet with ⟨_ | i, a⟩
  · rfl
  · exact unwatched_dispose r { s₂ with agent := a } i tick

end Unwatched

/-- A watched run is the run. -/
theorem unwatched_loop (r : Runner A X) (ticks : List MarketTick) :
    ∀ s : RunState A (X × List Call),
      unwatched (r.watched.loop s ticks) = r.loop (unwatched s) ticks := by
  induction ticks with
  | nil => exact fun _ => rfl
  | cons t ts ih =>
      intro s
      rw [loop, loop, List.foldl_cons, List.foldl_cons, ← unwatched_onTick]
      exact ih (r.watched.onTick s t)

/-! ## What one tick calls -/

/-- Between two states the executor gets these calls, and those that succeed are fills. -/
structure Called (s s' : RunState A (X × List Call)) (calls : List Call) : Prop where
  executor : s'.executor.2 = s.executor.2 ++ calls
  fills : s'.report.fills = s.report.fills ++ calls.filterMap Call.fill

section Calls
variable {r : Runner A X} {s s' s'' : RunState A (X × List Call)} {calls later : List Call}

theorem Called.nothing (he : s'.executor = s.executor) (hf : s'.report.fills = s.report.fills) :
    Called s s' [] :=
  ⟨by rw [he, List.append_nil], by rw [hf, List.filterMap_nil, List.append_nil]⟩

theorem Called.trans (h : Called s s' calls) (h' : Called s' s'' later) :
    Called s s'' (calls ++ later) := by
  constructor
  · rw [h'.executor, h.executor, List.append_assoc]
  · rw [h'.fills, h.fills, List.filterMap_append, List.append_assoc]

theorem called_settle (s : RunState A (X × List Call)) (intent : Intent) (tick : MarketTick) :
    ∃ call, call.place = (intent, tick) ∧ Called s (r.watched.settle s intent tick) [call] ∧
      (r.watched.settle s intent tick).pending = s.pending := by
  have hexec := watched_execute r s intent tick
  refine ⟨⟨intent, tick, (r.executor.execute s.executor.1 intent tick s.wallet).1⟩, rfl, ?_⟩
  rcases settle_cases (r := r.watched) s intent tick with
    ⟨fill, wallet, x, report, prices, hx, hs, hfills⟩ |
    ⟨e, wallet, x, report, prices, hx, hs, hfills⟩
  · rw [hexec] at hx
    obtain ⟨hresult, hx⟩ := Prod.mk.inj hx
    obtain ⟨_, rfl⟩ := Prod.mk.inj hx
    rw [hs, hresult]
    exact ⟨⟨rfl, hfills⟩, rfl⟩
  · rw [hexec] at hx
    obtain ⟨hresult, hx⟩ := Prod.mk.inj hx
    obtain ⟨_, rfl⟩ := Prod.mk.inj hx
    rw [hs, hresult]
    exact ⟨⟨rfl, hfills.trans (List.append_nil _).symm⟩, rfl⟩

theorem called_settlePending (s : RunState A (X × List Call)) (tick : MarketTick) :
    ∃ calls, calls.map Call.place = s.pending.toList.map (fun p => (p.1, tick)) ∧
      Called s (r.watched.settlePending s tick) calls ∧
      (r.watched.settlePending s tick).pending = none := by
  unfold settlePending
  cases hp : s.pending with
  | none => exact ⟨[], rfl, Called.nothing rfl rfl, hp⟩
  | some p =>
      obtain ⟨call, hplace, hcalled, _⟩ := called_settle (r := r) s p.1 tick
      exact ⟨[call], congrArg (fun place => [place]) hplace, ⟨hcalled.executor, hcalled.fills⟩, rfl⟩

/-- A ruling: what is approved is settled at once, or kept. -/
theorem called_dispose (s : RunState A (X × List Call)) (hn : s.pending = none) (intent : Intent)
    (tick : MarketTick) :
    let allowed := (s.policy.evaluate intent tick s.wallet none).1.allowed
    ∃ calls, calls.map Call.place =
        (if r.executionDelay ≤ 0 ∧ allowed = true then [(intent, tick)] else []) ∧
      Called s (r.watched.dispose s intent tick) calls ∧
      (r.watched.dispose s intent tick).pending =
        if 0 < r.executionDelay ∧ allowed = true then some (intent, tick.ts) else none := by
  intro allowed
  rcases dispose_cases (r := r.watched) s intent tick with
    ⟨ha, a, report, prices, he, hfills⟩ | ⟨ha, hd, a, he⟩ | ⟨ha, hd, a, he⟩
  · have hno : allowed ≠ true := by
      rw [show allowed = false from ha]
      exact Bool.noConfusion
    rw [if_neg fun h => hno h.2, if_neg fun h => hno h.2, he]
    exact ⟨[], rfl, Called.nothing rfl hfills, hn⟩
  · have hd' : r.executionDelay ≤ 0 := hd
    obtain ⟨call, hplace, hcalled, hpending⟩ := called_settle (r := r)
      { s with policy := (s.policy.evaluate intent tick s.wallet none).2, auditLog := a } intent
      tick
    rw [if_pos ⟨hd', ha⟩, if_neg (by omega), he]
    exact ⟨[call], congrArg (fun place => [place]) hplace, ⟨hcalled.executor, hcalled.fills⟩,
      hpending.trans hn⟩
  · have hd' : 0 < r.executionDelay := hd
    rw [if_neg (by omega), if_pos ⟨hd', ha⟩, he]
    exact ⟨[], rfl, Called.nothing rfl rfl, rfl⟩

/-- A tick settles what was pending; what it approves it settles at once, or leaves
pending. -/
theorem called_onTick (s : RunState A (X × List Call)) (tick : MarketTick) :
    ∃ calls, calls.map Call.place = s.pending.toList.map (fun p => (p.1, tick)) ++
        (if r.executionDelay ≤ 0 then (r.watched.approved s tick).toList.map (·, tick) else []) ∧
      Called s (r.watched.onTick s tick) calls ∧
      (r.watched.onTick s tick).pending =
        if 0 < r.executionDelay then (r.watched.approved s tick).map (·, tick.ts) else none := by
  have hopened : Called s (opened s tick) [] ∧ (opened s tick).pending = s.pending := by
    unfold opened
    split <;> exact ⟨Called.nothing rfl rfl, rfl⟩
  obtain ⟨calls, hplaces, hcalled, hnone⟩ := called_settlePending (r := r) (opened s tick) tick
  rw [hopened.2] at hplaces
  have hcalled' := hopened.1.trans hcalled
  rw [List.nil_append] at hcalled'
  unfold onTick approved
  dsimp only
  generalize r.watched.settlePending (opened s tick) tick = s₂ at hcalled' hnone ⊢
  rcases hdecide : r.watched.agent.decide s₂.agent tick s₂.wallet with ⟨_ | intent, a⟩
  · refine ⟨calls, ?_, ⟨hcalled'.executor, hcalled'.fills⟩, ?_⟩
    · rw [hplaces]
      simp
    · rw [show (r.watched.log { s₂ with agent := a } tick.ts tick.price .hold).pending =
        s₂.pending from rfl, hnone]
      simp
  · obtain ⟨more, hmore, hcalledMore, hpending⟩ :=
      called_dispose (r := r) { s₂ with agent := a } hnone intent tick
    refine ⟨calls ++ more, ?_, hcalled'.trans ⟨hcalledMore.executor, hcalledMore.fills⟩, ?_⟩
    · rw [List.map_append, hplaces, hmore, Option.filter_some]
      dsimp only
      cases (s₂.policy.evaluate intent tick s₂.wallet none).1.allowed with
      | false => simp
      | true => simp
    · rw [hpending, Option.filter_some]
      dsimp only
      cases (s₂.policy.evaluate intent tick s₂.wallet none).1.allowed with
      | false => simp
      | true => simp

end Calls

/-! ## What a run calls -/

section Run
variable (r : Runner A X)

/-- The intents a run approves, with the index of the tick. -/
def approvalsFrom (k : ℕ) (s : RunState A (X × List Call)) : List MarketTick → List (ℕ × Intent)
  | [] => []
  | t :: ts =>
      (r.watched.approved s t).toList.map (k, ·) ++ approvalsFrom (k + 1) (r.watched.onTick s t) ts

/-- The calls of the executor, with the index of the tick they are made at. -/
def callsFrom (k : ℕ) (s : RunState A (X × List Call)) : List MarketTick → List (ℕ × Call)
  | [] => []
  | t :: ts =>
      let s' := r.watched.onTick s t
      (s'.executor.2.drop s.executor.2.length).map (k, ·) ++ callsFrom (k + 1) s' ts

/-- The calls that are due when each approval is executed `d` ticks later, if there is
such a tick. -/
def due (d : ℕ) (ticks : List MarketTick) (approvals : List (ℕ × Intent)) :
    List (ℕ × Intent × MarketTick) :=
  approvals.filterMap fun a => (ticks[a.1 + d]?).map fun t => (a.1 + d, a.2, t)

/-- The run makes the calls that are due under its own delay, each once and no other, and
its fills, watched or not, are the calls that succeed. -/
def Honoured (s : RunState A (X × List Call)) (ticks : List MarketTick) : Prop :=
  (callsFrom r 0 s ticks).map (fun c => (c.1, c.2.place)) =
      due r.executionDelay.toNat ticks (approvalsFrom r 0 s ticks) ∧
    (r.loop (unwatched s) ticks).report.fills =
      s.report.fills ++ (callsFrom r 0 s ticks).filterMap (·.2.fill)

variable {r}

theorem Called.drop {s s' : RunState A (X × List Call)} {calls : List Call}
    (h : Called s s' calls) : s'.executor.2.drop s.executor.2.length = calls := by
  rw [h.executor, List.drop_left]

/-- Every fill is a call that succeeded, whatever the delay. -/
theorem fills_calls (ticks : List MarketTick) : ∀ (k : ℕ) (s : RunState A (X × List Call)),
    (r.watched.loop s ticks).report.fills =
      s.report.fills ++ (callsFrom r k s ticks).filterMap (·.2.fill) := by
  induction ticks with
  | nil => exact fun k s => (List.append_nil _).symm
  | cons t ts ih =>
      intro k s
      obtain ⟨calls, _, hcalled, _⟩ := called_onTick (r := r) s t
      have hrest := ih (k + 1) (r.watched.onTick s t)
      rw [hcalled.fills] at hrest
      rw [callsFrom, hcalled.drop, List.filterMap_append, List.filterMap_map, ← List.append_assoc]
      exact hrest

theorem due_cons (d : ℕ) (ticks : List MarketTick) (k : ℕ) (approved : Option Intent)
    (approvals : List (ℕ × Intent)) :
    due d ticks (approved.toList.map (k, ·) ++ approvals) =
      (approved.toList.flatMap fun i => (ticks[k + d]?).toList.map fun t => (k + d, i, t)) ++
        due d ticks approvals := by
  unfold due
  rw [List.filterMap_append]
  congr 1
  cases approved with
  | none => rfl
  | some i => cases h : ticks[k + d]? <;> simp [h]

/-- Without a delay an approved intent is settled at the tick itself. -/
theorem calls_now (hd : r.executionDelay ≤ 0) (whole : List MarketTick) :
    ∀ (ticks : List MarketTick) (k : ℕ) (s : RunState A (X × List Call)),
      whole.drop k = ticks → s.pending = none →
      (callsFrom r k s ticks).map (fun c => (c.1, c.2.place)) =
        due 0 whole (approvalsFrom r k s ticks) := by
  intro ticks
  induction ticks with
  | nil => exact fun _ _ _ _ => rfl
  | cons t ts ih =>
      intro k s hk hnone
      obtain ⟨calls, hplaces, hcalled, hpending⟩ := called_onTick (r := r) s t
      rw [if_neg (by omega)] at hpending
      have hrest := ih (k + 1) (r.watched.onTick s t) (by rw [← List.drop_drop, hk]; rfl) hpending
      have htick : whole[k]? = some t := by
        rw [← List.head?_drop, hk]
        rfl
      rw [if_pos hd, hnone, Option.toList_none, List.map_nil, List.nil_append] at hplaces
      rw [callsFrom, approvalsFrom, due_cons, hcalled.drop, List.map_append, hrest]
      congr 1
      rw [List.map_map, Nat.add_zero, htick,
        show (fun c : ℕ × Call => (c.1, c.2.place)) ∘ (fun c => (k, c)) =
          (fun place => (k, place)) ∘ Call.place from rfl, ← List.map_map, hplaces]
      cases r.watched.approved s t <;> rfl

/-- With a delay, however long, it is settled at the next tick. -/
theorem calls_next (hd : 0 < r.executionDelay) (whole : List MarketTick) :
    ∀ (ticks : List MarketTick) (k : ℕ) (s : RunState A (X × List Call)),
      whole.drop k = ticks →
      (callsFrom r k s ticks).map (fun c => (c.1, c.2.place)) =
        (s.pending.toList.flatMap fun p => ticks.head?.toList.map fun t => (k, p.1, t)) ++
          due 1 whole (approvalsFrom r k s ticks) := by
  intro ticks
  induction ticks with
  | nil =>
      intro k s hk
      cases s.pending <;> rfl
  | cons t ts ih =>
      intro k s hk
      obtain ⟨calls, hplaces, hcalled, hpending⟩ := called_onTick (r := r) s t
      rw [if_pos hd] at hpending
      have hdrop : whole.drop (k + 1) = ts := by
        rw [← List.drop_drop, hk]
        rfl
      have hrest := ih (k + 1) (r.watched.onTick s t) hdrop
      have htick : whole[k + 1]? = ts.head? := by
        rw [← hdrop, List.head?_drop]
      rw [if_neg (by omega), List.append_nil] at hplaces
      rw [callsFrom, approvalsFrom, due_cons, hcalled.drop, List.map_append, hrest, htick, hpending]
      congr 1
      · rw [List.map_map,
          show (fun c : ℕ × Call => (c.1, c.2.place)) ∘ (fun c => (k, c)) =
            (fun place => (k, place)) ∘ Call.place from rfl, ← List.map_map, hplaces]
        cases s.pending <;> rfl
      · congr 1
        cases r.watched.approved s t <;> rfl

/-! ## Which delays are honoured -/

theorem mem_due {d : ℕ} {ticks : List MarketTick} {approvals : List (ℕ × Intent)} {j : ℕ}
    {i : Intent} {t : MarketTick} : (j, i, t) ∈ due d ticks approvals ↔
      ∃ k, (k, i) ∈ approvals ∧ k + d = j ∧ ticks[j]? = some t := by
  unfold due
  rw [List.mem_filterMap]
  constructor
  · rintro ⟨⟨k, i'⟩, hmem, hsome⟩
    obtain ⟨t', htick, heq⟩ := Option.map_eq_some_iff.mp hsome
    cases heq
    exact ⟨k, hmem, rfl, htick⟩
  · rintro ⟨k, hmem, rfl, htick⟩
    exact ⟨(k, i), hmem, by rw [htick]; rfl⟩

/-- Nothing is due that was approved on the last tick. -/
theorem due_eq_nil {d : ℕ} (hd : 1 ≤ d) {ticks : List MarketTick}
    {approvals : List (ℕ × Intent)} (h : ∀ a ∈ approvals, ticks.length ≤ a.1 + 1) :
    due d ticks approvals = [] := by
  rw [List.eq_nil_iff_forall_not_mem]
  rintro ⟨j, i, t⟩ hmem
  obtain ⟨k, hk, rfl, htick⟩ := mem_due.mp hmem
  have hlen := (List.getElem?_eq_some_iff.mp htick).1
  have hlast := h (k, i) hk
  dsimp only at hlast
  omega

/-- If what is due one tick later is due `d` ticks later, an approval with a tick behind it
is later than another such approval; so there is none, by induction on the index. -/
theorem last_of_due_eq {d : ℕ} (hd : 2 ≤ d) {ticks : List MarketTick}
    {approvals : List (ℕ × Intent)} (h : due 1 ticks approvals = due d ticks approvals) :
    ∀ n, ∀ a ∈ approvals, a.1 = n → ticks.length ≤ a.1 + 1 := by
  intro n
  induction n using Nat.strongRecOn with
  | _ n ih =>
      rintro ⟨k, i⟩ hmem rfl
      by_contra hnext
      have htick : ticks[k + 1]? = some ticks[k + 1] := List.getElem?_eq_getElem (not_le.mp hnext)
      have hdue : (k + 1, i, ticks[k + 1]) ∈ due 1 ticks approvals :=
        mem_due.mpr ⟨k, hmem, rfl, htick⟩
      rw [h] at hdue
      obtain ⟨k', hmem', hk', _⟩ := mem_due.mp hdue
      have hearlier := ih k' (by dsimp only; omega) (k', i) hmem' rfl
      dsimp only at hearlier hnext
      omega

/-- A run honours its delay exactly when the delay is at most one tick, or nothing is
approved before the last tick. -/
theorem honoured_iff {s : RunState A (X × List Call)} (ticks : List MarketTick)
    (hd : 0 ≤ r.executionDelay) (hn : s.pending = none) :
    Honoured r s ticks ↔
      r.executionDelay ≤ 1 ∨ ∀ a ∈ approvalsFrom r 0 s ticks, ticks.length ≤ a.1 + 1 := by
  have hfills : (r.loop (unwatched s) ticks).report.fills =
      s.report.fills ++ (callsFrom r 0 s ticks).filterMap (·.2.fill) := by
    rw [← unwatched_loop]
    exact fills_calls (r := r) ticks 0 s
  rcases lt_or_eq_of_le hd with hpos | hzero
  · have hcalls := calls_next hpos ticks ticks 0 s rfl
    rw [hn, Option.toList_none, List.flatMap_nil, List.nil_append] at hcalls
    rw [Honoured, hcalls]
    constructor
    · rintro ⟨heq, _⟩
      by_cases hone : r.executionDelay ≤ 1
      · exact Or.inl hone
      · exact Or.inr fun a ha => last_of_due_eq (by omega) heq a.1 a ha rfl
    · rintro (hone | hlast)
      · rw [show r.executionDelay.toNat = 1 by omega]
        exact ⟨rfl, hfills⟩
      · rw [due_eq_nil le_rfl hlast, due_eq_nil (by omega) hlast]
        exact ⟨rfl, hfills⟩
  · rw [Honoured, calls_now hzero.ge ticks ticks 0 s rfl hn, ← hzero]
    exact ⟨fun _ => Or.inl zero_le_one, fun _ => ⟨rfl, hfills⟩⟩

end Run

/-! ## Runs -/

/-- `aState`, with no calls so far. -/
def aWatchedState : RunState Unit (Unit × List Call) where
  agent := ()
  executor := ((), [])
  policy := aState.policy
  wallet := aState.wallet

theorem honoured_iff_next_tick :
    Honoured (aRunner buyOne 1) aWatchedState twoTicks ↔
      (1 : ℤ) ≤ 1 ∨ ∀ a ∈ approvalsFrom (aRunner buyOne 1) 0 aWatchedState twoTicks,
        twoTicks.length ≤ a.1 + 1 :=
  honoured_iff (r := aRunner buyOne 1) (s := aWatchedState) twoTicks (by decide) rfl

/-- With a delay of two ticks, the purchases approved at ticks 0 and 1 reach the executor at
ticks 1 and 2; due is the first alone, at tick 2. -/
theorem delay_two_not_honoured :
    ¬ Honoured (aRunner buyOne 2) aWatchedState (marketTicks "BTC" [100, 101, 102]) := by
  intro h
  have hticks := congrArg (List.map Prod.fst) h.1
  exact absurd hticks (by decide +kernel)

end Runner

end TreasuryForge
