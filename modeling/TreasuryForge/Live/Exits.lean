/-
# `Live.Exits` — an exit of a live entry closes it

`_maybe_execute` asks the gate before anything else, also for a close, although its
docstring exempts closes from being blocked.  `exits_close` says that the first EXIT
after a filled ENTER leads to a reduce-only order in the same turn when the gate is
open at that EXIT and no call on the way raises; with the gate closed the position is
left where it is, and the book goes flat.
-/
import TreasuryForge.Live.AutonomousStep

namespace TreasuryForge.Autonomous

open Resume Protocol Orders

namespace Pass

/-- The book took an EXIT. -/
def exits (p : Pass) : Bool := p.action.any Action.isExit

/-- An ENTER of the coin was filled. -/
def filled (p : Pass) (coin : String) : Bool :=
  p.sent.any fun s => s.coin = coin ∧ s.reduceOnly = false ∧ s.state = some .filled

/-- A reduce-only order for the coin was submitted. -/
def closes (p : Pass) : Bool := p.sent.any fun s => s.coin = p.coin ∧ s.reduceOnly = true

end Pass

/-- An ENTER of the coin was filled, and no EXIT of it came since. -/
def live (coin : String) : List Pass → Bool
  | [] => false
  | p :: older => p.filled coin || (!(p.exits && p.coin = coin) && live coin older)

/-- An EXIT of a live entry comes with a close. -/
def Pass.Settled (p : Pass) (older : List Pass) : Prop :=
  p.exits = true → live p.coin older = true → p.closes = true

/-- Each EXIT of a live entry came with a close; latest first. -/
def Closed : List Pass → Prop
  | [] => True
  | p :: older => p.Settled older ∧ Closed older

/-- An EXIT of a live entry is being followed. -/
def World.Owes (w : World) : Prop :=
  w.pass.exits = true ∧ live w.pass.coin w.past = true ∧ w.pass.closes = false

instance (w : World) : Decidable w.Owes := by unfold World.Owes; infer_instance

/-- While an EXIT of a live entry is followed, the gate and the committee say yes and
nothing is raised; and the process does not die. -/
def exitGuard : Guard World Op Unit Answer Env Boot where
  answer _ w op a := w.Owes → ∀ x ∈ w.exec op a, op.passed x.1 = true
  crash _ _ := False

instance : exitGuard.Checked where
  call _ _ := isTrue trivial
  answer _ _ _ _ := by unfold exitGuard; infer_instance
  env _ _ _ := isTrue trivial
  crash _ _ := isFalse id

/-! ## The invariant -/

/-- What holds of the finished turns, the current one and the account. -/
structure Exits (t : Turn) (w : World) : Prop where
  closed : Closed w.past
  settled : t.exiting = none → w.pass.Settled w.past
  held : ∀ c, live c (w.pass :: w.past) = true → 0 < (w.exposure c).held
  exiting : ∀ c, t.exiting = some c → live c w.past = true → 0 < (w.exposure c).held

variable {w w' : World} {a : Answer} {t t' : Turn} {op : Op} {r : Ret op} {coin : String}

theorem ne_enter_of_isExit {action : Action} (h : action.isExit = true) : action ≠ .enter := by
  rintro rfl
  cases h

/-- A turn on an exit has sent nothing yet. -/
theorem Base.of_exiting (h : Base t w) (ht : t.exiting = some coin) :
    ∃ action, action.isExit = true ∧ w.pass = { coin := coin, action := some action } := by
  obtain ⟨hfits, _⟩ := h
  cases t with
  | following c action =>
      simp only [Turn.exiting] at ht
      split at ht
      · cases ht
      · next ha =>
          cases ht
          exact ⟨action, hfits.2.resolve_left ha, hfits.1⟩
  | closing c =>
      cases ht
      exact hfits
  | _ => cases ht

theorem owes_iff_live (h : Base t w) (ht : t.exiting = some coin) :
    w.Owes ↔ live coin w.past = true := by
  obtain ⟨action, hexit, hp⟩ := h.of_exiting ht
  unfold World.Owes
  rw [hp]
  constructor
  · intro ho
    exact ho.2.1
  · intro hl
    exact ⟨hexit, hl, rfl⟩

theorem live_cons {p : Pass} {older : List Pass} :
    live coin (p :: older) = true ↔
      p.filled coin = true ∨ (p.exits = true → p.coin ≠ coin) ∧ live coin older = true := by
  simp [live, imp_iff_not_or]

/-- An exit ends the live entry of its coin, and leaves the others. -/
theorem live_exit {action : Action} {sent : List Sent} {older : List Pass} {c : String}
    (hs : (⟨coin, some action, sent⟩ : Pass).filled c = false) (hexit : action.isExit = true) :
    live c (⟨coin, some action, sent⟩ :: older) = true ↔ coin ≠ c ∧ live c older = true := by
  rw [live_cons, hs]
  simp [Pass.exits, hexit]

/-- A turn without an exit and without a filled entry changes nothing. -/
theorem live_cons_of_quiet {p : Pass} {older : List Pass} {c : String} (hs : p.filled c = false)
    (he : p.exits = false) : live c (p :: older) = live c older := by
  simp [live, hs, he]

theorem Pass.settled_of_not_exits {p : Pass} {older : List Pass} (h : p.exits = false) :
    p.Settled older := by
  intro he
  rw [h] at he
  cases he

/-! ## The invariant is kept -/

theorem Exits.congr (h : Exits t w) (hpast : w'.past = w.past) (hpass : w'.pass = w.pass)
    (hx : ∀ c, w'.exposure c = w.exposure c) : Exits t w' where
  closed := hpast ▸ h.closed
  settled ht := by
    rw [hpass, hpast]
    exact h.settled ht
  held c hl := by
    rw [hpass, hpast] at hl
    rw [hx]
    exact h.held c hl
  exiting c ht hl := by
    rw [hpast] at hl
    rw [hx]
    exact h.exiting c ht hl

/-- The runner may stop following when no exit of a live entry is under way. -/
theorem Exits.leave (hb : Base t w) (h : Exits t w)
    (hno : ∀ c, t.exiting = some c → live c w.past ≠ true) (ht' : t'.exiting = none) :
    Exits t' w where
  closed := h.closed
  settled _ := by
    cases ht : t.exiting with
    | none => exact h.settled ht
    | some c =>
        obtain ⟨action, _, hp⟩ := hb.of_exiting ht
        intro _ hl
        rw [hp] at hl
        exact absurd hl (hno c ht)
  held := h.held
  exiting _ := Turn.not_exiting ht'

theorem Exits.proceed (hb : Base t w) (h : Exits t w) (ht : t.exiting = none)
    (ht' : t'.exiting = none) : Exits t' w :=
  h.leave hb (fun _ => Turn.not_exiting ht) ht'

/-- A bar begins an entry or an exit, or nothing. -/
theorem Exits.seen (hb : Base (.observing coin) w) (h : Exits (.observing coin) w)
    (hseen : Seen coin w w' t') (hsame : Same w w') : Exits t' w' := by
  have hpass : w.pass = { coin := coin } := hb.fits
  have hheld : ∀ c, live c w.past = true → 0 < (w'.exposure c).held := by
    intro c hl
    rw [hsame.exposure]
    exact h.held c (by rwa [hpass, live_cons_of_quiet rfl rfl])
  have quiet : ∀ action : Option Action, action.any Action.isExit = false → t'.exiting = none →
      w'.pass = { w.pass with action := action } → Exits t' w' := by
    intro action ha ht hp
    rw [hpass] at hp
    refine ⟨hsame.past ▸ h.closed, ?_, ?_, ?_⟩
    · intro _
      rw [hp]
      exact Pass.settled_of_not_exits ha
    · intro c hl
      rw [hp, hsame.past, live_cons_of_quiet (p := ⟨coin, action, []⟩) rfl ha] at hl
      exact hheld c hl
    · intro c
      exact Turn.not_exiting ht
  cases hseen with
  | enter _ _ hp => exact quiet _ rfl rfl hp
  | rest ha _ hp =>
      refine quiet _ ?_ rfl hp
      rcases ha with rfl | rfl <;> rfl
  | failed _ hp => exact quiet none rfl rfl (by rw [hp, hpass])
  | @exit action hexit _ hp =>
      have ht : (Turn.following coin action).exiting = some coin :=
        if_neg (ne_enter_of_isExit hexit)
      rw [hpass] at hp
      refine ⟨hsame.past ▸ h.closed, ?_, ?_, ?_⟩
      · intro e
        rw [ht] at e
        cases e
      · intro c hl
        rw [hp, hsame.past, live_exit rfl hexit] at hl
        exact hheld c hl.2
      · intro c _ hl
        rw [hsame.past] at hl
        exact hheld c hl

/-- An entry that was filled is held. -/
theorem Possible.pos {size : ℚ} {landed : List (ℚ × ℚ)} {result : Except Raised Outcome}
    (h : Possible size landed result) (hs : stateOf result = some .filled) :
    0 < (landed.map Prod.fst).sum := by
  obtain ⟨p, hp, hpos⟩ := h.2.2 hs
  refine hpos.trans_le (List.single_le_sum ?_ _ (List.mem_map_of_mem hp))
  intro q hq
  obtain ⟨p', hp', rfl⟩ := List.mem_map.mp hq
  exact (h.1 p' hp').1

theorem Exits.enter {n : ℚ} {ts : ℤ} {size : ℚ} {landed : List (ℚ × ℚ)}
    {result : Except Raised Outcome} (hb : Base (.approved coin n ts) w)
    (h : Exits (.approved coin n ts) w) (hposs : Possible size landed result) :
    Exits .idle (w.send false (entryIntent coin n) coin (stateOf result)
      ⟨(w.exposure coin).held + (landed.map Prod.fst).sum,
        (w.exposure coin).working + (landed.map Prod.snd).sum, size⟩) := by
  have hpass : w.pass = { coin := coin, action := some .enter } := hb.fits
  refine ⟨h.closed, ?_, ?_, fun _ => Turn.not_exiting rfl⟩
  · intro _
    refine Pass.settled_of_not_exits ?_
    simp only [World.send, hpass]
    rfl
  · intro c hl
    have hbefore : live c w.past = true → 0 < (w.exposure c).held := by
      intro hlive
      exact h.held c (by rwa [hpass, live_cons_of_quiet rfl rfl])
    rw [World.exposure_send]
    rcases live_cons.mp hl with hfilled | ⟨_, hlive⟩
    · -- this very entry was filled
      have hf : coin = c ∧ stateOf result = some .filled := by
        simpa [Pass.filled, World.send, hpass] using hfilled
      rw [if_pos hf.1.symm]
      exact add_pos_of_nonneg_of_pos (hb.nonneg coin).1 (hposs.pos hf.2)
    · have hc := hbefore hlive
      split
      · next he =>
          rw [he] at hc
          exact add_pos_of_pos_of_nonneg hc hposs.sums.1
      · exact hc

theorem Exits.close {i : Intent} {s : Option OrderState} {left : ℚ} (hb : Base (.closing coin) w)
    (h : Exits (.closing coin) w) :
    Exits .idle (w.send true i coin s { w.exposure coin with held := left }) := by
  obtain ⟨action, hexit, hpass⟩ := hb.fits
  let o : Sent := ⟨coin, true, seconds w.clock, i.quoteAmount.getD 0, s, w.exposure coin⟩
  have hsent : (w.send true i coin s { w.exposure coin with held := left }).pass =
      ⟨coin, some action, [o]⟩ := by
    simp [World.send, hpass, o]
  refine ⟨h.closed, ?_, ?_, fun _ => Turn.not_exiting rfl⟩
  · intro _ _ _
    rw [hsent]
    simp [Pass.closes, o]
  · intro c hl
    rw [hsent] at hl
    obtain ⟨hne, hlive⟩ := (live_exit (by simp [Pass.filled, o]) hexit).mp hl
    rw [World.exposure_send, if_neg hne.symm]
    refine h.held c ?_
    rw [hpass]
    exact (live_exit rfl hexit).mpr ⟨hne, hlive⟩

theorem Exits.step (hb : Base t w) (h : Exits t w) (hg : w.Owes → op.passed r = true)
    (hs : Step w a t op r t' w') : Exits t' w' := by
  cases hs with
  | stay hq => exact h.congr hq.past hq.pass hq.toSame.exposure
  | stop hp hq =>
      refine Exits.congr (h.leave hb ?_ rfl) hq.past hq.pass hq.toSame.exposure
      intro c ht hl
      rw [hg ((owes_iff_live hb ht).mpr hl)] at hp
      cases hp
  | @turn _ _ coin _ _ _ ht ht' =>
      refine ⟨⟨h.settled ht, h.closed⟩, ?_, ?_, ?_⟩
      · intro _
        exact Pass.settled_of_not_exits rfl
      · intro c hl
        rw [World.begin, live_cons_of_quiet rfl rfl] at hl
        exact h.held c hl
      · intro c
        rcases ht' with rfl | rfl <;> exact Turn.not_exiting rfl
  | @seen _ coin _ _ _ _ hseen hsame _ => exact h.seen hb hseen hsame
  | tick => exact (h.proceed hb rfl rfl).congr rfl rfl fun _ => rfl
  | approve _ _ _ => exact (h.proceed hb rfl rfl).congr rfl rfl fun _ => rfl
  | deny _ => exact (h.proceed hb rfl rfl).congr rfl rfl fun _ => rfl
  | enter hposs => exact h.enter hb hposs
  | @found _ coin action _ ha =>
      refine ⟨h.closed, fun e => ?_, h.held, ?_⟩
      · cases e
      rintro c ⟨⟩ hl
      exact h.exiting coin (if_neg ha) hl
  | @missing _ coin action _ ha hh =>
      refine h.leave hb ?_ rfl
      intro c ht hl
      have hc : c = coin := by
        have hx : (Turn.following coin action).exiting = some coin := if_neg ha
        rw [hx] at ht
        exact (Option.some.inj ht).symm
      rw [hc] at ht hl
      exact hh (h.exiting coin ht hl)
  | close _ _ => exact h.close hb

/-- The exchange's own moves leave a position of the runner where it is. -/
theorem Exits.env {e : Env} (h : Exits t w) (he : w.env e = some w') : Exits t w' := by
  obtain ⟨coin, y, hy, rfl⟩ := World.env_eq_some he
  have hle : ∀ c, (w.exposure c).held ≤ ((w.setExposure coin y).exposure c).held := by
    intro c
    rw [World.exposure_setExposure]
    split
    · next hc => exact hc ▸ hy.held
    · exact le_rfl
  exact {
    closed := h.closed
    settled := h.settled
    held := fun c hl => (h.held c hl).trans_le (hle c)
    exiting := fun c ht hl => (h.exiting c ht hl).trans_le (hle c) }

theorem exits_cert {w₀ : World} (hb : Base .idle w₀) (h₀ : w₀.past = []) (h₁ : w₀.pass = {}) :
    Host.Cert loop exitGuard (fun _ => protocol) (fun _ => .idle) (fun _ => Ends) w₀
      (fun w => Base .idle w ∧ Exits .idle w) (fun _ t _ w => Base t w ∧ Exits t w) where
  keeps _ := cycle_keeps
  init := by
    refine ⟨hb, ?_, ?_, ?_, ?_⟩
    · rw [h₀]
      trivial
    · intro _
      rw [h₁]
      exact Pass.settled_of_not_exits rfl
    · intro c hl
      rw [h₀, h₁] at hl
      cases hl
    · exact fun _ => Turn.not_exiting rfl
  enter h _ _ := h
  answer h hal hg hx _ :=
    let hs := step_of_answer hal hx
    ⟨h.1.step hs, h.2.step h.1 (fun ho => hg ho _ hx) hs⟩
  finish := by
    rintro w _ t r ⟨hbase, h⟩ ht
    refine ⟨⟨trivial, hbase.nonneg⟩, ⟨h.settled ht, h.closed⟩, ?_, ?_, ?_⟩
    · intro _
      exact Pass.settled_of_not_exits rfl
    · intro c hl
      exact h.held c (by rwa [live_cons_of_quiet rfl rfl] at hl)
    · exact fun _ => Turn.not_exiting rfl
  envIdle h _ he := ⟨h.1.env he, h.2.env he⟩
  envBusy h _ _ he := ⟨h.1.env he, h.2.env he⟩
  crashIdle _ hg _ := hg.elim
  crashBusy _ hg _ := hg.elim

/-- A process at its first start. -/
theorem base_start (b : Boot) (log : List PolicyEngine.Snapshot)
    (journals : String → List ScalpEvent) : Base .idle (start b log journals) :=
  ⟨trivial, fun _ => ⟨le_rfl, le_rfl⟩⟩

/-- In a run of one process in which the gate is open and nothing is raised while an
EXIT of a live entry is followed, each such EXIT led to a reduce-only order. -/
theorem exits_close {b : Boot} {log : List PolicyEngine.Snapshot}
    {journals : String → List ScalpEvent} {cf : Config World Op Ret Raised Unit Unit}
    (hc : loop.Reach exitGuard (start b log journals) cf) : Closed cf.world.past :=
  (exits_cert (base_start b log journals) rfl rfl).always (fun _ h => h.2.closed)
    (fun _ _ _ _ h => h.2.closed) hc

/-! ## One coin, in and out -/

/-- One coin, from a collateral of 2000. -/
def oneCoin : Boot := ⟨{ coins := ["BTC"] }, 2000⟩

/-- The answers up to the coin's book, on this bar. -/
def barOf (t : ℤ) (low close : ℚ) : List Answer :=
  [.done, .clock (1000 * t), .bar (some ⟨⟨close, low, close⟩, t⟩), .done, .done]

/-- A pass of the loop at second `t`, in which the coin has this bar. -/
def passOn (t : ℤ) (low close : ℚ) (rest : List Answer) : List (Event Unit Answer Env Boot) :=
  .call () :: ((barOf t low close ++ rest).map .answer ++ [.done])

/-- The gate and the committee say yes. -/
def gatePassed : List Answer := [.done, .verdict true, .verdict true, .collateral 2000]

/-- An entry of size 1 at second `t`, through all checks. -/
def entryOf (t : ℤ) (landed : List (ℚ × ℚ)) (state : OrderState) : List Answer :=
  gatePassed ++ [.clock (1000 * t), .done, .done, .clock (1000 * t),
    .entered 1 landed (.ok ⟨"o", state, none, ""⟩)]

/-- Two bars up from second `t` on, and an entry on the third that is filled. -/
def intoPosition (t : ℤ) : List (Event Unit Answer Env Boot) :=
  passOn t 100 100 [] ++ passOn (t + 1) 101 101 [] ++
    passOn (t + 2) 103 103 (entryOf (t + 2) [(1, 0)] .filled)

/-- The position is closed at second `t`. -/
def closeOf (t : ℤ) : List Answer :=
  [.positions [⟨"BTC", 1⟩], .done, .clock (1000 * t), .closed 0 (.ok ⟨"c", .filled, none, ""⟩)]

/-- The stop is hit with the gate open. -/
theorem exits_close_open : ∃ cf, loop.Reach exitGuard (start oneCoin [] fun _ => []) cf ∧
    (cf.world.past.map fun p => (p.exits, p.closes)).head? = some (true, true) ∧
    Closed cf.world.past := by
  obtain ⟨cf, hc, ht⟩ := loop.reach_of_run exitGuard (start oneCoin [] fun _ => [])
    (intoPosition 1 ++ passOn 4 90 90 ([.done, .done] ++ gatePassed ++ closeOf 4))
    (fun cf => (cf.world.past.map fun p => (p.exits, p.closes)).head? = some (true, true))
    (by decide +kernel)
  exact ⟨cf, hc, by simpa using ht, exits_close hc⟩

/-- Nothing is raised, and the process does not die. -/
def steadyGuard : Guard World Op Unit Answer Env Boot where
  answer _ _ _ a := match a with
    | .raised _ => False
    | _ => True
  crash _ _ := False

instance : steadyGuard.Checked where
  call _ _ := isTrue trivial
  answer _ _ _ a := by
    unfold steadyGuard
    cases a <;> infer_instance
  env _ _ _ := isTrue trivial
  crash _ _ := isFalse id

instance : ∀ l, Decidable (Closed l)
  | [] => isTrue trivial
  | _ :: older =>
      have := instDecidableClosed older
      inferInstanceAs (Decidable ((_ → _ → _) ∧ _))

/-- The stop is hit with the gate closed: no order, and the next pass begins. -/
theorem exit_blocked_by_gate :
    ∃ cf, loop.Reach steadyGuard (start oneCoin [] fun _ => []) cf ∧ ¬ Closed cf.world.past := by
  obtain ⟨cf, hc, ht⟩ := loop.reach_of_run steadyGuard (start oneCoin [] fun _ => [])
    (intoPosition 1 ++ passOn 4 90 90 [.done, .done, .done, .verdict false])
    (fun cf => ¬ Closed cf.world.past) (by decide +kernel)
  exact ⟨cf, hc, by simpa using ht⟩

end TreasuryForge.Autonomous
