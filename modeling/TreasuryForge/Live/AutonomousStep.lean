/-
# `Live.AutonomousStep` — what one call of the runner does to the world

`Step w a t op r t' w'`: at turn `t` in world `w`, the call `op` is answered by `a` with the
reply `r`, and leaves turn `t'` and world `w'`.  One constructor per effect: most calls
leave the account, the books, the policy and the history as they are; a bar moves one
book; an evaluation prunes the policy's windows; a submission changes the account.
`step_of_answer` is the only place where `exec` is unfolded; the invariants of `Live.Exits`,
`Live.DoubleEntry` and `Live.Limits` are kept by cases on `Step`.
-/
import TreasuryForge.Live.AutonomousProtocol

namespace TreasuryForge.Autonomous

open Resume Orders

/-- `w'` has the account, the policy and the finished turns of `w`. -/
structure Same (w w' : World) : Prop where
  account : w'.account = w.account
  policy : w'.policy = w.policy
  past : w'.past = w.past

/-- `w'` has the books and the current turn of `w` too. -/
structure Quiet (w w' : World) : Prop extends Same w w' where
  books : w'.books = w.books
  pass : w'.pass = w.pass

theorem Quiet.refl (w : World) : Quiet w w := ⟨⟨rfl, rfl, rfl⟩, rfl, rfl⟩

theorem Same.exposure {w w' : World} (h : Same w w') (coin : String) :
    w'.exposure coin = w.exposure coin := by
  unfold World.exposure
  rw [h.account]

theorem Quiet.sent {w w' : World} (h : Quiet w w') : w'.sent = w.sent := by
  unfold World.sent
  rw [h.past, h.pass]

/-- Calls that are about nothing of this. -/
def Op.quiet : Op → Bool
  | .args | .time | .lastBar _ | .journal _ _ | .resetEq _ | .ledger _ | .deploys _ _
  | .committee _ _ | .collateral | .rail _ _ => true
  | _ => false

theorem exec_quiet {w w' : World} {op : Op} {a : Answer} {r : Ret op} (hq : op.quiet = true)
    (h : w.exec op a = some (r, w')) : Quiet w w' := by
  cases op with
  | args => cases a <;> cases h; exact Quiet.refl w
  | time => cases a <;> cases h; exact ⟨⟨rfl, rfl, rfl⟩, rfl, rfl⟩
  | lastBar _ => cases a <;> cases h; exact Quiet.refl w
  | journal _ _ => cases a <;> cases h <;> exact ⟨⟨rfl, rfl, rfl⟩, rfl, rfl⟩
  | resetEq _ => cases a <;> cases h; exact ⟨⟨rfl, rfl, rfl⟩, rfl, rfl⟩
  | ledger _ => cases a <;> cases h <;> exact Quiet.refl w
  | deploys _ _ => cases a <;> cases h <;> exact Quiet.refl w
  | committee _ _ => cases a <;> cases h <;> exact Quiet.refl w
  | collateral => cases a <;> cases h <;> exact Quiet.refl w
  | rail _ _ => cases a <;> cases h <;> exact Quiet.refl w
  | _ => cases hq

theorem exec_evaluate {w w' : World} {i : Intent} {tick : MarketTick} {wallet : SimWallet}
    {a : Answer} {r : Verdict} (h : w.exec (.evaluate i tick wallet) a = some (r, w')) :
    r = (w.policy.evaluate i tick wallet none).1 ∧
      w' = { w with policy := (w.policy.evaluate i tick wallet none).2 } := by
  cases a with
  | done =>
      obtain ⟨hr, hw⟩ := Prod.mk.inj (Option.some.inj h)
      exact ⟨hr.symm, hw.symm⟩
  | _ => cases h

theorem exec_positions {w w' : World} {a : Answer} {r : Fallible (List Position)}
    (h : w.exec .positions a = some (r, w')) :
    w' = w ∧ ((∃ ps, r = .ok ps ∧ w.Lists ps) ∨ ∃ e, r = .error e) := by
  cases a with
  | positions ps =>
      simp only [World.exec] at h
      split at h
      · next hps =>
          cases h
          exact ⟨rfl, Or.inl ⟨ps, rfl, hps⟩⟩
      · cases h
  | raised e =>
      cases h
      exact ⟨rfl, Or.inr ⟨e, rfl⟩⟩
  | _ => cases h

/-- What a bar does to the book of its coin, and what the runner follows. -/
inductive Seen (coin : String) (w w' : World) : Turn → Prop
  | enter : (w.books coin).inPos = false → (w'.books coin).inPos = true →
      w'.pass = { w.pass with action := some .enter } → Seen coin w w' (.following coin .enter)
  | exit {action} : action.isExit = true → (w'.books coin).inPos = false →
      w'.pass = { w.pass with action := some action } → Seen coin w w' (.following coin action)
  | rest {action} : action = .hold ∨ action = .flat →
      (w'.books coin).inPos = (w.books coin).inPos →
      w'.pass = { w.pass with action := some action } → Seen coin w w' .idle
  | failed : (w'.books coin).inPos = (w.books coin).inPos → w'.pass = w.pass →
      Seen coin w w' .idle

theorem seen_observe (w : World) (coin : String) (b : ClosedBar) :
    Seen coin w (w.observe coin b).2
        (Turn.next (.observing coin) (.observe coin b) (w.observe coin b).1) ∧
      Same w (w.observe coin b).2 ∧ ∀ c, c ≠ coin → (w.observe coin b).2.books c = w.books c := by
  have hcases := (w.books coin).observe_cases b.high b.low b.close
  unfold World.observe
  cases hb : (w.books coin).observe b.high b.low b.close with
  | mk result book =>
      rw [hb] at hcases
      have hother : ∀ c, c ≠ coin → (Function.update w.books coin book) c = w.books c := by
        intro c hc
        exact Function.update_of_ne hc ..
      cases result with
      | none =>
          refine ⟨.failed ?_ rfl, ⟨rfl, rfl, rfl⟩, hother⟩
          obtain ⟨_, h, _⟩ | ⟨_, _, h, _⟩ | ⟨_, h⟩ := hcases
          · cases h
          · cases h
          · simpa using h
      | some seen =>
          obtain ⟨action, r⟩ := seen
          refine ⟨?_, ⟨rfl, rfl, rfl⟩, hother⟩
          obtain ⟨_, h, h₀, h₁⟩ | ⟨_, _, h, hexit, _, h₁⟩ | ⟨hrest, h₁⟩ := hcases
          · cases h
            exact .enter h₀ (by simpa using h₁) rfl
          · cases h
            rw [Turn.next_observe (Or.inl hexit)]
            exact .exit hexit (by simpa using h₁) rfl
          · have hr := hrest _ _ rfl
            have hn : ∀ eq,
                Turn.next (.observing coin) (.observe coin b) (.ok (action, eq)) = .idle := by
              intro eq
              rcases hr with rfl | rfl
              · exact Turn.next_stopped rfl
              · exact Turn.next_stopped rfl
            rw [hn]
            exact .rest hr (by simpa using h₁) rfl

inductive Step (w : World) : Answer → Turn → (op : Op) → Ret op → Turn → World → Prop
  /-- the runner goes on, or gives up -/
  | stay {a t op r w'} : Quiet w w' → Step w a t op r t w'
  | stop {a t op r w'} : op.passed r = false → Quiet w w' → Step w a t op r .idle w'
  | turn {a t coin ms r t'} : t.exiting = none → t' = .observing coin ∨ t' = .idle →
      Step w a t (.bar coin ms) r t' (w.begin coin)
  | seen {a coin b r t' w'} : Seen coin w w' t' → Same w w' →
      (∀ c, c ≠ coin → w'.books c = w.books c) →
      Step w a (.observing coin) (.observe coin b) r t' w'
  | tick {a coin ms} : Step w a (.following coin .enter) .time ms (.ticked coin ms)
      { w with clock := ms }
  | approve {a coin ms n price wallet r policy} : hlMin ≤ n →
      (w.policy.evaluate (entryIntent coin n) ⟨coin, price, seconds ms⟩ wallet none).1.allowed
        = true →
      policy.config = w.policy.config →
      Step w a (.ticked coin ms) (.evaluate (entryIntent coin n) ⟨coin, price, seconds ms⟩ wallet)
        r (.approved coin n (seconds ms)) { w with policy := policy }
  | deny {a coin ms i tick wallet r policy} : policy.config = w.policy.config →
      Step w a (.ticked coin ms) (.evaluate i tick wallet) r .idle { w with policy := policy }
  | enter {coin n ts id size landed result} : Possible size landed result →
      Step w (.entered size landed result) (.approved coin n ts)
        (.submit false (entryIntent coin n) id coin) result .idle
        (w.send false (entryIntent coin n) coin (stateOf result)
          ⟨(w.exposure coin).held + (landed.map Prod.fst).sum,
            (w.exposure coin).working + (landed.map Prod.snd).sum, size⟩)
  | found {a coin action r} : action ≠ .enter →
      Step w a (.following coin action) .positions r (.closing coin) w
  | missing {a coin action r} : action ≠ .enter → ¬ 0 < (w.exposure coin).held →
      Step w a (.following coin action) .positions r .idle w
  | close {coin i id left result} : 0 ≤ left → left ≤ (w.exposure coin).held →
      Step w (.closed left result) (.closing coin) (.submit true i id coin) result .idle
        (w.send true i coin (stateOf result) { w.exposure coin with held := left })

/-- Every call the runner is allowed does what `Step` says. -/
theorem step_of_answer {w w' : World} {t : Turn} {op : Op} {a : Answer} {r : Ret op}
    (hal : Allowed t op) (hx : w.exec op a = some (r, w')) :
    Step w a t op r (t.next op r) w' := by
  have quiet : op.quiet = true → t.advance op r = t → Step w a t op r (t.next op r) w' := by
    intro hq ht
    have hw := exec_quiet hq hx
    cases hp : op.passed r with
    | true =>
        rw [Turn.next_passed hp, ht]
        exact .stay hw
    | false =>
        rw [Turn.next_stopped hp]
        exact .stop hp hw
  cases hal with
  | args => exact quiet rfl rfl
  | now => exact quiet rfl rfl
  | @bar _ coin ms ht =>
      have hw : w' = w.begin coin := by cases a <;> cases hx <;> rfl
      rw [hw]
      refine .turn ht ?_
      cases hp : Op.passed (.bar coin ms) r with
      | true => exact Or.inl (Turn.next_passed hp)
      | false => exact Or.inr (Turn.next_stopped hp)
  | lastBar => exact quiet rfl rfl
  | @observe coin b =>
      have hw : w.observe coin b = (r, w') := by
        cases a with
        | done => exact Option.some.inj hx
        | _ => cases hx
      have hseen := seen_observe w coin b
      rw [hw] at hseen
      exact .seen hseen.1 hseen.2.1 hseen.2.2
  | journal => exact quiet rfl rfl
  | resetEq => exact quiet rfl rfl
  | ledger => exact quiet rfl rfl
  | deploys => exact quiet rfl rfl
  | committee => exact quiet rfl rfl
  | collateral => exact quiet rfl rfl
  | tick =>
      cases a <;> cases hx
      exact .tick
  | @evaluate coin ms n price wallet hn =>
      obtain ⟨hr, rfl⟩ := exec_evaluate hx
      have hconfig : (w.policy.evaluate (entryIntent coin n) ⟨coin, price, seconds ms⟩ wallet
          none).2.config = w.policy.config := PolicyEngine.evaluate_aged.config
      cases hp : Op.passed (.evaluate (entryIntent coin n) ⟨coin, price, seconds ms⟩ wallet) r with
      | true =>
          have hv : r.allowed = true := hp
          rw [Turn.next_passed hp]
          exact .approve hn (hr ▸ hv) hconfig
      | false =>
          rw [Turn.next_stopped hp]
          exact .deny hconfig
  | railEnter => exact quiet rfl rfl
  | stampEnter => exact quiet rfl rfl
  | @enter coin n ts id =>
      cases a with
      | entered size landed result =>
          simp only [World.exec] at hx
          split at hx
          · next hp =>
              cases hx
              have hn : Turn.next (.approved coin n ts)
                  (.submit false (entryIntent coin n) id coin) r = .idle := rfl
              rw [hn]
              exact .enter hp
          · cases hx
      | _ => cases hx
  | @positions coin action ha =>
      obtain ⟨rfl, ⟨ps, hr, hps⟩ | ⟨e, hr⟩⟩ := exec_positions hx
      · have hp : Op.passed .positions r = true := hr ▸ rfl
        have hn : Turn.advance (.following coin action) .positions r =
            if (positionOf coin ps).isSome then .closing coin else .idle :=
          hr ▸ Turn.advance_positions ha
        rw [Turn.next_passed hp, hn]
        cases hpos : (positionOf coin ps).isSome with
        | true => exact .found ha
        | false =>
            refine .missing ha ?_
            intro hh
            rw [hps.isSome hh] at hpos
            cases hpos
      · have hp : Op.passed .positions r = false := hr ▸ rfl
        rw [Turn.next_stopped hp]
        exact .stop hp (Quiet.refl w')
  | railClose => exact quiet rfl rfl
  | stampClose => exact quiet rfl rfl
  | @close coin i id =>
      cases a with
      | closed left result =>
          simp only [World.exec] at hx
          split at hx
          · next hl =>
              cases hx
              have hn : Turn.next (.closing coin) (.submit true i id coin) r = .idle := rfl
              rw [hn]
              exact .close hl.1 hl.2
          · cases hx
      | _ => cases hx

/-! ## The turn and the account -/

/-- The pass the history has is the one the program is in. -/
def Turn.Fits : Turn → Pass → Prop
  | .idle, _ => True
  | .observing coin, p => p = { coin := coin }
  | .following coin action, p =>
      p = { coin := coin, action := some action } ∧ (action = .enter ∨ action.isExit = true)
  | .ticked coin _, p | .approved coin _ _, p => p = { coin := coin, action := some .enter }
  | .closing coin, p => ∃ action, action.isExit = true ∧ p = { coin := coin, action := some action }

/-- The invariant of the main loop: the turn fits, and no exposure is negative. -/
structure Base (t : Turn) (w : World) : Prop where
  fits : t.Fits w.pass
  nonneg : ∀ coin, 0 ≤ (w.exposure coin).held ∧ 0 ≤ (w.exposure coin).working

variable {w w' : World} {a : Answer} {t t' : Turn} {op : Op} {r : Ret op}

theorem Possible.sums {size : ℚ} {landed : List (ℚ × ℚ)} {result : Except Raised Outcome}
    (h : Possible size landed result) :
    0 ≤ (landed.map Prod.fst).sum ∧ 0 ≤ (landed.map Prod.snd).sum := by
  constructor
  · refine List.sum_nonneg ?_
    intro q hq
    obtain ⟨p, hp, rfl⟩ := List.mem_map.mp hq
    exact (h.1 p hp).1
  · refine List.sum_nonneg ?_
    intro q hq
    obtain ⟨p, hp, rfl⟩ := List.mem_map.mp hq
    exact (h.1 p hp).2.1

theorem nonneg_set {coin : String} {x : Exposure}
    (h : ∀ c, 0 ≤ (w.exposure c).held ∧ 0 ≤ (w.exposure c).working)
    (hx : 0 ≤ x.held ∧ 0 ≤ x.working) (he : w'.account = w.account.set coin x) :
    ∀ c, 0 ≤ (w'.exposure c).held ∧ 0 ≤ (w'.exposure c).working := by
  intro c
  have hw : w'.exposure c = (w.setExposure coin x).exposure c := by
    rw [World.exposure, he]
    rfl
  rw [hw, World.exposure_setExposure]
  split
  · exact hx
  · exact h c

theorem Base.step (h : Base t w) (hs : Step w a t op r t' w') : Base t' w' := by
  obtain ⟨hfits, hnonneg⟩ := h
  have same : Same w w' → ∀ c, 0 ≤ (w'.exposure c).held ∧ 0 ≤ (w'.exposure c).working := by
    intro hw c
    rw [hw.exposure]
    exact hnonneg c
  cases hs with
  | stay hq => exact ⟨hq.pass ▸ hfits, same hq.toSame⟩
  | stop _ hq => exact ⟨trivial, same hq.toSame⟩
  | turn _ ht =>
      refine ⟨?_, hnonneg⟩
      rcases ht with rfl | rfl
      · exact rfl
      · trivial
  | seen hseen hsame _ =>
      refine ⟨?_, same hsame⟩
      cases hseen with
      | enter _ _ hp =>
          rw [hp, hfits]
          exact ⟨rfl, Or.inl rfl⟩
      | exit hexit _ hp =>
          rw [hp, hfits]
          exact ⟨rfl, Or.inr hexit⟩
      | rest _ _ _ => trivial
      | failed _ _ => trivial
  | tick => exact ⟨hfits.1, hnonneg⟩
  | approve _ _ _ => exact ⟨hfits, hnonneg⟩
  | deny _ => exact ⟨trivial, hnonneg⟩
  | @enter coin _ _ _ _ _ _ hp =>
      obtain ⟨h₁, h₂⟩ := hp.sums
      have hc := hnonneg coin
      exact ⟨trivial, nonneg_set hnonneg ⟨add_nonneg hc.1 h₁, add_nonneg hc.2 h₂⟩ rfl⟩
  | found ha => exact ⟨⟨_, hfits.2.resolve_left ha, hfits.1⟩, hnonneg⟩
  | missing _ _ => exact ⟨trivial, hnonneg⟩
  | @close coin _ _ _ _ hl _ =>
      refine ⟨trivial, nonneg_set hnonneg ?_ rfl⟩
      exact ⟨hl, (hnonneg coin).2⟩

theorem Base.env {e : Env} (h : Base t w) (he : w.env e = some w') : Base t w' := by
  obtain ⟨coin, y, hy, rfl⟩ := World.env_eq_some he
  refine ⟨h.fits, nonneg_set h.nonneg ⟨(h.nonneg coin).1.trans hy.held, hy.working⟩ rfl⟩

end TreasuryForge.Autonomous
