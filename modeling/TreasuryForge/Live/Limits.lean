/-
# `Live.Limits` — the policy's rate and spend limits on the autonomous runner

An entry counts towards the limits when its outcome is FILLED or OPEN.
`_maybe_execute` means to register such an entry with the policy, but compares the
state's value, which is in lower case, with upper-case texts: no call of
`registerFill` is ever made, and the windows never grow.  `entries_within_limits`
says that the limits hold in a run in which the windows account for the entries
whenever the policy approves one.
-/
import TreasuryForge.Base.Window
import TreasuryForge.Live.AutonomousStep

namespace TreasuryForge.Autonomous

open Resume Protocol Orders Window

/-- The time and the notional of an entry that came back FILLED or OPEN. -/
def Sent.counted (s : Sent) : Option (ℤ × ℚ) :=
  if s.reduceOnly = false ∧ (s.state = some .filled ∨ s.state = some .open) then
    some (s.ts, s.notional)
  else none

def World.entries (w : World) : List (ℤ × ℚ) := w.sent.filterMap Sent.counted

/-- No reading of the clock is before the last one. -/
def clockGuard : Guard World Op Call Answer Env Boot where
  answer _ w op a := ∀ x ∈ w.exec op a, w.clock ≤ x.2.clock

/-- When the policy approves an intent, its windows account for the entries so far. -/
def World.Accounted (w : World) : Op → Prop
  | .evaluate intent tick wallet =>
      (w.policy.evaluate intent tick wallet none).1.allowed = true →
      (since w.policy.config.windowSteps tick.ts w.entries).length ≤
        (w.policy.recentAt tick.ts).length ∧
      load (since w.policy.config.spendWindow tick.ts w.entries) ≤ w.policy.spentAt tick.ts
  | _ => True

instance (w : World) (op : Op) : Decidable (w.Accounted op) := by
  unfold World.Accounted
  split <;> infer_instance

def accountGuard : Guard World Op Call Answer Env Boot where
  answer c w op a := clockGuard.answer c w op a ∧ w.Accounted op

instance : clockGuard.Checked where
  call _ _ := isTrue trivial
  answer _ _ _ _ := by unfold clockGuard; infer_instance
  env _ _ _ := isTrue trivial
  crash _ _ := isTrue trivial

instance : accountGuard.Checked where
  call _ _ := isTrue trivial
  answer _ _ _ _ := by unfold accountGuard clockGuard; infer_instance
  env _ _ _ := isTrue trivial
  crash _ _ := isTrue trivial

/-! ## The invariant -/

/-- The entries so far were admitted under the limits of the configuration. -/
structure Within (cfg : PolicyConfig) (w : World) : Prop where
  config : w.policy.config = cfg
  past : ∀ p ∈ w.entries, p.1 ≤ seconds w.clock
  rate : Admitted cfg.windowSteps cfg.maxTxPerWindow (ones w.entries)
  spend : ∀ b, cfg.maxNotionalPerWindow = some b → Admitted cfg.spendWindow (b + eps) w.entries

/-- An entry of notional `n`, checked at `e`, still fits. -/
structure Fits (cfg : PolicyConfig) (w : World) (n : ℚ) (e : ℤ) : Prop where
  past : ∀ p ∈ w.entries, p.1 ≤ e
  now : e ≤ seconds w.clock
  notional : 0 ≤ n
  rate : (since cfg.windowSteps e w.entries).length < cfg.maxTxPerWindow
  spend : ∀ b, cfg.maxNotionalPerWindow = some b →
    load (since cfg.spendWindow e w.entries) + n ≤ b + eps

/-- What a turn says of the entry under way. -/
def Pending (cfg : PolicyConfig) (w : World) : Turn → Prop
  | .ticked _ ms => ms ≤ w.clock ∧ ∀ p ∈ w.entries, p.1 ≤ seconds ms
  | .approved _ n e => Fits cfg w n e
  | _ => True

variable {cfg : PolicyConfig} {w w' : World} {a : Answer} {t t' : Turn} {op : Op} {r : Ret op}

theorem seconds_mono {ms ms' : ℤ} (h : ms ≤ ms') : seconds ms ≤ seconds ms' :=
  Int.ediv_le_ediv (by decide) h

theorem entries_send {ro : Bool} {i : Intent} {coin : String} {s : Option OrderState}
    {x : Exposure} :
    (w.send ro i coin s x).entries = w.entries ++ (Sent.counted
      ⟨coin, ro, seconds w.clock, i.quoteAmount.getD 0, s, w.exposure coin⟩).toList := by
  unfold World.entries
  rw [World.sent_send, List.filterMap_append]
  simp only [List.filterMap_cons, List.filterMap_nil]
  cases Sent.counted _ <;> rfl

/-- Nothing but time has passed. -/
theorem Within.later (h : Within cfg w) (he : w'.entries = w.entries)
    (hp : w'.policy.config = w.policy.config) (hc : w.clock ≤ w'.clock) : Within cfg w' where
  config := hp.trans h.config
  past p hm := (h.past p (he ▸ hm)).trans (seconds_mono hc)
  rate := he ▸ h.rate
  spend := he ▸ h.spend

theorem Pending.later (h : Pending cfg w t) (he : w'.entries = w.entries)
    (hc : w.clock ≤ w'.clock) : Pending cfg w' t := by
  cases t with
  | ticked coin ms => exact ⟨h.1.trans hc, he ▸ h.2⟩
  | approved coin n e =>
      have hf : Fits cfg w n e := h
      exact {
        past := he ▸ hf.past
        now := hf.now.trans (seconds_mono hc)
        notional := hf.notional
        rate := he ▸ hf.rate
        spend := he ▸ hf.spend }
  | _ => trivial

/-- A submitted entry is admitted under the limits. -/
theorem Within.enter {coin : String} {n : ℚ} {e : ℤ} {s : Option OrderState} {x : Exposure}
    (h : Within cfg w) (hf : Fits cfg w n e) :
    Within cfg (w.send false (entryIntent coin n) coin s x) := by
  have he : (w.send false (entryIntent coin n) coin s x).entries = w.entries ++ (Sent.counted
      ⟨coin, false, seconds w.clock, n, s, w.exposure coin⟩).toList := entries_send
  by_cases hs : s = some .filled ∨ s = some .open
  · have hc : Sent.counted ⟨coin, false, seconds w.clock, n, s, w.exposure coin⟩ =
        some (seconds w.clock, n) := if_pos ⟨rfl, hs⟩
    rw [hc] at he
    refine ⟨h.config, ?_, ?_, ?_⟩
    · intro p hp
      rw [he] at hp
      rcases List.mem_append.mp hp with hp | hp
      · exact h.past p hp
      · rw [List.mem_singleton.mp hp]
        exact le_rfl
    · rw [he]
      exact h.rate.ones_snoc hf.past hf.now hf.rate
    · intro b hb
      rw [he]
      exact (h.spend b hb).snoc hf.past hf.now hf.notional (hf.spend b hb)
  · have hc : Sent.counted ⟨coin, false, seconds w.clock, n, s, w.exposure coin⟩ = none :=
      if_neg fun hx => hs hx.2
    rw [hc, Option.toList_none, List.append_nil] at he
    exact h.later he rfl le_rfl

/-- One call keeps the entries within the limits, when the condition holds. -/
theorem Within.step (h : Within cfg w) (hp : Pending cfg w t) (ha : w.Accounted op)
    (hc : w.clock ≤ w'.clock) (hs : Step w a t op r t' w') : Within cfg w' ∧ Pending cfg w' t' := by
  cases hs with
  | stay hq =>
      have he : w'.entries = w.entries := by rw [World.entries, hq.sent, World.entries]
      exact ⟨h.later he (by rw [hq.policy]) hc, hp.later he hc⟩
  | stop _ hq =>
      have he : w'.entries = w.entries := by rw [World.entries, hq.sent, World.entries]
      exact ⟨h.later he (by rw [hq.policy]) hc, trivial⟩
  | @turn _ _ coin _ _ _ _ ht =>
      have he : (w.begin coin).entries = w.entries := by
        rw [World.entries, World.sent_begin, World.entries]
      refine ⟨h.later he rfl hc, ?_⟩
      rcases ht with rfl | rfl
      · trivial
      · trivial
  | seen hseen hsame _ =>
      have hsent : w'.pass.sent = w.pass.sent := by
        cases hseen with
        | enter _ _ hpass => rw [hpass]
        | exit _ _ hpass => rw [hpass]
        | rest _ _ hpass => rw [hpass]
        | failed _ hpass => rw [hpass]
      have he : w'.entries = w.entries := by
        unfold World.entries World.sent
        rw [hsame.past, hsent]
      refine ⟨h.later he (by rw [hsame.policy]) hc, ?_⟩
      cases hseen <;> trivial
  | @tick _ _ ms =>
      refine ⟨h.later rfl rfl hc, le_rfl, ?_⟩
      intro p hm
      exact (h.past p hm).trans (seconds_mono hc)
  | @approve _ coin ms n price wallet _ policy hn hv hconfig =>
      refine ⟨h.later rfl hconfig le_rfl, ?_⟩
      obtain ⟨hcount, hspent⟩ := ha hv
      have happ := PolicyEngine.evaluate_allowed hv
      have hrate := happ.rate
      rw [h.config] at hcount hspent hrate
      have hpos : 0 ≤ n := le_trans (by decide) hn
      exact {
        past := hp.2
        now := seconds_mono hp.1
        notional := hpos
        rate := hcount.trans_lt hrate
        spend := fun b hb => by
          have hbudget : w.policy.spentAt (seconds ms) + |n| ≤ b + eps :=
            happ.budget b (by rw [h.config]; exact hb)
          rw [abs_of_nonneg hpos] at hbudget
          calc load (since cfg.spendWindow (seconds ms) w.entries) + n
              ≤ w.policy.spentAt (seconds ms) + n := add_le_add_left hspent n
            _ ≤ b + eps := hbudget }
  | deny hconfig => exact ⟨h.later rfl hconfig le_rfl, trivial⟩
  | enter _ => exact ⟨h.enter hp, trivial⟩
  | found _ => exact ⟨h, trivial⟩
  | missing _ _ => exact ⟨h, trivial⟩
  | close _ _ =>
      refine ⟨h.later ?_ rfl le_rfl, trivial⟩
      rw [entries_send]
      exact List.append_nil _

/-- The exchange's own moves are no entries. -/
theorem Within.env {e : Env} (h : Within cfg w) (he : w.env e = some w') : Within cfg w' := by
  obtain ⟨coin, y, _, rfl⟩ := World.env_eq_some he
  exact h.later rfl rfl le_rfl

theorem Pending.env {e : Env} (h : Pending cfg w t) (he : w.env e = some w') :
    Pending cfg w' t := by
  obtain ⟨coin, y, _, rfl⟩ := World.env_eq_some he
  exact h.later rfl le_rfl

theorem within_cert {w₀ : World} (h₀ : w₀.sent = []) :
    Host.Cert calls accountGuard (fun _ => protocol) (fun c => .following c.coin c.action)
      (fun _ => Ends) w₀ (Within w₀.policy.config)
      (fun _ t _ w => Within w₀.policy.config w ∧ Pending w₀.policy.config w t) where
  keeps _ := maybeExecute_keeps
  init := by
    have he : w₀.entries = [] := by
      unfold World.entries
      rw [h₀]
      rfl
    refine ⟨rfl, ?_, ?_, ?_⟩
    · intro p hp
      rw [he] at hp
      cases hp
    · rw [he]
      exact .nil
    · intro b _
      rw [he]
      exact .nil
  enter h _ _ := ⟨h, trivial⟩
  answer h hal hg hx _ := h.1.step h.2 hg.2 (hg.1 _ hx) (step_of_answer hal hx)
  finish h _ := h.1
  envIdle h _ he := h.env he
  envBusy h _ _ he := ⟨h.1.env he, h.2.env he⟩
  crashIdle _ _ hw := nomatch hw
  crashBusy _ _ hw := nomatch hw

theorem config_buildPolicy {args : Args} {col₀ : ℚ} {log : List PolicyEngine.Snapshot} :
    (buildPolicy args col₀ log).config = (buildPolicy args col₀ []).config := by
  unfold buildPolicy
  cases log.getLast? <;> rfl

/-- In a run with non-decreasing readings of the clock in which the policy's windows
account for the entries at each approval, the entries that came back FILLED or OPEN
keep to the rate limit in every window, and their notional to the budget in every
window that holds one. -/
theorem entries_within_limits {b : Boot} {log : List PolicyEngine.Snapshot}
    {journals : String → List ScalpEvent} {cf : Config World Op Ret Raised Unit Call}
    (hc : calls.Reach accountGuard (start b log journals) cf) (a : ℤ) :
    let window := within b.args.policyWindow a cf.world.entries
    window.length ≤ b.args.maxTx ∧
    (window ≠ [] → load window ≤ b.args.maxSpendPct * b.col₀ + eps) := by
  have h : Within (start b log journals).policy.config cf.world :=
    (within_cert rfl).always (fun _ h => h) (fun _ _ _ _ h => h.1) hc
  have hcfg : (start b log journals).policy.config = (buildPolicy b.args b.col₀ []).config :=
    config_buildPolicy
  rw [hcfg] at h
  exact ⟨h.rate.length_within, fun hne => (h.spend _ rfl).load_within hne⟩

/-! ## One entry per hour -/

/-- One trade an hour, from a collateral of 2000. -/
def aBoot : Boot := ⟨{ coins := ["BTC"], maxTx := 1 }, 2000⟩

def anEntry : Call := ⟨"BTC", .enter, 1 / 100, 100⟩

/-- An entry of 20 at this time of day, through the gate, filled at once. -/
def filledAt (ms : ℤ) : List (Event Call Answer Env Boot) :=
  [.call anEntry, .answer .done, .answer (.verdict true), .answer (.verdict true),
    .answer (.collateral 2000), .answer (.clock ms), .answer .done, .answer .done,
    .answer (.clock ms), .answer (.entered 1 [(1, 0)] (.ok ⟨"o", .filled, none, ""⟩)), .done]

/-- Entries an hour apart: each is alone in its window. -/
theorem entries_within_limits_hourly :
    ∃ cf, calls.Reach accountGuard (start aBoot [] fun _ => []) cf ∧
      cf.world.entries = [(0, 20), (3600, 20)] ∧ ∀ a,
        (within 3600 a cf.world.entries).length ≤ 1 ∧
        (within 3600 a cf.world.entries ≠ [] →
          load (within 3600 a cf.world.entries) ≤ 1 / 2 * 2000 + eps) := by
  obtain ⟨cf, hc, ht⟩ := calls.reach_of_run accountGuard (start aBoot [] fun _ => [])
    (filledAt 0 ++ filledAt 3600000) (fun cf => cf.world.entries = [(0, 20), (3600, 20)])
    (by decide +kernel)
  exact ⟨cf, hc, by simpa using ht, entries_within_limits hc⟩

/-- The second entry, one second later and so under another id, fills as well: two in a
window that allows one. -/
theorem uncounted_entries_exceed_limit :
    ∃ cf, calls.Reach clockGuard (start aBoot [] fun _ => []) cf ∧
      ¬ (within aBoot.args.policyWindow 0 cf.world.entries).length ≤ aBoot.args.maxTx := by
  obtain ⟨cf, hc, ht⟩ := calls.reach_of_run clockGuard (start aBoot [] fun _ => [])
    (filledAt 0 ++ filledAt 1000) (fun cf => cf.world.entries = [(0, 20), (1, 20)])
    (by decide +kernel)
  refine ⟨cf, hc, ?_⟩
  have he : cf.world.entries = [(0, 20), (1, 20)] := by simpa using ht
  rw [he]
  decide

end TreasuryForge.Autonomous
