/-
# `Live.Restart` — the runner's policy engine over restarts

`_build_policy` restores the last `policy_state` event of `state/policy_live`.  The
one place that appends such an event is after `register_fill`, which is never
reached (`countsAsTrade_eq_false`), so that no run adds to that journal, while the
engine in memory anchors at its first evaluation and may trip at any.  `Evolved` is
what is left of what the journal said; `rebuilt_iff` says when a restart has the
engine's anchor and trip all the same: when the journal said so before the first
process ran.
-/
import TreasuryForge.Live.Exits

namespace TreasuryForge.Autonomous

open Resume Protocol Orders

/-- The anchor and the trip that a journal restores. -/
def savedLatch (log : List PolicyEngine.Snapshot) : Option ℚ × Bool :=
  match log.getLast? with
  | some snap => snap.latch
  | none => (none, false)

theorem buildPolicy_latch {args : Args} {col₀ : ℚ} {log : List PolicyEngine.Snapshot} :
    (buildPolicy args col₀ log).latch = savedLatch log := by
  unfold buildPolicy savedLatch
  cases log.getLast? <;> rfl

/-- The journal is as it was, and the engine has its anchor and its trip, if it has any. -/
structure Evolved (log : List PolicyEngine.Snapshot) (w : World) : Prop where
  journal : w.policyLog = log
  anchor : ∀ q, (savedLatch log).1 = some q → w.policy.startingEquity = some q
  trip : (savedLatch log).2 = true → w.policy.tripped = true

variable {log : List PolicyEngine.Snapshot} {w w' : World} {a : Answer} {t : Turn} {op : Op}
  {r : Ret op}

/-- No call of the runner writes to the policy's journal, and only an evaluation touches
the engine. -/
theorem exec_policy (hal : Allowed t op) (hx : w.exec op a = some (r, w')) :
    w'.policyLog = w.policyLog ∧
      (w'.policy = w.policy ∨
        ∃ i tick wallet, w'.policy = (w.policy.evaluate i tick wallet none).2) := by
  cases hal with
  | evaluate hn =>
      obtain ⟨-, rfl⟩ := exec_evaluate hx
      exact ⟨rfl, Or.inr ⟨_, _, _, rfl⟩⟩
  | positions ha =>
      obtain ⟨rfl, -⟩ := exec_positions hx
      exact ⟨rfl, Or.inl rfl⟩
  | @observe coin b =>
      have hw : w.observe coin b = (r, w') := by
        cases a with
        | done => exact Option.some.inj hx
        | _ => cases hx
      have hw' : w' = (w.observe coin b).2 := by rw [hw]
      rw [hw', World.observe]
      rcases (w.books coin).observe b.high b.low b.close with ⟨_ | ⟨action, q⟩, book⟩
      · exact ⟨rfl, Or.inl rfl⟩
      · exact ⟨rfl, Or.inl rfl⟩
  | enter =>
      cases a with
      | entered size landed result =>
          simp only [World.exec] at hx
          split at hx
          · cases hx
            exact ⟨rfl, Or.inl rfl⟩
          · cases hx
      | _ => cases hx
  | close =>
      cases a with
      | closed left result =>
          simp only [World.exec] at hx
          split at hx
          · cases hx
            exact ⟨rfl, Or.inl rfl⟩
          · cases hx
      | _ => cases hx
  | _ => cases a <;> cases hx <;> exact ⟨rfl, Or.inl rfl⟩

theorem Evolved.exec (h : Evolved log w) (hal : Allowed t op) (hx : w.exec op a = some (r, w')) :
    Evolved log w' := by
  obtain ⟨hlog, hpol | ⟨i, tick, wallet, hpol⟩⟩ := exec_policy hal hx
  · exact ⟨hlog.trans h.journal, by rw [hpol]; exact h.anchor, by rw [hpol]; exact h.trip⟩
  · refine ⟨hlog.trans h.journal, fun q hq => ?_, fun ht => ?_⟩
    · rw [hpol, PolicyEngine.evaluate_anchor, h.anchor q hq]
      rfl
    · rw [hpol]
      exact PolicyEngine.evaluate_tripped (h.trip ht)

theorem Evolved.env {e : Env} (h : Evolved log w) (he : w.env e = some w') : Evolved log w' := by
  obtain ⟨coin, y, -, rfl⟩ := World.env_eq_some he
  exact ⟨h.journal, h.anchor, h.trip⟩

/-- What a process is built with is what the journal says. -/
theorem evolved_built (h : w.policyLog = log) (hl : w.policy.latch = savedLatch log) :
    Evolved log w :=
  ⟨h, fun _ hq => (congrArg Prod.fst hl).trans hq, fun ht => (congrArg Prod.snd hl).trans ht⟩

theorem Evolved.arm (h : Evolved log w) (b : Boot) : Evolved log (w.arm b) :=
  evolved_built h.journal (h.journal ▸ buildPolicy_latch)

theorem evolved_cert (b : Boot) (log : List PolicyEngine.Snapshot)
    (journals : String → List ScalpEvent) :
    Host.Cert loop Guard.any (fun _ => protocol) (fun _ => .idle) (fun _ => Ends)
      (start b log journals) (Evolved log) (fun _ _ _ w => Evolved log w) where
  keeps _ := cycle_keeps
  init := evolved_built rfl buildPolicy_latch
  enter h _ _ := h
  answer h hal _ hx _ := h.exec hal hx
  finish h _ := ⟨h.journal, h.anchor, h.trip⟩
  envIdle h _ he := h.env he
  envBusy h _ _ he := h.env he
  crashIdle h _ hw := by
    cases hw
    exact h.arm _
  crashBusy h _ hw := by
    cases hw
    exact h.arm _

/-- Once the engine has evaluated, a restart rebuilds its anchor and its trip exactly when
the journal that the first process found ends in a state with an anchor, and the engine
has tripped only if it had in that state. -/
theorem rebuilt_iff {b : Boot} {journals : String → List ScalpEvent}
    {c : Config World Op Ret Raised Unit Unit}
    (hc : loop.Reach .any (start b log journals) c) (hev : c.world.policy.startingEquity ≠ none)
    (b' : Boot) :
    (c.world.arm b').policy.latch = c.world.policy.latch ↔
      ∃ snap, log.getLast? = some snap ∧ snap.startingEquity.isSome = true ∧
        (c.world.policy.tripped = true → snap.tripped = true) := by
  have h : Evolved log c.world :=
    (evolved_cert b log journals).always (fun _ h => h) (fun _ _ _ _ h => h) hc
  have hbuilt : (c.world.arm b').policy.latch = savedLatch log := by
    rw [← h.journal]
    exact buildPolicy_latch
  have hanchor := h.anchor
  have htrip := h.trip
  rw [hbuilt]
  unfold savedLatch at hanchor htrip ⊢
  cases hl : log.getLast? with
  | none =>
      constructor
      · exact fun he => absurd (congrArg Prod.fst he).symm hev
      · rintro ⟨snap, hs, -⟩
        cases hs
  | some snap =>
      rw [hl] at hanchor htrip
      constructor
      · intro he
        obtain ⟨ha, ht⟩ := Prod.mk.inj he
        refine ⟨snap, rfl, ?_, fun hp => ht.trans hp⟩
        rw [ha]
        exact Option.isSome_iff_ne_none.mpr hev
      · rintro ⟨_, hs, hsome, hor⟩
        cases hs
        obtain ⟨q, hq⟩ := Option.isSome_iff_exists.mp hsome
        refine Prod.ext (hq.trans (hanchor q hq).symm) ?_
        exact Bool.eq_iff_iff.mpr ⟨htrip, hor⟩

/-- A journal that says what the engine says. -/
theorem rebuilt_from_journal : ∃ c,
    loop.Reach .any (start oneCoin [⟨some 2000, false, [], []⟩] fun _ => []) c ∧
    (c.world.arm oneCoin).policy.latch = c.world.policy.latch := by
  obtain ⟨c, hc, ht⟩ := loop.reach_of_run .any
    (start oneCoin [⟨some 2000, false, [], []⟩] fun _ => []) (intoPosition 1)
    (fun c => c.world.policy.latch = (some 2000, false)) (by decide +kernel)
  have hl : c.world.policy.latch = (some 2000, false) := by simpa using ht
  obtain ⟨ha, hp⟩ := Prod.mk.inj hl
  have hev : c.world.policy.startingEquity ≠ none := by
    rw [ha]
    exact Option.some_ne_none _
  refine ⟨c, hc, (rebuilt_iff hc hev oneCoin).mpr ⟨_, rfl, rfl, ?_⟩⟩
  intro he
  rw [hp] at he
  cases he

/-- From an empty journal: the entry is evaluated, approved and filled, and a restart
after it has neither the anchor nor anything else. -/
theorem anchor_lost_at_restart : ∃ c,
    loop.Reach .any (start oneCoin [] fun _ => []) c ∧
    c.world.policy.startingEquity = some 2000 ∧
    (c.world.arm oneCoin).policy.startingEquity = none := by
  obtain ⟨c, hc, ht⟩ := loop.reach_of_run .any (start oneCoin [] fun _ => []) (intoPosition 1)
    (fun c => c.world.policy.startingEquity = some 2000 ∧
      (c.world.arm oneCoin).policy.startingEquity = none) (by decide +kernel)
  exact ⟨c, hc, by simpa using ht⟩

end TreasuryForge.Autonomous
