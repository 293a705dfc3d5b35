/-
# `Core.Crash` — the breaker over crashes and restarts

What a killed process leaves on disk against what it had in memory.  The drawdown
anchor and the trip (`PolicyEngine.latch`) are checkpointed with a fill, and with a
denial of a tripped engine, and nowhere else.  `Mirrors` is what the disk says of the
engine at the end of every tick; `Killed.latch` reads off it what is left in the
middle of one.  `breaker_survives_iff` says when a restart finds the anchor and the
trip again: there must be a checkpoint at all, and the process must not have been
killed between the ruling that tripped the engine and the checkpoint of that tick.
-/
import TreasuryForge.Core.Journal
import TreasuryForge.Core.Bounds

namespace TreasuryForge

/-! ## The disk and the engine -/

/-- Every checkpoint on disk has the engine's anchor and trip, and a tripped engine has
a checkpoint. -/
structure Mirrors (d : Disk) (p : PolicyEngine) : Prop where
  latch : ∀ c ∈ d.state, c.policy.latch = p.latch ∧ p.startingEquity.isSome = true
  kept : p.tripped = true → d.state.isSome = true

namespace Mirrors

variable {d : Disk} {p p' : PolicyEngine} {ws : List Write}

theorem congr (h : Mirrors d p) (hp : p'.latch = p.latch) : Mirrors d p' := by
  obtain ⟨hanchor, htrip⟩ := Prod.mk.inj hp
  refine ⟨fun c hc => ?_, fun ht => h.kept (htrip ▸ ht)⟩
  rw [hp, hanchor]
  exact h.latch c hc

theorem write (h : Mirrors d p) (ha : ws ≠ [] → p.startingEquity.isSome = true)
    (hw : ∀ c, .checkpoint c ∈ ws → c.policy.latch = p.latch) : Mirrors (d.after ws) p where
  latch := by
    refine Disk.policy_after (P := fun s => s.latch = p.latch ∧ p.startingEquity.isSome = true)
      h.latch fun c hc => ⟨hw c hc, ha ?_⟩
    intro he
    rw [he] at hc
    cases hc
  kept ht := Disk.state_after (h.kept ht)

/-- Nothing is on disk, or what is there has the engine's anchor. -/
theorem anchor (h : Mirrors d p) {c : Checkpoint} (hc : c ∈ d.state) :
    ∃ q, c.policy.startingEquity = some q ∧ p.startingEquity = some q := by
  obtain ⟨hl, hs⟩ := h.latch c hc
  obtain ⟨q, hq⟩ := Option.isSome_iff_exists.mp hs
  exact ⟨q, (congrArg Prod.fst hl).trans hq, hq⟩

section Ruling
variable {i : Intent} {t : MarketTick} {w : SimWallet}

/-- What is on disk when the policy has ruled and nothing is written yet. -/
theorem behind (h : Mirrors d p) {c : Checkpoint} (hc : c ∈ d.state) :
    let e := (p.evaluate i t w none).2
    c.policy.startingEquity = e.startingEquity ∧ c.policy.tripped = p.tripped := by
  intro e
  obtain ⟨hl, -⟩ := h.latch c hc
  obtain ⟨q, hq, hp⟩ := h.anchor hc
  have he : e.startingEquity = some q := by
    rw [PolicyEngine.evaluate_anchor, hp]
    rfl
  exact ⟨hq.trans he.symm, congrArg Prod.snd hl⟩

/-- What follows a ruling keeps the disk in step, if a trip is checkpointed. -/
theorem rule (h : Mirrors d p) {e : PolicyEngine} (he : e = (p.evaluate i t w none).2)
    (hw : ∀ c, .checkpoint c ∈ ws → c.policy.latch = e.latch)
    (ht : e.tripped = true → ∃ c, ws = [.checkpoint c]) : Mirrors (d.after ws) e := by
  have hanchor : e.startingEquity.isSome = true := by
    rw [he, PolicyEngine.evaluate_anchor]
    rfl
  cases hb : e.tripped with
  | true =>
      obtain ⟨c, rfl⟩ := ht hb
      refine ⟨fun c' hc' => ?_, fun _ => rfl⟩
      cases hc'
      exact ⟨hw c List.mem_cons_self, hanchor⟩
  | false =>
      have hp : p.tripped = false := by
        refine Bool.eq_false_iff.mpr ?_
        intro hp
        rw [he, PolicyEngine.evaluate_tripped hp] at hb
        cases hb
      refine ⟨fun c hc => ⟨?_, hanchor⟩, fun htrue => by rw [hb] at htrue; cases htrue⟩
      refine Disk.policy_after (P := fun s => s.latch = e.latch) (fun c hc => ?_) hw c hc
      obtain ⟨hq, hc⟩ := h.behind (i := i) (t := t) (w := w) hc
      rw [← he] at hq
      exact Prod.ext hq (hc.trans (hp.trans hb.symm))

end Ruling

end Mirrors

namespace Runner

variable {A X : Type} {r : Runner A X} {d : Disk} {s c : RunState A X} {t : MarketTick}

/-! ## What a tick writes -/

theorem settle_latch (s : RunState A X) (i : Intent) (t : MarketTick) :
    (r.settle s i t).policy.latch = s.policy.latch ∧
    ∃ ws, (r.settle s i t).writes = s.writes ++ ws ∧
      ∀ c, .checkpoint c ∈ ws → c.policy.latch = s.policy.latch := by
  rcases settle_cases s i t with ⟨f, w, x, rep, ps, -, hs, -⟩ |
    ⟨e, w, x, rep, ps, -, hs, -⟩
  · rw [hs]
    refine ⟨rfl, _, rfl, ?_⟩
    intro c hc
    cases hj : r.journaled with
    | false => simp [hj] at hc
    | true =>
        simp only [hj, if_true, fillWrites, List.mem_cons, reduceCtorEq, Write.checkpoint.injEq,
          List.not_mem_nil, or_false, false_or] at hc
        rw [hc]
        rfl
  · rw [hs]
    exact ⟨rfl, [], (List.append_nil _).symm, fun c hc => absurd hc List.not_mem_nil⟩

theorem asking_latch (s : RunState A X) (t : MarketTick) :
    (r.asking s t).pending = none ∧ (r.asking s t).policy.latch = s.policy.latch ∧
    ∃ ws, (r.asking s t).writes = s.writes ++ ws ∧ (ws ≠ [] → s.pending ≠ none) ∧
      ∀ c, .checkpoint c ∈ ws → c.policy.latch = s.policy.latch := by
  have hopen : (opened s t).policy = s.policy ∧ (opened s t).writes = s.writes ∧
      (opened s t).pending = s.pending := by
    unfold opened
    split <;> exact ⟨rfl, rfl, rfl⟩
  obtain ⟨hp, hw, hpend⟩ := hopen
  unfold asking settlePending
  cases he : (opened s t).pending with
  | none =>
      rw [hp, hw]
      exact ⟨he, rfl, [], (List.append_nil _).symm, fun h => absurd rfl h, fun c hc => absurd hc List.not_mem_nil⟩
  | some pair =>
      obtain ⟨hl, ws, hws, hall⟩ := settle_latch (r := r) (opened s t) pair.1 t
      rw [hp] at hl hall
      rw [hw] at hws
      refine ⟨rfl, hl, ws, hws, fun _ => ?_, hall⟩
      rw [← hpend, he]
      exact Option.some_ne_none _

theorem dispose_latch (hj : r.journaled = true) (s : RunState A X) (i : Intent) (t : MarketTick) :
    let e := (s.policy.evaluate i t s.wallet none).2
    (r.dispose s i t).policy.latch = e.latch ∧
    ∃ ws, (r.dispose s i t).writes = s.writes ++ ws ∧
      (∀ c, .checkpoint c ∈ ws → c.policy.latch = e.latch) ∧
      (e.tripped = true → ∃ c, ws = [.checkpoint c]) := by
  intro e
  rcases dispose_cases (r := r) s i t with ⟨-, a, rep, ps, he, -⟩ | ⟨ha, -, a, he⟩ | ⟨ha, -, a, he⟩
  · rw [he]
    refine ⟨rfl, _, rfl, ?_, ?_⟩
    · intro c hc
      split at hc
      · rw [Write.checkpoint.inj (List.mem_singleton.mp hc)]
        rfl
      · cases hc
    · intro ht
      exact ⟨_, if_pos ⟨hj, ht⟩⟩
  · rw [he]
    obtain ⟨hl, ws, hws, hall⟩ := settle_latch (r := r) { s with policy := e, auditLog := a } i t
    refine ⟨hl, ws, hws, hall, ?_⟩
    intro ht
    rw [PolicyEngine.denied_of_tripped ht] at ha
    cases ha
  · rw [he]
    refine ⟨rfl, [], (List.append_nil _).symm, fun c hc => absurd hc List.not_mem_nil, fun ht => ?_⟩
    rw [PolicyEngine.denied_of_tripped ht] at ha
    cases ha

/-- The strategy proposes nothing. -/
theorem onTick_hold {a : A}
    (hd : r.agent.decide (r.asking s t).agent t (r.asking s t).wallet = (none, a)) :
    r.onTick s t = r.log { r.asking s t with agent := a } t.ts t.price .hold := by
  simp only [asking] at hd ⊢
  simp only [onTick, hd]

variable (r) in
/-- The engine after it ruled on an intent. -/
def ruled (s : RunState A X) (t : MarketTick) (i : Intent) : PolicyEngine :=
  ((r.asking s t).policy.evaluate i t (r.asking s t).wallet none).2

/-- The strategy proposes an intent: what is written then has the latch of the ruling, and
a trip is checkpointed. -/
theorem onTick_latch (hj : r.journaled = true) {i : Intent} {a : A}
    (hd : r.agent.decide (r.asking s t).agent t (r.asking s t).wallet = (some i, a)) :
    (r.onTick s t).policy.latch = (r.ruled s t i).latch ∧
    ∃ ws, (r.onTick s t).writes = (r.asking s t).writes ++ ws ∧
      (∀ c, .checkpoint c ∈ ws → c.policy.latch = (r.ruled s t i).latch) ∧
      ((r.ruled s t i).tripped = true → ∃ c, ws = [.checkpoint c]) := by
  have he : r.onTick s t = r.dispose { r.asking s t with agent := a } i t := by
    simp only [asking] at hd ⊢
    simp only [onTick, hd]
  rw [he]
  exact dispose_latch hj _ i t

/-- A process may be killed when a tick is over. -/
theorem onTick_killed (hj : r.journaled = true) (s : RunState A X) (t : MarketTick) :
    r.Killed s t (r.onTick s t) := by
  have hle : (r.asking s t).writes <+: (r.onTick s t).writes := by
    rcases hd : r.agent.decide (r.asking s t).agent t (r.asking s t).wallet with ⟨_ | i, a⟩
    · rw [onTick_hold hd]
      exact List.prefix_refl _
    · obtain ⟨-, ws, hw, -⟩ := onTick_latch hj hd
      exact ⟨ws, hw.symm⟩
  exact .finishing hle (List.prefix_refl _)

/-! ## Between the ticks, and during one -/

/-- What holds of a directory and of the process that has it, whenever a tick begins. -/
structure Guarded (d : Disk) (s : RunState A X) : Prop where
  mirrors : Mirrors (d.after s.writes) s.policy
  pending : s.pending ≠ none → s.policy.startingEquity.isSome = true

namespace Guarded

theorem asking (h : Guarded d s) {ws : List Write} (hle : s.writes <+: ws)
    (hle' : ws <+: (r.asking s t).writes) : Mirrors (d.after ws) (r.asking s t).policy := by
  obtain ⟨-, hl, new, hw, hpend, hall⟩ := asking_latch (r := r) s t
  obtain ⟨m, rfl⟩ := hle
  rw [hw] at hle'
  have hm : m <+: new := (List.prefix_append_right_inj _).mp hle'
  rw [Disk.after_append]
  refine (h.mirrors.write (fun hne => ?_) fun c hc => hall c (hm.subset hc)).congr hl
  refine h.pending (hpend fun he => hne ?_)
  rw [he] at hm
  exact List.prefix_nil.mp hm

theorem asked (h : Guarded d s) : Mirrors (d.after (r.asking s t).writes) (r.asking s t).policy := by
  obtain ⟨-, -, new, hw, -⟩ := asking_latch (r := r) s t
  exact h.asking (by rw [hw]; exact List.prefix_append ..) (List.prefix_refl _)

theorem onTick (hj : r.journaled = true) (h : Guarded d s) : Guarded d (r.onTick s t) := by
  rcases hd : r.agent.decide (r.asking s t).agent t (r.asking s t).wallet with ⟨_ | i, a⟩
  · rw [onTick_hold hd]
    exact ⟨h.asked, fun hne => absurd (asking_latch (r := r) s t).1 hne⟩
  · obtain ⟨hl, new, hw, hall, htrip⟩ := onTick_latch hj hd
    refine ⟨?_, fun _ => ?_⟩
    · rw [hw, Disk.after_append]
      exact (h.asked.rule rfl hall htrip).congr hl
    · have hanchor : (r.onTick s t).policy.startingEquity = (r.ruled s t i).startingEquity :=
        congrArg Prod.fst hl
      rw [hanchor, ruled, PolicyEngine.evaluate_anchor]
      rfl

theorem loop (hj : r.journaled = true) {ticks : List MarketTick} :
    ∀ {s : RunState A X}, Guarded d s → Guarded d (r.loop s ticks) := by
  induction ticks with
  | nil => exact fun h => h
  | cons t ts ih => exact fun h => ih (h.onTick hj)

end Guarded

/-- What a killed process leaves in its checkpoint: its anchor; and, if it was tripped, its
trip exactly when the tick began with that or got to write it. -/
structure Leaves (r : Runner A X) (s : RunState A X) (t : MarketTick) (c : RunState A X)
    (ck : Checkpoint) : Prop where
  anchor : ∃ q, ck.policy.startingEquity = some q ∧ c.policy.startingEquity = some q
  trip : c.policy.tripped = true → (ck.policy.tripped = true ↔
    s.policy.tripped = true ∨ c.writes = (r.onTick s t).writes)

namespace Leaves

variable {ck : Checkpoint} {p : PolicyEngine} {ws : List Write}

/-- The disk is in step, and the trip is as it was when the tick began. -/
theorem of_idle (hm : Mirrors (d.after c.writes) c.policy) (hck : ck ∈ (d.after c.writes).state)
    (ht : c.policy.tripped = s.policy.tripped) : Leaves r s t c ck := by
  have htrip : ck.policy.tripped = c.policy.tripped := congrArg Prod.snd (hm.latch ck hck).1
  refine ⟨hm.anchor hck, ?_⟩
  intro hc
  rw [htrip, ← ht, hc]
  exact ⟨fun _ => Or.inl rfl, fun _ => rfl⟩

/-- The disk is in step, and the tick's writes are complete. -/
theorem of_complete (hm : Mirrors (d.after c.writes) c.policy)
    (hck : ck ∈ (d.after c.writes).state)
    (hw : c.policy.tripped = true → c.writes = (r.onTick s t).writes) : Leaves r s t c ck := by
  have htrip : ck.policy.tripped = c.policy.tripped := congrArg Prod.snd (hm.latch ck hck).1
  refine ⟨hm.anchor hck, ?_⟩
  intro hc
  rw [htrip]
  exact ⟨fun _ => Or.inr (hw hc), fun _ => hc⟩

/-- The policy has ruled, and nothing of what follows is written. -/
theorem of_behind (hj : r.journaled = true) (h : Guarded d s) {i : Intent} {a : A}
    (hd : r.agent.decide (r.asking s t).agent t (r.asking s t).wallet = (some i, a))
    (hl : c.policy.latch = (r.ruled s t i).latch) (hw : c.writes = (r.asking s t).writes)
    (hck : ck ∈ (d.after c.writes).state) : Leaves r s t c ck := by
  rw [hw] at hck
  obtain ⟨hanchor, htrip⟩ :=
    h.asked.behind (i := i) (t := t) (w := (r.asking s t).wallet) hck
  obtain ⟨hca, hct⟩ := Prod.mk.inj hl
  have hask : (r.asking s t).policy.tripped = s.policy.tripped :=
    congrArg Prod.snd (asking_latch (r := r) s t).2.1
  obtain ⟨q, hq, -⟩ := h.asked.anchor hck
  refine ⟨⟨q, hq, hca.trans (hanchor.symm.trans hq)⟩, ?_⟩
  intro hc
  rw [htrip, hask]
  refine ⟨Or.inl, fun hor => hor.resolve_right fun hfull => ?_⟩
  -- a trip adds a checkpoint to the writes, and it is not there
  obtain ⟨-, new, hnew, -, hone⟩ := onTick_latch hj hd
  obtain ⟨c', rfl⟩ := hone (hct.symm.trans hc)
  rw [hw, hnew] at hfull
  exact List.cons_ne_nil _ _ (List.self_eq_append_right.mp hfull)

end Leaves

theorem Guarded.killed (hj : r.journaled = true) (h : Guarded d s) (hk : r.Killed s t c)
    {ck : Checkpoint} (hck : ck ∈ (d.after c.writes).state) : Leaves r s t c ck := by
  have hask : (r.asking s t).policy.tripped = s.policy.tripped :=
    congrArg Prod.snd (asking_latch (r := r) s t).2.1
  cases hk with
  | settling hle hle' => exact .of_idle (h.asking hle hle') hck hask
  | ruling hd => exact .of_behind hj h hd rfl rfl hck
  | finishing hle hle' =>
      rcases hd : r.agent.decide (r.asking s t).agent t (r.asking s t).wallet with ⟨_ | i, a⟩
      · rw [onTick_hold hd] at hle' hck ⊢
        obtain rfl := hle.eq_of_length_le hle'.length_le
        exact .of_idle h.asked hck hask
      · obtain ⟨hl, new, hw, hall, htrip⟩ := onTick_latch hj hd
        obtain ⟨m, rfl⟩ := hle
        rw [hw] at hle'
        have hm : m <+: new := (List.prefix_append_right_inj _).mp hle'
        cases ht : (r.ruled s t i).tripped with
        | false =>
            -- no trip, so any part of the writes is in step
            have hmir : Mirrors (d.after ((r.asking s t).writes ++ m)) (r.ruled s t i) := by
              rw [Disk.after_append]
              exact h.asked.rule rfl (fun c hc => hall c (hm.subset hc))
                fun he => absurd (ht.symm.trans he) Bool.false_ne_true
            have hcalm : (r.onTick s t).policy.tripped = false := (congrArg Prod.snd hl).trans ht
            exact .of_complete (hmir.congr hl) hck
              fun hc => absurd (hcalm.symm.trans hc) Bool.false_ne_true
        | true =>
            obtain ⟨c', rfl⟩ := htrip ht
            cases m with
            | nil => exact .of_behind hj h hd hl (List.append_nil _) hck
            | cons w m =>
                have hfull : w :: m = [.checkpoint c'] :=
                  hm.eq_of_length_le (by simp)
                rw [hfull] at hck ⊢
                have hmir : Mirrors (d.after ((r.asking s t).writes ++ [.checkpoint c']))
                    (r.ruled s t i) := by
                  rw [Disk.after_append]
                  exact h.asked.rule rfl hall htrip
                exact .of_complete (hmir.congr hl) hck fun _ => hw.symm

/-! ## Over crashes and restarts -/

variable {cfg : PolicyConfig} {w₀ : SimWallet} {G : RunState A X → Prop} {p : Past} {a : A} {x : X}

/-- The engine of a new process is the one that the checkpoint on disk says. -/
theorem boot_guarded (hp : ∀ c ∈ p.disk.state, c.policy.startingEquity.isSome = true)
    (hs : boot cfg w₀ a x p.disk = some s) : Guarded p.disk s := by
  obtain ⟨w, -, rfl⟩ := Option.map_eq_some_iff.mp hs
  refine ⟨⟨fun c hc => ?_, fun ht => ?_⟩, fun hne => absurd rfl hne⟩
  · have hl : (p.disk.restoredPolicy cfg).latch = c.policy.latch := Disk.restored_latch hc
    refine ⟨hl.symm, ?_⟩
    rw [show (p.disk.restoredPolicy cfg).startingEquity = _ from congrArg Prod.fst hl]
    exact hp c hc
  · cases hst : p.disk.state with
    | none =>
        rw [Disk.restored_none hst] at ht
        cases ht
    | some c => simp [Disk.after, hst]

/-- Every checkpoint a killed process leaves has an anchor. -/
theorem Life.anchored (hj : r.journaled = true) (h : r.Life cfg w₀ G p) :
    ∀ c ∈ p.disk.state, c.policy.startingEquity.isSome = true := by
  induction h with
  | new => exact fun c hc => absurd hc (Option.not_mem_none c)
  | kill _ hs hk _ ih =>
      intro c hc
      obtain ⟨q, hq, -⟩ := (((boot_guarded ih hs).loop hj).killed hj hk hc).anchor
      rw [hq]
      rfl

/-- A restart on this directory finds the anchor and the trip of this engine. -/
def Survives (cfg : PolicyConfig) (d : Disk) (e : PolicyEngine) : Prop :=
  (d.restoredPolicy cfg).startingEquity = e.startingEquity ∧
    (e.tripped = true → (d.restoredPolicy cfg).tripped = true)

/-- A restart finds the anchor and the trip of a process killed after its first ruling
exactly when there is a checkpoint, and the process, if it was tripped, began the tick
that way or finished it. -/
theorem breaker_survives_iff (hj : r.journaled = true) (h : r.Life cfg w₀ (fun _ => True) p)
    (hs : boot cfg w₀ a x p.disk = some s) {ticks : List MarketTick}
    (hk : r.Killed (r.loop s ticks) t c) (hc : c.policy.startingEquity ≠ none) :
    Survives cfg (p.disk.after c.writes) c.policy ↔
      (p.disk.after c.writes).state.isSome = true ∧
      (c.policy.tripped = true → (r.loop s ticks).policy.tripped = true ∨
        c.writes = (r.onTick (r.loop s ticks) t).writes) := by
  cases hst : (p.disk.after c.writes).state with
  | none =>
      have hno : ¬ Survives cfg (p.disk.after c.writes) c.policy := by
        rw [Survives, Disk.restored_none hst]
        exact fun hsur => hc hsur.1.symm
      simp [hno]
  | some ck =>
      have hleft := ((boot_guarded (h.anchored hj) hs).loop hj).killed hj hk (Option.mem_def.mpr hst)
      have hl : ((p.disk.after c.writes).restoredPolicy cfg).latch = ck.policy.latch :=
        Disk.restored_latch (Option.mem_def.mpr hst)
      obtain ⟨hra, hrt⟩ := Prod.mk.inj hl
      obtain ⟨q, hq, hqc⟩ := hleft.anchor
      rw [Survives, hra, hrt]
      constructor
      · exact fun hsur => ⟨rfl, fun ht => (hleft.trip ht).mp (hsur.2 ht)⟩
      · exact fun hor => ⟨hq.trans hqc.symm, fun ht => (hleft.trip ht).mpr (hor.2 ht)⟩

/-! ### A purchase, with a journal -/

def journaling : Runner Unit Unit := { aRunner buyOne 1 with journaled := true }

def firstTick : MarketTick := ⟨"BTC", 100, 0⟩

def secondTick : MarketTick := ⟨"BTC", 101, 1⟩

/-- Killed at the end of the tick of its first fill, the process finds its anchor again. -/
theorem breaker_survives_filled : ∃ c,
    journaling.Killed (journaling.loop aState [firstTick]) secondTick c ∧
    Survives aState.policy.config (({} : Disk).after c.writes) c.policy := by
  have hk := onTick_killed (r := journaling) rfl (journaling.loop aState [firstTick]) secondTick
  have hnew : journaling.Life aState.policy.config aState.wallet (fun _ => True) {} := .new
  refine ⟨_, hk, ?_⟩
  refine (breaker_survives_iff (x := ()) (a := ()) rfl hnew rfl hk ?_).mpr
    ⟨by decide +kernel, fun _ => Or.inr rfl⟩
  decide +kernel

/-- Killed when the purchase is approved and not yet filled, it leaves no checkpoint: the
next process will anchor its floor to what the wallet is worth by then. -/
theorem anchor_lost_before_fill :
    boot aState.policy.config aState.wallet () () {} = some aState ∧
    ∃ c, journaling.Killed aState firstTick c ∧ c.policy.startingEquity = some 1500 ∧
      ¬ Survives aState.policy.config (({} : Disk).after c.writes) c.policy :=
  ⟨rfl, _, .ruling (i := buyOne) rfl, by decide +kernel, fun h => by
    have hlost := h.1
    revert hlost
    decide +kernel⟩

end Runner

end TreasuryForge
