/-
# `Core.Rolling` — the windows when the clock may go back

`evaluate` and `register_fill` take whatever timestamps their callers have, and callers have
the wall clock.  `Fed` is an engine with the fills it was told of; its two queues are always
what is left of these after entries have gone from the left (`Kept`), in whatever order the
timestamps came.

An ALLOW counts what the queues hold.  That is everything the windows hold at its timestamp
unless a prune at a later timestamp came before (`Meets.rate`, `Meets.spend`): a fill that had
expired then has not expired now, and is gone.  `windows_hold` is the law without that.
-/
import TreasuryForge.Core.Limits

namespace TreasuryForge

open Window

namespace PolicyEngine

/-- An engine, and every fill it was told of. -/
structure Fed where
  engine : PolicyEngine
  registered : List (ℤ × ℚ) := []

inductive Feed where
  | evaluate (intent : Intent) (tick : MarketTick) (wallet : SimWallet) (dataAgeNs : Option ℤ)
  | registerFill (ts : ℤ) (notional : ℚ)

namespace Fed

def step (s : Fed) : Feed → Fed
  | .evaluate intent tick wallet age =>
      { s with engine := (s.engine.evaluate intent tick wallet age).2 }
  | .registerFill ts notional =>
      ⟨s.engine.registerFill ts notional, s.registered ++ [(ts, notional)]⟩

/-- A new engine after these calls. -/
def run (cfg : PolicyConfig) (calls : List Feed) : Fed :=
  calls.foldl step { engine := { config := cfg } }

/-- The queues are what is left of the registered fills. -/
structure Kept (cfg : PolicyConfig) (s : Fed) : Prop where
  config : s.engine.config = cfg
  recent : s.engine.recentTs <:+ s.registered.map Prod.fst
  spend : s.engine.spend <:+ s.registered

variable {cfg : PolicyConfig} {s : Fed}

theorem suffix_snoc {α : Type} {l l' : List α} (h : l <:+ l') (a : α) : l ++ [a] <:+ l' ++ [a] := by
  obtain ⟨m, rfl⟩ := h
  exact ⟨m, (List.append_assoc ..).symm⟩

theorem Kept.step (h : Kept cfg s) (c : Feed) : Kept cfg (s.step c) := by
  cases c with
  | evaluate i t w age =>
      have haged : s.engine.Aged t.ts (s.engine.evaluate i t w age).2 := evaluate_aged
      refine ⟨haged.config.trans h.config, ?_, ?_⟩
      · rcases haged.recent with he | he
        · exact he ▸ h.recent
        · exact he ▸ (List.dropWhile_suffix _).trans h.recent
      · rcases haged.spend with he | he
        · exact he ▸ h.spend
        · exact he ▸ (List.dropWhile_suffix _).trans h.spend
  | registerFill ts n =>
      refine ⟨h.config, ?_, suffix_snoc h.spend _⟩
      show _ <:+ (s.registered ++ [(ts, n)]).map Prod.fst
      rw [List.map_append]
      exact suffix_snoc h.recent ts

theorem kept_run (cfg : PolicyConfig) (calls : List Feed) : Kept cfg (run cfg calls) := by
  have hfold : ∀ {s : Fed}, Kept cfg s → Kept cfg (calls.foldl Fed.step s) := by
    induction calls with
    | nil => exact fun h => h
    | cons c cs ih => exact fun h => ih (h.step c)
  exact hfold ⟨rfl, List.nil_suffix, List.nil_suffix⟩

/-- What an evaluation at `now` has to find: neither queue has lost a fill that its window
holds at `now`, and no fill outside of it counts against the spend. -/
structure Meets (s : Fed) (now : ℤ) : Prop where
  rate : ∀ p ∈ lost s.registered s.engine.recentTs.length,
    ¬ (now - s.engine.config.windowSteps < p.1 ∧ p.1 ≤ now)
  spend : s.engine.config.maxNotionalPerWindow.isSome = true →
    ∀ p ∈ lost s.registered s.engine.spend.length,
      ¬ (now - s.engine.config.spendWindow < p.1 ∧ p.1 ≤ now)
  outside : s.engine.config.maxNotionalPerWindow.isSome = true →
    ∀ p ∈ s.engine.spendAt now, ¬ (now - s.engine.config.spendWindow < p.1 ∧ p.1 ≤ now) → 0 ≤ p.2

/-- The windows' law for an intent of this notional at `now`. -/
structure WithinWindows (s : Fed) (now : ℤ) (notional : ℚ) : Prop where
  rate : (upTo s.engine.config.windowSteps now s.registered).length <
    s.engine.config.maxTxPerWindow
  spend : ∀ b, s.engine.config.maxNotionalPerWindow = some b →
    load (upTo s.engine.config.spendWindow now s.registered) + notional ≤ b + eps

theorem Kept.rate (h : Kept cfg s) {now : ℤ} (hm : s.Meets now) :
    (upTo s.engine.config.windowSteps now s.registered).length ≤ (s.engine.recentAt now).length := by
  have hsuffix : s.engine.stamps <:+ ones s.registered := by
    obtain ⟨gone, hgone⟩ := h.recent
    refine ⟨gone.map fun t => (t, 1), ?_⟩
    have hmap : ones s.registered = (s.registered.map Prod.fst).map fun t => (t, 1) := by
      simp [ones]
    rw [hmap, ← hgone, List.map_append]
    rfl
  have hlost : ∀ p ∈ lost (ones s.registered) s.engine.stamps.length,
      ¬ (now - s.engine.config.windowSteps < p.1 ∧ p.1 ≤ now) := by
    intro p hp
    have hlen : s.engine.stamps.length = s.engine.recentTs.length := List.length_map _
    rw [hlen, lost, ones, List.length_map, ← List.map_take] at hp
    obtain ⟨q, hq, rfl⟩ := List.mem_map.mp hp
    exact hm.rate q hq
  have hle := load_upTo_le_trail hsuffix hlost fun p _ _ => Nat.zero_le p.2
  have hones : upTo s.engine.config.windowSteps now (ones s.registered) =
      ones (upTo s.engine.config.windowSteps now s.registered) := by
    simp [upTo, ones, List.filter_map, Function.comp_def]
  rwa [hones, load_ones, load_trail_stamps] at hle

theorem Kept.spent (h : Kept cfg s) {now : ℤ} (hm : s.Meets now)
    (hb : s.engine.config.maxNotionalPerWindow.isSome = true) :
    load (upTo s.engine.config.spendWindow now s.registered) ≤ s.engine.spentAt now :=
  load_upTo_le_trail h.spend (hm.spend hb) (hm.outside hb)

instance (s : Fed) (now : ℤ) : Decidable (s.Meets now) :=
  decidable_of_iff
    ((∀ p ∈ lost s.registered s.engine.recentTs.length,
        ¬ (now - s.engine.config.windowSteps < p.1 ∧ p.1 ≤ now)) ∧
      (s.engine.config.maxNotionalPerWindow.isSome = true →
        ∀ p ∈ lost s.registered s.engine.spend.length,
          ¬ (now - s.engine.config.spendWindow < p.1 ∧ p.1 ≤ now)) ∧
      (s.engine.config.maxNotionalPerWindow.isSome = true →
        ∀ p ∈ s.engine.spendAt now,
          ¬ (now - s.engine.config.spendWindow < p.1 ∧ p.1 ≤ now) → 0 ≤ p.2))
    ⟨fun h => ⟨h.1, h.2.1, h.2.2⟩, fun h => ⟨h.rate, h.spend, h.outside⟩⟩

/-- One trade, and 100 of notional, in ten. -/
def onceInTen : PolicyConfig where
  allowedSymbols := ["BTC"]
  maxNotionalPerTx := 100
  maxTxPerWindow := 1
  windowSteps := 10
  maxDrawdownPct := 1 / 2
  maxNotionalPerWindow := some 100

def oneFor100 : Intent := { symbol := "BTC", side := .buy, baseAmount := 1 }

def rich : SimWallet := { quote := 1000 }

/-- A fill at 10, and an evaluation at 100, which forgets it. -/
def forgetting : List Feed :=
  [.registerFill 10 100, .evaluate oneFor100 ⟨"BTC", 100, 100⟩ rich none]

end Fed

end PolicyEngine

end TreasuryForge
