/-
# `Live.Guards` — the staleness gate and the dead-man's switch

The two guards of the live loop that do not look at the intent
(`treasuryforge/staleness.py`, `treasuryforge/watchdog.py`).  The gate judges the
clock against the previous check and the data against its budget.  The switch keeps
its state in a heartbeat file: `beat` is the bot's side, `supervise` the other
process's, and both are given the file's content as they read it.
-/
import TreasuryForge.Base.Decimal

namespace TreasuryForge

def nsPerS : ℤ := 1000000000

/-! ## Staleness -/

structure GateVerdict where
  ok : Bool
  reason : String
  dataAgeNs : Option ℤ := none
  deriving DecidableEq, Repr

/-- The constructor refuses a budget that is not positive. -/
structure StalenessGate where
  maxDataAgeNs : ℤ
  maxDataAgeNs_pos : 0 < maxDataAgeNs
  maxClockDriftNs : ℤ := nsPerS
  lastDataNs : Option ℤ := none
  prevWallNs : Option ℤ := none
  prevMonoNs : Option ℤ := none

namespace StalenessGate

def observeData (g : StalenessGate) (wallNs : ℤ) : StalenessGate :=
  { g with lastDataNs := some wallNs }

/-- A halting verdict when the clock looks wrong against the previous reading. -/
def clockVerdict (g : StalenessGate) (nowWallNs nowMonoNs : ℤ) : Option GateVerdict :=
  match g.prevWallNs, g.prevMonoNs with
  | some prevWall, some prevMono =>
      let dWall := nowWallNs - prevWall
      let dMono := nowMonoNs - prevMono
      let drift := |dWall - dMono|
      if dWall < 0 then some ⟨false, s!"wall clock went backward by {-dWall}ns", none⟩
      else if g.maxClockDriftNs < drift then
        some ⟨false, s!"clock drift {drift}ns > budget {g.maxClockDriftNs}ns", none⟩
      else none
  | _, _ => none

/-- The verdict on the data alone. -/
def dataVerdict (g : StalenessGate) (nowWallNs : ℤ) : GateVerdict :=
  match g.lastDataNs with
  | none => ⟨false, "no market data observed yet", none⟩
  | some last =>
      let age := nowWallNs - last
      if age < 0 then ⟨false, s!"data timestamp in the future by {-age}ns", some age⟩
      else if g.maxDataAgeNs < age then
        ⟨false, s!"stale data: age {age}ns > budget {g.maxDataAgeNs}ns", some age⟩
      else ⟨true, "fresh", some age⟩

def check (g : StalenessGate) (nowWallNs nowMonoNs : ℤ) : GateVerdict × StalenessGate :=
  ((g.clockVerdict nowWallNs nowMonoNs).getD (g.dataVerdict nowWallNs),
    { g with prevWallNs := some nowWallNs, prevMonoNs := some nowMonoNs })

/-- A clock verdict always halts. -/
theorem clockVerdict_ok {g : StalenessGate} {w m : ℤ} {v : GateVerdict}
    (h : g.clockVerdict w m = some v) : v.ok = false := by
  unfold clockVerdict at h
  split at h
  · simp only at h
    split at h
    · cases h; rfl
    · split at h
      · cases h; rfl
      · cases h
  · cases h

/-- The gate opens only on data whose age, by the wall clock, is within the budget,
and it hands that age on. -/
theorem check_ok {g : StalenessGate} {w m : ℤ} (h : (g.check w m).1.ok = true) :
    ∃ last, g.lastDataNs = some last ∧ (g.check w m).1.dataAgeNs = some (w - last) ∧
      0 ≤ w - last ∧ w - last ≤ g.maxDataAgeNs := by
  unfold check at h ⊢
  cases hc : g.clockVerdict w m with
  | some v =>
      rw [hc] at h
      exact absurd (clockVerdict_ok hc) (by simpa using h)
  | none =>
      rw [hc] at h
      simp only [Option.getD_none, dataVerdict] at h ⊢
      cases hl : g.lastDataNs with
      | none => simp [hl] at h
      | some last =>
          simp only [hl] at h ⊢
          by_cases hneg : w - last < 0
          · rw [if_pos hneg] at h
            cases h
          · by_cases hold : g.maxDataAgeNs < w - last
            · rw [if_neg hneg, if_pos hold] at h
              cases h
            · rw [if_neg hneg, if_neg hold]
              exact ⟨last, rfl, rfl, not_lt.mp hneg, not_lt.mp hold⟩

end StalenessGate

/-! ## The dead-man's switch -/

structure Heartbeat where
  ts : ℚ
  seq : ℕ
  tripped : Bool
  reason : String := ""
  deriving DecidableEq, Repr

structure DeadMansSwitch where
  timeoutS : ℚ
  timeoutS_pos : 0 < timeoutS

namespace DeadMansSwitch

/-- Whether the switch is latched, by the content of its file. -/
def tripped (file : Option Heartbeat) : Bool := file.any Heartbeat.tripped

/-- The heartbeat to write, or the error a tripped switch raises. -/
def beat (file : Option Heartbeat) (now : ℚ) : Except String Heartbeat :=
  match file with
  | some prev =>
      if prev.tripped then .error s!"dead-man's switch is tripped: {prev.reason}"
      else .ok ⟨now, prev.seq + 1, false, ""⟩
  | none => .ok ⟨now, 1, false, ""⟩

/-- The reason `onTrip` is called with, and the heartbeat written after it; `none`
when the switch does not trip on this call. -/
def supervise (s : DeadMansSwitch) (file : Option Heartbeat) (now : ℚ) :
    Option (String × Heartbeat) :=
  match file with
  | none => none
  | some hb =>
      if hb.tripped then none
      else if now - hb.ts ≤ s.timeoutS then none
      else
        let reason := s!"no heartbeat for {Decimal.fixed 1 (now - hb.ts)}s " ++
          s!"(> {Decimal.fixed 1 s.timeoutS}s timeout)"
        some (reason, ⟨hb.ts, hb.seq, true, reason⟩)

end DeadMansSwitch

end TreasuryForge
