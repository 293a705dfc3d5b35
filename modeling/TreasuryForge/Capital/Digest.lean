/-
# `Capital.Digest` — what the analyst reports of the shadows

`load_strategy_track_records` and `generate_digest` of `analyst.py`, over the directories of the
state and their ledgers.  Gate and committee are those of the broker.  The digest has no
portfolio: `digest_agrees_iff` says when it reports the strategies the broker deploys.
-/
import TreasuryForge.Capital.Broker
import TreasuryForge.Risk.Report

namespace TreasuryForge

namespace Capital

open Gate Risk

/-! ## The track records on disk -/

/-- A line of a ledger. -/
structure LedgerEvent where
  kind : Option String := none
  r : Option ℚ := none
  ts : Option ℤ := none
  status : Option String := none
  deriving DecidableEq, Repr

/-- The directories of the state with their ledgers, and the time of the relay's snapshot. -/
structure StateDir where
  dirs : Dict String (List LedgerEvent)
  relayTs : ℤ := 0

structure Source where
  stem : String
  kind : String
  label : String

def sources : List Source :=
  [⟨"shadow", "shadow", "funding"⟩, ⟨"basis", "basis", "basis"⟩, ⟨"cross", "shadow", "cross"⟩,
    ⟨"scalp", "scalp", "scalp"⟩]

/-- `sorted(glob.glob(f"{stem}_*"))` -/
def StateDir.named (state : StateDir) (stem : String) : List String :=
  (state.dirs.keys.filter fun name => (stem ++ "_").toList.isPrefixOf name.toList).insertionSort
    (· ≤ ·)

section Load

-- `str.upper`, of which nothing is used
variable (upper : String → String)

/-- `os.path.basename(d).split("_")[-1].upper()` -/
def coinOf (name : String) : String :=
  upper (String.ofList (name.toList.reverse.takeWhile (· ≠ '_')).reverse)

/-- The returns and the times of some events; one without a return raises. -/
def trackRecord (evs : List LedgerEvent) : Except String TrackRecord := do
  let returns ← evs.mapM fun e =>
    match e.r with
    | none => throw "KeyError: 'r'"
    | some r => pure r
  return (returns, evs.filterMap fun e => e.ts.filter (· ≠ 0))

/-- One directory; a coin met before is overwritten. -/
def loadDir (state : StateDir) (src : Source) (recs : Dict String TrackRecord) (name : String) :
    Except String (Dict String TrackRecord) :=
  let evs := (state.dirs.getD name []).filter (·.kind = some src.kind)
  if evs = [] then .ok recs
  else (trackRecord evs).map fun rec => recs.set s!"{src.label}:{coinOf upper name}" rec

def loadStrategyTrackRecords (state : StateDir) : Except String (Dict String TrackRecord) :=
  sources.foldlM (fun recs src => (state.named src.stem).foldlM (loadDir upper state src) recs)
    .empty

end Load

/-! ## The digest -/

inductive Status where
  | deploy
  | approaching
  | hold
  deriving DecidableEq, Repr

/-- `status_order` -/
def Status.order : Status → ℕ
  | .deploy => 0
  | .approaching => 1
  | .hold => 2

structure StrategySummary where
  strategy : String
  status : Status
  tradesCount : ℕ
  dsr : ℚ
  apr : ℚ
  gatePassed : Bool
  gateReason : String
  committeeApproved : Bool
  vetoes : List String
  vetoedBy : List String
  riskVerdict : String
  reasons : List String

/-- `(status_order[status], -dsr)` -/
def StrategySummary.Before (a b : StrategySummary) : Prop :=
  a.status.order < b.status.order ∨ a.status.order = b.status.order ∧ -a.dsr ≤ -b.dsr

instance : DecidableRel StrategySummary.Before := fun _ _ => inferInstanceAs (Decidable (_ ∨ _))

/-- `relayAgeSeconds` is `none` when there never was a snapshot. -/
structure Digest where
  ts : ℤ
  relayAgeSeconds : Option ℤ
  relayFresh : Bool
  stagedPending : List LedgerEvent
  strategies : List StrategySummary

section Generate

variable (upper : String → String) (m : Maths ℚ) (rng : Rng)
  (deflatedSharpeRatio : List ℚ → ℚ)
  (gate : List ℚ → List ℤ → Gate.GateVerdict) (committee : List ℚ → List ℤ → CommitteeVerdict)

/-- The verdict of the detailed report, if there is one. -/
def riskVerdict (strategy : String) (returns : List ℚ) : String :=
  if 2 ≤ returns.length then
    match assessAndReport m rng strategy returns { dsr := deflatedSharpeRatio returns } with
    | .ok report => report.verdict.text
    | .error _ => "INSUFFICIENT_DATA"
  else "INSUFFICIENT_DATA"

/-- The status of a strategy, and the reasons for it. -/
def statusOf (verdict : Gate.GateVerdict) (panel : CommitteeVerdict) : Status × List String :=
  if verdict.deploy = true then
    if panel.approved = true then (.deploy, ["Passed gate and committee"])
    else (.hold, [s!"Committee vetoed: {panel.render}"])
  else
    (if 40 / 100 ≤ verdict.dsr then .approaching else .hold, [s!"Failed gate: {verdict.reason}"])

def summary (entry : String × TrackRecord) : StrategySummary :=
  let (strategy, returns, ts) := entry
  let verdict := gate returns ts
  let panel := committee returns ts
  let (status, reasons) := statusOf verdict panel
  { strategy := strategy
    status := status
    tradesCount := returns.length
    dsr := deflatedSharpeRatio returns
    apr := verdict.apr
    gatePassed := verdict.deploy
    gateReason := verdict.reason
    committeeApproved := panel.approved
    vetoes := panel.vetoes.map (·.reason)
    vetoedBy := panel.vetoes.map (·.consultant)
    riskVerdict := riskVerdict m rng deflatedSharpeRatio strategy returns
    reasons := reasons }

def generateDigest (state : StateDir) (now : ℤ) : Except String Digest := do
  let relayAge := if 0 < state.relayTs then some (now - state.relayTs) else none
  let staged := state.dirs.getD "orchestrator" []
  let recs ← loadStrategyTrackRecords upper state
  return {
    ts := now
    relayAgeSeconds := relayAge
    relayFresh := relayAge.any (· ≤ 900)
    stagedPending := staged.filter (·.status = some "PENDING_OK")
    strategies := (recs.items.map
      (summary m rng deflatedSharpeRatio gate committee)).insertionSort StrategySummary.Before }

end Generate

/-! ## Digest and broker -/

/-- The digest reports the status for the strategy. -/
def Digest.Reports (digest : Digest) (strategy : String) (status : Status) : Prop :=
  ∃ row ∈ digest.strategies, row.strategy = strategy ∧ row.status = status

/-- The broker decides the action for the strategy. -/
def BrokerReport.Decides (report : BrokerReport) (strategy : String) (action : BrokerAction) :
    Prop :=
  ∃ d ∈ report.decisions, d.strategy = strategy ∧ d.action = action

section Agree

variable (upper : String → String) (m : Maths ℚ) (rng : Rng)
  (deflatedSharpeRatio : List ℚ → ℚ)
  (gate : List ℚ → List ℤ → Gate.GateVerdict) (committee : List ℚ → List ℤ → CommitteeVerdict)

theorem statusOf_deploy_iff (verdict : Gate.GateVerdict) (panel : CommitteeVerdict) :
    (statusOf verdict panel).1 = .deploy ↔ verdict.deploy = true ∧ panel.approved = true := by
  unfold statusOf
  split
  · next hdeploy =>
      split
      · next happroved => exact iff_of_true rfl ⟨hdeploy, happroved⟩
      · next happroved => exact iff_of_false Status.noConfusion fun h => happroved h.2
  · next hdeploy =>
      refine iff_of_false ?_ fun h => hdeploy h.1
      dsimp only
      split
      · exact Status.noConfusion
      · exact Status.noConfusion

/-- The digest is there when the records are, and reports as `DEPLOY` what qualifies. -/
theorem generateDigest_deploy {state : StateDir} {records : Dict String TrackRecord}
    (hload : loadStrategyTrackRecords upper state = .ok records) (now : ℤ) :
    ∃ digest,
      generateDigest upper m rng deflatedSharpeRatio gate committee state now = .ok digest ∧
      ∀ s, digest.Reports s .deploy ↔
        ∃ g ∈ graded gate records, g.strategy = s ∧ g.Qualifies committee := by
  refine ⟨_, by rw [generateDigest, hload]; rfl, ?_⟩
  intro s
  constructor
  · rintro ⟨row, hrow, hs, hstatus⟩
    obtain ⟨entry, hmem, rfl⟩ := List.mem_map.mp ((List.mem_insertionSort _).mp hrow)
    refine ⟨grade gate entry, ?_, hs, (statusOf_deploy_iff _ _).mp hstatus⟩
    exact (graded_perm gate records).mem_iff.mpr (List.mem_map_of_mem hmem)
  · rintro ⟨g, hg, hs, hq⟩
    obtain ⟨entry, hmem, rfl⟩ := List.mem_map.mp ((graded_perm gate records).mem_iff.mp hg)
    refine ⟨summary m rng deflatedSharpeRatio gate committee entry, ?_, hs,
      (statusOf_deploy_iff _ _).mpr hq⟩
    exact (List.mem_insertionSort _).mpr (List.mem_map_of_mem hmem)

/-- The capital that the strategies among these which qualify ask for. -/
def asked (gs : List Graded) : ℚ :=
  ((gs.filter (Graded.Qualifies committee ·)).map (·.verdict.tierFraction)).sum

/-- Whoever qualifies fits beside all that qualified before. -/
def AllFit (limit deployed : ℚ) (gs : List Graded) : Prop :=
  ∀ earlier g later, gs = earlier ++ g :: later → g.Qualifies committee →
    deployed + asked committee earlier + g.verdict.tierFraction ≤ limit

theorem asked_cons (g : Graded) (gs : List Graded) : asked committee (g :: gs) =
    (if g.Qualifies committee then g.verdict.tierFraction else 0) + asked committee gs := by
  unfold asked
  by_cases hq : g.Qualifies committee
  · rw [if_pos hq, List.filter_cons, if_pos (decide_eq_true hq), List.map_cons, List.sum_cons]
  · rw [if_neg hq, List.filter_cons, if_neg (by rwa [decide_eq_true_eq]), zero_add]

theorem allFit_cons {limit deployed : ℚ} {g : Graded} {gs : List Graded} :
    AllFit committee limit deployed (g :: gs) ↔
      (g.Qualifies committee → deployed + g.verdict.tierFraction ≤ limit) ∧
        AllFit committee limit
          (deployed + if g.Qualifies committee then g.verdict.tierFraction else 0) gs := by
  have hnone : asked committee [] = 0 := rfl
  constructor
  · intro h
    constructor
    · intro hq
      have hfit := h [] g gs rfl hq
      rwa [hnone, add_zero] at hfit
    · intro earlier g' later hgs hq
      have hfit := h (g :: earlier) g' later (by rw [hgs, List.cons_append]) hq
      rwa [asked_cons, ← add_assoc] at hfit
  · rintro ⟨hhead, hrest⟩ earlier g' later hgs hq
    cases earlier with
    | nil =>
        obtain ⟨rfl, -⟩ := List.cons.inj hgs
        rw [hnone, add_zero]
        exact hhead hq
    | cons e earlier =>
        obtain ⟨rfl, htail⟩ := List.cons.inj hgs
        rw [asked_cons, ← add_assoc]
        exact hrest earlier g' later htail hq

/-- The broker deploys all that qualify exactly when they all fit. -/
theorem decideAll_takes_all_iff (cap deployed : ℚ) (gs : List Graded) :
    List.Forall₂ (fun g d => g.Qualifies committee → d.action = .deploy) gs
        (decideAll committee cap deployed gs).1 ↔
      AllFit committee (cap + 1 / 10 ^ 9) deployed gs := by
  induction gs generalizing deployed with
  | nil =>
      refine iff_of_true .nil ?_
      intro earlier g later hgs
      exact absurd hgs.symm (List.append_ne_nil_of_right_ne_nil _ (List.cons_ne_nil _ _))
  | cons g gs ih =>
      have hrun : (decideAll committee cap deployed (g :: gs)).1 =
          (decideOne committee cap deployed g).1 ::
            (decideAll committee cap (decideOne committee cap deployed g).2 gs).1 := rfl
      rw [hrun, List.forall₂_cons, allFit_cons, ih, decideOne_deploy_iff]
      obtain ⟨-, -, ⟨-, -, hsum, hq, -⟩ | ⟨-, -, hsum, hno⟩⟩ :=
        decideOne_cases committee cap deployed g
      · rw [hsum, if_pos hq]
        refine and_congr_left fun _ => ⟨fun h hq => (h hq).2, fun h hq => ⟨hq, h hq⟩⟩
      · -- nothing is deployed: either the strategy does not qualify, or both sides fail
        by_cases hq : g.Qualifies committee
        · have hroom : ¬ deployed + g.verdict.tierFraction ≤ cap + 1 / 10 ^ 9 :=
            fun hfits => hno ⟨hq, hfits⟩
          exact iff_of_false (fun h => hroom (h.1 hq).2) (fun h => hroom (h.1 hq))
        · rw [hsum, if_neg hq, add_zero]
          exact and_congr_left fun _ => ⟨fun _ h => absurd h hq, fun _ h => absurd h hq⟩

theorem exists_zip_left {A B : Type} {as : List A} {bs : List B} (hlen : as.length = bs.length)
    {a : A} (ha : a ∈ as) : ∃ b, (a, b) ∈ as.zip bs := by
  rw [← List.map_fst_zip hlen.le] at ha
  obtain ⟨⟨a', b⟩, hab, rfl⟩ := List.mem_map.mp ha
  exact ⟨b, hab⟩

theorem exists_zip_right {A B : Type} {as : List A} {bs : List B} (hlen : as.length = bs.length)
    {b : B} (hb : b ∈ bs) : ∃ a, (a, b) ∈ as.zip bs := by
  rw [← List.map_snd_zip hlen.ge] at hb
  obtain ⟨⟨a, b'⟩, hab, rfl⟩ := List.mem_map.mp hb
  exact ⟨a, hab⟩

end Agree

/-! ## More strategies than the portfolio holds -/

instance (digest : Digest) (strategy : String) (status : Status) :
    Decidable (digest.Reports strategy status) :=
  inferInstanceAs (Decidable (∃ row ∈ digest.strategies, _ ∧ _))

instance (report : BrokerReport) (strategy : String) (action : BrokerAction) :
    Decidable (report.Decides strategy action) :=
  inferInstanceAs (Decidable (∃ d ∈ report.decisions, _ ∧ _))

/-- `str.upper` on names of ASCII letters. -/
def capitals (s : String) : String := String.ofList (s.toList.map Char.toUpper)

/-- A shadow with one paying interval for each coin. -/
def shadows (coins : List Char) : StateDir where
  dirs := .tabulate (fun _ => [{ kind := some "shadow", r := some 1, ts := some 1 }])
    (coins.map fun c => "shadow_" ++ c.toString)

end Capital

end TreasuryForge
