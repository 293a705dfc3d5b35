/-
# `Core.Restore` — an engine made from its snapshot

`snapshot` and `restore` of the policy engine, with the JSON text of a checkpoint between them.
The text holds every field of the engine but its configuration, and `restore` reads them all
back (`restored_self`): the anchor, also if there is none yet, the latch, and both windows with
whatever was not pruned from them.  So no verdict depends on whether the engine that rules was
made from a snapshot, and a tripped engine stays one.
-/
import TreasuryForge.Base.JsonExact
import TreasuryForge.Base.Replay
import TreasuryForge.Core.Policy

namespace TreasuryForge

namespace PolicyEngine

open JsonText Replay

/-! ## The dictionary of a snapshot -/

/-- A pair of the spend window is a list. -/
def spendItem (x : ℤ × ℚ) : Val ℚ := .list [.int x.1, .float x.2]

def Snapshot.items (s : Snapshot) : List (String × Val ℚ) :=
  [("starting_equity", s.startingEquity.elim .none .float), ("tripped", .bool s.tripped),
    ("recent_ts", .list (s.recentTs.map .int)),
    ("spend", .list (s.spend.map spendItem))]

/-- An entry of `spend`, which must be a pair. -/
def spendEntry (v : Val ℚ) : Option (ℤ × ℚ) :=
  match v.toList with
  | some [ts, n] => ts.toInt.bind fun ts => n.toFloat.map fun n => (ts, n)
  | _ => none

/-- `restore`, from what was read; fails on values it cannot convert. -/
def restoreItems (e : PolicyEngine) (state : List (Key ℚ × Val ℚ)) : Option PolicyEngine := do
  let startingEquity ← match (get? state "starting_equity").getD .none with
    | .none => some none
    | v => v.toFloat.map some
  let recentTs ← ((get? state "recent_ts").getD (.list [])).toList.bind (List.mapM Val.toInt)
  let spend ← ((get? state "spend").getD (.list [])).toList.bind (List.mapM spendEntry)
  let tripped := ((get? state "tripped").getD (.bool false)).toBool
  return { config := e.config, startingEquity, tripped, recentTs, spend }

variable (fl : Floats ℚ)

/-- A new engine, restored from the text that was written of this one's snapshot. -/
def restored (e : PolicyEngine) : Option PolicyEngine :=
  match (dumps fl .spaced (.dict (fields e.snapshot.items))).bind (loads fl) with
  | some (.dict state) => restoreItems { config := e.config } state
  | _ => none

/-- Converting back what was converted. -/
theorem mapM_map {α : Type} {f : α → Val ℚ} {g : Val ℚ → Option α} (h : ∀ a, g (f a) = some a)
    (as : List α) : (as.map f).mapM g = some as := by
  induction as with
  | nil => rfl
  | cons a as ih =>
      rw [List.map_cons, List.mapM_cons, h, ih]
      rfl

theorem plain_items (s : Snapshot) : ∀ m ∈ s.items, m.2.Plain fl := by
  have hentry : ∀ x : ℤ × ℚ, (spendItem x).Plain fl := fun x => plain_list (by simp)
  intro m hm
  simp only [Snapshot.items, List.mem_cons, List.not_mem_nil, or_false] at hm
  rcases hm with rfl | rfl | rfl | rfl
  · cases s.startingEquity with
    | none => exact plain_none
    | some q => exact plain_float q
  · exact plain_bool _
  · exact plain_list (List.forall_mem_map.mpr fun n _ => plain_int n)
  · exact plain_list (List.forall_mem_map.mpr fun x _ => hentry x)

example : dumps Floats.exact .spaced
      (.dict (fields (Snapshot.items ⟨some 100, true, [7], [(7, 25)]⟩))) =
    some ("\x7b\"recent_ts\": [7], \"spend\": [[7, 25.0]], " ++
      "\"starting_equity\": 100.0, \"tripped\": true\x7d").toList := by
  decide +kernel

theorem restoreItems_items {e : PolicyEngine} {s : Snapshot} {state : List (Key ℚ × Val ℚ)}
    (hget : ∀ name, get? state name = s.items.lookup name) :
    restoreItems e state = some (e.restore s) := by
  have hequity : get? state "starting_equity" = some (s.startingEquity.elim .none .float) := hget _
  have htripped : get? state "tripped" = some (.bool s.tripped) := hget _
  have hrecent : get? state "recent_ts" = some (.list (s.recentTs.map .int)) := hget _
  have hspend : get? state "spend" = some (.list (s.spend.map spendItem)) := hget _
  have hts : (s.recentTs.map Val.int).mapM Val.toInt = some s.recentTs :=
    mapM_map (f := Val.int) (fun _ => rfl) _
  have hpairs : (s.spend.map spendItem).mapM spendEntry = some s.spend :=
    mapM_map (f := spendItem) (fun _ => rfl) _
  simp only [restoreItems, hequity, htripped, hrecent, hspend, Option.getD_some, Val.toList,
    Option.bind_some, hts, hpairs]
  cases hs : s.startingEquity with
  | none => simp [restore, Val.toBool, hs]
  | some q => simp [restore, Val.toBool, Val.toFloat, hs]

/-- A new engine that is restored from the snapshot is the engine. -/
theorem restored_self (e : PolicyEngine) : restored fl e = some e := by
  have hnames : (e.snapshot.items.map Prod.fst).Nodup := by
    show ["starting_equity", "tripped", "recent_ts", "spend"].Nodup
    decide
  obtain ⟨state, hloads, hget⟩ := loads_fields .spaced hnames (plain_items fl e.snapshot)
  rw [restored, hloads]
  exact restoreItems_items hget

/-! ## Runs -/

/-- What is done with an engine, besides restoring it. -/
inductive Call where
  | evaluate (intent : Intent) (tick : MarketTick) (wallet : SimWallet) (dataAgeNs : Option ℤ)
  | registerFill (ts : ℤ) (notional : ℚ)

/-- The verdict, of a call that has one, and the engine after it. -/
def call (e : PolicyEngine) : Call → Option Verdict × PolicyEngine
  | .evaluate intent tick wallet dataAgeNs =>
      let ruling := e.evaluate intent tick wallet dataAgeNs
      (some ruling.1, ruling.2)
  | .registerFill ts notional => (none, e.registerFill ts notional)

def program : Program PolicyEngine Call (Option Verdict) := ⟨call, restored fl⟩

theorem restartable : (program fl).Restartable fun _ => True :=
  ⟨fun _ _ => trivial, fun _ => restored_self fl _⟩

theorem call_tripped {e : PolicyEngine} (h : e.tripped = true) (c : Call) :
    (e.call c).2.tripped = true ∧ ∀ v, (e.call c).1 = some v → v.allowed = false := by
  cases c with
  | evaluate intent tick wallet dataAgeNs =>
      have ht : (e.evaluate intent tick wallet dataAgeNs).2.tripped = true := evaluate_tripped h
      refine ⟨ht, ?_⟩
      intro v hv
      rw [← Option.some.inj hv]
      exact denied_of_tripped ht
  | registerFill ts notional => exact ⟨h, fun v hv => nomatch hv⟩

theorem steps_tripped {e : PolicyEngine} (h : e.tripped = true) (cs : List Call) :
    ∀ v, some v ∈ ((program fl).steps e cs).1 → v.allowed = false := by
  induction cs generalizing e with
  | nil => exact fun v hv => absurd hv List.not_mem_nil
  | cons c cs ih =>
      obtain ⟨ht, hdenied⟩ := call_tripped h c
      intro v hv
      rcases List.mem_cons.mp hv with hv | hv
      · exact hdenied v hv.symm
      · exact ih ht v hv

/-- Whatever is called on an engine, and wherever it is replaced by one restored from its snapshot:
no restore fails, from where it is tripped on every verdict denies, and one more replacement, at
any point, changes no verdict and not the engine at the end. -/
theorem latched_and_transparent (e : PolicyEngine) (before after : List (Event Call)) :
    ∃ verdicts e₁ verdicts' e₂, (program fl).run e before = some (verdicts, e₁) ∧
      (program fl).run e₁ after = some (verdicts', e₂) ∧
      (e₁.tripped = true → ∀ v, some v ∈ verdicts' → v.allowed = false) ∧
      (program fl).run e (before ++ after) = some (verdicts ++ verdicts', e₂) ∧
      (program fl).run e (before ++ .restart :: after) = some (verdicts ++ verdicts', e₂) := by
  have hrun (e : PolicyEngine) (es : List (Event Call)) :
      (program fl).run e es = some ((program fl).steps e (inputs es)) :=
    Program.run_transparent (restartable fl) trivial es
  refine ⟨_, _, _, _, hrun e before, hrun _ after, fun ht => steps_tripped fl ht _, ?_, ?_⟩
  · rw [hrun, inputs_append, Program.steps_append]
  · rw [hrun, inputs_append, inputs, Program.steps_append]

end PolicyEngine

end TreasuryForge
