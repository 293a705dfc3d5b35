/-
# `Live.Arm` — the check before arming, and what it reads of the breaker

`scripts/preflight_arm.py`, over a state directory that the program's own writers
filled: `Runner` checkpoints into the journal it is given, and `run_autonomous`
appends `policy_state` events to `policy_live`.

    writer            file                       where the trip is
    Runner            <journal>/state.json       policy.tripped
    run_autonomous    policy_live/ledger.jsonl   state.tripped, of the last event
    _check_latch      policy/state.json          _tripped

The last line agrees with none of the others, in directory, file, nesting or name, so
`_check_latch` passes on everything the program writes (`checkLatch_written`), and
`check_all` is decided by its other checks (`refuses_iff`).
-/
import TreasuryForge.Core.Restore
import TreasuryForge.Core.Runner
import TreasuryForge.Live.Relay

namespace TreasuryForge

open JsonText

/-! ## What is on disk -/

/-- The two files of a journal. -/
structure JournalFiles where
  ledger : List (Val ℚ) := []
  state : Option (Val ℚ) := none

/-- The journals under a state directory, by name. -/
abbrev StateDir := String → JournalFiles

namespace StateDir

def empty : StateDir := fun _ => {}

def appendEvent (d : StateDir) (sub : String) (event : Val ℚ) : StateDir :=
  Function.update d sub { d sub with ledger := (d sub).ledger ++ [event] }

def checkpoint (d : StateDir) (sub : String) (state : Val ℚ) : StateDir :=
  Function.update d sub { d sub with state := some state }

@[simp] theorem state_appendEvent (d : StateDir) (sub sub' : String) (event : Val ℚ) :
    (d.appendEvent sub' event sub).state = (d sub).state := by
  rw [appendEvent, Function.update_apply]
  split
  · next h => rw [h]
  · rfl

@[simp] theorem state_checkpoint (d : StateDir) (sub sub' : String) (state : Val ℚ) :
    (d.checkpoint sub' state sub).state = if sub = sub' then some state else (d sub).state := by
  rw [checkpoint, Function.update_apply]
  split <;> rfl

end StateDir

/-! ## The writers -/

/-- `Runner._state`. -/
def Checkpoint.items (c : Checkpoint) : List (String × Val ℚ) :=
  [("last_ts", .int c.lastTs), ("policy", .dict (fields c.policy.items)),
    ("wallet", .dict (fields ((c.wallet.sortKeys (· ≤ ·)).items.map fun p => (p.1, .float p.2))))]

/-- What persists the state of a policy engine, or goes to the same journal. -/
inductive PolicyWrite where
  /-- a `Runner` on the journal of this name -/
  | runner (sub : String) (w : Write)
  /-- `run_autonomous` -/
  | policyState (ts : ℤ) (s : PolicyEngine.Snapshot)

namespace StateDir

def write (d : StateDir) : PolicyWrite → StateDir
  | .runner sub (.event ts side base price fee) =>
      d.appendEvent sub (.dict (fields [("base", .float base), ("fee", .float fee),
        ("price", .float price), ("side", .str (Str.of side)), ("ts", .int ts)]))
  | .runner sub (.checkpoint c) => d.checkpoint sub (.dict (fields c.items))
  | .policyState ts s =>
      d.appendEvent "policy_live" (.dict (fields [("kind", .str (Str.of "policy_state")),
        ("state", .dict (fields s.items)), ("ts", .int ts)]))

/-- The directory after these writes. -/
def after (ws : List PolicyWrite) : StateDir := ws.foldl write empty

end StateDir

/-! ## The reader -/

inductive ArmMode where
  | live
  | paper
  deriving DecidableEq

/-- What `check_all` finds outside the state directory. -/
structure ArmWorld where
  /-- the exchange answers `{"type": "meta"}` -/
  answers : Bool
  /-- `resolve_agent_credentials`, which raises when there are none -/
  credentials : Option (String × String)
  /-- the info client and the credentials of a paper check -/
  mockInfo : Bool := false
  mockAgentKey : Option String := none
  mockMaster : Option String := none
  /-- the address of a key, and what the info client answers; each may raise -/
  address : String → Option String
  authorizedAgents : String → Option (List String)
  availableCollateral : String → Option ℚ
  /-- the relay file -/
  relay : TextFile

/-- `given or default`. -/
def orElse (given : Option String) (default : String) : String :=
  match given with
  | some s => if s = "" then default else s
  | none => default

/-- `relay_ts > 0` and `now - relay_ts <= 900`. -/
def freshAt (now : ℤ) : PyFloat → Bool
  | .fin ts => 0 < ts && now - ts ≤ 900
  | .inf negative => !negative
  | .nan => false

namespace ArmWorld

variable (w : ArmWorld)

def checkApi (mode : ArmMode) : Bool := mode = .paper || w.answers

/-- The agent key and the master address, unless they are missing. -/
def resolve : ArmMode → Option (String × String)
  | .paper =>
      some (orElse w.mockAgentKey ("0x".pushn 'a' 64), orElse w.mockMaster ("0x".pushn 'b' 40))
  | .live => w.credentials

def info : ArmMode → Bool
  | .paper => w.mockInfo
  | .live => true

def checkAuth (mode : ArmMode) (agentKey master : String) : Bool :=
  if (w.checkApi mode && w.info mode && master ≠ "") = false then false
  else
    match w.address agentKey, w.authorizedAgents master with
    | some agent, some agents => (agents.map String.toLower).contains agent.toLower
    | _, _ => false

def checkCollateral (mode : ArmMode) (master : String) : ℚ :=
  if (w.checkApi mode && w.info mode && master ≠ "") = false then 0
  else (w.availableCollateral master).getD 0

def checkRelay (fl : Floats PyFloat) (limits : Limits PyFloat) (now : ℤ) : Except String Bool := do
  let snap ← Relay.loadSnapshot fl limits w.relay
  match ((get? snap "ts").getD (.int 0)).number? with
  | some ts => return freshAt now ts
  | none => .error "TypeError"

end ArmWorld

def checkLatch (d : StateDir) : Except String Bool :=
  match (d "policy").state with
  | none => .ok true
  | some state =>
      if state.toBool = false then .ok true
      else
        match state with
        | .dict items => .ok !((get? items "_tripped").getD (.bool false)).toBool
        | _ => .error "AttributeError"

def checkMicro (collateral tier : ℚ) : Except String Bool :=
  if 0 < collateral then
    if 10 ≤ tier * collateral then .ok true
    -- the message of the failure says what collateral it would take, `10.0 / tier`
    else if tier = 0 then .error "ZeroDivisionError"
    else .ok false
  else .ok false

section CheckAll
variable (fl : Floats PyFloat) (limits : Limits PyFloat)

/-- `check_all`; what it prints is left out, but for what raises in it. -/
def ArmWorld.checkAll (w : ArmWorld) (mode : ArmMode) (d : StateDir) (now : ℤ) (tier : ℚ) :
    Except String Bool :=
  match w.resolve mode with
  | none => .ok false
  | some (agentKey, master) => do
      let authOk := w.checkAuth mode agentKey master
      let collateral := w.checkCollateral mode master
      let relayOk ← w.checkRelay fl limits now
      let latchOk ← checkLatch d
      let microOk ← checkMicro collateral tier
      return w.checkApi mode && authOk && decide (0 < collateral) && relayOk && latchOk && microOk

end CheckAll

/-! ## What the reader makes of the writers -/

/-- A `state.json` that the program wrote is a checkpoint of a `Runner`. -/
theorem state_written (ws : List PolicyWrite) (sub : String) :
    ∀ state ∈ (StateDir.after ws sub).state, ∃ c : Checkpoint, state = .dict (fields c.items) := by
  have hall : ∀ d : StateDir,
      (∀ state ∈ (d sub).state, ∃ c : Checkpoint, state = .dict (fields c.items)) →
        ∀ state ∈ (ws.foldl StateDir.write d sub).state,
          ∃ c : Checkpoint, state = .dict (fields c.items) := by
    induction ws with
    | nil => exact fun d h => h
    | cons w ws ih =>
        intro d h
        refine ih _ ?_
        match w with
        | .runner _ (.event ..) =>
            simpa only [StateDir.write, StateDir.state_appendEvent] using h
        | .policyState .. =>
            simpa only [StateDir.write, StateDir.state_appendEvent] using h
        | .runner _ (.checkpoint c) =>
            intro state hs
            simp only [StateDir.write, StateDir.state_checkpoint] at hs
            split at hs
            · cases hs
              exact ⟨c, rfl⟩
            · exact h state hs
  exact hall _ fun _ h => by cases h

/-- Whatever engine's state was persisted, tripped or not. -/
theorem checkLatch_written (ws : List PolicyWrite) : checkLatch (StateDir.after ws) = .ok true := by
  rw [checkLatch]
  cases h : (StateDir.after ws "policy").state with
  | none => rfl
  | some state =>
      obtain ⟨c, rfl⟩ := state_written ws "policy" state h
      have hlatch : get? (fields c.items) "_tripped" = none := get?_fields c.items "_tripped"
      show Except.ok (!((get? (fields c.items) "_tripped").getD (.bool false)).toBool) = _
      rw [hlatch]
      rfl

/-- What `check_all` refuses for, the latch apart: the credentials are missing, or no check
raises and one of them fails. -/
def ArmWorld.Refuses (fl : Floats PyFloat) (limits : Limits PyFloat) (w : ArmWorld) (mode : ArmMode)
    (now : ℤ) (tier : ℚ) : Prop :=
  w.resolve mode = none ∨ ∃ agentKey master fresh micro,
    w.resolve mode = some (agentKey, master) ∧ w.checkRelay fl limits now = .ok fresh ∧
    checkMicro (w.checkCollateral mode master) tier = .ok micro ∧
    ¬ (w.checkApi mode = true ∧ w.checkAuth mode agentKey master = true ∧
      0 < w.checkCollateral mode master ∧ fresh = true ∧ micro = true)

/-- Two checks, neither of which raised. -/
theorem checks_eq_false {x y : Except String Bool} {f : Bool → Bool → Bool} :
    (do let a ← x; let b ← y; return f a b) = (.ok false : Except String Bool) ↔
      ∃ a b, x = .ok a ∧ y = .ok b ∧ f a b = false := by
  cases x with
  | error _ =>
      constructor
      · intro h
        cases h
      · rintro ⟨_, _, h, -⟩
        cases h
  | ok a =>
      cases y with
      | error _ =>
          constructor
          · intro h
            cases h
          · rintro ⟨_, _, -, h, -⟩
            cases h
      | ok b =>
          constructor
          · exact fun h => ⟨a, b, rfl, rfl, Except.ok.inj h⟩
          · rintro ⟨_, _, ⟨⟩, ⟨⟩, h⟩
            exact congrArg Except.ok h

/-- On a state directory that the program filled, `check_all` returns `False` exactly when
a check other than that of the latch says so. -/
theorem refuses_iff (fl : Floats PyFloat) (limits : Limits PyFloat) (w : ArmWorld) (mode : ArmMode)
    (ws : List PolicyWrite) (now : ℤ) (tier : ℚ) :
    w.checkAll fl limits mode (StateDir.after ws) now tier = .ok false ↔
      w.Refuses fl limits mode now tier := by
  simp only [ArmWorld.checkAll, ArmWorld.Refuses, checkLatch_written]
  cases hr : w.resolve mode with
  | none => exact ⟨fun _ => Or.inl rfl, fun _ => rfl⟩
  | some pair =>
      obtain ⟨agentKey, master⟩ := pair
      have hall : ∀ b₁ b₂ b₃ b₄ b₅ : Bool, (b₁ && b₂ && b₃ && b₄ && true && b₅) = false ↔
          ¬ (b₁ = true ∧ b₂ = true ∧ b₃ = true ∧ b₄ = true ∧ b₅ = true) := by decide
      refine checks_eq_false.trans ?_
      simp only [hall, decide_eq_true_iff]
      constructor
      · rintro ⟨fresh, micro, hf, hm, h⟩
        exact Or.inr ⟨agentKey, master, fresh, micro, rfl, hf, hm, h⟩
      · rintro (h | ⟨_, _, fresh, micro, hk, hf, hm, h⟩)
        · cases h
        · cases hk
          exact ⟨fresh, micro, hf, hm, h⟩

/-- An engine whose breaker has latched. -/
def trippedEngine : PolicyEngine where
  config := {
    allowedSymbols := ["BTC"], maxNotionalPerTx := 200, maxTxPerWindow := 5, windowSteps := 10,
    maxDrawdownPct := 1 / 2 }
  startingEquity := some 1500
  tripped := true

/-- An account with everything else in order. -/
def readyWorld : ArmWorld where
  answers := true
  credentials := some ("key", "master")
  address _ := some "0xAb"
  authorizedAgents _ := some ["0xab"]
  availableCollateral _ := some 1200
  relay := { text := "\x7b\"ts\": 100000\x7d".toList }

/-- The agent is authorized under its address in whatever case. -/
theorem readyWorld_auth : readyWorld.checkAuth .live "key" "master" = true := by
  have hcase : "0xab".toLower = "0xAb".toLower := by
    show "0xab".map Char.toLower = "0xAb".map Char.toLower
    rw [← String.toList_inj, String.toList_map, String.toList_map]
    decide +kernel
  show ["0xab".toLower].contains "0xAb".toLower = true
  rw [hcase, List.contains_cons, beq_self_eq_true, Bool.true_or]

/-- The trip is in both places, and in the very directory the check looks at, and the
process may be armed. -/
theorem tripped_is_armed :
    readyWorld.checkAll PyFloat.exact .none .live (StateDir.after [
      .runner "policy" (.checkpoint ⟨7, trippedEngine.snapshot, Dict.empty⟩),
      .policyState 7 trippedEngine.snapshot]) 100200 (1 / 100) = .ok true := by
  have hrelay : readyWorld.checkRelay PyFloat.exact .none 100200 = .ok true := by decide +kernel
  have hresolve : readyWorld.resolve .live = some ("key", "master") := rfl
  simp only [ArmWorld.checkAll, hresolve, readyWorld_auth, hrelay, checkLatch_written]
  decide +kernel

end TreasuryForge
