/-
# `Core.Journal` — the journal's directory, and a process that is killed

`treasuryforge/journal.py`, and the two `restore` functions a restart calls with what
it loads.  The ledger and the checkpoint are two files.  Each `append_event` and each
`checkpoint` is one durable write; nothing makes the two of a settlement one.

    Killed s t c    `c` is what a process has in memory and has written when it is
                    killed during the tick `t` that began in `s`
    Life p          `p` is the directory, and the history behind it, after any number
                    of processes that each booted from it, ran, and were killed

A process that ends between two ticks is one that is killed with the writes of its
last tick complete, so `Life` has no case for it.
-/
import TreasuryForge.Core.Runner

namespace TreasuryForge

/-- A line of the ledger. -/
structure FillEvent where
  ts : ℤ
  side : String
  base : ℚ
  price : ℚ
  fee : ℚ
  deriving DecidableEq, Repr

/-- The line that `_settle` appends for a fill. -/
def Fill.event (f : Fill) : FillEvent := ⟨f.ts, f.side.value, f.baseAmount, f.price, f.fee⟩

/-- `ledger.jsonl` and `state.json`. -/
structure Disk where
  ledger : List FillEvent := []
  state : Option Checkpoint := none

namespace Disk

/-- `append_event` and `checkpoint`; the latter writes its objects with their keys sorted. -/
def write (d : Disk) : Write → Disk
  | .event ts side base price fee => { d with ledger := d.ledger ++ [⟨ts, side, base, price, fee⟩] }
  | .checkpoint c => { d with state := some { c with wallet := c.wallet.sortKeys (· ≤ ·) } }

/-- The directory after these writes. -/
def after (d : Disk) (ws : List Write) : Disk := ws.foldl write d

def loadState (d : Disk) : Option Checkpoint := d.state

theorem after_append (d : Disk) (ws ws' : List Write) :
    d.after (ws ++ ws') = (d.after ws).after ws' := List.foldl_append ..

/-- What holds of the policy in the checkpoint on disk and in every one that is written
holds of the one that is found. -/
theorem policy_after {P : PolicyEngine.Snapshot → Prop} {ws : List Write} :
    ∀ {d : Disk}, (∀ c ∈ d.state, P c.policy) → (∀ c, .checkpoint c ∈ ws → P c.policy) →
      ∀ c ∈ (d.after ws).state, P c.policy := by
  induction ws with
  | nil => exact fun h _ => h
  | cons w ws ih =>
      intro d h hw
      refine ih (d := d.write w) ?_ fun c hc => hw c (List.mem_cons_of_mem _ hc)
      cases w with
      | event ts side base price fee => exact h
      | checkpoint c =>
          intro c' hc'
          cases hc'
          exact hw c List.mem_cons_self

/-- A checkpoint is replaced, never removed. -/
theorem state_after {ws : List Write} :
    ∀ {d : Disk}, d.state.isSome = true → (d.after ws).state.isSome = true := by
  induction ws with
  | nil => exact fun h => h
  | cons w ws ih =>
      intro d h
      refine ih (d := d.write w) ?_
      cases w with
      | event ts side base price fee => exact h
      | checkpoint c => rfl

end Disk

namespace SimWallet

/-- `from_snapshot`; a snapshot without the key `quote` raises. -/
def fromSnapshot (snap : Dict String ℚ) : Option SimWallet :=
  (snap.get? "quote").map fun q => { quote := q, positions := snap.filterKeys (· ≠ "quote") }

end SimWallet

/-- The engine a restarted process begins with. -/
def Disk.restoredPolicy (cfg : PolicyConfig) (d : Disk) : PolicyEngine :=
  match d.loadState with
  | none => { config := cfg }
  | some c => PolicyEngine.restore { config := cfg } c.policy

theorem Disk.restored_latch {cfg : PolicyConfig} {d : Disk} {c : Checkpoint} (hc : c ∈ d.state) :
    (d.restoredPolicy cfg).latch = c.policy.latch := by
  rw [restoredPolicy, loadState, Option.mem_def.mp hc]
  rfl

theorem Disk.restored_none {cfg : PolicyConfig} {d : Disk} (hd : d.state = none) :
    d.restoredPolicy cfg = { config := cfg } := by
  rw [restoredPolicy, loadState, hd]

/-- The wallet a restarted process begins with. -/
def Disk.restoredWallet (w₀ : SimWallet) (d : Disk) : Option SimWallet :=
  match d.loadState with
  | none => some w₀
  | some c => SimWallet.fromSnapshot c.wallet

namespace Runner

variable {A X : Type}

/-- A new process on this directory. -/
def boot (cfg : PolicyConfig) (w₀ : SimWallet) (a : A) (x : X) (d : Disk) :
    Option (RunState A X) :=
  (d.restoredWallet w₀).map fun w =>
    { agent := a, executor := x, policy := d.restoredPolicy cfg, wallet := w }

variable (r : Runner A X)

/-- The state in which a tick asks the strategy. -/
def asking (s : RunState A X) (t : MarketTick) : RunState A X := r.settlePending (opened s t) t

/-- What a process has in memory, and has written, when it is killed during a tick. -/
inductive Killed (s : RunState A X) (t : MarketTick) : RunState A X → Prop
  /-- what was pending has settled, and its writes have got this far -/
  | settling {ws : List Write} (h : s.writes <+: ws) (h' : ws <+: (r.asking s t).writes) :
      Killed s t { r.asking s t with writes := ws }
  /-- the policy has ruled -/
  | ruling {i : Intent} {a : A}
      (h : r.agent.decide (r.asking s t).agent t (r.asking s t).wallet = (some i, a)) :
      Killed s t { r.asking s t with
        agent := a, policy := ((r.asking s t).policy.evaluate i t (r.asking s t).wallet none).2 }
  /-- the tick is over, but for its writes -/
  | finishing {ws : List Write} (h : (r.asking s t).writes <+: ws)
      (h' : ws <+: (r.onTick s t).writes) : Killed s t { r.onTick s t with writes := ws }

end Runner

def Write.isEvent : Write → Bool
  | .event .. => true
  | .checkpoint _ => false

/-- The directory, the fills whose line is in it, and the times its processes saw. -/
structure Past where
  disk : Disk := {}
  fills : List Fill := []
  seen : List ℤ := []

variable {A X : Type}

/-- The fills of a process whose line it has written. -/
def RunState.recorded (c : RunState A X) : List Fill :=
  c.report.fills.take (c.writes.countP Write.isEvent)

/-- A process that is killed leaves its writes, and nothing else. -/
def Past.kill (p : Past) (ticks : List MarketTick) (c : RunState A X) : Past :=
  ⟨p.disk.after c.writes, p.fills ++ c.recorded, p.seen ++ ticks.map MarketTick.ts⟩

namespace Runner

/-- Processes that boot from one directory and are killed, each in a state with `G`. -/
inductive Life (r : Runner A X) (cfg : PolicyConfig) (w₀ : SimWallet) (G : RunState A X → Prop) :
    Past → Prop
  | new : Life r cfg w₀ G {}
  | kill {p : Past} {a : A} {x : X} {s c : RunState A X} {ticks : List MarketTick} {t : MarketTick}
      (h : Life r cfg w₀ G p) (hs : boot cfg w₀ a x p.disk = some s)
      (hk : r.Killed (r.loop s ticks) t c) (hg : G c) :
      Life r cfg w₀ G (p.kill (ticks ++ [t]) c)

end Runner

end TreasuryForge
