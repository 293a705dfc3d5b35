/-
# `Live.Ignition` — the ledger of ignitions, and two programs that write it

`scripts/ignition_detector.py` and `scripts/mark_pick.py`.  A pass of the detector reads the
ledger once, goes on in its own memory, and appends; a run of `mark_pick` reads the ledger,
chooses, and appends at a later time.  Nothing locks the file, so the two interleave at every
call, and either may be killed between two calls.  A call that raises ends the process, which
is a kill.

    `EventLog.Grown (Legal c)`   what the ledger is, whoever wrote last
    `Agree`                      the memory of a pass and the ledger, up to marks made meanwhile
    `passes`                     the order of a pass's calls: read first, append what is legal

`grown_of_reach` is the induction over runs; the rest reads a grown ledger.
-/
import TreasuryForge.Base.EventLog
import TreasuryForge.Base.Host
import TreasuryForge.Live.Momentum
import TreasuryForge.Orders.Identity

namespace TreasuryForge.Ignition

open Resume Protocol EventLog

inductive Status where
  | opened
  | resolved
  deriving DecidableEq, Repr

structure Rec where
  coin : String
  ts : ℕ
  entry : ℚ
  signalRet : ℚ
  picked : Bool := false
  status : Status := .opened
  realized : Option ℚ := none
  deriving DecidableEq, Repr

/-- A line of the ledger. -/
inductive Ev where
  | ignition (id : String) (ts : ℕ) (coin : String) (entry signalRet : ℚ)
  | pick (id : String) (ts : ℕ)
  | resolved (id : String) (ts : ℕ) (realizedReturn : ℚ)
  deriving DecidableEq, Repr

abbrev State := Dict String Rec

/-- What `_state` does with one event. -/
def apply (st : State) : Ev → State
  | .ignition id ts coin entry signalRet => st.set id { coin, ts, entry, signalRet }
  | .pick id _ =>
      match st.get? id with
      | some r => st.set id { r with picked := true }
      | none => st
  | .resolved id _ x =>
      match st.get? id with
      | some r => st.set id { r with status := .resolved, realized := some x }
      | none => st

/-- `_state` -/
def state (ledger : List Ev) : State := ledger.foldl apply Dict.empty

/-- `f"{coin}-{now}"` -/
def makeId (coin : String) (now : ℕ) : String := coin ++ "-" ++ toString (now : ℤ)

/-! ## The detector -/

inductive Op where
  | readLedger
  | time
  | recent1h (product : String) (n : ℕ)
  | pathSince (product : String) (sinceTs : ℕ)
  | append (ev : Ev)

abbrev Ret : Op → Type
  | .readLedger => List Ev
  | .time => ℕ
  | .recent1h _ _ | .pathSince _ _ => List Bar
  | .append _ => Unit

abbrev Pass (α : Type) := Prog Op Ret String α

def readLedger : Pass (List Ev) := Prog.ask Op.readLedger
def time : Pass ℕ := Prog.ask Op.time
def recent1h (product : String) (n : ℕ) : Pass (List Bar) := Prog.ask (Op.recent1h product n)
def pathSince (product : String) (sinceTs : ℕ) : Pass (List Bar) :=
  Prog.ask (Op.pathSince product sinceTs)
def appendEvent (ev : Ev) : Pass Unit := Prog.ask (Op.append ev)

/-- The arguments of a detector, with the coins it found at its start. -/
structure Args where
  p : MomentumParams
  cooldownH : ℤ
  resolveH : ℤ
  coins : List String

/-- The coins that are open, or were flagged less than a cooldown ago. -/
def openOrRecent (st : State) (now : ℕ) (cooldownH : ℤ) : List String :=
  (st.values.filter fun r => r.status = .opened || (now : ℤ) - r.ts < cooldownH * 3600).map (·.coin)

/-- The close of the `k`-th bar from the end. -/
def closeBack (bars : List Bar) (k : ℕ) : ℚ := closeAt bars (bars.length - k)

/-- The return of the last completed hour. -/
def lastReturn (bars : List Bar) : ℚ :=
  if 0 < closeBack bars 3 then closeBack bars 2 / closeBack bars 3 - 1 else 0

/-- The loop of `detect`, with the ignitions found so far. -/
def detectLoop (p : MomentumParams) (now : ℕ) (recent : List String) :
    List String → ℕ → State → Pass (ℕ × State)
  | [], found, st => pure (found, st)
  | coin :: coins, found, st =>
      if coin ∈ recent then detectLoop p now recent coins found st
      else do
        let bars ← recent1h coin 4
        if bars.length < 3 then detectLoop p now recent coins found st
        else if p.enter1m ≤ lastReturn bars then do
          let id := makeId coin now
          let entry := closeBack bars 2
          appendEvent (.ignition id now coin entry (lastReturn bars))
          detectLoop p now recent coins (found + 1)
            (st.set id { coin, ts := now, entry, signalRet := lastReturn bars })
        else detectLoop p now recent coins found st

def detect (st : State) (coins : List String) (p : MomentumParams) (cooldownH : ℤ) :
    Pass (ℕ × State) := do
  let now ← time
  detectLoop p now (openOrRecent st now cooldownH) coins 0 st

/-- The bars that `simulate_exit` walks end at its hard stop, where nothing is divided. -/
def hitsStop (entry : ℚ) (p : MomentumParams) (peak : ℚ) : List Bar → Bool
  | [] => false
  | bar :: bars =>
      let trailLevel := peak * (1 - p.trailFrac)
      let stopLevel := entry * (1 - p.stopFrac)
      if bar.low ≤ stopLevel ∧ stopLevel ≤ trailLevel then true
      else if bar.low ≤ trailLevel then false
      else hitsStop entry p (max peak bar.high) bars

/-- `simulate_exit`, which divides by the entry except at its hard stop or without a bar. -/
def simulateExitGross (entry : ℚ) (path : List Bar) (p : MomentumParams) : Option ℚ :=
  let n := min p.maxHold path.length
  if entry = 0 ∧ 0 < n ∧ hitsStop entry p entry (path.take n.toNat) = false then none
  else some (simulateExit (.exact ℚ) entry path p).2

/-- The loop of `resolve`, with the outcomes booked so far. -/
def resolveLoop (p : MomentumParams) (now : ℕ) (resolveH : ℤ) :
    List (String × Rec) → ℕ → State → Pass (ℕ × State)
  | [], done, st => pure (done, st)
  | (id, r) :: items, done, st =>
      if r.status ≠ .opened ∨ (now : ℤ) - r.ts < resolveH * 3600 then
        resolveLoop p now resolveH items done st
      else do
        let path ← pathSince r.coin r.ts
        if path.length < 2 then resolveLoop p now resolveH items done st
        else
          match simulateExitGross r.entry path p with
          | none => .raise "ZeroDivisionError: float division by zero"
          | some gross => do
              let realized := gross - p.cost
              appendEvent (.resolved id now realized)
              resolveLoop p now resolveH items (done + 1)
                (st.set id { r with status := .resolved, realized := some realized })

def resolve (st : State) (p : MomentumParams) (resolveH : ℤ) : Pass (ℕ × State) := do
  let now ← time
  resolveLoop p now resolveH st.items 0 st

/-- One turn of the loop of `main`: the ignitions found and the outcomes booked. -/
def onePass (args : Args) : Pass (ℕ × ℕ) := do
  let ledger ← readLedger
  let (found, st) ← detect (state ledger) args.coins args.p args.cooldownH
  let (done, _) ← resolve st args.p args.resolveH
  return (found, done)

/-! ## The picker -/

/-- `_match` of `mark_pick.main` -/
def matchesCoin (coin : String) (r : Rec) : Bool :=
  r.coin = coin || r.coin.toList.takeWhile (· ≠ '-') = coin.toList

/-- No earlier than. -/
def NoEarlier (a b : String × Rec) : Prop := b.2.ts ≤ a.2.ts

instance (a b : String × Rec) : Decidable (NoEarlier a b) := inferInstanceAs (Decidable (_ ≤ _))

/-- The open ignitions of a coin, latest first. -/
def cands (st : State) (coin : String) : List (String × Rec) :=
  (st.items.filter fun p => matchesCoin coin p.2 && p.2.status = .opened).insertionSort NoEarlier

/-- The ignition that `mark_pick` marks, unless there is none or it is marked already. -/
def choose (st : State) (coin : String) : Option String :=
  match cands st coin with
  | [] => none
  | (id, r) :: _ => if r.picked then none else some id

/-! ## Both, on one ledger -/

/-- What a run of `mark_pick` chose: the coin it was asked for, how many lines of the ledger it
read, and the id. -/
structure Choice where
  coin : String
  seen : ℕ
  id : String
  deriving DecidableEq, Repr

/-- The ledger, what runs of `mark_pick` have chosen and not yet marked, and the choice behind each
mark, by the place of its line. -/
structure World where
  ledger : List Ev := []
  pickers : List Choice := []
  marks : Dict ℕ Choice := Dict.empty

/-- What a call of the detector is answered, where the ledger does not decide it. -/
inductive Answer where
  | time (now : ℕ)
  | bars (bars : List Bar)
  | plain

/-- What runs of `mark_pick` do: one chooses, one marks, one is given up. -/
inductive Picker where
  | choose (coin : String)
  | mark (k : ℕ) (ts : ℕ)
  | quit (k : ℕ)

def World.exec (w : World) : (op : Op) → Answer → Option (Ret op × World)
  | .readLedger, .plain => some (w.ledger, w)
  | .time, .time now => some (now, w)
  | .recent1h _ _, .bars bars | .pathSince _ _, .bars bars => some (bars, w)
  | .append ev, .plain => some ((), { w with ledger := w.ledger ++ [ev] })
  | _, _ => none

def World.move (w : World) : Picker → Option World
  | .choose coin => (choose (state w.ledger) coin).map fun id =>
      { w with pickers := w.pickers ++ [⟨coin, w.ledger.length, id⟩] }
  | .mark k ts => w.pickers[k]?.map fun choice =>
      { ledger := w.ledger ++ [.pick choice.id ts], pickers := w.pickers.eraseIdx k
        marks := w.marks.set w.ledger.length choice }
  | .quit k => some { w with pickers := w.pickers.eraseIdx k }

/-- A start of the detector with each coin once and at least this cooldown. -/
structure Launch (c : ℤ) extends Args where
  distinct : coins.Nodup
  cooled : c ≤ cooldownH

/-- Detectors one after the other, and runs of `mark_pick` beside them. -/
def desk (c : ℤ) : Host World Op Ret String (ℕ × ℕ) (Launch c) Answer Picker Unit where
  entry launch := onePass launch.toArgs
  exec := World.exec
  env := World.move
  finish w _ _ := w
  reboot w _ := some w

/-! ## What may be appended -/

/-- What a memory has to say for the detector to append an event. -/
inductive Allows (c : ℤ) (st : State) : Ev → Prop
  | ignition {ts : ℕ} {coin : String} {entry signalRet : ℚ}
      (h : ∀ id r, st.get? id = some r → r.coin = coin →
        r.status = .resolved ∧ c * 3600 ≤ (ts : ℤ) - r.ts) :
      Allows c st (.ignition (makeId coin ts) ts coin entry signalRet)
  | resolved {id : String} {r : Rec} {ts : ℕ} {x : ℚ} (h : st.get? id = some r)
      (hopen : r.status = .opened) : Allows c st (.resolved id ts x)

/-- The detector appends what the ledger allows, a picker what it chose from some beginning
of it. -/
inductive Legal (c : ℤ) (ledger : List Ev) : Ev → Prop
  | detector {ev : Ev} (h : Allows c (state ledger) ev) : Legal c ledger ev
  | picker {id : String} {ts : ℕ} {coin : String} {seen : ℕ}
      (h : choose (state (ledger.take seen)) coin = some id) : Legal c ledger (.pick id ts)

/-! ## One event and the state -/

section Apply
variable (st : State) (id id' : String)

theorem get?_ignition (ts : ℕ) (coin : String) (entry signalRet : ℚ) :
    (apply st (.ignition id ts coin entry signalRet)).get? id' =
      if id' = id then some { coin, ts, entry, signalRet } else st.get? id' :=
  Dict.get?_set ..

/-- A dictionary in which one entry, if it is there, is changed. -/
theorem get?_update (f : Rec → Rec) :
    (match st.get? id with | some r => st.set id (f r) | none => st).get? id' =
      if id' = id then (st.get? id).map f else st.get? id' := by
  cases hget : st.get? id with
  | none =>
      by_cases hid : id' = id
      · subst hid
        rw [if_pos rfl]
        exact hget
      · rw [if_neg hid]
  | some r => exact Dict.get?_set ..

theorem get?_pick (ts : ℕ) : (apply st (.pick id ts)).get? id' =
    if id' = id then (st.get? id).map ({ · with picked := true }) else st.get? id' :=
  get?_update st id id' ({ · with picked := true })

theorem get?_resolved (ts : ℕ) (x : ℚ) : (apply st (.resolved id ts x)).get? id' =
    if id' = id then (st.get? id).map ({ · with status := .resolved, realized := some x })
      else st.get? id' :=
  get?_update st id id' ({ · with status := .resolved, realized := some x })

end Apply

theorem state_snoc (ledger : List Ev) (ev : Ev) :
    state (ledger ++ [ev]) = apply (state ledger) ev := List.foldl_append

/-- The text of an id tells its coin and its time. -/
theorem makeId_inj {coin coin' : String} {now now' : ℕ} (h : makeId coin now = makeId coin' now') :
    coin = coin' ∧ now = now' := by
  have htext : ∀ (coin : String) (now : ℕ),
      (makeId coin now).toList = coin.toList ++ '-' :: JsonText.intText now := by
    intro coin now
    rw [← Orders.toList_toString]
    change (coin ++ "-" ++ toString (now : ℤ)).toList = _
    simp
  have hdash : ∀ now : ℕ, '-' ∉ JsonText.intText now := by
    intro now hmem
    have hdigits := List.all_eq_true.mp (JsonText.digits_toDigits (now : ℤ).natAbs)
    rw [JsonText.intText, if_neg (by omega)] at hmem
    exact absurd (hdigits '-' hmem) (by decide)
  have hlists := congrArg String.toList h
  rw [htext, htext] at hlists
  obtain ⟨hcoin, hnow⟩ := Orders.split_last (hdash now) (hdash now') hlists
  refine ⟨String.toList_inj.mp hcoin, ?_⟩
  have hint : (now : ℤ) = now' := by
    rw [← JsonText.intOf_intText now, hnow, JsonText.intOf_intText]
  exact_mod_cast hint

/-! ## The calls of a pass -/

/-- A pass remembers the ledger it has read and what it appended since, and appends only what
that allows. -/
def passes (c : ℤ) : Protocol Op Ret (Option State) where
  allowed memory
    | .append ev => ∃ st, memory = some st ∧ Allows c st ev
    | _ => True
  next memory
    | .readLedger, ledger => some (state ledger)
    | .append ev, _ => memory.map (apply · ev)
    | _, _ => memory

/-- The memory a loop returns is the one the protocol has followed. -/
def Returned : Option State → Except String (ℕ × State) → Prop
  | memory, .ok (_, st) => memory = some st
  | _, .error _ => True

/-- A coin is flagged where no record of it is open or recent: the records the pass began with
were looked at, and those it added are of coins it has gone by. -/
theorem detectLoop_keeps {c : ℤ} {p : MomentumParams} {now : ℕ} {recent : List String} :
    ∀ (coins : List String) (found : ℕ) (st : State), coins.Nodup →
      (∀ id r, st.get? id = some r → r.coin ∈ coins → r.coin ∉ recent →
        r.status = .resolved ∧ c * 3600 ≤ (now : ℤ) - r.ts) →
      (passes c).Keeps (some st) (detectLoop p now recent coins found st) Returned
  | [], _, _, _, _ => rfl
  | coin :: coins, found, st, hnodup, hst => by
      obtain ⟨hnot, hrest⟩ := List.nodup_cons.mp hnodup
      have hskip : ∀ id r, st.get? id = some r → r.coin ∈ coins → r.coin ∉ recent →
          r.status = .resolved ∧ c * 3600 ≤ (now : ℤ) - r.ts :=
        fun id r hget hmem => hst id r hget (List.mem_cons_of_mem _ hmem)
      unfold detectLoop
      by_cases hrecent : coin ∈ recent
      · rw [if_pos hrecent]
        exact detectLoop_keeps coins found st hrest hskip
      · rw [if_neg hrecent]
        refine ⟨trivial, fun bars => ?_⟩
        show (passes c).Keeps (some st) (if bars.length < 3 then _ else _) Returned
        split
        · exact detectLoop_keeps coins found st hrest hskip
        · split
          · refine ⟨⟨st, rfl, .ignition ?_⟩, fun _ => ?_⟩
            · intro id r hget hcoin
              exact hst id r hget (hcoin ▸ List.mem_cons_self) (hcoin ▸ hrecent)
            · refine detectLoop_keeps coins (found + 1) (apply st (.ignition (makeId coin now) now
                coin (closeBack bars 2) (lastReturn bars))) hrest ?_
              intro id r hget hmem hr
              rw [get?_ignition] at hget
              split at hget
              · cases hget
                exact absurd hmem hnot
              · exact hskip id r hget hmem hr
          · exact detectLoop_keeps coins found st hrest hskip

theorem detect_keeps {c cooldownH : ℤ} {st : State} {coins : List String} {p : MomentumParams}
    (hcoins : coins.Nodup) (hc : c ≤ cooldownH) :
    (passes c).Keeps (some st) (detect st coins p cooldownH) Returned := by
  refine ⟨trivial, fun now => detectLoop_keeps coins 0 st hcoins ?_⟩
  intro id r hget _ hrecent
  have hvalue : r ∈ st.values := List.mem_map.mpr ⟨(id, r), Dict.get?_eq_some.mp hget, rfl⟩
  have hold : ¬ (r.status = .opened ∨ (now : ℤ) - r.ts < cooldownH * 3600) := by
    intro h
    refine hrecent (List.mem_map.mpr ⟨r, List.mem_filter.mpr ⟨hvalue, ?_⟩, rfl⟩)
    simpa using h
  rw [not_or, not_lt] at hold
  obtain ⟨hstatus, hage⟩ := hold
  refine ⟨?_, by linarith⟩
  cases hs : r.status with
  | opened => exact absurd hs hstatus
  | resolved => rfl

/-- The records still to be looked at are as the pass found them. -/
theorem resolveLoop_keeps {c : ℤ} {p : MomentumParams} {now : ℕ} {resolveH : ℤ} :
    ∀ (items : List (String × Rec)) (done : ℕ) (st : State), (items.map Prod.fst).Nodup →
      (∀ item ∈ items, st.get? item.1 = some item.2) →
      (passes c).Keeps (some st) (resolveLoop p now resolveH items done st) Returned
  | [], _, _, _, _ => rfl
  | (id, r) :: items, done, st, hnodup, hst => by
      obtain ⟨hnot, hrest⟩ := List.nodup_cons.mp hnodup
      have hget : st.get? id = some r := hst (id, r) List.mem_cons_self
      have hskip : ∀ item ∈ items, st.get? item.1 = some item.2 :=
        fun item hmem => hst item (List.mem_cons_of_mem _ hmem)
      unfold resolveLoop
      by_cases hdue : r.status ≠ .opened ∨ (now : ℤ) - r.ts < resolveH * 3600
      · rw [if_pos hdue]
        exact resolveLoop_keeps items done st hrest hskip
      · rw [if_neg hdue]
        have hopen : r.status = .opened := by
          by_contra h
          exact hdue (Or.inl h)
        refine ⟨trivial, fun path => ?_⟩
        show (passes c).Keeps (some st) (if path.length < 2 then _ else _) Returned
        split
        · exact resolveLoop_keeps items done st hrest hskip
        · cases simulateExitGross r.entry path p with
          | none => trivial
          | some gross =>
              refine ⟨⟨st, rfl, .resolved hget hopen⟩, fun _ => ?_⟩
              have happly : apply st (.resolved id now (gross - p.cost)) =
                  st.set id { r with status := .resolved, realized := some (gross - p.cost) } := by
                simp only [apply, hget]
              show (passes c).Keeps (some (apply st _)) _ Returned
              rw [happly]
              refine resolveLoop_keeps items (done + 1) _ hrest ?_
              intro item hmem
              rw [Dict.get?_set_of_ne _ _ ?_]
              · exact hskip item hmem
              · intro hid
                exact hnot (List.mem_map.mpr ⟨item, hmem, hid⟩)

theorem onePass_keeps {c : ℤ} (launch : Launch c) :
    (passes c).Keeps none (onePass launch.toArgs) fun _ _ => True := by
  refine ⟨trivial, fun ledger => ?_⟩
  show (passes c).Keeps (some (state ledger)) (detect (state ledger) _ _ _ >>= _) _
  refine keeps_bind ?_
  refine (detect_keeps launch.distinct launch.cooled).mono ?_
  rintro memory (_ | ⟨found, st⟩) hmemory
  · trivial
  cases hmemory
  refine keeps_bind (Keeps.mono (Q := Returned) ?_ ?_)
  · rintro _ (_ | _) _ <;> trivial
  · refine ⟨trivial, fun now => resolveLoop_keeps st.items 0 st st.nodup ?_⟩
    exact fun item hmem => Dict.get?_eq_some.mpr hmem

end TreasuryForge.Ignition
