/-
# `Live.ScalpShadow` — the loop that trades on paper, and the record it leaves

`run_scalp_shadow.py`: a process polls its coins, gives each new closed bar to the coin's book and
appends one row for each trade that the book closes.  All it keeps between two bars is in memory;
the service is restarted at any time, with other coins perhaps, and starts from nothing but the
ledgers.

`polls_rows` says what rows one process writes for one coin: those of the trades its book completes
over the bars it saw.  `scalp_record` puts the processes together, and the backtest beside them.
-/
import TreasuryForge.Base.Dict
import TreasuryForge.Live.Momentum
import TreasuryForge.Shadow.Record
import Mathlib.Data.List.Destutter

namespace TreasuryForge

open JsonText Lines Shadow Spells

/-! ## The loop -/

/-- A candle of the exchange, with the times at which it opens and closes. -/
structure MinuteCandle where
  opens : ℤ
  closes : ℤ
  bar : Bar
  deriving DecidableEq, Repr, Inhabited

/-- `_last_closed_1m` -/
def lastClosed (now : ℤ) (candles : List MinuteCandle) : Option MinuteCandle :=
  (candles.filter (·.closes ≤ now)).getLast?

/-- A row of the ledger. -/
structure TradeRow where
  ts : ℤ
  r : ℚ
  exit : Action
  deriving DecidableEq, Repr

/-- What is appended. -/
def TradeRow.event (row : TradeRow) : List (String × Val ℚ) :=
  [("kind", .str (Str.of "scalp")), ("ts", .int row.ts), ("r", .float row.r),
    ("exit", .str (Str.of row.exit.value))]

/-- What the process keeps of a coin: its book, the bar it has seen last, and what the open trade
has come to. -/
structure Slot where
  book : ScalpBook := {}
  lastBar : Option ℤ := none
  tradeEq : ℚ := 1
  deriving DecidableEq, Repr

namespace Slot

/-- A bar that is new. -/
def take (s : Slot) (k : MinuteCandle) : Slot × Option TradeRow :=
  let s := { s with lastBar := some k.opens }
  match s.book.observe k.bar.high k.bar.low k.bar.close with
  -- the exception ends the turn of the coin; the bar counts as seen
  | (none, book) => ({ s with book }, none)
  | (some (action, r), book) =>
      let tradeEq := s.tradeEq * (1 + r)
      if action.isExit then
        ({ s with book, tradeEq := 1 }, some ⟨k.opens.tdiv 1000, tradeEq - 1, action⟩)
      else ({ s with book, tradeEq }, none)

/-- One turn of a coin; without a candle if there is none, or the request raised. -/
def turn (s : Slot) (k : Option MinuteCandle) : Slot × Option TradeRow :=
  match k with
  | none => (s, none)
  | some k => if s.lastBar = some k.opens then (s, none) else s.take k

end Slot

/-- One round through the coins; it answers fewer of them if the process was killed in it, and
`none` where a request raised. -/
structure Poll where
  now : ℤ
  replies : List (Option (List MinuteCandle))

/-- A process, from its start to its end. -/
structure Process where
  coins : List String
  polls : List Poll

/-- The coins in memory, and the ledgers on disk. -/
abbrev Room := Dict String Slot × Dict String (List Char)

section Loop

-- `lower` is `str.lower`, of which nothing is used
variable (fl : Floats ℚ) (lower : String → String) (stem : String)

/-- `f"{args.state_prefix}_{c.lower()}"` -/
def directory (coin : String) : String := s!"{stem}_{lower coin}"

def turnOf (room : Room) (request : String × Option MinuteCandle) : Room :=
  let (coin, k) := request
  let (slot, row) := (room.1.getD coin {}).turn k
  let disk := match row with
    | none => room.2
    | some row =>
        room.2.set (directory lower stem coin)
          (Journal.appendEvent fl (room.2.getD (directory lower stem coin) []) (fields row.event))
  (room.1.set coin slot, disk)

def Poll.run (coins : List String) (room : Room) (p : Poll) : Room :=
  (coins.zip p.replies).foldl
    (fun room request =>
      turnOf fl lower stem room (request.1, request.2.bind (lastClosed p.now))) room

/-- What a process makes of the disk. -/
def Process.run (disk : Dict String (List Char)) (p : Process) : Dict String (List Char) :=
  (p.polls.foldl (Poll.run fl lower stem p.coins) (Dict.empty, disk)).2

/-- The disk after these processes, one after the other. -/
def ledgersAfter (disk : Dict String (List Char)) (history : List Process) :
    Dict String (List Char) :=
  history.foldl (Process.run fl lower stem) disk

end Loop

/-- The last closed candles that a process was answered for a coin. -/
def Process.answers (p : Process) (coin : String) : List MinuteCandle :=
  p.polls.flatMap fun q => (p.coins.zip q.replies).filterMap fun request =>
    if request.1 = coin then request.2.bind (lastClosed q.now) else none

/-- The candles it took: one that opens as the one before it did is not new. -/
def Process.seen (p : Process) (coin : String) : List MinuteCandle :=
  (p.answers coin).destutter fun a b => a.opens ≠ b.opens

/-! ## One coin of one process -/

theorem ScalpBook.observe_flat {b b' : ScalpBook} {high low close r : ℚ}
    (h : b.observe high low close = (some (.flat, r), b')) : b.inPos = false ∧ r = 0 := by
  cases hpos : b.inPos with
  | true =>
      unfold observe at h
      simp only [hpos, if_true] at h
      split_ifs at h <;> cases h
  | false =>
      unfold observe at h
      simp only [hpos, Bool.false_eq_true, if_false] at h
      split_ifs at h <;> cases h
      exact ⟨rfl, rfl⟩

theorem ScalpBook.observe_hold {b b' : ScalpBook} {high low close r : ℚ}
    (h : b.observe high low close = (some (.hold, r), b')) : b.inPos = true := by
  cases hpos : b.inPos with
  | true => rfl
  | false =>
      unfold observe at h
      simp only [hpos, Bool.false_eq_true, if_false] at h
      split_ifs at h <;> cases h

namespace Slot

variable {s : Slot} {k : MinuteCandle}

/-- The slot after these candles, and the rows of the trades closed on the way. -/
def takes (s : Slot) : List MinuteCandle → Slot × List TradeRow
  | [] => (s, [])
  | k :: ks => (((s.take k).1.takes ks).1, (s.take k).2.toList ++ ((s.take k).1.takes ks).2)

/-- The same, of candles of which some are not new. -/
def turns (s : Slot) : List MinuteCandle → Slot × List TradeRow
  | [] => (s, [])
  | k :: ks =>
      (((s.turn (some k)).1.turns ks).1,
        (s.turn (some k)).2.toList ++ ((s.turn (some k)).1.turns ks).2)

theorem take_lastBar (s : Slot) (k : MinuteCandle) : (s.take k).1.lastBar = some k.opens := by
  unfold take
  dsimp only
  split
  · rfl
  · split <;> rfl

theorem turn_same (h : s.lastBar = some k.opens) : s.turn (some k) = (s, none) := if_pos h

theorem turn_new (h : s.lastBar ≠ some k.opens) : s.turn (some k) = s.take k := if_neg h

/-- From a bar on, those that open as the last one did are passed over. -/
theorem turns_after (ks : List MinuteCandle) : ∀ {s : Slot} {a : MinuteCandle},
    s.lastBar = some a.opens →
    ∃ kept, ks.destutter' (fun a b => a.opens ≠ b.opens) a = a :: kept ∧
      s.turns ks = s.takes kept := by
  induction ks with
  | nil => exact fun _ => ⟨[], rfl, rfl⟩
  | cons k ks ih =>
      intro s a hlast
      by_cases hsame : a.opens = k.opens
      · obtain ⟨kept, hkept, hturns⟩ := ih hlast
        refine ⟨kept, ?_, ?_⟩
        · rw [List.destutter'_cons_neg _ (not_not.mpr hsame), hkept]
        · rw [turns, turn_same (hlast.trans (congrArg some hsame)), hturns]
          rfl
      · have hnew : s.lastBar ≠ some k.opens := by
          rw [hlast]
          exact fun h => hsame (Option.some.inj h)
        obtain ⟨kept, hkept, hturns⟩ := ih (s.take_lastBar k)
        refine ⟨k :: kept, ?_, ?_⟩
        · rw [List.destutter'_cons_pos _ hsame, hkept]
        · rw [turns, turn_new hnew, hturns]
          rfl

/-- From the start. -/
theorem turns_fresh (ks : List MinuteCandle) :
    ({} : Slot).turns ks = ({} : Slot).takes (ks.destutter fun a b => a.opens ≠ b.opens) := by
  cases ks with
  | nil => rfl
  | cons k ks =>
      have hnew : ({} : Slot).lastBar ≠ some k.opens := by
        intro h
        cases h
      obtain ⟨kept, hkept, hturns⟩ := turns_after ks (({} : Slot).take_lastBar k)
      rw [List.destutter_cons', hkept, turns, turn_new hnew, hturns]
      rfl

/-- The slot stands where the spell that is open says, before candle `i`. -/
structure Follows (s : Slot) (cur : Option (Spell (Action × ℚ))) (i : ℕ) : Prop where
  inPos : s.book.inPos = cur.isSome
  tradeEq : s.tradeEq = (cur.map fun sp => (sp.items.map (1 + ·.2)).prod).getD 1
  spell : ∀ sp ∈ cur, sp.closing = none ∧ sp.start + sp.items.length = i

theorem follows_fresh : ({} : Slot).Follows none 0 :=
  ⟨rfl, rfl, fun _ h => nomatch h⟩

end Slot

def TradeRow.entry (row : TradeRow) : ℚ × ℤ := (row.r, row.ts)

/-- The row of a trade, over the candles it was made in: what it came to, and when the bar that
closed it opened. -/
def entryIn (ks : List MinuteCandle) (t : Trade) : ℚ × ℤ :=
  (t.gross, (ks.getD (t.entryBar + t.held.toNat) default).opens.tdiv 1000)

namespace Slot

variable {ks : List MinuteCandle} (all : List MinuteCandle) {cur : Option (Spell (Action × ℚ))}
  {i : ℕ} {s : Slot} {k : MinuteCandle}

/-- A bar that closes a trade. -/
theorem take_exit {a : Action × ℚ} {book : ScalpBook}
    (hobs : s.book.observe k.bar.high k.bar.low k.bar.close = (some a, book))
    (hexit : a.1.isExit = true) :
    s.take k = ({ book, lastBar := some k.opens, tradeEq := 1 },
      some ⟨k.opens.tdiv 1000, s.tradeEq * (1 + a.2) - 1, a.1⟩) := by
  rw [take]
  dsimp only
  rw [hobs]
  exact if_pos hexit

/-- Any other bar that the book answers. -/
theorem take_stays {a : Action × ℚ} {book : ScalpBook}
    (hobs : s.book.observe k.bar.high k.bar.low k.bar.close = (some a, book))
    (hexit : a.1.isExit = false) :
    s.take k = ({ book, lastBar := some k.opens, tradeEq := s.tradeEq * (1 + a.2) }, none) := by
  rw [take]
  dsimp only
  rw [hobs]
  exact if_neg (Bool.eq_false_iff.mp hexit)

/-- The last bar of a trade: its row is that of the spell it closes. -/
theorem Follows.closes {a : Action × ℚ} {sp : Spell (Action × ℚ)} (h : s.Follows (some sp) i)
    (hk : all.drop i = k :: ks) :
    (tradeOf (sp.close a)).toList.map (entryIn all) =
      [(s.tradeEq * (1 + a.2) - 1, k.opens.tdiv 1000)] := by
  obtain ⟨hclosing, hindex⟩ := h.spell sp rfl
  have heq : s.tradeEq = (sp.items.map (1 + ·.2)).prod := h.tradeEq
  have hbar : all[i]? = some k := by
    rw [← List.head?_drop, hk]
    rfl
  have hgross : compounded ((sp.items ++ [a]).map (·.2)) = s.tradeEq * (1 + a.2) - 1 := by
    rw [compounded, heq, List.map_map, List.map_append, List.prod_append]
    simp [Function.comp_def]
  simp only [tradeOf, Spell.close_closing, Option.map_some, Option.toList_some, List.map_cons,
    List.map_nil, Spell.close_items, Spell.close_start, hgross, entryIn, Int.toNat_natCast, hindex,
    List.getD_eq_getElem?_getD, hbar, Option.getD_some]

/-- What a candle does, by the answer of the book. -/
theorem Follows.take {a : Action × ℚ} {book : ScalpBook} (h : s.Follows cur i)
    (hk : all.drop i = k :: ks)
    (hobs : s.book.observe k.bar.high k.bar.low k.bar.close = (some a, book)) :
    ∃ cur' trades, (s.take k).1.Follows cur' (i + 1) ∧ (s.take k).1.book = book ∧
      (s.take k).2.toList.map TradeRow.entry = trades.map (entryIn all) ∧
      ∀ trace, bookTrades i cur (a :: trace) = trades ++ bookTrades (i + 1) cur' trace := by
  obtain ⟨action, r⟩ := a
  have hcases := s.book.observe_cases k.bar.high k.bar.low k.bar.close
  rw [hobs] at hcases
  rcases hcases with ⟨r', hanswer, hout, hin⟩ | ⟨action', r', hanswer, hexit, hin, hout⟩ |
    ⟨hstay, hsame⟩
  · -- a trade opens
    cases hanswer
    have hcur : cur = none := by simpa [hout] using h.inPos.symm
    subst hcur
    rw [take_stays hobs rfl]
    refine ⟨some { start := i, items := [(.enter, r)] }, [], ⟨hin, ?_, ?_⟩, rfl, rfl, ?_⟩
    · have heq : s.tradeEq = 1 := h.tradeEq
      simp [heq]
    · rintro sp ⟨⟩
      exact ⟨rfl, rfl⟩
    · intro trace
      exact bookTrades_opens rfl
  · -- it closes
    cases hanswer
    obtain ⟨sp, rfl⟩ : ∃ sp, cur = some sp := by simpa [hin, Option.isSome_iff_exists] using h.inPos
    have hmark : answerMark (action, r) = .closes := by
      cases action <;> first | rfl | cases hexit
    rw [take_exit hobs hexit]
    refine ⟨none, (tradeOf (sp.close (action, r))).toList, ⟨hout, rfl, fun _ h => nomatch h⟩, rfl,
      ?_, ?_⟩
    · rw [h.closes all hk]
      rfl
    · intro trace
      rw [bookTrades_closes hmark]
      rfl
  · rcases hstay action r rfl with rfl | rfl
    · -- it is held
      have hin := ScalpBook.observe_hold hobs
      obtain ⟨sp, rfl⟩ : ∃ sp, cur = some sp := by
        simpa [hin, Option.isSome_iff_exists] using h.inPos
      obtain ⟨hclosing, hindex⟩ := h.spell sp rfl
      rw [take_stays hobs rfl]
      refine ⟨some (sp.push (.hold, r)), [], ⟨hsame.trans hin, ?_, ?_⟩, rfl, rfl, ?_⟩
      · have heq : s.tradeEq = (sp.items.map (1 + ·.2)).prod := h.tradeEq
        simp [heq]
      · rintro sp' ⟨⟩
        refine ⟨hclosing, ?_⟩
        rw [Spell.push_start, Spell.push_items, List.length_append, ← hindex]
        rfl
      · intro trace
        exact bookTrades_stays rfl
    · -- there is none
      obtain ⟨hout, rfl⟩ := ScalpBook.observe_flat hobs
      have hcur : cur = none := by simpa [hout] using h.inPos.symm
      subst hcur
      rw [take_stays hobs rfl]
      refine ⟨none, [], ⟨hsame.trans hout, ?_, fun _ h => nomatch h⟩, rfl, rfl, ?_⟩
      · have heq : s.tradeEq = 1 := h.tradeEq
        simp [heq]
      · intro trace
        exact bookTrades_idle rfl

/-- The rows of the candles from `i` on are those of the trades that the book completes. -/
theorem takes_rows (ks : List MinuteCandle) :
    ∀ {i : ℕ} {s : Slot} {cur : Option (Spell (Action × ℚ))}
    {trace : List (Action × ℚ)} {book : ScalpBook}, all.drop i = ks → s.Follows cur i →
    s.book.feed (ks.map MinuteCandle.bar) = some (trace, book) →
    (s.takes ks).2.map TradeRow.entry = (bookTrades i cur trace).map (entryIn all) := by
  induction ks with
  | nil =>
      intro i s cur trace book _ hs hfeed
      cases hfeed
      cases cur with
      | none => rfl
      | some sp =>
          have hopen := (hs.spell sp rfl).1
          rw [bookTrades_open hopen]
          rfl
  | cons k ks ih =>
      intro i s cur trace book hk hs hfeed
      rw [List.map_cons, ScalpBook.feed] at hfeed
      cases hobs : s.book.observe k.bar.high k.bar.low k.bar.close with
      | mk out b' =>
          rw [hobs] at hfeed
          cases out with
          | none => cases hfeed
          | some a =>
              obtain ⟨⟨rest, last⟩, hrest, hpair⟩ := Option.map_eq_some_iff.mp hfeed
              cases hpair
              obtain ⟨cur', trades, hs', hbook, hentry, hsplit⟩ := hs.take all hk hobs
              rw [← hbook] at hrest
              have hdrop : all.drop (i + 1) = ks := by
                rw [← List.drop_drop, hk]
                rfl
              rw [takes, List.map_append, hentry, ih hdrop hs' hrest, hsplit rest, List.map_append]

end Slot

/-! ## All coins of one process -/

/-- What the process asks, coin by coin and round by round. -/
def Process.requests (p : Process) : List (String × Option MinuteCandle) :=
  p.polls.flatMap fun q =>
    (p.coins.zip q.replies).map fun request => (request.1, request.2.bind (lastClosed q.now))

/-- The candles among these that are of the coin. -/
def candlesOf (coin : String) (requests : List (String × Option MinuteCandle)) :
    List MinuteCandle :=
  requests.filterMap fun request => if request.1 = coin then request.2 else none

section Rooms

variable {fl : Floats ℚ} {lower : String → String} {stem coin : String}

theorem process_run (disk : Dict String (List Char)) (p : Process) :
    p.run fl lower stem disk = (p.requests.foldl (turnOf fl lower stem) (Dict.empty, disk)).2 := by
  rw [Process.run, Process.requests, List.foldl_flatMap]
  congr 2
  funext room q
  rw [List.foldl_map]
  rfl

theorem answers_eq (p : Process) : p.answers coin = candlesOf coin p.requests := by
  rw [Process.answers, Process.requests, candlesOf, List.filterMap_flatMap]
  congr 1
  funext q
  rw [List.filterMap_map]
  rfl

variable (fl) in
theorem event_row (row : TradeRow) : (row.event.map Prod.fst).Nodup ∧
    ∀ m ∈ row.event, m.2.encodable fl = true := by
  constructor
  · show ["kind", "ts", "r", "exit"].Nodup
    decide
  · intro m hm
    simp only [TradeRow.event, List.mem_cons, List.not_mem_nil, or_false] at hm
    rcases hm with rfl | rfl | rfl | rfl
    · exact (plain_text _).encodable
    · exact (plain_int _).encodable
    · exact (plain_float _).encodable
    · exact (plain_text _).encodable

variable (fl) in
/-- The turn of another coin. -/
theorem turnOf_other (room : Room) {name : String} (k : Option MinuteCandle)
    (hown : directory lower stem name = directory lower stem coin → name = coin)
    (hname : name ≠ coin) :
    (turnOf fl lower stem room (name, k)).1.getD coin {} = room.1.getD coin {} ∧
      (turnOf fl lower stem room (name, k)).2.getD (directory lower stem coin) [] =
        room.2.getD (directory lower stem coin) [] := by
  have hdir : directory lower stem coin ≠ directory lower stem name :=
    fun h => hname (hown h.symm)
  constructor
  · simp only [turnOf, Dict.getD_set, if_neg (Ne.symm hname)]
  · simp only [turnOf]
    split
    · rfl
    · rw [Dict.getD_set, if_neg hdir]

/-- The turn of the coin. -/
theorem turnOf_own {room : Room} {k : Option MinuteCandle} {es : Entries}
    (h : Recorded fl "scalp" (room.2.getD (directory lower stem coin) []) es) :
    (turnOf fl lower stem room (coin, k)).1.getD coin {} = ((room.1.getD coin {}).turn k).1 ∧
      Recorded fl "scalp"
        ((turnOf fl lower stem room (coin, k)).2.getD (directory lower stem coin) [])
        (es ++ (((room.1.getD coin {}).turn k).2.toList.map TradeRow.entry)) := by
  constructor
  · simp only [turnOf, Dict.getD_set, if_true]
  · simp only [turnOf]
    cases ((room.1.getD coin {}).turn k).2 with
    | none => simpa using h
    | some row =>
        obtain ⟨hnames, hencodable⟩ := event_row fl row
        simp only [Dict.getD_set, if_true]
        exact h.append hnames hencodable rfl rfl rfl

/-- The coin's slot and its ledger, after what the process was answered for all coins. -/
theorem requests_keep (requests : List (String × Option MinuteCandle)) :
    ∀ (room : Room) {es : Entries},
    (∀ r ∈ requests, directory lower stem r.1 = directory lower stem coin → r.1 = coin) →
    Recorded fl "scalp" (room.2.getD (directory lower stem coin) []) es →
    let ran := (room.1.getD coin {}).turns (candlesOf coin requests)
    let room' := requests.foldl (turnOf fl lower stem) room
    room'.1.getD coin {} = ran.1 ∧
      Recorded fl "scalp" (room'.2.getD (directory lower stem coin) [])
        (es ++ ran.2.map TradeRow.entry) := by
  induction requests with
  | nil =>
      intro room es _ h
      exact ⟨rfl, by simpa [candlesOf, Slot.turns] using h⟩
  | cons request requests ih =>
      intro room es hown h
      have hlater := fun r hr => hown r (List.mem_cons_of_mem _ hr)
      obtain ⟨name, k⟩ := request
      by_cases hname : name = coin
      · subst hname
        obtain ⟨hslot, hrecorded⟩ := turnOf_own (k := k) h
        have hrest := ih _ hlater hrecorded
        rw [hslot] at hrest
        cases k with
        | none => simpa [candlesOf, Slot.turn] using hrest
        | some k => simpa [candlesOf, Slot.turns, List.map_append] using hrest
      · obtain ⟨hslot, hfile⟩ := turnOf_other fl room k
          (hown _ List.mem_cons_self) hname
        have hrest := ih (turnOf fl lower stem room (name, k)) hlater (hfile ▸ h)
        rw [hslot] at hrest
        simpa [candlesOf, hname] using hrest

/-! ## The record -/

/-- These are the trades of the process in the coin: what the book completes over the candles that
it saw, which is what the backtest finds there. -/
def Process.Completes (p : Process) (coin : String) (trades : List Trade) : Prop :=
  let bars := (p.seen coin).map MinuteCandle.bar
  ∃ trace book batch, ({} : ScalpBook).feed bars = some (trace, book) ∧
    trades = completedTrades trace ∧ backtestTrades bars {} = some batch ∧
    Agreed bars {} batch trades book

/-- One process adds to the ledger the rows of its trades. -/
theorem polls_rows {p : Process} {disk : Dict String (List Char)} {es : Entries}
    (hpos : ∀ k ∈ p.answers coin, 0 < k.bar.close)
    (hown : ∀ name ∈ p.coins, directory lower stem name = directory lower stem coin → name = coin)
    (h : Recorded fl "scalp" (disk.getD (directory lower stem coin) []) es) :
    ∃ trades, p.Completes coin trades ∧
      Recorded fl "scalp" ((p.run fl lower stem disk).getD (directory lower stem coin) [])
        (es ++ trades.map (entryIn (p.seen coin))) := by
  have hbars : ∀ bar ∈ (p.seen coin).map MinuteCandle.bar, 0 < bar.close := by
    intro bar hbar
    obtain ⟨k, hk, rfl⟩ := List.mem_map.mp hbar
    exact hpos k ((List.destutter_sublist _ _).subset hk)
  obtain ⟨trace, book, batch, hfeed, hbatch, hagreed⟩ :=
    agreedFrom hbars (show (1 : ℤ) ≤ ({} : MomentumParams).maxHold by decide) _ 0 (Nat.sub_le _ _)
  have hrows := Slot.takes_rows (p.seen coin) (p.seen coin) rfl Slot.follows_fresh hfeed
  have howns : ∀ r ∈ p.requests,
      directory lower stem r.1 = directory lower stem coin → r.1 = coin := by
    intro r hr
    obtain ⟨q, -, hq⟩ := List.mem_flatMap.mp hr
    obtain ⟨request, hrequest, rfl⟩ := List.mem_map.mp hq
    exact hown _ (List.of_mem_zip hrequest).1
  obtain ⟨-, hrecorded⟩ := requests_keep p.requests (Dict.empty, disk) howns h
  refine ⟨completedTrades trace, ⟨trace, book, batch, hfeed, rfl, hbatch, hagreed⟩, ?_⟩
  rw [process_run]
  have hseen : ((Dict.empty : Dict String Slot).getD coin {}).turns (candlesOf coin p.requests) =
      ({} : Slot).takes (p.seen coin) := by
    rw [← answers_eq]
    exact Slot.turns_fresh _
  rw [hseen, hrows] at hrecorded
  exact hrecorded

/-- The processes, one after the other. -/
theorem history_rows (history : List Process) : ∀ {disk : Dict String (List Char)} {es : Entries},
    (∀ p ∈ history, ∀ k ∈ p.answers coin, 0 < k.bar.close) →
    (∀ p ∈ history, ∀ name ∈ p.coins,
      directory lower stem name = directory lower stem coin → name = coin) →
    Recorded fl "scalp" (disk.getD (directory lower stem coin) []) es →
    ∃ trades : List (List Trade),
      List.Forall₂ (fun p ts => Process.Completes p coin ts) history trades ∧
      Recorded fl "scalp"
        ((ledgersAfter fl lower stem disk history).getD (directory lower stem coin) [])
        (es ++ (history.zip trades).flatMap fun run =>
          run.2.map (entryIn (run.1.seen coin))) := by
  induction history with
  | nil =>
      intro disk es _ _ h
      refine ⟨[], .nil, ?_⟩
      rw [List.zip_nil_left, List.flatMap_nil, List.append_nil]
      exact h
  | cons p history ih =>
      intro disk es hpos hown h
      obtain ⟨ts, hts, hrecorded⟩ :=
        polls_rows (hpos p List.mem_cons_self) (hown p List.mem_cons_self) h
      obtain ⟨trades, htrades, hrest⟩ := ih (fun q hq => hpos q (List.mem_cons_of_mem _ hq))
        (fun q hq => hown q (List.mem_cons_of_mem _ hq)) hrecorded
      refine ⟨ts :: trades, .cons hts htrades, ?_⟩
      rw [List.zip_cons_cons, List.flatMap_cons, ← List.append_assoc]
      exact hrest

/-- The track record of a coin that shares its ledger with no other: process by process, the trades
that the backtest finds in the candles this process saw.  None is lost or counted twice, however
often the same candle is answered, a request raises or the service is restarted. -/
theorem scalp_record (fl : Floats ℚ) (lower : String → String) (stem coin : String)
    (history : List Process)
    (hpos : ∀ p ∈ history, ∀ k ∈ p.answers coin, 0 < k.bar.close)
    (hown : ∀ p ∈ history, ∀ name ∈ p.coins,
      directory lower stem name = directory lower stem coin → name = coin) :
    ∃ trades : List (List Trade),
      List.Forall₂ (fun p ts => Process.Completes p coin ts) history trades ∧
      readRecord fl "scalp"
        ((ledgersAfter fl lower stem Dict.empty history).getD (directory lower stem coin) []) =
        some (Entries.record ((history.zip trades).flatMap fun run =>
          run.2.map (entryIn (run.1.seen coin)))) := by
  have hempty : Recorded fl "scalp"
      ((Dict.empty : Dict String (List Char)).getD (directory lower stem coin) []) [] :=
    recorded_empty
  obtain ⟨trades, htrades, hrecorded⟩ := history_rows history hpos hown hempty
  exact ⟨trades, htrades, hrecorded.read⟩

end Rooms

/-! ### A restart after a trade -/

/-- Two minutes that rise, an ignition, and a fall through the stop. -/
def minutes : List MinuteCandle :=
  [⟨0, 60000, ⟨100, 100, 100⟩⟩, ⟨60000, 120000, ⟨101, 100, 101⟩⟩,
    ⟨120000, 180000, ⟨104, 101, 104⟩⟩, ⟨180000, 240000, ⟨104, 90, 91⟩⟩]

/-- The ignition is answered twice, a request raises, and the stop is answered once more after a
restart. -/
def restarted : List Process :=
  [⟨["ETH"], [⟨60000, [some minutes]⟩, ⟨120000, [some minutes]⟩, ⟨180000, [some minutes]⟩,
      ⟨180001, [some minutes]⟩, ⟨210000, [none]⟩, ⟨240000, [some minutes]⟩]⟩,
    ⟨["ETH"], [⟨240001, [some minutes]⟩]⟩]

theorem scalp_record_restarted :
    ∃ trades : List (List Trade),
      List.Forall₂ (fun p ts => Process.Completes p "ETH" ts) restarted trades ∧
      readRecord .exact "scalp"
        ((ledgersAfter .exact String.toLower "scalp" Dict.empty restarted).getD
          (directory String.toLower "scalp" "ETH") []) =
        some (Entries.record ((restarted.zip trades).flatMap fun run =>
          run.2.map (entryIn (run.1.seen "ETH")))) := by
  refine scalp_record .exact String.toLower "scalp" "ETH" restarted ?_ ?_
  · decide
  · intro p hp name hname _
    simp only [restarted, List.mem_cons, List.not_mem_nil, or_false] at hp
    rcases hp with rfl | rfl
    · exact List.mem_singleton.mp hname
    · exact List.mem_singleton.mp hname

end TreasuryForge
