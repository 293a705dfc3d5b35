/-
# `Marketlab.Store` — the market database and its sync

The tables of candles and funding of `marketlab/store.py`, the numbers of a row already read, and
the two loops that bring them up to date from a server.  No start is asked for twice, so a server
that answers as it likes is a function of the request.  `sync_complete` says what the tables hold
in the end.
-/
import TreasuryForge.Base.Dict
import TreasuryForge.Base.Paging
import Mathlib.Algebra.Order.Field.Rat

namespace TreasuryForge

namespace Marketlab

open Paging

/-- A row of a candle snapshot; the volume may be missing. -/
structure Candle where
  t : ℤ
  o : ℚ
  h : ℚ
  l : ℚ
  c : ℚ
  v : Option ℚ := none
  deriving DecidableEq, Repr

structure FundingRow where
  time : ℤ
  fundingRate : ℚ
  deriving DecidableEq, Repr

/-- The columns of a candle that are not its key. -/
structure Ohlcv where
  o : ℚ
  h : ℚ
  l : ℚ
  c : ℚ
  v : ℚ
  deriving DecidableEq, Repr

def Candle.columns (r : Candle) : Ohlcv := ⟨r.o, r.h, r.l, r.c, r.v.getD 0⟩

/-- The tables by their primary keys: coin, interval and time, or coin and time. -/
structure MarketStore where
  candles : Dict (String × String × ℤ) Ohlcv := .empty
  funding : Dict (String × ℤ) ℚ := .empty

structure CandleRequest where
  coin : String
  interval : String
  startTime : ℤ
  endTime : ℤ

structure FundingRequest where
  coin : String
  startTime : ℤ

namespace MarketStore

/-- `INSERT OR REPLACE`, and how many rows there were. -/
def upsertCandles (db : MarketStore) (coin interval : String) (rows : List Candle) :
    MarketStore × ℕ :=
  ({ db with
      candles := rows.foldl (fun d r => d.set (coin, interval, r.t) r.columns) db.candles },
    rows.length)

def upsertFunding (db : MarketStore) (coin : String) (rows : List FundingRow) : MarketStore × ℕ :=
  ({ db with funding := rows.foldl (fun d r => d.set (coin, r.time) r.fundingRate) db.funding },
    rows.length)

end MarketStore

/-- `now - days * 24 * 3600 * 1000` -/
def syncStart (now days : ℤ) : ℤ := now - days * 24 * 3600 * 1000

/-- The store and the total, once a page is in. -/
def counted {R : Type} (upsert : MarketStore → List R → MarketStore × ℕ) (s : MarketStore × ℕ)
    (page : List R) : MarketStore × ℕ :=
  let (db, n) := upsert s.1 page
  (db, s.2 + n)

def syncCandles (post : CandleRequest → List Candle) (now : ℤ) (coin interval : String)
    (days : ℤ) (fuel : ℕ) (db : MarketStore) : Option (MarketStore × ℕ) :=
  syncLoop Candle.t (fun cur => post ⟨coin, interval, cur, now⟩)
    (counted fun db new => db.upsertCandles coin interval new) now fuel (syncStart now days) []
    (db, 0)

def syncFunding (post : FundingRequest → List FundingRow) (now : ℤ) (coin : String) (days : ℤ)
    (fuel : ℕ) (db : MarketStore) : Option (MarketStore × ℕ) :=
  syncLoop FundingRow.time (fun cur => post ⟨coin, cur⟩)
    (counted fun db new => db.upsertFunding coin new) now fuel (syncStart now days) [] (db, 0)

/-! ## What a sync leaves in its table -/

section Table

variable {R K V : Type} [DecidableEq K]

/-- The server's rows from the start up to now are held, and every other entry is an old one, or
that of a row which the server dates now or later. -/
structure Synced (time : R → ℤ) (key : R → K) (val : R → V) (rows : List R) (start now : ℤ)
    (old new : Dict K V) : Prop where
  held : ∀ row ∈ rows, start ≤ time row → time row < now → new.get? (key row) = some (val row)
  kept : ∀ k, (∀ row ∈ rows, start ≤ time row → time row < now → key row ≠ k) →
    new.get? k = old.get? k ∨
      ∃ row ∈ rows, now ≤ time row ∧ key row = k ∧ new.get? k = some (val row)

theorem synced_of_fetched {time : R → ℤ} {key : R → K} {val : R → V} {rows fetched : List R}
    {start now : ℤ} (hrows : rows.Pairwise fun a b => time a < time b)
    (hkey : ∀ a b, key a = key b → time a = time b) (hfirst : fetched <+: since time rows start)
    (hall : ∀ row ∈ since time rows start, time row < now → row ∈ fetched) (old : Dict K V) :
    Synced time key val rows start now old
      (fetched.foldl (fun d r => d.set (key r) (val r)) old) := by
  have hfetched : ∀ row ∈ fetched, row ∈ rows ∧ start ≤ time row := fun row hrow =>
    mem_since.mp (hfirst.subset hrow)
  have hkeys : (fetched.map key).Nodup := by
    have hsorted : fetched.Pairwise fun a b => time a < time b :=
      hrows.sublist (hfirst.sublist.trans List.filter_sublist)
    exact List.pairwise_map.mpr (hsorted.imp fun hlt heq => hlt.ne (hkey _ _ heq))
  obtain ⟨hwritten, hkept⟩ := Dict.get?_foldl_rows val hkeys old
  refine ⟨fun row hrow hstart hnow => ?_, fun k hk => ?_⟩
  · exact hwritten row (hall row (mem_since.mpr ⟨hrow, hstart⟩) hnow)
  · by_cases hmem : k ∈ fetched.map key
    · obtain ⟨row, hrow, rfl⟩ := List.mem_map.mp hmem
      obtain ⟨hserver, hstart⟩ := hfetched row hrow
      have hlater : now ≤ time row := by
        by_contra hearly
        exact hk row hserver hstart (not_le.mp hearly) rfl
      exact Or.inr ⟨row, hserver, hlater, rfl, hwritten row hrow⟩
    · exact Or.inl (hkept k hmem)

/-- A loop over a server's pages ends, and leaves a table synced that each row is written to. -/
theorem loop_synced {S : Type} {time : R → ℤ} (key : R → K) (val : R → V) {rows : List R}
    {page : ℤ → List R} (h : Serves time rows page) (hkey : ∀ a b, key a = key b → time a = time b)
    (absorb : S → List R → S) (start now : ℤ) (s : S) (old : Dict K V) :
    ∃ pages : List (List R),
      Synced time key val rows start now old
        (pages.flatten.foldl (fun d r => d.set (key r) (val r)) old) ∧
      ∀ fuel, rows.length < fuel →
        syncLoop time page absorb now fuel start [] s = some (pages.foldl absorb s) := by
  obtain ⟨pages, hfirst, hall, hrun⟩ :=
    syncLoop_fetches h absorb now start (List.forall_mem_nil (· < start)) s
  refine ⟨pages, synced_of_fetched h.ascending hkey hfirst hall old, fun fuel hfuel => ?_⟩
  exact hrun fuel ((List.length_filter_le _ rows).trans_lt hfuel)

end Table

/-- The pages are upserted one after the other. -/
theorem foldl_candles (coin interval : String) (pages : List (List Candle)) (db : MarketStore)
    (n : ℕ) :
    pages.foldl (counted fun db new => db.upsertCandles coin interval new) (db, n) =
      ({ db with
          candles := pages.flatten.foldl (fun d r => d.set (coin, interval, r.t) r.columns)
            db.candles },
        n + pages.flatten.length) := by
  induction pages generalizing db n with
  | nil => rfl
  | cons page pages ih =>
      rw [List.foldl_cons, counted, MarketStore.upsertCandles, ih, List.flatten_cons,
        List.foldl_append, List.length_append, Nat.add_assoc]

theorem foldl_funding (coin : String) (pages : List (List FundingRow)) (db : MarketStore) (n : ℕ) :
    pages.foldl (counted fun db new => db.upsertFunding coin new) (db, n) =
      ({ db with
          funding := pages.flatten.foldl (fun d r => d.set (coin, r.time) r.fundingRate)
            db.funding },
        n + pages.flatten.length) := by
  induction pages generalizing db n with
  | nil => rfl
  | cons page pages ih =>
      rw [List.foldl_cons, counted, MarketStore.upsertFunding, ih, List.flatten_cons,
        List.foldl_append, List.length_append, Nat.add_assoc]

/-- Both syncs end, with all rows of the server up to now in the table, and nothing else changed
but under the key of a row that the server dates now or later. -/
theorem sync_complete :
    (∀ (rows : List Candle) (post : CandleRequest → List Candle) (now : ℤ)
        (coin interval : String) (days : ℤ) (db : MarketStore),
      Serves Candle.t rows (fun cur => post ⟨coin, interval, cur, now⟩) →
      ∃ db' total,
        (∀ fuel, rows.length < fuel →
          syncCandles post now coin interval days fuel db = some (db', total)) ∧
        Synced Candle.t (fun r => (coin, interval, r.t)) Candle.columns rows (syncStart now days)
          now db.candles db'.candles ∧
        db'.funding = db.funding) ∧
    ∀ (rows : List FundingRow) (post : FundingRequest → List FundingRow) (now : ℤ)
        (coin : String) (days : ℤ) (db : MarketStore),
      Serves FundingRow.time rows (fun cur => post ⟨coin, cur⟩) →
      ∃ db' total,
        (∀ fuel, rows.length < fuel →
          syncFunding post now coin days fuel db = some (db', total)) ∧
        Synced FundingRow.time (fun r => (coin, r.time)) FundingRow.fundingRate rows
          (syncStart now days) now db.funding db'.funding ∧
        db'.candles = db.candles := by
  constructor
  · intro rows post now coin interval days db h
    obtain ⟨pages, hsynced, hrun⟩ := loop_synced
      (fun r => (coin, interval, r.t)) Candle.columns h (fun a b heq => congrArg (·.2.2) heq)
      (counted fun db new => db.upsertCandles coin interval new) (syncStart now days) now (db, 0)
      db.candles
    rw [foldl_candles] at hrun
    exact ⟨_, _, hrun, hsynced, rfl⟩
  · intro rows post now coin days db h
    obtain ⟨pages, hsynced, hrun⟩ := loop_synced
      (fun r => (coin, r.time)) FundingRow.fundingRate h (fun a b heq => congrArg (·.2) heq)
      (counted fun db new => db.upsertFunding coin new) (syncStart now days) now (db, 0) db.funding
    rw [foldl_funding] at hrun
    exact ⟨_, _, hrun, hsynced, rfl⟩

/-- A server with one candle in the last day and one that is dated now, one to a page. -/
def twoCandles : List Candle := [⟨3600000, 5, 5, 5, 5, some 7⟩, ⟨86400000, 2, 2, 2, 2, none⟩]

def oneByOne (r : CandleRequest) : List Candle :=
  (twoCandles.filter fun c => decide (r.startTime ≤ c.t)).take 1

theorem oneByOne_serves :
    Serves Candle.t twoCandles fun cur => oneByOne ⟨"BTC", "1h", cur, 86400000⟩ where
  ascending := by decide
  earliest _ := List.take_prefix 1 _
  nonempty s h := by
    intro hnil
    rcases List.take_eq_nil_iff.mp hnil with hone | hempty
    · cases hone
    · exact h hempty

theorem sync_complete_of_two : ∃ db' total,
    (∀ fuel, 2 < fuel →
      syncCandles oneByOne 86400000 "BTC" "1h" 1 fuel {} = some (db', total)) ∧
      Synced Candle.t (fun r => ("BTC", "1h", r.t)) Candle.columns twoCandles 0 86400000 .empty
        db'.candles := by
  obtain ⟨db', total, hrun, hsynced, -⟩ :=
    sync_complete.1 twoCandles oneByOne 86400000 "BTC" "1h" 1 {} oneByOne_serves
  exact ⟨db', total, hrun, hsynced⟩

/-- A store with a candle that is dated now. -/
def dated : MarketStore where
  candles := Dict.empty.set ("BTC", "1h", 86400000) ⟨1, 1, 1, 1, 1⟩

/-- The candle of the server takes the place of the old one, although it is not before now. -/
theorem sync_replaces_later :
    Serves Candle.t twoCandles (fun cur => oneByOne ⟨"BTC", "1h", cur, 86400000⟩) ∧
      dated.candles.get? ("BTC", "1h", 86400000) = some ⟨1, 1, 1, 1, 1⟩ ∧
      (syncCandles oneByOne 86400000 "BTC" "1h" 1 3 dated).map
        (fun r => (r.1.candles.get? ("BTC", "1h", 3600000),
          r.1.candles.get? ("BTC", "1h", 86400000), r.2)) =
        some (some ⟨5, 5, 5, 5, 7⟩, some ⟨2, 2, 2, 2, 0⟩, 2) :=
  ⟨oneByOne_serves, by decide, by decide +kernel⟩

end Marketlab

end TreasuryForge
