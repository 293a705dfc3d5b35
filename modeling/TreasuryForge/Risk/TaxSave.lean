/-
# `Risk.TaxSave` — the tax ledger in memory and on disk

`add_fill` with the save that ends it, and `load`, which every start begins with.  The save
replaces the file whole or raises and leaves it; the ledger in memory is changed before it.
`raise_atomic_iff` says which calls that raise leave memory and disk as they were, and that a run
whose saves all succeed never shows the difference.
-/
import TreasuryForge.Risk.Tax

namespace TreasuryForge.Tax

/-- The ledger in memory, and the one in the file if there is one. -/
structure Books where
  memory : FifoTaxLedger := {}
  disk : Option FifoTaxLedger := none

/-- `load`: what a new process starts with. -/
def Books.load (b : Books) : FifoTaxLedger := b.disk.getD {}

/-- What `add_fill` raises. -/
inductive Raised where
  | refused (why : Refused)
  | save
deriving DecidableEq

/-- What can happen: a call of `add_fill`, whose save would succeed or raise, or a new start. -/
inductive Happening where
  | fill (f : TaxFill) (saves : Bool)
  | restart

section System

variable (upper : String → String)

/-- One call of `add_fill`. -/
def Books.addFill (b : Books) (f : TaxFill) (saves : Bool) :
    Except Raised (List MatchedTrade) × Books :=
  match Tax.addFill upper b.memory f with
  | .error why => (.error (.refused why), b)
  | .ok (trades, l) =>
      if saves then (.ok trades, { memory := l, disk := some l })
      else (.error .save, { b with memory := l })

def Books.next (b : Books) : Happening → Books
  | .fill f saves => (b.addFill upper f saves).2
  | .restart => { b with memory := b.load }

/-- What becomes of new books. -/
def Books.run (hs : List Happening) : Books := hs.foldl (Books.next upper) {}

/-- The call raised. -/
def Books.Raises (b : Books) (f : TaxFill) (saves : Bool) : Prop :=
  ∃ e, (b.addFill upper f saves).1 = .error e

/-- The ledger does not take the fill: it is invalid, or sells more than there is. -/
def FifoTaxLedger.Refuses (l : FifoTaxLedger) (f : TaxFill) : Prop :=
  ∃ why, Tax.addFill upper l f = .error why

/-- After the call memory is what it was and what is on disk. -/
def Books.Unchanged (b : Books) (f : TaxFill) (saves : Bool) : Prop :=
  (b.addFill upper f saves).2.memory = b.memory ∧
    (b.addFill upper f saves).2.memory = (b.addFill upper f saves).2.load

end System

variable {upper : String → String} {b : Books} {f : TaxFill} {saves : Bool}

/-! ## One call -/

theorem addFill_refused {why : Refused} (h : Tax.addFill upper b.memory f = .error why) :
    b.addFill upper f saves = (.error (.refused why), b) := by
  rw [Books.addFill, h]

theorem addFill_saved {trades : List MatchedTrade} {l : FifoTaxLedger}
    (h : Tax.addFill upper b.memory f = .ok (trades, l)) :
    b.addFill upper f true = (.ok trades, { memory := l, disk := some l }) := by
  rw [Books.addFill, h]
  rfl

theorem addFill_unsaved {trades : List MatchedTrade} {l : FifoTaxLedger}
    (h : Tax.addFill upper b.memory f = .ok (trades, l)) :
    b.addFill upper f false = (.error .save, { b with memory := l }) := by
  rw [Books.addFill, h]
  rfl

/-- Something is matched as long as something is left to sell and to sell it from. -/
theorem matchLots_ne_nil {sell : TaxFill} {remaining : ℚ} {lots : List BuyLot}
    (hrem : 0 < remaining) (hlot : ∃ lot ∈ lots, lot.coin = sell.coin) :
    (matchLots sell remaining lots).1 ≠ [] := by
  induction remaining, lots using loop_induct sell with
  | nil r =>
      obtain ⟨lot, hmem, -⟩ := hlot
      cases hmem
  | skip r lot lots h ih =>
      rw [matchLots_skip h]
      have hne : lot.coin ≠ sell.coin := h.resolve_right (not_le.mpr hrem)
      obtain ⟨lot', hmem, hcoin⟩ := hlot
      rcases List.mem_cons.mp hmem with rfl | hmem
      · exact absurd hcoin hne
      · exact ih hrem ⟨lot', hmem, hcoin⟩
  | cut r lot lots hcoin hr ih =>
      rw [matchLots_cut hcoin hr]
      exact List.cons_ne_nil _ _

theorem exists_of_held {coin : String} {lots : List BuyLot} (h : 0 < heldOf coin lots) :
    ∃ lot ∈ lots, lot.coin = coin := by
  by_contra hnone
  have hnil : ofCoin coin lots = [] := by
    refine List.filter_eq_nil_iff.mpr ?_
    intro lot hlot hcoin
    exact hnone ⟨lot, hlot, of_decide_eq_true hcoin⟩
  rw [heldOf, hnil] at h
  exact lt_irrefl _ h

/-- An accepted fill always changes the ledger. -/
theorem addFill_changes {l l' : FifoTaxLedger} {trades : List MatchedTrade}
    (h : Tax.addFill upper l f = .ok (trades, l')) : l' ≠ l := by
  intro heq
  have hcases := @addFill_ok upper ⟨[], l⟩ f l' trades h
  rw [heq] at hcases
  rcases hcases.2 with ⟨-, -, hl⟩ | ⟨-, hheld, htrades, hl⟩
  · have hlots := congrArg (fun l => l.activeLots.length) hl
    rw [List.length_append, List.length_singleton] at hlots
    exact absurd hlots.symm (Nat.succ_ne_self _)
  · have hmatched : l.matchedTrades = l.matchedTrades ++ trades :=
      congrArg FifoTaxLedger.matchedTrades hl
    have hnil : trades = [] := List.append_right_eq_self.mp hmatched.symm
    rw [hnil] at htrades
    have hlot : ∃ lot ∈ l.activeLots, lot.coin = (sellFill upper f).coin :=
      exists_of_held (hcases.1.trans_le hheld)
    have hne : (matchLots (sellFill upper f) f.qty l.activeLots).1 ≠ [] :=
      matchLots_ne_nil hcases.1 hlot
    exact hne htrades.symm

/-- Where the save succeeds, a call raises by refusing the fill. -/
theorem refuses_of_raises (h : b.Raises upper f true) : b.memory.Refuses upper f := by
  cases hadd : Tax.addFill upper b.memory f with
  | error why => exact ⟨why, hadd⟩
  | ok result =>
      obtain ⟨e, he⟩ := h
      rw [addFill_saved hadd] at he
      cases he

/-- A call that raises leaves everything as it was exactly when the fill is refused, with memory
and disk in agreement before. -/
theorem unchanged_iff (hraises : b.Raises upper f saves) :
    b.Unchanged upper f saves ↔ b.memory.Refuses upper f ∧ b.memory = b.load := by
  cases hadd : Tax.addFill upper b.memory f with
  | error why =>
      rw [Books.Unchanged, addFill_refused hadd]
      constructor
      · rintro ⟨-, hdisk⟩
        exact ⟨⟨why, hadd⟩, hdisk⟩
      · rintro ⟨-, hdisk⟩
        exact ⟨rfl, hdisk⟩
  | ok result =>
      obtain ⟨trades, l⟩ := result
      cases saves with
      | true =>
          obtain ⟨why, hwhy⟩ := refuses_of_raises hraises
          rw [hadd] at hwhy
          cases hwhy
      | false =>
          rw [Books.Unchanged, addFill_unsaved hadd]
          refine iff_of_false ?_ ?_
          · rintro ⟨hsame, -⟩
            exact addFill_changes hadd hsame
          · rintro ⟨⟨why, hwhy⟩, -⟩
            rw [hadd] at hwhy
            cases hwhy

/-! ## Runs -/

/-- The save is attempted and succeeds, or is not attempted. -/
def Books.SaveHolds (upper : String → String) (b : Books) : Happening → Prop
  | .fill f saves => saves = true ∨ b.memory.Refuses upper f
  | .restart => True

/-- Every happening of the run meets the condition in the state it finds. -/
def Books.AllSaved (upper : String → String) : Books → List Happening → Prop
  | _, [] => True
  | b, e :: es => b.SaveHolds upper e ∧ Books.AllSaved upper (b.next upper e) es

theorem next_agrees (hagree : b.memory = b.load) {e : Happening} (hsave : b.SaveHolds upper e) :
    (b.next upper e).memory = (b.next upper e).load := by
  cases e with
  | restart => rfl
  | fill f saves =>
      rw [Books.next]
      cases hadd : Tax.addFill upper b.memory f with
      | error why =>
          rw [addFill_refused hadd]
          exact hagree
      | ok result =>
          obtain ⟨trades, l⟩ := result
          rcases hsave with rfl | ⟨why, hwhy⟩
          · rw [addFill_saved hadd]
            rfl
          · rw [hadd] at hwhy
            cases hwhy

theorem run_agrees (hagree : b.memory = b.load) {es : List Happening}
    (hsaved : b.AllSaved upper es) :
    (es.foldl (Books.next upper) b).memory = (es.foldl (Books.next upper) b).load := by
  induction es generalizing b with
  | nil => exact hagree
  | cons e es ih => exact ih (next_agrees hagree hsaved.1) hsaved.2

/-- Whatever the state, a call that raises leaves memory as it was and as it is on disk exactly
when the fill is refused and the two agreed; and in a run whose saves have all succeeded they
always agree. -/
theorem raise_atomic_iff (upper : String → String) :
    (∀ (b : Books) (f : TaxFill) (saves : Bool), b.Raises upper f saves →
      (b.Unchanged upper f saves ↔ b.memory.Refuses upper f ∧ b.memory = b.load)) ∧
    ∀ es : List Happening, Books.AllSaved upper {} es → ∀ (f : TaxFill) (saves : Bool),
      (Books.run upper es).SaveHolds upper (.fill f saves) →
        (Books.run upper es).Raises upper f saves →
          (Books.run upper es).Unchanged upper f saves := by
  constructor
  · intro b f saves hraises
    exact unchanged_iff hraises
  · intro es hsaved f saves hsave hraises
    have hagree : (Books.run upper es).memory = (Books.run upper es).load := run_agrees rfl hsaved
    refine (unchanged_iff hraises).mpr ⟨?_, hagree⟩
    rcases hsave with rfl | hrefuses
    · exact refuses_of_raises hraises
    · exact hrefuses

/-- There is nothing to sell on a new ledger, and the call that tried leaves it new. -/
theorem raise_atomic_iff_of_new :
    Books.Unchanged id {} ⟨"1", 0, "BTC", "SELL", 1, 100, 0⟩ true := by
  refine ((raise_atomic_iff id).1 {} ⟨"1", 0, "BTC", "SELL", 1, 100, 0⟩ true ⟨_, rfl⟩).mpr ?_
  exact ⟨⟨_, rfl⟩, rfl⟩

/-! ## Every state is one of fills -/

/-- Both ledgers are what some fills made of a new one. -/
structure Books.Reached (upper : String → String) (b : Books) : Prop where
  memory : ∃ fs, b.memory = (History.of upper fs).ledger
  disk : ∃ fs, b.load = (History.of upper fs).ledger

theorem history_append {fs : List TaxFill} {l : FifoTaxLedger} {trades : List MatchedTrade}
    (hadd : Tax.addFill upper (History.of upper fs).ledger f = .ok (trades, l)) :
    (History.of upper (fs ++ [f])).ledger = l := by
  have hstep : History.of upper (fs ++ [f]) = (History.of upper fs).add upper f := by
    rw [History.of, List.foldl_append]
    rfl
  rw [hstep, History.add, hadd]

theorem next_reached (h : b.Reached upper) (e : Happening) : (b.next upper e).Reached upper := by
  cases e with
  | restart => exact ⟨h.disk, h.disk⟩
  | fill f saves =>
      rw [Books.next]
      cases hadd : Tax.addFill upper b.memory f with
      | error why =>
          rw [addFill_refused hadd]
          exact h
      | ok result =>
          obtain ⟨trades, l⟩ := result
          obtain ⟨fs, hfs⟩ := h.memory
          rw [hfs] at hadd
          have hl : l = (History.of upper (fs ++ [f])).ledger := (history_append hadd).symm
          rw [← hfs] at hadd
          cases saves with
          | true =>
              rw [addFill_saved hadd]
              exact ⟨⟨fs ++ [f], hl⟩, ⟨fs ++ [f], hl⟩⟩
          | false =>
              rw [addFill_unsaved hadd]
              exact ⟨⟨fs ++ [f], hl⟩, h.disk⟩

/-- Whatever saves fail and whenever it is started anew, a ledger is one that fills make. -/
theorem run_reached (es : List Happening) : (Books.run upper es).Reached upper :=
  List.foldlRecOn es (Books.next upper) ⟨⟨[], rfl⟩, ⟨[], rfl⟩⟩ fun _ h e _ => next_reached h e

/-- A fill whose save failed, and its retry: the lot is there twice. -/
theorem retry_records_twice :
    let f : TaxFill := ⟨"1", 0, "BTC", "BUY", 1, 100, 0⟩
    let failed := Books.addFill id {} f false
    let retried := failed.2.addFill id f true
    failed.1 = .error .save ∧ ¬ Books.Unchanged id {} f false ∧ retried.1 = .ok [] ∧
      retried.2.memory.activeLots = [buyLot id f, buyLot id f] ∧
      retried.2.load.activeLots = [buyLot id f, buyLot id f] := by
  intro f failed retried
  refine ⟨rfl, ?_, rfl, rfl, rfl⟩
  rintro ⟨hsame, -⟩
  have hlots := congrArg FifoTaxLedger.activeLots hsame
  cases hlots

end TreasuryForge.Tax
