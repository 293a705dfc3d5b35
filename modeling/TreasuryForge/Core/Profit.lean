/-
# `Core.Profit` — where the money of a run comes from

A run through `SimExecutor` earns what the price does to the position it finds at each tick, less
what each fill costs at its own tick: the fee, and the distance of the fill's price from the
tick's.  To that comes what a fill forgives, since `applyFill` lifts a balance between `-1e-9` and
zero to zero.  So the initial equity of the report, the positions along the run and the fills
account for the wallet at the end to the last cent (`profit_attributed`).
-/
import TreasuryForge.Base.Holding
import TreasuryForge.Core.Bounds
import TreasuryForge.Core.Portfolio

namespace TreasuryForge

/-! ## One fill -/

namespace Settlement

/-- What the fill costs beside the mark: the fee, and the distance of its price from the mark. -/
def cost (σ : Settlement) : ℚ :=
  match σ.fill.side with
  | .buy => σ.fill.fee + σ.fill.baseAmount * (σ.fill.price - σ.mark)
  | .sell => σ.fill.fee + σ.fill.baseAmount * (σ.mark - σ.fill.price)

/-- What lifting the two balances to zero adds. -/
def forgiven (σ : Settlement) : ℚ :=
  (σ.after.quote - (σ.before.quote + σ.fill.quoteDelta)) +
    (σ.after.baseBalance σ.fill.symbol -
      (σ.before.baseBalance σ.fill.symbol + σ.fill.baseDelta)) * σ.mark

/-- What the fill does to the equity at its tick. -/
def booked (σ : Settlement) : ℚ := σ.forgiven - σ.cost

theorem sum_booked (st : List Settlement) :
    (st.map booked).sum = (st.map forgiven).sum - (st.map cost).sum := by
  induction st with
  | nil => simp
  | cons σ st ih =>
      simp only [List.map_cons, List.sum_cons, ih, booked]
      ring

variable {x : SimExecutor} {σ : Settlement}

/-- A fill of the simulated executor that the wallet took. -/
structure Sim (x : SimExecutor) (σ : Settlement) : Prop where
  fill : σ.fill = x.fill σ.intent σ.tick
  applied : σ.before.applyFill σ.fill = .ok σ.after

theorem Sim.paid (h : Sim x σ) : σ.fill.quoteDelta + σ.fill.baseDelta * σ.mark = -σ.cost := by
  have hcurrency : σ.fill.feeCurrency = "quote" := by rw [h.fill, SimExecutor.fill]
  cases hside : σ.fill.side with
  | buy =>
      simp [Fill.quoteDelta, Fill.baseDelta, cost, hside, hcurrency]
      ring
  | sell =>
      simp [Fill.quoteDelta, Fill.baseDelta, cost, hside, hcurrency]
      ring

/-- The equity at the fill's tick moves by what is booked. -/
theorem Sim.equity (h : Sim x σ) :
    σ.after.equity σ.tick.prices = σ.before.equity σ.tick.prices + σ.booked := by
  obtain ⟨-, -, hafter⟩ := SimWallet.applyFill_ok.mp h.applied
  have hsymbol : σ.fill.symbol = σ.intent.symbol := by rw [h.fill, SimExecutor.fill]
  have hmark : σ.tick.prices.getD σ.fill.symbol 0 = σ.mark := by
    rw [SimWallet.prices_getD, hsymbol, mark]
  have hpaid := h.paid
  have hbase := congrArg (SimWallet.baseBalance · σ.fill.symbol) hafter
  rw [SimWallet.baseBalance_set] at hbase
  have hquote := congrArg SimWallet.quote hafter
  rw [hafter, SimWallet.equity_set, hmark, booked, forgiven, hquote, hbase]
  linear_combination hpaid

theorem mark_nonneg (h : 0 ≤ σ.tick.price) : 0 ≤ σ.mark := by
  unfold mark
  split
  · exact h
  · exact le_rfl

/-- At most the tolerance of each balance is forgiven. -/
theorem Sim.forgiven_le (h : Sim x σ) (hmark : 0 ≤ σ.mark) :
    0 ≤ σ.forgiven ∧ σ.forgiven ≤ eps * (1 + σ.mark) := by
  obtain ⟨hquote, hbase, hafter⟩ := SimWallet.applyFill_ok.mp h.applied
  have hlift : ∀ v : ℚ, -eps ≤ v → 0 ≤ max v 0 - v ∧ max v 0 - v ≤ eps := by
    intro v hv
    rcases le_total v 0 with hneg | hpos
    · rw [max_eq_right hneg]
      exact ⟨by linarith, by linarith⟩
    · rw [max_eq_left hpos, sub_self]
      exact ⟨le_rfl, by norm_num [eps]⟩
  obtain ⟨hquote₀, hquote₁⟩ := hlift _ hquote
  obtain ⟨hbase₀, hbase₁⟩ := hlift _ hbase
  rw [forgiven, hafter, SimWallet.baseBalance_set]
  refine ⟨add_nonneg hquote₀ (mul_nonneg hbase₀ hmark), ?_⟩
  rw [mul_add, mul_one]
  exact add_le_add hquote₁ (mul_le_mul_of_nonneg_right hbase₁ hmark)

end Settlement

/-! ## Whole runs -/

namespace Runner

open Holding

variable {A : Type} {r : Runner A Unit} {x : SimExecutor} {t : MarketTick}

/-- What the wallet is worth when the runner's coin is at this price. -/
def worth (r : Runner A Unit) (s : RunState A Unit) (price : ℚ) : ℚ :=
  s.wallet.quote + s.wallet.baseBalance r.symbol * price

/-- What the settlements so far have done to the equity. -/
def bookedSum (s : RunState A Unit) : ℚ := (s.settled.map Settlement.booked).sum

/-- What the position earns along a run: at each tick, the position found there times the move
since the tick before. -/
def marketPnl (r : Runner A Unit) (price : ℚ) (s : RunState A Unit) (ticks : List MarketTick) : ℚ :=
  drift r.onTick MarketTick.price (fun s => s.wallet.baseBalance r.symbol) price s ticks

theorem worth_eq (s : RunState A Unit) (ht : t.symbol = r.symbol) :
    s.wallet.equity t.prices = r.worth s t.price := by
  rw [SimWallet.equity_tick, ht, worth]

/-- Seen at this tick's price, the wallet is worth `v` beside what is booked. -/
def Reconciled (t : MarketTick) (v : ℚ) : Relates := fun w _ _ st =>
  w.equity t.prices = v + (st.map Settlement.booked).sum

theorem Reconciled.fill {w w' : SimWallet} {p p' : PolicyEngine} {pend pend' : Option (Intent × ℤ)}
    {st : List Settlement} {i : Intent} {f : Fill} {v : ℚ} (h : Reconciled t v w p pend st)
    (hf : f = x.fill i t ∧ w.applyFill f = .ok w') :
    Reconciled t v w' p' pend' (st ++ [⟨i, t, w, f, w'⟩]) := by
  have hsim : Settlement.Sim x ⟨i, t, w, f, w'⟩ := ⟨hf.1, hf.2⟩
  have hequity : w.equity t.prices = v + (st.map Settlement.booked).sum := h
  have hmoved := hsim.equity
  simp only at hmoved
  show w'.equity t.prices = _
  rw [hmoved, hequity, List.map_append, List.sum_append]
  simp [add_assoc]

/-- Every settlement is a fill of the simulated executor, at a mark that is not negative. -/
def Simulated (x : SimExecutor) : Relates := fun _ _ _ st => ∀ σ ∈ st, σ.Sim x ∧ 0 ≤ σ.mark

theorem Simulated.fill {w w' : SimWallet} {p p' : PolicyEngine} {pend pend' : Option (Intent × ℤ)}
    {st : List Settlement} {i : Intent} {f : Fill} (ht : 0 < t.price)
    (h : Simulated x w p pend st) (hf : f = x.fill i t ∧ w.applyFill f = .ok w') :
    Simulated x w' p' pend' (st ++ [⟨i, t, w, f, w'⟩]) := by
  intro σ hσ
  rcases List.mem_append.mp hσ with hσ | hσ
  · exact h σ hσ
  · rw [List.mem_singleton.mp hσ]
    exact ⟨⟨hf.1, hf.2⟩, Settlement.mark_nonneg ht.le⟩

theorem simulated_kept (hx : r.executor = x.toExecutor) (ht : 0 < t.price) :
    Kept r (Simulated x) t where
  fillPending h he := h.fill ht (executes hx he)
  dropPending h := h
  abort h he := aborts hx he ▸ h
  rule h := h
  fillNow h _ _ he := h.fill ht (executes hx he)
  keep h _ _ := h

theorem booked_kept (hx : r.executor = x.toExecutor) (v : ℚ) : Kept r (Reconciled t v) t where
  fillPending h he := h.fill (executes hx he)
  dropPending h := h
  abort h he := aborts hx he ▸ h
  rule h := h
  fillNow h _ _ he := h.fill (executes hx he)
  keep h _ _ := h

theorem accounts (hx : r.executor = x.toExecutor) :
    Accounts r.onTick MarketTick.price (fun s => s.wallet.baseBalance r.symbol) r.worth bookedSum
      (fun t => t.symbol = r.symbol) where
  moves s p q := by
    simp only [worth]
    ring
  books s t ht := by
    have hstart : At (Reconciled t (r.worth s t.price - bookedSum s)) s := by
      show s.wallet.equity t.prices = _
      rw [worth_eq s ht]
      exact (sub_add_cancel _ _).symm
    have hend := (booked_kept hx _).moved.onTick hstart fun _ _ => trivial
    have hworth : (r.onTick s t).wallet.equity t.prices =
        r.worth s t.price - bookedSum s + bookedSum (r.onTick s t) := hend
    rw [worth_eq _ ht] at hworth
    linear_combination hworth

/-! ## The report -/

/-- The second state comes later in the run: the same initial equity, and a fill reported for each
settlement. -/
structure Later (s s' : RunState A Unit) : Prop where
  first : s'.first = s.first
  initial : s'.report.initialEquity = s.report.initialEquity
  filed : ∃ new, s'.settled = s.settled ++ new ∧
    s'.report.fills = s.report.fills ++ new.map Settlement.fill

theorem Later.refl (s : RunState A Unit) : Later s s := ⟨rfl, rfl, [], by simp, by simp⟩

theorem Later.trans {s s' s'' : RunState A Unit} (h : Later s s') (h' : Later s' s'') :
    Later s s'' := by
  obtain ⟨new, hsettled, hfills⟩ := h.filed
  obtain ⟨new', hsettled', hfills'⟩ := h'.filed
  refine ⟨h'.first.trans h.first, h'.initial.trans h.initial, new ++ new', ?_, ?_⟩
  · rw [hsettled', hsettled, List.append_assoc]
  · rw [hfills', hfills, List.map_append, List.append_assoc]

theorem later_log (s : RunState A Unit) (ts : ℤ) (price : ℚ) (kind : LedgerKind) :
    Later s (r.log s ts price kind) := ⟨rfl, rfl, [], by simp [log], by simp [log]⟩

theorem later_journal (s : RunState A Unit) (ws : List Write) : Later s (r.journal s ws) := by
  unfold journal
  split
  · exact ⟨rfl, rfl, [], by simp, by simp⟩
  · exact Later.refl s

theorem later_settle (s : RunState A Unit) (i : Intent) (t : MarketTick) :
    Later s (r.settle s i t) := by
  unfold settle
  rcases r.executor.execute s.executor i t s.wallet with ⟨e | fill, wallet, u⟩
  · exact ⟨rfl, rfl, [], by simp [log, tallyDenial], by simp [log, tallyDenial]⟩
  · refine Later.trans ?_ (later_journal _ _)
    exact ⟨rfl, rfl, [⟨i, t, s.wallet, fill, wallet⟩], rfl, rfl⟩

theorem later_dispose (s : RunState A Unit) (i : Intent) (t : MarketTick) :
    Later s (r.dispose s i t) := by
  unfold dispose
  dsimp only
  split
  · split
    · refine Later.trans ?_ (later_journal _ _)
      exact ⟨rfl, rfl, [], by simp [log, tallyDenial], by simp [log, tallyDenial]⟩
    · exact ⟨rfl, rfl, [], by simp [log, tallyDenial], by simp [log, tallyDenial]⟩
  · split
    · refine Later.trans ?_ (later_settle _ i t)
      exact ⟨rfl, rfl, [], by simp, by simp⟩
    · exact ⟨rfl, rfl, [], by simp, by simp⟩

theorem later_settlePending (s : RunState A Unit) (t : MarketTick) :
    Later s (r.settlePending s t) := by
  unfold settlePending
  split
  · next i ts _ =>
      obtain ⟨hfirst, hinitial, hfiled⟩ := later_settle (r := r) s i t
      exact ⟨hfirst, hinitial, hfiled⟩
  · exact Later.refl s

/-- All of a tick but the opening. -/
theorem later_onTick (s : RunState A Unit) (t : MarketTick) :
    Later (opened s t) (r.onTick s t) := by
  refine (later_settlePending (r := r) (opened s t) t).trans ?_
  unfold onTick
  dsimp only
  generalize r.settlePending (opened s t) t = s₂
  split
  · refine Later.trans ?_ (later_log _ t.ts t.price .hold)
    exact ⟨rfl, rfl, [], by simp, by simp⟩
  · refine Later.trans ?_ (later_dispose _ _ t)
    exact ⟨rfl, rfl, [], by simp, by simp⟩

theorem later_loop (ticks : List MarketTick) :
    ∀ {s : RunState A Unit}, s.first = false → Later s (r.loop s ticks) := by
  induction ticks with
  | nil => exact fun {s} _ => Later.refl s
  | cons t ts ih =>
      intro s hfirst
      have htick := later_onTick (r := r) s t
      have hopened : opened s t = s := by
        unfold opened
        simp [hfirst]
      rw [hopened] at htick
      exact htick.trans (ih (htick.first.trans hfirst))

/-- The wallet at the end of a run of one coin, at the price of the last tick: the initial equity
of the report, what the price did to the positions, less what the fills of the report cost, and
what they forgave, which is no more than the tolerance of the two balances of each. -/
theorem profit_attributed (hx : r.executor = x.toExecutor) {s : RunState A Unit}
    (hfirst : s.first = true) (hfills : s.report.fills = []) (hs : s.settled = [])
    (t : MarketTick) (rest : List MarketTick)
    (hticks : ∀ u ∈ t :: rest, u.symbol = r.symbol ∧ 0 < u.price) :
    let report := r.run s (t :: rest)
    let settled := (r.loop s (t :: rest)).settled
    report.fills = settled.map Settlement.fill ∧
    (r.loop s (t :: rest)).wallet.equity
        ((t :: rest).getLast (List.cons_ne_nil t rest)).prices =
      report.initialEquity + r.marketPnl t.price s (t :: rest) -
        (settled.map Settlement.cost).sum + (settled.map Settlement.forgiven).sum ∧
    ∀ σ ∈ settled, 0 ≤ σ.forgiven ∧ σ.forgiven ≤ eps * (1 + σ.mark) := by
  intro report settled
  have hopened : (opened s t).first = false ∧ (opened s t).report.fills = [] ∧
      (opened s t).settled = [] ∧
      (opened s t).report.initialEquity = r.worth s t.price := by
    unfold opened
    rw [if_pos hfirst]
    exact ⟨rfl, hfills, hs, worth_eq s (hticks t List.mem_cons_self).1⟩
  obtain ⟨hclosed, hnone, hnew, hinitial⟩ := hopened
  have htick := later_onTick (r := r) s t
  have hlater := htick.trans (later_loop (r := r) rest (htick.first.trans hclosed))
  obtain ⟨new, hsettled, hreport⟩ := hlater.filed
  rw [hnew, List.nil_append] at hsettled
  rw [hnone, List.nil_append] at hreport
  have hloop : settled = new := hsettled
  refine ⟨?_, ?_, ?_⟩
  · rw [hloop]
    exact hreport
  · have hworth := (accounts hx).worth_foldl s t.price (t :: rest) fun u hu => (hticks u hu).1
    have hlast := hticks _ (List.getLast_mem (List.cons_ne_nil t rest))
    have hstart : report.initialEquity = r.worth s t.price := hlater.initial.trans hinitial
    have hbooked : bookedSum (r.loop s (t :: rest)) =
        (settled.map Settlement.forgiven).sum - (settled.map Settlement.cost).sum :=
      Settlement.sum_booked settled
    have hzero : bookedSum s = 0 := by simp [bookedSum, hs]
    rw [lastPrice_eq _ _ (List.cons_ne_nil t rest)] at hworth
    rw [worth_eq _ hlast.1, hstart]
    have hdrift : r.worth (r.loop s (t :: rest)) _ = _ := hworth
    rw [hdrift, marketPnl]
    have hsum : bookedSum (List.foldl r.onTick s (t :: rest)) = _ := hbooked
    rw [hsum, hzero]
    ring
  · have hstart : At (Simulated x) s := by
      show ∀ σ ∈ s.settled, _
      rw [hs]
      exact fun σ hσ => absurd hσ List.not_mem_nil
    have hall := Kept.loop (fun u hu => simulated_kept hx (hticks u hu).2) hstart
    intro σ hσ
    obtain ⟨hsim, hmark⟩ := hall σ hσ
    exact hsim.forgiven_le hmark

/-- Five units gain one each; the sixth costs a fee and half a tenth over the tick's price. -/
theorem profit_attributed_two :
    ((aRunner buyOne 1).loop aState twoTicks).wallet.equity (MarketTick.prices ⟨"BTC", 101, 1⟩) =
      1500 + 5 - (10105 / 100000 + 505 / 10000) := by
  have hpositive : ∀ u ∈ twoTicks, u.symbol = "BTC" ∧ 0 < u.price := by decide +kernel
  obtain ⟨-, hequity, -⟩ := profit_attributed (r := aRunner buyOne 1) (x := {}) rfl
    (s := aState) rfl rfl rfl ⟨"BTC", 100, 0⟩ [⟨"BTC", 101, 1⟩] hpositive
  have hparts : ((aRunner buyOne 1).run aState twoTicks).initialEquity = 1500 ∧
      (aRunner buyOne 1).marketPnl 100 aState twoTicks = 5 ∧
      (((aRunner buyOne 1).loop aState twoTicks).settled.map Settlement.cost).sum =
        10105 / 100000 + 505 / 10000 ∧
      (((aRunner buyOne 1).loop aState twoTicks).settled.map Settlement.forgiven).sum = 0 := by
    decide +kernel
  obtain ⟨hinitial, hmarket, hcost, hforgiven⟩ := hparts
  refine hequity.trans ?_
  rw [← add_zero (1500 + 5 - (10105 / 100000 + 505 / 10000) : ℚ), ← hcost, ← hforgiven,
    ← hmarket, ← hinitial]
  rfl

end Runner

end TreasuryForge
