/-
# `Shadow.Gate` — the hourly script and its cost gate

`scripts/run_shadow.py`, one coin: each invocation opens the book from its ledger, asks the
screener where the book is flat and funding is at the entry rate or above, and observes.  So the
screener is not asked where funding has come back below the entry rate, and an episode that it
vetoed there is entered.

`carry_log_iff` says of every run which action is taken when, from the funding rates and the
earlier actions alone.
-/
import TreasuryForge.Base.Since
import TreasuryForge.Shadow.Book
import TreasuryForge.Shadow.Carry
import TreasuryForge.Shadow.Screener

namespace TreasuryForge

namespace Shadow

open JsonText Replay

/-- What the venue says at one invocation. -/
structure Quote where
  funding : ℚ
  spread : ℚ
  vol : ℚ
  ts : ℤ

/-- What the script is started with. -/
structure CarryScript where
  coin : String := "ETH"
  params : FundingCarryParams
  screen : ScreenParams
  minAge : ℤ := 24

namespace CarryScript

variable (m : Maths ℚ) (erf : ℚ → ℚ) (fl : Floats ℚ) (g : CarryScript)

/-- The screener's opinion of entering now. -/
def opportunity (q : Quote) : CarryOpportunity :=
  screenCoin m erf g.screen
    { coin := g.coin, funding := q.funding, spread := q.spread, vol := q.vol }

/-- What the book is given to observe. -/
def observation (book : ShadowBook) (q : Quote) : FundingObservation where
  fundingRate := q.funding
  ts := q.ts
  allowEntry :=
    if book.signal.inPosition = false ∧ g.params.enterRate ≤ q.funding then
      0 < (g.opportunity m erf q).netEdge
    else true

/-- The book that the script opens. -/
def journaled : Journaled ShadowBook FundingObservation Action :=
  ShadowBook.journaled g.params g.minAge

/-- `main`: a restart, then an observation. -/
def program : Program (ShadowBook × List Char) Quote Action where
  step σ q := (g.journaled.program fl).step σ (g.observation m erf σ.1 q)
  restart := (g.journaled.program fl).restart

theorem restartable : (g.program m erf fl).Restartable (g.journaled.Synced fl) where
  step h q := h.step (ShadowBook.faithful fl g.params g.minAge) (g.observation m erf _ q)
  restart h :=
    (Journaled.restartable (ShadowBook.faithful fl g.params g.minAge)).restart h

/-! ## The history -/

/-- A quote and the action that was taken on it. -/
abbrev Entry := Quote × Action

/-- Funding is not below the exit rate. -/
def Stays (q : Quote) : Prop := g.params.exitRate ≤ q.funding

/-- Funding reached the entry rate at least `n` invocations before the last one, and has not been
below the exit rate from then on. -/
def Episode (n : ℕ) (quotes : List Quote) : Prop :=
  Since (fun q => g.params.enterRate ≤ q.funding) g.Stays n quotes

/-- A position is open after this history: it was entered, and funding has not been below the exit
rate from then on. -/
def Open (log : List Entry) : Prop := Since (fun e => e.2 = .enter) (fun e => g.Stays e.1) 0 log

/-- How many invocations an episode must be old, beside the one it began with. -/
def patience : ℕ := (max g.minAge 1 - 1).toNat

/-- What the signal knows of the history. -/
structure Knows (s : FundingCarrySignal) (log : List Entry) : Prop where
  params : s.p = g.params
  minAge : s.minAge = g.minAge
  nonneg : 0 ≤ s.age
  age : ∀ n : ℕ, (n : ℤ) + 1 ≤ s.age ↔ g.Episode n (log.map Prod.fst)
  inPosition : s.inPosition = true ↔ g.Open log
  /-- a position is open in an episode only -/
  inside : s.inPosition = true → 0 < s.age

variable {m erf fl g} {s : FundingCarrySignal} {log : List Entry} {q : Quote}

theorem knows_nil : g.Knows { p := g.params, minAge := g.minAge } [] where
  params := rfl
  minAge := rfl
  nonneg := le_rfl
  age n := iff_of_false (by simp only; omega) (Since.nil n)
  inPosition := iff_of_false (by simp) (Since.nil 0)
  inside h := by simp at h

/-- One rate more. -/
theorem Knows.advance (h : g.Knows s log) (n : ℕ) :
    (n : ℤ) + 1 ≤ (s.advanceAge q.funding).age ↔ g.Episode n (log.map Prod.fst ++ [q]) := by
  have hparams := h.params
  have hnonneg := h.nonneg
  have hyst := g.params.hysteresis
  have hbefore := h.age
  unfold FundingCarrySignal.advanceAge
  rw [hparams]
  cases n with
  | zero =>
      have hzero := hbefore 0
      rw [Episode, Since.concat, ← Episode, ← hzero]
      simp only [Stays]
      split
      · next hage =>
          split
          · next henter => simp [henter]
          · next hlow => simp [hage, hlow]
      · next hage =>
          split
          · next hexit =>
              have hlow : ¬ g.params.enterRate ≤ q.funding := by
                intro hle
                linarith
              simp [hlow, not_le.mpr hexit]
          · next hstay =>
              have hpos : 0 < s.age := by omega
              have hstays := not_lt.mp hstay
              refine iff_of_true ?_ (Or.inr ⟨hstays, ?_⟩)
              · simp only
                omega
              · omega
  | succ n =>
      have hprev := hbefore n
      rw [Episode, Since.concat_succ, ← Episode, ← hprev]
      simp only [Stays]
      push_cast
      split
      · next hage =>
          split
          · refine iff_of_false ?_ ?_
            · simp only
              omega
            · rintro ⟨-, hle⟩
              omega
          · refine iff_of_false ?_ ?_
            · omega
            · rintro ⟨-, hle⟩
              omega
      · next hage =>
          split
          · next hexit =>
              refine iff_of_false ?_ ?_
              · simp only
                omega
              · rintro ⟨hle, -⟩
                linarith
          · next hstay =>
              have hstays := not_lt.mp hstay
              simp only [hstays, true_and]
              omega

/-- Nobody asks, or the screener agrees. -/
def Clears (m : Maths ℚ) (erf : ℚ → ℚ) (g : CarryScript) (q : Quote) : Prop :=
  q.funding < g.params.enterRate ∨ 0 < (g.opportunity m erf q).netEdge

/-- The action on this quote, after this history. -/
structure Taken (m : Maths ℚ) (erf : ℚ → ℚ) (g : CarryScript) (log : List Entry) (q : Quote)
    (a : Action) : Prop where
  enter : a = .enter ↔
    ¬ g.Open log ∧ g.Episode g.patience (log.map Prod.fst ++ [q]) ∧ g.Clears m erf q
  hold : a = .hold ↔ g.Open log ∧ g.Stays q
  exit : a = .exit ↔ g.Open log ∧ ¬ g.Stays q

theorem patience_age (s : ℤ) : max g.minAge 1 ≤ s ↔ (g.patience : ℤ) + 1 ≤ s := by
  have hpatience : (g.patience : ℤ) = max g.minAge 1 - 1 :=
    Int.toNat_of_nonneg (by omega)
  omega

theorem open_concat {a : Action} :
    g.Open (log ++ [(q, a)]) ↔ a = .enter ∨ g.Stays q ∧ g.Open log := Since.concat

variable (m erf q) in
/-- In a position: HOLD, or EXIT below the exit rate. -/
theorem Knows.decide_in (h : g.Knows s log) (hin : s.inPosition = true) :
    let d := s.decide q.funding
    d.1 ≠ .enter ∧ g.Taken m erf log q d.1 ∧ g.Knows d.2 (log ++ [(q, d.1)]) := by
  have hage := h.inside hin
  have hopen := h.inPosition.mp hin
  have hadvance := fun n => h.advance (q := q) n
  intro d
  by_cases hexit : q.funding < s.p.exitRate
  · have hd : d = (.exit, { s with age := 0, inPosition := false }) :=
      FundingCarrySignal.decide_exit hin hage.ne' hexit
    have hleaves : ¬ g.Stays q := by
      rw [Stays, ← h.params]
      exact not_le.mpr hexit
    have hage' : s.advanceAge q.funding = { s with age := 0 } := by
      rw [FundingCarrySignal.advanceAge, if_neg hage.ne', if_pos hexit]
    rw [hage'] at hadvance
    rw [hd]
    refine ⟨by simp, ⟨?_, ?_, ?_⟩, ⟨h.params, h.minAge, le_rfl, ?_, ?_, ?_⟩⟩
    · simp [hopen]
    · simp [hleaves]
    · simp [hopen, hleaves]
    · intro n
      rw [List.map_append]
      exact hadvance n
    · simp [open_concat, hleaves]
    · simp
  · have hd : d = (.hold, { s with age := s.age + 1 }) :=
      FundingCarrySignal.decide_hold hin hage hexit
    have hstays : g.Stays q := by
      rw [Stays, ← h.params]
      exact not_lt.mp hexit
    have hage' : s.advanceAge q.funding = { s with age := s.age + 1 } := by
      rw [FundingCarrySignal.advanceAge, if_neg hage.ne', if_neg hexit]
    rw [hage'] at hadvance
    rw [hd]
    refine ⟨by simp, ⟨?_, ?_, ?_⟩, ⟨h.params, h.minAge, ?_, ?_, ?_, ?_⟩⟩
    · simp [hopen]
    · simp [hopen, hstays]
    · simp [hstays]
    · simp only
      omega
    · intro n
      rw [List.map_append]
      exact hadvance n
    · simp [open_concat, hin, hopen, hstays]
    · intro _
      simp only
      omega

/-- Outside a position, with the age of the episode advanced, entered or not. -/
theorem Knows.stays_out (h : g.Knows s log) (hout : s.inPosition = false) {a : Action}
    (ha : a ≠ .enter) :
    g.Knows { s.advanceAge q.funding with inPosition := false } (log ++ [(q, a)]) := by
  obtain ⟨hp, hmin⟩ := s.advanceAge_params q.funding
  have hclosed : ¬ g.Open log := by
    rw [← h.inPosition, hout]
    simp
  refine ⟨hp.trans h.params, hmin.trans h.minAge, FundingCarrySignal.advanceAge_nonneg h.nonneg,
    ?_, ?_, ?_⟩
  · intro n
    rw [List.map_append]
    exact h.advance n
  · simp [open_concat, ha, hclosed]
  · simp

/-- Outside a position: what the cost gate leaves of the decision. -/
theorem Knows.decide_out (h : g.Knows s log) (hout : s.inPosition = false) {allow : Bool}
    (hallow : allow = true ↔ g.Clears m erf q) :
    let d := costGate (fun s => { s with inPosition := false }) allow (s.decide q.funding)
    g.Taken m erf log q d.1 ∧ g.Knows d.2 (log ++ [(q, d.1)]) := by
  have hclosed : ¬ g.Open log := by
    rw [← h.inPosition, hout]
    simp
  have hripe : max s.minAge 1 ≤ (s.advanceAge q.funding).age ↔
      g.Episode g.patience (log.map Prod.fst ++ [q]) := by
    rw [h.minAge, patience_age]
    exact h.advance _
  have hflat : ¬ (g.Episode g.patience (log.map Prod.fst ++ [q]) ∧ g.Clears m erf q) →
      g.Taken m erf log q .flat := by
    intro hno
    refine ⟨?_, ?_, ?_⟩
    · simp [hclosed, hno]
    · simp [hclosed]
    · simp [hclosed]
  intro d
  by_cases hage : max s.minAge 1 ≤ (s.advanceAge q.funding).age
  · have hdecide : s.decide q.funding =
        (.enter, { s.advanceAge q.funding with inPosition := true }) := by
      rw [FundingCarrySignal.decide_out hout, if_pos hage]
    cases hgate : allow with
    | true =>
        have hclears := hallow.mp hgate
        have hd : d = (.enter, { s.advanceAge q.funding with inPosition := true }) := by
          simp only [d, hdecide, costGate, hgate]
          simp
        obtain ⟨hp, hmin⟩ := s.advanceAge_params q.funding
        rw [hd]
        refine ⟨⟨?_, ?_, ?_⟩, ⟨hp.trans h.params, hmin.trans h.minAge,
          FundingCarrySignal.advanceAge_nonneg h.nonneg, ?_, ?_, ?_⟩⟩
        · simp [hclosed, hripe.mp hage, hclears]
        · simp [hclosed]
        · simp [hclosed]
        · intro n
          rw [List.map_append]
          exact h.advance n
        · simp [open_concat]
        · intro _
          simp only
          omega
    | false =>
        have hvetoed : ¬ g.Clears m erf q := by
          rw [← hallow, hgate]
          simp
        have hd : d = (.flat, { s.advanceAge q.funding with inPosition := false }) := by
          simp only [d, hdecide, costGate, hgate]
          simp
        rw [hd]
        exact ⟨hflat fun hboth => hvetoed hboth.2, h.stays_out hout (by simp)⟩
  · have hkeep : (s.advanceAge q.funding).inPosition = false := by
      have hinside := s.decide_inside q.funding
      rw [FundingCarrySignal.decide_out hout, if_neg hage] at hinside
      exact hinside
    have hd : d = (.flat, { s.advanceAge q.funding with inPosition := false }) := by
      simp only [d, FundingCarrySignal.decide_out hout, if_neg hage, costGate]
      simp [← hkeep]
    rw [hd]
    exact ⟨hflat fun hboth => hage (hripe.mpr hboth.1), h.stays_out hout (by simp)⟩

variable (m erf q) in
/-- One invocation. -/
theorem Knows.step (h : g.Knows s log) {book : ShadowBook} (hbook : book.signal = s) :
    let d := book.gated (g.observation m erf book q)
    g.Taken m erf log q d.1 ∧ g.Knows d.2 (log ++ [(q, d.1)]) := by
  subst hbook
  intro d
  cases hin : book.signal.inPosition with
  | true =>
      obtain ⟨hne, htaken, hknows⟩ := h.decide_in m erf q hin
      have hd : d = book.signal.decide q.funding := if_neg fun hboth => hne hboth.1
      rw [hd]
      exact ⟨htaken, hknows⟩
  | false =>
      refine h.decide_out hin ?_
      simp only [observation, hin, Clears, true_and]
      split
      · next hle => simp [not_lt.mpr hle]
      · next hlt => simp [not_le.mp hlt]

/-! ## Runs -/

theorem observe_signal (book : ShadowBook) (o : FundingObservation) :
    (book.observe o).1 = (book.gated o).1 ∧ (book.observe o).2.signal = (book.gated o).2 :=
  ⟨rfl, ShadowBook.apply_keeps _ _ _ _⟩

variable (m erf fl) in
theorem steps_taken (qs : List Quote) : ∀ {σ : ShadowBook × List Char} {log : List Entry},
    g.Knows σ.1.signal log →
    ((g.program m erf fl).steps σ qs).1.length = qs.length ∧
    ∀ xs q a ys, qs.zip ((g.program m erf fl).steps σ qs).1 = xs ++ (q, a) :: ys →
      g.Taken m erf (log ++ xs) q a := by
  induction qs with
  | nil =>
      intro σ log _
      refine ⟨rfl, ?_⟩
      intro xs q a ys hcut
      simp at hcut
  | cons q qs ih =>
      intro σ log h
      obtain ⟨htaken, hknows⟩ := h.step m erf q rfl
      obtain ⟨haction, hsignal⟩ := observe_signal σ.1 (g.observation m erf σ.1 q)
      rw [← hsignal] at hknows
      obtain ⟨hlength, hrest⟩ := ih (σ := ((g.program m erf fl).step σ q).2) hknows
      refine ⟨congrArg (· + 1) hlength, ?_⟩
      intro xs q' a ys hcut
      cases xs with
      | nil =>
          obtain ⟨hhead, -⟩ := List.cons_eq_cons.mp hcut
          cases hhead
          rw [List.append_nil]
          exact htaken
      | cons e xs =>
          obtain ⟨hhead, htail⟩ := List.cons_eq_cons.mp hcut
          cases hhead
          have hlater := hrest xs q' a ys htail
          rw [List.append_assoc] at hlater
          exact hlater

/-- Over any number of invocations, opened from the ledger before each or at any points: no opening
fails, and each action is the one that the funding rates and the actions so far say.  ENTER is
taken outside a position, in an episode that is old enough, where the screener agrees or is not
asked, which is below the entry rate. -/
theorem carry_log_iff (es : List (Event Quote)) :
    ∃ actions σ, (g.program m erf fl).run (g.journaled.fresh, []) es = some (actions, σ) ∧
      actions.length = (inputs es).length ∧
      ∀ xs q a ys, (inputs es).zip actions = xs ++ (q, a) :: ys → g.Taken m erf xs q a := by
  have hrun := Program.run_transparent (restartable m erf fl g)
    (s := (g.journaled.fresh, [])) Journaled.synced_fresh es
  have hstart : g.Knows g.journaled.fresh.signal [] := knows_nil
  obtain ⟨hlength, htaken⟩ := steps_taken m erf fl (inputs es)
    (σ := (g.journaled.fresh, [])) hstart
  refine ⟨_, _, hrun, hlength, ?_⟩
  intro xs q a ys hcut
  have h := htaken xs q a ys hcut
  rwa [List.nil_append] at h

/-- Nobody is asked below the entry rate: an episode that was vetoed where it began is entered when
funding comes back. -/
example :
    let g : CarryScript :=
      { params := { enterRate := 1 / 100000, exitRate := 3 / 1000000, feePerLeg := 3 / 10000
                    hysteresis := by norm_num }
        screen := { holdHours := 40, legs := 2 }, minAge := 1 }
    ((g.program .decimal erfTable .exact).steps (g.journaled.fresh, [])
      [⟨1 / 100000, 1 / 1000, 1 / 1000, 0⟩, ⟨5 / 1000000, 1 / 1000, 1 / 1000, 3600⟩]).1 =
      [.flat, .enter] := by
  decide +kernel

end CarryScript

end Shadow

end TreasuryForge
