/-
# `Capital.Venues` — the widest spread, and how much of the time it is on

`venue_spread.py` and `opportunity_duty_cycle.py` over exact fractions, and the two scripts between
which they stand: `log_multivenue_spread.py` appends the widest spread of each tick to a ledger,
and the board of `shadow_status.py` reads the duty cycle off that.

Every venue answers or does not, at every tick.  `duty_of_log` says what the board shows of any
such history, and that it shows no less of a history in which more venues answered.
-/
import TreasuryForge.Base.Decimal
import TreasuryForge.Base.Dict
import TreasuryForge.Base.Streak
import TreasuryForge.Shadow.Journaled
import Mathlib.Data.String.Basic
import Mathlib.Tactic.Linarith

namespace TreasuryForge

namespace Capital

open JsonText Lines Shadow

/-! ## Spreads -/

structure VenueSpread where
  shortVenue : String
  longVenue : String
  spreadApr : ℚ
  deriving DecidableEq, Repr

/-- A venue and its funding. -/
abbrev Funded := String × ℚ

structure SpreadMatrix where
  fundingApr : List Funded
  pairwise : List VenueSpread
  missing : List String

namespace SpreadMatrix

def widest (m : SpreadMatrix) : Option VenueSpread := m.pairwise.head?

def widestApr (m : SpreadMatrix) : ℚ := (m.widest.map VenueSpread.spreadApr).getD 0

end SpreadMatrix

/-- `combinations(xs, 2)` -/
def combinations {α : Type} : List α → List (α × α)
  | [] => []
  | x :: xs => xs.map (x, ·) ++ combinations xs

/-- The venue that funds higher is shorted. -/
def spreadOf (pair : Funded × Funded) : VenueSpread :=
  let (a, b) := pair
  let (hi, lo) := if b.2 ≤ a.2 then (a, b) else (b, a)
  { shortVenue := hi.1, longVenue := lo.1, spreadApr := |a.2 - b.2| }

/-- The sort key, the widest first. -/
def VenueSpread.Before (s t : VenueSpread) : Prop := t.spreadApr ≤ s.spreadApr

instance : DecidableRel VenueSpread.Before := fun _ _ => inferInstanceAs (Decidable (_ ≤ _))

instance : Std.Total VenueSpread.Before := ⟨fun _ _ => le_total _ _⟩

instance : IsTrans VenueSpread VenueSpread.Before := ⟨fun _ _ _ hab hbc => le_trans hbc hab⟩

/-- Venues and their funding, `none` where one cannot be reached. -/
abbrev Readings := Dict String (Option ℚ)

def reachable (readings : Readings) : List Funded :=
  readings.items.filterMap fun r => r.2.map (r.1, ·)

def missing (readings : Readings) : List String :=
  (readings.items.filter fun r => r.2.isNone).map Prod.fst

def pairwiseSpreads (readings : Readings) : SpreadMatrix where
  fundingApr := reachable readings
  pairwise :=
    ((combinations ((reachable readings).insertionSort fun a b => a.1 ≤ b.1)).map
      spreadOf).insertionSort VenueSpread.Before
  missing := (missing readings).insertionSort (· ≤ ·)

/-! ## The duty cycle -/

structure DutyCycle where
  n : ℕ
  nOn : ℕ
  breakevenApr : ℚ
  meanSpreadWhenOn : ℚ
  maxConsecutiveOn : ℕ
  deriving DecidableEq, Repr

def DutyCycle.fraction (d : DutyCycle) : ℚ := if d.n = 0 then 0 else d.nOn / d.n

def opportunityDutyCycle (spreadAprs : List ℚ) (breakevenApr : ℚ) : DutyCycle :=
  let on := spreadAprs.filter (breakevenApr ≤ ·)
  { n := spreadAprs.length, nOn := on.length, breakevenApr
    meanSpreadWhenOn := if on = [] then 0 else on.sum / on.length
    maxConsecutiveOn := Streak.longest (breakevenApr ≤ ·) spreadAprs }

/-! ## The log and the board -/

/-- One tick of the logger. -/
structure Tick where
  ts : ℤ
  readings : Readings

section Scripts

variable (fl : Floats ℚ)

/-- What `log_multivenue_spread.py` appends. -/
def Tick.event (t : Tick) : List (String × Val ℚ) :=
  let m := pairwiseSpreads t.readings
  [("kind", .str (Str.of "multivenue")), ("ts", .int t.ts), ("widest_apr", .float m.widestApr),
    ("short", .str (Str.of ((m.widest.map VenueSpread.shortVenue).getD ""))),
    ("long", .str (Str.of ((m.widest.map VenueSpread.longVenue).getD ""))),
    ("n_reachable", .int m.fundingApr.length),
    ("missing", .list (m.missing.map fun v => .str (Str.of v))),
    ("funding", .dict (fields (m.fundingApr.map fun r => (r.1, .float (Decimal.quantize r.2 6)))))]

def logTick (file : List Char) (t : Tick) : List Char :=
  Journal.appendEvent fl file (fields t.event)

/-- What `_spread_aprs` takes of one event, if it is one of its kind; fails where it raises. -/
def widestOf : Val ℚ → Option (Option ℚ)
  | .dict ev =>
      if isKind ev "multivenue" then (((get? ev "widest_apr").bind Val.toFloat).map some)
      else some none
  | _ => none

/-- `_spread_aprs` -/
def spreadAprs (file : List Char) : Option (List ℚ) :=
  ((Journal.readLedger fl file).mapM widestOf).map (List.filterMap id)

/-- What `_duty_board` shows of one coin. -/
def dutyBoard (floor : ℚ) (file : List Char) : Option DutyCycle :=
  (spreadAprs fl file).map (opportunityDutyCycle · floor)

end Scripts

/-! ## The widest pair -/

/-- The venue answered with this funding. -/
def Answers (readings : Readings) (venue : String) (funding : ℚ) : Prop :=
  readings.get? venue = some (some funding)

/-- Two venues that answered are so far apart. -/
def Apart (x : ℚ) (readings : Readings) : Prop :=
  ∃ a b f g, Answers readings a f ∧ Answers readings b g ∧ x ≤ f - g

theorem mem_reachable {readings : Readings} {venue : String} {funding : ℚ} :
    (venue, funding) ∈ reachable readings ↔ Answers readings venue funding := by
  rw [Answers, Dict.get?_eq_some, reachable, List.mem_filterMap]
  constructor
  · rintro ⟨⟨v, f⟩, hmem, hpair⟩
    obtain ⟨g, rfl, hg⟩ := Option.map_eq_some_iff.mp hpair
    cases hg
    exact hmem
  · intro hmem
    exact ⟨_, hmem, rfl⟩

theorem mem_combinations {α : Type} {a b : α} {xs : List α} (h : (a, b) ∈ combinations xs) :
    a ∈ xs ∧ b ∈ xs := by
  induction xs with
  | nil => simp [combinations] at h
  | cons x xs ih =>
      rw [combinations, List.mem_append, List.mem_map] at h
      rcases h with ⟨y, hy, hpair⟩ | hrest
      · cases hpair
        exact ⟨List.mem_cons_self, List.mem_cons_of_mem _ hy⟩
      · obtain ⟨ha, hb⟩ := ih hrest
        exact ⟨List.mem_cons_of_mem _ ha, List.mem_cons_of_mem _ hb⟩

/-- Two different items are a pair, one way or the other. -/
theorem combinations_complete {α : Type} {a b : α} {xs : List α} (ha : a ∈ xs) (hb : b ∈ xs)
    (hne : a ≠ b) : (a, b) ∈ combinations xs ∨ (b, a) ∈ combinations xs := by
  induction xs with
  | nil => simp at ha
  | cons x xs ih =>
      simp only [combinations, List.mem_append, List.mem_map, Prod.mk.injEq]
      rcases List.mem_cons.mp ha with rfl | ha'
      · rcases List.mem_cons.mp hb with rfl | hb'
        · exact absurd rfl hne
        · exact Or.inl (Or.inl ⟨b, hb', rfl, rfl⟩)
      · rcases List.mem_cons.mp hb with rfl | hb'
        · exact Or.inr (Or.inl ⟨a, ha', rfl, rfl⟩)
        · rcases ih ha' hb' with hab | hba
          · exact Or.inl (Or.inr hab)
          · exact Or.inr (Or.inr hba)

/-- No pair is wider than the widest. -/
theorem le_widestApr {readings : Readings} {s : VenueSpread}
    (h : s ∈ (pairwiseSpreads readings).pairwise) :
    s.spreadApr ≤ (pairwiseSpreads readings).widestApr := by
  have hsorted : (pairwiseSpreads readings).pairwise.Pairwise VenueSpread.Before :=
    List.pairwise_insertionSort _ _
  rw [SpreadMatrix.widestApr, SpreadMatrix.widest]
  cases hpairs : (pairwiseSpreads readings).pairwise with
  | nil =>
      rw [hpairs] at h
      simp at h
  | cons t ts =>
      rw [hpairs] at h hsorted
      show s.spreadApr ≤ t.spreadApr
      rcases List.mem_cons.mp h with rfl | hlater
      · exact le_rfl
      · exact (List.pairwise_cons.mp hsorted).1 s hlater

theorem mem_pairwise {readings : Readings} {s : VenueSpread} :
    s ∈ (pairwiseSpreads readings).pairwise ↔ ∃ a b, (a, b) ∈ combinations
      ((reachable readings).insertionSort fun a b => a.1 ≤ b.1) ∧ spreadOf (a, b) = s := by
  rw [pairwiseSpreads, List.mem_insertionSort, List.mem_map, Prod.exists]

/-- The widest spread reaches a positive height exactly where two venues do. -/
theorem le_widestApr_iff {readings : Readings} {x : ℚ} (hx : 0 < x) :
    x ≤ (pairwiseSpreads readings).widestApr ↔ Apart x readings := by
  constructor
  · intro hle
    rw [SpreadMatrix.widestApr, SpreadMatrix.widest] at hle
    cases hhead : (pairwiseSpreads readings).pairwise.head? with
    | none =>
        rw [hhead] at hle
        exact absurd hle (not_le.mpr hx)
    | some s =>
        rw [hhead] at hle
        obtain ⟨⟨a, f⟩, ⟨b, g⟩, hpair, rfl⟩ :=
          mem_pairwise.mp (List.mem_of_mem_head? (Option.mem_def.mpr hhead))
        have hwide : x ≤ |f - g| := hle
        obtain ⟨ha, hb⟩ := mem_combinations hpair
        rw [List.mem_insertionSort, mem_reachable] at ha hb
        rcases le_total g f with hfg | hgf
        · rw [abs_of_nonneg (sub_nonneg.mpr hfg)] at hwide
          exact ⟨a, b, f, g, ha, hb, hwide⟩
        · rw [abs_of_nonpos (sub_nonpos.mpr hgf), neg_sub] at hwide
          exact ⟨b, a, g, f, hb, ha, hwide⟩
  · rintro ⟨a, b, f, g, ha, hb, hwide⟩
    have hne : (a, f) ≠ (b, g) := by
      intro hsame
      cases hsame
      rw [sub_self] at hwide
      exact absurd hwide (not_le.mpr hx)
    rw [← mem_reachable, ← List.mem_insertionSort (fun a b : Funded => a.1 ≤ b.1)] at ha hb
    refine hwide.trans ((le_abs_self _).trans ?_)
    rcases combinations_complete ha hb hne with hpair | hpair
    · exact le_widestApr (mem_pairwise.mpr ⟨_, _, hpair, rfl⟩)
    · rw [abs_sub_comm]
      exact le_widestApr (mem_pairwise.mpr ⟨_, _, hpair, rfl⟩)

/-- Whoever answered before answers the same. -/
def MoreAnswer (readings readings' : Readings) : Prop :=
  ∀ venue funding, Answers readings venue funding → Answers readings' venue funding

theorem Apart.more {x : ℚ} {readings readings' : Readings} (h : Apart x readings)
    (hmore : MoreAnswer readings readings') : Apart x readings' := by
  obtain ⟨a, b, f, g, ha, hb, hwide⟩ := h
  exact ⟨a, b, f, g, hmore a f ha, hmore b g hb, hwide⟩

/-! ## The ledger -/

section Ledger

variable {fl : Floats ℚ}

theorem Tick.event_names (t : Tick) : (t.event.map Prod.fst).Nodup := by
  show ["kind", "ts", "widest_apr", "short", "long", "n_reachable", "missing", "funding"].Nodup
  decide

theorem Tick.event_encodable (t : Tick) : ∀ m ∈ t.event, m.2.encodable fl = true := by
  intro m hm
  simp only [Tick.event, List.mem_cons, List.not_mem_nil, or_false] at hm
  rcases hm with rfl | rfl | rfl | rfl | rfl | rfl | rfl | rfl
  · exact (plain_text _).encodable
  · exact (plain_int _).encodable
  · exact (plain_float _).encodable
  · exact (plain_text _).encodable
  · exact (plain_text _).encodable
  · exact (plain_int _).encodable
  · refine (plain_list ?_).encodable
    intro v hv
    obtain ⟨name, -, rfl⟩ := List.mem_map.mp hv
    exact plain_text _
  · refine encodable_fields ?_
    intro m hm
    obtain ⟨r, -, rfl⟩ := List.mem_map.mp hm
    exact (plain_float _).encodable

/-- The ledger is ended lines, from which these spreads are read. -/
def Logged (fl : Floats ℚ) (file : List Char) (spreads : List ℚ) : Prop :=
  Closed file ∧ spreadAprs fl file = some spreads

theorem Logged.tick {file : List Char} {spreads : List ℚ} (h : Logged fl file spreads) (t : Tick) :
    Logged fl (logTick fl file t) (spreads ++ [(pairwiseSpreads t.readings).widestApr]) := by
  obtain ⟨hclosed, hspreads⟩ := h
  obtain ⟨ev, hget, hclosed', hread⟩ := read_appended t.event_names t.event_encodable hclosed
  refine ⟨hclosed', ?_⟩
  have hkind : get? ev "kind" = some (.str (Str.of "multivenue")) := by
    rw [hget]
    exact congrArg some (plain_text _).kept
  have hwidest : get? ev "widest_apr" =
      some (.float (pairwiseSpreads t.readings).widestApr) := by
    rw [hget]
    exact congrArg some (plain_float _).kept
  have hrow : widestOf (.dict ev) = some (some (pairwiseSpreads t.readings).widestApr) := by
    simp [widestOf, isKind, hkind, hwidest, Val.toFloat]
  obtain ⟨rows, hrows, hreduce⟩ := Option.map_eq_some_iff.mp hspreads
  have hadd : (Journal.readLedger fl file ++ [Val.dict ev]).mapM widestOf =
      some (rows ++ [some (pairwiseSpreads t.readings).widestApr]) := by
    simp [List.mapM_append, hrows, hrow]
  rw [spreadAprs, logTick, hread, hadd, Option.map_some, List.filterMap_append, hreduce]
  rfl

theorem logged_ticks (ticks : List Tick) : ∀ {file : List Char} {spreads : List ℚ},
    Logged fl file spreads → Logged fl (ticks.foldl (logTick fl) file)
      (spreads ++ ticks.map fun t => (pairwiseSpreads t.readings).widestApr) := by
  induction ticks with
  | nil =>
      intro file spreads h
      simpa using h
  | cons t ts ih =>
      intro file spreads h
      have hrest := ih (h.tick t)
      rw [List.append_assoc] at hrest
      exact hrest

end Ledger

/-! ## The duty cycle of a history -/

section Duty

variable {fl : Floats ℚ} {floor : ℚ} {ticks ticks' : List Tick}

/-- Two venues were at least the floor apart. -/
def OnAt (floor : ℚ) (t : Tick) : Prop := Apart floor t.readings

/-- It was on for so many ticks in a row. -/
def OnFor (floor : ℚ) (k : ℕ) (ticks : List Tick) : Prop :=
  ∃ block, block <:+: ticks ∧ block.length = k ∧ ∀ t ∈ block, OnAt floor t

/-- A history of as many ticks, at each of which at least the same venues answered. -/
def MoreHistory : List Tick → List Tick → Prop :=
  List.Forall₂ fun t t' => MoreAnswer t.readings t'.readings

theorem MoreHistory.split {before behind : List Tick} (h : MoreHistory (before ++ behind) ticks') :
    ∃ before' behind', ticks' = before' ++ behind' ∧ MoreHistory before before' ∧
      MoreHistory behind behind' := by
  induction before generalizing ticks' with
  | nil => exact ⟨[], ticks', rfl, .nil, h⟩
  | cons t ts ih =>
      cases h with
      | cons hmore hrest =>
          obtain ⟨before', behind', rfl, hbefore, hbehind⟩ := ih hrest
          exact ⟨_ :: before', behind', rfl, .cons hmore hbefore, hbehind⟩

theorem MoreHistory.on (h : MoreHistory ticks ticks') (hall : ∀ t ∈ ticks, OnAt floor t) :
    ∀ t ∈ ticks', OnAt floor t := by
  induction h with
  | nil => exact fun t ht => absurd ht List.not_mem_nil
  | cons hmore _ ih =>
      intro t ht
      rcases List.mem_cons.mp ht with rfl | ht
      · exact (hall _ List.mem_cons_self).more hmore
      · exact ih (fun u hu => hall u (List.mem_cons_of_mem _ hu)) t ht

theorem OnFor.more {k : ℕ} (h : OnFor floor k ticks) (hmore : MoreHistory ticks ticks') :
    OnFor floor k ticks' := by
  obtain ⟨block, ⟨before, behind, rfl⟩, hlength, hall⟩ := h
  obtain ⟨front', behind', rfl, hfront, -⟩ := hmore.split
  obtain ⟨before', block', rfl, -, hblock⟩ := hfront.split
  exact ⟨block', ⟨before', behind', rfl⟩, hblock.length_eq.symm.trans hlength, hblock.on hall⟩

open Classical in
/-- How many ticks it was on. -/
noncomputable def onCount (floor : ℚ) (ticks : List Tick) : ℕ :=
  ticks.countP fun t => decide (OnAt floor t)

variable (floor) in
open Classical in
theorem onCount_more (h : MoreHistory ticks ticks') :
    onCount floor ticks ≤ onCount floor ticks' := by
  induction h with
  | nil => exact le_rfl
  | @cons t t' ts ts' hmore _ ih =>
      simp only [onCount, List.countP_cons] at ih ⊢
      refine Nat.add_le_add ih ?_
      split
      · next hon =>
          have hbefore : OnAt floor t := of_decide_eq_true hon
          have hafter : OnAt floor t' := hbefore.more hmore
          rw [if_pos (decide_eq_true hafter)]
      · exact Nat.zero_le _

/-- What the board counts of a history. -/
theorem duty_counts (hfloor : 0 < floor) (ticks : List Tick) :
    let d := opportunityDutyCycle (ticks.map fun t => (pairwiseSpreads t.readings).widestApr) floor
    d.n = ticks.length ∧ d.nOn = onCount floor ticks ∧
      ∀ k, k ≤ d.maxConsecutiveOn ↔ OnFor floor k ticks := by
  have hon : ∀ t : Tick, (floor ≤ (pairwiseSpreads t.readings).widestApr) ↔ OnAt floor t :=
    fun t => le_widestApr_iff hfloor
  refine ⟨List.length_map _, ?_, ?_⟩
  · simp only [opportunityDutyCycle]
    rw [← List.countP_eq_length_filter, List.countP_map, onCount]
    refine List.countP_congr fun t _ => ?_
    simp [hon t]
  · intro k
    simp only [opportunityDutyCycle]
    rw [Streak.le_longest_iff]
    constructor
    · rintro ⟨block, ⟨before, behind, hcut⟩, hlength, hall⟩
      obtain ⟨front, behind', hticks, hfront, -⟩ := List.map_eq_append_iff.mp hcut.symm
      obtain ⟨before', block', hfronts, -, hblock⟩ := List.map_eq_append_iff.mp hfront
      refine ⟨block', ⟨before', behind', by rw [hticks, hfronts]⟩, ?_, ?_⟩
      · rw [← hlength, ← hblock, List.length_map]
      · intro t ht
        have hwide := hall _ (hblock ▸ List.mem_map_of_mem ht)
        exact (hon t).mp (of_decide_eq_true hwide)
    · rintro ⟨block, hinfix, hlength, hall⟩
      refine ⟨_, hinfix.map _, (List.length_map _).trans hlength, ?_⟩
      intro x hx
      obtain ⟨t, ht, rfl⟩ := List.mem_map.mp hx
      exact decide_eq_true ((hon t).mpr (hall t ht))

/-- What the status board reads off the ledger of any history of ticks, at a positive floor: in how
many of them two venues were so far apart, and for how many of them in a row.  A history in which
more venues answered never shows less of either. -/
theorem duty_of_log (fl : Floats ℚ) (hfloor : 0 < floor) (hmore : MoreHistory ticks ticks') :
    ∃ d d', dutyBoard fl floor (ticks.foldl (logTick fl) []) = some d ∧
      dutyBoard fl floor (ticks'.foldl (logTick fl) []) = some d' ∧
      d.n = ticks.length ∧ d.nOn = onCount floor ticks ∧
      (∀ k, k ≤ d.maxConsecutiveOn ↔ OnFor floor k ticks) ∧
      d'.n = d.n ∧ d.nOn ≤ d'.nOn ∧ d.fraction ≤ d'.fraction ∧
      d.maxConsecutiveOn ≤ d'.maxConsecutiveOn := by
  have hempty : Logged fl [] [] := ⟨Or.inl rfl, rfl⟩
  have hboard : ∀ ts : List Tick, dutyBoard fl floor (ts.foldl (logTick fl) []) =
      some (opportunityDutyCycle
        (ts.map fun t => (pairwiseSpreads t.readings).widestApr) floor) := by
    intro ts
    rw [dutyBoard, (logged_ticks ts hempty).2]
    rfl
  obtain ⟨hn, hnOn, hstreak⟩ := duty_counts hfloor ticks
  obtain ⟨hn', hnOn', hstreak'⟩ := duty_counts hfloor ticks'
  have hsame := hn'.trans (hmore.length_eq.symm.trans hn.symm)
  have hcount := hnOn ▸ hnOn' ▸ onCount_more floor hmore
  refine ⟨_, _, hboard ticks, hboard ticks', hn, hnOn, hstreak, hsame, hcount, ?_, ?_⟩
  · simp only [DutyCycle.fraction, hsame]
    split
    · exact le_rfl
    · exact div_le_div_of_nonneg_right (by exact_mod_cast hcount) (Nat.cast_nonneg _)
  · exact (hstreak' _).mpr (((hstreak _).mp le_rfl).more hmore)

/-! ### A third venue -/

def twoVenues : Readings := (Dict.empty.set "HL" (some (10 / 100))).set "OKX" (some (12 / 100))

def threeVenues : Readings := twoVenues.set "GATE" (some (40 / 100))

/-- The third venue answers at the second tick. -/
theorem duty_of_third_venue : ∃ d d' : DutyCycle,
    dutyBoard .exact (20 / 100) ([⟨0, twoVenues⟩, ⟨300, twoVenues⟩].foldl (logTick .exact) []) =
      some d ∧
    dutyBoard .exact (20 / 100) ([⟨0, twoVenues⟩, ⟨300, threeVenues⟩].foldl (logTick .exact) []) =
      some d' ∧ d.n = 2 ∧ d.nOn ≤ d'.nOn := by
  have hmore : MoreAnswer twoVenues threeVenues := by
    intro venue funding h
    have hne : venue ≠ "GATE" := by
      rintro rfl
      have hnone : twoVenues.get? "GATE" = none := by decide
      rw [Answers, hnone] at h
      cases h
    rw [Answers, threeVenues, Dict.get?_set_of_ne _ _ hne]
    exact h
  have hfloor : (0 : ℚ) < 20 / 100 := by norm_num
  obtain ⟨d, d', hd, hd', hn, -, -, -, hcount, -⟩ := duty_of_log .exact hfloor
    (.cons (fun _ _ h => h) (.cons hmore .nil) :
      MoreHistory [⟨0, twoVenues⟩, ⟨300, twoVenues⟩] [⟨0, twoVenues⟩, ⟨300, threeVenues⟩])
  exact ⟨d, d', hd, hd', hn, hcount⟩

end Duty

end Capital

end TreasuryForge
