/-
# `Risk.Stress` — what a worse edge does to the simulated risk of ruin

Two simulations on one stream of draws, the second with the edge shifted further down.  With no
tail shocks both walk the same paths, so they are compared path by path (`walk_shifted`), tally
by tally (`runPaths_shifted`) and at last result by result.  The counts by threshold fall with the
threshold as long as deeper ones are not listed more often (`monteCarloRuin_monotone_iff`).
-/
import TreasuryForge.Risk.Ruin

namespace TreasuryForge

namespace Risk

open Backtest Drawdown

/-- Both calls return, with results that are related, or both end in the same way. -/
def Alike {A B : Type} (R : A → B → Prop) : Except Stop A → Except Stop B → Prop
  | .ok a, .ok b => R a b
  | .error e, .error e' => e = e'
  | _, _ => False

theorem Alike.mono {A B : Type} {R S : A → B → Prop} (h : ∀ a b, R a b → S a b)
    {x : Except Stop A} {y : Except Stop B} (hxy : Alike R x y) : Alike S x y := by
  cases x with
  | error e =>
      cases y with
      | error e' => exact hxy
      | ok b => exact hxy
  | ok a =>
      cases y with
      | error e' => exact hxy
      | ok b => exact h a b hxy

/-- The same configuration with the edge shifted down by so much. -/
def RuinParams.shifted (c : RuinParams) (shift : ℚ) : RuinParams := { c with adverseShift := shift }

theorem factors_shifted {c : RuinParams} (hlev : 0 ≤ c.leverage) {shift : ℚ}
    (hshift : c.adverseShift ≤ shift) (path : List ℚ) :
    List.Forall₂ (· ≤ ·) ((c.shifted shift).factors path) (c.factors path) := by
  induction path with
  | nil => exact .nil
  | cons r path ih =>
      refine .cons ?_ ih
      have hr : r - shift ≤ r - c.adverseShift := sub_le_sub_left hshift r
      have hmul := mul_le_mul_of_nonneg_left hr hlev
      show 1 + c.leverage * (r - shift) ≤ 1 + c.leverage * (r - c.adverseShift)
      linarith

/-- A path is no better for a shift: it falls no less and is liquidated if it was. -/
theorem walk_shifted {rng : Rng} {c : RuinParams} (h : c.tailShockProb = 0)
    (hlev : 0 ≤ c.leverage) {shift : ℚ} (hshift : c.adverseShift ≤ shift) (path : List ℚ)
    (s : rng.State) :
    let p := (walk rng c {} path s).1
    let p' := (walk rng (c.shifted shift) {} path s).1
    p.mdd ≤ p'.mdd ∧ (p.liquidated = true → p'.liquidated = true) := by
  intro p p'
  have hle := factors_shifted hlev hshift path
  obtain ⟨-, hmdd, hliq⟩ := walk_eq h Path.Running.start path s
  obtain ⟨-, hmdd', hliq'⟩ := walk_eq (c := c.shifted shift) h Path.Running.start path s
  constructor
  · rw [hmdd, hmdd']
    exact max_le_max le_rfl (fall_le_fall (by norm_num) le_rfl hle)
  · intro hl
    rcases hliq.mp hl with hfalse | ⟨f, hf, hf0⟩
    · cases hfalse
    · obtain ⟨r, hr, rfl⟩ := List.mem_map.mp hf
      have hmul := mul_le_mul_of_nonneg_left (sub_le_sub_left hshift r) hlev
      refine hliq'.mpr (Or.inr ⟨1 + c.leverage * (r - shift), List.mem_map_of_mem hr, ?_⟩)
      linarith

/-- A path falls by no more than everything, and by everything when it is liquidated. -/
theorem walk_mdd {rng : Rng} {c : RuinParams} (h : c.tailShockProb = 0) (path : List ℚ)
    (s : rng.State) :
    (walk rng c {} path s).1.mdd ≤ 1 ∧
      ((walk rng c {} path s).1.liquidated = true → (walk rng c {} path s).1.mdd = 1) := by
  obtain ⟨-, hmdd, hliq⟩ := walk_eq h Path.Running.start path s
  have hle : (walk rng c {} path s).1.mdd ≤ 1 := by
    rw [hmdd]
    exact max_le zero_le_one (fall_le_one (by norm_num) _)
  refine ⟨hle, fun hl => hle.antisymm ?_⟩
  rcases hliq.mp hl with hfalse | ⟨f, hf, hf0⟩
  · cases hfalse
  · rw [hmdd]
    exact le_max_of_le_right (one_le_fall hf hf0)

/-! ## What a path adds -/

theorem getD_foldl_hits (mdd : ℚ) (thrs : List ℚ) (hits : Dict ℚ ℕ) (thr : ℚ) :
    (thrs.foldl (fun hits thr => if thr ≤ mdd then hits.set thr (hits.getD thr 0 + 1) else hits)
      hits).getD thr 0 = hits.getD thr 0 + if thr ≤ mdd then thrs.count thr else 0 := by
  induction thrs generalizing hits with
  | nil => simp
  | cons t thrs ih =>
      rw [List.foldl_cons, ih]
      by_cases ht : t = thr
      · subst ht
        rw [List.count_cons_self]
        by_cases hle : t ≤ mdd
        · rw [if_pos hle, if_pos hle, if_pos hle, Dict.getD_set, if_pos rfl]
          omega
        · rw [if_neg hle, if_neg hle, if_neg hle]
      · rw [List.count_cons_of_ne ht]
        by_cases hle : t ≤ mdd
        · rw [if_pos hle, Dict.getD_set, if_neg (Ne.symm ht)]
        · rw [if_neg hle]

/-- A threshold that is listed twice is hit twice. -/
theorem record_hits (c : RuinParams) (t : Tally) (p : Path) (thr : ℚ) :
    (t.record c p).thrHits.getD thr 0 =
      t.thrHits.getD thr 0 + if thr ≤ p.mdd then c.ddThresholds.count thr else 0 :=
  getD_foldl_hits p.mdd c.ddThresholds t.thrHits thr

theorem start_hits (c : RuinParams) (thr : ℚ) : (Tally.start c).thrHits.getD thr 0 = 0 := by
  rw [Tally.start, Dict.getD, Dict.tabulate, Dict.get?_foldl_tabulate]
  split
  · rfl
  · rfl

/-- No count of one tally is above the other's. -/
structure Tally.Le (t t' : Tally) : Prop where
  ruin : t.ruin ≤ t'.ruin
  liq : t.liq ≤ t'.liq
  dds : t.dds.sum ≤ t'.dds.sum
  hits : ∀ thr, t.thrHits.getD thr 0 ≤ t'.thrHits.getD thr 0

theorem Tally.Le.record {t t' : Tally} (h : t.Le t') {c : RuinParams} {p p' : Path}
    (hmdd : p.mdd ≤ p'.mdd) (hliq : p.liquidated = true → p'.liquidated = true) :
    (t.record c p).Le (t'.record c p') where
  ruin := by
    have hruin := h.ruin
    dsimp only [Tally.record]
    split
    · next hp =>
        rw [if_pos (hp.trans hmdd)]
        omega
    · split <;> omega
  liq := by
    have hle := h.liq
    dsimp only [Tally.record]
    split
    · next hp =>
        rw [if_pos (hliq hp)]
        omega
    · split <;> omega
  dds := by
    have hdds := h.dds
    rw [Tally.record, Tally.record, List.sum_append, List.sum_append, List.sum_singleton,
      List.sum_singleton]
    linarith
  hits thr := by
    have hhits := h.hits thr
    rw [record_hits, record_hits]
    by_cases hp : thr ≤ p.mdd
    · rw [if_pos hp, if_pos (hp.trans hmdd)]
      omega
    · rw [if_neg hp]
      omega

/-- The thresholds are counted no less often the lower they are. -/
def Falling (thrs : List ℚ) : Prop :=
  ∀ t₁ ∈ thrs, ∀ t₂ ∈ thrs, t₁ < t₂ → t₂ ≤ 1 → thrs.count t₂ ≤ thrs.count t₁

/-- What every tally keeps: who is liquidated is ruined, and lower thresholds are hit as often. -/
structure Tally.Sound (c : RuinParams) (t : Tally) : Prop where
  liq : c.ruinDrawdown ≤ 1 → t.liq ≤ t.ruin
  hits : Falling c.ddThresholds → ∀ t₁ ∈ c.ddThresholds, ∀ t₂ ∈ c.ddThresholds, t₁ < t₂ →
    t.thrHits.getD t₂ 0 ≤ t.thrHits.getD t₁ 0

theorem Tally.Sound.start (c : RuinParams) : (Tally.start c).Sound c where
  liq _ := le_rfl
  hits _ t₁ _ t₂ _ _ := by rw [start_hits, start_hits]

theorem Tally.Sound.record {c : RuinParams} {t : Tally} (h : t.Sound c) {p : Path}
    (hmdd : p.mdd ≤ 1) (hliq : p.liquidated = true → p.mdd = 1) : (t.record c p).Sound c where
  liq hle := by
    have hcount := h.liq hle
    dsimp only [Tally.record]
    split
    · next hl =>
        rw [if_pos (hle.trans_eq (hliq hl).symm)]
        omega
    · split <;> omega
  hits hfall t₁ ht₁ t₂ ht₂ hlt := by
    have hcount := h.hits hfall t₁ ht₁ t₂ ht₂ hlt
    rw [record_hits, record_hits]
    by_cases hp : t₂ ≤ p.mdd
    · have hmult := hfall t₁ ht₁ t₂ ht₂ hlt (hp.trans hmdd)
      rw [if_pos hp, if_pos (hlt.le.trans hp)]
      omega
    · rw [if_neg hp]
      omega

/-! ## The whole simulation -/

theorem runPaths_shifted {rng : Rng} {rets : List ℚ} {c : RuinParams} (h : c.tailShockProb = 0)
    (hlev : 0 ≤ c.leverage) {shift : ℚ} (hshift : c.adverseShift ≤ shift) (fuel k : ℕ)
    {t t' : Tally} (hle : t.Le t') (hsound : t.Sound c) (s : rng.State) :
    Alike (fun a b => a.Le b ∧ a.Sound c) (runPaths rng rets c fuel k t s)
      (runPaths rng rets (c.shifted shift) fuel k t' s) := by
  induction k generalizing t t' s with
  | zero => exact ⟨hle, hsound⟩
  | succ k ih =>
      rw [runPaths, runPaths]
      have hdraw : blockBootstrap rng rets ((c.shifted shift).steps rets)
          (c.shifted shift).blockLen fuel s =
          blockBootstrap rng rets (c.steps rets) c.blockLen fuel s := rfl
      rw [hdraw]
      cases hb : blockBootstrap rng rets (c.steps rets) c.blockLen fuel s with
      | error e => rfl
      | ok drawn =>
          obtain ⟨path, s₁⟩ := drawn
          have hstate : (walk rng c {} path s₁).2 = s₁ := (walk_eq h Path.Running.start path s₁).1
          have hstate' : (walk rng (c.shifted shift) {} path s₁).2 = s₁ :=
            (walk_eq (c := c.shifted shift) h Path.Running.start path s₁).1
          obtain ⟨hmdd, hliq⟩ := walk_shifted h hlev hshift path s₁
          obtain ⟨hone, hall⟩ := walk_mdd h path s₁
          have hnext := ih (hle.record (c := c) hmdd hliq) (hsound.record hone hall) s₁
          show Alike _ (runPaths rng rets c fuel k (t.record c (walk rng c {} path s₁).1)
              (walk rng c {} path s₁).2)
            (runPaths rng rets (c.shifted shift) fuel k
              (t'.record c (walk rng (c.shifted shift) {} path s₁).1)
              (walk rng (c.shifted shift) {} path s₁).2)
          rw [hstate, hstate']
          exact hnext

/-- Every reported risk of the first result is no larger than the second's. -/
structure NoRiskier (thrs : List ℚ) (a b : MonteCarloRuinResult) : Prop where
  pRuin : a.pRuin ≤ b.pRuin
  pLiquidation : a.pLiquidation ≤ b.pLiquidation
  expectedMaxDrawdown : a.expectedMaxDrawdown ≤ b.expectedMaxDrawdown
  thresholds : ∀ thr ∈ thrs, ∃ p q, a.ddThresholdProbs.get? thr = some p ∧
    b.ddThresholdProbs.get? thr = some q ∧ p ≤ q

/-- A deeper threshold is no likelier to be reached. -/
def Decreasing (thrs : List ℚ) (a : MonteCarloRuinResult) : Prop :=
  ∀ t₁ ∈ thrs, ∀ t₂ ∈ thrs, t₁ < t₂ → ∃ p₁ p₂, a.ddThresholdProbs.get? t₁ = some p₁ ∧
    a.ddThresholdProbs.get? t₂ = some p₂ ∧ p₂ ≤ p₁

/-- What the simulation with a shift is to the one with a worse shift. -/
structure Stressed (c : RuinParams) (a b : MonteCarloRuinResult) : Prop where
  noRiskier : NoRiskier c.ddThresholds a b
  liquidation : c.ruinDrawdown ≤ 1 → a.pLiquidation ≤ a.pRuin

theorem result_alike {c : RuinParams} {shift : ℚ} {t t' : Tally} (hle : t.Le t')
    (hsound : t.Sound c) :
    Alike (fun a b => Stressed c a b ∧ (Falling c.ddThresholds → Decreasing c.ddThresholds a))
      (t.result c) (t'.result (c.shifted shift)) := by
  have hpaths : (c.shifted shift).paths = c.paths := rfl
  have hthrs : (c.shifted shift).ddThresholds = c.ddThresholds := rfl
  rw [Tally.result, Tally.result, hpaths, hthrs]
  by_cases hzero : c.paths = 0
  · rw [if_pos hzero, if_pos hzero]
    rfl
  · by_cases hneg : c.paths < 0
    · rw [if_neg hzero, if_neg hzero, if_pos hneg, if_pos hneg]
      rfl
    · rw [if_neg hzero, if_neg hzero, if_neg hneg, if_neg hneg]
      have hpos : (0 : ℚ) ≤ c.paths := by exact_mod_cast not_lt.mp hneg
      have hdiv : ∀ {x y : ℕ}, x ≤ y → (x : ℚ) / c.paths ≤ y / c.paths := by
        intro x y hxy
        exact div_le_div_of_nonneg_right (by exact_mod_cast hxy) hpos
      refine ⟨⟨⟨hdiv hle.ruin, hdiv hle.liq, div_le_div_of_nonneg_right hle.dds hpos, ?_⟩, ?_⟩, ?_⟩
      · intro thr hthr
        exact ⟨_, _, Dict.get?_tabulate _ hthr, Dict.get?_tabulate _ hthr, hdiv (hle.hits thr)⟩
      · intro hruin
        exact hdiv (hsound.liq hruin)
      · intro hfall t₁ ht₁ t₂ ht₂ hlt
        exact ⟨_, _, Dict.get?_tabulate _ ht₁, Dict.get?_tabulate _ ht₂,
          hdiv (hsound.hits hfall t₁ ht₁ t₂ ht₂ hlt)⟩

theorem monteCarloRuin_shifted {rng : Rng} {rets : List ℚ} {c : RuinParams}
    (h : c.tailShockProb = 0) (hlev : 0 ≤ c.leverage) {shift : ℚ} (hshift : c.adverseShift ≤ shift)
    (fuel : ℕ) :
    Alike (fun a b => Stressed c a b ∧ (Falling c.ddThresholds → Decreasing c.ddThresholds a))
      (monteCarloRuin rng rets c fuel) (monteCarloRuin rng rets (c.shifted shift) fuel) := by
  have hrefl : (Tally.start c).Le (Tally.start c) := ⟨le_rfl, le_rfl, le_rfl, fun _ => le_rfl⟩
  have hruns : Alike (fun a b => a.Le b ∧ a.Sound c)
      (runPaths rng rets c fuel c.paths.toNat (Tally.start c) (rng.seed c.seed))
      (runPaths rng rets (c.shifted shift) fuel c.paths.toNat (Tally.start c) (rng.seed c.seed)) :=
    runPaths_shifted h hlev hshift fuel c.paths.toNat hrefl (Tally.Sound.start c)
      (rng.seed c.seed)
  have hstart : monteCarloRuin rng rets (c.shifted shift) fuel =
      (runPaths rng rets (c.shifted shift) fuel c.paths.toNat (Tally.start c)
        (rng.seed c.seed)).bind fun t => t.result (c.shifted shift) := rfl
  have hstart' : monteCarloRuin rng rets c fuel =
      (runPaths rng rets c fuel c.paths.toNat (Tally.start c) (rng.seed c.seed)).bind
        fun t => t.result c := rfl
  rw [hstart, hstart']
  revert hruns
  cases runPaths rng rets c fuel c.paths.toNat (Tally.start c) (rng.seed c.seed) with
  | error e =>
      cases runPaths rng rets (c.shifted shift) fuel c.paths.toNat (Tally.start c)
          (rng.seed c.seed) with
      | error e' => exact id
      | ok t' => exact False.elim
  | ok t =>
      cases runPaths rng rets (c.shifted shift) fuel c.paths.toNat (Tally.start c)
          (rng.seed c.seed) with
      | error e' => exact False.elim
      | ok t' => exact fun hrel => result_alike hrel.1 hrel.2

/-! ## Thresholds listed more than once -/

/-- One path of one step, which loses everything. -/
theorem monteCarloRuin_lostAll (thrs : List ℚ) :
    ∃ a, monteCarloRuin Rng.lowest [-1] { paths := 1, ddThresholds := thrs } 1 = .ok a ∧
      ∀ thr ∈ thrs, a.ddThresholdProbs.get? thr =
        some ((if thr ≤ 1 then thrs.count thr else 0 : ℕ) : ℚ) := by
  let c : RuinParams := { paths := 1, ddThresholds := thrs }
  let s : Rng.lowest.State := Rng.lowest.seed 0
  let p : Path := (walk Rng.lowest c {} [-1] s).1
  have hfactors : c.factors [-1] = [1 + 1 * (-1 - 0)] := rfl
  have hmdd : p.mdd = 1 := by
    have hwalk : p.mdd = max 0 (fall (1 / 1) (c.factors [-1])) :=
      (walk_eq rfl Path.Running.start [-1] s).2.1
    rw [hwalk, hfactors, fall_ruin _ _ (by norm_num)]
    norm_num
  have hboot : blockBootstrap Rng.lowest [-1] (c.steps [-1]) c.blockLen 1 s = .ok ([-1], s) := rfl
  have hrun : runPaths Rng.lowest [-1] c 1 (0 + 1) (.start c) s =
      .ok ((Tally.start c).record c p) := by
    rw [runPaths, hboot]
    rfl
  have hresult : monteCarloRuin Rng.lowest [-1] c 1 = ((Tally.start c).record c p).result c := by
    have hbind : monteCarloRuin Rng.lowest [-1] c 1 =
        (runPaths Rng.lowest [-1] c 1 (0 + 1) (.start c) s).bind fun t => t.result c := rfl
    rw [hbind, hrun]
    rfl
  refine ⟨_, hresult, ?_⟩
  intro thr hthr
  rw [Dict.get?_tabulate _ hthr, record_hits, start_hits, hmdd, zero_add]
  show some (_ / ((1 : ℤ) : ℚ)) = _
  rw [Int.cast_one, div_one]

/-- No risk falls with the shift, liquidation is ruin, and deeper thresholds are no likelier: so
it is exactly when no threshold is listed more often than a shallower one, of those up to one. -/
theorem monteCarloRuin_monotone_iff (thrs : List ℚ) :
    (∀ (rng : Rng) (rets : List ℚ) (c : RuinParams) (shift : ℚ) (fuel : ℕ), rets ≠ [] →
        0 ≤ c.leverage → c.tailShockProb = 0 → c.ddThresholds = thrs → c.adverseShift ≤ shift →
        Alike (fun a b => Stressed c a b ∧ Decreasing thrs a)
          (monteCarloRuin rng rets c fuel) (monteCarloRuin rng rets (c.shifted shift) fuel) ∧
        (1 ≤ c.blockLen → 0 < c.paths → c.steps rets ≤ fuel →
          ∃ a, monteCarloRuin rng rets c fuel = .ok a)) ↔
      Falling thrs := by
  constructor
  · intro h t₁ ht₁ t₂ ht₂ hlt hle
    obtain ⟨a, ha, hprobs⟩ := monteCarloRuin_lostAll thrs
    obtain ⟨hrel, -⟩ := h Rng.lowest [-1] { paths := 1, ddThresholds := thrs } 0 1
      (List.cons_ne_nil _ _) zero_le_one rfl rfl le_rfl
    have hsame : RuinParams.shifted { paths := 1, ddThresholds := thrs } 0 =
        { paths := 1, ddThresholds := thrs } := rfl
    rw [hsame, ha] at hrel
    obtain ⟨p₁, p₂, hp₁, hp₂, hp⟩ := hrel.2 t₁ ht₁ t₂ ht₂ hlt
    rw [hprobs t₁ ht₁, if_pos (hlt.le.trans hle)] at hp₁
    rw [hprobs t₂ ht₂, if_pos hle] at hp₂
    rw [← Option.some.inj hp₁, ← Option.some.inj hp₂] at hp
    exact_mod_cast hp
  · intro hfall rng rets c shift fuel hne hlev hshock hthrs hshift
    subst hthrs
    refine ⟨?_, fun hblock hpaths hfuel => monteCarloRuin_returns rng hne hblock hpaths hfuel⟩
    exact Alike.mono (fun a b h => ⟨h.1, h.2 hfall⟩)
      (monteCarloRuin_shifted hshock hlev hshift fuel)

/-- A threshold listed twice is reached with twice the probability. -/
theorem monteCarloRuin_listed_twice :
    ∃ a, monteCarloRuin Rng.lowest [-1] { paths := 1, ddThresholds := [1 / 5, 1 / 2, 1 / 2] } 1 =
        .ok a ∧
      a.ddThresholdProbs.get? (1 / 5) = some 1 ∧ a.ddThresholdProbs.get? (1 / 2) = some 2 := by
  obtain ⟨a, ha, hprobs⟩ := monteCarloRuin_lostAll [1 / 5, 1 / 2, 1 / 2]
  refine ⟨a, ha, ?_, ?_⟩
  · rw [hprobs (1 / 5) (by decide +kernel)]
    decide +kernel
  · rw [hprobs (1 / 2) (by decide +kernel)]
    decide +kernel

end Risk

end TreasuryForge
