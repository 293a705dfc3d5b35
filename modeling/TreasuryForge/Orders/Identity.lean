/-
# `Orders.Identity` — what the id of a decision tells

`make_origin_id` joins strategy, symbol and step by colons, and `origin_to_cloid` of
`exchanges/hyperliquid/live_executor.py` hashes the id into the client order id.  The
step can be read back from the id; strategy and symbol only where the colon between
them is known, since both may hold colons of their own (`originId_eq_iff`).
-/
import TreasuryForge.Base.JsonValue
import TreasuryForge.Orders.Manager

namespace TreasuryForge.Orders

/-- What an order is the order of. -/
structure Decision where
  strategy : String
  step : ℤ
  symbol : String
  deriving DecidableEq, Repr

namespace Decision

def originId (d : Decision) : String := makeOriginId d.strategy d.step d.symbol

/-- The strategy of `e` is the strategy of `d` and what the symbol of `d` has before a
colon, and the symbol of `e` is what it has behind it. -/
def Straddles (d e : Decision) : Prop :=
  ∃ middle, e.strategy = d.strategy ++ ":" ++ middle ∧ d.symbol = middle ++ ":" ++ e.symbol

end Decision

/-- `origin_to_cloid`, with the hexadecimal SHA-256 of a text. -/
def originToCloid (sha256 : String → List Char) (originId : String) : List Char :=
  '0' :: 'x' :: (sha256 originId).take 32

/-! ## Where a joined text comes apart -/

/-- Behind the last separator the text is known. -/
theorem split_last {A : Type} {sep : A} {xs ys us vs : List A} (hu : sep ∉ us) (hv : sep ∉ vs)
    (h : xs ++ sep :: us = ys ++ sep :: vs) : xs = ys ∧ us = vs := by
  rcases List.append_eq_append_iff.mp h with ⟨d, hd, hrest⟩ | ⟨d, hd, hrest⟩
  · cases d with
    | nil => exact ⟨by rw [hd, List.append_nil], (List.cons.inj hrest).2⟩
    | cons c d =>
        rw [List.cons_append, List.cons.injEq] at hrest
        exact absurd (by rw [hrest.2]; simp) hu
  · cases d with
    | nil => exact ⟨by rw [hd, List.append_nil], (List.cons.inj hrest).2.symm⟩
    | cons c d =>
        rw [List.cons_append, List.cons.injEq] at hrest
        exact absurd (by rw [hrest.2]; simp) hv

/-- At some separator, two splits of a text are the same or one straddles the other. -/
theorem split_some {A : Type} {sep : A} {xs ys us vs : List A} :
    xs ++ sep :: us = ys ++ sep :: vs ↔ (xs = ys ∧ us = vs) ∨
      (∃ m, ys = xs ++ sep :: m ∧ us = m ++ sep :: vs) ∨
      (∃ m, xs = ys ++ sep :: m ∧ vs = m ++ sep :: us) := by
  constructor
  · intro h
    rcases List.append_eq_append_iff.mp h with ⟨d, hd, hrest⟩ | ⟨d, hd, hrest⟩
    · cases d with
      | nil => exact Or.inl ⟨by rw [hd, List.append_nil], (List.cons.inj hrest).2⟩
      | cons c d =>
          rw [List.cons_append, List.cons.injEq] at hrest
          exact Or.inr (Or.inl ⟨d, by rw [hd, hrest.1], hrest.2⟩)
    · cases d with
      | nil => exact Or.inl ⟨by rw [hd, List.append_nil], (List.cons.inj hrest).2.symm⟩
      | cons c d =>
          rw [List.cons_append, List.cons.injEq] at hrest
          exact Or.inr (Or.inr ⟨d, by rw [hd, hrest.1], hrest.2⟩)
  · rintro (⟨rfl, rfl⟩ | ⟨m, rfl, rfl⟩ | ⟨m, rfl, rfl⟩)
    · rfl
    · simp
    · simp

/-! ## The id -/

theorem toList_toString (n : ℤ) : (toString n).toList = JsonText.intText n := by
  cases n with
  | ofNat m =>
      rw [JsonText.intText, if_neg (by simp)]
      exact Nat.toList_repr
  | negSucc m =>
      rw [JsonText.intText, if_pos (Int.negSucc_lt_zero m)]
      change ("-" ++ Nat.repr (m + 1)).toList = _
      rw [String.toList_append, Nat.toList_repr]
      rfl

theorem colon_notMem_intText (n : ℤ) : ':' ∉ JsonText.intText n := by
  have hdigits := List.all_eq_true.mp (JsonText.digits_toDigits n.natAbs)
  intro hc
  have hmem : ':' ∈ '-' :: Nat.toDigits 10 n.natAbs := by
    rw [JsonText.intText] at hc
    split at hc
    · exact hc
    · exact List.mem_cons_of_mem _ hc
  cases hmem with
  | tail _ hmem => exact absurd (hdigits ':' hmem) (by decide)

theorem toList_originId (d : Decision) : d.originId.toList =
    (d.strategy.toList ++ ':' :: d.symbol.toList) ++ ':' :: JsonText.intText d.step := by
  rw [← toList_toString]
  change (d.strategy ++ ":" ++ d.symbol ++ ":" ++ toString d.step).toList = _
  simp

theorem straddles_iff (d e : Decision) : d.Straddles e ↔
    ∃ m, e.strategy.toList = d.strategy.toList ++ ':' :: m ∧
      d.symbol.toList = m ++ ':' :: e.symbol.toList := by
  constructor
  · rintro ⟨middle, hstrategy, hsymbol⟩
    refine ⟨middle.toList, ?_, ?_⟩
    · rw [hstrategy]
      simp
    · rw [hsymbol]
      simp
  · rintro ⟨m, hstrategy, hsymbol⟩
    refine ⟨String.ofList m, ?_, ?_⟩
    · rw [← String.toList_inj, hstrategy]
      simp
    · rw [← String.toList_inj, hsymbol]
      simp

/-- One id for two decisions: the same decision, or one that straddles the other. -/
theorem originId_eq_iff (d e : Decision) : d.originId = e.originId ↔
    d = e ∨ (d.step = e.step ∧ (d.Straddles e ∨ e.Straddles d)) := by
  rw [← String.toList_inj, toList_originId, toList_originId]
  constructor
  · intro h
    obtain ⟨hnames, hsteps⟩ :=
      split_last (colon_notMem_intText d.step) (colon_notMem_intText e.step) h
    have hstep : d.step = e.step := by
      rw [← JsonText.intOf_intText d.step, hsteps, JsonText.intOf_intText]
    rcases split_some.mp hnames with ⟨hstrategy, hsymbol⟩ | hde | hed
    · left
      cases d
      cases e
      rw [String.toList_inj] at hstrategy hsymbol
      cases hstep
      cases hstrategy
      cases hsymbol
      rfl
    · exact Or.inr ⟨hstep, Or.inl ((straddles_iff d e).mpr hde)⟩
    · exact Or.inr ⟨hstep, Or.inr ((straddles_iff e d).mpr hed)⟩
  · rintro (rfl | ⟨hstep, hde | hed⟩)
    · rfl
    · rw [hstep, split_some.mpr (Or.inr (Or.inl ((straddles_iff d e).mp hde)))]
    · rw [hstep, split_some.mpr (Or.inr (Or.inr ((straddles_iff e d).mp hed)))]

/-- A decision does not straddle itself: no strategy is longer than itself. -/
theorem not_straddles_self (d : Decision) : ¬ d.Straddles d := by
  intro h
  obtain ⟨m, hstrategy, _⟩ := (straddles_iff d d).mp h
  have hlen := congrArg List.length hstrategy
  rw [List.length_append, List.length_cons] at hlen
  omega

/-- The decisions of one strategy keep their ids apart, whatever their symbols hold. -/
theorem originId_inj_of_strategy {d e : Decision} (hs : d.strategy = e.strategy)
    (h : d.originId = e.originId) : d = e := by
  have hlonger : ∀ {a b : Decision}, a.strategy = b.strategy → ¬ a.Straddles b := by
    intro a b hab hstr
    obtain ⟨m, hstrategy, _⟩ := (straddles_iff a b).mp hstr
    have hlen := congrArg List.length hstrategy
    rw [hab, List.length_append, List.length_cons] at hlen
    omega
  rcases (originId_eq_iff d e).mp h with he | ⟨_, hde | hed⟩
  · exact he
  · exact absurd hde (hlonger hs)
  · exact absurd hed (hlonger hs.symm)

/-- Where the truncated hash tells the two ids apart, the ids and the client order ids
tell two decisions apart unless they are of one step and one straddles the other. -/
theorem order_ids_distinct_iff (sha256 : String → List Char) (d e : Decision)
    (hhash : (sha256 d.originId).take 32 = (sha256 e.originId).take 32 →
      d.originId = e.originId) :
    ((d.originId = e.originId → d = e) ↔
      ¬ (d.step = e.step ∧ (d.Straddles e ∨ e.Straddles d))) ∧
    ((originToCloid sha256 d.originId = originToCloid sha256 e.originId → d = e) ↔
      ¬ (d.step = e.step ∧ (d.Straddles e ∨ e.Straddles d))) := by
  have hcloid : originToCloid sha256 d.originId = originToCloid sha256 e.originId ↔
      d.originId = e.originId := by
    constructor
    · intro h
      exact hhash (List.cons.inj (List.cons.inj h).2).2
    · exact congrArg _
  rw [hcloid]
  have hids : (d.originId = e.originId → d = e) ↔
      ¬ (d.step = e.step ∧ (d.Straddles e ∨ e.Straddles d)) := by
    rw [originId_eq_iff]
    constructor
    · rintro hinj ⟨hstep, hstr⟩
      have heq := hinj (Or.inr ⟨hstep, hstr⟩)
      subst heq
      rcases hstr with hstr | hstr <;> exact not_straddles_self d hstr
    · rintro hno (he | hyes)
      · exact he
      · exact absurd hyes hno
  exact ⟨hids, hids⟩

/-- The digests of two ids. -/
def someDigests (id : String) : List Char :=
  if id = "carry:BTC:7" then
    "19cde7c24186a127aeb6cd090d110c276b7c3a8d74899c8e7abf0083229dd528".toList
  else "0fa8a21ddaff30182cf44f03874e15757d21cc9554aca5651aa8ca5ddf9049b2".toList

theorem order_ids_distinct_iff_two_coins :
    (((⟨"carry", 7, "BTC"⟩ : Decision).originId = (⟨"carry", 7, "ETH"⟩ : Decision).originId →
        (⟨"carry", 7, "BTC"⟩ : Decision) = ⟨"carry", 7, "ETH"⟩) ↔
      ¬ ((7 : ℤ) = 7 ∧ ((⟨"carry", 7, "BTC"⟩ : Decision).Straddles ⟨"carry", 7, "ETH"⟩ ∨
        (⟨"carry", 7, "ETH"⟩ : Decision).Straddles ⟨"carry", 7, "BTC"⟩))) ∧
    ((originToCloid someDigests (⟨"carry", 7, "BTC"⟩ : Decision).originId =
        originToCloid someDigests (⟨"carry", 7, "ETH"⟩ : Decision).originId →
        (⟨"carry", 7, "BTC"⟩ : Decision) = ⟨"carry", 7, "ETH"⟩) ↔
      ¬ ((7 : ℤ) = 7 ∧ ((⟨"carry", 7, "BTC"⟩ : Decision).Straddles ⟨"carry", 7, "ETH"⟩ ∨
        (⟨"carry", 7, "ETH"⟩ : Decision).Straddles ⟨"carry", 7, "BTC"⟩))) :=
  order_ids_distinct_iff someDigests ⟨"carry", 7, "BTC"⟩ ⟨"carry", 7, "ETH"⟩ (by decide)

/-- A strategy that names its venue, and a symbol that does. -/
theorem order_ids_collide :
    (⟨"carry", 7, "xyz:ETH"⟩ : Decision).originId = (⟨"carry:xyz", 7, "ETH"⟩ : Decision).originId ∧
      (⟨"carry", 7, "xyz:ETH"⟩ : Decision) ≠ ⟨"carry:xyz", 7, "ETH"⟩ ∧
      ∀ sha256 : String → List Char,
        originToCloid sha256 (⟨"carry", 7, "xyz:ETH"⟩ : Decision).originId =
          originToCloid sha256 (⟨"carry:xyz", 7, "ETH"⟩ : Decision).originId := by
  have hid : (⟨"carry", 7, "xyz:ETH"⟩ : Decision).originId =
      (⟨"carry:xyz", 7, "ETH"⟩ : Decision).originId := by
    decide
  exact ⟨hid, by decide, fun sha256 => congrArg (originToCloid sha256) hid⟩

end TreasuryForge.Orders
