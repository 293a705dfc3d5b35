/-
# `Base.Loop` — loops that may raise, one item at a time

A loop over a list whose body may raise.  `after` is its state when so many items are done:
`after_succ` is the body run once more, `after_keeps` the induction over a run that did not
raise, and `after_congr` the induction over two runs of two bodies on lists that agree so far.

`slice` is a part of a list with bounds that may count from the end, and `range` a run of
integers that ends before its second bound.
-/
import Mathlib.Algebra.Order.Ring.Int
import Mathlib.Data.List.Nodup
import Mathlib.Tactic.Common

namespace Loop

variable {E S S' A A' : Type}

theorem bind_eq_ok {B : Type} {e : Except E A} {f : A → Except E B} {b : B} :
    e >>= f = .ok b ↔ ∃ a, e = .ok a ∧ f a = .ok b := by
  cases e with
  | error e =>
      constructor
      · intro h
        cases h
      · rintro ⟨a, h, -⟩
        cases h
  | ok a =>
      constructor
      · intro h
        exact ⟨a, rfl, h⟩
      · rintro ⟨a', h, hf⟩
        cases h
        exact hf

theorem exists_of_toBool {e : Except E A} (h : e.toBool = true) : ∃ a, e = .ok a := by
  cases e with
  | error e => cases h
  | ok a => exact ⟨a, rfl⟩

theorem exists_of_any {e : Except E A} {P : A → Prop} [DecidablePred P]
    (h : e.toOption.any (fun a => decide (P a)) = true) : ∃ a, e = .ok a ∧ P a := by
  cases e with
  | error e => cases h
  | ok a => exact ⟨a, rfl, of_decide_eq_true h⟩

/-- The state after the first `k` items. -/
def after (f : S → A → Except E S) (s : S) (as : List A) (k : ℕ) : Except E S :=
  (as.take k).foldlM f s

section After
variable {f : S → A → Except E S} {s : S} {as : List A}

theorem after_length : after f s as as.length = as.foldlM f s := by
  rw [after, List.take_length]

theorem after_succ {k : ℕ} {a : A} (h : as[k]? = some a) :
    after f s as (k + 1) = after f s as k >>= fun s' => f s' a := by
  rw [after, List.take_add_one, h, Option.toList_some, List.foldlM_append, after]
  exact bind_congr fun s' => bind_pure (f s' a)

/-- A loop that got past an item did the item. -/
theorem after_succ_ok {k : ℕ} {a : A} {r : S} (h : as[k]? = some a)
    (hr : after f s as (k + 1) = .ok r) : ∃ s', after f s as k = .ok s' ∧ f s' a = .ok r := by
  rw [after_succ h] at hr
  exact bind_eq_ok.mp hr

/-- A loop that did not raise had not raised before, and goes on from there. -/
theorem exists_after {r : S} (h : as.foldlM f s = .ok r) (k : ℕ) :
    ∃ s', after f s as k = .ok s' ∧ (as.drop k).foldlM f s' = .ok r := by
  rw [← List.take_append_drop k as, List.foldlM_append] at h
  exact bind_eq_ok.mp h

theorem exists_after_of_le {n k : ℕ} {r : S} (h : after f s as n = .ok r) (hk : k ≤ n) :
    ∃ s', after f s as k = .ok s' := by
  obtain ⟨s', hs', -⟩ := exists_after h k
  rw [after, List.take_take, min_eq_left hk] at hs'
  exact ⟨s', hs'⟩

/-- What the body keeps, counting the items, holds as far as the loop gets. -/
theorem after_keeps {P : ℕ → S → Prop} (h0 : P 0 s)
    (hstep : ∀ k a s₁ s₂, as[k]? = some a → P k s₁ → f s₁ a = .ok s₂ → P (k + 1) s₂) :
    ∀ k ≤ as.length, ∀ r, after f s as k = .ok r → P k r := by
  intro k
  induction k with
  | zero =>
      intro _ r hr
      obtain rfl := Except.ok.inj hr
      exact h0
  | succ k ih =>
      intro hk r hr
      have hget : as[k]? = some as[k] := List.getElem?_eq_getElem hk
      obtain ⟨s', hs', hf⟩ := after_succ_ok hget hr
      exact hstep k _ s' r hget (ih (Nat.le_of_succ_le hk) s' hs') hf

theorem foldlM_keeps {P : ℕ → S → Prop} {r : S} (h : as.foldlM f s = .ok r) (h0 : P 0 s)
    (hstep : ∀ k a s₁ s₂, as[k]? = some a → P k s₁ → f s₁ a = .ok s₂ → P (k + 1) s₂) :
    P as.length r := by
  rw [← after_length] at h
  exact after_keeps h0 hstep as.length le_rfl r h

end After

/-- Two steps that look the same, and what follows on each. -/
theorem bind_map_congr {A A' B B' V W : Type} {e : Except E A} {e' : Except E A'} {view : A → V}
    {view' : A' → V} {f : A → Except E B} {g : A' → Except E B'} {w : B → W} {w' : B' → W}
    (h : e.map view = e'.map view')
    (hf : ∀ a a', view a = view' a' → (f a).map w = (g a').map w') :
    (e >>= f).map w = (e' >>= g).map w' := by
  cases e with
  | error x =>
      cases e' with
      | error x' =>
          cases h
          rfl
      | ok a' => cases h
  | ok a =>
      cases e' with
      | error x' => cases h
      | ok a' => exact hf a a' (Except.ok.inj h)

theorem map_bind_congr {B B' W : Type} {e : Except E A} {f : A → Except E B}
    {g : A → Except E B'} {w : B → W} {w' : B' → W} (h : ∀ a, (f a).map w = (g a).map w') :
    (e >>= f).map w = (e >>= g).map w' := by
  cases e with
  | error x => rfl
  | ok a => exact h a

/-- Two loops whose bodies do the same, up to `view`, on the items so far. -/
theorem after_congr {V : Type} {f : S → A → Except E S} {g : S' → A' → Except E S'} {s : S}
    {s' : S'} {as : List A} {bs : List A'} {view : S → V} {view' : S' → V}
    (h0 : view s = view' s') {k : ℕ} (hk : k ≤ as.length) (hk' : k ≤ bs.length)
    (hstep : ∀ j < k, ∀ a b, as[j]? = some a → bs[j]? = some b → ∀ s₁ s₂, view s₁ = view' s₂ →
      (f s₁ a).map view = (g s₂ b).map view') :
    (after f s as k).map view = (after g s' bs k).map view' := by
  induction k with
  | zero => exact congrArg Except.ok h0
  | succ k ih =>
      have ha : as[k]? = some as[k] := List.getElem?_eq_getElem hk
      have hb : bs[k]? = some bs[k] := List.getElem?_eq_getElem hk'
      have hsofar := ih (Nat.le_of_succ_le hk) (Nat.le_of_succ_le hk') fun j hj =>
        hstep j (Nat.lt_succ_of_lt hj)
      rw [after_succ ha, after_succ hb]
      exact bind_map_congr hsofar (hstep k (Nat.lt_succ_self k) _ _ ha hb)

/-! ## Parts of a list -/

/-- `enumerate(as)` -/
theorem getElem?_enumerate {as : List A} {k : ℕ} (h : k < as.length) :
    as.zipIdx[k]? = some (as[k], k) := by
  rw [List.getElem?_zipIdx, List.getElem?_eq_getElem h, Option.map_some, zero_add]

/-- Lists that agree so far have the same items so far. -/
theorem getElem?_congr {xs ys : List A} {t k : ℕ} (h : xs.take t = ys.take t) (hk : k < t) :
    xs[k]? = ys[k]? := by
  rw [← List.getElem?_take_of_lt hk, h, List.getElem?_take_of_lt hk]

theorem getD_congr {xs ys : List A} {t k : ℕ} (h : xs.take t = ys.take t) (hk : k < t) (d : A) :
    xs.getD k d = ys.getD k d := by
  rw [List.getD_eq_getElem?_getD, List.getD_eq_getElem?_getD, getElem?_congr h hk]

/-- A bound that may count from the end, within a list of length `n`. -/
def bound (n : ℕ) (i : ℤ) : ℕ := if i < 0 then (i + n).toNat else min i.toNat n

/-- `xs[start:stop]` -/
def slice (xs : List A) (start stop : ℤ) : List A :=
  (xs.take (bound xs.length stop)).drop (bound xs.length start)

theorem slice_of_nonneg {xs : List A} {start stop : ℤ} (hstart : 0 ≤ start) (hstop : 0 ≤ stop) :
    slice xs start stop = (xs.take stop.toNat).drop start.toNat := by
  rw [slice, bound, bound, if_neg (not_lt.mpr hstart), if_neg (not_lt.mpr hstop),
    ← List.take_eq_take_min]
  rcases le_total start.toNat xs.length with h | h
  · rw [min_eq_left h]
  · rw [min_eq_right h, List.drop_eq_nil_of_le (List.length_take_le' _ _),
      List.drop_eq_nil_of_le ((List.length_take_le' _ _).trans h)]

/-- What lies before the `k`-th item is the same in lists that agree so far. -/
theorem slice_congr {xs ys : List A} {k : ℕ} (h : xs.take k = ys.take k) {start stop : ℤ}
    (hstart : 0 ≤ start) (hstop : 0 ≤ stop) (hk : stop ≤ k) :
    slice xs start stop = slice ys start stop := by
  have hle : stop.toNat ≤ k := Int.toNat_le.mpr hk
  rw [slice_of_nonneg hstart hstop, slice_of_nonneg hstart hstop, ← min_eq_left hle,
    ← List.take_take, ← List.take_take, h]

/-- `range(lo, hi)` -/
def range (lo hi : ℤ) : List ℤ := (List.range (hi - lo).toNat).map fun k : ℕ => lo + k

theorem range_getElem? {lo hi : ℤ} {k : ℕ} (h : k < (hi - lo).toNat) :
    (range lo hi)[k]? = some (lo + k) := by
  rw [range, List.getElem?_map, List.getElem?_range h]
  rfl

@[simp] theorem length_range (lo hi : ℤ) : (range lo hi).length = (hi - lo).toNat := by
  rw [range, List.length_map, List.length_range]

@[simp] theorem mem_range {lo hi i : ℤ} : i ∈ range lo hi ↔ lo ≤ i ∧ i < hi := by
  rw [range, List.mem_map]
  constructor
  · rintro ⟨j, hj, rfl⟩
    have hj := List.mem_range.mp hj
    omega
  · rintro ⟨hlo, hhi⟩
    exact ⟨(i - lo).toNat, List.mem_range.mpr (by omega), by omega⟩

theorem nodup_range (lo hi : ℤ) : (range lo hi).Nodup :=
  List.Nodup.map (fun _ _ h => Int.ofNat.inj (add_left_cancel h)) List.nodup_range

/-- A range is what comes before any of its points, and what comes from there on. -/
theorem range_append {lo mid hi : ℤ} (hlo : lo ≤ mid) (hhi : mid ≤ hi) :
    range lo mid ++ range mid hi = range lo hi := by
  have hlen : (hi - lo).toNat = (mid - lo).toNat + (hi - mid).toNat := by omega
  have hshift : ∀ j : ℕ, lo + ((mid - lo).toNat + j : ℕ) = mid + j := by omega
  rw [range, range, range, hlen, List.range_add, List.map_append, List.map_map]
  exact congrArg _ (List.map_congr_left fun j _ => (hshift j).symm)

end Loop
