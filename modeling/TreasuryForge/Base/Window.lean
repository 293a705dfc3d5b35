/-
# `Base.Window` — admissions checked against a trailing window

A log of weighted entries over a linearly ordered clock.  An entry is admitted by a
check at a time `e` that adds up what lies in `(e - W, ·]` and lets the entry in if
its weight still fits under a bound; the entry is then stamped with a time `s` not
before the check.  `Admitted.load_within` says that in every half-open window of
length `W`, wherever it starts, the weights then stay under the bound.

A check need not look at the log.  It may keep a queue, append to it what is
admitted, and drop from its left what has expired; `Covers` says that such a queue
weighs at least what the log has left, at every time from now on.  `Remains` is the
other half, of any queue: it holds every entry once that was appended and has not
expired.  Neither helps when the clock goes back: `lost` is what a queue is without,
and `load_upTo_le_trail` compares the two without an order on the times.

`Along` is the induction over a list of actions each of which meets a condition in
the state it finds.
-/
import Mathlib.Algebra.Order.BigOperators.Group.List
import Mathlib.Algebra.Order.Group.Nat
import Mathlib.Algebra.Order.Group.Unbundled.Basic
import Mathlib.Data.List.Basic
import Mathlib.Data.List.TakeWhile

namespace Window

/-- The weight of a log. -/
def load {T N : Type} [AddCommMonoid N] (l : List (T × N)) : N := (l.map Prod.snd).sum

theorem load_le_of_sublist {T N : Type} [AddCommMonoid N] [PartialOrder N] [IsOrderedAddMonoid N]
    {l l' : List (T × N)} (h : l.Sublist l') (hl : ∀ p ∈ l', 0 ≤ p.2) : load l ≤ load l' := by
  refine (h.map Prod.snd).sum_le_sum ?_
  intro n hn
  obtain ⟨p, hp, rfl⟩ := List.mem_map.mp hn
  exact hl p hp

theorem load_nonneg {T N : Type} [AddCommMonoid N] [PartialOrder N] [IsOrderedAddMonoid N]
    {l : List (T × N)} (h : ∀ p ∈ l, 0 ≤ p.2) : 0 ≤ load l :=
  List.sum_nonneg fun n hn => by
    obtain ⟨p, hp, rfl⟩ := List.mem_map.mp hn
    exact h p hp

section Log
variable {T N : Type} [AddCommGroup T] [LinearOrder T]

/-- The entries in `[a, a + W)`. -/
def within (W a : T) (l : List (T × N)) : List (T × N) :=
  l.filter fun p => a ≤ p.1 ∧ p.1 < a + W

/-- The entries after `e - W`. -/
def since (W e : T) (l : List (T × N)) : List (T × N) := l.filter fun p => e - W < p.1

/-- A window that contains a later time holds nothing that the check at an earlier
time does not see. -/
theorem within_sublist_since [IsOrderedAddMonoid T] {W e s a : T} {l : List (T × N)} (he : e ≤ s)
    (hs : s < a + W) : (within W a l).Sublist (since W e l) := by
  refine List.monotone_filter_right l ?_
  intro p hp
  simp only [decide_eq_true_eq] at hp ⊢
  calc e - W ≤ s - W := sub_le_sub_right he W
    _ < a := sub_lt_iff_lt_add.mpr hs
    _ ≤ p.1 := hp.1

variable [AddCommMonoid N] [PartialOrder N]

/-- A log whose entries were admitted under the bound `B`, one after the other. -/
inductive Admitted (W : T) (B : N) : List (T × N) → Prop
  | nil : Admitted W B []
  | snoc {l e s n} : Admitted W B l → (∀ p ∈ l, p.1 ≤ e) → e ≤ s → 0 ≤ n →
      load (since W e l) + n ≤ B → Admitted W B (l ++ [(s, n)])

variable {W e a : T} {B : N} {l : List (T × N)}

theorem Admitted.nonneg (h : Admitted W B l) : ∀ p ∈ l, 0 ≤ p.2 := by
  induction h with
  | nil => exact fun _ hp => absurd hp List.not_mem_nil
  | snoc _ _ _ hn _ ih =>
      intro p hp
      rcases List.mem_append.mp hp with hp | hp
      · exact ih p hp
      · rw [List.mem_singleton.mp hp]
        exact hn

/-- In a window with something in it, the weights stay under the bound. -/
theorem Admitted.load_within [IsOrderedAddMonoid T] [IsOrderedAddMonoid N] (h : Admitted W B l)
    (hne : within W a l ≠ []) : load (within W a l) ≤ B := by
  induction h with
  | nil => exact absurd rfl hne
  | @snoc l e s n hl hle hes hn hB ih =>
      have hsplit : within W a (l ++ [(s, n)]) = within W a l ++ within W a [(s, n)] :=
        List.filter_append _ _
      rw [hsplit] at hne ⊢
      by_cases hs : a ≤ s ∧ s < a + W
      · have hlast : within W a [(s, n)] = [(s, n)] := by simp [within, hs]
        rw [hlast]
        calc load (within W a l ++ [(s, n)]) = load (within W a l) + n := by simp [load]
          _ ≤ load (since W e l) + n := by
              refine add_le_add_left ?_ n
              exact load_le_of_sublist (within_sublist_since hes hs.2)
                fun p hp => hl.nonneg p (List.mem_of_mem_filter hp)
          _ ≤ B := hB
      · have hlast : within W a [(s, n)] = [] := by
          simp only [within, List.filter_cons, List.filter_nil, decide_eq_true_eq, if_neg hs]
        rw [hlast, List.append_nil] at hne ⊢
        exact ih hne

end Log

/-! ## Counting -/

/-- The log in which every entry weighs one. -/
def ones {T N : Type} (l : List (T × N)) : List (T × ℕ) := l.map fun p => (p.1, 1)

theorem load_ones {T N : Type} (l : List (T × N)) : load (ones l) = l.length := by
  simp [load, ones, Function.comp_def]

section Count
variable {T N : Type} [AddCommGroup T] [LinearOrder T]

theorem within_ones (W a : T) (l : List (T × N)) : within W a (ones l) = ones (within W a l) := by
  simp [within, ones, List.filter_map, Function.comp_def]

theorem since_ones (W e : T) (l : List (T × N)) : since W e (ones l) = ones (since W e l) := by
  simp [since, ones, List.filter_map, Function.comp_def]

/-- Entries that were each admitted with fewer than `B` in the trailing window number
at most `B` in every window. -/
theorem Admitted.length_within [IsOrderedAddMonoid T] {W a : T} {B : ℕ} {l : List (T × N)}
    (h : Admitted W B (ones l)) : (within W a l).length ≤ B := by
  rcases eq_or_ne (within W a l) [] with he | hne
  · rw [he]
    exact Nat.zero_le B
  · have hne' : within W a (ones l) ≠ [] := by
      rw [within_ones]
      simpa [ones] using hne
    have hle := h.load_within hne'
    rwa [within_ones, load_ones] at hle

theorem Admitted.ones_snoc {W e s : T} {B : ℕ} {l : List (T × N)} {n : N}
    (h : Admitted W B (ones l)) (hl : ∀ p ∈ l, p.1 ≤ e) (hs : e ≤ s)
    (hB : (since W e l).length < B) : Admitted W B (ones (l ++ [(s, n)])) := by
  have he : ones (l ++ [(s, n)]) = ones l ++ [(s, 1)] := by simp [ones]
  rw [he]
  refine h.snoc ?_ hs (Nat.zero_le 1) ?_
  · intro p hp
    obtain ⟨q, hq, rfl⟩ := List.mem_map.mp hp
    exact hl q hq
  · rw [since_ones, load_ones]
    exact hB

end Count

/-! ## A queue pruned from the left -/

section Queue
variable {T N : Type} [AddCommGroup T] [LinearOrder T]

/-- What pruning at `e` leaves of a queue: entries are dropped from the left while they
are at or before `e - W`. -/
def trail (W e : T) (dq : List (T × N)) : List (T × N) :=
  dq.dropWhile fun p => decide (p.1 ≤ e - W)

/-- Pruning earlier does not change what pruning later leaves. -/
theorem trail_trail [IsOrderedAddMonoid T] {W now e : T} (h : now ≤ e) (dq : List (T × N)) :
    trail W e (trail W now dq) = trail W e dq := by
  induction dq with
  | nil => rfl
  | cons p dq ih =>
      by_cases hp : p.1 ≤ now - W
      · have hp' : p.1 ≤ e - W := hp.trans (sub_le_sub_right h W)
        have hdrop : trail W now (p :: dq) = trail W now dq :=
          List.dropWhile_cons_of_pos (by simpa using hp)
        have hdrop' : trail W e (p :: dq) = trail W e dq :=
          List.dropWhile_cons_of_pos (by simpa using hp')
        rw [hdrop, hdrop', ih]
      · have hkeep : trail W now (p :: dq) = p :: dq :=
          List.dropWhile_cons_of_neg (by simpa using hp)
        rw [hkeep]

/-- An entry that has not expired stays at the end of the queue. -/
theorem trail_append_singleton {W e : T} {p : T × N} (h : e - W < p.1) (dq : List (T × N)) :
    trail W e (dq ++ [p]) = trail W e dq ++ [p] := by
  have hp : trail W e [p] = [p] := List.dropWhile_cons_of_neg (by simpa using h)
  have happ : trail W e (dq ++ [p]) =
      if (trail W e dq).isEmpty then trail W e [p] else trail W e dq ++ [p] :=
    List.dropWhile_append
  rw [happ, hp]
  split
  · next he => rw [List.isEmpty_iff.mp he, List.nil_append]
  · rfl

theorem mem_of_mem_trail {W e : T} {dq : List (T × N)} {p : T × N} (h : p ∈ trail W e dq) :
    p ∈ dq :=
  (List.dropWhile_sublist _).subset h

variable [AddCommMonoid N] [PartialOrder N]

/-- From `now` on, the pruned queue weighs at least what the log has after the cutoff. -/
def Covers (W now : T) (dq log : List (T × N)) : Prop :=
  ∀ e, now ≤ e → load (since W e log) ≤ load (trail W e dq)

variable {W now : T} {dq log : List (T × N)}

theorem Covers.mono {now' : T} (h : Covers W now dq log) (hn : now ≤ now') : Covers W now' dq log :=
  fun e he => h e (hn.trans he)

/-- Any queue without negative weights covers the empty log. -/
theorem covers_nil [IsOrderedAddMonoid N] (h : ∀ p ∈ dq, 0 ≤ p.2) : Covers W now dq [] :=
  fun _ _ => load_nonneg fun p hp => h p (mem_of_mem_trail hp)

/-- Pruning the queue now keeps the cover. -/
theorem Covers.trail [IsOrderedAddMonoid T] (h : Covers W now dq log) :
    Covers W now (trail W now dq) log := by
  intro e he
  rw [trail_trail he]
  exact h e he

/-- So does appending the same entry, stamped now, to both. -/
theorem Covers.push [IsOrderedAddMonoid N] (h : Covers W now dq log) (hlog : ∀ p ∈ log, p.1 ≤ now)
    (hdq : ∀ p ∈ dq, 0 ≤ p.2) {n : N} (hn : 0 ≤ n) :
    Covers W now (dq ++ [(now, n)]) (log ++ [(now, n)]) := by
  intro e he
  have hsplit : since W e (log ++ [(now, n)]) = since W e log ++ since W e [(now, n)] :=
    List.filter_append _ _
  by_cases hcut : e - W < now
  · have hlast : since W e [(now, n)] = [(now, n)] := by simp [since, hcut]
    rw [hsplit, hlast, trail_append_singleton hcut]
    calc load (since W e log ++ [(now, n)]) = load (since W e log) + n := by simp [load]
      _ ≤ load (Window.trail W e dq) + n := add_le_add_left (h e he) n
      _ = load (Window.trail W e dq ++ [(now, n)]) := by simp [load]
  · -- everything in the log is as old as the new entry, and has expired
    have hnone : since W e (log ++ [(now, n)]) = [] := by
      refine List.filter_eq_nil_iff.mpr ?_
      intro p hp
      have hle : p.1 ≤ now := by
        rcases List.mem_append.mp hp with hp | hp
        · exact hlog p hp
        · rw [List.mem_singleton.mp hp]
      simpa using hle.trans (not_lt.mp hcut)
    rw [hnone]
    refine load_nonneg ?_
    intro p hp
    rcases List.mem_append.mp (mem_of_mem_trail hp) with hp | hp
    · exact hdq p hp
    · rw [List.mem_singleton.mp hp]
      exact hn

/-- A weight that fits, at time `e`, under the bound with what the log has left. -/
structure Fits (W : T) (B : N) (e : T) (log : List (T × N)) (n : N) : Prop where
  past : ∀ p ∈ log, p.1 ≤ e
  nonneg : 0 ≤ n
  room : load (since W e log) + n ≤ B

/-- A log of admitted entries, and a queue that covers it from `now` on. -/
structure Tallied (W : T) (B : N) (now : T) (dq log : List (T × N)) : Prop where
  past : ∀ p ∈ log, p.1 ≤ now
  nonneg : ∀ p ∈ dq, 0 ≤ p.2
  covers : Covers W now dq log
  admitted : Admitted W B log

variable {B : N} {e : T} {n : N}

theorem tallied_nil [IsOrderedAddMonoid N] (h : ∀ p ∈ dq, 0 ≤ p.2) : Tallied W B now dq [] :=
  ⟨fun _ hp => absurd hp List.not_mem_nil, h, covers_nil h, .nil⟩

theorem Tallied.mono {now' : T} (h : Tallied W B now dq log) (hn : now ≤ now') :
    Tallied W B now' dq log :=
  ⟨fun p hp => (h.past p hp).trans hn, h.nonneg, h.covers.mono hn, h.admitted⟩

theorem Tallied.trail [IsOrderedAddMonoid T] (h : Tallied W B now dq log) :
    Tallied W B now (trail W now dq) log :=
  ⟨h.past, fun p hp => h.nonneg p (mem_of_mem_trail hp), h.covers.trail, h.admitted⟩

/-- What fits with the queue fits with the log. -/
theorem Tallied.fits [IsOrderedAddMonoid N] (h : Tallied W B now dq log) (hn : 0 ≤ n)
    (hB : load (Window.trail W now dq) + n ≤ B) : Fits W B now log n where
  past := h.past
  nonneg := hn
  room := (add_le_add_left (h.covers now le_rfl) n).trans hB

/-- An entry that fitted is recorded later, in the queue and in the log. -/
theorem Tallied.push [IsOrderedAddMonoid N] (h : Tallied W B now dq log) (hf : Fits W B e log n)
    (he : e ≤ now) : Tallied W B now (dq ++ [(now, n)]) (log ++ [(now, n)]) where
  past p hp := by
    rcases List.mem_append.mp hp with hp | hp
    · exact h.past p hp
    · rw [List.mem_singleton.mp hp]
  nonneg p hp := by
    rcases List.mem_append.mp hp with hp | hp
    · exact h.nonneg p hp
    · rw [List.mem_singleton.mp hp]
      exact hf.nonneg
  covers := h.covers.push h.past h.nonneg hf.nonneg
  admitted := h.admitted.snoc hf.past he hf.nonneg hf.room

end Queue

/-! ## What is left of a log -/

section Remains
variable {α β : Type}

/-- `dq` is what is left of `log` when entries have gone from its left, each of them `old`. -/
def Remains (old : α → Prop) (dq log : List α) : Prop :=
  ∃ gone, log = gone ++ dq ∧ ∀ a ∈ gone, old a

variable {old : α → Prop} {dq log : List α}

theorem remains_nil : Remains old [] [] := ⟨[], rfl, fun _ h => absurd h List.not_mem_nil⟩

theorem Remains.mono {old' : α → Prop} (h : Remains old dq log) (ho : ∀ a, old a → old' a) :
    Remains old' dq log := by
  obtain ⟨gone, hl, hg⟩ := h
  exact ⟨gone, hl, fun a ha => ho a (hg a ha)⟩

theorem Remains.push (h : Remains old dq log) (a : α) : Remains old (dq ++ [a]) (log ++ [a]) := by
  obtain ⟨gone, rfl, hg⟩ := h
  exact ⟨gone, List.append_assoc .., hg⟩

theorem Remains.dropWhile (h : Remains old dq log) {p : α → Bool} (hp : ∀ a, p a = true → old a) :
    Remains old (dq.dropWhile p) log := by
  obtain ⟨gone, rfl, hg⟩ := h
  refine ⟨gone ++ dq.takeWhile p, ?_, fun a ha => ?_⟩
  · rw [List.append_assoc, List.takeWhile_append_dropWhile]
  · rcases List.mem_append.mp ha with ha | ha
    · exact hg a ha
    · exact hp a (List.mem_takeWhile_imp ha)

end Remains

/-! ## What a queue has lost

A queue that is pruned when the clock is ahead, and looked at when it is behind again, may
have lost entries the window at that time still holds. -/

/-- The entries of `log` that a queue of this length is without, when it has lost entries
from the left only. -/
def lost {α : Type} (log : List α) (length : ℕ) : List α := log.take (log.length - length)

theorem lost_append {α : Type} (gone dq : List α) : lost (gone ++ dq) dq.length = gone := by
  rw [lost, List.length_append, Nat.add_sub_cancel, List.take_left]

section Lost
variable {T N : Type} [AddCommGroup T] [LinearOrder T]

/-- The entries in `(e - W, e]`. -/
def upTo (W e : T) (l : List (T × N)) : List (T × N) := l.filter fun p => e - W < p.1 ∧ p.1 ≤ e

variable {W e : T} {dq log : List (T × N)}

/-- Pruning loses nothing of the window it prunes for. -/
theorem upTo_trail (W e : T) (dq : List (T × N)) : upTo W e (trail W e dq) = upTo W e dq := by
  induction dq with
  | nil => rfl
  | cons p dq ih =>
      by_cases hp : p.1 ≤ e - W
      · have hdrop : trail W e (p :: dq) = trail W e dq :=
          List.dropWhile_cons_of_pos (by simpa using hp)
        have hout : upTo W e (p :: dq) = upTo W e dq :=
          List.filter_cons_of_neg (by simp [not_lt.mpr hp])
        rw [hdrop, hout, ih]
      · have hkeep : trail W e (p :: dq) = p :: dq :=
          List.dropWhile_cons_of_neg (by simpa using hp)
        rw [hkeep]

variable [AddCommMonoid N] [PartialOrder N] [IsOrderedAddMonoid N]

theorem load_upTo_le (h : ∀ p ∈ dq, ¬ (e - W < p.1 ∧ p.1 ≤ e) → 0 ≤ p.2) :
    load (upTo W e dq) ≤ load dq := by
  induction dq with
  | nil => exact le_rfl
  | cons p dq ih =>
      have hrest := ih fun q hq => h q (List.mem_cons_of_mem _ hq)
      have hload : load (p :: dq) = p.2 + load dq := by simp [load]
      rw [hload]
      by_cases hp : e - W < p.1 ∧ p.1 ≤ e
      · have hin : upTo W e (p :: dq) = p :: upTo W e dq :=
          List.filter_cons_of_pos (by simpa using hp)
        have hsum : load (p :: upTo W e dq) = p.2 + load (upTo W e dq) := by simp [load]
        rw [hin, hsum]
        exact add_le_add_right hrest p.2
      · have hout : upTo W e (p :: dq) = upTo W e dq :=
          List.filter_cons_of_neg (by simpa using hp)
        rw [hout]
        exact hrest.trans (le_add_of_nonneg_left (h p List.mem_cons_self hp))

/-- What a queue that has lost nothing of the window weighs, when pruned for it, is at least
what the log weighs there. -/
theorem load_upTo_le_trail (hdq : dq <:+ log)
    (hlost : ∀ p ∈ lost log dq.length, ¬ (e - W < p.1 ∧ p.1 ≤ e))
    (hout : ∀ p ∈ trail W e dq, ¬ (e - W < p.1 ∧ p.1 ≤ e) → 0 ≤ p.2) :
    load (upTo W e log) ≤ load (trail W e dq) := by
  obtain ⟨gone, rfl⟩ := hdq
  rw [lost_append] at hlost
  have hgone : upTo W e gone = [] :=
    List.filter_eq_nil_iff.mpr fun p hp => by simpa using hlost p hp
  have hlog : upTo W e (gone ++ dq) = upTo W e (trail W e dq) := by
    rw [upTo_trail]
    exact (List.filter_append _ _).trans (by rw [show gone.filter _ = [] from hgone]; rfl)
  rw [hlog]
  exact load_upTo_le hout

end Lost

/-! ## Actions under a condition -/

section Along
variable {S A : Type} (f : S → A → S) (P : S → A → Prop)

/-- Each action meets `P` in the state it finds. -/
def Along : S → List A → Prop
  | _, [] => True
  | s, a :: as => P s a ∧ Along (f s a) as

instance [∀ s a, Decidable (P s a)] : ∀ (s : S) (as : List A), Decidable (Along f P s as)
  | _, [] => isTrue trivial
  | s, a :: as =>
      have := instDecidableAlong (f s a) as
      inferInstanceAs (Decidable (_ ∧ _))

variable {f P}

theorem Along.induction {I : S → Prop} (step : ∀ s a, I s → P s a → I (f s a)) {as : List A} :
    ∀ {s : S}, I s → Along f P s as → I (as.foldl f s) := by
  induction as with
  | nil =>
      intro s h _
      exact h
  | cons a as ih =>
      intro s h hp
      exact ih (step s a h hp.1) hp.2

theorem Along.take {as : List A} (k : ℕ) : ∀ {s : S}, Along f P s as → Along f P s (as.take k) := by
  induction as generalizing k with
  | nil =>
      intro s _
      rw [List.take_nil]
      trivial
  | cons a as ih =>
      intro s h
      cases k with
      | zero => trivial
      | succ k => exact ⟨h.1, ih k h.2⟩

/-- The same, where the state is the list of the actions so far. -/
theorem Along.history {P : List A → A → Prop} {I : List A → Prop}
    (step : ∀ past a, I past → P past a → I (past ++ [a])) (start : I []) {as : List A}
    (h : Along (fun past a => past ++ [a]) P [] as) : I as := by
  have hfold : ∀ past : List A, as.foldl (fun past a => past ++ [a]) past = past ++ as := by
    clear h
    induction as with
    | nil => exact fun past => (List.append_nil past).symm
    | cons a as ih =>
        intro past
        rw [List.foldl_cons, ih, List.append_assoc]
        rfl
  have hend := Along.induction step start h
  rwa [hfold] at hend

end Along

end Window
