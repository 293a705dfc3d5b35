/-
# `Risk.Bootstrap` — what a block-bootstrapped path is made of

The draws of `block_bootstrap` as the generator makes them, and the path as their blocks: all are
whole and inside of the series, and only the last one is cut.
-/
import TreasuryForge.Risk.Ruin

namespace TreasuryForge

namespace Risk

variable (rng : Rng)

/-- So many starts in a row, none after `hi`. -/
def starts (hi : ℤ) : ℕ → rng.State → List ℤ × rng.State
  | 0, s => ([], s)
  | k + 1, s =>
      let (start, s) := rng.randint s 0 hi
      let (rest, s) := starts hi k s
      (start :: rest, s)

/-- The block of a start. -/
def block (rets : List ℚ) (size start : ℤ) : List ℚ := Loop.slice rets start (start + size)

/-- A path of `n` steps is whole blocks of the series, of which the last may be cut. -/
structure IsBlockPath (rets : List ℚ) (size n : ℤ) (starts : List ℤ) (path : List ℚ) : Prop where
  inside : ∀ start ∈ starts, 0 ≤ start ∧ start + size ≤ rets.length
  whole : ∀ start ∈ starts, ((block rets size start).length : ℤ) = size
  uncut : starts.dropLast.flatMap (block rets size) <+: path
  cut : path <+: starts.flatMap (block rets size)
  length : (path.length : ℤ) = n

variable {rng} {rets : List ℚ} {n size : ℤ}

theorem starts_mem {hi : ℤ} (h : 0 ≤ hi) (k : ℕ) (s : rng.State) :
    ∀ start ∈ (starts rng hi k s).1, 0 ≤ start ∧ start ≤ hi := by
  induction k generalizing s with
  | zero =>
      intro start hstart
      cases hstart
  | succ k ih =>
      intro start hstart
      rcases List.mem_cons.mp hstart with rfl | hrest
      · exact rng.randint_mem s 0 hi h
      · exact ih _ start hrest

theorem length_flatMap_block {l : List ℤ}
    (h : ∀ start ∈ l, ((block rets size start).length : ℤ) = size) :
    ((l.flatMap (block rets size)).length : ℤ) = l.length * size := by
  induction l with
  | nil => simp
  | cons start l ih =>
      have hrest := ih fun start' h' => h start' (List.mem_cons_of_mem start h')
      rw [List.flatMap_cons, List.length_append, List.length_cons]
      push_cast
      rw [h start List.mem_cons_self, hrest]
      ring

/-- The loop draws until it has the steps, and no block more. -/
theorem drawBlocks_eq (hsize : 1 ≤ size) (hle : size ≤ rets.length) {fuel : ℕ} {out : List ℚ}
    (hfuel : n ≤ out.length + fuel) (s : rng.State) :
    ∃ k, drawBlocks rng rets n size fuel out s =
        .ok (out ++ (starts rng (rets.length - size) k s).1.flatMap (block rets size),
          (starts rng (rets.length - size) k s).2) ∧
      n ≤ out.length + k * size ∧ (k ≠ 0 → out.length + (k - 1) * size < n) := by
  induction fuel generalizing out s with
  | zero =>
      refine ⟨0, ?_, by push_cast at *; omega, fun h => absurd rfl h⟩
      unfold drawBlocks
      rw [if_pos (by omega)]
      simp [starts]
  | succ fuel ih =>
      by_cases hdone : n ≤ out.length
      · refine ⟨0, ?_, by push_cast; omega, fun h => absurd rfl h⟩
        unfold drawBlocks
        rw [if_pos hdone]
        simp [starts]
      · obtain ⟨hlo, hhi⟩ := rng.randint_mem s 0 (rets.length - size) (by omega)
        have hblock :
            ((block rets size (rng.randint s 0 (rets.length - size)).1).length : ℤ) = size :=
          length_slice hlo (by omega) (by omega)
        have hnext :
            n ≤ ((out ++ block rets size (rng.randint s 0 (rets.length - size)).1).length : ℤ)
              + fuel := by
          rw [List.length_append]
          push_cast
          omega
        obtain ⟨k, hk, hn, hlast⟩ := ih hnext (rng.randint s 0 (rets.length - size)).2
        rw [List.length_append] at hn hlast
        push_cast at hn hlast
        rw [hblock] at hn hlast
        refine ⟨k + 1, ?_, by push_cast; linarith, ?_⟩
        · unfold drawBlocks
          rw [if_neg hdone]
          dsimp only
          rw [if_neg (by omega)]
          refine hk.trans ?_
          simp [starts, block]
        · intro _
          push_cast
          rcases Nat.eq_zero_or_pos k with rfl | hpos
          · push_cast
            omega
          · linarith [hlast hpos.ne']

/-- How many blocks it takes is settled by the lengths. -/
theorem blocks_le (hsize : 1 ≤ size) {k k' : ℕ} (hk : n ≤ k * size)
    (hk' : k' ≠ 0 → (k' - 1) * size < n) : k' ≤ k := by
  by_contra hlt
  have hshort : (k : ℤ) * size ≤ (k' - 1) * size :=
    mul_le_mul_of_nonneg_right (by omega) (by omega)
  have := hk' (by omega)
  omega

theorem length_starts (hi : ℤ) (k : ℕ) (s : rng.State) : (starts rng hi k s).1.length = k := by
  induction k generalizing s with
  | zero => rfl
  | succ k ih => exact congrArg (· + 1) (ih _)

/-- So many blocks, cut at the length. -/
theorem isBlockPath_take (hle : size ≤ rets.length) (hsize : 1 ≤ size) (hn : 0 ≤ n) {k : ℕ}
    (hk : n ≤ k * size) (hlast : k ≠ 0 → (k - 1) * size < n) (s : rng.State) :
    IsBlockPath rets size n (starts rng (rets.length - size) k s).1
      (((starts rng (rets.length - size) k s).1.flatMap (block rets size)).take n.toNat) := by
  have hlen := length_starts (rets.length - size) k s
  have hmem := starts_mem (by omega : (0 : ℤ) ≤ rets.length - size) k s
  generalize (starts rng (rets.length - size) k s).1 = l at hlen hmem
  have hinside : ∀ start ∈ l, 0 ≤ start ∧ start + size ≤ rets.length := by
    intro start hstart
    obtain ⟨hlo, hhi⟩ := hmem start hstart
    exact ⟨hlo, by omega⟩
  have hwhole : ∀ start ∈ l, ((block rets size start).length : ℤ) = size := by
    intro start hstart
    obtain ⟨hlo, hhi⟩ := hinside start hstart
    exact length_slice hlo (by omega) hhi
  have hall := length_flatMap_block hwhole
  refine ⟨hinside, hwhole, ?_, List.take_prefix _ _, ?_⟩
  · -- the blocks before the last one do not fill the path
    have hdrop := length_flatMap_block fun start h => hwhole start (List.dropLast_subset l h)
    rw [List.prefix_take_iff]
    refine ⟨List.IsPrefix.flatMap (List.dropLast_prefix l) _, ?_⟩
    rcases Nat.eq_zero_or_pos k with rfl | hpos
    · rw [List.length_eq_zero_iff.mp hlen]
      exact Nat.zero_le _
    · rw [List.length_dropLast, hlen, Nat.cast_sub hpos] at hdrop
      have := hlast hpos.ne'
      push_cast at hdrop
      omega
  · rw [hlen] at hall
    rw [List.length_take]
    omega

/-- A path is exactly as long as it was asked to be, and is made of the blocks that were drawn. -/
theorem blockBootstrap_path (rng : Rng) {rets : List ℚ} (hne : rets ≠ []) {n blockLen : ℤ}
    (hn : 0 ≤ n) (hblock : 1 ≤ blockLen) (s : rng.State) :
    (blockLen < rets.length → blockSize rets blockLen = blockLen) ∧
    (rets.length ≤ blockLen → blockSize rets blockLen = max 1 ((rets.length : ℤ) / 2)) ∧
    ∃ k path, IsBlockPath rets (blockSize rets blockLen) n
        (starts rng (rets.length - blockSize rets blockLen) k s).1 path ∧
      ∀ fuel : ℕ, n ≤ fuel → blockBootstrap rng rets n blockLen fuel s =
        .ok (path, (starts rng (rets.length - blockSize rets blockLen) k s).2) := by
  refine ⟨fun h => if_neg (not_le.mpr h), fun h => ?_, ?_⟩
  · rw [blockSize, if_pos h]
    rfl
  · obtain ⟨hsize, hle⟩ := blockSize_mem hne hblock
    have hrun : ∀ fuel : ℕ, n ≤ fuel → n ≤ ([] : List ℚ).length + (fuel : ℤ) := by
      intro fuel hfuel
      rw [List.length_nil]
      omega
    obtain ⟨k, -, hk, hlast⟩ := drawBlocks_eq hsize hle (hrun n.toNat (by omega)) s
    rw [List.length_nil, Nat.cast_zero, zero_add] at hk
    simp only [List.length_nil, Nat.cast_zero, zero_add] at hlast
    refine ⟨k, _, isBlockPath_take hle hsize hn hk hlast s, ?_⟩
    intro fuel hfuel
    obtain ⟨k', hdraw, hk', hlast'⟩ := drawBlocks_eq hsize hle (hrun fuel hfuel) s
    rw [List.length_nil, Nat.cast_zero, zero_add] at hk'
    simp only [List.length_nil, Nat.cast_zero, zero_add] at hlast'
    have hcount : k' = k := (blocks_le hsize hk hlast').antisymm (blocks_le hsize hk' hlast)
    rw [blockBootstrap, hdraw, hcount]
    rfl

theorem blockBootstrap_path_of_three :
    ∃ k path, IsBlockPath [1, 2, 3] 1 5 (starts .lowest 2 k ()).1 path ∧
      ∀ fuel : ℕ, (5 : ℤ) ≤ fuel → blockBootstrap .lowest [1, 2, 3] 5 10 fuel () =
        .ok (path, (starts .lowest 2 k ()).2) :=
  (blockBootstrap_path .lowest (List.cons_ne_nil 1 [2, 3]) (show (0 : ℤ) ≤ 5 by decide)
    (show (1 : ℤ) ≤ 10 by decide) ()).2.2

end Risk

end TreasuryForge
