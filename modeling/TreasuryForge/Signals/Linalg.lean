/-
# `Signals.Linalg` — least squares without a library

`signals/linalg.py` over any ordered field; a matrix is the list of its rows.  What the field has
no square roots and logarithms for is in `Maths`; every exception is an `.error`.
-/
import Mathlib.Algebra.Order.Field.Basic
import Mathlib.Algebra.Order.Group.Abs
import Mathlib.Algebra.BigOperators.Group.List.Basic
import Mathlib.Data.Rat.Floor

namespace TreasuryForge

/-- `math.sqrt` (also `** 0.5`) and `math.log`. -/
structure Maths (K : Type) where
  sqrt : K → K
  log : K → K

/-- Roots to twelve decimals, and logarithms by twenty terms of a series. -/
def Maths.decimal : Maths ℚ where
  sqrt x := Nat.sqrt ⌊x * 10 ^ 24⌋.toNat / 10 ^ 12
  log x :=
    let y := (x - 1) / (x + 1)
    2 * ((List.range 20).map fun k : ℕ => y ^ (2 * k + 1) / (2 * k + 1 : ℚ)).sum

namespace Signals

/-! Numerals by instances of their own: definitions over a field then hold no proofs. -/

scoped instance two : Nat.AtLeastTwo 2 := ⟨le_rfl⟩
scoped instance three : Nat.AtLeastTwo 3 := ⟨by decide⟩
scoped instance six : Nat.AtLeastTwo 6 := ⟨by decide⟩
scoped instance ten : Nat.AtLeastTwo 10 := ⟨by decide⟩
scoped instance hundred : Nat.AtLeastTwo 100 := ⟨by decide⟩

variable {K : Type} [Field K] [LinearOrder K]

/-- `x / y` -/
def divide (x y : K) : Except String K :=
  if y = 0 then .error "ZeroDivisionError: division by zero" else .ok (x / y)

theorem divide_eq_ok {x y q : K} : divide x y = .ok q ↔ y ≠ 0 ∧ q = x / y := by
  unfold divide
  split
  · next hzero =>
      refine iff_of_false (fun h => by cases h) ?_
      rintro ⟨hne, -⟩
      exact hne hzero
  · next hne =>
      constructor
      · intro h
        exact ⟨hne, (Except.ok.inj h).symm⟩
      · rintro ⟨-, rfl⟩
        rfl

/-! ## Matrices -/

abbrev Matrix (K : Type) := List (List K)

def dot (xs ys : List K) : K := (List.zipWith (· * ·) xs ys).sum

def column (A : Matrix K) (j : ℕ) : List K := A.map fun row => row.getD j 0

/-- The product has as many columns as the first row of `B`. -/
def matmul (A B : Matrix K) : Matrix K :=
  A.map fun row => (List.range (B.headD []).length).map fun j => dot row (column B j)

/-- `zip(*A)` stops with the shortest row. -/
def transpose (A : Matrix K) : Matrix K :=
  (List.range ((A.map List.length).min?.getD 0)).map (column A)

def entry (M : Matrix K) (i j : ℕ) : K := (M.getD i []).getD j 0

/-- The first row from `col` on with the largest entry in this column. -/
def pivotRow (M : Matrix K) (n col : ℕ) : ℕ :=
  ((List.range n).filter fun r => col < r).foldl
    (fun best r => if |entry M best col| < |entry M r col| then r else best) col

/-- One column of the elimination. -/
def eliminate (n : ℕ) (M : Matrix K) (col : ℕ) : Except String (Matrix K) :=
  let piv := pivotRow M n col
  if |entry M piv col| < 1 / 10 ^ 12 then
    .error "ValueError: singular matrix (regressors collinear)"
  else
    let M := (M.set col (M.getD piv [])).set piv (M.getD col [])
    let pivval := entry M col col
    let M := M.set col ((M.getD col []).map (· / pivval))
    .ok ((List.range n).foldl (fun M r =>
      if r ≠ col ∧ entry M r col ≠ 0 then
        let factor := entry M r col
        M.set r (List.zipWith (fun a b => a - factor * b) (M.getD r []) (M.getD col []))
      else M) M)

/-- `_inverse`: Gauss-Jordan with partial pivoting, beside the unit matrix. -/
def inverse (A : Matrix K) : Except String (Matrix K) := do
  let n := A.length
  let M := A.mapIdx fun i row => row ++ (List.range n).map fun j => if i = j then 1 else 0
  let M ← (List.range n).foldlM (eliminate n) M
  return M.map (·.drop n)

/-! ## Least squares -/

structure OLSResult (K : Type) where
  coef : List K
  se : List K
  resid : List K
  dof : ℕ

def OLSResult.tstat (r : OLSResult K) (i : ℕ) : K :=
  if 0 < r.se.getD i 0 then r.coef.getD i 0 / r.se.getD i 0 else 0

variable (m : Maths K)

/-- Least squares by the normal equations. -/
def ols (X : Matrix K) (y : List K) : Except String (OLSResult K) := do
  let n := X.length
  let k ← match X with
    | [] => .error "IndexError: list index out of range"
    | row :: _ => .ok row.length
  if n ≤ k then throw "ValueError: need more observations than regressors"
  let Xt := transpose X
  let inv ← inverse (matmul Xt X)
  if k = 0 ∨ Xt.length < k ∨ y.length < n then throw "IndexError: list index out of range"
  let Xty := Xt.map fun row => [dot row y]
  let beta := (matmul inv Xty).map fun row => row.getD 0 0
  let resid := List.zipWith (fun row yr => yr - dot row beta) X y
  let rss := (resid.map fun e => e * e).sum
  let dof := n - k
  let sigma2 := if 0 < dof then rss / dof else 0
  let se := (List.range k).map fun j => m.sqrt (max (sigma2 * entry inv j j) 0)
  return ⟨beta, se, resid, dof⟩

end Signals

end TreasuryForge
