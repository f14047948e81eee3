import Husky.Param
import Mathlib.Algebra.BigOperators.Group.Finset
import Mathlib.Tactic.Ring

namespace Husky

/-- `LabeledPointHObj`: the `(fea, val)` entries of the features `x`, and the label `y`. -/
structure LabeledPoint where
  x : List Msg
  y : ℚ
  deriving DecidableEq, Repr

namespace LabeledPoint

/-- Every feature index is below `n`, the `num_features` that `load_data` reports. -/
def Fits (n : ℕ) (p : LabeledPoint) : Prop := ∀ e ∈ p.x, e.1 < n

instance (n : ℕ) : DecidablePred (Fits n) := fun p =>
  inferInstanceAs (Decidable (∀ e ∈ p.x, e.1 < n))

end LabeledPoint

def dot (w : Vec) (X : List Msg) : ℚ := (X.map fun e => w e.1 * e.2).sum

/-- Modelled from the spec: `Vector::dot_with_intcpt` (lib/vector.hpp is not among the
sources) is the spec's `w·x + b`, with the intercept `b` in the last of the `size` entries
of the dense vector, where `gradient_func_` writes the bias component. -/
def dotWithIntcpt (param : Vec) (size : ℕ) (X : List Msg) : ℚ := dot param X + param (size - 1)

-- `X *= y`, `X.resize(n)` and `X.set(i, v)` on a sparse `Vector`, as the spec describes them.
def scaleBy (X : List Msg) (y : ℚ) : List Msg := X.map fun e => (e.1, e.2 * y)

def resize (X : List Msg) (n : ℕ) : List Msg := X.filter fun e => e.1 < n

def setAt (X : List Msg) (i : ℕ) (v : ℚ) : List Msg := X.filter (fun e => e.1 ≠ i) ++ [(i, v)]

/-- The hinge loss of the design, with the bias `b` at index `n`. -/
def hinge (n : ℕ) (p : LabeledPoint) (P : Vec) : ℚ := max 0 (1 - p.y * (dot P p.x + P n))

@[simp] theorem dot_nil (w : Vec) : dot w [] = 0 := rfl

@[simp] theorem dot_cons (w : Vec) (e : Msg) (X : List Msg) :
    dot w (e :: X) = w e.1 * e.2 + dot w X := by
  simp [dot]

theorem foldl_add_dot (w : Vec) (X : List Msg) (a : ℚ) :
    X.foldl (fun acc e => acc + w e.1 * e.2) a = a + dot w X := by
  induction X generalizing a with
  | nil => simp
  | cons e X ih => rw [List.foldl_cons, ih, dot_cons]; ring

theorem sumAt_scaleBy (X : List Msg) (y : ℚ) (i : ℕ) :
    sumAt (scaleBy X y) i = sumAt X i * y := by
  induction X with
  | nil => simp [scaleBy]
  | cons e X ih =>
    simp only [scaleBy, List.map_cons, sumAt_cons] at ih ⊢
    rw [ih]
    split_ifs <;> ring

theorem sum_range_sumAt_mul {X : List Msg} {m : ℕ} (hX : ∀ e ∈ X, e.1 < m) (d : Vec) :
    ∑ i in Finset.range m, sumAt X i * d i = (X.map fun e => e.2 * d e.1).sum := by
  induction X with
  | nil => simp
  | cons e X ih =>
    have he := hX e (List.mem_cons_self _ _)
    simp only [sumAt_cons, add_mul, Finset.sum_add_distrib, ite_mul, zero_mul,
      Finset.sum_ite_eq', Finset.mem_range, he, if_true, List.map_cons, List.sum_cons]
    rw [ih fun e he => hX e (List.mem_cons_of_mem _ he)]

end Husky
