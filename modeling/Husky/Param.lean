import Mathlib.Algebra.BigOperators.Group.List
import Mathlib.Algebra.Order.Field.Rat
import Mathlib.Tactic.Ring

namespace Husky

/-- A dense vector of doubles, read as exact rationals: a `Vector<double, false>` local copy
or the values of a `ParameterBucket`. It has a value at every index, where the code's reads past
the bucket fail: `paramAt` is the read with that check. -/
abbrev Vec := ℕ → ℚ

abbrev Msg := ℕ × ℚ

/-- `ParameterBucket::param_at(i)`, the spec's `get`: it fails with `OutOfRange` at or past the
`numParam` stored values. -/
def paramAt (numParam : ℕ) (P : Vec) (i : ℕ) : Option ℚ := if i < numParam then some (P i) else none

theorem paramAt_of_lt {n i : ℕ} (P : Vec) (h : i < n) : paramAt n P i = some (P i) := if_pos h

theorem paramAt_of_not_lt {n i : ℕ} (P : Vec) (h : ¬ i < n) : paramAt n P i = none := if_neg h

def addAt (v : Vec) (j : ℕ) (d : ℚ) : Vec := fun i => if i = j then v i + d else v i

@[simp] theorem addAt_apply (v : Vec) (j : ℕ) (d : ℚ) (i : ℕ) :
    addAt v j d i = if i = j then v i + d else v i := rfl

def update (v : Vec) (m : Msg) : Vec := addAt v m.1 m.2

def applyMsgs (v : Vec) (ms : List Msg) : Vec := ms.foldl update v

/-- What the pairs `ms` carry at index `i` together: the total delta of a list of updates,
or the value at `i` of a sparse vector read densely. -/
def sumAt (ms : List Msg) (i : ℕ) : ℚ := (ms.map fun m => if i = m.1 then m.2 else 0).sum

@[simp] theorem sumAt_nil (i : ℕ) : sumAt [] i = 0 := rfl

@[simp] theorem sumAt_cons (m : Msg) (ms : List Msg) (i : ℕ) :
    sumAt (m :: ms) i = (if i = m.1 then m.2 else 0) + sumAt ms i := by
  simp [sumAt]

@[simp] theorem sumAt_append (ms ms' : List Msg) (i : ℕ) :
    sumAt (ms ++ ms') i = sumAt ms i + sumAt ms' i := by
  simp [sumAt]

theorem sumAt_eq_zero_of_le {X : List Msg} {n : ℕ} (hX : ∀ e ∈ X, e.1 < n) {i : ℕ}
    (hi : n ≤ i) : sumAt X i = 0 := by
  induction X with
  | nil => rfl
  | cons e X ih =>
    have he := hX e (List.mem_cons_self _ _)
    rw [sumAt_cons, if_neg (by omega), ih fun e he => hX e (List.mem_cons_of_mem _ he), add_zero]

theorem sumAt_flatten (L : List (List Msg)) (i : ℕ) :
    sumAt L.flatten i = (L.map (sumAt · i)).sum := by
  induction L with
  | nil => rfl
  | cons ms L ih => simp [ih]

theorem sumAt_perm {ms ms' : List Msg} (h : ms.Perm ms') (i : ℕ) : sumAt ms i = sumAt ms' i :=
  (h.map _).sum_eq

theorem sumAt_range_map (n : ℕ) (f : ℕ → ℚ) (i : ℕ) :
    sumAt ((List.range n).map fun j => (j, f j)) i = if i < n then f i else 0 := by
  induction n with
  | zero => simp
  | succ n ih =>
    rw [List.range_succ, List.map_append, sumAt_append, ih]
    by_cases h : i = n
    · simp [h]
    · have : i < n + 1 ↔ i < n := by omega
      simp [h, this]

theorem applyMsgs_apply (v : Vec) (ms : List Msg) (i : ℕ) :
    applyMsgs v ms i = v i + sumAt ms i := by
  induction ms generalizing v with
  | nil => simp [applyMsgs]
  | cons m ms ih =>
    rw [applyMsgs, List.foldl_cons, ← applyMsgs, ih, sumAt_cons, update, addAt_apply]
    split_ifs <;> ring

@[simp] theorem applyMsgs_append (v : Vec) (ms ms' : List Msg) :
    applyMsgs v (ms ++ ms') = applyMsgs (applyMsgs v ms) ms' := List.foldl_append _ _ _ _

theorem applyMsgs_perm (v : Vec) {ms ms' : List Msg} (h : ms.Perm ms') :
    applyMsgs v ms = applyMsgs v ms' := by
  funext i
  rw [applyMsgs_apply, applyMsgs_apply, sumAt_perm h]

end Husky
