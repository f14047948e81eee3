import Husky.Param

namespace Husky

/-- `Model::avg_error`: `error_func_` on every worker's examples, summed by `error_agg`, over
the number of examples `num_samples_agg` counts (`0` with none, where the spec leaves the
result open). -/
def avgError {α : Type} (errorFunc : α → Vec → ℚ) (parts : List (List α)) (P : Vec) : ℚ :=
  (parts.map fun D => (D.map fun x => errorFunc x P).sum).sum / (parts.map List.length).sum

theorem sum_map_ite_eq_filter {β : Type} (l : List β) (c : β → Prop) [DecidablePred c]
    (f : β → ℚ) : (l.map fun a => if c a then f a else 0).sum = ((l.filter (c ·)).map f).sum := by
  induction l with
  | nil => rfl
  | cons a l ih => by_cases h : c a <;> simp [List.filter_cons, h, ih]

theorem avgError_eq_flatten {α : Type} (errorFunc : α → Vec → ℚ) (parts : List (List α))
    (P : Vec) : avgError errorFunc parts P =
      (parts.flatten.map fun x => errorFunc x P).sum / parts.flatten.length := by
  simp [avgError, List.map_flatten, List.sum_flatten, List.length_flatten, Function.comp_def]

theorem avgError_indicator {α : Type} (errorFunc : α → Vec → ℚ) (parts : List (List α))
    (P : Vec) (c : α → Prop) [DecidablePred c]
    (h : ∀ x, errorFunc x P = if c x then 1 else 0) :
    avgError errorFunc parts P =
      ((parts.flatten.filter (c ·)).length : ℚ) / parts.flatten.length := by
  rw [avgError_eq_flatten]
  simp only [h, sum_map_ite_eq_filter, List.map_const', List.sum_replicate, nsmul_eq_mul, mul_one]

/-- `Model::avg_error` with an `error_func_` that can fail: a failed call on any worker's example
stops the job, and no error rate is returned. -/
def avgErrorChecked {α : Type} (errorFunc : α → Vec → Option ℚ) (parts : List (List α))
    (P : Vec) : Option ℚ :=
  (parts.mapM fun D : List α => D.mapM fun x => errorFunc x P).map fun errs =>
    (errs.map List.sum).sum / (parts.map List.length).sum

theorem mapM_eq_ite {β γ : Type} {f : β → Option γ} {g : β → γ} {c : β → Prop} [DecidablePred c]
    (h : ∀ x, f x = if c x then some (g x) else none) :
    ∀ l : List β, l.mapM f = if ∀ x ∈ l, c x then some (l.map g) else none
  | [] => rfl
  | x :: l => by
    rw [List.mapM_cons, mapM_eq_ite h l, h]
    split_ifs <;> simp_all

theorem avgErrorChecked_eq {α : Type} {errorFunc : α → Vec → Option ℚ} {f : α → Vec → ℚ}
    {c : α → Prop} [DecidablePred c] (parts : List (List α)) (P : Vec)
    (h : ∀ x, errorFunc x P = if c x then some (f x P) else none) :
    avgErrorChecked errorFunc parts P =
      if ∀ x ∈ parts.flatten, c x then some (avgError f parts P) else none := by
  rw [avgErrorChecked, mapM_eq_ite (g := fun D => D.map fun x => f x P)
    (c := fun D => ∀ x ∈ D, c x) fun D => mapM_eq_ite h D]
  simp only [List.forall_mem_flatten]
  split_ifs <;> simp [avgError, Function.comp_def]

end Husky
