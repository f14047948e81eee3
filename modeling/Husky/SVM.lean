import Husky.SGDRound
import Husky.LabeledPoint
import Husky.Model
import Mathlib.Tactic.Linarith

namespace Husky
open Relation

/-- The closure `SVM(num_features)` gives `gradient_func_`, called on a copy of the
`numParam` parameters: inside the margin, `X *= y`, `X.resize(num_param)`,
`X.set(num_param - 1, y)`; outside, the empty `Vector`. -/
def svmGradient (numParam : ℕ) (obj : LabeledPoint) (param : Vec) : List Msg :=
  if dotWithIntcpt param numParam obj.x * obj.y < 1 then
    setAt (resize (scaleBy obj.x obj.y) numParam) (numParam - 1) obj.y
  else []

theorem svmGradient_of_lt {n : ℕ} {p : LabeledPoint} {P : Vec} (hp : p.Fits n)
    (h : p.y * (dot P p.x + P n) < 1) :
    svmGradient (n + 1) p P = scaleBy p.x p.y ++ [(n, p.y)] := by
  have hlt : ∀ e ∈ scaleBy p.x p.y, e.1 < n := fun e he => by
    obtain ⟨e', he', rfl⟩ := List.mem_map.1 he
    exact hp e' he'
  have hres : resize (scaleBy p.x p.y) (n + 1) = scaleBy p.x p.y :=
    List.filter_eq_self.2 fun e he => by simpa using (hlt e he).trans n.lt_succ_self
  rw [svmGradient, if_pos (by simpa [dotWithIntcpt, mul_comm] using h), Nat.add_sub_cancel,
    hres, setAt, List.filter_eq_self.2 fun e he => by simpa using (hlt e he).ne]

theorem svmGradient_of_le {n : ℕ} {p : LabeledPoint} {P : Vec}
    (h : ¬ p.y * (dot P p.x + P n) < 1) : svmGradient (n + 1) p P = [] := by
  rw [svmGradient, if_neg (by simpa [dotWithIntcpt, mul_comm] using h)]

theorem svmGradient_lt {n : ℕ} {p : LabeledPoint} (hp : p.Fits n) (P : Vec) :
    ∀ e ∈ svmGradient (n + 1) p P, e.1 < n + 1 := by
  by_cases h : p.y * (dot P p.x + P n) < 1
  · rw [svmGradient_of_lt hp h]
    intro e he
    rcases List.mem_append.1 he with he | he
    · obtain ⟨e', he', rfl⟩ := List.mem_map.1 he
      exact (hp e' he').trans n.lt_succ_self
    · simp [List.mem_singleton.1 he]
  · simp [svmGradient_of_le h]

theorem sum_scaleBy_bias (n : ℕ) (p : LabeledPoint) (P Q : Vec) :
    ((scaleBy p.x p.y ++ [(n, p.y)]).map fun e => e.2 * (Q e.1 - P e.1)).sum =
      p.y * (dot Q p.x + Q n) - p.y * (dot P p.x + P n) := by
  obtain ⟨x, y⟩ := p
  induction x with
  | nil => simp [scaleBy]; ring
  | cons e x ih =>
    simp only [scaleBy, List.map_cons, List.cons_append, List.sum_cons, dot_cons] at ih ⊢
    rw [ih]
    ring

/-- `gradient_func_` is `(y·x, y)` inside the margin and zero outside, so its negation is a
subgradient of the hinge loss at every parameter vector. -/
theorem svmGradient_subgradient (n : ℕ) (p : LabeledPoint) (P : Vec) (hp : p.Fits n) :
    (∀ i, sumAt (svmGradient (n + 1) p P) i =
      if p.y * (dot P p.x + P n) < 1 then
        (if i < n then p.y * sumAt p.x i else if i = n then p.y else 0)
      else 0) ∧
    ∀ Q : Vec, hinge n p P -
      ∑ i in Finset.range (n + 1), sumAt (svmGradient (n + 1) p P) i * (Q i - P i) ≤
        hinge n p Q := by
  by_cases h : p.y * (dot P p.x + P n) < 1
  · have hG := svmGradient_of_lt hp h
    have hfit : ∀ e ∈ svmGradient (n + 1) p P, e.1 < n + 1 := by
      rw [hG]
      intro e he
      rcases List.mem_append.1 he with he | he
      · obtain ⟨e', he', rfl⟩ := List.mem_map.1 he
        exact (hp e' he').trans n.lt_succ_self
      · simp [List.mem_singleton.1 he]
    refine ⟨fun i => ?_, fun Q => ?_⟩
    · rw [hG, sumAt_append, sumAt_scaleBy, if_pos h]
      rcases lt_trichotomy i n with hi | rfl | hi
      · simp [hi, hi.ne, mul_comm]
      · simp [sumAt_eq_zero_of_le hp le_rfl]
      · simp [sumAt_eq_zero_of_le hp hi.le, hi.ne', not_lt.2 hi.le]
    · rw [sum_range_sumAt_mul hfit, hG, sum_scaleBy_bias, hinge, hinge, max_eq_right (by linarith)]
      linarith [le_max_right 0 (1 - p.y * (dot Q p.x + Q n))]
  · refine ⟨fun i => by simp [svmGradient_of_le h, h], fun Q => ?_⟩
    rw [svmGradient_of_le h, hinge, max_eq_left (by linarith)]
    simp [hinge]

theorem svmGradient_subgradient_one_feature :
    LabeledPoint.Fits 1 ⟨[(0, 1)], -1⟩ ∧
      ∀ Q : Vec, hinge 1 ⟨[(0, 1)], -1⟩ 0 -
        ∑ i in Finset.range (1 + 1), sumAt (svmGradient (1 + 1) ⟨[(0, 1)], -1⟩ 0) i * (Q i - 0) ≤
          hinge 1 ⟨[(0, 1)], -1⟩ Q :=
  ⟨by decide, (svmGradient_subgradient 1 ⟨[(0, 1)], -1⟩ 0 (by decide)).2⟩

/-- The closure `SVM(num_features)` gives `error_func_`: `indicator` sums
`param_at(fea) * val`, adds the bias `param_at(get_num_param() - 1)` and is multiplied by `y`;
an error when `indicator <= 0`. -/
def svmError (numParam : ℕ) (obj : LabeledPoint) (param : Vec) : ℚ :=
  let indicator :=
    (obj.x.foldl (fun ind e => ind + param e.1 * e.2) 0 + param (numParam - 1)) * obj.y
  if indicator ≤ 0 then 1 else 0

theorem svmError_eq (n : ℕ) (obj : LabeledPoint) (P : Vec) :
    svmError (n + 1) obj P = if obj.y * (dot P obj.x + P n) ≤ 0 then 1 else 0 := by
  simp only [svmError, foldl_add_dot, zero_add, Nat.add_sub_cancel]
  rw [mul_comm]

theorem avgError_svmError (n : ℕ) (parts : List (List LabeledPoint)) (P : Vec) :
    avgError (svmError (n + 1)) parts P =
      ((parts.flatten.filter fun p => p.y * (dot P p.x + P n) ≤ 0).length : ℚ) /
        parts.flatten.length :=
  avgError_indicator _ _ _ _ (svmError_eq n · P)

/-- `error_func_` with the range check of `param_at`: `none` where a read fails. -/
def svmErrorChecked (numParam : ℕ) (obj : LabeledPoint) (param : Vec) : Option ℚ := do
  let ind ← obj.x.foldlM (fun ind e => (paramAt numParam param e.1).map (ind + · * e.2)) 0
  let bias ← paramAt numParam param (numParam - 1)
  let indicator := (ind + bias) * obj.y
  return if indicator ≤ 0 then 1 else 0

theorem foldlM_paramAt (n : ℕ) (P : Vec) (X : List Msg) (a : ℚ) :
    X.foldlM (fun ind e => (paramAt n P e.1).map (ind + · * e.2)) a =
      if ∀ e ∈ X, e.1 < n then some (a + dot P X) else none := by
  induction X generalizing a with
  | nil => simp
  | cons e X ih =>
    by_cases he : e.1 < n
    · simp only [List.foldlM_cons, paramAt_of_lt P he, Option.map_some', Option.bind_eq_bind,
        Option.some_bind, ih, List.forall_mem_cons, he, true_and, dot_cons, add_assoc]
    · simp only [List.foldlM_cons, paramAt_of_not_lt P he, Option.map_none', Option.bind_eq_bind,
        Option.none_bind, List.forall_mem_cons, he, false_and, if_false]

/-- The checked `error_func_` fails exactly on an example with a feature index past the bucket,
and is `svmError` otherwise. -/
theorem svmErrorChecked_eq (n : ℕ) (obj : LabeledPoint) (P : Vec) :
    svmErrorChecked (n + 1) obj P =
      if obj.Fits (n + 1) then some (svmError (n + 1) obj P) else none := by
  simp only [svmErrorChecked, foldlM_paramAt, svmError, foldl_add_dot, LabeledPoint.Fits, zero_add,
    Nat.add_sub_cancel, paramAt_of_lt P n.lt_succ_self]
  by_cases hfit : ∀ e ∈ obj.x, e.1 < n + 1
  · rw [if_pos hfit, if_pos hfit]; rfl
  · rw [if_neg hfit, if_neg hfit]; rfl

/-- An `SVM` built by `SVM(num_features)`, with the fields `train` reads and writes:
`num_feature_`, `param_list_` (the bias last), `gradient_func_`, `lambda_`,
`report_per_round` and `trained_`. -/
structure SVM where
  numFeature : ℕ
  param : Vec
  gradientFunc : LabeledPoint → Vec → List Msg
  lambda : ℚ
  reportPerRound : Bool
  trained : Bool

namespace SVM

def new (numFeatures : ℕ) (lambda : ℚ) : SVM :=
  ⟨numFeatures, 0, svmGradient (numFeatures + 1), lambda, false, false⟩

def trainConfig (m : SVM) (parts : List (List LabeledPoint)) (lr : ℚ) : SGD.Config LabeledPoint :=
  ⟨m.gradientFunc, lr, m.lambda, (parts.map List.length).sum, m.numFeature + 1⟩

/-- One example's part of the `report_per_round` pass: `prod` starts at the bias
`param_at(num_feature_)` and adds `param_at(fea) * val`; `1 - prod` goes to `loss_agg` when
`prod < 1`. -/
def reportTerm (m : SVM) (P : Vec) (obj : LabeledPoint) : ℚ :=
  let prod := obj.x.foldl (fun prod e => prod + P e.1 * e.2) (P m.numFeature)
  if prod < 1 then 1 - prod else 0

def reportLoss (m : SVM) (parts : List (List LabeledPoint)) (P : Vec) : ℚ :=
  (parts.map fun D => (D.map (reportTerm m P)).sum).sum / (parts.map List.length).sum

inductive Rounds (m : SVM) (parts : List (List LabeledPoint)) (lr : ℚ) :
    ℕ → Vec → Vec → List ℚ → Prop
  | done (P : Vec) : Rounds m parts lr 0 P P []
  | round {n : ℕ} {P P₁ P' : Vec} {ls : List ℚ}
      (h : SGD.UpdateRound (trainConfig m parts lr) P
        (SGD.workers (trainConfig m parts lr) P parts) P₁)
      (hs : Rounds m parts lr n P₁ P' ls) :
      Rounds m parts lr (n + 1) P P'
        ((if m.reportPerRound then [reportLoss m parts P₁] else []) ++ ls)

/-- `SVM::train(data, num_iters, learning_rate)`: the model it leaves and the losses it logs. -/
def Train (m : SVM) (parts : List (List LabeledPoint)) (numIters : ℕ) (lr : ℚ) (m' : SVM)
    (ls : List ℚ) : Prop :=
  ∃ P', Rounds m parts lr numIters m.param P' ls ∧ m' = { m with param := P', trained := true }

variable {m : SVM} {parts : List (List LabeledPoint)} {lr : ℚ}

theorem Rounds.param_eq (hk : parts ≠ []) {n : ℕ} {P P' : Vec} {ls : List ℚ}
    (h : Rounds m parts lr n P P' ls) :
    P' = (SGD.roundMap (trainConfig m parts lr) parts)^[n] P := by
  induction h with
  | done => rfl
  | round h _ ih => rw [ih, ((SGD.result_workers_iff _ hk).1 h).2, Function.iterate_succ_apply]

theorem Rounds.exists (hk : parts ≠ []) (hlr : lr ≠ 0) :
    ∀ (n : ℕ) (P : Vec), ∃ P' ls, Rounds m parts lr n P P' ls
  | 0, P => ⟨P, [], .done P⟩
  | n + 1, P => by
    obtain ⟨P', ls, h⟩ := Rounds.exists hk hlr n (SGD.roundMap (trainConfig m parts lr) parts P)
    exact ⟨P', _, .round ((SGD.result_workers_iff _ hk).2 ⟨hlr, rfl⟩) h⟩

def meanHinge (n : ℕ) (parts : List (List LabeledPoint)) (P : Vec) : ℚ :=
  (parts.map fun D => (D.map fun p => hinge n p P).sum).sum / (parts.map List.length).sum

/-- With `report_per_round` set, one round from zero on the single example `x = (1)`,
`y = -1` logs the loss `3`, while the hinge loss at the parameters it leaves is `0`. -/
theorem train_logs_unlabelled_loss :
    (∃ m' ls, Train { new 1 0 with reportPerRound := true } [[⟨[(0, 1)], -1⟩]] 1 1 m' ls) ∧
    ∀ m' ls, Train { new 1 0 with reportPerRound := true } [[⟨[(0, 1)], -1⟩]] 1 1 m' ls →
      ls = [3] ∧ meanHinge 1 [[⟨[(0, 1)], -1⟩]] m'.param = 0 := by
  refine ⟨?_, ?_⟩
  · obtain ⟨P', ls, h⟩ := @Rounds.exists { new 1 0 with reportPerRound := true } _ 1
      (List.cons_ne_nil _ _) one_ne_zero 1 0
    exact ⟨_, ls, P', h, rfl⟩
  · rintro m' ls ⟨P', h, rfl⟩
    cases h with
    | round h hs =>
      cases hs
      rw [((SGD.result_workers_iff _ (List.cons_ne_nil _ _)).1 h).2]
      norm_num [reportLoss, reportTerm, meanHinge, hinge, SGD.roundMap, SGD.localSGD, new,
        trainConfig, svmGradient, dotWithIntcpt, setAt, resize, scaleBy]

/-- Whatever the interleaving of a round of `SVM::train` on data whose feature indices are below
`num_features`, no update in flight is past the bias index `num_features`, and no stored value
past it changes. -/
theorem train_round_in_bucket (k : ℕ) (lambda lr : ℚ) (parts : List (List LabeledPoint))
    (hfit : ∀ D ∈ parts, ∀ p ∈ D, p.Fits k) (P : Vec) {r : Round (SGD.Worker LabeledPoint)}
    (h : ReflTransGen (Round.Step (SGD.program ((new k lambda).trainConfig parts lr)))
      (Round.init P (SGD.workers ((new k lambda).trainConfig parts lr) P parts)) r) :
    (∀ e ∈ r.inflight, e.1 ≤ k) ∧ ∀ i, k < i → r.combined i = P i := by
  obtain ⟨hin, hc⟩ := Round.reach_frame (SGD.workers_sends_lt _ le_rfl
    fun D hD p hp c g hg => svmGradient_lt (hfit D hD p hp) c g hg) h
  exact ⟨fun e he => Nat.lt_succ_iff.1 (hin e he), hc⟩

theorem train_round_in_bucket_two_workers :
    let parts : List (List LabeledPoint) := [[⟨[(0, 1)], 1⟩], [⟨[(0, 2)], -1⟩]]
    (∀ D ∈ parts, ∀ p ∈ D, p.Fits 1) ∧
      ∀ r, ReflTransGen (Round.Step (SGD.program ((new 1 (1 / 2)).trainConfig parts 1)))
        (Round.init 0 (SGD.workers ((new 1 (1 / 2)).trainConfig parts 1) 0 parts)) r →
        (∀ e ∈ r.inflight, e.1 ≤ 1) ∧ ∀ i, 1 < i → r.combined i = 0 := by
  intro parts
  exact ⟨by decide, fun _ h => train_round_in_bucket 1 (1 / 2) 1 parts (by decide) 0 h⟩

theorem Rounds.logs_eq (hk : parts ≠ []) {n : ℕ} {P P' : Vec} {ls : List ℚ}
    (h : Rounds m parts lr n P P' ls) :
    ls = if m.reportPerRound then (List.range n).map fun t =>
      reportLoss m parts ((SGD.roundMap (trainConfig m parts lr) parts)^[t + 1] P) else [] := by
  induction h with
  | done => split_ifs <;> rfl
  | round h _ ih =>
    rw [ih, ((SGD.result_workers_iff _ hk).1 h).2]
    cases m.reportPerRound
    · rfl
    · rw [if_pos rfl, if_pos rfl, List.range_succ_eq_map, List.map_cons, List.map_map]
      rfl

/-- In every run of `SVM::train`, with `report_per_round` set, the loss logged after round `t`
is the report over the parameters the first `t + 1` rounds leave; without it nothing is
logged. -/
theorem train_logs_eq (m : SVM) (parts : List (List LabeledPoint)) (numIters : ℕ) (lr : ℚ)
    (hk : parts ≠ []) (m' : SVM) (ls : List ℚ) (h : m.Train parts numIters lr m' ls) :
    ls = if m.reportPerRound then (List.range numIters).map fun t =>
      reportLoss m parts ((SGD.roundMap (trainConfig m parts lr) parts)^[t + 1] m.param) else [] := by
  obtain ⟨P', h, -⟩ := h
  exact h.logs_eq hk

theorem train_logs_eq_two_workers :
    let m : SVM := { new 1 (1 / 2) with reportPerRound := true }
    let parts : List (List LabeledPoint) := [[⟨[(0, 1)], -1⟩], [⟨[(0, 2)], 1⟩]]
    parts ≠ [] ∧
      ∀ m' ls, m.Train parts 2 1 m' ls →
        ls = if m.reportPerRound then (List.range 2).map fun t =>
          reportLoss m parts ((SGD.roundMap (trainConfig m parts 1) parts)^[t + 1] m.param)
        else [] := by
  intro m parts
  exact ⟨List.cons_ne_nil _ _, fun m' ls h => train_logs_eq m parts 2 1 (List.cons_ne_nil _ _) m' ls h⟩

end SVM
end Husky
