import Husky.Round
import Mathlib.Algebra.BigOperators.Ring.List
import Mathlib.Tactic.FieldSimp

namespace Husky.SGD
open Relation

structure Config (α : Type) where
  gradientFunc : α → Vec → List Msg
  learningRate : ℚ
  lambda : ℚ
  numGlobalSamples : ℕ
  numParam : ℕ

/-- A worker inside `SGD::update_param`: `current_vec`, the indices `l2_regularize` has still
to visit, the entries of the current example's gradient still to apply, the local examples
`list_execute` has not reached, and `num_local_samples`. -/
structure Worker (α : Type) where
  current : Vec
  reg : List ℕ
  grad : List Msg
  todo : List α
  numLocal : ℕ

variable {α : Type} (cfg : Config α)

def l2Regularize (P : Vec) (i : ℕ) : Msg := (i, -P i * cfg.learningRate * cfg.lambda)

/-- One statement of `update_param` that sends an update or moves to the next example:
first `l2_regularize`, then `list_execute`, whose closure runs the feaval loop over the
gradient of each example taken against `current_vec`. -/
def step (P : Vec) (s : Worker α) : Option (Worker α × Option Msg) :=
  match s.reg, s.grad, s.todo with
  | i :: is, _, _ => some ({ s with reg := is }, some (l2Regularize cfg P i))
  | [], (fea, val) :: es, _ =>
    some ({ s with current := addAt s.current fea (val * cfg.learningRate), grad := es },
      some (fea, val * cfg.learningRate * s.numLocal / cfg.numGlobalSamples))
  | [], [], x :: xs => some ({ s with grad := cfg.gradientFunc x s.current, todo := xs }, none)
  | [], [], [] => none

def applyGrad (nloc : ℕ) : Vec → List Msg → Vec × List Msg
  | c, [] => (c, [])
  | c, (fea, val) :: es =>
    let r := applyGrad nloc (addAt c fea (val * cfg.learningRate)) es
    (r.1, (fea, val * cfg.learningRate * nloc / cfg.numGlobalSamples) :: r.2)

def listExecute (nloc : ℕ) : Vec → List α → Vec × List Msg
  | c, [] => (c, [])
  | c, x :: xs =>
    let r := applyGrad cfg nloc c (cfg.gradientFunc x c)
    let r' := listExecute nloc r.1 xs
    (r'.1, r.2 ++ r'.2)

def sends (P : Vec) (s : Worker α) : List Msg :=
  s.reg.map (l2Regularize cfg P) ++ (applyGrad cfg s.numLocal s.current s.grad).2 ++
    (listExecute cfg s.numLocal (applyGrad cfg s.numLocal s.current s.grad).1 s.todo).2

def Moves (P : Vec) (a b : Worker α) : Prop := ∃ m, step cfg P a = some (b, m)

theorem sends_step {P : Vec} {s s' : Worker α} {m : Option Msg}
    (h : step cfg P s = some (s', m)) : sends cfg P s = m.toList ++ sends cfg P s' := by
  obtain ⟨c, _ | ⟨i, is⟩, _ | ⟨⟨fea, val⟩, es⟩, _ | ⟨x, xs⟩, n⟩ := s <;>
    simp only [step, Option.some.injEq, Prod.mk.injEq, reduceCtorEq] at h <;>
    obtain ⟨rfl, rfl⟩ := h <;> simp [sends, applyGrad, listExecute]

theorem sends_done {P : Vec} {s : Worker α} (h : step cfg P s = none) : sends cfg P s = [] := by
  obtain ⟨c, _ | ⟨i, is⟩, _ | ⟨⟨fea, val⟩, es⟩, _ | ⟨x, xs⟩, n⟩ := s <;>
    simp_all [step, sends, applyGrad, listExecute]

theorem moves_reg (P : Vec) (s : Worker α) : ReflTransGen (Moves cfg P) s { s with reg := [] } := by
  obtain ⟨c, reg, grad, todo, n⟩ := s
  induction reg with
  | nil => exact .refl
  | cons i is ih => exact .head ⟨_, rfl⟩ ih

theorem moves_grad (P c : Vec) (es : List Msg) (xs : List α) (n : ℕ) :
    ReflTransGen (Moves cfg P) ⟨c, [], es, xs, n⟩ ⟨(applyGrad cfg n c es).1, [], [], xs, n⟩ := by
  induction es generalizing c with
  | nil => exact .refl
  | cons e es ih => exact .head ⟨_, rfl⟩ (ih _)

theorem moves_todo (P c : Vec) (xs : List α) (n : ℕ) :
    ReflTransGen (Moves cfg P) ⟨c, [], [], xs, n⟩ ⟨(listExecute cfg n c xs).1, [], [], [], n⟩ := by
  induction xs generalizing c with
  | nil => exact .refl
  | cons x xs ih => exact .head ⟨none, rfl⟩ ((moves_grad cfg P _ _ _ _).trans (ih _))

theorem halts (P : Vec) (s : Worker α) :
    ∃ s', ReflTransGen (Moves cfg P) s s' ∧ step cfg P s' = none :=
  ⟨_, (moves_reg cfg P s).trans ((moves_grad cfg P _ _ _ _).trans (moves_todo cfg P _ _ _)), rfl⟩

def program : Program (Worker α) where
  step := step cfg
  sends := sends cfg
  sends_step := sends_step cfg
  sends_done := sends_done cfg
  halts := halts cfg

def check : Except String Unit :=
  if cfg.learningRate = 0 then .error "Learning rate is set to 0." else .ok ()

/-- A round in which every worker calls `update_param`: its assertions pass, and a run of the
workers reaches the barrier with `P'` stored. -/
def UpdateRound (P : Vec) (ws : List (Worker α)) (P' : Vec) : Prop :=
  check cfg = .ok () ∧ Round.Result (program cfg) P ws P'

theorem check_eq_ok_iff : check cfg = .ok () ↔ cfg.learningRate ≠ 0 := by
  unfold check
  split_ifs with h <;> simp [h]

theorem updateRound_iff {P P' : Vec} {ws : List (Worker α)} :
    UpdateRound cfg P ws P' ↔
      cfg.learningRate ≠ 0 ∧ P' = applyMsgs P (ws.map (sends cfg P)).flatten := by
  rw [UpdateRound, check_eq_ok_iff, Round.result_iff]
  rfl

/-- The local copy `L_w` of the design: from `c`, for each example `x` in order,
`c[j] += lr * v` for every entry `(j, v)` of `g(x, c)`, duplicate indices included. -/
def localSGD (g : α → Vec → List Msg) (lr : ℚ) : Vec → List α → Vec
  | c, [] => c
  | c, x :: xs => localSGD g lr ((g x c).foldl (fun c e => addAt c e.1 (lr * e.2)) c) xs

theorem applyGrad_fst (nloc : ℕ) (c : Vec) (es : List Msg) :
    (applyGrad cfg nloc c es).1 = es.foldl (fun c e => addAt c e.1 (cfg.learningRate * e.2)) c := by
  induction es generalizing c with
  | nil => rfl
  | cons e es ih =>
    obtain ⟨fea, val⟩ := e
    simp [applyGrad, ih, mul_comm]

theorem listExecute_fst (nloc : ℕ) (c : Vec) (xs : List α) :
    (listExecute cfg nloc c xs).1 = localSGD cfg.gradientFunc cfg.learningRate c xs := by
  induction xs generalizing c with
  | nil => rfl
  | cons x xs ih => simp [listExecute, localSGD, ih, applyGrad_fst]

/-- In the feaval loop `current_vec` and the updates sent move together: the updates add
`num_local_samples / num_global_samples` of the progress of the local copy. -/
theorem sumAt_applyGrad (nloc : ℕ) (c : Vec) (es : List Msg) (i : ℕ) :
    sumAt (applyGrad cfg nloc c es).2 i =
      nloc / cfg.numGlobalSamples * ((applyGrad cfg nloc c es).1 i - c i) := by
  induction es generalizing c with
  | nil => simp [applyGrad]
  | cons e es ih =>
    obtain ⟨fea, val⟩ := e
    simp only [applyGrad, sumAt_cons, ih, addAt_apply]
    split_ifs <;> ring

theorem sumAt_listExecute (nloc : ℕ) (c : Vec) (xs : List α) (i : ℕ) :
    sumAt (listExecute cfg nloc c xs).2 i =
      nloc / cfg.numGlobalSamples * ((listExecute cfg nloc c xs).1 i - c i) := by
  induction xs generalizing c with
  | nil => simp [listExecute]
  | cons x xs ih =>
    simp only [listExecute, sumAt_append, ih, sumAt_applyGrad]
    ring

def start (P : Vec) (flag : Bool) (norm : ℕ) (data : List α) : Worker α :=
  ⟨P, if flag && norm == 2 then List.range cfg.numParam else [], [], data, data.length⟩

@[simp] theorem start_reg (P : Vec) (flag : Bool) (norm : ℕ) (data : List α) :
    (start cfg P flag norm data).reg = if flag && norm == 2 then List.range cfg.numParam else [] :=
  rfl

theorem sumAt_l2Regularize (P : Vec) (n i : ℕ) :
    sumAt ((List.range n).map (l2Regularize cfg P)) i =
      if i < n then -P i * cfg.learningRate * cfg.lambda else 0 :=
  sumAt_range_map n _ i

theorem sumAt_sends_start (P : Vec) (flag : Bool) (norm : ℕ) (data : List α) (i : ℕ) :
    sumAt (sends cfg P (start cfg P flag norm data)) i =
      sumAt ((start cfg P flag norm data).reg.map (l2Regularize cfg P)) i + data.length /
        cfg.numGlobalSamples * (localSGD cfg.gradientFunc cfg.learningRate P data i - P i) := by
  simp only [sends, sumAt_append, sumAt_listExecute, listExecute_fst, start, applyGrad]
  simp

/-- The workers of a round as `SVM::train` sets them up: worker `tid` holds `parts[tid]`, and
only the one with `get_global_tid() == 0` has `set_regularization(2, lambda_)`. -/
def workers (P : Vec) (parts : List (List α)) : List (Worker α) :=
  parts.mapIdx fun tid data => start cfg P (tid == 0) 2 data

/-- The round map of the design: the decay `lr * lambda * P` once, plus every worker's share
`|D_w| / N` of its local progress `L_w - P`. -/
def roundMap (parts : List (List α)) (P : Vec) : Vec := fun i =>
  P i - (if i < cfg.numParam then cfg.learningRate * cfg.lambda * P i else 0) +
    (parts.map fun D => (D.length : ℚ) / cfg.numGlobalSamples *
      (localSGD cfg.gradientFunc cfg.learningRate P D i - P i)).sum

theorem applyMsgs_workers (P : Vec) {parts : List (List α)} (hk : parts ≠ []) :
    applyMsgs P ((workers cfg P parts).map (sends cfg P)).flatten = roundMap cfg parts P := by
  obtain ⟨D, Ds, rfl⟩ := List.exists_cons_of_ne_nil hk
  rw [workers, Round.mapIdx_cons_tid_zero (fun b d => start cfg P b 2 d)]
  funext i
  simp only [applyMsgs_apply, sumAt_flatten, List.map_cons, List.map_map,
    List.sum_cons, Function.comp_def, sumAt_sends_start, roundMap, start_reg, Bool.true_and,
    beq_self_eq_true, if_true, Bool.false_and, Bool.false_eq_true, ↓reduceIte, List.map_nil,
    sumAt_nil, zero_add, sumAt_l2Regularize]
  split_ifs <;> ring

theorem result_workers_iff {P P' : Vec} {parts : List (List α)} (hk : parts ≠ []) :
    UpdateRound cfg P (workers cfg P parts) P' ↔
      cfg.learningRate ≠ 0 ∧ P' = roundMap cfg parts P := by
  rw [updateRound_iff, applyMsgs_workers cfg P hk]

end Husky.SGD
