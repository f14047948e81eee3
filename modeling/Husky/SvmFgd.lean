import Husky.SVM

namespace Husky.SvmFgd
open Relation

structure Config where
  numFeatures : ℕ
  penalty : ℚ
  numSamples : ℕ

/-- A worker inside a round of the main loop: its snapshot `bweight`, the indices the decay
loop has still to visit, the updates of the current example still to send, and the local
examples `list_execute` has not reached. -/
structure Worker where
  bweight : Vec
  reg : List ℕ
  pending : List Msg
  todo : List LabeledPoint

section Round

variable (cfg : Config) (eta : ℚ)

/-- The updates the closure of `list_execute` sends for one example, from `bweight`: inside
the margin, `eta * (val * y) / num_samples * C` at each feature, then
`eta * y / num_samples * C` at the bias `num_features`. -/
def exampleMsgs (bweight : Vec) (p : LabeledPoint) : List Msg :=
  if dotWithIntcpt bweight (cfg.numFeatures + 1) p.x * p.y < 1 then
    p.x.map (fun e => (e.1, eta * (e.2 * p.y) / cfg.numSamples * cfg.penalty)) ++
      [(cfg.numFeatures, eta * p.y / cfg.numSamples * cfg.penalty)]
  else []

/-- One statement of a round that sends an update or moves to the next example: on worker 0
the decay `-eta * bweight[idx]` for every `idx < num_features`, then `list_execute`. The
stored values are never read: every read goes to `bweight`. -/
def step (_P : Vec) (s : Worker) : Option (Worker × Option Msg) :=
  match s.reg, s.pending, s.todo with
  | idx :: is, _, _ => some ({ s with reg := is }, some (idx, -eta * s.bweight idx))
  | [], m :: ms, _ => some ({ s with pending := ms }, some m)
  | [], [], p :: ps =>
    some ({ s with pending := exampleMsgs cfg eta s.bweight p, todo := ps }, none)
  | [], [], [] => none

def sends (_P : Vec) (s : Worker) : List Msg :=
  s.reg.map (fun idx => (idx, -eta * s.bweight idx)) ++ s.pending ++
    (s.todo.map (exampleMsgs cfg eta s.bweight)).flatten

def Moves (P : Vec) (a b : Worker) : Prop := ∃ m, step cfg eta P a = some (b, m)

theorem sends_step {P : Vec} {s s' : Worker} {m : Option Msg}
    (h : step cfg eta P s = some (s', m)) : sends cfg eta P s = m.toList ++ sends cfg eta P s' := by
  obtain ⟨b, _ | ⟨i, is⟩, _ | ⟨m, ms⟩, _ | ⟨x, xs⟩⟩ := s <;>
    simp only [step, Option.some.injEq, Prod.mk.injEq, reduceCtorEq] at h <;>
    obtain ⟨rfl, rfl⟩ := h <;> simp [sends]

theorem sends_done {P : Vec} {s : Worker} (h : step cfg eta P s = none) :
    sends cfg eta P s = [] := by
  obtain ⟨b, _ | ⟨i, is⟩, _ | ⟨m, ms⟩, _ | ⟨x, xs⟩⟩ := s <;> simp_all [step, sends]

theorem moves_reg (P : Vec) (s : Worker) :
    ReflTransGen (Moves cfg eta P) s { s with reg := [] } := by
  obtain ⟨b, reg, pending, todo⟩ := s
  induction reg with
  | nil => exact .refl
  | cons i is ih => exact .head ⟨_, rfl⟩ ih

theorem moves_pending (P b : Vec) (ms : List Msg) (xs : List LabeledPoint) :
    ReflTransGen (Moves cfg eta P) ⟨b, [], ms, xs⟩ ⟨b, [], [], xs⟩ := by
  induction ms with
  | nil => exact .refl
  | cons m ms ih => exact .head ⟨_, rfl⟩ ih

theorem moves_todo (P b : Vec) (xs : List LabeledPoint) :
    ReflTransGen (Moves cfg eta P) ⟨b, [], [], xs⟩ ⟨b, [], [], []⟩ := by
  induction xs with
  | nil => exact .refl
  | cons x xs ih => exact .head ⟨none, rfl⟩ ((moves_pending cfg eta P _ _ _).trans ih)

theorem halts (P : Vec) (s : Worker) :
    ∃ s', ReflTransGen (Moves cfg eta P) s s' ∧ step cfg eta P s' = none :=
  ⟨_, (moves_reg cfg eta P s).trans ((moves_pending cfg eta P _ _ _).trans
    (moves_todo cfg eta P _ _)), rfl⟩

def program : Program Worker where
  step := step cfg eta
  sends := sends cfg eta
  sends_step := sends_step cfg eta
  sends_done := sends_done cfg eta
  halts := halts cfg eta

def start (P : Vec) (tid0 : Bool) (data : List LabeledPoint) : Worker :=
  ⟨P, if tid0 then List.range cfg.numFeatures else [], [], data⟩

def workers (P : Vec) (parts : List (List LabeledPoint)) : List Worker :=
  parts.mapIdx fun tid data => start cfg P (tid == 0) data

def roundUpdate (parts : List (List LabeledPoint)) (P : Vec) : Vec := fun i =>
  P i + (if i < cfg.numFeatures then -eta * P i else 0) +
    (parts.flatten.map fun p => sumAt (exampleMsgs cfg eta P p) i).sum

theorem sumAt_sends_start (P : Vec) (tid0 : Bool) (D : List LabeledPoint) (i : ℕ) :
    sumAt (sends cfg eta P (start cfg P tid0 D)) i =
      (if tid0 ∧ i < cfg.numFeatures then -eta * P i else 0) +
        (D.map fun p => sumAt (exampleMsgs cfg eta P p) i).sum := by
  cases tid0 <;> simp [sends, start, sumAt_flatten, Function.comp_def, sumAt_range_map]

theorem result_workers_iff {P P' : Vec} {parts : List (List LabeledPoint)} (hk : parts ≠ []) :
    Round.Result (program cfg eta) P (workers cfg P parts) P' ↔
      P' = roundUpdate cfg eta parts P := by
  obtain ⟨D, Ds, rfl⟩ := List.exists_cons_of_ne_nil hk
  rw [Round.result_iff, workers, Round.mapIdx_cons_tid_zero (start cfg P)]
  refine Eq.congr_right (funext fun i => ?_)
  simp only [program, applyMsgs_apply, sumAt_flatten, sumAt_append, List.map_cons,
    List.map_map, List.sum_cons, Function.comp_def, sumAt_sends_start, roundUpdate,
    List.flatten_cons, List.map_append, List.sum_append, List.map_flatten, List.sum_flatten,
    true_and, Bool.false_eq_true, false_and, if_false, zero_add]
  ring

theorem sumAt_exampleMsgs {P : Vec} {p : LabeledPoint} (hp : p.Fits cfg.numFeatures) (i : ℕ) :
    sumAt (exampleMsgs cfg eta P p) i =
      if p.y * (dot P p.x + P cfg.numFeatures) < 1 then
        eta * (cfg.penalty / cfg.numSamples) * (p.y *
          if i < cfg.numFeatures then sumAt p.x i else if i = cfg.numFeatures then 1 else 0)
      else 0 := by
  have hm : dotWithIntcpt P (cfg.numFeatures + 1) p.x * p.y = p.y * (dot P p.x + P cfg.numFeatures) := by
    rw [dotWithIntcpt, Nat.add_sub_cancel, mul_comm]
  have hmsg : p.x.map (fun e => (e.1, eta * (e.2 * p.y) / cfg.numSamples * cfg.penalty)) =
      scaleBy p.x (eta * p.y / cfg.numSamples * cfg.penalty) :=
    List.map_congr_left fun e _ => by simp only [Prod.mk.injEq, true_and]; ring
  rw [exampleMsgs, hm]
  split_ifs with h hi hi'
  · rw [hmsg, sumAt_append, sumAt_scaleBy, sumAt_cons, if_neg hi.ne, sumAt_nil]
    ring
  · rw [hmsg, sumAt_append, sumAt_scaleBy, sumAt_cons, if_pos hi', sumAt_eq_zero_of_le hp hi'.ge]
    simp
    ring
  · rw [hmsg, sumAt_append, sumAt_scaleBy, sumAt_cons, if_neg hi',
      sumAt_eq_zero_of_le hp (not_lt.1 hi)]
    simp
  · rfl

theorem workers_sends_lt {P : Vec} {parts : List (List LabeledPoint)}
    (hfit : ∀ D ∈ parts, ∀ p ∈ D, p.Fits cfg.numFeatures) :
    ∀ e ∈ ((workers cfg P parts).map (sends cfg eta P)).flatten, e.1 < cfg.numFeatures + 1 := by
  intro e he
  obtain ⟨_, hl, he⟩ := List.mem_flatten.1 he
  obtain ⟨s, hs, rfl⟩ := List.mem_map.1 hl
  obtain ⟨t, ht, rfl⟩ := List.mem_mapIdx.1 hs
  simp only [sends, start, List.mem_append, List.mem_map, List.mem_flatten] at he
  rcases he with (⟨j, hj, rfl⟩ | he) | ⟨_, ⟨p, hp, rfl⟩, he⟩
  · have := (List.mem_ite_nil_right.1 hj).2
    simp only [List.mem_range] at this
    omega
  · simp at he
  · rw [exampleMsgs] at he
    split_ifs at he
    · rcases List.mem_append.1 he with he | he
      · obtain ⟨e', he', rfl⟩ := List.mem_map.1 he
        exact (hfit _ (List.getElem_mem _) p hp e' he').trans (Nat.lt_succ_self _)
      · simp [List.mem_singleton.1 he]
    · simp at he

end Round

/-- Round `t` of the sequential full-gradient-descent reference of the design:
`eta_t = 1 / (t + 1)`, `V_t` the examples inside the margin, the weights decayed by
`1 - eta_t` and the bias not. -/
def refStep (S : List LabeledPoint) (n : ℕ) (C : ℚ) (t : ℕ) (P : Vec) : Vec := fun i =>
  let eta : ℚ := 1 / ((t : ℚ) + 1)
  let V := S.filter fun p => p.y * (dot P p.x + P n) < 1
  if i < n then (1 - eta) * P i + eta * (C / S.length) * (V.map fun p => p.y * sumAt p.x i).sum
  else if i = n then P i + eta * (C / S.length) * (V.map fun p => p.y).sum
  else P i

def reference (S : List LabeledPoint) (n : ℕ) (C : ℚ) : ℕ → Vec
  | 0 => 0
  | t + 1 => refStep S n C t (reference S n C t)

def config (numFeatures : ℕ) (C : ℚ) (parts : List (List LabeledPoint)) : Config :=
  ⟨numFeatures, C, (parts.map List.length).sum⟩

/-- The loss the program logs after a round from the snapshot `bweight`: `loss_agg` adds
`1 - prod` for every example inside the margin, and is divided by `num_samples`. -/
def roundLoss (cfg : Config) (parts : List (List LabeledPoint)) (bweight : Vec) : ℚ :=
  (parts.map fun D => (D.map fun p =>
    let prod := dotWithIntcpt bweight (cfg.numFeatures + 1) p.x * p.y
    if prod < 1 then 1 - prod else 0).sum).sum / cfg.numSamples

inductive Loop (cfg : Config) (parts : List (List LabeledPoint)) :
    ℕ → ℕ → Vec → Vec → List ℚ → Prop
  | done (i : ℕ) (P : Vec) : Loop cfg parts i 0 P P []
  | round {i k : ℕ} {P P₁ P' : Vec} {ls : List ℚ}
      (h : Round.Result (program cfg (1 / ((i : ℚ) + 1))) P (workers cfg P parts) P₁)
      (hs : Loop cfg parts (i + 1) k P₁ P' ls) :
      Loop cfg parts i (k + 1) P P' (roundLoss cfg parts P :: ls)

/-- The main loop of `svm<is_sparse>()`: `num_iter` rounds from the zero parameters of
`ParameterBucket(num_features + 1)`, with the losses they log. -/
def MainLoop (numFeatures : ℕ) (C : ℚ) (parts : List (List LabeledPoint)) (numIter : ℕ)
    (P' : Vec) (ls : List ℚ) : Prop :=
  Loop (config numFeatures C parts) parts 0 numIter 0 P' ls

variable {S : List LabeledPoint} {parts : List (List LabeledPoint)} {n : ℕ} {C : ℚ}

/-- Whatever the split and the order of the examples, a round is the reference's round. -/
theorem roundUpdate_eq_refStep (t : ℕ) (hS : parts.flatten.Perm S) (hfit : ∀ p ∈ S, p.Fits n)
    (P : Vec) : roundUpdate (config n C parts) (1 / ((t : ℚ) + 1)) parts P = refStep S n C t P := by
  have hN : (((config n C parts).numSamples : ℕ) : ℚ) = S.length := by
    rw [config, ← hS.length_eq, List.length_flatten]
  funext i
  rw [roundUpdate, (hS.map _).sum_eq,
    List.map_congr_left fun p hp => sumAt_exampleMsgs (config n C parts) _ (hfit p hp) i,
    sum_map_ite_eq_filter, List.sum_map_mul_left, hN]
  simp only [refStep, config]
  rcases lt_trichotomy i n with hi | rfl | hi
  · simp only [hi, if_true]
    ring
  · simp
  · simp [hi.ne', not_lt.2 hi.le]

/-- Whatever the interleaving of a round of the main loop on data whose feature indices are below
`num_features`, no update in flight is past the bias index `num_features`, and no stored value
past it changes. -/
theorem round_in_bucket (n : ℕ) (C eta : ℚ) (parts : List (List LabeledPoint))
    (hfit : ∀ D ∈ parts, ∀ p ∈ D, p.Fits n) (P : Vec) {r : Round Worker}
    (h : ReflTransGen (Round.Step (program (config n C parts) eta))
      (Round.init P (workers (config n C parts) P parts)) r) :
    (∀ e ∈ r.inflight, e.1 ≤ n) ∧ ∀ i, n < i → r.combined i = P i := by
  obtain ⟨hin, hc⟩ := Round.reach_frame (workers_sends_lt (config n C parts) eta hfit) h
  exact ⟨fun e he => Nat.lt_succ_iff.1 (hin e he), hc⟩

theorem round_in_bucket_two_workers :
    let parts : List (List LabeledPoint) := [[⟨[(0, 1)], 1⟩], [⟨[(0, 2)], -1⟩]]
    (∀ D ∈ parts, ∀ p ∈ D, p.Fits 1) ∧
      ∀ r, ReflTransGen (Round.Step (program (config 1 1 parts) 1))
        (Round.init 0 (workers (config 1 1 parts) 0 parts)) r →
        (∀ e ∈ r.inflight, e.1 ≤ 1) ∧ ∀ i, 1 < i → r.combined i = 0 := by
  intro parts
  exact ⟨by decide, fun _ h => round_in_bucket 1 1 1 parts (by decide) 0 h⟩

theorem round_eq_reference (hk : parts ≠ []) (hS : parts.flatten.Perm S)
    (hfit : ∀ p ∈ S, p.Fits n) {t : ℕ} {P₁ : Vec}
    (h : Round.Result (program (config n C parts) (1 / ((t : ℚ) + 1))) (reference S n C t)
      (workers (config n C parts) (reference S n C t) parts) P₁) :
    P₁ = reference S n C (t + 1) := by
  rw [(result_workers_iff _ _ hk).1 h, roundUpdate_eq_refStep t hS hfit]
  rfl

theorem Loop.eq_reference (hk : parts ≠ []) (hS : parts.flatten.Perm S) (hfit : ∀ p ∈ S, p.Fits n)
    {i k : ℕ} {P P' : Vec} {ls : List ℚ} (h : Loop (config n C parts) parts i k P P' ls)
    (hP : P = reference S n C i) : P' = reference S n C (i + k) := by
  induction h with
  | done => simpa using hP
  | round h _ ih =>
    subst hP
    rw [ih (round_eq_reference hk hS hfit h), Nat.add_right_comm, Nat.add_assoc]

theorem roundLoss_eq_meanHinge (P : Vec) :
    roundLoss (config n C parts) parts P = SVM.meanHinge n parts P := by
  simp only [roundLoss, SVM.meanHinge, config, hinge, dotWithIntcpt, Nat.add_sub_cancel]
  congr 2
  refine List.map_congr_left fun D _ => congrArg List.sum (List.map_congr_left fun p _ => ?_)
  rw [mul_comm]
  split_ifs with h
  · exact (max_eq_right (by linarith)).symm
  · exact (max_eq_left (by linarith)).symm

theorem Loop.logs_eq (hk : parts ≠ []) (hS : parts.flatten.Perm S) (hfit : ∀ p ∈ S, p.Fits n)
    {i k : ℕ} {P P' : Vec} {ls : List ℚ} (h : Loop (config n C parts) parts i k P P' ls)
    (hP : P = reference S n C i) :
    ls = (List.range k).map fun j => SVM.meanHinge n parts (reference S n C (i + j)) := by
  induction h with
  | done => rfl
  | @round i k P P₁ P' ls h _ ih =>
    subst hP
    rw [ih (round_eq_reference hk hS hfit h), roundLoss_eq_meanHinge, List.range_succ_eq_map,
      List.map_cons, List.map_map]
    congr 1
    exact List.map_congr_left fun j _ => by
      rw [Function.comp_apply, Nat.add_right_comm i 1 j]; rfl

theorem Loop.exists (hk : parts ≠ []) (cfg : Config) :
    ∀ (k i : ℕ) (P : Vec), ∃ P' ls, Loop cfg parts i k P P' ls
  | 0, i, P => ⟨P, [], .done i P⟩
  | k + 1, i, P => by
    obtain ⟨P', ls, h⟩ :=
      Loop.exists hk cfg k (i + 1) (roundUpdate cfg (1 / ((i : ℚ) + 1)) parts P)
    exact ⟨P', _, .round ((result_workers_iff _ _ hk).2 rfl) h⟩

/-- For every split of the training set over the workers, in any order, and every run of each
round, the main loop leaves the sequential full-gradient-descent reference. -/
theorem main_loop_eq_reference (S : List LabeledPoint) (parts : List (List LabeledPoint))
    (n : ℕ) (C : ℚ) (numIter : ℕ) (hk : parts ≠ []) (hS : parts.flatten.Perm S)
    (hfit : ∀ p ∈ S, p.Fits n) :
    (∃ P' ls, MainLoop n C parts numIter P' ls) ∧
      ∀ P' ls, MainLoop n C parts numIter P' ls → P' = reference S n C numIter :=
  ⟨Loop.exists hk _ numIter 0 0, fun _ _ h => by
    simpa using Loop.eq_reference hk hS hfit h rfl⟩

theorem main_loop_eq_reference_two_workers :
    let p₁ : LabeledPoint := ⟨[(0, 1)], 1⟩
    let p₂ : LabeledPoint := ⟨[(0, 2)], -1⟩
    [[p₁], [p₂]] ≠ [] ∧ [[p₁], [p₂]].flatten.Perm [p₂, p₁] ∧ (∀ p ∈ [p₂, p₁], p.Fits 1) ∧
      ∀ P' ls, MainLoop 1 1 [[p₁], [p₂]] 2 P' ls → P' = reference [p₂, p₁] 1 1 2 := by
  intro p₁ p₂
  exact ⟨List.cons_ne_nil _ _, .swap p₂ p₁ [], by decide,
    (main_loop_eq_reference [p₂, p₁] [[p₁], [p₂]] 1 1 2 (List.cons_ne_nil _ _) (.swap p₂ p₁ [])
      (by decide)).2⟩

/-- In every run of the main loop, round `t` logs the mean hinge loss, label included, of the
reference's parameters `(w_t, b_t)` it starts from. -/
theorem main_loop_logs_mean_hinge (S : List LabeledPoint) (parts : List (List LabeledPoint))
    (n : ℕ) (C : ℚ) (numIter : ℕ) (hk : parts ≠ []) (hS : parts.flatten.Perm S)
    (hfit : ∀ p ∈ S, p.Fits n) (P' : Vec) (ls : List ℚ) (h : MainLoop n C parts numIter P' ls) :
    ls = (List.range numIter).map fun t => SVM.meanHinge n parts (reference S n C t) := by
  simpa using Loop.logs_eq hk hS hfit h rfl

theorem main_loop_logs_mean_hinge_two_workers :
    let p₁ : LabeledPoint := ⟨[(0, 1)], 1⟩
    let p₂ : LabeledPoint := ⟨[(0, 2)], -1⟩
    [[p₁], [p₂]] ≠ [] ∧ [[p₁], [p₂]].flatten.Perm [p₂, p₁] ∧ (∀ p ∈ [p₂, p₁], p.Fits 1) ∧
      ∀ P' ls, MainLoop 1 1 [[p₁], [p₂]] 2 P' ls →
        ls = (List.range 2).map fun t => SVM.meanHinge 1 [[p₁], [p₂]] (reference [p₂, p₁] 1 1 t) := by
  intro p₁ p₂
  exact ⟨List.cons_ne_nil _ _, .swap p₂ p₁ [], by decide, fun P' ls h =>
    main_loop_logs_mean_hinge [p₂, p₁] [[p₁], [p₂]] 1 1 2 (List.cons_ne_nil _ _) (.swap p₂ p₁ [])
      (by decide) P' ls h⟩

/-- One example of the test pass: `indicator` sums `bweight[fea] * val`, adds the bias
`bweight[num_features]` and is multiplied by `y`; `error_agg` counts it when
`indicator < 0`. -/
def testError (numFeatures : ℕ) (p : LabeledPoint) (bweight : Vec) : ℚ :=
  let indicator :=
    (p.x.foldl (fun ind e => ind + bweight e.1 * e.2) 0 + bweight numFeatures) * p.y
  if indicator < 0 then 1 else 0

def testErrorRate (numFeatures : ℕ) (test : List (List LabeledPoint)) (bweight : Vec) : ℚ :=
  avgError (testError numFeatures) test bweight

theorem testError_eq (n : ℕ) (p : LabeledPoint) (P : Vec) :
    testError n p P = if p.y * (dot P p.x + P n) < 0 then 1 else 0 := by
  simp only [testError, foldl_add_dot, zero_add]
  rw [mul_comm]

theorem testErrorRate_eq (n : ℕ) (test : List (List LabeledPoint)) (P : Vec) :
    testErrorRate n test P =
      ((test.flatten.filter fun p => p.y * (dot P p.x + P n) < 0).length : ℚ) /
        test.flatten.length :=
  avgError_indicator _ _ _ _ (testError_eq n · P)

theorem length_filter_nonpos (l : List LabeledPoint) (m : LabeledPoint → ℚ) :
    (l.filter fun p => m p ≤ 0).length =
      (l.filter fun p => m p < 0).length + (l.filter fun p => m p = 0).length := by
  induction l with
  | nil => rfl
  | cons p l ih =>
    rcases lt_trichotomy (m p) 0 with h | h | h
    · simp [List.filter_cons, h.le, h, h.ne, ih]
      omega
    · simp [List.filter_cons, h, ih]
      omega
    · simp [List.filter_cons, not_le.2 h, not_lt.2 h.le, h.ne', ih]

/-- `avg_error` with SVM's `error_func_` exceeds the logged rate by the fraction of test
examples on the boundary `y·(w·x + b) = 0`. -/
theorem avgError_sub_testErrorRate (n : ℕ) (test : List (List LabeledPoint))
    (hfit : ∀ p ∈ test.flatten, p.Fits n) (P : Vec) :
    avgError (svmError (n + 1)) test P - testErrorRate n test P =
      ((test.flatten.filter fun p => p.y * (dot P p.x + P n) = 0).length : ℚ) /
        test.flatten.length := by
  rw [avgError_svmError, testErrorRate_eq, ← sub_div, length_filter_nonpos]
  push_cast
  ring

theorem avgError_sub_testErrorRate_two_points :
    let test : List (List LabeledPoint) := [[⟨[(0, 1)], 1⟩], [⟨[(0, -1)], 1⟩]]
    (∀ p ∈ test.flatten, p.Fits 1) ∧
      avgError (svmError (1 + 1)) test 1 - testErrorRate 1 test 1 =
        ((test.flatten.filter fun p => p.y * (dot 1 p.x + (1 : Vec) 1) = 0).length : ℚ) /
          test.flatten.length := by
  intro test
  exact ⟨by decide, avgError_sub_testErrorRate 1 test (by decide) 1⟩

/-- After one round on the training example `x = (1)`, `y = 1`, the parameters are
`(w, b) = (1, 1)`; the test example `x = (-1)`, `y = 1` lies on the boundary, and the program
logs the error rate `0` where `avg_error` gives `1`. -/
theorem test_error_misses_boundary :
    (∃ P' ls, MainLoop 1 1 [[⟨[(0, 1)], 1⟩]] 1 P' ls) ∧
    ∀ P' ls, MainLoop 1 1 [[⟨[(0, 1)], 1⟩]] 1 P' ls →
      testErrorRate 1 [[⟨[(0, -1)], 1⟩]] P' = 0 ∧
        avgError (svmError 2) [[⟨[(0, -1)], 1⟩]] P' = 1 := by
  refine ⟨Loop.exists (List.cons_ne_nil _ _) _ 1 0 0, fun P' ls h => ?_⟩
  have hS : [[(⟨[(0, 1)], 1⟩ : LabeledPoint)]].flatten.Perm [⟨[(0, 1)], 1⟩] := .refl _
  have hP := Loop.eq_reference (List.cons_ne_nil _ _) hS (by decide) h rfl
  subst hP
  norm_num [testErrorRate, avgError, testError, svmError, reference, refStep]

end Husky.SvmFgd
