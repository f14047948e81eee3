import Husky.Model
import Mathlib.Tactic.NormNum

namespace Husky

/-- A `Regression` model with the fields `train` and `train_test` read and write: the size of
`param_list_`, its values, `gradient_func_` and `error_func_` (`none` while unset),
`report_per_round` and `trained_`. -/
structure Regression (α : Type) where
  numParam : ℕ
  param : Vec
  gradientFunc : Option (α → Vec → List Msg)
  errorFunc : Option (α → Vec → ℚ)
  reportPerRound : Bool
  trained : Bool

namespace Regression

variable {α : Type}

def check (m : Regression α) : Except String ((α → Vec → List Msg) × (α → Vec → ℚ)) :=
  if m.numParam = 0 then .error "The number of parameters is 0." else
  match m.gradientFunc, m.errorFunc with
  | none, _ => .error "Gradient function is not specified."
  | some _, none => .error "Error function is not specified."
  | some g, some err => .ok (g, err)

/-- The loop of `train_test` at round `round` with `pastError`, `left` rounds before `iters`:
`update` is one `gd.update_param` and `heldOut` is `avg_error(Test)`. Returns the parameters
and the held-out error computed after each `update_param` call. -/
def trainTestLoop (update : Vec → Vec) (heldOut : Vec → ℚ) :
    ℕ → ℕ → ℚ → Vec → Vec × List ℚ
  | 0, _, _, P => (P, [])
  | left + 1, round, pastError, P =>
    let currentError := heldOut (update P)
    if currentError = 0 ∨ (round ≠ 0 ∧ currentError > pastError) then
      (update P, [currentError])
    else
      let r := trainTestLoop update heldOut left (round + 1) currentError (update P)
      (r.1, currentError :: r.2)

/-- `train_test(data, Test, iters, learning_rate)` with the optimizer `GD`: `GD g lr data` is
`gd.update_param(data, param_list_, num_samples)` for the `gd` built from `gradient_func_`
and the learning rate. Gives the model and the held-out errors, or the failed assertion. -/
def trainTest (m : Regression α) (GD : (α → Vec → List Msg) → ℚ → List (List α) → Vec → Vec)
    (data test : List (List α)) (iters : ℕ) (lr : ℚ) : Except String (Regression α × List ℚ) :=
  match m.check with
  | .error msg => .error msg
  | .ok (g, err) =>
    let r := trainTestLoop (GD g lr data) (avgError err test) iters 0 0 m.param
    .ok ({ m with param := r.1, trained := true }, r.2)

def trainLoop (update : Vec → Vec) (report : Bool) (trainError : Vec → ℚ) :
    ℕ → Vec → Vec × List ℚ
  | 0, P => (P, [])
  | iters + 1, P =>
    let r := trainLoop update report trainError iters (update P)
    (r.1, (if report then [trainError (update P)] else []) ++ r.2)

def train (m : Regression α) (GD : (α → Vec → List Msg) → ℚ → List (List α) → Vec → Vec)
    (data : List (List α)) (iters : ℕ) (lr : ℚ) : Except String (Regression α × List ℚ) :=
  match m.check with
  | .error msg => .error msg
  | .ok (g, err) =>
    let r := trainLoop (GD g lr data) m.reportPerRound (avgError err data) iters m.param
    .ok ({ m with param := r.1, trained := true }, r.2)

theorem trainLoop_eq (update : Vec → Vec) (report : Bool) (trainError : Vec → ℚ) :
    ∀ iters P, trainLoop update report trainError iters P =
      (update^[iters] P,
        if report then (List.range iters).map fun j => trainError (update^[j + 1] P) else [])
  | 0, P => by cases report <;> rfl
  | iters + 1, P => by
    rw [trainLoop, trainLoop_eq update report trainError iters (update P)]
    cases report
    · rfl
    · rw [if_pos rfl, if_pos rfl, List.range_succ_eq_map, List.map_cons, List.map_map]
      rfl

theorem check_of_isSome {m : Regression α} {g : α → Vec → List Msg} {err : α → Vec → ℚ}
    (hp : 0 < m.numParam) (hg : m.gradientFunc = some g) (he : m.errorFunc = some err) :
    m.check = .ok (g, err) := by
  simp [check, Nat.pos_iff_ne_zero.1 hp, hg, he]

/-- Round `r` stops the loop: its held-out error is zero, or, after the first round, above
the one before. -/
def Stops (e : ℕ → ℚ) (r : ℕ) : Prop := e r = 0 ∨ (2 ≤ r ∧ e (r - 1) < e r)

def FirstStop (e : ℕ → ℚ) (s : ℕ) : Prop :=
  1 ≤ s ∧ Stops e s ∧ ∀ r, 1 ≤ r → r < s → ¬ Stops e r

/-- What a run of the `train_test` loop from round `round` with `left` rounds to go may return,
on the trajectory `traj` of parameters with held-out errors `e`: the errors of the rounds it
ran, the parameters after the last of them, no stop before its end, and a stop at its end
when it ends early. -/
structure LoopOutcome (e : ℕ → ℚ) (traj : ℕ → Vec) (left round : ℕ) (r : Vec × List ℚ) :
    Prop where
  errors : r.2 = (List.range r.2.length).map fun j => e (round + j + 1)
  param : r.1 = traj (round + r.2.length)
  length_le : r.2.length ≤ left
  no_stop : ∀ k, round < k → k < round + r.2.length → ¬ Stops e k
  early_stop : r.2.length < left → 0 < r.2.length ∧ Stops e (round + r.2.length)

namespace LoopOutcome

variable {e : ℕ → ℚ} {traj : ℕ → Vec} {left round : ℕ}

theorem nil : LoopOutcome e traj 0 round (traj round, []) :=
  ⟨rfl, rfl, le_rfl, fun k hk hk' => by simp at hk'; omega, fun h => absurd h (Nat.lt_irrefl 0)⟩

theorem stop (h : Stops e (round + 1)) :
    LoopOutcome e traj (left + 1) round (traj (round + 1), [e (round + 1)]) :=
  ⟨rfl, rfl, Nat.le_add_left 1 left, fun k hk hk' => by simp at hk'; omega,
    fun _ => ⟨Nat.one_pos, h⟩⟩

theorem cons {r : Vec × List ℚ} (hr : LoopOutcome e traj left (round + 1) r)
    (h : ¬ Stops e (round + 1)) :
    LoopOutcome e traj (left + 1) round (r.1, e (round + 1) :: r.2) where
  errors := by
    dsimp only
    conv_lhs => rw [hr.errors]
    rw [List.length_cons, List.range_succ_eq_map, List.map_cons, List.map_map]
    congr 1
    exact List.map_congr_left fun j _ => by rw [Function.comp_apply, Nat.add_right_comm round 1 j]; rfl
  param := by rw [hr.param, List.length_cons, Nat.add_right_comm round 1]; rfl
  length_le := by simpa using hr.length_le
  no_stop k hk hk' := by
    rcases Nat.lt_or_ge (round + 1) k with hk1 | hk1
    · exact hr.no_stop k hk1 (by simpa [Nat.add_right_comm round 1] using hk')
    · obtain rfl : k = round + 1 := by omega
      exact h
  early_stop hl := by
    have := (hr.early_stop (by simpa using hl)).2
    rw [List.length_cons]
    exact ⟨by omega, by rwa [show round + 1 + r.2.length = round + (r.2.length + 1) by omega]
      at this⟩

end LoopOutcome

section Loop

variable (update : Vec → Vec) (heldOut : Vec → ℚ) {traj : ℕ → Vec}
  (htraj : ∀ r, traj (r + 1) = update (traj r))

include htraj in
/-- The loop from round `round`, with the parameters `traj round` after `round` updates and
the error of the last of them in `pastError`, has an outcome of the loop: its test
`round != 0 && currentError > pastError` is the rise of the error. -/
theorem trainTestLoop_spec : ∀ (left round : ℕ) (pastError : ℚ),
    (round ≠ 0 → pastError = heldOut (traj round)) →
    LoopOutcome (heldOut ∘ traj) traj left round
      (trainTestLoop update heldOut left round pastError (traj round))
  | 0, round, pastError, _ => .nil
  | left + 1, round, pastError, hpast => by
    have hstop : (heldOut (traj (round + 1)) = 0 ∨
        (round ≠ 0 ∧ heldOut (traj (round + 1)) > pastError)) ↔
        Stops (heldOut ∘ traj) (round + 1) := by
      rcases Nat.eq_zero_or_pos round with rfl | h0
      · simp [Stops]
      · simp [Stops, hpast h0.ne', h0.ne', show 2 ≤ round + 1 by omega]
    simp only [trainTestLoop, ← htraj]
    split_ifs with h
    · exact .stop (hstop.1 h)
    · exact (trainTestLoop_spec left (round + 1) _ fun _ => rfl).cons (hstop.not.1 h)

end Loop

section Stopping

variable {e : ℕ → ℚ} {len iters : ℕ}

theorem eq_min_of_firstStop (hle : len ≤ iters)
    (hnot : ∀ r, 1 ≤ r → r < len → ¬ Stops e r) (hlast : len < iters → 1 ≤ len ∧ Stops e len)
    {s : ℕ} (hs : FirstStop e s) : len = min iters s := by
  obtain ⟨hs1, hss, hmin⟩ := hs
  have hsl : ¬ s < len := fun h => hnot s hs1 h hss
  rcases Nat.lt_or_ge len iters with h | h
  · obtain ⟨hl1, hls⟩ := hlast h
    have : ¬ len < s := fun h' => hmin len hl1 h' hls
    omega
  · omega

theorem eq_of_never_stops (hle : len ≤ iters) (hlast : len < iters → 1 ≤ len ∧ Stops e len)
    (hns : ∀ r, 1 ≤ r → ¬ Stops e r) : len = iters := by
  by_contra h
  obtain ⟨h1, h2⟩ := hlast (by omega)
  exact hns len h1 h2

theorem ne_zero_and_le_of_not_stops {r : ℕ} (h : ¬ Stops e r) :
    e r ≠ 0 ∧ (2 ≤ r → e r ≤ e (r - 1)) := by
  simp only [Stops, not_or, not_and, not_lt] at h
  exact h

end Stopping

/-- `train_test` with every field set runs `update_param` until the first round whose
held-out error is zero or above the one before, or `iters` times if that comes first: the
errors it computes are those of these rounds, none of them zero before the last, and not
increasing; the model is then trained. -/
theorem trainTest_early_stop (m : Regression α) {g : α → Vec → List Msg}
    {err : α → Vec → ℚ} (GD : (α → Vec → List Msg) → ℚ → List (List α) → Vec → Vec)
    (data test : List (List α)) (iters : ℕ) (lr : ℚ)
    (hp : 0 < m.numParam) (hg : m.gradientFunc = some g) (he : m.errorFunc = some err) :
    let e : ℕ → ℚ := fun r => avgError err test ((GD g lr data)^[r] m.param)
    ∃ m' errs, m.trainTest GD data test iters lr = .ok (m', errs) ∧ m'.trained = true ∧
      m'.param = (GD g lr data)^[errs.length] m.param ∧
      errs = (List.range errs.length).map (fun j => e (j + 1)) ∧
      (∀ s, FirstStop e s → errs.length = min iters s) ∧
      ((∀ r, 1 ≤ r → ¬ Stops e r) → errs.length = iters) ∧
      (∀ r, 1 ≤ r → r < errs.length → e r ≠ 0) ∧
      (∀ r, 2 ≤ r → r < errs.length → e r ≤ e (r - 1)) := by
  intro e
  obtain ⟨herrs, hP, hle, hnot, hlast⟩ :=
    @trainTestLoop_spec (GD g lr data) (avgError err test) (fun r => (GD g lr data)^[r] m.param)
      (fun r => Function.iterate_succ_apply' _ r _) iters 0 0 (fun h => absurd rfl h)
  simp only [Nat.zero_add, Function.iterate_zero_apply] at herrs hP hle hnot hlast
  have hnot' : ∀ r, 1 ≤ r → r < _ → ¬ Stops e r := hnot
  refine ⟨{ m with param := _, trained := true }, _,
    by simp only [trainTest, check_of_isSome hp hg he], rfl, hP, herrs,
    fun s hs => eq_min_of_firstStop hle hnot' hlast hs, eq_of_never_stops hle hlast,
    fun r h1 h2 => (ne_zero_and_le_of_not_stops (hnot' r h1 h2)).1,
    fun r h1 h2 => (ne_zero_and_le_of_not_stops (hnot' r (by omega) h2)).2 h1⟩

theorem trainTest_early_stop_counter :
    let m : Regression Unit := ⟨1, 0, some fun _ _ => [],
      some fun _ P => if P 0 = 1 then 1 / 2 else if P 0 = 2 then 3 / 10 else 2 / 5, false, false⟩
    let GD : (Unit → Vec → List Msg) → ℚ → List (List Unit) → Vec → Vec :=
      fun _ _ _ P => addAt P 0 1
    let e : ℕ → ℚ := fun r => avgError (fun _ P => if P 0 = 1 then 1 / 2 else
      if P 0 = 2 then 3 / 10 else 2 / 5) [[()]] ((GD (fun _ _ => []) 1 [[()]])^[r] m.param)
    0 < m.numParam ∧ m.gradientFunc = some (fun _ _ => []) ∧
      m.errorFunc = some (fun _ P => if P 0 = 1 then 1 / 2 else if P 0 = 2 then 3 / 10 else 2 / 5) ∧
      ∃ m' errs, m.trainTest GD [[()]] [[()]] 5 1 = .ok (m', errs) ∧ m'.trained = true ∧
        m'.param = (GD (fun _ _ => []) 1 [[()]])^[errs.length] m.param ∧
        errs = (List.range errs.length).map (fun j => e (j + 1)) ∧
        (∀ s, FirstStop e s → errs.length = min 5 s) ∧
        ((∀ r, 1 ≤ r → ¬ Stops e r) → errs.length = 5) ∧
        (∀ r, 1 ≤ r → r < errs.length → e r ≠ 0) ∧
        (∀ r, 2 ≤ r → r < errs.length → e r ≤ e (r - 1)) :=
  ⟨Nat.one_pos, rfl, rfl, trainTest_early_stop _ _ _ _ _ _ Nat.one_pos rfl rfl⟩

/-- `train_test` leaves the model `train` leaves after as many rounds as `train_test` ran: the
first round that stops it, or `iters` when that comes first or no round stops it. -/
theorem trainTest_model_eq_train (m : Regression α) {g : α → Vec → List Msg}
    {err : α → Vec → ℚ} (GD : (α → Vec → List Msg) → ℚ → List (List α) → Vec → Vec)
    (data test : List (List α)) (iters : ℕ) (lr : ℚ)
    (hp : 0 < m.numParam) (hg : m.gradientFunc = some g) (he : m.errorFunc = some err) :
    let e : ℕ → ℚ := fun r => avgError err test ((GD g lr data)^[r] m.param)
    (∀ s, FirstStop e s → (m.trainTest GD data test iters lr).map Prod.fst =
      (m.train GD data (min iters s) lr).map Prod.fst) ∧
    ((∀ r, 1 ≤ r → ¬ Stops e r) → (m.trainTest GD data test iters lr).map Prod.fst =
      (m.train GD data iters lr).map Prod.fst) := by
  intro e
  obtain ⟨-, hP, hle, hnot, hlast⟩ :=
    @trainTestLoop_spec (GD g lr data) (avgError err test) (fun r => (GD g lr data)^[r] m.param)
      (fun r => Function.iterate_succ_apply' _ r _) iters 0 0 (fun h => absurd rfl h)
  simp only [Nat.zero_add, Function.iterate_zero_apply] at hP hle hnot hlast
  have hnot' : ∀ r, 1 ≤ r → r < _ → ¬ Stops e r := hnot
  have hrun : ∀ k, (trainTestLoop (GD g lr data) (avgError err test) iters 0 0 m.param).2.length = k →
      (m.trainTest GD data test iters lr).map Prod.fst = (m.train GD data k lr).map Prod.fst := by
    rintro k rfl
    simp only [trainTest, train, check_of_isSome hp hg he, trainLoop_eq, Except.map, hP]
  exact ⟨fun s hs => hrun _ (eq_min_of_firstStop hle hnot' hlast hs),
    fun hns => hrun _ (eq_of_never_stops hle hlast hns)⟩

theorem trainTest_model_eq_train_counter :
    let m : Regression Unit := ⟨1, 0, some fun _ _ => [],
      some fun _ P => if P 0 = 1 then 1 / 2 else if P 0 = 2 then 3 / 10 else 2 / 5, false, false⟩
    let GD : (Unit → Vec → List Msg) → ℚ → List (List Unit) → Vec → Vec :=
      fun _ _ _ P => addAt P 0 1
    let e : ℕ → ℚ := fun r => avgError (fun _ P => if P 0 = 1 then 1 / 2 else
      if P 0 = 2 then 3 / 10 else 2 / 5) [[()]] ((GD (fun _ _ => []) 1 [[()]])^[r] m.param)
    0 < m.numParam ∧ m.gradientFunc = some (fun _ _ => []) ∧
      m.errorFunc = some (fun _ P => if P 0 = 1 then 1 / 2 else if P 0 = 2 then 3 / 10 else 2 / 5) ∧
      (∀ s, FirstStop e s → (m.trainTest GD [[()]] [[()]] 5 1).map Prod.fst =
        (m.train GD [[()]] (min 5 s) 1).map Prod.fst) ∧
      ((∀ r, 1 ≤ r → ¬ Stops e r) → (m.trainTest GD [[()]] [[()]] 5 1).map Prod.fst =
        (m.train GD [[()]] 5 1).map Prod.fst) := by
  intro m GD _
  exact ⟨Nat.one_pos, rfl, rfl, trainTest_model_eq_train m GD [[()]] [[()]] 5 1 Nat.one_pos rfl rfl⟩

/-- The held-out errors `0.5, 0.3, 0.4`: the third rises, and the loop stops after three
calls of `update_param`. -/
example : ((⟨1, 0, some fun _ _ => [], some fun _ P => if P 0 = 1 then 1 / 2 else
    if P 0 = 2 then 3 / 10 else 2 / 5, false, false⟩ : Regression Unit).trainTest
      (fun _ _ _ P => addAt P 0 1) [[()]] [[()]] 5 1).toOption.map Prod.snd =
    some [1 / 2, 3 / 10, 2 / 5] := by
  norm_num [trainTest, check, trainTestLoop, avgError, addAt, Except.toOption]

end Regression
end Husky
