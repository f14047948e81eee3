import Husky.SVM

namespace Husky.SvmExample
open SVM

/-- `svm<is_sparse>()` of the SGD example: `SVM(num_features)` with `report_per_round` set and
`set_regularization_factor(lambda)`, `train<SGD>(train_set, n_iter, alpha)`, then
`avg_error(test_set)`. The test file is loaded unchecked, so `error_func_` reads `param_at` at
its feature indices: `testErr` is `none` when such a read fails and the job stops. -/
def Run (numFeatures : ℕ) (lambda alpha : ℚ) (numIter : ℕ)
    (trainSet testSet : List (List LabeledPoint)) (m' : SVM) (ls : List ℚ) (testErr : Option ℚ) :
    Prop :=
  Train { new numFeatures lambda with reportPerRound := true } trainSet numIter alpha m' ls ∧
    testErr = avgErrorChecked (svmErrorChecked (numFeatures + 1)) testSet m'.param

/-- For every split of the training set and a non-zero learning rate the program trains to the
`n_iter`-fold iterate of the round map from zero. It then logs a test error exactly when every
test feature index is inside the bucket, the fraction of test examples with `y·(w·x + b) ≤ 0`;
otherwise `param_at` fails. -/
theorem run_test_error (numFeatures : ℕ) (lambda alpha : ℚ) (numIter : ℕ)
    (trainSet testSet : List (List LabeledPoint)) (hk : trainSet ≠ []) (halpha : alpha ≠ 0) :
    (∃ m' ls e, Run numFeatures lambda alpha numIter trainSet testSet m' ls e) ∧
      ∀ m' ls e, Run numFeatures lambda alpha numIter trainSet testSet m' ls e →
        let P := (SGD.roundMap ((new numFeatures lambda).trainConfig trainSet alpha)
          trainSet)^[numIter] 0
        m'.param = P ∧
          e = if ∀ p ∈ testSet.flatten, p.Fits (numFeatures + 1) then
            some (((testSet.flatten.filter fun p => p.y * (dot P p.x + P numFeatures) ≤ 0).length :
              ℚ) / testSet.flatten.length)
          else none := by
  refine ⟨?_, ?_⟩
  · obtain ⟨P', ls, h⟩ := @Rounds.exists { new numFeatures lambda with reportPerRound := true }
      _ alpha hk halpha numIter 0
    exact ⟨_, ls, _, ⟨P', h, rfl⟩, rfl⟩
  · rintro m' ls e ⟨⟨P', h, rfl⟩, rfl⟩
    have hP := h.param_eq hk
    refine ⟨hP, ?_⟩
    rw [avgErrorChecked_eq _ _ (svmErrorChecked_eq numFeatures · _), avgError_svmError, hP]
    rfl

theorem run_test_error_two_workers :
    let trainSet : List (List LabeledPoint) := [[⟨[(0, 1)], 1⟩], [⟨[(0, 2)], -1⟩]]
    let testSet : List (List LabeledPoint) := [[⟨[(0, -1)], 1⟩], [⟨[(3, 1)], 1⟩]]
    trainSet ≠ [] ∧ (1 : ℚ) ≠ 0 ∧
      ∀ m' ls e, Run 1 0 1 2 trainSet testSet m' ls e →
        let P := (SGD.roundMap ((new 1 0).trainConfig trainSet 1) trainSet)^[2] 0
        m'.param = P ∧
          e = if ∀ p ∈ testSet.flatten, p.Fits (1 + 1) then
            some (((testSet.flatten.filter fun p => p.y * (dot P p.x + P 1) ≤ 0).length : ℚ) /
              testSet.flatten.length)
          else none := by
  intro trainSet testSet
  exact ⟨List.cons_ne_nil _ _, one_ne_zero,
    (run_test_error 1 0 1 2 trainSet testSet (List.cons_ne_nil _ _) one_ne_zero).2⟩

end Husky.SvmExample
