import Husky.Param
import Mathlib.Logic.Relation

namespace Husky
open Relation

/-- One worker's part of a round, as a small-step program. `step P s` is the next local state
and the update it sends, if any, where `P` is what `param_at` and `get_all_param` return;
it is `none` once the worker has returned. `sends P s` lists the updates still to come. -/
structure Program (σ : Type) where
  step : Vec → σ → Option (σ × Option Msg)
  sends : Vec → σ → List Msg
  sends_step : ∀ {P s s' m}, step P s = some (s', m) → sends P s = m.toList ++ sends P s'
  sends_done : ∀ {P s}, step P s = none → sends P s = []
  halts : ∀ P s, ∃ s', ReflTransGen (fun a b => ∃ m, step P a = some (b, m)) s s' ∧
    step P s' = none

/-- A bulk-synchronous round in progress: `synced` is what reads return (the values at the
last barrier), `combined` the aggregator's values with the updates combined so far,
`inflight` the updates sent and not yet combined. -/
structure Round (σ : Type) where
  synced : Vec
  combined : Vec
  inflight : List Msg
  workers : List σ

namespace Round

variable {σ : Type} (prog : Program σ)

def init (P : Vec) (ws : List σ) : Round σ := ⟨P, P, [], ws⟩

/-- Any worker runs one step, or the aggregator combines any one update in flight. -/
inductive Step : Round σ → Round σ → Prop
  | run {r : Round σ} {w : ℕ} {s s' : σ} {m : Option Msg} (hw : r.workers[w]? = some s)
      (hs : prog.step r.synced s = some (s', m)) :
      Step r { r with workers := r.workers.set w s', inflight := r.inflight ++ m.toList }
  | deliver {r : Round σ} (l₁ l₂ : List Msg) (m : Msg) (h : r.inflight = l₁ ++ m :: l₂) :
      Step r { r with combined := update r.combined m, inflight := l₁ ++ l₂ }

def Done (r : Round σ) : Prop := r.inflight = [] ∧ ∀ s ∈ r.workers, prog.step r.synced s = none

def Conserves (ms : List Msg) (r : Round σ) : Prop :=
  ∃ done, r.combined = applyMsgs r.synced done ∧
    (done ++ r.inflight ++ (r.workers.map (prog.sends r.synced)).flatten).Perm ms

variable {prog}

theorem Step.synced_eq {r r' : Round σ} (h : Step prog r r') : r'.synced = r.synced := by
  cases h <;> rfl

theorem reach_synced {r r' : Round σ} (h : ReflTransGen (Step prog) r r') :
    r'.synced = r.synced := by
  induction h with
  | refl => rfl
  | tail _ hs ih => exact hs.synced_eq.trans ih

theorem flatten_set_perm (f : σ → List Msg) {pre : List Msg} {s s' : σ} (hf : f s = pre ++ f s') :
    ∀ {ws : List σ} {w : ℕ}, ws[w]? = some s →
      (ws.map f).flatten.Perm (pre ++ ((ws.set w s').map f).flatten)
  | a :: ws, 0, h => by
    obtain rfl : a = s := by simpa using h
    simp [hf]
  | a :: ws, w + 1, h => by
    have ih := flatten_set_perm f hf (show ws[w]? = some s by simpa using h)
    simpa using (ih.append_left (f a)).trans (List.perm_append_comm_assoc _ _ _)

theorem Step.conserves {ms : List Msg} {r r' : Round σ} (h : Step prog r r')
    (hc : Conserves prog ms r) : Conserves prog ms r' := by
  obtain ⟨done, hcomb, hperm⟩ := hc
  cases h with
  | run hw hs =>
    refine ⟨done, hcomb, List.Perm.trans ?_ hperm⟩
    have hset := flatten_set_perm (prog.sends r.synced) (prog.sends_step hs) hw
    simpa using (hset.append_left (done ++ r.inflight)).symm
  | deliver l₁ l₂ m hin =>
    refine ⟨done ++ [m], by simp [hcomb, applyMsgs], List.Perm.trans ?_ hperm⟩
    simp only [hin, List.append_assoc, List.singleton_append]
    exact (List.perm_middle.symm.append_right _).append_left _ |>.trans (by simp)

theorem reach_conserves {P : Vec} {ws : List σ} {r : Round σ}
    (h : ReflTransGen (Step prog) (init P ws) r) :
    Conserves prog (ws.map (prog.sends P)).flatten r := by
  induction h with
  | refl => exact ⟨[], rfl, by simp [init]⟩
  | tail _ hs ih => exact hs.conserves ih

theorem Conserves.combined_eq {ms : List Msg} {r : Round σ} (hc : Conserves prog ms r)
    (hd : r.Done prog) : r.combined = applyMsgs r.synced ms := by
  obtain ⟨done, hcomb, hperm⟩ := hc
  have hsends : (r.workers.map (prog.sends r.synced)).flatten = [] := by
    simpa using fun s hs => prog.sends_done (hd.2 s hs)
  rw [hcomb, applyMsgs_perm _ (by simpa [hd.1, hsends] using hperm)]

theorem combined_of_reach {P : Vec} {ws : List σ} {r : Round σ}
    (h : ReflTransGen (Step prog) (init P ws) r) (hd : r.Done prog) :
    r.combined = applyMsgs P (ws.map (prog.sends P)).flatten := by
  rw [(reach_conserves h).combined_eq hd, reach_synced h]
  rfl

theorem set_self_of_getElem? {ws : List σ} {w : ℕ} {s : σ} (h : ws[w]? = some s) :
    ws.set w s = ws := by
  apply List.ext_getElem?
  intro j
  by_cases hj : w = j
  · subst hj
    simp [List.getElem?_set, h, (List.getElem?_eq_some_iff.1 h).1]
  · simp [hj]

theorem reach_run {r : Round σ} {w : ℕ} {s s' : σ} (hw : r.workers[w]? = some s)
    (h : ReflTransGen (fun a b => ∃ m, prog.step r.synced a = some (b, m)) s s') :
    ∃ l, ReflTransGen (Step prog) r
      { r with workers := r.workers.set w s', inflight := r.inflight ++ l } := by
  have hlt : w < r.workers.length := (List.getElem?_eq_some_iff.1 hw).1
  induction h with
  | refl => exact ⟨[], by simpa [set_self_of_getElem? hw] using ReflTransGen.refl⟩
  | @tail b c _ hbc ih =>
    obtain ⟨l, hl⟩ := ih
    obtain ⟨m, hm⟩ := hbc
    have hstep := Step.run (w := w)
      (r := { r with workers := r.workers.set w b, inflight := r.inflight ++ l }) (by simp [hlt]) hm
    exact ⟨l ++ m.toList, hl.tail (by simpa using hstep)⟩

theorem reach_returned_below (r : Round σ) : ∀ n : ℕ, ∃ r', ReflTransGen (Step prog) r r' ∧
    r'.synced = r.synced ∧ r'.workers.length = r.workers.length ∧
    ∀ j < n, ∀ s, r'.workers[j]? = some s → prog.step r.synced s = none
  | 0 => ⟨r, .refl, rfl, rfl, by simp⟩
  | n + 1 => by
    obtain ⟨r₁, h₁, hs₁, hl₁, hret⟩ := reach_returned_below r n
    cases hw : r₁.workers[n]? with
    | none =>
      refine ⟨r₁, h₁, hs₁, hl₁, fun j hj s hs => ?_⟩
      rcases Nat.lt_succ_iff_lt_or_eq.1 hj with hj | rfl
      · exact hret j hj s hs
      · simp [hw] at hs
    | some s =>
      obtain ⟨s', hrun, hs'⟩ := prog.halts r₁.synced s
      obtain ⟨l, h₂⟩ := reach_run hw hrun
      have hlt : n < r₁.workers.length := (List.getElem?_eq_some_iff.1 hw).1
      refine ⟨_, h₁.trans h₂, hs₁, by simp [hl₁], fun j hj t ht => ?_⟩
      rcases Nat.lt_succ_iff_lt_or_eq.1 hj with hj | rfl
      · rw [List.getElem?_set_ne (by omega)] at ht
        exact hret j hj t ht
      · rw [List.getElem?_set_self hlt, Option.some_inj] at ht
        rw [← hs₁, ← ht]
        exact hs'

theorem reach_delivered (r : Round σ) : ReflTransGen (Step prog) r
    { r with combined := applyMsgs r.combined r.inflight, inflight := [] } := by
  obtain ⟨synced, combined, inflight, workers⟩ := r
  induction inflight generalizing combined with
  | nil => exact .refl
  | cons m ms ih => exact .head (Step.deliver [] ms m rfl) (ih _)

/-- From any state the round can still reach its barrier: no interleaving deadlocks. -/
theorem reach_done (r : Round σ) : ∃ r', ReflTransGen (Step prog) r r' ∧ r'.Done prog := by
  obtain ⟨r₁, h₁, hs₁, hl₁, hret⟩ := @reach_returned_below _ prog r r.workers.length
  refine ⟨_, h₁.trans (reach_delivered r₁), rfl, fun s hs => ?_⟩
  obtain ⟨j, hj⟩ := List.mem_iff_getElem?.1 hs
  have hjl : j < r.workers.length := hl₁ ▸ (List.getElem?_eq_some_iff.1 hj).1
  simpa [hs₁] using hret j hjl s hj

variable (prog) in
/-- The values a round from `P` with workers `ws` can leave at its barrier. -/
def Result (P : Vec) (ws : List σ) (P' : Vec) : Prop :=
  ∃ r, ReflTransGen (Step prog) (init P ws) r ∧ r.Done prog ∧ r.combined = P'

/-- A round has exactly one outcome: some run reaches the barrier, and every run that does
leaves the same values. -/
theorem result_iff {P P' : Vec} {ws : List σ} :
    Result prog P ws P' ↔ P' = applyMsgs P (ws.map (prog.sends P)).flatten := by
  constructor
  · rintro ⟨r, h, hd, rfl⟩
    exact combined_of_reach h hd
  · rintro rfl
    obtain ⟨r, h, hd⟩ := @reach_done _ prog (init P ws)
    exact ⟨r, h, hd, combined_of_reach h hd⟩

/-- A round only changes stored values some worker sends an update for: if every update the
workers would send is below index `n`, so is every update in flight in every reachable state,
and the values from `n` on keep their round-start values. -/
theorem reach_frame {P : Vec} {ws : List σ} {r : Round σ} {n : ℕ}
    (hws : ∀ e ∈ (ws.map (prog.sends P)).flatten, e.1 < n)
    (h : ReflTransGen (Step prog) (init P ws) r) :
    (∀ e ∈ r.inflight, e.1 < n) ∧ ∀ i, n ≤ i → r.combined i = P i := by
  obtain ⟨done, hc, hp⟩ := reach_conserves h
  rw [reach_synced h] at hc
  have hmem : ∀ e ∈ done ++ r.inflight, e.1 < n := fun e he =>
    hws e (hp.subset (List.mem_append_left _ he))
  refine ⟨fun e he => hmem e (List.mem_append_right _ he), fun i hi => ?_⟩
  rw [hc, applyMsgs_apply, sumAt_eq_zero_of_le (fun e he => hmem e (List.mem_append_left _ he)) hi,
    add_zero]
  rfl

theorem mapIdx_cons_tid_zero {β γ : Type} (f : Bool → β → γ) (D : β) (Ds : List β) :
    (D :: Ds).mapIdx (fun tid d => f (tid == 0) d) = f true D :: Ds.map (f false) := by
  simp only [List.mapIdx_cons, beq_self_eq_true, List.cons.injEq, true_and]
  exact List.mapIdx_eq_iff.2 fun j => by simp

end Round
end Husky
