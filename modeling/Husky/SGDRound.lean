import Husky.SGD
import Mathlib.Tactic.Linarith

namespace Husky.SGD
open Relation

variable {α : Type} (cfg : Config α)

/-- What worker `s` still owes index `i` beyond its local progress: the decay it has still to
send there, less `num_local_samples / num_global_samples` times `current_vec[i]`. -/
def owed (P : Vec) (s : Worker α) (i : ℕ) : ℚ :=
  sumAt (s.reg.map (l2Regularize cfg P)) i - s.numLocal / cfg.numGlobalSamples * s.current i

/-- A worker's step sends exactly what it stops owing: a decay it had still to send, or
`delta * num_local / num_global` while `current_vec` moves by `delta`. -/
theorem owed_step {P : Vec} {s s' : Worker α} {m : Option Msg} (h : step cfg P s = some (s', m))
    (i : ℕ) : sumAt m.toList i + owed cfg P s' i = owed cfg P s i := by
  unfold step at h
  split at h <;> simp only [Option.some.injEq, Prod.mk.injEq, reduceCtorEq] at h <;>
    obtain ⟨rfl, rfl⟩ := h <;>
    simp only [owed, *, Option.toList, List.map_cons, sumAt_cons, sumAt_nil, addAt_apply] <;>
    (try split_ifs) <;> ring

theorem sum_map_set {β : Type} (f : β → ℚ) :
    ∀ {l : List β} {w : ℕ} {s : β}, l[w]? = some s → ∀ s',
      ((l.set w s').map f).sum = (l.map f).sum - f s + f s'
  | _ :: _, 0, _, h, _ => by
    rw [List.getElem?_cons_zero, Option.some.injEq] at h
    subst h
    simp only [List.set_cons_zero, List.map_cons, List.sum_cons]
    ring
  | _ :: _, _ + 1, _, h, s' => by
    rw [List.getElem?_cons_succ] at h
    simp only [List.set_cons_succ, List.map_cons, List.sum_cons, sum_map_set f h s']
    ring

def potential (P : Vec) (r : Round (Worker α)) (i : ℕ) : ℚ :=
  r.combined i + sumAt r.inflight i + (r.workers.map (owed cfg P · i)).sum

theorem potential_step {P : Vec} {r r' : Round (Worker α)} (h : Round.Step (program cfg) r r')
    (hP : r.synced = P) (i : ℕ) : potential cfg P r' i = potential cfg P r i := by
  cases h with
  | run hw hs =>
    rw [hP] at hs
    have hstep := owed_step cfg hs i
    simp only [potential, sumAt_append, sum_map_set _ hw]
    linarith
  | deliver l₁ l₂ m hin =>
    simp only [potential, hin, update, addAt_apply, sumAt_append, sumAt_cons]
    split_ifs <;> ring

/-- In every state a round of `update_param` workers reaches, whatever the interleaving of their
steps and of the aggregator's combining, and at every index: the stored values combined so far,
plus the updates in flight, plus the decay still to be sent, minus each worker's
`num_local / N` share of its `current_vec`, is what it was when the round began. -/
theorem reach_potential {P : Vec} {ws : List (Worker α)} {r : Round (Worker α)}
    (h : ReflTransGen (Round.Step (program cfg)) (Round.init P ws) r) (i : ℕ) :
    potential cfg P r i = potential cfg P (Round.init P ws) i := by
  induction h with
  | refl => rfl
  | tail h₁ hs ih => rw [potential_step cfg (P := P) hs (Round.reach_synced h₁) i, ih]

theorem reach_potential_two_workers :
    let c : Config Unit := ⟨fun _ _ => [(0, 1)], 1, 1, 2, 1⟩
    let ws := workers c 0 [[()], [()]]
    ∀ r, ReflTransGen (Round.Step (program c)) (Round.init 0 ws) r →
      ∀ i, potential c 0 r i = potential c 0 (Round.init 0 ws) i := by
  intro c ws r h i
  exact reach_potential c h i

theorem fst_mem_applyGrad {nloc : ℕ} {c : Vec} {es : List Msg} {e : Msg}
    (he : e ∈ (applyGrad cfg nloc c es).2) : ∃ g ∈ es, g.1 = e.1 := by
  induction es generalizing c with
  | nil => simp [applyGrad] at he
  | cons g es ih =>
    obtain ⟨fea, val⟩ := g
    rcases List.mem_cons.1 he with rfl | he
    · exact ⟨_, List.mem_cons_self _ _, rfl⟩
    · obtain ⟨g, hg, hge⟩ := ih he
      exact ⟨g, List.mem_cons_of_mem _ hg, hge⟩

theorem fst_mem_listExecute {nloc : ℕ} {c : Vec} {xs : List α} {e : Msg}
    (he : e ∈ (listExecute cfg nloc c xs).2) :
    ∃ x ∈ xs, ∃ c', ∃ g ∈ cfg.gradientFunc x c', g.1 = e.1 := by
  induction xs generalizing c with
  | nil => simp [listExecute] at he
  | cons x xs ih =>
    rcases List.mem_append.1 he with he | he
    · obtain ⟨g, hg, hge⟩ := fst_mem_applyGrad cfg he
      exact ⟨x, List.mem_cons_self _ _, c, g, hg, hge⟩
    · obtain ⟨y, hy, c', g, hg, hge⟩ := ih he
      exact ⟨y, List.mem_cons_of_mem _ hy, c', g, hg, hge⟩

theorem workers_sends_lt {n : ℕ} (hn : cfg.numParam ≤ n) {P : Vec} {parts : List (List α)}
    (hg : ∀ D ∈ parts, ∀ x ∈ D, ∀ c, ∀ g ∈ cfg.gradientFunc x c, g.1 < n) :
    ∀ e ∈ ((workers cfg P parts).map (sends cfg P)).flatten, e.1 < n := by
  intro e he
  obtain ⟨_, hl, he⟩ := List.mem_flatten.1 he
  obtain ⟨s, hs, rfl⟩ := List.mem_map.1 hl
  obtain ⟨t, ht, rfl⟩ := List.mem_mapIdx.1 hs
  rcases List.mem_append.1 he with he | he
  · rcases List.mem_append.1 he with he | he
    · obtain ⟨j, hj, rfl⟩ := List.mem_map.1 he
      exact lt_of_lt_of_le (by simpa [start] using (List.mem_ite_nil_right.1 hj).2) hn
    · simp [start, applyGrad] at he
  · obtain ⟨x, hx, c, g, hg', hge⟩ := fst_mem_listExecute cfg he
    exact hge ▸ hg _ (List.getElem_mem _) x hx c g hg'

end Husky.SGD
