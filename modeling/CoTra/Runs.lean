import CoTra.Indices
import Mathlib.Logic.Function.Basic
import Mathlib.Data.List.Basic

/-! Runs of a partial step function over a list of actions. `none` means that
the action is not enabled (or that the program stopped in it). A property of
every reachable state is proved once per action and lifted here; nothing in
this file names a particular system. -/
namespace CoTra.Runs

variable {σ α : Type*}

def run (step : σ → α → Option σ) : σ → List α → Option σ
  | s, [] => some s
  | s, a :: rest => (step s a).bind (fun t => run step t rest)

theorem runNil (step : σ → α → Option σ) (s : σ) : run step s [] = some s := rfl

theorem runCons {step : σ → α → Option σ} {s t : σ} {a : α} (h : step s a = some t) (rest : List α) :
    run step s (a :: rest) = run step t rest := by
  simp only [run,h,Option.bind_some]

theorem runConsSource {step : σ → α → Option σ} {s u : σ} {a : α} {rest : List α}
    (h : run step s (a :: rest) = some u) : ∃ t, step s a = some t ∧ run step t rest = some u := by
  simpa only [run,Option.bind_eq_some_iff] using h

theorem runAppend (step : σ → α → Option σ) (s : σ) (xs ys : List α) :
    run step s (xs ++ ys) = (run step s xs).bind (fun t => run step t ys) := by
  induction xs generalizing s with
  | nil => rfl
  | cons a rest ih =>
    simp only [List.cons_append,run]
    cases step s a with
    | none => rfl
    | some t => exact ih t

theorem runJoin {step : σ → α → Option σ} {s t u : σ} {xs ys : List α}
    (first : run step s xs = some t) (second : run step t ys = some u) :
    run step s (xs ++ ys) = some u := by
  rw [runAppend,first]
  exact second

/- A step condition that every action of the run meets in the state before it.
Conditions never look at the state a step produces. -/
def Along (step : σ → α → Option σ) (good : σ → α → Prop) : σ → List α → Prop
  | _, [] => True
  | s, a :: rest => good s a ∧ ∀ t, step s a = some t → Along step good t rest

instance alongDecidable (step : σ → α → Option σ) (good : σ → α → Prop) [∀ s a, Decidable (good s a)] :
    ∀ s acts, Decidable (Along step good s acts)
  | _, [] => .isTrue trivial
  | s, a :: rest =>
    match h : step s a with
    | none => decidable_of_iff (good s a) ⟨fun ok => ⟨ok,fun t e => by rw [h] at e; cases e⟩,And.left⟩
    | some t =>
      have := alongDecidable step good t rest
      decidable_of_iff (good s a ∧ Along step good t rest)
        ⟨fun ok => ⟨ok.1,fun u e => by rw [h] at e; cases e; exact ok.2⟩,fun ok => ⟨ok.1,ok.2 t h⟩⟩

theorem alongTrue (step : σ → α → Option σ) (s : σ) (acts : List α) :
    Along step (fun _ _ => True) s acts := by
  induction acts generalizing s with
  | nil => trivial
  | cons a rest ih => exact ⟨trivial,fun t _ => ih t⟩

theorem runInvariantAlong {step : σ → α → Option σ} {good : σ → α → Prop} {inv : σ → Prop}
    (keep : ∀ s a t, good s a → step s a = some t → inv s → inv t)
    {s t : σ} {acts : List α} (along : Along step good s acts)
    (ok : run step s acts = some t) (start : inv s) : inv t := by
  induction acts generalizing s with
  | nil => cases Option.some.inj ok; exact start
  | cons a rest ih =>
    obtain ⟨u,hu,hr⟩ := runConsSource ok
    exact ih (along.2 u hu) hr (keep s a u along.1 hu start)

theorem runInvariant {step : σ → α → Option σ} {inv : σ → Prop}
    (keep : ∀ s a t, step s a = some t → inv s → inv t)
    {s t : σ} {acts : List α} (ok : run step s acts = some t) (start : inv s) : inv t :=
  runInvariantAlong (fun s a t _ => keep s a t) (alongTrue step s acts) ok start

/- Two step conditions that agree wherever the invariant holds. -/
theorem alongIff {step : σ → α → Option σ} {good good' : σ → α → Prop} {inv : σ → Prop}
    (keep : ∀ s a t, step s a = some t → inv s → inv t) (same : ∀ s a, inv s → (good s a ↔ good' s a))
    {s : σ} (start : inv s) (acts : List α) : Along step good s acts ↔ Along step good' s acts := by
  induction acts generalizing s with
  | nil => exact Iff.rfl
  | cons a rest ih =>
    exact and_congr (same s a start) (forall₂_congr (fun t ok => ih (keep s a t ok start)))

theorem alongJoin {step : σ → α → Option σ} {good : σ → α → Prop} {s t : σ} {xs ys : List α}
    (first : Along step good s xs) (ok : run step s xs = some t) (second : Along step good t ys) :
    Along step good s (xs ++ ys) := by
  induction xs generalizing s with
  | nil => cases Option.some.inj ok; exact second
  | cons a rest ih =>
    obtain ⟨u,hu,hr⟩ := runConsSource ok
    refine ⟨first.1,?_⟩
    intro v hv
    cases Option.some.inj (hu.symm.trans hv)
    exact ih (first.2 u hu) hr

/- A block of actions that is run again and again, with what holds before round j. -/
theorem repeatRun {step : σ → α → Option σ} (good : σ → α → Prop) (stage : Nat → σ → Prop)
    {block : List α} {m : Nat} (round : ∀ j s, j < m → stage j s →
      Along step good s block ∧ ∃ t, run step s block = some t ∧ stage (j + 1) t)
    (k j : Nat) {s : σ} (bound : j + k ≤ m) (start : stage j s) :
    Along step good s (List.replicate k block).flatten ∧
      ∃ t, run step s (List.replicate k block).flatten = some t ∧ stage (j + k) t := by
  induction k generalizing j s with
  | zero => exact ⟨trivial,s,rfl,start⟩
  | succ k ih =>
    obtain ⟨along,t,ok,next⟩ := round j s (by omega) start
    obtain ⟨rest,u,last,done⟩ := ih (j + 1) (by omega) next
    rw [List.replicate_succ,List.flatten_cons]
    refine ⟨alongJoin along ok rest,u,runJoin ok last,?_⟩
    rwa [show j + (k + 1) = j + 1 + k by omega]

/- A loop of the source over a list, whose body may stop the program. -/
theorem foldlMInvariant {β : Type*} {body : σ → β → Option σ} (inv : σ → Prop)
    (keep : ∀ s b t, body s b = some t → inv s → inv t)
    {items : List β} {s t : σ} (ok : items.foldlM body s = some t) (start : inv s) : inv t := by
  induction items generalizing s with
  | nil => cases Option.some.inj ok; exact start
  | cons b rest ih =>
    rw [List.foldlM_cons] at ok
    obtain ⟨u,hu,hr⟩ := Option.bind_eq_some_iff.mp ok
    exact ih hr (keep s b u hu start)

end CoTra.Runs
