import CoTra.Indices
import Mathlib.Data.Option.Basic

/-! Two computations that may fail, step by step in a relation: both fail or both go on. One
that never fails while its partner is total follows it through a whole loop. -/
namespace CoTra.Lockstep

variable {α β γ δ ε : Type} {R : α → β → Prop} {S : γ → δ → Prop}

theorem relBind {x : Option α} {y : Option β} {f : α → Option γ} {g : β → Option δ} (related : Option.Rel R x y)
    (next : ∀ a b, R a b → Option.Rel S (f a) (g b)) : Option.Rel S (x.bind f) (y.bind g) := by
  cases related with
  | some first => exact next _ _ first
  | none => exact .none

theorem relFoldlM {f : α → ε → Option α} {g : β → ε → Option β}
    (step : ∀ a b e, R a b → Option.Rel R (f a e) (g b e)) (l : List ε) {a : α} {b : β} (first : R a b) :
    Option.Rel R (l.foldlM f a) (l.foldlM g b) := by
  induction l generalizing a b with
  | nil => exact .some first
  | cons e rest ih =>
    rw [List.foldlM_cons,List.foldlM_cons]
    exact relBind (step a b e first) (fun _ _ related => ih related)

/- The partner does not fail. -/
theorem totalFoldlM {f : α → ε → Option α} {g : β → ε → β}
    (step : ∀ a b e, R a b → ∃ a', f a e = some a' ∧ R a' (g b e)) (l : List ε) {a : α} {b : β} (first : R a b) :
    ∃ a', l.foldlM f a = some a' ∧ R a' (l.foldl g b) := by
  induction l generalizing a b with
  | nil => exact ⟨a,rfl,first⟩
  | cons e rest ih =>
    obtain ⟨a',done,related⟩ := step a b e first
    obtain ⟨a'',done',related'⟩ := ih related
    refine ⟨a'',?_,related'⟩
    rw [List.foldlM_cons,done]
    exact done'

end CoTra.Lockstep
