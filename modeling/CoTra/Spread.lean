import CoTra.Indices
import Mathlib.Algebra.BigOperators.Group.Finset.Basic
import Mathlib.Algebra.BigOperators.Group.List.Basic
import Mathlib.Algebra.Order.BigOperators.Group.Finset
import Mathlib.Algebra.Order.BigOperators.Group.List
import Mathlib.Data.Fintype.Basic

/-! Weights of items that lie in lists at several places. Moving an item changes no
total; what a change of one list adds or takes is read off that list. -/
namespace CoTra.Spread

variable {ι α : Type} [Fintype ι]

def sumOf (f : α → Nat) (xs : List α) : Nat := (xs.map f).sum

@[simp] theorem sumNil (f : α → Nat) : sumOf f [] = 0 := rfl

@[simp] theorem sumCons (f : α → Nat) (x : α) (xs : List α) : sumOf f (x :: xs) = f x + sumOf f xs := by
  simp [sumOf]

@[simp] theorem sumAppend (f : α → Nat) (xs ys : List α) : sumOf f (xs ++ ys) = sumOf f xs + sumOf f ys := by
  simp [sumOf]

theorem sumMap {β : Type} (f : β → Nat) (g : α → β) (xs : List α) : sumOf f (xs.map g) = sumOf (fun x => f (g x)) xs := by
  simp only [sumOf,List.map_map]
  rfl

theorem sumOnes (xs : List α) : sumOf (fun _ => 1) xs = xs.length := by
  induction xs with
  | nil => rfl
  | cons x rest ih => rw [sumCons,ih,List.length_cons,Nat.add_comm]

theorem sumZero {f : α → Nat} {xs : List α} (zero : sumOf f xs = 0) : ∀ x ∈ xs, f x = 0 := by
  induction xs with
  | nil => intro x member; exact absurd member List.not_mem_nil
  | cons y rest ih =>
    rw [sumCons] at zero
    intro x member
    rcases List.mem_cons.mp member with rfl | later
    · exact Nat.eq_zero_of_add_eq_zero_right zero
    · exact ih (Nat.eq_zero_of_add_eq_zero_left zero) x later

theorem sumNone {f : α → Nat} {xs : List α} (none' : ∀ x ∈ xs, f x = 0) : sumOf f xs = 0 := by
  induction xs with
  | nil => rfl
  | cons y rest ih =>
    rw [sumCons,none' y List.mem_cons_self,ih (fun x later => none' x (List.mem_cons_of_mem _ later))]

theorem sumZeroIff {f : α → Nat} {xs : List α} : sumOf f xs = 0 ↔ ∀ x ∈ xs, f x = 0 := ⟨sumZero,sumNone⟩

/- At most one item is at the place that counts. -/
theorem sumOnce {β : Type} {place : α → β} (c : β) {f : α → Nat} {k : Nat} {xs : List α} (once : (xs.map place).Nodup)
    (only : ∀ x ∈ xs, place x ≠ c → f x = 0) (bound : ∀ x ∈ xs, f x ≤ k) : sumOf f xs ≤ k := by
  induction xs with
  | nil => exact Nat.zero_le k
  | cons y rest ih =>
    rw [List.map_cons,List.nodup_cons] at once
    rw [sumCons]
    by_cases here : place y = c
    · have others : sumOf f rest = 0 := by
        refine sumNone (fun x later => only x (List.mem_cons_of_mem _ later) (fun again => once.1 ?_))
        rw [here,← again]
        exact List.mem_map_of_mem later
      rw [others]
      exact bound y List.mem_cons_self
    · rw [only y List.mem_cons_self here,Nat.zero_add]
      exact ih once.2 (fun x later => only x (List.mem_cons_of_mem _ later))
        (fun x later => bound x (List.mem_cons_of_mem _ later))

theorem sumErase (f : α → Nat) {xs : List α} {i : Nat} {x : α} (found : xs[i]? = some x) :
    sumOf f (xs.eraseIdx i) + f x = sumOf f xs := by
  induction xs generalizing i with
  | nil => simp at found
  | cons y rest ih =>
    cases i with
    | zero =>
      cases Option.some.inj found
      rw [List.eraseIdx_cons_zero,sumCons,Nat.add_comm]
    | succ i =>
      rw [List.eraseIdx_cons_succ,sumCons,sumCons,Nat.add_assoc,ih found]

def spread (f : ι → α → Nat) (places : ι → List α) : Nat := ∑ p, sumOf (f p) (places p)

theorem spreadNil (f : ι → α → Nat) : spread f (fun _ => []) = 0 := by
  simp [spread]

theorem spreadZero {f : ι → α → Nat} {places : ι → List α} (zero : spread f places = 0) (p : ι) :
    sumOf (f p) (places p) = 0 :=
  Finset.sum_eq_zero_iff.mp zero p (Finset.mem_univ p)

theorem spreadZeroIff {f : ι → α → Nat} {places : ι → List α} :
    spread f places = 0 ↔ ∀ p, ∀ x ∈ places p, f p x = 0 := by
  refine ⟨fun zero p => sumZero (spreadZero zero p),fun none' => ?_⟩
  exact Finset.sum_eq_zero (fun p _ => sumNone (none' p))

variable [DecidableEq ι]

theorem sumUpdate {β : Type} (f : ι → β → Nat) (g : ι → β) (a : ι) (v : β) :
    (∑ p, f p (Function.update g a v p)) + f a (g a) = (∑ p, f p (g p)) + f a v := by
  rw [← Finset.add_sum_erase Finset.univ (fun p => f p (Function.update g a v p)) (Finset.mem_univ a),
    ← Finset.add_sum_erase Finset.univ (fun p => f p (g p)) (Finset.mem_univ a)]
  have rest : ∑ p ∈ Finset.univ.erase a, f p (Function.update g a v p) = ∑ p ∈ Finset.univ.erase a, f p (g p) := by
    refine Finset.sum_congr rfl (fun p member => ?_)
    rw [Function.update_of_ne (Finset.ne_of_mem_erase member)]
  simp only [rest,Function.update_self]
  omega

theorem sumChange {f g : ι → Nat} {a : ι} (same : ∀ p, p ≠ a → f p = g p) : (∑ p, f p) + g a = (∑ p, g p) + f a := by
  have only : f = Function.update g a (f a) := by
    funext p
    rcases eq_or_ne p a with rfl | other
    · rw [Function.update_self]
    · rw [Function.update_of_ne other,same p other]
  have change := sumUpdate (fun _ v => v) g a (f a)
  rw [← only] at change
  exact change

theorem spreadUpdate (f : ι → α → Nat) (places : ι → List α) (a : ι) (xs : List α) :
    spread f (Function.update places a xs) + sumOf (f a) (places a) = spread f places + sumOf (f a) xs :=
  sumUpdate (fun p => sumOf (f p)) places a xs

theorem spreadPush (f : ι → α → Nat) (places : ι → List α) (a : ι) (xs : List α) :
    spread f (Function.update places a (places a ++ xs)) = spread f places + sumOf (f a) xs := by
  have change := spreadUpdate f places a (places a ++ xs)
  rw [sumAppend] at change
  omega

end CoTra.Spread
