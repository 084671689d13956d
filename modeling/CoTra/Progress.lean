import CoTra.Runs
import Mathlib.Data.List.Range

/-! Runs that go on to an end. Wherever the end is not reached some action brings it nearer, by
a weight on the states; the weight of many threads is the sum of theirs. -/
namespace CoTra.Progress
open Runs

section Ends

variable {σ α : Type*} {step : σ → α → Option σ} {inv done : σ → Prop}

theorem reachesEnd (weight : σ → Nat)
    (nearer : ∀ s, inv s → ¬done s → ∃ a t, step s a = some t ∧ inv t ∧ weight t < weight s) {s : σ} (start : inv s) :
    ∃ acts t, run step s acts = some t ∧ inv t ∧ done t := by
  -- on the weight that is left
  induction left : weight s using Nat.strongRecOn generalizing s with
  | ind left' ih =>
    by_cases end' : done s
    · exact ⟨[],s,rfl,start,end'⟩
    · obtain ⟨a,t,one,next,less⟩ := nearer s start end'
      obtain ⟨acts,u,ok,kept,reached⟩ := ih (weight t) (left ▸ less) next rfl
      exact ⟨a :: acts,u,(runCons one acts).trans ok,kept,reached⟩

/- A step is allowed by what the action is, and every action of the run is. -/
theorem runEach {good : α → Prop} (keep : ∀ s a t, good a → step s a = some t → inv s → inv t) {s t : σ} {acts : List α}
    (each : ∀ a ∈ acts, good a) (ok : run step s acts = some t) (start : inv s) : inv t := by
  induction acts generalizing s with
  | nil => cases ok; exact start
  | cons a rest ih =>
    obtain ⟨u,one,more⟩ := runConsSource ok
    exact ih (fun b member => each b (List.mem_cons_of_mem _ member)) more (keep s a u (each a List.mem_cons_self) one start)

theorem runFlatten (s : σ) (acts : List (List α)) : run (run step) s acts = run step s acts.flatten := by
  induction acts generalizing s with
  | nil => rfl
  | cons first rest ih =>
    rw [List.flatten_cons,runAppend]
    exact congrArg ((run step s first).bind ·) (funext ih)

theorem runMap {β : Type*} (step : σ → α → Option σ) (f : β → α) (s : σ) (acts : List β) :
    run step s (acts.map f) = run (fun s b => step s (f b)) s acts := by
  induction acts generalizing s with
  | nil => rfl
  | cons b rest ih =>
    simp only [List.map_cons,run]
    cases step s (f b) with
    | none => rfl
    | some t => exact ih t

end Ends

section Threads

variable {w w' : Nat → Nat}

def total (P : Nat) (w : Nat → Nat) : Nat := ((List.range P).map w).sum

theorem totalNext (P : Nat) (w : Nat → Nat) : total (P + 1) w = total P w + w P := by
  rw [total,List.range_succ,List.map_append,List.sum_append,total]
  rfl

theorem totalMonoBelow {P : Nat} (most : ∀ k, k < P → w' k ≤ w k) : total P w' ≤ total P w := by
  induction P with
  | zero => exact Nat.le_refl _
  | succ P ih =>
    rw [totalNext,totalNext]
    exact Nat.add_le_add (ih (fun k known => most k (Nat.lt_succ_of_lt known))) (most P (Nat.lt_succ_self P))

theorem totalMono {P : Nat} (most : ∀ k, w' k ≤ w k) : total P w' ≤ total P w := totalMonoBelow (fun k _ => most k)

/- One thread has less to do and no thread has more. -/
theorem totalDrops {P i : Nat} (inside : i < P) (less : w' i < w i) (most : ∀ k, w' k ≤ w k) :
    total P w' < total P w := by
  induction P with
  | zero => exact absurd inside (Nat.not_lt_zero i)
  | succ P ih =>
    rw [totalNext,totalNext]
    rcases Nat.lt_or_eq_of_le (Nat.le_of_lt_succ inside) with before | rfl
    · exact Nat.add_lt_add_of_lt_of_le (ih before) (most P)
    · exact Nat.add_lt_add_of_le_of_lt (totalMono most) less

theorem totalLess {P i : Nat} (inside : i < P) (less : w' i < w i) (same : ∀ k, k ≠ i → w' k = w k) :
    total P w' < total P w := by
  refine totalDrops inside less (fun k => ?_)
  rcases eq_or_ne k i with rfl | other
  · exact Nat.le_of_lt less
  · exact Nat.le_of_eq (same k other)

/- What one thread has changes, and the total with it. -/
theorem totalChange {P i : Nat} (inside : i < P) (same : ∀ k, k ≠ i → w' k = w k) :
    total P w' + w i = total P w + w' i := by
  induction P with
  | zero => exact absurd inside (Nat.not_lt_zero i)
  | succ P ih =>
    rw [totalNext,totalNext]
    rcases Nat.lt_or_eq_of_le (Nat.le_of_lt_succ inside) with before | rfl
    · have rest := ih before
      rw [same P (by omega)]
      omega
    · have rest : total i w' = total i w := by
        refine Nat.le_antisymm ?_ ?_ <;> refine totalMonoBelow (fun k known => ?_)
        · exact Nat.le_of_eq (same k (by omega))
        · exact Nat.le_of_eq (same k (by omega)).symm
      omega

/- One thread hands something to another. -/
theorem totalHanded {P i j : Nat} (first : i < P) (second : j < P) (apart : i ≠ j) (same : ∀ k, k ≠ i → k ≠ j → w' k = w k)
    (both : w' i + w' j = w i + w j) : total P w' = total P w := by
  have one : total P (Function.update w i (w' i)) + w i = total P w + Function.update w i (w' i) i :=
    totalChange first (fun k other => Function.update_of_ne other ..)
  have two : total P w' + Function.update w i (w' i) j = total P (Function.update w i (w' i)) + w' j := by
    refine totalChange second (fun k other => ?_)
    rcases eq_or_ne k i with rfl | other'
    · rw [Function.update_self]
    · rw [Function.update_of_ne other',same k other' other]
  rw [Function.update_self] at one
  rw [Function.update_of_ne (Ne.symm apart)] at two
  omega

theorem totalBound {P m : Nat} (most : ∀ k, k < P → w k ≤ m) : total P w ≤ P * m := by
  induction P with
  | zero => exact Nat.zero_le _
  | succ P ih =>
    rw [totalNext,Nat.succ_mul]
    exact Nat.add_le_add (ih (fun k known => most k (Nat.lt_succ_of_lt known))) (most P (Nat.lt_succ_self P))

theorem totalFull {P : Nat} (most : ∀ k, w k ≤ 1) (full : total P w = P) : ∀ i, i < P → w i = 1 := by
  induction P with
  | zero => exact fun i no => absurd no (Nat.not_lt_zero i)
  | succ P ih =>
    have bound : total P w ≤ P := (totalBound (fun k _ => most k)).trans (Nat.le_of_eq (Nat.mul_one P))
    have last := most P
    rw [totalNext] at full
    intro i inside
    rcases Nat.lt_or_eq_of_le (Nat.le_of_lt_succ inside) with before | rfl
    · exact ih (by omega) i before
    · omega

theorem totalLeast {P i : Nat} (inside : i < P) (w : Nat → Nat) : w i ≤ total P w := by
  induction P with
  | zero => exact absurd inside (Nat.not_lt_zero i)
  | succ P ih =>
    rw [totalNext]
    rcases Nat.lt_or_eq_of_le (Nat.le_of_lt_succ inside) with before | rfl
    · exact (ih before).trans (Nat.le_add_right _ _)
    · exact Nat.le_add_left _ _

theorem totalNone {P : Nat} (none' : ∀ k, k < P → w k = 0) : total P w = 0 := by
  induction P with
  | zero => rfl
  | succ P ih =>
    rw [totalNext,ih (fun k known => none' k (Nat.lt_succ_of_lt known)),none' P (Nat.lt_succ_self P)]

theorem totalOnly {P i : Nat} (inside : i < P) (none' : ∀ k, k < P → k ≠ i → w k = 0) : total P w = w i := by
  have change := @totalChange w (Function.update w i 0) P i inside (fun k other => Function.update_of_ne other ..)
  have nothing : total P (Function.update w i 0) = 0 := by
    refine totalNone (fun k known => ?_)
    rcases eq_or_ne k i with rfl | other
    · exact Function.update_self ..
    · exact (Function.update_of_ne other ..).trans (none' k known other)
  rw [nothing,Function.update_self] at change
  omega

end Threads

end CoTra.Progress
