import CoTra.Spread

/-! How often a place lies in half-open spans. Cutting a span in two changes no count, and spans
of which no place is in two are apart. -/
namespace CoTra.Spans
open Spread

def inRange (beg stop x : Nat) : Nat := if beg ≤ x ∧ x < stop then 1 else 0

theorem inRangeSplit {beg mid stop : Nat} (first : beg ≤ mid) (second : mid ≤ stop) (x : Nat) :
    inRange beg stop x = inRange beg mid x + inRange mid stop x := by
  unfold inRange
  split <;> split <;> split <;> omega

theorem inRangeEmpty {beg stop : Nat} (none' : stop ≤ beg) (x : Nat) : inRange beg stop x = 0 := by
  unfold inRange
  rw [if_neg (by omega)]

theorem inRangeFirst {beg stop : Nat} (some' : beg < stop) (x : Nat) :
    inRange beg stop x = (if beg = x then 1 else 0) + inRange (beg + 1) stop x := by
  unfold inRange
  split <;> split <;> split <;> omega

theorem inRangeIn {beg stop x : Nat} (first : beg ≤ x) (second : x < stop) : inRange beg stop x = 1 := if_pos ⟨first,second⟩

theorem inRangeUpTo (before len num x : Nat) : inRange 0 (min before num) x +
    inRange (min before num) (min (min num (before + len)) num) x = inRange 0 (min (before + len) num) x := by
  unfold inRange
  split <;> split <;> split <;> omega

variable {α : Type} {beg stop : α → Nat} {xs : List α}

def covering (beg stop : α → Nat) (xs : List α) (x : Nat) : Nat := sumOf (fun a => inRange (beg a) (stop a) x) xs

theorem coveringOne {a : α} (member : a ∈ xs) {x : Nat} (first : beg a ≤ x) (second : x < stop a) :
    1 ≤ covering beg stop xs x := by
  induction xs with
  | nil => exact absurd member List.not_mem_nil
  | cons b rest ih =>
    rw [covering,sumCons]
    rcases List.mem_cons.mp member with rfl | later
    · rw [inRangeIn first second]
      exact Nat.le_add_right _ _
    · exact (ih later).trans (Nat.le_add_left _ _)

theorem coveringApart (once : ∀ x, covering beg stop xs x ≤ 1) (filled : ∀ a ∈ xs, beg a < stop a) :
    xs.Pairwise (fun a b => stop a ≤ beg b ∨ stop b ≤ beg a) := by
  induction xs with
  | nil => exact .nil
  | cons a rest ih =>
    have rest' : ∀ x, covering beg stop rest x ≤ 1 := fun x => by
      have := once x
      rw [covering,sumCons] at this
      exact (Nat.le_add_left _ _).trans this
    refine .cons (fun b member => ?_) (ih rest' (fun b member => filled b (List.mem_cons_of_mem _ member)))
    by_contra meet
    -- the later of the two beginnings lies in both
    have here := once (max (beg a) (beg b))
    have first := filled a List.mem_cons_self
    have second := filled b (List.mem_cons_of_mem _ member)
    rw [covering,sumCons,inRangeIn (by omega) (by omega)] at here
    have more : 1 ≤ covering beg stop rest (max (beg a) (beg b)) := coveringOne member (by omega) (by omega)
    rw [covering] at more
    omega

end CoTra.Spans
