import Mathlib.Algebra.Order.Ring.Int
import Mathlib.Data.List.FinRange

/-! Machines are counted by Fin, and a list that every machine has may stand behind those of
the machines before it. The instances are in the definitions of other modules, which refer to
them by name. -/
namespace CoTra.Indices

instance finLawful (n : Nat) : LawfulBEq (Fin n) := inferInstance

instance twoNotZero : NeZero 2 := ⟨by decide⟩

instance threeNotZero : NeZero 3 := ⟨by decide⟩

instance fourNotZero : NeZero 4 := ⟨by decide⟩

section Joined

variable {n : Nat} {α : Type} (part : Fin n → List α)

theorem joinedNext {k : Nat} (known : k < n) :
    ((List.finRange n).take (k+1)).flatMap part = ((List.finRange n).take k).flatMap part ++ part ⟨k,known⟩ := by
  rw [List.take_add_one,List.flatMap_append]
  simp [known]

theorem joinedSplit (k : Nat) : (List.finRange n).flatMap part =
    ((List.finRange n).take k).flatMap part ++ ((List.finRange n).drop k).flatMap part := by
  rw [← List.flatMap_append,List.take_append_drop]

/- A machine's list is found at the length of those before it. -/
theorem joinedPlace (p : Fin n) {i : Nat} (inside : i < (part p).length) :
    ((List.finRange n).flatMap part)[(((List.finRange n).take p.val).flatMap part).length + i]? = (part p)[i]? := by
  rw [joinedSplit part (p.val+1),joinedNext part p.isLt,List.append_assoc,
    List.getElem?_append_right (Nat.le_add_right _ _),Nat.add_sub_cancel_left,List.getElem?_append_left inside]

end Joined

end CoTra.Indices
