import CoTra.Priority
import Mathlib.Data.Multiset.Sort
import Mathlib.Algebra.Order.Group.Multiset
import Mathlib.Algebra.Order.Sub.Basic
import Mathlib.Data.Prod.Lex

/-! The k smallest elements of a multiset over a linear order. Cutting to k before more
elements are added changes nothing: what a bounded queue holds in the end does not
depend on when it was cut. -/
namespace CoTra.Smallest
open Priority

variable {κ β : Type} [LinearOrder κ] {k : Nat} {all rest kept kept' : Multiset κ}

structure IsSmallest (k : Nat) (all kept : Multiset κ) : Prop where
  part : kept ≤ all
  count : kept.card = min k all.card
  below : ∀ a ∈ kept, ∀ b ∈ all - kept, a ≤ b

theorem smallestSelf (few : all.card ≤ k) : IsSmallest k all all where
  part := le_rfl
  count := (min_eq_right few).symm
  below a _ b member := by
    have none' : all - all = 0 := tsub_eq_of_eq_add_rev (add_zero all).symm
    rw [none'] at member
    exact absurd member (Multiset.notMem_zero b)

/- An element that was left out is counted more often in the whole. -/
theorem leftOut {x : κ} (more : kept'.count x < kept.count x) (part : kept ≤ all) : x ∈ all - kept' := by
  have counts := Multiset.le_iff_count.mp part x
  rw [← Multiset.count_pos,Multiset.count_sub]
  omega

theorem smallestUnique (first : IsSmallest k all kept) (second : IsSmallest k all kept') : kept = kept' := by
  have same : kept.card = kept'.card := first.count.trans second.count.symm
  by_contra differ
  have more : ¬kept ≤ kept' := fun le => differ (Multiset.eq_of_le_of_card_le le same.ge)
  have less : ¬kept' ≤ kept := fun le => differ (Multiset.eq_of_le_of_card_le le same.le).symm
  rw [Multiset.le_iff_count] at more less
  push Not at more less
  obtain ⟨x,moreX⟩ := more
  obtain ⟨y,moreY⟩ := less
  have inX : x ∈ kept := Multiset.count_pos.mp (by omega)
  have inY : y ∈ kept' := Multiset.count_pos.mp (by omega)
  have below := first.below x inX y (leftOut moreY second.part)
  have above := second.below y inY x (leftOut moreX first.part)
  cases le_antisymm below above
  omega

theorem IsSmallest.add (first : IsSmallest k all kept) (second : IsSmallest k (kept + rest) kept') :
    IsSmallest k (all + rest) kept' := by
  have whole : all - kept + kept = all := tsub_add_cancel_of_le first.part
  have parts : all + rest - kept' = all - kept + (kept + rest - kept') := by
    rw [← add_tsub_assoc_of_le second.part,← add_assoc,whole]
  refine ⟨second.part.trans (add_le_add_left first.part rest),?_,fun a inside b left => ?_⟩
  · rw [second.count,Multiset.card_add,first.count,Multiset.card_add]
    omega
  · rw [parts] at left
    rcases Multiset.mem_add.mp left with dropped | left
    · -- an element beyond b would have pushed all of `kept` into `kept'`, which is full then
      by_contra beyond
      have full : kept.card = k := by
        have some' : 0 < (all - kept).card := Multiset.card_pos_iff_exists_mem.mpr ⟨b,dropped⟩
        have size := first.count
        rw [Multiset.card_sub first.part] at some'
        omega
      have inside' : kept ≤ kept' := by
        refine Multiset.le_iff_count.mpr (fun x => ?_)
        by_contra fewer
        have inX : x ∈ kept := Multiset.count_pos.mp (by omega)
        have leftX : x ∈ kept + rest - kept' := by
          rw [← Multiset.count_pos,Multiset.count_sub,Multiset.count_add]
          omega
        exact beyond ((second.below a inside x leftX).trans (first.below x inX b dropped))
      have same : kept = kept' := by
        refine Multiset.eq_of_le_of_card_le inside' ?_
        rw [second.count]
        omega
      exact beyond (first.below a (by rw [same]; exact inside) b dropped)
    · exact second.below a inside b left

/- Elements that come too late to matter are not below any that is kept. -/
theorem IsSmallest.extra (ok : IsSmallest k all kept) (full : k ≤ all.card) (far : ∀ x ∈ rest, ∀ a ∈ kept, a ≤ x) :
    IsSmallest k (all + rest) kept := by
  refine ⟨ok.part.trans (Multiset.le_add_right _ _),?_,fun a inside b left => ?_⟩
  · rw [ok.count,Multiset.card_add]
    omega
  · rw [← tsub_add_eq_add_tsub ok.part] at left
    rcases Multiset.mem_add.mp left with dropped | late
    · exact ok.below a inside b dropped
    · exact far b late a inside

theorem IsSmallest.extraFar (ok : IsSmallest k (all + rest) kept) (part : kept ≤ all) :
    ∀ x ∈ rest, ∀ a ∈ kept, a ≤ x := by
  intro x late a inside
  refine ok.below a inside x ?_
  rw [← tsub_add_eq_add_tsub part]
  exact Multiset.mem_add.mpr (.inr late)

theorem IsSmallest.boundIff (ok : IsSmallest k all kept) (full : k ≤ all.card) (x : κ) :
    (∀ a ∈ kept, a ≤ x) ↔ k ≤ all.countP (· ≤ x) := by
  have size : kept.card = k := ok.count.trans (min_eq_left full)
  constructor
  · intro below
    calc k = kept.countP (· ≤ x) := by rw [Multiset.countP_eq_card.mpr below,size]
      _ ≤ all.countP (· ≤ x) := Multiset.countP_le_of_le _ ok.part
  · intro enough a inside
    by_contra beyond
    have fewer : kept.countP (· ≤ x) ≠ kept.card := fun same => beyond (Multiset.countP_eq_card.mp same a inside)
    have among : kept.countP (· ≤ x) ≤ kept.card := Multiset.countP_le_card _ _
    have some' : 0 < (all - kept).countP (· ≤ x) := by
      rw [Multiset.countP_sub ok.part]
      omega
    obtain ⟨b,left,below⟩ := Multiset.countP_pos.mp some'
    exact beyond ((ok.below a inside b left).trans below)

theorem sortedSmallest (k : Nat) (all : Multiset κ) : IsSmallest k all ((all.sort (· ≤ ·)).take k) := by
  have whole : ((all.sort (· ≤ ·)).take k : Multiset κ) + (all.sort (· ≤ ·)).drop k = all := by
    rw [Multiset.coe_add,List.take_append_drop,Multiset.sort_eq]
  refine ⟨?_,?_,fun a inside b left => ?_⟩
  · exact (Multiset.le_add_right _ _).trans whole.le
  · rw [Multiset.coe_card,List.length_take,Multiset.length_sort]
  · rw [tsub_eq_of_eq_add_rev whole.symm] at left
    have sorted := Multiset.pairwise_sort all (· ≤ ·)
    rw [← List.take_append_drop k (all.sort (· ≤ ·)),List.pairwise_append] at sorted
    exact sorted.2.2 a (Multiset.mem_coe.mp inside) b (Multiset.mem_coe.mp left)

variable [Queue κ]

def keys (q : PQueue κ β) : Multiset κ := q.elems.map Prod.fst

theorem keysPushAll (q : PQueue κ β) (xs : List (κ × β)) : keys (pushAll q xs) = keys q + xs.map Prod.fst := by
  rw [keys,keys,Multiset.coe_add,← List.map_append]
  exact Multiset.coe_eq_coe.mpr ((pushAllPerm q xs).map Prod.fst)

theorem popToSmallest (k : Nat) (q : PQueue κ β) : IsSmallest k (keys q) (keys (popTo k q)) := by
  have whole : ((q.elems.take (q.elems.length - k)).map Prod.fst : Multiset κ) + keys (popTo k q) = keys q := by
    rw [keys,keys,Multiset.coe_add,← List.map_append,popToElems,List.take_append_drop]
  refine ⟨?_,?_,fun a inside b left => ?_⟩
  · rw [← whole]
    exact Multiset.le_add_left _ _
  · rw [keys,keys,Multiset.coe_card,Multiset.coe_card,List.length_map,List.length_map,popToElems,List.length_drop]
    omega
  · rw [← whole,add_tsub_cancel_right] at left
    obtain ⟨x,inX,rfl⟩ := List.mem_map.mp (Multiset.mem_coe.mp inside)
    obtain ⟨y,inY,rfl⟩ := List.mem_map.mp (Multiset.mem_coe.mp left)
    have sorted := Priority.sorted q
    rw [popToElems] at inX
    rw [← List.take_append_drop (q.elems.length - k) q.elems,List.pairwise_append] at sorted
    exact sorted.2.2 y inY x inX

end CoTra.Smallest
