import CoTra.Indices

/-! The tree that a range is split into: node t has the numbers up to e, its left child is t + 1
and its right child, if anything is left for one, the place where the rest is split. Every number
of the range is one node, under one parent. -/
namespace CoTra.SplitTree

-- Where the rest of a node that has more than itself is split.
def Splits (mid : Nat → Nat → Nat) : Prop := ∀ t e, t + 1 < e → t + 1 < mid t e ∧ mid t e ≤ e

variable {mid : Nat → Nat → Nat}

def kid (mid : Nat → Nat → Nat) (t e : Nat) (right : Bool) : Nat := if right then mid t e else t + 1

def kidEnd (mid : Nat → Nat → Nat) (t e : Nat) (right : Bool) : Nat := if right then e else mid t e

def HasKid (mid : Nat → Nat → Nat) (t e : Nat) (right : Bool) : Prop := t + 1 ≠ e ∧ (right = true → mid t e < e)

inductive Node (mid : Nat → Nat → Nat) (num : Nat) : Nat → Nat → Prop where
  | root : Node mid num 0 num
  | under {t e : Nat} {right : Bool} (parent : Node mid num t e) (has : HasKid mid t e right) :
    Node mid num (kid mid t e right) (kidEnd mid t e right)

variable {num t e t' e' : Nat} {right right' : Bool}

section Ranges

theorem kidInside (splits : Splits mid) (inside : t < e) (has : HasKid mid t e right) :
    t < kid mid t e right ∧ kid mid t e right < kidEnd mid t e right ∧ kidEnd mid t e right ≤ e := by
  have split' := splits t e (by have := has.1; omega)
  cases right with
  | false => simp only [kid,kidEnd,Bool.false_eq_true,if_false]; omega
  | true =>
    have rest := has.2 rfl
    simp only [kid,kidEnd,if_true]
    omega

theorem nodeInside (splits : Splits mid) (some' : 0 < num) (node : Node mid num t e) : t < e ∧ e ≤ num := by
  induction node with
  | root => exact ⟨some',Nat.le_refl num⟩
  | under parent has ih =>
    have range := kidInside splits ih.1 has
    omega

theorem kidPositive (splits : Splits mid) (some' : 0 < num) (node : Node mid num t e)
    (has : HasKid mid t e right) : t < kid mid t e right ∧ kid mid t e right < num := by
  have inside := nodeInside splits some' node
  have range := kidInside splits inside.1 has
  omega

/- Between a node and its end every number is a node. -/
theorem nodesBetween (splits : Splits mid) (node : Node mid num t e) {x : Nat} (from' : t ≤ x) (to' : x < e) :
    ∃ e', Node mid num x e' := by
  -- on the numbers that the node has
  induction size : e - t using Nat.strongRecOn generalizing t e with
  | ind _ ih =>
    rcases Nat.eq_or_lt_of_le from' with rfl | behind
    · exact ⟨e,node⟩
    · have split' := splits t e (by omega)
      have left : HasKid mid t e false := ⟨by omega,fun no => absurd no Bool.false_ne_true⟩
      rcases Nat.lt_or_ge x (mid t e) with before | after
      · refine ih _ ?_ (node.under left) ?_ ?_ rfl <;> simp only [kid,kidEnd,Bool.false_eq_true,if_false] <;> omega
      · have right : HasKid mid t e true := ⟨by omega,fun _ => by omega⟩
        refine ih _ ?_ (node.under right) ?_ ?_ rfl <;> simp only [kid,kidEnd,if_true] <;> omega

theorem nodeOf (splits : Splits mid) {x : Nat} (inside : x < num) : ∃ e, Node mid num x e :=
  nodesBetween splits .root (Nat.zero_le x) inside

end Ranges

section Parents

/- The parent of x below node t, looked for from there. -/
def parentOf (mid : Nat → Nat → Nat) : Nat → Nat → Nat → Nat → Nat × Bool
  | 0,_,_,_ => (0,false)
  | fuel + 1,t,e,x =>
    if x = t + 1 then (t,false)
    else if x = mid t e then (t,true)
    else if x < mid t e then parentOf mid fuel (t + 1) (mid t e) x
    else parentOf mid fuel (mid t e) e x

theorem parentKid (splits : Splits mid) (fuel : Nat) (inside : t < e) (has : HasKid mid t e right) :
    parentOf mid (fuel + 1) t e (kid mid t e right) = (t,right) := by
  have split' := splits t e (by have := has.1; omega)
  cases right with
  | false => simp only [kid,parentOf,Bool.false_eq_true,if_false,if_true]
  | true =>
    simp only [kid,parentOf,if_true]
    rw [if_neg (by omega)]

theorem parentBelow (splits : Splits mid) (fuel : Nat) (inside : t < e) (has : HasKid mid t e right) {x : Nat}
    (from' : kid mid t e right < x) (to' : x < kidEnd mid t e right) :
    parentOf mid (fuel + 1) t e x = parentOf mid fuel (kid mid t e right) (kidEnd mid t e right) x := by
  have split' := splits t e (by have := has.1; omega)
  cases right with
  | false =>
    simp only [kid,kidEnd,Bool.false_eq_true,if_false] at from' to' ⊢
    rw [parentOf,if_neg (by omega),if_neg (by omega),if_pos to']
  | true =>
    simp only [kid,kidEnd,if_true] at from' to' ⊢
    rw [parentOf,if_neg (by omega),if_neg (by omega),if_neg (by omega)]

/- What is found from the root is found from every node on the way. -/
theorem foundBelow (splits : Splits mid) (some' : 0 < num) (node : Node mid num t e) :
    ∃ fuel, e ≤ t + fuel ∧ ∀ x, t < x → x < e → parentOf mid num 0 num x = parentOf mid fuel t e x := by
  induction node with
  | root => exact ⟨num,by omega,fun x _ _ => rfl⟩
  | @under t e right parent has ih =>
    obtain ⟨fuel,enough,found⟩ := ih
    have inside := (nodeInside splits some' parent).1
    have range := kidInside splits inside has
    obtain ⟨rest,rfl⟩ : ∃ rest, fuel = rest + 1 := ⟨fuel - 1,by omega⟩
    refine ⟨rest,by omega,fun x from' to' => ?_⟩
    rw [found x (by omega) (by omega),parentBelow splits rest inside has from' to']

theorem parentFound (splits : Splits mid) (some' : 0 < num) (node : Node mid num t e) (has : HasKid mid t e right) :
    parentOf mid num 0 num (kid mid t e right) = (t,right) := by
  obtain ⟨fuel,enough,found⟩ := foundBelow splits some' node
  have inside := (nodeInside splits some' node).1
  have range := kidInside splits inside has
  obtain ⟨rest,rfl⟩ : ∃ rest, fuel = rest + 1 := ⟨fuel - 1,by omega⟩
  rw [found _ range.1 (by omega),parentKid splits rest inside has]

theorem oneParent (splits : Splits mid) (some' : 0 < num) (node : Node mid num t e) (node' : Node mid num t' e')
    (has : HasKid mid t e right) (has' : HasKid mid t' e' right')
    (same : kid mid t e right = kid mid t' e' right') : t = t' ∧ right = right' := by
  have found := parentFound splits some' node has
  rw [same,parentFound splits some' node' has'] at found
  exact ⟨(Prod.mk.inj found).1.symm,(Prod.mk.inj found).2.symm⟩

theorem oneEnd (splits : Splits mid) (some' : 0 < num) (node : Node mid num t e) (node' : Node mid num t e') : e = e' := by
  induction t using Nat.strongRecOn generalizing e e' with
  | ind t ih =>
    generalize here : t = u at node'
    cases node with
    | root =>
      cases node' with
      | root => rfl
      | under parent has => exact absurd here (by have := kidPositive splits some' parent has; omega)
    | @under p f right parent has =>
      have range := kidPositive splits some' parent has
      cases node' with
      | root => omega
      | @under p' f' right' parent' has' =>
        obtain ⟨rfl,rfl⟩ := oneParent splits some' parent parent' has has' here
        rw [ih p range.1 parent parent']

end Parents

end CoTra.SplitTree
