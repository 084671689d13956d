import CoTra.Indices
import Mathlib.Data.List.Basic
import Mathlib.Order.Defs.LinearOrder
import Mathlib.Order.Basic

/-! Priority queues whose order among equal keys is not fixed: what a queue holds is known
up to a permutation, and the element it gives up first has a largest key. A queue that is
cut back to a bound after every push keeps everything below the keys it gave up. -/
namespace CoTra.Heaps

structure Heap (κ β : Type) [LinearOrder κ] where
  Store : Type
  elems : Store → List (κ × β)
  empty : Store
  push : Store → κ × β → Store
  pop : Store → Option ((κ × β) × Store)
  elemsEmpty : elems empty = []
  elemsPush : ∀ q x, (elems (push q x)).Perm (x :: elems q)
  elemsPop : ∀ q x rest, pop q = some (x,rest) → (elems q).Perm (x :: elems rest)
  popLargest : ∀ q x rest, pop q = some (x,rest) → ∀ z ∈ elems q, z.1 ≤ x.1
  popNone : ∀ q, pop q = none → elems q = []

variable {κ β : Type} [LinearOrder κ]

/- A list with the largest key in front, in which the element pushed last goes first among
equal keys. -/
structure Sorted (κ β : Type) [LinearOrder κ] where
  elems : List (κ × β)
  sorted : elems.Pairwise (fun a b => b.1 ≤ a.1)

namespace Sorted

def insert (x : κ × β) : List (κ × β) → List (κ × β)
  | [] => [x]
  | y :: rest => if y.1 ≤ x.1 then x :: y :: rest else y :: insert x rest

theorem insertPerm (x : κ × β) (xs : List (κ × β)) : (insert x xs).Perm (x :: xs) := by
  induction xs with
  | nil => exact List.Perm.refl _
  | cons y rest ih =>
    unfold insert
    split
    · exact List.Perm.refl _
    · exact (ih.cons y).trans (List.Perm.swap x y rest)

theorem insertSorted {x : κ × β} {xs : List (κ × β)} (sorted : xs.Pairwise (fun a b => b.1 ≤ a.1)) :
    (insert x xs).Pairwise (fun a b => b.1 ≤ a.1) := by
  induction xs with
  | nil => exact List.pairwise_singleton _ _
  | cons y rest ih =>
    obtain ⟨first,later⟩ := List.pairwise_cons.mp sorted
    unfold insert
    split
    · rename_i below
      refine List.pairwise_cons.mpr ⟨fun z member => ?_,sorted⟩
      rcases List.mem_cons.mp member with rfl | inside
      · exact below
      · exact le_trans (first z inside) below
    · rename_i above
      refine List.pairwise_cons.mpr ⟨fun z member => ?_,ih later⟩
      rcases List.mem_cons.mp ((insertPerm x rest).mem_iff.mp member) with rfl | inside
      · exact (not_le.mp above).le
      · exact first z inside

theorem tailSorted (q : Sorted κ β) : q.elems.tail.Pairwise (fun a b => b.1 ≤ a.1) :=
  q.sorted.sublist (List.tail_sublist _)

def pop (q : Sorted κ β) : Option ((κ × β) × Sorted κ β) := q.elems.head?.map (fun x => (x,⟨q.elems.tail,tailSorted q⟩))

theorem popShape {q rest : Sorted κ β} {x : κ × β} (ok : pop q = some (x,rest)) : q.elems = x :: rest.elems := by
  obtain ⟨y,first,same⟩ := Option.map_eq_some_iff.mp ok
  cases same
  exact List.eq_cons_of_mem_head? first

theorem popFirst {q rest : Sorted κ β} {x : κ × β} (ok : pop q = some (x,rest)) : ∀ z ∈ q.elems, z.1 ≤ x.1 := by
  have sorted := q.sorted
  rw [popShape ok] at sorted ⊢
  intro z member
  rcases List.mem_cons.mp member with rfl | inside
  · exact le_rfl
  · exact (List.pairwise_cons.mp sorted).1 z inside

theorem popEmpty {q : Sorted κ β} (ok : pop q = none) : q.elems = [] :=
  List.head?_eq_none_iff.mp (Option.map_eq_none_iff.mp ok)

end Sorted

def lastFirst (κ β : Type) [LinearOrder κ] : Heap κ β where
  Store := Sorted κ β
  elems := Sorted.elems
  empty := ⟨[],List.Pairwise.nil⟩
  push q x := ⟨Sorted.insert x q.elems,Sorted.insertSorted q.sorted⟩
  pop := Sorted.pop
  elemsEmpty := rfl
  elemsPush q x := Sorted.insertPerm x q.elems
  elemsPop _ _ _ ok := List.Perm.of_eq (Sorted.popShape ok)
  popLargest _ _ _ ok := Sorted.popFirst ok
  popNone _ ok := Sorted.popEmpty ok

variable (h : Heap κ β)

def size (q : h.Store) : Nat := (h.elems q).length

def top (q : h.Store) : Option (κ × β) := (h.pop q).map Prod.fst

/- What some pops give up, in their order, and what is left. -/
def popMany : Nat → h.Store → List (κ × β) × h.Store
  | 0, q => ([],q)
  | k + 1, q => match h.pop q with
    | none => ([],q)
    | some (x,rest) => (x :: (popMany k rest).1,(popMany k rest).2)

-- while (size() > bound) pop();
def popTo (bound : Nat) (q : h.Store) : List (κ × β) × h.Store := popMany h (size h q - bound) q

def topKey (q : h.Store) (old : κ) : κ := match top h q with
  | none => old
  | some x => x.1

section Laws

variable {h} {q rest : h.Store} {x z : κ × β} {bound : Nat}

theorem memPush : z ∈ h.elems (h.push q x) ↔ z = x ∨ z ∈ h.elems q :=
  ((h.elemsPush q x).mem_iff).trans List.mem_cons

theorem sizePush : size h (h.push q x) = size h q + 1 := (h.elemsPush q x).length_eq

theorem pushEmpty : h.elems (h.push h.empty x) = [x] := by
  have alone := h.elemsPush h.empty x
  rw [h.elemsEmpty] at alone
  exact List.perm_singleton.mp alone

theorem memPushEmpty (inside : z ∈ h.elems (h.push h.empty x)) : z = x := by
  rw [pushEmpty] at inside
  exact List.mem_singleton.mp inside

theorem sizePushEmpty : size h (h.push h.empty x) = 1 := by
  rw [size,pushEmpty]
  rfl

theorem sizePop (ok : h.pop q = some (x,rest)) : size h q = size h rest + 1 := (h.elemsPop q x rest ok).length_eq

theorem popSome (some' : h.elems q ≠ []) : ∃ x rest, h.pop q = some (x,rest) := by
  cases ok : h.pop q with
  | none => exact absurd (h.popNone q ok) some'
  | some pair => exact ⟨pair.1,pair.2,rfl⟩

theorem popManyPerm (k : Nat) (q : h.Store) :
    (h.elems q).Perm ((popMany h k q).1 ++ h.elems (popMany h k q).2) := by
  induction k generalizing q with
  | zero => exact List.Perm.refl _
  | succ k ih =>
    cases ok : h.pop q with
    | none => simp only [popMany,ok]; exact List.Perm.refl _
    | some pair =>
      simp only [popMany,ok]
      exact (h.elemsPop q pair.1 pair.2 ok).trans ((ih pair.2).cons pair.1)

theorem popManyLargest (k : Nat) (q : h.Store) :
    ∀ x ∈ (popMany h k q).1, ∀ z ∈ h.elems (popMany h k q).2, z.1 ≤ x.1 := by
  induction k generalizing q with
  | zero => intro x member; exact absurd member List.not_mem_nil
  | succ k ih =>
    cases ok : h.pop q with
    | none => simp only [popMany,ok]; intro x member; exact absurd member List.not_mem_nil
    | some pair =>
      simp only [popMany,ok]
      intro x member z inside
      rcases List.mem_cons.mp member with rfl | later
      · have before : z ∈ h.elems pair.2 := (popManyPerm k pair.2).mem_iff.mpr (List.mem_append_right _ inside)
        have held := (h.elemsPop q pair.1 pair.2 ok).mem_iff.mpr (List.mem_cons_of_mem _ before)
        exact h.popLargest q pair.1 pair.2 ok z held
      · exact ih pair.2 x later z inside

theorem popManySize (k : Nat) (q : h.Store) : size h (popMany h k q).2 = size h q - k := by
  induction k generalizing q with
  | zero => rfl
  | succ k ih =>
    cases ok : h.pop q with
    | none =>
      have none' : size h q = 0 := congrArg List.length (h.popNone q ok)
      simp only [popMany,ok]
      omega
    | some pair =>
      have more := sizePop ok
      simp only [popMany,ok,ih]
      omega

/- A queue is used up after finitely many pops. -/
theorem popInduction {motive : h.Store → Prop} (none' : ∀ q, h.pop q = none → motive q)
    (some' : ∀ q x rest, h.pop q = some (x,rest) → motive rest → motive q) (q : h.Store) : motive q := by
  generalize len : size h q = k
  induction k generalizing q with
  | zero =>
    refine none' q (Option.eq_none_iff_forall_ne_some.mpr (fun pair ok => ?_))
    exact absurd ((sizePop ok).symm.trans len) (Nat.succ_ne_zero _)
  | succ k ih =>
    cases ok : h.pop q with
    | none => exact none' q ok
    | some pair => exact some' q pair.1 pair.2 ok (ih pair.2 (Nat.succ_injective ((sizePop ok).symm.trans len)))

/- Everything a queue holds, in the order in which it is given up. -/
def drained (h : Heap κ β) (q : h.Store) : List (κ × β) := (popMany h (size h q) q).1

theorem drainedPop (ok : h.pop q = some (x,rest)) : drained h q = x :: drained h rest := by
  rw [drained,sizePop ok]
  simp only [popMany,ok]
  rfl

theorem drainedNone (ok : h.pop q = none) : drained h q = [] := by
  have none' : size h q = 0 := congrArg List.length (h.popNone q ok)
  rw [drained,none']
  rfl

theorem topDrained (q : h.Store) : top h q = (drained h q).head? := by
  cases ok : h.pop q with
  | none => simp only [top,ok,drainedNone ok,Option.map_none,List.head?_nil]
  | some pair => simp only [top,ok,drainedPop ok,Option.map_some,List.head?_cons]

theorem drainedPerm (q : h.Store) : (drained h q).Perm (h.elems q) := by
  have left : h.elems (popMany h (size h q) q).2 = [] := by
    refine List.eq_nil_of_length_eq_zero ?_
    have none' := popManySize (size h q) q
    rwa [Nat.sub_self] at none'
  have parts := popManyPerm (size h q) q
  rw [left,List.append_nil] at parts
  exact parts.symm

theorem drainedPopMany (k : Nat) (q : h.Store) : drained h (popMany h k q).2 = (drained h q).drop k := by
  induction k generalizing q with
  | zero => rfl
  | succ k ih =>
    cases ok : h.pop q with
    | none =>
      simp only [popMany,ok]
      rw [drainedNone ok,List.drop_nil]
    | some pair =>
      simp only [popMany,ok]
      rw [ih pair.2,drainedPop ok,List.drop_succ_cons]

theorem drainedSorted (q : h.Store) : (drained h q).Pairwise (fun a b => b.1 ≤ a.1) := by
  induction q using popInduction with
  | none' q ok =>
    rw [drainedNone ok]
    exact List.Pairwise.nil
  | some' q x rest ok ih =>
    have held : ∀ z ∈ drained h rest, z ∈ h.elems q := fun z inside =>
      (h.elemsPop q x rest ok).mem_iff.mpr (List.mem_cons_of_mem _ ((drainedPerm rest).mem_iff.mp inside))
    rw [drainedPop ok]
    exact List.pairwise_cons.mpr ⟨fun z inside => h.popLargest q x rest ok z (held z inside),ih⟩

theorem popToPerm (bound : Nat) (q : h.Store) :
    (h.elems q).Perm ((popTo h bound q).1 ++ h.elems (popTo h bound q).2) := popManyPerm _ q

theorem memPopTo (inside : z ∈ h.elems (popTo h bound q).2) : z ∈ h.elems q :=
  (popToPerm bound q).mem_iff.mpr (List.mem_append_right _ inside)

theorem sizePopTo (bound : Nat) (q : h.Store) : size h (popTo h bound q).2 = min (size h q) bound := by
  rw [popTo,popManySize]
  omega

/- What was given up is behind all that is left, and then the queue is full. -/
theorem popToDropped (inside : x ∈ (popTo h bound q).1) :
    size h (popTo h bound q).2 = bound ∧ ∀ z ∈ h.elems (popTo h bound q).2, z.1 ≤ x.1 := by
  refine ⟨?_,popManyLargest _ q x inside⟩
  have more : bound < size h q := by
    by_contra few
    have none' : size h q - bound = 0 := Nat.sub_eq_zero_of_le (Nat.le_of_not_lt few)
    rw [popTo,none'] at inside
    exact absurd inside List.not_mem_nil
  rw [sizePopTo]
  omega

theorem topKeyLargest (old : κ) (inside : z ∈ h.elems q) : z.1 ≤ topKey h q old := by
  obtain ⟨x,rest,ok⟩ := popSome (List.ne_nil_of_mem inside)
  simp only [topKey,top,ok,Option.map_some]
  exact h.popLargest q x rest ok z inside

theorem topKeyMem (old : κ) (some' : h.elems q ≠ []) : ∃ z ∈ h.elems q, z.1 = topKey h q old := by
  obtain ⟨x,rest,ok⟩ := popSome some'
  refine ⟨x,(h.elemsPop q x rest ok).mem_iff.mpr List.mem_cons_self,?_⟩
  simp only [topKey,top,ok,Option.map_some]

end Laws

section Bounded

/- A queue cut back to `ef`, and the bound that goes with it. -/
structure Bounded (ef : Nat) (q : h.Store) (bound : κ) : Prop where
  few : size h q ≤ ef
  below : ∀ z ∈ h.elems q, z.1 ≤ bound

/- An element is in the queue, or the queue is full of elements that are not behind it. -/
def Covered (ef : Nat) (q : h.Store) (bound : κ) (e : κ × β) : Prop :=
  e ∈ h.elems q ∨ size h q = ef ∧ bound ≤ e.1

def offer (ef : Nat) (q : h.Store) (x : κ × β) : List (κ × β) × h.Store := popTo h ef (h.push q x)

variable {h} {q : h.Store} {x e : κ × β} {ef : Nat} {bound : κ}

theorem offerPerm (ef : Nat) (q : h.Store) (x : κ × β) :
    (x :: h.elems q).Perm ((offer h ef q x).1 ++ h.elems (offer h ef q x).2) :=
  (h.elemsPush q x).symm.trans (popToPerm ef _)

theorem memOffer (inside : e ∈ h.elems (offer h ef q x).2) : e = x ∨ e ∈ h.elems q := memPush.mp (memPopTo inside)

theorem sizeOffer : size h (offer h ef q x).2 = min (size h q + 1) ef := by
  rw [offer,sizePopTo,sizePush]

theorem offerSome (room : 1 ≤ ef) : h.elems (offer h ef q x).2 ≠ [] := by
  have some' : 0 < size h (offer h ef q x).2 := by
    rw [sizeOffer]
    omega
  exact List.ne_nil_of_length_pos some'

theorem offerBounded : Bounded h ef (offer h ef q x).2 (topKey h (offer h ef q x).2 bound) where
  few := by
    rw [sizeOffer]
    omega
  below _ inside := topKeyLargest bound inside

/- The element that is offered, or what the queue held, when there is room or the element
is in front of the bound. -/
theorem offerCovered (room : 1 ≤ ef) (bounded : Bounded h ef q bound) (taken : size h q < ef ∨ x.1 < bound)
    (before : e = x ∨ Covered h ef q bound e) :
    Covered h ef (offer h ef q x).2 (topKey h (offer h ef q x).2 bound) e := by
  obtain ⟨last,inLast,isKey⟩ := topKeyMem bound (offerSome (h := h) (q := q) (x := x) room)
  have held : e = x ∨ e ∈ h.elems q → Covered h ef (offer h ef q x).2 (topKey h (offer h ef q x).2 bound) e := by
    intro inside
    rcases List.mem_append.mp ((offerPerm ef q x).mem_iff.mp (List.mem_cons.mpr inside)) with dropped | kept
    · obtain ⟨full,behind⟩ := popToDropped dropped
      exact .inr ⟨full,isKey ▸ behind last inLast⟩
    · exact .inl kept
  rcases before with same | inside | ⟨full,beyond⟩
  · exact held (.inl same)
  · exact held (.inr inside)
  · -- the queue was full, so the new element is in front of the old bound and the bound falls
    have front : x.1 < bound := taken.resolve_left (by omega)
    refine .inr ⟨by rw [sizeOffer]; omega,?_⟩
    rw [← isKey]
    rcases memOffer inLast with rfl | old
    · exact front.le.trans beyond
    · exact (bounded.below last old).trans beyond

theorem refusedCovered (bounded : Bounded h ef q bound) (refused : ¬(size h q < ef ∨ x.1 < bound)) :
    Covered h ef q bound x := by
  obtain ⟨full,beyond⟩ := not_or.mp refused
  exact .inr ⟨Nat.le_antisymm bounded.few (Nat.le_of_not_lt full),not_lt.mp beyond⟩

end Bounded

end CoTra.Heaps
