import CoTra.Heaps
import Mathlib.Order.OrderDual

/-! Priority queues of one kind of keys, for elements of any type. The comparison reads the
keys only, so a queue does not see when its elements are renamed. Which of two equal keys
goes first is left open. -/
namespace CoTra.Priority
open Heaps (Heap)

def renamed {κ β γ : Type} (f : β → γ) (c : κ × β) : κ × γ := (c.1,f c.2)

class Queue (κ : Type) [LinearOrder κ] where
  heap : (β : Type) → Heap κ β
  map : {β γ : Type} → (β → γ) → (heap β).Store → (heap γ).Store
  mapEmpty : ∀ {β γ : Type} (f : β → γ), map f (heap β).empty = (heap γ).empty
  mapPush : ∀ {β γ : Type} (f : β → γ) (q : (heap β).Store) (x : κ × β),
    map f ((heap β).push q x) = (heap γ).push (map f q) (renamed f x)
  mapPop : ∀ {β γ : Type} (f : β → γ) (q : (heap β).Store),
    (heap γ).pop (map f q) = ((heap β).pop q).map (fun p => (renamed f p.1,map f p.2))

section LastFirst

variable {κ : Type} [LinearOrder κ] {β γ : Type}

theorem insertRenamed (f : β → γ) (x : κ × β) (xs : List (κ × β)) :
    Heaps.Sorted.insert (renamed f x) (xs.map (renamed f)) = (Heaps.Sorted.insert x xs).map (renamed f) := by
  induction xs with
  | nil => rfl
  | cons y rest ih =>
    simp only [List.map_cons,Heaps.Sorted.insert,renamed]
    split
    · rfl
    · exact congrArg _ ih

theorem renamedSorted (f : β → γ) (q : Heaps.Sorted κ β) :
    (q.elems.map (renamed f)).Pairwise (fun a b => b.1 ≤ a.1) :=
  List.pairwise_map.mpr q.sorted

theorem pushRenamed (f : β → γ) (q : Heaps.Sorted κ β) (x : κ × β) :
    (⟨(Heaps.Sorted.insert x q.elems).map (renamed f),renamedSorted f ((Heaps.lastFirst κ β).push q x)⟩ :
      Heaps.Sorted κ γ) = (Heaps.lastFirst κ γ).push ⟨q.elems.map (renamed f),renamedSorted f q⟩ (renamed f x) := by
  have same := insertRenamed f x q.elems
  simp only [Heaps.lastFirst,same]

theorem popRenamed (f : β → γ) (q : Heaps.Sorted κ β) :
    Heaps.Sorted.pop ⟨q.elems.map (renamed f),renamedSorted f q⟩ =
      (Heaps.Sorted.pop q).map (fun p => (renamed f p.1,⟨p.2.elems.map (renamed f),renamedSorted f p.2⟩)) := by
  cases q with
  | mk elems order => cases elems <;> rfl

abbrev lastFirst (κ : Type) [LinearOrder κ] : Queue κ where
  heap β := Heaps.lastFirst κ β
  map f q := ⟨q.elems.map (renamed f),renamedSorted f q⟩
  mapEmpty _ := rfl
  mapPush f q x := pushRenamed f q x
  mapPop f q := popRenamed f q

/- Distances, and the queues that have the farthest and the nearest element on top. -/
class Distance (D : Type) extends LinearOrder D where
  farthest : Queue D
  nearest : Queue Dᵒᵈ

instance {D : Type} [Distance D] : Queue D := Distance.farthest

instance {D : Type} [Distance D] : Queue Dᵒᵈ := Distance.nearest

-- The queues of the examples.
instance : Distance Nat := ⟨lastFirst Nat,lastFirst Natᵒᵈ⟩

end LastFirst

variable {κ : Type} [LinearOrder κ] [Queue κ] {β γ : Type}

abbrev heap (κ β : Type) [LinearOrder κ] [queue : Queue κ] : Heap κ β := queue.heap β

def PQueue (κ β : Type) [LinearOrder κ] [Queue κ] : Type := (heap κ β).Store

-- The elements in the order in which they are popped.
def PQueue.elems (q : PQueue κ β) : List (κ × β) := Heaps.drained (heap κ β) q

def empty : PQueue κ β := (heap κ β).empty

def push (q : PQueue κ β) (x : κ × β) : PQueue κ β := (heap κ β).push q x

def size (q : PQueue κ β) : Nat := q.elems.length

def top (q : PQueue κ β) : Option (κ × β) := Heaps.top (heap κ β) q

def pop (q : PQueue κ β) : PQueue κ β := (Heaps.popMany (heap κ β) 1 q).2

-- while (size() > bound) pop();
def popTo (bound : Nat) (q : PQueue κ β) : PQueue κ β := (Heaps.popMany (heap κ β) (size q - bound) q).2

def pushAll (q : PQueue κ β) (xs : List (κ × β)) : PQueue κ β := xs.foldl push q

theorem emptyElems : (empty : PQueue κ β).elems = [] :=
  List.perm_nil.mp ((Heaps.drainedPerm _).trans (List.Perm.of_eq (heap κ β).elemsEmpty))

theorem notMemEmpty {z : κ × β} : z ∉ (empty : PQueue κ β).elems := by
  rw [emptyElems]
  exact List.not_mem_nil

theorem sorted (q : PQueue κ β) : q.elems.Pairwise (fun a b => b.1 ≤ a.1) := Heaps.drainedSorted q

theorem pushPerm (q : PQueue κ β) (x : κ × β) : (push q x).elems.Perm (x :: q.elems) :=
  calc (push q x).elems
      _ |>.Perm ((heap κ β).elems (push q x)) := Heaps.drainedPerm _
      _ |>.Perm (x :: (heap κ β).elems q) := (heap κ β).elemsPush q x
      _ |>.Perm (x :: q.elems) := (Heaps.drainedPerm q).symm.cons x

theorem pushEmpty (x : κ × β) : (push empty x).elems = [x] := by
  have alone := pushPerm empty x
  rw [emptyElems] at alone
  exact List.perm_singleton.mp alone

theorem popElems (q : PQueue κ β) : (pop q).elems = q.elems.tail := by
  rw [← List.drop_one]
  exact Heaps.drainedPopMany 1 q

theorem popToElems (bound : Nat) (q : PQueue κ β) : (popTo bound q).elems = q.elems.drop (q.elems.length - bound) :=
  Heaps.drainedPopMany _ q

theorem topHead (q : PQueue κ β) : top q = q.elems.head? := Heaps.topDrained q

@[simp] theorem memPush {q : PQueue κ β} {x z : κ × β} : z ∈ (push q x).elems ↔ z = x ∨ z ∈ q.elems :=
  (pushPerm q x).mem_iff.trans List.mem_cons

@[simp] theorem sizePush (q : PQueue κ β) (x : κ × β) : size (push q x) = size q + 1 := (pushPerm q x).length_eq

theorem topNone {q : PQueue κ β} (none' : top q = none) : q.elems = [] :=
  List.head?_eq_none_iff.mp ((topHead q).symm.trans none')

theorem topPushEmpty (x : κ × β) : top (push empty x) = some x := by
  rw [topHead,pushEmpty]
  rfl

theorem topMem {q : PQueue κ β} {x : κ × β} (first : top q = some x) : x ∈ q.elems :=
  List.mem_of_mem_head? ((topHead q).symm.trans first)

theorem topLargest {q : PQueue κ β} {x : κ × β} (first : top q = some x) : ∀ z ∈ q.elems, z.1 ≤ x.1 := by
  have ordered := sorted q
  rw [List.eq_cons_of_mem_head? ((topHead q).symm.trans first)] at ordered ⊢
  intro z member
  rcases List.mem_cons.mp member with rfl | inside
  · exact le_rfl
  · exact (List.pairwise_cons.mp ordered).1 z inside

theorem memPop {q : PQueue κ β} {z : κ × β} (member : z ∈ (pop q).elems) : z ∈ q.elems := by
  rw [popElems] at member
  exact List.mem_of_mem_tail member

theorem popToSublist (bound : Nat) (q : PQueue κ β) : (popTo bound q).elems.Sublist q.elems := by
  rw [popToElems]
  exact List.drop_sublist _ _

theorem memPopTo {bound : Nat} {q : PQueue κ β} {z : κ × β} (member : z ∈ (popTo bound q).elems) : z ∈ q.elems :=
  (popToSublist bound q).mem member

theorem popToZero (q : PQueue κ β) : (popTo 0 q).elems = [] := by
  rw [popToElems,Nat.sub_zero,List.drop_length]

theorem sizePopTo (bound : Nat) (q : PQueue κ β) : size (popTo bound q) = min (size q) bound := by
  rw [size,popToElems,List.length_drop,size]
  omega

theorem popToAll {bound : Nat} {q : PQueue κ β} (fits : size q ≤ bound) : popTo bound q = q := by
  rw [popTo,Nat.sub_eq_zero_of_le fits]
  rfl

theorem memPushAll {q : PQueue κ β} {xs : List (κ × β)} {z : κ × β} :
    z ∈ (pushAll q xs).elems ↔ z ∈ q.elems ∨ z ∈ xs := by
  induction xs generalizing q with
  | nil => simp [pushAll]
  | cons x rest ih =>
    have step : pushAll q (x :: rest) = pushAll (push q x) rest := rfl
    rw [step,ih,memPush,List.mem_cons,or_assoc,or_left_comm]

theorem pushAllPerm (q : PQueue κ β) (xs : List (κ × β)) : (pushAll q xs).elems.Perm (q.elems ++ xs) := by
  induction xs generalizing q with
  | nil => rw [List.append_nil]; exact List.Perm.refl _
  | cons x rest ih =>
    have middle : (x :: q.elems ++ rest).Perm (q.elems ++ x :: rest) := List.perm_middle.symm
    exact (ih (push q x)).trans (((pushPerm q x).append_right rest).trans middle)

theorem pushAllEmpty (xs : List (κ × β)) : (pushAll empty xs).elems.Perm xs := by
  have all := pushAllPerm (empty : PQueue κ β) xs
  rwa [emptyElems,List.nil_append] at all

section Renamed

variable (f : β → γ)

def rename (q : PQueue κ β) : PQueue κ γ := Queue.map f q

theorem renameEmpty : rename f (empty : PQueue κ β) = empty := Queue.mapEmpty f

theorem renamePush (q : PQueue κ β) (x : κ × β) : rename f (push q x) = push (rename f q) (renamed f x) :=
  Queue.mapPush f q x

theorem renamePopMany (k : Nat) (q : PQueue κ β) :
    (Heaps.popMany (heap κ γ) k (rename f q)).2 = rename f (Heaps.popMany (heap κ β) k q).2 := by
  induction k generalizing q with
  | zero => rfl
  | succ k ih =>
    have step : (heap κ γ).pop (rename f q) = _ := Queue.mapPop f q
    cases ok : (heap κ β).pop q with
    | none =>
      rw [ok] at step
      simp only [Heaps.popMany,step,ok,Option.map_none]
      rfl
    | some pair =>
      rw [ok] at step
      simp only [Heaps.popMany,step,ok,Option.map_some]
      exact ih pair.2

theorem renameElems (q : PQueue κ β) : (rename f q).elems = q.elems.map (renamed f) := by
  induction q using Heaps.popInduction (h := heap κ β) with
  | none' q ok =>
    have step : (heap κ γ).pop (rename f q) = none := (Queue.mapPop f q).trans (congrArg _ ok)
    exact (Heaps.drainedNone step).trans (congrArg (List.map (renamed f)) (Heaps.drainedNone ok)).symm
  | some' q x rest ok ih =>
    have step : (heap κ γ).pop (rename f q) = some (renamed f x,rename f rest) :=
      (Queue.mapPop f q).trans (congrArg _ ok)
    calc (rename f q).elems
        = renamed f x :: (rename f rest).elems := Heaps.drainedPop step
      _ = renamed f x :: (PQueue.elems rest).map (renamed f) := congrArg _ ih
      _ = (PQueue.elems q).map (renamed f) := (congrArg (List.map (renamed f)) (Heaps.drainedPop ok)).symm

theorem renameSize (q : PQueue κ β) : size (rename f q) = size q := by
  rw [size,renameElems,List.length_map,size]

theorem renamePopTo (bound : Nat) (q : PQueue κ β) : popTo bound (rename f q) = rename f (popTo bound q) := by
  rw [popTo,renameSize]
  exact renamePopMany f _ q

end Renamed

end CoTra.Priority
