import CoTra.BuildAlignment
import Mathlib.Data.Set.Function
import Mathlib.Order.Interval.Set.Basic

/-! The label and position maps of the distributed build, and how a ScalaGraph finds the
machine and the place of a position from cumulative sizes. Both number the partitions one
after the other, each in the order of its id list. -/
namespace CoTra.LabelMaps
open Indices BuildAlignment

variable {n : Nat}

/- The non-replica id lists, empty ones included. max_vid is a uint32_t. -/
structure Parts (n : Nat) where
  maxVid : Nat
  noreplicaIds : Fin n → List Nat
  ascending : ∀ p, (noreplicaIds p).Pairwise (· < ·)
  disjoint : ∀ p q, ∀ v ∈ noreplicaIds p, v ∈ noreplicaIds q → p = q
  covered : ∀ v, v < maxVid ↔ ∃ p, v ∈ noreplicaIds p
  small : maxVid < 2 ^ 32

variable (parts : Parts n)

def maps : PosMaps :=
  (List.finRange n).foldl (fun maps m => (parts.noreplicaIds m).foldl place maps) ⟨fun _ => 0,[]⟩

def label2pos (v : Nat) : Nat := (maps parts).label2posMap v

def pos2label (x : Nat) : Nat := (maps parts).pos2labelMap.getD x 0

def partitionVecNum (p : Nat) : Nat := if h : p < n then (parts.noreplicaIds ⟨p,h⟩).length else 0

def cumuPartitionNum : Nat → Nat
  | 0 => 0
  | p + 1 => (cumuPartitionNum p + partitionVecNum parts p) % 2 ^ 32

/- The loop over p = 1 .. partition_num, which gives p - 1. It falls off the end for a
position beyond the last. -/
def getMachineId (candId : Nat) : Option (Fin n) :=
  (List.finRange n).find? (fun p => candId < cumuPartitionNum parts (p.val + 1))

def getInternalId (machineId : Fin n) (vid : Nat) : Nat :=
  (vid + 2 ^ 32 - cumuPartitionNum parts machineId.val) % 2 ^ 32

/- What both sides agree on. -/
structure Agree (parts : Parts n) : Prop where
  positions : Set.BijOn (label2pos parts) (Set.Iio parts.maxVid) (Set.Iio parts.maxVid)
  labels : Set.BijOn (pos2label parts) (Set.Iio parts.maxVid) (Set.Iio parts.maxVid)
  inverse : Set.InvOn (pos2label parts) (label2pos parts) (Set.Iio parts.maxVid) (Set.Iio parts.maxVid)
  owner : ∀ x < parts.maxVid, ∀ p, getMachineId parts x = some p ↔ pos2label parts x ∈ parts.noreplicaIds p
  rank : ∀ x < parts.maxVid, ∀ p, pos2label parts x ∈ parts.noreplicaIds p →
    getInternalId parts p x = (parts.noreplicaIds p).idxOf (pos2label parts x) ∧
      getInternalId parts p x < partitionVecNum parts p

section Lists

variable {parts}

/- The ids of all machines, one list behind the other. -/
def allIds (parts : Parts n) : List Nat := (List.finRange n).flatMap parts.noreplicaIds

def idsBefore (parts : Parts n) (p : Nat) : List Nat := ((List.finRange n).take p).flatMap parts.noreplicaIds

theorem labelsAll (parts : Parts n) : (maps parts).pos2labelMap = allIds parts := by
  rw [maps,← List.foldl_flatMap,placeAll]
  rfl

theorem memAll {v : Nat} : v ∈ allIds parts ↔ v < parts.maxVid := by
  rw [allIds,List.mem_flatMap,parts.covered v]
  exact ⟨fun ⟨p,_,member⟩ => ⟨p,member⟩,fun ⟨p,member⟩ => ⟨p,List.mem_finRange p,member⟩⟩

theorem nodupAll (parts : Parts n) : (allIds parts).Nodup := by
  refine List.nodup_flatMap.mpr ⟨fun p _ => (parts.ascending p).imp Nat.ne_of_lt,?_⟩
  refine (List.nodup_finRange n).imp (fun {p q} apart => ?_)
  intro v first second
  exact apart (parts.disjoint p q v first second)

theorem lengthAll (parts : Parts n) : (allIds parts).length = parts.maxVid := by
  have same : (allIds parts).Perm (List.range parts.maxVid) := by
    refine (List.perm_ext_iff_of_nodup (nodupAll parts) List.nodup_range).mpr (fun v => ?_)
    rw [memAll,List.mem_range]
  rw [same.length_eq,List.length_range]

theorem idsNext (parts : Parts n) (p : Fin n) :
    idsBefore parts (p.val + 1) = idsBefore parts p.val ++ parts.noreplicaIds p :=
  joinedNext parts.noreplicaIds p.isLt

theorem beforePrefix (parts : Parts n) (p : Nat) : idsBefore parts p <+: allIds parts :=
  ⟨_,(joinedSplit parts.noreplicaIds p).symm⟩

theorem labelIn (parts : Parts n) (p : Fin n) {i : Nat} (inside : i < (parts.noreplicaIds p).length) :
    (allIds parts)[(idsBefore parts p.val).length + i]? = (parts.noreplicaIds p)[i]? :=
  joinedPlace parts.noreplicaIds p inside

/- The places of a machine are the ones behind all smaller lists. -/
theorem ownIff {x v : Nat} (here : (allIds parts)[x]? = some v) (p : Fin n) :
    v ∈ parts.noreplicaIds p ↔ (idsBefore parts p.val).length ≤ x ∧ x < (idsBefore parts (p.val + 1)).length := by
  rw [idsNext,List.length_append]
  constructor
  · intro member
    have inside := List.idxOf_lt_length_of_mem member
    have again := labelIn parts p inside
    rw [List.getElem?_eq_getElem inside,List.getElem_idxOf inside] at again
    obtain ⟨bound,same⟩ := List.getElem?_eq_some_iff.mp here
    obtain ⟨bound',same'⟩ := List.getElem?_eq_some_iff.mp again
    have place : x = _ := ((nodupAll parts).getElem_inj_iff).mp (same.trans same'.symm)
    omega
  · rintro ⟨above,below⟩
    have inside : x - (idsBefore parts p.val).length < (parts.noreplicaIds p).length := by omega
    have same := labelIn parts p inside
    rw [Nat.add_sub_cancel' above,here] at same
    exact List.mem_of_getElem? same.symm

theorem rankIs {x v : Nat} (here : (allIds parts)[x]? = some v) {p : Fin n} (member : v ∈ parts.noreplicaIds p) :
    (parts.noreplicaIds p).idxOf v = x - (idsBefore parts p.val).length := by
  obtain ⟨above,below⟩ := (ownIff here p).mp member
  rw [idsNext,List.length_append] at below
  have inside : x - (idsBefore parts p.val).length < (parts.noreplicaIds p).length := by omega
  have same := labelIn parts p inside
  rw [Nat.add_sub_cancel' above,here] at same
  obtain ⟨_,same⟩ := List.getElem?_eq_some_iff.mp same.symm
  rw [← same]
  exact List.Nodup.idxOf_getElem ((parts.ascending p).imp Nat.ne_of_lt) _ inside

end Lists

section Positions

variable {parts}

theorem placeIds {ids : List Nat} (nodup : ids.Nodup) (maps : PosMaps) (v : Nat) :
    (ids.foldl place maps).label2posMap v =
      if v ∈ ids then maps.pos2labelMap.length + ids.idxOf v else maps.label2posMap v := by
  induction ids generalizing maps with
  | nil => rfl
  | cons w rest ih =>
    obtain ⟨fresh,nodup⟩ := List.nodup_cons.mp nodup
    rw [List.foldl_cons,ih nodup]
    rcases eq_or_ne v w with rfl | apart
    · rw [if_neg fresh,if_pos List.mem_cons_self,List.idxOf_cons_self]
      exact Function.update_self ..
    · rw [List.idxOf_cons_ne rest apart.symm]
      simp only [List.mem_cons,apart,false_or,place,List.length_append,List.length_singleton,
        Function.update_of_ne apart]
      split
      · omega
      · rfl

theorem label2posIs {v : Nat} (member : v ∈ allIds parts) : label2pos parts v = (allIds parts).idxOf v := by
  rw [label2pos,maps,← List.foldl_flatMap]
  exact (placeIds (nodupAll parts) _ v).trans ((if_pos member).trans (Nat.zero_add _))

theorem pos2labelIs {x : Nat} (inside : x < parts.maxVid) : (allIds parts)[x]? = some (pos2label parts x) := by
  rw [← lengthAll] at inside
  rw [pos2label,labelsAll,List.getD_eq_getElem?_getD,List.getElem?_eq_getElem inside,Option.getD_some]

theorem labelBack {v : Nat} (known : v < parts.maxVid) :
    label2pos parts v < parts.maxVid ∧ pos2label parts (label2pos parts v) = v := by
  have member := memAll.mpr known
  have inside := List.idxOf_lt_length_of_mem member
  have below : label2pos parts v < parts.maxVid := by
    rw [label2posIs member,← lengthAll]
    exact inside
  refine ⟨below,?_⟩
  have here := pos2labelIs below
  rw [label2posIs member,List.getElem?_eq_getElem inside,List.getElem_idxOf inside] at here
  rw [label2posIs member]
  exact (Option.some.inj here).symm

theorem posBack {x : Nat} (inside : x < parts.maxVid) :
    pos2label parts x < parts.maxVid ∧ label2pos parts (pos2label parts x) = x := by
  have here := pos2labelIs inside
  have member := List.mem_of_getElem? here
  refine ⟨memAll.mp member,?_⟩
  obtain ⟨bound,same⟩ := List.getElem?_eq_some_iff.mp here
  rw [label2posIs member,← same]
  exact (nodupAll parts).idxOf_getElem _ bound

end Positions

section Machines

variable {parts}

/- The cumulative sizes do not wrap. -/
theorem cumuIs {p : Nat} (inside : p ≤ n) : cumuPartitionNum parts p = (idsBefore parts p).length := by
  induction p with
  | zero => rfl
  | succ p ih =>
    have within := (beforePrefix parts (p + 1)).length_le
    have small := parts.small
    rw [lengthAll] at within
    have next : (idsBefore parts (p + 1)).length = (idsBefore parts p).length + (parts.noreplicaIds ⟨p,inside⟩).length := by
      rw [← List.length_append]
      exact congrArg List.length (idsNext parts ⟨p,inside⟩)
    rw [cumuPartitionNum,ih (Nat.le_of_succ_le inside),partitionVecNum,dif_pos (Nat.lt_of_succ_le inside),next]
    exact Nat.mod_eq_of_lt (by omega)

theorem machineIff {x : Nat} (p : Fin n) : getMachineId parts x = some p ↔
    (idsBefore parts p.val).length ≤ x ∧ x < (idsBefore parts (p.val + 1)).length := by
  have sizes : ∀ q : Fin n, cumuPartitionNum parts (q.val + 1) = (idsBefore parts (q.val + 1)).length :=
    fun q => cumuIs q.isLt
  rw [getMachineId,List.find?_eq_some_iff_getElem]
  simp only [sizes,decide_eq_true_eq,List.getElem_finRange,Bool.not_eq_true',decide_eq_false_iff_not,Nat.not_lt]
  constructor
  · rintro ⟨below,i,bound,same,before⟩
    refine ⟨?_,below⟩
    subst same
    cases i with
    | zero => exact Nat.zero_le _
    | succ i => exact before i (Nat.lt_succ_self i)
  · rintro ⟨above,below⟩
    refine ⟨below,p.val,by rw [List.length_finRange]; exact p.isLt,rfl,fun j earlier => ?_⟩
    refine le_trans ?_ above
    have more : (List.finRange n).take (j + 1) <+: (List.finRange n).take p.val := List.take_prefix_take_left (by omega)
    obtain ⟨rest,whole⟩ := more
    rw [idsBefore,idsBefore,← whole,List.flatMap_append,List.length_append]
    exact Nat.le_add_right _ _

theorem internalIs {x : Nat} {p : Fin n} (inside : x < parts.maxVid) (above : (idsBefore parts p.val).length ≤ x) :
    getInternalId parts p x = x - (idsBefore parts p.val).length := by
  have small := parts.small
  rw [getInternalId,cumuIs (Nat.le_of_lt p.isLt)]
  omega

/- The maps are inverse to each other, and the machine and the place that a ScalaGraph
computes for a position are those of its label. -/
theorem mapsAgree (parts : Parts n) : Agree parts := by
  have inverse : Set.InvOn (pos2label parts) (label2pos parts) (Set.Iio parts.maxVid) (Set.Iio parts.maxVid) :=
    ⟨fun v known => (labelBack known).2,fun x inside => (posBack inside).2⟩
  refine ⟨inverse.bijOn ?_ ?_,inverse.symm.bijOn ?_ ?_,inverse,fun x inside p => ?_,fun x inside p member => ?_⟩
  · exact fun v known => (labelBack known).1
  · exact fun x inside => (posBack inside).1
  · exact fun x inside => (posBack inside).1
  · exact fun v known => (labelBack known).1
  · rw [machineIff,ownIff (pos2labelIs inside)]
  · have here := pos2labelIs inside
    obtain ⟨above,_⟩ := (ownIff here p).mp member
    have rank : getInternalId parts p x = (parts.noreplicaIds p).idxOf (pos2label parts x) := by
      rw [internalIs inside above,rankIs here member]
    refine ⟨rank,?_⟩
    rw [rank,partitionVecNum,dif_pos p.isLt]
    exact List.idxOf_lt_length_of_mem member

/- A machine without ids lies between two others. -/
def gap : Parts 3 where
  maxVid := 3
  noreplicaIds p := if p = 0 then [1,2] else if p = 2 then [0] else []
  ascending := by decide
  disjoint := by decide
  covered v := by
    have below : ∀ p : Fin 3, ∀ v ∈ (if p = 0 then [1,2] else if p = 2 then [0] else []), v < 3 := by decide
    refine ⟨fun small => ?_,fun ⟨p,member⟩ => below p v member⟩
    obtain rfl | rfl | rfl : v = 0 ∨ v = 1 ∨ v = 2 := by omega
    · exact ⟨2,by decide⟩
    · exact ⟨0,by decide⟩
    · exact ⟨0,by decide⟩
  small := by decide

example : [0,1,2].map (fun x => (pos2label gap x,getMachineId gap x)) = [(1,some 0),(2,some 0),(0,some 2)] := by decide

end Machines

/- The distributed build numbers its positions this way. -/
theorem buildMaps {maxVid : Nat} {V : Type} (b : Build n maxVid V) (small : maxVid < 2 ^ 32) :
    posMaps b = maps ⟨maxVid,b.noreplica,b.ascending,b.disjoint,b.covered,small⟩ := rfl

end CoTra.LabelMaps
