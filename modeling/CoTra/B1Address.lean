import CoTra.Indices
import Mathlib.Data.List.Basic
import Mathlib.Algebra.Order.Group.Nat
import Mathlib.Algebra.BigOperators.Group.List.Basic
import Mathlib.Tactic.Ring

/-! The place of an element of the B1 graph (b1_graph.h: RandomVectorIndex and
KmeansVectorIndex; scala_search.h: getData). One routine lays the partitions out over the
elements, another finds the partition of an id and the place in it. -/
namespace CoTra.B1Address

/- MACHINE_NUM and the sizes; `asserts` is whether the build keeps them. -/
structure Config where
  machineNum : Nat
  maxElements : Nat
  dataLevel0Memory : Nat
  sizeDataPerElement : Nat
  asserts : Bool
  someMachine : 1 ≤ machineNum
  fewMachines : machineNum < 2 ^ 31
  enough : machineNum ≤ maxElements

variable (cfg : Config)

/- The map file of KmeansVectorIndex. -/
structure Family where
  kmeansPartSize : List Nat
  kmeansVecSize : Nat
  parts : kmeansPartSize.length = cfg.machineNum
  whole : kmeansPartSize.sum = cfg.maxElements

inductive Index where
  | random
  | kmeans (family : Family cfg)

structure Ptrs where
  partitionPtr : List Nat
  partitionVecNum : List Nat
  partitionSize : List Nat

def Ptrs.add (p : Ptrs) (ptr vecNum size : Nat) : Ptrs :=
  ⟨p.partitionPtr ++ [ptr],p.partitionVecNum ++ [vecNum],p.partitionSize ++ [size]⟩

def avgSize : Nat := cfg.maxElements / cfg.machineNum

-- The pointers and cumu_num.
def randomPart (s : Ptrs × Nat) : Ptrs × Nat :=
  (s.1.add (cfg.dataLevel0Memory + s.2 * cfg.sizeDataPerElement) (avgSize cfg) (avgSize cfg * cfg.sizeDataPerElement),
    s.2 + avgSize cfg)

def randomInit : Ptrs :=
  let s := (List.range (cfg.machineNum - 1)).foldl (fun s _ => randomPart cfg s) (⟨[],[],[]⟩,0)
  let last := cfg.maxElements - s.2
  s.1.add (cfg.dataLevel0Memory + s.2 * cfg.sizeDataPerElement) last (last * cfg.sizeDataPerElement)

-- The pointers and cumu_size.
def kmeansPart (s : Ptrs × Nat) (partSize : Nat) : Ptrs × Nat :=
  (s.1.add (cfg.dataLevel0Memory + s.2) partSize (partSize * cfg.sizeDataPerElement),
    s.2 + partSize * cfg.sizeDataPerElement)

def kmeansInit (family : Family cfg) : Option Ptrs :=
  let s := (family.kmeansPartSize.take cfg.machineNum).foldl (kmeansPart cfg) (⟨[],[],[]⟩,0)
  if cfg.asserts = true ∧ s.2 ≠ family.kmeansVecSize then none else some s.1

def initPtr : Index cfg → Option Ptrs
  | .random => some (randomInit cfg)
  | .kmeans family => kmeansInit cfg family

-- assert(0); return 0;
def notFound : Option Nat := if cfg.asserts then none else some 0

def kmeansMachine (vectorId : Nat) : List Nat → Nat → Nat → Option Nat
  | [],_,_ => notFound cfg
  | num :: rest,p,cumunum =>
    if vectorId < cumunum + num then some p else kmeansMachine vectorId rest (p + 1) (cumunum + num)

def kmeansInternal (vectorId : Nat) : List Nat → Nat → Option Nat
  | [],_ => notFound cfg
  | num :: rest,cumunum =>
    if vectorId < cumunum + num then some (vectorId - cumunum) else kmeansInternal vectorId rest (cumunum + num)

def getVectorMachine (p : Ptrs) (vectorId : Nat) : Index cfg → Option Nat
  | .random => some (vectorId / avgSize cfg % 2 ^ 32)
  | .kmeans _ => kmeansMachine cfg vectorId p.partitionVecNum 0 0

def getInternalId (p : Ptrs) (vectorId : Nat) : Index cfg → Option Nat
  | .random => some (vectorId - vectorId / avgSize cfg % 2 ^ 32 * avgSize cfg)
  | .kmeans _ => kmeansInternal cfg vectorId p.partitionVecNum 0

/- The machine and the place in it are those of the element. -/
structure ExactAt (p : Ptrs) (vectorId machine internal : Nat) : Prop where
  known : machine < cfg.machineNum
  inside : ∃ num, p.partitionVecNum[machine]? = some num ∧ internal < num
  address : ∃ ptr, p.partitionPtr[machine]? = some ptr ∧
    ptr + internal * cfg.sizeDataPerElement = cfg.dataLevel0Memory + vectorId * cfg.sizeDataPerElement

def Exact (index : Index cfg) : Prop :=
  ∃ p, initPtr cfg index = some p ∧ ∀ vectorId < cfg.maxElements, ∃ machine internal,
    getVectorMachine cfg p vectorId index = some machine ∧ getInternalId cfg p vectorId index = some internal ∧
      ExactAt cfg p vectorId machine internal

section Layout

variable {cfg} {p : Ptrs} {nums : List Nat}

/- The partitions lie one after the other. -/
structure Laid (cfg : Config) (p : Ptrs) (nums : List Nat) : Prop where
  vecNum : p.partitionVecNum = nums
  ptrs : p.partitionPtr.length = nums.length
  ptr : ∀ k < nums.length, p.partitionPtr[k]? =
    some (cfg.dataLevel0Memory + (nums.take k).sum * cfg.sizeDataPerElement)

theorem laidNone (cfg : Config) : Laid cfg ⟨[],[],[]⟩ [] :=
  ⟨rfl,rfl,fun _ less => absurd less (Nat.not_lt_zero _)⟩

theorem laidAdd (laid : Laid cfg p nums) {ptr : Nat} (num size : Nat)
    (next : ptr = cfg.dataLevel0Memory + nums.sum * cfg.sizeDataPerElement) :
    Laid cfg (p.add ptr num size) (nums ++ [num]) := by
  refine ⟨?_,?_,fun k less => ?_⟩
  · rw [Ptrs.add,laid.vecNum]
  · rw [Ptrs.add,List.length_append,List.length_append,laid.ptrs,List.length_singleton,List.length_singleton]
  · rw [List.length_append,List.length_singleton] at less
    rw [Ptrs.add]
    rcases Nat.lt_succ_iff_lt_or_eq.mp less with before | rfl
    · rw [List.getElem?_append_left (by rw [laid.ptrs]; exact before),laid.ptr k before,
        List.take_append_of_le_length before.le]
    · rw [← laid.ptrs,List.getElem?_concat_length,laid.ptrs,List.take_left,next]

theorem randomLaid (cfg : Config) (q : Nat) :
    Laid cfg ((List.range q).foldl (fun s _ => randomPart cfg s) (⟨[],[],[]⟩,0)).1 (List.replicate q (avgSize cfg)) ∧
      ((List.range q).foldl (fun s _ => randomPart cfg s) (⟨[],[],[]⟩,0)).2 = q * avgSize cfg := by
  induction q with
  | zero => exact ⟨laidNone cfg,(Nat.zero_mul _).symm⟩
  | succ q ih =>
    rw [List.range_succ,List.foldl_concat,List.replicate_succ']
    refine ⟨laidAdd ih.1 _ _ ?_,?_⟩
    · rw [ih.2,List.sum_replicate_nat]
    · rw [randomPart,ih.2,Nat.succ_mul]

theorem kmeansLaid (sizes : List Nat) {s : Ptrs × Nat} (laid : Laid cfg s.1 nums)
    (cumu : s.2 = nums.sum * cfg.sizeDataPerElement) :
    Laid cfg (sizes.foldl (kmeansPart cfg) s).1 (nums ++ sizes) ∧
      (sizes.foldl (kmeansPart cfg) s).2 = (nums ++ sizes).sum * cfg.sizeDataPerElement := by
  induction sizes generalizing s nums with
  | nil => exact ⟨by rw [List.append_nil]; exact laid,by rw [List.append_nil]; exact cumu⟩
  | cons size rest ih =>
    have next := ih (s := kmeansPart cfg s size) (laidAdd laid size _ (by rw [cumu])) (by
      rw [kmeansPart,cumu,List.sum_append,List.sum_singleton,Nat.add_mul])
    rwa [List.append_assoc,List.singleton_append] at next

/- A place whose partition and offset add up to the id. -/
theorem laidExact (laid : Laid cfg p nums) (parts : nums.length = cfg.machineNum) {vectorId machine internal num : Nat}
    (here : nums[machine]? = some num) (inside : internal < num)
    (sum : (nums.take machine).sum + internal = vectorId) : ExactAt cfg p vectorId machine internal := by
  obtain ⟨less,_⟩ := List.getElem?_eq_some_iff.mp here
  refine ⟨parts ▸ less,⟨num,by rw [laid.vecNum]; exact here,inside⟩,_,laid.ptr machine less,?_⟩
  rw [← sum]
  ring

theorem findMachine {vectorId : Nat} (nums : List Nat) (p cumunum : Nat) (low : cumunum ≤ vectorId)
    (high : vectorId < cumunum + nums.sum) :
    ∃ machine num internal, kmeansMachine cfg vectorId nums p cumunum = some (p + machine) ∧
      kmeansInternal cfg vectorId nums cumunum = some internal ∧ nums[machine]? = some num ∧ internal < num ∧
      cumunum + (nums.take machine).sum + internal = vectorId := by
  induction nums generalizing p cumunum with
  | nil => exact absurd (lt_of_le_of_lt low high) (lt_irrefl _)
  | cons num rest ih =>
    rw [List.sum_cons] at high
    rw [kmeansMachine,kmeansInternal]
    split
    · rename_i here
      exact ⟨0,num,vectorId - cumunum,rfl,rfl,rfl,by omega,by rw [List.take_zero,List.sum_nil]; omega⟩
    · rename_i later
      obtain ⟨machine,num',internal,found,offset,place,inside,sum⟩ := ih (p + 1) (cumunum + num) (by omega) (by omega)
      refine ⟨machine + 1,num',internal,by rw [found]; congr 1; omega,offset,place,inside,?_⟩
      rw [List.take_succ_cons,List.sum_cons]
      omega

end Layout

section Exact

variable {cfg}

theorem avgPositive (cfg : Config) : 0 < avgSize cfg := Nat.div_pos cfg.enough cfg.someMachine

/- The quotient of an id fits 32 bits. -/
theorem quotientSmall {vectorId : Nat} (inside : vectorId < cfg.maxElements) :
    vectorId / avgSize cfg % 2 ^ 32 = vectorId / avgSize cfg := by
  have positive := avgPositive cfg
  have few := cfg.fewMachines
  have next : cfg.maxElements < (avgSize cfg + 1) * cfg.machineNum := by
    rw [Nat.mul_comm]
    exact Nat.lt_mul_div_succ _ cfg.someMachine
  have double : (avgSize cfg + 1) * cfg.machineNum ≤ 2 ^ 32 * avgSize cfg := by
    calc (avgSize cfg + 1) * cfg.machineNum ≤ (2 * avgSize cfg) * 2 ^ 31 := Nat.mul_le_mul (by omega) (by omega)
      _ = 2 ^ 32 * avgSize cfg := by ring
  refine Nat.mod_eq_of_lt ((Nat.div_lt_iff_lt_mul positive).mpr ?_)
  omega

theorem randomExact (divides : cfg.machineNum ∣ cfg.maxElements) : Exact cfg .random := by
  have positive := avgPositive cfg
  have some' := cfg.someMachine
  have whole : cfg.machineNum * avgSize cfg = cfg.maxElements := Nat.mul_div_cancel' divides
  obtain ⟨laid,cumu⟩ := randomLaid cfg (cfg.machineNum - 1)
  have laid' : Laid cfg (randomInit cfg) (List.replicate (cfg.machineNum - 1) (avgSize cfg) ++
      [cfg.maxElements - (cfg.machineNum - 1) * avgSize cfg]) := by
    unfold randomInit
    simp only
    rw [cumu]
    exact laidAdd laid _ _ (by rw [List.sum_replicate_nat])
  have last : cfg.maxElements - (cfg.machineNum - 1) * avgSize cfg = avgSize cfg := by
    rw [← whole,Nat.sub_mul,Nat.one_mul]
    have : avgSize cfg ≤ cfg.machineNum * avgSize cfg := Nat.le_mul_of_pos_left _ some'
    omega
  rw [last,← List.replicate_succ',Nat.sub_add_cancel some'] at laid'
  refine ⟨randomInit cfg,rfl,fun vectorId inside => ?_⟩
  have machine : vectorId / avgSize cfg < cfg.machineNum := by
    rw [Nat.div_lt_iff_lt_mul positive,whole]
    exact inside
  have parts := Nat.div_add_mod vectorId (avgSize cfg)
  have rest := Nat.mod_lt vectorId positive
  rw [Nat.mul_comm] at parts
  refine ⟨_,_,rfl,rfl,?_⟩
  rw [quotientSmall inside]
  have place : (List.replicate cfg.machineNum (avgSize cfg))[vectorId / avgSize cfg]? = some (avgSize cfg) := by
    rw [List.getElem?_replicate,if_pos machine]
  refine laidExact laid' List.length_replicate place (by omega) ?_
  · rw [List.take_replicate,Nat.min_eq_left machine.le,List.sum_replicate_nat]
    omega

/- The last id has a machine only when the machines divide the elements. -/
theorem randomDivides (exact' : Exact cfg .random) : cfg.machineNum ∣ cfg.maxElements := by
  have positive := avgPositive cfg
  have some' := cfg.someMachine
  have enough := cfg.enough
  obtain ⟨p,_,all⟩ := exact'
  have inside : cfg.maxElements - 1 < cfg.maxElements := by omega
  obtain ⟨machine,internal,found,_,at'⟩ := all (cfg.maxElements - 1) inside
  cases Option.some.inj found
  have known := at'.known
  rw [quotientSmall inside,Nat.div_lt_iff_lt_mul positive] at known
  have below : cfg.machineNum * avgSize cfg ≤ cfg.maxElements := Nat.mul_div_le _ _
  exact ⟨avgSize cfg,by omega⟩

theorem kmeansTotal (cfg : Config) (family : Family cfg) :
    Laid cfg ((family.kmeansPartSize.take cfg.machineNum).foldl (kmeansPart cfg) (⟨[],[],[]⟩,0)).1 family.kmeansPartSize ∧
      ((family.kmeansPartSize.take cfg.machineNum).foldl (kmeansPart cfg) (⟨[],[],[]⟩,0)).2 =
        cfg.maxElements * cfg.sizeDataPerElement := by
  have laid := kmeansLaid family.kmeansPartSize (s := (⟨[],[],[]⟩,0)) (laidNone cfg) (Nat.zero_mul _).symm
  rw [List.nil_append,family.whole] at laid
  rwa [List.take_of_length_le family.parts.le]

theorem kmeansExact (family : Family cfg)
    (checked : cfg.asserts = true → cfg.maxElements * cfg.sizeDataPerElement = family.kmeansVecSize) :
    Exact cfg (.kmeans family) := by
  obtain ⟨laid,cumu⟩ := kmeansTotal cfg family
  refine ⟨_,if_neg (fun failed => failed.2 (cumu.trans (checked failed.1))),fun vectorId inside => ?_⟩
  have high : vectorId < 0 + family.kmeansPartSize.sum := by rwa [Nat.zero_add,family.whole]
  obtain ⟨machine,num,internal,found,offset,place,small,sum⟩ :=
    @findMachine cfg _ family.kmeansPartSize 0 0 (Nat.zero_le _) high
  rw [Nat.zero_add] at found sum
  refine ⟨machine,internal,?_,?_,laidExact laid family.parts place small sum⟩
  · rw [getVectorMachine,laid.vecNum]
    exact found
  · rw [getInternalId,laid.vecNum]
    exact offset

end Exact

/- When the places are right: the machines divide the elements, or the sizes come from the
map file; a build with assertions compares the bytes of all partitions with the ids of the file. -/
def Placed : Index cfg → Prop
  | .random => cfg.machineNum ∣ cfg.maxElements
  | .kmeans family => cfg.asserts = true → cfg.maxElements * cfg.sizeDataPerElement = family.kmeansVecSize

theorem addressExact (cfg : Config) (index : Index cfg) : Exact cfg index ↔ Placed cfg index := by
  cases index with
  | random => exact ⟨randomDivides,randomExact⟩
  | kmeans family =>
    refine ⟨fun ⟨p,init,_⟩ asserted => ?_,kmeansExact family⟩
    rw [initPtr,kmeansInit] at init
    split at init
    · cases init
    · rename_i checked
      by_contra differ
      exact checked ⟨asserted,fun same => differ ((kmeansTotal cfg family).2.symm.trans same)⟩

/- Three elements on three machines as a map file may have them, none on the first. -/
def threeFamily : Family ⟨3,3,4096,8,false,by decide,by decide,by decide⟩ := ⟨[0,2,1],3,rfl,rfl⟩

theorem threeFamilyExact : Exact _ (.kmeans threeFamily) :=
  (addressExact _ (.kmeans threeFamily)).mpr (fun asserted => nomatch asserted)

/- Three elements on two machines: element 2 would be on machine 2. -/
theorem threeOnTwo : ¬Exact ⟨2,3,4096,8,false,by decide,by decide,by decide⟩ .random := by
  rintro ⟨p,_,all⟩
  obtain ⟨machine,internal,found,_,at'⟩ := all 2 (by decide)
  cases Option.some.inj found
  exact absurd at'.known (by decide)

end CoTra.B1Address
