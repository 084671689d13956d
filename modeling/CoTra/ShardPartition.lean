import CoTra.Runs
import Mathlib.Data.List.FinRange
import Mathlib.Data.Rat.Defs
import Mathlib.Algebra.Order.Field.Rat
import Mathlib.Algebra.BigOperators.Group.Finset.Basic
import Mathlib.Data.Fintype.Basic
import Mathlib.Tactic.Linarith
import Mathlib.Tactic.Ring
import Mathlib.Tactic.Positivity

/-! The partition of the points with and without replicas (partition.cc:
shard_data_into_clusters_with_and_without_replica; math_utils.cc:
compute_balance_norp_rp_closest_centers and its block function; math_utils.h:
ClusterBalancer). Distances are finite floats, weights exact rationals. The chunks of a
block run at once: a chunk may read any count a centre has had, and it adds its own
counts when it is done. -/
namespace CoTra.ShardPartition
open Runs

variable {m : Nat}

-- std::numeric_limits<float>::max()
def maxFloat : ℚ := (2 ^ 24 - 1) * 2 ^ 104

structure Float32 where
  value : ℚ
  shape : ∃ (mant : ℤ) (exp : ℕ), |mant| < 2 ^ 24 ∧ exp ≤ 104 + 149 ∧ value = mant * 2 ^ exp / 2 ^ 149

structure ClusterInfo where
  count : Nat
  totalDist : ℚ
  maxDist : ℚ

def noInfo : ClusterInfo := ⟨0,0,0⟩

/- The data set, the distances of its points to the centres and the parameters. `sqrt` is
std::sqrt. -/
structure Config (m : Nat) where
  numPoints : Nat
  kBase : Nat
  floatData : Bool
  dist : Nat → Fin m → Float32
  sqrt : ℚ → ℚ
  somePoints : 1 ≤ numPoints
  fewPoints : numPoints < 2 ^ 32
  someCenters : 1 ≤ kBase
  fewCenters : kBase ≤ m
  below : ∀ i j, (dist i j).value < maxFloat

def BLOCK_SIZE : Nat := 500000

section Lambda

variable (sqrt : ℚ → ℚ) (clusters : List ClusterInfo)

def maxCluster : ClusterInfo :=
  match clusters with
  | [] => noInfo
  | first :: rest => rest.foldl (fun best c => if best.count < c.count then c else best) first

def total : ℚ := (clusters.map (fun c => (c.count : ℚ))).sum

def computeStdDev : ℚ :=
  let mean := total clusters / clusters.length
  let sumSq := (clusters.map (fun c => if total clusters = 0 then 0 else
    ((c.count : ℚ) / total clusters - mean / total clusters) *
      ((c.count : ℚ) / total clusters - mean / total clusters))).sum
  sqrt (sumSq / clusters.length)

def clamp (v low high : ℚ) : ℚ := if v < low then low else if high < v then high else v

-- The balancer of the partition: decay 0.95, lambda between 0 and 1.
def computeLambda : ℚ :=
  let top := maxCluster clusters
  let avgDist := if top.count = 0 then 0 else top.totalDist / top.count
  let baseLambda := if total clusters = 0 then 0 else (top.maxDist - avgDist) / total clusters
  let newLambda := baseLambda * (1 + computeStdDev sqrt clusters)
  clamp (newLambda * (95 / 100)) 0 1

end Lambda

structure Chunk (m : Nat) where
  next : Nat
  localNorpStats : Fin m → ClusterInfo
  localRpStats : Fin m → ClusterInfo
  committed : Bool

-- What an id map writer has written, and the count of its shard.
structure IdMap where
  ids : List Nat
  count : Nat

structure State (m : Nat) where
  block : Nat
  norpLambda : ℚ
  rpLambda : ℚ
  norpClusterStats : Fin m → ClusterInfo
  rpClusterStats : Fin m → ClusterInfo
  chunk : Nat → Chunk m
  centerIndex : Nat → List (Fin m)
  noreplica : Fin m → IdMap
  replica : Fin m → IdMap

variable (cfg : Config m)

def blockSize : Nat := if cfg.numPoints ≤ BLOCK_SIZE then cfg.numPoints else BLOCK_SIZE

def numBlocks : Nat := (cfg.numPoints + blockSize cfg - 1) / blockSize cfg

def startId (block : Nat) : Nat := block * blockSize cfg

def curBlkSize (block : Nat) : Nat := min ((block + 1) * blockSize cfg) cfg.numPoints - startId cfg block

def chunkNum (block : Nat) : Nat := (curBlkSize cfg block + 8191) / 8192

def chunkStop (block c : Nat) : Nat := min (curBlkSize cfg block) (8192 * c + 8192)

-- current[j] of point i, with the weight of the mode.
def weightedDist (lambda : ℚ) (count : Nat) (d : ℚ) : ℚ :=
  if cfg.floatData then d * (lambda * count / (lambda * count + 1)) else d + lambda * count

/- Step 1: the first centre with the least weighted distance below the maximum. -/
def closest (weight : Fin m → ℚ) : Option (Fin m) :=
  ((List.finRange m).foldl (fun best j => if weight j < best.1 then (weight j,some j) else best)
    ((maxFloat,none) : ℚ × Option (Fin m))).2

/- The centres of a point: the closest, and k - 1 pops of the queue of the others.
`ranked` is the order in which that queue gives them out. -/
def chooseCenters (norpWeight rpWeight : Fin m → ℚ) (ranked : List (Fin m)) : Option (List (Fin m)) :=
  (closest norpWeight).bind (fun first =>
    if ranked.Perm ((List.finRange m).filter (· ≠ first)) ∧ ranked.Pairwise (fun a b => rpWeight a ≤ rpWeight b) then
      some (first :: ranked.take (cfg.kBase - 1))
    else none)

def addPoint (d : Fin m → ℚ) (stats : Fin m → ClusterInfo) (c : Fin m) : Fin m → ClusterInfo :=
  Function.update stats c ⟨(stats c).count + 1,(stats c).totalDist + d c,max (stats c).maxDist (d c)⟩

def addStats (stats more : Fin m → ClusterInfo) : Fin m → ClusterInfo := fun j =>
  ⟨(stats j).count + (more j).count,(stats j).totalDist + (more j).totalDist,max (stats j).maxDist (more j).maxDist⟩

def freshChunk (c : Nat) : Chunk m := ⟨8192 * c,fun _ => noInfo,fun _ => noInfo,false⟩

/- One point of chunk c, with the counts it reads. -/
def procPoint (s : State m) (c : Nat) (norpSeen rpSeen : Fin m → Nat) (ranked : List (Fin m)) : Option (State m) :=
  let chunk := s.chunk c
  let i := chunk.next
  let d := fun j => (cfg.dist (startId cfg s.block + i) j).value
  if c < chunkNum cfg s.block ∧ chunk.committed = false ∧ i < chunkStop cfg s.block c ∧
      ∀ j, norpSeen j ≤ (s.norpClusterStats j).count ∧ rpSeen j ≤ (s.rpClusterStats j).count then
    (chooseCenters cfg (fun j => weightedDist cfg s.norpLambda (norpSeen j) (d j))
      (fun j => weightedDist cfg s.rpLambda (rpSeen j) (d j)) ranked).map (fun centers =>
      { s with
        chunk := Function.update s.chunk c { chunk with
          next := i + 1
          localNorpStats := (centers.take 1).foldl (addPoint d) chunk.localNorpStats
          localRpStats := centers.foldl (addPoint d) chunk.localRpStats }
        centerIndex := Function.update s.centerIndex i centers })
  else none

-- The critical section of a chunk.
def commit (s : State m) (c : Nat) : Option (State m) :=
  let chunk := s.chunk c
  if c < chunkNum cfg s.block ∧ chunk.committed = false ∧ ¬chunk.next < chunkStop cfg s.block c then
    some { s with
      norpClusterStats := addStats s.norpClusterStats chunk.localNorpStats
      rpClusterStats := addStats s.rpClusterStats chunk.localRpStats
      chunk := Function.update s.chunk c { chunk with committed := true } }
  else none

def append (map : Fin m → IdMap) (shard : Fin m) (id : Nat) : Fin m → IdMap :=
  Function.update map shard ⟨(map shard).ids ++ [id],(map shard).count + 1⟩

structure Writers (m : Nat) where
  noreplica : Fin m → IdMap
  replica : Fin m → IdMap

def writePoint (id : Nat) (w : Writers m) (centers : List (Fin m)) : Writers m :=
  centers.zipIdx.foldl (fun w shard =>
    ⟨if shard.2 = 0 then append w.noreplica shard.1 id else w.noreplica,append w.replica shard.1 id⟩) w

def writeBlock (start len : Nat) (centerIndex : Nat → List (Fin m)) (w : Writers m) : Writers m :=
  (List.range len).foldl (fun w p => writePoint ((start + p) % 2 ^ 32) w (centerIndex p)) w

def beginBlock (s : State m) (block : Nat) : State m :=
  { s with
    block := block
    norpLambda := computeLambda cfg.sqrt (List.ofFn s.norpClusterStats)
    rpLambda := computeLambda cfg.sqrt (List.ofFn s.rpClusterStats)
    chunk := freshChunk }

/- All chunks are done: the ids of the block are written, and the next block begins. -/
def endBlock (s : State m) : Option (State m) :=
  if s.block < numBlocks cfg ∧ ∀ c < chunkNum cfg s.block, (s.chunk c).committed = true then
    let w := writeBlock (startId cfg s.block) (curBlkSize cfg s.block) s.centerIndex ⟨s.noreplica,s.replica⟩
    some (beginBlock cfg { s with noreplica := w.noreplica, replica := w.replica } (s.block + 1))
  else none

inductive Act (m : Nat) where
  | point (c : Nat) (norpSeen rpSeen : Fin m → Nat) (ranked : List (Fin m))
  | commit (c : Nat)
  | endBlock

def step (s : State m) : Act m → Option (State m)
  | .point c norpSeen rpSeen ranked => procPoint cfg s c norpSeen rpSeen ranked
  | .commit c => commit cfg s c
  | .endBlock => endBlock cfg s

-- closest_centers is not initialised.
def start (centerIndex : Nat → List (Fin m)) : State m :=
  beginBlock cfg ⟨0,0,0,fun _ => noInfo,fun _ => noInfo,freshChunk,centerIndex,fun _ => ⟨[],0⟩,fun _ => ⟨[],0⟩⟩ 0

-- cur_shard_count, written over the header of the file.
def header (map : IdMap) : Nat := map.count % 2 ^ 32

section Weights

variable {cfg}

/- The largest float below the maximum is 2^104 below it. -/
theorem belowMax {f : Float32} (below : f.value < maxFloat) : f.value ≤ maxFloat - 2 ^ 104 := by
  obtain ⟨mant,exp,small,range,value⟩ := f.shape
  have top : mant ≤ 2 ^ 24 - 1 := by
    have := (abs_lt.mp small).2
    omega
  rw [maxFloat] at below ⊢
  rcases le_or_gt mant 0 with sign | sign
  · have nonpos : f.value ≤ 0 := by
      rw [value]
      have cast : (mant : ℚ) ≤ 0 := by exact_mod_cast sign
      exact div_nonpos_of_nonpos_of_nonneg (mul_nonpos_of_nonpos_of_nonneg cast (by positivity)) (by positivity)
    linarith
  · rcases Nat.lt_or_ge exp 253 with lower | equal
    · have power : (2 : ℚ) ^ exp ≤ 2 ^ 252 := pow_le_pow_right₀ (by norm_num) (by omega)
      have cast : (mant : ℚ) ≤ 2 ^ 24 - 1 := by exact_mod_cast top
      have pos : (0 : ℚ) ≤ mant := by exact_mod_cast sign.le
      have bound : f.value ≤ (2 ^ 24 - 1) * 2 ^ 252 / 2 ^ 149 := by
        rw [value]
        have := mul_le_mul cast power (by positivity) (by norm_num)
        exact div_le_div_of_nonneg_right this (by positivity)
      exact bound.trans (by norm_num)
    · have exact' : exp = 253 := by omega
      have scaled : f.value = mant * 2 ^ 104 := by
        rw [value,exact']
        ring
      rw [scaled] at below ⊢
      have less : (mant : ℚ) < 2 ^ 24 - 1 := lt_of_mul_lt_mul_right below (by positivity)
      have less' : mant ≤ 2 ^ 24 - 2 := by
        have : mant < 2 ^ 24 - 1 := by exact_mod_cast less
        omega
      have cast : (mant : ℚ) ≤ 2 ^ 24 - 2 := by exact_mod_cast less'
      have := mul_le_mul_of_nonneg_right cast (show (0 : ℚ) ≤ 2 ^ 104 by positivity)
      linarith

theorem lambdaRange (sqrt : ℚ → ℚ) (clusters : List ClusterInfo) :
    0 ≤ computeLambda sqrt clusters ∧ computeLambda sqrt clusters ≤ 1 := by
  unfold computeLambda clamp
  simp only
  generalize (if total clusters = 0 then 0 else _) * (1 + computeStdDev sqrt clusters) * (95 / 100) = v
  split
  · exact ⟨le_rfl,zero_le_one⟩
  · rename_i nonneg
    split
    · exact ⟨zero_le_one,le_rfl⟩
    · rename_i small
      exact ⟨not_lt.mp nonneg,not_lt.mp small⟩

theorem weightedBelow {lambda : ℚ} (nonneg : 0 ≤ lambda) (small : lambda ≤ 1) {count : Nat} (few : count < 2 ^ 32)
    {f : Float32} (below : f.value < maxFloat) : weightedDist cfg lambda count f.value < maxFloat := by
  have count' : (count : ℚ) < 2 ^ 32 := by exact_mod_cast few
  have countNonneg : (0 : ℚ) ≤ count := Nat.cast_nonneg count
  have product : 0 ≤ lambda * count := mul_nonneg nonneg countNonneg
  unfold weightedDist
  split
  · -- the factor lies between 0 and 1
    have low : 0 ≤ lambda * count / (lambda * count + 1) := div_nonneg product (by linarith)
    have high : lambda * count / (lambda * count + 1) ≤ 1 := (div_le_one (by linarith)).mpr (by linarith)
    rcases le_or_gt f.value 0 with sign | sign
    · have := mul_nonpos_of_nonpos_of_nonneg sign low
      have positive : (0 : ℚ) < maxFloat := by norm_num [maxFloat]
      linarith
    · have := mul_le_of_le_one_right sign.le high
      linarith
  · have gap := belowMax below
    have bound : lambda * count ≤ count := mul_le_of_le_one_left countNonneg small
    have room : (2 : ℚ) ^ 32 < 2 ^ 104 := by norm_num
    linarith

theorem closestFold (weight : Fin m → ℚ) {js : List (Fin m)} {best : ℚ × Option (Fin m)}
    (some' : best.2.isSome = true ∨ ∃ j ∈ js, weight j < best.1) :
    (js.foldl (fun best j => if weight j < best.1 then (weight j,some j) else best) best).2.isSome = true := by
  induction js generalizing best with
  | nil =>
    rcases some' with known | ⟨j,no,_⟩
    · exact known
    · exact absurd no List.not_mem_nil
  | cons j rest ih =>
    rw [List.foldl_cons]
    refine ih ?_
    split
    · exact Or.inl rfl
    · rename_i not
      rcases some' with known | ⟨j',member,less⟩
      · exact Or.inl known
      · rcases List.mem_cons.mp member with rfl | later
        · exact absurd less not
        · exact Or.inr ⟨j',later,less⟩

theorem closestSome {weight : Fin m → ℚ} (positive : 0 < m) (below : ∀ j, weight j < maxFloat) :
    ∃ first, closest weight = some first := by
  refine Option.isSome_iff_exists.mp (closestFold weight (Or.inr ⟨⟨0,positive⟩,List.mem_finRange _,below _⟩))

/- A list of k distinct centres. -/
structure Chosen (cfg : Config m) (centers : List (Fin m)) : Prop where
  distinct : centers.Nodup
  length : centers.length = cfg.kBase

theorem chosenCenters {norpWeight rpWeight : Fin m → ℚ} {ranked centers : List (Fin m)}
    (chosen : chooseCenters cfg norpWeight rpWeight ranked = some centers) : Chosen cfg centers := by
  obtain ⟨first,_,rest⟩ := Option.bind_eq_some_iff.mp chosen
  split at rest <;> try contradiction
  rename_i order
  cases Option.some.inj rest
  have others : ranked.Nodup := order.1.nodup_iff.mpr ((List.nodup_finRange m).filter _)
  have away : first ∉ ranked := by
    intro inside
    have member := order.1.mem_iff.mp inside
    rw [List.mem_filter] at member
    exact absurd rfl (of_decide_eq_true member.2)
  have size : ranked.length = m - 1 := by
    have whole := (List.perm_cons_erase (List.mem_finRange first)).length_eq
    have same : (List.finRange m).filter (· ≠ first) = (List.finRange m).filter (· != first) :=
      List.filter_congr (fun j _ => by rcases eq_or_ne j first with rfl | other <;> simp [*])
    rw [List.Nodup.erase_eq_filter (List.nodup_finRange m),List.length_finRange,List.length_cons] at whole
    rw [order.1.length_eq,same]
    omega
  have some' := cfg.someCenters
  have few := cfg.fewCenters
  refine ⟨List.nodup_cons.mpr ⟨fun inside => away (List.mem_of_mem_take inside),others.sublist (List.take_sublist _ _)⟩,?_⟩
  rw [List.length_cons,List.length_take,size]
  omega

end Weights

section Tally

/- The points of a stretch whose centres have a property. -/
def tally (good : List (Fin m) → Bool) (centers : Nat → List (Fin m)) (first stop : Nat) : Nat :=
  (List.range' first (stop - first)).countP (fun i => good (centers i))

def isFirst (j : Fin m) (centers : List (Fin m)) : Bool := decide (centers.head? = some j)

def has (j : Fin m) (centers : List (Fin m)) : Bool := decide (j ∈ centers)

variable {good : List (Fin m) → Bool} {centers centers' : Nat → List (Fin m)} {first stop : Nat}

theorem tallyCongr (same : ∀ i, first ≤ i → i < stop → centers i = centers' i) :
    tally good centers first stop = tally good centers' first stop := by
  refine List.countP_congr (fun i member => ?_)
  obtain ⟨low,high⟩ := List.mem_range'_1.mp member
  rw [same i low (by omega)]

theorem tallyEmpty (good : List (Fin m) → Bool) (centers : Nat → List (Fin m)) (first : Nat) :
    tally good centers first first = 0 := by
  rw [tally,Nat.sub_self]
  rfl

theorem tallyAppend {middle : Nat} (low : first ≤ middle) (high : middle ≤ stop) :
    tally good centers first stop = tally good centers first middle + tally good centers middle stop := by
  have parts : List.range' first (stop - first) =
      List.range' first (middle - first) ++ List.range' middle (stop - middle) := by
    have whole := @List.range'_append_1 first (middle - first) (stop - middle)
    rw [show first + (middle - first) = middle by omega,show middle - first + (stop - middle) = stop - first by omega] at whole
    exact whole.symm
  rw [tally,parts,List.countP_append]
  rfl

theorem tallyNext (low : first ≤ stop) :
    tally good centers first (stop + 1) = tally good centers first stop + if good (centers stop) then 1 else 0 := by
  rw [tallyAppend low (Nat.le_succ stop)]
  congr 1
  rw [tally,show stop + 1 - stop = 1 by omega,List.range'_one,List.countP_singleton]

/- A stretch cut into chunks. -/
theorem tallyChunks {len q : Nat} (inside : ∀ c, c < q → 8192 * c ≤ len) :
    ∑ c ∈ Finset.range q, tally good centers (8192 * c) (min len (8192 * c + 8192)) =
      tally good centers 0 (min len (8192 * q)) := by
  induction q with
  | zero =>
    rw [Finset.sum_range_zero,Nat.mul_zero,Nat.min_zero,tallyEmpty]
  | succ q ih =>
    have here := inside q (Nat.lt_succ_self q)
    rw [Finset.sum_range_succ,ih (fun c less => inside c (Nat.lt_succ_of_lt less)),Nat.min_eq_right here,
      show 8192 * (q + 1) = 8192 * q + 8192 by ring]
    exact (tallyAppend (Nat.zero_le _) (by omega)).symm

theorem addPointCount (d : Fin m → ℚ) (stats : Fin m → ClusterInfo) (centers : List (Fin m)) (j : Fin m) :
    (centers.foldl (addPoint d) stats j).count = (stats j).count + centers.count j := by
  induction centers generalizing stats with
  | nil => rfl
  | cons c rest ih =>
    rw [List.foldl_cons,ih,addPoint,List.count_cons]
    rcases eq_or_ne j c with rfl | other
    · simp only [Function.update_self,beq_self_eq_true,if_pos]
      omega
    · rw [Function.update_of_ne other]
      simp [Ne.symm other]

theorem countFirst (j : Fin m) (centers : List (Fin m)) :
    (centers.take 1).count j = if isFirst j centers then 1 else 0 := by
  cases centers with
  | nil => rfl
  | cons c rest =>
    rcases eq_or_ne c j with rfl | other
    · simp [isFirst]
    · simp [isFirst,other]

theorem countHas (j : Fin m) {centers : List (Fin m)} (distinct : centers.Nodup) :
    centers.count j = if has j centers then 1 else 0 := by
  rw [distinct.count]
  simp [has]

end Tally

section Invariant

structure ChunkOk (centerIndex : Nat → List (Fin m)) (block c : Nat) (chunk : Chunk m) : Prop where
  begins : 8192 * c ≤ chunk.next
  ends : chunk.next ≤ chunkStop cfg block c
  norp : ∀ j, (chunk.localNorpStats j).count = tally (isFirst j) centerIndex (8192 * c) chunk.next
  rp : ∀ j, (chunk.localRpStats j).count = tally (has j) centerIndex (8192 * c) chunk.next
  chosen : ∀ i, 8192 * c ≤ i → i < chunk.next → Chosen cfg (centerIndex i)
  done : chunk.committed = true → chunk.next = chunkStop cfg block c

-- What the chunks that are done have added.
def added (count : Chunk m → Nat) (block : Nat) (chunk : Nat → Chunk m) : Nat :=
  ∑ c ∈ Finset.range (chunkNum cfg block), if (chunk c).committed then count (chunk c) else 0

/- The ids written so far, by the centres of every point of the blocks before. -/
structure Written (centers : Nat → List (Fin m)) (block : Nat) (single all : Fin m → IdMap) : Prop where
  chosen : ∀ i < min (startId cfg block) cfg.numPoints, Chosen cfg (centers i)
  noreplica : ∀ j, (single j).ids =
    (List.range (min (startId cfg block) cfg.numPoints)).filter (fun i => isFirst j (centers i))
  replica : ∀ j, (all j).ids =
    (List.range (min (startId cfg block) cfg.numPoints)).filter (fun i => has j (centers i))
  noreplicaCount : ∀ j, (single j).count = (single j).ids.length
  replicaCount : ∀ j, (all j).count = (all j).ids.length

structure Partitioned (s : State m) : Prop where
  blocks : s.block ≤ numBlocks cfg
  norpLambda : 0 ≤ s.norpLambda ∧ s.norpLambda ≤ 1
  chunks : ∀ c < chunkNum cfg s.block, ChunkOk cfg s.centerIndex s.block c (s.chunk c)
  norp : ∀ j, (s.norpClusterStats j).count = (s.noreplica j).ids.length +
    added cfg (fun chunk => (chunk.localNorpStats j).count) s.block s.chunk
  rp : ∀ j, (s.rpClusterStats j).count = (s.replica j).ids.length +
    added cfg (fun chunk => (chunk.localRpStats j).count) s.block s.chunk
  written : ∃ centers, Written cfg centers s.block s.noreplica s.replica

variable {cfg} {s t : State m}

theorem chunkInside {block c : Nat} (inside : c < chunkNum cfg block) : 8192 * c < curBlkSize cfg block := by
  unfold chunkNum at inside
  omega

theorem freshChunkOk (centerIndex : Nat → List (Fin m)) {block c : Nat} (inside : c < chunkNum cfg block) :
    ChunkOk cfg centerIndex block c (freshChunk c) := by
  have room := chunkInside inside
  refine ⟨le_rfl,?_,fun j => ?_,fun j => ?_,fun i low high => ?_,fun no => ?_⟩
  · simp only [freshChunk,chunkStop]
    omega
  · exact (tallyEmpty _ _ _).symm
  · exact (tallyEmpty _ _ _).symm
  · simp only [freshChunk] at high
    omega
  · cases no

theorem addedFresh (count : Chunk m → Nat) (block : Nat) : added cfg count block freshChunk = 0 :=
  Finset.sum_eq_zero (fun _ _ => rfl)

theorem startPartitioned (cfg : Config m) (centerIndex : Nat → List (Fin m)) : Partitioned cfg (start cfg centerIndex) := by
  refine ⟨Nat.zero_le _,lambdaRange _ _,fun c inside => freshChunkOk _ inside,fun j => ?_,fun j => ?_,fun _ => [],?_⟩
  · exact (congrArg (0 + ·) (addedFresh _ _)).symm
  · exact (congrArg (0 + ·) (addedFresh _ _)).symm
  · have zero : startId cfg (start cfg centerIndex).block = 0 := Nat.zero_mul _
    refine ⟨fun i less => ?_,fun j => ?_,fun j => ?_,fun j => rfl,fun j => rfl⟩
    · rw [zero,Nat.zero_min] at less
      exact absurd less (Nat.not_lt_zero i)
    · rw [zero,Nat.zero_min]
      rfl
    · rw [zero,Nat.zero_min]
      rfl

/- One chunk is replaced by one that has added the same. -/
theorem addedUpdate (count : Chunk m → Nat) {block c : Nat} {chunks : Nat → Chunk m} {chunk : Chunk m}
    (same : (if chunk.committed then count chunk else 0) = if (chunks c).committed then count (chunks c) else 0) :
    added cfg count block (Function.update chunks c chunk) = added cfg count block chunks := by
  refine Finset.sum_congr rfl (fun c' _ => ?_)
  rcases eq_or_ne c' c with rfl | other
  · rw [Function.update_self]
    exact same
  · rw [Function.update_of_ne other]

theorem pointKeeps {c : Nat} {norpSeen rpSeen : Fin m → Nat} {ranked : List (Fin m)}
    (done : procPoint cfg s c norpSeen rpSeen ranked = some t) (before : Partitioned cfg s) : Partitioned cfg t := by
  unfold procPoint at done
  simp only at done
  split at done <;> try contradiction
  rename_i guard
  obtain ⟨inside,open',room,_⟩ := guard
  obtain ⟨centers,chosen,rfl⟩ := Option.map_eq_some_iff.mp done
  have chosen' := chosenCenters chosen
  have old := before.chunks c inside
  have stop : (s.chunk c).next < 8192 * c + 8192 := by
    unfold chunkStop at room
    omega
  -- points of other chunks are not touched
  have apart : ∀ c' < chunkNum cfg s.block, c' ≠ c → ∀ i, 8192 * c' ≤ i → i < (s.chunk c').next →
      Function.update s.centerIndex (s.chunk c).next centers i = s.centerIndex i := by
    intro c' inside' other i low high
    have old' := (before.chunks c' inside').ends
    unfold chunkStop at old'
    have begins := old.begins
    refine Function.update_of_ne (fun same => ?_) _ _
    omega
  have earlier : ∀ i, 8192 * c ≤ i → i < (s.chunk c).next →
      s.centerIndex i = Function.update s.centerIndex (s.chunk c).next centers i := by
    intro i low high
    exact (Function.update_of_ne (by omega) _ _).symm
  refine ⟨before.blocks,before.norpLambda,fun c' inside' => ?_,fun j => ?_,fun j => ?_,before.written⟩
  · simp only
    rcases eq_or_ne c' c with rfl | other
    · rw [Function.update_self]
      refine ⟨Nat.le_succ_of_le old.begins,room,fun j => ?_,fun j => ?_,fun i low high => ?_,fun no => ?_⟩
      · simp only
        rw [addPointCount,tallyNext old.begins,Function.update_self,old.norp j,tallyCongr earlier,countFirst]
      · simp only
        rw [addPointCount,tallyNext old.begins,Function.update_self,old.rp j,tallyCongr earlier,countHas j chosen'.distinct]
      · rcases Nat.lt_succ_iff_lt_or_eq.mp high with less | same
        · rw [← earlier i low less]
          exact old.chosen i low less
        · rw [same,Function.update_self]
          exact chosen'
      · rw [open'] at no
        cases no
    · rw [Function.update_of_ne other]
      have old' := before.chunks c' inside'
      have same := apart c' inside' other
      refine ⟨old'.begins,old'.ends,fun j => ?_,fun j => ?_,fun i low high => ?_,old'.done⟩
      · rw [old'.norp j]
        exact tallyCongr (fun i low high => (same i low high).symm)
      · rw [old'.rp j]
        exact tallyCongr (fun i low high => (same i low high).symm)
      · rw [same i low high]
        exact old'.chosen i low high
  · rw [before.norp j,addedUpdate]
    simp [open']
  · rw [before.rp j,addedUpdate]
    simp [open']

theorem addedCommit (count : Chunk m → Nat) {block c : Nat} {chunks : Nat → Chunk m} (inside : c < chunkNum cfg block)
    (open' : (chunks c).committed = false) (same : count { chunks c with committed := true } = count (chunks c)) :
    added cfg count block (Function.update chunks c { chunks c with committed := true }) =
      added cfg count block chunks + count (chunks c) := by
  have member := Finset.mem_range.mpr inside
  have rest : ∑ c' ∈ (Finset.range (chunkNum cfg block)).erase c,
      (if (Function.update chunks c { chunks c with committed := true } c').committed then
        count (Function.update chunks c { chunks c with committed := true } c') else 0) =
      ∑ c' ∈ (Finset.range (chunkNum cfg block)).erase c, if (chunks c').committed then count (chunks c') else 0 := by
    refine Finset.sum_congr rfl (fun c' member' => ?_)
    rw [Function.update_of_ne (Finset.ne_of_mem_erase member')]
  rw [added,added,← Finset.add_sum_erase _ _ member,← Finset.add_sum_erase _ (fun c =>
    if (chunks c).committed then count (chunks c) else 0) member,Function.update_self,open',rest]
  simp only [if_true,Bool.false_eq_true,if_false,same]
  omega

theorem commitKeeps {c : Nat} (done : commit cfg s c = some t) (before : Partitioned cfg s) : Partitioned cfg t := by
  unfold commit at done
  simp only at done
  split at done <;> try contradiction
  rename_i guard
  obtain ⟨inside,open',finished⟩ := guard
  cases Option.some.inj done
  refine ⟨before.blocks,before.norpLambda,fun c' inside' => ?_,fun j => ?_,fun j => ?_,before.written⟩
  · simp only
    rcases eq_or_ne c' c with rfl | other
    · have old := before.chunks c' inside
      rw [Function.update_self]
      exact ⟨old.begins,old.ends,old.norp,old.rp,old.chosen,fun _ => le_antisymm old.ends (not_lt.mp finished)⟩
    · rw [Function.update_of_ne other]
      exact before.chunks c' inside'
  · simp only
    rw [addedCommit _ inside open' rfl,addStats,before.norp j,Nat.add_assoc]
  · simp only
    rw [addedCommit _ inside open' rfl,addStats,before.rp j,Nat.add_assoc]

end Invariant

section Writing

/- The shards with the flag get one more id. -/
def Grown (flag : Fin m → Bool) (ids : List Nat) (old new : Fin m → IdMap) : Prop :=
  ∀ j, (new j).ids = (old j).ids ++ (if flag j then ids else []) ∧
    (new j).count = (old j).count + if flag j then ids.length else 0

theorem appendShard (map : Fin m → IdMap) (shard : Fin m) (id : Nat) :
    Grown (fun j => decide (j = shard)) [id] map (append map shard id) := by
  intro j
  rcases eq_or_ne j shard with rfl | other
  · simp [append]
  · simp [append,other]

theorem writeReplicas {id k : Nat} (positive : 0 < k) {centers : List (Fin m)} (distinct : centers.Nodup) (w : Writers m) :
    ((centers.zipIdx k).foldl (fun w shard =>
      ⟨if shard.2 = 0 then append w.noreplica shard.1 id else w.noreplica,append w.replica shard.1 id⟩) w).noreplica =
        w.noreplica ∧
    Grown (fun j => has j centers) [id] w.replica ((centers.zipIdx k).foldl (fun w shard =>
      ⟨if shard.2 = 0 then append w.noreplica shard.1 id else w.noreplica,append w.replica shard.1 id⟩) w).replica := by
  induction centers generalizing w k with
  | nil => exact ⟨rfl,fun j => by simp [has]⟩
  | cons c rest ih =>
    have parts := List.nodup_cons.mp distinct
    obtain ⟨same,grown⟩ := ih (Nat.succ_pos k) parts.2 ⟨if k = 0 then append w.noreplica c id else w.noreplica,append w.replica c id⟩
    rw [List.zipIdx_cons,List.foldl_cons]
    refine ⟨same.trans (if_neg (Nat.ne_of_gt positive)),fun j => ?_⟩
    obtain ⟨ids,count⟩ := grown j
    obtain ⟨ids',count'⟩ := appendShard w.replica c id j
    rw [ids,count]
    simp only at ids' count' ⊢
    rw [ids',count']
    rcases eq_or_ne j c with rfl | other
    · simp [has,parts.1]
    · simp [has,other]

theorem writePointGrown (id : Nat) {centers : List (Fin m)} (distinct : centers.Nodup) (w : Writers m) :
    Grown (fun j => isFirst j centers) [id] w.noreplica (writePoint id w centers).noreplica ∧
    Grown (fun j => has j centers) [id] w.replica (writePoint id w centers).replica := by
  cases centers with
  | nil => exact ⟨fun j => by simp [writePoint,isFirst],fun j => by simp [writePoint,has]⟩
  | cons c rest =>
    have parts := List.nodup_cons.mp distinct
    obtain ⟨same,grown⟩ := writeReplicas Nat.one_pos parts.2 ⟨append w.noreplica c id,append w.replica c id⟩
    rw [writePoint,List.zipIdx_cons,List.foldl_cons]
    refine ⟨fun j => ?_,fun j => ?_⟩
    · obtain ⟨ids,count⟩ := appendShard w.noreplica c id j
      simp only [if_true] at same ⊢
      rw [show 0 + 1 = 1 from rfl,same,ids,count]
      rcases eq_or_ne j c with rfl | other
      · simp [isFirst]
      · simp [isFirst,other,Ne.symm other]
    · obtain ⟨ids,count⟩ := grown j
      obtain ⟨ids',count'⟩ := appendShard w.replica c id j
      simp only [if_true] at ids count ids' count' ⊢
      rw [show 0 + 1 = 1 from rfl,ids,count,ids',count']
      rcases eq_or_ne j c with rfl | other
      · simp [has,parts.1]
      · simp [has,other]

-- The ids of a block whose centres have a property.
def blockIds (start len : Nat) (good : List (Fin m) → Bool) (centerIndex : Nat → List (Fin m)) : List Nat :=
  ((List.range len).filter (fun p => good (centerIndex p))).map (fun p => (start + p) % 2 ^ 32)

theorem writeBlockGrown (start len : Nat) {centerIndex : Nat → List (Fin m)}
    (distinct : ∀ p < len, (centerIndex p).Nodup) (w : Writers m) (j : Fin m) :
    ((writeBlock start len centerIndex w).noreplica j).ids =
      (w.noreplica j).ids ++ blockIds start len (isFirst j) centerIndex ∧
    ((writeBlock start len centerIndex w).noreplica j).count =
      (w.noreplica j).count + (blockIds start len (isFirst j) centerIndex).length ∧
    ((writeBlock start len centerIndex w).replica j).ids =
      (w.replica j).ids ++ blockIds start len (has j) centerIndex ∧
    ((writeBlock start len centerIndex w).replica j).count =
      (w.replica j).count + (blockIds start len (has j) centerIndex).length := by
  induction len with
  | zero => simp [writeBlock,blockIds]
  | succ len ih =>
    obtain ⟨singleIds,singleCount,allIds,allCount⟩ := ih (fun p less => distinct p (Nat.lt_succ_of_lt less))
    obtain ⟨single,all⟩ := writePointGrown ((start + len) % 2 ^ 32) (distinct len (Nat.lt_succ_self len))
      (writeBlock start len centerIndex w)
    have next : writeBlock start (len + 1) centerIndex w =
        writePoint ((start + len) % 2 ^ 32) (writeBlock start len centerIndex w) (centerIndex len) := by
      rw [writeBlock,List.range_succ,List.foldl_append]
      rfl
    have ids : ∀ good : List (Fin m) → Bool, blockIds start (len + 1) good centerIndex =
        blockIds start len good centerIndex ++ if good (centerIndex len) then [(start + len) % 2 ^ 32] else [] := by
      intro good
      rw [blockIds,List.range_succ,List.filter_append,List.map_append,blockIds]
      congr 1
      by_cases here : good (centerIndex len) = true
      · simp [here]
      · simp [here]
    rw [next,ids,ids,(single j).1,(single j).2,(all j).1,(all j).2,singleIds,singleCount,allIds,allCount]
    simp only [List.append_assoc,List.length_append]
    refine ⟨trivial,?_,trivial,?_⟩
    · split <;> simp [Nat.add_assoc]
    · split <;> simp [Nat.add_assoc]

end Writing

section Blocks

variable {cfg} {s t : State m}

theorem blockSizePos (cfg : Config m) : 0 < blockSize cfg := by
  have := cfg.somePoints
  unfold blockSize BLOCK_SIZE
  split <;> omega

theorem startInside {block : Nat} (inside : block < numBlocks cfg) : startId cfg block < cfg.numPoints := by
  have positive := blockSizePos cfg
  have le := (Nat.le_div_iff_mul_le positive).mp (Nat.succ_le_of_lt inside)
  rw [Nat.succ_mul] at le
  unfold startId
  omega

theorem startLast (cfg : Config m) : cfg.numPoints ≤ startId cfg (numBlocks cfg) := by
  have positive := blockSizePos cfg
  have less := Nat.lt_mul_div_succ (cfg.numPoints + blockSize cfg - 1) positive
  rw [Nat.mul_add,Nat.mul_one,Nat.mul_comm] at less
  unfold startId numBlocks
  omega

theorem endOfBlock {block : Nat} (inside : block < numBlocks cfg) :
    min (startId cfg (block + 1)) cfg.numPoints = startId cfg block + curBlkSize cfg block := by
  have first := startInside inside
  have next : startId cfg (block + 1) = startId cfg block + blockSize cfg := Nat.succ_mul _ _
  have same : (block + 1) * blockSize cfg = startId cfg (block + 1) := rfl
  unfold curBlkSize
  rw [same,next]
  omega

theorem chunksCover (cfg : Config m) (block : Nat) :
    min (curBlkSize cfg block) (8192 * chunkNum cfg block) = curBlkSize cfg block := by
  unfold chunkNum
  omega

theorem tallyLength (good : List (Fin m) → Bool) (centers : Nat → List (Fin m)) (start len : Nat) :
    tally good centers 0 len = (blockIds start len good centers).length := by
  rw [tally,blockIds,List.length_map,List.countP_eq_length_filter,List.range_eq_range',Nat.sub_zero]

/- What all chunks of a block add together. -/
theorem addedAll (before : Partitioned cfg s) (all : ∀ c < chunkNum cfg s.block, (s.chunk c).committed = true)
    (count : Chunk m → Nat) (good : List (Fin m) → Bool)
    (counts : ∀ c < chunkNum cfg s.block, count (s.chunk c) = tally good s.centerIndex (8192 * c) (s.chunk c).next) :
    added cfg count s.block s.chunk = tally good s.centerIndex 0 (curBlkSize cfg s.block) := by
  rw [← chunksCover cfg s.block,← tallyChunks (fun c inside => (chunkInside inside).le)]
  refine Finset.sum_congr rfl (fun c member => ?_)
  have inside := Finset.mem_range.mp member
  rw [if_pos (all c inside),counts c inside,(before.chunks c inside).done (all c inside)]
  rfl

theorem chosenInBlock (before : Partitioned cfg s) (all : ∀ c < chunkNum cfg s.block, (s.chunk c).committed = true)
    {i : Nat} (inside : i < curBlkSize cfg s.block) : Chosen cfg (s.centerIndex i) := by
  have chunk : i / 8192 < chunkNum cfg s.block := by
    unfold chunkNum
    omega
  have old := before.chunks (i / 8192) chunk
  refine old.chosen i (by omega) ?_
  rw [old.done (all _ chunk),chunkStop]
  omega

-- The centres of all points, with those of the block that ends.
def extend (centers : Nat → List (Fin m)) (start : Nat) (centerIndex : Nat → List (Fin m)) : Nat → List (Fin m) :=
  fun i => if i < start then centers i else centerIndex (i - start)

theorem filterExtend (good : List (Fin m) → Bool) (centers centerIndex : Nat → List (Fin m)) {start len : Nat}
    (small : start + len ≤ 2 ^ 32) :
    (List.range (start + len)).filter (fun i => good (extend centers start centerIndex i)) =
      (List.range start).filter (fun i => good (centers i)) ++ blockIds start len good centerIndex := by
  rw [List.range_add,List.filter_append]
  congr 1
  · refine List.filter_congr (fun i member => ?_)
    rw [extend,if_pos (List.mem_range.mp member)]
  · rw [List.filter_map,blockIds]
    have same : (List.range len).filter ((fun i => good (extend centers start centerIndex i)) ∘ (start + ·)) =
        (List.range len).filter (fun p => good (centerIndex p)) := by
      refine List.filter_congr (fun i _ => ?_)
      rw [Function.comp_apply,extend,if_neg (by omega),Nat.add_sub_cancel_left]
    rw [same]
    refine List.map_congr_left (fun p member => ?_)
    have inside := List.mem_range.mp (List.mem_of_mem_filter member)
    exact (Nat.mod_eq_of_lt (by omega)).symm

theorem endBlockKeeps (done : endBlock cfg s = some t) (before : Partitioned cfg s) : Partitioned cfg t := by
  unfold endBlock at done
  split at done <;> try contradiction
  rename_i guard
  obtain ⟨inside,all⟩ := guard
  cases Option.some.inj done
  obtain ⟨centers,written⟩ := before.written
  have distinct : ∀ p < curBlkSize cfg s.block, (s.centerIndex p).Nodup := fun p less =>
    (chosenInBlock before all less).distinct
  have few := cfg.fewPoints
  have stop := endOfBlock inside
  have begin' : min (startId cfg s.block) cfg.numPoints = startId cfg s.block :=
    Nat.min_eq_left (startInside inside).le
  have small : startId cfg s.block + curBlkSize cfg s.block ≤ 2 ^ 32 := by omega
  have writes := writeBlockGrown (startId cfg s.block) (curBlkSize cfg s.block) distinct ⟨s.noreplica,s.replica⟩
  refine ⟨inside,lambdaRange _ _,fun c less => freshChunkOk _ less,fun j => ?_,fun j => ?_,
    extend centers (startId cfg s.block) s.centerIndex,fun i less => ?_,fun j => ?_,fun j => ?_,fun j => ?_,fun j => ?_⟩
  · simp only [beginBlock]
    rw [addedFresh,Nat.add_zero,(writes j).1,List.length_append,before.norp j,
      addedAll before all _ (isFirst j) (fun c less => (before.chunks c less).norp j),tallyLength]
  · simp only [beginBlock]
    rw [addedFresh,Nat.add_zero,(writes j).2.2.1,List.length_append,before.rp j,
      addedAll before all _ (has j) (fun c less => (before.chunks c less).rp j),tallyLength]
  · simp only [beginBlock] at less
    rw [stop] at less
    unfold extend
    split
    · rename_i old
      exact written.chosen i (by rw [begin']; exact old)
    · exact chosenInBlock before all (by omega)
  · simp only [beginBlock]
    rw [stop,filterExtend _ _ _ small,(writes j).1,written.noreplica j,begin']
  · simp only [beginBlock]
    rw [stop,filterExtend _ _ _ small,(writes j).2.2.1,written.replica j,begin']
  · simp only [beginBlock]
    rw [(writes j).2.1,(writes j).1,List.length_append,written.noreplicaCount j]
  · simp only [beginBlock]
    rw [(writes j).2.2.2,(writes j).2.2.1,List.length_append,written.replicaCount j]

theorem stepKeeps {act : Act m} (done : step cfg s act = some t) (before : Partitioned cfg s) : Partitioned cfg t := by
  cases act with
  | point c norpSeen rpSeen ranked => exact pointKeeps done before
  | commit c => exact commitKeeps done before
  | endBlock => exact endBlockKeeps done before

theorem runPartitioned {centerIndex : Nat → List (Fin m)} {acts : List (Act m)}
    (ok : run (step cfg) (start cfg centerIndex) acts = some s) : Partitioned cfg s :=
  runInvariant (fun _ _ _ done before => stepKeeps done before) ok (startPartitioned cfg centerIndex)

/- No centre counts more points than there are. -/
theorem addedLe (before : Partitioned cfg s) (j : Fin m) :
    added cfg (fun chunk => (chunk.localNorpStats j).count) s.block s.chunk ≤ curBlkSize cfg s.block := by
  have whole : ∑ c ∈ Finset.range (chunkNum cfg s.block),
      tally (fun _ => true) s.centerIndex (8192 * c) (min (curBlkSize cfg s.block) (8192 * c + 8192)) =
      curBlkSize cfg s.block := by
    rw [tallyChunks (fun c inside => (chunkInside inside).le),chunksCover,tally,List.countP_true,List.length_range',
      Nat.sub_zero]
  rw [← whole]
  refine Finset.sum_le_sum (fun c member => ?_)
  have old := before.chunks c (Finset.mem_range.mp member)
  split
  · refine ((old.norp j).le.trans List.countP_le_length).trans ?_
    have ends := old.ends
    rw [chunkStop] at ends
    rw [tally,List.countP_true,List.length_range',List.length_range']
    omega
  · exact Nat.zero_le _

theorem countSmall (before : Partitioned cfg s) (j : Fin m) : (s.norpClusterStats j).count < 2 ^ 32 := by
  obtain ⟨centers,written⟩ := before.written
  have few := cfg.fewPoints
  have less := addedLe before j
  have size : (s.noreplica j).ids.length ≤ min (startId cfg s.block) cfg.numPoints := by
    rw [written.noreplica j]
    exact (List.length_filter_le _ _).trans (by rw [List.length_range])
  have room : min (startId cfg s.block) cfg.numPoints + curBlkSize cfg s.block ≤ cfg.numPoints := by
    unfold curBlkSize
    omega
  rw [before.norp j]
  omega

end Blocks

section Result

variable {cfg} {s : State m}

/- What the finished files and the counters say. -/
structure Complete (cfg : Config m) (s : State m) : Prop where
  ascending : ∀ p, (s.noreplica p).ids.Pairwise (· < ·) ∧ (s.replica p).ids.Pairwise (· < ·)
  partitions : ∀ i, (i < cfg.numPoints → ∃! p, i ∈ (s.noreplica p).ids) ∧ ∀ p, i ∈ (s.noreplica p).ids → i < cfg.numPoints
  replicas : ∀ i, (i < cfg.numPoints → (Finset.univ.filter (fun p => i ∈ (s.replica p).ids)).card = cfg.kBase) ∧
    ∀ p, i ∈ (s.replica p).ids → i < cfg.numPoints
  contained : ∀ p, ∀ i ∈ (s.noreplica p).ids, i ∈ (s.replica p).ids
  headers : ∀ p, header (s.noreplica p) = (s.noreplica p).ids.length ∧ header (s.replica p) = (s.replica p).ids.length
  stats : ∀ p, (s.norpClusterStats p).count = (s.noreplica p).ids.length ∧
    (s.rpClusterStats p).count = (s.replica p).ids.length

theorem filterAscending (good : Nat → Bool) (len : Nat) : ((List.range len).filter good).Pairwise (· < ·) :=
  List.pairwise_lt_range.filter good

theorem headerLength {map : IdMap} {good : Nat → Bool} (count : map.count = map.ids.length)
    (ids : map.ids = (List.range cfg.numPoints).filter good) : header map = map.ids.length := by
  have few := cfg.fewPoints
  have size : map.ids.length ≤ cfg.numPoints := by
    rw [ids]
    exact (List.length_filter_le _ _).trans (by rw [List.length_range])
  rw [header,count,Nat.mod_eq_of_lt (by omega)]

theorem completePartition (before : Partitioned cfg s) (last : s.block = numBlocks cfg) : Complete cfg s := by
  obtain ⟨centers,written⟩ := before.written
  have all : min (startId cfg s.block) cfg.numPoints = cfg.numPoints := by
    rw [last]
    exact Nat.min_eq_right (startLast cfg)
  obtain ⟨chosen,single,replica,singleCount,replicaCount⟩ := written
  rw [all] at chosen single replica
  have noChunks : chunkNum cfg s.block = 0 := by
    have := startLast cfg
    unfold chunkNum curBlkSize
    rw [last]
    omega
  have nothing : ∀ count : Chunk m → Nat, added cfg count s.block s.chunk = 0 := by
    intro count
    rw [added,noChunks,Finset.sum_range_zero]
  have firstMem : ∀ i p, i ∈ (s.noreplica p).ids ↔ i < cfg.numPoints ∧ (centers i).head? = some p := by
    intro i p
    rw [single p,List.mem_filter,List.mem_range,isFirst,decide_eq_true_eq]
  have hasMem : ∀ i p, i ∈ (s.replica p).ids ↔ i < cfg.numPoints ∧ p ∈ centers i := by
    intro i p
    rw [replica p,List.mem_filter,List.mem_range,has,decide_eq_true_eq]
  refine ⟨fun p => ⟨?_,?_⟩,fun i => ⟨fun less => ?_,fun p member => ((firstMem i p).mp member).1⟩,
    fun i => ⟨fun less => ?_,fun p member => ((hasMem i p).mp member).1⟩,fun p i member => ?_,fun p => ⟨?_,?_⟩,
    fun p => ⟨?_,?_⟩⟩
  · rw [single p]
    exact filterAscending _ _
  · rw [replica p]
    exact filterAscending _ _
  · have some' := cfg.someCenters
    have length := (chosen i less).length
    have nonempty : centers i ≠ [] := by
      intro none'
      rw [none',List.length_nil] at length
      omega
    refine ⟨(centers i).head nonempty,(firstMem i _).mpr ⟨less,List.head?_eq_some_head nonempty⟩,fun q member => ?_⟩
    have head := ((firstMem i q).mp member).2
    rw [List.head?_eq_some_head nonempty] at head
    exact (Option.some.inj head).symm
  · have same : Finset.univ.filter (fun p => i ∈ (s.replica p).ids) = (centers i).toFinset := by
      ext p
      rw [Finset.mem_filter,hasMem,List.mem_toFinset]
      exact ⟨fun both => both.2.2,fun member => ⟨Finset.mem_univ p,less,member⟩⟩
    rw [same,List.toFinset_card_of_nodup (chosen i less).distinct,(chosen i less).length]
  · obtain ⟨less,head⟩ := (firstMem i p).mp member
    exact (hasMem i p).mpr ⟨less,List.mem_of_head? head⟩
  · exact headerLength (singleCount p) (single p)
  · exact headerLength (replicaCount p) (replica p)
  · rw [before.norp p,nothing,Nat.add_zero]
  · rw [before.rp p,nothing,Nat.add_zero]

/- Every point gets a first centre, whatever counts were read. -/
theorem closestChosen (before : Partitioned cfg s) {norpSeen : Fin m → Nat}
    (seen : ∀ j, norpSeen j ≤ (s.norpClusterStats j).count) (i : Nat) :
    ∃ first, closest (fun j => weightedDist cfg s.norpLambda (norpSeen j) (cfg.dist i j).value) = some first := by
  have some' := cfg.someCenters
  have few := cfg.fewCenters
  refine closestSome (by omega) (fun j => ?_)
  have small := countSmall before j
  exact weightedBelow before.norpLambda.1 before.norpLambda.2 (lt_of_le_of_lt (seen j) small) (cfg.below i j)

theorem rankedExists (weight : Fin m → ℚ) (js : List (Fin m)) :
    ∃ ranked : List (Fin m), ranked.Perm js ∧ ranked.Pairwise (fun a b => weight a ≤ weight b) := by
  refine ⟨js.mergeSort (fun a b => decide (weight a ≤ weight b)),List.mergeSort_perm _ _,?_⟩
  have sorted := @List.pairwise_mergeSort _ (fun a b => decide (weight a ≤ weight b))
    (fun a b c first second => decide_eq_true ((of_decide_eq_true first).trans (of_decide_eq_true second)))
    (fun a b => by
      rw [Bool.or_eq_true,decide_eq_true_eq,decide_eq_true_eq]
      exact le_total _ _) js
  exact sorted.imp (fun le => of_decide_eq_true le)

theorem notStuck (before : Partitioned cfg s) (more : s.block < numBlocks cfg) : ∃ act t, step cfg s act = some t := by
  by_cases all : ∀ c < chunkNum cfg s.block, (s.chunk c).committed = true
  · exact ⟨.endBlock,_,if_pos ⟨more,all⟩⟩
  · push Not at all
    obtain ⟨c,inside,open'⟩ := all
    rw [ne_eq,Bool.not_eq_true] at open'
    by_cases room : (s.chunk c).next < chunkStop cfg s.block c
    · obtain ⟨first,found⟩ := closestChosen before (fun j => le_rfl) (startId cfg s.block + (s.chunk c).next)
      obtain ⟨ranked,perm,sorted⟩ := rankedExists (fun j => weightedDist cfg s.rpLambda (s.rpClusterStats j).count
        (cfg.dist (startId cfg s.block + (s.chunk c).next) j).value) ((List.finRange m).filter (· ≠ first))
      refine ⟨.point c (fun j => (s.norpClusterStats j).count) (fun j => (s.rpClusterStats j).count) ranked,?_⟩
      rw [step,procPoint]
      simp only
      rw [if_pos ⟨inside,open',room,fun j => ⟨le_rfl,le_rfl⟩⟩,chooseCenters,found,Option.bind_some,if_pos ⟨perm,sorted⟩,
        Option.map_some]
      exact ⟨_,rfl⟩
    · exact ⟨.commit c,_,if_pos ⟨inside,open',room⟩⟩

theorem partitionComplete {centerIndex : Nat → List (Fin m)} {acts : List (Act m)}
    (ok : run (step cfg) (start cfg centerIndex) acts = some s) :
    (s.block < numBlocks cfg → (∃ act t, step cfg s act = some t) ∧ ∀ norpSeen : Fin m → Nat,
      (∀ j, norpSeen j ≤ (s.norpClusterStats j).count) → ∀ i, ∃ first,
        closest (fun j => weightedDist cfg s.norpLambda (norpSeen j) (cfg.dist i j).value) = some first) ∧
    s.block ≤ numBlocks cfg ∧ (s.block = numBlocks cfg → Complete cfg s) := by
  have before := runPartitioned ok
  exact ⟨fun more => ⟨notStuck before more,fun _ seen i => closestChosen before seen i⟩,before.blocks,
    completePartition before⟩

def zeroFloat : Float32 := ⟨0,0,0,by decide,by decide,by norm_num⟩

def twoPoints : Config 2 where
  numPoints := 2
  kBase := 2
  floatData := false
  dist := fun _ _ => zeroFloat
  sqrt := id
  somePoints := by decide
  fewPoints := by decide
  someCenters := by decide
  fewCenters := by decide
  below := by
    intro i j
    norm_num [zeroFloat,maxFloat]

def twoActs : List (Act 2) :=
  [.point 0 (fun _ => 0) (fun _ => 0) [1],.point 0 (fun _ => 0) (fun _ => 0) [1],.commit 0,.endBlock]

theorem partitionCompleteTwo : ∃ s, run (step twoPoints) (start twoPoints (fun _ => [])) twoActs = some s ∧
    s.block = numBlocks twoPoints ∧ (s.noreplica 0).ids = [0,1] ∧ Complete twoPoints s := by
  have runs : (run (step twoPoints) (start twoPoints (fun _ => [])) twoActs).map (fun s => (s.block,(s.noreplica 0).ids)) =
      some (numBlocks twoPoints,[0,1]) := by decide +kernel
  obtain ⟨s,ok,values⟩ := Option.map_eq_some_iff.mp runs
  obtain ⟨last,ids⟩ := Prod.mk.inj values
  exact ⟨s,ok,last,ids,(partitionComplete ok).2.2 last⟩

end Result

end CoTra.ShardPartition
