import CoTra.BlockScan
import CoTra.ShardPartition

/-! The random partition (partition.cc: shard_data_into_random): the shard of a point is
its id over the points of a shard, and the writers are indexed with it unchecked. It is a
partition when the shards divide the points. -/
namespace CoTra.RandomSlices
open BlockScan ShardPartition

/- The parameters, and the header of the data file. The arrays of the parameters have
MACHINE_NUM places. -/
structure Input where
  machineNum : Nat
  vecNum : Nat
  numPoints : Nat
  basedim : Nat
  dim : Nat
  numCenters : Nat
  fewPoints : numPoints < 2 ^ 32
  someCenters : 1 ≤ numCenters

inductive Failure where
  | mismatch
  | divideByZero
  | outside
  deriving DecidableEq

structure Slices where
  maps : List IdMap
  partitionSize : List Nat

variable (input : Input)

def fileBlock (numPoints : Nat) : Nat := if numPoints ≤ BLOCK_SIZE then numPoints else BLOCK_SIZE

def perShard : Nat := input.numPoints / input.numCenters

def writeId (maps : List IdMap) (id : Nat) : Except Failure (List IdMap) :=
  if perShard input = 0 then .error .divideByZero else
    let shardId := id / perShard input
    match maps[shardId]? with
    | none => .error .outside
    | some map => .ok (maps.set shardId ⟨map.ids ++ [id % 2 ^ 32],map.count + 1⟩)

def shardDataIntoRandom : Except Failure Slices :=
  if input.basedim ≠ input.dim then .error .mismatch
  -- the file names
  else if input.machineNum < input.numCenters then .error .outside
  else if fileBlock input.numPoints = 0 then .error .divideByZero
  else (scan input.numPoints (fileBlock input.numPoints) (writeId input)
    (List.replicate input.numCenters ⟨[],0⟩)).map (fun maps =>
      ⟨maps,List.replicate input.numCenters (input.vecNum / input.numCenters % 2 ^ 32)⟩)

structure Partition (slices : Slices) : Prop where
  shards : slices.maps.length = input.numCenters
  once : ∀ id < input.numPoints, ∃! shard : Nat, ∃ map : IdMap, slices.maps[shard]? = some map ∧ id ∈ map.ids
  points : ∀ map ∈ slices.maps, ∀ id ∈ map.ids, id < input.numPoints
  ascending : ∀ map ∈ slices.maps, map.ids.Pairwise (· < ·)
  sizes : ∀ (shard : Nat) (map : IdMap), slices.maps[shard]? = some map →
    header map = map.ids.length ∧ slices.partitionSize[shard]? = some map.ids.length

section Slices

variable {input}

def sliceIds (size points shard : Nat) : List Nat := (List.range points).filter (fun id => id / size == shard)

def slicesAt (size shards points : Nat) : List IdMap :=
  (List.range shards).map (fun shard => ⟨sliceIds size points shard,(sliceIds size points shard).length⟩)

theorem sliceNext (size points shard : Nat) :
    sliceIds size (points + 1) shard = sliceIds size points shard ++ if points / size = shard then [points] else [] := by
  rw [sliceIds,List.range_succ,List.filter_append,sliceIds]
  rcases eq_or_ne (points / size) shard with same | other
  · simp [same]
  · simp [other]

theorem sliceMember {size points shard id : Nat} : id ∈ sliceIds size points shard ↔ id < points ∧ id / size = shard := by
  rw [sliceIds,List.mem_filter,List.mem_range,beq_iff_eq]

/- Every slice of whole shards is full. -/
theorem sliceFull {size : Nat} (positive : 0 < size) (shards shard : Nat) :
    (sliceIds size (shards * size) shard).length = if shard < shards then size else 0 := by
  induction shards with
  | zero => simp [sliceIds]
  | succ shards ih =>
    have parts : List.range ((shards + 1) * size) = List.range (shards * size) ++
        (List.range size).map (shards * size + ·) := by
      rw [Nat.succ_mul,List.range_add]
    have quotient : ∀ p < size, (shards * size + p) / size = shards := by
      intro p less
      rw [Nat.mul_comm,Nat.mul_add_div positive,Nat.div_eq_of_lt less,Nat.add_zero]
    have last : ((List.range size).map (shards * size + ·)).filter (fun id => id / size == shard) =
        if shard = shards then (List.range size).map (shards * size + ·) else [] := by
      split
      · rename_i same
        refine List.filter_eq_self.mpr (fun id member => ?_)
        obtain ⟨p,inside,rfl⟩ := List.mem_map.mp member
        rw [quotient p (List.mem_range.mp inside),same,beq_self_eq_true]
      · rename_i other
        refine List.filter_eq_nil_iff.mpr (fun id member => ?_)
        obtain ⟨p,inside,rfl⟩ := List.mem_map.mp member
        rw [quotient p (List.mem_range.mp inside),beq_iff_eq]
        exact fun same => other same.symm
    rw [sliceIds,parts,List.filter_append,List.length_append,last]
    have before := ih
    rw [sliceIds] at before
    rw [before]
    split <;> split <;> split <;> first | omega | simp

theorem slicesPlace (size shards points shard : Nat) :
    (slicesAt size shards points)[shard]? = if shard < shards then
      some ⟨sliceIds size points shard,(sliceIds size points shard).length⟩ else none := by
  rw [slicesAt,List.getElem?_map]
  split
  · rename_i inside
    rw [List.getElem?_range inside,Option.map_some]
  · rename_i outside
    rw [List.getElem?_eq_none (by rw [List.length_range]; omega),Option.map_none]

theorem slicesStart (size shards : Nat) : slicesAt size shards 0 = List.replicate shards ⟨[],0⟩ := by
  have each : ∀ shard ∈ List.range shards,
      (⟨sliceIds size 0 shard,(sliceIds size 0 shard).length⟩ : IdMap) = ⟨[],0⟩ := fun _ _ => rfl
  rw [slicesAt,List.map_congr_left each,List.map_const',List.length_range]

/- One more point goes to its shard, when there is such a shard. -/
theorem writeSlice {points : Nat} (positive : 0 < perShard input) (few : points < 2 ^ 32) :
    writeId input (slicesAt (perShard input) input.numCenters points) points =
      if points / perShard input < input.numCenters then
        .ok (slicesAt (perShard input) input.numCenters (points + 1)) else .error .outside := by
  rw [writeId,if_neg positive.ne']
  simp only
  rw [slicesPlace]
  rcases Nat.lt_or_ge (points / perShard input) input.numCenters with inside | outside
  · rw [if_pos inside,if_pos inside]
    refine congrArg Except.ok (List.ext_getElem? (fun shard => ?_))
    rw [List.getElem?_set,slicesPlace,slicesPlace,sliceNext,Nat.mod_eq_of_lt few]
    have room : points / perShard input < (slicesAt (perShard input) input.numCenters points).length := by
      rw [slicesAt,List.length_map,List.length_range]
      exact inside
    split
    · rename_i same
      subst same
      rw [if_pos inside,List.length_append,List.length_singleton]
    · rename_i other
      rw [List.append_nil]
  · rw [if_neg (not_lt.mpr outside),if_neg (not_lt.mpr outside)]

theorem sliceRun (positive : 0 < perShard input) {points : Nat} (few : points ≤ input.numPoints)
    (inside : ∀ id < points, id / perShard input < input.numCenters) :
    (List.range points).foldlM (writeId input) (slicesAt (perShard input) input.numCenters 0) =
      .ok (slicesAt (perShard input) input.numCenters points) := by
  induction points with
  | zero => rfl
  | succ points ih =>
    have small := input.fewPoints
    rw [foldlMNext,ih (by omega) (fun id less => inside id (by omega))]
    exact (writeSlice positive (by omega)).trans (if_pos (inside points (Nat.lt_succ_self points)))

theorem sliceInside (positive : 0 < perShard input) {points : Nat} {maps : List IdMap} (few : points ≤ input.numPoints)
    (done : (List.range points).foldlM (writeId input) (slicesAt (perShard input) input.numCenters 0) = .ok maps) :
    ∀ id < points, id / perShard input < input.numCenters := by
  induction points generalizing maps with
  | zero => exact fun id less => absurd less (Nat.not_lt_zero id)
  | succ points ih =>
    have small := input.fewPoints
    rw [foldlMNext] at done
    rcases first : (List.range points).foldlM (writeId input) (slicesAt (perShard input) input.numCenters 0) with e | before
    · rw [first] at done
      cases done
    · have earlier := ih (by omega) first
      rw [sliceRun positive (by omega) earlier] at done
      have last := (writeSlice positive (by omega)).symm.trans done
      split at last
      · rename_i inside
        intro id less
        rcases Nat.lt_succ_iff_lt_or_eq.mp less with below | rfl
        · exact earlier id below
        · exact inside
      · cases last

/- The last point has a shard exactly when the shards divide the points. -/
theorem shardsInside (enough : input.numCenters ≤ input.numPoints) :
    (∀ id < input.numPoints, id / perShard input < input.numCenters) ↔ input.numCenters ∣ input.numPoints := by
  have some' := input.someCenters
  have positive : 0 < perShard input := Nat.div_pos enough some'
  constructor
  · intro inside
    have last := inside (input.numPoints - 1) (by omega)
    rw [Nat.div_lt_iff_lt_mul positive] at last
    have below : input.numCenters * perShard input ≤ input.numPoints := Nat.mul_div_le _ _
    exact ⟨perShard input,by omega⟩
  · intro divides id less
    rw [Nat.div_lt_iff_lt_mul positive,perShard,Nat.mul_div_cancel' divides]
    exact less

theorem slicesPartition {sizes : List Nat} (positive : 0 < perShard input) (divides : input.numCenters ∣ input.numPoints)
    (same : sizes = List.replicate input.numCenters (perShard input)) :
    Partition input ⟨slicesAt (perShard input) input.numCenters input.numPoints,sizes⟩ := by
  have whole : input.numCenters * perShard input = input.numPoints := Nat.mul_div_cancel' divides
  have less := input.fewPoints
  refine ⟨?_,fun id inside => ?_,fun map member id there => ?_,fun map member => ?_,fun shard map there => ?_⟩
  · rw [slicesAt,List.length_map,List.length_range]
  · have shard : id / perShard input < input.numCenters := by
      rw [Nat.div_lt_iff_lt_mul positive,whole]
      exact inside
    refine ⟨id / perShard input,⟨_,(slicesPlace _ _ _ _).trans (if_pos shard),sliceMember.mpr ⟨inside,rfl⟩⟩,?_⟩
    rintro other ⟨map,place,member⟩
    rw [slicesPlace] at place
    split at place
    · cases place
      exact (sliceMember.mp member).2.symm
    · cases place
  · obtain ⟨shard,_,rfl⟩ := List.mem_map.mp member
    exact (sliceMember.mp there).1
  · obtain ⟨shard,_,rfl⟩ := List.mem_map.mp member
    exact List.pairwise_lt_range.filter _
  · rw [slicesPlace] at there
    split at there
    · rename_i inside
      cases there
      have full : (sliceIds (perShard input) input.numPoints shard).length = perShard input := by
        have := sliceFull positive input.numCenters shard
        rwa [whole,if_pos inside] at this
      have small : perShard input ≤ input.numPoints := Nat.div_le_self _ _
      rw [header,full,same]
      exact ⟨Nat.mod_eq_of_lt (show perShard input < 2 ^ 32 by omega),by rw [List.getElem?_replicate,if_pos inside]⟩
    · cases there

end Slices

/- The ids are sliced into a partition exactly when every slice has the same length, and
the arrays of the parameters have a place for it. -/
theorem randomSlices (input : Input) (sameDim : input.basedim = input.dim) (sameVec : input.vecNum = input.numPoints)
    (enough : input.numCenters ≤ input.numPoints) :
    (∃ slices, shardDataIntoRandom input = .ok slices ∧ Partition input slices) ↔
      input.numCenters ≤ input.machineNum ∧ input.numCenters ∣ input.numPoints := by
  have some' := input.someCenters
  have few := input.fewPoints
  have positive : 0 < perShard input := Nat.div_pos enough some'
  have block : 0 < fileBlock input.numPoints := by
    unfold fileBlock BLOCK_SIZE
    split <;> omega
  rw [shardDataIntoRandom,if_neg (not_not_intro sameDim),if_neg block.ne',scanAll block,← slicesStart (perShard input)]
  constructor
  · rintro ⟨slices,done,_⟩
    split at done
    · cases done
    · rename_i room
      rcases run : (List.range input.numPoints).foldlM (writeId input)
        (slicesAt (perShard input) input.numCenters 0) with e | maps
      · rw [run] at done
        cases done
      · exact ⟨not_lt.mp room,(shardsInside enough).mp (sliceInside positive le_rfl run)⟩
  · rintro ⟨room,divides⟩
    rw [if_neg (not_lt.mpr room),sliceRun positive le_rfl ((shardsInside enough).mpr divides)]
    refine ⟨_,rfl,slicesPartition positive divides ?_⟩
    have small : perShard input ≤ input.numPoints := Nat.div_le_self _ _
    rw [sameVec]
    exact congrArg (List.replicate _) (Nat.mod_eq_of_lt (show perShard input < 2 ^ 32 by omega))

/- Six points in two shards. -/
theorem randomSlicesSix :
    (∃ slices, shardDataIntoRandom ⟨16,6,6,8,8,2,by decide,by decide⟩ = .ok slices ∧
      Partition ⟨16,6,6,8,8,2,by decide,by decide⟩ slices) ↔ 2 ≤ 16 ∧ 2 ∣ 6 :=
  randomSlices ⟨16,6,6,8,8,2,by decide,by decide⟩ rfl rfl (by decide)

/- Five points in two shards: the last id goes to a third one. -/
theorem fiveInTwo :
    ¬∃ slices, shardDataIntoRandom ⟨16,5,5,8,8,2,by decide,by decide⟩ = .ok slices ∧
      Partition ⟨16,5,5,8,8,2,by decide,by decide⟩ slices := by
  rintro ⟨slices,done,_⟩
  have fails : shardDataIntoRandom ⟨16,5,5,8,8,2,by decide,by decide⟩ = .error .outside := by rfl
  rw [fails] at done
  cases done

end CoTra.RandomSlices
