import CoTra.RandomSlices

/-! The vectors of the shards, read back from the data file by their id lists
(partition.cc: the two retrieve_shard_data_from_ids). The one for a single shard leaves its
loops when the list is used up. The one for all shards goes through the file once and
compares every point with the next id of every list, also after the last one. -/
namespace CoTra.ShardRetrieval
open BlockScan RandomSlices

variable {V : Type}

structure File (V : Type) where
  count : Nat
  dim : Nat
  vectors : List V
  deriving DecidableEq

-- cur_pos, what the writer has written, and num_written
structure Cursor (V : Type) where
  curPos : Nat
  written : List V
  numWritten : Nat

def begin : Cursor V := ⟨0,[],0⟩

-- none: the list is read past its end
def advance (points : List V) (ids : List Nat) (c : Cursor V) (id : Nat) : Option (Cursor V) :=
  match ids[c.curPos]?,points[id]? with
  | some shardId,some vector =>
    if id % 2 ^ 32 = shardId then some ⟨c.curPos + 1,c.written ++ [vector],c.numWritten + 1⟩ else some c
  | _,_ => none

def file (dim : Nat) (c : Cursor V) : File V := ⟨c.numWritten % 2 ^ 32,dim,c.written⟩

-- none: DIV_ROUND_UP divides by zero
def retrieveShard (points : List V) (dim : Nat) (ids : List Nat) : Option (File V) :=
  if fileBlock points.length = 0 then none
  else (scanUntil (fun c => c.curPos == ids.length) points.length (fileBlock points.length)
    (advance points ids) begin).map (file dim)

/- The id lists of a part, each strictly ascending, with ids of the data file. -/
structure PartIds (numPoints : Nat) where
  replica : List Nat
  noreplica : List Nat
  replicaAscending : replica.Pairwise (· < ·)
  replicaBelow : ∀ id ∈ replica, id < numPoints
  noreplicaAscending : noreplica.Pairwise (· < ·)
  noreplicaBelow : ∀ id ∈ noreplica, id < numPoints

/- The parameters, whose arrays have MACHINE_NUM places, and the data file. -/
structure Input (V : Type) where
  machineNum : Nat
  kBase : Nat
  dim : Nat
  basedim : Nat
  points : List V
  parts : List (PartIds points.length)
  fewPoints : points.length < 2 ^ 32

structure Shard (V : Type) where
  replicaIds : List Nat
  noreplicaIds : List Nat
  rp : Cursor V
  norp : Cursor V

structure Files (V : Type) where
  -- written with k_base > 1
  replica : Option (File V)
  noreplica : File V

variable (input : Input V)

def advanceShard (s : Shard V) (id : Nat) : Option (Shard V) :=
  (if 1 < input.kBase then advance input.points s.replicaIds s.rp id else some s.rp).bind (fun rp =>
    (advance input.points s.noreplicaIds s.norp id).map (fun norp => { s with rp := rp, norp := norp }))

def complete (s : Shard V) : Bool :=
  (decide (input.kBase ≤ 1) || s.replicaIds.length == s.rp.numWritten) && s.noreplicaIds.length == s.norp.numWritten

def files (s : Shard V) : Files V :=
  ⟨if 1 < input.kBase then some (file input.basedim s.rp) else none,file input.basedim s.norp⟩

def beginShard (ids : PartIds input.points.length) : Shard V := ⟨ids.replica,ids.noreplica,begin,begin⟩

-- write_noreplica is true; none: an array is read past its end, or the program stops
def retrieveShards : Option (List (Files V)) :=
  if input.machineNum < input.parts.length then none
  else if input.basedim ≠ input.dim then none
  else if fileBlock input.points.length = 0 then none
  else (scan input.points.length (fileBlock input.points.length)
    (fun (shards : List (Shard V)) id => shards.mapM (fun s => advanceShard input s id)) (input.parts.map (beginShard input))).bind
      (fun shards => if shards.all (complete input) then some (shards.map (files input)) else none)

/- The files of a part are those that the retrieval of its lists writes. -/
def SameFiles (ids : PartIds input.points.length) (f : Files V) : Prop :=
  retrieveShard input.points input.basedim ids.noreplica = some f.noreplica ∧
    (1 < input.kBase → ∃ replica, f.replica = some replica ∧
      retrieveShard input.points input.basedim ids.replica = some replica)

def Agrees : Prop := ∃ out, retrieveShards input = some out ∧ List.Forall₂ (SameFiles input) input.parts out

/- The list has an entry to compare with the last point. -/
def Lasts (numPoints : Nat) (ids : List Nat) : Prop := ids.getLast? = some (numPoints - 1)

section Cursors

variable {points : List V} {ids done rest : List Nat} {i : Nat} {c : Cursor V}

/- Before point i: the ids below i are written, the others are not. -/
structure At (points : List V) (ids done rest : List Nat) (i : Nat) (c : Cursor V) : Prop where
  split : ids = done ++ rest
  low : ∀ id ∈ done, id < i
  high : ∀ id ∈ rest, i ≤ id
  cursor : c = ⟨done.length,done.filterMap (fun id => points[id]?),done.length⟩

theorem atBegin (points : List V) (ids : List Nat) : At points ids [] ids 0 begin :=
  ⟨rfl,fun _ no => absurd no List.not_mem_nil,fun _ _ => Nat.zero_le _,rfl⟩

theorem nextId (at' : At points ids done rest i c) : ids[c.curPos]? = rest.head? := by
  rw [at'.cursor,at'.split,List.getElem?_append_right (Nat.le_refl _),Nat.sub_self,List.head?_eq_getElem?]

theorem advanceEnds (at' : At points ids done [] i c) : advance points ids c i = none := by
  rw [advance,nextId at']
  rfl

theorem advanceNext {id : Nat} (at' : At points ids done (id :: rest) i c) (ascending : ids.Pairwise (· < ·))
    (inside : i < points.length) (few : points.length < 2 ^ 32) :
    ∃ done' rest' c', advance points ids c i = some c' ∧ At points ids done' rest' (i + 1) c' := by
  have above := at'.high id List.mem_cons_self
  have later : ∀ other ∈ rest, id < other := by
    rw [at'.split] at ascending
    exact (List.pairwise_cons.mp (List.pairwise_append.mp ascending).2.1).1
  have vector : points[i]? = some points[i] := List.getElem?_eq_getElem inside
  rw [advance,nextId at',List.head?_cons,vector,Nat.mod_eq_of_lt (show i < 2 ^ 32 by omega)]
  dsimp only
  rcases eq_or_ne i id with rfl | other
  · rw [if_pos rfl]
    refine ⟨done ++ [i],rest,_,rfl,?_,fun id member => ?_,fun id member => ?_,?_⟩
    · rw [at'.split,List.append_cons]
    · rcases List.mem_append.mp member with old | new
      · exact Nat.lt_succ_of_lt (at'.low id old)
      · rw [List.mem_singleton.mp new]
        exact Nat.lt_succ_self i
    · exact later id member
    · rw [at'.cursor,List.filterMap_append,List.length_append,List.length_singleton,
        List.filterMap_cons_some vector,List.filterMap_nil]
  · rw [if_neg other]
    refine ⟨done,id :: rest,c,rfl,at'.split,fun id' member => Nat.lt_succ_of_lt (at'.low id' member),fun id' member => ?_,
      at'.cursor⟩
    rcases List.mem_cons.mp member with rfl | old
    · omega
    · have := later id' old
      omega

/- The retrieval of one shard stops where the list ends; the other one reads on. -/
theorem singleNext (at' : At points ids done rest i c) (ascending : ids.Pairwise (· < ·))
    (inside : i < points.length) (few : points.length < 2 ^ 32) :
    ∃ done' rest' c', guarded (fun c => c.curPos == ids.length) (advance points ids) c i = some c' ∧
      At points ids done' rest' (i + 1) c' := by
  cases rest with
  | nil =>
    have whole : c.curPos = ids.length := by rw [at'.cursor,at'.split,List.append_nil]
    refine ⟨done,[],c,if_pos (beq_iff_eq.mpr whole),at'.split,fun id member => Nat.lt_succ_of_lt (at'.low id member),
      fun _ no => absurd no List.not_mem_nil,at'.cursor⟩
  | cons id rest =>
    have more : ¬(c.curPos == ids.length) = true := by
      rw [beq_iff_eq,at'.cursor,at'.split,List.length_append,List.length_cons]
      exact (Nat.lt_add_of_pos_right (Nat.succ_pos _)).ne
    rw [guarded,if_neg more]
    exact advanceNext at' ascending inside few

theorem singleRun (ascending : ids.Pairwise (· < ·)) (few : points.length < 2 ^ 32) (inside : i ≤ points.length) :
    ∃ done rest c, (List.range i).foldlM (guarded (fun c => c.curPos == ids.length) (advance points ids)) begin = some c ∧
      At points ids done rest i c := by
  induction i with
  | zero => exact ⟨[],ids,begin,rfl,atBegin points ids⟩
  | succ i ih =>
    obtain ⟨done,rest,c,run,at'⟩ := ih (by omega)
    rw [foldlMNext,run]
    exact singleNext at' ascending inside few

theorem fastRun (ascending : ids.Pairwise (· < ·)) (few : points.length < 2 ^ 32) (inside : i ≤ points.length)
    (more : ∀ j < i, ∃ id ∈ ids, j ≤ id) :
    ∃ done rest c, (List.range i).foldlM (advance points ids) begin = some c ∧ At points ids done rest i c := by
  induction i with
  | zero => exact ⟨[],ids,begin,rfl,atBegin points ids⟩
  | succ i ih =>
    obtain ⟨done,rest,c,run,at'⟩ := ih (by omega) (fun j less => more j (by omega))
    rw [foldlMNext,run]
    cases rest with
    | nil =>
      obtain ⟨id,member,above⟩ := more i (Nat.lt_succ_self i)
      rw [at'.split,List.append_nil] at member
      have := at'.low id member
      omega
    | cons id rest => exact advanceNext at' ascending inside few

theorem fastMore (ascending : ids.Pairwise (· < ·)) (few : points.length < 2 ^ 32) (inside : i ≤ points.length)
    (run : (List.range i).foldlM (advance points ids) begin = some c) : ∀ j < i, ∃ id ∈ ids, j ≤ id := by
  induction i generalizing c with
  | zero => exact fun j less => absurd less (Nat.not_lt_zero j)
  | succ i ih =>
    rw [foldlMNext] at run
    obtain ⟨c',earlier,last⟩ := Option.bind_eq_some_iff.mp run
    have more := ih (by omega) earlier
    obtain ⟨done,rest,c'',same,at'⟩ := fastRun ascending few (by omega) more
    cases earlier.symm.trans same
    cases rest with
    | nil =>
      rw [advanceEnds at'] at last
      cases last
    | cons id rest =>
      intro j less
      rcases Nat.lt_succ_iff_lt_or_eq.mp less with before | rfl
      · exact more j before
      · exact ⟨id,at'.split ▸ List.mem_append_right _ List.mem_cons_self,at'.high id List.mem_cons_self⟩

def full (points : List V) (ids : List Nat) : Cursor V :=
  ⟨ids.length,ids.filterMap (fun id => points[id]?),ids.length⟩

/- After the last point all ids are written. -/
theorem atEnd (at' : At points ids done rest points.length c) (below : ∀ id ∈ ids, id < points.length) :
    c = full points ids := by
  have none' : rest = [] := by
    refine List.eq_nil_iff_forall_not_mem.mpr (fun id member => ?_)
    have := below id (at'.split ▸ List.mem_append_right _ member)
    have := at'.high id member
    omega
  rw [at'.cursor,full,at'.split,none',List.append_nil]

theorem singleFull (ascending : ids.Pairwise (· < ·)) (below : ∀ id ∈ ids, id < points.length)
    (few : points.length < 2 ^ 32) :
    (List.range points.length).foldlM (guarded (fun c => c.curPos == ids.length) (advance points ids)) begin =
      some (full points ids) := by
  obtain ⟨done,rest,c,run,at'⟩ := singleRun ascending few (Nat.le_refl points.length)
  rw [run,atEnd at' below]

theorem lastsMore (ascending : ids.Pairwise (· < ·)) (below : ∀ id ∈ ids, id < points.length)
    (some' : 0 < points.length) : (∀ j < points.length, ∃ id ∈ ids, j ≤ id) ↔ Lasts points.length ids := by
  constructor
  · intro more
    obtain ⟨id,member,above⟩ := more (points.length - 1) (by omega)
    obtain ⟨init,last,rfl⟩ := (List.eq_nil_or_concat' ids).resolve_left (List.ne_nil_of_mem member)
    have lastBelow := below last (List.mem_append_right _ (List.mem_singleton_self last))
    have isLast : last = points.length - 1 := by
      rcases List.mem_append.mp member with old | new
      · have := (List.pairwise_append.mp ascending).2.2 id old last (List.mem_singleton_self last)
        omega
      · rw [List.mem_singleton] at new
        omega
    rw [Lasts,List.getLast?_concat,isLast]
  · intro lasts j less
    exact ⟨points.length - 1,List.mem_of_getLast? lasts,by omega⟩

theorem fastFull (ascending : ids.Pairwise (· < ·)) (below : ∀ id ∈ ids, id < points.length)
    (few : points.length < 2 ^ 32) (some' : 0 < points.length) (lasts : Lasts points.length ids) :
    (List.range points.length).foldlM (advance points ids) begin = some (full points ids) := by
  obtain ⟨done,rest,c,run,at'⟩ :=
    fastRun ascending few (Nat.le_refl points.length) ((lastsMore ascending below some').mpr lasts)
  rw [run,atEnd at' below]

theorem fastLasts (ascending : ids.Pairwise (· < ·)) (below : ∀ id ∈ ids, id < points.length)
    (few : points.length < 2 ^ 32) (some' : 0 < points.length)
    (run : (List.range points.length).foldlM (advance points ids) begin = some c) : Lasts points.length ids :=
  (lastsMore ascending below some').mp (fastMore ascending few (Nat.le_refl _) run)

end Cursors

section Shards

variable {input}

theorem blockPositive (some' : 0 < input.points.length) : fileBlock input.points.length ≠ 0 := by
  unfold fileBlock ShardPartition.BLOCK_SIZE
  split <;> omega

theorem retrieveShardFull {ids : List Nat} (ascending : ids.Pairwise (· < ·))
    (below : ∀ id ∈ ids, id < input.points.length) (some' : 0 < input.points.length) :
    retrieveShard input.points input.basedim ids = some (file input.basedim (full input.points ids)) := by
  rw [retrieveShard,if_neg (blockPositive some'),scanUntilAll (Nat.pos_of_ne_zero (blockPositive some')),
    singleFull ascending below input.fewPoints]
  rfl

/- The two lists of a part are gone through independently. -/
theorem shardRun (ids : PartIds input.points.length) (i : Nat) :
    (List.range i).foldlM (advanceShard input) (beginShard input ids) =
      (if 1 < input.kBase then (List.range i).foldlM (advance input.points ids.replica) begin else some begin).bind
        (fun rp => ((List.range i).foldlM (advance input.points ids.noreplica) begin).map
          (fun norp => ⟨ids.replica,ids.noreplica,rp,norp⟩)) := by
  induction i with
  | zero => split <;> rfl
  | succ i ih =>
    rw [foldlMNext,ih,foldlMNext,foldlMNext]
    by_cases replicas : 1 < input.kBase
    · rw [if_pos replicas,if_pos replicas]
      cases (List.range i).foldlM (advance input.points ids.replica) begin with
      | none => rfl
      | some rp =>
        cases (List.range i).foldlM (advance input.points ids.noreplica) begin with
        | none =>
          change none = (advance input.points ids.replica rp i).bind (fun _ => none)
          exact (Option.bind_fun_none _).symm
        | some norp =>
          change advanceShard input ⟨ids.replica,ids.noreplica,rp,norp⟩ i = _
          rw [advanceShard,if_pos replicas]
          rfl
    · rw [if_neg replicas,if_neg replicas]
      cases (List.range i).foldlM (advance input.points ids.noreplica) begin with
      | none => rfl
      | some norp =>
        change advanceShard input ⟨ids.replica,ids.noreplica,begin,norp⟩ i = _
        rw [advanceShard,if_neg replicas]
        rfl

def shardFull (input : Input V) (ids : PartIds input.points.length) : Shard V :=
  ⟨ids.replica,ids.noreplica,if 1 < input.kBase then full input.points ids.replica else begin,
    full input.points ids.noreplica⟩

/- The lists of a part that the retrieval of all shards reads to the last point. -/
def PartLasts (input : Input V) (ids : PartIds input.points.length) : Prop :=
  Lasts input.points.length ids.noreplica ∧ (1 < input.kBase → Lasts input.points.length ids.replica)

theorem shardLasts {ids : PartIds input.points.length} (some' : 0 < input.points.length) {s : Shard V}
    (run : (List.range input.points.length).foldlM (advanceShard input) (beginShard input ids) = some s) :
    PartLasts input ids := by
  rw [shardRun] at run
  obtain ⟨rp,first,second⟩ := Option.bind_eq_some_iff.mp run
  obtain ⟨norp,second,_⟩ := Option.map_eq_some_iff.mp second
  refine ⟨fastLasts ids.noreplicaAscending ids.noreplicaBelow input.fewPoints some' second,fun replicas => ?_⟩
  rw [if_pos replicas] at first
  exact fastLasts ids.replicaAscending ids.replicaBelow input.fewPoints some' first

theorem shardDone {ids : PartIds input.points.length} (some' : 0 < input.points.length) (lasts : PartLasts input ids) :
    (List.range input.points.length).foldlM (advanceShard input) (beginShard input ids) = some (shardFull input ids) := by
  rw [shardRun,fastFull ids.noreplicaAscending ids.noreplicaBelow input.fewPoints some' lasts.1,shardFull]
  by_cases replicas : 1 < input.kBase
  · rw [if_pos replicas,if_pos replicas,
      fastFull ids.replicaAscending ids.replicaBelow input.fewPoints some' (lasts.2 replicas)]
    rfl
  · rw [if_neg replicas,if_neg replicas]
    rfl

theorem fullComplete (ids : PartIds input.points.length) : complete input (shardFull input ids) = true := by
  unfold complete shardFull
  split
  · simp [full]
  · rename_i single
    simp [full,not_lt.mp single]

theorem fullSame (ids : PartIds input.points.length) (some' : 0 < input.points.length) :
    SameFiles input ids (files input (shardFull input ids)) := by
  refine ⟨retrieveShardFull ids.noreplicaAscending ids.noreplicaBelow some',fun replicas => ?_⟩
  refine ⟨file input.basedim (full input.points ids.replica),?_,
    retrieveShardFull ids.replicaAscending ids.replicaBelow some'⟩
  rw [files,shardFull]
  dsimp only
  rw [if_pos replicas,if_pos replicas]

end Shards

/- The files are those of the single retrievals, and no list is read past its end, exactly
when there is a point and every list ends with the last one. -/
theorem retrievalsAgree (input : Input V) (sameDim : input.basedim = input.dim) :
    Agrees input ↔ 0 < input.points.length ∧ input.parts.length ≤ input.machineNum ∧
      ∀ ids ∈ input.parts, PartLasts input ids := by
  unfold Agrees retrieveShards
  rw [if_neg (not_not_intro sameDim)]
  constructor
  · rintro ⟨out,done,_⟩
    split at done
    · cases done
    rename_i room
    split at done
    · cases done
    rename_i block
    have some' : 0 < input.points.length := by
      refine Nat.pos_of_ne_zero (fun none' => block ?_)
      rw [fileBlock,none',if_pos (Nat.zero_le _)]
    rw [scanAll (Nat.pos_of_ne_zero block),foldlMMapM] at done
    obtain ⟨shards,run,_⟩ := Option.bind_eq_some_iff.mp done
    refine ⟨some',not_lt.mp room,fun ids member => ?_⟩
    obtain ⟨s,single⟩ := mapMEach run (beginShard input ids) (List.mem_map_of_mem member)
    exact shardLasts some' single
  · rintro ⟨some',room,lasts⟩
    have run : (input.parts.map (beginShard input)).mapM (fun s =>
        (List.range input.points.length).foldlM (advanceShard input) s) = some (input.parts.map (shardFull input)) := by
      rw [List.mapM_map]
      exact mapMSome (fun ids member => shardDone some' (lasts ids member))
    have block := blockPositive some'
    rw [if_neg (not_lt.mpr room),if_neg block,scanAll (Nat.pos_of_ne_zero block),foldlMMapM,run,Option.bind_some]
    have all : (input.parts.map (shardFull input)).all (complete input) = true := by
      rw [List.all_map]
      exact List.all_eq_true.mpr (fun ids _ => fullComplete ids)
    rw [if_pos all]
    refine ⟨_,rfl,?_⟩
    rw [List.map_map,List.forall₂_map_right_iff,List.forall₂_same]
    exact fun ids _ => fullSame ids some'

/- Two parts over three points, both lists of the first end with the last one. -/
def twoParts : Input Nat where
  machineNum := 16
  kBase := 2
  dim := 8
  basedim := 8
  points := [100,101,102]
  parts := [⟨[0,2],[2],by decide,by decide,by decide,by decide⟩,⟨[1,2],[0,1,2],by decide,by decide,by decide,by decide⟩]
  fewPoints := by decide

theorem twoPartsAgree : Agrees twoParts ↔ 0 < twoParts.points.length ∧
    twoParts.parts.length ≤ twoParts.machineNum ∧ ∀ ids ∈ twoParts.parts, PartLasts twoParts ids :=
  retrievalsAgree twoParts rfl

/- The points of two parts without replicas: the list of the first ends before point 2. -/
def splitParts : Input Nat where
  machineNum := 16
  kBase := 1
  dim := 8
  basedim := 8
  points := [100,101,102]
  parts := [⟨[],[0,1],by decide,by decide,by decide,by decide⟩,⟨[],[2],by decide,by decide,by decide,by decide⟩]
  fewPoints := by decide

theorem splitPartsReadPast : ¬Agrees splitParts := by
  rintro ⟨out,done,_⟩
  have fails : (retrieveShards splitParts).isNone = true := by decide +kernel
  rw [done] at fails
  cases fails

end CoTra.ShardRetrieval
