import CoTra.SubQuery
import CoTra.Codec

/-! The wire format of a query (query_msg.h: serialize2, fork, deserialize_and_merge).
A build without DEBUG; dist_t is any type with a memory representation. The writer's
offset is the length of what it wrote, the reader's what it has consumed. -/
namespace CoTra.QueryWire
open Priority Codec
open SubQuery (QueryState)
open Pod (bytes)

def machineNum : Nat := 16
def maxQuerybufferSize : Nat := 24576

instance : NeZero machineNum := ⟨by decide⟩

/- vector and vector_size: the memory, and how much of it is used. -/
structure VectorBuffer where
  memory : Bytes
  size : Nat
  room : size ≤ memory.length

def VectorBuffer.content (b : VectorBuffer) : Bytes := b.memory.take b.size

-- memcpy to vector
def VectorBuffer.fill (b : VectorBuffer) (data : Bytes) : Option VectorBuffer :=
  if data.length ≤ b.memory.length then
    some ⟨data ++ b.memory.drop data.length,data.length,by rw [List.length_append]; exact Nat.le_add_right _ _⟩
  else none

def stateWord : QueryState → UInt32
  | .start => 0
  | .preStage => 1
  | .postStage => 2
  | .pause => 3
  | .ended => 4

def stateOf (w : UInt32) : QueryState :=
  if w = 0 then .start else if w = 1 then .preStage else if w = 2 then .postStage else if w = 3 then .pause else .ended

instance : Pod QueryState where
  size := 4
  bytes s := bytes (stateWord s)
  load bs := stateOf (Pod.load bs)
  some' := wordSize
  length s := Pod.length (stateWord s)
  loadBytes s := by
    rw [Pod.loadBytes]
    cases s <;> rfl

structure QueryMsg (D : Type) [LinearOrder D] [Queue D] where
  ef : UInt64
  queryId : UInt64
  originMachine : UInt64
  currentNodeId : UInt64
  lowerBound : D
  vector : VectorBuffer
  state : QueryState
  pathCnt : Fin machineNum → UInt32
  maxPathId : UInt32
  maxPathCnt : UInt32
  pathLength : UInt32
  leaderMachine : UInt32
  coreMachine : List (Fin machineNum)
  isCoreMachine : Fin machineNum → UInt32
  filterred : Fin machineNum → List (D × UInt32)
  topCandidates : PQueue D UInt32
  candidateSet : PQueue D UInt32
  result : PQueue D UInt64
  visitHash : List UInt32

variable {D : Type} [LinearOrder D] [Queue D]

/- The constructor with five arguments. It leaves current_node_id and lowerBound as
they are. -/
def construct (vector : Bytes) (queryId ef machine currentNodeId : UInt64) (lowerBound : D) : QueryMsg D where
  ef := ef
  queryId := queryId
  originMachine := machine
  currentNodeId := currentNodeId
  lowerBound := lowerBound
  vector := ⟨vector,vector.length,le_rfl⟩
  state := .start
  pathCnt := fun _ => 0
  maxPathId := 0
  maxPathCnt := 0
  pathLength := 0
  leaderMachine := 0
  coreMachine := []
  isCoreMachine := fun _ => 0
  filterred := fun _ => []
  topCandidates := empty
  candidateSet := empty
  result := empty
  visitHash := []

def machineWord (m : Fin machineNum) : UInt32 := UInt32.ofNat m

variable [Pod D] [Pod (D × UInt32)] [Pod (D × UInt64)]

/- What both writers send: they pop top_candidates and result from the top. -/
def fields (q : QueryMsg D) (candidates : List (D × UInt32)) : List Bytes :=
  [bytes q.ef,
    bytes q.queryId,
    bytes q.originMachine,
    bytes q.currentNodeId,
    bytes q.lowerBound,
    bytes (UInt64.ofNat q.vector.size) ++ q.vector.content,
    bytes q.state,
    bytes q.pathCnt,
    bytes q.maxPathId,
    bytes q.maxPathCnt,
    bytes q.pathLength,
    bytes q.leaderMachine,
    writeCounted64 (fun m => bytes (machineWord m)) q.coreMachine,
    writeCounted64 bytes q.topCandidates.elems,
    writeCounted64 bytes candidates,
    writeCounted64 bytes q.result.elems]

-- The check behind the last field.
def finish (written : Bytes) (q : QueryMsg D) : Option (Bytes × QueryMsg D) :=
  if maxQuerybufferSize < written.length then none else some (written,q)

def filterQueue [Neg D] (q : QueryMsg D) : List (D × UInt32) :=
  q.candidateSet.elems.filter (fun e => -e.1 < q.lowerBound)

def serialize2 [Neg D] (q : QueryMsg D) : Option (Bytes × QueryMsg D) :=
  finish (fields q (filterQueue q)).flatten { q with topCandidates := empty, candidateSet := empty, result := empty }

-- top_candidates is swapped back from its copy
def fork (machineId : Fin machineNum) (q : QueryMsg D) : Option (Bytes × QueryMsg D) :=
  finish (fields q (q.filterred machineId)).flatten { q with result := empty }

def getMachine : Reader (Fin machineNum) := do
  let m : UInt32 ← getPod
  if inside : m.toNat < machineNum then pure ⟨m.toNat,inside⟩ else failure

def getVector (b : VectorBuffer) : Reader VectorBuffer := do
  let size : UInt64 ← getPod
  let data ← getBytes size.toNat
  match b.fill data with
  | some b => pure b
  | none => failure

def deserializeAndMerge (q : QueryMsg D) : Reader (QueryMsg D) := do
  let ef ← getPod
  let queryId ← getPod
  let originMachine ← getPod
  let currentNodeId ← getPod
  let lowerBound ← getPod
  let vector ← getVector q.vector
  let state ← getPod
  let pathCnt ← getPod
  let maxPathId ← getPod
  let maxPathCnt ← getPod
  let pathLength ← getPod
  let leaderMachine ← getPod
  let core ← counted64 getMachine
  let top ← counted64 getPod
  let candidates : List (D × UInt32) ← counted64 getPod
  let result ← counted64 getPod
  pure { q with
    ef := ef
    queryId := queryId
    originMachine := originMachine
    currentNodeId := currentNodeId
    lowerBound := lowerBound
    vector := vector
    state := state
    pathCnt := pathCnt
    maxPathId := maxPathId
    maxPathCnt := maxPathCnt
    pathLength := pathLength
    leaderMachine := leaderMachine
    coreMachine := q.coreMachine ++ core
    isCoreMachine := fun m => if m ∈ core then 1 else q.isCoreMachine m
    topCandidates := pushAll empty top
    candidateSet := pushAll empty candidates
    visitHash := q.visitHash ++ candidates.map Prod.snd
    result := pushAll empty result }

section RoundTrip

omit [LinearOrder D] [Queue D] [Pod D] [Pod (D × UInt32)] [Pod (D × UInt64)] in
theorem readsMachine (m : Fin machineNum) : Reads getMachine (bytes (machineWord m)) m := by
  have word : (machineWord m).toNat = m := UInt32.toNat_ofNat_of_lt' (Nat.lt_trans m.isLt (by decide))
  have checked : Reads (if inside : (machineWord m).toNat < machineNum then
      (pure ⟨(machineWord m).toNat,inside⟩ : Reader (Fin machineNum)) else failure) [] m := by
    intro rest
    simp only [word,m.isLt,dif_pos]
    rfl
  have read : Reads getMachine (bytes (machineWord m) ++ []) m := readsBind (readsGet (machineWord m)) checked
  rwa [List.append_nil] at read

theorem fillContent (b : VectorBuffer) {data : Bytes} (room : data.length ≤ b.memory.length) :
    ∃ b', b.fill data = some b' ∧ b'.content = data := by
  refine ⟨_,if_pos room,?_⟩
  rw [VectorBuffer.content,List.take_left]

theorem readsVector {b b' : VectorBuffer} {data : Bytes} (small : data.length < 2^64) (filled : b.fill data = some b') :
    Reads (getVector b) (bytes (UInt64.ofNat data.length) ++ data) b' := by
  refine readsBind (readsGet _) ?_
  rw [UInt64.toNat_ofNat_of_lt' small]
  have copied : Reads (match b.fill data with
      | some b => (pure b : Reader VectorBuffer)
      | none => failure) [] b' := by
    rw [filled]
    exact readsPure b'
  have read : Reads (do
      let data ← getBytes data.length
      match b.fill data with
      | some b => pure b
      | none => failure) (data ++ []) b' := readsBind (readsBytes data rfl) copied
  rwa [List.append_nil] at read

/- The fields as the receiver holds them. -/
structure Restored (q r : QueryMsg D) : Prop where
  ef : r.ef = q.ef
  queryId : r.queryId = q.queryId
  originMachine : r.originMachine = q.originMachine
  currentNodeId : r.currentNodeId = q.currentNodeId
  lowerBound : r.lowerBound = q.lowerBound
  vector : r.vector.content = q.vector.content
  state : r.state = q.state
  pathCnt : r.pathCnt = q.pathCnt
  maxPathId : r.maxPathId = q.maxPathId
  maxPathCnt : r.maxPathCnt = q.maxPathCnt
  pathLength : r.pathLength = q.pathLength
  leaderMachine : r.leaderMachine = q.leaderMachine
  coreMachine : r.coreMachine = q.coreMachine
  isCoreMachine : ∀ m, r.isCoreMachine m = if m ∈ q.coreMachine then 1 else 0
  topCandidates : r.topCandidates.elems.Perm q.topCandidates.elems
  result : r.result.elems.Perm q.result.elems

/- A query that was only built: nothing has been merged into it. -/
structure Fresh (f : QueryMsg D) : Prop where
  coreMachine : f.coreMachine = []
  isCoreMachine : f.isCoreMachine = fun _ => 0
  visitHash : f.visitHash = []

/- What the reader makes of f. -/
def received (f q : QueryMsg D) (vector : VectorBuffer) (cands : List (D × UInt32)) : QueryMsg D where
  ef := q.ef
  queryId := q.queryId
  originMachine := q.originMachine
  currentNodeId := q.currentNodeId
  lowerBound := q.lowerBound
  vector := vector
  state := q.state
  pathCnt := q.pathCnt
  maxPathId := q.maxPathId
  maxPathCnt := q.maxPathCnt
  pathLength := q.pathLength
  leaderMachine := q.leaderMachine
  coreMachine := f.coreMachine ++ q.coreMachine
  isCoreMachine := fun m => if m ∈ q.coreMachine then 1 else f.isCoreMachine m
  filterred := f.filterred
  topCandidates := pushAll empty q.topCandidates.elems
  candidateSet := pushAll empty cands
  result := pushAll empty q.result.elems
  visitHash := f.visitHash ++ cands.map Prod.snd

theorem readsQuery {q f : QueryMsg D} {cands : List (D × UInt32)} (fresh : Fresh f)
    (fits : (fields q cands).flatten.length ≤ maxQuerybufferSize) (room : q.vector.size ≤ f.vector.memory.length) :
    ∃ r, Reads (deserializeAndMerge f) (fields q cands).flatten r ∧ Restored q r ∧ r.candidateSet.elems.Perm cands ∧
      r.visitHash = cands.map Prod.snd := by
  have small : ∀ k : Nat, k ≤ maxQuerybufferSize → k < 2^64 := fun k bound => Nat.lt_of_le_of_lt bound (by decide)
  have part : ∀ p ∈ fields q cands, p.length ≤ maxQuerybufferSize := fun p member => (partFits member).trans fits
  have core := small _ ((countedFits64 (fun m => podSome (machineWord m)) q.coreMachine).trans
    (part _ (by simp [fields])))
  have top := small _ ((countedFits64 podSome q.topCandidates.elems).trans (part _ (by simp [fields])))
  have among := small _ ((countedFits64 podSome cands).trans (part _ (by simp [fields])))
  have result := small _ ((countedFits64 podSome q.result.elems).trans (part _ (by simp [fields])))
  have length : q.vector.content.length = q.vector.size := by
    rw [VectorBuffer.content,List.length_take,Nat.min_eq_left q.vector.room]
  have used : q.vector.content.length < 2^64 := by
    refine small _ (le_trans ?_ (part (bytes (UInt64.ofNat q.vector.size) ++ q.vector.content) (by simp [fields])))
    rw [List.length_append]
    exact Nat.le_add_left _ _
  obtain ⟨vector,filled,content⟩ := fillContent f.vector (length.trans_le room)
  have header := readsVector used filled
  rw [length] at header
  refine ⟨received f q vector cands,?reads,?restored,?candidates,?visited⟩
  case reads =>
    unfold deserializeAndMerge fields
    simp only [List.flatten_cons,List.flatten_nil]
    refine readsBind (readsGet q.ef) (readsBind (readsGet q.queryId) (readsBind (readsGet q.originMachine) ?_))
    refine readsBind (readsGet q.currentNodeId) (readsBind (readsGet q.lowerBound) (readsBind header ?_))
    refine readsBind (readsGet q.state) (readsBind (readsGet q.pathCnt) (readsBind (readsGet q.maxPathId) ?_))
    refine readsBind (readsGet q.maxPathCnt) (readsBind (readsGet q.pathLength) (readsBind (readsGet q.leaderMachine) ?_))
    refine readsBind (readsCounted64 core (fun m _ => readsMachine m)) ?_
    refine readsBind (readsCounted64 top (fun e _ => readsGet e)) ?_
    refine readsBind (readsCounted64 among (fun e _ => readsGet e)) ?_
    exact readsBind (readsCounted64 result (fun e _ => readsGet e)) (readsPure _)
  case restored =>
    refine ⟨rfl,rfl,rfl,rfl,rfl,content,rfl,rfl,rfl,rfl,rfl,rfl,?_,fun m => ?_,?_,?_⟩
    · rw [received,fresh.coreMachine,List.nil_append]
    · rw [received,fresh.isCoreMachine]
    · exact pushAllEmpty q.topCandidates.elems
    · exact pushAllEmpty q.result.elems
  case candidates => exact pushAllEmpty cands
  case visited => rw [received,fresh.visitHash,List.nil_append]

omit [Pod D] [Pod (D × UInt32)] [Pod (D × UInt64)] in
theorem constructFresh (vector : Bytes) (queryId ef machine currentNodeId : UInt64) (lowerBound : D) :
    Fresh (construct vector queryId ef machine currentNodeId lowerBound) := ⟨rfl,rfl,rfl⟩

/- Both writers and the reader. The receiver's copy of the query was built with a vector
of the same size: scala_search_init builds every query on every machine. -/
theorem queryRoundTrip [Neg D] (q : QueryMsg D) (vector : Bytes) (same : vector.length = q.vector.size)
    (queryId ef machine currentNodeId : UInt64) (lowerBound : D) :
    let f := construct vector queryId ef machine currentNodeId lowerBound
    ((fields q (filterQueue q)).flatten.length ≤ maxQuerybufferSize → ∃ bs q' r, serialize2 q = some (bs,q') ∧
      Reads (deserializeAndMerge f) bs r ∧ Restored q r ∧
      r.candidateSet.elems.Perm (q.candidateSet.elems.filter (fun e => -e.1 < q.lowerBound))) ∧
    ∀ m, (fields q (q.filterred m)).flatten.length ≤ maxQuerybufferSize → ∃ bs q' r, fork m q = some (bs,q') ∧
      q'.topCandidates = q.topCandidates ∧ q'.candidateSet = q.candidateSet ∧
      Reads (deserializeAndMerge f) bs r ∧ Restored q r ∧ r.candidateSet.elems.Perm (q.filterred m) ∧
      ∀ v, v ∈ r.visitHash ↔ v ∈ (q.filterred m).map Prod.snd := by
  have fresh := constructFresh vector queryId ef machine currentNodeId lowerBound
  have room : q.vector.size ≤ (construct vector queryId ef machine currentNodeId lowerBound).vector.memory.length :=
    same.ge
  refine ⟨fun fits => ?_,fun m fits => ?_⟩
  · obtain ⟨r,reads,restored,candidates,_⟩ := readsQuery fresh fits room
    exact ⟨_,_,r,if_neg (Nat.not_lt.mpr fits),reads,restored,candidates⟩
  · obtain ⟨r,reads,restored,candidates,visited⟩ := readsQuery fresh fits room
    exact ⟨_,_,r,if_neg (Nat.not_lt.mpr fits),rfl,rfl,reads,restored,candidates,fun v => by rw [visited]⟩

end RoundTrip

section Small

/- Distances of dist_t = int, and pairs as they lie in memory. -/
instance int32Order : LinearOrder Int32 := LinearOrder.lift' Int32.toInt (fun _ _ => Int32.toInt_inj.mp)

instance : Queue Int32 := lastFirst Int32

instance : Pod Int32 where
  size := 4
  bytes x := bytes x.toUInt32
  load bs := (Pod.load bs : UInt32).toInt32
  some' := wordSize
  length x := Pod.length x.toUInt32
  loadBytes x := by
    rw [Pod.loadBytes]
    exact Int32.toInt32_toUInt32 x

instance : Pod (Int32 × UInt32) := pairPod Int32 UInt32 0 0
instance : Pod (Int32 × UInt64) := pairPod Int32 UInt64 4 0

def smallQuery : QueryMsg Int32 where
  ef := 4
  queryId := 7
  originMachine := 1
  currentNodeId := 0
  lowerBound := 5
  vector := ⟨[10,20],2,by decide⟩
  state := .preStage
  pathCnt := fun _ => 0
  maxPathId := 0
  maxPathCnt := 0
  pathLength := 0
  leaderMachine := 3
  coreMachine := [0,3]
  isCoreMachine := fun m => if m = 0 ∨ m = 3 then 1 else 0
  filterred := fun m => if m = 3 then [(-3,9)] else []
  topCandidates := pushAll empty [(5,2),(3,9)]
  candidateSet := pushAll empty [(-3,9),(-8,2)]
  result := empty
  visitHash := []

theorem smallRoundTrip : (∃ bs q' r, serialize2 smallQuery = some (bs,q') ∧
      Reads (deserializeAndMerge (construct [0,0] 7 4 0 0 0)) bs r ∧ Restored smallQuery r ∧
      r.candidateSet.elems.Perm [(-3,9)]) ∧
    ∃ bs q' r, fork 3 smallQuery = some (bs,q') ∧
      Reads (deserializeAndMerge (construct [0,0] 7 4 0 0 0)) bs r ∧ Restored smallQuery r ∧
      r.candidateSet.elems.Perm [(-3,9)] := by
  obtain ⟨whole,forks⟩ := queryRoundTrip smallQuery [0,0] rfl 7 4 0 0 0
  refine ⟨?_,?_⟩
  · obtain ⟨bs,q',r,sent,reads,restored,candidates⟩ := whole (by decide +kernel)
    exact ⟨bs,q',r,sent,reads,restored,candidates⟩
  · obtain ⟨bs,q',r,sent,_,_,reads,restored,candidates,_⟩ := forks 3 (by decide +kernel)
    exact ⟨bs,q',r,sent,reads,restored,candidates⟩

end Small

end CoTra.QueryWire
