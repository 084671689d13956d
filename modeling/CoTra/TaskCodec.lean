import CoTra.QueryWire

/-! The batches the machines exchange (task_manager.h, vec_buffer.h): tasks, results,
node results and neighbours for core machines, and the synchronisation of a query. Of
every record the serialised fields. A writer appends to what stands in the buffer and
aborts when that gets too long; a reader appends to the receiver's queues. -/
namespace CoTra.TaskCodec
open Codec
open SubQuery (QueryState)
open QueryWire (machineNum maxQuerybufferSize machineWord)
open Pod (bytes)

-- std::pair<size_t, uint32_t>
instance : Pod (UInt64 × UInt32) := pairPod UInt64 UInt32 0 4

section Records

variable {D : Type} [Pod D] [Pod (D × UInt32)]

-- is_count stays on the machine
structure ComputeTask (D : Type) where
  machineId : UInt32
  qid : UInt32
  deg : UInt32
  offset : UInt64
  lowerBound : D
  efFill : UInt8
  coreCnt : UInt8
  nocoreCnt : UInt8
  deriving DecidableEq, Repr

def ComputeTask.serialize (t : ComputeTask D) : Bytes :=
  [bytes t.machineId,bytes t.qid,bytes t.deg,bytes t.offset,bytes t.lowerBound,bytes t.efFill,bytes t.coreCnt,
    bytes t.nocoreCnt].flatten

def ComputeTask.read : Reader (ComputeTask D) := do
  let machineId ← getPod
  let qid ← getPod
  let deg ← getPod
  let offset ← getPod
  let lowerBound ← getPod
  let efFill ← getPod
  let coreCnt ← getPod
  let nocoreCnt ← getPod
  pure ⟨machineId,qid,deg,offset,lowerBound,efFill,coreCnt,nocoreCnt⟩

structure NodeTask where
  machineId : UInt32
  qid : UInt32
  nodeId : UInt32
  isCoreMachine : Fin machineNum → UInt32

def NodeTask.serialize (t : NodeTask) : Bytes :=
  [bytes t.machineId,bytes t.qid,bytes t.nodeId,bytes t.isCoreMachine].flatten

def NodeTask.read : Reader NodeTask := do
  let machineId ← getPod
  let qid ← getPod
  let nodeId ← getPod
  let isCoreMachine ← getPod
  pure ⟨machineId,qid,nodeId,isCoreMachine⟩

structure ResultMsg (D : Type) where
  qid : UInt32
  coreCnt : UInt8
  nocoreCnt : UInt8
  res : List (D × UInt32)

def ResultMsg.bytes (r : ResultMsg D) : Bytes :=
  [Pod.bytes r.qid,Pod.bytes r.coreCnt,Pod.bytes r.nocoreCnt,writeCounted32 Pod.bytes r.res].flatten

def ResultMsg.serialize (r : ResultMsg D) (written : Bytes) : Option Bytes :=
  if maxQuerybufferSize < (written ++ r.bytes).length then none else some (written ++ r.bytes)

def ResultMsg.read : Reader (ResultMsg D) := do
  let qid ← getPod
  let coreCnt ← getPod
  let nocoreCnt ← getPod
  let res ← counted32 getPod
  pure ⟨qid,coreCnt,nocoreCnt,res⟩

structure NodeResult (D : Type) where
  qid : UInt32
  postCnt : UInt32
  res : List (D × UInt32)

def NodeResult.bytes (r : NodeResult D) : Bytes :=
  [Pod.bytes r.qid,Pod.bytes r.postCnt,writeCounted32 Pod.bytes r.res].flatten

-- Too long a message is printed only.
def NodeResult.serialize (r : NodeResult D) (written : Bytes) : Option Bytes := some (written ++ r.bytes)

def NodeResult.read : Reader (NodeResult D) := do
  let qid ← getPod
  let postCnt ← getPod
  let res ← counted32 getPod
  pure ⟨qid,postCnt,res⟩

structure NonCoreSyncMsg where
  qid : UInt32
  coreMicroNgh : List UInt32
  coreLargeNgh : List (UInt64 × UInt32)

def NonCoreSyncMsg.bytes (r : NonCoreSyncMsg) : Bytes :=
  [Pod.bytes r.qid,writeCounted32 Pod.bytes r.coreMicroNgh,writeCounted32 Pod.bytes r.coreLargeNgh].flatten

def NonCoreSyncMsg.serialize (r : NonCoreSyncMsg) (written : Bytes) : Option Bytes :=
  if maxQuerybufferSize ≤ (written ++ r.bytes).length then none else some (written ++ r.bytes)

def NonCoreSyncMsg.read : Reader NonCoreSyncMsg := do
  let qid ← getPod
  let coreMicroNgh ← counted32 getPod
  let coreLargeNgh ← counted32 getPod
  pure ⟨qid,coreMicroNgh,coreLargeNgh⟩

end Records

section Sync

variable {D : Type} [LinearOrder D] [Pod D] [Pod (D × UInt32)]

structure SyncMsg (D : Type) where
  qid : UInt32
  updateTerm : UInt8
  hasToken : UInt8
  tokenIsBlack : UInt8
  procIsBlack : UInt8
  lastIsWhite : UInt8
  lowerBound : D
  localAddCand : List (D × UInt32)
  coreMicroNgh : Fin machineNum → List UInt32
  coreLargeNgh : Fin machineNum → List (UInt64 × UInt32)

def SyncMsg.filterredLocalCand (s : SyncMsg D) : List (D × UInt32) :=
  s.localAddCand.filter (fun e => ¬s.lowerBound < e.1)

-- Both sizes stand before the two lists.
def nghBytes (ngh : List UInt32 × List (UInt64 × UInt32)) : Bytes :=
  [bytes (UInt32.ofNat ngh.1.length),bytes (UInt32.ofNat ngh.2.length),ngh.1.flatMap bytes,ngh.2.flatMap bytes].flatten

def getNgh : Reader (List UInt32 × List (UInt64 × UInt32)) := do
  let size2 : UInt32 ← getPod
  let size3 : UInt32 ← getPod
  let micro ← many getPod size2.toNat
  let large ← many getPod size3.toNat
  pure (micro,large)

def SyncMsg.ngh (s : SyncMsg D) : List (List UInt32 × List (UInt64 × UInt32)) :=
  List.ofFn (fun i => (s.coreMicroNgh i,s.coreLargeNgh i))

def SyncMsg.bytes (s : SyncMsg D) : Bytes :=
  [Pod.bytes s.qid,Pod.bytes s.updateTerm,Pod.bytes s.hasToken,Pod.bytes s.tokenIsBlack,Pod.bytes s.procIsBlack,
    Pod.bytes s.lastIsWhite,Pod.bytes s.lowerBound,writeCounted32 Pod.bytes s.filterredLocalCand,
    s.ngh.flatMap nghBytes].flatten

def SyncMsg.serialize (s : SyncMsg D) : Option Bytes :=
  if maxQuerybufferSize ≤ s.bytes.length then none else some s.bytes

def SyncMsg.read : Reader (SyncMsg D) := do
  let qid ← getPod
  let updateTerm ← getPod
  let hasToken ← getPod
  let tokenIsBlack ← getPod
  let procIsBlack ← getPod
  let lastIsWhite ← getPod
  let lowerBound ← getPod
  let localAddCand ← counted32 getPod
  let ngh ← many getNgh machineNum
  pure { qid := qid
         updateTerm := updateTerm
         hasToken := hasToken
         tokenIsBlack := tokenIsBlack
         procIsBlack := procIsBlack
         lastIsWhite := lastIsWhite
         lowerBound := lowerBound
         localAddCand := localAddCand
         coreMicroNgh := fun i => (ngh.getD i ([],[])).1
         coreLargeNgh := fun i => (ngh.getD i ([],[])).2 }

end Sync

section Batches

variable {D : Type} [Pod D] [Pod (D × UInt32)]

-- The constructor with four arguments: no bound, no counts.
structure LocalTask where
  machineId : UInt32
  qid : UInt32
  deg : UInt32
  offset : UInt64
  deriving DecidableEq, Repr

/- What a message from a non-core machine changes of a query. -/
structure PendingQuery where
  queryId : UInt64
  state : QueryState
  localMicroTask : List UInt32
  localTask : List LocalTask

structure TaskManager (D : Type) where
  localId : Fin machineNum
  taskQueue : Fin machineNum → List (ComputeTask D)
  nodeTaskQueue : Fin machineNum → List NodeTask
  curTaskQueue : List (ComputeTask D)
  curNodeQueue : List NodeTask
  resultQueue : Fin machineNum → List (ResultMsg D)
  nodeResultQueue : Fin machineNum → List (NodeResult D)
  noncoreSyncMsg : Fin machineNum → List NonCoreSyncMsg
  globalQuery : UInt32 → PendingQuery
  subqueryQueue : List UInt32

def taskBytes (t : TaskManager D) (machineId : Fin machineNum) : Bytes :=
  [bytes (machineWord t.localId),writeCounted32 ComputeTask.serialize (t.taskQueue machineId),
    writeCounted32 NodeTask.serialize (t.nodeTaskQueue machineId)].flatten

def serializeTask (t : TaskManager D) (machineId : Fin machineNum) : Option Bytes :=
  if machineId = t.localId then none
  else if maxQuerybufferSize < (taskBytes t machineId).length then none
  else some (taskBytes t machineId)

def deserializeTask (t : TaskManager D) : Reader (TaskManager D) := do
  let _sendMid : UInt32 ← getPod
  let tasks ← counted32 ComputeTask.read
  let nodes ← counted32 NodeTask.read
  pure { t with curTaskQueue := t.curTaskQueue ++ tasks, curNodeQueue := t.curNodeQueue ++ nodes }

/- The other three writers: the sender and the size of the queue, and the size check
behind every element. -/
def appendChecked {α : Type} (serialize : α → Bytes → Option Bytes) (written : Bytes) (a : α) : Option Bytes := do
  let written ← serialize a written
  if maxQuerybufferSize ≤ written.length then none else some written

def header (t : TaskManager D) (size : Nat) : Bytes := bytes (machineWord t.localId) ++ bytes (UInt32.ofNat size)

def serializeBatch {α : Type} (t : TaskManager D) (machineId : Fin machineNum) (serialize : α → Bytes → Option Bytes)
    (queue : List α) : Option Bytes :=
  if machineId = t.localId then none
  else queue.foldlM (appendChecked serialize) (header t queue.length)

def serializeResult (t : TaskManager D) (machineId : Fin machineNum) : Option Bytes :=
  serializeBatch t machineId ResultMsg.serialize (t.resultQueue machineId)

def serializeNodeResult (t : TaskManager D) (machineId : Fin machineNum) : Option Bytes :=
  serializeBatch t machineId NodeResult.serialize (t.nodeResultQueue machineId)

def serializeNodeSync (t : TaskManager D) (machineId : Fin machineNum) : Option Bytes :=
  serializeBatch t machineId NonCoreSyncMsg.serialize (t.noncoreSyncMsg machineId)

def getBatch {α : Type} (read : Reader α) : Reader (List α) := do
  let _sendMid : UInt32 ← getPod
  counted32 read

def deserializeResult (t : TaskManager D) : Reader (TaskManager D) := do
  let results ← getBatch ResultMsg.read
  pure { t with resultQueue := Function.update t.resultQueue t.localId (t.resultQueue t.localId ++ results) }

def deserializeNodeResult (t : TaskManager D) : Reader (TaskManager D) := do
  let results ← getBatch NodeResult.read
  pure { t with
    nodeResultQueue := Function.update t.nodeResultQueue t.localId (t.nodeResultQueue t.localId ++ results) }

def updateSubQueryFromNoncore (machineId : Fin machineNum) (msg : NonCoreSyncMsg) (q : PendingQuery) : PendingQuery :=
  { q with
    localMicroTask := q.localMicroTask ++ msg.coreMicroNgh
    localTask := q.localTask ++
      msg.coreLargeNgh.map (fun e => ⟨machineWord machineId,q.queryId.toUInt32,e.2,e.1⟩) }

def receiveNodeSync (t : TaskManager D) (msg : NonCoreSyncMsg) : TaskManager D :=
  let q := updateSubQueryFromNoncore t.localId msg (t.globalQuery msg.qid)
  if q.state = .pause then
    { t with
      globalQuery := Function.update t.globalQuery msg.qid { q with state := .postStage }
      subqueryQueue := t.subqueryQueue ++ [msg.qid] }
  else { t with globalQuery := Function.update t.globalQuery msg.qid q }

def deserializeNodeSync (t : TaskManager D) : Reader (TaskManager D) := do
  let msgs ← getBatch NonCoreSyncMsg.read
  pure (msgs.foldl receiveNodeSync t)

end Batches

section Readers

variable {D : Type} [Pod D] [Pod (D × UInt32)]

theorem wordSmall {k : Nat} (bound : k ≤ maxQuerybufferSize) : k < 2^32 := Nat.lt_of_le_of_lt bound (by decide)

omit [Pod (D × UInt32)] in
theorem readsComputeTask (t : ComputeTask D) : Reads ComputeTask.read t.serialize t := by
  unfold ComputeTask.read ComputeTask.serialize
  simp only [List.flatten_cons,List.flatten_nil]
  refine readsBind (readsGet t.machineId) (readsBind (readsGet t.qid) (readsBind (readsGet t.deg) ?_))
  refine readsBind (readsGet t.offset) (readsBind (readsGet t.lowerBound) (readsBind (readsGet t.efFill) ?_))
  exact readsBind (readsGet t.coreCnt) (readsBind (readsGet t.nocoreCnt) (readsPure t))

omit [Pod (D × UInt32)] in
theorem taskSome (t : ComputeTask D) : 0 < t.serialize.length :=
  (podSome t.machineId).trans_le (partFits (by simp))

theorem nodeTaskSome (t : NodeTask) : 0 < t.serialize.length :=
  (podSome t.machineId).trans_le (partFits (by simp))

omit [Pod D] in
theorem resultSome (r : ResultMsg D) : 0 < r.bytes.length := (podSome r.qid).trans_le (partFits (by simp))

omit [Pod D] in
theorem nodeResultSome (r : NodeResult D) : 0 < r.bytes.length := (podSome r.qid).trans_le (partFits (by simp))

theorem nonCoreSyncSome (r : NonCoreSyncMsg) : 0 < r.bytes.length := (podSome r.qid).trans_le (partFits (by simp))

theorem readsNodeTask (t : NodeTask) : Reads NodeTask.read t.serialize t := by
  unfold NodeTask.read NodeTask.serialize
  simp only [List.flatten_cons,List.flatten_nil]
  refine readsBind (readsGet t.machineId) (readsBind (readsGet t.qid) ?_)
  exact readsBind (readsGet t.nodeId) (readsBind (readsGet t.isCoreMachine) (readsPure t))

/- A list of fixed-size elements in a part of a message that fits. -/
theorem readsPart {α : Type} [Pod α] (xs : List α) {parts : List Bytes} (fits : parts.flatten.length ≤ maxQuerybufferSize)
    (member : writeCounted32 bytes xs ∈ parts) : Reads (counted32 getPod) (writeCounted32 bytes xs) xs :=
  readsCounted32 (wordSmall ((countedFits32 podSome xs).trans ((partFits member).trans fits))) (fun a _ => readsGet a)

omit [Pod D] in
theorem readsResult {r : ResultMsg D} (fits : r.bytes.length ≤ maxQuerybufferSize) :
    Reads ResultMsg.read r.bytes r := by
  have res := readsPart r.res fits (by simp)
  unfold ResultMsg.read ResultMsg.bytes
  simp only [List.flatten_cons,List.flatten_nil]
  refine readsBind (readsGet r.qid) (readsBind (readsGet r.coreCnt) (readsBind (readsGet r.nocoreCnt) ?_))
  exact readsBind res (readsPure r)

omit [Pod D] in
theorem readsNodeResult {r : NodeResult D} (fits : r.bytes.length ≤ maxQuerybufferSize) :
    Reads NodeResult.read r.bytes r := by
  have res := readsPart r.res fits (by simp)
  unfold NodeResult.read NodeResult.bytes
  simp only [List.flatten_cons,List.flatten_nil]
  exact readsBind (readsGet r.qid) (readsBind (readsGet r.postCnt) (readsBind res (readsPure r)))

theorem readsNonCoreSync {r : NonCoreSyncMsg} (fits : r.bytes.length ≤ maxQuerybufferSize) :
    Reads NonCoreSyncMsg.read r.bytes r := by
  have micro := readsPart r.coreMicroNgh fits (by simp)
  have large := readsPart r.coreLargeNgh fits (by simp)
  unfold NonCoreSyncMsg.read NonCoreSyncMsg.bytes
  simp only [List.flatten_cons,List.flatten_nil]
  exact readsBind (readsGet r.qid) (readsBind micro (readsBind large (readsPure r)))

theorem readsNgh {ngh : List UInt32 × List (UInt64 × UInt32)} (fits : (nghBytes ngh).length ≤ maxQuerybufferSize) :
    Reads getNgh (nghBytes ngh) ngh := by
  have micro : ngh.1.length < 2^32 := by
    refine wordSmall (le_trans ((lengthFits podSome ngh.1).trans (partFits ?_)) fits)
    simp
  have large : ngh.2.length < 2^32 := by
    refine wordSmall (le_trans ((lengthFits podSome ngh.2).trans (partFits ?_)) fits)
    simp
  unfold getNgh nghBytes
  simp only [List.flatten_cons,List.flatten_nil]
  refine readsBind (readsGet _) (readsBind (readsGet _) ?_)
  rw [UInt32.toNat_ofNat_of_lt' micro,UInt32.toNat_ofNat_of_lt' large]
  exact readsBind (readsMany (fun a _ => readsGet a)) (readsBind (readsMany (fun a _ => readsGet a)) (readsPure ngh))

theorem readsSync [LinearOrder D] {s : SyncMsg D} (fits : s.bytes.length ≤ maxQuerybufferSize) :
    Reads SyncMsg.read s.bytes { s with localAddCand := s.filterredLocalCand } := by
  have cands := readsPart s.filterredLocalCand fits (by simp)
  have whole : (s.ngh.flatMap nghBytes).length ≤ maxQuerybufferSize := (partFits (by simp)).trans fits
  have ngh : Reads (many getNgh machineNum) (s.ngh.flatMap nghBytes) s.ngh := by
    have read := readsMany (r := getNgh) (fun p member => readsNgh ((elementFits nghBytes member).trans whole))
    rwa [SyncMsg.ngh,List.length_ofFn] at read
  have found : ∀ i : Fin machineNum, s.ngh.getD i ([],[]) = (s.coreMicroNgh i,s.coreLargeNgh i) := by
    intro i
    rw [List.getD_eq_getElem?_getD,SyncMsg.ngh,List.getElem?_ofFn,dif_pos i.isLt]
    rfl
  unfold SyncMsg.read SyncMsg.bytes
  simp only [List.flatten_cons,List.flatten_nil]
  refine readsBind (readsGet s.qid) (readsBind (readsGet s.updateTerm) (readsBind (readsGet s.hasToken) ?_))
  refine readsBind (readsGet s.tokenIsBlack) (readsBind (readsGet s.procIsBlack) (readsBind (readsGet s.lastIsWhite) ?_))
  refine readsBind (readsGet s.lowerBound) (readsBind cands (readsBind ngh ?_))
  simp only [found]
  exact readsPure _

end Readers

section RoundTrip

variable {D : Type} [Pod D] [Pod (D × UInt32)] {α : Type} {write : α → Bytes} {serialize : α → Bytes → Option Bytes}
variable {read : Reader α}

/- The writers of one element, as long as there is room. -/
def Appends (write : α → Bytes) (serialize : α → Bytes → Option Bytes) : Prop :=
  ∀ a written, (written ++ write a).length < maxQuerybufferSize → serialize a written = some (written ++ write a)

omit [Pod D] in
theorem resultAppends : Appends (ResultMsg.bytes (D := D)) ResultMsg.serialize :=
  fun _ _ room => if_neg (Nat.not_lt.mpr room.le)

omit [Pod D] in
theorem nodeResultAppends : Appends (NodeResult.bytes (D := D)) NodeResult.serialize := fun _ _ _ => rfl

theorem nonCoreSyncAppends : Appends NonCoreSyncMsg.bytes NonCoreSyncMsg.serialize :=
  fun _ _ room => if_neg (Nat.not_le.mpr room)

theorem appendAll (appends : Appends write serialize) (xs : List α) (written : Bytes)
    (fits : (written ++ xs.flatMap write).length < maxQuerybufferSize) :
    xs.foldlM (appendChecked serialize) written = some (written ++ xs.flatMap write) := by
  induction xs generalizing written with
  | nil => rw [List.flatMap_nil,List.append_nil]; rfl
  | cons a rest ih =>
    rw [List.flatMap_cons,← List.append_assoc] at fits ⊢
    have room : (written ++ write a).length < maxQuerybufferSize := by
      rw [List.length_append] at fits
      omega
    have first : appendChecked serialize written a = some (written ++ write a) := by
      rw [appendChecked,appends a written room]
      exact if_neg (Nat.not_le.mpr room)
    rw [List.foldlM_cons,first]
    exact ih (written ++ write a) fits

def batchBytes (t : TaskManager D) (write : α → Bytes) (queue : List α) : Bytes :=
  header t queue.length ++ queue.flatMap write

omit [Pod D] [Pod (D × UInt32)] in
theorem batchSent {t : TaskManager D} {m : Fin machineNum} {queue : List α} (appends : Appends write serialize)
    (remote : m ≠ t.localId) (fits : (batchBytes t write queue).length < maxQuerybufferSize) :
    serializeBatch t m serialize queue = some (batchBytes t write queue) := by
  rw [serializeBatch,if_neg remote]
  exact appendAll appends queue _ fits

omit [Pod D] [Pod (D × UInt32)] in
theorem batchReceived {t : TaskManager D} {queue : List α} (some' : ∀ a, 0 < (write a).length)
    (fits : (batchBytes t write queue).length < maxQuerybufferSize)
    (each : ∀ a, (write a).length ≤ maxQuerybufferSize → Reads read (write a) a) :
    Reads (getBatch read) (batchBytes t write queue) queue := by
  have inside : (queue.flatMap write).length ≤ maxQuerybufferSize := by
    rw [batchBytes,List.length_append] at fits
    omega
  have small := wordSmall ((lengthFits some' queue).trans inside)
  rw [batchBytes,header,List.append_assoc]
  exact readsBind (readsGet (machineWord t.localId))
    (readsCounted32 small (fun a member => each a ((elementFits write member).trans inside)))

/- The neighbours a batch brings for a query, and what the batch leaves as it was. -/
def microFor (msgs : List NonCoreSyncMsg) (qid : UInt32) : List UInt32 :=
  (msgs.filter (fun msg => msg.qid = qid)).flatMap NonCoreSyncMsg.coreMicroNgh

def largeFor (msgs : List NonCoreSyncMsg) (qid : UInt32) : List (UInt64 × UInt32) :=
  (msgs.filter (fun msg => msg.qid = qid)).flatMap NonCoreSyncMsg.coreLargeNgh

structure Appended (t t' : TaskManager D) (msgs : List NonCoreSyncMsg) : Prop where
  micro : ∀ qid, (t'.globalQuery qid).localMicroTask = (t.globalQuery qid).localMicroTask ++ microFor msgs qid
  large : ∀ qid, (t'.globalQuery qid).localTask = (t.globalQuery qid).localTask ++ (largeFor msgs qid).map
    (fun e => ⟨machineWord t.localId,(t.globalQuery qid).queryId.toUInt32,e.2,e.1⟩)
  ids : ∀ qid, (t'.globalQuery qid).queryId = (t.globalQuery qid).queryId
  rest : t' = { t with globalQuery := t'.globalQuery, subqueryQueue := t'.subqueryQueue }

omit [Pod D] [Pod (D × UInt32)] in
theorem receiveAppended (t : TaskManager D) (msg : NonCoreSyncMsg) : Appended t (receiveNodeSync t msg) [msg] := by
  simp only [receiveNodeSync]
  split
  all_goals
    refine ⟨fun qid => ?_,fun qid => ?_,fun qid => ?_,rfl⟩
    all_goals
      rcases eq_or_ne msg.qid qid with rfl | other
      · simp [updateSubQueryFromNoncore,microFor,largeFor]
      · simp [microFor,largeFor,other,Function.update_of_ne other.symm]

omit [Pod D] [Pod (D × UInt32)] in
theorem appendedTrans {t t' t'' : TaskManager D} {msgs more : List NonCoreSyncMsg} (first : Appended t t' msgs)
    (second : Appended t' t'' more) : Appended t t'' (msgs ++ more) := by
  have id' : t'.localId = t.localId := by rw [first.rest]
  refine ⟨fun qid => ?_,fun qid => ?_,fun qid => (second.ids qid).trans (first.ids qid),?_⟩
  · rw [second.micro,first.micro,microFor,microFor,microFor,List.filter_append,List.flatMap_append,List.append_assoc]
  · rw [second.large,first.large,first.ids,id',largeFor,largeFor,largeFor,List.filter_append,List.flatMap_append,
      List.map_append,List.append_assoc]
  · rw [second.rest,first.rest]

omit [Pod D] [Pod (D × UInt32)] in
theorem receiveAll (msgs : List NonCoreSyncMsg) (t : TaskManager D) : Appended t (msgs.foldl receiveNodeSync t) msgs := by
  induction msgs generalizing t with
  | nil => exact ⟨fun _ => (List.append_nil _).symm,fun _ => (List.append_nil _).symm,fun _ => rfl,rfl⟩
  | cons msg rest ih => exact appendedTrans (receiveAppended t msg) (ih _)

/- Sender s, receiver t, and a batch of each kind that fits the buffer. -/
theorem batchRoundTrip [LinearOrder D] (s t : TaskManager D) (m : Fin machineNum) (remote : m ≠ s.localId) :
    ((taskBytes s m).length ≤ maxQuerybufferSize → ∃ bs, serializeTask s m = some bs ∧
      Reads (deserializeTask t) bs { t with
        curTaskQueue := t.curTaskQueue ++ s.taskQueue m
        curNodeQueue := t.curNodeQueue ++ s.nodeTaskQueue m }) ∧
    ((batchBytes s ResultMsg.bytes (s.resultQueue m)).length < maxQuerybufferSize → ∃ bs, serializeResult s m = some bs ∧
      Reads (deserializeResult t) bs { t with
        resultQueue := Function.update t.resultQueue t.localId (t.resultQueue t.localId ++ s.resultQueue m) }) ∧
    ((batchBytes s NodeResult.bytes (s.nodeResultQueue m)).length < maxQuerybufferSize →
      ∃ bs, serializeNodeResult s m = some bs ∧
      Reads (deserializeNodeResult t) bs { t with
        nodeResultQueue :=
          Function.update t.nodeResultQueue t.localId (t.nodeResultQueue t.localId ++ s.nodeResultQueue m) }) ∧
    ((batchBytes s NonCoreSyncMsg.bytes (s.noncoreSyncMsg m)).length < maxQuerybufferSize →
      ∃ bs t', serializeNodeSync s m = some bs ∧ Reads (deserializeNodeSync t) bs t' ∧
      Appended t t' (s.noncoreSyncMsg m)) ∧
    ∀ msg : SyncMsg D, msg.bytes.length < maxQuerybufferSize → ∃ bs, msg.serialize = some bs ∧
      Reads SyncMsg.read bs { msg with localAddCand := msg.localAddCand.filter (fun e => e.1 ≤ msg.lowerBound) } := by
  refine ⟨fun fits => ?tasks,fun fits => ?results,fun fits => ?nodeResults,fun fits => ?nodeSync,fun msg fits => ?sync⟩
  case tasks =>
    have part : ∀ p ∈ [bytes (machineWord s.localId),writeCounted32 ComputeTask.serialize (s.taskQueue m),
        writeCounted32 NodeTask.serialize (s.nodeTaskQueue m)], p.length ≤ maxQuerybufferSize :=
      fun p member => (partFits member).trans fits
    have tasks := wordSmall ((countedFits32 taskSome (s.taskQueue m)).trans (part _ (by simp)))
    have nodes := wordSmall ((countedFits32 nodeTaskSome (s.nodeTaskQueue m)).trans (part _ (by simp)))
    refine ⟨taskBytes s m,by rw [serializeTask,if_neg remote,if_neg (Nat.not_lt.mpr fits)],?_⟩
    unfold deserializeTask taskBytes
    simp only [List.flatten_cons,List.flatten_nil]
    refine readsBind (readsGet (machineWord s.localId)) ?_
    refine readsBind (readsCounted32 tasks (fun a _ => readsComputeTask a)) ?_
    exact readsBind (readsCounted32 nodes (fun a _ => readsNodeTask a)) (readsPure _)
  case results =>
    refine ⟨_,batchSent resultAppends remote fits,?_⟩
    exact readsMap _ (batchReceived resultSome fits (fun _ => readsResult))
  case nodeResults =>
    refine ⟨_,batchSent nodeResultAppends remote fits,?_⟩
    exact readsMap _ (batchReceived nodeResultSome fits (fun _ => readsNodeResult))
  case nodeSync =>
    refine ⟨_,_,batchSent nonCoreSyncAppends remote fits,?_,receiveAll (s.noncoreSyncMsg m) t⟩
    exact readsMap _ (batchReceived nonCoreSyncSome fits (fun _ => readsNonCoreSync))
  case sync =>
    have filtered : msg.filterredLocalCand = msg.localAddCand.filter (fun e => e.1 ≤ msg.lowerBound) := by
      simp only [SyncMsg.filterredLocalCand,not_lt]
    refine ⟨msg.bytes,if_neg (Nat.not_le.mpr fits),?_⟩
    rw [← filtered]
    exact readsSync fits.le

end RoundTrip

section Small

/- Machine 1 sends to machine 2, which waits for query 5 and has one task already. -/
def smallTask : ComputeTask Int32 := ⟨1,5,3,640,-7,1,1,0⟩

def smallManager (id : Fin machineNum) (task : ComputeTask Int32) (ngh : List NonCoreSyncMsg) : TaskManager Int32 where
  localId := id
  taskQueue := fun m => if m = 2 then [task,{ task with qid := 6 }] else []
  nodeTaskQueue := fun m => if m = 2 then [⟨1,5,12,fun _ => 0⟩] else []
  curTaskQueue := [task]
  curNodeQueue := []
  resultQueue := fun m => if m = 2 then [⟨5,1,0,[(-3,9),(4,8)]⟩,⟨6,0,1,[]⟩] else []
  nodeResultQueue := fun m => if m = 2 then [⟨5,2,[(8,4)]⟩] else []
  noncoreSyncMsg := fun m => if m = 2 then ngh else []
  globalQuery := fun qid => ⟨qid.toUInt64,.pause,[],[]⟩
  subqueryQueue := []

def smallNgh : List NonCoreSyncMsg := [⟨5,[2,4],[]⟩,⟨6,[],[(96,7)]⟩,⟨5,[9],[(32,3)]⟩]

theorem smallBatchRoundTrip : ∃ bs t', serializeNodeSync (smallManager 1 smallTask smallNgh) 2 = some bs ∧
    Reads (deserializeNodeSync (smallManager 2 smallTask [])) bs t' ∧
    (t'.globalQuery 5).localMicroTask = [2,4,9] ∧ (t'.globalQuery 5).localTask = [⟨2,5,3,32⟩] ∧
    ∃ bs, serializeTask (smallManager 1 smallTask smallNgh) 2 = some bs ∧
    Reads (do let t ← deserializeTask (smallManager 2 smallTask []); pure t.curTaskQueue) bs
      [smallTask,smallTask,{ smallTask with qid := 6 }] := by
  obtain ⟨tasks,_,_,nodeSync,_⟩ := batchRoundTrip (smallManager 1 smallTask smallNgh) (smallManager 2 smallTask []) 2
    (by decide)
  obtain ⟨bs,t',sent,reads,appended⟩ := nodeSync (by decide +kernel)
  obtain ⟨bs',sent',reads'⟩ := tasks (by decide +kernel)
  exact ⟨bs,t',sent,reads,appended.micro 5,appended.large 5,bs',sent',readsMap _ reads'⟩

end Small

end CoTra.TaskCodec
