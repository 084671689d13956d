import CoTra.Runs
import CoTra.Priority
import Mathlib.Order.OrderDual
import Mathlib.Data.List.FinRange
import Mathlib.Algebra.Notation.Defs
import Mathlib.Data.Fintype.Defs

/-! One query on all machines (scala_search.h: coro_sub_query_v5, scala_sub_proc_v5,
do_task, work_steal; query_msg.h, task_manager.h, vec_buffer.h; rdma_comm.h:
poll_task_result and the post functions). A machine is one thread with its
TaskManager and receive queues; other threads only steal from the balance queue.
Machine steps and deliveries may come in any order, except that a coroutine that
runs is not interrupted by its own thread. Other queries share the send queues, so
a queue may be posted at any time. Which of two candidates at one distance a priority
queue gives up first is left open. Aborts are `none`. -/
namespace CoTra.SubQuery
open Runs Priority

def candGroupSize : Nat := 4
def syncBar : Nat := 4
def postResMerge : Nat := 20
def postNodesyncMerge : Nat := 20

/- The block of a vertex as the V3 decoders walk it. -/
inductive Record (n : Nat) where
  | localNgh (deg ofs : Nat)
  | micro (pid : Fin n) (ids : List Nat)
  | large (pid : Fin n) (ofs deg : Nat)

def Record.remote {n : Nat} : Record n → Option (Fin n)
  | .localNgh _ _ => none
  | .micro pid _ => some pid
  | .large pid _ _ => some pid

/- The indexes of all machines: who owns a vertex, its block, the ids stored at an
offset of a machine's file, the distance of a vertex to the query, and its label. -/
structure Index (n : Nat) (D : Type) where
  getMachineId : Nat → Fin n
  block : Nat → List (Record n)
  nghPtr : Fin n → Nat → Nat → List Nat
  dist : Nat → D
  kmeansPosLabelMap : Nat → Nat
  foreign : ∀ v, ∀ r ∈ block v, r.remote ≠ some (getMachineId v)

inductive QueryState where
  | start
  | preStage
  | postStage
  | pause
  | ended
  deriving DecidableEq, Repr

/- Where the coroutine of a machine is suspended. `top`: it runs and is about to pop
the next candidates. -/
inductive Coro where
  | none
  | waiting
  | yielded
  | top
  | finished
  deriving DecidableEq, Repr

/- The neighbours of a ComputeTask: ids packed in the offset, or an array. -/
inductive Ngh where
  | packed (ids : List Nat)
  | stored (ofs deg : Nat)

-- A ComputeTask of the constructor for local tasks.
structure LocalTask where
  deg : Nat
  offset : Nat
  isCount : Bool

structure ComputeTask (n : Nat) (D : Type) where
  machineId : Fin n
  ngh : Ngh
  lowerBound : D
  efFill : Bool
  coreCnt : Nat
  nocoreCnt : Nat
  once : coreCnt + nocoreCnt = 1

theorem countedCore : 1+0 = 1 := rfl

theorem countedNocore : 0+1 = 1 := rfl

structure NodeTask (n : Nat) where
  machineId : Fin n
  nodeId : Nat
  isCoreMachine : Fin n → Bool

/- `node` is the expanded vertex; no operation reads it. -/
structure ResultMsg (D : Type) where
  coreCnt : Nat
  nocoreCnt : Nat
  once : coreCnt + nocoreCnt = 1
  res : List (D × Nat)
  node : Option Nat

structure NodeResult (D : Type) where
  postCnt : Nat
  res : List (D × Nat)
  node : Nat

/- `cause` and `node`: whose NodeTask and which vertex; no operation reads them. -/
structure NonCoreSyncMsg (n : Nat) where
  coreMicroNgh : List Nat
  coreLargeNgh : List (Nat × Nat)
  cause : Fin n
  node : Nat

structure SyncMsg (n : Nat) (D : Type) where
  updateTerm : Bool
  hasToken : Bool
  tokenIsBlack : Bool
  localAddCand : List (D × Nat)
  coreMicroNgh : Fin n → List Nat
  coreLargeNgh : Fin n → List (Nat × Nat)

structure Chunk (D : Type) where
  isCount : Bool
  elems : List (D × Nat)

structure BufferCache (n : Nat) where
  machineId : Fin n
  vectorId : Nat

/- What fork and serialize2 send of a query. -/
structure QueryFork (n : Nat) (D : Type) where
  state : QueryState
  lowerBound : D
  leaderMachine : Fin n
  coreMachine : List (Fin n)
  topCandidates : List (D × Nat)
  candidateSet : List (D × Nat)
  result : List (D × Nat)

inductive Message (n : Nat) (D : Type) where
  | query (q : QueryFork n D)
  | sync (m : SyncMsg n D)
  | nodeSync (ms : List (NonCoreSyncMsg n))
  | task (ts : List (ComputeTask n D)) (ns : List (NodeTask n))
  | result (rs : List (ResultMsg D))
  | nodeResult (rs : List (NodeResult D))

inductive Control where
  | query
  | sync
  | nodeSync
  | task
  | result
  | nodeResult
  deriving DecidableEq, Repr

instance : Fintype Control where
  elems := ⟨([.query,.sync,.nodeSync,.task,.result,.nodeResult] : List Control),by decide⟩
  complete k := by cases k <;> decide

def Message.control {n : Nat} {D : Type} : Message n D → Control
  | .query _ => .query
  | .sync _ => .sync
  | .nodeSync _ => .nodeSync
  | .task _ _ => .task
  | .result _ => .result
  | .nodeResult _ => .nodeResult

/- The part of a QueryMsg that a candidate changes. -/
structure Search (D : Type) [Distance D] where
  lowerBound : D
  topCandidates : PQueue D Nat
  candidateSet : PQueue Dᵒᵈ Nat
  localAddCand : List (D × Nat)
  procIsBlack : Bool

structure QueryMsg (n : Nat) (D : Type) [Distance D] where
  state : QueryState
  isNew : Bool
  coro : Coro
  search : Search D
  leaderMachine : Fin n
  coreMachine : List (Fin n)
  isCoreMachine : Fin n → Bool
  hasToken : Bool
  tokenIsBlack : Bool
  lastIsWhite : Bool
  globalTerm : Bool
  postCnt : Nat
  recvCnt : Nat
  nocorePost : Nat
  nocoreRecv : Nat
  syncStep : Nat
  syncLowerBound : D
  coreMicroNgh : Fin n → List Nat
  coreLargeNgh : Fin n → List (Nat × Nat)
  localTask : List LocalTask
  localMicroTask : List Nat
  -- how often it stands in the query queue
  queryQueue : Nat

/- How often the query stands in the two queues and in ret, what it adds to
cur_query_num, and whether the caller of the running coroutine looks at its value. -/
structure Schedule where
  subqueryQueue : Nat
  nextSubqueryQueue : Nat
  ret : Nat
  curQueryNum : Int
  resumed : Bool
  deriving DecidableEq, Repr

/- A machine: its QueryMsg, with the queues of the query, and its TaskManager. -/
structure Machine (n : Nat) (D : Type) [Distance D] extends QueryMsg n D, Schedule where
  visitHash : List Nat
  result : List (D × Nat)
  localRes : List (ResultMsg D)
  asyncReadQueue : List (BufferCache n)
  recvAsyncReadQueue : List (BufferCache n)
  conTaskQueue : List (Chunk D)
  -- TaskManager
  taskQueue : Fin n → List (ComputeTask n D)
  nodeTaskQueue : Fin n → List (NodeTask n)
  nodeResultQueue : Fin n → List (NodeResult D)
  noncoreSyncMsg : Fin n → List (NonCoreSyncMsg n)
  resultQueue : Fin n → List (ResultMsg D)
  curTaskQueue : List (ComputeTask n D)
  curNodeQueue : List (NodeTask n)
  baTaskQueue : List LocalTask
  stolen : List LocalTask
  -- messages received by kind, and posted by destination; reads posted and completed
  rbuf : Control → List (Message n D)
  wire : Fin n → List (Message n D)
  posted : List (BufferCache n)
  recvList : List (BufferCache n)

variable {n : Nat} {D : Type} [Distance D]

/- What the pre-stage finds in the top index: every vertex it evaluates, in order. -/
structure Config (n : Nat) (D : Type) where
  ef : Nat
  resKnn : Nat
  originMachine : Fin n
  leaderMachine : Fin n
  coreMachine : List (Fin n)
  coreNodup : coreMachine.Nodup
  leaderCore : leaderMachine ∈ coreMachine
  enterpoint : D × Nat
  evaluated : List (D × Nat)
  once : ((enterpoint :: evaluated).map Prod.snd).Nodup
  -- lowerBound of a QueryMsg that has not been set
  unset : D

/- Machine 0 leads, alone among two machines or with machine 1 among three. -/
theorem aloneOnce : ([0] : List (Fin 2)).Nodup := by decide

theorem aloneLeads : (0 : Fin 2) ∈ [0] := by decide

theorem bothOnce : ([0,1] : List (Fin 3)).Nodup := by decide

theorem firstLeads : (0 : Fin 3) ∈ [0,1] := by decide

structure PreStage (D : Type) [Distance D] where
  lowerBound : D
  preTopCand : PQueue D Nat

-- top().first, unless the queue is empty
def topBound (q : PQueue D Nat) (old : D) : D :=
  match top q with
  | some x => x.1
  | none => old

def topProcCandidate (ef : Nat) (s : PreStage D) (cand : D × Nat) : PreStage D :=
  if size s.preTopCand < ef ∨ cand.1 < s.lowerBound then
    let preTopCand := popTo ef (push s.preTopCand cand)
    ⟨topBound preTopCand s.lowerBound,preTopCand⟩
  else s

def preStage (cfg : Config n D) : PreStage D :=
  cfg.evaluated.foldl (topProcCandidate cfg.ef) ⟨cfg.enterpoint.1,push empty cfg.enterpoint⟩

variable (x : Index n D) (cfg : Config n D)

/- Candidates of machines that are not core go to the leader. -/
def filterred (m : Fin n) : List (D × Nat) :=
  let of := fun p => (preStage cfg).preTopCand.elems.filter (fun c => x.getMachineId c.2 = p)
  if m = cfg.leaderMachine then of m ++ ((List.finRange n).filter (· ∉ cfg.coreMachine)).flatMap of else of m

def postProcCandidate (s : Search D) (cand : D × Nat) : Search D :=
  if size s.topCandidates < cfg.ef ∨ cand.1 < s.lowerBound then
    let topCandidates := popTo cfg.ef (push s.topCandidates cand)
    { s with
      lowerBound := topBound topCandidates s.lowerBound
      topCandidates := topCandidates
      candidateSet := push s.candidateSet (OrderDual.toDual cand.1,cand.2)
      localAddCand := s.localAddCand ++ [cand]
      procIsBlack := true }
  else s

-- A vertex that is not in the visit hash yet.
def evaluate (s : Search D × List Nat) (v : Nat) : Search D × List Nat :=
  if v ∈ s.2 then s else (postProcCandidate cfg s.1 (x.dist v,v),v :: s.2)

/- Distances of the vertices that were not visited. -/
def visit : List Nat → List Nat → List (D × Nat) × List Nat
  | [], hash => ([],hash)
  | v :: rest, hash =>
    if v ∈ hash then visit rest hash
    else
      let (found,hash') := visit rest (v :: hash)
      ((x.dist v,v) :: found,hash')

variable (me : Fin n)

/- do_task, up to the push of the chunk. -/
def doTask (t : LocalTask) (hash : List Nat) : Chunk D × List Nat :=
  let (elems,hash') := visit x (x.nghPtr me t.offset t.deg) hash
  (⟨t.isCount,elems⟩,hash')

-- What the coroutine does when it is resumed, up to the next candidates.
def procLocalTask (m : Machine n D) : Machine n D :=
  let (search,hash) := m.localTask.foldl (fun s t => (x.nghPtr me t.offset t.deg).foldl (evaluate x cfg) s)
    (m.search,m.visitHash)
  { m with search := search, visitHash := hash, localTask := [] }

def procBaTask (m : Machine n D) (t : LocalTask) : Machine n D :=
  let (chunk,hash) := doTask x me t m.visitHash
  { m with visitHash := hash, conTaskQueue := m.conTaskQueue ++ [chunk] }

def procBaTaskQueue (m : Machine n D) : Machine n D :=
  { m.baTaskQueue.foldl (procBaTask x me) m with baTaskQueue := [] }

def procChunk (m : Machine n D) (c : Chunk D) : Machine n D :=
  { m with
    recvCnt := m.recvCnt + c.isCount.toNat
    search := c.elems.foldl (postProcCandidate cfg) m.search }

def procConTaskQueue (m : Machine n D) : Machine n D :=
  { m.conTaskQueue.foldl (procChunk cfg) m with conTaskQueue := [] }

def procLocalMicroTask (m : Machine n D) : Machine n D :=
  let (search,hash) := m.localMicroTask.foldl (evaluate x cfg) (m.search,m.visitHash)
  { m with search := search, visitHash := hash, localMicroTask := [] }

def procAsyncRead (m : Machine n D) (r : BufferCache n) : Machine n D :=
  let (search,hash) := evaluate x cfg (m.search,m.visitHash) r.vectorId
  { m with search := search, visitHash := hash, recvCnt := m.recvCnt + 1 }

def procAsyncReadQueue (m : Machine n D) : Machine n D :=
  { m.recvAsyncReadQueue.foldl (procAsyncRead x cfg) m with recvAsyncReadQueue := [] }

def procRes (m : Machine n D) (r : ResultMsg D) : Machine n D :=
  { m with
    search := r.res.foldl (postProcCandidate cfg) m.search
    recvCnt := m.recvCnt + r.coreCnt
    nocoreRecv := m.nocoreRecv + r.nocoreCnt }

def procLocalRes (m : Machine n D) : Machine n D :=
  { m.localRes.foldl (procRes cfg) m with localRes := [] }

def drain (m : Machine n D) : Machine n D :=
  procLocalRes cfg (procAsyncReadQueue x cfg (procLocalMicroTask x cfg (procConTaskQueue cfg
    (procBaTaskQueue x me (procLocalTask x cfg me m)))))

/- scala_graph_v3_get_subquery_task_lb: the machine and the number of posts. -/
def getSubqueryTaskLb (lb : D) (efFill : Bool) : List (Record n) → Machine n D → Machine n D × Nat
  | [], m => (m,0)
  | .localNgh deg ofs :: _, m => ({ m with baTaskQueue := m.baTaskQueue ++ [⟨deg,ofs,true⟩] },1)
  | .micro pid ids :: rest, m =>
    if m.isCoreMachine pid then
      getSubqueryTaskLb lb efFill rest
        { m with coreMicroNgh := Function.update m.coreMicroNgh pid (m.coreMicroNgh pid ++ ids) }
    else
      let (m',cnt) := getSubqueryTaskLb lb efFill rest
        { m with asyncReadQueue := m.asyncReadQueue ++ ids.map (fun v => ⟨pid,v⟩) }
      (m',ids.length + cnt)
  | .large pid ofs deg :: rest, m =>
    if m.isCoreMachine pid then
      getSubqueryTaskLb lb efFill rest
        { m with coreLargeNgh := Function.update m.coreLargeNgh pid (m.coreLargeNgh pid ++ [(ofs,deg)]) }
    else
      let task : ComputeTask n D := ⟨me,.stored ofs deg,lb,efFill,1,0,countedCore⟩
      let (m',cnt) := getSubqueryTaskLb lb efFill rest
        { m with taskQueue := Function.update m.taskQueue pid (m.taskQueue pid ++ [task]) }
      (m',1 + cnt)

def expandNode (m : Machine n D) (nghId : Nat) : Machine n D :=
  let mid := x.getMachineId nghId
  if mid ≠ me then
    { m with
      nodeTaskQueue := Function.update m.nodeTaskQueue mid (m.nodeTaskQueue mid ++ [⟨me,nghId,m.isCoreMachine⟩])
      postCnt := m.postCnt + 1 }
  else
    let (m',cnt) := getSubqueryTaskLb me m.search.lowerBound (size m.search.topCandidates < cfg.ef) (x.block nghId) m
    { m' with postCnt := m'.postCnt + cnt }

/- The reads, and one TASK message to each machine with something to send. -/
def postNodeRemoteTask (m : Machine n D) : Machine n D :=
  let some' := fun p => p ≠ me ∧ ¬((m.taskQueue p).isEmpty ∧ (m.nodeTaskQueue p).isEmpty)
  { m with
    wire := fun p => if some' p then m.wire p ++ [.task (m.taskQueue p) (m.nodeTaskQueue p)] else m.wire p
    taskQueue := fun p => if some' p then [] else m.taskQueue p
    nodeTaskQueue := fun p => if some' p then [] else m.nodeTaskQueue p }

def postRemoteTask (m : Machine n D) : Machine n D :=
  postNodeRemoteTask me { m with posted := m.posted ++ m.asyncReadQueue, asyncReadQueue := [] }

def nxtPropM (core : List (Fin n)) : Fin n := core.getD ((core.idxOf me + 1) % core.length) me

/- SyncMsg::serialize sends the candidates up to sync_msg.lower_bound, which only the
periodic sync sets. -/
def syncMsg (q : QueryMsg n D) (token taint : Bool) : SyncMsg n D where
  updateTerm := token
  hasToken := token
  tokenIsBlack := token && taint
  localAddCand := q.search.localAddCand.filter (fun c => c.1 ≤ q.syncLowerBound)
  coreMicroNgh := q.coreMicroNgh
  coreLargeNgh := q.coreLargeNgh

def postSync (nxt : Fin n) (propToken taint : Bool) (m : Machine n D) (p : Fin n) : Machine n D :=
  if p = me then m
  else
    let token := propToken && decide (nxt = p) && m.hasToken
    { m with
      wire := Function.update m.wire p (m.wire p ++ [.sync (syncMsg m.toQueryMsg token taint)])
      hasToken := m.hasToken && !token }

def postSubquerySync (propToken taint : Bool) (m : Machine n D) : Machine n D :=
  m.coreMachine.foldl (postSync me (nxtPropM me m.coreMachine) propToken taint) m

-- sync_msg.clear()
def clearSync (m : Machine n D) : Machine n D :=
  { m with
    search := { m.search with localAddCand := [] }
    coreMicroNgh := fun _ => []
    coreLargeNgh := fun _ => [] }

/- The next candidates, as long as they are not beyond the bound. -/
def popGroup (lowerBound : D) : Nat → PQueue Dᵒᵈ Nat → List Nat × PQueue Dᵒᵈ Nat
  | 0, q => ([],q)
  | k+1, q =>
    match top q with
    | none => ([],q)
    | some (d,v) =>
      if lowerBound < OrderDual.ofDual d then ([],q)
      else
        let (vs,q') := popGroup lowerBound k (pop q)
        (v :: vs,q')

def periodicSync (m : Machine n D) : Machine n D :=
  if syncBar ≤ m.syncStep then
    { clearSync (postSubquerySync me false false { m with syncLowerBound := m.search.lowerBound }) with syncStep := 0 }
  else m

def expandGroup (vs : List Nat) (m : Machine n D) : Machine n D :=
  let m := postRemoteTask me (vs.foldl (expandNode x cfg me) m)
  let m := periodicSync me { m with syncStep := m.syncStep + 1 }
  { m with
    nextSubqueryQueue := if m.state = .postStage then m.nextSubqueryQueue + 1 else m.nextSubqueryQueue
    coro := .yielded }

/- What serialize2 writes at the end: the top candidates have become the result. -/
def endFork (q : QueryMsg n D) (result : List (D × Nat)) : QueryFork n D :=
  ⟨.ended,q.search.lowerBound,q.leaderMachine,q.coreMachine,[],
    (q.search.candidateSet.elems.filter (fun c => OrderDual.ofDual c.1 < q.search.lowerBound)).map
      (fun c => (OrderDual.ofDual c.1,c.2)),result⟩

-- The caller got true: ret.push_back and cur_query_num--.
def pushRet (m : Machine n D) : Machine n D := { m with ret := m.ret + 1, curQueryNum := m.curQueryNum - 1 }

def labelled (top : PQueue D Nat) : List (D × Nat) :=
  (popTo cfg.resKnn top).elems.map (fun c => (c.1,x.kmeansPosLabelMap c.2))

/- The end of the coroutine; serialize2 empties the candidate set. -/
def endQuery (m : Machine n D) : Machine n D :=
  let m := { m with
    state := .ended
    coro := .finished
    result := m.result ++ labelled x cfg m.search.topCandidates
    search := { m.search with topCandidates := empty } }
  if m.leaderMachine = me ∧ me ≠ cfg.originMachine then
    let wire := Function.update m.wire cfg.originMachine
      (m.wire cfg.originMachine ++ [.query (endFork m.toQueryMsg m.result)])
    { m with wire := wire, result := [], search := { m.search with candidateSet := empty } }
  else if m.resumed then pushRet m
  else m

def pauseQuery (m : Machine n D) : Machine n D := { m with state := .pause, coro := .yielded }

def propToken (m : Machine n D) : Machine n D :=
  let taint := m.search.procIsBlack || m.tokenIsBlack
  let m := { m with search := { m.search with procIsBlack := false }, tokenIsBlack := false }
  { clearSync (postSubquerySync me true taint m) with hasToken := false, syncStep := 0 }

/- The leader's check when the token is back. -/
def leaderToken (m : Machine n D) : Machine n D :=
  let failed := m.tokenIsBlack || m.search.procIsBlack
  let m := { m with search := { m.search with procIsBlack := false }, tokenIsBlack := false }
  if m.lastIsWhite && !failed then endQuery x cfg me { m with globalTerm := true }
  else pauseQuery (propToken me { m with lastIsWhite := !failed })

/- Behind the inner loop. -/
def leave (m : Machine n D) : Machine n D :=
  if 1 < m.coreMachine.length then
    if m.hasToken then
      if m.leaderMachine = me then leaderToken x cfg me m else pauseQuery (propToken me m)
    else pauseQuery m
  else endQuery x cfg me { m with globalTerm := true }

def allResultRecved (q : QueryMsg n D) : Bool := q.recvCnt = q.postCnt ∧ q.nocorePost = q.nocoreRecv

def loopTop (m : Machine n D) : Machine n D :=
  let (vs,q) := popGroup m.search.lowerBound candGroupSize m.search.candidateSet
  if vs.isEmpty then
    if allResultRecved m.toQueryMsg then
      if m.state = .postStage then leave x cfg me m else { m with coro := .yielded }
    else { m with nextSubqueryQueue := m.nextSubqueryQueue + 1, coro := .yielded }
  else expandGroup x cfg me vs { m with search := { m.search with candidateSet := q } }

/- Enter the post stage: the first candidates are popped at once. -/
def enterPostStage (q : QueryMsg n D) : QueryMsg n D :=
  { q with state := .postStage, postCnt := 0, recvCnt := 0, nocorePost := 0, nocoreRecv := 0, coro := .top }

def forkQuery (m : Machine n D) (p : Fin n) : Machine n D :=
  let q : QueryFork n D := ⟨m.state,m.search.lowerBound,m.leaderMachine,m.coreMachine,m.search.topCandidates.elems,
    filterred x cfg p,m.result⟩
  { m with wire := Function.update m.wire p (m.wire p ++ [.query q]), result := [] }

def coreFlags (core : List (Fin n)) : Fin n → Bool := fun p => p ∈ core

/- The first run of the coroutine on the origin machine: pre-stage and dispatch. -/
def searchSub (m : Machine n D) : Option (Machine n D) :=
  if me = cfg.originMachine ∧ m.isNew ∧ m.coro = .none then
    let pre := preStage cfg
    let m := { m with
      state := .preStage
      isNew := false
      search := { m.search with lowerBound := pre.lowerBound, topCandidates := pre.preTopCand }
      visitHash := []
      curQueryNum := m.curQueryNum + 1
      resumed := false
      leaderMachine := cfg.leaderMachine
      coreMachine := cfg.coreMachine
      isCoreMachine := coreFlags cfg.coreMachine }
    let m := (cfg.coreMachine.filter (· ≠ me)).foldl (forkQuery x cfg) m
    if me ∈ cfg.coreMachine then
      let candidates := pushAll m.search.candidateSet ((filterred x cfg me).map (fun c => (OrderDual.toDual c.1,c.2)))
      let query := { m.toQueryMsg with
        search := { m.search with candidateSet := candidates }
        hasToken := m.hasToken || decide (cfg.leaderMachine = me) }
      some { m with toQueryMsg := enterPostStage query }
    else some { m with coro := .waiting }
  else none

-- A paused coroutine is queued when something for it arrives.
def wake (m : Machine n D) : Machine n D :=
  if m.state = .pause then { m with state := .postStage, subqueryQueue := m.subqueryQueue + 1 } else m

def addCand (cand : D × Nat) (lowerBound : D) (q : PQueue D Nat) : PQueue D Nat :=
  if size q < cfg.ef ∨ cand.1 < lowerBound then push q cand else q

def updateSubQuery (msg : SyncMsg n D) (q : QueryMsg n D) : QueryMsg n D :=
  let topCandidates := popTo cfg.ef (msg.localAddCand.foldl (fun top c => addCand cfg c q.search.lowerBound top)
    q.search.topCandidates)
  { q with
    hasToken := if msg.updateTerm then msg.hasToken else q.hasToken
    tokenIsBlack := if msg.updateTerm then msg.tokenIsBlack else q.tokenIsBlack
    search := { q.search with
      topCandidates := topCandidates
      lowerBound := topBound topCandidates q.search.lowerBound }
    localMicroTask := q.localMicroTask ++ msg.coreMicroNgh me
    localTask := q.localTask ++ (msg.coreLargeNgh me).map (fun e => ⟨e.2,e.1,true⟩) }

def updateSubQueryFromNoncore (q : QueryMsg n D) (msg : NonCoreSyncMsg n) : QueryMsg n D :=
  { q with
    localMicroTask := q.localMicroTask ++ msg.coreMicroNgh
    localTask := q.localTask ++ msg.coreLargeNgh.map (fun e => ⟨e.2,e.1,true⟩) }

def deserializeAndMerge (q : QueryFork n D) (m : Machine n D) : Machine n D :=
  { m with
    state := q.state
    search := { m.search with
      lowerBound := q.lowerBound
      topCandidates := pushAll empty q.topCandidates
      candidateSet := pushAll empty (q.candidateSet.map (fun c => (OrderDual.toDual c.1,c.2))) }
    visitHash := q.candidateSet.map Prod.snd ++ m.visitHash
    result := q.result
    leaderMachine := q.leaderMachine
    coreMachine := m.coreMachine ++ q.coreMachine
    isCoreMachine := fun p => m.isCoreMachine p || coreFlags q.coreMachine p
    queryQueue := m.queryQueue + 1 }

/- The deserialize functions of the task manager, one received message. -/
def deserialize (m : Machine n D) : Message n D → Machine n D
  | .query q => deserializeAndMerge q m
  | .sync msg => wake { m with toQueryMsg := updateSubQuery cfg me msg m.toQueryMsg }
  | .nodeSync ms => ms.foldl (fun m msg => wake { m with
      toQueryMsg := updateSubQueryFromNoncore m.toQueryMsg msg }) m
  | .task ts ns => { m with curTaskQueue := m.curTaskQueue ++ ts, curNodeQueue := m.curNodeQueue ++ ns }
  | .result rs => { m with resultQueue := Function.update m.resultQueue me (m.resultQueue me ++ rs) }
  | .nodeResult rs => { m with nodeResultQueue := Function.update m.nodeResultQueue me (m.nodeResultQueue me ++ rs) }

def poll (k : Control) (m : Machine n D) : Option (Machine n D) :=
  match m.rbuf k with
  | msg :: rest => some (deserialize cfg me { m with rbuf := Function.update m.rbuf k rest } msg)
  | [] => none

def pollRead (m : Machine n D) : Option (Machine n D) :=
  match m.recvList with
  | r :: rest => some (wake { m with recvList := rest, recvAsyncReadQueue := m.recvAsyncReadQueue ++ [r] })
  | [] => none

/- A new query starts its coroutine, an old one is at its end. -/
def procQuery (m : Machine n D) : Option (Machine n D) :=
  match m.queryQueue with
  | k+1 =>
    if m.isNew then
      let query := { m.toQueryMsg with
        queryQueue := k
        isNew := false
        hasToken := m.hasToken || decide (m.leaderMachine = me) }
      some { m with toQueryMsg := enterPostStage query, resumed := false }
    else some (pushRet { m with queryQueue := k })
  | 0 => none

-- What scala_graph_v3_get_nodetask_msg leaves: post_cnt, and the local slice.
structure NodeExpansion (n : Nat) (D : Type) [Distance D] where
  machine : Machine n D
  postCnt : Nat
  slice : Option (Nat × Nat)

def addNodeSync (t : NodeTask n) (pid : Fin n) (micro : List Nat) (large : List (Nat × Nat)) (m : Machine n D) :
    Machine n D :=
  let msg : NonCoreSyncMsg n := ⟨micro,large,t.machineId,t.nodeId⟩
  { m with noncoreSyncMsg := Function.update m.noncoreSyncMsg pid (m.noncoreSyncMsg pid ++ [msg]) }

def addNodeRemote [Zero D] (t : NodeTask n) (pid : Fin n) (ngh : Ngh) (m : Machine n D) : Machine n D :=
  { m with taskQueue := Function.update m.taskQueue pid (m.taskQueue pid ++ [⟨t.machineId,ngh,0,false,0,1,countedNocore⟩]) }

def getNodetaskMsg [Zero D] (t : NodeTask n) : List (Record n) → NodeExpansion n D → NodeExpansion n D
  | [], e => e
  | .localNgh deg ofs :: _, e => { e with slice := some (ofs,deg) }
  | .micro pid ids :: rest, e =>
    if t.isCoreMachine pid then getNodetaskMsg t rest { e with machine := addNodeSync t pid ids [] e.machine }
    else getNodetaskMsg t rest
      { e with machine := addNodeRemote t pid (.packed ids) e.machine, postCnt := e.postCnt + 1 }
  | .large pid ofs deg :: rest, e =>
    if t.isCoreMachine pid then getNodetaskMsg t rest { e with machine := addNodeSync t pid [] [(ofs,deg)] e.machine }
    else getNodetaskMsg t rest
      { e with machine := addNodeRemote t pid (.stored ofs deg) e.machine, postCnt := e.postCnt + 1 }

def postNodeResult (p : Fin n) (m : Machine n D) : Machine n D :=
  if (m.nodeResultQueue p).isEmpty then m
  else { m with
    wire := Function.update m.wire p (m.wire p ++ [.nodeResult (m.nodeResultQueue p)])
    nodeResultQueue := Function.update m.nodeResultQueue p [] }

def postNodeSync (p : Fin n) (m : Machine n D) : Machine n D :=
  if (m.noncoreSyncMsg p).isEmpty then m
  else { m with
    wire := Function.update m.wire p (m.wire p ++ [.nodeSync (m.noncoreSyncMsg p)])
    noncoreSyncMsg := Function.update m.noncoreSyncMsg p [] }

def postRemoteResult (p : Fin n) (m : Machine n D) : Machine n D :=
  if (m.resultQueue p).isEmpty then m
  else { m with
    wire := Function.update m.wire p (m.wire p ++ [.result (m.resultQueue p)])
    resultQueue := Function.update m.resultQueue p [] }

def others : List (Fin n) := (List.finRange n).filter (· ≠ me)

/- Results first, then the syncs, then the tasks. -/
def postRemoteResTaskSync (m : Machine n D) : Machine n D :=
  let m := (others me).foldl (fun m p => postNodeResult p m) m
  let m := (others me).foldl (fun m p => postNodeSync p m) m
  postNodeRemoteTask me m

-- The local slice of the vertex, if it has one.
def sliceFound (e : NodeExpansion n D) : List (D × Nat) × List Nat :=
  let ids := match e.slice with
    | some (ofs,deg) => x.nghPtr me ofs deg
    | none => []
  visit x ids e.machine.visitHash

def expandNodeTask [Zero D] (t : NodeTask n) (m : Machine n D) : Machine n D :=
  let e := getNodetaskMsg t (x.block t.nodeId) ⟨m,0,none⟩
  let (found,hash) := sliceFound x me e
  let m := e.machine
  { m with
    visitHash := hash
    nodeResultQueue := Function.update m.nodeResultQueue t.machineId
      (m.nodeResultQueue t.machineId ++ [⟨e.postCnt,found,t.nodeId⟩]) }

def procNodeTask [Zero D] (m : Machine n D) : Option (Machine n D) :=
  match m.curNodeQueue with
  | t :: rest =>
    if t.machineId = me then none
    else
      let m := expandNodeTask x me t { m with curNodeQueue := rest }
      let m := if postResMerge ≤ (m.nodeResultQueue t.machineId).length then postNodeResult t.machineId m else m
      some (if postNodesyncMerge ≤ (m.noncoreSyncMsg t.machineId).length then postNodeSync t.machineId m else m)
  | [] => none

def procNodeRes (m : Machine n D) : Option (Machine n D) :=
  match m.nodeResultQueue me with
  | r :: rest =>
    if m.state = .ended then none
    else some (wake { m with
      nodeResultQueue := Function.update m.nodeResultQueue me rest
      nocorePost := m.nocorePost + r.postCnt
      localRes := m.localRes ++ [⟨1,0,rfl,r.res,some r.node⟩] })
  | [] => none

def resumeCoro (m : Machine n D) : Option (Machine n D) :=
  match m.coro with
  | .yielded => some { drain x cfg me m with coro := .top, resumed := true }
  | .finished => some (pushRet m)
  | _ => none

def taskResult (t : ComputeTask n D) (found : List (D × Nat)) : ResultMsg D :=
  ⟨t.coreCnt,t.nocoreCnt,t.once,found.filter (fun e => !t.efFill || decide (e.1 < t.lowerBound)),none⟩

def nghIds (ngh : Ngh) : List Nat :=
  match ngh with
  | .packed ids => ids
  | .stored ofs deg => x.nghPtr me ofs deg

def computeTask (t : ComputeTask n D) (m : Machine n D) : Machine n D :=
  let (found,hash) := visit x (nghIds x me t.ngh) m.visitHash
  { m with
    visitHash := hash
    resultQueue := Function.update m.resultQueue t.machineId
      (m.resultQueue t.machineId ++ [taskResult t found]) }

def procTask (m : Machine n D) : Option (Machine n D) :=
  match m.curTaskQueue with
  | t :: rest =>
    if t.machineId = me then resumeCoro x cfg me { m with curTaskQueue := rest }
    else
      let m := computeTask x me t { m with curTaskQueue := rest }
      some (if postResMerge ≤ (m.resultQueue t.machineId).length then postRemoteResult t.machineId m else m)
  | [] => none

def procResult (m : Machine n D) : Option (Machine n D) :=
  match m.resultQueue me with
  | r :: rest =>
    if m.state = .ended ∨ m.state = .preStage then none
    else some (wake { m with
      resultQueue := Function.update m.resultQueue me rest
      localRes := m.localRes ++ [r] })
  | [] => none

def procSubquery (m : Machine n D) : Option (Machine n D) :=
  match m.subqueryQueue with
  | k+1 => resumeCoro x cfg me { m with subqueryQueue := k }
  | 0 => none

def swapTaskQueue (m : Machine n D) : Option (Machine n D) :=
  if m.subqueryQueue = 0 ∧ m.curTaskQueue.isEmpty then
    some { m with subqueryQueue := m.nextSubqueryQueue, nextSubqueryQueue := 0 }
  else none

/- Another thread takes a task and pushes its chunk later. -/
def stealTask (m : Machine n D) : Option (Machine n D) :=
  match m.baTaskQueue with
  | t :: rest => some { m with baTaskQueue := rest, stolen := m.stolen ++ [t] }
  | [] => none

def pushChunk (m : Machine n D) : Option (Machine n D) :=
  match m.stolen with
  | t :: rest =>
    let (chunk,hash) := doTask x me t m.visitHash
    some { m with stolen := rest, visitHash := hash, conTaskQueue := m.conTaskQueue ++ [chunk] }
  | [] => none

def completeRead (i : Nat) (m : Machine n D) : Option (Machine n D) :=
  match m.posted[i]? with
  | some r => some { m with posted := m.posted.eraseIdx i, recvList := m.recvList ++ [r] }
  | none => none

inductive Op where
  | searchSub
  | poll (k : Control)
  | pollRead
  | procQuery
  | procNodeTask
  | postRemoteResTaskSync
  | procNodeRes
  | procTask
  | postRemoteResult (p : Nat)
  | procResult
  | procSubquery
  | swapTaskQueue
  | loopTop
  | stealTask
  | pushChunk
  | completeRead (i : Nat)
  deriving DecidableEq, Repr

/- One thread per machine: nothing else of it runs while the coroutine does. -/
def perform [Zero D] (m : Machine n D) (op : Op) : Option (Machine n D) :=
  match op with
  | .stealTask => stealTask m
  | .pushChunk => pushChunk x me m
  | .completeRead i => completeRead i m
  | .loopTop => if m.coro = .top then some (loopTop x cfg me m) else none
  | op =>
    if m.coro = .top then none
    else
      match op with
      | .searchSub => searchSub x cfg me m
      | .poll k => poll cfg me k m
      | .pollRead => pollRead m
      | .procQuery => procQuery me m
      | .procNodeTask => procNodeTask x me m
      | .postRemoteResTaskSync => some (postRemoteResTaskSync me m)
      | .procNodeRes => procNodeRes me m
      | .procTask => procTask x cfg me m
      | .postRemoteResult p => if h : p < n then (if ⟨p,h⟩ = me then none else some (postRemoteResult ⟨p,h⟩ m)) else none
      | .procResult => procResult me m
      | .procSubquery => procSubquery x cfg me m
      | .swapTaskQueue => swapTaskQueue m
      | _ => none

/- What an operation was that did not fail. -/
inductive Performed [Zero D] (m : Machine n D) : Op → Machine n D → Prop where
  | searchSub {m'} (rests : m.coro ≠ .top) (ok : searchSub x cfg me m = some m') : Performed m .searchSub m'
  | poll {k msg rest} (rests : m.coro ≠ .top) (queue : m.rbuf k = msg :: rest) :
      Performed m (.poll k) (deserialize cfg me { m with rbuf := Function.update m.rbuf k rest } msg)
  | pollRead {r rest} (rests : m.coro ≠ .top) (queue : m.recvList = r :: rest) :
      Performed m .pollRead (wake { m with recvList := rest, recvAsyncReadQueue := m.recvAsyncReadQueue ++ [r] })
  | procQuery {m'} (rests : m.coro ≠ .top) (ok : procQuery me m = some m') : Performed m .procQuery m'
  | procNodeTask {t rest m'} (rests : m.coro ≠ .top) (queue : m.curNodeQueue = t :: rest)
      (ok : procNodeTask x me m = some m') : Performed m .procNodeTask m'
  | postRemoteResTaskSync (rests : m.coro ≠ .top) :
      Performed m .postRemoteResTaskSync (postRemoteResTaskSync me m)
  | procNodeRes {r rest} (rests : m.coro ≠ .top) (queue : m.nodeResultQueue me = r :: rest) (going : m.state ≠ .ended) :
      Performed m .procNodeRes (wake { m with
        nodeResultQueue := Function.update m.nodeResultQueue me rest
        nocorePost := m.nocorePost + r.postCnt
        localRes := m.localRes ++ [⟨1,0,rfl,r.res,some r.node⟩] })
  | procTask {t rest m'} (rests : m.coro ≠ .top) (queue : m.curTaskQueue = t :: rest)
      (ok : procTask x cfg me m = some m') : Performed m .procTask m'
  | postRemoteResult {p : Fin n} (rests : m.coro ≠ .top) (other : p ≠ me) :
      Performed m (.postRemoteResult p) (postRemoteResult p m)
  | procResult {r rest} (rests : m.coro ≠ .top) (queue : m.resultQueue me = r :: rest)
      (going : ¬(m.state = .ended ∨ m.state = .preStage)) :
      Performed m .procResult (wake { m with
        resultQueue := Function.update m.resultQueue me rest
        localRes := m.localRes ++ [r] })
  | procSubquery {k m'} (rests : m.coro ≠ .top) (queue : m.subqueryQueue = k+1)
      (ok : resumeCoro x cfg me { m with subqueryQueue := k } = some m') : Performed m .procSubquery m'
  | swapTaskQueue (rests : m.coro ≠ .top) (empty : m.subqueryQueue = 0 ∧ m.curTaskQueue.isEmpty) :
      Performed m .swapTaskQueue { m with subqueryQueue := m.nextSubqueryQueue, nextSubqueryQueue := 0 }
  | loopTop (top : m.coro = .top) : Performed m .loopTop (loopTop x cfg me m)
  | stealTask {t rest} (queue : m.baTaskQueue = t :: rest) :
      Performed m .stealTask { m with baTaskQueue := rest, stolen := m.stolen ++ [t] }
  | pushChunk {t rest} (queue : m.stolen = t :: rest) :
      Performed m .pushChunk { m with
        stolen := rest
        visitHash := (doTask x me t m.visitHash).2
        conTaskQueue := m.conTaskQueue ++ [(doTask x me t m.visitHash).1] }
  | completeRead {i r} (found : m.posted[i]? = some r) :
      Performed m (.completeRead i) { m with posted := m.posted.eraseIdx i, recvList := m.recvList ++ [r] }

variable {x cfg me} in
theorem performed [Zero D] {m m' : Machine n D} {op : Op} (ok : perform x cfg me m op = some m') :
    Performed x cfg me m op m' := by
  unfold perform at ok
  split at ok
  · simp only [stealTask] at ok
    split at ok <;> cases ok
    exact .stealTask ‹_›
  · simp only [pushChunk] at ok
    split at ok <;> cases ok
    exact .pushChunk ‹_›
  · simp only [completeRead] at ok
    split at ok <;> cases ok
    exact .completeRead ‹_›
  · split at ok <;> cases ok
    exact .loopTop ‹_›
  · split at ok
    · cases ok
    rename_i rests
    split at ok
    · exact .searchSub rests ok
    · simp only [poll] at ok
      split at ok <;> cases ok
      exact .poll rests ‹_›
    · simp only [pollRead] at ok
      split at ok <;> cases ok
      exact .pollRead rests ‹_›
    · exact .procQuery rests ok
    · cases queue : m.curNodeQueue with
      | nil => simp [procNodeTask,queue] at ok
      | cons t rest => exact .procNodeTask rests queue ok
    · cases ok
      exact .postRemoteResTaskSync rests
    · simp only [procNodeRes] at ok
      split at ok
      · split at ok <;> cases ok
        exact .procNodeRes rests ‹_› ‹_›
      · cases ok
    · cases queue : m.curTaskQueue with
      | nil => simp [procTask,queue] at ok
      | cons t rest => exact .procTask rests queue ok
    · split at ok
      · split at ok <;> cases ok
        exact .postRemoteResult rests ‹_›
      · cases ok
    · simp only [procResult] at ok
      split at ok
      · split at ok <;> cases ok
        exact .procResult rests ‹_› ‹_›
      · cases ok
    · simp only [procSubquery] at ok
      split at ok
      · exact .procSubquery rests ‹_› ok
      · cases ok
    · simp only [swapTaskQueue] at ok
      split at ok <;> cases ok
      exact .swapTaskQueue rests ‹_›
    · cases ok

abbrev Net (n : Nat) (D : Type) [Distance D] := Fin n → Machine n D

inductive Act (n : Nat) where
  | host (a : Fin n) (op : Op)
  | deliver (a p : Fin n)
  deriving DecidableEq, Repr

/- The head of the channel from a to p arrives. -/
def deliver (s : Net n D) (a p : Fin n) : Option (Net n D) :=
  match (s a).wire p with
  | msg :: rest =>
    if a = p then none
    else
      let s := Function.update s a { s a with wire := Function.update (s a).wire p rest }
      let rbuf := Function.update (s p).rbuf msg.control ((s p).rbuf msg.control ++ [msg])
      some (Function.update s p { s p with rbuf := rbuf })
  | [] => none

def step [Zero D] (s : Net n D) : Act n → Option (Net n D)
  | .host a op => (perform x cfg a (s a) op).map (Function.update s a)
  | .deliver a p => deliver s a p

def fresh : Machine n D where
  state := .start
  isNew := true
  coro := .none
  search := ⟨cfg.unset,empty,empty,[],true⟩
  leaderMachine := cfg.originMachine
  coreMachine := []
  isCoreMachine := fun _ => false
  hasToken := false
  tokenIsBlack := false
  lastIsWhite := true
  globalTerm := false
  postCnt := 0
  recvCnt := 0
  nocorePost := 0
  nocoreRecv := 0
  syncStep := 0
  syncLowerBound := cfg.unset
  coreMicroNgh := fun _ => []
  coreLargeNgh := fun _ => []
  localTask := []
  localMicroTask := []
  queryQueue := 0
  subqueryQueue := 0
  nextSubqueryQueue := 0
  ret := 0
  curQueryNum := 0
  resumed := false
  visitHash := []
  result := []
  localRes := []
  asyncReadQueue := []
  recvAsyncReadQueue := []
  conTaskQueue := []
  taskQueue := fun _ => []
  nodeTaskQueue := fun _ => []
  nodeResultQueue := fun _ => []
  noncoreSyncMsg := fun _ => []
  resultQueue := fun _ => []
  curTaskQueue := []
  curNodeQueue := []
  baTaskQueue := []
  stolen := []
  rbuf := fun _ => []
  wire := fun _ => []
  posted := []
  recvList := []

def start : Net n D := fun _ => fresh cfg

end CoTra.SubQuery
