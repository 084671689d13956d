import CoTra.TaskCodec
import CoTra.Runs

/-! The messages that one call of scala_sub_proc_v5 posts for the tasks it found: results
and neighbours of NodeTasks, tasks for other machines, results of ComputeTasks. The queues
are filled by destination; during the loops only those of a task's origin are looked at.
A post is fine when the message does not reach the size of the buffer. -/
namespace CoTra.BatchPosts
open Codec TaskCodec Runs
open QueryWire (machineNum maxQuerybufferSize machineWord)
open SubQuery (postResMerge postNodesyncMerge)

def inlineDegBar : Nat := 2
def maxGraphDeg : Nat := 96

/- The part of a block that is not local. -/
inductive Record where
  | micro (pid : Fin machineNum) (ids : List UInt32)
  | large (pid : Fin machineNum) (ofs : UInt64) (deg : UInt32)

def Record.pid : Record → Fin machineNum
  | .micro pid _ => pid
  | .large pid _ _ => pid

def Record.deg : Record → Nat
  | .micro _ ids => ids.length
  | .large _ _ deg => deg.toNat

def Record.WellFormed : Record → Prop
  | .micro _ ids => ids.length ≤ inlineDegBar
  | .large _ _ deg => inlineDegBar < deg.toNat

/- A vertex of machine own: its neighbours by machine, the local ones last. -/
structure Block (own : Fin machineNum) where
  records : List Record
  ngh : List UInt32
  wellFormed : ∀ r ∈ records, r.WellFormed
  foreign : ∀ r ∈ records, r.pid ≠ own
  once : (records.map Record.pid).Nodup
  degree : (records.map Record.deg).sum + ngh.length ≤ maxGraphDeg

structure Index (own : Fin machineNum) (D : Type) where
  block : UInt32 → Block own
  nghPtr : UInt64 → UInt32 → List UInt32
  nghLength : ∀ ofs deg, (nghPtr ofs deg).length = deg.toNat
  dist : UInt32 → UInt32 → D

/- Tasks as other machines send them. -/
structure RemoteNodeTask (own : Fin machineNum) extends NodeTask where
  origin : Fin machineNum
  sender : machineId = machineWord origin
  remote : origin ≠ own

structure RemoteTask (own : Fin machineNum) (D : Type) extends ComputeTask D where
  origin : Fin machineNum
  sender : machineId = machineWord origin
  remote : origin ≠ own
  degree : deg.toNat ≤ maxGraphDeg

structure Sending (D : Type) where
  tman : TaskManager D
  visitHash : UInt32 → List UInt32
  posted : List (Fin machineNum × Bytes)

section Program

variable {own : Fin machineNum} {D : Type}

-- Distances of the vertices that were not visited.
def visit (dist : UInt32 → D) : List UInt32 → List UInt32 → List (D × UInt32) × List UInt32
  | [], hash => ([],hash)
  | v :: rest, hash =>
    if v ∈ hash then visit dist rest hash
    else
      let (found,hash') := visit dist rest (v :: hash)
      ((dist v,v) :: found,hash')

def syncOf (t : NodeTask) : Record → NonCoreSyncMsg
  | .micro _ ids => ⟨t.qid,ids,[]⟩
  | .large _ ofs deg => ⟨t.qid,[],[(ofs,deg)]⟩

def microCombine (ids : List UInt32) : UInt64 :=
  ids.zipIdx.foldl (fun acc e => acc ||| (e.1.toUInt64 <<< UInt64.ofNat (e.2 * 32))) 0

def remoteOf [Zero D] (t : NodeTask) : Record → ComputeTask D
  | .micro _ ids => ⟨t.machineId,t.qid,UInt32.ofNat ids.length,microCombine ids,0,0,0,1⟩
  | .large _ ofs deg => ⟨t.machineId,t.qid,deg,ofs,0,0,0,1⟩

def toCore (t : NodeTask) (r : Record) : Bool := t.isCoreMachine r.pid ≠ 0

/- scala_graph_v3_get_nodetask_msg, one record; post_cnt is the number of tasks. -/
def getNodetaskMsg [Zero D] (t : NodeTask) (tman : TaskManager D) (r : Record) : TaskManager D :=
  if toCore t r then
    { tman with
      noncoreSyncMsg := Function.update tman.noncoreSyncMsg r.pid (tman.noncoreSyncMsg r.pid ++ [syncOf t r]) }
  else
    { tman with taskQueue := Function.update tman.taskQueue r.pid (tman.taskQueue r.pid ++ [remoteOf t r]) }

def postCnt (t : NodeTask) (records : List Record) : UInt32 :=
  UInt32.ofNat (records.filter (fun r => !toCore t r)).length

/- The post functions: a message to machine m, unless nothing waits for it. -/
def postTo (idle : TaskManager D → Fin machineNum → Bool) (serialize : TaskManager D → Fin machineNum → Option Bytes)
    (clear : Fin machineNum → TaskManager D → TaskManager D) (s : Sending D) (m : Fin machineNum) :
    Option (Sending D) :=
  if idle s.tman m then some s
  else do
    let msg ← serialize s.tman m
    some { s with tman := clear m s.tman, posted := s.posted ++ [(m,msg)] }

variable [Pod D] [Pod (D × UInt32)]

def clearNodeResult (m : Fin machineNum) (t : TaskManager D) : TaskManager D :=
  { t with nodeResultQueue := Function.update t.nodeResultQueue m [] }

def postNodeResult : Sending D → Fin machineNum → Option (Sending D) :=
  postTo (fun t m => (t.nodeResultQueue m).isEmpty) serializeNodeResult clearNodeResult

def clearNodeSync (m : Fin machineNum) (t : TaskManager D) : TaskManager D :=
  { t with noncoreSyncMsg := Function.update t.noncoreSyncMsg m [] }

def postNodeSync : Sending D → Fin machineNum → Option (Sending D) :=
  postTo (fun t m => (t.noncoreSyncMsg m).isEmpty) serializeNodeSync clearNodeSync

def clearTask (m : Fin machineNum) (t : TaskManager D) : TaskManager D :=
  { t with
    taskQueue := Function.update t.taskQueue m []
    nodeTaskQueue := Function.update t.nodeTaskQueue m [] }

def postNodeRemoteTask : Sending D → Fin machineNum → Option (Sending D) :=
  postTo (fun t m => (t.taskQueue m).isEmpty && (t.nodeTaskQueue m).isEmpty) serializeTask clearTask

def clearResult (m : Fin machineNum) (t : TaskManager D) : TaskManager D :=
  { t with resultQueue := Function.update t.resultQueue m [] }

def postRemoteResult : Sending D → Fin machineNum → Option (Sending D) :=
  postTo (fun t m => (t.resultQueue m).isEmpty) serializeResult clearResult

def others (own : Fin machineNum) : List (Fin machineNum) := (List.finRange machineNum).filter (· ≠ own)

def postRemoteResTaskSync (s : Sending D) : Option (Sending D) := do
  let machines := others s.tman.localId
  let s ← machines.foldlM postNodeResult s
  let s ← machines.foldlM postNodeSync s
  machines.foldlM postNodeRemoteTask s

/- A NodeTask, up to the two tests behind it. -/
def expandNodeTask [Zero D] (x : Index own D) (s : Sending D) (t : RemoteNodeTask own) : Sending D :=
  let block := x.block t.nodeId
  let tman := block.records.foldl (getNodetaskMsg t.toNodeTask) s.tman
  let (found,hash) := visit (x.dist t.qid) block.ngh (s.visitHash t.qid)
  let res : NodeResult D := ⟨t.qid,postCnt t.toNodeTask block.records,found⟩
  { s with
    tman := { tman with
      nodeResultQueue := Function.update tman.nodeResultQueue t.origin (tman.nodeResultQueue t.origin ++ [res]) }
    visitHash := Function.update s.visitHash t.qid hash }

def procNodeTask [Zero D] (x : Index own D) (s : Sending D) (t : RemoteNodeTask own) : Option (Sending D) := do
  let s := expandNodeTask x s t
  let s ← if postResMerge ≤ (s.tman.nodeResultQueue t.origin).length then postNodeResult s t.origin else some s
  if postNodesyncMerge ≤ (s.tman.noncoreSyncMsg t.origin).length then postNodeSync s t.origin else some s

def procNodeQueue [Zero D] (x : Index own D) (nodes : List (RemoteNodeTask own)) (s : Sending D) :
    Option (Sending D) :=
  if nodes.isEmpty then some s
  else do
    let s ← nodes.foldlM (procNodeTask x) s
    postRemoteResTaskSync s

def packedIds (deg : UInt32) (offset : UInt64) : List UInt32 :=
  (List.range deg.toNat).map (fun d => (offset >>> UInt64.ofNat (d * 32)).toUInt32)

def taskNgh (x : Index own D) (t : ComputeTask D) : List UInt32 :=
  if t.deg.toNat ≤ inlineDegBar then packedIds t.deg t.offset else x.nghPtr t.offset t.deg

variable [LT D] [DecidableLT D]

def computeTask (x : Index own D) (s : Sending D) (t : RemoteTask own D) : Sending D :=
  let (found,hash) := visit (x.dist t.qid) (taskNgh x t.toComputeTask) (s.visitHash t.qid)
  let res : ResultMsg D := ⟨t.qid,t.coreCnt,t.nocoreCnt,found.filter (fun e => t.efFill = 0 ∨ e.1 < t.lowerBound)⟩
  { s with
    tman := { s.tman with
      resultQueue := Function.update s.tman.resultQueue t.origin (s.tman.resultQueue t.origin ++ [res]) }
    visitHash := Function.update s.visitHash t.qid hash }

def procTask (x : Index own D) (s : Sending D) (t : RemoteTask own D) : Option (Sending D) :=
  let s := computeTask x s t
  if postResMerge ≤ (s.tman.resultQueue t.origin).length then postRemoteResult s t.origin else some s

def procTaskQueue (x : Index own D) (tasks : List (RemoteTask own D)) (s : Sending D) : Option (Sending D) :=
  if tasks.isEmpty then some s
  else do
    let s ← tasks.foldlM (procTask x) s
    (others s.tman.localId).foldlM postRemoteResult s

def scalaSubProcV5 [Zero D] (x : Index own D) (nodes : List (RemoteNodeTask own)) (tasks : List (RemoteTask own D))
    (s : Sending D) : Option (Sending D) := do
  let s ← procNodeQueue x nodes s
  procTaskQueue x tasks s

end Program

section Posts

variable {D : Type}
variable {idle : TaskManager D → Fin machineNum → Bool} {serialize : TaskManager D → Fin machineNum → Option Bytes}
variable {clear : Fin machineNum → TaskManager D → TaskManager D}

def Good (s : Sending D) : Prop := ∀ msg ∈ s.posted, msg.2.length < maxQuerybufferSize

/- What waits for m can be posted. -/
def Fine (idle : TaskManager D → Fin machineNum → Bool) (serialize : TaskManager D → Fin machineNum → Option Bytes)
    (t : TaskManager D) (m : Fin machineNum) : Prop :=
  idle t m ∨ ∃ msg, serialize t m = some msg ∧ msg.length < maxQuerybufferSize

theorem goodPost {s : Sending D} {t : TaskManager D} {m : Fin machineNum} {msg : Bytes} :
    Good { s with tman := t, posted := s.posted ++ [(m,msg)] } ↔ Good s ∧ msg.length < maxQuerybufferSize := by
  simp only [Good,List.forall_mem_append,List.forall_mem_singleton]

theorem postIff (same : ∀ t m, idle t m → clear m t = t) (q : TaskManager D → Prop) (s : Sending D)
    (m : Fin machineNum) : (∃ s', postTo idle serialize clear s m = some s' ∧ Good s' ∧ q s'.tman) ↔
      Good s ∧ Fine idle serialize s.tman m ∧ q (clear m s.tman) := by
  unfold postTo Fine
  split
  case isTrue nothing =>
    simp only [Option.some.injEq,nothing,true_or,true_and,same s.tman m nothing]
    exact ⟨fun ⟨_,rfl,good,h⟩ => ⟨good,h⟩,fun ⟨good,h⟩ => ⟨s,rfl,good,h⟩⟩
  case isFalse waiting =>
    cases sent : serialize s.tman m with
    | none => simp [waiting]
    | some msg =>
      simp only [Option.bind_eq_bind,Option.bind_some,Option.some.injEq,waiting,Bool.false_eq_true,false_or]
      constructor
      · rintro ⟨_,rfl,good,h⟩
        obtain ⟨before,small⟩ := goodPost.mp good
        exact ⟨before,⟨msg,rfl,small⟩,h⟩
      · rintro ⟨good,⟨_,rfl,small⟩,h⟩
        exact ⟨_,rfl,goodPost.mpr ⟨good,small⟩,h⟩

/- A post that is made under a condition. -/
theorem postWhenIff (same : ∀ t m, idle t m → clear m t = t) (c : Prop) [Decidable c] (q : TaskManager D → Prop)
    (s : Sending D) (m : Fin machineNum) :
    (∃ s', (if c then postTo idle serialize clear s m else some s) = some s' ∧ Good s' ∧ q s'.tman) ↔
      Good s ∧ (c → Fine idle serialize s.tman m) ∧ q (if c then clear m s.tman else s.tman) := by
  split
  case isTrue due =>
    rw [postIff same]
    exact and_congr_right (fun _ => and_congr_left (fun _ => ⟨fun fine _ => fine,fun fine => fine due⟩))
  case isFalse kept =>
    exact ⟨fun ⟨_,h,good,hq⟩ => by cases Option.some.inj h; exact ⟨good,fun due => absurd due kept,hq⟩,
      fun ⟨good,_,hq⟩ => ⟨s,rfl,good,hq⟩⟩

/- One post for every machine: what is posted to one does not change what waits for
another. -/
theorem postAllIff (same : ∀ t m, idle t m → clear m t = t)
    (apart : ∀ t m m', m' ≠ m → (Fine idle serialize (clear m t) m' ↔ Fine idle serialize t m'))
    {ms : List (Fin machineNum)} (once : ms.Nodup) (q : TaskManager D → Prop) (s : Sending D) :
    (∃ s', ms.foldlM (postTo idle serialize clear) s = some s' ∧ Good s' ∧ q s'.tman) ↔
      Good s ∧ (∀ m ∈ ms, Fine idle serialize s.tman m) ∧ q (ms.foldl (fun t m => clear m t) s.tman) := by
  induction ms generalizing s with
  | nil =>
    simp only [List.foldlM_nil,List.foldl_nil,List.not_mem_nil,false_implies,implies_true,true_and]
    constructor
    · rintro ⟨_,h,good,hq⟩
      cases Option.some.inj h
      exact ⟨good,hq⟩
    · rintro ⟨good,hq⟩
      exact ⟨s,rfl,good,hq⟩
  | cons m rest ih =>
    obtain ⟨fresh,once⟩ := List.nodup_cons.mp once
    have others : ∀ t, (∀ m' ∈ rest, Fine idle serialize (clear m t) m') ↔ ∀ m' ∈ rest, Fine idle serialize t m' := by
      intro t
      refine forall₂_congr (fun m' member => apart t m m' ?_)
      rintro rfl
      exact fresh member
    calc (∃ s', (m :: rest).foldlM (postTo idle serialize clear) s = some s' ∧ Good s' ∧ q s'.tman)
      _ ↔ ∃ s₁, postTo idle serialize clear s m = some s₁ ∧
          ∃ s', rest.foldlM (postTo idle serialize clear) s₁ = some s' ∧ Good s' ∧ q s'.tman := by
        simp only [List.foldlM_cons,Option.bind_eq_bind,Option.bind_eq_some_iff]
        constructor
        · rintro ⟨s',⟨s₁,h,hs⟩,rest⟩
          exact ⟨s₁,h,s',hs,rest⟩
        · rintro ⟨s₁,h,s',hs,rest⟩
          exact ⟨s',⟨s₁,h,hs⟩,rest⟩
      _ ↔ ∃ s₁, postTo idle serialize clear s m = some s₁ ∧ Good s₁ ∧ (∀ m' ∈ rest, Fine idle serialize s₁.tman m') ∧
          q (rest.foldl (fun t m => clear m t) s₁.tman) := by
        simp only [ih once]
      _ ↔ _ := by
        rw [postIff same (fun t => (∀ m' ∈ rest, Fine idle serialize t m') ∧ q (rest.foldl (fun t m => clear m t) t)),
          others,List.forall_mem_cons,List.foldl_cons]
        tauto

theorem postTman (same : ∀ t m, idle t m → clear m t = t) {s s' : Sending D} {m : Fin machineNum}
    (ok : postTo idle serialize clear s m = some s') : s'.tman = clear m s.tman := by
  unfold postTo at ok
  split at ok
  case isTrue nothing =>
    cases Option.some.inj ok
    exact (same s.tman m nothing).symm
  case isFalse =>
    obtain ⟨msg,_,sent⟩ := Option.bind_eq_some_iff.mp ok
    cases Option.some.inj sent
    rfl

theorem postWhenTman (same : ∀ t m, idle t m → clear m t = t) (c : Prop) [Decidable c] {s s' : Sending D}
    {m : Fin machineNum} (ok : (if c then postTo idle serialize clear s m else some s) = some s') :
    s'.tman = if c then clear m s.tman else s.tman := by
  split
  case isTrue due =>
    rw [if_pos due] at ok
    exact postTman same ok
  case isFalse kept =>
    rw [if_neg kept] at ok
    cases Option.some.inj ok
    rfl

theorem foldGood {β : Type} {body : Sending D → β → Option (Sending D)}
    (keeps : ∀ s b t, body s b = some t → Good t → Good s) {items : List β} {s t : Sending D}
    (ok : items.foldlM body s = some t) (good : Good t) : Good s := by
  induction items generalizing s with
  | nil =>
    cases Option.some.inj ok
    exact good
  | cons b rest ih =>
    rw [List.foldlM_cons] at ok
    obtain ⟨u,first,later⟩ := Option.bind_eq_some_iff.mp ok
    exact keeps s b u first (ih later)

variable (clear) in
theorem clearsKept {β : Type} (f : TaskManager D → β) (keeps : ∀ m t, f (clear m t) = f t) (ms : List (Fin machineNum))
    (t : TaskManager D) : f (ms.foldl (fun t m => clear m t) t) = f t := by
  induction ms generalizing t with
  | nil => rfl
  | cons m rest ih => rw [List.foldl_cons,ih,keeps]

end Posts

section Sizes

variable {D : Type}

def syncSize (msgs : List NonCoreSyncMsg) : Nat := 8 + (msgs.flatMap NonCoreSyncMsg.bytes).length

def taskSize (tasks : Nat) : Nat := 12 + tasks * 27

theorem headerLength (t : TaskManager D) (k : Nat) : (header t k).length = 8 := by
  rw [header,List.length_append,Pod.length,Pod.length]
  rfl

/- A batch of elements that take at most k bytes each. -/
theorem flatMapLengthLe {α : Type} {write : α → Bytes} {k : Nat} {queue : List α}
    (each : ∀ a ∈ queue, (write a).length ≤ k) : (queue.flatMap write).length ≤ queue.length * k := by
  induction queue with
  | nil => simp
  | cons a rest ih =>
    have first := each a List.mem_cons_self
    have later := ih (fun b member => each b (List.mem_cons_of_mem a member))
    rw [List.flatMap_cons,List.length_append,List.length_cons,Nat.succ_mul]
    omega

theorem batchLength {α : Type} (write : α → Bytes) (k : Nat) {queue : List α} (t : TaskManager D)
    (each : ∀ a ∈ queue, (write a).length ≤ k) : (batchBytes t write queue).length ≤ 8 + queue.length * k := by
  have inside := flatMapLengthLe each
  rw [batchBytes,List.length_append,headerLength]
  omega

theorem countedLength {α : Type} [Pod α] (xs : List α) :
    (writeCounted32 Pod.bytes xs).length = 4 + xs.length * Pod.size α := by
  rw [writeCounted32,List.length_append,Pod.length,flatMapLength]
  rfl

theorem nodeResultLength [Pod (D × UInt32)] (eight : Pod.size (D × UInt32) = 8) (r : NodeResult D) :
    r.bytes.length = 12 + r.res.length * 8 := by
  simp only [NodeResult.bytes,List.flatten_cons,List.flatten_nil,List.length_append,List.length_nil,Pod.length,countedLength,
    eight]
  simp only [Pod.size]
  omega

theorem resultLength [Pod (D × UInt32)] (eight : Pod.size (D × UInt32) = 8) (r : ResultMsg D) :
    r.bytes.length = 10 + r.res.length * 8 := by
  simp only [ResultMsg.bytes,List.flatten_cons,List.flatten_nil,List.length_append,List.length_nil,Pod.length,countedLength,
    eight]
  simp only [Pod.size]
  omega

theorem taskLength [Pod D] (four : Pod.size D = 4) (t : ComputeTask D) : t.serialize.length = 27 := by
  simp only [ComputeTask.serialize,List.flatten_cons,List.flatten_nil,List.length_append,List.length_nil,Pod.length,four]
  rfl

theorem tasksLength [Pod D] (four : Pod.size D = 4) (ts : List (ComputeTask D)) :
    (ts.flatMap ComputeTask.serialize).length = ts.length * 27 := by
  induction ts with
  | nil => rfl
  | cons t rest ih =>
    rw [List.flatMap_cons,List.length_append,taskLength four,ih,List.length_cons,Nat.succ_mul,Nat.add_comm]

theorem sameNodeResult (t : TaskManager D) (m : Fin machineNum) (idle : (t.nodeResultQueue m).isEmpty) :
    clearNodeResult m t = t := by
  rw [clearNodeResult,← List.isEmpty_iff.mp idle,Function.update_eq_self]

theorem sameNodeSync (t : TaskManager D) (m : Fin machineNum) (idle : (t.noncoreSyncMsg m).isEmpty) :
    clearNodeSync m t = t := by
  rw [clearNodeSync,← List.isEmpty_iff.mp idle,Function.update_eq_self]

theorem sameResult (t : TaskManager D) (m : Fin machineNum) (idle : (t.resultQueue m).isEmpty) : clearResult m t = t := by
  rw [clearResult,← List.isEmpty_iff.mp idle,Function.update_eq_self]

theorem sameTask (t : TaskManager D) (m : Fin machineNum)
    (idle : (t.taskQueue m).isEmpty && (t.nodeTaskQueue m).isEmpty) : clearTask m t = t := by
  obtain ⟨tasks,nodes⟩ := (Bool.and_eq_true _ _).mp idle
  have same : Function.update t.taskQueue m [] = t.taskQueue := by
    rw [← List.isEmpty_iff.mp tasks,Function.update_eq_self]
  have same' : Function.update t.nodeTaskQueue m [] = t.nodeTaskQueue := by
    rw [← List.isEmpty_iff.mp nodes,Function.update_eq_self]
  rw [clearTask,same,same']

/- The four kinds of messages. -/
abbrev NodeResultFine [Pod (D × UInt32)] (t : TaskManager D) (m : Fin machineNum) : Prop :=
  Fine (fun t m => (t.nodeResultQueue m).isEmpty) serializeNodeResult t m

abbrev NodeSyncFine (t : TaskManager D) (m : Fin machineNum) : Prop :=
  Fine (fun t m => (t.noncoreSyncMsg m).isEmpty) serializeNodeSync t m

abbrev TaskFine [Pod D] (t : TaskManager D) (m : Fin machineNum) : Prop :=
  Fine (fun t m => (t.taskQueue m).isEmpty && (t.nodeTaskQueue m).isEmpty) serializeTask t m

abbrev ResultFine [Pod (D × UInt32)] (t : TaskManager D) (m : Fin machineNum) : Prop :=
  Fine (fun t m => (t.resultQueue m).isEmpty) serializeResult t m

theorem apartNodeResult [Pod (D × UInt32)] (t : TaskManager D) (m m' : Fin machineNum) (other : m' ≠ m) :
    NodeResultFine (clearNodeResult m t) m' ↔
      NodeResultFine t m' := by
  simp only [Fine,serializeNodeResult,clearNodeResult,Function.update_of_ne other]
  rfl

theorem apartNodeSync (t : TaskManager D) (m m' : Fin machineNum) (other : m' ≠ m) :
    NodeSyncFine (clearNodeSync m t) m' ↔
      NodeSyncFine t m' := by
  simp only [Fine,serializeNodeSync,clearNodeSync,Function.update_of_ne other]
  rfl

theorem apartTask [Pod D] (t : TaskManager D) (m m' : Fin machineNum) (other : m' ≠ m) :
    TaskFine (clearTask m t) m' ↔
      TaskFine t m' := by
  simp only [Fine,serializeTask,taskBytes,clearTask,Function.update_of_ne other]
  rfl

theorem apartResult [Pod (D × UInt32)] (t : TaskManager D) (m m' : Fin machineNum) (other : m' ≠ m) :
    ResultFine (clearResult m t) m' ↔
      ResultFine t m' := by
  simp only [Fine,serializeResult,clearResult,Function.update_of_ne other]
  rfl

variable {t : TaskManager D} {m : Fin machineNum}

theorem appendAllSource {α : Type} (write : α → Bytes) {serialize : α → Bytes → Option Bytes}
    (only : ∀ a written written', serialize a written = some written' → written' = written ++ write a) {xs : List α}
    {written bs : Bytes} (ok : xs.foldlM (appendChecked serialize) written = some bs) : bs = written ++ xs.flatMap write := by
  induction xs generalizing written with
  | nil =>
    cases Option.some.inj ok
    rw [List.flatMap_nil,List.append_nil]
  | cons a rest ih =>
    rw [List.foldlM_cons] at ok
    obtain ⟨next,first,later⟩ := Option.bind_eq_some_iff.mp ok
    obtain ⟨written',sent,kept⟩ := Option.bind_eq_some_iff.mp first
    split at kept <;> try contradiction
    cases Option.some.inj kept
    rw [ih later,only a written _ sent,List.flatMap_cons,List.append_assoc]

/- Twenty results of at most 96 elements always fit. -/
theorem fineNodeResult [Pod (D × UInt32)] (eight : Pod.size (D × UInt32) = 8) (remote : m ≠ t.localId)
    (few : (t.nodeResultQueue m).length ≤ postResMerge) (each : ∀ r ∈ t.nodeResultQueue m, r.res.length ≤ maxGraphDeg) :
    NodeResultFine t m := by
  have fits : (batchBytes t NodeResult.bytes (t.nodeResultQueue m)).length < maxQuerybufferSize := by
    have length := batchLength NodeResult.bytes 780 t (fun r member => by
      have small := each r member
      rw [nodeResultLength eight]
      simp only [maxGraphDeg] at small
      omega)
    simp only [postResMerge] at few
    simp only [maxQuerybufferSize]
    omega
  exact .inr ⟨_,batchSent nodeResultAppends remote fits,fits⟩

theorem fineResult [Pod (D × UInt32)] (eight : Pod.size (D × UInt32) = 8) (remote : m ≠ t.localId)
    (few : (t.resultQueue m).length ≤ postResMerge) (each : ∀ r ∈ t.resultQueue m, r.res.length ≤ maxGraphDeg) :
    ResultFine t m := by
  have fits : (batchBytes t ResultMsg.bytes (t.resultQueue m)).length < maxQuerybufferSize := by
    have length := batchLength ResultMsg.bytes 780 t (fun r member => by
      have small := each r member
      rw [resultLength eight]
      simp only [maxGraphDeg] at small
      omega)
    simp only [postResMerge] at few
    simp only [maxQuerybufferSize]
    omega
  exact .inr ⟨_,batchSent resultAppends remote fits,fits⟩

theorem fineNodeSync (remote : m ≠ t.localId) :
    NodeSyncFine t m ↔
      syncSize (t.noncoreSyncMsg m) < maxQuerybufferSize := by
  have size : (batchBytes t NonCoreSyncMsg.bytes (t.noncoreSyncMsg m)).length = syncSize (t.noncoreSyncMsg m) := by
    rw [batchBytes,List.length_append,headerLength,syncSize]
  constructor
  · rintro (nothing | ⟨msg,sent,small⟩)
    · rw [List.isEmpty_iff.mp nothing]
      decide
    · rw [serializeNodeSync,serializeBatch,if_neg remote] at sent
      have source := appendAllSource NonCoreSyncMsg.bytes (fun a written written' h => by
        unfold NonCoreSyncMsg.serialize at h
        split at h <;> try contradiction
        exact (Option.some.inj h).symm) sent
      rw [source] at small
      exact size.symm.trans_lt small
  · intro fits
    exact .inr ⟨_,batchSent nonCoreSyncAppends remote (size.trans_lt fits),size.trans_lt fits⟩

theorem fineTask [Pod D] (four : Pod.size D = 4) (remote : m ≠ t.localId) (nodes : t.nodeTaskQueue m = []) :
    TaskFine t m ↔
      taskSize (t.taskQueue m).length < maxQuerybufferSize := by
  have size : (taskBytes t m).length = taskSize (t.taskQueue m).length := by
    simp only [taskBytes,nodes,writeCounted32,List.flatten_cons,List.flatten_nil,List.flatMap_nil,List.length_append,
      List.length_nil,Pod.length,tasksLength four,taskSize]
    simp only [Pod.size]
    omega
  constructor
  · rintro (nothing | ⟨msg,sent,small⟩)
    · simp only [nodes,List.isEmpty_nil,Bool.and_true] at nothing
      rw [List.isEmpty_iff.mp nothing,List.length_nil]
      decide
    · rw [serializeTask,if_neg remote] at sent
      split at sent <;> try contradiction
      cases Option.some.inj sent
      exact size.symm.trans_lt small
  · intro fits
    have short := size.trans_lt fits
    refine .inr ⟨taskBytes t m,?_,short⟩
    rw [serializeTask,if_neg remote,if_neg (Nat.not_lt.mpr short.le)]

end Sizes

section Merge

variable {own : Fin machineNum} {α : Type} {size : α → Nat} {queue : Fin machineNum → List α}

/- Fewer results than are merged, of at most the degree of a vertex. -/
structure Few (own : Fin machineNum) (size : α → Nat) (queue : Fin machineNum → List α) : Prop where
  short : ∀ m, m ≠ own → (queue m).length < postResMerge
  small : ∀ m, m ≠ own → ∀ r ∈ queue m, size r ≤ maxGraphDeg

def pushed (m : Fin machineNum) (a : α) (queue : Fin machineNum → List α) : Fin machineNum → List α :=
  Function.update queue m (queue m ++ [a])

def merged (m : Fin machineNum) (queue : Fin machineNum → List α) : Fin machineNum → List α :=
  if postResMerge ≤ (queue m).length then Function.update queue m [] else queue

theorem pushedSmall (few : Few own size queue) {m : Fin machineNum} {a : α} (length : size a ≤ maxGraphDeg) {p : Fin machineNum}
    (remote : p ≠ own) : ∀ r ∈ pushed m a queue p, size r ≤ maxGraphDeg := by
  intro r member
  unfold pushed at member
  rcases eq_or_ne p m with rfl | other
  · rw [Function.update_self] at member
    rcases List.mem_append.mp member with old | new
    · exact few.small p remote r old
    · rw [List.mem_singleton.mp new]
      exact length
  · rw [Function.update_of_ne other] at member
    exact few.small p remote r member

theorem pushedShort (few : Few own size queue) {m : Fin machineNum} (a : α) {p : Fin machineNum} (remote : p ≠ own) :
    (pushed m a queue p).length ≤ postResMerge := by
  have short := few.short p remote
  unfold pushed
  rcases eq_or_ne p m with rfl | other
  · rw [Function.update_self,List.length_append]
    exact short
  · rw [Function.update_of_ne other]
    exact short.le

/- Only the queue of m grew, and it was looked at. -/
theorem mergedFew (few : Few own size queue) (m : Fin machineNum) {a : α} (length : size a ≤ maxGraphDeg) :
    Few own size (merged m (pushed m a queue)) := by
  unfold merged
  split
  case isTrue full =>
    refine ⟨fun p remote => ?_,fun p remote r member => ?_⟩
    · rcases eq_or_ne p m with rfl | other
      · rw [Function.update_self,List.length_nil]
        decide
      · rw [Function.update_of_ne other,pushed,Function.update_of_ne other]
        exact few.short p remote
    · rcases eq_or_ne p m with rfl | other
      · rw [Function.update_self] at member
        cases member
      · rw [Function.update_of_ne other] at member
        exact pushedSmall few length remote r member
  case isFalse room =>
    refine ⟨fun p remote => ?_,fun p remote => pushedSmall few length remote⟩
    rcases eq_or_ne p m with rfl | other
    · exact Nat.not_le.mp room
    · rw [pushed,Function.update_of_ne other]
      exact few.short p remote

end Merge

end CoTra.BatchPosts
