import CoTra.BatchPosts

/-! Which batches of tasks a call can process. The results of a task stay few; the tasks
and neighbours for other machines are as many as the vertices of the batch have records
for them. -/
namespace CoTra.BatchSize
open Codec TaskCodec Runs BatchPosts
open QueryWire (machineNum maxQuerybufferSize machineWord)
open SubQuery (postResMerge postNodesyncMerge)

section NodeTasks

variable {own : Fin machineNum} {D : Type} [Zero D] (x : Index own D)

/- What a task brings for machine p. -/
def syncsFor (p : Fin machineNum) (t : RemoteNodeTask own) : List NonCoreSyncMsg :=
  ((x.block t.nodeId).records.filter (fun r => r.pid = p ∧ toCore t.toNodeTask r)).map (syncOf t.toNodeTask)

def tasksFor (p : Fin machineNum) (t : RemoteNodeTask own) : List (ComputeTask D) :=
  ((x.block t.nodeId).records.filter (fun r => r.pid = p ∧ !toCore t.toNodeTask r)).map (remoteOf t.toNodeTask)

/- The neighbours that wait for p behind one more task. -/
def collect (p : Fin machineNum) (waiting : List NonCoreSyncMsg) (t : RemoteNodeTask own) : List NonCoreSyncMsg :=
  let waiting := waiting ++ syncsFor x p t
  if t.origin = p ∧ postNodesyncMerge ≤ waiting.length then [] else waiting

/- The state of the queues between two tasks. -/
structure Calm (own : Fin machineNum) (t : TaskManager D) : Prop where
  here : t.localId = own
  nodes : ∀ m, m ≠ own → t.nodeTaskQueue m = []
  few : Few own (fun r => r.res.length) t.nodeResultQueue

theorem visitLength {D : Type} (dist : UInt32 → D) (ids hash : List UInt32) : (visit dist ids hash).1.length ≤ ids.length := by
  fun_induction visit dist ids hash with
  | case1 => exact le_rfl
  | case2 v rest hash seen ih => exact ih.trans (Nat.le_succ _)
  | case3 v rest hash new found hash' eq ih =>
    rw [eq] at ih
    exact Nat.succ_le_succ ih

theorem recordsQueued (t : NodeTask) (records : List Record) (tman : TaskManager D) (p : Fin machineNum) :
    (records.foldl (getNodetaskMsg t) tman).noncoreSyncMsg p =
        tman.noncoreSyncMsg p ++ (records.filter (fun r => r.pid = p ∧ toCore t r)).map (syncOf t) ∧
      (records.foldl (getNodetaskMsg t) tman).taskQueue p =
        tman.taskQueue p ++ (records.filter (fun r => r.pid = p ∧ !toCore t r)).map (remoteOf t) := by
  induction records generalizing tman with
  | nil => simp
  | cons r rest ih =>
    rw [List.foldl_cons,(ih _).1,(ih _).2,getNodetaskMsg]
    rcases eq_or_ne r.pid p with rfl | other
    · cases core : toCore t r <;> simp [core]
    · cases core : toCore t r <;> simp [core,other,Function.update_of_ne other.symm]

theorem recordsKept (t : NodeTask) (records : List Record) (tman : TaskManager D) :
    ∃ syncs tasks, records.foldl (getNodetaskMsg t) tman = { tman with noncoreSyncMsg := syncs, taskQueue := tasks } := by
  induction records generalizing tman with
  | nil => exact ⟨_,_,rfl⟩
  | cons r rest ih =>
    obtain ⟨syncs,tasks,eq⟩ := ih (getNodetaskMsg t tman r)
    refine ⟨syncs,tasks,?_⟩
    rw [List.foldl_cons,eq,getNodetaskMsg]
    split <;> rfl

/- The queues after a task and the two tests behind it. -/
def mergeResults (m : Fin machineNum) (t : TaskManager D) : TaskManager D :=
  if postResMerge ≤ (t.nodeResultQueue m).length then clearNodeResult m t else t

def mergeSyncs (m : Fin machineNum) (t : TaskManager D) : TaskManager D :=
  if postNodesyncMerge ≤ (t.noncoreSyncMsg m).length then clearNodeSync m t else t

def next (s : Sending D) (t : RemoteNodeTask own) : TaskManager D :=
  mergeSyncs t.origin (mergeResults t.origin (expandNodeTask x s t).tman)

omit [Zero D] in
theorem mergeResultsKept (m : Fin machineNum) (t : TaskManager D) :
    mergeResults m t = { t with nodeResultQueue := merged m t.nodeResultQueue } := by
  unfold mergeResults merged
  split <;> rfl

omit [Zero D] in
theorem mergeSyncsKept (m : Fin machineNum) (t : TaskManager D) :
    mergeSyncs m t = { t with noncoreSyncMsg := (mergeSyncs m t).noncoreSyncMsg } := by
  unfold mergeSyncs
  split <;> rfl

omit [Zero D] in
theorem mergeSyncsAt (m p : Fin machineNum) (t : TaskManager D) : (mergeSyncs m t).noncoreSyncMsg p =
    if m = p ∧ postNodesyncMerge ≤ (t.noncoreSyncMsg p).length then [] else t.noncoreSyncMsg p := by
  unfold mergeSyncs
  rcases eq_or_ne m p with rfl | other
  · simp only [true_and]
    split
    · exact Function.update_self _ _ _
    · rfl
  · rw [if_neg (fun h : m = p ∧ _ => other h.1)]
    split
    · exact Function.update_of_ne other.symm _ _
    · rfl

theorem expandQueued (s : Sending D) (t : RemoteNodeTask own) (p : Fin machineNum) :
    (expandNodeTask x s t).tman.noncoreSyncMsg p = s.tman.noncoreSyncMsg p ++ syncsFor x p t ∧
      (expandNodeTask x s t).tman.taskQueue p = s.tman.taskQueue p ++ tasksFor x p t :=
  recordsQueued t.toNodeTask (x.block t.nodeId).records s.tman p

theorem expandKept (s : Sending D) (t : RemoteNodeTask own) :
    ∃ syncs tasks found, found.res.length ≤ maxGraphDeg ∧ (expandNodeTask x s t).tman = { s.tman with
      noncoreSyncMsg := syncs
      taskQueue := tasks
      nodeResultQueue := pushed t.origin found s.tman.nodeResultQueue } := by
  obtain ⟨syncs,tasks,eq⟩ := recordsKept t.toNodeTask (x.block t.nodeId).records s.tman
  have length := visitLength (x.dist t.qid) (x.block t.nodeId).ngh (s.visitHash t.qid)
  have degree := (x.block t.nodeId).degree
  refine ⟨syncs,tasks,⟨t.qid,postCnt t.toNodeTask (x.block t.nodeId).records,(visit (x.dist t.qid) (x.block t.nodeId).ngh (s.visitHash t.qid)).1⟩,?_,?_⟩
  · dsimp only
    omega
  · simp only [expandNodeTask,eq]
    rfl

theorem nextQueued (s : Sending D) (t : RemoteNodeTask own) (p : Fin machineNum) :
    (next x s t).noncoreSyncMsg p = collect x p (s.tman.noncoreSyncMsg p) t ∧
      (next x s t).taskQueue p = s.tman.taskQueue p ++ tasksFor x p t := by
  obtain ⟨syncs,tasks⟩ := expandQueued x s t p
  constructor
  · rw [next,mergeSyncsAt,mergeResultsKept,syncs]
    rfl
  · rw [next,mergeSyncsKept,mergeResultsKept,tasks]

theorem nextCalm {s : Sending D} (t : RemoteNodeTask own) (calm : Calm own s.tman) : Calm own (next x s t) := by
  obtain ⟨syncs,tasks,found,length,eq⟩ := expandKept x s t
  rw [next,mergeSyncsKept,mergeResultsKept,eq]
  exact ⟨calm.here,calm.nodes,mergedFew calm.few t.origin length⟩

end NodeTasks

section Loop

variable {own : Fin machineNum} {D : Type} [Pod (D × UInt32)] (eight : Pod.size (D × UInt32) = 8)
variable [Zero D] (x : Index own D)

theorem procNodeTaskBind (s : Sending D) (t : RemoteNodeTask own) : procNodeTask x s t =
    (if postResMerge ≤ ((expandNodeTask x s t).tman.nodeResultQueue t.origin).length then
      postNodeResult (expandNodeTask x s t) t.origin else some (expandNodeTask x s t)).bind (fun s =>
    if postNodesyncMerge ≤ (s.tman.noncoreSyncMsg t.origin).length then postNodeSync s t.origin else some s) := by
  simp only [procNodeTask]
  split <;> rfl

/- One task: only neighbours that are posted with it can be too many. -/
include eight in
theorem procNodeTaskIff {s : Sending D} (t : RemoteNodeTask own) (calm : Calm own s.tman) (q : TaskManager D → Prop) :
    (∃ s', procNodeTask x s t = some s' ∧ Good s' ∧ q s'.tman) ↔ Good s ∧
      (postNodesyncMerge ≤ (s.tman.noncoreSyncMsg t.origin ++ syncsFor x t.origin t).length →
        syncSize (s.tman.noncoreSyncMsg t.origin ++ syncsFor x t.origin t) < maxQuerybufferSize) ∧ q (next x s t) := by
  obtain ⟨syncs,tasks,found,length,eq⟩ := expandKept x s t
  have queued := (expandQueued x s t t.origin).1
  have remote : t.origin ≠ (expandNodeTask x s t).tman.localId := by
    rw [eq]
    exact fun h => t.remote (h.trans calm.here)
  have results : NodeResultFine (expandNodeTask x s t).tman t.origin := by
    refine fineNodeResult eight remote ?_ ?_
    · rw [eq]
      exact pushedShort calm.few found t.remote
    · rw [eq]
      exact pushedSmall calm.few length t.remote
  have second : ∀ s₁ : Sending D, (∃ s', (if postNodesyncMerge ≤ (s₁.tman.noncoreSyncMsg t.origin).length then
      postNodeSync s₁ t.origin else some s₁) = some s' ∧ Good s' ∧ q s'.tman) ↔ Good s₁ ∧
      (postNodesyncMerge ≤ (s₁.tman.noncoreSyncMsg t.origin).length →
        NodeSyncFine s₁.tman t.origin) ∧
      q (mergeSyncs t.origin s₁.tman) := fun s₁ => postWhenIff sameNodeSync _ q s₁ t.origin
  have merged : ∀ u : TaskManager D, (mergeResults t.origin u).noncoreSyncMsg = u.noncoreSyncMsg ∧
      (mergeResults t.origin u).localId = u.localId := by
    intro u
    rw [mergeResultsKept]
    exact ⟨rfl,rfl⟩
  calc (∃ s', procNodeTask x s t = some s' ∧ Good s' ∧ q s'.tman)
    _ ↔ ∃ s₁, (if postResMerge ≤ ((expandNodeTask x s t).tman.nodeResultQueue t.origin).length then
          postNodeResult (expandNodeTask x s t) t.origin else some (expandNodeTask x s t)) = some s₁ ∧ Good s₁ ∧
        (postNodesyncMerge ≤ (s₁.tman.noncoreSyncMsg t.origin).length →
          NodeSyncFine s₁.tman t.origin) ∧
        q (mergeSyncs t.origin s₁.tman) := by
      simp only [← second,procNodeTaskBind,Option.bind_eq_some_iff]
      exact ⟨fun ⟨s',⟨s₁,h,hs⟩,rest⟩ => ⟨s₁,h,s',hs,rest⟩,fun ⟨s₁,h,s',hs,rest⟩ => ⟨s',⟨s₁,h,hs⟩,rest⟩⟩
    _ ↔ Good s ∧ (postNodesyncMerge ≤ ((mergeResults t.origin (expandNodeTask x s t).tman).noncoreSyncMsg t.origin).length →
          NodeSyncFine
            (mergeResults t.origin (expandNodeTask x s t).tman) t.origin) ∧ q (next x s t) := by
      rw [postNodeResult,postWhenIff sameNodeResult _ (fun u => (postNodesyncMerge ≤ (u.noncoreSyncMsg t.origin).length →
        NodeSyncFine u t.origin) ∧ q (mergeSyncs t.origin u))]
      exact ⟨fun ⟨good,_,rest⟩ => ⟨good,rest⟩,fun ⟨good,rest⟩ => ⟨good,fun _ => results,rest⟩⟩
    _ ↔ _ := by
      rw [fineNodeSync (by rw [(merged _).2]; exact remote),(merged _).1,queued]

theorem othersNodup (own : Fin machineNum) : (others own).Nodup := (List.nodup_finRange machineNum).filter _

theorem memOthers {own m : Fin machineNum} : m ∈ others own ↔ m ≠ own := by
  simp [others]

omit [Zero D] in
include eight in
/- The last posts, after all tasks. -/
theorem flushIff [Pod D] (four : Pod.size D = 4) {s : Sending D} (calm : Calm own s.tman) :
    (∃ s', postRemoteResTaskSync s = some s' ∧ Good s') ↔ Good s ∧ ∀ p, p ≠ own →
      syncSize (s.tman.noncoreSyncMsg p) < maxQuerybufferSize ∧
      taskSize (s.tman.taskQueue p).length < maxQuerybufferSize := by
  have tasks : ∀ s₂ : Sending D, (∃ s', (others own).foldlM postNodeRemoteTask s₂ = some s' ∧ Good s') ↔
      Good s₂ ∧ ∀ m ∈ others own, TaskFine s₂.tman m := by
    intro s₂
    have all : (∃ s', (others own).foldlM postNodeRemoteTask s₂ = some s' ∧ Good s' ∧ True) ↔
        Good s₂ ∧ (∀ m ∈ others own, TaskFine s₂.tman m) ∧ True :=
      postAllIff sameTask apartTask (othersNodup own) (fun _ => True) s₂
    simpa only [and_true] using all
  have syncs : ∀ s₁ : Sending D, (∃ s₂, (others own).foldlM postNodeSync s₁ = some s₂ ∧ Good s₂ ∧
      ∀ m ∈ others own, TaskFine s₂.tman m) ↔ Good s₁ ∧ (∀ m ∈ others own, NodeSyncFine s₁.tman m) ∧
      ∀ m ∈ others own, TaskFine s₁.tman m := by
    intro s₁
    have all := postAllIff sameNodeSync apartNodeSync (othersNodup own) (fun t => ∀ m ∈ others own, TaskFine t m) s₁
    rw [clearsKept clearNodeSync (fun t : TaskManager D => ∀ m ∈ others own, TaskFine t m) (fun _ _ => rfl)] at all
    exact all
  have results : (∃ s₁, (others own).foldlM postNodeResult s = some s₁ ∧ Good s₁ ∧
      (∀ m ∈ others own, NodeSyncFine s₁.tman m) ∧ ∀ m ∈ others own, TaskFine s₁.tman m) ↔ Good s ∧
      (∀ m ∈ others own, NodeResultFine s.tman m) ∧ (∀ m ∈ others own, NodeSyncFine s.tman m) ∧
      ∀ m ∈ others own, TaskFine s.tman m := by
    have all := postAllIff sameNodeResult apartNodeResult (othersNodup own)
      (fun t => (∀ m ∈ others own, NodeSyncFine t m) ∧ ∀ m ∈ others own, TaskFine t m) s
    rw [clearsKept clearNodeResult
      (fun t : TaskManager D => (∀ m ∈ others own, NodeSyncFine t m) ∧ ∀ m ∈ others own, TaskFine t m)
      (fun _ _ => rfl)] at all
    exact all
  have fine : ∀ m ∈ others own, NodeResultFine s.tman m := by
    intro m member
    have remote := memOthers.mp member
    exact fineNodeResult eight (by rwa [calm.here]) (calm.few.short m remote).le (calm.few.small m remote)
  calc (∃ s', postRemoteResTaskSync s = some s' ∧ Good s')
    _ ↔ ∃ s₁, (others own).foldlM postNodeResult s = some s₁ ∧ ∃ s₂, (others own).foldlM postNodeSync s₁ = some s₂ ∧
        ∃ s', (others own).foldlM postNodeRemoteTask s₂ = some s' ∧ Good s' := by
      simp only [postRemoteResTaskSync,calm.here,Option.bind_eq_bind,Option.bind_eq_some_iff]
      exact ⟨fun ⟨s',⟨s₁,h,s₂,h',h''⟩,good⟩ => ⟨s₁,h,s₂,h',s',h'',good⟩,
        fun ⟨s₁,h,s₂,h',s',h'',good⟩ => ⟨s',⟨s₁,h,s₂,h',h''⟩,good⟩⟩
    _ ↔ Good s ∧ (∀ m ∈ others own, NodeSyncFine s.tman m) ∧ ∀ m ∈ others own, TaskFine s.tman m := by
      simp only [tasks,syncs,results]
      exact and_congr_right (fun _ => ⟨fun all => all.2,fun all => ⟨fine,all⟩⟩)
    _ ↔ _ := by
      simp only [memOthers]
      refine and_congr_right (fun _ => ?_)
      rw [← forall₂_and]
      refine forall₂_congr (fun p remote => ?_)
      have remote' : p ≠ s.tman.localId := by rwa [calm.here]
      rw [fineNodeSync remote',fineTask four remote' (calm.nodes p remote)]

omit [Pod (D × UInt32)] in
/- The neighbours for p never amount to a full buffer, neither when they are posted behind
a task nor at the end. -/
def Room (p : Fin machineNum) : List NonCoreSyncMsg → List (RemoteNodeTask own) → Prop
  | waiting, [] => syncSize waiting < maxQuerybufferSize
  | waiting, t :: rest =>
    (t.origin = p ∧ postNodesyncMerge ≤ (waiting ++ syncsFor x p t).length →
      syncSize (waiting ++ syncsFor x p t) < maxQuerybufferSize) ∧ Room p (collect x p waiting t) rest

theorem syncSizeLe (xs ys : List NonCoreSyncMsg) : syncSize xs ≤ syncSize (xs ++ ys) := by
  rw [syncSize,syncSize,List.flatMap_append,List.length_append]
  omega

omit [Pod (D × UInt32)] [Zero D] in
theorem collectFits (p : Fin machineNum) (waiting : List NonCoreSyncMsg) (t : RemoteNodeTask own) :
    ((t.origin = p ∧ postNodesyncMerge ≤ (waiting ++ syncsFor x p t).length →
        syncSize (waiting ++ syncsFor x p t) < maxQuerybufferSize) ∧
      syncSize (collect x p waiting t) < maxQuerybufferSize) ↔
    syncSize (waiting ++ syncsFor x p t) < maxQuerybufferSize := by
  unfold collect
  dsimp only
  split
  case isTrue posted =>
    constructor
    · exact fun h => h.1 posted
    · exact fun fits => ⟨fun _ => fits,by decide⟩
  case isFalse kept =>
    constructor
    · exact fun h => h.2
    · exact fun fits => ⟨fun posted => absurd posted kept,fits⟩

omit [Pod (D × UInt32)] [Zero D] in
theorem roomIff (p : Fin machineNum) (nodes : List (RemoteNodeTask own)) (waiting : List NonCoreSyncMsg) :
    Room x p waiting nodes ↔ syncSize waiting < maxQuerybufferSize ∧ ∀ before t after, nodes = before ++ t :: after →
      syncSize (before.foldl (collect x p) waiting ++ syncsFor x p t) < maxQuerybufferSize := by
  induction nodes generalizing waiting with
  | nil =>
    refine ⟨fun room => ⟨room,fun before t after eq => ?_⟩,fun h => h.1⟩
    cases before <;> cases eq
  | cons t rest ih =>
    rw [Room,ih,← and_assoc,collectFits]
    constructor
    · rintro ⟨now,later⟩
      refine ⟨(syncSizeLe waiting _).trans_lt now,fun before u after eq => ?_⟩
      cases before with
      | nil =>
        cases eq
        exact now
      | cons v more =>
        cases eq
        exact later more u after rfl
    · rintro ⟨_,each⟩
      exact ⟨each [] t rest rfl,fun before u after eq => each (t :: before) u after (by rw [eq]; rfl)⟩

theorem procNodeTaskNext {s s' : Sending D} {t : RemoteNodeTask own} (ok : procNodeTask x s t = some s') :
    s'.tman = next x s t := by
  rw [procNodeTaskBind] at ok
  obtain ⟨s₁,first,second⟩ := Option.bind_eq_some_iff.mp ok
  have results : s₁.tman = mergeResults t.origin (expandNodeTask x s t).tman := postWhenTman sameNodeResult _ first
  have syncs : s'.tman = mergeSyncs t.origin s₁.tman := postWhenTman sameNodeSync _ second
  rw [syncs,results,next]

/- All tasks of the batch, and the last posts. -/
def Fits (nodes : List (RemoteNodeTask own)) (t : TaskManager D) : Prop :=
  ∀ p, p ≠ own → Room x p (t.noncoreSyncMsg p) nodes ∧
    taskSize ((t.taskQueue p).length + (nodes.flatMap (tasksFor x p)).length) < maxQuerybufferSize

omit [Pod (D × UInt32)] in
theorem fitsCons (t : RemoteNodeTask own) (rest : List (RemoteNodeTask own)) (s : Sending D) :
    Fits x (t :: rest) s.tman ↔
      (postNodesyncMerge ≤ (s.tman.noncoreSyncMsg t.origin ++ syncsFor x t.origin t).length →
        syncSize (s.tman.noncoreSyncMsg t.origin ++ syncsFor x t.origin t) < maxQuerybufferSize) ∧
      Fits x rest (next x s t) := by
  have tasks : ∀ p, ((next x s t).taskQueue p).length + (rest.flatMap (tasksFor x p)).length =
      (s.tman.taskQueue p).length + ((t :: rest).flatMap (tasksFor x p)).length := by
    intro p
    rw [(nextQueued x s t p).2,List.flatMap_cons,List.length_append,List.length_append,Nat.add_assoc]
  unfold Fits
  simp only [tasks,(nextQueued x s t _).1,Room]
  constructor
  · intro all
    exact ⟨fun full => (all t.origin t.remote).1.1 ⟨rfl,full⟩,fun p remote => ⟨(all p remote).1.2,(all p remote).2⟩⟩
  · rintro ⟨here,later⟩ p remote
    refine ⟨⟨?_,(later p remote).1⟩,(later p remote).2⟩
    rintro ⟨rfl,full⟩
    exact here full

include eight in
theorem nodeLoopIff [Pod D] (four : Pod.size D = 4) (nodes : List (RemoteNodeTask own)) {s : Sending D}
    (calm : Calm own s.tman) : (∃ s', (nodes.foldlM (procNodeTask x) s).bind postRemoteResTaskSync = some s' ∧ Good s') ↔
      Good s ∧ Fits x nodes s.tman := by
  induction nodes generalizing s with
  | nil =>
    have last := flushIff eight four calm
    simp only [Fits,Room,List.flatMap_nil,List.length_nil,Nat.add_zero]
    exact last
  | cons t rest ih =>
    have later : ∀ s₁, procNodeTask x s t = some s₁ →
        ((∃ s', (rest.foldlM (procNodeTask x) s₁).bind postRemoteResTaskSync = some s' ∧ Good s') ↔
          Good s₁ ∧ Fits x rest s₁.tman) := by
      intro s₁ ok
      refine ih ?_
      rw [procNodeTaskNext x ok]
      exact nextCalm x t calm
    rw [fitsCons,← procNodeTaskIff eight x t calm (Fits x rest)]
    constructor
    · rintro ⟨s',ok,good⟩
      rw [List.foldlM_cons] at ok
      obtain ⟨s₂,body,flush⟩ := Option.bind_eq_some_iff.mp ok
      obtain ⟨s₁,first,second⟩ := Option.bind_eq_some_iff.mp body
      have done := (later s₁ first).mp ⟨s',Option.bind_eq_some_iff.mpr ⟨s₂,second,flush⟩,good⟩
      exact ⟨s₁,first,done⟩
    · rintro ⟨s₁,first,done⟩
      obtain ⟨s',ok,good⟩ := (later s₁ first).mpr done
      refine ⟨s',?_,good⟩
      rw [List.foldlM_cons,first]
      exact ok

end Loop

section Results

variable {own : Fin machineNum} {D : Type} [Pod (D × UInt32)] (eight : Pod.size (D × UInt32) = 8)
variable [LT D] [DecidableLT D] (x : Index own D)

structure CalmResults (own : Fin machineNum) (t : TaskManager D) : Prop where
  here : t.localId = own
  few : Few own (fun r => r.res.length) t.resultQueue

omit [Pod (D × UInt32)] [LT D] [DecidableLT D] in
theorem taskNghLength (t : RemoteTask own D) : (taskNgh x t.toComputeTask).length ≤ maxGraphDeg := by
  have degree := t.degree
  unfold taskNgh
  split
  · rw [packedIds,List.length_map,List.length_range]
    exact degree
  · rw [x.nghLength]
    exact degree

omit [Pod (D × UInt32)] in
theorem computeKept (s : Sending D) (t : RemoteTask own D) :
    ∃ found, found.res.length ≤ maxGraphDeg ∧
      (computeTask x s t).tman = { s.tman with resultQueue := pushed t.origin found s.tman.resultQueue } := by
  have length := visitLength (x.dist t.qid) (taskNgh x t.toComputeTask) (s.visitHash t.qid)
  refine ⟨_,?_,rfl⟩
  exact (List.length_filter_le _ _).trans (length.trans (taskNghLength x t))

include eight in
theorem procTaskDone {s : Sending D} (t : RemoteTask own D) (calm : CalmResults own s.tman) (good : Good s) :
    ∃ s', procTask x s t = some s' ∧ Good s' ∧ CalmResults own s'.tman := by
  obtain ⟨found,length,eq⟩ := computeKept x s t
  have fine : ResultFine (computeTask x s t).tman t.origin := by
    rw [eq]
    refine fineResult eight (fun h => t.remote (h.trans calm.here)) ?_ ?_
    · exact pushedShort calm.few found t.remote
    · exact pushedSmall calm.few length t.remote
  have few := mergedFew calm.few t.origin length
  unfold merged at few
  refine (postWhenIff sameResult _ (CalmResults own) (computeTask x s t) t.origin).mpr ⟨good,fun _ => fine,?_⟩
  rw [eq]
  split
  case isTrue full =>
    rw [if_pos full] at few
    exact ⟨calm.here,few⟩
  case isFalse room =>
    rw [if_neg room] at few
    exact ⟨calm.here,few⟩

include eight in
theorem taskLoopDone (tasks : List (RemoteTask own D)) {s : Sending D} (calm : CalmResults own s.tman) (good : Good s) :
    ∃ s', tasks.foldlM (procTask x) s = some s' ∧ Good s' ∧ CalmResults own s'.tman := by
  induction tasks generalizing s with
  | nil => exact ⟨s,rfl,good,calm⟩
  | cons t rest ih =>
    obtain ⟨s₁,first,good₁,calm₁⟩ := procTaskDone eight x t calm good
    obtain ⟨s',later,done⟩ := ih calm₁ good₁
    refine ⟨s',?_,done⟩
    rw [List.foldlM_cons,first]
    exact later

/- Results never get too many: every task looks at the queue it fills. -/
include eight in
theorem procTaskQueueDone (tasks : List (RemoteTask own D)) {s : Sending D} (calm : CalmResults own s.tman) (good : Good s) :
    ∃ s', procTaskQueue x tasks s = some s' ∧ Good s' := by
  unfold procTaskQueue
  split
  case isTrue => exact ⟨s,rfl,good⟩
  case isFalse =>
    obtain ⟨s₁,loop,good₁,calm₁⟩ := taskLoopDone eight x tasks calm good
    have fine : ∀ m ∈ others s₁.tman.localId, ResultFine s₁.tman m := by
      intro m member
      have remote := memOthers.mp member
      have remote' : m ≠ own := by rwa [← calm₁.here]
      exact fineResult eight remote (calm₁.few.short m remote').le (calm₁.few.small m remote')
    obtain ⟨s',flush,good',_⟩ := (postAllIff sameResult apartResult (othersNodup _) (fun _ => True) s₁).mpr
      ⟨good₁,fine,trivial⟩
    refine ⟨s',?_,good'⟩
    rw [loop]
    exact flush

/- What was posted stays posted. -/
theorem procTaskQueueGood (tasks : List (RemoteTask own D)) {s s' : Sending D} (ok : procTaskQueue x tasks s = some s')
    (good : Good s') : Good s := by
  unfold procTaskQueue at ok
  split at ok
  case isTrue =>
    cases Option.some.inj ok
    exact good
  case isFalse =>
    obtain ⟨s₁,loop,flush⟩ := Option.bind_eq_some_iff.mp ok
    have good₁ : Good s₁ :=
      ((postAllIff sameResult apartResult (othersNodup _) (fun _ => True) s₁).mp ⟨s',flush,good,trivial⟩).1
    refine foldGood (fun u t u' step good => ?_) loop good₁
    have posts := (postWhenIff sameResult _ (fun _ => True) (computeTask x u t) t.origin).mp ⟨u',step,good,trivial⟩
    exact posts.1

end Results

section Room

variable {own : Fin machineNum} {D : Type} (x : Index own D)

/- A vertex has one record for a machine. -/
theorem oneRecord (b : Block own) (p : Fin machineNum) (kind : Record → Bool) :
    (b.records.filter (fun r => r.pid = p ∧ kind r)).length ≤ 1 := by
  have sub : ((b.records.filter (fun r => r.pid = p ∧ kind r)).map Record.pid).Sublist (b.records.map Record.pid) :=
    List.filter_sublist.map _
  have once := b.once.sublist sub
  have same : ∀ q ∈ (b.records.filter (fun r => r.pid = p ∧ kind r)).map Record.pid, q = p := by
    intro q member
    obtain ⟨r,inside,rfl⟩ := List.mem_map.mp member
    exact (of_decide_eq_true (List.mem_filter.mp inside).2).1
  rw [List.eq_replicate_of_mem same,List.nodup_replicate,List.length_map] at once
  exact once

theorem syncsForOne (p : Fin machineNum) (t : RemoteNodeTask own) : (syncsFor x p t).length ≤ 1 := by
  rw [syncsFor,List.length_map]
  exact oneRecord (x.block t.nodeId) p (toCore t.toNodeTask)

theorem syncsForLength (p : Fin machineNum) (t : RemoteNodeTask own) : ∀ msg ∈ syncsFor x p t, msg.bytes.length ≤ 28 := by
  intro msg member
  obtain ⟨r,inside,rfl⟩ := List.mem_map.mp member
  have formed := (x.block t.nodeId).wellFormed r (List.mem_filter.mp inside).1
  cases r with
  | micro pid ids =>
    simp only [Record.WellFormed,inlineDegBar] at formed
    simp only [syncOf,NonCoreSyncMsg.bytes,List.flatten_cons,List.flatten_nil,List.length_append,List.length_nil,Pod.length,
      countedLength]
    simp only [Pod.size]
    omega
  | large pid ofs deg =>
    simp only [syncOf,NonCoreSyncMsg.bytes,List.flatten_cons,List.flatten_nil,List.length_append,List.length_nil,Pod.length,
      countedLength,List.length_singleton]
    decide

theorem collectSmall (p : Fin machineNum) (before : List (RemoteNodeTask own)) (waiting : List NonCoreSyncMsg)
    (small : ∀ msg ∈ waiting, msg.bytes.length ≤ 28) :
    (before.foldl (collect x p) waiting).length ≤ waiting.length + before.length ∧
      ∀ msg ∈ before.foldl (collect x p) waiting, msg.bytes.length ≤ 28 := by
  induction before generalizing waiting with
  | nil => exact ⟨le_rfl,small⟩
  | cons t rest ih =>
    have one := syncsForOne x p t
    have grown : ∀ msg ∈ collect x p waiting t, msg.bytes.length ≤ 28 := by
      intro msg member
      unfold collect at member
      dsimp only at member
      split at member
      · cases member
      · rcases List.mem_append.mp member with old | new
        · exact small msg old
        · exact syncsForLength x p t msg new
    have length : (collect x p waiting t).length ≤ waiting.length + 1 := by
      unfold collect
      dsimp only
      split
      · exact Nat.zero_le _
      · rw [List.length_append]
        omega
    obtain ⟨total,each⟩ := ih _ grown
    refine ⟨?_,each⟩
    rw [List.foldl_cons,List.length_cons]
    omega

variable [Zero D]

/- A batch with room for machine p: for the tasks of all its records, and at every task
for the neighbours that wait for p. -/
structure HasRoom (nodes : List (RemoteNodeTask own)) (p : Fin machineNum) : Prop where
  tasks : 12 + 27 * (nodes.flatMap (tasksFor x p)).length < maxQuerybufferSize
  syncs : ∀ before t after, nodes = before ++ t :: after →
    8 + ((before.foldl (collect x p) [] ++ syncsFor x p t).flatMap NonCoreSyncMsg.bytes).length < maxQuerybufferSize

theorem emptyRoom (p : Fin machineNum) : HasRoom x [] p := by
  constructor
  · rw [List.flatMap_nil,List.length_nil]
    decide
  · intro before t after eq
    cases before <;> cases eq

/- So few tasks fit, whatever they ask for. -/
theorem fewTasksFit {nodes : List (RemoteNodeTask own)} (few : nodes.length ≤ 877) (p : Fin machineNum) :
    HasRoom x nodes p := by
  constructor
  · have tasks : (nodes.flatMap (tasksFor x p)).length ≤ nodes.length := by
      clear few
      induction nodes with
      | nil => exact le_rfl
      | cons t rest ih =>
        have one : (tasksFor x p t).length ≤ 1 := by
          rw [tasksFor,List.length_map]
          exact oneRecord (x.block t.nodeId) p (fun r => !toCore t.toNodeTask r)
        rw [List.flatMap_cons,List.length_append,List.length_cons]
        omega
    simp only [maxQuerybufferSize]
    omega
  · rintro before t after rfl
    obtain ⟨total,each⟩ := collectSmall x p before [] (fun _ member => absurd member List.not_mem_nil)
    have one := syncsForOne x p t
    rw [List.length_append,List.length_cons] at few
    have small : ∀ msg ∈ before.foldl (collect x p) [] ++ syncsFor x p t, msg.bytes.length ≤ 28 := by
      intro msg member
      rcases List.mem_append.mp member with old | new
      · exact each msg old
      · exact syncsForLength x p t msg new
    have bytes := flatMapLengthLe small
    rw [List.length_append] at bytes
    simp only [maxQuerybufferSize,List.length_nil] at *
    omega

end Room

section Call

variable {own : Fin machineNum} {D : Type} [Pod D] [Pod (D × UInt32)] [Zero D] [LT D] [DecidableLT D]

/- Before the call nothing waits for another machine. -/
structure Idle (own : Fin machineNum) (s : Sending D) : Prop where
  here : s.tman.localId = own
  posted : s.posted = []
  tasks : ∀ m, m ≠ own → s.tman.taskQueue m = []
  nodes : ∀ m, m ≠ own → s.tman.nodeTaskQueue m = []
  nodeResults : ∀ m, m ≠ own → s.tman.nodeResultQueue m = []
  syncs : ∀ m, m ≠ own → s.tman.noncoreSyncMsg m = []
  results : ∀ m, m ≠ own → s.tman.resultQueue m = []

variable (x : Index own D)

omit [LT D] [DecidableLT D] in
/- The queues of results are not touched by node tasks. -/
theorem procNodeQueueResults {nodes : List (RemoteNodeTask own)} {s s' : Sending D}
    (ok : procNodeQueue x nodes s = some s') (calm : CalmResults own s.tman) : CalmResults own s'.tman := by
  have results : ∀ (u : Sending D) m u', postNodeResult u m = some u' → CalmResults own u.tman →
      CalmResults own u'.tman := by
    intro u m u' posts calm
    rw [postTman sameNodeResult posts]
    exact ⟨calm.here,calm.few⟩
  have syncs : ∀ (u : Sending D) m u', postNodeSync u m = some u' → CalmResults own u.tman →
      CalmResults own u'.tman := by
    intro u m u' posts calm
    rw [postTman sameNodeSync posts]
    exact ⟨calm.here,calm.few⟩
  have tasks : ∀ (u : Sending D) m u', postNodeRemoteTask u m = some u' → CalmResults own u.tman →
      CalmResults own u'.tman := by
    intro u m u' posts calm
    rw [postTman sameTask posts]
    exact ⟨calm.here,calm.few⟩
  have body : ∀ (u : Sending D) t u', procNodeTask x u t = some u' → CalmResults own u.tman →
      CalmResults own u'.tman := by
    intro u t u' step calm
    obtain ⟨_,_,found,_,eq⟩ := expandKept x u t
    rw [procNodeTaskNext x step,next,mergeSyncsKept,mergeResultsKept,eq]
    exact ⟨calm.here,calm.few⟩
  unfold procNodeQueue at ok
  split at ok
  case isTrue =>
    cases Option.some.inj ok
    exact calm
  case isFalse =>
    obtain ⟨s₁,loop,flush⟩ := Option.bind_eq_some_iff.mp ok
    obtain ⟨s₂,first,later⟩ := Option.bind_eq_some_iff.mp flush
    obtain ⟨s₃,second,third⟩ := Option.bind_eq_some_iff.mp later
    have calm₁ := foldlMInvariant (fun u => CalmResults own u.tman) body loop calm
    have calm₂ := foldlMInvariant (fun u => CalmResults own u.tman) results first calm₁
    have calm₃ := foldlMInvariant (fun u => CalmResults own u.tman) syncs second calm₂
    exact foldlMInvariant (fun u => CalmResults own u.tman) tasks third calm₃

omit [Pod D] [Pod (D × UInt32)] [LT D] [DecidableLT D] in
theorem fitsRoom {s : Sending D} (idle : Idle own s) (nodes : List (RemoteNodeTask own)) :
    Fits x nodes s.tman ↔ ∀ p, p ≠ own → HasRoom x nodes p := by
  refine forall₂_congr (fun p remote => ?_)
  rw [idle.syncs p remote,idle.tasks p remote,List.length_nil,Nat.zero_add,roomIff]
  constructor
  · rintro ⟨⟨_,syncs⟩,tasks⟩
    refine ⟨?_,syncs⟩
    rw [Nat.mul_comm]
    exact tasks
  · rintro ⟨tasks,syncs⟩
    refine ⟨⟨by decide,syncs⟩,?_⟩
    rw [Nat.mul_comm] at tasks
    exact tasks

theorem callIff (four : Pod.size D = 4) (eight : Pod.size (D × UInt32) = 8) {s : Sending D} (idle : Idle own s)
    (nodes : List (RemoteNodeTask own)) (tasks : List (RemoteTask own D)) :
    (∃ s', scalaSubProcV5 x nodes tasks s = some s' ∧ Good s') ↔ ∀ p, p ≠ own → HasRoom x nodes p := by
  have good : Good s := by
    intro msg member
    rw [idle.posted] at member
    cases member
  have calm : Calm own s.tman := by
    refine ⟨idle.here,idle.nodes,⟨fun m remote => ?_,fun m remote r member => ?_⟩⟩
    · rw [idle.nodeResults m remote]
      exact Nat.zero_lt_succ _
    · rw [idle.nodeResults m remote] at member
      cases member
  have calmResults : CalmResults own s.tman := by
    refine ⟨idle.here,⟨fun m remote => ?_,fun m remote r member => ?_⟩⟩
    · rw [idle.results m remote]
      exact Nat.zero_lt_succ _
    · rw [idle.results m remote] at member
      cases member
  have first : (∃ s₁, procNodeQueue x nodes s = some s₁ ∧ Good s₁) ↔ ∀ p, p ≠ own → HasRoom x nodes p := by
    cases nodes with
    | nil => exact ⟨fun _ p _ => emptyRoom x p,fun _ => ⟨s,rfl,good⟩⟩
    | cons t rest =>
      have loop := nodeLoopIff eight x four (t :: rest) calm
      rw [← fitsRoom x idle]
      exact loop.trans ⟨fun h => h.2,fun fits => ⟨good,fits⟩⟩
  rw [← first]
  constructor
  · rintro ⟨s',ok,good'⟩
    obtain ⟨s₁,node,task⟩ := Option.bind_eq_some_iff.mp ok
    exact ⟨s₁,node,procTaskQueueGood x tasks task good'⟩
  · rintro ⟨s₁,node,good₁⟩
    obtain ⟨s',task,good'⟩ := procTaskQueueDone eight x tasks (procNodeQueueResults x node calmResults) good₁
    exact ⟨s',Option.bind_eq_some_iff.mpr ⟨s₁,node,task⟩,good'⟩

/- dist_t is float or int. -/
theorem batchFitsExact (four : Pod.size D = 4) (eight : Pod.size (D × UInt32) = 8) (s : Sending D) (idle : Idle own s)
    (nodes : List (RemoteNodeTask own)) (tasks : List (RemoteTask own D)) :
    (∃ s', scalaSubProcV5 x nodes tasks s = some s' ∧ ∀ msg ∈ s'.posted, msg.2.length < maxQuerybufferSize) ↔
      ∀ p, p ≠ own → HasRoom x nodes p :=
  callIff x four eight idle nodes tasks

end Call

section Pile

/- Machine 1, whose vertices have one neighbour on machine 2. Machine 0 expands them for
many queries, with itself the only core machine. -/
def pileBlock : Block 1 where
  records := [.micro 2 [7]]
  ngh := []
  wellFormed r member := by
    rw [List.mem_singleton.mp member]
    exact Nat.le_succ 1
  foreign r member := by
    rw [List.mem_singleton.mp member]
    decide
  once := by decide
  degree := by decide

def pileIndex : Index 1 Int32 where
  block _ := pileBlock
  nghPtr _ deg := List.replicate deg.toNat 0
  nghLength _ _ := List.length_replicate
  dist _ _ := 0

def pileTask (qid : Nat) : RemoteNodeTask 1 where
  machineId := machineWord 0
  qid := UInt32.ofNat qid
  nodeId := 5
  isCoreMachine m := if m = 0 then 1 else 0
  origin := 0
  sender := rfl
  remote := by decide

def pileStart : Sending Int32 where
  tman := { localId := 1, taskQueue := fun _ => [], nodeTaskQueue := fun _ => [], curTaskQueue := [], curNodeQueue := [],
            resultQueue := fun _ => [], nodeResultQueue := fun _ => [], noncoreSyncMsg := fun _ => [],
            globalQuery := fun qid => ⟨qid.toUInt64,.start,[],[]⟩, subqueryQueue := [] }
  visitHash _ := []
  posted := []

theorem pileIdle : Idle 1 pileStart :=
  ⟨rfl,rfl,fun _ _ => rfl,fun _ _ => rfl,fun _ _ => rfl,fun _ _ => rfl,fun _ _ => rfl⟩

theorem pileAborts : ¬∃ s', scalaSubProcV5 pileIndex ((List.range 910).map pileTask) [] pileStart = some s' ∧
    ∀ msg ∈ s'.posted, msg.2.length < maxQuerybufferSize := by
  intro done
  have room := (callIff pileIndex rfl rfl pileIdle ((List.range 910).map pileTask) []).mp done 2 (by decide)
  have many : (((List.range 910).map pileTask).flatMap (tasksFor pileIndex 2)).length = 910 := by decide +kernel
  have tasks := room.tasks
  rw [many] at tasks
  exact absurd tasks (by decide)

theorem pileFits : ∃ s', scalaSubProcV5 pileIndex ((List.range 800).map pileTask) [] pileStart = some s' ∧
    ∀ msg ∈ s'.posted, msg.2.length < maxQuerybufferSize := by
  refine (batchFitsExact pileIndex rfl rfl pileStart pileIdle _ []).mpr (fun p _ => fewTasksFit pileIndex ?_ p)
  rw [List.length_map,List.length_range]
  decide

end Pile

end CoTra.BatchSize
