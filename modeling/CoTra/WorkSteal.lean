import CoTra.Locked
import Mathlib.Data.List.Perm.Subperm

/-! The tasks that the threads of a machine share (lockfreeQ.h, balance_queue.h, simple_lock.h;
scala_search.h: work_steal, do_task and what a query's coroutine does with the two queues). Every
queue is behind its SimpleLock, which is the fine machine of Locked. A thread forks tasks to its
own queue, steals from the queues of its socket, and drains its own queue and the chunks of a
query whose coroutine it runs. -/
namespace CoTra.WorkSteal
open Runs Progress Locked

section Queues

variable {α : Type}

/- LockFreeQueue: what is done between lock and unlock. -/
def push (queue_ values : List α) : List α := queue_ ++ values

def pop : List α → List α × Option α
  | [] => ([],none)
  | value :: queue_ => (queue_,some value)

theorem popFound {queue_ : List α} {value : α} (found : value ∈ (pop queue_).2) : value ∈ queue_ := by
  cases queue_ with
  | nil => cases found
  | cons first rest =>
    cases found
    exact List.mem_cons_self

theorem popRest {queue_ : List α} {value : α} (member : value ∈ (pop queue_).1) : value ∈ queue_ := by
  cases queue_ with
  | nil => cases member
  | cons first rest => exact List.mem_cons_of_mem first member

inductive Event (α : Type) where
  | push (values : List α)
  | pop (found : Option α)

-- The calls, one after the other, make b of the queue a and give what they gave.
inductive Replays : List α → List (Event α) → List α → Prop where
  | nil (a) : Replays a [] a
  | push {a b values rest} (next : Replays (push a values) rest b) : Replays a (.push values :: rest) b
  | pop {a b rest} (next : Replays (pop a).1 rest b) : Replays a (.pop (pop a).2 :: rest) b

def pushed : Event α → List α
  | .push values => values
  | .pop _ => []

def taken : Event α → Option α
  | .push _ => none
  | .pop found => found

theorem replaysEnd {a b c : List α} {log more : List (Event α)} (first : Replays a log b) (second : Replays b more c) :
    Replays a (log ++ more) c := by
  induction first with
  | nil => exact second
  | push _ ih => exact .push (ih second)
  | pop _ ih => exact .pop (ih second)

/- A queue gives what was put in it, in that order. -/
theorem replaysFifo {a b : List α} {log : List (Event α)} (replays : Replays a log b) :
    a ++ log.flatMap pushed = log.filterMap taken ++ b := by
  induction replays with
  | nil a => exact List.append_nil a
  | @push a b values rest next ih =>
    rw [List.flatMap_cons,← List.append_assoc]
    exact ih
  | @pop a b rest next ih =>
    cases a with
    | nil => exact ih
    | cons value queue_ => exact congrArg (value :: ·) ih

end Queues

structure ComputeTask where
  machine_id : Nat
  qid : Nat
  deg : Nat
  offset : Nat
  is_count : Bool
  deriving DecidableEq, Repr

/- `origin` is history: the task that the chunk was made from. -/
structure Chunk (D : Type) where
  elems : List (D × Nat)
  is_count : Bool
  origin : ComputeTask

/- ba_task_queue has a queue for each thread, and each query has its con_task_queue. -/
inductive Name where
  | ba (t : Nat)
  | con (qid : Nat)
  deriving DecidableEq, Repr

def Item (D : Type) : Name → Type
  | .ba _ => ComputeTask
  | .con _ => Chunk D

abbrev Content (D : Type) (q : Name) : Type := List (Item D q)

abbrev Calls (D : Type) (q : Name) : Type := Event (Item D q)

/- A machine: its threads and sockets, the thread that runs a query's coroutine, the graph's
neighbours behind an offset, and the distances. -/
structure Search (D : Type) where
  activeThreads : Nat
  maxThreads : Nat
  maxSockets : Nat
  getSocket : Nat → Nat
  partition_id : Nat
  qsize : Nat
  runs : Nat → Nat
  runsKnown : ∀ qid, runs qid < activeThreads
  nghPtr : Nat → Nat → Nat
  fstdistfunc : Nat → Nat → D

inductive Pc (D : Type) where
  | idle
  | fork (task : ComputeTask)
  | count (qid : Nat)
  | steal (victims : List Nat)
  | work (task : ComputeTask) (back : Option Nat)
  | push (task : ComputeTask) (seen : Nat → Bool) (back : Option Nat)
  | drainBa (qid : Nat)
  | drainCon (qid : Nat)
  | merge (chunk : Chunk D) (qid : Nat)

/- The counts are the fields of the thread's queries. `forked` and `merged` are history. -/
structure Thread (D : Type) where
  pc : Pc D
  post_cnt : Nat → Nat
  recv_cnt : Nat → Nat
  forked : List ComputeTask
  merged : List (Chunk D)

inductive Call where
  | expand (qid deg offset : Nat)
  | workSteal
  | drain (qid : Nat)

/- What a thread calls next, and which of the neighbours CheckAndSet says were seen. -/
structure Input where
  call : Call
  seen : Nat → Bool

variable {D : Type} (E : Search D)

def stealWithinSocket (tid : Nat) : List Nat :=
  let per_pack := E.maxThreads / E.maxSockets
  let pack_beg := E.getSocket tid * per_pack
  let pack_end := (E.getSocket tid + 1) * per_pack
  ((List.range' 1 (pack_end - 1)).map (fun i => (tid + i) % per_pack + pack_beg)).filter (· < E.activeThreads)

def doTask (task : ComputeTask) (seen : Nat → Bool) : Chunk D where
  elems := ((List.range task.deg).filter (fun d => !seen d)).map
    (fun d => (E.fstdistfunc task.qid (E.nghPtr task.offset d),E.nghPtr task.offset d))
  is_count := task.is_count
  origin := task

def pushSection {D : Type} (q : Name) (values : List (Item D q)) (th : Thread D) : Section (Content D) (Calls D) (Thread D) :=
  ⟨q,fun queue_ => (push queue_ values,th,.push values)⟩

def popSection {D : Type} (q : Name) (th : Option (Item D q) → Thread D) : Section (Content D) (Calls D) (Thread D) :=
  ⟨q,fun queue_ => ((pop queue_).1,th (pop queue_).2,.pop (pop queue_).2)⟩

def at' {D : Type} (th : Thread D) (pc : Pc D) : Thread D := { th with pc := pc }

def called (t : Nat) (th : Thread D) : Call → Thread D
  | .expand qid deg offset =>
    if E.runs qid = t ∧ qid < E.qsize then at' th (.fork ⟨E.partition_id,qid,deg,offset,true⟩) else th
  | .workSteal => at' th (.steal (t :: stealWithinSocket E t))
  | .drain qid => if E.runs qid = t ∧ qid < E.qsize then at' th (.drainBa qid) else th

-- Behind do_task.
def goBack : Option Nat → Pc D
  | none => .idle
  | some qid => .drainBa qid

def prog (t : Nat) (th : Thread D) : Next (Content D) (Calls D) (Thread D) Input :=
  match th.pc with
  | .idle => .own (fun i => called E t th i.call)
  | .fork task => .guarded (pushSection (.ba t) [task] { th with pc := .count task.qid, forked := th.forked ++ [task] })
  | .count qid =>
    .own (fun _ => { th with pc := .idle, post_cnt := Function.update th.post_cnt qid (th.post_cnt qid + 1) })
  | .steal [] => .own (fun _ => at' th .idle)
  | .steal (v :: rest) => .guarded (popSection (.ba v) (fun
    | some task => at' th (.work task none)
    | none => at' th (.steal rest)))
  | .work task back => .own (fun i => at' th (.push task i.seen back))
  | .push task seen back => .guarded (pushSection (.con task.qid) [doTask E task seen] (at' th (goBack back)))
  | .drainBa qid => .guarded (popSection (.ba t) (fun
    | some task => at' th (.work task (some qid))
    | none => at' th (.drainCon qid)))
  | .drainCon qid => .guarded (popSection (.con qid) (fun
    | some chunk => at' th (.merge chunk qid)
    | none => at' th .idle))
  | .merge chunk qid => .own (fun _ =>
    { th with
      pc := .drainCon qid
      recv_cnt := Function.update th.recv_cnt qid (th.recv_cnt qid + chunk.is_count.toNat)
      merged := th.merged ++ [chunk] })

abbrev State (D : Type) := Plain (Content D) (Calls D) (Thread D)

def start (D : Type) : State D := ⟨fun _ => ⟨.idle,fun _ => 0,fun _ => 0,[],[]⟩,fun _ => [],fun _ => []⟩

abbrev next (s : State D) (a : Nat × Input) : Option (State D) := plainStep E.activeThreads (prog E) s a

abbrev nextFine (s : Fine (Content D) (Calls D) (Thread D)) (a : Nat × Input × Bool) :
    Option (Fine (Content D) (Calls D) (Thread D)) := step E.activeThreads (prog E) s a

section Histories

variable {E} {s u : State D} {t : Nat}

theorem progKinds (t : Nat) (th : Thread D) : (∃ f, prog E t th = .own f) ∨
    (∃ q values th', prog E t th = .guarded (pushSection q values th')) ∨
    ∃ q th', prog E t th = .guarded (popSection q th') := by
  unfold prog
  split <;> first
    | exact Or.inl ⟨_,rfl⟩
    | exact Or.inr (Or.inl ⟨_,_,_,rfl⟩)
    | exact Or.inr (Or.inr ⟨_,_,rfl⟩)

def Replayed (s : State D) : Prop := ∀ q, Replays [] ((s.log q).map Prod.snd) (s.objs q)

/- A section adds its call to the history of its own queue. -/
theorem commitReplayed (replayed : Replayed s) (S : Section (Content D) (Calls D) (Thread D))
    (one : Replays (s.objs S.name) [(S.act (s.objs S.name)).2.2] (S.act (s.objs S.name)).1) :
    Replayed (committed s t S (s.objs S.name)) := by
  intro q
  unfold committed
  rcases eq_or_ne q S.name with rfl | other
  · simp only [Function.update_self,List.map_append,List.map_cons,List.map_nil]
    exact replaysEnd (replayed S.name) one
  · simp only [Function.update_of_ne other]
    exact replayed q

theorem nextReplayed (replayed : Replayed s) {a : Nat × Input} (ok : next E s a = some u) : Replayed u := by
  unfold next plainStep at ok
  split at ok
  · cases ok
    unfold plainMove
    obtain ⟨f,kind⟩ | ⟨q,values,th,kind⟩ | ⟨q,th,kind⟩ := progKinds (E := E) a.1 (s.thread a.1)
    · rw [kind]
      exact replayed
    · rw [kind]
      exact commitReplayed replayed _ (.push (.nil _))
    · rw [kind]
      exact commitReplayed replayed _ (.pop (.nil _))
  · cases ok

end Histories

section Accounts

variable (s : State D) (x : ComputeTask)

def ba (t : Nat) : List ComputeTask := s.objs (.ba t)

def con (qid : Nat) : List (Chunk D) := s.objs (.con qid)

def inHands : Pc D → Nat
  | .work task _ => if task = x then 1 else 0
  | .push task _ _ => if task = x then 1 else 0
  | .merge chunk _ => if chunk.origin = x then 1 else 0
  | _ => 0

def queued : Nat := total E.activeThreads (fun t => (ba s t).count x)

def chunks : Nat := ((con s x.qid).map Chunk.origin).count x

def underWay : Nat := queued E s x + total E.activeThreads (fun t => inHands x (s.thread t).pc) + chunks s x

def mergedTimes : Nat := total E.activeThreads (fun t => ((s.thread t).merged.map Chunk.origin).count x)

def forkedTimes : Nat := total E.activeThreads (fun t => (s.thread t).forked.count x)

def counting (qid : Nat) : Pc D → Nat
  | .count q => if q = qid then 1 else 0
  | _ => 0

/- What do_task makes of the chunk's task. -/
def Made (chunk : Chunk D) : Prop := ∃ seen, chunk = doTask E chunk.origin seen

-- A task of a query that the thread runs.
def Mine (t qid : Nat) : Prop := E.runs qid = t ∧ qid < E.qsize

def Fits (t : Nat) : Pc D → Prop
  | .fork task => Mine E t task.qid ∧ task.is_count = true
  | .count qid | .drainBa qid | .drainCon qid => Mine E t qid
  | .work _ back | .push _ _ back => ∀ qid ∈ back, Mine E t qid
  | .merge chunk qid => Mine E t qid ∧ chunk.origin.qid = qid ∧ Made E chunk
  | .steal victims => ∀ v ∈ victims, v < E.activeThreads
  | .idle => True

structure Own (t : Nat) (th : Thread D) : Prop where
  fits : Fits E t th.pc
  posted : ∀ qid, th.post_cnt qid + counting qid th.pc = (th.forked.filter (·.qid = qid)).length
  received : ∀ qid, th.recv_cnt qid = (th.merged.filter (fun c => c.origin.qid = qid ∧ c.is_count = true)).length
  forks : ∀ task ∈ th.forked, Mine E t task.qid ∧ task.is_count = true
  merges : ∀ c ∈ th.merged, Mine E t c.origin.qid ∧ Made E c

structure Exact : Prop where
  own : ∀ t, t < E.activeThreads → Own E t (s.thread t)
  homes : ∀ qid, ∀ c ∈ con s qid, c.origin.qid = qid ∧ Made E c
  bas : ∀ t, ∀ task ∈ ba s t, Mine E t task.qid
  placed : ∀ x, underWay E s x + mergedTimes E s x = forkedTimes E s x

end Accounts

section Moves

variable {E} {s u : State D} {t : Nat}

theorem threadsChange (f : Thread D → Nat) (inside : t < E.activeThreads) (others : ∀ k, k ≠ t → u.thread k = s.thread k) :
    total E.activeThreads (fun k => f (u.thread k)) + f (s.thread t) =
      total E.activeThreads (fun k => f (s.thread k)) + f (u.thread t) :=
  @totalChange (fun k => f (s.thread k)) (fun k => f (u.thread k)) _ _ inside (fun k other => congrArg f (others k other))

/- One thread moves, and what leaves its hands and its histories is in the queues. -/
theorem exactStep (exact : Exact E s) (inside : t < E.activeThreads) (others : ∀ k, k ≠ t → u.thread k = s.thread k)
    (own : Own E t (u.thread t)) (homes : ∀ qid, ∀ c ∈ con u qid, c.origin.qid = qid ∧ Made E c)
    (bas : ∀ k, ∀ task ∈ ba u k, Mine E k task.qid)
    (moved : ∀ x, queued E u x + chunks u x + inHands x (u.thread t).pc + ((u.thread t).merged.map Chunk.origin).count x +
        (s.thread t).forked.count x =
      queued E s x + chunks s x + inHands x (s.thread t).pc + ((s.thread t).merged.map Chunk.origin).count x +
        (u.thread t).forked.count x) : Exact E u where
  own k known := by
    rcases eq_or_ne k t with rfl | other
    · exact own
    · rw [others k other]
      exact exact.own k known
  homes := homes
  bas := bas
  placed x := by
    have hands := threadsChange (fun th => inHands x th.pc) inside others
    have merged := threadsChange (fun th => (th.merged.map Chunk.origin).count x) inside others
    have forked := threadsChange (fun th => th.forked.count x) inside others
    have before := exact.placed x
    have now := moved x
    unfold underWay mergedTimes forkedTimes at before ⊢
    omega

theorem exactTurn (exact : Exact E s) (inside : t < E.activeThreads) {th : Thread D} (own : Own E t th)
    (forked : th.forked = (s.thread t).forked)
    (moved : ∀ x, inHands x th.pc + (th.merged.map Chunk.origin).count x =
      inHands x (s.thread t).pc + ((s.thread t).merged.map Chunk.origin).count x) : Exact E (turned s t th) := by
  have now : (turned s t th).thread t = th := Function.update_self ..
  refine exactStep exact inside (fun k other => turnedOther s th other) (now.symm ▸ own) exact.homes exact.bas (fun x => ?_)
  rw [now,forked]
  have := moved x
  show queued E s x + chunks s x + _ + _ + _ = _
  omega

theorem queuedChange {v : Nat} (known : v < E.activeThreads) (others : ∀ k, k ≠ v → ba u k = ba s k) (x : ComputeTask) :
    queued E u x + (ba s v).count x = queued E s x + (ba u v).count x :=
  @totalChange (fun k => (ba s k).count x) (fun k => (ba u k).count x) _ _ known (fun k other => by rw [others k other])

/- What a section on a thread's queue leaves. -/
theorem committedBa (s : State D) (t v : Nat) (act : List ComputeTask → List ComputeTask × Thread D × Event ComputeTask) :
    ∃ u, u = committed s t ⟨.ba v,act⟩ (s.objs (.ba v)) ∧ u.thread t = (act (ba s v)).2.1 ∧
      (∀ k, k ≠ t → u.thread k = s.thread k) ∧ ba u v = (act (ba s v)).1 ∧ (∀ k, k ≠ v → ba u k = ba s k) ∧
      ∀ qid, con u qid = con s qid :=
  ⟨_,rfl,Function.update_self ..,fun _ other => committedOther s _ _ other,Function.update_self ..,
    fun _ other => committedObjs s t _ _ (fun same => other (Name.ba.inj same)),
    fun _ => committedObjs s t _ _ Name.noConfusion⟩

theorem committedCon (s : State D) (t qid : Nat) (act : List (Chunk D) → List (Chunk D) × Thread D × Event (Chunk D)) :
    ∃ u, u = committed s t ⟨.con qid,act⟩ (s.objs (.con qid)) ∧ u.thread t = (act (con s qid)).2.1 ∧
      (∀ k, k ≠ t → u.thread k = s.thread k) ∧ con u qid = (act (con s qid)).1 ∧ (∀ q, q ≠ qid → con u q = con s q) ∧
      ∀ k, ba u k = ba s k :=
  ⟨_,rfl,Function.update_self ..,fun _ other => committedOther s _ _ other,Function.update_self ..,
    fun _ other => committedObjs s t _ _ (fun same => other (Name.con.inj same)),
    fun _ => committedObjs s t _ _ Name.noConfusion⟩

/- A section on a thread's queue. -/
theorem exactBa (exact : Exact E s) (inside : t < E.activeThreads) {v : Nat} (known : v < E.activeThreads)
    (act : List ComputeTask → List ComputeTask × Thread D × Event ComputeTask) (own : Own E t (act (ba s v)).2.1)
    (merged : (act (ba s v)).2.1.merged = (s.thread t).merged) (bas : ∀ task ∈ (act (ba s v)).1, Mine E v task.qid)
    (moved : ∀ x, (act (ba s v)).1.count x + inHands x (act (ba s v)).2.1.pc + (s.thread t).forked.count x =
      (ba s v).count x + inHands x (s.thread t).pc + (act (ba s v)).2.1.forked.count x) :
    Exact E (committed s t ⟨.ba v,act⟩ (s.objs (.ba v))) := by
  obtain ⟨u,this,now,threads,here,others,away⟩ := committedBa s t v act
  refine this ▸ exactStep exact inside threads (now.symm ▸ own)
    (fun qid => away qid ▸ exact.homes qid) (fun k => ?_) (fun x => ?_)
  · rcases eq_or_ne k v with rfl | other
    · rw [here]
      exact bas
    · rw [others k other]
      exact exact.bas k
  have change := queuedChange known others x
  have balance := moved x
  rw [here] at change
  rw [now,merged]
  unfold chunks
  rw [away]
  omega

/- A section on a query's queue. -/
theorem exactCon (exact : Exact E s) (inside : t < E.activeThreads) {qid : Nat}
    (act : List (Chunk D) → List (Chunk D) × Thread D × Event (Chunk D))
    (own : Own E t (act (con s qid)).2.1) (merged : (act (con s qid)).2.1.merged = (s.thread t).merged)
    (forked : (act (con s qid)).2.1.forked = (s.thread t).forked)
    (homes : ∀ c ∈ (act (con s qid)).1, c.origin.qid = qid ∧ Made E c)
    (moved : ∀ x, ((act (con s qid)).1.map Chunk.origin).count x + inHands x (act (con s qid)).2.1.pc =
      ((con s qid).map Chunk.origin).count x + inHands x (s.thread t).pc) :
    Exact E (committed s t ⟨.con qid,act⟩ (s.objs (.con qid))) := by
  obtain ⟨u,this,now,threads,here,others,away⟩ := committedCon s t qid act
  refine this ▸ exactStep exact inside threads (now.symm ▸ own)
    (fun q => ?_) (fun k => away k ▸ exact.bas k) (fun x => ?_)
  · rcases eq_or_ne q qid with rfl | other
    · rw [here]
      exact homes
    · rw [others q other]
      exact exact.homes q
  · have balance := moved x
    have same : queued E u x = queued E s x := congrArg (total E.activeThreads) (funext fun k => by rw [away])
    rw [now,merged,forked,same]
    unfold chunks
    rcases eq_or_ne x.qid qid with rfl | other
    · rw [here]
      omega
    · rw [others x.qid other]
      have none' : ∀ {cs : List (Chunk D)}, (∀ c ∈ cs, c.origin.qid = qid ∧ Made E c) →
          (cs.map Chunk.origin).count x = 0 := by
        intro cs all
        rw [List.count_eq_zero]
        rintro member
        obtain ⟨c,inside',same'⟩ := List.mem_map.mp member
        exact other (same' ▸ (all c inside').1)
      rw [none' homes,none' (exact.homes qid)] at balance
      omega

theorem filterOne (task : ComputeTask) (qid : Nat) :
    ([task].filter (·.qid = qid)).length = if task.qid = qid then 1 else 0 := by
  by_cases same : task.qid = qid <;> simp [same]

theorem filterChunk (chunk : Chunk D) (qid : Nat) :
    ([chunk].filter (fun c => c.origin.qid = qid ∧ c.is_count = true)).length =
      if chunk.origin.qid = qid then chunk.is_count.toNat else 0 := by
  by_cases same : chunk.origin.qid = qid <;> cases counts : chunk.is_count <;> simp [same,counts]

/- A count goes up, for one query. -/
theorem tallied (cnt : Nat → Nat) (qid q n : Nat) :
    Function.update cnt qid (cnt qid + n) q = cnt q + if qid = q then n else 0 := by
  rcases eq_or_ne q qid with rfl | other
  · rw [Function.update_self,if_pos rfl]
  · rw [Function.update_of_ne other,if_neg (Ne.symm other),Nat.add_zero]

/- A thread takes a task from a queue, or finds it empty. -/
theorem exactPop (exact : Exact E s) (inside : t < E.activeThreads) {v : Nat} (known : v < E.activeThreads)
    (th : Option ComputeTask → Thread D) (own : ∀ found, Own E t (th found))
    (merged : ∀ found, (th found).merged = (s.thread t).merged) (forked : ∀ found, (th found).forked = (s.thread t).forked)
    (none' : ∀ x, inHands x (th none).pc = inHands x (s.thread t).pc)
    (some' : ∀ task x, inHands x (th (some task)).pc = inHands x (s.thread t).pc + if task = x then 1 else 0) :
    Exact E (committed s t (popSection (.ba v) th) (s.objs (.ba v))) := by
  refine exactBa exact inside known (fun queue_ => ((pop queue_).1,th (pop queue_).2,.pop (pop queue_).2)) (own _)
    (merged _) (fun task member => exact.bas v task (popRest member)) (fun x => ?_)
  simp only [forked]
  cases ba s v with
  | nil => exact congrArg (_ + · + _) (none' x)
  | cons task rest =>
    rw [List.count_cons]
    simp only [pop,some' task x,beq_iff_eq]
    omega

/- A thread takes a chunk from a query's queue, or finds it empty. -/
theorem exactTake (exact : Exact E s) (inside : t < E.activeThreads) {qid : Nat} (th : Option (Chunk D) → Thread D)
    (own : ∀ found, (∀ c ∈ found, c.origin.qid = qid ∧ Made E c) → Own E t (th found))
    (merged : ∀ found, (th found).merged = (s.thread t).merged) (forked : ∀ found, (th found).forked = (s.thread t).forked)
    (none' : ∀ x, inHands x (th none).pc = inHands x (s.thread t).pc)
    (some' : ∀ chunk x, inHands x (th (some chunk)).pc = inHands x (s.thread t).pc + if chunk.origin = x then 1 else 0) :
    Exact E (committed s t (popSection (.con qid) th) (s.objs (.con qid))) := by
  have known := exact.homes qid
  refine exactCon exact inside (fun queue_ => ((pop queue_).1,th (pop queue_).2,.pop (pop queue_).2))
    (own _ (fun c member => known c (popFound member))) (merged _) (forked _) (fun c member => known c (popRest member))
    (fun x => ?_)
  cases con s qid with
  | nil => exact congrArg (_ + ·) (none' x)
  | cons chunk rest =>
    rw [List.map_cons,List.count_cons]
    simp only [pop,some' chunk x,beq_iff_eq]
    omega

theorem ownAt {th : Thread D} (own : Own E t th) {pc : Pc D} (fits : Fits E t pc)
    (same : ∀ qid, counting qid pc = counting qid th.pc) : Own E t (at' th pc) :=
  ⟨fits,fun qid => (congrArg (th.post_cnt qid + ·) (same qid)).trans (own.posted qid),own.received,own.forks,own.merges⟩

theorem stealBelow (t v : Nat) (member : v ∈ stealWithinSocket E t) : v < E.activeThreads :=
  of_decide_eq_true (List.mem_filter.mp member).2

theorem calledExact (exact : Exact E s) (inside : t < E.activeThreads) (here : (s.thread t).pc = .idle) (call : Call) :
    Exact E (turned s t (called E t (s.thread t) call)) := by
  have own := exact.own t inside
  have stays : ∀ {pc : Pc D}, Fits E t pc → (∀ qid, counting qid pc = 0) → (∀ x, inHands x pc = 0) →
      Exact E (turned s t (at' (s.thread t) pc)) :=
    fun fits none' empty => exactTurn exact inside (ownAt own fits (fun qid => here ▸ none' qid)) rfl
      (fun x => congrArg (· + _) (here ▸ empty x))
  have same : Exact E (turned s t (s.thread t)) := exactTurn exact inside own rfl (fun _ => rfl)
  cases call with
  | expand qid deg offset =>
    simp only [called]
    split
    · rename_i mine
      exact @stays (.fork _) ⟨mine,rfl⟩ (fun _ => rfl) (fun _ => rfl)
    · exact same
  | workSteal =>
    refine stays (fun v member => ?_) (fun _ => rfl) (fun _ => rfl)
    rcases List.mem_cons.mp member with rfl | victim
    · exact inside
    · exact stealBelow t v victim
  | drain qid =>
    simp only [called]
    split
    · rename_i mine
      exact @stays (.drainBa _) mine (fun _ => rfl) (fun _ => rfl)
    · exact same

theorem moveExact (exact : Exact E s) (inside : t < E.activeThreads) (i : Input) : Exact E (plainMove (prog E) s t i) := by
  have own := exact.own t inside
  have fits := own.fits
  unfold plainMove prog
  cases here : (s.thread t).pc with
  | idle => exact calledExact exact inside here i.call
  | fork task =>
    rw [here] at fits
    refine exactBa exact inside inside _ ⟨fits.1,fun qid => ?_,own.received,fun x member => ?_,own.merges⟩ rfl
      (fun x member => ?_) (fun x => ?_)
    · have before := own.posted qid
      rw [here] at before
      show (s.thread t).post_cnt qid + (if task.qid = qid then 1 else 0) =
        (((s.thread t).forked ++ [task]).filter (·.qid = qid)).length
      rw [List.filter_append,List.length_append,← before,filterOne]
      rfl
    · rcases List.mem_append.mp member with old | new
      · exact own.forks x old
      · cases List.mem_singleton.mp new
        exact fits
    · rcases List.mem_append.mp member with old | new
      · exact exact.bas t x old
      · cases List.mem_singleton.mp new
        exact fits.1
    · rw [here]
      show (ba s t ++ [task]).count x + 0 + _ = _ + 0 + ((s.thread t).forked ++ [task]).count x
      rw [List.count_append,List.count_append]
      omega
  | count qid =>
    refine exactTurn exact inside ⟨trivial,fun q => ?_,own.received,own.forks,own.merges⟩ rfl (fun x => here ▸ rfl)
    have before := own.posted q
    rw [here] at before
    rw [← before]
    exact tallied (s.thread t).post_cnt qid q 1
  | steal victims =>
    rw [here] at fits
    cases victims with
    | nil => exact exactTurn exact inside (ownAt own trivial (fun qid => here ▸ rfl)) rfl (fun x => here ▸ rfl)
    | cons v rest =>
      have later : Fits E t (.steal rest : Pc D) := fun w member => fits w (List.mem_cons_of_mem v member)
      refine exactPop exact inside (fits v List.mem_cons_self) _ (fun found => ?_) (fun found => ?_) (fun found => ?_)
        (fun x => here ▸ rfl) (fun task x => here ▸ (Nat.zero_add _).symm)
      · cases found with
        | none => exact ownAt own later (fun qid => here ▸ rfl)
        | some task => exact ownAt own (fun _ no => by cases no) (fun qid => here ▸ rfl)
      · cases found <;> rfl
      · cases found <;> rfl
  | work task back =>
    rw [here] at fits
    exact exactTurn exact inside (ownAt own fits (fun qid => here ▸ rfl)) rfl (fun x => here ▸ rfl)
  | push task seen back =>
    rw [here] at fits
    have back' : Fits E t (goBack back : Pc D) := by
      cases back with
      | none => trivial
      | some qid => exact fits qid rfl
    refine exactCon exact inside (fun queue_ => (queue_ ++ [doTask E task seen],at' (s.thread t) (goBack back),_))
      (ownAt own back' (fun qid => ?_)) rfl rfl (fun c member => ?_) (fun x => ?_)
    · rw [here]
      cases back <;> rfl
    · rcases List.mem_append.mp member with old | new
      · exact exact.homes task.qid c old
      · cases List.mem_singleton.mp new
        exact ⟨rfl,seen,rfl⟩
    · have empty : inHands x (goBack back : Pc D) = 0 := by cases back <;> rfl
      rw [here]
      show ((con s task.qid ++ [doTask E task seen]).map Chunk.origin).count x + inHands x (goBack back : Pc D) =
        _ + if task = x then 1 else 0
      rw [List.map_append,List.count_append,empty,List.map_singleton,List.count_singleton]
      simp only [doTask,beq_iff_eq,Nat.add_zero]
  | drainBa qid =>
    rw [here] at fits
    refine exactPop exact inside inside _ (fun found => ?_) (fun found => ?_) (fun found => ?_)
      (fun x => here ▸ rfl) (fun task x => here ▸ (Nat.zero_add _).symm)
    · cases found with
      | none => exact ownAt own fits (fun qid => here ▸ rfl)
      | some task => exact ownAt own (fun _ same => by cases same; exact fits) (fun qid => here ▸ rfl)
    · cases found <;> rfl
    · cases found <;> rfl
  | drainCon qid =>
    rw [here] at fits
    refine exactTake exact inside _ (fun found member => ?_) (fun found => ?_) (fun found => ?_) (fun x => here ▸ rfl)
      (fun chunk x => here ▸ (Nat.zero_add _).symm)
    · cases found with
      | none => exact ownAt own trivial (fun qid => here ▸ rfl)
      | some chunk => exact ownAt own ⟨fits,member chunk rfl⟩ (fun qid => here ▸ rfl)
    · cases found <;> rfl
    · cases found <;> rfl
  | merge chunk qid =>
    rw [here] at fits
    obtain ⟨mine,home,kept⟩ := fits
    refine exactTurn exact inside ⟨mine,fun q => ?_,fun q => ?_,own.forks,fun c member => ?_⟩ rfl (fun x => ?_)
    · have before := own.posted q
      rw [here] at before
      exact before
    · show Function.update (s.thread t).recv_cnt qid ((s.thread t).recv_cnt qid + chunk.is_count.toNat) q =
        (((s.thread t).merged ++ [chunk]).filter (fun c => c.origin.qid = q ∧ c.is_count = true)).length
      rw [tallied,own.received,List.filter_append,List.length_append,filterChunk,home]
    · rcases List.mem_append.mp member with old | new
      · exact own.merges c old
      · cases List.mem_singleton.mp new
        exact ⟨home.symm ▸ mine,kept⟩
    · rw [here]
      show 0 + (((s.thread t).merged ++ [chunk]).map Chunk.origin).count x = (if chunk.origin = x then 1 else 0) + _
      rw [List.map_append,List.count_append,List.map_singleton,List.count_singleton]
      simp only [beq_iff_eq]
      omega

theorem nextExact (exact : Exact E s) {a : Nat × Input} (ok : next E s a = some u) : Exact E u := by
  unfold next plainStep at ok
  split at ok
  · rename_i inside
    cases ok
    exact moveExact exact inside a.2
  · cases ok

theorem startExact (E : Search D) : Exact E (start D) where
  own _ _ := ⟨trivial,fun _ => rfl,fun _ => rfl,List.forall_mem_nil _,List.forall_mem_nil _⟩
  homes _ _ no := by cases no
  bas _ _ no := by cases no
  placed x := by
    have queues : queued E (start D) x = 0 := totalNone (fun _ _ => rfl)
    have hands : total E.activeThreads (fun t => inHands x ((start D).thread t).pc) = 0 := totalNone (fun _ _ => rfl)
    have merged : mergedTimes E (start D) x = 0 := totalNone (fun _ _ => rfl)
    have forked : forkedTimes E (start D) x = 0 := totalNone (fun _ _ => rfl)
    rw [underWay,queues,hands,merged,forked]
    rfl

/- The tasks of a query are forked by the thread that runs it, and merged by it. -/
theorem forkedHere (exact : Exact E s) {x : ComputeTask} :
    forkedTimes E s x = (s.thread (E.runs x.qid)).forked.count x := by
  refine totalOnly (E.runsKnown x.qid) (fun k known other => List.count_eq_zero.mpr fun member => ?_)
  exact other ((exact.own k known).forks x member).1.1.symm

theorem mergedHere (exact : Exact E s) {x : ComputeTask} :
    mergedTimes E s x = ((s.thread (E.runs x.qid)).merged.map Chunk.origin).count x := by
  refine totalOnly (E.runsKnown x.qid) (fun k known other => List.count_eq_zero.mpr fun member => ?_)
  obtain ⟨c,inside,same⟩ := List.mem_map.mp member
  exact other (same ▸ ((exact.own k known).merges c inside).1.1.symm)

/- Every task is counted, so that every merged chunk is. -/
theorem mergedCounts (exact : Exact E s) {t : Nat} (known : t < E.activeThreads) {c : Chunk D}
    (member : c ∈ (s.thread t).merged) : c.is_count = true := by
  obtain ⟨mine,seen,made⟩ := (exact.own t known).merges c member
  have there : 0 < forkedTimes E s c.origin := by
    rw [← exact.placed c.origin,mergedHere exact,mine.1]
    exact Nat.lt_of_lt_of_le (List.count_pos_iff.mpr (List.mem_map_of_mem member)) (Nat.le_add_left _ _)
  rw [forkedHere exact] at there
  rw [made]
  exact ((exact.own _ (E.runsKnown _)).forks c.origin (List.count_pos_iff.mp there)).2

theorem allMergedIff (exact : Exact E s) {qid : Nat} (idle : (s.thread (E.runs qid)).pc = .idle) :
    (s.thread (E.runs qid)).recv_cnt qid = (s.thread (E.runs qid)).post_cnt qid ↔ ∀ x, x.qid = qid → underWay E s x = 0 := by
  have own := exact.own _ (E.runsKnown qid)
  obtain ⟨th,here⟩ : ∃ th, th = s.thread (E.runs qid) := ⟨_,rfl⟩
  rw [← here] at own idle ⊢
  have posted := own.posted qid
  rw [idle] at posted
  have received : th.recv_cnt qid = ((th.merged.map Chunk.origin).filter (·.qid = qid)).length := by
    rw [own.received,List.filter_map,List.length_map]
    refine congrArg List.length (List.filter_congr fun c member => ?_)
    have counts := mergedCounts exact (E.runsKnown qid) (here ▸ member)
    simp [counts]
  have posted' : th.post_cnt qid = (th.forked.filter (·.qid = qid)).length := posted
  have each : ∀ x, x.qid = qid → underWay E s x + ((th.merged.map Chunk.origin).filter (·.qid = qid)).count x =
      (th.forked.filter (·.qid = qid)).count x := by
    rintro x rfl
    have kept : ∀ tasks : List ComputeTask, (tasks.filter (·.qid = x.qid)).count x = tasks.count x :=
      fun tasks => List.count_filter (decide_eq_true rfl)
    rw [kept,kept,here,← mergedHere exact,← forkedHere exact]
    exact exact.placed x
  rw [received,posted']
  constructor
  · intro same x query
    have some' : List.Subperm ((th.merged.map Chunk.origin).filter (·.qid = qid)) (th.forked.filter (·.qid = qid)) := by
      refine List.subperm_ext_iff.mpr (fun y member => ?_)
      have := each y (of_decide_eq_true (List.mem_filter.mp member).2)
      omega
    have perm := some'.perm_of_length_le (Nat.le_of_eq same.symm)
    have := each x query
    have := perm.count_eq x
    omega
  · intro none'
    refine (List.perm_iff_count.mpr fun x => ?_).length_eq
    by_cases query : x.qid = qid
    · have := each x query
      have := none' x query
      omega
    · have away : ∀ tasks : List ComputeTask, (tasks.filter (·.qid = qid)).count x = 0 :=
        fun tasks => List.count_eq_zero.mpr (fun member => query (of_decide_eq_true (List.mem_filter.mp member).2))
      rw [away,away]

end Moves

section Runs

variable {E} {acts : List (Nat × Input × Bool)} {s : Fine (Content D) (Calls D) (Thread D)}

theorem runExact (ok : run (nextFine E) (fresh (start D)) acts = some s) : Exact E s.plain :=
  runHolds (fun _ _ _ one exact => nextExact exact one) ok (freshSafe _ _ _) (startExact E)

theorem stolenExact (ok : run (nextFine E) (fresh (start D)) acts = some s) :
    (∀ x, underWay E s.plain x + mergedTimes E s.plain x = forkedTimes E s.plain x) ∧
      (∀ t, t < E.activeThreads → ∀ c ∈ (s.plain.thread t).merged, Made E c ∧ E.runs c.origin.qid = t) ∧
      ∀ qid, (s.plain.thread (E.runs qid)).pc = .idle →
        ((s.plain.thread (E.runs qid)).recv_cnt qid = (s.plain.thread (E.runs qid)).post_cnt qid ↔
          ∀ x, x.qid = qid → underWay E s.plain x = 0) := by
  have exact := runExact ok
  refine ⟨exact.placed,fun t known c member => ?_,fun qid idle => allMergedIff exact idle⟩
  have merges := (exact.own t known).merges c member
  exact ⟨merges.2,merges.1.1⟩

theorem queuesExact (ok : run (nextFine E) (fresh (start D)) acts = some s) :
    (∀ q, Replays [] ((s.plain.log q).map Prod.snd) (s.plain.objs q) ∧
      (s.plain.log q).flatMap (fun call => pushed call.2) =
        (s.plain.log q).filterMap (fun call => taken call.2) ++ s.plain.objs q) ∧
      (∀ t u q, holder (s.place t) = some q → holder (s.place u) = some q → t = u) ∧
      ∀ t q, s.place t = .leave q → s.word q = true := by
  have safe : Safe E.activeThreads (prog E) s := runSafe ok (freshSafe _ _ _)
  have replayed : Replayed s.plain :=
    runHolds (fun _ _ _ one replayed => nextReplayed replayed one) ok (freshSafe _ _ _) (fun _ => .nil [])
  refine ⟨fun q => ⟨replayed q,?_⟩,safe.alone,fun t q here => safe.locked t q (here ▸ rfl)⟩
  have fifo := replaysFifo (replayed q)
  rw [List.flatMap_map,List.filterMap_map] at fifo
  exact fifo

end Runs

section Ends

variable {E} {s u : State D} {t : Nat}

-- What a thread still does before it is idle, when it is alone.
def leftAt (own : Nat) (waiting : Nat → Nat) : Pc D → Nat
  | .idle => 0
  | .fork _ => 2
  | .count _ => 1
  | .steal victims => 4 + victims.length
  | .work _ none => 3
  | .push _ _ none => 2
  | .work _ (some qid) => 5 * own + 2 * waiting qid + 6
  | .push _ _ (some qid) => 5 * own + 2 * waiting qid + 5
  | .drainBa qid => 5 * own + 2 * waiting qid + 2
  | .drainCon qid => 2 * waiting qid + 1
  | .merge _ qid => 2 * waiting qid + 2

def left (s : State D) (t : Nat) : Nat := leftAt (ba s t).length (fun qid => (con s qid).length) (s.thread t).pc

def weightPc : Pc D → Nat
  | .fork _ => 4
  | .work .. | .push .. => 3
  | .merge .. => 1
  | _ => 0

/- What the tasks that are not merged still cost. -/
def weight (E : Search D) (s : State D) : Nat :=
  4 * total E.activeThreads (fun t => (ba s t).length) + total E.activeThreads (fun t => weightPc (s.thread t).pc) +
    2 * total E.qsize (fun qid => (con s qid).length)

-- The thread drains queues that are not empty.
def Busy (s : State D) (t : Nat) : Prop :=
  match (s.thread t).pc with
  | .drainBa qid => ba s t ≠ [] ∨ con s qid ≠ []
  | .drainCon qid => con s qid ≠ []
  | _ => False

structure Nearer (E : Search D) (s u : State D) (t : Nat) : Prop where
  threads : ∀ k, k ≠ t → u.thread k = s.thread k
  less : left u t < left s t
  most : weight E u ≤ weight E s
  busy : Busy s t → weight E u < weight E s ∨ Busy u t

theorem nearerTurn (inside : t < E.activeThreads) {pc : Pc D} {th : Thread D} (here : (s.thread t).pc = pc)
    (less : leftAt (ba s t).length (fun qid => (con s qid).length) th.pc <
      leftAt (ba s t).length (fun qid => (con s qid).length) pc)
    (most : weightPc th.pc ≤ weightPc pc) (calm : ¬Busy s t) : Nearer E s (turned s t th) t := by
  have now : (turned s t th).thread t = th := Function.update_self ..
  have pcs := threadsChange (u := turned s t th) (fun th => weightPc th.pc) inside (fun k other => turnedOther s th other)
  refine ⟨fun k other => turnedOther s th other,?_,?_,fun busy => absurd busy calm⟩
  · unfold left
    rw [now,here]
    exact less
  · rw [now,here] at pcs
    show 4 * total E.activeThreads (fun t => (ba s t).length) + _ + 2 * total E.qsize (fun qid => (con s qid).length) ≤ _
    unfold weight
    omega

theorem baChange {v : Nat} (known : v < E.activeThreads) (others : ∀ k, k ≠ v → ba u k = ba s k)
    (away : ∀ qid, con u qid = con s qid) (inside : t < E.activeThreads) (threads : ∀ k, k ≠ t → u.thread k = s.thread k) :
    weight E u + 4 * (ba s v).length + weightPc (s.thread t).pc =
      weight E s + 4 * (ba u v).length + weightPc (u.thread t).pc := by
  have queues := @totalChange (fun k => (ba s k).length) (fun k => (ba u k).length) _ _ known
    (fun k other => by rw [others k other])
  have pcs := threadsChange (fun th => weightPc th.pc) inside threads
  unfold weight
  rw [funext away]
  omega

theorem conChange {qid : Nat} (known : qid < E.qsize) (others : ∀ q, q ≠ qid → con u q = con s q)
    (away : ∀ k, ba u k = ba s k) (inside : t < E.activeThreads) (threads : ∀ k, k ≠ t → u.thread k = s.thread k) :
    weight E u + 2 * (con s qid).length + weightPc (s.thread t).pc =
      weight E s + 2 * (con u qid).length + weightPc (u.thread t).pc := by
  have queues := @totalChange (fun q => (con s q).length) (fun q => (con u q).length) _ _ known
    (fun q other => by rw [others q other])
  have pcs := threadsChange (fun th => weightPc th.pc) inside threads
  unfold weight
  rw [funext away]
  omega

theorem nearerBa (inside : t < E.activeThreads) {v : Nat} (known : v < E.activeThreads)
    (act : List ComputeTask → List ComputeTask × Thread D × Event ComputeTask)
    (less : ∀ own, (v = t → own = (act (ba s v)).1.length) →
      leftAt own (fun qid => (con s qid).length) (act (ba s v)).2.1.pc < left s t)
    (most : 4 * (act (ba s v)).1.length + weightPc (act (ba s v)).2.1.pc ≤
      4 * (ba s v).length + weightPc (s.thread t).pc)
    (busy : Busy s t → 4 * (act (ba s v)).1.length + weightPc (act (ba s v)).2.1.pc <
      4 * (ba s v).length + weightPc (s.thread t).pc ∨ ∃ qid, (act (ba s v)).2.1.pc = .drainCon qid ∧ con s qid ≠ []) :
    Nearer E s (committed s t ⟨.ba v,act⟩ (s.objs (.ba v))) t := by
  obtain ⟨u,this,now,threads,here,others,away⟩ := committedBa s t v act
  have change := baChange known others away inside threads
  rw [here,now] at change
  refine this ▸ ⟨threads,?_,by omega,fun busy' => (busy busy').imp (fun _ => by omega) ?_⟩
  · unfold left
    rw [now,funext away]
    exact less _ (fun same => same ▸ congrArg List.length here)
  · rintro ⟨qid,pc,some'⟩
    unfold Busy
    rw [now,pc]
    show con u qid ≠ []
    rw [away]
    exact some'

theorem nearerCon (inside : t < E.activeThreads) {qid : Nat} (known : qid < E.qsize)
    (act : List (Chunk D) → List (Chunk D) × Thread D × Event (Chunk D))
    (less : ∀ waiting : Nat → Nat, waiting qid = (act (con s qid)).1.length → (∀ q, q ≠ qid → waiting q = (con s q).length) →
      leftAt (ba s t).length waiting (act (con s qid)).2.1.pc < left s t)
    (most : 2 * (act (con s qid)).1.length + weightPc (act (con s qid)).2.1.pc ≤
      2 * (con s qid).length + weightPc (s.thread t).pc)
    (busy : Busy s t → 2 * (act (con s qid)).1.length + weightPc (act (con s qid)).2.1.pc <
      2 * (con s qid).length + weightPc (s.thread t).pc) :
    Nearer E s (committed s t ⟨.con qid,act⟩ (s.objs (.con qid))) t := by
  obtain ⟨u,this,now,threads,here,others,away⟩ := committedCon s t qid act
  have change := conChange known others away inside threads
  rw [here,now] at change
  refine this ▸ ⟨threads,?_,by omega,fun busy' => Or.inl (by have := busy busy'; omega)⟩
  unfold left
  rw [now,away]
  exact less _ (congrArg List.length here) (fun q other => congrArg List.length (others q other))

/- A task that is anywhere is of a known query. -/
theorem underWayKnown (exact : Exact E s) {x : ComputeTask} (waits : 0 < underWay E s x) : x.qid < E.qsize := by
  have placed := exact.placed x
  rw [forkedHere exact] at placed
  have member : 0 < (s.thread (E.runs x.qid)).forked.count x := by omega
  exact ((exact.own _ (E.runsKnown _)).forks x (List.count_pos_iff.mp member)).1.2

theorem handKnown (exact : Exact E s) (inside : t < E.activeThreads) {x : ComputeTask} (held : 0 < inHands x (s.thread t).pc) :
    x.qid < E.qsize := by
  have least := totalLeast inside (fun k => inHands x (s.thread k).pc)
  refine underWayKnown exact ?_
  unfold underWay
  omega

theorem moveNearer (exact : Exact E s) (inside : t < E.activeThreads) (i : Input) (called' : (s.thread t).pc ≠ .idle) :
    Nearer E s (plainMove (prog E) s t i) t := by
  have fits := (exact.own t inside).fits
  have calm : ∀ {pc : Pc D}, (s.thread t).pc = pc → (∀ qid, pc ≠ .drainBa qid) → (∀ qid, pc ≠ .drainCon qid) → ¬Busy s t := by
    intro pc here no no' busy
    unfold Busy at busy
    rw [here] at busy
    split at busy <;> first | exact no _ rfl | exact no' _ rfl | exact busy
  unfold plainMove prog
  cases here : (s.thread t).pc with
  | idle => exact absurd here called'
  | fork task =>
    refine nearerBa inside inside (fun queue_ => (queue_ ++ [task],_,_)) (fun _ _ => ?_) ?_
      (fun busy => absurd busy (calm here nofun nofun))
    · unfold left
      rw [here]
      exact Nat.lt_succ_self _
    · rw [here,List.length_append]
      exact Nat.le_refl _
  | count qid => exact nearerTurn inside here (Nat.lt_succ_self _) (Nat.le_refl _) (calm here nofun nofun)
  | steal victims =>
    cases victims with
    | nil => exact nearerTurn inside here (Nat.succ_pos _) (Nat.le_refl _) (calm here nofun nofun)
    | cons v rest =>
      rw [here] at fits
      refine nearerBa inside (fits v List.mem_cons_self) (fun queue_ => ((pop queue_).1,_,.pop (pop queue_).2))
        (fun _ _ => ?_) ?_ (fun busy => absurd busy (calm here nofun nofun))
      · unfold left
        rw [here]
        cases ba s v with
        | nil => exact Nat.lt_succ_self _
        | cons task queue_ => exact Nat.lt_of_lt_of_le (Nat.lt_succ_self 3) (Nat.le_add_right 4 _)
      · rw [here]
        cases ba s v with
        | nil => exact Nat.le_refl _
        | cons task queue_ => exact Nat.add_le_add_left (by decide : 3 ≤ 4) _
  | work task back =>
    refine nearerTurn inside here ?_ (Nat.le_refl _) (calm here nofun nofun)
    cases back <;> exact Nat.lt_succ_self _
  | push task seen back =>
    have known : task.qid < E.qsize := handKnown exact inside (by rw [here]; exact Nat.lt_of_lt_of_eq Nat.one_pos (if_pos rfl).symm)
    refine nearerCon inside known (fun queue_ => (queue_ ++ [doTask E task seen],_,_)) (fun waiting grown others => ?_) ?_
      (fun busy => absurd busy (calm here nofun nofun))
    · unfold left
      rw [here]
      rw [List.length_append] at grown
      cases back with
      | none => exact Nat.succ_pos _
      | some qid =>
        have most : waiting qid ≤ (con s qid).length + 1 := by
          rcases eq_or_ne qid task.qid with rfl | other
          · exact Nat.le_of_eq grown
          · exact (others qid other).symm ▸ Nat.le_succ _
        show 5 * (ba s t).length + 2 * waiting qid + 2 < 5 * (ba s t).length + 2 * (con s qid).length + 5
        omega
    · rw [here,List.length_append]
      cases back <;> exact Nat.le_succ _
  | drainBa qid =>
    refine nearerBa inside inside (fun queue_ => ((pop queue_).1,_,.pop (pop queue_).2)) (fun own same => ?_) ?_
      (fun busy => ?_)
    · have own' := same rfl
      unfold left
      rw [here]
      cases held : ba s t with
      | nil => exact Nat.lt_of_lt_of_le (Nat.lt_succ_self _) (Nat.add_le_add_right (Nat.le_add_left _ _) 2)
      | cons task queue_ =>
        rw [held] at own'
        have own'' : own = queue_.length := own'
        show 5 * own + 2 * _ + 6 < 5 * (queue_.length + 1) + 2 * _ + 2
        omega
    · rw [here]
      cases ba s t with
      | nil => exact Nat.le_refl _
      | cons task queue_ => exact Nat.add_le_add_left (by decide : 3 ≤ 4) _
    · unfold Busy at busy
      rw [here] at busy ⊢
      cases held : ba s t with
      | nil => exact Or.inr ⟨qid,rfl,busy.resolve_left (fun no => no held)⟩
      | cons task queue_ => exact Or.inl (Nat.add_lt_add_left (by decide : 3 < 4) _)
  | drainCon qid =>
    rw [here] at fits
    refine nearerCon inside fits.2 (fun queue_ => ((pop queue_).1,_,.pop (pop queue_).2)) (fun waiting kept _ => ?_) ?_
      (fun busy => ?_)
    · unfold left
      rw [here]
      cases held : con s qid with
      | nil => exact Nat.succ_pos _
      | cons chunk queue_ =>
        rw [held] at kept
        have kept' : waiting qid = queue_.length := kept
        show 2 * waiting qid + 2 < 2 * (con s qid).length + 1
        rw [held,kept',List.length_cons]
        omega
    · rw [here]
      cases con s qid with
      | nil => exact Nat.le_refl _
      | cons chunk queue_ => exact Nat.add_le_add_left (by decide : 1 ≤ 2) _
    · unfold Busy at busy
      rw [here] at busy ⊢
      cases held : con s qid with
      | nil => exact absurd held busy
      | cons chunk queue_ => exact Nat.add_lt_add_left (by decide : 1 < 2) _
  | merge chunk qid => exact nearerTurn inside here (Nat.lt_succ_self _) (Nat.zero_le _) (calm here nofun nofun)

theorem nextMove (inside : t < E.activeThreads) (i : Input) : next E s (t,i) = some (plainMove (prog E) s t i) := if_pos inside

/- A thread that moves alone returns from its call. -/
theorem returnsAlone (i : Input) (exact : Exact E s) (inside : t < E.activeThreads) : ∃ moves u,
    run (next E) s moves = some u ∧ Exact E u ∧ (u.thread t).pc = .idle ∧ (∀ k, k ≠ t → u.thread k = s.thread k) ∧
      weight E u ≤ weight E s ∧ (Busy s t → weight E u < weight E s) := by
  -- on what the thread still does
  induction more : left s t using Nat.strongRecOn generalizing s with
  | ind more' ih =>
    by_cases idle : (s.thread t).pc = .idle
    · refine ⟨[],s,rfl,exact,idle,fun _ _ => rfl,Nat.le_refl _,fun busy => ?_⟩
      unfold Busy at busy
      rw [idle] at busy
      exact busy.elim
    · have nearer := moveNearer exact inside i idle
      obtain ⟨moves,u,ok,exact',idle',others,most,less⟩ := ih _ (more ▸ nearer.less) (moveExact exact inside i) rfl
      refine ⟨(t,i) :: moves,u,(runCons (nextMove inside i) moves).trans ok,exact',idle',
        fun k other => (others k other).trans (nearer.threads k other),most.trans nearer.most,fun busy => ?_⟩
      rcases nearer.busy busy with less' | busy'
      · exact Nat.lt_of_le_of_lt most less'
      · exact Nat.lt_of_lt_of_le (less busy') nearer.most

def Idle (E : Search D) (s : State D) : Prop := ∀ t, t < E.activeThreads → (s.thread t).pc = .idle

def awake : Pc D → Nat
  | .idle => 0
  | _ => 1

theorem awakeIdle {pc : Pc D} (none' : ¬0 < awake pc) : pc = .idle := by
  cases pc <;> first | rfl | exact absurd Nat.one_pos none'

theorem returnsAll (i : Input) (exact : Exact E s) : ∃ moves u, run (next E) s moves = some u ∧ Exact E u ∧ Idle E u := by
  have nearer : ∀ v, Exact E v → ¬Idle E v → ∃ moves u, run (next E) v moves = some u ∧ Exact E u ∧
      total E.activeThreads (fun k => awake (u.thread k).pc) < total E.activeThreads (fun k => awake (v.thread k).pc) := by
    intro v exact' busy
    obtain ⟨t,inside,busy'⟩ : ∃ t, t < E.activeThreads ∧ (v.thread t).pc ≠ .idle := by
      simpa only [Idle,not_forall,exists_prop] using busy
    obtain ⟨moves,u,ok,exact'',idle,others,-⟩ := returnsAlone i exact' inside
    refine ⟨moves,u,ok,exact'',totalLess inside ?_ (fun k other => by rw [others k other])⟩
    rw [idle]
    exact Nat.pos_of_ne_zero (fun none' => busy' (awakeIdle (Nat.not_lt.mpr (Nat.le_of_eq none'))))
  obtain ⟨calls,u,ok,kept,idle⟩ := reachesEnd _ nearer exact
  exact ⟨calls.flatten,u,runFlatten s calls ▸ ok,kept,idle⟩

/- A thread without a call drains the queues of a query that it runs. -/
theorem drains (i : Input) (exact : Exact E s) (idle : Idle E s) {qid : Nat} (known : qid < E.qsize)
    (some' : ba s (E.runs qid) ≠ [] ∨ con s qid ≠ []) :
    ∃ moves u, run (next E) s moves = some u ∧ (Exact E u ∧ Idle E u) ∧ weight E u < weight E s := by
  have inside := E.runsKnown qid
  obtain ⟨v,moved⟩ : ∃ v, v = plainMove (prog E) s (E.runs qid) ⟨.drain qid,i.seen⟩ := ⟨_,rfl⟩
  have there : v = turned s (E.runs qid) (at' (s.thread (E.runs qid)) (.drainBa qid)) := by
    rw [moved]
    unfold plainMove prog
    rw [idle _ inside]
    exact congrArg (turned s (E.runs qid)) (if_pos ⟨rfl,known⟩)
  have now : v.thread (E.runs qid) = at' (s.thread (E.runs qid)) (.drainBa qid) := there ▸ Function.update_self ..
  have others : ∀ k, k ≠ E.runs qid → v.thread k = s.thread k := fun k other => there ▸ turnedOther s _ other
  have same : weight E v = weight E s := by
    have pcs := threadsChange (fun th => weightPc th.pc) inside others
    rw [now,idle _ inside] at pcs
    have objs : ba v = ba s ∧ con v = con s := there ▸ ⟨rfl,rfl⟩
    unfold weight
    rw [objs.1,objs.2]
    have pcs' : total E.activeThreads (fun k => weightPc (v.thread k).pc) + 0 = _ + 0 := pcs
    omega
  have busy : Busy v (E.runs qid) := by
    unfold Busy
    rw [now]
    exact there ▸ some'
  obtain ⟨moves,u,ok,exact',idle',others',-,less⟩ := returnsAlone i (moved ▸ moveExact exact inside _) inside
  refine ⟨_ :: moves,u,(runCons (moved ▸ nextMove inside _) moves).trans ok,⟨exact',fun k known' => ?_⟩,same ▸ less busy⟩
  rcases eq_or_ne k (E.runs qid) with rfl | other
  · exact idle'
  · rw [others' k other,others k other]
    exact idle k known'

theorem emptied (i : Input) (exact : Exact E s) :
    ∃ moves u, run (next E) s moves = some u ∧ Exact E u ∧ Idle E u ∧ ∀ x, underWay E u x = 0 := by
  have nearer : ∀ w, Exact E w ∧ Idle E w → ¬(∀ x, underWay E w x = 0) → ∃ moves u, run (next E) w moves = some u ∧
      (Exact E u ∧ Idle E u) ∧ weight E u < weight E w := by
    intro w inv busy
    obtain ⟨x,waits⟩ := not_forall.mp busy
    have known := underWayKnown inv.1 (Nat.pos_of_ne_zero waits)
    have hands : total E.activeThreads (fun t => inHands x (w.thread t).pc) = 0 :=
      totalNone (fun k known => by rw [inv.2 k known]; rfl)
    refine drains i inv.1 inv.2 known ?_
    by_contra none'
    obtain ⟨own,waiting⟩ := not_or.mp none'
    refine waits ?_
    have queues : queued E w x = 0 := by
      refine totalNone fun k known => List.count_eq_zero.mpr fun member => own ?_
      exact (inv.1.bas k x member).1 ▸ List.ne_nil_of_mem member
    rw [underWay,queues,hands,chunks,not_not.mp waiting]
    rfl
  obtain ⟨moves,v,ok,start'⟩ := returnsAll i exact
  obtain ⟨calls,u,ok',kept,none'⟩ := reachesEnd _ nearer start'
  exact ⟨moves ++ calls.flatten,u,runJoin ok (runFlatten v calls ▸ ok'),kept.1,kept.2,none'⟩

/- Whatever was done so far, the threads can return from their calls with every task merged. -/
theorem workEnds {acts : List (Nat × Input × Bool)} {s : Fine (Content D) (Calls D) (Thread D)}
    (ok : run (nextFine E) (fresh (start D)) acts = some s) : ∃ more u, run (nextFine E) s more = some u ∧
      (∀ t, t < E.activeThreads → u.place t = .free ∧ (u.plain.thread t).pc = .idle) ∧
      (∀ x, underWay E u.plain x = 0 ∧ mergedTimes E u.plain x = forkedTimes E u.plain x) ∧
      ∀ qid, (u.plain.thread (E.runs qid)).recv_cnt qid = (u.plain.thread (E.runs qid)).post_cnt qid := by
  have i : Input := ⟨.workSteal,fun _ => true⟩
  obtain ⟨more,u,ok',quiet,exact,idle,none'⟩ := reaches (fun _ _ _ one exact => nextExact exact one)
    (fun _ exact => emptied i exact) (runSafe ok (freshSafe _ _ _)) (runExact ok) i
  refine ⟨more,u,ok',fun t known => ⟨quiet t known,idle t known⟩,fun x => ⟨none' x,?_⟩,fun qid => ?_⟩
  · have placed := exact.placed x
    rw [none',Nat.zero_add] at placed
    exact placed
  · exact (allMergedIff exact (idle _ (E.runsKnown qid))).mpr (fun x _ => none' x)

end Ends

section TwoThreads

def twoThreads : Search Nat := ⟨2,2,1,fun _ => 0,0,1,fun _ => 0,fun _ => Nat.two_pos,fun offset d => offset + d,fun _ v => v⟩

def calls (t n : Nat) (call : Call) : List (Nat × Input × Bool) := List.replicate n (t,⟨call,fun _ => false⟩,false)

-- The second thread steals what the first one forked.
def stolenRun : List (Nat × Input × Bool) := calls 0 7 (.expand 0 2 5) ++ calls 1 17 .workSteal ++ calls 0 17 (.drain 0)

-- What the first thread has in the end.
def seenAt (s : Fine (Content Nat) (Calls Nat) (Thread Nat)) : List Nat × List (List (Nat × Nat)) :=
  ([awake (s.plain.thread 0).pc,(s.plain.thread 0).recv_cnt 0,(s.plain.thread 0).post_cnt 0],
    (s.plain.thread 0).merged.map Chunk.elems)

theorem stolenRuns : (run (nextFine twoThreads) (fresh (start Nat)) stolenRun).map seenAt = some ([0,1,1],[[(5,5),(6,6)]]) := by
  decide +kernel

theorem stolenExactTwo : ∃ s, run (nextFine twoThreads) (fresh (start Nat)) stolenRun = some s ∧
    (s.plain.thread 0).merged.map Chunk.elems = [[(5,5),(6,6)]] ∧ ∀ x, x.qid = 0 → underWay twoThreads s.plain x = 0 := by
  obtain ⟨s,ok,seen⟩ := Option.map_eq_some_iff.mp stolenRuns
  simp only [seenAt,Prod.mk.injEq,List.cons.injEq,and_true] at seen
  obtain ⟨⟨idle,received,posted⟩,merged⟩ := seen
  have idle' : (s.plain.thread 0).pc = .idle := awakeIdle (Nat.not_lt.mpr (Nat.le_of_eq idle))
  exact ⟨s,ok,merged,((stolenExact ok).2.2 0 idle').mp (received.trans posted.symm)⟩

theorem queuesExactTwo : ∃ s, run (nextFine twoThreads) (fresh (start Nat)) stolenRun = some s ∧
    Replays [] ((s.plain.log (.ba 0)).map Prod.snd) (s.plain.objs (.ba 0)) := by
  obtain ⟨s,ok,-⟩ := Option.map_eq_some_iff.mp stolenRuns
  exact ⟨s,ok,((queuesExact ok).1 (.ba 0)).1⟩

theorem forkRuns : (run (nextFine twoThreads) (fresh (start Nat)) (calls 0 7 (.expand 0 2 5))).map seenAt = some ([0,0,1],[]) := by
  decide +kernel

theorem workEndsTwo : ∃ s more u, run (nextFine twoThreads) (fresh (start Nat)) (calls 0 7 (.expand 0 2 5)) = some s ∧
    (s.plain.thread 0).recv_cnt 0 = 0 ∧ (s.plain.thread 0).post_cnt 0 = 1 ∧ run (nextFine twoThreads) s more = some u ∧
    (u.plain.thread 0).recv_cnt 0 = (u.plain.thread 0).post_cnt 0 := by
  obtain ⟨s,ok,seen⟩ := Option.map_eq_some_iff.mp forkRuns
  simp only [seenAt,Prod.mk.injEq,List.cons.injEq,and_true] at seen
  obtain ⟨more,u,ok',-,-,same⟩ := workEnds ok
  exact ⟨s,more,u,ok,seen.1.2.1,seen.1.2.2,ok',same 0⟩

end TwoThreads

end CoTra.WorkSteal
