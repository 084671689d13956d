import CoTra.WriteBuffer

/-! Batches of queries (exec_query.h: ScalaANN_v3; scala_search.h: scala_search_init,
scala_search_sub_standby, check_term; rdma_comm.cc: send_term, reset_term,
reset_sendrecv; task_manager.h: clear). One thread of every machine over the write
buffers; a batch ends by termination flags, there is no barrier. What a coroutine
does with an entry is left open: it may put new entries into any queue. Released ids
are read either way; a message keeps its batch whatever becomes of its slot. -/
namespace CoTra.Batches
open Runs WriteBuffer

inductive Work where
  | task | result | nodeResult | nodeSync | query | sync
  deriving DecidableEq, Repr

def Work.control : Work → ControlType
  | .task => .task
  | .result => .result
  | .nodeResult => .nodeResult
  | .nodeSync => .nodeSync
  | .query => .query
  | .sync => .sync

def workOf : ControlType → Option Work
  | .task => some .task
  | .result => some .result
  | .nodeResult => some .nodeResult
  | .nodeSync => some .nodeSync
  | .query => some .query
  | .sync => some .sync
  | _ => none

/- The queues of a TaskManager, those towards a machine with its id, and the work that
is kept in the query objects themselves (global_query). -/
inductive Queue (n : Nat) where
  | curTask | nextTask | curNode | result | nodeResult | query | subquery | nextSubquery | globalQuery
  | taskTo (m : Fin n)
  | nodeTaskTo (m : Fin n)
  | resultTo (m : Fin n)
  | nodeResultTo (m : Fin n)
  | noncoreSyncTo (m : Fin n)
  deriving DecidableEq

inductive Stage where
  | ready
  | search
  | sendTerm (m : Nat)
  | standby
  | reset (m : Nat)
  | done
  deriving DecidableEq, Repr

/- An entry of a queue is the batch it comes from: a history value that no operation
reads, as are `batch` itself and the batches of the TERMINATION messages taken. -/
structure Machine (n : Nat) where
  batch : Nat
  stage : Stage
  loadCnt : Nat
  term : Fin n → Bool
  termBatches : Fin n → List Nat
  rbuf : Work → List Nat
  tman : Queue n → List Nat

structure Net (n : Nat) where
  comm : WriteBuffer.Net n
  machine : Fin n → Machine n

def start (n : Nat) : Net n :=
  ⟨comWriteInit n,fun _ => ⟨0,.done,0,fun _ => false,fun _ => [],fun _ => [],fun _ => []⟩⟩

variable {n : Nat}

-- deserialize_*: where poll_task_result puts what it takes from the receive queues.
def deserialize : Work → List (Queue n)
  | .task => [.curTask,.curNode]
  | .result => [.result]
  | .nodeResult => [.nodeResult]
  | .nodeSync => [.globalQuery,.subquery]
  | .query => [.globalQuery,.query]
  | .sync => [.globalQuery,.subquery]

-- serialize_*: what a message to m is made of. SYNC and QUERY are made of the query object.
def serialize (m : Fin n) : Work → List (Queue n)
  | .task => [.taskTo m,.nodeTaskTo m]
  | .result => [.resultTo m]
  | .nodeResult => [.nodeResultTo m]
  | .nodeSync => [.noncoreSyncTo m]
  | .query => [.globalQuery]
  | .sync => [.globalQuery]

-- scala_sub_proc_v5 goes through these, and the coroutines through the query objects.
def isProcessed : Queue n → Bool
  | .curTask | .curNode | .result | .nodeResult | .query | .subquery | .globalQuery => true
  | _ => false

-- TaskManager::clear, and scala_search_init makes new query objects.
def isCleared : Queue n → Bool
  | .taskTo _ | .resultTo _ | .result | .curTask | .nextTask | .globalQuery => true
  | _ => false

def push (tman : Queue n → List Nat) (batch : Nat) (made : List (Queue n)) : Queue n → List Nat :=
  made.foldl (fun t q => Function.update t q (t q ++ [batch])) tman

def setMachine (s : Net n) (a : Fin n) (m : Machine n) : Net n :=
  { s with machine := Function.update s.machine a m }

def resetTerm (m : Machine n) : Machine n :=
  { m with batch := m.batch+1, stage := .ready, term := fun _ => false }

def scalaSearchInit (m : Machine n) : Machine n :=
  { m with stage := .search, loadCnt := 0, tman := fun q => if isCleared q then [] else m.tman q }

def swapTaskQueue (m : Machine n) : Machine n :=
  { m with tman := Function.update (Function.update (Function.update (Function.update m.tman .curTask (m.tman .nextTask))
      .nextTask []) .subquery (m.tman .nextSubquery)) .nextSubquery [] }

/- A completion of poll_recv that is not RELEASE or CLEAR. -/
def receive (m : Machine n) (p : Fin n) (msg : Message) : Machine n :=
  match workOf msg.control with
  | some k => { m with rbuf := Function.update m.rbuf k (m.rbuf k ++ msg.words) }
  | none =>
    if msg.control = .termination then
      { m with
        term := Function.update m.term p true
        termBatches := Function.update m.termBatches p (m.termBatches p ++ msg.words) }
    else m

def isWorking : Stage → Bool
  | .search | .standby => true
  | _ => false

def isPolling : Stage → Bool
  | .search | .sendTerm _ | .standby | .reset _ => true
  | _ => false

-- What a message comes from: the batch it is made in, or an older entry in it.
def madeIn (m : Machine n) (qs : List (Queue n)) : Nat := (qs.flatMap m.tman).foldl min m.batch

def postWork (s : Net n) (a b : Fin n) (k : Work) : Option (Net n) := do
  let comm ← sendNormal s.comm (a,b) k.control [madeIn (s.machine a) (serialize b k)]
  some ⟨comm,Function.update s.machine a { s.machine a with
    tman := fun q => if q ∈ serialize b k ∧ q ≠ .globalQuery then [] else (s.machine a).tman q }⟩

inductive Act (n : Nat) where
  | initTerm (a : Fin n)
  | searchInit (a : Fin n)
  | coro (a : Fin n) (made : List (Queue n))
  | procRes (a : Fin n)
  | sendTerm (a : Fin n)
  | poll (p a : Fin n)
  | collect (a : Fin n) (k : Work) (made : List (Queue n))
  | swap (a : Fin n)
  | proc (a : Fin n) (q : Queue n) (made : List (Queue n))
  | post (a b : Fin n) (k : Work)
  | checkTerm (a : Fin n)
  | clear (a : Fin n)
  | resetNext (a : Fin n)

def step (reading : Reading) (queryLoad : Nat) (s : Net n) : Act n → Option (Net n)
  | .initTerm a =>
    if (s.machine a).stage = .done then some (setMachine s a (resetTerm (s.machine a))) else none
  | .searchInit a =>
    if (s.machine a).stage = .ready then some (setMachine s a (scalaSearchInit (s.machine a))) else none
  | .coro a made =>
    if (s.machine a).stage = .search then
      some (setMachine s a { s.machine a with tman := push (s.machine a).tman (s.machine a).batch made })
    else none
  | .procRes a =>
    if (s.machine a).stage = .search ∧ (s.machine a).loadCnt < queryLoad then
      some (setMachine s a { s.machine a with loadCnt := (s.machine a).loadCnt+1 })
    else none
  | .sendTerm a =>
    match (s.machine a).stage with
    | .search =>
      if queryLoad ≤ (s.machine a).loadCnt then some (setMachine s a { s.machine a with stage := .sendTerm 0 }) else none
    | .sendTerm m =>
      if h : m < n then
        if (⟨m,h⟩ : Fin n) = a then
          some (setMachine s a { s.machine a with
            stage := .sendTerm (m+1), term := Function.update (s.machine a).term a true })
        else (sendNormal s.comm (a,⟨m,h⟩) .termination [(s.machine a).batch]).map (fun comm =>
          ⟨comm,Function.update s.machine a { s.machine a with stage := .sendTerm (m+1) }⟩)
      else some (setMachine s a { s.machine a with stage := .standby })
    | _ => none
  | .poll p a =>
    match s.comm.channel (p,a) with
    | [] => none
    | msg :: _ =>
      if p ≠ a ∧ isPolling (s.machine a).stage then
        (pollRecv reading s.comm (p,a)).map (fun comm =>
          ⟨comm,Function.update s.machine a (receive (s.machine a) p msg)⟩)
      else none
  | .collect a k made =>
    match (s.machine a).rbuf k with
    | [] => none
    | t :: rest =>
      if isWorking (s.machine a).stage ∧ ∀ q ∈ made, q ∈ deserialize k then
        some (setMachine s a { s.machine a with
          rbuf := Function.update (s.machine a).rbuf k rest
          tman := push (s.machine a).tman (min t (s.machine a).batch) made })
      else none
  | .swap a =>
    if isWorking (s.machine a).stage then some (setMachine s a (swapTaskQueue (s.machine a))) else none
  | .proc a q made =>
    match (s.machine a).tman q with
    | [] => none
    | t :: rest =>
      if isWorking (s.machine a).stage ∧ isProcessed q then
        some (setMachine s a { s.machine a with
          tman := push (Function.update (s.machine a).tman q rest) (min t (s.machine a).batch) made })
      else none
  | .post a b k =>
    if a ≠ b ∧ isWorking (s.machine a).stage then postWork s a b k else none
  | .checkTerm a =>
    if (s.machine a).stage = .standby ∧ ∀ m, (s.machine a).term m = true then
      some (setMachine s a { s.machine a with stage := .reset 0 })
    else none
  | .clear a =>
    match (s.machine a).stage with
    | .reset _ => (clearWriteRelease s.comm a).map (fun comm => { s with comm := comm })
    | _ => none
  | .resetNext a =>
    match (s.machine a).stage with
    | .reset m =>
      if h : m < n then
        if resetWaits s.comm (a,⟨m,h⟩) then none
        else some (setMachine s a { s.machine a with stage := .reset (m+1) })
      else some (setMachine s a { s.machine a with stage := .done })
    | _ => none

/- The queues that TaskManager::clear leaves as they are. -/
def keptQueues (n : Nat) : List (Queue n) :=
  [.curNode,.nodeResult,.query,.subquery,.nextSubquery] ++
    (List.finRange n).flatMap (fun m => [.nodeTaskTo m,.nodeResultTo m,.noncoreSyncTo m])

def allWork : List Work := [.task,.result,.nodeResult,.nodeSync,.query,.sync]

/- When a machine begins its next batch, nothing is on the way to it, in its receive
queues or in a queue that is not cleared. -/
def NothingLeft (s : Net n) (a : Fin n) : Prop :=
  (∀ p, p ≠ a → ∀ msg ∈ s.comm.channel (p,a), workOf msg.control = none) ∧
  (∀ k ∈ allWork, (s.machine a).rbuf k = []) ∧ ∀ q ∈ keptQueues n, (s.machine a).tman q = []
instance (s : Net n) (a : Fin n) : Decidable (NothingLeft s a) :=
  inferInstanceAs (Decidable ((∀ p, p ≠ a → ∀ msg ∈ s.comm.channel (p,a), workOf msg.control = none) ∧
    (∀ k ∈ allWork, (s.machine a).rbuf k = []) ∧ ∀ q ∈ keptQueues n, (s.machine a).tman q = []))

def Settled (s : Net n) : Act n → Prop
  | .initTerm a => NothingLeft s a
  | .post a b _ => (s.machine b).batch ≤ (s.machine a).batch
  | .poll p a => ∀ msg ∈ (s.comm.channel (p,a)).head?, msg.control = .termination → (s.machine a).term p = false
  | _ => True
instance (s : Net n) : DecidablePred (Settled s)
  | .initTerm a => inferInstanceAs (Decidable (NothingLeft s a))
  | .post a b _ => inferInstanceAs (Decidable ((s.machine b).batch ≤ (s.machine a).batch))
  | .poll p a => inferInstanceAs (Decidable (∀ msg ∈ (s.comm.channel (p,a)).head?,
      msg.control = .termination → (s.machine a).term p = false))
  | .searchInit _ | .coro .. | .procRes _ | .sendTerm _ | .collect .. | .swap _ | .proc .. | .checkTerm _ | .clear _
  | .resetNext _ => .isTrue trivial

/- Nothing of an earlier batch is processed, and a reset erases no flag of its own or a
later batch. -/
def Isolated (s : Net n) : Act n → Prop
  | .collect a k _ => ∀ t ∈ ((s.machine a).rbuf k).head?, (s.machine a).batch ≤ t
  | .proc a q _ => ∀ t ∈ ((s.machine a).tman q).head?, (s.machine a).batch ≤ t
  | .post a b k => ∀ q ∈ serialize b k, ∀ t ∈ (s.machine a).tman q, (s.machine a).batch ≤ t
  | .initTerm a => ∀ p, ∀ t ∈ (s.machine a).termBatches p, t ≤ (s.machine a).batch
  | _ => True

theorem keptOrCleared (q : Queue n) : isCleared q = true ∨ q ∈ keptQueues n := by
  cases q <;> simp [isCleared,keptQueues]

theorem memAllWork (k : Work) : k ∈ allWork := by
  cases k <;> decide

/- What a channel carries besides releases. -/
def carried (msgs : List Message) : List (ControlType × List Nat) :=
  (msgs.filter (fun m => ¬Releasing m.control)).map (fun m => (m.control,m.words))

@[simp] theorem carriedNil : carried [] = [] := rfl

theorem carriedCons (m : Message) (rest : List Message) :
    carried (m :: rest) = (if Releasing m.control then [] else [(m.control,m.words)]) ++ carried rest := by
  by_cases h : Releasing m.control <;> simp [carried,h]

theorem carriedAppend (xs ys : List Message) : carried (xs ++ ys) = carried xs ++ carried ys := by
  simp [carried]

theorem carriedSend {s t : WriteBuffer.Net n} {l : Link n} {control : ControlType} {data : List Nat}
    (normal : ¬Releasing control) (h : sendNormal s l control data = some t) (k : Link n) :
    carried (t.channel k) = carried (s.channel k) ++ if k = l then [(control,data)] else [] := by
  obtain ⟨_,_,_,_,rfl⟩ := sendNormalSource h
  by_cases here : k = l
  · subst k
    simp [postWriteSend,carriedAppend,carriedCons,normal]
  · simp [postWriteSend,here]

theorem carriedRelease {s t : WriteBuffer.Net n} {l : Link n} {control : ControlType} {pop : Bool}
    (releasing : Releasing control) (h : postRelease control pop s l = some t) (k : Link n) :
    carried (t.channel k) = carried (s.channel k) := by
  obtain ⟨_,_,_,rfl⟩ := postReleaseSource h
  by_cases here : k = l
  · subst k
    simp [postWriteSend,carriedAppend,carriedCons,releasing]
  · simp [postWriteSend,here]

theorem carriedClear {s t : WriteBuffer.Net n} {a : Fin n} (h : clearWriteRelease s a = some t) (k : Link n) :
    carried (t.channel k) = carried (s.channel k) := by
  refine foldlMInvariant (fun u => carried (u.channel k) = carried (s.channel k)) ?_ h rfl
  intro u m v ok same
  rcases clearToSource ok with ⟨_,rfl⟩ | posted
  · exact same
  · rw [carriedRelease releasingClear posted,same]

theorem carriedPoll {reading} {s t : WriteBuffer.Net n} {l : Link n} (h : pollRecv reading s l = some t) :
    ∃ msg rest, s.channel l = msg :: rest ∧
      carried (s.channel l) = (if Releasing msg.control then [] else [(msg.control,msg.words)]) ++ carried (t.channel l) ∧
      ∀ k, k ≠ l → carried (t.channel k) = carried (s.channel k) := by
  obtain ⟨msg,rest,head,effect⟩ := pollRecvSource h
  have taken : ∀ k, carried ((takeHead reading s l msg rest).channel k) = if k = l then carried rest else
      carried (s.channel k) := by
    intro k
    by_cases here : k = l
    · subst k
      simp [takeHead]
    · simp [takeHead,here]
  have after : ∀ k, carried (t.channel k) = if k = l then carried rest else carried (s.channel k) := by
    intro k
    rcases effect with ⟨_,rfl⟩ | ⟨_,sent⟩
    · exact taken k
    · rcases sendWriteReleaseSource sent with ⟨rfl,_⟩ | ⟨_,posted⟩
      · exact taken k
      · rw [carriedRelease releasingRelease posted]
        exact taken k
  refine ⟨msg,rest,head,?_,?_⟩
  · rw [head,carriedCons,after l,if_pos rfl]
  · intro k other
    rw [after k,if_neg other]

def termTags (msgs : List Message) : List Nat :=
  (carried msgs).flatMap (fun m => if m.1 = .termination then m.2 else [])

def workTags (msgs : List Message) : List Nat :=
  (carried msgs).flatMap (fun m => if (workOf m.1).isSome then m.2 else [])

/- How many TERMINATION messages a machine has posted to b. -/
def sentTerms (m : Machine n) (b : Fin n) : Nat :=
  match m.stage with
  | .ready => m.batch-1
  | .search => m.batch-1
  | .sendTerm k => if b.val < k then m.batch else m.batch-1
  | .standby => m.batch
  | .reset _ => m.batch
  | .done => m.batch

def isEnding : Stage → Bool
  | .reset _ | .done => true
  | _ => false

structure Local (m : Machine n) (a : Fin n) : Prop where
  rbuf : ∀ k, ∀ t ∈ m.rbuf k, m.batch ≤ t
  tman : ∀ q, isCleared q = false ∨ m.stage ≠ .ready → ∀ t ∈ m.tman q, m.batch ≤ t
  own : m.termBatches a = []
  flags : ∀ p, p ≠ a → (m.termBatches p).length + 1 = m.batch + (m.term p).toNat ∨
    m.batch = 0 ∧ m.termBatches p = []
  early : m.batch = 0 → m.stage = .done
  ending : isEnding m.stage → m.batch = 0 ∨ ∀ p, m.term p = true

structure Inv (s : Net n) : Prop where
  machine : ∀ a, Local (s.machine a) a
  work : ∀ p a, p ≠ a → ∀ t ∈ workTags (s.comm.channel (p,a)), (s.machine a).batch ≤ t
  single : ∀ p a, ∀ msg ∈ carried (s.comm.channel (p,a)), msg.1 = .termination → ∃ t, msg.2 = [t]
  terms : ∀ p a, p ≠ a → (s.machine a).termBatches p ++ termTags (s.comm.channel (p,a)) =
    List.range' 1 (sentTerms (s.machine p) a)

theorem startInv : Inv (start n) := by
  refine ⟨fun a => ⟨?_,?_,rfl,?_,?_,?_⟩,?_,?_,?_⟩
  · intro k t none'
    exact absurd none' List.not_mem_nil
  · intro q _ t none'
    exact absurd none' List.not_mem_nil
  · intro p _
    exact .inr ⟨rfl,rfl⟩
  · intro _
    rfl
  · intro _
    exact .inl rfl
  · intro p a _ t none'
    exact absurd none' List.not_mem_nil
  · intro p a msg none'
    exact absurd none' List.not_mem_nil
  · intro p a _
    rfl

theorem workMem {msgs : List Message} {t : Nat} :
    t ∈ workTags msgs ↔ ∃ m ∈ carried msgs, (workOf m.1).isSome ∧ t ∈ m.2 := by
  rw [workTags,List.mem_flatMap]
  refine exists_congr (fun m => and_congr_right (fun _ => ?_))
  split <;> simp [*]

-- What a step of machine a leaves alone there is as before on every machine.
theorem updatedSame {β : Type} (f : Machine n → β) {machine : Fin n → Machine n} {a : Fin n} {m : Machine n}
    (same : f m = f (machine a)) (c : Fin n) : f (Function.update machine a m c) = f (machine c) := by
  rcases eq_or_ne c a with rfl | other
  · rw [Function.update_self,same]
  · rw [Function.update_of_ne other]

/- A step of machine a that posts nothing. -/
theorem frameInv {s : Net n} (valid : Inv s) {a : Fin n} {m : Machine n} {comm : WriteBuffer.Net n}
    (fewer : ∀ k, ∀ x ∈ carried (comm.channel k), x ∈ carried (s.comm.channel k)) (after : Local m a)
    (batch : m.batch = (s.machine a).batch) (sent : ∀ b, b ≠ a → sentTerms m b = sentTerms (s.machine a) b)
    (seen : ∀ p c, p ≠ c → (Function.update s.machine a m c).termBatches p ++ termTags (comm.channel (p,c)) =
      (s.machine c).termBatches p ++ termTags (s.comm.channel (p,c))) :
    Inv ⟨comm,Function.update s.machine a m⟩ := by
  refine ⟨?_,?_,?_,?_⟩
  · exact (Function.forall_update_iff s.machine (p := fun c m => Local m c)).mpr ⟨after,fun c _ => valid.machine c⟩
  · intro p c apart t member
    obtain ⟨x,inside,work⟩ := workMem.mp member
    dsimp only
    rw [updatedSame Machine.batch batch]
    exact valid.work p c apart t (workMem.mpr ⟨x,fewer _ x inside,work⟩)
  · intro p c msg inside
    exact valid.single p c msg (fewer _ msg inside)
  · intro p c apart
    have sent' : sentTerms (Function.update s.machine a m p) c = sentTerms (s.machine p) c := by
      by_cases mine : p = a
      · subst p
        rw [Function.update_self]
        exact sent c (Ne.symm apart)
      · rw [Function.update_of_ne mine]
    dsimp only
    rw [seen p c apart,sent']
    exact valid.terms p c apart

/- A step that takes no message either. -/
theorem quietInv {s : Net n} (valid : Inv s) {a : Fin n} {m : Machine n} {comm : WriteBuffer.Net n}
    (same : ∀ k, carried (comm.channel k) = carried (s.comm.channel k)) (after : Local m a)
    (batch : m.batch = (s.machine a).batch) (seen : m.termBatches = (s.machine a).termBatches)
    (sent : ∀ b, b ≠ a → sentTerms m b = sentTerms (s.machine a) b) :
    Inv ⟨comm,Function.update s.machine a m⟩ := by
  refine frameInv valid (fun k x inside => by rwa [← same k]) after batch sent (fun p c _ => ?_)
  rw [termTags,termTags,same,updatedSame Machine.termBatches seen]

theorem pushMem {tman : Queue n → List Nat} {b t : Nat} {made : List (Queue n)} {q : Queue n}
    (member : t ∈ push tman b made q) : t ∈ tman q ∨ t = b := by
  induction made generalizing tman with
  | nil => exact .inl member
  | cons r rest ih =>
    rcases ih member with old | new
    · dsimp only at old
      by_cases here : q = r
      · subst q
        rw [Function.update_self] at old
        rcases List.mem_append.mp old with old | new
        · exact .inl old
        · exact .inr (List.mem_singleton.mp new)
      · rw [Function.update_of_ne here] at old
        exact .inl old
    · exact .inr new

/- A step on the queues of a machine. -/
theorem queuesLocal {m : Machine n} {a : Fin n} (before : Local m a) {rbuf : Work → List Nat} {tman : Queue n → List Nat}
    {loadCnt : Nat} (received : ∀ k, ∀ t ∈ rbuf k, m.batch ≤ t)
    (queued : ∀ q, isCleared q = false ∨ m.stage ≠ .ready → ∀ t ∈ tman q, m.batch ≤ t) :
    Local { m with rbuf := rbuf, tman := tman, loadCnt := loadCnt } a :=
  ⟨received,queued,before.own,before.flags,before.early,before.ending⟩

theorem queuesInv {s : Net n} (valid : Inv s) {a : Fin n} {rbuf : Work → List Nat} {tman : Queue n → List Nat}
    {loadCnt : Nat} (received : ∀ k, ∀ t ∈ rbuf k, (s.machine a).batch ≤ t)
    (queued : ∀ q, isCleared q = false ∨ (s.machine a).stage ≠ .ready → ∀ t ∈ tman q, (s.machine a).batch ≤ t) :
    Inv (setMachine s a { s.machine a with rbuf := rbuf, tman := tman, loadCnt := loadCnt }) :=
  quietInv valid (fun _ => rfl) (queuesLocal (valid.machine a) received queued) rfl rfl (fun _ _ => rfl)

theorem workingStage {stage : Stage} (working : isWorking stage = true) : stage ≠ .ready ∧ isEnding stage = false := by
  cases stage <;> simp_all [isWorking,isEnding]

/- A step to another stage, in which no message is posted. -/
theorem stageInv {s : Net n} (valid : Inv s) {a : Fin n} {stage : Stage} {term : Fin n → Bool}
    (later : (s.machine a).stage ≠ .ready) (begun : (s.machine a).stage = .done → stage = .done)
    (flags : ∀ p, p ≠ a → term p = (s.machine a).term p)
    (ending : isEnding stage → (s.machine a).batch = 0 ∨ ∀ p, term p = true)
    (sent : ∀ b, b ≠ a → sentTerms { s.machine a with stage := stage, term := term } b = sentTerms (s.machine a) b) :
    Inv (setMachine s a { s.machine a with stage := stage, term := term }) := by
  have before := valid.machine a
  refine quietInv valid (fun _ => rfl) ⟨before.rbuf,?_,before.own,?_,?_,ending⟩ rfl rfl sent
  · intro q _
    exact before.tman q (.inr later)
  · intro p apart
    simpa only [flags p apart] using before.flags p apart
  · intro zero
    exact begun (before.early zero)

theorem initTermInv {s : Net n} (valid : Inv s) {a : Fin n} (stage : (s.machine a).stage = .done)
    (settled : NothingLeft s a) : Inv (setMachine s a (resetTerm (s.machine a))) := by
  obtain ⟨way,received,queued⟩ := settled
  have before := valid.machine a
  have empty : ∀ p, p ≠ a → workTags (s.comm.channel (p,a)) = [] := by
    intro p apart
    refine List.flatMap_eq_nil_iff.mpr (fun m member => ?_)
    obtain ⟨msg,inside,rfl⟩ := List.mem_map.mp member
    rw [way p apart msg (List.mem_filter.mp inside).1]
    rfl
  have fresh : Local (resetTerm (s.machine a)) a := by
    refine ⟨?_,?_,before.own,?_,?_,?_⟩
    · intro k t member
      rw [resetTerm,received k (memAllWork k)] at member
      exact absurd member List.not_mem_nil
    · intro q kept t member
      rcases kept with kept | other
      · have inside : q ∈ keptQueues n := by
          rcases keptOrCleared q with cleared | inside
          · rw [kept] at cleared
            cases cleared
          · exact inside
        rw [resetTerm,queued q inside] at member
        exact absurd member List.not_mem_nil
      · exact absurd rfl other
    · intro p apart
      refine .inl ?_
      dsimp only [resetTerm,Bool.toNat_false]
      rcases before.flags p apart with count | ⟨zero,none'⟩
      · rcases before.ending (by rw [stage]; rfl) with zero | all
        · have few := Bool.toNat_le ((s.machine a).term p)
          omega
        · rw [all p,Bool.toNat_true] at count
          omega
      · rw [none',zero]
        rfl
    · intro zero
      exact absurd zero (Nat.succ_ne_zero _)
    · intro ending
      cases ending
  refine ⟨?_,?_,valid.single,?_⟩
  · intro c
    by_cases mine : c = a
    · subst c
      simpa [setMachine] using fresh
    · simpa [setMachine,mine] using valid.machine c
  · intro p c apart t member
    by_cases mine : c = a
    · subst c
      have none' := empty p apart
      rw [setMachine] at member
      dsimp only at member
      rw [none'] at member
      exact absurd member List.not_mem_nil
    · have old := valid.work p c apart t member
      simpa [setMachine,mine] using old
  · intro p c apart
    have old := valid.terms p c apart
    have seen : ((setMachine s a (resetTerm (s.machine a))).machine c).termBatches = (s.machine c).termBatches := by
      by_cases mine : c = a
      · subst c
        simp [setMachine,resetTerm]
      · simp [setMachine,mine]
    have sent : sentTerms ((setMachine s a (resetTerm (s.machine a))).machine p) c = sentTerms (s.machine p) c := by
      by_cases mine : p = a
      · subst p
        simp [setMachine,resetTerm,sentTerms,stage]
      · simp [setMachine,mine]
    rw [seen,sent]
    exact old

theorem workNotTerm {control : ControlType} {k : Work} (work : workOf control = some k) : control ≠ .termination := by
  cases control <;> simp_all [workOf]

/- poll_recv at a takes the head of p's channel. -/
theorem pollInv {reading : Reading} {s : Net n} (valid : Inv s) {p a : Fin n} (apart : p ≠ a) (polling : isPolling (s.machine a).stage = true)
    {msg : Message} {rest : List Message} (head : s.comm.channel (p,a) = msg :: rest) {comm : WriteBuffer.Net n}
    (ok : pollRecv reading s.comm (p,a) = some comm)
    (settled : msg.control = .termination → (s.machine a).term p = false) :
    Inv ⟨comm,Function.update s.machine a (receive (s.machine a) p msg)⟩ := by
  obtain ⟨msg',rest',head',front,others⟩ := carriedPoll ok
  rw [head] at head'
  obtain ⟨rfl,rfl⟩ := List.cons.inj head'
  have before := valid.machine a
  have fewer : ∀ k, ∀ x ∈ carried (comm.channel k), x ∈ carried (s.comm.channel k) := by
    intro k x inside
    by_cases here : k = (p,a)
    · subst k
      rw [front]
      exact List.mem_append_right _ inside
    · rwa [← others k here]
  have front' : ¬Releasing msg.control → carried (s.comm.channel (p,a)) = (msg.control,msg.words) :: carried (comm.channel (p,a)) := by
    intro normal
    rwa [if_neg normal] at front
  -- Only a TERMINATION moves a tag from the channel to the machine.
  have seen : ∀ m : Machine n, m.termBatches p ++ termTags (comm.channel (p,a)) =
        (s.machine a).termBatches p ++ termTags (s.comm.channel (p,a)) →
      (∀ q, q ≠ p → m.termBatches q = (s.machine a).termBatches q) →
      ∀ q c, q ≠ c → (Function.update s.machine a m c).termBatches q ++ termTags (comm.channel (q,c)) =
        (s.machine c).termBatches q ++ termTags (s.comm.channel (q,c)) := by
    intro m here else' q c _
    by_cases mine : c = a
    · subst c
      rw [Function.update_self]
      by_cases same : q = p
      · subst q
        exact here
      · rw [else' q same,termTags,others (q,a) (fun e => same (Prod.mk.inj e).1)]
        rfl
    · rw [Function.update_of_ne mine,termTags,others (q,c) (fun e => mine (Prod.mk.inj e).2)]
      rfl
  have kept : msg.control ≠ .termination → termTags (comm.channel (p,a)) = termTags (s.comm.channel (p,a)) := by
    intro other
    rw [termTags,termTags,front]
    split <;> simp [other]
  cases work : workOf msg.control with
  | some k =>
    have normal : ¬Releasing msg.control := by
      rintro (e | e) <;> rw [e] at work <;> cases work
    simp only [receive,work]
    refine frameInv valid fewer (queuesLocal before ?_ before.tman) rfl (fun _ _ => rfl)
      (seen _ (congrArg _ (kept (workNotTerm work))) (fun _ _ => rfl))
    intro l t member
    by_cases here : l = k
    · subst l
      rw [Function.update_self] at member
      rcases List.mem_append.mp member with old | new
      · exact before.rbuf k t old
      · refine valid.work p a apart t (workMem.mpr ⟨(msg.control,msg.words),?_,?_,new⟩)
        · rw [front' normal]
          exact List.mem_cons_self
        · rw [work]
          rfl
    · rw [Function.update_of_ne here] at member
      exact before.rbuf l t member
  | none =>
    simp only [receive,work]
    split
    · rename_i termination
      have normal : ¬Releasing msg.control := by
        rw [termination]
        simp [Releasing]
      obtain ⟨t,words⟩ := valid.single p a (msg.control,msg.words) (by rw [front' normal]; exact List.mem_cons_self) termination
      dsimp only at words
      refine frameInv valid fewer ⟨before.rbuf,before.tman,?_,?_,before.early,?_⟩ rfl (fun _ _ => rfl) (seen _ ?_ ?_)
      · dsimp only
        rw [Function.update_of_ne (Ne.symm apart)]
        exact before.own
      · intro q other
        by_cases same : q = p
        · subst q
          dsimp only
          rw [Function.update_self,Function.update_self,words,List.length_append,List.length_singleton,Bool.toNat_true]
          rcases before.flags p other with count | ⟨zero,_⟩
          · rw [settled termination,Bool.toNat_false] at count
            exact .inl (by omega)
          · rw [before.early zero] at polling
            cases polling
        · dsimp only
          rw [Function.update_of_ne same,Function.update_of_ne same]
          exact before.flags q other
      · intro ending
        rcases before.ending ending with zero | all
        · exact .inl zero
        · refine .inr (fun q => ?_)
          by_cases same : q = p
          · rw [same]
            exact Function.update_self _ _ _
          · dsimp only
            rw [Function.update_of_ne same]
            exact all q
      · dsimp only
        rw [Function.update_self,termTags,termTags,front' normal,List.flatMap_cons,termination,if_pos rfl,List.append_assoc]
      · intro q same
        exact Function.update_of_ne same _ _
    · rename_i other
      exact frameInv valid fewer before rfl (fun _ _ => rfl) (seen _ (congrArg _ (kept other)) (fun _ _ => rfl))

theorem madeInBatch {m : Machine n} {qs : List (Queue n)} (fresh : ∀ q ∈ qs, ∀ t ∈ m.tman q, m.batch ≤ t) :
    m.batch ≤ madeIn m qs := by
  have fold : ∀ (xs : List Nat) (b : Nat), m.batch ≤ b → (∀ t ∈ xs, m.batch ≤ t) → m.batch ≤ xs.foldl min b := by
    intro xs
    induction xs with
    | nil => exact fun b low _ => low
    | cons x rest ih =>
      intro b low all
      exact ih (min b x) (le_min low (all x List.mem_cons_self)) (fun t later => all t (List.mem_cons_of_mem _ later))
  refine fold _ m.batch le_rfl (fun t member => ?_)
  obtain ⟨q,inside,here⟩ := List.mem_flatMap.mp member
  exact fresh q inside t here

theorem controlWork (k : Work) : workOf k.control = some k ∧ ¬Releasing k.control := by
  cases k <;> simp [Work.control,workOf,Releasing]

/- A message to b is added; machine a keeps its batch. -/
theorem sendInv {s : Net n} (valid : Inv s) {a b : Fin n} (apart : a ≠ b) {m : Machine n} {control : ControlType} {t : Nat}
    (normal : ¬Releasing control) {comm : WriteBuffer.Net n} (ok : sendNormal s.comm (a,b) control [t] = some comm)
    (after : Local m a) (batch : m.batch = (s.machine a).batch) (seen : m.termBatches = (s.machine a).termBatches)
    (fresh : (workOf control).isSome → (s.machine b).batch ≤ t)
    (sent : ∀ c, c ≠ a → List.range' 1 (sentTerms m c) = List.range' 1 (sentTerms (s.machine a) c) ++
      if c = b ∧ control = .termination then [t] else []) :
    Inv ⟨comm,Function.update s.machine a m⟩ := by
  have added := carriedSend normal ok
  refine ⟨?_,?_,?_,?_⟩
  · exact (Function.forall_update_iff s.machine (p := fun c m => Local m c)).mpr ⟨after,fun c _ => valid.machine c⟩
  · intro p c apart' u member
    dsimp only
    rw [updatedSame Machine.batch batch]
    obtain ⟨x,inside,work,here⟩ := workMem.mp member
    rw [added] at inside
    rcases List.mem_append.mp inside with old | new
    · exact valid.work p c apart' u (workMem.mpr ⟨x,old,work,here⟩)
    · split at new
      · rename_i link
        obtain ⟨rfl,rfl⟩ := Prod.mk.inj link
        rw [List.mem_singleton.mp new] at work here
        rw [List.mem_singleton.mp here]
        exact fresh work
      · exact absurd new List.not_mem_nil
  · intro p c msg inside termination
    dsimp only at inside
    rw [added] at inside
    rcases List.mem_append.mp inside with old | new
    · exact valid.single p c msg old termination
    · split at new
      · rw [List.mem_singleton.mp new]
        exact ⟨t,rfl⟩
      · exact absurd new List.not_mem_nil
  · intro p c apart'
    have before := valid.terms p c apart'
    dsimp only
    rw [updatedSame Machine.termBatches seen,termTags,added,List.flatMap_append,← termTags,← List.append_assoc,before]
    by_cases mine : p = a
    · subst p
      rw [Function.update_self,sent c (Ne.symm apart')]
      congr 1
      by_cases here : c = b
      · subst c
        rw [if_pos rfl]
        by_cases termination : control = .termination <;> simp [termination]
      · have other : ¬((a,c) : Link n) = (a,b) := fun e => here (Prod.mk.inj e).2
        rw [if_neg other,if_neg (fun e => here e.1)]
        rfl
    · have other : ¬((p,c) : Link n) = (a,b) := fun e => mine (Prod.mk.inj e).1
      rw [Function.update_of_ne mine,if_neg other]
      exact List.append_nil _

theorem postInv {s t : Net n} (valid : Inv s) {a b : Fin n} {k : Work} (apart : a ≠ b)
    (working : isWorking (s.machine a).stage = true) (settled : (s.machine b).batch ≤ (s.machine a).batch)
    (ok : postWork s a b k = some t) : Inv t := by
  obtain ⟨comm,sent,last⟩ := Option.bind_eq_some_iff.mp ok
  cases Option.some.inj last
  have before := valid.machine a
  have stage := (workingStage working).1
  obtain ⟨work,normal⟩ := controlWork k
  refine sendInv valid apart normal sent (queuesLocal before before.rbuf ?_) rfl rfl ?_ ?_
  · intro q _ t member
    split at member
    · exact absurd member List.not_mem_nil
    · exact before.tman q (.inr stage) t member
  · intro _
    exact le_trans settled (madeInBatch (fun q _ => before.tman q (.inr stage)))
  · intro c _
    rw [if_neg (fun e => workNotTerm work e.2),List.append_nil]
    rfl

theorem sendTermInv {reading : Reading} {s t : Net n} (valid : Inv s) {a : Fin n} {queryLoad : Nat}
    (ok : step reading queryLoad s (.sendTerm a) = some t) : Inv t := by
  have before := valid.machine a
  simp only [step] at ok
  split at ok <;> try contradiction
  · rename_i stage
    split at ok <;> try contradiction
    cases Option.some.inj ok
    refine stageInv valid (by simp [stage]) (by simp [stage]) (fun _ _ => rfl) (by simp [isEnding]) (fun b _ => ?_)
    simp [sentTerms,stage]
  · rename_i m stage
    split at ok
    · rename_i known
      split at ok
      · rename_i own
        cases Option.some.inj ok
        refine stageInv valid (by simp [stage]) (by simp [stage]) (fun p other => Function.update_of_ne other _ _)
          (by simp [isEnding]) (fun b other => ?_)
        have place : b.val ≠ m := fun e => other (by rw [← own]; exact Fin.ext e)
        have same : (b.val < m+1) = (b.val < m) := propext ⟨fun h => by omega,fun h => by omega⟩
        simp [sentTerms,stage,same]
      · rename_i other
        obtain ⟨comm,sent,rfl⟩ := Option.map_eq_some_iff.mp ok
        have positive : (s.machine a).batch ≠ 0 := fun zero => by simpa [stage] using before.early zero
        refine sendInv valid (Ne.symm other) (by simp [Releasing]) sent ?_ rfl rfl (by simp [workOf]) (fun c _ => ?_)
        · refine ⟨before.rbuf,?_,before.own,before.flags,fun zero => absurd zero positive,by simp [isEnding]⟩
          intro q _
          exact before.tman q (.inr (by simp [stage]))
        · by_cases here : c = ⟨m,known⟩
          · subst c
            obtain ⟨k,batch⟩ := Nat.exists_eq_succ_of_ne_zero positive
            simp [sentTerms,stage,batch,List.range'_concat,Nat.add_comm]
          · have place : c.val ≠ m := fun e => here (Fin.ext e)
            have same : (c.val < m+1) = (c.val < m) := propext ⟨fun h => by omega,fun h => by omega⟩
            simp [sentTerms,stage,here,same]
    · rename_i passed
      cases Option.some.inj ok
      refine stageInv valid (by simp [stage]) (by simp [stage]) (fun _ _ => rfl) (by simp [isEnding]) (fun b _ => ?_)
      have place : b.val < m := by omega
      simp [sentTerms,stage,place]

-- What is left after the head of one queue was taken was there before.
theorem takenMem {ι : Type} [DecidableEq ι] {f : ι → List Nat} {i j : ι} {u t : Nat} {rest : List Nat}
    (head : f i = u :: rest) (member : t ∈ Function.update f i rest j) : t ∈ f j := by
  by_cases here : j = i
  · subst j
    rw [Function.update_self] at member
    rw [head]
    exact List.mem_cons_of_mem u member
  · rwa [Function.update_of_ne here] at member

theorem stepInv {reading : Reading} {s t : Net n} {act : Act n} {queryLoad : Nat} (settled : Settled s act)
    (ok : step reading queryLoad s act = some t) (valid : Inv s) : Inv t := by
  cases act with
  | initTerm a =>
    simp only [step] at ok
    split at ok <;> try contradiction
    rename_i stage
    cases Option.some.inj ok
    exact initTermInv valid stage settled
  | searchInit a =>
    simp only [step] at ok
    split at ok <;> try contradiction
    rename_i stage
    cases Option.some.inj ok
    have before := valid.machine a
    refine quietInv valid (fun _ => rfl) ⟨before.rbuf,?_,before.own,before.flags,?_,?_⟩ rfl rfl (fun b _ => ?_)
    · intro q _ t member
      dsimp only [scalaSearchInit] at member
      split at member
      · exact absurd member List.not_mem_nil
      · rename_i kept
        exact before.tman q (.inl (by simpa using kept)) t member
    · intro zero
      rw [before.early zero] at stage
      cases stage
    · intro ending
      cases ending
    · simp [scalaSearchInit,sentTerms,stage]
  | coro a made =>
    simp only [step] at ok
    split at ok <;> try contradiction
    rename_i stage
    cases Option.some.inj ok
    refine queuesInv valid (valid.machine a).rbuf (fun q _ t member => ?_)
    rcases pushMem member with old | rfl
    · exact (valid.machine a).tman q (.inr (by simp [stage])) t old
    · exact le_rfl
  | procRes a =>
    simp only [step] at ok
    split at ok <;> try contradiction
    cases Option.some.inj ok
    exact queuesInv valid (valid.machine a).rbuf (valid.machine a).tman
  | sendTerm a => exact sendTermInv valid ok
  | poll p a =>
    simp only [step] at ok
    split at ok <;> try contradiction
    rename_i msg rest head
    split at ok <;> try contradiction
    rename_i polling
    obtain ⟨comm,polled,rfl⟩ := Option.map_eq_some_iff.mp ok
    exact pollInv valid polling.1 polling.2 head polled (settled msg (by rw [head]; rfl))
  | collect a k made =>
    simp only [step] at ok
    split at ok <;> try contradiction
    rename_i u rest head
    split at ok <;> try contradiction
    rename_i working
    cases Option.some.inj ok
    have before := valid.machine a
    refine queuesInv valid (fun l t member => before.rbuf l t (takenMem head member)) (fun q _ t member => ?_)
    rcases pushMem member with old | rfl
    · exact before.tman q (.inr (workingStage working.1).1) t old
    · exact le_min (before.rbuf k u (by rw [head]; exact List.mem_cons_self)) le_rfl
  | swap a =>
    simp only [step] at ok
    split at ok <;> try contradiction
    rename_i working
    cases Option.some.inj ok
    have before : ∀ q, ∀ t ∈ (s.machine a).tman q, (s.machine a).batch ≤ t :=
      fun q => (valid.machine a).tman q (.inr (workingStage working).1)
    refine queuesInv valid (valid.machine a).rbuf (fun q _ t member => ?_)
    simp only [Function.update_apply] at member
    split at member
    · exact absurd member List.not_mem_nil
    · split at member
      · exact before _ t member
      · split at member
        · exact absurd member List.not_mem_nil
        · split at member
          · exact before _ t member
          · exact before q t member
  | proc a q made =>
    simp only [step] at ok
    split at ok <;> try contradiction
    rename_i u rest head
    split at ok <;> try contradiction
    rename_i working
    cases Option.some.inj ok
    have before : ∀ q, ∀ t ∈ (s.machine a).tman q, (s.machine a).batch ≤ t :=
      fun q => (valid.machine a).tman q (.inr (workingStage working.1).1)
    refine queuesInv valid (valid.machine a).rbuf (fun r _ t member => ?_)
    rcases pushMem member with old | rfl
    · exact before r t (takenMem head old)
    · exact le_min (before q u (by rw [head]; exact List.mem_cons_self)) le_rfl
  | post a b k =>
    simp only [step] at ok
    split at ok <;> try contradiction
    rename_i working
    exact postInv valid working.1 working.2 settled ok
  | checkTerm a =>
    simp only [step] at ok
    split at ok <;> try contradiction
    rename_i term
    cases Option.some.inj ok
    refine stageInv valid (by simp [term.1]) (by simp [term.1]) (fun _ _ => rfl) (fun _ => .inr term.2) (fun b _ => ?_)
    simp [sentTerms,term.1]
  | clear a =>
    simp only [step] at ok
    split at ok <;> try contradiction
    obtain ⟨comm,cleared,rfl⟩ := Option.map_eq_some_iff.mp ok
    have same := quietInv valid (carriedClear cleared) (valid.machine a) rfl rfl (fun _ _ => rfl)
    rwa [Function.update_eq_self] at same
  | resetNext a =>
    simp only [step] at ok
    split at ok <;> try contradiction
    rename_i m stage
    have all := (valid.machine a).ending (by rw [stage]; rfl)
    split at ok
    · split at ok <;> try contradiction
      cases Option.some.inj ok
      refine stageInv valid (by simp [stage]) (by simp [stage]) (fun _ _ => rfl) (fun _ => all) (fun b _ => ?_)
      simp [sentTerms,stage]
    · cases Option.some.inj ok
      refine stageInv valid (by simp [stage]) (by simp [stage]) (fun _ _ => rfl) (fun _ => all) (fun b _ => ?_)
      simp [sentTerms,stage]

/- TERMINATION messages come one for each batch, so the flags of a batch are its own. -/
theorem termsOwn {s : Net n} (valid : Inv s) {a p : Fin n} {t : Nat} (member : t ∈ (s.machine a).termBatches p) :
    t ≤ (s.machine a).batch := by
  have before := valid.machine a
  have apart : p ≠ a := by
    rintro rfl
    rw [before.own] at member
    exact absurd member List.not_mem_nil
  have count : ((s.machine a).termBatches p).length ≤ (s.machine a).batch := by
    rcases before.flags p apart with count | ⟨_,none'⟩
    · have few := Bool.toNat_le ((s.machine a).term p)
      omega
    · rw [none']
      exact Nat.zero_le _
  obtain ⟨i,inside,rfl⟩ := List.mem_iff_getElem.mp member
  have order := congrArg (fun xs => xs[i]?) (valid.terms p a apart)
  simp only [List.getElem?_append_left inside,List.getElem?_eq_getElem inside] at order
  obtain ⟨within,value⟩ := List.getElem?_eq_some_iff.mp order.symm
  rw [List.getElem_range'] at value
  omega

/- In every run whose steps meet the condition, every step is isolated. -/
theorem batchIsolation {reading : Reading} {queryLoad : Nat} {acts : List (Act n)} {act : Act n} {s t : Net n}
    (along : Along (step reading queryLoad) Settled (start n) acts)
    (ok : run (step reading queryLoad) (start n) acts = some s) (next : step reading queryLoad s act = some t) :
    Isolated s act := by
  have valid : Inv s := runInvariantAlong (fun _ _ _ settled ok => stepInv settled ok) along ok startInv
  cases act with
  | collect a k made =>
    intro u head
    exact (valid.machine a).rbuf k u (List.mem_of_mem_head? head)
  | proc a q made =>
    intro u head
    simp only [step] at next
    split at next <;> try contradiction
    split at next <;> try contradiction
    rename_i working
    exact (valid.machine a).tman q (.inr (workingStage working.1).1) u (List.mem_of_mem_head? head)
  | post a b k =>
    intro q _ u member
    simp only [step] at next
    split at next <;> try contradiction
    rename_i working
    exact (valid.machine a).tman q (.inr (workingStage working.2).1) u member
  | initTerm a => exact fun p u member => termsOwn valid member
  | searchInit a => trivial
  | coro a made => trivial
  | procRes a => trivial
  | sendTerm a => trivial
  | poll p a => trivial
  | swap a => trivial
  | checkTerm a => trivial
  | clear a => trivial
  | resetNext a => trivial

/- Two machines. A machine begins a batch, returns its one query and sends its flag. -/
def beginBatch (a : Fin 2) : List (Act 2) := [.initTerm a,.searchInit a]

def endBatch (a : Fin 2) : List (Act 2) := [.procRes a,.sendTerm a,.sendTerm a,.sendTerm a,.sendTerm a]

def ownBatch (a : Fin 2) : List (Act 2) := beginBatch a ++ endBatch a

-- Both have seen all flags and given each other's buffers back.
def allSeen : List (Act 2) :=
  [.poll 0 1,.poll 1 0,.checkTerm 0,.checkTerm 1,.clear 0,.clear 1,.poll 0 1,.poll 1 0]

def leaveReset (a : Fin 2) : List (Act 2) := [.resetNext a,.resetNext a,.resetNext a]

-- A query of machine 0 has a task for machine 1, which answers with a result.
def taskSent : List (Act 2) := [.coro 0 [.taskTo 1],.post 0 1 .task,.poll 0 1,.collect 1 .task [.curTask]]

def taskAnswered : List (Act 2) :=
  [.proc 1 .curTask [.resultTo 0],.post 1 0 .result,.poll 1 0,.collect 0 .result [.result],.proc 0 .result []]

def twoBatches : List (Act 2) :=
  beginBatch 0 ++ beginBatch 1 ++ taskSent ++ taskAnswered ++ endBatch 0 ++ endBatch 1 ++ allSeen ++ leaveReset 0 ++
    leaveReset 1 ++ beginBatch 0 ++ beginBatch 1 ++ taskSent

theorem batchIsolationTwo : ∃ s t, Along (step .memory 1) Settled (start 2) twoBatches ∧
    run (step .memory 1) (start 2) twoBatches = some s ∧ step .memory 1 s (.proc 1 .curTask [.resultTo 0]) = some t ∧
    (s.machine 1).batch = 2 ∧ (s.machine 1).tman .curTask = [2] ∧ Isolated s (.proc 1 .curTask [.resultTo 0]) := by
  have along : Along (step .memory 1) Settled (start 2) twoBatches := by decide +kernel
  have last : (run (step .memory 1) (start 2) twoBatches).map (fun s => ((s.machine 1).stage,(s.machine 1).batch,
      (s.machine 1).tman .curTask)) = some (.search,2,[2]) := by decide +kernel
  obtain ⟨s,ok,value⟩ := Option.map_eq_some_iff.mp last
  simp only [Prod.mk.injEq] at value
  obtain ⟨stage,batch,tasks⟩ := value
  obtain ⟨t,next⟩ : ∃ t, step .memory 1 s (.proc 1 .curTask [.resultTo 0]) = some t := by
    simp [step,tasks,stage,isWorking,isProcessed]
  exact ⟨s,t,along,ok,next,batch,tasks,batchIsolation along ok next⟩

-- Machine 0 is through batch 2 while machine 1 is still in reset_sendrecv of batch 1.
def skewedRun : List (Act 2) :=
  ownBatch 0 ++ ownBatch 1 ++ allSeen ++ leaveReset 0 ++ ownBatch 0 ++ [.poll 0 1] ++ leaveReset 1

-- Machine 1 posts a SYNC before its flag; machine 0 polls both in check_term.
def staleRun : List (Act 2) :=
  ownBatch 0 ++ [.initTerm 1,.searchInit 1,.post 1 0 .sync,.procRes 1,.sendTerm 1,.sendTerm 1,.sendTerm 1,.sendTerm 1,
    .poll 1 0] ++ allSeen ++ leaveReset 0 ++ [.initTerm 0,.searchInit 0]

theorem flagErased :
    (∃ s t, run (step .memory 1) (start 2) skewedRun = some s ∧ step .memory 1 s (.initTerm 1) = some t ∧ (s.machine 1).batch = 1 ∧
      2 ∈ (s.machine 1).termBatches 0 ∧ (s.machine 1).term 0 = true ∧ (t.machine 1).term 0 = false ∧
      ¬Isolated s (.initTerm 1)) ∧
    ∃ s, run (step .memory 1) (start 2) staleRun = some s ∧ (s.machine 0).batch = 2 ∧ ¬Isolated s (.collect 0 .sync []) ∧
      (step .memory 1 s (.collect 0 .sync [])).isSome := by
  constructor
  · have last : (run (step .memory 1) (start 2) skewedRun).map (fun s => ((s.machine 1).stage,(s.machine 1).batch,
        (s.machine 1).termBatches 0,(s.machine 1).term 0)) = some (.done,1,[1,2],true) := by decide +kernel
    obtain ⟨s,ok,value⟩ := Option.map_eq_some_iff.mp last
    simp only [Prod.mk.injEq] at value
    obtain ⟨stage,batch,seen,term⟩ := value
    have late : 2 ∈ (s.machine 1).termBatches 0 := by
      rw [seen]
      decide
    refine ⟨s,_,ok,if_pos stage,batch,late,term,?_,fun isolated => ?_⟩
    · simp [setMachine,resetTerm]
    · have own := isolated 0 2 late
      rw [batch] at own
      exact absurd own (by decide)
  · have last : (run (step .memory 1) (start 2) staleRun).map (fun s => ((s.machine 0).stage,(s.machine 0).batch,
        (s.machine 0).rbuf .sync)) = some (.search,2,[1]) := by decide +kernel
    obtain ⟨s,ok,value⟩ := Option.map_eq_some_iff.mp last
    simp only [Prod.mk.injEq] at value
    obtain ⟨stage,batch,queue⟩ := value
    refine ⟨s,ok,batch,fun isolated => ?_,?_⟩
    · have fresh := isolated 1 (by rw [queue]; rfl)
      rw [batch] at fresh
      exact absurd fresh (by decide)
    · simp [step,queue,stage,isWorking]

end CoTra.Batches
