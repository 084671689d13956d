import CoTra.BuildSync
import CoTra.Memory

/-! The phased exchange of stored neighbours (rdma_comm.cc:
swap_scalagraph_remote_ngh). In phase p machine p posts its arrays in chunks and
every other machine stores what it takes from its queue, without looking at the
sender; a build_sync ends the phase. The barrier is the one of BuildSync, entered
at call `round` by every machine for its phase 0; before and after the exchange a
machine may be in other calls. -/
namespace CoTra.NghExchange
open Runs Memory BuildSync

def maxQuerybufferSize : Nat := 24576

/- What the machines bring along: their arrays, and on every receiver one region for
each sender (in_remote_ngh_start_ofs). -/
structure Exchange (n : Nat) where
  out : Fin n → Fin n → List Nat
  startOfs : Fin n → Fin n → Nat
  round : Nat
  apart : ∀ m p q, p ≠ m → q ≠ m → p ≠ q →
    startOfs m p + 4*(out p m).length ≤ startOfs m q ∨ startOfs m q + 4*(out q m).length ≤ startOfs m p

structure Chunk (n : Nat) where
  sender : Fin n
  words : List Nat
  deriving DecidableEq

/- Where a machine stands in the loops of the function. -/
inductive Stage where
  | before
  | send (m sendCnt : Nat)
  | recv (p nghRecvCnt : Nat)
  | sync (p : Nat)
  | done
  deriving DecidableEq, Repr

structure Proc (n : Nat) where
  stage : Stage
  index : Mem
  scalaNghQueue : List (Chunk n)

structure Net (n : Nat) where
  proc : Fin n → Proc n
  channel : Fin n → Fin n → List (Chunk n)
  barrier : BuildSync.Net n

variable {n : Nat} (x : Exchange n)

def start (index : Fin n → Mem) (barrier : BuildSync.Net n) : Net n :=
  ⟨fun m => ⟨.before,index m,[]⟩,fun _ _ => [],barrier⟩

def phaseStage (me : Fin n) (p : Nat) : Stage :=
  if p = n then .done else if p = me then .send 0 0 else .recv p 0

def setStage (s : Net n) (a : Fin n) (stage : Stage) : Net n :=
  { s with proc := Function.update s.proc a { s.proc a with stage := stage } }

inductive Act (n : Nat) where
  | begin (a : Fin n)
  | post (a : Fin n)
  | deliver (p m : Fin n)
  | take (a : Fin n)
  | leave (a : Fin n)
  | barrier (act : BuildSync.Act n)

-- max_trans_num: the room behind the two leading words, or what is left.
def maxTransNum (left : Nat) : Nat := min ((maxQuerybufferSize - 4 - 4) / 4) left

/- One pass of the sending loops at peer m. -/
def postNext (s : Net n) (a : Fin n) (m sendCnt : Nat) : Net n :=
  if h : m < n then
    let peer : Fin n := ⟨m,h⟩
    if peer = a then setStage s a (.send (m+1) 0)
    else if sendCnt < (x.out a peer).length then
      let count := maxTransNum ((x.out a peer).length - sendCnt)
      { setStage s a (.send m (sendCnt+count)) with
        channel := Function.update s.channel a (Function.update (s.channel a) peer
          (s.channel a peer ++ [⟨a,((x.out a peer).drop sendCnt).take count⟩])) }
    else setStage s a (.send (m+1) 0)
  else setStage s a (.sync a)

-- The exchanged count is a size_t, expect_num a uint32_t.
def expectNum (me p : Fin n) : Nat := (x.out p me).length % 2^32

def Short : Prop := ∀ p m, (x.out p m).length < 2^32
instance : Decidable (Short x) := inferInstanceAs (Decidable (∀ p m, (x.out p m).length < 2^32))

def storeChunk (s : Net n) (a p : Fin n) (nghRecvCnt : Nat) (chunk : Chunk n) (rest : List (Chunk n)) : Net n :=
  { s with proc := Function.update s.proc a (Proc.mk (.recv p ((nghRecvCnt + chunk.words.length) % 2^32))
      (memcpy (s.proc a).index (x.startOfs a p + nghRecvCnt*4) (wordBytes chunk.words)) rest) }

/- A machine enters a barrier outside the exchange, or when its phase is over. -/
def mayEnter (s : Net n) (a : Fin n) : Bool :=
  match (s.proc a).stage with
  | .before => decide ((s.barrier.machine a).buildSyncRound < x.round)
  | .sync _ => true
  | .done => true
  | _ => false

def afterReturn (s : Net n) (a : Fin n) : Net n :=
  match (s.proc a).stage with
  | .sync p => setStage s a (phaseStage a (p+1))
  | _ => s

def step (s : Net n) : Act n → Option (Net n)
  | .begin a =>
    if (s.proc a).stage = .before ∧ (s.barrier.machine a).call.isNone ∧
        (s.barrier.machine a).buildSyncRound = x.round then
      some (setStage s a (phaseStage a 0))
    else none
  | .post a =>
    match (s.proc a).stage with
    | .send m sendCnt => some (postNext x s a m sendCnt)
    | _ => none
  | .deliver p m =>
    match s.channel p m with
    | chunk :: rest => some { s with
        channel := Function.update s.channel p (Function.update (s.channel p) m rest)
        proc := Function.update s.proc m
          { s.proc m with scalaNghQueue := (s.proc m).scalaNghQueue ++ [chunk] } }
    | [] => none
  | .take a =>
    match (s.proc a).stage, (s.proc a).scalaNghQueue with
    | .recv p cnt, chunk :: rest =>
      if h : p < n then
        if cnt < expectNum x a ⟨p,h⟩ then some (storeChunk x s a ⟨p,h⟩ cnt chunk rest) else none
      else none
    | _, _ => none
  | .leave a =>
    match (s.proc a).stage with
    | .recv p cnt =>
      if h : p < n then (if cnt < expectNum x a ⟨p,h⟩ then none else some (setStage s a (.sync p))) else none
    | _ => none
  | .barrier act =>
    match act with
    | .enter a =>
      if mayEnter x s a then (BuildSync.step s.barrier act).map (fun b => { s with barrier := b }) else none
    | .ret a => (BuildSync.step s.barrier act).map (fun b => afterReturn { s with barrier := b } a)
    | _ => (BuildSync.step s.barrier act).map (fun b => { s with barrier := b })

/- How much of an array is posted and how much is stored, by the loop variables. -/
def sentOf (me : Fin n) (stage : Stage) (m : Fin n) (len : Nat) : Nat :=
  match stage with
  | .before => 0
  | .send m' cnt => if m.val < m' then len else if m.val = m' then cnt else 0
  | .recv p _ => if me.val < p then len else 0
  | .sync p => if me.val ≤ p then len else 0
  | .done => len

def takenOf (me : Fin n) (stage : Stage) (p : Fin n) (len : Nat) : Nat :=
  match stage with
  | .before => 0
  | .send _ _ => if p < me then len else 0
  | .recv q cnt => if p.val < q then len else if p.val = q then cnt else 0
  | .sync q => if p.val ≤ q then len else 0
  | .done => len

def flightWords (s : Net n) (p m : Fin n) : List Nat :=
  (((s.proc m).scalaNghQueue.filter (fun c => c.sender = p)) ++ s.channel p m).flatMap Chunk.words

/- The part of an array between what is taken and what is posted is under way. -/
structure Flow (whole : List Nat) (taken : Nat) (flight : List Nat) (sent : Nat) : Prop where
  order : taken ≤ sent
  bound : sent ≤ whole.length
  words : flight = (whole.take sent).drop taken

theorem flowNone (whole : List Nat) {k : Nat} (bound : k ≤ whole.length) : Flow whole k [] k :=
  ⟨le_rfl,bound,by simp⟩

theorem flowPost {whole flight : List Nat} {taken sent k : Nat} (h : Flow whole taken flight sent)
    (room : k ≤ whole.length - sent) : Flow whole taken (flight ++ (whole.drop sent).take k) (sent+k) := by
  obtain ⟨order,bound,words⟩ := h
  refine ⟨by omega,by omega,?_⟩
  rw [List.take_add,List.drop_append_of_le_length (by rw [List.length_take]; omega),words]

theorem flowTake {whole head flight : List Nat} {taken sent : Nat} (h : Flow whole taken (head ++ flight) sent) :
    Flow whole (taken+head.length) flight sent ∧ whole.take (taken+head.length) = whole.take taken ++ head := by
  obtain ⟨order,bound,words⟩ := h
  have length := congrArg List.length words
  rw [List.length_append,List.length_drop,List.length_take] at length
  have rest : (whole.take sent).drop (taken+head.length) = flight := by
    rw [← List.drop_drop,← words,List.drop_left]
  refine ⟨⟨by omega,bound,rest.symm⟩,?_⟩
  have front : ((whole.drop taken).take (sent-taken)).take head.length = head := by
    rw [← List.drop_take,← words,List.take_left]
  rw [List.take_take,Nat.min_eq_left (by omega)] at front
  rw [List.take_add,front]

theorem flowOver {whole flight : List Nat} {sent : Nat} (h : Flow whole whole.length flight sent) : flight = [] := by
  have same : sent = whole.length := le_antisymm h.bound h.order
  rw [h.words,same]
  simp

/- The phase of a machine against the calls it has made. -/
def Rounds (a : Fin n) (stage : Stage) (m : Machine n) : Prop :=
  match stage with
  | .before => m.buildSyncRound ≤ x.round
  | .send _ _ => m.call = none ∧ m.buildSyncRound = x.round + a
  | .recv p _ => m.call = none ∧ m.buildSyncRound = x.round + p ∧ p < n ∧ p ≠ a
  | .sync p => returned m = x.round + p ∧ p < n
  | .done => x.round + n ≤ returned m

def sent (s : Net n) (p m : Fin n) : Nat := sentOf p (s.proc p).stage m (x.out p m).length

def taken (s : Net n) (p m : Fin n) : Nat := takenOf m (s.proc m).stage p (x.out p m).length

-- A place of the file outside every region.
def Outside (m : Fin n) (i : Nat) : Prop :=
  ∀ p, p ≠ m → i < x.startOfs m p ∨ x.startOfs m p + 4*(x.out p m).length ≤ i

structure Inv (index : Fin n → Mem) (s : Net n) : Prop where
  safe : Safe s.barrier
  rounds : ∀ a, Rounds x a (s.proc a).stage (s.barrier.machine a)
  senders : ∀ p m, ∀ c ∈ s.channel p m, c.sender = p ∧ c.words ≠ [] ∧ p ≠ m
  queued : ∀ m, ∀ c ∈ (s.proc m).scalaNghQueue, c.sender ≠ m ∧ c.words ≠ []
  flow : ∀ p m, p ≠ m → Flow (x.out p m) (taken x s p m) (flightWords s p m) (sent x s p m)
  stored : ∀ p m, p ≠ m →
    Stored (s.proc m).index (x.startOfs m p) (wordBytes ((x.out p m).take (taken x s p m)))
  outside : ∀ m i, Outside x m i → (s.proc m).index i = index m i

theorem startInv (index : Fin n → Mem) : Inv x index (start index (BuildSync.start 0)) := by
  constructor
  · exact startSafe 0
  · intro a; exact Nat.zero_le _
  · intro p m c member; exact absurd member List.not_mem_nil
  · intro m c member; exact absurd member List.not_mem_nil
  · intro p m _
    exact flowNone _ (Nat.zero_le _)
  · intro p m _; exact trivial
  · intro m i _; rfl

@[simp] theorem setStageSelf (s : Net n) (a : Fin n) (stage : Stage) :
    ((setStage s a stage).proc a) = { s.proc a with stage := stage } := by
  simp [setStage]

theorem setStageOther (s : Net n) {a m : Fin n} (stage : Stage) (other : m ≠ a) :
    (setStage s a stage).proc m = s.proc m := by
  simp [setStage,other]

theorem setStageIndex (s : Net n) (a m : Fin n) (stage : Stage) :
    ((setStage s a stage).proc m).index = (s.proc m).index ∧
      ((setStage s a stage).proc m).scalaNghQueue = (s.proc m).scalaNghQueue := by
  by_cases here : m = a
  · subst m; rw [setStageSelf]; exact ⟨rfl,rfl⟩
  · rw [setStageOther s _ here]; exact ⟨rfl,rfl⟩

/- A control step, with or without one of the barrier: the loop variables move on,
no count changes. -/
theorem moveInv {index} {s : Net n} (valid : Inv x index s) {a : Fin n} {stage : Stage} {b : BuildSync.Net n}
    (safe : Safe b) (others : ∀ c, c ≠ a → Rounds x c (s.proc c).stage (b.machine c))
    (rounds : Rounds x a stage (b.machine a))
    (same : ∀ m, m ≠ a → sentOf a stage m (x.out a m).length = sent x s a m)
    (kept : ∀ p, p ≠ a → takenOf a stage p (x.out p a).length = taken x s p a) :
    Inv x index { setStage s a stage with barrier := b } := by
  have sentSame : ∀ p m, p ≠ m → sent x (setStage s a stage) p m = sent x s p m := by
    intro p m apart
    unfold sent
    by_cases here : p = a
    · subst p; rw [setStageSelf]; exact same m (Ne.symm apart)
    · rw [setStageOther s _ here]
  have takenSame : ∀ p m, p ≠ m → taken x (setStage s a stage) p m = taken x s p m := by
    intro p m apart
    unfold taken
    by_cases here : m = a
    · subst m; rw [setStageSelf]; exact kept p apart
    · rw [setStageOther s _ here]
  have flight : ∀ p m, flightWords (setStage s a stage) p m = flightWords s p m := by
    intro p m
    unfold flightWords
    rw [(setStageIndex s a m stage).2]
    rfl
  constructor
  · exact safe
  · intro c
    show Rounds x c ((setStage s a stage).proc c).stage (b.machine c)
    by_cases here : c = a
    · subst c; rw [setStageSelf]; exact rounds
    · rw [setStageOther s _ here]; exact others c here
  · exact valid.senders
  · intro m
    show ∀ c ∈ ((setStage s a stage).proc m).scalaNghQueue, _
    rw [(setStageIndex s a m stage).2]
    exact valid.queued m
  · intro p m apart
    show Flow _ (taken x (setStage s a stage) p m) (flightWords (setStage s a stage) p m)
      (sent x (setStage s a stage) p m)
    rw [sentSame p m apart,takenSame p m apart,flight]
    exact valid.flow p m apart
  · intro p m apart
    show Stored ((setStage s a stage).proc m).index _ (wordBytes ((x.out p m).take (taken x (setStage s a stage) p m)))
    rw [takenSame p m apart,(setStageIndex s a m stage).1]
    exact valid.stored p m apart
  · intro m i away
    show ((setStage s a stage).proc m).index i = _
    rw [(setStageIndex s a m stage).1]
    exact valid.outside m i away

theorem setStageInv {index} {s : Net n} (valid : Inv x index s) {a : Fin n} {stage : Stage}
    (rounds : Rounds x a stage (s.barrier.machine a))
    (same : ∀ m, m ≠ a → sentOf a stage m (x.out a m).length = sent x s a m)
    (kept : ∀ p, p ≠ a → takenOf a stage p (x.out p a).length = taken x s p a) :
    Inv x index (setStage s a stage) :=
  moveInv x valid valid.safe (fun c _ => valid.rounds c) rounds same kept

theorem beginInv {index} {s : Net n} (valid : Inv x index s) {a : Fin n} (before : (s.proc a).stage = .before)
    (idle : (s.barrier.machine a).call = none) (now : (s.barrier.machine a).buildSyncRound = x.round) :
    Inv x index (setStage s a (phaseStage a 0)) := by
  have some' : 0 ≠ n := Nat.ne_of_lt (lt_of_le_of_lt (Nat.zero_le _) a.isLt)
  unfold phaseStage
  rw [if_neg some']
  split
  · rename_i first
    refine setStageInv x valid ⟨idle,by omega⟩ ?_ ?_
    · intro m other
      simp [sentOf,sent,before]
    · intro p other
      have least : ¬p < a := by rw [Fin.lt_def]; omega
      simp [takenOf,taken,before,least]
  · rename_i later
    refine setStageInv x valid ⟨idle,by omega,by omega,later⟩ ?_ ?_
    · intro m other
      simp [sentOf,sent,before]
    · intro p other
      simp [takenOf,taken,before]

def postChunk (s : Net n) (a peer : Fin n) (words : List Nat) : Net n :=
  { s with channel := Function.update s.channel a (Function.update (s.channel a) peer
      (s.channel a peer ++ [⟨a,words⟩])) }

theorem postChunkChannel (s : Net n) (a peer : Fin n) (words : List Nat) (p m : Fin n) :
    (postChunk s a peer words).channel p m =
      if p = a ∧ m = peer then s.channel p m ++ [⟨a,words⟩] else s.channel p m := by
  by_cases first : p = a
  · subst p
    by_cases second : m = peer
    · subst m; simp [postChunk]
    · simp [postChunk,second]
  · simp [postChunk,first]

theorem postChunkFlight (s : Net n) (a peer : Fin n) (words : List Nat) (p m : Fin n) :
    flightWords (postChunk s a peer words) p m =
      if p = a ∧ m = peer then flightWords s p m ++ words else flightWords s p m := by
  unfold flightWords
  rw [postChunkChannel]
  split
  · rw [← List.append_assoc,List.flatMap_append]
    simp [postChunk]
  · rfl

theorem setStageFlight (s : Net n) (a : Fin n) (stage : Stage) (p m : Fin n) :
    flightWords (setStage s a stage) p m = flightWords s p m := by
  unfold flightWords
  rw [(setStageIndex s a m stage).2]
  rfl

/- Posting a chunk: the count of one array moves, and so many words are under way. -/
theorem postChunkInv {index} {s : Net n} (valid : Inv x index s) {a peer : Fin n} {cnt k : Nat}
    (stage : (s.proc a).stage = .send peer cnt) (other : peer ≠ a) (positive : 0 < k)
    (count : k ≤ (x.out a peer).length - cnt) :
    Inv x index (postChunk (setStage s a (.send peer (cnt+k))) a peer (((x.out a peer).drop cnt).take k)) := by
  have now : ((setStage s a (.send peer (cnt+k))).proc a).stage = .send peer (cnt+k) := by rw [setStageSelf]
  have takenSame : ∀ p q, taken x (setStage s a (.send peer (cnt+k))) p q = taken x s p q := by
    intro p q
    unfold taken
    by_cases here : q = a
    · subst q; rw [now,stage]; rfl
    · rw [setStageOther s _ here]
  constructor
  · exact valid.safe
  · intro b
    show Rounds x b ((setStage s a (.send peer (cnt+k))).proc b).stage _
    by_cases here : b = a
    · subst b
      have rounds := valid.rounds a
      rw [stage] at rounds
      rw [now]
      exact rounds
    · rw [setStageOther s _ here]
      exact valid.rounds b
  · intro p q c member
    rw [postChunkChannel] at member
    split at member
    · rename_i target
      rcases List.mem_append.mp member with old | new
      · exact valid.senders p q c old
      · rw [List.mem_singleton.mp new,target.1,target.2]
        refine ⟨rfl,?_,Ne.symm other⟩
        intro empty
        have length := congrArg List.length empty
        rw [List.length_take,List.length_drop,List.length_nil] at length
        omega
    · exact valid.senders p q c member
  · intro q
    show ∀ c ∈ ((setStage s a (.send peer (cnt+k))).proc q).scalaNghQueue, _
    rw [(setStageIndex s a q _).2]
    exact valid.queued q
  · intro p q apart
    show Flow _ (taken x (setStage s a (.send peer (cnt+k))) p q) _ (sent x (setStage s a (.send peer (cnt+k))) p q)
    rw [takenSame,postChunkFlight,setStageFlight]
    have old := valid.flow p q apart
    by_cases sender : p = a
    · subst p
      simp only [sent,stage,sentOf] at old
      simp only [sent,now,sentOf]
      by_cases receiver : q = peer
      · subst q
        simp only [lt_irrefl,if_true,if_false] at old
        simpa using flowPost old count
      · have away : q.val ≠ peer.val := fun e => receiver (Fin.ext e)
        simpa [receiver,away] using old
    · have same : sent x (setStage s a (.send peer (cnt+k))) p q = sent x s p q := by
        simp only [sent,setStageOther s _ sender]
      rw [same]
      simpa [sender] using old
  · intro p q apart
    show Stored ((setStage s a (.send peer (cnt+k))).proc q).index _
      (wordBytes ((x.out p q).take (taken x (setStage s a (.send peer (cnt+k))) p q)))
    rw [takenSame,(setStageIndex s a q _).1]
    exact valid.stored p q apart
  · intro q i away
    show ((setStage s a (.send peer (cnt+k))).proc q).index i = _
    rw [(setStageIndex s a q _).1]
    exact valid.outside q i away

theorem postInv {index} {s : Net n} (valid : Inv x index s) {a : Fin n} {m cnt : Nat}
    (stage : (s.proc a).stage = .send m cnt) : Inv x index (postNext x s a m cnt) := by
  have rounds := valid.rounds a
  rw [stage] at rounds
  have onward : (∀ peer : Fin n, peer.val = m → peer ≠ a → cnt = (x.out a peer).length) →
      Inv x index (setStage s a (.send (m+1) 0)) := by
    intro finished
    refine setStageInv x valid rounds ?_ ?_
    · intro k other
      simp only [sentOf,sent,stage]
      by_cases now : k.val = m
      · simp [now,finished k now other]
      · by_cases below : k.val < m
        · simp [below,Nat.lt_succ_of_lt below]
        · simp [below,now,show ¬k.val < m+1 by omega]
    · intro p other
      simp [takenOf,taken,stage]
  unfold postNext
  split
  · rename_i known
    dsimp only
    split
    · rename_i self
      refine onward (fun peer here other => absurd ?_ other)
      rw [← self]
      exact Fin.ext here
    · rename_i other
      split
      · rename_i more
        have count : maxTransNum ((x.out a ⟨m,known⟩).length - cnt) ≤ (x.out a ⟨m,known⟩).length - cnt :=
          Nat.min_le_right _ _
        have positive : 0 < maxTransNum ((x.out a ⟨m,known⟩).length - cnt) := by
          unfold maxTransNum maxQuerybufferSize
          omega
        exact postChunkInv x valid stage other positive count
      · rename_i finish
        refine onward (fun peer here self => ?_)
        have same : peer = ⟨m,known⟩ := Fin.ext here
        subst same
        have bound := (valid.flow a ⟨m,known⟩ (Ne.symm self)).bound
        simp only [sent,stage,sentOf,lt_irrefl,if_false,if_true] at bound
        omega
  · rename_i last
    refine setStageInv x valid ⟨by rw [returnedIdle rounds.1]; exact rounds.2,a.isLt⟩ ?_ ?_
    · intro k other
      have below : k.val < m := by omega
      simp [sentOf,sent,stage,below]
    · intro p other
      have order : p.val ≤ a.val ↔ p < a := by
        rw [Fin.lt_def]
        have : p.val ≠ a.val := fun e => other (Fin.ext e)
        omega
      simp [takenOf,taken,stage,order]

/- Words under way to a machine that receives in phase p come from machine p. An
earlier sender's array is stored to its end, a later sender has not begun: it would
have returned from a barrier that this machine has not entered. -/
theorem flightSender {index} {s : Net n} (valid : Inv x index s) {a q : Fin n} {p cnt : Nat}
    (stage : (s.proc a).stage = .recv p cnt) (other : q ≠ a) (some' : flightWords s q a ≠ []) : q.val = p := by
  have rounds := valid.rounds a
  rw [stage] at rounds
  obtain ⟨_,entered,inside,_⟩ := rounds
  have flow := valid.flow q a other
  rcases Nat.lt_trichotomy q.val p with earlier | same | later
  · have all : taken x s q a = (x.out q a).length := by simp [taken,stage,takenOf,earlier]
    rw [all] at flow
    exact absurd (flowOver flow) some'
  · exact same
  · exfalso
    have back := valid.safe.barrier q a
    have theirs := valid.rounds q
    have nothing : sent x s q a = 0 := by
      unfold sent
      cases h : (s.proc q).stage with
      | before => rfl
      | send m c =>
        rw [h] at theirs
        rw [returnedIdle theirs.1,theirs.2] at back
        omega
      | recv r c =>
        rw [h] at theirs
        rw [returnedIdle theirs.1,theirs.2.1] at back
        simp only [sentOf]
        rw [if_neg (by omega)]
      | sync r =>
        rw [h] at theirs
        rw [theirs.1] at back
        simp only [sentOf]
        rw [if_neg (by omega)]
      | done =>
        rw [h] at theirs
        have : x.round + n ≤ returned (s.barrier.machine q) := theirs
        omega
    rw [nothing] at flow
    refine some' ?_
    rw [flow.words]
    simp

theorem headSender {index} {s : Net n} (valid : Inv x index s) {a : Fin n} {p cnt : Nat} {chunk rest}
    (stage : (s.proc a).stage = .recv p cnt) (queue : (s.proc a).scalaNghQueue = chunk :: rest) :
    chunk.sender.val = p := by
  obtain ⟨other,words⟩ := valid.queued a chunk (by rw [queue]; exact List.mem_cons_self)
  refine flightSender x valid stage other ?_
  simp [flightWords,queue,words]

theorem deliverInv {index} {s : Net n} (valid : Inv x index s) {p m : Fin n} {chunk rest}
    (channel : s.channel p m = chunk :: rest) : Inv x index { s with
      channel := Function.update s.channel p (Function.update (s.channel p) m rest)
      proc := Function.update s.proc m
        { s.proc m with scalaNghQueue := (s.proc m).scalaNghQueue ++ [chunk] } } := by
  obtain ⟨sender,words,apart⟩ := valid.senders p m chunk (by rw [channel]; exact List.mem_cons_self)
  generalize ht : ({ s with
      channel := Function.update s.channel p (Function.update (s.channel p) m rest)
      proc := Function.update s.proc m
        { s.proc m with scalaNghQueue := (s.proc m).scalaNghQueue ++ [chunk] } } : Net n) = t
  have stages : ∀ a, (t.proc a).stage = (s.proc a).stage ∧ (t.proc a).index = (s.proc a).index := by
    intro a
    by_cases here : a = m
    · subst a; simp [← ht]
    · simp [← ht,here]
  have chan : ∀ a b, t.channel a b = if a = p ∧ b = m then rest else s.channel a b := by
    intro a b
    by_cases first : a = p
    · subst a
      by_cases second : b = m
      · subst b; simp [← ht]
      · simp [← ht,second]
    · simp [← ht,first]
  have queue : ∀ b, (t.proc b).scalaNghQueue =
      if b = m then (s.proc b).scalaNghQueue ++ [chunk] else (s.proc b).scalaNghQueue := by
    intro b
    by_cases here : b = m
    · subst b; simp [← ht]
    · simp [← ht,here]
  have flight : ∀ a b, flightWords t a b = flightWords s a b := by
    intro a b
    unfold flightWords
    rw [chan,queue]
    by_cases here : b = m
    · subst b
      by_cases from' : a = p
      · subst a
        simp [sender,channel]
      · have other : chunk.sender ≠ a := by rw [sender]; exact Ne.symm from'
        simp [from',other]
    · simp [here]
  have barrier : t.barrier = s.barrier := by rw [← ht]
  constructor
  · rw [barrier]; exact valid.safe
  · intro a; rw [barrier,(stages a).1]; exact valid.rounds a
  · intro a b c member
    rw [chan] at member
    split at member
    · rename_i target
      rw [target.1,target.2]
      exact valid.senders p m c (by rw [channel]; exact List.mem_cons_of_mem _ member)
    · exact valid.senders a b c member
  · intro b c member
    rw [queue] at member
    split at member
    · rename_i here
      rcases List.mem_append.mp member with old | new
      · exact valid.queued b c old
      · rw [List.mem_singleton.mp new,sender,here]
        exact ⟨apart,words⟩
    · exact valid.queued b c member
  · intro a b ne
    simp only [taken,sent,(stages b).1,(stages a).1,flight]
    exact valid.flow a b ne
  · intro a b ne
    simp only [taken,(stages b).1,(stages b).2]
    exact valid.stored a b ne
  · intro b i away
    rw [(stages b).2]
    exact valid.outside b i away

theorem wordBytesAppend (xs ys : List Nat) : wordBytes (xs ++ ys) = wordBytes xs ++ wordBytes ys := by
  simp [wordBytes]

theorem expectLength (short : Short x) (me p : Fin n) : expectNum x me p = (x.out p me).length :=
  Nat.mod_eq_of_lt (short p me)

/- A chunk is stored right behind what is stored of the same array. -/
theorem takeInv {index} (short : Short x) {s : Net n} (valid : Inv x index s) {a p : Fin n} {cnt : Nat} {chunk rest}
    (stage : (s.proc a).stage = .recv p cnt) (queue : (s.proc a).scalaNghQueue = chunk :: rest) :
    Inv x index (storeChunk x s a p cnt chunk rest) := by
  have sender : chunk.sender = p := Fin.ext (headSender x valid stage queue)
  have rounds := valid.rounds a
  rw [stage] at rounds
  have apart : p ≠ a := fun e => rounds.2.2.2 (congrArg Fin.val e)
  have self : (storeChunk x s a p cnt chunk rest).proc a = ⟨.recv p ((cnt + chunk.words.length) % 2^32),
      memcpy (s.proc a).index (x.startOfs a p + cnt*4) (wordBytes chunk.words),rest⟩ := by
    simp [storeChunk]
  have others : ∀ b, b ≠ a → (storeChunk x s a p cnt chunk rest).proc b = s.proc b := by
    intro b other
    simp [storeChunk,other]
  have count : taken x s p a = cnt := by simp [taken,stage,takenOf]
  have front : flightWords s p a = chunk.words ++ flightWords (storeChunk x s a p cnt chunk rest) p a := by
    unfold flightWords
    rw [self,queue]
    simp [sender,storeChunk]
  have old := valid.flow p a apart
  rw [count,front] at old
  obtain ⟨next,longer⟩ := flowTake old
  have room : cnt + chunk.words.length ≤ (x.out p a).length := le_trans next.order next.bound
  have noWrap := Nat.mod_eq_of_lt (lt_of_le_of_lt room (short p a))
  rw [noWrap] at self
  have newCount : taken x (storeChunk x s a p cnt chunk rest) p a = cnt + chunk.words.length := by
    unfold taken
    rw [self]
    simp [takenOf]
  have keptCount : ∀ q b, q ≠ b → ¬(q = p ∧ b = a) →
      taken x (storeChunk x s a p cnt chunk rest) q b = taken x s q b := by
    intro q b _ elsewhere
    unfold taken
    by_cases here : b = a
    · subst b
      have away : q.val ≠ p.val := fun e => elsewhere ⟨Fin.ext e,rfl⟩
      rw [self,stage]
      simp [takenOf,away]
    · rw [others b here]
  have sentSame : ∀ q b, sent x (storeChunk x s a p cnt chunk rest) q b = sent x s q b := by
    intro q b
    unfold sent
    by_cases here : q = a
    · subst q; rw [self,stage]; rfl
    · rw [others q here]
  constructor
  · exact valid.safe
  · intro b
    by_cases here : b = a
    · subst b; rw [self]; exact rounds
    · rw [others b here]; exact valid.rounds b
  · exact valid.senders
  · intro b
    by_cases here : b = a
    · subst b
      rw [self]
      intro c member
      exact valid.queued a c (by rw [queue]; exact List.mem_cons_of_mem _ member)
    · rw [others b here]; exact valid.queued b
  · intro q b ne
    by_cases target : q = p ∧ b = a
    · obtain ⟨rfl,rfl⟩ := target
      rw [newCount,sentSame]
      exact next
    · have same : flightWords (storeChunk x s a p cnt chunk rest) q b = flightWords s q b := by
        unfold flightWords
        by_cases here : b = a
        · subst b
          have different : chunk.sender ≠ q := by rw [sender]; exact fun e => target ⟨e.symm,rfl⟩
          rw [self,queue]
          simp [different,storeChunk]
        · rw [others b here]; rfl
      rw [keptCount q b ne target,sentSame,same]
      exact valid.flow q b ne
  · intro q b ne
    by_cases target : q = p ∧ b = a
    · obtain ⟨rfl,rfl⟩ := target
      have before := valid.stored q b ne
      have size : (wordBytes ((x.out q b).take cnt)).length = cnt*4 := by
        rw [wordBytesLength,List.length_take]
        omega
      rw [count] at before
      rw [newCount,longer,wordBytesAppend,self,storedAppend,size]
      exact ⟨storedFrame before (.inr (by rw [size])),storedMemcpy _ _ _⟩
    · rw [keptCount q b ne target]
      by_cases here : b = a
      · subst b
        have different : p ≠ q := fun e => target ⟨e.symm,rfl⟩
        have before := valid.stored q a ne
        rw [self]
        refine storedFrame before ?_
        have bound := le_trans (valid.flow q a ne).order (valid.flow q a ne).bound
        rw [wordBytesLength,wordBytesLength,List.length_take]
        rcases x.apart a p q apart ne different with left | right <;> omega
      · rw [others b here]
        exact valid.stored q b ne
  · intro b i away
    by_cases here : b = a
    · subst b
      rw [self]
      have spot := away p apart
      rw [← valid.outside a i away]
      refine memcpyOutside ?_
      rw [wordBytesLength]
      omega
    · rw [others b here]
      exact valid.outside b i away

theorem leaveInv {index} (short : Short x) {s : Net n} (valid : Inv x index s) {a p : Fin n} {cnt : Nat}
    (stage : (s.proc a).stage = .recv p cnt) (finish : ¬cnt < expectNum x a p) :
    Inv x index (setStage s a (.sync p)) := by
  have rounds := valid.rounds a
  rw [stage] at rounds
  have apart : p ≠ a := fun e => rounds.2.2.2 (congrArg Fin.val e)
  rw [expectLength x short] at finish
  refine setStageInv x valid ⟨by rw [returnedIdle rounds.1]; exact rounds.2.1,p.isLt⟩ ?_ ?_
  · intro m other
    have order : a.val ≤ p.val ↔ a.val < p.val := by
      have := rounds.2.2.2
      omega
    simp [sentOf,sent,stage,order]
  · intro q other
    have flow := valid.flow p a apart
    have count : taken x s p a = cnt := by simp [taken,stage,takenOf]
    have bound := le_trans flow.order flow.bound
    rw [count] at bound
    simp only [takenOf,taken,stage]
    by_cases same : q.val = p.val
    · have here : q = p := Fin.ext same
      subst q
      simp
      omega
    · have order : q.val ≤ p.val ↔ q.val < p.val := by omega
      simp [order,same]

/- Only the barrier changes. -/
theorem barrierInv {index} {s : Net n} (valid : Inv x index s) {b : BuildSync.Net n} (safe : Safe b)
    (rounds : ∀ a, Rounds x a (s.proc a).stage (b.machine a)) : Inv x index { s with barrier := b } :=
  ⟨safe,rounds,valid.senders,valid.queued,valid.flow,valid.stored,valid.outside⟩

theorem roundsQuiet {a : Fin n} {stage : Stage} {m m' : Machine n} (call : m'.call.isSome = m.call.isSome)
    (round : m'.buildSyncRound = m.buildSyncRound) (h : Rounds x a stage m) : Rounds x a stage m' := by
  have back : returned m' = returned m := by simp [returned,call,round]
  have idle : m.call = none → m'.call = none := by
    intro none'
    rw [none'] at call
    exact Option.isSome_eq_false_iff.mp call |> Option.isNone_iff_eq_none.mp
  cases stage with
  | before => exact le_of_eq_of_le round h
  | send m c => exact ⟨idle h.1,round.trans h.2⟩
  | recv p c => exact ⟨idle h.1,round.trans h.2.1,h.2.2⟩
  | sync p => exact ⟨back.trans h.1,h.2⟩
  | done => exact le_of_le_of_eq h back.symm

theorem enterInv {index} {s : Net n} (valid : Inv x index s) {a : Fin n} {b : BuildSync.Net n}
    (may : mayEnter x s a = true) (h : BuildSync.step s.barrier (.enter a) = some b) :
    Inv x index { s with barrier := b } := by
  refine barrierInv x valid (stepSafe h valid.safe) (fun c => ?_)
  have old := valid.rounds c
  rcases stepRounds h c with ⟨here,idle,inside,more⟩ | ⟨wrong,_⟩ | ⟨_,_,call,round⟩
  · cases here
    have back : returned (b.machine a) = returned (s.barrier.machine a) := by
      rw [returnedIdle idle]
      simp [returned,inside,more]
    unfold mayEnter at may
    cases stage : (s.proc a).stage with
    | before =>
      rw [stage] at may
      have early : (s.barrier.machine a).buildSyncRound < x.round := by simpa using may
      exact le_of_eq_of_le more early
    | sync p =>
      rw [stage] at old
      exact ⟨back.trans old.1,old.2⟩
    | done =>
      rw [stage] at old
      exact le_of_le_of_eq old back.symm
    | send m c => rw [stage] at may; cases may
    | recv p c => rw [stage] at may; cases may
  · cases wrong
  · exact roundsQuiet x call round old

/- The next phase begins with the counts the last one ended with. -/
theorem phaseCounts (a : Fin n) (p : Nat) :
    (∀ m len, sentOf a (phaseStage a (p+1)) m len = sentOf a (.sync p) m len) ∧
    (∀ q len, q ≠ a → takenOf a (phaseStage a (p+1)) q len = takenOf a (.sync p) q len) := by
  unfold phaseStage
  split
  · rename_i last
    refine ⟨fun m len => ?_,fun q len _ => ?_⟩
    · have : a.val ≤ p := by omega
      simp [sentOf,this]
    · have : q.val ≤ p := by omega
      simp [takenOf,this]
  · split
    · rename_i mine
      refine ⟨fun m len => ?_,fun q len _ => ?_⟩
      · have : ¬a.val ≤ p := by omega
        simp [sentOf,this]
      · have order : q < a ↔ q.val ≤ p := by rw [Fin.lt_def]; omega
        simp [takenOf,order]
    · refine ⟨fun m len => ?_,fun q len _ => ?_⟩
      · simp only [sentOf,Nat.lt_succ_iff]
      · simp only [takenOf,Nat.lt_succ_iff,ite_self]

theorem retInv {index} {s : Net n} (valid : Inv x index s) {a : Fin n} {b : BuildSync.Net n}
    (h : BuildSync.step s.barrier (.ret a) = some b) : Inv x index (afterReturn { s with barrier := b } a) := by
  have safe := stepSafe h valid.safe
  have others : ∀ c, c ≠ a → Rounds x c (s.proc c).stage (b.machine c) := by
    intro c other
    rcases stepRounds h c with ⟨wrong,_⟩ | ⟨here,_⟩ | ⟨_,_,call,round⟩
    · cases wrong
    · cases here; exact absurd rfl other
    · exact roundsQuiet x call round (valid.rounds c)
  obtain ⟨busy,idle,round⟩ : (s.barrier.machine a).call.isSome ∧ (b.machine a).call = none ∧
      (b.machine a).buildSyncRound = (s.barrier.machine a).buildSyncRound := by
    rcases stepRounds h a with ⟨wrong,_⟩ | ⟨_,busy,idle,round⟩ | ⟨_,wrong,_⟩
    · cases wrong
    · exact ⟨busy,idle,round⟩
    · exact absurd rfl wrong
  obtain ⟨call,inside⟩ := Option.isSome_iff_exists.mp busy
  have now := valid.safe.current a call inside
  have back : returned (b.machine a) = returned (s.barrier.machine a) + 1 := by
    rw [returnedIdle idle,returnedIn inside,round]
    omega
  have old := valid.rounds a
  have unmoved : Rounds x a (s.proc a).stage (b.machine a) → Inv x index { s with barrier := b } := by
    intro rounds
    refine barrierInv x valid safe (fun c => ?_)
    by_cases here : c = a
    · subst c; exact rounds
    · exact others c here
  unfold afterReturn
  cases stage : (s.proc a).stage with
  | before =>
    rw [stage] at old unmoved
    exact unmoved (le_of_eq_of_le round old)
  | send m c => rw [stage,Rounds,inside] at old; cases old.1
  | recv p c => rw [stage,Rounds,inside] at old; cases old.1
  | done =>
    rw [stage] at old unmoved
    exact unmoved (le_trans old (by omega))
  | sync p =>
    rw [stage] at old
    obtain ⟨current,known⟩ := old
    obtain ⟨sentKeep,takenKeep⟩ := phaseCounts a p
    refine moveInv x valid safe others ?_ ?_ ?_
    · unfold phaseStage
      split
      · show x.round + n ≤ returned (b.machine a)
        omega
      · split
        · exact ⟨idle,by rw [← returnedIdle idle]; omega⟩
        · exact ⟨idle,by rw [← returnedIdle idle]; omega,by omega,by assumption⟩
    · intro m other
      rw [sentKeep,sent,stage]
    · intro q other
      rw [takenKeep _ _ other,taken,stage]

theorem stepInv {index} (short : Short x) {s t : Net n} {act} (h : step x s act = some t) (valid : Inv x index s) :
    Inv x index t := by
  cases act with
  | begin a =>
    simp only [step] at h
    split at h <;> try contradiction
    rename_i guard
    cases Option.some.inj h
    exact beginInv x valid guard.1 (Option.isNone_iff_eq_none.mp guard.2.1) guard.2.2
  | post a =>
    simp only [step] at h
    split at h <;> try contradiction
    cases Option.some.inj h
    exact postInv x valid (by assumption)
  | deliver p m =>
    simp only [step] at h
    split at h <;> try contradiction
    cases Option.some.inj h
    exact deliverInv x valid (by assumption)
  | take a =>
    simp only [step] at h
    split at h <;> try contradiction
    split at h <;> try contradiction
    split at h <;> try contradiction
    cases Option.some.inj h
    exact takeInv x short valid (by assumption) (by assumption)
  | leave a =>
    simp only [step] at h
    split at h <;> try contradiction
    split at h <;> try contradiction
    rename_i known
    split at h <;> try contradiction
    cases Option.some.inj h
    exact leaveInv x short valid (p := ⟨_,known⟩) (by assumption) (by assumption)
  | barrier act =>
    have quiet : ∀ b, BuildSync.step s.barrier act = some b → (∀ a, act ≠ .enter a) → (∀ a, act ≠ .ret a) →
        Inv x index { s with barrier := b } := by
      intro b ok notEnter notRet
      refine barrierInv x valid (stepSafe ok valid.safe) (fun c => ?_)
      rcases stepRounds ok c with ⟨e,_⟩ | ⟨e,_⟩ | ⟨_,_,call,round⟩
      · exact absurd e (notEnter c)
      · exact absurd e (notRet c)
      · exact roundsQuiet x call round (valid.rounds c)
    cases act with
    | enter a =>
      simp only [step] at h
      split at h <;> try contradiction
      rename_i may
      obtain ⟨b,ok,rfl⟩ := Option.map_eq_some_iff.mp h
      exact enterInv x valid may ok
    | ret a =>
      obtain ⟨b,ok,rfl⟩ := Option.map_eq_some_iff.mp h
      exact retInv x valid ok
    | send a =>
      obtain ⟨b,ok,rfl⟩ := Option.map_eq_some_iff.mp h
      exact quiet b ok (fun _ e => by cases e) (fun _ e => by cases e)
    | deliver a i =>
      obtain ⟨b,ok,rfl⟩ := Option.map_eq_some_iff.mp h
      exact quiet b ok (fun _ e => by cases e) (fun _ e => by cases e)
    | scan a =>
      obtain ⟨b,ok,rfl⟩ := Option.map_eq_some_iff.mp h
      exact quiet b ok (fun _ e => by cases e) (fun _ e => by cases e)

/- In every run, a chunk is stored only in the region of its sender; when all machines
have returned, every region holds its array and no chunk is left. -/
theorem exchangeExact {n : Nat} (x : Exchange n) (short : Short x) (index : Fin n → Mem) (acts : List (Act n)) {s : Net n}
    (ok : run (step x) (start index (BuildSync.start 0)) acts = some s) :
    (∀ a p cnt chunk rest, (s.proc a).stage = .recv p cnt →
      (s.proc a).scalaNghQueue = chunk :: rest → chunk.sender.val = p) ∧
    ((∀ a, (s.proc a).stage = .done) →
      (∀ p m, p ≠ m → Stored (s.proc m).index (x.startOfs m p) (wordBytes (x.out p m))) ∧
      (∀ m i, Outside x m i → (s.proc m).index i = index m i) ∧
      (∀ m, (s.proc m).scalaNghQueue = []) ∧ (∀ p m, s.channel p m = [])) := by
  have valid := runInvariant (fun _ _ _ => stepInv x short) ok (startInv x index)
  refine ⟨fun a p cnt chunk rest stage queue => headSender x valid stage queue,?_⟩
  intro finish
  have all : ∀ p m, taken x s p m = (x.out p m).length := by
    intro p m
    simp [taken,finish,takenOf]
  have landed : ∀ p m, p ≠ m → flightWords s p m = [] := by
    intro p m apart
    have flow := valid.flow p m apart
    rw [all] at flow
    exact flowOver flow
  refine ⟨?_,valid.outside,?_,?_⟩
  · intro p m apart
    have stored := valid.stored p m apart
    rwa [all,List.take_length] at stored
  · intro m
    cases queue : (s.proc m).scalaNghQueue with
    | nil => rfl
    | cons c rest =>
      obtain ⟨other,words⟩ := valid.queued m c (by rw [queue]; exact List.mem_cons_self)
      have none' := landed c.sender m other
      simp [flightWords,queue,words] at none'
  · intro p m
    cases channel : s.channel p m with
    | nil => rfl
    | cons c rest =>
      obtain ⟨_,words,apart⟩ := valid.senders p m c (by rw [channel]; exact List.mem_cons_self)
      have none' := landed p m apart
      simp [flightWords,channel,words] at none'

def oneArray : Exchange 2 where
  out := fun p _ => if p = 0 then [7,8,9] else []
  startOfs := fun _ _ => 32
  round := 0
  apart := by decide

def barrierActs : List (Act 2) := [.barrier (.enter 0),.barrier (.enter 1),.barrier (.send 0),.barrier (.send 1),
  .barrier (.deliver 0 0),.barrier (.deliver 1 0),.barrier (.scan 0),.barrier (.scan 1),.barrier (.ret 0),
  .barrier (.ret 1)]

-- Machine 0 posts three words to machine 1 in phase 0; phase 1 has nothing to post.
theorem exchangeExactOneArray : ∃ acts s,
    run (step oneArray) (start (fun _ _ => 0) (BuildSync.start 0)) acts = some s ∧
    (∀ a, (s.proc a).stage = .done) ∧ Stored (s.proc 1).index 32 (wordBytes [7,8,9]) := by
  have ends : (run (step oneArray) (start (fun _ _ => 0) (BuildSync.start 0))
      ([.begin 0,.begin 1,.post 0,.post 0,.post 0,.post 0,.deliver 0 1,.take 1,.leave 1] ++ barrierActs ++
        [.leave 0,.post 1,.post 1,.post 1] ++ barrierActs)).map
      (fun s => ((s.proc 0).stage,(s.proc 1).stage)) = some (.done,.done) := by rfl
  obtain ⟨s,ok,stages⟩ := Option.map_eq_some_iff.mp ends
  obtain ⟨first,second⟩ := Prod.mk.inj stages
  have finish : ∀ a, (s.proc a).stage = .done := by
    intro a
    match a with
    | 0 => exact first
    | 1 => exact second
  exact ⟨_,s,ok,finish,((exchangeExact oneArray (by decide) _ _ ok).2 finish).1 0 1 (by decide)⟩

end CoTra.NghExchange
