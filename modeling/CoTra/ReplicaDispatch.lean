import CoTra.Runs
import Mathlib.Data.List.Basic
import Mathlib.Data.List.Infix
import Mathlib.Data.Fintype.Basic

/-! The dispatch of the collected shards (scala_build.h: send_replica_partition,
poll_build and the functions that write and read its messages). In turn m every other
machine sends machine m its count, its ids and its neighbours. The barriers between the
phases are not waited for: whatever holds here holds for every order in which
build_sync lets the machines go on. -/
namespace CoTra.ReplicaDispatch
open Runs

variable {n : Nat}

def maxQuerybufferSize : Nat := 24576

-- dispatch_ids and dispatch_nghs of every machine.
structure Dispatch (n : Nat) where
  ids : Fin n → Fin n → List Nat
  nghs : Fin n → Fin n → List Nat

inductive Msg (n : Nat) where
  | info (sender : Fin n) (idNum nghNum : Nat)
  | id (sender : Fin n) (words : List Nat)
  | ngh (sender : Fin n) (words : List Nat)
  deriving DecidableEq, Repr

def Msg.sender : Msg n → Fin n
  | .info sender _ _ => sender
  | .id sender _ => sender
  | .ngh sender _ => sender

/- One collected array: the announced and the received count, and the block that was
allocated, with the words written to it. -/
structure Part where
  num : Nat
  cnt : Nat
  block : List (Option Nat)
  deriving DecidableEq, Repr

structure Collect where
  recvMeta : Bool
  ids : Part
  nghs : Part
  deriving DecidableEq, Repr

inductive Phase where
  | info
  | id
  | ngh
  deriving DecidableEq, Repr

-- Where a machine stands in the loop over the partitions.
inductive Stage where
  | turn (m : Nat)
  | sendId (m idNum : Nat)
  | sendNgh (m nghNum : Nat)
  | collect (phase : Phase)
  deriving DecidableEq, Repr

structure Machine (n : Nat) where
  stage : Stage
  collect : Fin n → Collect
  dispatchMetaQueue : List (Msg n)
  dispatchIdQueue : List (Msg n)
  dispatchNghQueue : List (Msg n)

structure Net (n : Nat) where
  machine : Fin n → Machine n
  channel : Fin n → Fin n → List (Msg n)

def setMachine (s : Net n) (a : Fin n) (m : Machine n) : Net n := { s with machine := Function.update s.machine a m }

variable (x : Dispatch n)

-- max_trans_num: the room behind the sender and the count, or what is left.
def maxTransNum (left : Nat) : Nat := min ((maxQuerybufferSize - 4 - 8) / 4) left

def alloc (num : Nat) : Part := ⟨num,0,List.replicate num none⟩

-- memcpy behind the words received so far; `none` is a write outside the block.
def append (part : Part) (words : List Nat) : Option Part :=
  if part.cnt + words.length ≤ part.block.length then
    some { part with
      cnt := part.cnt + words.length
      block := part.block.take part.cnt ++ words.map some ++ part.block.drop (part.cnt + words.length) }
  else none

/- proc_dispatch_meta, proc_dispatch_id and proc_dispatch_ngh, on what belongs to the
sender. -/
def procOne (c : Collect) : Msg n → Option Collect
  | .info _ idNum nghNum => some ⟨true,alloc idNum,alloc nghNum⟩
  | .id _ words => (append c.ids words).map (fun part => { c with ids := part })
  | .ngh _ words => (append c.nghs words).map (fun part => { c with nghs := part })

def procDispatch (collect : Fin n → Collect) (msg : Msg n) : Option (Fin n → Collect) :=
  (procOne (collect msg.sender) msg).map (fun c => Function.update collect msg.sender c)

-- What poll_recv put into the queues, in the order of poll_build.
def queued (m : Machine n) : List (Msg n) := m.dispatchMetaQueue ++ m.dispatchIdQueue ++ m.dispatchNghQueue

def pollBuild (m : Machine n) : Option (Machine n) :=
  ((queued m).foldlM procDispatch m.collect).map (fun collect =>
    { m with collect := collect, dispatchMetaQueue := [], dispatchIdQueue := [], dispatchNghQueue := [] })

-- The branch of poll_recv for a message of the dispatch.
def pollRecv (m : Machine n) (msg : Msg n) : Machine n :=
  match msg with
  | .info .. => { m with dispatchMetaQueue := m.dispatchMetaQueue ++ [msg] }
  | .id .. => { m with dispatchIdQueue := m.dispatchIdQueue ++ [msg] }
  | .ngh .. => { m with dispatchNghQueue := m.dispatchNghQueue ++ [msg] }

def whole (words : List Nat) : Part := ⟨words.length,words.length,words.map some⟩

def takenOver (words : List Nat) : Part := ⟨words.length,0,words.map some⟩

-- clear_finish, and collect_local_ids_nghs for the machine's own part, which nobody counts.
def clearCollect (a : Fin n) (collect : Fin n → Collect) : Fin n → Collect := fun q =>
  if q = a then ⟨false,takenOver (x.ids a a),takenOver (x.nghs a a)⟩
  else { collect q with
    recvMeta := false
    ids := { (collect q).ids with cnt := 0 }
    nghs := { (collect q).nghs with cnt := 0 } }

def finished (a : Fin n) (collect : Fin n → Collect) : Phase → Bool
  | .info => decide (∀ q, q = a ∨ (collect q).recvMeta = true)
  | .id => decide (∀ q, q = a ∨ ¬(collect q).ids.cnt < (collect q).ids.num)
  | .ngh => decide (∀ q, q = a ∨ ¬(collect q).nghs.cnt < (collect q).nghs.num)

def post (s : Net n) (a p : Fin n) (msg : Msg n) : Net n :=
  { s with channel := Function.update s.channel a (Function.update (s.channel a) p (s.channel a p ++ [msg])) }

def setStage (s : Net n) (a : Fin n) (stage : Stage) : Net n := setMachine s a { s.machine a with stage := stage }

-- The next piece of an array, at most one buffer long.
def chunk (words : List Nat) (sent : Nat) : List Nat := (words.drop sent).take (maxTransNum (words.length - sent))

def nextPhase (a : Fin n) : Phase → Stage
  | .info => .collect .id
  | .id => .collect .ngh
  | .ngh => .turn (a + 1)

/- One step of the loop on machine a. -/
def advance (s : Net n) (a : Fin n) : Option (Net n) :=
  match (s.machine a).stage with
  | .turn m =>
    if h : m < n then
      if ⟨m,h⟩ = a then
        some (setMachine s a { s.machine a with stage := .collect .info, collect := clearCollect x a (s.machine a).collect })
      else
        some (setStage (post s a ⟨m,h⟩ (.info a (x.ids a ⟨m,h⟩).length (x.nghs a ⟨m,h⟩).length)) a (.sendId m 0))
    else none
  | .sendId m sent =>
    if h : m < n then
      if sent < (x.ids a ⟨m,h⟩).length then
        some (setStage (post s a ⟨m,h⟩ (.id a (chunk (x.ids a ⟨m,h⟩) sent))) a
          (.sendId m (sent + (chunk (x.ids a ⟨m,h⟩) sent).length)))
      else some (setStage s a (.sendNgh m 0))
    else none
  | .sendNgh m sent =>
    if h : m < n then
      if sent < (x.nghs a ⟨m,h⟩).length then
        some (setStage (post s a ⟨m,h⟩ (.ngh a (chunk (x.nghs a ⟨m,h⟩) sent))) a
          (.sendNgh m (sent + (chunk (x.nghs a ⟨m,h⟩) sent).length)))
      else some (setStage s a (.turn (m + 1)))
    else none
  | .collect phase =>
    if finished a (s.machine a).collect phase then some (setStage s a (nextPhase a phase)) else none

def poll (s : Net n) (a : Fin n) : Option (Net n) :=
  match (s.machine a).stage with
  | .collect phase =>
    if finished a (s.machine a).collect phase then none else (pollBuild (s.machine a)).map (setMachine s a)
  | _ => none

def deliver (s : Net n) (q p : Fin n) : Option (Net n) :=
  match s.channel q p with
  | msg :: rest => some { setMachine s p (pollRecv (s.machine p) msg) with
      channel := Function.update s.channel q (Function.update (s.channel q) p rest) }
  | [] => none

inductive Act (n : Nat) where
  | advance (a : Fin n)
  | poll (a : Fin n)
  | deliver (q p : Fin n)

def step (s : Net n) : Act n → Option (Net n)
  | .advance a => advance x s a
  | .poll a => poll s a
  | .deliver q p => deliver s q p

-- The collected fields are not initialised.
def start (collect : Fin n → Fin n → Collect) : Net n := ⟨fun a => ⟨.turn 0,collect a,[],[],[]⟩,fun _ _ => []⟩

section Stream

def rank : Msg n → Nat
  | .info .. => 0
  | .id .. => 1
  | .ngh .. => 2

def idWords (msgs : List (Msg n)) : List Nat :=
  msgs.flatMap (fun msg => match msg with | .id _ words => words | _ => [])

def nghWords (msgs : List (Msg n)) : List Nat :=
  msgs.flatMap (fun msg => match msg with | .ngh _ words => words | _ => [])

/- What q has posted to p when i ids and g neighbours are out: the counts, then the
pieces in order. -/
structure Posted (q p : Fin n) (i g top : Nat) (posted : List (Msg n)) : Prop where
  head : posted.head? = some (.info q (x.ids q p).length (x.nghs q p).length)
  order : posted.Pairwise (fun a b => rank a ≤ rank b)
  later : ∀ msg ∈ posted.tail, 0 < rank msg
  below : ∀ msg ∈ posted, rank msg ≤ top
  senders : ∀ msg ∈ posted, msg.sender = q
  ids : idWords posted = (x.ids q p).take i
  nghs : nghWords posted = (x.nghs q p).take g

def Sent (q p : Fin n) : Option (Nat × Nat × Nat) → List (Msg n) → Prop
  | none, posted => posted = []
  | some (i,g,top), posted => Posted x q p i g top posted

def turnOf (a : Fin n) : Stage → Nat
  | .turn m => m
  | .sendId m _ => m
  | .sendNgh m _ => m
  | .collect _ => a

def withinTurn (q p : Fin n) : Stage → Option (Nat × Nat × Nat)
  | .sendId _ sent => some (sent,0,1)
  | .sendNgh _ sent => some ((x.ids q p).length,sent,2)
  | _ => none

-- How far q is with the part of p.
def sentTo (q p : Fin n) (stage : Stage) : Option (Nat × Nat × Nat) :=
  if p.val < turnOf q stage then some ((x.ids q p).length,(x.nghs q p).length,2)
  else if p.val = turnOf q stage then withinTurn x q p stage
  else none

-- How far p is with its own turn.
def level (p : Fin n) : Stage → Nat
  | .collect .info => 1
  | .collect .id => 2
  | .collect .ngh => 3
  | stage => if p.val < turnOf p stage then 4 else 0

structure PartOk (all got : List Nat) (part : Part) : Prop where
  num : part.num = all.length
  cnt : part.cnt = got.length
  first : got <+: all
  block : part.block = got.map some ++ List.replicate (all.length - got.length) none

/- The fields for sender q after the messages `got` of it. -/
structure Held (q p : Fin n) (got : List (Msg n)) (c : Collect) : Prop where
  told : c.recvMeta = true ↔ got ≠ []
  ids : got ≠ [] → PartOk (x.ids q p) (idWords got) c.ids
  nghs : got ≠ [] → PartOk (x.nghs q p) (nghWords got) c.nghs

variable {x} {q p : Fin n} {got posted : List (Msg n)} {i g top : Nat}

theorem appendOk {all got words : List Nat} {part : Part} (ok : PartOk all got part) (next : got ++ words <+: all) :
    ∃ part', append part words = some part' ∧ PartOk all (got ++ words) part' := by
  have room : got.length + words.length ≤ all.length := by
    have le := next.length_le
    rwa [List.length_append] at le
  have size : part.block.length = all.length := by
    rw [ok.block,List.length_append,List.length_map,List.length_replicate]
    omega
  have left : part.block.take part.cnt = got.map some := by
    rw [ok.block,ok.cnt,List.take_left' (List.length_map _)]
  have right : part.block.drop (part.cnt + words.length) =
      List.replicate (all.length - (got ++ words).length) none := by
    rw [ok.block,ok.cnt,← List.drop_drop,List.drop_left' (List.length_map _),List.drop_replicate,List.length_append,
      Nat.sub_sub]
  refine ⟨_,if_pos (by rw [ok.cnt,size]; exact room),ok.num,?_,next,?_⟩
  · rw [List.length_append,← ok.cnt]
  · rw [left,right,List.map_append]

theorem allocOk (all : List Nat) : PartOk all [] (alloc all.length) :=
  ⟨rfl,rfl,List.nil_prefix,rfl⟩

theorem idWordsAppend (a b : List (Msg n)) : idWords (a ++ b) = idWords a ++ idWords b := List.flatMap_append

theorem nghWordsAppend (a b : List (Msg n)) : nghWords (a ++ b) = nghWords a ++ nghWords b := List.flatMap_append

/- What was received is the beginning of what was posted. -/
theorem Posted.firstIds {more : List (Msg n)} (sent : Posted x q p i g top (got ++ more)) :
    idWords got <+: x.ids q p := by
  have whole := sent.ids
  rw [idWordsAppend] at whole
  exact (List.prefix_append (idWords got) (idWords more)).trans (whole ▸ List.take_prefix i _)

theorem Posted.firstNghs {more : List (Msg n)} (sent : Posted x q p i g top (got ++ more)) :
    nghWords got <+: x.nghs q p := by
  have whole := sent.nghs
  rw [nghWordsAppend] at whole
  exact (List.prefix_append (nghWords got) (nghWords more)).trans (whole ▸ List.take_prefix g _)

theorem procOneHeld {msg : Msg n} {more : List (Msg n)} {c : Collect} (held : Held x q p got c)
    (sent : Posted x q p i g top (got ++ msg :: more)) :
    ∃ c', procOne c msg = some c' ∧ Held x q p (got ++ [msg]) c' := by
  have split : got ++ msg :: more = (got ++ [msg]) ++ more := by simp
  have ids := (split ▸ sent).firstIds
  have nghs := (split ▸ sent).firstNghs
  have some' : got ++ [msg] ≠ [] := by simp
  rcases eq_or_ne got [] with rfl | earlier
  · have head := sent.head
    rw [List.nil_append,List.head?_cons] at head
    cases Option.some.inj head
    exact ⟨_,rfl,⟨fun _ => some',fun _ => rfl⟩,fun _ => allocOk _,fun _ => allocOk _⟩
  · have told := held.told.mpr earlier
    rw [idWordsAppend] at ids
    rw [nghWordsAppend] at nghs
    cases msg with
    | info sender idNum nghNum =>
      have member : Msg.info sender idNum nghNum ∈ (got ++ .info sender idNum nghNum :: more).tail := by
        cases got with
        | nil => exact absurd rfl earlier
        | cons first rest => simp
      exact absurd (sent.later _ member) (lt_irrefl 0)
    | id sender words =>
      obtain ⟨part,write,ok⟩ := appendOk (held.ids earlier) ids
      refine ⟨{ c with ids := part },?_,⟨fun _ => some',fun _ => told⟩,fun _ => ?_,fun _ => ?_⟩
      · rw [procOne,show append c.ids words = some part from List.append_nil words ▸ write,Option.map_some]
      · rw [idWordsAppend]
        exact ok
      · rw [nghWordsAppend]
        exact (List.append_nil (nghWords got)).symm ▸ held.nghs earlier
    | ngh sender words =>
      obtain ⟨part,write,ok⟩ := appendOk (held.nghs earlier) nghs
      refine ⟨{ c with nghs := part },?_,⟨fun _ => some',fun _ => told⟩,fun _ => ?_,fun _ => ?_⟩
      · rw [procOne,show append c.nghs words = some part from List.append_nil words ▸ write,Option.map_some]
      · rw [idWordsAppend]
        exact (List.append_nil (idWords got)).symm ▸ held.ids earlier
      · rw [nghWordsAppend]
        exact ok

theorem sentToTurn (q : Fin n) {m : Nat} (before : ¬p.val < m) : sentTo x q p (.turn m) = none := by
  rw [sentTo,turnOf,if_neg before]
  split <;> rfl

theorem sentSome {sent : Option (Nat × Nat × Nat)} (ok : Sent x q p sent posted) (some' : posted ≠ []) :
    ∃ i g top, Posted x q p i g top posted := by
  cases sent with
  | none => exact absurd ok some'
  | some t => exact ⟨t.1,t.2.1,t.2.2,ok⟩

end Stream

section Invariant

def toSender (q : Fin n) (msgs : List (Msg n)) : List (Msg n) := msgs.filter (fun msg => msg.sender = q)

/- From q to p: `got` was processed, the rest of what q has posted is in p's queues or in
the channel. -/
structure Pair (s : Net n) (q p : Fin n) (got : List (Msg n)) : Prop where
  sent : Sent x q p (sentTo x q p (s.machine q).stage)
    (got ++ (toSender q (queued (s.machine p)) ++ s.channel q p))
  early : level p (s.machine p).stage = 0 → got = []
  held : 1 ≤ level p (s.machine p).stage → Held x q p got ((s.machine p).collect q)
  told : 2 ≤ level p (s.machine p).stage → got ≠ []
  ids : 3 ≤ level p (s.machine p).stage → idWords got = x.ids q p
  nghs : 4 ≤ level p (s.machine p).stage → nghWords got = x.nghs q p

structure Queues (p : Fin n) (m : Machine n) : Prop where
  info : ∀ msg ∈ m.dispatchMetaQueue, rank msg = 0
  id : ∀ msg ∈ m.dispatchIdQueue, rank msg = 1
  ngh : ∀ msg ∈ m.dispatchNghQueue, rank msg = 2
  other : ∀ msg ∈ queued m, msg.sender ≠ p

def Away (a : Fin n) : Stage → Prop
  | .sendId m _ => m ≠ a
  | .sendNgh m _ => m ≠ a
  | _ => True

structure Exchanged (s : Net n) : Prop where
  queues : ∀ p, Queues p (s.machine p)
  away : ∀ a, Away a (s.machine a).stage
  noSelf : ∀ a, s.channel a a = []
  pair : ∀ q p, q ≠ p → ∃ got, Pair x s q p got
  own : ∀ p, 1 ≤ level p (s.machine p).stage → ((s.machine p).collect p).ids = takenOver (x.ids p p) ∧
    ((s.machine p).collect p).nghs = takenOver (x.nghs p p)

variable {x} {s t : Net n}

theorem startExchanged (x : Dispatch n) (collect : Fin n → Fin n → Collect) : Exchanged x (start collect) := by
  have none' : ∀ p : Fin n, level p (.turn 0) = 0 := fun p => by simp [level,turnOf]
  refine ⟨fun p => ?_,fun a => trivial,fun a => rfl,fun q p _ => ⟨[],?_,fun _ => rfl,?_,?_,?_,?_⟩,fun p no => ?_⟩
  · constructor <;> intro msg no <;> exact absurd no List.not_mem_nil
  · rw [show ((start collect).machine q).stage = .turn 0 from rfl,sentToTurn q (Nat.not_lt_zero p.val)]
    rfl
  all_goals
    try intro no
    simp only [start,none'] at no
    omega

/- A step of the sender: its stage, and what it adds to its channels. -/
theorem senderKeeps (before : Exchanged x s) {a : Fin n} {stage : Stage} (add : Fin n → List (Msg n))
    (machine : t.machine = Function.update s.machine a { s.machine a with stage := stage })
    (channel : ∀ q p, t.channel q p = s.channel q p ++ if q = a then add p else [])
    (sent : ∀ p, a ≠ p → ∀ posted, Sent x a p (sentTo x a p (s.machine a).stage) posted →
      Sent x a p (sentTo x a p stage) (posted ++ add p))
    (same : level a stage = level a (s.machine a).stage) (away : Away a stage) (none' : add a = []) :
    Exchanged x t := by
  have levels : ∀ p, level p (t.machine p).stage = level p (s.machine p).stage := by
    intro p
    rw [machine]
    rcases eq_or_ne p a with rfl | other
    · rw [Function.update_self]
      exact same
    · rw [Function.update_of_ne other]
  have collects : ∀ p, (t.machine p).collect = (s.machine p).collect := by
    intro p
    rw [machine]
    rcases eq_or_ne p a with rfl | other
    · rw [Function.update_self]
    · rw [Function.update_of_ne other]
  have queues : ∀ p, queued (t.machine p) = queued (s.machine p) := by
    intro p
    rw [machine]
    rcases eq_or_ne p a with rfl | other
    · rw [Function.update_self]
      rfl
    · rw [Function.update_of_ne other]
  refine ⟨fun p => ?_,fun b => ?_,fun b => ?_,fun q p differ => ?_,fun p => ?_⟩
  · rw [machine]
    rcases eq_or_ne p a with rfl | other
    · rw [Function.update_self]
      have old := before.queues p
      exact ⟨old.info,old.id,old.ngh,old.other⟩
    · rw [Function.update_of_ne other]
      exact before.queues p
  · rw [machine]
    rcases eq_or_ne b a with rfl | other
    · rw [Function.update_self]
      exact away
    · rw [Function.update_of_ne other]
      exact before.away b
  · rw [channel,before.noSelf b,List.nil_append]
    split
    · rename_i here
      rw [here,none']
    · rfl
  · obtain ⟨got,old⟩ := before.pair q p differ
    refine ⟨got,?_,?_,?_,?_,?_,?_⟩
    · rw [queues,channel,← List.append_assoc,← List.append_assoc,List.append_assoc got]
      rcases eq_or_ne q a with rfl | other
      · rw [machine,Function.update_self,if_pos rfl]
        exact sent p differ _ old.sent
      · rw [machine,Function.update_of_ne other,if_neg other,List.append_nil]
        exact old.sent
    all_goals rw [levels]
    · exact old.early
    · rw [collects]
      exact old.held
    · exact old.told
    · exact old.ids
    · exact old.nghs
  · rw [levels,collects]
    exact before.own p

end Invariant

section Sending

variable {x} {a p : Fin n} {posted : List (Msg n)} {s t : Net n}

theorem postInfo (a p : Fin n) :
    Posted x a p 0 0 1 [.info a (x.ids a p).length (x.nghs a p).length] := by
  refine ⟨rfl,List.pairwise_singleton _ _,fun msg no => absurd no List.not_mem_nil,fun msg only => ?_,fun msg only => ?_,
    rfl,rfl⟩
  · rw [List.mem_singleton.mp only]
    exact Nat.zero_le 1
  · rw [List.mem_singleton.mp only]
    rfl

theorem takeChunk (words : List Nat) (sent : Nat) :
    words.take sent ++ chunk words sent = words.take (sent + (chunk words sent).length) := by
  have size : (chunk words sent).length = maxTransNum (words.length - sent) := by
    rw [chunk,List.length_take,List.length_drop,maxTransNum]
    omega
  rw [size,chunk,List.take_add]

theorem postMsg {i g top i' g' : Nat} (old : Posted x a p i g top posted) {msg : Msg n} (first : 0 < rank msg)
    (last : rank msg = top) (sender : msg.sender = a)
    (ids : idWords posted ++ idWords [msg] = (x.ids a p).take i')
    (nghs : nghWords posted ++ nghWords [msg] = (x.nghs a p).take g') :
    Posted x a p i' g' top (posted ++ [msg]) := by
  have some' : posted ≠ [] := by
    intro none'
    have head := old.head
    rw [none'] at head
    cases head
  refine ⟨?_,?_,fun m member => ?_,fun m member => ?_,fun m member => ?_,?_,?_⟩
  · rw [List.head?_append_of_ne_nil _ some']
    exact old.head
  · refine List.pairwise_append.mpr ⟨old.order,List.pairwise_singleton _ _,fun m inside m' only => ?_⟩
    rw [List.mem_singleton.mp only,last]
    exact old.below m inside
  · rw [List.tail_append_of_ne_nil some'] at member
    rcases List.mem_append.mp member with inside | only
    · exact old.later m inside
    · rw [List.mem_singleton.mp only]
      exact first
  · rcases List.mem_append.mp member with inside | only
    · exact old.below m inside
    · rw [List.mem_singleton.mp only,last]
  · rcases List.mem_append.mp member with inside | only
    · exact old.senders m inside
    · rw [List.mem_singleton.mp only,sender]
  · rw [idWordsAppend,ids]
  · rw [nghWordsAppend,nghs]

theorem postId {sent : Nat} (old : Posted x a p sent 0 1 posted) :
    Posted x a p (sent + (chunk (x.ids a p) sent).length) 0 1 (posted ++ [.id a (chunk (x.ids a p) sent)]) := by
  refine postMsg old Nat.one_pos rfl rfl ?_ ?_
  · rw [old.ids,← takeChunk]
    simp [idWords]
  · rw [old.nghs]
    simp [nghWords]

theorem postNgh {sent : Nat} (old : Posted x a p (x.ids a p).length sent 2 posted) :
    Posted x a p (x.ids a p).length (sent + (chunk (x.nghs a p) sent).length) 2
      (posted ++ [.ngh a (chunk (x.nghs a p) sent)]) := by
  refine postMsg old Nat.two_pos rfl rfl ?_ ?_
  · rw [old.ids]
    simp [idWords]
  · rw [old.nghs,← takeChunk]
    simp [nghWords]

-- The ids are out, and the neighbours begin.
theorem idsOut {sent : Nat} (old : Posted x a p sent 0 1 posted) (all : ¬sent < (x.ids a p).length) :
    Posted x a p (x.ids a p).length 0 2 posted := by
  refine ⟨old.head,old.order,old.later,fun msg inside => (old.below msg inside).trans (Nat.le_succ 1),old.senders,?_,old.nghs⟩
  rw [old.ids,List.take_of_length_le (by omega),List.take_length]

theorem nghsOut {sent : Nat} (old : Posted x a p (x.ids a p).length sent 2 posted) (all : ¬sent < (x.nghs a p).length) :
    Posted x a p (x.ids a p).length (x.nghs a p).length 2 posted := by
  refine ⟨old.head,old.order,old.later,old.below,old.senders,old.ids,?_⟩
  rw [old.nghs,List.take_of_length_le (by omega),List.take_length]

-- Only the machine whose turn it is gets something.
def addFor (m : Fin n) (msg : Msg n) (p : Fin n) : List (Msg n) := if p = m then [msg] else []

theorem sentToOther {stage stage' : Stage} (same : turnOf a stage = turnOf a stage') (other : p.val ≠ turnOf a stage) :
    sentTo x a p stage = sentTo x a p stage' := by
  simp only [sentTo,← same,if_neg other]

theorem sentToHere {stage : Stage} (here : p.val = turnOf a stage) : sentTo x a p stage = withinTurn x a p stage := by
  rw [sentTo,if_neg (by omega),if_pos here]

theorem sentToPast {stage : Stage} (past : p.val < turnOf a stage) :
    sentTo x a p stage = some ((x.ids a p).length,(x.nghs a p).length,2) := if_pos past

/- A posting step within the turn of m. -/
theorem postKeeps (before : Exchanged x s) {m : Fin n} (other : m ≠ a) {msg : Msg n} {stage : Stage}
    (turn : turnOf a (s.machine a).stage = m) (turn' : turnOf a stage = m)
    (same : level a stage = level a (s.machine a).stage) (away : Away a stage)
    (sent : ∀ posted, Sent x a m (sentTo x a m (s.machine a).stage) posted → Sent x a m (sentTo x a m stage) (posted ++ [msg])) :
    Exchanged x (setStage (post s a m msg) a stage) := by
  refine senderKeeps before (addFor m msg) rfl (fun q p => ?_) (fun p _ posted old => ?_) same away (if_neg (Ne.symm other))
  · rcases eq_or_ne q a with rfl | differ
    · rcases eq_or_ne p m with rfl | far
      · simp [setStage,setMachine,post,addFor]
      · simp [setStage,setMachine,post,addFor,far]
    · simp [setStage,setMachine,post,differ]
  · rcases eq_or_ne p m with rfl | far
    · rw [addFor,if_pos rfl]
      exact sent posted old
    · have unchanged : sentTo x a p stage = sentTo x a p (s.machine a).stage := by
        refine sentToOther (turn'.trans turn.symm) ?_
        rw [turn']
        exact fun val => far (Fin.ext val)
      rw [addFor,if_neg far,List.append_nil,unchanged]
      exact old

/- A step that posts nothing. -/
theorem quietKeeps (before : Exchanged x s) {stage : Stage} (same : level a stage = level a (s.machine a).stage)
    (away : Away a stage) (sent : ∀ p, a ≠ p → ∀ posted, Sent x a p (sentTo x a p (s.machine a).stage) posted →
      Sent x a p (sentTo x a p stage) posted) : Exchanged x (setStage s a stage) := by
  refine senderKeeps before (fun _ => []) rfl (fun q p => ?_) (fun p differ posted old => ?_) same away rfl
  · split <;> exact (List.append_nil _).symm
  · rw [List.append_nil]
    exact sent p differ posted old

theorem levelSending {stage stage' : Stage} {m : Nat} (stage0 : stage = .turn m ∨ (∃ k, stage = .sendId m k) ∨ ∃ k, stage = .sendNgh m k)
    (stage1 : (∃ k, stage' = .sendId m k) ∨ ∃ k, stage' = .sendNgh m k) : level a stage' = level a stage := by
  rcases stage0 with rfl | ⟨k,rfl⟩ | ⟨k,rfl⟩ <;> rcases stage1 with ⟨k',rfl⟩ | ⟨k',rfl⟩ <;> rfl

/- The sending half of the loop. -/
theorem sendKeeps (before : Exchanged x s) (done : advance x s a = some t)
    (sending : (∃ m, (s.machine a).stage = .turn m ∧ m ≠ a) ∨ (∃ m k, (s.machine a).stage = .sendId m k) ∨
      ∃ m k, (s.machine a).stage = .sendNgh m k) : Exchanged x t := by
  have away := before.away a
  unfold advance at done
  rcases sending with ⟨m,stage,other⟩ | ⟨m,k,stage⟩ | ⟨m,k,stage⟩
  · simp only [stage] at done
    split at done <;> try contradiction
    rename_i bound
    have differ : (⟨m,bound⟩ : Fin n) ≠ a := fun same => other (congrArg Fin.val same)
    rw [if_neg differ] at done
    cases Option.some.inj done
    refine postKeeps before differ (by rw [stage]; rfl) rfl ?_ other (fun posted old => ?_)
    · exact levelSending (Or.inl stage) (Or.inl ⟨0,rfl⟩)
    · rw [stage,sentToHere rfl] at old
      rw [sentToHere rfl,show posted = [] from old]
      exact postInfo a ⟨m,bound⟩
  · simp only [stage] at done
    split at done <;> try contradiction
    rename_i bound
    have other : m ≠ a := by
      rw [stage] at away
      exact away
    have differ : (⟨m,bound⟩ : Fin n) ≠ a := fun same => other (congrArg Fin.val same)
    split at done
    · cases Option.some.inj done
      refine postKeeps before differ (by rw [stage]; rfl) rfl ?_ other (fun posted old => ?_)
      · exact levelSending (Or.inr (Or.inl ⟨k,stage⟩)) (Or.inl ⟨_,rfl⟩)
      · rw [stage,sentToHere rfl] at old
        rw [sentToHere rfl]
        exact postId old
    · rename_i all
      cases Option.some.inj done
      refine quietKeeps before ?_ other (fun p _ posted old => ?_)
      · exact levelSending (Or.inr (Or.inl ⟨k,stage⟩)) (Or.inr ⟨0,rfl⟩)
      · rw [stage] at old
        rcases eq_or_ne p.val m with rfl | far
        · rw [sentToHere rfl] at old ⊢
          exact idsOut old all
        · exact (sentToOther rfl far : sentTo x a p (.sendId m k) = sentTo x a p (.sendNgh m 0)) ▸ old
  · simp only [stage] at done
    split at done <;> try contradiction
    rename_i bound
    have other : m ≠ a := by
      rw [stage] at away
      exact away
    have differ : (⟨m,bound⟩ : Fin n) ≠ a := fun same => other (congrArg Fin.val same)
    split at done
    · cases Option.some.inj done
      refine postKeeps before differ (by rw [stage]; rfl) rfl ?_ other (fun posted old => ?_)
      · exact levelSending (Or.inr (Or.inr ⟨k,stage⟩)) (Or.inr ⟨_,rfl⟩)
      · rw [stage,sentToHere rfl] at old
        rw [sentToHere rfl]
        exact postNgh old
    · rename_i all
      cases Option.some.inj done
      refine quietKeeps before ?_ trivial (fun p _ posted old => ?_)
      · have same : a.val < m + 1 ↔ a.val < m := by omega
        rw [stage]
        exact if_congr same rfl rfl
      · rw [stage] at old
        rcases Nat.lt_trichotomy p.val m with past | rfl | later
        · rw [sentToPast past] at old
          rwa [sentToPast (Nat.lt_succ_of_lt past)]
        · rw [sentToHere rfl] at old
          rw [sentToPast (Nat.lt_succ_self _)]
          exact nghsOut old all
        · rw [sentTo,if_neg (by simp only [turnOf]; omega),if_neg (by simp only [turnOf]; omega)] at old
          rwa [sentToTurn a (by omega)]

end Sending

section Receiving

variable {x} {a p q : Fin n} {s t : Net n}

theorem toSenderCons (q : Fin n) (msg : Msg n) (rest : List (Msg n)) :
    toSender q (msg :: rest) = if msg.sender = q then msg :: toSender q rest else toSender q rest := by
  rw [toSender,List.filter_cons]
  simp only [decide_eq_true_eq]
  rfl

theorem toSenderAppend (q : Fin n) (a b : List (Msg n)) : toSender q (a ++ b) = toSender q a ++ toSender q b :=
  List.filter_append ..

/- poll_build goes through the queues; for each sender it is that sender's messages. -/
theorem drainHeld {msgs : List (Msg n)} {collect : Fin n → Collect} (p : Fin n) (got rest : Fin n → List (Msg n))
    (other : ∀ msg ∈ msgs, msg.sender ≠ p)
    (held : ∀ q, q ≠ p → Held x q p (got q) (collect q))
    (sent : ∀ q, q ≠ p → ∃ how, Sent x q p how (got q ++ (toSender q msgs ++ rest q))) :
    ∃ collect', msgs.foldlM procDispatch collect = some collect' ∧ collect' p = collect p ∧
      ∀ q, q ≠ p → Held x q p (got q ++ toSender q msgs) (collect' q) := by
  induction msgs generalizing collect got with
  | nil =>
    refine ⟨collect,rfl,rfl,fun q differ => ?_⟩
    rw [show toSender q [] = [] from rfl,List.append_nil]
    exact held q differ
  | cons msg msgs ih =>
    have away := other msg List.mem_cons_self
    obtain ⟨how,whole⟩ := sent msg.sender away
    rw [toSenderCons,if_pos rfl,List.cons_append] at whole
    obtain ⟨i,g,top,posted⟩ := sentSome whole (by simp)
    obtain ⟨c,one,next⟩ := procOneHeld (held msg.sender away) posted
    have first : procDispatch collect msg = some (Function.update collect msg.sender c) := by
      rw [procDispatch,one,Option.map_some]
    have held' : ∀ q, q ≠ p → Held x q p (Function.update got msg.sender (got msg.sender ++ [msg]) q)
        (Function.update collect msg.sender c q) := by
      intro q differ
      rcases eq_or_ne q msg.sender with rfl | far
      · rw [Function.update_self,Function.update_self]
        exact next
      · rw [Function.update_of_ne far,Function.update_of_ne far]
        exact held q differ
    have sent' : ∀ q, q ≠ p → ∃ how, Sent x q p how
        (Function.update got msg.sender (got msg.sender ++ [msg]) q ++ (toSender q msgs ++ rest q)) := by
      intro q differ
      obtain ⟨how',old⟩ := sent q differ
      rw [toSenderCons] at old
      rcases eq_or_ne q msg.sender with rfl | far
      · rw [if_pos rfl,List.cons_append] at old
        rw [Function.update_self,List.append_assoc,List.singleton_append]
        exact ⟨how',old⟩
      · rw [if_neg (Ne.symm far)] at old
        rw [Function.update_of_ne far]
        exact ⟨how',old⟩
    obtain ⟨collect',loop,same,all⟩ := ih _ (fun m later => other m (List.mem_cons_of_mem msg later)) held' sent'
    refine ⟨collect',?_,?_,fun q differ => ?_⟩
    · rw [List.foldlM_cons,first]
      exact loop
    · rw [same,Function.update_of_ne (Ne.symm away)]
    · have last := all q differ
      rw [toSenderCons]
      rcases eq_or_ne q msg.sender with rfl | far
      · rw [Function.update_self,List.append_assoc,List.singleton_append] at last
        rwa [if_pos rfl]
      · rw [Function.update_of_ne far] at last
        rwa [if_neg (Ne.symm far)]

/- Nothing is lost or overtaken when a message is sorted into its queue. -/
theorem pollRecvOrder {m : Machine n} {msg : Msg n} {got rest : List (Msg n)} (queues : Queues p m)
    (sender : msg.sender = q) (order : (got ++ (toSender q (queued m) ++ msg :: rest)).Pairwise (fun a b => rank a ≤ rank b)) :
    toSender q (queued (pollRecv m msg)) ++ rest = toSender q (queued m) ++ msg :: rest := by
  have before : ∀ other ∈ toSender q (queued m), rank other ≤ rank msg := by
    intro other inside
    have parts := (List.pairwise_append.mp (List.pairwise_append.mp order).2.1).2.2
    exact parts other inside msg List.mem_cons_self
  have here : toSender q [msg] = [msg] := by
    rw [toSenderCons,if_pos sender]
    rfl
  have emptyId : rank msg = 0 → toSender q m.dispatchIdQueue = [] := by
    intro zero
    refine List.eq_nil_iff_forall_not_mem.mpr (fun other inside => ?_)
    have le := before other (by
      rw [queued,toSenderAppend,toSenderAppend]
      exact List.mem_append_left _ (List.mem_append_right _ inside))
    have one := queues.id other (List.mem_of_mem_filter inside)
    omega
  have emptyNgh : rank msg < 2 → toSender q m.dispatchNghQueue = [] := by
    intro less
    refine List.eq_nil_iff_forall_not_mem.mpr (fun other inside => ?_)
    have le := before other (by
      rw [queued,toSenderAppend]
      exact List.mem_append_right _ inside)
    have two := queues.ngh other (List.mem_of_mem_filter inside)
    omega
  cases msg with
  | info sender' idNum nghNum =>
    simp only [pollRecv,queued,toSenderAppend,here,emptyId rfl,emptyNgh Nat.two_pos]
    simp
  | id sender' words =>
    simp only [pollRecv,queued,toSenderAppend,here,emptyNgh Nat.one_lt_two]
    simp
  | ngh sender' words =>
    simp only [pollRecv,queued,toSenderAppend,here]
    simp

theorem pollRecvOther {m : Machine n} {msg : Msg n} (other : msg.sender ≠ q) :
    toSender q (queued (pollRecv m msg)) = toSender q (queued m) := by
  have none' : toSender q [msg] = [] := by
    rw [toSenderCons,if_neg other]
    rfl
  cases msg <;> simp only [pollRecv,queued,toSenderAppend,none',List.append_nil]

theorem pollRecvQueues {m : Machine n} {msg : Msg n} (queues : Queues p m) (other : msg.sender ≠ p) :
    Queues p (pollRecv m msg) := by
  obtain ⟨info,id,ngh,away⟩ := queues
  have members : ∀ later ∈ queued (pollRecv m msg), later ∈ queued m ∨ later = msg := by
    intro later inside
    cases msg <;> simp only [pollRecv,queued,List.mem_append,List.mem_singleton] at inside ⊢ <;> tauto
  have senders : ∀ later ∈ queued (pollRecv m msg), later.sender ≠ p := by
    intro later inside
    rcases members later inside with old | rfl
    · exact away later old
    · exact other
  cases msg with
  | info sender idNum nghNum =>
    refine ⟨fun later inside => ?_,id,ngh,senders⟩
    rcases List.mem_append.mp inside with old | only
    · exact info later old
    · rw [List.mem_singleton.mp only]
      rfl
  | id sender words =>
    refine ⟨info,fun later inside => ?_,ngh,senders⟩
    rcases List.mem_append.mp inside with old | only
    · exact id later old
    · rw [List.mem_singleton.mp only]
      rfl
  | ngh sender words =>
    refine ⟨info,id,fun later inside => ?_,senders⟩
    rcases List.mem_append.mp inside with old | only
    · exact ngh later old
    · rw [List.mem_singleton.mp only]
      rfl

theorem pollRecvStage (m : Machine n) (msg : Msg n) :
    (pollRecv m msg).stage = m.stage ∧ (pollRecv m msg).collect = m.collect := by
  cases msg <;> exact ⟨rfl,rfl⟩

/- A step of the receiver that takes `more` of each sender's queued messages. -/
theorem receiverKeeps (before : Exchanged x s) {machine : Machine n} (queues : Queues p machine) (away : Away p machine.stage)
    (sentTo' : ∀ r, r ≠ p → sentTo x p r machine.stage = sentTo x p r (s.machine p).stage)
    (pairs : ∀ q, q ≠ p → ∃ got got', Pair x s q p got ∧ got' ++ toSender q (queued machine) =
        got ++ toSender q (queued (s.machine p)) ∧ (level p machine.stage = 0 → got' = []) ∧
      (1 ≤ level p machine.stage → Held x q p got' (machine.collect q)) ∧ (2 ≤ level p machine.stage → got' ≠ []) ∧
      (3 ≤ level p machine.stage → idWords got' = x.ids q p) ∧ (4 ≤ level p machine.stage → nghWords got' = x.nghs q p))
    (own : 1 ≤ level p machine.stage → (machine.collect p).ids = takenOver (x.ids p p) ∧
      (machine.collect p).nghs = takenOver (x.nghs p p)) : Exchanged x (setMachine s p machine) := by
  have here : (setMachine s p machine).machine p = machine := Function.update_self ..
  have there : ∀ r, r ≠ p → (setMachine s p machine).machine r = s.machine r := fun r differ =>
    Function.update_of_ne differ ..
  refine ⟨fun r => ?_,fun r => ?_,before.noSelf,fun q r differ => ?_,fun r => ?_⟩
  · rcases eq_or_ne r p with rfl | other
    · rw [here]
      exact queues
    · rw [there r other]
      exact before.queues r
  · rcases eq_or_ne r p with rfl | other
    · rw [here]
      exact away
    · rw [there r other]
      exact before.away r
  · rcases eq_or_ne r p with rfl | other
    · obtain ⟨got,got',old,same,early,held,told,ids,nghs⟩ := pairs q differ
      refine ⟨got',?_,?_,?_,?_,?_,?_⟩
      · rw [here,there q differ,← List.append_assoc,same,List.append_assoc]
        exact old.sent
      all_goals rw [here]
      · exact early
      · exact held
      · exact told
      · exact ids
      · exact nghs
    · obtain ⟨got,old⟩ := before.pair q r differ
      refine ⟨got,?_,?_,?_,?_,?_,?_⟩
      · rw [there r other]
        rcases eq_or_ne q p with rfl | far
        · rw [here,sentTo' r other]
          exact old.sent
        · rw [there q far]
          exact old.sent
      all_goals rw [there r other]
      · exact old.early
      · exact old.held
      · exact old.told
      · exact old.ids
      · exact old.nghs
  · rcases eq_or_ne r p with rfl | other
    · rw [here]
      exact own
    · rw [there r other]
      exact before.own r

theorem levelCollect (p : Fin n) (phase : Phase) : 1 ≤ level p (.collect phase) ∧ level p (.collect phase) ≤ 3 := by
  cases phase <;> simp [level]

/- What poll_build makes of the machine, in any state of the dispatch. -/
theorem pollBuildHeld (before : Exchanged x s) (entered : 1 ≤ level p (s.machine p).stage) :
    ∃ (machine : Machine n) (got : Fin n → List (Msg n)), pollBuild (s.machine p) = some machine ∧ machine.stage = (s.machine p).stage ∧ queued machine = [] ∧
      machine.collect p = (s.machine p).collect p ∧ ∀ q, q ≠ p → Pair x s q p (got q) ∧
        Held x q p (got q ++ toSender q (queued (s.machine p))) (machine.collect q) := by
  have pairs : ∀ q, ∃ got, q ≠ p → Pair x s q p got := by
    intro q
    by_cases differ : q ≠ p
    · obtain ⟨got,pair⟩ := before.pair q p differ
      exact ⟨got,fun _ => pair⟩
    · exact ⟨[],fun no => absurd no differ⟩
  choose got pairs using pairs
  obtain ⟨collect,loop,own,held⟩ := drainHeld p got (fun q => s.channel q p) (before.queues p).other
    (fun q differ => (pairs q differ).held entered) (fun q differ => ⟨_,(pairs q differ).sent⟩)
  refine ⟨{ s.machine p with
    collect := collect, dispatchMetaQueue := [], dispatchIdQueue := [], dispatchNghQueue := [] },got,?_,rfl,rfl,own,
    fun q differ => ⟨pairs q differ,held q differ⟩⟩
  rw [pollBuild,loop,Option.map_some]

/- Processing more of the stream keeps what is complete. -/
theorem Pair.more {got : List (Msg n)} (pair : Pair x s q p got) :
    (2 ≤ level p (s.machine p).stage → got ++ toSender q (queued (s.machine p)) ≠ []) ∧
    (3 ≤ level p (s.machine p).stage → idWords (got ++ toSender q (queued (s.machine p))) = x.ids q p) ∧
    (4 ≤ level p (s.machine p).stage → nghWords (got ++ toSender q (queued (s.machine p))) = x.nghs q p) := by
  have sent := pair.sent
  rw [← List.append_assoc] at sent
  have some' : ∀ two : 2 ≤ level p (s.machine p).stage, got ++ toSender q (queued (s.machine p)) ≠ [] := by
    intro two none'
    exact pair.told two (List.append_eq_nil_iff.mp none').1
  refine ⟨some',fun three => ?_,fun four => ?_⟩
  · obtain ⟨i,g,top,posted⟩ := sentSome sent (List.append_ne_nil_of_left_ne_nil (some' (by omega)) _)
    have first := posted.firstIds
    have done := pair.ids three
    rw [idWordsAppend,done] at first ⊢
    exact first.eq_of_length_le (by rw [List.length_append]; omega)
  · obtain ⟨i,g,top,posted⟩ := sentSome sent (List.append_ne_nil_of_left_ne_nil (some' (by omega)) _)
    have first := posted.firstNghs
    have done := pair.nghs four
    rw [nghWordsAppend,done] at first ⊢
    exact first.eq_of_length_le (by rw [List.length_append]; omega)

theorem pollKeeps (before : Exchanged x s) (done : poll s p = some t) : Exchanged x t := by
  unfold poll at done
  split at done <;> try contradiction
  rename_i phase stage
  split at done <;> try contradiction
  obtain ⟨machine,polled,rfl⟩ := Option.map_eq_some_iff.mp done
  have entered : 1 ≤ level p (s.machine p).stage := by
    rw [stage]
    exact (levelCollect p phase).1
  obtain ⟨machine',got,polled',sameStage,empty,own,pairs⟩ := pollBuildHeld before entered
  cases Option.some.inj (polled.symm.trans polled')
  have none' : ∀ msg, msg ∉ queued machine := by
    intro msg
    rw [empty]
    exact List.not_mem_nil
  simp only [queued,List.mem_append,not_or] at none'
  refine receiverKeeps before ⟨?_,?_,?_,?_⟩ ?_ (fun r _ => by rw [sameStage]) (fun q differ => ?_) ?_
  · exact fun msg inside => absurd inside (none' msg).1.1
  · exact fun msg inside => absurd inside (none' msg).1.2
  · exact fun msg inside => absurd inside (none' msg).2
  · rw [empty]
    exact fun msg inside => absurd inside List.not_mem_nil
  · rw [sameStage]
    exact before.away p
  · obtain ⟨pair,held⟩ := pairs q differ
    obtain ⟨told,ids,nghs⟩ := pair.more
    refine ⟨got q,got q ++ toSender q (queued (s.machine p)),pair,?_,?_,?_,?_,?_,?_⟩
    · rw [empty,show toSender q ([] : List (Msg n)) = [] from rfl,List.append_nil]
    all_goals rw [sameStage]
    · intro zero
      omega
    · exact fun _ => held
    · exact told
    · exact ids
    · exact nghs
  · rw [sameStage,own]
    exact before.own p

theorem deliverKeeps (before : Exchanged x s) (done : deliver s q p = some t) : Exchanged x t := by
  unfold deliver at done
  split at done <;> try contradiction
  rename_i msg rest channel
  cases Option.some.inj done
  have differ : q ≠ p := by
    rintro rfl
    rw [before.noSelf q] at channel
    cases channel
  obtain ⟨got,pair⟩ := before.pair q p differ
  have sent := pair.sent
  rw [channel] at sent
  obtain ⟨i,g,top,posted⟩ := sentSome sent (by simp)
  have sender : msg.sender = q := posted.senders msg (by simp)
  have order := pollRecvOrder (before.queues p) sender posted.order
  obtain ⟨sameStage,sameCollect⟩ := pollRecvStage (s.machine p) msg
  have machines : ∀ r, (Function.update s.machine p (pollRecv (s.machine p) msg) r).stage = (s.machine r).stage ∧
      (Function.update s.machine p (pollRecv (s.machine p) msg) r).collect = (s.machine r).collect := by
    intro r
    rcases eq_or_ne r p with rfl | other
    · rw [Function.update_self]
      exact ⟨sameStage,sameCollect⟩
    · rw [Function.update_of_ne other]
      exact ⟨rfl,rfl⟩
  refine ⟨fun r => ?_,fun r => ?_,fun r => ?_,fun q' r differ' => ?_,fun r => ?_⟩
  · simp only [setMachine]
    rcases eq_or_ne r p with rfl | other
    · rw [Function.update_self]
      exact pollRecvQueues (before.queues r) (by rw [sender]; exact differ)
    · rw [Function.update_of_ne other]
      exact before.queues r
  · simp only [setMachine,machines]
    exact before.away r
  · simp only
    rcases eq_or_ne r q with rfl | other
    · rw [Function.update_self,Function.update_of_ne differ]
      exact before.noSelf r
    · rw [Function.update_of_ne other]
      exact before.noSelf r
  · obtain ⟨got',old⟩ := before.pair q' r differ'
    refine ⟨got',?_,?_,?_,?_,?_,?_⟩
    all_goals simp only [setMachine,machines]
    · rcases eq_or_ne r p with rfl | far
      · rw [Function.update_self]
        rcases eq_or_ne q' q with rfl | other
        · rw [Function.update_self,Function.update_self,order,← channel]
          exact old.sent
        · rw [Function.update_of_ne other,pollRecvOther (by rw [sender]; exact Ne.symm other)]
          exact old.sent
      · rw [Function.update_of_ne far]
        have same : Function.update s.channel q (Function.update (s.channel q) p rest) q' r = s.channel q' r := by
          rcases eq_or_ne q' q with rfl | other
          · rw [Function.update_self,Function.update_of_ne far]
          · rw [Function.update_of_ne other]
        rw [same]
        exact old.sent
    · exact old.early
    · exact old.held
    · exact old.told
    · exact old.ids
    · exact old.nghs
  · simp only [setMachine,machines]
    exact before.own r

end Receiving

section Collecting

variable {x} {a p q : Fin n} {s t : Net n}

theorem PartOk.complete {all got : List Nat} {part : Part} (ok : PartOk all got part) :
    ¬part.cnt < part.num ↔ got = all := by
  rw [ok.cnt,ok.num]
  constructor
  · intro no
    exact ok.first.eq_of_length_le (by omega)
  · rintro rfl
    exact lt_irrefl _

theorem PartOk.blockComplete {all got : List Nat} {part : Part} (ok : PartOk all got part) :
    got = all ↔ part.block = all.map some := by
  have size := ok.first.length_le
  rw [ok.block]
  constructor
  · rintro rfl
    simp
  · intro same
    refine ok.first.eq_of_length_le ?_
    by_contra less
    have last : (none : Option Nat) ∈ all.map some := by
      rw [← same]
      exact List.mem_append_right _ (List.mem_replicate.mpr ⟨by omega,rfl⟩)
    obtain ⟨w,_,no⟩ := List.mem_map.mp last
    cases no

/- The machine's own turn begins. -/
theorem enterKeeps (before : Exchanged x s) {m : Nat} (stage : (s.machine a).stage = .turn m) (here : m = a)
    (done : advance x s a = some t) : Exchanged x t := by
  subst here
  unfold advance at done
  simp only [stage,a.isLt,dif_pos] at done
  rw [if_pos trivial] at done
  cases Option.some.inj done
  have zero : level a (s.machine a).stage = 0 := by
    rw [stage]
    exact if_neg (lt_irrefl _)
  have old := before.queues a
  refine receiverKeeps before ⟨old.info,old.id,old.ngh,old.other⟩ trivial (fun r differ => ?_) (fun q differ => ?_) ?_
  · rw [stage]
    rcases Nat.lt_or_ge r.val a.val with past | later
    · rw [sentToPast past,sentToPast past]
    · have above : r.val ≠ a.val := fun same => differ (Fin.ext same)
      rw [sentToTurn a (by omega),sentTo,turnOf,if_neg (by omega),if_neg above]
  · obtain ⟨got,pair⟩ := before.pair q a differ
    have none' := pair.early zero
    refine ⟨got,got,pair,rfl,fun no => ?_,fun _ => ?_,fun no => ?_,fun no => ?_,fun no => ?_⟩
    · cases no
    · rw [none']
      refine ⟨?_,fun no => absurd rfl no,fun no => absurd rfl no⟩
      simp only [clearCollect,if_neg differ]
      exact ⟨fun no => Bool.noConfusion no,fun no => absurd rfl no⟩
    all_goals exact absurd no (by simp [level])
  · intro _
    simp only [clearCollect,if_pos,and_self]

theorem finishedSpec (a : Fin n) (collect : Fin n → Collect) :
    (finished a collect .info = true ↔ ∀ q, q ≠ a → (collect q).recvMeta = true) ∧
    (finished a collect .id = true ↔ ∀ q, q ≠ a → ¬(collect q).ids.cnt < (collect q).ids.num) ∧
    (finished a collect .ngh = true ↔ ∀ q, q ≠ a → ¬(collect q).nghs.cnt < (collect q).nghs.num) := by
  refine ⟨?_,?_,?_⟩ <;> rw [finished,decide_eq_true_eq] <;> exact forall_congr' (fun q => or_iff_not_imp_left)

theorem phaseSentTo (phase : Phase) {r : Fin n} (differ : r ≠ a) :
    sentTo x a r (nextPhase a phase) = sentTo x a r (.collect phase) := by
  have above : r.val ≠ a.val := fun same => differ (Fin.ext same)
  cases phase with
  | info => rfl
  | id => rfl
  | ngh =>
    rcases Nat.lt_or_ge r.val a.val with past | later
    · rw [sentToPast (show r.val < turnOf a (nextPhase a .ngh) from Nat.lt_succ_of_lt past),sentToPast past]
    · rw [nextPhase,sentToTurn a (by omega),sentTo,turnOf,if_neg (by omega),if_neg above]

theorem phaseLevel (a : Fin n) (phase : Phase) : level a (nextPhase a phase) = level a (.collect phase) + 1 := by
  cases phase with
  | info => rfl
  | id => rfl
  | ngh => exact if_pos (Nat.lt_succ_self _)

theorem phaseKeeps (before : Exchanged x s) {phase : Phase} (stage : (s.machine a).stage = .collect phase)
    (done : advance x s a = some t) : Exchanged x t := by
  unfold advance at done
  simp only [stage] at done
  split at done <;> try contradiction
  rename_i test
  cases Option.some.inj done
  obtain ⟨toldTest,idTest,nghTest⟩ := finishedSpec a (s.machine a).collect
  have old := before.queues a
  have levels := phaseLevel a phase
  refine receiverKeeps before ⟨old.info,old.id,old.ngh,old.other⟩ ?_ (fun r differ => ?_) (fun q differ => ?_) (fun _ => ?_)
  · cases phase <;> trivial
  · rw [stage]
    exact phaseSentTo phase differ
  · obtain ⟨got,pair⟩ := before.pair q a differ
    have held := pair.held
    have told := pair.told
    have ids := pair.ids
    have nghs := pair.nghs
    rw [stage] at held told ids nghs
    have held' := held (levelCollect a phase).1
    refine ⟨got,got,pair,rfl,fun zero => ?_,fun _ => held',?_⟩
    · simp only [levels] at zero
      omega
    · simp only [levels]
      cases phase with
      | info =>
        have some' := held'.told.mp (toldTest.mp test q differ)
        exact ⟨fun _ => some',fun no => absurd no (by simp [level]),fun no => absurd no (by simp [level])⟩
      | id =>
        have some' := told (by simp [level])
        have all := (held'.ids some').complete.mp (idTest.mp test q differ)
        exact ⟨fun _ => some',fun _ => all,fun no => absurd no (by simp [level])⟩
      | ngh =>
        have some' := told (by simp [level])
        have all := (held'.nghs some').complete.mp (nghTest.mp test q differ)
        exact ⟨fun _ => some',fun _ => ids (by simp [level]),fun _ => all⟩
  · exact before.own a (by rw [stage]; exact (levelCollect a phase).1)

theorem stepKeeps {act : Act n} (done : step x s act = some t) (before : Exchanged x s) : Exchanged x t := by
  cases act with
  | advance a =>
    cases stage : (s.machine a).stage with
    | turn m =>
      by_cases here : m = a
      · exact enterKeeps before stage here done
      · exact sendKeeps before done (Or.inl ⟨m,stage,here⟩)
    | sendId m k => exact sendKeeps before done (Or.inr (Or.inl ⟨m,k,stage⟩))
    | sendNgh m k => exact sendKeeps before done (Or.inr (Or.inr ⟨m,k,stage⟩))
    | collect phase => exact phaseKeeps before stage done
  | poll a => exact pollKeeps before done
  | deliver q p => exact deliverKeeps before done

theorem runExchanged {collect : Fin n → Fin n → Collect} {acts : List (Act n)}
    (ok : run (step x) (start collect) acts = some s) : Exchanged x s :=
  runInvariant (fun _ _ _ done before => stepKeeps done before) ok (startExchanged x collect)

/- The fields of sender q hold a first part of q's arrays and nothing else. -/
structure FirstPart (x : Dispatch n) (q p : Fin n) (c : Collect) : Prop where
  ids : ∃ i ≤ (x.ids q p).length, c.ids = ⟨(x.ids q p).length,i,
    ((x.ids q p).take i).map some ++ List.replicate ((x.ids q p).length - i) none⟩
  nghs : ∃ g ≤ (x.nghs q p).length, c.nghs = ⟨(x.nghs q p).length,g,
    ((x.nghs q p).take g).map some ++ List.replicate ((x.nghs q p).length - g) none⟩

theorem PartOk.firstPart {all got : List Nat} {part : Part} (ok : PartOk all got part) : ∃ i ≤ all.length,
    part = ⟨all.length,i,(all.take i).map some ++ List.replicate (all.length - i) none⟩ := by
  refine ⟨got.length,ok.first.length_le,?_⟩
  rw [← List.prefix_iff_eq_take.mp ok.first]
  cases part with
  | mk num cnt block =>
    simp only [Part.mk.injEq]
    exact ⟨ok.num,ok.cnt,ok.block⟩

theorem PartOk.whole {all got : List Nat} {part : Part} (ok : PartOk all got part) (done : got = all) :
    part = whole all := by
  subst done
  cases part with
  | mk num cnt block =>
    simp only [ReplicaDispatch.whole,Part.mk.injEq]
    refine ⟨ok.num,ok.cnt,ok.block.trans ?_⟩
    simp

/- With everything of q delivered and processed, its arrays are complete. -/
theorem Pair.drained {got : List (Msg n)} (pair : Pair x s q p got) (out : p.val < turnOf q (s.machine q).stage)
    (queue : queued (s.machine p) = []) (channel : s.channel q p = []) :
    got ≠ [] ∧ idWords got = x.ids q p ∧ nghWords got = x.nghs q p := by
  have sent := pair.sent
  rw [sentToPast out,queue,channel,show toSender q ([] : List (Msg n)) = [] from rfl,List.append_nil,
    List.append_nil] at sent
  have posted : Posted x q p _ _ _ got := sent
  refine ⟨?_,?_,?_⟩
  · rintro rfl
    have head := posted.head
    cases head
  · rw [posted.ids,List.take_length]
  · rw [posted.nghs,List.take_length]

end Collecting

section Result

variable {x} {s : Net n}

/- A part on machine p when all of it is there. -/
def complete (p q : Fin n) (words : List Nat) : Part := if q = p then takenOver words else whole words

theorem received {collect : Fin n → Fin n → Collect} {acts : List (Act n)}
    (ok : run (step x) (start collect) acts = some s) {p : Fin n} (past : p.val < turnOf p (s.machine p).stage) (q : Fin n) :
    ((s.machine p).collect q).ids = complete p q (x.ids q p) ∧
      ((s.machine p).collect q).nghs = complete p q (x.nghs q p) := by
  have exchanged := runExchanged ok
  have last : level p (s.machine p).stage = 4 := by
    cases stage : (s.machine p).stage with
    | collect phase =>
      rw [stage] at past
      exact absurd past (lt_irrefl _)
    | turn m =>
      rw [stage] at past
      exact if_pos past
    | sendId m k =>
      rw [stage] at past
      exact if_pos past
    | sendNgh m k =>
      rw [stage] at past
      exact if_pos past
  rcases eq_or_ne q p with rfl | differ
  · simpa only [complete,if_true] using exchanged.own q (by omega)
  · simp only [complete,if_neg differ]
    obtain ⟨got,pair⟩ := exchanged.pair q p differ
    have held := pair.held (by omega)
    have some' := pair.told (by omega)
    exact ⟨(held.ids some').whole (pair.ids (by omega)),(held.nghs some').whole (pair.nghs (by omega))⟩

theorem replicaDispatch {collect : Fin n → Fin n → Collect} {acts : List (Act n)}
    (ok : run (step x) (start collect) acts = some s) (p : Fin n) :
    (∀ phase, (s.machine p).stage = .collect phase → (pollBuild (s.machine p)).isSome = true ∧
      (∀ q, q ≠ p → ((s.machine p).collect q).recvMeta = true → FirstPart x q p ((s.machine p).collect q)) ∧
      ((∀ q, q ≠ p → p.val < turnOf q (s.machine q).stage ∧ s.channel q p = []) → queued (s.machine p) = [] →
        finished p (s.machine p).collect phase = true)) ∧
    ((s.machine p).stage = .collect .id → (finished p (s.machine p).collect .id = true ↔
      ∀ q, q ≠ p → ((s.machine p).collect q).ids = whole (x.ids q p))) ∧
    ((s.machine p).stage = .collect .ngh → (finished p (s.machine p).collect .ngh = true ↔
      ∀ q, q ≠ p → ((s.machine p).collect q).nghs = whole (x.nghs q p))) ∧
    (p.val < turnOf p (s.machine p).stage → ∀ q, ((s.machine p).collect q).ids = complete p q (x.ids q p) ∧
      ((s.machine p).collect q).nghs = complete p q (x.nghs q p)) := by
  have exchanged := runExchanged ok
  obtain ⟨toldTest,idTest,nghTest⟩ := finishedSpec p (s.machine p).collect
  refine ⟨fun phase stage => ⟨?_,fun q differ told => ?_,fun drained queue => ?_⟩,fun stage => ?_,fun stage => ?_,
    fun past q => ?_⟩
  · have entered : 1 ≤ level p (s.machine p).stage := by
      rw [stage]
      exact (levelCollect p phase).1
    obtain ⟨machine,got,polled,_⟩ := pollBuildHeld exchanged entered
    rw [polled]
    rfl
  · obtain ⟨got,pair⟩ := exchanged.pair q p differ
    have held := pair.held (by rw [stage]; exact (levelCollect p phase).1)
    have some' := held.told.mp told
    exact ⟨(held.ids some').firstPart,(held.nghs some').firstPart⟩
  · have all : ∀ q, q ≠ p → ∃ got, Held x q p got ((s.machine p).collect q) ∧ got ≠ [] ∧ idWords got = x.ids q p ∧
        nghWords got = x.nghs q p := by
      intro q differ
      obtain ⟨got,pair⟩ := exchanged.pair q p differ
      have held := pair.held (by rw [stage]; exact (levelCollect p phase).1)
      exact ⟨got,held,pair.drained (drained q differ).1 queue (drained q differ).2⟩
    cases phase with
    | info =>
      refine toldTest.mpr (fun q differ => ?_)
      obtain ⟨got,held,some',_⟩ := all q differ
      exact held.told.mpr some'
    | id =>
      refine idTest.mpr (fun q differ => ?_)
      obtain ⟨got,held,some',ids,_⟩ := all q differ
      exact (held.ids some').complete.mpr ids
    | ngh =>
      refine nghTest.mpr (fun q differ => ?_)
      obtain ⟨got,held,some',_,nghs⟩ := all q differ
      exact (held.nghs some').complete.mpr nghs
  · rw [idTest]
    refine forall_congr' (fun q => forall_congr' (fun differ => ?_))
    obtain ⟨got,pair⟩ := exchanged.pair q p differ
    have part := (pair.held (by rw [stage]; simp [level])).ids (pair.told (by rw [stage]; simp [level]))
    rw [part.complete]
    refine ⟨part.whole,fun same => ?_⟩
    rw [part.blockComplete,same]
    rfl
  · rw [nghTest]
    refine forall_congr' (fun q => forall_congr' (fun differ => ?_))
    obtain ⟨got,pair⟩ := exchanged.pair q p differ
    have part := (pair.held (by rw [stage]; simp [level])).nghs (pair.told (by rw [stage]; simp [level]))
    rw [part.complete]
    refine ⟨part.whole,fun same => ?_⟩
    rw [part.blockComplete,same]
    rfl
  · exact received ok past q

def twoParts : Dispatch 2 where
  ids := fun q p => if q = p then [5] else [7,9]
  nghs := fun q p => if q = p then [1,0] else [1,3,2,4,5]

def twoActs : List (Act 2) :=
  [.advance 0,.advance 1,.advance 1,.deliver 1 0,.advance 1,.advance 1,.poll 0,.deliver 1 0,.deliver 1 0,.advance 0,
    .poll 0,.advance 0,.advance 0]

def unset : Collect := ⟨true,⟨3,1,[]⟩,⟨0,2,[]⟩⟩

theorem replicaDispatchTwo : ∃ s : Net 2, run (step twoParts) (start (fun _ _ => unset)) twoActs = some s ∧
    (s.machine 0).stage = .turn 1 ∧ ((s.machine 0).collect 1).ids = whole [7,9] ∧
    ((s.machine 0).collect 1).nghs = whole [1,3,2,4,5] := by
  have runs : (run (step twoParts) (start (fun _ _ => unset)) twoActs).map (fun s => (s.machine 0).stage) =
      some (.turn 1) := by decide +kernel
  obtain ⟨s,ok,stage⟩ := Option.map_eq_some_iff.mp runs
  have result := (replicaDispatch ok 0).2.2.2 (by rw [stage]; decide) 1
  exact ⟨s,ok,stage,result⟩

end Result

end CoTra.ReplicaDispatch
