import CoTra.Runs
import CoTra.Spread

/-! Asynchronous reads of vectors. A read takes a buffer from the free list and carries
the query and the buffer in its wr_id; reads of all queries complete in any order. What
post_read wrote stands beside each wr_id, where no step of the program looks at it. -/
namespace CoTra.AsyncRead
open Runs Spread

def maxCacheVec : Nat := 2000
def maxReadNum : Nat := 32

inductive QueryState where
  | start | preStage | postStage | pause | end'
  deriving DecidableEq

/- The part of a BufferCache that the caller fills in. -/
structure Request where
  machineId : Nat
  vectorId : Nat
  internalId : Nat
  deriving DecidableEq

-- buffer_ptr is read_to_ptr[buffer_id].
structure BufferCache extends Request where
  bufferId : Nat
  deriving DecidableEq

/- A posted read: its wr_id, and the query and the vector it was posted for. -/
structure Read (n : Nat) where
  wrId : Nat
  queryId : Fin n
  vec : BufferCache
  deriving DecidableEq

/- What poll_task_result made of a completed read. -/
structure Polled (n : Nat) where
  queryId : Fin n
  bufferId : Nat
  vec : BufferCache
  read : Read n
  deriving DecidableEq

structure State (n : Nat) where
  buffIdList : List Nat
  bufcachePtr : Nat → BufferCache
  posted : List (Read n)
  recvList : List (Read n)
  recvAsyncReadQueue : Fin n → List BufferCache
  asyncReadNum : Fin n → Nat
  asyncReadCnt : Fin n → Nat
  queryState : Fin n → QueryState
  asyncTaskQueue : List (Fin n)
  subqueryQueue : List (Fin n)
  polled : List (Polled n)

variable {n : Nat}

/- com_read_init. -/
def start (bufcachePtr : Nat → BufferCache) : State n :=
  ⟨List.range maxCacheVec,bufcachePtr,[],[],fun _ => [],fun _ => 0,fun _ => 0,fun _ => .start,[],[],[]⟩

/- (query_id << 16) | buffer_id, of 32 bits. -/
def wrIdOf (queryId bufferId : Nat) : Nat := queryId <<< 16 % 2 ^ 32 ||| bufferId

def queryOf (wrId : Nat) : Nat := wrId >>> 16 % 2 ^ 32
def bufferOf (wrId : Nat) : Nat := wrId &&& 0xffff

/- The loop of post_read, with wr_cnt. -/
def postVector (queryId : Fin n) (s : State n × (Nat → Nat)) (v : Request) : Option (State n × (Nat → Nat)) :=
  match s.1.buffIdList with
  | [] => none
  | b :: rest =>
    let vec : BufferCache := ⟨v,b⟩
    let r := s.2 v.machineId + 1
    if maxReadNum ≤ r then none
    else some ({ s.1 with
      buffIdList := rest
      bufcachePtr := Function.update s.1.bufcachePtr b vec
      posted := s.1.posted ++ [⟨wrIdOf queryId b,queryId,vec⟩] },Function.update s.2 v.machineId r)

def postRead (s : State n) (vectors : List Request) (queryId : Fin n) : Option (State n) :=
  (vectors.foldlM (postVector queryId) (s,fun _ => 0)).map Prod.fst

/- The reads of post_remote_task; vectors is async_read_queue. -/
def postRemoteTask (s : State n) (queryId : Fin n) (vectors : List Request) : Option (State n) :=
  let s := { s with asyncReadNum := Function.update s.asyncReadNum queryId vectors.length }
  if vectors.length > 0 then
    postRead { s with asyncReadCnt := Function.update s.asyncReadCnt queryId 0 } vectors queryId
  else some s

/- One entry of the async read list in poll_task_result. -/
def pollRead (s : State n) (r : Read n) : Option (State n) :=
  if inside : queryOf r.wrId < n then
    let qid : Fin n := ⟨queryOf r.wrId,inside⟩
    let vec := s.bufcachePtr (bufferOf r.wrId)
    let cnt := s.asyncReadCnt qid + 1
    let paused := s.queryState qid = .pause
    some { s with
      asyncReadCnt := Function.update s.asyncReadCnt qid cnt
      recvAsyncReadQueue := Function.update s.recvAsyncReadQueue qid (s.recvAsyncReadQueue qid ++ [vec])
      asyncTaskQueue := s.asyncTaskQueue ++
        if s.queryState qid = .preStage ∧ cnt = s.asyncReadNum qid then [qid] else []
      subqueryQueue := s.subqueryQueue ++ if paused then [qid] else []
      queryState := if paused then Function.update s.queryState qid .postStage else s.queryState
      polled := s.polled ++ [⟨qid,bufferOf r.wrId,vec,r⟩] }
  else none

def releaseCache (s : State n) (bufferId : Nat) : State n := { s with buffIdList := s.buffIdList ++ [bufferId] }

/- The post stage of a query computes with the vectors that it received and releases them. -/
def procAsyncRead (s : State n) (q : Fin n) : State n :=
  { (s.recvAsyncReadQueue q).foldl (fun s r => releaseCache s r.bufferId) s with
    recvAsyncReadQueue := Function.update s.recvAsyncReadQueue q [] }

inductive Act (n : Nat) where
  | post (queryId : Fin n) (vectors : List Request)
  | complete (i : Nat)
  | poll
  | proc (queryId : Fin n)
  | enter (queryId : Fin n) (state : QueryState)

def step (s : State n) : Act n → Option (State n)
  | .post q vectors => postRemoteTask s q vectors
  | .complete i => (s.posted[i]?).map (fun r => { s with posted := s.posted.eraseIdx i, recvList := s.recvList ++ [r] })
  | .poll => s.recvList.foldlM pollRead { s with recvList := [] }
  | .proc q => some (procAsyncRead s q)
  | .enter q state => some { s with queryState := Function.update s.queryState q state }

/- The query and the vector that were posted. -/
def Attributed (p : Polled n) : Prop :=
  p.queryId = p.read.queryId ∧ p.bufferId = p.read.vec.bufferId ∧ p.vec = p.read.vec

instance : DecidablePred (@Attributed n) := fun _ => inferInstanceAs (Decidable (_ ∧ _ ∧ _))

/- A read is polled only when the id of its query fits beside the buffer. -/
def Narrow (s : State n) : Act n → Prop
  | .poll => ∀ r ∈ s.recvList, r.queryId.val < 2 ^ 16
  | _ => True

section Identifiers

theorem wrIdSplit (q : Nat) {b : Nat} (small : b < 2 ^ 16) : wrIdOf q b = q % 2 ^ 16 * 2 ^ 16 + b := by
  have high : q <<< 16 % 2 ^ 32 = (q % 2 ^ 16) <<< 16 := by
    rw [Nat.shiftLeft_eq,Nat.shiftLeft_eq]
    omega
  rw [wrIdOf,high,← Nat.shiftLeft_add_eq_or_of_lt small,Nat.shiftLeft_eq]

theorem queryOfWrId (q : Nat) {b : Nat} (small : b < 2 ^ 16) : queryOf (wrIdOf q b) = q % 2 ^ 16 := by
  rw [queryOf,wrIdSplit q small,Nat.shiftRight_eq_div_pow]
  omega

theorem bufferOfWrId (q : Nat) {b : Nat} (small : b < 2 ^ 16) : bufferOf (wrIdOf q b) = b := by
  rw [bufferOf,wrIdSplit q small,show 0xffff = 2 ^ 16 - 1 from rfl,Nat.and_two_pow_sub_one_eq_mod]
  omega

end Identifiers

section Buffers

def holds (b : Nat) (v : BufferCache) : Nat := if v.bufferId = b then 1 else 0

def readHolds (b : Nat) (r : Read n) : Nat := holds b r.vec

def underWay (s : State n) : List (Read n) := s.posted ++ s.recvList

/- Where a buffer is: free, in a read under way, or with a query. -/
def places (s : State n) (b : Nat) : Nat :=
  s.buffIdList.count b + sumOf (readHolds b) (underWay s) + spread (fun _ => holds b) s.recvAsyncReadQueue

structure Sound (s : State n) : Prop where
  ids : ∀ r ∈ underWay s, r.wrId = wrIdOf r.queryId r.vec.bufferId
  kept : ∀ r ∈ underWay s, s.bufcachePtr r.vec.bufferId = r.vec
  once : ∀ b, places s b = if b < maxCacheVec then 1 else 0
  decoded : ∀ p ∈ s.polled, p.queryId.val = p.read.queryId % 2 ^ 16 ∧ p.bufferId = p.read.vec.bufferId ∧
    p.vec = p.read.vec

variable {s t : State n} {r : Read n}

theorem countHolds (b : Nat) (xs : List BufferCache) : (xs.map BufferCache.bufferId).count b = sumOf (holds b) xs := by
  induction xs with
  | nil => rfl
  | cons v rest ih =>
    rw [List.map_cons,List.count_cons,ih,sumCons,holds,Nat.add_comm]
    simp only [beq_iff_eq]

theorem sumHolds {xs : List (Read n)} (member : r ∈ xs) : 1 ≤ sumOf (readHolds r.vec.bufferId) xs := by
  by_contra none'
  have zero := sumZero (Nat.lt_one_iff.mp (Nat.lt_of_not_le none')) r member
  rw [readHolds,holds,if_pos rfl] at zero
  cases zero

theorem startSound (bufcachePtr : Nat → BufferCache) : Sound (start bufcachePtr : State n) where
  ids r member := absurd member List.not_mem_nil
  kept r member := absurd member List.not_mem_nil
  once b := by
    simp only [places,underWay,start,List.append_nil,sumNil,spreadNil,List.count_range]
    rfl
  decoded p member := absurd member List.not_mem_nil

/- A buffer under way is one of the pool and is not free. -/
theorem underWayHeld (ok : Sound s) (member : r ∈ underWay s) :
    r.vec.bufferId < maxCacheVec ∧ r.vec.bufferId ∉ s.buffIdList := by
  have once := ok.once r.vec.bufferId
  have held := sumHolds member
  rw [places] at once
  split at once
  · rename_i inside
    refine ⟨inside,fun free => ?_⟩
    have some' := List.count_pos_iff.mpr free
    omega
  · omega

theorem postVectorSound {q : Fin n} {v : Request} {c c' : Nat → Nat} (ok : Sound s)
    (post : postVector q (s,c) v = some (t,c')) : Sound t := by
  unfold postVector at post
  split at post <;> try contradiction
  rename_i b rest free
  simp only at free post
  split at post <;> try contradiction
  cases Option.some.inj post
  have order : ∀ r : Read n, r ∈ s.posted ++ [⟨wrIdOf q b,q,⟨v,b⟩⟩] ++ s.recvList →
      r = ⟨wrIdOf q b,q,⟨v,b⟩⟩ ∨ r ∈ underWay s := by
    intro r member
    rw [List.append_assoc,List.mem_append] at member
    rcases member with old | new
    · exact .inr (List.mem_append_left _ old)
    · rcases List.mem_cons.mp new with same | old
      · exact .inl same
      · exact .inr (List.mem_append_right _ old)
  refine ⟨fun r member => ?_,fun r member => ?_,fun b' => ?_,ok.decoded⟩
  · rcases order r member with rfl | old
    · rfl
    · exact ok.ids r old
  · rcases order r member with rfl | old
    · exact Function.update_self ..
    · have apart : r.vec.bufferId ≠ b := fun same =>
        (underWayHeld ok old).2 (by rw [free,same]; exact List.mem_cons_self)
      exact (Function.update_of_ne apart ..).trans (ok.kept r old)
  · have once := ok.once b'
    simp only [places,underWay,free,List.count_cons,sumAppend,sumCons,sumNil,readHolds,holds,beq_iff_eq] at once ⊢
    omega

theorem postSound {q : Fin n} {vectors : List Request} (ok : Sound s)
    (post : postRemoteTask s q vectors = some t) : Sound t := by
  unfold postRemoteTask at post
  split at post
  · obtain ⟨p,fold,rfl⟩ := Option.map_eq_some_iff.mp post
    refine foldlMInvariant (fun p => Sound p.1) ?_ fold ⟨ok.ids,ok.kept,ok.once,ok.decoded⟩
    rintro ⟨u,c⟩ v ⟨u',c'⟩ one before
    exact postVectorSound before one
  · cases Option.some.inj post
    exact ⟨ok.ids,ok.kept,ok.once,ok.decoded⟩

theorem completeSound {i : Nat} (ok : Sound s) (found : s.posted[i]? = some r) :
    Sound { s with posted := s.posted.eraseIdx i, recvList := s.recvList ++ [r] } := by
  have older : ∀ e, e ∈ s.posted.eraseIdx i ++ (s.recvList ++ [r]) → e ∈ underWay s := by
    intro e member
    rcases List.mem_append.mp member with wire | back
    · exact List.mem_append_left _ (List.mem_of_mem_eraseIdx wire)
    · rcases List.mem_append.mp back with old | last
      · exact List.mem_append_right _ old
      · cases List.mem_singleton.mp last
        exact List.mem_append_left _ (List.mem_of_getElem? found)
  refine ⟨fun e member => ok.ids e (older e member),fun e member => ok.kept e (older e member),fun b => ?_,ok.decoded⟩
  have once := ok.once b
  have moved := sumErase (readHolds b) found
  simp only [places,underWay,sumAppend,sumCons,sumNil] at once ⊢
  omega

/- Whatever the query, the buffer and its vector are the right ones. -/
theorem pollReadSound {rest : List (Read n)} (ok : Sound { s with recvList := r :: rest })
    (poll : pollRead s r = some t) : Sound { t with recvList := rest } := by
  unfold pollRead at poll
  split at poll <;> try contradiction
  cases Option.some.inj poll
  have mine : r ∈ underWay { s with recvList := r :: rest } := List.mem_append_right _ List.mem_cons_self
  have older : ∀ e, e ∈ s.posted ++ rest → e ∈ underWay { s with recvList := r :: rest } := by
    intro e member
    rcases List.mem_append.mp member with wire | back
    · exact List.mem_append_left _ wire
    · exact List.mem_append_right _ (List.mem_cons_of_mem _ back)
  have small : r.vec.bufferId < 2 ^ 16 := Nat.lt_trans (underWayHeld ok mine).1 (by decide)
  have buffer : bufferOf r.wrId = r.vec.bufferId := by rw [ok.ids r mine,bufferOfWrId _ small]
  have query : queryOf r.wrId = r.queryId % 2 ^ 16 := by rw [ok.ids r mine,queryOfWrId _ small]
  have vector : s.bufcachePtr (bufferOf r.wrId) = r.vec := by
    rw [buffer]
    exact ok.kept r mine
  refine ⟨fun e member => ok.ids e (older e member),fun e member => ok.kept e (older e member),fun b => ?_,fun p member => ?_⟩
  · have once := ok.once b
    simp only [places,underWay,sumAppend,sumCons,spreadPush,sumNil,vector,readHolds] at once ⊢
    omega
  · rcases List.mem_append.mp member with old | new
    · exact ok.decoded p old
    · cases List.mem_singleton.mp new
      exact ⟨query,buffer,vector⟩

theorem pollSound (rs : List (Read n)) (ok : Sound { s with recvList := rs }) (poll : rs.foldlM pollRead s = some t) :
    Sound { t with recvList := [] } := by
  induction rs generalizing s with
  | nil =>
    cases Option.some.inj poll
    exact ok
  | cons r rest ih =>
    rw [List.foldlM_cons] at poll
    obtain ⟨u,first,later⟩ := Option.bind_eq_some_iff.mp poll
    exact ih (pollReadSound ok first) later

theorem pollReadSource (poll : pollRead s r = some t) :
    ∃ inside : queryOf r.wrId < n, t.recvList = s.recvList ∧ t.polled = s.polled ++
      [⟨⟨queryOf r.wrId,inside⟩,bufferOf r.wrId,s.bufcachePtr (bufferOf r.wrId),r⟩] := by
  unfold pollRead at poll
  split at poll <;> try contradiction
  rename_i inside
  cases Option.some.inj poll
  exact ⟨inside,rfl,rfl⟩

theorem pollCollects (rs : List (Read n)) (poll : rs.foldlM pollRead s = some t) :
    t.recvList = s.recvList ∧ t.polled.map Polled.read = s.polled.map Polled.read ++ rs := by
  induction rs generalizing s with
  | nil =>
    cases Option.some.inj poll
    exact ⟨rfl,(List.append_nil _).symm⟩
  | cons r rest ih =>
    rw [List.foldlM_cons] at poll
    obtain ⟨u,first,later⟩ := Option.bind_eq_some_iff.mp poll
    obtain ⟨_,list,log⟩ := pollReadSource first
    obtain ⟨list',log'⟩ := ih later
    refine ⟨list'.trans list,?_⟩
    rw [log',log,List.map_append,List.append_assoc]
    rfl

theorem releaseAll (xs : List BufferCache) (s : State n) :
    xs.foldl (fun s r => releaseCache s r.bufferId) s =
      { s with buffIdList := s.buffIdList ++ xs.map BufferCache.bufferId } := by
  induction xs generalizing s with
  | nil => simp
  | cons v rest ih =>
    rw [List.foldl_cons,ih]
    simp [releaseCache]

theorem procSound (ok : Sound s) (q : Fin n) : Sound (procAsyncRead s q) := by
  rw [procAsyncRead,releaseAll]
  refine ⟨ok.ids,ok.kept,fun b => ?_,ok.decoded⟩
  have once := ok.once b
  have change := spreadUpdate (fun _ => holds b) s.recvAsyncReadQueue q []
  simp only [places,underWay,List.count_append,countHolds,sumNil] at once change ⊢
  omega

theorem stepSound {a : Act n} (ok : step s a = some t) (before : Sound s) : Sound t := by
  cases a with
  | post q vectors => exact postSound before ok
  | complete i =>
    obtain ⟨r,found,rfl⟩ := Option.map_eq_some_iff.mp ok
    exact completeSound before found
  | poll =>
    have after := pollSound s.recvList (s := { s with recvList := [] }) before ok
    have list : t.recvList = [] := (pollCollects _ ok).1
    rwa [show { t with recvList := [] } = t by rw [← list]] at after
  | proc q =>
    cases Option.some.inj ok
    exact procSound before q
  | enter q state =>
    cases Option.some.inj ok
    exact ⟨before.ids,before.kept,before.once,before.decoded⟩

end Buffers

section Queries

variable {s t : State n}

theorem soundAttributed {p : Polled n} (ok : Sound s) (member : p ∈ s.polled) :
    Attributed p ↔ p.read.queryId.val < 2 ^ 16 := by
  obtain ⟨query,buffer,vector⟩ := ok.decoded p member
  constructor
  · rintro ⟨same,_⟩
    rw [← same,query]
    exact Nat.mod_lt _ (by decide)
  · intro narrow
    refine ⟨Fin.ext ?_,buffer,vector⟩
    rw [query,Nat.mod_eq_of_lt narrow]

/- What one step adds to the reads that were polled. -/
def polls (s : State n) : Act n → List (Read n)
  | .poll => s.recvList
  | .post _ _ | .complete _ | .proc _ | .enter _ _ => []

theorem postKeepsLog {q : Fin n} {vectors : List Request} (post : postRemoteTask s q vectors = some t) :
    t.polled = s.polled := by
  unfold postRemoteTask at post
  split at post
  · obtain ⟨p,fold,rfl⟩ := Option.map_eq_some_iff.mp post
    refine foldlMInvariant (fun p => p.1.polled = s.polled) ?_ fold rfl
    rintro ⟨u,c⟩ v ⟨u',c'⟩ one before
    unfold postVector at one
    split at one <;> try contradiction
    simp only at one
    split at one <;> try contradiction
    cases Option.some.inj one
    exact before
  · cases Option.some.inj post
    rfl

theorem stepPolls {a : Act n} (ok : step s a = some t) :
    t.polled.map Polled.read = s.polled.map Polled.read ++ polls s a := by
  cases a with
  | post q vectors => rw [postKeepsLog ok,polls,List.append_nil]
  | complete i =>
    obtain ⟨r,_,rfl⟩ := Option.map_eq_some_iff.mp ok
    exact (List.append_nil _).symm
  | poll => exact (pollCollects _ ok).2
  | proc q =>
    cases Option.some.inj ok
    rw [procAsyncRead,releaseAll]
    exact (List.append_nil _).symm
  | enter q state =>
    cases Option.some.inj ok
    exact (List.append_nil _).symm

theorem narrowPolls {a : Act n} : Narrow s a ↔ ∀ r ∈ polls s a, r.queryId.val < 2 ^ 16 := by
  cases a with
  | poll => exact Iff.rfl
  | post | complete | proc | enter => exact iff_of_true trivial (fun r member => absurd member List.not_mem_nil)

theorem runPolls {acts : List (Act n)} (ok : run step s acts = some t) :
    (∀ r ∈ t.polled.map Polled.read, r.queryId.val < 2 ^ 16) ↔
      (∀ r ∈ s.polled.map Polled.read, r.queryId.val < 2 ^ 16) ∧ Along step Narrow s acts := by
  induction acts generalizing s with
  | nil =>
    cases Option.some.inj ok
    exact ⟨fun all => ⟨all,trivial⟩,And.left⟩
  | cons a rest ih =>
    obtain ⟨u,first,later⟩ := runConsSource ok
    rw [ih later,stepPolls first,List.forall_mem_append,← narrowPolls]
    constructor
    · rintro ⟨⟨before,narrow⟩,along⟩
      refine ⟨before,narrow,fun v same => ?_⟩
      cases Option.some.inj (first.symm.trans same)
      exact along
    · rintro ⟨before,narrow,along⟩
      exact ⟨⟨before,narrow⟩,along u first⟩

/- Every polled read goes to the query and the buffer that it was posted for exactly when
no query id needs more than sixteen bits. -/
theorem attributedIff {bufcachePtr : Nat → BufferCache} {acts : List (Act n)}
    (ok : run step (start bufcachePtr) acts = some s) :
    (∀ p ∈ s.polled, Attributed p) ↔ Along step Narrow (start bufcachePtr) acts := by
  have sound : Sound s := runInvariant (fun _ _ _ one before => stepSound one before) ok (startSound bufcachePtr)
  have reads := runPolls ok
  rw [List.forall_mem_map] at reads
  rw [forall₂_congr (fun p member => soundAttributed sound member),reads]
  exact and_iff_right (fun r member => absurd member List.not_mem_nil)

/- One vector is read for a query, the read completes and is polled. -/
def oneRead (q : Fin n) : List (Act n) := [.post q [⟨1,7,3⟩],.complete 0,.poll]

theorem attributedOneRead : ∃ s : State 2, run step (start fun _ => ⟨⟨0,0,0⟩,0⟩) (oneRead (1 : Fin 2)) = some s ∧
    ((∀ p ∈ s.polled, Attributed p) ↔ Along step Narrow (start fun _ => ⟨⟨0,0,0⟩,0⟩) (oneRead (1 : Fin 2))) := by
  have returns : (run step (start fun _ => ⟨⟨0,0,0⟩,0⟩ : State 2) (oneRead 1)).isSome := by decide +kernel
  obtain ⟨s,ok⟩ := Option.isSome_iff_exists.mp returns
  exact ⟨s,ok,attributedIff ok⟩

/- The vector that query 65536 asked for goes to query 0. -/
theorem wrongQuery : ∃ s : State 65537, run step (start fun _ => ⟨⟨0,0,0⟩,0⟩) (oneRead (Fin.last 65536)) = some s ∧
    ¬∀ p ∈ s.polled, Attributed p := by
  have last : (run step (start fun _ => ⟨⟨0,0,0⟩,0⟩ : State 65537) (oneRead (Fin.last 65536))).map
      (fun s => decide (∀ p ∈ s.polled, Attributed p)) = some false := by decide +kernel
  obtain ⟨s,ok,wrong⟩ := Option.map_eq_some_iff.mp last
  exact ⟨s,ok,of_decide_eq_false wrong⟩

end Queries

end CoTra.AsyncRead
