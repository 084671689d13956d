import CoTra.SubQueryTotals

/-! What a resumed coroutine does before it looks for the next candidates: the six
loops over the queues of the query, and what they leave. -/
namespace CoTra.SubQueryDrain
open Priority SubQuery Spread SubQueryTotals

variable {n : Nat} {D : Type} [Distance D]

section Drain

variable (x : Index n D) (cfg : Config n D) (me : Fin n)

/- A change of the search that comes from candidates that are `ok` only. -/
def ByCandidates (ok : D × Nat → Prop) (s s' : Search D) : Prop :=
  ∀ P : Search D → Prop, (∀ t c, ok c → P t → P (postProcCandidate cfg t c)) → P s → P s'

theorem byRefl (ok : D × Nat → Prop) (s : Search D) : ByCandidates cfg ok s s := fun _ _ start => start

variable {cfg}

theorem ByCandidates.trans {ok : D × Nat → Prop} {a b c : Search D} (first : ByCandidates cfg ok a b)
    (second : ByCandidates cfg ok b c) : ByCandidates cfg ok a c :=
  fun P keep start => second P keep (first P keep start)

variable (cfg)

theorem candidatesBy {ok : D × Nat → Prop} {cs : List (D × Nat)} (all : ∀ c ∈ cs, ok c) (s : Search D) :
    ByCandidates cfg ok s (cs.foldl (postProcCandidate cfg) s) := by
  induction cs generalizing s with
  | nil => exact byRefl cfg ok s
  | cons c rest ih =>
    exact ByCandidates.trans (fun P keep start => keep s c (all c List.mem_cons_self) start)
      (ih (fun c' later => all c' (List.mem_cons_of_mem _ later)) _)

theorem evaluateBy {ok : D × Nat → Prop} {v : Nat} (found : ok (x.dist v,v)) (s : Search D × List Nat) :
    ByCandidates cfg ok s.1 (evaluate x cfg s v).1 := by
  unfold evaluate
  split
  · exact byRefl cfg ok s.1
  · exact fun P keep start => keep s.1 _ found start

theorem evaluatesBy {ok : D × Nat → Prop} {vs : List Nat} (all : ∀ v ∈ vs, ok (x.dist v,v)) (s : Search D × List Nat) :
    ByCandidates cfg ok s.1 (vs.foldl (evaluate x cfg) s).1 := by
  induction vs generalizing s with
  | nil => exact byRefl cfg ok s.1
  | cons v rest ih =>
    exact (evaluateBy x cfg (all v List.mem_cons_self) s).trans
      (ih (fun v' later => all v' (List.mem_cons_of_mem _ later)) _)

theorem localTasksBy {ok : D × Nat → Prop} {ts : List LocalTask}
    (all : ∀ t ∈ ts, ∀ v ∈ x.nghPtr me t.offset t.deg, ok (x.dist v,v)) (s : Search D × List Nat) :
    ByCandidates cfg ok s.1
      (ts.foldl (fun s t => (x.nghPtr me t.offset t.deg).foldl (evaluate x cfg) s) s).1 := by
  induction ts generalizing s with
  | nil => exact byRefl cfg ok s.1
  | cons t rest ih =>
    exact (evaluatesBy x cfg (all t List.mem_cons_self) s).trans
      (ih (fun t' later => all t' (List.mem_cons_of_mem _ later)) _)

theorem procBaTasks (ts : List LocalTask) (m : Machine n D) : ∃ hash chunks,
    ts.foldl (procBaTask x me) m = { m with visitHash := hash, conTaskQueue := m.conTaskQueue ++ chunks } ∧
      chunks.map Chunk.isCount = ts.map LocalTask.isCount ∧
      ∀ ch ∈ chunks, ∀ c ∈ ch.elems, ∃ t ∈ ts, c.2 ∈ x.nghPtr me t.offset t.deg := by
  induction ts generalizing m with
  | nil => exact ⟨m.visitHash,[],by simp,rfl,fun ch member => absurd member List.not_mem_nil⟩
  | cons t rest ih =>
    obtain ⟨hash,chunks,shape,counts,slices⟩ := ih (procBaTask x me m t)
    refine ⟨hash,(doTask x me t m.visitHash).1 :: chunks,?_,?_,?_⟩
    · rw [List.foldl_cons,shape]
      simp [procBaTask]
    · rw [List.map_cons,List.map_cons,counts]
      rfl
    · intro ch member c inside
      rcases List.mem_cons.mp member with rfl | later
      · exact ⟨t,List.mem_cons_self,visitFound x inside⟩
      · obtain ⟨t',among,found⟩ := slices ch later c inside
        exact ⟨t',List.mem_cons_of_mem _ among,found⟩

theorem procChunks (cs : List (Chunk D)) (m : Machine n D) :
    cs.foldl (procChunk cfg) m = { m with
      recvCnt := m.recvCnt + sumOf (fun c => c.isCount.toNat) cs
      search := (cs.flatMap Chunk.elems).foldl (postProcCandidate cfg) m.search } := by
  induction cs generalizing m with
  | nil => rfl
  | cons c rest ih =>
    rw [List.foldl_cons,ih]
    simp [procChunk,List.foldl_append,Nat.add_assoc]

theorem procAsyncReads {ok : D × Nat → Prop} {rs : List (BufferCache n)}
    (all : ∀ r ∈ rs, ok (x.dist r.vectorId,r.vectorId)) (m : Machine n D) : ∃ search hash,
    rs.foldl (procAsyncRead x cfg) m = { m with
      recvCnt := m.recvCnt + rs.length, search := search, visitHash := hash } ∧
      ByCandidates cfg ok m.search search ∧ (rs = [] → search = m.search) := by
  induction rs generalizing m with
  | nil => exact ⟨m.search,m.visitHash,rfl,byRefl cfg ok _,fun _ => rfl⟩
  | cons r rest ih =>
    obtain ⟨search,hash,shape,changed,_⟩ :=
      ih (fun r' later => all r' (List.mem_cons_of_mem _ later)) (procAsyncRead x cfg m r)
    refine ⟨search,hash,?_,?_,fun none' => absurd none' (List.cons_ne_nil _ _)⟩
    · rw [List.foldl_cons,shape]
      simp [procAsyncRead,Nat.add_assoc,Nat.add_comm 1]
    · exact (evaluateBy x cfg (all r List.mem_cons_self) (m.search,m.visitHash)).trans changed

theorem procResults (rs : List (ResultMsg D)) (m : Machine n D) :
    rs.foldl (procRes cfg) m = { m with
      recvCnt := m.recvCnt + sumOf ResultMsg.coreCnt rs
      nocoreRecv := m.nocoreRecv + sumOf ResultMsg.nocoreCnt rs
      search := (rs.flatMap ResultMsg.res).foldl (postProcCandidate cfg) m.search } := by
  induction rs generalizing m with
  | nil => rfl
  | cons r rest ih =>
    rw [List.foldl_cons,ih]
    simp [procRes,List.foldl_append,Nat.add_assoc]

/- What waits for the coroutine. -/
def Offered (m : Machine n D) (c : D × Nat) : Prop :=
  (∃ t ∈ m.localTask, c.2 ∈ x.nghPtr me t.offset t.deg) ∨ (∃ t ∈ m.baTaskQueue, c.2 ∈ x.nghPtr me t.offset t.deg) ∨
    (∃ ch ∈ m.conTaskQueue, c ∈ ch.elems) ∨ c.2 ∈ m.localMicroTask ∨
    (∃ r ∈ m.recvAsyncReadQueue, c.2 = r.vectorId) ∨ ∃ r ∈ m.localRes, c ∈ r.res

theorem procLocalTaskShape (ok : D × Nat → Prop) (m : Machine n D)
    (all : ∀ t ∈ m.localTask, ∀ v ∈ x.nghPtr me t.offset t.deg, ok (x.dist v,v)) : ∃ search hash,
    procLocalTask x cfg me m = { m with search := search, visitHash := hash, localTask := [] } ∧
      ByCandidates cfg ok m.search search ∧ (m.localTask = [] → search = m.search) := by
  refine ⟨_,_,rfl,localTasksBy x cfg me all (m.search,m.visitHash),fun none' => ?_⟩
  rw [none']
  rfl

theorem procBaTaskQueueShape (m : Machine n D) : ∃ hash chunks,
    procBaTaskQueue x me m = { m with
      visitHash := hash, conTaskQueue := m.conTaskQueue ++ chunks, baTaskQueue := [] } ∧
      chunks.map Chunk.isCount = m.baTaskQueue.map LocalTask.isCount ∧
      ∀ ch ∈ chunks, ∀ c ∈ ch.elems, ∃ t ∈ m.baTaskQueue, c.2 ∈ x.nghPtr me t.offset t.deg := by
  obtain ⟨hash,chunks,shape,facts⟩ := procBaTasks x me m.baTaskQueue m
  exact ⟨hash,chunks,by rw [procBaTaskQueue,shape],facts⟩

theorem procConTaskQueueShape (ok : D × Nat → Prop) (m : Machine n D)
    (all : ∀ ch ∈ m.conTaskQueue, ∀ c ∈ ch.elems, ok c) : ∃ search,
    procConTaskQueue cfg m = { m with
      recvCnt := m.recvCnt + sumOf (fun c => c.isCount.toNat) m.conTaskQueue
      search := search
      conTaskQueue := [] } ∧
      ByCandidates cfg ok m.search search ∧ (m.conTaskQueue = [] → search = m.search) := by
  refine ⟨_,by rw [procConTaskQueue,procChunks],candidatesBy cfg (fun c member => ?_) _,fun none' => ?_⟩
  · obtain ⟨ch,among,inside⟩ := List.mem_flatMap.mp member
    exact all ch among c inside
  · rw [none']
    rfl

theorem procLocalMicroTaskShape (ok : D × Nat → Prop) (m : Machine n D)
    (all : ∀ v ∈ m.localMicroTask, ok (x.dist v,v)) : ∃ search hash,
    procLocalMicroTask x cfg m = { m with search := search, visitHash := hash, localMicroTask := [] } ∧
      ByCandidates cfg ok m.search search ∧ (m.localMicroTask = [] → search = m.search) := by
  refine ⟨_,_,rfl,evaluatesBy x cfg all (m.search,m.visitHash),fun none' => ?_⟩
  rw [none']
  rfl

theorem procAsyncReadQueueShape (ok : D × Nat → Prop) (m : Machine n D)
    (all : ∀ r ∈ m.recvAsyncReadQueue, ok (x.dist r.vectorId,r.vectorId)) : ∃ search hash,
    procAsyncReadQueue x cfg m = { m with
      recvCnt := m.recvCnt + m.recvAsyncReadQueue.length
      search := search
      visitHash := hash
      recvAsyncReadQueue := [] } ∧
      ByCandidates cfg ok m.search search ∧ (m.recvAsyncReadQueue = [] → search = m.search) := by
  obtain ⟨search,hash,shape,changed,idle⟩ := procAsyncReads x cfg all m
  exact ⟨search,hash,by rw [procAsyncReadQueue,shape],changed,idle⟩

theorem procLocalResShape (ok : D × Nat → Prop) (m : Machine n D) (all : ∀ r ∈ m.localRes, ∀ c ∈ r.res, ok c) :
    ∃ search, procLocalRes cfg m = { m with
      recvCnt := m.recvCnt + sumOf ResultMsg.coreCnt m.localRes
      nocoreRecv := m.nocoreRecv + sumOf ResultMsg.nocoreCnt m.localRes
      search := search
      localRes := [] } ∧
      ByCandidates cfg ok m.search search ∧ (m.localRes = [] → search = m.search) := by
  refine ⟨_,by rw [procLocalRes,procResults],candidatesBy cfg (fun c member => ?_) _,fun none' => ?_⟩
  · obtain ⟨r,among,inside⟩ := List.mem_flatMap.mp member
    exact all r among c inside
  · rw [none']
    rfl

def received (m : Machine n D) : Nat :=
  sumOf (fun t => t.isCount.toNat) m.baTaskQueue + sumOf (fun c => c.isCount.toNat) m.conTaskQueue +
    m.recvAsyncReadQueue.length + sumOf ResultMsg.coreCnt m.localRes

/- Nothing waits for the coroutine. -/
structure Idle (m : Machine n D) : Prop where
  localTask : m.localTask = []
  localMicroTask : m.localMicroTask = []
  baTask : m.baTaskQueue = []
  conTask : m.conTaskQueue = []
  reads : m.recvAsyncReadQueue = []
  results : m.localRes = []

theorem sameCounts {E : Type} {chunks : List (Chunk E)} {ts : List LocalTask}
    (counts : chunks.map Chunk.isCount = ts.map LocalTask.isCount) (f : Bool → Nat) :
    sumOf (fun c => f c.isCount) chunks = sumOf (fun t => f t.isCount) ts := by
  have mapped := congrArg (sumOf f) counts
  simp only [sumOf,List.map_map] at mapped
  exact mapped

theorem drainShape (m : Machine n D) : ∃ search hash,
    drain x cfg me m = { m with
      search := search
      visitHash := hash
      recvCnt := m.recvCnt + received m
      nocoreRecv := m.nocoreRecv + sumOf ResultMsg.nocoreCnt m.localRes
      localTask := []
      localMicroTask := []
      baTaskQueue := []
      conTaskQueue := []
      recvAsyncReadQueue := []
      localRes := [] } ∧
      ByCandidates cfg (Offered x me m) m.search search ∧ (Idle m → search = m.search) := by
  obtain ⟨s1,h1,e1,b1,i1⟩ := procLocalTaskShape x cfg me (Offered x me m) m
    (fun t among v inside => .inl ⟨t,among,inside⟩)
  obtain ⟨h2,chunks,e2,counts,slices⟩ := procBaTaskQueueShape x me
    { m with search := s1, visitHash := h1, localTask := [] }
  have chunksOffered : ∀ ch ∈ m.conTaskQueue ++ chunks, ∀ c ∈ ch.elems, Offered x me m c := by
    intro ch member c inside
    rcases List.mem_append.mp member with old | new
    · exact .inr (.inr (.inl ⟨ch,old,inside⟩))
    · exact .inr (.inl (slices ch new c inside))
  obtain ⟨s3,e3,b3,i3⟩ := procConTaskQueueShape cfg (Offered x me m) { m with
    search := s1, visitHash := h2, localTask := [], conTaskQueue := m.conTaskQueue ++ chunks, baTaskQueue := [] }
    chunksOffered
  obtain ⟨s4,h4,e4,b4,i4⟩ := procLocalMicroTaskShape x cfg (Offered x me m) { m with
    recvCnt := m.recvCnt + sumOf (fun c => c.isCount.toNat) (m.conTaskQueue ++ chunks)
    search := s3, visitHash := h2, localTask := [], conTaskQueue := [], baTaskQueue := [] }
    (fun v inside => .inr (.inr (.inr (.inl inside))))
  obtain ⟨s5,h5,e5,b5,i5⟩ := procAsyncReadQueueShape x cfg (Offered x me m) { m with
    recvCnt := m.recvCnt + sumOf (fun c => c.isCount.toNat) (m.conTaskQueue ++ chunks)
    search := s4, visitHash := h4, localTask := [], conTaskQueue := [], baTaskQueue := [], localMicroTask := [] }
    (fun r inside => .inr (.inr (.inr (.inr (.inl ⟨r,inside,rfl⟩)))))
  obtain ⟨s6,e6,b6,i6⟩ := procLocalResShape cfg (Offered x me m) { m with
    recvCnt := m.recvCnt + sumOf (fun c => c.isCount.toNat) (m.conTaskQueue ++ chunks) + m.recvAsyncReadQueue.length
    search := s5, visitHash := h5, localTask := [], conTaskQueue := [], baTaskQueue := [], localMicroTask := []
    recvAsyncReadQueue := [] }
    (fun r among c inside => .inr (.inr (.inr (.inr (.inr ⟨r,among,inside⟩)))))
  have count : m.recvCnt + sumOf (fun c => c.isCount.toNat) (m.conTaskQueue ++ chunks) +
      m.recvAsyncReadQueue.length + sumOf ResultMsg.coreCnt m.localRes = m.recvCnt + received m := by
    have same : sumOf (fun c => c.isCount.toNat) chunks = sumOf (fun t => t.isCount.toNat) m.baTaskQueue :=
      sameCounts counts Bool.toNat
    rw [sumAppend,same,received]
    omega
  refine ⟨s6,h5,?_,b1.trans (b3.trans (b4.trans (b5.trans b6))),fun idle => ?_⟩
  · rw [drain,e1,e2,e3,e4,e5,e6,← count]
  · have noChunks : chunks = [] := by simpa [idle.baTask] using counts
    rw [i6 idle.results,i5 idle.reads,i4 idle.localMicroTask,i3 (by simp [idle.conTask,noChunks]),i1 idle.localTask]

/- What a resumed coroutine takes out of the queues. -/
def consumed (w : Weight n D) (m : Machine n D) : Nat :=
  sumOf (w.localTask me) m.baTaskQueue + sumOf (w.chunk me) m.conTaskQueue +
    sumOf (w.read me) m.recvAsyncReadQueue + sumOf (w.result me) m.localRes

theorem drainTotal (w : Weight n D) (m : Machine n D) :
    total w me (drain x cfg me m) + consumed me w m = total w me m := by
  obtain ⟨search,hash,shape,_⟩ := drainShape x cfg me m
  rw [shape]
  simp only [total,readTotal,consumed,sumNil]
  omega

end Drain

end CoTra.SubQueryDrain
