import CoTra.SubQueryDrain

/-! How often a vertex is evaluated and offered. A machine evaluates a vertex that is not in
its visit hash and marks it there; the distance travels as a chunk, a result or at once to
top_candidates and to the candidates of the next SYNC. -/
namespace CoTra.Visits
open Priority SubQuery Spread SubQueryTotals SubQueryDrain

variable {n : Nat} {D : Type} [Distance D]

def times (v : Nat) (cs : List (D × Nat)) : Nat := cs.countP (fun c => c.2 = v)

def seen (v : Nat) (hash : List Nat) : Nat := if v ∈ hash then 1 else 0

section Counting

variable {v : Nat}

omit [Distance D] in
theorem timesAppend (cs ds : List (D × Nat)) : times v (cs ++ ds) = times v cs + times v ds := List.countP_append

omit [Distance D] in
theorem timesCons (c : D × Nat) (cs : List (D × Nat)) : times v (c :: cs) = (if c.2 = v then 1 else 0) + times v cs := by
  rw [times,List.countP_cons,Nat.add_comm]
  simp only [decide_eq_true_eq]
  rfl

omit [Distance D] in
theorem timesLe {cs ds : List (D × Nat)} (part : cs.Sublist ds) : times v cs ≤ times v ds := part.countP_le

omit [Distance D] in
theorem timesPerm {cs ds : List (D × Nat)} (same : cs.Perm ds) : times v cs = times v ds := same.countP_eq _

theorem pushTimes (q : PQueue D Nat) (c : D × Nat) :
    times v (push q c).elems = times v q.elems + if c.2 = v then 1 else 0 := by
  have pushed : times v (push q c).elems = times v (c :: q.elems) := timesPerm (pushPerm q c)
  rw [pushed,timesCons,Nat.add_comm]

theorem popTimes (k : Nat) (q : PQueue D Nat) : times v (popTo k q).elems ≤ times v q.elems :=
  timesLe (popToSublist k q)

omit [Distance D] in
theorem timesFlatMap {α : Type} (f : α → List (D × Nat)) (xs : List α) :
    times v (xs.flatMap f) = sumOf (fun a => times v (f a)) xs := by
  induction xs with
  | nil => rfl
  | cons a rest ih => rw [List.flatMap_cons,timesAppend,ih,sumCons]

theorem seenCons {u : Nat} {hash : List Nat} (fresh : u ∉ hash) :
    seen v (u :: hash) = (if u = v then 1 else 0) + seen v hash := by
  unfold seen
  rcases eq_or_ne u v with rfl | other
  · rw [if_pos List.mem_cons_self,if_pos rfl,if_neg fresh]
  · rw [if_neg other,Nat.zero_add]
    exact if_congr (by rw [List.mem_cons,or_iff_right (Ne.symm other)]) rfl rfl

variable (x : Index n D)

omit [Distance D] in
theorem visitTimes (vs hash : List Nat) : times v (visit x vs hash).1 + seen v hash = seen v (visit x vs hash).2 := by
  induction vs generalizing hash with
  | nil => exact Nat.zero_add _
  | cons u rest ih =>
    unfold visit
    split
    · exact ih hash
    · rename_i fresh
      have later := ih (u :: hash)
      rw [seenCons fresh] at later
      simp only [timesCons]
      omega

omit [Distance D] in
theorem visitMarks (vs hash : List Nat) (w : Nat) : w ∈ (visit x vs hash).2 ↔ w ∈ hash ∨ w ∈ vs := by
  induction vs generalizing hash with
  | nil => simp [visit]
  | cons u rest ih =>
    unfold visit
    split
    · rename_i old
      rw [ih,List.mem_cons]
      constructor
      · exact Or.imp_right .inr
      · rintro (marked | rfl | later)
        · exact .inl marked
        · exact .inl old
        · exact .inr later
    · simp only
      rw [ih,List.mem_cons,List.mem_cons,or_assoc,or_left_comm]

end Counting

section Walks

variable (x : Index n D) (cfg : Config n D) (me : Fin n) (v : Nat)

/- At most k more of v among the candidates and for the next SYNC. -/
def Charged (k : Nat) (s s' : Search D) : Prop :=
  times v s'.topCandidates.elems ≤ times v s.topCandidates.elems + k ∧
    times v s'.localAddCand ≤ times v s.localAddCand + k

variable {cfg v}

theorem Charged.trans {j k : Nat} {s t u : Search D} (first : Charged v j s t) (second : Charged v k t u) :
    Charged v (j + k) s u := by
  obtain ⟨top,add⟩ := first
  obtain ⟨top',add'⟩ := second
  exact ⟨by omega,by omega⟩

theorem chargedSame (s : Search D) : Charged v 0 s s := ⟨Nat.le_refl _,Nat.le_refl _⟩

theorem candidateCharged (s : Search D) (c : D × Nat) :
    Charged v (if c.2 = v then 1 else 0) s (postProcCandidate cfg s c) := by
  unfold Charged postProcCandidate
  by_cases taken : size s.topCandidates < cfg.ef ∨ c.1 < s.lowerBound
  · simp only [if_pos taken,timesAppend,timesCons]
    exact ⟨(popTimes cfg.ef _).trans (pushTimes s.topCandidates c).le,Nat.le_refl _⟩
  · simp only [if_neg taken]
    exact ⟨Nat.le_add_right _ _,Nat.le_add_right _ _⟩

theorem candidatesCharged (cs : List (D × Nat)) (s : Search D) :
    Charged v (times v cs) s (cs.foldl (postProcCandidate cfg) s) := by
  induction cs generalizing s with
  | nil => exact chargedSame s
  | cons c rest ih =>
    rw [timesCons]
    exact (candidateCharged s c).trans (ih _)

/- What one machine evaluates of v while it walks over `vs`. -/
structure Walk (v : Nat) (vs : List Nat) (p p' : Search D × List Nat) : Prop where
  charged : ∃ k, Charged v k p.1 p'.1 ∧ k + seen v p.2 = seen v p'.2
  keeps : ∀ w ∈ p.2, w ∈ p'.2
  source : ∀ w ∈ p'.2, w ∈ p.2 ∨ w ∈ vs

theorem walkSame (p : Search D × List Nat) : Walk v [] p p :=
  ⟨⟨0,chargedSame p.1,Nat.zero_add _⟩,fun _ old => old,fun _ old => .inl old⟩

theorem Walk.trans {vs ws : List Nat} {a b c : Search D × List Nat} (first : Walk v vs a b) (second : Walk v ws b c) :
    Walk v (vs ++ ws) a c := by
  obtain ⟨j,charged,count⟩ := first.charged
  obtain ⟨k,charged',count'⟩ := second.charged
  refine ⟨⟨j + k,charged.trans charged',by omega⟩,fun w old => second.keeps w (first.keeps w old),fun w marked => ?_⟩
  rcases second.source w marked with old | late
  · exact (first.source w old).imp_right (List.mem_append_left _)
  · exact .inr (List.mem_append_right _ late)

theorem evaluateWalk (p : Search D × List Nat) (u : Nat) : Walk v [u] p (evaluate x cfg p u) := by
  unfold evaluate
  split
  · exact ⟨⟨0,chargedSame p.1,Nat.zero_add _⟩,fun _ old => old,fun _ old => .inl old⟩
  · rename_i fresh
    refine ⟨⟨_,candidateCharged p.1 (x.dist u,u),(seenCons fresh).symm⟩,fun w old => List.mem_cons_of_mem _ old,
      fun w marked => ?_⟩
    rcases List.mem_cons.mp marked with rfl | old
    · exact .inr (List.mem_singleton_self w)
    · exact .inl old

theorem evaluatesWalk (vs : List Nat) (p : Search D × List Nat) : Walk v vs p (vs.foldl (evaluate x cfg) p) := by
  induction vs generalizing p with
  | nil => exact walkSame p
  | cons u rest ih => exact (evaluateWalk x p u).trans (ih _)

def slice (t : LocalTask) : List Nat := x.nghPtr me t.offset t.deg

theorem tasksWalk (ts : List LocalTask) (p : Search D × List Nat) : Walk v (ts.flatMap (slice x me)) p
    (ts.foldl (fun s t => (x.nghPtr me t.offset t.deg).foldl (evaluate x cfg) s) p) := by
  induction ts generalizing p with
  | nil => exact walkSame p
  | cons t rest ih => exact (evaluatesWalk x (slice x me t) p).trans (ih _)

end Walks

section Drains

variable (x : Index n D) (cfg : Config n D) (me : Fin n) (v : Nat)

/- Distances of v that wait for the coroutine. -/
def pending (m : Machine n D) : Nat :=
  sumOf (fun ch => times v ch.elems) m.conTaskQueue + sumOf (fun r => times v r.res) m.localRes

/- One of the loops of a resumed coroutine. -/
structure Walked (vs : List Nat) (m m' : Machine n D) : Prop where
  charged : ∃ k, Charged v k m.search m'.search ∧
    k + pending v m' + seen v m.visitHash = pending v m + seen v m'.visitHash
  keeps : ∀ w ∈ m.visitHash, w ∈ m'.visitHash
  source : ∀ w ∈ m'.visitHash, w ∈ m.visitHash ∨ w ∈ vs
  result : m'.result = m.result

variable {v}

theorem Walked.trans {vs ws : List Nat} {a b c : Machine n D} (first : Walked v vs a b) (second : Walked v ws b c) :
    Walked v (vs ++ ws) a c := by
  obtain ⟨j,charged,count⟩ := first.charged
  obtain ⟨k,charged',count'⟩ := second.charged
  refine ⟨⟨j + k,charged.trans charged',by omega⟩,fun w old => second.keeps w (first.keeps w old),fun w marked => ?_,
    second.result.trans first.result⟩
  rcases second.source w marked with old | late
  · exact (first.source w old).imp_right (List.mem_append_left _)
  · exact .inr (List.mem_append_right _ late)

/- A walk over vertices that touches no queue of distances. -/
theorem walkWalked {vs : List Nat} {m m' : Machine n D} (walk : Walk v vs (m.search,m.visitHash) (m'.search,m'.visitHash))
    (same : pending v m' = pending v m) (result : m'.result = m.result) : Walked v vs m m' := by
  obtain ⟨k,charged,count⟩ := walk.charged
  simp only at charged count
  exact ⟨⟨k,charged,by omega⟩,walk.keeps,walk.source,result⟩

theorem localTasksWalked (m : Machine n D) :
    Walked v (m.localTask.flatMap (slice x me)) m (procLocalTask x cfg me m) :=
  walkWalked (tasksWalk x me m.localTask (m.search,m.visitHash)) rfl rfl

theorem baTaskWalked (m : Machine n D) (t : LocalTask) : Walked v (slice x me t) m (procBaTask x me m t) := by
  have count := visitTimes (v := v) x (slice x me t) m.visitHash
  refine ⟨⟨0,chargedSame _,?_⟩,fun w old => ?_,fun w marked => ?_,rfl⟩
  · simp only [pending,procBaTask,doTask,sumAppend,sumCons,sumNil]
    simp only [slice] at count
    omega
  · exact (visitMarks x (slice x me t) m.visitHash w).mpr (.inl old)
  · exact (visitMarks x (slice x me t) m.visitHash w).mp marked

theorem baTasksWalked (ts : List LocalTask) (m : Machine n D) :
    Walked v (ts.flatMap (slice x me)) m (ts.foldl (procBaTask x me) m) := by
  induction ts generalizing m with
  | nil => exact ⟨⟨0,chargedSame _,Nat.zero_add _ ▸ rfl⟩,fun _ old => old,fun _ old => .inl old,rfl⟩
  | cons t rest ih => exact (baTaskWalked x me m t).trans (ih _)

theorem baTaskQueueWalked (m : Machine n D) :
    Walked v (m.baTaskQueue.flatMap (slice x me)) m (procBaTaskQueue x me m) := by
  have all := baTasksWalked (v := v) x me m.baTaskQueue m
  exact ⟨all.charged,all.keeps,all.source,all.result⟩

theorem conTaskQueueWalked (m : Machine n D) : Walked v [] m (procConTaskQueue cfg m) := by
  rw [procConTaskQueue,procChunks]
  refine ⟨⟨_,candidatesCharged (m.conTaskQueue.flatMap Chunk.elems) m.search,?_⟩,fun _ old => old,fun _ old => .inl old,rfl⟩
  rw [timesFlatMap]
  simp only [pending,sumNil]
  omega

theorem microTasksWalked (m : Machine n D) : Walked v m.localMicroTask m (procLocalMicroTask x cfg m) :=
  walkWalked (evaluatesWalk x m.localMicroTask (m.search,m.visitHash)) rfl rfl

theorem asyncReadsWalked (rs : List (BufferCache n)) (m : Machine n D) :
    Walked v (rs.map BufferCache.vectorId) m (rs.foldl (procAsyncRead x cfg) m) := by
  induction rs generalizing m with
  | nil => exact ⟨⟨0,chargedSame _,Nat.zero_add _ ▸ rfl⟩,fun _ old => old,fun _ old => .inl old,rfl⟩
  | cons r rest ih =>
    have first : Walked v [r.vectorId] m (procAsyncRead x cfg m r) :=
      walkWalked (evaluateWalk x (m.search,m.visitHash) r.vectorId) rfl rfl
    exact first.trans (ih _)

theorem asyncReadQueueWalked (m : Machine n D) :
    Walked v (m.recvAsyncReadQueue.map BufferCache.vectorId) m (procAsyncReadQueue x cfg m) := by
  have all := asyncReadsWalked (v := v) x cfg m.recvAsyncReadQueue m
  exact ⟨all.charged,all.keeps,all.source,all.result⟩

theorem localResWalked (m : Machine n D) : Walked v [] m (procLocalRes cfg m) := by
  rw [procLocalRes,procResults]
  refine ⟨⟨_,candidatesCharged (m.localRes.flatMap ResultMsg.res) m.search,?_⟩,fun _ old => old,fun _ old => .inl old,rfl⟩
  rw [timesFlatMap]
  simp only [pending,sumNil]
  omega

/- The vertices that a resumed coroutine looks at. -/
def waiting (m : Machine n D) : List Nat :=
  m.localTask.flatMap (slice x me) ++ m.baTaskQueue.flatMap (slice x me) ++ m.localMicroTask ++
    m.recvAsyncReadQueue.map BufferCache.vectorId

theorem drainWalked (m : Machine n D) : Walked v (waiting x me m) m (drain x cfg me m) := by
  obtain ⟨hash,chunks,shape,_⟩ := procBaTaskQueueShape x me (procLocalTask x cfg me m)
  obtain ⟨search,emptied,_⟩ := procConTaskQueueShape cfg (fun _ => True) (procBaTaskQueue x me (procLocalTask x cfg me m))
    (fun _ _ _ _ => trivial)
  have tasks := (localTasksWalked x cfg me m).trans (baTaskQueueWalked (v := v) x me (procLocalTask x cfg me m))
  have chunked := tasks.trans (conTaskQueueWalked cfg (procBaTaskQueue x me (procLocalTask x cfg me m)))
  have micro := chunked.trans (microTasksWalked x cfg
    (procConTaskQueue cfg (procBaTaskQueue x me (procLocalTask x cfg me m))))
  have reads := micro.trans (asyncReadQueueWalked x cfg (procLocalMicroTask x cfg
    (procConTaskQueue cfg (procBaTaskQueue x me (procLocalTask x cfg me m)))))
  have all := reads.trans (localResWalked cfg (procAsyncReadQueue x cfg (procLocalMicroTask x cfg
    (procConTaskQueue cfg (procBaTaskQueue x me (procLocalTask x cfg me m))))))
  have sameMicro : (procConTaskQueue cfg (procBaTaskQueue x me (procLocalTask x cfg me m))).localMicroTask =
      m.localMicroTask := by
    rw [emptied,shape]
    rfl
  have sameReads : (procLocalMicroTask x cfg (procConTaskQueue cfg
      (procBaTaskQueue x me (procLocalTask x cfg me m)))).recvAsyncReadQueue = m.recvAsyncReadQueue := by
    rw [emptied,shape]
    rfl
  rw [sameMicro,sameReads,List.append_nil,List.append_nil] at all
  exact all

end Drains

end CoTra.Visits
