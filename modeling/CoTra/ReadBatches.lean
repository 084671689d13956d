import CoTra.SubQueryDrain
import CoTra.V3Index
import CoTra.BufferReuse

/-! How many reads one call of post_read puts into the work-request array of a machine.
A coroutine reads the inlined neighbours of one group of candidates, at most inlineDegBar
of a vertex on each machine. searchAsyncRemoteBaseLayerST reads every remote neighbour of
the group that is new. -/
namespace CoTra.ReadBatches
open Runs SubQuery V3Index
open Priority (Distance)

def maxGraphDeg : Nat := 96

inductive End where
  | posted
  | noBuffer
  | exceeded
  deriving DecidableEq, Repr

section Post

variable {α μ : Type} [DecidableEq μ] (machine : α → μ)

/- The loop of post_read with the free buffers counted: no buffer is left, or the counter of
a machine reaches the size of its array. -/
def postEnd : List α → (μ → Nat) → Nat → End
  | [], _, _ => .posted
  | _ :: _, _, 0 => .noBuffer
  | v :: vs, wrCnt, free + 1 =>
    let m := machine v
    if AsyncSearch.maxReadNum ≤ wrCnt m + 1 then .exceeded
    else postEnd vs (Function.update wrCnt m (wrCnt m + 1)) free

variable {machine}

theorem countFirst (m : μ) (v : α) (vs : List α) : (v :: vs).countP (fun w => machine w = m) =
    vs.countP (fun w => machine w = m) + if m = machine v then 1 else 0 := by
  rw [List.countP_cons]
  simp only [decide_eq_true_eq,eq_comm (a := m)]

theorem exceededFrom {wrCnt : μ → Nat} (room : ∀ m, wrCnt m < AsyncSearch.maxReadNum) (vs : List α) (free : Nat) :
    postEnd machine vs wrCnt free = .exceeded ↔
      ∃ m, AsyncSearch.maxReadNum ≤ wrCnt m + (vs.take free).countP (fun w => machine w = m) := by
  induction vs generalizing wrCnt free with
  | nil =>
    refine ⟨fun ends => (nomatch ends),fun ⟨m,many⟩ => absurd many ?_⟩
    simpa using room m
  | cons v vs ih =>
    cases free with
    | zero =>
      refine ⟨fun ends => (nomatch ends),fun ⟨m,many⟩ => absurd many ?_⟩
      simpa using room m
    | succ free =>
      rw [List.take_succ_cons]
      simp only [countFirst]
      rw [postEnd]
      by_cases full : AsyncSearch.maxReadNum ≤ wrCnt (machine v) + 1
      · rw [if_pos full]
        refine ⟨fun _ => ⟨machine v,?_⟩,fun _ => rfl⟩
        rw [if_pos rfl]
        omega
      · rw [if_neg full,ih]
        · refine exists_congr (fun m => ?_)
          rw [Function.update_apply]
          split
          · rename_i same
            rw [same]
            omega
          · omega
        · intro m
          rw [Function.update_apply]
          split
          · exact Nat.lt_of_not_le full
          · exact room m

theorem exceededIff (vs : List α) (free : Nat) : postEnd machine vs (fun _ => 0) free = .exceeded ↔
    ∃ m, AsyncSearch.maxReadNum ≤ (vs.take free).countP (fun w => machine w = m) := by
  rw [exceededFrom (fun _ => by decide)]
  simp only [Nat.zero_add]

theorem fewWithin {vs : List α} (few : ∀ m, vs.countP (fun w => machine w = m) < AsyncSearch.maxReadNum) (free : Nat) :
    postEnd machine vs (fun _ => 0) free ≠ .exceeded := by
  intro ends
  obtain ⟨m,many⟩ := (exceededIff vs free).mp ends
  have less := (List.take_sublist free vs).countP_le (p := fun w => decide (machine w = m))
  exact absurd (few m) (by omega)

end Post

section Coroutine

variable {n : Nat} {D : Type} [Distance D]

/- A record of the slot of a vertex of machine me, as the decoder finds it. -/
def recordAt (g : GraphParts n) (me : Fin n) (row : List Nat) (ofs : Fin n → Nat) (q : Fin n) : Record n :=
  if q = me then .localNgh (nghs g row q).length (ofs q)
  else if (nghs g row q).length ≤ inlineDegBar then .micro q (nghs g row q)
  else .large q (ofs q) (nghs g row q).length

/- The blocks of x are the slots of the V3 files of g; an id that is no vertex has no slot. -/
structure Decoded (g : GraphParts n) (x : Index n D) : Prop where
  slot : ∀ p pre row post, g.rows p = pre ++ row :: post → ∃ ofs,
    x.block (cumupsize g.partitionSize p + pre.length) = (partIds g p row).map (recordAt g p row ofs)
  outside : ∀ v, cumupsize g.partitionSize n ≤ v → x.block v = []

/- What a step of a machine hands to post_read. -/
def Hands (m m' : Machine n D) : Op → List (BufferCache n) → Prop
  | .loopTop, batch => m'.posted = m.posted ++ batch
  | _, batch => batch = [] ∧ m'.posted.Sublist m.posted

section Quiet

variable {x : Index n D} {cfg : Config n D} {me : Fin n}

def reads (m : Machine n D) : List (BufferCache n) × List (BufferCache n) := (m.asyncReadQueue,m.posted)

theorem foldlReads {β : Type} {f : Machine n D → β → Machine n D} (each : ∀ m b, reads (f m b) = reads m)
    (bs : List β) (m : Machine n D) : reads (bs.foldl f m) = reads m :=
  List.foldlRecOn (motive := fun m' => reads m' = reads m) bs f rfl (fun m' same b _ => (each m' b).trans same)

theorem wakeReads (m : Machine n D) : reads (wake m) = reads m := by
  unfold wake
  split <;> rfl

theorem deserializeReads (m : Machine n D) (msg : Message n D) : reads (deserialize cfg me m msg) = reads m := by
  cases msg with
  | sync msg => exact wakeReads _
  | nodeSync ms => exact foldlReads (fun m msg => wakeReads { m with
      toQueryMsg := updateSubQueryFromNoncore m.toQueryMsg msg }) ms m
  | query q => rfl
  | task ts ns => rfl
  | result rs => rfl
  | nodeResult rs => rfl

theorem postNodeResultReads (p : Fin n) (m : Machine n D) : reads (postNodeResult p m) = reads m := by
  unfold postNodeResult
  split <;> rfl

theorem postNodeSyncReads (p : Fin n) (m : Machine n D) : reads (postNodeSync p m) = reads m := by
  unfold postNodeSync
  split <;> rfl

theorem postRemoteResultReads (p : Fin n) (m : Machine n D) : reads (postRemoteResult p m) = reads m := by
  unfold postRemoteResult
  split <;> rfl

-- The posts that procNodeTask makes of a full queue.
theorem mergedNodeResultReads (p : Fin n) (m : Machine n D) :
    reads (if postResMerge ≤ (m.nodeResultQueue p).length then postNodeResult p m else m) = reads m := by
  split
  · exact postNodeResultReads p m
  · rfl

theorem mergedNodeSyncReads (p : Fin n) (m : Machine n D) :
    reads (if postNodesyncMerge ≤ (m.noncoreSyncMsg p).length then postNodeSync p m else m) = reads m := by
  split
  · exact postNodeSyncReads p m
  · rfl

theorem postRemoteResTaskSyncReads (m : Machine n D) : reads (postRemoteResTaskSync me m) = reads m :=
  (foldlReads (fun m p => postNodeSyncReads p m) (others me) _).trans
    (foldlReads (fun m p => postNodeResultReads p m) (others me) m)

theorem postSubquerySyncReads (propToken taint : Bool) (m : Machine n D) :
    reads (postSubquerySync me propToken taint m) = reads m := by
  refine foldlReads (fun m p => ?_) m.coreMachine m
  unfold postSync
  split <;> rfl

theorem periodicSyncReads (me : Fin n) (m : Machine n D) : reads (periodicSync me m) = reads m := by
  unfold periodicSync
  split
  · exact postSubquerySyncReads false false _
  · rfl

theorem propTokenReads (m : Machine n D) : reads (propToken me m) = reads m := postSubquerySyncReads true _ _

theorem endQueryReads (m : Machine n D) : reads (endQuery x cfg me m) = reads m := by
  unfold endQuery
  dsimp only
  split
  · rfl
  · split <;> rfl

theorem leaveReads (m : Machine n D) : reads (leave x cfg me m) = reads m := by
  unfold leave
  split
  · split
    · split
      · unfold leaderToken
        dsimp only
        split
        · exact endQueryReads _
        · exact propTokenReads _
      · exact propTokenReads m
    · rfl
  · exact endQueryReads _

theorem resumeCoroReads {m m' : Machine n D} (ok : resumeCoro x cfg me m = some m') : reads m' = reads m := by
  unfold resumeCoro at ok
  split at ok <;> try contradiction
  · cases Option.some.inj ok
    obtain ⟨search,hash,shape,_⟩ := SubQueryDrain.drainShape x cfg me m
    rw [shape]
    rfl
  · cases Option.some.inj ok
    rfl

theorem forkQueryReads (x : Index n D) (cfg : Config n D) (m : Machine n D) (p : Fin n) :
    reads (forkQuery x cfg m p) = reads m := rfl

theorem searchSubReads {m m' : Machine n D} (ok : searchSub x cfg me m = some m') : reads m' = reads m := by
  unfold searchSub at ok
  split at ok <;> try contradiction
  dsimp only at ok
  split at ok
  all_goals
    cases Option.some.inj ok
    exact foldlReads (forkQueryReads x cfg) _ _

theorem procTaskReads {m m' : Machine n D} (ok : procTask x cfg me m = some m') : reads m' = reads m := by
  unfold procTask at ok
  split at ok <;> try contradiction
  split at ok
  · exact (resumeCoroReads ok).trans rfl
  · cases Option.some.inj ok
    split
    · exact postRemoteResultReads _ _
    · rfl

theorem procQueryReads {m m' : Machine n D} (ok : procQuery me m = some m') : reads m' = reads m := by
  unfold procQuery at ok
  split at ok <;> try contradiction
  split at ok <;> cases Option.some.inj ok <;> rfl

variable [Zero D]

theorem getNodetaskMsgReads (t : NodeTask n) (rs : List (Record n)) (e : NodeExpansion n D) :
    reads (getNodetaskMsg t rs e).machine = reads e.machine := by
  induction rs generalizing e with
  | nil => rfl
  | cons r rest ih =>
    cases r with
    | localNgh deg ofs => rfl
    | micro pid ids =>
      unfold getNodetaskMsg
      split
      · exact ih _
      · exact ih _
    | large pid ofs deg =>
      unfold getNodetaskMsg
      split
      · exact ih _
      · exact ih _

theorem procNodeTaskReads {m m' : Machine n D} (ok : procNodeTask x me m = some m') : reads m' = reads m := by
  unfold procNodeTask at ok
  split at ok <;> try contradiction
  rename_i t rest queue
  split at ok <;> try contradiction
  have expanded : reads (expandNodeTask x me t { m with curNodeQueue := rest }) = reads m :=
    getNodetaskMsgReads t (x.block t.nodeId) ⟨{ m with curNodeQueue := rest },0,none⟩
  cases Option.some.inj ok
  exact (mergedNodeSyncReads t.machineId _).trans ((mergedNodeResultReads t.machineId _).trans expanded)

/- Only a running coroutine queues or posts reads; a read that completes leaves what is posted. -/
theorem performReads {m m' : Machine n D} {op : Op} (other : op ≠ .loopTop)
    (ok : perform x cfg me m op = some m') :
    m'.asyncReadQueue = m.asyncReadQueue ∧ m'.posted.Sublist m.posted := by
  have quiet : reads m' = reads m → m'.asyncReadQueue = m.asyncReadQueue ∧ m'.posted.Sublist m.posted := fun same =>
    ⟨congrArg Prod.fst same,(congrArg Prod.snd same).subst (List.Sublist.refl _)⟩
  cases performed ok with
  | loopTop => contradiction
  | completeRead => exact ⟨rfl,List.eraseIdx_sublist _ _⟩
  | stealTask => exact quiet rfl
  | pushChunk => exact quiet rfl
  | searchSub _ ok => exact quiet (searchSubReads ok)
  | poll => exact quiet (deserializeReads _ _)
  | pollRead => exact quiet (wakeReads _)
  | procQuery _ ok => exact quiet (procQueryReads ok)
  | procNodeTask _ _ ok => exact quiet (procNodeTaskReads ok)
  | postRemoteResTaskSync => exact quiet (postRemoteResTaskSyncReads m)
  | procNodeRes => exact quiet (wakeReads _)
  | procTask _ _ ok => exact quiet (procTaskReads ok)
  | postRemoteResult => exact quiet (postRemoteResultReads _ m)
  | procResult => exact quiet (wakeReads _)
  | procSubquery _ _ ok => exact quiet ((resumeCoroReads ok).trans rfl)
  | swapTaskQueue => exact quiet rfl

end Quiet

section Batch

variable {g : GraphParts n} {x : Index n D} {cfg : Config n D} {me : Fin n}

/- The reads that the decoder queues for the records of one slot. -/
def lbReads (core : Fin n → Bool) : List (Record n) → List (BufferCache n)
  | [] => []
  | .localNgh _ _ :: _ => []
  | .micro pid ids :: rest => (if core pid then [] else ids.map (fun v => ⟨pid,v⟩)) ++ lbReads core rest
  | .large _ _ _ :: rest => lbReads core rest

theorem getSubqueryTaskLbReads (me : Fin n) (lb : D) (efFill : Bool) (rs : List (Record n)) (m : Machine n D) :
    (getSubqueryTaskLb me lb efFill rs m).1.asyncReadQueue = m.asyncReadQueue ++ lbReads m.isCoreMachine rs ∧
      (getSubqueryTaskLb me lb efFill rs m).1.posted = m.posted ∧
      (getSubqueryTaskLb me lb efFill rs m).1.isCoreMachine = m.isCoreMachine := by
  induction rs generalizing m with
  | nil => exact ⟨(List.append_nil _).symm,rfl,rfl⟩
  | cons r rest ih =>
    cases r with
    | localNgh deg ofs => exact ⟨(List.append_nil _).symm,rfl,rfl⟩
    | micro pid ids =>
      unfold getSubqueryTaskLb lbReads
      split
      · exact ih _
      · obtain ⟨queue,posted,core⟩ := ih { m with asyncReadQueue := m.asyncReadQueue ++ ids.map (fun v => ⟨pid,v⟩) }
        exact ⟨queue.trans (List.append_assoc _ _ _),posted,core⟩
    | large pid ofs deg =>
      unfold getSubqueryTaskLb lbReads
      split
      · exact ih _
      · exact ih _

def readsOn (p : Fin n) (rs : List (BufferCache n)) : Nat := rs.countP (fun r => r.machineId = p)

theorem readsOnAppend (p : Fin n) (rs rs' : List (BufferCache n)) :
    readsOn p (rs ++ rs') = readsOn p rs + readsOn p rs' := List.countP_append

theorem readsOnIds (p pid : Fin n) (ids : List Nat) :
    readsOn p (ids.map (fun v => ⟨pid,v⟩)) = if pid = p then ids.length else 0 := by
  simp only [readsOn,List.countP_map,Function.comp_def]
  split
  · rename_i same
    simp [same]
  · rename_i other
    simp [other]

/- A machine has at most one record in a slot, and only a short one is read. -/
theorem slotFew (core : Fin n → Bool) (row : List Nat) (ofs : Fin n → Nat) (p : Fin n) {qs : List (Fin n)}
    (once : qs.Nodup) : readsOn p (lbReads core (qs.map (recordAt g me row ofs))) ≤ if p ∈ qs then inlineDegBar else 0 := by
  induction qs with
  | nil => exact Nat.zero_le _
  | cons q rest ih =>
    obtain ⟨fresh,once'⟩ := List.nodup_cons.mp once
    have later := ih once'
    have wider : (if p ∈ rest then inlineDegBar else 0) ≤ if p ∈ q :: rest then inlineDegBar else 0 := by
      split
      · rename_i inside
        rw [if_pos (List.mem_cons_of_mem q inside)]
      · exact Nat.zero_le _
    rw [List.map_cons,recordAt]
    split
    · exact Nat.zero_le _
    · split
      · rename_i short
        rw [lbReads,readsOnAppend]
        split
        · exact (Nat.zero_add _).trans_le (later.trans wider)
        · rw [readsOnIds]
          split
          · rename_i same
            rw [← same,if_neg fresh] at later
            rw [if_pos (List.mem_cons.mpr (.inl same.symm)),← same]
            omega
          · exact (Nat.zero_add _).trans_le (later.trans wider)
      · exact later.trans wider

omit [Distance D] in
theorem blockFew (decoded : Decoded g x) (core : Fin n → Bool) (v : Nat) (p : Fin n) :
    readsOn p (lbReads core (x.block v)) ≤ inlineDegBar := by
  rcases lt_or_ge v (cumupsize g.partitionSize n) with known | beyond
  · obtain ⟨me,pre,row,post,_,part,rfl⟩ := vertexRow g known
    obtain ⟨ofs,slot⟩ := decoded.slot me pre row post part
    rw [slot]
    refine (slotFew core row ofs p (partIdsNodup g me row)).trans ?_
    split
    · exact Nat.le_refl _
    · exact Nat.zero_le _
  · rw [decoded.outside v beyond]
    exact Nat.zero_le _

theorem expandNodeReads (decoded : Decoded g x) (cfg : Config n D) (me : Fin n) (m : Machine n D) (v : Nat) :
    ∃ batch, (expandNode x cfg me m v).asyncReadQueue = m.asyncReadQueue ++ batch ∧
      (expandNode x cfg me m v).posted = m.posted ∧ ∀ p, readsOn p batch ≤ inlineDegBar := by
  unfold expandNode
  dsimp only
  split
  · exact ⟨[],(List.append_nil _).symm,rfl,fun _ => Nat.zero_le _⟩
  · obtain ⟨queue,posted,_⟩ := getSubqueryTaskLbReads me m.search.lowerBound
      (Priority.size m.search.topCandidates < cfg.ef) (x.block v) m
    exact ⟨_,queue,posted,blockFew decoded m.isCoreMachine v⟩

theorem expandNodesReads (decoded : Decoded g x) (cfg : Config n D) (me : Fin n) (vs : List Nat) (m : Machine n D) :
    ∃ batch, (vs.foldl (expandNode x cfg me) m).asyncReadQueue = m.asyncReadQueue ++ batch ∧
      (vs.foldl (expandNode x cfg me) m).posted = m.posted ∧ ∀ p, readsOn p batch ≤ vs.length * inlineDegBar := by
  induction vs generalizing m with
  | nil => exact ⟨[],(List.append_nil _).symm,rfl,fun _ => Nat.zero_le _⟩
  | cons v rest ih =>
    obtain ⟨first,queue,posted,few⟩ := expandNodeReads decoded cfg me m v
    obtain ⟨later,queue',posted',few'⟩ := ih (expandNode x cfg me m v)
    refine ⟨first ++ later,?_,posted'.trans posted,fun p => ?_⟩
    · rw [List.foldl_cons,queue',queue,List.append_assoc]
    · have one := few p
      have others := few' p
      rw [readsOnAppend,List.length_cons,Nat.succ_mul]
      omega

theorem popGroupLength (bound : D) (k : Nat) (q : Priority.PQueue Dᵒᵈ Nat) : (popGroup bound k q).1.length ≤ k := by
  induction k generalizing q with
  | zero => exact Nat.le_refl _
  | succ k ih =>
    unfold popGroup
    split
    · exact Nat.zero_le _
    · split
      · exact Nat.zero_le _
      · exact Nat.succ_le_succ (ih _)

theorem expandGroupReads (decoded : Decoded g x) (cfg : Config n D) (me : Fin n) {vs : List Nat}
    (few : vs.length ≤ candGroupSize) (m : Machine n D) : (expandGroup x cfg me vs m).asyncReadQueue = [] ∧ ∃ batch,
      (expandGroup x cfg me vs m).posted = m.posted ++ (m.asyncReadQueue ++ batch) ∧
      ∀ p, readsOn p batch ≤ candGroupSize * inlineDegBar := by
  obtain ⟨batch,queue,posted,small⟩ := expandNodesReads decoded cfg me vs m
  have synced := periodicSyncReads me { postRemoteTask me (vs.foldl (expandNode x cfg me) m) with
    syncStep := (postRemoteTask me (vs.foldl (expandNode x cfg me) m)).syncStep + 1 }
  refine ⟨congrArg Prod.fst synced,batch,?_,fun p => (small p).trans (Nat.mul_le_mul_right _ few)⟩
  refine (congrArg Prod.snd synced).trans ?_
  exact congrArg₂ (· ++ ·) posted queue

theorem loopTopReads (decoded : Decoded g x) {m : Machine n D} (idle : m.asyncReadQueue = []) :
    (loopTop x cfg me m).asyncReadQueue = [] ∧ ∃ batch, (loopTop x cfg me m).posted = m.posted ++ batch ∧
      ∀ p, readsOn p batch ≤ candGroupSize * inlineDegBar := by
  have quiet : ∀ m' : Machine n D, reads m' = reads m → m'.asyncReadQueue = [] ∧ ∃ batch,
      m'.posted = m.posted ++ batch ∧ ∀ p, readsOn p batch ≤ candGroupSize * inlineDegBar := fun m' same =>
    ⟨(congrArg Prod.fst same).trans idle,[],(congrArg Prod.snd same).trans (List.append_nil _).symm,
      fun _ => Nat.zero_le _⟩
  unfold loopTop
  dsimp only
  split
  · split
    · split
      · exact quiet _ (leaveReads m)
      · exact quiet _ rfl
    · exact quiet _ rfl
  · obtain ⟨emptied,batch,posted,few⟩ := expandGroupReads decoded cfg me
      (popGroupLength m.search.lowerBound candGroupSize m.search.candidateSet)
      { m with search := { m.search with
        candidateSet := (popGroup m.search.lowerBound candGroupSize m.search.candidateSet).2 } }
    refine ⟨emptied,batch,posted.trans ?_,few⟩
    rw [idle]
    rfl

theorem postRemoteTaskFits {batch : List (BufferCache n)} (few : ∀ p, readsOn p batch ≤ candGroupSize * inlineDegBar)
    (free : Nat) : postEnd BufferCache.machineId batch (fun _ => 0) free ≠ .exceeded :=
  fewWithin (fun p => (few p).trans_lt (by decide)) free

variable [Zero D]

theorem performIdle (decoded : Decoded g x) {m m' : Machine n D} {op : Op} (idle : m.asyncReadQueue = [])
    (ok : perform x cfg me m op = some m') : m'.asyncReadQueue = [] ∧ ∃ batch, Hands m m' op batch ∧
      ∀ p, readsOn p batch ≤ candGroupSize * inlineDegBar := by
  by_cases isTop : op = .loopTop
  · subst isTop
    cases performed ok
    exact loopTopReads decoded idle
  · obtain ⟨queue,fewer⟩ := performReads isTop ok
    refine ⟨queue.trans idle,[],?_,fun _ => Nat.zero_le _⟩
    cases op <;> first | contradiction | exact ⟨rfl,fewer⟩

-- Between two steps no read is queued.
def Idle (s : Net n D) : Prop := ∀ a, (s a).asyncReadQueue = []

theorem stepIdle (decoded : Decoded g x) {s t : Net n D} {act : Act n} (ok : step x cfg s act = some t)
    (idle : Idle s) : Idle t := by
  intro b
  cases act with
  | host a op =>
    obtain ⟨m',done,rfl⟩ := Option.map_eq_some_iff.mp ok
    rw [Function.update_apply]
    split
    · exact (performIdle decoded (idle a) done).1
    · exact idle b
  | deliver a p =>
    simp only [step,deliver] at ok
    split at ok <;> try contradiction
    split at ok <;> try contradiction
    cases Option.some.inj ok
    simp only [Function.update_apply]
    split
    · split <;> exact idle _
    · split <;> exact idle _

theorem runIdle (decoded : Decoded g x) {s : Net n D} {acts : List (Act n)}
    (ok : run (step x cfg) (start cfg) acts = some s) : Idle s :=
  runInvariant (fun _ _ _ done idle => stepIdle decoded done idle) ok (fun _ => rfl)

end Batch

end Coroutine

section Search

open AsyncSearch hiding start
open BufferReuse Heaps

variable {n : Nat} {D : Type} [LinearOrder D] {q : Query n D}

/- How the call of post_read in the next round ends. -/
def roundEnd (s : AsyncSearch.Search q) : End :=
  postEnd q.vectorMachine (splitGroup s).remoteVec (fun _ => 0) s.buf.buffIdList.length

def Exceeds (s : AsyncSearch.Search q) : Prop := roundEnd s = .exceeded

instance (s : AsyncSearch.Search q) : Decidable (Exceeds s) := inferInstanceAs (Decidable (_ = _))

/- The neighbours of the next group that are on machine m and were not visited. -/
def newOn (s : AsyncSearch.Search q) (m : Nat) : Finset (Fin n) :=
  Finset.univ.filter (fun v => v ∉ s.visitHash ∧ q.vectorMachine v = m ∧
    ∃ c ∈ (group s).1, v ∈ q.linklist0 (s.buf.element c.2))

def Few (s : AsyncSearch.Search q) : Prop := ∀ m, m ≠ q.machineId → (newOn s m).card < maxReadNum

theorem postReadNone (vs : List (Fin n)) (wrCnt : Nat → Nat) (buf : ReadBuf n) :
    postRead q vs wrCnt buf = none ↔ postEnd q.vectorMachine vs wrCnt buf.buffIdList.length ≠ .posted := by
  induction vs generalizing wrCnt buf with
  | nil => simp [postRead,postEnd]
  | cons v vs ih =>
    unfold postRead
    cases free : buf.buffIdList with
    | nil => simp [postEnd]
    | cons b rest =>
      simp only [List.length_cons,postEnd]
      split
      · simp
      · rw [Option.map_eq_none_iff,ih]
        rfl

/- What split puts into remote_vec: each new neighbour of another machine once. -/
theorem splitRemote (vs : List (Fin n)) (w : Split n) (once : w.remoteVec.Nodup)
    (marked : ∀ v ∈ w.remoteVec, v ∈ w.visitHash) : (vs.foldl (splitNgh q) w).remoteVec.Nodup ∧
      ∀ v, v ∈ (vs.foldl (splitNgh q) w).remoteVec ↔
        v ∈ w.remoteVec ∨ v ∉ w.visitHash ∧ v ∈ vs ∧ q.vectorMachine v ≠ q.machineId := by
  induction vs generalizing w with
  | nil => exact ⟨once,fun v => by simp⟩
  | cons u rest ih =>
    rw [List.foldl_cons,splitNgh]
    split
    · rename_i seen
      obtain ⟨once',members⟩ := ih w once marked
      refine ⟨once',fun v => (members v).trans ?_⟩
      have same : v ∉ w.visitHash → v ≠ u := fun fresh eq => fresh (eq ▸ seen)
      rw [List.mem_cons]
      tauto
    · rename_i fresh
      split
      · rename_i remote
        obtain ⟨once',members⟩ := ih { w with visitHash := u :: w.visitHash, remoteVec := w.remoteVec ++ [u] }
          (List.nodup_append.mpr ⟨once,List.nodup_singleton u,fun a inside b only same =>
            fresh (List.mem_singleton.mp only ▸ same ▸ marked a inside)⟩)
          (fun v member => (List.mem_append.mp member).elim (fun old => List.mem_cons_of_mem u (marked v old))
            (fun only => List.mem_cons.mpr (.inl (List.mem_singleton.mp only))))
        refine ⟨once',fun v => (members v).trans ?_⟩
        rw [List.mem_append,List.mem_singleton,List.mem_cons,List.mem_cons]
        by_cases same : v = u
        · subst same
          tauto
        · tauto
      · rename_i here
        obtain ⟨once',members⟩ := ih { w with visitHash := u :: w.visitHash, localVec := w.localVec ++ [u] } once
          (fun v member => List.mem_cons_of_mem u (marked v member))
        refine ⟨once',fun v => (members v).trans ?_⟩
        rw [List.mem_cons,List.mem_cons]
        by_cases same : v = u
        · subst same
          tauto
        · tauto

theorem remoteNew (s : AsyncSearch.Search q) : (splitGroup s).remoteVec.Nodup ∧ ∀ v,
    v ∈ (splitGroup s).remoteVec ↔ v ∈ newOn s (q.vectorMachine v) ∧ q.vectorMachine v ≠ q.machineId := by
  obtain ⟨once,members⟩ := splitRemote (q := q) (nghsOf s) ⟨s.visitHash,[],[]⟩ List.nodup_nil
    (fun v member => absurd member List.not_mem_nil)
  refine ⟨once,fun v => (members v).trans ?_⟩
  simp [newOn,nghsOf,List.mem_flatMap,and_assoc]

/- The counter of a machine ends at the number of its new vertices. -/
theorem remoteCount (s : AsyncSearch.Search q) {m : Nat} (other : m ≠ q.machineId) :
    (splitGroup s).remoteVec.countP (fun v => q.vectorMachine v = m) = (newOn s m).card := by
  obtain ⟨once,members⟩ := remoteNew s
  rw [List.countP_eq_length_filter,← List.toFinset_card_of_nodup (once.filter _)]
  congr 1
  ext v
  rw [List.mem_toFinset,List.mem_filter,members,decide_eq_true_eq]
  constructor
  · rintro ⟨⟨inside,_⟩,rfl⟩
    exact inside
  · intro inside
    have onM : q.vectorMachine v = m := (Finset.mem_filter.mp inside).2.2.1
    exact ⟨⟨onM ▸ inside,onM ▸ other⟩,onM⟩

theorem ownCount (s : AsyncSearch.Search q) :
    (splitGroup s).remoteVec.countP (fun v => q.vectorMachine v = q.machineId) = 0 := by
  rw [List.countP_eq_zero]
  intro v member
  have remote := ((remoteNew s).2 v).mp member
  simpa using remote.2

theorem fewCounts {s : AsyncSearch.Search q} (few : Few s) (m : Nat) :
    (splitGroup s).remoteVec.countP (fun v => q.vectorMachine v = m) < maxReadNum := by
  by_cases own : m = q.machineId
  · rw [own,ownCount]
    decide
  · rw [remoteCount s own]
    exact few m own

theorem exceedsIff {s : AsyncSearch.Search q} (free : (splitGroup s).remoteVec.length ≤ s.buf.buffIdList.length) :
    Exceeds s ↔ ¬Few s := by
  unfold Exceeds roundEnd
  rw [exceededIff,List.take_of_length_le free]
  constructor
  · rintro ⟨m,many⟩ few
    exact absurd (fewCounts few m) many.not_gt
  · intro many
    simp only [Few,not_forall,not_lt] at many
    obtain ⟨m,other,many⟩ := many
    exact ⟨m,by rwa [remoteCount s other]⟩

section Buffers

variable {pool : List Nat} {s t : AsyncSearch.Search q}

def Sized (s : AsyncSearch.Search q) : Prop := size q.topHeap s.topCandidates ≤ max q.ef 1

theorem enqueueSized (d : D) (c : VectorCache n) : Sized (enqueue s d c) := by
  have kept : size q.topHeap (enqueue s d c).topCandidates = min (size q.topHeap s.topCandidates + 1) q.ef := sizeOffer
  rw [Sized,kept]
  omega

theorem localSized (sized : Sized s) (v : Fin n) : Sized (procLocal s v) := by
  unfold procLocal
  split
  · exact enqueueSized _ _
  · exact sized

theorem remoteSized (sized : Sized s) (c : VectorCache n) : Sized (procRemote s c) := by
  unfold procRemote
  split
  · exact enqueueSized _ _
  · exact sized

/- Between two rounds only results hold buffers. -/
structure Spare (pool : List Nat) (s : AsyncSearch.Search q) : Prop where
  balanced : BalancedAt pool s []
  sized : Sized s

theorem roundSpare (spare : Spare pool s) (ok : round s = some t) : Spare pool t := by
  refine ⟨roundBalanced spare.balanced ok,?_⟩
  obtain ⟨posted,read,same⟩ := Option.map_eq_some_iff.mp ok
  cases same
  refine List.foldlRecOn _ _ ?_ (fun _ sized c _ => remoteSized sized c)
  exact List.foldlRecOn _ _ spare.sized (fun _ sized v _ => localSized sized v)

theorem startSpare (epId : Fin n) (pool : List Nat) (buffer : Nat → Fin n) :
    Spare pool (AsyncSearch.start q epId pool buffer) := by
  refine ⟨startBalanced epId pool buffer,?_⟩
  have one : size q.topHeap (AsyncSearch.start q epId pool buffer).topCandidates = 1 := sizePushEmpty
  rw [Sized,one]
  exact le_max_right q.ef 1

theorem runSpare {epId : Fin n} {buffer : Nat → Fin n} {rounds : List Unit}
    (ok : run BufferReuse.step (AsyncSearch.start q epId pool buffer) rounds = some s) : Spare pool s := by
  refine runInvariant (fun u _ v done spare => ?_) ok (startSpare epId pool buffer)
  unfold BufferReuse.step at done
  split at done <;> try contradiction
  exact roundSpare spare done

theorem takeGroupLength (lowerBound : D) (gsz : Nat) (cands : q.candHeap.Store) :
    (takeGroup q lowerBound gsz cands).1.length ≤ gsz := by
  induction gsz generalizing cands with
  | zero => exact Nat.le_refl _
  | succ gsz ih =>
    unfold takeGroup
    split
    · exact Nat.zero_le _
    · split
      · exact Nat.zero_le _
      · exact Nat.succ_le_succ (ih _)

theorem remoteLength (degree : ∀ v, (q.linklist0 v).length ≤ maxGraphDeg) (s : AsyncSearch.Search q) :
    (splitGroup s).remoteVec.length ≤ AsyncSearch.candGroupSize * maxGraphDeg := by
  obtain ⟨once,members⟩ := remoteNew s
  have among : (splitGroup s).remoteVec ⊆ nghsOf s := by
    intro v member
    obtain ⟨_,_,_,c,inside,edge⟩ := Finset.mem_filter.mp ((members v).mp member).1
    exact List.mem_flatMap.mpr ⟨c,inside,edge⟩
  have fewer : (splitGroup s).remoteVec.length ≤ (nghsOf s).length := (once.subperm among).length_le
  have all : (nghsOf s).length ≤ (group s).1.length * maxGraphDeg := by
    rw [nghsOf,List.length_flatMap]
    refine (List.sum_le_card_nsmul _ maxGraphDeg (fun l inside => ?_)).trans_eq ?_
    · obtain ⟨c,_,rfl⟩ := List.mem_map.mp inside
      exact degree _
    · rw [List.length_map]
      rfl
  exact (fewer.trans all).trans (Nat.mul_le_mul_right _ (takeGroupLength _ _ _))

/- With a buffer for every result and for every neighbour of a group, some are free. -/
theorem enoughFree (spare : Spare pool s) (degree : ∀ v, (q.linklist0 v).length ≤ maxGraphDeg)
    (room : max q.ef 1 + AsyncSearch.candGroupSize * maxGraphDeg ≤ pool.length) :
    (splitGroup s).remoteVec.length ≤ s.buf.buffIdList.length := by
  have all := spare.balanced.free.length_eq
  rw [List.append_nil,List.length_append] at all
  have held : (bufferIds (q.topHeap.elems s.topCandidates)).length ≤ size q.topHeap s.topCandidates :=
    List.length_filterMap_le _ _
  have sized : size q.topHeap s.topCandidates ≤ max q.ef 1 := spare.sized
  have batch := remoteLength degree s
  omega

end Buffers

end Search

/- The coroutine never asks a machine for too many reads. The other search does so in exactly
those rounds in which one machine has maxReadNum new neighbours. -/
theorem readBatches {n : Nat} {D : Type} [Distance D] [Zero D] {g : GraphParts n} {x : Index n D}
    (decoded : Decoded g x) (cfg : Config n D) {acts : List (Act n)} {net : Net n D}
    (ok : run (step x cfg) (start cfg) acts = some net) {k : Nat} {q : AsyncSearch.Query k D} {epId : Fin k}
    {pool : List Nat} {buffer : Nat → Fin k} {rounds : List Unit} {s : AsyncSearch.Search q}
    (ok' : run BufferReuse.step (AsyncSearch.start q epId pool buffer) rounds = some s) :
    (∀ me op m', perform x cfg me (net me) op = some m' → ∃ batch, Hands (net me) m' op batch ∧
      ∀ free, postEnd BufferCache.machineId batch (fun _ => 0) free ≠ .exceeded) ∧
    (Few s → ¬Exceeds s) ∧
    ((∀ v, (q.linklist0 v).length ≤ maxGraphDeg) →
      max q.ef 1 + AsyncSearch.candGroupSize * maxGraphDeg ≤ pool.length → (Exceeds s ↔ ¬Few s)) ∧
    (Exceeds s → AsyncSearch.round s = none) := by
  refine ⟨fun me op m' done => ?_,fun few => fewWithin (fewCounts few) _,
    fun degree room => exceedsIff (enoughFree (runSpare ok') degree room),fun exceeds => ?_⟩
  · obtain ⟨_,batch,hands,few⟩ := performIdle decoded (runIdle decoded ok me) done
    exact ⟨batch,hands,postRemoteTaskFits few⟩
  · rw [AsyncSearch.round,Option.map_eq_none_iff,postReadNone]
    have ends : postEnd q.vectorMachine (AsyncSearch.splitGroup s).remoteVec (fun _ => 0) s.buf.buffIdList.length =
        .exceeded := exceeds
    rw [ends]
    decide

/- A vertex of machine 0 with two inlined neighbours on machine 1. -/
def inlinedGraph : GraphParts 2 where
  partitionSize p := if p = 0 then 1 else 2
  maxDegree := 2
  medoid := 0
  rows p := if p = 0 then [[1,2]] else [[],[]]
  rowsLength := by decide
  degree := by decide
  target := by decide
  total := by decide

def inlinedIndex : Index 2 Nat where
  getMachineId v := if v = 0 then 0 else 1
  block v := if v = 0 then [.micro 1 [1,2]] else []
  nghPtr _ _ _ := []
  dist v := 2 - v
  kmeansPosLabelMap v := v
  foreign v r member := by
    rcases eq_or_ne v 0 with rfl | other
    · rw [if_pos rfl] at member
      rw [List.mem_singleton.mp member]
      decide
    · rw [if_neg other] at member
      cases member

theorem inlinedDecoded : Decoded inlinedGraph inlinedIndex where
  slot p pre row post part := by
    have place : (inlinedGraph.rows p)[pre.length]? = some row := by
      rw [part,List.getElem?_append_right (Nat.le_refl _),Nat.sub_self]
      rfl
    have inside : pre.length < (inlinedGraph.rows p).length := by
      rw [part,List.length_append,List.length_cons]
      omega
    generalize pre.length = i at place inside
    refine ⟨fun _ => 0,?_⟩
    rcases Fin.exists_fin_two.mp ⟨p,rfl⟩ with rfl | rfl
    · have first : i = 0 := Nat.lt_one_iff.mp inside
      subst first
      cases Option.some.inj place
      rfl
    · have either : i = 0 ∨ i = 1 := by
        have less : i < 2 := inside
        omega
      rcases either with rfl | rfl
      all_goals
        cases Option.some.inj place
        rfl
  outside v beyond := by
    have far : 3 ≤ v := beyond
    simp only [inlinedIndex]
    rw [if_neg (by omega)]

def inlinedConfig : Config 2 Nat where
  ef := 4
  resKnn := 2
  originMachine := 0
  leaderMachine := 0
  coreMachine := [0]
  coreNodup := aloneOnce
  leaderCore := aloneLeads
  enterpoint := (2,0)
  evaluated := []
  once := by decide
  unset := 0

theorem readBatchesTwo : ∃ net m',
    run (step inlinedIndex inlinedConfig) (start inlinedConfig) [.host 0 .searchSub] = some net ∧
    perform inlinedIndex inlinedConfig 0 (net 0) .loopTop = some m' ∧
    m'.posted.map BufferCache.vectorId = [1,2] ∧
    (∃ batch, m'.posted = (net 0).posted ++ batch ∧
      ∀ free, postEnd BufferCache.machineId batch (fun _ => 0) free ≠ .exceeded) ∧
    ¬Exceeds (AsyncSearch.start AsyncSearch.tiedQuery 0 [0,1,2] (fun _ => 0)) := by
  have last : ((run (step inlinedIndex inlinedConfig) (start inlinedConfig) [.host 0 .searchSub]).bind
      (fun net => (perform inlinedIndex inlinedConfig 0 (net 0) .loopTop).map
        (fun m' => m'.posted.map BufferCache.vectorId))) = some [1,2] := by decide +kernel
  obtain ⟨net,ok,rest⟩ := Option.bind_eq_some_iff.mp last
  obtain ⟨m',done,value⟩ := Option.map_eq_some_iff.mp rest
  have few : Few (AsyncSearch.start AsyncSearch.tiedQuery 0 [0,1,2] (fun _ => 0)) := fun m _ =>
    (Finset.card_le_univ _).trans_lt (by decide)
  have started : run BufferReuse.step (AsyncSearch.start AsyncSearch.tiedQuery 0 [0,1,2] (fun _ => 0)) [] = some _ := rfl
  have batches := readBatches inlinedDecoded inlinedConfig ok started
  exact ⟨net,m',ok,done,value,batches.1 0 .loopTop m' done,batches.2.1 few⟩

/- One vertex with 32 neighbours on the other machine. -/
def wideQuery : AsyncSearch.Query 33 Nat where
  linklist0 v := if v = 0 then (List.finRange 33).tail else []
  dist v := v.val
  label v := v.val
  vectorMachine v := if v = 0 then 0 else 1
  machineId := 0
  ef := 40
  k := 10
  topHeap := Heaps.lastFirst Nat (AsyncSearch.VectorCache 33)
  candHeap := Heaps.lastFirst Natᵒᵈ (AsyncSearch.VectorCache 33)

theorem wideVertexExceeds : (∀ v, (wideQuery.linklist0 v).length ≤ maxGraphDeg) ∧
    ∃ s, run BufferReuse.step (AsyncSearch.start wideQuery 0 (List.range 2000) (fun _ => 0)) [] = some s ∧ Exceeds s :=
  ⟨by decide +kernel,_,rfl,by decide +kernel⟩

end CoTra.ReadBatches
