import CoTra.AsyncSearch

/-! Which read buffers searchAsyncRemoteBaseLayerST still reads. A candidate is in
candidate_set and in top_candidates at once, and its buffer is released when it leaves
top_candidates. A candidate that left and lies in front of the bound would have been kept,
but one that lies exactly at the bound is still expanded. -/
namespace CoTra.BufferReuse
open Heaps OrderDual AsyncSearch Runs

variable {n : Nat} {D : Type} [LinearOrder D] {q : Query n D}

-- none: the search has ended
def step (s : Search q) (_ : Unit) : Option (Search q) := if (group s).1 = [] then none else round s

/- The buffer of a candidate is not free and holds what was read for the candidate. -/
def Holds (buf : ReadBuf n) (c : VectorCache n) : Prop :=
  ∀ b ∈ c.bufferId, b ∉ buf.buffIdList ∧ buf.buffer b = c.vectorId

instance (buf : ReadBuf n) (c : VectorCache n) : Decidable (Holds buf c) := by unfold Holds; infer_instance

def results (s : Search q) : List (VectorCache n) := (q.topHeap.elems s.topCandidates).map Prod.snd

/- Every candidate that is expanded in the next round still has its buffer. -/
def Held (s : Search q) (_ : Unit) : Prop := ∀ c ∈ (group s).1, Holds s.buf c.2

/- Every remote candidate of the next round is in front of the bound or still a result. -/
def Untied (s : Search q) (_ : Unit) : Prop := ∀ c ∈ (group s).1, c.2.bufferId ≠ none →
  1 ≤ q.ef ∧ ofDual c.1 < s.lowerBound ∨ c.2 ∈ results s

instance (s : Search q) (u : Unit) : Decidable (Held s u) := by unfold Held; infer_instance

instance (s : Search q) (u : Unit) : Decidable (Untied s u) := by unfold Untied; infer_instance

section Invariant

def Filled (buf : ReadBuf n) (c : VectorCache n) : Prop := ∀ b ∈ c.bufferId, buf.buffer b = c.vectorId

/- `pending` are the vectors of the round that are not yet compared. -/
structure Kept (pool : List Nat) (s : Search q) (pending : List (VectorCache n)) : Prop where
  balanced : BalancedAt pool s (pending.filterMap VectorCache.bufferId)
  filled : ∀ c ∈ results s ++ pending, Filled s.buf c
  inPool : ∀ c ∈ q.candHeap.elems s.candidateSet, ∀ b ∈ c.2.bufferId, b ∈ pool
  bounded : 1 ≤ q.ef → Bounded q.topHeap q.ef s.topCandidates s.lowerBound
  covered : 1 ≤ q.ef → ∀ c ∈ q.candHeap.elems s.candidateSet,
    Covered q.topHeap q.ef s.topCandidates s.lowerBound (ofDual c.1,c.2)

variable {pool : List Nat} {s t : Search q} {c : VectorCache n} {pending : List (VectorCache n)} {d : D}

theorem pendingIds : (c :: pending).filterMap VectorCache.bufferId =
    c.bufferId.toList ++ pending.filterMap VectorCache.bufferId := by
  cases c with
  | mk v b => cases b <;> rfl

theorem memBufferIds {b : Nat} (inside : c ∈ results s) (isBuf : b ∈ c.bufferId) :
    b ∈ bufferIds (q.topHeap.elems s.topCandidates) := by
  obtain ⟨z,member,same⟩ := List.mem_map.mp inside
  exact List.mem_filterMap.mpr ⟨z,member,by rw [same]; exact isBuf⟩

theorem enqueueKept (kept : Kept pool s (c :: pending))
    (taken : size q.topHeap s.topCandidates < q.ef ∨ d < s.lowerBound) : Kept pool (enqueue s d c) pending where
  balanced := enqueueBalanced (pendingIds ▸ kept.balanced)
  filled := by
    have old : ∀ z ∈ results s ++ c :: pending, Filled (enqueue s d c).buf z := by
      intro z inside b isBuf
      have before := kept.filled z inside b isBuf
      exact (congrFun (releaseBuffer _ s.buf) b).trans before
    intro z inside
    refine old z ?_
    rcases List.mem_append.mp inside with result | later
    · obtain ⟨e,member,same⟩ := List.mem_map.mp result
      rcases memOffer member with rfl | before
      · exact List.mem_append_right _ (List.mem_cons.mpr (.inl same.symm))
      · exact List.mem_append_left _ (List.mem_map.mpr ⟨e,before,same⟩)
    · exact List.mem_append_right _ (List.mem_cons_of_mem c later)
  inPool z inside b isBuf := by
    rcases memPush.mp inside with rfl | old
    · have held : b ∈ (c :: pending).filterMap VectorCache.bufferId :=
        List.mem_filterMap.mpr ⟨c,List.mem_cons_self,isBuf⟩
      exact kept.balanced.free.mem_iff.mp (List.mem_append_right _ (List.mem_append_right _ held))
    · exact kept.inPool z old b isBuf
  bounded _ := offerBounded
  covered room z inside := by
    refine offerCovered room (kept.bounded room) taken ?_
    rcases memPush.mp inside with rfl | old
    · exact .inl rfl
    · exact .inr (kept.covered room z old)

theorem localKept (kept : Kept pool s pending) (v : Fin n) : Kept pool (procLocal s v) pending := by
  unfold procLocal
  split
  · rename_i taken
    refine enqueueKept ⟨kept.balanced,fun z inside => ?_,kept.inPool,kept.bounded,kept.covered⟩ taken
    rcases List.mem_append.mp inside with result | waits
    · exact kept.filled z (List.mem_append_left _ result)
    · rcases List.mem_cons.mp waits with rfl | later
      · intro b isBuf
        cases isBuf
      · exact kept.filled z (List.mem_append_right _ later)
  · exact kept

theorem remoteKept (kept : Kept pool s (c :: pending)) : Kept pool (procRemote s c) pending := by
  have balanced : BalancedAt pool (procRemote s c) (pending.filterMap VectorCache.bufferId) :=
    remoteBalanced (pendingIds ▸ kept.balanced)
  unfold procRemote at balanced ⊢
  split at balanced
  · rename_i taken
    rw [if_pos taken]
    exact enqueueKept kept taken
  · rename_i refused
    rw [if_neg refused]
    refine ⟨balanced,fun z inside b isBuf => ?_,kept.inPool,kept.bounded,kept.covered⟩
    have before : z ∈ results s ++ c :: pending := by
      rcases List.mem_append.mp inside with result | later
      · exact List.mem_append_left _ result
      · exact List.mem_append_right _ (List.mem_cons_of_mem c later)
    exact (congrFun (releaseBuffer _ s.buf) b).trans (kept.filled z before b isBuf)

theorem localsKept (kept : Kept pool s pending) (vs : List (Fin n)) :
    Kept pool (vs.foldl procLocal s) pending := by
  induction vs generalizing s with
  | nil => exact kept
  | cons v rest ih => exact ih (localKept kept v)

theorem remotesKept {cs : List (VectorCache n)} (kept : Kept pool s cs) : Kept pool (cs.foldl procRemote s) [] := by
  induction cs generalizing s with
  | nil => exact kept
  | cons c rest ih => exact ih (remoteKept kept)

/- What is read goes into buffers that nothing else holds. -/
theorem postFilled (distinct : pool.Nodup) {vs : List (Fin n)} {wrCnt : Nat → Nat} {buf : ReadBuf n}
    {held : List Nat} {posted : List (VectorCache n) × ReadBuf n} (ok : postRead q vs wrCnt buf = some posted)
    (balanced : Balanced pool buf held) :
    (∀ b ∈ held, posted.2.buffer b = buf.buffer b) ∧ ∀ c ∈ posted.1, Filled posted.2 c := by
  induction vs generalizing buf wrCnt posted held with
  | nil =>
    cases Option.some.inj ok
    exact ⟨fun b _ => rfl,fun c member => absurd member List.not_mem_nil⟩
  | cons v vs ih =>
    obtain ⟨b,rest,wrCnt',last,first,later,same⟩ := postSource ok
    cases same
    obtain ⟨keeps,fills⟩ := ih later (takeBalanced balanced first v)
    have apart : b ∉ held := by
      have once := balanced.free.nodup_iff.mpr distinct
      rw [first] at once
      exact fun inside => (List.nodup_cons.mp once).1 (List.mem_append_right _ inside)
    refine ⟨fun b' inside => ?_,fun c member => ?_⟩
    · have other : b' ≠ b := fun same => apart (same ▸ inside)
      exact (keeps b' (List.mem_cons_of_mem _ inside)).trans (ReadBuf.takeOther other buf rest v)
    · rcases List.mem_cons.mp member with rfl | after
      · intro b' isBuf
        cases Option.some.inj isBuf
        exact (keeps b List.mem_cons_self).trans (ReadBuf.takeSame buf b rest v)
      · exact fills c after

theorem roundKept (distinct : pool.Nodup) (kept : Kept pool s []) (ok : round s = some t) : Kept pool t [] := by
  obtain ⟨posted,read,same⟩ := Option.map_eq_some_iff.mp ok
  cases same
  have balanced : Balanced pool s.buf (bufferIds (q.topHeap.elems s.topCandidates)) :=
    kept.balanced.move (List.Perm.of_eq (List.append_nil _))
  obtain ⟨keeps,fills⟩ := postFilled distinct read balanced
  have fewer : ∀ c ∈ q.candHeap.elems (group s).2, c ∈ q.candHeap.elems s.candidateSet := fun c inside =>
    (groupPerm _ _ _).mem_iff.mpr (List.mem_append_right _ inside)
  have read' : Kept pool { s with candidateSet := (group s).2, visitHash := (splitGroup s).visitHash, buf := posted.2 }
      posted.1 := by
    refine ⟨(postBalanced read balanced).move List.perm_append_comm,fun c inside => ?_,
      fun c inside => kept.inPool c (fewer c inside),kept.bounded,fun room c inside => kept.covered room c (fewer c inside)⟩
    rcases List.mem_append.mp inside with result | fresh
    · intro b isBuf
      have before := kept.filled c (List.mem_append_left _ result) b isBuf
      exact (keeps b (memBufferIds result isBuf)).trans before
    · exact fills c fresh
  exact remotesKept (localsKept read' _)

theorem startKept (epId : Fin n) (pool : List Nat) (buffer : Nat → Fin n) :
    Kept pool (start q epId pool buffer) [] := by
  have onlyTop : ∀ z ∈ q.topHeap.elems (start q epId pool buffer).topCandidates, z = (q.dist epId,⟨epId,none⟩) :=
    fun z inside => memPushEmpty inside
  have onlyCand : ∀ c ∈ q.candHeap.elems (start q epId pool buffer).candidateSet,
      c = (toDual (q.dist epId),⟨epId,none⟩) :=
    fun c inside => memPushEmpty inside
  refine ⟨startBalanced epId pool buffer,fun c inside b isBuf => ?_,fun c inside b isBuf => ?_,fun room => ⟨?_,?_⟩,
    fun room c inside => ?_⟩
  · rw [List.append_nil] at inside
    obtain ⟨z,member,same⟩ := List.mem_map.mp inside
    rw [← same,onlyTop z member] at isBuf
    cases isBuf
  · rw [onlyCand c inside] at isBuf
    cases isBuf
  · have one : size q.topHeap (start q epId pool buffer).topCandidates = 1 := sizePushEmpty
    rw [one]
    exact room
  · intro z inside
    rw [onlyTop z inside]
    exact le_rfl
  · rw [onlyCand c inside]
    exact .inl (memPush.mpr (.inl rfl))

/- A result that is a candidate has its buffer, and a candidate in front of the bound is a result. -/
theorem heldIff (distinct : pool.Nodup) (kept : Kept pool s []) (u : Unit) : Held s u ↔ Untied s u := by
  have candidate : ∀ c ∈ (group s).1, c ∈ q.candHeap.elems s.candidateSet := fun c inside =>
    (groupPerm _ _ _).mem_iff.mpr (List.mem_append_left _ inside)
  have balanced : Balanced pool s.buf (bufferIds (q.topHeap.elems s.topCandidates)) :=
    kept.balanced.move (List.Perm.of_eq (List.append_nil _))
  constructor
  · intro held c inside remote
    obtain ⟨b,isBuf⟩ := Option.ne_none_iff_exists'.mp remote
    obtain ⟨notFree,content⟩ := held c inside b isBuf
    have somewhere := balanced.free.mem_iff.mpr (kept.inPool c (candidate c inside) b isBuf)
    obtain ⟨z,member,its⟩ := List.mem_filterMap.mp ((List.mem_append.mp somewhere).resolve_left notFree)
    -- the result that holds this buffer is about the same vertex
    have filled := kept.filled z.2 (List.mem_append_left _ (List.mem_map.mpr ⟨z,member,rfl⟩)) b its
    have same : z.2 = c.2 := by
      cases hz : z.2 with
      | mk v bz =>
        cases hc : c.2 with
        | mk w bc =>
          rw [hz] at filled its
          rw [hc] at content isBuf
          cases filled.symm.trans content
          cases its.trans isBuf.symm
          rfl
    exact .inr (List.mem_map.mpr ⟨z,member,same⟩)
  · intro untied c inside b isBuf
    have result : c.2 ∈ results s := by
      rcases untied c inside (fun none' => by rw [none'] at isBuf; cases isBuf) with ⟨room,front⟩ | result
      · rcases kept.covered room c (candidate c inside) with found | ⟨_,beyond⟩
        · exact List.mem_map.mpr ⟨_,found,rfl⟩
        · exact absurd front beyond.not_gt
      · exact result
    refine ⟨fun free => ?_,kept.filled c.2 (List.mem_append_left _ result) b isBuf⟩
    have once := balanced.free.nodup_iff.mpr distinct
    exact (List.disjoint_of_nodup_append once) free (memBufferIds result isBuf)

end Invariant

/- The loop of the search takes these steps, and then drains its results or aborts. -/
theorem searchSteps {fuel : Nat} {s : Search q} {outcome : Outcome n D} (ok : searchLoop fuel s = some outcome) :
    ∃ k t, run step s (List.replicate k ()) = some t ∧
      ((group t).1 = [] ∧ outcome = drain t ∨ round t = none ∧ outcome = .aborted) := by
  induction fuel generalizing s with
  | zero => cases ok
  | succ fuel ih =>
    unfold searchLoop at ok
    split at ok
    · rename_i empty
      cases Option.some.inj ok
      exact ⟨0,s,rfl,.inl ⟨empty,rfl⟩⟩
    · rename_i some'
      split at ok
      · rename_i aborts
        cases Option.some.inj ok
        exact ⟨0,s,rfl,.inr ⟨aborts,rfl⟩⟩
      · rename_i t next
        obtain ⟨k,u,runs,last⟩ := ih ok
        have first : step s () = some t := (if_neg some').trans next
        exact ⟨k + 1,u,(runCons first _).trans runs,last⟩

/- In the first k rounds every candidate that is expanded has its buffer, exactly when no
remote candidate at the bound is expanded after it left the results. -/
theorem buffersHeldIff (q : Query n D) (epId : Fin n) (pool : List Nat) (distinct : pool.Nodup)
    (buffer : Nat → Fin n) (k : Nat) : Along step Held (start q epId pool buffer) (List.replicate k ()) ↔
      Along step Untied (start q epId pool buffer) (List.replicate k ()) := by
  have keep : ∀ (s : Search q) u t, step s u = some t → Kept pool s [] → Kept pool t [] := by
    intro s u t ok kept
    unfold step at ok
    split at ok
    · cases ok
    · exact roundKept distinct kept ok
  exact alongIff keep (fun s u kept => heldIff distinct kept u) (startKept epId pool buffer) _

theorem tiedHeldIff : Along step Held (start tiedQuery 0 [0,1,2] (fun _ => 0)) (List.replicate 2 ()) ↔
    Along step Untied (start tiedQuery 0 [0,1,2] (fun _ => 0)) (List.replicate 2 ()) :=
  buffersHeldIff tiedQuery 0 [0,1,2] (by decide) (fun _ => 0) 2

/- One of the two neighbours at distance 5 is evicted by the third, its buffer is released,
and the next round expands it. -/
theorem tiedReleased : ¬Along step Held (start tiedQuery 0 [0,1,2] (fun _ => 0)) (List.replicate 2 ()) := by
  decide +kernel

end CoTra.BufferReuse
