import CoTra.Heaps
import CoTra.Runs
import Mathlib.Data.Fintype.Card

/-! searchAsyncRemoteBaseLayerST: the best-first search of one machine over a graph whose
remote vertices are fetched into read buffers. post_read takes a buffer from the front of
the free list, release_cache puts it back at the end, in five places of the search. -/
namespace CoTra.AsyncSearch
open Heaps OrderDual

variable {n : Nat} {D : Type} [LinearOrder D]

def candGroupSize : Nat := 4

def maxReadNum : Nat := 32

structure VectorCache (n : Nat) where
  vectorId : Fin n
  -- none is the -1 of a local vector
  bufferId : Option Nat
  deriving DecidableEq, Repr

structure Query (n : Nat) (D : Type) [LinearOrder D] where
  linklist0 : Fin n → List (Fin n)
  dist : Fin n → D
  label : Fin n → Nat
  vectorMachine : Fin n → Nat
  machineId : Nat
  ef : Nat
  k : Nat
  topHeap : Heap D (VectorCache n)
  -- holds negated distances
  candHeap : Heap Dᵒᵈ (VectorCache n)

/- The read buffers of the thread: the free list, the vertex whose element each buffer
holds, and the ids taken and released since the search began. -/
structure ReadBuf (n : Nat) where
  buffIdList : List Nat
  buffer : Nat → Fin n
  taken : List Nat
  released : List Nat

namespace ReadBuf

def take (buf : ReadBuf n) (b : Nat) (rest : List Nat) (v : Fin n) : ReadBuf n :=
  { buffIdList := rest, buffer := Function.update buf.buffer b v, taken := buf.taken ++ [b], released := buf.released }

def releaseCache (buf : ReadBuf n) (b : Nat) : ReadBuf n :=
  { buf with buffIdList := buf.buffIdList ++ [b], released := buf.released ++ [b] }

/- What the pointer of a candidate points to: a local element or a read buffer. -/
def element (buf : ReadBuf n) (c : VectorCache n) : Fin n := match c.bufferId with
  | none => c.vectorId
  | some b => buf.buffer b

theorem takeSame (buf : ReadBuf n) (b : Nat) (rest : List Nat) (v : Fin n) : (buf.take b rest v).buffer b = v := by
  simp only [take,Function.update_self]

theorem takeOther {b b' : Nat} (other : b' ≠ b) (buf : ReadBuf n) (rest : List Nat) (v : Fin n) :
    (buf.take b rest v).buffer b' = buf.buffer b' := by
  simp only [take,Function.update_of_ne other]

end ReadBuf

variable {q : Query n D}

-- none: no buffer is free, or a machine is asked for too many vectors at once
def postRead (q : Query n D) :
    List (Fin n) → (Nat → Nat) → ReadBuf n → Option (List (VectorCache n) × ReadBuf n)
  | [], _, buf => some ([],buf)
  | v :: vs, wrCnt, buf => match buf.buffIdList with
    | [] => none
    | b :: rest =>
      let m := q.vectorMachine v
      if maxReadNum ≤ wrCnt m + 1 then none
      else (postRead q vs (Function.update wrCnt m (wrCnt m + 1)) (buf.take b rest v)).map
        (fun posted => (⟨v,some b⟩ :: posted.1,posted.2))

structure Search (q : Query n D) where
  visitHash : List (Fin n)
  topCandidates : q.topHeap.Store
  candidateSet : q.candHeap.Store
  lowerBound : D
  buf : ReadBuf n

/- The candidates to expand in this round, and the queue without them. -/
def takeGroup (q : Query n D) (lowerBound : D) : Nat → q.candHeap.Store →
    List (Dᵒᵈ × VectorCache n) × q.candHeap.Store
  | 0, cands => ([],cands)
  | gsz + 1, cands => match q.candHeap.pop cands with
    | none => ([],cands)
    | some (current,rest) =>
      if lowerBound < ofDual current.1 then ([],cands)
      else (current :: (takeGroup q lowerBound gsz rest).1,(takeGroup q lowerBound gsz rest).2)

def group (s : Search q) : List (Dᵒᵈ × VectorCache n) × q.candHeap.Store :=
  takeGroup q s.lowerBound candGroupSize s.candidateSet

structure Split (n : Nat) where
  visitHash : List (Fin n)
  localVec : List (Fin n)
  remoteVec : List (Fin n)

def splitNgh (q : Query n D) (w : Split n) (v : Fin n) : Split n :=
  if v ∈ w.visitHash then w
  else if q.vectorMachine v ≠ q.machineId then
    { w with visitHash := v :: w.visitHash, remoteVec := w.remoteVec ++ [v] }
  else { w with visitHash := v :: w.visitHash, localVec := w.localVec ++ [v] }

def nghsOf (s : Search q) : List (Fin n) := (group s).1.flatMap (fun c => q.linklist0 (s.buf.element c.2))

def splitGroup (s : Search q) : Split n := (nghsOf s).foldl (splitNgh q) ⟨s.visitHash,[],[]⟩

def bufferIds {κ : Type} (cs : List (κ × VectorCache n)) : List Nat := cs.filterMap (fun c => c.2.bufferId)

def enqueue (s : Search q) (d : D) (c : VectorCache n) : Search q :=
  let kept := offer q.topHeap q.ef s.topCandidates (d,c)
  { s with
    candidateSet := q.candHeap.push s.candidateSet (toDual d,c)
    topCandidates := kept.2
    lowerBound := topKey q.topHeap kept.2 s.lowerBound
    buf := (bufferIds kept.1).foldl ReadBuf.releaseCache s.buf }

def procLocal (s : Search q) (v : Fin n) : Search q :=
  if size q.topHeap s.topCandidates < q.ef ∨ q.dist v < s.lowerBound then enqueue s (q.dist v) ⟨v,none⟩ else s

def procRemote (s : Search q) (c : VectorCache n) : Search q :=
  if size q.topHeap s.topCandidates < q.ef ∨ q.dist (s.buf.element c) < s.lowerBound then
    enqueue s (q.dist (s.buf.element c)) c
  else { s with buf := c.bufferId.toList.foldl ReadBuf.releaseCache s.buf }

-- none: the program aborts in post_read
def round (s : Search q) : Option (Search q) :=
  (postRead q (splitGroup s).remoteVec (fun _ => 0) s.buf).map (fun posted =>
    posted.1.foldl procRemote ((splitGroup s).localVec.foldl procLocal
      { s with candidateSet := (group s).2, visitHash := (splitGroup s).visitHash, buf := posted.2 }))

inductive Outcome (n : Nat) (D : Type) where
  | aborted
  | returned (result : List (D × Nat)) (buf : ReadBuf n)

def drain (s : Search q) : Outcome n D :=
  let far := popTo q.topHeap q.k s.topCandidates
  let near := popTo q.topHeap 0 far.2
  .returned (near.1.map (fun c => (c.1,q.label (s.buf.element c.2))))
    ((bufferIds near.1).foldl ReadBuf.releaseCache ((bufferIds far.1).foldl ReadBuf.releaseCache s.buf))

-- none: the fuel was not enough
def searchLoop : Nat → Search q → Option (Outcome n D)
  | 0, _ => none
  | fuel + 1, s =>
    if (group s).1 = [] then some (drain s)
    else match round s with
      | none => some .aborted
      | some t => searchLoop fuel t

def start (q : Query n D) (epId : Fin n) (pool : List Nat) (buffer : Nat → Fin n) : Search q where
  visitHash := [epId]
  topCandidates := q.topHeap.push q.topHeap.empty (q.dist epId,⟨epId,none⟩)
  candidateSet := q.candHeap.push q.candHeap.empty (toDual (q.dist epId),⟨epId,none⟩)
  lowerBound := q.dist epId
  buf := ⟨pool,buffer,[],[]⟩

def searchAsyncRemoteBaseLayerST (q : Query n D) (epId : Fin n) (pool : List Nat) (buffer : Nat → Fin n)
    (fuel : Nat) : Option (Outcome n D) := searchLoop fuel (start q epId pool buffer)

/- Every id taken was released once, and the free list holds what it held before. -/
structure Conserved (pool : List Nat) (buf : ReadBuf n) : Prop where
  free : buf.buffIdList.Perm pool
  once : buf.released.Perm buf.taken

section Balance

/- Where the ids of the pool are: in the free list or held; what was taken is released or held. -/
structure Balanced (pool : List Nat) (buf : ReadBuf n) (held : List Nat) : Prop where
  free : (buf.buffIdList ++ held).Perm pool
  logs : (buf.released ++ held).Perm buf.taken

variable {pool held held' : List Nat} {buf buf' : ReadBuf n} {s t : Search q}

theorem Balanced.move (balanced : Balanced pool buf held) (same : held.Perm held') : Balanced pool buf held' where
  free := (same.symm.append_left buf.buffIdList).trans balanced.free
  logs := (same.symm.append_left buf.released).trans balanced.logs

theorem takeBalanced {b : Nat} {rest : List Nat} (balanced : Balanced pool buf held)
    (first : buf.buffIdList = b :: rest) (v : Fin n) : Balanced pool (buf.take b rest v) (b :: held) where
  free := by
    have before := balanced.free
    rw [first] at before
    exact List.perm_middle.trans before
  logs := by
    have more := balanced.logs.append_right [b]
    rw [List.append_assoc] at more
    exact (List.Perm.append_left _ (List.perm_append_singleton b held).symm).trans more

theorem releaseBalanced {ids : List Nat} (balanced : Balanced pool buf (ids ++ held)) :
    Balanced pool (ids.foldl ReadBuf.releaseCache buf) held := by
  induction ids generalizing buf with
  | nil => exact balanced
  | cons b rest ih =>
    refine ih ⟨?_,?_⟩
    · have before := balanced.free
      rwa [List.cons_append,List.append_cons] at before
    · have before := balanced.logs
      rwa [List.cons_append,List.append_cons] at before

theorem releaseBuffer (ids : List Nat) (buf : ReadBuf n) :
    (ids.foldl ReadBuf.releaseCache buf).buffer = buf.buffer := by
  induction ids generalizing buf with
  | nil => rfl
  | cons b rest ih => exact ih (buf.releaseCache b)

theorem postSource {v : Fin n} {vs : List (Fin n)} {wrCnt : Nat → Nat} {posted : List (VectorCache n) × ReadBuf n}
    (ok : postRead q (v :: vs) wrCnt buf = some posted) : ∃ b rest wrCnt' last, buf.buffIdList = b :: rest ∧
      postRead q vs wrCnt' (buf.take b rest v) = some last ∧ posted = (⟨v,some b⟩ :: last.1,last.2) := by
  unfold postRead at ok
  split at ok <;> try contradiction
  rename_i b rest first
  simp only at ok
  split at ok <;> try contradiction
  obtain ⟨last,later,same⟩ := Option.map_eq_some_iff.mp ok
  exact ⟨b,rest,_,last,first,later,same.symm⟩

theorem postBalanced {vs : List (Fin n)} {wrCnt : Nat → Nat} {posted : List (VectorCache n)}
    (ok : postRead q vs wrCnt buf = some (posted,buf')) (balanced : Balanced pool buf held) :
    Balanced pool buf' (posted.filterMap VectorCache.bufferId ++ held) := by
  induction vs generalizing buf wrCnt posted held with
  | nil =>
    cases Option.some.inj ok
    exact balanced
  | cons v vs ih =>
    obtain ⟨b,rest,wrCnt',last,first,later,same⟩ := postSource ok
    cases same
    exact (ih later (takeBalanced balanced first v)).move List.perm_middle

theorem bufferIdsPerm {κ : Type} {cs ds : List (κ × VectorCache n)} (same : cs.Perm ds) :
    (bufferIds cs).Perm (bufferIds ds) := same.filterMap _

theorem bufferIdsAppend {κ : Type} (cs ds : List (κ × VectorCache n)) :
    bufferIds (cs ++ ds) = bufferIds cs ++ bufferIds ds := List.filterMap_append

/- The ids that results hold, and ids that are not yet placed. -/
def BalancedAt (pool : List Nat) (s : Search q) (pending : List Nat) : Prop :=
  Balanced pool s.buf (bufferIds (q.topHeap.elems s.topCandidates) ++ pending)

theorem enqueueBalanced {d : D} {c : VectorCache n} {pending : List Nat}
    (balanced : BalancedAt pool s (c.bufferId.toList ++ pending)) : BalancedAt pool (enqueue s d c) pending := by
  have parts : (bufferIds ((d,c) :: q.topHeap.elems s.topCandidates)).Perm
      (bufferIds (offer q.topHeap q.ef s.topCandidates (d,c)).1 ++
        bufferIds (q.topHeap.elems (offer q.topHeap q.ef s.topCandidates (d,c)).2)) := by
    rw [← bufferIdsAppend]
    exact bufferIdsPerm (offerPerm q.ef s.topCandidates (d,c))
  have first : bufferIds ((d,c) :: q.topHeap.elems s.topCandidates) =
      c.bufferId.toList ++ bufferIds (q.topHeap.elems s.topCandidates) := by
    cases c with
    | mk v b => cases b <;> rfl
  rw [first] at parts
  refine releaseBalanced (balanced.move ?_)
  rw [← List.append_assoc,← List.append_assoc]
  exact (List.perm_append_comm.trans parts).append_right pending

theorem localBalanced {pending : List Nat} (balanced : BalancedAt pool s pending) (v : Fin n) :
    BalancedAt pool (procLocal s v) pending := by
  unfold procLocal
  split
  · exact enqueueBalanced balanced
  · exact balanced

theorem remoteBalanced {c : VectorCache n} {pending : List Nat}
    (balanced : BalancedAt pool s (c.bufferId.toList ++ pending)) : BalancedAt pool (procRemote s c) pending := by
  unfold procRemote
  split
  · exact enqueueBalanced balanced
  · refine releaseBalanced (balanced.move ?_)
    rw [← List.append_assoc,← List.append_assoc]
    exact List.perm_append_comm.append_right pending

theorem localsBalanced {pending : List Nat} (balanced : BalancedAt pool s pending) (vs : List (Fin n)) :
    BalancedAt pool (vs.foldl procLocal s) pending := by
  induction vs generalizing s with
  | nil => exact balanced
  | cons v rest ih => exact ih (localBalanced balanced v)

theorem remotesBalanced {cs : List (VectorCache n)} {pending : List Nat}
    (balanced : BalancedAt pool s (cs.filterMap VectorCache.bufferId ++ pending)) :
    BalancedAt pool (cs.foldl procRemote s) pending := by
  induction cs generalizing s with
  | nil => exact balanced
  | cons c rest ih =>
    have first : (c :: rest).filterMap VectorCache.bufferId =
        c.bufferId.toList ++ rest.filterMap VectorCache.bufferId := by
      cases c with
      | mk v b => cases b <;> rfl
    rw [first,List.append_assoc] at balanced
    exact ih (remoteBalanced balanced)

theorem roundBalanced (balanced : BalancedAt pool s []) (ok : round s = some t) : BalancedAt pool t [] := by
  obtain ⟨posted,read,same⟩ := Option.map_eq_some_iff.mp ok
  cases same
  rw [BalancedAt,List.append_nil] at balanced
  refine remotesBalanced (localsBalanced ?_ _)
  rw [List.append_nil]
  exact (postBalanced read balanced).move List.perm_append_comm

theorem drainConserved (balanced : BalancedAt pool s []) :
    ∃ result last, drain s = .returned result last ∧ Conserved pool last := by
  refine ⟨_,_,rfl,?_⟩
  have none' : q.topHeap.elems (popTo q.topHeap 0 (popTo q.topHeap q.k s.topCandidates).2).2 = [] := by
    refine List.length_eq_zero_iff.mp ?_
    exact (sizePopTo 0 _).trans (Nat.min_zero _)
  have far := bufferIdsPerm (popToPerm q.k s.topCandidates)
  have near := bufferIdsPerm (popToPerm 0 (popTo q.topHeap q.k s.topCandidates).2)
  rw [none',List.append_nil] at near
  rw [bufferIdsAppend] at far
  rw [BalancedAt,List.append_nil] at balanced
  have released := releaseBalanced (balanced.move (far.trans (near.append_left _)))
  have last : Balanced pool _ [] := releaseBalanced (released.move (List.Perm.of_eq (List.append_nil _).symm))
  exact ⟨by simpa only [List.append_nil] using last.free,by simpa only [List.append_nil] using last.logs⟩

theorem startBalanced (epId : Fin n) (pool : List Nat) (buffer : Nat → Fin n) :
    BalancedAt pool (start q epId pool buffer) [] := by
  have only : q.topHeap.elems (start q epId pool buffer).topCandidates = [(q.dist epId,⟨epId,none⟩)] := pushEmpty
  have none' : bufferIds (q.topHeap.elems (start q epId pool buffer).topCandidates) = [] := by
    rw [only]
    rfl
  rw [BalancedAt,none']
  refine ⟨?_,List.Perm.refl _⟩
  exact List.Perm.of_eq (List.append_nil pool)

end Balance

section Ends

variable {s t : Search q}

def remains (s : Search q) : Nat := n - s.visitHash.length + size q.candHeap s.candidateSet

/- Every neighbour that is new is marked and goes to one of the two lists. -/
theorem splitAll (vs : List (Fin n)) (w : Split n) (once : w.visitHash.Nodup) :
    (vs.foldl (splitNgh q) w).visitHash.Nodup ∧
      (vs.foldl (splitNgh q) w).visitHash.length + w.localVec.length + w.remoteVec.length =
        w.visitHash.length + (vs.foldl (splitNgh q) w).localVec.length + (vs.foldl (splitNgh q) w).remoteVec.length := by
  induction vs generalizing w with
  | nil => exact ⟨once,rfl⟩
  | cons v rest ih =>
    have first : (splitNgh q w v).visitHash.Nodup ∧
        (splitNgh q w v).visitHash.length + w.localVec.length + w.remoteVec.length =
          w.visitHash.length + (splitNgh q w v).localVec.length + (splitNgh q w v).remoteVec.length := by
      unfold splitNgh
      split
      · exact ⟨once,rfl⟩
      · rename_i fresh
        split <;> refine ⟨List.nodup_cons.mpr ⟨fresh,once⟩,?_⟩
        · simp only [List.length_cons,List.length_append,List.length_nil]; omega
        · simp only [List.length_cons,List.length_append,List.length_nil]; omega
    obtain ⟨once',count⟩ := ih (splitNgh q w v) first.1
    have count' := first.2
    refine ⟨once',?_⟩
    rw [List.foldl_cons]
    omega

theorem postLength {vs : List (Fin n)} {wrCnt : Nat → Nat} {buf : ReadBuf n}
    {posted : List (VectorCache n) × ReadBuf n} (ok : postRead q vs wrCnt buf = some posted) : posted.1.length = vs.length := by
  induction vs generalizing buf wrCnt posted with
  | nil =>
    cases Option.some.inj ok
    rfl
  | cons v vs ih =>
    obtain ⟨b,rest,wrCnt',last,first,later,same⟩ := postSource ok
    cases same
    exact congrArg (· + 1) (ih later)

theorem groupPerm (lowerBound : D) (gsz : Nat) (cands : q.candHeap.Store) : (q.candHeap.elems cands).Perm
    ((takeGroup q lowerBound gsz cands).1 ++ q.candHeap.elems (takeGroup q lowerBound gsz cands).2) := by
  induction gsz generalizing cands with
  | zero => exact List.Perm.refl _
  | succ gsz ih =>
    unfold takeGroup
    split
    · exact List.Perm.refl _
    · rename_i current rest ok
      split
      · exact List.Perm.refl _
      · exact (q.candHeap.elemsPop _ _ _ ok).trans ((ih rest).cons current)

/- A vertex adds at most one candidate, and marks nothing. -/
structure AddsOne (s t : Search q) : Prop where
  marks : t.visitHash = s.visitHash
  few : size q.candHeap t.candidateSet ≤ size q.candHeap s.candidateSet + 1

theorem enqueueAdds (d : D) (c : VectorCache n) : AddsOne s (enqueue s d c) := ⟨rfl,Nat.le_of_eq sizePush⟩

theorem localAdds (s : Search q) (v : Fin n) : AddsOne s (procLocal s v) := by
  unfold procLocal
  split
  · exact enqueueAdds _ _
  · exact ⟨rfl,Nat.le_succ _⟩

theorem remoteAdds (s : Search q) (c : VectorCache n) : AddsOne s (procRemote s c) := by
  unfold procRemote
  split
  · exact enqueueAdds _ _
  · exact ⟨rfl,Nat.le_succ _⟩

theorem foldAdds {α : Type} {proc : Search q → α → Search q} (adds : ∀ s a, AddsOne s (proc s a))
    (items : List α) (s : Search q) : (items.foldl proc s).visitHash = s.visitHash ∧
      size q.candHeap (items.foldl proc s).candidateSet ≤ size q.candHeap s.candidateSet + items.length := by
  induction items generalizing s with
  | nil => exact ⟨rfl,Nat.le_refl _⟩
  | cons a rest ih =>
    obtain ⟨marks,few⟩ := ih (proc s a)
    have first := adds s a
    refine ⟨marks.trans first.marks,?_⟩
    have one := first.few
    rw [List.foldl_cons,List.length_cons]
    omega

theorem roundRemains (once : s.visitHash.Nodup) (some' : (group s).1 ≠ []) (ok : round s = some t) :
    t.visitHash.Nodup ∧ remains t < remains s := by
  obtain ⟨posted,read,same⟩ := Option.map_eq_some_iff.mp ok
  obtain ⟨once',count⟩ := splitAll (q := q) (nghsOf s) ⟨s.visitHash,[],[]⟩ once
  obtain ⟨marks,few⟩ := foldAdds localAdds (splitGroup s).localVec
    { s with candidateSet := (group s).2, visitHash := (splitGroup s).visitHash, buf := posted.2 }
  obtain ⟨marks',few'⟩ := foldAdds remoteAdds posted.1 ((splitGroup s).localVec.foldl procLocal
    { s with candidateSet := (group s).2, visitHash := (splitGroup s).visitHash, buf := posted.2 })
  have visited : t.visitHash = (splitGroup s).visitHash := by
    rw [← same]
    exact marks'.trans marks
  refine ⟨by rw [visited]; exact once',?_⟩
  have within : (splitGroup s).visitHash.length ≤ n := by
    have bound := List.Nodup.length_le_card once'
    rwa [Fintype.card_fin] at bound
  have cands : size q.candHeap t.candidateSet ≤
      size q.candHeap (group s).2 + (splitGroup s).localVec.length + (splitGroup s).remoteVec.length := by
    rw [same,postLength read] at few'
    exact few'.trans (Nat.add_le_add_right few _)
  have grouped : size q.candHeap s.candidateSet = (group s).1.length + size q.candHeap (group s).2 :=
    (groupPerm _ _ _).length_eq.trans List.length_append
  have taken : 0 < (group s).1.length := List.length_pos_iff.mpr some'
  have counted : (splitGroup s).visitHash.length =
      s.visitHash.length + (splitGroup s).localVec.length + (splitGroup s).remoteVec.length := count
  unfold remains
  rw [visited]
  omega

theorem loopEnds {pool : List Nat} {fuel : Nat} (once : s.visitHash.Nodup) (balanced : BalancedAt pool s [])
    (enough : remains s < fuel) : ∃ outcome, searchLoop fuel s = some outcome ∧
      (outcome = .aborted ∨ ∃ result last, outcome = .returned result last ∧ Conserved pool last) := by
  induction fuel generalizing s with
  | zero => exact absurd enough (Nat.not_lt_zero _)
  | succ fuel ih =>
    by_cases empty : (group s).1 = []
    · exact ⟨drain s,if_pos empty,.inr (drainConserved balanced)⟩
    · cases ok : round s with
      | none => exact ⟨.aborted,by simp only [searchLoop,if_neg empty,ok],.inl rfl⟩
      | some t =>
        obtain ⟨once',less⟩ := roundRemains once empty ok
        obtain ⟨outcome,returns,facts⟩ := ih once' (roundBalanced balanced ok) (by omega)
        exact ⟨outcome,by simpa only [searchLoop,if_neg empty,ok] using returns,facts⟩

theorem startRemains (epId : Fin n) (pool : List Nat) (buffer : Nat → Fin n) :
    remains (start q epId pool buffer) = n := by
  have one : size q.candHeap (start q epId pool buffer).candidateSet = 1 := sizePushEmpty
  have visited : (start q epId pool buffer).visitHash.length = 1 := rfl
  have some' := epId.pos
  rw [remains,one,visited]
  omega

end Ends

theorem buffersReturned (q : Query n D) (epId : Fin n) (pool : List Nat) (buffer : Nat → Fin n) (fuel : Nat)
    (enough : n < fuel) : ∃ outcome, searchAsyncRemoteBaseLayerST q epId pool buffer fuel = some outcome ∧
      (outcome = .aborted ∨ ∃ result last, outcome = .returned result last ∧ Conserved pool last) :=
  loopEnds (List.nodup_singleton epId) (startBalanced epId pool buffer)
    ((startRemains epId pool buffer).trans_lt enough)

/- A local entry point at distance 10 with three remote neighbours at distances 5, 5, 3 and
room for two results. -/
def tiedQuery : Query 4 Nat where
  linklist0 v := if v = 0 then [1,2,3] else []
  dist v := [10,5,5,3].getD v.val 0
  label v := v.val
  vectorMachine v := if v = 0 then 0 else 1
  machineId := 0
  ef := 2
  k := 1
  topHeap := lastFirst Nat (VectorCache 4)
  candHeap := lastFirst Natᵒᵈ (VectorCache 4)

/- The free list after the call; none would be an abort. -/
def freeAfter : Outcome n D → Option (List Nat)
  | .aborted => none
  | .returned _ last => some last.buffIdList

theorem tiedReturned : ∃ result last,
    searchAsyncRemoteBaseLayerST tiedQuery 0 [0,1,2] (fun _ => 0) 5 = some (.returned result last) ∧
    last.buffIdList = [1,0,2] ∧ Conserved [0,1,2] last := by
  have free : (searchAsyncRemoteBaseLayerST tiedQuery 0 [0,1,2] (fun _ => 0) 5).map freeAfter =
      some (some [1,0,2]) := by decide +kernel
  obtain ⟨outcome,ended,aborted | ⟨result,last,rfl,conserved⟩⟩ :=
    buffersReturned tiedQuery 0 [0,1,2] (fun _ => 0) 5 (by decide)
  · rw [ended,aborted] at free
    cases free
  · rw [ended] at free
    exact ⟨result,last,ended,Option.some.inj (Option.some.inj free),conserved⟩

end CoTra.AsyncSearch
