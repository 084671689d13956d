import CoTra.Heaps
import Mathlib.Data.Fintype.Card

/-! searchBaseLayerST: best-first search with a bounded queue of results, a queue of
candidates still to expand, a visited set and a bound that shrinks once the results are
full. Whatever the queues do among equal distances, the search ends, and no neighbour of a
result was missed that is nearer than the farthest result. -/
namespace CoTra.BeamSearch
open Heaps OrderDual

variable {n : Nat} {D : Type} [LinearOrder D]

structure Query (n : Nat) (D : Type) [LinearOrder D] where
  linklist0 : Fin n → List (Fin n)
  dist : Fin n → D
  ef : Nat
  topHeap : Heap D (Fin n)
  -- holds negated distances
  candHeap : Heap Dᵒᵈ (Fin n)

structure Beam (q : Query n D) where
  visHash : List (Fin n)
  topCandidates : q.topHeap.Store
  candidateSet : q.candHeap.Store
  lowerBound : D

variable {q : Query n D}

def considered (s : Beam q) (v : Fin n) : Prop := size q.topHeap s.topCandidates < q.ef ∨ q.dist v < s.lowerBound

instance (s : Beam q) (v : Fin n) : Decidable (considered s v) := by unfold considered; infer_instance

def enqueue (s : Beam q) (v : Fin n) : Beam q :=
  let kept := (offer q.topHeap q.ef s.topCandidates (q.dist v,v)).2
  { visHash := v :: s.visHash
    topCandidates := kept
    candidateSet := q.candHeap.push s.candidateSet (toDual (q.dist v),v)
    lowerBound := topKey q.topHeap kept s.lowerBound }

def procNeighbour (s : Beam q) (v : Fin n) : Beam q :=
  if v ∈ s.visHash then s
  else if considered s v then enqueue s v
  else { s with visHash := v :: s.visHash }

def expand (s : Beam q) (v : Fin n) : Beam q := (q.linklist0 v).foldl procNeighbour s

def start (q : Query n D) (epId : Fin n) : Beam q where
  visHash := [epId]
  topCandidates := q.topHeap.push q.topHeap.empty (q.dist epId,epId)
  candidateSet := q.candHeap.push q.candHeap.empty (toDual (q.dist epId),epId)
  lowerBound := q.dist epId

-- none: the fuel was not enough
def searchLoop : Nat → Beam q → Option (Beam q)
  | 0, _ => none
  | fuel + 1, s => match q.candHeap.pop s.candidateSet with
    | none => some s
    | some (current,rest) =>
      if s.lowerBound < ofDual current.1 then some s
      else searchLoop fuel (expand { s with candidateSet := rest } current.2)

def searchBaseLayerST (q : Query n D) (epId : Fin n) (fuel : Nat) : Option q.topHeap.Store :=
  (searchLoop fuel (start q epId)).map Beam.topCandidates

theorem searchLoopNone {q : Query n D} {s : Beam q} (fuel : Nat) (popped : q.candHeap.pop s.candidateSet = none) :
    searchLoop (fuel + 1) s = some s := by
  simp only [searchLoop,popped]

theorem searchLoopSome {q : Query n D} {s : Beam q} {pair : (Dᵒᵈ × Fin n) × q.candHeap.Store} (fuel : Nat)
    (popped : q.candHeap.pop s.candidateSet = some pair) :
    searchLoop (fuel + 1) s = if s.lowerBound < ofDual pair.1.1 then some s
      else searchLoop fuel (expand { s with candidateSet := pair.2 } pair.1.2) := by
  simp only [searchLoop,popped]

/- A vertex that is a result, or not nearer than any of a full set of results. -/
def Answered (q : Query n D) (found : List (D × Fin n)) (w : Fin n) : Prop :=
  (q.dist w,w) ∈ found ∨ found.length = q.ef ∧ ∀ y ∈ found, y.1 ≤ q.dist w

/- What the caller may rely on: neither the entry point nor a neighbour of a result was
missed. -/
structure Closed (q : Query n D) (epId : Fin n) (found : List (D × Fin n)) : Prop where
  few : found.length ≤ q.ef
  distinct : (found.map Prod.snd).Nodup
  right : ∀ z ∈ found, z.1 = q.dist z.2
  entry : Answered q found epId
  closed : ∀ z ∈ found, ∀ w ∈ q.linklist0 z.2, Answered q found w

section Invariant

structure Sound (s : Beam q) : Prop where
  once : s.visHash.Nodup
  distinct : ((q.topHeap.elems s.topCandidates).map Prod.snd).Nodup
  right : ∀ z ∈ q.topHeap.elems s.topCandidates, z.1 = q.dist z.2 ∧ z.2 ∈ s.visHash
  candRight : ∀ c ∈ q.candHeap.elems s.candidateSet, c.1 = toDual (q.dist c.2)
  bounded : Bounded q.topHeap q.ef s.topCandidates s.lowerBound
  seen : ∀ v ∈ s.visHash, Covered q.topHeap q.ef s.topCandidates s.lowerBound (q.dist v,v)

def Expanded (s : Beam q) (v : Fin n) : Prop := ∀ w ∈ q.linklist0 v, w ∈ s.visHash

/- Every result is the vertex that is being expanded, a candidate, or expanded. -/
def Known (s : Beam q) (now : Option (Fin n)) : Prop := ∀ z ∈ q.topHeap.elems s.topCandidates,
  now = some z.2 ∨ (toDual z.1,z.2) ∈ q.candHeap.elems s.candidateSet ∨ Expanded s z.2

/- Vertices not yet visited and candidates not yet expanded; no step of the loop adds to it. -/
def remains (s : Beam q) : Nat := n - s.visHash.length + size q.candHeap s.candidateSet

variable {s t : Beam q} {v w : Fin n} {now : Option (Fin n)}

theorem procVisits : v ∈ (procNeighbour s v).visHash := by
  unfold procNeighbour
  split
  · assumption
  · split
    · exact List.mem_cons_self
    · exact List.mem_cons_self

theorem procKeeps (old : w ∈ s.visHash) : w ∈ (procNeighbour s v).visHash := by
  unfold procNeighbour
  split
  · exact old
  · split
    · exact List.mem_cons_of_mem _ old
    · exact List.mem_cons_of_mem _ old

theorem enqueueSound (room : 1 ≤ q.ef) (sound : Sound s) (fresh : v ∉ s.visHash) (taken : considered s v) :
    Sound (enqueue s v) where
  once := List.nodup_cons.mpr ⟨fresh,sound.once⟩
  distinct := by
    have all : (((q.dist v,v) :: q.topHeap.elems s.topCandidates).map Prod.snd).Nodup := by
      refine List.nodup_cons.mpr ⟨fun inside => ?_,sound.distinct⟩
      obtain ⟨z,member,same⟩ := List.mem_map.mp inside
      have visited := (sound.right z member).2
      rw [same] at visited
      exact fresh visited
    have parts := ((offerPerm q.ef s.topCandidates (q.dist v,v)).map Prod.snd).nodup_iff.mp all
    rw [List.map_append] at parts
    exact parts.of_append_right
  right z inside := by
    rcases memOffer inside with rfl | old
    · exact ⟨rfl,List.mem_cons_self⟩
    · exact ⟨(sound.right z old).1,List.mem_cons_of_mem _ (sound.right z old).2⟩
  candRight c inside := by
    rcases memPush.mp inside with rfl | old
    · rfl
    · exact sound.candRight c old
  bounded := offerBounded
  seen u member := by
    refine offerCovered room sound.bounded taken ?_
    rcases List.mem_cons.mp member with rfl | old
    · exact .inl rfl
    · exact .inr (sound.seen u old)

theorem procSound (room : 1 ≤ q.ef) (sound : Sound s) (v : Fin n) : Sound (procNeighbour s v) := by
  unfold procNeighbour
  split
  · exact sound
  · rename_i fresh
    split
    · rename_i taken
      exact enqueueSound room sound fresh taken
    · rename_i refused
      exact {
        once := List.nodup_cons.mpr ⟨fresh,sound.once⟩
        distinct := sound.distinct
        right := fun z inside => ⟨(sound.right z inside).1,List.mem_cons_of_mem _ (sound.right z inside).2⟩
        candRight := sound.candRight
        bounded := sound.bounded
        seen := fun u member => by
          rcases List.mem_cons.mp member with rfl | old
          · exact refusedCovered sound.bounded refused
          · exact sound.seen u old }

theorem procKnown (known : Known s now) (v : Fin n) : Known (procNeighbour s v) now := by
  have later : ∀ {u}, Expanded s u → Expanded (procNeighbour s v) u := fun old w inside => procKeeps (old w inside)
  intro z inside
  unfold procNeighbour at inside later ⊢
  split at inside
  · rename_i old
    rw [if_pos old]
    exact known z inside
  · rename_i fresh
    rw [if_neg fresh] at later ⊢
    split at inside
    · rename_i taken
      rw [if_pos taken] at later ⊢
      rcases memOffer inside with rfl | old
      · exact .inr (.inl (memPush.mpr (.inl rfl)))
      · rcases known z old with same | waits | done
        · exact .inl same
        · exact .inr (.inl (memPush.mpr (.inr waits)))
        · exact .inr (.inr (later done))
    · rename_i refused
      rw [if_neg refused] at later ⊢
      exact (known z inside).imp_right (Or.imp_right later)

theorem procRemains (once : s.visHash.Nodup) (v : Fin n) : remains (procNeighbour s v) ≤ remains s := by
  unfold procNeighbour
  split
  · exact Nat.le_refl _
  · rename_i fresh
    have some' : (v :: s.visHash).length ≤ n := by
      have few := (List.nodup_cons.mpr ⟨fresh,once⟩).length_le_card
      rwa [Fintype.card_fin] at few
    rw [List.length_cons] at some'
    split
    · unfold remains enqueue
      rw [sizePush,List.length_cons]
      omega
    · unfold remains
      dsimp only
      rw [List.length_cons]
      omega

/- The neighbours of a vertex one after the other. -/
theorem procAll (room : 1 ≤ q.ef) (vs : List (Fin n)) (sound : Sound s) (known : Known s now) :
    Sound (vs.foldl procNeighbour s) ∧ Known (vs.foldl procNeighbour s) now ∧
      remains (vs.foldl procNeighbour s) ≤ remains s ∧
      ∀ w, w ∈ s.visHash ∨ w ∈ vs → w ∈ (vs.foldl procNeighbour s).visHash := by
  induction vs generalizing s with
  | nil => exact ⟨sound,known,Nat.le_refl _,fun w old => old.resolve_right List.not_mem_nil⟩
  | cons v rest ih =>
    obtain ⟨sound',known',less,visits⟩ := ih (procSound room sound v) (procKnown known v)
    refine ⟨sound',known',less.trans (procRemains sound.once v),fun w inside => visits w ?_⟩
    rcases inside with old | member
    · exact .inl (procKeeps old)
    · rcases List.mem_cons.mp member with rfl | later
      · exact .inl procVisits
      · exact .inr later

end Invariant

section Loop

variable {s t : Beam q} {current : Dᵒᵈ × Fin n} {rest : q.candHeap.Store}

/- One pass of the loop: take the nearest candidate and expand it. -/
theorem passKeeps (room : 1 ≤ q.ef) (sound : Sound s) (known : Known s none)
    (ok : q.candHeap.pop s.candidateSet = some (current,rest)) :
    Sound (expand { s with candidateSet := rest } current.2) ∧
      Known (expand { s with candidateSet := rest } current.2) none ∧
      remains (expand { s with candidateSet := rest } current.2) < remains s ∧
      ∀ w ∈ s.visHash, w ∈ (expand { s with candidateSet := rest } current.2).visHash := by
  have parts := q.candHeap.elemsPop _ _ _ ok
  have isRight := sound.candRight current (parts.mem_iff.mpr List.mem_cons_self)
  have sound' : Sound { s with candidateSet := rest } :=
    { sound with candRight := fun c inside => sound.candRight c (parts.mem_iff.mpr (List.mem_cons_of_mem _ inside)) }
  have known' : Known { s with candidateSet := rest } (some current.2) := by
    intro z inside
    rcases known z inside with same | waits | done
    · cases same
    · rcases List.mem_cons.mp (parts.mem_iff.mp waits) with first | later
      · exact .inl (congrArg some (congrArg Prod.snd first).symm)
      · exact .inr (.inl later)
    · exact .inr (.inr done)
  obtain ⟨sound'',known'',less,visits⟩ := procAll room (q.linklist0 current.2) sound' known'
  refine ⟨sound'',fun z inside => ?_,?_,fun w old => visits w (.inl old)⟩
  · rcases known'' z inside with same | other
    · refine .inr (.inr ?_)
      intro w member
      exact visits w (.inr (by rw [Option.some.inj same]; exact member))
    · exact .inr other
  · have fewer : remains { s with candidateSet := rest } < remains s := by
      unfold remains
      dsimp only
      rw [sizePop ok]
      omega
    exact Nat.lt_of_le_of_lt less fewer

/- No candidate is left that is within the bound. -/
def Finished (s : Beam q) : Prop := ∀ c ∈ q.candHeap.elems s.candidateSet, s.lowerBound < ofDual c.1

theorem loopReturns (room : 1 ≤ q.ef) {fuel : Nat} (sound : Sound s) (known : Known s none)
    (enough : remains s < fuel) :
    ∃ t, searchLoop fuel s = some t ∧ Sound t ∧ Known t none ∧ Finished t ∧ ∀ w ∈ s.visHash, w ∈ t.visHash := by
  induction fuel generalizing s with
  | zero => exact absurd enough (Nat.not_lt_zero _)
  | succ fuel ih =>
    cases ok : q.candHeap.pop s.candidateSet with
    | none =>
      refine ⟨s,searchLoopNone fuel ok,sound,known,?_,fun w old => old⟩
      intro c inside
      rw [q.candHeap.popNone _ ok] at inside
      exact absurd inside List.not_mem_nil
    | some pair =>
      obtain ⟨current,rest⟩ := pair
      by_cases far : s.lowerBound < ofDual current.1
      · refine ⟨s,(searchLoopSome fuel ok).trans (if_pos far),sound,known,?_,fun w old => old⟩
        intro c inside
        exact far.trans_le (q.candHeap.popLargest _ _ _ ok c inside)
      · obtain ⟨sound',known',less,keeps⟩ := passKeeps room sound known ok
        obtain ⟨t,returns,sound'',known'',finished,visits⟩ := ih sound' known' (by omega)
        exact ⟨t,((searchLoopSome fuel ok).trans (if_neg far)).trans returns,sound'',known'',finished,
          fun w old => visits w (keeps w old)⟩

/- What was visited and is no result was not within the bound of a full set of results. -/
theorem visitedAnswered (sound : Sound s) {w : Fin n} (visited : w ∈ s.visHash) :
    Answered q (q.topHeap.elems s.topCandidates) w := by
  rcases sound.seen w visited with found | ⟨full,beyond⟩
  · exact .inl found
  · exact .inr ⟨full,fun y other => (sound.bounded.below y other).trans beyond⟩

theorem finishedClosed (sound : Sound s) (known : Known s none) (finished : Finished s) {epId : Fin n}
    (visited : epId ∈ s.visHash) : Closed q epId (q.topHeap.elems s.topCandidates) where
  few := sound.bounded.few
  distinct := sound.distinct
  right z inside := (sound.right z inside).1
  entry := visitedAnswered sound visited
  closed z inside w member := by
    rcases known z inside with same | waits | done
    · cases same
    · -- a result is not beyond the bound, so it cannot still be a candidate
      have beyond : s.lowerBound < z.1 := finished _ waits
      exact absurd (sound.bounded.below z inside) beyond.not_ge
    · exact visitedAnswered sound (done w member)

theorem startSound (room : 1 ≤ q.ef) (epId : Fin n) : Sound (start q epId) where
  once := List.nodup_singleton _
  distinct := by
    have only : q.topHeap.elems (start q epId).topCandidates = [(q.dist epId,epId)] := pushEmpty
    rw [only]
    exact List.nodup_singleton _
  right z inside := by
    cases memPushEmpty inside
    exact ⟨rfl,List.mem_singleton_self _⟩
  candRight c inside := by
    cases memPushEmpty inside
    rfl
  bounded := by
    refine ⟨?_,fun z inside => ?_⟩
    · have one : size q.topHeap (start q epId).topCandidates = 1 := sizePushEmpty
      rw [one]
      exact room
    · cases memPushEmpty inside
      exact le_rfl
  seen v member := by
    cases List.mem_singleton.mp member
    exact .inl (memPush.mpr (.inl rfl))

theorem startKnown (epId : Fin n) : Known (start q epId) none := by
  intro z inside
  cases memPushEmpty inside
  exact .inr (.inl (memPush.mpr (.inl rfl)))

theorem startRemains (epId : Fin n) : remains (start q epId) = n := by
  have one : size q.candHeap (start q epId).candidateSet = 1 := sizePushEmpty
  have visited : (start q epId).visHash.length = 1 := rfl
  have some' := epId.pos
  rw [remains,one,visited]
  omega

end Loop

theorem beamCloses (q : Query n D) (room : 1 ≤ q.ef) (epId : Fin n) (fuel : Nat) (enough : n < fuel) :
    ∃ topCandidates, searchBaseLayerST q epId fuel = some topCandidates ∧
      Closed q epId (q.topHeap.elems topCandidates) := by
  obtain ⟨t,returns,sound,known,finished,visits⟩ := loopReturns room (startSound room epId) (startKnown epId)
    ((startRemains epId).trans_lt enough)
  exact ⟨t.topCandidates,congrArg (Option.map Beam.topCandidates) returns,
    finishedClosed sound known finished (visits epId List.mem_cons_self)⟩

/- A path of four vertices at distances 3, 2, 2, 1 and room for two results. -/
def pathQuery : Query 4 Nat where
  linklist0 v := [[1],[0,2],[1,3],[2]].getD v.val []
  dist v := [3,2,2,1].getD v.val 0
  ef := 2
  topHeap := lastFirst Nat (Fin 4)
  candHeap := lastFirst Natᵒᵈ (Fin 4)

theorem beamPath : ∃ topCandidates, searchBaseLayerST pathQuery 0 5 = some topCandidates ∧
    Closed pathQuery 0 (pathQuery.topHeap.elems topCandidates) :=
  beamCloses pathQuery (by decide) 0 5 (by decide)

example : (searchBaseLayerST pathQuery 0 5).map (fun t => t.elems) = some [(2,1),(1,3)] := by decide +kernel

end CoTra.BeamSearch
