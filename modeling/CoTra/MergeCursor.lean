import CoTra.ReplicaMerge

/-! The cursors of merge_replica_partition count words in 32 bits, whatever the size of
the shards. They are right at every step when the words of every shard can be counted so,
and wrong at some step otherwise. -/
namespace CoTra.MergeCursor
open Runs AdjacencyWords ReplicaMerge

variable {n maxVid : Nat}

/- Shards of any size, in the order in which their ids were sent. -/
structure Received (n maxVid : Nat) where
  ids : Fin n → List Nat
  nghs : Fin n → List (List Nat)
  shardDegree : Fin n → Nat
  maxDegree : Nat
  medoid : Nat
  aligned : ∀ m, (ids m).length = (nghs m).length
  distinct : ∀ m, (ids m).Nodup
  known : ∀ m, ∀ v ∈ ids m, v < maxVid
  inhabited : ∃ m, ids m ≠ []
  degrees : ∀ m, ∀ a ∈ nghs m, 1 ≤ a.length ∧ a.length ≤ shardDegree m
  bounded : ∀ m, ∀ a ∈ nghs m, ∀ u ∈ a, u < maxVid
  -- uint32_t
  smallDegree : ∀ m, shardDegree m < 2 ^ 32
  smallVid : maxVid < 2 ^ 32
  positive : 0 < maxDegree

variable (g : Received n maxVid)

def parameter : IndexParameter n := ⟨g.ids,fun m => words (g.nghs m),g.maxDegree,maxVid,g.medoid⟩

/- Where the list begins that comes behind the first k of the shard. -/
def position (m : Fin n) (k : Nat) : Nat := (words ((g.nghs m).take k)).length

-- p_offset behind the degree, and the bound of the loop over the neighbours.
def loopStart (pOffset : Nat) : Nat := (pOffset + 1) % 2 ^ 32
def loopStop (pOffset deg : Nat) : Nat := (loopStart pOffset + deg) % 2 ^ 32

/- What is promised of the step for the pair of v and shard m, when the pairs `pre` came
before it. A shard that was sent in ascending order has the list of v there. -/
structure Placed (pre : List (Nat × Fin n)) (v : Nat) (m : Fin n) (s : MergeState n) : Prop where
  cursor : s.pOffset m = position g m (taken pre m)
  start : loopStart (s.pOffset m) = position g m (taken pre m) + 1
  stop : ∀ a, (g.nghs m)[taken pre m]? = some a →
    (words (g.nghs m))[s.pOffset m]? = some a.length ∧
      loopStop (s.pOffset m) a.length = position g m (taken pre m + 1)
  own : (g.ids m).Pairwise (· < ·) → (g.ids m)[taken pre m]? = some v

/- The loop after the pairs `pre`, with every cursor where it should be. -/
structure Reading (first : Nat) (pre : List (Nat × Fin n)) (s : MergeState n) : Prop where
  marked : Marked maxVid s.nghSet s.finalNgh
  cursors : ∀ m, s.pOffset m = position g m (taken pre m)
  small : ∀ m, position g m (taken pre m) < 2 ^ 32
  gathered : pre ≠ [] → s.finalNgh ≠ []
  current : pre = [] → s.curId = first

section Steps

variable {g} {pre post : List (Nat × Fin n)} {v first : Nat} {m : Fin n} {s : MergeState n}

theorem takenNode (g : Received n maxVid) (m : Fin n) : taken (nodeShard (parameter g)) m = (g.nghs m).length := by
  have same := (nodeShardPerm (parameter g) m).length_eq
  rw [List.length_map] at same
  exact same.trans (g.aligned m)

/- The pair has a list of its shard that is not read yet. -/
theorem nextUnread (split : nodeShard (parameter g) = pre ++ (v,m) :: post) :
    ∃ a, (g.nghs m)[taken pre m]? = some a ∧ a ≠ [] ∧ ∀ u ∈ a, u < maxVid := by
  have all := takenNode g m
  rw [split,taken,List.filter_append,filterHere,List.length_append,List.length_cons] at all
  have inside : taken pre m < (g.nghs m).length := by
    rw [taken]
    omega
  have member := List.getElem_mem inside
  refine ⟨_,List.getElem?_eq_getElem inside,fun none' => ?_,g.bounded m _ member⟩
  have some' := (g.degrees m _ member).1
  rw [none'] at some'
  cases some'

theorem positionNext {k : Nat} {a : List Nat} (found : (g.nghs m)[k]? = some a) :
    position g m (k + 1) = position g m k + 1 + a.length := wordsTakeSucc found

theorem ownId (split : nodeShard (parameter g) = pre ++ (v,m) :: post) (ascending : (g.ids m).Pairwise (· < ·)) :
    (g.ids m)[taken pre m]? = some v := by
  have whole := @nodeShardShard n (parameter g) m ascending
  have ids : (parameter g).collectedIds m = g.ids m := rfl
  rw [split,List.filter_append,filterHere,List.map_append,List.map_cons,ids] at whole
  rw [← whole,taken]
  simp

/- A step is right exactly when the list ends before the 32 bits do. -/
theorem placedIff (split : nodeShard (parameter g) = pre ++ (v,m) :: post) (reading : Reading g first pre s) :
    Placed g pre v m s ↔ position g m (taken pre m + 1) < 2 ^ 32 := by
  obtain ⟨a,found,_,_⟩ := nextUnread split
  have next := positionNext found
  have cursor := reading.cursors m
  constructor
  · intro placed
    rw [← (placed.stop a found).2]
    exact Nat.mod_lt _ (by decide)
  · intro small
    have start : loopStart (s.pOffset m) = position g m (taken pre m) + 1 := by
      rw [loopStart,cursor]
      exact Nat.mod_eq_of_lt (by omega)
    refine ⟨cursor,start,fun b found' => ?_,ownId split⟩
    cases Option.some.inj (found.symm.trans found')
    constructor
    · rw [cursor,wordsSplit found,position]
      simp
    · rw [loopStop,start,next]
      exact Nat.mod_eq_of_lt (by omega)

theorem startReading (g : Received n maxVid) (first : Nat) : Reading g first [] (mergeStart (parameter g) first) := by
  refine ⟨markedEmpty maxVid,fun m => rfl,fun m => ?_,fun some' => absurd rfl some',fun _ => rfl⟩
  exact Nat.two_pow_pos 32

/- The write between two ids goes through when something was gathered. -/
theorem writeFinalReads (r : Shuffle) (marked : Marked maxVid s.nghSet s.finalNgh) (some' : s.finalNgh ≠ []) :
    ∃ t, writeFinal (parameter g) r s = some t ∧ Marked maxVid t.nghSet t.finalNgh ∧ t.pOffset = s.pOffset := by
  have perm := r.perm s.shuffles s.finalNgh
  have length := perm.length_eq
  have many := List.length_pos_iff.mpr some'
  have positive := g.positive
  refine ⟨_,if_pos (lt_min (by omega) positive),unmarkAll marked perm,rfl⟩

theorem readReads (split : nodeShard (parameter g) = pre ++ (v,m) :: post) (marked : Marked maxVid s.nghSet s.finalNgh)
    (cursors : ∀ p, s.pOffset p = position g p (taken pre p)) (small : ∀ p, position g p (taken pre p) < 2 ^ 32)
    (fits : position g m (taken pre m + 1) < 2 ^ 32) :
    ∃ t, readNghs (parameter g) m s = some t ∧ Reading g first (pre ++ [(v,m)]) t := by
  obtain ⟨a,found,linked,bounded⟩ := nextUnread split
  obtain ⟨t,read,marked',members,cursors',_⟩ := readNghsAt (x := parameter g) rfl found linked bounded fits marked (cursors m)
  refine ⟨t,read,marked',fun p => ?_,fun p => ?_,fun _ none' => ?_,fun none' => ?_⟩
  · rw [cursors',takenNext]
    rcases eq_or_ne p m with rfl | other
    · rw [Function.update_self,if_pos rfl]
      rfl
    · rw [Function.update_of_ne other,if_neg other]
      exact cursors p
  · rw [takenNext]
    rcases eq_or_ne p m with rfl | other
    · rwa [if_pos rfl]
    · rw [if_neg other]
      exact small p
  · obtain ⟨u,inside⟩ := List.exists_mem_of_ne_nil a linked
    have gathered := (members u).mpr (.inr inside)
    rw [none'] at gathered
    cases gathered
  · exact absurd none' (List.append_ne_nil_of_right_ne_nil _ (List.cons_ne_nil _ _))

theorem mergeOneReads (r : Shuffle) (split : nodeShard (parameter g) = pre ++ (v,m) :: post) (head : pre = [] → first = v)
    (reading : Reading g first pre s) (fits : position g m (taken pre m + 1) < 2 ^ 32) :
    ∃ t, mergeOne (parameter g) r s (v,m) = some t ∧ Reading g first (pre ++ [(v,m)]) t := by
  unfold mergeOne
  simp only
  split
  · rename_i less
    have later : pre ≠ [] := fun none' => by
      rw [reading.current none',head none'] at less
      exact lt_irrefl v less
    obtain ⟨t,write,marked,cursors⟩ := writeFinalReads r reading.marked (reading.gathered later)
    rw [write,Option.bind_some]
    refine readReads split marked (fun p => ?_) reading.small fits
    simp only [cursors]
    exact reading.cursors p
  · exact readReads split reading.marked reading.cursors reading.small fits

end Steps

section Loop

variable {g} {head : Nat × Fin n} {r : Shuffle}

/- As long as every list ends before the 32 bits do, the loop goes on with its cursors
right. -/
theorem loopReads (first : (nodeShard (parameter g)).head? = some head)
    (fits : ∀ pre v m post s, nodeShard (parameter g) = pre ++ (v,m) :: post → mergeLoop (parameter g) r pre = some s →
      Reading g head.1 pre s → position g m (taken pre m + 1) < 2 ^ 32)
    {pre post : List (Nat × Fin n)} (split : nodeShard (parameter g) = pre ++ post) :
    ∃ s, mergeLoop (parameter g) r pre = some s ∧ Reading g head.1 pre s := by
  induction pre using List.reverseRecOn generalizing post with
  | nil =>
    refine ⟨_,?_,startReading g head.1⟩
    rw [mergeLoop,first]
    rfl
  | append_singleton pre e ih =>
    obtain ⟨v,m⟩ := e
    rw [List.append_assoc,List.singleton_append] at split
    obtain ⟨s,loop,reading⟩ := ih split
    have start : pre = [] → head.1 = v := by
      intro none'
      rw [split,none',List.nil_append,List.head?_cons] at first
      cases first
      rfl
    obtain ⟨t,one,next⟩ := mergeOneReads r split start reading (fits pre v m post s split loop reading)
    refine ⟨t,?_,next⟩
    rw [mergeLoop,first,Option.bind_some] at loop ⊢
    simp only [List.foldlM_append,loop,List.foldlM_cons,List.foldlM_nil,Option.bind_eq_bind,Option.bind_some,one]
    rfl

theorem nodeShardHead (g : Received n maxVid) : ∃ head, (nodeShard (parameter g)).head? = some head := by
  obtain ⟨m,some'⟩ := g.inhabited
  obtain ⟨v,inside⟩ := List.exists_mem_of_ne_nil _ some'
  exact ⟨_,List.head?_eq_some_head (List.ne_nil_of_mem ((nodeShardMem (parameter g) v m).mpr inside))⟩

theorem positionLe (m : Fin n) (k : Nat) : position g m k ≤ (words (g.nghs m)).length := wordsTakeLe _ _

theorem rightCursors (small : ∀ m, (words (g.nghs m)).length < 2 ^ 32) {pre post : List (Nat × Fin n)} {v : Nat}
    {m : Fin n} {s : MergeState n} (split : nodeShard (parameter g) = pre ++ (v,m) :: post)
    (loop : mergeLoop (parameter g) r pre = some s) : Placed g pre v m s := by
  obtain ⟨head,first⟩ := nodeShardHead g
  have fits : ∀ p k, position g p k < 2 ^ 32 := fun p k => Nat.lt_of_le_of_lt (positionLe p k) (small p)
  obtain ⟨t,loop',reading⟩ := loopReads first (fun _ _ m _ _ _ _ _ => fits m _) split
  cases Option.some.inj (loop.symm.trans loop')
  exact (placedIff split reading).mpr (fits m _)

theorem smallShards (right : ∀ pre v m post s, nodeShard (parameter g) = pre ++ (v,m) :: post →
    mergeLoop (parameter g) r pre = some s → Placed g pre v m s) (m : Fin n) : (words (g.nghs m)).length < 2 ^ 32 := by
  obtain ⟨head,first⟩ := nodeShardHead g
  obtain ⟨s,_,reading⟩ := loopReads first (fun pre v m post s split loop reading =>
    (placedIff split reading).mp (right pre v m post s split loop)) (List.append_nil _).symm
  have small := reading.small m
  rwa [position,takenNode,List.take_length] at small

/- The cursors are right at every step of the merge exactly when no shard has 2 ^ 32 words
or more. -/
theorem cursorsIff (r : Shuffle) (g : Received n maxVid) :
    (∀ pre v m post s, nodeShard (parameter g) = pre ++ (v,m) :: post → mergeLoop (parameter g) r pre = some s →
      Placed g pre v m s) ↔ ∀ m, (words (g.nghs m)).length < 2 ^ 32 :=
  ⟨smallShards,fun small _ _ _ _ _ split loop => rightCursors small split loop⟩

end Loop

section Large

/- One shard with 2 ^ 31 ids, each with one neighbour. -/
def large : Received 1 (2 ^ 31) where
  ids _ := List.range (2 ^ 31)
  nghs _ := List.replicate (2 ^ 31) [0]
  shardDegree _ := 1
  maxDegree := 1
  medoid := 0
  aligned _ := List.length_range.trans List.length_replicate.symm
  distinct _ := List.nodup_range
  known _ _ member := List.mem_range.mp member
  inhabited := ⟨0,List.ne_nil_of_mem (List.mem_range.mpr (Nat.two_pow_pos 31))⟩
  degrees _ a member := by
    rw [List.eq_of_mem_replicate member]
    exact ⟨le_rfl,le_rfl⟩
  bounded _ a member u inside := by
    rw [List.eq_of_mem_replicate member] at inside
    rw [List.mem_singleton.mp inside]
    exact Nat.two_pow_pos 31
  smallDegree _ := by decide
  smallVid := by decide
  positive := Nat.one_pos

theorem replicateWords (k u : Nat) : (words (List.replicate k [u])).length = 2 * k := by
  induction k with
  | zero => rfl
  | succ k ih =>
    rw [List.replicate_succ,wordsCons,List.length_cons,List.length_append,ih,List.length_singleton]
    omega

/- The loop bound of its last list is 0 in 32 bits. -/
theorem largeWraps : ¬∀ pre v m post s, nodeShard (parameter large) = pre ++ (v,m) :: post →
    mergeLoop (parameter large) keepOrder pre = some s → Placed large pre v m s := by
  intro right
  have small := smallShards right 0
  have words' : (words (large.nghs 0)).length = 2 * 2 ^ 31 := replicateWords _ _
  omega

end Large

end CoTra.MergeCursor
