import CoTra.AdjacencyWords
import CoTra.Runs
import Mathlib.Data.List.FinRange
import Mathlib.Data.List.Sort
import Mathlib.Data.Finset.Sort
import Mathlib.Data.Fintype.Basic
import Mathlib.Data.Finset.Union

/-! The merge of the collected shards into one index (disk_utils.cc:
merge_replica_partition). The ids of all shards are sorted with their shard; the
neighbours of an id are read off one cursor for each shard, without a look at the id,
and written when the next id differs. `none` is an abort or a read outside an array. -/
namespace CoTra.ReplicaMerge
open Runs AdjacencyWords

variable {n : Nat}

-- collected_ids and collected_nghs, with what else is read of the parameters.
structure IndexParameter (n : Nat) where
  collectedIds : Fin n → List Nat
  collectedNghs : Fin n → List Nat
  maxDegree : Nat
  maxVid : Nat
  medoid : Nat

-- std::shuffle, by the number of the call.
structure Shuffle where
  shuffle : Nat → List Nat → List Nat
  perm : ∀ i xs, (shuffle i xs).Perm xs

structure MergeState (n : Nat) where
  curId : Nat
  nghSet : List Bool
  finalNgh : List Nat
  pOffset : Fin n → Nat
  shuffles : Nat
  merged : List Nat
  mergedIndexSize : Nat

-- The file that is written: its metadata and the words behind it.
structure IndexFile where
  indexSize : Nat
  maxDegree : Nat
  medoid : Nat
  frozen : Nat
  nghs : List Nat
  deriving DecidableEq, Repr

variable (x : IndexParameter n) (r : Shuffle)

def before (left right : Nat × Fin n) : Bool :=
  left.1 < right.1 || (left.1 == right.1 && left.2 < right.2)

def nodeShard : List (Nat × Fin n) :=
  ((List.finRange n).flatMap (fun m => (x.collectedIds m).map (fun id => (id,m)))).mergeSort
    (fun left right => !before right left)

def metadataSize : Nat := 8 + 4 + 4 + 8

/- The neighbours of cur_id are shuffled, cut to max_degree and written. -/
def writeFinal (s : MergeState n) : Option (MergeState n) :=
  let finalNgh := r.shuffle s.shuffles s.finalNgh
  let finalDeg := min finalNgh.length x.maxDegree
  if 0 < finalDeg then
    some { s with
      merged := s.merged ++ finalDeg :: finalNgh.take finalDeg
      mergedIndexSize := s.mergedIndexSize + (4 + finalDeg * 4)
      nghSet := unmark s.nghSet finalNgh
      finalNgh := []
      shuffles := s.shuffles + 1 }
  else none

/- One list of shard pid. p_offset is a uint32_t, and so is the bound of the loop. -/
def readNghs (pid : Fin n) (s : MergeState n) : Option (MergeState n) :=
  let nghs := x.collectedNghs pid
  nghs[s.pOffset pid]?.bind (fun deg =>
    let offset := (s.pOffset pid + 1) % 2 ^ 32
    if deg = 0 then none
    else
      let stop := (offset + deg) % 2 ^ 32
      ((List.range' offset (stop - offset)).foldlM (fun t d => nghs[d]?.bind (mark t)) (s.nghSet,s.finalNgh)).map
        (fun t => { s with nghSet := t.1, finalNgh := t.2, pOffset := Function.update s.pOffset pid stop }))

def mergeOne (s : MergeState n) (idShard : Nat × Fin n) : Option (MergeState n) :=
  if s.curId < idShard.1 then
    (writeFinal x r s).bind (fun s => readNghs x idShard.2 { s with curId := idShard.1 })
  else readNghs x idShard.2 s

def mergeStart (curId : Nat) : MergeState n :=
  ⟨curId,List.replicate x.maxVid false,[],fun _ => 0,0,[],metadataSize⟩

-- The loop over a part of node_shard.
def mergeLoop (part : List (Nat × Fin n)) : Option (MergeState n) :=
  (nodeShard x).head?.bind (fun first => part.foldlM (mergeOne x r) (mergeStart x first.1))

def mergeReplicaPartition : Option (IndexFile × MergeState n) :=
  ((mergeLoop x r (nodeShard x)).bind (writeFinal x r)).map
    (fun s => (⟨s.mergedIndexSize,x.maxDegree,x.medoid,0,s.merged⟩,s))

/- Shards as the collection leaves them: ids ascending, and with every id the list of its
neighbours. -/
structure Shards (n maxVid : Nat) where
  ids : Fin n → List Nat
  nghs : Fin n → List (List Nat)
  aligned : ∀ m, (ids m).length = (nghs m).length
  ascending : ∀ m, (ids m).Pairwise (· < ·)
  inhabited : ∃ m, ids m ≠ []
  linked : ∀ m, ∀ a ∈ nghs m, a ≠ []
  bounded : ∀ m, ∀ a ∈ nghs m, ∀ u ∈ a, u < maxVid
  fits : ∀ m, (words (nghs m)).length < 2 ^ 32

variable {maxVid : Nat} (g : Shards n maxVid)

def parameter (maxDegree medoid : Nat) : IndexParameter n :=
  ⟨g.ids,fun m => words (g.nghs m),maxDegree,maxVid,medoid⟩

-- The neighbours of v in shard m.
def adjacency (m : Fin n) (v : Nat) : List Nat :=
  ((g.ids m).zip (g.nghs m)).flatMap (fun entry => if entry.1 = v then entry.2 else [])

def neighbours (v : Nat) : Finset Nat := Finset.univ.biUnion (fun m => (adjacency g m v).toFinset)

def vertices : Finset Nat := Finset.univ.biUnion (fun m => (g.ids m).toFinset)

/- What is written for v. -/
structure RecordOf (maxDegree v : Nat) (nghs : List Nat) : Prop where
  distinct : nghs.Nodup
  known : ∀ u ∈ nghs, u ∈ neighbours g v
  size : nghs.length = min (neighbours g v).card maxDegree

section Order

variable {x}

theorem notBefore {a b : Nat × Fin n} : (!before b a) = true ↔ a.1 < b.1 ∨ (a.1 = b.1 ∧ a.2 ≤ b.2) := by
  simp only [before,Bool.not_eq_true',Bool.or_eq_false_iff,decide_eq_false_iff_not,Bool.and_eq_false_iff,
    beq_eq_false_iff_ne]
  omega

theorem nodeShardSorted (x : IndexParameter n) :
    (nodeShard x).Pairwise (fun a b => a.1 < b.1 ∨ (a.1 = b.1 ∧ a.2 ≤ b.2)) := by
  have sorted := @List.pairwise_mergeSort _ (fun left right : Nat × Fin n => !before right left) ?_ ?_
    ((List.finRange n).flatMap (fun m => (x.collectedIds m).map (fun id => (id,m))))
  · exact sorted.imp (fun le => notBefore.mp le)
  · intro a b c first second
    rw [notBefore] at first second ⊢
    omega
  · intro a b
    rw [Bool.or_eq_true,notBefore,notBefore]
    omega

theorem nodeShardMem (x : IndexParameter n) (v : Nat) (m : Fin n) :
    (v,m) ∈ nodeShard x ↔ v ∈ x.collectedIds m := by
  rw [nodeShard,List.mem_mergeSort,List.mem_flatMap]
  constructor
  · rintro ⟨p,_,member⟩
    obtain ⟨id,inside,same⟩ := List.mem_map.mp member
    cases same
    exact inside
  · intro inside
    exact ⟨m,List.mem_finRange m,List.mem_map.mpr ⟨v,inside,rfl⟩⟩

theorem shardOfMachines (ids : Fin n → List Nat) (m : Fin n) {ms : List (Fin n)} (nodup : ms.Nodup) :
    ((ms.flatMap (fun p => (ids p).map (fun id => (id,p)))).filter (fun e => e.2 = m)).map Prod.fst =
      if m ∈ ms then ids m else [] := by
  induction ms with
  | nil => rfl
  | cons p rest ih =>
    have parts := List.nodup_cons.mp nodup
    rw [List.flatMap_cons,List.filter_append,List.map_append,ih parts.2]
    rcases eq_or_ne p m with rfl | other
    · have same : ((ids p).map (fun id => (id,p))).filter (fun e => e.2 = p) = (ids p).map (fun id => (id,p)) := by
        refine List.filter_eq_self.mpr (fun e member => ?_)
        obtain ⟨id,_,rfl⟩ := List.mem_map.mp member
        exact decide_eq_true rfl
      rw [same,List.map_map,if_neg parts.1,if_pos List.mem_cons_self,List.append_nil]
      exact List.map_id (ids p)
    · have none' : ((ids p).map (fun id => (id,p))).filter (fun e => e.2 = m) = [] := by
        refine List.filter_eq_nil_iff.mpr (fun e member => ?_)
        obtain ⟨id,_,rfl⟩ := List.mem_map.mp member
        simpa using other
      have later : m ∈ p :: rest ↔ m ∈ rest := by
        rw [List.mem_cons,or_iff_right (Ne.symm other)]
      rw [none',List.map_nil,List.nil_append]
      simp only [later]

theorem nodeShardPerm (x : IndexParameter n) (m : Fin n) :
    (((nodeShard x).filter (fun e => e.2 = m)).map Prod.fst).Perm (x.collectedIds m) := by
  have perm := ((List.mergeSort_perm ((List.finRange n).flatMap (fun m => (x.collectedIds m).map (fun id => (id,m))))
    (fun left right => !before right left)).filter (fun e => e.2 = m)).map Prod.fst
  rwa [shardOfMachines x.collectedIds m (List.nodup_finRange n),if_pos (List.mem_finRange m)] at perm

/- Sorting keeps the order of a shard's ids. -/
theorem nodeShardShard {m : Fin n} (ascending : (x.collectedIds m).Pairwise (· < ·)) :
    ((nodeShard x).filter (fun e => e.2 = m)).map Prod.fst = x.collectedIds m := by
  have sorted : (((nodeShard x).filter (fun e => e.2 = m)).map Prod.fst).Pairwise (· ≤ ·) := by
    refine List.pairwise_map.mpr (((nodeShardSorted x).filter _).imp (fun le => ?_))
    omega
  exact (nodeShardPerm x m).eq_of_pairwise' sorted (ascending.imp (fun lt => Nat.le_of_lt lt))

end Order

section Shards

variable {g} {pre post : List (Nat × Fin n)} {v : Nat} {m : Fin n} {maxDegree medoid : Nat}

theorem adjacencyMem {u : Nat} : u ∈ adjacency g m v ↔ ∃ a, (v,a) ∈ (g.ids m).zip (g.nghs m) ∧ u ∈ a := by
  rw [adjacency,List.mem_flatMap]
  constructor
  · rintro ⟨⟨w,a⟩,entry,inside⟩
    simp only at inside
    split at inside
    · rename_i same
      exact ⟨a,same ▸ entry,inside⟩
    · exact absurd inside List.not_mem_nil
  · rintro ⟨a,entry,inside⟩
    exact ⟨(v,a),entry,by rwa [if_pos rfl]⟩

theorem adjacencyShard {u : Nat} (inside : u ∈ adjacency g m v) : v ∈ g.ids m := by
  obtain ⟨a,entry,_⟩ := adjacencyMem.mp inside
  exact (List.of_mem_zip entry).1

-- The ids differ, so an id's place gives its neighbours.
theorem adjacencyAt {j : Nat} {a : List Nat} (id : (g.ids m)[j]? = some v) (list : (g.nghs m)[j]? = some a) (u : Nat) :
    u ∈ adjacency g m v ↔ u ∈ a := by
  rw [adjacencyMem]
  constructor
  · rintro ⟨b,entry,inside⟩
    obtain ⟨i,found⟩ := List.mem_iff_getElem?.mp entry
    obtain ⟨id',list'⟩ := List.getElem?_zip_eq_some.mp found
    have same : i = j := by
      obtain ⟨boundI,atI⟩ := List.getElem?_eq_some_iff.mp id'
      obtain ⟨boundJ,atJ⟩ := List.getElem?_eq_some_iff.mp id
      have distinct : (g.ids m).Nodup := (g.ascending m).imp Nat.ne_of_lt
      exact distinct.getElem_inj_iff.mp (atI.trans atJ.symm)
    rw [same,list] at list'
    cases list'
    exact inside
  · intro inside
    exact ⟨a,List.mem_iff_getElem?.mpr ⟨j,List.getElem?_zip_eq_some.mpr ⟨id,list⟩⟩,inside⟩

-- How many ids of shard m are in a part of node_shard.
def taken (pre : List (Nat × Fin n)) (m : Fin n) : Nat := (pre.filter (fun e => e.2 = m)).length

theorem filterHere (v : Nat) (m : Fin n) (post : List (Nat × Fin n)) :
    ((v,m) :: post).filter (fun e => e.2 = m) = (v,m) :: post.filter (fun e => e.2 = m) :=
  List.filter_cons_of_pos (decide_eq_true rfl)

/- The next pair of node_shard is the shard's next id. -/
theorem nextId (split : nodeShard (parameter g maxDegree medoid) = pre ++ (v,m) :: post) :
    (g.ids m)[taken pre m]? = some v := by
  have whole := @nodeShardShard n (parameter g maxDegree medoid) m (g.ascending m)
  rw [split,List.filter_append,filterHere,List.map_append,List.map_cons] at whole
  have ids : (parameter g maxDegree medoid).collectedIds m = g.ids m := rfl
  rw [← ids,← whole,taken]
  simp

theorem nextList (split : nodeShard (parameter g maxDegree medoid) = pre ++ (v,m) :: post) :
    ∃ a, (g.nghs m)[taken pre m]? = some a ∧ a ≠ [] ∧ (∀ u ∈ a, u < maxVid) ∧ ∀ u, u ∈ adjacency g m v ↔ u ∈ a := by
  have id := nextId split
  obtain ⟨bound,_⟩ := List.getElem?_eq_some_iff.mp id
  rw [g.aligned m] at bound
  have found := List.getElem?_eq_getElem bound
  have member := List.getElem_mem bound
  exact ⟨_,found,g.linked m _ member,g.bounded m _ member,adjacencyAt id found⟩

theorem takenNext (pre : List (Nat × Fin n)) (v : Nat) (m p : Fin n) :
    taken (pre ++ [(v,m)]) p = taken pre p + if p = m then 1 else 0 := by
  rw [taken,List.filter_append,List.length_append,taken]
  rcases eq_or_ne p m with rfl | other
  · simp
  · simp [other,Ne.symm other]

/- A pair that comes after v is sorted in means that v is complete. -/
theorem completeBefore (split : nodeShard (parameter g maxDegree medoid) = pre ++ (v,m) :: post) {w : Nat} {p : Fin n}
    (less : w < v) (inside : w ∈ g.ids p) : (w,p) ∈ pre := by
  have member := (nodeShardMem (parameter g maxDegree medoid) w p).mpr inside
  have sorted := nodeShardSorted (parameter g maxDegree medoid)
  rw [split] at member sorted
  have later := (List.pairwise_cons.mp (List.pairwise_append.mp sorted).2.1).1
  rcases List.mem_append.mp member with early | late
  · exact early
  · rcases List.mem_cons.mp late with same | late
    · cases same
      exact absurd less (lt_irrefl _)
    · have le := later (w,p) late
      simp only at le
      omega

theorem earlierLe (split : nodeShard (parameter g maxDegree medoid) = pre ++ (v,m) :: post) {e : Nat × Fin n}
    (inside : e ∈ pre) : e.1 ≤ v := by
  have sorted := nodeShardSorted (parameter g maxDegree medoid)
  rw [split] at sorted
  have le := (List.pairwise_append.mp sorted).2.2 e inside (v,m) List.mem_cons_self
  simp only at le
  omega

end Shards

section Merging

/- The loop after the part `pre` of node_shard: every cursor stands behind the lists of
the ids that were taken, the ids before cur_id are written, and final_ngh has the
neighbours of cur_id that were read. -/
structure Merging (maxDegree : Nat) (first : Nat) (pre : List (Nat × Fin n)) (s : MergeState n) : Prop where
  marked : Marked maxVid s.nghSet s.finalNgh
  cursors : ∀ m, s.pOffset m = (words ((g.nghs m).take (taken pre m))).length
  gathered : ∀ u, u ∈ s.finalNgh ↔ ∃ m, (s.curId,m) ∈ pre ∧ u ∈ adjacency g m s.curId
  latest : ∀ e ∈ pre, e.1 ≤ s.curId
  current : (∃ m, (s.curId,m) ∈ pre) ∨ (pre = [] ∧ s.curId = first)
  size : s.mergedIndexSize = metadataSize + 4 * s.merged.length
  written : ∃ ids records, s.merged = words records ∧ List.Forall₂ (RecordOf g maxDegree) ids records ∧
    ids.Pairwise (· < ·) ∧ ∀ v, v ∈ ids ↔ v < s.curId ∧ ∃ m, (v,m) ∈ pre

variable {g} {pre post : List (Nat × Fin n)} {v : Nat} {m : Fin n} {maxDegree medoid first : Nat} {s : MergeState n}

theorem startMerging (g : Shards n maxVid) (maxDegree medoid first : Nat) :
    Merging g maxDegree first [] (mergeStart (parameter g maxDegree medoid) first) := by
  refine ⟨markedEmpty maxVid,fun m => rfl,fun u => ?_,fun e no => ?_,Or.inr ⟨rfl,rfl⟩,rfl,[],[],rfl,.nil,.nil,fun v => ?_⟩
  · simp [mergeStart]
  · exact absurd no List.not_mem_nil
  · simp

/- With everything of cur_id read, what is written is its record. -/
theorem writeFinalRecord (r : Shuffle) (some' : 0 < maxDegree) (merging : Merging g maxDegree first pre s)
    (complete : ∀ p, s.curId ∈ g.ids p → (s.curId,p) ∈ pre) (known : ∃ p, (s.curId,p) ∈ pre)
    (linked : ∀ p, (s.curId,p) ∈ pre → ∃ u, u ∈ adjacency g p s.curId) :
    ∃ t nghs, writeFinal (parameter g maxDegree medoid) r s = some t ∧ RecordOf g maxDegree s.curId nghs ∧
      t.merged = s.merged ++ words [nghs] ∧ t.mergedIndexSize = metadataSize + 4 * t.merged.length ∧
      t.curId = s.curId ∧ t.pOffset = s.pOffset ∧ t.finalNgh = [] ∧ Marked maxVid t.nghSet [] := by
  have perm := r.perm s.shuffles s.finalNgh
  have union : s.finalNgh.toFinset = neighbours g s.curId := by
    ext u
    rw [List.mem_toFinset,merging.gathered,neighbours,Finset.mem_biUnion]
    constructor
    · rintro ⟨p,_,inside⟩
      exact ⟨p,Finset.mem_univ p,List.mem_toFinset.mpr inside⟩
    · rintro ⟨p,_,inside⟩
      have inside' := List.mem_toFinset.mp inside
      exact ⟨p,complete p (adjacencyShard inside'),inside'⟩
  have count : s.finalNgh.length = (neighbours g s.curId).card := by
    rw [← union,List.toFinset_card_of_nodup merging.marked.nodup]
  have length := perm.length_eq
  have positive : 0 < s.finalNgh.length := by
    obtain ⟨p,inside⟩ := known
    obtain ⟨u,found⟩ := linked p inside
    exact List.length_pos_of_mem ((merging.gathered u).mpr ⟨p,inside,found⟩)
  have cut : ((r.shuffle s.shuffles s.finalNgh).take (min (r.shuffle s.shuffles s.finalNgh).length maxDegree)).length =
      min (r.shuffle s.shuffles s.finalNgh).length maxDegree := by
    rw [List.length_take]
    omega
  refine ⟨_,(r.shuffle s.shuffles s.finalNgh).take (min (r.shuffle s.shuffles s.finalNgh).length maxDegree),
    if_pos (lt_min (by omega) some'),⟨?_,fun u inside => ?_,?_⟩,?_,?_,rfl,rfl,rfl,unmarkAll merging.marked perm⟩
  · exact (perm.nodup_iff.mpr merging.marked.nodup).sublist (List.take_sublist _ _)
  · rw [← union,List.mem_toFinset]
    exact perm.mem_iff.mp (List.mem_of_mem_take inside)
  · rw [cut,length,count]
  · rw [wordsCons,wordsNil,List.append_nil,cut]
    rfl
  · have size := merging.size
    simp only [List.length_append,List.length_cons,parameter,cut]
    omega

/- One list is read, of an array whose words up to its end can be counted in 32 bits: the
cursor of the shard moves behind it. -/
theorem readNghsAt {x : IndexParameter n} {lists : List (List Nat)} {k : Nat} {a : List Nat}
    (array : x.collectedNghs m = words lists) (found : lists[k]? = some a) (linked : a ≠ [])
    (bounded : ∀ u ∈ a, u < maxVid) (fits : (words (lists.take (k + 1))).length < 2 ^ 32)
    (marked : Marked maxVid s.nghSet s.finalNgh) (cursor : s.pOffset m = (words (lists.take k)).length) :
    ∃ t, readNghs x m s = some t ∧ Marked maxVid t.nghSet t.finalNgh ∧
      (∀ u, u ∈ t.finalNgh ↔ u ∈ s.finalNgh ∨ u ∈ a) ∧
      t.pOffset = Function.update s.pOffset m (words (lists.take (k + 1))).length ∧
      t.curId = s.curId ∧ t.merged = s.merged ∧ t.mergedIndexSize = s.mergedIndexSize := by
  have layout := wordsSplit found
  have next := wordsTakeSucc found
  have degree : (words lists)[s.pOffset m]? = some a.length := by
    rw [layout,cursor]
    simp
  have positive : a.length ≠ 0 := fun zero => linked (List.length_eq_zero_iff.mp zero)
  have offset : (s.pOffset m + 1) % 2 ^ 32 = s.pOffset m + 1 := Nat.mod_eq_of_lt (by omega)
  have stop : (s.pOffset m + 1 + a.length) % 2 ^ 32 = s.pOffset m + 1 + a.length := Nat.mod_eq_of_lt (by omega)
  obtain ⟨t,marks,marked',all⟩ := markAll marked bounded
  have loop : (List.range' (s.pOffset m + 1) a.length).foldlM
      (fun t d => (words lists)[d]?.bind (mark t)) (s.nghSet,s.finalNgh) = some t := by
    have reads := foldReads mark (words (lists.take k) ++ [a.length]) a (words (lists.drop (k + 1))) (s.nghSet,s.finalNgh)
    rw [marks] at reads
    have same : words (lists.take k) ++ [a.length] ++ a ++ words (lists.drop (k + 1)) = words lists := by
      rw [layout]
      simp
    rw [same,List.length_append,← cursor] at reads
    exact reads
  refine ⟨{ s with nghSet := t.1, finalNgh := t.2, pOffset := Function.update s.pOffset m (s.pOffset m + 1 + a.length) },
    ?_,marked',all,?_,rfl,rfl,rfl⟩
  · unfold readNghs
    simp only [array,degree,Option.bind_some,if_neg positive,offset,stop,Nat.add_sub_cancel_left,loop,Option.map_some]
  · rw [next,cursor]

theorem readNghsList (split : nodeShard (parameter g maxDegree medoid) = pre ++ (v,m) :: post)
    (marked : Marked maxVid s.nghSet s.finalNgh)
    (cursor : s.pOffset m = (words ((g.nghs m).take (taken pre m))).length) :
    ∃ t, readNghs (parameter g maxDegree medoid) m s = some t ∧ Marked maxVid t.nghSet t.finalNgh ∧
      (∀ u, u ∈ t.finalNgh ↔ u ∈ s.finalNgh ∨ u ∈ adjacency g m v) ∧
      t.pOffset = Function.update s.pOffset m (words ((g.nghs m).take (taken pre m + 1))).length ∧
      t.curId = s.curId ∧ t.merged = s.merged ∧ t.mergedIndexSize = s.mergedIndexSize := by
  obtain ⟨a,found,linked,bounded,members⟩ := nextList split
  have array : (parameter g maxDegree medoid).collectedNghs m = words (g.nghs m) := rfl
  obtain ⟨t,read,marked',all,rest⟩ := readNghsAt array found linked bounded
    (Nat.lt_of_le_of_lt (wordsTakeLe _ _) (g.fits m)) marked cursor
  refine ⟨t,read,marked',fun u => ?_,rest⟩
  rw [all u,members u]

/- The state after a list is read, from what the state before it says about the pairs. -/
theorem readKeeps (split : nodeShard (parameter g maxDegree medoid) = pre ++ (v,m) :: post)
    (here : s.curId = v) (marked : Marked maxVid s.nghSet s.finalNgh)
    (cursors : ∀ p, s.pOffset p = (words ((g.nghs p).take (taken pre p))).length)
    (gathered : ∀ u, u ∈ s.finalNgh ↔ ∃ p, (v,p) ∈ pre ∧ u ∈ adjacency g p v)
    (size : s.mergedIndexSize = metadataSize + 4 * s.merged.length)
    (written : ∃ ids records, s.merged = words records ∧ List.Forall₂ (RecordOf g maxDegree) ids records ∧
      ids.Pairwise (· < ·) ∧ ∀ w, w ∈ ids ↔ w < v ∧ ∃ p, (w,p) ∈ pre) :
    ∃ t, readNghs (parameter g maxDegree medoid) m s = some t ∧ Merging g maxDegree first (pre ++ [(v,m)]) t := by
  obtain ⟨t,read,marked',members,cursors',curId,merged,size'⟩ := readNghsList split marked (cursors m)
  have curId' : t.curId = v := curId.trans here
  refine ⟨t,read,marked',fun p => ?_,fun u => ?_,fun e inside => ?_,Or.inl ⟨m,?_⟩,?_,?_⟩
  · rw [cursors',takenNext]
    rcases eq_or_ne p m with rfl | other
    · rw [Function.update_self,if_pos rfl]
    · rw [Function.update_of_ne other,if_neg other,cursors p]
      rfl
  · rw [members u,gathered u,curId']
    simp only [List.mem_append,List.mem_singleton,Prod.mk.injEq,true_and]
    constructor
    · rintro (⟨p,inside,known⟩ | known)
      · exact ⟨p,Or.inl inside,known⟩
      · exact ⟨m,Or.inr rfl,known⟩
    · rintro ⟨p,inside | rfl,known⟩
      · exact Or.inl ⟨p,inside,known⟩
      · exact Or.inr known
  · rw [curId']
    rcases List.mem_append.mp inside with early | last
    · exact earlierLe split early
    · rw [List.mem_singleton.mp last]
  · rw [curId']
    exact List.mem_append_right pre List.mem_cons_self
  · rw [merged,size',size]
  · obtain ⟨ids,records,layout,all,ascending,known⟩ := written
    refine ⟨ids,records,merged.trans layout,all,ascending,fun w => ?_⟩
    rw [curId',known w]
    refine and_congr_right (fun less => exists_congr (fun p => ?_))
    rw [List.mem_append,List.mem_singleton,or_iff_left]
    intro same
    cases same
    exact absurd less (lt_irrefl _)

theorem adjacencyNonempty (split : ∃ w q post, nodeShard (parameter g maxDegree medoid) = pre ++ (w,q) :: post) {p : Fin n}
    (inside : (v,p) ∈ pre) : ∃ u, u ∈ adjacency g p v := by
  obtain ⟨w,q,post,split⟩ := split
  obtain ⟨early,late,rfl⟩ := List.append_of_mem inside
  rw [List.append_assoc,List.cons_append] at split
  obtain ⟨a,_,linked,_,members⟩ := nextList split
  obtain ⟨u,known⟩ := List.exists_mem_of_ne_nil a linked
  exact ⟨u,(members u).mpr known⟩

theorem mergeOneKeeps (r : Shuffle) (some' : 0 < maxDegree)
    (split : nodeShard (parameter g maxDegree medoid) = pre ++ (v,m) :: post) (head : pre = [] → first = v)
    (merging : Merging g maxDegree first pre s) :
    ∃ t, mergeOne (parameter g maxDegree medoid) r s (v,m) = some t ∧ Merging g maxDegree first (pre ++ [(v,m)]) t := by
  have le : s.curId ≤ v := by
    rcases merging.current with ⟨p,inside⟩ | ⟨none',same⟩
    · exact earlierLe split inside
    · rw [same,head none']
  unfold mergeOne
  simp only
  split
  · rename_i less
    have known : ∃ p, (s.curId,p) ∈ pre := by
      rcases merging.current with known | ⟨none',same⟩
      · exact known
      · rw [same,head none'] at less
        exact absurd less (lt_irrefl v)
    obtain ⟨t,nghs,write,record,merged,size,curId,cursors,empty,marked⟩ := @writeFinalRecord n maxVid g pre maxDegree medoid
      first s r some' merging (fun p inside => completeBefore split less inside) known
      (fun p inside => adjacencyNonempty ⟨v,m,post,split⟩ inside)
    rw [write,Option.bind_some]
    have later : ∀ p, (v,p) ∉ pre := fun p inside => by
      have below := merging.latest (v,p) inside
      simp only at below
      omega
    refine readKeeps split rfl (by rw [empty]; exact marked) (fun p => ?_) (fun u => ?_) size ?_
    · simp only [cursors]
      exact merging.cursors p
    · simp only [empty,List.not_mem_nil,false_iff]
      rintro ⟨p,inside,_⟩
      exact later p inside
    · obtain ⟨ids,records,layout,all,ascending,members⟩ := merging.written
      refine ⟨ids ++ [s.curId],records ++ [nghs],?_,List.rel_append all (.cons record .nil),?_,fun w => ?_⟩
      · simp only [merged,layout,wordsAppend]
      · refine List.pairwise_append.mpr ⟨ascending,List.pairwise_singleton _ _,fun a inside b last => ?_⟩
        rw [List.mem_singleton.mp last]
        exact ((members a).mp inside).1
      · rw [List.mem_append,List.mem_singleton,members w]
        constructor
        · rintro (⟨below,p,inside⟩ | rfl)
          · exact ⟨below.trans less,p,inside⟩
          · exact ⟨less,known⟩
        · rintro ⟨_,p,inside⟩
          have below := merging.latest (w,p) inside
          rcases Nat.lt_or_eq_of_le below with strictly | same
          · exact Or.inl ⟨strictly,p,inside⟩
          · exact Or.inr same
  · rename_i not
    have here : s.curId = v := by omega
    refine readKeeps split here merging.marked merging.cursors (fun u => ?_) merging.size ?_
    · rw [merging.gathered u,here]
    · have written := merging.written
      rwa [here] at written

theorem mergeLoopKeeps (r : Shuffle) (some' : 0 < maxDegree) {head : Nat × Fin n}
    (first : (nodeShard (parameter g maxDegree medoid)).head? = some head)
    (split : nodeShard (parameter g maxDegree medoid) = pre ++ post) :
    ∃ t, mergeLoop (parameter g maxDegree medoid) r pre = some t ∧ Merging g maxDegree head.1 pre t := by
  unfold mergeLoop
  rw [first,Option.bind_some]
  -- along node_shard: what the loop did so far is the state before the next pair
  induction pre using List.reverseRecOn generalizing post with
  | nil => exact ⟨_,rfl,startMerging g maxDegree medoid head.1⟩
  | append_singleton pre e ih =>
    obtain ⟨v,m⟩ := e
    rw [List.append_assoc,List.singleton_append] at split
    obtain ⟨s,loop,merging⟩ := ih split
    have start : pre = [] → head.1 = v := by
      intro none'
      rw [split,none',List.nil_append,List.head?_cons] at first
      cases first
      rfl
    obtain ⟨t,one,next⟩ := mergeOneKeeps r some' split start merging
    refine ⟨t,?_,next⟩
    simp only [List.foldlM_append,loop,List.foldlM_cons,List.foldlM_nil,Option.bind_eq_bind,Option.bind_some,one]
    rfl

theorem takenIds (split : nodeShard (parameter g maxDegree medoid) = pre ++ post) (m : Fin n) :
    (pre.filter (fun e => e.2 = m)).map Prod.fst = (g.ids m).take (taken pre m) := by
  have whole := @nodeShardShard n (parameter g maxDegree medoid) m (g.ascending m)
  have ids : (parameter g maxDegree medoid).collectedIds m = g.ids m := rfl
  rw [split,List.filter_append,List.map_append,ids] at whole
  rw [← whole,taken,List.take_left' (List.length_map _)]

theorem takenAll (g : Shards n maxVid) (maxDegree medoid : Nat) (m : Fin n) :
    taken (nodeShard (parameter g maxDegree medoid)) m = (g.nghs m).length := by
  have whole := congrArg List.length (@nodeShardShard n (parameter g maxDegree medoid) m (g.ascending m))
  rw [List.length_map] at whole
  exact whole.trans (g.aligned m)

theorem nodeShardHead (g : Shards n maxVid) (maxDegree medoid : Nat) :
    ∃ head, (nodeShard (parameter g maxDegree medoid)).head? = some head := by
  obtain ⟨m,some'⟩ := g.inhabited
  obtain ⟨v,inside⟩ := List.exists_mem_of_ne_nil _ some'
  have member := (nodeShardMem (parameter g maxDegree medoid) v m).mpr inside
  exact ⟨_,List.head?_eq_some_head (List.ne_nil_of_mem member)⟩

/- The last write completes the records. -/
theorem lastRecord (r : Shuffle) (some' : 0 < maxDegree)
    (merging : Merging g maxDegree first (nodeShard (parameter g maxDegree medoid)) s) :
    ∃ t records, writeFinal (parameter g maxDegree medoid) r s = some t ∧ t.merged = words records ∧
      List.Forall₂ (RecordOf g maxDegree) ((vertices g).sort (· ≤ ·)) records ∧
      t.mergedIndexSize = metadataSize + 4 * t.merged.length ∧ t.pOffset = s.pOffset := by
  have members := nodeShardMem (parameter g maxDegree medoid)
  have known : ∃ p, (s.curId,p) ∈ nodeShard (parameter g maxDegree medoid) := by
    rcases merging.current with known | ⟨none',_⟩
    · exact known
    · obtain ⟨head,found⟩ := nodeShardHead g maxDegree medoid
      rw [none'] at found
      cases found
  have linked : ∀ p, (s.curId,p) ∈ nodeShard (parameter g maxDegree medoid) → ∃ u, u ∈ adjacency g p s.curId := by
    intro p inside
    obtain ⟨early,late,split⟩ := List.append_of_mem inside
    obtain ⟨a,_,nonempty,_,all⟩ := nextList split
    obtain ⟨u,inA⟩ := List.exists_mem_of_ne_nil a nonempty
    exact ⟨u,(all u).mpr inA⟩
  obtain ⟨t,nghs,write,record,merged,size,_,cursors,_⟩ := @writeFinalRecord n maxVid g _ maxDegree medoid first s r
    some' merging (fun p inside => (members s.curId p).mpr inside) known linked
  obtain ⟨ids,records,layout,all,ascending,before'⟩ := merging.written
  refine ⟨t,records ++ [nghs],write,?_,?_,size,cursors⟩
  · rw [merged,layout,wordsAppend]
  · have order : (ids ++ [s.curId]).Pairwise (· < ·) := by
      refine List.pairwise_append.mpr ⟨ascending,List.pairwise_singleton _ _,fun a inside b last => ?_⟩
      rw [List.mem_singleton.mp last]
      exact ((before' a).mp inside).1
    have same : (vertices g).sort (· ≤ ·) = ids ++ [s.curId] := by
      refine (Finset.sortedLT_sort _).pairwise.eq_of_mem_iff order (fun v => ?_)
      have inside : v ∈ vertices g ↔ ∃ p, (v,p) ∈ nodeShard (parameter g maxDegree medoid) := by
        simp only [vertices,Finset.mem_biUnion,Finset.mem_univ,true_and,List.mem_toFinset,members]
        rfl
      rw [Finset.mem_sort,inside,List.mem_append,List.mem_singleton,before' v]
      constructor
      · rintro ⟨p,found⟩
        rcases Nat.lt_or_eq_of_le (merging.latest (v,p) found) with less | last
        · exact Or.inl ⟨less,p,found⟩
        · exact Or.inr last
      · rintro (⟨_,found⟩ | rfl)
        · exact found
        · exact known
    rw [same]
    exact List.rel_append all (.cons record .nil)

end Merging

section Result

theorem mergedRecords (r : Shuffle) (g : Shards n maxVid) (maxDegree medoid : Nat) (some' : 0 < maxDegree) :
    ∃ s records, mergeReplicaPartition (parameter g maxDegree medoid) r =
        some (⟨metadataSize + 4 * (words records).length,maxDegree,medoid,0,words records⟩,s) ∧
      List.Forall₂ (RecordOf g maxDegree) ((vertices g).sort (· ≤ ·)) records ∧
      ∀ m, s.pOffset m = (words (g.nghs m)).length := by
  obtain ⟨head,first⟩ := nodeShardHead g maxDegree medoid
  obtain ⟨s,loop,merging⟩ := mergeLoopKeeps r some' first (List.append_nil _).symm
  obtain ⟨t,records,write,layout,all,size,cursors⟩ := lastRecord r some' merging
  refine ⟨t,records,?_,all,fun m => ?_⟩
  · rw [mergeReplicaPartition,loop,Option.bind_some,write,Option.map_some,← layout,size]
    rfl
  · rw [cursors,merging.cursors m,takenAll,List.take_length]

theorem replicaMerge (r : Shuffle) (g : Shards n maxVid) (maxDegree medoid : Nat) (some' : 0 < maxDegree) :
    ∃ file s records, mergeReplicaPartition (parameter g maxDegree medoid) r = some (file,s) ∧
      file = ⟨metadataSize + 4 * (words records).length,maxDegree,medoid,0,words records⟩ ∧
      List.Forall₂ (RecordOf g maxDegree) ((vertices g).sort (· ≤ ·)) records ∧
      (∀ m, s.pOffset m = (words (g.nghs m)).length) ∧
      ∀ pre post, nodeShard (parameter g maxDegree medoid) = pre ++ post →
        ∃ t, mergeLoop (parameter g maxDegree medoid) r pre = some t ∧ ∀ m,
          (pre.filter (fun e => e.2 = m)).map Prod.fst = (g.ids m).take (taken pre m) ∧
          t.pOffset m = (words ((g.nghs m).take (taken pre m))).length := by
  obtain ⟨head,first⟩ := nodeShardHead g maxDegree medoid
  obtain ⟨s,records,merge,all,cursors⟩ := mergedRecords r g maxDegree medoid some'
  refine ⟨_,s,records,merge,rfl,all,cursors,fun pre post split => ?_⟩
  obtain ⟨t,loop,merging⟩ := mergeLoopKeeps r some' first split
  exact ⟨t,loop,fun m => ⟨takenIds split m,merging.cursors m⟩⟩

def twoShards : Shards 2 4 where
  ids := fun m => if m = 0 then [0,2] else [0,3]
  nghs := fun m => if m = 0 then [[2,1],[0]] else [[1,3],[3,0]]
  aligned := by decide
  ascending := by decide
  inhabited := by decide
  linked := by decide
  bounded := by decide
  fits := by decide

def keepOrder : Shuffle := ⟨fun _ xs => xs,fun _ _ => List.Perm.refl _⟩

theorem replicaMergeTwo : 0 < 2 ∧ (vertices twoShards).sort (· ≤ ·) = [0,2,3] ∧
    ∃ file s records, mergeReplicaPartition (parameter twoShards 2 0) keepOrder = some (file,s) ∧
      file.nghs = words records ∧ List.Forall₂ (RecordOf twoShards 2) [0,2,3] records := by
  have known : vertices twoShards = [0,2,3].toFinset := by decide
  have ids : (vertices twoShards).sort (· ≤ ·) = [0,2,3] := by
    refine (Finset.sortedLT_sort _).pairwise.eq_of_mem_iff (by decide) (fun v => ?_)
    rw [Finset.mem_sort,known,List.mem_toFinset]
  obtain ⟨file,s,records,merge,shape,all,_⟩ := replicaMerge keepOrder twoShards 2 0 (by decide)
  rw [ids] at all
  exact ⟨by decide,ids,file,s,records,merge,by rw [shape],all⟩

end Result

end CoTra.ReplicaMerge
