import CoTra.CachedStreams
import CoTra.ReplicaMerge

/-! The merge on a single machine (disk_utils.cc: read_idmap, merge_shards), which the
build keeps to verify the distributed merge. Files and caches are of 32-bit words, and a
number of 64 bits is two of them. The shards' neighbours are places in the shard, and are
renamed by its id map. `none` is an abort, an exception or a read outside an array. -/
namespace CoTra.MergeShards
open CachedStreams AdjacencyWords
open ReplicaMerge (Shuffle Shards before)

variable {n : Nat}

-- A loop over the shards that reads or looks up one thing of each.
def eachShard {β : Type} (f : Fin n → Option β) : Option (Fin n → β) :=
  if all : ∀ m, (f m).isSome then some (fun m => (f m).get (all m)) else none

def readIdmap : List Nat → Option (List Nat)
  | npts32 :: dim :: ivecs =>
    if dim ≠ 1 ∨ (npts32 :: dim :: ivecs).length * 4 ≠ npts32 * 4 + 2 * 4 then none else some (ivecs.take npts32)
  | _ => none

def readWord (s : Reader Nat) : Option (Nat × Reader Nat) :=
  (read s 1).bind (fun t => t.1.head?.map (fun word => (word,t.2)))

def sizeWords (size : Nat) : List Nat := [size % 2 ^ 32,size / 2 ^ 32 % 2 ^ 32]

structure State (n : Nat) where
  curId : Nat
  nhoodSet : List Bool
  finalNhood : List Nat
  readers : Fin n → Reader Nat
  shuffles : Nat
  writer : Writer Nat
  mergedIndexSize : Nat

variable (r : Shuffle) (maxDegree : Nat) (idmaps : Fin n → List Nat)

def nnodes : Nat := (List.finRange n).foldl (fun most m => (idmaps m).foldl max most) 0 + 1

def nodeShard : List (Nat × Fin n) :=
  ((List.finRange n).flatMap (fun m => (idmaps m).map (fun id => (id,m)))).mergeSort
    (fun left right => !before right left)

/- The neighbours of cur_id are shuffled, cut to max_degree and written. -/
def writeFinal (s : State n) : State n :=
  let finalNhood := r.shuffle s.shuffles s.finalNhood
  let nnbrs := min finalNhood.length maxDegree
  { s with
    writer := write (write s.writer [nnbrs]) (finalNhood.take nnbrs)
    mergedIndexSize := s.mergedIndexSize + (4 + nnbrs * 4)
    nhoodSet := unmark s.nhoodSet finalNhood
    finalNhood := []
    shuffles := s.shuffles + 1 }

-- The last list is written only if it has a neighbour.
def writeLast (s : State n) : State n :=
  let finalNhood := r.shuffle s.shuffles s.finalNhood
  let nnbrs := min finalNhood.length maxDegree
  { s with
    writer := if 0 < nnbrs then write (write s.writer [nnbrs]) (finalNhood.take nnbrs) else write s.writer [nnbrs]
    mergedIndexSize := s.mergedIndexSize + (4 + nnbrs * 4)
    nhoodSet := unmark s.nhoodSet finalNhood
    finalNhood := []
    shuffles := s.shuffles + 1 }

/- One list of the shard, renamed. -/
def readNhood (shard : Fin n) (s : State n) : Option (State n) :=
  (readWord (s.readers shard)).bind (fun (shardNnbrs,reader) =>
    if shardNnbrs = 0 then none
    else (read reader shardNnbrs).bind (fun (shardNhood,reader) =>
      (shardNhood.foldlM (fun t j => (idmaps shard)[j]?.bind (mark t)) (s.nhoodSet,s.finalNhood)).map
        (fun t => { s with nhoodSet := t.1, finalNhood := t.2, readers := Function.update s.readers shard reader })))

def mergeOne (s : State n) (idShard : Nat × Fin n) : Option (State n) :=
  if s.curId < idShard.1 then readNhood idmaps idShard.2 { writeFinal r maxDegree s with curId := idShard.1 }
  else readNhood idmaps idShard.2 s

/- What is written before the loop. Only the last shard's medoid is. -/
def header (cacheSize : Nat) (medoids : Fin n → Nat) : Writer Nat :=
  let start := write (write (openWriter cacheSize) (sizeWords 24)) [maxDegree]
  write ((List.finRange n).foldl (fun w m => if m.val + 1 = n then write w [medoids m] else w) start) (sizeWords 0)

def mergeShards (cacheSize : Nat) (vamana idmap : Fin n → List Nat) : Option (List Nat × List Nat) :=
  (eachShard (fun m => readIdmap (idmap m))).bind (fun idmaps =>
  (eachShard (fun m => read (openReader (vamana m) cacheSize) 2)).bind (fun expectedSize =>
  (eachShard (fun m => readWord (expectedSize m).2)).bind (fun inputWidth =>
  (eachShard (fun m => readWord (inputWidth m).2)).bind (fun medoid =>
  (eachShard (fun m => read (medoid m).2 2)).bind (fun frozen =>
  (eachShard (fun m => (idmaps m)[(medoid m).1]?)).bind (fun medoids =>
  ((nodeShard idmaps).foldlM (mergeOne r maxDegree idmaps)
    ⟨0,List.replicate (nnodes idmaps) false,[],fun m => (frozen m).2,0,header maxDegree cacheSize medoids,24⟩).map
    (fun s =>
      let last := writeLast r maxDegree s
      ((close (write (reset last.writer) (sizeWords last.mergedIndexSize))).file,
        n :: 1 :: (List.finRange n).map medoids))))))))

/- The shards as their builds leave them: ids ascending, and with every id the places of its
neighbours in the shard. `fits` is asked of the distributed merge only. -/
structure ShardFiles (n : Nat) where
  ids : Fin n → List Nat
  nghs : Fin n → List (List Nat)
  medoid : Fin n → Nat
  width : Fin n → Nat
  shards : 0 < n
  aligned : ∀ m, (ids m).length = (nghs m).length
  ascending : ∀ m, (ids m).Pairwise (· < ·)
  linked : ∀ m, ∀ a ∈ nghs m, a ≠ []
  inside : ∀ m, ∀ a ∈ nghs m, ∀ j ∈ a, j < (ids m).length
  entry : ∀ m, medoid m < (ids m).length
  fits : ∀ m, (words (nghs m)).length < 2 ^ 32

section Files

variable (g : ShardFiles n)

def idmapFile (m : Fin n) : List Nat := (g.ids m).length :: 1 :: g.ids m

def vamanaFile (m : Fin n) : List Nat :=
  sizeWords (24 + 4 * (words (g.nghs m)).length) ++ ([g.width m] ++ ([g.medoid m] ++ (sizeWords 0 ++ words (g.nghs m))))

-- The id of a place in shard m.
def idAt (m : Fin n) (j : Nat) : Nat := (g.ids m).getD j 0

variable {g} {m : Fin n}

theorem idAtSome {j : Nat} (inside : j < (g.ids m).length) : (g.ids m)[j]? = some (idAt g m j) := by
  rw [idAt,List.getD_eq_getElem?_getD,List.getElem?_eq_getElem inside,Option.getD_some]

theorem foldlMaxLe {ids : List Nat} {most v : Nat} (known : v ≤ most ∨ v ∈ ids) : v ≤ ids.foldl max most := by
  induction ids generalizing most with
  | nil => exact known.resolve_right List.not_mem_nil
  | cons id rest ih =>
    refine ih ?_
    rcases known with less | inside
    · exact Or.inl (less.trans (Nat.le_max_left _ _))
    · rcases List.mem_cons.mp inside with rfl | later
      · exact Or.inl (Nat.le_max_right _ _)
      · exact Or.inr later

theorem idBelow {idmaps : Fin n → List Nat} {v : Nat} (inside : v ∈ idmaps m) : v < nnodes idmaps := by
  suffices all : ∀ (ms : List (Fin n)) (most : Nat), v ≤ most ∨ m ∈ ms →
      v ≤ ms.foldl (fun most m => (idmaps m).foldl max most) most from
    Nat.lt_succ_of_le (all _ 0 (Or.inr (List.mem_finRange m)))
  intro ms
  induction ms with
  | nil => exact fun most known => known.resolve_right List.not_mem_nil
  | cons p rest ih =>
    intro most known
    refine ih _ ?_
    rcases known with less | here
    · exact Or.inl (foldlMaxLe (Or.inl less))
    · rcases List.mem_cons.mp here with rfl | later
      · exact Or.inl (foldlMaxLe (Or.inr inside))
      · exact Or.inr later

theorem idAtBelow {j : Nat} (inside : j < (g.ids m).length) : idAt g m j < nnodes g.ids :=
  idBelow (List.mem_of_getElem? (idAtSome inside))

theorem wordsRenamed (f : Nat → Nat) (lists : List (List Nat)) :
    (words (lists.map (List.map f))).length = (words lists).length := by
  induction lists with
  | nil => rfl
  | cons a rest ih =>
    rw [List.map_cons,wordsCons,wordsCons,List.length_cons,List.length_cons,List.length_append,List.length_append,
      List.length_map,ih]

variable (g)

def collectedNghs (m : Fin n) : List (List Nat) := (g.nghs m).map (List.map (idAt g m))

theorem collectedAligned (m : Fin n) : (g.ids m).length = (collectedNghs g m).length :=
  (g.aligned m).trans (List.length_map _).symm

theorem collectedInhabited : ∃ m, g.ids m ≠ [] :=
  ⟨⟨0,g.shards⟩,List.ne_nil_of_length_pos (Nat.zero_lt_of_lt (g.entry _))⟩

theorem collectedLinked (m : Fin n) : ∀ a ∈ collectedNghs g m, a ≠ [] := by
  intro a inside
  obtain ⟨b,member,rfl⟩ := List.mem_map.mp inside
  exact fun none' => g.linked m b member (List.map_eq_nil_iff.mp none')

theorem collectedBounded (m : Fin n) : ∀ a ∈ collectedNghs g m, ∀ u ∈ a, u < nnodes g.ids := by
  intro a inside u known
  obtain ⟨b,member,rfl⟩ := List.mem_map.mp inside
  obtain ⟨j,place,rfl⟩ := List.mem_map.mp known
  exact idAtBelow (g.inside m b member j place)

theorem collectedFits (m : Fin n) : (words (collectedNghs g m)).length < 2 ^ 32 := by
  rw [collectedNghs,wordsRenamed]
  exact g.fits m

/- The shards as the machines collect them, with the neighbours' ids. -/
def collected : Shards n (nnodes g.ids) :=
  ⟨g.ids,collectedNghs g,collectedAligned g,g.ascending,collectedInhabited g,collectedLinked g,collectedBounded g,
    collectedFits g⟩

end Files

section Reading

theorem eachShardSome {β : Type} {f : Fin n → Option β} {values : Fin n → β} (all : ∀ m, f m = some (values m)) :
    eachShard f = some values := by
  unfold eachShard
  rw [dif_pos (fun m => by rw [all m]; rfl)]
  refine congrArg some (funext (fun m => ?_))
  simp only [all m,Option.get_some]

theorem readWordAhead {s : Reader Nat} {word : Nat} {rest : List Nat} (filled : Filled s) (front : ahead s = word :: rest) :
    ∃ t, readWord s = some (word,t) ∧ Filled t ∧ ahead t = rest := by
  obtain ⟨t,one,filled',rest'⟩ := @readPart Nat s [word] rest filled front
  refine ⟨t,?_,filled',rest'⟩
  have one' : read s 1 = some ([word],t) := one
  rw [readWord,one']
  rfl

theorem readIdmapFile (g : ShardFiles n) (m : Fin n) : readIdmap (idmapFile g m) = some (g.ids m) := by
  have whole : ¬(1 ≠ 1 ∨ ((g.ids m).length :: 1 :: g.ids m).length * 4 ≠ (g.ids m).length * 4 + 2 * 4) := by
    simp only [List.length_cons]
    omega
  rw [idmapFile,readIdmap,if_neg whole,List.take_length]

theorem markRenamed {g : ShardFiles n} {m : Fin n} {a : List Nat} (inside : ∀ j ∈ a, j < (g.ids m).length)
    (s : List Bool × List Nat) :
    a.foldlM (fun t j => (g.ids m)[j]?.bind (mark t)) s = (a.map (idAt g m)).foldlM mark s := by
  induction a generalizing s with
  | nil => rfl
  | cons j rest ih =>
    rw [List.map_cons,List.foldlM_cons,List.foldlM_cons,idAtSome (inside j List.mem_cons_self),Option.bind_some]
    exact congrArg (mark s (idAt g m j)).bind (funext (ih (fun i later => inside i (List.mem_cons_of_mem j later))))

variable {x : ReplicaMerge.IndexParameter n} {t : ReplicaMerge.MergeState n} {m : Fin n}

/- What the distributed merge makes of one list, as a fold over the list. -/
theorem readNghsEq {lists : List (List Nat)} {k : Nat} {a : List Nat} (array : x.collectedNghs m = words lists)
    (found : lists[k]? = some a) (linked : a ≠ []) (fits : (words lists).length < 2 ^ 32)
    (cursor : t.pOffset m = (words (lists.take k)).length) :
    ReplicaMerge.readNghs x m t = (a.foldlM mark (t.nghSet,t.finalNgh)).map (fun u =>
      { t with nghSet := u.1, finalNgh := u.2, pOffset := Function.update t.pOffset m (t.pOffset m + 1 + a.length) }) := by
  have layout := wordsSplit found
  have next := wordsTakeSucc found
  have most := wordsTakeLe lists (k + 1)
  have degree : (words lists)[t.pOffset m]? = some a.length := by
    rw [layout,cursor]
    simp
  have positive : a.length ≠ 0 := fun zero => linked (List.length_eq_zero_iff.mp zero)
  have offset : (t.pOffset m + 1) % 2 ^ 32 = t.pOffset m + 1 := Nat.mod_eq_of_lt (by omega)
  have stop : (t.pOffset m + 1 + a.length) % 2 ^ 32 = t.pOffset m + 1 + a.length := Nat.mod_eq_of_lt (by omega)
  have loop : (List.range' (t.pOffset m + 1) a.length).foldlM
      (fun u d => (words lists)[d]?.bind (mark u)) (t.nghSet,t.finalNgh) = a.foldlM mark (t.nghSet,t.finalNgh) := by
    have reads := foldReads mark (words (lists.take k) ++ [a.length]) a (words (lists.drop (k + 1))) (t.nghSet,t.finalNgh)
    have same : words (lists.take k) ++ [a.length] ++ a ++ words (lists.drop (k + 1)) = words lists := by
      rw [layout]
      simp
    rw [same,List.length_append,← cursor] at reads
    exact reads
  unfold ReplicaMerge.readNghs
  simp only [array,degree,Option.bind_some,if_neg positive,offset,stop,Nat.add_sub_cancel_left,loop]

end Reading

section Simulation

open ReplicaMerge (taken parameter MergeState Merging)

def later (r : Shuffle) (k : Nat) : Shuffle := ⟨fun i => r.shuffle (i + k),fun i => r.perm (i + k)⟩

/- The two merges after the part `pre` of node_shard. The single machine has written `front` before what
both have written, and has shuffled k times more. -/
structure Same (g : ShardFiles n) (front : List Nat) (k : Nat) (pre : List (Nat × Fin n)) (s : State n) (t : MergeState n) :
    Prop where
  curId : s.curId = t.curId
  nhoodSet : s.nhoodSet = t.nghSet
  finalNhood : s.finalNhood = t.finalNgh
  shuffles : s.shuffles = t.shuffles + k
  readers : ∀ m, Filled (s.readers m) ∧ ahead (s.readers m) = words ((g.nghs m).drop (taken pre m))
  writer : Holds s.writer (front ++ t.merged)
  size : s.mergedIndexSize = 4 * (front ++ t.merged).length

variable {g : ShardFiles n} {r : Shuffle} {front : List Nat} {k maxDegree medoid : Nat} {pre post : List (Nat × Fin n)}
  {s : State n} {t u : MergeState n} {v : Nat} {m : Fin n}

theorem writeFinalSame (same : Same g front k pre s t)
    (write' : ReplicaMerge.writeFinal (parameter (collected g) maxDegree medoid) (later r k) t = some u) :
    Same g front k pre (writeFinal r maxDegree s) u := by
  unfold ReplicaMerge.writeFinal at write'
  simp only at write'
  split at write'
  · cases write'
    have drawn : r.shuffle s.shuffles s.finalNhood = (later r k).shuffle t.shuffles t.finalNgh := by
      rw [same.shuffles,same.finalNhood]
      rfl
    have written := writeHolds (writeHolds same.writer
      [min ((later r k).shuffle t.shuffles t.finalNgh).length maxDegree])
      (((later r k).shuffle t.shuffles t.finalNgh).take (min ((later r k).shuffle t.shuffles t.finalNgh).length maxDegree))
    have size := same.size
    refine ⟨same.curId,?_,rfl,?_,same.readers,?_,?_⟩
    · simp only [writeFinal,drawn,same.nhoodSet]
    · simp only [writeFinal,same.shuffles]
      omega
    · simp only [List.append_assoc,List.singleton_append] at written
      simp only [writeFinal,drawn]
      exact written
    · simp only [writeFinal,drawn,size,List.length_append,List.length_cons,List.length_take,parameter]
      omega
  · cases write'

theorem readNhoodSame (split : nodeShard g.ids = pre ++ (v,m) :: post) (same : Same g front k pre s t)
    (cursor : t.pOffset m = (words ((collectedNghs g m).take (taken pre m))).length)
    (read' : ReplicaMerge.readNghs (parameter (collected g) maxDegree medoid) m t = some u) :
    ∃ s', readNhood g.ids m s = some s' ∧ Same g front k (pre ++ [(v,m)]) s' u := by
  have id : (g.ids m)[taken pre m]? = some v :=
    @ReplicaMerge.nextId n _ (collected g) pre post v m maxDegree medoid split
  obtain ⟨bound,_⟩ := List.getElem?_eq_some_iff.mp id
  rw [g.aligned m] at bound
  have local' := List.getElem?_eq_getElem bound
  have member := List.getElem_mem bound
  have listed := List.drop_eq_getElem_cons bound
  revert local' member listed
  generalize (g.nghs m)[taken pre m] = a
  intro local' member listed
  have found : (collectedNghs g m)[taken pre m]? = some (a.map (idAt g m)) := by
    rw [collectedNghs,List.getElem?_map,local',Option.map_some]
  have linked : a.map (idAt g m) ≠ [] := fun none' => g.linked m a member (List.map_eq_nil_iff.mp none')
  rw [readNghsEq rfl found linked (collectedFits g m) cursor] at read'
  obtain ⟨kept,marks,rfl⟩ := Option.map_eq_some_iff.mp read'
  -- the reader takes the length and the list
  have front' := (same.readers m).2
  rw [listed,wordsCons] at front'
  obtain ⟨reader,one,filled,rest⟩ := readWordAhead (same.readers m).1 front'
  obtain ⟨reader',all,filled',rest'⟩ := readPart filled rest
  have positive : a.length ≠ 0 := fun zero => g.linked m a member (List.length_eq_zero_iff.mp zero)
  have renames : a.foldlM (fun t j => (g.ids m)[j]?.bind (mark t)) (s.nhoodSet,s.finalNhood) = some kept := by
    rw [same.nhoodSet,same.finalNhood,← marks]
    exact markRenamed (g.inside m a member) _
  refine ⟨{ s with nhoodSet := kept.1, finalNhood := kept.2, readers := Function.update s.readers m reader' },?_,
    same.curId,rfl,rfl,same.shuffles,fun p => ?_,same.writer,same.size⟩
  · rw [readNhood,one]
    simp only [Option.bind_some,if_neg positive,all,renames,Option.map_some]
  · rw [ReplicaMerge.takenNext]
    rcases eq_or_ne p m with rfl | other
    · rw [if_pos rfl]
      simp only [Function.update_self]
      exact ⟨filled',rest'⟩
    · rw [if_neg other,Nat.add_zero]
      simp only [Function.update_of_ne other]
      exact same.readers p

theorem mergeOneSame (split : nodeShard g.ids = pre ++ (v,m) :: post) (same : Same g front k pre s t)
    (cursors : ∀ p, t.pOffset p = (words ((collectedNghs g p).take (taken pre p))).length)
    (one : ReplicaMerge.mergeOne (parameter (collected g) maxDegree medoid) (later r k) t (v,m) = some u) :
    ∃ s', mergeOne r maxDegree g.ids s (v,m) = some s' ∧ Same g front k (pre ++ [(v,m)]) s' u := by
  unfold ReplicaMerge.mergeOne at one
  unfold mergeOne
  simp only [same.curId] at one ⊢
  split at one
  · rename_i less
    rw [if_pos less]
    obtain ⟨w,write',read'⟩ := Option.bind_eq_some_iff.mp one
    have same' := writeFinalSame same write'
    have kept : w.pOffset = t.pOffset := by
      unfold ReplicaMerge.writeFinal at write'
      simp only at write'
      split at write' <;> cases write'
      rfl
    refine readNhoodSame (t := { w with curId := v }) split
      ⟨rfl,same'.nhoodSet,same'.finalNhood,same'.shuffles,same'.readers,same'.writer,same'.size⟩ ?_ read'
    exact (congrFun kept m).trans (cursors m)
  · rename_i not
    rw [if_neg not]
    exact readNhoodSame split same (cursors m) one

theorem loopSame (some' : 0 < maxDegree) {first : Nat × Fin n} (head : (nodeShard g.ids).head? = some first)
    (split : nodeShard g.ids = pre ++ post)
    (start : Same g front k [] s (ReplicaMerge.mergeStart (parameter (collected g) maxDegree medoid) first.1)) :
    ∃ s' t, pre.foldlM (mergeOne r maxDegree g.ids) s = some s' ∧
      ReplicaMerge.mergeLoop (parameter (collected g) maxDegree medoid) (later r k) pre = some t ∧
      Merging (collected g) maxDegree first.1 pre t ∧ Same g front k pre s' t := by
  have head' : (ReplicaMerge.nodeShard (parameter (collected g) maxDegree medoid)).head? = some first := head
  -- along node_shard: both merges take the next pair from states that are the same
  induction pre using List.reverseRecOn generalizing post with
  | nil =>
    refine ⟨s,_,rfl,?_,ReplicaMerge.startMerging (collected g) maxDegree medoid first.1,start⟩
    rw [ReplicaMerge.mergeLoop,head',Option.bind_some]
    rfl
  | append_singleton pre e ih =>
    obtain ⟨v,m⟩ := e
    rw [List.append_assoc,List.singleton_append] at split
    obtain ⟨s',t,loop,loop',merging,same⟩ := ih split
    have start' : pre = [] → first.1 = v := by
      intro none'
      rw [split,none',List.nil_append,List.head?_cons] at head
      cases head
      rfl
    obtain ⟨u,one,next⟩ := @ReplicaMerge.mergeOneKeeps n _ (collected g) pre post v m maxDegree medoid first.1 t (later r k)
      some' split start' merging
    obtain ⟨w,one',same'⟩ := mergeOneSame split same merging.cursors one
    refine ⟨w,u,?_,?_,next,same'⟩
    · rw [List.foldlM_append,loop]
      exact (bind_pure _).trans one'
    · rw [ReplicaMerge.mergeLoop,head',Option.bind_some] at loop' ⊢
      rw [List.foldlM_append,loop']
      exact (bind_pure _).trans one

end Simulation

section Ends

open ReplicaMerge (parameter vertices RecordOf)

theorem lastInside (g : ShardFiles n) : n - 1 < n := Nat.sub_lt g.shards Nat.one_pos

variable (g : ShardFiles n)

def headerWords (maxDegree size : Nat) : List Nat :=
  sizeWords size ++ ([maxDegree] ++ ([idAt g ⟨n - 1,lastInside g⟩ (g.medoid ⟨n - 1,lastInside g⟩)] ++ sizeWords 0))

-- The list that is written for node 0 where no shard has it.
def skipped : Nat := if 0 ∈ vertices (collected g) then 0 else 1

-- The nodes whose lists are in the file of the single machine.
def recorded : List Nat :=
  if 0 ∈ vertices (collected g) then (vertices (collected g)).sort (· ≤ ·)
  else 0 :: (vertices (collected g)).sort (· ≤ ·)

variable {g} {r : Shuffle} {maxDegree medoid cacheSize : Nat}

theorem writeLastSame (r : Shuffle) (maxDegree : Nat) (s : State n) : writeLast r maxDegree s = writeFinal r maxDegree s := by
  unfold writeLast writeFinal
  simp only
  split
  · rfl
  · rename_i none'
    rw [Nat.eq_zero_of_not_pos none',List.take_zero,writeNothing]

theorem lastOnly {β : Type} (step : β → Fin n → β) (w : β) (inside : n - 1 < n) :
    (List.finRange n).foldl (fun w m => if m.val + 1 = n then step w m else w) w = step w ⟨n - 1,inside⟩ := by
  cases n with
  | zero => exact absurd inside (Nat.not_lt_zero _)
  | succ k =>
    have others : ∀ ms : List (Fin k), (ms.map Fin.castSucc).foldl
        (fun w m => if m.val + 1 = k + 1 then step w m else w) w = w := by
      intro ms
      induction ms with
      | nil => rfl
      | cons m rest ih =>
        have less : ¬m.castSucc.val + 1 = k + 1 := by
          rw [Fin.val_castSucc]
          omega
        rw [List.map_cons,List.foldl_cons,if_neg less]
        exact ih
    rw [List.finRange_succ_last,List.foldl_append,others]
    exact if_pos rfl

theorem headerHolds (g : ShardFiles n) (maxDegree cacheSize : Nat) :
    Holds (header maxDegree cacheSize (fun m => idAt g m (g.medoid m))) (headerWords g maxDegree 24) := by
  rw [header,lastOnly (fun w m => write w [idAt g m (g.medoid m)]) _ (lastInside g)]
  have written := writeHolds (writeHolds (writeHolds (writeHolds (openHolds cacheSize) (sizeWords 24)) [maxDegree])
    [idAt g ⟨n - 1,lastInside g⟩ (g.medoid ⟨n - 1,lastInside g⟩)]) (sizeWords 0)
  simpa only [headerWords,List.nil_append,List.append_assoc] using written

-- The state before the loop.
def start (g : ShardFiles n) (maxDegree cacheSize : Nat) (readers : Fin n → Reader Nat) : State n :=
  ⟨0,List.replicate (nnodes g.ids) false,[],readers,0,header maxDegree cacheSize (fun m => idAt g m (g.medoid m)),24⟩

theorem firstZero {first : Nat × Fin n} (head : (nodeShard g.ids).head? = some first) :
    first.1 = 0 ↔ 0 ∈ vertices (collected g) := by
  have members := ReplicaMerge.nodeShardMem (parameter (collected g) 0 0)
  have known : ∀ v, v ∈ vertices (collected g) ↔ ∃ m, (v,m) ∈ nodeShard g.ids := by
    intro v
    simp only [vertices,Finset.mem_biUnion,Finset.mem_univ,true_and,List.mem_toFinset]
    exact exists_congr (fun m => (members v m).symm)
  obtain ⟨rest,split⟩ := List.head?_eq_some_iff.mp head
  rw [known]
  constructor
  · intro zero
    refine ⟨first.2,?_⟩
    rw [split,← zero]
    exact List.mem_cons_self
  · rintro ⟨m,inside⟩
    have sorted : (nodeShard g.ids).Pairwise (fun a b => a.1 < b.1 ∨ (a.1 = b.1 ∧ a.2 ≤ b.2)) :=
      ReplicaMerge.nodeShardSorted (parameter (collected g) 0 0)
    rw [split] at inside sorted
    rcases List.mem_cons.mp inside with here | later
    · rw [← here]
    · have le := (List.pairwise_cons.mp sorted).1 _ later
      simp only at le
      omega

theorem headerLength (g : ShardFiles n) (maxDegree size : Nat) : (headerWords g maxDegree size).length = 6 := rfl

/- Where node 0 is missing, an empty list is written for it before the first list is read. -/
theorem startSame {readers : Fin n → Reader Nat} {first : Nat × Fin n} (r : Shuffle) (maxDegree medoid cacheSize : Nat)
    (opened : ∀ m, Filled (readers m) ∧ ahead (readers m) = words (g.nghs m))
    (head : (nodeShard g.ids).head? = some first) :
    ∃ s, (nodeShard g.ids).foldlM (mergeOne r maxDegree g.ids) (start g maxDegree cacheSize readers) =
        (nodeShard g.ids).foldlM (mergeOne r maxDegree g.ids) s ∧
      Same g (headerWords g maxDegree 24 ++ List.replicate (skipped g) 0) (skipped g) [] s
        (ReplicaMerge.mergeStart (parameter (collected g) maxDegree medoid) first.1) := by
  have holds := headerHolds g maxDegree cacheSize
  rcases Nat.eq_zero_or_pos first.1 with zero | positive
  · have none' : skipped g = 0 := if_pos ((firstZero head).mp zero)
    rw [none',zero]
    refine ⟨_,rfl,rfl,rfl,rfl,rfl,opened,?_,rfl⟩
    rw [List.replicate_zero,List.append_nil]
    exact (List.append_nil (headerWords g maxDegree 24)).symm ▸ holds
  · have one : skipped g = 1 := if_neg (fun known => absurd ((firstZero head).mpr known) (Nat.ne_of_gt positive))
    have drawn : r.shuffle 0 [] = [] := (r.perm 0 []).eq_nil
    rw [one]
    refine ⟨{ writeFinal r maxDegree (start g maxDegree cacheSize readers) with curId := first.1 },?_,rfl,?_,rfl,rfl,opened,?_,?_⟩
    · obtain ⟨rest,split⟩ := List.head?_eq_some_iff.mp head
      have skip : mergeOne r maxDegree g.ids (start g maxDegree cacheSize readers) first =
          mergeOne r maxDegree g.ids
            { writeFinal r maxDegree (start g maxDegree cacheSize readers) with curId := first.1 } first := by
        have less : (start g maxDegree cacheSize readers).curId < first.1 := positive
        exact (if_pos less).trans (if_neg (Nat.lt_irrefl first.1)).symm
      rw [split,List.foldlM_cons,List.foldlM_cons,skip]
    · simp only [writeFinal,start,drawn]
      rfl
    · have written := writeHolds (writeHolds holds [0]) []
      simp only [writeFinal,start,drawn]
      exact written
    · simp only [writeFinal,start,drawn]
      rfl

theorem readersOpened (g : ShardFiles n) (cacheSize : Nat) :
    ∃ expectedSize inputWidth medoid frozen : Fin n → Reader Nat,
      (∀ m, read (openReader (vamanaFile g m) cacheSize) 2 =
        some (sizeWords (24 + 4 * (words (g.nghs m)).length),expectedSize m)) ∧
      (∀ m, readWord (expectedSize m) = some (g.width m,inputWidth m)) ∧
      (∀ m, readWord (inputWidth m) = some (g.medoid m,medoid m)) ∧
      (∀ m, read (medoid m) 2 = some (sizeWords 0,frozen m)) ∧
      ∀ m, Filled (frozen m) ∧ ahead (frozen m) = words (g.nghs m) := by
  have each : ∀ m, ∃ a b c d : Reader Nat, read (openReader (vamanaFile g m) cacheSize) 2 =
      some (sizeWords (24 + 4 * (words (g.nghs m)).length),a) ∧ readWord a = some (g.width m,b) ∧
      readWord b = some (g.medoid m,c) ∧ read c 2 = some (sizeWords 0,d) ∧ Filled d ∧ ahead d = words (g.nghs m) := by
    intro m
    obtain ⟨a,first,filled,rest⟩ := readPart (openFilled (vamanaFile g m) cacheSize) (openAhead (vamanaFile g m) cacheSize)
    obtain ⟨b,second,filled,rest⟩ := readWordAhead filled rest
    obtain ⟨c,third,filled,rest⟩ := readWordAhead filled rest
    obtain ⟨d,fourth,filled,rest⟩ := @readPart Nat c (sizeWords 0) (words (g.nghs m)) filled rest
    exact ⟨a,b,c,d,first,second,third,fourth,filled,rest⟩
  choose a b c d first second third fourth filled rest using each
  exact ⟨a,b,c,d,first,second,third,fourth,fun m => ⟨filled m,rest m⟩⟩

/- Every list is at its node's place just when no node but 0 is missing. -/
theorem recordedRange (g : ShardFiles n) :
    recorded g = List.range (nnodes g.ids) ↔ ∀ v, 0 < v → v < nnodes g.ids → v ∈ vertices (collected g) := by
  have below : ∀ v ∈ vertices (collected g), v < nnodes g.ids := by
    intro v known
    obtain ⟨m,_,inside⟩ := Finset.mem_biUnion.mp known
    exact idBelow (List.mem_toFinset.mp inside)
  have members : ∀ v, v ∈ recorded g ↔ v = 0 ∨ v ∈ vertices (collected g) := by
    intro v
    unfold recorded
    split
    · rename_i zero
      rw [Finset.mem_sort]
      exact (or_iff_right_of_imp (fun same => same ▸ zero)).symm
    · rw [List.mem_cons,Finset.mem_sort]
  have sorted : (recorded g).Pairwise (· < ·) := by
    have order : ((vertices (collected g)).sort (· ≤ ·)).Pairwise (· < ·) := (Finset.sortedLT_sort _).pairwise
    unfold recorded
    split
    · exact order
    · rename_i missing
      refine List.pairwise_cons.mpr ⟨fun v inside => ?_,order⟩
      rw [Finset.mem_sort] at inside
      exact Nat.pos_of_ne_zero (fun zero => missing (zero ▸ inside))
  constructor
  · intro whole v positive less
    have inside := List.mem_range.mpr less
    rw [← whole,members] at inside
    exact inside.resolve_left (Nat.ne_of_gt positive)
  · intro all
    refine sorted.eq_of_mem_iff List.pairwise_lt_range (fun v => ?_)
    rw [members,List.mem_range]
    constructor
    · rintro (rfl | known)
      · exact Nat.succ_pos _
      · exact below v known
    · intro less
      rcases Nat.eq_zero_or_pos v with zero | positive
      · exact Or.inl zero
      · exact Or.inr (all v positive less)

/- The single machine writes what the machines write together, from the same shuffles, with the size of
its own file and its own entry point, and with an empty list for node 0 where no shard has it. Its i-th
list is the i-th node's, for all nodes up to the last, just when no other node is missing. -/
theorem mergesAgree (r : Shuffle) (g : ShardFiles n) (maxDegree medoid cacheSize : Nat) (some' : 0 < maxDegree) :
    ∃ records s,
      ReplicaMerge.mergeReplicaPartition (parameter (collected g) maxDegree medoid) (later r (skipped g)) =
        some (⟨24 + 4 * (words records).length,maxDegree,medoid,0,words records⟩,s) ∧
      List.Forall₂ (RecordOf (collected g) maxDegree) (recorded g) (List.replicate (skipped g) [] ++ records) ∧
      mergeShards r maxDegree cacheSize (vamanaFile g) (idmapFile g) =
        some (headerWords g maxDegree (24 + 4 * (words (List.replicate (skipped g) [] ++ records)).length) ++
            words (List.replicate (skipped g) [] ++ records),
          n :: 1 :: (List.finRange n).map (fun m => idAt g m (g.medoid m))) ∧
      (recorded g = List.range (nnodes g.ids) ↔ ∀ v, 0 < v → v < nnodes g.ids → v ∈ vertices (collected g)) := by
  obtain ⟨first,head⟩ : ∃ first, (nodeShard g.ids).head? = some first :=
    ReplicaMerge.nodeShardHead (collected g) maxDegree medoid
  obtain ⟨a,b,c,d,sizes,widths,medoids,frozen,opened⟩ := readersOpened g cacheSize
  obtain ⟨s₀,skip,same₀⟩ := startSame r maxDegree medoid cacheSize opened head
  obtain ⟨s,t,loop,loop',merging,same⟩ := loopSame some' head (List.append_nil _).symm same₀
  obtain ⟨u,records,write',layout,all,size,-⟩ := ReplicaMerge.lastRecord (later r (skipped g)) some' merging
  have last := writeFinalSame same write'
  have empties : words (List.replicate (skipped g) []) = List.replicate (skipped g) 0 := by
    unfold skipped
    split <;> rfl
  have whole : headerWords g maxDegree 24 ++ List.replicate (skipped g) 0 ++ u.merged =
      headerWords g maxDegree 24 ++ words (List.replicate (skipped g) [] ++ records) := by
    rw [wordsAppend,empties,layout,List.append_assoc]
  refine ⟨records,u,?_,?_,?_,recordedRange g⟩
  · have loop'' : ReplicaMerge.mergeLoop (parameter (collected g) maxDegree medoid) (later r (skipped g))
        (ReplicaMerge.nodeShard (parameter (collected g) maxDegree medoid)) = some t := loop'
    rw [ReplicaMerge.mergeReplicaPartition,loop'',Option.bind_some,write',Option.map_some,← layout,size]
    rfl
  · unfold recorded skipped
    split
    · exact all
    · rename_i missing
      refine .cons ⟨List.nodup_nil,fun u no => absurd no List.not_mem_nil,?_⟩ all
      have none' : ReplicaMerge.neighbours (collected g) 0 = ∅ := by
        refine Finset.eq_empty_of_forall_notMem (fun u known => missing ?_)
        obtain ⟨m,_,inside⟩ := Finset.mem_biUnion.mp known
        exact Finset.mem_biUnion.mpr ⟨m,Finset.mem_univ m,
          List.mem_toFinset.mpr (ReplicaMerge.adjacencyShard (List.mem_toFinset.mp inside))⟩
      rw [none',Finset.card_empty,Nat.zero_min]
      rfl
  · have total : (writeFinal r maxDegree s).mergedIndexSize =
        24 + 4 * (words (List.replicate (skipped g) [] ++ records)).length := by
      rw [last.size,whole,List.length_append,headerLength]
      omega
    have holds := last.writer
    rw [whole] at holds
    have file := rewriteHolds holds (sizeWords (24 + 4 * (words (List.replicate (skipped g) [] ++ records)).length))
    unfold mergeShards
    rw [eachShardSome (readIdmapFile g),Option.bind_some,eachShardSome sizes,Option.bind_some,eachShardSome widths,
      Option.bind_some,eachShardSome medoids,Option.bind_some,eachShardSome frozen,Option.bind_some,
      eachShardSome (fun m => idAtSome (g.entry m)),Option.bind_some]
    have loop'' := skip.trans loop
    unfold start at loop''
    simp only [loop'',Option.map_some,writeLastSame,total,file]
    rfl

def twoFiles : ShardFiles 2 where
  ids := fun m => if m = 0 then [0,2] else [1,2]
  nghs := fun m => if m = 0 then [[1],[0]] else [[1],[0]]
  medoid := fun m => if m = 0 then 0 else 1
  width := fun _ => 1
  shards := by decide
  aligned := by decide
  ascending := by decide
  linked := by decide
  inside := by decide
  entry := by decide
  fits := by decide

theorem mergesAgreeTwo : 0 < 2 ∧ ∃ records,
    mergeShards ReplicaMerge.keepOrder 2 3 (vamanaFile twoFiles) (idmapFile twoFiles) =
      some (headerWords twoFiles 2 (24 + 4 * (words records).length) ++ words records,[2,1,0,2]) ∧
    List.Forall₂ (RecordOf (collected twoFiles) 2) [0,1,2] records := by
  obtain ⟨records,-,-,all,merge,whole⟩ := mergesAgree ReplicaMerge.keepOrder twoFiles 2 0 3 Nat.zero_lt_two
  have nodes : recorded twoFiles = [0,1,2] := by
    refine whole.mpr (fun v positive less => ?_)
    have three : v < 3 := less
    obtain rfl | rfl : v = 1 ∨ v = 2 := by omega
    all_goals decide
  rw [nodes] at all
  exact ⟨Nat.zero_lt_two,_,merge,all⟩

end Ends

end CoTra.MergeShards
