import CoTra.ReplicaMerge
import CoTra.ReplicaDispatch
import CoTra.Indices

/-! The distributed build from the local indexes to the b1graph files (disk_utils.cc:
collect_replica_partition; scala_build.h: the maps of the partition step and
transfer_to_b1graph_format), over the dispatch and the merge. Vectors, labels and
neighbours meet by position only. -/
namespace CoTra.BuildAlignment
open Runs Indices AdjacencyWords

variable {n maxVid : Nat} {V : Type}

/- What the machines start from: the id lists of the partition, the index each machine
built over its replica list (neighbours and entry point are places in that list), and
the vectors of its non-replica base file. `fits` bounds the words from one machine to
another. -/
structure Build (n maxVid : Nat) (V : Type) where
  noreplica : Fin n → List Nat
  replica : Fin n → List Nat
  nghs : Fin n → List (List Nat)
  medoid : Fin n → Nat
  base : Fin n → List V
  nonempty : ∀ p, noreplica p ≠ []
  ascending : ∀ p, (noreplica p).Pairwise (· < ·)
  disjoint : ∀ p q, ∀ v ∈ noreplica p, v ∈ noreplica q → p = q
  covered : ∀ v, v < maxVid ↔ ∃ p, v ∈ noreplica p
  replicaAscending : ∀ q, (replica q).Pairwise (· < ·)
  replicaBound : ∀ q, ∀ v ∈ replica q, v < maxVid
  contained : ∀ p, ∀ v ∈ noreplica p, v ∈ replica p
  aligned : ∀ q, (replica q).length = (nghs q).length
  linked : ∀ q, ∀ a ∈ nghs q, a ≠ []
  inside : ∀ q, ∀ a ∈ nghs q, ∀ j ∈ a, j < (replica q).length
  entry : ∀ q, medoid q < (replica q).length
  vectors : ∀ p, (base p).length = (noreplica p).length
  fits : ∀ q p, (words ((((replica q).zip (nghs q)).filter (fun e => e.1 ∈ noreplica p)).map Prod.snd)).length < 2 ^ 32

section Maps

variable (b : Build n maxVid V)

-- kmeans_id2part_map; `none` is a word that was never set.
def kmeansId2partMap : Nat → Option (Fin n) :=
  (List.finRange n).foldl (fun map m => (b.noreplica m).foldl (fun map id => Function.update map id (some m)) map)
    (fun _ => none)

structure PosMaps where
  label2posMap : Nat → Nat
  pos2labelMap : List Nat

-- One id of the loop that numbers the positions.
def place (maps : PosMaps) (v : Nat) : PosMaps :=
  ⟨Function.update maps.label2posMap v maps.pos2labelMap.length,maps.pos2labelMap ++ [v]⟩

def posMaps : PosMaps :=
  (List.finRange n).foldl (fun maps m => (b.noreplica m).foldl place maps) ⟨fun _ => 0,[]⟩

-- The partition sizes before machine p.
def partitionOfs (p : Fin n) : Nat :=
  ((List.finRange n).take p.val).foldl (fun ofs m => ofs + (b.noreplica m).length) 0

variable {b}

theorem setAll (ids : List Nat) (m : Fin n) (map : Nat → Option (Fin n)) (v : Nat) :
    ids.foldl (fun map id => Function.update map id (some m)) map v = if v ∈ ids then some m else map v := by
  induction ids generalizing map with
  | nil => rfl
  | cons id rest ih =>
    rw [List.foldl_cons,ih]
    simp only [Function.update_apply,List.mem_cons]
    split
    · rename_i later
      rw [if_pos (Or.inr later)]
    · rename_i later
      simp only [later,or_false]

theorem setMachines {ms : List (Fin n)} {v : Nat} {p : Fin n} (member : v ∈ b.noreplica p) (map : Nat → Option (Fin n))
    (known : p ∈ ms ∨ map v = some p) :
    ms.foldl (fun map m => (b.noreplica m).foldl (fun map id => Function.update map id (some m)) map) map v =
      some p := by
  induction ms generalizing map with
  | nil =>
    rcases known with no | set
    · exact absurd no List.not_mem_nil
    · exact set
  | cons m rest ih =>
    rw [List.foldl_cons]
    refine ih _ ?_
    rw [setAll]
    by_cases here : v ∈ b.noreplica m
    · exact Or.inr (by rw [if_pos here,b.disjoint m p v here member])
    · rw [if_neg here]
      rcases known with inside | set
      · rcases List.mem_cons.mp inside with rfl | later
        · exact absurd member here
        · exact Or.inl later
      · exact Or.inr set

theorem id2partSome {v : Nat} {p : Fin n} (member : v ∈ b.noreplica p) : kmeansId2partMap b v = some p :=
  setMachines member _ (Or.inl (List.mem_finRange p))

theorem id2partIff {v : Nat} (known : v < maxVid) (p : Fin n) : kmeansId2partMap b v = some p ↔ v ∈ b.noreplica p := by
  constructor
  · intro found
    obtain ⟨q,member⟩ := (b.covered v).mp known
    rw [id2partSome member] at found
    cases found
    exact member
  · exact id2partSome

theorem placeAll (ids : List Nat) (maps : PosMaps) :
    (ids.foldl place maps).pos2labelMap = maps.pos2labelMap ++ ids := by
  induction ids generalizing maps with
  | nil => exact (List.append_nil _).symm
  | cons v rest ih =>
    rw [List.foldl_cons,ih,place,List.append_assoc,List.singleton_append]

theorem placeMachines (ms : List (Fin n)) (maps : PosMaps) :
    (ms.foldl (fun maps m => (b.noreplica m).foldl place maps) maps).pos2labelMap =
      maps.pos2labelMap ++ ms.flatMap b.noreplica := by
  induction ms generalizing maps with
  | nil => exact (List.append_nil _).symm
  | cons m rest ih =>
    rw [List.foldl_cons,ih,placeAll,List.append_assoc,List.flatMap_cons]

theorem sizesBefore (ms : List (Fin n)) (ofs : Nat) :
    ms.foldl (fun ofs m => ofs + (b.noreplica m).length) ofs = ofs + (ms.flatMap b.noreplica).length := by
  induction ms generalizing ofs with
  | nil => rfl
  | cons m rest ih =>
    rw [List.foldl_cons,ih,List.flatMap_cons,List.length_append,Nat.add_assoc]

/- The labels of a machine lie together, in the order of its list. -/
theorem labelAt (b : Build n maxVid V) (p : Fin n) {i : Nat} (inside : i < (b.noreplica p).length) :
    (posMaps b).pos2labelMap[partitionOfs b p + i]? = (b.noreplica p)[i]? := by
  rw [posMaps,placeMachines,List.nil_append,partitionOfs,sizesBefore,Nat.zero_add]
  exact joinedPlace b.noreplica p inside

end Maps

section Collect

/- One vector of the local index: its degree, its neighbours, and where the next begins. -/
def readNode (file : List Nat) (cursor : Nat) : Option (List Nat × Nat) :=
  file[cursor]?.bind (fun deg =>
    if cursor + 1 + deg ≤ file.length then some ((file.drop (cursor + 1)).take deg,cursor + 1 + deg) else none)

structure Counts (n : Nat) where
  cursor : Nat
  dispatchIdNum : Fin n → Nat
  dispatchNghNum : Fin n → Nat

structure Buffers (n : Nat) where
  cursor : Nat
  dispatchIds : Fin n → ReplicaDispatch.Part
  dispatchNghs : Fin n → ReplicaDispatch.Part

variable (id2part : Nat → Option (Fin n)) (replica file : List Nat)

def countOne (s : Counts n) (v : Nat) : Option (Counts n) :=
  (readNode file s.cursor).bind (fun node =>
    if node.1.length = 0 then none
    else (id2part v).map (fun p =>
      ⟨node.2,Function.update s.dispatchIdNum p (s.dispatchIdNum p + 1),
        Function.update s.dispatchNghNum p (s.dispatchNghNum p + (node.1.length + 1))⟩))

-- The neighbours are renamed to ids and copied behind their degree.
def fillOne (s : Buffers n) (v : Nat) : Option (Buffers n) :=
  (readNode file s.cursor).bind (fun node => (id2part v).bind (fun p =>
    (node.1.mapM (fun j => replica[j]?)).bind (fun remapNgh =>
      (ReplicaDispatch.append (s.dispatchIds p) [v]).bind (fun ids =>
        (ReplicaDispatch.append (s.dispatchNghs p) (node.1.length :: remapNgh)).map (fun nghs =>
          ⟨node.2,Function.update s.dispatchIds p ids,Function.update s.dispatchNghs p nghs⟩)))))

def collectReplicaPartition (medoid : Nat) : Option (Nat × Buffers n) :=
  replica[medoid]?.bind (fun medoid =>
    (replica.foldlM (countOne id2part file) ⟨0,fun _ => 0,fun _ => 0⟩).bind (fun counts =>
      (replica.foldlM (fillOne id2part replica file) ⟨0,fun p => ReplicaDispatch.alloc (counts.dispatchIdNum p),
        fun p => ReplicaDispatch.alloc (counts.dispatchNghNum p)⟩).map (fun buffers => (medoid,buffers))))

end Collect

section Collected

variable {id2part : Nat → Option (Fin n)} {replica : List Nat} {done more : List (Nat × List Nat)}

-- The vectors of a local index that go to machine p.
def forPart (id2part : Nat → Option (Fin n)) (p : Fin n) (entries : List (Nat × List Nat)) : List (Nat × List Nat) :=
  entries.filter (fun e => id2part e.1 = some p)

def globalId (replica : List Nat) (j : Nat) : Nat := replica[j]?.getD 0

def idsFor (id2part : Nat → Option (Fin n)) (entries : List (Nat × List Nat)) (p : Fin n) : List Nat :=
  (forPart id2part p entries).map Prod.fst

def listsFor (id2part : Nat → Option (Fin n)) (replica : List Nat) (entries : List (Nat × List Nat)) (p : Fin n) :
    List (List Nat) :=
  (forPart id2part p entries).map (fun e => e.2.map (globalId replica))

theorem idsForAppend (p : Fin n) : idsFor id2part (done ++ more) p = idsFor id2part done p ++ idsFor id2part more p := by
  rw [idsFor,forPart,List.filter_append,List.map_append]
  rfl

theorem listsForAppend (p : Fin n) :
    listsFor id2part replica (done ++ more) p = listsFor id2part replica done p ++ listsFor id2part replica more p := by
  rw [listsFor,forPart,List.filter_append,List.map_append]
  rfl

theorem forPartOne {e : Nat × List Nat} {m : Fin n} (part : id2part e.1 = some m) (p : Fin n) :
    idsFor id2part [e] p = (if p = m then [e.1] else []) ∧
    listsFor id2part replica [e] p = (if p = m then [e.2.map (globalId replica)] else []) := by
  rcases eq_or_ne p m with rfl | other
  · simp [idsFor,listsFor,forPart,part]
  · simp [idsFor,listsFor,forPart,part,other,Ne.symm other]

theorem readNodeAt (before after : List Nat) (a : List Nat) :
    readNode (before ++ a.length :: (a ++ after)) before.length = some (a,before.length + 1 + a.length) := by
  have degree : (before ++ a.length :: (a ++ after))[before.length]? = some a.length := by simp
  have rest : (before ++ a.length :: (a ++ after)).drop (before.length + 1) = a ++ after := by
    rw [← List.singleton_append,← List.append_assoc]
    exact List.drop_left' (by simp)
  rw [readNode,degree,Option.bind_some,if_pos,rest,List.take_left' rfl]
  simp only [List.length_append,List.length_cons]
  omega

theorem renamed {a : List Nat} (inside : ∀ j ∈ a, j < replica.length) :
    a.mapM (fun j => replica[j]?) = some (a.map (globalId replica)) := by
  induction a with
  | nil => rfl
  | cons j rest ih =>
    have here : replica[j]? = some (globalId replica j) := by
      have bound := inside j List.mem_cons_self
      rw [globalId,List.getElem?_eq_getElem bound,Option.getD_some]
    rw [List.mapM_cons,here,ih (fun k later => inside k (List.mem_cons_of_mem j later))]
    rfl

/- What the first pass counted after the entries `done`. -/
def counted (id2part : Nat → Option (Fin n)) (replica : List Nat) (done : List (Nat × List Nat)) : Counts n :=
  ⟨(words (done.map Prod.snd)).length,fun p => (idsFor id2part done p).length,
    fun p => (words (listsFor id2part replica done p)).length⟩

theorem cursorNext (done : List (Nat × List Nat)) (e : Nat × List Nat) :
    (words ((done ++ [e]).map Prod.snd)).length = (words (done.map Prod.snd)).length + 1 + e.2.length := by
  rw [List.map_append,wordsAppend,List.map_cons,List.map_nil,wordsCons,wordsNil,List.append_nil,List.length_append,
    List.length_cons]
  omega

theorem readNext (done more : List (Nat × List Nat)) (e : Nat × List Nat) :
    readNode (words ((done ++ e :: more).map Prod.snd)) (words (done.map Prod.snd)).length =
      some (e.2,(words ((done ++ [e]).map Prod.snd)).length) := by
  rw [cursorNext,List.map_append,List.map_cons,wordsAppend,wordsCons]
  exact readNodeAt _ _ _

theorem countLoop (linked : ∀ e ∈ more, e.2 ≠ []) (known : ∀ e ∈ more, ∃ p, id2part e.1 = some p) :
    (more.map Prod.fst).foldlM (countOne id2part (words ((done ++ more).map Prod.snd))) (counted id2part replica done) =
      some (counted id2part replica (done ++ more)) := by
  induction more generalizing done with
  | nil =>
    rw [List.append_nil]
    rfl
  | cons e rest ih =>
    obtain ⟨m,part⟩ := known e List.mem_cons_self
    have one : countOne id2part (words ((done ++ e :: rest).map Prod.snd)) (counted id2part replica done) e.1 =
        some (counted id2part replica (done ++ [e])) := by
      have linked' : e.2.length ≠ 0 := fun zero => linked e List.mem_cons_self (List.length_eq_zero_iff.mp zero)
      simp only [countOne,counted,readNext,Option.bind_some,if_neg linked',part,Option.map_some,Option.some.injEq,
        Counts.mk.injEq,true_and]
      refine ⟨funext (fun p => ?_),funext (fun p => ?_)⟩
      · rw [idsForAppend,(@forPartOne n id2part replica e m part p).1]
        rcases eq_or_ne p m with rfl | other
        · simp
        · simp [other]
      · rw [listsForAppend,(@forPartOne n id2part replica e m part p).2,wordsAppend]
        rcases eq_or_ne p m with rfl | other
        · simp
        · simp [other]
    have next := @ih (done ++ [e]) (fun e' later => linked e' (List.mem_cons_of_mem e later))
      (fun e' later => known e' (List.mem_cons_of_mem e later))
    rw [List.append_assoc,List.singleton_append] at next
    rw [List.map_cons,List.foldlM_cons,one]
    exact next

/- The second pass after the entries `done`: every block holds its first part. -/
structure Filled (id2part : Nat → Option (Fin n)) (replica : List Nat) (all done : List (Nat × List Nat))
    (s : Buffers n) : Prop where
  cursor : s.cursor = (words (done.map Prod.snd)).length
  ids : ∀ p, ReplicaDispatch.PartOk (idsFor id2part all p) (idsFor id2part done p) (s.dispatchIds p)
  nghs : ∀ p, ReplicaDispatch.PartOk (words (listsFor id2part replica all p)) (words (listsFor id2part replica done p))
    (s.dispatchNghs p)

theorem fillLoop {s : Buffers n} (known : ∀ e ∈ more, ∃ p, id2part e.1 = some p)
    (inside : ∀ e ∈ more, ∀ j ∈ e.2, j < replica.length) (filled : Filled id2part replica (done ++ more) done s) :
    ∃ t, (more.map Prod.fst).foldlM (fillOne id2part replica (words ((done ++ more).map Prod.snd))) s = some t ∧
      Filled id2part replica (done ++ more) (done ++ more) t := by
  induction more generalizing done s with
  | nil =>
    rw [List.append_nil] at filled ⊢
    exact ⟨s,rfl,filled⟩
  | cons e rest ih =>
    obtain ⟨m,part⟩ := known e List.mem_cons_self
    have split : done ++ e :: rest = (done ++ [e]) ++ rest := by simp
    obtain ⟨idsOne,listsOne⟩ := @forPartOne n id2part replica e m part m
    have idsNext : idsFor id2part (done ++ [e]) m = idsFor id2part done m ++ [e.1] := by
      rw [idsForAppend,idsOne,if_pos rfl]
    have listsNext : words (listsFor id2part replica (done ++ [e]) m) =
        words (listsFor id2part replica done m) ++ (e.2.length :: e.2.map (globalId replica)) := by
      rw [listsForAppend,listsOne,if_pos rfl,wordsAppend,wordsCons,wordsNil,List.append_nil,List.length_map]
    have idsFirst : idsFor id2part done m ++ [e.1] <+: idsFor id2part (done ++ e :: rest) m := by
      rw [← idsNext,split,@idsForAppend n id2part (done ++ [e]) rest m]
      exact List.prefix_append _ _
    have listsFirst : words (listsFor id2part replica done m) ++ (e.2.length :: e.2.map (globalId replica)) <+:
        words (listsFor id2part replica (done ++ e :: rest) m) := by
      rw [← listsNext,split,@listsForAppend n id2part replica (done ++ [e]) rest m,wordsAppend]
      exact List.prefix_append _ _
    obtain ⟨ids,writeIds,idsOk⟩ := ReplicaDispatch.appendOk (filled.ids m) idsFirst
    obtain ⟨nghs,writeNghs,nghsOk⟩ := ReplicaDispatch.appendOk (filled.nghs m) listsFirst
    have one : fillOne id2part replica (words ((done ++ e :: rest).map Prod.snd)) s e.1 =
        some ⟨(words ((done ++ [e]).map Prod.snd)).length,Function.update s.dispatchIds m ids,
          Function.update s.dispatchNghs m nghs⟩ := by
      simp only [fillOne,filled.cursor,readNext,Option.bind_some,part,renamed (inside e List.mem_cons_self),writeIds,
        writeNghs,Option.map_some]
    have next : Filled id2part replica ((done ++ [e]) ++ rest) (done ++ [e])
        ⟨(words ((done ++ [e]).map Prod.snd)).length,Function.update s.dispatchIds m ids,
          Function.update s.dispatchNghs m nghs⟩ := by
      rw [← split]
      refine ⟨rfl,fun p => ?_,fun p => ?_⟩ <;> simp only
      · rcases eq_or_ne p m with rfl | other
        · rw [Function.update_self,idsNext]
          exact idsOk
        · rw [Function.update_of_ne other,@idsForAppend n id2part done [e] p,(@forPartOne n id2part replica e m part p).1,if_neg other,
            List.append_nil]
          exact filled.ids p
      · rcases eq_or_ne p m with rfl | other
        · rw [Function.update_self,listsNext]
          exact nghsOk
        · rw [Function.update_of_ne other,@listsForAppend n id2part replica done [e] p,(@forPartOne n id2part replica e m part p).2,if_neg other,
            List.append_nil]
          exact filled.nghs p
    obtain ⟨t,loop,last⟩ := ih (fun e' later => known e' (List.mem_cons_of_mem e later))
      (fun e' later => inside e' (List.mem_cons_of_mem e later)) next
    rw [← split] at loop last
    refine ⟨t,?_,last⟩
    rw [List.map_cons,List.foldlM_cons,one]
    exact loop

theorem collected {lists : List (List Nat)} {medoid : Nat} (aligned : replica.length = lists.length)
    (linked : ∀ a ∈ lists, a ≠ []) (inside : ∀ a ∈ lists, ∀ j ∈ a, j < replica.length)
    (known : ∀ v ∈ replica, ∃ p, id2part v = some p) (entry : medoid < replica.length) :
    ∃ buffers, collectReplicaPartition id2part replica (words lists) medoid = some (globalId replica medoid,buffers) ∧
      ∀ p, buffers.dispatchIds p = ReplicaDispatch.whole (idsFor id2part (replica.zip lists) p) ∧
        buffers.dispatchNghs p = ReplicaDispatch.whole (words (listsFor id2part replica (replica.zip lists) p)) := by
  have ids : (replica.zip lists).map Prod.fst = replica := List.map_fst_zip aligned.le
  have nodes : (replica.zip lists).map Prod.snd = lists := List.map_snd_zip aligned.ge
  have known' : ∀ e ∈ replica.zip lists, ∃ p, id2part e.1 = some p := fun e member =>
    known e.1 (List.of_mem_zip (show (e.1,e.2) ∈ _ from member)).1
  have counts := @countLoop n id2part replica [] (replica.zip lists)
    (fun e member => linked e.2 (List.of_mem_zip (show (e.1,e.2) ∈ _ from member)).2) known'
  obtain ⟨buffers,fill,filled⟩ := @fillLoop n id2part replica [] (replica.zip lists)
    ⟨0,fun p => ReplicaDispatch.alloc (idsFor id2part (replica.zip lists) p).length,
      fun p => ReplicaDispatch.alloc (words (listsFor id2part replica (replica.zip lists) p)).length⟩ known'
    (fun e member => inside e.2 (List.of_mem_zip (show (e.1,e.2) ∈ _ from member)).2)
    ⟨rfl,fun p => ReplicaDispatch.allocOk _,fun p => ReplicaDispatch.allocOk _⟩
  rw [List.nil_append,ids,nodes] at counts fill
  rw [List.nil_append] at filled
  have medoid' : replica[medoid]? = some (globalId replica medoid) := by
    rw [globalId,List.getElem?_eq_getElem entry,Option.getD_some]
  have start : counted id2part replica [] = ⟨0,fun _ => 0,fun _ => 0⟩ := rfl
  rw [start] at counts
  refine ⟨buffers,?_,fun p => ⟨(filled.ids p).whole rfl,(filled.nghs p).whole rfl⟩⟩
  rw [collectReplicaPartition,medoid',Option.bind_some,counts,Option.bind_some]
  simp only [counted] at fill ⊢
  rw [fill,Option.map_some]

end Collected

section Transfer

/- An element of the b1graph: the slot has room for max_degree neighbours. -/
structure Element (V : Type) where
  nghs : List Nat
  vector : V
  label : Nat

structure B1Graph (V : Type) where
  vecNum : Nat
  medoid : Nat
  elements : List (Option (Element V))

variable (file : ReplicaMerge.IndexFile) (maps : PosMaps) (base : List V) (partitionOfs : Nat)

/- One element: degree + 1 is computed in uint32_t. `none` is a read or a write outside an
array, or more neighbours than the slot holds. -/
def transferOne (nghOffset eleNum : Nat) (graph : List (Option (Element V))) :
    Option (Nat × List (Option (Element V))) :=
  file.nghs[nghOffset]?.bind (fun degree =>
    let nghs := (file.nghs.drop (nghOffset + 1)).take ((degree + 1) % 2 ^ 32 - 1)
    if nghs.length = degree ∧ degree ≤ file.maxDegree ∧ eleNum < graph.length then
      base[eleNum]?.bind (fun vector => maps.pos2labelMap[partitionOfs + eleNum]?.map (fun label =>
        (nghOffset + (degree + 1) % 2 ^ 32,graph.set eleNum (some ⟨nghs.map maps.label2posMap,vector,label⟩))))
    else none)

def transferLoop : Nat → Nat → Nat → List (Option (Element V)) → Option (List (Option (Element V)))
  | 0, _, _, _ => none
  | fuel + 1, nghOffset, eleNum, graph =>
    if ReplicaMerge.metadataSize + nghOffset * 4 < file.indexSize then
      (transferOne file maps base partitionOfs nghOffset eleNum graph).bind
        (fun next => transferLoop fuel next.1 (eleNum + 1) next.2)
    else some graph

/- Every pass of the loop moves the offset, so the words bound the passes. -/
def transferToB1graphFormat (maxDegree vecNum : Nat) : Option (B1Graph V) :=
  if file.maxDegree = maxDegree then
    (transferLoop file maps base partitionOfs (file.nghs.length + 1) 0 0 (List.replicate vecNum none)).map
      (fun elements => ⟨vecNum,file.medoid,elements⟩)
  else none

variable {file maps base partitionOfs}

def elementsOf (maps : PosMaps) (records : List (List Nat)) (vectors : List V) (labels : List Nat) : List (Element V) :=
  (records.zip (vectors.zip labels)).map (fun t => ⟨t.1.map maps.label2posMap,t.2.1,t.2.2⟩)

/- The loop over the records that are left, with `front` written. -/
theorem transferRest {done rest : List (List Nat)} {vectors : List V} {labels : List Nat}
    {front : List (Option (Element V))} {fuel : Nat} (layout : file.nghs = words (done ++ rest))
    (size : file.indexSize = ReplicaMerge.metadataSize + 4 * file.nghs.length)
    (degrees : ∀ a ∈ rest, a.length ≤ file.maxDegree) (small : file.maxDegree + 1 < 2 ^ 32)
    (vectorNum : vectors.length = rest.length) (labelNum : labels.length = rest.length)
    (vectorAt : ∀ i < rest.length, base[front.length + i]? = vectors[i]?)
    (labelAt : ∀ i < rest.length, maps.pos2labelMap[partitionOfs + (front.length + i)]? = labels[i]?)
    (enough : rest.length < fuel) :
    transferLoop file maps base partitionOfs fuel (words done).length front.length
      (front ++ List.replicate rest.length none) = some (front ++ (elementsOf maps rest vectors labels).map some) := by
  induction rest generalizing done vectors labels front fuel with
  | nil =>
    cases fuel with
    | zero => exact absurd enough (Nat.not_lt_zero _)
    | succ fuel =>
      rw [List.append_nil] at layout
      rw [transferLoop,if_neg (by rw [size,layout]; omega)]
      simp [elementsOf]
  | cons a rest ih =>
    cases fuel with
    | zero => exact absurd enough (Nat.not_lt_zero _)
    | succ fuel =>
      cases vectors with
      | nil => cases vectorNum
      | cons vector vectors =>
        cases labels with
        | nil => cases labelNum
        | cons label labels =>
          have degree := degrees a List.mem_cons_self
          have wrap : (a.length + 1) % 2 ^ 32 = a.length + 1 := Nat.mod_eq_of_lt (by omega)
          have array : file.nghs = words done ++ a.length :: (a ++ words rest) := by
            rw [layout,wordsAppend,wordsCons]
          have more : ReplicaMerge.metadataSize + (words done).length * 4 < file.indexSize := by
            rw [size,array,List.length_append,List.length_cons]
            omega
          have word : file.nghs[(words done).length]? = some a.length := by
            rw [array]
            simp
          have list : (file.nghs.drop ((words done).length + 1)).take a.length = a := by
            have tail : file.nghs.drop ((words done).length + 1) = a ++ words rest := by
              rw [array,← List.singleton_append,← List.append_assoc]
              exact List.drop_left' (by simp)
            rw [tail,List.take_left' rfl]
          have here : base[front.length]? = some vector := vectorAt 0 (Nat.succ_pos _)
          have name : maps.pos2labelMap[partitionOfs + front.length]? = some label := labelAt 0 (Nat.succ_pos _)
          have one : transferOne file maps base partitionOfs (words done).length front.length
              (front ++ List.replicate (a :: rest).length none) = some ((words done).length + (a.length + 1),
                (front ++ [some ⟨a.map maps.label2posMap,vector,label⟩]) ++ List.replicate rest.length none) := by
            unfold transferOne
            simp only [word,Option.bind_some,wrap,Nat.add_sub_cancel,list]
            rw [if_pos ⟨trivial,degree,by simp⟩,here,Option.bind_some,name,Option.map_some,List.length_cons,
              List.replicate_succ]
            simp
          have next := @ih (done ++ [a]) vectors labels (front ++ [some ⟨a.map maps.label2posMap,vector,label⟩]) fuel
            (by rw [layout]; simp) (fun b later => degrees b (List.mem_cons_of_mem a later))
            (Nat.succ.inj vectorNum) (Nat.succ.inj labelNum) ?_ ?_ (Nat.lt_of_succ_lt_succ enough)
          · have length : (words (done ++ [a])).length = (words done).length + (a.length + 1) := by
              rw [wordsAppend,wordsCons,wordsNil,List.append_nil,List.length_append,List.length_cons]
            rw [transferLoop,if_pos more,one,Option.bind_some]
            simp only
            rw [length,List.length_append,List.length_singleton] at next
            rw [next,elementsOf,elementsOf,List.zip_cons_cons,List.zip_cons_cons,List.map_cons,List.map_cons,
              List.append_assoc,List.singleton_append]
          · intro i less
            have at' := vectorAt (i + 1) (Nat.succ_lt_succ less)
            rw [List.length_append,List.length_singleton,show front.length + 1 + i = front.length + (i + 1) by omega,at']
            rfl
          · intro i less
            have at' := labelAt (i + 1) (Nat.succ_lt_succ less)
            rw [List.length_append,List.length_singleton,show front.length + 1 + i = front.length + (i + 1) by omega,at']
            rfl

theorem transferAll {records : List (List Nat)} {labels : List Nat}
    (layout : file.nghs = words records) (size : file.indexSize = ReplicaMerge.metadataSize + 4 * file.nghs.length)
    (degrees : ∀ a ∈ records, a.length ≤ file.maxDegree) (small : file.maxDegree + 1 < 2 ^ 32)
    (vectorNum : base.length = records.length) (labelNum : labels.length = records.length)
    (labelAt : ∀ i < records.length, maps.pos2labelMap[partitionOfs + i]? = labels[i]?) :
    transferToB1graphFormat file maps base partitionOfs file.maxDegree records.length =
      some ⟨records.length,file.medoid,(elementsOf maps records base labels).map some⟩ := by
  have room : records.length ≤ (words records).length := by
    clear layout degrees vectorNum labelNum labelAt
    induction records with
    | nil => exact le_rfl
    | cons a rest ih =>
      rw [wordsCons,List.length_cons,List.length_cons,List.length_append]
      omega
  have loop := @transferRest V file maps base partitionOfs [] records base labels [] (file.nghs.length + 1) layout size
    degrees small vectorNum labelNum (fun i _ => by simp) (fun i less => by simpa using labelAt i less)
    (by rw [layout]; omega)
  rw [transferToB1graphFormat,if_pos rfl]
  simp only [List.nil_append,wordsNil,List.length_nil] at loop
  rw [loop,Option.map_some]

end Transfer

section Align

variable (b : Build n maxVid V)

def entries (q : Fin n) : List (Nat × List Nat) := (b.replica q).zip (b.nghs q)

-- The neighbours of v in shard q, as ids.
def shardNeighbours (q : Fin n) (v : Nat) : List Nat :=
  (entries b q).flatMap (fun e => if e.1 = v then e.2.map (globalId (b.replica q)) else [])

-- The neighbours of v in all shards.
def unionNeighbours (v : Nat) : Finset Nat := Finset.univ.biUnion (fun q => (shardNeighbours b q v).toFinset)

def content (part : ReplicaDispatch.Part) : List Nat := (part.block.take part.num).map (fun word => word.getD 0)

def dispatchOf (c : Fin n → Nat × Buffers n) : ReplicaDispatch.Dispatch n :=
  ⟨fun q p => content ((c q).2.dispatchIds p),fun q p => content ((c q).2.dispatchNghs p)⟩

-- What the merge reads on a machine after the dispatch.
def mergeParameter (maxVid : Nat) (m : ReplicaDispatch.Machine n) (maxDegree medoid : Nat) :
    ReplicaMerge.IndexParameter n :=
  ⟨fun q => content (m.collect q).ids,fun q => content (m.collect q).nghs,maxDegree,maxVid,medoid⟩

theorem contentWhole (words : List Nat) : content (ReplicaDispatch.whole words) = words := by
  rw [content,ReplicaDispatch.whole]
  simp

theorem contentComplete (p q : Fin n) (words : List Nat) : content (ReplicaDispatch.complete p q words) = words := by
  unfold ReplicaDispatch.complete
  split
  · rw [content,ReplicaDispatch.takenOver]
    simp
  · exact contentWhole words

variable {b}

theorem entryMem {q : Fin n} {e : Nat × List Nat} (member : e ∈ entries b q) : e.1 ∈ b.replica q ∧ e.2 ∈ b.nghs q :=
  List.of_mem_zip (show (e.1,e.2) ∈ _ from member)

theorem forPartMem {q p : Fin n} {e : Nat × List Nat} :
    e ∈ forPart (kmeansId2partMap b) p (entries b q) ↔ e ∈ entries b q ∧ e.1 ∈ b.noreplica p := by
  rw [forPart,List.mem_filter,decide_eq_true_eq]
  refine and_congr_right (fun member => ?_)
  exact id2partIff (b.replicaBound q e.1 (entryMem member).1) p

theorem idsForMem {q p : Fin n} {v : Nat} :
    v ∈ idsFor (kmeansId2partMap b) (entries b q) p ↔ v ∈ b.replica q ∧ v ∈ b.noreplica p := by
  rw [idsFor,List.mem_map]
  constructor
  · rintro ⟨e,member,rfl⟩
    obtain ⟨inside,here⟩ := forPartMem.mp member
    exact ⟨(entryMem inside).1,here⟩
  · rintro ⟨inside,here⟩
    have ids : (entries b q).map Prod.fst = b.replica q := List.map_fst_zip (b.aligned q).le
    rw [← ids] at inside
    obtain ⟨e,member,rfl⟩ := List.mem_map.mp inside
    exact ⟨e,forPartMem.mpr ⟨member,here⟩,rfl⟩

theorem renamedLength (f : Nat → Nat) (es : List (Nat × List Nat)) :
    (words (es.map (fun e => e.2.map f))).length = (words (es.map Prod.snd)).length := by
  induction es with
  | nil => rfl
  | cons e rest ih =>
    simp only [List.map_cons,wordsCons,List.length_cons,List.length_append,List.length_map,ih]

/- The shards machine p merges. -/
def shardsOf (b : Build n maxVid V) (p : Fin n) : ReplicaMerge.Shards n maxVid where
  ids := fun q => idsFor (kmeansId2partMap b) (entries b q) p
  nghs := fun q => listsFor (kmeansId2partMap b) (b.replica q) (entries b q) p
  aligned := by
    intro q
    rw [idsFor,listsFor,List.length_map,List.length_map]
  ascending := by
    intro q
    have ids : (entries b q).map Prod.fst = b.replica q := List.map_fst_zip (b.aligned q).le
    exact (b.replicaAscending q).sublist (ids ▸ List.filter_sublist.map Prod.fst)
  inhabited := by
    obtain ⟨v,member⟩ := List.exists_mem_of_ne_nil _ (b.nonempty p)
    exact ⟨p,List.ne_nil_of_mem (idsForMem.mpr ⟨b.contained p v member,member⟩)⟩
  linked := by
    intro q a member
    obtain ⟨e,inside,rfl⟩ := List.mem_map.mp member
    have some' := b.linked q e.2 (entryMem (forPartMem.mp inside).1).2
    exact fun none' => some' (List.map_eq_nil_iff.mp none')
  bounded := by
    intro q a member u inside
    obtain ⟨e,entry,rfl⟩ := List.mem_map.mp member
    obtain ⟨j,local',rfl⟩ := List.mem_map.mp inside
    have bound := b.inside q e.2 (entryMem (forPartMem.mp entry).1).2 j local'
    rw [globalId,List.getElem?_eq_getElem bound,Option.getD_some]
    exact b.replicaBound q _ (List.getElem_mem bound)
  fits := by
    intro q
    have same : forPart (kmeansId2partMap b) p (entries b q) =
        ((b.replica q).zip (b.nghs q)).filter (fun e => e.1 ∈ b.noreplica p) := by
      refine List.filter_congr (fun e member => ?_)
      rw [decide_eq_decide]
      exact id2partIff (b.replicaBound q e.1 (entryMem member).1) p
    rw [listsFor,renamedLength,same]
    exact b.fits q p

theorem verticesOf (b : Build n maxVid V) (p : Fin n) :
    (ReplicaMerge.vertices (shardsOf b p)).sort (· ≤ ·) = b.noreplica p := by
  refine (Finset.sortedLT_sort _).pairwise.eq_of_mem_iff (b.ascending p) (fun v => ?_)
  rw [Finset.mem_sort,ReplicaMerge.vertices,Finset.mem_biUnion]
  constructor
  · rintro ⟨q,_,member⟩
    exact (idsForMem.mp (List.mem_toFinset.mp member)).2
  · intro member
    exact ⟨p,Finset.mem_univ p,List.mem_toFinset.mpr (idsForMem.mpr ⟨b.contained p v member,member⟩)⟩

theorem neighboursOf {p : Fin n} {u v : Nat} (member : u ∈ ReplicaMerge.neighbours (shardsOf b p) v) :
    ∃ q, v ∈ b.replica q ∧ u ∈ shardNeighbours b q v := by
  obtain ⟨q,_,inside⟩ := Finset.mem_biUnion.mp member
  obtain ⟨a,pair,known⟩ := ReplicaMerge.adjacencyMem.mp (List.mem_toFinset.mp inside)
  have zipped : (idsFor (kmeansId2partMap b) (entries b q) p).zip
      (listsFor (kmeansId2partMap b) (b.replica q) (entries b q) p) =
      (forPart (kmeansId2partMap b) p (entries b q)).map (fun e => (e.1,e.2.map (globalId (b.replica q)))) := by
    rw [idsFor,listsFor,List.zip_map']
  have pair' : (v,a) ∈ (idsFor (kmeansId2partMap b) (entries b q) p).zip
      (listsFor (kmeansId2partMap b) (b.replica q) (entries b q) p) := pair
  rw [zipped] at pair'
  obtain ⟨e,entry,same⟩ := List.mem_map.mp pair'
  cases same
  have found := (forPartMem.mp entry).1
  exact ⟨q,(entryMem found).1,List.mem_flatMap.mpr ⟨e,found,by rwa [if_pos rfl]⟩⟩

/- The machine of v has all its neighbours. -/
theorem neighboursAll {p : Fin n} {v : Nat} (owned : v ∈ b.noreplica p) :
    ReplicaMerge.neighbours (shardsOf b p) v = unionNeighbours b v := by
  ext u
  constructor
  · intro member
    obtain ⟨q,_,inside⟩ := neighboursOf member
    exact Finset.mem_biUnion.mpr ⟨q,Finset.mem_univ q,List.mem_toFinset.mpr inside⟩
  · intro member
    obtain ⟨q,_,inside⟩ := Finset.mem_biUnion.mp member
    obtain ⟨e,found,known⟩ := List.mem_flatMap.mp (List.mem_toFinset.mp inside)
    split at known
    · rename_i same
      subst same
      refine Finset.mem_biUnion.mpr ⟨q,Finset.mem_univ q,List.mem_toFinset.mpr (ReplicaMerge.adjacencyMem.mpr
        ⟨e.2.map (globalId (b.replica q)),?_,known⟩)⟩
      have entry : e ∈ forPart (kmeansId2partMap b) p (entries b q) := forPartMem.mpr ⟨found,owned⟩
      change _ ∈ (idsFor (kmeansId2partMap b) (entries b q) p).zip
        (listsFor (kmeansId2partMap b) (b.replica q) (entries b q) p)
      rw [idsFor,listsFor,List.zip_map']
      exact List.mem_map_of_mem entry
    · exact absurd known List.not_mem_nil

theorem recordAt {α β : Type} {R : α → β → Prop} {xs : List α} {ys : List β} (all : List.Forall₂ R xs ys) {i : Nat}
    {a : α} {c : β} (left : xs[i]? = some a) (right : ys[i]? = some c) : R a c :=
  (List.forall₂_iff_zip.mp all).2 (List.mem_iff_getElem?.mpr ⟨i,List.getElem?_zip_eq_some.mpr ⟨left,right⟩⟩)

theorem elementAt {maps : PosMaps} {records : List (List Nat)} {vectors : List V} {labels ids : List Nat} {vector : V}
    {i v : Nat} (record : records[i]? = some ids) (at' : vectors[i]? = some vector) (label : labels[i]? = some v) :
    (elementsOf maps records vectors labels)[i]? = some ⟨ids.map maps.label2posMap,vector,v⟩ := by
  have pair : (vectors.zip labels)[i]? = some (vector,v) := List.getElem?_zip_eq_some.mpr ⟨at',label⟩
  have triple : (records.zip (vectors.zip labels))[i]? = some (ids,vector,v) :=
    List.getElem?_zip_eq_some.mpr ⟨record,pair⟩
  rw [elementsOf,List.getElem?_map,triple,Option.map_some]

/- What machine q collects for the others is what their merges read. -/
theorem collectsShards (b : Build n maxVid V) (q : Fin n) : ∃ c : Nat × Buffers n,
    collectReplicaPartition (kmeansId2partMap b) (b.replica q) (words (b.nghs q)) (b.medoid q) = some c ∧
    ∀ p, content (c.2.dispatchIds p) = (shardsOf b p).ids q ∧
      content (c.2.dispatchNghs p) = words ((shardsOf b p).nghs q) := by
  have known : ∀ v ∈ b.replica q, ∃ p, kmeansId2partMap b v = some p := by
    intro v member
    obtain ⟨p,here⟩ := (b.covered v).mp (b.replicaBound q v member)
    exact ⟨p,id2partSome here⟩
  obtain ⟨buffers,collect,parts⟩ := collected (b.aligned q) (b.linked q) (b.inside q) known (b.entry q)
  refine ⟨_,collect,fun p => ?_⟩
  rw [(parts p).1,(parts p).2,contentWhole,contentWhole]
  exact ⟨rfl,rfl⟩

-- The index file that a merge writes.
def mergedFile (maxDegree medoid : Nat) (records : List (List Nat)) : ReplicaMerge.IndexFile :=
  ⟨ReplicaMerge.metadataSize + 4 * (words records).length,maxDegree,medoid,0,words records⟩

/- What machine p merges, and what becomes of it in the b1graph format. -/
structure Transferred (b : Build n maxVid V) (p : Fin n) (maxDegree medoid : Nat) (records : List (List Nat)) : Prop where
  each : List.Forall₂ (ReplicaMerge.RecordOf (shardsOf b p) maxDegree) (b.noreplica p) records
  degrees : ∀ a ∈ records, a.length ≤ maxDegree
  size : (elementsOf (posMaps b) records (b.base p) (b.noreplica p)).length = (b.noreplica p).length
  transfer : transferToB1graphFormat (mergedFile maxDegree medoid records) (posMaps b) (b.base p) (partitionOfs b p)
    maxDegree (b.noreplica p).length = some ⟨(b.noreplica p).length,medoid,
      (elementsOf (posMaps b) records (b.base p) (b.noreplica p)).map some⟩

theorem mergeTransfers (b : Build n maxVid V) (r : ReplicaMerge.Shuffle) (p : Fin n) (maxDegree medoid : Nat)
    (some' : 0 < maxDegree) (small : maxDegree + 1 < 2 ^ 32) : ∃ t records,
    ReplicaMerge.mergeReplicaPartition (ReplicaMerge.parameter (shardsOf b p) maxDegree medoid) r =
      some (mergedFile maxDegree medoid records,t) ∧ Transferred b p maxDegree medoid records := by
  obtain ⟨t,records,merge,all,-⟩ := ReplicaMerge.mergedRecords r (shardsOf b p) maxDegree medoid some'
  rw [verticesOf] at all
  have length : (b.noreplica p).length = records.length := all.length_eq
  have vectors := b.vectors p
  have degrees : ∀ a ∈ records, a.length ≤ maxDegree := by
    intro a member
    obtain ⟨i,found⟩ := List.mem_iff_getElem?.mp member
    have inside : i < (b.noreplica p).length := by
      rw [length]
      exact (List.getElem?_eq_some_iff.mp found).1
    rw [(recordAt all (List.getElem?_eq_getElem inside) found).size]
    exact Nat.min_le_right _ _
  have size : (elementsOf (posMaps b) records (b.base p) (b.noreplica p)).length = (b.noreplica p).length := by
    rw [elementsOf,List.length_map,List.length_zip,List.length_zip]
    omega
  have transfer := @transferAll V (mergedFile maxDegree medoid records) (posMaps b) (b.base p) (partitionOfs b p) records
    (b.noreplica p) rfl rfl degrees small (vectors.trans length) length (fun i less => labelAt b p (by rw [length]; exact less))
  rw [← length] at transfer
  exact ⟨t,records,merge,all,degrees,size,transfer⟩

theorem buildAlignment (b : Build n maxVid V) (r : Fin n → ReplicaMerge.Shuffle) (maxDegree : Nat)
    (some' : 0 < maxDegree) (small : maxDegree + 1 < 2 ^ 32) :
    ∃ c : Fin n → Nat × Buffers n,
      (∀ q, collectReplicaPartition (kmeansId2partMap b) (b.replica q) (words (b.nghs q)) (b.medoid q) = some (c q)) ∧
      ∀ unset acts s, run (ReplicaDispatch.step (dispatchOf c)) (ReplicaDispatch.start unset) acts = some s →
        ∀ p, (s.machine p).stage = .turn n → ∃ file t, ∃ elements : List (Element V),
          ReplicaMerge.mergeReplicaPartition (mergeParameter maxVid (s.machine p) maxDegree (c p).1) (r p) =
            some (file,t) ∧
          transferToB1graphFormat file (posMaps b) (b.base p) (partitionOfs b p) maxDegree (b.noreplica p).length =
            some ⟨(b.noreplica p).length,(c p).1,elements.map some⟩ ∧
          elements.length = (b.noreplica p).length ∧
          ∀ i v : Nat, (b.noreplica p)[i]? = some v → ∃ e : Element V, ∃ ids : List Nat, elements[i]? = some e ∧ e.label = v ∧
            (b.base p)[i]? = some e.vector ∧ e.nghs = ids.map (posMaps b).label2posMap ∧ ids.Nodup ∧
            ids.length = min (unionNeighbours b v).card maxDegree ∧
            ∀ u ∈ ids, ∃ q, v ∈ b.replica q ∧ u ∈ shardNeighbours b q v := by
  choose c collect parts using collectsShards b
  refine ⟨c,collect,fun unset acts s ok p stage => ?_⟩
  have received := ReplicaDispatch.received ok (p := p) (by rw [stage]; exact p.isLt)
  have arrays : mergeParameter maxVid (s.machine p) maxDegree (c p).1 =
      ReplicaMerge.parameter (shardsOf b p) maxDegree (c p).1 := by
    rw [mergeParameter,ReplicaMerge.parameter]
    congr 1
    · funext q
      rw [(received q).1,contentComplete]
      exact (parts q p).1
    · funext q
      rw [(received q).2,contentComplete]
      exact (parts q p).2
  obtain ⟨t,records,merge,moved⟩ := mergeTransfers b (r p) p maxDegree (c p).1 some' small
  refine ⟨mergedFile maxDegree (c p).1 records,t,elementsOf (posMaps b) records (b.base p) (b.noreplica p),?_,
    moved.transfer,moved.size,fun i v found => ?_⟩
  · rw [arrays]
    exact merge
  · have inside := (List.getElem?_eq_some_iff.mp found).1
    have listed : i < records.length := moved.each.length_eq ▸ inside
    have bound : i < (b.base p).length := (b.vectors p).symm ▸ inside
    have nghs := List.getElem?_eq_getElem listed
    have vector := List.getElem?_eq_getElem bound
    have record := recordAt moved.each found nghs
    exact ⟨_,records[i],elementAt nghs vector found,rfl,vector,rfl,record.distinct,
      neighboursAll (List.mem_of_getElem? found) ▸ record.size,fun u member => neighboursOf (record.known u member)⟩

def twoBuild : Build 2 3 Nat where
  noreplica := fun p => if p = 0 then [0,2] else [1]
  replica := fun q => if q = 0 then [0,1,2] else [0,1]
  nghs := fun q => if q = 0 then [[1],[2],[0,1]] else [[1],[0]]
  medoid := fun _ => 0
  base := fun p => if p = 0 then [10,12] else [11]
  nonempty := by decide
  ascending := by decide
  disjoint := by decide
  covered := by
    intro v
    have both : (∃ p : Fin 2, v ∈ if p = 0 then [0,2] else [1]) ↔ v ∈ [0,2] ∨ v ∈ [1] := by
      rw [Fin.exists_fin_two]
      rfl
    rw [both]
    simp only [List.mem_cons,List.not_mem_nil,or_false]
    omega
  replicaAscending := by decide
  replicaBound := by decide
  contained := by decide
  aligned := by decide
  linked := by decide
  inside := by decide
  entry := by decide
  vectors := by decide
  fits := by decide

def twoActs : List (ReplicaDispatch.Act 2) :=
  [.advance 0,.advance 1,.advance 1,.advance 1,.advance 1,.advance 1,.deliver 1 0,.deliver 1 0,.deliver 1 0,.poll 0,
    .advance 0,.advance 0,.advance 0,.advance 0,.advance 0,.advance 0,.advance 0,.advance 0,.advance 1,.deliver 0 1,
    .deliver 0 1,.deliver 0 1,.poll 1,.advance 1,.advance 1,.advance 1]

def unset : ReplicaDispatch.Collect := ⟨false,⟨0,0,[]⟩,⟨0,0,[]⟩⟩

theorem buildAlignmentTwo : ∃ c s file t, ∃ elements : List (Element Nat),
    run (ReplicaDispatch.step (dispatchOf c)) (ReplicaDispatch.start (fun _ _ => unset)) twoActs = some s ∧
    ReplicaMerge.mergeReplicaPartition (mergeParameter 3 (s.machine 0) 4 (c 0).1) ReplicaMerge.keepOrder = some (file,t) ∧
    transferToB1graphFormat file (posMaps twoBuild) [10,12] (partitionOfs twoBuild 0) 4 2 =
      some ⟨2,(c 0).1,elements.map some⟩ ∧ elements.map (fun e => (e.label,e.vector)) = [(0,10),(2,12)] ∧
    elements.map (fun e => e.nghs.length) = [1,2] ∧ ∀ e ∈ elements.head?, e.nghs = [2] := by
  obtain ⟨c,collect,aligned⟩ := buildAlignment twoBuild (fun _ => ReplicaMerge.keepOrder) 4 (by decide) (by decide)
  have known : c = fun q => (collectReplicaPartition (kmeansId2partMap twoBuild) (twoBuild.replica q)
      (words (twoBuild.nghs q)) (twoBuild.medoid q)).getD (0,⟨0,fun _ => ⟨0,0,[]⟩,fun _ => ⟨0,0,[]⟩⟩) := by
    funext q
    rw [collect q,Option.getD_some]
  have runs : (run (ReplicaDispatch.step (dispatchOf c)) (ReplicaDispatch.start (fun _ _ => unset)) twoActs).map
      (fun s => (s.machine 0).stage) = some (.turn 2) := by
    rw [known]
    decide +kernel
  obtain ⟨s,ok,stage⟩ := Option.map_eq_some_iff.mp runs
  obtain ⟨file,t,elements,merge,transfer,length,all⟩ := aligned _ _ s ok 0 stage
  refine ⟨c,s,file,t,elements,ok,merge,transfer,?_⟩
  obtain ⟨e,ids,first,label,vector,nghs,_,size,known'⟩ := all 0 0 rfl
  obtain ⟨e',ids',second,label',vector',nghs',_,size',_⟩ := all 1 2 rfl
  have union : unionNeighbours twoBuild 0 = {1} ∧ unionNeighbours twoBuild 2 = {0,1} := by decide +kernel
  rw [union.1] at size
  rw [union.2] at size'
  have one : ids = [1] := by
    obtain ⟨u,rfl⟩ := List.length_eq_one_iff.mp size
    obtain ⟨q,_,inside⟩ := known' u List.mem_cons_self
    have member : u ∈ unionNeighbours twoBuild 0 :=
      Finset.mem_biUnion.mpr ⟨q,Finset.mem_univ q,List.mem_toFinset.mpr inside⟩
    rw [union.1,Finset.mem_singleton] at member
    rw [member]
  match elements, length with
  | [a,a'], _ =>
    cases first
    cases second
    have ten : e.vector = 10 := (Option.some.inj vector).symm
    have twelve : e'.vector = 12 := (Option.some.inj vector').symm
    refine ⟨by rw [List.map_cons,List.map_cons,label,label',ten,twelve]; rfl,?_,?_⟩
    · rw [List.map_cons,List.map_cons,nghs,nghs',List.length_map,List.length_map,size,size']
      rfl
    · rintro e ⟨⟩
      rw [nghs,one]
      decide +kernel

end Align

end CoTra.BuildAlignment
