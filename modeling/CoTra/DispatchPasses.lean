import CoTra.BuildAlignment

/-! The two passes of collect_replica_partition over the index of a shard. The first counts
the words for each machine, the second fills blocks of that size, each with its own cursor. -/
namespace CoTra.DispatchPasses
open AdjacencyWords BuildAlignment ReplicaDispatch

/- The index of a shard: the neighbours of each vertex by their position in local_replica_ids. -/
structure ShardGraph where
  localReplicaIds : List Nat
  nghs : List (List Nat)
  medoid : Nat
  ascending : localReplicaIds.Pairwise (· < ·)
  aligned : localReplicaIds.length = nghs.length
  linked : ∀ a ∈ nghs, a ≠ []
  inside : ∀ a ∈ nghs, ∀ j ∈ a, j < localReplicaIds.length
  entry : medoid < localReplicaIds.length

variable {n : Nat}

namespace ShardGraph

def file (s : ShardGraph) : List Nat := words s.nghs

-- The vertices that machine p owns, with their local neighbours.
def dispatched (s : ShardGraph) (assign : Nat → Fin n) (p : Fin n) : List (Nat × List Nat) :=
  (s.localReplicaIds.zip s.nghs).filter (fun e => assign e.1 = p)

def record (s : ShardGraph) (e : Nat × List Nat) : List Nat := e.2.length :: e.2.map (globalId s.localReplicaIds)

end ShardGraph

/- The block is as long as was counted, the cursor is at its end and no word is unwritten. -/
structure FilledTo (part : Part) (num : Nat) (content : List Nat) : Prop where
  length : content.length = num
  size : part.num = num
  cursor : part.cnt = num
  block : part.block = content.map some

section Passes

variable {s : ShardGraph} {assign : Nat → Fin n}

theorem wholeFilled {num : Nat} {content : List Nat} (length : content.length = num) :
    FilledTo (whole content) num content := ⟨length,length,length,rfl⟩

theorem dispatchedIds (p : Fin n) :
    idsFor (fun v => some (assign v)) (s.localReplicaIds.zip s.nghs) p = (s.dispatched assign p).map Prod.fst := by
  simp only [idsFor,forPart,ShardGraph.dispatched,Option.some.injEq]

theorem dispatchedWords (p : Fin n) : words (listsFor (fun v => some (assign v)) s.localReplicaIds
    (s.localReplicaIds.zip s.nghs) p) = (s.dispatched assign p).flatMap s.record := by
  simp only [words,listsFor,forPart,ShardGraph.dispatched,Option.some.injEq,List.flatMap_map,List.length_map]
  rfl

theorem dispatchedAscending (s : ShardGraph) (assign : Nat → Fin n) (p : Fin n) :
    ((s.dispatched assign p).map Prod.fst).Pairwise (· < ·) := by
  have all : (s.localReplicaIds.zip s.nghs).map Prod.fst = s.localReplicaIds := List.map_fst_zip s.aligned.le
  have fewer : ((s.dispatched assign p).map Prod.fst).Sublist s.localReplicaIds := by
    rw [← all]
    exact List.filter_sublist.map Prod.fst
  exact s.ascending.sublist fewer

theorem memDispatched (p : Fin n) {v : Nat} :
    v ∈ (s.dispatched assign p).map Prod.fst ↔ v ∈ s.localReplicaIds ∧ assign v = p := by
  have all : (s.localReplicaIds.zip s.nghs).map Prod.fst = s.localReplicaIds := List.map_fst_zip s.aligned.le
  constructor
  · intro member
    obtain ⟨e,among,rfl⟩ := List.mem_map.mp member
    obtain ⟨inside,owner⟩ := List.mem_filter.mp among
    exact ⟨all ▸ List.mem_map_of_mem inside,of_decide_eq_true owner⟩
  · rintro ⟨member,owner⟩
    rw [← all] at member
    obtain ⟨e,among,rfl⟩ := List.mem_map.mp member
    exact List.mem_map_of_mem (List.mem_filter.mpr ⟨among,decide_eq_true owner⟩)

/- What the first pass counts. -/
theorem countPass (s : ShardGraph) (assign : Nat → Fin n) :
    s.localReplicaIds.foldlM (countOne (fun v => some (assign v)) s.file) ⟨0,fun _ => 0,fun _ => 0⟩ =
      some ⟨s.file.length,fun p => ((s.dispatched assign p).map Prod.fst).length,
        fun p => ((s.dispatched assign p).flatMap s.record).length⟩ := by
  have ids : (s.localReplicaIds.zip s.nghs).map Prod.fst = s.localReplicaIds := List.map_fst_zip s.aligned.le
  have nodes : (s.localReplicaIds.zip s.nghs).map Prod.snd = s.nghs := List.map_snd_zip s.aligned.ge
  have counts := @countLoop n (fun v => some (assign v)) s.localReplicaIds [] (s.localReplicaIds.zip s.nghs)
    (fun e member => s.linked e.2 (List.of_mem_zip (show (e.1,e.2) ∈ _ from member)).2) (fun e _ => ⟨assign e.1,rfl⟩)
  rw [List.nil_append,ids,nodes] at counts
  have start : counted (fun v => some (assign v)) s.localReplicaIds [] = ⟨0,fun _ => 0,fun _ => 0⟩ := rfl
  rw [start] at counts
  refine counts.trans (congrArg some ?_)
  simp only [counted,nodes,dispatchedIds,dispatchedWords,ShardGraph.file]

end Passes

theorem passesAgree {n : Nat} (s : ShardGraph) (assign : Nat → Fin n) : ∃ counts buffers,
    s.localReplicaIds.foldlM (countOne (fun v => some (assign v)) s.file) ⟨0,fun _ => 0,fun _ => 0⟩ = some counts ∧
    collectReplicaPartition (fun v => some (assign v)) s.localReplicaIds s.file s.medoid =
      some (globalId s.localReplicaIds s.medoid,buffers) ∧
    (∀ p, FilledTo (buffers.dispatchIds p) (counts.dispatchIdNum p) ((s.dispatched assign p).map Prod.fst) ∧
      FilledTo (buffers.dispatchNghs p) (counts.dispatchNghNum p) ((s.dispatched assign p).flatMap s.record) ∧
      ((s.dispatched assign p).map Prod.fst).Pairwise (· < ·)) ∧
    (∀ v ∈ s.localReplicaIds, ∀ p, v ∈ (s.dispatched assign p).map Prod.fst ↔ p = assign v) ∧
    ∀ a ∈ s.nghs, ∀ j ∈ a, s.localReplicaIds[j]? = some (globalId s.localReplicaIds j) := by
  obtain ⟨buffers,done,content⟩ := @collected n (fun v => some (assign v)) s.localReplicaIds s.nghs s.medoid s.aligned
    s.linked s.inside (fun v _ => ⟨assign v,rfl⟩) s.entry
  refine ⟨_,buffers,countPass s assign,done,fun p => ⟨?_,?_,dispatchedAscending s assign p⟩,fun v member p => ?_,
    fun a among j edge => ?_⟩
  · rw [(content p).1,dispatchedIds]
    exact wholeFilled rfl
  · rw [(content p).2,dispatchedWords]
    exact wholeFilled rfl
  · rw [memDispatched,and_iff_right member,eq_comm]
  · rw [globalId,List.getElem?_eq_getElem (s.inside a among j edge),Option.getD_some]

/- Three vertices of a shard, the middle one for machine 1. -/
def threeShard : ShardGraph where
  localReplicaIds := [4,7,9]
  nghs := [[1,2],[0],[1]]
  medoid := 1
  ascending := by decide
  aligned := rfl
  linked := by decide
  inside := by decide
  entry := by decide

example : (collectReplicaPartition (fun v => some (if v = 7 then (1 : Fin 2) else 0)) threeShard.localReplicaIds
    threeShard.file 1).map (fun c => ((c.2.dispatchIds 0).block,(c.2.dispatchNghs 0).block,(c.2.dispatchNghs 1).block)) =
    some ([some 4,some 9],[some 2,some 7,some 9,some 1,some 7],[some 1,some 4]) := by decide

end CoTra.DispatchPasses
