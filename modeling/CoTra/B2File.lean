import CoTra.B1File

/-! The b2graph file of one machine (scala_build.h: trans_to_b2graph; b1_graph.h: VamanaIndex). The
graph that the machine built over its own vectors becomes elements of the same layout as a
b1graph file's, with the neighbours as they are. `none` is a call of abort. -/
namespace CoTra.B2File
open Memory AdjacencyWords BuildAlignment B1File

section Trans

variable (x : Shape) (base : List (List Nat)) (nelems : Nat)

/- One node. At the end of the graph the degree stays 0, the neighbours that are not there stay 0,
and a vector that is not there leaves the block as it was. -/
def transOne (internalId nodeId : Nat) (graph : List Nat) (mem : Mem) : Option (List Nat × Mem) :=
  match graph with
  | [] => none
  | degree :: rest =>
    if degree = 0 ∨ x.maxDegree < degree then none
    else
      let shardNhood := rest.takeD degree 0
      if ∀ u ∈ shardNhood, u < nelems then
        some (rest.drop degree,writeElement x mem (headerSize + internalId * eleSize x)
          ⟨shardNhood,(base[internalId]?).getD [],nodeId⟩)
      else none

def transLoop : List Nat → Nat → List Nat → Mem → Option Mem
  | [], _, _, mem => some mem
  | nodeId :: ids, internalId, graph, mem =>
    (transOne x base nelems internalId nodeId graph mem).bind (fun next => transLoop ids (internalId + 1) next.1 next.2)

end Trans

/- The file, written in blocks of 64 MB. -/
def transToB2graph (x : Shape) (file : ReplicaMerge.IndexFile) (ids : List Nat) (base : List (List Nat)) (vecNum : Nat)
    (malloc : Mem) (writeBlkSize : Nat) : Option (List Nat) :=
  if vecNum ≠ ids.length then none
  else (transLoop x base ids.length ids 0 file.nghs
    (memcpy (memcpy malloc 0 (leBytes 8 vecNum)) 8 (leBytes 4 file.medoid))).map (fun mem =>
      let graph := (List.range (headerSize + eleSize x * vecNum)).map mem
      (List.range (numBlocks graph.length writeBlkSize)).flatMap
        (fun i => (graph.drop (i * writeBlkSize)).take (curBlockSize graph.length writeBlkSize i)))

variable {x : Shape} {base : List (List Nat)} {nelems : Nat} {ids : List Nat} {lists : List (List Nat)} {mem mem' : Mem}

/- A list of neighbours that the transformation takes. -/
def Accepted (x : Shape) (nelems : Nat) (a : List Nat) : Prop :=
  a ≠ [] ∧ a.length ≤ x.maxDegree ∧ ∀ u ∈ a, u < nelems

def elementAt (base : List (List Nat)) (internalId : Nat) (a : List Nat) (nodeId : Nat) : Element (List Nat) :=
  ⟨a,(base[internalId]?).getD [],nodeId⟩

def elements (base : List (List Nat)) : Nat → List (List Nat) → List Nat → List (Element (List Nat))
  | internalId, a :: lists, nodeId :: ids => elementAt base internalId a nodeId :: elements base (internalId + 1) lists ids
  | _, _, _ => []

theorem transOneIff {internalId nodeId : Nat} {a rest : List Nat} {next : List Nat × Mem} :
    transOne x base nelems internalId nodeId (a.length :: (a ++ rest)) mem = some next ↔ Accepted x nelems a ∧
      next = (rest,writeElement x mem (headerSize + internalId * eleSize x) (elementAt base internalId a nodeId)) := by
  have whole : (a ++ rest).takeD a.length 0 = a := List.takeD_left a rest 0
  have left : (a ++ rest).drop a.length = rest := List.drop_left
  simp only [transOne,whole,left]
  constructor
  · intro found
    split at found
    · cases found
    · rename_i degree
      split at found
      · rename_i inside
        cases found
        exact ⟨⟨fun none' => degree (Or.inl (none' ▸ rfl)),Nat.not_lt.mp (fun more => degree (Or.inr more)),inside⟩,rfl⟩
      · cases found
  · rintro ⟨⟨some',degree,inside⟩,rfl⟩
    rw [if_neg (not_or.mpr ⟨fun none' => some' (List.length_eq_zero_iff.mp none'),Nat.not_lt.mpr degree⟩),if_pos inside]
    rfl

theorem transCons {internalId nodeId : Nat} {a : List Nat} (accepted : Accepted x nelems a) :
    transLoop x base nelems (nodeId :: ids) internalId (words (a :: lists)) mem =
      transLoop x base nelems ids (internalId + 1) (words lists)
        (writeElement x mem (headerSize + internalId * eleSize x) (elementAt base internalId a nodeId)) := by
  rw [wordsCons,transLoop,transOneIff.mpr ⟨accepted,rfl⟩,Option.bind_some]

/- The loop goes through only when each list is taken. -/
theorem transTaken (long : lists.length = ids.length) {internalId : Nat}
    (done : transLoop x base nelems ids internalId (words lists) mem = some mem') : ∀ a ∈ lists, Accepted x nelems a := by
  induction ids generalizing lists internalId mem with
  | nil =>
    cases List.length_eq_zero_iff.mp long
    exact List.forall_mem_nil _
  | cons nodeId ids ih =>
    cases lists with
    | nil => cases long
    | cons a lists =>
      rw [wordsCons,transLoop] at done
      obtain ⟨next,one,more⟩ := Option.bind_eq_some_iff.mp done
      obtain ⟨taken,rfl⟩ := transOneIff.mp one
      exact List.forall_mem_cons.mpr ⟨taken,ih (Nat.succ.inj long) more⟩

theorem elementFits {internalId nodeId : Nat} {a : List Nat} (accepted : Accepted x nelems a)
    (sized : ∀ vector ∈ base, vector.length = x.vecSize) (room : internalId < base.length) :
    Fits x (elementAt base internalId a nodeId) := by
  refine ⟨accepted.2.1,?_⟩
  rw [elementAt,List.getElem?_eq_getElem room,Option.getD_some]
  exact sized _ (List.getElem_mem room)

/- It leaves every element in its place, and what is before them as it was. -/
theorem transLays (long : lists.length = ids.length) (sized : ∀ vector ∈ base, vector.length = x.vecSize) {internalId : Nat}
    (room : internalId + ids.length ≤ base.length) (all : ∀ a ∈ lists, Accepted x nelems a) :
    ∃ mem', transLoop x base nelems ids internalId (words lists) mem = some mem' ∧
      (∀ j, j < headerSize + internalId * eleSize x → mem' j = mem j) ∧
      ∀ i e, (elements base internalId lists ids)[i]? = some e →
        Fits x e ∧ Lies x mem' (headerSize + (internalId + i) * eleSize x) e := by
  induction ids generalizing lists internalId mem with
  | nil =>
    cases List.length_eq_zero_iff.mp long
    exact ⟨mem,rfl,fun _ _ => rfl,fun i e no => by cases no⟩
  | cons nodeId ids ih =>
    cases lists with
    | nil => cases long
    | cons a lists =>
      obtain ⟨first,later⟩ := List.forall_mem_cons.mp all
      rw [List.length_cons] at room
      have fits : Fits x (elementAt base internalId a nodeId) := elementFits first sized (by omega)
      have behind : (internalId + 1) * eleSize x = internalId * eleSize x + eleSize x := Nat.succ_mul ..
      obtain ⟨mem',loop,kept,lies⟩ := @ih lists (writeElement x mem (headerSize + internalId * eleSize x)
        (elementAt base internalId a nodeId)) (Nat.succ.inj long) (internalId + 1) (by omega) later
      refine ⟨mem',(transCons first).trans loop,fun j before => ?_,fun i e found => ?_⟩
      · exact (kept j (by omega)).trans (writeElementAway fits (Or.inl before))
      · cases i with
        | zero =>
          cases found
          have lies' : Lies x mem' (headerSize + internalId * eleSize x) (elementAt base internalId a nodeId) :=
            liesAgree fits (writeElementLies fits) (fun j _ upper => kept j (by omega))
          exact ⟨fits,lies'⟩
        | succ i =>
          have same : internalId + (i + 1) = internalId + 1 + i := by omega
          rw [same]
          exact lies i e found

/- The blocks are the graph. -/
theorem blocksFlat {blkSize : Nat} (positive : 0 < blkSize) (graph : List Nat) :
    (List.range (numBlocks graph.length blkSize)).flatMap
      (fun i => (graph.drop (i * blkSize)).take (curBlockSize graph.length blkSize i)) = graph := by
  have first : ∀ k, (List.range k).flatMap
      (fun i => (graph.drop (i * blkSize)).take (curBlockSize graph.length blkSize i)) = graph.take (k * blkSize) := by
    intro k
    induction k with
    | zero => rw [Nat.zero_mul]; rfl
    | succ k ih => rw [List.range_succ,List.flatMap_append,ih,List.flatMap_singleton,blockNext]
  rw [first,blocksWhole positive]

theorem elementsGet (long : lists.length = ids.length) (internalId i : Nat) : (elements base internalId lists ids)[i]? =
    (lists[i]?).bind (fun a => (ids[i]?).map (elementAt base (internalId + i) a)) := by
  induction ids generalizing lists internalId i with
  | nil =>
    cases List.length_eq_zero_iff.mp long
    rfl
  | cons nodeId ids ih =>
    cases lists with
    | nil => cases long
    | cons a lists =>
      cases i with
      | zero => rfl
      | succ i =>
        rw [elements,List.getElem?_cons_succ,ih (Nat.succ.inj long),List.getElem?_cons_succ,List.getElem?_cons_succ,
          Nat.add_right_comm]
        rfl

theorem elementsLength (base : List (List Nat)) (long : lists.length = ids.length) (internalId : Nat) :
    (elements base internalId lists ids).length = ids.length := by
  induction ids generalizing lists internalId with
  | nil =>
    cases List.length_eq_zero_iff.mp long
    rfl
  | cons nodeId ids ih =>
    cases lists with
    | nil => cases long
    | cons a lists => rw [elements,List.length_cons,ih (Nat.succ.inj long),List.length_cons]

/- The graph of a machine is made into a file when each of its lists is one that the search can
follow, and then the search reads at each place the label, the vector and the list that were there. -/
theorem localGraph (file : ReplicaMerge.IndexFile) (malloc malloc' : Mem) (vecNum : Nat) {blkSize : Nat}
    (graph : file.nghs = words lists) (long : lists.length = ids.length) (vectors : base.length = ids.length)
    (sized : ∀ vector ∈ base, vector.length = x.vecSize) (few : ids.length < 2 ^ 32) (labels : ∀ v ∈ ids, v < 2 ^ 32)
    (short : x.maxDegree < 2 ^ 16) (word : file.medoid < 2 ^ 32) (positive : 0 < blkSize) :
    ((transToB2graph x file ids base vecNum malloc blkSize).isSome ↔
      vecNum = ids.length ∧ ∀ a ∈ lists, Accepted x ids.length a) ∧
    ∀ b2, transToB2graph x file ids base vecNum malloc blkSize = some b2 →
      (loadIndex x malloc' b2).maxElements = ids.length ∧ (loadIndex x malloc' b2).enterpointNode = file.medoid ∧
      ∀ i v, ids[i]? = some v → ∃ a vector, lists[i]? = some a ∧ base[i]? = some vector ∧
        Read (x := x) (loadIndex x malloc' b2) i ⟨a,vector,v⟩ := by
  rw [transToB2graph,graph]
  by_cases same : vecNum = ids.length
  · rw [if_neg (not_not.mpr same),same]
    constructor
    · rw [Option.isSome_map]
      constructor
      · intro some'
        obtain ⟨mem',loop⟩ := Option.isSome_iff_exists.mp some'
        exact ⟨rfl,transTaken long loop⟩
      · rintro ⟨-,all⟩
        obtain ⟨mem',loop,-⟩ := transLays long sized (Nat.le_of_eq ((Nat.zero_add _).trans vectors.symm)) all
        rw [loop]
        rfl
    · intro b2 made
      obtain ⟨mem',loop,rfl⟩ := Option.map_eq_some_iff.mp made
      have all := transTaken long loop
      obtain ⟨mem'',loop',kept,lies⟩ := transLays long sized (Nat.le_of_eq ((Nat.zero_add _).trans vectors.symm)) all
      cases loop.symm.trans loop'
      have count := elementsLength base long 0
      have front : Stored mem' 0 (leBytes 8 (elements base 0 lists ids).length ++ leBytes 4 file.medoid) :=
        count.symm ▸ frontStored (fun i before => kept i (by rw [Nat.zero_mul]; exact before))
      have part := blockPart front (fun i e found => Nat.zero_add i ▸ lies i e found)
      rw [count] at part
      obtain ⟨number,entry,reads⟩ := loadPart malloc' part (count.symm ▸ few.trans (by decide)) word
      simp only [blocksFlat positive]
      refine ⟨number.trans count,entry,fun i v found => ?_⟩
      have inside := (List.getElem?_eq_some_iff.mp found).1
      obtain ⟨a,list⟩ : ∃ a, lists[i]? = some a := ⟨_,List.getElem?_eq_getElem (long.symm ▸ inside)⟩
      obtain ⟨vector,data⟩ : ∃ vector, base[i]? = some vector := ⟨_,List.getElem?_eq_getElem (vectors.symm ▸ inside)⟩
      have accepted := all a (List.mem_of_getElem? list)
      have here : (elements base 0 lists ids)[i]? = some ⟨a,vector,v⟩ := by
        rw [elementsGet long,list,found,Option.bind_some,Option.map_some,elementAt,Nat.zero_add,data,Option.getD_some]
      exact ⟨a,vector,list,data,reads i _ here ⟨accepted.2.1.trans_lt short,fun u member => (accepted.2.2 u member).trans few,
        (labels v (List.mem_of_getElem? found)).trans (by decide)⟩⟩
  · rw [if_pos same]
    exact ⟨⟨(fun no => by cases no),fun known => absurd known.1 same⟩,fun _ no => by cases no⟩

theorem localGraphTwo : ∃ b2, transToB2graph ⟨4,1⟩ ⟨40,4,1,0,words [[1],[0]]⟩ [7,3] [[10],[20]] 2 (fun _ => 9) 5 = some b2 ∧
    Read (x := ⟨4,1⟩) (loadIndex ⟨4,1⟩ (fun _ => 0) b2) 0 ⟨[1],[10],7⟩ := by
  have both := @localGraph ⟨4,1⟩ [[10],[20]] [7,3] [[1],[0]] ⟨40,4,1,0,words [[1],[0]]⟩ (fun _ => 9) (fun _ => 0) 2 5
    rfl rfl rfl (by decide) (by decide) (by decide) (by decide) (by decide) (by decide)
  obtain ⟨b2,made⟩ := Option.isSome_iff_exists.mp (both.1.mpr ⟨rfl,by unfold Accepted; decide⟩)
  obtain ⟨a,vector,list,data,reads⟩ := (both.2 b2 made).2.2 0 7 rfl
  cases list
  cases data
  exact ⟨b2,made,reads⟩

end CoTra.B2File
