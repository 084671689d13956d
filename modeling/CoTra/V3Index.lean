import CoTra.Memory
import Mathlib.Data.List.FinRange
import Mathlib.Data.List.Nodup
import Mathlib.Data.List.Count
import Mathlib.Data.List.OfFn
import Mathlib.Algebra.BigOperators.Group.List.Basic

/-! The distributed V3 index builder (scala_build.cc: transfer_to_scala_v3, and
swap_scala_index_meta_info of rdma_comm.cc). Every machine counts the neighbours
it keeps in another machine's file, exchanges the counts, lays the files out and
writes one slot per local vertex. Aborts are `none`. -/
namespace CoTra.V3Index
open Memory

def inlineDegBar : Nat := 2
def indexMetaLen : Nat := 4*4 + 2*8

def cumupsize {n : Nat} (size : Fin n → Nat) : Nat → Nat
  | 0 => 0
  | p+1 => cumupsize size p + if h : p < n then size ⟨p,h⟩ else 0

/- One b1graph per machine: a row of at most max_degree neighbours for each local
vertex, every neighbour an id of the whole graph, ids in 32 bits. -/
structure GraphParts (n : Nat) where
  partitionSize : Fin n → Nat
  maxDegree : Nat
  medoid : Nat
  rows : Fin n → List (List Nat)
  rowsLength : ∀ p, (rows p).length = partitionSize p
  degree : ∀ p, ∀ row ∈ rows p, row.length ≤ maxDegree
  target : ∀ p, ∀ row ∈ rows p, ∀ v ∈ row, v < cumupsize partitionSize n
  total : cumupsize partitionSize n < 2^32

variable {n : Nat} (g : GraphParts n)

def judgePartition (vid : Nat) : Option (Fin n) :=
  (List.finRange n).find? (fun p => decide (vid < cumupsize g.partitionSize (p.val+1)))

def localNghEleSize : Nat := g.maxDegree*4 + n*2

def nghs (row : List Nat) (q : Fin n) : List Nat := row.filter (fun v => judgePartition g v = some q)

def cnt (row : List Nat) (q : Fin n) : Nat := row.countP (fun v => judgePartition g v = some q)

/- Step 0, one vertex: neighbours beyond the inlining bar go to the other's file. -/
def countRow (me : Fin n) (num : Fin n → Nat) (row : List Nat) : Fin n → Nat :=
  fun p => if inlineDegBar < cnt g row p ∧ p ≠ me then num p + cnt g row p else num p

def outRemoteNghNum (me : Fin n) : Fin n → Nat := (g.rows me).foldl (countRow g me) (fun _ => 0)

/- Step 1. The own row is a placeholder of zeros; the row of a sender is pushed
back when its SCALA_META message is taken from the queue. -/
def recvScalaMeta (table : Fin n → List Nat) (sender : Fin n) (inNghNum : List Nat) : Fin n → List Nat :=
  Function.update table sender (table sender ++ inNghNum)

def swapScalaIndexMetaInfo (me : Fin n) (arrivals : List (Fin n)) : Fin n → List Nat :=
  arrivals.foldl (fun table m => recvScalaMeta table m (List.ofFn (outRemoteNghNum g m)))
    (Function.update (fun _ => []) me (List.replicate n 0))

-- in_remote_ngh_num[q][p]
def cell (table : Fin n → List Nat) (q p : Nat) : Nat :=
  if h : q < n then (table ⟨q,h⟩).getD p 0 else 0

def allInRemoteNghNum (me : Fin n) (table : Fin n → List Nat) : Option Nat :=
  (List.finRange n).foldlM (fun total (i : Fin n) =>
    if i = me then (if cell table i i ≠ 0 then none else some total) else some (total + cell table i me)) 0

def localNghSize (me : Fin n) : Nat := g.partitionSize me * localNghEleSize g

def expectIndexSize (me : Fin n) (allIn : Nat) : Nat := indexMetaLen + localNghSize g me + allIn*4

/- Step 2. -/
def outRemoteNghStartOfs (me : Fin n) (table : Fin n → List Nat) (p : Fin n) : Nat :=
  (List.range me).foldl (fun ofs q => ofs + cell table q p * 4) (g.partitionSize p * localNghEleSize g)

def inRemoteNghStartOfs (me : Fin n) (table : Fin n → List Nat) : Nat → Nat
  | 0 => indexMetaLen + g.partitionSize me * localNghEleSize g
  | q+1 => inRemoteNghStartOfs me table q + cell table q me * 4

/- Step 3. Remote parts in ascending order, the local part last. -/
def partIds (me : Fin n) (row : List Nat) : List (Fin n) :=
  (List.finRange n).filter (fun q => 0 < (nghs g row q).length ∧ q ≠ me) ++
    if 0 < (nghs g row me).length then [me] else []

def recordMsg (last : Bool) (me q : Fin n) (size : Nat) : Nat :=
  let endFlag := if last then (if q = me then 1 <<< 15 ||| 1 <<< 14 else 1 <<< 15) else 0
  (endFlag ||| q.val <<< 8 ||| size) % 2^16

/- The bytes of a slot so far, and what has been written to out_remote_ngh_ptr[q]. -/
structure Slot (n : Nat) where
  bytes : List Nat
  out : Fin n → List Nat

def writeRecord (me : Fin n) (startOfs : Fin n → Nat) (row : List Nat) (last : Bool) (q : Fin n) (w : Slot n) :
    Option (Slot n) :=
  let ids := nghs g row q
  let head := w.bytes ++ leBytes 2 (recordMsg last me q ids.length)
  let next : Slot n :=
    if q ≠ me then
      if ids.length ≤ inlineDegBar then ⟨head ++ wordBytes ids,w.out⟩
      else ⟨head ++ leBytes 8 (startOfs q + 4*(w.out q).length),Function.update w.out q (w.out q ++ ids)⟩
    else ⟨head ++ wordBytes ids,w.out⟩
  if localNghEleSize g < next.bytes.length then none else some next

def writeRecords (me : Fin n) (startOfs : Fin n → Nat) (row : List Nat) : List (Fin n) → Slot n → Option (Slot n)
  | [], w => some w
  | q :: rest, w => (writeRecord g me startOfs row rest.isEmpty q w).bind (writeRecords me startOfs row rest)

structure Build (n : Nat) where
  index : Mem
  localNghOfs : Nat
  out : Fin n → List Nat

def writeHeader (me : Fin n) (allIn : Nat) (malloc : Mem) : Build n :=
  ⟨memcpy malloc 0 (leBytes 4 me ++ leBytes 4 n ++ leBytes 4 (g.partitionSize me) ++ leBytes 4 (localNghEleSize g) ++
    leBytes 8 g.medoid ++ leBytes 8 allIn),indexMetaLen,fun _ => []⟩

def writeRow (me : Fin n) (startOfs : Fin n → Nat) (b : Build n) (row : List Nat) : Option (Build n) := do
  let w ← writeRecords g me startOfs row (partIds g me row) ⟨[],b.out⟩
  some ⟨memcpy b.index b.localNghOfs w.bytes,b.localNghOfs + localNghEleSize g,w.out⟩

def writeLocal (me : Fin n) (table : Fin n → List Nat) (allIn : Nat) (malloc : Mem) : Option (Build n) :=
  (g.rows me).foldlM (writeRow g me (outRemoteNghStartOfs g me table)) (writeHeader g me allIn malloc)

/- Step 4, after the exchange: the size check. -/
def actualSize (me : Fin n) (table : Fin n → List Nat) (localNghOfs : Nat) : Nat :=
  (List.finRange n).foldl (fun ofs (p : Fin n) => ofs + cell table p me * 4) localNghOfs

def sizeCheck (me : Fin n) (table : Fin n → List Nat) (allIn : Nat) (b : Build n) : Option Nat :=
  let size := actualSize me table b.localNghOfs
  if size ≠ expectIndexSize g me allIn then none else some size

theorem nghsLength (row : List Nat) (q : Fin n) : (nghs g row q).length = cnt g row q := by
  rw [nghs,cnt,List.countP_eq_length_filter]

theorem cumupsizeMono (size : Fin n → Nat) {a b : Nat} (le : a ≤ b) : cumupsize size a ≤ cumupsize size b :=
  monotone_nat_of_le_succ (fun _ => Nat.le_add_right _ _) le

/- Every id of the graph belongs to a partition. -/
theorem judgeKnown {v : Nat} (known : v < cumupsize g.partitionSize n) : ∃ q, judgePartition g v = some q := by
  have found : (judgePartition g v).isSome := by
    unfold judgePartition
    rw [List.find?_isSome]
    cases n with
    | zero => exact absurd known (Nat.not_lt_zero v)
    | succ k => exact ⟨Fin.last k,List.mem_finRange _,by simpa using known⟩
  exact Option.isSome_iff_exists.mp found

variable {g} in
theorem nghsOwner {row : List Nat} {q : Fin n} {v : Nat} (member : v ∈ nghs g row q) : judgePartition g v = some q := by
  simpa using (List.mem_filter.mp member).2

variable {g} in
/- A partition starts at its cumulated size. -/
theorem ownerAbove {v : Nat} {q : Fin n} (owner : judgePartition g v = some q) : cumupsize g.partitionSize q ≤ v := by
  obtain ⟨_,i,inside,here,earlier⟩ := List.find?_eq_some_iff_getElem.mp owner
  have place : q.val = i := by rw [← here,List.getElem_finRange]; rfl
  rw [place]
  cases i with
  | zero => exact Nat.zero_le v
  | succ k => simpa using earlier k (Nat.lt_succ_self k)

variable {g} in
theorem ownerBelow {v : Nat} {q : Fin n} (owner : judgePartition g v = some q) :
    v < cumupsize g.partitionSize (q.val+1) := by
  simpa using List.find?_some owner

-- Every vertex has its row, on the machine that owns it.
theorem vertexRow {v : Nat} (known : v < cumupsize g.partitionSize n) : ∃ p pre row post,
    judgePartition g v = some p ∧ g.rows p = pre ++ row :: post ∧ v = cumupsize g.partitionSize p + pre.length := by
  obtain ⟨p,owner⟩ := judgeKnown g known
  have above := ownerAbove owner
  have below := ownerBelow owner
  rw [cumupsize,dif_pos p.isLt] at below
  have inside : v - cumupsize g.partitionSize p < (g.rows p).length := by
    rw [g.rowsLength]
    exact Nat.sub_lt_left_of_lt_add above below
  have whole := List.take_append_drop (v - cumupsize g.partitionSize p) (g.rows p)
  rw [List.drop_eq_getElem_cons inside] at whole
  refine ⟨p,_,_,_,owner,whole.symm,?_⟩
  rw [List.length_take]
  omega

theorem partIdsNodup (me : Fin n) (row : List Nat) : (partIds g me row).Nodup := by
  unfold partIds
  refine List.Nodup.append ((List.nodup_finRange n).filter _) ?_ ?_
  · split <;> simp
  · intro q remote mine
    have other := (List.mem_filter.mp remote).2
    split at mine
    · rw [List.mem_singleton.mp mine] at other
      simp at other
    · exact absurd mine List.not_mem_nil

theorem memPartIds {me : Fin n} {row : List Nat} {q : Fin n} :
    q ∈ partIds g me row ↔ 0 < (nghs g row q).length := by
  unfold partIds
  rw [List.mem_append,List.mem_filter]
  by_cases mine : q = me
  · subst q
    split <;> simp [*]
  · split <;> simp [mine]

theorem sumOnce {α : Type} [DecidableEq α] {xs : List α} (distinct : xs.Nodup) {x : α} (member : x ∈ xs) (c : Nat) :
    (xs.map (fun y => if y = x then c else 0)).sum = c := by
  induction xs with
  | nil => contradiction
  | cons y rest ih =>
    obtain ⟨fresh,distinct⟩ := List.nodup_cons.mp distinct
    rcases List.mem_cons.mp member with rfl | later
    · have none' : rest.map (fun y => if y = x then c else 0) = rest.map (fun _ => 0) := by
        refine List.map_congr_left (fun z inside => ?_)
        exact if_neg (fun e : z = x => fresh (e ▸ inside))
      simp [none']
    · have other : y ≠ x := fun e => fresh (e ▸ later)
      simpa [other] using ih distinct later

/- The groups of a row are the row, in another order. -/
theorem groupsPerm (me : Fin n) {row : List Nat} (known : ∀ v ∈ row, v < cumupsize g.partitionSize n) :
    ((partIds g me row).flatMap (nghs g row)).Perm row := by
  refine List.perm_iff_count.mpr (fun v => ?_)
  rw [List.count_flatMap]
  have group : ∀ q, (nghs g row q).count v = if judgePartition g v = some q then row.count v else 0 := by
    intro q
    split
    · exact List.count_filter (by simpa using ‹_›)
    · refine List.count_eq_zero.mpr (fun member => ?_)
      exact absurd (by simpa using (List.mem_filter.mp member).2) ‹_›
  have counts : (List.count v ∘ nghs g row) = fun q => if judgePartition g v = some q then row.count v else 0 :=
    funext group
  rw [counts]
  by_cases absent : v ∈ row
  · obtain ⟨q,owner⟩ := judgeKnown g (known v absent)
    have inside : q ∈ partIds g me row := by
      rw [memPartIds]
      exact List.length_pos_of_mem (List.mem_filter.mpr ⟨absent,by simpa using owner⟩)
    simp only [owner,Option.some.injEq,eq_comm (a := q)]
    exact sumOnce (partIdsNodup g me row) inside _
  · simp [List.count_eq_zero.mpr absent]

end CoTra.V3Index
