import CoTra.V3Layout
import CoTra.NghExchange

/-! Readers of a V3 index (scala_graph.h: load_index,
scala_graph_v3_get_subquery_task_lb, scala_graph_v3_get_nodetask_msg,
scala_graph_v3_get_ngh_ptr; scala_search.h: the ComputeTask branch of
scala_sub_proc_v5). Both decoders walk the records of a slot in the same way and
differ in what they emit; `Emit` lists every kind of push they make. -/
namespace CoTra.V3Decode
open Memory V3Index V3Layout

structure ScalaGraph where
  partitionId : Nat
  localVecNum : Nat
  localNghEleSize : Nat
  remoteNghNum : Nat
  degNghSize : Nat
  degNgh : Mem

def loadIndex (file : Mem) : ScalaGraph where
  partitionId := readLe file 0 4
  localVecNum := readLe file 8 4
  localNghEleSize := readLe file 12 4
  remoteNghNum := readLe file 24 8
  degNghSize := readLe file 12 4 * readLe file 8 4 + readLe file 24 8 * 4
  degNgh := fun i => file (indexMetaLen + i)

structure ComputeTask (dist : Type) where
  machineId : Nat
  qid : Nat
  deg : Nat
  offset : Nat
  lowerBound : dist
  efFill : Bool
  coreCnt : Nat
  nocoreCnt : Nat

/- localTask is the slice left for the reader itself; the ids of core_micro_ngh and of
NonCoreSyncMsg go to core machines, tasks and async reads to the others. -/
inductive Emit (dist : Type) where
  | localTask (deg ofs : Nat)
  | coreMicroNgh (pid v : Nat)
  | coreLargeNgh (pid ofs deg : Nat)
  | asyncRead (pid v internalId : Nat)
  | task (pid : Nat) (t : ComputeTask dist)
  | nodeSyncMicro (pid : Nat) (ids : List Nat)
  | nodeSyncLarge (pid ofs deg : Nat)

variable {dist : Type}

/- What a decoder pushes for the local record, an inlined and a stored group. -/
structure Emitter (dist : Type) where
  onLocal : Nat → Nat → List (Emit dist)
  onMicro : Nat → List Nat → List (Emit dist)
  onLarge : Nat → Nat → Nat → List (Emit dist)

/- The while loop, with the offset at which it stops. -/
def decodeLoop (emit : Emitter dist) (degNgh : Mem) : Nat → Nat → Option (List (Emit dist) × Nat)
  | 0, _ => none
  | fuel+1, ofs =>
    let flags := degNgh (ofs+1)
    let deg := degNgh ofs
    let pid := flags &&& 0x3f
    if flags &&& 0x40 ≠ 0 then some (emit.onLocal deg (ofs+2),ofs+2)
    else
      let (pushed,next) :=
        if deg ≤ inlineDegBar then (emit.onMicro pid (readWords degNgh (ofs+2) deg),ofs+2+deg*4)
        else (emit.onLarge pid (readLe degNgh (ofs+2) 8) deg,ofs+2+8)
      if flags &&& 0x80 ≠ 0 then some (pushed,next)
      else (decodeLoop emit degNgh fuel next).map (fun (rest,stop) => (pushed ++ rest,stop))

variable (isCoreMachine : Nat → Bool) (cumuPartitionNum : Nat → Nat)

def subqueryEmitter (partitionId qid : Nat) (lb : dist) (efFill : Bool) : Emitter dist where
  onLocal := fun deg ofs => [.localTask deg ofs]
  onMicro := fun pid ids =>
    if isCoreMachine pid then ids.map (.coreMicroNgh pid)
    else ids.map (fun v => .asyncRead pid v (v - cumuPartitionNum pid))
  onLarge := fun pid ofs deg =>
    if isCoreMachine pid then [.coreLargeNgh pid ofs deg]
    else [.task pid ⟨partitionId,qid,deg,ofs,lb,efFill,1,0⟩]

/- tmp_ofs_for_micro_combine: id number d in bits 32d and up. -/
def microCombine (ids : List Nat) : Nat :=
  (ids.zipIdx.foldl (fun acc (v,d) => acc ||| (v <<< (d*32)) % 2^64) 0)

def nodetaskEmitter [Zero dist] (machineId qid : Nat) : Emitter dist where
  onLocal := fun deg ofs => [.localTask deg ofs]
  onMicro := fun pid ids =>
    if isCoreMachine pid then [.nodeSyncMicro pid ids]
    else [.task pid ⟨machineId,qid,ids.length,microCombine ids,0,false,0,1⟩]
  onLarge := fun pid ofs deg =>
    if isCoreMachine pid then [.nodeSyncLarge pid ofs deg]
    else [.task pid ⟨machineId,qid,deg,ofs,0,false,0,1⟩]

/- Fuel counts records. `none` is the abort on a foreign vertex. -/
def scalaGraphV3GetSubqueryTaskLb (graph : ScalaGraph) (fuel currentNodeId qid : Nat) (lb : dist) (efFill : Bool) :
    Option (List (Emit dist) × Nat) :=
  let partitionOfs := cumuPartitionNum graph.partitionId
  if currentNodeId < partitionOfs ∨ partitionOfs + graph.localVecNum ≤ currentNodeId then none
  else decodeLoop (subqueryEmitter isCoreMachine cumuPartitionNum graph.partitionId qid lb efFill) graph.degNgh fuel
    (graph.localNghEleSize * (currentNodeId - partitionOfs))

def scalaGraphV3GetNodetaskMsg [Zero dist] (graph : ScalaGraph) (fuel machineId qid nodeId : Nat) :
    Option (List (Emit dist) × Nat) :=
  decodeLoop (nodetaskEmitter isCoreMachine machineId qid) graph.degNgh fuel
    (graph.localNghEleSize * (nodeId - cumuPartitionNum graph.partitionId))

def scalaGraphV3GetNghPtr (graph : ScalaGraph) (offset deg : Nat) : Option (List Nat) :=
  if graph.degNghSize < offset then none else some (readWords graph.degNgh offset deg)

/- How scala_sub_proc_v5 reads a ComputeTask: two ids in the offset, or an array. -/
def taskNgh (graph : ScalaGraph) (t : ComputeTask dist) : Option (List Nat) :=
  if t.deg ≤ inlineDegBar then some ((List.range t.deg).map (fun d => t.offset / 2^(32*d) % 2^32))
  else scalaGraphV3GetNghPtr graph t.offset t.deg

def emitPid (own : Nat) : Emit dist → Nat
  | .localTask _ _ => own
  | .coreMicroNgh pid _ => pid
  | .coreLargeNgh pid _ _ => pid
  | .asyncRead pid _ _ => pid
  | .task pid _ => pid
  | .nodeSyncMicro pid _ => pid
  | .nodeSyncLarge pid _ _ => pid

/- The vertices an emission stands for, read at the machine it is sent to. -/
def emitIds (graphs : Nat → ScalaGraph) (own : Nat) : Emit dist → Option (List Nat)
  | .localTask deg ofs => scalaGraphV3GetNghPtr (graphs own) ofs deg
  | .coreMicroNgh _ v => some [v]
  | .coreLargeNgh pid ofs deg => scalaGraphV3GetNghPtr (graphs pid) ofs deg
  | .asyncRead pid _ internalId => some [cumuPartitionNum pid + internalId]
  | .task pid t => taskNgh (graphs pid) t
  | .nodeSyncMicro _ ids => some ids
  | .nodeSyncLarge pid ofs deg => scalaGraphV3GetNghPtr (graphs pid) ofs deg

/- The two bytes of a record. -/
theorem recordMsgValue {n : Nat} {last : Bool} {me q : Fin n} {size : Nat} (few : n ≤ 64) (small : size < 256) :
    recordMsg last me q size =
      ((if last then (if q = me then 3 else 2) else 0)*64 + q.val)*256 + size := by
  have narrow : q.val < 64 := lt_of_lt_of_le q.isLt few
  have low : q.val <<< 8 ||| size = q.val <<< 8 + size := (Nat.shiftLeft_add_eq_or_of_lt small q.val).symm
  have below : q.val <<< 8 + size < 2^14 := by
    rw [Nat.shiftLeft_eq]
    omega
  have flags : (if last then (if q = me then 1 <<< 15 ||| 1 <<< 14 else 1 <<< 15) else 0) =
      (if last then (if q = me then 3 else 2) else 0) <<< 14 := by
    split
    · split <;> rfl
    · rfl
  have bound : (if last then (if q = me then 3 else 2) else 0) < 4 := by
    split
    · split <;> decide
    · decide
  unfold recordMsg
  dsimp only
  rw [flags]
  generalize (if last then (if q = me then 3 else 2) else 0) = f at bound
  rw [Nat.or_assoc,low,← Nat.shiftLeft_add_eq_or_of_lt below,Nat.shiftLeft_eq,Nat.shiftLeft_eq,Nat.mod_eq_of_lt]
  · omega
  · omega

theorem flagBits {f q : Nat} (flag : f = 0 ∨ f = 2 ∨ f = 3) (narrow : q < 64) :
    (f*64 + q) &&& 0x3f = q ∧ ((f*64 + q) &&& 0x40 ≠ 0 ↔ f = 3) ∧ ((f*64 + q) &&& 0x80 ≠ 0 ↔ f ≠ 0) := by
  have all : ∀ (q : Fin 64) (f : Fin 4), f.val ≠ 1 → (f.val*64 + q.val) &&& 0x3f = q.val ∧
      ((f.val*64 + q.val) &&& 0x40 ≠ 0 ↔ f.val = 3) ∧ ((f.val*64 + q.val) &&& 0x80 ≠ 0 ↔ f.val ≠ 0) := by
    decide
  exact all ⟨q,narrow⟩ ⟨f,by omega⟩ (by simp only; omega)

section Slot

variable {n : Nat} (g : GraphParts n) (me : Fin n) (startOfs : Fin n → Nat) (out : Fin n → List Nat) (row : List Nat)

/- What the records of a slot at `ofs` make a decoder push. -/
def slotEmits (emit : Emitter dist) : Nat → List (Fin n) → List (Emit dist)
  | _, [] => []
  | ofs, q :: rest =>
    if q = me then emit.onLocal (nghs g row q).length (ofs+2)
    else
      (if (nghs g row q).length ≤ inlineDegBar then emit.onMicro q (nghs g row q)
        else emit.onLarge q (startOfs q + 4*(out q).length) (nghs g row q).length) ++
      slotEmits emit (ofs + (recordBytes g me startOfs out row rest.isEmpty q).length) rest

variable {g me startOfs out row}

theorem recordHead (few : n ≤ 64) {mem : Mem} {ofs : Nat} {last : Bool} {q : Fin n}
    (small : (nghs g row q).length < 256) (stored : Stored mem ofs (recordBytes g me startOfs out row last q)) :
    mem ofs = (nghs g row q).length ∧ mem (ofs+1) = (if last then (if q = me then 3 else 2) else 0)*64 + q.val := by
  rw [recordBytes,storedAppend] at stored
  obtain ⟨⟨first,second,_⟩,_⟩ := stored
  have narrow : q.val < 64 := lt_of_lt_of_le q.isLt few
  have bound : (if last then (if q = me then 3 else 2) else 0) < 4 := by
    split
    · split <;> decide
    · decide
  rw [recordMsgValue few small] at first second
  generalize (if last then (if q = me then 3 else 2) else 0) = f at *
  constructor <;> omega

theorem recordBody (emit : Emitter dist) {mem : Mem} {ofs : Nat} {last : Bool} {q : Fin n} (other : q ≠ me)
    (ids : ∀ v ∈ row, v < 2^32) (far : startOfs q + 4*(out q).length < 2^64)
    (stored : Stored mem ofs (recordBytes g me startOfs out row last q)) :
    (if (nghs g row q).length ≤ inlineDegBar then
        (emit.onMicro q (readWords mem (ofs+2) (nghs g row q).length),ofs+2+(nghs g row q).length*4)
      else (emit.onLarge q (readLe mem (ofs+2) 8) (nghs g row q).length,ofs+2+8)) =
    (if (nghs g row q).length ≤ inlineDegBar then emit.onMicro q (nghs g row q)
      else emit.onLarge q (startOfs q + 4*(out q).length) (nghs g row q).length,
      ofs + (recordBytes g me startOfs out row last q).length) := by
  have length : (recordBytes g me startOfs out row last q).length =
      2 + if (nghs g row q).length ≤ inlineDegBar then (nghs g row q).length*4 else 8 := by
    unfold recordBytes
    rw [List.length_append,leBytesLength]
    by_cases few : (nghs g row q).length ≤ inlineDegBar
    · have notMany : ¬inlineDegBar < (nghs g row q).length := by omega
      simp [few,notMany,Nat.mul_comm]
    · have many : inlineDegBar < (nghs g row q).length := by omega
      simp [few,many,other]
  rw [recordBytes,storedAppend,leBytesLength] at stored
  have body := stored.2
  rw [length]
  by_cases few : (nghs g row q).length ≤ inlineDegBar
  · rw [if_neg (by omega)] at body
    rw [if_pos few,if_pos few,if_pos few,
      readWordsStored body (fun v member => ids v (List.mem_of_mem_filter member)),Nat.add_assoc]
  · rw [if_pos ⟨by omega,other⟩] at body
    rw [if_neg few,if_neg few,if_neg few,readStored body,Nat.mod_eq_of_lt (by exact far),Nat.add_assoc]

/- A decoder reads back the records of a slot and stops at its end; a local group is
the rest of the slot. -/
theorem decodeSlot (few : n ≤ 64) (emit : Emitter dist) {mem : Mem} (ids : ∀ v ∈ row, v < 2^32)
    (far : ∀ q, startOfs q + 4*(out q).length < 2^64) {qs : List (Fin n)}
    (small : ∀ q ∈ qs, (nghs g row q).length < 256) (lastLocal : ∀ q ∈ qs.dropLast, q ≠ me) (some' : qs ≠ [])
    {fuel ofs : Nat} (enough : qs.length ≤ fuel) (stored : Stored mem ofs (slotBytes g me startOfs out row qs)) :
    ∃ stop, decodeLoop emit mem fuel ofs = some (slotEmits g me startOfs out row emit ofs qs,stop) ∧
      stop + (if me ∈ qs then 4*(nghs g row me).length else 0) =
        ofs + (slotBytes g me startOfs out row qs).length := by
  induction qs generalizing fuel ofs with
  | nil => contradiction
  | cons q rest ih =>
    cases fuel with
    | zero => simp at enough
    | succ fuel =>
    rw [slotBytes,storedAppend] at stored
    obtain ⟨record,later⟩ := stored
    have size := small q List.mem_cons_self
    have narrow : q.val < 64 := lt_of_lt_of_le q.isLt few
    obtain ⟨degree,flags⟩ := recordHead few size record
    unfold decodeLoop
    simp only [flags,degree]
    by_cases own : q = me
    · -- the local group is the last one: a group behind it would not be in dropLast
      have empty : rest = [] := by
        cases rest with
        | nil => rfl
        | cons r more => exact absurd own (lastLocal q (by simp))
      subst own empty
      obtain ⟨_,isLocal,_⟩ := flagBits (f := 3) (by omega) narrow
      refine ⟨ofs+2,?_,?_⟩
      · simp [slotEmits,isLocal.mpr]
      · simp [slotBytes,recordBytes]
        omega
    · have pushed := recordBody emit own ids (far q) record
      obtain ⟨pid,isLocal,isEnd⟩ := flagBits (q := q.val)
        (f := if rest.isEmpty = true then (if q = me then 3 else 2) else 0) (by split <;> simp) narrow
      have notLocal : ¬(if rest.isEmpty = true then (if q = me then 3 else 2) else 0) = 3 := by
        split <;> simp
      rw [if_neg (fun h => notLocal (isLocal.mp h)),pid,pushed]
      dsimp only
      by_cases empty : rest = []
      · subst empty
        rw [if_pos (isEnd.mpr (by simp [own]))]
        refine ⟨ofs + (recordBytes g me startOfs out row true q).length,by simp [slotEmits,own],?_⟩
        simp [slotBytes,Ne.symm own]
      · have more : rest.isEmpty = false := by simpa using empty
        rw [if_neg (fun h => (isEnd.mp h) (by simp [more]))]
        obtain ⟨stop,decoded,total⟩ := ih (fun r member => small r (List.mem_cons_of_mem _ member))
          (fun r member => lastLocal r (by
            rw [List.dropLast_cons_of_ne_nil empty]
            exact List.mem_cons_of_mem _ member)) empty (by simpa using enough) later
        refine ⟨stop,?_,?_⟩
        · rw [decoded]
          simp [slotEmits,own]
        · have same : (me ∈ q :: rest) = (me ∈ rest) := by simp [Ne.symm own]
          simp only [same,slotBytes,List.length_append]
          omega

end Slot

end CoTra.V3Decode
