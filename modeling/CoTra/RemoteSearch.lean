import CoTra.BeamSearch
import CoTra.Lockstep
import Mathlib.Data.Prod.Lex
import Mathlib.Data.Finset.Card

/-! localSearchKnn and remoteSearchKnn over a graph that every machine has loaded. The
remote search fetches each element with sync_read, which gives back the pointer of a read
buffer that is free again: it is read before the next element is fetched, so both searches
go in lock step. -/
namespace CoTra.RemoteSearch
open Heaps OrderDual BeamSearch Lockstep

variable {n : Nat} {D V : Type} [LinearOrder D]

structure Element (n : Nat) (V : Type) where
  linklist0 : List (Fin n)
  data : V
  label : Nat

/- The elements of a machine lie at data_level0_memory_, the partition that it has
registered for reads begins at read_vaddr. `exact` is that an id is translated to the
address of its element on the machine that owns it. -/
structure Cluster (n : Nat) (V : Type) where
  machineId : Nat
  curElementCount : Nat
  maxlevel : Nat
  enterpointNode : Fin n
  linkLists : Fin n → Nat → List (Fin n)
  memory : Nat → Nat → Element n V
  dataLevel0Memory : Nat → Nat
  sizeDataPerElement : Nat
  readVaddr : Nat → Nat
  vectorMachine : Fin n → Nat
  internalId : Fin n → Nat
  shared : ∀ machine (v : Fin n), memory machine (dataLevel0Memory machine + v * sizeDataPerElement) =
    memory machineId (dataLevel0Memory machineId + v * sizeDataPerElement)
  exact : ∀ v : Fin n, readVaddr (vectorMachine v) + internalId v * sizeDataPerElement =
    dataLevel0Memory (vectorMachine v) + v * sizeDataPerElement

/- The query, and the queues it uses. `fstdistfunc` is the distance to the query data. -/
structure Knn (n : Nat) (D V : Type) [LinearOrder D] where
  fstdistfunc : V → D
  ef : Nat
  k : Nat
  topHeap : Heap D (Fin n)
  -- holds negated distances
  candHeap : Heap Dᵒᵈ (Fin n)
  resultHeap : Heap (D ×ₗ Nat) Unit

variable (cl : Cluster n V) (p : Knn n D V)

def element (v : Fin n) : Element n V :=
  cl.memory cl.machineId (cl.dataLevel0Memory cl.machineId + v * cl.sizeDataPerElement)

abbrev query : Query n D where
  linklist0 v := (element cl v).linklist0
  dist v := p.fstdistfunc (element cl v).data
  ef := max p.ef p.k
  topHeap := p.topHeap
  candHeap := p.candHeap

section Buffers

/- The free list of the thread, and what lies in each read buffer. -/
structure ReadBuf (n : Nat) (V : Type) where
  buffIdList : List Nat
  readToPtr : Nat → Element n V

inductive Ptr where
  | level0 (address : Nat)
  | buffer (bufferId : Nat)

def deref (buf : ReadBuf n V) : Ptr → Element n V
  | .level0 address => cl.memory cl.machineId address
  | .buffer b => buf.readToPtr b

-- none: no buffer is free
def postRead (buf : ReadBuf n V) : Option (Nat × ReadBuf n V) := match buf.buffIdList with
  | [] => none
  | b :: rest => some (b,{ buf with buffIdList := rest })

/- The read is complete: the bytes of the remote address are in the buffer. -/
def pollRead (machine internal b : Nat) (buf : ReadBuf n V) : ReadBuf n V :=
  let remoteAddr := cl.readVaddr machine + internal * cl.sizeDataPerElement
  { buf with readToPtr := Function.update buf.readToPtr b (cl.memory machine remoteAddr) }

def releaseCache (b : Nat) (buf : ReadBuf n V) : ReadBuf n V := { buf with buffIdList := buf.buffIdList ++ [b] }

def syncRead (machine internal : Nat) (buf : ReadBuf n V) : Option (Ptr × ReadBuf n V) :=
  (postRead buf).map (fun r => (.buffer r.1,releaseCache r.1 (pollRead cl machine internal r.1 r.2)))

def fetch (v : Fin n) (buf : ReadBuf n V) : Option (Ptr × ReadBuf n V) :=
  if cl.vectorMachine v = cl.machineId then
    some (.level0 (cl.dataLevel0Memory cl.machineId + v * cl.sizeDataPerElement),buf)
  else syncRead cl (cl.vectorMachine v) (cl.internalId v) buf

def getData (v : Fin n) (buf : ReadBuf n V) : Option (V × ReadBuf n V) :=
  (fetch cl v buf).map (fun r => ((deref cl r.2 r.1).data,r.2))

-- memcpy to cur_node_buf
def getRemotelinklist0 (v : Fin n) (buf : ReadBuf n V) : Option (List (Fin n) × ReadBuf n V) :=
  (fetch cl v buf).map (fun r => ((deref cl r.2 r.1).linklist0,r.2))

def getRemoteLabel (v : Fin n) (buf : ReadBuf n V) : Option (Nat × ReadBuf n V) :=
  (fetch cl v buf).map (fun r => ((deref cl r.2 r.1).label,r.2))

end Buffers

section Levels

structure Walk (n : Nat) (D : Type) where
  currObj : Fin n
  curdist : D
  changed : Bool

variable {σ : Type} (data : Fin n → σ → Option (V × σ))

-- none: the search throws "cand error"
def tryCand (s : Walk n D × σ) (cand : Fin n) : Option (Walk n D × σ) :=
  if n < cand.val then none
  else (data cand s.2).map (fun r =>
    let d := p.fstdistfunc r.1
    (if d < s.1.curdist then ⟨cand,d,true⟩ else s.1,r.2))

def pass (level : Nat) (s : Walk n D × σ) : Option (Walk n D × σ) :=
  (cl.linkLists s.1.currObj level).foldlM (tryCand p data) ({ s.1 with changed := false },s.2)

-- none: the fuel was not enough
def whileChanged (level : Nat) : Nat → Walk n D × σ → Option (Walk n D × σ)
  | 0,_ => none
  | fuel + 1,s => (pass cl p data level s).bind (fun t =>
    if t.1.changed then whileChanged level fuel t else some t)

def descend (fuel : Nat) : Nat → Walk n D × σ → Option (Walk n D × σ)
  | 0,s => some s
  | level + 1,s => (whileChanged cl p data (level + 1) fuel s).bind (descend fuel level)

def enter (fuel : Nat) (s : σ) : Option (Walk n D × σ) :=
  (data cl.enterpointNode s).bind (fun r =>
    descend cl p data fuel cl.maxlevel (⟨cl.enterpointNode,p.fstdistfunc r.1,false⟩,r.2))

end Levels

section Remote

structure RemoteBeam (p : Knn n D V) where
  visitHash : List (Fin n)
  topCandidates : p.topHeap.Store
  candidateSet : p.candHeap.Store
  lowerBound : D
  buf : ReadBuf n V

variable {p}

def procRemote (s : RemoteBeam p) (v : Fin n) : Option (RemoteBeam p) :=
  if v ∈ s.visitHash then some s
  else (getData cl v s.buf).map (fun r =>
    let d := p.fstdistfunc r.1
    if size p.topHeap s.topCandidates < max p.ef p.k ∨ d < s.lowerBound then
      let kept := (offer p.topHeap (max p.ef p.k) s.topCandidates (d,v)).2
      { visitHash := v :: s.visitHash
        topCandidates := kept
        candidateSet := p.candHeap.push s.candidateSet (toDual d,v)
        lowerBound := topKey p.topHeap kept s.lowerBound
        buf := r.2 }
    else { s with visitHash := v :: s.visitHash, buf := r.2 })

def expandRemote (s : RemoteBeam p) (v : Fin n) : Option (RemoteBeam p) :=
  (getRemotelinklist0 cl v s.buf).bind (fun r => r.1.foldlM (procRemote cl) { s with buf := r.2 })

def remoteLoop : Nat → RemoteBeam p → Option (RemoteBeam p)
  | 0,_ => none
  | fuel + 1,s => match p.candHeap.pop s.candidateSet with
    | none => some s
    | some (current,rest) =>
      if s.lowerBound < ofDual current.1 then some s
      else (expandRemote cl { s with candidateSet := rest } current.2).bind (remoteLoop fuel)

variable (p)

def startRemote (epId : Fin n) (buf : ReadBuf n V) : Option (RemoteBeam p) :=
  (getData cl epId buf).map (fun r =>
    let d := p.fstdistfunc r.1
    { visitHash := [epId]
      topCandidates := p.topHeap.push p.topHeap.empty (d,epId)
      candidateSet := p.candHeap.push p.candHeap.empty (toDual d,epId)
      lowerBound := d
      buf := r.2 })

def searchRemoteBaseLayerST (epId : Fin n) (buf : ReadBuf n V) (fuel : Nat) : Option (RemoteBeam p) :=
  (startRemote cl p epId buf).bind (remoteLoop cl fuel)

end Remote

section Knn

def pushResult (result : p.resultHeap.Store) (d : D) (label : Nat) : p.resultHeap.Store :=
  p.resultHeap.push result (toLex (d,label),())

def drained (topCandidates : p.topHeap.Store) : List (D × Fin n) :=
  (popTo p.topHeap 0 (popTo p.topHeap p.k topCandidates).2).1

def getExternalLabel (v : Fin n) : Nat := (element cl v).label

def getDataByInternalId (v : Fin n) (s : Unit) : Option (V × Unit) := some ((element cl v).data,s)

def localSearchKnn (fuel : Nat) : Option p.resultHeap.Store :=
  if cl.curElementCount = 0 then some p.resultHeap.empty
  else (enter cl p (getDataByInternalId cl) fuel ()).bind (fun s =>
    (searchBaseLayerST (query cl p) s.1.currObj fuel).map (fun topCandidates =>
      (drained p topCandidates).foldl (fun result c => pushResult p result c.1 (getExternalLabel cl c.2))
        p.resultHeap.empty))

def pushRemote (s : p.resultHeap.Store × ReadBuf n V) (c : D × Fin n) : Option (p.resultHeap.Store × ReadBuf n V) :=
  (getRemoteLabel cl c.2 s.2).map (fun r => (pushResult p s.1 c.1 r.1,r.2))

def remoteSearchKnn (fuel : Nat) (buf : ReadBuf n V) : Option (p.resultHeap.Store × ReadBuf n V) :=
  if cl.curElementCount = 0 then some (p.resultHeap.empty,buf)
  else (enter cl p (getData cl) fuel buf).bind (fun s =>
    (searchRemoteBaseLayerST cl p s.1.currObj s.2 fuel).bind (fun t =>
      (drained p t.topCandidates).foldlM (pushRemote cl p) (p.resultHeap.empty,t.buf)))

end Knn

section Fetch

def Free (buf : ReadBuf n V) : Prop := buf.buffIdList ≠ []

/- The buffer that was given back still holds the element when its pointer is read. -/
theorem fetchElement (v : Fin n) {buf : ReadBuf n V} (free : Free buf) :
    ∃ ptr after, fetch cl v buf = some (ptr,after) ∧ deref cl after ptr = element cl v ∧ Free after := by
  unfold fetch
  split
  · exact ⟨_,buf,rfl,rfl,free⟩
  · obtain ⟨b,rest,first⟩ := List.exists_cons_of_ne_nil free
    have posted : postRead buf = some (b,{ buf with buffIdList := rest }) := by rw [postRead,first]
    rw [syncRead,posted,Option.map_some]
    refine ⟨_,_,rfl,?_,fun none' => ?_⟩
    · rw [deref,releaseCache,pollRead]
      simp only [Function.update_self]
      rw [cl.exact,cl.shared,element]
    · rw [releaseCache] at none'
      exact absurd none' (List.append_ne_nil_of_right_ne_nil _ (List.cons_ne_nil b []))

theorem readElement {α : Type} (field : Element n V → α) (v : Fin n) {buf : ReadBuf n V} (free : Free buf) :
    ∃ after, (fetch cl v buf).map (fun r => (field (deref cl r.2 r.1),r.2)) = some (field (element cl v),after) ∧
      Free after := by
  obtain ⟨ptr,after,done,same,free'⟩ := fetchElement cl v free
  exact ⟨after,by rw [done,Option.map_some,same],free'⟩

end Fetch

section LevelSteps

variable {cl} {p}

def Follows (r : Walk n D × ReadBuf n V) (s : Walk n D × Unit) : Prop := r.1 = s.1 ∧ Free r.2

theorem tryFollows {r : Walk n D × ReadBuf n V} {s : Walk n D × Unit} (cand : Fin n) (follows : Follows r s) :
    Option.Rel Follows (tryCand p (getData cl) r cand) (tryCand p (getDataByInternalId cl) s cand) := by
  unfold tryCand
  split
  · exact .none
  · obtain ⟨after,done,free⟩ := readElement cl Element.data cand follows.2
    have done' : getData cl cand r.2 = some ((element cl cand).data,after) := done
    rw [done',getDataByInternalId,Option.map_some,Option.map_some,follows.1]
    exact .some ⟨rfl,free⟩

theorem whileFollows (level fuel : Nat) {r : Walk n D × ReadBuf n V} {s : Walk n D × Unit} (follows : Follows r s) :
    Option.Rel Follows (whileChanged cl p (getData cl) level fuel r)
      (whileChanged cl p (getDataByInternalId cl) level fuel s) := by
  induction fuel generalizing r s with
  | zero => exact .none
  | succ fuel ih =>
    rw [whileChanged,whileChanged]
    have first : Option.Rel Follows (pass cl p (getData cl) level r) (pass cl p (getDataByInternalId cl) level s) := by
      rw [pass,pass,follows.1]
      exact relFoldlM (fun _ _ cand related => tryFollows cand related) _ ⟨rfl,follows.2⟩
    refine relBind first (fun a b related => ?_)
    rw [related.1]
    split
    · exact ih related
    · exact .some related

theorem descendFollows (fuel level : Nat) {r : Walk n D × ReadBuf n V} {s : Walk n D × Unit} (follows : Follows r s) :
    Option.Rel Follows (descend cl p (getData cl) fuel level r) (descend cl p (getDataByInternalId cl) fuel level s) := by
  induction level generalizing r s with
  | zero => exact .some follows
  | succ level ih =>
    rw [descend,descend]
    exact relBind (whileFollows (level + 1) fuel follows) (fun _ _ related => ih related)

theorem enterFollows (fuel : Nat) {buf : ReadBuf n V} (free : Free buf) :
    Option.Rel Follows (enter cl p (getData cl) fuel buf) (enter cl p (getDataByInternalId cl) fuel ()) := by
  obtain ⟨after,done,free'⟩ := readElement cl Element.data cl.enterpointNode free
  have done' : getData cl cl.enterpointNode buf = some ((element cl cl.enterpointNode).data,after) := done
  rw [enter,enter,done',getDataByInternalId,Option.bind_some,Option.bind_some]
  exact descendFollows fuel _ ⟨rfl,free'⟩

end LevelSteps

section BaseSteps

variable {p}

def beamOf (r : RemoteBeam p) : Beam (query cl p) := ⟨r.visitHash,r.topCandidates,r.candidateSet,r.lowerBound⟩

def Mirrors (r : RemoteBeam p) (s : Beam (query cl p)) : Prop := beamOf cl r = s ∧ Free r.buf

variable {cl}

theorem procMirrors {r : RemoteBeam p} {s : Beam (query cl p)} (v : Fin n) (mirrors : Mirrors cl r s) :
    ∃ r', procRemote cl r v = some r' ∧ Mirrors cl r' (procNeighbour s v) := by
  obtain ⟨rfl,free⟩ := mirrors
  unfold procRemote procNeighbour
  by_cases seen : v ∈ r.visitHash
  · refine ⟨r,if_pos seen,?_,free⟩
    exact (if_pos (c := v ∈ (beamOf cl r).visHash) seen).symm
  · obtain ⟨after,done,free'⟩ := readElement cl Element.data v free
    have done' : getData cl v r.buf = some ((element cl v).data,after) := done
    rw [if_neg seen,if_neg (c := v ∈ (beamOf cl r).visHash) seen,done',Option.map_some]
    dsimp only
    refine ⟨_,rfl,?_⟩
    by_cases taken : size p.topHeap r.topCandidates < max p.ef p.k ∨ p.fstdistfunc (element cl v).data < r.lowerBound
    · rw [if_pos taken,if_pos (c := considered (beamOf cl r) v) taken]
      exact ⟨rfl,free'⟩
    · rw [if_neg taken,if_neg (c := considered (beamOf cl r) v) taken]
      exact ⟨rfl,free'⟩

theorem expandMirrors {r : RemoteBeam p} {s : Beam (query cl p)} (v : Fin n) (mirrors : Mirrors cl r s) :
    ∃ r', expandRemote cl r v = some r' ∧ Mirrors cl r' (expand s v) := by
  obtain ⟨same,free⟩ := mirrors
  obtain ⟨after,done,free'⟩ := readElement cl Element.linklist0 v free
  have done' : getRemotelinklist0 cl v r.buf = some ((element cl v).linklist0,after) := done
  rw [expandRemote,done',Option.bind_some]
  exact totalFoldlM (fun _ _ w related => procMirrors w related) _ ⟨same,free'⟩

theorem loopMirrors (fuel : Nat) {r : RemoteBeam p} {s : Beam (query cl p)} (mirrors : Mirrors cl r s) :
    Option.Rel (Mirrors cl) (remoteLoop cl fuel r) (searchLoop fuel s) := by
  induction fuel generalizing r s with
  | zero => exact .none
  | succ fuel ih =>
    obtain ⟨rfl,free⟩ := mirrors
    rw [remoteLoop]
    cases popped : p.candHeap.pop r.candidateSet with
    | none =>
      rw [searchLoopNone (s := beamOf cl r) fuel popped]
      exact .some ⟨rfl,free⟩
    | some pair =>
      rw [searchLoopSome (s := beamOf cl r) fuel popped]
      by_cases far : r.lowerBound < ofDual pair.1.1
      · simp only
        rw [if_pos far,if_pos (c := (beamOf cl r).lowerBound < ofDual pair.1.1) far]
        exact .some ⟨rfl,free⟩
      · simp only
        rw [if_neg far,if_neg (c := (beamOf cl r).lowerBound < ofDual pair.1.1) far]
        have taken : Mirrors cl { r with candidateSet := pair.2 } { beamOf cl r with candidateSet := pair.2 } := ⟨rfl,free⟩
        obtain ⟨r',done,related⟩ := expandMirrors pair.1.2 taken
        rw [done,Option.bind_some]
        exact ih related

variable (cl) (p)

theorem startMirrors (epId : Fin n) {buf : ReadBuf n V} (free : Free buf) :
    ∃ r, startRemote cl p epId buf = some r ∧ Mirrors cl r (start (query cl p) epId) := by
  obtain ⟨after,done,free'⟩ := readElement cl Element.data epId free
  have done' : getData cl epId buf = some ((element cl epId).data,after) := done
  rw [startRemote,done',Option.map_some]
  exact ⟨_,rfl,rfl,free'⟩

/- The two searches of the base level have the same results. -/
theorem baseMirrors (epId : Fin n) (fuel : Nat) {buf : ReadBuf n V} (free : Free buf) :
    Option.Rel (fun (r : RemoteBeam p) topCandidates => r.topCandidates = topCandidates ∧ Free r.buf)
      (searchRemoteBaseLayerST cl p epId buf fuel) (searchBaseLayerST (query cl p) epId fuel) := by
  obtain ⟨r,begun,mirrors⟩ := startMirrors cl p epId free
  rw [searchRemoteBaseLayerST,begun,Option.bind_some,searchBaseLayerST]
  have loops := loopMirrors fuel mirrors
  generalize remoteLoop cl fuel r = left,searchLoop fuel (start (query cl p) epId) = right at loops
  cases loops with
  | none => exact .none
  | some related => exact .some ⟨congrArg Beam.topCandidates related.1,related.2⟩

end BaseSteps

section Results

variable {cl} {p}

def Pushes (r : p.resultHeap.Store × ReadBuf n V) (result : p.resultHeap.Store) : Prop := r.1 = result ∧ Free r.2

theorem pushFollows (cl : Cluster n V) {r : p.resultHeap.Store × ReadBuf n V} {result : p.resultHeap.Store} (c : D × Fin n)
    (pushes : Pushes r result) :
    ∃ r', pushRemote cl p r c = some r' ∧ Pushes r' (pushResult p result c.1 (getExternalLabel cl c.2)) := by
  obtain ⟨after,done,free⟩ := readElement cl Element.label c.2 pushes.2
  have done' : getRemoteLabel cl c.2 r.2 = some ((element cl c.2).label,after) := done
  rw [pushRemote,done',Option.map_some,pushes.1]
  exact ⟨_,rfl,rfl,free⟩

variable (cl) (p)

theorem knnFollows (fuel : Nat) {buf : ReadBuf n V} (free : Free buf) :
    Option.Rel Pushes (remoteSearchKnn cl p fuel buf) (localSearchKnn cl p fuel) := by
  unfold remoteSearchKnn localSearchKnn
  split
  · exact .some ⟨rfl,free⟩
  · refine relBind (enterFollows fuel free) (fun r s follows => ?_)
    rw [follows.1,Option.map_eq_bind]
    refine relBind (baseMirrors cl p _ fuel follows.2) (fun t topCandidates found => ?_)
    obtain ⟨rfl,free'⟩ := found
    have empty : Pushes (p.resultHeap.empty,t.buf) p.resultHeap.empty := ⟨rfl,free'⟩
    obtain ⟨r',done,pushes⟩ := totalFoldlM (fun _ _ c related => pushFollows cl c related)
      (drained p t.topCandidates) empty
    rw [done]
    exact .some pushes

end Results

section Ends

variable {cl} {p}

def dist (cl : Cluster n V) (p : Knn n D V) (v : Fin n) : D := p.fstdistfunc (element cl v).data

def Right (cl : Cluster n V) (p : Knn n D V) (s : Walk n D × Unit) : Prop := s.1.curdist = dist cl p s.1.currObj

/- A pass that changes the vertex has come nearer. -/
def Lowered (cl : Cluster n V) (p : Knn n D V) (before : D) (s : Walk n D × Unit) (_ : Unit) : Prop :=
  Right cl p s ∧ s.1.curdist ≤ before ∧ (s.1.changed = true → s.1.curdist < before)

theorem tryLowers {before : D} {s : Walk n D × Unit} {u : Unit} (cand : Fin n) (lowered : Lowered cl p before s u) :
    ∃ t, tryCand p (getDataByInternalId cl) s cand = some t ∧ Lowered cl p before t () := by
  obtain ⟨right,le,less⟩ := lowered
  rw [tryCand,if_neg (by have := cand.isLt; omega),getDataByInternalId,Option.map_some]
  refine ⟨_,rfl,?_⟩
  dsimp only
  by_cases nearer : dist cl p cand < s.1.curdist
  · rw [if_pos (c := p.fstdistfunc (element cl cand).data < s.1.curdist) nearer]
    exact ⟨rfl,(nearer.trans_le le).le,fun _ => nearer.trans_le le⟩
  · rw [if_neg (c := p.fstdistfunc (element cl cand).data < s.1.curdist) nearer]
    exact ⟨right,le,less⟩

theorem passLowers (level : Nat) {s : Walk n D × Unit} (right : Right cl p s) :
    ∃ t, pass cl p (getDataByInternalId cl) level s = some t ∧ Lowered cl p s.1.curdist t () := by
  have begin : Lowered cl p s.1.curdist ({ s.1 with changed := false },s.2) () :=
    ⟨right,le_rfl,fun no => absurd no Bool.false_ne_true⟩
  exact totalFoldlM (R := Lowered cl p s.1.curdist) (g := fun _ _ => ())
    (fun _ _ cand lowered => tryLowers cand lowered) (cl.linkLists s.1.currObj level) begin

/- The vertices that are nearer than a distance. -/
def nearer (cl : Cluster n V) (p : Knn n D V) (d : D) : Nat := (Finset.univ.filter (fun v => dist cl p v < d)).card

theorem nearerLess {d d' : D} {v : Fin n} (same : d' = dist cl p v) (less : d' < d) : nearer cl p d' < nearer cl p d := by
  refine Finset.card_lt_card (Finset.ssubset_iff_of_subset ?_ |>.mpr ⟨v,?_,?_⟩)
  · intro w inside
    rw [Finset.mem_filter] at inside ⊢
    exact ⟨inside.1,inside.2.trans less⟩
  · rw [Finset.mem_filter,← same]
    exact ⟨Finset.mem_univ v,less⟩
  · rw [Finset.mem_filter,← same]
    exact fun inside => lt_irrefl _ inside.2

theorem whileEnds (level : Nat) {fuel : Nat} {s : Walk n D × Unit} (right : Right cl p s)
    (enough : nearer cl p s.1.curdist < fuel) :
    ∃ t, whileChanged cl p (getDataByInternalId cl) level fuel s = some t ∧ Right cl p t := by
  induction fuel generalizing s with
  | zero => exact absurd enough (Nat.not_lt_zero _)
  | succ fuel ih =>
    obtain ⟨t,done,right',_,less⟩ := passLowers level right
    rw [whileChanged,done,Option.bind_some]
    split
    · rename_i changed
      have fewer := nearerLess right' (less changed)
      exact ih right' (by omega)
    · exact ⟨t,rfl,right'⟩

theorem descendEnds {fuel : Nat} (level : Nat) {s : Walk n D × Unit} (right : Right cl p s) (enough : n < fuel) :
    ∃ t, descend cl p (getDataByInternalId cl) fuel level s = some t := by
  induction level generalizing s with
  | zero => exact ⟨s,rfl⟩
  | succ level ih =>
    have few : nearer cl p s.1.curdist ≤ n := (Finset.card_le_univ _).trans (Fintype.card_fin n).le
    obtain ⟨t,done,right'⟩ := whileEnds (level + 1) right (few.trans_lt enough)
    rw [descend,done,Option.bind_some]
    exact ih right'

variable (cl) (p)

theorem enterEnds {fuel : Nat} (enough : n < fuel) : ∃ t, enter cl p (getDataByInternalId cl) fuel () = some t := by
  rw [enter,getDataByInternalId,Option.bind_some]
  exact descendEnds _ rfl enough

end Ends

section BeamEnds

variable {q : Query n D} {s : Beam q}

theorem procOnce (once : s.visHash.Nodup) (v : Fin n) : (procNeighbour s v).visHash.Nodup := by
  unfold procNeighbour
  split
  · exact once
  · rename_i fresh
    split
    · exact List.nodup_cons.mpr ⟨fresh,once⟩
    · exact List.nodup_cons.mpr ⟨fresh,once⟩

theorem allOnce (vs : List (Fin n)) (once : s.visHash.Nodup) :
    (vs.foldl procNeighbour s).visHash.Nodup ∧ remains (vs.foldl procNeighbour s) ≤ remains s := by
  induction vs generalizing s with
  | nil => exact ⟨once,Nat.le_refl _⟩
  | cons v rest ih =>
    obtain ⟨once',less⟩ := ih (procOnce once v)
    exact ⟨once',less.trans (procRemains once v)⟩

/- Whatever ef is, the search of the base level ends. -/
theorem loopEnds {fuel : Nat} (once : s.visHash.Nodup) (enough : remains s < fuel) : ∃ t, searchLoop fuel s = some t := by
  induction fuel generalizing s with
  | zero => exact absurd enough (Nat.not_lt_zero _)
  | succ fuel ih =>
    cases popped : q.candHeap.pop s.candidateSet with
    | none => exact ⟨s,searchLoopNone fuel popped⟩
    | some pair =>
      rw [searchLoopSome fuel popped]
      split
      · exact ⟨s,rfl⟩
      · have fewer : remains { s with candidateSet := pair.2 } < remains s := by
          unfold remains
          dsimp only
          rw [sizePop popped]
          omega
        obtain ⟨once',less⟩ := allOnce (s := { s with candidateSet := pair.2 }) (q.linklist0 pair.1.2) once
        exact ih once' (by unfold expand; omega)

theorem baseEnds (epId : Fin n) {fuel : Nat} (enough : n < fuel) :
    ∃ topCandidates, searchBaseLayerST q epId fuel = some topCandidates := by
  have once : (start q epId).visHash.Nodup := List.nodup_singleton _
  have few : remains (start q epId) = n := startRemains epId
  obtain ⟨t,returns⟩ := loopEnds once (few.trans_lt enough)
  exact ⟨t.topCandidates,congrArg (Option.map Beam.topCandidates) returns⟩

end BeamEnds

theorem localEnds {fuel : Nat} (enough : n < fuel) : ∃ result, localSearchKnn cl p fuel = some result := by
  unfold localSearchKnn
  split
  · exact ⟨_,rfl⟩
  · obtain ⟨s,entered⟩ := enterEnds cl p enough
    obtain ⟨topCandidates,found⟩ := baseEnds (q := query cl p) s.1.currObj enough
    rw [entered,Option.bind_some,found]
    exact ⟨_,rfl⟩

/- The remote search gives the result queue of the local search, and both end. -/
theorem remoteIsLocal (cl : Cluster n V) (p : Knn n D V) (buf : ReadBuf n V) (free : buf.buffIdList ≠ []) (fuel : Nat) :
    (remoteSearchKnn cl p fuel buf).map Prod.fst = localSearchKnn cl p fuel ∧
      (n < fuel → ∃ result, localSearchKnn cl p fuel = some result) := by
  refine ⟨?_,localEnds cl p⟩
  have follows := knnFollows cl p fuel free
  generalize remoteSearchKnn cl p fuel buf = remote,localSearchKnn cl p fuel = found at follows
  cases follows with
  | none => rfl
  | some pushes => exact congrArg some pushes.1

/- A path of four elements, two on each of two machines, with one level above. -/
def pathElement (address : Nat) : Element 4 Nat :=
  ⟨[[1],[0,2],[1,3],[2]].getD address [],[3,2,2,1].getD address 0,10 + address⟩

def pathCluster : Cluster 4 Nat where
  machineId := 0
  curElementCount := 4
  maxlevel := 1
  enterpointNode := 0
  linkLists v _ := if v = 0 then [2] else []
  memory _ := pathElement
  dataLevel0Memory _ := 0
  sizeDataPerElement := 1
  readVaddr machine := 2 * machine
  vectorMachine v := v / 2
  internalId v := v % 2
  shared _ _ := rfl
  exact v := by omega

def pathKnn : Knn 4 Nat Nat := ⟨id,2,2,lastFirst Nat (Fin 4),lastFirst Natᵒᵈ (Fin 4),lastFirst (Nat ×ₗ Nat) Unit⟩

def pathBuf : ReadBuf 4 Nat := ⟨[7,8],fun _ => ⟨[],0,0⟩⟩

theorem remoteIsLocalPath : (remoteSearchKnn pathCluster pathKnn 5 pathBuf).map Prod.fst =
    localSearchKnn pathCluster pathKnn 5 ∧ (4 < 5 → ∃ result, localSearchKnn pathCluster pathKnn 5 = some result) :=
  remoteIsLocal pathCluster pathKnn pathBuf (List.cons_ne_nil _ _) 5

example : (remoteSearchKnn pathCluster pathKnn 5 pathBuf).map (fun r => r.1.elems.map (fun x => (ofLex x.1).2)) =
    some [12,13] := by decide +kernel

end CoTra.RemoteSearch
