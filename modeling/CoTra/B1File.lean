import CoTra.LabelMaps
import CoTra.CachedStreams
import CoTra.Memory

/-! The bytes of the b1graph files (scala_build.h: transfer_to_b1graph_format,
merge_all_b1_index; b1_graph.h: VamanaIndex; scala_search.h: get_linklist0, getListCount,
getDataByInternalId, getExternalLabel). A machine's elements lie in a block that malloc
leaves as it was, are written and copied piece by piece, and are found again by their
place. `none` is the exception of an empty or short file. -/
namespace CoTra.B1File
open Memory CachedStreams BuildAlignment

-- max_degree and vec_size.
structure Shape where
  maxDegree : Nat
  vecSize : Nat

variable {n : Nat} (x : Shape)

def eleSize : Nat := 4 + x.maxDegree * 4 + x.vecSize + 8

def headerSize : Nat := 8 + 4

section Write

/- One element; the slots of the neighbours that it does not have keep what they hold. -/
def writeElement (mem : Mem) (ele : Nat) (e : Element (List Nat)) : Mem :=
  let mem := memcpy mem ele (wordBytes (e.nghs.length :: e.nghs))
  let mem := memcpy mem (ele + (x.maxDegree + 1) * 4) e.vector
  memcpy mem (ele + ((x.maxDegree + 1) * 4 + x.vecSize)) (leBytes 8 e.label)

variable (file : ReplicaMerge.IndexFile) (maps : PosMaps) (base : List (List Nat)) (partitionOfs vecNum : Nat)

-- `none` is a read or a write outside an array, as in the model of the elements.
def transferOne (nghOffset eleNum : Nat) (mem : Mem) : Option (Nat × Mem) :=
  file.nghs[nghOffset]?.bind (fun degree =>
    let nghs := (file.nghs.drop (nghOffset + 1)).take ((degree + 1) % 2 ^ 32 - 1)
    if nghs.length = degree ∧ eleNum < vecNum then
      base[eleNum]?.bind (fun vector => maps.pos2labelMap[partitionOfs + eleNum]?.map (fun label =>
        (nghOffset + (degree + 1) % 2 ^ 32,
          writeElement x mem (headerSize + eleNum * eleSize x) ⟨nghs.map maps.label2posMap,vector,label⟩)))
    else none)

def transferLoop : Nat → Nat → Nat → Mem → Option Mem
  | 0, _, _, _ => none
  | fuel + 1, nghOffset, eleNum, mem =>
    if ReplicaMerge.metadataSize + nghOffset * 4 < file.indexSize then
      (transferOne x file maps base partitionOfs vecNum nghOffset eleNum mem).bind
        (fun next => transferLoop fuel next.1 (eleNum + 1) next.2)
    else some mem

-- DIV_ROUND_UP
def numBlocks (total blkSize : Nat) : Nat := (total + blkSize - 1) / blkSize

def curBlockSize (total blkSize i : Nat) : Nat :=
  if total - i * blkSize < blkSize then total - i * blkSize else blkSize

def writeBlocks (w : Writer Nat) (data : List Nat) (blkSize : Nat) : Writer Nat :=
  (List.range (numBlocks data.length blkSize)).foldl
    (fun w i => write w ((data.drop (i * blkSize)).take (curBlockSize data.length blkSize i))) w

/- The file of a machine: vec_num, the entry point as index_param has it, the elements. -/
def transferToB1graphFormat (malloc : Mem) (medoid cacheSize writeBlkSize : Nat) : Option (List Nat) :=
  if file.maxDegree = x.maxDegree then
    (transferLoop x file maps base partitionOfs vecNum (file.nghs.length + 1) 0 0
      (memcpy (memcpy malloc 0 (leBytes 8 vecNum)) 8 (leBytes 4 medoid))).map (fun mem =>
        (close (writeBlocks (openWriter cacheSize)
          ((List.range (headerSize + eleSize x * vecNum)).map mem) writeBlkSize)).file)
  else none

end Write

section Merge

-- The number that some bytes are.
def number (bytes : List Nat) : Nat := readLe (fun i => bytes.getD i 0) 0 bytes.length

def copyBlocks (s : Reader Nat × Writer Nat) (total blkSize : Nat) : Option (Reader Nat × Writer Nat) :=
  (List.range (numBlocks total blkSize)).foldlM
    (fun s i => (read s.1 (curBlockSize total blkSize i)).map (fun t => (t.2,write s.2 t.1))) s

def mergePart (readBlkSize : Nat) (w : Writer Nat) (file : List Nat) : Option (Writer Nat) :=
  if file.length = 0 then none
  else (read (openReader file readBlkSize) 8).bind (fun (partVecNum,reader) =>
    (read reader 4).bind (fun (_,reader) =>
      (copyBlocks (reader,w) (number partVecNum * eleSize x) readBlkSize).map Prod.snd))

def mergeAllB1Index (files : Fin n → List Nat) (maxVid medoid cacheSize readBlkSize : Nat) : Option (List Nat) :=
  ((List.finRange n).foldlM (fun w m => mergePart x readBlkSize w (files m))
    (write (write (openWriter cacheSize) (leBytes 8 maxVid)) (leBytes 4 medoid))).map (fun w => (close w).file)

end Merge

section Load

structure VamanaIndex where
  maxElements : Nat
  enterpointNode : Nat
  dataLevel0Memory : Mem

def loadIndex (malloc : Mem) (file : List Nat) : VamanaIndex :=
  let maxElements := number (file.take 8)
  ⟨maxElements,number ((file.drop 8).take 4),memcpy malloc 0 ((file.drop 12).take (maxElements * eleSize x))⟩

def offsetData : Nat := (x.maxDegree + 1) * 4

def labelOffset : Nat := (x.maxDegree + 1) * 4 + x.vecSize

variable (index : VamanaIndex) (id : Nat)

-- The count is read as an unsigned short.
def getListCount : Nat := readLe index.dataLevel0Memory (id * eleSize x) 2

def getLinks : List Nat := readWords index.dataLevel0Memory (id * eleSize x + 4) (getListCount x index id)

def getDataByInternalId : List Nat :=
  (List.range x.vecSize).map (fun i => index.dataLevel0Memory (id * eleSize x + offsetData x + i))

def getExternalLabel : Nat := readLe index.dataLevel0Memory (id * eleSize x + labelOffset x) 8

end Load

section Elements

/- An element fits its slot. -/
structure Fits (e : Element (List Nat)) : Prop where
  degree : e.nghs.length ≤ x.maxDegree
  vector : e.vector.length = x.vecSize

structure Lies (mem : Mem) (ele : Nat) (e : Element (List Nat)) : Prop where
  nghs : Stored mem ele (wordBytes (e.nghs.length :: e.nghs))
  vector : Stored mem (ele + offsetData x) e.vector
  label : Stored mem (ele + labelOffset x) (leBytes 8 e.label)

variable {x} {mem mem' : Mem} {ele : Nat} {e : Element (List Nat)}

theorem writeElementAway (fits : Fits x e) {i : Nat} (away : i < ele ∨ ele + eleSize x ≤ i) :
    writeElement x mem ele e i = mem i := by
  have degree := fits.degree
  have vector := fits.vector
  unfold eleSize at away
  rw [writeElement,memcpyOutside,memcpyOutside,memcpyOutside]
  · rw [wordBytesLength,List.length_cons]
    omega
  · omega
  · rw [leBytesLength]
    omega

theorem writeElementLies (fits : Fits x e) : Lies x (writeElement x mem ele e) ele e := by
  have degree := fits.degree
  have vector := fits.vector
  have words := wordBytesLength (e.nghs.length :: e.nghs)
  rw [List.length_cons] at words
  refine ⟨storedFrame (storedFrame (storedMemcpy _ _ _) ?_) ?_,storedFrame (storedMemcpy _ _ _) ?_,storedMemcpy _ _ _⟩
  · rw [words]
    omega
  · rw [words]
    omega
  · unfold offsetData
    omega

theorem liesAgree (fits : Fits x e) (lies : Lies x mem ele e)
    (same : ∀ i, ele ≤ i → i < ele + eleSize x → mem' i = mem i) : Lies x mem' ele e := by
  have degree := fits.degree
  have vector := fits.vector
  have words := wordBytesLength (e.nghs.length :: e.nghs)
  rw [List.length_cons] at words
  refine ⟨storedAgree lies.nghs (fun i lower upper => same i lower ?_),storedAgree lies.vector (fun i lower upper => same i ?_ ?_),
    storedAgree lies.label (fun i lower upper => same i ?_ ?_)⟩
  · rw [words] at upper
    unfold eleSize
    omega
  · exact Nat.le_of_add_right_le lower
  · unfold offsetData at upper
    unfold eleSize
    omega
  · exact Nat.le_of_add_right_le lower
  · rw [leBytesLength] at upper
    unfold labelOffset at upper
    unfold eleSize
    omega

/- The places of two elements are apart. -/
theorem slotsApart {i j : Nat} (less : i < j) : i * eleSize x + eleSize x ≤ j * eleSize x := by
  rw [← Nat.succ_mul]
  exact Nat.mul_le_mul_right _ less

end Elements

section Transfer

/- The elements of the other model that are written lie in the block. -/
def Shown (graph : List (Option (Element (List Nat)))) (mem : Mem) : Prop :=
  ∀ i e, graph[i]? = some (some e) → Fits x e ∧ Lies x mem (headerSize + i * eleSize x) e

variable {x} {file : ReplicaMerge.IndexFile} {maps : PosMaps} {base : List (List Nat)} {partitionOfs vecNum : Nat}
  {graph graph' : List (Option (Element (List Nat)))} {mem : Mem}

theorem setShown {k : Nat} {e : Element (List Nat)} (shown : Shown x graph mem) (fits : Fits x e) :
    Shown x (graph.set k (some e)) (writeElement x mem (headerSize + k * eleSize x) e) := by
  intro i c found
  rw [List.getElem?_set] at found
  split at found
  · rename_i same
    split at found
    · cases found
      exact ⟨fits,same ▸ writeElementLies fits⟩
    · cases found
  · rename_i other
    obtain ⟨fits',lies⟩ := shown i c found
    refine ⟨fits',liesAgree fits' lies (fun j lower upper => writeElementAway fits ?_)⟩
    rcases Nat.lt_or_gt_of_ne other with less | more
    · have apart := slotsApart (x := x) less
      omega
    · have apart := slotsApart (x := x) more
      omega

theorem transferSame (same : file.maxDegree = x.maxDegree) (sized : ∀ v ∈ base, v.length = x.vecSize) {fuel nghOffset eleNum : Nat}
    (room : graph.length = vecNum) (shown : Shown x graph mem)
    (done : BuildAlignment.transferLoop file maps base partitionOfs fuel nghOffset eleNum graph = some graph') :
    ∃ mem', transferLoop x file maps base partitionOfs vecNum fuel nghOffset eleNum mem = some mem' ∧
      Shown x graph' mem' ∧ ∀ i, i < headerSize → mem' i = mem i := by
  induction fuel generalizing nghOffset eleNum graph mem with
  | zero => cases done
  | succ fuel ih =>
    rw [BuildAlignment.transferLoop] at done
    rw [transferLoop]
    split at done
    · rename_i more
      rw [if_pos more]
      obtain ⟨⟨next,between⟩,one,rest⟩ := Option.bind_eq_some_iff.mp done
      unfold BuildAlignment.transferOne at one
      obtain ⟨degree,word,one⟩ := Option.bind_eq_some_iff.mp one
      simp only at one
      split at one
      · rename_i inside
        obtain ⟨vector,here,one⟩ := Option.bind_eq_some_iff.mp one
        obtain ⟨label,name,one⟩ := Option.map_eq_some_iff.mp one
        cases one
        have fits : Fits x ⟨((file.nghs.drop (nghOffset + 1)).take ((degree + 1) % 2 ^ 32 - 1)).map maps.label2posMap,vector,label⟩ := by
          refine ⟨?_,sized vector (List.mem_of_getElem? here)⟩
          rw [List.length_map,inside.1,← same]
          exact inside.2.1
        obtain ⟨mem',loop,shown',kept⟩ := ih (List.length_set.trans room) (setShown shown fits) rest
        refine ⟨mem',?_,shown',fun i less => (kept i less).trans (writeElementAway fits (Or.inl (by omega)))⟩
        have one' : transferOne x file maps base partitionOfs vecNum nghOffset eleNum mem =
            some (nghOffset + (degree + 1) % 2 ^ 32,writeElement x mem (headerSize + eleNum * eleSize x)
              ⟨((file.nghs.drop (nghOffset + 1)).take ((degree + 1) % 2 ^ 32 - 1)).map maps.label2posMap,vector,label⟩) := by
          unfold transferOne
          simp only [word,Option.bind_some]
          rw [if_pos ⟨inside.1,room ▸ inside.2.2⟩,here,Option.bind_some,name,Option.map_some]
        rw [one']
        exact loop
      · cases one
    · rename_i beyond
      rw [if_neg beyond]
      cases done
      exact ⟨mem,rfl,shown,fun _ _ => rfl⟩

end Transfer

section Blocks

variable {blkSize : Nat}

theorem blockIs (data : List Nat) (blkSize k : Nat) :
    (data.drop (k * blkSize)).take (curBlockSize data.length blkSize k) = (data.drop (k * blkSize)).take blkSize := by
  unfold curBlockSize
  split
  · rw [List.take_of_length_le (by rw [List.length_drop]),List.take_of_length_le (by rw [List.length_drop]; omega)]
  · rfl

theorem blockNext (data : List Nat) (blkSize k : Nat) :
    data.take (k * blkSize) ++ (data.drop (k * blkSize)).take (curBlockSize data.length blkSize k) =
      data.take ((k + 1) * blkSize) := by
  rw [blockIs,Nat.succ_mul,List.take_add]

theorem blocksWhole (positive : 0 < blkSize) (data : List Nat) :
    data.take (numBlocks data.length blkSize * blkSize) = data := by
  refine List.take_of_length_le ?_
  have parts := Nat.div_add_mod (data.length + blkSize - 1) blkSize
  have small := Nat.mod_lt (data.length + blkSize - 1) positive
  rw [Nat.mul_comm] at parts
  unfold numBlocks
  omega

theorem writeBlocksHolds {w : Writer Nat} {content : List Nat} (holds : Holds w content) (positive : 0 < blkSize)
    (data : List Nat) : Holds (writeBlocks w data blkSize) (content ++ data) := by
  have first : ∀ k, Holds ((List.range k).foldl
      (fun w i => write w ((data.drop (i * blkSize)).take (curBlockSize data.length blkSize i))) w)
      (content ++ data.take (k * blkSize)) := by
    intro k
    induction k with
    | zero =>
      rw [Nat.zero_mul,List.take_zero,List.append_nil]
      exact holds
    | succ k ih =>
      rw [List.range_succ,List.foldl_append,← blockNext,← List.append_assoc]
      exact writeHolds ih _
  have all := first (numBlocks data.length blkSize)
  rwa [blocksWhole positive] at all

theorem copyBlocksHolds {r : Reader Nat} {w : Writer Nat} {content data rest : List Nat} (filled : Filled r)
    (front : ahead r = data ++ rest) (holds : Holds w content) (positive : 0 < blkSize) :
    ∃ r' w', copyBlocks (r,w) data.length blkSize = some (r',w') ∧ Holds w' (content ++ data) := by
  have first : ∀ k, ∃ r' w', (List.range k).foldlM
      (fun s i => (read s.1 (curBlockSize data.length blkSize i)).map (fun t => (t.2,write s.2 t.1))) (r,w) = some (r',w') ∧
      Filled r' ∧ ahead r' = data.drop (k * blkSize) ++ rest ∧ Holds w' (content ++ data.take (k * blkSize)) := by
    intro k
    induction k with
    | zero =>
      refine ⟨r,w,rfl,filled,?_,?_⟩
      · rw [Nat.zero_mul,List.drop_zero,front]
      · rw [Nat.zero_mul,List.take_zero,List.append_nil]
        exact holds
    | succ k ih =>
      obtain ⟨r',w',loop,filled',front',holds'⟩ := ih
      have length : ((data.drop (k * blkSize)).take (curBlockSize data.length blkSize k)).length =
          curBlockSize data.length blkSize k := by
        rw [List.length_take,List.length_drop,curBlockSize]
        split <;> omega
      have split : ahead r' = (data.drop (k * blkSize)).take (curBlockSize data.length blkSize k) ++
          (data.drop ((k + 1) * blkSize) ++ rest) := by
        rw [front',blockIs,← List.append_assoc,Nat.succ_mul,← List.drop_drop,List.take_append_drop]
      obtain ⟨r'',one,filled'',rest'⟩ := readPart filled' split
      rw [length] at one
      have next := writeHolds holds' ((data.drop (k * blkSize)).take (curBlockSize data.length blkSize k))
      rw [List.append_assoc,blockNext] at next
      refine ⟨r'',_,?_,filled'',rest',next⟩
      rw [List.range_succ,List.foldlM_append,loop]
      simp only [List.foldlM_cons,List.foldlM_nil,one,Option.map_some,Option.bind_eq_bind,Option.bind_some]
      rfl
  obtain ⟨r',w',loop,-,-,all⟩ := first (numBlocks data.length blkSize)
  rw [blocksWhole positive] at all
  exact ⟨r',w',loop,all⟩

end Blocks

section Parts

def bytesAt (body : List Nat) : Mem := fun k => body.getD k 0

/- The bytes of some elements, one behind the other. -/
def Body (body : List Nat) (es : List (Element (List Nat))) : Prop :=
  body.length = eleSize x * es.length ∧ ∀ i e, es[i]? = some e → Fits x e ∧ Lies x (bytesAt body) (i * eleSize x) e

def IsPart (file : List Nat) (medoid : Nat) (es : List (Element (List Nat))) : Prop :=
  ∃ body, file = leBytes 8 es.length ++ (leBytes 4 medoid ++ body) ∧ Body x body es

variable {x} {body more : List Nat} {es fs : List (Element (List Nat))} {mem : Mem}

theorem bytesStored (bytes : List Nat) : Stored (bytesAt bytes) 0 bytes := by
  rw [storedGet]
  intro i inside
  rw [bytesAt,Nat.zero_add,List.getD_eq_getElem?_getD,List.getElem?_eq_getElem inside,Option.getD_some]

theorem numberBytes {k v : Nat} (small : v < 256 ^ k) : number (leBytes k v) = v := by
  have read' := readStored (bytesStored (leBytes k v))
  rw [Nat.mod_eq_of_lt small] at read'
  rw [number,leBytesLength]
  exact read'

theorem liesShift {start ele : Nat} {e : Element (List Nat)} :
    Lies x (fun k => mem (start + k)) ele e ↔ Lies x mem (start + ele) e := by
  constructor
  · rintro ⟨nghs,vector,label⟩
    rw [storedShift] at nghs vector label
    rw [← Nat.add_assoc] at vector label
    exact ⟨nghs,vector,label⟩
  · rintro ⟨nghs,vector,label⟩
    rw [Nat.add_assoc] at vector label
    exact ⟨storedShift.mpr nghs,storedShift.mpr vector,storedShift.mpr label⟩

theorem bodyEmpty : Body x [] [] := ⟨rfl,fun i e no => by cases no⟩

theorem bodyAppend (first : Body x body es) (second : Body x more fs) : Body x (body ++ more) (es ++ fs) := by
  refine ⟨?_,fun i e found => ?_⟩
  · rw [List.length_append,List.length_append,first.1,second.1,Nat.mul_add]
  · rcases Nat.lt_or_ge i es.length with early | late
    · rw [List.getElem?_append_left early] at found
      obtain ⟨fits,lies⟩ := first.2 i e found
      refine ⟨fits,liesAgree fits lies (fun k _ upper => ?_)⟩
      have inside := slotsApart (x := x) early
      have whole := first.1
      rw [Nat.mul_comm] at whole
      rw [bytesAt,bytesAt,List.getD_eq_getElem?_getD,List.getElem?_append_left (by omega),List.getD_eq_getElem?_getD]
    · rw [List.getElem?_append_right late] at found
      obtain ⟨fits,lies⟩ := second.2 _ e found
      refine ⟨fits,?_⟩
      have place : i * eleSize x = body.length + (i - es.length) * eleSize x := by
        rw [first.1,Nat.mul_comm (eleSize x),← Nat.add_mul,Nat.add_sub_cancel' late]
      have same : (fun k => bytesAt (body ++ more) (body.length + k)) = bytesAt more := by
        funext k
        rw [bytesAt,bytesAt,List.getD_eq_getElem?_getD,List.getElem?_append_right (Nat.le_add_right _ _),
          Nat.add_sub_cancel_left,List.getD_eq_getElem?_getD]
      rw [place,← liesShift,same]
      exact lies

theorem storedBytes {bytes : List Nat} (stored : Stored mem 0 bytes) : (List.range bytes.length).map mem = bytes := by
  rw [storedGet] at stored
  refine List.ext_getElem (by rw [List.length_map,List.length_range]) (fun i inside inside' => ?_)
  rw [List.getElem_map,List.getElem_range,← stored i inside',Nat.zero_add]

/- The header of a block, as long as nothing else is written there. -/
theorem frontStored {malloc : Mem} {count medoid : Nat}
    (kept : ∀ i, i < headerSize → mem i = memcpy (memcpy malloc 0 (leBytes 8 count)) 8 (leBytes 4 medoid) i) :
    Stored mem 0 (leBytes 8 count ++ leBytes 4 medoid) := by
  refine storedAgree (storedAppend.mpr ⟨storedFrame (storedMemcpy malloc 0 (leBytes 8 count)) (Or.inr ?_),?_⟩)
    (fun i _ upper => kept i ?_)
  · rw [leBytesLength]
  · rw [leBytesLength]
    exact storedMemcpy _ 8 _
  · rw [List.length_append,leBytesLength,leBytesLength] at upper
    unfold headerSize
    omega

/- A block with a header and elements is a file of elements. -/
theorem blockPart {medoid : Nat} (front : Stored mem 0 (leBytes 8 es.length ++ leBytes 4 medoid))
    (shown : ∀ i e, es[i]? = some e → Fits x e ∧ Lies x mem (headerSize + i * eleSize x) e) :
    IsPart x ((List.range (headerSize + eleSize x * es.length)).map mem) medoid es := by
  refine ⟨(List.range (eleSize x * es.length)).map (fun k => mem (headerSize + k)),?_,?_,fun i e found => ?_⟩
  · have front' := storedBytes front
    rw [List.length_append,leBytesLength,leBytesLength] at front'
    rw [List.range_add,List.map_append,List.map_map,← List.append_assoc,← front']
    rfl
  · rw [List.length_map,List.length_range]
  · obtain ⟨fits,lies⟩ := shown i e found
    refine ⟨fits,liesAgree fits (liesShift.mpr lies) (fun k _ upper => ?_)⟩
    have inside := slotsApart (x := x) (List.getElem?_eq_some_iff.mp found).1
    rw [Nat.mul_comm es.length] at inside
    rw [bytesAt,List.getD_eq_getElem?_getD,List.getElem?_map,List.getElem?_range (by omega)]
    rfl

/- The file that a machine writes of the elements of the other model. -/
theorem partFile {file : ReplicaMerge.IndexFile} {maps : PosMaps} {base : List (List Nat)} {partitionOfs entry : Nat}
    {blkSize : Nat} (malloc : Mem) (medoid cacheSize : Nat) (positive : 0 < blkSize) (same : file.maxDegree = x.maxDegree)
    (sized : ∀ v ∈ base, v.length = x.vecSize)
    (elements : BuildAlignment.transferToB1graphFormat file maps base partitionOfs x.maxDegree es.length =
      some ⟨es.length,entry,es.map some⟩) :
    ∃ part, transferToB1graphFormat x file maps base partitionOfs es.length malloc medoid cacheSize blkSize = some part ∧
      IsPart x part medoid es := by
  rw [BuildAlignment.transferToB1graphFormat,if_pos same] at elements
  obtain ⟨graph,loop,whole⟩ := Option.map_eq_some_iff.mp elements
  cases whole
  have blank : Shown x (List.replicate es.length none)
      (memcpy (memcpy malloc 0 (leBytes 8 es.length)) 8 (leBytes 4 medoid)) := by
    intro i e found
    rw [List.getElem?_replicate] at found
    split at found <;> cases found
  obtain ⟨mem,loop',shown,kept⟩ := transferSame same sized List.length_replicate blank loop
  have holds := closeHolds (writeBlocksHolds (openHolds cacheSize) positive
    ((List.range (headerSize + eleSize x * es.length)).map mem))
  rw [List.nil_append] at holds
  refine ⟨_,?_,blockPart (frontStored kept) (fun i e found => shown i e (by rw [List.getElem?_map,found,Option.map_some]))⟩
  rw [transferToB1graphFormat,if_pos same,loop',Option.map_some,holds]

end Parts

section Merging

variable {x} {files : Fin n → List Nat} {medoids : Fin n → Nat} {elements : Fin n → List (Element (List Nat))}

theorem mergePartHolds {w : Writer Nat} {content file : List Nat} {medoid blkSize : Nat} {es : List (Element (List Nat))}
    (holds : Holds w content) (positive : 0 < blkSize) (small : es.length < 2 ^ 64) (part : IsPart x file medoid es) :
    ∃ body w', mergePart x blkSize w file = some w' ∧ Holds w' (content ++ body) ∧ Body x body es := by
  obtain ⟨body,layout,lies⟩ := part
  have some' : file.length ≠ 0 := by
    rw [layout,List.length_append,leBytesLength]
    omega
  obtain ⟨r,num,filled,rest⟩ := readPart (openFilled file blkSize) ((openAhead file blkSize).trans layout)
  obtain ⟨r',entry,filled,rest⟩ := readPart filled rest
  obtain ⟨r'',w',copied,holds'⟩ := copyBlocksHolds filled (rest.trans (List.append_nil body).symm) holds positive
  rw [leBytesLength] at num entry
  refine ⟨body,w',?_,holds',lies⟩
  have count : number (leBytes 8 es.length) = es.length := numberBytes small
  have size : es.length * eleSize x = body.length := by rw [lies.1,Nat.mul_comm]
  rw [mergePart,if_neg some']
  simp only [num,Option.bind_some,entry,count,size,copied,Option.map_some]

theorem mergeParts {blkSize : Nat} (positive : 0 < blkSize) (small : ∀ m, (elements m).length < 2 ^ 64)
    (parts : ∀ m, IsPart x (files m) (medoids m) (elements m)) (ms : List (Fin n)) {w : Writer Nat} {content : List Nat}
    (holds : Holds w content) :
    ∃ body w', ms.foldlM (fun w m => mergePart x blkSize w (files m)) w = some w' ∧ Holds w' (content ++ body) ∧
      Body x body (ms.flatMap elements) := by
  induction ms generalizing w content with
  | nil => exact ⟨[],w,rfl,(List.append_nil content).symm ▸ holds,bodyEmpty⟩
  | cons m rest ih =>
    obtain ⟨first,w₁,one,holds₁,body₁⟩ := mergePartHolds holds positive (small m) (parts m)
    obtain ⟨others,w₂,loop,holds₂,body₂⟩ := ih holds₁
    refine ⟨first ++ others,w₂,?_,?_,bodyAppend body₁ body₂⟩
    · rw [List.foldlM_cons,one]
      exact loop
    · rw [← List.append_assoc]
      exact holds₂

/- The machines' files make one of the same kind. -/
theorem mergeAll {blkSize maxVid : Nat} (medoid cacheSize : Nat) (positive : 0 < blkSize) (small : ∀ m, (elements m).length < 2 ^ 64)
    (parts : ∀ m, IsPart x (files m) (medoids m) (elements m))
    (total : maxVid = ((List.finRange n).flatMap elements).length) :
    ∃ file, mergeAllB1Index x files maxVid medoid cacheSize blkSize = some file ∧
      IsPart x file medoid ((List.finRange n).flatMap elements) := by
  obtain ⟨body,w,loop,holds,lies⟩ := mergeParts positive small parts (List.finRange n)
    (writeHolds (writeHolds (openHolds cacheSize) (leBytes 8 maxVid)) (leBytes 4 medoid))
  rw [List.nil_append,List.append_assoc,total] at holds
  refine ⟨_,?_,body,rfl,lies⟩
  rw [total] at loop ⊢
  rw [mergeAllB1Index,loop,Option.map_some,closeHolds holds]

end Merging

section Loading

variable {x} {file : List Nat} {medoid : Nat} {es : List (Element (List Nat))}

/- The numbers of an element fit the words that they are written to and the short that counts them. -/
structure Small (e : Element (List Nat)) : Prop where
  degree : e.nghs.length < 2 ^ 16
  nghs : ∀ u ∈ e.nghs, u < 2 ^ 32
  label : e.label < 2 ^ 64

theorem leBytesAdd (a b v : Nat) : leBytes (a + b) v = leBytes a v ++ leBytes b (v / 256 ^ a) := by
  induction a generalizing v with
  | zero => rw [Nat.zero_add,Nat.pow_zero,Nat.div_one]; rfl
  | succ a ih => rw [Nat.succ_add,leBytes,ih,leBytes,List.cons_append,Nat.div_div_eq_div_mul,Nat.pow_succ,Nat.mul_comm]

/- What the search reads of node id is element e. -/
structure Read (index : VamanaIndex) (id : Nat) (e : Element (List Nat)) : Prop where
  count : getListCount x index id = e.nghs.length
  links : getLinks x index id = e.nghs
  data : getDataByInternalId x index id = e.vector
  label : getExternalLabel x index id = e.label

theorem liesRead {index : VamanaIndex} {id : Nat} {e : Element (List Nat)} (fits : Fits x e) (small : Small e)
    (lies : Lies x index.dataLevel0Memory (id * eleSize x) e) : Read (x := x) index id e := by
  have words := lies.nghs
  rw [wordBytes,List.flatMap_cons,storedAppend,leBytesLength] at words
  have short := words.1
  rw [leBytesAdd 2 2,storedAppend] at short
  have count : getListCount x index id = e.nghs.length := by
    rw [getListCount,readStored short.1]
    exact Nat.mod_eq_of_lt small.degree
  refine ⟨count,?_,?_,?_⟩
  · rw [getLinks,count]
    exact readWordsStored words.2 small.nghs
  · have vector := storedGet.mp lies.vector
    refine List.ext_getElem (by rw [getDataByInternalId,List.length_map,List.length_range,fits.vector]) (fun i inside inside' => ?_)
    rw [← vector i inside']
    simp only [getDataByInternalId,List.getElem_map,List.getElem_range]
  · rw [getExternalLabel,readStored lies.label]
    exact Nat.mod_eq_of_lt small.label

theorem loadPart (malloc : Mem) (part : IsPart x file medoid es) (few : es.length < 2 ^ 64) (entry : medoid < 2 ^ 32) :
    (loadIndex x malloc file).maxElements = es.length ∧ (loadIndex x malloc file).enterpointNode = medoid ∧
      ∀ i e, es[i]? = some e → Small e → Read (x := x) (loadIndex x malloc file) i e := by
  obtain ⟨body,layout,whole,lies⟩ := part
  have first : file.take 8 = leBytes 8 es.length := by
    rw [layout]
    exact List.take_left' (leBytesLength _ _)
  have second : file.drop 8 = leBytes 4 medoid ++ body := by
    rw [layout]
    exact List.drop_left' (leBytesLength _ _)
  have third : file.drop 12 = body := by
    have four : file.drop (8 + 4) = (file.drop 8).drop 4 := List.drop_drop.symm
    rw [second,List.drop_left' (leBytesLength _ _)] at four
    exact four
  have count : (loadIndex x malloc file).maxElements = es.length := by
    rw [loadIndex,first]
    exact numberBytes few
  refine ⟨count,?_,fun i e found small => ?_⟩
  · rw [loadIndex,second]
    simp only
    rw [List.take_left' (leBytesLength _ _)]
    exact numberBytes entry
  · obtain ⟨fits,here⟩ := lies i e found
    refine liesRead fits small (liesAgree fits here (fun k _ upper => ?_))
    have inside := slotsApart (x := x) (List.getElem?_eq_some_iff.mp found).1
    rw [Nat.mul_comm es.length,← whole] at inside
    have memory : (loadIndex x malloc file).dataLevel0Memory = memcpy malloc 0 body := by
      have num : number (file.take 8) = es.length := count
      simp only [loadIndex,num,third]
      rw [Nat.mul_comm,← whole,List.take_length]
    rw [memory,memcpy,if_pos (Nat.zero_le _),bytesAt,List.getD_eq_getElem?_getD,List.getD_eq_getElem?_getD,Nat.sub_zero,
      List.getElem?_eq_getElem (by omega)]
    rfl

end Loading

section Whole

open ReplicaMerge (RecordOf neighbours parameter mergeReplicaPartition)

variable {x} {maxVid : Nat} (b : Build n maxVid (List Nat))

theorem lengthsJoin {α β : Type} {f : Fin n → List α} {g : Fin n → List β} (same : ∀ m, (f m).length = (g m).length)
    (ms : List (Fin n)) : (ms.flatMap f).length = (ms.flatMap g).length := by
  rw [List.length_flatMap,List.length_flatMap]
  exact congrArg List.sum (List.map_congr_left (fun m _ => same m))

-- The same id lists, as the maps are modelled over them.
def partsOf (b : Build n maxVid (List Nat)) (small : maxVid < 2 ^ 32) : LabelMaps.Parts n :=
  ⟨maxVid,b.noreplica,b.ascending,b.disjoint,b.covered,small⟩

theorem positionIs (small : maxVid < 2 ^ 32) {p : Fin n} {i v : Nat} (found : (b.noreplica p)[i]? = some v) :
    (posMaps b).label2posMap v = (((List.finRange n).take p.val).flatMap b.noreplica).length + i := by
  have here := (Indices.joinedPlace b.noreplica p (List.getElem?_eq_some_iff.mp found).1).trans found
  have place := @LabelMaps.label2posIs n (partsOf b small) v (List.mem_of_getElem? here)
  obtain ⟨bound,same⟩ := List.getElem?_eq_some_iff.mp here
  have nodup := LabelMaps.nodupAll (partsOf b small)
  have index := nodup.idxOf_getElem _ bound
  refine place.trans (Eq.trans ?_ index)
  exact congrArg (fun u => List.idxOf u _) same.symm

theorem neighbourPosition (small : maxVid < 2 ^ 32) {p : Fin n} {u v : Nat} (known : u ∈ neighbours (shardsOf b p) v) :
    (posMaps b).label2posMap u < maxVid := by
  obtain ⟨q,_,inside⟩ := Finset.mem_biUnion.mp known
  obtain ⟨a,pair,member⟩ := ReplicaMerge.adjacencyMem.mp (List.mem_toFinset.mp inside)
  have below := (shardsOf b p).bounded q a (List.of_mem_zip pair).2 u member
  exact (@LabelMaps.labelBack n (partsOf b small) u below).1

/- What machine p merges and writes. -/
structure Written (b : Build n maxVid (List Nat)) (x : Shape) (p : Fin n) (medoid : Nat) (records : List (List Nat))
    (part : List Nat) : Prop where
  each : List.Forall₂ (RecordOf (shardsOf b p) x.maxDegree) (b.noreplica p) records
  degrees : ∀ a ∈ records, a.length ≤ x.maxDegree
  size : (elementsOf (posMaps b) records (b.base p) (b.noreplica p)).length = (b.noreplica p).length
  part : IsPart x part medoid (elementsOf (posMaps b) records (b.base p) (b.noreplica p))

theorem partWritten (b : Build n maxVid (List Nat)) (r : ReplicaMerge.Shuffle) (x : Shape) (malloc : Mem) (p : Fin n)
    (medoid cacheSize : Nat) {blkSize : Nat} (some' : 0 < x.maxDegree) (short : x.maxDegree < 2 ^ 16) (positive : 0 < blkSize)
    (sized : ∀ v ∈ b.base p, v.length = x.vecSize) :
    ∃ file part records, (∃ t, mergeReplicaPartition (parameter (shardsOf b p) x.maxDegree medoid) r = some (file,t)) ∧
      transferToB1graphFormat x file (posMaps b) (b.base p) (partitionOfs b p) (b.noreplica p).length malloc medoid
        cacheSize blkSize = some part ∧ file.nghs = AdjacencyWords.words records ∧ Written b x p medoid records part := by
  obtain ⟨t,records,merge,moved⟩ := mergeTransfers b r p x.maxDegree medoid some'
    (Nat.lt_of_le_of_lt (Nat.succ_le_of_lt short) (by decide))
  have size := moved.size
  have transfer := moved.transfer
  rw [← size] at transfer
  obtain ⟨part,written,isPart⟩ := partFile malloc medoid cacheSize positive rfl sized transfer
  rw [size] at written
  exact ⟨_,part,records,⟨t,merge⟩,written,rfl,moved.each,moved.degrees,size,isPart⟩

/- What the machines' merges write, made into b1graph files, copied into one and loaded again, is one graph:
at the position of every node the search reads its label, its vector and, in order, the positions of the
neighbours in the record that the merge wrote for it. -/
theorem oneGraph (b : Build n maxVid (List Nat)) (r : Fin n → ReplicaMerge.Shuffle) (x : Shape) (malloc : Mem)
    (medoid : Fin n → Nat) (entry cacheSize blkSize : Nat) (some' : 0 < x.maxDegree) (short : x.maxDegree < 2 ^ 16)
    (small : maxVid < 2 ^ 32) (word : entry < 2 ^ 32) (positive : 0 < blkSize)
    (sized : ∀ p, ∀ v ∈ b.base p, v.length = x.vecSize) :
    ∃ (files : Fin n → ReplicaMerge.IndexFile) (records : Fin n → List (List Nat)) (parts : Fin n → List Nat)
      (whole : List Nat),
      (∀ p, ∃ t, mergeReplicaPartition (parameter (shardsOf b p) x.maxDegree (medoid p)) (r p) = some (files p,t)) ∧
      (∀ p, (files p).nghs = AdjacencyWords.words (records p)) ∧
      (∀ p, transferToB1graphFormat x (files p) (posMaps b) (b.base p) (partitionOfs b p) (b.noreplica p).length malloc
        (medoid p) cacheSize blkSize = some (parts p)) ∧
      mergeAllB1Index x parts maxVid entry cacheSize blkSize = some whole ∧
      (loadIndex x malloc whole).maxElements = maxVid ∧ (loadIndex x malloc whole).enterpointNode = entry ∧
      ∀ (p : Fin n) (i v : Nat), (b.noreplica p)[i]? = some v → ∃ (vector ids : List Nat), (b.base p)[i]? = some vector ∧
        (records p)[i]? = some ids ∧ RecordOf (shardsOf b p) x.maxDegree v ids ∧
        Read (x := x) (loadIndex x malloc whole) ((posMaps b).label2posMap v) ⟨ids.map (posMaps b).label2posMap,vector,v⟩ := by
  have each := fun p => partWritten b (r p) x malloc p (medoid p) cacheSize some' short positive (sized p)
  choose files parts records merges transfers layout written using each
  have total : maxVid = ((List.finRange n).flatMap
      (fun p => elementsOf (posMaps b) (records p) (b.base p) (b.noreplica p))).length := by
    rw [lengthsJoin (fun p => (written p).size)]
    exact (LabelMaps.lengthAll (partsOf b small)).symm
  have few : ∀ p, (elementsOf (posMaps b) (records p) (b.base p) (b.noreplica p)).length < 2 ^ 64 := by
    intro p
    have within := (LabelMaps.beforePrefix (partsOf b small) (p.val + 1)).length_le
    rw [LabelMaps.idsNext,List.length_append,LabelMaps.lengthAll] at within
    have own : (b.noreplica p).length ≤ maxVid := Nat.le_trans (Nat.le_add_left _ _) within
    rw [(written p).size]
    exact Nat.lt_of_le_of_lt own (small.trans (by decide))
  obtain ⟨whole,merged,isWhole⟩ := mergeAll entry cacheSize positive few (fun p => (written p).part) total
  obtain ⟨count,enter,reads⟩ := loadPart malloc isWhole (total ▸ small.trans (by decide)) word
  refine ⟨files,records,parts,whole,merges,layout,transfers,merged,count.trans total.symm,enter,fun p i v found => ?_⟩
  have inside := (List.getElem?_eq_some_iff.mp found).1
  have inside' : i < (records p).length := (written p).each.length_eq ▸ inside
  have bound : i < (b.base p).length := (b.vectors p).symm ▸ inside
  have record := recordAt (written p).each found (List.getElem?_eq_getElem inside')
  refine ⟨(b.base p)[i],(records p)[i],List.getElem?_eq_getElem bound,List.getElem?_eq_getElem inside',record,?_⟩
  have element : (elementsOf (posMaps b) (records p) (b.base p) (b.noreplica p))[i]? =
      some ⟨(records p)[i].map (posMaps b).label2posMap,(b.base p)[i],v⟩ :=
    elementAt (List.getElem?_eq_getElem inside') (List.getElem?_eq_getElem bound) found
  have place := (Indices.joinedPlace (fun p => elementsOf (posMaps b) (records p) (b.base p) (b.noreplica p)) p
    (by rw [(written p).size]; exact inside)).trans element
  rw [lengthsJoin (fun p => (written p).size),← positionIs b small found] at place
  refine reads _ _ place ⟨?_,fun u member => ?_,?_⟩
  · rw [List.length_map]
    exact Nat.lt_of_le_of_lt ((written p).degrees _ (List.getElem_mem inside')) short
  · obtain ⟨w,member',rfl⟩ := List.mem_map.mp member
    exact (neighbourPosition b small (record.known w member')).trans small
  · have known := (b.covered v).mpr ⟨p,List.mem_of_getElem? found⟩
    exact (known.trans small).trans (by decide)

def twoVectors : Build 2 3 (List Nat) :=
  ⟨twoBuild.noreplica,twoBuild.replica,twoBuild.nghs,twoBuild.medoid,fun p => if p = 0 then [[10],[12]] else [[11]],
    twoBuild.nonempty,twoBuild.ascending,twoBuild.disjoint,twoBuild.covered,twoBuild.replicaAscending,
    twoBuild.replicaBound,twoBuild.contained,twoBuild.aligned,twoBuild.linked,twoBuild.inside,twoBuild.entry,by decide,
    twoBuild.fits⟩

theorem oneGraphTwo : ∃ index records file t, index.maxElements = 3 ∧ index.enterpointNode = 1 ∧
    mergeReplicaPartition (parameter (shardsOf twoVectors 0) 4 0) ReplicaMerge.keepOrder = some (file,t) ∧
    file.nghs = AdjacencyWords.words records ∧
    ∃ ids, records[1]? = some ids ∧ Read (x := ⟨4,1⟩) index 1 ⟨ids.map (posMaps twoVectors).label2posMap,[12],2⟩ := by
  obtain ⟨files,records,parts,whole,merges,layout,-,-,count,enter,reads⟩ := oneGraph twoVectors
    (fun _ => ReplicaMerge.keepOrder) ⟨4,1⟩ (fun _ => 0) (fun _ => 0) 1 7 5 (by decide) (by decide) (by decide)
    (by decide) (by decide) (by decide)
  obtain ⟨vector,ids,here,written,-,read'⟩ := reads 0 1 2 rfl
  obtain ⟨t,merge⟩ := merges 0
  cases here
  exact ⟨_,records 0,files 0,t,count,enter,merge,layout 0,ids,written,read'⟩

end Whole

end CoTra.B1File
