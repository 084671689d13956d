import CoTra.V3Files

/-! The slot of a vertex in a V3 file holds local_ngh_ele_size bytes. The offset of a stored
group takes the place of at least three ids, so a header for each part and four bytes for each
neighbour are always enough. -/
namespace CoTra.V3Slots
open Memory V3Index V3Layout V3Files

variable {n : Nat} {g : GraphParts n} {me : Fin n} {startOfs : Fin n → Nat} {b : Build n} {row : List Nat}

/- What the encoder does for one vertex: the records go through the size check, and only
the bytes of the own slot change. -/
structure SlotWritten (g : GraphParts n) (me : Fin n) (startOfs : Fin n → Nat) (b : Build n) (row : List Nat)
    (c : Build n) (bytes : List Nat) : Prop where
  wrote : writeRow g me startOfs b row = some c
  records : ∃ out, writeRecords g me startOfs row (partIds g me row) ⟨[],b.out⟩ = some ⟨bytes,out⟩
  size : bytes.length ≤ localNghEleSize g
  stored : Stored c.index b.localNghOfs bytes
  next : c.localNghOfs = b.localNghOfs + localNghEleSize g
  frame : ∀ i, i < b.localNghOfs ∨ b.localNghOfs + localNghEleSize g ≤ i → c.index i = b.index i

theorem slotWritten (member : row ∈ g.rows me) (startOfs : Fin n → Nat) (b : Build n) : ∃ c,
    SlotWritten g me startOfs b row c (slotBytes g me startOfs b.out row (partIds g me row)) := by
  have fits := slotFits g me member startOfs b.out
  have records : writeRecords g me startOfs row (partIds g me row) ⟨[],b.out⟩ = some ⟨_,_⟩ :=
    writeRecordsSpec g startOfs (partIdsNodup g me row) (by simpa using fits)
  refine ⟨_,writeRowSpec g member startOfs b,⟨_,records⟩,fits,storedMemcpy _ _ _,rfl,fun i away => ?_⟩
  refine memcpyOutside (away.imp id (fun beyond => ?_))
  exact (Nat.add_le_add_left fits _).trans beyond

theorem rowsReach {rows : List (List Nat)} (part : ∀ row ∈ rows, row ∈ g.rows me) (startOfs : Fin n → Nat)
    (b : Build n) : ∃ c, rows.foldlM (writeRow g me startOfs) b = some c ∧
      c.localNghOfs = b.localNghOfs + rows.length*localNghEleSize g := by
  obtain ⟨c,ok,place,_⟩ := writeRowsSpec g me startOfs part b
  exact ⟨c,ok,place⟩

/- What is stored in a slot stays there while the later vertices are written. -/
theorem slotKept {rows : List (List Nat)} (part : ∀ row ∈ rows, row ∈ g.rows me) {c last : Build n} {bytes : List Nat}
    (written : SlotWritten g me startOfs b row c bytes) (ok : rows.foldlM (writeRow g me startOfs) c = some last) :
    Stored last.index b.localNghOfs bytes := by
  refine storedAgree written.stored (fun i _ inside => rowsKeep part ok ?_)
  have size := written.size
  have next := written.next
  omega

theorem slotNeverOverflows {n : Nat} (g : GraphParts n) (me : Fin n) (table : Fin n → List Nat) (allIn : Nat)
    (malloc : Mem) : ∃ last, writeLocal g me table allIn malloc = some last ∧
      ∀ pre row post, g.rows me = pre ++ row :: post → ∃ b c bytes,
        pre.foldlM (writeRow g me (outRemoteNghStartOfs g me table)) (writeHeader g me allIn malloc) = some b ∧
        b.localNghOfs = indexMetaLen + pre.length*localNghEleSize g ∧
        SlotWritten g me (outRemoteNghStartOfs g me table) b row c bytes ∧
        Stored last.index (indexMetaLen + pre.length*localNghEleSize g) bytes := by
  obtain ⟨last,ok,_⟩ := writeLocalSpec g me table allIn malloc
  refine ⟨last,ok,fun pre row post part => ?_⟩
  have known : ∀ r ∈ pre ++ row :: post, r ∈ g.rows me := fun r member => part ▸ member
  obtain ⟨b,before,place⟩ := rowsReach (fun r member => known r (List.mem_append_left _ member))
    (outRemoteNghStartOfs g me table) (writeHeader g me allIn malloc)
  obtain ⟨c,written⟩ := slotWritten (known row (List.mem_append_right _ List.mem_cons_self))
    (outRemoteNghStartOfs g me table) b
  have header : b.localNghOfs = indexMetaLen + pre.length*localNghEleSize g := place
  refine ⟨b,c,_,before,header,written,?_⟩
  rw [writeLocal,part,List.foldlM_append,before] at ok
  have rest : (row :: post).foldlM (writeRow g me (outRemoteNghStartOfs g me table)) b = some last := ok
  rw [List.foldlM_cons,written.wrote] at rest
  rw [← header]
  exact slotKept (fun r member => known r (List.mem_append_right _ (List.mem_cons_of_mem _ member))) written rest

-- Three neighbours on the other machine: a header and an offset in a slot of 16 bytes.
theorem slotNeverOverflowsThree : (writeLocal threeRemote 0 (fun _ => [0,0]) 0 (fun _ => 0)).isSome ∧
    localNghEleSize threeRemote = 16 ∧ ∃ bytes : List Nat, bytes.length ≤ 16 ∧ ∃ out,
      writeRecords threeRemote 0 (outRemoteNghStartOfs threeRemote 0 (fun _ => [0,0])) [1,2,3]
        (partIds threeRemote 0 [1,2,3]) ⟨[],fun _ => []⟩ = some ⟨bytes,out⟩ := by
  obtain ⟨last,ok,slots⟩ := slotNeverOverflows threeRemote 0 (fun _ => [0,0]) 0 (fun _ => 0)
  obtain ⟨b,c,bytes,start,_,written,_⟩ := slots [] [1,2,3] [] (by decide)
  cases Option.some.inj start
  exact ⟨by rw [ok]; rfl,by decide,bytes,written.size,written.records⟩

end CoTra.V3Slots
