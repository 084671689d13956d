import CoTra.Indices
import Mathlib.Data.List.Perm.Subperm
import Mathlib.Data.List.Nodup
import Mathlib.Data.List.TakeWhile

/-! get_machine_name of ip_config.cc: the host names of a configuration file by machine id.
A name that is still empty marks an id that was not seen, so a line with an empty host name
leaves its id unseen. -/
namespace CoTra.MachineNames

abbrev Text := List Char

def trimConfigValue (value : Text) : Text :=
  let blank := fun c : Char => decide (c ∈ [' ','\t','\r','\n'])
  ((value.dropWhile blank).reverse.dropWhile blank).reverse

-- none: the stream is at its end
def getline (delim : Char) (s : Text) : Option (Text × Text) :=
  if s = [] then none else some (s.takeWhile (· ≠ delim),(s.dropWhile (· ≠ delim)).tail)

/- `iss >> id` of an int. -/
def readInt (s : Text) : Option Int :=
  let s := s.dropWhile (fun c => c ∈ [' ','\t','\n','\x0b','\x0c','\r'])
  let (negative,digits) := match s with
    | '-' :: rest => (true,rest)
    | '+' :: rest => (false,rest)
    | rest => (false,rest)
  let digits := digits.takeWhile Char.isDigit
  let value : Int := digits.foldl (fun v c => v*10 + (c.toNat - 48 : Nat)) 0
  let id := if negative then -value else value
  if digits = [] ∨ id < -2^31 ∨ 2^31 ≤ id then none else some id

structure Entry where
  first : Int
  second : Text
  deriving DecidableEq, Repr

def readEntry (line : Text) : Option Entry := do
  let (hostOrIP,rest) ← getline '=' line
  let id ← readInt rest
  some ⟨id,trimConfigValue hostOrIP⟩

/- The while loop over the lines; fuel counts them. -/
def readLines : Nat → Text → List Text
  | 0, _ => []
  | fuel + 1, s => match getline '\n' s with
    | none => []
    | some (line,rest) => line :: readLines fuel rest

def skipLine (s : Text) : Text := match getline '\n' s with
  | none => []
  | some (_,rest) => rest

def entriesOf (file : Text) : List Entry :=
  let rest := skipLine (skipLine file)
  (readLines rest.length rest).filterMap readEntry

def maxId (entries : List Entry) : Int := entries.foldl (fun m e => max m e.first) (-1)

-- none: the id is taken
def place (machineName : List Text) (e : Entry) : Option (List Text) :=
  if e.first < 0 ∨ machineName.getD e.first.toNat [] ≠ [] then none
  else some (machineName.set e.first.toNat e.second)

def machineNames (entries : List Entry) : List Text :=
  if entries.any (fun e => e.first < 0 ∨ entries.length ≤ e.first.toNat) then []
  else match entries.foldlM place (List.replicate (maxId entries + 1).toNat []) with
    | none => []
    | some machineName => if machineName.any (fun name => name = []) then [] else machineName

-- none: the file cannot be opened
def getMachineName : Option Text → List Text
  | none => []
  | some file => machineNames (entriesOf file)

section Lines

theorem getlineSplits {delim : Char} {s line rest : Text} (ok : getline delim s = some (line,rest)) :
    delim ∉ line ∧ rest.length < s.length ∧ (s = line ++ delim :: rest ∨ s = line ∧ rest = []) := by
  unfold getline at ok
  split at ok <;> try contradiction
  rename_i some'
  cases Option.some.inj ok
  have whole := List.takeWhile_append_dropWhile (p := fun c => decide (c ≠ delim)) (l := s)
  refine ⟨fun inside => by simpa using List.mem_takeWhile_imp inside,?_,?_⟩
  · cases after : s.dropWhile (fun c => decide (c ≠ delim)) with
    | nil => exact List.length_pos_iff.mpr some'
    | cons c rest =>
      rw [after] at whole
      have length := congrArg List.length whole
      rw [List.length_append,List.length_cons] at length
      rw [List.tail_cons]
      omega
  · cases after : s.dropWhile (fun c => decide (c ≠ delim)) with
    | nil =>
      rw [after,List.append_nil] at whole
      exact .inr ⟨whole.symm,rfl⟩
    | cons c rest =>
      have stops := List.head_dropWhile_not (fun c => decide (c ≠ delim)) (l := s) (by rw [after]; exact List.cons_ne_nil c rest)
      simp only [after,List.head_cons,decide_eq_false_iff_not,not_not] at stops
      rw [after,stops] at whole
      exact .inl whole.symm

/- The lines are the file cut at its line ends. -/
theorem linesJoin {fuel : Nat} {s : Text} (enough : s.length ≤ fuel) : (∀ line ∈ readLines fuel s, '\n' ∉ line) ∧
    ((readLines fuel s).flatMap (· ++ ['\n']) = s ∨ (readLines fuel s).flatMap (· ++ ['\n']) = s ++ ['\n']) := by
  induction fuel generalizing s with
  | zero =>
    rw [List.length_eq_zero_iff.mp (Nat.le_zero.mp enough)]
    exact ⟨fun line member => absurd member List.not_mem_nil,.inl rfl⟩
  | succ fuel ih =>
    unfold readLines
    cases read : getline '\n' s with
    | none =>
      unfold getline at read
      split at read <;> try contradiction
      rename_i empty
      rw [empty]
      exact ⟨fun line member => absurd member List.not_mem_nil,.inl rfl⟩
    | some taken =>
      obtain ⟨clean,shorter,parts⟩ := getlineSplits read
      obtain ⟨cleans,joined⟩ := ih (s := taken.2) (by omega)
      refine ⟨fun line member => ?_,?_⟩
      · rcases List.mem_cons.mp member with rfl | later
        · exact clean
        · exact cleans line later
      · simp only [List.flatMap_cons]
        rcases parts with same | ⟨same,last⟩
        · rw [same]
          rcases joined with exact' | more
          · rw [exact']
            exact .inl (by simp)
          · rw [more]
            exact .inr (by simp)
        · have none' : readLines fuel taken.2 = [] := by
            rw [last]
            cases fuel <;> rfl
          rw [none',same]
          exact .inr (by simp)

end Lines

section Placing

variable {entries : List Entry} {machineName machineName' : List Text}

-- An entry with a host name is the last of its id.
def Unseen (a b : Entry) : Prop := a.first = b.first → a.second = []

def Inside (size : Nat) (e : Entry) : Prop := 0 ≤ e.first ∧ e.first.toNat < size

def nameAt (machineName : List Text) (k : Nat) : Text := machineName.getD k []

theorem nameSet {i : Nat} (inside : i < machineName.length) (host : Text) (k : Nat) :
    nameAt (machineName.set i host) k = if i = k then host else nameAt machineName k := by
  simp only [nameAt,List.getD_eq_getElem?_getD,List.getElem?_set,inside,if_true]
  split <;> rfl

theorem placeIff {e : Entry} (inside : Inside machineName.length e) :
    place machineName e = some machineName' ↔
      nameAt machineName e.first.toNat = [] ∧ machineName' = machineName.set e.first.toNat e.second := by
  unfold place
  split
  · rename_i taken
    refine ⟨fun ok => (nomatch ok),fun ⟨free,_⟩ => ?_⟩
    exact absurd free (taken.resolve_left (Int.not_lt.mpr inside.1))
  · rename_i free
    simp only [not_or,not_not] at free
    exact ⟨fun ok => ⟨free.2,(Option.some.inj ok).symm⟩,fun same => by rw [same.2]⟩

theorem placeFree {e f : Entry} (inside : Inside machineName.length e) (later : Inside machineName.length f)
    (free : nameAt machineName e.first.toNat = []) :
    nameAt (machineName.set e.first.toNat e.second) f.first.toNat = [] ↔
      nameAt machineName f.first.toNat = [] ∧ Unseen e f := by
  rw [nameSet inside.2]
  split
  · rename_i same
    have ids : e.first = f.first := by
      have first := inside.1
      have second := later.1
      omega
    rw [← same]
    exact ⟨fun empty => ⟨free,fun _ => empty⟩,fun both => both.2 ids⟩
  · rename_i other
    exact ⟨fun empty => ⟨empty,fun ids => absurd (congrArg Int.toNat ids) other⟩,And.left⟩

/- The loop goes through when it never meets an id that has a name. -/
theorem placeAll (inside : ∀ e ∈ entries, Inside machineName.length e) :
    (∃ machineName', entries.foldlM place machineName = some machineName') ↔
      (∀ e ∈ entries, nameAt machineName e.first.toNat = []) ∧ entries.Pairwise Unseen := by
  induction entries generalizing machineName with
  | nil => exact ⟨fun _ => ⟨fun e member => absurd member List.not_mem_nil,List.Pairwise.nil⟩,fun _ => ⟨_,rfl⟩⟩
  | cons e rest ih =>
    have first := inside e List.mem_cons_self
    have later : ∀ f ∈ rest, Inside (machineName.set e.first.toNat e.second).length f := fun f member => by
      rw [List.length_set]
      exact inside f (List.mem_cons_of_mem e member)
    rw [List.forall_mem_cons,List.pairwise_cons]
    constructor
    · rintro ⟨last,ok⟩
      rw [List.foldlM_cons] at ok
      obtain ⟨next,step,ok⟩ := Option.bind_eq_some_iff.mp ok
      obtain ⟨free,rfl⟩ := (placeIff first).mp step
      obtain ⟨frees,pairs⟩ := (ih later).mp ⟨last,ok⟩
      have both := fun f member => (placeFree first (inside f (List.mem_cons_of_mem e member)) free).mp (frees f member)
      exact ⟨⟨free,fun f member => (both f member).1⟩,fun f member => (both f member).2,pairs⟩
    · rintro ⟨⟨free,frees⟩,unseen,pairs⟩
      obtain ⟨last,ok⟩ := (ih later).mpr ⟨fun f member =>
        (placeFree first (inside f (List.mem_cons_of_mem e member)) free).mpr ⟨frees f member,unseen f member⟩,pairs⟩
      refine ⟨last,?_⟩
      rw [List.foldlM_cons,(placeIff first).mpr ⟨free,rfl⟩]
      exact ok

/- Every host name ends in its place, and nothing else is named. -/
structure Placed (entries : List Entry) (machineName machineName' : List Text) : Prop where
  length : machineName'.length = machineName.length
  named : ∀ e ∈ entries, e.second ≠ [] → nameAt machineName' e.first.toNat = e.second
  source : ∀ k : Nat, nameAt machineName' k = nameAt machineName k ∨ ∃ e ∈ entries, e.first = k ∧ e.second ≠ []

theorem placed (inside : ∀ e ∈ entries, Inside machineName.length e)
    (ok : entries.foldlM place machineName = some machineName') : Placed entries machineName machineName' := by
  induction entries generalizing machineName with
  | nil =>
    cases Option.some.inj ok
    exact ⟨rfl,fun e member => absurd member List.not_mem_nil,fun _ => .inl rfl⟩
  | cons e rest ih =>
    have first := inside e List.mem_cons_self
    have unseen := (List.pairwise_cons.mp ((placeAll inside).mp ⟨_,ok⟩).2).1
    rw [List.foldlM_cons] at ok
    obtain ⟨next,step,ok⟩ := Option.bind_eq_some_iff.mp ok
    obtain ⟨free,rfl⟩ := (placeIff first).mp step
    have later := ih (fun f member => by
      rw [List.length_set]
      exact inside f (List.mem_cons_of_mem e member)) ok
    refine ⟨later.length.trans List.length_set,fun f member host => ?_,fun k => ?_⟩
    · rcases List.mem_cons.mp member with rfl | after
      · rcases later.source f.first.toNat with kept | ⟨g,among,same,_⟩
        · rw [kept,nameSet first.2,if_pos rfl]
        · have ids : f.first = g.first := by
            rw [same,Int.toNat_of_nonneg first.1]
          exact absurd (unseen g among ids) host
      · exact later.named f after host
    · rcases later.source k with kept | ⟨f,among,same⟩
      · rw [kept,nameSet first.2]
        split
        · rename_i here
          by_cases host : e.second = []
          · left
            rw [host,← here,free]
          · exact .inr ⟨e,List.mem_cons_self,by rw [← here,Int.toNat_of_nonneg first.1],host⟩
        · exact .inl rfl
      · exact .inr ⟨f,List.mem_cons_of_mem e among,same⟩

end Placing

section MaxId

theorem foldlMax (entries : List Entry) (m : Int) : m ≤ entries.foldl (fun m e => max m e.first) m ∧
    (∀ e ∈ entries, e.first ≤ entries.foldl (fun m e => max m e.first) m) ∧
    (entries.foldl (fun m e => max m e.first) m = m ∨
      ∃ e ∈ entries, e.first = entries.foldl (fun m e => max m e.first) m) := by
  induction entries generalizing m with
  | nil => exact ⟨Int.le_refl m,fun e member => absurd member List.not_mem_nil,.inl rfl⟩
  | cons e rest ih =>
    obtain ⟨above,all,source⟩ := ih (max m e.first)
    rw [List.foldl_cons]
    refine ⟨Int.le_trans (Int.le_max_left m e.first) above,
      List.forall_mem_cons.mpr ⟨Int.le_trans (Int.le_max_right m e.first) above,all⟩,?_⟩
    rcases source with same | ⟨f,among,same⟩
    · rw [same,Int.max_def]
      split
      · exact .inr ⟨e,List.mem_cons_self,rfl⟩
      · exact .inl rfl
    · exact .inr ⟨f,List.mem_cons_of_mem e among,same⟩

variable {entries : List Entry}

theorem maxIdUpper {e : Entry} (member : e ∈ entries) : e.first ≤ maxId entries := (foldlMax entries (-1)).2.1 e member

theorem maxIdMem (entries : List Entry) (some' : 0 ≤ maxId entries) : ∃ e ∈ entries, e.first = maxId entries := by
  rcases (foldlMax entries (-1)).2.2 with same | found
  · have minus : maxId entries = -1 := same
    omega
  · exact found

end MaxId

section Accepted

variable {entries : List Entry}

/- What the three checks let through. -/
structure Accepted (entries : List Entry) : Prop where
  some' : entries ≠ []
  inside : ∀ e ∈ entries, Inside entries.length e
  unseen : entries.Pairwise Unseen
  covered : ∀ e ∈ entries, ∀ k : Nat, k ≤ e.first → ∃ f ∈ entries, f.first = k ∧ f.second ≠ []

/- The ids are 0..n-1, each once, and every host has a name. -/
structure Valid (entries : List Entry) : Prop where
  some' : entries ≠ []
  ids : (entries.map Entry.first).Perm ((List.range entries.length).map Int.ofNat)
  hosts : ∀ e ∈ entries, e.second ≠ []

theorem Valid.accepted (valid : Valid entries) : Accepted entries := by
  have range : ∀ {v : Int}, v ∈ entries.map Entry.first ↔ ∃ k < entries.length, (k : Int) = v := fun {v} =>
    valid.ids.mem_iff.trans (by simp only [List.mem_map,List.mem_range,Int.ofNat_eq_natCast])
  have once : (entries.map Entry.first).Nodup :=
    valid.ids.nodup_iff.mpr (List.nodup_range.map (fun a b same => Int.ofNat.inj same))
  refine ⟨valid.some',fun e member => ?_,?_,fun e member k below => ?_⟩
  · obtain ⟨k,less,same⟩ := range.mp (List.mem_map_of_mem member)
    rw [Inside,← same]
    exact ⟨Int.natCast_nonneg k,less⟩
  · exact (List.pairwise_map.mp once).imp (fun apart same => absurd same apart)
  · obtain ⟨j,less,same⟩ := range.mp (List.mem_map_of_mem member)
    obtain ⟨f,among,here⟩ := List.mem_map.mp (range.mpr ⟨k,by omega,rfl⟩)
    exact ⟨f,among,here,valid.hosts f among⟩

theorem Accepted.valid (accepted : Accepted entries) (hosts : ∀ e ∈ entries, e.second ≠ []) : Valid entries := by
  refine ⟨accepted.some',?_,hosts⟩
  have once : (entries.map Entry.first).Nodup := by
    refine List.pairwise_map.mpr (accepted.unseen.imp_of_mem ?_)
    intro a b among _ unseen same
    exact hosts a among (unseen same)
  refine (once.subperm fun v member => ?_).perm_of_length_le (by simp)
  obtain ⟨e,among,rfl⟩ := List.mem_map.mp member
  obtain ⟨nonneg,less⟩ := accepted.inside e among
  exact List.mem_map.mpr ⟨e.first.toNat,List.mem_range.mpr less,Int.toNat_of_nonneg nonneg⟩

/- The vector that is returned. -/
structure Named (entries : List Entry) (machineName : List Text) : Prop where
  length : machineName.length = (maxId entries + 1).toNat
  named : ∀ e ∈ entries, e.second ≠ [] → nameAt machineName e.first.toNat = e.second

theorem nameEmpty (size k : Nat) : nameAt (List.replicate size []) k = [] := by
  simp only [nameAt,List.getD_eq_getElem?_getD,List.getElem?_replicate]
  split <;> rfl

theorem nameHere {machineName : List Text} {k : Nat} (less : k < machineName.length) :
    nameAt machineName k = machineName[k] := by
  rw [nameAt,List.getD_eq_getElem?_getD,List.getElem?_eq_getElem less,Option.getD_some]

theorem insideMax {e : Entry} (inside : Inside entries.length e) (member : e ∈ entries) :
    Inside (List.replicate (maxId entries + 1).toNat ([] : Text)).length e := by
  have upper := maxIdUpper member
  have nonneg := inside.1
  rw [List.length_replicate]
  exact ⟨nonneg,by omega⟩

section Checked

variable {machineName : List Text} (filled : Placed entries (List.replicate (maxId entries + 1).toNat []) machineName)
include filled

theorem filledLength : machineName.length = (maxId entries + 1).toNat := filled.length.trans List.length_replicate

-- An id up to the largest has no name.
theorem missingRejected (missing : ∃ name ∈ machineName, name = []) : ¬Accepted entries := by
  intro accepted
  obtain ⟨name,member,empty⟩ := missing
  obtain ⟨k,less,here⟩ := List.mem_iff_getElem.mp member
  have length := filledLength filled
  obtain ⟨e,among,largest⟩ := maxIdMem entries (by omega)
  obtain ⟨f,found,same,host⟩ := accepted.covered e among k (by omega)
  have content := filled.named f found host
  rw [same,Int.toNat_natCast,nameHere less,here,empty] at content
  exact host content.symm

theorem fullCovered (full : ∀ name ∈ machineName, name ≠ []) {e : Entry} (among : e ∈ entries) {k : Nat}
    (below : k ≤ e.first) : ∃ f ∈ entries, f.first = k ∧ f.second ≠ [] := by
  have largest := maxIdUpper among
  have length := filledLength filled
  have less : k < machineName.length := by omega
  refine (filled.source k).resolve_left (fun kept => ?_)
  rw [nameEmpty,nameHere less] at kept
  exact full _ (List.getElem_mem less) kept

end Checked

theorem machineNamesCases (entries : List Entry) :
    ¬Accepted entries ∧ machineNames entries = [] ∨
      Accepted entries ∧ machineNames entries ≠ [] ∧ Named entries (machineNames entries) := by
  unfold machineNames
  split
  · rename_i outside
    refine .inl ⟨fun accepted => ?_,rfl⟩
    obtain ⟨e,member,wrong⟩ := List.any_eq_true.mp outside
    obtain ⟨nonneg,less⟩ := accepted.inside e member
    simp only [decide_eq_true_eq] at wrong
    omega
  · rename_i within
    have inside : ∀ e ∈ entries, Inside entries.length e := fun e member => by
      simp only [List.any_eq_true,not_exists,not_and,decide_eq_true_eq] at within
      have ok := within e member
      exact ⟨by omega,by omega⟩
    have fits := fun e member => insideMax (inside e member) member
    have all := placeAll fits
    simp only [nameEmpty,implies_true,true_and] at all
    split
    · rename_i stopped
      refine .inl ⟨fun accepted => ?_,rfl⟩
      obtain ⟨machineName,ok⟩ := all.mpr accepted.unseen
      exact nomatch stopped.symm.trans ok
    · rename_i machineName ok
      have filled := placed fits ok
      have length := filledLength filled
      split
      · rename_i missing
        simp only [List.any_eq_true,decide_eq_true_eq] at missing
        exact .inl ⟨missingRejected filled missing,rfl⟩
      · rename_i full
        simp only [List.any_eq_true,not_exists,not_and,decide_eq_true_eq] at full
        rcases entries.eq_nil_or_concat with empty | ⟨before,e,some'⟩
        · subst empty
          exact .inl ⟨fun accepted => accepted.some' rfl,List.length_eq_zero_iff.mp length⟩
        · have member : e ∈ entries := by rw [some']; simp
          have upper := maxIdUpper member
          have nonneg := (inside e member).1
          refine .inr ⟨⟨List.ne_nil_of_mem member,inside,all.mp ⟨machineName,ok⟩,fun f among k below => ?_⟩,?_,length,filled.named⟩
          · exact fullCovered filled full among below
          · exact List.length_pos_iff.mp (by omega)

end Accepted

/- What the configuration check promises. -/
def Exact (machineName : List Text) (entries : List Entry) : Prop :=
  (machineName ≠ [] ↔ Valid entries) ∧
    (Valid entries → machineName.length = entries.length ∧ ∀ e ∈ entries, machineName[e.first.toNat]? = some e.second)

/- Ids in range, an entry with a host name for every id up to the largest, and nothing behind
it, but some entries in front of it have an empty one. -/
structure Masked (entries : List Entry) : Prop where
  blank : ∃ e ∈ entries, e.second = []
  inside : ∀ e ∈ entries, Inside entries.length e
  unseen : entries.Pairwise Unseen
  covered : ∀ e ∈ entries, ∀ k : Nat, k ≤ e.first → ∃ f ∈ entries, f.first = k ∧ f.second ≠ []

theorem validNames {entries : List Entry} (valid : Valid entries) (named : Named entries (machineNames entries)) :
    (machineNames entries).length = entries.length ∧
      ∀ e ∈ entries, (machineNames entries)[e.first.toNat]? = some e.second := by
  have accepted := valid.accepted
  have size : (maxId entries + 1).toNat = entries.length := by
    have some' := List.length_pos_iff.mpr valid.some'
    obtain ⟨e,member,last⟩ : ∃ e ∈ entries, e.first = (entries.length - 1 : Nat) := by
      have inside : ((entries.length - 1 : Nat) : Int) ∈ entries.map Entry.first :=
        valid.ids.mem_iff.mpr (List.mem_map.mpr ⟨_,List.mem_range.mpr (by omega),rfl⟩)
      exact List.mem_map.mp inside
    have upper := maxIdUpper member
    obtain ⟨f,among,largest⟩ := maxIdMem entries (by omega)
    have less := (accepted.inside f among).2
    omega
  refine ⟨named.length.trans size,fun e member => ?_⟩
  have less : e.first.toNat < (machineNames entries).length := by
    rw [named.length,size]
    exact (accepted.inside e member).2
  rw [List.getElem?_eq_getElem less,← nameHere less,named.named e member (valid.hosts e member)]

theorem namesExact (file : Text) :
    Exact (getMachineName (some file)) (entriesOf file) ↔ ¬Masked (entriesOf file) := by
  have blankOrValid : Accepted (entriesOf file) → ¬Masked (entriesOf file) → Valid (entriesOf file) := by
    intro accepted clear
    refine accepted.valid (fun e member empty => clear ?_)
    exact ⟨⟨e,member,empty⟩,accepted.inside,accepted.unseen,accepted.covered⟩
  have notBoth : Masked (entriesOf file) → ¬Valid (entriesOf file) := by
    intro masked valid
    obtain ⟨e,member,empty⟩ := masked.blank
    exact valid.hosts e member empty
  rw [getMachineName]
  rcases machineNamesCases (entriesOf file) with ⟨refused,empty⟩ | ⟨accepted,some',named⟩
  · refine ⟨fun _ masked => ?_,fun _ => ⟨⟨fun some' => absurd empty some',fun valid => absurd valid.accepted refused⟩,
      fun valid => absurd valid.accepted refused⟩⟩
    obtain ⟨e,member,_⟩ := masked.blank
    exact refused ⟨List.ne_nil_of_mem member,masked.inside,masked.unseen,masked.covered⟩
  · constructor
    · exact fun exact' masked => notBoth masked (exact'.1.mp some')
    · intro clear
      exact ⟨⟨fun _ => blankOrValid accepted clear,fun _ => some'⟩,fun valid => validNames valid named⟩

example : getMachineName (some "alpha\n18516\nbeta = 1\n# comment\n alpha=0 \n".toList) =
    ["alpha".toList,"beta".toList] := by decide +kernel

/- Id 0 twice, first without a host name. -/
def unnamedFirst : Text := "alpha\n18516\n=0\nalpha=0\n".toList

theorem unnamedFirstPasses : entriesOf unnamedFirst = [⟨0,[]⟩,⟨0,"alpha".toList⟩] ∧
    getMachineName (some unnamedFirst) = ["alpha".toList] ∧
    ¬Exact (getMachineName (some unnamedFirst)) (entriesOf unnamedFirst) := by
  have entries : entriesOf unnamedFirst = [⟨0,[]⟩,⟨0,"alpha".toList⟩] := by decide +kernel
  have names : getMachineName (some unnamedFirst) = ["alpha".toList] := by decide +kernel
  refine ⟨entries,names,fun exact' => ?_⟩
  have valid := exact'.1.mp (by rw [names]; exact List.cons_ne_nil _ _)
  exact valid.hosts ⟨0,[]⟩ (by rw [entries]; exact List.mem_cons_self) rfl

end CoTra.MachineNames
