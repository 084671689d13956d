import CoTra.Indices
import Mathlib.Data.List.Infix
import Mathlib.Data.List.TakeDrop

/-! The cached file streams (third_party/diskann/include/cached_io.h: cached_ifstream,
cached_ofstream). The elements of a file are bytes, or words where the file and the cache
are of whole words; `none` is the exception of a read beyond the end of the file. -/
namespace CoTra.CachedStreams

variable {α : Type}

-- cached_ifstream: the file with the place of the next read from it, and the cache.
structure Reader (α : Type) where
  file : List α
  tellg : Nat
  cacheBuf : List α
  cacheSize : Nat
  curOff : Nat

def openReader (file : List α) (cacheSize : Nat) : Reader α :=
  let cacheSize := min cacheSize file.length
  ⟨file,cacheSize,file.take cacheSize,cacheSize,0⟩

def read (s : Reader α) (n : Nat) : Option (List α × Reader α) :=
  if n ≤ s.cacheSize - s.curOff then
    some ((s.cacheBuf.drop s.curOff).take n,{ s with curOff := s.curOff + n })
  else
    let cached := s.cacheSize - s.curOff
    if s.file.length - s.tellg < n - cached then none
    else
      let found := (s.cacheBuf.drop s.curOff).take cached ++ (s.file.drop s.tellg).take (n - cached)
      let tellg := s.tellg + (n - cached)
      if s.cacheSize ≤ s.file.length - tellg then
        some (found,{ s with
          tellg := tellg + s.cacheSize
          cacheBuf := (s.file.drop tellg).take s.cacheSize
          curOff := 0 })
      else some (found,{ s with tellg := tellg, curOff := s.cacheSize })

/- The reads of a program, one after another. -/
def readAll (s : Reader α) : List Nat → Option (List (List α))
  | [] => some []
  | n :: sizes => (read s n).bind (fun t => (readAll t.2 sizes).map (t.1 :: ·))

-- cached_ofstream: the file with the place of the next write to it, and cache_buf up to cur_off.
structure Writer (α : Type) where
  file : List α
  tellp : Nat
  cacheBuf : List α
  cacheSize : Nat
  fsize : Nat

def openWriter (cacheSize : Nat) : Writer α := ⟨[],0,[],cacheSize,0⟩

-- A write to the file: what lies there is written over.
def overwrite (file : List α) (tellp : Nat) (data : List α) : List α :=
  file.take tellp ++ data ++ file.drop (tellp + data.length)

def writeFile (s : Writer α) (data : List α) : Writer α :=
  { s with
    file := overwrite s.file s.tellp data
    tellp := s.tellp + data.length
    fsize := s.fsize + data.length }

def flushCache (s : Writer α) : Writer α := { writeFile s s.cacheBuf with cacheBuf := [] }

def write (s : Writer α) (data : List α) : Writer α :=
  if data.length ≤ s.cacheSize - s.cacheBuf.length then { s with cacheBuf := s.cacheBuf ++ data }
  else writeFile (flushCache s) data

def reset (s : Writer α) : Writer α := { flushCache s with tellp := 0 }

def close (s : Writer α) : Writer α := if 0 < s.cacheBuf.length then flushCache s else s

section Reading

-- What has not been read yet.
def ahead (s : Reader α) : List α := s.cacheBuf.drop s.curOff ++ s.file.drop s.tellg

/- The cache is full, and the file goes on behind it. -/
structure Filled (s : Reader α) : Prop where
  cache : s.cacheBuf.length = s.cacheSize
  inside : s.curOff ≤ s.cacheSize
  place : s.tellg ≤ s.file.length

variable {s : Reader α} {file : List α} {n : Nat}

theorem openFilled (file : List α) (cacheSize : Nat) : Filled (openReader file cacheSize) := by
  refine ⟨?_,Nat.zero_le _,Nat.min_le_right _ _⟩
  simp only [openReader,List.length_take]
  omega

theorem openAhead (file : List α) (cacheSize : Nat) : ahead (openReader file cacheSize) = file := by
  simp only [ahead,openReader,List.drop_zero]
  exact List.take_append_drop _ file

theorem aheadLength (filled : Filled s) :
    (ahead s).length = (s.cacheSize - s.curOff) + (s.file.length - s.tellg) := by
  rw [ahead,List.length_append,List.length_drop,List.length_drop,filled.cache]

/- A read takes what lies ahead, from the cache, the file or both. -/
theorem readAhead (filled : Filled s) (enough : n ≤ (ahead s).length) :
    ∃ t, read s n = some ((ahead s).take n,t) ∧ Filled t ∧ ahead t = (ahead s).drop n := by
  have length := aheadLength filled
  have cached : (s.cacheBuf.drop s.curOff).length = s.cacheSize - s.curOff := by
    rw [List.length_drop,filled.cache]
  have inside := filled.inside
  have place := filled.place
  unfold read
  split
  · rename_i few
    have part : (ahead s).take n = (s.cacheBuf.drop s.curOff).take n :=
      List.take_append_of_le_length (by omega)
    rw [part]
    refine ⟨_,rfl,⟨filled.cache,by simp only; omega,filled.place⟩,?_⟩
    rw [ahead,ahead,List.drop_append_of_le_length (by omega),List.drop_drop]
  · rename_i many
    have part : (ahead s).take n = (s.cacheBuf.drop s.curOff).take (s.cacheSize - s.curOff) ++
        (s.file.drop s.tellg).take (n - (s.cacheSize - s.curOff)) := by
      have whole : (s.cacheBuf.drop s.curOff).length ≤ n := by omega
      rw [ahead,List.take_append,cached,List.take_of_length_le whole,List.take_of_length_le (Nat.le_of_eq cached)]
    have rest : (ahead s).drop n = s.file.drop (s.tellg + (n - (s.cacheSize - s.curOff))) := by
      rw [ahead,List.drop_append,cached,List.drop_eq_nil_of_le (by omega),List.nil_append,List.drop_drop]
    have room : ¬s.file.length - s.tellg < n - (s.cacheSize - s.curOff) := by omega
    simp only [if_neg room]
    rw [part,rest]
    split
    · rename_i full
      refine ⟨_,rfl,⟨?_,Nat.zero_le _,?_⟩,?_⟩
      · simp only [List.length_take,List.length_drop]
        omega
      · simp only
        omega
      · simp only [ahead,List.drop_zero]
        exact (congrArg _ List.drop_drop.symm).trans (List.take_append_drop _ _)
    · refine ⟨_,rfl,⟨filled.cache,Nat.le_refl _,?_⟩,?_⟩
      · simp only
        omega
      · rw [ahead,List.drop_eq_nil_of_le (by rw [filled.cache]),List.nil_append]

theorem readPart {part rest : List α} (filled : Filled s) (front : ahead s = part ++ rest) :
    ∃ t, read s part.length = some (part,t) ∧ Filled t ∧ ahead t = rest := by
  have enough : part.length ≤ (ahead s).length := by
    rw [front,List.length_append]
    exact Nat.le_add_right _ _
  obtain ⟨t,one,filled',rest'⟩ := readAhead filled enough
  rw [front,List.take_left] at one
  rw [front,List.drop_left] at rest'
  exact ⟨t,one,filled',rest'⟩

theorem readBeyond (filled : Filled s) (few : (ahead s).length < n) : read s n = none := by
  have length := aheadLength filled
  have many : ¬n ≤ s.cacheSize - s.curOff := by omega
  have short : s.file.length - s.tellg < n - (s.cacheSize - s.curOff) := by omega
  unfold read
  simp only [if_neg many,if_pos short]

theorem readAllAhead {sizes : List Nat} {parts : List (List α)} (filled : Filled s) :
    readAll s sizes = some parts ↔ parts.map List.length = sizes ∧ parts.flatten <+: ahead s := by
  induction sizes generalizing s parts with
  | nil =>
    constructor
    · intro same
      cases same
      exact ⟨rfl,List.nil_prefix⟩
    · rintro ⟨none',_⟩
      rw [List.map_eq_nil_iff.mp none']
      rfl
  | cons n sizes ih =>
    rw [readAll]
    rcases Nat.lt_or_ge (ahead s).length n with few | enough
    · rw [readBeyond filled few,Option.bind_none]
      refine ⟨nofun,fun ⟨lengths,front⟩ => ?_⟩
      obtain ⟨part,rest,rfl,size,_⟩ := List.map_eq_cons_iff.mp lengths
      have short := front.length_le
      rw [List.flatten_cons,List.length_append] at short
      omega
    · obtain ⟨t,one,filled',rest⟩ := readAhead filled enough
      have size : ((ahead s).take n).length = n := List.length_take_of_le enough
      rw [one,Option.bind_some,Option.map_eq_some_iff]
      constructor
      · rintro ⟨others,more,rfl⟩
        obtain ⟨lengths,front⟩ := (ih filled').mp more
        refine ⟨by rw [List.map_cons,size,lengths],?_⟩
        rw [rest] at front
        rw [List.flatten_cons]
        conv_rhs => rw [← List.take_append_drop n (ahead s)]
        exact List.prefix_append_right_inj _ |>.mpr front
      · rintro ⟨lengths,front⟩
        obtain ⟨part,others,rfl,length,lengths'⟩ := List.map_eq_cons_iff.mp lengths
        obtain ⟨last,whole⟩ := front
        rw [List.flatten_cons,List.append_assoc] at whole
        have first : (ahead s).take n = part := by
          rw [← whole,← length,List.take_left]
        have second : ahead t = others.flatten ++ last := by
          rw [rest,← whole,← length,List.drop_left]
        exact ⟨others,(ih filled').mpr ⟨lengths',last,second.symm⟩,by rw [first]⟩

/- The reads of a program give consecutive parts of the file from its begin, whatever the size of the
cache, and fail just when they run past its end. -/
theorem readerExact (file : List α) (cacheSize : Nat) (sizes : List Nat) (parts : List (List α)) :
    readAll (openReader file cacheSize) sizes = some parts ↔
      parts.map List.length = sizes ∧ parts.flatten <+: file := by
  rw [readAllAhead (openFilled file cacheSize),openAhead]

end Reading

section Writing

-- A program's use of a stream before it is closed.
inductive Use (α : Type) where
  | write (data : List α)
  | reset

def use (s : Writer α) : Use α → Writer α
  | .write data => write s data
  | .reset => reset s

-- The same use of a file without a cache.
def plain (s : List α × Nat) : Use α → List α × Nat
  | .write data => (overwrite s.1 s.2 data,s.2 + data.length)
  | .reset => (s.1,0)

def written : Use α → Nat
  | .write data => data.length
  | .reset => 0

variable {s : Writer α} {file a b : List α} {p : Nat}

theorem overwriteNothing (file : List α) (p : Nat) : overwrite file p [] = file := by
  rw [overwrite,List.append_nil,List.length_nil,Nat.add_zero,List.take_append_drop]

theorem overwriteLength (inside : p ≤ file.length) : p + a.length ≤ (overwrite file p a).length := by
  rw [overwrite,List.length_append,List.length_append,List.length_take_of_le inside]
  omega

/- Two writes, one behind the other, are one. -/
theorem overwriteTwice (inside : p ≤ file.length) (a b : List α) :
    overwrite (overwrite file p a) (p + a.length) b = overwrite file p (a ++ b) := by
  have first : (file.take p ++ a).length = p + a.length := by
    rw [List.length_append,List.length_take_of_le inside]
  have front : (overwrite file p a).take (p + a.length) = file.take p ++ a := by
    rw [overwrite,← first,List.take_left]
  have back : (overwrite file p a).drop (p + a.length + b.length) = file.drop (p + (a ++ b).length) := by
    rw [overwrite,← first,← List.drop_drop,List.drop_left,List.drop_drop,first,List.length_append]
    rw [Nat.add_assoc]
  rw [overwrite,front,back,overwrite,← List.append_assoc (file.take p)]

/- The file that s stands for, with the place of the next write: the cache is written. -/
def uncached (s : Writer α) : List α × Nat := (overwrite s.file s.tellp s.cacheBuf,s.tellp + s.cacheBuf.length)

structure Behind (s : Writer α) (total : Nat) : Prop where
  place : s.tellp ≤ s.file.length
  size : s.fsize + s.cacheBuf.length = total

theorem openBehind {cacheSize : Nat} : Behind (openWriter cacheSize : Writer α) 0 := ⟨Nat.le_refl 0,rfl⟩

theorem flushBehind {total : Nat} (behind : Behind s total) :
    Behind (flushCache s) total ∧ uncached (flushCache s) = uncached s ∧ (flushCache s).cacheBuf = [] :=
  ⟨⟨overwriteLength behind.place,behind.size⟩,Prod.ext (overwriteNothing _ _) rfl,rfl⟩

theorem useBehind {total : Nat} (behind : Behind s total) (u : Use α) :
    Behind (use s u) (total + written u) ∧ uncached (use s u) = plain (uncached s) u := by
  have size := behind.size
  obtain ⟨flushed,same,none'⟩ := flushBehind behind
  cases u with
  | write data =>
    simp only [use,write]
    split
    · refine ⟨⟨behind.place,?_⟩,Prod.ext (overwriteTwice behind.place _ data).symm ?_⟩
      · simp only [List.length_append,written]
        omega
      · simp only [uncached,plain,List.length_append]
        omega
    · refine ⟨⟨overwriteLength flushed.place,?_⟩,?_⟩
      · have size' := flushed.size
        simp only [writeFile,none',List.length_nil,written] at size' ⊢
        omega
      · rw [← same]
        simp only [uncached,plain,writeFile,none',overwriteNothing,List.length_nil,Nat.add_zero]
  | reset =>
    refine ⟨⟨Nat.zero_le _,flushed.size⟩,?_⟩
    rw [← same]
    simp only [use,reset,uncached,plain,none',overwriteNothing,List.length_nil,Nat.add_zero]

theorem usesBehind {total : Nat} (behind : Behind s total) (uses : List (Use α)) :
    Behind (uses.foldl use s) (total + (uses.map written).sum) ∧
      uncached (uses.foldl use s) = uses.foldl plain (uncached s) := by
  induction uses generalizing s total with
  | nil => exact ⟨behind,rfl⟩
  | cons u uses ih =>
    obtain ⟨next,same⟩ := useBehind behind u
    obtain ⟨last,all⟩ := ih next
    rw [List.map_cons,List.sum_cons,← Nat.add_assoc]
    exact ⟨last,all.trans (congrArg (uses.foldl plain) same)⟩

theorem closeFile {total : Nat} (behind : Behind s total) :
    (close s).file = (uncached s).1 ∧ (close s).fsize = total := by
  have size := behind.size
  unfold close
  split
  · exact ⟨rfl,size⟩
  · rename_i empty
    have none' := List.eq_nil_of_length_eq_zero (Nat.le_zero.mp (Nat.not_lt.mp empty))
    rw [none',List.length_nil,Nat.add_zero] at size
    refine ⟨?_,size⟩
    rw [uncached,none',overwriteNothing]

/- Whatever the size of the cache, the file that is closed is the one that the same writes and resets
leave without a cache, and get_file_size counts what was written. -/
theorem writerExact (cacheSize : Nat) (uses : List (Use α)) :
    (close (uses.foldl use (openWriter cacheSize))).file = (uses.foldl plain ([],0)).1 ∧
      (close (uses.foldl use (openWriter cacheSize))).fsize = (uses.map written).sum := by
  obtain ⟨behind,same⟩ := usesBehind openBehind uses
  obtain ⟨closed,size⟩ := closeFile behind
  refine ⟨?_,size.trans (Nat.zero_add _)⟩
  rw [closed,same]
  rfl

theorem writeNothing (s : Writer α) : write s [] = s := by
  have room : ([] : List α).length ≤ s.cacheSize - s.cacheBuf.length := Nat.zero_le _
  rw [write,if_pos room,List.append_nil]

/- Nothing but `content` has been written. -/
def Holds (s : Writer α) (content : List α) : Prop :=
  (∃ total, Behind s total) ∧ uncached s = (content,content.length)

theorem openHolds (cacheSize : Nat) : Holds (openWriter cacheSize : Writer α) [] := ⟨⟨0,openBehind⟩,rfl⟩

theorem writeHolds {content : List α} (holds : Holds s content) (data : List α) :
    Holds (write s data) (content ++ data) := by
  obtain ⟨⟨total,behind⟩,same⟩ := holds
  obtain ⟨behind',same'⟩ := useBehind behind (.write data)
  refine ⟨⟨_,behind'⟩,same'.trans ?_⟩
  rw [same,plain,overwrite,List.take_length,List.drop_eq_nil_of_le (Nat.le_add_right _ _),List.append_nil,
    List.length_append]

theorem closeHolds {content : List α} (holds : Holds s content) : (close s).file = content := by
  obtain ⟨⟨total,behind⟩,same⟩ := holds
  exact (closeFile behind).1.trans (congrArg Prod.fst same)

/- The first part of a file is written once more at the end. -/
theorem rewriteHolds {content : List α} (holds : Holds s content) (front : List α) :
    (close (write (reset s) front)).file = front ++ content.drop front.length := by
  obtain ⟨⟨total,behind⟩,same⟩ := holds
  obtain ⟨behind',same'⟩ := useBehind behind .reset
  obtain ⟨behind'',same''⟩ := useBehind behind' (.write front)
  refine (closeFile behind'').1.trans ?_
  rw [same'',same',same,plain,plain,overwrite,List.take_zero,List.nil_append,Nat.zero_add]

end Writing

end CoTra.CachedStreams
