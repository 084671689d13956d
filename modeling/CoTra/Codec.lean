import CoTra.Indices
import Mathlib.Data.List.Basic
import Mathlib.Data.UInt
import Mathlib.Algebra.Order.Group.Nat

/-! Records in byte buffers. A value that is copied as it lies in memory has a fixed
number of bytes and is what they are loaded as; a reader takes bytes from the front.
`Reads r bs a`: on bs, whatever follows, r returns a and has consumed just bs. -/
namespace CoTra.Codec

abbrev Bytes := List UInt8

class Pod (α : Type) where
  size : Nat
  bytes : α → Bytes
  load : Bytes → α
  some' : 0 < size
  length : ∀ a, (bytes a).length = size
  loadBytes : ∀ a, load (bytes a) = a

open Pod (bytes)

section Words

def bytesLe : Nat → Nat → Bytes
  | 0, _ => []
  | k+1, x => UInt8.ofNat x :: bytesLe k (x / 256)

def loadLe : Bytes → Nat
  | [] => 0
  | b :: rest => b.toNat + 256 * loadLe rest

theorem bytesLeLength (k x : Nat) : (bytesLe k x).length = k := by
  induction k generalizing x with
  | zero => rfl
  | succ k ih => rw [bytesLe,List.length_cons,ih]

theorem loadBytesLe (k x : Nat) : loadLe (bytesLe k x) = x % 256^k := by
  induction k generalizing x with
  | zero => rw [Nat.pow_zero,Nat.mod_one]; rfl
  | succ k ih =>
    have low : (UInt8.ofNat x).toNat = x % 256 := UInt8.toNat_ofNat'
    rw [bytesLe,loadLe,ih,low,Nat.pow_succ,Nat.mul_comm (256^k),Nat.mod_mul]

theorem loadBytesBounded {k x : Nat} (bound : x < 256^k) : loadLe (bytesLe k x) = x := by
  rw [loadBytesLe,Nat.mod_eq_of_lt bound]

instance : Pod UInt8 where
  size := 1
  bytes x := [x]
  load bs := bs.headD 0
  some' := by decide
  length _ := rfl
  loadBytes _ := rfl

theorem wordSize : 0 < 4 := by decide

instance : Pod UInt32 where
  size := 4
  bytes x := bytesLe 4 x.toNat
  load bs := UInt32.ofNat (loadLe bs)
  some' := wordSize
  length x := bytesLeLength 4 x.toNat
  loadBytes x := by
    rw [loadBytesBounded (show x.toNat < 256^4 from x.toNat_lt)]
    exact UInt32.ofNat_toNat

instance : Pod UInt64 where
  size := 8
  bytes x := bytesLe 8 x.toNat
  load bs := UInt64.ofNat (loadLe bs)
  some' := by decide
  length x := bytesLeLength 8 x.toNat
  loadBytes x := by
    rw [loadBytesBounded (show x.toNat < 256^8 from x.toNat_lt)]
    exact UInt64.ofNat_toNat

/- A struct of two members, with padding between and behind them. -/
@[reducible] def pairPod (α β : Type) [Pod α] [Pod β] (gap tail : Nat) : Pod (α × β) where
  size := Pod.size α + gap + Pod.size β + tail
  bytes e := bytes e.1 ++ List.replicate gap 0 ++ bytes e.2 ++ List.replicate tail 0
  load bs := (Pod.load (bs.take (Pod.size α)),Pod.load ((bs.drop (Pod.size α + gap)).take (Pod.size β)))
  some' := by
    have first : 0 < Pod.size α := Pod.some'
    omega
  length e := by
    simp only [List.length_append,List.length_replicate,Pod.length]
  loadBytes e := by
    have first := Pod.length e.1
    have second := Pod.length e.2
    have front : (bytes e.1 ++ List.replicate gap 0).length = Pod.size α + gap := by
      rw [List.length_append,List.length_replicate,first]
    have left : (bytes e.1 ++ List.replicate gap 0 ++ bytes e.2 ++ List.replicate tail 0).take (Pod.size α) =
        bytes e.1 := by
      rw [List.append_assoc,List.append_assoc,← first,List.take_left]
    have right : ((bytes e.1 ++ List.replicate gap 0 ++ bytes e.2 ++ List.replicate tail 0).drop
        (Pod.size α + gap)).take (Pod.size β) = bytes e.2 := by
      rw [List.append_assoc,← front,List.drop_left,← second,List.take_left]
    rw [left,right,Pod.loadBytes,Pod.loadBytes]

theorem flatMapLength {α : Type} [Pod α] (xs : List α) : (xs.flatMap bytes).length = xs.length * Pod.size α := by
  induction xs with
  | nil => rw [List.flatMap_nil,List.length_nil,List.length_nil,Nat.zero_mul]
  | cons a rest ih => rw [List.flatMap_cons,List.length_append,ih,Pod.length,List.length_cons,Nat.succ_mul,Nat.add_comm]

theorem podSome {α : Type} [Pod α] (a : α) : 0 < (bytes a).length := by
  rw [Pod.length]
  exact Pod.some'

theorem lengthFits {α : Type} {write : α → Bytes} (some' : ∀ a, 0 < (write a).length) (xs : List α) :
    xs.length ≤ (xs.flatMap write).length := by
  induction xs with
  | nil => exact Nat.zero_le _
  | cons a rest ih =>
    have first := some' a
    rw [List.flatMap_cons,List.length_append,List.length_cons]
    omega

theorem partFits {part : Bytes} {parts : List Bytes} (member : part ∈ parts) : part.length ≤ parts.flatten.length :=
  (List.sublist_flatten_of_mem member).length_le

theorem elementFits {α : Type} {a : α} {xs : List α} (write : α → Bytes) (member : a ∈ xs) :
    (write a).length ≤ (xs.flatMap write).length := by
  rw [List.flatMap_def]
  exact partFits (List.mem_map_of_mem member)

/- The i-th element of an array. -/
theorem arrayAt {α : Type} [Pod α] {xs : List α} {i : Nat} {a : α} (found : xs[i]? = some a) :
    ((xs.flatMap bytes).drop (i * Pod.size α)).take (Pod.size α) = bytes a := by
  induction xs generalizing i with
  | nil => cases found
  | cons b rest ih =>
    have length := Pod.length b
    rw [List.flatMap_cons]
    cases i with
    | zero =>
      cases Option.some.inj found
      rw [Nat.zero_mul,List.drop_zero,← length,List.take_left]
    | succ i =>
      have behind : (bytes b ++ rest.flatMap bytes).drop (Pod.size α) = rest.flatMap bytes := by
        rw [← length,List.drop_left]
      rw [Nat.succ_mul,Nat.add_comm,← List.drop_drop,behind]
      exact ih found

instance {α : Type} {k : Nat} [Pod α] [NeZero k] : Pod (Fin k → α) where
  size := k * Pod.size α
  bytes f := (List.ofFn f).flatMap bytes
  load bs i := Pod.load ((bs.drop (i * Pod.size α)).take (Pod.size α))
  some' := Nat.mul_pos (Nat.pos_of_neZero k) Pod.some'
  length f := by rw [flatMapLength,List.length_ofFn]
  loadBytes f := by
    funext i
    have found : (List.ofFn f)[i.val]? = some (f i) := by
      rw [List.getElem?_ofFn,dif_pos i.isLt]
    rw [arrayAt found,Pod.loadBytes]

end Words

section Readers

abbrev Reader (α : Type) := StateT Bytes Option α

variable {α β : Type}

def getPod [Pod α] : Reader α := fun bs =>
  if bs.length < Pod.size α then none else some (Pod.load (bs.take (Pod.size α)),bs.drop (Pod.size α))

def getBytes (k : Nat) : Reader Bytes := fun bs =>
  if bs.length < k then none else some (bs.take k,bs.drop k)

def many (r : Reader α) : Nat → Reader (List α)
  | 0 => pure []
  | k+1 => do
    let a ← r
    let rest ← many r k
    pure (a :: rest)

def Reads (r : Reader α) (bs : Bytes) (a : α) : Prop := ∀ rest, r (bs ++ rest) = some (a,rest)

theorem readsPure (a : α) : Reads (pure a) [] a := fun _ => rfl

theorem readsBind {r : Reader α} {f : α → Reader β} {bs bs' : Bytes} {a : α} {b : β} (first : Reads r bs a)
    (second : Reads (f a) bs' b) : Reads (r >>= f) (bs ++ bs') b := by
  intro rest
  have step : (r >>= f) (bs ++ bs' ++ rest) = (r (bs ++ bs' ++ rest)).bind (fun p => f p.1 p.2) := rfl
  rw [step,List.append_assoc,first]
  exact second rest

theorem readsGet [Pod α] (a : α) : Reads getPod (bytes a) a := by
  intro rest
  have length := Pod.length a
  have enough : ¬(bytes a ++ rest).length < Pod.size α := by
    rw [List.length_append]
    omega
  unfold getPod
  rw [if_neg enough,← length,List.take_left,List.drop_left,Pod.loadBytes]

theorem readsBytes (bs : Bytes) {k : Nat} (length : bs.length = k) : Reads (getBytes k) bs bs := by
  intro rest
  have enough : ¬(bs ++ rest).length < k := by
    rw [List.length_append]
    omega
  unfold getBytes
  rw [if_neg enough,← length,List.take_left,List.drop_left]

/- A value computed from what was read. -/
theorem readsMap {r : Reader α} {bs : Bytes} {a : α} (f : α → β) (first : Reads r bs a) :
    Reads (do let a ← r; pure (f a)) bs (f a) := by
  intro rest
  have step : (do let a ← r; pure (f a)) (bs ++ rest) = (r (bs ++ rest)).bind (fun p => some (f p.1,p.2)) := rfl
  rw [step,first]
  rfl

theorem readsMany {r : Reader α} {write : α → Bytes} {xs : List α} (each : ∀ a ∈ xs, Reads r (write a) a) :
    Reads (many r xs.length) (xs.flatMap write) xs := by
  induction xs with
  | nil => exact readsPure []
  | cons a rest ih =>
    refine readsBind (each a List.mem_cons_self) ?_
    exact readsMap (fun tail => a :: tail) (ih (fun b member => each b (List.mem_cons_of_mem _ member)))

/- A list behind the number of its elements, which is a word. -/
def writeCounted32 (write : α → Bytes) (xs : List α) : Bytes := bytes (UInt32.ofNat xs.length) ++ xs.flatMap write

def writeCounted64 (write : α → Bytes) (xs : List α) : Bytes := bytes (UInt64.ofNat xs.length) ++ xs.flatMap write

def counted32 (r : Reader α) : Reader (List α) := do
  let size : UInt32 ← getPod
  many r size.toNat

def counted64 (r : Reader α) : Reader (List α) := do
  let size : UInt64 ← getPod
  many r size.toNat

variable {r : Reader α} {write : α → Bytes} {xs : List α}

theorem countedFits32 (some' : ∀ a, 0 < (write a).length) (xs : List α) :
    xs.length ≤ (writeCounted32 write xs).length := by
  have inside := lengthFits some' xs
  rw [writeCounted32,List.length_append]
  omega

theorem countedFits64 (some' : ∀ a, 0 < (write a).length) (xs : List α) :
    xs.length ≤ (writeCounted64 write xs).length := by
  have inside := lengthFits some' xs
  rw [writeCounted64,List.length_append]
  omega

theorem readsCounted32 (small : xs.length < 2^32) (each : ∀ a ∈ xs, Reads r (write a) a) :
    Reads (counted32 r) (writeCounted32 write xs) xs := by
  refine readsBind (readsGet _) ?_
  rw [UInt32.toNat_ofNat_of_lt' small]
  exact readsMany each

theorem readsCounted64 (small : xs.length < 2^64) (each : ∀ a ∈ xs, Reads r (write a) a) :
    Reads (counted64 r) (writeCounted64 write xs) xs := by
  refine readsBind (readsGet _) ?_
  rw [UInt64.toNat_ofNat_of_lt' small]
  exact readsMany each

end Readers

end CoTra.Codec
