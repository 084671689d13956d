import CoTra.Indices
import Mathlib.Data.List.Basic
import Mathlib.Algebra.Order.Group.Nat

/-! Byte memory with little-endian words. `Stored` says which bytes lie at an
offset; writes elsewhere keep it, and words are read back from it. -/
namespace CoTra.Memory

abbrev Mem := Nat → Nat

def memcpy (mem : Mem) (ofs : Nat) (bytes : List Nat) : Mem :=
  fun i => if ofs ≤ i then bytes.getD (i - ofs) (mem i) else mem i

def leBytes : Nat → Nat → List Nat
  | 0, _ => []
  | size+1, x => x % 256 :: leBytes size (x / 256)

def readLe (mem : Mem) : Nat → Nat → Nat
  | _, 0 => 0
  | ofs, size+1 => mem ofs + 256 * readLe mem (ofs+1) size

def wordBytes (ids : List Nat) : List Nat := ids.flatMap (leBytes 4)

def readWords (mem : Mem) : Nat → Nat → List Nat
  | _, 0 => []
  | ofs, count+1 => readLe mem ofs 4 :: readWords mem (ofs+4) count

def Stored (mem : Mem) : Nat → List Nat → Prop
  | _, [] => True
  | ofs, b :: rest => mem ofs = b ∧ Stored mem (ofs+1) rest

theorem storedGet {mem : Mem} {ofs : Nat} {bytes : List Nat} :
    Stored mem ofs bytes ↔ ∀ i (h : i < bytes.length), mem (ofs+i) = bytes[i] := by
  induction bytes generalizing ofs with
  | nil => simp [Stored]
  | cons b rest ih =>
    simp only [Stored,ih]
    constructor
    · rintro ⟨head,tail⟩ i h
      cases i with
      | zero => exact head
      | succ i => simpa [Nat.add_assoc,Nat.add_comm 1] using tail i (by simpa using h)
    · intro all
      refine ⟨all 0 (by simp),?_⟩
      intro i h
      have later := all (i+1) (by simpa using h)
      rw [List.getElem_cons_succ] at later
      rwa [Nat.add_assoc,Nat.add_comm 1]

theorem storedAppend {mem : Mem} {ofs : Nat} {xs ys : List Nat} :
    Stored mem ofs (xs ++ ys) ↔ Stored mem ofs xs ∧ Stored mem (ofs+xs.length) ys := by
  induction xs generalizing ofs with
  | nil => simp [Stored]
  | cons x rest ih => simp [Stored,ih,and_assoc,Nat.add_assoc,Nat.add_comm 1]

theorem storedShift {mem : Mem} {base ofs : Nat} {bytes : List Nat} :
    Stored (fun i => mem (base+i)) ofs bytes ↔ Stored mem (base+ofs) bytes := by
  rw [storedGet,storedGet]
  simp only [Nat.add_assoc]

theorem storedAgree {mem mem' : Mem} {ofs : Nat} {bytes : List Nat} (h : Stored mem ofs bytes)
    (same : ∀ i, ofs ≤ i → i < ofs+bytes.length → mem' i = mem i) : Stored mem' ofs bytes := by
  rw [storedGet] at h ⊢
  intro i inside
  rw [same (ofs+i) (by omega) (by omega)]
  exact h i inside

theorem storedMemcpy (mem : Mem) (ofs : Nat) (bytes : List Nat) : Stored (memcpy mem ofs bytes) ofs bytes := by
  rw [storedGet]
  intro i h
  simp [memcpy,h]

theorem memcpyOutside {mem : Mem} {ofs i : Nat} {bytes : List Nat} (away : i < ofs ∨ ofs+bytes.length ≤ i) :
    memcpy mem ofs bytes i = mem i := by
  unfold memcpy
  split
  · rw [List.getD_eq_getElem?_getD,List.getElem?_eq_none (by omega),Option.getD_none]
  · rfl

theorem storedFrame {mem : Mem} {ofs at' : Nat} {bytes more : List Nat} (h : Stored mem ofs bytes)
    (away : at'+more.length ≤ ofs ∨ ofs+bytes.length ≤ at') : Stored (memcpy mem at' more) ofs bytes := by
  rw [storedGet] at h ⊢
  intro i inside
  rw [memcpyOutside (by omega)]
  exact h i inside

@[simp] theorem leBytesLength (size x : Nat) : (leBytes size x).length = size := by
  induction size generalizing x with
  | zero => rfl
  | succ size ih => simp [leBytes,ih]

@[simp] theorem wordBytesLength (ids : List Nat) : (wordBytes ids).length = 4*ids.length := by
  induction ids with
  | nil => rfl
  | cons v rest ih =>
    rw [wordBytes,List.flatMap_cons,List.length_append,leBytesLength,List.length_cons]
    rw [wordBytes] at ih
    omega

theorem readStored {mem : Mem} {ofs size x : Nat} (h : Stored mem ofs (leBytes size x)) :
    readLe mem ofs size = x % 256^size := by
  induction size generalizing ofs x with
  | zero => simp [readLe,Nat.mod_one]
  | succ size ih =>
    obtain ⟨head,tail⟩ := h
    rw [readLe,head,ih tail,pow_succ,Nat.mul_comm (256^size),Nat.mod_mul]

theorem readWordsStored {mem : Mem} {ofs : Nat} {ids : List Nat} (h : Stored mem ofs (wordBytes ids))
    (small : ∀ v ∈ ids, v < 2^32) : readWords mem ofs ids.length = ids := by
  induction ids generalizing ofs with
  | nil => rfl
  | cons v rest ih =>
    rw [wordBytes,List.flatMap_cons,storedAppend,leBytesLength] at h
    have head : v < 256^4 := small v List.mem_cons_self
    rw [List.length_cons,readWords,readStored h.1,Nat.mod_eq_of_lt head,
      ih h.2 (fun x member => small x (List.mem_cons_of_mem _ member))]

theorem readWordsHead (mem : Mem) (ofs : Nat) {count : Nat} (some' : 0 < count) :
    readLe mem ofs 4 ∈ readWords mem ofs count := by
  cases count with
  | zero => contradiction
  | succ count => exact List.mem_cons_self

end CoTra.Memory
