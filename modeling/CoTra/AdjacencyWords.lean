import CoTra.Indices
import Mathlib.Data.List.Basic
import Mathlib.Data.List.Flatten
import Mathlib.Data.List.Nodup

/-! Lists of numbers laid out as words, each with its length before it, and a set kept as
a table of marks beside the list of its elements. Nothing here names a particular
program. -/
namespace CoTra.AdjacencyWords

section Words

def words (lists : List (List Nat)) : List Nat := lists.flatMap (fun a => a.length :: a)

variable {lists more : List (List Nat)} {a : List Nat}

@[simp] theorem wordsNil : words [] = [] := rfl

@[simp] theorem wordsCons (a : List Nat) (lists : List (List Nat)) :
    words (a :: lists) = a.length :: (a ++ words lists) := rfl

theorem wordsAppend (lists more : List (List Nat)) : words (lists ++ more) = words lists ++ words more :=
  List.flatMap_append

theorem wordsSplit {j : Nat} (found : lists[j]? = some a) :
    words lists = words (lists.take j) ++ a.length :: (a ++ words (lists.drop (j + 1))) := by
  obtain ⟨bound,rfl⟩ := List.getElem?_eq_some_iff.mp found
  have parts : lists.take j ++ lists[j] :: lists.drop (j + 1) = lists := by
    rw [← List.drop_eq_getElem_cons bound,List.take_append_drop]
  rw [← wordsCons,← wordsAppend,parts]

theorem wordsTakeSucc {j : Nat} (found : lists[j]? = some a) :
    (words (lists.take (j + 1))).length = (words (lists.take j)).length + 1 + a.length := by
  rw [List.take_add_one,found,Option.toList_some,wordsAppend,wordsCons,wordsNil,List.length_append,
    List.length_cons,List.append_nil]
  omega

theorem wordsTakeLe (lists : List (List Nat)) (k : Nat) : (words (lists.take k)).length ≤ (words lists).length := by
  conv_rhs => rw [← List.take_append_drop k lists,wordsAppend,List.length_append]
  exact Nat.le_add_right _ _

/- A loop over positions reads the list that lies there. -/
theorem foldReads {σ α : Type} (f : σ → α → Option σ) (before part after : List α) (s : σ) :
    (List.range' before.length part.length).foldlM (fun s d => (before ++ part ++ after)[d]?.bind (f s)) s =
      part.foldlM f s := by
  induction part generalizing before s with
  | nil => rfl
  | cons x rest ih =>
    have here : (before ++ (x :: rest) ++ after)[before.length]? = some x := by simp
    rw [List.length_cons,List.range'_succ,List.foldlM_cons,List.foldlM_cons,here]
    refine congrArg (f s x).bind (funext (fun t => ?_))
    have next := ih (before ++ [x]) t
    simp only [List.length_append,List.length_cons,List.length_nil,List.append_assoc,List.cons_append,
      List.nil_append] at next ⊢
    exact next

end Words

section Marks

/- `marks` says of every number below `size` whether it is in `kept`. -/
structure Marked (size : Nat) (marks : List Bool) (kept : List Nat) : Prop where
  length : marks.length = size
  nodup : kept.Nodup
  marked : ∀ x, marks[x]? = some true ↔ x ∈ kept

variable {size : Nat} {marks : List Bool} {kept : List Nat}

theorem markedEmpty (size : Nat) : Marked size (List.replicate size false) [] := by
  refine ⟨List.length_replicate,List.nodup_nil,fun x => ?_⟩
  rw [List.getElem?_replicate]
  split <;> simp

-- A number that is marked already is not added again.
def mark (s : List Bool × List Nat) (x : Nat) : Option (List Bool × List Nat) :=
  match s.1[x]? with
  | some false => some (s.1.set x true,s.2 ++ [x])
  | some true => some s
  | none => none

theorem markKeeps (marked : Marked size marks kept) {x : Nat} (fits : x < size) :
    ∃ s, mark (marks,kept) x = some s ∧ Marked size s.1 s.2 ∧ ∀ y, y ∈ s.2 ↔ y ∈ kept ∨ y = x := by
  have inside : x < marks.length := by rw [marked.length]; exact fits
  have here := List.getElem?_eq_getElem inside
  unfold mark
  simp only [here]
  cases old : marks[x] with
  | true =>
    refine ⟨_,rfl,marked,fun y => ⟨Or.inl,?_⟩⟩
    rintro (member | rfl)
    · exact member
    · exact (marked.marked y).mp (here.trans (congrArg some old))
  | false =>
    have fresh : x ∉ kept := by
      intro member
      have both := (marked.marked x).mpr member
      rw [here,old] at both
      exact absurd both (by decide)
    refine ⟨_,rfl,⟨?_,?_,fun y => ?_⟩,fun y => ?_⟩
    · rw [List.length_set,marked.length]
    · refine List.nodup_append.mpr ⟨marked.nodup,List.nodup_singleton x,fun a member b last => ?_⟩
      rw [List.mem_singleton.mp last]
      intro same
      exact fresh (same ▸ member)
    · rw [List.getElem?_set,List.mem_append,List.mem_singleton]
      split
      · rename_i same
        simp [same]
      · rename_i other
        rw [marked.marked y]
        simp [Ne.symm other]
    · rw [List.mem_append,List.mem_singleton]

theorem markAll {xs : List Nat} (marked : Marked size marks kept) (fits : ∀ x ∈ xs, x < size) :
    ∃ s, xs.foldlM mark (marks,kept) = some s ∧ Marked size s.1 s.2 ∧ ∀ y, y ∈ s.2 ↔ y ∈ kept ∨ y ∈ xs := by
  induction xs generalizing marks kept with
  | nil => exact ⟨_,rfl,marked,fun y => by simp⟩
  | cons x rest ih =>
    obtain ⟨⟨marks',kept'⟩,one,next,members⟩ := markKeeps marked (fits x List.mem_cons_self)
    obtain ⟨s,more,last,all⟩ := ih next (fun y later => fits y (List.mem_cons_of_mem x later))
    refine ⟨s,?_,last,fun y => ?_⟩
    · rw [List.foldlM_cons,one]
      exact more
    · rw [all y,members y,List.mem_cons,or_assoc]

def unmark (marks : List Bool) (xs : List Nat) : List Bool := xs.foldl (fun marks x => marks.set x false) marks

theorem unmarkLength (marks : List Bool) (xs : List Nat) : (unmark marks xs).length = marks.length := by
  induction xs generalizing marks with
  | nil => rfl
  | cons x rest ih => exact (ih _).trans List.length_set

theorem unmarked {xs : List Nat} {x : Nat} :
    (unmark marks xs)[x]? = some true ↔ marks[x]? = some true ∧ x ∉ xs := by
  induction xs generalizing marks with
  | nil => simp [unmark]
  | cons y rest ih =>
    have rest' := @ih (marks.set y false)
    rw [unmark,List.foldl_cons]
    rw [unmark] at rest'
    rw [rest',List.getElem?_set,List.mem_cons]
    split
    · rename_i same
      split <;> simp [same]
    · rename_i other
      simp [Ne.symm other]

theorem unmarkAll {xs : List Nat} (marked : Marked size marks kept) (all : xs.Perm kept) :
    Marked size (unmark marks xs) [] := by
  refine ⟨(unmarkLength marks xs).trans marked.length,List.nodup_nil,fun x => ?_⟩
  rw [unmarked,marked.marked,all.mem_iff]
  simp

end Marks

end CoTra.AdjacencyWords
