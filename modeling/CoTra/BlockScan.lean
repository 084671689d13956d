import CoTra.Indices
import Mathlib.Data.List.Basic
import Mathlib.Data.List.Range

/-! A scan of n places in blocks of one size, the last block shorter. A loop over the
blocks and over the places of each is one loop over the places. A loop that is left when
a test holds, the loop over the blocks with it, is a loop whose steps do nothing from
then on. -/
namespace CoTra.BlockScan

def divRoundUp (x y : Nat) : Nat := x / y + if x % y = 0 then 0 else 1

def startId (size block : Nat) : Nat := block * size

def curBlkSize (n size block : Nat) : Nat := min ((block + 1) * size) n - startId size block

variable {σ α β : Type} {m : Type → Type} [Monad m]

def scan (n size : Nat) (visit : σ → Nat → m σ) (s : σ) : m σ :=
  (List.range (divRoundUp n size)).foldlM (fun s block =>
    (List.range (curBlkSize n size block)).foldlM (fun s p => visit s (startId size block + p)) s) s

-- for (..) { if (stop) break; visit; }
def loopUntil (stop : σ → Bool) (visit : σ → α → m σ) : List α → σ → m σ
  | [],s => pure s
  | a :: rest,s => if stop s then pure s else do
      let s ← visit s a
      loopUntil stop visit rest s

-- for (..) { visit; if (stop) break; }
def loopThenUntil (stop : σ → Bool) (visit : σ → α → m σ) : List α → σ → m σ
  | [],s => pure s
  | a :: rest,s => do
      let s ← visit s a
      if stop s then pure s else loopThenUntil stop visit rest s

def scanUntil (stop : σ → Bool) (n size : Nat) (visit : σ → Nat → m σ) (s : σ) : m σ :=
  loopThenUntil stop (fun s block =>
    loopUntil stop (fun s p => visit s (startId size block + p)) (List.range (curBlkSize n size block)) s)
    (List.range (divRoundUp n size)) s

def guarded (stop : σ → Bool) (visit : σ → α → m σ) (s : σ) (a : α) : m σ := if stop s then pure s else visit s a

section Blocks

variable {n size q : Nat}

theorem roundsUp (positive : 0 < size) : n ≤ divRoundUp n size * size := by
  have parts := Nat.div_add_mod n size
  have small := Nat.mod_lt n positive
  rw [divRoundUp,Nat.add_mul,Nat.mul_comm (n / size)]
  split
  · omega
  · omega

/- The places of the first q blocks. -/
theorem firstBlocks (n size q : Nat) :
    (List.range q).flatMap (fun block => (List.range (curBlkSize n size block)).map (startId size block + ·)) =
      List.range (min (q * size) n) := by
  induction q with
  | zero => simp
  | succ q ih =>
    rw [List.range_succ,List.flatMap_append,ih,List.flatMap_singleton,curBlkSize,startId]
    rcases Nat.le_total (q * size) n with inside | outside
    · have low : q * size ≤ min ((q + 1) * size) n :=
        le_min (Nat.mul_le_mul_right size (Nat.le_succ q)) inside
      rw [Nat.min_eq_left inside,← List.range_add,Nat.add_sub_cancel' low]
    · have none' : min ((q + 1) * size) n - q * size = 0 := by omega
      have more : n ≤ (q + 1) * size := outside.trans (Nat.mul_le_mul_right size (Nat.le_succ q))
      rw [none',Nat.min_eq_right outside,Nat.min_eq_right more]
      simp

end Blocks

section Loops

variable [LawfulMonad m] {n size : Nat} {stop : σ → Bool} {visit : σ → α → m σ}

theorem foldlMFlatMap (places : β → List α) (l : List β) (s : σ) :
    (l.flatMap places).foldlM visit s = l.foldlM (fun s b => (places b).foldlM visit s) s := by
  induction l generalizing s with
  | nil => rfl
  | cons b rest ih =>
    rw [List.flatMap_cons,List.foldlM_append,List.foldlM_cons]
    exact bind_congr (fun t => ih t)

theorem foldlMNext (visit : σ → Nat → m σ) (n : Nat) (s : σ) :
    (List.range (n + 1)).foldlM visit s = (List.range n).foldlM visit s >>= fun t => visit t n := by
  rw [List.range_succ,List.foldlM_append]
  refine bind_congr (fun t => ?_)
  rw [List.foldlM_cons]
  exact bind_pure _

/- A scan is one loop over all the places. -/
theorem scanAll (positive : 0 < size) (visit : σ → Nat → m σ) (s : σ) :
    scan n size visit s = (List.range n).foldlM visit s := by
  have whole := firstBlocks n size (divRoundUp n size)
  rw [Nat.min_eq_right (roundsUp positive)] at whole
  rw [← whole,foldlMFlatMap,scan]
  simp only [List.foldlM_map]

theorem unlessStopped (l : List α) {s : σ} (stopped : stop s = true) :
    l.foldlM (guarded stop visit) s = pure s := by
  induction l with
  | nil => rfl
  | cons a rest ih => rw [List.foldlM_cons,guarded,if_pos stopped,pure_bind,ih]

theorem loopUntilUnless (l : List α) (s : σ) : loopUntil stop visit l s = l.foldlM (guarded stop visit) s := by
  induction l generalizing s with
  | nil => rfl
  | cons a rest ih =>
    rw [loopUntil,List.foldlM_cons,guarded]
    split
    · rename_i stopped
      rw [pure_bind,unlessStopped rest stopped]
    · exact bind_congr (fun t => ih t)

theorem loopThenUntilUnless {visit : σ → α → m σ} {places : β → List α} {visitBlock : σ → β → m σ}
    (inner : ∀ s b, visitBlock s b = (places b).foldlM (guarded stop visit) s) (l : List β) (s : σ) :
    loopThenUntil stop visitBlock l s = (l.flatMap places).foldlM (guarded stop visit) s := by
  induction l generalizing s with
  | nil => rfl
  | cons b rest ih =>
    rw [loopThenUntil,List.flatMap_cons,List.foldlM_append,inner]
    refine bind_congr (fun t => ?_)
    split
    · rename_i stopped
      exact (unlessStopped _ stopped).symm
    · exact ih t

/- A scan with breaks is one loop whose steps stop. -/
theorem scanUntilAll (positive : 0 < size) (visit : σ → Nat → m σ) (s : σ) :
    scanUntil stop n size visit s = (List.range n).foldlM (guarded stop visit) s := by
  have whole := firstBlocks n size (divRoundUp n size)
  rw [Nat.min_eq_right (roundsUp positive)] at whole
  rw [← whole,scanUntil]
  refine loopThenUntilUnless (fun t block => ?_) _ s
  rw [loopUntilUnless,List.foldlM_map]
  rfl

end Loops

section Side

theorem mapMThen {γ : Type} (f : α → Option β) (g : β → Option γ) (l : List α) :
    (l.mapM f).bind (List.mapM g) = l.mapM (fun a => (f a).bind g) := by
  induction l with
  | nil => rfl
  | cons a rest ih =>
    simp only [List.mapM_cons,Option.bind_eq_bind]
    rw [← ih]
    cases f a with
    | none => rfl
    | some b =>
      cases rest.mapM f with
      | none =>
        simp only [Option.bind_some,Option.bind_none]
        cases g b with
        | none => rfl
        | some c => rfl
      | some bs => exact List.mapM_cons

theorem mapMSome {f : α → Option β} {g : α → β} {l : List α} (each : ∀ a ∈ l, f a = some (g a)) :
    l.mapM f = some (l.map g) := by
  induction l with
  | nil => rfl
  | cons a rest ih =>
    rw [List.mapM_cons,each a List.mem_cons_self,ih (fun b member => each b (List.mem_cons_of_mem a member))]
    rfl

theorem mapMEach {f : α → Option β} {l : List α} {bs : List β} (all : l.mapM f = some bs) :
    ∀ a ∈ l, ∃ b, f a = some b := by
  induction l generalizing bs with
  | nil => exact fun a no => absurd no List.not_mem_nil
  | cons a rest ih =>
    simp only [List.mapM_cons,Option.bind_eq_bind,Option.bind_eq_some_iff] at all
    obtain ⟨b,first,bs',tail,_⟩ := all
    intro other member
    rcases List.mem_cons.mp member with rfl | later
    · exact ⟨b,first⟩
    · exact ih tail other later

/- A loop that takes several states on side by side is one loop for each of them. -/
theorem foldlMMapM (visit : σ → α → Option σ) (l : List α) (states : List σ) :
    l.foldlM (fun states a => states.mapM (fun s => visit s a)) states = states.mapM (fun s => l.foldlM visit s) := by
  induction l generalizing states with
  | nil => exact ((mapMSome (fun _ _ => rfl)).trans (congrArg some (List.map_id' states))).symm
  | cons a rest ih =>
    rw [List.foldlM_cons]
    exact (Option.bind_congr (fun states' _ => ih states')).trans (mapMThen (fun s => visit s a) _ states)

end Side

end CoTra.BlockScan
