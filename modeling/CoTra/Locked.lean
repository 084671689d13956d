import CoTra.Progress

/-! Objects behind spin locks. A thread's program says what it does next: a move of its own, or a
section on one object. In the fine machine a section takes the lock's word with loads and
compare-exchanges, reads the object, writes it back and frees the word, one access a move; in the
plain machine it is one move. What the fine machine reaches the plain machine reaches, and the
fine machine gets wherever the plain one does. -/
namespace CoTra.Locked
open Runs Progress

section Machines

variable {ν : Type*} (σ ε : ν → Type*) (κ ι : Type*)

/- What is done to an object: what it becomes, how the thread goes on, and what is noted of it. -/
structure Section where
  name : ν
  act : σ name → σ name × κ × ε name

inductive Next where
  | own (f : ι → κ)
  | guarded (S : Section σ ε κ)

structure Plain where
  thread : Nat → κ
  objs : ∀ q, σ q
  log : ∀ q, List (Nat × ε q)

/- Where a thread stands in a section: before a compare-exchange, in the loop that waits for the
word, with the word taken, with the object read, and with the object written. -/
inductive Place where
  | free
  | cas (S : Section σ ε κ)
  | spin (S : Section σ ε κ)
  | inside (S : Section σ ε κ)
  | holding (S : Section σ ε κ) (x : σ S.name)
  | leave (q : ν)

structure Fine where
  plain : Plain σ ε κ
  word : ν → Bool
  place : Nat → Place σ ε κ

end Machines

variable {ν : Type*} {σ ε : ν → Type*} {κ ι : Type*}

def turned (s : Plain σ ε κ) (t : Nat) (k : κ) : Plain σ ε κ := { s with thread := Function.update s.thread t k }

def goto (s : Fine σ ε κ) (t : Nat) (p : Place σ ε κ) : Fine σ ε κ := { s with place := Function.update s.place t p }

def holder : Place σ ε κ → Option ν
  | .inside S => some S.name
  | .holding S _ => some S.name
  | .leave q => some q
  | _ => none

-- The section that a thread is still to do.
def pending : Place σ ε κ → Option (Section σ ε κ)
  | .cas S | .spin S | .inside S | .holding S _ => some S
  | _ => none

structure Safe (P : Nat) (prog : Nat → κ → Next σ ε κ ι) (s : Fine σ ε κ) : Prop where
  known : ∀ t q, holder (s.place t) = some q → t < P
  locked : ∀ t q, holder (s.place t) = some q → s.word q = true
  owned : ∀ q, s.word q = true → ∃ t, holder (s.place t) = some q
  alone : ∀ t u q, holder (s.place t) = some q → holder (s.place u) = some q → t = u
  seen : ∀ t S x, s.place t = .holding S x → s.plain.objs S.name = x
  planned : ∀ t S, pending (s.place t) = some S → prog t (s.plain.thread t) = .guarded S

def fresh (s : Plain σ ε κ) : Fine σ ε κ := ⟨s,fun _ => false,fun _ => .free⟩

theorem freshSafe (P : Nat) (prog : Nat → κ → Next σ ε κ ι) (s : Plain σ ε κ) : Safe P prog (fresh s) where
  known _ _ no := by cases no
  locked _ _ no := by cases no
  owned _ no := by cases no
  alone _ _ _ no := by cases no
  seen _ _ _ no := by cases no
  planned _ _ no := by cases no

theorem gotoPlace (s : Fine σ ε κ) (t : Nat) (p : Place σ ε κ) : (goto s t p).place t = p := Function.update_self ..

theorem gotoOther (s : Fine σ ε κ) (p : Place σ ε κ) {t k : Nat} (other : k ≠ t) : (goto s t p).place k = s.place k :=
  Function.update_of_ne other ..

theorem turnedOther (s : Plain σ ε κ) (k : κ) {t l : Nat} (other : l ≠ t) : (turned s t k).thread l = s.thread l :=
  Function.update_of_ne other ..

section Places

variable {P : Nat} {prog : Nat → κ → Next σ ε κ ι} {s : Fine σ ε κ} {t : Nat}

/- The thread goes to a place where it holds what it held. -/
theorem safeGoto (safe : Safe P prog s) {p : Place σ ε κ} (same : holder p = holder (s.place t))
    (seen : ∀ S x, p = .holding S x → s.plain.objs S.name = x)
    (planned : ∀ S, pending p = some S → prog t (s.plain.thread t) = .guarded S) : Safe P prog (goto s t p) := by
  have holds : ∀ k, holder ((goto s t p).place k) = holder (s.place k) := by
    intro k
    rcases eq_or_ne k t with rfl | other
    · rw [gotoPlace,same]
    · rw [gotoOther s p other]
  refine ⟨fun k q => holds k ▸ safe.known k q,fun k q => holds k ▸ safe.locked k q,fun q here => ?_,
    fun k l q => holds k ▸ holds l ▸ safe.alone k l q,fun k S x here => ?_,fun k S here => ?_⟩
  · obtain ⟨k,held⟩ := safe.owned q here
    exact ⟨k,(holds k).trans held⟩
  · rcases eq_or_ne k t with rfl | other
    · exact seen S x ((gotoPlace s k p).symm.trans here)
    · exact safe.seen k S x ((gotoOther s p other).symm.trans here)
  · rcases eq_or_ne k t with rfl | other
    · exact planned S (gotoPlace s k p ▸ here)
    · exact safe.planned k S (gotoOther s p other ▸ here)

/- A thread outside of every section moves by itself. -/
theorem safeTurn (safe : Safe P prog s) (free : s.place t = .free) (k : κ) :
    Safe P prog { s with plain := turned s.plain t k } where
  known := safe.known
  locked := safe.locked
  owned := safe.owned
  alone := safe.alone
  seen := safe.seen
  planned l S at' := by
    have other : l ≠ t := by
      rintro rfl
      have at'' : pending (s.place l) = some S := at'
      rw [free] at at''
      cases at''
    exact (turnedOther s.plain k other).symm ▸ safe.planned l S at'

-- How far a thread is from the end of its section.
def rank : Place σ ε κ → Nat
  | .free => 0
  | .leave _ => 1
  | .holding .. => 2
  | .inside _ => 3
  | .cas _ => 4
  | .spin _ => 5

def Quiet (P : Nat) (s : Fine σ ε κ) : Prop := ∀ t, t < P → s.place t = .free

theorem rankGoto (s : Fine σ ε κ) (p : Place σ ε κ) (less : rank p < rank (s.place t)) (inside : t < P) :
    total P (fun k => rank ((goto s t p).place k)) < total P (fun k => rank (s.place k)) := by
  refine totalLess inside ?_ (fun k other => ?_)
  · rw [gotoPlace]
    exact less
  · rw [gotoOther s p other]

end Places

variable [DecidableEq ν]

/- The section's effect, when the object was read as x. -/
def committed (s : Plain σ ε κ) (t : Nat) (S : Section σ ε κ) (x : σ S.name) : Plain σ ε κ :=
  ⟨Function.update s.thread t (S.act x).2.1,Function.update s.objs S.name (S.act x).1,
    Function.update s.log S.name (s.log S.name ++ [(t,(S.act x).2.2)])⟩

def setWord (s : Fine σ ε κ) (q : ν) (b : Bool) : Fine σ ε κ := { s with word := Function.update s.word q b }

theorem committedOther (s : Plain σ ε κ) (S : Section σ ε κ) (x : σ S.name) {t l : Nat} (other : l ≠ t) :
    (committed s t S x).thread l = s.thread l := Function.update_of_ne other ..

theorem committedObjs (s : Plain σ ε κ) (t : Nat) (S : Section σ ε κ) (x : σ S.name) {q : ν} (other : q ≠ S.name) :
    (committed s t S x).objs q = s.objs q := Function.update_of_ne other ..

variable (P : Nat) (prog : Nat → κ → Next σ ε κ ι)

def plainMove (s : Plain σ ε κ) (t : Nat) (i : ι) : Plain σ ε κ :=
  match prog t (s.thread t) with
  | .own f => turned s t (f i)
  | .guarded S => committed s t S (s.objs S.name)

def plainStep (s : Plain σ ε κ) (a : Nat × ι) : Option (Plain σ ε κ) :=
  if a.1 < P then some (plainMove prog s a.1 a.2) else none

-- `fails`: a weak compare-exchange may fail on a free word.
def move (s : Fine σ ε κ) (t : Nat) (i : ι) (fails : Bool) : Fine σ ε κ :=
  match s.place t with
  | .free =>
    match prog t (s.plain.thread t) with
    | .own f => { s with plain := turned s.plain t (f i) }
    | .guarded S => goto s t (if s.word S.name then .spin S else .cas S)
  | .cas S => if s.word S.name || fails then goto s t (.spin S) else goto (setWord s S.name true) t (.inside S)
  | .spin S => if s.word S.name then s else goto s t (.cas S)
  | .inside S => goto s t (.holding S (s.plain.objs S.name))
  | .holding S x => goto { s with plain := committed s.plain t S x } t (.leave S.name)
  | .leave q => goto (setWord s q false) t .free

def step (s : Fine σ ε κ) (a : Nat × ι × Bool) : Option (Fine σ ε κ) :=
  if a.1 < P then some (move prog s a.1 a.2.1 a.2.2) else none

section Moves

variable {P prog} {s u : Fine σ ε κ} {t : Nat}

/- The word was free, so that nobody else holds it. -/
theorem safeTake (safe : Safe P prog s) (inside : t < P) {S : Section σ ε κ} (here : s.place t = .cas S)
    (free : s.word S.name = false) : Safe P prog (goto (setWord s S.name true) t (.inside S)) := by
  have nobody : ∀ k, holder (s.place k) ≠ some S.name :=
    fun k held => Bool.noConfusion ((safe.locked k S.name held).symm.trans free)
  have own : (goto (setWord s S.name true) t (.inside S)).place t = .inside S := gotoPlace ..
  have others : ∀ k, k ≠ t → (goto (setWord s S.name true) t (.inside S)).place k = s.place k :=
    fun k other => gotoOther _ _ other
  refine ⟨fun k q held => ?_,fun k q held => ?_,fun q taken => ?_,fun k l q held held' => ?_,fun k T x at' => ?_,
    fun k T at' => ?_⟩
  · rcases eq_or_ne k t with rfl | other
    · exact inside
    · exact safe.known k q (others k other ▸ held)
  · show Function.update s.word S.name true q = true
    rcases eq_or_ne q S.name with rfl | apart
    · exact Function.update_self ..
    · rw [Function.update_of_ne apart]
      rcases eq_or_ne k t with rfl | other
      · rw [own] at held
        exact absurd (Option.some.inj held).symm apart
      · exact safe.locked k q (others k other ▸ held)
  · rcases eq_or_ne q S.name with rfl | apart
    · exact ⟨t,congrArg holder own⟩
    · obtain ⟨k,held⟩ := safe.owned q ((Function.update_of_ne apart ..).symm.trans taken)
      refine ⟨k,?_⟩
      rw [others k (by rintro rfl; rw [here] at held; cases held)]
      exact held
  · rcases eq_or_ne k t with rfl | other <;> rcases eq_or_ne l k with rfl | other'
    · rfl
    · rw [own] at held
      cases held
      exact absurd (others l other' ▸ held') (nobody l)
    · rfl
    · rcases eq_or_ne l t with rfl | own'
      · rw [own] at held'
        cases held'
        exact absurd (others k other ▸ held) (nobody k)
      · exact safe.alone k l q (others k other ▸ held) (others l own' ▸ held')
  · rcases eq_or_ne k t with rfl | other
    · cases own.symm.trans at'
    · exact safe.seen k T x ((others k other).symm.trans at')
  · rcases eq_or_ne k t with rfl | other
    · rw [own] at at'
      exact safe.planned k T (here ▸ at')
    · exact safe.planned k T (others k other ▸ at')

/- Nobody else has read the object that is written. -/
theorem safeCommit (safe : Safe P prog s) {S : Section σ ε κ} {x : σ S.name} (here : s.place t = .holding S x) :
    Safe P prog (goto { s with plain := committed s.plain t S x } t (.leave S.name)) := by
  have mine : holder (s.place t) = some S.name := here ▸ rfl
  have own : (goto { s with plain := committed s.plain t S x } t (.leave S.name)).place t = .leave S.name := gotoPlace ..
  have others : ∀ k, k ≠ t → (goto { s with plain := committed s.plain t S x } t (.leave S.name)).place k = s.place k :=
    fun k other => gotoOther _ _ other
  have holds : ∀ k, holder ((goto { s with plain := committed s.plain t S x } t (.leave S.name)).place k) =
      holder (s.place k) := by
    intro k
    rcases eq_or_ne k t with rfl | other
    · rw [own,mine]
      rfl
    · rw [others k other]
  refine ⟨fun k q => holds k ▸ safe.known k q,fun k q => holds k ▸ safe.locked k q,fun q taken => ?_,
    fun k l q => holds k ▸ holds l ▸ safe.alone k l q,fun k T y at' => ?_,fun k T at' => ?_⟩
  · obtain ⟨k,held⟩ := safe.owned q taken
    exact ⟨k,(holds k).trans held⟩
  · rcases eq_or_ne k t with rfl | other
    · cases own.symm.trans at'
    · rw [others k other] at at'
      have apart : T.name ≠ S.name := fun same => other (safe.alone k t T.name (at' ▸ rfl) (same ▸ mine))
      exact (committedObjs s.plain t S x apart).trans (safe.seen k T y at')
  · rcases eq_or_ne k t with rfl | other
    · rw [own] at at'
      cases at'
    · rw [others k other] at at'
      exact (committedOther s.plain S x other).symm ▸ safe.planned k T at'

theorem safeLeave (safe : Safe P prog s) {q : ν} (here : s.place t = .leave q) :
    Safe P prog (goto (setWord s q false) t .free) := by
  have mine : holder (s.place t) = some q := here ▸ rfl
  have own : (goto (setWord s q false) t .free).place t = .free := gotoPlace ..
  have others : ∀ k, k ≠ t → (goto (setWord s q false) t .free).place k = s.place k := fun k other => gotoOther _ _ other
  have held' : ∀ k r, holder ((goto (setWord s q false) t .free).place k) = some r → k ≠ t ∧ holder (s.place k) = some r := by
    intro k r held
    rcases eq_or_ne k t with rfl | other
    · rw [own] at held
      cases held
    · exact ⟨other,others k other ▸ held⟩
  refine ⟨fun k r held => safe.known k r (held' k r held).2,fun k r held => ?_,fun r taken => ?_,
    fun k l r one two => safe.alone k l r (held' k r one).2 (held' l r two).2,fun k T y at' => ?_,fun k T at' => ?_⟩
  · obtain ⟨other,before⟩ := held' k r held
    have apart : r ≠ q := fun same => other (safe.alone k t r before (same ▸ mine))
    exact (Function.update_of_ne apart ..).trans (safe.locked k r before)
  · have apart : r ≠ q := by
      rintro rfl
      exact Bool.noConfusion ((Function.update_self ..).symm.trans taken)
    obtain ⟨k,held⟩ := safe.owned r ((Function.update_of_ne apart ..).symm.trans taken)
    have other : k ≠ t := by
      rintro rfl
      exact apart (Option.some.inj (held.symm.trans mine))
    exact ⟨k,(others k other).symm ▸ held⟩
  · rcases eq_or_ne k t with rfl | other
    · cases own.symm.trans at'
    · exact safe.seen k T y ((others k other).symm.trans at')
  · rcases eq_or_ne k t with rfl | other
    · rw [own] at at'
      cases at'
    · exact safe.planned k T (others k other ▸ at')

variable (prog) (i : ι) (fails : Bool) {S : Section σ ε κ}

theorem moveCas (here : s.place t = .cas S) (free : s.word S.name = false) :
    move prog s t i false = goto (setWord s S.name true) t (.inside S) := by
  unfold move
  rw [here]
  exact if_neg (by rw [Bool.or_false]; exact ne_true_of_eq_false free)

theorem moveInside (here : s.place t = .inside S) :
    move prog s t i fails = goto s t (.holding S (s.plain.objs S.name)) := by
  unfold move
  rw [here]

theorem moveHolding {x : σ S.name} (here : s.place t = .holding S x) :
    move prog s t i fails = goto { s with plain := committed s.plain t S x } t (.leave S.name) := by
  unfold move
  rw [here]

theorem moveLeave {q : ν} (here : s.place t = .leave q) : move prog s t i fails = goto (setWord s q false) t .free := by
  unfold move
  rw [here]

variable {prog}

theorem moveSafe (safe : Safe P prog s) (inside : t < P) : Safe P prog (move prog s t i fails) := by
  unfold move
  cases here : s.place t with
  | free =>
    simp only
    split
    · exact safeTurn safe here _
    · rename_i S next
      refine safeGoto safe ?_ (fun T x no => ?_) (fun T at' => ?_)
      · rw [here]
        split <;> rfl
      · split at no <;> cases no
      · split at at' <;> cases at' <;> exact next
  | cas S =>
    simp only
    split
    · exact safeGoto safe (here ▸ rfl) (fun _ _ no => by cases no) (fun T at' => safe.planned t T (here ▸ at'))
    · rename_i free
      rw [Bool.or_eq_true,not_or] at free
      exact safeTake safe inside here (Bool.eq_false_iff.mpr free.1)
  | spin S =>
    simp only
    split
    · exact safe
    · exact safeGoto safe (here ▸ rfl) (fun _ _ no => by cases no) (fun T at' => safe.planned t T (here ▸ at'))
  | inside S =>
    exact safeGoto safe (here ▸ rfl) (fun _ _ at' => by cases at'; rfl) (fun T at' => safe.planned t T (here ▸ at'))
  | holding S x => exact safeCommit safe here
  | leave q => exact safeLeave safe here

theorem stepSafe (safe : Safe P prog s) {a : Nat × ι × Bool} (ok : step P prog s a = some u) : Safe P prog u := by
  unfold step at ok
  split at ok
  · rename_i inside
    cases ok
    exact moveSafe a.2.1 a.2.2 safe inside
  · cases ok

theorem runSafe {acts : List (Nat × ι × Bool)} (ok : run (step P prog) s acts = some u) (safe : Safe P prog s) :
    Safe P prog u := @runInvariant _ _ (step P prog) (Safe P prog) (fun _ _ _ one safe' => stepSafe safe' one) _ _ _ ok safe

end Moves

section Refinement

variable {P prog} {s u : Fine σ ε κ} {t : Nat}

/- A move is nothing to the plain machine, or it is the thread's move there. -/
theorem movePlain (safe : Safe P prog s) (i : ι) (fails : Bool) :
    (move prog s t i fails).plain = s.plain ∨ (move prog s t i fails).plain = plainMove prog s.plain t i := by
  unfold move
  cases here : s.place t with
  | free =>
    simp only
    split
    · rename_i f next
      rw [plainMove,next]
      exact Or.inr rfl
    · exact Or.inl rfl
  | cas S =>
    simp only
    split <;> exact Or.inl rfl
  | spin S =>
    simp only
    split <;> exact Or.inl rfl
  | inside S => exact Or.inl rfl
  | holding S x =>
    rw [plainMove,safe.planned t S (here ▸ rfl)]
    simp only
    rw [safe.seen t S x here]
    exact Or.inr rfl
  | leave q => exact Or.inl rfl

theorem runPlain {acts : List (Nat × ι × Bool)} (ok : run (step P prog) s acts = some u) (safe : Safe P prog s) :
    ∃ moves, moves.Sublist (acts.map (fun a => (a.1,a.2.1))) ∧ run (plainStep P prog) s.plain moves = some u.plain := by
  induction acts generalizing s with
  | nil => cases ok; exact ⟨[],List.Sublist.refl _,rfl⟩
  | cons a rest ih =>
    obtain ⟨v,one,more⟩ := runConsSource ok
    obtain ⟨moves,sub,later⟩ := ih more (stepSafe safe one)
    unfold step at one
    split at one
    · rename_i inside
      cases one
      rcases movePlain (t := a.1) safe a.2.1 a.2.2 with same | moved
      · exact ⟨moves,sub.cons _,same ▸ later⟩
      · have first : plainStep P prog s.plain (a.1,a.2.1) = some (move prog s a.1 a.2.1 a.2.2).plain := by
          rw [plainStep,if_pos inside,moved]
        exact ⟨(a.1,a.2.1) :: moves,sub.cons_cons _,(runCons first moves).trans later⟩
    · cases one

/- What holds in every run of the plain machine holds in every run of the fine one. -/
theorem runHolds {inv : Plain σ ε κ → Prop} (keep : ∀ p a p', plainStep P prog p a = some p' → inv p → inv p')
    {acts : List (Nat × ι × Bool)} (ok : run (step P prog) s acts = some u) (safe : Safe P prog s) (start : inv s.plain) :
    inv u.plain := by
  obtain ⟨moves,-,plain⟩ := runPlain ok safe
  exact runInvariant keep plain start

end Refinement

section Ends

variable {P prog} {s : Fine σ ε κ} {t : Nat}

/- A thread that has the word, or that may have it, comes nearer to the end of its section. -/
theorem moveNearer (inside : t < P) (i : ι) (busy : s.place t ≠ .free)
    (may : ∀ S, pending (s.place t) = some S → holder (s.place t) = some S.name ∨ s.word S.name = false) :
    total P (fun k => rank ((move prog s t i false).place k)) < total P (fun k => rank (s.place k)) := by
  unfold move
  cases here : s.place t with
  | free => exact absurd here busy
  | cas S =>
    have free : s.word S.name = false := (may S (here ▸ rfl)).resolve_left (by rw [here]; exact fun no => by cases no)
    simp only [free,Bool.or_false,Bool.false_eq_true,if_false]
    exact rankGoto (setWord s S.name true) (.inside S)
      (Nat.lt_of_lt_of_eq (by decide : 3 < 4) (congrArg rank here).symm) inside
  | spin S =>
    have free : s.word S.name = false := (may S (here ▸ rfl)).resolve_left (by rw [here]; exact fun no => by cases no)
    simp only [free,Bool.false_eq_true,if_false]
    exact rankGoto s (.cas S) (Nat.lt_of_lt_of_eq (by decide : 4 < 5) (congrArg rank here).symm) inside
  | inside S => exact rankGoto s _ (Nat.lt_of_lt_of_eq (by decide : 2 < 3) (congrArg rank here).symm) inside
  | holding S x =>
    exact rankGoto { s with plain := committed s.plain t S x } (.leave S.name)
      (Nat.lt_of_lt_of_eq (by decide : 1 < 2) (congrArg rank here).symm) inside
  | leave q => exact rankGoto (setWord s q false) .free (Nat.lt_of_lt_of_eq (by decide : 0 < 1) (congrArg rank here).symm) inside

/- Where some thread is in a section, one of them comes nearer to its end: one that has its
object's word, or any when no word is taken. -/
theorem someNearer (safe : Safe P prog s) (i : ι) (busy : ¬Quiet P s) : ∃ a v, step P prog s a = some v ∧ Safe P prog v ∧
    total P (fun k => rank (v.place k)) < total P (fun k => rank (s.place k)) := by
  have known : ∃ t, t < P ∧ s.place t ≠ .free ∧
      ∀ S, pending (s.place t) = some S → holder (s.place t) = some S.name ∨ s.word S.name = false := by
    by_cases held : ∃ t q, holder (s.place t) = some q
    · obtain ⟨t,q,held⟩ := held
      refine ⟨t,safe.known t q held,fun free => ?_,fun S at' => Or.inl ?_⟩
      · rw [free] at held
        cases held
      · cases here : s.place t with
        | inside T => rw [here] at at'; cases at'; rfl
        | holding T x => rw [here] at at'; cases at'; rfl
        | free => rw [here] at held; cases held
        | cas T => rw [here] at held; cases held
        | spin T => rw [here] at held; cases held
        | leave r => rw [here] at at'; cases at'
    · obtain ⟨t,inside,busy'⟩ : ∃ t, t < P ∧ s.place t ≠ .free := by
        simpa only [Quiet,not_forall,exists_prop] using busy
      refine ⟨t,inside,busy',fun S _ => Or.inr (Bool.eq_false_iff.mpr fun taken => ?_)⟩
      obtain ⟨k,held'⟩ := safe.owned S.name taken
      exact held ⟨k,S.name,held'⟩
  obtain ⟨t,inside,busy',may⟩ := known
  exact ⟨(t,i,false),_,if_pos inside,moveSafe i false safe inside,moveNearer inside i busy' may⟩

/- The sections under way can all be ended. -/
theorem settles (safe : Safe P prog s) (i : ι) :
    ∃ acts u, run (step P prog) s acts = some u ∧ Safe P prog u ∧ Quiet P u :=
  reachesEnd (fun v : Fine σ ε κ => total P (fun k => rank (v.place k)))
    (fun _ safe' busy => someNearer safe' i busy) safe

/- Where no section is under way a thread can do its move of the plain machine alone. -/
theorem performs (safe : Safe P prog s) (quiet : Quiet P s) (inside : t < P) (i : ι) :
    ∃ acts u, run (step P prog) s acts = some u ∧ Safe P prog u ∧ Quiet P u ∧ u.plain = plainMove prog s.plain t i := by
  have steps : ∀ {v w : Fine σ ε κ}, move prog v t i false = w → step P prog v (t,i,false) = some w :=
    fun same => (if_pos inside).trans (congrArg some same)
  cases next : prog t (s.plain.thread t) with
  | own f =>
    have moved : move prog s t i false = { s with plain := turned s.plain t (f i) } := by
      unfold move
      rw [quiet t inside]
      simp only [next]
    refine ⟨[(t,i,false)],_,runCons (steps moved) [],moved ▸ moveSafe i false safe inside,quiet,?_⟩
    unfold plainMove
    rw [next]
  | guarded S =>
    have free : s.word S.name = false := by
      refine Bool.eq_false_iff.mpr fun taken => ?_
      obtain ⟨k,held⟩ := safe.owned S.name taken
      rw [quiet k (safe.known k S.name held)] at held
      cases held
    have first : move prog s t i false = goto s t (.cas S) := by
      unfold move
      rw [quiet t inside]
      simp only [next,free,Bool.false_eq_true,if_false]
    have second := moveCas prog i (gotoPlace s t (.cas S)) free
    have third := moveInside prog i false
      (gotoPlace (setWord (goto s t (.cas S)) S.name true) t (.inside S))
    have fourth := moveHolding prog i false (gotoPlace
      (goto (setWord (goto s t (.cas S)) S.name true) t (.inside S)) t (.holding S (s.plain.objs S.name)))
    have fifth := moveLeave prog i false (gotoPlace { goto (goto (setWord (goto s t (.cas S))
      S.name true) t (.inside S)) t (.holding S (s.plain.objs S.name)) with
        plain := committed s.plain t S (s.plain.objs S.name) } t (.leave S.name))
    have whole := (runCons (steps first) _).trans <| (runCons (steps second) _).trans <| (runCons (steps third) _).trans <|
      (runCons (steps fourth) _).trans <| runCons (steps fifth) []
    refine ⟨_,_,whole,runSafe whole safe,fun k known => ?_,?_⟩
    · rcases eq_or_ne k t with rfl | other
      · exact gotoPlace ..
      · exact (gotoOther _ _ other).trans <| (gotoOther _ _ other).trans <| (gotoOther _ _ other).trans <|
          (gotoOther _ _ other).trans <| (gotoOther s _ other).trans (quiet k known)
    · unfold plainMove
      rw [next]
      rfl

theorem runPerforms (safe : Safe P prog s) (quiet : Quiet P s) {moves : List (Nat × ι)} {p : Plain σ ε κ}
    (ok : run (plainStep P prog) s.plain moves = some p) :
    ∃ acts u, run (step P prog) s acts = some u ∧ Safe P prog u ∧ Quiet P u ∧ u.plain = p := by
  induction moves generalizing s with
  | nil => cases ok; exact ⟨[],s,rfl,safe,quiet,rfl⟩
  | cons a rest ih =>
    obtain ⟨q,one,more⟩ := runConsSource ok
    unfold plainStep at one
    split at one
    · rename_i inside
      cases one
      obtain ⟨acts,u,ok',safe',quiet',same⟩ := performs safe quiet inside a.2
      obtain ⟨acts',v,ok'',last⟩ := ih safe' quiet' (same ▸ more)
      exact ⟨acts ++ acts',v,runJoin ok' ok'',last⟩
    · cases one

/- Where the plain machine gets to an end from every state of its runs, so does the fine machine. -/
theorem reaches {inv done : Plain σ ε κ → Prop} (keep : ∀ p a p', plainStep P prog p a = some p' → inv p → inv p')
    (ends : ∀ p, inv p → ∃ moves p', run (plainStep P prog) p moves = some p' ∧ done p') (safe : Safe P prog s)
    (start : inv s.plain) (i : ι) : ∃ acts u, run (step P prog) s acts = some u ∧ Quiet P u ∧ done u.plain := by
  obtain ⟨acts,u,ok,safe',quiet⟩ := settles safe i
  obtain ⟨moves,p,plain,end'⟩ := ends u.plain (runHolds keep ok safe start)
  obtain ⟨acts',v,ok',-,quiet',same⟩ := runPerforms safe' quiet plain
  exact ⟨acts ++ acts',v,runJoin ok ok',quiet',same ▸ end'⟩

end Ends

end CoTra.Locked
