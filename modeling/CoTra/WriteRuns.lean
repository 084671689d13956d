import CoTra.CreditConservation

/-! Blocks of sends and receives in closed form. The ends of a link are read as
two halves, what its first machine posts and what the second one posts back, and
one lemma a block says what becomes of them. The receiver reads the slots. -/
namespace CoTra.WriteRuns
open Runs WriteBuffer CreditConservation

structure Half where
  free : List Nat
  waiting : List Nat
  chan : List Message
  slot : Nat → List Nat

variable {n : Nat}

def half (s : Net n) (l : Link n) : Half := ⟨s.buffIdList l,s.releaseIdList l,s.channel l,s.buffer l⟩

/- A net of which only one link matters: nothing else waits to be released. -/
structure Shows (s : Net n) (l : Link n) (own back : Half) : Prop where
  apart : l.1 ≠ l.2
  own : half s l = own
  back : half s l.swap = back
  idle : ∀ k, k ≠ l → k ≠ l.swap → s.releaseIdList k = []

theorem showsSwap {s : Net n} {l own back} (shows' : Shows s l own back) : Shows s l.swap back own :=
  ⟨fun same => shows'.apart same.symm,shows'.back,by rw [Prod.swap_swap]; exact shows'.own,
    fun k a b => shows'.idle k (by rwa [Prod.swap_swap] at b) a⟩

def fill (words old : List Nat) : List Nat := words ++ old.drop words.length

def posts (control : ControlType) (data : List Nat) : List Nat → Nat → List Message
  | [], _ => []
  | id :: rest, left => ⟨control,id,data,rest.length + 1 + left⟩ :: posts control data rest left

/- `ids` are taken from the front of the free list, a message with `data` each. -/
def Half.sent (h : Half) (control : ControlType) (data ids left : List Nat) : Half :=
  { h with
    free := left
    chan := h.chan ++ posts control data ids left.length
    slot := fun id => if id ∈ ids then fill data (h.slot id) else h.slot id }

/- The ids that completed messages bring back, out of their slots. -/
def returned (slot : Nat → List Nat) (msgs : List Message) : List Nat :=
  msgs.flatMap (fun msg => if Releasing msg.control then releasedIds (slot msg.bufId) else [])

def Half.received (h : Half) (slot : Nat → List Nat) (msgs : List Message) : Half :=
  { h with free := h.free ++ returned slot msgs, waiting := h.waiting ++ heldIds msgs }

/- The front id is taken for the waiting ids; a CLEAR keeps it at the back. -/
def Half.released (h : Half) (control : ControlType) (id : Nat) (left : List Nat) : Half :=
  { free := left
    waiting := []
    chan := h.chan ++ [⟨control,id,h.waiting.length :: h.waiting,h.free.length⟩]
    slot := Function.update h.slot id (fill (h.waiting.length :: h.waiting) (h.slot id)) }

theorem postsIds (control : ControlType) (data ids : List Nat) (left : Nat) :
    (posts control data ids left).map Message.bufId = ids := by
  induction ids with
  | nil => rfl
  | cons id rest ih => simp [posts,ih]

@[simp] theorem postsLength (control : ControlType) (data ids : List Nat) (left : Nat) :
    (posts control data ids left).length = ids.length := by
  rw [← List.length_map,postsIds]

theorem postsControl {control : ControlType} {data ids : List Nat} {left : Nat} {msg}
    (member : msg ∈ posts control data ids left) : msg.control = control := by
  induction ids with
  | nil => contradiction
  | cons id rest ih =>
    rcases List.mem_cons.mp member with rfl | later
    · rfl
    · exact ih later

theorem heldOthers {msgs : List Message} (other : ∀ msg ∈ msgs, msg.control ≠ .clear) :
    heldIds msgs = msgs.map Message.bufId := by
  rw [heldIds,List.filter_eq_self.mpr (fun msg member => by simpa using other msg member)]

theorem postsReturned {control : ControlType} (normal : ¬Releasing control) (slot : Nat → List Nat)
    (data ids : List Nat) (left : Nat) : returned slot (posts control data ids left) = [] := by
  refine List.flatMap_eq_nil_iff.mpr (fun msg member => if_neg ?_)
  rwa [postsControl member]

theorem postsOther {control : ControlType} (normal : ¬Releasing control) {data ids : List Nat} {left : Nat} :
    ∀ msg ∈ posts control data ids left, msg.control ≠ .clear := by
  intro msg member clear
  rw [postsControl member] at clear
  exact normal (.inr clear)

theorem postsHeld {control : ControlType} (normal : ¬Releasing control) (data ids : List Nat) (left : Nat) :
    heldIds (posts control data ids left) = ids := by
  rw [heldOthers (postsOther normal),postsIds]

theorem postsAppend (control : ControlType) (data xs ys : List Nat) (left : Nat) :
    posts control data (xs ++ ys) left = posts control data xs (ys.length + left) ++ posts control data ys left := by
  induction xs with
  | nil => rfl
  | cons x rest ih => simp [posts,ih]; omega

@[simp] theorem fillTwice (words old : List Nat) : fill words (fill words old) = fill words old := by
  simp [fill]

@[simp] theorem fillNothing (old : List Nat) : fill [] old = old := by simp [fill]

theorem releasedFilled (ids old : List Nat) : releasedIds (fill (ids.length :: ids) old) = ids := by
  simp [releasedIds,fill]

theorem returnedAppend (slot : Nat → List Nat) (xs ys : List Message) :
    returned slot (xs ++ ys) = returned slot xs ++ returned slot ys := by
  simp [returned]

/- A post changes one half. -/
theorem postShows {s : Net n} {l own back} (shows' : Shows s l own back) (left waiting : List Nat) (msg : Message) :
    Shows (postWriteSend { s with
        buffIdList := Function.update s.buffIdList l left
        releaseIdList := Function.update s.releaseIdList l waiting } l msg) l
      ⟨left,waiting,own.chan ++ [msg],Function.update own.slot msg.bufId (fill msg.words (own.slot msg.bufId))⟩
      back := by
  have ne := swapNe shows'.apart
  refine ⟨shows'.apart,?_,?_,?_⟩
  · rw [← shows'.own]
    simp [half,postWriteSend,fill]
  · rw [← shows'.back]
    simp [half,postWriteSend,ne]
  · intro k a b
    simpa [postWriteSend,a] using shows'.idle k a b

theorem sendShows {s : Net n} {l own back} (shows' : Shows s l own back) (data : List Nat) {control id left}
    (normal : ¬Releasing control) (ids : own.free = id :: left) (many : releaseBlock ≤ left.length) :
    ∃ t, step .memory s (.send l control data) = some t ∧
      Shows t l (own.sent control data [id] left) back := by
  have free : s.buffIdList l = id :: left := (congrArg Half.free shows'.own).trans ids
  refine ⟨_,sendReady .memory shows'.apart free (by rw [free,List.length_cons]; omega) control normal data,?_⟩
  have posted := postShows shows' left own.waiting ⟨control,id,data,(s.buffIdList l).length⟩
  have waiting : own.waiting = s.releaseIdList l := congrArg Half.waiting shows'.own.symm
  rw [waiting,Function.update_eq_self] at posted
  convert posted using 1
  simp only [Half.sent,posts,free,waiting,Half.mk.injEq,List.length_cons,true_and,List.length_nil]
  refine ⟨by rw [Nat.zero_add,Nat.add_comm],?_⟩
  funext k
  by_cases here : k = id
  · subst k; simp
  · simp [here]

theorem sentAgain (h : Half) (control : ControlType) (data : List Nat) (id : Nat) (rest left : List Nat) :
    (h.sent control data [id] (rest ++ left)).sent control data rest left = h.sent control data (id :: rest) left := by
  simp only [Half.sent,posts,List.length_append,List.length_nil,List.append_assoc,List.singleton_append,
    Half.mk.injEq,true_and]
  refine ⟨by congr 3; omega,?_⟩
  funext k
  by_cases first : k = id <;> by_cases later : k ∈ rest <;> simp [first,later]

/- A block of sends on one link. -/
theorem sendsShow {control : ControlType} (normal : ¬Releasing control) (data left : List Nat)
    (many : releaseBlock ≤ left.length) (ids : List Nat) {s : Net n} {l own back} (shows' : Shows s l own back)
    (free : own.free = ids ++ left) :
    ∃ t, run (step .memory) s (List.replicate ids.length (.send l control data)) = some t ∧
      Shows t l (own.sent control data ids left) back := by
  induction ids generalizing s own with
  | nil =>
    have all : own.free = left := free
    have same : own.sent control data [] left = own := by simp [Half.sent,posts,← all]
    refine ⟨s,rfl,?_⟩
    rwa [same]
  | cons id rest ih =>
    have room : releaseBlock ≤ (rest ++ left).length := by
      rw [List.length_append]
      omega
    obtain ⟨t,first,next⟩ := sendShows shows' data normal free room
    obtain ⟨u,later,done⟩ := ih next rfl
    refine ⟨u,?_,sentAgain own control data id rest left ▸ done⟩
    rw [List.length_cons,List.replicate_succ]
    exact (runCons first _).trans later

/- What takeHead and push_back leave of the two halves. -/
theorem takeShows {s : Net n} {l own back} (shows' : Shows s l own back) {msg rest} (head : own.chan = msg :: rest) :
    Shows (if msg.control = .clear then takeHead .memory s l msg rest
      else pushRelease (takeHead .memory s l msg rest) l.swap msg.bufId) l
      { own with chan := rest } (back.received own.slot [msg]) := by
  have ne := swapNe shows'.apart
  have slot : own.slot = s.buffer l := congrArg Half.slot shows'.own.symm
  have chan : s.channel l = msg :: rest := (congrArg Half.chan shows'.own).trans head
  rw [slot]
  refine ⟨shows'.apart,?_,?_,?_⟩
  · rw [← shows'.own]
    by_cases clear : msg.control = .clear <;> by_cases releasing : Releasing msg.control <;>
      simp [half,takeHead,pushRelease,clear,releasing,Ne.symm ne]
  · rw [← shows'.back]
    by_cases clear : msg.control = .clear
    · simp [half,takeHead,clear,Half.received,returned,heldCons,readWords,ne]
    · by_cases releasing : Releasing msg.control <;>
        simp [half,takeHead,pushRelease,clear,releasing,Half.received,returned,heldCons,readWords,ne]
  · intro k a b
    by_cases clear : msg.control = .clear
    · simpa [takeHead,clear] using shows'.idle k a b
    · simpa [takeHead,pushRelease,clear,b] using shows'.idle k a b

theorem recvShows {s : Net n} {l own back} (shows' : Shows s l own back) {msg rest} (head : own.chan = msg :: rest)
    (short : (back.waiting ++ heldIds [msg]).length < releaseBlock) :
    ∃ t, step .memory s (.recv l) = some t ∧
      Shows t l { own with chan := rest } (back.received own.slot [msg]) := by
  have chan : s.channel l = msg :: rest := (congrArg Half.chan shows'.own).trans head
  have taken := takeShows shows' head
  have waiting : s.releaseIdList l.swap = back.waiting := congrArg Half.waiting shows'.back
  simp only [step,pollRecv,chan]
  by_cases clear : msg.control = .clear
  · rw [if_pos clear] at taken ⊢
    exact ⟨_,rfl,taken⟩
  · rw [if_neg clear] at taken ⊢
    have few : ¬releaseBlock ≤ (s.releaseIdList l.swap).length + 1 := by
      simp only [heldCons,clear,if_false,List.length_append,heldNil,List.length_singleton] at short
      rw [waiting]
      omega
    refine ⟨_,?_,taken⟩
    simp [sendWriteRelease,pushRelease,takeHead,few]

theorem receivedAgain (h : Half) (slot : Nat → List Nat) (msg : Message) (msgs : List Message) :
    (h.received slot [msg]).received slot msgs = h.received slot (msg :: msgs) := by
  simp only [Half.received,Half.mk.injEq,and_true,List.append_assoc]
  exact ⟨by rw [← returnedAppend,List.singleton_append],by rw [← heldAppend,List.singleton_append]⟩

/- A block of receives after which too few ids wait for a RELEASE. -/
theorem recvsShow (msgs rest : List Message) {s : Net n} {l own back}
    (shows' : Shows s l own back) (head : own.chan = msgs ++ rest)
    (short : (back.waiting ++ heldIds msgs).length < releaseBlock) :
    ∃ t, run (step .memory) s (List.replicate msgs.length (.recv l)) = some t ∧
      Shows t l { own with chan := rest } (back.received own.slot msgs) := by
  induction msgs generalizing s own back with
  | nil =>
    have all : own.chan = rest := head
    have same : ({ own with chan := rest } : Half) = own := by rw [← all]
    have none' : back.received own.slot [] = back := by simp [Half.received,returned]
    refine ⟨s,rfl,?_⟩
    rwa [same,none']
  | cons msg msgs ih =>
    have split : heldIds (msg :: msgs) = heldIds [msg] ++ heldIds msgs := by
      rw [← heldAppend,List.singleton_append]
    rw [split,← List.append_assoc] at short
    obtain ⟨t,first,next⟩ := recvShows shows' head (by rw [List.length_append] at short; omega)
    obtain ⟨u,later,done⟩ := ih next rfl short
    refine ⟨u,?_,receivedAgain back own.slot msg msgs ▸ done⟩
    rw [List.length_cons,List.replicate_succ]
    exact (runCons first _).trans later

/- The receive that fills the release list: it stops where no id is free. -/
theorem releaseShows {s : Net n} {l own back} (shows' : Shows s l own back) {msg rest}
    (head : own.chan = msg :: rest) (other : msg.control ≠ .clear)
    (full : back.waiting.length + 1 = releaseBlock) :
    (back.free ++ returned own.slot [msg] = [] → step .memory s (.recv l) = none) ∧
    ∀ id left, back.free ++ returned own.slot [msg] = id :: left → ∃ t, step .memory s (.recv l) = some t ∧
      Shows t l { own with chan := rest } ((back.received own.slot [msg]).released .release id left) := by
  have chan : s.channel l = msg :: rest := (congrArg Half.chan shows'.own).trans head
  have taken := takeShows shows' head
  rw [if_neg other] at taken
  generalize hu : pushRelease (takeHead .memory s l msg rest) l.swap msg.bufId = u at taken
  have free : u.buffIdList l.swap = back.free ++ returned own.slot [msg] := congrArg Half.free taken.back
  have waiting : u.releaseIdList l.swap = back.waiting ++ heldIds [msg] := congrArg Half.waiting taken.back
  have long : releaseBlock ≤ (u.releaseIdList l.swap).length := by
    rw [waiting]
    simp [heldCons,other]
    omega
  have polled : step .memory s (.recv l) = postRelease .release true u l.swap := by
    simp only [step,pollRecv,chan,if_neg other,sendWriteRelease,hu]
    rw [if_pos long]
  rw [polled]
  constructor
  · intro none'
    simp [postRelease,getWriteSendBuf,free,none']
  · intro id left ids
    have posted := showsSwap (postShows (showsSwap taken) left []
      ⟨.release,id,(u.releaseIdList l.swap).length :: u.releaseIdList l.swap,(u.buffIdList l.swap).length⟩)
    rw [Prod.swap_swap] at posted
    rw [waiting,free] at posted
    refine ⟨_,?_,posted⟩
    simp only [postRelease,getWriteSendBuf,free,waiting,ids]
    rfl

/- A block of receives whose last one fills the release list. -/
theorem blockShows {block rest : List Message} (other : ∀ msg ∈ block, msg.control ≠ .clear) {s : Net n}
    {l own back} (shows' : Shows s l own back) (head : own.chan = block ++ rest)
    (short : back.waiting.length < releaseBlock) (full : back.waiting.length + block.length = releaseBlock)
    {id left} (ids : back.free ++ returned own.slot block = id :: left) :
    ∃ t, run (step .memory) s (List.replicate block.length (.recv l)) = some t ∧
      Shows t l { own with chan := rest } ((back.received own.slot block).released .release id left) := by
  rcases List.eq_nil_or_concat' block with rfl | ⟨msgs,msg,rfl⟩
  · rw [List.length_nil] at full
    omega
  rw [List.length_append,List.length_singleton] at full
  have held : (heldIds msgs).length = msgs.length := by
    rw [heldOthers (fun m member => other m (List.mem_append_left _ member)),List.length_map]
  obtain ⟨t,first,next⟩ := recvsShow msgs (msg :: rest) shows' (by simpa using head)
    (by rw [List.length_append]; omega)
  rw [returnedAppend,← List.append_assoc] at ids
  obtain ⟨u,last,done⟩ := (releaseShows next rfl (other msg (by simp))
    (by simp only [Half.received,List.length_append]; omega)).2 id left ids
  refine ⟨u,?_,?_⟩
  · rw [List.length_append,List.length_singleton,List.replicate_succ']
    exact runJoin first ((runCons last []).trans (runNil _ _))
  · have joined : (back.received own.slot msgs).received own.slot [msg] =
        back.received own.slot (msgs ++ [msg]) := by
      simp [Half.received,returnedAppend]
    rwa [joined] at done

theorem foldlMIdle {σ β : Type*} {body : σ → β → Option σ} {s : σ} {items : List β}
    (idle : ∀ b ∈ items, body s b = some s) : items.foldlM body s = some s := by
  induction items with
  | nil => rfl
  | cons b rest ih =>
    rw [List.foldlM_cons,idle b List.mem_cons_self]
    exact ih (fun c member => idle c (List.mem_cons_of_mem _ member))

/- clear_write_release finds ids of one peer only. -/
theorem clearShows {s : Net n} {l own back} (shows' : Shows s l own back) {id left} (ids : own.free = id :: left)
    (waiting : own.waiting ≠ []) :
    ∃ t, step .memory s (.clear l.1) = some t ∧ Shows t l (own.released .clear id (left ++ [id])) back := by
  have free : s.buffIdList l = id :: left := (congrArg Half.free shows'.own).trans ids
  have list : s.releaseIdList l = own.waiting := congrArg Half.waiting shows'.own
  have posted := clearToPosts free (by rw [list]; exact waiting)
  have shown := postShows shows' (left ++ [id]) []
    ⟨.clear,id,(s.releaseIdList l).length :: s.releaseIdList l,(s.buffIdList l).length⟩
  generalize postWriteSend _ l _ = t at posted shown
  have others : ∀ m, m ≠ l.2 → (l.1,m) ≠ l ∧ (l.1,m) ≠ l.swap := by
    intro m other
    exact ⟨fun same => other (congrArg Prod.snd same),fun same => shows'.apart (congrArg Prod.fst same)⟩
  obtain ⟨before,after,split⟩ := List.append_of_mem (List.mem_finRange l.2)
  have once : (List.finRange n).Nodup := List.nodup_finRange n
  rw [split,List.nodup_append] at once
  have early : before.foldlM (fun u m => clearWriteReleaseTo u (l.1,m)) s = some s := by
    refine foldlMIdle (fun m member => ?_)
    obtain ⟨a,b⟩ := others m (once.2.2 m member l.2 List.mem_cons_self)
    simp [clearWriteReleaseTo,shows'.idle _ a b]
  have late : after.foldlM (fun u m => clearWriteReleaseTo u (l.1,m)) t = some t := by
    refine foldlMIdle (fun m member => ?_)
    obtain ⟨a,b⟩ := others m (fun same => (List.nodup_cons.mp once.2.1).1 (same ▸ member))
    simp [clearWriteReleaseTo,shown.idle _ a b]
  refine ⟨t,?_,?_⟩
  · simp only [step,clearWriteRelease,split,List.foldlM_append,List.foldlM_cons,early,Option.bind_eq_bind,
      Option.bind_some,posted,late]
  · rw [list,free,← ids] at shown
    exact shown

end CoTra.WriteRuns
