import SpeUtils.Spu.Lookup
import SpeUtils.Spu.Pipeline

open heap run speutils.linkedlist speutils.ring speutils.fifo speutils.messages

namespace speutils.taskmanager

/-- A transfer of a program into local store that has been started. -/
structure Load where
  LS : Nat
  EA : Option (BitVec 64)
  size : BitVec 32
  tag : Nat

/-- What the two stages do with programs. Of a call it is recorded where it went, whether
the program was in place there, and whether the allocation for the task had failed. -/
inductive Activity where
  | load (prog : Ptr) (LS : Nat)
  | call (prog LS : Ptr) (present failed : Bool)

/-- The program an activity is about. -/
def Activity.prog : Activity → Ptr
  | .load prog _ => prog
  | .call prog _ _ _ => prog

/-- The program table with the local store. `image` tells for an address the bytes of
main memory that a transfer has brought there and has been waited for, `leaked` what
`memalign` has returned so far, and `stopped` whether a null pointer has been called. -/
structure Loader where
  store : Store
  loads : List Load
  image : Nat → Option (BitVec 64 × BitVec 32)
  leaked : List Ptr
  trace : List Activity
  stopped : Bool

namespace Loader

/-- A table and a local store before the first task. -/
def init (store : Store) (image : Nat → Option (BitVec 64 × BitVec 32)) : Loader where
  store
  loads := []
  image
  leaked := []
  trace := []
  stopped := false

/-- The program's bytes are in place behind its `LS`. -/
def holds (s : Loader) (program : program_s) : Bool :=
  match program.LS, program.EA with
  | some LS, some EA => s.image LS = some (EA, program.size)
  | none, _ | _, none => false

/-- `dmaGet` of a program. Until it is waited for, nothing can be said about the
destination. -/
def dmaGet (s : Loader) (prog : Ptr) (LS : Nat) (program : program_s) (tag : Nat) : Loader :=
  { s with
    loads := s.loads ++ [{ LS, EA := program.EA, size := program.size, tag }]
    image := Function.update s.image LS none
    trace := s.trace ++ [.load prog LS] }

/-- `dmaWaitTag`, as far as programs are concerned. -/
def dmaWaitTag (s : Loader) (tag : Nat) : Loader :=
  { s with
    loads := s.loads.filter (·.tag ≠ tag)
    image := (s.loads.filter (·.tag = tag)).foldl
      (fun image load => Function.update image load.LS (load.EA.map fun EA => (EA, load.size))) s.image }

def dmaGetnWait (s : Loader) (prog : Ptr) (LS : Nat) (program : program_s) (tag : Nat) : Loader :=
  (s.dmaGet prog LS program tag).dmaWaitTag tag

/-- The statement `if (prog->LS == NULL)` of both stages, with the transfer that the stage
uses and what `memalign` returns. `prog->LS == memalign(..)` is a comparison, so the
memory is dropped and `LS` is read a second time as it was. -/
def attempt (fetch : Loader → Ptr → Nat → program_s → Nat → Loader) (tag : Nat) (memory prog : Ptr)
    (s : Loader) : Option Loader := do
  let program ← read s.store.records prog
  if program.LS = none then
    let s := { s with leaked := s.leaked ++ [memory] }
    let program ← read s.store.records prog
    match program.LS with
    | none => return s
    | some LS => return fetch s prog LS program tag
  else return s

/-- `stage2` on an active context. `program` is the uninitialised local that its lookup
goes on with. -/
def stage2 (fuel tag : Nat) (task : Task) (program memory : Ptr) (s : Loader) : Option Loader :=
  let s := s.dmaWaitTag tag
  if command task = REGISTER_PROGRAM then some { s with store := s.store.register task }
  else if command task = ADD then some s
  else do
    let (prog, store) ← s.store.find2 program fuel (command task)
    let s := { s with store }
    if prog = none then return s else attempt dmaGet tag memory prog s

/-- `stage3` on an active context. After a failed allocation it prints a line and calls
the program all the same. -/
def stage3 (pic : Nat → Task → ack_s → Task × ack_s) (fuel tag : Nat) (task : Task) (ack : ack_s)
    (res : BitVec 32) (memory : Ptr) (s : Loader) : Option (Loader × Task × ack_s) :=
  match executeBuiltin res task ack with
  | some ack => some (s, task, ack)
  | none => do
    let (prog, store) ← s.store.find3 fuel (command task)
    let s := { s with store }
    if prog = none then return (s, task, ack)
    else
      let before ← read s.store.records prog
      let s ← attempt dmaGetnWait tag memory prog s
      let program ← read s.store.records prog
      let failed := decide (before.LS = none ∧ memory = none)
      let s := { s with trace := s.trace ++ [.call prog program.LS (s.holds program) failed] }
      match program.LS with
      | none => return ({ s with stopped := true }, task, ack)
      | some code =>
        let (task, ack) := pic code task ack
        return (s, task, ack)

/-- One of the two stages on some context, with what its uninitialised local and its
`memalign` give it. -/
inductive Turn where
  | stage2 (tag : Nat) (task : Task) (program memory : Ptr)
  | stage3 (tag : Nat) (task : Task) (ack : ack_s) (res : BitVec 32) (memory : Ptr)

/-- A turn has no result where the code follows an invalid pointer, and after the call of
a null pointer there are no further turns. -/
def step (pic : Nat → Task → ack_s → Task × ack_s) (fuel : Nat) (s : Loader) (turn : Turn) : Option Loader :=
  if s.stopped then none
  else match turn with
    | .stage2 tag task program memory => s.stage2 fuel tag task program memory
    | .stage3 tag task ack res memory => (s.stage3 pic fuel tag task ack res memory).map Prod.fst

/-- Programs are loaded before they are called. Each call goes to local store that holds
the program, all calls of a program go to the same place, no program is loaded twice or
after a call, and no call is made for a task whose allocation has failed. -/
structure LoadedBeforeCall (s : Loader) : Prop where
  loaded : ∀ prog LS present failed, .call prog LS present failed ∈ s.trace → LS ≠ none ∧ present = true
  same : ∀ prog LS LS' present present' failed failed', .call prog LS present failed ∈ s.trace →
    .call prog LS' present' failed' ∈ s.trace → LS = LS'
  once : ∀ done prog LS, done ++ [.load prog LS] <+: s.trace → ∀ earlier ∈ done, earlier.prog ≠ prog
  allocated : ∀ prog LS present, .call prog LS present true ∉ s.trace

/-- What a turn needs of the table it starts from: a task that `stage3` has no case for
names a program that is in place already, or none. -/
def Turn.Ready (start : Loader) (table : List Ptr) : Turn → Prop
  | .stage2 _ _ _ _ => True
  | .stage3 _ task _ _ _ => command task ≠ ADD → command task ≠ NOOP →
    ∀ program, read start.store.records (Store.lookup start.store.records (command task) table) = some program →
      start.holds program = true

section Inversion

theorem executeBuiltin_command (res : BitVec 32) (task : Task) (ack : ack_s) :
    executeBuiltin res task ack =
      if command task = ADD then some { ack with retval := addTerms task 0 res }
      else if command task = NOOP then some ack
      else none := rfl

theorem stage2_command (program : Ptr) (fuel : Nat) (store : Store) (task : Task) :
    store.stage2 program fuel task =
      if command task = REGISTER_PROGRAM then some (store.register task)
      else if command task = ADD then some store
      else (store.find2 program fuel (command task)).map Prod.snd := rfl

variable {pic : Nat → Task → ack_s → Task × ack_s} {fuel tag : Nat} {task : Task} {ack : ack_s}
  {res : BitVec 32} {program memory prog : Ptr} {s s' : Loader}

theorem dmaWaitTag_of_no_loads (hloads : s.loads = []) (tag : Nat) : s.dmaWaitTag tag = s := by
  cases s
  cases hloads
  rfl

/-- The transfer is never started: where it would be, `LS` has just been found null. -/
theorem attempt_eq {fetch : Loader → Ptr → Nat → program_s → Nat → Loader} :
    attempt fetch tag memory prog s = some s' → ∃ leaked, s' = { s with leaked } := by
  intro hattempt
  simp only [attempt, Option.bind_eq_bind, Option.bind_eq_some_iff] at hattempt
  obtain ⟨program, hread, hattempt⟩ := hattempt
  split at hattempt
  · rename_i hnull
    rw [hread, Option.bind_some, hnull] at hattempt
    cases hattempt
    exact ⟨_, rfl⟩
  · cases hattempt
    exact ⟨s.leaked, rfl⟩

/-- What `stage2` can do once the transfers on its tag are over: register a program, or
move cursors and drop memory. -/
theorem stage2_cases (hstage : s.stage2 fuel tag task program memory = some s') :
    (command task = REGISTER_PROGRAM ∧ s' = { s.dmaWaitTag tag with store := s.store.register task }) ∨
      (command task ≠ REGISTER_PROGRAM ∧ command task = ADD ∧ s' = s.dmaWaitTag tag) ∨
      (command task ≠ REGISTER_PROGRAM ∧ command task ≠ ADD ∧
        ∃ prog store leaked, s.store.find2 program fuel (command task) = some (prog, store) ∧
          s' = { s.dmaWaitTag tag with store, leaked }) := by
  simp only [stage2] at hstage
  split at hstage
  · rename_i hregister
    exact .inl ⟨hregister, (Option.some.inj hstage).symm⟩
  · rename_i hregister
    split at hstage
    · rename_i hadd
      exact .inr (.inl ⟨hregister, hadd, (Option.some.inj hstage).symm⟩)
    · rename_i hadd
      obtain ⟨⟨prog, store⟩, hfind, hstage⟩ := Option.bind_eq_some_iff.mp hstage
      refine .inr (.inr ⟨hregister, hadd, prog, store, ?_⟩)
      split at hstage
      · cases hstage
        exact ⟨_, hfind, rfl⟩
      · obtain ⟨leaked, rfl⟩ := attempt_eq hstage
        exact ⟨leaked, hfind, rfl⟩

/-- What `stage3` can do: leave the table alone, miss a program, or call one through
whatever its `LS` holds. -/
theorem stage3_cases {done : Task × ack_s} (hstage : s.stage3 pic fuel tag task ack res memory = some (s', done)) :
    ((command task = ADD ∨ command task = NOOP) ∧ s' = s ∧
        (executeBuiltin res task ack).map (Prod.mk task) = some done) ∨
      (command task ≠ ADD ∧ command task ≠ NOOP ∧ ∃ prog store, s.store.find3 fuel (command task) = some (prog, store) ∧
        ((prog = none ∧ s' = { s with store } ∧ done = (task, ack)) ∨
          prog ≠ none ∧ ∃ record leaked, read store.records prog = some record ∧
            (∀ code, record.LS = some code → done = pic code task ack) ∧
            s' = { s with
              store
              leaked
              trace := s.trace ++ [.call prog record.LS (s.holds record) (record.LS = none ∧ memory = none)]
              stopped := s.stopped || record.LS = none })) := by
  by_cases hadd : command task = ADD
  · simp only [stage3, executeBuiltin_command, if_pos hadd] at hstage
    cases hstage
    exact .inl ⟨.inl hadd, rfl, by rw [executeBuiltin_command, if_pos hadd, Option.map_some]⟩
  by_cases hnoop : command task = NOOP
  · simp only [stage3, executeBuiltin_command, if_neg hadd, if_pos hnoop] at hstage
    cases hstage
    exact .inl ⟨.inr hnoop, rfl, by rw [executeBuiltin_command, if_neg hadd, if_pos hnoop, Option.map_some]⟩
  refine .inr ⟨hadd, hnoop, ?_⟩
  simp only [stage3, executeBuiltin_command, if_neg hadd, if_neg hnoop, Option.bind_eq_bind] at hstage
  obtain ⟨⟨prog, store⟩, hfind, hstage⟩ := Option.bind_eq_some_iff.mp hstage
  refine ⟨prog, store, hfind, ?_⟩
  split at hstage
  · rename_i hnull
    cases hstage
    exact .inl ⟨hnull, rfl, rfl⟩
  · rename_i hnull
    obtain ⟨before, hbefore, hstage⟩ := Option.bind_eq_some_iff.mp hstage
    obtain ⟨tried, hattempt, hstage⟩ := Option.bind_eq_some_iff.mp hstage
    obtain ⟨leaked, rfl⟩ := attempt_eq hattempt
    obtain ⟨record, hrecord, hstage⟩ := Option.bind_eq_some_iff.mp hstage
    obtain rfl := Option.some.inj (hbefore.symm.trans hrecord)
    refine .inr ⟨hnull, before, leaked, hbefore, ?_⟩
    cases hcode : before.LS with
    | none =>
      simp only [hcode] at hstage
      cases hstage
      simp [holds, hcode]
    | some code =>
      simp only [hcode] at hstage
      cases hstage
      simp [holds, hcode]

/-- The table changes as it does without the local store. -/
theorem stage2_store (hstage : s.stage2 fuel tag task program memory = some s') :
    s.store.stage2 program fuel task = some s'.store := by
  obtain ⟨hregister, rfl⟩ | ⟨hregister, hadd, rfl⟩ | ⟨hregister, hadd, prog, store, leaked, hfind, rfl⟩ :=
    stage2_cases hstage
  · rw [stage2_command, if_pos hregister]
  · rw [stage2_command, if_neg hregister, if_pos hadd]
    rfl
  · rw [stage2_command, if_neg hregister, if_neg hadd, hfind, Option.map_some]

/-- A `stage3` that returns from its program does what it does without the local store. -/
theorem stage3_store {done : Task × ack_s} (hstage : s.stage3 pic fuel tag task ack res memory = some (s', done))
    (hrunning : s'.stopped = false) : s.store.stage3 pic res fuel task ack = some (s'.store, done) := by
  obtain ⟨_, rfl, hdone⟩ | ⟨hadd, hnoop, prog, store, hfind, hcall⟩ := stage3_cases hstage
  · obtain ⟨ack', hbuiltin, rfl⟩ := Option.map_eq_some_iff.mp hdone
    rw [Store.stage3, hbuiltin]
  · have hbuiltin : executeBuiltin res task ack = none := by
      rw [executeBuiltin_command, if_neg hadd, if_neg hnoop]
    have hfind : s.store.find3 fuel (task 0) = some (prog, store) := hfind
    simp only [Store.stage3, hbuiltin, hfind, Option.bind_eq_bind, Option.bind_some]
    obtain ⟨hnull, rfl, rfl⟩ | ⟨hnull, record, leaked, hread, hdone, rfl⟩ := hcall
    · rw [if_pos hnull]
      rfl
    · rw [if_neg hnull, hread, Option.bind_some]
      cases hcode : record.LS with
      | none => simp [hcode] at hrunning
      | some code =>
        rw [hdone code hcode]
        rfl

end Inversion

/-- What a run keeps as long as its turns are ready: the links of the table, its records,
and a local store that nothing is loaded into. Every call has found its program in
place. -/
structure Intact (start : Loader) (base : Nat) (path : List (Nat × Ptr)) (s : Loader) : Prop where
  programs : s.store.programs = start.store.programs
  linked : ∃ l, Linked base s.store.programs s.store.lists l path
  records : ∃ more, s.store.records = start.store.records ++ more
  loads : s.loads = []
  image : s.image = start.image
  trace : ∀ activity ∈ s.trace, ∃ prog record, read start.store.records prog = some record ∧
    start.holds record = true ∧ activity = .call prog record.LS true false
  running : s.stopped = false

section Run

variable {pic : Nat → Task → ack_s → Task × ack_s} {fuel base : Nat} {path : List (Nat × Ptr)}
  {start s s' : Loader} {turn : Turn}

theorem exists_of_holds {record : program_s} (hholds : s.holds record = true) :
    ∃ LS, record.LS = some LS := by
  cases hcode : record.LS with
  | none => simp [holds, hcode] at hholds
  | some LS => exact ⟨LS, rfl⟩

theorem holds_congr (himage : s.image = start.image) (record : program_s) :
    s.holds record = start.holds record := by
  simp only [holds, himage]

theorem Intact.loadedBeforeCall (h : Intact start base path s) : LoadedBeforeCall s := by
  refine ⟨?_, ?_, ?_, ?_⟩
  · intro prog LS present failed hcall
    obtain ⟨_, record, _, hholds, heq⟩ := h.trace _ hcall
    cases heq
    obtain ⟨LS, hcode⟩ := exists_of_holds hholds
    exact ⟨by simp [hcode], rfl⟩
  · intro prog LS LS' present present' failed failed' hcall hcall'
    obtain ⟨_, record, hread, _, heq⟩ := h.trace _ hcall
    cases heq
    obtain ⟨_, record', hread', _, heq'⟩ := h.trace _ hcall'
    cases heq'
    obtain rfl := Option.some.inj (hread.symm.trans hread')
    rfl
  · intro done prog LS hdone
    have hload : Activity.load prog LS ∈ s.trace := hdone.subset (by simp)
    obtain ⟨_, record, _, _, heq⟩ := h.trace _ hload
    cases heq
  · intro prog LS present hcall
    obtain ⟨_, record, _, _, heq⟩ := h.trace _ hcall
    cases heq

theorem Intact.moved (h : Intact start base path s) {store : Store} (leaked : List Ptr)
    (hmoved : Moved s.store.lists store.lists ∧ store.records = s.store.records ∧
      store.programs = s.store.programs) : Intact start base path { s with store, leaked } := by
  obtain ⟨hlists, hrecords, hprograms⟩ := hmoved
  obtain ⟨l, hlinked⟩ := h.linked
  obtain ⟨l', hlinked'⟩ := hlinked.moved hlists
  obtain ⟨more, hmore⟩ := h.records
  refine ⟨hprograms.trans h.programs, ⟨l', ?_⟩, ⟨more, hrecords.trans hmore⟩, h.loads, h.image, h.trace,
    h.running⟩
  rw [← hprograms] at hlinked'
  exact hlinked'

/-- The lookup of `stage3` still finds the program that the table held at the start. -/
theorem Intact.lookup (h : Intact start base path s)
    (htable : ∀ prog ∈ path.map Prod.snd, ∃ record, read start.store.records prog = some record)
    (hfuel : path.length ≤ fuel) {command : BitVec 32} {prog : Ptr} {store : Store}
    (hfind : s.store.find3 fuel command = some (prog, store)) :
    prog = Store.lookup start.store.records command (path.map Prod.snd) ∧
      ∀ record, read store.records prog = some record → read start.store.records prog = some record := by
  obtain ⟨l, hlinked⟩ := h.linked
  obtain ⟨more, hmore⟩ := h.records
  have hrecords : ∀ prog ∈ path.map Prod.snd, ∃ record, read s.store.records prog = some record := by
    intro prog hprog
    obtain ⟨record, hread⟩ := htable prog hprog
    exact ⟨record, by rw [hmore, read_append hread]⟩
  have hprog : prog = Store.lookup start.store.records command (path.map Prod.snd) := by
    rw [Store.find3_lookup hlinked hrecords hfuel hfind, hmore, Store.lookup_append htable]
  refine ⟨hprog, ?_⟩
  intro record hread
  have hne : Store.lookup start.store.records command (path.map Prod.snd) ≠ none := by
    intro hnull
    rw [hprog, hnull] at hread
    cases hread
  obtain ⟨record', hread'⟩ := htable _ (Store.mem_of_lookup hne)
  rw [← hprog] at hread'
  have hlonger := read_append hread' more
  rw [← hmore, ← (Store.find_moved hfind).2.1, hread] at hlonger
  rw [hread', ← Option.some.inj hlonger]

/-- The turns that are ready keep everything intact. -/
theorem Intact.step (h : Intact start base path s)
    (htable : ∀ prog ∈ path.map Prod.snd, ∃ record, read start.store.records prog = some record)
    (hfuel : path.length ≤ fuel) (hready : turn.Ready start (path.map Prod.snd))
    (hstep : s.step pic fuel turn = some s') : Intact start base path s' := by
  simp only [Loader.step, h.running, Bool.false_eq_true, if_false] at hstep
  cases turn with
  | stage2 tag task program memory =>
    have hcases := stage2_cases hstep
    rw [dmaWaitTag_of_no_loads h.loads] at hcases
    obtain ⟨_, rfl⟩ | ⟨_, _, rfl⟩ | ⟨_, _, prog, store, leaked, hfind, rfl⟩ := hcases
    · obtain ⟨more, hmore⟩ := h.records
      refine ⟨h.programs, h.linked, ?_, h.loads, h.image, h.trace, h.running⟩
      simp only [Store.register, alloc, hmore, List.append_assoc]
      exact ⟨_, rfl⟩
    · exact h
    · exact h.moved leaked (Store.find_moved hfind)
  | stage3 tag task ack res memory =>
    obtain ⟨⟨after, done⟩, hstage, rfl⟩ := Option.map_eq_some_iff.mp hstep
    obtain ⟨_, rfl, _⟩ | ⟨hadd, hnoop, prog, store, hfind, hcall⟩ := stage3_cases hstage
    · exact h
    · obtain ⟨hprog, hstart⟩ := h.lookup htable hfuel hfind
      have hmoved := Store.find_moved hfind
      obtain ⟨_, rfl, _⟩ | ⟨_, record, leaked, hread, _, rfl⟩ := hcall
      · exact h.moved s.leaked hmoved
      · have hread := hstart record hread
        have hholds : start.holds record = true := hready hadd hnoop record (by rw [← hprog, hread])
        obtain ⟨LS, hcode⟩ := exists_of_holds hholds
        have hkept := h.moved leaked hmoved
        refine ⟨hkept.programs, hkept.linked, hkept.records, hkept.loads, hkept.image, ?_, ?_⟩
        · intro activity hactivity
          rw [List.mem_append, List.mem_singleton] at hactivity
          obtain hearlier | rfl := hactivity
          · exact h.trace activity hearlier
          · refine ⟨prog, record, hread, hholds, ?_⟩
            simp [holds_congr h.image, hholds, hcode]
        · simp [h.running, hcode]

/-- A turn that is not ready calls a program that is not in place. -/
theorem Intact.not_loadedBeforeCall (h : Intact start base path s)
    (htable : ∀ prog ∈ path.map Prod.snd, ∃ record, read start.store.records prog = some record)
    (hfuel : path.length ≤ fuel) (hready : ¬ turn.Ready start (path.map Prod.snd))
    (hstep : s.step pic fuel turn = some s') : ¬ LoadedBeforeCall s' := by
  intro hloaded
  simp only [Loader.step, h.running, Bool.false_eq_true, if_false] at hstep
  cases turn with
  | stage2 tag task program memory => exact hready trivial
  | stage3 tag task ack res memory =>
    refine hready ?_
    intro hadd hnoop record hread
    obtain ⟨⟨after, done⟩, hstage, rfl⟩ := Option.map_eq_some_iff.mp hstep
    obtain ⟨hbuiltin | hbuiltin, _⟩ | ⟨_, _, prog, store, hfind, hcall⟩ := stage3_cases hstage
    · exact absurd hbuiltin hadd
    · exact absurd hbuiltin hnoop
    · obtain ⟨rfl, hstart⟩ := h.lookup htable hfuel hfind
      obtain ⟨hnull, _⟩ | ⟨_, record', leaked, hread', _, rfl⟩ := hcall
      · rw [hnull] at hread
        cases hread
      · obtain rfl := Option.some.inj (hread.symm.trans (hstart record' hread'))
        have hpresent := (hloaded.loaded _ _ _ _ (List.mem_append_right _ (List.mem_singleton_self _))).2
        rwa [holds_congr h.image] at hpresent

end Run

/-- What the uninitialised locals of a turn hold and what its `memalign` returns. -/
structure Chance where
  program : Ptr
  memory : Ptr
  res : BitVec 32

/-- The task bodies of the pipeline, drawing on the chances in order. They keep the number
of turns taken and the table, unless the SPU has stopped. -/
def bodies (pic : Nat → Task → ack_s → Task × ack_s) (fuel : Nat) (chance : Nat → Chance) :
    TaskBodies (Nat × Option Loader) where
  stage2 := fun w tag task =>
    (w.1 + 1, w.2.bind fun s => s.step pic fuel (.stage2 tag task (chance w.1).program (chance w.1).memory))
  stage3 := fun w tag task ack =>
    match w.2.bind fun s => if s.stopped then none else
        s.stage3 pic fuel tag task ack (chance w.1).res (chance w.1).memory with
    | none => ((w.1 + 1, none), task, ack)
    | some (s, task, ack) => ((w.1 + 1, some s), task, ack)

theorem bodies_stage3 (pic : Nat → Task → ack_s → Task × ack_s) (fuel : Nat) (chance : Nat → Chance)
    (w : Nat × Option Loader) (tag : Nat) (task : Task) (ack : ack_s) :
    ((bodies pic fuel chance).stage3 w tag task ack).1.2 =
      w.2.bind fun s => s.step pic fuel (.stage3 tag task ack (chance w.1).res (chance w.1).memory) := by
  obtain ⟨k, _ | s⟩ := w
  · rfl
  · by_cases hstopped : s.stopped = true
    · simp [bodies, step, hstopped]
    · cases hstage : s.stage3 pic fuel tag task ack (chance k).res (chance k).memory with
      | none => simp [bodies, step, hstopped, hstage]
      | some result => simp [bodies, step, hstopped, hstage]

/-- Whatever a launch does, its table is the result of a sequence of turns. -/
theorem exists_turns {pic : Nat → Task → ack_s → Task × ack_s} {fuel : Nat} {chance : Nat → Chance}
    {l : Launch (Nat × Option Loader)} (hbodies : l.bodies = bodies pic fuel chance) {start : Loader}
    (hstart : l.world₀ = (0, some start)) (n : Nat) :
    ∃ turns : List Turn, (l.run n).world.2 = turns.foldlM (step pic fuel) start := by
  induction n with
  | zero => exact ⟨[], by rw [List.foldlM_nil]; exact congrArg Prod.snd hstart⟩
  | succ n ih =>
    obtain ⟨turns, hturns⟩ := ih
    have hworld := (l.found_kept n).world
    rw [← hworld] at hturns
    have hlast : ∀ turn, (turns ++ [turn]).foldlM (step pic fuel) start =
        (l.found n).1.world.2.bind fun s => s.step pic fuel turn := by
      intro turn
      rw [List.foldlM_append, ← hturns]
      simp
    rw [l.run_succ]
    obtain hsame | ⟨tag, task, hstage⟩ | ⟨tag, task, ack, hstage⟩ := runStage_world l.bodies (l.found n)
    · exact ⟨turns, by rw [hsame, hturns]⟩
    · let given := chance (l.found n).1.world.1
      refine ⟨turns ++ [.stage2 tag task given.program given.memory], ?_⟩
      rw [hlast, hstage, hbodies]
      rfl
    · let given := chance (l.found n).1.world.1
      refine ⟨turns ++ [.stage3 tag task ack given.res given.memory], ?_⟩
      rw [hlast, hstage, hbodies]
      exact bodies_stage3 ..

/-- Programs are loaded before they are called. Neither stage ever loads one, so in a
run of the two stages, over a table that was built by adding entries and with any luck
with the allocations, this holds throughout exactly when every program task that
`stage3` gets names a program that was in place from the start. -/
theorem loadedBeforeCall_iff (pic : Nat → Task → ack_s → Task × ack_s) (fuel : Nat) (m : Lists)
    (records : Heap program_s) (table : List Ptr)
    (htable : ∀ prog ∈ table, ∃ record, read records prog = some record) (hfuel : table.length ≤ fuel)
    (image : Nat → Option (BitVec 64 × BitVec 32)) :
    ∃ built l, Reaches (linkedlist.Call.perform (listInit m).2) (listInit m).1 (table.map .listAddEntry) built ∧
      read built.lists (listInit m).2 = some l ∧
      ∀ current turns stop,
        let start := init {
          programs := (listInit m).2
          lists := Linked.cursor (listInit m).2 built l current
          records } image
        Reaches (step pic fuel) start turns stop →
          (Always (step pic fuel) start turns LoadedBeforeCall ↔ ∀ turn ∈ turns, turn.Ready start table) := by
  obtain ⟨built, l, path, hrun, hlinked, rfl⟩ := exists_linked_adds m table
  refine ⟨built, l, hrun, hlinked.header, ?_⟩
  intro current turns stop start hturns
  rw [List.length_map] at hfuel
  have hstart : Intact start m.nodes.length path start :=
    ⟨rfl, ⟨_, hlinked.cursor_linked current⟩, ⟨[], (List.append_nil _).symm⟩, rfl, rfl,
      fun _ hmem => absurd hmem (List.not_mem_nil), rfl⟩
  rw [← hturns.eachStep_iff]
  refine hturns.always_iff_eachStep hstart ?_ ?_ ?_
  · intro before turn after hbefore hready hstep
    exact hbefore.step htable hfuel hready hstep
  · intro before turn after hbefore hready hstep
    exact hbefore.not_loadedBeforeCall htable hfuel hready hstep
  · intro state hstate
    exact hstate.loadedBeforeCall

/-- A program with id 16 and local store as given. -/
def aProgram (LS : Ptr) : program_s := { LS, id := 16, EA := some 4096, size := 16 }

/-- A list that holds one program. -/
def oneEntry : Lists where
  lists := [some { first := some 0, last := some 0, current := none, entries := 1 }]
  nodes := [some { previous := none, next := none, entry := some 0 }]

/-- A task for the program goes through both stages. -/
def passage (memory : Ptr) : List Turn :=
  [.stage2 0 (fun _ => 16) none memory, .stage3 0 (fun _ => 16) ⟨0, 0, 0⟩ 0 memory]

/-- A program that is in place is called there. -/
theorem loadedBeforeCall_iff_inPlace : ∃ stop,
    Reaches (step (fun _ task ack => (task, ack)) 1)
        (init { programs := some 0, lists := oneEntry, records := [some (aProgram (some 64))] }
          fun _ => some (4096, 16)) (passage none) stop ∧
      stop.trace = [.call (some 0) (some 64) true false] ∧
      Always (step (fun _ task ack => (task, ack)) 1)
        (init { programs := some 0, lists := oneEntry, records := [some (aProgram (some 64))] }
          fun _ => some (4096, 16)) (passage none) LoadedBeforeCall := by
  have htable : ∀ prog ∈ [some 0], ∃ record, read [some (aProgram (some 64))] prog = some record := by
    intro prog hprog
    obtain rfl := List.mem_singleton.mp hprog
    exact ⟨_, rfl⟩
  obtain ⟨built, l, hrun, hheader, hall⟩ := loadedBeforeCall_iff (fun _ task ack => (task, ack)) 1 ⟨[], []⟩
    [some (aProgram (some 64))] [some 0] htable (Nat.le_refl 1) (fun _ => some (4096, 16))
  have hbuilt : Reaches (linkedlist.Call.perform (listInit ⟨[], []⟩).2) (listInit ⟨[], []⟩).1
      ([some 0].map .listAddEntry) oneEntry := by
    unfold Reaches
    decide
  obtain rfl := hrun.unique hbuilt
  obtain rfl := Option.some.inj hheader
  refine ⟨_, rfl, rfl, (hall none (passage none) _ rfl).mpr ?_⟩
  intro turn hturn
  rw [passage, List.mem_cons, List.mem_singleton] at hturn
  obtain rfl | rfl := hturn
  · trivial
  · intro _ _ record hread
    obtain rfl := Option.some.inj hread
    rfl

/-- A program that is not loaded yet. The allocation succeeds in both stages, and yet the
null pointer is called; where it fails, the same call is made. -/
theorem null_called : ∃ stop stop',
    Reaches (linkedlist.Call.perform (listInit ⟨[], []⟩).2) (listInit ⟨[], []⟩).1
        ([some 0].map .listAddEntry) oneEntry ∧
      Reaches (step (fun _ task ack => (task, ack)) 1)
        (init { programs := some 0, lists := oneEntry, records := [some (aProgram none)] } fun _ => none)
        (passage (some 64)) stop ∧
      stop.trace = [.call (some 0) none false false] ∧ ¬ LoadedBeforeCall stop ∧
      Reaches (step (fun _ task ack => (task, ack)) 1)
        (init { programs := some 0, lists := oneEntry, records := [some (aProgram none)] } fun _ => none)
        (passage none) stop' ∧
      stop'.trace = [.call (some 0) none false true] ∧ ¬ LoadedBeforeCall stop' := by
  refine ⟨_, _, ?_, rfl, rfl, ?_, rfl, rfl, ?_⟩
  · unfold Reaches
    decide
  · intro hloaded
    exact (hloaded.loaded (some 0) none false false (List.mem_singleton_self _)).1 rfl
  · intro hloaded
    exact (hloaded.loaded (some 0) none false true (List.mem_singleton_self _)).1 rfl

end Loader

end speutils.taskmanager
