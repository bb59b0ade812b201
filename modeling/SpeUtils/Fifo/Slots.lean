import SpeUtils.Fifo.Basic

open speutils.ring speutils.messages

namespace speutils.fifo.HostSpe

/-- The slot that the next `fifoBegin` opens. -/
def beginSlot (host : HostSpe) : Nat :=
  ringGetFront (if !host.isKicked then ringIncFront host.ringCTX else host.ringCTX)

/-- The open slot holds some words from its start on, and the next word goes behind
them. -/
structure Written (host : HostSpe) (slot : Nat) (words : List (BitVec 32)) : Prop where
  entry_p : host.entry_p = slot * (TASK_SIZE / 4)
  entry_count : host.entry_count = words.length
  words : ∀ i (hi : i < words.length),
    host.fifos.task_fifo (slot * (TASK_SIZE / 4) + i) = words.get ⟨i, hi⟩

variable {host : HostSpe} {slot : Nat} {words : List (BitVec 32)}

/-- The words are those of the task, for as many as the slot can hold. -/
theorem Written.task_eq (h : Written host slot words) (i : Fin 32) (hi : i < words.length) :
    host.fifos.task slot i = words.get ⟨i, hi⟩ :=
  h.words i hi

theorem Written.put (h : Written host slot words) (value : BitVec 32) :
    Written (host.put words.length value) slot (words ++ [value]) := by
  refine ⟨h.entry_p, ?_, ?_⟩
  · simp [HostSpe.put, HostSpe.write, h.entry_count]
  · intro i hi
    simp only [HostSpe.put, HostSpe.write, h.entry_p, List.get_eq_getElem]
    rw [List.length_append, List.length_singleton] at hi
    by_cases hlast : i = words.length
    · subst hlast
      simp
    · have hne : slot * (TASK_SIZE / 4) + i ≠ slot * (TASK_SIZE / 4) + words.length := by omega
      rw [Function.update_of_ne hne, List.getElem_append_left (by omega)]
      exact h.words i (by omega)

theorem Written.openFront (host : HostSpe) :
    Written host.openFront (ringGetFront host.ringCTX) [] :=
  ⟨rfl, rfl, fun i hi => absurd hi (Nat.not_lt_zero i)⟩

theorem Written.fifoBegin (host : HostSpe) (command handle : BitVec 32) :
    Written (host.fifoBegin command handle) host.beginSlot [command, handle] := by
  unfold HostSpe.fifoBegin beginSlot
  split
  · exact ((Written.openFront _).put command).put handle
  · exact ((Written.openFront _).put command).put handle

/-- `fifoAdd` appends its argument while the slot has more than one word left. -/
theorem Written.fifoAdd (h : Written host slot words) (hroom : words.length + 1 ≠ TASK_SIZE / 4)
    (arg : BitVec 32) : Written (host.fifoAdd arg) slot (words ++ [arg]) := by
  have hput := h.put arg
  rw [← h.entry_count] at hroom hput
  unfold HostSpe.fifoAdd
  rw [if_pos hroom]
  exact hput

/-- The task that `fifoNoop` kicks. -/
theorem fifoNoop_task (host : HostSpe) : host.fifoNoop.fifos.task host.beginSlot 0 = NOOP := by
  have hwritten := Written.fifoBegin host NOOP 0x1ee7C0DE#32
  exact hwritten.task_eq 0 (by decide)

/-- The task that `fifo_addition` kicks: its argument and the constants 1 and 2
follow the command and the handle. -/
theorem fifo_addition_task (host : HostSpe) (adds : BitVec 32) :
    let task := (host.fifo_addition adds).fifos.task host.beginSlot
    task 0 = ADD ∧ task 1 = 0x1ee7C0DE#32 ∧ task 2 = adds ∧ task 3 = 1 ∧ task 4 = 2 := by
  have hbegin := Written.fifoBegin host ADD 0x1ee7C0DE#32
  have hwritten := ((hbegin.fifoAdd (by decide) adds).fifoAdd (by simp [TASK_SIZE]) 0x01#32).fifoAdd
    (by simp [TASK_SIZE]) 0x02#32
  have hword : ∀ i : Fin 32, ∀ hi : i.val < 5, (host.fifo_addition adds).fifos.task host.beginSlot i =
      [ADD, 0x1ee7C0DE#32, adds, 0x01#32, 0x02#32].get ⟨i, hi⟩ := hwritten.task_eq
  exact ⟨hword 0 (by decide), hword 1 (by decide), hword 2 (by decide), hword 3 (by decide),
    hword 4 (by decide)⟩

/-- One `fifoAdd` for each argument. -/
def addAll (host : HostSpe) (args : List (BitVec 32)) : HostSpe := args.foldl fifoAdd host

/-- The last word of a slot is out of reach for `fifoAdd`. -/
def reach : Nat := TASK_SIZE / 4 - 1

theorem fifoAdd_of_full (hfull : host.entry_count = reach) (arg : BitVec 32) : host.fifoAdd arg = host := by
  have hlast : ¬ host.entry_count + 1 ≠ TASK_SIZE / 4 := by simp [hfull, reach, TASK_SIZE]
  rw [HostSpe.fifoAdd, if_neg hlast]

/-- The slot holds what it was given, up to its last word but one. -/
theorem Written.fifoAdd_take (h : Written host slot (words.take reach)) (arg : BitVec 32) :
    Written (host.fifoAdd arg) slot ((words ++ [arg]).take reach) := by
  obtain hlt | hge := Nat.lt_or_ge words.length reach
  · have hlater : (words ++ [arg]).length ≤ reach := by
      rw [List.length_append, List.length_singleton]
      exact hlt
    rw [List.take_of_length_le (Nat.le_of_lt hlt)] at h
    rw [List.take_of_length_le hlater]
    refine h.fifoAdd ?_ arg
    simp only [reach, TASK_SIZE] at hlt ⊢
    omega
  · have hfull : host.entry_count = reach := by rw [h.entry_count, List.length_take, Nat.min_eq_left hge]
    rwa [fifoAdd_of_full hfull, List.take_append_of_le_length hge]

theorem Written.addAll (h : Written host slot (words.take reach)) (args : List (BitVec 32)) :
    Written (host.addAll args) slot ((words ++ args).take reach) := by
  induction args generalizing host words with
  | nil => rwa [List.append_nil]
  | cons arg args ih =>
    have hrest := ih (h.fifoAdd_take arg)
    rwa [List.append_assoc, List.singleton_append] at hrest

theorem Written.task (host : HostSpe) (command handle : BitVec 32) (args : List (BitVec 32)) :
    Written ((host.fifoBegin command handle).addAll args) host.beginSlot
      ((command :: handle :: args).take reach) := by
  have hbegin : Written (host.fifoBegin command handle) host.beginSlot ([command, handle].take reach) :=
    Written.fifoBegin host command handle
  exact hbegin.addAll args

/-- A task keeps its arguments. The slot holds as many words of the task as it has room
for, an argument is left uncounted only from the thirty-first on, and then no word of the
slot changes. -/
structure KeepsArguments (host : HostSpe) (command handle : BitVec 32) (args : List (BitVec 32)) : Prop where
  words : ∀ (i : Fin 32) (hi : i < (command :: handle :: args).length),
    ((host.fifoBegin command handle).addAll args).fifos.task host.beginSlot i =
      (command :: handle :: args).get ⟨i, hi⟩
  kept : ∀ done arg, done ++ [arg] <+: args →
    (((host.fifoBegin command handle).addAll done).fifoAdd arg).entry_count =
      ((host.fifoBegin command handle).addAll done).entry_count → 30 ≤ done.length
  dropped : ∀ done arg, done ++ [arg] <+: args →
    (((host.fifoBegin command handle).addAll done).fifoAdd arg).entry_count =
      ((host.fifoBegin command handle).addAll done).entry_count →
    (((host.fifoBegin command handle).addAll done).fifoAdd arg).fifos.task host.beginSlot =
      ((host.fifoBegin command handle).addAll done).fifos.task host.beginSlot

/-- An argument goes uncounted exactly when the slot is full up to its last word. -/
theorem uncounted_iff (command handle : BitVec 32) (done : List (BitVec 32)) (arg : BitVec 32) :
    (((host.fifoBegin command handle).addAll done).fifoAdd arg).entry_count =
      ((host.fifoBegin command handle).addAll done).entry_count ↔ 29 ≤ done.length := by
  have hcount : ((host.fifoBegin command handle).addAll done).entry_count = min 31 (done.length + 2) := by
    rw [(Written.task host command handle done).entry_count, List.length_take]
    rfl
  constructor
  · intro hsame
    by_contra hroom
    have hne : ((host.fifoBegin command handle).addAll done).entry_count + 1 ≠ TASK_SIZE / 4 := by
      simp only [hcount, TASK_SIZE]
      omega
    simp only [HostSpe.fifoAdd, if_pos hne] at hsame
    omega
  · intro hlong
    have hfull : ((host.fifoBegin command handle).addAll done).entry_count = reach := by
      simp only [hcount, reach, TASK_SIZE]
      omega
    rw [fifoAdd_of_full hfull]

/-- The bound of `fifoAdd` is off by one: the arguments are kept exactly when there are at
most twenty-nine of them. -/
theorem keepsArguments_iff (host : HostSpe) (command handle : BitVec 32) (args : List (BitVec 32)) :
    KeepsArguments host command handle args ↔ args.length ≤ 29 := by
  constructor
  · intro hkeeps
    by_contra hlong
    obtain ⟨arg, rest, hrest⟩ : ∃ arg rest, args.drop 29 = arg :: rest := by
      refine List.exists_cons_of_length_pos ?_
      rw [List.length_drop]
      omega
    have hprefix : args.take 29 ++ [arg] <+: args := by
      refine ⟨rest, ?_⟩
      rw [List.append_assoc, List.singleton_append, ← hrest, List.take_append_drop]
    have hlength : (args.take 29).length = 29 := by
      rw [List.length_take]
      omega
    have hdropped := hkeeps.kept (args.take 29) arg hprefix ((uncounted_iff ..).mpr (Nat.le_of_eq hlength.symm))
    omega
  · intro hshort
    have hcounted : ∀ done arg, done ++ [arg] <+: args →
        ¬ (((host.fifoBegin command handle).addAll done).fifoAdd arg).entry_count =
          ((host.fifoBegin command handle).addAll done).entry_count := by
      intro done arg hprefix hsame
      have hlong := (uncounted_iff ..).mp hsame
      have hle := hprefix.length_le
      rw [List.length_append, List.length_singleton] at hle
      omega
    refine ⟨?_, ?_, ?_⟩
    · intro i hi
      have hfits : (command :: handle :: args).length ≤ reach := by
        simp only [List.length_cons, reach, TASK_SIZE]
        omega
      have hwritten := Written.task host command handle args
      rw [List.take_of_length_le hfits] at hwritten
      exact hwritten.task_eq i hi
    · intro done arg hprefix hsame
      exact absurd hsame (hcounted done arg hprefix)
    · intro done arg hprefix hsame
      exact absurd hsame (hcounted done arg hprefix)

/-- Of thirty arguments the last is dropped, though the last word of the slot is free for
it. -/
theorem not_keepsArguments_thirty :
    ¬ KeepsArguments (.init (fun _ => 0) (fun _ => ⟨0, 0, 0⟩) 2) ADD 0 (List.replicate 30 1) := by
  intro hkeeps
  have hlast := hkeeps.words 31 (by decide)
  revert hlast
  decide +kernel

end speutils.fifo.HostSpe
