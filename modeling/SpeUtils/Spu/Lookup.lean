import SpeUtils.Spu.Execute
import SpeUtils.LinkedList.Representation

open heap run speutils.linkedlist speutils.ring speutils.fifo speutils.messages

namespace speutils.taskmanager

namespace Store

/-- What a lookup is for: the first program of the table with the command word for its
id, or the null pointer. -/
def lookup (records : Heap program_s) (command : BitVec 32) (table : List Ptr) : Ptr :=
  (table.find? fun prog => (read records prog).any fun program => program.id = command).join

/-- A loop ends, within a number of turns and without following an invalid pointer, with
a certain program. -/
def EndsWith (loop : Nat → Option (Ptr × Store)) (turns : Nat) (prog : Ptr) : Prop :=
  ∀ fuel ≥ turns, ∃ s, loop fuel = some (prog, s)

/-- Both stages look up the same program, and it is the right one. -/
structure LookupsAgree (s : Store) (table : List Ptr) (program : Ptr) (task : Task) : Prop where
  stage2 : EndsWith (fun fuel => s.find2 program fuel (task 0)) table.length (lookup s.records (task 0) table)
  stage3 : EndsWith (fun fuel => s.find3 fuel (task 0)) table.length (lookup s.records (task 0) table)

/-- The id of the first program in a table. -/
def firstId (records : Heap program_s) (table : List Ptr) : Option (BitVec 32) :=
  (read records table.head?.join).map program_s.id

section Lookup

variable {records : Heap program_s} {command : BitVec 32} {prog : Ptr} {program : program_s} {table : List Ptr}

theorem lookup_cons_of_eq (hread : read records prog = some program) (hid : program.id = command) :
    lookup records command (prog :: table) = prog := by
  rw [lookup, List.find?_cons_of_pos (by simp [hread, hid]), Option.join_some]

theorem lookup_cons_of_ne (hread : read records prog = some program) (hid : program.id ≠ command) :
    lookup records command (prog :: table) = lookup records command table := by
  rw [lookup, List.find?_cons_of_neg (by simp [hread, hid]), lookup]

/-- A program that was found is one of the table. -/
theorem mem_of_lookup (hne : lookup records command table ≠ none) : lookup records command table ∈ table := by
  unfold lookup at hne ⊢
  cases hfind : table.find? fun prog => (read records prog).any fun program => program.id = command with
  | none =>
    rw [hfind] at hne
    exact absurd rfl hne
  | some prog =>
    rw [Option.join_some]
    exact List.mem_of_find?_eq_some hfind

/-- Records that the table does not name have no part in a lookup. -/
theorem lookup_append (hrecords : ∀ prog ∈ table, ∃ program, read records prog = some program)
    (more : Heap program_s) : lookup (records ++ more) command table = lookup records command table := by
  induction table with
  | nil => rfl
  | cons prog table ih =>
    obtain ⟨program, hread⟩ := hrecords prog (List.mem_cons_self ..)
    have hlonger := read_append hread more
    by_cases hid : program.id = command
    · rw [lookup_cons_of_eq hread hid, lookup_cons_of_eq hlonger hid]
    · rw [lookup_cons_of_ne hread hid, lookup_cons_of_ne hlonger hid]
      exact ih fun prog hprog => hrecords prog (List.mem_cons_of_mem _ hprog)

end Lookup

section Search

variable {base fuel : Nat} {command : BitVec 32} {s : Store} {m : Lists} {l : list_s}
  {path before after : List (Nat × Ptr)} {address : Nat} {entry : Ptr} {program : program_s}

/-- A matching program ends the loop, whatever list it would have gone on with. -/
theorem search_here {list prog : Ptr} (hread : read s.records prog = some program)
    (hid : program.id = command) : search list command (fuel + 1) prog s = some (prog, s) := by
  simp only [search, Option.bind_eq_bind, hread, Option.bind_some, if_pos hid]
  rfl

/-- One turn of a lookup whose program does not match, at a node of the table. -/
theorem search_next (h : Linked base s.programs m l path) (hpath : path = before ++ (address, entry) :: after)
    (hread : read s.records entry = some program) (hid : program.id ≠ command) :
    search s.programs command (fuel + 1) entry { s with lists := Linked.cursor s.programs m l (some address) } =
      if (after.head?.map Prod.snd).join = none then
        some (none, { s with lists := Linked.cursor s.programs m l (front after) })
      else search s.programs command fuel (after.head?.map Prod.snd).join
        { s with lists := Linked.cursor s.programs m l (front after) } := by
  simp only [search, Option.bind_eq_bind, hread, Option.bind_some, if_neg hid, h.listNextEntry_node hpath]
  rfl

/-- Along the table itself a lookup finds what it is for. -/
theorem search_eq (h : Linked base s.programs m l path) (hpath : path = before ++ (address, entry) :: after)
    (hrecords : ∀ prog ∈ entry :: after.map Prod.snd, ∃ program, read s.records prog = some program)
    (hfuel : after.length < fuel) : ∃ s',
    search s.programs command fuel entry { s with lists := Linked.cursor s.programs m l (some address) } =
      some (lookup s.records command (entry :: after.map Prod.snd), s') := by
  induction after generalizing before address entry fuel with
  | nil =>
    obtain ⟨fuel, rfl⟩ := Nat.exists_eq_succ_of_ne_zero (Nat.ne_of_gt hfuel)
    obtain ⟨program, hread⟩ := hrecords entry (List.mem_cons_self ..)
    by_cases hid : program.id = command
    · rw [lookup_cons_of_eq hread hid]
      exact ⟨_, search_here hread hid⟩
    · rw [search_next h hpath hread hid, lookup_cons_of_ne hread hid]
      exact ⟨_, rfl⟩
  | cons node after ih =>
    obtain ⟨fuel, rfl⟩ := Nat.exists_eq_succ_of_ne_zero (Nat.ne_of_gt (Nat.zero_lt_of_lt hfuel))
    obtain ⟨program, hread⟩ := hrecords entry (List.mem_cons_self ..)
    by_cases hid : program.id = command
    · rw [lookup_cons_of_eq hread hid]
      exact ⟨_, search_here hread hid⟩
    · have hlater : ∀ prog ∈ node.2 :: after.map Prod.snd, ∃ program, read s.records prog = some program :=
        fun prog hprog => hrecords prog (List.mem_cons_of_mem _ hprog)
      obtain ⟨following, hfollowing⟩ := hlater node.2 (List.mem_cons_self ..)
      have hnull : node.2 ≠ none := by
        intro hnull
        rw [hnull] at hfollowing
        cases hfollowing
      have hsplit : path = before ++ [(address, entry)] ++ (node.1, node.2) :: after := by simpa using hpath
      rw [search_next h hpath hread hid, lookup_cons_of_ne hread hid, List.head?_cons, Option.map_some,
        Option.join_some, if_neg hnull]
      exact ih hsplit hlater (Nat.lt_of_succ_lt_succ hfuel)

/-- Both lookups begin at the first program of the table. -/
theorem find_cons {list current : Ptr} (h : Linked base s.programs m l ((address, entry) :: after)) :
    find list fuel command { s with lists := Linked.cursor s.programs m l current } =
      search list command fuel entry { s with lists := Linked.cursor s.programs m l (some address) } := by
  simp only [find, h.listFirstEntry_cons, Option.bind_eq_bind, Option.bind_some]

/-- The lookup of `stage3` is right from any position of the cursor. -/
theorem find3_eq (h : Linked base s.programs m l path) (hne : path ≠ [])
    (hrecords : ∀ prog ∈ path.map Prod.snd, ∃ program, read s.records prog = some program)
    (hfuel : path.length ≤ fuel) (current : Ptr) : ∃ s',
    find3 fuel command { s with lists := Linked.cursor s.programs m l current } =
      some (lookup s.records command (path.map Prod.snd), s') := by
  obtain ⟨⟨address, entry⟩, after, rfl⟩ := List.exists_cons_of_ne_nil hne
  rw [find3, find_cons h]
  exact search_eq h (List.nil_append _).symm hrecords hfuel

/-- A lookup moves cursors and nothing else. -/
theorem search_moved {list prog prog' : Ptr} {s' : Store}
    (hsearch : search list command fuel prog s = some (prog', s')) :
    Moved s.lists s'.lists ∧ s'.records = s.records ∧ s'.programs = s.programs := by
  induction fuel generalizing prog s with
  | zero => cases hsearch
  | succ fuel ih =>
    simp only [search, Option.bind_eq_bind, Option.bind_eq_some_iff] at hsearch
    obtain ⟨program, _, hsearch⟩ := hsearch
    split at hsearch
    · cases hsearch
      exact ⟨.refl _, rfl, rfl⟩
    · obtain ⟨⟨following, lists⟩, hnext, hsearch⟩ := Option.bind_eq_some_iff.mp hsearch
      have hmoved := Moved.listNextEntry hnext
      split at hsearch
      · cases hsearch
        exact ⟨hmoved, rfl, rfl⟩
      · obtain ⟨hrest, hrecords, hprograms⟩ := ih hsearch
        exact ⟨hmoved.trans hrest, hrecords, hprograms⟩

theorem find_moved {list prog : Ptr} {s' : Store} (hfind : find list fuel command s = some (prog, s')) :
    Moved s.lists s'.lists ∧ s'.records = s.records ∧ s'.programs = s.programs := by
  simp only [find, Option.bind_eq_bind, Option.bind_eq_some_iff] at hfind
  obtain ⟨⟨first, lists⟩, hfirst, hsearch⟩ := hfind
  obtain ⟨hmoved, hrecords, hprograms⟩ := search_moved hsearch
  exact ⟨(Moved.listFirstEntry hfirst).trans hmoved, hrecords, hprograms⟩

/-- What the lookup of `stage3` returns, if it does. -/
theorem find3_lookup {prog : Ptr} {s' : Store} (h : Linked base s.programs s.lists l path)
    (hrecords : ∀ prog ∈ path.map Prod.snd, ∃ program, read s.records prog = some program)
    (hfuel : path.length ≤ fuel) (hfind : find3 fuel command s = some (prog, s')) :
    prog = lookup s.records command (path.map Prod.snd) := by
  have hcursor : Linked.cursor s.programs s.lists l l.current = s.lists := by
    have hwrite := write_self h.header
    simp only [Linked.cursor]
    rw [hwrite]
  by_cases hne : path = []
  · subst hne
    have hfirst : l.first = none := h.first
    simp [find3, find, listFirstEntry, h.header, hfirst] at hfind
  · obtain ⟨s'', hfound⟩ := find3_eq h hne hrecords hfuel l.current
    rw [hcursor, hfind] at hfound
    exact congrArg Prod.fst (Option.some.inj hfound)

/-- Where `program` is no list, the lookup of `stage2` cannot get past a first program
that does not match. -/
theorem find2_stuck {list : Ptr} (h : Linked base s.programs m l ((address, entry) :: after))
    (hread : read s.records entry = some program) (hid : program.id ≠ command) (current : Ptr)
    (hlist : read (Linked.cursor s.programs m l (some address)).lists list = none) (fuel : Nat) :
    find2 list fuel command { s with lists := Linked.cursor s.programs m l current } = none := by
  rw [find2, find_cons h]
  cases fuel with
  | zero => rfl
  | succ fuel =>
    simp [search, hread, hid, listNextEntry, hlist]

end Search

/-- A command that neither stage has a case for reaches the lookup of both. -/
theorem lookup_of_no_case {task : Task} (htask : task 0 ∉ [REGISTER_PROGRAM, ADD, NOOP]) :
    (∀ (s : Store) program fuel, s.stage2 program fuel task = (s.find2 program fuel (task 0)).map Prod.snd) ∧
      ∀ res ack, executeBuiltin res task ack = none := by
  simp only [List.mem_cons, List.not_mem_nil, or_false, not_or] at htask
  obtain ⟨hregister, hadd, hnoop⟩ := htask
  constructor
  · intro s program fuel
    rw [stage2, if_neg hregister, if_neg hadd]
  · intro res ack
    rw [executeBuiltin, if_neg hadd, if_neg hnoop]

section Agreement

variable {base : Nat} {s : Store} {m : Lists} {l : list_s} {path : List (Nat × Ptr)} {task : Task}

theorem lookupsAgree_of_first (h : Linked base s.programs m l path) (hne : path ≠ [])
    (hrecords : ∀ prog ∈ path.map Prod.snd, ∃ program, read s.records prog = some program)
    (hfirst : firstId s.records (path.map Prod.snd) = some (task 0)) (current program : Ptr) :
    LookupsAgree { s with lists := Linked.cursor s.programs m l current } (path.map Prod.snd) program task := by
  refine ⟨?_, ?_⟩
  · intro fuel hfuel
    obtain ⟨⟨address, entry⟩, after, rfl⟩ := List.exists_cons_of_ne_nil hne
    obtain ⟨record, hread, hid⟩ := Option.map_eq_some_iff.mp hfirst
    obtain ⟨fuel, rfl⟩ := Nat.exists_eq_succ_of_ne_zero (Nat.ne_of_gt (Nat.lt_of_lt_of_le (Nat.zero_lt_succ _) hfuel))
    have hread : read s.records entry = some record := hread
    have hlookup : lookup s.records (task 0) (entry :: after.map Prod.snd) = entry := lookup_cons_of_eq hread hid
    refine ⟨{ s with lists := Linked.cursor s.programs m l (some address) }, ?_⟩
    simp only [List.map_cons, hlookup, find2, find_cons h]
    exact search_here hread hid
  · intro fuel hfuel
    rw [List.length_map] at hfuel
    exact find3_eq h hne hrecords hfuel current

theorem not_lookupsAgree (h : Linked base s.programs m l path) (hne : path ≠ [])
    (hrecords : ∀ prog ∈ path.map Prod.snd, ∃ program, read s.records prog = some program)
    (hfirst : firstId s.records (path.map Prod.snd) ≠ some (task 0)) (current : Ptr) {program : Ptr}
    (hprogram : read m.lists program = none) :
    ¬ LookupsAgree { s with lists := Linked.cursor s.programs m l current } (path.map Prod.snd) program task := by
  intro hagree
  obtain ⟨⟨address, entry⟩, after, rfl⟩ := List.exists_cons_of_ne_nil hne
  obtain ⟨record, hread⟩ := hrecords entry (List.mem_cons_self ..)
  have hid : record.id ≠ task 0 := by
    intro hid
    exact hfirst (Option.map_eq_some_iff.mpr ⟨record, hread, hid⟩)
  have hother : program ≠ s.programs := by
    rintro rfl
    rw [h.header] at hprogram
    cases hprogram
  have hlist : read (Linked.cursor s.programs m l (some address)).lists program = none :=
    (read_write_ne hother).trans hprogram
  obtain ⟨s', hfound⟩ := hagree.stage2 _ (Nat.le_refl _)
  cases (find2_stuck h hread hid current hlist _).symm.trans hfound

end Agreement

/-- Over a program table that was built by adding entries, the lookup of `stage3` is
always right. The lookup of `stage2` is right whatever its uninitialised local holds
exactly when it need not advance, that is when the first program matches; otherwise
only a local that happens to be the table itself can help. -/
theorem lookupsAgree_iff (m : Lists) (records : Heap program_s) (table : List Ptr) (htable : table ≠ [])
    (hrecords : ∀ prog ∈ table, ∃ program, read records prog = some program) (task : Task)
    (htask : task 0 ∉ [REGISTER_PROGRAM, ADD, NOOP]) :
    ∃ built l, Reaches (Call.perform (listInit m).2) (listInit m).1 (table.map .listAddEntry) built ∧
      read built.lists (listInit m).2 = some l ∧
      ∀ current,
        let s : Store := {
          programs := (listInit m).2
          lists := Linked.cursor (listInit m).2 built l current
          records }
        (∀ program fuel, s.stage2 program fuel task = (s.find2 program fuel (task 0)).map Prod.snd) ∧
        (∀ res ack, executeBuiltin res task ack = none) ∧
        EndsWith (fun fuel => s.find3 fuel (task 0)) table.length (lookup records (task 0) table) ∧
        ((∀ program, LookupsAgree s table program task) ↔ firstId records table = some (task 0)) ∧
        ∀ program, read s.lists.lists program = none ∨ program = s.programs →
          (LookupsAgree s table program task ↔
            firstId records table = some (task 0) ∨ program = s.programs) := by
  obtain ⟨built, l, path, hrun, hlinked, rfl⟩ := exists_linked_adds m table
  refine ⟨built, l, hrun, hlinked.header, ?_⟩
  intro current s
  have hne : path ≠ [] := by simpa using htable
  have hlinked : Linked m.nodes.length s.programs built l path := hlinked
  obtain ⟨hstage2, hbuiltin⟩ := lookup_of_no_case htask
  have hstage3 : EndsWith (fun fuel => s.find3 fuel (task 0)) (path.map Prod.snd).length
      (lookup records (task 0) (path.map Prod.snd)) := by
    intro fuel hfuel
    rw [List.length_map] at hfuel
    exact find3_eq (s := s) hlinked hne hrecords hfuel current
  have hsound : firstId records (path.map Prod.snd) = some (task 0) →
      ∀ program, LookupsAgree s (path.map Prod.snd) program task :=
    fun hfirst program => lookupsAgree_of_first (s := s) hlinked hne hrecords hfirst current program
  have hcomplete : ∀ program, read built.lists program = none → LookupsAgree s (path.map Prod.snd) program task →
      firstId records (path.map Prod.snd) = some (task 0) := by
    intro program hprogram hagree
    by_contra hfirst
    exact not_lookupsAgree (s := s) hlinked hne hrecords hfirst current hprogram hagree
  refine ⟨hstage2 s, hbuiltin, hstage3, ⟨fun hall => hcomplete none rfl (hall none), hsound⟩, ?_⟩
  rintro program (hprogram | rfl)
  · have hother : program ≠ s.programs := by
      rintro rfl
      rw [hlinked.read_cursor] at hprogram
      cases hprogram
    have hnone : read built.lists program = none := (read_write_ne hother).symm.trans hprogram
    constructor
    · exact fun hagree => .inl (hcomplete program hnone hagree)
    · rintro (hfirst | heq)
      · exact hsound hfirst program
      · exact absurd heq hother
  · exact ⟨fun _ => .inr rfl, fun _ => ⟨hstage3, hstage3⟩⟩

/-- Two programs with ids 16 and 32. -/
def twoPrograms : Heap program_s :=
  [some { LS := none, id := 16, EA := none, size := 16 }, some { LS := none, id := 32, EA := none, size := 16 }]

theorem lookupsAgree_iff_first : ∃ built l,
    Reaches (Call.perform (listInit ⟨[], []⟩).2) (listInit ⟨[], []⟩).1 ([some 0, some 1].map .listAddEntry) built ∧
      read built.lists (listInit ⟨[], []⟩).2 = some l ∧
      ∀ current program, LookupsAgree {
        programs := (listInit ⟨[], []⟩).2
        lists := Linked.cursor (listInit ⟨[], []⟩).2 built l current
        records := twoPrograms } [some 0, some 1] program (fun _ => 16) := by
  have hrecords : ∀ prog ∈ [some 0, some 1], ∃ program, read twoPrograms prog = some program := by
    intro prog hprog
    rw [List.mem_cons, List.mem_singleton] at hprog
    obtain rfl | rfl := hprog
    · exact ⟨_, rfl⟩
    · exact ⟨_, rfl⟩
  obtain ⟨built, l, hrun, hheader, hall⟩ :=
    lookupsAgree_iff ⟨[], []⟩ twoPrograms [some 0, some 1] (by decide) hrecords (fun _ => 16) (by decide)
  exact ⟨built, l, hrun, hheader, fun current => (hall current).2.2.2.1.mpr (by decide)⟩

/-- A task for the second program is looked up by `stage3`, while `stage2` follows an
uninitialised null pointer. -/
theorem second_program_not_found : ∃ s : Store, ∃ fetched,
    Reaches (Call.perform (listInit ⟨[], []⟩).2) (listInit ⟨[], []⟩).1 ([some 0, some 1].map .listAddEntry) s.lists ∧
      s.programs = (listInit ⟨[], []⟩).2 ∧ s.records = twoPrograms ∧
      s.find3 2 32 = some (some 1, fetched) ∧ (∀ fuel, s.find2 none fuel 32 = none) ∧
      ¬ LookupsAgree s [some 0, some 1] none (fun _ => 32) := by
  let lists (current : Ptr) : Lists := {
    lists := [some { first := some 0, last := some 1, current, entries := 2 }]
    nodes := [some { previous := none, next := some 1, entry := some 0 },
      some { previous := some 0, next := none, entry := some 1 }] }
  let s : Store := { programs := some 0, lists := lists none, records := twoPrograms }
  have hstuck : ∀ fuel, s.find2 none fuel 32 = none := by
    intro fuel
    cases fuel with
    | zero => rfl
    | succ fuel => rfl
  refine ⟨s, { s with lists := lists (some 1) }, ?_, rfl, rfl, rfl, hstuck, ?_⟩
  · unfold Reaches
    decide
  · intro hagree
    obtain ⟨s', hfound⟩ := hagree.stage2 2 (Nat.le_refl 2)
    cases (hstuck 2).symm.trans hfound

end Store

end speutils.taskmanager
