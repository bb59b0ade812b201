import SpeUtils.LinkedList.Representation

open heap run

namespace speutils.linkedlist

/-- The nodes met on following `next` from `p`, with what they carry. Nothing is said
about the links back. -/
def Chain (nodes : Heap list_entry_s) : Ptr → List (Nat × Ptr) → Prop
  | p, [] => p = none
  | p, (address, entry) :: path =>
    p = some address ∧ ∃ node, read nodes (some address) = some node ∧ node.entry = entry ∧
      Chain nodes node.next path

/-- A list whose `next` links stand for a sequence, with the header that belongs to it. -/
structure Chained (nodes : Heap list_entry_s) (l : list_s) (path : List Nat) (entries : List Ptr) : Prop where
  forward : Follows nodes list_entry_s.next l.first path
  contents : path.map (entryAt nodes) = entries.map some
  final : l.last = path.getLast?
  first_null : l.first = none ↔ entries = []
  last_null : l.last = none ↔ entries = []
  length : l.entries = entries.length

namespace Chain

variable {nodes : Heap list_entry_s} {p : Ptr} {path : List (Nat × Ptr)}

theorem eq_front (h : Chain nodes p path) : p = front path := by
  cases path with
  | nil => exact h
  | cons node path => exact h.1

theorem follows (h : Chain nodes p path) : Follows nodes list_entry_s.next p (path.map Prod.fst) := by
  induction path generalizing p with
  | nil => exact h
  | cons node path ih =>
    obtain ⟨rfl, value, hread, _, hrest⟩ := h
    exact ⟨rfl, value, hread, ih hrest⟩

theorem contents (h : Chain nodes p path) :
    (path.map Prod.fst).map (entryAt nodes) = (path.map Prod.snd).map some := by
  induction path generalizing p with
  | nil => rfl
  | cons node path ih =>
    obtain ⟨rfl, value, hread, hentry, hrest⟩ := h
    rw [List.map_cons, List.map_cons, List.map_cons, List.map_cons, ih hrest, entryAt, hread, Option.map_some, hentry]

theorem chained {l : list_s} (h : Chain nodes l.first path) (hlast : l.last = rear path)
    (hlength : l.entries = path.length) : Chained nodes l (path.map Prod.fst) (path.map Prod.snd) := by
  refine ⟨h.follows, h.contents, ?_, ?_, ?_, ?_⟩
  · rw [hlast, rear, List.getLast?_map]
  · simp [h.eq_front, front]
  · simp [hlast, rear]
  · rw [hlength, List.length_map]

theorem exists_read (h : Chain nodes p path) {address : Nat} (hmem : address ∈ path.map Prod.fst) :
    ∃ value, read nodes (some address) = some value := by
  induction path generalizing p with
  | nil => simp at hmem
  | cons node path ih =>
    obtain ⟨rfl, value, hread, _, hrest⟩ := h
    rw [List.map_cons, List.mem_cons] at hmem
    obtain rfl | hmem := hmem
    · exact ⟨value, hread⟩
    · exact ih hrest hmem

/-- Another node is linked behind the last one. -/
theorem linkBehind {tail : Nat} {carried entry : Ptr} {value : list_entry_s}
    (h : Chain nodes p (path ++ [(tail, carried)])) (hvalue : read nodes (some tail) = some value)
    (hnodup : ((path ++ [(tail, carried)]).map Prod.fst).Nodup) :
    Chain (linkedlist.linkBehind nodes (some tail) value entry) p
      (path ++ [(tail, carried)] ++ [(nodes.length, entry)]) := by
  induction path generalizing p with
  | nil =>
    obtain ⟨rfl, node, hread, hentry, _⟩ := h
    obtain rfl := Option.some.inj (hvalue.symm.trans hread)
    exact ⟨rfl, _, read_linkBehind_tail hvalue entry, hentry, rfl, _, read_linkBehind_new hvalue entry, rfl, rfl⟩
  | cons first path ih =>
    obtain ⟨rfl, node, hread, hentry, hrest⟩ := h
    obtain ⟨hfirst, hnodup⟩ := List.nodup_cons.mp hnodup
    have htail : first.1 ≠ tail := by
      rintro rfl
      exact hfirst (by simp)
    have hnew : first.1 ≠ nodes.length := Nat.ne_of_lt (lt_length_of_read hread)
    exact ⟨rfl, node, (read_linkBehind_ne hnew htail entry).trans hread, hentry, ih hrest hnodup⟩

end Chain

/-- Adding an entry to a list whose `next` links are intact. -/
theorem listAddEntry_chain {list : Ptr} {m : Lists} {l : list_s} {path : List (Nat × Ptr)}
    (hheader : read m.lists list = some l) (hchain : Chain m.nodes l.first path) (hlast : l.last = rear path)
    (hlength : l.entries = path.length) (hnodup : (path.map Prod.fst).Nodup) (entry : Ptr) : ∃ m' l',
    listAddEntry entry list m = some m' ∧ read m'.lists list = some l' ∧
      Chained m'.nodes l' (path.map Prod.fst ++ [m.nodes.length]) (path.map Prod.snd ++ [entry]) := by
  have hmap : path.map Prod.fst ++ [m.nodes.length] = (path ++ [(m.nodes.length, entry)]).map Prod.fst ∧
      path.map Prod.snd ++ [entry] = (path ++ [(m.nodes.length, entry)]).map Prod.snd := by simp
  rw [hmap.1, hmap.2]
  cases path using List.reverseRecOn with
  | nil =>
    refine ⟨_, _, listAddEntry_of_first_null hheader hchain entry, read_write_self hheader, ?_⟩
    refine Chain.chained ?_ rfl (by simp [hlength])
    exact ⟨rfl, _, read_alloc_self _ _, rfl, rfl⟩
  | append_singleton path last _ =>
    obtain ⟨tail, carried⟩ := last
    rw [rear_snoc] at hlast
    have hfirst : l.first ≠ none := by
      rw [hchain.eq_front]
      cases path <;> simp
    have htail : tail ∈ (path ++ [(tail, carried)]).map Prod.fst := by simp
    obtain ⟨value, hvalue⟩ := hchain.exists_read htail
    refine ⟨_, _, listAddEntry_of_last hheader hfirst (by rw [hlast, hvalue]) entry, read_write_self hheader, ?_⟩
    rw [hlast]
    refine Chain.chained (hchain.linkBehind hvalue hnodup) (by rw [rear_snoc]) ?_
    simp only [hlength, List.length_append, List.length_singleton]
    omega

namespace Linked

variable {base : Nat} {list : Ptr} {m : Lists} {l : list_s} {path before after : List (Nat × Ptr)}
  {address : Nat} {entry : Ptr} {nodes : Heap list_entry_s}

/-- Behind a removed node the links are the old ones. -/
theorem chain_after (h : Linked base list m l path) (hpath : path = before ++ (address, entry) :: after)
    (hunlinked : Unlinked m.nodes nodes before address after) {passed rest : List (Nat × Ptr)}
    (hafter : after = passed ++ rest) : Chain nodes (front rest) rest := by
  induction rest generalizing passed with
  | nil => rfl
  | cons node rest ih =>
    have hsplit : path = (before ++ (address, entry) :: passed) ++ (node.1, node.2) :: rest := by
      simpa [hafter] using hpath
    have hmem := (h.not_mem hsplit).1
    rw [List.map_append, List.map_cons, List.mem_append, List.mem_cons, not_or, not_or] at hmem
    obtain ⟨hbefore, haddress, _⟩ := hmem
    have hkept := hunlinked.kept node.1 (ne_rear_of_not_mem hbefore) haddress
    rw [h.node _ _ _ _ hsplit] at hkept
    have hnext : after = passed ++ [node] ++ rest := by simpa using hafter
    exact ⟨rfl, _, hkept, rfl, ih hnext⟩

/-- The nodes that a removal leaves, from one before the removed node on. -/
theorem chain_before (h : Linked base list m l path) (hpath : path = before ++ (address, entry) :: after)
    (hunlinked : Unlinked m.nodes nodes before address after) {passed rest : List (Nat × Ptr)}
    (hbefore : before = passed ++ rest) : Chain nodes (front (rest ++ after)) (rest ++ after) := by
  induction rest generalizing passed with
  | nil => exact h.chain_after hpath hunlinked (List.nil_append after).symm
  | cons node rest ih =>
    have hnext : before = passed ++ [node] ++ rest := by simpa using hbefore
    have hrest := ih hnext
    by_cases hend : rest = []
    · -- The node just before the removed one has been linked past it.
      subst hend
      exact ⟨rfl, _, hunlinked.bypassed passed node.1 node.2 hbefore, rfl, hrest⟩
    · have hsplit : path = passed ++ (node.1, node.2) :: (rest ++ (address, entry) :: after) := by
        simpa [hbefore] using hpath
      have hmem := (h.not_mem hsplit).2
      rw [List.map_append, List.map_cons, List.mem_append, List.mem_cons, not_or, not_or] at hmem
      obtain ⟨hlater, haddress, _⟩ := hmem
      have hrear : some node.1 ≠ rear before := by
        rw [hbefore, rear_append passed (List.cons_ne_nil node rest), ← List.singleton_append, rear_append [node] hend]
        exact ne_rear_of_not_mem hlater
      have hkept := hunlinked.kept node.1 hrear haddress
      rw [h.node _ _ _ _ hsplit] at hkept
      have hfront : front (rest ++ (address, entry) :: after) = front (rest ++ after) := by
        obtain ⟨first, rest, rfl⟩ := List.exists_cons_of_ne_nil hend
        rfl
      exact ⟨rfl, _, hkept, rfl, hfront ▸ hrest⟩

/-- A removal frees a single node. -/
theorem Unlinked.isSome_eq (h : Linked base list m l path) (hpath : path = before ++ (address, entry) :: after)
    (hunlinked : Unlinked m.nodes nodes before address after) {other : Nat} (hother : other ≠ address) :
    (read nodes (some other)).isSome = (read m.nodes (some other)).isSome := by
  by_cases hrear : some other = rear before
  · obtain ⟨⟨neighbour, carried⟩, hlast, hneighbour⟩ := Option.map_eq_some_iff.mp hrear.symm
    obtain rfl : neighbour = other := hneighbour
    obtain ⟨earlier, hbefore⟩ := List.getLast?_eq_some_iff.mp hlast
    have hsplit : path = earlier ++ (neighbour, carried) :: (address, entry) :: after := by
      simpa [hbefore] using hpath
    rw [hunlinked.bypassed earlier neighbour carried hbefore, h.node _ _ _ _ hsplit]
    rfl
  · rw [hunlinked.kept other hrear hother]

end Linked

theorem Represents.chained {base : Nat} {nodes : Heap list_entry_s} {l : list_s} {path : List Nat}
    {entries : List Ptr} (h : Represents base nodes l path entries) : Chained nodes l path entries :=
  ⟨h.forward, h.contents, h.final, h.first_null, h.last_null, h.length⟩

/-- A single removal from a list that was built by adding entries, wherever its cursor
stands. The entry's first node is freed and the others are kept in order, or nothing
changes but the cursor. -/
theorem listRemoveEntry_first (m : Lists) (adds : List Ptr) (hadds : adds ≠ []) (current entry : Ptr) :
    ∃ built l path,
      Reaches (Call.perform (listInit m).2) (listInit m).1 (adds.map .listAddEntry) built ∧
      read built.lists (listInit m).2 = some l ∧ Chained built.nodes l path adds ∧
      (entry ∉ adds → ∃ m' cursor,
        listRemoveEntry entry (listInit m).2 (Linked.cursor (listInit m).2 built l current) = some (-1, m') ∧
        read m'.lists (listInit m).2 = some { l with current := cursor } ∧ m'.nodes = built.nodes) ∧
      (entry ∈ adds → ∃ before address after m' l',
        path = before ++ address :: after ∧ entryAt built.nodes address = some entry ∧
        (∀ earlier ∈ before, entryAt built.nodes earlier ≠ some entry) ∧
        listRemoveEntry entry (listInit m).2 (Linked.cursor (listInit m).2 built l current) = some (0, m') ∧
        read m'.nodes (some address) = none ∧
        (∀ other ≠ address, (read m'.nodes (some other)).isSome = (read built.nodes (some other)).isSome) ∧
        read m'.lists (listInit m).2 = some l' ∧ l'.current = l'.first ∧
        Chained m'.nodes l' (before ++ after) (adds.erase entry) ∧
        ∀ added, ∃ m'' l'', listAddEntry added (listInit m).2 m' = some m'' ∧
          read m''.lists (listInit m).2 = some l'' ∧
          Chained m''.nodes l'' (before ++ after ++ [m'.nodes.length]) (adds.erase entry ++ [added])) := by
  obtain ⟨built, l, path, hrun, hlinked, rfl⟩ := exists_linked_adds m adds
  have hcursor := hlinked.cursor_linked current
  refine ⟨built, l, path.map Prod.fst, hrun, hlinked.header, hlinked.represents.chained, ?_, ?_⟩
  · intro habsent
    have hremove := hcursor.listRemoveEntry_absent (by simpa using hadds) habsent
    have hheader := hcursor.read_cursor l.last
    exact ⟨_, l.last, hremove, hheader, rfl⟩
  · intro hentry
    obtain ⟨before, address, after, rfl, habsent⟩ := exists_first_node hentry
    obtain ⟨nodes, hunlinked, hremove⟩ := hcursor.listRemoveEntry_present rfl habsent
    have hsub : (before ++ after).Sublist (before ++ (address, entry) :: after) := by simp
    have hnodup : ((before ++ after).map Prod.fst).Nodup := hlinked.nodup.sublist (hsub.map Prod.fst)
    have hchain : Chain nodes (front (before ++ after)) (before ++ after) :=
      hcursor.chain_before rfl hunlinked (List.nil_append before).symm
    have hlength : l.entries - 1 = ((before ++ after).length : Int) := by
      simp only [hlinked.entries, List.length_append, List.length_cons]
      omega
    have herase : ((before ++ (address, entry) :: after).map Prod.snd).erase entry =
        (before ++ after).map Prod.snd := by
      simp [List.erase_append_right _ habsent]
    rw [herase]
    refine ⟨before.map Prod.fst, address, after.map Prod.fst, _, _, by simp, ?_, ?_, hremove, hunlinked.freed, ?_,
      read_write_self hcursor.header, rfl, ?_, ?_⟩
    · exact hlinked.entryAt_eq (List.mem_append_right before (List.mem_cons_self ..))
    · intro earlier hearlier
      obtain ⟨node, hnode, rfl⟩ := List.mem_map.mp hearlier
      rw [hlinked.entryAt_eq (List.mem_append_left _ hnode)]
      intro heq
      exact habsent (List.mem_map.mpr ⟨node, hnode, Option.some.inj heq⟩)
    · intro other hother
      exact Linked.Unlinked.isSome_eq hcursor rfl hunlinked hother
    · rw [← List.map_append]
      exact Chain.chained hchain rfl hlength
    · intro added
      rw [← List.map_append]
      exact listAddEntry_chain (read_write_self hcursor.header) hchain rfl hlength hnodup added

/-- Of two equal entries around a third the first is removed. -/
theorem listRemoveEntry_first_repeated :
    ∃ built l m' l', Reaches (Call.perform (listInit ⟨[], []⟩).2) (listInit ⟨[], []⟩).1
        ([some 1, some 2, some 1].map .listAddEntry) built ∧
      read built.lists (listInit ⟨[], []⟩).2 = some l ∧
      listRemoveEntry (some 1) (listInit ⟨[], []⟩).2 (Linked.cursor (listInit ⟨[], []⟩).2 built l none) =
        some (0, m') ∧
      read m'.lists (listInit ⟨[], []⟩).2 = some l' ∧
      ∃ path, Chained m'.nodes l' path [some 2, some 1] := by
  obtain ⟨built, l, path, hrun, hheader, _, _, hpresent⟩ :=
    listRemoveEntry_first ⟨[], []⟩ [some 1, some 2, some 1] (by decide) none (some 1)
  obtain ⟨before, address, after, m', l', _, _, _, hremove, _, _, hheader', _, hchained, _⟩ :=
    hpresent (by decide)
  exact ⟨built, l, m', l', hrun, hheader, hremove, hheader', _, hchained⟩

end speutils.linkedlist
