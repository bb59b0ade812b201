import SpeUtils.LinkedList
import Mathlib.Data.List.Induction
import Mathlib.Data.List.Nodup
import Mathlib.Data.List.Perm.Subperm

open heap

namespace speutils.linkedlist

/-- The address of the first of some nodes. -/
def front (path : List (Nat × Ptr)) : Ptr := path.head?.map Prod.fst

/-- The address of the last of some nodes. -/
def rear (path : List (Nat × Ptr)) : Ptr := path.getLast?.map Prod.fst

@[simp] theorem front_nil : front [] = none := rfl

@[simp] theorem rear_nil : rear [] = none := rfl

@[simp] theorem front_cons (node : Nat × Ptr) (path : List (Nat × Ptr)) :
    front (node :: path) = some node.1 := rfl

@[simp] theorem rear_snoc (path : List (Nat × Ptr)) (node : Nat × Ptr) :
    rear (path ++ [node]) = some node.1 := by
  simp [rear]

theorem rear_append (before : List (Nat × Ptr)) {after : List (Nat × Ptr)} (hne : after ≠ []) :
    rear (before ++ after) = rear after := by
  rw [rear, List.getLast?_append_of_ne_nil _ hne]
  rfl

theorem ne_rear_of_not_mem {address : Nat} {path : List (Nat × Ptr)} (hmem : address ∉ path.map Prod.fst) :
    some address ≠ rear path := by
  intro heq
  obtain ⟨last, hlast, rfl⟩ := Option.map_eq_some_iff.mp heq.symm
  exact hmem (List.mem_map_of_mem (List.mem_of_getLast? hlast))

/-- A node of an extended path is the new one or one of the old ones. -/
theorem snoc_eq_append_cons {path before after : List (Nat × Ptr)} {new node : Nat × Ptr}
    (hpath : path ++ [new] = before ++ node :: after) :
    (before = path ∧ node = new ∧ after = []) ∨
      ∃ after', path = before ++ node :: after' ∧ after = after' ++ [new] := by
  cases after using List.reverseRecOn with
  | nil =>
    obtain ⟨hbefore, hnode⟩ := List.append_inj' hpath rfl
    exact .inl ⟨hbefore.symm, (List.cons.inj hnode).1.symm, rfl⟩
  | append_singleton after' last _ =>
    have hsplit : path ++ [new] = (before ++ node :: after') ++ [last] := by simpa using hpath
    obtain ⟨hrest, hlast⟩ := List.append_inj' hsplit rfl
    exact .inr ⟨after', hrest, by rw [(List.cons.inj hlast).1]⟩

/-- A list with intact links: its nodes, each an address with what it carries, link to
their neighbours in both directions. `base` tells its nodes from those that were in
memory before it. -/
structure Linked (base : Nat) (list : Ptr) (m : Lists) (l : list_s) (path : List (Nat × Ptr)) : Prop where
  header : read m.lists list = some l
  first : l.first = front path
  last : l.last = rear path
  entries : l.entries = path.length
  node : ∀ before address entry after, path = before ++ (address, entry) :: after →
    read m.nodes (some address) = some { previous := rear before, next := front after, entry }
  nodup : (path.map Prod.fst).Nodup
  own : ∀ address ∈ path.map Prod.fst, base ≤ address
  live : ∀ address value, base ≤ address → read m.nodes (some address) = some value →
    address ∈ path.map Prod.fst
  base_le : base ≤ m.nodes.length

section Add

variable {m : Lists} {list : Ptr} {l : list_s}

theorem listAddEntry_of_first_null (hheader : read m.lists list = some l) (hfirst : l.first = none)
    (entry : Ptr) :
    listAddEntry entry list m = some {
      lists := write m.lists list { l with
        first := some m.nodes.length, last := some m.nodes.length, entries := l.entries + 1 }
      nodes := (alloc m.nodes { previous := none, next := none, entry }).1 } := by
  simp [listAddEntry, hheader, hfirst, alloc]

/-- The nodes once another one has been linked behind `tail`. -/
def linkBehind (nodes : Heap list_entry_s) (last : Ptr) (tail : list_entry_s) (entry : Ptr) :
    Heap list_entry_s :=
  write (write (alloc nodes { previous := none, next := none, entry }).1 (some nodes.length)
      { previous := last, next := none, entry })
    last { tail with next := some nodes.length }

section Behind

variable {nodes : Heap list_entry_s} {tail : Nat} {value : list_entry_s}

theorem tail_ne_new (hread : read nodes (some tail) = some value) : (some tail : Ptr) ≠ some nodes.length := by
  have hlt := lt_length_of_read hread
  simp only [ne_eq, Option.some.injEq]
  omega

theorem read_linkBehind_new (hread : read nodes (some tail) = some value) (entry : Ptr) :
    read (linkBehind nodes (some tail) value entry) (some nodes.length) =
      some { previous := some tail, next := none, entry } := by
  rw [linkBehind, read_write_ne (tail_ne_new hread).symm, read_write_self (read_alloc_self _ _)]

theorem read_linkBehind_tail (hread : read nodes (some tail) = some value) (entry : Ptr) :
    read (linkBehind nodes (some tail) value entry) (some tail) =
      some { value with next := some nodes.length } := by
  have hold : read (write (alloc nodes { previous := none, next := none, entry }).1 (some nodes.length)
      { previous := some tail, next := none, entry }) (some tail) = some value := by
    rw [read_write_ne (tail_ne_new hread), read_alloc_ne (tail_ne_new hread), hread]
  exact read_write_self hold

theorem read_linkBehind_ne {address : Nat} (hnew : address ≠ nodes.length) (htail : address ≠ tail)
    (entry : Ptr) :
    read (linkBehind nodes (some tail) value entry) (some address) = read nodes (some address) := by
  rw [linkBehind, read_write_ne (by simpa using htail), read_write_ne (by simpa using hnew),
    read_alloc_ne (by simpa using hnew)]

end Behind

theorem listAddEntry_of_last {tail : list_entry_s} (hheader : read m.lists list = some l)
    (hfirst : l.first ≠ none) (htail : read m.nodes l.last = some tail) (entry : Ptr) :
    listAddEntry entry list m = some {
      lists := write m.lists list { l with last := some m.nodes.length, entries := l.entries + 1 }
      nodes := linkBehind m.nodes l.last tail entry } := by
  have hlast : l.last ≠ some m.nodes.length := by
    intro hlast
    rw [hlast] at htail
    exact absurd (lt_length_of_read htail) (Nat.lt_irrefl _)
  have hnew := read_alloc_self m.nodes { previous := none, next := none, entry }
  have hold : read (write (alloc m.nodes { previous := none, next := none, entry }).1 (some m.nodes.length)
      { previous := l.last, next := none, entry }) l.last = some tail := by
    rw [read_write_ne hlast, read_alloc_ne hlast, htail]
  simp only [alloc] at hnew hold
  simp [listAddEntry, hheader, hfirst, linkBehind, alloc, hnew, hold]

end Add

theorem dropCurrent_eq (l : list_s) (node : list_entry_s) :
    let first := if l.current = l.first then node.next else l.first
    l.dropCurrent node = {
      first
      last := if l.current = l.last then node.previous else l.last
      current := first
      entries := l.entries - 1 } := by
  unfold list_s.dropCurrent
  split <;> split <;> simp_all

/-- Memory in which nothing has changed but the cursors of lists. -/
structure Moved (m m' : Lists) : Prop where
  nodes : m'.nodes = m.nodes
  headers : ∀ list l, read m.lists list = some l → ∃ current, read m'.lists list = some { l with current }

namespace Moved

variable {m m' m'' : Lists} {list entry : Ptr} {l : list_s}

theorem refl (m : Lists) : Moved m m := ⟨rfl, fun _ l hread => ⟨l.current, hread⟩⟩

theorem trans (h : Moved m m') (h' : Moved m' m'') : Moved m m'' := by
  refine ⟨h'.nodes.trans h.nodes, ?_⟩
  intro list l hread
  obtain ⟨current, hcurrent⟩ := h.headers list l hread
  exact h'.headers list { l with current } hcurrent

theorem write (hread : read m.lists list = some l) (current : Ptr) :
    Moved m { m with lists := heap.write m.lists list { l with current } } := by
  refine ⟨rfl, ?_⟩
  intro other l' hother
  by_cases heq : other = list
  · subst heq
    obtain rfl := Option.some.inj (hread.symm.trans hother)
    exact ⟨current, read_write_self hread⟩
  · exact ⟨l'.current, (read_write_ne heq).trans hother⟩

theorem listFirstEntry (h : listFirstEntry list m = some (entry, m')) : Moved m m' := by
  simp only [linkedlist.listFirstEntry, Option.bind_eq_bind, Option.bind_eq_some_iff] at h
  obtain ⟨l, hread, node, _, hresult⟩ := h
  cases hresult
  exact .write hread l.first

theorem listNextEntry (h : listNextEntry list m = some (entry, m')) : Moved m m' := by
  simp only [linkedlist.listNextEntry, Option.bind_eq_bind, Option.bind_eq_some_iff] at h
  obtain ⟨l, hread, node, _, hresult⟩ := h
  split at hresult
  · cases hresult
    exact .write hread node.next
  · obtain ⟨following, _, hresult⟩ := Option.bind_eq_some_iff.mp hresult
    cases hresult
    exact .write hread node.next

end Moved

namespace Linked

variable {base : Nat} {list : Ptr} {m : Lists} {l : list_s} {path before after : List (Nat × Ptr)}
  {address : Nat} {entry : Ptr}

theorem exists_read (h : Linked base list m l path) (hmem : address ∈ path.map Prod.fst) :
    ∃ value, read m.nodes (some address) = some value := by
  obtain ⟨⟨_, entry⟩, hnode, rfl⟩ := List.mem_map.mp hmem
  obtain ⟨before, after, hpath⟩ := List.append_of_mem hnode
  exact ⟨_, h.node before _ entry after hpath⟩

theorem lt_length (h : Linked base list m l path) (hmem : address ∈ path.map Prod.fst) :
    address < m.nodes.length := by
  obtain ⟨value, hvalue⟩ := h.exists_read hmem
  exact lt_length_of_read hvalue

theorem length_le (h : Linked base list m l path) : path.length ≤ m.nodes.length := by
  have hsubset : path.map Prod.fst ⊆ List.range m.nodes.length := by
    intro address hmem
    exact List.mem_range.mpr (h.lt_length hmem)
  have hle := (List.subperm_of_subset h.nodup hsubset).length_le
  rwa [List.length_map, List.length_range] at hle

theorem moved {m' : Lists} (h : Linked base list m l path) (hmoved : Moved m m') :
    ∃ l', Linked base list m' l' path := by
  obtain ⟨current, hheader⟩ := hmoved.headers list l h.header
  refine ⟨{ l with current }, hheader, h.first, h.last, h.entries, ?_, h.nodup, h.own, ?_, ?_⟩
  · rw [hmoved.nodes]
    exact h.node
  · rw [hmoved.nodes]
    exact h.live
  · rw [hmoved.nodes]
    exact h.base_le

/-- A node's address belongs to no other node of the list. -/
theorem not_mem (h : Linked base list m l path) (hpath : path = before ++ (address, entry) :: after) :
    address ∉ before.map Prod.fst ∧ address ∉ after.map Prod.fst := by
  have hnodup := h.nodup
  rw [hpath, List.map_append, List.map_cons, List.nodup_append] at hnodup
  obtain ⟨_, hrest, hdisjoint⟩ := hnodup
  exact ⟨fun hmem => hdisjoint _ hmem _ (List.mem_cons_self ..) rfl, (List.nodup_cons.mp hrest).1⟩

theorem eq_first_iff (h : Linked base list m l path) (hpath : path = before ++ (address, entry) :: after) :
    some address = l.first ↔ before = [] := by
  rw [h.first, hpath]
  cases before with
  | nil => simp
  | cons node before =>
    simp only [List.cons_append, front_cons, Option.some.injEq, List.cons_ne_nil, iff_false]
    rintro rfl
    exact (h.not_mem hpath).1 (by simp)

theorem eq_last_iff (h : Linked base list m l path) (hpath : path = before ++ (address, entry) :: after) :
    some address = l.last ↔ after = [] := by
  rw [h.last, hpath]
  cases after using List.reverseRecOn with
  | nil => simp
  | append_singleton after last _ =>
    have hrear : rear (before ++ (address, entry) :: (after ++ [last])) = some last.1 := by
      rw [← List.cons_append, ← List.append_assoc, rear_snoc]
    rw [hrear]
    simp only [Option.some.injEq, List.append_eq_nil_iff, List.cons_ne_nil, and_false, iff_false]
    rintro rfl
    exact (h.not_mem hpath).2 (by simp)

/-- A new node gets an address of its own. -/
theorem snoc_nodup (h : Linked base list m l path) (entry : Ptr) :
    ((path ++ [(m.nodes.length, entry)]).map Prod.fst).Nodup := by
  rw [List.map_append, List.nodup_append]
  refine ⟨h.nodup, by simp, ?_⟩
  intro address hmem address' hmem'
  rw [List.map_cons, List.map_nil, List.mem_singleton] at hmem'
  have hlt := h.lt_length hmem
  omega

theorem snoc_own (h : Linked base list m l path) (entry : Ptr) :
    ∀ address ∈ (path ++ [(m.nodes.length, entry)]).map Prod.fst, base ≤ address := by
  intro address hmem
  rw [List.map_append, List.mem_append, List.map_cons, List.map_nil, List.mem_singleton] at hmem
  obtain hmem | rfl := hmem
  · exact h.own address hmem
  · exact h.base_le

theorem listAddEntry_empty (h : Linked base list m l []) (entry : Ptr) : ∃ m' l',
    linkedlist.listAddEntry entry list m = some m' ∧
      Linked base list m' l' [(m.nodes.length, entry)] := by
  refine ⟨_, { l with first := some m.nodes.length, last := some m.nodes.length, entries := l.entries + 1 },
    listAddEntry_of_first_null h.header h.first entry, ?_⟩
  refine ⟨read_write_self h.header, rfl, rfl, ?_, ?_, h.snoc_nodup entry, h.snoc_own entry, ?_, ?_⟩
  · simp [h.entries]
  · intro before address entry' after hpath
    have hsingle : [] ++ [(m.nodes.length, entry)] = before ++ (address, entry') :: after := hpath
    obtain ⟨rfl, hnode, rfl⟩ | ⟨after', hold, _⟩ := snoc_eq_append_cons hsingle
    · cases hnode
      exact read_alloc_self _ _
    · simp at hold
  · intro address value hbase hread
    by_cases hnew : address = m.nodes.length
    · simp [hnew]
    · rw [read_alloc_ne (by simpa using hnew)] at hread
      exact absurd (h.live address value hbase hread) (by simp)
  · exact Nat.le_trans h.base_le (by simp)

theorem listAddEntry_snoc {tail : Nat} {carried : Ptr} (h : Linked base list m l (path ++ [(tail, carried)]))
    (entry : Ptr) : ∃ m' l',
    linkedlist.listAddEntry entry list m = some m' ∧
      Linked base list m' l' (path ++ [(tail, carried)] ++ [(m.nodes.length, entry)]) := by
  have hlast : l.last = some tail := by rw [h.last, rear_snoc]
  have htail := h.node path tail carried [] rfl
  have hfirst : l.first ≠ none := by
    rw [h.first]
    cases path <;> simp
  refine ⟨_, { l with last := some m.nodes.length, entries := l.entries + 1 },
    listAddEntry_of_last h.header hfirst (by rw [hlast, htail]) entry, ?_⟩
  refine ⟨read_write_self h.header, ?_, ?_, ?_, ?_, h.snoc_nodup entry, h.snoc_own entry, ?_, ?_⟩
  · rw [h.first]
    cases path <;> rfl
  · rw [rear_snoc]
  · rw [List.length_append, h.entries]
    rfl
  · intro before address entry' after hpath
    simp only [hlast]
    -- The new node, the one it was linked behind, or one that has not changed.
    obtain ⟨rfl, hnode, rfl⟩ | ⟨after', hold, rfl⟩ := snoc_eq_append_cons hpath
    · cases hnode
      rw [read_linkBehind_new htail, rear_snoc]
      rfl
    · obtain ⟨rfl, hnode, rfl⟩ | ⟨between, hinner, rfl⟩ := snoc_eq_append_cons hold
      · cases hnode
        exact read_linkBehind_tail htail entry
      · have hmem : address ∈ path.map Prod.fst := by simp [hinner]
        have hlast : path ++ [(tail, carried)] = path ++ (tail, carried) :: [] := rfl
        have hne : address ≠ tail := by
          rintro rfl
          exact (h.not_mem hlast).1 hmem
        have hlt : address < m.nodes.length := h.lt_length (by simp [hinner])
        rw [read_linkBehind_ne (by omega) hne, h.node before address entry' _ hold]
        cases between <;> rfl
  · intro address value hbase hread
    simp only [hlast] at hread
    by_cases hnew : address = m.nodes.length
    · simp [hnew]
    · by_cases hold : address = tail
      · simp [hold]
      · rw [read_linkBehind_ne hnew hold] at hread
        have hmem := h.live address value hbase hread
        rw [List.map_append]
        exact List.mem_append_left _ hmem
  · exact Nat.le_trans h.base_le (by simp [linkBehind])

/-- Adding an entry appends a node for it. -/
theorem listAddEntry (h : Linked base list m l path) (entry : Ptr) : ∃ m' l',
    linkedlist.listAddEntry entry list m = some m' ∧
      Linked base list m' l' (path ++ [(m.nodes.length, entry)]) := by
  cases path using List.reverseRecOn with
  | nil => exact h.listAddEntry_empty entry
  | append_singleton path last _ => exact h.listAddEntry_snoc entry

/-- The memory while a loop has the cursor at some node. -/
def cursor (list : Ptr) (m : Lists) (l : list_s) (current : Ptr) : Lists :=
  { m with lists := write m.lists list { l with current } }

theorem read_cursor (h : Linked base list m l path) (current : Ptr) :
    read (cursor list m l current).lists list = some { l with current } :=
  read_write_self h.header

/-- Only the last place of the cursor counts. -/
theorem move_cursor (list : Ptr) (m : Lists) (l : list_s) (current moved : Ptr) :
    ({ cursor list m l current with
      lists := write (cursor list m l current).lists list { l with current := moved } } : Lists) =
      cursor list m l moved := by
  simp [cursor, write_write]

theorem listFirstEntry_cons (h : Linked base list m l ((address, entry) :: after)) (current : Ptr) :
    listFirstEntry list (cursor list m l current) = some (entry, cursor list m l (some address)) := by
  have hfirst : l.first = some address := h.first
  have hnode : read (cursor list m l current).nodes l.first =
      some { previous := none, next := front after, entry } := by
    rw [hfirst]
    exact h.node [] address entry after rfl
  simp only [listFirstEntry, h.read_cursor, Option.bind_eq_bind, Option.bind_some, move_cursor, hnode]
  rw [hfirst]
  rfl

/-- The cursor moves on to the next node, or past the last one. -/
theorem listNextEntry_node (h : Linked base list m l path) (hpath : path = before ++ (address, entry) :: after) :
    listNextEntry list (cursor list m l (some address)) =
      some ((after.head?.map Prod.snd).join, cursor list m l (front after)) := by
  have hnode : read (cursor list m l (some address)).nodes (some address) =
      some { previous := rear before, next := front after, entry } := h.node _ _ _ _ hpath
  simp only [listNextEntry, h.read_cursor, Option.bind_eq_bind, Option.bind_some, hnode, move_cursor]
  cases after with
  | nil => rfl
  | cons node after =>
    have hnext : read (cursor list m l (some address)).nodes (front (node :: after)) =
        some { previous := rear (before ++ [(address, entry)]), next := front after, entry := node.2 } :=
      h.node (before ++ [(address, entry)]) node.1 node.2 after (by simpa using hpath)
    rw [if_neg (by simp), hnext]
    rfl

/-- One turn of the loop, at a node of the list. -/
theorem seek_node (h : Linked base list m l path) (hpath : path = before ++ (address, entry) :: after)
    (wanted : Ptr) (fuel : Nat) :
    seek wanted list (fuel + 1) (cursor list m l (some address)) =
      if entry = wanted then some (true, cursor list m l (some address))
      else if after = [] then some (false, cursor list m l (some address))
      else seek wanted list fuel (cursor list m l (front after)) := by
  have hnode : read (cursor list m l (some address)).nodes (some address) =
      some { previous := rear before, next := front after, entry } := h.node _ _ _ _ hpath
  simp only [seek, h.read_cursor, Option.bind_eq_bind, Option.bind_some, hnode, h.eq_last_iff hpath, move_cursor]
  rfl

/-- The loop stops at the first node that carries the entry. -/
theorem seek_present (h : Linked base list m l path) {between : List (Nat × Ptr)}
    (hpath : path = before ++ between ++ (address, entry) :: after)
    (habsent : entry ∉ between.map Prod.snd) {fuel : Nat} (hfuel : between.length < fuel) :
    seek entry list fuel (cursor list m l (front (between ++ [(address, entry)]))) =
      some (true, cursor list m l (some address)) := by
  induction between generalizing before fuel with
  | nil =>
    obtain ⟨fuel, rfl⟩ := Nat.exists_eq_succ_of_ne_zero (Nat.ne_of_gt hfuel)
    have hfirst := h.seek_node (by simpa using hpath) entry fuel
    simpa using hfirst
  | cons node between ih =>
    obtain ⟨fuel, rfl⟩ := Nat.exists_eq_succ_of_ne_zero (Nat.ne_of_gt (Nat.lt_of_le_of_lt (Nat.zero_le _) hfuel))
    obtain ⟨hne, hrest⟩ : entry ≠ node.2 ∧ entry ∉ between.map Prod.snd := by simpa using habsent
    have hnode : path = before ++ (node.1, node.2) :: (between ++ (address, entry) :: after) := by simpa using hpath
    have hnext : path = before ++ [node] ++ between ++ (address, entry) :: after := by simpa using hpath
    have hturn := h.seek_node hnode entry fuel
    rw [if_neg (Ne.symm hne), if_neg (by simp)] at hturn
    have hfront : front (between ++ (address, entry) :: after) = front (between ++ [(address, entry)]) := by
      cases between <;> rfl
    rw [List.cons_append, front_cons, hturn, hfront]
    exact ih hnext hrest (by simpa using hfuel)

/-- Without such a node the loop stops at the last one. -/
theorem seek_absent (h : Linked base list m l path) {between : List (Nat × Ptr)}
    (hpath : path = before ++ between) (hne : between ≠ []) (habsent : entry ∉ between.map Prod.snd)
    {fuel : Nat} (hfuel : between.length ≤ fuel) :
    seek entry list fuel (cursor list m l (front between)) = some (false, cursor list m l (rear path)) := by
  induction between generalizing before fuel with
  | nil => exact absurd rfl hne
  | cons node between ih =>
    obtain ⟨fuel, rfl⟩ := Nat.exists_eq_succ_of_ne_zero (Nat.ne_of_gt (Nat.lt_of_lt_of_le (Nat.zero_lt_succ _) hfuel))
    obtain ⟨hother, hrest⟩ : entry ≠ node.2 ∧ entry ∉ between.map Prod.snd := by simpa using habsent
    have hturn := h.seek_node hpath entry fuel
    rw [if_neg (Ne.symm hother)] at hturn
    rw [front_cons, hturn]
    by_cases hend : between = []
    · rw [if_pos hend, hpath, hend, rear_snoc]
    · rw [if_neg hend]
      have hnext : path = before ++ [node] ++ between := by simpa using hpath
      exact ih hnext hend hrest (by simpa using hfuel)

theorem listRemoveEntry_empty (h : Linked base list m l []) (entry : Ptr) :
    listRemoveEntry entry list m = none := by
  have hseek : ∀ fuel, seek entry list fuel (cursor list m l l.first) = none := by
    intro fuel
    cases fuel with
    | zero => rfl
    | succ fuel => simp [seek, h.read_cursor, h.first]
  simp only [cursor] at hseek
  simp [listRemoveEntry, h.header, hseek]

theorem listRemoveEntry_absent (h : Linked base list m l path) (hne : path ≠ [])
    (habsent : entry ∉ path.map Prod.snd) :
    listRemoveEntry entry list m = some (-1, cursor list m l l.last) := by
  have hseek := h.seek_absent (List.nil_append path).symm hne habsent h.length_le
  rw [← h.first, ← h.last] at hseek
  simp only [cursor] at hseek
  simp [listRemoveEntry, h.header, hseek, cursor]

/-- What a removal leaves of the nodes: the node is gone, the one before it links past
it, and no other node has changed, not even the one behind it. -/
structure Unlinked (nodes nodes' : Heap list_entry_s) (before : List (Nat × Ptr)) (address : Nat)
    (after : List (Nat × Ptr)) : Prop where
  freed : read nodes' (some address) = none
  bypassed : ∀ earlier neighbour carried, before = earlier ++ [(neighbour, carried)] →
    read nodes' (some neighbour) = some { previous := rear earlier, next := front after, entry := carried }
  kept : ∀ other, some other ≠ rear before → other ≠ address →
    read nodes' (some other) = read nodes (some other)
  length : nodes'.length = nodes.length

theorem bypass_node (h : Linked base list m l path) (hpath : path = before ++ (address, entry) :: after) :
    ∃ nodes, bypass m.nodes { previous := rear before, next := front after, entry } = some nodes ∧
      read nodes (some address) = some { previous := rear before, next := front after, entry } ∧
      Unlinked m.nodes (free nodes (some address)) before address after := by
  have hnode := h.node _ _ _ _ hpath
  cases before using List.reverseRecOn with
  | nil =>
    refine ⟨m.nodes, rfl, hnode, read_free_self _ _, ?_, ?_, length_free _ _⟩
    · intro earlier neighbour carried hbefore
      simp at hbefore
    · intro other _ hother
      exact read_free_ne (by simpa using hother)
  | append_singleton earlier last _ =>
    obtain ⟨neighbour, carried⟩ := last
    have hneighbour := h.node earlier neighbour carried ((address, entry) :: after) (by simpa using hpath)
    have hne : (some address : Ptr) ≠ some neighbour := by
      intro heq
      cases heq
      exact (h.not_mem hpath).1 (by simp)
    refine ⟨write m.nodes (some neighbour) ⟨rear earlier, front after, carried⟩, ?_, ?_, ?_⟩
    · simp [bypass, hneighbour]
    · rw [read_write_ne hne, hnode]
    · refine ⟨read_free_self _ _, ?_, ?_, by simp⟩
      · intro earlier' neighbour' carried' hbefore
        obtain ⟨rfl, hlast⟩ := List.append_inj' hbefore rfl
        cases hlast
        rw [read_free_ne hne.symm, read_write_self hneighbour]
      · intro other hrear hother
        rw [rear_snoc] at hrear
        rw [read_free_ne (by simpa using hother), read_write_ne hrear]

/-- Removing the first node that carries the entry. -/
theorem listRemoveEntry_present (h : Linked base list m l path)
    (hpath : path = before ++ (address, entry) :: after) (habsent : entry ∉ before.map Prod.snd) :
    ∃ nodes, Unlinked m.nodes nodes before address after ∧
      listRemoveEntry entry list m = some (0, {
        lists := write m.lists list {
          first := front (before ++ after)
          last := rear (before ++ after)
          current := front (before ++ after)
          entries := l.entries - 1 }
        nodes }) := by
  obtain ⟨nodes, hbypass, hread, hunlinked⟩ := h.bypass_node hpath
  refine ⟨_, hunlinked, ?_⟩
  have hfuel : before.length < m.nodes.length := by
    have hle := h.length_le
    rw [hpath, List.length_append, List.length_cons] at hle
    omega
  have hfront : front (before ++ [(address, entry)]) = l.first := by
    rw [h.first, hpath]
    cases before <;> rfl
  have hfirst : (if some address = l.first then front after else l.first) = front (before ++ after) := by
    by_cases hnone : before = []
    · rw [if_pos ((h.eq_first_iff hpath).mpr hnone), hnone, List.nil_append]
    · rw [if_neg fun heq => hnone ((h.eq_first_iff hpath).mp heq), h.first, hpath]
      obtain ⟨node, before, rfl⟩ := List.exists_cons_of_ne_nil hnone
      rfl
  have hlast : (if some address = l.last then rear before else l.last) = rear (before ++ after) := by
    by_cases hnone : after = []
    · rw [if_pos ((h.eq_last_iff hpath).mpr hnone), hnone, List.append_nil]
    · rw [if_neg fun heq => hnone ((h.eq_last_iff hpath).mp heq), h.last, hpath]
      obtain ⟨after, node, rfl⟩ := (List.eq_nil_or_concat' after).resolve_left hnone
      rw [← List.append_assoc, rear_snoc, ← List.cons_append, ← List.append_assoc, rear_snoc]
  have hstart : path = [] ++ before ++ (address, entry) :: after := hpath
  have hseek := h.seek_present hstart habsent hfuel
  rw [hfront] at hseek
  have hnode := h.node _ _ _ _ hpath
  have hcurrent := h.read_cursor (some address)
  simp only [cursor] at hseek hcurrent
  simp only [listRemoveEntry, h.header, Option.bind_eq_bind, Option.bind_some, hseek, hcurrent, hnode,
    hbypass, hread]
  simp [write_write, dropCurrent_eq, hfirst, hlast]

end Linked

end speutils.linkedlist
