import SpeUtils.LinkedList.Removal

open heap run

namespace speutils.linkedlist

/-- The functions on a list. -/
inductive Use where
  | listAddEntry (entry : Ptr)
  | listRemoveEntry (entry : Ptr)
  | listFirstEntry
  | listNextEntry
  | listEntries
  deriving DecidableEq

/-- What a call returns. `listAddEntry` ends without a `return`. -/
inductive Answer where
  | nothing
  | number (value : Int)
  | entry (value : Ptr)
  deriving DecidableEq

def listEntries (list : Ptr) (m : Lists) : Option Int := (read m.lists list).map list_s.entries

/-- A call on the memory, with its answer. -/
def Use.perform (list : Ptr) (m : Lists) : Use → Option (Answer × Lists)
  | .listAddEntry entry => (linkedlist.listAddEntry entry list m).map fun m => (.nothing, m)
  | .listRemoveEntry entry => (linkedlist.listRemoveEntry entry list m).map fun r => (.number r.1, r.2)
  | .listFirstEntry => (linkedlist.listFirstEntry list m).map fun r => (.entry r.1, r.2)
  | .listNextEntry => (linkedlist.listNextEntry list m).map fun r => (.entry r.1, r.2)
  | .listEntries => (linkedlist.listEntries list m).map fun n => (.number n, m)

/-- A list in use, and all that its functions have returned. -/
structure Session where
  memory : Lists
  answers : List Answer
  deriving DecidableEq

def Session.step (list : Ptr) (s : Session) (use : Use) : Option Session :=
  (use.perform list s.memory).map fun r => { memory := r.2, answers := s.answers ++ [r.1] }

/-- An entry, and whether its node links back to a node that has been freed. -/
structure Item where
  value : Ptr
  stale : Bool
  deriving DecidableEq

/-- What a removal leaves of the items behind the one removed. -/
def sever : List Item → List Item
  | [] => []
  | item :: items => { item with stale := true } :: items

/-- The first item with the value goes. -/
def unlink (value : Ptr) : List Item → List Item
  | [] => []
  | item :: items => if item.value = value then sever items else item :: unlink value items

theorem unlink_append {items rest : List Item} {item : Item}
    (habsent : ∀ other ∈ items, other.value ≠ item.value) :
    unlink item.value (items ++ item :: rest) = items ++ sever rest := by
  induction items with
  | nil => simp [unlink]
  | cons other items ih =>
    obtain ⟨hne, hrest⟩ := List.forall_mem_cons.mp habsent
    rw [List.cons_append, unlink, if_neg hne, ih hrest, List.cons_append]

/-- What the functions are for: a sequence of items with a cursor, and all answers. -/
structure Sequence where
  items : List Item
  cursor : Option Nat
  answers : List Answer
  deriving DecidableEq

namespace Sequence

def empty : Sequence := { items := [], cursor := none, answers := [] }

/-- A call on the sequence. There is none to be followed where the program goes through a
null pointer, which is in an empty list and with a cursor past the end, or through the
link back to a freed node, which is on the removal of a stale item. -/
def perform (s : Sequence) : Use → Option (Answer × List Item × Option Nat)
  | .listAddEntry entry => some (.nothing, s.items ++ [{ value := entry, stale := false }], s.cursor)
  | .listRemoveEntry entry =>
    if s.items = [] then none
    else
      match s.items.find? (·.value = entry) with
      | none => some (.number (-1), s.items, some (s.items.length - 1))
      | some item =>
        if item.stale then none
        else some (.number 0, unlink entry s.items, if s.items.length = 1 then none else some 0)
  | .listFirstEntry => s.items.head?.map fun item => (.entry item.value, s.items, some 0)
  | .listNextEntry =>
    s.cursor.map fun i =>
      (.entry (s.items[i + 1]?.bind Item.value), s.items, if i + 1 < s.items.length then some (i + 1) else none)
  | .listEntries => some (.number s.items.length, s.items, s.cursor)

def step (s : Sequence) (use : Use) : Option Sequence :=
  (s.perform use).map fun r => { items := r.2.1, cursor := r.2.2, answers := s.answers ++ [r.1] }

end Sequence

/-- A pointer to a node that has been freed. -/
def Freed (nodes : Heap list_entry_s) (p : Ptr) : Prop :=
  ∃ gone, p = some gone ∧ gone < nodes.length ∧ read nodes (some gone) = none

/-- The link back from a node. -/
def Back (nodes : Heap list_entry_s) (item : Item) (previous before : Ptr) : Prop :=
  if item.stale then Freed nodes previous else previous = before

/-- The nodes from `p` up to `q`, of which `last` is the last. Each links on to the next,
and back to the one before it or, where its item is stale, to a freed one. -/
def Segment (nodes : Heap list_entry_s) : Ptr → Ptr → List (Nat × Item) → Ptr → Ptr → Prop
  | before, p, [], last, q => last = before ∧ q = p
  | before, p, (address, item) :: cells, last, q =>
    p = some address ∧ ∃ node, read nodes (some address) = some node ∧ node.entry = item.value ∧
      Back nodes item node.previous before ∧
      Segment nodes (some address) node.next cells last q

section Segments

variable {nodes nodes' : Heap list_entry_s} {before p last q : Ptr} {cells xs ys : List (Nat × Item)}
  {cell : Nat × Item} {item : Item} {previous : Ptr}

theorem Freed.free (h : Freed nodes p) (address : Nat) : Freed (free nodes (some address)) p := by
  obtain ⟨gone, rfl, hlt, hgone⟩ := h
  refine ⟨gone, rfl, by simpa using hlt, ?_⟩
  by_cases heq : gone = address
  · rw [heq, read_free_self]
  · rwa [read_free_ne (by simpa using heq)]

theorem Back.congr (h : Back nodes item previous before) (hfreed : ∀ p, Freed nodes p → Freed nodes' p) :
    Back nodes' item previous before := by
  unfold Back at h ⊢
  split at h
  · rename_i hstale
    rw [if_pos hstale]
    exact hfreed previous h
  · rename_i hstale
    rw [if_neg hstale]
    exact h

theorem segment_append :
    Segment nodes before p (xs ++ ys) last q ↔
      ∃ middle next, Segment nodes before p xs middle next ∧ Segment nodes middle next ys last q := by
  induction xs generalizing before p with
  | nil =>
    constructor
    · exact fun h => ⟨before, p, ⟨rfl, rfl⟩, h⟩
    · rintro ⟨middle, next, ⟨rfl, rfl⟩, h⟩
      exact h
  | cons x xs ih =>
    constructor
    · rintro ⟨hp, node, hread, hentry, hback, hrest⟩
      obtain ⟨middle, next, hxs, hys⟩ := ih.mp hrest
      exact ⟨middle, next, ⟨hp, node, hread, hentry, hback, hxs⟩, hys⟩
    · rintro ⟨middle, next, ⟨hp, node, hread, hentry, hback, hxs⟩, hys⟩
      exact ⟨hp, node, hread, hentry, hback, ih.mpr ⟨middle, next, hxs, hys⟩⟩

namespace Segment

theorem exists_read (h : Segment nodes before p cells last q) {address : Nat} (hmem : address ∈ cells.map Prod.fst) :
    ∃ node, read nodes (some address) = some node := by
  induction cells generalizing before p with
  | nil => simp at hmem
  | cons cell cells ih =>
    obtain ⟨rfl, node, hread, _, _, hrest⟩ := h
    rw [List.map_cons, List.mem_cons] at hmem
    obtain rfl | hmem := hmem
    · exact ⟨node, hread⟩
    · exact ih hrest hmem

/-- Other memory in which these nodes are the same, and nothing freed is in use again. -/
theorem congr (h : Segment nodes before p cells last q)
    (hsame : ∀ address ∈ cells.map Prod.fst, read nodes' (some address) = read nodes (some address))
    (hfreed : ∀ p, Freed nodes p → Freed nodes' p) : Segment nodes' before p cells last q := by
  induction cells generalizing before p with
  | nil => exact h
  | cons cell cells ih =>
    obtain ⟨rfl, node, hread, hentry, hback, hrest⟩ := h
    have hlater := ih hrest fun address hmem => hsame address (by simp [hmem])
    exact ⟨rfl, node, (hsame cell.1 (by simp)).trans hread, hentry, hback.congr hfreed, hlater⟩

theorem last_eq (h : Segment nodes before p (cells ++ [cell]) last q) : last = some cell.1 := by
  obtain ⟨middle, next, _, _, node, _, _, _, hend⟩ := segment_append.mp h
  exact hend.1

theorem front_eq (h : Segment nodes before p cells last none) : p = cells.head?.map Prod.fst := by
  cases cells with
  | nil => exact h.2.symm
  | cons cell cells => exact h.1

theorem length_le (h : Segment nodes before p cells last q) (hnodup : (cells.map Prod.fst).Nodup) :
    cells.length ≤ nodes.length := by
  have hsubset : cells.map Prod.fst ⊆ List.range nodes.length := by
    intro address hmem
    obtain ⟨node, hread⟩ := h.exists_read hmem
    exact List.mem_range.mpr (lt_length_of_read hread)
  have hle := (List.subperm_of_subset hnodup hsubset).length_le
  rwa [List.length_map, List.length_range] at hle

/-- Following `next` meets the nodes, and finds the values in them. -/
theorem chain (h : Segment nodes before p cells last none) :
    Chain nodes p (cells.map fun cell => (cell.1, cell.2.value)) := by
  induction cells generalizing before p with
  | nil => exact h.2.symm
  | cons cell cells ih =>
    obtain ⟨rfl, node, hread, hentry, _, hrest⟩ := h
    exact ⟨rfl, node, hread, hentry, ih hrest⟩

end Segment

end Segments

/-- What a removal leaves of the nodes behind the one removed. -/
def severed : List (Nat × Item) → List (Nat × Item)
  | [] => []
  | cell :: cells => (cell.1, { cell.2 with stale := true }) :: cells

@[simp] theorem severed_fst (cells : List (Nat × Item)) : (severed cells).map Prod.fst = cells.map Prod.fst := by
  cases cells <;> rfl

@[simp] theorem severed_snd (cells : List (Nat × Item)) :
    (severed cells).map Prod.snd = sever (cells.map Prod.snd) := by
  cases cells <;> rfl

@[simp] theorem length_severed (cells : List (Nat × Item)) : (severed cells).length = cells.length := by
  cases cells <;> rfl

/-- A list in memory: its header, and its nodes from the first to the last. -/
structure Stands (list : Ptr) (m : Lists) (l : list_s) (cells : List (Nat × Item)) : Prop where
  header : read m.lists list = some l
  segment : Segment m.nodes none l.first cells l.last none
  nodup : (cells.map Prod.fst).Nodup
  entries : l.entries = cells.length

namespace Stands

variable {list : Ptr} {m : Lists} {l : list_s} {cells before after : List (Nat × Item)} {address : Nat}
  {item : Item}

theorem init (m : Lists) : Stands (listInit m).2 (listInit m).1
    { first := none, last := none, current := none, entries := 0 } [] :=
  ⟨read_alloc_self _ _, ⟨rfl, rfl⟩, List.nodup_nil, rfl⟩

theorem cursor (h : Stands list m l cells) (current : Ptr) :
    Stands list (Linked.cursor list m l current) { l with current } cells :=
  ⟨read_write_self h.header, h.segment, h.nodup, h.entries⟩

/-- A node, with what links it to the others. -/
theorem at_cell (h : Stands list m l (before ++ (address, item) :: after)) :
    ∃ middle node, read m.nodes (some address) = some node ∧ node.entry = item.value ∧
      Back m.nodes item node.previous middle ∧
      Segment m.nodes none l.first before middle (some address) ∧
      Segment m.nodes (some address) node.next after l.last none := by
  obtain ⟨middle, next, hbefore, rfl, node, hread, hentry, hback, hafter⟩ := segment_append.mp h.segment
  exact ⟨middle, node, hread, hentry, hback, hbefore, hafter⟩

theorem not_mem (h : Stands list m l (before ++ (address, item) :: after)) :
    address ∉ before.map Prod.fst ∧ address ∉ after.map Prod.fst := by
  have hnodup := h.nodup
  rw [List.map_append, List.map_cons, List.nodup_append] at hnodup
  obtain ⟨_, hrest, hdisjoint⟩ := hnodup
  exact ⟨fun hmem => hdisjoint _ hmem _ (List.mem_cons_self ..) rfl, (List.nodup_cons.mp hrest).1⟩

theorem first_eq_iff (h : Stands list m l (before ++ (address, item) :: after)) :
    some address = l.first ↔ before = [] := by
  rw [h.segment.front_eq]
  cases before with
  | nil => simp
  | cons cell before =>
    simp only [List.cons_append, List.head?_cons, Option.map_some, Option.some.injEq, List.cons_ne_nil, iff_false]
    rintro rfl
    exact h.not_mem.1 (by simp)

theorem last_eq_iff (h : Stands list m l (before ++ (address, item) :: after)) :
    some address = l.last ↔ after = [] := by
  obtain ⟨_, node, _, _, _, _, hafter⟩ := h.at_cell
  obtain rfl | ⟨after, last, rfl⟩ := List.eq_nil_or_concat' after
  · simp [hafter.1]
  · rw [hafter.last_eq]
    simp only [Option.some.injEq, List.append_eq_nil_iff, List.cons_ne_nil, and_false, iff_false]
    rintro rfl
    exact h.not_mem.2 (by simp)

theorem ne_length (h : Stands list m l cells) : m.nodes.length ∉ cells.map Prod.fst := by
  intro hmem
  obtain ⟨node, hread⟩ := h.segment.exists_read hmem
  exact absurd (lt_length_of_read hread) (Nat.lt_irrefl _)

theorem listAddEntry (h : Stands list m l cells) (entry : Ptr) : ∃ m' l',
    linkedlist.listAddEntry entry list m = some m' ∧ l'.current = l.current ∧
      Stands list m' l' (cells ++ [(m.nodes.length, { value := entry, stale := false })]) := by
  have hnodup : ((cells ++ [(m.nodes.length, ({ value := entry, stale := false } : Item))]).map Prod.fst).Nodup := by
    rw [List.map_append, List.nodup_append]
    refine ⟨h.nodup, List.nodup_singleton _, ?_⟩
    rintro address hmem address' hmem' rfl
    obtain rfl := List.mem_singleton.mp hmem'
    exact h.ne_length hmem
  obtain rfl | ⟨front, ⟨tail, item⟩, rfl⟩ := List.eq_nil_or_concat' cells
  · have hfirst : l.first = none := h.segment.2.symm
    have hread := read_alloc_self m.nodes { previous := none, next := none, entry }
    refine ⟨_, { l with first := some m.nodes.length, last := some m.nodes.length, entries := l.entries + 1 },
      listAddEntry_of_first_null h.header hfirst entry, rfl, read_write_self h.header, ?_, hnodup, ?_⟩
    · exact ⟨rfl, _, hread, rfl, rfl, rfl, rfl⟩
    · simp [h.entries]
  · obtain ⟨middle, node, hread, hentry, hback, hfront, hend, hnext⟩ := h.at_cell
    have hlast : l.last = some tail := hend
    have hfirst : l.first ≠ none := by
      intro hnone
      have hempty := h.segment.front_eq
      rw [hnone] at hempty
      cases front <;> cases hempty
    have hold : ∀ {address : Nat}, address ∈ front.map Prod.fst →
        address ≠ m.nodes.length ∧ address ≠ tail := by
      intro address hmem
      obtain ⟨value, hvalue⟩ := hfront.exists_read hmem
      refine ⟨Nat.ne_of_lt (lt_length_of_read hvalue), ?_⟩
      rintro rfl
      exact h.not_mem.1 hmem
    have hfreed : ∀ p, Freed m.nodes p → Freed (linkBehind m.nodes (some tail) node entry) p := by
      rintro p ⟨gone, rfl, hlt, hgone⟩
      have htail : gone ≠ tail := by
        rintro rfl
        rw [hread] at hgone
        cases hgone
      exact ⟨gone, rfl, hlt.trans (by simp [linkBehind]), (read_linkBehind_ne (by omega) htail entry).trans hgone⟩
    refine ⟨_, { l with last := some m.nodes.length, entries := l.entries + 1 },
      listAddEntry_of_last h.header hfirst (by rw [hlast, hread]) entry, rfl, read_write_self h.header, ?_,
      hnodup, ?_⟩
    · rw [hlast, List.append_assoc]
      refine segment_append.mpr ⟨middle, some tail, hfront.congr ?_ hfreed, rfl, _,
        read_linkBehind_tail hread entry, hentry, hback.congr hfreed, rfl, _, read_linkBehind_new hread entry,
        rfl, rfl, rfl, rfl⟩
      intro address hmem
      exact read_linkBehind_ne (hold hmem).1 (hold hmem).2 entry
    · simp only [h.entries, List.length_append, List.length_singleton]
      omega

theorem listFirstEntry (h : Stands list m l ((address, item) :: after)) :
    linkedlist.listFirstEntry list m = some (item.value, Linked.cursor list m l (some address)) := by
  have hcells : (address, item) :: after = [] ++ (address, item) :: after := rfl
  obtain ⟨middle, node, hread, hentry, _, hfront, _⟩ := (hcells ▸ h).at_cell
  have hfirst : some address = l.first := hfront.2
  simp [linkedlist.listFirstEntry, h.header, ← hfirst, hread, hentry, Linked.cursor]

theorem listFirstEntry_empty (h : Stands list m l []) : linkedlist.listFirstEntry list m = none := by
  have hfirst : l.first = none := h.segment.2.symm
  simp [linkedlist.listFirstEntry, h.header, hfirst]

/-- The cursor moves on to the next node, or past the last one. -/
theorem listNextEntry (h : Stands list m l (before ++ (address, item) :: after)) (hcurrent : l.current = some address) :
    linkedlist.listNextEntry list m =
      some (after.head?.bind fun cell => cell.2.value, Linked.cursor list m l (after.head?.map Prod.fst)) := by
  obtain ⟨middle, node, hread, hentry, _, _, hafter⟩ := h.at_cell
  have hnext := hafter.front_eq
  cases after with
  | nil => simp [linkedlist.listNextEntry, h.header, hcurrent, hread, hnext, Linked.cursor]
  | cons cell after =>
    obtain ⟨_, following, hfollowing, hvalue, _⟩ := hafter
    simp only [List.head?_cons, Option.map_some] at hnext
    simp [linkedlist.listNextEntry, h.header, hcurrent, hread, hnext, hfollowing, hvalue, Linked.cursor]

theorem listNextEntry_null (h : Stands list m l cells) (hcurrent : l.current = none) :
    linkedlist.listNextEntry list m = none := by
  simp [linkedlist.listNextEntry, h.header, hcurrent]

/-- One turn of the loop in `listRemoveEntry`. -/
theorem seek_cell (h : Stands list m l (before ++ (address, item) :: after)) (wanted : Ptr) (fuel : Nat) :
    seek wanted list (fuel + 1) (Linked.cursor list m l (some address)) =
      if item.value = wanted then some (true, Linked.cursor list m l (some address))
      else if after = [] then some (false, Linked.cursor list m l (some address))
      else seek wanted list fuel (Linked.cursor list m l (after.head?.map Prod.fst)) := by
  obtain ⟨middle, node, hread, hentry, _, _, hafter⟩ := h.at_cell
  have hnode : read (Linked.cursor list m l (some address)).nodes (some address) = some node := hread
  simp only [seek, (h.cursor (some address)).header, Option.bind_eq_bind, Option.bind_some, hnode, hentry,
    h.last_eq_iff, Linked.move_cursor, hafter.front_eq]
  rfl

/-- The loop stops at the first node with the value. -/
theorem seek_present {between : List (Nat × Item)}
    (h : Stands list m l (before ++ between ++ (address, item) :: after))
    (habsent : item.value ∉ between.map fun cell => cell.2.value) {fuel : Nat} (hfuel : between.length < fuel) :
    seek item.value list fuel (Linked.cursor list m l ((between ++ [(address, item)]).head?.map Prod.fst)) =
      some (true, Linked.cursor list m l (some address)) := by
  induction between generalizing before fuel with
  | nil =>
    obtain ⟨fuel, rfl⟩ := Nat.exists_eq_succ_of_ne_zero (Nat.ne_of_gt hfuel)
    rw [List.append_nil] at h
    have hturn := h.seek_cell item.value fuel
    rwa [if_pos rfl] at hturn
  | cons cell between ih =>
    obtain ⟨fuel, rfl⟩ := Nat.exists_eq_succ_of_ne_zero (Nat.ne_of_gt (Nat.lt_of_le_of_lt (Nat.zero_le _) hfuel))
    obtain ⟨hne, hrest⟩ : item.value ≠ cell.2.value ∧ item.value ∉ between.map fun cell => cell.2.value := by
      simpa using habsent
    have hcells : before ++ cell :: between ++ (address, item) :: after =
        before ++ (cell.1, cell.2) :: (between ++ (address, item) :: after) := by simp
    have hlater : before ++ cell :: between ++ (address, item) :: after =
        before ++ [cell] ++ between ++ (address, item) :: after := by simp
    have hturn := (hcells ▸ h).seek_cell item.value fuel
    rw [if_neg (Ne.symm hne), if_neg (by simp)] at hturn
    have hhead : (between ++ (address, item) :: after).head? = (between ++ [(address, item)]).head? := by
      cases between <;> rfl
    rw [hhead] at hturn
    exact hturn.trans (ih (hlater ▸ h) hrest (by simpa using hfuel))

/-- Without such a node it stops at the last one. -/
theorem seek_absent {between : List (Nat × Item)} (h : Stands list m l (before ++ between)) (hne : between ≠ [])
    {wanted : Ptr} (habsent : wanted ∉ between.map fun cell => cell.2.value) {fuel : Nat}
    (hfuel : between.length ≤ fuel) :
    seek wanted list fuel (Linked.cursor list m l (between.head?.map Prod.fst)) =
      some (false, Linked.cursor list m l l.last) := by
  induction between generalizing before fuel with
  | nil => exact absurd rfl hne
  | cons cell between ih =>
    obtain ⟨fuel, rfl⟩ :=
      Nat.exists_eq_succ_of_ne_zero (Nat.ne_of_gt (Nat.lt_of_lt_of_le (Nat.zero_lt_succ _) hfuel))
    obtain ⟨hother, hrest⟩ : wanted ≠ cell.2.value ∧ wanted ∉ between.map fun cell => cell.2.value := by
      simpa using habsent
    have hcell : Stands list m l (before ++ (cell.1, cell.2) :: between) := h
    have hturn := hcell.seek_cell wanted fuel
    rw [if_neg (Ne.symm hother)] at hturn
    refine hturn.trans ?_
    by_cases hend : between = []
    · rw [if_pos hend, hcell.last_eq_iff.mpr hend]
    · rw [if_neg hend]
      have hlater : before ++ cell :: between = before ++ [cell] ++ between := by simp
      exact ih (hlater ▸ h) hend hrest (by simpa using hfuel)

theorem listRemoveEntry_empty (h : Stands list m l []) (entry : Ptr) :
    linkedlist.listRemoveEntry entry list m = none := by
  have hfirst : l.first = none := h.segment.2.symm
  have hseek : ∀ fuel, seek entry list fuel (Linked.cursor list m l none) = none := by
    intro fuel
    cases fuel with
    | zero => rfl
    | succ fuel => simp [seek, (h.cursor none).header]
  simp only [Linked.cursor, hfirst] at hseek
  simp [linkedlist.listRemoveEntry, h.header, hfirst, hseek]

theorem listRemoveEntry_absent (h : Stands list m l cells) (hne : cells ≠ []) {wanted : Ptr}
    (habsent : wanted ∉ cells.map fun cell => cell.2.value) :
    linkedlist.listRemoveEntry wanted list m = some (-1, Linked.cursor list m l l.last) := by
  have hcells : Stands list m l ([] ++ cells) := h
  have hseek := hcells.seek_absent hne habsent (h.segment.length_le h.nodup)
  rw [← h.segment.front_eq] at hseek
  simp only [Linked.cursor] at hseek
  simp [linkedlist.listRemoveEntry, h.header, hseek, Linked.cursor]

/-- Up to its first store a removal only moves the cursor. -/
theorem listRemoveEntry_found (h : Stands list m l (before ++ (address, item) :: after))
    (habsent : item.value ∉ before.map fun cell => cell.2.value) {node : list_entry_s}
    (hread : read m.nodes (some address) = some node) :
    linkedlist.listRemoveEntry item.value list m = (bypass m.nodes node).bind fun nodes =>
      (read nodes (some address)).map fun node => (0, {
        lists := write m.lists list (({ l with current := some address } : list_s).dropCurrent node)
        nodes := free nodes (some address) }) := by
  have hcells : Stands list m l ([] ++ before ++ (address, item) :: after) := h
  have hfuel : before.length < m.nodes.length := by
    have hle := h.segment.length_le h.nodup
    rw [List.length_append, List.length_cons] at hle
    omega
  have hhead : (before ++ [(address, item)]).head? = (before ++ (address, item) :: after).head? := by
    cases before <;> rfl
  have hseek := hcells.seek_present habsent hfuel
  rw [hhead, ← h.segment.front_eq] at hseek
  have hcurrent := (h.cursor (some address)).header
  simp only [Linked.cursor] at hseek hcurrent
  simp only [linkedlist.listRemoveEntry, h.header, Option.bind_eq_bind, Option.bind_some, hseek, hcurrent, hread]
  cases bypass m.nodes node with
  | none => rfl
  | some nodes =>
    cases hnode : read nodes (some address) with
    | none => simp [hnode]
    | some node => simp [hnode, write_write]

/-- The removal of a stale item follows a pointer to a freed node. -/
theorem listRemoveEntry_stale (h : Stands list m l (before ++ (address, item) :: after))
    (habsent : item.value ∉ before.map fun cell => cell.2.value) (hstale : item.stale = true) :
    linkedlist.listRemoveEntry item.value list m = none := by
  obtain ⟨middle, node, hread, _, hback, _, _⟩ := h.at_cell
  rw [Back, if_pos hstale] at hback
  obtain ⟨gone, hprevious, _, hgone⟩ := hback
  rw [h.listRemoveEntry_found habsent hread]
  simp [bypass, hprevious, hgone]

/-- The statement that links the node before a removed one past it. -/
theorem bypass_cell (h : Stands list m l (before ++ (address, item) :: after)) {middle : Ptr}
    {node : list_entry_s} (hback : node.previous = middle)
    (hbefore : Segment m.nodes none l.first before middle (some address)) : ∃ nodes,
      bypass m.nodes node = some nodes ∧
      (∀ other, other ∉ before.map Prod.fst → read nodes (some other) = read m.nodes (some other)) ∧
      (∀ p, Freed m.nodes p → Freed nodes p) ∧
      Segment nodes none (if before = [] then node.next else l.first) before middle node.next := by
  obtain rfl | ⟨front, ⟨neighbour, carried⟩, rfl⟩ := List.eq_nil_or_concat' before
  · obtain ⟨rfl, _⟩ := hbefore
    exact ⟨m.nodes, by simp [bypass, hback], fun _ _ => rfl, fun _ hfreed => hfreed, rfl, rfl⟩
  · have hmiddle : middle = some neighbour := hbefore.last_eq
    obtain ⟨earlier, next, hfront, rfl, value, hvalue, hentry, hlink, hend⟩ := segment_append.mp hbefore
    have hne : ∀ {other : Nat}, other ≠ neighbour →
        read (write m.nodes (some neighbour) { value with next := node.next }) (some other) =
          read m.nodes (some other) := fun hother => read_write_ne (by simpa using hother)
    have hfreed : ∀ p, Freed m.nodes p →
        Freed (write m.nodes (some neighbour) { value with next := node.next }) p := by
      rintro p ⟨gone, rfl, hlt, hgone⟩
      refine ⟨gone, rfl, by simpa using hlt, (hne ?_).trans hgone⟩
      rintro rfl
      rw [hvalue] at hgone
      cases hgone
    refine ⟨write m.nodes (some neighbour) { value with next := node.next }, ?_, ?_, hfreed, ?_⟩
    · simp [bypass, hback, hmiddle, hvalue]
    · intro other hother
      refine hne ?_
      rintro rfl
      exact hother (by simp)
    · have hkept : ∀ other ∈ front.map Prod.fst, other ≠ neighbour := by
        rintro other hmem rfl
        have hnodup := h.nodup
        simp only [List.map_append, List.nodup_append] at hnodup
        exact hnodup.1.2.2 _ hmem _ (List.mem_singleton_self _) rfl
      rw [if_neg (by simp)]
      exact segment_append.mpr ⟨earlier, some neighbour,
        hfront.congr (fun other hmem => hne (hkept other hmem)) hfreed, rfl, _, read_write_self hvalue, hentry,
        hlink.congr hfreed, hmiddle, rfl⟩

/-- The nodes behind a removed one, the first of which still links back to it. -/
theorem severed_segment {nodes : Heap list_entry_s} {middle p last : Ptr} (haddress : Freed nodes (some address))
    (h : Segment m.nodes (some address) p after last none)
    (hsame : ∀ other ∈ after.map Prod.fst, read nodes (some other) = read m.nodes (some other))
    (hfreed : ∀ p, Freed m.nodes p → Freed nodes p) :
    Segment nodes middle p (severed after) (if after = [] then middle else last) none := by
  cases after with
  | nil =>
    obtain ⟨_, rfl⟩ := h
    exact ⟨rfl, rfl⟩
  | cons cell after =>
    obtain ⟨rfl, node, hread, hentry, hback, hrest⟩ := h
    refine ⟨rfl, node, (hsame cell.1 (by simp)).trans hread, hentry, ?_, ?_⟩
    · rw [Back, if_pos rfl]
      unfold Back at hback
      split at hback
      · exact hfreed node.previous hback
      · rw [hback]
        exact haddress
    · rw [if_neg (by simp)]
      exact hrest.congr (fun other hmem => hsame other (by simp [hmem])) hfreed

/-- The removal of the first node with a value. -/
theorem listRemoveEntry_present (h : Stands list m l (before ++ (address, item) :: after))
    (habsent : item.value ∉ before.map fun cell => cell.2.value) (hfresh : item.stale = false) : ∃ m' l',
    linkedlist.listRemoveEntry item.value list m = some (0, m') ∧ l'.current = l'.first ∧
      Stands list m' l' (before ++ severed after) := by
  obtain ⟨middle, node, hread, _, hback, hbefore, hafter⟩ := h.at_cell
  rw [Back, hfresh, if_neg (by decide)] at hback
  obtain ⟨nodes, hbypass, hkept, hfreed, hsegment⟩ := h.bypass_cell hback hbefore
  have hnode : read nodes (some address) = some node := (hkept address h.not_mem.1).trans hread
  have hnodup := h.nodup
  rw [List.map_append, List.map_cons, List.nodup_append] at hnodup
  have haddress : Freed (free nodes (some address)) (some address) :=
    ⟨address, rfl, by simpa using lt_length_of_read hnode, read_free_self _ _⟩
  have hfront : Segment (free nodes (some address)) none (if before = [] then node.next else l.first) before middle
      node.next := by
    refine hsegment.congr (fun other hmem => read_free_ne ?_) fun p hp => hp.free address
    exact fun heq => hnodup.2.2 other hmem address (List.mem_cons_self ..) (Option.some.inj heq)
  have hrear : Segment (free nodes (some address)) middle node.next (severed after)
      (if after = [] then middle else l.last) none := by
    refine severed_segment haddress hafter ?_ fun p hp => (hfreed p hp).free address
    intro other hmem
    have hne : other ≠ address := fun heq => h.not_mem.2 (heq ▸ hmem)
    rw [read_free_ne (by simpa using hne)]
    exact hkept other fun hbefore => hnodup.2.2 other hbefore other (List.mem_cons_of_mem _ hmem) rfl
  have hdrop := dropCurrent_eq { l with current := some address } node
  simp only [h.first_eq_iff, h.last_eq_iff, hback] at hdrop
  refine ⟨{ lists := write m.lists list (({ l with current := some address } : list_s).dropCurrent node),
            nodes := free nodes (some address) }, ({ l with current := some address } : list_s).dropCurrent node,
    (h.listRemoveEntry_found habsent hread).trans ?_, ?_, read_write_self h.header, ?_, ?_, ?_⟩
  · rw [hbypass, Option.bind_some, hnode, Option.map_some]
  · rw [hdrop]
  · rw [hdrop]
    exact segment_append.mpr ⟨middle, node.next, hfront, hrear⟩
  · rw [List.map_append, severed_fst, List.nodup_append]
    exact ⟨hnodup.1, (List.nodup_cons.mp hnodup.2.1).2,
      fun a ha b hb => hnodup.2.2 a ha b (List.mem_cons_of_mem _ hb)⟩
  · rw [hdrop]
    simp only [h.entries, List.length_append, List.length_cons, length_severed]
    omega

end Stands

/-- The list stands for the sequence: its nodes carry the items in order, `current` is at
the cursor, and every function has returned the same. -/
structure Refines (list : Ptr) (s : Session) (t : Sequence) : Prop where
  represents : ∃ l path, read s.memory.lists list = some l ∧
    Chained s.memory.nodes l path (t.items.map Item.value) ∧ l.current = t.cursor.bind fun i => path[i]?
  answers : s.answers = t.answers

/-- The same with the links back. -/
structure Corresponds (list : Ptr) (s : Session) (t : Sequence) : Prop where
  stands : ∃ l cells, Stands list s.memory l cells ∧ t.items = cells.map Prod.snd ∧
    l.current = t.cursor.bind fun i => (cells.map Prod.fst)[i]?
  cursor_lt : ∀ i, t.cursor = some i → i < t.items.length
  answers : s.answers = t.answers

namespace Corresponds

variable {list : Ptr} {s : Session} {t : Sequence}

theorem refines (h : Corresponds list s t) : Refines list s t := by
  obtain ⟨l, cells, hstands, hitems, hcurrent⟩ := h.stands
  refine ⟨⟨l, cells.map Prod.fst, hstands.header, ?_, hcurrent⟩, h.answers⟩
  have hlast : l.last = rear (cells.map fun cell => (cell.1, cell.2.value)) := by
    obtain rfl | ⟨cells, cell, rfl⟩ := List.eq_nil_or_concat' cells
    · exact hstands.segment.1
    · rw [hstands.segment.last_eq, List.map_append, List.map_singleton, rear_snoc]
  have hchained := hstands.segment.chain.chained hlast (by rw [List.length_map, hstands.entries])
  simpa [hitems, Function.comp_def] using hchained

theorem init (m : Lists) : Corresponds (listInit m).2 { memory := (listInit m).1, answers := [] } .empty where
  stands := ⟨_, [], .init m, rfl, rfl⟩
  cursor_lt := by
    intro i hi
    cases hi
  answers := rfl

/-- One call that both sides can make. -/
theorem answer {use : Use} {answer : Answer} {m : Lists} {l : list_s} {cells : List (Nat × Item)}
    {cursor : Option Nat} (h : Corresponds list s t) (hperform : use.perform list s.memory = some (answer, m))
    (hspec : t.perform use = some (answer, cells.map Prod.snd, cursor)) (hstands : Stands list m l cells)
    (hcurrent : l.current = cursor.bind fun i => (cells.map Prod.fst)[i]?)
    (hlt : ∀ i, cursor = some i → i < cells.length) :
    Option.Rel (Corresponds list) (s.step list use) (t.step use) := by
  rw [Session.step, Sequence.step, hperform, hspec]
  exact .some ⟨⟨l, cells, hstands, rfl, hcurrent⟩, by simpa using hlt, by rw [h.answers]⟩

theorem fault {use : Use} (hperform : use.perform list s.memory = none) (hspec : t.perform use = none) :
    Option.Rel (Corresponds list) (s.step list use) (t.step use) := by
  rw [Session.step, Sequence.step, hperform, hspec]
  exact .none

theorem listEntries (h : Corresponds list s t) :
    Option.Rel (Corresponds list) (s.step list .listEntries) (t.step .listEntries) := by
  obtain ⟨l, cells, hstands, hitems, hcurrent⟩ := h.stands
  have hperform : Use.listEntries.perform list s.memory = some (.number cells.length, s.memory) := by
    simp [Use.perform, linkedlist.listEntries, hstands.header, hstands.entries]
  have hspec : t.perform .listEntries = some (.number cells.length, cells.map Prod.snd, t.cursor) := by
    simp [Sequence.perform, hitems]
  exact h.answer hperform hspec hstands hcurrent (by simpa [hitems] using h.cursor_lt)

theorem listAddEntry (h : Corresponds list s t) (entry : Ptr) :
    Option.Rel (Corresponds list) (s.step list (.listAddEntry entry)) (t.step (.listAddEntry entry)) := by
  obtain ⟨l, cells, hstands, hitems, hcurrent⟩ := h.stands
  obtain ⟨m, l', hadd, hkept, hstands'⟩ := hstands.listAddEntry entry
  have hlt : ∀ i, t.cursor = some i → i < cells.length := by simpa [hitems] using h.cursor_lt
  have hperform : (Use.listAddEntry entry).perform list s.memory = some (.nothing, m) := by
    rw [Use.perform, hadd, Option.map_some]
  have hspec : t.perform (.listAddEntry entry) = some (.nothing,
      (cells ++ [(s.memory.nodes.length, ({ value := entry, stale := false } : Item))]).map Prod.snd, t.cursor) := by
    simp [Sequence.perform, hitems]
  refine h.answer hperform hspec hstands' ?_ ?_
  · rw [hkept, hcurrent]
    refine Option.bind_congr fun i hi => ?_
    rw [List.map_append, List.getElem?_append_left (by simpa using hlt i hi)]
  · intro i hi
    rw [List.length_append]
    exact Nat.lt_add_right _ (hlt i hi)

theorem listFirstEntry (h : Corresponds list s t) :
    Option.Rel (Corresponds list) (s.step list .listFirstEntry) (t.step .listFirstEntry) := by
  obtain ⟨l, cells, hstands, hitems, _⟩ := h.stands
  cases cells with
  | nil =>
    refine fault ?_ (by simp [Sequence.perform, hitems])
    rw [Use.perform, hstands.listFirstEntry_empty, Option.map_none]
  | cons cell after =>
    obtain ⟨address, item⟩ := cell
    have hperform : Use.listFirstEntry.perform list s.memory =
        some (.entry item.value, Linked.cursor list s.memory l (some address)) := by
      rw [Use.perform, hstands.listFirstEntry, Option.map_some]
    have hspec : t.perform .listFirstEntry =
        some (.entry item.value, ((address, item) :: after).map Prod.snd, some 0) := by
      simp [Sequence.perform, hitems]
    refine h.answer hperform hspec (hstands.cursor (some address)) rfl ?_
    intro i hi
    obtain rfl := Option.some.inj hi
    simp

/-- The cursor moves on, and the value of the next item is returned, or the null pointer. -/
theorem listNextEntry (h : Corresponds list s t) :
    Option.Rel (Corresponds list) (s.step list .listNextEntry) (t.step .listNextEntry) := by
  obtain ⟨l, cells, hstands, hitems, hcurrent⟩ := h.stands
  cases hcursor : t.cursor with
  | none =>
    have hnull : l.current = none := by rw [hcurrent, hcursor, Option.bind_none]
    refine fault ?_ (by simp [Sequence.perform, hcursor])
    rw [Use.perform, hstands.listNextEntry_null hnull, Option.map_none]
  | some i =>
    have hi : i < cells.length := by simpa [hitems] using h.cursor_lt i hcursor
    obtain ⟨before, ⟨address, item⟩, after, rfl, rfl⟩ :
        ∃ before cell after, cells = before ++ cell :: after ∧ before.length = i :=
      ⟨cells.take i, cells[i], cells.drop (i + 1), by simp, by simp [Nat.le_of_lt hi]⟩
    have hat : l.current = some address := by simp [hcurrent, hcursor]
    have hperform : Use.listNextEntry.perform list s.memory =
        some (.entry (after.head?.bind fun cell => cell.2.value),
          Linked.cursor list s.memory l (after.head?.map Prod.fst)) := by
      rw [Use.perform, hstands.listNextEntry hat, Option.map_some]
    have hspec : t.perform .listNextEntry =
        some (.entry (after.head?.bind fun cell => cell.2.value), (before ++ (address, item) :: after).map Prod.snd,
          if 0 < after.length then some (before.length + 1) else none) := by
      cases after <;> simp [Sequence.perform, hcursor, hitems]
    refine h.answer hperform hspec (hstands.cursor _) ?_ ?_
    · cases after <;> simp
    · intro i hi
      split at hi
      · obtain rfl := Option.some.inj hi
        simpa using ‹0 < after.length›
      · cases hi

/-- The items of a list up to the first one with a value. -/
theorem split_find {cells : List (Nat × Item)} {entry : Ptr} {item : Item}
    (hfind : (cells.map Prod.snd).find? (·.value = entry) = some item) : ∃ before address after,
      cells = before ++ (address, item) :: after ∧ item.value = entry ∧
      ∀ other ∈ before.map Prod.snd, other.value ≠ entry := by
  obtain ⟨hvalue, before, after, hsplit, hbefore⟩ := List.find?_eq_some_iff_append.mp hfind
  obtain ⟨front, rest, rfl, rfl, hrest⟩ := List.map_eq_append_iff.mp hsplit
  obtain ⟨⟨address, carried⟩, behind, rfl, rfl, rfl⟩ := List.map_eq_cons_iff.mp hrest
  exact ⟨front, address, behind, rfl, by simpa using hvalue, by simpa using hbefore⟩

/-- A removal finds the first node with the value, and fails on a stale one. -/
theorem listRemoveEntry (h : Corresponds list s t) (entry : Ptr) :
    Option.Rel (Corresponds list) (s.step list (.listRemoveEntry entry)) (t.step (.listRemoveEntry entry)) := by
  obtain ⟨l, cells, hstands, hitems, _⟩ := h.stands
  by_cases hempty : cells = []
  · subst hempty
    refine fault ?_ (by simp [Sequence.perform, hitems])
    rw [Use.perform, hstands.listRemoveEntry_empty, Option.map_none]
  have hsome : t.items ≠ [] := by simpa [hitems] using hempty
  cases hfind : t.items.find? (·.value = entry) with
  | none =>
    have habsent : entry ∉ cells.map fun cell => cell.2.value := by
      intro hmem
      obtain ⟨cell, hcell, rfl⟩ := List.mem_map.mp hmem
      have hitem : cell.2 ∈ t.items := hitems ▸ List.mem_map_of_mem hcell
      exact List.find?_eq_none.mp hfind cell.2 hitem (decide_eq_true rfl)
    have hperform : (Use.listRemoveEntry entry).perform list s.memory =
        some (.number (-1), Linked.cursor list s.memory l l.last) := by
      rw [Use.perform, hstands.listRemoveEntry_absent hempty habsent, Option.map_some]
    have hspec : t.perform (.listRemoveEntry entry) =
        some (.number (-1), cells.map Prod.snd, some (cells.length - 1)) := by
      rw [Sequence.perform, if_neg hsome, hfind]
      simp [hitems]
    obtain ⟨cells, cell, rfl⟩ := (List.eq_nil_or_concat' cells).resolve_left hempty
    refine h.answer hperform hspec (hstands.cursor l.last) ?_ ?_
    · simp [hstands.segment.last_eq]
    · intro i hi
      obtain rfl := Option.some.inj hi
      simp
  | some item =>
    obtain ⟨before, address, after, rfl, rfl, hbefore⟩ := split_find (hitems ▸ hfind)
    have habsent : item.value ∉ before.map fun cell => cell.2.value := by
      intro hmem
      obtain ⟨cell, hcell, heq⟩ := List.mem_map.mp hmem
      exact hbefore cell.2 (List.mem_map_of_mem hcell) heq
    cases hstale : item.stale with
    | true =>
      refine fault ?_ (by rw [Sequence.perform, if_neg hsome, hfind]; simp [hstale])
      rw [Use.perform, hstands.listRemoveEntry_stale habsent hstale, Option.map_none]
    | false =>
      obtain ⟨m, l', hremove, hcurrent, hstands'⟩ := hstands.listRemoveEntry_present habsent hstale
      have hperform : (Use.listRemoveEntry item.value).perform list s.memory = some (.number 0, m) := by
        rw [Use.perform, hremove, Option.map_some]
      have hitems' : unlink item.value t.items = (before ++ severed after).map Prod.snd := by
        rw [hitems, List.map_append, List.map_cons, unlink_append hbefore, List.map_append, severed_snd]
      have hlength : t.items.length = (before ++ severed after).length + 1 := by
        rw [hitems, List.length_map, List.length_append, List.length_cons, List.length_append,
          length_severed, Nat.add_assoc]
      have hspec : t.perform (.listRemoveEntry item.value) =
          some (.number 0, (before ++ severed after).map Prod.snd,
            if (before ++ severed after).length = 0 then none else some 0) := by
        rw [Sequence.perform, if_neg hsome, hfind]
        simp only [hstale, hitems', hlength, Nat.add_eq_right]
        rfl
      refine h.answer hperform hspec hstands' ?_ ?_
      · rw [hcurrent, hstands'.segment.front_eq]
        cases before ++ severed after <;> rfl
      · intro i hi
        split at hi
        · cases hi
        · obtain rfl := Option.some.inj hi
          exact Nat.pos_of_ne_zero ‹_›

end Corresponds

/-- The linked list refines a sequence with a cursor, call for call. Of all sequences of
calls on a new list, the memory can follow exactly those that the sequence can: the others
go through a null pointer or through a link back that an earlier removal has left at a
freed node. -/
theorem session_refines (m : Lists) (uses : List Use) :
    Option.Rel (Refines (listInit m).2)
      (uses.foldlM (Session.step (listInit m).2) { memory := (listInit m).1, answers := [] })
      (uses.foldlM Sequence.step .empty) := by
  have hstep : ∀ s t use, Corresponds (listInit m).2 s t →
      Option.Rel (Corresponds (listInit m).2) (s.step (listInit m).2 use) (t.step use) := by
    intro s t use h
    cases use with
    | listAddEntry entry => exact h.listAddEntry entry
    | listRemoveEntry entry => exact h.listRemoveEntry entry
    | listFirstEntry => exact h.listFirstEntry
    | listNextEntry => exact h.listNextEntry
    | listEntries => exact h.listEntries
  have hrel := lockstep hstep (Corresponds.init m) uses
  generalize uses.foldlM (Session.step (listInit m).2) _ = left at hrel ⊢
  generalize uses.foldlM Sequence.step _ = right at hrel ⊢
  cases hrel with
  | some h => exact .some h.refines
  | none => exact .none

/-- The entry behind a removed one can be met, but no longer be removed. -/
example : [Use.listAddEntry (some 1), .listAddEntry (some 2), .listRemoveEntry (some 1), .listFirstEntry,
    .listRemoveEntry (some 2)].foldlM Sequence.step .empty = none := by decide

end speutils.linkedlist
