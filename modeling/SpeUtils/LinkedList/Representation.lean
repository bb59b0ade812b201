import SpeUtils.LinkedList.Links
import SpeUtils.Lib.Run

open heap run

namespace speutils.linkedlist

/-- The calls that change a list. -/
inductive Call where
  | listAddEntry (entry : Ptr)
  | listRemoveEntry (entry : Ptr)
  deriving DecidableEq

namespace Call

/-- A call on the memory; it has no result when it follows an invalid pointer or does
not return. -/
def perform (list : Ptr) (m : Lists) : Call → Option Lists
  | .listAddEntry entry => linkedlist.listAddEntry entry list m
  | .listRemoveEntry entry => (linkedlist.listRemoveEntry entry list m).map Prod.snd

/-- A call on the sequence that the list stands for. -/
def refer (entries : List Ptr) : Call → List Ptr
  | .listAddEntry entry => entries ++ [entry]
  | .listRemoveEntry entry => entries.erase entry

end Call

/-- The sequence that a new list stands for after some calls. -/
def reference (calls : List Call) : List Ptr := calls.foldl Call.refer []

@[simp] theorem reference_snoc (calls : List Call) (call : Call) :
    reference (calls ++ [call]) = call.refer (reference calls) := by
  simp [reference]

def entryAt (nodes : Heap list_entry_s) (address : Nat) : Option Ptr :=
  (read nodes (some address)).map list_entry_s.entry

/-- A list represents a sequence: `path` are the addresses of its nodes. The last
field is about all nodes allocated from `base` on that are still live. -/
structure Represents (base : Nat) (nodes : Heap list_entry_s) (l : list_s) (path : List Nat)
    (entries : List Ptr) : Prop where
  forward : Follows nodes list_entry_s.next l.first path
  contents : path.map (entryAt nodes) = entries.map some
  backward : Follows nodes list_entry_s.previous l.last path.reverse
  final : l.last = path.getLast?
  first_null : l.first = none ↔ entries = []
  last_null : l.last = none ↔ entries = []
  length : l.entries = entries.length
  links : ∀ address node, base ≤ address → read nodes (some address) = some node →
    (node.previous = none ∨ ∃ value, read nodes node.previous = some value) ∧
      (node.next = none ∨ ∃ value, read nodes node.next = some value)

/-- After each of some calls on a new list the list represents its reference
sequence, and a removal reports whether the entry was there. -/
structure Keeps (m : Lists) (calls : List Call) : Prop where
  represents : ∀ done, done <+: calls → ∃ m' l path,
    Reaches (Call.perform (listInit m).2) (listInit m).1 done m' ∧
      read m'.lists (listInit m).2 = some l ∧
      Represents m.nodes.length m'.nodes l path (reference done)
  returns : ∀ done entry, done ++ [.listRemoveEntry entry] <+: calls → ∃ m' m'',
    Reaches (Call.perform (listInit m).2) (listInit m).1 done m' ∧
      listRemoveEntry entry (listInit m).2 m' = some (if entry ∈ reference done then 0 else -1, m'')

/-- Every removal finds a list with nodes, and no node but the last one carries the
entry. -/
def RemovesLast (calls : List Call) : Prop :=
  ∀ done entry, done ++ [.listRemoveEntry entry] <+: calls →
    reference done ≠ [] ∧ entry ∉ (reference done).dropLast

namespace Linked

variable {base : Nat} {list : Ptr} {m : Lists} {l : list_s} {path before after : List (Nat × Ptr)}
  {address : Nat} {entry : Ptr}

theorem forward (h : Linked base list m l path) (hpath : path = before ++ after) :
    Follows m.nodes list_entry_s.next (front after) (after.map Prod.fst) := by
  induction after generalizing before with
  | nil => rfl
  | cons node after ih =>
    have hnext : path = before ++ [node] ++ after := by simpa using hpath
    exact ⟨rfl, _, h.node before node.1 node.2 after hpath, ih hnext⟩

theorem backward (h : Linked base list m l path) (hpath : path = before ++ after) :
    Follows m.nodes list_entry_s.previous (rear before) (before.map Prod.fst).reverse := by
  induction before using List.reverseRecOn generalizing after with
  | nil => rfl
  | append_singleton before node ih =>
    have hnode : path = before ++ (node.1, node.2) :: after := by simpa using hpath
    rw [List.map_append, List.reverse_append]
    exact ⟨rear_snoc before node, _, by rw [rear_snoc]; exact h.node _ _ _ _ hnode, ih hnode⟩

theorem entryAt_eq (h : Linked base list m l path) {node : Nat × Ptr} (hmem : node ∈ path) :
    entryAt m.nodes node.1 = some node.2 := by
  obtain ⟨before, after, hpath⟩ := List.append_of_mem hmem
  simp [entryAt, h.node before node.1 node.2 after hpath]

theorem represents (h : Linked base list m l path) :
    Represents base m.nodes l (path.map Prod.fst) (path.map Prod.snd) := by
  have hempty : ∀ p : Ptr, (p = front path ∨ p = rear path) → (p = none ↔ path = []) := by
    rintro p (rfl | rfl)
    · simp [front]
    · simp [rear]
  refine ⟨?_, ?_, ?_, ?_, ?_, ?_, ?_, ?_⟩
  · rw [h.first]
    exact h.forward (List.nil_append path).symm
  · rw [List.map_map, List.map_map]
    apply List.map_congr_left
    intro node hnode
    exact h.entryAt_eq hnode
  · rw [h.last]
    exact h.backward (List.append_nil path).symm
  · rw [h.last, rear, List.getLast?_map]
  · rw [hempty _ (.inl h.first), List.map_eq_nil_iff]
  · rw [hempty _ (.inr h.last), List.map_eq_nil_iff]
  · rw [h.entries, List.length_map]
  · intro address node hbase hread
    obtain ⟨⟨_, entry⟩, hmem, rfl⟩ := List.mem_map.mp (h.live address node hbase hread)
    obtain ⟨before, after, hpath⟩ := List.append_of_mem hmem
    rw [h.node before _ entry after hpath] at hread
    obtain rfl := Option.some.inj hread
    constructor
    · cases before using List.reverseRecOn with
      | nil => exact .inl rfl
      | append_singleton before neighbour _ =>
        right
        simp only [rear_snoc]
        exact h.exists_read (by simp [hpath])
    · cases after with
      | nil => exact .inl rfl
      | cons neighbour after =>
        right
        exact h.exists_read (by simp [hpath])

theorem init (m : Lists) : Linked m.nodes.length (listInit m).2 (listInit m).1
    { first := none, last := none, current := none, entries := 0 } [] := by
  refine ⟨read_alloc_self _ _, rfl, rfl, rfl, ?_, List.nodup_nil, ?_, ?_, Nat.le_refl _⟩
  · intro before address entry after hpath
    simp at hpath
  · intro address hmem
    simp at hmem
  · intro address value hbase hread
    exact absurd (lt_length_of_read hread) (Nat.not_lt.mpr hbase)

/-- The cursor is no part of the links. -/
theorem cursor_linked (h : Linked base list m l path) (current : Ptr) :
    Linked base list (cursor list m l current) { l with current } path :=
  ⟨h.read_cursor current, h.first, h.last, h.entries, h.node, h.nodup, h.own, h.live, h.base_le⟩

/-- The removal of the last node leaves all links intact. -/
theorem listRemoveEntry_last (h : Linked base list m l (before ++ [(address, entry)]))
    (habsent : entry ∉ before.map Prod.snd) : ∃ m' l',
    listRemoveEntry entry list m = some (0, m') ∧ Linked base list m' l' before := by
  obtain ⟨nodes, hunlinked, hremove⟩ := h.listRemoveEntry_present rfl habsent
  rw [List.append_nil] at hremove
  have hsplit : ∀ {earlier : List (Nat × Ptr)} {node : Nat × Ptr} {later : List (Nat × Ptr)},
      before = earlier ++ node :: later →
        before ++ [(address, entry)] = earlier ++ node :: (later ++ [(address, entry)]) := by
    intro earlier node later hbefore
    simp [hbefore]
  refine ⟨_, { first := front before, last := rear before, current := front before, entries := l.entries - 1 },
    hremove, read_write_self h.header, rfl, rfl, ?_, ?_, ?_, ?_, ?_, ?_⟩
  · simp [h.entries]
  · intro earlier other carried later hbefore
    cases later using List.reverseRecOn with
    | nil => exact hunlinked.bypassed earlier other carried hbefore
    | append_singleton later last _ =>
      have hnode := h.node _ _ _ _ (hsplit hbefore)
      have hother : other ≠ address := by
        rintro rfl
        exact (h.not_mem (hsplit hbefore)).2 (by simp)
      have hrear : some other ≠ rear before := by
        have hlast : rear before = some last.1 := by
          rw [hbefore, ← List.cons_append, ← List.append_assoc, rear_snoc]
        rw [hlast]
        intro heq
        cases heq
        exact (h.not_mem (hsplit hbefore)).2 (by simp)
      rw [hunlinked.kept other hrear hother, hnode]
      cases later <;> rfl
  · have hnodup := h.nodup
    rw [List.map_append] at hnodup
    exact (List.nodup_append.mp hnodup).1
  · intro other hmem
    exact h.own other (by rw [List.map_append]; exact List.mem_append_left _ hmem)
  · intro other value hbase hread
    have hother : other ≠ address := by
      rintro rfl
      rw [hunlinked.freed] at hread
      cases hread
    by_cases hrear : some other = rear before
    · obtain ⟨last, hlast, rfl⟩ := Option.map_eq_some_iff.mp hrear.symm
      exact List.mem_map_of_mem (List.mem_of_getLast? hlast)
    · rw [hunlinked.kept other hrear hother] at hread
      have hmem := h.live other value hbase hread
      rw [List.map_append, List.mem_append] at hmem
      exact hmem.resolve_right (by simpa using hother)
  · rw [hunlinked.length]
    exact h.base_le

/-- After any other removal the node behind the freed one still links to it. -/
theorem listRemoveEntry_stale (h : Linked base list m l path)
    (hpath : path = before ++ (address, entry) :: after) (hafter : after ≠ [])
    (habsent : entry ∉ before.map Prod.snd) : ∃ m' other node,
    listRemoveEntry entry list m = some (0, m') ∧ base ≤ other ∧
      read m'.nodes (some other) = some node ∧ node.previous = some address ∧
      read m'.nodes (some address) = none := by
  obtain ⟨nodes, hunlinked, hremove⟩ := h.listRemoveEntry_present hpath habsent
  obtain ⟨⟨other, carried⟩, after, rfl⟩ := List.exists_cons_of_ne_nil hafter
  have hsplit : path = (before ++ [(address, entry)]) ++ (other, carried) :: after := by simpa using hpath
  have hmem := h.not_mem hsplit
  have hother : other ≠ address := by
    rintro rfl
    exact hmem.1 (by simp)
  have hrear : some other ≠ rear before := by
    refine ne_rear_of_not_mem fun hbefore => hmem.1 ?_
    rw [List.map_append]
    exact List.mem_append_left _ hbefore
  refine ⟨_, other, { previous := rear (before ++ [(address, entry)]), next := front after, entry := carried },
    hremove, h.own other (by simp [hpath]), ?_, rear_snoc _ _, hunlinked.freed⟩
  rw [hunlinked.kept other hrear hother, h.node _ _ _ _ hsplit]

/-- A removal that finds the entry at the end or not at all. -/
theorem listRemoveEntry_intact (h : Linked base list m l path) (hne : path ≠ [])
    (hlast : entry ∉ (path.map Prod.snd).dropLast) : ∃ m' l' path',
    listRemoveEntry entry list m = some (if entry ∈ path.map Prod.snd then 0 else -1, m') ∧
      Linked base list m' l' path' ∧ path'.map Prod.snd = (path.map Prod.snd).erase entry := by
  obtain ⟨before, ⟨address, carried⟩, rfl⟩ := (List.eq_nil_or_concat' path).resolve_left hne
  have hbefore : entry ∉ before.map Prod.snd := by simpa using hlast
  by_cases hcarried : carried = entry
  · subst hcarried
    obtain ⟨m', l', hremove, hlinked⟩ := h.listRemoveEntry_last hbefore
    refine ⟨m', l', before, ?_, hlinked, ?_⟩
    · rw [hremove, if_pos (by simp)]
    · rw [List.map_append, List.erase_append_right _ hbefore]
      simp
  · have habsent : entry ∉ (before ++ [(address, carried)]).map Prod.snd := by
      simp only [List.map_append, List.mem_append, not_or]
      exact ⟨hbefore, by simpa using Ne.symm hcarried⟩
    refine ⟨_, _, _, ?_, h.cursor_linked l.last, ?_⟩
    · rw [h.listRemoveEntry_absent hne habsent, if_neg habsent]
    · rw [List.erase_of_not_mem habsent]

end Linked

theorem RemovesLast.initial {calls done : List Call} (h : RemovesLast calls) (hdone : done <+: calls) :
    RemovesLast done :=
  fun earlier entry hearlier => h earlier entry (hearlier.trans hdone)

/-- Removals at the end keep all links intact. -/
theorem RemovesLast.linked {calls : List Call} (h : RemovesLast calls) (m : Lists) : ∃ m' l path,
    Reaches (Call.perform (listInit m).2) (listInit m).1 calls m' ∧
      Linked m.nodes.length (listInit m).2 m' l path ∧ path.map Prod.snd = reference calls := by
  induction calls using List.reverseRecOn with
  | nil => exact ⟨_, _, _, reaches_nil.mpr rfl, .init m, rfl⟩
  | append_singleton calls call ih =>
    obtain ⟨m', l, path, hrun, hlinked, hpath⟩ := ih (h.initial (List.prefix_append _ _))
    cases call with
    | listAddEntry entry =>
      obtain ⟨m'', l', hadd, hlinked'⟩ := hlinked.listAddEntry entry
      refine ⟨m'', l', _, reaches_snoc.mpr ⟨m', hrun, hadd⟩, hlinked', ?_⟩
      simp [hpath, Call.refer]
    | listRemoveEntry entry =>
      obtain ⟨hsome, hentry⟩ := h calls entry (List.prefix_refl _)
      rw [← hpath] at hsome hentry
      obtain ⟨m'', l', path', hremove, hlinked', hpath'⟩ :=
        hlinked.listRemoveEntry_intact (by simpa using hsome) hentry
      refine ⟨m'', l', path', reaches_snoc.mpr ⟨m', hrun, ?_⟩, hlinked', ?_⟩
      · simp [Call.perform, hremove]
      · rw [hpath', hpath, reference_snoc]
        rfl

theorem reference_adds (adds : List Ptr) : reference (adds.map .listAddEntry) = adds := by
  induction adds using List.reverseRecOn with
  | nil => rfl
  | append_singleton adds entry ih =>
    rw [List.map_append, List.map_cons, List.map_nil, reference_snoc, ih]
    rfl

/-- A list that was built by adding entries. -/
theorem exists_linked_adds (m : Lists) (adds : List Ptr) : ∃ m' l path,
    Reaches (Call.perform (listInit m).2) (listInit m).1 (adds.map .listAddEntry) m' ∧
      Linked m.nodes.length (listInit m).2 m' l path ∧ path.map Prod.snd = adds := by
  have hremoves : RemovesLast (adds.map .listAddEntry) := by
    intro done entry hdone
    have hmem : Call.listRemoveEntry entry ∈ adds.map Call.listAddEntry := hdone.subset (by simp)
    simp at hmem
  obtain ⟨m', l, path, hrun, hlinked, hpath⟩ := hremoves.linked m
  exact ⟨m', l, path, hrun, hlinked, by rw [hpath, reference_adds]⟩

theorem RemovesLast.keeps {calls : List Call} (h : RemovesLast calls) (m : Lists) : Keeps m calls := by
  constructor
  · intro done hdone
    obtain ⟨m', l, path, hrun, hlinked, hpath⟩ := (h.initial hdone).linked m
    exact ⟨m', l, _, hrun, hlinked.header, hpath ▸ hlinked.represents⟩
  · intro done entry hdone
    obtain ⟨m', l, path, hrun, hlinked, hpath⟩ := (h.initial ((List.prefix_append _ _).trans hdone)).linked m
    obtain ⟨hsome, hentry⟩ := h done entry hdone
    rw [← hpath] at hsome hentry
    obtain ⟨m'', _, _, hremove, _⟩ := hlinked.listRemoveEntry_intact (by simpa using hsome) hentry
    exact ⟨m', m'', hrun, hpath ▸ hremove⟩

theorem Keeps.initial {m : Lists} {calls done : List Call} (h : Keeps m calls) (hdone : done <+: calls) :
    Keeps m done :=
  ⟨fun earlier hearlier => h.represents earlier (hearlier.trans hdone),
    fun earlier entry hearlier => h.returns earlier entry (hearlier.trans hdone)⟩

/-- The first node that carries an entry. -/
theorem exists_first_node {path : List (Nat × Ptr)} {entry : Ptr} (hentry : entry ∈ path.map Prod.snd) :
    ∃ before address after, path = before ++ (address, entry) :: after ∧ entry ∉ before.map Prod.snd := by
  induction path with
  | nil => simp at hentry
  | cons node path ih =>
    obtain ⟨address, carried⟩ := node
    by_cases hcarried : carried = entry
    · exact ⟨[], address, path, by rw [hcarried, List.nil_append], by simp⟩
    · rw [List.map_cons, List.mem_cons] at hentry
      obtain ⟨before, address', after, rfl, habsent⟩ := ih (hentry.resolve_left (Ne.symm hcarried))
      refine ⟨(address, carried) :: before, address', after, rfl, ?_⟩
      simp only [List.map_cons, List.mem_cons, not_or]
      exact ⟨Ne.symm hcarried, habsent⟩

/-- After each call on a new list the list represents its reference sequence exactly
when no removal is made on an empty list or finds its entry before the last node. -/
theorem keeps_iff_removesLast (m : Lists) (calls : List Call) : Keeps m calls ↔ RemovesLast calls := by
  refine ⟨?_, fun h => h.keeps m⟩
  induction calls using List.reverseRecOn with
  | nil =>
    intro _ done entry hdone
    simp at hdone
  | append_singleton calls call ih =>
    intro hkeeps
    have hearlier := ih (hkeeps.initial (List.prefix_append _ _))
    intro done entry hdone
    obtain heq | hdone := List.prefix_concat_iff.mp hdone
    · obtain ⟨rfl, hcall⟩ := List.append_inj' heq rfl
      obtain rfl : Call.listRemoveEntry entry = call := by simpa using hcall
      -- Up to here the links are intact, so the removal can be followed.
      obtain ⟨m', l, path, hrun, hlinked, hpath⟩ := hearlier.linked m
      obtain ⟨before, m'', hbefore, hreturns⟩ := hkeeps.returns done entry (List.prefix_refl _)
      obtain rfl := hrun.unique hbefore
      have hsome : path ≠ [] := by
        rintro rfl
        rw [hlinked.listRemoveEntry_empty] at hreturns
        cases hreturns
      rw [← hpath]
      refine ⟨by simpa using hsome, ?_⟩
      intro hentry
      obtain ⟨first, address, rest, hsplit, habsent⟩ := exists_first_node (List.mem_of_mem_dropLast hentry)
      have hrest : rest ≠ [] := by
        rintro rfl
        rw [hsplit, List.map_append, List.map_cons, List.map_nil, List.dropLast_concat] at hentry
        exact habsent hentry
      obtain ⟨removed, other, node, hremove, hown, hread, hprevious, hfreed⟩ :=
        hlinked.listRemoveEntry_stale hsplit hrest habsent
      obtain ⟨final, l', path', hfinal, _, hrepresents⟩ := hkeeps.represents _ (List.prefix_refl _)
      have hstep : Reaches (Call.perform (listInit m).2) (listInit m).1
          (done ++ [.listRemoveEntry entry]) removed :=
        reaches_snoc.mpr ⟨m', hrun, by simp [Call.perform, hremove]⟩
      obtain rfl := hstep.unique hfinal
      obtain ⟨hnull | ⟨value, hvalue⟩, _⟩ := hrepresents.links other node hown hread
      · rw [hprevious] at hnull
        cases hnull
      · rw [hprevious, hfreed] at hvalue
        cases hvalue
    · exact hearlier done entry hdone

/-- Two entries and the removal of the first: the second one's node still links to the
freed node. -/
def twoEntries : List Call := [.listAddEntry (some 1), .listAddEntry (some 2), .listRemoveEntry (some 1)]

theorem twoEntries_stale : ∃ m node,
    Reaches (Call.perform (listInit ⟨[], []⟩).2) (listInit ⟨[], []⟩).1 twoEntries m ∧
      reference twoEntries = [some 2] ∧ read m.nodes (some 1) = some node ∧
      node.entry = some 2 ∧ node.previous = some 0 ∧ read m.nodes (some 0) = none ∧
      ¬ Keeps ⟨[], []⟩ twoEntries ∧
      listRemoveEntry (some 7) (listInit ⟨[], []⟩).2 (listInit ⟨[], []⟩).1 = none := by
  let m : Lists := {
    lists := [some { first := some 1, last := some 1, current := some 1, entries := 1 }]
    nodes := [none, some { previous := some 0, next := none, entry := some 2 }] }
  have hrun : Reaches (Call.perform (listInit ⟨[], []⟩).2) (listInit ⟨[], []⟩).1 twoEntries m := by
    unfold Reaches
    decide
  refine ⟨m, { previous := some 0, next := none, entry := some 2 }, hrun, by decide, rfl, rfl, rfl, rfl, ?_, rfl⟩
  intro hkeeps
  obtain ⟨m', l, path, hrun', _, hrepresents⟩ := hkeeps.represents twoEntries (List.prefix_refl _)
  obtain rfl := hrun.unique hrun'
  obtain ⟨hnull | ⟨value, hvalue⟩, _⟩ := hrepresents.links 1 _ (Nat.zero_le _) rfl
  · cases hnull
  · cases hvalue

end speutils.linkedlist
