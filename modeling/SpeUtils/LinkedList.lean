import SpeUtils.Lib.Heap

open heap

namespace speutils.linkedlist

/-- `struct list_entry_s`. -/
structure list_entry_s where
  previous : Ptr
  next : Ptr
  entry : Ptr
  deriving DecidableEq, Repr

/-- `struct list_s`. -/
structure list_s where
  first : Ptr
  last : Ptr
  current : Ptr
  entries : Int
  deriving DecidableEq, Repr

/-- The memory that the list functions work on. -/
structure Lists where
  lists : Heap list_s
  nodes : Heap list_entry_s
  deriving DecidableEq, Repr

def listInit (m : Lists) : Lists × Ptr :=
  let (lists, list) := alloc m.lists { first := none, last := none, current := none, entries := 0 }
  ({ m with lists }, list)

def listAddEntry (entry list : Ptr) (m : Lists) : Option Lists := do
  let (nodes, listentry) := alloc m.nodes { previous := none, next := none, entry }
  let l ← read m.lists list
  if l.first = none then
    return { lists := write m.lists list { l with
               first := listentry, last := listentry, entries := l.entries + 1 }
             nodes }
  else
    let node ← read nodes listentry
    let nodes := write nodes listentry { node with previous := l.last }
    let tail ← read nodes l.last
    return { lists := write m.lists list { l with last := listentry, entries := l.entries + 1 }
             nodes := write nodes l.last { tail with next := listentry } }

/-- The loop of `listRemoveEntry`, which reports whether it was left by `break`. The
nodes do not change in it, so after as many turns as there are nodes it would meet one
again and never end. -/
def seek (entry list : Ptr) : Nat → Lists → Option (Bool × Lists)
  | 0, _ => none
  | fuel + 1, m => do
    let l ← read m.lists list
    let node ← read m.nodes l.current
    if node.entry = entry then return (true, m)
    else if l.current = l.last then return (false, m)
    else seek entry list fuel { m with lists := write m.lists list { l with current := node.next } }

/-- The statement `if (list->current->previous != NULL)` of `listRemoveEntry`. -/
def bypass (nodes : Heap list_entry_s) (node : list_entry_s) : Option (Heap list_entry_s) :=
  if node.previous ≠ none then do
    let before ← read nodes node.previous
    return write nodes node.previous { before with next := node.next }
  else return nodes

/-- What `listRemoveEntry` does to the list itself once the cursor is at the node. -/
def list_s.dropCurrent (l : list_s) (node : list_entry_s) : list_s :=
  let l := if l.current = l.last then { l with last := node.previous } else l
  let l := if l.current = l.first then { l with first := node.next } else l
  { l with current := l.first, entries := l.entries - 1 }

def listRemoveEntry (entry list : Ptr) (m : Lists) : Option (Int × Lists) := do
  let l ← read m.lists list
  let m := { m with lists := write m.lists list { l with current := l.first } }
  let (found, m) ← seek entry list m.nodes.length m
  if !found then return (-1, m)
  else
    let l ← read m.lists list
    let node ← read m.nodes l.current
    let nodes ← bypass m.nodes node
    let node ← read nodes l.current
    return (0, { lists := write m.lists list (l.dropCurrent node), nodes := free nodes l.current })

/-- `listFirstEntry`. An empty list has no first node to follow. -/
def listFirstEntry (list : Ptr) (m : Lists) : Option (Ptr × Lists) := do
  let l ← read m.lists list
  let m := { m with lists := write m.lists list { l with current := l.first } }
  let node ← read m.nodes l.first
  return (node.entry, m)

def listNextEntry (list : Ptr) (m : Lists) : Option (Ptr × Lists) := do
  let l ← read m.lists list
  let node ← read m.nodes l.current
  let m := { m with lists := write m.lists list { l with current := node.next } }
  if node.next = none then return (none, m)
  else
    let following ← read m.nodes node.next
    return (following.entry, m)

/-- The entries met on following `next` from a node, for as many nodes as there are
at most. -/
def entriesFrom (nodes : Heap list_entry_s) : Nat → Ptr → List Ptr
  | 0, _ => []
  | fuel + 1, p =>
    match read nodes p with
    | none => []
    | some node => node.entry :: entriesFrom nodes fuel node.next

/-- The entries of a list in order. There is no list behind a null pointer. -/
def entries (list : Ptr) (m : Lists) : List Ptr :=
  match read m.lists list with
  | none => []
  | some l => entriesFrom m.nodes m.nodes.length l.first

end speutils.linkedlist
