import SpeUtils.Ring.Machine
import SpeUtils.Lib.Queue

open cyclic run queue

namespace speutils.ring.machine

/-- `while (ringHasFree(ctx)) ringIncFront(ctx)`, with the number of turns it takes. -/
def fill : Nat → ring_context_s → Option Nat
  | 0, _ => none
  | fuel + 1, ctx => if ringHasFree ctx then (fill fuel (ringIncFront ctx)).map (· + 1) else some 0

/-- `while (ringHasRemaining(ctx)) ringIncBack(ctx)`, with the number of turns it
takes. -/
def drain : Nat → ring_context_s → Option Nat
  | 0, _ => none
  | fuel + 1, ctx => if ringHasRemaining ctx then (drain fuel (ringIncBack ctx)).map (· + 1) else some 0

/-- A ring over an array of slots, used as `fifoBegin` and `fifothread` use theirs: a
value is stored at the front before the front moves, and read at the back before the
back moves. -/
structure Buffer (A : Type*) where
  ctx : ring_context_s
  slots : Nat → A
  out : List A

def Buffer.step {A : Type*} (b : Buffer A) : Op A → Option (Buffer A)
  | .push value =>
    if ringHasFree b.ctx then
      some { b with
        slots := Function.update b.slots (ringGetFront b.ctx).toNat value
        ctx := ringIncFront b.ctx }
    else none
  | .pop =>
    if ringHasRemaining b.ctx then
      some { b with out := b.out ++ [b.slots (ringGetBack b.ctx).toNat], ctx := ringIncBack b.ctx }
    else none

section Positions

variable {size front back : Nat} {ctx : ring_context_s}

theorem front_lt (hat : At size front back ctx.toNat) (hsize : 0 < size) :
    ctx.front.toNat < ctx.size.toNat := by
  have hfront : ctx.front.toNat = front % size := hat.front_eq
  have heq : ctx.size.toNat = size := hat.size_eq
  rw [hfront, heq]
  exact Nat.mod_lt _ hsize

theorem back_lt (hat : At size front back ctx.toNat) (hsize : 0 < size) :
    ctx.back.toNat < ctx.size.toNat := by
  have hback : ctx.back.toNat = back % size := hat.back_eq
  have heq : ctx.size.toNat = size := hat.size_eq
  rw [hback, heq]
  exact Nat.mod_lt _ hsize

theorem incFront_at (hat : At size front back ctx.toNat) (hsize : 0 < size) :
    At size (front + 1) back (ringIncFront ctx).toNat := by
  rw [ringIncFront_toNat (front_lt hat hsize)]
  exact hat.incFront hsize

theorem incBack_at (hat : At size front back ctx.toNat) (hsize : 0 < size) :
    At size front (back + 1) (ringIncBack ctx).toNat := by
  rw [ringIncBack_toNat (back_lt hat hsize)]
  exact hat.incBack hsize

theorem hasFree_at (hat : At size front back ctx.toNat) (hle : back ≤ front)
    (hlap : front < back + size) : ringHasFree ctx = true ↔ front + 1 < back + size := by
  rw [ringHasFree_toNat (front_lt hat (by omega))]
  exact hat.hasFree_iff hle hlap

theorem hasRemaining_at (hat : At size front back ctx.toNat) (hle : back ≤ front)
    (hlap : front < back + size) : ringHasRemaining ctx = true ↔ back < front := by
  rw [ringHasRemaining_toNat]
  exact hat.hasRemaining_iff hle hlap

theorem fill_at (hat : At size front back ctx.toNat) (hle : back ≤ front) (hlap : front < back + size)
    {fuel : Nat} (hfuel : back + size - 1 - front < fuel) :
    fill fuel ctx = some (back + size - 1 - front) := by
  induction fuel generalizing front ctx with
  | zero => omega
  | succ fuel ih =>
    have hfree := hasFree_at hat hle hlap
    unfold fill
    by_cases hroom : front + 1 < back + size
    · rw [if_pos (hfree.mpr hroom), ih (incFront_at hat (by omega)) (by omega) hroom (by omega),
        Option.map_some]
      congr 1
      omega
    · rw [if_neg (fun h => hroom (hfree.mp h))]
      congr 1
      omega

theorem drain_at (hat : At size front back ctx.toNat) (hle : back ≤ front) (hlap : front < back + size)
    {fuel : Nat} (hfuel : front - back < fuel) : drain fuel ctx = some (front - back) := by
  induction fuel generalizing back ctx with
  | zero => omega
  | succ fuel ih =>
    have hremaining := hasRemaining_at hat hle hlap
    unfold drain
    by_cases hmore : back < front
    · rw [if_pos (hremaining.mpr hmore), ih (incBack_at hat (by omega)) hmore (by omega) (by omega),
        Option.map_some]
      congr 1
      omega
    · rw [if_neg (fun h => hmore (hremaining.mp h))]
      congr 1
      omega

end Positions

variable {A : Type*} {size : Nat} {b : Buffer A} {f : Fifo A}

/-- A ring of `size` slots that stands for a queue. The indices stay inside the
array, the slots from the back on hold the queue, the two tests tell whether it is
empty and whether it is one short of the size, and the two loops take the turns that
are left. -/
structure Refines (size : Nat) (b : Buffer A) (f : Fifo A) : Prop where
  front_lt : (ringGetFront b.ctx).toNat < size
  back_lt : (ringGetBack b.ctx).toNat < size
  out : b.out = f.out
  queue : f.items = window size b.slots (ringGetBack b.ctx).toNat f.items.length
  hasRemaining : ringHasRemaining b.ctx = true ↔ f.items ≠ []
  hasFree : ringHasFree b.ctx = true ↔ f.items.length < size - 1
  fill : ∀ fuel, size - 1 - f.items.length < fuel → fill fuel b.ctx = some (size - 1 - f.items.length)
  drain : ∀ fuel, f.items.length < fuel → drain fuel b.ctx = some f.items.length

/-- The same in terms of an unbounded position of the back. -/
structure Holds (size back : Nat) (b : Buffer A) (f : Fifo A) : Prop where
  position : At size (back + f.items.length) back b.ctx.toNat
  room : f.items.length < size
  out : b.out = f.out
  queue : f.items = window size b.slots back f.items.length

theorem Holds.refines {back : Nat} (h : Holds size back b f) : Refines size b f := by
  have hroom := h.room
  have hat := h.position
  have hsize : b.ctx.size.toNat = size := hat.size_eq
  have hback : (ringGetBack b.ctx).toNat = back % size := hat.back_eq
  refine ⟨hsize ▸ front_lt hat (by omega), hsize ▸ back_lt hat (by omega), h.out, ?_, ?_, ?_, ?_, ?_⟩
  · rw [hback]
    refine h.queue.trans ?_
    simp only [window, Nat.mod_add_mod]
  · rw [hasRemaining_at hat (by omega) (by omega), ← List.length_pos_iff]
    omega
  · rw [hasFree_at hat (by omega) (by omega)]
    omega
  · intro fuel hfuel
    have hturns : back + size - 1 - (back + f.items.length) = size - 1 - f.items.length := by omega
    rw [fill_at hat (by omega) (by omega) (by omega), hturns]
  · intro fuel hfuel
    rw [drain_at hat (by omega) (by omega) (by omega), Nat.add_sub_cancel_left]

theorem Holds.push {back : Nat} (h : Holds size back b f) (hfree : f.items.length + 1 < size) (value : A) :
    Holds size back
      { b with
        slots := Function.update b.slots (ringGetFront b.ctx).toNat value
        ctx := ringIncFront b.ctx }
      { f with items := f.items ++ [value] } := by
  have hfront : (ringGetFront b.ctx).toNat = (back + f.items.length) % size := h.position.front_eq
  refine ⟨?_, by simpa using hfree, h.out, ?_⟩
  · rw [List.length_append, List.length_singleton, ← Nat.add_assoc]
    exact incFront_at h.position (by omega)
  · rw [List.length_append, List.length_singleton, hfront, window_push h.room, ← h.queue]

theorem Holds.pop {back : Nat} {value : A} {rest : List A} (h : Holds size back b f)
    (hqueue : f.items = value :: rest) :
    Holds size (back + 1)
      { b with out := b.out ++ [b.slots (ringGetBack b.ctx).toNat], ctx := ringIncBack b.ctx }
      { items := rest, out := f.out ++ [value] } := by
  have hroom := h.room
  have hat := h.position
  have hslots := h.queue
  rw [hqueue, List.length_cons] at hroom hat hslots
  rw [window_pop, List.cons.injEq] at hslots
  have hback : (ringGetBack b.ctx).toNat = back % size := hat.back_eq
  refine ⟨?_, Nat.lt_of_succ_lt hroom, ?_, hslots.2⟩
  · have hposition : back + (rest.length + 1) = back + 1 + rest.length := by omega
    rw [hposition] at hat
    exact incBack_at hat (by omega)
  · rw [h.out, hback, hslots.1]

/-- The ring and the queue of one value less than its size accept the same
operations. -/
theorem Holds.lockstep {back : Nat} (h : Holds size back b f) (op : Op A) :
    Option.Rel (fun b f => ∃ back, Holds size back b f) (b.step op) (f.step (size - 1) op) := by
  have hrefines := h.refines
  cases op with
  | push value =>
    simp only [Buffer.step, Fifo.step, hrefines.hasFree]
    by_cases hfree : f.items.length < size - 1
    · rw [if_pos hfree, if_pos hfree]
      exact .some ⟨back, h.push (by omega) value⟩
    · rw [if_neg hfree, if_neg hfree]
      exact .none
  | pop =>
    simp only [Buffer.step, Fifo.step, hrefines.hasRemaining]
    cases hqueue : f.items with
    | nil => exact .none
    | cons value rest =>
      simp only [ne_eq, reduceCtorEq, not_false_eq_true, if_true]
      exact .some ⟨back + 1, h.pop hqueue⟩

/-- `ringInitContext` gives a ring for every size but zero. -/
theorem ringInitContext_eq {size : BitVec 32} (hsize : size ≠ 0) :
    ringInitContext size = some { back := 0, front := 0, size } := by
  rw [ringInitContext, if_neg hsize]

/-- The ring refines a bounded queue. `ringInitContext` succeeds for any size but zero,
and from the context that it gives or one that `ringReset` has reset, over any slots, the
ring and a queue of at most `size - 1` values accept the same sequences of operations and
go through corresponding states; and all values come out once and in order. -/
theorem ring_refines_fifo (size : BitVec 32) (hsize : size ≠ 0) :
    ∃ new, ringInitContext size = some new ∧
      ∀ start, start = new ∨ (∃ ctx, ctx.size = size ∧ ringReset ctx = start) →
        ∀ (slots : Nat → A) (ops : List (Op A)),
          Option.Rel (Refines size.toNat) (ops.foldlM Buffer.step { ctx := start, slots, out := [] })
            (ops.foldlM (Fifo.step (size.toNat - 1)) { items := [], out := [] }) ∧
          ∀ b, Reaches Buffer.step { ctx := start, slots, out := [] } ops b →
            ∃ f, Refines size.toNat b f ∧ b.out ++ f.items = ops.filterMap Fifo.pushed := by
  refine ⟨_, ringInitContext_eq hsize, ?_⟩
  intro start hstart slots ops
  have hpos : 0 < size.toNat := by
    rw [Nat.pos_iff_ne_zero]
    exact fun hzero => hsize (BitVec.eq_of_toNat_eq hzero)
  obtain rfl : start = { front := 0, back := 0, size } := by
    obtain rfl | ⟨ctx, rfl, rfl⟩ := hstart
    · rfl
    · rfl
  have hholds : Holds size.toNat 0 { ctx := { front := 0, back := 0, size }, slots, out := [] }
      { items := [], out := [] } := ⟨At.init size.toNat, hpos, rfl, rfl⟩
  have hrel := lockstep (R := fun b f => ∃ back, Holds size.toNat back b f)
    (fun b f op h => h.elim fun back hback => hback.lockstep op) ⟨0, hholds⟩ ops
  constructor
  · generalize ops.foldlM Buffer.step _ = left at hrel ⊢
    generalize ops.foldlM (Fifo.step (size.toNat - 1)) _ = right at hrel ⊢
    cases hrel with
    | some h =>
      obtain ⟨back, hback⟩ := h
      exact .some hback.refines
    | none => exact .none
  · intro b hrun
    obtain ⟨f, hspec, back, hback⟩ := hrun.of_lockstep hrel
    refine ⟨f, hback.refines, ?_⟩
    rw [hback.out, Fifo.out_append_items hspec]
    rfl

/-- Two values go through a ring of three slots, and the first has come out. -/
theorem ring_refines_fifo_twoPushes : ∃ new b f,
    ringInitContext 3 = some new ∧
      Reaches Buffer.step { ctx := new, slots := fun _ => 0, out := [] } [.push 7, .push 8, .pop] b ∧
      Refines 3 b f ∧ b.out = [7] ∧ b.out ++ f.items = [7, 8] := by
  obtain ⟨new, hnew, hall⟩ := ring_refines_fifo (A := Nat) 3 (by decide)
  obtain rfl : new = { front := 0, back := 0, size := 3 } := by
    rw [ringInitContext_eq (by decide)] at hnew
    exact (Option.some.inj hnew).symm
  have hvalue : ([Op.push 7, Op.push 8, Op.pop].foldlM Buffer.step
      { ctx := { front := 0, back := 0, size := 3 }, slots := fun _ => 0, out := [] }).map Buffer.out =
      some [7] := by decide +kernel
  obtain ⟨b, hrun, hout⟩ := exists_reaches_of_observe hvalue
  obtain ⟨f, hrefines, hitems⟩ := (hall _ (.inl rfl) (fun _ => 0) _).2 b hrun
  exact ⟨_, b, f, hnew, hrun, hrefines, hout, hitems⟩

end speutils.ring.machine
