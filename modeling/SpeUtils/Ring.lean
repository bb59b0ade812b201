import SpeUtils.Lib.Cyclic

open cyclic

namespace speutils.ring

/-- `struct ring_context_s`. The `uint32_t` fields hold ring indices, which are
below the size and therefore never overflow; they are natural numbers here. -/
structure ring_context_s where
  front : Nat
  back : Nat
  size : Nat
  deriving DecidableEq, Repr

/-- The context that `ringInitContext` fills in for a positive size. -/
def ring_context_s.init (size : Nat) : ring_context_s :=
  { front := 0, back := 0, size }

/-- A ring of size zero is the null pointer. -/
def ringInitContext (size : Nat) : Option ring_context_s :=
  if size = 0 then none else some (.init size)

def ringHasFree (ctx : ring_context_s) : Bool :=
  let fplus := ctx.front + 1
  let fplus := if fplus ≥ ctx.size then 0 else fplus
  if fplus = ctx.back then false else true

def ringHasRemaining (ctx : ring_context_s) : Bool :=
  if ctx.front = ctx.back then false else true

def ringIncFront (ctx : ring_context_s) : ring_context_s :=
  let ctx := { ctx with front := ctx.front + 1 }
  if ctx.front ≥ ctx.size then { ctx with front := 0 } else ctx

def ringIncBack (ctx : ring_context_s) : ring_context_s :=
  let ctx := { ctx with back := ctx.back + 1 }
  if ctx.back ≥ ctx.size then { ctx with back := 0 } else ctx

def ringGetFront (ctx : ring_context_s) : Nat := ctx.front

def ringGetBack (ctx : ring_context_s) : Nat := ctx.back

def ringReset (ctx : ring_context_s) : ring_context_s :=
  { ctx with front := 0, back := 0 }

theorem ringIncFront_eq (ctx : ring_context_s) :
    ringIncFront ctx = { ctx with front := next ctx.size ctx.front } := by
  simp only [ringIncFront, next]
  split <;> rfl

theorem ringIncBack_eq (ctx : ring_context_s) :
    ringIncBack ctx = { ctx with back := next ctx.size ctx.back } := by
  simp only [ringIncBack, next]
  split <;> rfl

@[simp] theorem ringIncFront_size (ctx : ring_context_s) : (ringIncFront ctx).size = ctx.size := by
  rw [ringIncFront_eq]

@[simp] theorem ringIncFront_back (ctx : ring_context_s) : (ringIncFront ctx).back = ctx.back := by
  rw [ringIncFront_eq]

@[simp] theorem ringIncBack_size (ctx : ring_context_s) : (ringIncBack ctx).size = ctx.size := by
  rw [ringIncBack_eq]

@[simp] theorem ringIncBack_front (ctx : ring_context_s) : (ringIncBack ctx).front = ctx.front := by
  rw [ringIncBack_eq]

theorem ringHasFree_iff (ctx : ring_context_s) :
    ringHasFree ctx = true ↔ next ctx.size ctx.front ≠ ctx.back := by
  simp [ringHasFree, next]

theorem ringHasRemaining_iff (ctx : ring_context_s) :
    ringHasRemaining ctx = true ↔ ctx.front ≠ ctx.back := by
  simp [ringHasRemaining]

/-- The ring indices of a producer at position `front` and a consumer at
position `back` of one unbounded queue. -/
structure At (size front back : Nat) (ctx : ring_context_s) : Prop where
  size_eq : ctx.size = size
  front_eq : ctx.front = front % size
  back_eq : ctx.back = back % size

section Positions

variable {size front back : Nat} {ctx : ring_context_s}

theorem At.init (size : Nat) : At size 0 0 (.init size) :=
  ⟨rfl, by simp [ring_context_s.init], by simp [ring_context_s.init]⟩

theorem At.incFront (hat : At size front back ctx) (hsize : 0 < size) :
    At size (front + 1) back (ringIncFront ctx) := by
  refine ⟨by simp [hat.size_eq], ?_, by simp [hat.back_eq]⟩
  rw [ringIncFront_eq, hat.size_eq, hat.front_eq, next_mod hsize]

theorem At.incBack (hat : At size front back ctx) (hsize : 0 < size) :
    At size front (back + 1) (ringIncBack ctx) := by
  refine ⟨by simp [hat.size_eq], by simp [hat.front_eq], ?_⟩
  rw [ringIncBack_eq, hat.size_eq, hat.back_eq, next_mod hsize]

/-- One slot always stays free: `ringHasFree` holds exactly while the queue is
shorter than the size less one. -/
theorem At.hasFree_iff (hat : At size front back ctx) (hle : back ≤ front)
    (hlap : front < back + size) : ringHasFree ctx = true ↔ front + 1 < back + size := by
  have hsize : 0 < size := by omega
  rw [ringHasFree_iff, hat.size_eq, hat.front_eq, hat.back_eq, next_mod hsize]
  constructor
  · intro hne
    by_contra hfull
    have heq : front + 1 = back + size := by omega
    exact hne (by rw [heq, Nat.add_mod_right])
  · intro hroom heq
    have := eq_of_mod_eq (by omega : back ≤ front + 1) hroom heq.symm
    omega

theorem At.hasRemaining_iff (hat : At size front back ctx) (hle : back ≤ front)
    (hlap : front < back + size) : ringHasRemaining ctx = true ↔ back < front := by
  rw [ringHasRemaining_iff, hat.front_eq, hat.back_eq]
  constructor
  · intro hne
    by_contra hempty
    have heq : front = back := by omega
    exact hne (by rw [heq])
  · intro hlt heq
    have := eq_of_mod_eq hle hlap heq.symm
    omega

end Positions

end speutils.ring
