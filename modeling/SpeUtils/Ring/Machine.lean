import SpeUtils.Ring

namespace speutils.ring.machine

/-- `struct ring_context_s` with its `uint32_t` fields. -/
structure ring_context_s where
  front : BitVec 32
  back : BitVec 32
  size : BitVec 32
  deriving DecidableEq, Repr

def ringInitContext (size : BitVec 32) : Option ring_context_s :=
  if size = 0 then none else some { back := 0, front := 0, size }

/-- The temporary `fplus` is an `int`. Both comparisons convert it back to
`uint32_t`, so only its 32 bits matter. -/
def ringHasFree (ctx : ring_context_s) : Bool :=
  let fplus := ctx.front + 1
  let fplus := if fplus ≥ ctx.size then 0 else fplus
  if fplus = ctx.back then false else true

def ringHasRemaining (ctx : ring_context_s) : Bool :=
  if ctx.front = ctx.back then false else true

def ringIncFront (ctx : ring_context_s) : ring_context_s :=
  let ctx := { ctx with front := ctx.front + 1 }
  if ctx.front ≥ ctx.size then { ctx with front := 0 } else ctx

def ringIncBack (ctx : ring_context_s) : ring_context_s :=
  let ctx := { ctx with back := ctx.back + 1 }
  if ctx.back ≥ ctx.size then { ctx with back := 0 } else ctx

def ringGetFront (ctx : ring_context_s) : BitVec 32 := ctx.front

def ringGetBack (ctx : ring_context_s) : BitVec 32 := ctx.back

def ringReset (ctx : ring_context_s) : ring_context_s :=
  { ctx with front := 0, back := 0 }

/-- The ring over natural numbers that a machine ring stands for. -/
def ring_context_s.toNat (ctx : ring_context_s) : ring.ring_context_s where
  front := ctx.front.toNat
  back := ctx.back.toNat
  size := ctx.size.toNat

section Agreement

variable {ctx : ring_context_s}

/-- An index below the size can be incremented without overflow. -/
theorem toNat_add_one {index size : BitVec 32} (hlt : index.toNat < size.toNat) :
    (index + 1).toNat = index.toNat + 1 := by
  have hsize := size.isLt
  rw [BitVec.toNat_add]
  exact Nat.mod_eq_of_lt (by simp; omega)

theorem ringIncFront_toNat (hfront : ctx.front.toNat < ctx.size.toNat) :
    (ringIncFront ctx).toNat = ring.ringIncFront ctx.toNat := by
  have hnext := toNat_add_one hfront
  simp only [ringIncFront, ring.ringIncFront, ring_context_s.toNat, ge_iff_le, BitVec.le_def, hnext]
  split
  · rfl
  · rw [hnext]

theorem ringIncBack_toNat (hback : ctx.back.toNat < ctx.size.toNat) :
    (ringIncBack ctx).toNat = ring.ringIncBack ctx.toNat := by
  have hnext := toNat_add_one hback
  simp only [ringIncBack, ring.ringIncBack, ring_context_s.toNat, ge_iff_le, BitVec.le_def, hnext]
  split
  · rfl
  · rw [hnext]

theorem ringHasFree_toNat (hfront : ctx.front.toNat < ctx.size.toNat) :
    ringHasFree ctx = ring.ringHasFree ctx.toNat := by
  have hnext := toNat_add_one hfront
  simp only [ringHasFree, ring.ringHasFree, ring_context_s.toNat, ge_iff_le, BitVec.le_def, hnext]
  by_cases hwrap : ctx.size.toNat ≤ ctx.front.toNat + 1
  · simp only [if_pos hwrap, ← BitVec.toNat_inj]
    rfl
  · simp only [if_neg hwrap, ← BitVec.toNat_inj, hnext]

theorem ringHasRemaining_toNat : ringHasRemaining ctx = ring.ringHasRemaining ctx.toNat := by
  unfold ringHasRemaining ring.ringHasRemaining ring_context_s.toNat
  by_cases hempty : ctx.front = ctx.back
  · simp [hempty]
  · simp [hempty, BitVec.toNat_inj]

end Agreement

end speutils.ring.machine
