import Mathlib.Algebra.Order.Ring.Int

/-!
The parts of Go's run time that the broker's behaviour depends on: 64-bit
integers, clock readings and durations, and the panics of the operations that
the code does not guard.
-/
namespace Flux.GoRuntime

/-- The values of Go's 64-bit `int` and `int64`. -/
def InInt64 (n : Int) : Prop := -2 ^ 63 ≤ n ∧ n < 2 ^ 63

instance (n : Int) : Decidable (InInt64 n) := by
  unfold InInt64
  infer_instance

def wrap64 (n : Int) : Int := Int.bmod n (2 ^ 64)

/-- A reading of the wall clock in nanoseconds since 1970. -/
abbrev Time := Int

/-- The zero `time.Time` is the first instant of the year 1. -/
def zeroTime : Time := -62135596800000000000

/-- `time.Time.UnixMilli` -/
def unixMilli (t : Time) : Int := wrap64 (t / 1000000)

/-- `time.Time.Sub` saturates at the limits of a `time.Duration`. -/
def timeSub (t u : Time) : Int := max (-2 ^ 63) (min (2 ^ 63 - 1) (t - u))

inductive Panic
  | indexOutOfRange
  | sliceBounds
  | makeCap
  | divideByZero
  deriving DecidableEq, Repr

/-- The size of a Go `int`. -/
def intSize : Int := 8

def maxAlloc : Int := 2 ^ 48

/-- `make([]T, 0, n)` for elements of `size` bytes: the capacity is checked. -/
def makeCap (size n : Int) : Except Panic Unit :=
  if n < 0 ∨ maxAlloc < size * n then .error .makeCap else .ok ()

/-- `l[from:]` -/
def sliceFrom {α : Type} (l : List α) (start : Int) : Except Panic (List α) :=
  if start < 0 ∨ (l.length : Int) < start then .error .sliceBounds else .ok (l.drop start.toNat)

def index {α : Type} (l : List α) (i : Int) : Except Panic α :=
  if i < 0 then .error .indexOutOfRange
  else
    match l[i.toNat]? with
    | none => .error .indexOutOfRange
    | some a => .ok a

def goMod (m n : Int) : Except Panic Int :=
  if n = 0 then .error .divideByZero else .ok (m.tmod n)

theorem wrap64_of_inInt64 {n : Int} (h : InInt64 n) : wrap64 n = n := by
  unfold InInt64 at h
  exact Int.bmod_eq_of_le (by omega) (by omega)

theorem wrap64_inInt64 (n : Int) : InInt64 (wrap64 n) := by
  unfold wrap64 InInt64
  have hlo := Int.le_bmod (x := n) (m := 2 ^ 64) (by omega)
  have hhi := Int.bmod_lt (x := n) (m := 2 ^ 64) (by omega)
  omega

theorem unixMilli_inInt64 (t : Time) : InInt64 (unixMilli t) := wrap64_inInt64 _

end Flux.GoRuntime
