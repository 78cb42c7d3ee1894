import Zap.Data.Pool
import Zap.Zapcore.Transcript

/-!
# Error arrays with pooled elements

`errArray.MarshalLogArray` of `zapcore/error.go` with its `_errArrayElemPool`. An error is wrapped in
an `errArrayElem`, an object that is taken out of a pool, and `MarshalLogObject` reads the error back
from there. A group that is an element of a group takes wrappers while the outer one is still in use.

`encodeError` leaves the wrappers out. Here they are, for an encoder whose own methods do not fail.
-/

set_option autoImplicit false

namespace Zap.Zapcore

open Data

/-- The `errArrayElem`s, by the error that each of them holds. Which of those that lie in the pool
`Get` takes, if any, is not known: the `n`-th call takes the one at `picks n`. -/
structure Wrappers where
  pool : Pool GoError
  picks : Nat → Nat
  gets : Nat

namespace Wrappers

/-- `newErrArrayElem`. -/
def newErrArrayElem (w : Wrappers) (err : GoError) : Nat × Wrappers :=
  let (el, pool) := w.pool.get (w.picks w.gets) .nil
  (el, { w with pool := pool.set el err, gets := w.gets + 1 })

/-- `el.Free()`. -/
def free (w : Wrappers) (el : Nat) : Wrappers :=
  { w with pool := (w.pool.set el .nil).put el }

theorem newErrArrayElem_err (w : Wrappers) (err : GoError) :
    (w.newErrArrayElem err).2.pool.object (w.newErrArrayElem err).1 = err :=
  Pool.object_set_self _ _ _

end Wrappers

/-- The calls of a run, the error it returns and the wrappers after it. -/
abbrev PooledRun (i : Interface) := Option (Transcript i × Option Bytes × Wrappers)

/-- `errArray.MarshalLogArray`; `encode` is `encodeError` with the key of an element. -/
def errArrayPooled (encode : GoError → Wrappers → PooledRun .object) :
    List GoError → Wrappers → PooledRun .array
  | [], w => some (.nil, none, w)
  | .nil :: errs, w => errArrayPooled encode errs w
  | err :: errs, w => do
    let (el, w) := w.newErrArrayElem err
    let (obj, e, w) ← encode (w.pool.object el) w
    let w := w.free el
    match e with
    | some msg => some (.appendObject obj .nil, some msg, w)
    | none => do
      let (arr, e, w) ← errArrayPooled encode errs w
      some (.appendObject obj arr, e, w)

/-- `encodeError`, for an error whose groups are nested less deep than `depth`. Only a group uses
wrappers. -/
def encodeErrorPooled : Nat → Bytes → GoError → Wrappers → PooledRun .object
  | 0, _, _, _ => none
  | depth + 1, key, .group _ (.returns basic) errors, w => do
    let (arr, e, w) ← errArrayPooled (encodeErrorPooled depth (utf8 "error")) errors w
    some (.add key (.prim (.string basic)) (.addArray (key ++ utf8 "Causes") arr .nil), e, w)
  | _ + 1, key, err, w => do
    let (c, e) ← (encodeError key err).transcript fun _ => none
    some (c, e, w)

end Zap.Zapcore
