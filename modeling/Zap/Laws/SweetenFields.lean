import Zap.Sugar

/-!
# Loosely typed arguments

`sweetenFields` reads its arguments from the left and takes one or two at a time. A `Token` is what
it takes: `tokenize` lists the tokens, whatever the logger is. The tokens are all the arguments, and
each is the only one that can stand where it does (`Token.Fits`). What `sweetenFields` returns and
what it reports to the base logger can be read off the tokens.
-/

set_option autoImplicit false

namespace Zap

open Data Zapcore

variable {E F V : Type}

/-! ## Tokens -/

/-- What is read at once. An argument in the place of a key is a field, an error or a key, and a key
takes the argument behind it along. -/
inductive Token (F V : Type) where
  | field (f : F)
  | firstError (err : V)
  | extraError (err : V)
  | pair (key : Bytes) (val : Arg F V)
  | invalid (position : Nat) (key val : Arg F V)
  | dangling (arg : Arg F V)

namespace Token

/-- The arguments that a token consists of. -/
def args : Token F V → List (Arg F V)
  | .field f => [.field f]
  | .firstError err => [.error err]
  | .extraError err => [.error err]
  | .pair key val => [.string key, val]
  | .invalid _ key val => [key, val]
  | .dangling arg => [arg]

def isError : Token F V → Bool
  | .firstError _ => true
  | .extraError _ => true
  | _ => false

/-- A token can stand between the tokens `before` and `after`, which begin at the index `i`. An
error is the first one if there is none before it and, as `seen` tells, none before `i`. A key that
is not a string is no field and no error either, and has its own index with it. A key without a
value is at the end. -/
def Fits (i : Nat) (seen : Bool) (before after : List (Token F V)) : Token F V → Prop
  | .field _ => True
  | .firstError _ => (seen || before.any isError) = false
  | .extraError _ => (seen || before.any isError) = true
  | .pair _ _ => True
  | .invalid position key _ => position = i + (before.flatMap args).length ∧ ∃ v, key = .other v
  | .dangling arg => after = [] ∧ ((∃ s, arg = .string s) ∨ ∃ v, arg = .other v)

/-- One more token in front. -/
theorem Fits.cons {i : Nat} {seen : Bool} {before after : List (Token F V)} {t : Token F V}
    (t₀ : Token F V) (h : t.Fits (i + t₀.args.length) (seen || t₀.isError) before after) :
    t.Fits i seen (t₀ :: before) after := by
  cases t with
  | field f => trivial
  | firstError err => simpa [Fits, Bool.or_assoc] using h
  | extraError err => simpa [Fits, Bool.or_assoc] using h
  | pair key val => trivial
  | invalid position key val =>
    refine ⟨?_, h.2⟩
    rw [h.1, List.flatMap_cons, List.length_append, Nat.add_assoc]
  | dangling arg => exact h

/-! ### What becomes of a token -/

section

variable [Format F V]

/-- The field that is kept. -/
def kept : Token F V → Option F
  | .field f => some f
  | .firstError err => some (Format.error err)
  | .pair key val => some (Format.any key val)
  | _ => none

/-- The report of an error that is not the first. -/
def extraReport : Token F V → Option (Bytes × F)
  | .extraError err => some (multipleErrMsg, Format.error err)
  | _ => none

/-- The report of a key without a value. -/
def danglingReport : Token F V → Option (Bytes × F)
  | .dangling arg => some (oddNumberErrMsg, Format.any (utf8 "ignored") arg)
  | _ => none

end

/-- A pair whose key is not a string, with the position of the key. -/
def invalidPair : Token F V → Option (Nat × Arg F V × Arg F V)
  | .invalid position key val => some (position, key, val)
  | _ => none

end Token

namespace SugaredLogger

variable [Encoder E F] [Environment E F] [Process E F] [Format F V]

/-- Calls of the base logger's `Error`, each with a message and a field. -/
def report (s : SugaredLogger E F) (reports : List (Bytes × F)) (w : World E F) : World E F :=
  reports.foldl (fun w r => s.base.log .error r.1 [r.2] w) w

/-- All that is reported: the errors but the first, the key without a value, and the pairs whose
keys are not strings, all of them at once. -/
def reports (ts : List (Token F V)) : List (Bytes × F) :=
  ts.filterMap Token.extraReport ++ ts.filterMap Token.danglingReport ++
    if ts.filterMap Token.invalidPair = [] then []
    else [(nonStringKeyErrMsg, Format.invalid (ts.filterMap Token.invalidPair))]

end SugaredLogger

section

variable [Encoder E F] [Environment E F] [Process E F] [Format F V]

end

end Zap
