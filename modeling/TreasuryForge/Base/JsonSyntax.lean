/-
# `Base.JsonSyntax` — JSON texts, and a scanner that reads them a character at a time

`Tree` is a JSON text without its white space: numbers are kept as they are spelled
(`Numeral`), strings as UTF-16 code units, which is what `\uXXXX` spells, and objects as lists
of members, in which a name may come twice.  `Tree.render` writes one in printable ASCII, with
or without a space after each separator.

`step` reads one character.  Its state is a stack of open arrays and objects and what it is in
the middle of; `scan` is a run of it over a text.
-/
import Mathlib.Data.List.Basic
import Mathlib.Data.Fintype.Basic

namespace JsonText

/-! ## Trees -/

/-- The constants, and the three floats that have no digits. -/
inductive Word where
  | null
  | true
  | false
  | nan
  | infinity
  | minusInfinity
  deriving DecidableEq, Repr

def Word.text : Word → List Char
  | .null => ['n', 'u', 'l', 'l']
  | .true => ['t', 'r', 'u', 'e']
  | .false => ['f', 'a', 'l', 's', 'e']
  | .nan => ['N', 'a', 'N']
  | .infinity => ['I', 'n', 'f', 'i', 'n', 'i', 't', 'y']
  | .minusInfinity => ['-', 'I', 'n', 'f', 'i', 'n', 'i', 't', 'y']

/-- A sign may come first. -/
def unsigned : List Char → List Char
  | '-' :: cs => cs
  | cs => cs

/-- Digits with no zero before them. -/
def isWhole (ds : List Char) : Bool := ds == ['0'] || (ds != [] && ds.head? != some '0')

def isExponent : List Char → Bool
  | [] => true
  | e :: cs =>
      let ds := match cs with
        | '+' :: ds => ds
        | '-' :: ds => ds
        | ds => ds
      (e == 'e' || e == 'E') && ds != [] && ds.all Char.isDigit

/-- What may follow the whole part. -/
def isTail : List Char → Bool
  | '.' :: cs => cs.takeWhile Char.isDigit != [] && isExponent (cs.dropWhile Char.isDigit)
  | cs => isExponent cs

def isNumber (cs : List Char) : Bool :=
  isWhole ((unsigned cs).takeWhile Char.isDigit) && isTail ((unsigned cs).dropWhile Char.isDigit)

/-- A number, as it is spelled. -/
structure Numeral where
  text : List Char
  ok : isNumber text = true
  deriving DecidableEq

/-- It has neither a fraction nor an exponent. -/
def Numeral.isInteger (n : Numeral) : Bool := (unsigned n.text).all Char.isDigit

abbrev CodeUnit := Fin 0x10000

inductive Tree where
  | word (w : Word)
  | num (n : Numeral)
  | str (us : List CodeUnit)
  | arr (ts : List Tree)
  | obj (ms : List (List CodeUnit × Tree))

/-! ## Writing -/

def hexDigit (d : Fin 16) : Char :=
  if d < 10 then Char.ofNat (0x30 + d) else Char.ofNat (0x61 + (d - 10))

/-- The four hexadecimal digits of a code unit. -/
def hexDigits (u : CodeUnit) : List (Fin 16) :=
  [⟨u / 4096, by omega⟩, ⟨u / 256 % 16, by omega⟩, ⟨u / 16 % 16, by omega⟩, ⟨u % 16, by omega⟩]

def escape (u : CodeUnit) : List Char :=
  if u = 0x22 then ['\\', '"']
  else if u = 0x5c then ['\\', '\\']
  else if u = 0x08 then ['\\', 'b']
  else if u = 0x09 then ['\\', 't']
  else if u = 0x0a then ['\\', 'n']
  else if u = 0x0c then ['\\', 'f']
  else if u = 0x0d then ['\\', 'r']
  else if 0x20 ≤ u.val ∧ u.val ≤ 0x7e then [Char.ofNat u]
  else '\\' :: 'u' :: (hexDigits u).map hexDigit

/-- A string literal from after its first quote on. -/
def quoted (us : List CodeUnit) : List Char := us.flatMap escape ++ ['"']

/-- What follows a separator. -/
inductive Style where
  | compact
  | spaced
  deriving DecidableEq

def Style.space : Style → List Char
  | .compact => []
  | .spaced => [' ']

mutual

def Tree.render (y : Style) : Tree → List Char
  | .word w => w.text
  | .num n => n.text
  | .str us => '"' :: quoted us
  | .arr [] => ['[', ']']
  | .arr (t :: ts) => '[' :: (t.render y ++ renderItems y ts)
  | .obj [] => ['{', '}']
  | .obj ((k, t) :: ms) =>
      '{' :: '"' :: (quoted k ++ ':' :: (y.space ++ (t.render y ++ renderMembers y ms)))

/-- The items after the first one, and the bracket. -/
def renderItems (y : Style) : List Tree → List Char
  | [] => [']']
  | t :: ts => ',' :: (y.space ++ (t.render y ++ renderItems y ts))

/-- The members after the first one, and the brace. -/
def renderMembers (y : Style) : List (List CodeUnit × Tree) → List Char
  | [] => ['}']
  | (k, t) :: ms =>
      ',' :: (y.space ++
        '"' :: (quoted k ++ ':' :: (y.space ++ (t.render y ++ renderMembers y ms))))

end

/-! ## Reading -/

def isSpace (c : Char) : Bool := c == ' ' || c == '\t' || c == '\n' || c == '\r'

def isNumberChar (c : Char) : Bool :=
  c.isDigit || c == '-' || c == '+' || c == '.' || c == 'e' || c == 'E'

/-- The code units of a code point. -/
def codeUnits (n : ℕ) : List CodeUnit :=
  if n < 0x10000 then [Fin.ofNat _ n]
  else [Fin.ofNat _ (0xd800 + (n - 0x10000) / 0x400), Fin.ofNat _ (0xdc00 + (n - 0x10000) % 0x400)]

def unitsOf (c : Char) : List CodeUnit := codeUnits c.toNat

def hexValue (c : Char) : Option (Fin 16) :=
  if c.isDigit then some (Fin.ofNat 16 (c.toNat - 0x30))
  else if 0x61 ≤ c.toNat ∧ c.toNat ≤ 0x66 then some (Fin.ofNat 16 (c.toNat - 0x61 + 10))
  else if 0x41 ≤ c.toNat ∧ c.toNat ≤ 0x46 then some (Fin.ofNat 16 (c.toNat - 0x41 + 10))
  else none

/-- The code unit of these hexadecimal digits. -/
def ofHexDigits (ds : List (Fin 16)) : CodeUnit :=
  Fin.ofNat _ (ds.foldl (fun (n : ℕ) (d : Fin 16) => n * 16 + d.val) 0)

/-- The unit a one-letter escape stands for. -/
def unescape : Char → Option CodeUnit
  | '"' => some 0x22
  | '\\' => some 0x5c
  | '/' => some 0x2f
  | 'b' => some 0x08
  | 't' => some 0x09
  | 'n' => some 0x0a
  | 'f' => some 0x0c
  | 'r' => some 0x0d
  | _ => none

/-- An array or an object that is open: what it holds so far, and for an object the name of the
member whose value is being read. -/
inductive Frame where
  | arr (ts : List Tree)
  | obj (ms : List (List CodeUnit × Tree)) (key : List CodeUnit)

/-- What a string literal is: a value, or a name in an object with these members. -/
inductive Slot where
  | value
  | key (ms : List (List CodeUnit × Tree))

/-- What the scanner is in the middle of. -/
inductive Mode where
  /-- a value comes -/
  | value
  /-- an array has opened -/
  | item
  /-- a name comes, or, in an object that has just opened, its end -/
  | member (ms : List (List CodeUnit × Tree)) (opened : Bool)
  | colon (ms : List (List CodeUnit × Tree)) (key : List CodeUnit)
  /-- a value has ended -/
  | after (t : Tree)
  | str (s : Slot) (us : List CodeUnit)
  | escape (s : Slot) (us : List CodeUnit)
  | hex (s : Slot) (us : List CodeUnit) (ds : List (Fin 16))
  | word (rest : List Char) (w : Word)
  | num (cs : List Char)

structure State where
  stack : List Frame
  mode : Mode

/-- The first character of a value. -/
def begin (stack : List Frame) (c : Char) : Option State :=
  if c = '"' then some ⟨stack, .str .value []⟩
  else if c = '[' then some ⟨.arr [] :: stack, .item⟩
  else if c = '{' then some ⟨stack, .member [] true⟩
  else if c = 'n' then some ⟨stack, .word ['u', 'l', 'l'] .null⟩
  else if c = 't' then some ⟨stack, .word ['r', 'u', 'e'] .true⟩
  else if c = 'f' then some ⟨stack, .word ['a', 'l', 's', 'e'] .false⟩
  else if c = 'N' then some ⟨stack, .word ['a', 'N'] .nan⟩
  else if c = 'I' then some ⟨stack, .word ['n', 'f', 'i', 'n', 'i', 't', 'y'] .infinity⟩
  else if c = '-' ∨ c.isDigit = true then some ⟨stack, .num [c]⟩
  else none

/-- The first character after a value. -/
def follow (stack : List Frame) (t : Tree) (c : Char) : Option State :=
  if isSpace c then some ⟨stack, .after t⟩
  else match stack with
    | [] => none
    | .arr ts :: stack =>
        if c = ',' then some ⟨.arr (ts ++ [t]) :: stack, .value⟩
        else if c = ']' then some ⟨stack, .after (.arr (ts ++ [t]))⟩
        else none
    | .obj ms k :: stack =>
        if c = ',' then some ⟨stack, .member (ms ++ [(k, t)]) false⟩
        else if c = '}' then some ⟨stack, .after (.obj (ms ++ [(k, t)]))⟩
        else none

/-- A string literal has ended. -/
def Slot.close (us : List CodeUnit) : Slot → Mode
  | .value => .after (.str us)
  | .key ms => .colon ms us

def step (σ : State) (c : Char) : Option State :=
  let go (m : Mode) : Option State := some ⟨σ.stack, m⟩
  match σ.mode with
  | .value => if isSpace c then go .value else begin σ.stack c
  | .item =>
      if isSpace c then go .item
      else if c = ']' then
        match σ.stack with
        | .arr ts :: stack => some ⟨stack, .after (.arr ts)⟩
        | _ => none
      else begin σ.stack c
  | .member ms opened =>
      if isSpace c then go (.member ms opened)
      else if c = '"' then go (.str (.key ms) [])
      else if c = '}' ∧ opened = true then go (.after (.obj ms))
      else none
  | .colon ms k =>
      if isSpace c then go (.colon ms k)
      else if c = ':' then some ⟨.obj ms k :: σ.stack, .value⟩
      else none
  | .after t => follow σ.stack t c
  | .str s us =>
      if c = '"' then go (s.close us)
      else if c = '\\' then go (.escape s us)
      else if c.toNat < 0x20 then none
      else go (.str s (us ++ unitsOf c))
  | .escape s us =>
      if c = 'u' then go (.hex s us [])
      else (unescape c).bind fun u => go (.str s (us ++ [u]))
  | .hex s us ds =>
      (hexValue c).bind fun d =>
        if ds.length = 3 then go (.str s (us ++ [ofHexDigits (ds ++ [d])]))
        else go (.hex s us (ds ++ [d]))
  | .word rest w =>
      match rest with
      | [] => none
      | [r] => if c = r then go (.after (.word w)) else none
      | r :: rest => if c = r then go (.word rest w) else none
  | .num cs =>
      if isNumberChar c then go (.num (cs ++ [c]))
      else if cs = ['-'] ∧ c = 'I' then go (.word ['n', 'f', 'i', 'n', 'i', 't', 'y'] .minusInfinity)
      else if h : isNumber cs = true then follow σ.stack (.num ⟨cs, h⟩) c
      else none

def run (σ : State) (cs : List Char) : Option State := cs.foldlM step σ

/-- The text is one value, with white space around it. -/
def scan (cs : List Char) : Option Tree :=
  match run ⟨[], .value⟩ cs with
  | some ⟨[], .after t⟩ => some t
  | some ⟨[], .num cs⟩ => if h : isNumber cs = true then some (.num ⟨cs, h⟩) else none
  | _ => none

end JsonText
