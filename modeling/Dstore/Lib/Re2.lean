import Dstore.Lib.Regex

/-!
# The text of RE2 expressions

A part of the syntax of RE2: an expression between `\A` and `\z` of literals, escaped punctuation,
`.`, character classes with ranges and escapes, groups `(?:…)` and the star.
-/

namespace Re2

/-- A character that a backslash makes literal. -/
def punct (c : Char) : Bool := c.val < 0x80 && !c.isAlphanum

/-- The value of a hexadecimal digit. -/
def hexDigit (c : Char) : Option ℕ :=
  if '0' ≤ c ∧ c ≤ '9' then some (c.toNat - '0'.toNat)
  else if 'a' ≤ c ∧ c ≤ 'f' then some (c.toNat - 'a'.toNat + 10)
  else if 'A' ≤ c ∧ c ≤ 'F' then some (c.toNat - 'A'.toNat + 10)
  else none

/-- The character is in one of the ranges. -/
def inRanges (ranges : List (Char × Char)) (c : Char) : Bool :=
  ranges.any fun r => r.1 ≤ c ∧ c ≤ r.2

/-- Where in a class the text stands: an item may start, a character was read that may start a
range, or that character and a hyphen. -/
inductive Slot
  | item
  | low (lo : Char)
  | dash (lo : Char)
  deriving DecidableEq, Repr

/-- An escape in a class: a backslash, `\x`, `\x` with a digit, or `\x{` with digits. -/
inductive Escape
  | slash
  | hex
  | digit (n : ℕ)
  | braces (n : ℕ)
  deriving DecidableEq, Repr

/-- A class being read. `opening` is so right behind the bracket. -/
structure Class where
  opening : Bool := true
  negated : Bool := false
  ranges : List (Char × Char) := []
  slot : Slot := .item
  escape : Option Escape := none
  deriving DecidableEq, Repr

namespace Class

variable (k : Class)

/-- The next character of a class, which opens a range or ends one. -/
def take (c : Char) : Option Class :=
  let k := { k with opening := false, escape := none }
  match k.slot with
  | .item => some { k with slot := .low c }
  | .low lo => some { k with ranges := k.ranges ++ [(lo, lo)], slot := .low c }
  | .dash lo =>
    if lo ≤ c then some { k with ranges := k.ranges ++ [(lo, c)], slot := .item } else none

/-- The next character of an escape inside a class. -/
def takeEscaped (e : Escape) (c : Char) : Option Class :=
  match e with
  | .slash =>
    if c = 'x' then some { k with escape := some .hex }
    else if punct c then k.take c
    else none
  | .hex =>
    if c = '\x7b' then some { k with escape := some (.braces 0) }
    else (hexDigit c).map fun d => { k with escape := some (.digit d) }
  | .digit n => (hexDigit c).bind fun d => k.take (Char.ofNat (16 * n + d))
  | .braces n =>
    if c = '\x7d' then k.take (Char.ofNat n)
    else (hexDigit c).map fun d => { k with escape := some (.braces (16 * n + d)) }

/-- The ranges of a class that ends here. -/
def closed : List (Char × Char) :=
  match k.slot with
  | .item => k.ranges
  | .low lo => k.ranges ++ [(lo, lo)]
  | .dash lo => k.ranges ++ [(lo, lo), ('-', '-')]

/-- The characters of the class. -/
def set (c : Char) : Bool := inRanges k.closed c != k.negated

end Class

/-- Where in the text the parser is. -/
inductive Mode
  | start
  | startSlash
  | plain
  | slash
  | group (n : ℕ)
  | cls (k : Class)
  | done
  deriving DecidableEq, Repr

/-- The sequences that are open, the innermost first, each with its last item first. `starred`
says that the last item has just been starred. -/
structure State where
  mode : Mode := .start
  stack : List (List (Regex Char)) := [[]]
  starred : Bool := false

namespace State

variable (s : State)

/-- Add an item to the innermost sequence. -/
def push (r : Regex Char) : Option State :=
  match s.stack with
  | [] => none
  | seq :: outer => some { mode := .plain, stack := (r :: seq) :: outer }

/-- Star the last item; a second star is an error. -/
def star : Option State :=
  match s.stack with
  | (r :: seq) :: outer =>
    if s.starred then none
    else some { mode := .plain, stack := (.star r :: seq) :: outer, starred := true }
  | _ => none

def close : Option State :=
  match s.stack with
  | seq :: seq' :: outer =>
    some { mode := .plain, stack := (.seq seq.reverse :: seq') :: outer }
  | _ => none

/-- A character outside classes and escapes. -/
def feedPlain (c : Char) : Option State :=
  if c = '\\' then some { s with mode := .slash }
  else if c = '[' then some { s with mode := .cls {} }
  else if c = '(' then some { s with mode := .group 0 }
  else if c = ')' then s.close
  else if c = '*' then s.star
  else if c = '.' then s.push (.atom (· ≠ '\n'))
  else if c ∈ ['+', '?', '|', '\x7b', '\x7d', '^', '$', ']'] then none
  else s.push (.atom (· = c))

/-- A character inside a class. -/
def feedClass (k : Class) (c : Char) : Option State :=
  match k.escape with
  | some e => (k.takeEscaped e c).map fun k => { s with mode := .cls k }
  | none =>
    if c = ']' ∧ (k.ranges ≠ [] ∨ k.slot ≠ .item) then s.push (.atom k.set)
    else if c = '\\' then
      some { s with mode := .cls { k with opening := false, escape := some .slash } }
    else if c = '^' ∧ k.opening then
      some { s with mode := .cls { k with opening := false, negated := true } }
    else if c = '[' then none
    else
      match c, k.slot with
      | '-', .low lo => some { s with mode := .cls { k with slot := .dash lo } }
      | c, _ => (k.take c).map fun k => { s with mode := .cls k }

end State

/-- One character of the text. -/
def feed (s : State) (c : Char) : Option State :=
  match s.mode with
  | .start => if c = '\\' then some { s with mode := .startSlash } else none
  | .startSlash => if c = 'A' then some { s with mode := .plain } else none
  | .plain => s.feedPlain c
  | .slash =>
    if c = 'z' then some { s with mode := .done }
    else if punct c then s.push (.atom (· = c))
    else none
  | .group 0 => if c = '?' then some { s with mode := .group 1 } else none
  | .group _ =>
    if c = ':' then some { mode := .plain, stack := [] :: s.stack } else none
  | .cls k => s.feedClass k c
  | .done => none

def feeds (s : State) (text : List Char) : Option State := text.foldlM feed s

/-- The expression of a text that begins with `\A` and ends with `\z`. -/
def compile (text : List Char) : Option (Regex Char) :=
  match feeds {} text with
  | some { mode := .done, stack := [seq], starred := _ } => some (.seq seq.reverse)
  | _ => none

/-- A text of two parts. -/
theorem feeds_append {s : State} {a b : List Char} :
    feeds s (a ++ b) = (feeds s a).bind (feeds · b) := by
  simp [feeds, List.foldlM_append, Option.bind_eq_bind]

theorem feeds_cons {s : State} {c : Char} {text : List Char} :
    feeds s (c :: text) = (feed s c).bind (feeds · text) := rfl

@[simp] theorem feeds_nil {s : State} : feeds s [] = some s := rfl

end Re2
