import Dstore.Lib.Re2

/-!
# Globs over reference names

A pattern is compiled in one pass over its characters to the text of an RE2 expression; the same
pass collects the literal characters before the first that is not one. The index of the source's
loop moves by as many characters as a construct takes; here the loop passes over those (`skip`).
-/

namespace Dstore.Refglob

/-- The longest pattern, in bytes. -/
def maxLen : ℕ := 4096

/-- Why a pattern is refused. -/
inductive Err
  | text (s : String)
  | badRange (lo hi : Char)
  | regexp
  deriving DecidableEq, Repr

structure Pattern where
  src : List Char
  literalPrefix : List Char
  re : Regex Char

/-- The characters RE2 gives a meaning. -/
def special : List Char :=
  ['\\', '.', '+', '*', '?', '(', ')', '|', '[', ']', '\x7b', '\x7d', '^', '$']

/-- A character that stands for itself. -/
def quoteMeta (c : Char) : List Char := if c ∈ special then ['\\', c] else [c]

/-- Read one (possibly escaped) character of a class, and how many characters it takes. -/
def classRune (r : Char) (rest : List Char) : Except Err (Char × ℕ) :=
  if r = '\\' then
    match rest with
    | [] => .error (.text "refglob: trailing backslash in character class")
    | c :: _ => .ok (c, 2)
  else .ok (r, 1)

/-- A character that stands for itself in a class. -/
def classQuote (c : Char) : List Char :=
  if c ∈ ['\\', ']', '[', '^', '-'] then ['\\', c] else [c]

/-- The items of a class up to its closing bracket, and how many characters they take; `n` have
been passed. -/
def classItems : List Char → ℕ → ℕ → List (Char × Char) → Except Err (List (Char × Char) × ℕ)
  | [], _, _, _ => .error (.text "refglob: unterminated character class")
  | _ :: rs, skip + 1, n, items => classItems rs skip (n + 1) items
  | r :: rs, 0, n, items =>
    if r = ']' then .ok (items, n)
    else
      match classRune r rs with
      | .error e => .error e
      | .ok (lo, k) =>
        match (r :: rs).drop k with
        | d :: x :: rest =>
          if d = '-' ∧ x ≠ ']' then
            match classRune x rest with
            | .error e => .error e
            | .ok (hi, k') =>
              if hi < lo then .error (.badRange lo hi)
              else classItems rs (k + k') (n + 1) (items ++ [(lo, hi)])
          else classItems rs (k - 1) (n + 1) (items ++ [(lo, lo)])
        | _ => classItems rs (k - 1) (n + 1) (items ++ [(lo, lo)])

/-- The ranges written for an item: a positive class never matches `/`, which is carved out. -/
def carve (negate : Bool) (item : Char × Char) : List (Char × Char) :=
  if !negate ∧ item.1 ≤ '/' ∧ '/' ≤ item.2 then
    (if item.1 < '/' then [(item.1, '.')] else []) ++ (if '/' < item.2 then [('0', item.2)] else [])
  else [item]

/-- A range of a class. -/
def rangeText (r : Char × Char) : List Char :=
  classQuote r.1 ++ if r.2 ≠ r.1 then '-' :: classQuote r.2 else []

def classText (negate : Bool) (items : List (Char × Char)) : List Char :=
  let text := '[' :: (if negate then ['^', '/'] else []) ++
    (items.flatMap fun it => (carve negate it).flatMap rangeText) ++ [']']
  -- only '/' was listed: matches nothing
  if !negate ∧ text.length = 2 then "[^\\x00-\\x\x7b10FFFF\x7d]".toList else text

/-- Parse a class behind its opening bracket: whether it is negated, its items, and how many
characters it takes with both brackets. -/
def classHead (rs : List Char) : Except Err (Bool × List (Char × Char) × ℕ) :=
  let negate := rs.head?.any (· ∈ ['!', '^'])
  match classItems (if negate then rs.tail else rs) 0 0 [] with
  | .error e => .error e
  | .ok (items, n) => .ok (negate, items, n + if negate then 3 else 2)

/-- The RE2 form of the class at the start of `rs`, and how many characters it takes. -/
def parseClass (rs : List Char) : Except Err (List Char × ℕ) :=
  match classHead rs.tail with
  | .error e => .error e
  | .ok (negate, items, n) =>
    if items = [] then .error (.text "refglob: empty character class")
    else .ok (classText negate items, n)

/-- What the loop has written, and whether it is in the leading literals and at the start of a
segment. -/
structure Build where
  re : List Char
  literalPrefix : List Char := []
  literal : Bool := true
  segStart : Bool := true
  deriving DecidableEq, Repr

namespace Build

variable (b : Build)

/-- Writes a literal. -/
def char (c : Char) : Build where
  re := b.re ++ quoteMeta c
  literalPrefix := if b.literal then b.literalPrefix ++ [c] else b.literalPrefix
  literal := b.literal
  segStart := c = '/'

/-- Writes what is not a literal, which ends the prefix. -/
def wild (text : List Char) (segStart : Bool) : Build :=
  { b with re := b.re ++ text, literal := false, segStart := segStart }

end Build

/-- The loop over the pattern. -/
def loop : List Char → ℕ → Build → Except Err Build
  | [], _, b => .ok b
  | _ :: rs, skip + 1, b => loop rs skip b
  | r :: rs, 0, b =>
    if r = '\\' then
      match rs.head? with
      | none => .error (.text "refglob: trailing backslash")
      | some c => loop rs 1 (b.char c)
    else if r = '*' then
      let double := rs.head? = some '*'
      if double ∧ b.segStart ∧ (rs.length = 1 ∨ rs[1]? = some '/') then
        if rs.length = 1 then loop rs 1 (b.wild ".*".toList true)
        else loop rs 2 (b.wild "(?:[^/]*/)*".toList true)
      else loop rs 0 (b.wild "[^/]*".toList false)
    else if r = '?' then loop rs 0 (b.wild "[^/]".toList false)
    else if r = '[' then
      match parseClass (r :: rs) with
      | .error e => .error e
      | .ok (text, n) => loop rs (n - 1) (b.wild text false)
    else loop rs 0 (b.char r)

def compile (pattern : ByteArray) : Except Err Pattern :=
  if pattern.size = 0 then .error (.text "refglob: empty pattern")
  else if maxLen < pattern.size then .error (.text "refglob: pattern exceeds 4096 bytes")
  else
    match String.fromUTF8? pattern with
    | none => .error (.text "refglob: pattern is not valid UTF-8")
    | some s =>
      if s.toList.any fun r => r.val < 0x20 || r.val == 0x7f then
        .error (.text "refglob: pattern contains a control character")
      else
        match loop s.toList 0 { re := "\\A".toList } with
        | .error e => .error e
        | .ok b =>
          match Re2.compile (b.re ++ "\\z".toList) with
          | none => .error .regexp
          | some re => .ok ⟨s.toList, b.literalPrefix, re⟩

def Pattern.matches (p : Pattern) (name : List Char) : Bool := p.re.accepts name

end Dstore.Refglob
