import Dstore.Ballot

/-!
# Placement: weighted rendezvous hashing

A key falls in one of `2^20` slots. For a slot every member draws a number from a hash of the slot
and its salt; `L` is the negated binary logarithm of the draw in fixed point, and the member with
the greater `weight / L` ranks higher, compared on cross products in 128 bits. The owners are the
first `r` of the ranking whose zone no earlier owner has. The salt, a hash of the id, is a
parameter.
-/

namespace Dstore.Placement

/-- The id of a member. -/
abbrev NodeID := {b : Bytes // b.length = 32}

/-- One node of a placement set: weight 0 owns nothing, an empty zone means the id itself. -/
structure Member where
  id : NodeID
  weight : UInt32
  zone : Bytes
  deriving DecidableEq

/-- The number that bytes spell. -/
def bigEndian (b : Bytes) : ℕ := b.foldl (fun n d => 256 * n + d.val) 0

theorem bigEndian_concat (b : Bytes) (d : Fin 256) : bigEndian (b ++ [d]) = 256 * bigEndian b + d := by
  simp [bigEndian]

/-- A number is what its bytes spell. -/
theorem bigEndian_beBytes : ∀ {n x : ℕ}, x < 256 ^ n → bigEndian (beBytes n x) = x
  | 0, x, hx => by
    rw [Nat.pow_zero, Nat.lt_one_iff] at hx
    rw [hx]
    rfl
  | n + 1, x, hx => by
    rw [beBytes, bigEndian_concat,
      bigEndian_beBytes (Nat.div_lt_of_lt_mul (by rwa [Nat.mul_comm, ← Nat.pow_succ]))]
    exact Nat.div_add_mod x 256

theorem beBytes_inj {n x y : ℕ} (hx : x < 256 ^ n) (hy : y < 256 ^ n)
    (h : beBytes n x = beBytes n y) : x = y := by
  rw [← bigEndian_beBytes hx, h, bigEndian_beBytes hy]

/-- The finalizer of the slot's hash. -/
def fmix64 (x : UInt64) : UInt64 :=
  let x := x ^^^ (x >>> 33)
  let x := x * 0xff51afd7ed558ccd
  let x := x ^^^ (x >>> 33)
  let x := x * 0xc4ceb9fe1a85ec53
  x ^^^ (x >>> 33)

/-- The high and the low half of a product. -/
def mul64 (a b : UInt64) : UInt64 × UInt64 :=
  (UInt64.ofNat (a.toNat * b.toNat / 2 ^ 64), UInt64.ofNat (a.toNat * b.toNat % 2 ^ 64))

/-- One squaring of the bit-by-bit logarithm, `j` the position of the bit it decides. -/
def squaring (mf : UInt64 × UInt64) (j : ℕ) : UInt64 × UInt64 :=
  let (m, f) := mf
  let (hi, lo) := mul64 m m
  if hi &&& ((1 : UInt64) <<< 63) ≠ 0 then (hi, f ||| ((1 : UInt64) <<< UInt64.ofNat (32 - j)))
  else ((hi <<< 1) ||| (lo >>> 63), f)

/-- `⌊log2(x)·2^32⌋`, by 32 squarings. The source panics on 0. -/
def log2Fix (x : UInt64) (_ : x ≠ 0) : UInt64 :=
  let i := x.log2
  let m := x <<< (63 - i)
  let f := ((List.range' 1 32).foldl squaring (m, 0)).2
  (i <<< 32) ||| f

/-- The hash that would overflow is excluded before. -/
theorem succ_ne_zero {h : UInt64} (hh : h ≠ ~~~0) : h + 1 ≠ 0 := by
  intro h0
  apply hh
  have hmax : h = 0 - 1 := by rw [← h0]; simp
  rw [hmax]
  rfl

/-- The negated logarithm of a member's draw for a slot. -/
def L (slot : UInt32) (salt : UInt64) : UInt64 :=
  let h := fmix64 (slot.toUInt64 ^^^ salt)
  if hh : h = ~~~0 then 0 else ((64 : UInt64) <<< 32) - log2Fix (h + 1) (succ_ne_zero hh)

/-- The sign of a bytewise comparison, for strings of one length. -/
def compareBytes : Bytes → Bytes → ℤ
  | a :: as, b :: bs => if a ≠ b then if a < b then -1 else 1 else compareBytes as bs
  | _, _ => 0

/-- The order of ids, which breaks ties. -/
def compareID (a b : NodeID) : ℤ := compareBytes a.val b.val

/-- Whether `a` ranks before `b`: `weight / L` compared without dividing. -/
def less (a b : Member) (la lb : UInt64) : Bool :=
  let (ahi, alo) := mul64 a.weight.toUInt64 lb
  let (bhi, blo) := mul64 b.weight.toUInt64 la
  if ahi ≠ bhi then ahi > bhi
  else if alo ≠ blo then alo > blo
  else compareID a.id b.id < 0

/-- A placement set prepared for ranking: the members with their salts. -/
structure Set where
  members : List Member
  salts : Fin members.length → UInt64

/-- The members with their salts. -/
def newSet (salt : NodeID → UInt64) (members : List Member) : Set where
  members := members
  salts i := salt (members.get i).id

namespace Set

variable (s : Set)

/-- The member at a position. -/
def member (i : Fin s.members.length) : Member := s.members.get i

/-- The full ranking of a slot, as positions in the member list: weighted members by descending
score, then the members of weight 0 in id order. -/
def rank (slot : UInt32) : List (Fin s.members.length) :=
  let ls := fun i => L slot (s.salts i)
  let weighted := (List.finRange s.members.length).filter fun i => (s.member i).weight ≠ 0
  let zero := (List.finRange s.members.length).filter fun i => (s.member i).weight = 0
  weighted.insertionSort (fun i j => ¬ less (s.member j) (s.member i) (ls j) (ls i))
    ++ zero.insertionSort (fun i j => ¬ compareID (s.member j).id (s.member i).id < 0)

end Set

/-- The zone of a member. -/
def zoneOf (m : Member) : Bytes := if m.zone = [] then m.id.val else m.zone

namespace Set

variable (s : Set)

/-- The walk of `owners` over a ranking: `room` more may be taken, `zones` are taken already. -/
def ownersFrom : ℕ → List Bytes → List (Fin s.members.length) → List (Fin s.members.length)
  | 0, _, _ => []
  | _, _, [] => []
  | room + 1, zones, i :: rank =>
    if (s.member i).weight = 0 then []
    else if zoneOf (s.member i) ∈ zones then ownersFrom (room + 1) zones rank
    else i :: ownersFrom room (zoneOf (s.member i) :: zones) rank

/-- The owners of a slot, as positions in the member list. -/
def owners (slot : UInt32) (r : ℕ) : List (Fin s.members.length) :=
  s.ownersFrom r [] (s.rank slot)

/-- The ids at positions. -/
def ids (l : List (Fin s.members.length)) : List NodeID := l.map fun i => (s.member i).id

end Set

end Dstore.Placement
