import Dstore.Lib.Byte

/-!
# Encodings in bytes

A codec decodes what it encoded. Codecs are built from self-delimiting forms, in which a value is
written as a list of numbers that can be read back with anything after it: numbers, pairs, options,
lists, and any type that is a retract of one of these.
-/

/-- An encoding of `α` in bytes, which decodes to what was encoded. -/
structure Codec (α : Type*) where
  enc : α → List (Fin 256)
  dec : List (Fin 256) → Option α
  dec_enc : ∀ a, dec (enc a) = some a

/-- A self-delimiting form: what was written is read back, whatever follows it. -/
structure Form (α : Type*) where
  put : α → List ℕ
  get : List ℕ → Option (α × List ℕ)
  get_put : ∀ a rest, get (put a ++ rest) = some (a, rest)

namespace Form

variable {α β : Type*}

def nat : Form ℕ where
  put n := [n]
  get
    | [] => none
    | n :: rest => some (n, rest)
  get_put _ _ := rfl

/-- One value after the other. -/
def pair (f : Form α) (g : Form β) : Form (α × β) where
  put p := f.put p.1 ++ g.put p.2
  get l := (f.get l).bind fun p => (g.get p.2).map fun r => ((p.1, r.1), r.2)
  get_put a rest := by
    rw [List.append_assoc, f.get_put, Option.bind_some, g.get_put]
    rfl

/-- Values that embed into those of another form. -/
def retract (f : Form β) (i : α → β) (r : β → α) (h : ∀ a, r (i a) = a) : Form α where
  put a := f.put (i a)
  get l := (f.get l).map fun p => (r p.1, p.2)
  get_put a rest := by
    rw [f.get_put, Option.map_some, h]

/-- Read so many values, one after the other. -/
def getMany (f : Form α) : ℕ → List ℕ → Option (List α × List ℕ)
  | 0, l => some ([], l)
  | n + 1, l => (f.get l).bind fun p => (f.getMany n p.2).map fun r => (p.1 :: r.1, r.2)

/-- What was written as a list is read back, and the rest is left. -/
theorem getMany_put (f : Form α) :
    ∀ (as : List α) (rest : List ℕ),
      f.getMany as.length (as.flatMap f.put ++ rest) = some (as, rest)
  | [], _ => rfl
  | a :: as, rest => by
    rw [List.flatMap_cons, List.append_assoc, List.length_cons, getMany, f.get_put,
      Option.bind_some, getMany_put f as rest]
    rfl

/-- A list, its length first. -/
def list (f : Form α) : Form (List α) where
  put as := as.length :: as.flatMap f.put
  get
    | [] => none
    | n :: l => f.getMany n l
  get_put as rest := f.getMany_put as rest

/-- A list of one or none. -/
def option (f : Form α) : Form (Option α) where
  put a := a.toList.length :: a.toList.flatMap f.put
  get l := (f.list.get l).map fun p => (p.1.head?, p.2)
  get_put a rest := by
    have h := f.list.get_put a.toList rest
    change ((f.list.get (f.list.put a.toList ++ rest)).map _) = _
    rw [h]
    cases a <;> rfl

/-- Numbers in unary, a zero behind each. -/
def bytes (l : List ℕ) : List (Fin 256) := l.flatMap fun n => List.replicate n 1 ++ [0]

/-- Read the numbers back; `n` counts the ones since the last zero. -/
def unbytes : ℕ → List (Fin 256) → List ℕ
  | _, [] => []
  | n, x :: xs => if x = 0 then n :: unbytes 0 xs else unbytes (n + 1) xs

theorem unbytes_replicate (k : ℕ) (rest : List (Fin 256)) :
    ∀ n, unbytes k (List.replicate n 1 ++ 0 :: rest) = (k + n) :: unbytes 0 rest
  | 0 => by simp [unbytes]
  | n + 1 => by
    have ih := unbytes_replicate (k + 1) rest n
    rw [List.replicate_succ, List.cons_append, unbytes, if_neg (by decide), ih]
    congr 1
    omega

theorem unbytes_bytes : ∀ l, unbytes 0 (bytes l) = l
  | [] => rfl
  | n :: l => by
    have ih := unbytes_bytes l
    rw [bytes] at ih ⊢
    rw [List.flatMap_cons, List.append_assoc, List.singleton_append, unbytes_replicate, ih,
      Nat.zero_add]

/-- The codec of a form. -/
def codec (f : Form α) : Codec α where
  enc a := bytes (f.put a)
  dec bs := (f.get (unbytes 0 bs)).map Prod.fst
  dec_enc a := by
    have h := f.get_put a []
    rw [List.append_nil] at h
    rw [unbytes_bytes, h]
    rfl

/-- Bytes as numbers. -/
def byteList : Form (List (Fin 256)) :=
  (nat.retract Fin.val (Fin.ofNat 256) fun a => Fin.ext (Nat.mod_eq_of_lt a.isLt)).list

/-- A truth value as `0` or `1`. -/
def bool : Form Bool :=
  nat.retract Bool.toNat (fun n => n = 1) fun b => by cases b <;> rfl

/-- An integer as its positive and its negative part. -/
def int : Form ℤ :=
  (nat.pair nat).retract (fun z => (z.toNat, (-z).toNat)) (fun p => p.1 - p.2)
    Int.toNat_sub_toNat_neg

/-- A string as the numbers of its characters. -/
def string : Form String :=
  (nat.retract Char.toNat Char.ofNat Char.ofNat_toNat).list.retract String.toList String.ofList
    fun _ => String.ofList_toList

end Form
