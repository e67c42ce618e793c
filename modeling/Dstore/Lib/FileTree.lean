import Dstore.Lib.Byte

/-!
# File trees

A file tree is a leaf or a directory, whose entries are listed with their names; a directory is
identified with what it lists. `look` reads a tree as a map from paths to entries.
-/

namespace FileTree

/-- The name of a directory entry. -/
abbrev Name := List (Fin 256)

/-- A path by its names, from the root. -/
abbrev Path := List Name

instance Path.lawfulBEq : LawfulBEq Path := inferInstance

/-- Permission bits, ownership, time and extended attributes (inline, or by the key of a set). -/
structure Meta where
  perm : BitVec 12
  uid : ℕ
  gid : ℕ
  mtime : ℤ
  xattrsIn : Name := []
  xattrsKey : Name := []
  deriving DecidableEq

/-- What a file that is not a directory holds; `other` stands for any further type. -/
inductive Leaf (κ : Type)
  | reg (content : κ)
  | lnk (target : Name)
  | fifo
  | sock
  | chr (rdev : List ℕ)
  | blk (rdev : List ℕ)
  | other (bits : ℕ)
  deriving DecidableEq

mutual

/-- A file with all that is below it. -/
inductive FTree (κ : Type)
  | leaf (m : Meta) (l : Leaf κ)
  | dir (m : Meta) (d : Dir κ)

/-- The entries of a directory. -/
inductive Dir (κ : Type)
  | nil
  | cons (n : Name) (t : FTree κ) (rest : Dir κ)

end

/-- A file without what is below it; a directory has no leaf. -/
structure Entry (κ : Type) where
  info : Meta
  leaf : Option (Leaf κ)
  deriving DecidableEq

variable {κ : Type}

mutual

def FTree.decEq [DecidableEq κ] : (s t : FTree κ) → Decidable (s = t)
  | .leaf m l, .leaf m' l' => decidable_of_iff (m = m' ∧ l = l') (by simp)
  | .dir m d, .dir m' d' =>
    have := Dir.decEq d d'
    decidable_of_iff (m = m' ∧ d = d') (by simp)
  | .leaf _ _, .dir _ _ => isFalse (by simp)
  | .dir _ _, .leaf _ _ => isFalse (by simp)

def Dir.decEq [DecidableEq κ] : (s t : Dir κ) → Decidable (s = t)
  | .nil, .nil => isTrue rfl
  | .cons n t r, .cons n' t' r' =>
    have := FTree.decEq t t'
    have := Dir.decEq r r'
    decidable_of_iff (n = n' ∧ t = t' ∧ r = r') (by simp)
  | .nil, .cons _ _ _ => isFalse (by simp)
  | .cons _ _ _, .nil => isFalse (by simp)

end

instance [DecidableEq κ] : DecidableEq (FTree κ) := FTree.decEq
instance [DecidableEq κ] : DecidableEq (Dir κ) := Dir.decEq

inductive FileType
  | reg
  | dir
  | lnk
  | fifo
  | sock
  | chr
  | blk
  | other (bits : ℕ)
  deriving DecidableEq

/-- The type of a file that is not a directory. -/
def Leaf.type : Leaf κ → FileType
  | .reg _ => .reg
  | .lnk _ => .lnk
  | .fifo => .fifo
  | .sock => .sock
  | .chr _ => .chr
  | .blk _ => .blk
  | .other b => .other b

namespace Entry

/-- The type of a file. -/
def type (e : Entry κ) : FileType := match e.leaf with
  | none => .dir
  | some l => l.type

/-- The entry is a directory. -/
def isDir (e : Entry κ) : Bool := e.type = .dir

variable {e : Entry κ}

theorem isDir_iff : e.isDir = true ↔ e.leaf = none := by
  unfold isDir type
  rcases e.leaf with _ | l
  · simp
  · cases l <;> simp [Leaf.type]

end Entry

namespace Dir

/-- The names of the entries. -/
def names : Dir κ → List Name
  | .nil => []
  | .cons n _ rest => n :: rest.names

/-- The first entry of a name. -/
def find (n : Name) : Dir κ → Option (FTree κ)
  | .nil => none
  | .cons m t rest => if m = n then some t else rest.find n

/-- The directory without the entries of this name. -/
def without (n : Name) : Dir κ → Dir κ
  | .nil => .nil
  | .cons m t rest => if m = n then rest.without n else .cons m t (rest.without n)

/-- All names are behind `n`. -/
def after (n : Name) : Dir κ → Bool
  | .nil => true
  | .cons m _ rest => decide (n < m) && rest.after n

/-- The listing with the entry of `n` changed by `f`, at its place in the order. -/
def alter (n : Name) (f : Option (FTree κ) → Option (FTree κ)) : Dir κ → Dir κ
  | .nil => match f none with
    | none => .nil
    | some s => .cons n s .nil
  | .cons m t rest =>
    if m = n then match f (some t) with
      | none => rest
      | some s => .cons m s rest
    else if n < m then match f none with
      | none => .cons m t rest
      | some s => .cons n s (.cons m t rest)
    else .cons m t (rest.alter n f)

end Dir

mutual

/-- Every directory below is in order, and has each name once. -/
def FTree.sorted : FTree κ → Bool
  | .leaf _ _ => true
  | .dir _ d => d.sorted

/-- The names ascend, here and below. -/
def Dir.sorted : Dir κ → Bool
  | .nil => true
  | .cons n t rest => t.sorted && rest.sorted && rest.after n

end

namespace Dir

variable {d rest : Dir κ} {n m : Name} {t : FTree κ} {f : Option (FTree κ) → Option (FTree κ)}

theorem sorted_cons :
    (Dir.cons n t rest).sorted = true ↔ t.sorted = true ∧ rest.sorted = true ∧ rest.after n = true := by
  simp [Dir.sorted, and_assoc]

theorem find_cons_self : (Dir.cons n t rest).find n = some t := if_pos rfl

theorem find_cons_of_ne (h : m ≠ n) : (Dir.cons m t rest).find n = rest.find n := if_neg h

theorem after_cons : (Dir.cons m t rest).after n = true ↔ n < m ∧ rest.after n = true := by
  simp [after]

theorem after_trans (h : n < m) : ∀ {d : Dir κ}, d.after m = true → d.after n = true
  | .nil, _ => rfl
  | .cons _ _ _, hd => after_cons.2 ⟨h.trans (after_cons.1 hd).1, after_trans h (after_cons.1 hd).2⟩

theorem find_of_after : ∀ {d : Dir κ}, d.after n = true → d.find n = none
  | .nil, _ => rfl
  | .cons _ _ _, hd => by
    obtain ⟨hm, hr⟩ := after_cons.1 hd
    rw [find_cons_of_ne hm.ne', find_of_after hr]

theorem lt_of_find : ∀ {d : Dir κ}, d.after n = true → d.find m = some t → n < m
  | .cons k s rest, hd, h => by
    obtain ⟨hk, hr⟩ := after_cons.1 hd
    by_cases he : k = m
    · exact he ▸ hk
    · rw [find_cons_of_ne he] at h
      exact lt_of_find hr h

/-- `alter` does to the entry what it was told. -/
theorem find_alter_self : ∀ {d : Dir κ}, d.sorted = true → (d.alter n f).find n = f (d.find n)
  | .nil, _ => by
    unfold alter
    cases h : f none with
    | none => simpa [find] using h.symm
    | some s => simpa [find] using h.symm
  | .cons m t rest, hd => by
    obtain ⟨-, hr, ha⟩ := sorted_cons.1 hd
    unfold alter
    by_cases hm : m = n
    · subst hm
      rw [if_pos rfl, find_cons_self]
      cases h : f (some t) with
      | none => exact find_of_after ha
      | some s => exact find_cons_self
    · rw [if_neg hm, find_cons_of_ne hm]
      by_cases hlt : n < m
      · rw [if_pos hlt, find_of_after (after_trans hlt ha)]
        cases h : f none with
        | none =>
          show (Dir.cons m t rest).find n = none
          rw [find_cons_of_ne hm, find_of_after (after_trans hlt ha)]
        | some s => exact find_cons_self
      · rw [if_neg hlt, find_cons_of_ne hm, find_alter_self hr]

/-- `alter` leaves the other entries alone. -/
theorem find_alter_of_ne (hne : m ≠ n) : ∀ {d : Dir κ}, (d.alter n f).find m = d.find m
  | .nil => by
    unfold alter
    cases h : f none with
    | none => rfl
    | some s => exact find_cons_of_ne hne.symm
  | .cons k t rest => by
    unfold alter
    by_cases hk : k = n
    · subst hk
      rw [if_pos rfl, find_cons_of_ne hne.symm]
      cases h : f (some t) with
      | none => rfl
      | some s => exact find_cons_of_ne hne.symm
    · rw [if_neg hk]
      by_cases hlt : n < k
      · rw [if_pos hlt]
        cases h : f none with
        | none => rfl
        | some s => exact find_cons_of_ne hne.symm
      · rw [if_neg hlt]
        by_cases hkm : k = m
        · rw [hkm, find_cons_self, find_cons_self]
        · rw [find_cons_of_ne hkm, find_cons_of_ne hkm, find_alter_of_ne hne]

theorem after_alter (hlt : m < n) : ∀ {d : Dir κ}, d.after m = true → (d.alter n f).after m = true
  | .nil, _ => by
    unfold alter
    cases h : f none with
    | none => rfl
    | some s => exact after_cons.2 ⟨hlt, rfl⟩
  | .cons k t rest, hd => by
    obtain ⟨hk, hr⟩ := after_cons.1 hd
    unfold alter
    by_cases hkn : k = n
    · rw [if_pos hkn]
      cases h : f (some t) with
      | none => exact hr
      | some s => exact after_cons.2 ⟨hk, hr⟩
    · rw [if_neg hkn]
      by_cases hnk : n < k
      · rw [if_pos hnk]
        cases h : f none with
        | none => exact hd
        | some s => exact after_cons.2 ⟨hlt, hd⟩
      · rw [if_neg hnk]
        exact after_cons.2 ⟨hk, after_alter hlt hr⟩

theorem sorted_of_find : ∀ {d : Dir κ}, d.sorted = true → d.find n = some t → t.sorted = true
  | .cons m s rest, hd, h => by
    obtain ⟨hs, hr, -⟩ := sorted_cons.1 hd
    by_cases hm : m = n
    · subst hm
      rw [find_cons_self] at h
      exact Option.some.inj h ▸ hs
    · rw [find_cons_of_ne hm] at h
      exact sorted_of_find hr h

theorem sorted_alter : ∀ {d : Dir κ}, (∀ s, f (d.find n) = some s → s.sorted = true) →
    d.sorted = true → (d.alter n f).sorted = true
  | .nil, hf, _ => by
    unfold alter
    cases h : f none with
    | none => rfl
    | some s => exact sorted_cons.2 ⟨hf s h, rfl, rfl⟩
  | .cons k t rest, hf, hd => by
    obtain ⟨ht, hr, ha⟩ := sorted_cons.1 hd
    unfold alter
    by_cases hk : k = n
    · subst hk
      rw [find_cons_self] at hf
      rw [if_pos rfl]
      cases h : f (some t) with
      | none => exact hr
      | some s => exact sorted_cons.2 ⟨hf s h, hr, ha⟩
    · rw [find_cons_of_ne hk] at hf
      rw [if_neg hk]
      by_cases hlt : n < k
      · rw [find_of_after (after_trans hlt ha)] at hf
        rw [if_pos hlt]
        cases h : f none with
        | none => exact hd
        | some s => exact sorted_cons.2 ⟨hf s h, hd, after_cons.2 ⟨hlt, after_trans hlt ha⟩⟩
      · rw [if_neg hlt]
        have hkn : k < n := lt_of_le_of_ne (not_lt.1 hlt) hk
        exact sorted_cons.2 ⟨ht, sorted_alter hf hr, after_alter hkn ha⟩

theorem names_eq_nil : ∀ {d : Dir κ}, d.names = [] ↔ d = .nil
  | .nil => by simp [names]
  | .cons _ _ _ => by simp [names]

end Dir

namespace FTree

/-- The file at the root of a tree. -/
def entry : FTree κ → Entry κ
  | .leaf m l => ⟨m, some l⟩
  | .dir m _ => ⟨m, none⟩

/-- What is in the directory, nothing if it is none. -/
def kids : FTree κ → Dir κ
  | .leaf _ _ => .nil
  | .dir _ d => d

/-- The tree at a path. -/
def at' : Path → FTree κ → Option (FTree κ)
  | [], t => some t
  | n :: p, t => (t.kids.find n).bind (at' p)

/-- The entry at a path. -/
def look (t : FTree κ) (p : Path) : Option (Entry κ) := (t.at' p).map entry

/-- Change what is in the directory. -/
def onKids (g : Dir κ → Dir κ) : FTree κ → FTree κ
  | .leaf m l => .leaf m l
  | .dir m d => .dir m (g d)

/-- The tree with the file at a path changed by `f`; at the root `f` cannot remove the file. -/
def update (f : Option (FTree κ) → Option (FTree κ)) : Path → FTree κ → FTree κ
  | [], t => (f (some t)).getD t
  | n :: p, t => t.onKids fun d => d.alter n (match p with
    | [] => f
    | _ :: _ => Option.map (update f p))

variable {t s : FTree κ} {p q : Path} {n : Name} {f : Option (FTree κ) → Option (FTree κ)}

theorem at'_cons : at' (n :: p) t = (t.kids.find n).bind (at' p) := rfl

theorem at'_append : at' (p ++ q) t = (at' p t).bind (at' q) := by
  induction p generalizing t with
  | nil => rfl
  | cons n p ih =>
    rw [List.cons_append, at'_cons, at'_cons, Option.bind_assoc]
    congr 1
    funext s
    exact ih

theorem sorted_kids (h : t.sorted = true) : t.kids.sorted = true := by
  cases t with
  | leaf m l => rfl
  | dir m d => exact h

theorem sorted_at' (ht : t.sorted = true) (h : at' p t = some s) : s.sorted = true := by
  induction p generalizing t with
  | nil => exact Option.some.inj h ▸ ht
  | cons n p ih =>
    rw [at'_cons] at h
    obtain ⟨c, hc, h⟩ := Option.bind_eq_some_iff.1 h
    exact ih (Dir.sorted_of_find (sorted_kids ht) hc) h

@[simp] theorem look_nil : t.look [] = some t.entry := rfl

theorem look_cons : t.look (n :: p) = (t.kids.find n).bind fun c => c.look p := by
  unfold look
  rw [at'_cons]
  cases t.kids.find n <;> rfl

theorem look_append : t.look (p ++ q) = (at' p t).bind fun s => s.look q := by
  unfold look
  rw [at'_append]
  cases at' p t <;> rfl

theorem dir_of_look (h : t.look (p ++ n :: q) = some e) :
    ∃ m, t.look p = some ⟨m, none⟩ := by
  rw [look_append] at h
  obtain ⟨s, hs, h⟩ := Option.bind_eq_some_iff.1 h
  cases s with
  | leaf m l => simp [look_cons, kids, Dir.find] at h
  | dir m d => exact ⟨m, by rw [look, hs]; rfl⟩

theorem look_below (h : ∀ m, t.look p ≠ some ⟨m, none⟩) : t.look (p ++ n :: q) = none := by
  by_contra hne
  obtain ⟨e, he⟩ := Option.ne_none_iff_exists'.1 hne
  obtain ⟨m, hm⟩ := dir_of_look he
  exact h m hm

@[simp] theorem entry_onKids {g : Dir κ → Dir κ} : (t.onKids g).entry = t.entry := by
  cases t <;> rfl

theorem entry_update (hp : p ≠ []) : (update f p t).entry = t.entry := by
  match p, hp with
  | n :: p, _ => exact entry_onKids

/-- `update` goes down one step. -/
theorem look_update_child {k : Name} (ht : t.sorted = true) :
    (update f (n :: k :: p) t).look (n :: q)
      = (t.kids.find n).bind fun c => (update f (k :: p) c).look q := by
  cases t with
  | leaf m l => rfl
  | dir m d =>
    rw [look_cons]
    show ((d.alter n _).find n).bind _ = _
    rw [Dir.find_alter_self ht]
    show (Option.map _ (d.find n)).bind _ = (d.find n).bind _
    cases d.find n <;> rfl

theorem look_update_of_ne {k : Name} (hk : k ≠ n) :
    (update f (n :: p) t).look (k :: q) = t.look (k :: q) := by
  cases t with
  | leaf m l => rfl
  | dir m d =>
    rw [look_cons, look_cons]
    show ((d.alter n _).find k).bind _ = (d.find k).bind _
    rw [Dir.find_alter_of_ne hk]

/-- `update` is seen at its path and below only. -/
theorem look_update_of_not_prefix (ht : t.sorted = true) (h : ¬ p <+: q) :
    (update f p t).look q = t.look q := by
  induction p generalizing t q with
  | nil => exact absurd List.nil_prefix h
  | cons n p ih =>
    cases q with
    | nil => rw [look_nil, look_nil, entry_update (List.cons_ne_nil _ _)]
    | cons k q =>
      by_cases hk : k = n
      · subst hk
        have hq : ¬ p <+: q := fun hq => h (List.cons_prefix_cons.2 ⟨rfl, hq⟩)
        cases p with
        | nil => exact absurd List.nil_prefix hq
        | cons j p =>
          rw [look_update_child ht, look_cons]
          cases hc : t.kids.find k with
          | none => rfl
          | some c => exact ih (Dir.sorted_of_find (sorted_kids ht) hc) hq
      · exact look_update_of_ne hk

/-- What `update` makes below a directory. -/
theorem look_update_append (ht : t.sorted = true) {m : Meta} (h : t.look p = some ⟨m, none⟩) :
    (update f (p ++ [n]) t).look (p ++ n :: q) = (f (at' (p ++ [n]) t)).bind fun s => s.look q := by
  induction p generalizing t with
  | nil =>
    cases t with
    | leaf m' l => simp [entry] at h
    | dir m' d =>
      rw [List.nil_append, List.nil_append, look_cons]
      show ((d.alter n f).find n).bind _ = _
      rw [Dir.find_alter_self ht, at'_cons]
      show (f (d.find n)).bind _ = (f ((d.find n).bind some)).bind _
      rw [Option.bind_fun_some]
  | cons k p ih =>
    have hsplit : p ++ [n] ≠ [] := by simp
    obtain ⟨j, r, hj⟩ := List.exists_cons_of_ne_nil hsplit
    rw [List.cons_append, List.cons_append, hj, look_update_child ht, at'_cons, ← hj]
    rw [look_cons] at h
    obtain ⟨c, hc, h⟩ := Option.bind_eq_some_iff.1 h
    rw [hc, Option.bind_some, Option.bind_some]
    exact ih (Dir.sorted_of_find (sorted_kids ht) hc) h

/-- `update` keeps every directory in order. -/
theorem sorted_update (ht : t.sorted = true)
    (hf : ∀ o s, (∀ c, o = some c → c.sorted = true) → f o = some s → s.sorted = true) :
    (update f p t).sorted = true := by
  induction p generalizing t with
  | nil =>
    unfold update
    cases h : f (some t) with
    | none => exact ht
    | some s => exact hf _ s (fun c hc => Option.some.inj hc ▸ ht) h
  | cons n p ih =>
    cases t with
    | leaf m l => rfl
    | dir m d =>
      have hd : d.sorted = true := ht
      have hin : ∀ c, d.find n = some c → c.sorted = true := fun c hc => Dir.sorted_of_find hd hc
      refine Dir.sorted_alter (fun s hs => ?_) hd
      cases p with
      | nil => exact hf _ s hin hs
      | cons j p =>
        obtain ⟨c, hc, rfl⟩ := Option.map_eq_some_iff.1 hs
        exact ih (hin c hc)

end FTree

namespace Dir

def look (d : Dir κ) : Path → Option (Entry κ)
  | [] => none
  | n :: q => (d.find n).bind fun t => t.look q

/-- The entries behind a name. -/
def beyond (n : Name) : Dir κ → Dir κ
  | .nil => .nil
  | .cons k t rest => if n < k then .cons k t rest else rest.beyond n

variable {d rest : Dir κ} {n m : Name} {t : FTree κ} {q : Path}

theorem look_kids : t.look (n :: q) = t.kids.look (n :: q) := FTree.look_cons

@[simp] theorem look_nil_dir : (Dir.nil : Dir κ).look q = none := by
  cases q <;> rfl

theorem sorted_beyond : ∀ {d : Dir κ}, d.sorted = true → (d.beyond n).sorted = true
  | .nil, _ => rfl
  | .cons k t rest, hd => by
    unfold beyond
    split_ifs
    · exact hd
    · exact sorted_beyond (sorted_cons.1 hd).2.1

theorem beyond_of_after : ∀ {d : Dir κ}, d.after n = true → d.beyond n = d
  | .nil, _ => rfl
  | .cons _ _ _, hd => if_pos (after_cons.1 hd).1

theorem after_beyond : ∀ {d : Dir κ}, d.sorted = true → (d.beyond n).after n = true
  | .nil, _ => rfl
  | .cons k t rest, hd => by
    obtain ⟨-, hr, ha⟩ := sorted_cons.1 hd
    unfold beyond
    by_cases hk : n < k
    · rw [if_pos hk]
      exact after_cons.2 ⟨hk, after_trans hk ha⟩
    · rw [if_neg hk]
      exact after_beyond hr

/-- The entries behind a name are those behind it in the order. -/
theorem find_beyond : ∀ {d : Dir κ}, d.sorted = true →
    (d.beyond n).find m = if n < m then d.find m else none
  | .nil, _ => by simp [beyond, find]
  | .cons k t rest, hd => by
    obtain ⟨-, hr, ha⟩ := sorted_cons.1 hd
    unfold beyond
    by_cases hk : n < k
    · rw [if_pos hk]
      by_cases hm : n < m
      · rw [if_pos hm]
      · rw [if_neg hm]
        have hmk : m < k := (not_lt.1 hm).trans_lt hk
        exact find_of_after (after_cons.2 ⟨hmk, after_trans hmk ha⟩)
    · rw [if_neg hk, find_beyond hr]
      by_cases hm : n < m
      · have hkm : k ≠ m := ((not_lt.1 hk).trans_lt hm).ne
        rw [if_pos hm, if_pos hm, find_cons_of_ne hkm]
      · rw [if_neg hm, if_neg hm]

theorem look_beyond (hd : d.sorted = true) :
    (d.beyond n).look (m :: q) = if n < m then d.look (m :: q) else none := by
  rw [look, find_beyond hd]
  split_ifs <;> rfl

theorem look_cons_of_ne (h : m ≠ n) : (Dir.cons m t rest).look (n :: q) = rest.look (n :: q) := by
  rw [look, look, find_cons_of_ne h]

theorem look_of_find (h : d.find n = some t) : (fun q => d.look (n :: q)) = t.look := by
  funext q
  rw [look, h]
  rfl

theorem look_of_find_none (h : d.find n = none) : (fun q => d.look (n :: q)) = fun _ => none := by
  funext q
  rw [look, h]
  rfl

end Dir

/-! ### Occurrences

In a listing that is not sorted a name may occur more than once; `Occurs` is true of every entry
that stands at a path, not of the first only. -/

mutual

/-- The entry stands at this path. -/
def FTree.Occurs (e : Entry κ) : Path → FTree κ → Prop
  | [], t => t.entry = e
  | _ :: _, .leaf _ _ => False
  | n :: q, .dir _ d => d.Occurs e n q

/-- The entry stands below one of the entries of this name. -/
def Dir.Occurs (e : Entry κ) (n : Name) (q : Path) : Dir κ → Prop
  | .nil => False
  | .cons k t rest => (k = n ∧ t.Occurs e q) ∨ rest.Occurs e n q

end

mutual

theorem FTree.look_of_occurs : ∀ {t : FTree κ} {q : Path}, t.sorted = true →
    t.Occurs e q → t.look q = some e
  | .leaf m l, [], _, h => congrArg some h
  | .dir m d, [], _, h => congrArg some h
  | .leaf m l, n :: q, _, h => h.elim
  | .dir m d, n :: q, ht, h => by
    rw [FTree.look_cons]
    exact Dir.look_of_occurs ht h

/-- In order, what occurs at a path is what `look` finds there. -/
theorem Dir.look_of_occurs {n : Name} {q : Path} : ∀ {d : Dir κ}, d.sorted = true →
    d.Occurs e n q → (d.find n).bind (fun c => c.look q) = some e
  | .cons k t rest, hd, h => by
    obtain ⟨ht, hr, ha⟩ := Dir.sorted_cons.1 hd
    rcases h with ⟨rfl, h⟩ | h
    · rw [Dir.find_cons_self]
      exact FTree.look_of_occurs ht h
    · have hrest := Dir.look_of_occurs hr h
      obtain ⟨c, hc, -⟩ := Option.bind_eq_some_iff.1 hrest
      rw [Dir.find_cons_of_ne (Dir.lt_of_find ha hc).ne]
      exact hrest

end

mutual

/-- Every name below is one of these. -/
def FTree.named (P : Name → Bool) : FTree κ → Bool
  | .leaf _ _ => true
  | .dir _ d => d.named P

/-- Every name here and below is one of these. -/
def Dir.named (P : Name → Bool) : Dir κ → Bool
  | .nil => true
  | .cons n t rest => P n && t.named P && rest.named P

end

theorem Dir.named_find {P : Name → Bool} {n : Name} {t : FTree κ} : ∀ {d : Dir κ},
    d.named P = true → d.find n = some t → P n = true ∧ t.named P = true
  | .cons m s rest, hd, h => by
    obtain ⟨⟨hm, hs⟩, hr⟩ : (P m = true ∧ s.named P = true) ∧ rest.named P = true := by
      simpa [Dir.named] using hd
    by_cases he : m = n
    · subst he
      rw [Dir.find_cons_self] at h
      exact ⟨hm, Option.some.inj h ▸ hs⟩
    · rw [Dir.find_cons_of_ne he] at h
      exact Dir.named_find hr h

/-- Every name on the way to an entry is one of these. -/
theorem FTree.named_look {P : Name → Bool} {t : FTree κ} {q : Path} (ht : t.named P = true)
    (h : t.look q = some e) : ∀ n ∈ q, P n = true := by
  induction q generalizing t with
  | nil => nofun
  | cons n q ih =>
    rw [FTree.look_cons] at h
    obtain ⟨s, hs, h⟩ := Option.bind_eq_some_iff.1 h
    have hk : t.kids.named P = true := by
      cases t with
      | leaf m l => rfl
      | dir m d => exact ht
    obtain ⟨hn, hs'⟩ := Dir.named_find hk hs
    intro m hm
    rcases List.mem_cons.1 hm with rfl | hm
    · exact hn
    · exact ih hs' h m hm

theorem Dir.named_look {P : Name → Bool} {d : Dir κ} {q : Path} (hd : d.named P = true)
    (h : d.look q = some e) : ∀ n ∈ q, P n = true := by
  cases q with
  | nil => cases h
  | cons n q =>
    obtain ⟨s, hs, h⟩ := Option.bind_eq_some_iff.1 h
    obtain ⟨hn, hs'⟩ := Dir.named_find hd hs
    intro m hm
    rcases List.mem_cons.1 hm with rfl | hm
    · exact hn
    · exact FTree.named_look hs' h m hm

end FileTree
