import Dstore.Lib.Lex
import Dstore.Lib.Lists
import Dstore.Lib.PosixConfined
import Dstore.Lib.Ranked
import Dstore.Proofs.Worktree.Rules

/-!
# The applier stays inside the working copy

A path that passes the check of its components is plain, so each step on it keeps `Confined`. What
remains are the calls made later by literal path: a directory opened for a deletion may be replaced
by a link before its mode is restored.
-/

namespace Dstore.Worktree

open FileTree Posix Hoare

variable {κ : Type}

variable {s : St κ} {e : Entry κ}

theorem parts_ne_nil {p : Bytes} : parts p ≠ [] := List.splitOn_ne_nil _ _

theorem intercalate_parts (p : Bytes) : [47].intercalate (parts p) = p := List.intercalate_splitOn 47

theorem parts_injective {p q : Bytes} (h : parts p = parts q) : p = q := by
  rw [← intercalate_parts p, ← intercalate_parts q, h]

theorem le_of_parts_isPrefix {p q : Bytes} (h : parts p <+: parts q) : p ≤ q := by
  obtain ⟨r, hr⟩ := h
  by_cases hnil : r = []
  · rw [hnil, List.append_nil] at hr
    exact (parts_injective hr).le
  · have hq : q = p ++ ([47] ++ [47].intercalate r) := by
      rw [← intercalate_parts q, ← hr, Lists.intercalate_append hnil parts_ne_nil, intercalate_parts]
    rw [hq]
    exact (LexOrder.lt_append (by simp)).le

theorem dropLast_concat_parts (p : Bytes) : ∃ n, parts p = (parts p).dropLast ++ [n] :=
  ⟨_, (List.dropLast_append_getLast parts_ne_nil).symm⟩

section check

variable {S : Setting κ} {D : FTree κ}

theorem plain_single {k : Name} (hroot : D.typeAt S.cwd = some .dir) : Plain D S.cwd [k] := by
  intro q n r hq
  cases q with
  | nil =>
    rw [List.append_nil]
    exact .inr hroot
  | cons j q => simp at hq

theorem rejectUp_ok (hroot : D.typeAt S.cwd = some .dir) : ∀ {up : List Name},
    (∀ n ∈ up, Proper n) → rejectUp S D up = .ok () → ∀ k, Plain D S.cwd (up.reverse ++ [k])
  | [], _, _, k => plain_single hroot
  | n :: up, hn, h, k => by
    have hrev : (n :: up).reverse = up.reverse ++ [n] := List.reverse_cons
    have hproper : ∀ m ∈ (n :: up).reverse, Proper m := fun m hm => hn m (List.mem_reverse.1 hm)
    have ih : rejectUp S D up = .ok () → ∀ k, Plain D S.cwd (up.reverse ++ [k]) :=
      rejectUp_ok hroot fun m hm => hn m (List.mem_cons_of_mem _ hm)
    unfold rejectUp at h
    split at h
    · rename_i hl
      have hplain : Plain D S.cwd (n :: up).reverse := hrev ▸ ih h n
      exact hplain.snoc (.inl (Proc.statAs_noent hproper hplain.straight (by nofun) hl))
    · cases h
    · rename_i e hl
      split_ifs at h with h1 h2
      have hplain : Plain D S.cwd (n :: up).reverse := hrev ▸ ih h n
      refine hplain.snoc (.inr ?_)
      rw [FTree.typeAt, Proc.statAs_ok hproper hplain.straight (by nofun) hl]
      exact congrArg some (of_decide_eq_true ((Bool.not_eq_false _).mp h2))

theorem plain_of_reject (hcwd : S.cwd ≠ []) (hroot : D.typeAt S.cwd = some .dir) {t : Path}
    (ht : t ≠ []) (hn : ∀ n ∈ t, Proper n) (h : rejectSymlinkComponents S D t = .ok ()) :
    Plain D S.cwd t := by
  unfold rejectSymlinkComponents at h
  rw [if_neg hcwd] at h
  have := rejectUp_ok hroot
    (fun n hm => hn n (List.dropLast_subset t (List.mem_reverse.1 hm))) h (t.getLast ht)
  rwa [List.reverse_reverse, List.dropLast_append_getLast] at this

end check

section steps

variable {S : Setting κ} {W : FTree κ} {t : Path} {free solid ok : Path → Prop} {keep : Name → Prop}

/-- The directories that were opened. -/
def St.keys (s : St κ) : List Path := s.restore.map Prod.fst

/-- The invariant of the steps: the world is confined, no link leads to a directory that was opened,
and `ok` holds of every such directory. -/
def Safe (S : Setting κ) (keep : Name → Prop) (W : FTree κ) (t : Path)
    (free solid ok : Path → Prop) (s : St κ) : Prop :=
  Confined S.cwd keep W t (fun d => d ∈ s.keys ∨ free d) solid s.world ∧ ∀ d ∈ s.keys, ok d

theorem keeps_sys {α : Type} {f : World κ → α × World κ}
    (h : ∀ w fr, (∀ d, free d → fr d) → (∀ d, fr d → free d ∨ ok d) →
      Confined S.cwd keep W t fr solid w → Confined S.cwd keep W t fr solid (f w).2) :
    Keeps (Safe S keep W t free solid ok) (sys f) :=
  holds_sys fun s hs =>
    ⟨h s.world _ (fun _ => .inr) (fun d hd => hd.symm.imp_right (hs.2 d)) hs.1, hs.2⟩

theorem keeps_must {α : Type} {f : World κ → Except Errno α × World κ}
    (h : ∀ w fr, (∀ d, free d → fr d) → (∀ d, fr d → free d ∨ ok d) →
      Confined S.cwd keep W t fr solid w → Confined S.cwd keep W t fr solid (f w).2) :
    Keeps (Safe S keep W t free solid ok) (must f) :=
  Holds.bind (keeps_sys h) fun _ => holds_check (fun _ _ _ hs => hs) fun _ _ _ hs => hs

theorem parent_ne_link {w : World κ} {fr : Path → Prop} {k : Name} (hk : t = t.dropLast ++ [k])
    (h : Confined S.cwd keep W t fr solid w) : w.disk.1.typeAt (S.cwd ++ t.dropLast) ≠ some .lnk := by
  intro hl
  rcases h.plain _ _ _ hk with h | h <;> rw [h] at hl <;> cases hl

variable (hn : Allowed keep t)

include hn

theorem allowed_parent : Allowed keep t.dropLast := hn.of_prefix (List.dropLast_prefix t)

/-- The directory above is opened, and noted before it is. -/
theorem keeps_writable {J : St κ → Prop} {k : Name} (hk : t = t.dropLast ++ [k])
    (hok : ∀ s, Safe S keep W t free solid ok s → J s → t.dropLast ∉ s.keys →
      ∀ m, s.world.disk.1.look (S.cwd ++ t.dropLast) = some ⟨m, none⟩ → m.perm &&& 0o700 ≠ 0o700 →
        ok t.dropLast)
    (hset : ∀ s m, J s → J { s with restore := s.restore ++ [(t.dropLast, m)] })
    (hmod : ∀ s mode, Safe S keep W t free solid ok s → J s → t.dropLast ∈ s.keys →
      J { s with world := (S.chmod t.dropLast mode s.world).2 }) :
    Keeps (fun s => Safe S keep W t free solid ok s ∧ J s) (writable S t.dropLast) := by
  refine Holds.bind (holds_get (Q := fun s₀ s => s₀ = s ∧ Safe S keep W t free solid ok s ∧ J s)
    fun s hs => ⟨rfl, hs⟩) fun s₀ => ?_
  by_cases hmem : t.dropLast ∈ s₀.restore.map Prod.fst
  · rw [if_pos hmem]
    exact Holds.pure fun s hs => hs.2
  rw [if_neg hmem]
  cases hl : S.lstat t.dropLast s₀.world.disk.1 with
  | error e => exact Holds.pure fun s hs => hs.2
  | ok e =>
    dsimp only
    by_cases hp : e.isDir = false ∨ e.info.perm &&& 0o700 = 0o700
    · rw [if_pos hp]
      exact Holds.pure fun s hs => hs.2
    rw [if_neg hp]
    push Not at hp
    obtain ⟨hdir, hperm⟩ := hp
    refine Holds.bind (holds_set (Q := fun _ s => Safe S keep W t free solid ok s ∧ J s ∧
      t.dropLast ∈ s.keys) ?_) fun _ => ?_
    · rintro s ⟨rfl, hs, hJ⟩
      have hlook : s₀.world.disk.1.look (S.cwd ++ t.dropLast) = some e :=
        Proc.statAs_ok (allowed_parent hn).proper (hs.1.straight_isPrefix (List.dropLast_prefix t))
          (by simp) hl
      have hleaf : e.leaf = none := Entry.isDir_iff.1 ((Bool.not_eq_false _).mp hdir)
      have hlook' : s₀.world.disk.1.look (S.cwd ++ t.dropLast) = some ⟨e.info, none⟩ := hleaf ▸ hlook
      have hkeys : ∀ d, d ∈ (s₀.restore ++ [(t.dropLast, e.info.perm)]).map Prod.fst ↔
          d ∈ s₀.keys ∨ d = t.dropLast := by
        intro d
        simp [St.keys]
      refine ⟨⟨hs.1.weaken hs.1.plain ?_ fun d hd => hd, ?_⟩, hset s₀ _ hJ, (hkeys _).2 (.inr rfl)⟩
      · rintro d (hd | hd) q hq
        · rcases (hkeys d).1 hd with hd | rfl
          · exact hs.1.free_ne _ (.inl hd) q hq
          · obtain ⟨u, hu⟩ := hq
            cases u with
            | nil =>
              rw [List.append_nil] at hu
              rw [hu]
              exact parent_ne_link hk hs.1
            | cons n u =>
              rw [FTree.typeAt_above (n := n) (q := u)]
              · simp
              · rw [List.append_assoc, hu, FTree.typeAt, hlook]
                simp
        · exact hs.1.free_ne d (.inr hd) q hq
      · intro d hd
        rcases (hkeys d).1 hd with hd | rfl
        · exact hs.2 _ hd
        · exact hok s₀ hs hJ hmem e.info hlook' hperm
    · exact holds_sys fun s hs => ⟨⟨hs.1.1.chmod (allowed_parent hn)
        (hs.1.1.straight_isPrefix (List.dropLast_prefix t)) (parent_ne_link hk hs.1.1), hs.1.2⟩,
        hmod s _ hs.1 hs.2.1 hs.2.2⟩

theorem keeps_applyMeta (hf : e.isLink = false → free t) :
    Keeps (Safe S keep W t free solid ok) (applyMeta S t e) := by
  have hlnk : ∀ w fr, (∀ d, free d → fr d) → Confined S.cwd keep W t fr solid w → e.isLink = false →
      w.disk.1.typeAt (S.cwd ++ t) ≠ some .lnk := fun w fr hfr h hl =>
    h.free_ne t (hfr t (hf hl)) t List.prefix_rfl
  refine Holds.bind (Q := fun _ => Safe S keep W t free solid ok) (holds_given (fun _ => ?_)
    fun _ s hs => hs) fun _ => Holds.bind (Q := fun _ => Safe S keep W t free solid ok)
    (holds_given (fun hl => ?_) fun _ s hs => hs) fun _ => ?_
  · exact holds_wrap (keeps_must fun w fr _ _ h => h.lchown hn h.plain.straight)
  · exact holds_wrap (keeps_must fun w fr hfr _ h =>
      h.chmod hn h.plain.straight (hlnk w fr hfr h (by simpa using hl)))
  · exact holds_wrap (keeps_must fun w fr hfr _ h =>
      h.utimes hn h.plain.straight fun hl => hlnk w fr hfr h (by simpa using hl))

section place

variable (hkeep : ∀ s, ¬ keep (tmpName ++ s)) (ht : t ≠ [])

include ht

include hkeep in
/-- A regular file is written inside. -/
theorem keeps_writeRegular {content : κ} :
    Keeps (Safe S keep W t free solid ok) (writeRegular S t content) := by
  have hk : t = t.dropLast ++ [t.getLast ht] := (List.dropLast_append_getLast ht).symm
  have hpre : 2 < tmpName.length := by decide
  refine Holds.bind (Q := fun tmp s => Safe S keep W t free solid ok s ∧ ∃ n, Allowed keep [n] ∧
    tmp = t.dropLast ++ [n] ∧ s.world.disk.1.typeAt (S.cwd ++ tmp) = some .reg ∧
    ∀ c, solid c → ¬ tmp <+: c) (holds_must ?_ ?_) fun tmp => ?_
  · intro s tmp hs htmp
    obtain ⟨h₁, h₂⟩ := hs.1.createTemp hk hn hpre hkeep
    exact ⟨⟨h₁, hs.2⟩, h₂ tmp htmp⟩
  · intro s e hs _
    exact ⟨(hs.1.createTemp hk hn hpre hkeep).1, hs.2⟩
  refine Holds.weaken (Holds.given (p := ∃ n, Allowed keep [n] ∧ tmp = t.dropLast ++ [n] ∧
      ∀ c, solid c → ¬ tmp <+: c) (P := fun s => Safe S keep W t free solid ok s ∧
      s.world.disk.1.typeAt (S.cwd ++ tmp) = some .reg) (Q := fun _ => Safe S keep W t free solid ok)
      (E := fun _ => Safe S keep W t free solid ok) ?_)
    (fun s ⟨hs, n, h1, h2, h3, h4⟩ => ⟨⟨n, h1, h2, h4⟩, hs, h3⟩) (fun _ _ h => h) fun _ _ h => h
  rintro ⟨n, hpn, rfl, hsol'⟩
  have hall : Allowed keep (t.dropLast ++ [n]) := (hk ▸ hn).beside hpn
  have hrem : Keeps (Safe S keep W t free solid ok) (sys (S.remove (t.dropLast ++ [n]))) :=
    keeps_sys fun w fr _ _ h => h.remove hall (by simp) (h.straight_beside hk) hsol'
  by_cases hhas : S.has content = false
  · rw [if_pos hhas]
    exact Holds.bind (hrem.weaken (fun s hs => hs.1) (fun _ _ h => h) fun _ _ h => h) fun _ =>
      Holds.throw fun s hs => hs
  rw [if_neg hhas]
  refine Holds.bind (Q := fun _ s => Safe S keep W t free solid ok s ∧
    s.world.disk.1.typeAt (S.cwd ++ (t.dropLast ++ [n])) = some .reg)
    (holds_sys fun s hs => ?_) fun r => ?_
  · obtain ⟨h₁, h₂⟩ := hs.1.1.write hall content (by simp) (hs.1.1.straight_beside hk)
    exact ⟨⟨h₁, hs.1.2⟩, (h₂ _).trans hs.2⟩
  cases r with
  | error e =>
    exact Holds.bind (hrem.weaken (fun s hs => hs.1) (fun _ _ h => h) fun _ _ h => h) fun _ =>
      Holds.throw fun s hs => hs
  | ok u =>
    refine Holds.bind (Q := fun _ => Safe S keep W t free solid ok)
      (holds_sys fun s hs => ?_) fun r => ?_
    · exact ⟨hs.1.1.rename hk hn hpn hs.2 hsol', hs.1.2⟩
    · cases r with
      | ok u => exact Holds.pure fun s hs => hs
      | error e => exact Holds.bind hrem fun _ => Holds.throw fun s hs => hs

variable (hsol : ∀ d, solid d → ¬ t <+: d)

include hsol

/-- What is at the path afterwards has the type of the entry, if anything. -/
theorem holds_clearTarget :
    Holds (Safe S keep W t free solid ok) (clearTarget S t e)
      (fun _ s => Safe S keep W t free solid ok s ∧
        (s.world.disk.1.typeAt (S.cwd ++ t) = none ∨ s.world.disk.1.typeAt (S.cwd ++ t) = some e.type))
      fun _ => Safe S keep W t free solid ok := by
  refine Holds.bind (holds_disk (Q := fun D s => D = s.world.disk.1 ∧ Safe S keep W t free solid ok s)
    fun s hs => ⟨rfl, hs⟩) fun D => ?_
  cases hl : S.lstat t D with
  | error err =>
    cases err with
    | noent =>
      refine Holds.pure ?_
      rintro s ⟨rfl, hs⟩
      exact ⟨hs, .inl (Proc.statAs_noent hn.proper hs.1.plain.straight (by nofun) hl)⟩
    | _ => exact Holds.throw fun s hs => hs.2
  | ok e' =>
    dsimp only
    by_cases hty : e'.type ≠ e.type
    · rw [if_pos hty]
      refine holds_must ?_ ?_
      · rintro s a ⟨rfl, hs⟩ ha
        obtain ⟨h₁, h₂⟩ := hs.1.removeAll hn ht hsol
        exact ⟨⟨h₁, hs.2⟩, .inl (h₂ ha)⟩
      · rintro s err ⟨rfl, hs⟩ -
        exact ⟨(hs.1.removeAll hn ht hsol).1, hs.2⟩
    · rw [if_neg hty]
      refine Holds.pure ?_
      rintro s ⟨rfl, hs⟩
      refine ⟨hs, .inr ?_⟩
      rw [FTree.typeAt, Proc.statAs_ok hn.proper hs.1.plain.straight (by nofun) hl, ← not_not.1 hty]
      rfl

theorem keeps_replaceBy {g : Fault → Fault} {make : World κ → Except Errno Unit × World κ}
    (h : ∀ w fr, (∀ d, free d → fr d) → (∀ d, fr d → free d ∨ ok d) →
      Confined S.cwd keep W t fr solid w → Confined S.cwd keep W t fr solid (make w).2) :
    Keeps (Safe S keep W t free solid ok) (replaceBy S t g make) := by
  refine Holds.bind (keeps_sys fun w fr _ _ h => h.remove hn ht h.plain.straight hsol) fun r => ?_
  split
  · exact holds_wrap (keeps_must h)
  · exact holds_wrap (keeps_must h)
  · exact Holds.throw fun s hs => hs

include hkeep in
theorem keeps_writeContent {l : Leaf κ} (hlink : l.type = .lnk → ∀ d, free d ∨ ok d → ¬ t <+: d) :
    Keeps (Safe S keep W t free solid ok) (writeContent S t e l) := by
  have hself : ∀ (n : Name) (r : Path), t ≠ t ++ n :: r := fun n r h0 => by
    have := congrArg List.length h0
    simp at this
  cases l with
  | reg content => exact keeps_writeRegular hn hkeep ht
  | lnk target =>
    exact keeps_replaceBy hn ht hsol fun w fr _ hfr h => h.making hn
      (fun _ _ _ _ hD => Proc.makingUnless_ok hD) h.plain.straight
      (fun _ n r h0 => absurd h0 (hself n r)) fun _ _ d hd => hlink rfl d (hfr d hd)
  | fifo =>
    exact keeps_replaceBy hn ht hsol fun w fr _ _ h => h.making hn
      (fun _ _ _ _ hD => Proc.making_ok hD) h.plain.straight
      (fun _ n r h0 => absurd h0 (hself n r)) (by nofun)
  | chr rdev =>
    exact keeps_replaceBy hn ht hsol fun w fr _ _ h => h.making hn
      (fun _ _ _ _ hD => Proc.makingUnless_ok hD) h.plain.straight
      (fun _ n r h0 => absurd h0 (hself n r)) (by nofun)
  | blk rdev =>
    exact keeps_replaceBy hn ht hsol fun w fr _ _ h => h.making hn
      (fun _ _ _ _ hD => Proc.makingUnless_ok hD) h.plain.straight
      (fun _ n r h0 => absurd h0 (hself n r)) (by nofun)
  | sock => exact Holds.pure fun s hs => hs
  | other b => exact Holds.pure fun s hs => hs

/-- The target is clear for a file of this type. -/
def Cleared (S : Setting κ) (keep : Name → Prop) (W : FTree κ) (t : Path)
    (solid ok : Path → Prop) (ty : FileType)
    (s : St κ) : Prop :=
  Safe S keep W t (fun _ => False) solid ok s ∧
    (s.world.disk.1.typeAt (S.cwd ++ t) = none ∨ s.world.disk.1.typeAt (S.cwd ++ t) = some ty)

include hkeep in
/-- So is any other file, its metadata included. -/
theorem holds_writeFile {k : Kind} {m : Meta} {l : Leaf κ}
    (hlink : l.type = .lnk → ∀ d, ok d → ¬ t <+: d) :
    Holds (Cleared S keep W t solid ok l.type) (writeFile S k t ⟨m, some l⟩ l)
      (fun _ => Safe S keep W t (fun _ => False) solid ok)
      fun _ => Safe S keep W t (fun _ => False) solid ok := by
  -- a path that is to be no link is none now, and stays none
  let free : Path → Prop := fun d => l.type ≠ .lnk ∧ d = t
  have hin : ∀ s, Cleared S keep W t solid ok l.type s → Safe S keep W t free solid ok s := by
    rintro s ⟨hs, hty⟩
    refine ⟨hs.1.weaken hs.1.plain ?_ fun d hd => hd, hs.2⟩
    rintro d (hd | ⟨hl, rfl⟩) q ⟨r, hq⟩
    · exact hs.1.free_ne d (.inl hd) q ⟨r, hq⟩
    · intro hlnk
      cases r with
      | nil =>
        rw [List.append_nil] at hq
        rw [hq] at hlnk
        rcases hty with h | h <;> rw [hlnk] at h
        · cases h
        · exact hl (Option.some.inj h).symm
      | cons n r =>
        rcases hs.1.plain q n r hq.symm with h | h <;> rw [h] at hlnk <;> cases hlnk
  have hout : ∀ s, Safe S keep W t free solid ok s → Safe S keep W t (fun _ => False) solid ok s := by
    rintro s ⟨h, hok⟩
    refine ⟨h.weaken h.plain ?_ fun d hd => hd, hok⟩
    rintro d (hd | hd) q hq
    · exact h.free_ne d (.inl hd) q hq
    · exact hd.elim
  have hcontent : Keeps (Safe S keep W t free solid ok) (writeContent S t ⟨m, some l⟩ l) :=
    keeps_writeContent hn hkeep ht hsol fun hl d hd => hd.elim (fun h => absurd hl h.1) (hlink hl d)
  have hmeta : Keeps (Safe S keep W t free solid ok) (applyMeta S t ⟨m, some l⟩) :=
    keeps_applyMeta hn fun hl => ⟨of_decide_eq_false hl, rfl⟩
  exact Holds.weaken (Holds.bind (holds_given (fun _ => hcontent) fun _ _ hs => hs) fun _ => hmeta)
    hin (fun _ => hout) fun _ => hout

include hkeep in
/-- The new entry of a change is put in place. -/
theorem holds_writeEntry {c : Change Bytes κ} (hlink : e.isLink = true → ∀ d, ok d → ¬ t <+: d) :
    Holds (Cleared S keep W t solid ok e.type) (writeEntry S c t e)
      (fun _ s => Safe S keep W t (fun _ => False) solid ok s ∧
        (e.leaf = none → s.world.disk.1.typeAt (S.cwd ++ t) = some .dir))
      fun _ => Safe S keep W t (fun _ => False) solid ok := by
  obtain ⟨m, l⟩ := e
  cases l with
  | none =>
    refine Holds.bind (Q := fun r s => Safe S keep W t (fun _ => False) solid ok s ∧
      (r = .ok () ∨ r = .error .exist → s.world.disk.1.typeAt (S.cwd ++ t) = some .dir))
      (holds_sys fun s hs => ⟨⟨hs.1.1.mkdir hn hs.1.1.plain.straight, hs.1.2⟩, fun hr =>
        S.mkdir_dir hn.proper hs.1.1.plain.straight (by rw [hs.1.1.root]; nofun) hs.2 hr⟩) fun r => ?_
    split
    · exact Holds.pure fun s hs => ⟨hs.1, fun _ => hs.2 (.inl rfl)⟩
    · exact Holds.pure fun s hs => ⟨hs.1, fun _ => hs.2 (.inr rfl)⟩
    · exact Holds.throw fun s hs => hs.1
  | some l =>
    have hfile : Holds (Cleared S keep W t solid ok l.type) (wrap (.inPath c.path)
        (writeFile S c.kind t ⟨m, some l⟩ l)) (fun _ s => Safe S keep W t (fun _ => False) solid ok s ∧
        (some l = none → s.world.disk.1.typeAt (S.cwd ++ t) = some .dir))
        fun _ => Safe S keep W t (fun _ => False) solid ok :=
      (holds_wrap (holds_writeFile hn hkeep ht hsol fun hl => hlink (decide_eq_true hl))).weaken
        (fun _ h => h) (fun _ s hs => ⟨hs, by nofun⟩) fun _ _ h => h
    cases l with
    | sock => exact Holds.pure fun s hs => ⟨hs.1, by nofun⟩
    | other b => exact Holds.throw fun s hs => hs.1
    | reg k => exact hfile
    | lnk k => exact hfile
    | fifo => exact hfile
    | chr k => exact hfile
    | blk k => exact hfile

end place

end steps

section change

variable {S : Setting κ} {W : FTree κ} {t : Path} {solid ok : Path → Prop} {keep : Name → Prop}
  (hkeep : ∀ s, ¬ keep (tmpName ++ s))

/-- Every call so far has stayed inside. -/
def Stayed (S : Setting κ) (keep : Name → Prop) (W : FTree κ) (s : St κ) : Prop :=
  ∀ ev ∈ s.world.log, (∀ a ∈ ev.touched, a.2 = S.cwd ++ a.1) ∧ SameOutside S.cwd keep W ev.disk.1

/-- The invariant between two paths. -/
abbrev Between (S : Setting κ) (keep : Name → Prop) (W : FTree κ) (solid ok : Path → Prop) :
    St κ → Prop :=
  Safe S keep W [] (fun _ => False) solid ok

theorem Safe.stayed {free : Path → Prop} (h : Safe S keep W t free solid ok s) :
    Stayed S keep W s :=
  h.1.logged

theorem Safe.between (h : Safe S keep W t (fun _ => False) solid ok s) :
    Between S keep W solid ok s :=
  ⟨h.1.weaken (fun q n r hq => by simp at hq) (fun d hd => h.1.free_ne d hd) fun _ hd => hd, h.2⟩

theorem Safe.on (h : Between S keep W solid ok s) (hp : Plain s.world.disk.1 S.cwd t) :
    Safe S keep W t (fun _ => False) solid ok s :=
  ⟨h.1.weaken hp (fun d hd => h.1.free_ne d hd) fun _ hd => hd, h.2⟩

variable {c : Change Bytes κ} (hcwd : S.cwd ≠ []) (hn : Allowed keep (parts c.path))

include hcwd hn

include hkeep in
/-- A turn of the loop that writes. -/
theorem holds_writeOne (hok : ok (parts c.path).dropLast)
    (hsol : ∀ d, solid d → ¬ parts c.path <+: d)
    (hlink : c.new.any Entry.isLink = true → ∀ d, ok d → ¬ parts c.path <+: d) :
    Holds (Between S keep W solid ok) (writeOne S c)
      (fun _ s => Between S keep W solid ok s ∧ (c.new.any Entry.isDir = true →
        s.world.disk.1.typeAt (S.cwd ++ parts c.path) = some .dir))
      fun _ => Stayed S keep W := by
  obtain ⟨k, hk⟩ := dropLast_concat_parts c.path
  refine Holds.bind (holds_disk (Q := fun D s => D = s.world.disk.1 ∧ Between S keep W solid ok s)
    fun s hs => ⟨rfl, hs⟩) fun D => ?_
  cases hr : rejectSymlinkComponents S D (parts c.path) with
  | error f => exact Holds.throw fun s hs => hs.2.stayed
  | ok u =>
    have hin : ∀ s, D = s.world.disk.1 ∧ Between S keep W solid ok s →
        Safe S keep W (parts c.path) (fun _ => False) solid ok s := by
      rintro s ⟨rfl, hs⟩
      exact Safe.on hs (plain_of_reject hcwd hs.1.root parts_ne_nil hn.proper hr)
    have hmk : Keeps (Safe S keep W (parts c.path) (fun _ => False) solid ok)
        (must (S.mkdirAll (parts c.path).dropLast 0o755)) :=
      keeps_must fun w fr _ _ h => h.mkdirUp hn
        (by rw [List.reverse_reverse]; exact List.dropLast_prefix _)
    have hwr : Keeps (Safe S keep W (parts c.path) (fun _ => False) solid ok)
        (writable S (parts c.path).dropLast) :=
      (keeps_writable hn (J := fun _ => True) hk (fun _ _ _ _ _ _ _ => hok) (fun _ _ _ => trivial)
        fun _ _ _ _ _ => trivial).weaken (fun _ h => ⟨h, trivial⟩) (fun _ _ h => h.1) fun _ _ h => h.1
    refine Holds.weaken (P := Safe S keep W (parts c.path) (fun _ => False) solid ok)
      (Q := fun _ s => Safe S keep W (parts c.path) (fun _ => False) solid ok s ∧
        (c.new.any Entry.isDir = true →
          s.world.disk.1.typeAt (S.cwd ++ parts c.path) = some .dir))
      (E := fun _ => Safe S keep W (parts c.path) (fun _ => False) solid ok) ?_ hin
      (fun _ s hs => ⟨hs.1.between, hs.2⟩) fun _ s hs => hs.stayed
    refine Holds.bind hmk fun _ => Holds.bind hwr fun _ =>
      Holds.bind (holds_check (fun _ _ _ hs => hs) fun _ _ _ hs => hs) fun _ => ?_
    cases hnew : c.new with
    | none =>
      refine Holds.bind (holds_disk (Q := fun _ => Safe S keep W (parts c.path) (fun _ => False)
        solid ok) fun s hs => hs) fun D => ?_
      split <;> exact Holds.throw fun s hs => hs
    | some e =>
      rw [hnew] at hlink
      refine Holds.bind (holds_wrap (holds_clearTarget hn parts_ne_nil hsol)) fun _ => ?_
      exact (holds_writeEntry hn hkeep parts_ne_nil hsol hlink).weaken (fun _ hs => hs)
        (fun _ s hs => ⟨hs.1, fun hd => hs.2 (Entry.isDir_iff.1 hd)⟩) fun _ _ hs => hs

end change

section delete

variable {S : Setting κ} {W : FTree κ} {ok : Path → Prop} {keep : Name → Prop}

/-- Deletions leave what remains as it was. -/
def Shrunk (S : Setting κ) (W : FTree κ) (s : St κ) : Prop :=
  ∀ q e', s.world.disk.1.look (S.cwd ++ q) = some e' → ∃ e, W.look (S.cwd ++ q) = some e ∧
    e'.leaf = e.leaf ∧ (q ∉ s.keys → e'.info.perm = e.info.perm)

theorem Shrunk.chmod {d : Path} {mode : BitVec 12} (h : Shrunk S W s) (hn : ∀ n ∈ d, Proper n)
    (hs : Straight s.world.disk.1 S.cwd d) (hl : s.world.disk.1.typeAt (S.cwd ++ d) ≠ some .lnk)
    (hd : d ∈ s.keys) : Shrunk S W { s with world := (S.chmod d mode s.world).2 } := by
  rcases S.act_cases .chmod true (fun _ => S.changing fun m => { m with perm := mode }) hn hs
    (fun _ => hl) with ⟨e, he⟩ | ⟨D, hD, -, he⟩
  · rw [Proc.chmod, he]
    exact h
  · rw [Proc.changing_ok hD] at he
    rw [Proc.chmod, he]
    intro q e' hq
    rw [show ((s.world.did .chmod [(d, S.cwd ++ d)] (s.world.disk.info (S.cwd ++ d)
      fun m => { m with perm := mode })).disk.1.look (S.cwd ++ q)) = _ from Disk.look_info] at hq
    by_cases hqd : q = d
    · subst hqd
      rw [if_pos rfl] at hq
      obtain ⟨e₁, he₁, rfl⟩ := Option.map_eq_some_iff.1 hq
      obtain ⟨e, hW, hleaf, -⟩ := h q e₁ he₁
      exact ⟨e, hW, hleaf, fun hno => absurd hd hno⟩
    · rw [if_neg (by simpa using hqd)] at hq
      exact h q e' hq

theorem Shrunk.remove {d : Path} (h : Shrunk S W s) (hd : d ≠ []) (hn : ∀ n ∈ d, Proper n)
    (hs : Straight s.world.disk.1 S.cwd d) :
    Shrunk S W { s with world := (S.remove d s.world).2 } := by
  rcases S.act_cases .remove false S.removing hn hs (by nofun) with
    ⟨e, he⟩ | ⟨D, hD, -, he⟩
  · rw [Proc.remove, he]
    exact h
  · obtain ⟨-, -, -, rfl⟩ := Proc.removing_ok hD
    rw [Proc.remove, he]
    intro q e' hq
    have hsplit : S.cwd ++ d = S.cwd ++ d.dropLast ++ [d.getLast hd] := by
      rw [List.append_assoc, List.dropLast_append_getLast]
    change (Proc.leave _ (S.cwd ++ d) s.world.disk).1.look (S.cwd ++ q) = some e' at hq
    rw [hsplit, Proc.look_leave] at hq
    split_ifs at hq
    · obtain ⟨e₁, he₁, rfl⟩ := Option.map_eq_some_iff.1 hq
      exact h q e₁ he₁
    · exact h q e' hq

variable {c : Change Bytes κ} (hcwd : S.cwd ≠ []) (hn : Allowed keep (parts c.path))

include hcwd hn

/-- A turn of the loop that deletes. -/
theorem holds_deleteOne (hok : ∀ m, W.look (S.cwd ++ (parts c.path).dropLast) = some ⟨m, none⟩ →
      m.perm &&& 0o700 ≠ 0o700 → ok (parts c.path).dropLast) :
    Holds (fun s => Between S keep W (fun _ => False) ok s ∧ Shrunk S W s) (deleteOne S c)
      (fun _ s => Between S keep W (fun _ => False) ok s ∧ Shrunk S W s) fun _ => Stayed S keep W := by
  obtain ⟨k, hk⟩ := dropLast_concat_parts c.path
  refine Holds.bind (holds_disk (Q := fun D s => D = s.world.disk.1 ∧
    Between S keep W (fun _ => False) ok s ∧ Shrunk S W s) fun s hs => ⟨rfl, hs⟩) fun D => ?_
  have hwr : Keeps (fun s => Safe S keep W (parts c.path) (fun _ => False) (fun _ => False) ok s ∧
      Shrunk S W s) (writable S (parts c.path).dropLast) := by
    refine keeps_writable hn hk ?_ ?_ ?_
    · intro s _ hsh hno m hlook hperm
      obtain ⟨⟨m', l⟩, hW, hleaf, hpe⟩ := hsh _ _ hlook
      cases hleaf
      exact hok m' hW (hpe hno ▸ hperm)
    · intro s m hsh q e' hq
      obtain ⟨e, hW, hleaf, hpe⟩ := hsh q e' hq
      refine ⟨e, hW, hleaf, fun hno => hpe fun hin => hno ?_⟩
      simp only [St.keys, List.map_append, List.mem_append] at hin ⊢
      exact .inl hin
    · intro s mode hs hsh hin
      exact hsh.chmod (allowed_parent hn).proper (hs.1.straight_isPrefix (List.dropLast_prefix _))
        (parent_ne_link hk hs.1) hin
  have hrm : Keeps (fun s => Safe S keep W (parts c.path) (fun _ => False) (fun _ => False) ok s ∧
      Shrunk S W s) (removeEmpty S c.path (parts c.path)) := by
    refine Holds.bind
      (Q := fun _ s => Safe S keep W (parts c.path) (fun _ => False) (fun _ => False) ok s ∧
      Shrunk S W s) (holds_sys fun s hs => ?_) fun r => ?_
    · exact ⟨⟨hs.1.1.remove hn parts_ne_nil hs.1.1.plain.straight (fun _ hd => hd.elim), hs.1.2⟩,
        hs.2.remove parts_ne_nil hn.proper hs.1.1.plain.straight⟩
    · split
      · exact Holds.pure fun s hs => hs
      · exact Holds.pure fun s hs => hs
      · exact Holds.pure fun s hs => hs
      · exact Holds.pure fun s hs => hs
      · exact Holds.throw fun s hs => hs
  cases hr : rejectSymlinkComponents S D (parts c.path) with
  | error f =>
    cases f with
    | notDir p => exact Holds.pure fun s hs => hs.2
    | _ => exact Holds.throw fun s hs => hs.2.1.stayed
  | ok u =>
    refine Holds.weaken (Q := fun _ s => Safe S keep W (parts c.path) (fun _ => False)
      (fun _ => False) ok s ∧ Shrunk S W s) (Holds.bind hwr fun r => ?_) ?_
      (fun _ s hs => ⟨hs.1.between, hs.2⟩) fun _ s hs => hs.1.stayed
    · split
      · exact hrm
      · exact hrm
      · exact Holds.throw fun s hs => hs
    · rintro s ⟨rfl, hs, hsh⟩
      exact ⟨Safe.on hs (plain_of_reject hcwd hs.1.root parts_ne_nil hn.proper hr), hsh⟩

end delete

section list

variable {changes : List (Change Bytes κ)} {c : Change Bytes κ}

theorem mem_dels : c ∈ dels changes ↔ c ∈ changes ∧ c.kind = .deleted := by
  simp [dels, descending]

theorem mem_rest : c ∈ rest changes ↔ c ∈ changes ∧ c.kind ≠ .deleted := by
  simp [rest, ascending]

theorem mem_dirs : c ∈ dirs changes ↔ c ∈ rest changes ∧ c.new.any Entry.isDir = true := by
  simp [dirs, descending]

theorem pairwise_rest (hd : (changes.map Change.path).Nodup) :
    (rest changes).Pairwise fun c c' => c.path < c'.path := by
  refine Ranked.pairwise_insertionSort Change.path (fun _ _ _ _ => Iff.rfl) ?_
  exact (List.pairwise_map.1 hd).filter _

variable {S : Setting κ}

theorem holds_checkPaths {s₀ : St κ} : ∀ l : List (Change Bytes κ),
    Holds (fun s => s = s₀) (l.forM fun c => checkPath c.path : M κ PUnit)
      (fun _ s => (∀ c ∈ l, ∀ n ∈ parts c.path, Proper n) ∧ s = s₀) fun _ s => s = s₀
  | [] => Holds.pure fun s hs => ⟨by simp, hs⟩
  | c :: l => by
    refine Holds.bind (Q := fun _ s => (∀ n ∈ parts c.path, Proper n) ∧ s = s₀) ?_ fun _ =>
      Holds.given fun hc => (holds_checkPaths l).weaken (fun _ h => h)
        (fun _ s hs => ⟨List.forall_mem_cons.2 ⟨hc, hs.1⟩, hs.2⟩) fun _ _ h => h
    unfold checkPath
    dsimp only
    split_ifs with h1 h2
    · exact Holds.throw fun s hs => hs
    · exact Holds.throw fun s hs => hs
    · push Not at h2
      exact Holds.pure fun s hs => ⟨h2, hs⟩

end list

section phases

variable {S : Setting κ} {W : FTree κ} {changes : List (Change Bytes κ)} {solid ok : Path → Prop}
  {keep : Name → Prop} (hkeep : ∀ s, ¬ keep (tmpName ++ s))

/-- The directory is one of those written so far. -/
def Written (changes ahead : List (Change Bytes κ)) (d : Path) : Prop :=
  ∃ c ∈ rest changes, c ∉ ahead ∧ c.new.any Entry.isDir = true ∧ d = parts c.path

/-- No link is still to be written above the path. -/
def Unlinked (keep : Name → Prop) (ahead : List (Change Bytes κ)) (d : Path) : Prop :=
  Allowed keep d ∧ ∀ c ∈ ahead, c.new.any Entry.isLink = true → ¬ parts c.path <+: d

include hkeep in
/-- The whole loop that writes. -/
theorem holds_writes (hcwd : S.cwd ≠ []) (hd : (changes.map Change.path).Nodup)
    (hn : ∀ c ∈ changes, Allowed keep (parts c.path)) :
    Holds (Between S keep W (fun _ => False) (Unlinked keep (rest changes)))
      ((rest changes).forM (writeOne S))
      (fun _ => Between S keep W (Written changes []) (Allowed keep))
      fun _ => Stayed S keep W := by
  have hsorted := pairwise_rest hd
  refine (Holds.forM
    (fun ahead => Between S keep W (Written changes ahead) (Unlinked keep ahead)) (rest changes)
    fun c tail hsuf => ?_).weaken ?_ ?_ fun _ _ h => h
  · obtain ⟨pre, hpre⟩ := hsuf
    have hmem : c ∈ rest changes := hpre ▸ List.mem_append_right _ List.mem_cons_self
    have hafter : ∀ c' ∈ tail, c.path < c'.path := by
      rw [← hpre, List.pairwise_append] at hsorted
      exact (List.pairwise_cons.1 hsorted.2.1).1
    have hbefore : ∀ c' ∈ rest changes, c' ∉ c :: tail → c'.path < c.path := by
      intro c' hc' hno
      rw [← hpre] at hc' hsorted
      exact (List.pairwise_append.1 hsorted).2.2 c' ((List.mem_append.1 hc').resolve_right hno) c
        List.mem_cons_self
    have hnc := hn c (mem_rest.1 hmem).1
    have hpar : Unlinked keep (c :: tail) (parts c.path).dropLast := by
      refine ⟨allowed_parent hnc, fun c' hc' _ hp => ?_⟩
      rcases List.mem_cons.1 hc' with rfl | hc'
      · have hlen := hp.length_le
        rw [List.length_dropLast] at hlen
        have := List.length_pos_of_ne_nil (parts_ne_nil (p := c'.path))
        omega
      · exact absurd (le_of_parts_isPrefix (hp.trans (List.dropLast_prefix _))) (hafter c' hc').not_ge
    refine (holds_writeOne hkeep hcwd hnc hpar ?_ ?_).weaken (fun _ h => h) ?_ fun _ _ h => h
    · rintro d ⟨c', hc', hno, -, rfl⟩ hp
      exact absurd (le_of_parts_isPrefix hp) (hbefore c' hc' hno).not_ge
    · exact fun hl d hd => hd.2 c List.mem_cons_self hl
    · rintro _ s ⟨hs, hdir⟩
      refine ⟨⟨hs.1.logged, hs.1.outside, hs.1.root, hs.1.names, hs.1.plain, hs.1.free_ne, ?_⟩,
        fun d hd => ⟨(hs.2 d hd).1, fun c' hc' => (hs.2 d hd).2 c' (List.mem_cons_of_mem _ hc')⟩⟩
      rintro d ⟨c', hc', hno, hc'd, rfl⟩ q hq
      by_cases hcc : c' = c
      · subst hcc
        obtain ⟨r, hr⟩ := hq
        cases r with
        | nil =>
          rw [List.append_nil] at hr
          rw [hr]
          exact hdir hc'd
        | cons n r =>
          refine FTree.typeAt_above (n := n) (q := r) ?_
          rw [List.append_assoc, hr, hdir hc'd]
          nofun
      · exact hs.1.solid_dir _ ⟨c', hc', fun h => hno ((List.mem_cons.1 h).resolve_left hcc), hc'd, rfl⟩
          q hq
  · rintro s ⟨h, hok⟩
    refine ⟨⟨h.logged, h.outside, h.root, h.names, h.plain, h.free_ne, ?_⟩, hok⟩
    rintro d ⟨c, hc, hno, -⟩
    exact absurd hc hno
  · exact fun _ s h => ⟨h.1, fun d hd => (h.2 d hd).1⟩

theorem holds_restoreAll (hn : ∀ d, ok d → Allowed keep d) :
    Keeps (Between S keep W solid ok) (restoreAll S) := by
  refine Holds.bind (holds_get (Q := fun s₀ s => s₀ = s ∧ Between S keep W solid ok s)
    fun s hs => ⟨rfl, hs⟩) fun s₀ => ?_
  refine (Keeps.forM (I := fun s => s.restore = s₀.restore ∧ Between S keep W solid ok s)
    fun r hr => ?_).weaken (fun s hs => ⟨by rw [hs.1], hs.2⟩) (fun _ _ h => h.2) fun _ _ h => h.2
  have hkey : ∀ s : St κ, s.restore = s₀.restore → r.1 ∈ s.keys := fun s hs => by
    rw [St.keys, hs]
    exact List.mem_map_of_mem ((S.order_perm _).mem_iff.1 hr)
  have hstep : ∀ s : St κ, s.restore = s₀.restore → Between S keep W solid ok s →
      Between S keep W solid ok { s with world := (S.chmod r.1 r.2 s.world).2 } := by
    intro s hs h
    refine ⟨h.1.chmod (hn _ (h.2 r.1 (hkey s hs))) (fun q n u hq => ?_) ?_, h.2⟩
    · exact h.1.free_ne _ (.inl (hkey s hs)) q ⟨n :: u, hq.symm⟩
    · exact h.1.free_ne _ (.inl (hkey s hs)) _ List.prefix_rfl
  exact holds_must (fun s _ hs _ => ⟨hs.1, hstep s hs.1 hs.2⟩) fun s _ hs _ => ⟨hs.1, hstep s hs.1 hs.2⟩

theorem holds_finishDir {c : Change Bytes κ} (hn : Allowed keep (parts c.path))
    (hc : solid (parts c.path)) :
    Holds (Between S keep W solid ok) (finishDir S c) (fun _ => Between S keep W solid ok)
      fun _ => Stayed S keep W := by
  unfold finishDir
  cases c.new with
  | none => exact Holds.throw fun s hs => hs.stayed
  | some e =>
    have hmeta : Keeps (Safe S keep W (parts c.path) (fun d => d = parts c.path) solid ok)
        (applyMeta S (parts c.path) e) := keeps_applyMeta hn fun _ => rfl
    refine (holds_wrap hmeta).weaken
      (fun s hs => ⟨hs.1.weaken ?_ ?_ fun _ hd => hd, hs.2⟩)
      (fun _ s hs => ⟨hs.1.weaken (fun q n r hq => by simp at hq) ?_ fun _ hd => hd, hs.2⟩)
      fun _ s hs => hs.stayed
    · intro q n r hq
      exact .inr (hs.1.solid_dir _ hc q ⟨n :: r, hq.symm⟩)
    · rintro d (hd | rfl) q hq
      · exact hs.1.free_ne d (.inl hd) q hq
      · rw [hs.1.solid_dir _ hc q hq]
        nofun
    · rintro d (hd | hd) q hq
      · exact hs.1.free_ne d (.inl hd) q hq
      · exact hd.elim

end phases

/-- A directory at or below a path that becomes a link, and from which a deletion takes an entry,
can be read, written and searched by its owner: it is not opened for the duration. -/
def NotReplaced (S : Setting κ) (W : FTree κ) (changes : List (Change Bytes κ)) : Prop :=
  ∀ c ∈ changes, ∀ l ∈ changes, c.kind = .deleted → l.kind ≠ .deleted →
    l.new.any Entry.isLink = true → parts l.path <+: (parts c.path).dropLast →
      ∀ m, W.look (S.cwd ++ (parts c.path).dropLast) = some ⟨m, none⟩ → m.perm &&& 0o700 = 0o700

/-- `Apply` stays inside. -/
theorem holds_apply {S : Setting κ} {W : Disk κ} {changes : List (Change Bytes κ)}
    {keep : Name → Prop} (hkeep : ∀ s, ¬ keep (tmpName ++ s))
    (hoff : ∀ c ∈ changes, Off keep (parts c.path))
    (hcwd : S.cwd ≠ []) (hroot : W.1.typeAt S.cwd = some .dir)
    (hnames : W.1.named (fun n => Proper n) = true)
    (hd : (changes.map Change.path).Nodup) (hrep : NotReplaced S W.1 changes) :
    Holds (fun s => s = St.start W) (apply S changes) (fun _ => Stayed S keep W.1)
      fun _ => Stayed S keep W.1 := by
  have hstart : Stayed S keep W.1 (St.start W) := by nofun
  have hproper : ∀ q, W.1.typeAt q ≠ none → ∀ n ∈ q, Proper n := by
    intro q hq n hn
    obtain ⟨e, he⟩ := Option.ne_none_iff_exists'.1 (mt FTree.typeAt_eq_none.2 hq)
    exact of_decide_eq_true (FTree.named_look hnames he n hn)
  refine Holds.bind ((holds_checkPaths changes).weaken (fun _ h => h) (fun _ _ h => h)
    fun _ s hs => hs ▸ hstart) fun _ => Holds.given fun hprop => ?_
  have hn : ∀ c ∈ changes, Allowed keep (parts c.path) := fun c hc => ⟨hprop c hc, hoff c hc⟩
  have hdel : Holds (fun s => s = St.start W) ((dels changes).forM (deleteOne S))
      (fun _ => Between S keep W.1 (fun _ => False) (Unlinked keep (rest changes)))
      fun _ => Stayed S keep W.1 := by
    refine (Holds.forM (fun _ s => Between S keep W.1 (fun _ => False) (Unlinked keep (rest changes)) s ∧
      Shrunk S W.1 s) (dels changes) fun c tail hsuf => ?_).weaken ?_ (fun _ _ h => h.1) fun _ _ h => h
    · have hc := mem_dels.1 (hsuf.subset List.mem_cons_self)
      have hnc := hn c hc.1
      refine holds_deleteOne hcwd hnc fun m hm hperm => ⟨allowed_parent hnc, fun l hl hlink hp => ?_⟩
      obtain ⟨hl, hkind⟩ := mem_rest.1 hl
      exact hperm (hrep c hc.1 l hl hc.2 hkind hlink hp m hm)
    · rintro s rfl
      refine ⟨⟨⟨by nofun, SameOutside.refl, hroot, hproper, fun q n r hq => by simp at hq, ?_, ?_⟩,
        by nofun⟩, fun q e he => ⟨e, he, rfl, fun _ => rfl⟩⟩
      · rintro d (hd | hd)
        · cases hd
        · exact hd.elim
      · exact fun d hd => hd.elim
  refine Holds.bind hdel fun _ => Holds.bind (holds_writes hkeep hcwd hd hn) fun _ =>
    Holds.bind ((holds_restoreAll fun d hd => hd).weaken (fun _ h => h) (fun _ _ h => h)
      fun _ s hs => hs.stayed) fun _ => ?_
  refine (Holds.forM (fun _ => Between S keep W.1 (Written changes []) (Allowed keep))
    (dirs changes) fun c tail hsuf => ?_).weaken (fun _ h => h) (fun _ s hs => hs.stayed) fun _ _ h => h
  obtain ⟨hc, hdir⟩ := mem_dirs.1 (hsuf.subset List.mem_cons_self)
  exact holds_finishDir (hn c (mem_rest.1 hc).1) ⟨c, hc, by nofun, hdir, rfl⟩

/-- The applier stays inside the working copy: where no directory it opened for a deletion is
replaced by a link, every call reaches the object at the literal path it was given below the root,
through no link, and nothing outside the root changes at any point of the run. -/
theorem apply_stays_inside (S : Setting κ) (W : Disk κ) (changes : List (Change Bytes κ))
    (hcwd : S.cwd ≠ []) (hroot : W.1.typeAt S.cwd = some .dir)
    (hnames : W.1.named (fun n => Proper n) = true)
    (hd : (changes.map Change.path).Nodup) (hrep : NotReplaced S W.1 changes) :
    ∀ ev ∈ (ends (apply S changes) (St.start W)).world.log,
      (∀ a ∈ ev.touched, a.2 = S.cwd ++ a.1) ∧
      ∀ q, ¬ S.cwd <+: q → ev.disk.1.look q = W.1.look q := by
  have h : Stayed S (fun _ => False) W.1 (ends (apply S changes) (St.start W)) :=
    holds_ends (holds_apply (fun _ h => h) (fun _ _ _ _ _ h => h) hcwd hroot hnames hd hrep) rfl
  exact fun ev hev => ⟨(h ev hev).1, fun q hq => (h ev hev).2 q (.inl hq)⟩

/-- A working copy beside a file of someone else's. -/
def besideOut (perm : BitVec 12) : Disk ℕ :=
  ⟨.dir ⟨0o755, 0, 0, 0, [], []⟩ (.cons [111, 117, 116] (.leaf ⟨0o600, 0, 0, 0, [], []⟩ (.reg 9))
    (.cons [119] (.dir ⟨0o755, 0, 0, 0, [], []⟩ (.cons [100] (.dir ⟨perm, 0, 0, 0, [], []⟩
      (.cons [120] (.leaf ⟨0o644, 0, 0, 0, [], []⟩ (.reg 1)) .nil)) .nil)) .nil)), rfl⟩

/-- A directory becomes a link that leads out. -/
def toLink (perm : BitVec 12) : List (Change Bytes ℕ) :=
  [⟨[100], .typeChanged, some ⟨⟨perm, 0, 0, 0, [], []⟩, none⟩,
      some ⟨⟨0o777, 0, 0, 7, [], []⟩, some (.lnk [47, 111, 117, 116])⟩⟩,
    ⟨[100, 47, 120], .deleted, some ⟨⟨0o644, 0, 0, 0, [], []⟩, some (.reg 1)⟩, none⟩]

/-- The mode of a read-only directory is restored through the link that replaced it. -/
theorem apply_leaves_root :
    let S : Setting ℕ := ownerSetting [[119]] (fun k => k) 0
    ((toLink 0o555).map Change.path).Nodup ∧ (besideOut 0o555).1.typeAt S.cwd = some .dir ∧
    (∃ ev ∈ (ends (apply S (toLink 0o555)) (St.start (besideOut 0o555))).world.log,
      ev.call = .chmod ∧ ev.touched = [([[100]], [[111, 117, 116]])]) ∧
    (besideOut 0o555).1.look [[111, 117, 116]] = some ⟨⟨0o600, 0, 0, 0, [], []⟩, some (.reg 9)⟩ ∧
    (ends (apply S (toLink 0o555)) (St.start (besideOut 0o555))).world.disk.1.look [[111, 117, 116]]
      = some ⟨⟨0o555, 0, 0, 0, [], []⟩, some (.reg 9)⟩ := by
  decide +kernel

/-- With a directory that its owner may write, the same list stays inside. -/
theorem apply_stays_inside_open :
    let S : Setting ℕ := ownerSetting [[119]] (fun k => k) 0
    NotReplaced S (besideOut 0o755).1 (toLink 0o755) ∧
    ∀ ev ∈ (ends (apply S (toLink 0o755)) (St.start (besideOut 0o755))).world.log,
      (∀ a ∈ ev.touched, a.2 = S.cwd ++ a.1) ∧
      ∀ q, ¬ S.cwd <+: q → ev.disk.1.look q = (besideOut 0o755).1.look q := by
  intro S
  have hrep : NotReplaced S (besideOut 0o755).1 (toLink 0o755) := by
    intro c hc l _ hkind _ _ _ m hm
    have hpath : c.path = [100, 47, 120] := by
      rcases List.mem_cons.1 hc with rfl | hc
      · cases hkind
      · rw [List.mem_singleton.1 hc]
    have hlook : (besideOut 0o755).1.look (S.cwd ++ (parts c.path).dropLast)
        = some ⟨⟨0o755, 0, 0, 0, [], []⟩, none⟩ := by
      rw [hpath]
      decide +kernel
    rw [hlook] at hm
    cases hm
    decide
  exact ⟨hrep, apply_stays_inside S _ _ (by decide) (by decide +kernel) (by decide +kernel)
    (by decide +kernel) hrep⟩

end Dstore.Worktree
