import Dstore.Lib.Hoare
import Dstore.Worktree.Apply

/-!
# Rules for the applier's steps
-/

namespace Dstore.Worktree

open FileTree Posix Hoare

variable {κ α β : Type} {P : St κ → Prop} {Q : α → St κ → Prop} {E : Fault → St κ → Prop}

theorem holds_sys {f : World κ → α × World κ}
    (h : ∀ s, P s → Q (f s.world).1 { s with world := (f s.world).2 }) : Holds P (sys f) Q E :=
  fun s hs => h s hs

theorem holds_disk {Q : FTree κ → St κ → Prop} (h : ∀ s, P s → Q s.world.disk.1 s) :
    Holds P (disk : M κ (FTree κ)) Q E := fun s hs => h s hs

theorem holds_get {Q : St κ → St κ → Prop} (h : ∀ s, P s → Q s s) : Holds P (get : M κ (St κ)) Q E :=
  fun s hs => h s hs

theorem holds_set {s' : St κ} {Q : PUnit → St κ → Prop} (h : ∀ s, P s → Q ⟨⟩ s') :
    Holds P (set s' : M κ PUnit) Q E := fun s hs => h s hs

/-- What a step fails with does not matter to its state. -/
theorem holds_wrap {g : Fault → Fault} {m : M κ α} {E : St κ → Prop}
    (h : Holds P m Q fun _ => E) : Holds P (wrap g m) Q fun _ => E := by
  intro s hs
  have := h s hs
  unfold wrap
  cases hm : m s with
  | ok a s' => rw [hm] at this; exact this
  | error e s' => rw [hm] at this; exact this

/-- A step under a condition. -/
theorem holds_given {b : Bool} {m : M κ Unit} {Q : Unit → St κ → Prop}
    (h : b = true → Holds P m Q E) (h' : b = false → ∀ s, P s → Q () s) :
    Holds P (given b m) Q E := by
  unfold given
  cases b with
  | true => exact h rfl
  | false => exact Holds.pure (h' rfl)

theorem holds_check {r : Except Errno α} {E : St κ → Prop} (hok : ∀ a s, r = .ok a → P s → Q a s)
    (herr : ∀ e s, r = .error e → P s → E s) : Holds P (check r) Q fun _ => E := by
  cases r with
  | ok a => exact Holds.pure fun s hs => hok a s rfl hs
  | error e => exact Holds.throw fun s hs => herr e s rfl hs

/-- A system call that has to succeed. -/
theorem holds_must {f : World κ → Except Errno α × World κ} {E : St κ → Prop}
    (hok : ∀ s a, P s → (f s.world).1 = .ok a → Q a { s with world := (f s.world).2 })
    (herr : ∀ s e, P s → (f s.world).1 = .error e → E { s with world := (f s.world).2 }) :
    Holds P (must f) Q fun _ => E := by
  refine Holds.bind (Q := fun r s' => ∃ s, P s ∧ (f s.world).1 = r ∧
    s' = { s with world := (f s.world).2 }) (holds_sys fun s hs => ⟨s, hs, rfl, rfl⟩) fun r => ?_
  refine holds_check ?_ ?_
  · rintro a _ rfl ⟨s, hs, hr, rfl⟩
    exact hok s a hs hr
  · rintro e _ rfl ⟨s, hs, hr, rfl⟩
    exact herr s e hs hr

theorem holds_ends {m : M κ α} {I : St κ → Prop} {s : St κ} (h : Holds P m (fun _ => I) fun _ => I)
    (hs : P s) : I (ends m s) := by
  have := h s hs
  unfold ends
  cases hm : m s with
  | ok a s' => rw [hm] at this; exact this
  | error e s' => rw [hm] at this; exact this

end Dstore.Worktree
