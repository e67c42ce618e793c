import Dstore.Lib.Byte

/-!
# Programs that may fail

`Holds P m Q E` says that from every state of `P` the program `m` ends, with `Q` of its value and
its state or with `E` of its failure and its state. With `E` false this is total correctness.
-/

namespace Hoare

variable {ε σ α β : Type}

/-- From a state with `P`, the computation returns with `Q` or fails with `E`. -/
def Holds (P : σ → Prop) (m : EStateM ε σ α) (Q : α → σ → Prop) (E : ε → σ → Prop) : Prop :=
  ∀ s, P s → match m s with
    | .ok a s' => Q a s'
    | .error e s' => E e s'

/-- The computation keeps `I`, whether it fails or not. -/
abbrev Keeps (I : σ → Prop) (m : EStateM ε σ α) : Prop := Holds I m (fun _ => I) (fun _ => I)

section rules

variable {P P' : σ → Prop} {m : EStateM ε σ α} {f : α → EStateM ε σ β} {Q Q' : α → σ → Prop}
  {S : β → σ → Prop} {E E' : ε → σ → Prop}

/-- The rule of consequence. -/
theorem Holds.weaken (h : Holds P m Q E) (hp : ∀ s, P' s → P s) (hq : ∀ a s, Q a s → Q' a s)
    (he : ∀ e s, E e s → E' e s) : Holds P' m Q' E' := by
  intro s hs
  have := h s (hp s hs)
  cases hm : m s with
  | ok a s' => rw [hm] at this; exact hq a s' this
  | error e s' => rw [hm] at this; exact he e s' this

/-- The rule of sequence: both parts may fail. -/
theorem Holds.bind (h : Holds P m Q E) (hf : ∀ a, Holds (Q a) (f a) S E) :
    Holds P (m >>= f) S E := by
  intro s hs
  have h₁ := h s hs
  show match EStateM.bind m f s with
    | .ok a s' => S a s'
    | .error e s' => E e s'
  unfold EStateM.bind
  cases hm : m s with
  | ok a s' => rw [hm] at h₁; exact hf a s' h₁
  | error e s' => rw [hm] at h₁; exact h₁

theorem Holds.pure {a : α} (h : ∀ s, P s → Q a s) : Holds P (Pure.pure a : EStateM ε σ α) Q E :=
  fun s hs => h s hs

theorem Holds.throw {e : ε} (h : ∀ s, P s → E e s) :
    Holds P (MonadExcept.throw e : EStateM ε σ α) Q E :=
  fun s hs => h s hs

theorem Holds.given {p : Prop} (h : p → Holds P m Q E) : Holds (fun s => p ∧ P s) m Q E :=
  fun s hs => h hs.1 s hs.2

end rules

section loops

variable {E : ε → σ → Prop} {f : α → EStateM ε σ PUnit}

/-- The rule of the loop, whose invariant speaks of what is left of the list. -/
theorem Holds.forM (I : List α → σ → Prop) :
    ∀ (l : List α), (∀ a rest, a :: rest <:+ l → Holds (I (a :: rest)) (f a) (fun _ => I rest) E) →
      Holds (I l) (l.forM f) (fun _ => I []) E
  | [], _ => Holds.pure fun _ hs => hs
  | a :: rest, h => by
    refine Holds.bind (h a rest List.suffix_rfl) fun _ => ?_
    exact Holds.forM I rest fun b r hr => h b r (hr.trans (List.suffix_cons a rest))

theorem Keeps.forM {I : σ → Prop} {l : List α} (h : ∀ a ∈ l, Keeps I (f a)) : Keeps I (l.forM f) :=
  Holds.forM (fun _ => I) l fun a _ hr => h a (hr.subset List.mem_cons_self)

end loops

end Hoare
