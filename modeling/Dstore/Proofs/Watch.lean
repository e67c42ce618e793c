import Dstore.Watch

/-!
# What the client of a watch holds

The stream's belief and the client's map agree as long as the frames mean to the client what the
stream took them to mean (`Holds`). The client deletes last, so a put queued behind a deletion of
its name in one frame is lost on the client and never sent again.
-/

namespace Dstore.Watch

variable {ν κ ρ : Type} [LinearOrder ν] {P : Params ν κ ρ} {w : RefWatch ν κ}
  {held : KV ν (Option κ)} {name n : ν} {record : ρ} {version : Ballot} {key : κ}
  {h : Hint ν ρ} {hs : List (Hint ν ρ)} {acts : List (Action ν ρ)} {listing : KV ν (Row ρ)}

/-- What the client will hold once the frame is sent. -/
def RefWatch.holds (w : RefWatch ν κ) (held : KV ν (Option κ)) : KV ν (Option κ) :=
  w.batch.apply (w.client held)

/-- The client holds what the stream believes. -/
def Holds (P : Params ν κ ρ) (held : KV ν (Option κ)) (w : RefWatch ν κ) : Prop :=
  ∀ n, P.pat n → (w.holds held).get n = ((w.known.get n).bind RefState.key).map some

/-- No name is put after it was deleted. -/
def calm (hs : List (Hint ν ρ)) : Prop :=
  hs.Pairwise fun a b => a.record.isNone → b.record.isSome → a.name ≠ b.name

/-- No frame has a deletion and a later put of one name. -/
def Action.calm : Action ν ρ → Prop
  | .hints hs => Watch.calm hs
  | _ => True

/-- The action tells of this version of the name. -/
def Action.tells (name : ν) (version : Ballot) : Action ν ρ → Prop
  | .hints hs => ∃ h ∈ hs, h.name = name ∧ h.version = some version
  | .reconcile listing => ∃ row ∈ listing.get name, row.version = version
  | .failed entries => ∃ row, (name, row) ∈ entries ∧ row.version = version

/-- The hints that go into one frame. -/
def Action.drained : Action ν ρ → List (Hint ν ρ)
  | .hints hs => hs
  | _ => []

variable {st : RefState κ} {es : List (ν × Row ρ)}

theorem get_apply_ref (f : Frame ν κ) (hd : name ∉ f.deleted) :
    (({ f with refs := f.refs ++ [(name, key)] } : Frame ν κ).apply held).get n =
      if n = name then some (some key) else (f.apply held).get n := by
  unfold Frame.apply
  rw [KV.get_foldl_delete, KV.get_foldl_delete, List.foldl_append, List.foldl_cons, List.foldl_nil,
    KV.get_set]
  by_cases hn : n = name
  · simp [hn, hd]
  · simp [hn]

theorem get_apply_deleted (f : Frame ν κ) :
    (({ f with deleted := f.deleted ++ [name] } : Frame ν κ).apply held).get n =
      if n = name then none else (f.apply held).get n := by
  unfold Frame.apply
  rw [List.foldl_append, List.foldl_cons, List.foldl_nil, KV.get_delete]

namespace RefWatch

@[simp] theorem holds_flush : w.flush.holds held = w.holds held := by
  unfold flush
  split_ifs
  · rfl
  · simp [holds, client, Frame.apply]

theorem client_flush : w.flush.client held = w.flush.holds held := by
  unfold flush
  split_ifs with h
  · simp [holds, Frame.apply, h]
  · rfl

@[simp] theorem known_flush : w.flush.known = w.known := by
  unfold flush
  split_ifs <;> rfl

theorem batch_flush : w.flush.batch.deleted ⊆ w.batch.deleted := by
  unfold flush
  split_ifs <;> simp

theorem deleted_flush : w.flush.batch.deleted = [] := by
  unfold flush
  split_ifs with h
  · exact h.2
  · rfl

@[simp] theorem known_queue : (w.queue P name record version key).known = w.known := by
  simp only [queue]
  split_ifs <;> simp

@[simp] theorem known_queueDeleted : (w.queueDeleted P name).known = w.known := by
  simp only [queueDeleted]
  split_ifs <;> simp

theorem deleted_queue : (w.queue P name record version key).batch.deleted ⊆ w.batch.deleted := by
  simp only [queue]
  split_ifs
  · exact batch_flush
  · exact List.Subset.refl _

theorem deleted_queueDeleted :
    (w.queueDeleted P name).batch.deleted ⊆ w.batch.deleted ++ [name] := by
  simp only [queueDeleted]
  split_ifs
  · exact batch_flush
  · exact List.Subset.refl _

theorem get_holds_queue (hd : name ∉ w.batch.deleted) :
    ((w.queue P name record version key).holds held).get n =
      if n = name then some (some key) else (w.holds held).get n := by
  have hq : (w.queue P name record version key).holds held =
      ({ w.batch with refs := w.batch.refs ++ [(name, key)] } : Frame ν κ).apply
        (w.client held) := by
    simp only [queue]
    split_ifs
    · rw [holds_flush]
      rfl
    · rfl
  rw [hq, get_apply_ref _ hd]
  rfl

theorem get_holds_queueDeleted : ((w.queueDeleted P name).holds held).get n =
    if n = name then none else (w.holds held).get n := by
  have hq : (w.queueDeleted P name).holds held =
      ({ w.batch with deleted := w.batch.deleted ++ [name] } : Frame ν κ).apply
        (w.client held) := by
    simp only [queueDeleted]
    split_ifs
    · rw [holds_flush]
      rfl
    · rfl
  rw [hq, get_apply_deleted]
  rfl

variable [DecidableEq κ]

theorem known_learn : (w.learn P name record version key).known =
    w.known.set name ⟨some key, version⟩ := by
  simp only [learn]
  split_ifs <;> simp [setKnown]

theorem deleted_learn : (w.learn P name record version key).batch.deleted ⊆ w.batch.deleted := by
  simp only [learn]
  split_ifs
  · exact List.Subset.refl _
  · exact deleted_queue

end RefWatch

theorem Holds.flush (hw : Holds P held w) : Holds P held w.flush := by
  intro n hn
  simpa using hw n hn

/-- What is forgotten the client is told. -/
theorem Holds.forget (hw : Holds P held w) (see : ν → Bool) :
    Holds P held (w.forget P see name) := by
  intro n hn
  unfold RefWatch.forget
  split
  · exact hw n hn
  · rename_i st hst
    dsimp only
    split_ifs with hsee hkey
    · exact hw n hn
    · rw [RefWatch.get_holds_queueDeleted, RefWatch.known_queueDeleted, KV.get_delete]
      split_ifs with hname
      · rfl
      · exact hw n hn
    · change (w.holds held).get n = (((w.known.delete name).get n).bind RefState.key).map some
      rw [KV.get_delete, hw n hn]
      split_ifs with hname
      · rw [hname, hst]
        simpa using hkey
      · rfl

theorem Holds.forgetAll (see : ν → Bool) (names : List ν) (hw : Holds P held w) :
    Holds P held (names.foldl (fun w name => w.forget P see name) w) := by
  induction names generalizing w with
  | nil => exact hw
  | cons name names ih => exact ih (hw.forget see)

section

variable [DecidableEq κ]

/-- What is learned the client is told, unless its deletion is in the same frame. -/
theorem Holds.learn (hw : Holds P held w) (hd : name ∉ w.batch.deleted) :
    Holds P held (w.learn P name record version key) := by
  intro n hn
  have hd' : name ∉ (w.setKnown name ⟨some key, version⟩).batch.deleted := hd
  rw [RefWatch.known_learn, KV.get_set]
  simp only [RefWatch.learn]
  split_ifs with hhad hname hname
  · obtain ⟨st, hst, hkey⟩ := (Option.any_eq_true _ _).1 hhad
    change (w.holds held).get n = _
    rw [hw n hn, hname, hst]
    simpa using hkey
  · exact hw n hn
  · rw [RefWatch.get_holds_queue hd', if_pos hname]
    rfl
  · rw [RefWatch.get_holds_queue hd', if_neg hname]
    exact hw n hn

theorem reconcileEntry_cases (w : RefWatch ν κ) (e : ν × Row ρ) :
    w.reconcileEntry P e = w ∨
      ∃ key, w.reconcileEntry P e = w.learn P e.1 e.2.record e.2.version key := by
  unfold RefWatch.reconcileEntry
  split
  · split
    · exact .inl rfl
    · split
      · exact .inl rfl
      · exact .inr ⟨_, rfl⟩
  · exact .inl rfl

theorem Holds.reconcileEntry (hw : Holds P held w) (hd : w.batch.deleted = []) (e : ν × Row ρ) :
    Holds P held (w.reconcileEntry P e) ∧ (w.reconcileEntry P e).batch.deleted = [] := by
  rcases reconcileEntry_cases (P := P) w e with he | ⟨key, he⟩
  · rw [he]
    exact ⟨hw, hd⟩
  · rw [he]
    exact ⟨hw.learn (by simp [hd]), List.subset_nil.1 (hd ▸ RefWatch.deleted_learn)⟩

theorem Holds.entries (es : List (ν × Row ρ)) (hw : Holds P held w) (hd : w.batch.deleted = []) :
    Holds P held (es.foldl (RefWatch.reconcileEntry P) w) ∧
      (es.foldl (RefWatch.reconcileEntry P) w).batch.deleted = [] := by
  induction es generalizing w with
  | nil => exact ⟨hw, hd⟩
  | cons e es ih => exact ih (hw.reconcileEntry hd e).1 (hw.reconcileEntry hd e).2

/-- A hint keeps client and stream in step. -/
theorem Holds.applyHint (hw : Holds P held w)
    (hd : h.record.isSome → h.name ∉ w.batch.deleted) : Holds P held (w.applyHint P h) := by
  unfold RefWatch.applyHint
  split
  · exact hw
  split_ifs
  · exact hw
  · exact hw
  rename_i version _ _ _
  split
  · intro n hn
    dsimp only
    split_ifs with hhad
    · rw [RefWatch.get_holds_queueDeleted, RefWatch.known_queueDeleted, RefWatch.setKnown,
        KV.get_set]
      split_ifs with hname
      · rfl
      · exact hw n hn
    · change (w.holds held).get n = ((w.known.set _ _).get n |>.bind RefState.key).map some
      rw [hw n hn, KV.get_set]
      split_ifs with hname
      · rw [hname]
        rcases hst : w.known.get h.name with _ | st
        · rfl
        · simpa [hst] using hhad
      · rfl
  · rename_i record hrec
    split
    · exact hw
    · exact hw.learn (hd (by simp [hrec]))

theorem deleted_applyHint (hn : n ∈ (w.applyHint P h).batch.deleted) :
    n ∈ w.batch.deleted ∨ h.record = none ∧ n = h.name := by
  unfold RefWatch.applyHint at hn
  split at hn
  · exact .inl hn
  split_ifs at hn
  · exact .inl hn
  · exact .inl hn
  split at hn
  · rename_i hrec
    dsimp only at hn
    split_ifs at hn
    · rcases List.mem_append.1 (RefWatch.deleted_queueDeleted hn) with hn | hn
      · exact .inl hn
      · exact .inr ⟨hrec, by simpa using hn⟩
    · exact .inl hn
  · split at hn
    · exact .inl hn
    · exact .inl (RefWatch.deleted_learn hn)

theorem Holds.drain (hc : calm hs) (hw : Holds P held w)
    (hd : ∀ h ∈ hs, h.record.isSome → h.name ∉ w.batch.deleted) :
    Holds P held (hs.foldl (RefWatch.applyHint P) w) := by
  induction hs generalizing w with
  | nil => exact hw
  | cons a hs ih =>
    obtain ⟨hfirst, hrest⟩ := List.pairwise_cons.1 hc
    refine ih hrest (hw.applyHint (hd a (by simp))) fun b hb hput hdel => ?_
    rcases deleted_applyHint hdel with hdel | ⟨hnone, hname⟩
    · exact hd b (by simp [hb]) hput hdel
    · exact hfirst b hb (by simp [hnone]) hput hname.symm

theorem Holds.act {a : Action ν ρ} (ha : a.calm) (hw : Holds P held w)
    (hd : w.batch.deleted = []) :
    Holds P held (act P w a) ∧ (act P w a).batch.deleted = [] := by
  cases a with
  | hints hs =>
    have hcalm : Watch.calm (hs.filter fun h => P.pat h.name) := List.Pairwise.filter _ ha
    exact ⟨(hw.drain hcalm (by simp [hd])).flush, RefWatch.deleted_flush⟩
  | reconcile listing =>
    exact ⟨((hw.entries _ hd).1.forgetAll _ _).flush, RefWatch.deleted_flush⟩
  | failed entries => exact hw.entries entries hd

/-- No belief is newer than the listing. -/
def Behind (listing : KV ν (Row ρ)) (w : RefWatch ν κ) : Prop :=
  ∀ n st row, w.known.get n = some st → listing.get n = some row → st.version ≤ row.version

omit [DecidableEq κ] in
theorem Behind.set (hw : Behind listing w) {w' : RefWatch ν κ} (hk : w'.known = w.known.set name st)
    (hv : ∀ row ∈ listing.get name, st.version ≤ row.version) : Behind listing w' := by
  intro n st' row hst hrow
  rw [hk, KV.get_set] at hst
  split_ifs at hst with hname
  · cases hst
    exact hv row (hname ▸ hrow)
  · exact hw n st' row hst hrow

omit [DecidableEq κ] in
/-- `forget` takes one name out. -/
theorem get_forget {see : ν → Bool} : (w.forget P see name).known.get n =
    if n = name ∧ see n = false then none else w.known.get n := by
  unfold RefWatch.forget
  split
  · rename_i hnone
    split_ifs with hc
    · rw [hc.1, hnone]
    · rfl
  · dsimp only
    rcases hsee : see name
    · have hdel : (w.known.delete name).get n =
          if n = name ∧ see n = false then none else w.known.get n := by
        rw [KV.get_delete]
        by_cases hname : n = name <;> simp [hname, hsee]
      simp only [Bool.false_eq_true, if_false]
      split_ifs at hdel ⊢ <;> simpa using hdel
    · by_cases hname : n = name <;> simp [hname, hsee]

omit [DecidableEq κ] in
theorem Behind.forget (hw : Behind listing w) (see : ν → Bool) :
    Behind listing (w.forget P see name) := by
  intro n st row hst hrow
  rw [get_forget] at hst
  split_ifs at hst
  exact hw n st row hst hrow

/-- A hint no newer than the listing. -/
theorem Behind.applyHint (hw : Behind listing w)
    (hv : ∀ v, h.version = some v → ∀ row ∈ listing.get h.name, v ≤ row.version) :
    Behind listing (w.applyHint P h) := by
  unfold RefWatch.applyHint
  split
  · exact hw
  rename_i v hver
  split_ifs
  · exact hw
  · exact hw
  split
  · dsimp only
    split_ifs
    · exact hw.set RefWatch.known_queueDeleted (hv v hver)
    · exact hw.set rfl (hv v hver)
  · split
    · exact hw
    · exact hw.set RefWatch.known_learn (hv v hver)

theorem Behind.entries (hw : Behind listing w)
    (hv : ∀ n r, (n, r) ∈ es → ∀ row ∈ listing.get n, r.version ≤ row.version) :
    Behind listing (es.foldl (RefWatch.reconcileEntry P) w) := by
  induction es generalizing w with
  | nil => exact hw
  | cons e es ih =>
    refine ih ?_ fun n r hr => hv n r (List.mem_cons_of_mem _ hr)
    rcases reconcileEntry_cases (P := P) w e with he | ⟨key, he⟩
    · rw [he]
      exact hw
    · rw [he]
      exact hw.set RefWatch.known_learn (hv e.1 e.2 List.mem_cons_self)

/-- No action gets ahead of a listing that is newer than all it tells. -/
theorem Behind.act {a : Action ν ρ} (hw : Behind listing w)
    (hv : ∀ n v, a.tells n v → ∀ row ∈ listing.get n, v ≤ row.version) :
    Behind listing (Watch.act P w a) := by
  cases a with
  | hints hs =>
    have hdrain : ∀ l : List (Hint ν ρ), (∀ h ∈ l, h ∈ hs) → ∀ w : RefWatch ν κ,
        Behind listing w → Behind listing (l.foldl (RefWatch.applyHint P) w) := by
      intro l hl
      induction l with
      | nil => exact fun w hw => hw
      | cons h l ih =>
        intro w hw
        refine ih (fun b hb => hl b (List.mem_cons_of_mem _ hb)) _ (hw.applyHint fun v hver => ?_)
        exact hv h.name v ⟨h, hl h List.mem_cons_self, rfl, hver⟩
    intro n st row hst
    exact hdrain _ (fun h hh => (List.mem_filter.1 hh).1) w hw n st row (by
      simpa [Watch.act] using hst)
  | reconcile l =>
    have hes : Behind listing (l.entries.foldl (RefWatch.reconcileEntry P) w) :=
      hw.entries fun n r hr => hv n r.version ⟨r, KV.get_eq_some.2 hr, rfl⟩
    have hall : ∀ (names : List ν) (w : RefWatch ν κ), Behind listing w →
        Behind listing (names.foldl (fun w name => w.forget P (seen P l) name) w) := by
      intro names
      induction names with
      | nil => exact fun w hw => hw
      | cons name names ih => exact fun w hw => ih _ (hw.forget _)
    intro n st row hst
    exact hall _ _ hes n st row (by simpa [Watch.act, RefWatch.reconcile] using hst)
  | failed es => exact hw.entries fun n r hr => hv n r.version ⟨r, hr, rfl⟩

theorem get_reconcileEntry_of_ne {e : ν × Row ρ} (hn : n ≠ e.1) :
    (w.reconcileEntry P e).known.get n = w.known.get n := by
  rcases reconcileEntry_cases (P := P) w e with he | ⟨key, he⟩
  · rw [he]
  · rw [he, RefWatch.known_learn, KV.get_set_of_ne _ _ hn]

theorem get_entries_of_notMem (hn : n ∉ es.map Prod.fst) :
    (es.foldl (RefWatch.reconcileEntry P) w).known.get n = w.known.get n := by
  induction es generalizing w with
  | nil => rfl
  | cons e es ih =>
    simp only [List.map_cons, List.mem_cons, not_or] at hn
    rw [List.foldl_cons, ih hn.2, get_reconcileEntry_of_ne hn.1]

/-- The entries of a listing are learned. -/
theorem get_entries (hnd : (es.map Prod.fst).Nodup) {row : Row ρ} (hmem : (n, row) ∈ es)
    (hn : P.pat n) (hkey : P.decode row.record = some key)
    (hv : ∀ st ∈ w.known.get n, st.version ≤ row.version) :
    (es.foldl (RefWatch.reconcileEntry P) w).known.get n = some ⟨some key, row.version⟩ := by
  induction es generalizing w with
  | nil => simp at hmem
  | cons e es ih =>
    simp only [List.map_cons, List.nodup_cons] at hnd
    rw [List.foldl_cons]
    rcases List.mem_cons.1 hmem with rfl | hmem
    · have hlag : ((w.known.get n).any fun st =>
          !st.version.isZero && decide (row.version < st.version)) = false := by
        rcases hst : w.known.get n with _ | st
        · rfl
        · simp [(hv st hst).not_gt]
      rw [get_entries_of_notMem hnd.1]
      simp [RefWatch.reconcileEntry, hn, hkey, hlag, RefWatch.known_learn]
    · have hne : n ≠ e.1 := by
        rintro rfl
        exact hnd.1 (List.mem_map.2 ⟨_, hmem, rfl⟩)
      refine ih hnd.2 hmem ?_
      rwa [get_reconcileEntry_of_ne hne]

omit [DecidableEq κ] in
theorem get_forgetAll {see : ν → Bool} (names : List ν) :
    (names.foldl (fun w name => w.forget P see name) w).known.get n =
      if n ∈ names ∧ see n = false then none else w.known.get n := by
  induction names generalizing w with
  | nil => simp
  | cons name names ih =>
    rw [List.foldl_cons, ih, get_forget]
    grind

/-- After a listing the stream believes what is listed. -/
theorem get_reconcile (hw : Behind listing w) (hn : P.pat n) :
    ((w.reconcile P listing).known.get n).bind RefState.key =
      (listing.get n).bind fun row => P.decode row.record := by
  simp only [RefWatch.reconcile, RefWatch.known_flush, get_forgetAll]
  rcases hsee : (listing.get n).bind fun row => P.decode row.record with _ | key
  · have hnot : seen P listing n = false := by
      rcases hrow : listing.get n with _ | row
      · simp [seen, hrow]
      · simpa [seen, hrow, hn] using hsee
    split_ifs with hc
    · rfl
    · have hnone : (listing.entries.foldl (RefWatch.reconcileEntry P) w).known.get n = none := by
        rw [Option.eq_none_iff_forall_ne_some]
        intro st hst
        exact hc ⟨List.mem_map_of_mem (f := Prod.fst) (KV.get_eq_some.1 hst), hnot⟩
      rw [hnone]
      rfl
  · obtain ⟨row, hrow, hkey⟩ := Option.bind_eq_some_iff.1 hsee
    have hyes : seen P listing n = true := by simp [seen, hn, hrow, hkey]
    rw [if_neg (by simp [hyes]), get_entries listing.nodup_keys (KV.get_eq_some.1 hrow) hn hkey
      fun st hst => hw n st row hst hrow]
    rfl

omit [DecidableEq κ] in
/-- The stream begins with what its client has reported. -/
theorem get_reported (l : List (ν × Option κ)) (hnd : (l.map Prod.fst).Nodup)
    (m : KV ν (RefState κ)) (hfresh : ∀ e ∈ l, m.get e.1 = none) :
    (l.foldl (fun known e =>
      if P.pat e.1 ∧ e.2.isSome then known.set e.1 ⟨e.2, ⊥⟩ else known) m).get n = some st ↔
    m.get n = some st ∨ P.pat n ∧ st.key.isSome ∧ st.version = ⊥ ∧ (n, st.key) ∈ l := by
  induction l generalizing m with
  | nil => simp
  | cons e l ih =>
    obtain ⟨name, key⟩ := e
    simp only [List.map_cons, List.nodup_cons] at hnd
    have hne : ∀ e ∈ l, e.1 ≠ name := fun e he hn => hnd.1 (List.mem_map.2 ⟨e, he, hn⟩)
    have hrest : ∀ e ∈ l, m.get e.1 = none := fun e he => hfresh e (List.mem_cons_of_mem _ he)
    rw [List.foldl_cons]
    split_ifs with hc
    · rw [ih hnd.2 _ fun e he => by rw [KV.get_set_of_ne _ _ (hne e he), hrest e he], KV.get_set]
      obtain ⟨k, v⟩ := st
      by_cases hn : n = name
      · subst hn
        have hnone : m.get n = none := hfresh (n, key) List.mem_cons_self
        have hnot : (n, k) ∉ l := fun hk => hne _ hk rfl
        simp only [if_pos, hnone, hnot, Option.some.injEq, RefState.mk.injEq, List.mem_cons,
          Prod.mk.injEq, or_false, true_and, false_or, and_false, reduceCtorEq, hc.1]
        grind
      · simp [hn]
    · rw [ih hnd.2 _ hrest]
      grind

omit [DecidableEq κ] in
theorem get_opened : (opened P held).known.get n = some st ↔
    P.pat n ∧ st.key.isSome ∧ st.version = ⊥ ∧ held.get n = some st.key := by
  unfold opened
  rw [get_reported held.entries held.nodup_keys _ (by simp), KV.get_eq_some (m := held)]
  simp

omit [DecidableEq κ] in
theorem behind_opened : Behind listing (opened P held) := by
  intro n st row hst _
  rw [(get_opened.1 hst).2.2.1]
  exact bot_le

omit [DecidableEq κ] in
theorem holds_opened (hkeys : ∀ n, P.pat n → held.get n ≠ some none) :
    Holds P held (opened P held) := by
  intro n hn
  change held.get n = _
  rcases hk : held.get n with _ | _ | k
  · rcases hst : (opened P held).known.get n with _ | st
    · rfl
    · exact absurd (get_opened.1 hst).2.2.2 (by simp [hk])
  · exact absurd hk (hkeys n hn)
  · have hst : (opened P held).known.get n = some ⟨some k, ⊥⟩ := get_opened.2 ⟨hn, rfl, rfl, hk⟩
    rw [hst]
    rfl

theorem holds_run (hkeys : ∀ n, P.pat n → held.get n ≠ some none)
    (hcalm : ∀ a ∈ acts, a.calm) :
    Holds P held (run P held acts) ∧ (run P held acts).batch.deleted = [] := by
  unfold run
  induction acts using List.reverseRecOn with
  | nil => exact ⟨holds_opened hkeys, rfl⟩
  | append_singleton acts a ih =>
    obtain ⟨hw, hd⟩ := ih fun b hb => hcalm b (by simp [hb])
    rw [List.foldl_append, List.foldl_cons, List.foldl_nil]
    exact hw.act (hcalm a (by simp)) hd

theorem behind_run (hver : ∀ a ∈ acts, ∀ n v, a.tells n v →
    ∀ row ∈ listing.get n, v ≤ row.version) : Behind listing (run P held acts) := by
  unfold run
  induction acts using List.reverseRecOn with
  | nil => exact behind_opened
  | append_singleton acts a ih =>
    rw [List.foldl_append, List.foldl_cons, List.foldl_nil]
    exact (ih fun b hb => hver b (by simp [hb])).act (hver a (by simp))

/-- A stream that drains no put behind a deletion of its name, opened by a client that reports
proper keys: right after a reconcile whose listing is not behind anything the stream was shown, the
client holds, of the names that match, exactly those listed, with their keys. -/
theorem watch_converges (hkeys : ∀ n, P.pat n → held.get n ≠ some none)
    (hcalm : ∀ a ∈ acts, a.calm)
    (hver : ∀ a ∈ acts, ∀ n v, a.tells n v → ∀ row ∈ listing.get n, v ≤ row.version)
    (hn : P.pat n) :
    ((run P held (acts ++ [.reconcile listing])).client held).get n =
      ((listing.get n).bind fun row => P.decode row.record).map some := by
  have hlast : run P held (acts ++ [.reconcile listing]) =
      (run P held acts).reconcile P listing := by simp [run, act]
  have hall : ∀ a ∈ acts ++ [.reconcile listing], Action.calm a := by
    intro a ha
    rcases List.mem_append.1 ha with ha | ha
    · exact hcalm a ha
    · simp only [List.mem_singleton] at ha
      exact ha ▸ trivial
  have hheld := (holds_run hkeys hall).1 n hn
  rw [hlast] at hheld ⊢
  rw [get_reconcile (behind_run hver) hn] at hheld
  rw [← hheld]
  simp only [RefWatch.reconcile, RefWatch.client_flush]

end

namespace Single

def params : Params ℕ ℕ ℕ where
  pat := fun _ => true
  decode := some
  infoSize := fun _ _ _ => 100
  nameSize := fun _ => 9

def ballot (i : ℕ) : Ballot := ⟨i, 1⟩

/-- A hint of a put. -/
def put (i key : ℕ) : Hint ℕ ℕ := ⟨1, some key, some (ballot i)⟩

/-- A hint of a deletion. -/
def delete (i : ℕ) : Hint ℕ ℕ := ⟨1, none, some (ballot i)⟩

/-- A listing with one reference. -/
def listed (i key : ℕ) : KV ℕ (Row ℕ) := KV.empty.set 1 ⟨ballot i, key⟩

/-- A client that has reported one reference. -/
def reported (key : Option ℕ) : KV ℕ (Option ℕ) := KV.empty.set 1 key

/-- After a reconcile against a listing whose versions are at least those of all hints, the client
does not hold what is listed. -/
def Parts (held : KV ℕ (Option ℕ)) (acts : List (Action ℕ ℕ)) (listing : KV ℕ (Row ℕ)) : Prop :=
  (∀ h ∈ acts.flatMap Action.drained, ∀ v ∈ h.version, ∀ row ∈ listing.get h.name,
      v ≤ row.version) ∧
    ((run params held (acts ++ [.reconcile listing])).client held).get 1 ≠
      ((listing.get 1).bind fun row => params.decode row.record).map some

end Single

/-- Hints that put and delete the name, stale and repeated ones among them, before a reconcile. -/
theorem watch_converges_drained :
    ((run Single.params (Single.reported (some 5)) ([.reconcile (Single.listed 1 10),
        .hints [Single.put 3 30, Single.put 2 20, Single.delete 4], .hints [Single.put 3 30],
        .hints [Single.put 5 50]] ++ [.reconcile (Single.listed 5 50)])).client
      (Single.reported (some 5))).get 1 = some (some 50) := by
  refine watch_converges ?_ ?_ ?_ rfl
  · intro n _
    by_cases hn : n = 1 <;> simp [Single.reported, KV.get_set, hn]
  · simp [Action.calm, calm, Single.put, Single.delete]
  · intro a ha n v hv row hrow
    obtain ⟨rfl, rfl⟩ : n = 1 ∧ row = ⟨Single.ballot 5, 50⟩ := by
      simpa [Single.listed, KV.get_set, eq_comm] using hrow
    simp only [List.mem_cons, List.not_mem_nil, or_false] at ha
    rcases ha with rfl | rfl | rfl | rfl <;>
      simp only [Action.tells, Single.listed, Single.put, Single.delete, KV.get_set_self,
        List.mem_cons, List.not_mem_nil, or_false, exists_eq_or_imp, exists_eq_left, true_and,
        Option.mem_def, Option.some.injEq, exists_eq_left'] at hv
    · subst hv
      decide
    · rcases hv with rfl | rfl | rfl <;> decide
    · subst hv
      decide
    · subst hv
      decide

/-- The client lacks a name that was deleted and written again before the stream woke up; it keeps
a name it reported without a key; and it keeps a value that an earlier listing showed at a version
above the one that was chosen. -/
theorem watch_parts :
    Single.Parts (Single.reported (some 10))
        [.reconcile (Single.listed 1 10), .hints [Single.delete 2, Single.put 3 30]]
        (Single.listed 3 30) ∧
      Single.Parts (Single.reported none) [] .empty ∧
      Single.Parts .empty [.reconcile (Single.listed 5 50)] (Single.listed 3 30) := by
  unfold Single.Parts
  decide +kernel

end Dstore.Watch
