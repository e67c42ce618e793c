import Dstore.Negotiate
import Dstore.Lib.Lists

/-!
# Whether negotiated holders are real

The primary reports a key only where the ids it counted are fewer than its write set has nodes.
It counts itself whether or not it is in the write set, and a peer once for each time the key is
in the request (`length_ids`). So its silence vouches for the client's write set only under a
condition on the two placements (`Vouches`, `holders_real_iff`).
-/

namespace Dstore.Negotiate

open Mark (Placement maxKeys)

variable {κ : Type}

variable {k : κ} {x : Ask κ × Exchange κ} {o : NodeID} {a : Ask κ}

variable {α β : Type} {q : NodeID} {keys : List κ} {m : Reply κ} {res : MissingResult κ}

theorem mem_batches {n : ℕ} (hn : 0 < n) {l : List κ} (h : k ∈ l) :
    ∃ b ∈ batches n l, k ∈ b := by
  obtain ⟨i, hi, rfl⟩ := List.mem_iff_getElem.1 h
  refine ⟨(l.drop (i / n * n)).take n, ?_, ?_⟩
  · refine List.mem_map.2 ⟨i / n, List.mem_range.2 ?_, rfl⟩
    rw [Nat.div_lt_iff_lt_mul hn]
    have := Nat.div_add_mod (l.length + n - 1) n
    have := Nat.mod_lt (l.length + n - 1) hn
    rw [Nat.mul_comm]
    omega
  · have hlt : i % n < n := Nat.mod_lt i hn
    have heq : i / n * n + i % n = i := by rw [Nat.mul_comm]; exact Nat.div_add_mod i n
    refine List.mem_iff_getElem.2 ⟨i % n, ?_, ?_⟩
    · simp only [List.length_take, List.length_drop]
      omega
    · simp only [List.getElem_take, List.getElem_drop, heq]

theorem length_of_mem_batches {n : ℕ} {l b : List κ} (h : b ∈ batches n l) : b.length ≤ n := by
  obtain ⟨i, _, rfl⟩ := List.mem_map.1 h
  simp

variable [DecidableEq κ]

namespace Primary

variable {n : Primary κ} {e : Exchange κ} {keys : List κ} {k : κ} {o : NodeID}

/-- The owners a primary has to ask. -/
def others (n : Primary κ) (k : κ) : List NodeID :=
  (n.placement.writeSet k).filter fun o => o ≠ n.id ∧ o ≠ 0

omit [DecidableEq κ] in
theorem mem_others : o ∈ n.others k ↔ o ∈ n.placement.writeSet k ∧ o ≠ n.id ∧ o ≠ 0 := by
  simp [others]

omit [DecidableEq κ] in
theorem nodup_others (k : κ) : (n.others k).Nodup := (n.nodup k).filter _

/-- The owner answers that it has the key. -/
def holds (n : Primary κ) (e : Exchange κ) (keys : List κ) (k : κ) (o : NodeID) : Bool :=
  (remoteMissing (e.call o) (n.byOwner keys o)).any (k ∉ ·)

omit [DecidableEq κ] in
theorem mem_byOwner : k ∈ n.byOwner keys o ↔ o ≠ n.id ∧ k ∈ keys ∧ o ∈ n.placement.writeSet k := by
  unfold byOwner
  split <;> simp_all

theorem count_byOwner (ho : o ≠ n.id) (hw : o ∈ n.placement.writeSet k) :
    (n.byOwner keys o).count k = keys.count k := by
  unfold byOwner
  rw [if_neg ho, List.count_filter (by simpa using hw)]

omit [DecidableEq κ] in
theorem mem_peers : o ∈ n.peers keys ↔ o ≠ n.id ∧ ∃ k ∈ keys, o ∈ n.placement.writeSet k := by
  simp [peers, and_comm]

theorem mem_told (h : q ∈ n.told e keys k o) :
    q = 0 ∨ q = o ∧ o ∈ n.placement.writeSet k ∧ n.holds e keys k o = true := by
  unfold told at h
  split at h
  · simp only [List.mem_map] at h
    obtain ⟨_, _, rfl⟩ := h
    exact .inl rfl
  · next lacking hl =>
    simp only [List.mem_map, List.mem_filter, decide_eq_true_eq] at h
    obtain ⟨_, ⟨hx, rfl, hnl⟩, rfl⟩ := h
    exact .inr ⟨rfl, (mem_byOwner.1 hx).2.2, by simpa [holds, hl] using hnl⟩

/-- How often an owner is named. -/
theorem length_told (ho : o ≠ n.id) :
    ((n.told e keys k o).filter (· ≠ 0)).length =
      if o ∈ (n.others k).filter (n.holds e keys k) then keys.count k else 0 := by
  have hmem : o ∈ (n.others k).filter (n.holds e keys k) ↔
      o ∈ n.placement.writeSet k ∧ o ≠ 0 ∧ n.holds e keys k o = true := by
    simp only [others, List.mem_filter, decide_eq_true_eq]
    tauto
  by_cases h : o ∈ (n.others k).filter (n.holds e keys k)
  · rw [if_pos h]
    obtain ⟨hw, h0, hh⟩ := hmem.1 h
    unfold told
    unfold holds at hh
    rcases hl : remoteMissing (e.call o) (n.byOwner keys o) with _ | lacking
    · simp [hl] at hh
    · simp only [hl, Option.any_some, decide_eq_true_eq] at hh
      have hfilter : ((n.byOwner keys o).filter fun x => x = k ∧ x ∉ lacking) =
          (n.byOwner keys o).filter (· = k) := by
        refine List.filter_congr fun x _ => ?_
        by_cases hx : x = k
        · simp [hx, hh]
        · simp [hx]
      simp only [hfilter]
      rw [List.filter_eq_self.2 (by simp [h0]), List.length_map, ← count_byOwner ho hw,
        List.count_eq_length_filter]
      rfl
  · rw [if_neg h, List.length_eq_zero_iff, List.filter_eq_nil_iff]
    intro q hq
    rcases mem_told hq with rfl | ⟨rfl, hw, hh⟩
    · simp
    · have : q = 0 := by
        by_contra h0
        exact h (hmem.2 ⟨hw, h0, hh⟩)
      simp [this]

end Primary

theorem length_flatMap_ite {f : α → List β} {P : α → Prop} [DecidablePred P] {c : ℕ} :
    ∀ {l : List α}, (∀ a ∈ l, (f a).length = if P a then c else 0) →
      (l.flatMap f).length = c * (l.filter P).length
  | [], _ => by simp
  | a :: l, h => by
    have ih := length_flatMap_ite (l := l) fun b hb => h b (List.mem_cons_of_mem _ hb)
    rw [List.flatMap_cons, List.length_append, ih, h a List.mem_cons_self, List.filter_cons]
    by_cases ha : P a
    · simp [ha, Nat.mul_add, Nat.add_comm]
    · simp [ha]

namespace Primary

variable {n : Primary κ} {e : Exchange κ} {keys : List κ} {k : κ} {o : NodeID}

/-- How many nodes a primary names, with repetitions. -/
theorem length_ids (hk : k ∈ keys) :
    (n.ids e keys k).length =
      (if n.id = 0 then 0 else 1) +
        keys.count k * ((n.others k).filter (n.holds e keys k)).length := by
  have hflat : ((n.peers keys).flatMap fun o => (n.told e keys k o).filter (· ≠ 0)).length =
      keys.count k *
        ((n.peers keys).filter (· ∈ (n.others k).filter (n.holds e keys k))).length :=
    length_flatMap_ite fun o ho => length_told (mem_peers.1 ho).1
  have hperm : ((n.peers keys).filter (· ∈ (n.others k).filter (n.holds e keys k))).Perm
      ((n.others k).filter (n.holds e keys k)) := by
    have hpeers : (n.peers keys).Nodup := List.nodup_dedup _
    refine (List.perm_ext_iff_of_nodup (hpeers.filter _) ((nodup_others k).filter _)).2 fun o => ?_
    rw [List.mem_filter, decide_eq_true_eq, and_iff_right_iff_imp]
    intro ho
    obtain ⟨hw, hid, _⟩ := mem_others.1 (List.mem_filter.1 ho).1
    exact mem_peers.2 ⟨hid, k, hk, hw⟩
  rw [hperm.length_eq] at hflat
  rw [ids, holders, List.filter_cons, List.filter_flatMap, ← hflat]
  by_cases h0 : n.id = 0 <;> simp [h0, Nat.add_comm]

theorem mem_ids (h : q ∈ n.ids e keys k) :
    q = n.id ∨ q ≠ n.id ∧ q ∈ n.placement.writeSet k ∧ n.holds e keys k q = true := by
  simp only [ids, holders, List.mem_filter, List.mem_cons, List.mem_flatMap,
    decide_eq_true_eq] at h
  obtain ⟨rfl | ⟨o, ho, hq⟩, h0⟩ := h
  · exact .inl rfl
  · obtain ⟨rfl, hw, hh⟩ := (mem_told hq).resolve_left h0
    exact .inr ⟨(mem_peers.1 ho).1, hw, hh⟩

end Primary

/-- In the exchange the node confirmed that it holds the key: the primary by having it in its
store, a peer by answering a batch with the key in it without naming it as lacking. -/
def confirmed (x : Ask κ × Exchange κ) (k : κ) (o : NodeID) : Bool :=
  x.2.fault = none && k ∈ Primary.present x.2 x.1.keys && (o = x.1.primary.id ||
    (batches maxKeys (x.1.primary.byOwner (Primary.present x.2 x.1.keys) o)).any fun b =>
      k ∈ b && (x.2.call o b).any (k ∉ ·))

theorem confirmed_of_holds (hf : x.2.fault = none) (hk : k ∈ Primary.present x.2 x.1.keys)
    (hid : o ≠ x.1.primary.id) (hw : o ∈ x.1.primary.placement.writeSet k)
    (hh : x.1.primary.holds x.2 (Primary.present x.2 x.1.keys) k o = true) :
    confirmed x k o = true := by
  obtain ⟨b, hb, hkb⟩ := mem_batches (n := maxKeys) (by decide)
    (Primary.mem_byOwner.2 ⟨hid, hk, hw⟩)
  unfold Primary.holds remoteMissing at hh
  rcases hm : (batches maxKeys (x.1.primary.byOwner (Primary.present x.2 x.1.keys) o)).mapM
    (x.2.call o) with _ | r
  · simp [hm] at hh
  · simp only [hm, Option.map_some, Option.any_some, decide_eq_true_eq, List.mem_flatten,
      not_exists, not_and] at hh
    obtain ⟨l, hl, hcall⟩ := Lists.mapM_some hm b hb
    simp only [confirmed, hf, hk, Bool.and_eq_true, Bool.or_eq_true, List.any_eq_true,
      decide_eq_true_eq, true_and]
    exact .inr ⟨b, hb, hkb, by simpa [hcall] using hh l hl⟩

/-- A key is reported short when fewer are named than own it. -/
theorem shortOf_eq {n : Primary κ} {e : Exchange κ} (hk : k ∈ keys) (lacking : List κ) :
    Reply.shortOf ⟨lacking, n.negotiateHolders e keys⟩ k =
      if (n.ids e keys k).length < (n.placement.writeSet k).length then some (n.ids e keys k)
      else none := by
  have hall : ∀ y ∈ (n.negotiateHolders e keys).filter (·.1 = k), y = (k, n.ids e keys k) := by
    intro y hy
    simp only [Primary.negotiateHolders, List.mem_filter, List.mem_map, decide_eq_true_eq] at hy
    obtain ⟨⟨k', _, rfl⟩, rfl⟩ := hy
    rfl
  have hmem : (k, n.ids e keys k) ∈ (n.negotiateHolders e keys).filter (·.1 = k) ↔
      (n.ids e keys k).length < (n.placement.writeSet k).length := by
    simp only [Primary.negotiateHolders, List.mem_filter, List.mem_map, decide_eq_true_eq,
      Prod.mk.injEq, and_true]
    refine ⟨?_, fun h => ⟨k, ⟨hk, h⟩, rfl, rfl⟩⟩
    rintro ⟨k', hk', rfl, -⟩
    exact hk'.2
  unfold Reply.shortOf
  split
  · next h =>
    have hne := List.ne_nil_of_mem (hmem.2 h)
    rw [List.getLast?_eq_some_getLast hne, Option.map_some, hall _ (List.getLast_mem hne)]
  · next h =>
    have hnil : (n.negotiateHolders e keys).filter (·.1 = k) = [] := by
      refine List.eq_nil_iff_forall_not_mem.2 fun y hy => h (hmem.1 ?_)
      exact hall y hy ▸ hy
    simp only [hnil, List.getLast?_nil, Option.map_none]

namespace Client

variable {c : Client κ}

/-- What a client records comes of a reply, or was there before. -/
theorem holders_record {p : NodeID} :
    ∀ {keys : List κ} {res : MissingResult κ} {h : List NodeID},
      (keys.foldl (c.record p m) res).holders k = some h → res.holders k = some h ∨
        k ∈ keys ∧ k ∉ m.lacking ∧ h = (m.shortOf k).getD (c.placement.writeSet k)
  | [], _, _, h => .inl h
  | x :: keys, res, h, hh => by
    rw [List.foldl_cons] at hh
    rcases holders_record hh with hr | ⟨hk, hr⟩
    · unfold record at hr
      dsimp only at hr
      split at hr
      · exact .inl hr
      · next hl =>
        by_cases hx : k = x
        · subst hx
          simp only [Function.update_self, Option.some.injEq] at hr
          exact .inr ⟨by simp, hl, hr.symm⟩
        · simp only [Function.update_of_ne hx] at hr
          exact .inl hr
    · exact .inr ⟨List.mem_cons_of_mem _ hk, hr⟩

/-- The nodes a client is told of, or takes to hold the key. -/
def recorded (c : Client κ) (x : Ask κ × Exchange κ) (k : κ) : List NodeID :=
  let ids := x.1.primary.ids x.2 (Primary.present x.2 x.1.keys) k
  if ids.length < (x.1.primary.placement.writeSet k).length then ids
  else c.placement.writeSet k

theorem handleMissing_ok (h : x.1.primary.handleMissing x.2 x.1.keys = .ok m) :
    x.2.fault = none ∧ m.lacking = Primary.lacking x.2 x.1.keys ∧
      ∀ k ∈ Primary.present x.2 x.1.keys,
        (m.shortOf k).getD (c.placement.writeSet k) = c.recorded x k := by
  unfold Primary.handleMissing at h
  split at h
  · cases h
  · split at h
    · cases h
    · next hf =>
      cases h
      refine ⟨hf, rfl, fun k hk => ?_⟩
      rw [if_neg (List.ne_nil_of_mem hk), shortOf_eq hk]
      unfold recorded
      dsimp only
      split <;> rfl

theorem holders_ask {h : List NodeID} (hh : (c.ask res x).holders k = some h) :
    res.holders k = some h ∨
      x.2.fault = none ∧ k ∈ Primary.present x.2 x.1.keys ∧ h = c.recorded x k := by
  unfold ask at hh
  split at hh
  · next m hm =>
    obtain ⟨hf, hl, hs⟩ := handleMissing_ok (c := c) hm
    refine (holders_record hh).imp_right fun ⟨hk, hnl, heq⟩ => ?_
    have hp : k ∈ Primary.present x.2 x.1.keys := by
      rw [hl] at hnl
      simp only [Primary.lacking, Primary.present, List.mem_filter] at hnl ⊢
      exact ⟨hk, by simpa [hk] using hnl⟩
    exact ⟨hf, hp, by rw [heq, hs k hp]⟩
  · exact .inl hh
  · exact .inl hh

theorem holders_askPrimaries {xs : List (Ask κ × Exchange κ)} {h : List NodeID}
    (hh : (c.askPrimaries xs).holders k = some h) : ∃ x ∈ xs, x.2.fault = none ∧
      k ∈ Primary.present x.2 x.1.keys ∧ h = c.recorded x k := by
  suffices ∀ (xs : List (Ask κ × Exchange κ)) (res : MissingResult κ),
      (xs.foldl c.ask res).holders k = some h → res.holders k = some h ∨
        ∃ x ∈ xs, x.2.fault = none ∧ k ∈ Primary.present x.2 x.1.keys ∧ h = c.recorded x k by
    exact (this xs {} hh).resolve_left (by simp)
  intro xs
  induction xs with
  | nil => exact fun _ => .inl
  | cons x xs ih =>
    intro res hh
    rcases ih _ hh with hr | ⟨y, hy, hr⟩
    · exact (holders_ask hr).imp_right fun hr => ⟨x, by simp, hr⟩
    · exact .inr ⟨y, by simp [hy], hr⟩

/-- A key that is not lacking is recorded. -/
theorem record_of_mem {p : NodeID} (hl : k ∉ m.lacking) :
    ∀ {keys : List κ} {res : MissingResult κ},
      k ∈ keys ∨ res.holders k = some ((m.shortOf k).getD (c.placement.writeSet k)) →
      (keys.foldl (c.record p m) res).holders k =
        some ((m.shortOf k).getD (c.placement.writeSet k))
  | [], res, h => h.resolve_left (by simp)
  | x :: keys, res, h => by
    rw [List.foldl_cons]
    refine record_of_mem hl ?_
    by_cases hx : k = x
    · subst hx
      refine .inr ?_
      simp [record, hl]
    · refine h.imp (fun h => (List.mem_cons.1 h).resolve_left hx) fun h => ?_
      unfold record
      dsimp only
      split
      · exact h
      · simpa [Function.update_of_ne hx] using h

theorem ask_of_present (hlen : x.1.keys.length ≤ maxKeys) (hf : x.2.fault = none)
    (hk : k ∈ Primary.present x.2 x.1.keys) :
    (c.ask res x).holders k = some (c.recorded x k) := by
  rcases hm : x.1.primary.handleMissing x.2 x.1.keys with f | m
  · simp [Primary.handleMissing, hf, Nat.not_lt.2 hlen] at hm
  · obtain ⟨_, hl, hs⟩ := handleMissing_ok (c := c) hm
    obtain ⟨hk', hhas⟩ := List.mem_filter.1 hk
    have hnl : k ∉ m.lacking := by simp [hl, Primary.lacking, hhas]
    simp only [ask, hm]
    rw [record_of_mem hnl (.inl hk'), hs k hk]

theorem ask_of_fault {f : Fault} (hf : x.2.fault = some f) :
    (c.ask res x).holders = res.holders := by
  rcases hm : x.1.primary.handleMissing x.2 x.1.keys with f' | m
  · rcases f' <;> simp [ask, hm]
  · simp [(handleMissing_ok (c := c) hm).1] at hf

/-- The primary's silence about a key says that every node of the client's write set has it: it
cannot be silent, or it can be only with all of its peers' words and those are all the client
relies on, or the client relies on the primary alone. -/
def Vouches (c : Client κ) (a : Ask κ) (k : κ) : Prop :=
  let own := if a.primary.id = 0 then 0 else 1
  let peers := (a.primary.others k).length
  let needed := (a.primary.placement.writeSet k).length
  own + a.keys.count k * peers < needed ∨
    own + a.keys.count k * (peers - 1) < needed ∧
      (∀ o ∈ c.placement.writeSet k, o = a.primary.id ∨ o ∈ a.primary.others k) ∨
    ∀ o ∈ c.placement.writeSet k, o = a.primary.id

instance (c : Client κ) (a : Ask κ) (k : κ) : Decidable (c.Vouches a k) := by
  unfold Vouches
  infer_instance

theorem count_present {e : Exchange κ} (hk : k ∈ Primary.present e keys) :
    (Primary.present e keys).count k = keys.count k :=
  List.count_filter (List.mem_filter.1 hk).2

/-- A recorded owner was asked, or is the primary itself. -/
theorem confirmed_of_recorded (hf : x.2.fault = none) (hk : k ∈ Primary.present x.2 x.1.keys)
    (hv : c.Vouches x.1 k) (ho : o ∈ c.recorded x k) : confirmed x k o = true := by
  have hself : confirmed x k x.1.primary.id = true := by simp [confirmed, hf, hk]
  unfold recorded at ho
  dsimp only at ho
  split at ho
  · rcases Primary.mem_ids ho with rfl | ⟨hid, hw, hh⟩
    · exact hself
    · exact confirmed_of_holds hf hk hid hw hh
  · next hlen =>
    -- The primary is silent.
    rw [Primary.length_ids hk, count_present hk, Nat.not_lt] at hlen
    have hle : ((x.1.primary.others k).filter
        (x.1.primary.holds x.2 (Primary.present x.2 x.1.keys) k)).length ≤
        (x.1.primary.others k).length := List.length_filter_le _ _
    rcases hv with hv | ⟨hv, hsub⟩ | hsub
    · have := Nat.mul_le_mul_left (x.1.keys.count k) hle
      omega
    · rcases hsub o ho with rfl | hoth
      · exact hself
      · have hall : ((x.1.primary.others k).filter
            (x.1.primary.holds x.2 (Primary.present x.2 x.1.keys) k)).length =
            (x.1.primary.others k).length := by
          by_contra hne
          have := Nat.mul_le_mul_left (x.1.keys.count k) (Nat.le_sub_one_of_lt
            (Nat.lt_of_le_of_ne hle hne))
          omega
        obtain ⟨hw, hid, _⟩ := Primary.mem_others.1 hoth
        exact confirmed_of_holds hf hk hid hw (List.length_filter_eq_length_iff.1 hall o hoth)
    · rw [hsub o ho]
      exact hself

/-- An exchange in which all but one owner have everything. -/
def without (o : NodeID) : Exchange κ where
  has _ := true
  call q b := some (if q = o then b else [])

omit [DecidableEq κ] in
theorem present_without (o : NodeID) (keys : List κ) :
    Primary.present (without o) keys = keys :=
  List.filter_eq_self.2 fun _ _ => rfl

theorem holds_without {n : Primary κ} {o q : NodeID} (hq : q ≠ o) :
    n.holds (without o) keys k q = true := by
  have hnil (l : List (List κ)) : l.mapM (fun _ => some ([] : List κ)) = some (l.map fun _ => []) :=
    List.mapM_pure
  simp [Primary.holds, remoteMissing, without, hq, hnil]

theorem not_confirmed_without (ho : o ≠ a.primary.id) :
    confirmed (a, without o) k o = false := by
  simp [confirmed, without, ho]

/-- Where the silence vouches for nothing, an owner may lack the key and not be missed. -/
theorem exists_silent (hv : ¬ c.Vouches a k) :
    ∃ o ∈ c.placement.writeSet k, o ≠ a.primary.id ∧
      (a.primary.placement.writeSet k).length ≤ (if a.primary.id = 0 then 0 else 1) +
        a.keys.count k * ((a.primary.others k).filter (· ≠ o)).length := by
  simp only [Vouches, not_or, not_lt, not_and, not_forall] at hv
  obtain ⟨hall, hbut, o, ho, hid⟩ := hv
  by_cases hsub : ∀ o ∈ c.placement.writeSet k, o = a.primary.id ∨ o ∈ a.primary.others k
  · -- Every node relied on counts, and one of them can be spared.
    have hoth := (hsub o ho).resolve_left hid
    refine ⟨o, ho, hid, ?_⟩
    have hlen : ((a.primary.others k).filter (· ≠ o)).length = (a.primary.others k).length - 1 := by
      rw [← List.length_erase_of_mem hoth, (Primary.nodup_others k).erase_eq_filter]
      simp [bne, beq_eq_decide]
    rw [hlen]
    by_contra hlt
    obtain ⟨o', ho', hne⟩ := hbut (by omega)
    exact (hsub o' ho').elim hne.1 hne.2
  · simp only [not_forall, not_or] at hsub
    obtain ⟨o, ho, hid, hoth⟩ := hsub
    refine ⟨o, ho, hid, ?_⟩
    rwa [List.filter_eq_self.2 fun q hq => by simpa using fun h : q = o => hoth (h ▸ hq)]

theorem recorded_without (hk : k ∈ a.keys)
    (hlen : (a.primary.placement.writeSet k).length ≤ (if a.primary.id = 0 then 0 else 1) +
      a.keys.count k * ((a.primary.others k).filter (· ≠ o)).length) :
    c.recorded (a, without o) k = c.placement.writeSet k := by
  have hle : ((a.primary.others k).filter (· ≠ o)).length ≤
      ((a.primary.others k).filter (a.primary.holds (without o) a.keys k)).length := by
    rw [← List.countP_eq_length_filter, ← List.countP_eq_length_filter]
    exact List.countP_mono_left fun q _ hq => holds_without (by simpa using hq)
  unfold recorded
  dsimp only
  rw [present_without, if_neg]
  rw [Primary.length_ids hk, Nat.not_lt]
  have := Nat.mul_le_mul_left (a.keys.count k) hle
  omega

/-- The holders a round records confirmed their keys during it, and a key that is then placed has
enough owners that did. -/
def Real (c : Client κ) (xs : List (Ask κ × Exchange κ)) : Prop :=
  ∀ k h, (c.askPrimaries xs).holders k = some h →
    (∀ o ∈ h, xs.any (confirmed · k o) = true) ∧
    (c.placed k h = true → ∀ owners ∈ [c.placement.owners k, c.placement.pendingOwners k],
      min c.minReplicas owners.length ≤ (owners.filter fun o => xs.any (confirmed · k o)).length)

/-- Whatever the other owners answer and whichever requests fail, the holders recorded are real,
if and only if the silence of every primary asked vouches for every key it is asked for. -/
theorem holders_real_iff (c : Client κ) (byPrimary : List (Primary κ × List κ)) :
    (∀ xs : List (Ask κ × Exchange κ), (xs.map (·.1)).Perm (asks byPrimary) → c.Real xs) ↔
      ∀ a ∈ asks byPrimary, ∀ k ∈ a.keys, c.Vouches a k := by
  constructor
  · intro h a ha k hk
    by_contra hv
    obtain ⟨o, ho, hid, hlen⟩ := exists_silent hv
    obtain ⟨p, _, b, hb, rfl⟩ : ∃ p ∈ byPrimary, ∃ b ∈ batches batchKeys p.2, ⟨p.1, b⟩ = a := by
      simpa [asks] using ha
    obtain ⟨l₁, l₂, heq⟩ := List.append_of_mem ha
    -- Every other request fails, so that nothing else is recorded or confirmed.
    let lost : Exchange κ := ⟨some .refused, fun _ => false, fun _ _ => none⟩
    let xs := l₁.map (·, lost) ++ (⟨p.1, b⟩, without o) :: l₂.map (·, lost)
    have hskip : ∀ (l : List (Ask κ)) (res : MissingResult κ),
        ((l.map (·, lost)).foldl c.ask res).holders = res.holders := by
      intro l
      induction l with
      | nil => exact fun _ => rfl
      | cons a l ih => exact fun res => (ih _).trans (ask_of_fault rfl)
    have hrec : (c.askPrimaries xs).holders k = some (c.placement.writeSet k) := by
      rw [askPrimaries, List.foldl_append, List.foldl_cons, hskip,
        ask_of_present (length_of_mem_batches hb) rfl (by rwa [present_without]),
        recorded_without hk hlen]
    obtain ⟨x, hx, hconf⟩ := List.any_eq_true.1
      ((h xs (by simp [xs, heq, Function.comp_def]) k _ hrec).1 o ho)
    have hlost : ∀ a : Ask κ, confirmed (a, lost) k o = false := fun a => by simp [confirmed, lost]
    simp only [xs, List.mem_append, List.mem_map, List.mem_cons] at hx
    rcases hx with ⟨a, _, rfl⟩ | rfl | ⟨a, _, rfl⟩
    · simp [hlost] at hconf
    · simp [not_confirmed_without hid] at hconf
    · simp [hlost] at hconf
  · intro hv xs hxs k h hh
    obtain ⟨x, hx, hf, hk, rfl⟩ := holders_askPrimaries hh
    have hask : x.1 ∈ asks byPrimary := hxs.mem_iff.1 (List.mem_map_of_mem hx)
    have hreal : ∀ o ∈ c.recorded x k, xs.any (confirmed · k o) = true := fun o ho =>
      List.any_eq_true.2 ⟨x, hx, confirmed_of_recorded hf hk
        (hv x.1 hask k (List.mem_filter.1 hk).1) ho⟩
    refine ⟨hreal, fun hp => ?_⟩
    have hcount : ∀ owners : List NodeID, count owners (c.recorded x k) ≤
        (owners.filter fun o => xs.any (confirmed · k o)).length := by
      intro owners
      rw [count, ← List.countP_eq_length_filter, ← List.countP_eq_length_filter]
      exact List.countP_mono_left fun o _ ho => hreal o (by simpa using ho)
    simp only [placed, Bool.and_eq_true, decide_eq_true_eq] at hp
    simp only [List.forall_mem_cons, List.not_mem_nil, false_imp_iff, implies_true, and_true]
    exact ⟨hp.1.trans (hcount _), hp.2.trans (hcount _)⟩

/-- A client with an older placement. -/
def behind : Client ℕ where
  placement := { owners := fun _ => [1, 2], rankIDs := fun _ => [1, 2] }
  minReplicas := 2

/-- A primary that has given its keys away. -/
def formerOwner : Primary ℕ where
  id := 1
  placement := { owners := fun _ => [3, 4], rankIDs := fun _ => [3, 4] }
  nodup _ := by simp [Mark.Placement.writeSet]

/-- The primary and one of the new owners have the key, the other lacks it, and the client takes
the key to be placed at its old owners, of which one was never asked. -/
theorem unasked_holder_recorded :
    let asked : Ask ℕ := ⟨formerOwner, [7]⟩
    let xs := [(asked, without 4)]
    asks [(formerOwner, [7])] = [asked] ∧ (behind.askPrimaries xs).holders 7 = some [1, 2] ∧
      xs.any (confirmed · 7 2) = false ∧ behind.placed 7 [1, 2] = true ∧
      ((behind.placement.owners 7).filter fun o => xs.any (confirmed · 7 o)).length = 1 := by
  refine ⟨rfl, ?_, ?_, ?_, ?_⟩ <;> decide +kernel

end Client

end Dstore.Negotiate
