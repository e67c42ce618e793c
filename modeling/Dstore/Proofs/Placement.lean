import Dstore.Placement
import Dstore.Lib.Ranked

/-!
# Everyone computes the same owners

A member's time for a slot is `L / weight`, a rational number, and the earlier time ranks higher,
the smaller id among equal times. `less`, on cross products of machine words, is this order on the
members of positive weight, so the ranking does not depend on the order they were given in.
-/

namespace Dstore.Placement

open Ranked

/-- When a member finishes its race, ids breaking ties. -/
def finish (l : UInt64) (m : Member) : ℚ ×ₗ Bytes :=
  toLex ((l.toNat : ℚ) / (m.weight.toNat : ℚ), m.id.val)

variable {a b m : Member}

/-- The byte comparison of ids is the order of lists. -/
theorem compareBytes_neg {a b : Bytes} (h : a.length = b.length) :
    compareBytes a b < 0 ↔ a < b := by
  induction a generalizing b with
  | nil =>
    obtain rfl : b = [] := List.length_eq_zero_iff.1 h.symm
    simp [compareBytes]
  | cons x xs ih =>
    cases b with
    | nil => simp at h
    | cons y ys =>
      rw [List.cons_lt_cons_iff]
      unfold compareBytes
      by_cases hxy : x = y
      · subst hxy
        simp [ih (by simpa using h)]
      · by_cases hlt : x < y <;> simp [hxy, hlt]

theorem compareID_neg {a b : NodeID} : compareID a b < 0 ↔ a.val < b.val :=
  compareBytes_neg (a.2.trans b.2.symm)

theorem mul64_words (a b : UInt64) :
    (mul64 a b).1.toNat = a.toNat * b.toNat / 2 ^ 64
      ∧ (mul64 a b).2.toNat = a.toNat * b.toNat % 2 ^ 64 := by
  have ha := a.toNat_lt
  have hb := b.toNat_lt
  have hab : a.toNat * b.toNat < 2 ^ 64 * 2 ^ 64 := Nat.mul_lt_mul'' ha hb
  have hhi : a.toNat * b.toNat / 2 ^ 64 < 2 ^ 64 := Nat.div_lt_of_lt_mul hab
  have hlo : a.toNat * b.toNat % 2 ^ 64 < 2 ^ 64 := Nat.mod_lt _ (by norm_num)
  exact ⟨Nat.mod_eq_of_lt hhi, Nat.mod_eq_of_lt hlo⟩

/-- `less` compares the quotients crosswise. -/
theorem less_iff_cross {la lb : UInt64} :
    less a b la lb = true ↔
      b.weight.toNat * la.toNat < a.weight.toNat * lb.toNat ∨
        (b.weight.toNat * la.toNat = a.weight.toNat * lb.toNat ∧ a.id.val < b.id.val) := by
  obtain ⟨hahi, halo⟩ := mul64_words a.weight.toUInt64 lb
  obtain ⟨hbhi, hblo⟩ := mul64_words b.weight.toUInt64 la
  rw [UInt32.toNat_toUInt64] at hahi halo hbhi hblo
  unfold less
  simp only [ne_eq, ite_not, gt_iff_lt]
  have hsplit : ∀ {u v : UInt64}, u = v ↔ u.toNat = v.toNat := fun {u v} => UInt64.toNat_inj.symm
  by_cases hhi : (mul64 a.weight.toUInt64 lb).1 = (mul64 b.weight.toUInt64 la).1
  · by_cases hlo : (mul64 a.weight.toUInt64 lb).2 = (mul64 b.weight.toUInt64 la).2
    · rw [if_pos hhi, if_pos hlo, decide_eq_true_eq, compareID_neg]
      rw [hsplit] at hhi hlo
      have heq : b.weight.toNat * la.toNat = a.weight.toNat * lb.toNat := by omega
      simp [heq]
    · rw [if_pos hhi, if_neg hlo, decide_eq_true_eq, UInt64.lt_iff_toNat_lt]
      rw [hsplit] at hhi hlo
      omega
  · rw [if_neg hhi, decide_eq_true_eq, UInt64.lt_iff_toNat_lt]
    rw [hsplit] at hhi
    omega

theorem weight_pos (h : m.weight ≠ 0) : 0 < m.weight.toNat := by
  rw [Nat.pos_iff_ne_zero]
  intro h0
  exact h (UInt32.toNat_inj.1 h0)

/-- `less` says who finishes first. -/
theorem less_iff (ha : a.weight ≠ 0) (hb : b.weight ≠ 0) {la lb : UInt64} :
    less a b la lb = true ↔ finish la a < finish lb b := by
  have ha' : (0 : ℚ) < a.weight.toNat := by exact_mod_cast weight_pos ha
  have hb' : (0 : ℚ) < b.weight.toNat := by exact_mod_cast weight_pos hb
  have hlt : (la.toNat : ℚ) / a.weight.toNat < lb.toNat / b.weight.toNat
      ↔ b.weight.toNat * la.toNat < a.weight.toNat * lb.toNat := by
    rw [div_lt_div_iff₀ ha' hb', mul_comm, mul_comm (lb.toNat : ℚ)]
    norm_cast
  have heq : (la.toNat : ℚ) / a.weight.toNat = lb.toNat / b.weight.toNat
      ↔ b.weight.toNat * la.toNat = a.weight.toNat * lb.toNat := by
    rw [div_eq_div_iff ha'.ne' hb'.ne', mul_comm, mul_comm (lb.toNat : ℚ)]
    norm_cast
  rw [less_iff_cross, finish, finish, Prod.Lex.toLex_lt_toLex, hlt, heq]

theorem finish_le {w : UInt32} (hm : m.weight ≠ 0) (hw : m.weight ≤ w) (l : UInt64) :
    finish l { m with weight := w } ≤ finish l m := by
  have hpos : (0 : ℚ) < m.weight.toNat := by exact_mod_cast weight_pos hm
  have hle : (m.weight.toNat : ℚ) ≤ w.toNat := by exact_mod_cast UInt32.le_iff_toNat_le.1 hw
  have hdiv : (l.toNat : ℚ) / w.toNat ≤ l.toNat / m.weight.toNat :=
    div_le_div_of_nonneg_left (Nat.cast_nonneg _) hpos hle
  rw [finish, finish, Prod.Lex.toLex_le_toLex]
  rcases hdiv.lt_or_eq with h | h
  · exact .inl h
  · exact .inr ⟨h, le_rfl⟩

section salted

variable (salt : NodeID → UInt64) (slot : UInt32)

/-- The finish of a member in a slot. -/
def timeOf (m : Member) : ℚ ×ₗ Bytes := finish (L slot (salt m.id)) m

/-- The key by which members are ranked, those without weight last. -/
def standing (m : Member) : Bool ×ₗ (ℚ ×ₗ Bytes) :=
  if m.weight = 0 then toLex (true, toLex (0, m.id.val)) else toLex (false, timeOf salt slot m)

theorem standing_injOn_id (h : standing salt slot a = standing salt slot b) :
    a.id = b.id := by
  unfold standing timeOf finish at h
  apply Subtype.ext
  split_ifs at h with ha hb hb <;> simp_all [Prod.ext_iff]

/-- The source's comparison of two members. -/
def Before (a b : Member) : Prop :=
  (a.weight ≠ 0 ∧ b.weight = 0) ∨
  (a.weight ≠ 0 ∧ b.weight ≠ 0 ∧
    less a b (L slot (salt a.id)) (L slot (salt b.id)) = true) ∨
  (a.weight = 0 ∧ b.weight = 0 ∧ compareID a.id b.id < 0)

theorem before_iff :
    Before salt slot a b ↔ standing salt slot a < standing salt slot b := by
  unfold Before standing
  by_cases ha : a.weight = 0 <;> by_cases hb : b.weight = 0
  · simp [ha, hb, compareID_neg, Prod.Lex.toLex_lt_toLex]
  · simp [ha, hb, Prod.Lex.toLex_lt_toLex]
  · simp [ha, hb, Prod.Lex.toLex_lt_toLex]
  · simp [ha, hb, less_iff ha hb, timeOf, Prod.Lex.toLex_lt_toLex]

theorem not_less_iff (ha : a.weight ≠ 0) (hb : b.weight ≠ 0) :
    ¬ less b a (L slot (salt b.id)) (L slot (salt a.id)) = true
      ↔ standing salt slot a ≤ standing salt slot b := by
  rw [← not_lt, ← before_iff]
  simp [Before, ha, hb]

theorem not_compareID_iff (ha : a.weight = 0) (hb : b.weight = 0) :
    ¬ compareID b.id a.id < 0 ↔ standing salt slot a ≤ standing salt slot b := by
  rw [← not_lt, ← before_iff]
  simp [Before, ha, hb]

end salted

section rank

variable (salt : NodeID → UInt64) {ms : List Member}

theorem standing_ne (hid : (ms.map Member.id).Nodup) {slot : UInt32} {i j : Fin ms.length}
    (hij : i ≠ j) : standing salt slot (ms.get i) ≠ standing salt slot (ms.get j) := by
  intro h
  have hinj := List.nodup_iff_injective_get.1 hid
  have hget := standing_injOn_id salt slot h
  have h' := @hinj (i.cast (List.length_map _).symm) (j.cast (List.length_map _).symm)
    (by simpa using hget)
  exact hij (by simpa [Fin.ext_iff] using h')

theorem rank_perm (s : Set) (slot : UInt32) :
    (s.rank slot).Perm (List.finRange s.members.length) := by
  unfold Set.rank
  refine ((List.perm_insertionSort _ _).append (List.perm_insertionSort _ _)).trans ?_
  simpa using List.filter_append_perm (fun i => decide ((s.member i).weight ≠ 0))
    (List.finRange s.members.length)

/-- `Rank` sorts by the standing. -/
theorem rank_sorted (hid : (ms.map Member.id).Nodup) (slot : UInt32) :
    ((newSet salt ms).rank slot).Pairwise
      fun i j => standing salt slot (ms.get i) < standing salt slot (ms.get j) := by
  have hne : ∀ p : Fin ms.length → Bool, ((List.finRange ms.length).filter p).Pairwise
      fun i j => standing salt slot (ms.get i) ≠ standing salt slot (ms.get j) := fun p =>
    ((List.nodup_finRange _).filter p).imp fun h => standing_ne salt hid h
  unfold Set.rank
  refine List.pairwise_append.2 ⟨?_, ?_, ?_⟩
  · refine pairwise_insertionSort (fun i => standing salt slot (ms.get i)) (fun i hi j hj => ?_) (hne _)
    exact not_less_iff salt slot (of_decide_eq_true (List.mem_filter.1 hi).2)
      (of_decide_eq_true (List.mem_filter.1 hj).2)
  · refine pairwise_insertionSort (fun i => standing salt slot (ms.get i)) (fun i hi j hj => ?_) (hne _)
    exact not_compareID_iff salt slot (of_decide_eq_true (List.mem_filter.1 hi).2)
      (of_decide_eq_true (List.mem_filter.1 hj).2)
  · intro i hi j hj
    have hi' := (List.mem_insertionSort _).1 hi
    have hj' := (List.mem_insertionSort _).1 hj
    exact (before_iff salt slot).1 (.inl ⟨of_decide_eq_true (List.mem_filter.1 hi').2,
      of_decide_eq_true (List.mem_filter.1 hj').2⟩)

/-- The members in the order of their rank. -/
def ranking (s : Set) (slot : UInt32) : List Member := (s.rank slot).map s.member

theorem ranking_perm (slot : UInt32) : (ranking (newSet salt ms) slot).Perm ms := by
  have h := (rank_perm (newSet salt ms) slot).map (newSet salt ms).member
  have hms : (List.finRange ms.length).map (newSet salt ms).member = ms := List.map_get_finRange ms
  exact h.trans (List.Perm.of_eq hms)

theorem ranking_sorted (hid : (ms.map Member.id).Nodup) (slot : UInt32) :
    (ranking (newSet salt ms) slot).Pairwise (standing salt slot · < standing salt slot ·) :=
  List.pairwise_map.2 (rank_sorted salt hid slot)

theorem ranking_eq (hid : (ms.map Member.id).Nodup) {slot : UInt32} {l : List Member}
    (hl : l.Pairwise (standing salt slot · < standing salt slot ·)) (h : l.Perm ms) :
    ranking (newSet salt ms) slot = l :=
  eq_of_perm _ (ranking_sorted salt hid slot) hl ((ranking_perm salt slot).trans h.symm)

end rank

section owners

/-- The owners are the first of each zone. -/
theorem ownersFrom_eq (s : Set) (room : ℕ) (zones : List Bytes) (l : List (Fin s.members.length))
    (hl : l.Pairwise fun i j => (s.member i).weight = 0 → (s.member j).weight = 0) :
    s.ownersFrom room zones l
      = takeFresh (fun i => zoneOf (s.member i)) room zones
          (l.filter fun i => (s.member i).weight ≠ 0) := by
  induction l generalizing room zones with
  | nil => cases room <;> rfl
  | cons i l ih =>
    obtain ⟨hi, hl⟩ := List.pairwise_cons.1 hl
    cases room with
    | zero => simp [Set.ownersFrom, takeFresh]
    | succ room =>
      unfold Set.ownersFrom
      by_cases hw : (s.member i).weight = 0
      · -- everything behind a member of weight 0 has weight 0
        rw [if_pos hw, List.filter_cons_of_neg (by simpa using hw),
          List.filter_eq_nil_iff.2 fun j hj => by simpa using hi j hj hw, takeFresh_nil]
      · rw [if_neg hw, List.filter_cons_of_pos (by simpa using hw), takeFresh_cons, ih _ _ hl,
          ih _ _ hl]
        split_ifs <;> rfl

variable (salt : NodeID → UInt64) {ms : List Member}

theorem owners_eq (hid : (ms.map Member.id).Nodup) (slot : UInt32) (r : ℕ) :
    (newSet salt ms).owners slot r
      = takeFresh (fun i => zoneOf (ms.get i)) r []
          (((newSet salt ms).rank slot).filter fun i => (ms.get i).weight ≠ 0) := by
  refine ownersFrom_eq _ _ _ _ ((rank_sorted salt hid slot).imp fun {i j} h hi => ?_)
  rcases (before_iff salt slot).2 h with ⟨h', -⟩ | ⟨h', -⟩ | ⟨-, h', -⟩
  · exact absurd hi h'
  · exact absurd hi h'
  · exact h'

/-- Those of them with a weight. -/
def weighted (s : Set) (slot : UInt32) : List Member :=
  (ranking s slot).filter fun m => m.weight ≠ 0

theorem owners_members (hid : (ms.map Member.id).Nodup) (slot : UInt32) (r : ℕ) :
    ((newSet salt ms).owners slot r).map (newSet salt ms).member
      = takeFresh zoneOf r [] (weighted (newSet salt ms) slot) := by
  rw [owners_eq salt hid, weighted, ranking, List.filter_map]
  exact map_takeFresh zoneOf (newSet salt ms).member r [] _

/-- Everyone computes the same owners: the order of the members of positive weight is strict and
total, the ranking lists every member once in that order with the members of weight 0 behind, the
order in which the members are given does not matter, and the owners are the first of their zones.
-/
theorem same_owners (salt : NodeID → UInt64) (ms : List Member) (hid : (ms.map Member.id).Nodup)
    (slot : UInt32) (r : ℕ) :
    IsStrictTotalOrder {m : Member // m ∈ ms ∧ m.weight ≠ 0}
        (fun a b => less a.1 b.1 (L slot (salt a.1.id)) (L slot (salt b.1.id)) = true) ∧
    ((newSet salt ms).rank slot).Perm (List.finRange ms.length) ∧
    ((newSet salt ms).rank slot).Pairwise (fun i j => Before salt slot (ms.get i) (ms.get j)) ∧
    (∀ ms' : List Member, ms'.Perm ms →
      (newSet salt ms').ids ((newSet salt ms').rank slot)
          = (newSet salt ms).ids ((newSet salt ms).rank slot) ∧
      (newSet salt ms').ids ((newSet salt ms').owners slot r)
          = (newSet salt ms).ids ((newSet salt ms).owners slot r)) ∧
    ((newSet salt ms).owners slot r).length
        = min r ((ms.filter fun m => m.weight ≠ 0).map zoneOf).toFinset.card ∧
    ((newSet salt ms).owners slot r).Sublist ((newSet salt ms).rank slot) ∧
    ∀ i ∈ (newSet salt ms).owners slot r, (ms.get i).weight ≠ 0 ∧
      ∀ j, (ms.get j).weight ≠ 0 → zoneOf (ms.get j) = zoneOf (ms.get i) →
        j = i ∨ Before salt slot (ms.get i) (ms.get j) := by
  have hsub : ((newSet salt ms).owners slot r).Sublist
      (((newSet salt ms).rank slot).filter fun i => (ms.get i).weight ≠ 0) := by
    rw [owners_eq salt hid]
    exact takeFresh_sublist _ _ _ _
  refine ⟨?_, rank_perm _ slot, ?_, ?_, ?_, hsub.trans List.filter_sublist, ?_⟩
  · have hlt : ∀ a b : {m : Member // m ∈ ms ∧ m.weight ≠ 0},
        less a.1 b.1 (L slot (salt a.1.id)) (L slot (salt b.1.id)) = true
          ↔ timeOf salt slot a.1 < timeOf salt slot b.1 := fun a b => less_iff a.2.2 b.2.2
    refine @IsStrictTotalOrder.mk _ _ ⟨fun a b hab hba => ?_⟩
      (@IsStrictOrder.mk _ _ ⟨fun a h => ?_⟩ ⟨fun a b c hab hbc => ?_⟩)
    · rw [hlt] at hab hba
      have heq : timeOf salt slot a.1 = timeOf salt slot b.1 :=
        le_antisymm (not_lt.1 hba) (not_lt.1 hab)
      have hids : a.1.id = b.1.id := Subtype.ext (congrArg (fun k => (ofLex k).2) heq)
      exact Subtype.ext (List.inj_on_of_nodup_map hid a.2.1 b.2.1 hids)
    · exact lt_irrefl _ ((hlt a a).1 h)
    · exact (hlt a c).2 (((hlt a b).1 hab).trans ((hlt b c).1 hbc))
  · exact (rank_sorted salt hid slot).imp fun h => (before_iff salt slot).2 h
  · intro ms' hp
    have hid' : (ms'.map Member.id).Nodup := (hp.map _).nodup_iff.2 hid
    have hr : ranking (newSet salt ms') slot = ranking (newSet salt ms) slot :=
      ranking_eq salt hid' (ranking_sorted salt hid slot) ((ranking_perm salt slot).trans hp.symm)
    have hids : ∀ (s : Set) (l : List (Fin s.members.length)),
        s.ids l = (l.map s.member).map Member.id := fun s l => by simp [Set.ids, Function.comp_def]
    refine ⟨?_, ?_⟩
    · rw [hids, hids]
      exact congrArg (List.map Member.id) hr
    · rw [hids, hids, owners_members salt hid', owners_members salt hid, weighted, weighted, hr]
  · have hlen := congrArg List.length (owners_members salt hid slot r)
    rw [List.length_map, length_takeFresh, List.toFinset_nil, Finset.sdiff_empty] at hlen
    have hp : ((weighted (newSet salt ms) slot).map zoneOf).Perm
        ((ms.filter fun m => decide (m.weight ≠ 0)).map zoneOf) :=
      ((ranking_perm salt slot).filter _).map _
    rw [hlen, List.toFinset_eq_of_perm _ _ hp]
  · intro i hi
    refine ⟨of_decide_eq_true (List.mem_filter.1 (hsub.subset hi)).2, fun j hj hz => ?_⟩
    rw [owners_eq salt hid] at hi
    have hmem : j ∈ ((newSet salt ms).rank slot).filter fun i => decide ((ms.get i).weight ≠ 0) :=
      List.mem_filter.2 ⟨(rank_perm _ slot).mem_iff.2 (List.mem_finRange j), decide_eq_true hj⟩
    rcases first_of_mem_takeFresh _ ((rank_sorted salt hid slot).filter _) hi hmem hz with h | h
    · exact .inl h
    · exact .inr ((before_iff salt slot).2 h)

/-- An id of one byte, repeated. -/
def nodeOf (b : Fin 256) : NodeID := ⟨List.replicate 32 b, List.length_replicate⟩

/-- The head of the id where the source has its hash. -/
def headSalt (id : NodeID) : UInt64 := UInt64.ofNat (bigEndian (id.val.take 8))

/-- Three weighted members, two of them in one zone, and one that holds nothing. -/
def zoned : List Member :=
  [⟨nodeOf 1, 1000, [97]⟩, ⟨nodeOf 2, 3000, [97]⟩, ⟨nodeOf 3, 2000, [98]⟩, ⟨nodeOf 4, 0, [99]⟩]

theorem same_owners_zoned :
    (zoned.map Member.id).Nodup ∧
    (newSet headSalt zoned).ids ((newSet headSalt zoned).rank 12345)
      = [nodeOf 1, nodeOf 2, nodeOf 3, nodeOf 4] ∧
    (newSet headSalt zoned.reverse).ids ((newSet headSalt zoned.reverse).owners 12345 2)
      = [nodeOf 1, nodeOf 3] ∧
    ((newSet headSalt zoned).owners 12345 2).length = 2 := by
  obtain ⟨-, -, -, hperm, hlen, -⟩ := same_owners headSalt zoned (by decide) 12345 2
  refine ⟨by decide, by decide +kernel, ?_, hlen.trans (by decide)⟩
  rw [(hperm _ (List.reverse_perm zoned)).2]
  decide +kernel

end owners

/-- `hi` is `lo` with the member `n` added, or with the weight of `n` raised. -/
inductive Raised (n : NodeID) : List Member → List Member → Prop
  | added {lo hi : List Member} {m : Member} (hm : m.id = n) (hhi : hi.Perm (m :: lo)) :
      Raised n lo hi
  | raised {lo hi rest : List Member} {m : Member} {w : UInt32} (hm : m.id = n)
      (hw : m.weight ≤ w) (hlo : lo.Perm (m :: rest))
      (hhi : hi.Perm ({ m with weight := w } :: rest)) : Raised n lo hi

section change

variable (salt : NodeID → UInt64) (slot : UInt32) {ms : List Member}

theorem weighted_perm : (weighted (newSet salt ms) slot).Perm (ms.filter fun m => m.weight ≠ 0) :=
  (ranking_perm salt slot).filter _

theorem weighted_sorted (hid : (ms.map Member.id).Nodup) :
    (weighted (newSet salt ms) slot).Pairwise (standing salt slot · < standing salt slot ·) :=
  (ranking_sorted salt hid slot).filter _

theorem weighted_eq (hid : (ms.map Member.id).Nodup) {l : List Member}
    (hl : l.Pairwise (standing salt slot · < standing salt slot ·))
    (h : l.Perm (ms.filter fun m => m.weight ≠ 0)) : weighted (newSet salt ms) slot = l :=
  eq_of_perm _ (weighted_sorted salt slot hid) hl ((weighted_perm salt slot).trans h.symm)

theorem owners_take (hid : (ms.map Member.id).Nodup) (hz : (ms.map zoneOf).Nodup) (r : ℕ) :
    (newSet salt ms).ids ((newSet salt ms).owners slot r)
      = ((weighted (newSet salt ms) slot).map Member.id).take r := by
  have hzw : ((weighted (newSet salt ms) slot).map zoneOf).Nodup :=
    ((weighted_perm salt slot).map _).nodup_iff.2 (hz.sublist (List.filter_sublist.map _))
  have h := congrArg (List.map Member.id) (owners_members salt hid slot r)
  rw [takeFresh_eq_take _ _ _ _ hzw (by simp), List.map_take, List.map_map] at h
  exact h

theorem weighted_cons_zero {rest : List Member} (hp : ms.Perm (m :: rest))
    (hid : (ms.map Member.id).Nodup) (hm : m.weight = 0) :
    weighted (newSet salt ms) slot = weighted (newSet salt rest) slot := by
  have hrest : (rest.map Member.id).Nodup := by
    rw [(hp.map _).nodup_iff, List.map_cons, List.nodup_cons] at hid
    exact hid.2
  refine weighted_eq salt slot hid (weighted_sorted salt slot hrest) ((weighted_perm salt slot).trans ?_)
  refine List.Perm.trans ?_ (hp.filter _).symm
  rw [List.filter_cons_of_neg (by simpa using hm)]

/-- A new member is put at its place, the others keep their order. -/
theorem weighted_cons {rest : List Member} (hp : ms.Perm (m :: rest))
    (hid : (ms.map Member.id).Nodup) (hm : m.weight ≠ 0) :
    weighted (newSet salt ms) slot
      = (weighted (newSet salt rest) slot).filter
            (fun x => standing salt slot x < standing salt slot m)
        ++ m :: (weighted (newSet salt rest) slot).filter
            (fun x => standing salt slot m < standing salt slot x) := by
  rw [(hp.map _).nodup_iff, List.map_cons, List.nodup_cons] at hid
  have hne : ∀ x ∈ weighted (newSet salt rest) slot, standing salt slot x ≠ standing salt slot m := by
    intro x hx h
    apply hid.1
    rw [← standing_injOn_id salt slot h]
    exact List.mem_map_of_mem (List.mem_filter.1 ((weighted_perm salt slot).mem_iff.1 hx)).1
  have hsorted := weighted_sorted salt slot hid.2
  refine weighted_eq salt slot ((hp.map _).nodup_iff.2 (List.nodup_cons.2 hid))
    (pairwise_insert _ hsorted m) ?_
  refine List.perm_middle.trans ?_
  rw [← eq_filter_append _ hsorted hne]
  refine ((weighted_perm salt slot).cons m).trans (List.Perm.trans ?_ (hp.filter _).symm)
  rw [List.filter_cons_of_pos (by simpa using hm)]

theorem standing_rest {rest : List Member} (hp : ms.Perm (m :: rest))
    (hid : (ms.map Member.id).Nodup) :
    (rest.map Member.id).Nodup ∧
    ∀ x ∈ weighted (newSet salt rest) slot, x.id ≠ m.id ∧
      ∀ w, standing salt slot x ≠ standing salt slot { m with weight := w } := by
  rw [(hp.map _).nodup_iff, List.map_cons, List.nodup_cons] at hid
  refine ⟨hid.2, fun x hx => ?_⟩
  have hne : x.id ≠ m.id := by
    intro h
    exact hid.1 (h ▸ List.mem_map_of_mem (List.mem_filter.1 ((weighted_perm salt slot).mem_iff.1 hx)).1)
  exact ⟨hne, fun w h => hne (standing_injOn_id salt slot (b := { m with weight := w }) h)⟩

theorem standing_le {w : UInt32} (hm : m.weight ≠ 0) (hw : m.weight ≤ w) :
    standing salt slot { m with weight := w } ≤ standing salt slot m := by
  have hw0 : w ≠ 0 := by
    rintro rfl
    exact hm (UInt32.toNat_inj.1 (Nat.le_zero.1 (UInt32.le_iff_toNat_le.1 hw)))
  unfold standing
  rw [if_neg hw0, if_neg hm, Prod.Lex.toLex_le_toLex]
  exact .inr ⟨rfl, finish_le hm hw _⟩

/-- A member that gains weight takes at most one place of another's. -/
theorem minimal_of_raised {n : NodeID} {lo hi : List Member} (h : Raised n lo hi)
    (hid : (hi.map Member.id).Nodup) (hz : (hi.map zoneOf).Nodup) (r : ℕ) :
    Minimal n ((newSet salt hi).ids ((newSet salt hi).owners slot r))
      ((newSet salt lo).ids ((newSet salt lo).owners slot r)) := by
  cases h with
  | @added m hm hhi =>
    obtain ⟨hidlo, hrest⟩ := standing_rest salt slot hhi hid
    have hzlo : (lo.map zoneOf).Nodup := by
      rw [(hhi.map _).nodup_iff, List.map_cons, List.nodup_cons] at hz
      exact hz.2
    rw [owners_take salt slot hid hz, owners_take salt slot hidlo hzlo]
    by_cases hm0 : m.weight = 0
    · rw [weighted_cons_zero salt slot hhi hid hm0]
      exact Minimal.refl _ _
    · rw [weighted_cons salt slot hhi hid hm0, List.map_append, List.map_cons, hm]
      exact Minimal.enter_key (weighted_sorted salt slot hidlo) (fun x hx => (hrest x hx).2 m.weight)
        (fun x hx => hm ▸ (hrest x hx).1) r
  | @raised rest m w hm hw hlo hhi =>
    obtain ⟨hidrest, hrest⟩ := standing_rest salt slot hhi hid
    have hidlo : (lo.map Member.id).Nodup := by
      rw [(hhi.map _).nodup_iff] at hid
      exact (hlo.map _).nodup_iff.2 hid
    have hzlo : (lo.map zoneOf).Nodup := by
      rw [(hhi.map _).nodup_iff] at hz
      exact (hlo.map _).nodup_iff.2 hz
    rw [owners_take salt slot hid hz, owners_take salt slot hidlo hzlo]
    by_cases hw0 : w = 0
    · have hm0 : m.weight = 0 :=
        UInt32.toNat_inj.1 (Nat.le_zero.1 (UInt32.le_iff_toNat_le.1 (hw0 ▸ hw)))
      rw [weighted_cons_zero salt slot hhi hid hw0, weighted_cons_zero salt slot hlo hidlo hm0]
      exact Minimal.refl _ _
    · rw [weighted_cons salt slot hhi hid hw0, List.map_append, List.map_cons]
      by_cases hm0 : m.weight = 0
      · rw [weighted_cons_zero salt slot hlo hidlo hm0]
        subst hm
        exact Minimal.enter_key (weighted_sorted salt slot hidrest) (fun x hx => (hrest x hx).2 w)
          (fun x hx => (hrest x hx).1) r
      · rw [weighted_cons salt slot hlo hidlo hm0, List.map_append, List.map_cons]
        subst hm
        exact Minimal.move_key (weighted_sorted salt slot hidrest) (standing_le salt slot hm0 hw)
          (fun x hx => (hrest x hx).2 m.weight) (fun x hx => (hrest x hx).2 w)
          (fun x hx => (hrest x hx).1) r

end change

/-- Minimal disruption, `old` and `new` being the sets before and after the change. When `n` is
added or gains weight, the new owners but for `n` are old owners in the same order, at most one old
owner is lost and only to `n`, and nothing changes unless `n` is a new owner. When `n` is removed or
loses weight, the same holds with the two sets exchanged. -/
theorem minimal_disruption (salt : NodeID → UInt64) (slot : UInt32) (r : ℕ) (n : NodeID)
    (old new : List Member) :
    (Raised n old new → (new.map Member.id).Nodup → (new.map zoneOf).Nodup →
      Minimal n ((newSet salt new).ids ((newSet salt new).owners slot r))
        ((newSet salt old).ids ((newSet salt old).owners slot r))) ∧
    (Raised n new old → (old.map Member.id).Nodup → (old.map zoneOf).Nodup →
      Minimal n ((newSet salt old).ids ((newSet salt old).owners slot r))
        ((newSet salt new).ids ((newSet salt new).owners slot r))) :=
  ⟨fun h hid hz => minimal_of_raised salt slot h hid hz r,
    fun h hid hz => minimal_of_raised salt slot h hid hz r⟩

/-- Three members, the second of weight `w`. -/
def members (w : UInt32) : List Member :=
  [⟨nodeOf 1, 1000, []⟩, ⟨nodeOf 2, w, []⟩, ⟨nodeOf 3, 2000, []⟩]

/-- The two owners of a slot. -/
def ownersAt (ms : List Member) : List NodeID :=
  (newSet headSalt ms).ids ((newSet headSalt ms).owners 3 2)

/-- A fourth member takes the place of an owner, which has it back when another loses weight. -/
theorem minimal_disruption_moved :
    let joined (w : UInt32) : List Member := ⟨nodeOf 5, 2000, []⟩ :: members w
    ownersAt (members 3000) = [nodeOf 2, nodeOf 1] ∧
    ownersAt (joined 3000) = [nodeOf 2, nodeOf 5] ∧ ownersAt (joined 500) = [nodeOf 5, nodeOf 1] ∧
    Minimal (nodeOf 5) [nodeOf 2, nodeOf 5] [nodeOf 2, nodeOf 1] ∧
    Minimal (nodeOf 2) [nodeOf 2, nodeOf 5] [nodeOf 5, nodeOf 1] := by
  intro joined
  have hold : ownersAt (members 3000) = [nodeOf 2, nodeOf 1] := by decide +kernel
  have hnew : ownersAt (joined 3000) = [nodeOf 2, nodeOf 5] := by decide +kernel
  have hlow : ownersAt (joined 500) = [nodeOf 5, nodeOf 1] := by decide +kernel
  have hraised : Raised (nodeOf 2) (joined 500) (joined 3000) :=
    .raised (m := ⟨nodeOf 2, 500, []⟩) (w := 3000) rfl (by decide)
      (List.Perm.trans (.cons _ (.swap _ _ _)) (.swap _ _ _))
      (List.Perm.trans (.cons _ (.swap _ _ _)) (.swap _ _ _))
  refine ⟨hold, hnew, hlow, ?_, ?_⟩
  · rw [← hold, ← hnew]
    exact (minimal_disruption headSalt 3 2 (nodeOf 5) (members 3000) (joined 3000)).1
      (.added rfl (List.Perm.refl _)) (by decide) (by decide)
  · rw [← hnew, ← hlow]
    exact (minimal_disruption headSalt 3 2 (nodeOf 2) (joined 3000) (joined 500)).2 hraised
      (by decide) (by decide)

end Dstore.Placement
