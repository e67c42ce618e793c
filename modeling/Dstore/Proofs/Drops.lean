import Dstore.Tables
import Dstore.Proofs.Placement

/-!
# What a change of the node list leaves of the owners

A slot has as many owners as there are zones with a weighted node, up to the replica count, so the
count of `validateChange` protects every slot where the zones reach it. Where they do not, a slot's
owners may all be among the nodes that lose their weight, unless some zone loses none.
-/

namespace Dstore.Cluster

open Ranked (takeFresh exists_taken_not_gone gone_of_taken)
open Placement (Member newSet weighted owners_members ranking_perm ranking_sorted zoneOf standing)

variable {cur target : List Node} {salt : Placement.NodeID → UInt64} {slot : UInt32} {R : ℕ}

/-- The target gives the node no weight. -/
def unweighted (target : List Node) (id : Placement.NodeID) : Bool :=
  !(target.any fun t => t.nid = id ∧ 0 < t.weight)

/-- The nodes that the target leaves out or gives no weight. -/
def dropped (cur target : List Node) : List Node :=
  cur.filter fun n => 0 < n.weight && !(target.any fun t => t.id = n.id ∧ 0 < t.weight)

/-- The zones of the weighted nodes. -/
def zones (cur : List Node) : Finset Bytes :=
  ((cur.filter fun n => 0 < n.weight).map Node.zoneOrID).toFinset

/-- The weighted nodes stand in `R` zones or more, or no node is dropped, or there is a zone with a
weighted node from which none is dropped. -/
def Spares (cur target : List Node) (R : ℕ) : Prop :=
  R ≤ (zones cur).card ∨ dropped cur target = [] ∨
    ∃ n ∈ cur, 0 < n.weight ∧ ∀ d ∈ dropped cur target, d.zoneOrID ≠ n.zoneOrID

instance (cur target : List Node) (R : ℕ) : Decidable (Spares cur target R) :=
  inferInstanceAs (Decidable (_ ∨ _ ∨ _))

theorem Node.Fits.weight_ne_zero {n : Node} (hn : n.Fits) :
    UInt32.ofNat n.weight ≠ 0 ↔ 0 < n.weight := by
  rw [ne_eq, ← UInt32.toNat_inj, UInt32.toNat_ofNat', Nat.mod_eq_of_lt hn.weight]
  exact Nat.pos_iff_ne_zero.symm

theorem validateChange_ok (hR : 1 ≤ R) :
    validateChange cur target R = .ok () ↔ (dropped cur target).length < R := by
  unfold validateChange dropped
  dsimp only
  split_ifs with h
  · exact iff_of_false nofun (not_lt.2 h.1)
  · exact iff_of_true rfl (by omega)

section table

variable (hids : (cur.map Node.id).Nodup) (hfits : ∀ n ∈ cur, n.Fits)

/-- The member that a node becomes. -/
def entry (n : Node) : Member := ⟨n.nid, UInt32.ofNat n.weight, n.zoneOrID⟩

theorem members_eq : members cur = cur.map entry := rfl

include hids hfits in
theorem members_nodup : ((members cur).map Member.id).Nodup := by
  rw [members_eq, List.map_map]
  exact List.Nodup.map_on
    (fun m hm n hn h => List.inj_on_of_nodup_map hids hm hn ((hfits m hm).nid_inj (hfits n hn) h))
    (List.Nodup.of_map _ hids)

include hfits in
theorem weighted_perm : (weighted (newSet salt (members cur)) slot).Perm
    ((cur.filter fun n => 0 < n.weight).map entry) := by
  refine ((ranking_perm salt slot).filter _).trans (List.Perm.of_eq ?_)
  rw [members_eq, List.filter_map]
  refine congrArg _ (List.filter_congr fun n hn => ?_)
  exact decide_eq_decide.2 (hfits n hn).weight_ne_zero

theorem Node.zoneOrID_of_empty {n : Node} (h : n.zoneOrID = []) : n.nid.val = [] := by
  unfold Node.zoneOrID at h
  split_ifs at h with hz
  · have he : n.zone.toUTF8 = "".toUTF8 :=
      ByteArray.ext (Array.toList_inj.1 (List.map_eq_nil_iff.1 h))
    exact absurd (String.toByteArray_inj.1 he) hz
  · exact h

theorem zoneOf_entry (n : Node) : zoneOf (entry n) = n.zoneOrID := by
  unfold zoneOf entry
  split_ifs with h
  · exact (Node.zoneOrID_of_empty h).trans h.symm
  · rfl

include hids hfits in
theorem slotOwners_eq : slotOwners salt cur R slot
    = (takeFresh zoneOf R [] (weighted (newSet salt (members cur)) slot)).map Member.id := by
  rw [← owners_members salt (members_nodup hids hfits) slot R, List.map_map]
  rfl

include hfits in
theorem zones_card : ((weighted (newSet salt (members cur)) slot).map zoneOf).toFinset.card
    = (zones cur).card := by
  rw [List.toFinset_eq_of_perm _ _ ((weighted_perm hfits).map zoneOf), List.map_map, zones]
  simp only [Function.comp_def, zoneOf_entry]

include hfits in
theorem mem_weighted {m : Member} : m ∈ weighted (newSet salt (members cur)) slot ↔
    ∃ n ∈ cur, 0 < n.weight ∧ m = entry n := by
  rw [(weighted_perm hfits).mem_iff, List.mem_map]
  simp only [List.mem_filter, decide_eq_true_eq, and_assoc, @eq_comm _ m]

theorem weight_of_mem_weighted {m : Member} {s : Placement.Set} (h : m ∈ weighted s slot) :
    m.weight ≠ 0 :=
  of_decide_eq_true (List.mem_filter.1 h).2

include hids hfits in
/-- A slot has an owner if anything is dropped. -/
theorem slotOwners_ne_nil (hR : 1 ≤ R) (h : dropped cur target ≠ []) :
    slotOwners salt cur R slot ≠ [] := by
  obtain ⟨d, hd⟩ := List.exists_mem_of_ne_nil _ h
  obtain ⟨hd, hw⟩ := List.mem_filter.1 hd
  have hmem : entry d ∈ weighted (newSet salt (members cur)) slot :=
    (mem_weighted hfits).2 ⟨d, hd, of_decide_eq_true (Bool.and_eq_true_iff.1 hw).1, rfl⟩
  rw [slotOwners_eq hids hfits]
  intro hnil
  obtain ⟨x, xs, hx⟩ := List.exists_cons_of_ne_nil (List.ne_nil_of_mem hmem)
  obtain ⟨r, rfl⟩ := Nat.exists_eq_add_of_le' hR
  rw [hx, Ranked.takeFresh_cons, if_neg List.not_mem_nil] at hnil
  cases hnil

variable (htarget : ∀ t ∈ target, t.Fits)

include hfits htarget in
theorem unweighted_nid {n : Node} (hn : n ∈ cur) :
    unweighted target n.nid = !(target.any fun t => t.id = n.id ∧ 0 < t.weight) := by
  unfold unweighted
  rw [Bool.eq_iff_iff]
  simp only [Bool.not_eq_true', List.any_eq_false, decide_eq_true_eq]
  refine forall₂_congr fun t ht => not_congr (and_congr_left fun _ => ?_)
  exact ⟨(htarget t ht).nid_inj (hfits n hn), Node.nid_congr⟩

include hfits htarget in
theorem dropped_eq : dropped cur target
    = (cur.filter fun n => 0 < n.weight).filter fun n => unweighted target n.nid := by
  rw [List.filter_filter]
  refine List.filter_congr fun n hn => ?_
  rw [unweighted_nid hfits htarget hn, Bool.and_comm]

include hfits htarget in
theorem mem_dropped {n : Node} (hn : n ∈ cur) (hw : 0 < n.weight) :
    n ∈ dropped cur target ↔ unweighted target n.nid = true := by
  rw [dropped_eq hfits htarget, List.mem_filter, List.mem_filter]
  simp [hn, hw]

include hfits htarget in
theorem dropped_length : ((weighted (newSet salt (members cur)) slot).filter
    fun m => unweighted target m.id).length = (dropped cur target).length := by
  rw [((weighted_perm hfits).filter _).length_eq, List.filter_map, List.length_map,
    dropped_eq hfits htarget]
  rfl

include hids hfits htarget in
/-- Where fewer are dropped than there are replicas, an owner stays. -/
theorem exists_owner_kept (hfew : (dropped cur target).length < R) (hs : Spares cur target R)
    (howned : slotOwners salt cur R slot ≠ []) :
    ∃ o ∈ slotOwners salt cur R slot, unweighted target o = false := by
  have hkept : R ≤ ((weighted (newSet salt (members cur)) slot).map zoneOf).toFinset.card ∨
      ∃ x ∈ weighted (newSet salt (members cur)) slot,
        ∀ y ∈ weighted (newSet salt (members cur)) slot,
          zoneOf y = zoneOf x → unweighted target y.id = false := by
    have hzone : ∀ n ∈ cur, 0 < n.weight →
        (∀ d ∈ dropped cur target, d.zoneOrID ≠ n.zoneOrID) →
        ∃ x ∈ weighted (newSet salt (members cur)) slot,
          ∀ y ∈ weighted (newSet salt (members cur)) slot,
            zoneOf y = zoneOf x → unweighted target y.id = false := by
      intro n hn hw hsafe
      refine ⟨entry n, (mem_weighted hfits).2 ⟨n, hn, hw, rfl⟩, fun y hy hyn => ?_⟩
      obtain ⟨d, hd, hdw, rfl⟩ := (mem_weighted hfits).1 hy
      rw [zoneOf_entry, zoneOf_entry] at hyn
      rw [← Bool.not_eq_true]
      exact fun hgone => hsafe d ((mem_dropped hfits htarget hd hdw).2 hgone) hyn
    rcases hs with hR | hnone | ⟨n, hn, hw, hsafe⟩
    · exact .inl (by rwa [zones_card hfits])
    · obtain ⟨o, ho⟩ := List.exists_mem_of_ne_nil _ howned
      rw [slotOwners_eq hids hfits] at ho
      obtain ⟨m, hm, -⟩ := List.mem_map.1 ho
      obtain ⟨n, hn, hw, -⟩ := (mem_weighted hfits).1
        ((Ranked.takeFresh_sublist zoneOf R [] _).subset hm)
      exact .inr (hzone n hn hw (by simp [hnone]))
    · exact .inr (hzone n hn hw hsafe)
  have hlen : ((weighted (newSet salt (members cur)) slot).filter
      fun m => unweighted target m.id).length < R := by rwa [dropped_length hfits htarget]
  obtain ⟨m, hm, hm'⟩ := exists_taken_not_gone zoneOf hlen hkept
  rw [slotOwners_eq hids hfits]
  exact ⟨m.id, List.mem_map_of_mem hm, hm'⟩

end table

section draw

/-- A hash with a long race behind it. -/
def winning : UInt64 := 0x89a5850e63c5f8aa

theorem L_winning : Placement.L 0 winning = 0 := by decide +kernel

theorem L_zero : Placement.L 0 0 ≠ 0 := by decide +kernel

/-- The salts under which the dropped nodes win. -/
def draw (target : List Node) (id : Placement.NodeID) : UInt64 :=
  if unweighted target id then winning else 0

/-- Under the draw the dropped come first. -/
theorem draw_first {a b : Member} (ha : a.weight ≠ 0) (hb : b.weight ≠ 0)
    (hla : unweighted target a.id = true) (hlb : unweighted target b.id = false) :
    standing (draw target) 0 a < standing (draw target) 0 b := by
  have hpos : 0 < (Placement.L 0 0).toNat / (b.weight.toNat : ℚ) := by
    refine div_pos ?_ ?_
    · exact_mod_cast Nat.pos_of_ne_zero fun h => L_zero (UInt64.toNat_inj.1 h)
    · exact_mod_cast Placement.weight_pos hb
  have htime : Placement.timeOf (draw target) 0 a < Placement.timeOf (draw target) 0 b := by
    unfold Placement.timeOf Placement.finish draw
    rw [if_pos hla, hlb, if_neg Bool.false_ne_true, L_winning, Prod.Lex.toLex_lt_toLex]
    exact .inl (by simpa using hpos)
  rw [standing, if_neg ha, standing, if_neg hb, Prod.Lex.toLex_lt_toLex]
  exact .inr ⟨rfl, htime⟩

/-- Under the draw every owner is dropped. -/
theorem unweighted_of_draw (hids : (cur.map Node.id).Nodup) (hfits : ∀ n ∈ cur, n.Fits)
    (htarget : ∀ t ∈ target, t.Fits)
    (hlost : ∀ n ∈ cur, 0 < n.weight → ∃ d ∈ dropped cur target, d.zoneOrID = n.zoneOrID)
    {o : Placement.NodeID} (ho : o ∈ slotOwners (draw target) cur R 0) :
    unweighted target o = true := by
  rw [slotOwners_eq hids hfits] at ho
  obtain ⟨m, hm, rfl⟩ := List.mem_map.1 ho
  have hsorted : (weighted (newSet (draw target) (members cur)) 0).Pairwise
      (standing (draw target) 0 · < standing (draw target) 0 ·) :=
    (ranking_sorted _ (members_nodup hids hfits) 0).filter _
  refine gone_of_taken zoneOf (fun m => unweighted target m.id) hsorted ?_ ?_ hm
  · intro x hx
    obtain ⟨n, hn, hw, rfl⟩ := (mem_weighted hfits).1 hx
    obtain ⟨d, hd, hdn⟩ := hlost n hn hw
    have hd' := List.mem_filter.1 hd
    have hdw : 0 < d.weight := of_decide_eq_true (Bool.and_eq_true_iff.1 hd'.2).1
    refine ⟨entry d, (mem_weighted hfits).2 ⟨d, hd'.1, hdw, rfl⟩, ?_, ?_⟩
    · rw [zoneOf_entry, zoneOf_entry, hdn]
    · exact (mem_dropped hfits htarget hd'.1 hdw).1 hd
  · intro x hx y hy hstays hgone
    exact draw_first (weight_of_mem_weighted hy) (weight_of_mem_weighted hx) hgone hstays

end draw

/-- A change that is let through leaves every slot that has an owner one that keeps weight, whatever
the draw, exactly where the weighted nodes stand in as many zones as there are replicas, or some
zone loses none. -/
theorem validateChange_keeps_owner (cur target : List Node) (R : ℕ) (hR : 1 ≤ R)
    (hids : (cur.map Node.id).Nodup) (hfits : ∀ n ∈ cur, n.Fits) (htarget : ∀ t ∈ target, t.Fits)
    (hok : validateChange cur target R = .ok ()) :
    (∀ salt slot, slotOwners salt cur R slot ≠ [] →
      ∃ o ∈ slotOwners salt cur R slot, ∃ t ∈ target, t.nid = o ∧ 0 < t.weight) ↔
    Spares cur target R := by
  have hkept : ∀ o, unweighted target o = false ↔ ∃ t ∈ target, t.nid = o ∧ 0 < t.weight := by
    simp [unweighted]
  simp only [← hkept]
  constructor
  · intro hall
    by_contra hs
    simp only [Spares, not_or, not_exists, not_and, not_forall, not_not] at hs
    obtain ⟨-, hsome, hlost⟩ := hs
    have hlost : ∀ n ∈ cur, 0 < n.weight → ∃ d ∈ dropped cur target, d.zoneOrID = n.zoneOrID :=
      fun n hn hw => by simpa using hlost n hn hw
    obtain ⟨o, ho, hstays⟩ := hall (draw target) 0 (slotOwners_ne_nil hids hfits hR hsome)
    rw [unweighted_of_draw hids hfits htarget hlost ho] at hstays
    cases hstays
  · intro hs salt slot howned
    exact exists_owner_kept hids hfits htarget ((validateChange_ok hR).1 hok) hs howned

def alone : List Node := [{ id := 1, weight := 8 }]

def elsewhere : List Node := [{ id := 2, weight := 8 }]

/-- With two replicas the single node may be replaced at once: it is the only owner. -/
theorem validateChange_drops_only_owner :
    validateChange alone elsewhere 2 = .ok () ∧
    slotOwners (fun _ => 0) alone 2 0 ≠ [] ∧
    ¬ ∃ o ∈ slotOwners (fun _ => 0) alone 2 0, ∃ t ∈ elsewhere, t.nid = o ∧ 0 < t.weight := by
  decide +kernel

/-- Three nodes, one of them lighter. -/
def trio : List Node := [{ id := 1, weight := 8 }, { id := 2, weight := 8 }, { id := 3, weight := 4 }]

/-- One node of three leaves a cluster of two replicas. -/
theorem validateChange_keeps_owner_trio :
    validateChange trio (trio.take 2) 2 = .ok () ∧ Spares trio (trio.take 2) 2 ∧
    slotOwners (fun _ => 0) trio 2 0 ≠ [] ∧
    ∃ o ∈ slotOwners (fun _ => 0) trio 2 0, ∃ t ∈ trio.take 2, t.nid = o ∧ 0 < t.weight := by
  have hok : validateChange trio (trio.take 2) 2 = .ok () := by decide +kernel
  have hspares : Spares trio (trio.take 2) 2 := by decide +kernel
  have howned : slotOwners (fun _ => 0) trio 2 0 ≠ [] := by decide +kernel
  exact ⟨hok, hspares, howned, (validateChange_keeps_owner trio (trio.take 2) 2 (by decide)
    (by decide) (by decide +kernel) (by decide +kernel) hok).2 hspares _ 0 howned⟩

/-- A slot has as many owners as the weighted nodes have zones, up to the replica count, and no two
of one zone. -/
theorem slotOwners_spread (hids : (cur.map Node.id).Nodup) (hfits : ∀ n ∈ cur, n.Fits) :
    ∃ ns : List Node, slotOwners salt cur R slot = ns.map Node.nid ∧
      (∀ n ∈ ns, n ∈ cur ∧ 0 < n.weight) ∧ (ns.map Node.zoneOrID).Nodup ∧
      ns.length = min R (zones cur).card := by
  set l := weighted (newSet salt (members cur)) slot with hl
  have hlen := Ranked.length_takeFresh zoneOf R [] l
  have hzone := Ranked.nodup_takeFresh zoneOf R [] l
  obtain ⟨ns, hns⟩ : takeFresh zoneOf R [] l ∈ Set.range
      (List.map fun n : { n // n ∈ cur ∧ 0 < n.weight } => entry n.1) := by
    rw [Set.range_list_map]
    intro m hm
    obtain ⟨n, hn, hw, rfl⟩ := (mem_weighted hfits).1
      ((Ranked.takeFresh_sublist zoneOf R [] l).subset hm)
    exact ⟨⟨n, hn, hw⟩, rfl⟩
  rw [← hns, List.map_map] at hzone
  rw [← hns, List.length_map, List.toFinset_nil, Finset.sdiff_empty, hl, zones_card hfits] at hlen
  refine ⟨ns.map Subtype.val, ?_, ?_, ?_, by rw [List.length_map, hlen]⟩
  · rw [slotOwners_eq hids hfits, ← hl, ← hns, List.map_map, List.map_map]
    rfl
  · intro n hn
    obtain ⟨x, -, rfl⟩ := List.mem_map.1 hn
    exact x.2
  · simpa [Function.comp_def, zoneOf_entry] using hzone

theorem slotOwners_spread_trio :
    ∃ ns : List Node, slotOwners (fun _ => 0) trio 2 0 = ns.map Node.nid ∧
      (ns.map Node.zoneOrID).Nodup ∧ ns.length = 2 := by
  obtain ⟨ns, h, -, hz, hn⟩ := slotOwners_spread (show (trio.map Node.id).Nodup by decide)
    (by decide +kernel)
  exact ⟨ns, h, hz, hn⟩

end Dstore.Cluster
