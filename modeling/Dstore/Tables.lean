import Dstore.Cluster
import Dstore.Placement

/-!
# The placement table of a node list

A view lists its nodes by id, weight and zone; the placement ranks members. A node whose zone is
empty counts for a zone of its own. The view carries ids and weights as numbers; `Node.Fits` says
that they are ones the source's fields can hold.
-/

namespace Dstore.Cluster

/-- The id is one of 32 bytes and the weight one of 32 bits. -/
structure Node.Fits (n : Node) : Prop where
  id : n.id < 256 ^ 32
  weight : n.weight < 2 ^ 32

instance (n : Node) : Decidable n.Fits :=
  decidable_of_iff (n.id < 256 ^ 32 ∧ n.weight < 2 ^ 32) ⟨fun h => ⟨h.1, h.2⟩, fun h => ⟨h.1, h.2⟩⟩

/-- The node's id as the placement's 32 bytes. -/
def Node.nid (n : Node) : Placement.NodeID := ⟨beBytes 32 n.id, length_beBytes 32 n.id⟩

theorem Node.nid_val (n : Node) : n.nid.val = beBytes 32 n.id := by
  unfold Node.nid
  rfl

theorem Node.nid_congr {m n : Node} (h : m.id = n.id) : m.nid = n.nid :=
  Subtype.ext (by rw [Node.nid_val, Node.nid_val, h])

/-- Ids that fit are told apart by their bytes. -/
theorem Node.Fits.nid_inj {m n : Node} (hm : m.Fits) (hn : n.Fits) (h : m.nid = n.nid) :
    m.id = n.id := by
  have hval := congrArg Subtype.val h
  rw [Node.nid_val, Node.nid_val] at hval
  exact Placement.beBytes_inj (n := 32) hm.id hn.id hval

/-- The zone a node counts for. -/
def Node.zoneOrID (n : Node) : Bytes :=
  if n.zone ≠ "" then n.zone.toUTF8.data.toList.map UInt8.toFin else n.nid.val

/-- The placement's members for a node list. -/
def members (nodes : List Node) : List Placement.Member :=
  nodes.map fun n => ⟨n.nid, UInt32.ofNat n.weight, n.zoneOrID⟩

/-- The owners of a slot under a node list. -/
def slotOwners (salt : Placement.NodeID → UInt64) (nodes : List Node) (replicas : ℕ)
    (slot : UInt32) : List Placement.NodeID :=
  let set := Placement.newSet salt (members nodes)
  set.ids (set.owners slot replicas)

end Dstore.Cluster
