import Dstore.Lib.Byte

/-!
# Sorted key-value stores

A store is a list of entries whose keys increase, which is what a sorted database is to its readers.
-/

/-- A map with its entries in the order of their keys. -/
structure KV (κ ν : Type*) [LinearOrder κ] where
  entries : List (κ × ν)
  sorted : entries.Pairwise fun a b => a.1 < b.1

namespace KV

variable {κ ν : Type*} [LinearOrder κ]

def empty : KV κ ν := ⟨[], .nil⟩

/-- The value of a key. -/
def get (m : KV κ ν) (k : κ) : Option ν :=
  (m.entries.find? fun e => e.1 = k).map Prod.snd

def set (m : KV κ ν) (k : κ) (v : ν) : KV κ ν where
  entries := (m.entries.filter fun e => e.1 < k) ++ (k, v) :: m.entries.filter fun e => k < e.1
  sorted := by
    simp only [List.pairwise_append, List.pairwise_cons, List.mem_filter, List.mem_cons,
      decide_eq_true_eq]
    refine ⟨m.sorted.filter _, ⟨fun e he => he.2, m.sorted.filter _⟩, fun a ha b hb => ?_⟩
    rcases hb with rfl | hb
    · exact ha.2
    · exact ha.2.trans hb.2

def delete (m : KV κ ν) (k : κ) : KV κ ν where
  entries := m.entries.filter fun e => e.1 ≠ k
  sorted := m.sorted.filter _

/-- The entries from `lo` on and before `hi`. -/
def scan (m : KV κ ν) (lo hi : κ) : List (κ × ν) :=
  m.entries.filter fun e => lo ≤ e.1 ∧ e.1 < hi

theorem nodup_keys (m : KV κ ν) : (m.entries.map Prod.fst).Nodup := by
  rw [List.Nodup, List.pairwise_map]
  exact m.sorted.imp fun h => h.ne

theorem get_eq_some {m : KV κ ν} {k : κ} {v : ν} : m.get k = some v ↔ (k, v) ∈ m.entries := by
  unfold get
  constructor
  · intro h
    obtain ⟨e, he, rfl⟩ := Option.map_eq_some_iff.1 h
    have hk := List.find?_some he
    simp only [decide_eq_true_eq] at hk
    exact hk ▸ List.mem_of_find?_eq_some he
  · intro h
    rcases he : m.entries.find? fun e => e.1 = k with _ | e
    · have := List.find?_eq_none.1 he _ h
      simp at this
    · have hk := List.find?_some he
      simp only [decide_eq_true_eq] at hk
      have hev := List.inj_on_of_nodup_map m.nodup_keys (List.mem_of_find?_eq_some he) h hk
      rw [he, hev]
      rfl

@[simp] theorem get_empty (k : κ) : (empty : KV κ ν).get k = none := rfl

/-- What a write is seen to do. -/
theorem get_set (m : KV κ ν) (k j : κ) (v : ν) :
    (m.set k v).get j = if j = k then some v else m.get j := by
  ext w
  rw [get_eq_some]
  simp only [set, List.mem_append, List.mem_filter, List.mem_cons, Prod.mk.injEq,
    decide_eq_true_eq]
  split_ifs with h
  · subst h
    simp [eq_comm]
  · rw [get_eq_some]
    rcases lt_or_gt_of_ne h with h' | h' <;> simp [h, h', h'.not_gt]

@[simp] theorem get_set_self (m : KV κ ν) (k : κ) (v : ν) : (m.set k v).get k = some v := by
  rw [get_set, if_pos rfl]

theorem get_set_of_ne (m : KV κ ν) {k j : κ} (v : ν) (h : j ≠ k) :
    (m.set k v).get j = m.get j := by
  rw [get_set, if_neg h]

/-- What a deletion is seen to do. -/
theorem get_delete (m : KV κ ν) (k j : κ) :
    (m.delete k).get j = if j = k then none else m.get j := by
  ext w
  rw [get_eq_some]
  simp only [delete, List.mem_filter, decide_eq_true_eq]
  split_ifs with h
  · simp [h]
  · simp [h, get_eq_some]

@[simp] theorem get_delete_self (m : KV κ ν) (k : κ) : (m.delete k).get k = none := by
  rw [get_delete, if_pos rfl]

theorem get_delete_of_ne (m : KV κ ν) {k j : κ} (h : j ≠ k) :
    (m.delete k).get j = m.get j := by
  rw [get_delete, if_neg h]

/-- Many writes of one value. -/
theorem get_foldl_set {α : Type*} (f : α → κ) (v : ν) (j : κ) : ∀ (l : List α) (m : KV κ ν),
    (l.foldl (fun m a => m.set (f a) v) m).get j = if j ∈ l.map f then some v else m.get j
  | [], m => by simp
  | a :: l, m => by
    rw [List.foldl_cons, get_foldl_set f v j l, get_set]
    simp only [List.map_cons, List.mem_cons]
    split_ifs <;> first | rfl | tauto

theorem get_foldl_delete (j : κ) : ∀ (l : List κ) (m : KV κ ν),
    (l.foldl delete m).get j = if j ∈ l then none else m.get j
  | [], m => by simp
  | k :: l, m => by
    rw [List.foldl_cons, get_foldl_delete j l, get_delete]
    simp only [List.mem_cons]
    split_ifs <;> simp_all

theorem mem_scan {m : KV κ ν} {lo hi : κ} {e : κ × ν} :
    e ∈ m.scan lo hi ↔ m.get e.1 = some e.2 ∧ lo ≤ e.1 ∧ e.1 < hi := by
  simp [scan, get_eq_some]

end KV
