import Dstore.Proofs.RefglobMatch
import Dstore.Watch

/-!
# The literal prefix of a glob

The leading literals of a pattern are the start of every name that matches, so a watch whose scan
goes only through the names with that prefix comes to the same as one whose scan goes through all.
-/

namespace Dstore.Refglob

variable {ts : List Token} {name : List Char}

section watch

open Watch (Params RefWatch)

variable {κ ρ : Type} [DecidableEq κ] {P : Params Bytes κ ρ} {pre : Bytes}
  {listing : KV Bytes (Watch.Row ρ)}

/-- The bytes of a name. -/
def nameBytes (name : List Char) : Bytes := (utf8 name).map UInt8.toFin

/-- The part of a listing with this prefix. -/
def bounded (pre : Bytes) (listing : KV Bytes (Watch.Row ρ)) : KV Bytes (Watch.Row ρ) where
  entries := listing.entries.filter fun e => pre.isPrefixOf e.1
  sorted := listing.sorted.filter _

/-- Whatever the pattern matches has the prefix. -/
def Covers (P : Params Bytes κ ρ) (pre : Bytes) (listing : KV Bytes (Watch.Row ρ)) : Prop :=
  ∀ e ∈ listing.entries, P.pat e.1 = true → pre <+: e.1

end watch

def refs : KV Bytes (Watch.Row ℕ) :=
  (KV.empty.set (nameBytes "t/a".toList) ⟨⟨1, 1⟩, 7⟩).set (nameBytes "u".toList) ⟨⟨1, 1⟩, 8⟩

end Dstore.Refglob
