import Dstore.Catalog
import Dstore.Lib.Cursor
import Dstore.Reads

/-!
# Listing references

A listing is a scan of the references' registers, page by page. Pages are cut by every voter, by the
merge at the smallest last row among the voters that have more, by the catalog, which drops rows
without a live value, and by the node. The client and the reconcile of a watch each follow the
cursors. The voters' stores do not change, and any of them may be heard for each page.
-/

namespace Dstore.Listing

/-- The prefix of the references' registers. -/
def prefixRef : Bytes := [114, 101, 102, 47]

/-- A live reference of a page; `undecided` where the voters do not agree. -/
structure RefEntry where
  name : Bytes
  value : RefValue
  undecided : Bool
  deriving DecidableEq, Repr

/-- A reference as a node sends it, with its record decoded. -/
structure RefInfo (ρ : Type) where
  name : Bytes
  record : ρ
  version : Bytes
  deriving DecidableEq, Repr

/-- The decodings, and the length of the user's name in a record. -/
structure Codecs (ρ : Type) where
  refs : Codec RefValue
  decode : Bytes → Option ρ
  userLen : ρ → ℕ

variable {ρ : Type} (C : Codecs ρ)

/-- The reference a merged row holds, if it is there. -/
def liveRef (row : Row) : Option RefValue :=
  if row.hasValue then (C.refs.dec row.value).filter fun rv => !rv.isTombstone else none

/-- The entry of a merged row. -/
def entry (r : MergedRow) : Option RefEntry :=
  (liveRef C r.row).map fun rv => ⟨r.reg.drop prefixRef.length, rv, r.undecided⟩

/-- The answers of the voters that are heard. -/
def ask (v : View) (stores : NodeID → Acceptor) (heard : List NodeID) (pre after : Bytes)
    (limit : ℤ) : List (Option Answer) :=
  heard.map fun id => some ⟨v.incarnation, v.epoch, (stores id).scan pre after limit⟩

/-- `Catalog.RefList`: the live entries of a page, and the name to go on from. -/
def refList (v : View) (stores : NodeID → Acceptor) (heard : List NodeID) (pre after : Bytes)
    (limit : ℤ) : Option (List RefEntry × Bytes) :=
  let afterReg := if after = [] then [] else refReg after
  match scan v (ask v stores heard (prefixRef ++ pre) afterReg limit) with
  | .page rows next =>
    some (rows.filterMap (entry C), (next.map (List.drop prefixRef.length)).getD [])
  | _ => none

/-- The loop of `handleRefList` over the entries: what is sent, and the name to go on from. -/
def reply : List RefEntry → ℕ → Bytes → List (RefInfo ρ) × Bytes
  | [], _, next => ([], next)
  | e :: es, size, next =>
    match C.decode e.value.record with
    | none => reply es size next
    | some r =>
      let size := size + e.name.length + 32 + 40 + C.userLen r + 16
      if maxPageBytes < size then ([⟨e.name, r, e.value.version⟩], e.name)
      else
        let rest := reply es size next
        (⟨e.name, r, e.value.version⟩ :: rest.1, rest.2)

/-- A cursor as the source writes it: the empty name ends the listing. -/
def cursor (next : Bytes) : Option Bytes := if next = [] then none else some next

section loops

variable (v : View) (stores : NodeID → Acceptor) (heard : ℕ → List NodeID) (pre : Bytes)
  (limit : ℤ)

/-- A page as a node sends it. -/
def nodePage (i : ℕ) (after : Option Bytes) : Option (List (RefInfo ρ) × Option Bytes) :=
  (refList C v stores (heard i) pre (after.getD []) limit).map fun p =>
    let r := reply C p.1 0 p.2
    (r.1, cursor r.2)

/-- A page as the reconcile of a watch asks for it: the names and values it looks at. -/
def catalogPage (i : ℕ) (after : Option Bytes) :
    Option (List (Bytes × RefValue) × Option Bytes) :=
  (refList C v stores (heard i) pre (after.getD []) limit).map fun p =>
    (p.1.map fun e => (e.name, e.value), cursor p.2)

/-- A page of `Scan`, as the loops of `syncRegisters`, `dailyPass` and `RefsSnapshot` ask for it. -/
def mergedPage (i : ℕ) (after : Option Bytes) : Option (List MergedRow × Option Bytes) :=
  match scan v (ask v stores (heard i) pre (after.getD []) limit) with
  | .page rows next => some (rows, next)
  | _ => none

/-- The pages of a scan, to its end. -/
def mergedPages (fuel : ℕ) : Option (List (List MergedRow × Option Bytes)) :=
  Cursor.pages (mergedPage v stores heard pre limit) fuel 0 none

/-- `Client.RefList`: the pages a client puts together. -/
def clientRefList (fuel : ℕ) : Option (List (RefInfo ρ)) :=
  Cursor.follow (nodePage C v stores heard pre limit) fuel 0 none

/-- The pages the reconcile of a watch puts together. -/
def reconcileRefList (fuel : ℕ) : Option (List (Bytes × RefValue)) :=
  Cursor.follow (catalogPage C v stores heard pre limit) fuel 0 none

end loops

end Dstore.Listing
