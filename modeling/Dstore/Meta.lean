import Dstore.Acceptor
import Dstore.Lib.Cursor

/-!
# Prefix ranges

A node's metadata database is scanned for the keys with a prefix, and so are an acceptor's rows,
page by page. Both end the range at the prefix with four bytes `0xff` appended.
-/

namespace Dstore

namespace Meta

/-- The node's metadata database. -/
abbrev DB := KV Bytes Bytes

variable {σ ν : Type}

/-- The callback on one entry after the other, until it says to stop. -/
def walk (fn : σ → Bytes → ν → σ × Bool) : List (Bytes × ν) → σ → σ
  | [], s => s
  | e :: es, s => if (fn s e.1 e.2).2 then walk fn es (fn s e.1 e.2).1 else (fn s e.1 e.2).1

/-- `DB.Scan`, over keys whose values are already decoded where `ν` is not `Bytes`. -/
def scan (d : KV Bytes ν) (pre : Bytes) (fn : σ → Bytes → ν → σ × Bool) (s : σ) : σ :=
  walk fn (d.scan pre (pre ++ [255, 255, 255, 255])) s

/-- How many keys have the prefix. -/
def count (d : DB) (pre : Bytes) : ℕ := scan d pre (fun n _ _ => (n + 1, true)) 0

/-- The prefix of the pins. -/
def mkPin : Bytes := [112, 105, 110, 47]

/-- The eight bytes of a key that its pin is kept under; keys that share them share a pin. -/
def tailOf (k : Bytes) : Bytes := (k.drop 24).take 8

/-- Pins keys with a count. -/
def pinKeys (d : DB) (counter : ℕ) (keys : List Bytes) : DB :=
  keys.foldl (fun d k => d.set (mkPin ++ tailOf k) (beBytes 8 counter)) d

end Meta

/-- The prefix of the join tokens' registers. -/
def prefixJoin : Bytes := [106, 111, 105, 110, 47]

/-- The register of a join token. -/
def tokenReg (id : Bytes) : Bytes := prefixJoin ++ id

namespace Acceptor

/-- One page of a scan of the acceptor's rows. -/
def fetch (a : Acceptor) (pre : Bytes) (limit : ℕ → ℤ) (i : ℕ) (after : Option Bytes) :
    Option (List ScanRow × Option Bytes) :=
  match a.scan pre (after.getD []) (limit i) with
  | .scanReply rows more next => some (rows, if more then some next else none)
  | _ => none

/-- The registers of all pages, with `fuel` pages at most. -/
def scanAll (a : Acceptor) (pre : Bytes) (limit : ℕ → ℤ) (fuel : ℕ) : Option (List Bytes) :=
  (Cursor.pages (a.fetch pre limit) fuel 0 none).map fun ps =>
    (ps.flatMap Prod.fst).map ScanRow.reg

end Acceptor

end Dstore
