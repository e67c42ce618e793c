import Dstore.Proposer

/-!
# What one answer does to an acceptor

`Served` lists what `handle` may do: refuse, promise, accept, report, or carry out a maintenance
message. Every later argument about acceptors is a case analysis of it.
-/

namespace Dstore

/-- The row as a reply shows it. -/
def AcceptorRow.toRow (r : AcceptorRow) : Row := ⟨r.accepted, r.value, r.hasValue⟩

namespace Acceptor

variable {a a' : Acceptor} {m : Msg} {now : ℤ} {ans : Answer} {reg reg' : Bytes} {b : Ballot}

/-- The message is for the installed view's epoch. -/
def AtEpoch (a : Acceptor) (m : Msg) : Prop :=
  ∃ v, a.installed = some v ∧ v.incarnation = m.incarnation ∧ v.epoch = m.epoch

/-- The acceptor with one row written. -/
def writeRow (a : Acceptor) (reg : Bytes) (r : AcceptorRow) : Acceptor :=
  { a with rows := a.rows.set reg r }

@[simp] theorem row_writeRow (a : Acceptor) (reg : Bytes) (r : AcceptorRow) :
    (a.writeRow reg r).row reg = r := by
  simp [row, writeRow]

theorem row_writeRow_of_ne (a : Acceptor) (r : AcceptorRow) (h : reg' ≠ reg) :
    (a.writeRow reg r).row reg' = a.row reg' := by
  simp [row, writeRow, KV.get_set_of_ne _ _ h]

@[simp] theorem promisedOn_writeRow (a : Acceptor) (reg : Bytes) (r : AcceptorRow) :
    (a.writeRow reg r).promisedOn reg = r.promised := by
  simp [promisedOn, writeRow]

theorem promisedOn_writeRow_of_ne (a : Acceptor) (r : AcceptorRow) (h : reg' ≠ reg) :
    (a.writeRow reg r).promisedOn reg' = a.promisedOn reg' := by
  simp [promisedOn, writeRow, KV.get_set_of_ne _ _ h]

/-- What `handle` may do with a message, and the reply it gives. -/
inductive Served (a : Acceptor) (m : Msg) : Acceptor → Reply → Prop
  | refused (code : Code) (text : String) (v : Option View) : Served a m a (.err code text v)
  | conflict (b : Ballot) : Served a m a (.conflict b)
  | promised {reg : Bytes} {b : Ballot} (hm : m.req = .prepare reg b) (he : a.AtEpoch m)
      (hf : a.refuseIfForgetful = none) (hlt : a.promisedOn reg < b) :
      Served a m (a.writeRow reg { a.row reg with promised := b })
        (.promise (a.row reg).accepted (a.row reg).value (a.row reg).hasValue)
  | accepted {reg : Bytes} {b : Ballot} {value : Bytes} {hasValue : Bool} {notAfter : ℤ}
      (hm : m.req = .accept reg b value hasValue notAfter) (he : a.AtEpoch m) (hb : b ≠ ⊥)
      (hp : a.promisedOn reg ≤ b) (ha : (a.row reg).accepted ≤ b) :
      Served a m (a.writeRow reg ⟨b, b, value, hasValue⟩) .accepted
  | read {reg : Bytes} (hm : m.req = .read reg) (he : a.AtEpoch m)
      (hf : a.refuseIfForgetful = none) :
      Served a m a (.readReply (a.row reg).accepted (a.row reg).promised (a.row reg).value
        (a.row reg).hasValue)
  | scanned {pre after : Bytes} {limit : ℤ} (hm : m.req = .scan pre after limit)
      (he : a.AtEpoch m) (hf : a.refuseIfForgetful = none) : Served a m a (a.scan pre after limit)
  | installed {v : View} (hm : m.req = .install v) : Served a m (a.install v) .installed
  | marked {since : ℕ} (hm : m.req = .marker since) : Served a m (a.setMarker since) .ok
  | seeded {rows : List ScanRow} (hm : m.req = .seed rows) : Served a m (a.seed rows).1 .ok
  | purged {reg : Bytes} {b : Ballot} (hm : m.req = .purge reg b) :
      Served a m (a.purge reg b).1 (a.purge reg b).2

theorem prepare_served (hm : m.req = .prepare reg b) (he : a.AtEpoch m) :
    Served a m (a.prepare reg b).1 (a.prepare reg b).2 := by
  unfold prepare
  split
  · rename_i r hr
    unfold refuseIfForgetful at hr
    split_ifs at hr <;> cases hr <;> exact .refused _ _ _
  · rename_i hf
    split_ifs with hb hle
    · exact .refused _ _ _
    · exact .conflict _
    · exact .promised hm he hf (not_le.1 hle)

theorem accept_served {value : Bytes} {hasValue : Bool} {notAfter : ℤ}
    (hm : m.req = .accept reg b value hasValue notAfter) (he : a.AtEpoch m) :
    Served a m (a.accept now reg b value hasValue notAfter).1
      (a.accept now reg b value hasValue notAfter).2 := by
  unfold accept
  split_ifs with h1 h2 h3 h4 h5
  · exact .refused _ _ _
  · exact .refused _ _ _
  · exact .refused _ _ _
  · exact .conflict _
  · exact .conflict _
  · exact .accepted hm he (by simpa using h2) (not_lt.1 h4) (not_lt.1 h5)

theorem read_served (hm : m.req = .read reg) (he : a.AtEpoch m) : Served a m a (a.read reg) := by
  unfold read
  split
  · rename_i r hr
    unfold refuseIfForgetful at hr
    split_ifs at hr <;> cases hr <;> exact .refused _ _ _
  · exact .read hm he ‹_›

theorem scan_served {pre after : Bytes} {limit : ℤ} (hm : m.req = .scan pre after limit)
    (he : a.AtEpoch m) : Served a m a (a.scan pre after limit) := by
  rcases hf : a.refuseIfForgetful with _ | r
  · exact .scanned hm he hf
  · rw [scan, hf]
    unfold refuseIfForgetful at hf
    split_ifs at hf <;> cases hf <;> exact .refused _ _ _

theorem serve_served (he : a.AtEpoch m) :
    Served a m (a.serve now m.req).1 (a.serve now m.req).2 := by
  rcases hm : m.req with ⟨reg, b⟩ | ⟨reg, b, value, hasValue, notAfter⟩ | reg |
    ⟨pre, after, limit⟩ | v | since | rows | ⟨reg, b⟩
  · exact prepare_served hm he
  · exact accept_served hm he
  · exact read_served hm he
  · exact scan_served hm he
  all_goals exact .refused _ _ _

/-- Whatever the gate lets through is served. -/
theorem gate_served (a : Acceptor) (now : ℤ) (m : Msg) :
    Served a m (a.gate now m).1 (a.gate now m).2 := by
  unfold gate
  split
  · exact .refused _ _ _
  · rename_i inst hi
    split
    · exact .refused _ _ _
    · exact .refused _ _ _
    · exact serve_served ⟨inst, hi, View.compare_eq.1 ‹_›⟩

theorem dispatch_served (a : Acceptor) (now : ℤ) (m : Msg) :
    Served a m (a.dispatch now m).1 (a.dispatch now m).2 := by
  unfold dispatch
  split
  · exact .installed ‹_›
  · exact .marked ‹_›
  · exact .seeded ‹_›
  · exact .purged ‹_›
  · exact gate_served a now m

/-- A purge does nothing, deletes the row, or leaves its promise. -/
theorem purge_cases (a : Acceptor) (reg : Bytes) (b : Ballot) :
    (a.purge reg b).1 = a ∨ b ≠ ⊥ ∧ (a.row reg).accepted = b ∧
      (a.promisedOn reg = b ∧
          (a.purge reg b).1 = { a with rows := a.rows.delete reg, floor := max a.floor b } ∨
        (a.purge reg b).1 = a.writeRow reg { promised := a.promisedOn reg }) := by
  unfold purge
  split_ifs with hb
  · exact .inl rfl
  · rcases hr : a.rows.get reg with _ | r
    · exact .inl rfl
    · have hrow : a.row reg = r := by simp [row, hr]
      have hprom : a.promisedOn reg = r.promised := by simp [promisedOn, hr]
      simp only
      split_ifs with h1 h2
      · exact .inl rfl
      · exact .inr ⟨by simpa using hb, by rw [hrow]; simpa using h1, .inl ⟨hprom ▸ h2, rfl⟩⟩
      · exact .inr ⟨by simpa using hb, by rw [hrow]; simpa using h1, .inr (by rw [hprom]; rfl)⟩

theorem purge_reply (a : Acceptor) (reg : Bytes) (b : Ballot) :
    (a.purge reg b).2 = .ok ∨ ∃ code text v, (a.purge reg b).2 = .err code text v := by
  unfold purge
  split_ifs
  · exact .inr ⟨_, _, _, rfl⟩
  · split
    · exact .inl rfl
    · split_ifs <;> exact .inl rfl

/-- A page has rows of the store. -/
theorem mem_page {limit : ℕ} {sr : ScanRow} :
    ∀ {es : List (Bytes × AcceptorRow)} {n size : ℕ}, sr ∈ (page limit es n size).1 →
      ∃ r, (sr.reg, r) ∈ es ∧ sr = ⟨sr.reg, r.promised, r.accepted, r.value, r.hasValue⟩
  | [], _, _, h => by simp [page] at h
  | (reg, r) :: es, n, size, h => by
    rw [page] at h
    split_ifs at h
    · simp at h
    · rcases List.mem_cons.1 h with rfl | h
      · exact ⟨r, by simp, rfl⟩
      · obtain ⟨r', hr', he⟩ := mem_page h
        exact ⟨r', by simp [hr'], he⟩

theorem page_sublist {limit : ℕ} : ∀ (es : List (Bytes × AcceptorRow)) (n size : ℕ),
    ((page limit es n size).1.map ScanRow.reg).Sublist (es.map Prod.fst)
  | [], _, _ => by simp [page]
  | (reg, r) :: es, n, size => by
    rw [page]
    split_ifs
    · simp
    · exact (page_sublist es _ _).cons_cons reg

theorem scan_nodup {pre after next : Bytes} {limit : ℤ} {rows : List ScanRow} {more : Bool}
    (h : a.scan pre after limit = .scanReply rows more next) : (rows.map ScanRow.reg).Nodup := by
  unfold scan at h
  split at h
  · rename_i r hr
    unfold refuseIfForgetful at hr
    split_ifs at hr <;> cases hr <;> cases h
  · cases h
    refine (a.rows.nodup_keys.sublist ?_).sublist (page_sublist _ _ _)
    exact List.filter_sublist.map _

theorem scan_reply (pre after : Bytes) (limit : ℤ) (hf : a.refuseIfForgetful = none) :
    ∃ rows more next, a.scan pre after limit = .scanReply rows more next ∧
      ∀ sr ∈ rows, (a.row sr.reg).promised = sr.promised ∧ a.row sr.reg =
        ⟨sr.promised, sr.accepted, sr.value, sr.hasValue⟩ := by
  rw [scan, hf]
  refine ⟨_, _, _, rfl, fun sr hsr => ?_⟩
  obtain ⟨r, hr, he⟩ := mem_page hsr
  have hget := (KV.mem_scan.1 hr).1
  rw [he]
  simp [row, hget]

/-- What a row adds to a page. -/
def rowSize (e : Bytes × AcceptorRow) : ℕ := e.1.length + e.2.value.length + 2 * ballotSize

/-- The page is the first rows: as many as it takes to fill it, or all of them. -/
theorem page_eq_take (limit : ℕ) : ∀ (es : List (Bytes × AcceptorRow)) (n size : ℕ),
    ∃ k, (page limit es n size).1 =
        (es.take k).map (fun e => ⟨e.1, e.2.promised, e.2.accepted, e.2.value, e.2.hasValue⟩) ∧
      ((page limit es n size).2 = true ↔ k < es.length) ∧ k + n ≤ max limit n ∧
      (n < limit → size < maxPageBytes → es ≠ [] → 0 < k) ∧
      (∀ m < k, n + m < limit ∧ size + ((es.take m).map rowSize).sum < maxPageBytes) ∧
      (k < es.length → limit ≤ n + k ∨ maxPageBytes ≤ size + ((es.take k).map rowSize).sum)
  | [], _, _ => ⟨0, by simp [page]⟩
  | (reg, r) :: es, n, size => by
    rw [page]
    split_ifs with hcut
    · refine ⟨0, by simp, by simp, by simp, fun hn hs _ => ?_, by simp, by simpa using hcut⟩
      omega
    · push Not at hcut
      obtain ⟨k, hrows, hmore, hle, -, hbelow, hfull⟩ := page_eq_take limit es (n + 1)
        (size + reg.length + r.value.length + 2 * ballotSize)
      refine ⟨k + 1, by simp [hrows], by simp [hmore], by omega, fun _ _ _ => by omega,
        fun m hm => ?_, fun hk => ?_⟩
      · cases m with
        | zero => simpa using hcut
        | succ m =>
          have := hbelow m (by omega)
          simp only [List.take_succ_cons, List.map_cons, List.sum_cons, rowSize] at this ⊢
          omega
      · have := hfull (by simpa using hk)
        simp only [List.take_succ_cons, List.map_cons, List.sum_cons, rowSize] at this ⊢
        omega

/-- The last register of a page. -/
def lastReg (rows : List ScanRow) : Bytes := (rows.getLast?.map ScanRow.reg).getD []

/-- A page has all rows up to its last one. -/
theorem page_covers {limit : ℕ} (hpos : 0 < limit) {es : List (Bytes × AcceptorRow)}
    (hsorted : es.Pairwise fun x y => x.1 < y.1) :
    (∀ e ∈ es, ((page limit es 0 0).2 = true → e.1 ≤ lastReg (page limit es 0 0).1) →
        ⟨e.1, e.2.promised, e.2.accepted, e.2.value, e.2.hasValue⟩ ∈ (page limit es 0 0).1) ∧
      ((page limit es 0 0).2 = true →
        lastReg (page limit es 0 0).1 ∈ (page limit es 0 0).1.map ScanRow.reg) := by
  obtain ⟨k, hrows, hmore, -, hk, -⟩ := page_eq_take limit es 0 0
  have hlast : k < es.length → ∃ l ∈ es.take k, lastReg (page limit es 0 0).1 = l.1 := by
    intro hlt
    have hk : 0 < k := hk hpos (by decide) (List.ne_nil_of_length_pos (by omega))
    have hne : es.take k ≠ [] := List.ne_nil_of_length_pos (by rw [List.length_take]; omega)
    refine ⟨(es.take k).getLast hne, List.getLast_mem hne, ?_⟩
    rw [lastReg, hrows, List.getLast?_map, List.getLast?_eq_some_getLast hne]
    rfl
  refine ⟨fun e he hle => ?_, fun hm => ?_⟩
  · rw [← List.take_append_drop k es] at he
    rcases List.mem_append.1 he with he | he
    · rw [hrows]
      exact List.mem_map.2 ⟨e, he, rfl⟩
    · -- a row behind the page is behind the page's last
      have hlt : k < es.length := by
        by_contra hge
        simp [List.drop_eq_nil_of_le (not_lt.1 hge)] at he
      obtain ⟨l, hl, hlast⟩ := hlast hlt
      rw [← List.take_append_drop k es, List.pairwise_append] at hsorted
      exact absurd (hlast ▸ hle (hmore.2 hlt)) (hsorted.2.2 l hl e he).not_ge
  · obtain ⟨l, hl, hlast⟩ := hlast (hmore.1 hm)
    rw [hlast, hrows]
    exact List.mem_map.2 ⟨_, List.mem_map.2 ⟨l, hl, rfl⟩, rfl⟩

/-- Where a scan begins. -/
def lower (pre after : Bytes) : Bytes := if after = [] then pre else after ++ [0]

/-- Where a scan ends. -/
def upper (pre : Bytes) : Bytes := if pre = [] then [255] else pre ++ [255, 255, 255, 255]

/-- How many rows a page may have. -/
def rowLimit (limit : ℤ) : ℕ := if limit ≤ 0 ∨ 100000 < limit then 100000 else limit.toNat

theorem rowLimit_pos (limit : ℤ) : 0 < rowLimit limit := by
  unfold rowLimit
  split_ifs <;> omega

/-- The page of a scan. -/
def scanPage (a : Acceptor) (pre after : Bytes) (limit : ℤ) : List ScanRow × Bool :=
  page (rowLimit limit) (a.rows.scan (lower pre after) (upper pre)) 0 0

theorem scan_eq (pre after : Bytes) (limit : ℤ) (hf : a.refuseIfForgetful = none) :
    a.scan pre after limit = .scanReply (a.scanPage pre after limit).1
      (a.scanPage pre after limit).2 (lastReg (a.scanPage pre after limit).1) := by
  rw [scan, hf]
  rfl

/-- A page is the store, cut at its last register. -/
theorem scanPage_covers (a : Acceptor) (pre after : Bytes) (limit : ℤ) :
    (∀ sr ∈ (a.scanPage pre after limit).1, ∃ r, a.rows.get sr.reg = some r ∧
        lower pre after ≤ sr.reg ∧ sr.reg < upper pre ∧
        sr = ⟨sr.reg, r.promised, r.accepted, r.value, r.hasValue⟩) ∧
      (∀ reg r, a.rows.get reg = some r → lower pre after ≤ reg → reg < upper pre →
        ((a.scanPage pre after limit).2 = true →
          reg ≤ lastReg (a.scanPage pre after limit).1) →
        ⟨reg, r.promised, r.accepted, r.value, r.hasValue⟩ ∈ (a.scanPage pre after limit).1) ∧
      ((a.scanPage pre after limit).2 = true → lastReg (a.scanPage pre after limit).1 ∈
        (a.scanPage pre after limit).1.map ScanRow.reg) := by
  have hsorted : (a.rows.scan (lower pre after) (upper pre)).Pairwise fun x y => x.1 < y.1 :=
    a.rows.sorted.filter _
  obtain ⟨hall, hlast⟩ := page_covers (rowLimit_pos limit) hsorted
  refine ⟨fun sr hsr => ?_, fun reg r hget hlo hup hle => ?_, hlast⟩
  · obtain ⟨r, hr, hsr⟩ := mem_page hsr
    obtain ⟨hget, hlo, hup⟩ := KV.mem_scan.1 hr
    exact ⟨r, hget, hlo, hup, hsr⟩
  · exact hall (reg, r) (KV.mem_scan.2 ⟨hget, hlo, hup⟩) hle

theorem scanPage_nodup (a : Acceptor) (pre after : Bytes) (limit : ℤ) :
    ((a.scanPage pre after limit).1.map ScanRow.reg).Nodup :=
  (a.rows.nodup_keys.sublist (List.filter_sublist.map _)).sublist (page_sublist _ _ _)

theorem install_of_isVoter {v : View} (h : v.isVoter a.self) :
    (a.install v).rows = a.rows ∧ (a.install v).floor = a.floor ∧
      (a.install v).retired = a.retired := by
  unfold install
  simp only [h, Bool.not_true, Bool.false_and, Bool.false_eq_true, if_false]
  split_ifs <;> exact ⟨rfl, rfl, rfl⟩

theorem install_fields (a : Acceptor) (v : View) :
    (a.install v).self = a.self ∧ (a.install v).marker = a.marker ∧
      ((a.install v).installed = a.installed ∨ (a.install v).installed = some v) := by
  unfold install
  simp only
  split_ifs <;> simp

theorem refuse_of_marker_none {v : View} (hi : a.installed = some v) (hv : v.isVoter a.self)
    (hm : a.marker = none) : a.refuseIfForgetful ≠ none := by
  obtain ⟨vo, hvo, hid⟩ := List.any_eq_true.1 hv
  have hfind : (v.voters.find? fun vo => vo.id = a.self) ≠ none := fun hn =>
    List.find?_eq_none.1 hn vo hvo hid
  obtain ⟨vo', hvo'⟩ := Option.ne_none_iff_exists'.1 hfind
  have ham : a.amnesiac = true := by simp [amnesiac, hi, hvo', hm]
  unfold refuseIfForgetful
  split_ifs <;> simp

theorem handle_served (h : a.handle now m = (a', ans)) : Served a m a' ans.reply := by
  cases h
  exact dispatch_served a now m

end Acceptor

end Dstore
