/-
  The report of the monitor (report.c): a buffer with a limit on what is put
  into it.

  * `addReportItem`: `none` if it read or wrote outside of `buf`;
  * `fitting`: the items that are kept, by the text of those before them;
  * `addItems_inv`: the buffer after any items, for any size and limit;
    `terminated_iff`: how far the limit must be from the size;
  * `collectReport`, with `reportTp` (transport.c) for the lines of the
    transports; `collectReport_text`: the report and what the monitor sends.
-/
import SmtpProxy.Lib.CString
import SmtpProxy.Lib.Visits

namespace SmtpProxy

open CString

/-- `report_t` -/
structure Report where
  buf : Bytes
  maxlen : ℕ
  len : ℕ
  deriving DecidableEq

namespace Report

/-- A buffer of NULs. -/
def zeroed (size maxlen : ℕ) : Report := ⟨List.replicate size 0, maxlen, 0⟩

/-- The report as `collectReport` sets it up. -/
def init : Report := zeroed 4096 4094

def addReportItem (report : Report) (item : Bytes) : Option Report :=
  let len := (cstr item).length
  if sizeT (report.len + len) > report.maxlen then some report
  else do
    let buf ← strcat report.buf item
    let len := sizeT (report.len + len)
    let buf ← putByte buf len 10
    some { report with buf := buf, len := sizeT (len + 1) }

def addItems (report : Report) (items : List CStr) : Option Report :=
  items.foldlM (fun report item => report.addReportItem item.text) report

/-! ## The items of the monitor -/

/-- What `reportTp` reads of a transport. -/
structure TpFigures where
  name : Bytes
  busyConns : ℤ
  idleConns : ℤ
  noopConns : ℤ
  totalSend : ℤ
  todaySend : ℤ
  deriving DecidableEq

/-- `%30s: %3d busy, %3d idle, %3d noop, total send: %10d, today send = %6d` -/
def TpFigures.text (tp : TpFigures) : Bytes :=
  padded 30 (cstr tp.name) ++ bytes ": " ++ padded 3 (decimal tp.busyConns) ++ bytes " busy, " ++
    padded 3 (decimal tp.idleConns) ++ bytes " idle, " ++ padded 3 (decimal tp.noopConns) ++
    bytes " noop, total send: " ++ padded 10 (decimal tp.totalSend) ++ bytes ", today send = " ++
    padded 6 (decimal tp.todaySend)

/-- `reportTp`, a handler of `dllistVisit`. -/
def reportTp (_idx : ℕ) (tp : TpFigures) (report : Option Report) : ℤ × Option Report :=
  (1, report.bind fun report =>
    report.addReportItem (snprintf (List.replicate 1024 0) 1024 tp.text))

/-- A count in brackets. -/
def countText (head : Bytes) (n : ℤ) : Bytes := head ++ decimal n ++ bytes "]"

def clientsText : ℤ → Bytes := countText (bytes "[clients: ")

def transportsText : ℤ → Bytes := countText (bytes "[transports: ")

/-- `collectReport`, for `clients` clients and these transports. -/
def collectReport (clients : ℤ) (tps : List TpFigures) : Option Report := do
  let buf ← sprintf (List.replicate 1024 0) (clientsText clients)
  let report ← init.addReportItem buf
  let buf ← sprintf buf (transportsText tps.length)
  let report ← report.addReportItem buf
  (Visit.visit reportTp tps 0 (some report)).arg

/-! ## What is kept -/

/-- Each item with a newline behind it. -/
def lines (items : List CStr) : Bytes := items.flatMap fun item => item.text ++ [10]

/-- An item is kept if it fits behind those that have been kept. -/
def keep (maxlen : ℕ) (kept : List CStr) (item : CStr) : List CStr :=
  if (lines kept).length + item.text.length ≤ maxlen then kept ++ [item] else kept

def fitting (maxlen : ℕ) (items : List CStr) : List CStr := items.foldl (keep maxlen) []

/-- The report holds the items `kept`, then NULs up to `size`; at least one of
    them stands behind `maxlen` and the newline. -/
structure Inv (size maxlen : ℕ) (kept : List CStr) (r : Report) : Prop where
  limit : r.maxlen = maxlen
  len : r.len = (lines kept).length
  buf : r.buf = lines kept ++ List.replicate (size - r.len) 0
  le : r.len ≤ maxlen + 1

section
variable {size maxlen : ℕ} {kept items : List CStr} {r : Report}

theorem lines_nulFree : NulFree (lines kept) := by
  intro h
  obtain ⟨item, -, h⟩ := List.mem_flatMap.1 h
  rcases List.mem_append.1 h with h | h
  · exact item.nulFree h
  · simp at h

theorem addItems_cons {item : CStr} : r.addItems (item :: items) =
    (r.addReportItem item.text).bind fun r => r.addItems items := by
  rw [addItems, List.foldlM_cons]
  rfl

/-- What an item does to a report of any shape. -/
theorem addReportItem_cases {item : Bytes} {r' : Report} (h : r.addReportItem item = some r') :
    r.maxlen < sizeT (r.len + (cstr item).length) ∧ r' = r ∨
      sizeT (r.len + (cstr item).length) ≤ r.maxlen ∧ r'.buf.length = r.buf.length ∧
        r'.len = sizeT (sizeT (r.len + (cstr item).length) + 1) := by
  by_cases hlong : sizeT (r.len + (cstr item).length) > r.maxlen
  · rw [addReportItem, if_pos hlong] at h
    exact .inl ⟨hlong, (Option.some.inj h).symm⟩
  · rw [addReportItem, if_neg hlong] at h
    obtain ⟨buf, hcat, h⟩ := Option.bind_eq_some_iff.1 h
    obtain ⟨buf', hput, h⟩ := Option.bind_eq_some_iff.1 h
    obtain rfl := Option.some.inj h
    exact .inr ⟨Nat.not_lt.1 hlong, (length_putByte hput).trans (length_strcat hcat), rfl⟩

theorem inv_zeroed : Inv size maxlen [] (zeroed size maxlen) :=
  ⟨rfl, rfl, rfl, Nat.zero_le _⟩

/-- **An item is appended with its newline, or left out.** -/
theorem addReportItem_inv (h : Inv size maxlen kept r) (hmax : maxlen + 2 ≤ size)
    (hsize : size < 2 ^ 63) (item : CStr) :
    ∃ r', r.addReportItem item.text = some r' ∧ Inv size maxlen (keep maxlen kept item) r' := by
  have hlen := h.len
  have hle := h.le
  have hitem := item.size
  have hstr : cstr item.text = item.text := cstr_of_nulFree item.nulFree
  have hsum : sizeT (r.len + item.text.length) = r.len + item.text.length :=
    Nat.mod_eq_of_lt (by omega)
  by_cases hfit : (lines kept).length + item.text.length ≤ maxlen
  · have hsucc : sizeT (r.len + item.text.length + 1) = r.len + item.text.length + 1 :=
      Nat.mod_eq_of_lt (by omega)
    have hpos : r.len + item.text.length = (lines kept ++ item.text).length := by
      rw [List.length_append, hlen]
    -- the NULs that are left: one becomes the newline
    obtain ⟨k, hk⟩ : ∃ k, size - r.len - item.text.length = k + 1 :=
      ⟨size - r.len - item.text.length - 1, by omega⟩
    have hcat : strcat r.buf item.text =
        some (lines kept ++ item.text ++ 0 :: List.replicate k 0) := by
      rw [h.buf, strcat_zeros lines_nulFree item.nulFree (by omega), hk, List.replicate_succ]
    have hput : putByte (lines kept ++ item.text ++ 0 :: List.replicate k 0)
        (r.len + item.text.length) 10 =
        some (lines kept ++ item.text ++ 10 :: List.replicate k 0) := by
      rw [hpos]
      exact putByte_append ..
    refine ⟨⟨lines kept ++ item.text ++ 10 :: List.replicate k 0, r.maxlen,
      r.len + item.text.length + 1⟩, ?_, ?_⟩
    · rw [addReportItem, hstr, hsum, if_neg (by rw [h.limit]; omega), hcat]
      simp only [Option.bind_eq_bind, Option.bind_some, hput, hsucc]
    · rw [keep, if_pos hfit]
      have hlines : lines (kept ++ [item]) = lines kept ++ item.text ++ [10] := by
        simp [lines]
      refine ⟨h.limit, ?_, ?_, ?_⟩
      · rw [hlines]
        simp [hlen, Nat.add_assoc]
      · have hrest : size - (r.len + item.text.length + 1) = k := by omega
        rw [hlines, hrest]
        simp
      · dsimp only
        omega
  · refine ⟨r, ?_, ?_⟩
    · rw [addReportItem, hstr, hsum, if_pos (by rw [h.limit]; omega)]
    · rw [keep, if_neg hfit]
      exact h

/-- **The report after any items.** -/
theorem addItems_inv (hmax : maxlen + 2 ≤ size) (hsize : size < 2 ^ 63) (items : List CStr) :
    ∃ r, (zeroed size maxlen).addItems items = some r ∧
      Inv size maxlen (fitting maxlen items) r := by
  induction items using List.reverseRecOn with
  | nil => exact ⟨_, rfl, inv_zeroed⟩
  | append_singleton items item ih =>
    obtain ⟨r, hr, hI⟩ := ih
    obtain ⟨r', hr', hI'⟩ := addReportItem_inv hI hmax hsize item
    refine ⟨r', ?_, ?_⟩
    · rw [addItems] at hr ⊢
      rw [List.foldlM_append, hr]
      simpa using hr'
    · rw [fitting, List.foldl_append]
      exact hI'

/-- A string with its NUL inside of the buffer. -/
theorem Inv.terminated (h : Inv size maxlen kept r) (hmax : maxlen + 2 ≤ size) :
    r.buf.length = size ∧ r.buf[r.len]? = some 0 ∧ cstr r.buf = lines kept := by
  have hlen := h.len
  have hle := h.le
  obtain ⟨k, hk⟩ : ∃ k, size - r.len = k + 1 := ⟨size - r.len - 1, by omega⟩
  have hbuf : r.buf = lines kept ++ 0 :: List.replicate k 0 := by
    rw [h.buf, hk, List.replicate_succ]
  refine ⟨?_, ?_, ?_⟩
  · rw [h.buf, List.length_append, List.length_replicate]
    omega
  · rw [hbuf, hlen]
    simp
  · rw [hbuf]
    exact cstr_append_zero lines_nulFree _

/-- **The report is safe**: after any items it is the lines of those that
    fitted, as a string that ends inside of the buffer, at `len`. -/
theorem addItems_safe (items : List CStr) : ∃ r, init.addItems items = some r ∧
    r.maxlen = 4094 ∧ r.buf.length = 4096 ∧ r.len ≤ 4095 ∧ r.buf[r.len]? = some 0 ∧
    (cstr r.buf).length = r.len ∧ cstr r.buf = lines (fitting 4094 items) := by
  obtain ⟨r, hr, hI⟩ := @addItems_inv 4096 4094 (by omega) (by omega) items
  obtain ⟨hsize, hzero, hstr⟩ := hI.terminated (by omega)
  refine ⟨r, hr, hI.limit, hsize, hI.le, hzero, ?_, hstr⟩
  rw [hstr, hI.len]

/-- **How far the limit must be from the size**: for the newline and the NUL. -/
theorem terminated_iff (hmax : maxlen + 1 < 2 ^ 63) (hsize : size < 2 ^ 63) :
    (∀ items, ∃ r, (zeroed size maxlen).addItems items = some r ∧ r.buf[r.len]? = some 0) ↔
      maxlen + 2 ≤ size := by
  constructor
  · intro h
    -- an item as long as the limit
    obtain ⟨r, hr, hzero⟩ := h [⟨List.replicate maxlen 120, by simp [NulFree], by simpa using hmax⟩]
    have hstr : cstr (List.replicate maxlen (120 : UInt8)) = List.replicate maxlen 120 :=
      cstr_of_nulFree (by simp [NulFree])
    have hadd : (zeroed size maxlen).addReportItem (List.replicate maxlen 120) = some r := by
      simpa [addItems] using hr
    have hsum : sizeT (0 + maxlen) = maxlen := by
      rw [Nat.zero_add]
      exact Nat.mod_eq_of_lt (by omega)
    have hcases := addReportItem_cases hadd
    rw [hstr, List.length_replicate] at hcases
    rcases hcases with ⟨hlong, -⟩ | ⟨-, hbuf, hlen⟩
    · change maxlen < sizeT (0 + maxlen) at hlong
      rw [hsum] at hlong
      exact absurd hlong (Nat.lt_irrefl _)
    · change r.len = sizeT (sizeT (0 + maxlen) + 1) at hlen
      have hsucc : sizeT (maxlen + 1) = maxlen + 1 := Nat.mod_eq_of_lt (by omega)
      rw [hsum, hsucc] at hlen
      have hlt := (List.getElem?_eq_some_iff.1 hzero).1
      rw [hbuf, hlen] at hlt
      exact Nat.succ_le_of_lt (by simpa [zeroed] using hlt)
  · intro hmax items
    obtain ⟨r, hr, hI⟩ := addItems_inv hmax hsize items
    exact ⟨r, hr, (hI.terminated hmax).2.1⟩

/-- Nothing is left out of a report that has room for all. -/
theorem fitting_eq_self (h : (lines items).length ≤ maxlen + 1) : fitting maxlen items = items := by
  induction items using List.reverseRecOn with
  | nil => rfl
  | append_singleton items item ih =>
    have hlines : (lines (items ++ [item])).length =
        (lines items).length + item.text.length + 1 := by
      simp [lines, Nat.add_assoc]
    have hinit : fitting maxlen items = items := ih (by omega)
    have hsnoc : fitting maxlen (items ++ [item]) = keep maxlen (fitting maxlen items) item :=
      List.foldl_append
    rw [hsnoc, hinit, keep, if_pos (by omega)]

end

/-! ## The report of the monitor -/

/-- An item that is shorter than the buffers it is printed to. -/
def printed (text : Bytes) (h : NulFree text) (hlen : text.length ≤ 1023) : CStr :=
  ⟨text, h, by omega⟩

theorem countText_nulFree {head : Bytes} (hhead : NulFree head) (n : ℤ) :
    NulFree (countText head n) :=
  (hhead.append (decimal_nulFree n)).append (by decide)

theorem clientsText_nulFree (n : ℤ) : NulFree (clientsText n) := countText_nulFree (by decide) n

theorem transportsText_nulFree (n : ℤ) : NulFree (transportsText n) :=
  countText_nulFree (by decide) n

theorem TpFigures.text_nulFree (tp : TpFigures) : NulFree tp.text := by
  have field : ∀ (width : ℕ) (n : ℤ), NulFree (padded width (decimal n)) := fun width n =>
    (decimal_nulFree n).padded width
  exact ((((((((((((cstr_nulFree tp.name).padded 30).append (by decide)).append (field 3 _)).append
    (by decide)).append (field 3 _)).append (by decide)).append (field 3 _)).append
    (by decide)).append (field 10 _)).append (by decide)).append (field 6 _))

example : (TpFigures.mk (bytes "relay") 1 0 12 10 (-3)).text = bytes
    "                         relay:   1 busy,   0 idle,  12 noop, total send:         10, today send =     -3" := by
  decide

/-- The line of a transport, cut off if its name is too long. -/
def TpFigures.line (tp : TpFigures) : CStr :=
  printed (tp.text.take 1023) (tp.text_nulFree.take 1023) (List.length_take_le 1023 _)

section
variable {r : Report} {n clients : ℤ} {tps : List TpFigures}

theorem addReportItem_congr {item item' : Bytes} (h : cstr item = cstr item') :
    r.addReportItem item = r.addReportItem item' := by
  rw [addReportItem, addReportItem, h, strcat, strcat, h]

theorem reportTp_eq (idx : ℕ) (tp : TpFigures) : reportTp idx tp (some r) =
    (1, r.addReportItem tp.line.text) := by
  have hline : cstr (snprintf (List.replicate 1024 0) 1024 tp.text) = cstr tp.line.text := by
    rw [cstr_snprintf tp.text_nulFree, cstr_of_nulFree tp.line.nulFree]
    rfl
  rw [reportTp, Option.bind_some, addReportItem_congr hline]

/-- **The visit adds the lines of the transports.** -/
theorem visit_reportTp : ∀ (idx : ℕ) (r : Report) (t : Report),
    r.addItems (tps.map TpFigures.line) = some t →
      (Visit.visit reportTp tps idx (some r)).arg = some t := by
  induction tps with
  | nil => exact fun _ _ _ h => h
  | cons tp tps ih =>
    intro idx r t h
    rw [List.map_cons, addItems_cons] at h
    obtain ⟨u, hu, h⟩ := Option.bind_eq_some_iff.1 h
    have hgo : (reportTp idx tp (some r)).1 ≠ 0 := Int.one_ne_zero
    rw [Visit.visit_go hgo, reportTp_eq, hu]
    exact ih (idx + 1) u t h

theorem length_countText_le {head : Bytes} (hhead : head.length ≤ 13) (hlow : -2 ^ 31 ≤ n)
    (hhigh : n < 2 ^ 31) : (countText head n).length ≤ 1023 := by
  have hlen := length_decimal_le hlow hhigh
  have htext : (countText head n).length = head.length + (decimal n).length + 1 := by
    rw [countText, List.length_append, List.length_append]
    rfl
  omega

theorem length_clientsText_le (hlow : -2 ^ 31 ≤ n) (hhigh : n < 2 ^ 31) :
    (clientsText n).length ≤ 1023 := length_countText_le (by decide) hlow hhigh

theorem length_transportsText_le (hlow : -2 ^ 31 ≤ n) (hhigh : n < 2 ^ 31) :
    (transportsText n).length ≤ 1023 := length_countText_le (by decide) hlow hhigh

/-- The items of the report, for counts that are `int`. -/
def reportItems (clients : ℤ) (tps : List TpFigures) (hlow : -2 ^ 31 ≤ clients)
    (hhigh : clients < 2 ^ 31) (htps : (tps.length : ℤ) < 2 ^ 31) : List CStr :=
  printed (clientsText clients) (clientsText_nulFree _) (length_clientsText_le hlow hhigh) ::
    printed (transportsText tps.length) (transportsText_nulFree _)
      (length_transportsText_le (by omega) htps) :: tps.map TpFigures.line

/-- **The report of the monitor** is made without leaving a buffer; what is sent
    of it is the lines of the items that fitted: all of them, if there is room. -/
theorem collectReport_text (hlow : -2 ^ 31 ≤ clients) (hhigh : clients < 2 ^ 31)
    (htps : (tps.length : ℤ) < 2 ^ 31) :
    ∃ r, collectReport clients tps = some r ∧ r.buf.length = 4096 ∧ r.len ≤ 4095 ∧
      r.buf.take r.len = lines (fitting 4094 (reportItems clients tps hlow hhigh htps)) ∧
      ((lines (reportItems clients tps hlow hhigh htps)).length ≤ 4095 →
        r.buf.take r.len = lines (reportItems clients tps hlow hhigh htps)) := by
  obtain ⟨r, hr, hI⟩ := @addItems_inv 4096 4094 (by omega) (by omega)
    (reportItems clients tps hlow hhigh htps)
  have hsent : r.buf.take r.len = lines (fitting 4094 (reportItems clients tps hlow hhigh htps)) := by
    rw [hI.buf, hI.len, List.take_left]
  refine ⟨r, ?_, (hI.terminated (by omega)).1, hI.le, hsent, fun hroom => ?_⟩
  · have hclients := length_clientsText_le hlow hhigh
    have htransports : (transportsText tps.length).length ≤ 1023 :=
      length_transportsText_le (by omega) htps
    have hroom : (List.replicate 1024 (0 : UInt8)).length = 1024 := List.length_replicate
    obtain ⟨buf, hbuf, hstr, hlen⟩ := @sprintf_eq (List.replicate 1024 0) _
      (clientsText_nulFree clients) (by omega)
    obtain ⟨buf', hbuf', hstr', -⟩ := @sprintf_eq buf _ (transportsText_nulFree tps.length) (by omega)
    rw [reportItems, addItems_cons] at hr
    obtain ⟨u, hu, hr⟩ := Option.bind_eq_some_iff.1 hr
    rw [addItems_cons] at hr
    obtain ⟨v, hv, hr⟩ := Option.bind_eq_some_iff.1 hr
    have hfirst : init.addReportItem buf = some u := by
      rw [← hu]
      exact addReportItem_congr (hstr.trans (cstr_of_nulFree (clientsText_nulFree _)).symm)
    have hsecond : u.addReportItem buf' = some v := by
      rw [← hv]
      exact addReportItem_congr (hstr'.trans (cstr_of_nulFree (transportsText_nulFree _)).symm)
    simp only [collectReport, Option.bind_eq_bind, hbuf, Option.bind_some, hfirst, hbuf', hsecond]
    exact visit_reportTp 0 v r hr
  · rw [hsent, fitting_eq_self hroom]

end

/-- Two clients and one transport. -/
theorem collectReport_text_one : ∃ r, collectReport 2 [⟨bytes "t", 1, 0, 0, 5, 3⟩] = some r ∧
    r.buf.take r.len = bytes ("[clients: 2]\n[transports: 1]\n                             t:" ++
      "   1 busy,   0 idle,   0 noop, total send:          5, today send =      3\n") := by
  obtain ⟨r, hr, -, -, -, hall⟩ := @collectReport_text 2 [⟨bytes "t", 1, 0, 0, 5, 3⟩] (by decide)
    (by decide) (by decide)
  exact ⟨r, hr, (hall (by decide +kernel)).trans (by decide +kernel)⟩

end Report

end SmtpProxy
