/-
  What `loadTpConfig` prints to the log (`printTp`, transport.c; `mylog`, log.c),
  read as a transport.ini.

  * `printTp`: the lines for a transport, behind the time in brackets;
  * `Printable`: the transports whose lines the parser reads as they are;
  * `events_printed`: the parser finds the items of the transports;
  * `load_printed`: **printing and loading is the identity** on tables of complete
    and printable transports;
  * `load_print_load`: what has been loaded from a file, printed and loaded again.
-/
import SmtpProxy.Ini.Load

namespace SmtpProxy

open CString

namespace Ini

/-- `%s`, where a string need not be set. -/
def text (s : Option Bytes) : Bytes := (s.map cstr).getD (bytes "(null)")

/-- The lines of `printTp` for the items. -/
def format : List (String × (TpConf → Bytes)) :=
  [("host                = ", fun tp => text tp.host),
    ("port                = ", fun tp => text tp.port),
    ("ssl                 = ", fun tp => text tp.ssl),
    ("auth                = ", fun tp => text tp.auth),
    ("username            = ", fun tp => text tp.username),
    ("password            = ", fun tp => text tp.password),
    ("maxConn             = ", fun tp => decimal tp.maxConn),
    ("maxSendPerConn      = ", fun tp => decimal tp.maxSendPerConn),
    ("sleepSecondsPerSend = ", fun tp => decimal tp.sleepSecondsPerSend),
    ("maxNoop             = ", fun tp => decimal tp.maxNoop),
    ("sleepSecondsPerNoop = ", fun tp => decimal tp.sleepSecondsPerNoop)]

/-- `mylog` at the time `now`. -/
def mylog (now text : Bytes) : Bytes := bytes "[" ++ now ++ bytes "]" ++ text

def printTp (now : Bytes) (tp : TpConf) : Bytes :=
  mylog now (bytes "\n[" ++ cstr tp.name ++ bytes "]\n" ++
    (format.map fun f => bytes f.1 ++ f.2 tp ++ bytes "\n").flatten ++ bytes "\n")

/-- `dllistVisit(transports, printTp, NULL)`: each transport with the time at which
    it is logged. -/
def printed (xs : List (Bytes × TpConf)) : Bytes := (xs.map fun x => printTp x.1 x.2).flatten

/-! ## What the parser reads as it is -/

/-- A value that is read as it is. -/
structure Plain (v : Bytes) : Prop where
  nulFree : NulFree v
  newline : 10 ∉ v
  trimmed : Lines.Trimmed isspace v
  comment : Lines.Passes isspace (stop 0) false v
  length : v.length ≤ 176

/-- A transport whose lines are read as they are. -/
structure Printable (tp : TpConf) : Prop where
  name : NulFree tp.name ∧ 10 ∉ tp.name ∧ tp.name.length < MAX_SECTION ∧
    Lines.Passes isspace (stop 93) false tp.name
  strs : ∀ f ∈ TpConf.strItems, ∃ v, f.2 tp = some v ∧ Plain v
  ints : ∀ f ∈ TpConf.intItems, -2 ^ 31 ≤ f.2 tp ∧ f.2 tp < 2 ^ 31
  live : tp.freed = false

/-- The time, as `strftime` prints it. -/
structure Stamp (now : Bytes) : Prop where
  nulFree : NulFree now
  newline : 10 ∉ now
  bracket : 93 ∉ now
  comment : 59 ∉ now
  length : now.length < 20

/-- The items of a transport, as they are printed. -/
def itemCalls (tp : TpConf) : List IniItem :=
  (TpConf.items.zip format).map fun x => ⟨tp.name, bytes x.1.1, x.2.2 tp⟩

section
variable {tp : TpConf} {v name : Bytes}

/-! ## Lines -/

theorem trimEnd_of_last {t : Bytes} {c : UInt8} (hc : isspace c = false) :
    (t ++ [c]).rdropWhile isspace = t ++ [c] :=
  List.rdropWhile_concat_neg _ _ _ (by rw [hc]; exact Bool.false_ne_true)

theorem passes_of_not_mem {c : UInt8} {t : Bytes} (hc : c ∉ t) (h59 : 59 ∉ t) (was : Bool) :
    Lines.Passes isspace (stop c) was t := by
  induction t generalizing was with
  | nil => trivial
  | cons d t ih =>
    rw [List.mem_cons, not_or] at hc h59
    refine ⟨?_, ih hc.2 h59.2 _⟩
    have hd : d ≠ c := fun h => hc.1 h.symm
    have hd' : d ≠ 59 := fun h => h59.1 h.symm
    simp [stop, hd, hd']

/-- A name of letters, and what follows the equals sign. -/
theorem entry_pair (cont : Bool) {t w : Bytes} {k : ℕ} (hne : name ≠ [])
    (hletters : ∀ c ∈ name, 65 ≤ c ∧ c ≤ 122 ∧ c ≠ 91)
    (ht : t.rdropWhile isspace = name ++ (List.replicate k 32 ++ 61 :: w)) :
    entry cont t = .item name (valueOf w) := by
  have hchar : ∀ c ∈ name, isspace c = false ∧ c ≠ 59 ∧ c ≠ 35 ∧ c ≠ 61 := by
    intro c hc
    obtain ⟨hlow, -, -⟩ := hletters c hc
    rw [UInt8.le_iff_toNat_le] at hlow
    have h65 : (65 : UInt8).toNat = 65 := rfl
    refine ⟨isspace_of_lt (by omega), ?_, ?_, ?_⟩
    · rintro rfl
      exact absurd hlow (by decide)
    · rintro rfl
      exact absurd hlow (by decide)
    · rintro rfl
      exact absurd hlow (by decide)
  obtain ⟨c, name', rfl⟩ := List.exists_cons_of_ne_nil hne
  obtain ⟨hsp, h59, h35, -⟩ := hchar c List.mem_cons_self
  have h91 := (hletters c List.mem_cons_self).2.2
  have hstart : ((c :: name') ++ (List.replicate k 32 ++ 61 :: w)).dropWhile isspace =
      (c :: name') ++ (List.replicate k 32 ++ 61 :: w) :=
    List.dropWhile_cons_of_neg (by rw [hsp]; exact Bool.false_ne_true)
  have hfront : 61 ∉ (c :: name') ++ List.replicate k 32 ∧ 59 ∉ (c :: name') ++ List.replicate k 32 := by
    constructor
    · intro hmem
      rcases List.mem_append.1 hmem with h | h
      · exact (hchar 61 h).2.2.2 rfl
      · exact absurd (List.eq_of_mem_replicate h) (by decide)
    · intro hmem
      rcases List.mem_append.1 hmem with h | h
      · exact (hchar 59 h).2.1 rfl
      · exact absurd (List.eq_of_mem_replicate h) (by decide)
  have hcut : cut 61 ((c :: name') ++ (List.replicate k 32 ++ 61 :: w)) =
      ((c :: name') ++ List.replicate k 32, 61 :: w) := by
    rw [← List.append_assoc]
    refine Lines.cut_of_passes (passes_of_not_mem hfront.1 hfront.2 false) ?_
    simp [stop]
  have htrim : ((c :: name') ++ List.replicate k 32).rdropWhile isspace = c :: name' := by
    rw [Lines.rdropWhile_append_of_all fun d hd => by rw [List.eq_of_mem_replicate hd]; rfl]
    refine List.rdropWhile_eq_self_iff.2 fun hl => ?_
    rw [(hchar _ (List.getLast_mem hl)).1]
    exact Bool.false_ne_true
  simp only [entry, ht, hstart]
  rw [if_neg (by simp [h59, h35]), if_neg (by simp), if_neg (by simp [h91]),
    if_pos (by simp)]
  simp only [itemEntry, pair, hcut, List.head?_cons, if_true, true_or, List.tail_cons, htrim]

/-- **A line for an item is read as the item.** -/
theorem entry_item (cont : Bool) {k : ℕ} (hne : name ≠ [])
    (hletters : ∀ c ∈ name, 65 ≤ c ∧ c ≤ 122 ∧ c ≠ 91) (hv : Plain v) :
    entry cont (name ++ (List.replicate k 32 ++ 61 :: 32 :: v)) = .item name v := by
  have hcut : cut 0 v = (v, []) := Lines.cut_of_passes_all hv.comment
  by_cases hnil : v = []
  · -- the blank behind the equals sign is at the end of the line
    subst hnil
    rw [entry_pair (w := []) (k := k) cont hne hletters]
    · rfl
    · have hline : name ++ (List.replicate k 32 ++ 61 :: 32 :: []) =
          (name ++ List.replicate k 32 ++ [61]) ++ [32] := by simp
      rw [hline, List.rdropWhile_concat_pos _ _ _ (by decide), trimEnd_of_last (by decide)]
      simp
  · rw [entry_pair (w := 32 :: v) (k := k) cont hne hletters]
    · rw [valueOf, List.dropWhile_cons_of_pos (by decide), hv.trimmed.1, hcut, hv.trimmed.2]
    · have hline : name ++ (List.replicate k 32 ++ 61 :: 32 :: v) =
          (name ++ List.replicate k 32 ++ [61, 32]) ++ v := by simp
      rw [hline, Lines.rdropWhile_append (by rw [hv.trimmed.2]; exact hnil), hv.trimmed.2]

/-- **A line for a section.** -/
theorem entry_section (cont : Bool) (h : Lines.Passes isspace (stop 93) false name) :
    entry cont (91 :: name ++ [93]) = .section_ name := by
  have hcut : cut 93 (name ++ [93]) = (name, [93]) := Lines.cut_of_passes h (by simp [stop])
  have htrim : (91 :: name ++ [93]).rdropWhile isspace = 91 :: name ++ [93] :=
    trimEnd_of_last (by decide)
  have hstart : (91 :: name ++ [93]).dropWhile isspace = 91 :: name ++ [93] :=
    List.dropWhile_cons_of_neg (by decide)
  simp only [entry, htrim, hstart]
  rw [if_neg (by simp), if_neg (by simp), if_pos (by simp)]
  simp only [sectionEntry, List.cons_append, List.tail_cons, hcut, List.head?_cons, if_true]

/-! ## The lines of a transport -/

/-- The lines that `printTp` writes. -/
def tpLines (now : Bytes) (tp : TpConf) : List Bytes :=
  (91 :: now ++ [93]) :: (91 :: tp.name ++ [93]) :: (format.map fun f => bytes f.1 ++ f.2 tp) ++ [[]]

theorem printTp_eq (now : Bytes) (hname : NulFree tp.name) : printTp now tp = textOf (tpLines now tp) := by
  have hitems : ((format.map fun f => bytes f.1 ++ f.2 tp).map (· ++ [10])).flatten =
      (format.map fun f => bytes f.1 ++ f.2 tp ++ bytes "\n").flatten := by
    rw [List.map_map]
    rfl
  have hopen : bytes "[" = [91] ∧ bytes "]" = [93] ∧ bytes "\n[" = [10, 91] ∧ bytes "]\n" = [93, 10] ∧
      bytes "\n" = [10] := by decide
  obtain ⟨h₁, h₂, h₃, h₄, h₅⟩ := hopen
  rw [printTp, mylog, textOf, tpLines, cstr_of_nulFree hname, List.map_append, List.flatten_append,
    List.map_cons, List.map_cons, List.flatten_cons, List.flatten_cons, hitems, h₁, h₂, h₃, h₄, h₅]
  simp

/-- The label of a line. -/
theorem format_labels : ∀ x ∈ TpConf.items.zip format, bytes x.2.1 =
    bytes x.1.1 ++ (List.replicate (20 - x.1.1.length) 32 ++ [61, 32]) := by decide

theorem format_lines (tp : TpConf) : (format.map fun f => bytes f.1 ++ f.2 tp) =
    (itemCalls tp).map fun i => i.name ++ (List.replicate (20 - i.name.length) 32 ++ 61 :: 32 :: i.value) := by
  have hzip : format = (TpConf.items.zip format).map Prod.snd := rfl
  conv_lhs => rw [hzip]
  rw [itemCalls, List.map_map, List.map_map]
  refine List.map_congr_left fun x hx => ?_
  have hlen : (bytes x.1.1).length = x.1.1.length := by
    rw [bytes, List.length_map]
    rfl
  simp only [Function.comp_apply, format_labels x hx, hlen, List.append_assoc, List.cons_append,
    List.nil_append]

theorem item_letters : ∀ i ∈ itemCalls tp, i.name ≠ [] ∧ i.name.length ≤ 20 ∧
    (∀ c ∈ i.name, 65 ≤ c ∧ c ≤ 122 ∧ c ≠ 91) ∧ known i = true := by
  have hnames : ∀ x ∈ TpConf.items, bytes x.1 ≠ [] ∧ (bytes x.1).length ≤ 20 ∧
      (∀ c ∈ bytes x.1, 65 ≤ c ∧ c ≤ 122 ∧ c ≠ 91) ∧
      (TpConf.items.any fun item => cstr (bytes x.1) = bytes item.1) = true := by decide +kernel
  intro i hi
  obtain ⟨x, hx, rfl⟩ := List.mem_map.1 hi
  exact hnames x.1 (List.of_mem_zip hx).1

/-! ## Values -/

theorem plain_of_chars (h : ∀ c ∈ v, isspace c = false ∧ c ≠ 0 ∧ c ≠ 59) (hlen : v.length ≤ 176) :
    Plain v := by
  refine ⟨fun hm => (h 0 hm).2.1 rfl, fun hm => absurd (h 10 hm).1 (by decide), ⟨?_, ?_⟩, ?_, hlen⟩
  · refine List.dropWhile_eq_self_iff.2 fun hl => ?_
    rw [(h _ (List.getElem_mem hl)).1]
    exact Bool.false_ne_true
  · refine List.rdropWhile_eq_self_iff.2 fun hl => ?_
    rw [(h _ (List.getLast_mem hl)).1]
    exact Bool.false_ne_true
  · exact passes_of_not_mem (fun hm => (h 0 hm).2.1 rfl) (fun hm => (h 59 hm).2.2 rfl) false

/-- A number is read as it is. -/
theorem plain_decimal {n : ℤ} (hlow : -2 ^ 31 ≤ n) (hhigh : n < 2 ^ 31) : Plain (decimal n) := by
  have hchar : ∀ c ∈ decimal n, c = 45 ∨ isdigit c = true := by
    intro c hc
    rw [decimal, List.mem_append] at hc
    rcases hc with hc | hc
    · left
      split at hc
      · exact List.mem_singleton.1 hc
      · cases hc
    · obtain ⟨d, hd, rfl⟩ := List.mem_map.1 hc
      exact .inr (isdigit_digit (Nat.isDigit_of_mem_toDigits (by decide) (by decide) hd))
  refine plain_of_chars (fun c hc => ?_) (Nat.le_trans (length_decimal_le hlow hhigh) (by decide))
  have hlow : 45 ≤ c.toNat ∧ c.toNat ≤ 57 := by
    rcases hchar c hc with rfl | h
    · decide
    · simp only [isdigit, Bool.and_eq_true, decide_eq_true_eq, UInt8.le_iff_toNat_le] at h
      have h48 : 48 ≤ c.toNat := h.1
      exact ⟨by omega, h.2⟩
  refine ⟨isspace_of_lt (by omega), ?_, ?_⟩
  · rintro rfl
    exact absurd hlow.1 (by decide)
  · rintro rfl
    exact absurd hlow.2 (by decide)

/-- The values of a printable transport are read as they are. -/
theorem itemCalls_plain (h : Printable tp) : ∀ i ∈ itemCalls tp, Plain i.value := by
  have hstr : ∀ f ∈ TpConf.strItems, Plain (text (f.2 tp)) := by
    intro f hf
    obtain ⟨v, hv, hplain⟩ := h.strs f hf
    rw [hv, text, Option.map_some, Option.getD_some, cstr_of_nulFree hplain.nulFree]
    exact hplain
  have hint : ∀ f ∈ TpConf.intItems, Plain (decimal (f.2 tp)) :=
    fun f hf => plain_decimal (h.ints f hf).1 (h.ints f hf).2
  have hformat : ∀ f ∈ format, Plain (f.2 tp) := by
    simp only [TpConf.strItems, TpConf.intItems, List.forall_mem_cons] at hstr hint
    obtain ⟨h₁, h₂, h₃, h₄, h₅, h₆, -⟩ := hstr
    obtain ⟨h₇, h₈, h₉, h₁₀, h₁₁, -⟩ := hint
    simp only [format, List.forall_mem_cons]
    exact ⟨h₁, h₂, h₃, h₄, h₅, h₆, h₇, h₈, h₉, h₁₀, h₁₁, fun _ hm => absurd hm List.not_mem_nil⟩
  intro i hi
  obtain ⟨x, hx, rfl⟩ := List.mem_map.1 hi
  exact hformat x.2 (List.of_mem_zip hx).2

/-! ## Reading the lines -/

/-- A short line that begins with a letter or a bracket. -/
theorem short_of_head {c : UInt8} {l : Bytes} (hc : c ≠ 0xEF) (hfree : NulFree (c :: l))
    (hnl : 10 ∉ c :: l) (hlen : (c :: l).length < INI_MAX_LINE - 1) : Short (c :: l) := by
  refine ⟨hfree, hnl, hlen, fun h => hc ?_⟩
  rw [List.take_succ_cons] at h
  exact (List.cons.inj h).1

theorem short_bracket (hfree : NulFree name) (hnl : 10 ∉ name) (hlen : name.length < MAX_SECTION) :
    Short (91 :: name ++ [93]) := by
  have hmem : ∀ c, c ≠ 91 → c ≠ 93 → c ∉ name → c ∉ 91 :: name ++ [93] := by
    intro c h₁ h₂ h₃ hm
    simp only [List.mem_append, List.mem_cons, List.not_mem_nil, or_false] at hm
    rcases hm with (h | h) | h
    · exact h₁ h
    · exact h₃ h
    · exact h₂ h
  refine short_of_head (by decide) (hmem 0 (by decide) (by decide) hfree)
    (hmem 10 (by decide) (by decide) hnl) ?_
  have h₁ : MAX_SECTION = 50 := rfl
  have h₂ : INI_MAX_LINE = 200 := rfl
  change (name ++ [93]).length + 1 < INI_MAX_LINE - 1
  rw [List.length_append, List.length_singleton]
  omega

/-- The line of an item. -/
def itemLineOf (i : IniItem) : Bytes :=
  i.name ++ (List.replicate (20 - i.name.length) 32 ++ 61 :: 32 :: i.value)

theorem short_item {i : IniItem} (hne : i.name ≠ []) (hlen : i.name.length ≤ 20)
    (hletters : ∀ c ∈ i.name, 65 ≤ c ∧ c ≤ 122 ∧ c ≠ 91) (hv : Plain i.value) : Short (itemLineOf i) := by
  have hmem : ∀ c : UInt8, c < 32 → c ∉ i.value → c ∉ itemLineOf i := by
    intro c hc hno hm
    rw [UInt8.lt_iff_toNat_lt] at hc
    have h32 : (32 : UInt8).toNat = 32 := rfl
    simp only [itemLineOf, List.mem_append, List.mem_cons] at hm
    rcases hm with h | h | rfl | rfl | h
    · have h65 := (hletters c h).1
      rw [UInt8.le_iff_toNat_le] at h65
      have h65' : (65 : UInt8).toNat = 65 := rfl
      omega
    · rw [List.eq_of_mem_replicate h] at hc
      omega
    · exact absurd hc (by decide)
    · exact absurd hc (by decide)
    · exact hno h
  have hlength : (itemLineOf i).length < INI_MAX_LINE - 1 := by
    have h₂ : INI_MAX_LINE = 200 := rfl
    have := hv.length
    simp only [itemLineOf, List.length_append, List.length_cons, List.length_replicate]
    omega
  refine ⟨hmem 0 (by decide) hv.nulFree, hmem 10 (by decide) hv.newline, hlength, fun h => ?_⟩
  obtain ⟨c, rest, hcons⟩ := List.exists_cons_of_ne_nil hne
  have hc := (hletters c (by rw [hcons]; exact List.mem_cons_self)).2.1
  rw [itemLineOf, hcons, List.cons_append, List.take_succ_cons] at h
  rw [(List.cons.inj h).1] at hc
  exact absurd hc (by decide)

theorem tpLines_eq (now : Bytes) (tp : TpConf) : tpLines now tp =
    (91 :: now ++ [93]) :: (91 :: tp.name ++ [93]) :: ((itemCalls tp).map itemLineOf ++ [[]]) := by
  rw [tpLines, format_lines]
  rfl

theorem tpLines_short {now : Bytes} (hnow : Stamp now) (h : Printable tp) : ∀ l ∈ tpLines now tp, Short l := by
  intro l hl
  rw [tpLines_eq] at hl
  simp only [List.mem_cons, List.mem_append, List.mem_map, List.not_mem_nil, or_false] at hl
  rcases hl with rfl | rfl | ⟨i, hi, rfl⟩ | rfl
  · exact short_bracket hnow.nulFree hnow.newline (Nat.lt_trans hnow.length (by decide))
  · exact short_bracket h.name.1 h.name.2.1 h.name.2.2.1
  · obtain ⟨hne, hlen, hletters, -⟩ := item_letters i hi
    exact short_item hne hlen hletters (itemCalls_plain h i hi)
  · exact ⟨List.not_mem_nil, List.not_mem_nil, by decide, by decide⟩

/-- The reader after lines. -/
def Reader.after (r : Reader) (ls : List Bytes) : Reader := ls.foldl (fun r l => (r.read l).1) r

theorem readAll_append : ∀ (ls ls' : List Bytes) (r : Reader),
    readAll r (ls ++ ls') = readAll r ls ++ readAll (r.after ls) ls'
  | [], _, _ => rfl
  | l :: ls, ls', r => by
    rw [List.cons_append, readAll, readAll, readAll_append ls ls', List.append_assoc]
    rfl

/-- The items of a section, line by line. -/
theorem readAll_items : ∀ (is : List IniItem) (r : Reader),
    (∀ i ∈ is, i.name ≠ [] ∧ (∀ c ∈ i.name, 65 ≤ c ∧ c ≤ 122 ∧ c ≠ 91) ∧ Plain i.value) →
    readAll r (is.map itemLineOf) = is.map fun i => some { i with section_ := r.section_ }
  | [], _, _ => rfl
  | i :: is, r, h => by
    obtain ⟨hne, hletters, hv⟩ := h i List.mem_cons_self
    have hread : r.read (itemLineOf i) = (⟨r.section_, i.name.take (MAX_NAME - 1)⟩,
        some (some ⟨r.section_, i.name, i.value⟩)) := by
      rw [Reader.read, itemLineOf, entry_item _ hne hletters hv]
      rfl
    rw [List.map_cons, readAll, hread, List.map_cons]
    rw [readAll_items is _ fun j hj => h j (List.mem_cons_of_mem i hj)]
    rfl

/-- **The lines of a transport are read as its items**, wherever they stand. -/
theorem readAll_tpLines {now : Bytes} (hnow : Stamp now) (h : Printable tp) (r : Reader) :
    readAll r (tpLines now tp) = (itemCalls tp).map some := by
  have hstamp : Lines.Passes isspace (stop 93) false now :=
    passes_of_not_mem hnow.bracket hnow.comment false
  have hname : tp.name.take (MAX_SECTION - 1) = tp.name := by
    have h₁ : MAX_SECTION = 50 := rfl
    have := h.name.2.2.1
    exact List.take_of_length_le (by omega)
  have hblank : ∀ r : Reader, readAll r [[]] = [] := by
    intro r
    rw [readAll, Reader.read, entry_silent (by decide)]
    rfl
  have hitems : ∀ i ∈ itemCalls tp,
      i.name ≠ [] ∧ (∀ c ∈ i.name, 65 ≤ c ∧ c ≤ 122 ∧ c ≠ 91) ∧ Plain i.value := fun i hi =>
    ⟨(item_letters i hi).1, (item_letters i hi).2.2.1, itemCalls_plain h i hi⟩
  rw [tpLines_eq, readAll, Reader.read, entry_section _ hstamp, readAll, Reader.read,
    entry_section _ h.name.2.2.2, readAll_append, hblank, readAll_items _ _ hitems]
  simp only [Reader.apply, hname, Option.toList_none, List.nil_append, List.append_nil]
  refine List.map_congr_left fun i hi => ?_
  obtain ⟨x, -, rfl⟩ := List.mem_map.1 hi
  rfl

/-! ## The table -/

/-- An item is set by the entry of its name. -/
theorem apply_item {item : String × (TpConf → Bytes → TpConf)} {i : IniItem} (hitem : item ∈ TpConf.items)
    (hname : i.name = bytes item.1) (tp : TpConf) : tp.apply i = item.2 tp i.value := by
  have hfree : ∀ item ∈ TpConf.items, cstr (bytes item.1) = bytes item.1 := by decide
  have hnodup : (TpConf.items.map fun item => bytes item.1).Nodup := by decide
  rcases setItem_cases tp i.name i.value with ⟨item', hitem', he, hs⟩ | ⟨hno, -⟩
  · rw [hname, hfree item hitem] at he
    rw [TpConf.apply, hs, Option.getD_some, List.inj_on_of_nodup_map hnodup hitem hitem' he]
  · exact absurd (by rw [hname, hfree item hitem]) (hno item hitem)

/-- **The items of a transport make it.** -/
theorem apply_itemCalls (h : Printable tp) : (itemCalls tp).foldl TpConf.apply (.blank tp.name) = tp := by
  have hstep : ∀ (l : List ((String × (TpConf → Bytes → TpConf)) × String × (TpConf → Bytes))) (t : TpConf),
      (∀ x ∈ l, x.1 ∈ TpConf.items) →
      (l.map fun x => (⟨tp.name, bytes x.1.1, x.2.2 tp⟩ : IniItem)).foldl TpConf.apply t =
        l.foldl (fun t x => x.1.2 t (x.2.2 tp)) t := by
    intro l
    induction l with
    | nil => exact fun _ _ => rfl
    | cons x l ih =>
      intro t hl
      rw [List.map_cons, List.foldl_cons, List.foldl_cons, apply_item (hl x List.mem_cons_self) rfl]
      exact ih _ fun y hy => hl y (List.mem_cons_of_mem x hy)
  rw [itemCalls, hstep _ _ fun x hx => (List.of_mem_zip hx).1]
  have hstr : ∀ f ∈ TpConf.strItems, some (cstr (text (f.2 tp))) = f.2 tp := by
    intro f hf
    obtain ⟨v, hv, hplain⟩ := h.strs f hf
    rw [hv, text, Option.map_some, Option.getD_some, cstr_cstr, cstr_of_nulFree hplain.nulFree]
  have hint : ∀ f ∈ TpConf.intItems, atoi (decimal (f.2 tp)) = f.2 tp :=
    fun f hf => atoi_decimal (h.ints f hf).1 (h.ints f hf).2
  have hlive := h.live
  simp only [TpConf.strItems, TpConf.intItems, List.forall_mem_cons] at hstr hint
  obtain ⟨h₁, h₂, h₃, h₄, h₅, h₆, -⟩ := hstr
  obtain ⟨h₇, h₈, h₉, h₁₀, h₁₁, -⟩ := hint
  simp only [TpConf.items, format, List.zip_cons_cons, List.zip_nil_right, List.foldl_cons,
    List.foldl_nil, TpConf.blank, h₁, h₂, h₃, h₄, h₅, h₆, h₇, h₈, h₉, h₁₀, h₁₁]
  rw [← hlive]

/-- Calls for the section of the last transport. -/
theorem iniTable_last {l : List TpConf} {k : Bytes} (hl : ∀ t ∈ l, NulFree t.name ∧ t.name ≠ k) :
    ∀ (cs : List IniItem) (t : TpConf), NulFree t.name → t.name = k → (∀ i ∈ cs, cstr i.section_ = k) →
      iniTable (l ++ [t]) cs = l ++ [cs.foldl TpConf.apply t]
  | [], _, _, _, _ => rfl
  | i :: cs, t, ht, hk, hcs => by
    have hnames : ∀ t' ∈ l ++ [t], NulFree t'.name := by
      intro t' ht'
      rcases List.mem_append.1 ht' with h | h
      · exact (hl t' h).1
      · rw [List.mem_singleton.1 h]
        exact ht
    have hhead : (tpIniHandler (l ++ [t]) i).2 = l ++ [t.apply i] := by
      rw [(tpIniHandler_eq hnames).1, hcs i List.mem_cons_self]
      exact Keyed.upsert_last (fun t' ht' => (hl t' ht').2) hk
    have hname := apply_name t i
    rw [iniTable, List.foldl_cons, hhead]
    exact iniTable_last hl cs _ (by rw [hname]; exact ht) (by rw [hname]; exact hk)
      fun j hj => hcs j (List.mem_cons_of_mem i hj)

/-- A transport that is not there yet is added. -/
theorem iniTable_itemCalls {l : List TpConf} (hl : ∀ t ∈ l, NulFree t.name ∧ t.name ≠ tp.name)
    (h : Printable tp) : iniTable l (itemCalls tp) = l ++ [tp] := by
  have hsection : ∀ i ∈ itemCalls tp, cstr i.section_ = tp.name := by
    intro i hi
    obtain ⟨x, -, rfl⟩ := List.mem_map.1 hi
    exact cstr_of_nulFree h.name.1
  have happly := apply_itemCalls h
  obtain ⟨i, cs, hcons⟩ : ∃ i cs, itemCalls tp = i :: cs := ⟨_, _, rfl⟩
  rw [hcons] at hsection happly ⊢
  have hhead : (tpIniHandler l i).2 = l ++ [(TpConf.blank tp.name).apply i] := by
    rw [(tpIniHandler_eq fun t ht => (hl t ht).1).1, hsection i List.mem_cons_self]
    exact Keyed.upsert_new fun t ht => (hl t ht).2
  rw [iniTable, List.foldl_cons, hhead]
  rw [List.foldl_cons] at happly
  have hname := apply_name (.blank tp.name) i
  conv_rhs => rw [← happly]
  exact iniTable_last hl cs _ (by rw [hname]; exact h.name.1) hname
    fun j hj => hsection j (List.mem_cons_of_mem i hj)

/-- **The items of a table make it.** -/
theorem iniTable_items : ∀ {tps : List TpConf} {l : List TpConf}, (∀ tp ∈ tps, Printable tp) →
    (tps.map TpConf.name).Nodup → (∀ t ∈ l, NulFree t.name ∧ ∀ tp ∈ tps, t.name ≠ tp.name) →
    iniTable l (tps.map itemCalls).flatten = l ++ tps
  | [], l, _, _, _ => by
    rw [List.append_nil]
    rfl
  | tp :: tps, l, h, hnd, hl => by
    have hnd' := List.nodup_cons.1 hnd
    have htp := h tp List.mem_cons_self
    rw [List.map_cons, List.flatten_cons, iniTable, List.foldl_append]
    have hblock := iniTable_itemCalls (fun t ht => ⟨(hl t ht).1, (hl t ht).2 tp List.mem_cons_self⟩) htp
    rw [iniTable] at hblock
    rw [hblock]
    have hrest := iniTable_items (l := l ++ [tp]) (fun t ht => h t (List.mem_cons_of_mem tp ht)) hnd'.2 ?_
    · rw [iniTable] at hrest
      rw [hrest, List.append_assoc, List.singleton_append]
    · intro t ht
      rcases List.mem_append.1 ht with ht | ht
      · exact ⟨(hl t ht).1, fun t' ht' => (hl t ht).2 t' (List.mem_cons_of_mem tp ht')⟩
      · rw [List.mem_singleton.1 ht]
        exact ⟨htp.name.1, fun t' ht' he => hnd'.1 (by rw [he]; exact List.mem_map_of_mem ht')⟩

/-! ## Round trips -/

/-- What is printed, line by line. -/
theorem printed_eq {xs : List (Bytes × TpConf)} (h : ∀ x ∈ xs, NulFree x.2.name) :
    printed xs = textOf (xs.map fun x => tpLines x.1 x.2).flatten := by
  induction xs with
  | nil => rfl
  | cons x xs ih =>
    have ih := ih fun y hy => h y (List.mem_cons_of_mem x hy)
    rw [printed] at ih ⊢
    rw [List.map_cons, List.flatten_cons, ih, printTp_eq _ (h x List.mem_cons_self), textOf, textOf,
      textOf, List.map_cons, List.flatten_cons, List.map_append, List.flatten_append]

/-- **The parser finds the items of what is printed**, and no bad line. -/
theorem events_printed {xs : List (Bytes × TpConf)} (h : ∀ x ∈ xs, Stamp x.1 ∧ Printable x.2) :
    (events (printed xs)).map Prod.snd = ((xs.map fun x => itemCalls x.2).flatten).map some := by
  have hshort : ∀ l ∈ (xs.map fun x => tpLines x.1 x.2).flatten, Short l := by
    intro l hl
    obtain ⟨ls, hls, hmem⟩ := List.mem_flatten.1 hl
    obtain ⟨x, hx, rfl⟩ := List.mem_map.1 hls
    exact tpLines_short (h x hx).1 (h x hx).2 l hmem
  have hread : ∀ (xs : List (Bytes × TpConf)) (r : Reader), (∀ x ∈ xs, Stamp x.1 ∧ Printable x.2) →
      readAll r (xs.map fun x => tpLines x.1 x.2).flatten =
        ((xs.map fun x => itemCalls x.2).flatten).map some := by
    intro xs
    induction xs with
    | nil => exact fun _ _ => rfl
    | cons x xs ih =>
      intro r h
      rw [List.map_cons, List.flatten_cons, readAll_append, ih _ fun y hy => h y (List.mem_cons_of_mem x hy),
        readAll_tpLines (h x List.mem_cons_self).1 (h x List.mem_cons_self).2, List.map_cons,
        List.flatten_cons, List.map_append]
  rw [printed_eq fun x hx => (h x hx).2.name.1, events_textOf hshort, hread xs _ h]

/-- **Printing and loading is the identity** on tables of complete and printable
    transports with different names. -/
theorem load_printed {xs : List (Bytes × TpConf)} (h : ∀ x ∈ xs, Stamp x.1 ∧ Printable x.2)
    (hcomplete : ∀ x ∈ xs, x.2.Complete) (hnd : (xs.map fun x => x.2.name).Nodup) {stack : Bytes}
    (hstack : stack.length = INI_MAX_LINE) :
    loadFile stack false [] (some (printed xs)) = some (.ok (xs.map Prod.snd)) := by
  have hsnd := events_printed h
  have hmap : (xs.map fun x => itemCalls x.2).flatten = ((xs.map Prod.snd).map itemCalls).flatten := by
    rw [List.map_map]
    rfl
  have htable : iniTable [] (calls (printed xs)) = xs.map Prod.snd := by
    rw [calls_eq, hsnd, List.filterMap_map, hmap]
    have hid : ∀ is : List IniItem, is.filterMap (id ∘ some) = is := fun is => List.filterMap_some
    rw [hid, iniTable_items (l := []), List.nil_append]
    · intro tp htp
      obtain ⟨x, hx, rfl⟩ := List.mem_map.1 htp
      exact (h x hx).2
    · rw [List.map_map]
      exact hnd
    · intro t ht
      cases ht
  rw [loadFile_ok_iff hstack, good_iff, hsnd, htable]
  refine ⟨?_, rfl, ?_⟩
  · intro y hy
    obtain ⟨i, hi, rfl⟩ := List.mem_map.1 hy
    obtain ⟨is, his, hmem⟩ := List.mem_flatten.1 hi
    obtain ⟨x, -, rfl⟩ := List.mem_map.1 his
    exact ⟨i, rfl, (item_letters i hmem).2.2.2⟩
  · intro tp htp
    obtain ⟨x, hx, rfl⟩ := List.mem_map.1 htp
    exact hcomplete x hx

/-! ## What has been loaded -/

/-- A transport of a file is printable, if its values are not too long and do not
    look like comments. -/
theorem printable_of_loaded {file : Bytes} (htp : tp ∈ iniTable [] (calls file)) (hcomplete : tp.Complete)
    (hvalues : ∀ f ∈ TpConf.strItems, ∀ v, f.2 tp = some v →
      Lines.Passes isspace (stop 0) false v ∧ v.length ≤ 176) : Printable tp := by
  obtain ⟨⟨hpiece, hlen, hpass⟩, hstr, hint⟩ := shape_of_loaded htp hcomplete
  refine ⟨⟨hpiece.nulFree, hpiece.newline, hlen, hpass⟩, fun f hf => ?_, hint, iniTable_live tp htp⟩
  obtain ⟨v, hv, hpiece, htrim⟩ := hstr f hf
  obtain ⟨hpass, hlen⟩ := hvalues f hf v hv
  exact ⟨v, hv, hpiece.nulFree, hpiece.newline, htrim, hpass, hlen⟩

/-- **What has been loaded can be printed and loaded again**: the lines in the log
    are a transport.ini for the same table. -/
theorem load_print_load {stack file : Bytes} (hstack : stack.length = INI_MAX_LINE)
    {xs : List (Bytes × TpConf)} (hstamp : ∀ x ∈ xs, Stamp x.1)
    (hload : loadFile stack false [] (some file) = some (.ok (xs.map Prod.snd)))
    (hvalues : ∀ x ∈ xs, ∀ f ∈ TpConf.strItems, ∀ v, f.2 x.2 = some v →
      Lines.Passes isspace (stop 0) false v ∧ v.length ≤ 176) :
    loadFile stack false [] (some (printed xs)) = some (.ok (xs.map Prod.snd)) := by
  obtain ⟨-, htable, hcomplete⟩ := (loadFile_ok_iff hstack file).1 hload
  have hmem : ∀ x ∈ xs, x.2 ∈ iniTable [] (calls file) := by
    intro x hx
    rw [← htable]
    exact List.mem_map_of_mem hx
  have hcomplete : ∀ x ∈ xs, x.2.Complete := fun x hx => hcomplete x.2 (List.mem_map_of_mem hx)
  refine load_printed (fun x hx => ⟨hstamp x hx,
    printable_of_loaded (hmem x hx) (hcomplete x hx) (hvalues x hx)⟩) hcomplete ?_ hstack
  have hnames : (iniTable [] (calls file)).map TpConf.name = sections (calls file) := iniTable_names
  rw [← htable, List.map_map] at hnames
  have hnodup : (sections (calls file)).Nodup := Keyed.nodup_firsts _
  rw [← hnames] at hnodup
  exact hnodup

end

/-- The log of the relay's transport is a transport.ini that loads it. -/
theorem load_print_load_relay :
    loadFile (List.replicate 200 7) false []
        (some (printed ((iniTable [] (calls relayFile)).map fun tp => (bytes "2024-01-01 00:00:00", tp)))) =
      some (.ok (((iniTable [] (calls relayFile)).map fun tp => (bytes "2024-01-01 00:00:00", tp)).map
        Prod.snd)) := by
  have hsnd : ((iniTable [] (calls relayFile)).map fun tp => (bytes "2024-01-01 00:00:00", tp)).map
      Prod.snd = iniTable [] (calls relayFile) := by
    rw [List.map_map]
    exact List.map_id _
  have hvalues : ∀ tp ∈ iniTable [] (calls relayFile), ∀ f ∈ TpConf.strItems, ∀ v ∈ f.2 tp,
      Lines.Passes isspace (stop 0) false v ∧ v.length ≤ 176 := by decide +kernel
  refine load_print_load List.length_replicate ?_ (by rw [hsnd]; exact relay_loads) ?_
  · have hstamp : Stamp (bytes "2024-01-01 00:00:00") :=
      ⟨by decide, by decide, by decide, by decide, by decide⟩
    intro x hx
    obtain ⟨tp, -, rfl⟩ := List.mem_map.1 hx
    exact hstamp
  · intro x hx
    obtain ⟨tp, htp, rfl⟩ := List.mem_map.1 hx
    exact hvalues tp htp

end Ini

end SmtpProxy
