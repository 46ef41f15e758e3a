/-
  `loadTpConfig` (transport.c) on the text of transport.ini.

  * `loadFile`: the parser and its handler `tpIniHandler`, then the checks;
  * `calls`, `firstFault`: the items of a file, and its first line that is bad or
    has an unknown item;
  * `loadFile_eq`: loading is `loadTpConfig` on those; `loadFile_ok_iff`: **what
    files load, and what they load**;
  * `calls_shape`: what a section, a name and a value look like;
  * `load_reformatted`: blank lines, comments and the blanks at the ends of lines
    do not matter.
-/
import SmtpProxy.Ini.Parse
import SmtpProxy.LoadConfig

namespace SmtpProxy.Ini

open CString

/-- `loadTpConfig`, on what `fopen` finds; `none`: the parser leaves its buffers. -/
def loadFile (stack : Bytes) (testTp : Bool) (transports : List TpConf) (file : Option Bytes) :
    Option (Except LoadExit (List TpConf)) :=
  (ini_parse tpIniHandler stack file transports).map fun r => do
    if r.1 ≠ 0 then throw (.iniError r.1)
    r.2.forM fun tp => tp.checkTp.mapError .check
    if testTp then throw .tested
    return r.2

/-- The items that the parser calls for. -/
def calls (file : Bytes) : List IniItem := (events file).filterMap Prod.snd

/-- An item of a transport. -/
def known (i : IniItem) : Bool := TpConf.items.any fun item => cstr i.name = bytes item.1

/-- A bad line, or one with an item that is not known. -/
def fault (e : Event) : Bool := !(e.2.any known)

/-- The line of the first fault, or 0. -/
def firstFault (file : Bytes) : ℕ := (((events file).find? fault).map Prod.fst).getD 0

section
variable {file : Bytes} {tps : List TpConf} {es : List Event} {r : List TpConf}

/-! ## The handler -/

theorem known_iff {i : IniItem} : known i = true ↔ ∃ item ∈ TpConf.items, cstr i.name = bytes item.1 := by
  simp [known]

theorem setItem_isSome (tp : TpConf) (i : IniItem) : (tp.setItem i.name i.value).isSome = known i := by
  rw [Bool.eq_iff_iff, known_iff]
  rcases setItem_cases tp i.name i.value with ⟨item, hitem, hname, hs⟩ | ⟨hno, hs⟩
  · simp only [hs, Option.isSome_some, true_iff]
    exact ⟨item, hitem, hname⟩
  · simp only [hs, Option.isSome_none, Bool.false_eq_true, false_iff, not_exists, not_and]
    exact hno

/-- The handler accepts the known items. -/
theorem tpIniHandler_accepts (tps : List TpConf) (i : IniItem) : (tpIniHandler tps i).1 = known i := by
  cases hfind : tps.findIdx? fun tp => strcmp tp.name i.section_ with
  | none => rw [tpIniHandler_new hfind, setItem_isSome]
  | some k =>
    obtain ⟨hlt, -⟩ := List.findIdx?_eq_some_iff_getElem.1 hfind
    rw [tpIniHandler_found hfind (List.getElem?_eq_getElem hlt), setItem_isSome]

/-- **What the parser makes of the transports, and what it returns.** -/
theorem deliver_eq (hes : ∀ e ∈ es, e.1 ≠ 0) (error : ℕ) :
    es.foldl (deliver tpIniHandler) (error, tps) =
      (if error = 0 then ((es.find? fault).map Prod.fst).getD 0 else error,
        iniTable tps (es.filterMap Prod.snd)) := by
  induction es generalizing error tps with
  | nil =>
    by_cases herr : error = 0
    · simp [iniTable, herr]
    · simp [iniTable, herr]
  | cons e es ih =>
    obtain ⟨n, x⟩ := e
    have hn : n ≠ 0 := hes (n, x) List.mem_cons_self
    have ih := fun tps => @ih tps fun e he => hes e (List.mem_cons_of_mem _ he)
    rw [List.foldl_cons]
    cases x with
    | none =>
      rw [deliver, ih, List.find?_cons_of_pos (by rfl), List.filterMap_cons_none (by rfl)]
      by_cases herr : error = 0
      · simp [herr, hn]
      · simp [herr]
    | some i =>
      have htable : iniTable (tpIniHandler tps i).2 (es.filterMap Prod.snd) =
          iniTable tps (((n, some i) :: es).filterMap Prod.snd) := by
        rw [List.filterMap_cons_some (by rfl)]
        rfl
      simp only [deliver, tpIniHandler_accepts]
      by_cases hi : known i = true
      · rw [if_pos hi, ih, htable, List.find?_cons_of_neg (by simp [fault, hi])]
      · rw [if_neg hi, ih, htable, List.find?_cons_of_pos (by simp [fault, hi])]
        by_cases herr : error = 0
        · simp [herr, hn]
        · simp [herr]

/-! ## Loading -/

/-- **Loading a file is `loadTpConfig` on its items and its first fault.** -/
theorem loadFile_eq {stack : Bytes} (hstack : stack.length = INI_MAX_LINE) (testTp : Bool) (file : Bytes) :
    loadFile stack testTp tps (some file) =
      some (loadTpConfig testTp tps (calls file) (firstFault file)) := by
  rw [loadFile, ini_parse, ini_parse_file_eq _ hstack, events,
    deliver_eq (eventsFrom_pos _ _ _), if_pos rfl]
  rfl

theorem fault_eq_false_iff {e : Event} : fault e = false ↔ ∃ i, e.2 = some i ∧ known i = true := by
  obtain ⟨n, _ | i⟩ := e
  · simp [fault]
  · simp [fault]

/-- A file without a fault. -/
theorem firstFault_eq_zero_iff :
    firstFault file = 0 ↔ ∀ e ∈ events file, ∃ i, e.2 = some i ∧ known i = true := by
  rw [firstFault]
  constructor
  · intro h e he
    rw [← fault_eq_false_iff]
    by_contra hno
    cases hfind : (events file).find? fault with
    | none =>
      exact hno (by simpa using List.find?_eq_none.1 hfind e he)
    | some e' =>
      rw [hfind] at h
      exact eventsFrom_pos _ _ _ e' (List.mem_of_find?_eq_some hfind) h
  · intro h
    have hnone : (events file).find? fault = none :=
      List.find?_eq_none.2 fun e he => by simpa using fault_eq_false_iff.2 (h e he)
    rw [hnone]
    rfl

theorem forM_checkTp_iff : (tps.forM fun tp => tp.checkTp.mapError LoadExit.check) = .ok () ↔
    ∀ tp ∈ tps, tp.checkTp = .ok () := by
  refine ⟨forM_checkTp, fun h => ?_⟩
  induction tps with
  | nil => rfl
  | cons tp tps ih =>
    rw [List.forM_eq_forM, List.forM_cons, bind_eq_ok_iff]
    exact ⟨(), mapError_eq_ok_iff.2 (h tp List.mem_cons_self),
      ih fun t ht => h t (List.mem_cons_of_mem tp ht)⟩

/-- A complete transport passes the checks. -/
theorem check_of_complete {tp : TpConf} (h : tp.Complete) : tp.checkTp = .ok () := by
  obtain ⟨host, hh⟩ := Option.ne_none_iff_exists'.1 h.host
  obtain ⟨port, hp⟩ := Option.ne_none_iff_exists'.1 h.port
  obtain ⟨username, hu⟩ := Option.ne_none_iff_exists'.1 h.username
  obtain ⟨password, hpw⟩ := Option.ne_none_iff_exists'.1 h.password
  obtain ⟨ssl, hs, hssl⟩ : ∃ ssl, tp.ssl = some ssl ∧
      (strcmp ssl (bytes "") ∨ strcmp ssl (bytes "SSL") ∨ strcmp ssl (bytes "TLS")) := by
    have hmem := h.ssl
    simp only [List.mem_cons, List.not_mem_nil, or_false] at hmem
    rcases hmem with hs | hs | hs
    · exact ⟨_, hs, .inl (by decide)⟩
    · exact ⟨_, hs, .inr (.inl (by decide))⟩
    · exact ⟨_, hs, .inr (.inr (by decide))⟩
  refine checkTp_ok_iff.2 ⟨⟨tp.name, host, port, ssl, bytes "LOGIN", username, password, tp.maxConn,
    tp.maxSendPerConn, tp.sleepSecondsPerSend, tp.maxNoop, tp.sleepSecondsPerNoop⟩, ?_, hssl, ?_,
    h.maxConn⟩
  · simp [TpConf.tp?, hh, hp, hs, h.auth, hu, hpw]
  · exact strcmp_iff.2 rfl

/-- **What files load, and what they load**: every line is blank, a comment, a
    section or a known item, and every section gets all that is required. -/
theorem loadFile_ok_iff {stack : Bytes} (hstack : stack.length = INI_MAX_LINE) (file : Bytes) :
    loadFile stack false [] (some file) = some (.ok r) ↔
      (∀ e ∈ events file, ∃ i, e.2 = some i ∧ known i = true) ∧ r = iniTable [] (calls file) ∧
        ∀ tp ∈ r, tp.Complete := by
  rw [loadFile_eq hstack, Option.some_inj, ← firstFault_eq_zero_iff]
  constructor
  · intro h
    have hzero : firstFault file = 0 := by
      by_contra hne
      unfold loadTpConfig at h
      dsimp only at h
      rw [if_pos (by exact_mod_cast hne)] at h
      cases h
    obtain ⟨rfl, hcheck⟩ := loadTpConfig_ok h
    exact ⟨hzero, rfl, fun tp htp => complete_of_check htp (hcheck tp htp)⟩
  · rintro ⟨hzero, rfl, hcomplete⟩
    have hforM := forM_checkTp_iff.2 fun tp htp => check_of_complete (hcomplete tp htp)
    unfold loadTpConfig
    dsimp only
    rw [hzero, if_neg (by simp)]
    exact bind_eq_ok_iff.2 ⟨(), hforM, rfl⟩

end

/-! ## What is called for -/

/-- What is left of a line: no NUL, no newline, and what `fgets` reads at most. -/
structure Piece (t : Bytes) : Prop where
  nulFree : NulFree t
  newline : 10 ∉ t
  length : t.length < INI_MAX_LINE

/-- The section, the name and the value that the handler is given. -/
structure Shape (i : IniItem) : Prop where
  section_ : Piece i.section_ ∧ i.section_.length < MAX_SECTION ∧
    Lines.Passes isspace (stop 93) false i.section_
  name : Piece i.name
  value : Piece i.value ∧ Lines.Trimmed isspace i.value

/-- The reader's section and name are parts of lines. -/
structure Reader.Shaped (r : Reader) : Prop where
  section_ : Piece r.section_ ∧ r.section_.length < MAX_SECTION ∧
    Lines.Passes isspace (stop 93) false r.section_
  prev : Piece r.prev

section
variable {t u : Bytes} {file : Bytes} {r : Reader}

theorem Piece.of_subset (h : Piece t) (hu : u ⊆ t) (hlen : u.length ≤ t.length) : Piece u :=
  ⟨fun hm => h.nulFree (hu hm), fun hm => h.newline (hu hm), Nat.lt_of_le_of_lt hlen h.length⟩

theorem Piece.of_infix (h : Piece t) (hu : u <:+: t) : Piece u := h.of_subset hu.subset hu.length_le

/-- A part is cut off in front, and one behind. -/
theorem Piece.cut (h : Piece t) (c : UInt8) : Piece (cut c t).1 ∧ Piece (cut c t).2 := by
  have heq := cut_append c t
  exact ⟨h.of_infix ⟨[], _, by rw [List.nil_append]; exact heq⟩,
    h.of_infix ⟨_, [], by rw [List.append_nil]; exact heq⟩⟩

theorem Piece.pair (h : Piece t) : Piece (pair t).1 ∧ Piece (pair t).2 := by
  unfold Ini.pair
  split
  · exact h.cut 61
  · exact h.cut 58

theorem Piece.trimEnd (h : Piece t) : Piece (t.rdropWhile isspace) :=
  h.of_infix (List.rdropWhile_prefix isspace (l := t)).isInfix

theorem Piece.trimStart (h : Piece t) : Piece (t.dropWhile isspace) :=
  h.of_infix (List.dropWhile_suffix isspace).isInfix

theorem Piece.tail (h : Piece t) : Piece t.tail := h.of_infix (List.tail_suffix t).isInfix

theorem valueOf_shape (h : Piece t) : Piece (valueOf t) ∧ Lines.Trimmed isspace (valueOf t) := by
  refine ⟨(h.trimStart.cut 0).1.trimEnd, ?_, List.rdropWhile_idempotent isspace _⟩
  refine Lines.dropWhile_of_isPrefix (t := t.dropWhile isspace) ?_ (List.dropWhile_idempotent isspace _)
  exact (List.rdropWhile_prefix isspace (l := (cut 0 (t.dropWhile isspace)).1)).trans
    ⟨_, cut_append 0 _⟩

theorem lineText_infix (n : ℕ) (l : Bytes) : lineText n l <:+: l := by
  have hcstr : cstr l <:+: l := (List.takeWhile_prefix _).isInfix
  unfold lineText
  split
  · unfold dropBom
    split
    · exact (List.drop_suffix 3 _).isInfix.trans hcstr
    · exact hcstr
  · exact hcstr

/-- A line, trimmed: its newline is gone. -/
theorem piece_line {l : Bytes} (hl : l ∈ linesOf file) (n : ℕ) :
    Piece ((lineText n l).rdropWhile isspace) := by
  obtain ⟨hlen, l', hnl, hl'⟩ := Lines.mem_chunks (by decide) hl
  have hpre := List.rdropWhile_prefix isspace (l := lineText n l)
  have hinf := lineText_infix n l
  refine ⟨fun hm => ?_, fun hm => ?_, ?_⟩
  · -- the text is a C string
    have hfree : NulFree (lineText n l) := by
      unfold lineText dropBom
      split
      · split
        · exact fun h => cstr_nulFree l (List.mem_of_mem_drop h)
        · exact cstr_nulFree l
      · exact cstr_nulFree l
    exact hfree (hpre.subset hm)
  · -- a newline is the last character of the line
    have hend : ∀ a b, l = a ++ 10 :: b → b = [] := by
      rintro a b rfl
      rcases hl' with h | h
      · exact absurd (by rw [← h]; simp) hnl
      · by_contra hne
        obtain ⟨b, c, rfl⟩ := List.eq_nil_or_concat'  b |>.resolve_left hne
        have hlast : a ++ 10 :: (b ++ [c]) = (a ++ 10 :: b) ++ [c] := by simp
        rw [hlast] at h
        exact hnl (by rw [← (List.append_inj' h rfl).1]; simp)
    obtain ⟨a, b, hab⟩ := List.append_of_mem hm
    obtain ⟨q, hq⟩ := hpre
    obtain ⟨x, y, hxy⟩ := hinf
    have hb : b ++ q ++ y = [] := hend (x ++ a) (b ++ q ++ y) (by
      rw [← hxy, ← hq, hab]
      simp)
    simp only [List.append_eq_nil_iff] at hb
    have hne : (lineText n l).rdropWhile isspace ≠ [] := by
      rw [hab]
      simp
    refine List.rdropWhile_last_not isspace _ hne ?_
    simp only [hab, hb.1.1, List.getLast_append_of_ne_nil, ne_eq, List.cons_ne_nil,
      not_false_eq_true, List.getLast_singleton]
    decide
  · have := hpre.length_le
    have := hinf.length_le
    have hmax : INI_MAX_LINE - 1 < INI_MAX_LINE := by decide
    omega

theorem piece_nil : Piece [] := ⟨List.not_mem_nil, List.not_mem_nil, by decide⟩

/-- The parts of an entry. -/
def Entry.Shaped : Entry → Prop
  | .more value => Piece value ∧ Lines.Trimmed isspace value
  | .section_ name => Piece name ∧ Lines.Passes isspace (stop 93) false name
  | .item name value => Piece name ∧ Piece value ∧ Lines.Trimmed isspace value
  | .blank | .bad => True

theorem entry_shaped (cont : Bool) {text : Bytes} (ht : Piece (text.rdropWhile isspace)) :
    (entry cont text).Shaped := by
  simp only [entry]
  split_ifs with hcomment hmore hsection hne
  · trivial
  · exact ⟨ht.trimStart, Lines.trimmed_trim text⟩
  · unfold sectionEntry
    split
    · exact ⟨(ht.trimStart.tail.cut 93).1, Lines.passes_cut false _⟩
    · trivial
  · unfold itemEntry
    split
    · exact ⟨ht.trimStart.pair.1.trimEnd, valueOf_shape ht.trimStart.pair.2.tail⟩
    · trivial
  · trivial

theorem Piece.take (h : Piece t) (n : ℕ) : Piece (t.take n) := h.of_infix (List.take_prefix n t).isInfix

/-- **A line keeps the reader's shape, and what is called for it has one.** -/
theorem read_shape (h : r.Shaped) {text : Bytes} (ht : Piece (text.rdropWhile isspace)) :
    (r.read text).1.Shaped ∧ ∀ i, (r.read text).2 = some (some i) → Shape i := by
  have hentry := entry_shaped (decide (r.prev ≠ [])) ht
  unfold Reader.read
  cases he : entry (decide (r.prev ≠ [])) text with
  | blank => exact ⟨h, fun i hi => by cases hi⟩
  | bad => exact ⟨h, fun i hi => by cases hi⟩
  | more value =>
    rw [he] at hentry
    refine ⟨h, fun i hi => ?_⟩
    obtain rfl := Option.some.inj (Option.some.inj hi)
    exact ⟨h.section_, h.prev, hentry⟩
  | section_ name =>
    rw [he] at hentry
    have hlen : (name.take (MAX_SECTION - 1)).length < MAX_SECTION := by
      rw [List.length_take]
      exact Nat.lt_of_le_of_lt (Nat.min_le_left _ _) (by decide)
    refine ⟨⟨⟨hentry.1.take _, hlen, hentry.2.of_isPrefix (List.take_prefix _ _)⟩, ?_⟩, fun i hi => by cases hi⟩
    exact piece_nil
  | item name value =>
    rw [he] at hentry
    refine ⟨⟨h.section_, hentry.1.take _⟩, fun i hi => ?_⟩
    obtain rfl := Option.some.inj (Option.some.inj hi)
    exact ⟨h.section_, hentry.1, hentry.2⟩

theorem eventsFrom_shape : ∀ (ls : List Bytes) (r : Reader) (n : ℕ), (∀ l ∈ ls, l ∈ linesOf file) →
    r.Shaped → ∀ e ∈ eventsFrom r n ls, ∀ i, e.2 = some i → Shape i
  | [], _, _, _, _, e, he => by cases he
  | l :: ls, r, n, hls, hr, e, he => by
    intro i hi
    obtain ⟨hnext, hcall⟩ := read_shape hr (piece_line (hls l List.mem_cons_self) n)
    rw [eventsFrom, List.mem_append] at he
    rcases he with he | he
    · obtain ⟨x, hx, rfl⟩ := Option.map_eq_some_iff.1 (Option.mem_toList.1 he)
      exact hcall i (by rw [hx, show x = some i from hi])
    · exact eventsFrom_shape ls _ _ (fun l' hl' => hls l' (List.mem_cons_of_mem l hl')) hnext e he i hi

/-- **What the handler is given**, for any file: a section of less than 50 bytes
    without a ']', names and values without a newline, and values without blanks
    at their ends. -/
theorem calls_shape (file : Bytes) : ∀ i ∈ calls file, Shape i := by
  intro i hi
  obtain ⟨e, he, hei⟩ := List.mem_filterMap.1 hi
  refine eventsFrom_shape (linesOf file) ⟨[], []⟩ 0 (fun _ hl => hl) ?_ e he i hei
  exact ⟨⟨piece_nil, by decide, trivial⟩, piece_nil⟩

/-! ## What is loaded -/

theorem iniTable_live {calls : List IniItem} : ∀ tp ∈ iniTable [] calls, tp.freed = false := by
  induction calls using List.reverseRecOn with
  | nil =>
    intro tp htp
    cases htp
  | append_singleton calls i ih =>
    rw [iniTable_snoc]
    exact tpIniHandler_live i ih

/-- A transport of a file: its name is a section, its strings are values of lines. -/
theorem shape_of_loaded {tp : TpConf} (htp : tp ∈ iniTable [] (calls file)) (hcomplete : tp.Complete) :
    (Piece tp.name ∧ tp.name.length < MAX_SECTION ∧ Lines.Passes isspace (stop 93) false tp.name) ∧
      (∀ f ∈ TpConf.strItems, ∃ v, f.2 tp = some v ∧ Piece v ∧ Lines.Trimmed isspace v) ∧
      ∀ f ∈ TpConf.intItems, -2 ^ 31 ≤ f.2 tp ∧ f.2 tp < 2 ^ 31 := by
  have hshape := calls_shape file
  have hset : ∀ f ∈ TpConf.strItems, f.2 tp ≠ none := by
    simp only [TpConf.strItems, List.forall_mem_cons]
    have hmem := hcomplete.ssl
    refine ⟨hcomplete.host, hcomplete.port, fun hn => ?_, fun hn => ?_, hcomplete.username,
      hcomplete.password, fun _ hm => absurd hm List.not_mem_nil⟩
    · rw [hn] at hmem
      simp at hmem
    · exact absurd (hcomplete.auth.symm.trans hn) (Option.some_ne_none _)
  refine ⟨?_, fun f hf => ?_, fun f hf => ?_⟩
  · have hname := List.mem_map_of_mem (f := TpConf.name) htp
    rw [iniTable_names] at hname
    obtain ⟨i, hi, he⟩ := mem_sections.1 hname
    rw [cstr_of_nulFree (hshape i hi).section_.1.nulFree] at he
    rw [← he]
    exact (hshape i hi).section_
  · obtain ⟨v, hv⟩ := Option.ne_none_iff_exists'.1 (hset f hf)
    have hlast := strItem_eq htp f hf
    rw [hv] at hlast
    obtain ⟨i, hi, he⟩ := Option.map_eq_some_iff.1 hlast.symm
    have hmem : i ∈ calls file := (List.mem_filter.1 (List.mem_of_getLast? hi)).1
    rw [cstr_of_nulFree (hshape i hmem).value.1.nulFree] at he
    rw [← he] at hv
    exact ⟨i.value, hv, (hshape i hmem).value⟩
  · rw [intItem_eq htp f hf]
    cases lastCall (calls file) tp.name f.1 with
    | none => decide
    | some i => exact atoi_range i.value

theorem not_mem_of_passes {c : UInt8} : ∀ {t : Bytes} {was : Bool},
    Lines.Passes isspace (stop c) was t → c ∉ t
  | [], _, _ => List.not_mem_nil
  | d :: t, was, h => by
    rw [List.mem_cons, not_or]
    refine ⟨?_, not_mem_of_passes h.2⟩
    rintro rfl
    have hstop := h.1
    simp [stop] at hstop

/-- **Whatever the file, what is loaded is well formed**: different names of less
    than 50 bytes without a ']', strings without a newline and without blanks at
    their ends, numbers that are `int`s; all that `checkTp` asks for; and no
    transport has been freed. -/
theorem loaded_well_formed {stack : Bytes} (hstack : stack.length = INI_MAX_LINE) {tps : List TpConf}
    (hload : loadFile stack false [] (some file) = some (.ok tps)) :
    (tps.map TpConf.name).Nodup ∧ ∀ tp ∈ tps, tp.freed = false ∧ tp.Complete ∧
      (tp.name.length < MAX_SECTION ∧ NulFree tp.name ∧ 93 ∉ tp.name ∧ 10 ∉ tp.name) ∧
      (∀ f ∈ TpConf.strItems, ∃ v, f.2 tp = some v ∧ NulFree v ∧ 10 ∉ v ∧ v.length < INI_MAX_LINE ∧
        v.dropWhile isspace = v ∧ v.rdropWhile isspace = v) ∧
      ∀ f ∈ TpConf.intItems, -2 ^ 31 ≤ f.2 tp ∧ f.2 tp < 2 ^ 31 := by
  obtain ⟨-, rfl, hcomplete⟩ := (loadFile_ok_iff hstack file).1 hload
  refine ⟨?_, fun tp htp => ?_⟩
  · rw [iniTable_names]
    exact Keyed.nodup_firsts _
  · obtain ⟨⟨hpiece, hlen, hpass⟩, hstr, hint⟩ := shape_of_loaded htp (hcomplete tp htp)
    have hname := not_mem_of_passes hpass
    refine ⟨iniTable_live tp htp, hcomplete tp htp, ⟨hlen, hpiece.nulFree, hname, hpiece.newline⟩, ?_, hint⟩
    intro f hf
    obtain ⟨v, hv, hpiece, htrim⟩ := hstr f hf
    exact ⟨v, hv, hpiece.nulFree, hpiece.newline, hpiece.length, htrim.1, htrim.2⟩

/-- The checks end the program with the text of the first that fails. -/
theorem forM_checkTp_error_iff : ∀ {tps : List TpConf} {e : LoadExit},
    (tps.forM fun tp => tp.checkTp.mapError LoadExit.check) = .error e ↔
      ∃ pre tp post text, tps = pre ++ tp :: post ∧ (∀ t ∈ pre, t.checkTp = .ok ()) ∧
        tp.checkTp = .error text ∧ e = .check text
  | [], e => by
    refine iff_of_false (fun h => by cases h) ?_
    rintro ⟨pre, tp, post, text, h, -⟩
    simp at h
  | t :: tps, e => by
    rw [List.forM_eq_forM, List.forM_cons]
    cases hcheck : t.checkTp with
    | error text =>
      constructor
      · intro h
        exact ⟨[], t, tps, text, rfl, fun _ hm => absurd hm List.not_mem_nil, hcheck,
          (Except.error.inj h).symm⟩
      · rintro ⟨pre, tp, post, text', h, hpre, htp, rfl⟩
        cases pre with
        | nil =>
          obtain ⟨rfl, -⟩ := List.cons.inj h
          rw [hcheck] at htp
          obtain rfl := Except.error.inj htp
          rfl
        | cons t' pre =>
          obtain ⟨rfl, -⟩ := List.cons.inj h
          have hok := hpre t List.mem_cons_self
          rw [hcheck] at hok
          cases hok
    | ok u =>
      refine (@forM_checkTp_error_iff tps _).trans ⟨?_, ?_⟩
      · rintro ⟨pre, tp, post, text, rfl, hpre, htp, he⟩
        exact ⟨t :: pre, tp, post, text, rfl, List.forall_mem_cons.2 ⟨hcheck, hpre⟩, htp, he⟩
      · rintro ⟨pre, tp, post, text, h, hpre, htp, he⟩
        cases pre with
        | nil =>
          obtain ⟨rfl, -⟩ := List.cons.inj h
          rw [hcheck] at htp
          cases htp
        | cons t' pre =>
          obtain ⟨rfl, rfl⟩ := List.cons.inj h
          exact ⟨pre, tp, post, text, rfl, fun t' ht => hpre t' (List.mem_cons_of_mem t ht), htp, he⟩

/-- A file with a fault ends the program. -/
theorem loadFile_fault {stack : Bytes} (hstack : stack.length = INI_MAX_LINE) {e : Event}
    (hfind : (events file).find? fault = some e) :
    loadFile stack false [] (some file) = some (.error (.iniError e.1)) := by
  have hpos : e.1 ≠ 0 := eventsFrom_pos _ _ _ e (List.mem_of_find?_eq_some hfind)
  have hfault : firstFault file = e.1 := by
    rw [firstFault, hfind]
    rfl
  rw [loadFile_eq hstack, loadTpConfig]
  dsimp only
  rw [hfault, if_pos (by exact_mod_cast hpos)]
  rfl

/-- A file without one leaves the checks. -/
theorem loadFile_checks {stack : Bytes} (hstack : stack.length = INI_MAX_LINE)
    (hfind : (events file).find? fault = none) :
    loadFile stack false [] (some file) = some (do
      (iniTable [] (calls file)).forM fun tp => tp.checkTp.mapError .check
      return iniTable [] (calls file)) := by
  have hzero : firstFault file = 0 := by
    rw [firstFault, hfind]
    rfl
  rw [loadFile_eq hstack, loadTpConfig]
  dsimp only
  rw [hzero, if_neg (by simp)]
  rfl

/-- The checks let the table pass, or end the program with a text. -/
theorem loadFile_checks_cases {stack : Bytes} (hstack : stack.length = INI_MAX_LINE)
    (hfind : (events file).find? fault = none) :
    loadFile stack false [] (some file) = some (.ok (iniTable [] (calls file))) ∨
      ∃ text, loadFile stack false [] (some file) = some (.error (.check text)) := by
  rw [loadFile_checks hstack hfind]
  cases hcheck : (iniTable [] (calls file)).forM fun tp => tp.checkTp.mapError LoadExit.check with
  | ok u => exact .inl rfl
  | error e =>
    obtain ⟨-, -, -, text, -, -, -, rfl⟩ := forM_checkTp_error_iff.1 hcheck
    exact .inr ⟨text, rfl⟩

/-- The line that ends the program is the first one with a fault. -/
theorem loadFile_iniError_iff {stack : Bytes} (hstack : stack.length = INI_MAX_LINE) (n : ℤ) :
    loadFile stack false [] (some file) = some (.error (.iniError n)) ↔
      ∃ e, (events file).find? fault = some e ∧ n = e.1 := by
  cases hfind : (events file).find? fault with
  | none =>
    -- then an error is one of the checks
    refine iff_of_false (fun h => ?_) fun ⟨e, he, _⟩ => by cases he
    rcases loadFile_checks_cases hstack hfind with hload | ⟨text, hload⟩
    · rw [hload] at h
      cases h
    · rw [hload] at h
      cases h
  | some e =>
    rw [loadFile_fault hstack hfind]
    constructor
    · intro h
      cases h
      exact ⟨e, rfl, rfl⟩
    · rintro ⟨e', he, rfl⟩
      obtain rfl := Option.some.inj he
      rfl

/-- The text that ends the program is that of the first transport that does not pass,
    when no line has a fault. -/
theorem loadFile_check_iff {stack : Bytes} (hstack : stack.length = INI_MAX_LINE) (text : Bytes) :
    loadFile stack false [] (some file) = some (.error (.check text)) ↔
      (∀ e ∈ events file, ∃ i, e.2 = some i ∧ known i = true) ∧ ∃ pre tp post,
        iniTable [] (calls file) = pre ++ tp :: post ∧ (∀ t ∈ pre, t.Complete) ∧
          tp.checkTp = .error text := by
  rw [← firstFault_eq_zero_iff]
  cases hfind : (events file).find? fault with
  | none =>
    have hzero : firstFault file = 0 := by
      rw [firstFault, hfind]
      rfl
    rw [loadFile_checks hstack hfind, Option.some_inj]
    constructor
    · intro h
      refine ⟨hzero, ?_⟩
      cases hcheck : (iniTable [] (calls file)).forM fun tp => tp.checkTp.mapError LoadExit.check with
      | error e =>
        rw [hcheck] at h
        obtain rfl := Except.error.inj h
        obtain ⟨pre, tp, post, text', htps, hpre, htp, he⟩ := forM_checkTp_error_iff.1 hcheck
        obtain rfl := LoadExit.check.inj he
        refine ⟨pre, tp, post, htps, fun t ht => ?_, htp⟩
        have hmem : t ∈ iniTable [] (calls file) := by simp [htps, ht]
        exact complete_of_check hmem (hpre t ht)
      | ok u =>
        rw [hcheck] at h
        cases h
    · rintro ⟨-, pre, tp, post, htps, hpre, htp⟩
      have herr := forM_checkTp_error_iff.2 ⟨pre, tp, post, text, htps,
        fun t ht => check_of_complete (hpre t ht), htp, rfl⟩
      rw [herr]
      rfl
  | some e =>
    have hpos : e.1 ≠ 0 := eventsFrom_pos _ _ _ e (List.mem_of_find?_eq_some hfind)
    rw [loadFile_fault hstack hfind, firstFault, hfind]
    refine iff_of_false (fun h => by cases h) fun h => hpos h.1

/-- No file is only tested. -/
theorem loadFile_ends {stack : Bytes} (hstack : stack.length = INI_MAX_LINE) (file : Bytes) :
    ∃ r, loadFile stack false [] (some file) = some r ∧ r ≠ .error .tested := by
  cases hfind : (events file).find? fault with
  | none =>
    rcases loadFile_checks_cases hstack hfind with hload | ⟨text, hload⟩
    · exact ⟨_, hload, fun h => by cases h⟩
    · exact ⟨_, hload, fun h => by cases h⟩
  | some e => exact ⟨_, loadFile_fault hstack hfind, fun h => by cases h⟩

/-- **Every ending of loading a file**: it loads iff every line is blank, a comment,
    a section or a known item and every section has all that is required, and then
    it loads the table of its items; it ends with `ini_parse error(n)` iff the first
    line that is not such a line is the `n`-th; with what `checkTp` logs iff there
    is no such line, and this is the first transport that does not pass; there is no
    other ending. A file that cannot be opened ends with `ini_parse error(-1)`. -/
theorem load_verdict {stack : Bytes} (hstack : stack.length = INI_MAX_LINE) (file : Bytes) :
    (∀ tps, loadFile stack false [] (some file) = some (.ok tps) ↔
      (∀ e ∈ events file, ∃ i, e.2 = some i ∧ known i = true) ∧ tps = iniTable [] (calls file) ∧
        ∀ tp ∈ tps, tp.Complete) ∧
      (∀ n : ℤ, loadFile stack false [] (some file) = some (.error (.iniError n)) ↔
        ∃ e, (events file).find? fault = some e ∧ n = e.1) ∧
      (∀ text, loadFile stack false [] (some file) = some (.error (.check text)) ↔
        (∀ e ∈ events file, ∃ i, e.2 = some i ∧ known i = true) ∧ ∃ pre tp post,
          iniTable [] (calls file) = pre ++ tp :: post ∧ (∀ t ∈ pre, t.Complete) ∧
            tp.checkTp = .error text) ∧
      (∃ r, loadFile stack false [] (some file) = some r ∧ r ≠ .error .tested) ∧
      loadFile stack false [] none = some (.error (.iniError (-1))) :=
  ⟨fun _ => loadFile_ok_iff hstack file, loadFile_iniError_iff hstack, loadFile_check_iff hstack,
    loadFile_ends hstack file, rfl⟩

/-! ## Reformatting -/

/-- The text of lines. -/
def textOf (ls : List Bytes) : Bytes := (ls.map (· ++ [10])).flatten

/-- A line that is read whole. -/
structure Short (l : Bytes) : Prop where
  nulFree : NulFree l
  newline : 10 ∉ l
  length : l.length < INI_MAX_LINE - 1
  bom : l.take 3 ≠ [0xEF, 0xBB, 0xBF]

/-- A line that says nothing: blank, or a comment. -/
def silent (l : Bytes) : Bool :=
  match ((l.rdropWhile isspace).dropWhile isspace).head? with
  | none => true
  | some c => c = 59 || c = 35

/-- What is left of lines without the blanks at their ends, and without those
    that say nothing. -/
def significant (ls : List Bytes) : List Bytes :=
  (ls.map fun l => l.rdropWhile isspace).filter fun l => !silent l

/-- The calls and the bad lines of texts that are read one after the other. -/
def readAll (r : Reader) : List Bytes → List (Option IniItem)
  | [] => []
  | l :: ls => (r.read l).2.toList ++ readAll (r.read l).1 ls

theorem linesOf_textOf {ls : List Bytes} (h : ∀ l ∈ ls, Short l) : linesOf (textOf ls) = ls.map (· ++ [10]) := by
  have hlines := Lines.chunks_lines (n := INI_MAX_LINE - 1)
    (fun l hl => ⟨(h l hl).newline, (h l hl).length⟩) []
  rw [List.append_nil, Lines.chunks_nil, List.append_nil] at hlines
  exact hlines

theorem entry_congr {l l' : Bytes} (cont : Bool) (h : l.rdropWhile isspace = l'.rdropWhile isspace) :
    entry cont l = entry cont l' := by
  simp only [entry, h]

theorem entry_silent {l : Bytes} (h : silent l = true) (cont : Bool) : entry cont l = .blank := by
  unfold silent at h
  simp only [entry]
  cases hs : ((l.rdropWhile isspace).dropWhile isspace).head? with
  | none => simp [List.head?_eq_none_iff.1 hs]
  | some c =>
    rw [hs] at h
    rw [if_pos (by simpa using h)]

/-- The line after `n` others is read without its newline. -/
theorem read_short {l : Bytes} (h : Short l) (r : Reader) (n : ℕ) :
    r.read (lineText n (l ++ [10])) = r.read l := by
  have hcstr : cstr (l ++ [10]) = l ++ [10] := cstr_of_nulFree (h.nulFree.append (by decide))
  have hbom : dropBom (l ++ [10]) = l ++ [10] := by
    refine if_neg fun ht => ?_
    by_cases hlen : 3 ≤ l.length
    · rw [List.take_append_of_le_length hlen] at ht
      exact h.bom ht
    · have hmem : (10 : UInt8) ∈ (l ++ [10]).take 3 := by
        rw [List.take_of_length_le (by rw [List.length_append]; exact Nat.lt_of_not_le hlen)]
        simp
      rw [ht] at hmem
      exact absurd hmem (by decide)
  have htext : lineText n (l ++ [10]) = l ++ [10] := by
    unfold lineText
    split
    · rw [hcstr, hbom]
    · exact hcstr
  rw [htext, Reader.read, Reader.read]
  congr 1
  exact entry_congr _ (List.rdropWhile_concat_pos _ _ _ (by decide))

/-- The events are those of the lines, read one after the other. -/
theorem eventsFrom_eq : ∀ (ls : List Bytes) (r : Reader) (n : ℕ), (∀ l ∈ ls, Short l) →
    (eventsFrom r n (ls.map (· ++ [10]))).map Prod.snd = readAll r ls
  | [], _, _, _ => rfl
  | l :: ls, r, n, h => by
    have ih := fun r n => eventsFrom_eq ls r n fun l' hl' => h l' (List.mem_cons_of_mem l hl')
    rw [List.map_cons, eventsFrom, List.map_append, ih, read_short (h l List.mem_cons_self), readAll]
    congr 1
    cases (r.read l).2 with
    | none => rfl
    | some e => rfl

/-- **Only the significant lines matter.** -/
theorem readAll_significant : ∀ (ls : List Bytes) (r : Reader), readAll r ls = readAll r (significant ls)
  | [], _ => rfl
  | l :: ls, r => by
    have hread : r.read l = r.read (l.rdropWhile isspace) := by
      rw [Reader.read, Reader.read, entry_congr _ (List.rdropWhile_idempotent isspace l).symm]
    have hsilent : silent (l.rdropWhile isspace) = silent l := by
      unfold silent
      rw [List.rdropWhile_idempotent]
    have hcons : significant (l :: ls) =
        if silent l then significant ls else l.rdropWhile isspace :: significant ls := by
      rw [significant, List.map_cons]
      cases hs : silent l with
      | true => exact List.filter_cons_of_neg (by simp [hsilent, hs])
      | false => exact List.filter_cons_of_pos (by simp [hsilent, hs])
    rw [readAll, readAll_significant ls, hcons, hread]
    cases hs : silent l with
    | true =>
      rw [if_pos rfl, Reader.read, entry_silent (by rw [hsilent, hs])]
      rfl
    | false =>
      rw [if_neg Bool.false_ne_true, readAll]

/-- The calls and the bad lines of a file of short lines. -/
theorem events_textOf {ls : List Bytes} (h : ∀ l ∈ ls, Short l) :
    (events (textOf ls)).map Prod.snd = readAll ⟨[], []⟩ ls := by
  rw [events, linesOf_textOf h, eventsFrom_eq ls _ _ h]

theorem calls_eq (file : Bytes) : calls file = ((events file).map Prod.snd).filterMap id := by
  rw [calls, List.filterMap_map]
  rfl

theorem good_iff (file : Bytes) : (∀ e ∈ events file, ∃ i, e.2 = some i ∧ known i = true) ↔
    ∀ x ∈ (events file).map Prod.snd, ∃ i, x = some i ∧ known i = true := by
  rw [List.forall_mem_map]

end

/-! ## A file -/

/-- A transport.ini with one transport. -/
def relayFile : Bytes :=
  bytes "# the relay\n[relay]\nhost = h ; here\nport=25\nssl=\nauth=LOGIN\nusername=u\npassword=p\nmaxConn: 2\n"

theorem relay_complete : ∀ tp ∈ iniTable [] (calls relayFile), tp.Complete := by
  have hcheck : ∀ tp ∈ iniTable [] (calls relayFile), tp.checkTp = .ok () := by decide +kernel
  exact fun tp htp => complete_of_check htp (hcheck tp htp)

theorem relay_good : ∀ e ∈ events relayFile, fault e = false := by decide +kernel

theorem relay_loads : loadFile (List.replicate 200 7) false [] (some relayFile) =
    some (.ok (iniTable [] (calls relayFile))) := by
  refine (loadFile_ok_iff List.length_replicate relayFile).2 ⟨?_, rfl, relay_complete⟩
  exact fun e he => fault_eq_false_iff.1 (relay_good e he)

theorem loaded_well_formed_relay : ((iniTable [] (calls relayFile)).map TpConf.name).Nodup ∧
    ∀ tp ∈ iniTable [] (calls relayFile), tp.freed = false ∧ 93 ∉ tp.name ∧ tp.maxConn < 2 ^ 31 := by
  obtain ⟨hnodup, htps⟩ := loaded_well_formed List.length_replicate relay_loads
  refine ⟨hnodup, fun tp htp => ?_⟩
  obtain ⟨hlive, -, ⟨-, -, hname, -⟩, -, hints⟩ := htps tp htp
  exact ⟨hlive, hname, (hints ("maxConn", TpConf.maxConn) (by simp [TpConf.intItems])).2⟩

/-- A transport.ini with a second transport that has no port. -/
def portlessFile : Bytes := relayFile ++ bytes "[other]\nhost=h\n"

theorem portless_good : ∀ e ∈ events portlessFile, fault e = false := by decide +kernel

theorem load_verdict_relay :
    (∃ tps, loadFile (List.replicate 200 7) false [] (some relayFile) = some (.ok tps) ∧ tps.length = 1) ∧
      loadFile (List.replicate 200 7) false [] (some (bytes "[a]\nhost=h\nhots=h\n")) =
        some (.error (.iniError 3)) ∧
      loadFile (List.replicate 200 7) false [] (some portlessFile) =
        some (.error (.check (bytes "[TP CONFIG] tp->port required\n"))) := by
  have hstack : (List.replicate 200 (7 : UInt8)).length = INI_MAX_LINE := List.length_replicate
  obtain ⟨hok, -⟩ := load_verdict hstack relayFile
  obtain ⟨-, herr, -⟩ := load_verdict hstack (bytes "[a]\nhost=h\nhots=h\n")
  obtain ⟨-, -, hcheck, -⟩ := load_verdict hstack portlessFile
  refine ⟨⟨iniTable [] (calls relayFile), (hok _).2 ⟨fun e he => fault_eq_false_iff.1 (relay_good e he), rfl,
    relay_complete⟩, by decide +kernel⟩, (herr 3).2 ⟨(3, some ⟨bytes "a", bytes "hots", bytes "h"⟩), ?_, rfl⟩,
    (hcheck _).2 ⟨fun e he => fault_eq_false_iff.1 (portless_good e he), ?_⟩⟩
  · decide +kernel
  · have hsplit : iniTable [] (calls portlessFile) = iniTable [] (calls relayFile) ++
        [{ TpConf.blank (bytes "other") with host := some (bytes "h") }] := by decide +kernel
    exact ⟨iniTable [] (calls relayFile), _, [], hsplit, relay_complete, by decide +kernel⟩

/-- The lines of another file for it, with carriage returns and without the comment. -/
def relayLines : List Bytes :=
  ["[relay]\r", "host = h ; here\r", "port=25\r", "", "ssl=", "auth=LOGIN  ", "username=u", "password=p",
    "maxConn: 2"].map bytes

end SmtpProxy.Ini
