/-
  `ini_parse_file` (ini.c), with any handler, and what it reads a file as.

  * `Parser.body` is the body of the loop, on the buffers of the function;
    `none`: a byte outside of a buffer is touched;
  * `entry` says what a line is, `Reader.read` what is called for it, and `events`
    what a whole file has to say: calls and bad lines, with their line numbers;
  * `ini_parse_file_eq`: **the parser stays inside its buffers, and delivers the
    events of the file**, whatever the buffers held before.
-/
import SmtpProxy.Config
import SmtpProxy.Ini.Scan

namespace SmtpProxy.Ini

open CString

def MAX_SECTION : ℕ := 50
def MAX_NAME : ℕ := 50
def INI_MAX_LINE : ℕ := 200

/-- The locals of `ini_parse_file`, and what `user` points to.  `lineno` and `error`
    are `int`s in the source: the same in a file of less than `2 ^ 31` lines, which is
    what all files here are taken to be. -/
structure Parser (σ : Type) where
  line : Bytes
  section_ : Bytes
  prev_name : Bytes
  lineno : ℕ
  error : ℕ
  user : σ

/-- The first '=' of the string at `start`, or else the first ':'. -/
def findSeparator (line : Bytes) (start : ℕ) : Option ℕ := do
  let stop ← find_char_or_comment line start 61
  let c ← (line)[stop]?
  if c ≠ 61 then find_char_or_comment line start 58 else some stop

/-- `end = find_char_or_comment(value, '\0'); if (*end == ';') *end = '\0';` -/
def cutComment (line : Bytes) (value : ℕ) : Option Bytes := do
  let stop ← find_char_or_comment line value 0
  let c ← (line)[stop]?
  if c = 59 then putByte line stop 0 else some line

variable {σ : Type} (handler : σ → IniItem → Bool × σ)

namespace Parser

/-- `if (!error) error = lineno;` -/
def fail (p : Parser σ) : Parser σ := { p with error := if p.error = 0 then p.lineno else p.error }

/-- `if (!handler(user, section, name, value) && !error) error = lineno;`, for the
    memory at `name` and `value`. -/
def call (p : Parser σ) (name value : Bytes) : Parser σ :=
  let r := handler p.user ⟨cstr p.section_, cstr name, cstr value⟩
  if r.1 then { p with user := r.2 } else { p with user := r.2 }.fail

/-- A "[section]" line. -/
def sectionLine (p : Parser σ) (start : ℕ) : Option (Parser σ) := do
  let stop ← find_char_or_comment p.line (start + 1) 93
  if (← p.line[stop]?) = 93 then
    let line ← putByte p.line stop 0
    let section_ ← strncpy0 p.section_ (line.drop (start + 1)) MAX_SECTION
    let prev_name ← putByte p.prev_name 0 0
    some { p with line, section_, prev_name }
  else some p.fail  -- no ']' found on section line

/-- A name[=:]value line. -/
def itemLine (p : Parser σ) (start : ℕ) : Option (Parser σ) := do
  let stop ← findSeparator p.line start
  let c ← p.line[stop]?
  if c = 61 || c = 58 then
    let line ← putByte p.line stop 0
    let line ← rstrip line start  -- `name`
    let value ← lskip line (stop + 1)
    let line ← cutComment line value
    let line ← rstrip line value
    let prev_name ← strncpy0 p.prev_name (line.drop start) MAX_NAME
    some ({ p with line, prev_name }.call handler (line.drop start) (line.drop value))
  else some p.fail  -- no '=' or ':' found

/-- The loop's body, once a line has been read. -/
def body (p : Parser σ) : Option (Parser σ) := do
  let p := { p with lineno := p.lineno + 1 }
  let start := if p.lineno = 1 ∧ p.line.take 3 = [0xEF, 0xBB, 0xBF] then 3 else 0
  let line ← rstrip p.line start
  let start ← lskip line start
  let p := { p with line }
  let c ← (line)[start]?
  let prev ← p.prev_name[0]?
  if c = 59 || c = 35 then some p  -- a comment
  else if prev ≠ 0 && c ≠ 0 && start > 0 then
    -- a continuation of the previous name's value
    some (p.call handler p.prev_name (line.drop start))
  else if c = 91 then p.sectionLine start
  else if c ≠ 0 && c ≠ 59 then p.itemLine handler start
  else some p

end Parser

theorem fgets_lt {m line rest file : Bytes} {size : ℕ}
    (h : fgets m size file = some (some (line, rest))) (hsize : 2 ≤ size) :
    rest.length < file.length := by
  unfold fgets at h
  split at h
  · cases h
  · split at h
    · cases h
    · rename_i hfile
      cases h
      exact Lines.length_next_lt (by omega) hfile

/-- `while (fgets(line, INI_MAX_LINE, file) != NULL)` -/
def parseLoop (p : Parser σ) (file : Bytes) : Option (Parser σ) :=
  match h : fgets p.line INI_MAX_LINE file with
  | none => none
  | some none => some p
  | some (some (line, rest)) =>
    have : rest.length < file.length := fgets_lt h (by decide)
    ({ p with line }.body handler).bind fun p => parseLoop p rest
termination_by file.length

/-- `ini_parse_file`: its result, and `*user`; `stack` is what `line` holds before. -/
def ini_parse_file (stack file : Bytes) (user : σ) : Option (ℕ × σ) := do
  let p ← parseLoop handler ⟨stack, List.replicate MAX_SECTION 0, List.replicate MAX_NAME 0, 0, 0, user⟩
    file
  some (p.error, p.user)

/-- `ini_parse`; `none` for the file: it cannot be opened. -/
def ini_parse (stack : Bytes) (file : Option Bytes) (user : σ) : Option (ℤ × σ) :=
  match file with
  | none => some (-1, user)
  | some file => (ini_parse_file handler stack file user).map fun r => (r.1, r.2)

/-! ## What a file says -/

/-- What a line is. -/
inductive Entry where
  | blank  -- nothing, or a comment
  | more (value : Bytes)  -- one more value for the name before
  | section_ (name : Bytes)
  | item (name value : Bytes)
  | bad
  deriving DecidableEq

/-- A line that begins with '[', without it. -/
def sectionEntry (q : Bytes) : Entry :=
  if (cut 93 q).2.head? = some 93 then .section_ (cut 93 q).1 else .bad

/-- A line at the first '=', or else at the first ':'. -/
def pair (s : Bytes) : Bytes × Bytes := if (cut 61 s).2.head? = some 61 then cut 61 s else cut 58 s

/-- A value, up to a comment. -/
def valueOf (t : Bytes) : Bytes := (cut 0 (t.dropWhile isspace)).1.rdropWhile isspace

def itemEntry (s : Bytes) : Entry :=
  if (pair s).2.head? = some 61 ∨ (pair s).2.head? = some 58 then
    .item ((pair s).1.rdropWhile isspace) (valueOf (pair s).2.tail)
  else .bad

/-- What the line `text` is, `cont`: where there is a name to continue. -/
def entry (cont : Bool) (text : Bytes) : Entry :=
  let t := text.rdropWhile isspace
  let s := t.dropWhile isspace
  if s.head? = some 59 ∨ s.head? = some 35 then .blank
  else if cont ∧ s ≠ [] ∧ s ≠ t then .more s
  else if s.head? = some 91 then sectionEntry s.tail
  else if s ≠ [] then itemEntry s
  else .blank

/-- The section, and the name to continue (or nothing), from line to line. -/
structure Reader where
  section_ : Bytes
  prev : Bytes
  deriving DecidableEq

/-- What is called for a line, or that it is bad. -/
def Reader.apply (r : Reader) : Entry → Reader × Option (Option IniItem)
  | .blank => (r, none)
  | .more value => (r, some (some ⟨r.section_, r.prev, value⟩))
  | .section_ name => (⟨name.take (MAX_SECTION - 1), []⟩, none)
  | .item name value => ({ r with prev := name.take (MAX_NAME - 1) }, some (some ⟨r.section_, name, value⟩))
  | .bad => (r, some none)

def Reader.read (r : Reader) (text : Bytes) : Reader × Option (Option IniItem) :=
  r.apply (entry (r.prev ≠ []) text)

/-- A byte order mark is skipped. -/
def dropBom (text : Bytes) : Bytes := if text.take 3 = [0xEF, 0xBB, 0xBF] then text.drop 3 else text

/-- The text of the line after `n` others. -/
def lineText (n : ℕ) (l : Bytes) : Bytes := if n = 0 then dropBom (cstr l) else cstr l

/-- An item that is called for, or a bad line; with the line's number. -/
abbrev Event := ℕ × Option IniItem

/-- The events of the lines after `n` others. -/
def eventsFrom (r : Reader) (n : ℕ) : List Bytes → List Event
  | [] => []
  | l :: ls =>
    ((r.read (lineText n l)).2.map fun e => (n + 1, e)).toList ++
      eventsFrom (r.read (lineText n l)).1 (n + 1) ls

/-- The lines of a file, as they are read. -/
def linesOf (file : Bytes) : List Bytes := Lines.chunks 10 (INI_MAX_LINE - 1) file

def events (file : Bytes) : List Event := eventsFrom ⟨[], []⟩ 0 (linesOf file)

/-- An event is delivered: the line of the first error so far, and `*user`. -/
def deliver (x : ℕ × σ) (e : Event) : ℕ × σ :=
  let error := if x.1 = 0 then e.1 else x.1
  match e.2 with
  | none => (error, x.2)
  | some i => if (handler x.2 i).1 then (x.1, (handler x.2 i).2) else (error, (handler x.2 i).2)

/-! ## The parser and the reader -/

/-- A buffer of `size` bytes that holds the string `t`. -/
def Holds (size : ℕ) (m t : Bytes) : Prop := (∃ r, m = t ++ 0 :: r) ∧ NulFree t ∧ m.length = size

theorem Holds.cstr {size : ℕ} {m t : Bytes} (h : Holds size m t) : CString.cstr m = t := by
  obtain ⟨⟨r, rfl⟩, ht, -⟩ := h
  exact cstr_append_zero ht r

/-- The state of the parser is that of the reader. -/
structure Tracks (p : Parser σ) (r : Reader) : Prop where
  line : p.line.length = INI_MAX_LINE
  section_ : Holds MAX_SECTION p.section_ r.section_
  prev : Holds MAX_NAME p.prev_name r.prev
  first : p.lineno = 0 → r.prev = []

/-- What becomes of the error and of `*user`. -/
def outcome (p : Parser σ) (e : Option (Option IniItem)) : ℕ × σ :=
  match e with
  | none => (p.error, p.user)
  | some e => deliver handler (p.error, p.user) (p.lineno, e)

/-- The parser has dealt with an entry. -/
structure Done (p : Parser σ) (r : Reader) (e : Entry) (p' : Parser σ) : Prop where
  tracks : Tracks p' (r.apply e).1
  lineno : p'.lineno = p.lineno
  outcome : (p'.error, p'.user) = outcome handler p (r.apply e).2

section
variable {handler} {p : Parser σ} {r : Reader} {a s v : Bytes}

theorem done_fail (h : Tracks p r) : Done handler p r .bad p.fail := by
  refine ⟨⟨h.line, h.section_, h.prev, h.first⟩, rfl, ?_⟩
  rfl

variable (handler) in
theorem call_eq (hsec : Holds MAX_SECTION p.section_ r.section_) (name value : Bytes) :
    (p.call handler name value).line = p.line ∧
      (p.call handler name value).section_ = p.section_ ∧
      (p.call handler name value).prev_name = p.prev_name ∧
      (p.call handler name value).lineno = p.lineno ∧
      ((p.call handler name value).error, (p.call handler name value).user) =
        deliver handler (p.error, p.user) (p.lineno, some ⟨r.section_, cstr name, cstr value⟩) := by
  simp only [Parser.call, deliver, hsec.cstr]
  split
  · exact ⟨rfl, rfl, rfl, rfl, rfl⟩
  · exact ⟨rfl, rfl, rfl, rfl, rfl⟩

/-- `*end == c` says that the cut is at `c`. -/
theorem headD_eq_iff {t : Bytes} {c : UInt8} (hc : c ≠ 0) : t.headD 0 = c ↔ t.head? = some c := by
  cases t with
  | nil => simp [hc.symm]
  | cons d t => simp

/-- The block at a cut. -/
theorem split_at (a : Bytes) (c : UInt8) (t v : Bytes) :
    a ++ (t ++ 0 :: v) = (a ++ (cut c t).1) ++ ((cut c t).2 ++ 0 :: v) := by
  conv_lhs => rw [← cut_append c t]
  simp only [List.append_assoc]

/-- The string is cut off. -/
theorem putByte_at {t : Bytes} (ht : t ≠ []) (a v : Bytes) (c : UInt8) :
    putByte (a ++ (t ++ v)) a.length c = some (a ++ (c :: t.tail ++ v)) := by
  obtain ⟨d, t, rfl⟩ := List.exists_cons_of_ne_nil ht
  exact putByte_append a (t ++ v) d c

theorem ne_nil_of_head {t : Bytes} {c : UInt8} (h : t.head? = some c) : t ≠ [] := by
  rintro rfl
  cases h

variable (handler) in
/-- **A section line.** -/
theorem sectionLine_done (h : Tracks p r) {q : Bytes} (hline : p.line = a ++ (91 :: q ++ 0 :: v))
    (hq : NulFree q) : ∃ p', p.sectionLine a.length = some p' ∧ Done handler p r (sectionEntry q) p' := by
  have hshift : p.line = (a ++ [91]) ++ (q ++ 0 :: v) := by rw [hline]; simp
  have hstart : a.length + 1 = (a ++ [91]).length := by simp
  have hcut := split_at (a ++ [91]) 93 q v
  have hstop : find_char_or_comment p.line (a.length + 1) 93 =
      some ((a ++ [91]) ++ (cut 93 q).1).length := by
    rw [hshift, hstart, find_at _ hq, @List.length_append _ (a ++ [91])]
  have hbyte : p.line[((a ++ [91]) ++ (cut 93 q).1).length]? = some ((cut 93 q).2.headD 0) := by
    rw [hshift, hcut, byte_at]
  simp only [Parser.sectionLine, hstop, hbyte, Option.bind_eq_bind, Option.bind_some, sectionEntry,
    headD_eq_iff (show (93 : UInt8) ≠ 0 by decide)]
  by_cases hhead : (cut 93 q).2.head? = some 93
  · have hput := putByte_at (ne_nil_of_head hhead) ((a ++ [91]) ++ (cut 93 q).1) (0 :: v) 0
    rw [← hcut, ← hshift] at hput
    obtain ⟨d, hcopy, hlen⟩ := strncpy0_at h.section_.2.2 (by decide : MAX_SECTION ≠ 0)
      (cut_nulFree (c := 93) hq).1 ((cut 93 q).2.tail ++ 0 :: v)
    have hdrop : ((a ++ [91]) ++ (cut 93 q).1 ++ (0 :: (cut 93 q).2.tail ++ 0 :: v)).drop (a.length + 1) =
        (cut 93 q).1 ++ 0 :: ((cut 93 q).2.tail ++ 0 :: v) := by
      rw [hstart, List.append_assoc (a ++ [91])]
      exact List.drop_left
    obtain ⟨w, hw⟩ := h.prev.1
    have hprev : putByte p.prev_name 0 0 = some (p.prev_name.set 0 0) :=
      if_pos (by rw [h.prev.2.2]; decide)
    rw [if_pos hhead, if_pos hhead, hput, Option.bind_some, hdrop, hcopy, Option.bind_some, hprev]
    refine ⟨_, rfl, ⟨?_, ⟨⟨d, rfl⟩, (cut_nulFree hq).1.take _, hlen⟩, ?_, fun _ => rfl⟩, rfl, rfl⟩
    · exact (length_putByte hput).trans h.line
    · refine ⟨⟨p.prev_name.tail, ?_⟩, List.not_mem_nil, ?_⟩
      · rw [hw]
        cases r.prev <;> rfl
      · exact List.length_set.trans h.prev.2.2
  · rw [if_neg hhead, if_neg hhead]
    exact ⟨_, rfl, done_fail h⟩

theorem pair_append (s : Bytes) : (pair s).1 ++ (pair s).2 = s := by
  unfold pair
  split
  · exact cut_append 61 s
  · exact cut_append 58 s

/-- A block that was trimmed: the string, and what was behind it. -/
theorem trimmed_block (a t r : Bytes) (k : ℕ) : ∃ y,
    a ++ (t ++ (List.replicate k 0 ++ 0 :: r)) = a ++ (t ++ 0 :: y) := by
  cases k with
  | zero => exact ⟨r, rfl⟩
  | succ k => exact ⟨List.replicate k 0 ++ 0 :: r, rfl⟩

theorem dropWhile_nulFree {t : Bytes} (ht : NulFree t) : NulFree (t.dropWhile isspace) :=
  fun h => ht ((List.dropWhile_suffix isspace).subset h)

theorem rdropWhile_nulFree {t : Bytes} (ht : NulFree t) : NulFree (t.rdropWhile isspace) :=
  fun h => ht ((List.rdropWhile_prefix isspace (l := t)).subset h)

/-- The search for '=' or ':'. -/
theorem findSeparator_at (a : Bytes) (hs : NulFree s) (v : Bytes) :
    findSeparator (a ++ (s ++ 0 :: v)) a.length = some (a ++ (pair s).1).length := by
  have hbyte : (a ++ (s ++ 0 :: v))[(a ++ (cut 61 s).1).length]? = some ((cut 61 s).2.headD 0) := by
    rw [split_at a 61, byte_at]
  simp only [findSeparator, find_at _ hs, ← List.length_append, hbyte, Option.bind_eq_bind,
    Option.bind_some, ne_eq, headD_eq_iff (show (61 : UInt8) ≠ 0 by decide), ite_not, pair]
  split
  · rfl
  · rfl

/-- A comment behind the string `t` is cut off. -/
theorem cutComment_at (m : Bytes) {t : Bytes} (ht : NulFree t) (v : Bytes) : ∃ w,
    cutComment (m ++ (t ++ 0 :: v)) m.length = some (m ++ ((cut 0 t).1 ++ 0 :: w)) ∧
      (m ++ ((cut 0 t).1 ++ 0 :: w)).length = (m ++ (t ++ 0 :: v)).length := by
  have hcut := split_at m 0 t v
  have hbyte : (m ++ (t ++ 0 :: v))[(m ++ (cut 0 t).1).length]? = some ((cut 0 t).2.headD 0) := by
    rw [hcut, byte_at]
  simp only [cutComment, find_at m ht, ← List.length_append, hbyte, Option.bind_eq_bind,
    Option.bind_some, headD_eq_iff (show (59 : UInt8) ≠ 0 by decide)]
  by_cases hhead : (cut 0 t).2.head? = some 59
  · have hput := putByte_at (ne_nil_of_head hhead) (m ++ (cut 0 t).1) (0 :: v) 0
    rw [← hcut] at hput
    refine ⟨(cut 0 t).2.tail ++ 0 :: v, ?_, ?_⟩
    · rw [if_pos hhead, hput, List.append_assoc, List.cons_append]
    · rw [← length_putByte hput, List.append_assoc, List.cons_append]
  · -- the search has not stopped at a NUL before the end
    have hnil : (cut 0 t).2 = [] := by
      cases hrest : (cut 0 t).2 with
      | nil => rfl
      | cons c rest =>
        have hs := @Lines.stop_of_cut _ isspace (stop 0) _ _ _ _ hrest
        have hc : c ≠ 0 := by
          rintro rfl
          exact (cut_nulFree (c := 0) ht).2 (by rw [hrest]; exact List.mem_cons_self)
        rw [hrest] at hhead
        simp only [stop, hc, decide_false, Bool.false_or, Bool.and_eq_true,
          decide_eq_true_eq] at hs
        exact absurd (congrArg some hs.2) hhead
    have ht' : (cut 0 t).1 = t := by
      have := cut_append 0 t
      rw [hnil, List.append_nil] at this
      exact this
    exact ⟨v, by rw [if_neg hhead, ht'], by rw [ht']⟩

/-- The string `t` is trimmed in place. -/
theorem rstrip_block (a : Bytes) {t : Bytes} (ht : NulFree t) (v : Bytes) : ∃ w,
    rstrip (a ++ (t ++ 0 :: v)) a.length = some (a ++ (t.rdropWhile isspace ++ 0 :: w)) ∧
      (a ++ (t.rdropWhile isspace ++ 0 :: w)).length = (a ++ (t ++ 0 :: v)).length := by
  obtain ⟨y, hy⟩ := trimmed_block a (t.rdropWhile isspace) v (t.length - (t.rdropWhile isspace).length)
  have hle := (List.rdropWhile_prefix isspace (l := t)).length_le
  refine ⟨y, by rw [rstrip_at a ht, hy], ?_⟩
  rw [← hy]
  simp only [List.length_append, List.length_cons, List.length_replicate]
  omega

/-- The value behind `b`: the pointer to it, and the block after the comment is
    cut off and the value trimmed. -/
theorem value_block (b : Bytes) {t : Bytes} (ht : NulFree t) (v : Bytes) : ∃ m line y,
    lskip (b ++ (t ++ 0 :: v)) b.length = some (b ++ m).length ∧
      cutComment (b ++ (t ++ 0 :: v)) (b ++ m).length = some line ∧
      rstrip line (b ++ m).length = some (b ++ m ++ (valueOf t ++ 0 :: y)) ∧
      (b ++ m ++ (valueOf t ++ 0 :: y)).length = (b ++ (t ++ 0 :: v)).length := by
  have hval := dropWhile_nulFree ht
  have hblock : b ++ (t ++ 0 :: v) =
      (b ++ t.takeWhile isspace) ++ (t.dropWhile isspace ++ 0 :: v) := by
    conv_lhs => rw [← List.takeWhile_append_dropWhile (p := isspace) (l := t)]
    simp only [List.append_assoc]
  have hskip : lskip (b ++ (t ++ 0 :: v)) b.length = some (b ++ t.takeWhile isspace).length := by
    rw [lskip_at b ht, List.length_append]
  obtain ⟨w, hcut, hlen⟩ := cutComment_at (b ++ t.takeWhile isspace) hval v
  obtain ⟨y, hstrip, hlen'⟩ := rstrip_block (b ++ t.takeWhile isspace) (cut_nulFree (c := 0) hval).1 w
  refine ⟨_, _, y, hskip, by rw [hblock]; exact hcut, hstrip, ?_⟩
  rw [hblock, ← hlen, ← hlen']
  rfl

variable (handler) in
/-- **A line with a name and a value.** -/
theorem itemLine_done (h : Tracks p r) (hlineno : p.lineno ≠ 0) (hline : p.line = a ++ (s ++ 0 :: v))
    (hs : NulFree s) : ∃ p', p.itemLine handler a.length = some p' ∧ Done handler p r (itemEntry s) p' := by
  have hpair := pair_append s
  have hblock : p.line = (a ++ (pair s).1) ++ ((pair s).2 ++ 0 :: v) := by
    rw [hline]
    conv_lhs => rw [← hpair]
    simp only [List.append_assoc]
  have hfind : findSeparator p.line a.length = some (a ++ (pair s).1).length := by
    rw [hline, findSeparator_at a hs]
  have hbyte : p.line[(a ++ (pair s).1).length]? = some ((pair s).2.headD 0) := by
    rw [hblock, byte_at]
  simp only [Parser.itemLine, hfind, hbyte, Option.bind_eq_bind, Option.bind_some,
    itemEntry, Bool.or_eq_true, decide_eq_true_eq, headD_eq_iff (show (61 : UInt8) ≠ 0 by decide),
    headD_eq_iff (show (58 : UInt8) ≠ 0 by decide)]
  by_cases hhead : (pair s).2.head? = some 61 ∨ (pair s).2.head? = some 58
  · have hne : (pair s).2 ≠ [] := by
      rcases hhead with hh | hh
      · exact ne_nil_of_head hh
      · exact ne_nil_of_head hh
    obtain ⟨hname, hrest⟩ : NulFree (pair s).1 ∧ NulFree (pair s).2 :=
      nulFree_append.1 (by rw [hpair]; exact hs)
    have htail : NulFree (pair s).2.tail := fun hmem => hrest (List.mem_of_mem_tail hmem)
    rw [if_pos hhead, if_pos hhead]
    generalize (pair s).1 = name at hblock hname ⊢
    generalize (pair s).2 = rest at hblock hne htail ⊢
    -- the name is cut off and trimmed
    have hput := putByte_at hne (a ++ name) (0 :: v) 0
    rw [← hblock] at hput
    have hnamed : a ++ name ++ (0 :: rest.tail ++ 0 :: v) =
        a ++ (name ++ 0 :: (rest.tail ++ 0 :: v)) := by
      simp only [List.append_assoc, List.cons_append]
    have hstrip := rstrip_at a hname (rest.tail ++ 0 :: v)
    -- what is behind the name
    obtain ⟨w, hw, hbehind⟩ : ∃ w : Bytes,
        (a ++ (name.rdropWhile isspace ++ 0 :: w)).length = (a ++ name).length + 1 ∧
        a ++ (name.rdropWhile isspace ++
          (List.replicate (name.length - (name.rdropWhile isspace).length) 0 ++
            0 :: (rest.tail ++ 0 :: v))) =
          a ++ (name.rdropWhile isspace ++ 0 :: w) ++ (rest.tail ++ 0 :: v) := by
      have hle := (List.rdropWhile_prefix isspace (l := name)).length_le
      refine ⟨List.replicate (name.length - (name.rdropWhile isspace).length) 0, ?_, ?_⟩
      · simp only [List.length_append, List.length_cons, List.length_replicate]
        omega
      · rw [List.append_cons, ← List.replicate_succ', List.replicate_succ]
        simp only [List.append_assoc, List.cons_append]
    obtain ⟨m, line, y, hskip, hcomment, hvalue, hlen⟩ :=
      value_block (a ++ (name.rdropWhile isspace ++ 0 :: w)) htail v
    have hdrop : (a ++ (name.rdropWhile isspace ++ 0 :: w) ++ m ++ (valueOf rest.tail ++ 0 :: y)).drop
        a.length = name.rdropWhile isspace ++ 0 :: (w ++ m ++ (valueOf rest.tail ++ 0 :: y)) := by
      simp only [List.append_assoc, List.drop_left, List.cons_append]
    obtain ⟨d, hcopy, hdlen⟩ := strncpy0_at h.prev.2.2 (by decide : MAX_NAME ≠ 0)
      (rdropWhile_nulFree hname) (w ++ m ++ (valueOf rest.tail ++ 0 :: y))
    rw [hput, Option.bind_some, hnamed, hstrip, Option.bind_some, hbehind,
      ← hw, hskip, Option.bind_some, hcomment, Option.bind_some, hvalue, Option.bind_some, hdrop, hcopy,
      Option.bind_some, List.drop_left]
    obtain ⟨hl, hsec, hprev, hno, hout⟩ := call_eq handler
      (p := ⟨a ++ (name.rdropWhile isspace ++ 0 :: w) ++ m ++ (valueOf rest.tail ++ 0 :: y), p.section_,
        (name.rdropWhile isspace).take (MAX_NAME - 1) ++ 0 :: d, p.lineno, p.error, p.user⟩) h.section_
      (name.rdropWhile isspace ++ 0 :: (w ++ m ++ (valueOf rest.tail ++ 0 :: y)))
      (valueOf rest.tail ++ 0 :: y)
    have hvalfree : NulFree (valueOf rest.tail) :=
      rdropWhile_nulFree (cut_nulFree (dropWhile_nulFree htail)).1
    rw [cstr_append_zero (rdropWhile_nulFree hname), cstr_append_zero hvalfree] at hout
    have htotal := congrArg List.length hbehind
    have hput' := length_putByte hput
    have hle := (List.rdropWhile_prefix isspace (l := name)).length_le
    refine ⟨_, rfl, ⟨?_, ?_, ?_, ?_⟩, hno, hout⟩
    · rw [hl, hlen, ← h.line, ← hput', hnamed, ← htotal]
      simp only [List.length_append, List.length_cons, List.length_replicate]
      omega
    · rw [hsec]
      exact h.section_
    · rw [hprev]
      exact ⟨⟨d, rfl⟩, (rdropWhile_nulFree hname).take _, hdlen⟩
    · intro hzero
      rw [hno] at hzero
      exact absurd hzero hlineno
  · rw [if_neg hhead, if_neg hhead]
    exact ⟨_, rfl, done_fail h⟩

/-- A byte order mark. -/
theorem bom_start (text v : Bytes) (n : ℕ) : ∃ a,
    text = a ++ (if n = 0 then dropBom text else text) ∧
      (if n + 1 = 1 ∧ (text ++ 0 :: v).take 3 = [0xEF, 0xBB, 0xBF] then 3 else 0) = a.length ∧
      (n ≠ 0 → a = []) := by
  have htake : (text ++ 0 :: v).take 3 = [0xEF, 0xBB, 0xBF] ↔ text.take 3 = [0xEF, 0xBB, 0xBF] := by
    rcases text with _ | ⟨x, _ | ⟨y, _ | ⟨z, t⟩⟩⟩
    · simp
    · simp
    · simp
    · simp
  by_cases h : n = 0 ∧ text.take 3 = [0xEF, 0xBB, 0xBF]
  · refine ⟨text.take 3, ?_, ?_, fun hn => absurd h.1 hn⟩
    · rw [if_pos h.1, dropBom, if_pos h.2, List.take_append_drop]
    · rw [if_pos ⟨by rw [h.1], htake.2 h.2⟩, h.2]
      rfl
  · refine ⟨[], ?_, ?_, fun _ => rfl⟩
    · split
      · rename_i hn
        rw [dropBom, if_neg fun ht => h ⟨hn, ht⟩, List.nil_append]
      · rfl
    · rw [if_neg fun ht => h ⟨by omega, htake.1 ht.2⟩]
      rfl

theorem headD_ne_zero {t : Bytes} (ht : NulFree t) : t.headD 0 ≠ 0 ↔ t ≠ [] := by
  cases t with
  | nil => simp
  | cons c t => simpa using fun h : c = 0 => ht (by simp [h])

/-- A line that begins with a blank. -/
theorem indented_iff {sp : UInt8 → Bool} (t : Bytes) :
    0 < (t.takeWhile sp).length ↔ t.dropWhile sp ≠ t := by
  have hsplit := List.takeWhile_append_dropWhile (p := sp) (l := t)
  constructor
  · intro hpos he
    have hlen := congrArg List.length hsplit
    rw [he, List.length_append] at hlen
    omega
  · intro hne
    by_contra hzero
    have hnil : t.takeWhile sp = [] := List.length_eq_zero_iff.1 (by omega)
    rw [hnil] at hsplit
    exact hne hsplit

variable (handler) in
/-- **One line.** -/
theorem body_done (h : Tracks p r) {text : Bytes} (hline : p.line = text ++ 0 :: v)
    (ht : NulFree text) : ∃ p', p.body handler = some p' ∧
      Done handler { p with lineno := p.lineno + 1 } r
        (entry (r.prev ≠ []) (if p.lineno = 0 then dropBom text else text)) p' := by
  obtain ⟨a, htext, hstart, hbom⟩ := bom_start text v p.lineno
  generalize (if p.lineno = 0 then dropBom text else text) = text' at htext ⊢
  have ht' : NulFree text' := (nulFree_append.1 (by rw [← htext]; exact ht)).2
  rw [htext, List.append_assoc] at hline
  rw [htext, List.append_assoc] at hstart
  obtain ⟨w, hstrip, hlen⟩ := rstrip_block a ht' v
  have htrim := rdropWhile_nulFree ht'
  have hs := dropWhile_nulFree htrim
  have hskip := lskip_at a htrim w
  -- the line, from the first character that is not a blank on
  have hblock : a ++ (text'.rdropWhile isspace ++ 0 :: w) =
      (a ++ (text'.rdropWhile isspace).takeWhile isspace) ++
        ((text'.rdropWhile isspace).dropWhile isspace ++ 0 :: w) := by
    conv_lhs =>
      rw [← List.takeWhile_append_dropWhile (p := isspace) (l := text'.rdropWhile isspace)]
    simp only [List.append_assoc]
  rw [← List.length_append] at hskip
  have hbyte := byte_at (a ++ (text'.rdropWhile isspace).takeWhile isspace)
    ((text'.rdropWhile isspace).dropWhile isspace) w
  have hprev : p.prev_name[0]? = some (r.prev.headD 0) := by
    obtain ⟨u, hu⟩ := h.prev.1
    rw [hu]
    exact byte_at [] r.prev u
  have hdone : Tracks (σ := σ) ⟨a ++ (text'.rdropWhile isspace ++ 0 :: w), p.section_, p.prev_name,
      p.lineno + 1, p.error, p.user⟩ r := by
    refine ⟨?_, h.section_, h.prev, fun hzero => absurd hzero (Nat.succ_ne_zero _)⟩
    rw [hlen, ← hline, h.line]
  simp only [Parser.body, hline, hstart, hstrip, Option.bind_eq_bind, Option.bind_some, hskip]
  rw [hblock] at hdone ⊢
  simp only [hbyte, hprev, Option.bind_some]
  have hcomment : ((text'.rdropWhile isspace).dropWhile isspace).headD 0 = 59 ∨
      ((text'.rdropWhile isspace).dropWhile isspace).headD 0 = 35 ↔
      ((text'.rdropWhile isspace).dropWhile isspace).head? = some 59 ∨
        ((text'.rdropWhile isspace).dropWhile isspace).head? = some 35 := by
    rw [headD_eq_iff (by decide), headD_eq_iff (by decide)]
  have hmore : (r.prev.headD 0 ≠ 0 ∧ ((text'.rdropWhile isspace).dropWhile isspace).headD 0 ≠ 0) ∧
      0 < (a ++ (text'.rdropWhile isspace).takeWhile isspace).length ↔
      (r.prev ≠ [] ∧ (text'.rdropWhile isspace).dropWhile isspace ≠ []) ∧
        (text'.rdropWhile isspace).dropWhile isspace ≠ text'.rdropWhile isspace := by
    rw [headD_ne_zero h.prev.2.1, headD_ne_zero hs]
    refine and_congr_right fun hne => ?_
    rw [hbom fun hzero => hne.1 (h.first hzero), List.nil_append, indented_iff]
  generalize hsdef : (text'.rdropWhile isspace).dropWhile isspace = s at *
  generalize a ++ (text'.rdropWhile isspace).takeWhile isspace = b at *
  simp only [entry, hsdef, Bool.or_eq_true, Bool.and_eq_true, decide_eq_true_eq, hcomment,
    gt_iff_lt, hmore, ← and_assoc]
  by_cases hc : s.head? = some 59 ∨ s.head? = some 35
  · rw [if_pos hc, if_pos hc]
    exact ⟨_, rfl, hdone, rfl, rfl⟩
  rw [if_neg hc, if_neg hc]
  by_cases hm : (r.prev ≠ [] ∧ s ≠ []) ∧ s ≠ text'.rdropWhile isspace
  · obtain ⟨hl, hsec, hpr, hno, hout⟩ := call_eq handler hdone.section_ p.prev_name
      ((b ++ (s ++ 0 :: w)).drop b.length)
    rw [h.prev.cstr, List.drop_left, cstr_append_zero hs] at hout
    rw [if_pos hm, if_pos hm]
    refine ⟨_, rfl, ⟨?_, ?_, ?_, ?_⟩, hno, ?_⟩
    · rw [hl]
      exact hdone.line
    · rw [hsec]
      exact h.section_
    · rw [hpr]
      exact h.prev
    · intro hzero
      rw [hno] at hzero
      cases hzero
    · rw [List.drop_left]
      exact hout
  rw [if_neg hm, if_neg hm]
  by_cases h91 : s.head? = some 91
  · obtain ⟨q, rfl⟩ : ∃ q, s = 91 :: q := by
      cases s with
      | nil => cases h91
      | cons c q => exact ⟨q, by rw [Option.some.inj h91]⟩
    obtain ⟨p', hp', hd⟩ := sectionLine_done handler hdone (q := q) rfl
      fun hmem => hs (List.mem_cons_of_mem 91 hmem)
    rw [if_pos (show (91 :: q).headD 0 = 91 from rfl), if_pos h91]
    exact ⟨p', hp', hd.tracks, hd.lineno, hd.outcome⟩
  rw [if_neg fun h => h91 ((headD_eq_iff (by decide)).1 h), if_neg h91]
  by_cases hne : s ≠ []
  · have h59 : s.headD 0 ≠ 59 := fun h => hc (.inl ((headD_eq_iff (by decide)).1 h))
    obtain ⟨p', hp', hd⟩ := itemLine_done handler hdone (Nat.succ_ne_zero _) rfl hs
    rw [if_pos ⟨(headD_ne_zero hs).2 hne, h59⟩, if_pos hne]
    exact ⟨p', hp', hd.tracks, hd.lineno, hd.outcome⟩
  · rw [if_neg fun h => hne ((headD_ne_zero hs).1 h.1), if_neg hne]
    exact ⟨_, rfl, hdone, rfl, rfl⟩

/-- The error, and `*user`. -/
def Parser.result (p : Parser σ) : ℕ × σ := (p.error, p.user)

theorem parseLoop_null {file : Bytes} (h : fgets p.line INI_MAX_LINE file = some none) :
    parseLoop handler p file = some p := by
  rw [parseLoop]
  split
  · rename_i h'
    rw [h] at h'
    cases h'
  · rfl
  · rename_i h'
    rw [h] at h'
    cases h'

theorem parseLoop_line {file line rest : Bytes}
    (h : fgets p.line INI_MAX_LINE file = some (some (line, rest))) :
    parseLoop handler p file =
      ({ p with line }.body handler).bind fun p => parseLoop handler p rest := by
  conv_lhs => rw [parseLoop]
  split
  · rename_i h'
    rw [h] at h'
    cases h'
  · rename_i h'
    rw [h] at h'
    cases h'
  · rename_i h'
    rw [h] at h'
    cases h'
    rfl

variable (handler) in
/-- **All lines**, by induction on what is left of the file. -/
theorem parseLoop_eq (file : Bytes) : ∀ {p : Parser σ} {r : Reader}, Tracks p r →
    (parseLoop handler p file).map Parser.result =
      some ((eventsFrom r p.lineno (linesOf file)).foldl (deliver handler) p.result) := by
  induction file using Lines.chunks_induction (10 : UInt8) (n := INI_MAX_LINE - 1) (by decide) with
  | nil =>
    intro p r h
    have hend : fgets p.line INI_MAX_LINE [] = some none := by
      rw [fgets, if_neg (by rw [h.line]; exact Nat.lt_irrefl _), if_pos rfl]
    rw [parseLoop_null hend, linesOf, Lines.chunks_nil]
    rfl
  | cons file hfile ih =>
    intro p r h
    obtain ⟨v, hread, hlen⟩ := fgets_line h.line (by decide) hfile
    obtain ⟨p', hbody, hdone⟩ := body_done handler
      (p := ⟨cstr (Lines.next 10 (INI_MAX_LINE - 1) file).1 ++ 0 :: v, p.section_, p.prev_name, p.lineno,
        p.error, p.user⟩) ⟨hlen, h.section_, h.prev, h.first⟩ rfl (cstr_nulFree _)
    have hlines : linesOf file = (Lines.next 10 (INI_MAX_LINE - 1) file).1 ::
        linesOf (Lines.next 10 (INI_MAX_LINE - 1) file).2 := Lines.chunks_cons (by decide) hfile
    have hlineno : p'.lineno = p.lineno + 1 := hdone.lineno
    have hnext := ih hdone.tracks
    rw [parseLoop_line hread, hbody, Option.bind_some, hnext, hlines, eventsFrom, List.foldl_append,
      hlineno, Reader.read, lineText]
    congr 2
    have hout := hdone.outcome
    rw [Parser.result, hout]
    generalize (r.apply _).2 = e
    cases e with
    | none => rfl
    | some e => rfl

end

/-- **The parser stays inside its buffers and delivers the events of the file**,
    whatever `line` held before. -/
theorem ini_parse_file_eq {stack : Bytes} (hstack : stack.length = INI_MAX_LINE) (file : Bytes)
    (user : σ) : ini_parse_file handler stack file user =
      some ((events file).foldl (deliver handler) (0, user)) := by
  have hloop := parseLoop_eq handler file
    (p := ⟨stack, List.replicate MAX_SECTION 0, List.replicate MAX_NAME 0, 0, 0, user⟩) (r := ⟨[], []⟩)
    ⟨hstack, ⟨⟨List.replicate 49 0, rfl⟩, List.not_mem_nil, rfl⟩,
      ⟨⟨List.replicate 49 0, rfl⟩, List.not_mem_nil, rfl⟩, fun _ => rfl⟩
  obtain ⟨p, hp, hres⟩ := Option.map_eq_some_iff.1 hloop
  rw [ini_parse_file, hp]
  exact congrArg some hres

/-- The line of the first event that is bad, or whose call the handler refuses. -/
def refused : σ → List Event → Option ℕ
  | _, [] => none
  | _, (n, none) :: _ => some n
  | user, (n, some i) :: es => if (handler user i).1 then refused (handler user i).2 es else some n

/-- What the handler makes of calls, whatever it returns. -/
def callAll (user : σ) (is : List IniItem) : σ := is.foldl (fun user i => (handler user i).2) user

theorem eventsFrom_pos : ∀ (ls : List Bytes) (r : Reader) (n : ℕ), ∀ e ∈ eventsFrom r n ls, e.1 ≠ 0
  | [], _, _, e, he => by cases he
  | l :: ls, r, n, e, he => by
    rw [eventsFrom, List.mem_append] at he
    rcases he with he | he
    · obtain ⟨x, -, rfl⟩ := Option.map_eq_some_iff.1 (Option.mem_toList.1 he)
      exact Nat.succ_ne_zero n
    · exact eventsFrom_pos ls _ _ e he

/-- After the first error all calls are still made. -/
theorem deliver_error : ∀ (es : List Event) {error : ℕ} (user : σ), error ≠ 0 →
    es.foldl (deliver handler) (error, user) = (error, callAll handler user (es.filterMap Prod.snd))
  | [], _, _, _ => rfl
  | (n, none) :: es, error, user, h => by
    rw [List.foldl_cons, deliver, List.filterMap_cons_none rfl]
    dsimp only
    rw [if_neg h]
    exact deliver_error es user h
  | (n, some i) :: es, error, user, h => by
    have hstep : deliver handler (error, user) (n, some i) = (error, (handler user i).2) := by
      simp only [deliver, if_neg h]
      split
      · rfl
      · rfl
    rw [List.foldl_cons, hstep, List.filterMap_cons_some (f := Prod.snd) rfl]
    exact deliver_error es _ h

theorem deliver_all : ∀ (es : List Event) (user : σ), (∀ e ∈ es, e.1 ≠ 0) →
    es.foldl (deliver handler) (0, user) =
      ((refused handler user es).getD 0, callAll handler user (es.filterMap Prod.snd))
  | [], _, _ => rfl
  | (n, none) :: es, user, h => by
    rw [List.foldl_cons, deliver, List.filterMap_cons_none rfl, refused]
    exact deliver_error handler es user (h (n, none) List.mem_cons_self)
  | (n, some i) :: es, user, h => by
    have hn : n ≠ 0 := h (n, some i) List.mem_cons_self
    rw [List.foldl_cons, deliver, List.filterMap_cons_some (f := Prod.snd) rfl, refused]
    dsimp only
    split
    · exact deliver_all es _ fun e he => h e (List.mem_cons_of_mem _ he)
    · exact deliver_error handler es _ hn

/-- **The parser, with any handler**: it stays inside its buffers, whatever these
    hold before; the handler is called for all items of the file in their order;
    and the result is the number of the first line that is bad or refused, or 0.
    The lines are the file, up to 199 bytes at a time. -/
theorem ini_parse_file_correct {stack : Bytes} (hstack : stack.length = INI_MAX_LINE) (file : Bytes)
    (user : σ) :
    ini_parse_file handler stack file user = some ((refused handler user (events file)).getD 0,
        callAll handler user ((events file).filterMap Prod.snd)) ∧
      (linesOf file).flatten = file ∧ ∀ l ∈ linesOf file, l.length < INI_MAX_LINE := by
  refine ⟨?_, Lines.flatten_chunks (by decide), fun l hl => ?_⟩
  · rw [ini_parse_file_eq handler hstack, deliver_all handler (events file) user (eventsFrom_pos _ _ _)]
  · exact Nat.lt_of_le_of_lt (Lines.mem_chunks (by decide) hl).1 (by decide)

/-- A file with an item, a continuation, a bad line and another item. -/
def sampleFile : Bytes := bytes "[a]\nhost = h ; c\n  i\nbad\nport: 25\n"

theorem ini_parse_file_correct_sample :
    ini_parse_file (fun (n : ℕ) _ => (n < 2, n + 1)) (List.replicate 200 7) sampleFile 0 = some (4, 3) ∧
      (linesOf sampleFile).length = 5 := by
  have h := ini_parse_file_correct (fun (n : ℕ) _ => (decide (n < 2), n + 1)) 
    (List.length_replicate : (List.replicate 200 (7 : UInt8)).length = _) sampleFile 0
  refine ⟨h.1.trans ?_, by decide +kernel⟩
  decide +kernel

end SmtpProxy.Ini
