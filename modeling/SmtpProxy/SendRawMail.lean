/-
  The request of the PHP client: `sendRawMail` of php-scripts/Transport.php.

  Header and body are trimmed, their line ends made CRLF, and in the body a dot
  after a line end is doubled; the sender, the recipients, `DATA` and the two
  texts are then joined with CRLF.  A receiver reads lines up to the first that
  is a single dot and drops the dot at the start of the others (`Receives`).

  * `normalise`: every LF without a CR before it gets one; the two replacements
    of the source compute it (`normalise_eq`);
  * `dataLines`: the lines after DATA, `sendRawMail_eq` the request as its lines;
  * `dots_transparent_iff`: the end mark stands at the end only and the receiver
    gets the header, an empty line and the body, iff no recipient is a single
    dot, no line of the header starts with a dot, and the body does not.
-/
import SmtpProxy.Envelope
import SmtpProxy.Lib.Replace

namespace SmtpProxy

open CString Search

/-! ## The source -/

/-- The characters that PHP's `trim` strips: blank, LF, CR, tab, vertical tab and NUL. -/
def trimmed (c : UInt8) : Bool := c ∈ [32, 10, 13, 9, 11, 0]

/-- PHP's `trim`. -/
def trim (s : Bytes) : Bytes := ((s.dropWhile trimmed).reverse.dropWhile trimmed).reverse

/-- PHP's `str_replace` of one string. -/
def str_replace (search replace subject : Bytes) : Bytes := Search.replace search replace subject

/-- PHP's `implode`. -/
def implode (glue : Bytes) (pieces : List Bytes) : Bytes := glue.intercalate pieces

/-- The parameter `$to`, a string or an array of them. -/
inductive To
  | one (recipient : Bytes)
  | many (recipients : List Bytes)

/-- The recipients that `$to` stands for. -/
def To.recipients : To → List Bytes
  | one recipient => [recipient]
  | many recipients => recipients

/-- The message that `sendRawMail` writes (lines 20 to 40). -/
def sendRawMail (from_ : Bytes) (to_ : To) (rawHeader rawBody : Bytes) : Bytes :=
  let rawHeader := trim rawHeader
  let rawHeader := str_replace crlf [10] rawHeader
  let rawHeader := str_replace [10] crlf rawHeader
  let rawBody := trim rawBody
  let rawBody := str_replace crlf [10] rawBody
  let rawBody := str_replace [10, 46] [10, 46, 46] rawBody
  let rawBody := str_replace [10] crlf rawBody
  let msg := [from_]
  let msg := match to_ with
    | .many recipients => recipients.foldl (fun msg recipient => msg ++ [recipient]) msg
    | .one recipient => msg ++ [recipient]
  let msg := msg ++ [dataWord]
  let msg := msg ++ [rawHeader ++ crlf]
  let msg := msg ++ [rawBody ++ crlf ++ [46] ++ crlf]
  implode crlf msg

/-! ## The receiver -/

/-- The lines up to the first that is a single dot, the dot at the start of the
    others dropped; nothing if there is no such line. -/
def unstuff : List Bytes → Option (List Bytes)
  | [] => none
  | l :: ls => if l = [46] then some [] else (unstuff ls).map (strip 46 l :: ·)

/-- The text of lines, each with its line end. -/
def text (ls : List Bytes) : Bytes := (ls.map (· ++ crlf)).flatten

/-- A receiver that gets `d` after the DATA line takes `m` for the mail. -/
def Receives (d m : Bytes) : Prop :=
  ∃ ls, IsSplit crlf d ls ∧ (unstuff ls).map text = some m

/-- `s` with a CR before every LF that has none; `cr` says that a CR comes before `s`. -/
def normaliseAfter (cr : Bool) : Bytes → Bytes
  | [] => []
  | c :: s =>
    if c = 10 ∧ cr = false then 13 :: 10 :: normaliseAfter false s
    else c :: normaliseAfter (c = 13) s

/-- `s` with every line end made CRLF. -/
def normalise (s : Bytes) : Bytes := normaliseAfter false s

/-- The mail that the client gives: the header, an empty line and the body. -/
def mail (rawHeader rawBody : Bytes) : Bytes :=
  normalise (trim rawHeader) ++ crlf ++ crlf ++ normalise (trim rawBody) ++ crlf

/-- A line of `s` starts with a dot. -/
def Dotted (s : Bytes) : Prop := [46] <+: s ∨ [10, 46] <:+: s

instance (s : Bytes) : Decidable (Dotted s) := inferInstanceAs (Decidable (_ ∨ _))

/-! ## Line ends -/

theorem unbordered_lf : Unbordered [(10 : UInt8)] := by decide

/-- `s` with every CRLF made LF. -/
def lf (s : Bytes) : Bytes := str_replace crlf [10] s

theorem lf_crlf (s : Bytes) : lf (13 :: 10 :: s) = 10 :: lf s :=
  replace_append (show crlf ≠ [] by decide) s

theorem lf_cons {c : UInt8} {s : Bytes} (h : ¬ (c = 13 ∧ [10] <+: s)) : lf (c :: s) = c :: lf s := by
  refine replace_cons fun hp => h ?_
  have := List.cons_prefix_cons.1 hp
  exact ⟨this.1.symm, this.2⟩

/-- Induction over a string by its CRLFs and its other characters. -/
theorem crlf_induction {P : Bytes → Prop} (nil : P []) (mark : ∀ s, P s → P (13 :: 10 :: s))
    (char : ∀ c s, ¬ (c = 13 ∧ [10] <+: s) → P s → P (c :: s)) : ∀ s, P s
  | [] => nil
  | [c] => char c [] (by simp) nil
  | c :: d :: s => by
    by_cases h : c = 13 ∧ [10] <+: d :: s
    · obtain ⟨rfl, hd⟩ := h
      obtain rfl : 10 = d := (List.cons_prefix_cons.1 hd).1
      exact mark s (crlf_induction nil mark char s)
    · exact char c (d :: s) h (crlf_induction nil mark char (d :: s))

theorem normaliseAfter_eq {b : Bool} {s : Bytes} (h : ¬ (b = true ∧ [10] <+: s)) :
    normaliseAfter b s = normalise s := by
  cases s with
  | nil => rfl
  | cons c s =>
    cases b with
    | false => rfl
    | true =>
      have hc : c ≠ 10 := fun hc => h ⟨rfl, by simp [hc]⟩
      simp [normalise, normaliseAfter, hc]

/-- **The two replacements normalise the line ends.** -/
theorem normalise_eq (s : Bytes) : str_replace [10] crlf (lf s) = normalise s := by
  induction s using crlf_induction with
  | nil => rfl
  | mark s ih =>
    have hrep : str_replace [10] crlf (10 :: lf s) = 13 :: 10 :: str_replace [10] crlf (lf s) :=
      replace_append (show [(10 : UInt8)] ≠ [] by decide) (lf s)
    rw [lf_crlf, hrep, ih]
    rfl
  | char c s h ih =>
    rw [lf_cons h]
    by_cases hc : c = 10
    · subst hc
      have hrep : str_replace [10] crlf (10 :: lf s) = 13 :: 10 :: str_replace [10] crlf (lf s) :=
        replace_append (show [(10 : UInt8)] ≠ [] by decide) (lf s)
      rw [hrep, ih]
      rfl
    · have hpre : ¬ [10] <+: c :: lf s := fun hp => hc (List.cons_prefix_cons.1 hp).1.symm
      have hrest : normaliseAfter (c = 13) s = normalise s := normaliseAfter_eq (by simpa using h)
      have hn : normalise (c :: s) = c :: normaliseAfter (c = 13) s := by
        simp [normalise, normaliseAfter, hc]
      rw [str_replace, replace_cons hpre, ← str_replace, ih, hn, hrest]

theorem dot_prefix_lf (s : Bytes) : [46] <+: lf s ↔ [46] <+: s := by
  induction s using crlf_induction with
  | nil => rfl
  | mark s => rw [lf_crlf]; simp
  | char c s h =>
    rw [lf_cons h, List.cons_prefix_cons, List.cons_prefix_cons]
    simp

/-- Making the line ends LF keeps the lines that start with a dot. -/
theorem dotted_lf (s : Bytes) : Dotted (lf s) ↔ Dotted s := by
  refine or_congr (dot_prefix_lf s) ?_
  induction s using crlf_induction with
  | nil => rfl
  | mark s ih =>
    rw [lf_crlf, List.infix_cons_iff, List.infix_cons_iff, List.infix_cons_iff, ih,
      List.cons_prefix_cons, List.cons_prefix_cons, List.cons_prefix_cons, dot_prefix_lf]
    simp
  | char c s h ih =>
    rw [lf_cons h, List.infix_cons_iff, List.infix_cons_iff, ih, List.cons_prefix_cons,
      List.cons_prefix_cons, dot_prefix_lf]

/-- After a line, the next ones decide. -/
theorem infix_line {r : Bytes} : ∀ {l : Bytes}, 10 ∉ l → ([10, 46] <:+: l ++ 10 :: r ↔ Dotted r)
  | [], _ => by rw [List.nil_append, List.infix_cons_iff, List.cons_prefix_cons, Dotted]; simp
  | c :: l, h => by
    have hc : (10 : UInt8) ≠ c := fun he => h (by simp [he])
    rw [List.cons_append, List.infix_cons_iff, List.cons_prefix_cons,
      infix_line fun hm => h (List.mem_cons_of_mem _ hm)]
    simp [hc]

/-- A string has a line that starts with a dot iff one of its lines does. -/
theorem dotted_lines : ∀ {ls : List Bytes} {s : Bytes}, IsSplit [10] s ls →
    (Dotted s ↔ ∃ l ∈ ls, [46] <+: l)
  | [], _, h => absurd rfl h.ne
  | [l], s, h => by
    obtain rfl : l = s := by simpa using h.join
    have hl : ¬ [10, 46] <:+: l := fun hi =>
      notIn_singleton.1 (h.free l (by simp)) (hi.subset (by simp))
    simp [Dotted, hl]
  | l :: l' :: ls, s, h => by
    have hrest : IsSplit [10] ([10].intercalate (l' :: ls)) (l' :: ls) :=
      ⟨by simp, fun x hx => h.free x (List.mem_cons_of_mem _ hx), rfl⟩
    have ih := dotted_lines hrest
    have hl : 10 ∉ l := notIn_singleton.1 (h.free l (by simp))
    have hstart : [46] <+: s ↔ [46] <+: l := by
      rw [← h.join]
      exact singleton_prefix_lines (by decide) _ _
    have hinner : [10, 46] <:+: s ↔ Dotted ([10].intercalate (l' :: ls)) := by
      rw [← h.join, List.intercalate_cons_cons, List.append_assoc]
      exact infix_line hl
    rw [List.exists_mem_cons_iff, ← ih, Dotted, hstart, hinner]

/-! ## The request as lines -/

/-- The lines of the body as they are sent: all but the first stuffed. -/
def stuffed : List Bytes → List Bytes
  | [] => []
  | l :: ls => l :: ls.map (stuff 46)

/-- The lines after DATA, before the end mark. -/
def dataLines (hs bs : List Bytes) : List Bytes := hs ++ [] :: stuffed bs

theorem normalise_lines {s : Bytes} {ls : List Bytes} (h : IsSplit [10] (lf s) ls) :
    normalise s = crlf.intercalate ls := by
  rw [← normalise_eq]
  exact replace_of_isSplit unbordered_lf h

theorem stuffed_lines {s : Bytes} : ∀ {ls : List Bytes}, IsSplit [10] s ls →
    str_replace [10] crlf (str_replace [10, 46] [10, 46, 46] s) = crlf.intercalate (stuffed ls)
  | [], h => absurd rfl h.ne
  | l :: ls, h => by
    have hlf : ∀ x ∈ l :: ls, 10 ∉ x := fun x hx => notIn_singleton.1 (h.free x hx)
    refine replace_of_isSplit unbordered_lf ⟨by simp [stuffed], fun x hx => ?_, ?_⟩
    · rw [notIn_singleton]
      rcases List.mem_cons.1 hx with rfl | hx
      · exact hlf x (by simp)
      · obtain ⟨y, hy, rfl⟩ := List.mem_map.1 hx
        intro hm
        rcases mem_stuff hm with he | hm
        · exact absurd he (by decide)
        · exact hlf y (by simp [hy]) hm
    · rw [← h.join]
      exact (replace_lines (by decide) ls hlf).symm

section
variable {from_ : Bytes} {to_ : To} {rawHeader rawBody : Bytes} {hs bs : List Bytes}
  (hh : IsSplit [10] (lf (trim rawHeader)) hs) (hb : IsSplit [10] (lf (trim rawBody)) bs)
include hh hb

theorem data_eq : crlf.intercalate (dataLines hs bs) =
    normalise (trim rawHeader) ++ crlf ++ crlf ++ crlf.intercalate (stuffed bs) := by
  have hne : stuffed bs ≠ [] := by
    cases bs with
    | nil => exact absurd rfl hb.ne
    | cons b bs => simp [stuffed]
  have hnil : crlf.intercalate ([] :: stuffed bs) = crlf ++ crlf.intercalate (stuffed bs) := by
    have hone : ([] : Bytes) :: stuffed bs = [[]] ++ stuffed bs := rfl
    rw [hone, intercalate_append (by simp) hne]
    rfl
  rw [dataLines, intercalate_append hh.ne (by simp), normalise_lines hh, hnil, List.append_assoc]
  simp

/-- **The request in lines**: sender, recipients, `DATA`, header, an empty line, body, a dot. -/
theorem sendRawMail_eq : sendRawMail from_ to_ rawHeader rawBody =
    crlf.intercalate (from_ :: (to_.recipients ++ dataWord :: dataLines hs bs)) ++ endMark := by
  have hto : ∀ (rs msg : List Bytes), rs.foldl (fun msg r => msg ++ [r]) msg = msg ++ rs := by
    intro rs
    induction rs with
    | nil => simp
    | cons r rs ih => intro msg; simp [ih]
  have hmsg : sendRawMail from_ to_ rawHeader rawBody = crlf.intercalate (from_ :: to_.recipients ++
      [dataWord] ++ [normalise (trim rawHeader) ++ crlf] ++
      [crlf.intercalate (stuffed bs) ++ endMark]) := by
    rw [← normalise_eq, ← stuffed_lines hb]
    cases to_ with
    | one r => simp [sendRawMail, To.recipients, implode, lf, endMark]
    | many rs => simp [sendRawMail, hto, To.recipients, implode, lf, endMark]
  have hlast : crlf.intercalate [normalise (trim rawHeader) ++ crlf,
      crlf.intercalate (stuffed bs) ++ endMark] = crlf.intercalate (dataLines hs bs) ++ endMark := by
    rw [data_eq hh hb, List.intercalate_cons_cons]
    simp
  have hne : dataLines hs bs ≠ [] := by simp [dataLines]
  have happ : from_ :: (to_.recipients ++ dataWord :: dataLines hs bs) =
      (from_ :: to_.recipients ++ [dataWord]) ++ dataLines hs bs := by simp
  rw [hmsg, List.append_assoc, intercalate_append (by simp) (by simp), List.singleton_append, hlast,
    happ, intercalate_append (by simp) hne, List.append_assoc _ _ endMark]

end

/-! ## What the receiver takes -/

theorem unstuff_mark {ls r : List Bytes} (h : [46] ∉ ls) :
    unstuff (ls ++ [46] :: r) = some (ls.map (strip 46)) := by
  induction ls with
  | nil => simp [unstuff]
  | cons l ls ih =>
    simp only [List.mem_cons, not_or] at h
    simp [unstuff, ih h.2, Ne.symm h.1]

theorem text_eq (ls : List Bytes) : text ls = crlf.intercalate (ls ++ [[]]) := by
  induction ls with
  | nil => rfl
  | cons l ls ih =>
    rw [List.cons_append, List.intercalate_cons_of_ne_nil (by simp), ← ih]
    simp [text]

theorem text_injective {ls ms : List Bytes} (hl : ∀ l ∈ ls, ¬ crlf <:+: l)
    (hm : ∀ l ∈ ms, ¬ crlf <:+: l) (h : text ls = text ms) : ls = ms := by
  have hsplit : ∀ {xs : List Bytes}, (∀ l ∈ xs, ¬ crlf <:+: l) →
      IsSplit crlf (text xs) (xs ++ [[]]) := by
    intro xs hxs
    refine ⟨by simp, fun x hx => ?_, (text_eq xs).symm⟩
    rcases List.mem_append.1 hx with hx | hx
    · exact hxs x hx
    · obtain rfl := List.mem_singleton.1 hx
      decide
  have := (hsplit hl).unique unbordered_crlf (h ▸ hsplit hm)
  exact List.append_cancel_right this

theorem strip_free {l : Bytes} (h : ¬ crlf <:+: l) : ¬ crlf <:+: strip 46 l := by
  intro hi
  rw [strip] at hi
  split_ifs at hi
  · exact h (hi.trans (List.tail_suffix l).isInfix)
  · exact h hi

/-- **What a receiver takes**: the lines before the mark, without their dots. -/
theorem receives_iff {ls ms : List Bytes} (hne : ls ≠ []) (hl : ∀ l ∈ ls, ¬ crlf <:+: l)
    (hm : ∀ l ∈ ms, ¬ crlf <:+: l) (hdot : [46] ∉ ls) :
    Receives (crlf.intercalate ls ++ endMark) (text ms) ↔ ls.map (strip 46) = ms := by
  have hsplit : IsSplit crlf (crlf.intercalate ls ++ endMark) (ls ++ [[46], []]) := by
    refine ⟨by simp, fun x hx => ?_, intercalate_mark hne⟩
    rcases List.mem_append.1 hx with hx | hx
    · exact hl x hx
    · simp only [List.mem_cons, List.not_mem_nil, or_false] at hx
      rcases hx with rfl | rfl <;> decide
  have hun : unstuff (ls ++ [[46], []]) = some (ls.map (strip 46)) := unstuff_mark hdot
  constructor
  · rintro ⟨ps, hps, htext⟩
    rw [hps.unique unbordered_crlf hsplit, hun, Option.map_some, Option.some.injEq] at htext
    refine text_injective (fun l hl' => ?_) hm htext
    obtain ⟨y, hy, rfl⟩ := List.mem_map.1 hl'
    exact strip_free (hl y hy)
  · rintro rfl
    exact ⟨_, hsplit, by rw [hun]; rfl⟩

/-! ## Dot transparency -/

/-- The strings that the client encodes transparently: no recipient is a single dot, no line
    of the header starts with a dot, and the body does not start with one. -/
def Encodable (to_ : To) (rawHeader rawBody : Bytes) : Prop :=
  [46] ∉ to_.recipients ∧ ¬ Dotted (trim rawHeader) ∧ ¬ [46] <+: trim rawBody

/-- The lines that come out are those that went in iff no dot was lost. -/
theorem strip_dataLines {hs bs : List Bytes} (hne : bs ≠ []) :
    (dataLines hs bs).map (strip 46) = hs ++ [] :: bs ↔
      (∀ l ∈ hs, ¬ [46] <+: l) ∧ ∀ l ∈ bs.head?, ¬ [46] <+: l := by
  cases bs with
  | nil => exact absurd rfl hne
  | cons b bs =>
    have hself : ∀ xs : List Bytes, xs.map (strip 46) = xs ↔ ∀ l ∈ xs, ¬ [46] <+: l := by
      intro xs
      conv_lhs => rhs; rw [← List.map_id xs]
      rw [List.map_inj_left]
      exact forall₂_congr fun l _ => strip_eq_self_iff
    have hrest : (bs.map (stuff 46)).map (strip 46) = bs := by
      rw [List.map_map]
      simp [Function.comp_def, strip_stuff]
    have hnil : strip 46 ([] : Bytes) = [] := rfl
    rw [dataLines, stuffed, List.map_append, List.map_cons, List.map_cons, hrest, hnil]
    rw [List.append_eq_append_iff_of_size_eq_left (by simp), hself]
    simp [strip_eq_self_iff]

/-- No line after DATA is a single dot if no dot is lost. -/
theorem dot_notIn_dataLines {hs bs : List Bytes} (hne : bs ≠ [])
    (h : (∀ l ∈ hs, ¬ [46] <+: l) ∧ ∀ l ∈ bs.head?, ¬ [46] <+: l) :
    [46] ∉ dataLines hs bs := by
  intro hm
  rcases List.mem_append.1 hm with hm | hm
  · exact h.1 _ hm (List.prefix_refl _)
  · rcases List.mem_cons.1 hm with he | hm
    · exact absurd he (by simp)
    · cases bs with
      | nil => exact absurd rfl hne
      | cons b bs =>
        rcases List.mem_cons.1 hm with he | hm
        · exact h.2 b rfl (he ▸ List.prefix_refl _)
        · obtain ⟨y, -, hy⟩ := List.mem_map.1 hm
          exact stuff_ne_singleton 46 y hy

section
variable {to_ : To} {rawHeader rawBody : Bytes} {hs bs : List Bytes}
  (hh : IsSplit [10] (lf (trim rawHeader)) hs) (hb : IsSplit [10] (lf (trim rawBody)) bs)
include hh hb

theorem mail_eq : mail rawHeader rawBody = text (hs ++ [] :: bs) := by
  have hend : ∀ {ls : List Bytes}, ls ≠ [] → text ls = crlf.intercalate ls ++ crlf := by
    intro ls hne
    rw [text_eq, intercalate_append hne (by simp)]
    simp
  have happ : text (hs ++ [] :: bs) = text hs ++ crlf ++ text bs := by simp [text]
  rw [mail, happ, hend hh.ne, hend hb.ne, normalise_lines hh, normalise_lines hb]
  simp

theorem encodable_iff : Encodable to_ rawHeader rawBody ↔
    [46] ∉ to_.recipients ∧ (∀ l ∈ hs, ¬ [46] <+: l) ∧ ∀ l ∈ bs.head?, ¬ [46] <+: l := by
  have hheader : ¬ Dotted (trim rawHeader) ↔ ∀ l ∈ hs, ¬ [46] <+: l := by
    rw [← dotted_lf, dotted_lines hh]
    push Not
    exact Iff.rfl
  have hbody : ¬ [46] <+: trim rawBody ↔ ∀ l ∈ bs.head?, ¬ [46] <+: l := by
    cases bs with
    | nil => exact absurd rfl hb.ne
    | cons b bs =>
      rw [← dot_prefix_lf, ← hb.join, singleton_prefix_lines (by decide)]
      simp
  rw [Encodable, hheader, hbody]

/-- The lines after DATA have no line end in them. -/
theorem dataLines_free : ∀ l ∈ dataLines hs bs, ¬ crlf <:+: l := by
  have hfree : ∀ l : Bytes, 10 ∉ l → ¬ crlf <:+: l := fun l hl hi => hl (hi.subset (by decide))
  intro l hl
  rcases List.mem_append.1 hl with hl | hl
  · exact hfree l (notIn_singleton.1 (hh.free l hl))
  · rcases List.mem_cons.1 hl with rfl | hl
    · decide
    · cases bs with
      | nil => exact absurd rfl hb.ne
      | cons b bs =>
        rcases List.mem_cons.1 hl with rfl | hl
        · exact hfree l (notIn_singleton.1 (hb.free l (by simp)))
        · obtain ⟨y, hy, rfl⟩ := List.mem_map.1 hl
          refine hfree _ fun hm => ?_
          rcases mem_stuff hm with he | hm
          · exact absurd he (by decide)
          · exact notIn_singleton.1 (hb.free y (by simp [hy])) hm

/-- With the lines `ps` before those of the mail, a mail arrives as it is iff it can be
    encoded and there are no such lines. -/
theorem transparent_lines {from_ : Bytes} (hfrom : ¬ crlf <:+: from_)
    (hto : ∀ r ∈ to_.recipients, ¬ crlf <:+: r) {ps : List Bytes}
    (hps : ∀ p ∈ ps, p ∈ dataWord :: to_.recipients) :
    (EndsOnce endMark (sendRawMail from_ to_ rawHeader rawBody) ∧
      Receives (crlf.intercalate (ps ++ dataLines hs bs) ++ endMark) (mail rawHeader rawBody)) ↔
    Encodable to_ rawHeader rawBody ∧ ps = [] := by
  have hfree := dataLines_free hh hb
  have hheads : ∀ p ∈ dataWord :: to_.recipients, ¬ crlf <:+: p := by
    intro p hp
    rcases List.mem_cons.1 hp with rfl | hp
    · exact crlf_notIn_dataWord
    · exact hto p hp
  have hends : EndsOnce endMark (sendRawMail from_ to_ rawHeader rawBody) ↔
      [46] ∉ dataWord :: to_.recipients ∧ [46] ∉ dataLines hs bs := by
    rw [sendRawMail_eq hh hb]
    refine (endsOnce_lines unbordered_crlf (by decide) hfrom fun q hq => ?_).trans ?_
    · simp only [List.mem_append, List.mem_cons] at hq
      rcases hq with hq | rfl | hq
      · exact hto q hq
      · exact crlf_notIn_dataWord
      · exact hfree q hq
    · simp only [List.mem_append, List.mem_cons]
      tauto
  have hlines : ∀ l ∈ ps ++ dataLines hs bs, ¬ crlf <:+: l := by
    intro l hl
    rcases List.mem_append.1 hl with hl | hl
    · exact hheads l (hps l hl)
    · exact hfree l hl
  have hmail : ∀ l ∈ hs ++ [] :: bs, ¬ crlf <:+: l := by
    have hcr : ∀ l : Bytes, ¬ [10] <:+: l → ¬ crlf <:+: l := fun l hl hi =>
      hl (List.IsInfix.trans ⟨[13], [], rfl⟩ hi)
    intro l hl
    simp only [List.mem_append, List.mem_cons] at hl
    rcases hl with hl | rfl | hl
    · exact hcr l (hh.free l hl)
    · decide
    · exact hcr l (hb.free l hl)
  have hrec (hdot : [46] ∉ ps ++ dataLines hs bs) :=
    receives_iff (by simp [dataLines]) hlines hmail hdot
  rw [hends, mail_eq hh hb, encodable_iff hh hb, ← strip_dataLines hb.ne]
  constructor
  · rintro ⟨⟨hr, hd⟩, hrecv⟩
    have hdot : [46] ∉ ps ++ dataLines hs bs := by
      rw [List.mem_append, not_or]
      exact ⟨fun hm => hr (hps _ hm), hd⟩
    have heq := (hrec hdot).1 hrecv
    have hnil : ps = [] := by
      have hlen := congrArg List.length heq
      have hst : (stuffed bs).length = bs.length := by cases bs <;> simp [stuffed]
      simp only [List.length_map, List.length_append, dataLines, List.length_cons, hst] at hlen
      exact List.eq_nil_of_length_eq_zero (by omega)
    subst hnil
    exact ⟨⟨fun hm => hr (List.mem_cons_of_mem _ hm), heq⟩, rfl⟩
  · rintro ⟨⟨hr, heq⟩, rfl⟩
    have hd := dot_notIn_dataLines hb.ne ((strip_dataLines hb.ne).1 heq)
    refine ⟨⟨?_, hd⟩, (hrec hd).2 heq⟩
    rw [List.mem_cons, not_or]
    exact ⟨by decide, hr⟩

end

/-- **Dot transparency.**  For a sender and recipients without line ends, the end mark of
    the request is its end only and a receiver of what follows the DATA line gets the header,
    an empty line and the body, iff the strings are `Encodable`; for the DATA line that the
    proxy finds, the first one, iff moreover no recipient is `DATA`. -/
theorem dots_transparent_iff (from_ : Bytes) (to_ : To) (rawHeader rawBody : Bytes)
    (hfrom : ¬ crlf <:+: from_) (hto : ∀ r ∈ to_.recipients, ¬ crlf <:+: r) :
    (∃ d, sendRawMail from_ to_ rawHeader rawBody =
        implode crlf (from_ :: to_.recipients) ++ dataMark ++ d ∧
      ((EndsOnce endMark (sendRawMail from_ to_ rawHeader rawBody) ∧
        Receives d (mail rawHeader rawBody)) ↔ Encodable to_ rawHeader rawBody)) ∧
    (∃ h d, IsFirst dataMark (sendRawMail from_ to_ rawHeader rawBody) h d ∧
      ((EndsOnce endMark (sendRawMail from_ to_ rawHeader rawBody) ∧
        Receives d (mail rawHeader rawBody)) ↔
          Encodable to_ rawHeader rawBody ∧ dataWord ∉ to_.recipients)) := by
  obtain ⟨hs, hh⟩ := exists_isSplit (List.cons_ne_nil 10 []) (lf (trim rawHeader))
  obtain ⟨bs, hb⟩ := exists_isSplit (List.cons_ne_nil 10 []) (lf (trim rawBody))
  -- a DATA line with `rs` before it and `ps` between it and the header
  have hcut : ∀ (rs ps : List Bytes),
      to_.recipients ++ dataWord :: dataLines hs bs = rs ++ dataWord :: (ps ++ dataLines hs bs) →
      sendRawMail from_ to_ rawHeader rawBody = crlf.intercalate (from_ :: rs) ++ dataMark ++
        (crlf.intercalate (ps ++ dataLines hs bs) ++ endMark) := by
    intro rs ps he
    have happ : from_ :: (rs ++ dataWord :: (ps ++ dataLines hs bs)) =
        (from_ :: rs) ++ ([dataWord] ++ (ps ++ dataLines hs bs)) := by simp
    rw [sendRawMail_eq hh hb, he, happ, intercalate_append (by simp) (by simp),
      intercalate_append (by simp) (by simp [dataLines]), List.intercalate_singleton]
    simp [dataMark]
  refine ⟨⟨_, hcut to_.recipients [] rfl, ?_⟩, ?_⟩
  · rw [transparent_lines hh hb hfrom hto (by simp)]
    simp
  · by_cases hdata : dataWord ∈ to_.recipients
    · obtain ⟨rs, qs, hrs, hnot⟩ := List.eq_append_cons_of_mem hdata
      have hps : ∀ p ∈ qs ++ [dataWord], p ∈ dataWord :: to_.recipients := by
        intro p hp
        rw [hrs]
        simp only [List.mem_append, List.mem_cons, List.not_mem_nil, or_false] at hp ⊢
        tauto
      have hreq := hcut rs (qs ++ [dataWord]) (by rw [hrs]; simp)
      refine ⟨crlf.intercalate (from_ :: rs),
        crlf.intercalate (qs ++ [dataWord] ++ dataLines hs bs) ++ endMark, ?_, ?_⟩
      · rw [hreq]
        refine isFirst_line unbordered_crlf crlf_notIn_dataWord _ rs from_ hfrom fun q hq => ?_
        exact ⟨hto q (by rw [hrs]; simp [hq]), fun he => hnot (he ▸ hq)⟩
      · rw [transparent_lines hh hb hfrom hto hps]
        simp [hdata]
    · refine ⟨crlf.intercalate (from_ :: to_.recipients),
        crlf.intercalate ([] ++ dataLines hs bs) ++ endMark, ?_, ?_⟩
      · rw [hcut to_.recipients [] rfl]
        refine isFirst_line unbordered_crlf crlf_notIn_dataWord _ _ from_ hfrom fun q hq => ?_
        exact ⟨hto q hq, fun he => hdata (he ▸ hq)⟩
      · rw [transparent_lines hh hb hfrom hto (by simp)]
        simp [hdata]

/-- A short mail of one recipient. -/
theorem dots_transparent_iff_short : Encodable (.one (bytes "b")) (bytes "S: x") (bytes "y") ∧
    ∃ h d, IsFirst dataMark
        (sendRawMail (bytes "a") (.one (bytes "b")) (bytes "S: x") (bytes "y")) h d ∧
      Receives d (mail (bytes "S: x") (bytes "y")) := by
  have henc : Encodable (.one (bytes "b")) (bytes "S: x") (bytes "y") := by
    refine ⟨by decide, by decide, by decide⟩
  have hto : ∀ r ∈ (To.one (bytes "b")).recipients, ¬ crlf <:+: r := by decide
  obtain ⟨-, h, d, hf, hiff⟩ := dots_transparent_iff (bytes "a") (.one (bytes "b")) (bytes "S: x")
    (bytes "y") (by decide) hto
  exact ⟨henc, h, d, hf, (hiff.2 ⟨henc, by decide⟩).2⟩

/-- A body whose first line is a single dot: the mark stands before the end. -/
theorem first_dot_kept : ¬ EndsOnce endMark
    (sendRawMail (bytes "a") (.one (bytes "b")) (bytes "S: x") (bytes ".\ny")) := by decide

end SmtpProxy
