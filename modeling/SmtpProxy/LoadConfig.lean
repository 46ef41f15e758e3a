/-
  The table of the transports as the calls of `tpIniHandler` build it, and
  `loadTpConfig` in one piece (transport.c).

  * `TpConf.findTpByName`, `lookUp`: the look-up by a visit that stops where its
    handler returns 0;
  * `tpIniHandler_eq`: a call changes the transport of its section;
  * `iniTable_eq`: one transport for each section, in the order of their first
    appearance; `strItem_eq`, `intItem_eq`: its items are those set last;
  * `loadTpConfig_ok`, `complete_of_check`: what passes the checks.
-/
import SmtpProxy.Config
import SmtpProxy.Lib.Keyed
import SmtpProxy.Lib.Visits

namespace SmtpProxy

open CString

/-- `findTpByName`, a handler of `dllistVisit`: 0 is a match. -/
def TpConf.findTpByName (_idx : ℕ) (tp : TpConf) (name : Bytes) : ℤ × Bytes :=
  (if strcmp tp.name name then 0 else 1, name)

/-- `dllistVisit(transports, findTpByName, name)` -/
def lookUp (transports : List TpConf) (name : Bytes) : Option TpConf :=
  (Visit.visit TpConf.findTpByName transports 0 name).found

/-- The transports after the calls that the parser makes. -/
def iniTable (transports : List TpConf) (calls : List IniItem) : List TpConf :=
  calls.foldl (fun tps i => (tpIniHandler tps i).2) transports

/-- How `loadTpConfig` ends the program. -/
inductive LoadExit where
  | iniError (n : ℤ)  -- `ini_parse error(n)`, `exit(1)`
  | check (text : Bytes)  -- what `checkTp` logs, `exit(1)`
  | tested  -- the test mode
  deriving DecidableEq

/-- `loadTpConfig`, when `ini_parse` makes these calls and returns `n`. -/
def loadTpConfig (testTp : Bool) (transports : List TpConf) (calls : List IniItem) (n : ℤ) :
    Except LoadExit (List TpConf) := do
  let transports := iniTable transports calls
  if n ≠ 0 then throw (.iniError n)
  transports.forM fun tp => tp.checkTp.mapError .check
  if testTp then throw .tested
  return transports

/-! ## Sections -/

/-- The sections, in the order of their first appearance. -/
def sections (calls : List IniItem) : List Bytes :=
  Keyed.firsts (calls.map fun i => cstr i.section_)

/-- The last call for an item of a section. -/
def lastCall (calls : List IniItem) (sec : Bytes) (name : String) : Option IniItem :=
  (calls.filter fun i => cstr i.section_ = sec ∧ cstr i.name = bytes name).getLast?

namespace TpConf

/-- The string items and the integer items. -/
def strItems : List (String × (TpConf → Option Bytes)) :=
  [("host", host), ("port", port), ("ssl", ssl), ("auth", auth), ("username", username),
    ("password", password)]

def intItems : List (String × (TpConf → ℤ)) :=
  [("maxConn", maxConn), ("maxSendPerConn", maxSendPerConn),
    ("sleepSecondsPerSend", sleepSecondsPerSend), ("maxNoop", maxNoop),
    ("sleepSecondsPerNoop", sleepSecondsPerNoop)]

/-- A transport that has nothing but its name. -/
def blank (name : Bytes) : TpConf := ⟨name, none, none, none, none, none, none, 0, 0, 0, 0, 0, false⟩

/-- A call changes the transport of its section; an unknown item is not set. -/
def apply (tp : TpConf) (i : IniItem) : TpConf := (tp.setItem i.name i.value).getD tp

end TpConf

section
variable {tps : List TpConf} {tp : TpConf} {calls : List IniItem} {i : IniItem} {name sec : Bytes}

/-- **The look-up is a search.** -/
theorem lookUp_eq : lookUp tps name = tps.find? fun tp => strcmp tp.name name :=
  (Visit.visit_found (h := TpConf.findTpByName) (p := fun tp => strcmp tp.name name)
    (fun _ _ _ => rfl) 0).1

/-! ## One call -/

/-- The item of a call, if it is one of the eleven. -/
theorem setItem_cases (tp : TpConf) (name value : Bytes) :
    (∃ item ∈ TpConf.items, cstr name = bytes item.1 ∧
      tp.setItem name value = some (item.2 tp value)) ∨
    (∀ item ∈ TpConf.items, cstr name ≠ bytes item.1) ∧ tp.setItem name value = none := by
  have hfree : ∀ item ∈ TpConf.items, cstr (bytes item.1) = bytes item.1 := by decide
  unfold TpConf.setItem
  cases hfind : TpConf.items.find? fun item => strcmp name (bytes item.1) with
  | none =>
    refine .inr ⟨fun item hitem he => ?_, rfl⟩
    refine List.find?_eq_none.1 hfind item hitem (strcmp_iff.2 ?_)
    rw [hfree item hitem, he]
  | some item =>
    have hitem := List.mem_of_find?_eq_some hfind
    have hcmp : strcmp name (bytes item.1) = true := by simpa using List.find?_some hfind
    have hname := strcmp_iff.1 hcmp
    rw [hfree item hitem] at hname
    exact .inl ⟨item, hitem, hname, rfl⟩

/-- A field that the item of the name `n` sets, and no other. -/
structure SetBy {β : Type} (n : String) (get : TpConf → β) (v : Bytes → β) : Prop where
  item : ∃ item ∈ TpConf.items, item.1 = n
  names : ∀ item ∈ TpConf.items, bytes item.1 = bytes n → item.1 = n
  set : ∀ item ∈ TpConf.items, ∀ tp value,
    get (item.2 tp value) = if item.1 = n then v value else get tp

theorem SetBy.apply {β : Type} {n : String} {get : TpConf → β} {v : Bytes → β}
    (h : SetBy n get v) (tp : TpConf) (i : IniItem) :
    get (tp.apply i) = if cstr i.name = bytes n then v i.value else get tp := by
  rcases setItem_cases tp i.name i.value with ⟨item, hitem, hname, hs⟩ | ⟨hno, hs⟩
  · rw [TpConf.apply, hs, Option.getD_some, h.set item hitem, hname]
    by_cases he : item.1 = n
    · rw [if_pos he, if_pos (congrArg bytes he)]
    · rw [if_neg he, if_neg fun hb => he (h.names item hitem hb)]
  · obtain ⟨item, hitem, he⟩ := h.item
    rw [TpConf.apply, hs, Option.getD_none, if_neg]
    rw [← he]
    exact hno item hitem

theorem strItems_setBy : ∀ f ∈ TpConf.strItems, SetBy f.1 f.2 fun value => some (cstr value) := by
  have hitem : ∀ f ∈ TpConf.strItems, ∃ item ∈ TpConf.items, item.1 = f.1 := by decide
  have hnames : ∀ f ∈ TpConf.strItems, ∀ item ∈ TpConf.items,
      bytes item.1 = bytes f.1 → item.1 = f.1 := by decide
  have hset : ∀ f ∈ TpConf.strItems, ∀ item ∈ TpConf.items, ∀ tp value,
      f.2 (item.2 tp value) = if item.1 = f.1 then some (cstr value) else f.2 tp := by
    simp [TpConf.strItems, TpConf.items]
  exact fun f hf => ⟨hitem f hf, hnames f hf, hset f hf⟩

theorem intItems_setBy : ∀ f ∈ TpConf.intItems, SetBy f.1 f.2 atoi := by
  have hitem : ∀ f ∈ TpConf.intItems, ∃ item ∈ TpConf.items, item.1 = f.1 := by decide
  have hnames : ∀ f ∈ TpConf.intItems, ∀ item ∈ TpConf.items,
      bytes item.1 = bytes f.1 → item.1 = f.1 := by decide
  have hset : ∀ f ∈ TpConf.intItems, ∀ item ∈ TpConf.items, ∀ tp value,
      f.2 (item.2 tp value) = if item.1 = f.1 then atoi value else f.2 tp := by
    simp [TpConf.intItems, TpConf.items]
  exact fun f hf => ⟨hitem f hf, hnames f hf, hset f hf⟩

/-- The name of a transport stays. -/
theorem apply_name (tp : TpConf) (i : IniItem) : (tp.apply i).name = tp.name := by
  have hname : ∀ item ∈ TpConf.items, ∀ tp value, (item.2 tp value).name = tp.name := by
    simp [TpConf.items]
  rcases setItem_cases tp i.name i.value with ⟨item, hitem, -, hs⟩ | ⟨-, hs⟩
  · rw [TpConf.apply, hs, Option.getD_some, hname item hitem]
  · rw [TpConf.apply, hs, Option.getD_none]

theorem findIdx?_name (hnames : ∀ tp ∈ tps, NulFree tp.name) :
    (tps.findIdx? fun tp => strcmp tp.name sec) = tps.findIdx? fun tp => tp.name = cstr sec := by
  induction tps with
  | nil => rfl
  | cons tp tps ih =>
    rw [List.findIdx?_cons, List.findIdx?_cons, ih fun tp htp => hnames tp (by simp [htp]), strcmp,
      cstr_of_nulFree (hnames tp (by simp))]

/-- The item is set at the index of the transport. -/
theorem handle_at {k : ℕ} (hk : tps[k]? = some tp) :
    (match tps[k]?.bind fun tp => tp.setItem i.name i.value with
      | some tp => (true, tps.set k tp)
      | none => (false, tps)) =
    ((tp.setItem i.name i.value).isSome, tps.modify k fun tp => tp.apply i) := by
  have hmod : tps.modify k (fun tp => tp.apply i) = tps.set k (tp.apply i) := by
    obtain ⟨hlt, rfl⟩ := List.getElem?_eq_some_iff.1 hk
    exact List.modify_eq_set_get _ hlt
  rw [hk, Option.bind_some, hmod, TpConf.apply]
  cases tp.setItem i.name i.value with
  | none =>
    obtain ⟨hlt, rfl⟩ := List.getElem?_eq_some_iff.1 hk
    rw [Option.getD_none, List.set_getElem_self]
    rfl
  | some tp' => rfl

/-- A call for a section that has a transport. -/
theorem tpIniHandler_found {k : ℕ} (hfind : (tps.findIdx? fun tp => strcmp tp.name i.section_) = some k)
    (hk : tps[k]? = some tp) : tpIniHandler tps i =
      ((tp.setItem i.name i.value).isSome, tps.modify k fun tp => tp.apply i) := by
  rw [tpIniHandler, hfind]
  exact handle_at hk

/-- A call for a new section. -/
theorem tpIniHandler_new (hfind : (tps.findIdx? fun tp => strcmp tp.name i.section_) = none) :
    tpIniHandler tps i = (((newTp i.section_).setItem i.name i.value).isSome,
      (tps ++ [newTp i.section_]).modify tps.length fun tp => tp.apply i) := by
  rw [tpIniHandler, hfind]
  exact handle_at (by simp)

/-- **A call changes the transport of its section**, which is new if there was
    none; it returns 1 iff it knows the item. -/
theorem tpIniHandler_eq (hnames : ∀ tp ∈ tps, NulFree tp.name) :
    (tpIniHandler tps i).2 =
        Keyed.upsert TpConf.name .blank (cstr i.section_) (fun tp => tp.apply i) tps ∧
      ((tpIniHandler tps i).1 = true ↔ ∃ item ∈ TpConf.items, cstr i.name = bytes item.1) := by
  have hknown : ∀ tp : TpConf, (tp.setItem i.name i.value).isSome = true ↔
      ∃ item ∈ TpConf.items, cstr i.name = bytes item.1 := by
    intro tp
    rcases setItem_cases tp i.name i.value with ⟨item, hitem, hname, hs⟩ | ⟨hno, hs⟩
    · simp only [hs, Option.isSome_some, true_iff]
      exact ⟨item, hitem, hname⟩
    · simp only [hs, Option.isSome_none, Bool.false_eq_true, false_iff, not_exists, not_and]
      exact hno
  rw [Keyed.upsert]
  cases hfind : tps.findIdx? fun tp => tp.name = cstr i.section_ with
  | none =>
    have hnew : TpConf.blank (cstr i.section_) = newTp i.section_ := rfl
    rw [tpIniHandler_new ((findIdx?_name hnames).trans hfind), hnew]
    refine ⟨?_, hknown _⟩
    dsimp only
    rw [List.modify_eq_set_get _ (by simp), List.set_append_right _ _ (Nat.le_refl _)]
    simp
  | some k =>
    obtain ⟨hlt, -⟩ := List.findIdx?_eq_some_iff_getElem.1 hfind
    rw [tpIniHandler_found ((findIdx?_name hnames).trans hfind) (List.getElem?_eq_getElem hlt)]
    exact ⟨rfl, hknown _⟩

/-! ## Any calls -/

/-- The action of a call on the transport of its section. -/
def IniItem.act (i : IniItem) : Bytes × (TpConf → TpConf) := (cstr i.section_, fun tp => tp.apply i)

theorem keys_acts : Keyed.keys (calls.map IniItem.act) = sections calls := by
  rw [Keyed.keys, List.map_map]
  rfl

theorem act_name : ∀ a ∈ calls.map IniItem.act, ∀ tp : TpConf, (a.2 tp).name = tp.name := by
  intro a ha tp
  obtain ⟨i, -, rfl⟩ := List.mem_map.1 ha
  exact apply_name tp i

/-- A section is a C string. -/
theorem sections_nulFree : ∀ sec ∈ sections calls, NulFree sec := by
  intro sec hsec
  obtain ⟨i, -, rfl⟩ := List.mem_map.1 (Keyed.mem_firsts.1 hsec)
  exact cstr_nulFree _

theorem iniTable_snoc : iniTable tps (calls ++ [i]) = (tpIniHandler (iniTable tps calls) i).2 :=
  List.foldl_append

/-- **The table is built by key.** -/
theorem iniTable_eq : iniTable [] calls =
    Keyed.build TpConf.name .blank (calls.map IniItem.act) := by
  induction calls using List.reverseRecOn with
  | nil => rfl
  | append_singleton calls i ih =>
    have hnames : ∀ tp ∈ iniTable [] calls, NulFree tp.name := by
      intro tp htp
      rw [ih, Keyed.mem_build_iff (fun _ => rfl) act_name, keys_acts] at htp
      exact sections_nulFree _ htp.1
    rw [iniTable_snoc, (tpIniHandler_eq hnames).1, ih, List.map_append, Keyed.build, Keyed.build,
      List.foldl_append]
    rfl

/-- The calls of a section, applied. -/
theorem value_acts : Keyed.value .blank (calls.map IniItem.act) sec =
    (calls.filter fun i => cstr i.section_ = sec).foldl TpConf.apply (.blank sec) := by
  rw [Keyed.value, List.filter_map, List.foldl_map]
  rfl

/-- **A field of a transport is what the last call for it has set.** -/
theorem SetBy.eq_last {β : Type} {n : String} {get : TpConf → β} {v : Bytes → β}
    (h : SetBy n get v) (htp : tp ∈ iniTable [] calls) :
    get tp = ((lastCall calls tp.name n).map fun i => v i.value).getD (get (.blank tp.name)) := by
  rw [iniTable_eq, Keyed.mem_build_iff (fun _ => rfl) act_name] at htp
  have hread := @Keyed.read_foldl _ _ _ TpConf.apply get (fun i => cstr i.name = bytes n)
    (fun i => v i.value) (fun t i => by simpa using h.apply t i)
    (calls.filter fun i => cstr i.section_ = tp.name) (.blank tp.name)
  have hlast : (calls.filter fun i => cstr i.section_ = tp.name).filter
      (fun i => cstr i.name = bytes n) =
      calls.filter fun i => cstr i.section_ = tp.name ∧ cstr i.name = bytes n := by
    rw [List.filter_filter]
    refine List.filter_congr fun i _ => ?_
    rw [Bool.and_comm, Bool.decide_and]
  rw [hlast, ← value_acts, ← htp.2] at hread
  exact hread

/-- The names of the table. -/
theorem iniTable_names : (iniTable [] calls).map TpConf.name = sections calls := by
  rw [iniTable_eq, Keyed.build_eq (fun _ => rfl) act_name, keys_acts, List.map_map]
  conv_rhs => rw [← List.map_id (sections calls)]
  exact List.map_congr_left fun sec _ => Keyed.key_value (fun _ => rfl) act_name

theorem mem_sections : sec ∈ sections calls ↔ ∃ i ∈ calls, cstr i.section_ = sec := by
  rw [sections, Keyed.mem_firsts, List.mem_map]

theorem iniTable_nulFree (htp : tp ∈ iniTable [] calls) : NulFree tp.name := by
  have hmem := List.mem_map_of_mem (f := TpConf.name) htp
  rw [iniTable_names] at hmem
  exact sections_nulFree _ hmem

/-- **The look-up finds the transport of the section.** -/
theorem lookUp_eq_some_iff :
    lookUp (iniTable [] calls) name = some tp ↔ tp ∈ iniTable [] calls ∧ tp.name = cstr name := by
  have hcmp : ∀ t ∈ iniTable [] calls, strcmp t.name name = true ↔ t.name = cstr name := by
    intro t ht
    rw [strcmp_iff, cstr_of_nulFree (iniTable_nulFree ht)]
  rw [lookUp_eq]
  constructor
  · intro h
    have htp := List.mem_of_find?_eq_some h
    have hfound : strcmp tp.name name = true := by simpa using List.find?_some h
    exact ⟨htp, (hcmp tp htp).1 hfound⟩
  · rintro ⟨htp, hname⟩
    cases hfind : (iniTable [] calls).find? fun tp => strcmp tp.name name with
    | none =>
      exact absurd ((hcmp tp htp).2 hname) (List.find?_eq_none.1 hfind tp htp)
    | some t =>
      have ht := List.mem_of_find?_eq_some hfind
      have hfound : strcmp t.name name = true := by simpa using List.find?_some hfind
      have he : t.name = tp.name := ((hcmp t ht).1 hfound).trans hname.symm
      rw [iniTable_eq] at ht htp
      rw [Keyed.eq_of_key (fun _ => rfl) act_name ht htp he]

theorem lookUp_eq_none_iff :
    lookUp (iniTable [] calls) name = none ↔ ∀ i ∈ calls, cstr i.section_ ≠ cstr name := by
  have hmem : ∀ sec, (∃ tp ∈ iniTable [] calls, tp.name = sec) ↔ ∃ i ∈ calls, cstr i.section_ = sec := by
    intro sec
    rw [← mem_sections, ← iniTable_names, List.mem_map]
  rw [Option.eq_none_iff_forall_ne_some]
  constructor
  · intro h i hi he
    obtain ⟨tp, htp, hname⟩ := (hmem (cstr name)).2 ⟨i, hi, he⟩
    exact h tp (lookUp_eq_some_iff.2 ⟨htp, hname⟩)
  · intro h tp htp
    obtain ⟨htp, hname⟩ := lookUp_eq_some_iff.1 htp
    obtain ⟨i, hi, he⟩ := (hmem (cstr name)).1 ⟨tp, htp, hname⟩
    exact h i hi he

/-! ## The checks -/

theorem mapError_eq_ok_iff {ε ε' α : Type} {f : ε → ε'} {x : Except ε α} {a : α} :
    x.mapError f = .ok a ↔ x = .ok a := by
  cases x with
  | error e => simp [Except.mapError]
  | ok b => simp [Except.mapError]

theorem forM_checkTp (h : (tps.forM fun tp => tp.checkTp.mapError LoadExit.check) = .ok ()) :
    ∀ tp ∈ tps, tp.checkTp = .ok () := by
  induction tps with
  | nil =>
    intro tp htp
    cases htp
  | cons tp tps ih =>
    rw [List.forM_eq_forM, List.forM_cons, bind_eq_ok_iff] at h
    obtain ⟨_, hcheck, hrest⟩ := h
    intro t ht
    rcases List.mem_cons.1 ht with rfl | ht
    · exact mapError_eq_ok_iff.1 hcheck
    · exact ih hrest t ht

/-- **`loadTpConfig` returns with checked transports.** -/
theorem loadTpConfig_ok {testTp : Bool} {n : ℤ} {r : List TpConf}
    (h : loadTpConfig testTp tps calls n = .ok r) :
    r = iniTable tps calls ∧ ∀ tp ∈ r, tp.checkTp = .ok () := by
  unfold loadTpConfig at h
  dsimp only at h
  split at h
  · cases h
  · obtain ⟨_, hcheck, h⟩ := bind_eq_ok_iff.1 h
    split at h
    · cases h
    · cases h
      exact ⟨rfl, forM_checkTp hcheck⟩

/-! ## The table -/

theorem strItem_eq (htp : tp ∈ iniTable [] calls) : ∀ f ∈ TpConf.strItems,
    f.2 tp = (lastCall calls tp.name f.1).map fun i => cstr i.value := by
  intro f hf
  have hblank : ∀ f ∈ TpConf.strItems, ∀ sec, f.2 (.blank sec) = none := by
    simp [TpConf.strItems, TpConf.blank]
  rw [(strItems_setBy f hf).eq_last htp, hblank f hf]
  cases lastCall calls tp.name f.1 <;> rfl

theorem intItem_eq (htp : tp ∈ iniTable [] calls) : ∀ f ∈ TpConf.intItems,
    f.2 tp = ((lastCall calls tp.name f.1).map fun i => atoi i.value).getD 0 := by
  intro f hf
  have hblank : ∀ f ∈ TpConf.intItems, ∀ sec, f.2 (.blank sec) = 0 := by
    simp [TpConf.intItems, TpConf.blank]
  rw [(intItems_setBy f hf).eq_last htp, hblank f hf]

/-- A transport of the table that `checkTp` lets pass. -/
structure TpConf.Complete (tp : TpConf) : Prop where
  host : tp.host ≠ none
  port : tp.port ≠ none
  ssl : tp.ssl ∈ [some (bytes ""), some (bytes "SSL"), some (bytes "TLS")]
  auth : tp.auth = some (bytes "LOGIN")
  username : tp.username ≠ none
  password : tp.password ≠ none
  maxConn : 1 ≤ tp.maxConn

theorem complete_of_check (htp : tp ∈ iniTable [] calls) (h : tp.checkTp = .ok ()) :
    tp.Complete := by
  -- the strings of the table are C strings
  have hstr : ∀ f ∈ TpConf.strItems, ∀ value, f.2 tp = some value → cstr value = value := by
    intro f hf value hv
    rw [strItem_eq htp f hf, Option.map_eq_some_iff] at hv
    obtain ⟨i, -, rfl⟩ := hv
    exact cstr_cstr _
  obtain ⟨t, ht, hssl, hauth, hmax⟩ := checkTp_ok_iff.1 h
  simp only [TpConf.tp?, Option.bind_eq_bind, Option.bind_eq_some_iff] at ht
  obtain ⟨host, hh, port, hp, ssl, hs, auth, ha, username, hu, password, hpw, ht⟩ := ht
  obtain rfl := Option.some.inj ht
  have hssl' : cstr ssl = ssl := hstr ("ssl", TpConf.ssl) (by simp [TpConf.strItems]) ssl hs
  have hauth' : cstr auth = auth := hstr ("auth", TpConf.auth) (by simp [TpConf.strItems]) auth ha
  refine ⟨by simp [hh], by simp [hp], ?_, ?_, by simp [hu], by simp [hpw], hmax⟩
  · rw [strcmp_iff, strcmp_iff, strcmp_iff, hssl'] at hssl
    rw [hs]
    rcases hssl with rfl | rfl | rfl
    · decide
    · decide
    · decide
  · rw [strcmp_iff, hauth'] at hauth
    rw [ha, hauth]
    decide

/-- **The configuration table**: one transport for each section, in the order of
    first appearance, with the items that were set last; the look-up by name
    finds them; and `loadTpConfig` returns only if all of them are complete. -/
theorem config_table (calls : List IniItem) :
    (iniTable [] calls).map TpConf.name = sections calls ∧ (sections calls).Nodup ∧
      (∀ sec, sec ∈ sections calls ↔ ∃ i ∈ calls, cstr i.section_ = sec) ∧
      (∀ tp ∈ iniTable [] calls,
        (∀ f ∈ TpConf.strItems, f.2 tp = (lastCall calls tp.name f.1).map fun i => cstr i.value) ∧
        ∀ f ∈ TpConf.intItems,
          f.2 tp = ((lastCall calls tp.name f.1).map fun i => atoi i.value).getD 0) ∧
      (∀ name tp, lookUp (iniTable [] calls) name = some tp ↔
        tp ∈ iniTable [] calls ∧ tp.name = cstr name) ∧
      (∀ name, lookUp (iniTable [] calls) name = none ↔
        ∀ i ∈ calls, cstr i.section_ ≠ cstr name) ∧
      ∀ testTp n r, loadTpConfig testTp [] calls n = .ok r →
        r = iniTable [] calls ∧ ∀ tp ∈ r, tp.Complete := by
  refine ⟨iniTable_names, Keyed.nodup_firsts _, fun _ => mem_sections,
    fun tp htp => ⟨strItem_eq htp, intItem_eq htp⟩, fun _ _ => lookUp_eq_some_iff,
    fun _ => lookUp_eq_none_iff, fun testTp n r hr => ?_⟩
  obtain ⟨rfl, hcheck⟩ := loadTpConfig_ok hr
  exact ⟨rfl, fun tp htp => complete_of_check htp (hcheck tp htp)⟩

end

/-- The calls for a file with one section. -/
def relayCalls : List IniItem :=
  [("host", "relay"), ("port", "25"), ("ssl", ""), ("auth", "LOGIN"), ("username", "u"),
    ("password", "p"), ("maxConn", "2")].map fun x => ⟨bytes "relay", bytes x.1, bytes x.2⟩

theorem config_table_relay : ∃ r, loadTpConfig false [] relayCalls 0 = .ok r ∧ r.length = 1 ∧
    (∀ tp ∈ r, tp.Complete) ∧ lookUp r (bytes "none") = none := by
  obtain ⟨-, -, -, -, -, hnone, hload⟩ := config_table relayCalls
  have hok : (loadTpConfig false [] relayCalls 0).isOk = true := by decide +kernel
  have hlen : (iniTable [] relayCalls).length = 1 := by decide +kernel
  have hno : ∀ i ∈ relayCalls, cstr i.section_ ≠ cstr (bytes "none") := by decide +kernel
  cases hr : loadTpConfig false [] relayCalls 0 with
  | error e =>
    rw [hr] at hok
    cases hok
  | ok r =>
    obtain ⟨rfl, hcomplete⟩ := hload false 0 r hr
    exact ⟨_, rfl, hlen, hcomplete, (hnone (bytes "none")).2 hno⟩

end SmtpProxy
