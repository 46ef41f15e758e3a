/-
  The configuration file (transport.c): `tpIniHandler`, called for every item
  that the parser of transport.ini finds, and `checkTp`.

  * `tpIniHandler`: the transports after one more item; a section that has no
    transport yet gets one;
  * `checkTp`: what is logged before `exit(1)`, if the items of a transport will
    not do; `checkTp_ok_iff`: the transports it lets pass are those of
    `Transport`.
-/
import SmtpProxy.Transport

namespace SmtpProxy

open CString

/-- `tp_t` in the hands of `loadTpConfig` and `freeTp`: the items, as far as they
    are set, and whether it has been freed. -/
structure TpConf where
  name : Bytes
  host : Option Bytes
  port : Option Bytes
  ssl : Option Bytes
  auth : Option Bytes
  username : Option Bytes
  password : Option Bytes
  maxConn : ℤ
  maxSendPerConn : ℤ
  sleepSecondsPerSend : ℤ
  maxNoop : ℤ
  sleepSecondsPerNoop : ℤ
  freed : Bool
  deriving DecidableEq

/-- What the parser calls the handler with. -/
structure IniItem where
  section_ : Bytes
  name : Bytes
  value : Bytes
  deriving DecidableEq

/-- `newTp`, before it is appended. -/
def newTp (name : Bytes) : TpConf :=
  ⟨cstr name, none, none, none, none, none, none, 0, 0, 0, 0, 0, false⟩

namespace TpConf

/-- The tests of `tpIniHandler` in their order: `HANDLE_STR_ITEM` and
    `HANDLE_INT_ITEM` for each field. -/
def items : List (String × (TpConf → Bytes → TpConf)) :=
  [("host", fun tp value => { tp with host := some (cstr value) }),
    ("port", fun tp value => { tp with port := some (cstr value) }),
    ("ssl", fun tp value => { tp with ssl := some (cstr value) }),
    ("auth", fun tp value => { tp with auth := some (cstr value) }),
    ("username", fun tp value => { tp with username := some (cstr value) }),
    ("password", fun tp value => { tp with password := some (cstr value) }),
    ("maxConn", fun tp value => { tp with maxConn := atoi value }),
    ("maxSendPerConn", fun tp value => { tp with maxSendPerConn := atoi value }),
    ("sleepSecondsPerSend", fun tp value => { tp with sleepSecondsPerSend := atoi value }),
    ("maxNoop", fun tp value => { tp with maxNoop := atoi value }),
    ("sleepSecondsPerNoop", fun tp value => { tp with sleepSecondsPerNoop := atoi value })]

/-- One item of a transport; `none`: an unknown one. -/
def setItem (tp : TpConf) (name value : Bytes) : Option TpConf :=
  (items.find? fun item => strcmp name (bytes item.1)).map fun item => item.2 tp value

/-- `TP_CONFIG_LOG(…); exit(1)` -/
def configError {α : Type} (text : Bytes) : Except Bytes α :=
  .error (bytes "[TP CONFIG] " ++ text)

/-- `REQUIRED(n)` -/
def required (n : String) (item : Option Bytes) : Except Bytes Bytes :=
  match item with
  | none => configError (bytes n ++ bytes " required\n")
  | some value => .ok value

/-- `checkTp`; an error is what it logs before `exit(1)`. -/
def checkTp (tp : TpConf) : Except Bytes Unit := do
  let _ ← required "tp->host" tp.host
  let _ ← required "tp->port" tp.port
  let ssl ← required "tp->ssl" tp.ssl
  let auth ← required "tp->auth" tp.auth
  let _ ← required "tp->username" tp.username
  let _ ← required "tp->password" tp.password
  if !strcmp ssl (bytes "") && !strcmp ssl (bytes "SSL") && !strcmp ssl (bytes "TLS") then
    configError (bytes "unsupported ssl value: " ++ cstr ssl ++ bytes "\n")
  else if !strcmp auth (bytes "LOGIN") then
    configError (bytes "unsupported auth method: " ++ cstr auth ++ bytes "\n")
  else if tp.maxConn < 1 then configError (bytes "maxConn at least 1\n")
  else .ok ()

/-- The configured transport, when all six strings are set. -/
def tp? (tp : TpConf) : Option Tp := do
  some ⟨tp.name, ← tp.host, ← tp.port, ← tp.ssl, ← tp.auth, ← tp.username, ← tp.password,
    tp.maxConn, tp.maxSendPerConn, tp.sleepSecondsPerSend, tp.maxNoop, tp.sleepSecondsPerNoop⟩

end TpConf

/-- `tpIniHandler`: its result, and the transports. -/
def tpIniHandler (tps : List TpConf) (i : IniItem) : Bool × List TpConf :=
  let (k, tps) := match tps.findIdx? fun tp => strcmp tp.name i.section_ with
    | some k => (k, tps)
    | none => (tps.length, tps ++ [newTp i.section_])
  match tps[k]?.bind fun tp => tp.setItem i.name i.value with
  | some tp => (true, tps.set k tp)
  | none => (false, tps)

/-! ## What `checkTp` lets pass -/

/-- The checks of `checkTp` behind those for the strings that are required. -/
structure Tp.Checked (tp : Tp) : Prop where
  ssl : strcmp tp.ssl (bytes "") ∨ strcmp tp.ssl (bytes "SSL") ∨ strcmp tp.ssl (bytes "TLS")
  auth : strcmp tp.auth (bytes "LOGIN")
  maxConn : 1 ≤ tp.maxConn

theorem required_ok_iff {n : String} {item : Option Bytes} {value : Bytes} :
    TpConf.required n item = .ok value ↔ item = some value := by
  cases item with
  | none => simp [TpConf.required, TpConf.configError]
  | some v => simp [TpConf.required]

theorem bind_eq_ok_iff {ε α β : Type} {x : Except ε α} {f : α → Except ε β} {b : β} :
    x >>= f = .ok b ↔ ∃ a, x = .ok a ∧ f a = .ok b := by
  cases x with
  | error e => simp [bind, Except.bind]
  | ok a => simp [bind, Except.bind]

/-- **`checkTp` lets a transport pass iff all its strings are set, `ssl` and
    `auth` are supported and `maxConn` is at least 1.** -/
theorem checkTp_ok_iff {tp : TpConf} :
    tp.checkTp = .ok () ↔ ∃ t, tp.tp? = some t ∧ t.Checked := by
  simp only [TpConf.checkTp, bind_eq_ok_iff, required_ok_iff, TpConf.tp?, Option.bind_eq_bind,
    Option.bind_eq_some_iff]
  constructor
  · rintro ⟨host, hh, port, hp, ssl, hs, auth, ha, username, hu, password, hpw, h⟩
    refine ⟨_, ⟨host, hh, port, hp, ssl, hs, auth, ha, username, hu, password, hpw, rfl⟩, ?_⟩
    split_ifs at h with h₁ h₂ h₃
    · cases h
    · cases h
    · cases h
    · refine ⟨?_, by simpa using h₂, by simpa using h₃⟩
      by_contra hno
      simp only [not_or, Bool.not_eq_true] at hno
      exact h₁ (by simp [hno])
  · rintro ⟨t, ⟨host, hh, port, hp, ssl, hs, auth, ha, username, hu, password, hpw, ht⟩, hc⟩
    obtain rfl := Option.some.inj ht
    obtain ⟨hssl, hauth, hmax⟩ := hc
    refine ⟨host, hh, port, hp, ssl, hs, auth, ha, username, hu, password, hpw, ?_⟩
    rw [if_neg, if_neg (by simpa using hauth), if_neg (by simpa using hmax)]
    rcases hssl with h | h | h <;> simp [show strcmp ssl _ = true from h]

/-! ## What the handler keeps -/

theorem items_freed (tp : TpConf) (value : Bytes) :
    ∀ item ∈ TpConf.items, (item.2 tp value).freed = tp.freed := by
  simp [TpConf.items]

theorem setItem_freed {tp tp' : TpConf} {name value : Bytes} (h : tp.setItem name value = some tp') :
    tp'.freed = tp.freed := by
  obtain ⟨item, hitem, rfl⟩ := Option.map_eq_some_iff.1 h
  exact items_freed tp value item (List.mem_of_find?_eq_some hitem)

/-- The handler sets items and adds transports; it frees none. -/
theorem tpIniHandler_live {tps : List TpConf} (i : IniItem) (h : ∀ tp ∈ tps, tp.freed = false) :
    ∀ tp ∈ (tpIniHandler tps i).2, tp.freed = false := by
  have hset : ∀ (k : ℕ) (l : List TpConf), (∀ tp ∈ l, tp.freed = false) →
      ∀ tp ∈ (match l[k]?.bind fun tp => tp.setItem i.name i.value with
        | some tp => (true, l.set k tp)
        | none => (false, l)).2, tp.freed = false := by
    intro k l hl tp htp
    cases hk : l[k]?.bind fun tp => tp.setItem i.name i.value with
    | none =>
      rw [hk] at htp
      exact hl tp htp
    | some tp₁ =>
      rw [hk] at htp
      obtain ⟨tp₀, h₀, h₁⟩ := Option.bind_eq_some_iff.1 hk
      rcases List.mem_or_eq_of_mem_set htp with htp | rfl
      · exact hl tp htp
      · rw [setItem_freed h₁]
        exact hl tp₀ (List.mem_of_getElem? h₀)
  unfold tpIniHandler
  cases tps.findIdx? fun tp => strcmp tp.name i.section_ with
  | some k => exact hset k tps h
  | none =>
    refine hset _ _ fun tp htp => ?_
    rcases List.mem_append.1 htp with htp | htp
    · exact h tp htp
    · rw [List.mem_singleton.1 htp]
      rfl

end SmtpProxy
