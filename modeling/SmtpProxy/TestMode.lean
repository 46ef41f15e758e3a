/-
  The process up to `mainLoop` (`main` in main.c), the test of a configuration
  (`doTestTp` in transport.c), and bin/reload.sh.

  `reload.sh` runs the program with `-t`, and sends SIGHUP unless that ends with
  status 1; the running proxy then calls `loadTpConfig(0)`, which ends the process
  if the file is not in order.

  No handler is set for SIGPIPE: a write on a connection that the server has reset
  ends the process, and the script takes the status 141 for a good one.

  * `World`: what a start of the program meets;
  * `doTestTp_iff`: a transport passes iff `newConn` would get a connection from the
    same answers, and QUIT is answered; `doTestTp_calls`: its exchange, call by call;
  * `main_test`, `main_serves_iff`: how the test mode ends, and what the proxy serves;
  * `reload_sh`: **the script sends SIGHUP iff the file loads and all its transports
    answer, or SIGPIPE ends the test of one of them; and then the reload does not end
    the proxy**.
-/
import SmtpProxy.Ini.Load
import SmtpProxy.Secrecy
import SmtpProxy.SendMail

namespace SmtpProxy.TestMode

open CString Ini

/-- What the test of a transport meets: `tcpConnect`, the network, what is in
    `err[1024]`, and whether the last write of its exchange, if it fails, or the one of
    `SSL_shutdown` finds the connection reset. -/
structure Server where
  connected : Bool
  net : Net
  err : Bytes
  reset : Bool

/-- The session of the connection, without TLS at first. -/
def Server.session (v : Server) : Session := ⟨false, v.net.sends, v.net.recvs, v.net.hands, v.err, []⟩

/-- How the test of a transport ends. -/
inductive Verdict where
  | passed
  | failed  -- `exit(1)`
  | sigpipe
  deriving DecidableEq

/-- The call that a list of calls breaks off in, and the session it finds. -/
def breaksAt : List Op → Session → Option (Op × Session)
  | [], _ => none
  | o :: os, w =>
    match o.cmd w with
    | (true, w') => breaksAt os w'
    | (false, _) => some (o, w)

/-- A call that fails as it writes: `send` or `SSL_write`, or `SSL_connect`. -/
def failsWriting : Op × Session → Bool
  | (.write _, w) => w.nextSend.1 = .error
  | (.hand, _) => true
  | _ => false

/-- The calls of the test of a transport. -/
def testOps (tp : Tp) : List Op := ehloOps tp ++ authOps tp ++ quitOps

def doTestTp (tp : Tp) (v : Server) : Verdict :=
  if !v.connected then .failed
  else
    match (smtpEHLO tp).and ((smtpAuth tp).and smtpQUIT) v.session with
    | (true, w) => if w.ssl && v.reset then .sigpipe else .passed  -- in `SSL_shutdown`
    | (false, _) =>
      if (breaksAt (testOps tp) v.session).any failsWriting && v.reset then .sigpipe else .failed

/-- What a start of the program meets: `fopen(LOG_FILE)`, transport.ini and the servers
    of its transports, the two calls of `tcpListen`, and `daemon`. -/
structure World where
  logOpens : Bool
  file : Option Bytes
  servers : ℕ → Server
  proxyListens : Bool
  monitorListens : Bool
  daemon : Bool

/-- What becomes of the process. -/
inductive Launch where
  | exit (status : ℕ)
  | sigpipe  -- ended by the signal
  | serves (transports : List TpConf)  -- `mainLoop` is called
  deriving DecidableEq

/-- `dllistVisit(transports, doTestTp, &total); exit(0)` -/
def testTps (servers : ℕ → Server) : ℕ → List TpConf → Launch
  | _, [] => .exit 0
  | idx, tp :: tps =>
    match tp.tp?.map fun tp => doTestTp tp (servers idx) with
    | some .passed => testTps servers (idx + 1) tps
    | some .sigpipe => .sigpipe
    | _ => .exit 1

/-- The letters that `getopt` returns, known or not. -/
def getopt : List Bytes → Bytes
  | [] => []
  | arg :: argv =>
    if arg = bytes "--" then []
    else if [45] <+: arg ∧ arg ≠ [45] then arg.tail ++ getopt argv
    else getopt argv

/-- `main`, from the return of `ini_parse` and the checks on. -/
def launch (testTp daemonize : Bool) (w : World) : Except LoadExit (List TpConf) → Launch
  | .error _ => .exit 1
  | .ok transports =>
    if testTp then testTps w.servers 0 transports
    else if !w.proxyListens || !w.monitorListens then .exit 2
    else if daemonize && !w.daemon then .exit 3
    else .serves transports

/-- `main`; `none`: the parser leaves its buffers. -/
def main (argv : List Bytes) (stack : Bytes) (w : World) : Option Launch :=
  let testTp : Bool := 116 ∈ getopt argv
  let daemonize : Bool := 68 ∉ getopt argv
  if !testTp && daemonize && !w.logOpens then some (.exit 2)
  else (loadFile stack false [] w.file).map (launch testTp daemonize w)

/-- `$?` in the shell, if the process has ended. -/
def Launch.status : Launch → Option ℕ
  | .exit status => some status
  | .sigpipe => some 141
  | .serves _ => none

/-- `reload.sh`: whether it sends SIGHUP. -/
def reloadSh (stack : Bytes) (w : World) : Option Bool :=
  (main [bytes "-t"] stack w).map fun l => l.status ≠ some 1

section
variable {tp : Tp} {v : Server} {w : World} {stack stack' : Bytes} {tps : List TpConf} {idx : ℕ}

theorem and_fst_iff {f g : Cmd} {s : Session} :
    (f.and g s).1 = true ↔ (f s).1 = true ∧ (g (f s).2).1 = true := by
  rw [Cmd.and]
  rcases f s with ⟨_ | _, s'⟩
  · simp
  · simp

/-- **A transport passes the test** iff `newConn` would succeed, and QUIT after it, and
    `SSL_shutdown` does not find the connection reset. -/
theorem doTestTp_iff : doTestTp tp v = .passed ↔ v.connected = true ∧
    (newConn tp v.connected v.session).1 = true ∧
    (smtpQUIT (newConn tp v.connected v.session).2).1 = true ∧
    ((smtpQUIT (newConn tp v.connected v.session).2).2.ssl && v.reset) = false := by
  cases hconn : v.connected with
  | false => simp [doTestTp, hconn]
  | true =>
    have hnew : newConn tp true v.session = (smtpEHLO tp).and (smtpAuth tp) v.session := rfl
    rw [doTestTp, hconn, hnew, ← Cmd.and_assoc, Cmd.and]
    rcases (smtpEHLO tp).and (smtpAuth tp) v.session with ⟨_ | _, w⟩
    · simp
      split_ifs <;> simp
    · dsimp only
      rcases smtpQUIT w with ⟨_ | _, w'⟩
      · simp
        split_ifs <;> simp
      · cases hssl : w'.ssl <;> cases v.reset <;> simp [hssl]

/-- The test of a transport is made call by call like the exchanges of the pool, so its
    connection keeps to the session as those do. -/
theorem doTestTp_calls (h : v.connected = true) : ∃ ios,
    ((SmtpProxy.doTestTp tp ios).1 = true ↔ doTestTp tp { v with reset := false } = .passed) ∧
      (SmtpProxy.doTestTp tp ios).2.todo = [] := by
  obtain ⟨ios, hok, -, htodo⟩ := calls_of_cmd (ehloOps tp ++ authOps tp ++ quitOps) v.session []
  refine ⟨ios, ?_, htodo⟩
  have hrun : (runOps (ehloOps tp ++ authOps tp ++ quitOps) v.session).1 = true ↔
      (newConn tp v.connected v.session).1 = true ∧
        (smtpQUIT (newConn tp v.connected v.session).2).1 = true := by
    rw [runOps_append, runOps_append, ← smtpEHLO_eq, ← smtpAuth_eq, ← smtpQUIT_eq, and_fst_iff, h]
    rfl
  rw [doTestTp_iff]
  simp only [Bool.and_false, and_true, h, true_and]
  rw [h] at hrun
  exact (Eq.congr_left hok).trans hrun

/-- The transport `idx` passes the test. -/
def Passes (servers : ℕ → Server) (idx : ℕ) (conf : TpConf) : Prop :=
  ∃ tp, conf.tp? = some tp ∧ doTestTp tp (servers idx) = .passed

/-- SIGPIPE ends the test of the transport `idx`. -/
def Broken (servers : ℕ → Server) (idx : ℕ) (conf : TpConf) : Prop :=
  ∃ tp, conf.tp? = some tp ∧ doTestTp tp (servers idx) = .sigpipe

/-- All transports from `idx` on pass. -/
def AllPass (servers : ℕ → Server) (idx : ℕ) (tps : List TpConf) : Prop :=
  ∀ k conf, tps[k]? = some conf → Passes servers (idx + k) conf

/-- The first that does not pass is ended by SIGPIPE. -/
def Interrupted (servers : ℕ → Server) (idx : ℕ) (tps : List TpConf) : Prop :=
  ∃ k conf, tps[k]? = some conf ∧ Broken servers (idx + k) conf ∧ AllPass servers idx (tps.take k)

theorem allPass_cons {servers : ℕ → Server} {conf : TpConf} : AllPass servers idx (conf :: tps) ↔
    Passes servers idx conf ∧ AllPass servers (idx + 1) tps := by
  constructor
  · intro h
    refine ⟨h 0 conf rfl, fun k c hk => ?_⟩
    rw [Nat.add_assoc, Nat.add_comm 1 k]
    exact h (k + 1) c hk
  · rintro ⟨h, hall⟩ k c hk
    cases k with
    | zero =>
      obtain rfl := Option.some.inj hk
      exact h
    | succ k =>
      have hnext := hall k c hk
      rwa [Nat.add_assoc, Nat.add_comm 1 k] at hnext

theorem interrupted_cons {servers : ℕ → Server} {conf : TpConf} : Interrupted servers idx (conf :: tps) ↔
    Broken servers idx conf ∨ Passes servers idx conf ∧ Interrupted servers (idx + 1) tps := by
  constructor
  · rintro ⟨k, c, hk, hc, hall⟩
    cases k with
    | zero =>
      obtain rfl := Option.some.inj hk
      exact Or.inl hc
    | succ k =>
      rw [List.take_succ_cons, allPass_cons] at hall
      refine Or.inr ⟨hall.1, k, c, hk, ?_, hall.2⟩
      rwa [Nat.add_assoc, Nat.add_comm 1 k]
  · rintro (h | ⟨h, k, c, hk, hc, hall⟩)
    · exact ⟨0, conf, rfl, h, fun k c hk => by cases hk⟩
    · refine ⟨k + 1, c, hk, ?_, ?_⟩
      · rwa [Nat.add_assoc, Nat.add_comm 1 k] at hc
      · rw [List.take_succ_cons, allPass_cons]
        exact ⟨h, hall⟩

/-- The status is 0 iff all transports pass, and SIGPIPE ends the run iff it ends the
    test of the first that does not. -/
theorem testTps_cases (servers : ℕ → Server) (idx : ℕ) :
    (testTps servers idx tps = .exit 0 ∨ testTps servers idx tps = .exit 1 ∨ testTps servers idx tps = .sigpipe) ∧
    (testTps servers idx tps = .exit 0 ↔ AllPass servers idx tps) ∧
    (testTps servers idx tps = .sigpipe ↔ Interrupted servers idx tps) := by
  induction tps generalizing idx with
  | nil =>
    refine ⟨Or.inl rfl, iff_of_true rfl fun k conf hk => ?_, iff_of_false nofun ?_⟩
    · cases hk
    · rintro ⟨k, conf, hk, -⟩
      cases hk
  | cons conf tps ih =>
    have hpass : Passes servers idx conf ↔ (conf.tp?.map fun tp => doTestTp tp (servers idx)) = some .passed :=
      Option.map_eq_some_iff.symm
    have hbroken : Broken servers idx conf ↔ (conf.tp?.map fun tp => doTestTp tp (servers idx)) = some .sigpipe :=
      Option.map_eq_some_iff.symm
    rw [testTps, allPass_cons, interrupted_cons, hpass, hbroken]
    cases conf.tp?.map fun tp => doTestTp tp (servers idx) with
    | none => simp
    | some verdict =>
      cases verdict with
      | passed => simpa using ih (idx + 1)
      | failed => simp
      | sigpipe => simp

/-- What is loaded does not depend on what the stack holds before. -/
theorem loadFile_stack (hstack : stack.length = INI_MAX_LINE) (hstack' : stack'.length = INI_MAX_LINE)
    (file : Option Bytes) : loadFile stack false [] file = loadFile stack' false [] file := by
  cases file with
  | none => rfl
  | some file => rw [loadFile_eq hstack, loadFile_eq hstack']

theorem loadFile_isSome (hstack : stack.length = INI_MAX_LINE) (file : Option Bytes) :
    ∃ r, loadFile stack false [] file = some r := by
  cases file with
  | none => exact ⟨_, rfl⟩
  | some file => exact ⟨_, loadFile_eq hstack false file⟩

/-- The file loads, and each of its transports passes the test. -/
def Tested (stack : Bytes) (w : World) (tps : List TpConf) : Prop :=
  loadFile stack false [] w.file = some (.ok tps) ∧ AllPass w.servers 0 tps

/-- The file loads, and SIGPIPE ends the test of one of its transports, the first that
    does not pass. -/
def Ended (stack : Bytes) (w : World) (tps : List TpConf) : Prop :=
  loadFile stack false [] w.file = some (.ok tps) ∧ Interrupted w.servers 0 tps

/-- **The test mode** ends with 0 or 1 or by SIGPIPE, and with 0 iff the file is in order. -/
theorem main_test (hstack : stack.length = INI_MAX_LINE) (argv : List Bytes) (hopt : 116 ∈ getopt argv)
    (w : World) : ∃ l, main argv stack w = some l ∧ (l = .exit 0 ∨ l = .exit 1 ∨ l = .sigpipe) ∧
      (l = .exit 0 ↔ ∃ tps, Tested stack w tps) ∧ (l = .sigpipe ↔ ∃ tps, Ended stack w tps) := by
  obtain ⟨r, hr⟩ := loadFile_isSome hstack w.file
  have hmain : main argv stack w = some (launch true (68 ∉ getopt argv) w r) := by
    simp [main, hopt, hr]
  rw [hmain]
  cases r with
  | error e =>
    have hno : ∀ tps, loadFile stack false [] w.file ≠ some (.ok tps) := by
      intro tps hload
      rw [hr] at hload
      cases hload
    refine ⟨.exit 1, rfl, Or.inr (Or.inl rfl), iff_of_false (by simp) ?_, iff_of_false nofun ?_⟩
    · rintro ⟨tps, hload, -⟩
      exact hno tps hload
    · rintro ⟨tps, hload, -⟩
      exact hno tps hload
  | ok tps =>
    obtain ⟨hcases, hzero, hpipe⟩ := @testTps_cases tps w.servers 0
    have hsame : ∀ tps', loadFile stack false [] w.file = some (.ok tps') → tps' = tps := by
      intro tps' hload
      rw [hr] at hload
      exact (Except.ok.inj (Option.some.inj hload)).symm
    refine ⟨testTps w.servers 0 tps, rfl, hcases, hzero.trans ?_, hpipe.trans ?_⟩
    · constructor
      · exact fun hall => ⟨tps, hr, hall⟩
      · rintro ⟨tps', hload, hall⟩
        exact hsame tps' hload ▸ hall
    · constructor
      · exact fun hall => ⟨tps, hr, hall⟩
      · rintro ⟨tps', hload, hall⟩
        exact hsame tps' hload ▸ hall

theorem launch_serves_iff {testTp daemonize : Bool} {r : Except LoadExit (List TpConf)} :
    launch testTp daemonize w r = .serves tps ↔ testTp = false ∧ r = .ok tps ∧
      w.proxyListens = true ∧ w.monitorListens = true ∧ (daemonize = false ∨ w.daemon = true) := by
  cases r with
  | error e => simp [launch]
  | ok transports =>
    cases testTp with
    | true =>
      refine iff_of_false (fun h => ?_) nofun
      rw [launch, if_pos rfl] at h
      obtain ⟨hcases, -⟩ := @testTps_cases transports w.servers 0
      rcases hcases with hl | hl | hl
      · rw [hl] at h; cases h
      · rw [hl] at h; cases h
      · rw [hl] at h; cases h
    | false =>
      cases hproxy : w.proxyListens <;> cases hmonitor : w.monitorListens <;>
        cases hdaemon : w.daemon <;> cases daemonize <;> simp [launch, hproxy, hmonitor, hdaemon]

/-- **When the proxy serves**, and which transports. -/
theorem main_serves_iff (argv : List Bytes) : main argv stack w = some (.serves tps) ↔
    116 ∉ getopt argv ∧ loadFile stack false [] w.file = some (.ok tps) ∧
      w.proxyListens = true ∧ w.monitorListens = true ∧
      (68 ∈ getopt argv ∨ w.logOpens = true ∧ w.daemon = true) := by
  rw [main]
  by_cases h : 116 ∉ getopt argv ∧ 68 ∉ getopt argv ∧ w.logOpens = false
  · -- the log is wanted and cannot be opened
    rw [if_pos (by simp [h])]
    refine iff_of_false nofun ?_
    rintro ⟨-, -, -, -, hopt | ⟨hlog, -⟩⟩
    · exact h.2.1 hopt
    · rw [h.2.2] at hlog
      cases hlog
  · rw [if_neg (by simpa [and_assoc] using h), Option.map_eq_some_iff]
    simp only [launch_serves_iff, decide_eq_false_iff_not, not_not]
    constructor
    · rintro ⟨_, hload, htest, rfl, hproxy, hmonitor, hdaemon⟩
      refine ⟨htest, hload, hproxy, hmonitor, ?_⟩
      by_cases hopt : 68 ∈ getopt argv
      · exact Or.inl hopt
      · refine Or.inr ⟨?_, hdaemon.resolve_left hopt⟩
        by_contra hlog
        exact h ⟨htest, hopt, Bool.not_eq_true _ ▸ hlog⟩
    · rintro ⟨htest, hload, hproxy, hmonitor, hdaemon⟩
      exact ⟨_, hload, htest, rfl, hproxy, hmonitor, hdaemon.imp_right And.right⟩

/-- **bin/reload.sh** sees the test end with 0, 1 or 141, and sends SIGHUP iff the file
    is in order, or SIGPIPE has ended the test.  A proxy that reads the same file then
    loads a table; if it is in order, it would get a connection from each of its servers
    if they answer in the same way; and one that is started with the file serves that
    table. -/
theorem reload_sh (hstack : stack.length = INI_MAX_LINE) (hstack' : stack'.length = INI_MAX_LINE)
    (w : World) : ∃ status sent, (main [bytes "-t"] stack w).bind Launch.status = some status ∧
      status ∈ [0, 1, 141] ∧ reloadSh stack w = some sent ∧
      (sent = true ↔ (∃ tps, Tested stack w tps) ∨ ∃ tps, Ended stack w tps) ∧
      (sent = true → ∃ tps, loadFile stack' false [] w.file = some (.ok tps) ∧
        (Tested stack w tps → ∀ k conf, tps[k]? = some conf → ∃ tp, conf.tp? = some tp ∧
          (newConn tp (w.servers k).connected (w.servers k).session).1 = true) ∧
        (w.logOpens = true → w.proxyListens = true → w.monitorListens = true → w.daemon = true →
          main [] stack' w = some (.serves tps))) := by
  obtain ⟨l, hmain, hcases, hzero, hpipe⟩ := main_test hstack [bytes "-t"] (by decide) w
  have hiff : l.status ≠ some 1 ↔ (∃ tps, Tested stack w tps) ∨ ∃ tps, Ended stack w tps := by
    rw [← hzero, ← hpipe]
    rcases hcases with rfl | rfl | rfl
    · simp [Launch.status]
    · simp [Launch.status]
    · simp [Launch.status]
  obtain ⟨status, hstatus, hmem⟩ : ∃ status, l.status = some status ∧ status ∈ [0, 1, 141] := by
    rcases hcases with rfl | rfl | rfl
    · exact ⟨0, rfl, by decide⟩
    · exact ⟨1, rfl, by decide⟩
    · exact ⟨141, rfl, by decide⟩
  refine ⟨status, l.status ≠ some 1, by rw [hmain]; exact hstatus, hmem, by rw [reloadSh, hmain]; rfl,
    decide_eq_true_iff.trans hiff, fun hsent => ?_⟩
  obtain ⟨tps, hload⟩ : ∃ tps, loadFile stack false [] w.file = some (.ok tps) := by
    rcases hiff.1 (of_decide_eq_true hsent) with ⟨tps, hload, -⟩ | ⟨tps, hload, -⟩
    · exact ⟨tps, hload⟩
    · exact ⟨tps, hload⟩
  rw [loadFile_stack hstack hstack'] at hload
  refine ⟨tps, hload, ?_, fun hlog hproxy hmonitor hdaemon => ?_⟩
  · rintro ⟨-, hall⟩ k conf hk
    obtain ⟨tp, htp, hpass⟩ := hall k conf hk
    rw [Nat.zero_add] at hpass
    exact ⟨tp, htp, (doTestTp_iff.1 hpass).2.1⟩
  · exact (main_serves_iff []).2 ⟨by decide, hload, hproxy, hmonitor, Or.inr ⟨hlog, hdaemon⟩⟩

end

/-- A server that sends the line. -/
def answer (line : Bytes) : Recv := if h : line.length ≤ 1023 then .data ⟨line, h⟩ else .error

/-- The relay's file, and a server that lets everybody in. -/
def relayWorld : World where
  logOpens := true
  file := some relayFile
  servers _ := ⟨true, ⟨false, List.replicate 5 .all,
    ["220\n", "250\n", "334\n", "334\n", "235\n", "221\n"].map fun line => answer (bytes line), []⟩, [], false⟩
  proxyListens := true
  monitorListens := true
  daemon := true

theorem reload_sh_relay : reloadSh (List.replicate 200 7) relayWorld = some true ∧
    ∃ tps, main [] (List.replicate 200 9) relayWorld = some (.serves tps) := by
  obtain ⟨-, sent, -, -, hsent, htested, hserves⟩ := @reload_sh (List.replicate 200 7) (List.replicate 200 9)
    List.length_replicate List.length_replicate relayWorld
  have hpass : ∀ conf ∈ iniTable [] (calls relayFile),
      (conf.tp?.map fun tp => doTestTp tp (relayWorld.servers 0)) = some .passed := by decide +kernel
  have htrue : sent = true := htested.2 (Or.inl ⟨_, relay_loads, fun k conf hk =>
    Option.map_eq_some_iff.1 (hpass conf (List.mem_of_getElem? hk))⟩)
  obtain ⟨tps, -, -, hmain⟩ := hserves htrue
  exact ⟨by rw [hsent, htrue], tps, hmain rfl rfl rfl rfl⟩

/-- A server that greets and resets the connection. -/
example : doTestTp tpPlain ⟨true, ⟨false, [.error], [answer (bytes "220\n")], []⟩, [], true⟩ = .sigpipe := by
  decide +kernel

end SmtpProxy.TestMode
