/-
  What the threads of a transport do with its connections, as a log of `Deed`s
  along the runs of its pool, in which the monitor may call `reportTp` at any
  time.

  * `Usage.step`: a step of the pool or a report, with its deed;
  * `books_clientStep`: what a client's step does to the counters and to what
    the client has still to count;
  * `send_accounting`: `totalSend` counts every mail that `smtpDATA` has sent,
    once, and each `tpSendMail` that returns 1 counts one.
-/
import SmtpProxy.Lib.Logs
import SmtpProxy.Pool.Counters
import SmtpProxy.Pool.Threads

namespace SmtpProxy

/-- What happens to a connection. -/
inductive Mark where
  | use  -- `getAnIdleConn` returns it
  | data  -- `smtpDATA` returns 1 on it
  | failed  -- RSET, MAIL, RCPT or DATA fails on it
  | noop (ok : Bool)  -- `smtpNOOP` is called on it
  deriving DecidableEq

inductive Deed where
  | called (i : ℕ)  -- the client `i` calls `tpSendMail`
  | conn (c : ℕ) (m : Mark)
  | counted (i : ℕ)  -- the client `i` counts a mail
  | returned (i : ℕ) (r : Bool)  -- `tpSendMail` returns `r`
  | reported (busy idle noop total today : ℤ)  -- the figures of `reportTp`
  deriving DecidableEq

/-- The deed in a step of the client `i` to `next`. -/
def ClientPc.deed (i : ℕ) (ok : Bool) (next : Option ClientPc) : ClientPc → Option Deed
  | .out => some (.called i)
  | .call | .woken | .setup =>
    match next with
    | some (.got c _) => some (.conn c .use)
    | _ => none
  | .rset c => if ok then none else some (.conn c .failed)
  | .mail c => some (.conn c (if ok then .data else .failed))
  | .release _ | .retire _ true => some (.counted i)
  | .ret r => some (.returned i r)
  | _ => none

/-- `smtpDATA` has returned 1, and the mail is not counted yet. -/
def ClientPc.uncounted : ClientPc → Bool
  | .sent _ | .limit _ | .pause _ | .release _ | .retire _ true => true
  | _ => false

/-- The mails that a call of `tpSendMail` has counted so far. -/
def ClientPc.account : ClientPc → ℕ
  | .bcast _ | .signal _ true | .ret true => 1
  | _ => 0

namespace Deed

def isCalled (i : ℕ) : Deed → Bool
  | .called j => j = i
  | _ => false

def isCounted (i : ℕ) : Deed → Bool
  | .counted j => j = i
  | _ => false

/-- A mail is counted. -/
def counts : Deed → Bool
  | .counted _ => true
  | _ => false

/-- A mail is sent. -/
def sends : Deed → Bool
  | .conn _ .data => true
  | _ => false

/-- Neither. -/
def plain : Deed → Bool
  | .called _ | .counted _ | .conn _ .data => false
  | _ => true

end Deed

/-- A pool, and what its threads have done. -/
abbrev Usage := Runs.Logged Pool Deed

namespace Usage

inductive Act where
  | pool (a : Action)
  | report  -- `reportTp`
  deriving DecidableEq

/-- `reportTp` reads under the lock. -/
def base (tp : Tp) (s : Pool) : Act → Option Pool
  | .pool a => s.step tp a
  | .report => s.locked s

def deed (s : Pool) (x : Act) (t : Pool) : Option Deed :=
  match x with
  | .pool (.client i ok) => s.clients[i]?.bind (ClientPc.deed i ok t.clients[i]?)
  | .pool (.noop c ok) => s.conns[c]?.bind fun k => if k.pc = .noop then some (.conn c (.noop ok)) else none
  | .pool _ => none
  | .report => some (.reported s.busyConns.count s.idleConns.count s.noopConns.count s.totalSend s.todaySend)

def step (tp : Tp) : Usage → Act → Option Usage := Runs.Logged.step (base tp) deed

def init (n : ℕ) : Usage := .start (.init n)

end Usage

namespace Pool

section
variable {tp : Tp} {s t : Pool} {a : Action}

/-- What a step of the client `i` from `pc` to `pc'` with the deed `e` counts. -/
structure Books (s t : Pool) (i : ℕ) (pc pc' : ClientPc) (e : Option Deed) : Prop where
  goes : t.clients[i]? = some pc'
  total : t.totalSend = s.totalSend + e.toList.countP Deed.counts
  uncounted : e.toList.countP Deed.counts + pc'.uncounted.toNat =
    pc.uncounted.toNat + e.toList.countP Deed.sends
  called : e = some (.called i) → pc'.account = 0
  account : pc' ≠ .out → e ≠ some (.called i) → pc ≠ .out ∧
    pc'.account = pc.account + e.toList.countP (Deed.isCounted i)

/-- A step with no deed that counts. -/
theorem Books.plain {i : ℕ} {pc pc' : ClientPc} {e : Option Deed} (hgoes : t.clients[i]? = some pc')
    (htotal : t.totalSend = s.totalSend) (he : ∀ d ∈ e, d.plain)
    (hu : pc'.uncounted = pc.uncounted) (ha : pc'.account = pc.account) (ho : pc ≠ .out) :
    Books s t i pc pc' e := by
  cases e with
  | none => exact ⟨hgoes, by simp [htotal], by simp [hu], by simp, by simp [ho, ha]⟩
  | some d =>
    have hd : d.plain := he d rfl
    cases d with
    | called j | counted j => cases hd
    | conn c m =>
      cases m with
      | data => cases hd
      | use | failed | noop =>
        exact ⟨hgoes, by simp [htotal, Deed.counts], by simp [hu, Deed.counts, Deed.sends], by simp,
          by simp [ho, ha, Deed.isCounted]⟩
    | returned j r | reported =>
      exact ⟨hgoes, by simp [htotal, Deed.counts], by simp [hu, Deed.counts, Deed.sends], by simp,
        by simp [ho, ha, Deed.isCounted]⟩

theorem books_clientStep {i : ℕ} {ok : Bool} {pc : ClientPc} (hi : s.clients[i]? = some pc)
    (h : s.clientStep tp i ok pc = some t) : ∃ pc', Books s t i pc pc' (pc.deed i ok t.clients[i]?) := by
  have set : ∀ pc', t.clients = s.clients.set i pc' → t.clients[i]? = some pc' := by
    intro pc' ht
    rw [ht, get_set hi, if_pos rfl]
  cases pc with
  | call | woken =>
    obtain ⟨-, hg⟩ := gets_of_step (by simp) h
    cases hg with
    | take =>
      have hgot := set (.got _ false) rfl
      rw [hgot]
      exact ⟨_, .plain hgot rfl (by simp [ClientPc.deed, Deed.plain]) rfl rfl (by simp)⟩
    | start =>
      have hgot := set .connect rfl
      rw [hgot]
      exact ⟨_, .plain hgot rfl (by simp [ClientPc.deed]) rfl rfl (by simp)⟩
    | wait =>
      have hgot := set .wait rfl
      rw [hgot]
      exact ⟨_, .plain hgot rfl (by simp [ClientPc.deed]) rfl rfl (by simp)⟩
  | wait => cases h
  | out =>
    obtain rfl := Option.some.inj h
    exact ⟨_, set _ rfl, by simp [ClientPc.deed, Deed.counts, setClient],
      by simp [ClientPc.deed, Deed.counts, Deed.sends, ClientPc.uncounted],
      fun _ => rfl, by simp [ClientPc.deed]⟩
  | setup =>
    obtain rfl := Option.some.inj h
    cases ok with
    | true =>
      have hgot := set (.got s.conns.length true) rfl
      rw [hgot]
      exact ⟨_, .plain hgot rfl (by simp [ClientPc.deed, Deed.plain]) rfl rfl (by simp)⟩
    | false =>
      have hgot := set (.ret false) rfl
      rw [hgot]
      exact ⟨_, .plain hgot rfl (by simp [ClientPc.deed]) rfl rfl (by simp)⟩
  | connect =>
    obtain rfl := Option.some.inj h
    cases ok with
    | true => exact ⟨_, .plain (set .setup rfl) rfl (by simp [ClientPc.deed]) rfl rfl (by simp)⟩
    | false => exact ⟨_, .plain (set (.ret false) rfl) rfl (by simp [ClientPc.deed]) rfl rfl (by simp)⟩
  | got c isNew =>
    obtain rfl := Option.some.inj h
    cases isNew with
    | true => exact ⟨_, .plain (set (.mail c) rfl) rfl (by simp [ClientPc.deed]) rfl rfl (by simp)⟩
    | false => exact ⟨_, .plain (set (.rset c) rfl) rfl (by simp [ClientPc.deed]) rfl rfl (by simp)⟩
  | rset c =>
    obtain rfl := Option.some.inj h
    cases ok with
    | true => exact ⟨_, .plain (set (.mail c) rfl) rfl (by simp [ClientPc.deed]) rfl rfl (by simp)⟩
    | false =>
      exact ⟨_, .plain (set (.retire c false) rfl) rfl (by simp [ClientPc.deed, Deed.plain]) rfl rfl (by simp)⟩
  | mail c =>
    obtain rfl := Option.some.inj h
    cases ok with
    | true =>
      exact ⟨_, set (.sent c) rfl, by simp [ClientPc.deed, Deed.counts, setClient],
        by simp [ClientPc.deed, Deed.counts, Deed.sends, ClientPc.uncounted],
        by simp [ClientPc.deed], by simp [ClientPc.deed, Deed.isCounted, ClientPc.account]⟩
    | false =>
      exact ⟨_, .plain (set (.retire c false) rfl) rfl (by simp [ClientPc.deed, Deed.plain]) rfl rfl (by simp)⟩
  | sent c =>
    obtain rfl := Option.some.inj h
    exact ⟨_, .plain (set (.limit c) rfl) rfl (by simp [ClientPc.deed]) rfl rfl (by simp)⟩
  | limit c =>
    obtain ⟨k, -, rfl⟩ := Option.map_eq_some_iff.1 h
    refine ⟨_, .plain (set _ rfl) rfl (by simp [ClientPc.deed]) ?_ ?_ (by simp)⟩ <;> split_ifs <;> rfl
  | pause c =>
    obtain rfl := Option.some.inj h
    exact ⟨_, .plain (set (.release c) rfl) rfl (by simp [ClientPc.deed]) rfl rfl (by simp)⟩
  | expired =>
    obtain ⟨-, rfl⟩ := locked_eq_some.1 h
    exact ⟨_, .plain (set (.ret false) rfl) rfl (by simp [ClientPc.deed]) rfl rfl (by simp)⟩
  | release c =>
    obtain ⟨-, rfl⟩ := locked_eq_some.1 h
    exact ⟨_, set (.bcast c) rfl, rfl,
      by simp [ClientPc.deed, Deed.counts, Deed.sends, ClientPc.uncounted],
      by simp [ClientPc.deed], by simp [ClientPc.deed, Deed.isCounted, ClientPc.account]⟩
  | retire c r =>
    obtain ⟨-, rfl⟩ := locked_eq_some.1 h
    cases r with
    | true =>
      exact ⟨_, set (.signal c true) rfl, rfl,
        by simp [ClientPc.deed, Deed.counts, Deed.sends, ClientPc.uncounted],
        by simp [ClientPc.deed], by simp [ClientPc.deed, Deed.isCounted, ClientPc.account]⟩
    | false => exact ⟨_, .plain (set (.signal c false) rfl) rfl (by simp [ClientPc.deed]) rfl rfl (by simp)⟩
  | bcast c =>
    obtain rfl := Option.some.inj h
    have hi' : s.broadcastIdle.clients[i]? = some (.bcast c) := get_broadcastIdle hi rfl
    have hgot : (s.broadcastIdle.setClient i (.signal c true)).clients[i]? = some (.signal c true) := by
      rw [setClient_clients, get_set hi', if_pos rfl]
    exact ⟨_, .plain hgot rfl (by simp [ClientPc.deed]) rfl rfl (by simp)⟩
  | signal c r =>
    obtain rfl := Option.some.inj h
    exact ⟨_, .plain (set (.ret r) rfl) rfl (by simp [ClientPc.deed]) rfl (by cases r <;> rfl) (by simp)⟩
  | ret r =>
    obtain rfl := Option.some.inj h
    have hgot := set .out rfl
    exact ⟨_, hgot, by simp [ClientPc.deed, Deed.counts, setClient],
      by simp [ClientPc.deed, Deed.counts, Deed.sends, ClientPc.uncounted], by simp [ClientPc.deed], by simp⟩

/-! ## All clients -/

theorem map_beside {p : ClientPc → Bool} (hwoken : p .woken = p .wait) (hexp : p .expired = p .wait)
    {j : ℕ} (h : Beside s t j) : t.clients[j]?.map p = s.clients[j]?.map p := by
  obtain ⟨f, hf, hget⟩ := h
  rw [hget, Option.map_map]
  cases s.clients[j]? with
  | none => rfl
  | some pc =>
    simp only [Option.map_some, Function.comp_apply]
    rcases hf pc with hpc | ⟨rfl, hpc | hpc⟩ <;> rw [hpc]
    · rw [hwoken]
    · rw [hexp]

theorem uncounted_beside (h : ∀ j, Beside s t j) :
    t.clients.countP ClientPc.uncounted = s.clients.countP ClientPc.uncounted := by
  have hmap : t.clients.map ClientPc.uncounted = s.clients.map ClientPc.uncounted := by
    refine List.ext_getElem? fun j => ?_
    rw [List.getElem?_map, List.getElem?_map, map_beside rfl rfl (h j)]
  have hcount := congrArg (List.countP id) hmap
  rwa [List.countP_map, List.countP_map] at hcount

theorem uncounted_client {i : ℕ} {pc pc' : ClientPc} (hi : s.clients[i]? = some pc)
    (hi' : t.clients[i]? = some pc') (h : ∀ j, j ≠ i → Beside s t j) :
    t.clients.countP ClientPc.uncounted + pc.uncounted.toNat =
      s.clients.countP ClientPc.uncounted + pc'.uncounted.toNat := by
  have hmap : t.clients.map ClientPc.uncounted =
      (s.clients.map ClientPc.uncounted).set i pc'.uncounted := by
    refine List.ext_getElem? fun j => ?_
    have hi₀ : (s.clients.map ClientPc.uncounted)[i]? = some pc.uncounted := by
      rw [List.getElem?_map, hi]; rfl
    rw [get_set hi₀, List.getElem?_map]
    by_cases hj : j = i
    · rw [if_pos hj, hj, hi']; rfl
    · rw [if_neg hj, map_beside rfl rfl (h j hj), List.getElem?_map]
  have hcount := congrArg (List.countP id) hmap
  obtain ⟨hlt, rfl⟩ := List.getElem?_eq_some_iff.1 hi
  have hle : s.clients[i].uncounted.toNat ≤ s.clients.countP ClientPc.uncounted := by
    cases hu : s.clients[i].uncounted with
    | false => exact Nat.zero_le _
    | true => exact List.one_le_countP_iff.2 ⟨_, List.getElem_mem hlt, hu⟩
  rw [List.countP_set (by rwa [List.length_map]), List.countP_map, List.countP_map] at hcount
  simp only [Function.id_comp, List.getElem_map, id_eq] at hcount
  cases hu : s.clients[i].uncounted <;> cases hu' : pc'.uncounted <;>
    simp only [hu, hu', Bool.toNat_true, Bool.toNat_false, if_true, if_false, Bool.false_eq_true] at hcount hle ⊢ <;>
    omega

end

end Pool

/-! ## The accounts -/

namespace Usage

section
variable {tp : Tp} {n : ℕ} {d d' : Usage} {x : Act}

structure Inv (d : Usage) : Prop where
  total : d.state.totalSend = d.log.countP Deed.counts
  uncounted : d.log.countP Deed.counts + d.state.clients.countP ClientPc.uncounted =
    d.log.countP Deed.sends
  account : ∀ (i : ℕ) (pc : ClientPc), d.state.clients[i]? = some pc → pc ≠ .out →
    Runs.since (Deed.isCalled i) (Deed.isCounted i) d.log = pc.account

theorem inv_init (n : ℕ) : Inv (init n) where
  total := rfl
  uncounted := by
    have hzero : (Pool.init n).clients.countP ClientPc.uncounted = 0 := by
      refine List.countP_eq_zero.2 fun pc hpc => ?_
      rw [List.eq_of_mem_replicate hpc]
      simp [ClientPc.uncounted]
    exact (Nat.zero_add _).trans hzero
  account := by
    intro i pc hi hpc
    exact absurd (Pool.client_init hi) hpc

/-- A deed of others does not count for the client. -/
theorem since_other {i : ℕ} {l : List Deed} {e : Option Deed}
    (h : ∀ b ∈ e, b.isCalled i = false ∧ b.isCounted i = false) :
    Runs.since (Deed.isCalled i) (Deed.isCounted i) (l ++ e.toList) =
      Runs.since (Deed.isCalled i) (Deed.isCounted i) l := by
  cases e with
  | none => rw [Option.toList_none, List.append_nil]
  | some b =>
    obtain ⟨h₁, h₂⟩ := h b rfl
    rw [Option.toList_some, Runs.since_snoc, h₁, h₂]
    rfl

/-- The deeds of a client are its own. -/
theorem deed_client {i j : ℕ} {ok : Bool} {next : Option ClientPc} {pc : ClientPc} (hij : j ≠ i) :
    ∀ b ∈ pc.deed i ok next, b.isCalled j = false ∧ b.isCounted j = false := by
  have hne : i ≠ j := hij.symm
  cases pc with
  | call | woken | setup =>
    intro b hb
    simp only [ClientPc.deed] at hb
    split at hb
    · obtain rfl := Option.some.inj hb
      exact ⟨rfl, rfl⟩
    · cases hb
  | retire c r => cases r <;> simp [ClientPc.deed, Deed.isCalled, Deed.isCounted, hne]
  | rset c => cases ok <;> simp [ClientPc.deed, Deed.isCalled, Deed.isCounted]
  | _ => simp [ClientPc.deed, Deed.isCalled, Deed.isCounted, hne]

theorem inv_client {i : ℕ} {ok : Bool} (hI : Inv d) (h : step tp d (.pool (.client i ok)) = some d') :
    Inv d' := by
  obtain ⟨hs, hlog⟩ := Runs.Logged.step_eq_some.1 h
  obtain ⟨pc, hi, hc⟩ := Option.bind_eq_some_iff.1 hs
  obtain ⟨pc', hB⟩ := Pool.books_clientStep hi hc
  have hbeside : ∀ j, j ≠ i → Pool.Beside d.state d'.state j := by
    intro j hj
    exact Pool.beside_of_step (a := .client i ok) (by simp [hj.symm]) hs
  replace hlog : d'.log = d.log ++ (pc.deed i ok d'.state.clients[i]?).toList := by
    rw [hlog, deed, hi]; rfl
  refine ⟨?_, ?_, ?_⟩
  · rw [hB.total, hI.total, hlog, List.countP_append]
    omega
  · have hu := Pool.uncounted_client hi hB.goes hbeside
    have hb := hB.uncounted
    have hI' := hI.uncounted
    rw [hlog, List.countP_append, List.countP_append]
    omega
  · intro j pc₁ hj hout
    by_cases hij : j = i
    · subst hij
      obtain rfl := Option.some.inj (hj.symm.trans hB.goes)
      by_cases hcalled : pc.deed j ok d'.state.clients[j]? = some (.called j)
      · rw [hlog, hcalled, Option.toList_some, Runs.since_snoc, if_pos (by simp [Deed.isCalled]),
          hB.called hcalled]
      · obtain ⟨hpc, hacc⟩ := hB.account hout hcalled
        have hno : ∀ b ∈ (pc.deed j ok d'.state.clients[j]?).toList, b.isCalled j = false := by
          intro b hb
          rw [Option.mem_toList] at hb
          cases b with
          | called m =>
            rw [Deed.isCalled, decide_eq_false_iff_not]
            rintro rfl
            exact hcalled hb
          | _ => rfl
        rw [hlog, Runs.since_append hno, hI.account j pc hi hpc, hacc]
    · obtain ⟨f, hf, hget⟩ := hbeside j hij
      obtain ⟨pc₀, hj₀, rfl⟩ := Option.map_eq_some_iff.1 (hget.symm.trans hj)
      rw [hlog, since_other (deed_client hij)]
      rcases hf pc₀ with hpc | ⟨rfl, hpc | hpc⟩
      · rw [hpc] at hout ⊢
        exact hI.account j pc₀ hj₀ hout
      · rw [hpc, hI.account j .wait hj₀ (by simp)]; rfl
      · rw [hpc, hI.account j .wait hj₀ (by simp)]; rfl

/-- Any other step counts nothing. -/
theorem inv_other (hI : Inv d) (hlog : d'.log = d.log ++ (deed d.state x d'.state).toList)
    (he : ∀ b ∈ deed d.state x d'.state, b.plain) (htotal : d'.state.totalSend = d.state.totalSend)
    (hbeside : ∀ j, Pool.Beside d.state d'.state j) : Inv d' := by
  have hzero : ∀ p : Deed → Bool, (∀ b : Deed, b.plain → p b = false) →
      d'.log.countP p = d.log.countP p := by
    intro p hp
    have hnone : (deed d.state x d'.state).toList.countP p = 0 := by
      refine List.countP_eq_zero.2 fun b hb => ?_
      rw [hp b (he b (Option.mem_toList.1 hb))]
      exact Bool.false_ne_true
    rw [hlog, List.countP_append, hnone, Nat.add_zero]
  refine ⟨?_, ?_, ?_⟩
  · rw [htotal, hI.total, hzero]
    intro b hb
    cases b <;> first | rfl | cases hb
  · rw [Pool.uncounted_beside hbeside, hzero, hzero, hI.uncounted]
    · intro b hb
      rcases b with _ | ⟨_, _ | _ | _ | _⟩ | _ | _ | _ <;> first | rfl | cases hb
    · intro b hb
      cases b <;> first | rfl | cases hb
  · intro i pc hi hout
    obtain ⟨f, hf, hget⟩ := hbeside i
    obtain ⟨pc₀, hi₀, rfl⟩ := Option.map_eq_some_iff.1 (hget.symm.trans hi)
    rw [hlog, since_other]
    · rcases hf pc₀ with hpc | ⟨rfl, hpc | hpc⟩
      · rw [hpc] at hout ⊢
        exact hI.account i pc₀ hi₀ hout
      · rw [hpc, hI.account i .wait hi₀ (by simp)]; rfl
      · rw [hpc, hI.account i .wait hi₀ (by simp)]; rfl
    · intro b hb
      have hplain := he b hb
      cases b <;> first | exact ⟨rfl, rfl⟩ | cases hplain

theorem inv_step (hI : Inv d) (h : step tp d x = some d') : Inv d' := by
  obtain ⟨hs, hlog⟩ := Runs.Logged.step_eq_some.1 h
  cases x with
  | report =>
    obtain ⟨-, ht⟩ := Pool.locked_eq_some.1 hs
    refine inv_other hI hlog ?_ (by rw [← ht]) fun j => (Pool.Passed.same (by rw [← ht])).beside
    intro b hb
    obtain rfl := Option.some.inj hb
    rfl
  | pool a =>
    by_cases hc : ∃ i ok, a = .client i ok
    · obtain ⟨i, ok, rfl⟩ := hc
      exact inv_client hI h
    · have hne : ∀ i ok, a ≠ .client i ok := fun i ok he => hc ⟨i, ok, he⟩
      refine inv_other hI hlog ?_ (Pool.counters_of_step hne hs).1
        fun j => Pool.beside_of_step (hne j) hs
      intro b hb
      cases a with
      | client i ok => exact absurd rfl (hne i ok)
      | noop c ok =>
        obtain ⟨k, -, hb⟩ := Option.bind_eq_some_iff.1 hb
        split at hb
        · obtain rfl := Option.some.inj hb
          rfl
        · cases hb
      | _ => cases hb

theorem inv_of_reach (h : Runs.Reach (step tp) (init n) d) : Inv d :=
  h.inv (inv_init n) fun _ _ _ hI ha => inv_step hI ha

/-- `tpSendMail` returns `r` from there. -/
theorem deed_returned {s t : Pool} {i : ℕ} {r : Bool} (h : deed s x t = some (.returned i r)) :
    s.clients[i]? = some (.ret r) := by
  cases x with
  | report => cases h
  | pool a =>
    cases a with
    | client j ok =>
      obtain ⟨pc, hj, h⟩ := Option.bind_eq_some_iff.1 h
      cases pc with
      | ret q =>
        obtain ⟨rfl, rfl⟩ := Deed.returned.inj (Option.some.inj h)
        exact hj
      | call | woken | setup =>
        simp only [ClientPc.deed] at h
        split at h <;> cases h
      | rset c => cases ok <;> cases h
      | retire c q => cases q <;> cases h
      | _ => cases h
    | noop c ok =>
      obtain ⟨k, -, h⟩ := Option.bind_eq_some_iff.1 h
      split at h <;> cases h
    | _ => cases h

/-- **Every mail sent is counted once.**  `totalSend` and the mails that a client
    has sent and not counted yet make up all mails sent; and a call of
    `tpSendMail` counts one mail if it returns 1, and none if it returns 0. -/
theorem send_accounting (h : Runs.Reach (step tp) (init n) d) :
    d.state.totalSend + d.state.clients.countP ClientPc.uncounted = d.log.countP Deed.sends ∧
      d.state.totalSend = d.log.countP Deed.counts ∧
      ∀ (i : ℕ) (r : Bool) (l₁ l₂ l₃ : List Deed),
        d.log = l₁ ++ .called i :: (l₂ ++ .returned i r :: l₃) → .called i ∉ l₂ →
        l₂.countP (Deed.isCounted i) = if r then 1 else 0 := by
  have hI := inv_of_reach h
  refine ⟨?_, hI.total, ?_⟩
  · rw [hI.total]
    exact_mod_cast hI.uncounted
  · intro i r l₁ l₂ l₃ hlog hno
    rw [← List.cons_append, ← List.append_assoc] at hlog
    obtain ⟨d₀, x, d₁, hd₀, hl₀, -, hdeed⟩ := Runs.Logged.exists_entry h hlog
    have hacc := (inv_of_reach hd₀).account i (.ret r) (deed_returned hdeed) (by simp)
    rw [hl₀, Runs.since_reset (by simp [Deed.isCalled])] at hacc
    · rw [hacc]
      cases r <;> rfl
    · intro b hb
      cases b with
      | called j =>
        rw [Deed.isCalled, decide_eq_false_iff_not]
        rintro rfl
        exact hno hb
      | _ => rfl

end

/-- A mail is sent, and the monitor reads the counters before it is counted and
    after. -/
theorem send_accounting_one : ∃ d : Usage, d.log.countP Deed.sends = 1 ∧
    d.state.totalSend + d.state.clients.countP ClientPc.uncounted = 1 := by
  have h : Runs.exec (step tpPlain) (init 1)
      (List.replicate 6 (.pool (.client 0 true)) ++ [.report] ++
        List.replicate 6 (.pool (.client 0 true)) ++ [.report]) =
      some ⟨⟨none, ⟨[], 0⟩, ⟨[0], 1⟩, ⟨[], 0⟩, 0, 1, 1,
          [{ Conn.added with status := .idle, sendCount := 1 }], [.out], .out⟩,
        [.called 0, .conn 0 .use, .conn 0 .data, .reported 1 0 0 0 0, .counted 0, .returned 0 true,
          .reported 0 1 0 1 1]⟩ := rfl
  exact ⟨_, show _ = _ from rfl, (send_accounting (Runs.Reach.refl.of_exec h)).1⟩

end Usage

end SmtpProxy
