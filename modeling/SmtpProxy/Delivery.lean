/-
  The mails of a transport, over every run of its threads.

  A run tells which rounds are begun on a connection and how many of them have
  been accepted to their end (`Milestone`).  What reaches the server of the connection
  are the calls that were accepted and perhaps a part of a last write
  (`Line.Arrives`).

  * `Line.Story`: a connection that is set up is made of whole rounds, all
    accepted, and of a part of one more;
  * `Wire.Told`: in every run each connection is as its milestones have made it;
  * `mailboxes`: a server takes the mails that are handed in on its connection,
    each as a whole, once and in order: those that are acknowledged, and at most
    the one after them.
-/
import SmtpProxy.Discipline
import SmtpProxy.Mailbox

namespace SmtpProxy

open CString

namespace Round
variable {tp : Tp}

theorem proper (x : Round) : ∀ o ∈ x.ops tp, o.Proper := by
  cases x with
  | noop => exact proper_noop
  | rset => exact proper_rset
  | mail toList data => exact proper_mail tp toList data

theorem ops_ne_nil (x : Round) : x.ops tp ≠ [] := by
  cases x with
  | noop => exact List.cons_ne_nil _ _
  | rset => exact List.cons_ne_nil _ _
  | mail toList data => simp [ops, mailOps]

end Round

/-! ## A connection and its rounds -/

/-- The bytes that a call writes, or was to write. -/
def Entry.sent (e : Entry) : Bytes :=
  match e.op with
  | .write data => SmtpProxy.sent e.tls data e.io.send
  | _ => []

theorem sent_entry {e : Entry} (h : e.op.Short) : e.sent = stream [e.op] := by
  obtain ⟨o, io, tls⟩ := e
  cases o with
  | write data =>
    have hstream : stream [.write data] = cstr data := List.append_nil _
    rw [hstream]
    exact (sent_eq_iff tls data io.send).2 (of_decide_eq_true h)
  | _ => rfl

/-- Short texts are written whole. -/
theorem flatMap_sent {es : List Entry} (h : ∀ o ∈ es.map Entry.op, o.Short) :
    es.flatMap Entry.sent = stream (es.map Entry.op) := by
  induction es with
  | nil => rfl
  | cons e es ih =>
    obtain ⟨he, hes⟩ := List.forall_mem_cons.1 h
    have hcons : stream (e.op :: es.map Entry.op) = stream [e.op] ++ stream (es.map Entry.op) :=
      @stream_append [e.op] (es.map Entry.op)
    rw [List.flatMap_cons, ih hes, sent_entry he, List.map_cons, hcons]

namespace Line

/-- The next call ends the exchange that is under way. -/
def ends (l : Line) (io : CallIo) : Bool := l.todo ≠ [] && (l.call io).1 && (l.call io).2.todo = []

/-- The bytes that may have reached the server: those written by the calls that were
    accepted, and a part of a last write that was not. -/
def Arrives (l : Line) (bs : Bytes) : Prop :=
  ∃ q, bs = (l.trace.filter Entry.accepted).flatMap Entry.sent ++ q ∧
    (q = [] ∨ ∃ e, l.trace.getLast? = some e ∧ e.accepted = false ∧ q <+: e.sent)

/-- **A connection that is set up**: the rounds begun on it, and how many of them
    have ended. -/
inductive Story (tp : Tp) : List Round → ℕ → Line → Prop
  | rest {xs : List Round} {l : Line} : l.ops = sessionOps tp xs → l.todo = [] →
      (∀ e ∈ l.trace, e.accepted) → Story tp xs xs.length l
  | busy {xs : List Round} {x : Round} {l : Line} (part : List Op) :
      l.ops = sessionOps tp xs ++ part → part ++ l.todo = x.ops tp → l.todo ≠ [] →
      (∀ e ∈ l.trace, e.accepted) → Story tp (xs ++ [x]) xs.length l
  | broken {xs : List Round} {x : Round} {l : Line} {es : List Entry} {e : Entry} (part : List Op) :
      l.trace = es ++ [e] → es.map Entry.op = sessionOps tp xs ++ part →
      part ++ [e.op] <+: x.ops tp → l.todo = [] → (∀ e ∈ es, e.accepted) → e.accepted = false →
      Story tp (xs ++ [x]) xs.length l

/-- A connection that is being set up, or has failed to be. -/
inductive Setting (tp : Tp) : Line → Prop
  | closed : Setting tp (opened [])
  | busy {l : Line} : l.ops ++ l.todo = ehloOps tp ++ authOps tp → (∀ e ∈ l.trace, e.accepted) →
      Setting tp l
  | broken {l : Line} {e : Entry} : l.ops <+: ehloOps tp ++ authOps tp → l.todo = [] →
      (∀ e ∈ l.trace.dropLast, e.accepted) → e ∈ l.trace → e.accepted = false → Setting tp l

variable {tp : Tp} {xs : List Round} {x : Round} {n : ℕ} {l l' : Line} {io : CallIo}

/-- What a call leaves. -/
theorem call_cases (io : CallIo) {o : Op} {os : List Op} (htodo : l.todo = o :: os) (hproper : o.Proper) :
    (l.call io).2.trace = l.trace ++ [⟨o, io, l.ssl⟩] ∧ (l.call io).1 = o.accepts l.ssl io ∧
      (l.call io).2.todo = if o.accepts l.ssl io then os else [] := by
  obtain ⟨ssl, todo, trace⟩ := l
  obtain rfl : todo = o :: os := htodo
  have hcmd := cmd_accepts hproper io ssl
  simp only [call]
  rcases hw : o.cmd (io.session ssl) with ⟨_ | _, w⟩
  · rw [hw] at hcmd
    exact ⟨rfl, hcmd, by rw [← hcmd]; rfl⟩
  · rw [hw] at hcmd
    exact ⟨rfl, hcmd, by rw [← hcmd]; rfl⟩

theorem call_rest (htodo : l.todo = []) : l.call io = (true, l) := by
  obtain ⟨ssl, todo, trace⟩ := l
  obtain rfl : todo = [] := htodo
  rfl

/-- The next round of a connection at rest. -/
theorem Story.begin (h : Story tp xs n l) (htodo : l.todo = []) (hacc : ∀ e ∈ l.trace, e.accepted)
    (x : Round) : n = xs.length ∧ Story tp (xs ++ [x]) n (l.begin (x.ops tp)) := by
  cases h with
  | rest hops _ _ =>
    refine ⟨rfl, .busy [] ?_ (List.nil_append _) x.ops_ne_nil hacc⟩
    rw [List.append_nil]
    exact hops
  | busy part _ _ hne _ => exact absurd htodo hne
  | broken part htrace _ _ _ _ hfalse =>
    have htrue := hacc _ (by rw [htrace]; exact List.mem_append_right _ (List.mem_singleton_self _))
    rw [hfalse] at htrue
    cases htrue

/-- **One call.** -/
theorem Story.call (h : Story tp xs n l) (io : CallIo) :
    Story tp xs (if l.ends io then n + 1 else n) (l.call io).2 := by
  cases h with
  | rest hops htodo hacc =>
    have hends : l.ends io = false := by simp [ends, htodo]
    rw [hends, call_rest htodo]
    exact .rest hops htodo hacc
  | broken part htrace hops hpart htodo hacc hfalse =>
    have hends : l.ends io = false := by simp [ends, htodo]
    rw [hends, call_rest htodo]
    exact .broken part htrace hops hpart htodo hacc hfalse
  | @busy xs x l part hops hpart hne hacc =>
    obtain ⟨o, os, htodo⟩ := List.exists_cons_of_ne_nil hne
    rw [htodo] at hpart
    have hproper : o.Proper := x.proper o (by rw [← hpart]; simp)
    obtain ⟨htrace, hret, hnext⟩ := call_cases io htodo hproper
    have hops' : (l.call io).2.ops = sessionOps tp xs ++ (part ++ [o]) := by
      rw [Line.ops, htrace, List.map_append, ← List.append_assoc, ← hops]
      rfl
    have hends : l.ends io = (o.accepts l.ssl io && (if o.accepts l.ssl io then os else []) = []) := by
      simp [ends, htodo, hret, hnext]
    rw [hends]
    cases haccept : o.accepts l.ssl io with
    | false =>
      have hlast : Entry.accepted ⟨o, io, l.ssl⟩ = false := haccept
      rw [haccept] at hnext
      refine .broken part htrace hops ?_ hnext hacc hlast
      exact ⟨os, by rw [← hpart, List.append_assoc]; rfl⟩
    | true =>
      rw [haccept] at hnext
      have hall : ∀ e ∈ (l.call io).2.trace, e.accepted := by
        intro e he
        rw [htrace] at he
        rcases List.mem_append.1 he with he | he
        · exact hacc e he
        · rw [List.mem_singleton.1 he]
          exact haccept
      by_cases hos : os = []
      · -- the round ends
        subst hos
        have hrest := @Story.rest tp (xs ++ [x]) (l.call io).2
          (by rw [hops', hpart, sessionOps_snoc]) hnext hall
        rw [List.length_append] at hrest
        simpa using hrest
      · have hbusy := @Story.busy tp xs x (l.call io).2 (part ++ [o]) hops'
          (by rw [hnext, ← hpart, List.append_assoc]; rfl) (by rw [hnext]; exact hos) hall
        simpa [hos] using hbusy

/-- **One call of the set-up.** -/
theorem Setting.call (h : Setting tp l) (io : CallIo) : Setting tp (l.call io).2 := by
  cases h with
  | closed => exact .closed
  | broken hops htodo hacc he hfalse =>
    rw [call_rest htodo]
    exact .broken hops htodo hacc he hfalse
  | busy hops hacc =>
    cases htodo : l.todo with
    | nil =>
      rw [call_rest htodo]
      exact .busy hops hacc
    | cons o os =>
      rw [htodo] at hops
      have hproper : o.Proper := proper_setup tp o (by rw [← hops]; simp)
      obtain ⟨htrace, -, hnext⟩ := call_cases io htodo hproper
      have hops' : (l.call io).2.ops = l.ops ++ [o] := by
        rw [Line.ops, htrace, List.map_append]
        rfl
      cases haccept : o.accepts l.ssl io with
      | false =>
        rw [haccept] at hnext
        refine .broken (e := ⟨o, io, l.ssl⟩) ⟨os, ?_⟩ hnext ?_ ?_ haccept
        · rw [hops', ← hops, List.append_assoc]
          rfl
        · rw [htrace, List.dropLast_concat]
          exact hacc
        · rw [htrace]
          exact List.mem_append_right _ (List.mem_singleton_self _)
      | true =>
        rw [haccept] at hnext
        refine .busy ?_ fun e he => ?_
        · rw [hops', hnext, ← hops, List.append_assoc]
          rfl
        · rw [htrace] at he
          rcases List.mem_append.1 he with he | he
          · exact hacc e he
          · rw [List.mem_singleton.1 he]
            exact haccept

theorem Setting.ops_isPrefix (h : Setting tp l) : l.ops <+: ehloOps tp ++ authOps tp := by
  cases h with
  | closed => exact List.nil_prefix
  | busy hops _ => exact ⟨_, hops⟩
  | broken hops _ _ _ _ => exact hops

theorem talk_ne_nil {st : Stage} : ¬ Talk tp st [] := by
  intro h
  have hturn := turn_talk h
  cases hturn

/-- The set-up is over. -/
theorem Setting.ops_eq {st : Stage} (h : Setting tp l) (hs : l.Sound tp st) (htodo : l.todo = []) :
    l.ops = ehloOps tp ++ authOps tp := by
  cases h with
  | closed => exact absurd hs.word talk_ne_nil
  | busy hops _ => rwa [htodo, List.append_nil] at hops
  | broken _ _ _ he hfalse =>
    rw [hs.accepted _ he] at hfalse
    cases hfalse

/-! ## What has arrived -/

theorem arrives_accepted {bs : Bytes} (h : l.Arrives bs) (hshort : ∀ o ∈ l.ops, o.Short)
    (hacc : ∀ e ∈ l.trace, e.accepted) : bs = stream l.ops := by
  obtain ⟨q, rfl, hq⟩ := h
  have hfilter : l.trace.filter Entry.accepted = l.trace := List.filter_eq_self.2 hacc
  have hnil : q = [] := by
    rcases hq with hq | ⟨e, he, hfalse, -⟩
    · exact hq
    · rw [hacc e (List.mem_of_getLast? he)] at hfalse
      cases hfalse
  rw [hnil, hfilter, List.append_nil, flatMap_sent hshort]
  rfl

/-- With a last call that was not accepted, a part of its text may have arrived. -/
theorem arrives_refused {bs : Bytes} {es : List Entry} {e : Entry} (h : l.Arrives bs)
    (htrace : l.trace = es ++ [e]) (hshort : ∀ o ∈ l.ops, o.Short) (hacc : ∀ e ∈ es, e.accepted)
    (hfalse : e.accepted = false) : ∃ q, bs = stream (es.map Entry.op) ++ q ∧ q <+: stream [e.op] := by
  obtain ⟨q, rfl, hq⟩ := h
  rw [Line.ops, htrace, List.map_append, List.forall_mem_append] at hshort
  have hfilter : l.trace.filter Entry.accepted = es := by
    rw [htrace, List.filter_append, List.filter_eq_self.2 hacc, List.filter_cons_of_neg (by simp [hfalse]),
      List.filter_nil, List.append_nil]
  refine ⟨q, by rw [hfilter, flatMap_sent hshort.1], ?_⟩
  rcases hq with rfl | ⟨e', he, -, hpre⟩
  · exact List.nil_prefix
  · rw [htrace, List.getLast?_concat] at he
    obtain rfl := Option.some.inj he
    rw [← sent_entry (hshort.2 _ List.mem_cons_self)]
    exact hpre

theorem stream_isPrefix {os os' : List Op} (h : os <+: os') : stream os <+: stream os' := by
  obtain ⟨r, rfl⟩ := h
  rw [stream_append]
  exact List.prefix_append _ _

/-- What fits is short. -/
theorem Story.short (h : Story tp xs n l) (hname : tp.Fits) (hxs : ∀ x ∈ xs, x.Fits) :
    ∀ o ∈ l.ops, o.Short := by
  have hpart : ∀ {ys : List Round} {x : Round} {os : List Op}, (∀ y ∈ ys ++ [x], y.Fits) → os <+: x.ops tp →
      ∀ o ∈ sessionOps tp ys ++ os, o.Short := by
    intro ys x os hfits hos
    obtain ⟨hys, hx⟩ := List.forall_mem_append.1 hfits
    refine List.forall_mem_append.2 ⟨short_session hname hys, fun o ho => ?_⟩
    exact Round.short_ops tp (hx x List.mem_cons_self) o (hos.subset ho)
  cases h with
  | rest hops _ _ =>
    rw [hops]
    exact short_session hname hxs
  | busy part hops hround _ _ =>
    rw [hops]
    exact hpart hxs ⟨_, hround⟩
  | broken part htrace hops hround _ _ _ =>
    rw [Line.ops, htrace, List.map_append, hops, List.append_assoc]
    exact hpart hxs hround

/-- Of a connection that is set up, all rounds that have ended have arrived, and a
    part of the one after them. -/
theorem Story.arrives (h : Story tp xs n l) (hname : tp.Fits) (hxs : ∀ x ∈ xs, x.Fits) {bs : Bytes}
    (hbs : l.Arrives bs) :
    bs = stream (sessionOps tp xs) ∧ n = xs.length ∨
      ∃ ys x q, xs = ys ++ [x] ∧ n = ys.length ∧ bs = stream (sessionOps tp ys) ++ q ∧
        q <+: stream (x.ops tp) := by
  have hshort := h.short hname hxs
  cases h with
  | rest hops _ hacc => exact Or.inl ⟨by rw [arrives_accepted hbs hshort hacc, hops], rfl⟩
  | busy part hops hpart _ hacc =>
    refine Or.inr ⟨_, _, stream part, rfl, rfl, ?_, stream_isPrefix ⟨_, hpart⟩⟩
    rw [arrives_accepted hbs hshort hacc, hops, stream_append]
  | broken part htrace hops hpart _ hacc hfalse =>
    obtain ⟨q, rfl, hq⟩ := arrives_refused hbs htrace hshort hacc hfalse
    refine Or.inr ⟨_, _, stream part ++ q, rfl, rfl, ?_, ?_⟩
    · rw [hops, stream_append, List.append_assoc]
    · refine List.IsPrefix.trans ?_ (stream_isPrefix hpart)
      rw [stream_append, List.prefix_append_right_inj]
      exact hq

/-- **The mailbox of a connection that is set up.** -/
theorem Story.mails (hname : tp.Fits) (h : Story tp xs n l) (hxs : ∀ x ∈ xs, x.Fits) {bs : Bytes}
    (hbs : l.Arrives bs) : ∃ k, n ≤ k ∧ k ≤ xs.length ∧ xs.length ≤ n + 1 ∧
      (Mailbox.empty.after bs).mails = (xs.take k).filterMap (Round.mail? tp) := by
  rcases h.arrives hname hxs hbs with ⟨rfl, rfl⟩ | ⟨ys, x, q, rfl, rfl, rfl, hq⟩
  · obtain ⟨b, hb, -, hmails⟩ := intake_session hname hxs
    refine ⟨xs.length, Nat.le_refl _, Nat.le_refl _, Nat.le_succ _, ?_⟩
    rw [List.take_length, ← hmails, Mailbox.after, hb]
  · obtain ⟨hys, hx⟩ := List.forall_mem_append.1 hxs
    replace hx : x.Fits := hx x List.mem_cons_self
    obtain ⟨b, hb, hmode, hmails⟩ := intake_session hname hys
    have hafter : Mailbox.empty.after (stream (sessionOps tp ys) ++ q) = b.after q := by
      rw [Mailbox.after, Mailbox.intake_append _ _ hb]
      rfl
    rw [List.length_append, List.length_singleton]
    by_cases hne : q = stream (x.ops tp)
    · obtain ⟨b', hb', -, hmails'⟩ := Round.intake_round hname hx hmode
      refine ⟨ys.length + 1, Nat.le_succ _, Nat.le_refl _, Nat.le_refl _, ?_⟩
      have htake : (ys ++ [x]).take (ys.length + 1) = ys ++ [x] := List.take_of_length_le (by simp)
      rw [hafter, hne, Mailbox.after, hb', hmails', hmails, htake, List.filterMap_append]
      cases hmail : Round.mail? tp x with
      | none => simp [hmail]
      | some m => simp [hmail]
    · refine ⟨ys.length, Nat.le_refl _, Nat.le_succ _, Nat.le_refl _, ?_⟩
      rw [hafter, Round.mails_part hname hx hmode hq hne, hmails, List.take_left]

/-- **And of one that is not.** -/
theorem mails_setting (hname : tp.Fits) (hops : l.ops <+: ehloOps tp ++ authOps tp)
    (hacc : ∀ e ∈ l.trace.dropLast, e.accepted) {bs : Bytes} (hbs : l.Arrives bs) :
    (Mailbox.empty.after bs).mails = [] := by
  refine Mailbox.mails_setup tp rfl ?_
  have hpre := stream_isPrefix hops
  have hshort : ∀ o ∈ l.ops, o.Short := fun o ho => short_setup hname.auth o (hops.subset ho)
  rcases List.eq_nil_or_concat l.trace with htrace | ⟨es, e, htrace⟩
  · rw [arrives_accepted hbs hshort (by rw [htrace]; exact nofun)]
    exact hpre
  · rw [List.concat_eq_append] at htrace
    rw [htrace, List.dropLast_concat] at hacc
    have hsplit : stream l.ops = stream (es.map Entry.op) ++ stream [e.op] := by
      rw [Line.ops, htrace, List.map_append, stream_append]
      rfl
    cases hlast : e.accepted with
    | true =>
      rw [arrives_accepted hbs hshort fun e' he' => ?_]
      · exact hpre
      · rw [htrace] at he'
        rcases List.mem_append.1 he' with he' | he'
        · exact hacc e' he'
        · rw [List.mem_singleton.1 he']
          exact hlast
    | false =>
      obtain ⟨q, rfl, hq⟩ := arrives_refused hbs htrace hshort hacc hlast
      refine List.IsPrefix.trans ?_ hpre
      rw [hsplit, List.prefix_append_right_inj]
      exact hq

end Line

/-! ## What a run begins and ends -/

inductive Milestone where
  | began (c : ℕ) (x : Round)  -- a round on the connection `c`
  | ended (c : ℕ)  -- the round on it has been accepted to its end
  deriving DecidableEq

namespace Wire

/-- A call ends the exchange on the connection `c`. -/
def endsOn (s : Wire) (c : ℕ) (io : CallIo) : Bool := (s.lines[c]?).any fun l => l.ends io

/-- And after it there is none. -/
def overOn (s : Wire) (c : ℕ) (io : CallIo) : Bool :=
  (s.lines[c]?).any fun l => (l.call io).1 && (l.call io).2.todo = []

/-- What a step begins and ends. -/
def milestones (s : Wire) (x : Act) : List Milestone :=
  match x.act with
  | .client i _ =>
    match s.pool.clients[i]? with
    | some (.got c isNew) => [.began c (if isNew then .mail x.toList x.data else .rset)]
    | some (.rset c) => (if s.endsOn c x.io then [.ended c] else []) ++
        if s.overOn c x.io then [.began c (.mail x.toList x.data)] else []
    | some (.mail c) => if s.endsOn c x.io then [.ended c] else []
    | _ => []
  | .noop c _ =>
    match (s.pool.conns[c]?).map Conn.pc with
    | some .count => [.began c .noop]
    | some .noop => if s.endsOn c x.io then [.ended c] else []
    | _ => []
  | _ => []

end Wire

/-- The milestones of a run. -/
def history (p : List (Wire × Wire.Act)) : List Milestone := p.flatMap fun y => y.1.milestones y.2

/-- The rounds begun on a connection, in order. -/
def began (ds : List Milestone) (c : ℕ) : List Round :=
  ds.filterMap fun d => match d with
    | .began c' x => if c' = c then some x else none
    | .ended _ => none

/-- How many of them have been accepted to their end. -/
def ended (ds : List Milestone) (c : ℕ) : ℕ := ds.countP fun d => d = .ended c

theorem began_append (ds ds' : List Milestone) (c : ℕ) :
    began (ds ++ ds') c = began ds c ++ began ds' c :=
  List.filterMap_append

theorem ended_append (ds ds' : List Milestone) (c : ℕ) :
    ended (ds ++ ds') c = ended ds c + ended ds' c :=
  List.countP_append

namespace Wire

/-- **The connections are as the milestones have made them.** -/
structure Told (tp : Tp) (s : Wire) (ds : List Milestone) : Prop where
  lines : ∀ (c : ℕ) (l : Line), s.lines[c]? = some l → l.Story tp (began ds c) (ended ds c)
  unborn : ∀ c, s.lines.length ≤ c → began ds c = [] ∧ ended ds c = 0
  fresh : s.fresh.Setting tp
  lost : ∀ l ∈ s.lost, l.Setting tp

section
variable {tp : Tp} {s u : Wire} {ds ds' : List Milestone} {a : Action} {c : ℕ} {l l' : Line} {x : Act}

theorem told_init (tp : Tp) (n : ℕ) : (init n).Told tp [] where
  lines := by
    intro c l hl
    cases hl
  unborn := fun _ _ => ⟨rfl, rfl⟩
  fresh := .closed
  lost := by
    intro l hl
    cases hl

theorem told_sync (hT : s.Told tp ds) (h : s.sync tp a = some u) : u.Told tp ds := by
  obtain ⟨p, -, rfl⟩ := sync_eq h
  exact ⟨hT.lines, hT.unborn, hT.fresh, hT.lost⟩

/-- Milestones on one connection. -/
theorem told_put (hT : s.Told tp ds) (hl : s.lines[c]? = some l)
    (hother : ∀ c', c' ≠ c → began ds' c' = [] ∧ ended ds' c' = 0)
    (hl' : l'.Story tp (began ds c ++ began ds' c) (ended ds c + ended ds' c)) :
    (s.put (.conn c) l').Told tp (ds ++ ds') where
  lines := by
    intro c' m hm
    have hget : (s.put (.conn c) l').get (.conn c') =
        if Chan.conn c' = .conn c then some l' else s.get (.conn c') :=
      get_put (show ∃ l, s.get (.conn c) = some l from ⟨l, hl⟩) (.conn c')
    replace hm : (s.put (.conn c) l').get (.conn c') = some m := hm
    rw [hget] at hm
    rw [began_append, ended_append]
    by_cases hc : c' = c
    · subst hc
      rw [if_pos rfl] at hm
      obtain rfl := Option.some.inj hm
      exact hl'
    · rw [if_neg fun he => hc (Chan.conn.inj he)] at hm
      obtain ⟨hb, he⟩ := hother c' hc
      rw [hb, he, List.append_nil, Nat.add_zero]
      exact hT.lines c' m hm
  unborn := by
    intro c' hc'
    rw [lines_put] at hc'
    obtain ⟨hlt, -⟩ := List.getElem?_eq_some_iff.1 hl
    obtain ⟨hb, he⟩ := hother c' (by omega)
    obtain ⟨hb', he'⟩ := hT.unborn c' hc'
    rw [began_append, ended_append, hb, hb', he, he']
    exact ⟨rfl, rfl⟩
  fresh := hT.fresh
  lost := hT.lost

theorem told_fresh (hT : s.Told tp ds) (hl : l.Setting tp) : (s.put .fresh l).Told tp ds where
  lines := hT.lines
  unborn := hT.unborn
  fresh := hl
  lost := hT.lost

theorem told_failed (hT : s.Told tp ds) (hl : l.Setting tp) : (s.failed l).Told tp ds where
  lines := hT.lines
  unborn := hT.unborn
  fresh := .closed
  lost := by
    intro l' hl'
    rcases List.mem_append.1 hl' with hl' | hl'
    · exact hT.lost l' hl'
    · exact List.mem_singleton.1 hl' ▸ hl

/-- The connection that `newConn` has set up has no round yet. -/
theorem told_added (hT : s.Told tp ds) (hops : l.ops = ehloOps tp ++ authOps tp) (htodo : l.todo = [])
    (hacc : ∀ e ∈ l.trace, e.accepted) : (s.added l).Told tp ds where
  lines := by
    intro c m hm
    replace hm : (s.lines ++ [l])[c]? = some m := hm
    rcases Nat.lt_trichotomy c s.lines.length with hc | rfl | hc
    · rw [List.getElem?_append_left hc] at hm
      exact hT.lines c m hm
    · rw [List.getElem?_concat_length] at hm
      obtain rfl := Option.some.inj hm
      obtain ⟨hb, he⟩ := hT.unborn s.lines.length (Nat.le_refl _)
      rw [hb, he]
      exact .rest (by rw [hops, sessionOps, List.flatMap_nil, List.append_nil]) htodo hacc
    · rw [List.getElem?_eq_none (by simp; omega)] at hm
      cases hm
  unborn := by
    intro c hc
    refine hT.unborn c ?_
    replace hc : (s.lines ++ [l]).length ≤ c := hc
    rw [List.length_append, List.length_singleton] at hc
    omega
  fresh := .closed
  lost := hT.lost

/-- A call in an exchange is not its last, or what the thread does then is given. -/
theorem exchange_split {ch : Chan} {io : CallIo} {done : Bool → Line → Option Wire}
    (h : s.exchange ch io done = some u) : ∃ l, s.get ch = some l ∧
      (((l.call io).1 = true ∧ (l.call io).2.todo ≠ [] ∧ u = s.put ch (l.call io).2) ∨
        ((l.call io).1 = true ∧ (l.call io).2.todo = [] ∧ done true (l.call io).2 = some u) ∨
        ((l.call io).1 = false ∧ done false (l.call io).2 = some u)) := by
  obtain ⟨l, hl, h⟩ := Option.bind_eq_some_iff.1 h
  refine ⟨l, hl, ?_⟩
  rcases hcall : l.call io with ⟨_ | _, l'⟩
  · rw [hcall] at h
    exact Or.inr (Or.inr ⟨rfl, h⟩)
  · rw [hcall] at h
    dsimp only at h ⊢
    split at h
    · exact Or.inr (Or.inl ⟨rfl, ‹_›, h⟩)
    · exact Or.inl ⟨rfl, ‹_›, (Option.some.inj h).symm⟩

/-- A call, and the round that it ends. -/
theorem told_call (hT : s.Told tp ds) (hl : s.lines[c]? = some l) (io : CallIo) :
    (s.put (.conn c) (l.call io).2).Told tp (ds ++ if s.endsOn c io then [.ended c] else []) := by
  have hends : s.endsOn c io = l.ends io := by rw [endsOn, hl, Option.any_some]
  have hstory := (hT.lines c l hl).call io
  rw [hends]
  refine told_put hT hl (fun c' hc' => ?_) ?_
  · cases l.ends io with
    | false => exact ⟨rfl, rfl⟩
    | true =>
      have hne : ¬ Milestone.ended c = .ended c' := fun he => hc' (Milestone.ended.inj he).symm
      exact ⟨rfl, by simp [ended, hne]⟩
  · cases hcase : l.ends io with
    | false =>
      rw [hcase] at hstory
      simpa [began, ended] using hstory
    | true =>
      rw [hcase] at hstory
      simpa [began, ended] using hstory

/-- A round is begun. -/
theorem told_begin (hT : s.Told tp ds) (hl : s.lines[c]? = some l) (htodo : l.todo = [])
    (hacc : ∀ e ∈ l.trace, e.accepted) (x : Round) :
    (s.put (.conn c) (l.begin (x.ops tp))).Told tp (ds ++ [.began c x]) := by
  have hstory := ((hT.lines c l hl).begin htodo hacc x).2
  refine told_put hT hl (fun c' hc' => ?_) ?_
  · simp [began, ended, Ne.symm hc']
  · simpa [began, ended] using hstory

theorem put_put (s : Wire) (ch : Chan) (l l' : Line) : (s.put ch l).put ch l' = s.put ch l' := by
  cases ch with
  | fresh => rfl
  | conn c => simp [put]

theorem told_clientStep {i : ℕ} {ok : Bool} {pc : ClientPc} (hI : s.Inv tp) (hT : s.Told tp ds)
    (hx : x.act = .client i ok) (hi : s.pool.clients[i]? = some pc)
    (h : s.clientStep tp x i ok pc = some u) : u.Told tp (ds ++ s.milestones x) := by
  -- the client has no part in a round
  have plain : s.milestones x = [] → s.sync tp (.client i ok) = some u → u.Told tp (ds ++ s.milestones x) := by
    intro hd h
    rw [hd, List.append_nil]
    exact told_sync hT h
  cases pc with
  | connect =>
    have hd : s.milestones x = [] := by simp [milestones, hx, hi]
    cases ok with
    | false => exact plain hd h
    | true =>
      have hopened : (Line.opened (ehloOps tp ++ authOps tp)).Setting tp := .busy rfl nofun
      rw [hd, List.append_nil]
      exact told_sync (told_fresh hT hopened) h
  | setup =>
    have hd : s.milestones x = [] := by simp [milestones, hx, hi]
    rw [hd, List.append_nil]
    dsimp only [clientStep] at h
    obtain ⟨l, hl, hcases⟩ := exchange_split h
    obtain rfl : s.fresh = l := Option.some.inj hl
    have hset := hT.fresh.call x.io
    rcases hcases with ⟨-, -, rfl⟩ | ⟨hret, htodo, h⟩ | ⟨-, h⟩
    · exact told_fresh hT hset
    · -- the set-up is over
      have hsound : s.fresh.Sound tp .clear := hI.meets .fresh _ _ (Pool.needs_client hi rfl) rfl
      have hsound' := (hsound.call x.io).2 hret
      exact told_sync (told_added hT (hset.ops_eq hsound' htodo) htodo hsound'.accepted) h
    · exact told_sync (told_failed hT hset) h
  | got c isNew =>
    have hd : s.milestones x = [.began c (if isNew then .mail x.toList x.data else .rset)] := by
      simp [milestones, hx, hi]
    obtain ⟨l, hl, h⟩ := Option.bind_eq_some_iff.1 h
    obtain ⟨hs, htodo⟩ := hI.meets _ _ l (Pool.needs_client hi rfl) hl
    have hbegin := told_begin hT hl htodo hs.accepted (if isNew then .mail x.toList x.data else .rset)
    rw [hd]
    cases isNew with
    | false => exact told_sync hbegin h
    | true => exact told_sync hbegin h
  | rset c =>
    have hd : s.milestones x = (if s.endsOn c x.io then [.ended c] else []) ++
        if s.overOn c x.io then [.began c (.mail x.toList x.data)] else [] := by
      simp [milestones, hx, hi]
    dsimp only [clientStep] at h
    obtain ⟨l, hl, hcases⟩ := exchange_split h
    have hover : s.overOn c x.io = ((l.call x.io).1 && (l.call x.io).2.todo = []) := by
      replace hl : s.lines[c]? = some l := hl
      rw [overOn, hl, Option.any_some]
    have hcall := told_call hT hl x.io
    rw [hd, ← List.append_assoc, hover]
    rcases hcases with ⟨-, hne, rfl⟩ | ⟨hret, htodo, h⟩ | ⟨hret, h⟩
    · rw [decide_eq_false hne, Bool.and_false]
      simpa using hcall
    · have hsound : l.Sound tp .clear := hI.meets _ _ l (Pool.needs_client hi rfl) hl
      have hsound' := (hsound.call x.io).2 hret
      have hget : (s.put (.conn c) (l.call x.io).2).lines[c]? = some (l.call x.io).2 := by
        have := get_put (l := (l.call x.io).2) ⟨l, hl⟩ (.conn c)
        rwa [if_pos rfl] at this
      have hbegin := told_begin hcall hget htodo hsound'.accepted (.mail x.toList x.data)
      rw [put_put] at hbegin
      rw [hret, htodo]
      exact told_sync hbegin h
    · rw [hret]
      simpa using told_sync hcall h
  | mail c =>
    have hd : s.milestones x = if s.endsOn c x.io then [.ended c] else [] := by simp [milestones, hx, hi]
    dsimp only [clientStep] at h
    obtain ⟨l, hl, hcases⟩ := exchange_split h
    have hcall := told_call hT hl x.io
    rw [hd]
    rcases hcases with ⟨-, -, rfl⟩ | ⟨-, -, h⟩ | ⟨-, h⟩
    · exact hcall
    · exact told_sync hcall h
    · exact told_sync hcall h
  | _ => exact plain (by simp [milestones, hx, hi]) h

theorem told_noopStep {ok : Bool} {k : Conn} (hI : s.Inv tp) (hT : s.Told tp ds)
    (hx : x.act = .noop c ok) (hk : s.pool.conns[c]? = some k)
    (h : s.noopStep tp x c ok k.pc = some u) : u.Told tp (ds ++ s.milestones x) := by
  cases hpc : k.pc with
  | count =>
    have hd : s.milestones x = [.began c .noop] := by simp [milestones, hx, hk, hpc]
    rw [hpc] at h
    obtain ⟨l, hl, h⟩ := Option.bind_eq_some_iff.1 h
    have hneed : k.need? = some (.rest .used) := by simp [Conn.need?, hpc]
    obtain ⟨hs, htodo⟩ := hI.meets _ _ l (Pool.needs_conn hk hneed) hl
    rw [hd]
    exact told_sync (told_begin hT hl htodo hs.accepted .noop) h
  | noop =>
    have hd : s.milestones x = if s.endsOn c x.io then [.ended c] else [] := by simp [milestones, hx, hk, hpc]
    rw [hpc] at h
    dsimp only [noopStep] at h
    obtain ⟨l, hl, hcases⟩ := exchange_split h
    have hcall := told_call hT hl x.io
    rw [hd]
    rcases hcases with ⟨-, -, rfl⟩ | ⟨-, -, h⟩ | ⟨-, h⟩
    · exact hcall
    · exact told_sync hcall h
    · exact told_sync hcall h
  | _ =>
    have hd : s.milestones x = [] := by simp [milestones, hx, hk, hpc]
    rw [hpc] at h
    rw [hd, List.append_nil]
    exact told_sync hT h

/-- **One step.** -/
theorem told_step (hI : s.Inv tp) (hT : s.Told tp ds) (h : step tp s x = some u) :
    u.Told tp (ds ++ s.milestones x) := by
  unfold step at h
  cases hx : x.act with
  | client i ok =>
    rw [hx] at h
    obtain ⟨pc, hi, h⟩ := Option.bind_eq_some_iff.1 h
    exact told_clientStep hI hT hx hi h
  | noop c ok =>
    rw [hx] at h
    obtain ⟨k, hk, h⟩ := Option.bind_eq_some_iff.1 h
    exact told_noopStep hI hT hx hk h
  | timeout i | abort | spuriousClient i | spuriousNoop c | spuriousAbort | resetToday =>
    have hd : s.milestones x = [] := by simp [milestones, hx]
    rw [hx] at h
    rw [hd, List.append_nil]
    exact told_sync hT h

/-- **Every run.** -/
theorem told_of_path {n : ℕ} {p : List (Wire × Act)} (h : Runs.Path (step tp) (init n) p s) :
    s.Told tp (history p) := by
  induction h with
  | nil => exact told_init tp n
  | @snoc p s u x hp hx ih =>
    have hhist : history (p ++ [(s, x)]) = history p ++ s.milestones x := by
      rw [history, List.flatMap_append, List.flatMap_singleton]
      rfl
    rw [hhist]
    exact told_step (inv_of_reach hp.reach) ih hx

end

/-- As `accepting`, with a mail to hand in. -/
def sending (code : Bytes) (h : code.length ≤ 1023) : Act :=
  ⟨.client 0 true, ⟨.all, .data ⟨code, h⟩, true, []⟩, [bytes "b"], bytes "x\r\n.\r\n"⟩

/-- The first mail of a connection. -/
def firstMail : List Act :=
  List.replicate 4 (sending (bytes "220\n") (by decide)) ++ List.replicate 8 (sending (bytes "250\n") (by decide)) ++
    sending (bytes "354\n") (by decide) :: List.replicate 2 (sending (bytes "250\n") (by decide))

end Wire

end SmtpProxy
