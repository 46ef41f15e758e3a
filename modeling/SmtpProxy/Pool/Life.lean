/-
  The life of a connection: `maxSendPerConn`, `maxNoop`, and failures.

  `Life` is a connection as the threads that use it one after another leave it:
  where it is in its use, with its two counters; `Life.Runs` are its histories.
  It knows nothing of the other connections, nor of the lists, the lock and the
  signals, which see to it that there is always one thread to go on with it.

  * `fit_of_runs`: how the counters and a history go together;
  * `not_use_of_worn`: a worn connection is not used again;
  * `noops_between`: the NOOPs between two uses.
-/
import SmtpProxy.Pool.Usage

namespace SmtpProxy

/-! ## The life of a connection -/

/-- Where a connection is in its use. -/
inductive LifePhase where
  | idle
  | got  -- returned by `getAnIdleConn`
  | work  -- in RSET, or in MAIL, RCPT and DATA
  | sent  -- before `conn->sendCount++`
  | limit  -- before the test of `sendCount`
  | given  -- before `busy -> idle`
  | count  -- before `conn->noopCount++`
  | noop  -- in `smtpNOOP`
  | relock  -- before `noop -> idle`
  | ended  -- retired, or in `endConn`
  deriving DecidableEq

structure Life where
  phase : LifePhase
  sendCount : ℤ
  noopCount : ℤ
  deriving DecidableEq

namespace Life

/-- What can become of a connection, and what is noted about it. -/
inductive Step (tp : Tp) : Life → Option Mark → Life → Prop
  | use {m n : ℤ} : Step tp ⟨.idle, m, n⟩ (some .use) ⟨.got, m, n⟩
  | start {m n : ℤ} : Step tp ⟨.got, m, n⟩ none ⟨.work, m, 0⟩
  | failed {m n : ℤ} : Step tp ⟨.work, m, n⟩ (some .failed) ⟨.ended, m, n⟩
  | data {m n : ℤ} : Step tp ⟨.work, m, n⟩ (some .data) ⟨.sent, m, n⟩
  | sent {m n : ℤ} : Step tp ⟨.sent, m, n⟩ none ⟨.limit, m + 1, n⟩
  | limit {m n : ℤ} (h : m = tp.maxSendPerConn) : Step tp ⟨.limit, m, n⟩ none ⟨.ended, m, n⟩
  | give {m n : ℤ} (h : m ≠ tp.maxSendPerConn) : Step tp ⟨.limit, m, n⟩ none ⟨.given, m, n⟩
  | release {m n : ℤ} : Step tp ⟨.given, m, n⟩ none ⟨.idle, m, n⟩
  | take {m n : ℤ} : Step tp ⟨.idle, m, n⟩ none ⟨.count, m, n⟩
  | count {m n : ℤ} : Step tp ⟨.count, m, n⟩ none ⟨.noop, m, n + 1⟩
  | noop {m n : ℤ} (h : n ≠ tp.maxNoop) :
      Step tp ⟨.noop, m, n⟩ (some (.noop true)) ⟨.relock, m, n⟩
  | last {m n : ℤ} {ok : Bool} (h : ok → n = tp.maxNoop) :
      Step tp ⟨.noop, m, n⟩ (some (.noop ok)) ⟨.ended, m, n⟩
  | back {m n : ℤ} : Step tp ⟨.relock, m, n⟩ none ⟨.idle, m, n⟩
  | flagged {ph : LifePhase} {m n : ℤ} (h : ph = .idle ∨ ph = .relock) :
      Step tp ⟨ph, m, n⟩ none ⟨.ended, m, n⟩
  | stay {l : Life} : Step tp l none l

/-- The histories of a connection from `newConn` on. -/
inductive Runs (tp : Tp) : List Mark → Life → Prop
  | added : Runs tp [.use] ⟨.got, 0, 0⟩
  | step {h : List Mark} {l l' : Life} {e : Option Mark} :
      Runs tp h l → Step tp l e l' → Runs tp (h ++ e.toList) l'

end Life

namespace Mark

def isUse : Mark → Bool
  | .use => true
  | _ => false

def isData : Mark → Bool
  | .data => true
  | _ => false

def isNoop : Mark → Bool
  | .noop _ => true
  | _ => false

/-- An exchange has failed. -/
def fails : Mark → Bool
  | .failed | .noop false => true
  | _ => false

end Mark

/-- The NOOPs of a history since the last use. -/
def noops (h : List Mark) : ℕ := Runs.since Mark.isUse Mark.isNoop h

/-- An exchange has failed, or a limit has been reached. -/
structure Sound (tp : Tp) (h : List Mark) : Prop where
  ok : ∀ e ∈ h, e.fails = false
  sends : 1 ≤ tp.maxSendPerConn → h.countP Mark.isData < tp.maxSendPerConn
  noops : 1 ≤ tp.maxNoop → SmtpProxy.noops h < tp.maxNoop

/-- The connection is worn out. -/
def Worn (tp : Tp) (h : List Mark) : Prop := ¬ Sound tp h

section
variable {tp : Tp} {h h₁ h₂ : List Mark} {l l' : Life}

/-- `sendCount`, after `n` mails. -/
structure SendFit (tp : Tp) (n : ℕ) (l : Life) : Prop where
  count : (n : ℤ) = l.sendCount + (if l.phase = .sent then 1 else 0)
  most : 1 ≤ tp.maxSendPerConn → n ≤ tp.maxSendPerConn
  less : l.phase ∉ [LifePhase.sent, .limit, .ended] → 1 ≤ tp.maxSendPerConn → n < tp.maxSendPerConn

/-- `noopCount`, after `n` NOOPs since the last use. -/
structure NoopFit (tp : Tp) (n : ℕ) (l : Life) : Prop where
  fresh : l.phase = .got → n = 0
  count : l.phase ∉ [LifePhase.got, .ended] → n + (if l.phase = .noop then 1 else 0) = l.noopCount
  most : 1 ≤ tp.maxNoop → n ≤ tp.maxNoop
  less : l.phase ≠ .ended → 1 ≤ tp.maxNoop → n < tp.maxNoop

/-- What holds of a connection with its history. -/
structure Fit (tp : Tp) (h : List Mark) (l : Life) : Prop where
  sends : SendFit tp (h.countP Mark.isData) l
  noops : NoopFit tp (SmtpProxy.noops h) l
  ok : l.phase ≠ .ended → ∀ e ∈ h, e.fails = false

theorem Fit.sound (hF : Fit tp h l) (hl : l.phase ∉ [LifePhase.sent, .limit, .ended]) : Sound tp h := by
  have hend : l.phase ≠ .ended := by
    rintro he
    exact hl (by simp [he])
  exact ⟨hF.ok hend, hF.sends.less hl, hF.noops.less hend⟩

theorem sends_data {n : ℕ} (hF : SendFit tp n l) (hs : Life.Step tp l (some .data) l') :
    SendFit tp (n + 1) l' := by
  cases hs with
  | data =>
    have hcount : (n : ℤ) = _ + 0 := hF.count
    refine ⟨?_, fun h1 => ?_, by simp⟩
    · simp [hcount]
    · have := hF.less (by simp) h1
      push_cast
      omega

theorem sends_step {n : ℕ} {e : Option Mark} (hF : SendFit tp n l) (hs : Life.Step tp l e l')
    (he : e ≠ some .data) : SendFit tp n l' := by
  obtain ⟨hcount, hmost, hless⟩ := hF
  cases hs with
  | data => exact absurd rfl he
  | sent => exact ⟨by simpa using hcount, hmost, by simp⟩
  | @give m _ hne =>
    replace hcount : (n : ℤ) = m + 0 := hcount
    refine ⟨hcount, hmost, fun _ h1 => ?_⟩
    have := hmost h1
    omega
  | flagged hph =>
    refine ⟨?_, hmost, by simp⟩
    rcases hph with rfl | rfl <;> exact hcount
  | stay => exact ⟨hcount, hmost, hless⟩
  | limit | failed | last => exact ⟨hcount, hmost, by simp⟩
  | use | noop | start | release | take | count | back => exact ⟨hcount, hmost, fun _ => hless (by simp)⟩

theorem noops_use (hs : Life.Step tp l (some .use) l') : NoopFit tp 0 l' := by
  cases hs with
  | use => exact ⟨fun _ => rfl, by simp, fun h => by omega, fun _ h => by omega⟩

theorem noops_noop {n : ℕ} {ok : Bool} (hF : NoopFit tp n l) (hs : Life.Step tp l (some (.noop ok)) l') :
    NoopFit tp (n + 1) l' := by
  cases hs with
  | @noop _ k hne =>
    have hcount : (n : ℤ) + 1 = k := hF.count (by simp)
    refine ⟨by simp, fun _ => by simpa using hcount, fun h1 => ?_, fun _ h1 => ?_⟩
    · have := hF.less (by simp) h1
      push_cast
      omega
    · have := hF.less (by simp) h1
      push_cast
      omega
  | last =>
    refine ⟨by simp, by simp, fun h1 => ?_, by simp⟩
    have := hF.less (by simp) h1
    push_cast
    omega

theorem noops_step {n : ℕ} {e : Option Mark} (hF : NoopFit tp n l) (hs : Life.Step tp l e l')
    (he : ∀ b ∈ e, b.isUse = false ∧ b.isNoop = false) : NoopFit tp n l' := by
  obtain ⟨hfresh, hcount, hmost, hless⟩ := hF
  cases hs with
  | use | noop | last => exact absurd (he _ rfl) (by simp [Mark.isUse, Mark.isNoop])
  | failed | limit | flagged => exact ⟨by simp, by simp, hmost, by simp⟩
  | start =>
    refine ⟨by simp, fun _ => ?_, hmost, fun _ => hless (by simp)⟩
    rw [hfresh rfl]
    rfl
  | count =>
    have hcount : (n : ℤ) + 0 = _ := hcount (by simp)
    exact ⟨by simp, fun _ => by simpa using hcount, hmost, fun _ => hless (by simp)⟩
  | stay => exact ⟨hfresh, hcount, hmost, hless⟩
  | data | sent | give | release | take | back =>
    exact ⟨by simp, fun _ => hcount (by simp), hmost, fun _ => hless (by simp)⟩

theorem noops_snoc {e : Mark} : noops (h ++ [e]) =
    if e.isUse then 0 else if e.isNoop then noops h + 1 else noops h := Runs.since_snoc

theorem ok_step {e : Option Mark} (hs : Life.Step tp l e l') (hend : l'.phase ≠ .ended) :
    l.phase ≠ .ended ∧ ∀ b ∈ e, b.fails = false := by
  cases hs with
  | stay => exact ⟨hend, by simp⟩
  | failed | last | limit => exact absurd rfl hend
  | flagged hph => exact absurd rfl hend
  | _ => simp [Mark.fails]

theorem fit_step {e : Option Mark} (hF : Fit tp h l) (hs : Life.Step tp l e l') :
    Fit tp (h ++ e.toList) l' := by
  refine ⟨?_, ?_, fun hend b hb => ?_⟩
  · rcases e with _ | _ | _ | _ | ok
    · rw [Option.toList_none, List.append_nil]
      exact sends_step hF.sends hs (by simp)
    · rw [Option.toList_some, List.countP_append]
      exact sends_step hF.sends hs (by simp)
    · rw [Option.toList_some, List.countP_append]
      exact sends_data hF.sends hs
    · rw [Option.toList_some, List.countP_append]
      exact sends_step hF.sends hs (by simp)
    · rw [Option.toList_some, List.countP_append]
      exact sends_step hF.sends hs (by simp)
  · rcases e with _ | _ | _ | _ | ok
    · rw [Option.toList_none, List.append_nil]
      exact noops_step hF.noops hs (by simp)
    · rw [Option.toList_some, noops_snoc]
      exact noops_use hs
    · rw [Option.toList_some, noops_snoc]
      exact noops_step hF.noops hs (by simp [Mark.isUse, Mark.isNoop])
    · rw [Option.toList_some, noops_snoc]
      exact noops_step hF.noops hs (by simp [Mark.isUse, Mark.isNoop])
    · rw [Option.toList_some, noops_snoc]
      exact noops_noop hF.noops hs
  · obtain ⟨hl, he⟩ := ok_step hs hend
    rcases List.mem_append.1 hb with hb | hb
    · exact hF.ok hl b hb
    · exact he b (Option.mem_toList.1 hb)

theorem fit_of_runs (hr : Life.Runs tp h l) : Fit tp h l := by
  induction hr with
  | added =>
    refine ⟨⟨rfl, fun h => ?_, fun _ h => ?_⟩, ⟨fun _ => rfl, by simp, fun h => ?_, fun _ h => ?_⟩, ?_⟩
    · simp [Mark.isData]; omega
    · simp [Mark.isData]; omega
    · exact Int.le_trans (by decide : (noops [.use] : ℤ) ≤ 1) h
    · exact Int.lt_of_lt_of_le (by decide : (noops [.use] : ℤ) < 1) h
    · simp [Mark.fails]
  | step _ hs ih => exact fit_step ih hs

/-! ## Worn connections -/

/-- The beginnings of a history are histories. -/
theorem runs_prefix (hr : Life.Runs tp h l) : ∀ {h₁ h₂ : List Mark}, h = h₁ ++ h₂ → h₁ ≠ [] →
    ∃ l₁, Life.Runs tp h₁ l₁ := by
  induction hr with
  | added =>
    intro h₁ h₂ hh hne
    obtain ⟨b, h₁, rfl⟩ := List.exists_cons_of_ne_nil hne
    obtain ⟨rfl, hh'⟩ := List.cons.inj hh
    obtain ⟨rfl, -⟩ := List.append_eq_nil_iff.1 hh'.symm
    exact ⟨_, .added⟩
  | @step h l l' e hr hs ih =>
    intro h₁ h₂ hh hne
    cases e with
    | none =>
      rw [Option.toList_none, List.append_nil] at hh
      exact ih hh hne
    | some b =>
      rcases List.eq_nil_or_concat h₂ with rfl | ⟨h₃, b', rfl⟩
      · rw [List.append_nil] at hh
        exact ⟨l', hh ▸ hr.step hs⟩
      · rw [List.concat_eq_append, ← List.append_assoc] at hh
        exact ih (List.append_inj' hh rfl).1 hne

/-- A connection is used when it is idle, or new. -/
theorem runs_use (hr : Life.Runs tp h l) : ∀ {h₁ h₂ : List Mark}, h = h₁ ++ .use :: h₂ →
    h₁ = [] ∨ ∃ l₁, Life.Runs tp h₁ l₁ ∧ l₁.phase = .idle := by
  induction hr with
  | added =>
    intro h₁ h₂ hh
    cases h₁ with
    | nil => exact Or.inl rfl
    | cons b h₁ => exact absurd (List.cons.inj hh).2 (by simp)
  | @step h l l' e hr hs ih =>
    intro h₁ h₂ hh
    cases e with
    | none =>
      rw [Option.toList_none, List.append_nil] at hh
      exact ih hh
    | some b =>
      rw [Option.toList_some] at hh
      rcases List.eq_nil_or_concat h₂ with rfl | ⟨h₃, b', rfl⟩
      · obtain ⟨rfl, hb⟩ := List.append_inj' hh rfl
        obtain rfl := List.head_eq_of_cons_eq hb
        cases hs with
        | use => exact Or.inr ⟨_, hr, rfl⟩
      · rw [List.concat_eq_append, ← List.cons_append, ← List.append_assoc] at hh
        exact ih (List.append_inj' hh rfl).1

/-- Wear does not go away while the connection is not used. -/
theorem worn_append (hw : Worn tp h₁) (h : .use ∉ h₂) : Worn tp (h₁ ++ h₂) := by
  intro hs
  refine hw ⟨fun e he => hs.ok e (List.mem_append_left _ he), fun h1 => ?_, fun h1 => ?_⟩
  · have := hs.sends h1
    rw [List.countP_append] at this
    push_cast at this
    omega
  · have := hs.noops h1
    rw [noops, Runs.since_append] at this
    · push_cast at this
      unfold noops
      omega
    · intro e he
      cases e with
      | use => exact absurd he h
      | _ => rfl

/-- **A worn connection is not used again.** -/
theorem not_use_of_worn (hr : Life.Runs tp (h₁ ++ h₂) l) (hw : Worn tp h₁) : .use ∉ h₂ := by
  intro huse
  obtain ⟨a, b, rfl, ha⟩ := List.eq_append_cons_of_mem huse
  rw [← List.append_assoc] at hr
  have hw' := worn_append hw ha
  rcases runs_use hr rfl with hnil | ⟨l₁, hr₁, hidle⟩
  · rw [hnil] at hw'
    exact hw' ⟨by simp, fun h => Int.lt_of_lt_of_le (by decide : ((([] : List Mark).countP Mark.isData : ℕ) : ℤ) < 1) h,
      fun h => Int.lt_of_lt_of_le (by decide : (noops [] : ℤ) < 1) h⟩
  · exact hw' ((fit_of_runs hr₁).sound (by simp [hidle]))

/-- **The NOOPs between two uses.** -/
theorem noops_between (hr : Life.Runs tp (h ++ h₁ ++ h₂) l) (h1 : 1 ≤ tp.maxNoop) (huse : .use ∉ h₁) :
    h₁.countP Mark.isNoop ≤ tp.maxNoop := by
  by_cases hnil : h ++ h₁ = []
  · obtain ⟨-, rfl⟩ := List.append_eq_nil_iff.1 hnil
    exact Int.le_trans (by decide : ((([] : List Mark).countP Mark.isNoop : ℕ) : ℤ) ≤ 1) h1
  · obtain ⟨l₁, hr₁⟩ := runs_prefix hr rfl hnil
    have hmost := (fit_of_runs hr₁).noops.most h1
    rw [noops, Runs.since_append] at hmost
    · push_cast at hmost
      omega
    · intro e he
      cases e with
      | use => exact absurd he huse
      | _ => rfl

end

end SmtpProxy
