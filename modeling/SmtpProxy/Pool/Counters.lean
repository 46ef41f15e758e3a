/-
  The counters of a transport: what a step of the pool counts.

  `totalSend` and `todaySend` are changed in two sections of `tpSendMail`, when
  a connection is given back after a mail, and by `resetTpTodaySendCounter`.
-/
import SmtpProxy.Pool.Trans

namespace SmtpProxy

namespace Pool

/-- A section counts a mail in both counters, or in none. -/
def Counts (s t : Pool) : Prop :=
  t.totalSend = s.totalSend ∧ t.todaySend = s.todaySend ∨
    t.totalSend = s.totalSend + 1 ∧ t.todaySend = s.todaySend + 1

section
variable {tp : Tp} {s t : Pool} {a : Action}

theorem counts_clientStep {i : ℕ} {ok : Bool} {pc : ClientPc} (h : s.clientStep tp i ok pc = some t) :
    Counts s t := by
  cases pc with
  | call | woken =>
    obtain ⟨-, hg⟩ := gets_of_step (by simp) h
    cases hg with
    | take | start | wait => exact Or.inl ⟨rfl, rfl⟩
  | wait => cases h
  | out | got d isNew | rset d | mail d | sent d | pause d | bcast d | signal d r | ret r =>
    obtain rfl := Option.some.inj h
    exact Or.inl ⟨rfl, rfl⟩
  | connect | setup =>
    obtain rfl := Option.some.inj h
    cases ok <;> exact Or.inl ⟨rfl, rfl⟩
  | limit d =>
    obtain ⟨k, -, rfl⟩ := Option.map_eq_some_iff.1 h
    exact Or.inl ⟨rfl, rfl⟩
  | expired =>
    obtain ⟨-, rfl⟩ := locked_eq_some.1 h
    exact Or.inl ⟨rfl, rfl⟩
  | release d =>
    obtain ⟨-, rfl⟩ := locked_eq_some.1 h
    exact Or.inr ⟨rfl, rfl⟩
  | retire d r =>
    obtain ⟨-, rfl⟩ := locked_eq_some.1 h
    cases r with
    | true => exact Or.inr ⟨rfl, rfl⟩
    | false => exact Or.inl ⟨rfl, rfl⟩

theorem counters_noopStep {c : ℕ} {ok : Bool} {k : Conn} (h : s.noopStep tp c ok k = some t) :
    t.totalSend = s.totalSend ∧ t.todaySend = s.todaySend := by
  unfold noopStep at h
  cases hpc : k.pc with
  | top | woken =>
    simp only [hpc] at h
    obtain ⟨-, rfl⟩ := locked_eq_some.1 h
    unfold noopTop endConnLocked
    split
    · exact ⟨rfl, rfl⟩
    · dsimp only
      split <;> split <;> exact ⟨rfl, rfl⟩
  | wait | exited => simp [hpc] at h
  | count | noop | sleep | closeHeld | close | destroy | endSignal | bcast | endBcast =>
    simp only [hpc] at h
    obtain rfl := Option.some.inj h
    exact ⟨rfl, rfl⟩
  | relock =>
    simp only [hpc] at h
    obtain ⟨-, rfl⟩ := locked_eq_some.1 h
    unfold noopBack endConnLocked
    split <;> exact ⟨rfl, rfl⟩
  | delete =>
    simp only [hpc] at h
    obtain ⟨-, rfl⟩ := locked_eq_some.1 h
    exact ⟨rfl, rfl⟩

theorem setEndFlags_counters : ∀ (cs : List ℕ) (s : Pool),
    (setEndFlags cs s).totalSend = s.totalSend ∧ (setEndFlags cs s).todaySend = s.todaySend
  | [], _ => ⟨rfl, rfl⟩
  | c :: cs, s => setEndFlags_counters cs (s.updConn c fun k => { k with endFlag := true })

theorem counters_abortStep (h : s.abortStep = some t) :
    t.totalSend = s.totalSend ∧ t.todaySend = s.todaySend := by
  have loop : s.locked s.abortLoop = some t →
      t.totalSend = s.totalSend ∧ t.todaySend = s.todaySend := by
    intro h
    obtain ⟨-, rfl⟩ := locked_eq_some.1 h
    have flags : ∀ ns ms : List ℕ,
        (setEndFlags ns (setEndFlags ms s)).endLoop.totalSend = s.totalSend ∧
          (setEndFlags ns (setEndFlags ms s)).endLoop.todaySend = s.todaySend := by
      intro ns ms
      obtain ⟨h₁, h₂⟩ := setEndFlags_counters ms s
      obtain ⟨h₃, h₄⟩ := setEndFlags_counters ns (setEndFlags ms s)
      exact ⟨h₃.trans h₁, h₄.trans h₂⟩
    unfold abortLoop
    split
    · exact ⟨rfl, rfl⟩
    · dsimp only
      split <;> split
      · exact flags _ _
      · exact flags [] _
      · exact flags _ []
      · exact flags [] []
  unfold abortStep at h
  split at h
  · obtain rfl := Option.some.inj h
    exact ⟨rfl, rfl⟩
  · exact loop h
  · exact loop h
  · obtain ⟨-, rfl⟩ := locked_eq_some.1 h
    exact ⟨rfl, rfl⟩
  all_goals cases h

/-- The clients alone count mails, and the reset alone clears a counter. -/
theorem counters_of_step (hc : ∀ i ok, a ≠ .client i ok) (h : step tp s a = some t) :
    t.totalSend = s.totalSend ∧ (a ≠ .resetToday → t.todaySend = s.todaySend) := by
  cases a with
  | client i ok => exact absurd rfl (hc i ok)
  | timeout i | spuriousClient i =>
    simp only [step] at h
    split at h
    · obtain rfl := Option.some.inj h
      exact ⟨rfl, fun _ => rfl⟩
    · cases h
  | noop c ok =>
    obtain ⟨k, -, h⟩ := Option.bind_eq_some_iff.1 h
    obtain ⟨h₁, h₂⟩ := counters_noopStep h
    exact ⟨h₁, fun _ => h₂⟩
  | abort =>
    obtain ⟨h₁, h₂⟩ := counters_abortStep h
    exact ⟨h₁, fun _ => h₂⟩
  | spuriousNoop c =>
    obtain ⟨k, -, h⟩ := Option.bind_eq_some_iff.1 h
    split at h
    · obtain rfl := Option.some.inj h
      exact ⟨rfl, fun _ => rfl⟩
    · cases h
  | spuriousAbort =>
    simp only [step, abortSpurious] at h
    split at h
    · obtain rfl := Option.some.inj h
      exact ⟨rfl, fun _ => rfl⟩
    · obtain rfl := Option.some.inj h
      exact ⟨rfl, fun _ => rfl⟩
    · cases h
  | resetToday =>
    obtain ⟨-, rfl⟩ := locked_eq_some.1 h
    exact ⟨rfl, fun h => absurd rfl h⟩

/-- **Every section but the reset counts in both counters alike.** -/
theorem counts_of_step (ha : a ≠ .resetToday) (h : step tp s a = some t) : Counts s t := by
  by_cases hc : ∃ i ok, a = .client i ok
  · obtain ⟨i, ok, rfl⟩ := hc
    obtain ⟨pc, -, h⟩ := Option.bind_eq_some_iff.1 h
    exact counts_clientStep h
  · obtain ⟨h₁, h₂⟩ := counters_of_step (fun i ok he => hc ⟨i, ok, he⟩) h
    exact Or.inl ⟨h₁, h₂ ha⟩

end

end Pool

end SmtpProxy
