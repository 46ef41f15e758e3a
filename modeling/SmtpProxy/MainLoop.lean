/-
  The loop of the main thread (`mainLoop` in main.c, `newCl` in client.c), with
  the signal handlers.

  The main thread goes from statement to statement (`LoopPc`); a signal, or a
  client that leaves the table, can come between any two.  What `accept`
  returns, and how the waits and `loadTpConfig` end, is in the `Turn`.

  * `Accounted`: every descriptor that `accept` returned is in hand or has been
    dealt with, once; `accepted_iff`: when that is so;
  * `Noted`: a SIGHUP is in the flag `reload`, or a `loadTpConfig` begun after
    it has ended; `reload_iff`: when that is so.
-/
import Mathlib.Data.Int.Notation
import SmtpProxy.Lib.Runs

namespace SmtpProxy

def MAX_CLIENTS : ℤ := 1000

/-- What `accept` returns. -/
inductive Accept where
  | fd (n : ℕ)
  | eintr
  | eagain
  | econnaborted
  | error  -- any other `errno`
  deriving DecidableEq

def Accept.fd? : Accept → Option ℕ
  | .fd n => some n
  | _ => none

/-- Where the main thread is in `mainLoop`. -/
inductive LoopPc where
  | test  -- before `while (!quit)`
  | accept  -- in `accept`
  | switch (r : Accept)  -- `accept` has returned
  | quitTest (fd : Option ℕ)  -- before `if (quit)`
  | reloadTest (fd : Option ℕ)  -- before `if (reload)`
  | block  -- before `blockClients`
  | abort  -- before `abortTransportsConns`
  | free  -- before `freeTransports`
  | load  -- before `loadTpConfig`
  | loading  -- in `loadTpConfig`
  | unblock  -- before `unblockClients`
  | clear  -- before `reload = 0`
  | handle (fd : Option ℕ)  -- before `if (fd > -1)`
  | append (fd : ℕ)  -- in `pthread_dllistAppend`, before the test of the count
  | full (fd : ℕ)  -- waiting for a client to leave
  | reply (fd : ℕ)  -- `newCl` has failed: before the `write`
  | close (fd : ℕ)  -- before the `close`
  | create (fd : ℕ)  -- before `pthread_create`
  | out  -- behind the loop
  | exited  -- `exit(1)`
  deriving DecidableEq

/-- The descriptor in the hand of the main thread. -/
def LoopPc.inHand : LoopPc → Option ℕ
  | .switch r => r.fd?
  | .quitTest fd | .reloadTest fd | .handle fd => fd
  | .append fd | .full fd | .reply fd | .close fd | .create fd => some fd
  | _ => none

/-- What becomes of a descriptor. -/
inductive Fate where
  | handed  -- to a `handleClient` thread
  | refused  -- answered that there are too many connections, and closed
  deriving DecidableEq

/-- The main thread, the flags and the size of the client table, `stray` of whose
    clients have no thread; with the descriptors accepted and dealt with, and the
    SIGHUPs delivered so far, delivered when the last `loadTpConfig` began, and
    before one that ended. -/
structure MainLoop where
  pc : LoopPc
  quit : Bool
  reload : Bool
  count : ℤ
  stray : ℤ
  accepted : List ℕ
  done : List (ℕ × Fate)
  hups : ℕ
  began : ℕ
  served : ℕ
  deriving DecidableEq

namespace MainLoop

/-- What comes next: the main thread goes on (`ok`: a wait is not timed out, a
    configuration is valid, `pthread_create` succeeds), `accept` returns, a signal is delivered, a client
    leaves. -/
inductive Turn where
  | main (ok : Bool)
  | accept (r : Accept)
  | sighup
  | sigterm
  | leave
  deriving DecidableEq

def init : MainLoop := ⟨.test, false, false, 0, 0, [], [], 0, 0, 0⟩

section
variable (s : MainLoop)

def goto (pc : LoopPc) : MainLoop := { s with pc := pc }

/-- The main thread is done with a descriptor. -/
def finish (fd : ℕ) (fate : Fate) : MainLoop :=
  { s with pc := .test, done := s.done ++ [(fd, fate)] }

/-- `setReloadFlag` -/
def setReloadFlag : MainLoop := { s with reload := true, hups := s.hups + 1 }

/-- `onQuit` -/
def onQuit : MainLoop := { s with quit := true }

/-- `accept` returns. -/
def accepts (r : Accept) : MainLoop :=
  { s with pc := .switch r, accepted := s.accepted ++ r.fd?.toList }

/-- The next statement of the main thread.  The result of `pthread_create` is not
    looked at: if it fails, the client stays in the table, and its descriptor open. -/
def mainStep (ok : Bool) : Option MainLoop :=
  match s.pc with
  | .test => some (s.goto (if s.quit then .out else .accept))
  | .accept => none
  | .switch r =>
    some { s with pc := .quitTest r.fd?, quit := if r = .error then true else s.quit }
  | .quitTest fd => some (s.goto (if s.quit then .out else .reloadTest fd))
  | .reloadTest fd => some (s.goto (if s.reload then .block else .handle fd))
  | .block => some (s.goto .abort)
  | .abort => some (s.goto .free)
  | .free => some (s.goto .load)
  | .load => some { s with pc := .loading, began := s.hups }
  | .loading => some (if ok then { s with pc := .unblock, served := s.began } else s.goto .exited)
  | .unblock => some (s.goto .clear)
  | .clear => some { s with pc := .test, reload := false }
  | .handle none => some (s.goto .test)
  | .handle (some fd) => some (s.goto (.append fd))
  | .append fd =>
    some (if s.count = MAX_CLIENTS then s.goto (.full fd)
      else { s with pc := .create fd, count := s.count + 1 })
  | .full fd => some (s.goto (if ok then .append fd else .reply fd))
  | .reply fd => some (s.goto (.close fd))
  | .close fd => some (s.finish fd .refused)
  | .create fd =>
    some (if ok then s.finish fd .handed else { s with pc := .test, stray := s.stray + 1 })
  | .out | .exited => none

def step : Turn → Option MainLoop
  | .main ok => s.mainStep ok
  | .accept r => if s.pc = .accept then some (s.accepts r) else none
  | .sighup => some s.setReloadFlag
  | .sigterm => some s.onQuit
  | .leave => if s.stray < s.count then some { s with count := s.count - 1 } else none

/-! ## Descriptors in hand, and requests in the flag -/

/-- Every descriptor that `accept` has returned is in hand, or has been dealt
    with once. -/
def Accounted : Prop := s.accepted = s.done.map Prod.fst ++ s.pc.inHand.toList

/-- The reload branch is entered with a descriptor in hand, or no thread can be
    created for one. -/
def Drops : Turn → Prop
  | .main ok => s.quit = false ∧ ((s.reload = true ∧ ∃ fd, s.pc = .reloadTest (some fd)) ∨
      ok = false ∧ ∃ fd, s.pc = .create fd)
  | _ => False

/-- Every SIGHUP is in the flag, or has been followed by a whole `loadTpConfig`. -/
def Noted : Prop := s.reload = true ∨ s.served = s.hups

/-- The flag is cleared after a SIGHUP that has come since `loadTpConfig` began. -/
def Forgets : Turn → Prop
  | .main _ => s.pc = .clear ∧ s.began < s.hups
  | _ => False

instance : ∀ a, Decidable (s.Forgets a)
  | .main _ => inferInstanceAs (Decidable (_ ∧ _))
  | .accept _ | .sighup | .sigterm | .leave => inferInstanceAs (Decidable False)

end

/-! ## Descriptors -/

section
variable {s t : MainLoop} {a : Turn} {p : List (MainLoop × Turn)}

theorem accounted_congr (hS : s.Accounted) (ha : t.accepted = s.accepted) (hd : t.done = s.done)
    (hh : t.pc.inHand = s.pc.inHand) : t.Accounted := by
  unfold Accounted at *
  rw [ha, hd, hh, hS]

theorem accounted_finish {fd : ℕ} (fate : Fate) (hS : s.Accounted) (hh : s.pc.inHand = some fd) :
    (s.finish fd fate).Accounted := by
  unfold Accounted at *
  rw [hh] at hS
  simp [finish, hS, LoopPc.inHand]

/-- What the next statement leaves as it is: `quit` is never cleared, and
    `reload` only at the end of a reload. -/
theorem main_frame {ok : Bool} (h : s.mainStep ok = some t) :
    t.accepted = s.accepted ∧ t.hups = s.hups ∧ (s.quit = true → t.quit = true) ∧
      (s.pc ≠ .clear → t.reload = s.reload) := by
  unfold mainStep at h
  cases hpc : s.pc with
  | accept | out | exited => simp [hpc] at h
  | clear =>
    simp only [hpc] at h
    obtain rfl := Option.some.inj h
    exact ⟨rfl, rfl, id, fun h => absurd rfl h⟩
  | switch r =>
    simp only [hpc] at h
    obtain rfl := Option.some.inj h
    refine ⟨rfl, rfl, fun hq => ?_, fun _ => rfl⟩
    dsimp only
    split
    · rfl
    · exact hq
  | loading | append fd | create fd =>
    simp only [hpc] at h
    obtain rfl := Option.some.inj h
    split <;> exact ⟨rfl, rfl, id, fun _ => rfl⟩
  | handle fd =>
    cases fd with
    | none | some fd =>
      simp only [hpc] at h
      obtain rfl := Option.some.inj h
      exact ⟨rfl, rfl, id, fun _ => rfl⟩
  | _ =>
    simp only [hpc] at h
    obtain rfl := Option.some.inj h
    exact ⟨rfl, rfl, id, fun _ => rfl⟩

/-- Going from one statement to another, with the same descriptor in hand. -/
theorem accounted_goto {pc : LoopPc} (hS : s.Accounted) (hh : pc.inHand = s.pc.inHand) :
    (s.goto pc).Accounted := accounted_congr hS rfl rfl hh

/-- The main thread keeps its descriptor or is done with it, unless it quits or
    drops it. -/
theorem accounted_main {ok : Bool} (hS : s.Accounted) (hD : ¬ s.Drops (.main ok))
    (h : s.mainStep ok = some t) : t.quit = true ∨ t.Accounted := by
  unfold mainStep at h
  cases hpc : s.pc with
  | accept | out | exited => simp [hpc] at h
  | test =>
    simp only [hpc] at h
    obtain rfl := Option.some.inj h
    refine Or.inr (accounted_goto hS ?_)
    rw [hpc]
    split <;> rfl
  | switch r =>
    simp only [hpc] at h
    obtain rfl := Option.some.inj h
    exact Or.inr (accounted_congr hS rfl rfl (by rw [hpc]; rfl))
  | quitTest fd =>
    simp only [hpc] at h
    obtain rfl := Option.some.inj h
    cases hq : s.quit with
    | true => exact Or.inl hq
    | false => exact Or.inr (accounted_goto hS (by rw [hpc]; rfl))
  | reloadTest fd =>
    simp only [hpc] at h
    obtain rfl := Option.some.inj h
    cases hq : s.quit with
    | true => exact Or.inl hq
    | false =>
      refine Or.inr (accounted_goto hS ?_)
      rw [hpc]
      cases hr : s.reload with
      | false => rfl
      | true =>
        cases fd with
        | none => rfl
        | some fd => exact absurd ⟨hq, Or.inl ⟨hr, fd, hpc⟩⟩ hD
  | block | abort | free | unblock =>
    simp only [hpc] at h
    obtain rfl := Option.some.inj h
    exact Or.inr (accounted_goto hS (by rw [hpc]; rfl))
  | load | clear =>
    simp only [hpc] at h
    obtain rfl := Option.some.inj h
    exact Or.inr (accounted_congr hS rfl rfl (by rw [hpc]; rfl))
  | loading =>
    simp only [hpc] at h
    obtain rfl := Option.some.inj h
    cases ok with
    | true => exact Or.inr (accounted_congr hS rfl rfl (by rw [hpc]; rfl))
    | false => exact Or.inr (accounted_goto hS (by rw [hpc]; rfl))
  | handle fd =>
    cases fd with
    | none | some fd =>
      simp only [hpc] at h
      obtain rfl := Option.some.inj h
      exact Or.inr (accounted_goto hS (by rw [hpc]; rfl))
  | append fd =>
    simp only [hpc] at h
    obtain rfl := Option.some.inj h
    split
    · exact Or.inr (accounted_goto hS (by rw [hpc]; rfl))
    · exact Or.inr (accounted_congr hS rfl rfl (by rw [hpc]; rfl))
  | full fd =>
    simp only [hpc] at h
    obtain rfl := Option.some.inj h
    refine Or.inr (accounted_goto hS ?_)
    rw [hpc]
    cases ok <;> rfl
  | reply fd =>
    simp only [hpc] at h
    obtain rfl := Option.some.inj h
    exact Or.inr (accounted_goto hS (by rw [hpc]; rfl))
  | close fd =>
    simp only [hpc] at h
    obtain rfl := Option.some.inj h
    exact Or.inr (accounted_finish _ hS (by rw [hpc]; rfl))
  | create fd =>
    simp only [hpc] at h
    obtain rfl := Option.some.inj h
    cases ok with
    | true => exact Or.inr (accounted_finish _ hS (by rw [hpc]; rfl))
    | false =>
      by_cases hq : s.quit = true
      · exact Or.inl hq
      · exact absurd ⟨by simpa using hq, Or.inr ⟨rfl, fd, hpc⟩⟩ hD

theorem accounted_step (hS : s.quit = true ∨ s.Accounted) (hD : ¬ s.Drops a)
    (h : s.step a = some t) : t.quit = true ∨ t.Accounted := by
  cases a with
  | main ok =>
    rcases hS with hq | hS
    · exact Or.inl ((main_frame h).2.2.1 hq)
    · exact accounted_main hS hD h
  | accept r =>
    simp only [step] at h
    split at h
    · rename_i hpc
      obtain rfl := Option.some.inj h
      refine hS.imp id fun hS => ?_
      unfold Accounted at *
      rw [hpc] at hS
      simp [accepts, hS, LoopPc.inHand]
    · cases h
  | sighup =>
    obtain rfl := Option.some.inj h
    exact hS.imp id fun hS => accounted_congr hS rfl rfl rfl
  | sigterm =>
    obtain rfl := Option.some.inj h
    exact Or.inl rfl
  | leave =>
    simp only [step] at h
    split at h
    · obtain rfl := Option.some.inj h
      exact hS.imp id fun hS => accounted_congr hS rfl rfl rfl
    · cases h

theorem unaccounted_of_drops (hS : s.Accounted) (hD : s.Drops a) (h : s.step a = some t) :
    t.quit = false ∧ ¬ t.Accounted := by
  cases a with
  | main ok =>
    -- in both cases the descriptor is in no hand any more
    have hlost : ∀ fd u, s.pc.inHand = some fd → u.accepted = s.accepted → u.done = s.done →
        u.pc.inHand = none → ¬ Accounted u := by
      intro fd u hh ha hd hu hA
      unfold Accounted at hS hA
      rw [ha, hS, hd, hh, hu] at hA
      simp at hA
    obtain ⟨hq, ⟨hr, fd, hpc⟩ | ⟨rfl, fd, hpc⟩⟩ := hD
    · simp only [step, mainStep, hpc, hr, if_true] at h
      obtain rfl := Option.some.inj h
      exact ⟨hq, hlost fd _ (by rw [hpc]; rfl) rfl rfl rfl⟩
    · simp only [step, mainStep, hpc] at h
      obtain rfl := Option.some.inj h
      exact ⟨hq, hlost fd _ (by rw [hpc]; rfl) rfl rfl rfl⟩
  | _ => exact hD.elim

/-- **No descriptor is dropped** while `quit` is 0 iff the reload branch is
    never entered with a descriptor in hand, and no `pthread_create` fails. -/
theorem accepted_iff (h : Runs.Path step init p s) :
    (∀ t ∈ Runs.visited p s, t.quit = false → t.Accounted) ↔ ∀ x ∈ p, ¬ Drops x.1 x.2 := by
  refine h.visited_iff (J := fun s => s.quit = true ∨ s.Accounted) (C := fun s a => ¬ s.Drops a)
    (Or.inr rfl) ?_ ?_ ?_
  · intro s _ hS hq
    rcases hS with hq' | hS
    · cases hq.symm.trans hq'
    · exact hS
  · intro s a t _ hS hD hst
    exact accounted_step hS hD hst
  · intro s a t _ hS hD hst hG
    have hdrop := Classical.not_not.1 hD
    have hq : s.quit = false := by
      cases a with
      | main ok => exact hdrop.1
      | _ => exact hdrop.elim
    have hA : s.Accounted := hS.resolve_left (by simp [hq])
    obtain ⟨hq', hno⟩ := unaccounted_of_drops hA hdrop hst
    exact hno (hG hq')

/-! ## The flag `reload` -/

/-- The counts of SIGHUPs are in order, and none is lost. -/
structure Flagged (s : MainLoop) : Prop where
  order : s.served ≤ s.began ∧ s.began ≤ s.hups
  loaded : s.pc = .unblock ∨ s.pc = .clear → s.served = s.began
  noted : s.Noted

theorem flagged_congr (hS : s.Flagged) (hr : t.reload = s.reload) (hh : t.hups = s.hups)
    (hb : t.began = s.began) (hs : t.served = s.served)
    (hpc : t.pc = .unblock ∨ t.pc = .clear → s.pc = .unblock ∨ s.pc = .clear) : t.Flagged where
  order := by rw [hs, hb, hh]; exact hS.order
  loaded h := by rw [hs, hb]; exact hS.loaded (hpc h)
  noted := by unfold Noted; rw [hr, hs, hh]; exact hS.noted

theorem flagged_main {ok : Bool} (hS : s.Flagged) (hF : ¬ s.Forgets (.main ok))
    (h : s.mainStep ok = some t) : t.Flagged := by
  unfold mainStep at h
  cases hpc : s.pc with
  | accept | out | exited => simp [hpc] at h
  | load =>
    simp only [hpc] at h
    obtain rfl := Option.some.inj h
    obtain ⟨⟨h₁, h₂⟩, -, hn⟩ := hS
    exact ⟨⟨Nat.le_trans h₁ h₂, Nat.le_refl _⟩, fun h => by simp at h, hn⟩
  | loading =>
    simp only [hpc] at h
    obtain rfl := Option.some.inj h
    cases ok with
    | false => exact flagged_congr hS rfl rfl rfl rfl fun h => by simp [goto] at h
    | true =>
      obtain ⟨⟨h₁, h₂⟩, -, hn⟩ := hS
      refine ⟨⟨Nat.le_refl _, h₂⟩, fun _ => rfl, hn.imp id fun hn => ?_⟩
      exact Nat.le_antisymm h₂ (hn ▸ h₁)
  | clear =>
    simp only [hpc] at h
    obtain rfl := Option.some.inj h
    have hserved := hS.loaded (Or.inr hpc)
    obtain ⟨⟨h₁, h₂⟩, -, -⟩ := hS
    have hall : s.hups ≤ s.began := Nat.not_lt.1 fun hlt => hF ⟨hpc, hlt⟩
    exact ⟨⟨h₁, h₂⟩, fun _ => hserved, Or.inr (hserved.trans (Nat.le_antisymm h₂ hall))⟩
  | unblock =>
    simp only [hpc] at h
    obtain rfl := Option.some.inj h
    exact flagged_congr hS rfl rfl rfl rfl fun _ => Or.inl hpc
  | test | quitTest fd | reloadTest fd | append fd | full fd | create fd =>
    simp only [hpc] at h
    obtain rfl := Option.some.inj h
    split <;> exact flagged_congr hS rfl rfl rfl rfl fun h => by simp [goto, finish] at h
  | handle fd =>
    cases fd with
    | none | some fd =>
      simp only [hpc] at h
      obtain rfl := Option.some.inj h
      exact flagged_congr hS rfl rfl rfl rfl fun h => by simp [goto] at h
  | _ =>
    simp only [hpc] at h
    obtain rfl := Option.some.inj h
    exact flagged_congr hS rfl rfl rfl rfl fun h => by simp [goto, finish] at h

theorem flagged_step (hS : s.Flagged) (hF : ¬ s.Forgets a) (h : s.step a = some t) :
    t.Flagged := by
  cases a with
  | main ok => exact flagged_main hS hF h
  | accept r =>
    simp only [step] at h
    split at h
    · obtain rfl := Option.some.inj h
      exact flagged_congr hS rfl rfl rfl rfl fun h => by simp [accepts] at h
    · cases h
  | sighup =>
    obtain rfl := Option.some.inj h
    exact ⟨⟨hS.order.1, Nat.le_succ_of_le hS.order.2⟩, hS.loaded, Or.inl rfl⟩
  | sigterm =>
    obtain rfl := Option.some.inj h
    exact flagged_congr hS rfl rfl rfl rfl id
  | leave =>
    simp only [step] at h
    split at h
    · obtain rfl := Option.some.inj h
      exact flagged_congr hS rfl rfl rfl rfl id
    · cases h

theorem unnoted_of_forgets (hS : s.Flagged) (hF : s.Forgets a) (h : s.step a = some t) :
    ¬ t.Noted := by
  cases a with
  | main ok =>
    obtain ⟨hpc, hlt⟩ := hF
    simp only [step, mainStep, hpc] at h
    obtain rfl := Option.some.inj h
    have hserved := hS.loaded (Or.inr hpc)
    rintro (hr | hn)
    · cases hr
    · dsimp only at hn
      omega
  | _ => exact hF.elim

/-- **No reload request is lost** iff the flag is never cleared after a SIGHUP
    that has come since `loadTpConfig` began. -/
theorem reload_iff (h : Runs.Path step init p s) :
    (∀ t ∈ Runs.visited p s, t.Noted) ↔ ∀ x ∈ p, ¬ Forgets x.1 x.2 := by
  refine h.visited_iff (J := Flagged) (C := fun s a => ¬ s.Forgets a) ?_ (fun _ _ hS => hS.noted) ?_ ?_
  · exact ⟨⟨Nat.le_refl _, Nat.le_refl _⟩, fun _ => rfl, Or.inr rfl⟩
  · intro s a t _ hS hF hst
    exact flagged_step hS hF hst
  · intro s a t _ hS hF hst
    exact unnoted_of_forgets hS (Classical.not_not.1 hF) hst

end

/-! ## Runs -/

/-- Two connections, and between them a SIGHUP that interrupts `accept`. -/
def hupBetween : List Turn :=
  [.main true, .accept (.fd 5)] ++ List.replicate 7 (.main true) ++ [.sighup, .accept .eintr] ++
    List.replicate 11 (.main true) ++ .accept (.fd 6) :: List.replicate 6 (.main true)

/-- Both are handed to a thread. -/
theorem accepted_iff_two : ∃ p s, Runs.Path step init p s ∧ p.map Prod.snd = hupBetween ∧
    s.pc = .test ∧ s.served = 1 ∧ s.accepted = [5, 6] ∧ s.done = [(5, .handed), (6, .handed)] ∧
    ∀ t ∈ Runs.visited p s, t.quit = false → t.Accounted := by
  have h : Runs.exec step init hupBetween =
      some ⟨.test, false, false, 2, 0, [5, 6], [(5, .handed), (6, .handed)], 1, 1, 1⟩ := rfl
  have hfree : ∀ x ∈ Runs.trace step init hupBetween,
      (x.1.reload = true → x.1.pc.inHand = none) ∧ x.2 ≠ .main false := by decide +kernel
  refine ⟨_, _, Runs.Path.trace h, by decide +kernel, rfl, rfl, rfl, rfl,
    (accepted_iff (Runs.Path.trace h)).2 ?_⟩
  rintro ⟨s, a⟩ hx
  obtain ⟨hhand, ha⟩ := hfree _ hx
  cases a with
  | main ok =>
    rintro ⟨-, ⟨hr, fd, hpc⟩ | ⟨rfl, -⟩⟩
    · have hnone := hhand hr
      rw [hpc] at hnone
      cases hnone
    · exact ha rfl
  | _ => exact id

/-- A SIGHUP comes before `accept`, and a client takes the main thread out of it. -/
def hupFirst : List Turn :=
  [.sighup, .main true, .accept (.fd 5), .main true, .main true, .main true]

/-- **A client that comes with a reload** is neither handed to a thread nor
    answered, and the loop goes on. -/
theorem client_dropped : ∃ s, Runs.Reach step init s ∧ s.pc = .accept ∧ s.quit = false ∧
    5 ∈ s.accepted ∧ s.done = [] ∧ ¬ s.Accounted := by
  have h : Runs.exec step init (hupFirst ++ List.replicate 8 (.main true)) =
      some { init with pc := .accept, accepted := [5], hups := 1, began := 1, served := 1 } := rfl
  refine ⟨_, Runs.Reach.refl.of_exec h, rfl, rfl, List.mem_singleton_self 5, rfl, ?_⟩
  unfold Accounted
  decide

/-- A SIGHUP takes the main thread out of `accept`, and the file is read. -/
def hupRead : List Turn :=
  [.main true, .sighup, .accept .eintr] ++ List.replicate 8 (.main true)

/-- One SIGHUP, served by one reload. -/
theorem reload_iff_one : ∃ p s, Runs.Path step init p s ∧ s.pc = .test ∧ s.served = 1 ∧
    ∀ t ∈ Runs.visited p s, t.Noted := by
  have h : Runs.exec step init (hupRead ++ [.main true, .main true]) =
      some { init with pc := .test, hups := 1, began := 1, served := 1 } := rfl
  exact ⟨_, _, Runs.Path.trace h, rfl, rfl, (reload_iff (Runs.Path.trace h)).2 (by decide)⟩

/-- **A SIGHUP that comes when the file has been read** is cleared with the
    first one. -/
theorem hup_lost : ∃ s, Runs.Reach step init s ∧ s.pc = .test ∧ s.reload = false ∧
    s.hups = 2 ∧ s.served = 1 ∧ ¬ s.Noted := by
  have h : Runs.exec step init (hupRead ++ [.sighup, .main true, .main true]) =
      some { init with pc := .test, hups := 2, began := 1, served := 1 } := rfl
  refine ⟨_, Runs.Reach.refl.of_exec h, rfl, rfl, rfl, rfl, ?_⟩
  unfold Noted
  decide

end MainLoop

end SmtpProxy
