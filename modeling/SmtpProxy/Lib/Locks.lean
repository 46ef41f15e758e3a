/-
  Functions as what they do with mutexes, and the order of the mutexes.

  A function is written as its calls of the lock primitives and its control flow
  (`Stmt`); what it decides by its data is a choice, so that every run of the code is
  one of the function.  Threads run such functions, fork new ones, sleep on a
  condition, are cancelled and end (`step`).  Each mutex has a rank.

  * `wp`: what must hold of the mutexes a thread has for a statement to lock them by
    rising rank, unlock what it has, use only what they guard, sleep with no other
    one, and end with none;
  * `Leads`, `Keeps`: a function as a whole; `wp_call`, `keeps_section`: its calls and
    its critical sections; `Plain`: a function that only calls others;
  * `State.Interrupts`: a cancellation acts on a thread that has a mutex, and takes it
    along; `State.Inv`: while there is none, every thread has all this before it;
  * `State.Inv.chain`: who waits for a mutex waits in the end for a thread that can
    go on.
-/
import Mathlib.Logic.Function.Basic
import Mathlib.Logic.Relation
import Mathlib.Order.BooleanAlgebra.Set
import SmtpProxy.Lib.Runs

namespace Locks

/-- The statements of a function. -/
inductive Stmt (μ : Type*) where
  | act  -- anything else, for as long as it takes
  | lock (m : μ)
  | unlock (m : μ)
  | wait (m : μ)  -- `pthread_cond_wait` or `pthread_cond_timedwait` with `m`
  | await  -- waits for another thread, without a mutex
  | use (m : μ)  -- reads or writes what `m` guards
  | seq (s t : Stmt μ)
  | choose (s t : Stmt μ)  -- `if`, decided by the data
  | any (f : ℕ → Stmt μ)  -- for some object, which one is decided by the data
  | loop (s : Stmt μ)  -- any number of times
  | forever (s : Stmt μ)
  | call (f s t : Stmt μ)  -- `if (f()) s else t`
  | ret (b : Bool)  -- `return`, with something or with 0
  | fork (s : Stmt μ)
  | cancel (s : Stmt μ)  -- where a cancellation can act, with the handlers pushed
  | exit  -- the thread ends
  | halt  -- the process ends

namespace Stmt
variable {μ : Type*}

/-- One after the other. -/
def block (l : List (Stmt μ)) : Stmt μ := l.foldr seq act

/-- A call whose result is not used. -/
def run (f : Stmt μ) : Stmt μ := .call f .act .act

end Stmt

/-- Where the caller of a function goes on. -/
structure Frame (μ : Type*) where
  yes : Stmt μ
  no : Stmt μ
  rest : List (Stmt μ)

/-- A thread: what is left of the function it is in, and its callers. -/
inductive Thread (μ : Type*) where
  | run (k : List (Stmt μ)) (fs : List (Frame μ))
  | asleep (m : μ) (k : List (Stmt μ)) (fs : List (Frame μ))

/-- A thread that has ended, sleeps, or waits for another. -/
def Thread.idle {μ : Type*} : Thread μ → Bool
  | .run [] [] | .run (.await :: _) _ | .asleep _ _ _ => true
  | _ => false

structure State (μ : Type*) where
  owner : μ → Option ℕ
  threads : List (Thread μ)
  ended : Bool

/-- A thread goes on, with a choice; one that sleeps is woken, by a signal, its
    timeout or nothing. -/
inductive Act where
  | go (i c : ℕ)
  | wake (i : ℕ)

namespace State
variable {μ : Type*}

/-- The process as it starts. -/
def start (s : Stmt μ) : State μ := ⟨fun _ => none, [.run [s] []], false⟩

def goto (s : State μ) (i : ℕ) (k : List (Stmt μ)) (fs : List (Frame μ)) : State μ :=
  { s with threads := s.threads.set i (.run k fs) }

/-- The mutexes of a thread. -/
def held (s : State μ) (i : ℕ) : Set μ := {m | s.owner m = some i}

/-- A function returns. -/
def leave (s : State μ) (i : ℕ) (b : Bool) : List (Frame μ) → State μ
  | [] => s.goto i [] []
  | f :: fs => s.goto i ((if b then f.yes else f.no) :: f.rest) fs

section
variable [DecidableEq μ] (s : State μ)

/-- A statement; to unlock or to wait with a mutex that is not one's own is not defined. -/
def goStep (i c : ℕ) (k : List (Stmt μ)) (fs : List (Frame μ)) : Stmt μ → Option (State μ)
  | .act | .await | .use _ => some (s.goto i k fs)
  | .lock m =>
    if s.owner m = none then
      some ({ s with owner := Function.update s.owner m (some i) }.goto i k fs)
    else none
  | .unlock m =>
    if s.owner m = some i then
      some ({ s with owner := Function.update s.owner m none }.goto i k fs)
    else none
  | .wait m =>
    if s.owner m = some i then
      some { s with
        owner := Function.update s.owner m none
        threads := s.threads.set i (.asleep m k fs) }
    else none
  | .seq a b => some (s.goto i (a :: b :: k) fs)
  | .choose a b => some (s.goto i ((if c = 0 then a else b) :: k) fs)
  | .any f => some (s.goto i (f c :: k) fs)
  | .loop a => some (s.goto i (if c = 0 then k else a :: .loop a :: k) fs)
  | .forever a => some (s.goto i (a :: .forever a :: k) fs)
  | .call f a b => some (s.goto i [f] (⟨a, b, k⟩ :: fs))
  | .ret b => some (s.leave i b fs)
  | .fork a =>
    let u := s.goto i k fs
    some { u with threads := u.threads ++ [.run [a] []] }
  | .cancel a => some (if c = 0 then s.goto i k fs else s.goto i [a] [])
  | .exit => some (s.goto i [] [])
  | .halt => some { s with ended := true }

/-- A thread goes on. -/
def threadStep (i c : ℕ) : Thread μ → Option (State μ)
  | .run [] [] => none
  | .run [] (f :: fs) => some (s.leave i true (f :: fs))
  | .run (p :: k) fs => s.goStep i c k fs p
  | .asleep _ _ _ => none

/-- A thread is woken: it has to have its mutex again. -/
def wakeStep (i : ℕ) : Thread μ → Option (State μ)
  | .asleep m k fs => some (s.goto i (.lock m :: k) fs)
  | .run _ _ => none

/-- One step. -/
def step : Act → Option (State μ)
  | .go i c => if s.ended then none else s.threads[i]?.bind (s.threadStep i c)
  | .wake i => if s.ended then none else s.threads[i]?.bind (s.wakeStep i)

end

/-- `i` waits for a mutex of `j`. -/
def Waits (s : State μ) (i j : ℕ) : Prop :=
  ∃ m k fs, s.threads[i]? = some (.run (.lock m :: k) fs) ∧ s.owner m = some j

/-- `i` can go on, whatever it decides. -/
def Goes [DecidableEq μ] (s : State μ) (i : ℕ) : Prop := ∀ c, s.step (.go i c) ≠ none

/-- A cancellation acts on a thread that has a mutex. -/
def Interrupts (s : State μ) : Act → Prop
  | .go i c => c ≠ 0 ∧ (∃ a k fs, s.threads[i]? = some (.run (.cancel a :: k) fs)) ∧ ∃ m, s.owner m = some i
  | .wake _ => False

end State

/-! ## The rules -/

section
variable {μ : Type*} (rank : μ → ℕ)

/-- A thread with the mutexes `H` can run a statement, and has `Q` after it, or `R` where
    it returns. -/
def wp : Stmt μ → Set μ → (Set μ → Prop) → (Bool → Set μ → Prop) → Prop
  | .act, H, Q, _ => Q H
  | .lock m, H, Q, _ => (∀ x ∈ H, rank x < rank m) ∧ Q (insert m H)
  | .unlock m, H, Q, _ => m ∈ H ∧ Q (H \ {m})
  | .wait m, H, Q, _ => H = {m} ∧ Q H
  | .await, H, Q, _ => H = ∅ ∧ Q H
  | .use m, H, Q, _ => m ∈ H ∧ Q H
  | .seq s t, H, Q, R => wp s H (fun H => wp t H Q R) R
  | .choose s t, H, Q, R => wp s H Q R ∧ wp t H Q R
  | .any f, H, Q, R => ∀ n, wp (f n) H Q R
  | .loop s, H, Q, R => wp s H (· = H) R ∧ Q H
  | .forever s, H, _, R => wp s H (· = H) R
  | .call f s t, H, Q, R =>
    wp f H (fun H => wp s H Q R) fun b H => if b then wp s H Q R else wp t H Q R
  | .ret b, H, _, R => R b H
  | .fork s, H, Q, _ | .cancel s, H, Q, _ => wp s ∅ (· = ∅) (fun _ H => H = ∅) ∧ Q H
  | .exit, H, _, _ => H = ∅
  | .halt, _, _, _ => True

/-- A function takes a thread with the mutexes `H` to `H'`. -/
def Leads (f : Stmt μ) (H H' : Set μ) : Prop := wp rank f H (· = H') fun _ h => h = H'

/-- The statements that are left. -/
def wps : List (Stmt μ) → Set μ → (Set μ → Prop) → (Bool → Set μ → Prop) → Prop
  | [], H, Q, _ => Q H
  | s :: k, H, Q, R => wp rank s H (fun H => wps k H Q R) R

/-- And the callers. -/
def back : List (Frame μ) → Bool → Set μ → Prop
  | [], _, H => H = ∅
  | f :: fs, b, H => wps rank ((if b then f.yes else f.no) :: f.rest) H (back fs true) (back fs)

def Rest (k : List (Stmt μ)) (fs : List (Frame μ)) (H : Set μ) : Prop :=
  wps rank k H (back rank fs true) (back rank fs)

def Thread.Safe (H : Set μ) : Thread μ → Prop
  | .run k fs => Rest rank k fs H
  | .asleep m k fs => H = ∅ ∧ Rest rank k fs {m}

variable {rank} {s t f : Stmt μ} {m : μ} {H H' : Set μ} {Q Q' : Set μ → Prop}
  {R R' : Bool → Set μ → Prop} {k : List (Stmt μ)} {fs : List (Frame μ)}

theorem wp_mono (h : wp rank s H Q R) (hQ : ∀ H, Q H → Q' H) (hR : ∀ b H, R b H → R' b H) :
    wp rank s H Q' R' := by
  induction s generalizing H Q Q' R R' with
  | act => exact hQ H h
  | lock m => exact ⟨h.1, hQ _ h.2⟩
  | unlock m => exact ⟨h.1, hQ _ h.2⟩
  | wait m => exact ⟨h.1, hQ _ h.2⟩
  | await => exact ⟨h.1, hQ _ h.2⟩
  | use m => exact ⟨h.1, hQ _ h.2⟩
  | seq s t ihs iht => exact ihs h (fun H hH => iht hH hQ hR) hR
  | choose s t ihs iht => exact ⟨ihs h.1 hQ hR, iht h.2 hQ hR⟩
  | any f ih => exact fun n => ih n (h n) hQ hR
  | loop s ih => exact ⟨ih h.1 (fun _ hH => hH) hR, hQ _ h.2⟩
  | forever s ih => exact ih h (fun _ hH => hH) hR
  | call f s t ihf ihs iht =>
    refine ihf h (fun H hH => ihs hH hQ hR) fun b H hH => ?_
    cases b with
    | true => exact ihs hH hQ hR
    | false => exact iht hH hQ hR
  | ret b => exact hR b H h
  | fork s ih => exact ⟨h.1, hQ _ h.2⟩
  | cancel s ih => exact ⟨h.1, hQ _ h.2⟩
  | exit => exact h
  | halt => trivial

/-- **A call.** -/
theorem wp_call (hf : Leads rank f H H') (hs : wp rank s H' Q R) (ht : wp rank t H' Q R) :
    wp rank (.call f s t) H Q R := by
  refine wp_mono (s := f) hf ?_ ?_
  · rintro _ rfl
    exact hs
  · rintro b _ rfl
    cases b with
    | true => exact hs
    | false => exact ht

theorem wp_run (hf : Leads rank f H H') (hQ : Q H') : wp rank (.run f) H Q R := wp_call hf hQ hQ

@[simp] theorem wp_act : wp rank .act H Q R ↔ Q H := Iff.rfl

@[simp] theorem wp_block_nil : wp rank (.block []) H Q R ↔ Q H := Iff.rfl

@[simp] theorem wp_block_cons {l : List (Stmt μ)} :
    wp rank (.block (s :: l)) H Q R ↔ wp rank s H (fun H => wp rank (.block l) H Q R) R := Iff.rfl

theorem wp_block_append {l r : List (Stmt μ)} : wp rank (.block (l ++ r)) H Q R ↔
    wp rank (.block l) H (fun H => wp rank (.block r) H Q R) R := by
  induction l generalizing H with
  | nil => rfl
  | cons s l ih =>
    refine ⟨fun h => wp_mono (s := s) h (fun H hH => ih.1 hH) fun _ _ h => h, fun h => ?_⟩
    exact wp_mono (s := s) h (fun H hH => ih.2 hH) fun _ _ h => h

@[simp] theorem wp_choose : wp rank (.choose s t) H Q R ↔ wp rank s H Q R ∧ wp rank t H Q R := Iff.rfl

@[simp] theorem wp_loop : wp rank (.loop s) H Q R ↔ wp rank s H (· = H) R ∧ Q H := Iff.rfl

@[simp] theorem wp_forever : wp rank (.forever s) H Q R ↔ wp rank s H (· = H) R := Iff.rfl

@[simp] theorem wp_ret {b : Bool} : wp rank (.ret b) H Q R ↔ R b H := Iff.rfl

@[simp] theorem wp_exit : wp rank .exit H Q R ↔ H = ∅ := Iff.rfl

@[simp] theorem wp_lock_empty : wp rank (.lock m) ∅ Q R ↔ Q {m} := by
  rw [← insert_empty_eq]
  exact and_iff_right fun _ hx => hx.elim

@[simp] theorem wp_unlock_single : wp rank (.unlock m) {m} Q R ↔ Q ∅ := by
  rw [← Set.sdiff_self]
  exact and_iff_right (Set.mem_singleton m)

theorem wp_unlock_insert (hm : ∀ x ∈ H, rank x < rank m) (hQ : Q H) :
    wp rank (.unlock m) (insert m H) Q R := by
  have hnot : m ∉ H := fun h => Nat.lt_irrefl _ (hm m h)
  refine ⟨Set.mem_insert m H, ?_⟩
  rwa [Set.insert_sdiff_self_of_notMem hnot]

@[simp] theorem wp_use_single : wp rank (.use m) {m} Q R ↔ Q {m} := and_iff_right (Set.mem_singleton m)

@[simp] theorem wp_wait_single : wp rank (.wait m) {m} Q R ↔ Q {m} := and_iff_right rfl

/-- A statement that gives back what it takes, whether it comes to its end or returns. -/
def Keeps (rank : μ → ℕ) (H : Set μ) (s : Stmt μ) : Prop := Leads rank s H H

theorem Keeps.wp (h : Keeps rank H s) (hQ : Q H) (hR : ∀ b, R b H) : Locks.wp rank s H Q R := by
  refine wp_mono h ?_ ?_
  · rintro _ rfl
    exact hQ
  · rintro b _ rfl
    exact hR b

theorem Keeps.seq (hs : Keeps rank H s) (ht : Keeps rank H t) : Keeps rank H (.seq s t) :=
  hs.wp ht fun _ => rfl

theorem keeps_act : Keeps rank H .act := rfl

theorem Keeps.forever (hs : Keeps rank H s) : Keeps rank H (.forever s) := hs

theorem Keeps.choose (hs : Keeps rank H s) (ht : Keeps rank H t) : Keeps rank H (.choose s t) := ⟨hs, ht⟩

theorem Keeps.call (hf : Keeps rank H f) (hs : Keeps rank H s) (ht : Keeps rank H t) :
    Keeps rank H (.call f s t) := wp_call hf hs ht

variable (rank) in
/-- The statement locks nothing itself, and the functions it calls keep `H`; without
    `r` it does not return. -/
def Plain (r : Bool) (H : Set μ) : Stmt μ → Prop
  | .act | .halt => True
  | .ret _ => r = true
  | .seq s t | .choose s t => Plain r H s ∧ Plain r H t
  | .any f => ∀ n, Plain r H (f n)
  | .loop s | .forever s => Plain r H s
  | .call f s t => Keeps rank H f ∧ Plain r H s ∧ Plain r H t
  | .fork s | .cancel s => Keeps rank ∅ s
  | s => Keeps rank H s

variable {r : Bool}

@[simp] theorem plain_block {l : List (Stmt μ)} :
    Plain rank r H (.block l) ↔ ∀ s ∈ l, Plain rank r H s := by
  induction l with
  | nil => simp [Stmt.block, Plain]
  | cons s l ih =>
    rw [List.forall_mem_cons, ← ih]
    rfl

@[simp] theorem plain_run : Plain rank r H (.run f) ↔ Keeps rank H f := by simp [Stmt.run, Plain]

@[simp] theorem keeps_cancel : Keeps rank H (.cancel s) ↔ Keeps rank ∅ s := and_iff_left rfl

@[simp] theorem keeps_exit : Keeps rank H .exit ↔ H = ∅ := Iff.rfl

@[simp] theorem keeps_await : Keeps rank H .await ↔ H = ∅ := and_iff_left rfl

@[simp] theorem keeps_wait : Keeps rank H (.wait m) ↔ H = {m} := and_iff_left rfl

@[simp] theorem keeps_use : Keeps rank H (.use m) ↔ m ∈ H := and_iff_left rfl

theorem Plain.wp (h : Plain rank r H s) (hQ : Q H) (hR : r = true → ∀ b, R b H) :
    Locks.wp rank s H Q R := by
  induction s generalizing Q with
  | act => exact hQ
  | halt => trivial
  | ret b => exact hR h b
  | seq s t ihs iht => exact ihs h.1 (iht h.2 hQ)
  | choose s t ihs iht => exact ⟨ihs h.1 hQ, iht h.2 hQ⟩
  | any f ih => exact fun n => ih n (h n) hQ
  | loop s ih => exact ⟨ih h rfl, hQ⟩
  | forever s ih => exact ih h rfl
  | call f s t _ ihs iht => exact wp_call h.1 (ihs h.2.1 hQ) (iht h.2.2 hQ)
  | fork s => exact ⟨h, hQ⟩
  | cancel s => exact ⟨h, hQ⟩
  | lock | unlock | wait | await | use => exact ⟨h.1, by rwa [show _ = H from h.2]⟩
  | exit => exact h

theorem Plain.keeps (h : Plain rank true H s) : Keeps rank H s := h.wp rfl fun _ _ => rfl

/-- **A critical section**: nothing returns from it. -/
theorem keeps_section (pre body post : List (Stmt μ)) (hm : ∀ x ∈ H, rank x < rank m)
    (hpre : Plain rank true H (.block pre)) (hbody : Plain rank false (insert m H) (.block body))
    (hpost : Plain rank true H (.block post)) :
    Keeps rank H (.block (pre ++ .lock m :: (body ++ .unlock m :: post))) := by
  have hunlock : wp rank (.block (.unlock m :: post)) (insert m H) (· = H) fun _ h => h = H :=
    wp_block_cons.2 (wp_unlock_insert hm hpost.keeps)
  have hlock : Keeps rank H (.block (.lock m :: (body ++ .unlock m :: post))) :=
    ⟨hm, wp_block_append.2 (hbody.wp hunlock nofun)⟩
  exact wp_block_append.2 (hpre.wp hlock fun _ _ => rfl)

theorem keeps_section_empty (pre body post : List (Stmt μ)) (hpre : Plain rank true ∅ (.block pre))
    (hbody : Plain rank false {m} (.block body)) (hpost : Plain rank true ∅ (.block post)) :
    Keeps rank ∅ (.block (pre ++ .lock m :: (body ++ .unlock m :: post))) := by
  rw [← insert_empty_eq] at hbody
  exact keeps_section pre body post (fun _ hx => hx.elim) hpre hbody hpost

end

/-! ## Every run -/

namespace State
variable {μ : Type*} {rank : μ → ℕ} {s u : State μ} {i c : ℕ}

/-- **Every thread has before it what the mutexes allow.** -/
structure Inv (rank : μ → ℕ) (s : State μ) : Prop where
  known : ∀ m i, s.owner m = some i → i < s.threads.length
  safe : ∀ (i : ℕ) (t : Thread μ), s.threads[i]? = some t → t.Safe rank (s.held i)

theorem inv_start {p : Stmt μ} (hp : Leads rank p ∅ ∅) : (start p).Inv rank where
  known _ _ h := by cases h
  safe i t ht := by
    have hnone : (start p).held i = ∅ := Set.eq_empty_of_forall_notMem fun _ h => by cases h
    cases i with
    | zero =>
      obtain rfl := Option.some.inj ht
      rw [hnone]
      exact hp
    | succ i => cases ht

/-- A step of one thread that takes no mutex from another. -/
theorem Inv.update (hI : s.Inv rank) {owner : μ → Option ℕ} {t : Thread μ} (hi : i < s.threads.length)
    (hother : ∀ m j, j ≠ i → (owner m = some j ↔ s.owner m = some j))
    (ht : t.Safe rank {m | owner m = some i}) :
    ({ s with owner := owner, threads := s.threads.set i t } : State μ).Inv rank where
  known m j hj := by
    rw [List.length_set]
    by_cases hji : j = i
    · rwa [hji]
    · exact hI.known m j ((hother m j hji).1 hj)
  safe j t' ht' := by
    by_cases hji : j = i
    · subst hji
      rw [List.getElem?_set_self hi] at ht'
      obtain rfl := Option.some.inj ht'
      exact ht
    · rw [List.getElem?_set_ne (Ne.symm hji)] at ht'
      have hheld : ({ s with owner := owner, threads := s.threads.set i t } : State μ).held j =
          s.held j := Set.ext fun m => hother m j hji
      rw [hheld]
      exact hI.safe j t' ht'

theorem Inv.goto (hI : s.Inv rank) {k : List (Stmt μ)} {fs : List (Frame μ)}
    (hi : i < s.threads.length) (hk : Rest rank k fs (s.held i)) : (s.goto i k fs).Inv rank :=
  hI.update hi (fun _ _ _ => Iff.rfl) hk

theorem Inv.leave (hI : s.Inv rank) {b : Bool} {fs : List (Frame μ)} (hi : i < s.threads.length)
    (hback : back rank fs b (s.held i)) : (s.leave i b fs).Inv rank := by
  cases fs with
  | nil => exact hI.goto hi hback
  | cons f fs => exact hI.goto hi hback

/-- A new thread. -/
theorem Inv.fork (hI : s.Inv rank) {p : Stmt μ} (hp : Leads rank p ∅ ∅) :
    ({ s with threads := s.threads ++ [.run [p] []] } : State μ).Inv rank where
  known m j hj := by
    rw [List.length_append]
    exact Nat.lt_of_lt_of_le (hI.known m j hj) (Nat.le_add_right _ _)
  safe j t ht := by
    rcases Nat.lt_or_ge j s.threads.length with hlt | hge
    · rw [List.getElem?_append_left hlt] at ht
      exact hI.safe j t ht
    · -- nobody has been that thread before
      have hnone : s.held j = ∅ := Set.eq_empty_of_forall_notMem fun m hm =>
        Nat.not_lt_of_ge hge (hI.known m j hm)
      rw [List.getElem?_append_right hge] at ht
      obtain rfl : t = .run [p] [] := by simpa using List.mem_of_getElem? ht
      change Rest rank [p] [] (s.held j)
      rw [hnone]
      exact hp

/-- Who has ended, sleeps or waits for another thread has no mutex. -/
theorem Inv.held_idle (hI : s.Inv rank) {t : Thread μ} (ht : s.threads[i]? = some t) (h : t.idle) :
    s.held i = ∅ := by
  have hsafe := hI.safe i t ht
  match t with
  | .run [] [] => exact hsafe
  | .run (.await :: _) _ => exact hsafe.1
  | .asleep _ _ _ => exact hsafe.1

/-- Who is about to use what a mutex guards has it. -/
theorem Inv.guarded (hI : s.Inv rank) {m : μ} {k : List (Stmt μ)} {fs : List (Frame μ)}
    (ht : s.threads[i]? = some (.run (.use m :: k) fs)) : s.owner m = some i := by
  have hsafe : Rest rank (.use m :: k) fs (s.held i) := hI.safe i _ ht
  exact hsafe.1

/-- The owner of a mutex is awake and not at its end. -/
theorem Inv.owner_runs (hI : s.Inv rank) {m : μ} {j : ℕ} (hown : s.owner m = some j) :
    ∃ k fs, s.threads[j]? = some (.run k fs) ∧ ¬ (k = [] ∧ fs = []) := by
  obtain ⟨t, ht⟩ : ∃ t, s.threads[j]? = some t := ⟨_, List.getElem?_eq_getElem (hI.known m j hown)⟩
  have hbusy : t.idle = false := by
    rw [← Bool.not_eq_true]
    intro hidle
    have hm : m ∈ s.held j := hown
    rw [hI.held_idle ht hidle] at hm
    cases hm
  match t with
  | .asleep _ _ _ => cases hbusy
  | .run k fs =>
    refine ⟨k, fs, ht, ?_⟩
    rintro ⟨rfl, rfl⟩
    cases hbusy

section
variable [DecidableEq μ]

theorem held_lock {m : μ} : {x | Function.update s.owner m (some i) x = some i} = insert m (s.held i) := by
  ext x
  by_cases hx : x = m
  · simp [hx]
  · simp [hx, held]

theorem held_unlock {m : μ} : {x | Function.update s.owner m none x = some i} = s.held i \ {m} := by
  ext x
  by_cases hx : x = m
  · simp [hx]
  · simp [hx, held]

theorem other_update {m : μ} {j : ℕ} {v : Option ℕ} (hm : s.owner m ≠ some j) (hv : v ≠ some j) (x : μ) :
    Function.update s.owner m v x = some j ↔ s.owner x = some j := by
  by_cases hx : x = m
  · subst hx
    rw [Function.update_self]
    exact iff_of_false hv hm
  · rw [Function.update_of_ne hx]

/-- **One statement**, but a cancellation that takes a mutex along. -/
theorem inv_goStep (hI : s.Inv rank) {p : Stmt μ} {k : List (Stmt μ)} {fs : List (Frame μ)}
    (hi : i < s.threads.length) (hp : Rest rank (p :: k) fs (s.held i))
    (hC : ∀ a, p = .cancel a → c ≠ 0 → s.held i = ∅) (h : s.goStep i c k fs p = some u) : u.Inv rank := by
  cases p with
  | act =>
    obtain rfl := Option.some.inj h
    exact hI.goto hi hp
  | await =>
    obtain rfl := Option.some.inj h
    exact hI.goto hi hp.2
  | use m =>
    obtain rfl := Option.some.inj h
    exact hI.goto hi hp.2
  | lock m =>
    obtain ⟨hfree, h⟩ := Option.ite_none_right_eq_some.1 h
    obtain rfl := Option.some.inj h
    refine hI.update hi (fun x j hj => ?_) ?_
    · exact other_update (by simp [hfree]) (fun he => hj (Option.some.inj he).symm) x
    · rw [held_lock]
      exact hp.2
  | unlock m =>
    obtain ⟨hown, h⟩ := Option.ite_none_right_eq_some.1 h
    obtain rfl := Option.some.inj h
    refine hI.update hi (fun x j hj => ?_) ?_
    · exact other_update (fun he => hj (Option.some.inj (hown.symm.trans he)).symm) (Option.some_ne_none _).symm x
    · rw [held_unlock]
      exact hp.2
  | wait m =>
    obtain ⟨hown, h⟩ := Option.ite_none_right_eq_some.1 h
    obtain rfl := Option.some.inj h
    obtain ⟨hheld, hrest⟩ := hp
    refine hI.update hi (fun x j hj => ?_) ⟨?_, ?_⟩
    · exact other_update (fun he => hj (Option.some.inj (hown.symm.trans he)).symm) (Option.some_ne_none _).symm x
    · rw [held_unlock, hheld, Set.sdiff_self]
    · rwa [hheld] at hrest
  | seq a b =>
    obtain rfl := Option.some.inj h
    exact hI.goto hi hp
  | choose a b =>
    obtain rfl := Option.some.inj h
    by_cases hc : c = 0
    · rw [if_pos hc]
      exact hI.goto hi hp.1
    · rw [if_neg hc]
      exact hI.goto hi hp.2
  | any f =>
    obtain rfl := Option.some.inj h
    exact hI.goto hi (hp c)
  | loop a =>
    obtain rfl := Option.some.inj h
    by_cases hc : c = 0
    · rw [if_pos hc]
      exact hI.goto hi hp.2
    · rw [if_neg hc]
      refine hI.goto hi (wp_mono hp.1 ?_ fun _ _ hH => hH)
      rintro _ rfl
      exact hp
  | forever a =>
    obtain rfl := Option.some.inj h
    refine hI.goto hi (wp_mono hp ?_ fun _ _ hH => hH)
    rintro _ rfl
    exact hp
  | call f a b =>
    obtain rfl := Option.some.inj h
    refine hI.goto hi (wp_mono hp (fun _ hH => hH) fun b H hH => ?_)
    cases b with
    | true => exact hH
    | false => exact hH
  | ret b =>
    obtain rfl := Option.some.inj h
    exact hI.leave hi hp
  | fork a =>
    obtain rfl := Option.some.inj h
    exact (hI.goto hi hp.2).fork hp.1
  | cancel a =>
    obtain rfl := Option.some.inj h
    by_cases hc : c = 0
    · rw [if_pos hc]
      exact hI.goto hi hp.2
    · rw [if_neg hc]
      refine hI.goto hi ?_
      rw [hC a rfl hc]
      exact hp.1
  | exit =>
    obtain rfl := Option.some.inj h
    exact hI.goto hi hp
  | halt =>
    obtain rfl := Option.some.inj h
    exact ⟨hI.known, hI.safe⟩

/-- **One step.** -/
theorem inv_step (hI : s.Inv rank) {a : Act} (hC : ¬ s.Interrupts a) (h : s.step a = some u) :
    u.Inv rank := by
  cases a with
  | go i c =>
    obtain ⟨-, h⟩ := Option.ite_none_left_eq_some.1 h
    obtain ⟨t, ht, h⟩ := Option.bind_eq_some_iff.1 h
    have hi := (List.getElem?_eq_some_iff.1 ht).1
    have hsafe := hI.safe i t ht
    match t with
    | .asleep _ _ _ => cases h
    | .run [] [] => cases h
    | .run [] (f :: fs) =>
      obtain rfl := Option.some.inj h
      exact hI.leave hi hsafe
    | .run (p :: k) fs =>
      refine inv_goStep hI hi hsafe (fun a hp hc => ?_) h
      refine Set.eq_empty_of_forall_notMem fun m hm => hC ⟨hc, ⟨a, k, fs, ?_⟩, m, hm⟩
      rw [ht, hp]
  | wake i =>
    obtain ⟨-, h⟩ := Option.ite_none_left_eq_some.1 h
    obtain ⟨t, ht, h⟩ := Option.bind_eq_some_iff.1 h
    have hi := (List.getElem?_eq_some_iff.1 ht).1
    have hsafe := hI.safe i t ht
    match t with
    | .run _ _ => cases h
    | .asleep m k fs =>
      obtain rfl := Option.some.inj h
      obtain ⟨hheld, hrest⟩ := hsafe
      refine hI.goto hi ?_
      rw [hheld]
      refine ⟨fun _ hx => hx.elim, ?_⟩
      rw [insert_empty_eq]
      exact hrest

/-- **Every run in which no cancellation takes a mutex along.** -/
theorem inv_of_path {p : Stmt μ} (hp : Leads rank p ∅ ∅) {q : List (State μ × Act)}
    (h : Runs.Path step (start p) q s) (hC : ∀ x ∈ q, ¬ x.1.Interrupts x.2) : s.Inv rank :=
  h.inv_of (C := fun s a => ¬ s.Interrupts a) hC (inv_start hp) fun _ _ _ hI hC ha => inv_step hI hC ha

/-! ## Waiting -/

/-- A thread that has something to do can do it, or waits for a mutex. -/
theorem Inv.goes_or_waits (hI : s.Inv rank) (hended : s.ended = false) {k : List (Stmt μ)}
    {fs : List (Frame μ)} (ht : s.threads[i]? = some (.run k fs)) (hne : ¬ (k = [] ∧ fs = [])) :
    s.Goes i ∨ ∃ j, s.Waits i j := by
  have hgoes : (∀ c, s.threadStep i c (.run k fs) ≠ none) → s.Goes i := by
    intro h c
    rw [step, if_neg (by simp [hended]), ht]
    exact h c
  have hsafe := hI.safe i _ ht
  match k, fs with
  | [], [] => exact absurd ⟨rfl, rfl⟩ hne
  | [], f :: fs => exact Or.inl (hgoes fun c => Option.some_ne_none _)
  | p :: k, fs =>
    cases p with
    | lock m =>
      cases hown : s.owner m with
      | none => exact Or.inl (hgoes fun c => by simp [threadStep, goStep, hown])
      | some j => exact Or.inr ⟨j, m, k, fs, ht, hown⟩
    | unlock m =>
      have hown : s.owner m = some i := hsafe.1
      exact Or.inl (hgoes fun c => by simp [threadStep, goStep, hown])
    | wait m =>
      have hm : m ∈ s.held i := by
        rw [hsafe.1]
        exact Set.mem_singleton m
      have hown : s.owner m = some i := hm
      exact Or.inl (hgoes fun c => by simp [threadStep, goStep, hown])
    | _ => exact Or.inl (hgoes fun c => Option.some_ne_none _)

/-- **Who has a mutex goes on, or waits for one that can in the end**: the rank rises
    along the threads that wait. -/
theorem Inv.chain (hI : s.Inv rank) (hended : s.ended = false) {b : ℕ} (hb : ∀ m, rank m ≤ b) {m : μ}
    {j : ℕ} (hown : s.owner m = some j) : ∃ j', Relation.ReflTransGen s.Waits j j' ∧ s.Goes j' := by
  induction hn : b - rank m using Nat.strong_induction_on generalizing m j with
  | _ n ih =>
    obtain ⟨k, fs, ht, hne⟩ := hI.owner_runs hown
    rcases hI.goes_or_waits hended ht hne with hgo | ⟨j', m', k', fs', ht', hown'⟩
    · exact ⟨j, .refl, hgo⟩
    · have hsafe : Rest rank (.lock m' :: k') fs' (s.held j) := hI.safe j _ ht'
      have hlt : rank m < rank m' := hsafe.1 m hown
      have hle := hb m'
      obtain ⟨i', hchain, hgo⟩ := ih (b - rank m') (by omega) hown' rfl
      exact ⟨i', hchain.head ⟨m', k', fs', ht', hown'⟩, hgo⟩

end

end State

end Locks
