/-
  Taking a stream line by line, whatever pieces it comes in.

  * `feed mark act r s`: what the intake `r` is after the stream `s`; a line ends
    with the mark, and `act` says what becomes of it;
  * `feed_line`, `feed_lines`: lines that are free of the mark are taken as they
    stand;
  * `feed_init`: of a stream that breaks off, the lines that end are taken;
  * `lines`: the lines of a stream.
-/
import SmtpProxy.Lib.Search

open Search

/-- What has come since the last line end, and what the lines before it have led to. -/
structure Intake (α σ : Type*) where
  rest : List α
  state : σ

namespace Intake

variable {α σ : Type*}

/-- A stream that ends before the mark behind `l` does has no mark. -/
theorem free_of_init {mark l q : List α} (hu : Unbordered mark) (hl : ¬ mark <:+: l) (hq : q <+: l ++ mark)
    (hne : q ≠ l ++ mark) : ¬ mark <:+: q := by
  rintro ⟨u, v, rfl⟩
  obtain ⟨w, hw⟩ := hq
  have hfirst := (hu.isFirst hl []).2 u (v ++ w) (by simpa [List.append_assoc] using hw.symm)
  have hlen := congrArg List.length hw
  have hw0 : w ≠ [] := by
    rintro rfl
    exact hne (by simpa using hw)
  have hpos := List.length_pos_iff.2 hw0
  simp only [List.length_append] at hlen
  omega

section
variable [DecidableEq α] (mark : List α) (act : σ → List α → σ)

/-- The next element. -/
def next (r : Intake α σ) (a : α) : Intake α σ :=
  if mark <:+ r.rest ++ [a] then
    ⟨[], act r.state ((r.rest ++ [a]).take (r.rest.length + 1 - mark.length))⟩
  else ⟨r.rest ++ [a], r.state⟩

def feed (r : Intake α σ) (s : List α) : Intake α σ := s.foldl (next mark act) r

/-- The lines of a stream. -/
def lines (s : List α) : List (List α) := (feed mark (fun ls l => ls ++ [l]) ⟨[], []⟩ s).state

variable {mark act} {r : Intake α σ} {s t l q : List α} {ls : List (List α)} {st : σ}

theorem feed_append : feed mark act r (s ++ t) = feed mark act (feed mark act r s) t :=
  List.foldl_append

/-- Without a mark nothing is taken. -/
theorem feed_free (h : ¬ mark <:+: r.rest ++ s) : feed mark act r s = ⟨r.rest ++ s, r.state⟩ := by
  induction s generalizing r with
  | nil => rw [List.append_nil]; rfl
  | cons a s ih =>
    rw [List.append_cons] at h ⊢
    have hno : ¬ mark <:+ r.rest ++ [a] := fun hs => h (hs.isInfix.trans (List.prefix_append _ s).isInfix)
    have hnext : next mark act r a = ⟨r.rest ++ [a], r.state⟩ := by rw [next, if_neg hno]
    rw [feed, List.foldl_cons, hnext]
    exact ih h

/-- **A line is taken as it stands.** -/
theorem feed_line (hu : Unbordered mark) (hl : ¬ mark <:+: l) :
    feed mark act ⟨[], st⟩ (l ++ mark) = ⟨[], act st l⟩ := by
  obtain ⟨m, z, hmark⟩ : ∃ m z, mark = m ++ [z] := by
    rcases List.eq_nil_or_concat mark with h | ⟨m, z, h⟩
    · exact absurd h hu.1
    · exact ⟨m, z, by rw [h, List.concat_eq_append]⟩
  have hfree : ¬ mark <:+: l ++ m := by
    refine free_of_init hu hl ⟨[z], by rw [List.append_assoc, ← hmark]⟩ fun h => ?_
    have hlen := congrArg List.length (List.append_cancel_left h)
    simp [hmark] at hlen
  have hsplit : l ++ mark = l ++ m ++ [z] := by rw [hmark, List.append_assoc]
  have hinit : feed mark act ⟨[], st⟩ (l ++ m) = ⟨l ++ m, st⟩ := feed_free hfree
  have hlast : mark <:+ l ++ m ++ [z] := ⟨l, hsplit⟩
  have htake : (l ++ m ++ [z]).take ((l ++ m).length + 1 - mark.length) = l := by
    have hlen : (l ++ m).length + 1 - mark.length = l.length := by
      rw [hmark]
      simp only [List.length_append, List.length_singleton]
      omega
    rw [hlen, List.append_assoc, List.take_left]
  rw [hsplit, feed_append, hinit, feed, List.foldl_cons, List.foldl_nil, next]
  dsimp only
  rw [if_pos hlast, htake]

/-- **Lines are taken one after the other.** -/
theorem feed_lines (hu : Unbordered mark) (h : ∀ l ∈ ls, ¬ mark <:+: l) :
    feed mark act ⟨[], st⟩ (ls.map (· ++ mark)).flatten = ⟨[], ls.foldl act st⟩ := by
  induction ls generalizing st with
  | nil => rfl
  | cons l ls ih =>
    obtain ⟨hl, hls⟩ := List.forall_mem_cons.1 h
    rw [List.map_cons, List.flatten_cons, feed_append, feed_line hu hl, ih hls, List.foldl_cons]

/-- **Of a stream that breaks off** some lines have been taken, and not all. -/
theorem feed_init (hu : Unbordered mark) (h : ∀ l ∈ ls, ¬ mark <:+: l)
    (hq : q <+: (ls.map (· ++ mark)).flatten) (hne : q ≠ (ls.map (· ++ mark)).flatten) :
    ∃ k < ls.length, (feed mark act ⟨[], st⟩ q).state = (ls.take k).foldl act st := by
  induction ls generalizing q st with
  | nil => exact absurd (List.prefix_nil.1 hq) hne
  | cons l ls ih =>
    obtain ⟨hl, hls⟩ := List.forall_mem_cons.1 h
    rw [List.map_cons, List.flatten_cons] at hq hne
    by_cases hlen : (l ++ mark).length ≤ q.length
    · -- the first line ends
      obtain ⟨t, rfl⟩ := List.prefix_of_prefix_length_le (List.prefix_append _ _) hq hlen
      rw [List.prefix_append_right_inj] at hq
      obtain ⟨k, hk, hstate⟩ : ∃ k < ls.length,
          (feed mark act ⟨[], act st l⟩ t).state = (ls.take k).foldl act (act st l) :=
        ih hls hq fun ht => hne (by rw [ht])
      refine ⟨k + 1, Nat.succ_lt_succ hk, ?_⟩
      rw [feed_append, feed_line hu hl, hstate, List.take_succ_cons, List.foldl_cons]
    · have hinit : q <+: l ++ mark :=
        List.prefix_of_prefix_length_le hq (List.prefix_append _ _) (by omega)
      have hfree : ¬ mark <:+: q := free_of_init hu hl hinit fun he => hlen (by rw [he])
      refine ⟨0, Nat.succ_pos _, ?_⟩
      rw [feed_free (by exact hfree)]
      rfl

theorem lines_flatten (hu : Unbordered mark) (h : ∀ l ∈ ls, ¬ mark <:+: l) :
    lines mark (ls.map (· ++ mark)).flatten = ls := by
  have hfold : ∀ (ls ls' : List (List α)), ls.foldl (fun ls l => ls ++ [l]) ls' = ls' ++ ls := by
    intro ls
    induction ls with
    | nil => exact fun ls' => (List.append_nil ls').symm
    | cons l ls ih =>
      intro ls'
      rw [List.foldl_cons, ih, List.append_assoc]
      rfl
  rw [lines, feed_lines hu h]
  exact hfold ls []

end

end Intake
