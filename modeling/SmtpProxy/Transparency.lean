/-
  Byte transparency: what a client sends after its DATA line, and what is
  written to a server that accepts.

  The message passes the growing buffer of `handleClient`, the parser in it, and
  `smtpWrite`, all of which take it for a C string.

  * `transparent_iff`: the payloads come through unchanged iff there is no NUL and
    their length is an `int`;
  * `nul_cut`: a payload with a NUL.
-/
import SmtpProxy.Smuggling

namespace SmtpProxy

open CString Search

/-- **Byte transparency.**  A client sends messages, each cut into reads anyhow.
    For a server that accepts, what is written after DATA is what follows the
    DATA line of the message iff there is no NUL in the message and the payload is
    shorter than 2^31 bytes. -/
theorem transparent_iff (transports : List Tp) {Ms : List Bytes} {css : List (List Bytes)}
    {p : List (ClientThread Env × ClientEvent Env)} {c : ClientThread Env}
    (hMs : ∀ M ∈ Ms, 5 < M.length ∧ EndsOnce endMark M) (hcs : css.map List.flatten = Ms)
    (hp : Runs.Path ClientThread.step .init p c) (hr : readsOf p = css.flatten) :
    List.Forall₂ (fun M x => Accepting transports M x.2 →
      (Delivered M (respond transports x.1 x.2).log ↔ NulFree M ∧ ShortPayload M)) Ms c.sent := by
  have hne := readsOf_ne_nil hp
  rw [hr] at hne
  have hframes : frames (readsOf p) = (Ms, []) := by
    rw [hr]
    refine frames_messages hcs (fun cs h c hc => hne c (List.mem_flatten.2 ⟨cs, h, hc⟩)) ?_
    exact fun M hM => ⟨(hMs M hM).2, (hMs M hM).1⟩
  have hframed := framed_of_path hp
  rw [hframes] at hframed
  refine hframed.sent.imp fun M x hx hacc => ?_
  exact (accepted_of_accepting hx hacc).2

/-- The message of `msgPlain` in two reads, cut inside its mark, and once more in one,
    with a server that accepts: both are delivered. -/
theorem transparent_iff_plain : ∃ (p : List (ClientThread Env × ClientEvent Env)) (c : ClientThread Env),
    Runs.Path ClientThread.step .init p c ∧ readsOf p = [msgPlain.take 16, msgPlain.drop 16, msgPlain] ∧
      List.Forall₂ (fun M x => Delivered M (respond [tpPlain] x.1 x.2).log) [msgPlain, msgPlain] c.sent := by
  obtain ⟨p, c, hp, -, hr, henv, -⟩ := path_of_reads envSent
    [msgPlain.take 16, msgPlain.drop 16, msgPlain] (by decide) (by decide)
  have hM : ∀ M ∈ [msgPlain, msgPlain], 5 < M.length ∧ EndsOnce endMark M := by decide
  have hcs : [[msgPlain.take 16, msgPlain.drop 16], [msgPlain]].map List.flatten = [msgPlain, msgPlain] := rfl
  have hall := transparent_iff [tpPlain] hM hcs hp hr
  refine ⟨p, c, hp, hr, ?_⟩
  have hshort : NulFree msgPlain ∧ ShortPayload msgPlain := by
    have := truthful_envSent
    rwa [Truthful, walk_envSent] at this
  have hdel : ∀ x : Bytes × Env, x.2 = envSent → (Accepting [tpPlain] msgPlain x.2 →
      (Delivered msgPlain (respond [tpPlain] x.1 x.2).log ↔ NulFree msgPlain ∧ ShortPayload msgPlain)) →
      Delivered msgPlain (respond [tpPlain] x.1 x.2).log := by
    intro x hx hiff
    exact (hiff ⟨_, by rw [hx]; exact walk_envSent⟩).2 hshort
  obtain ⟨x, _, hx, hrest, hsent⟩ := List.forall₂_cons_left_iff.1 hall
  obtain ⟨y, _, hy, hnil, rfl⟩ := List.forall₂_cons_left_iff.1 hrest
  obtain rfl := List.forall₂_nil_left_iff.1 hnil
  rw [hsent] at henv ⊢
  exact .cons (hdel x (henv x (by simp)) hx) (.cons (hdel y (henv y (by simp)) hy) .nil)

/-! ## A NUL in the payload -/

/-- A message for `t` whose payload is `x`, NUL, `y` and the end mark. -/
def msgNul : Bytes := request (bytes "t") [bytes "b"] ([120, 0, 121] ++ endMark)

theorem complete_msgNul : Complete msgNul ∧ EndsOnce endMark msgNul ∧ ¬ NulFree msgNul := by decide

theorem cstr_msgNul : cstr msgNul = request (bytes "t") [bytes "b"] [120] := by decide

theorem routed_msgNul : Routed [tpPlain] msgNul := by
  have hf : NulFree (bytes "t") ∧ ¬ crlf <:+: bytes "t" := by decide
  have hr : ∀ r ∈ [bytes "b"], NulFree r ∧ ¬ crlf <:+: r ∧ r ≠ dataWord := by decide
  have hd : NulFree [120] := by decide
  obtain ⟨hret, hsender, -⟩ := prepareSendMail_request (121 :: endMark ++ [0]) [] errlen hf (by simp) hr hd
  have hmsg : msgNul ++ [0] = request (bytes "t") [bytes "b"] [120] ++ 0 :: (121 :: endMark ++ [0]) := by
    decide
  rw [Routed, hmsg, hret, hsender]
  decide

/-- **A payload with a NUL** is cut there, and accepted. -/
theorem nul_cut : ∃ env c, Runs.Path ClientThread.step .init [(.init, .read msgNul env true)] c ∧
    EndsOnce endMark msgNul ∧ Accepting [tpPlain] msgNul env ∧
    ∃ x ∈ c.sent, Accepted [120] (respond [tpPlain] x.1 x.2).log ∧
      ¬ Delivered msgNul (respond [tpPlain] x.1 x.2).log := by
  obtain ⟨hc, hends, hnul⟩ := complete_msgNul
  obtain ⟨env, henv⟩ := exists_accepting routed_msgNul
  obtain ⟨j, c, hsent, hp⟩ := path_of_complete hc (by decide) env
  refine ⟨env, c, hp, hends, henv, _, by rw [hsent]; exact List.mem_singleton_self _, ?_⟩
  obtain ⟨⟨h, d, tls, x, hf, hacc⟩, hdel⟩ := accepted_of_accepting ⟨j, rfl⟩ henv
  rw [cstr_msgNul] at hf
  obtain ⟨-, rfl⟩ := hf.unique (isFirst_request [120] (by decide) (by decide) (by decide))
  rw [(sent_eq_iff tls [120] x).2 (by decide)] at hacc
  exact ⟨hacc, fun hall => hnul (hdel.1 hall).1⟩

end SmtpProxy
