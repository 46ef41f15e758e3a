/-
  Tables with a key, built by actions on the entry of a key, which is made when
  its key has none yet.

  * `upsert`: one action; `build`: a list of them, on the empty table;
  * `build_eq`: one entry for each key, in the order of first appearance, and
    each is what the actions on its key have made of it;
  * `read_foldl`: a field that an action sets or leaves alone is what the last
    action that sets it has set.
-/
import Mathlib.Data.List.Induction
import Mathlib.Data.List.Nodup
import Mathlib.Tactic.TypeStar

namespace Keyed

section
variable {κ τ : Type*} [DecidableEq κ] (key : τ → κ) (new : κ → τ)

/-- The entry of `k`, new if there is none, is changed by `f`. -/
def upsert (k : κ) (f : τ → τ) (l : List τ) : List τ :=
  match l.findIdx? fun t => key t = k with
  | some j => l.modify j f
  | none => l ++ [f (new k)]

def build (acts : List (κ × (τ → τ))) : List τ :=
  acts.foldl (fun l a => upsert key new a.1 a.2 l) []

/-- The elements, in the order of first appearance. -/
def firsts (l : List κ) : List κ := l.eraseDups

def keys (acts : List (κ × (τ → τ))) : List κ := firsts (acts.map Prod.fst)

/-- What the actions on `k` make of its entry. -/
def value (acts : List (κ × (τ → τ))) (k : κ) : τ :=
  (acts.filter fun a => a.1 = k).foldl (fun t a => a.2 t) (new k)

variable {key new} {k : κ} {f : τ → τ} {a : κ × (τ → τ)} {acts : List (κ × (τ → τ))}

/-! ## Keys -/

theorem mem_firsts {l : List κ} : k ∈ firsts l ↔ k ∈ l := List.mem_eraseDups

theorem firsts_snoc (l : List κ) (k : κ) :
    firsts (l ++ [k]) = if k ∈ l then firsts l else firsts l ++ [k] := by
  rw [firsts, firsts, List.eraseDups_append, List.removeAll]
  by_cases hk : k ∈ l
  · simp [hk]
  · simp [hk, List.eraseDups_cons]

theorem nodup_firsts (l : List κ) : (firsts l).Nodup := by
  induction l using List.reverseRecOn with
  | nil => exact List.nodup_nil
  | append_singleton l k ih =>
    rw [firsts_snoc]
    split
    · exact ih
    · rename_i hk
      refine List.nodup_append.2 ⟨ih, by simp, fun x hx y hy he => hk ?_⟩
      rw [he, List.mem_singleton.1 hy] at hx
      exact mem_firsts.1 hx

theorem nodup_keys : (keys acts).Nodup := nodup_firsts _

theorem mem_keys : k ∈ keys acts ↔ ∃ a ∈ acts, a.1 = k := by
  rw [keys, mem_firsts, List.mem_map]

theorem keys_snoc : keys (acts ++ [a]) =
    if a.1 ∈ keys acts then keys acts else keys acts ++ [a.1] := by
  rw [keys, List.map_append, List.map_singleton, firsts_snoc, keys]
  simp only [mem_firsts]

/-! ## Entries -/

theorem value_snoc : value new (acts ++ [a]) k =
    if a.1 = k then a.2 (value new acts k) else value new acts k := by
  rw [value, List.filter_append]
  by_cases ha : a.1 = k
  · simp [ha, value]
  · simp [ha, value]

/-- A key without actions has a new entry. -/
theorem value_new (h : ∀ a ∈ acts, a.1 ≠ k) : value new acts k = new k := by
  have hnil : acts.filter (fun a => a.1 = k) = [] := by simpa using h
  rw [value, hnil]
  rfl

theorem key_value (hnew : ∀ k, key (new k) = k) (hf : ∀ a ∈ acts, ∀ t, key (a.2 t) = key t) :
    key (value new acts k) = k := by
  induction acts using List.reverseRecOn with
  | nil => exact hnew k
  | append_singleton acts a ih =>
    have ih := ih fun b hb => hf b (by simp [hb])
    rw [value_snoc]
    split
    · rw [hf a (by simp), ih]
    · exact ih

omit [DecidableEq κ] in
/-- Changing the entry of `k` among the entries `g`. -/
theorem modify_map {ks : List κ} {g g' : κ → τ} {j : ℕ} (hnd : ks.Nodup) (hj : ks[j]? = some k)
    (hk : g' k = f (g k)) (hne : ∀ i, i ≠ k → g' i = g i) :
    (ks.map g).modify j f = ks.map g' := by
  refine List.ext_getElem? fun i => ?_
  rw [List.getElem?_modify, List.getElem?_map, List.getElem?_map]
  by_cases hi : j = i
  · subst hi
    rw [hj]
    simp [hk]
  · simp only [if_neg hi]
    cases hki : ks[i]? with
    | none => rfl
    | some k' =>
      have hkk : k' ≠ k := by
        rintro rfl
        obtain ⟨hlt, hj'⟩ := List.getElem?_eq_some_iff.1 hj
        obtain ⟨hlt', hi'⟩ := List.getElem?_eq_some_iff.1 hki
        exact hi ((hnd.getElem_inj_iff).1 (hj'.trans hi'.symm))
      exact congrArg some (hne k' hkk).symm

/-- An action on the entries `g` of the keys `ks`. -/
theorem upsert_map {ks : List κ} {g g' : κ → τ} (hnd : ks.Nodup) (hg : ∀ i, key (g i) = i)
    (hnew : k ∉ ks → g k = new k) (hk : g' k = f (g k)) (hne : ∀ i, i ≠ k → g' i = g i) :
    upsert key new k f (ks.map g) = (if k ∈ ks then ks else ks ++ [k]).map g' := by
  have hfind : (ks.map g).findIdx? (fun t => key t = k) = ks.findIdx? fun i => i = k := by
    rw [List.findIdx?_map]
    simp only [Function.comp_def, hg]
  unfold upsert
  rw [hfind]
  cases hj : ks.findIdx? fun i => i = k with
  | none =>
    have hno : k ∉ ks := fun hk => by simpa [hk] using List.findIdx?_eq_none_iff.1 hj k hk
    have hsame : ks.map g = ks.map g' :=
      List.map_congr_left fun i hi => (hne i fun he => hno (he ▸ hi)).symm
    rw [if_neg hno, List.map_append, hsame, List.map_singleton, hk, hnew hno]
  | some j =>
    obtain ⟨hlt, hp, -⟩ := List.findIdx?_eq_some_iff_getElem.1 hj
    have hkj : ks[j]? = some k := by
      rw [List.getElem?_eq_getElem hlt]
      exact congrArg some (by simpa using hp)
    rw [if_pos (List.mem_of_getElem? hkj)]
    exact modify_map hnd hkj hk hne

/-- A key that has no entry. -/
theorem upsert_new {l : List τ} (h : ∀ t ∈ l, key t ≠ k) :
    upsert key new k f l = l ++ [f (new k)] := by
  have hnone : l.findIdx? (fun t => key t = k) = none :=
    List.findIdx?_eq_none_iff.2 fun t ht => by simpa using h t ht
  rw [upsert, hnone]

/-- A key whose entry is the last one. -/
theorem upsert_last {l : List τ} {t : τ} (h : ∀ t ∈ l, key t ≠ k) (ht : key t = k) :
    upsert key new k f (l ++ [t]) = l ++ [f t] := by
  have hnone : l.findIdx? (fun t => key t = k) = none :=
    List.findIdx?_eq_none_iff.2 fun t ht => by simpa using h t ht
  have hfind : (l ++ [t]).findIdx? (fun t => key t = k) = some l.length := by
    rw [List.findIdx?_append, hnone]
    simp [List.findIdx?_cons, ht]
  rw [upsert, hfind]
  simp [List.modify_eq_set_get]

/-- **The table**: the entries of the keys, in the order of their first
    appearance. -/
theorem build_eq (hnew : ∀ k, key (new k) = k) (hf : ∀ a ∈ acts, ∀ t, key (a.2 t) = key t) :
    build key new acts = (keys acts).map (value new acts) := by
  induction acts using List.reverseRecOn with
  | nil => rfl
  | append_singleton acts a ih =>
    have hf' : ∀ b ∈ acts, ∀ t, key (b.2 t) = key t := fun b hb => hf b (by simp [hb])
    have ih := ih hf'
    rw [build] at ih ⊢
    rw [List.foldl_append, ih, keys_snoc]
    refine upsert_map nodup_keys (fun i => key_value hnew hf') (fun hno => ?_) ?_ fun i hi => ?_
    · exact value_new fun b hb he => hno (mem_keys.2 ⟨b, hb, he⟩)
    · rw [value_snoc, if_pos rfl]
    · rw [value_snoc, if_neg (Ne.symm hi)]

/-- The entry of a key. -/
theorem mem_build_iff (hnew : ∀ k, key (new k) = k) (hf : ∀ a ∈ acts, ∀ t, key (a.2 t) = key t)
    {t : τ} : t ∈ build key new acts ↔ key t ∈ keys acts ∧ t = value new acts (key t) := by
  rw [build_eq hnew hf, List.mem_map]
  constructor
  · rintro ⟨k, hk, rfl⟩
    rw [key_value hnew hf]
    exact ⟨hk, rfl⟩
  · rintro ⟨hk, ht⟩
    exact ⟨key t, hk, ht.symm⟩

/-- There is one entry for a key. -/
theorem eq_of_key (hnew : ∀ k, key (new k) = k) (hf : ∀ a ∈ acts, ∀ t, key (a.2 t) = key t)
    {t t' : τ} (ht : t ∈ build key new acts) (ht' : t' ∈ build key new acts)
    (he : key t = key t') : t = t' := by
  rw [mem_build_iff hnew hf] at ht ht'
  rw [ht.2, ht'.2, he]

end

section
variable {ι τ β : Type*} {apply : τ → ι → τ} {get : τ → β} {sets : ι → Bool} {v : ι → β}

/-- **The last action that sets a field decides it.** -/
theorem read_foldl (hget : ∀ t i, get (apply t i) = if sets i then v i else get t) (l : List ι)
    (t : τ) : get (l.foldl apply t) = ((l.filter sets).getLast?.map v).getD (get t) := by
  induction l using List.reverseRecOn with
  | nil => rfl
  | append_singleton l i ih =>
    rw [List.foldl_append, List.foldl_cons, List.foldl_nil, hget, List.filter_append]
    cases hi : sets i with
    | true => simp [hi]
    | false => simp [hi, ih]

end

end Keyed
