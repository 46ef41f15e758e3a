/-
  The table of the transports in memory (transport.c): the list `transports`,
  with the `tp_t` that are the data of its nodes.

  * `findTpByName`, `newTp`, `tpIniHandler`: the functions of `LoadConfig`,
    through pointers;
  * `Holds`: what is in memory is a list of transports;
  * `tpIniHandler_refines`: a call does to the memory what it does to the list;
    `iniTable_refines`: so do any calls, and then the look-ups agree.
-/
import SmtpProxy.Dllist.Refine
import SmtpProxy.LoadConfig

namespace SmtpProxy

open CString

/-- The lists and the `tp_t`; the list 0 is `transports`. -/
structure TpMemory where
  dllists : Dllists
  tps : Heap TpConf

namespace TpMemory

def transports : ℕ := 0

/-- With nothing allocated. -/
def empty : TpMemory := ⟨.empty, .empty⟩

/-- `findTpByName`; the name is lost if `data` is not a transport. -/
def findTpByName (tps : Heap TpConf) (idx : ℕ) (data : Option ℕ) (name : Option Bytes) :
    ℤ × Option Bytes :=
  match data.bind tps.get, name with
  | some tp, some name =>
    let (r, name) := tp.findTpByName idx name
    (r, some name)
  | _, _ => (0, none)

section
variable (s : TpMemory)

/-- `dllistVisit(transports, findTpByName, name)` -/
def lookUp (rounds : ℕ) (name : Bytes) : Option (Option ℕ) :=
  (s.dllists.dllistVisit (findTpByName s.tps) rounds transports (some name)).bind fun r =>
    r.1.arg.map fun _ => r.2

/-- `newTp`: the transport is appended; `calloc` returns new names. -/
def newTp (name : Bytes) : Option (TpMemory × ℕ) :=
  let tp := s.tps.fresh
  (s.dllists.dllistAppend transports tp s.dllists.heap.fresh).map fun dllists =>
    (⟨dllists, s.tps.alloc (SmtpProxy.newTp name)⟩, tp)

/-- The items of a transport, as `tpIniHandler` sets them. -/
def setItem (tp : ℕ) (name value : Bytes) : Option (Bool × TpMemory) :=
  (s.tps.get tp).bind fun k =>
    match k.setItem name value with
    | none => some (false, s)
    | some k' => (s.tps.write tp fun _ => k').map fun tps => (true, { s with tps := tps })

def tpIniHandler (rounds : ℕ) (i : IniItem) : Option (Bool × TpMemory) :=
  (s.lookUp rounds i.section_).bind fun tp =>
    match tp with
    | some tp => s.setItem tp i.name i.value
    | none => (s.newTp i.section_).bind fun r => r.1.setItem r.2 i.name i.value

end

/-- `transports` is the list of the transports `l`, which are at `tps`; there are
    no other lists. -/
structure Holds (s : TpMemory) (A : Seqs) (tps : List ℕ) (l : List TpConf) : Prop where
  represents : s.dllists.Represents A
  wf : A.Wf
  others : ∀ j, j ≠ transports → A.nodes j = []
  seq : A.seq transports = tps.map some
  nodup : tps.Nodup
  confs : tps.map s.tps.get = l.map some

section
variable {s : TpMemory} {A : Seqs} {tps : List ℕ} {l : List TpConf} {i : IniItem} {k tp : ℕ}
  {rounds : ℕ}

/-! ## The look-up -/

theorem Holds.length_eq (h : s.Holds A tps l) : tps.length = l.length := by
  have hlen := congrArg List.length h.confs
  rwa [List.length_map, List.length_map] at hlen

theorem Holds.get_of_get (h : s.Holds A tps l) (hk : tps[k]? = some tp) : s.tps.get tp = l[k]? := by
  have hget := congrArg (fun m => m[k]?) h.confs
  rw [List.getElem?_map, List.getElem?_map, hk, Option.map_some] at hget
  cases hl : l[k]? with
  | none => rw [hl] at hget; cases hget
  | some t =>
    rw [hl] at hget
    exact Option.some.inj hget

/-- **The look-up finds the place that the search in the list finds.** -/
theorem lookUp_eq (h : s.Holds A tps l) (hlt : l.length < rounds) (name : Bytes) :
    s.lookUp rounds name =
      some ((l.findIdx? fun tp => strcmp tp.name name).bind fun k => tps[k]?) := by
  have hnodes : (A.nodes transports).length = l.length := by
    have hlen := congrArg List.length h.seq
    rw [Seqs.seq, List.length_map, List.length_map] at hlen
    exact hlen.trans h.length_eq
  have hget : ∀ tp ∈ tps, ∃ t, s.tps.get tp = some t := by
    intro tp htp
    have hmem : s.tps.get tp ∈ l.map some := h.confs ▸ List.mem_map_of_mem htp
    obtain ⟨t, -, ht⟩ := List.mem_map.1 hmem
    exact ⟨t, ht.symm⟩
  -- what the handler answers, on the pointers of the list
  have hhandler : ∀ idx, ∀ d ∈ tps.map some, findTpByName s.tps idx d (some name) =
      (if (d.bind s.tps.get).any fun tp => strcmp tp.name name then 0 else 1, some name) := by
    intro idx d hd
    obtain ⟨tp, htp, rfl⟩ := List.mem_map.1 hd
    obtain ⟨t, ht⟩ := hget tp htp
    simp [findTpByName, TpConf.findTpByName, ht]
  obtain ⟨hfound, harg⟩ := Visit.visit_found hhandler 0
  have hjoin : ∀ o : Option ℕ, (o.map some).join = o := by
    intro o
    cases o <;> rfl
  have hidx : (tps.findIdx? fun tp => (s.tps.get tp).any fun tp => strcmp tp.name name) =
      l.findIdx? fun tp => strcmp tp.name name := by
    have hconfs := congrArg
      (List.findIdx? fun t : Option TpConf => t.any fun tp => strcmp tp.name name) h.confs
    rw [List.findIdx?_map, List.findIdx?_map] at hconfs
    exact hconfs
  rw [lookUp, Dllists.dllistVisit_eq h.represents _ (hnodes ▸ hlt), h.seq, Option.bind_some, harg,
    Option.map_some, hfound, List.find?_map, ← hidx, ← List.find?_eq_bind_findIdx?_getElem?]
  exact congrArg some (hjoin _)

/-! ## One call -/

/-- Setting an item of a transport of the list. -/
theorem setItem_refines {t : TpConf} (h : s.Holds A tps l) (hk : tps[k]? = some tp)
    (ht : l[k]? = some t) : ∃ s', s.setItem tp i.name i.value =
      some ((t.setItem i.name i.value).isSome, s') ∧
      s'.Holds A tps (l.modify k fun t => t.apply i) := by
  have hget : s.tps.get tp = some t := (h.get_of_get hk).trans ht
  obtain ⟨hlt, htk⟩ := List.getElem?_eq_some_iff.1 ht
  have hmod : l.modify k (fun t => t.apply i) = l.set k (t.apply i) := by
    rw [List.modify_eq_set_get _ hlt, ← htk]
    rfl
  rw [setItem, hget, Option.bind_some, hmod, TpConf.apply]
  cases hset : t.setItem i.name i.value with
  | none =>
    rw [Option.getD_none, ← htk, List.set_getElem_self]
    exact ⟨s, rfl, h⟩
  | some t' =>
    obtain ⟨heap, hw, hheap, -⟩ := Heap.write_of_get (fun _ => t') hget
    refine ⟨{ s with tps := heap }, by simp [hw], { h with confs := ?_ }⟩
    have hmem : tp ∈ tps := List.mem_of_getElem? hk
    obtain ⟨hlt', htp⟩ := List.getElem?_eq_some_iff.1 hk
    have hidx : tps.idxOf tp = k := by rw [← htp, h.nodup.idxOf_getElem k hlt']
    change tps.map heap.get = _
    rw [hheap, h.nodup.map_update, if_pos hmem, h.confs, hidx, ← List.map_set]
    rfl

/-- A new transport. -/
theorem newTp_refines (h : s.Holds A tps l) (name : Bytes) :
    ∃ s' A', s.newTp name = some (s', s.tps.fresh) ∧
      s'.Holds A' (tps ++ [s.tps.fresh]) (l ++ [SmtpProxy.newTp name]) := by
  have hnew : s.tps.fresh ∉ tps := by
    intro hmem
    have hget : s.tps.get s.tps.fresh ∈ l.map some := h.confs ▸ List.mem_map_of_mem hmem
    rw [s.tps.get_fresh] at hget
    simp at hget
  have ha : A.Allowed (.append transports s.tps.fresh s.dllists.heap.fresh) := by
    refine ⟨by rw [← h.represents.data, Heap.get_fresh, Option.map_none], fun j m hm hd => ?_⟩
    by_cases hj : j = transports
    · subst hj
      have hmem : some s.tps.fresh ∈ A.seq transports := List.mem_map.2 ⟨m, hm, by rw [hd]; rfl⟩
      rw [h.seq] at hmem
      exact hnew (by simpa using hmem)
    · rw [h.others j hj] at hm
      cases hm
  obtain ⟨d, hd, hR, -⟩ := Dllists.represents_append h.represents ha h.wf
  refine ⟨⟨d, s.tps.alloc (SmtpProxy.newTp name)⟩, _, by rw [newTp, hd]; rfl, hR,
    Seqs.wf_step h.wf ha, fun j hj => ?_, ?_, ?_, ?_⟩
  · exact (Seqs.nodes_add_of_ne hj).trans (h.others j hj)
  · rw [Seqs.seq_append h.wf ha, h.seq, List.map_append]
    rfl
  · exact List.nodup_append.2 ⟨h.nodup, by simp, fun x hx y hy he => by
      rw [he, List.mem_singleton.1 hy] at hx
      exact hnew hx⟩
  · have hold : tps.map (s.tps.alloc (SmtpProxy.newTp name)).get = tps.map s.tps.get := by
      refine List.map_congr_left fun x hx => ?_
      rw [Heap.get_alloc, if_neg]
      rintro rfl
      exact hnew hx
    rw [List.map_append, List.map_append, hold, h.confs]
    simp [Heap.get_alloc]

/-- **A call does to the memory what it does to the list**, and returns the same. -/
theorem tpIniHandler_refines (h : s.Holds A tps l) (hlt : l.length < rounds) (i : IniItem) :
    ∃ s' A' tps', s.tpIniHandler rounds i = some ((SmtpProxy.tpIniHandler l i).1, s') ∧
      s'.Holds A' tps' (SmtpProxy.tpIniHandler l i).2 := by
  rw [tpIniHandler, lookUp_eq h hlt, Option.bind_some]
  cases hfind : l.findIdx? fun tp => strcmp tp.name i.section_ with
  | none =>
    obtain ⟨u, A', hu, hU⟩ := newTp_refines h i.section_
    have hk : (tps ++ [s.tps.fresh])[l.length]? = some s.tps.fresh := by
      rw [← h.length_eq]
      simp
    have ht : (l ++ [SmtpProxy.newTp i.section_])[l.length]? = some (SmtpProxy.newTp i.section_) := by
      simp
    obtain ⟨s', hs', hS'⟩ := setItem_refines (i := i) hU hk ht
    rw [tpIniHandler_new hfind]
    refine ⟨s', A', _, ?_, hS'⟩
    rw [Option.bind_none]
    dsimp only
    rw [hu, Option.bind_some, hs']
  | some k =>
    obtain ⟨hk, -⟩ := List.findIdx?_eq_some_iff_getElem.1 hfind
    have hk' : k < tps.length := h.length_eq ▸ hk
    obtain ⟨s', hs', hS'⟩ := setItem_refines (i := i) h (List.getElem?_eq_getElem hk')
      (List.getElem?_eq_getElem hk)
    rw [tpIniHandler_found hfind (List.getElem?_eq_getElem hk)]
    refine ⟨s', A, tps, ?_, hS'⟩
    rw [Option.bind_some, List.getElem?_eq_getElem hk']
    exact hs'

/-! ## Any calls -/

theorem length_tpIniHandler : (SmtpProxy.tpIniHandler l i).2.length ≤ l.length + 1 := by
  cases hfind : l.findIdx? fun tp => strcmp tp.name i.section_ with
  | none =>
    rw [tpIniHandler_new hfind]
    simp
  | some k =>
    obtain ⟨hk, -⟩ := List.findIdx?_eq_some_iff_getElem.1 hfind
    rw [tpIniHandler_found hfind (List.getElem?_eq_getElem hk)]
    simp

/-- With enough rounds, there are enough for every look-up on the way. -/
theorem rounds_suffice {calls : List IniItem} (h : l.length + calls.length < rounds) :
    Runs.Guarded (fun l i => (SmtpProxy.tpIniHandler l i).2) (fun l _ => l.length < rounds) l calls ∧
      (SmtpProxy.iniTable l calls).length < rounds := by
  induction calls generalizing l with
  | nil => exact ⟨trivial, h⟩
  | cons i calls ih =>
    rw [List.length_cons] at h
    have hle : (SmtpProxy.tpIniHandler l i).2.length ≤ l.length + 1 := length_tpIniHandler
    obtain ⟨hg, hlt⟩ := ih (l := (SmtpProxy.tpIniHandler l i).2) (by omega)
    exact ⟨⟨by omega, hg⟩, hlt⟩

theorem holds_empty : empty.Holds Dllists.empty.seqs [] [] where
  represents := Dllists.represents_seqs fun _ => rfl
  wf := Dllists.wf_seqs
  others _ _ := rfl
  seq := rfl
  nodup := List.nodup_nil
  confs := rfl

/-- The search in the memory is the search in the list. -/
theorem lookUp_refines (h : s.Holds A tps l) (hlt : l.length < rounds) (name : Bytes) :
    ∃ tp, s.lookUp rounds name = some tp ∧ tp.bind s.tps.get = SmtpProxy.lookUp l name := by
  refine ⟨_, lookUp_eq h hlt name, ?_⟩
  rw [SmtpProxy.lookUp_eq, List.find?_eq_bind_findIdx?_getElem?, Option.bind_assoc]
  refine Option.bind_congr fun k hfind => ?_
  obtain ⟨hk, -⟩ := List.findIdx?_eq_some_iff_getElem.1 hfind
  have hk' : k < tps.length := h.length_eq ▸ hk
  rw [List.getElem?_eq_getElem hk', Option.bind_some]
  exact h.get_of_get (List.getElem?_eq_getElem hk')

end

/-- The memory after the calls that the parser makes. -/
def iniTable (rounds : ℕ) (calls : List IniItem) : Option TpMemory :=
  Runs.exec (fun s i => (s.tpIniHandler rounds i).map Prod.snd) empty calls

/-- **The table in memory is the table of the calls**, and the look-up by
    `dllistVisit` and `findTpByName` finds there what it finds in the table. -/
theorem iniTable_refines {rounds : ℕ} (calls : List IniItem) (h : calls.length < rounds) :
    ∃ s A tps, iniTable rounds calls = some s ∧ s.Holds A tps (SmtpProxy.iniTable [] calls) ∧
      ∀ name, ∃ tp, s.lookUp rounds name = some tp ∧
        tp.bind s.tps.get = SmtpProxy.lookUp (SmtpProxy.iniTable [] calls) name := by
  obtain ⟨hg, hlt⟩ := rounds_suffice (l := []) (by simpa using h)
  have hempty : ∃ A tps, empty.Holds A tps [] := ⟨_, _, holds_empty⟩
  have hstep : ∀ (s : TpMemory) (l : List TpConf) (i : IniItem), (∃ A tps, s.Holds A tps l) →
      l.length < rounds → ∃ s', (s.tpIniHandler rounds i).map Prod.snd = some s' ∧
        ∃ A tps, s'.Holds A tps (SmtpProxy.tpIniHandler l i).2 := by
    rintro s l i ⟨A, tps, hR⟩ hi
    obtain ⟨s', A', tps', hs', hR'⟩ := tpIniHandler_refines hR hi i
    exact ⟨s', by rw [hs', Option.map_some], A', tps', hR'⟩
  obtain ⟨s, hs, A, tps, hR⟩ := Runs.exec_refines hstep hempty hg
  exact ⟨s, A, tps, hs, hR, lookUp_refines hR hlt⟩

theorem iniTable_refines_relay : ∃ s A tps, iniTable 8 relayCalls = some s ∧
    s.Holds A tps (SmtpProxy.iniTable [] relayCalls) ∧
    ∃ tp, s.lookUp 8 (bytes "relay") = some tp ∧ (tp.bind s.tps.get).map TpConf.maxConn = some 2 := by
  obtain ⟨s, A, tps, hs, hR, hlook⟩ := @iniTable_refines 8 relayCalls (by decide)
  obtain ⟨tp, htp, hconf⟩ := hlook (bytes "relay")
  refine ⟨s, A, tps, hs, hR, tp, htp, ?_⟩
  rw [hconf]
  decide +kernel

end TpMemory

end SmtpProxy
