import LeechCore.ObMap.Iterate

/-!
# Threads sharing one map

The lock runs the threads' calls one at a time, in the order `interleave ts sched` picks. Fresh
pushes all land, and an iteration amid calls that spare what it has returned returns every value.
-/

namespace LeechCore.ObMap

set_option autoImplicit false

open ListModel

section Interleave

variable {α : Type}

/-- The calls of the threads `ts` in the order the schedule gives: at each step the thread it
names makes its next call, if it has one left. -/
def interleave : List (List α) → List Nat → List α
  | _, [] => []
  | ts, i :: sched =>
    match ts[i]? with
    | some (c :: rest) => c :: interleave (ts.set i rest) sched
    | _ => interleave ts sched

theorem flatten_perm_set :
    ∀ {ts : List (List α)} {i : Nat} {c : α} {rest : List α}, ts[i]? = some (c :: rest) →
      ts.flatten.Perm (c :: (ts.set i rest).flatten)
  | [], _, _, _, h => by cases h
  | t :: ts, 0, c, rest, h => by
    simp only [List.getElem?_cons_zero, Option.some.injEq] at h
    subst h
    exact .refl _
  | t :: ts, i + 1, c, rest, h => by
    simp only [List.getElem?_cons_succ] at h
    simp only [List.flatten_cons, List.set_cons_succ]
    exact ((flatten_perm_set h).append_left t).trans List.perm_middle

theorem interleave_subperm : ∀ (ts : List (List α)) (sched : List Nat),
    (interleave ts sched).Subperm ts.flatten
  | ts, [] => List.nil_subperm
  | ts, i :: sched => by
    unfold interleave
    split
    · rename_i c rest h
      exact ((List.subperm_cons c).mpr (interleave_subperm _ sched)).trans
        (flatten_perm_set h).symm.subperm
    · exact interleave_subperm ts sched

theorem sublist_interleave : ∀ (ts : List (List α)) (sched : List Nat),
    (interleave ts sched).length = ts.flatten.length → ∀ t ∈ ts, t.Sublist (interleave ts sched)
  | ts, [], hlen, t, ht => by
    have := (List.sublist_flatten_of_mem ht).length_le
    simp only [interleave, List.length_nil] at hlen
    have ht0 : t = [] := List.length_eq_zero.mp (by omega)
    rw [ht0]
    exact List.nil_sublist _
  | ts, i :: sched, hlen, t, ht => by
    cases h : ts[i]? with
    | none =>
      simp only [interleave, h] at hlen ⊢
      exact sublist_interleave ts sched hlen t ht
    | some l =>
      cases l with
      | nil =>
        simp only [interleave, h] at hlen ⊢
        exact sublist_interleave ts sched hlen t ht
      | cons c rest =>
        simp only [interleave, h] at hlen ⊢
        have hperm := flatten_perm_set h
        have hlen' : (interleave (ts.set i rest) sched).length = (ts.set i rest).flatten.length := by
          simp only [List.length_cons, hperm.length_eq] at hlen
          omega
        obtain ⟨j, hj, rfl⟩ := List.getElem_of_mem ht
        by_cases hji : j = i
        · subst hji
          have hi : ts[j] = c :: rest := by simpa [hj] using h
          rw [hi]
          exact (sublist_interleave _ sched hlen' rest
            (List.mem_iff_getElem.mpr ⟨j, by simpa using hj, by simp⟩)).cons₂ c
        · refine (sublist_interleave _ sched hlen' ts[j]
            (List.mem_iff_getElem.mpr ⟨j, by simpa using hj, ?_⟩)).cons c
          simp [List.getElem_set, Ne.symm hji]

end Interleave

theorem run_pushes : ∀ (l : List Entry) (m : Model),
    ((m.pairs ++ l).map Entry.v).Nodup → (∀ e ∈ l, e.v ≠ 0) →
    (m.keyed = true → ((m.pairs ++ l).map Entry.k).Nodup) → (m.pairs ++ l).length < 2 ^ 25 →
    ∀ {m' : Model} {rs : List Ret}, Model.Run m (l.map fun e => .push e.k e.v) m' rs →
      m' = { m with pairs := m.pairs ++ l } ∧ rs = l.map fun _ => .bool true
  | [], m, _, _, _, _, m', rs, hrun => by
    cases hrun
    exact ⟨by simp, rfl⟩
  | e :: l, m, hv, hv0, hk, hn, m', rs, hrun => by
    rcases hrun with _ | ⟨⟨rfl, rfl⟩, hrest⟩
    have hpush : m.push e.k e.v = ({ m with pairs := m.pairs ++ [e] }, true) := by
      rw [Model.push, if_pos]
      simp only [List.map_append, List.map_cons, List.nodup_append, List.nodup_cons,
        List.length_append, List.length_cons] at hv hk hn
      refine ⟨hv0 e (List.mem_cons_self e l), fun h => hv.2.2 h (List.mem_cons_self _ _),
        ?_, by omega⟩
      cases hkey : m.keyed
      · exact .inl rfl
      · exact .inr fun h => (hk hkey).2.2 h (List.mem_cons_self _ _)
    rw [hpush] at hrest ⊢
    have happ : m.pairs ++ [e] ++ l = m.pairs ++ e :: l := by simp
    obtain ⟨rfl, rfl⟩ := run_pushes l { m with pairs := m.pairs ++ [e] } (happ ▸ hv)
      (fun e' he' => hv0 e' (List.mem_cons_of_mem e he')) (fun h => happ ▸ hk h) (happ ▸ hn) hrest
    exact ⟨by simp [happ], rfl⟩

/-- Under every schedule, fresh pushes from all threads return `TRUE` and the map holds exactly the
pairs pushed, in the order they ran, each thread's in its own order. -/
theorem concurrent_pushes_land (flags : Flags)
    (hflags : (flags.objectOb && flags.objectLocalFree) = false) (ts : List (List Entry))
    (hv : (ts.flatten.map Entry.v).Nodup) (hv0 : ∀ e ∈ ts.flatten, e.v ≠ 0)
    (hk : flags.nokey = false → (ts.flatten.map Entry.k).Nodup) (hn : ts.flatten.length < 2 ^ 25 - 1)
    (sched : List Nat) :
    ∃ pm', (ObMap.empty flags).runCalls ((interleave ts sched).map fun e => .push e.k e.v) =
        some (pm', (interleave ts sched).map fun _ => .bool true) ∧
      (abs pm').pairs = interleave ts sched ∧
      ((interleave ts sched).length = ts.flatten.length →
        (abs pm').pairs.Perm ts.flatten ∧ ∀ t ∈ ts, t.Sublist (abs pm').pairs) := by
  obtain ⟨l, hp, hs⟩ := interleave_subperm ts sched
  obtain ⟨pm', rs, hrun, -, hmodel⟩ := (Reachable.empty hflags).inv.runCalls_refines
    ((interleave ts sched).map fun e => .push e.k e.v) (by simp [Call.InModel])
  have habs : abs (ObMap.empty flags) = ⟨!flags.nokey, []⟩ := by
    simp only [abs, ObMap.empty, liveEntries, Nat.sub_self, List.range_zero, List.map_nil]
  rw [habs] at hmodel
  have hvals : ((interleave ts sched).map Entry.v).Nodup :=
    (hp.map Entry.v).nodup_iff.mp (hv.sublist (hs.map _))
  have hkeys : flags.nokey = false → ((interleave ts sched).map Entry.k).Nodup := fun h =>
    (hp.map Entry.k).nodup_iff.mp ((hk h).sublist (hs.map _))
  have hlen : (interleave ts sched).length < 2 ^ 25 := by
    have := hs.length_le
    rw [hp.length_eq] at this
    omega
  obtain ⟨hm', rfl⟩ := run_pushes _ _ (by simpa using hvals)
    (fun e he => hv0 e (hs.subset (hp.symm.subset he)))
    (fun hkey => by simpa using hkeys (by simpa using hkey)) (by simpa using hlen) hmodel
  have hpairs : (abs pm').pairs = interleave ts sched := by rw [hm']; exact List.nil_append _
  refine ⟨pm', hrun, hpairs, fun hlen => ?_⟩
  rw [hpairs]
  exact ⟨List.Subperm.perm_of_length_le ⟨l, hp, hs⟩ hlen.ge, sublist_interleave ts sched hlen⟩

theorem concurrent_pushes_land_two_threads :
    (false && false) = false ∧
      (([[⟨1, 10⟩, ⟨2, 20⟩], [⟨3, 30⟩]] : List (List Entry)).flatten.map Entry.v).Nodup ∧
      (∀ e ∈ ([[⟨1, 10⟩, ⟨2, 20⟩], [⟨3, 30⟩]] : List (List Entry)).flatten, e.v ≠ 0) ∧
      (false = false →
        (([[⟨1, 10⟩, ⟨2, 20⟩], [⟨3, 30⟩]] : List (List Entry)).flatten.map Entry.k).Nodup) ∧
      ([[⟨1, 10⟩, ⟨2, 20⟩], [⟨3, 30⟩]] : List (List Entry)).flatten.length < 2 ^ 25 - 1 ∧
      ∃ pm', (ObMap.empty ⟨false, false, false⟩).runCalls
          ((interleave ([[⟨1, 10⟩, ⟨2, 20⟩], [⟨3, 30⟩]] : List (List Entry)) [1, 0, 0]).map
            fun e => .push e.k e.v) =
          some (pm', (interleave ([[⟨1, 10⟩, ⟨2, 20⟩], [⟨3, 30⟩]] : List (List Entry))
            [1, 0, 0]).map fun _ => .bool true) ∧
        (abs pm').pairs = interleave ([[⟨1, 10⟩, ⟨2, 20⟩], [⟨3, 30⟩]] : List (List Entry)) [1, 0, 0] ∧
        ((interleave ([[⟨1, 10⟩, ⟨2, 20⟩], [⟨3, 30⟩]] : List (List Entry)) [1, 0, 0]).length =
            ([[⟨1, 10⟩, ⟨2, 20⟩], [⟨3, 30⟩]] : List (List Entry)).flatten.length →
          (abs pm').pairs.Perm ([[⟨1, 10⟩, ⟨2, 20⟩], [⟨3, 30⟩]] : List (List Entry)).flatten ∧
          ∀ t ∈ ([[⟨1, 10⟩, ⟨2, 20⟩], [⟨3, 30⟩]] : List (List Entry)), t.Sublist (abs pm').pairs) :=
  ⟨rfl, by decide, by decide, by decide, by decide,
    concurrent_pushes_land ⟨false, false, false⟩ rfl _ (by decide) (by decide) (by decide)
      (by decide) [1, 0, 0]⟩

section Amid

/-- One thread iterating the map by `ObMap_GetNext` while other threads make their calls: the
map, the value the iteration passes back next, the values it has returned, and whether it has
met `NULL`. -/
structure Iteration where
  pm : ObMap
  prev : UInt64
  out : List UInt64
  done : Bool

/-- The iteration before its first call. -/
def Iteration.start (pm : ObMap) : Iteration := ⟨pm, 0, [], false⟩

/-- The calls of other threads that remove no pair the iteration has returned. -/
def Call.spares (m : Model) (out : List UInt64) : Call → Bool
  | .remove v => decide (v ∉ out)
  | .removeByKey k => decide (∀ e ∈ m.pairs, e.k = k → e.v ∉ out)
  | .pop | .popWithKey => decide (m.last.v ∉ out)
  | .removeByFilter _ | .clear | .sortEntryIndex _ | .sortEntryIndexByKey => out.isEmpty
  | _ => true

/-- The calls the lock lets in one at a time while the iteration runs: its own next
`ObMap_GetNext`, or a call the list model describes, of another thread, that `admits` allows,
every allocation succeeding. -/
inductive Iteration.Step (admits : Model → List UInt64 → Call → Bool) : Iteration → Iteration → Prop
  | next {pm pm' : ObMap} {prev v : UInt64} {out : List UInt64} :
      pm.getNext prev = some (pm', v) →
      Step admits ⟨pm, prev, out, false⟩ ⟨pm', v, if v = 0 then out else out ++ [v], decide (v = 0)⟩
  | other {pm pm' : ObMap} {prev : UInt64} {out : List UInt64} {c : Call} {r : Ret} :
      c.InModel = true → admits (abs pm) out c = true → pm.call allocOk c = some (pm', r) →
      Step admits ⟨pm, prev, out, false⟩ ⟨pm', prev, out, false⟩

theorem length_le_of_not_mem {l : List Entry} {out : List UInt64} (hout : out <+: l.map Entry.v)
    {j : Nat} (hj : j < l.length) (hv : l[j].v ∉ out) : out.length ≤ j := by
  by_contra hlt
  have he : out[j] = l[j].v := by
    rw [hout.getElem (by omega), List.getElem_map]
  exact hv (he ▸ List.getElem_mem _)

theorem returned_swapRemove {l : List Entry} {out : List UInt64} (hout : out <+: l.map Entry.v)
    {j : Nat} (hj : j < l.length) (hv : l[j].v ∉ out) : out <+: (swapRemove l j).map Entry.v := by
  have hn := length_le_of_not_mem hout hj hv
  rw [List.prefix_iff_eq_take] at hout ⊢
  rwa [← List.map_take, take_swapRemove l hn hj, List.map_take]

theorem returned_removeFound {m : Model} {out : List UInt64} (hout : out <+: m.values)
    {o : Option Nat} (ho : ∀ j ∈ o, ∃ hj : j < m.pairs.length, m.pairs[j].v ∉ out) :
    out <+: (m.removeFound o).1.values := by
  cases o with
  | none => exact hout
  | some j =>
    obtain ⟨hj, hv⟩ := ho j rfl
    exact returned_swapRemove hout hj hv

theorem returned_pop {m : Model} {out : List UInt64} (hout : out <+: m.values)
    (hl : m.last.v ∉ out) : out <+: m.pop.1.values := by
  unfold Model.pop
  cases h : m.pairs.getLast? with
  | none => exact hout
  | some e =>
    have he : m.last = e := by simp [Model.last, List.getLastD_eq_getLast?, h]
    rw [Model.values, ← List.dropLast_append_getLast? e h, List.map_append, List.map_singleton,
      List.prefix_concat_iff] at hout
    rcases hout with hout | hout
    · exact absurd (hout ▸ List.mem_concat_self _ _) (he ▸ hl)
    · exact hout

theorem returned_concat {l out : List UInt64} (hout : out <+: l) (hj : out.length < l.length) :
    out ++ [l[out.length]] <+: l :=
  List.prefix_iff_eq_take.mpr (by rw [List.length_append, List.length_singleton,
    ← List.take_concat_get' _ _ hj, ← List.prefix_iff_eq_take.mp hout])

theorem keeps_returned_of_spares {m m' : Model} {c : Call} {r : Ret} (hs : m.Step c m' r)
    {out : List UInt64} (hsp : c.spares m out = true) (hout : out <+: m.values) :
    out <+: m'.values := by
  cases c with
  | push k v =>
    rw [hs.1, Model.push]
    split_ifs
    · exact hout.trans (by simp [Model.values])
    · exact hout
  | remove v =>
    rw [hs.1]
    refine returned_removeFound hout fun j hj => ?_
    obtain ⟨hjl, hjv, -⟩ := List.findIdx?_eq_some_iff_getElem.mp hj
    exact ⟨hjl, by simpa [Call.spares, beq_iff_eq.mp hjv] using hsp⟩
  | removeByKey k =>
    rw [hs.1]
    refine returned_removeFound hout fun j hj => ?_
    rw [Model.indexOfKey] at hj
    split_ifs at hj
    · obtain ⟨hjl, hjk, -⟩ := List.findIdx?_eq_some_iff_getElem.mp hj
      exact ⟨hjl, of_decide_eq_true hsp _ (List.getElem_mem _) (beq_iff_eq.mp hjk)⟩
    · exact absurd hj (Option.not_mem_none j)
  | pop | popWithKey => rw [hs.1]; exact returned_pop hout (of_decide_eq_true hsp)
  | removeByFilter _ | clear | sortEntryIndex _ | sortEntryIndexByKey =>
    rw [List.isEmpty_iff.mp hsp]; exact List.nil_prefix
  | pushCopy | getNextByKeySorted | getNextByIndex => exact hs.elim
  | _ => rw [hs.1]; exact hout

theorem iterPos_returned {m : Model} {out : List UInt64} (hout : out <+: m.values) :
    IterPos m out.length (out.getLastD 0) := by
  refine ⟨by simpa [Model.values] using hout.length_le, ?_⟩
  rcases List.eq_nil_or_concat out with rfl | ⟨L, x, rfl⟩
  · rfl
  · have hlen : L.length < m.pairs.length := by simpa [Model.values] using hout.length_le
    have hx := hout.getElem (n := L.length) (by simp)
    simp only [List.concat_eq_append, List.getElem_concat_length, Model.values, List.getElem_map] at hx
    simp [hx, Model.at_eq_getElem hlen]

namespace Iteration

/-- What holds at every point of an iteration whose returned pairs the other threads spare. -/
structure Sound (it : Iteration) : Prop where
  reachable : Reachable it.pm
  returned : it.out <+: (abs it.pm).values
  prev : it.done = false → it.prev = it.out.getLastD 0
  all : it.done = true → it.out = (abs it.pm).values

variable {pm : ObMap}

theorem Sound.start (h : Reachable pm) : (start pm).Sound :=
  ⟨h, List.nil_prefix, fun _ => rfl, nofun⟩

theorem Sound.step {it it' : Iteration} (hs : it.Sound) (hst : Step Call.spares it it') :
    it'.Sound := by
  cases hst with
  | @next pm pm' prev v out hg =>
    have hi := hs.reachable.inv
    obtain ⟨r, hr, hcore, hrv⟩ := hi.getNext_abs prev
    obtain rfl : r = (pm', v) := Option.some.inj (hr.symm.trans hg)
    have habs : abs pm' = abs pm := abs_eq_of_core hcore
    have hreach : Reachable pm' := .call hs.reachable (c := .getNext prev) (r := .qword v)
      (by simp [ObMap.call, hg])
    have hp : prev = out.getLastD 0 := hs.prev rfl
    have hpos : IterPos (abs pm) out.length prev := hp ▸ iterPos_returned hs.returned
    have hv : v = ((abs pm).at_ out.length).v :=
      hrv.trans (hi.nextStep_of_iterPos (fun hb : false = true => nomatch hb) hpos)
    by_cases hlt : out.length < (abs pm).pairs.length
    · have hv0 : v ≠ 0 := fun h0 => hi.zero_not_mem_values (by
        rw [← h0, hv, Model.at_eq_getElem hlt]
        exact List.mem_map_of_mem _ (List.getElem_mem _))
      have hlt' : out.length < (abs pm).values.length := by simpa [Model.values] using hlt
      have hvl : v = (abs pm).values[out.length] := by
        rw [hv, Model.at_eq_getElem hlt]; simp [Model.values]
      simp only [if_neg hv0, decide_eq_false hv0]
      refine ⟨hreach, habs ▸ hvl ▸ returned_concat hs.returned hlt', fun _ => by simp,
        nofun⟩
    · have hv0 : v = 0 := by rw [hv, Model.at_of_length_le (by omega)]
      subst hv0
      simp only [if_pos rfl, decide_True]
      refine ⟨hreach, habs ▸ hs.returned, nofun, fun _ => ?_⟩
      rw [habs]
      exact hs.returned.eq_of_length
        (le_antisymm hs.returned.length_le (by simpa [Model.values] using hlt))
  | other hc hsp hcall =>
    obtain ⟨pm'', r', hcall', hstep⟩ := hs.reachable.inv.refines _ hc
    obtain ⟨rfl, rfl⟩ := Prod.mk.inj (Option.some.inj (hcall.symm.trans hcall'))
    exact ⟨.call hs.reachable hcall, keeps_returned_of_spares hstep hsp hs.returned, fun _ => hs.prev rfl,
      nofun⟩

theorem Sound.run {it it' : Iteration} (hs : it.Sound)
    (hrun : Relation.ReflTransGen (Step Call.spares) it it') : it'.Sound := by
  induction hrun with
  | refl => exact hs
  | tail _ hst ih => exact ih.step hst

theorem Step.of_call {a : Model → List UInt64 → Call → Bool} (h : pm.Inv) (prev : UInt64)
    (out : List UInt64) {c : Call} (hc : c.InModel = true) (ha : a (abs pm) out c = true) :
    ∃ pm' r, pm'.Inv ∧ (abs pm).Step c (abs pm') r ∧ Step a ⟨pm, prev, out, false⟩ ⟨pm', prev, out, false⟩ := by
  obtain ⟨pm', r, hcall, hs⟩ := h.refines c hc
  exact ⟨pm', r, h.call hcall, hs, .other hc ha hcall⟩

theorem Step.of_getNext {a : Model → List UInt64 → Call → Bool} (h : pm.Inv) (prev : UInt64)
    (out : List UInt64) {v : UInt64} (hv : (abs pm).getNext prev = v) :
    ∃ pm', pm'.Inv ∧ abs pm' = abs pm ∧
      Step a ⟨pm, prev, out, false⟩ ⟨pm', v, if v = 0 then out else out ++ [v], decide (v = 0)⟩ := by
  obtain ⟨r, hr, hcore, hrv⟩ := h.getNext_abs prev
  refine ⟨r.1, h.of_core hcore, abs_eq_of_core hcore, ?_⟩
  rw [← hv, ← hrv]
  exact .next hr

end Iteration

/-- An iteration amid other threads' calls that spare what it has returned returns the map's first
values in order, each once, and all of them when it meets `NULL`. -/
theorem iteration_spared_returns_all (pm : ObMap) (h : Reachable pm) {it : Iteration}
    (hrun : Relation.ReflTransGen (Iteration.Step Call.spares) (Iteration.start pm) it) :
    Reachable it.pm ∧ it.out <+: (abs it.pm).values ∧ it.out.Nodup ∧
      (it.done = true → it.out = (abs it.pm).values) ∧
      (it.done = false → ∃ pm' v, it.pm.getNext it.prev = some (pm', v)) := by
  have hs := (Iteration.Sound.start h).run hrun
  obtain ⟨r, hr, -⟩ := hs.reachable.inv.getNext_abs it.prev
  exact ⟨hs.reachable, hs.returned, hs.returned.sublist.nodup hs.reachable.inv.values_nodup, hs.all,
    fun _ => ⟨r.1, r.2, hr⟩⟩

theorem iteration_spared_returns_all_remove :
    ∃ it, Relation.ReflTransGen (Iteration.Step Call.spares)
        (Iteration.start (ObMap.empty ⟨false, false, false⟩)) it ∧ it.done = true ∧
      it.out = [10, 30] ∧ Reachable it.pm ∧ it.out <+: (abs it.pm).values ∧ it.out.Nodup ∧
      (it.done = true → it.out = (abs it.pm).values) ∧
      (it.done = false → ∃ pm' v, it.pm.getNext it.prev = some (pm', v)) := by
  have ha0 : abs (ObMap.empty ⟨false, false, false⟩) = ⟨true, []⟩ := by
    simp only [abs, ObMap.empty, liveEntries, Nat.sub_self, List.range_zero, List.map_nil]; rfl
  obtain ⟨pm1, _, h1, hs1, st1⟩ := Iteration.Step.of_call (a := Call.spares)
    (Inv.empty ⟨false, false, false⟩) 0 [] (c := .push 1 10) rfl rfl
  have ha1 : abs pm1 = ⟨true, [⟨1, 10⟩]⟩ := by rw [hs1.1, ha0]; rfl
  obtain ⟨pm2, _, h2, hs2, st2⟩ := Iteration.Step.of_call (a := Call.spares)
    h1 0 [] (c := .push 2 20) rfl rfl
  have ha2 : abs pm2 = ⟨true, [⟨1, 10⟩, ⟨2, 20⟩]⟩ := by rw [hs2.1, ha1]; rfl
  obtain ⟨pm3, _, h3, hs3, st3⟩ := Iteration.Step.of_call (a := Call.spares)
    h2 0 [] (c := .push 3 30) rfl rfl
  have ha3 : abs pm3 = ⟨true, [⟨1, 10⟩, ⟨2, 20⟩, ⟨3, 30⟩]⟩ := by rw [hs3.1, ha2]; rfl
  obtain ⟨pm4, h4, ha4, st4⟩ := Iteration.Step.of_getNext (a := Call.spares)
    h3 0 [] (v := 10) (by rw [ha3]; rfl)
  obtain ⟨pm5, _, h5, hs5, st5⟩ := Iteration.Step.of_call (a := Call.spares)
    h4 10 [10] (c := .remove 20) rfl (by rw [Call.spares]; decide)
  have ha5 : abs pm5 = ⟨true, [⟨1, 10⟩, ⟨3, 30⟩]⟩ := by rw [hs5.1, ha4, ha3]; rfl
  obtain ⟨pm6, h6, ha6, st6⟩ := Iteration.Step.of_getNext (a := Call.spares)
    h5 10 [10] (v := 30) (by rw [ha5]; rfl)
  obtain ⟨pm7, -, -, st7⟩ := Iteration.Step.of_getNext (a := Call.spares)
    h6 30 [10, 30] (v := 0) (by rw [ha6, ha5]; rfl)
  have hrun := ((((((Relation.ReflTransGen.single st1).tail st2).tail st3).tail st4).tail st5).tail
    st6).tail st7
  exact ⟨_, hrun, rfl, rfl,
    iteration_spared_returns_all (ObMap.empty ⟨false, false, false⟩) (.empty rfl) hrun⟩

end Amid

end LeechCore.ObMap
