import LeechCore.ObMap.Sorted

/-!
# The shared lock

The calls that take the `SRWLOCK` shared change nothing but the record of outward calls and do
not read it, so a run of them is each call alone on the starting map, in any order.
-/

namespace LeechCore.ObMap

set_option autoImplicit false

open Function

/-- Whether a public call takes the map's lock shared rather than exclusive. -/
def Call.shared : Call → Bool
  | .size | .exists_ _ | .existsKey _ | .getByIndex _ | .getByKey _ | .getNext _
  | .getNextByKey .. | .getNextByKeySorted .. | .getNextByIndex .. | .getKey _ | .peek
  | .peekKey | .filter => true
  | _ => false

/-- The map with the outward calls `t` recorded before those it has recorded. -/
def prefixTrace (t : List Effect) (pm : ObMap) : ObMap := { pm with trace := t ++ pm.trace }

/-- The map with the outward calls `es` recorded after those it has recorded. -/
def emitAll (pm : ObMap) (es : List Effect) : ObMap := { pm with trace := pm.trace ++ es }

variable {pm : ObMap} {t : List Effect}

section Frame

@[simp] theorem prefixTrace_fObjectsOb : (pm.prefixTrace t).fObjectsOb = pm.fObjectsOb := rfl

@[simp] theorem prefixTrace_c : (pm.prefixTrace t).c = pm.c := rfl

@[simp] theorem prefixTrace_getFromEntryIndex :
    (pm.prefixTrace t).getFromEntryIndex = pm.getFromEntryIndex := rfl

@[simp] theorem prefixTrace_getEntryIndexFromKeyOrValue :
    (pm.prefixTrace t).getEntryIndexFromKeyOrValue = pm.getEntryIndexFromKeyOrValue := rfl

@[simp] theorem prefixTrace_exists_ : (pm.prefixTrace t).exists_ = pm.exists_ := rfl

@[simp] theorem prefixTrace_getKey : (pm.prefixTrace t).getKey = pm.getKey := rfl

@[simp] theorem prefixTrace_qFind : (pm.prefixTrace t).qFind = pm.qFind := qFind_congr rfl rfl

@[simp] theorem prefixTrace_emit (e : Effect) : (pm.prefixTrace t).emit e = (pm.emit e).prefixTrace t := by
  simp only [prefixTrace, emit, List.append_assoc]

@[simp] theorem ite_prefixTrace (b : Prop) [Decidable b] (pm' : ObMap) :
    (if b then pm.prefixTrace t else pm'.prefixTrace t) = (if b then pm else pm').prefixTrace t := by
  split <;> rfl

@[simp] theorem prefixTrace_getByEntryIndex (i : Nat) :
    (pm.prefixTrace t).getByEntryIndex i =
      ((pm.getByEntryIndex i).1.prefixTrace t, (pm.getByEntryIndex i).2) := by
  simp only [getByEntryIndex, prefixTrace_emit, ite_prefixTrace, prefixTrace_getFromEntryIndex,
    prefixTrace_fObjectsOb]

@[simp] theorem prefixTrace_filter : (pm.prefixTrace t).filter = pm.filter.prefixTrace t := by
  simp only [filter, prefixTrace, List.append_assoc]

theorem prefixTrace_getByKey (k : UInt64) :
    (pm.prefixTrace t).getByKey k = (pm.getByKey k).map fun x => (x.1.prefixTrace t, x.2) := by
  simp only [getByKey, prefixTrace_getEntryIndexFromKeyOrValue, Option.map_map]
  congr 1; funext o; cases o <;> simp

theorem prefixTrace_getNext (v : UInt64) :
    (pm.prefixTrace t).getNext v = (pm.getNext v).map fun x => (x.1.prefixTrace t, x.2) := by
  by_cases hv : v = 0
  · simp [getNext, hv]
  simp only [getNext, hv, if_false, prefixTrace_fObjectsOb, prefixTrace_emit, ite_prefixTrace,
    prefixTrace_getEntryIndexFromKeyOrValue, Option.map_map]
  congr 1; funext o; cases o <;> simp

theorem prefixTrace_getNextByKey (k v : UInt64) :
    (pm.prefixTrace t).getNextByKey k v = (pm.getNextByKey k v).map fun x => (x.1.prefixTrace t, x.2) := by
  by_cases hv : v = 0
  · simp [getNextByKey, hv]
  simp only [getNextByKey, hv, if_false, prefixTrace_fObjectsOb, prefixTrace_emit, ite_prefixTrace,
    prefixTrace_getEntryIndexFromKeyOrValue, Option.map_map]
  congr 1; funext o; cases o <;> simp

theorem prefixTrace_getNextByKeySorted (k v : UInt64) :
    (pm.prefixTrace t).getNextByKeySorted k v =
      (pm.getNextByKeySorted k v).map fun x => (x.1.prefixTrace t, x.2) := by
  simp only [getNextByKeySorted, prefixTrace_fObjectsOb, prefixTrace_emit, ite_prefixTrace,
    prefixTrace_getEntryIndexFromKeyOrValue, prefixTrace_qFind, Option.map_map]
  congr 1; funext o; cases o <;> simp

theorem prefixTrace_getNextByIndex (idx : UInt32) (v : UInt64) :
    (pm.prefixTrace t).getNextByIndex idx v =
      ((pm.getNextByIndex idx v).1.prefixTrace t, (pm.getNextByIndex idx v).2) := by
  simp [getNextByIndex]

theorem call_prefixTrace {c : Call} (hc : c.shared = true) (alloc : AllocSite → Bool) :
    (pm.prefixTrace t).call alloc c = (pm.call alloc c).map fun x => (x.1.prefixTrace t, x.2) := by
  cases c <;> simp only [Call.shared, Bool.false_eq_true] at hc <;>
    simp [ObMap.call, Option.map_map, Function.comp_def, prefixTrace_getByKey, prefixTrace_getNext,
      prefixTrace_getNextByKey, prefixTrace_getNextByKeySorted, prefixTrace_getNextByIndex,
      getByIndex, peek, peekKey, size]

theorem core_call_shared {c : Call} (hc : c.shared = true) {alloc : AllocSite → Bool}
    {pm' : ObMap} {r : Ret} (h : pm.call alloc c = some (pm', r)) : pm'.core = pm.core := by
  cases c <;> simp only [Call.shared, Bool.false_eq_true] at hc <;>
    simp only [ObMap.call, Option.map_eq_some', Option.some.injEq, Prod.mk.injEq] at h
  case size | peekKey => rw [← h.1]
  case exists_ | existsKey | getKey => obtain ⟨_, -, rfl, -⟩ := h; rfl
  case getByIndex | peek => rw [← h.1]; exact core_getByEntryIndex _
  case getByKey => obtain ⟨_, hp, rfl, -⟩ := h; exact core_getByKey hp
  case getNext => obtain ⟨_, hp, rfl, -⟩ := h; exact core_getNext hp
  case getNextByKey => obtain ⟨_, hp, rfl, -⟩ := h; exact core_getNextByKey hp
  case getNextByKeySorted => obtain ⟨_, hp, rfl, -⟩ := h; exact core_getNextByKeySorted hp
  case getNextByIndex => rw [← h.1]; exact core_getNextByIndex _ _
  case filter => rw [← h.1]; exact core_filter

theorem eq_prefixTrace_core (pm : ObMap) : pm = pm.core.prefixTrace pm.trace := by
  cases pm; simp [core, prefixTrace]

@[simp] theorem core_emitAll (es : List Effect) : (pm.emitAll es).core = pm.core := rfl

theorem emitAll_nil : pm.emitAll [] = pm := by simp [emitAll]

theorem emitAll_emitAll (es es' : List Effect) :
    (pm.emitAll es).emitAll es' = pm.emitAll (es ++ es') := by
  simp [emitAll, List.append_assoc]

theorem prefixTrace_eq_emitAll {pm' : ObMap} (he : pm'.core = pm.core) :
    pm'.prefixTrace pm.trace = pm.emitAll pm'.trace := by
  cases pm; cases pm'; simp_all [core, prefixTrace, emitAll]

theorem call_shared {c : Call} (hc : c.shared = true) (alloc : AllocSite → Bool) :
    pm.call alloc c = (pm.core.call alloc c).map fun x => (pm.emitAll x.1.trace, x.2) := by
  have hpm := congrArg (fun q : ObMap => q.call alloc c) (eq_prefixTrace_core pm)
  simp only at hpm
  rw [hpm, call_prefixTrace hc]
  refine Option.map_congr fun x hx => ?_
  rw [prefixTrace_eq_emitAll (by rw [core_call_shared hc hx]; rfl)]

end Frame

section Runs

theorem mapM_perm {α β : Type} {f : α → Option β} {l l' : List α} (hp : l.Perm l') {xs : List β}
    (h : l.mapM f = some xs) :
    ∃ xs', l'.mapM f = some xs' ∧ (l'.zip xs').Perm (l.zip xs) ∧ xs'.Perm xs := by
  induction hp generalizing xs with
  | nil => exact ⟨xs, h, .refl _, .refl _⟩
  | cons a _ ih =>
    simp only [List.mapM_cons, Option.bind_eq_bind, Option.bind_eq_some, Option.pure_def,
      Option.some.injEq] at h
    obtain ⟨b, hb, ys, hys, rfl⟩ := h
    obtain ⟨ys', hys', hz, hp⟩ := ih hys
    exact ⟨b :: ys', by rw [List.mapM_cons, hb, hys']; rfl, hz.cons _, hp.cons _⟩
  | swap a a' l =>
    simp only [List.mapM_cons, Option.bind_eq_bind, Option.bind_eq_some, Option.pure_def,
      Option.some.injEq] at h
    obtain ⟨b', hb', _, ⟨b, hb, ys, hys, rfl⟩, rfl⟩ := h
    exact ⟨b :: b' :: ys, by rw [List.mapM_cons, List.mapM_cons, hb, hb', hys]; rfl, .swap _ _ _,
      .swap _ _ _⟩
  | trans _ _ ih₁ ih₂ =>
    obtain ⟨ys, hys, hz, hp⟩ := ih₁ h
    obtain ⟨zs, hzs, hz', hp'⟩ := ih₂ hys
    exact ⟨zs, hzs, hz'.trans hz, hp'.trans hp⟩

/-- A run of calls under the shared lock is each call reading the map the run started from: every
call answers and records what it would alone on that map, the outward calls are appended in the
order of the run, and nothing else changes. -/
theorem shared_run_reads_start (pm : ObMap) (cs : List Call) (hsh : ∀ c ∈ cs, c.shared = true) :
    pm.runCalls cs = (cs.mapM fun c => pm.core.call allocOk c).map fun xs =>
      (pm.emitAll (xs.flatMap fun x => x.1.trace), xs.map Prod.snd) := by
  induction cs generalizing pm with
  | nil => rw [List.mapM_nil]; simp [runCalls, emitAll_nil]
  | cons c cs ih =>
    rw [runCalls, call_shared (hsh c (List.mem_cons_self c cs)), List.mapM_cons]
    cases hx : pm.core.call allocOk c with
    | none => rfl
    | some x =>
      have ih' := ih (pm.emitAll x.1.trace) fun c' hc' => hsh c' (List.mem_cons_of_mem c hc')
      rw [core_emitAll] at ih'
      simp only [Option.map_some', Option.some_bind, ih', Option.map_map, Option.bind_eq_bind]
      cases (cs.mapM fun c => pm.core.call allocOk c) <;>
        simp [emitAll_emitAll]

theorem shared_run_reads_start_filled :
    (∀ c ∈ [Call.getByKey 4, .getNext 0, .peek], c.shared = true) ∧
      (filled ⟨false, true, false⟩ 2).runCalls [.getByKey 4, .getNext 0, .peek] =
        (([Call.getByKey 4, .getNext 0, .peek].mapM fun c =>
          (filled ⟨false, true, false⟩ 2).core.call allocOk c).map fun xs =>
            ((filled ⟨false, true, false⟩ 2).emitAll (xs.flatMap fun x => x.1.trace),
              xs.map Prod.snd)) ∧
      ((filled ⟨false, true, false⟩ 2).runCalls [.getByKey 4, .getNext 0, .peek]).map Prod.snd =
        some [.qword 2, .qword 1, .qword 2] :=
  ⟨by decide, shared_run_reads_start _ _ (by decide), by decide⟩

/-- Any reordering of a run of calls under the shared lock, on any map: when the run returns, so
does the reordered one; each call gets the same answer, and the two maps left differ only in
the order of the outward calls recorded, which are the same calls. -/
theorem shared_runs_commute (pm : ObMap) {cs cs' : List Call} (hperm : cs.Perm cs')
    (hsh : ∀ c ∈ cs, c.shared = true) {pm₁ : ObMap} {rs : List Ret}
    (hrun : pm.runCalls cs = some (pm₁, rs)) :
    ∃ pm₂ rs', pm.runCalls cs' = some (pm₂, rs') ∧ (cs'.zip rs').Perm (cs.zip rs) ∧
      pm₂.core = pm₁.core ∧ pm₂.trace.Perm pm₁.trace := by
  rw [shared_run_reads_start pm cs hsh, Option.map_eq_some'] at hrun
  obtain ⟨xs, hxs, he⟩ := hrun
  cases he
  obtain ⟨xs', hxs', hz, hp⟩ := mapM_perm hperm hxs
  refine ⟨pm.emitAll (xs'.flatMap fun x => x.1.trace), xs'.map Prod.snd,
    by rw [shared_run_reads_start pm cs' fun c hc => hsh c (hperm.mem_iff.mpr hc), hxs',
      Option.map_some'], ?_, rfl, ?_⟩
  · simpa only [List.zip_map_right] using hz.map (Prod.map id Prod.snd)
  · exact (hp.flatMap_right _).append_left _

theorem shared_runs_commute_getByKey_peek :
    ∃ pm₁ rs, (filled ⟨false, true, false⟩ 2).runCalls [.getByKey 2, .peek] = some (pm₁, rs) ∧
      ∃ pm₂ rs', (filled ⟨false, true, false⟩ 2).runCalls [.peek, .getByKey 2] = some (pm₂, rs') ∧
        ([Call.peek, .getByKey 2].zip rs').Perm ([Call.getByKey 2, .peek].zip rs) ∧
        pm₂.core = pm₁.core ∧ pm₂.trace.Perm pm₁.trace :=
  ⟨_, _, rfl, shared_runs_commute _ (.swap _ _ _) (by decide) rfl⟩

end Runs

end LeechCore.ObMap
