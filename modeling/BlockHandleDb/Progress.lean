import BlockHandleDb.Sequential

/-!
Progress of sequential use: outside `load_handle`'s retry loop a call's bound falls at each
step, and no `Drop` is pending after a sequential operation, so every call returns within the
four steps `seqStep` gives it.
-/
namespace BlockHandleDb

/-- The steps of `load_handle`'s loop. -/
def Pc.inLoadLoop : Pc → Bool
  | .loadGet .. | .loadUpgrade .. | .loadRead .. | .loadInsert .. => true
  | _ => false

/-- The most steps a call outside `load_handle`'s loop has left before it returns. -/
def Pc.bound : Pc → Nat
  | .fullGet _ | .stateGet .. => 3
  | .createInsert .. | .fullUpgrade .. | .dropRemove _ | .stateSave .. | .stateDrop ..
  | .stateRead .. => 2
  | .done _ => 0
  | _ => 1

theorem Api.start_bound (api : Api) : api.start.bound ≤ 4 := by
  cases api <;> exact Nat.le_of_ble_eq_true rfl

theorem Pc.isDone_of_bound {pc : Pc} (outside : pc.inLoadLoop = false) (zero : pc.bound = 0) :
    pc.isDone = true := by
  cases pc <;> simp_all [Pc.bound, Pc.inLoadLoop, Pc.isDone]

namespace Storage

variable {L : Lib} {s s' : Storage}

theorem exec_bound (s : Storage) {pc : Pc} (outside : pc.inLoadLoop = false)
    (running : pc.isDone = false) :
    (s.exec L pc).2.inLoadLoop = false ∧ (s.exec L pc).2.bound < pc.bound := by
  cases pc <;> simp only [Pc.inLoadLoop, Pc.isDone, Bool.true_eq_false] at outside running <;>
    simp only [exec] <;> (repeat' split) <;> exact ⟨rfl, Nat.le_of_ble_eq_true rfl⟩

theorem finish_done {t fuel : Nat} {api : Api} {r : Ret}
    (hc : s.calls[t]? = some (api, .done r)) : finish L t fuel s = some (s, r) := by
  cases fuel <;> simp only [finish, hc]

theorem finish_tick {t fuel : Nat} {api : Api} {pc : Pc} (hc : s.calls[t]? = some (api, pc))
    (running : pc.isDone = false) :
    finish L t (fuel + 1) s =
      finish L t fuel { (s.exec L pc).1 with calls := s.calls.set t (api, (s.exec L pc).2) } := by
  rw [finish]
  split
  · rename_i r done; rw [hc] at done; cases done; cases running
  · simp only [apply, hc, running, Bool.false_eq_true, ↓reduceIte, Option.some_bind]

theorem finish_of_bound {t fuel : Nat} {api : Api} {pc : Pc} (hc : s.calls[t]? = some (api, pc))
    (outside : pc.inLoadLoop = false) (le : pc.bound ≤ fuel) : ∃ p, finish L t fuel s = some p := by
  induction fuel generalizing s pc with
  | zero =>
    have done := Pc.isDone_of_bound outside (by omega)
    cases pc <;> simp only [Pc.isDone, Bool.false_eq_true] at done
    exact ⟨_, finish_done hc⟩
  | succ fuel ih =>
    cases running : pc.isDone
    · obtain ⟨outside', lower⟩ := exec_bound (L := L) s outside running
      obtain ⟨lt, -⟩ := List.getElem?_eq_some_iff.mp hc
      rw [finish_tick hc running]
      exact ih (List.getElem?_set_self lt) outside' (by omega)
    · cases pc <;> simp only [Pc.isDone, Bool.false_eq_true] at running
      exact ⟨_, finish_done hc⟩

theorem finish_of_ticks {t n fuel : Nat} {api : Api} {r : Ret} (le : n ≤ fuel)
    (run : s.run L (List.replicate n (.tick t)) = some s')
    (done : s'.calls[t]? = some (api, .done r)) : finish L t fuel s = some (s', r) := by
  induction n generalizing s fuel with
  | zero => cases run; exact finish_done done
  | succ n ih =>
    obtain ⟨s1, step, rest⟩ := run_cons_eq_some.mp run
    obtain ⟨api0, pc, hc, running, rfl⟩ := apply_tick step
    obtain ⟨fuel, rfl⟩ : ∃ f, fuel = f + 1 := ⟨fuel - 1, by omega⟩
    rw [finish_tick hc running]
    exact ih (by omega) rest

/-! ### No `Drop` pending after a sequential operation -/

theorem dying_of_drop {x y : Nat} (dying : ((s.apply L (.drop x)).getD s).Dying y) :
    s.Dying y ∧ y ≠ x := by
  cases step : s.apply L (.drop x) with
  | none =>
    rw [step, Option.getD_none] at dying
    refine ⟨dying, fun same => ?_⟩
    subst same
    have due : s.apply L (.drop y) = some (s.runDrop y) := if_pos dying
    rw [due] at step
    cases step
  | some s1 =>
    rw [step, Option.getD_some] at dying
    obtain ⟨⟨lt, -⟩, rfl⟩ := apply_drop step
    obtain ⟨lt', zero, fresh⟩ := dying
    rw [handle_runDrop s lt] at fresh
    by_cases same : y = x
    · simp [same] at fresh
    · simp only [same, ↓reduceIte] at fresh
      exact ⟨⟨by simpa using lt', by simpa using zero, fresh⟩, same⟩

theorem settle_not_dying (s : Storage) (h : Nat) : ¬ (s.settle L).Dying h := by
  have drops : ∀ (xs : List Nat) (s : Storage),
      (xs.foldl (fun s x => (s.apply L (.drop x)).getD s) s).Dying h → s.Dying h ∧ h ∉ xs := by
    intro xs
    induction xs with
    | nil => exact fun s dying => ⟨dying, List.not_mem_nil h⟩
    | cons x xs ih =>
      intro s dying
      obtain ⟨dying, later⟩ := ih _ dying
      obtain ⟨dying, ne⟩ := dying_of_drop dying
      exact ⟨dying, List.not_mem_cons_of_ne_of_not_mem ne later⟩
  intro dying
  obtain ⟨⟨lt, -⟩, missing⟩ := drops _ s dying
  exact missing (List.mem_range.mpr lt)

theorem seqStep_not_dying {op : Op} {r : Option Ret} (step : s.seqStep L op = some (s', r))
    (h : Nat) : ¬ s'.Dying h := by
  cases op with
  | call api =>
    obtain ⟨⟨s1, r1⟩, -, eq⟩ := Option.map_eq_some'.mp step
    obtain ⟨rfl, -⟩ := Prod.mk.inj eq
    exact settle_not_dying s1 h
  | release x | store =>
    obtain ⟨s1, -, eq⟩ := Option.map_eq_some'.mp step
    obtain ⟨rfl, -⟩ := Prod.mk.inj eq
    exact settle_not_dying s1 h

theorem seqRun_not_dying (start : ∀ h, ¬ s.Dying h) {ops : List Op} {rs : List (Option Ret)}
    (run : s.seqRun L ops = some (s', rs)) (h : Nat) : ¬ s'.Dying h := by
  induction ops generalizing s rs with
  | nil => cases run; exact start h
  | cons op ops ih =>
    obtain ⟨s1, r, rs', step, rest, rfl⟩ := seqRun_cons_eq_some.mp run
    exact ih (seqStep_not_dying step) rest

/-- After every operation of a sequential run from a fresh storage no `Drop` is pending, and
    every `handle_cache` entry names a live handle. -/
theorem sequential_cache_live {handleDb : UInt256 → Option Bytes}
    {stateDb : StateDb → String → Option Bytes} {ops : List Op} {rs : List (Option Ret)}
    (run : (init handleDb stateDb).seqRun L ops = some (s, rs)) :
    (∀ h, ¬ s.Dying h) ∧ ∀ k h, s.handleCache k = some h → 0 < s.strong h := by
  have settled : ∀ h, ¬ s.Dying h :=
    seqRun_not_dying (fun h dying => by simpa [init] using dying.1) run
  have wf := wf_of_reachable (reachable_seqRun ⟨handleDb, stateDb, [], rfl⟩ run)
  refine ⟨settled, fun k h entry => Nat.pos_of_ne_zero fun zero => settled h ?_⟩
  exact ⟨(wf.cache_root k h entry).1, zero, wf.cached_not_dropped k h entry⟩

/-- Create a handle and let the storer write it, release it (its `Drop` takes the entry out),
    and load it back from the DB. -/
def createReleaseReload : List Op :=
  [.call (.createHandle masterchainSample.1 masterchainSample.2), .store, .release 0,
    .call (.loadHandleById masterchainSample.1)]

theorem sequential_cache_live_after_reload :
    ∃ s rs, (init (fun _ => none) fun _ _ => none).seqRun plainLib createReleaseReload =
        some (s, rs) ∧
      (∀ h, ¬ s.Dying h) ∧ ∀ k h, s.handleCache k = some h → 0 < s.strong h :=
  ⟨_, _, rfl, @sequential_cache_live plainLib _ (fun _ => none) (fun _ _ => none)
    createReleaseReload _ rfl⟩

/-- In sequential use every call returns: from any state a sequential run reaches, a call of
    any API function (`save_handle` of a handle the caller holds) returns its result within
    the four steps `seqStep` gives it. -/
theorem sequential_calls_return {handleDb : UInt256 → Option Bytes}
    {stateDb : StateDb → String → Option Bytes} {ops : List Op} {rs : List (Option Ret)}
    (run : (init handleDb stateDb).seqRun L ops = some (s, rs)) (api : Api)
    (held : ∀ h, api = .saveHandle h → h ∈ s.clients) :
    ∃ s' r, s.seqStep L (.call api) = some (s', some r) := by
  have settled : ∀ h, ¬ s.Dying h :=
    seqRun_not_dying (fun h dying => by simpa [init] using dying.1) run
  obtain ⟨s0, start⟩ : ∃ s0, s.apply L (.call api) = some s0 := by
    cases api
    case saveHandle h => exact ⟨_, if_pos (held h rfl)⟩
    all_goals exact ⟨_, rfl⟩
  obtain ⟨heap, -, -, calls, strong⟩ := apply_call start
  have hc : s0.calls[s.calls.length]? = some (api, api.start) := by
    rw [calls]; exact List.getElem?_concat_length _ _
  suffices fin : ∃ p, finish L s.calls.length 4 s0 = some p by
    obtain ⟨⟨s', r⟩, fin⟩ := fin
    exact ⟨s'.settle L, r, by simp only [seqStep, start, Option.some_bind, fin, Option.map_some']⟩
  cases loop : api.start.inLoadLoop
  · exact finish_of_bound hc loop (Api.start_bound api)
  · obtain ⟨id, rhOnly, get⟩ : ∃ id rhOnly, api.start = .loadGet id rhOnly := by
      cases api <;> simp only [Api.start, Pc.inLoadLoop, Bool.false_eq_true] at loop ⊢
      all_goals exact ⟨_, _, rfl⟩
    have wf : s0.Wf := (wf_of_reachable (reachable_seqRun ⟨handleDb, stateDb, [], rfl⟩ run)).step start
    have settled0 : ∀ h, ¬ s0.Dying h := fun h ⟨lt, zero, fresh⟩ =>
      settled h ⟨heap ▸ lt, strong h ▸ zero, by simpa only [handle, heap] using fresh⟩
    obtain ⟨n, le, s', r, ticks, done⟩ := load_alone wf settled0 (get ▸ hc)
    exact ⟨_, finish_of_ticks le ticks done⟩

theorem sequential_calls_return_after_create :
    ∃ s rs, (init (fun _ => none) fun _ _ => none).seqRun plainLib
        [.call (.createHandle masterchainSample.1 masterchainSample.2)] = some (s, rs) ∧
      ∃ s' r, s.seqStep plainLib (.call (.loadHandleById masterchainSample.1)) = some (s', some r) :=
  ⟨_, _, rfl, @sequential_calls_return plainLib _ (fun _ => none) (fun _ _ => none)
    [.call (.createHandle masterchainSample.1 masterchainSample.2)] _ rfl _
    fun _ same => by cases same⟩

end Storage

end BlockHandleDb
