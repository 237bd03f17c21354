import BlockHandleDb.Sequential

/-!
`drop_handle` and what follows it. Until the storer takes the `DropHandle` job a load reads the
record back; once it has, the root hash is gone and stays gone until a `create_handle` or
`save_handle` brings it back.
-/
namespace BlockHandleDb.Storage

variable {L : Lib} {s s' : Storage} {rh : UInt256} {n0 : Nat}

/-- Where a call about a gone root hash may stand: at no step that inserts or returns a
    handle of it, and done only with nothing found. -/
def Clear : Pc → Prop
  | .createInsert _ _ | .createSend _ | .loadInsert _ _ _ | .fullRelease _ => False
  | .loadUpgrade _ _ weak | .fullUpgrade _ weak => weak = none
  | .done r => r = .handle none ∨ r = .fullId none ∨ r = .unit
  | _ => True

/-- `rh` is gone, and every call about it from number `n0` on has found nothing. -/
structure Gone (rh : UInt256) (n0 : Nat) (s : Storage) : Prop where
  no_entry : s.handleCache rh = none
  no_record : s.handleDb rh = none
  no_save_queued : ∀ h, StoreJob.saveHandle h ∈ s.queue → (s.handle h).id.rootHash ≠ rh
  no_save_call : ∀ (t : Nat) (api : Api) (h : Nat), s.calls[t]? = some (api, .saveSend h) →
    (s.handle h).id.rootHash ≠ rh
  started : n0 ≤ s.calls.length
  clear : ∀ (t : Nat) (api : Api) (pc : Pc), s.calls[t]? = some (api, pc) →
    api.rootHash? = some rh → (pc.isDone = false ∨ n0 ≤ t) → Clear pc

/-- The events that bring a gone root hash back: a `create_handle` for it, a `save_handle`
    of a handle of it. -/
def Revives (rh : UInt256) (s : Storage) : Event → Prop
  | .call (.createHandle id _) => id.rootHash = rh
  | .call (.saveHandle h) => (s.handle h).id.rootHash = rh
  | _ => False

theorem Clear.exec (gone : s.Gone rh n0) {pc : Pc} (carried : s.OnRoot (some rh) pc)
    (clear : Clear pc) (notDone : pc.isDone = false) : Clear (s.exec L pc).2 := by
  have entry := gone.no_entry
  have record := gone.no_record
  cases pc <;> simp_all [Clear, OnRoot, Storage.exec, Pc.isDone]

theorem saveSend_allocated (wf : s.Wf) {t : Nat} {api : Api} {h : Nat}
    (hc : s.calls[t]? = some (api, .saveSend h)) : h < s.heap.length :=
  wf.live_allocated h (holds_strong_pos hc (by simp [Pc.holds]))

theorem queued_strong_pos {h : Nat} (mem : StoreJob.saveHandle h ∈ s.queue) : 0 < s.strong h := by
  have : 0 < s.queue.countP (StoreJob.holds h) :=
    List.countP_pos_iff.mpr ⟨_, mem, by simp [StoreJob.holds]⟩
  simp only [strong]; omega

theorem queued_allocated (wf : s.Wf) {h : Nat} (mem : StoreJob.saveHandle h ∈ s.queue) :
    h < s.heap.length :=
  wf.live_allocated h (queued_strong_pos mem)

theorem no_entry_step (onRoot : s.CallsOnRoot) (entry : s.handleCache rh = none)
    (clear : ∀ (t : Nat) (api : Api) (pc : Pc), s.calls[t]? = some (api, pc) →
      api.rootHash? = some rh → pc.isDone = false → Clear pc)
    {e : Event} (step : s.apply L e = some s') : s'.handleCache rh = none := by
  cases e with
  | tick t =>
    obtain ⟨api, pc, hc, notDone, rfl⟩ := apply_tick step
    show (s.exec L pc).1.handleCache rh = none
    by_cases key : pc.cacheKey? = some rh
    · -- only a `drop_handle` about `rh` may write its entry
      have carried := onRoot t api pc hc
      have clear := fun about => clear t api pc hc about notDone
      cases pc <;> simp [Pc.cacheKey?] at key <;> subst key <;>
        simp_all [OnRoot, Clear, Storage.exec]
    · rw [exec_handleCache_of_ne s key]; exact entry
  | drop x =>
    obtain ⟨-, rfl⟩ := apply_drop step
    cases found : (s.runDrop x).handleCache rh with
    | none => rfl
    | some h => have old := (runDrop_cache found).1; rw [entry] at old; cases old
  | call api => obtain ⟨clients, rfl⟩ := apply_call_eq step; exact entry
  | release h => obtain ⟨-, rfl⟩ := apply_release step; exact entry
  | store => obtain ⟨job, rest, -, rfl⟩ := apply_store step; simpa using entry

theorem no_save_call_step (wf : s.Wf)
    (no_save_call : ∀ (t : Nat) (api : Api) (h : Nat), s.calls[t]? = some (api, .saveSend h) →
      (s.handle h).id.rootHash ≠ rh)
    {e : Event} (allowed : ¬ Revives rh s e) (step : s.apply L e = some s') (t : Nat) (api : Api)
    (h : Nat) (hc : s'.calls[t]? = some (api, .saveSend h)) : (s'.handle h).id.rootHash ≠ rh := by
  obtain ⟨-, same_id, -⟩ := step_handle step
  rcases step_calls step hc with old | ⟨rfl, -, start⟩ | ⟨-, pc0, -, -, next, -⟩
  · rw [same_id h (saveSend_allocated wf old)]; exact no_save_call t api h old
  · obtain rfl := Api.start_eq_saveSend start.symm
    rw [show s'.handle h = s.handle h by rw [handle, (apply_call step).1]; rfl]
    exact allowed
  · exact absurd next.symm (exec_ne_saveSend s pc0 h)

theorem sends_no_save (wf : s.Wf) (onRoot : s.CallsOnRoot)
    (clear : ∀ (t : Nat) (api : Api) (pc : Pc), s.calls[t]? = some (api, pc) →
      api.rootHash? = some rh → pc.isDone = false → Clear pc)
    (no_save_call : ∀ (t : Nat) (api : Api) (h : Nat), s.calls[t]? = some (api, .saveSend h) →
      (s.handle h).id.rootHash ≠ rh)
    {e : Event} (step : s.apply L e = some s') (other : e ≠ .store) :
    ∃ extra, s'.queue = s.queue ++ extra ∧
      ∀ h, StoreJob.saveHandle h ∈ extra → (s'.handle h).id.rootHash ≠ rh := by
  obtain ⟨-, same_id, -⟩ := step_handle step
  obtain ⟨-, extra, queue, sent⟩ := step_queue step other
  refine ⟨extra, queue, fun h new => ?_⟩
  -- the step hands over the handle of a `create_handle` or of a `save_handle`
  obtain ⟨t, api, pc, hc, sends⟩ := sent _ new
  have carried := onRoot t api pc hc
  cases pc <;> simp [Pc.sends?] at sends <;> subst sends <;> rename_i h
  · obtain ⟨lt, key⟩ := carried
    rw [same_id h lt]
    exact fun root => clear t api _ hc (root ▸ key) rfl
  · rw [same_id h (saveSend_allocated wf hc)]; exact no_save_call t api h hc

theorem Clear.start {api : Api} (key : api.rootHash? = some rh)
    (allowed : ¬ Revives rh s (.call api)) : Clear api.start := by
  cases api
  case createHandle id meta => exact allowed (Option.some.inj key)
  all_goals trivial

theorem Gone.step (wf : s.Wf) (onRoot : s.CallsOnRoot) (gone : s.Gone rh n0) {e : Event}
    (allowed : ¬ Revives rh s e) (step : s.apply L e = some s') : s'.Gone rh n0 := by
  obtain ⟨-, same_id, -⟩ := step_handle step
  have running := fun t api pc hc about notDone => gone.clear t api pc hc about (.inl notDone)
  refine ⟨no_entry_step onRoot gone.no_entry running step, ?no_record, ?no_save_queued,
    no_save_call_step wf gone.no_save_call allowed step,
    Nat.le_trans gone.started (calls_length_step step), ?clear⟩
  case clear =>
    intro t api pc hc key cond
    rcases step_calls step hc with old | ⟨rfl, -, rfl⟩ | ⟨-, pc0, old, notDone, rfl, rfl⟩
    · exact gone.clear t api pc old key cond
    · exact Clear.start key allowed
    · have carried := onRoot t api pc0 old
      rw [key] at carried
      exact Clear.exec gone carried (gone.clear t api pc0 old key (.inl notDone)) notDone
  case no_record =>
    rcases step_record step rh with same | ⟨y, queued, root, -⟩ | ⟨-, -, -, deleted⟩
    · rw [same]; exact gone.no_record
    · exact absurd root (gone.no_save_queued y queued)
    · exact deleted
  case no_save_queued =>
    intro h mem
    by_cases other : e = .store
    · subst other
      obtain ⟨job, rest, queue, rfl⟩ := apply_store step
      rw [handle_storeJob]
      exact gone.no_save_queued h (queue ▸ List.mem_cons_of_mem _ (by simpa using mem))
    obtain ⟨extra, queue, fresh⟩ := sends_no_save wf onRoot running gone.no_save_call step other
    rcases List.mem_append.mp (queue ▸ mem) with old | new
    · rw [same_id h (queued_allocated wf old)]; exact gone.no_save_queued h old
    · exact fresh h new

theorem client_allocated (wf : s.Wf) {h : Nat} (held : h ∈ s.clients) : h < s.heap.length :=
  wf.live_allocated h (by have := List.count_pos_iff.mpr held; simp only [strong]; omega)

theorem run_unrevived {P : Storage → Prop} {Q : Event → Prop}
    (keep : ∀ {s s' : Storage} {e : Event}, s.Wf → s.CallsOnRoot → P s → ¬ Revives rh s e →
      Q e → s.apply L e = some s' → P s')
    (wf : s.Wf) (onRoot : s.CallsOnRoot) (start : P s) {es : List Event}
    (run : s.run L es = some s')
    (no_create : ∀ id meta, Event.call (.createHandle id meta) ∈ es → id.rootHash ≠ rh)
    (no_save : ∀ h, Event.call (.saveHandle h) ∈ es → (s'.handle h).id.rootHash ≠ rh)
    (allowed : ∀ e ∈ es, Q e) : P s' := by
  induction es generalizing s with
  | nil => cases run; exact start
  | cons e es ih =>
    obtain ⟨s1, step, rest⟩ := run_cons_eq_some.mp run
    have unrevived : ¬ Revives rh s e := by
      cases e with
      | call api =>
        cases api with
        | createHandle id meta => exact no_create id meta (List.mem_cons_self _ _)
        | saveHandle h =>
          have lt := client_allocated wf (apply_call_saveHandle step)
          show (s.handle h).id.rootHash ≠ rh
          rw [← run_handle_id run lt]
          exact no_save h (List.mem_cons_self _ _)
        | _ => exact id
      | _ => exact id
    exact ih (wf.step step) (onRoot.step wf step)
      (keep wf onRoot start unrevived (allowed e (List.mem_cons_self _ _)) step) rest
      (fun id meta mem => no_create id meta (List.mem_cons_of_mem _ mem))
      (fun h mem => no_save h (List.mem_cons_of_mem _ mem))
      (fun e mem => allowed e (List.mem_cons_of_mem _ mem))

theorem Gone.run (wf : s.Wf) (onRoot : s.CallsOnRoot) (gone : s.Gone rh n0) {es : List Event}
    (run : s.run L es = some s')
    (no_create : ∀ id meta, Event.call (.createHandle id meta) ∈ es → id.rootHash ≠ rh)
    (no_save : ∀ h, Event.call (.saveHandle h) ∈ es → (s'.handle h).id.rootHash ≠ rh) :
    s'.Gone rh n0 :=
  run_unrevived (Q := fun _ => True) (fun wf onRoot gone allowed _ step => gone.step wf onRoot allowed step)
    wf onRoot gone run no_create no_save (fun _ _ => trivial)

/-! ### While the `DropHandle` job is queued -/

/-- `rh` is being dropped: its `DropHandle` job is queued at position `k`, after every queued
    save of a handle of it; it has no entry, the calls about it in flight are drops, and those
    from number `n0` on found nothing. -/
structure Dropping (rh : UInt256) (n0 k : Nat) (s : Storage) : Prop where
  no_entry : s.handleCache rh = none
  drop_job : ∃ id, s.queue[k]? = some (.dropHandle id) ∧ id.rootHash = rh
  no_save_after : ∀ j h, k < j → s.queue[j]? = some (.saveHandle h) →
    (s.handle h).id.rootHash ≠ rh
  no_save_call : ∀ (t : Nat) (api : Api) (h : Nat), s.calls[t]? = some (api, .saveSend h) →
    (s.handle h).id.rootHash ≠ rh
  started : n0 ≤ s.calls.length
  drops_only : ∀ (t : Nat) (api : Api) (pc : Pc), s.calls[t]? = some (api, pc) →
    api.rootHash? = some rh → pc.isDone = false → ∃ id, pc = .dropRemove id ∨ pc = .dropSend id
  clear : ∀ (t : Nat) (api : Api) (pc : Pc), s.calls[t]? = some (api, pc) →
    api.rootHash? = some rh → n0 ≤ t → Clear pc

theorem Dropping.step (wf : s.Wf) (onRoot : s.CallsOnRoot) {k : Nat} (dropping : s.Dropping rh n0 k)
    {e : Event} (allowed : ¬ Revives rh s e)
    (only_drops : ∀ api, e = .call api → api.rootHash? = some rh → ∃ id, api = .dropHandle id)
    (other : e ≠ .store) (step : s.apply L e = some s') : s'.Dropping rh n0 k := by
  obtain ⟨-, same_id, -⟩ := step_handle step
  have running : ∀ (t : Nat) (api : Api) (pc : Pc), s.calls[t]? = some (api, pc) →
      api.rootHash? = some rh → pc.isDone = false → Clear pc := fun t api pc hc about notDone => by
    obtain ⟨id, rfl | rfl⟩ := dropping.drops_only t api pc hc about notDone <;> trivial
  obtain ⟨extra, queue, fresh⟩ := sends_no_save wf onRoot running dropping.no_save_call step other
  obtain ⟨id, job, root⟩ := dropping.drop_job
  refine ⟨no_entry_step onRoot dropping.no_entry running step,
    ⟨id, by rw [queue, List.getElem?_append_left (List.getElem?_eq_some_iff.mp job).1, job], root⟩,
    fun j h later saved => ?_, no_save_call_step wf dropping.no_save_call allowed step,
    Nat.le_trans dropping.started (calls_length_step step), fun t api pc hc about notDone => ?_,
    fun t api pc hc about late => ?_⟩
  · rw [queue] at saved
    rcases Nat.lt_or_ge j s.queue.length with lt | ge
    · rw [List.getElem?_append_left lt] at saved
      rw [same_id h (queued_allocated wf (List.getElem?_mem saved))]
      exact dropping.no_save_after j h later saved
    · rw [List.getElem?_append_right ge] at saved
      exact fresh h (List.getElem?_mem saved)
  · rcases step_calls step hc with old | ⟨rfl, -, rfl⟩ | ⟨-, pc0, old, notDone0, rfl, -⟩
    · exact dropping.drops_only t api pc old about notDone
    · obtain ⟨id, rfl⟩ := only_drops api rfl about; exact ⟨id, .inl rfl⟩
    · obtain ⟨id, rfl | rfl⟩ := dropping.drops_only t api pc0 old about notDone0
      · exact ⟨id, .inr rfl⟩
      · simp [Storage.exec, Pc.isDone] at notDone
  · rcases step_calls step hc with old | ⟨rfl, -, rfl⟩ | ⟨-, pc0, old, notDone0, rfl, -⟩
    · exact dropping.clear t api pc old about late
    · obtain ⟨id, rfl⟩ := only_drops api rfl about; trivial
    · obtain ⟨id, rfl | rfl⟩ := dropping.drops_only t api pc0 old about notDone0 <;>
        simp [Clear, Storage.exec]

theorem Dropping.store {k : Nat} (dropping : s.Dropping rh n0 k) (step : s.apply L .store = some s') :
    (∀ k', k = k' + 1 → s'.Dropping rh n0 k') ∧ (k = 0 → s'.Gone rh n0) := by
  obtain ⟨job, rest, queue, rfl⟩ := apply_store step
  obtain ⟨id, job_at, root⟩ := dropping.drop_job
  have shift : ∀ j, ({ s with queue := rest }.storeJob L job).queue[j]? = s.queue[j + 1]? := by
    simp [queue]
  constructor
  · rintro k rfl
    refine ⟨by simpa using dropping.no_entry, ⟨id, by rw [shift]; exact job_at, root⟩,
      fun j h later saved => ?_, fun t api h hc => ?_, by simpa using dropping.started,
      fun t api pc hc => dropping.drops_only t api pc (by simpa using hc),
      fun t api pc hc => dropping.clear t api pc (by simpa using hc)⟩
    · rw [handle_storeJob]
      exact dropping.no_save_after (j + 1) h (by omega) (by rwa [shift] at saved)
    · rw [handle_storeJob]; exact dropping.no_save_call t api h (by simpa using hc)
  · rintro rfl
    obtain rfl : job = .dropHandle id := by simpa [queue] using job_at
    refine ⟨by simpa using dropping.no_entry, by simp [storeJob, root], fun h mem => ?_,
      fun t api h hc => ?_, by simpa using dropping.started, fun t api pc hc about cond => ?_⟩
    · obtain ⟨j, saved⟩ := List.getElem?_of_mem (by simpa using mem)
      rw [handle_storeJob]
      exact dropping.no_save_after (j + 1) h (by omega) (by rw [queue]; simpa using saved)
    · rw [handle_storeJob]; exact dropping.no_save_call t api h (by simpa using hc)
    · simp only [storeJob_calls] at hc
      rcases cond with notDone | late
      · obtain ⟨id, rfl | rfl⟩ := dropping.drops_only t api pc hc about notDone <;> trivial
      · exact dropping.clear t api pc hc about late

theorem Dropping.run (wf : s.Wf) (onRoot : s.CallsOnRoot) {k : Nat} (dropping : s.Dropping rh n0 k)
    {es : List Event} (run : s.run L es = some s')
    (no_create : ∀ id meta, Event.call (.createHandle id meta) ∈ es → id.rootHash ≠ rh)
    (no_save : ∀ h, Event.call (.saveHandle h) ∈ es → (s'.handle h).id.rootHash ≠ rh)
    (only_drops : ∀ api, Event.call api ∈ es → api.rootHash? = some rh → ∃ id, api = .dropHandle id)
    (no_store : Event.store ∉ es) : s'.Dropping rh n0 k :=
  run_unrevived (Q := fun e => e ≠ .store ∧ ∀ api, e = .call api → api.rootHash? = some rh →
      ∃ id, api = .dropHandle id)
    (fun wf onRoot dropping allowed ⟨other, drops⟩ step =>
      dropping.step wf onRoot allowed drops other step)
    wf onRoot dropping run no_create no_save
    (fun _ mem => ⟨fun same => no_store (same ▸ mem), fun api same => only_drops api (same ▸ mem)⟩)

/-! ### Sequential `drop_handle` -/

theorem seqStep_dropHandle {id : BlockIdExt} {r : Option Ret}
    (step : s.seqStep L (.call (.dropHandle id)) = some (s', r)) :
    s'.handleCache id.rootHash = none ∧ s'.queue = s.queue ++ [.dropHandle id] ∧
      s'.handleDb = s.handleDb := by
  obtain ⟨⟨s1, ret⟩, fin, eq⟩ := Option.map_eq_some'.mp step
  obtain ⟨s0, start, fin⟩ := Option.bind_eq_some.mp fin
  obtain ⟨clients, rfl⟩ := apply_call_eq start
  obtain ⟨rfl, -⟩ := Prod.mk.inj eq
  simp only [finish, apply, Api.start, exec, Pc.isDone, removeEntry, send, Option.some_bind,
    List.getElem?_concat_length, set_concat_length, Bool.false_eq_true, ↓reduceIte,
    Option.some.injEq, Prod.mk.injEq] at fin
  obtain ⟨rfl, -⟩ := fin
  refine ⟨?_, settle_queue _, settle_handleDb _⟩
  cases entry : (settle L _).handleCache id.rootHash with
  | none => rfl
  | some x => simpa using settle_cache entry

theorem dropping_after_drop (idle : s.Idle) {id : BlockIdExt} (entry : s.handleCache id.rootHash = none)
    {q : List StoreJob} (queue : s.queue = q ++ [.dropHandle id]) :
    s.Dropping id.rootHash s.calls.length q.length where
  no_entry := entry
  drop_job := ⟨id, by simp [queue], rfl⟩
  no_save_after j h later saved := by
    rw [queue, List.getElem?_eq_none (by simp; omega)] at saved; cases saved
  no_save_call t api h hc := absurd (idle t api _ hc) (by simp [Pc.isDone])
  started := Nat.le_refl _
  drops_only t api pc hc _ notDone := by simp [idle t api pc hc] at notDone
  clear t api pc hc _ late := absurd (List.getElem?_eq_some_iff.mp hc).1 (by omega)

/-- Where `rh` stands after its `drop_handle`: `k + 1` storer steps before its `DropHandle` job
    is taken, or gone. -/
def Pending (s : Storage) (rh : UInt256) (n0 : Nat) : Nat → Prop
  | 0 => s.Gone rh n0
  | k + 1 => s.Dropping rh n0 k

theorem Pending.clear {m : Nat} (pending : s.Pending rh n0 m) {t : Nat} {api : Api} {r : Ret}
    (hc : s.calls[t]? = some (api, .done r)) (about : api.rootHash? = some rh) (late : n0 ≤ t) :
    r = .handle none ∨ r = .fullId none ∨ r = .unit :=
  match m, pending with
  | 0, gone => Gone.clear gone t api _ hc about (.inr late)
  | _ + 1, dropping => Dropping.clear dropping t api _ hc about late

theorem Pending.no_record {m : Nat} (pending : s.Pending rh n0 m) (drained : s.queue = []) :
    s.handleDb rh = none :=
  match m, pending with
  | 0, gone => Gone.no_record gone
  | _ + 1, dropping => by obtain ⟨id, job, -⟩ := Dropping.drop_job dropping; simp [drained] at job

theorem Pending.seqStep (reach : Reachable L s) {m : Nat} (pending : s.Pending rh n0 m) {op : Op}
    {r : Option Ret} (step : s.seqStep L op = some (s', r))
    (no_create : ∀ id meta, op ≠ .call (.createHandle id meta) ∨ id.rootHash ≠ rh)
    (no_save : ∀ h, op = .call (.saveHandle h) → (s.handle h).id.rootHash ≠ rh)
    (only_drops : 0 < m → ∀ api, op = .call api → api.rootHash? = some rh →
      ∃ id, api = .dropHandle id) :
    s'.Pending rh n0 (if op = .store then m - 1 else m) := by
  have wf := wf_of_reachable reach
  have onRoot := callsOnRoot_of_reachable reach
  obtain ⟨es, calls, stores, run⟩ := seqStep_run step
  have creates : ∀ id meta, Event.call (.createHandle id meta) ∈ es → id.rootHash ≠ rh :=
    fun id meta mem => (no_create id meta).resolve_left (not_not.mpr (calls _ mem))
  have saves : ∀ h, Event.call (.saveHandle h) ∈ es → (s'.handle h).id.rootHash ≠ rh :=
    fun h mem => by
      obtain same := calls _ mem
      subst same
      obtain ⟨⟨s1, r1⟩, fin, -⟩ := Option.map_eq_some'.mp step
      obtain ⟨s0, start, -⟩ := Option.bind_eq_some.mp fin
      rw [run_handle_id run (client_allocated wf (apply_call_saveHandle start))]
      exact no_save h rfl
  by_cases store : op = .store
  · subst store
    rw [if_pos rfl]
    -- the storer step comes first, then the `Drop`s it makes due
    obtain ⟨s1, applied, eq⟩ := Option.map_eq_some'.mp step
    obtain ⟨rfl, -⟩ := Prod.mk.inj eq
    obtain ⟨drops, only, settled⟩ := settle_run (L := L) s1
    have notCall : ∀ {api}, Event.call api ∉ drops := fun mem => by
      obtain ⟨h, eq⟩ := only _ mem; cases eq
    have wf1 := wf.step applied
    have onRoot1 := onRoot.step wf applied
    match m, pending with
    | 0, gone =>
      exact Gone.run wf1 onRoot1 (gone.step wf onRoot id applied) settled
        (fun _ _ mem => (notCall mem).elim) (fun _ mem => (notCall mem).elim)
    | 1, dropping =>
      exact Gone.run wf1 onRoot1 ((dropping.store applied).2 rfl) settled
        (fun _ _ mem => (notCall mem).elim) (fun _ mem => (notCall mem).elim)
    | k + 2, dropping =>
      exact Dropping.run wf1 onRoot1 ((dropping.store applied).1 k rfl) settled
        (fun _ _ mem => (notCall mem).elim) (fun _ mem => (notCall mem).elim)
        (fun _ mem => (notCall mem).elim) fun mem => by obtain ⟨h, eq⟩ := only _ mem; cases eq
  · rw [if_neg store]
    match m, pending with
    | 0, gone => exact Gone.run wf onRoot gone run creates saves
    | k + 1, dropping =>
      exact Dropping.run wf onRoot dropping run creates saves
        (fun api mem => only_drops (Nat.succ_pos k) api (calls api mem)) fun mem => store (stores mem)

theorem Pending.seqRun (reach : Reachable L s) {m : Nat} (pending : s.Pending rh n0 m)
    {ops : List Op} {rs : List (Option Ret)} (run : s.seqRun L ops = some (s', rs))
    (no_create : ∀ id meta, Op.call (.createHandle id meta) ∈ ops → id.rootHash ≠ rh)
    (no_save : ∀ h, Op.call (.saveHandle h) ∈ ops → (s'.handle h).id.rootHash ≠ rh)
    (early : ∀ (i : Nat) (api : Api), ops[i]? = some (.call api) → api.rootHash? = some rh →
      (ops.take i).count .store < m → ∃ id, api = .dropHandle id) :
    s'.Pending rh n0 (m - ops.count .store) := by
  induction ops generalizing s m rs with
  | nil => cases run; exact pending
  | cons op ops ih =>
    obtain ⟨s1, r, rs', step, rest, rfl⟩ := seqRun_cons_eq_some.mp run
    obtain ⟨es, -, whole⟩ := seqRun_run run
    have reach1 := reachable_seqRun reach
      (show s.seqRun L [op] = some (s1, [r]) from seqRun_cons_eq_some.mpr ⟨s1, r, [], step, rfl, rfl⟩)
    have pending1 := pending.seqStep reach step
      (fun id meta => by
        by_cases same : op = .call (.createHandle id meta)
        · exact .inr (no_create id meta (same ▸ List.mem_cons_self _ _))
        · exact .inl same)
      (fun h same => by
        subst same
        obtain ⟨⟨s2, r2⟩, fin, -⟩ := Option.map_eq_some'.mp step
        obtain ⟨s0, start, -⟩ := Option.bind_eq_some.mp fin
        have lt := client_allocated (wf_of_reachable reach) (apply_call_saveHandle start)
        rw [← run_handle_id whole lt]
        exact no_save h (List.mem_cons_self _ _))
      (fun pos api same about => early 0 api (by simp [same]) about (by simpa using pos))
    have count_cons : ∀ l : List Op,
        (op :: l).count .store = l.count .store + if op = .store then 1 else 0 := fun l => by
      simp [List.count_cons]
    have later := ih reach1 pending1 rest
      (fun id meta mem => no_create id meta (List.mem_cons_of_mem _ mem))
      (fun h mem => no_save h (List.mem_cons_of_mem _ mem))
      (fun i api at_i about fewer => early (i + 1) api (by simpa using at_i) about (by
        rw [List.take_succ_cons, count_cons]
        by_cases store : op = .store
        · rw [if_pos store] at fewer ⊢; omega
        · rw [if_neg store] at fewer ⊢; omega))
    rw [count_cons]
    by_cases store : op = .store
    · rw [if_pos store] at later ⊢
      rwa [show m - (ops.count .store + 1) = m - 1 - ops.count .store by omega]
    · rwa [if_neg store] at later ⊢

/-- After `drop_handle(id)`, a sequential run that issues no `create_handle` for its root hash
    and no `save_handle` of a handle of it, and calls nothing about the root hash but
    `drop_handle` until the storer has taken the jobs queued before the drop and the drop's own
    job: every call about the root hash in the run finds nothing, and once the storer has
    drained, the record is deleted. -/
theorem dropped_block_stays_gone {handleDb : UInt256 → Option Bytes}
    {stateDb : StateDb → String → Option Bytes} {pre post : List Op} {id : BlockIdExt}
    {s0 s1 s2 : Storage} {r1 : Option Ret} {rs0 rs2 : List (Option Ret)}
    (before : (init handleDb stateDb).seqRun L pre = some (s0, rs0))
    (dropped : s0.seqStep L (.call (.dropHandle id)) = some (s1, r1))
    (after : s1.seqRun L post = some (s2, rs2))
    (no_create : ∀ id' meta, Op.call (.createHandle id' meta) ∈ post → id'.rootHash ≠ id.rootHash)
    (no_save : ∀ h, Op.call (.saveHandle h) ∈ post → (s2.handle h).id.rootHash ≠ id.rootHash)
    (no_early_load : ∀ (i : Nat) (api : Api), post[i]? = some (.call api) →
      api.rootHash? = some id.rootHash → (post.take i).count .store ≤ s0.queue.length →
      ∃ id', api = .dropHandle id') :
    (s2.queue = [] → s2.handleDb id.rootHash = none) ∧
    ∀ (i : Nat) (api : Api) (r : Ret), post[i]? = some (.call api) → rs2[i]? = some (some r) →
      api.rootHash? = some id.rootHash → r = .handle none ∨ r = .fullId none ∨ r = .unit := by
  have reach0 : Reachable L s0 := reachable_seqRun ⟨handleDb, stateDb, [], rfl⟩ before
  have reach1 : Reachable L s1 := reachable_seqRun reach0
    (show s0.seqRun L [.call (.dropHandle id)] = some (s1, [r1]) from
      seqRun_cons_eq_some.mpr ⟨s1, r1, [], dropped, rfl, rfl⟩)
  have idle1 : s1.Idle := seqStep_idle (seqRun_idle (idle_init handleDb stateDb) before) dropped
  obtain ⟨entry, queue, -⟩ := seqStep_dropHandle dropped
  have pending : s1.Pending id.rootHash s1.calls.length (s0.queue.length + 1) :=
    dropping_after_drop idle1 entry queue
  have pending2 := pending.seqRun reach1 after no_create no_save
    fun i api at_i about fewer => no_early_load i api at_i about (by omega)
  refine ⟨pending2.no_record, fun i api r at_i ret about => ?_⟩
  obtain ⟨t, late, done⟩ := seqRun_results after at_i ret
  exact pending2.clear done about late

/-- A block is created and dropped; another block is created, the storer takes the three jobs,
    and the first block is loaded by id and by root hash. -/
def dropThenLoadLater : List Op × List Op :=
  ([.call (.createHandle sampleFullId ⟨0, 0⟩)],
    [.call (.createHandle masterchainSample.1 masterchainSample.2), .store, .store,
      .call (.loadHandleById sampleFullId), .call (.loadFullBlockId sampleRoot), .store])

theorem dropped_block_stays_gone_after_reload :
    ∃ s0 s1 s2 rs0 r1 rs2,
      (init (fun _ => none) (fun _ _ => none)).seqRun plainLib dropThenLoadLater.1 =
        some (s0, rs0) ∧
      s0.seqStep plainLib (.call (.dropHandle sampleFullId)) = some (s1, r1) ∧
      s1.seqRun plainLib dropThenLoadLater.2 = some (s2, rs2) ∧
      (∀ id' meta, Op.call (.createHandle id' meta) ∈ dropThenLoadLater.2 →
        id'.rootHash ≠ sampleFullId.rootHash) ∧
      (∀ h, Op.call (.saveHandle h) ∈ dropThenLoadLater.2 →
        (s2.handle h).id.rootHash ≠ sampleFullId.rootHash) ∧
      (∀ (i : Nat) (api : Api), dropThenLoadLater.2[i]? = some (.call api) →
        api.rootHash? = some sampleFullId.rootHash →
        (dropThenLoadLater.2.take i).count .store ≤ s0.queue.length → ∃ id', api = .dropHandle id') ∧
      (s2.queue = [] → s2.handleDb sampleFullId.rootHash = none) ∧
      ∀ (i : Nat) (api : Api) (r : Ret), dropThenLoadLater.2[i]? = some (.call api) →
        rs2[i]? = some (some r) → api.rootHash? = some sampleFullId.rootHash →
        r = .handle none ∨ r = .fullId none ∨ r = .unit := by
  have no_create : ∀ id' meta, Op.call (.createHandle id' meta) ∈ dropThenLoadLater.2 →
      id'.rootHash ≠ sampleFullId.rootHash := by
    simp [dropThenLoadLater]; decide
  have no_save : ∀ (s : Storage) h, Op.call (.saveHandle h) ∈ dropThenLoadLater.2 →
      (s.handle h).id.rootHash ≠ sampleFullId.rootHash := by simp [dropThenLoadLater]
  have early : ∀ (i : Nat) (api : Api), dropThenLoadLater.2[i]? = some (.call api) →
      api.rootHash? = some sampleFullId.rootHash →
      (dropThenLoadLater.2.take i).count .store ≤ 1 → ∃ id', api = .dropHandle id' := by
    intro i api at_i about fewer
    rcases i with _ | _ | _ | _ | _ | _ | i <;> cases at_i
    · exact absurd about (by decide)
    all_goals exact absurd fewer (by decide)
  exact ⟨_, _, _, _, _, _, rfl, rfl, rfl, no_create, no_save _, early,
    @dropped_block_stays_gone plainLib (fun _ => none) (fun _ _ => none) dropThenLoadLater.1
      dropThenLoadLater.2 sampleFullId _ _ _ _ _ _ rfl rfl rfl no_create (no_save _) early⟩

/-- Save a handle, drop it, and load it before the storer has deleted the record: the load
    reads the record back and returns a new handle. -/
def dropThenLoad : List Op :=
  [.call (.createHandle sampleFullId ⟨0, 0⟩), .store, .call (.dropHandle sampleFullId),
    .call (.loadHandleById sampleFullId)]

theorem load_after_drop_finds_record :
    ((init (fun _ => none) (fun _ _ => none)).seqRun plainLib dropThenLoad).map (·.2) =
      some [some (.handle (some 0)), none, some .unit, some (.handle (some 1))] := by
  decide

end BlockHandleDb.Storage
