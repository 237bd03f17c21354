import BlockHandleDb.DropHandle
import BlockHandleDb.Progress

/-!
`create_handle` and what follows it. Once `create_handle` has returned a handle, its root hash
stays found (`Found`) until a `drop_handle` for it is issued, so every `load_handle` for it
returns a handle: in sequential use, and over every interleaving for loads started afterwards.
-/
namespace BlockHandleDb

/-- The id a call's step may allocate a handle for, now or after reading a record. -/
def Pc.newId? : Pc → Option BlockIdExt
  | .createInsert id _ | .loadGet id _ | .loadUpgrade id _ _ | .loadRead id _ | .loadInsert id _ _ =>
    some id
  | _ => none

/-- The id a caller passes to a call that may allocate a handle has an accepted shard. -/
def Api.Accepted (L : Lib) : Api → Prop
  | .createHandle id _ | .loadHandleById id => L.Accepts id.shardId
  | _ => True

/-- `with_tagged_prefix` accepts the default shard and every shard it returns, as a library
    whose `ShardIdent`s are valid by construction does. -/
def Lib.ShardsClosed (L : Lib) : Prop :=
  L.Accepts default ∧ ∀ wc tag shard, L.withTaggedPrefix wc tag = .ok shard → L.Accepts shard

namespace Storage

variable {L : Lib} {s s' : Storage} {rh : UInt256}

theorem exec_eq_dropSend {pc : Pc} {id : BlockIdExt} (next : (s.exec L pc).2 = .dropSend id) :
    pc = .dropRemove id := by
  cases pc <;> simp only [exec] at next <;> (repeat' split at next) <;> cases next
  rfl

theorem dropSend_of_sends {pc : Pc} {id : BlockIdExt} (sends : pc.sends? = some (.dropHandle id)) :
    pc = .dropSend id := by
  cases pc <;> cases sends
  rfl

/-! ### No `drop_handle` in flight -/

/-- No `drop_handle` about `rh` is in flight. -/
structure NoDropping (rh : UInt256) (s : Storage) : Prop where
  no_remove : ∀ (t : Nat) (api : Api) (id : BlockIdExt),
    s.calls[t]? = some (api, .dropRemove id) → id.rootHash ≠ rh
  no_drop_send : ∀ (t : Nat) (api : Api) (id : BlockIdExt),
    s.calls[t]? = some (api, .dropSend id) → id.rootHash ≠ rh

theorem NoDropping.step (noDrop : s.NoDropping rh) {e : Event}
    (allowed : ∀ id, e = .call (.dropHandle id) → id.rootHash ≠ rh)
    (step : s.apply L e = some s') : s'.NoDropping rh := by
  refine ⟨fun t api id hc => ?_, fun t api id hc => ?_⟩
  · rcases step_calls step hc with old | ⟨rfl, -, start⟩ | ⟨-, pc0, -, -, next, -⟩
    · exact noDrop.no_remove t api id old
    · exact allowed id (by rw [Api.start_eq_dropRemove start.symm])
    · exact absurd next.symm (exec_ne_dropRemove s pc0 id)
  · rcases step_calls step hc with old | ⟨rfl, -, start⟩ | ⟨-, pc0, old, -, next, -⟩
    · exact noDrop.no_drop_send t api id old
    · cases api <;> cases start
    · rw [exec_eq_dropSend next.symm] at old; exact noDrop.no_remove t api id old

theorem NoDropping.appends (noDrop : s.NoDropping rh) {e : Event} (step : s.apply L e = some s')
    (other : e ≠ .store) : s'.handleDb = s.handleDb ∧ ∃ extra, s'.queue = s.queue ++ extra ∧
      ∀ id, StoreJob.dropHandle id ∈ extra → id.rootHash ≠ rh := by
  obtain ⟨db, extra, queue, sent⟩ := step_queue step other
  refine ⟨db, extra, queue, fun id mem => ?_⟩
  obtain ⟨t, api, pc, hc, sends⟩ := sent _ mem
  obtain rfl := dropSend_of_sends sends
  exact noDrop.no_drop_send t api id hc

/-! ### Shards in play -/

/-- Every live handle, and every id a call in flight may allocate a handle for, has a shard
    `with_tagged_prefix` accepts. -/
structure ShardsAccepted (L : Lib) (s : Storage) : Prop where
  live : ∀ x, 0 < s.strong x → L.Accepts (s.handle x).id.shardId
  calls : ∀ (t : Nat) (api : Api) (pc : Pc) (id : BlockIdExt), s.calls[t]? = some (api, pc) →
    pc.newId? = some id → L.Accepts id.shardId

theorem shardsAccepted_init (handleDb : UInt256 → Option Bytes)
    (stateDb : StateDb → String → Option Bytes) : (init handleDb stateDb).ShardsAccepted L :=
  ⟨by simp [init, strong], by simp [init]⟩

theorem Api.start_accepted (closed : L.ShardsClosed) {api : Api} (accepted : api.Accepted L)
    {id : BlockIdExt} (start : api.start.newId? = some id) : L.Accepts id.shardId := by
  cases api <;> simp only [Api.start, Pc.newId?, Option.some.injEq, reduceCtorEq] at start
  all_goals subst start
  case loadHandleByRootHash rh => exact closed.1
  all_goals exact accepted

theorem exec_newId (closed : L.ShardsClosed) {pc : Pc}
    (held : ∀ id, pc.newId? = some id → L.Accepts id.shardId) {id' : BlockIdExt}
    (next : (s.exec L pc).2.newId? = some id') : L.Accepts id'.shardId := by
  cases pc
  case loadRead id r =>
    -- a load by root hash may take the shard the record gives
    simp only [exec] at next
    repeat' split at next
    all_goals simp only [Pc.newId?, Option.some.injEq, reduceCtorEq] at next
    all_goals subst next
    · rename_i dec
      rcases shard_deserializeNonchecked L dec with same | ⟨wc, tag, made⟩
      · rw [same]; exact held id rfl
      · exact closed.2 wc tag _ made
    · exact held id rfl
  all_goals simp only [exec] at next; (repeat' split at next) <;>
    simp only [Pc.newId?, Option.some.injEq, reduceCtorEq] at next
  all_goals subst next; exact held _ rfl

theorem ShardsAccepted.step (closed : L.ShardsClosed) (wf : s.Wf) (shards : s.ShardsAccepted L)
    {e : Event} (allowed : ∀ api, e = .call api → api.Accepted L) (step : s.apply L e = some s') :
    s'.ShardsAccepted L where
  live x pos := by
    rcases step_live step pos with old | ⟨rfl, id, meta, -, grow, -⟩
    · rw [(step_handle step).2.1 x (wf.live_allocated x old)]; exact shards.live x old
    · -- a new handle is allocated by an insert step, for the id the call carries
      obtain ⟨t, api, pc, hc, -, insert⟩ := step_alloc step grow
      rw [handle_of_new grow]
      exact shards.calls t api pc id hc (by rcases insert with rfl | ⟨r, rfl⟩ <;> rfl)
  calls t api pc id hc next := by
    rcases step_calls step hc with old | ⟨rfl, -, rfl⟩ | ⟨rfl, pc0, old, -, rfl, -⟩
    · exact shards.calls t api pc id old next
    · exact Api.start_accepted closed (allowed api rfl) next
    · exact exec_newId closed (shards.calls t api pc0 · old) next

theorem ShardsAccepted.run (closed : L.ShardsClosed) (wf : s.Wf) (shards : s.ShardsAccepted L)
    {es : List Event} (run : s.run L es = some s')
    (in_play : ∀ api, Event.call api ∈ es → api.Accepted L) : s'.ShardsAccepted L :=
  (run_preserves (P := fun s => s.Wf ∧ s.ShardsAccepted L)
    (Q := fun e => ∀ api, e = .call api → api.Accepted L)
    (fun ⟨wf, shards⟩ allowed step => ⟨wf.step step, shards.step closed wf allowed step⟩)
    ⟨wf, shards⟩ (fun _ mem api same => in_play api (same ▸ mem)) run).2

/-! ### Found root hashes -/

/-- The DB holds a record of `rh` with an accepted shard, and no `DropHandle` of it is queued. -/
def Recorded (L : Lib) (rh : UInt256) (s : Storage) : Prop :=
  (∃ id meta, s.handleDb rh = some (serialize L id meta) ∧ L.Accepts id.shardId) ∧
    ∀ id, StoreJob.dropHandle id ∈ s.queue → id.rootHash ≠ rh

/-- The `SaveHandle` job of `h` is queued after every `DropHandle` of `rh`. -/
def SavedLast (rh : UInt256) (h : Nat) (s : Storage) : Prop :=
  ∃ front back, s.queue = front ++ .saveHandle h :: back ∧
    ∀ id, StoreJob.dropHandle id ∈ back → id.rootHash ≠ rh

/-- Where `rh` is found: in a record, or in the cache with its handle's save still queued. -/
def Found (L : Lib) (rh : UInt256) (s : Storage) : Prop :=
  s.Recorded L rh ∨ ∃ h, s.handleCache rh = some h ∧ s.SavedLast rh h

theorem Recorded.step (noDrop : s.NoDropping rh) (shards : s.ShardsAccepted L)
    (recorded : s.Recorded L rh) {e : Event} (step : s.apply L e = some s') : s'.Recorded L rh := by
  obtain ⟨⟨id, meta, record, accepted⟩, clean⟩ := recorded
  by_cases other : e = .store
  · subst other
    obtain ⟨job, rest, queue, rfl⟩ := apply_store step
    refine ⟨?_, fun id' mem => clean id' (queue ▸ List.mem_cons_of_mem _ (by simpa using mem))⟩
    cases job with
    | saveHandle y =>
      show ∃ id meta, Function.update s.handleDb (s.handle y).id.rootHash
        (some (serialize L (s.handle y).id (s.handle y).meta)) rh = _ ∧ _
      by_cases root : (s.handle y).id.rootHash = rh
      · exact ⟨(s.handle y).id, (s.handle y).meta, by rw [root, Function.update_same],
          shards.live y (queued_strong_pos (queue ▸ List.mem_cons_self _ _))⟩
      · exact ⟨id, meta, by rw [Function.update_noteq (Ne.symm root), record], accepted⟩
    | dropHandle id' =>
      have other := clean id' (queue ▸ List.mem_cons_self _ _)
      exact ⟨id, meta, by
        show Function.update s.handleDb id'.rootHash none rh = _
        rw [Function.update_noteq (Ne.symm other), record], accepted⟩
    | saveState | dropState => exact ⟨id, meta, record, accepted⟩
  · obtain ⟨db, extra, queue, fresh⟩ := noDrop.appends step other
    exact ⟨⟨id, meta, by rw [db, record], accepted⟩,
      fun id' mem => (List.mem_append.mp (queue ▸ mem)).elim (clean id') (fresh id')⟩

theorem SavedLast.step (noDrop : s.NoDropping rh) (shards : s.ShardsAccepted L) {h : Nat}
    (root : (s.handle h).id.rootHash = rh) (saved : s.SavedLast rh h) {e : Event}
    (step : s.apply L e = some s') : s'.SavedLast rh h ∨ s'.Recorded L rh := by
  obtain ⟨front, back, queued, clean⟩ := saved
  by_cases other : e = .store
  · subst other
    obtain ⟨job, rest, queue, rfl⟩ := apply_store step
    cases front with
    | nil =>
      -- the storer writes the handle's record
      obtain ⟨rfl, rfl⟩ := List.cons.inj (queue.symm.trans queued)
      refine .inr ⟨⟨(s.handle h).id, (s.handle h).meta, ?_,
        shards.live h (queued_strong_pos (queued ▸ List.mem_cons_self _ _))⟩,
        fun id mem => clean id (by simpa using mem)⟩
      show Function.update s.handleDb (s.handle h).id.rootHash
        (some (serialize L (s.handle h).id (s.handle h).meta)) rh = _
      rw [root, Function.update_same]
    | cons j front =>
      obtain ⟨rfl, rfl⟩ := List.cons.inj (queue.symm.trans queued)
      exact .inl ⟨front, back, by simp, clean⟩
  · obtain ⟨-, extra, queue, fresh⟩ := noDrop.appends step other
    exact .inl ⟨front, back ++ extra, by simp [queue, queued],
      fun id mem => (List.mem_append.mp mem).elim (clean id) (fresh id)⟩

theorem SavedLast.strong_pos {h : Nat} (saved : s.SavedLast rh h) : 0 < s.strong h := by
  obtain ⟨front, back, queued, -⟩ := saved
  exact queued_strong_pos (by rw [queued]; simp)

theorem Found.step (wf : s.Wf) (noDrop : s.NoDropping rh) (shards : s.ShardsAccepted L)
    (found : s.Found L rh) {e : Event} (step : s.apply L e = some s') : s'.Found L rh := by
  rcases found with recorded | ⟨h, entry, saved⟩
  · exact Or.inl (recorded.step noDrop shards step)
  rcases saved.step noDrop shards (wf.cache_root rh h entry).2 step with saved' | recorded
  · -- only a `drop_handle` about `rh` or the `Drop` of a dead entry removes the entry
    refine Or.inr ⟨h, ?_, saved'⟩
    rcases step_cache step rh with same | ⟨none, -⟩ | ⟨-, ⟨t, api, id, hc, root⟩ | ⟨x, dead, zero⟩⟩
    · rw [same, entry]
    · rw [entry] at none; cases none
    · exact absurd root (noDrop.no_remove t api id hc)
    · rw [entry] at dead; cases dead
      have := saved.strong_pos
      omega
  · exact Or.inl recorded

/-- `rh` is found, and no `drop_handle` about it is in flight. -/
structure Stored (L : Lib) (rh : UInt256) (s : Storage) extends s.NoDropping rh : Prop where
  found : s.Found L rh

theorem Stored.step (wf : s.Wf) (shards : s.ShardsAccepted L) (stored : s.Stored L rh) {e : Event}
    (allowed : ∀ id, e = .call (.dropHandle id) → id.rootHash ≠ rh)
    (step : s.apply L e = some s') : s'.Stored L rh :=
  ⟨stored.toNoDropping.step allowed step, stored.found.step wf stored.toNoDropping shards step⟩

theorem Stored.run (closed : L.ShardsClosed) (wf : s.Wf) (shards : s.ShardsAccepted L)
    (stored : s.Stored L rh) {es : List Event} (run : s.run L es = some s')
    (no_drop : ∀ id, Event.call (.dropHandle id) ∈ es → id.rootHash ≠ rh)
    (in_play : ∀ api, Event.call api ∈ es → api.Accepted L) : s'.Stored L rh :=
  (run_preserves (P := fun s => s.Wf ∧ s.ShardsAccepted L ∧ s.Stored L rh)
    (Q := fun e => ∀ api, e = .call api → api.Accepted L ∧ ∀ id, api = .dropHandle id → id.rootHash ≠ rh)
    (fun ⟨wf, shards, stored⟩ allowed step => ⟨wf.step step,
      shards.step closed wf (fun api same => (allowed api same).1) step,
      stored.step wf shards (fun id same => (allowed _ same).2 id rfl) step⟩) ⟨wf, shards, stored⟩
    (fun _ mem api same => ⟨in_play api (same ▸ mem),
      fun id drop => no_drop id (by subst same drop; exact mem)⟩) run).2.2

/-! ### Sequential `create_handle` and `load_handle` -/

theorem settle_keeps_live {k : UInt256} {x : Nat} (entry : s.handleCache k = some x)
    (live : 0 < s.strong x) : (s.settle L).handleCache k = some x :=
  settle_induction (fun s s2 => s.handleCache k = some x → 0 < s.strong x → s2.handleCache k = some x)
    (fun _ entry _ => entry)
    (fun step keep entry live => by
      obtain ⟨-, rfl⟩ := apply_drop step
      exact keep (removeWith_eq_some.mpr ⟨entry, fun _ => by simpa using Nat.pos_iff_ne_zero.mp live⟩) live)
    s entry live

theorem settle_handle_id (s : Storage) {h : Nat} (lt : h < s.heap.length) :
    ((s.settle L).handle h).id = (s.handle h).id :=
  have ⟨_, _, run⟩ := settle_run (L := L) s
  run_handle_id run lt

theorem settle_handle_meta (s : Storage) {h : Nat} (lt : h < s.heap.length) :
    ((s.settle L).handle h).meta = (s.handle h).meta :=
  have ⟨_, _, run⟩ := settle_run (L := L) s
  run_handle_meta run lt

theorem seqStep_createHandle {id : BlockIdExt} {meta : BlockMeta} {h : Nat}
    (step : s.seqStep L (.call (.createHandle id meta)) = some (s', some (.handle (some h)))) :
    s'.handleCache id.rootHash = some h ∧ s'.queue = s.queue ++ [.saveHandle h] ∧
      (s'.handle h).id = id ∧ (s'.handle h).meta = meta.setFlags flagHasFullId := by
  obtain ⟨⟨s1, ret⟩, fin, eq⟩ := Option.map_eq_some'.mp step
  obtain ⟨s0, start, fin⟩ := Option.bind_eq_some.mp fin
  obtain ⟨clients, rfl⟩ := apply_call_eq start
  obtain ⟨rfl, same⟩ := Prod.mk.inj eq
  cases entry : s.handleCache id.rootHash with
  | some x =>
    simp only [finish, apply, Api.start, exec, entry, Pc.isDone, List.getElem?_concat_length,
      set_concat_length, Bool.false_eq_true, ↓reduceIte, Option.some_bind,
      Option.some.injEq, Prod.mk.injEq] at fin
    obtain ⟨-, rfl⟩ := fin
    cases same
  | none =>
    simp only [finish, apply, Api.start, exec, entry, Pc.isDone, List.getElem?_concat_length,
      set_concat_length, Bool.false_eq_true, ↓reduceIte, Option.some_bind, List.length_append,
      List.length_singleton, List.getElem?_set_self, List.set_set, Option.some.injEq,
      Prod.mk.injEq] at fin
    obtain ⟨rfl, rfl⟩ := fin
    cases same
    refine ⟨settle_keeps_live (by simp [insert, alloc]) ?_, by simp [insert, send, give, alloc],
      by rw [settle_handle_id] <;> simp [handle],
      by rw [settle_handle_meta] <;> simp [handle]⟩
    simp only [strong, give, List.count_append, List.count_singleton_self]
    omega

theorem seqStep_load_stored
    (meta_ok : ∀ meta rest, ∃ m, L.metaDeserialize (L.metaSerialize meta ++ rest) = .ok (m, rest))
    (wf : s.Wf) (settled : ∀ h, ¬ s.Dying h) (stored : s.Stored L rh) {api : Api}
    {id : BlockIdExt} {rhOnly : Bool} (get : api.start = .loadGet id rhOnly)
    (root : id.rootHash = rh) :
    ∃ s' x, s.seqStep L (.call api) = some (s', some (.handle (some x))) := by
  subst root
  have start : s.apply L (.call api) =
      some { s with calls := s.calls ++ [(api, .loadGet id rhOnly)] } := by
    cases api <;> cases get <;> rfl
  have hc : ({ s with calls := s.calls ++ [(api, .loadGet id rhOnly)] } : Storage).calls[
      s.calls.length]? = some (api, .loadGet id rhOnly) := List.getElem?_concat_length _ _
  suffices ticks : ∃ n ≤ 4, ∃ s1 x, ({ s with calls := s.calls ++ [(api, .loadGet id rhOnly)] } :
      Storage).run L (List.replicate n (.tick s.calls.length)) = some s1 ∧
      s1.calls[s.calls.length]? = some (api, .done (.handle (some x))) by
    obtain ⟨n, le, s1, x, run, done⟩ := ticks
    exact ⟨s1.settle L, x, by
      simp only [seqStep, start, Option.some_bind, finish_of_ticks le run done, Option.map_some']⟩
  cases entry : s.handleCache id.rootHash with
  | some x =>
    -- a hit: with no `Drop` pending the entry is live
    have live : 0 < s.strong x := Nat.pos_of_ne_zero fun zero =>
      settled x ⟨(wf.cache_root _ x entry).1, zero, wf.cached_not_dropped _ x entry⟩
    obtain ⟨s1, run, done⟩ := load_hit hc entry (by rwa [(apply_call start).2.2.2.2 x])
    exact ⟨2, by omega, s1, x, run, done⟩
  | none =>
    -- a miss: `rh` is stored, so the DB holds a record of it, and the record decodes
    obtain ⟨⟨id0, meta0, record, accepted⟩, -⟩ := stored.found.resolve_right fun ⟨h, cached, _⟩ => by
      rw [entry] at cached; cases cached
    obtain ⟨byId, byRoot⟩ := serialize_decodes L meta_ok accepted id meta0
    obtain ⟨s1, run, done⟩ := load_reads_back hc entry record (by cases rhOnly <;> assumption)
    exact ⟨4, Nat.le_refl 4, s1, _, run, done⟩

theorem stored_after_create {handleDb : UInt256 → Option Bytes}
    {stateDb : StateDb → String → Option Bytes} {pre : List Op} {id : BlockIdExt}
    {meta : BlockMeta} {h : Nat} {s0 s1 : Storage} {rs0 : List (Option Ret)}
    (before : (init handleDb stateDb).seqRun L pre = some (s0, rs0))
    (created : s0.seqStep L (.call (.createHandle id meta)) = some (s1, some (.handle (some h)))) :
    Reachable L s1 ∧ s1.Stored L id.rootHash := by
  have idle1 : s1.Idle := seqStep_idle (seqRun_idle (idle_init handleDb stateDb) before) created
  obtain ⟨entry, queue, -⟩ := seqStep_createHandle created
  refine ⟨?_, ⟨fun t api _ hc => absurd (idle1 t api _ hc) (by simp [Pc.isDone]),
      fun t api _ hc => absurd (idle1 t api _ hc) (by simp [Pc.isDone])⟩,
    Or.inr ⟨h, entry, s0.queue, [], queue, by simp⟩⟩
  obtain ⟨hd, sd, es, run⟩ := reachable_seqRun ⟨handleDb, stateDb, [], rfl⟩ before
  obtain ⟨es', -, -, run'⟩ := seqStep_run created
  exact ⟨hd, sd, es ++ es', by rw [run_append, run]; exact run'⟩

theorem shardsAccepted_after_create (closed : L.ShardsClosed) {handleDb : UInt256 → Option Bytes}
    {stateDb : StateDb → String → Option Bytes} {pre : List Op} {id : BlockIdExt}
    {meta : BlockMeta} {r : Option Ret} {s0 s1 : Storage} {rs0 : List (Option Ret)}
    (before : (init handleDb stateDb).seqRun L pre = some (s0, rs0))
    (created : s0.seqStep L (.call (.createHandle id meta)) = some (s1, r))
    (in_play : ∀ api, Op.call api ∈ pre ++ [.call (.createHandle id meta)] → api.Accepted L) :
    s1.ShardsAccepted L := by
  obtain ⟨es0, calls0, run0⟩ := seqRun_run before
  have shards0 := (shardsAccepted_init handleDb stateDb).run closed (wf_init _ _) run0
    fun api mem => in_play api (List.mem_append_left _ (calls0 api mem))
  obtain ⟨es1, calls1, -, run1⟩ := seqStep_run created
  exact shards0.run closed (wf_of_reachable ⟨handleDb, stateDb, es0, run0⟩) run1 fun api mem => by
    obtain rfl := Op.call.inj (calls1 api mem)
    exact in_play _ (by simp)

/-- A block `create_handle` has returned a handle for stays loadable: as long as no
    `drop_handle` for its root hash is issued, `load_handle_by_id` for any id of that root
    hash and `load_handle_by_root_hash` for it return a handle, from the cache or read back
    from the record, whatever jobs the storer has processed. The meta codec reads back what it
    writes, and `with_tagged_prefix` accepts the shards in play: the default one, those it
    returns, and those of the ids passed to the calls. -/
theorem created_block_stays_loadable
    (meta_ok : ∀ meta rest, ∃ m, L.metaDeserialize (L.metaSerialize meta ++ rest) = .ok (m, rest))
    (closed : L.ShardsClosed) {handleDb : UInt256 → Option Bytes} {stateDb : StateDb → String → Option Bytes}
    {pre post : List Op} {id : BlockIdExt} {meta : BlockMeta} {h : Nat} {s0 s1 s2 : Storage}
    {rs0 rs2 : List (Option Ret)}
    (before : (init handleDb stateDb).seqRun L pre = some (s0, rs0))
    (created : s0.seqStep L (.call (.createHandle id meta)) = some (s1, some (.handle (some h))))
    (after : s1.seqRun L post = some (s2, rs2))
    (no_drop : ∀ id', Op.call (.dropHandle id') ∈ post → id'.rootHash ≠ id.rootHash)
    (in_play : ∀ api, Op.call api ∈ pre ++ .call (.createHandle id meta) :: post → api.Accepted L) :
    (∀ id', id'.rootHash = id.rootHash →
      ∃ s3 x, s2.seqStep L (.call (.loadHandleById id')) = some (s3, some (.handle (some x)))) ∧
    ∃ s3 x, s2.seqStep L (.call (.loadHandleByRootHash id.rootHash)) =
      some (s3, some (.handle (some x))) := by
  obtain ⟨reach1, stored1⟩ := stored_after_create before created
  have shards1 := shardsAccepted_after_create closed before created fun api mem => in_play api (by
    rcases List.mem_append.mp mem with early | create
    · exact List.mem_append_left _ early
    · exact List.mem_append_right _ (List.mem_cons.mpr (.inl (List.mem_singleton.mp create))))
  obtain ⟨es, calls, run⟩ := seqRun_run after
  have stored2 := Stored.run closed (wf_of_reachable reach1) shards1 stored1 run
    (fun id' mem => no_drop id' (calls _ mem))
    (fun api mem => in_play api (List.mem_append_right _ (List.mem_cons_of_mem _ (calls _ mem))))
  have wf2 := wf_of_reachable (reachable_seqRun reach1 after)
  have settled2 := seqRun_not_dying (seqStep_not_dying created) after
  exact ⟨fun id' root => seqStep_load_stored meta_ok wf2 settled2 stored2 rfl root,
    seqStep_load_stored meta_ok wf2 settled2 stored2 rfl rfl⟩

/-- Have the storer write the new handle's record, then release the handle: its `Drop` takes
    the entry out of the cache, so both loads read the record back. -/
def storeAndRelease : List Op := [.store, .release 0]

theorem created_block_stays_loadable_after_release :
    (∀ meta rest, ∃ m,
      plainLib.metaDeserialize (plainLib.metaSerialize meta ++ rest) = .ok (m, rest)) ∧
    plainLib.ShardsClosed ∧
    ∃ s1 s2 rs2, (init (fun _ => none) fun _ _ => none).seqStep plainLib
        (.call (.createHandle masterchainSample.1 masterchainSample.2)) =
        some (s1, some (.handle (some 0))) ∧
      s1.seqRun plainLib storeAndRelease = some (s2, rs2) ∧
      (∀ id', Op.call (.dropHandle id') ∈ storeAndRelease →
        id'.rootHash ≠ masterchainSample.1.rootHash) ∧
      (∀ api, Op.call api ∈ [] ++ .call (.createHandle masterchainSample.1 masterchainSample.2) ::
        storeAndRelease → api.Accepted plainLib) ∧
      (∀ id', id'.rootHash = masterchainSample.1.rootHash → ∃ s3 x,
        s2.seqStep plainLib (.call (.loadHandleById id')) = some (s3, some (.handle (some x)))) ∧
      ∃ s3 x, s2.seqStep plainLib (.call (.loadHandleByRootHash masterchainSample.1.rootHash)) =
        some (s3, some (.handle (some x))) := by
  have no_drop : ∀ id', Op.call (.dropHandle id') ∈ storeAndRelease →
      id'.rootHash ≠ masterchainSample.1.rootHash := by
    simp [storeAndRelease]
  have in_play : ∀ api, Op.call api ∈ [] ++ .call (.createHandle masterchainSample.1
      masterchainSample.2) :: storeAndRelease → api.Accepted plainLib := fun api _ => by
    cases api <;> first | trivial | exact plainLib_accepts _
  have closed : plainLib.ShardsClosed := ⟨plainLib_accepts _, fun _ _ _ _ => plainLib_accepts _⟩
  exact ⟨plainLib_meta_reads_back, closed, _, _, _, rfl, rfl, no_drop, in_play,
    @created_block_stays_loadable plainLib plainLib_meta_reads_back closed
      (fun _ => none) (fun _ _ => none) [] storeAndRelease masterchainSample.1 masterchainSample.2 0
      _ _ _ _ _ rfl rfl rfl no_drop in_play⟩

/-! ### Loads over every interleaving -/

/-- What a `load_handle` of a found `rh` has secured at each of its steps: a record to read,
    or a handle whose queued save keeps it alive until its record is written; and once done, a
    handle. A load is at none of the other calls' steps. -/
def LoadOk (L : Lib) (rh : UInt256) (s : Storage) : Pc → Prop
  | .loadGet _ _ | .loadInsert _ _ _ => True
  | .loadUpgrade _ _ (some h) => s.Recorded L rh ∨ s.SavedLast rh h
  | .loadUpgrade _ _ none | .loadRead _ _ => s.Recorded L rh
  | .done r => ∃ h, r = .handle (some h)
  | _ => False

theorem LoadOk.step (noDrop : s.NoDropping rh) (shards : s.ShardsAccepted L) {pc : Pc}
    (carried : s.OnRoot (some rh) pc) (ok : s.LoadOk L rh pc) {e : Event}
    (step : s.apply L e = some s') : s'.LoadOk L rh pc := by
  cases pc
  case loadUpgrade id r w =>
    cases w with
    | none => exact Recorded.step noDrop shards ok step
    | some h =>
      rcases ok with recorded | saved
      · exact Or.inl (recorded.step noDrop shards step)
      · exact (saved.step noDrop shards (Option.some.inj carried.2.2).symm step).symm
  case loadRead id r => exact Recorded.step noDrop shards ok step
  all_goals exact ok

theorem LoadOk.exec
    (meta_ok : ∀ meta rest, ∃ m, L.metaDeserialize (L.metaSerialize meta ++ rest) = .ok (m, rest))
    (found : s.Found L rh) {pc : Pc} (carried : s.OnRoot (some rh) pc) (ok : s.LoadOk L rh pc)
    (cs : List (Api × Pc)) :
    ({ (s.exec L pc).1 with calls := cs } : Storage).LoadOk L rh (s.exec L pc).2 := by
  cases pc
  case loadGet id r =>
    obtain rfl : rh = id.rootHash := Option.some.inj carried
    show ({ s with calls := cs } : Storage).LoadOk L id.rootHash
      (.loadUpgrade id r (s.handleCache id.rootHash))
    rcases found with recorded | ⟨h, entry, saved⟩
    · cases s.handleCache id.rootHash
      · exact recorded
      · exact Or.inl recorded
    · rw [entry]; exact Or.inr saved
  case loadUpgrade id r w =>
    cases w with
    | none => exact ok
    | some h =>
      simp only [Storage.exec]
      split
      · exact ⟨h, rfl⟩
      · exact ok.resolve_right fun saved => by have := saved.strong_pos; omega
  case loadRead id r =>
    -- the record decodes, so the call goes on to insert what it read
    obtain rfl : rh = id.rootHash := Option.some.inj carried
    obtain ⟨⟨id0, meta0, record, accepted⟩, -⟩ := ok
    obtain ⟨byId, byRoot⟩ := serialize_decodes L meta_ok accepted id meta0
    cases r
    case false =>
      rcases dec : deserialize L id (serialize L id0 meta0) with e | ⟨m, b⟩
      · simp [dec, Except.isOk, Except.toBool] at byId
      · simp only [Storage.exec, record, dec, Bool.false_eq_true, ↓reduceIte]; trivial
    case true =>
      rcases dec : deserializeNonchecked L id (serialize L id0 meta0) with e | ⟨m, id'⟩
      · simp [dec, Except.isOk, Except.toBool] at byRoot
      · simp only [Storage.exec, record, dec, ↓reduceIte]; trivial
  case loadInsert id r m =>
    simp only [Storage.exec]
    split
    · exact ⟨_, rfl⟩
    · trivial
  case done r => exact ok
  all_goals exact (ok : False).elim

/-- Every load of `rh` started from call number `n0` on is at a step that secures a handle. -/
def LoadsOk (L : Lib) (rh : UInt256) (n0 : Nat) (s : Storage) : Prop :=
  ∀ (t : Nat) (api : Api) (pc : Pc), n0 ≤ t → s.calls[t]? = some (api, pc) →
    api.rootHash? = some rh → (∃ id rhOnly, api.start = .loadGet id rhOnly) → s.LoadOk L rh pc

theorem LoadsOk.step
    (meta_ok : ∀ meta rest, ∃ m, L.metaDeserialize (L.metaSerialize meta ++ rest) = .ok (m, rest))
    (shards : s.ShardsAccepted L) (onRoot : s.CallsOnRoot) (stored : s.Stored L rh) {n0 : Nat} (loads : s.LoadsOk L rh n0)
    {e : Event} (step : s.apply L e = some s') : s'.LoadsOk L rh n0 := by
  intro t api pc later hc key load
  rcases step_calls step hc with old | ⟨rfl, -, rfl⟩ | ⟨rfl, pc0, old, -, rfl, rfl⟩
  · exact (loads t api pc later old key load).step stored.toNoDropping shards
      (key ▸ onRoot t api pc old) step
  · obtain ⟨id, rhOnly, start⟩ := load
    rw [start]; trivial
  · exact LoadOk.exec meta_ok stored.found (key ▸ onRoot t api pc0 old)
      (loads t api pc0 later old key load) _

/-- Over every interleaving after a sequential `create_handle` has returned a handle: while no
    `drop_handle` for its root hash is issued, every `load_handle_by_id` for an id of that root
    hash and every `load_handle_by_root_hash` for it, started after the create, that returns,
    returns a handle, whatever calls, `Drop`s and storer steps run beside it. The codec
    premises are those of the sequential case above. -/
theorem concurrent_loads_find_created_block
    (meta_ok : ∀ meta rest, ∃ m, L.metaDeserialize (L.metaSerialize meta ++ rest) = .ok (m, rest))
    (closed : L.ShardsClosed) {handleDb : UInt256 → Option Bytes} {stateDb : StateDb → String → Option Bytes}
    {pre : List Op} {es : List Event} {id : BlockIdExt} {meta : BlockMeta} {h : Nat}
    {s0 s1 s2 : Storage} {rs0 : List (Option Ret)}
    (before : (init handleDb stateDb).seqRun L pre = some (s0, rs0))
    (created : s0.seqStep L (.call (.createHandle id meta)) = some (s1, some (.handle (some h))))
    (run : s1.run L es = some s2)
    (no_drop : ∀ id', Event.call (.dropHandle id') ∈ es → id'.rootHash ≠ id.rootHash)
    (in_play_before : ∀ api, Op.call api ∈ pre ++ [.call (.createHandle id meta)] → api.Accepted L)
    (in_play : ∀ api, Event.call api ∈ es → api.Accepted L) {t : Nat} {api : Api} {r : Ret} (later : s1.calls.length ≤ t)
    (load : (∃ id', api = .loadHandleById id' ∧ id'.rootHash = id.rootHash) ∨
      api = .loadHandleByRootHash id.rootHash)
    (returned : s2.calls[t]? = some (api, .done r)) :
    ∃ x, r = .handle (some x) := by
  obtain ⟨reach1, stored1⟩ := stored_after_create before created
  obtain ⟨-, -, -, -, loads⟩ := run_preserves (P := fun s => s.Wf ∧ s.CallsOnRoot ∧
      s.ShardsAccepted L ∧ s.Stored L id.rootHash ∧ s.LoadsOk L id.rootHash s1.calls.length)
    (Q := fun e => ∀ api, e = .call api →
      api.Accepted L ∧ ∀ id', api = .dropHandle id' → id'.rootHash ≠ id.rootHash)
    (fun ⟨wf, onRoot, shards, stored, loads⟩ allowed step => ⟨wf.step step, onRoot.step wf step,
      shards.step closed wf (fun api same => (allowed api same).1) step,
      stored.step wf shards (fun id' same => (allowed _ same).2 id' rfl) step,
      loads.step meta_ok shards onRoot stored step⟩)
    ⟨wf_of_reachable reach1, callsOnRoot_of_reachable reach1,
      shardsAccepted_after_create closed before created in_play_before, stored1,
      fun t _ _ late hc => absurd (List.getElem?_eq_some_iff.mp hc).1 (by omega)⟩
    (fun _ mem api same => ⟨in_play api (same ▸ mem),
      fun id' drop => no_drop id' (by subst same drop; exact mem)⟩) run
  rcases load with ⟨id', rfl, root⟩ | rfl
  · exact loads t _ _ later returned (by simp [Api.rootHash?, root]) ⟨id', false, rfl⟩
  · exact loads t _ _ later returned rfl ⟨_, true, rfl⟩

/-- While a load of the new handle waits between its get and its upgrade, the storer writes
    the record, the client releases the handle and its `Drop` takes the entry out: the upgrade
    fails, and the load reads the record back. -/
def releaseDuringLoad : List Event :=
  [.call (.loadHandleById masterchainSample.1), .tick 1, .store, .release 0, .drop 0, .tick 1,
    .tick 1, .tick 1]

theorem concurrent_loads_find_created_block_during_release :
    ∃ s1 s2, (init (fun _ => none) fun _ _ => none).seqStep plainLib
        (.call (.createHandle masterchainSample.1 masterchainSample.2)) =
        some (s1, some (.handle (some 0))) ∧
      s1.run plainLib releaseDuringLoad = some s2 ∧ s1.calls.length ≤ 1 ∧
      s2.calls[1]? = some (.loadHandleById masterchainSample.1, .done (.handle (some 1))) ∧
      ∃ x, Ret.handle (some 1) = .handle (some x) := by
  have no_drop : ∀ id', Event.call (.dropHandle id') ∈ releaseDuringLoad →
      id'.rootHash ≠ masterchainSample.1.rootHash := by
    simp [releaseDuringLoad]
  have closed : plainLib.ShardsClosed := ⟨plainLib_accepts _, fun _ _ _ _ => plainLib_accepts _⟩
  have accepted : ∀ api : Api, api.Accepted plainLib := fun api => by
    cases api <;> first | trivial | exact plainLib_accepts _
  exact ⟨_, _, rfl, rfl, Nat.le_refl 1, rfl,
    @concurrent_loads_find_created_block plainLib plainLib_meta_reads_back closed
      (fun _ => none) (fun _ _ => none) [] releaseDuringLoad masterchainSample.1 masterchainSample.2
      0 _ _ _ _ rfl rfl rfl no_drop (fun api _ => accepted api) (fun api _ => accepted api) 1 _ _
      (Nat.le_refl 1) (.inl ⟨_, rfl, rfl⟩) rfl⟩

end Storage

end BlockHandleDb
