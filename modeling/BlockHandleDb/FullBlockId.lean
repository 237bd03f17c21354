import BlockHandleDb.CreateHandle

/-!
`load_full_block_id` after `create_handle`. While nothing drops the root hash and no other id
of it is created or loaded, every live handle and record of it carries the created id
(`IdKept`), so every `load_full_block_id` started afterwards that returns, returns that id.
-/
namespace BlockHandleDb

/-- Where a call of `load_full_block_id` can stand: at one of its steps, or returned with an
    id or an error. -/
def Pc.inFullLoad : Pc → Bool
  | .fullGet _ | .fullUpgrade _ _ | .fullRelease _ | .fullRead _ | .done (.fullId _)
  | .done (.error _) => true
  | _ => false

/-- An event that keeps `id` the only id of its root hash: no `drop_handle` for the root hash,
    and `create_handle` and `load_handle_by_id` for it only with `id` itself. -/
def KeepsId (id : BlockIdExt) : Event → Prop
  | .call (.dropHandle id') => id'.rootHash ≠ id.rootHash
  | .call (.createHandle id' _) | .call (.loadHandleById id') => id'.rootHash = id.rootHash → id' = id
  | _ => True

namespace Storage

variable {L : Lib} {s s' : Storage} {id : BlockIdExt} {n0 : Nat}

/-! ### Calls of `load_full_block_id` stay in their steps -/

theorem exec_inFullLoad (s : Storage) {pc : Pc} (full : pc.inFullLoad = true) :
    (s.exec L pc).2.inFullLoad = true := by
  cases pc
  case done r => exact full
  case fullGet | fullUpgrade | fullRelease | fullRead => simp only [exec]; (repeat' split) <;> rfl
  all_goals cases full

/-- Every call of `load_full_block_id` is at one of its steps, or has returned an id or an
    error. -/
def FullLoadsShaped (s : Storage) : Prop :=
  ∀ (t : Nat) (rh : UInt256) (pc : Pc), s.calls[t]? = some (.loadFullBlockId rh, pc) →
    pc.inFullLoad = true

theorem FullLoadsShaped.step (shaped : s.FullLoadsShaped) {e : Event}
    (step : s.apply L e = some s') : s'.FullLoadsShaped := by
  intro t rh pc hc
  rcases step_calls step hc with old | ⟨-, -, rfl⟩ | ⟨-, pc0, old, -, rfl, -⟩
  · exact shaped t rh pc old
  · rfl
  · exact exec_inFullLoad s (shaped t rh pc0 old)

theorem fullLoadsShaped_of_reachable (reach : Reachable L s) : s.FullLoadsShaped := by
  obtain ⟨handleDb, stateDb, es, run⟩ := reach
  exact run_preserves (P := FullLoadsShaped) (Q := fun _ => True)
    (fun shaped _ step => shaped.step step) (fun t rh pc hc => by simp [init] at hc)
    (fun _ _ => trivial) run

/-! ### Nothing drops the root hash -/

/-- No `drop_handle` about `rh` is in flight, and no `DropHandle` of it is queued. -/
structure Undropped (rh : UInt256) (s : Storage) extends s.NoDropping rh : Prop where
  no_drop_job : ∀ id, StoreJob.dropHandle id ∈ s.queue → id.rootHash ≠ rh

theorem undropped_init {handleDb : UInt256 → Option Bytes}
    {stateDb : StateDb → String → Option Bytes} {rh : UInt256} :
    (init handleDb stateDb).Undropped rh where
  no_remove := by simp [init]
  no_drop_send := by simp [init]
  no_drop_job := by simp [init]

theorem Undropped.step {rh : UInt256} (undropped : s.Undropped rh) {e : Event}
    (allowed : ∀ id, e = .call (.dropHandle id) → id.rootHash ≠ rh)
    (step : s.apply L e = some s') : s'.Undropped rh := by
  refine ⟨undropped.toNoDropping.step allowed step, fun id mem => ?_⟩
  by_cases other : e = .store
  · subst other
    obtain ⟨job, rest, queue, rfl⟩ := apply_store step
    exact undropped.no_drop_job id (queue ▸ List.mem_cons_of_mem _ (by simpa using mem))
  · obtain ⟨-, extra, queue, fresh⟩ := undropped.toNoDropping.appends step other
    exact (List.mem_append.mp (queue ▸ mem)).elim (undropped.no_drop_job id) (fresh id)

theorem Undropped.run {rh : UInt256} (undropped : s.Undropped rh) {es : List Event}
    (run : s.run L es = some s')
    (no_drop : ∀ id, Event.call (.dropHandle id) ∈ es → id.rootHash ≠ rh) : s'.Undropped rh :=
  run_preserves (P := fun s => s.Undropped rh)
    (Q := fun e => ∀ id, e = .call (.dropHandle id) → id.rootHash ≠ rh)
    (fun undropped allowed step => undropped.step allowed step) undropped
    (fun _ mem id same => no_drop id (same ▸ mem)) run

/-! ### What a step does to a block -/

theorem step_live_root (wf : s.Wf) (onRoot : s.CallsOnRoot) {e : Event}
    (step : s.apply L e = some s') {x : Nat} (pos : 0 < s'.strong x) {rh : UInt256}
    (root : (s'.handle x).id.rootHash = rh) :
    (0 < s.strong x ∧ (s.handle x).id.rootHash = rh ∧ (s'.handle x).id = (s.handle x).id ∧
      (s'.handle x).meta = (s.handle x).meta) ∨
    ∃ (t : Nat) (api : Api) (pc : Pc), s.calls[t]? = some (api, pc) ∧ pc.isDone = false ∧
      api.rootHash? = some rh ∧ (pc = .createInsert (s'.handle x).id (s'.handle x).meta ∨
        ∃ r, pc = .loadInsert (s'.handle x).id r (s'.handle x).meta) := by
  rcases step_live step pos with old | ⟨rfl, id', meta', -, grow, -⟩
  · have lt := wf.live_allocated x old
    have same_id := (step_handle step).2.1 x lt
    exact .inl ⟨old, same_id ▸ root, same_id, step_meta step lt⟩
  · obtain ⟨t, api, pc, hc, notDone, insert⟩ := step_alloc step grow
    rw [handle_of_new grow] at root ⊢
    rcases insert with rfl | ⟨r, rfl⟩ <;>
      exact .inr ⟨t, api, _, hc, notDone, (onRoot t api _ hc).trans (congrArg some root), by simp⟩

/-! ### The id kept -/

/-- The DB holds `id`'s record, with `FLAG_HAS_FULL_ID` set. -/
def Written (L : Lib) (id : BlockIdExt) (s : Storage) : Prop :=
  ∃ meta, meta.hasFullId = true ∧ s.handleDb id.rootHash = some (serialize L id meta)

/-- What a `Weak` of `id.rootHash` read from the cache secures: `id`'s record is written, or
    the handle it points to has its save still queued, which keeps it alive. -/
def Backed (L : Lib) (id : BlockIdExt) (s : Storage) (weak : Option Nat) : Prop :=
  s.Written L id ∨ ∃ h, weak = some h ∧ StoreJob.saveHandle h ∈ s.queue

/-- What a call about `id.rootHash` has secured at each of its steps: the id it inserts with
    is `id` and the meta carries the flag; an upgrade that fails leaves `id`'s record to read;
    and it returns neither another id nor an error. -/
def IdOk (L : Lib) (id : BlockIdExt) (s : Storage) : Pc → Prop
  | .createInsert id' meta | .loadInsert id' _ meta => id' = id ∧ meta.hasFullId = true
  | .loadGet id' rhOnly => rhOnly = false → id' = id
  | .loadUpgrade id' rhOnly weak => (rhOnly = false → id' = id) ∧ s.Backed L id weak
  | .loadRead id' rhOnly => (rhOnly = false → id' = id) ∧ s.Written L id
  | .fullUpgrade _ weak => s.Backed L id weak
  | .fullRead _ => s.Written L id
  | .done (.fullId full) => full = some id
  | .done (.error _) | .dropRemove _ | .dropSend _ => False
  | _ => True

/-- After `create_handle` of `id`: nothing drops `id.rootHash`, every live handle of it carries
    `id` and `FLAG_HAS_FULL_ID`, its cache entry is backed, and every call about it started
    from call number `n0` on has secured its step; the calls before are done. -/
structure IdKept (L : Lib) (id : BlockIdExt) (n0 : Nat) (s : Storage)
    extends s.Undropped id.rootHash : Prop where
  live_id : ∀ h, 0 < s.strong h → (s.handle h).id.rootHash = id.rootHash →
    (s.handle h).id = id ∧ (s.handle h).meta.hasFullId = true
  found : s.Backed L id (s.handleCache id.rootHash)
  started : n0 ≤ s.calls.length
  before_done : ∀ (t : Nat) (api : Api) (pc : Pc), t < n0 → s.calls[t]? = some (api, pc) →
    pc.isDone = true
  calls_ok : ∀ (t : Nat) (api : Api) (pc : Pc), n0 ≤ t → s.calls[t]? = some (api, pc) →
    api.rootHash? = some id.rootHash → s.IdOk L id pc

theorem IdKept.save_written (kept : s.IdKept L id n0) {y : Nat}
    (queued : StoreJob.saveHandle y ∈ s.queue) (root : (s.handle y).id.rootHash = id.rootHash)
    (write : s'.handleDb id.rootHash = some (serialize L (s.handle y).id (s.handle y).meta)) :
    s'.Written L id := by
  obtain ⟨same, full⟩ := kept.live_id y (queued_strong_pos queued) root
  exact ⟨_, full, by rwa [same] at write⟩

theorem Written.step (kept : s.IdKept L id n0) (written : s.Written L id) {e : Event}
    (step : s.apply L e = some s') : s'.Written L id := by
  obtain ⟨meta, full, record⟩ := written
  rcases step_record step id.rootHash with same | ⟨y, queued, root, write⟩ | ⟨id', queued, root, -⟩
  · exact ⟨meta, full, same.trans record⟩
  · exact kept.save_written queued root write
  · exact absurd root (kept.no_drop_job id' queued)

theorem Backed.written {weak : Option Nat} (backed : s.Backed L id weak)
    (dead : ∀ h, weak = some h → s.strong h = 0) : s.Written L id :=
  backed.resolve_right fun ⟨h, same, queued⟩ => by
    have := queued_strong_pos queued
    have := dead h same
    omega

theorem Backed.step (kept : s.IdKept L id n0) {weak : Option Nat}
    (root : ∀ h, weak = some h → (s.handle h).id.rootHash = id.rootHash)
    (backed : s.Backed L id weak) {e : Event} (step : s.apply L e = some s') :
    s'.Backed L id weak := by
  rcases backed with written | ⟨h, rfl, queued⟩
  · exact .inl (written.step kept step)
  rcases step_saves step queued with later | write
  · exact .inr ⟨h, rfl, later⟩
  · exact .inl (kept.save_written queued (root h rfl) (by rwa [root h rfl] at write))

theorem IdOk.step (kept : s.IdKept L id n0) {pc : Pc} (carried : s.OnRoot (some id.rootHash) pc)
    (ok : s.IdOk L id pc) {e : Event} (step : s.apply L e = some s') : s'.IdOk L id pc := by
  have rooted : ∀ {weak}, s.RootedAt (some id.rootHash) weak →
      ∀ h, weak = some h → (s.handle h).id.rootHash = id.rootHash :=
    fun rooted h same => by subst same; exact (Option.some.inj rooted.2).symm
  cases pc
  case loadUpgrade => exact ⟨ok.1, ok.2.step kept (rooted carried.2) step⟩
  case loadRead => exact ⟨ok.1, ok.2.step kept step⟩
  case fullUpgrade => exact Backed.step kept (rooted carried.2) ok step
  case fullRead => exact Written.step kept ok step
  case done r => cases r <;> exact ok
  all_goals exact ok

theorem IdOk.start {api : Api} (keeps : KeepsId id (.call api))
    (about : api.rootHash? = some id.rootHash) : s.IdOk L id api.start := by
  cases api <;> simp only [Api.rootHash?, Option.some.injEq, reduceCtorEq] at about
  case createHandle id' meta => exact ⟨keeps about, by simp [BlockMeta.hasFullId]⟩
  case loadHandleById id' => exact fun _ => keeps about
  case loadHandleByRootHash => exact fun same => by cases same
  case loadFullBlockId => trivial
  case dropHandle id' => exact absurd about keeps

theorem IdOk.exec
    (meta_round_trip : ∀ meta rest, ∃ m, L.metaDeserialize (L.metaSerialize meta ++ rest) =
      .ok (m, rest) ∧ m.hasFullId = meta.hasFullId)
    (valid_shard :
      L.withTaggedPrefix id.shardId.workchainId id.shardId.shardPrefixWithTag = .ok id.shardId)
    (kept : s.IdKept L id n0) {t : Nat} {api : Api} {pc : Pc} (hc : s.calls[t]? = some (api, pc))
    (carried : s.OnRoot (some id.rootHash) pc) (ok : s.IdOk L id pc) (cs : List (Api × Pc)) :
    ({ (s.exec L pc).1 with calls := cs } : Storage).IdOk L id (s.exec L pc).2 := by
  cases pc
  case createInsert => simp only [Storage.exec]; split <;> trivial
  case loadGet id' r =>
    have root : id'.rootHash = id.rootHash := (Option.some.inj carried).symm
    exact ⟨ok, by rw [root]; exact kept.found⟩
  case loadUpgrade id' r weak =>
    cases weak with
    | none => exact ⟨ok.1, ok.2.written (by simp)⟩
    | some h =>
      simp only [Storage.exec]
      split
      · trivial
      · exact ⟨ok.1, ok.2.written fun h' same => by cases same; omega⟩
  case loadRead id' r =>
    -- the record is `id`'s and flagged, so both readers decode it to `id`
    obtain ⟨meta, full, record⟩ := ok.2
    have root : id'.rootHash = id.rootHash := (Option.some.inj carried).symm
    cases r
    case false =>
      obtain rfl : id = id' := (ok.1 rfl).symm
      obtain ⟨m, -, -, -, dec⟩ := serialize_round_trip L id meta (meta_round_trip meta) valid_shard
      simp only [Storage.exec, record, dec, Bool.false_eq_true, ↓reduceIte]
      exact ⟨rfl, by simp [BlockMeta.hasFullId]⟩
    case true =>
      obtain ⟨m, flag, dec⟩ :=
        deserializeNonchecked_serialize L (meta_round_trip meta) valid_shard full root
      simp only [Storage.exec, root, record, dec, ↓reduceIte]
      exact ⟨rfl, flag⟩
  case loadInsert id' r m =>
    simp only [Storage.exec]
    split
    · trivial
    · exact fun _ => ok.1
  case fullGet rh =>
    obtain rfl : id.rootHash = rh := Option.some.inj carried
    exact kept.found
  case fullUpgrade rh weak =>
    cases weak with
    | none => exact ok.written (by simp)
    | some h =>
      simp only [Storage.exec]
      split
      · trivial
      · exact ok.written fun h' same => by cases same; omega
  case fullRelease h =>
    have live : 0 < s.strong h := holds_strong_pos hc (by simp [Pc.holds])
    exact congrArg some (kept.live_id h live (Option.some.inj carried.2).symm).1
  case fullRead rh =>
    obtain rfl : id.rootHash = rh := Option.some.inj carried
    obtain ⟨meta, full, record⟩ := ok
    obtain ⟨-, -, dec, -⟩ := serialize_round_trip L id meta (meta_round_trip meta) valid_shard
    simp only [Storage.exec, record, dec, full, ↓reduceIte]
    rfl
  case dropRemove | dropSend => exact ok.elim
  case done r => exact ok
  case createSend | saveSend => trivial
  -- a call about a root hash is at none of the node-state steps
  all_goals cases carried

theorem IdKept.step
    (meta_round_trip : ∀ meta rest, ∃ m, L.metaDeserialize (L.metaSerialize meta ++ rest) =
      .ok (m, rest) ∧ m.hasFullId = meta.hasFullId)
    (valid_shard :
      L.withTaggedPrefix id.shardId.workchainId id.shardId.shardPrefixWithTag = .ok id.shardId)
    (wf : s.Wf) (onRoot : s.CallsOnRoot) (kept : s.IdKept L id n0) {e : Event}
    (keeps : KeepsId id e) (step : s.apply L e = some s') : s'.IdKept L id n0 where
  toUndropped := kept.toUndropped.step (fun id' same => by subst same; exact keeps) step
  live_id x pos root := by
    rcases step_live_root wf onRoot step pos root with ⟨old, root, same_id, same_meta⟩ |
      ⟨t, api, pc, hc, notDone, about, insert⟩
    · rw [same_id, same_meta]
      exact kept.live_id x old root
    · -- a new live handle comes from an insert step, which carries `id` and a flagged meta
      have later : n0 ≤ t := Nat.le_of_not_lt fun early => by
        simp [kept.before_done t api pc early hc] at notDone
      rcases insert with rfl | ⟨r, rfl⟩ <;> exact kept.calls_ok t api _ later hc about
  found := by
    rcases step_cache step id.rootHash with same | ⟨none, -⟩ | ⟨gone, ⟨t, api, id', hc, root⟩ | ⟨x, dead, zero⟩⟩
    · rw [same]
      exact kept.found.step kept (fun h entry => (wf.cache_root _ h entry).2) step
    · have backed := kept.found
      rw [none] at backed
      exact .inl ((backed.written (by simp)).step kept step)
    · exact absurd root (kept.no_remove t api id' hc)
    · rw [gone]
      exact .inl ((kept.found.written fun h same => by rw [dead] at same; cases same; exact zero).step
        kept step)
  started := Nat.le_trans kept.started (calls_length_step step)
  before_done t api pc early hc := by
    rcases step_calls step hc with old | ⟨-, rfl, -⟩ | ⟨-, pc0, old, notDone, -, -⟩
    · exact kept.before_done t api pc early old
    · exact absurd kept.started (by omega)
    · simp [kept.before_done t api pc0 early old] at notDone
  calls_ok t api pc later hc about := by
    rcases step_calls step hc with old | ⟨rfl, -, rfl⟩ | ⟨rfl, pc0, old, -, rfl, rfl⟩
    · exact (kept.calls_ok t api pc later old about).step kept (about ▸ onRoot t api pc old) step
    · exact IdOk.start keeps about
    · exact IdOk.exec meta_round_trip valid_shard kept old (about ▸ onRoot t api pc0 old)
        (kept.calls_ok t api pc0 later old about) _

theorem idKept_after_create {handleDb : UInt256 → Option Bytes}
    {stateDb : StateDb → String → Option Bytes} {pre : List Op} {meta : BlockMeta} {h : Nat}
    {s0 s1 : Storage} {rs0 : List (Option Ret)}
    (before : (init handleDb stateDb).seqRun L pre = some (s0, rs0))
    (no_drop_before : ∀ id', Op.call (.dropHandle id') ∈ pre → id'.rootHash ≠ id.rootHash)
    (created : s0.seqStep L (.call (.createHandle id meta)) = some (s1, some (.handle (some h)))) :
    Reachable L s1 ∧ s1.IdKept L id s1.calls.length := by
  obtain ⟨es0, calls0, run0⟩ := seqRun_run before
  obtain ⟨es1, calls1, -, run1⟩ := seqStep_run created
  have run : (init handleDb stateDb).run L (es0 ++ es1) = some s1 := by
    rw [run_append, run0]; exact run1
  have no_drop : ∀ id', Event.call (.dropHandle id') ∈ es0 ++ es1 → id'.rootHash ≠ id.rootHash :=
    fun id' mem => (List.mem_append.mp mem).elim (fun mem => no_drop_before id' (calls0 _ mem))
      (fun mem => by cases calls1 _ mem)
  obtain ⟨-, kept⟩ := run_preserves (P := fun s => s.Wf ∧ s.Kept id.rootHash)
    (Q := fun e => ∀ id', e = .call (.dropHandle id') → id'.rootHash ≠ id.rootHash)
    (fun inv other step => ⟨inv.1.step step, inv.2.step inv.1 step other⟩) ⟨wf_init _ _, kept_init⟩
    (fun _ mem id' same => no_drop id' (same ▸ mem)) run
  have idle := seqStep_idle (seqRun_idle (idle_init handleDb stateDb) before) created
  obtain ⟨entry, queue, same_id, same_meta⟩ := seqStep_createHandle created
  refine ⟨⟨_, _, _, run⟩, { undropped_init.run run no_drop with
    live_id := fun x live root => ?_
    found := .inr ⟨h, entry, by simp [queue]⟩
    started := Nat.le_refl _
    before_done := fun t api pc _ hc => idle t api pc hc
    calls_ok := fun t api pc late hc => absurd (List.getElem?_eq_some_iff.mp hc).1 (by omega) }⟩
  -- the live handle of the root hash is the cached one, the handle just created
  obtain rfl : x = h := Option.some.inj ((kept.live_cached x live root).symm.trans entry)
  exact ⟨same_id, by simp [same_meta, BlockMeta.hasFullId]⟩

/-- Over every interleaving after a sequential `create_handle` of `id` has returned a handle:
    while no `drop_handle` for its root hash is issued, before or after, and `create_handle`
    and `load_handle_by_id` for that root hash are given `id` only, every `load_full_block_id`
    for it started after the create that returns, returns `id`, whether it clones the id of the
    live handle or reads the record the storer wrote. -/
theorem full_block_id_is_created_id
    (meta_round_trip : ∀ meta rest, ∃ m, L.metaDeserialize (L.metaSerialize meta ++ rest) =
      .ok (m, rest) ∧ m.hasFullId = meta.hasFullId)
    (valid_shard :
      L.withTaggedPrefix id.shardId.workchainId id.shardId.shardPrefixWithTag = .ok id.shardId)
    {handleDb : UInt256 → Option Bytes} {stateDb : StateDb → String → Option Bytes}
    {pre : List Op} {es : List Event} {meta : BlockMeta} {h : Nat} {s0 s1 s2 : Storage}
    {rs0 : List (Option Ret)}
    (before : (init handleDb stateDb).seqRun L pre = some (s0, rs0))
    (no_drop_before : ∀ id', Op.call (.dropHandle id') ∈ pre → id'.rootHash ≠ id.rootHash)
    (created : s0.seqStep L (.call (.createHandle id meta)) = some (s1, some (.handle (some h))))
    (run : s1.run L es = some s2) (keeps : ∀ e ∈ es, KeepsId id e)
    {t : Nat} {r : Ret} (later : s1.calls.length ≤ t)
    (returned : s2.calls[t]? = some (.loadFullBlockId id.rootHash, .done r)) :
    r = .fullId (some id) := by
  obtain ⟨reach1, kept1⟩ := idKept_after_create before no_drop_before created
  obtain ⟨-, -, shaped, kept⟩ := run_preserves (P := fun s => s.Wf ∧ s.CallsOnRoot ∧
      s.FullLoadsShaped ∧ s.IdKept L id s1.calls.length) (Q := KeepsId id)
    (fun ⟨wf, onRoot, shaped, kept⟩ keeps step => ⟨wf.step step, onRoot.step wf step,
      shaped.step step, kept.step meta_round_trip valid_shard wf onRoot keeps step⟩)
    ⟨wf_of_reachable reach1, callsOnRoot_of_reachable reach1, fullLoadsShaped_of_reachable reach1,
      kept1⟩ keeps run
  have ok := kept.calls_ok t _ _ later returned rfl
  have shape := shaped t _ _ returned
  cases r
  case fullId full => exact congrArg Ret.fullId ok
  case error => exact ok.elim
  all_goals cases shape

/-- While a `load_full_block_id` of the new block waits between its get and its upgrade, the
    storer writes the record, the client releases the handle and its `Drop` takes the entry out:
    the upgrade fails, and the id is read back from the record. -/
def fullLoadDuringRelease : List Event :=
  [.call (.loadFullBlockId masterchainSample.1.rootHash), .tick 1, .store, .release 0, .drop 0,
    .tick 1, .tick 1]

theorem full_block_id_is_created_id_during_release :
    ∃ s1 s2, (init (fun _ => none) fun _ _ => none).seqStep plainLib
        (.call (.createHandle masterchainSample.1 masterchainSample.2)) =
        some (s1, some (.handle (some 0))) ∧
      s1.run plainLib fullLoadDuringRelease = some s2 ∧ s1.calls.length ≤ 1 ∧
      s2.calls[1]? = some (.loadFullBlockId masterchainSample.1.rootHash,
        .done (.fullId (some masterchainSample.1))) ∧
      Ret.fullId (some masterchainSample.1) = .fullId (some masterchainSample.1) := by
  have keeps : ∀ e ∈ fullLoadDuringRelease, KeepsId masterchainSample.1 e := by
    simp [fullLoadDuringRelease, KeepsId]
  exact ⟨_, _, rfl, rfl, Nat.le_refl 1, rfl,
    @full_block_id_is_created_id plainLib masterchainSample.1
      (fun meta rest => ⟨meta, plainLib_meta_round_trip meta rest, rfl⟩) rfl (fun _ => none)
      (fun _ _ => none) [] fullLoadDuringRelease masterchainSample.2 0 _ _ _ _ rfl (by simp) rfl rfl
      keeps 1 _ (Nat.le_refl 1) rfl⟩

end Storage

end BlockHandleDb
