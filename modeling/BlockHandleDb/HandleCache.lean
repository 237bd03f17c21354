import BlockHandleDb.Steps

/-!
The handle cache over every interleaving: each entry names an allocated, undropped handle of
its own root hash (`Wf`), each call works on its own root hash (`CallsOnRoot`), and without
`drop_handle` the live handles of a root hash are the cached one (`Kept`).
-/
namespace BlockHandleDb

/-- The root hash a call is about. -/
def Api.rootHash? : Api → Option UInt256
  | .createHandle id _ | .loadHandleById id | .dropHandle id => some id.rootHash
  | .loadHandleByRootHash rh | .loadFullBlockId rh => some rh
  | _ => none

namespace Storage

variable {L : Lib} {s s' : Storage}

theorem lt_of_dropped {x : Nat} (dropped : (s.handle x).dropped = true) : x < s.heap.length := by
  by_contra out
  rw [handle, List.getD_eq_getElem?_getD, List.getElem?_eq_none (Nat.le_of_not_lt out)] at dropped
  exact absurd dropped (by decide)

/-! ### The cache invariant -/

/-- What holds of the cache and the heap in every reachable state. -/
structure Wf (s : Storage) : Prop where
  cache_root : ∀ k h, s.handleCache k = some h → h < s.heap.length ∧ (s.handle h).id.rootHash = k
  live_allocated : ∀ h, 0 < s.strong h → h < s.heap.length
  dropped_dead : ∀ h, (s.handle h).dropped = true → s.strong h = 0
  cached_not_dropped : ∀ k h, s.handleCache k = some h → (s.handle h).dropped = false

theorem wf_init (handleDb : UInt256 → Option Bytes) (stateDb : StateDb → String → Option Bytes) :
    (init handleDb stateDb).Wf where
  cache_root := by simp [init]
  live_allocated := by simp [init, strong]
  dropped_dead := by simp [init, strong]
  cached_not_dropped := by simp [init]

theorem Wf.step (wf : s.Wf) {e : Event} (step : s.apply L e = some s') : s'.Wf := by
  obtain ⟨grown, same_id, dropped_step⟩ := step_handle step
  -- a handle live after the step was live before, or is new; either way not dropped before
  have live_fresh : ∀ x, 0 < s'.strong x → (s.handle x).dropped = false := by
    intro x pos
    rcases step_live step pos with old | ⟨rfl, -⟩
    · exact Bool.eq_false_iff.mpr fun d => by have := wf.dropped_dead x d; omega
    · exact Bool.eq_false_iff.mpr fun d => Nat.lt_irrefl _ (lt_of_dropped d)
  refine ⟨fun k h entry => ?cache_root, fun h pos => ?live_allocated, fun h dropped => ?dropped_dead,
    fun k h entry => ?cached_not_dropped⟩
  case cache_root =>
    rcases step_cache step k with same | ⟨-, new, id, meta, root, grow⟩ | ⟨gone, -⟩
    · obtain ⟨lt, root⟩ := wf.cache_root k h (same ▸ entry)
      exact ⟨by omega, by rw [same_id h lt, root]⟩
    · obtain rfl := Option.some.inj (new ▸ entry).symm
      exact ⟨by simp [grow], by rw [handle_of_new grow, root]⟩
    · simp [gone] at entry
  case live_allocated =>
    rcases step_live step pos with old | ⟨rfl, id, meta, -, grow, -⟩
    · exact Nat.lt_of_lt_of_le (wf.live_allocated h old) grown
    · simp [grow]
  case dropped_dead =>
    rcases dropped_step h dropped with before | ⟨rfl, dying⟩
    · refine Nat.eq_zero_of_not_pos fun pos => ?_
      simp [live_fresh h pos] at before
    · rw [(apply_drop step).2, strong_runDrop]; exact dying.2.1
  case cached_not_dropped =>
    refine Bool.eq_false_iff.mpr fun d => ?_
    rcases dropped_step h d with before | ⟨rfl, dying⟩
    · rcases step_cache step k with same | ⟨-, new, -⟩ | ⟨gone, -⟩
      · simp [wf.cached_not_dropped k h (same ▸ entry)] at before
      · obtain rfl := Option.some.inj (new ▸ entry).symm
        exact Nat.lt_irrefl _ (lt_of_dropped before)
      · simp [gone] at entry
    · obtain ⟨found, live⟩ := runDrop_cache ((apply_drop step).2 ▸ entry)
      have := live (wf.cache_root k h found).2.symm
      have := dying.2.1
      omega

theorem Wf.run (wf : s.Wf) {es : List Event} (run : s.run L es = some s') : s'.Wf :=
  run_preserves (Q := fun _ => True) (fun wf _ step => wf.step step) wf (fun _ _ => trivial) run

theorem wf_of_reachable (reach : Reachable L s) : s.Wf := by
  obtain ⟨handleDb, stateDb, es, run⟩ := reach
  exact (wf_init handleDb stateDb).run run

/-! ### Calls work on their own root hash -/

/-- A handle number, if any, names an allocated handle of the root hash `key`. -/
def RootedAt (s : Storage) (key : Option UInt256) : Option Nat → Prop
  | some h => h < s.heap.length ∧ key = some (s.handle h).id.rootHash
  | none => True

/-- What a call about the root hash `key` carries at `pc`: ids of that root hash and handles
    of it; what it returns is about it too. A call about no root hash (`save_handle`, the
    node-state calls) is at none of the handle-cache steps. -/
def OnRoot (s : Storage) (key : Option UInt256) : Pc → Prop
  | .createInsert id _ | .loadGet id _ | .loadRead id _ | .loadInsert id _ _ | .dropRemove id
  | .dropSend id => key = some id.rootHash
  | .createSend h | .fullRelease h => s.RootedAt key (some h)
  | .loadUpgrade id _ weak => key = some id.rootHash ∧ s.RootedAt key weak
  | .fullGet rh | .fullRead rh => key = some rh
  | .fullUpgrade rh weak => key = some rh ∧ s.RootedAt key weak
  | .done (.handle h) => s.RootedAt key h
  | .done (.fullId id) => ∀ full, id = some full → key = some full.rootHash
  | .saveSend _ | .stateSave _ _ _ | .stateSaveSend _ _ _ | .stateDrop _ _ | .stateDropSend _ _
  | .stateGet _ _ | .stateRead _ _ | .stateCreate _ _ _ | .done (.state _) => key = none
  | .done .unit | .done (.error _) => True

/-- Every call in flight is on the root hash it is about. -/
def CallsOnRoot (s : Storage) : Prop :=
  ∀ (t : Nat) (api : Api) (pc : Pc), s.calls[t]? = some (api, pc) → s.OnRoot api.rootHash? pc

theorem RootedAt.step {key : Option UInt256} {w : Option Nat} {e : Event}
    (step : s.apply L e = some s') (rooted : s.RootedAt key w) : s'.RootedAt key w := by
  obtain ⟨grown, same_id, -⟩ := step_handle step
  cases w with
  | none => trivial
  | some h => exact ⟨by have := rooted.1; omega, by rw [same_id h rooted.1]; exact rooted.2⟩

theorem OnRoot.step {key : Option UInt256} {e : Event} (step : s.apply L e = some s') {pc : Pc}
    (carried : s.OnRoot key pc) : s'.OnRoot key pc := by
  have rooted : ∀ w, s.RootedAt key w → s'.RootedAt key w := fun _ => RootedAt.step step
  cases pc with
  | createSend h | fullRelease h => exact rooted (some h) carried
  | loadUpgrade _ _ w | fullUpgrade _ w => exact ⟨carried.1, rooted _ carried.2⟩
  | done r =>
    cases r with
    | handle w => exact rooted _ carried
    | _ => exact carried
  | _ => exact carried

theorem OnRoot.start (api : Api) : s.OnRoot api.rootHash? api.start := by
  cases api <;> simp [Api.rootHash?, Api.start, OnRoot, BlockMeta.setFlags]

theorem OnRoot.exec (wf : s.Wf) {key : Option UInt256} {pc : Pc} (carried : s.OnRoot key pc) :
    (s.exec L pc).1.OnRoot key (s.exec L pc).2 := by
  cases pc
  case loadGet id rhOnly | fullGet id =>
    simp only [Storage.exec]
    refine ⟨carried, ?_⟩
    cases entry : s.handleCache _ with
    | none => trivial
    | some h =>
      obtain ⟨lt, root⟩ := wf.cache_root _ h entry
      exact ⟨lt, by rw [root]; exact carried⟩
  case loadUpgrade id rhOnly w | fullUpgrade id w =>
    obtain ⟨rfl, rooted⟩ := carried
    simp only [Storage.exec]
    (repeat' split) <;> simp_all [OnRoot, RootedAt]
  case loadRead id rhOnly =>
    simp only [Storage.exec]
    (repeat' split) <;> simp only [OnRoot, RootedAt]
    all_goals first
      | exact carried
      | rw [rootHash_deserializeNonchecked L ‹_›]; exact carried
  case fullRead rh =>
    simp only [Storage.exec]
    (repeat' split) <;> simp only [OnRoot, RootedAt]
    all_goals first
      | simp
      | exact fun full same => by subst same; rw [rootHash_deserializeFullId L ‹_›]; exact carried
  all_goals simp only [Storage.exec]; (repeat' split) <;> simp_all [OnRoot, RootedAt]

theorem callsOnRoot_init {handleDb : UInt256 → Option Bytes}
    {stateDb : StateDb → String → Option Bytes} : (init handleDb stateDb).CallsOnRoot :=
  fun t api pc hc => by simp [init] at hc

theorem CallsOnRoot.step (wf : s.Wf) (carried : s.CallsOnRoot) {e : Event}
    (step : s.apply L e = some s') : s'.CallsOnRoot := fun t api pc hc => by
  rcases step_calls step hc with old | ⟨-, -, rfl⟩ | ⟨-, pc0, old, -, rfl, rfl⟩
  · exact (carried t api pc old).step step
  · exact OnRoot.start api
  · exact (carried t api pc0 old).exec wf

theorem callsOnRoot_of_reachable (reach : Reachable L s) : s.CallsOnRoot := by
  obtain ⟨handleDb, stateDb, es, run⟩ := reach
  refine (run_preserves (P := fun s => s.Wf ∧ s.CallsOnRoot) (Q := fun _ => True)
    (fun inv _ step => ⟨inv.1.step step, inv.2.step inv.1 step⟩) ⟨wf_init _ _, ?_⟩
    (fun _ _ => trivial) run).2
  exact callsOnRoot_init

/-! ### One live handle per root hash -/

/-- No call is removing `rh` from the cache, and every live handle of root hash `rh` is the
    one cached under it. -/
structure Kept (rh : UInt256) (s : Storage) : Prop where
  no_remove : ∀ (t : Nat) (api : Api) (id : BlockIdExt),
    s.calls[t]? = some (api, .dropRemove id) → id.rootHash ≠ rh
  live_cached : ∀ h, 0 < s.strong h → (s.handle h).id.rootHash = rh → s.handleCache rh = some h

theorem kept_init {handleDb : UInt256 → Option Bytes} {stateDb : StateDb → String → Option Bytes}
    {rh : UInt256} : (init handleDb stateDb).Kept rh where
  no_remove := by simp [init]
  live_cached := by simp [init, strong]

theorem Kept.step {rh : UInt256} (wf : s.Wf) (kept : s.Kept rh) {e : Event}
    (step : s.apply L e = some s') (other : ∀ id, e = .call (.dropHandle id) → id.rootHash ≠ rh) :
    s'.Kept rh := by
  obtain ⟨-, same_id, -⟩ := step_handle step
  refine ⟨fun t api id hc => ?_, fun h pos root => ?_⟩
  · rcases step_calls step hc with old | ⟨rfl, -, start⟩ | ⟨-, pc0, -, -, next, -⟩
    · exact kept.no_remove t api id old
    · exact other id (by rw [Api.start_eq_dropRemove start.symm])
    · exact absurd next.symm (exec_ne_dropRemove s pc0 id)
  · rcases step_live step pos with old | ⟨rfl, id, meta, -, grow, cache⟩
    · have lt := wf.live_allocated h old
      have entry := kept.live_cached h old (by rw [← same_id h lt]; exact root)
      rcases step_cache step rh with same | ⟨none, -⟩ | ⟨-, ⟨t, api, id, hc, r⟩ | ⟨x, found, dead⟩⟩
      · rw [same, entry]
      · simp [entry] at none
      · exact absurd r (kept.no_remove t api id hc)
      · rw [entry] at found; cases found; omega
    · rw [handle_of_new grow] at root
      rw [cache, ← root, Function.update_same]

/-- With no `drop_handle` for `rh` in a run, every cache entry names a handle of its own root
    hash, and the handles that calls about `rh` returned and that are still alive are one
    object. -/
theorem returned_handles_unique {handleDb : UInt256 → Option Bytes}
    {stateDb : StateDb → String → Option Bytes} {es : List Event} {s : Storage} {rh : UInt256}
    (run : (init handleDb stateDb).run L es = some s)
    (no_drop : ∀ id, Event.call (.dropHandle id) ∈ es → id.rootHash ≠ rh) :
    (∀ k h, s.handleCache k = some h → (s.handle h).id.rootHash = k) ∧
    ∀ (t t' : Nat) (api api' : Api) (h h' : Nat), s.calls[t]? = some (api, .done (.handle (some h))) →
      s.calls[t']? = some (api', .done (.handle (some h'))) →
      api.rootHash? = some rh → api'.rootHash? = some rh →
      0 < s.strong h → 0 < s.strong h' → h = h' := by
  obtain ⟨wf, onRoot, kept⟩ := run_preserves (P := fun s => s.Wf ∧ s.CallsOnRoot ∧ s.Kept rh)
    (Q := fun e => ∀ id, e = .call (.dropHandle id) → id.rootHash ≠ rh)
    (fun inv other step => ⟨inv.1.step step, inv.2.1.step inv.1 step, inv.2.2.step inv.1 step other⟩)
    ⟨wf_init _ _, callsOnRoot_init, kept_init⟩ (fun e mem id same => no_drop id (same ▸ mem)) run
  refine ⟨fun k h entry => (wf.cache_root k h entry).2, fun t t' api api' h h' ret ret' key key' live
    live' => Option.some.inj ?_⟩
  have root : (s.handle h).id.rootHash = rh :=
    Option.some.inj ((onRoot t api _ ret).2.symm.trans key)
  have root' : (s.handle h').id.rootHash = rh :=
    Option.some.inj ((onRoot t' api' _ ret').2.symm.trans key')
  rw [← kept.live_cached h live root, ← kept.live_cached h' live' root']

/-- `create_handle` for a block, then `load_handle_by_id` for it while the first handle is
    held. -/
def createThenLoad : List Event :=
  [.call (.createHandle masterchainSample.1 masterchainSample.2), .tick 0, .tick 0,
    .call (.loadHandleById masterchainSample.1), .tick 1, .tick 1]

theorem returned_handles_unique_create_then_load :
    ∃ s, (init (fun _ => none) (fun _ _ => none)).run plainLib createThenLoad = some s ∧
      (∀ id, Event.call (.dropHandle id) ∈ createThenLoad →
        id.rootHash ≠ masterchainSample.1.rootHash) ∧
      (∀ k h, s.handleCache k = some h → (s.handle h).id.rootHash = k) ∧
      ∀ (t t' : Nat) (api api' : Api) (h h' : Nat), s.calls[t]? = some (api, .done (.handle (some h))) →
        s.calls[t']? = some (api', .done (.handle (some h'))) →
        api.rootHash? = some masterchainSample.1.rootHash →
        api'.rootHash? = some masterchainSample.1.rootHash →
        0 < s.strong h → 0 < s.strong h' → h = h' := by
  have no_drop : ∀ id, Event.call (.dropHandle id) ∈ createThenLoad →
      id.rootHash ≠ masterchainSample.1.rootHash := by
    simp [createThenLoad]
  obtain ⟨s, run⟩ : ∃ s, (init (fun _ => none) (fun _ _ => none)).run plainLib createThenLoad =
    some s := ⟨_, rfl⟩
  exact ⟨s, run, no_drop, returned_handles_unique run no_drop⟩

/-! ### Entries are live -/

theorem load_hit {t : Nat} {api : Api} {id : BlockIdExt} {rhOnly : Bool} {h : Nat}
    (hc : s.calls[t]? = some (api, .loadGet id rhOnly)) (entry : s.handleCache id.rootHash = some h)
    (live : 0 < s.strong h) :
    ∃ s', s.run L (List.replicate 2 (.tick t)) = some s' ∧
      s'.calls[t]? = some (api, .done (.handle (some h))) := by
  obtain ⟨lt, -⟩ := List.getElem?_eq_some_iff.mp hc
  have still : ({ s with calls := s.calls.set t (api, .loadUpgrade id rhOnly (some h)) }).strong h =
      s.strong h := strong_set_calls hc h rfl
  simp only [run, apply, hc, Pc.isDone, Bool.false_eq_true, ↓reduceIte, exec, entry,
    Option.bind_some, Option.some_bind, List.length_set, lt, List.getElem?_eq_getElem,
    List.getElem_set_self, still, live, List.set_set, Option.some.injEq, exists_eq_left',
    List.replicate]

theorem load_reads_back {t : Nat} {api : Api} {id : BlockIdExt} {rhOnly : Bool} {data : Bytes}
    (hc : s.calls[t]? = some (api, .loadGet id rhOnly)) (entry : s.handleCache id.rootHash = none)
    (record : s.handleDb id.rootHash = some data)
    (decoded : (if rhOnly then (deserializeNonchecked L id data).isOk
      else (deserialize L id data).isOk) = true) :
    ∃ s', s.run L (List.replicate 4 (.tick t)) = some s' ∧
      s'.calls[t]? = some (api, .done (.handle (some s.heap.length))) := by
  obtain ⟨lt, -⟩ := List.getElem?_eq_some_iff.mp hc
  cases rhOnly
  case' false => rcases dec : deserialize L id data with _ | ⟨meta, _⟩
  case' true =>
    rcases dec : deserializeNonchecked L id data with _ | ⟨meta, id'⟩ <;>
      try have := rootHash_deserializeNonchecked L dec
  all_goals simp only [dec, ↓reduceIte, Bool.false_eq_true, Except.isOk, Except.toBool] at decoded
  all_goals simp only [run, apply, Pc.isDone, Bool.false_eq_true, ↓reduceIte, exec,
    Option.bind_some, Option.some_bind, List.length_set, List.getElem?_eq_getElem,
    List.getElem_set_self, List.set_set, give_handleCache, insert_handleCache, Option.some.injEq,
    exists_eq_left', List.replicate, *]

theorem load_alone (wf : s.Wf) (settled : ∀ h, ¬ s.Dying h) {t : Nat} {api : Api}
    {id : BlockIdExt} {rhOnly : Bool} (hc : s.calls[t]? = some (api, .loadGet id rhOnly)) :
    ∃ n ≤ 4, ∃ s' r, s.run L (List.replicate n (.tick t)) = some s' ∧
      s'.calls[t]? = some (api, .done r) := by
  cases entry : s.handleCache id.rootHash with
  | some h =>
    -- a hit: the entry is live, so the upgrade succeeds
    have live : 0 < s.strong h := by
      by_contra dead
      exact settled h ⟨(wf.cache_root _ h entry).1, by omega, wf.cached_not_dropped _ h entry⟩
    obtain ⟨s', run, done⟩ := load_hit hc entry live
    exact ⟨2, by omega, s', _, run, done⟩
  | none =>
    -- a miss: the call reads the DB and inserts what it decoded, or returns what it found
    obtain ⟨lt, -⟩ := List.getElem?_eq_some_iff.mp hc
    cases db : s.handleDb id.rootHash with
    | none =>
      refine ⟨3, by omega, ?_⟩
      simp only [run, apply, Pc.isDone, Bool.false_eq_true, ↓reduceIte, exec, Option.bind_some,
        Option.some_bind, List.length_set, List.getElem?_eq_getElem, List.getElem_set_self,
        List.set_set, Option.some.injEq, exists_and_left, exists_eq_left', Prod.mk.injEq,
        Pc.done.injEq, true_and, exists_eq', hc, lt, entry, db]
    | some data =>
      cases decoded : (if rhOnly then (deserializeNonchecked L id data).isOk
          else (deserialize L id data).isOk)
      case true =>
        obtain ⟨s', run, done⟩ := load_reads_back hc entry db decoded
        exact ⟨4, Nat.le_refl 4, s', _, run, done⟩
      -- the decoder fails: the call returns its error at the third step
      refine ⟨3, by omega, ?_⟩
      cases rhOnly
      case' false => rcases dec : deserialize L id data with _ | ⟨meta, _⟩
      case' true => rcases dec : deserializeNonchecked L id data with _ | ⟨meta, id'⟩
      all_goals simp only [dec, ↓reduceIte, Bool.false_eq_true, Except.isOk, Except.toBool,
        Bool.true_eq_false] at decoded
      all_goals simp only [run, apply, Pc.isDone, Bool.false_eq_true, ↓reduceIte, exec,
        Option.bind_some, Option.some_bind, List.length_set, List.getElem?_eq_getElem,
        List.getElem_set_self, List.set_set, Option.some.injEq, exists_and_left, exists_eq_left',
        Prod.mk.injEq, Pc.done.injEq, true_and, exists_eq', hc, lt, entry, db, dec]

/-- In every reachable state each cache entry names a handle whose `Drop` has not run: a live
    handle, or a dying one whose `Drop`, when it runs, takes the entry out. So with no `Drop`
    pending every entry is live, and `load_handle` run alone leaves its loop on the first
    pass. -/
theorem cache_entries_live (reach : Reachable L s) :
    (∀ k h, s.handleCache k = some h → (s.handle h).dropped = false ∧
      (0 < s.strong h ∨ s.Dying h ∧ (s.runDrop h).handleCache k = none)) ∧
    ((∀ h, ¬ s.Dying h) →
      (∀ k h, s.handleCache k = some h → 0 < s.strong h) ∧
      ∀ (t : Nat) (api : Api) (id : BlockIdExt) (rhOnly : Bool),
        s.calls[t]? = some (api, .loadGet id rhOnly) →
        ∃ n ≤ 4, ∃ s' r, s.run L (List.replicate n (.tick t)) = some s' ∧
          s'.calls[t]? = some (api, .done r)) := by
  have wf := wf_of_reachable reach
  have entries : ∀ k h, s.handleCache k = some h → (s.handle h).dropped = false ∧
      (0 < s.strong h ∨ s.Dying h ∧ (s.runDrop h).handleCache k = none) := by
    intro k h entry
    refine ⟨wf.cached_not_dropped k h entry, ?_⟩
    by_cases live : 0 < s.strong h
    · exact .inl live
    · -- the entry is dead, so the `Drop` of its handle removes it
      obtain ⟨lt, root⟩ := wf.cache_root k h entry
      have dead : s.strong h = 0 := by omega
      exact .inr ⟨⟨lt, dead, wf.cached_not_dropped k h entry⟩,
        by simp [runDrop, removeWith, root, entry, dead]⟩
  refine ⟨entries, fun settled => ⟨fun k h entry => ?_, fun t api id rhOnly hc => load_alone wf settled hc⟩⟩
  exact (entries k h entry).2.resolve_right fun dying => settled h dying.1

/-- After `create_handle` and the start of a `load_handle_by_id` for the same block. -/
def createThenStartLoad : List Event :=
  [.call (.createHandle masterchainSample.1 masterchainSample.2), .tick 0, .tick 0,
    .call (.loadHandleById masterchainSample.1)]

theorem cache_entries_live_create_then_load :
    ∃ s, (init (fun _ => none) (fun _ _ => none)).run plainLib createThenStartLoad = some s ∧
      Reachable plainLib s ∧
      (∀ k h, s.handleCache k = some h → (s.handle h).dropped = false ∧
        (0 < s.strong h ∨ s.Dying h ∧ (s.runDrop h).handleCache k = none)) ∧
      ((∀ h, ¬ s.Dying h) →
        (∀ k h, s.handleCache k = some h → 0 < s.strong h) ∧
        ∀ (t : Nat) (api : Api) (id : BlockIdExt) (rhOnly : Bool),
        s.calls[t]? = some (api, .loadGet id rhOnly) →
          ∃ n ≤ 4, ∃ s' r, s.run plainLib (List.replicate n (.tick t)) = some s' ∧
            s'.calls[t]? = some (api, .done r)) := by
  obtain ⟨s, run⟩ : ∃ s, (init (fun _ => none) (fun _ _ => none)).run plainLib
    createThenStartLoad = some s := ⟨_, rfl⟩
  exact ⟨s, run, ⟨_, _, _, run⟩, cache_entries_live ⟨_, _, _, run⟩⟩

end Storage

end BlockHandleDb
