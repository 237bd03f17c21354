import BlockHandleDb.Sequential
import Mathlib.Data.List.Basic

/-!
The node-state API against what it is for: one map from keys to block ids per store. Run one
call at a time it refines the maps when each key keeps to one store and no key is loaded while
the last job queued about it is a deletion.
-/
namespace BlockHandleDb

def setAt {α : Type} (f : StateDb → String → Option α) (X : StateDb) (key : String)
    (v : Option α) : StateDb → String → Option α :=
  Function.update f X (Function.update (f X) key v)

theorem setAt_apply {α : Type} (f : StateDb → String → Option α) (X X' : StateDb)
    (key key' : String) (v : Option α) :
    setAt f X key v X' key' = if (X', key') = (X, key) then v else f X' key' := by
  by_cases hX : X' = X
  · subst hX; by_cases hk : key' = key <;> simp [setAt, hk]
  · simp [setAt, hX]

@[simp] theorem setAt_same {α : Type} (f : StateDb → String → Option α) (X : StateDb)
    (key : String) (v : Option α) : setAt f X key v X key = v := by
  simp [setAt_apply]

theorem setAt_other {α : Type} (f : StateDb → String → Option α) {X X' : StateDb}
    {key key' : String} (v : Option α) (ne : (X', key') ≠ (X, key)) :
    setAt f X key v X' key' = f X' key' := by
  simp [setAt_apply, ne]

/-- What the node-state API is for: one map from keys to block ids per store. -/
abbrev NodeStates := StateDb → String → Option BlockIdExt

namespace NodeStates

def empty : NodeStates := fun _ _ => none

/-- One operation on the maps and what it returns; a storer step changes nothing. -/
def step (m : NodeStates) : Op → NodeStates × Option Ret
  | .call (.saveState X key id) => (setAt m X key (some id), some .unit)
  | .call (.dropState X key) => (setAt m X key none, some .unit)
  | .call (.loadState X key) => (m, some (.state (m X key)))
  | _ => (m, none)

def run (m : NodeStates) : List Op → NodeStates × List (Option Ret)
  | [] => (m, [])
  | op :: ops => (((m.step op).1.run ops).1, (m.step op).2 :: ((m.step op).1.run ops).2)

/-- DBs that hold the maps' ids, serialized. -/
def persisted (L : Lib) (m : NodeStates) : StateDb → String → Option Bytes :=
  fun X key => (m X key).map L.idSerialize

end NodeStates

/-- The store and key a node-state job is about. -/
def StoreJob.key? : StoreJob → Option (StateDb × String)
  | .saveState X key _ | .dropState X key => some (X, key)
  | _ => none

/-- What the storer does to the node-state DBs when it takes the job. -/
def StoreJob.onStateDb (L : Lib) (db : StateDb → String → Option Bytes) :
    StoreJob → StateDb → String → Option Bytes
  | .saveState X key id => setAt db X key (some (L.idSerialize id))
  | .dropState X key => setAt db X key none
  | _ => db

/-- The storer's queue after `op` in a node-state run: a save or a drop sends its job, a
    storer step takes the first one. -/
def Op.queueAfter (q : List StoreJob) : Op → List StoreJob
  | .call (.saveState X key id) => q ++ [.saveState X key id]
  | .call (.dropState X key) => q ++ [.dropState X key]
  | .store => q.tail
  | _ => q

def pendingAfter (q : List StoreJob) (ops : List Op) : List StoreJob := ops.foldl Op.queueAfter q

/-- The last job queued in `q` about `key` in store `X`. -/
def lastAbout (q : List StoreJob) (X : StateDb) (key : String) : Option StoreJob :=
  (q.filter fun j => j.key? == some (X, key)).getLast?

/-- A node-state operation on the store `own` gives its key, or a storer step. -/
def Op.OnOwnStore (own : String → StateDb) : Op → Prop
  | .call (.saveState X key _) | .call (.dropState X key) | .call (.loadState X key) =>
    X = own key
  | .store => True
  | _ => False

/-- The storer takes a step only when a job is queued (it waits on its channel), and no
    `load_state` of a key runs while the last job queued about it is a `DropState`: such a load
    misses the cache and reads the DB before the deletion. -/
def Scheduled : List StoreJob → List Op → Prop
  | _, [] => True
  | q, op :: ops =>
    (op = .store → q ≠ []) ∧
      (∀ X key, op = .call (.loadState X key) → lastAbout q X key ≠ some (.dropState X key)) ∧
      Scheduled (op.queueAfter q) ops

namespace Storage

variable {L : Lib} {s s' : Storage}

/-- The node-state DBs once the storer has taken every queued job. -/
def drainedStateDb (L : Lib) (s : Storage) : StateDb → String → Option Bytes :=
  s.queue.foldl (StoreJob.onStateDb L) s.stateDb

/-! ### Sequential node-state calls -/

theorem storeJob_stateDb (s : Storage) (j : StoreJob) :
    (s.storeJob L j).stateDb = j.onStateDb L s.stateDb := by
  cases j <;> rfl

theorem seqStep_saveState (s : Storage) (X : StateDb) (key : String) (id : BlockIdExt) :
    ∃ s', s.seqStep L (.call (.saveState X key id)) = some (s', some .unit) ∧
      s'.stateCache = Function.update s.stateCache key (some id) ∧
      s'.queue = s.queue ++ [.saveState X key id] ∧ s'.stateDb = s.stateDb := by
  simp only [send, setState, seqStep, apply, begin, Api.start, finish, Pc.isDone, exec, Option.some_bind,
    List.getElem?_concat_length, set_concat_length, Bool.false_eq_true, ↓reduceIte,
    Option.map_some', Option.some.injEq, Prod.mk.injEq, and_true, exists_eq_left',
    settle_stateCache, settle_queue, settle_stateDb, and_self]

theorem seqStep_dropState (s : Storage) (X : StateDb) (key : String) :
    ∃ s', s.seqStep L (.call (.dropState X key)) = some (s', some .unit) ∧
      s'.stateCache = Function.update s.stateCache key none ∧
      s'.queue = s.queue ++ [.dropState X key] ∧ s'.stateDb = s.stateDb := by
  simp only [send, setState, seqStep, apply, begin, Api.start, finish, Pc.isDone, exec, Option.some_bind,
    List.getElem?_concat_length, set_concat_length, Bool.false_eq_true, ↓reduceIte,
    Option.map_some', Option.some.injEq, Prod.mk.injEq, and_true, exists_eq_left',
    settle_stateCache, settle_queue, settle_stateDb, and_self]

theorem seqStep_loadState_hit (s : Storage) (X : StateDb) {key : String} {id : BlockIdExt}
    (hit : s.stateCache key = some id) :
    ∃ s', s.seqStep L (.call (.loadState X key)) = some (s', some (.state (some id))) ∧
      s'.stateCache = s.stateCache ∧ s'.queue = s.queue ∧ s'.stateDb = s.stateDb := by
  simp only [hit, seqStep, apply, begin, Api.start, finish, Pc.isDone, exec, Option.some_bind,
    List.getElem?_concat_length, set_concat_length, Bool.false_eq_true, ↓reduceIte,
    Option.map_some', Option.some.injEq, Prod.mk.injEq, and_true, exists_eq_left',
    settle_stateCache, settle_queue, settle_stateDb, and_self]

theorem seqStep_loadState_miss (s : Storage) (X : StateDb) (key : String) (v : Option BlockIdExt)
    (miss : s.stateCache key = none) (db : s.stateDb X key = v.map L.idSerialize)
    (inverse : ∀ id, L.idDeserialize (L.idSerialize id) = .ok id) :
    ∃ s', s.seqStep L (.call (.loadState X key)) = some (s', some (.state v)) ∧
      s'.stateCache = Function.update s.stateCache key v ∧
      s'.queue = s.queue ∧ s'.stateDb = s.stateDb := by
  cases v <;> simp only [setState, miss, db, inverse, Option.map_none', Function.eq_update_self_iff,
    seqStep, apply, begin, Api.start, finish, Pc.isDone, exec, Option.some_bind,
    List.getElem?_concat_length, set_concat_length, Bool.false_eq_true, ↓reduceIte,
    Option.map_some', Option.some.injEq, Prod.mk.injEq, and_true, exists_eq_left',
    settle_stateCache, settle_queue, settle_stateDb, and_self]

theorem seqStep_store_job {j : StoreJob} {rest : List StoreJob} (queue : s.queue = j :: rest) :
    ∃ s', s.seqStep L .store = some (s', none) ∧ s'.queue = rest ∧
      s'.stateCache = s.stateCache ∧ s'.stateDb = j.onStateDb L s.stateDb := by
  refine ⟨_, by simp only [seqStep, apply, queue]; rfl, ?_, ?_, ?_⟩
  · simp only [settle_queue]; cases j <;> rfl
  · simp only [settle_stateCache]; cases j <;> rfl
  · simp only [settle_stateDb, storeJob_stateDb]

/-! ### The drained DBs -/

theorem onStateDb_of_key_ne {j : StoreJob} {X : StateDb} {key : String}
    (ne : j.key? ≠ some (X, key)) (db : StateDb → String → Option Bytes) :
    j.onStateDb L db X key = db X key := by
  cases j
  case saveState X' key' id => exact setAt_other _ _ fun same => ne (by rw [same]; rfl)
  case dropState X' key' => exact setAt_other _ _ fun same => ne (by rw [same]; rfl)
  all_goals rfl

theorem foldl_onStateDb_untouched {q : List StoreJob} {X : StateDb} {key : String}
    (untouched : ∀ j ∈ q, j.key? ≠ some (X, key)) (db : StateDb → String → Option Bytes) :
    q.foldl (StoreJob.onStateDb L) db X key = db X key := by
  induction q generalizing db with
  | nil => rfl
  | cons j q ih =>
    rw [List.foldl_cons, ih (fun j' mem => untouched j' (List.mem_cons_of_mem _ mem)),
      onStateDb_of_key_ne (untouched j (List.mem_cons_self _ _))]

theorem untouched_of_drained_none {q : List StoreJob} {X : StateDb} {key : String}
    {db : StateDb → String → Option Bytes} (notDrop : lastAbout q X key ≠ some (.dropState X key))
    (empty : q.foldl (StoreJob.onStateDb L) db X key = none) :
    ∀ j ∈ q, j.key? ≠ some (X, key) := by
  induction q using List.reverseRecOn with
  | nil => simp
  | append_singleton q j ih =>
    rw [List.foldl_append, List.foldl_cons, List.foldl_nil] at empty
    by_cases touch : j.key? = some (X, key)
    · -- `j` is the last job about the key: a save leaves its id, and a deletion is excluded
      exfalso
      cases j with
      | saveState X' key' id =>
        obtain ⟨rfl, rfl⟩ := Prod.mk.inj (Option.some.inj touch)
        simp [StoreJob.onStateDb] at empty
      | dropState X' key' =>
        obtain ⟨rfl, rfl⟩ := Prod.mk.inj (Option.some.inj touch)
        exact notDrop (by simp [lastAbout, StoreJob.key?])
      | _ => cases touch
    · rw [onStateDb_of_key_ne touch] at empty
      have notDrop' : lastAbout q X key ≠ some (.dropState X key) := by
        simpa [lastAbout, touch] using notDrop
      intro j' mem
      rcases List.mem_append.mp mem with mem | mem
      · exact ih notDrop' empty j' mem
      · rw [List.mem_singleton.mp mem]; exact touch

/-! ### Refinement -/

variable {own : String → StateDb} {m : NodeStates}

/-- The storage holds the maps `m`, each key in the store `own` gives it: the DBs hold them
    once the storer has drained, a cached id is the map's, and for a key with no cached id
    the drained DB holds nothing there or no queued job is about it. -/
structure Refines (L : Lib) (own : String → StateDb) (m : NodeStates) (s : Storage) : Prop where
  drained : ∀ X key, s.drainedStateDb L X key = (m X key).map L.idSerialize
  cached : ∀ key id, s.stateCache key = some id → m (own key) key = some id
  uncached : ∀ key, s.stateCache key = none →
    s.drainedStateDb L (own key) key = none ∨ ∀ j ∈ s.queue, j.key? ≠ some (own key, key)

theorem refines_init (handleDb : UInt256 → Option Bytes) (own : String → StateDb)
    (m : NodeStates) : Refines L own m (init handleDb (m.persisted L)) :=
  ⟨fun _ _ => rfl, fun _ _ hit => Option.noConfusion hit, fun _ _ => .inr (by simp [init])⟩

theorem Refines.write (inv : Refines L own m s) {key : String} {v : Option BlockIdExt}
    {j : StoreJob} (about : j.key? = some (own key, key))
    (effect : ∀ db, j.onStateDb L db = setAt db (own key) key (v.map L.idSerialize))
    (cache : s'.stateCache = Function.update s.stateCache key v)
    (queue : s'.queue = s.queue ++ [j]) (db : s'.stateDb = s.stateDb) :
    Refines L own (setAt m (own key) key v) s' := by
  have drained : s'.drainedStateDb L =
      setAt (s.drainedStateDb L) (own key) key (v.map L.idSerialize) := by
    rw [drainedStateDb, queue, db, List.foldl_append]; exact effect _
  refine ⟨fun X k => ?_, fun k id hit => ?_, fun k miss => ?_⟩
  · rw [drained, setAt_apply, setAt_apply]; split
    · rfl
    · exact inv.drained X k
  · by_cases same : k = key
    · subst same; rw [cache, Function.update_same] at hit; simp [hit]
    · rw [cache, Function.update_noteq same] at hit
      rw [setAt_other _ _ (by simp [same])]; exact inv.cached k id hit
  · by_cases same : k = key
    · subst same; rw [cache, Function.update_same] at miss; subst miss
      exact .inl (by rw [drained]; simp)
    · rw [cache, Function.update_noteq same] at miss
      rw [drained, setAt_other _ _ (by simp [same]), queue]
      refine (inv.uncached k miss).imp id fun untouched j' mem => ?_
      rcases List.mem_append.mp mem with mem | mem
      · exact untouched j' mem
      · rw [List.mem_singleton.mp mem, about]; simp [Ne.symm same]

theorem Refines.load (inv : Refines L own m s) {key : String}
    (cache : s'.stateCache = Function.update s.stateCache key (m (own key) key))
    (queue : s'.queue = s.queue) (db : s'.stateDb = s.stateDb) : Refines L own m s' := by
  have drained : s'.drainedStateDb L = s.drainedStateDb L := by
    rw [drainedStateDb, drainedStateDb, queue, db]
  refine ⟨fun X k => drained ▸ inv.drained X k, fun k id hit => ?_, fun k miss => ?_⟩
  · by_cases same : k = key
    · subst same; rw [cache, Function.update_same] at hit; exact hit
    · rw [cache, Function.update_noteq same] at hit; exact inv.cached k id hit
  · rw [drained, queue]
    by_cases same : k = key
    · subst same; rw [cache, Function.update_same] at miss
      exact .inl (by rw [inv.drained, miss]; rfl)
    · rw [cache, Function.update_noteq same] at miss; exact inv.uncached k miss

theorem Refines.store (inv : Refines L own m s) {j : StoreJob} {rest : List StoreJob}
    (queue : s.queue = j :: rest) (queue' : s'.queue = rest)
    (cache : s'.stateCache = s.stateCache) (db : s'.stateDb = j.onStateDb L s.stateDb) :
    Refines L own m s' := by
  have drained : s'.drainedStateDb L = s.drainedStateDb L := by
    rw [drainedStateDb, drainedStateDb, queue, queue', db]; rfl
  refine ⟨fun X k => drained ▸ inv.drained X k, fun k id hit => inv.cached k id (cache ▸ hit),
    fun k miss => ?_⟩
  rw [drained, queue']
  exact (inv.uncached k (cache ▸ miss)).imp id fun untouched j' mem =>
    untouched j' (queue ▸ List.mem_cons_of_mem _ mem)

theorem Refines.stateDb_of_miss (inv : Refines L own m s) {key : String}
    (miss : s.stateCache key = none)
    (noDrop : lastAbout s.queue (own key) key ≠ some (.dropState (own key) key)) :
    s.stateDb (own key) key = (m (own key) key).map L.idSerialize := by
  have untouched : ∀ j ∈ s.queue, j.key? ≠ some (own key, key) :=
    (inv.uncached key miss).elim (untouched_of_drained_none noDrop) id
  rw [← inv.drained, drainedStateDb, foldl_onStateDb_untouched untouched]

section Inverse

variable (inverse : ∀ id, L.idDeserialize (L.idSerialize id) = .ok id)
include inverse

theorem Refines.seqStep (inv : Refines L own m s) {op : Op} (owned : op.OnOwnStore own)
    (job : op = .store → s.queue ≠ [])
    (noDrop : ∀ X key, op = .call (.loadState X key) →
      lastAbout s.queue X key ≠ some (.dropState X key)) :
    ∃ s', s.seqStep L op = some (s', (m.step op).2) ∧ s'.queue = op.queueAfter s.queue ∧
      Refines L own (m.step op).1 s' := by
  cases op with
  | call api =>
    cases api <;> simp only [Op.OnOwnStore] at owned <;> subst owned
    case saveState key id =>
      obtain ⟨s', step, cache, queue, db⟩ := seqStep_saveState (L := L) s (own key) key id
      exact ⟨s', step, queue, inv.write (j := .saveState _ key id) rfl (fun _ => rfl) cache queue db⟩
    case dropState key =>
      obtain ⟨s', step, cache, queue, db⟩ := seqStep_dropState (L := L) s (own key) key
      exact ⟨s', step, queue, inv.write (j := .dropState _ key) rfl (fun _ => rfl) cache queue db⟩
    case loadState key =>
      cases hit : s.stateCache key with
      | some id =>
        obtain ⟨s', step, cache, queue, db⟩ := seqStep_loadState_hit (L := L) s (own key) hit
        have held := inv.cached key id hit
        have kept : s'.stateCache = Function.update s.stateCache key (m (own key) key) := by
          rw [cache, held, ← hit, Function.update_eq_self]
        exact ⟨s', by rw [step, NodeStates.step, held], queue, inv.load kept queue db⟩
      | none =>
        obtain ⟨s', step, cache, queue, db⟩ := seqStep_loadState_miss s (own key) key _ hit
          (inv.stateDb_of_miss hit (noDrop _ _ rfl)) inverse
        exact ⟨s', step, queue, inv.load cache queue db⟩
  | release h => exact owned.elim
  | store =>
    obtain ⟨j, rest, queue⟩ := List.exists_cons_of_ne_nil (job rfl)
    obtain ⟨s', step, queue', cache, db⟩ := seqStep_store_job (L := L) queue
    exact ⟨s', step, by rw [queue', Op.queueAfter, queue]; rfl, inv.store queue queue' cache db⟩

theorem Refines.seqRun (inv : Refines L own m s) {ops : List Op}
    (owned : ∀ op ∈ ops, op.OnOwnStore own) (scheduled : Scheduled s.queue ops) :
    ∃ s' rs, s.seqRun L ops = some (s', rs) ∧ rs = (m.run ops).2 ∧
      s'.queue = pendingAfter s.queue ops ∧ Refines L own (m.run ops).1 s' := by
  induction ops generalizing s m with
  | nil => exact ⟨s, [], rfl, rfl, rfl, inv⟩
  | cons op ops ih =>
    obtain ⟨job, noDrop, later⟩ := scheduled
    obtain ⟨s1, step, queue, inv1⟩ :=
      inv.seqStep inverse (owned op (List.mem_cons_self _ _)) job noDrop
    obtain ⟨s', rs, run, rfl, pending, inv'⟩ :=
      ih inv1 (fun op' mem => owned op' (List.mem_cons_of_mem _ mem)) (queue ▸ later)
    refine ⟨s', _, seqRun_cons_eq_some.mpr ⟨s1, _, _, step, run, rfl⟩, rfl, ?_, inv'⟩
    rw [pending, queue]; rfl

/-- The node-state API refines the two maps: when each key is used with one store only, the
    storer steps only with a job queued, and no key is loaded while the last job queued about
    it is a deletion, a sequential run from DBs holding the maps returns what the maps return,
    and once the storer has drained the DBs hold the maps' final ids. -/
theorem node_states_refine (own : String → StateDb) (m : NodeStates)
    (handleDb : UInt256 → Option Bytes) {ops : List Op}
    (owned : ∀ op ∈ ops, op.OnOwnStore own) (scheduled : Scheduled [] ops) :
    ∃ s rs, (init handleDb (m.persisted L)).seqRun L ops = some (s, rs) ∧
      rs = (m.run ops).2 ∧ s.queue = pendingAfter [] ops ∧
      (s.queue = [] → s.stateDb = (m.run ops).1.persisted L) := by
  obtain ⟨s, rs, run, results, queue, inv⟩ :=
    (refines_init handleDb own m).seqRun inverse owned scheduled
  refine ⟨s, rs, run, results, queue, fun drained => funext fun X => funext fun key => ?_⟩
  show s.stateDb X key = ((m.run ops).1 X key).map L.idSerialize
  rw [← inv.drained X key, drainedStateDb, drained]; rfl

end Inverse

def sampleKey : String := "last"

/-- Save a full-node state and load it, let the storer write it, drop it and save another id,
    load it while the deletion is still queued, let the storer take both jobs, then drop it,
    let the storer delete it, and load it again. -/
def saveDropRun : List Op :=
  [.call (.saveFullNodeState sampleKey sampleFullId), .call (.loadFullNodeState sampleKey), .store,
    .call (.dropFullNodeState sampleKey), .call (.saveFullNodeState sampleKey masterchainSample.1),
    .call (.loadFullNodeState sampleKey), .store, .store, .call (.dropFullNodeState sampleKey), .store,
    .call (.loadFullNodeState sampleKey)]

theorem node_states_refine_save_drop :
    (∀ id, plainLib.idDeserialize (plainLib.idSerialize id) = .ok id) ∧
    (∀ op ∈ saveDropRun, op.OnOwnStore fun _ => .fullNode) ∧ Scheduled [] saveDropRun ∧
    ∃ s rs, (init (fun _ => none) (NodeStates.empty.persisted plainLib)).seqRun plainLib
        saveDropRun = some (s, rs) ∧
      rs = (NodeStates.empty.run saveDropRun).2 ∧ s.queue = pendingAfter [] saveDropRun ∧
      (s.queue = [] → s.stateDb = (NodeStates.empty.run saveDropRun).1.persisted plainLib) :=
  have owned : ∀ op ∈ saveDropRun, op.OnOwnStore fun _ => .fullNode := by
    simp [saveDropRun, Op.OnOwnStore, Api.saveFullNodeState, Api.loadFullNodeState,
      Api.dropFullNodeState]
  have scheduled : Scheduled [] saveDropRun := by
    simp [saveDropRun, Scheduled, Op.queueAfter, lastAbout, StoreJob.key?, Api.saveFullNodeState,
      Api.loadFullNodeState, Api.dropFullNodeState]
  ⟨plainLib_id_round_trip, owned, scheduled,
    node_states_refine plainLib_id_round_trip _ _ _ owned scheduled⟩

/-- Save a full-node state, then load the validator state of the same key. -/
def sharedKeyRun : List Op :=
  [.call (.saveFullNodeState sampleKey sampleFullId), .call (.loadValidatorState sampleKey)]

/-- Save a full-node state and let the storer write it, drop it, and load it before the
    storer deletes it. -/
def dropWindowRun : List Op :=
  [.call (.saveFullNodeState sampleKey sampleFullId), .store,
    .call (.dropFullNodeState sampleKey), .call (.loadFullNodeState sampleKey)]

/-- Through the shared cache, the validator state of a key is the full-node state saved
    under it; and a load between a drop and the storer's deletion reads the dropped id back
    from the DB. The maps answer `None` in both. -/
theorem node_state_loads_stale :
    ((init (fun _ => none) (NodeStates.empty.persisted plainLib)).seqRun plainLib
      sharedKeyRun).map (·.2) = some [some .unit, some (.state (some sampleFullId))] ∧
    (NodeStates.empty.run sharedKeyRun).2 = [some .unit, some (.state none)] ∧
    ((init (fun _ => none) (NodeStates.empty.persisted plainLib)).seqRun plainLib
      dropWindowRun).map (·.2) =
      some [some .unit, none, some .unit, some (.state (some sampleFullId))] ∧
    (NodeStates.empty.run dropWindowRun).2 = [some .unit, none, some .unit, some (.state none)] :=
  ⟨by decide, by decide, by decide, by decide⟩

end Storage

end BlockHandleDb
