import BlockHandleDb.NodeState

/-!
Concurrent `save_*_state` and `drop_*_state` calls on one key. Each writes `state_cache` and
sends its job in two steps; when the jobs reach the storer in the order the calls wrote the
cache, the DB and the cache agree once the calls have returned and the storer has drained.
-/
namespace BlockHandleDb

/-- The value a call has put in `state_cache` and not yet sent to the storer: it stands
    between the two steps of `save_state` or `drop_state`. -/
def Pc.unsent? : Pc → Option (Option BlockIdExt)
  | .stateSaveSend _ _ id => some (some id)
  | .stateDropSend _ _ => some none
  | _ => none

/-- A step of `save_state` or `drop_state` of `key` in `X`, or a call that has returned. -/
def Pc.WritesKey (X : StateDb) (key : String) : Pc → Prop
  | .stateSave X' key' _ | .stateSaveSend X' key' _ | .stateDrop X' key' | .stateDropSend X' key' =>
    X' = X ∧ key' = key
  | .done _ => True
  | _ => False

/-- The first step of `save_state` or `drop_state`, which writes the cache. -/
def Pc.writesCache : Pc → Bool
  | .stateSave .. | .stateDrop .. => true
  | _ => false

@[simp] theorem Pc.unsent?_done (r : Ret) : (Pc.done r).unsent? = none := rfl

theorem Pc.unsent?_of_isDone {pc : Pc} (done : pc.isDone = true) : pc.unsent? = none := by
  cases pc <;> simp_all [Pc.isDone, Pc.unsent?]

namespace Storage

variable {L : Lib} {s s' : Storage} {X : StateDb} {key : String}

/-- Concurrent writes of `key` in `X` whose calls send their jobs in the order they wrote the
    cache. `order` lists the calls that have written the cache and not yet sent, oldest first:
    a client may start `save_state` or `drop_state` of the key, a cache write joins `order`, only
    its oldest call may send, and the storer may take a job. -/
def inOrder (X : StateDb) (key : String) (order : List Nat) (s : Storage) :
    Event → Option (List Nat)
  | .call (.saveState X' key' _) | .call (.dropState X' key') =>
    if X' = X ∧ key' = key then some order else none
  | .call _ => none
  | .tick t =>
    match s.calls[t]? with
    | some (_, pc) =>
      if pc.writesCache then some (order ++ [t])
      else if pc.unsent?.isSome then (if order.head? = some t then some order.tail else none)
      else some order
    | none => some order
  | .store => some order
  | .release _ | .drop _ => none

variable (L)

/-- A run watched by a monitor with a state of its own: each event must be accepted by the
    monitor in the storage's state at that point, and moves the monitor on. -/
def runWatched {σ : Type} (watch : σ → Storage → Event → Option σ) :
    σ → Storage → List Event → Option Storage
  | _, s, [] => some s
  | g, s, e :: es => (watch g s e).bind fun g' => (s.apply L e).bind (runWatched watch g' · es)

variable {L}

theorem runWatched_preserves {σ : Type} {watch : σ → Storage → Event → Option σ}
    {P : σ → Storage → Prop}
    (keep : ∀ {g g' : σ} {s s' : Storage} {e : Event}, P g s → watch g s e = some g' →
      s.apply L e = some s' → P g' s')
    {es : List Event} {g : σ} (start : P g s) (run : runWatched L watch g s es = some s') :
    ∃ g', P g' s' := by
  induction es generalizing g s with
  | nil => cases run; exact ⟨g, start⟩
  | cons e es ih =>
    obtain ⟨g', watched, rest⟩ := Option.bind_eq_some.mp run
    obtain ⟨s1, step, rest⟩ := Option.bind_eq_some.mp rest
    exact ih (keep start watched step) rest

/-- What writes of `key` in `X` sent in order keep: every call writes that key; `order` lists
    exactly the calls holding a value unsent, each once, and the cache holds the value of the
    newest; with none, a cached id is what the drained DB holds; and the drained DB holds a
    serialized id or nothing. -/
structure WritesAgree (L : Lib) (X : StateDb) (key : String) (order : List Nat) (s : Storage) :
    Prop where
  writes : ∀ c ∈ s.calls, c.2.WritesKey X key
  pending : ∀ t, t ∈ order ↔ ∃ api pc, s.calls[t]? = some (api, pc) ∧ pc.unsent?.isSome
  nodup : order.Nodup
  newest : ∀ t api pc v, order.getLast? = some t → s.calls[t]? = some (api, pc) →
    pc.unsent? = some v → s.stateCache key = v
  agree : order = [] → ∀ id, s.stateCache key = some id →
    s.drainedStateDb L X key = some (L.idSerialize id)
  serialized : ∃ v : Option BlockIdExt, s.drainedStateDb L X key = v.map L.idSerialize

theorem writesAgree_init (handleDb : UInt256 → Option Bytes) (m : NodeStates) :
    WritesAgree L X key [] (init handleDb (m.persisted L)) :=
  ⟨by simp [init], by simp [init], List.nodup_nil, by simp, fun _ _ hit => Option.noConfusion hit,
    ⟨m X key, rfl⟩⟩

theorem WritesAgree.call {order : List Nat} (inv : WritesAgree L X key order s) {api : Api}
    (writes : api.start.WritesKey X key) (quiet : api.start.unsent? = none) (clients : List Nat) :
    WritesAgree L X key order { s with clients, calls := s.calls ++ [(api, api.start)] } := by
  have old : ∀ t, t ∈ order → t < s.calls.length := fun t mem => by
    obtain ⟨api, pc, hc, -⟩ := (inv.pending t).mp mem
    exact (List.getElem?_eq_some_iff.mp hc).1
  have get : ∀ t, t < s.calls.length → (s.calls ++ [(api, api.start)])[t]? = s.calls[t]? :=
    fun t lt => List.getElem?_append_left lt
  refine ⟨fun c mem => ?_, fun t => ⟨fun mem => ?_, fun ⟨api', pc, hc, held⟩ => ?_⟩, inv.nodup,
    fun t api' pc v last hc held => ?_, inv.agree, inv.serialized⟩
  · rcases List.mem_append.mp mem with mem | mem
    · exact inv.writes c mem
    · rw [List.mem_singleton.mp mem]; exact writes
  · simpa [get t (old t mem)] using (inv.pending t).mp mem
  · rcases Nat.lt_or_ge t s.calls.length with lt | ge
    · exact (inv.pending t).mpr ⟨api', pc, by simpa [get t lt] using hc, held⟩
    · have := (List.getElem?_eq_some_iff.mp hc).1
      simp only [List.length_append, List.length_singleton] at this
      obtain rfl : t = s.calls.length := by omega
      rw [List.getElem?_concat_length] at hc
      obtain ⟨-, rfl⟩ := Prod.mk.inj (Option.some.inj hc)
      simp [quiet] at held
  · have lt := old t (List.mem_of_getLast?_eq_some last)
    exact inv.newest t api' pc v last (by simpa [get t lt] using hc) held

theorem WritesAgree.cacheWrite {order : List Nat} (inv : WritesAgree L X key order s) {t : Nat}
    {api : Api} {pc pc' : Pc} (hc : s.calls[t]? = some (api, pc)) (quiet : pc.unsent? = none)
    {v : Option BlockIdExt} (writes : pc'.WritesKey X key) (holds : pc'.unsent? = some v) :
    WritesAgree L X key (order ++ [t])
      { s with
        stateCache := Function.update s.stateCache key v
        calls := s.calls.set t (api, pc') } := by
  have lt := (List.getElem?_eq_some_iff.mp hc).1
  have fresh : t ∉ order := fun mem => by
    obtain ⟨api', pc0, hc0, held⟩ := (inv.pending t).mp mem
    rw [hc] at hc0; obtain ⟨-, rfl⟩ := Prod.mk.inj (Option.some.inj hc0); simp [quiet] at held
  refine ⟨fun c mem => ?_, fun t' => ?_, List.pairwise_append.mpr ⟨inv.nodup,
    List.pairwise_singleton _ t, fun _ mem _ single => List.mem_singleton.mp single ▸
    ne_of_mem_of_not_mem mem fresh⟩, fun t' api' pc0 v' last hc' held => ?_,
    fun empty => by simp at empty, inv.serialized⟩
  · rcases List.mem_or_eq_of_mem_set mem with mem | rfl
    · exact inv.writes c mem
    · exact writes
  · by_cases same : t' = t
    · subst same
      simp only [List.getElem?_set_self lt, List.mem_append, List.mem_singleton, or_true, true_iff]
      exact ⟨api, pc', rfl, by simp [holds]⟩
    · simp only [List.mem_append, List.mem_singleton, same, or_false,
        List.getElem?_set_ne (Ne.symm same)]
      exact inv.pending t'
  · obtain rfl : t = t' := by simpa using last
    rw [List.getElem?_set_self lt] at hc'
    obtain ⟨-, rfl⟩ := Prod.mk.inj (Option.some.inj hc')
    rw [holds] at held; cases held; simp

theorem WritesAgree.send {order : List Nat} (inv : WritesAgree L X key order s) {t : Nat}
    {api : Api} {pc : Pc} {v : Option BlockIdExt} (hc : s.calls[t]? = some (api, pc))
    (holds : pc.unsent? = some v) (oldest : order.head? = some t) {job : StoreJob}
    (effect : ∀ db, job.onStateDb L db X key = v.map L.idSerialize) :
    WritesAgree L X key order.tail
      { s with queue := s.queue ++ [job], calls := s.calls.set t (api, .done .unit) } := by
  have lt := (List.getElem?_eq_some_iff.mp hc).1
  obtain ⟨rest, rfl⟩ : ∃ rest, order = t :: rest := by
    cases order with
    | nil => cases oldest
    | cons t' rest => obtain rfl := Option.some.inj oldest; exact ⟨rest, rfl⟩
  obtain ⟨notLater, nodup⟩ := List.nodup_cons.mp inv.nodup
  show WritesAgree L X key rest _
  have drained : (s.queue ++ [job]).foldl (StoreJob.onStateDb L) s.stateDb X key =
      v.map L.idSerialize := by
    rw [List.foldl_append]; exact effect _
  have other : ∀ t', t' ∈ rest → (s.calls.set t (api, .done .unit))[t']? = s.calls[t']? :=
    fun t' mem => List.getElem?_set_ne (ne_of_mem_of_not_mem mem notLater).symm
  refine ⟨fun c mem => ?_, fun t' => ?_, nodup, fun t' api' pc' v' last hc' held => ?_,
    fun empty id hit => ?_, ⟨v, drained⟩⟩
  · rcases List.mem_or_eq_of_mem_set mem with mem | rfl
    · exact inv.writes c mem
    · trivial
  · by_cases same : t' = t
    · subst same; simp [List.getElem?_set_self lt, notLater]
    · rw [List.getElem?_set_ne (Ne.symm same)]
      simpa [same] using inv.pending t'
  · have mem := List.mem_of_getLast?_eq_some last
    rw [other t' mem] at hc'
    exact inv.newest t' api' pc' v' (by rw [List.getLast?_cons, last]; rfl) hc' held
  · -- the call sending was the newest, so the cache holds its value
    subst empty
    have cached := inv.newest t api pc v rfl hc holds
    show (s.queue ++ [job]).foldl (StoreJob.onStateDb L) s.stateDb X key = _
    rw [drained, ← cached, hit]; rfl

theorem WritesAgree.congr {order : List Nat} (inv : WritesAgree L X key order s)
    (calls : s'.calls = s.calls) (cache : s'.stateCache = s.stateCache)
    (drained : s'.drainedStateDb L = s.drainedStateDb L) : WritesAgree L X key order s' := by
  obtain ⟨writes, pending, nodup, newest, agree, serialized⟩ := inv
  refine ⟨?_, ?_, nodup, ?_, ?_, ?_⟩ <;> simp only [calls, cache, drained] <;> assumption

theorem WritesAgree.store {order : List Nat} (inv : WritesAgree L X key order s) {j : StoreJob}
    {rest : List StoreJob} (queue : s.queue = j :: rest) :
    WritesAgree L X key order ({ s with queue := rest }.storeJob L j) := by
  refine inv.congr (by cases j <;> rfl) (by cases j <;> rfl) ?_
  rw [drainedStateDb, drainedStateDb, storeJob_queue, storeJob_stateDb, queue]; rfl

theorem WritesAgree.step {order order' : List Nat} (inv : WritesAgree L X key order s) {e : Event}
    (watched : inOrder X key order s e = some order') (step : s.apply L e = some s') :
    WritesAgree L X key order' s' := by
  cases e with
  | call api =>
    obtain ⟨clients, rfl⟩ := apply_call_eq step
    cases api <;> simp only [inOrder, Option.ite_none_right_eq_some, Option.some.injEq,
      reduceCtorEq] at watched
    case saveState X' key' id =>
      obtain ⟨⟨rfl, rfl⟩, rfl⟩ := watched
      exact inv.call (show (Api.saveState X' key' id).start.WritesKey X' key' from ⟨rfl, rfl⟩) rfl
        clients
    case dropState X' key' =>
      obtain ⟨⟨rfl, rfl⟩, rfl⟩ := watched
      exact inv.call (show (Api.dropState X' key').start.WritesKey X' key' from ⟨rfl, rfl⟩) rfl
        clients
  | tick t =>
    obtain ⟨api, pc, hc, running, rfl⟩ := apply_tick step
    have writes := inv.writes _ (List.getElem?_mem hc)
    simp only [inOrder, hc] at watched
    cases pc <;> simp only [Pc.WritesKey] at writes
    case stateSave X' key' id =>
      obtain ⟨rfl, rfl⟩ := writes
      obtain rfl := Option.some.inj watched.symm
      exact inv.cacheWrite hc rfl (by exact ⟨rfl, rfl⟩) rfl
    case stateDrop X' key' =>
      obtain ⟨rfl, rfl⟩ := writes
      obtain rfl := Option.some.inj watched.symm
      exact inv.cacheWrite hc rfl (by exact ⟨rfl, rfl⟩) rfl
    case stateSaveSend X' key' id =>
      obtain ⟨rfl, rfl⟩ := writes
      simp only [Pc.writesCache, Pc.unsent?, Option.isSome_some, Bool.false_eq_true, ↓reduceIte,
        Option.ite_none_right_eq_some, Option.some.injEq] at watched
      obtain ⟨oldest, rfl⟩ := watched
      exact inv.send hc rfl oldest fun _ => setAt_same _ _ _ _
    case stateDropSend X' key' =>
      obtain ⟨rfl, rfl⟩ := writes
      simp only [Pc.writesCache, Pc.unsent?, Option.isSome_some, Bool.false_eq_true, ↓reduceIte,
        Option.ite_none_right_eq_some, Option.some.injEq] at watched
      obtain ⟨oldest, rfl⟩ := watched
      exact inv.send hc rfl oldest fun _ => setAt_same _ _ _ _
    case done r => cases running
  | release h => cases watched
  | drop h => cases watched
  | store =>
    obtain ⟨j, rest, queue, rfl⟩ := apply_store step
    obtain rfl := Option.some.inj watched.symm
    exact inv.store queue

/-- Concurrent `save_state` and `drop_state` calls of one key whose jobs reach the storer in the
    order the calls wrote the cache: once every call has returned and the storer has drained,
    `load_state` of the key returns the id the DB holds, or `None` when it holds nothing. -/
theorem ordered_writes_agree (inverse : ∀ id, L.idDeserialize (L.idSerialize id) = .ok id)
    (X : StateDb) (key : String) (m : NodeStates) (handleDb : UInt256 → Option Bytes)
    {es : List Event} {s : Storage}
    (run : (init handleDb (m.persisted L)).runWatched L (inOrder X key) [] es = some s)
    (drained : s.queue = []) (returned : ∀ c ∈ s.calls, c.2.isDone = true) :
    ∃ s' v, s.seqStep L (.call (.loadState X key)) = some (s', some (.state v)) ∧
      s.stateDb X key = v.map L.idSerialize := by
  obtain ⟨order, inv⟩ :=
    runWatched_preserves (fun inv watched step => inv.step watched step) (writesAgree_init handleDb m) run
  have db : s.stateDb X key = s.drainedStateDb L X key := by rw [drainedStateDb, drained]; rfl
  have empty : order = [] := List.eq_nil_iff_forall_not_mem.mpr fun t mem => by
    obtain ⟨api, pc, hc, held⟩ := (inv.pending t).mp mem
    simp [Pc.unsent?_of_isDone (returned _ (List.getElem?_mem hc))] at held
  cases hit : s.stateCache key with
  | some id =>
    obtain ⟨s', step, -⟩ := seqStep_loadState_hit (L := L) s X hit
    exact ⟨s', some id, step, by rw [db, inv.agree empty id hit]; rfl⟩
  | none =>
    obtain ⟨v, serialized⟩ := inv.serialized
    obtain ⟨s', step, -⟩ := seqStep_loadState_miss s X key v hit (db.trans serialized) inverse
    exact ⟨s', v, step, db.trans serialized⟩

/-- A later block of the sample block's shard. -/
def sampleNextId : BlockIdExt := ⟨⟨⟨0⟩, 0x4000000000000000⟩, 6, sampleRoot, default⟩

/-- Two clients save the full-node state of one key: both write the cache, then both send, in
    the order they wrote; the storer takes both jobs. -/
def writesInTurn : List Event :=
  [.call (.saveFullNodeState sampleKey sampleFullId), .call (.saveFullNodeState sampleKey sampleNextId),
    .tick 0, .tick 1, .tick 0, .tick 1, .store, .store]

theorem ordered_writes_agree_in_turn :
    ∃ s, (init (fun _ => none) (NodeStates.empty.persisted plainLib)).runWatched plainLib
        (inOrder .fullNode sampleKey) [] writesInTurn = some s ∧
      s.queue = [] ∧ (∀ c ∈ s.calls, c.2.isDone = true) ∧
      ∃ s' v, s.seqStep plainLib (.call (.loadState .fullNode sampleKey)) =
          some (s', some (.state v)) ∧
        s.stateDb .fullNode sampleKey = v.map plainLib.idSerialize :=
  ⟨_, rfl, rfl, by decide,
    @ordered_writes_agree plainLib plainLib_id_round_trip .fullNode sampleKey NodeStates.empty
      (fun _ => none) writesInTurn _ rfl rfl (by decide)⟩

/-- Two clients save the full-node state of one key: the first writes the cache, the second
    runs its whole call, then the first sends its job; the storer takes both jobs. -/
def splitWrites : List Event :=
  [.call (.saveFullNodeState sampleKey sampleFullId), .call (.saveFullNodeState sampleKey sampleNextId),
    .tick 0, .tick 1, .tick 1, .tick 0, .store, .store]

/-- After the split writes have returned and the storer has drained, the DB holds the first
    id while `load_full_node_state` returns the second from the cache; the first call sends
    after the second, out of the order they wrote the cache. -/
theorem split_writes_disagree :
    ∃ s, (init (fun _ => none) (NodeStates.empty.persisted plainLib)).run plainLib splitWrites =
        some s ∧
      s.queue = [] ∧ (∀ c ∈ s.calls, c.2.isDone = true) ∧
      s.stateDb .fullNode sampleKey = some (plainLib.idSerialize sampleFullId) ∧
      (s.seqStep plainLib (.call (.loadFullNodeState sampleKey))).map (·.2) =
        some (some (.state (some sampleNextId))) ∧
      sampleFullId ≠ sampleNextId ∧
      ((init (fun _ => none) (NodeStates.empty.persisted plainLib)).runWatched plainLib
        (inOrder .fullNode sampleKey) [] splitWrites).isNone = true :=
  ⟨_, rfl, rfl, by decide, by decide, by decide, by decide, by decide⟩

end Storage

end BlockHandleDb
