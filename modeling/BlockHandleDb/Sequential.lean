import BlockHandleDb.HandleCache

/-!
Sequential use: one call at a time, run to its end, with every due `Drop` run after it. A
sequential operation is a run of the interleaving model, so its invariants hold here too.
-/
namespace BlockHandleDb

/-- What a sequential client does next: call an API function and wait for its result, drop
    an `Arc` it holds, or let the storer take a job. -/
inductive Op where
  | call (api : Api)
  | release (h : Nat)
  | store
  deriving DecidableEq

namespace Storage

variable (L : Lib)

/-- Tick call `t` until it has returned, at most `fuel` times. -/
def finish (t : Nat) : Nat → Storage → Option (Storage × Ret)
  | 0, s =>
    match s.calls[t]? with
    | some (_, .done r) => some (s, r)
    | _ => none
  | fuel + 1, s =>
    match s.calls[t]? with
    | some (_, .done r) => some (s, r)
    | _ => (s.apply L (.tick t)).bind (finish t fuel)

/-- Run every `Drop` that is due. -/
def settle (s : Storage) : Storage :=
  (List.range s.heap.length).foldl (fun s h => (s.apply L (.drop h)).getD s) s

/-- One sequential operation. Four steps are the most a call takes when it runs alone
    (`load_handle` on a miss: get, upgrade, read, insert). -/
def seqStep (s : Storage) : Op → Option (Storage × Option Ret)
  | .call api =>
    ((s.apply L (.call api)).bind (finish L s.calls.length 4)).map fun p => (p.1.settle L, some p.2)
  | .release h => (s.apply L (.release h)).map fun s => (s.settle L, none)
  | .store => (s.apply L .store).map fun s => (s.settle L, none)

/-- A sequential run: the storage after `ops` and what each operation returned. -/
def seqRun (s : Storage) : List Op → Option (Storage × List (Option Ret))
  | [] => some (s, [])
  | op :: ops =>
    (s.seqStep L op).bind fun p => (p.1.seqRun ops).map fun q => (q.1, p.2 :: q.2)

variable {L} {s s' : Storage}

theorem run_append (es es' : List Event) :
    s.run L (es ++ es') = (s.run L es).bind (·.run L es') := by
  induction es generalizing s with
  | nil => rfl
  | cons e es ih => rw [List.cons_append, run, run, Option.bind_assoc]; simp only [ih]

theorem finish_run {t fuel : Nat} {r : Ret} (fin : s.finish L t fuel = some (s', r)) :
    ∃ es, (∀ e ∈ es, e = .tick t) ∧ s.run L es = some s' := by
  induction fuel generalizing s with
  | zero =>
    simp only [finish] at fin
    split at fin
    · obtain ⟨rfl, -⟩ := Prod.mk.inj (Option.some.inj fin); exact ⟨[], by simp, rfl⟩
    · cases fin
  | succ fuel ih =>
    simp only [finish] at fin
    split at fin
    · obtain ⟨rfl, -⟩ := Prod.mk.inj (Option.some.inj fin); exact ⟨[], by simp, rfl⟩
    · obtain ⟨s1, step, rest⟩ := Option.bind_eq_some.mp fin
      obtain ⟨es, ticks, run⟩ := ih rest
      exact ⟨.tick t :: es, by simpa using ticks, run_cons_eq_some.mpr ⟨s1, step, run⟩⟩

theorem set_concat_length {α : Type} (l : List α) (x y : α) : (l ++ [x]).set l.length y = l ++ [y] := by
  simp

theorem finish_calls {t fuel : Nat} {r : Ret} (fin : s.finish L t fuel = some (s', r)) :
    s'.calls.length = s.calls.length ∧ (∀ t', t' ≠ t → s'.calls[t']? = s.calls[t']?) ∧
    ∀ api pc, s.calls[t]? = some (api, pc) → s'.calls[t]? = some (api, .done r) := by
  induction fuel generalizing s with
  | zero =>
    simp only [finish] at fin
    split at fin
    · obtain ⟨rfl, rfl⟩ := Prod.mk.inj (Option.some.inj fin)
      exact ⟨rfl, fun _ _ => rfl, fun api pc hc => by simp_all⟩
    · cases fin
  | succ fuel ih =>
    simp only [finish] at fin
    split at fin
    · obtain ⟨rfl, rfl⟩ := Prod.mk.inj (Option.some.inj fin)
      exact ⟨rfl, fun _ _ => rfl, fun api pc hc => by simp_all⟩
    · obtain ⟨s1, step, rest⟩ := Option.bind_eq_some.mp fin
      obtain ⟨api0, pc0, hc0, -, rfl⟩ := apply_tick step
      obtain ⟨length, others, self⟩ := ih rest
      obtain ⟨lt, -⟩ := List.getElem?_eq_some_iff.mp hc0
      refine ⟨by simpa using length, fun t' ne => ?_, fun api pc hc => ?_⟩
      · rw [others t' ne]; exact List.getElem?_set_ne (Ne.symm ne)
      · rw [hc0] at hc; obtain ⟨rfl, -⟩ := Prod.mk.inj (Option.some.inj hc)
        exact self api0 _ (List.getElem?_set_self lt)

theorem settle_induction (P : Storage → Storage → Prop) (refl : ∀ s, P s s)
    (drop : ∀ {s s1 s2 : Storage} {h : Nat}, s.apply L (.drop h) = some s1 → P s1 s2 → P s s2)
    (s : Storage) : P s (s.settle L) := by
  suffices drops : ∀ (hs : List Nat) (s : Storage),
      P s (hs.foldl (fun s h => (s.apply L (.drop h)).getD s) s) from drops _ s
  intro hs
  induction hs with
  | nil => exact refl
  | cons h hs ih =>
    intro s
    cases step : s.apply L (.drop h) with
    | none => simpa [step] using ih s
    | some s1 => simpa [step] using drop step (ih s1)

theorem settle_eq (s : Storage) :
    ∃ cache heap, s.settle L = { s with handleCache := cache, heap := heap } :=
  settle_induction (fun s s' => ∃ cache heap, s' = { s with handleCache := cache, heap := heap })
    (fun s => ⟨_, _, rfl⟩) (fun step ⟨cache, heap, eq⟩ => by
      obtain ⟨-, rfl⟩ := apply_drop step; exact ⟨cache, heap, eq⟩) s

@[simp] theorem settle_handleDb (s : Storage) : (s.settle L).handleDb = s.handleDb := by
  obtain ⟨cache, heap, settled⟩ := settle_eq (L := L) s; rw [settled]

@[simp] theorem settle_stateCache (s : Storage) : (s.settle L).stateCache = s.stateCache := by
  obtain ⟨cache, heap, settled⟩ := settle_eq (L := L) s; rw [settled]

@[simp] theorem settle_stateDb (s : Storage) : (s.settle L).stateDb = s.stateDb := by
  obtain ⟨cache, heap, settled⟩ := settle_eq (L := L) s; rw [settled]

@[simp] theorem settle_queue (s : Storage) : (s.settle L).queue = s.queue := by
  obtain ⟨cache, heap, settled⟩ := settle_eq (L := L) s; rw [settled]

theorem settle_run (s : Storage) :
    ∃ es, (∀ e ∈ es, ∃ h, e = .drop h) ∧ s.run L es = some (s.settle L) :=
  settle_induction (fun s s' => ∃ es, (∀ e ∈ es, ∃ h, e = .drop h) ∧ s.run L es = some s')
    (fun s => ⟨[], by simp, rfl⟩)
    (fun {s s1 s2 h} step ⟨es, drops, run⟩ =>
      ⟨.drop h :: es, by simpa using drops, run_cons_eq_some.mpr ⟨s1, step, run⟩⟩) s

theorem settle_cache {k : UInt256} {x : Nat} (entry : (s.settle L).handleCache k = some x) :
    s.handleCache k = some x :=
  settle_induction (fun s s' => s'.handleCache k = some x → s.handleCache k = some x)
    (fun _ => id) (fun step later entry => by
      obtain ⟨-, rfl⟩ := apply_drop step; exact (runDrop_cache (later entry)).1) s entry

theorem seqStep_run {op : Op} {r : Option Ret} (step : s.seqStep L op = some (s', r)) :
    ∃ es, (∀ api, Event.call api ∈ es → op = .call api) ∧ (Event.store ∈ es → op = .store) ∧
      s.run L es = some s' := by
  have settled : ∀ (es : List Event) {s1 : Storage},
      (∀ api, Event.call api ∈ es → op = .call api) → (Event.store ∈ es → op = .store) →
      s.run L es = some s1 → ∃ es, (∀ api, Event.call api ∈ es → op = .call api) ∧
        (Event.store ∈ es → op = .store) ∧ s.run L es = some (s1.settle L) :=
    fun es {s1} calls stores run => by
      obtain ⟨es', drops, run'⟩ := settle_run (L := L) s1
      have notDrop : ∀ {e}, e ∈ es' → (∀ h, e ≠ .drop h) → False := fun mem ne => by
        obtain ⟨h, eq⟩ := drops _ mem; exact ne h eq
      refine ⟨es ++ es', fun api mem => ?_, fun mem => ?_, by rw [run_append, run]; exact run'⟩
      · exact (List.mem_append.mp mem).elim (calls api) fun mem => (notDrop mem (by simp)).elim
      · exact (List.mem_append.mp mem).elim stores fun mem => (notDrop mem (by simp)).elim
  cases op with
  | call api =>
    obtain ⟨⟨s1, r1⟩, fin, eq⟩ := Option.map_eq_some'.mp step
    obtain ⟨s0, start, fin⟩ := Option.bind_eq_some.mp fin
    obtain ⟨es, ticks, run⟩ := finish_run fin
    obtain ⟨rfl, -⟩ := Prod.mk.inj eq
    refine settled (.call api :: es) (fun api' mem => ?_) (fun mem => ?_)
      (run_cons_eq_some.mpr ⟨s0, start, run⟩)
    · rcases List.mem_cons.mp mem with eq | mem
      · cases eq; rfl
      · cases ticks _ mem
    · rcases List.mem_cons.mp mem with eq | mem
      · cases eq
      · cases ticks _ mem
  | release h =>
    obtain ⟨s1, applied, eq⟩ := Option.map_eq_some'.mp step
    obtain ⟨rfl, -⟩ := Prod.mk.inj eq
    exact settled [.release h] (by simp) (by simp) (by simp [Storage.run, applied])
  | store =>
    obtain ⟨s1, applied, eq⟩ := Option.map_eq_some'.mp step
    obtain ⟨rfl, -⟩ := Prod.mk.inj eq
    exact settled [.store] (by simp) (fun _ => rfl) (by simp [Storage.run, applied])

theorem seqRun_cons_eq_some {op : Op} {ops : List Op} {rs : List (Option Ret)} :
    s.seqRun L (op :: ops) = some (s', rs) ↔ ∃ s1 r rs', s.seqStep L op = some (s1, r) ∧
      s1.seqRun L ops = some (s', rs') ∧ rs = r :: rs' := by
  simp only [seqRun, Option.bind_eq_some, Option.map_eq_some', Prod.exists, Prod.mk.injEq]
  constructor
  · rintro ⟨s1, r, step, s2, rs', rest, rfl, rfl⟩; exact ⟨s1, r, rs', step, rest, rfl⟩
  · rintro ⟨s1, r, rs', step, rest, rfl⟩; exact ⟨s1, r, step, s', rs', rest, rfl, rfl⟩

theorem seqRun_run {ops : List Op} {rs : List (Option Ret)} (run : s.seqRun L ops = some (s', rs)) :
    ∃ es, (∀ api, Event.call api ∈ es → Op.call api ∈ ops) ∧ s.run L es = some s' := by
  induction ops generalizing s rs with
  | nil => cases run; exact ⟨[], by simp, rfl⟩
  | cons op ops ih =>
    obtain ⟨s1, r, rs', step, rest, rfl⟩ := seqRun_cons_eq_some.mp run
    obtain ⟨es, calls, -, run1⟩ := seqStep_run step
    obtain ⟨es', calls', run2⟩ := ih rest
    refine ⟨es ++ es', fun api mem => ?_, by rw [run_append, run1]; exact run2⟩
    rcases List.mem_append.mp mem with mem | mem
    · exact (calls api mem) ▸ List.mem_cons_self _ _
    · exact List.mem_cons_of_mem _ (calls' api mem)

theorem seqStep_call {api : Api} {r : Option Ret} (step : s.seqStep L (.call api) = some (s', r)) :
    ∃ ret, r = some ret ∧ s'.calls.length = s.calls.length + 1 ∧
      s'.calls[s.calls.length]? = some (api, .done ret) ∧
      ∀ t < s.calls.length, s'.calls[t]? = s.calls[t]? := by
  obtain ⟨⟨s1, ret⟩, fin, eq⟩ := Option.map_eq_some'.mp step
  obtain ⟨s0, start, fin⟩ := Option.bind_eq_some.mp fin
  obtain ⟨clients, rfl⟩ := apply_call_eq start
  obtain ⟨length, others, self⟩ := finish_calls fin
  obtain ⟨rfl, rfl⟩ := Prod.mk.inj eq
  obtain ⟨cache, heap, settled⟩ := settle_eq (L := L) s1
  rw [settled]
  refine ⟨ret, rfl, by simpa using length, self api api.start (by simp), fun t lt => ?_⟩
  rw [others t (Nat.ne_of_lt lt)]
  exact List.getElem?_append_left lt

/-- No call is in flight. -/
def Idle (s : Storage) : Prop :=
  ∀ (t : Nat) (api : Api) (pc : Pc), s.calls[t]? = some (api, pc) → pc.isDone = true

theorem idle_init (handleDb : UInt256 → Option Bytes)
    (stateDb : StateDb → String → Option Bytes) : (init handleDb stateDb).Idle :=
  fun t api pc hc => by simp [init] at hc

theorem seqStep_idle (idle : s.Idle) {op : Op} {r : Option Ret}
    (step : s.seqStep L op = some (s', r)) : s'.Idle := by
  intro t api pc hc
  cases op with
  | call api' =>
    obtain ⟨ret, -, length, self, others⟩ := seqStep_call step
    rcases Nat.lt_trichotomy t s.calls.length with lt | rfl | gt
    · exact idle t api pc (by rw [← others t lt]; exact hc)
    · rw [self] at hc; obtain ⟨-, rfl⟩ := Prod.mk.inj (Option.some.inj hc); rfl
    · have := (List.getElem?_eq_some_iff.mp hc).1; omega
  | release h =>
    obtain ⟨s1, applied, eq⟩ := Option.map_eq_some'.mp step
    obtain ⟨rfl, -⟩ := Prod.mk.inj eq
    obtain ⟨-, rfl⟩ := apply_release applied
    obtain ⟨cache, heap, settled⟩ := settle_eq (L := L) { s with clients := s.clients.erase h }
    rw [settled] at hc
    exact idle t api pc hc
  | store =>
    obtain ⟨s1, applied, eq⟩ := Option.map_eq_some'.mp step
    obtain ⟨rfl, -⟩ := Prod.mk.inj eq
    obtain ⟨job, rest, -, rfl⟩ := apply_store applied
    obtain ⟨cache, heap, settled⟩ := settle_eq (L := L) ({ s with queue := rest }.storeJob L job)
    rw [settled] at hc
    cases job <;> exact idle t api pc hc

theorem seqRun_idle (idle : s.Idle) {ops : List Op} {rs : List (Option Ret)}
    (run : s.seqRun L ops = some (s', rs)) : s'.Idle := by
  induction ops generalizing s rs with
  | nil => cases run; exact idle
  | cons op ops ih =>
    obtain ⟨s1, r, rs', step, rest, rfl⟩ := seqRun_cons_eq_some.mp run
    exact ih (seqStep_idle idle step) rest

theorem seqRun_results {ops : List Op} {rs : List (Option Ret)}
    (run : s.seqRun L ops = some (s', rs)) {i : Nat} {api : Api} {r : Ret}
    (op : ops[i]? = some (.call api)) (ret : rs[i]? = some (some r)) :
    ∃ t, s.calls.length ≤ t ∧ s'.calls[t]? = some (api, .done r) := by
  induction ops generalizing s rs i with
  | nil => simp at op
  | cons op0 ops ih =>
    obtain ⟨s1, r0, rs', step, rest, rfl⟩ := seqRun_cons_eq_some.mp run
    obtain ⟨es, -, later⟩ := seqRun_run rest
    cases i with
    | zero =>
      simp only [List.getElem?_cons_zero, Option.some.injEq] at op ret
      subst op ret
      obtain ⟨_, same, -, self, -⟩ := seqStep_call step
      cases same
      exact ⟨_, Nat.le_refl _, run_done later self⟩
    | succ i =>
      obtain ⟨es1, -, -, first⟩ := seqStep_run step
      obtain ⟨t, le, done⟩ := ih rest (by simpa using op) (by simpa using ret)
      exact ⟨t, Nat.le_trans (run_calls_length first) le, done⟩

theorem reachable_seqRun (reach : Reachable L s) {ops : List Op} {rs : List (Option Ret)}
    (run : s.seqRun L ops = some (s', rs)) : Reachable L s' := by
  obtain ⟨handleDb, stateDb, es, start⟩ := reach
  obtain ⟨es', -, rest⟩ := seqRun_run run
  exact ⟨handleDb, stateDb, es ++ es', by rw [run_append, start]; exact rest⟩

end Storage

/-! ### A record without the full id -/

/-- A root hash, and a full id of that block. -/
def sampleRoot : UInt256 := ⟨List.replicate 32 1, rfl⟩

def sampleFullId : BlockIdExt := ⟨⟨⟨0⟩, 0x4000000000000000⟩, 5, sampleRoot, default⟩

/-- The record of a block stored without its full id: the meta alone, `FLAG_HAS_FULL_ID`
    clear, as the value-format comment allows. -/
def legacyRecord : Bytes := plainLib.metaSerialize ⟨flagData, 0⟩

def legacyDb : UInt256 → Option Bytes := fun k => if k = sampleRoot then some legacyRecord else none

/-- Load the block by root hash and keep the handle; ask for its full id; load it by id. -/
def legacyLoads : List Op :=
  [.call (.loadHandleByRootHash sampleRoot), .call (.loadFullBlockId sampleRoot),
    .call (.loadHandleById sampleFullId)]

/-- `load_full_block_id` answers from the cache with the default-filled id that
    `load_handle_by_root_hash` built from a record without the full id, where its DB path
    answers `None`; and `load_handle_by_id` for a full id of the block then returns that
    handle, whose id is not the one asked for. -/
theorem legacy_record_reports_default_id :
    ((Storage.init legacyDb fun _ _ => none).seqRun plainLib legacyLoads).map (·.2) =
      some [some (.handle (some 0)), some (.fullId (some (.ofRootHash sampleRoot))),
        some (.handle (some 0))] ∧
    ((Storage.init legacyDb fun _ _ => none).seqRun plainLib legacyLoads).map
      (fun p => (p.1.handle 0).id) = some (.ofRootHash sampleRoot) ∧
    BlockIdExt.ofRootHash sampleRoot ≠ sampleFullId ∧
    deserializeFullId plainLib sampleRoot legacyRecord = .ok none :=
  ⟨by decide, by decide, by decide, rfl⟩

end BlockHandleDb
