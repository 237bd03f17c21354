import BlockHandleDb.Storage

/-!
What one step can do: an inversion lemma per event and one lemma per concern (live handles,
cache entries, heap, handle DB), from which the invariants follow without unfolding a step.
-/
namespace BlockHandleDb

/-- The job a call's step hands to the storer, if any. -/
def Pc.sends? : Pc → Option StoreJob
  | .createSend h | .saveSend h => some (.saveHandle h)
  | .dropSend id => some (.dropHandle id)
  | .stateSaveSend db key id => some (.saveState db key id)
  | .stateDropSend db key => some (.dropState db key)
  | _ => none

/-- The cache entry a call's step may write, if any. -/
def Pc.cacheKey? : Pc → Option UInt256
  | .createInsert id _ | .loadInsert id _ _ | .dropRemove id => some id.rootHash
  | _ => none

theorem Api.start_eq_dropRemove {api : Api} {id : BlockIdExt} (start : api.start = .dropRemove id) :
    api = .dropHandle id := by
  cases api <;> simp_all [Api.start]

theorem Api.start_eq_saveSend {api : Api} {h : Nat} (start : api.start = .saveSend h) :
    api = .saveHandle h := by
  cases api <;> simp_all [Api.start]

namespace Storage

variable {L : Lib} {s s' s1 : Storage} {pc pc' : Pc}

@[simp] theorem strong_send (s : Storage) (j : StoreJob) (x : Nat) :
    (s.send j).strong x = s.strong x + if j.holds x then 1 else 0 := by
  simp [send, strong, List.countP_append, List.countP_cons]; omega

@[simp] theorem strong_give (s : Storage) (h x : Nat) :
    (s.give h).strong x = s.strong x + if h = x then 1 else 0 := by
  simp [give, strong, List.count_append, List.count_singleton]; omega

@[simp] theorem strong_alloc (s : Storage) (id : BlockIdExt) (meta : BlockMeta) (x : Nat) :
    (s.alloc id meta).strong x = s.strong x := rfl

@[simp] theorem strong_insert (s : Storage) (id : BlockIdExt) (meta : BlockMeta) (x : Nat) :
    (s.insert id meta).strong x = s.strong x := rfl

@[simp] theorem strong_removeEntry (s : Storage) (rh : UInt256) (x : Nat) :
    (s.removeEntry rh).strong x = s.strong x := rfl

@[simp] theorem strong_setState (s : Storage) (k : String) (v : Option BlockIdExt) (x : Nat) :
    (s.setState k v).strong x = s.strong x := rfl

@[simp] theorem insert_heap (s : Storage) (id : BlockIdExt) (meta : BlockMeta) :
    (s.insert id meta).heap = s.heap ++ [⟨id, meta, false⟩] := rfl

@[simp] theorem alloc_heap (s : Storage) (id : BlockIdExt) (meta : BlockMeta) :
    (s.alloc id meta).heap = s.heap ++ [⟨id, meta, false⟩] := rfl

@[simp] theorem insert_handleCache (s : Storage) (id : BlockIdExt) (meta : BlockMeta) :
    (s.insert id meta).handleCache =
      Function.update s.handleCache id.rootHash (some s.heap.length) := rfl

@[simp] theorem alloc_handleCache (s : Storage) (id : BlockIdExt) (meta : BlockMeta) :
    (s.alloc id meta).handleCache = s.handleCache := rfl

@[simp] theorem removeEntry_heap (s : Storage) (rh : UInt256) :
    (s.removeEntry rh).heap = s.heap := rfl

@[simp] theorem removeEntry_handleCache (s : Storage) (rh : UInt256) :
    (s.removeEntry rh).handleCache = Function.update s.handleCache rh none := rfl

@[simp] theorem give_heap (s : Storage) (h : Nat) : (s.give h).heap = s.heap := rfl

@[simp] theorem give_handleCache (s : Storage) (h : Nat) :
    (s.give h).handleCache = s.handleCache := rfl

@[simp] theorem send_heap (s : Storage) (j : StoreJob) : (s.send j).heap = s.heap := rfl

@[simp] theorem send_handleCache (s : Storage) (j : StoreJob) :
    (s.send j).handleCache = s.handleCache := rfl

@[simp] theorem setState_heap (s : Storage) (k : String) (v : Option BlockIdExt) :
    (s.setState k v).heap = s.heap := rfl

@[simp] theorem setState_handleCache (s : Storage) (k : String) (v : Option BlockIdExt) :
    (s.setState k v).handleCache = s.handleCache := rfl

theorem handle_of_heap (grow : s'.heap = s.heap ++ extra) {x : Nat} (old : x < s.heap.length) :
    s'.handle x = s.handle x := by
  simp only [handle, grow, List.getD_eq_getElem?_getD, List.getElem?_append_left old]

theorem handle_of_new (grow : s'.heap = s.heap ++ [o]) : s'.handle s.heap.length = o := by
  simp [handle, grow]

@[simp] theorem handle_alloc (s : Storage) (id : BlockIdExt) (meta : BlockMeta) (x : Nat) :
    (s.alloc id meta).handle x = if x = s.heap.length then ⟨id, meta, false⟩ else s.handle x := by
  split
  · subst x; exact handle_of_new rfl
  · rcases Nat.lt_or_gt_of_ne ‹_› with lt | gt
    · exact handle_of_heap rfl lt
    · have out : (s.alloc id meta).heap.length ≤ x := by simp; omega
      simp only [handle, List.getD_eq_getElem?_getD, List.getElem?_eq_none out,
        List.getElem?_eq_none (Nat.le_of_lt gt)]

@[simp] theorem handle_insert (s : Storage) (id : BlockIdExt) (meta : BlockMeta) (x : Nat) :
    (s.insert id meta).handle x = if x = s.heap.length then ⟨id, meta, false⟩ else s.handle x :=
  handle_alloc s id meta x

@[simp] theorem handle_give (s : Storage) (h x : Nat) : (s.give h).handle x = s.handle x := rfl

@[simp] theorem handle_send (s : Storage) (j : StoreJob) (x : Nat) :
    (s.send j).handle x = s.handle x := rfl

theorem run_cons_eq_some {e : Event} {es : List Event} :
    s.run L (e :: es) = some s' ↔ ∃ s1, s.apply L e = some s1 ∧ s1.run L es = some s' :=
  Option.bind_eq_some

theorem run_preserves {P : Storage → Prop} {Q : Event → Prop}
    (keep : ∀ {s s' : Storage} {e : Event}, P s → Q e → s.apply L e = some s' → P s')
    {es : List Event} (start : P s) (allowed : ∀ e ∈ es, Q e) (run : s.run L es = some s') :
    P s' := by
  induction es generalizing s with
  | nil => cases run; exact start
  | cons e es ih =>
    obtain ⟨s1, step, rest⟩ := run_cons_eq_some.mp run
    exact ih (keep start (allowed e (by simp)) step) (fun e mem => allowed e (by simp [mem])) rest

/-! ### Events -/

theorem apply_call {api : Api} (step : s.apply L (.call api) = some s') :
    s'.heap = s.heap ∧ s'.handleCache = s.handleCache ∧ s'.queue = s.queue ∧
      s'.calls = s.calls ++ [(api, api.start)] ∧ ∀ x, s'.strong x = s.strong x := by
  cases api
  case saveHandle h =>
    simp only [apply, begin] at step
    split at step
    · rename_i held
      obtain rfl := (Option.some.inj step).symm
      refine ⟨rfl, rfl, rfl, rfl, fun x => ?_⟩
      by_cases same : h = x
      · subst same
        have one := List.count_pos_iff.mpr held
        simp [strong, List.countP_append, Api.start, Pc.holds, List.count_erase_self]; omega
      · simp [strong, List.countP_append, Api.start, Pc.holds,
          List.count_erase_of_ne (Ne.symm same), same]
    · cases step
  all_goals
    simp only [apply, begin] at step
    obtain rfl := (Option.some.inj step).symm
    exact ⟨rfl, rfl, rfl, rfl, fun x => by simp [strong, List.countP_append, Api.start, Pc.holds]⟩

theorem apply_call_eq {api : Api} (step : s.apply L (.call api) = some s') :
    ∃ clients, s' = { s with clients, calls := s.calls ++ [(api, api.start)] } := by
  simp only [apply, begin] at step
  split at step
  · split at step
    · exact ⟨_, (Option.some.inj step).symm⟩
    · cases step
  · exact ⟨s.clients, (Option.some.inj step).symm⟩

theorem apply_call_saveHandle {h : Nat} (step : s.apply L (.call (.saveHandle h)) = some s') :
    h ∈ s.clients := by
  simp only [apply, begin] at step
  split at step
  · assumption
  · cases step

theorem apply_tick {t : Nat} (step : s.apply L (.tick t) = some s') :
    ∃ api pc, s.calls[t]? = some (api, pc) ∧ pc.isDone = false ∧
      s' = { (s.exec L pc).1 with calls := s.calls.set t (api, (s.exec L pc).2) } := by
  simp only [apply] at step
  split at step
  · rename_i api pc hc
    split at step
    · cases step
    · rename_i notDone
      exact ⟨api, pc, hc, by simpa using notDone, (Option.some.inj step).symm⟩
  · cases step

theorem apply_release {x : Nat} (step : s.apply L (.release x) = some s') :
    x ∈ s.clients ∧ s' = { s with clients := s.clients.erase x } := by
  simp only [apply] at step
  split at step
  · exact ⟨‹_›, (Option.some.inj step).symm⟩
  · cases step

theorem apply_drop {x : Nat} (step : s.apply L (.drop x) = some s') :
    s.Dying x ∧ s' = s.runDrop x := by
  simp only [apply] at step
  split at step
  · exact ⟨‹_›, (Option.some.inj step).symm⟩
  · cases step

theorem apply_store (step : s.apply L .store = some s') :
    ∃ job rest, s.queue = job :: rest ∧ s' = { s with queue := rest }.storeJob L job := by
  simp only [apply] at step
  split at step
  · cases step
  · exact ⟨_, _, ‹_›, (Option.some.inj step).symm⟩

theorem step_calls {e : Event} (step : s.apply L e = some s') {t : Nat} {api : Api} {pc : Pc}
    (hc : s'.calls[t]? = some (api, pc)) :
    s.calls[t]? = some (api, pc) ∨ (e = .call api ∧ t = s.calls.length ∧ pc = api.start) ∨
    (e = .tick t ∧ ∃ pc0, s.calls[t]? = some (api, pc0) ∧ pc0.isDone = false ∧
      pc = (s.exec L pc0).2 ∧
      s' = { (s.exec L pc0).1 with calls := s.calls.set t (api, (s.exec L pc0).2) }) := by
  cases e with
  | call api' =>
    rw [(apply_call step).2.2.2.1] at hc
    by_cases lt : t < s.calls.length
    · exact .inl (by rwa [List.getElem?_append_left lt] at hc)
    · rw [List.getElem?_append_right (Nat.le_of_not_lt lt)] at hc
      obtain ⟨small, get⟩ := List.getElem?_eq_some_iff.mp hc
      simp only [List.length_singleton] at small
      simp only [List.getElem_singleton, Prod.mk.injEq] at get
      obtain ⟨rfl, rfl⟩ := get
      exact .inr (.inl ⟨rfl, by omega, rfl⟩)
  | tick t' =>
    obtain ⟨api', pc0, hc0, notDone, rfl⟩ := apply_tick step
    by_cases same : t = t'
    · subst same
      obtain ⟨lt, -⟩ := List.getElem?_eq_some_iff.mp hc0
      simp only [List.getElem?_set_self lt, Option.some.injEq, Prod.mk.injEq] at hc
      obtain ⟨rfl, rfl⟩ := hc
      exact .inr (.inr ⟨rfl, pc0, hc0, notDone, rfl, rfl⟩)
    · exact .inl (by simpa [List.getElem?_set_ne (Ne.symm same)] using hc)
  | release h => obtain ⟨-, rfl⟩ := apply_release step; exact .inl hc
  | drop h => obtain ⟨-, rfl⟩ := apply_drop step; exact .inl hc
  | store =>
    obtain ⟨job, rest, -, rfl⟩ := apply_store step
    exact .inl (by cases job <;> exact hc)

theorem calls_length_step {e : Event} (step : s.apply L e = some s') :
    s.calls.length ≤ s'.calls.length := by
  cases e with
  | call api => simp [(apply_call step).2.2.2.1]
  | tick t => obtain ⟨api, pc, -, -, rfl⟩ := apply_tick step; simp
  | release h => obtain ⟨-, rfl⟩ := apply_release step; exact Nat.le_refl _
  | drop h => obtain ⟨-, rfl⟩ := apply_drop step; exact Nat.le_refl _
  | store =>
    obtain ⟨job, rest, -, rfl⟩ := apply_store step
    cases job <;> exact Nat.le_refl _

theorem done_step {e : Event} (step : s.apply L e = some s') {t : Nat} {api : Api} {r : Ret}
    (hc : s.calls[t]? = some (api, .done r)) : s'.calls[t]? = some (api, .done r) := by
  obtain ⟨lt, -⟩ := List.getElem?_eq_some_iff.mp hc
  cases e with
  | call api' => rw [(apply_call step).2.2.2.1, List.getElem?_append_left lt]; exact hc
  | tick t' =>
    obtain ⟨api', pc, hc', notDone, rfl⟩ := apply_tick step
    by_cases same : t' = t
    · subst same; simp [hc] at hc'; simp [← hc'.2, Pc.isDone] at notDone
    · simpa [List.getElem?_set_ne same] using hc
  | release h => obtain ⟨-, rfl⟩ := apply_release step; exact hc
  | drop h => obtain ⟨-, rfl⟩ := apply_drop step; exact hc
  | store =>
    obtain ⟨job, rest, -, rfl⟩ := apply_store step
    cases job <;> exact hc

/-! ### A step of a call -/

theorem exec_calls (s : Storage) (pc : Pc) : (s.exec L pc).1.calls = s.calls := by
  cases pc <;> simp only [exec] <;> repeat' split
  all_goals rfl

theorem holds_strong_pos {t : Nat} {api : Api} {x : Nat}
    (hc : s.calls[t]? = some (api, pc)) (hold : pc.holds x = true) : 0 < s.strong x := by
  have mem : (api, pc) ∈ s.calls := List.mem_iff_getElem?.mpr ⟨t, hc⟩
  have : 0 < s.calls.countP (fun c => c.2.holds x) := List.countP_pos_iff.mpr ⟨_, mem, hold⟩
  simp only [strong]; omega

theorem strong_set_calls {t : Nat} {api : Api} {pc pc' : Pc} (hc : s.calls[t]? = some (api, pc))
    (x : Nat) (same : pc.holds x = pc'.holds x) :
    ({ s with calls := s.calls.set t (api, pc') }).strong x = s.strong x := by
  obtain ⟨lt, get⟩ := List.getElem?_eq_some_iff.mp hc
  have le := List.boole_getElem_le_countP (fun c : Api × Pc => c.2.holds x) s.calls t lt
  simp only [strong, List.countP_set _ _ _ _ lt, get, ← same] at le ⊢
  omega

theorem strong_tick {t : Nat} {api : Api} (hc : s.calls[t]? = some (api, pc)) (x : Nat) :
    ({ (s.exec L pc).1 with calls := s.calls.set t (api, (s.exec L pc).2) }).strong x +
      (if pc.holds x then 1 else 0) =
    (s.exec L pc).1.strong x + (if (s.exec L pc).2.holds x then 1 else 0) := by
  obtain ⟨lt, get⟩ := List.getElem?_eq_some_iff.mp hc
  have le := List.boole_getElem_le_countP (fun c : Api × Pc => c.2.holds x) s.calls t lt
  simp only [strong, List.countP_set _ _ _ _ lt, exec_calls, get] at le ⊢
  by_cases a : pc.holds x <;> by_cases b : (s.exec L pc).2.holds x <;>
    simp only [a, b, ↓reduceIte] at le ⊢ <;> omega

theorem exec_live (hr : s.exec L pc = (s1, pc')) {x : Nat}
    (pos : 0 < s1.strong x + (if pc'.holds x then 1 else 0)) :
    0 < s.strong x + (if pc.holds x then 1 else 0) ∨ (x = s.heap.length ∧ ∃ id meta,
      s.handleCache id.rootHash = none ∧ s1.heap = s.heap ++ [⟨id, meta, false⟩] ∧
      s1.handleCache = Function.update s.handleCache id.rootHash (some x)) := by
  cases pc
  case createInsert id meta | loadInsert id rhOnly meta =>
    simp only [exec] at hr
    split at hr <;> obtain ⟨rfl, rfl⟩ := Prod.mk.inj hr
    · by_cases new : x = s.heap.length
      · exact .inr ⟨new, id, meta, by assumption, by simp, by simp [new]⟩
      · left; simpa [Pc.holds, Ne.symm new] using pos
    · left; simpa [Pc.holds] using pos
  all_goals simp only [exec] at hr; (repeat' split at hr) <;> obtain ⟨rfl, rfl⟩ := Prod.mk.inj hr
  all_goals simp_all only [Pc.holds, StoreJob.holds, beq_iff_eq, Bool.false_eq_true,
    Bool.not_eq_true, ite_false, add_zero, Nat.not_lt, Nat.le_zero_eq, strong_send, strong_give,
    strong_setState, strong_removeEntry, send_heap, give_heap, setState_heap, removeEntry_heap,
    send_handleCache, give_handleCache, setState_handleCache, removeEntry_handleCache,
    List.self_eq_append_right, List.cons_ne_self, Function.eq_update_self_iff, false_and, and_false,
    exists_const, or_false]
  all_goals split_ifs at pos ⊢ with same <;> (try subst same) <;> omega

theorem exec_cache (hr : s.exec L pc = (s1, pc')) (k : UInt256) :
    s1.handleCache k = s.handleCache k ∨
    (s.handleCache k = none ∧ s1.handleCache k = some s.heap.length ∧
      ∃ id meta, id.rootHash = k ∧ s1.heap = s.heap ++ [⟨id, meta, false⟩]) ∨
    (s1.handleCache k = none ∧ ∃ id, pc = .dropRemove id ∧ id.rootHash = k) := by
  cases pc
  case createInsert id meta | loadInsert id rhOnly meta =>
    simp only [exec] at hr
    split at hr <;> obtain ⟨rfl, rfl⟩ := Prod.mk.inj hr
    · by_cases same : k = id.rootHash
      · subst same; exact .inr (.inl ⟨by assumption, by simp, id, meta, rfl, by simp⟩)
      · left; simp [Function.update_noteq same]
    · left; simp
  case dropRemove id =>
    obtain ⟨rfl, rfl⟩ := Prod.mk.inj hr
    by_cases same : k = id.rootHash
    · subst same; exact .inr (.inr ⟨by simp, id, rfl, rfl⟩)
    · left; simp [Function.update_noteq same]
  all_goals simp only [exec] at hr; (repeat' split at hr) <;> obtain ⟨rfl, rfl⟩ := Prod.mk.inj hr
  all_goals simp

theorem exec_heap (hr : s.exec L pc = (s1, pc')) :
    s1.heap = s.heap ∨ ∃ id meta, s1.heap = s.heap ++ [⟨id, meta, false⟩] := by
  cases pc <;> simp only [exec] at hr <;> (repeat' split at hr) <;>
    obtain ⟨rfl, rfl⟩ := Prod.mk.inj hr <;> simp

theorem exec_ne_dropRemove (s : Storage) (pc : Pc) (id : BlockIdExt) :
    (s.exec L pc).2 ≠ .dropRemove id := by
  cases pc <;> simp only [exec] <;> (repeat' split) <;> simp

theorem exec_ne_saveSend (s : Storage) (pc : Pc) (h : Nat) : (s.exec L pc).2 ≠ .saveSend h := by
  cases pc <;> simp only [exec] <;> (repeat' split) <;> simp

/-! ### Frames of a step -/

theorem exec_queue (s : Storage) (pc : Pc) :
    (s.exec L pc).1.queue = s.queue ++ pc.sends?.toList := by
  cases pc <;> simp only [exec] <;> (repeat' split) <;>
    simp [Pc.sends?, send, give, insert, alloc, removeEntry, setState]

theorem exec_handleDb (s : Storage) (pc : Pc) : (s.exec L pc).1.handleDb = s.handleDb := by
  cases pc <;> simp only [exec] <;> (repeat' split) <;> rfl

theorem exec_stateDb (s : Storage) (pc : Pc) : (s.exec L pc).1.stateDb = s.stateDb := by
  cases pc <;> simp only [exec] <;> (repeat' split) <;> rfl

theorem exec_handleCache_of_ne (s : Storage) {pc : Pc} {k : UInt256} (other : pc.cacheKey? ≠ some k) :
    (s.exec L pc).1.handleCache k = s.handleCache k := by
  cases pc <;> simp only [exec] <;> (repeat' split) <;>
    simp_all [Pc.cacheKey?, Function.update_noteq, Ne.symm]

/-! ### Drop -/

theorem removeWith_eq_some {m : UInt256 → Option Nat} {key k : UInt256} {pred : Nat → Bool}
    {x : Nat} : removeWith m key pred k = some x ↔ m k = some x ∧ (k = key → pred x = false) := by
  unfold removeWith
  cases found : m key with
  | none => exact ⟨fun e => ⟨e, fun same => by subst same; simp_all⟩, And.left⟩
  | some y =>
    by_cases same : k = key
    · subst same; by_cases p : pred y <;> simp [found, p] <;> rintro rfl <;> simpa using p
    · by_cases p : pred y <;> simp [p, Function.update_noteq same, same]

@[simp] theorem strong_runDrop (s : Storage) (h x : Nat) : (s.runDrop h).strong x = s.strong x :=
  rfl

@[simp] theorem length_runDrop (s : Storage) (h : Nat) :
    (s.runDrop h).heap.length = s.heap.length := by
  simp [runDrop]

theorem handle_runDrop (s : Storage) {h : Nat} (lt : h < s.heap.length) (x : Nat) :
    (s.runDrop h).handle x = if x = h then { s.handle h with dropped := true } else s.handle x := by
  by_cases same : x = h
  · subst same; simp [runDrop, handle, lt]
  · simp [runDrop, handle, same, List.getElem?_set_ne (Ne.symm same)]

theorem runDrop_cache {h x : Nat} {k : UInt256} (entry : (s.runDrop h).handleCache k = some x) :
    s.handleCache k = some x ∧ (k = (s.handle h).id.rootHash → 0 < s.strong x) := by
  obtain ⟨found, live⟩ := removeWith_eq_some.mp entry
  exact ⟨found, fun same => by simpa [Nat.pos_iff_ne_zero] using live same⟩

theorem handle_of_grow (grow : s'.heap = s.heap ++ extra) (fresh : ∀ o ∈ extra, o.dropped = false)
    {x : Nat} (dropped : (s'.handle x).dropped = true) : (s.handle x).dropped = true := by
  by_cases lt : x < s.heap.length
  · rwa [← handle_of_heap grow lt]
  · simp only [handle, grow, List.getD_eq_getElem?_getD,
      List.getElem?_append_right (Nat.le_of_not_lt lt)] at dropped
    cases get : extra[x - s.heap.length]? with
    | none => rw [get] at dropped; exact absurd dropped (by decide)
    | some o => simp [get, fresh o (List.getElem?_mem get)] at dropped

@[simp] theorem strong_storeJob (s : Storage) (j : StoreJob) (x : Nat) :
    (s.storeJob L j).strong x = s.strong x := by
  cases j <;> rfl

@[simp] theorem storeJob_queue (s : Storage) (j : StoreJob) : (s.storeJob L j).queue = s.queue := by
  cases j <;> rfl

@[simp] theorem storeJob_handleCache (s : Storage) (j : StoreJob) :
    (s.storeJob L j).handleCache = s.handleCache := by
  cases j <;> rfl

@[simp] theorem storeJob_calls (s : Storage) (j : StoreJob) : (s.storeJob L j).calls = s.calls := by
  cases j <;> rfl

@[simp] theorem handle_storeJob (s : Storage) (j : StoreJob) (h : Nat) :
    (s.storeJob L j).handle h = s.handle h := by
  cases j <;> rfl

/-! ### Events, summarised -/

theorem step_live {e : Event} (step : s.apply L e = some s') {x : Nat} (pos : 0 < s'.strong x) :
    0 < s.strong x ∨ (x = s.heap.length ∧ ∃ id meta, s.handleCache id.rootHash = none ∧
      s'.heap = s.heap ++ [⟨id, meta, false⟩] ∧
      s'.handleCache = Function.update s.handleCache id.rootHash (some x)) := by
  cases e with
  | call api => exact .inl ((apply_call step).2.2.2.2 x ▸ pos)
  | tick t =>
    obtain ⟨api, pc, hc, -, rfl⟩ := apply_tick step
    have acc := strong_tick (L := L) hc x
    have hr : s.exec L pc = ((s.exec L pc).1, (s.exec L pc).2) := rfl
    rcases exec_live hr (x := x) (by omega) with old | new
    · left
      by_cases held : pc.holds x
      · exact holds_strong_pos hc held
      · simpa [held] using old
    · exact .inr new
  | release h =>
    obtain ⟨-, rfl⟩ := apply_release step
    left
    have := List.count_erase x h s.clients
    simp only [strong] at pos ⊢
    omega
  | drop h => obtain ⟨-, rfl⟩ := apply_drop step; exact .inl pos
  | store =>
    obtain ⟨job, rest, queue, rfl⟩ := apply_store step
    left
    have fewer : rest.countP (StoreJob.holds x) ≤ s.queue.countP (StoreJob.holds x) :=
      queue ▸ (List.sublist_cons_self job rest).countP_le _
    rw [strong_storeJob] at pos
    simp only [strong] at pos ⊢
    omega

theorem step_cache {e : Event} (step : s.apply L e = some s') (k : UInt256) :
    s'.handleCache k = s.handleCache k ∨
    (s.handleCache k = none ∧ s'.handleCache k = some s.heap.length ∧
      ∃ id meta, id.rootHash = k ∧ s'.heap = s.heap ++ [⟨id, meta, false⟩]) ∨
    (s'.handleCache k = none ∧
      ((∃ (t : Nat) (api : Api) (id : BlockIdExt),
          s.calls[t]? = some (api, .dropRemove id) ∧ id.rootHash = k) ∨
        ∃ x, s.handleCache k = some x ∧ s.strong x = 0)) := by
  cases e with
  | call api => exact .inl (by rw [(apply_call step).2.1])
  | tick t =>
    obtain ⟨api, pc, hc, -, rfl⟩ := apply_tick step
    have hr : s.exec L pc = ((s.exec L pc).1, (s.exec L pc).2) := rfl
    rcases exec_cache hr k with
      same | insert | ⟨gone, id, rfl, root⟩
    · exact .inl same
    · exact .inr (.inl insert)
    · exact .inr (.inr ⟨gone, .inl ⟨t, api, id, hc, root⟩⟩)
  | release h => exact .inl (by rw [(apply_release step).2])
  | drop h =>
    obtain ⟨-, rfl⟩ := apply_drop step
    cases entry : (s.runDrop h).handleCache k with
    | some x => exact .inl (runDrop_cache entry).1.symm
    | none =>
      cases before : s.handleCache k with
      | none => exact .inl rfl
      | some y =>
        refine .inr (.inr ⟨rfl, .inr ⟨y, rfl, ?_⟩⟩)
        by_contra live
        have kept : (s.runDrop h).handleCache k = some y :=
          removeWith_eq_some.mpr ⟨before, fun _ => by simpa using live⟩
        simp [entry] at kept
  | store =>
    obtain ⟨job, rest, -, rfl⟩ := apply_store step
    cases job <;> exact .inl rfl

theorem step_queue {e : Event} (step : s.apply L e = some s') (other : e ≠ .store) :
    s'.handleDb = s.handleDb ∧ ∃ extra, s'.queue = s.queue ++ extra ∧
      ∀ j ∈ extra, ∃ (t : Nat) (api : Api) (pc : Pc), s.calls[t]? = some (api, pc) ∧
        pc.sends? = some j := by
  cases e with
  | call api => obtain ⟨clients, rfl⟩ := apply_call_eq step; exact ⟨rfl, [], by simp, by simp⟩
  | tick t =>
    obtain ⟨api, pc, hc, -, rfl⟩ := apply_tick step
    exact ⟨exec_handleDb s pc, _, exec_queue s pc, fun j mem => ⟨t, api, pc, hc, by simpa using mem⟩⟩
  | release h => obtain ⟨-, rfl⟩ := apply_release step; exact ⟨rfl, [], by simp, by simp⟩
  | drop h => obtain ⟨-, rfl⟩ := apply_drop step; exact ⟨rfl, [], by simp [runDrop], by simp⟩
  | store => exact absurd rfl other

theorem step_heap {e : Event} (step : s.apply L e = some s') :
    (∃ extra, s'.heap = s.heap ++ extra ∧ ∀ o ∈ extra, o.dropped = false) ∨
      ∃ x, e = .drop x ∧ s.Dying x ∧ s' = s.runDrop x := by
  cases e with
  | call api => exact .inl ⟨[], by simp [(apply_call step).1], by simp⟩
  | tick t =>
    obtain ⟨api, pc, hc, -, rfl⟩ := apply_tick step
    have hr : s.exec L pc = ((s.exec L pc).1, (s.exec L pc).2) := rfl
    rcases exec_heap hr with same | ⟨id, meta, grow⟩
    · exact .inl ⟨[], by simpa using same, by simp⟩
    · exact .inl ⟨_, grow, by simp⟩
  | release h => obtain ⟨-, rfl⟩ := apply_release step; exact .inl ⟨[], by simp, by simp⟩
  | drop h => obtain ⟨dying, rfl⟩ := apply_drop step; exact .inr ⟨h, rfl, dying, rfl⟩
  | store =>
    obtain ⟨job, rest, -, rfl⟩ := apply_store step
    exact .inl ⟨[], by cases job <;> simp [storeJob], by simp⟩

theorem step_handle {e : Event} (step : s.apply L e = some s') :
    s.heap.length ≤ s'.heap.length ∧
    (∀ x < s.heap.length, (s'.handle x).id = (s.handle x).id) ∧
    (∀ x, (s'.handle x).dropped = true →
      (s.handle x).dropped = true ∨ (e = .drop x ∧ s.Dying x)) := by
  rcases step_heap step with ⟨extra, grow, fresh⟩ | ⟨h, rfl, dying, rfl⟩
  · exact ⟨by simp [grow], fun x lt => by rw [handle_of_heap grow lt],
      fun x dropped => .inl (handle_of_grow grow fresh dropped)⟩
  · refine ⟨by simp, fun x _ => ?_, fun x dropped => ?_⟩
    · rw [handle_runDrop s dying.1]; split <;> simp_all
    · rw [handle_runDrop s dying.1] at dropped
      split at dropped
      · subst x; exact .inr ⟨rfl, dying⟩
      · exact .inl dropped

theorem step_meta {e : Event} (step : s.apply L e = some s') {x : Nat} (lt : x < s.heap.length) :
    (s'.handle x).meta = (s.handle x).meta := by
  rcases step_heap step with ⟨extra, grow, -⟩ | ⟨h, rfl, dying, rfl⟩
  · rw [handle_of_heap grow lt]
  · rw [handle_runDrop s dying.1]; split <;> simp_all

theorem exec_alloc (hr : s.exec L pc = (s1, pc')) {o : HandleObj} (grow : s1.heap = s.heap ++ [o]) :
    pc = .createInsert o.id o.meta ∨ ∃ r, pc = .loadInsert o.id r o.meta := by
  cases pc <;> simp only [exec] at hr <;> (repeat' split at hr) <;>
    obtain ⟨rfl, rfl⟩ := Prod.mk.inj hr <;> simp at grow
  -- left: the two insert steps, which allocate the handle they carry
  all_goals subst grow; simp

theorem step_alloc {e : Event} (step : s.apply L e = some s') {o : HandleObj}
    (grow : s'.heap = s.heap ++ [o]) :
    ∃ (t : Nat) (api : Api) (pc : Pc), s.calls[t]? = some (api, pc) ∧ pc.isDone = false ∧
      (pc = .createInsert o.id o.meta ∨ ∃ r, pc = .loadInsert o.id r o.meta) := by
  cases e with
  | call api => rw [(apply_call step).1] at grow; simp at grow
  | tick t =>
    obtain ⟨api, pc, hc, notDone, rfl⟩ := apply_tick step
    exact ⟨t, api, pc, hc, notDone, exec_alloc rfl grow⟩
  | release h => obtain ⟨-, rfl⟩ := apply_release step; simp at grow
  | drop h =>
    obtain ⟨-, rfl⟩ := apply_drop step
    simpa using congrArg List.length grow
  | store =>
    obtain ⟨job, rest, -, rfl⟩ := apply_store step
    cases job <;> simp [storeJob] at grow

theorem step_record {e : Event} (step : s.apply L e = some s') (rh : UInt256) :
    s'.handleDb rh = s.handleDb rh ∨
    (∃ y, StoreJob.saveHandle y ∈ s.queue ∧ (s.handle y).id.rootHash = rh ∧
      s'.handleDb rh = some (serialize L (s.handle y).id (s.handle y).meta)) ∨
    ∃ id, StoreJob.dropHandle id ∈ s.queue ∧ id.rootHash = rh ∧ s'.handleDb rh = none := by
  by_cases other : e = .store
  · subst other
    obtain ⟨job, rest, queue, rfl⟩ := apply_store step
    have mem : job ∈ s.queue := queue ▸ List.mem_cons_self _ _
    cases job with
    | saveHandle y =>
      by_cases root : (s.handle y).id.rootHash = rh
      · subst root; exact .inr (.inl ⟨y, mem, rfl, Function.update_same _ _ _⟩)
      · exact .inl (Function.update_noteq (Ne.symm root) _ _)
    | dropHandle id =>
      by_cases root : id.rootHash = rh
      · subst root; exact .inr (.inr ⟨id, mem, rfl, Function.update_same _ _ _⟩)
      · exact .inl (Function.update_noteq (Ne.symm root) _ _)
    | saveState | dropState => exact .inl rfl
  · exact .inl (by rw [(step_queue step other).1])

theorem step_saves {e : Event} (step : s.apply L e = some s') {y : Nat}
    (queued : StoreJob.saveHandle y ∈ s.queue) :
    StoreJob.saveHandle y ∈ s'.queue ∨
      s'.handleDb (s.handle y).id.rootHash = some (serialize L (s.handle y).id (s.handle y).meta) := by
  by_cases other : e = .store
  · subst other
    obtain ⟨job, rest, queue, rfl⟩ := apply_store step
    rcases List.mem_cons.mp (queue ▸ queued) with rfl | later
    · exact .inr (Function.update_same _ _ _)
    · exact .inl (by simpa using later)
  · obtain ⟨-, extra, queue, -⟩ := step_queue step other
    exact .inl (queue ▸ List.mem_append_left _ queued)

/-! ### Runs -/

theorem run_done {es : List Event} (run : s.run L es = some s') {t : Nat} {api : Api} {r : Ret}
    (hc : s.calls[t]? = some (api, .done r)) : s'.calls[t]? = some (api, .done r) :=
  run_preserves (P := fun s => s.calls[t]? = some (api, .done r)) (Q := fun _ => True)
    (fun hc _ step => done_step step hc) hc (fun _ _ => trivial) run

theorem run_calls_length {es : List Event} (run : s.run L es = some s') :
    s.calls.length ≤ s'.calls.length := by
  induction es generalizing s with
  | nil => cases run; exact Nat.le_refl _
  | cons e es ih =>
    obtain ⟨s1, step, rest⟩ := run_cons_eq_some.mp run
    exact Nat.le_trans (calls_length_step step) (ih rest)

theorem run_handle_id {es : List Event} (run : s.run L es = some s') {h : Nat}
    (lt : h < s.heap.length) : (s'.handle h).id = (s.handle h).id := by
  induction es generalizing s with
  | nil => cases run; rfl
  | cons e es ih =>
    obtain ⟨s1, step, rest⟩ := run_cons_eq_some.mp run
    obtain ⟨grown, same_id, -⟩ := step_handle step
    rw [ih rest (Nat.lt_of_lt_of_le lt grown), same_id h lt]

theorem run_handle_meta {es : List Event} (run : s.run L es = some s') {h : Nat}
    (lt : h < s.heap.length) : (s'.handle h).meta = (s.handle h).meta := by
  induction es generalizing s with
  | nil => cases run; rfl
  | cons e es ih =>
    obtain ⟨s1, step, rest⟩ := run_cons_eq_some.mp run
    rw [ih rest (Nat.lt_of_lt_of_le lt (step_handle step).1), step_meta step lt]

end Storage

end BlockHandleDb
