import BlockHandleDb.FullBlockId

/-!
`BlockHandle`'s flags. Callers holding a handle set flags through it (`set_flag`, a `fetch_or`)
and clear them (`reset_*`, `BlockMeta::reset`). A flag set reports true once until reset, and
a persisted flag stays in every record of its block unless the block is dropped or created again,
a reset clears it, or a stale load brings back a meta without it (`stale_load_drops_flag`).
-/
namespace BlockHandleDb

/-- `BlockMeta::reset(flags, arg)`, which the `reset_*` setters call and these sources do not
    contain: the meta after it. -/
abbrev MetaReset := BlockMeta → UInt32 → Bool → BlockMeta

/-- What the results below ask of `BlockMeta::reset`: it keeps every flag disjoint from the flags
    it resets. -/
def MetaReset.KeepsOthers (reset : MetaReset) : Prop :=
  ∀ m flags arg g, m.hasFlag g = true → flags &&& g = 0 → (reset m flags arg).hasFlag g = true

/-- A reset that clears the flags it is given and keeps the rest. -/
def clearFlags : MetaReset := fun m flags _ => { m with flags := m.flags &&& ~~~flags }

theorem and_not_and_of_and {a g : UInt32} (f : UInt32) (set : a &&& g = g) (apart : f &&& g = 0) :
    (a &&& ~~~f) &&& g = g := by
  apply UInt32.eq_of_toBitVec_eq
  apply BitVec.eq_of_getLsbD_eq
  intro i
  have bit : (a.toBitVec &&& g.toBitVec).getLsbD i = g.toBitVec.getLsbD i :=
    congrArg (fun x : UInt32 => x.toBitVec.getLsbD i) set
  have off : (f.toBitVec &&& g.toBitVec).getLsbD i = (0 : BitVec 32).getLsbD i :=
    congrArg (fun x : UInt32 => x.toBitVec.getLsbD i) apart
  show ((a.toBitVec &&& ~~~f.toBitVec) &&& g.toBitVec).getLsbD i = _
  rw [BitVec.getLsbD_and] at bit off
  rw [BitVec.getLsbD_and, BitVec.getLsbD_and, BitVec.getLsbD_not]
  cases ha : a.toBitVec.getLsbD i <;> cases hf : f.toBitVec.getLsbD i <;>
    cases hg : g.toBitVec.getLsbD i <;> simp_all

theorem clearFlags_keepsOthers : clearFlags.KeepsOthers := fun _ flags _ _ set apart => by
  simp only [clearFlags, BlockMeta.hasFlag, beq_iff_eq] at set ⊢
  exact and_not_and_of_and flags set apart

namespace HandleObj

/-- `BlockHandle::set_flag`: the handle after the `fetch_or`, and whether some bit of `flag` was
    clear before it. -/
def setFlag (o : HandleObj) (flag : UInt32) : HandleObj × Bool :=
  ({ o with meta := o.meta.setFlags flag }, o.meta.flags &&& flag != flag)

/-- `BlockHandle::is_flag_set`. -/
def isFlagSet (o : HandleObj) (flag : UInt32) : Bool := o.meta.hasFlag flag

def setData (o : HandleObj) : HandleObj × Bool := o.setFlag flagData
def setProof (o : HandleObj) : HandleObj × Bool := o.setFlag flagProof
def setProofLink (o : HandleObj) : HandleObj × Bool := o.setFlag flagProofLink
def setState (o : HandleObj) : HandleObj × Bool := o.setFlag flagState
def setStateSaved (o : HandleObj) : HandleObj × Bool := o.setFlag flagStateSaved
def setPersistentState (o : HandleObj) : HandleObj × Bool := o.setFlag flagPersistentState
def setNext1 (o : HandleObj) : HandleObj × Bool := o.setFlag flagNext1
def setNext2 (o : HandleObj) : HandleObj × Bool := o.setFlag flagNext2
def setPrev1 (o : HandleObj) : HandleObj × Bool := o.setFlag flagPrev1
def setPrev2 (o : HandleObj) : HandleObj × Bool := o.setFlag flagPrev2
def setBlockApplied (o : HandleObj) : HandleObj × Bool := o.setFlag flagApplied
def setArchived (o : HandleObj) : HandleObj × Bool := o.setFlag flagMovedToArchive
def setMovingToArchive (o : HandleObj) : HandleObj × Bool := o.setFlag flagArchiving

def hasData (o : HandleObj) : Bool := o.isFlagSet flagData
def hasProof (o : HandleObj) : Bool := o.isFlagSet flagProof
def hasProofLink (o : HandleObj) : Bool := o.isFlagSet flagProofLink
def hasState (o : HandleObj) : Bool := o.isFlagSet flagState
def hasSavedState (o : HandleObj) : Bool := o.isFlagSet flagStateSaved
def hasPersistentState (o : HandleObj) : Bool := o.isFlagSet flagPersistentState
def hasNext1 (o : HandleObj) : Bool := o.isFlagSet flagNext1
def hasNext2 (o : HandleObj) : Bool := o.isFlagSet flagNext2
def hasPrev1 (o : HandleObj) : Bool := o.isFlagSet flagPrev1
def hasPrev2 (o : HandleObj) : Bool := o.isFlagSet flagPrev2
def isApplied (o : HandleObj) : Bool := o.isFlagSet flagApplied
def isArchived (o : HandleObj) : Bool := o.isFlagSet flagMovedToArchive
def isQueueUpdate (o : HandleObj) : Bool := o.isFlagSet flagIsQueueUpdate
def isMesh (o : HandleObj) : Bool := o.isFlagSet flagIsMesh
def isEmptyQueueUpdate (o : HandleObj) : Bool := o.isFlagSet flagIsEmptyQueueUpdate
/-- `BlockHandle::is_key_block`, whose `Result` is always `Ok`. -/
def isKeyBlock (o : HandleObj) : Bool := o.isFlagSet flagKeyBlock

/-- `BlockHandle::has_proof_or_link`: whether the block takes a proof link (it is not in the
    masterchain), and whether the handle has the one it takes. -/
def hasProofOrLink (o : HandleObj) : Bool × Bool :=
  let isLink := !o.id.shardId.isMasterchain
  (isLink, if isLink then o.hasProofLink else o.hasProof)

/-- `BlockHandle::reset_*`: `BlockMeta::reset` of the handle's meta with the setter's flags. -/
def reset (r : MetaReset) (o : HandleObj) (flags : UInt32) (arg : Bool) : HandleObj :=
  { o with meta := r o.meta flags arg }

def resetData (r : MetaReset) (o : HandleObj) : HandleObj := o.reset r flagData true
def resetProof (r : MetaReset) (o : HandleObj) : HandleObj := o.reset r flagProof true
def resetProofLink (r : MetaReset) (o : HandleObj) : HandleObj := o.reset r flagProofLink true
def resetNext1 (r : MetaReset) (o : HandleObj) : HandleObj := o.reset r flagNext1 false
def resetNext2 (r : MetaReset) (o : HandleObj) : HandleObj := o.reset r flagNext2 false
def resetState (r : MetaReset) (o : HandleObj) : HandleObj :=
  o.reset r (flagState ||| flagStateSaved) false

theorem setFlag_spec (o : HandleObj) (flag : UInt32) :
    (o.setFlag flag).1.isFlagSet flag = true ∧ (o.setFlag flag).2 = !o.isFlagSet flag ∧
    (∀ g, o.isFlagSet g = true → (o.setFlag flag).1.isFlagSet g = true) ∧
    (o.setFlag flag).1.id = o.id ∧ (o.setFlag flag).1.dropped = o.dropped :=
  ⟨BlockMeta.hasFlag_setFlags _ _, rfl, fun _ set => BlockMeta.hasFlag_setFlags_of_hasFlag _ set,
    rfl, rfl⟩

theorem hasProofOrLink_after_set (o : HandleObj) :
    (if o.id.shardId.isMasterchain then o.setProof else o.setProofLink).1.hasProofOrLink.2 =
      true := by
  cases master : o.id.shardId.isMasterchain <;>
    simp [hasProofOrLink, setProof, setProofLink, hasProof, hasProofLink, master,
      (setFlag_spec _ _).1, (setFlag_spec _ _).2.2.2.1]

end HandleObj

/-- What can happen next once callers use the handles they hold: an event of the storage, or
    `set_flag` or a `reset_*` through a handle the caller holds an `Arc` of. -/
inductive FlagEvent where
  | storage (e : Event)
  | setFlag (h : Nat) (flag : UInt32)
  | reset (h : Nat) (flags : UInt32) (arg : Bool)
  deriving DecidableEq

/-- A call's step that inserts a handle, with the meta it carries. -/
def Pc.inserts : Pc → Bool
  | .createInsert _ _ | .loadInsert _ _ _ => true
  | _ => false

/-- What a call about a block whose record carries `flag` may insert: a handle whose meta carries
    the flag, never a created one. -/
def FlagOk (flag : UInt32) : Pc → Prop
  | .loadInsert _ _ meta => meta.hasFlag flag = true
  | .createInsert _ _ => False
  | _ => True

theorem FlagOk.of_inserts {flag : UInt32} {pc : Pc} (none : pc.inserts = false) : FlagOk flag pc := by
  cases pc
  case createInsert | loadInsert => cases none
  all_goals trivial

/-- An event that issues neither `drop_handle` nor `create_handle` for `rh`. -/
def KeepsFlags (rh : UInt256) : FlagEvent → Prop
  | .storage (.call (.dropHandle id)) | .storage (.call (.createHandle id _)) => id.rootHash ≠ rh
  | _ => True

/-- `BlockMeta`'s codec keeps `flag`: a meta it decodes from a record written with the flag
    carries the flag. It does not serialize `FLAG_ARCHIVING`, so it keeps only the flags it
    writes. -/
def Lib.KeepsFlag (L : Lib) (flag : UInt32) : Prop :=
  ∀ meta rest m rest', L.metaDeserialize (L.metaSerialize meta ++ rest) = .ok (m, rest') →
    meta.hasFlag flag = true → m.hasFlag flag = true

namespace Storage

variable {L : Lib} {s s' : Storage}

/-- A write of the meta of the handle at `h` through an `Arc` of it. -/
def setMeta (s : Storage) (h : Nat) (meta : BlockMeta) : Storage :=
  { s with heap := s.heap.set h { s.handle h with meta } }

/-- `set_flag` through the handle at `h`: the storage after it, and what it returns. -/
def setFlag (s : Storage) (h : Nat) (flag : UInt32) : Storage × Bool :=
  (s.setMeta h ((s.handle h).setFlag flag).1.meta, ((s.handle h).setFlag flag).2)

/-- A `reset_*` through the handle at `h`. -/
def reset (r : MetaReset) (s : Storage) (h : Nat) (flags : UInt32) (arg : Bool) : Storage :=
  s.setMeta h ((s.handle h).reset r flags arg).meta

variable (L) in
def applyF (r : MetaReset) (s : Storage) : FlagEvent → Option Storage
  | .storage e => s.apply L e
  | .setFlag h flag => if h ∈ s.clients then some (s.setFlag h flag).1 else none
  | .reset h flags arg => if h ∈ s.clients then some (s.reset r h flags arg) else none

variable (L) in
def runF (r : MetaReset) (s : Storage) : List FlagEvent → Option Storage
  | [] => some s
  | e :: es => (s.applyF L r e).bind (runF r · es)

/-! ### What a write of a meta changes -/

theorem setMeta_handle (s : Storage) (h x : Nat) (meta : BlockMeta) :
    (s.setMeta h meta).handle x =
      if x = h ∧ h < s.heap.length then { s.handle h with meta } else s.handle x := by
  simp only [setMeta, handle, List.getD_eq_getElem?_getD, List.getElem?_set]
  by_cases same : h = x
  · subst same
    by_cases lt : h < s.heap.length
    · simp [lt]
    · simp [lt, List.getElem?_eq_none (Nat.le_of_not_lt lt)]
  · simp [same, Ne.symm same]

@[simp] theorem setMeta_handle_id (s : Storage) (h x : Nat) (meta : BlockMeta) :
    ((s.setMeta h meta).handle x).id = (s.handle x).id := by
  rw [setMeta_handle]; split <;> simp_all

@[simp] theorem setMeta_handle_dropped (s : Storage) (h x : Nat) (meta : BlockMeta) :
    ((s.setMeta h meta).handle x).dropped = (s.handle x).dropped := by
  rw [setMeta_handle]; split <;> simp_all

theorem setMeta_hasFlag (s : Storage) {h x : Nat} {meta : BlockMeta} {g : UInt32}
    (keep : x = h → meta.hasFlag g = true) (set : (s.handle x).meta.hasFlag g = true) :
    ((s.setMeta h meta).handle x).meta.hasFlag g = true := by
  rw [setMeta_handle]
  split
  · rename_i same; exact keep same.1
  · exact set

@[simp] theorem setMeta_length (s : Storage) (h : Nat) (meta : BlockMeta) :
    (s.setMeta h meta).heap.length = s.heap.length := by
  simp [setMeta]

@[simp] theorem setMeta_strong (s : Storage) (h x : Nat) (meta : BlockMeta) :
    (s.setMeta h meta).strong x = s.strong x := rfl

/-! ### The invariants under writes of a meta -/

theorem Wf.setMeta (wf : s.Wf) (h : Nat) (meta : BlockMeta) : (s.setMeta h meta).Wf where
  cache_root k x entry := by simpa using wf.cache_root k x entry
  live_allocated x pos := by simpa using wf.live_allocated x pos
  dropped_dead x dropped := wf.dropped_dead x (by simpa using dropped)
  cached_not_dropped k x entry := by simpa using wf.cached_not_dropped k x entry

theorem OnRoot.setMeta {key : Option UInt256} {pc : Pc} (carried : s.OnRoot key pc) (h : Nat)
    (meta : BlockMeta) : (s.setMeta h meta).OnRoot key pc := by
  have rooted : ∀ w, s.RootedAt key w → (s.setMeta h meta).RootedAt key w := by
    intro w rooted
    cases w with
    | none => trivial
    | some x => exact ⟨by simpa using rooted.1, by simpa using rooted.2⟩
  cases pc with
  | createSend x | fullRelease x => exact rooted (some x) carried
  | loadUpgrade _ _ w | fullUpgrade _ w => exact ⟨carried.1, rooted _ carried.2⟩
  | done r =>
    cases r with
    | handle w => exact rooted _ carried
    | _ => exact carried
  | _ => exact carried

theorem Kept.setMeta {rh : UInt256} (kept : s.Kept rh) (h : Nat) (meta : BlockMeta) :
    (s.setMeta h meta).Kept rh where
  no_remove := kept.no_remove
  live_cached x pos root := kept.live_cached x pos (by simpa using root)

theorem CallsOnRoot.setMeta (onRoot : s.CallsOnRoot) (h : Nat) (meta : BlockMeta) :
    (s.setMeta h meta).CallsOnRoot :=
  fun t api pc hc => (onRoot t api pc hc).setMeta h meta

theorem Undropped.setMeta {rh : UInt256} (undropped : s.Undropped rh) (h : Nat)
    (meta : BlockMeta) : (s.setMeta h meta).Undropped rh :=
  ⟨⟨undropped.no_remove, undropped.no_drop_send⟩, undropped.no_drop_job⟩

variable {r : MetaReset}

theorem runF_cons_eq_some {e : FlagEvent} {es : List FlagEvent} :
    s.runF L r (e :: es) = some s' ↔ ∃ s1, s.applyF L r e = some s1 ∧ s1.runF L r es = some s' :=
  Option.bind_eq_some

theorem applyF_setFlag {h : Nat} {flag : UInt32}
    (step : s.applyF L r (.setFlag h flag) = some s') : h ∈ s.clients ∧ (s.setFlag h flag).1 = s' := by
  simpa [applyF] using step

theorem applyF_reset {h : Nat} {flags : UInt32} {arg : Bool}
    (step : s.applyF L r (.reset h flags arg) = some s') : h ∈ s.clients ∧ s.reset r h flags arg = s' := by
  simpa [applyF] using step

theorem runF_preserves {P : Storage → Prop} {Q : FlagEvent → Prop}
    (keep : ∀ {s s' : Storage} {e : Event}, P s → Q (.storage e) → s.apply L e = some s' → P s')
    (set : ∀ {s : Storage} {h : Nat} {flag : UInt32}, P s → Q (.setFlag h flag) →
      h ∈ s.clients → P (s.setFlag h flag).1)
    (reset : ∀ {s : Storage} {h : Nat} {flags : UInt32} {arg : Bool}, P s →
      Q (.reset h flags arg) → h ∈ s.clients → P (s.reset r h flags arg))
    {es : List FlagEvent} (start : P s) (allowed : ∀ e ∈ es, Q e) (run : s.runF L r es = some s') :
    P s' := by
  induction es generalizing s with
  | nil => cases run; exact start
  | cons e es ih =>
    obtain ⟨s1, step, rest⟩ := runF_cons_eq_some.mp run
    refine ih ?_ (fun e mem => allowed e (by simp [mem])) rest
    cases e with
    | storage e => exact keep start (allowed _ (by simp)) step
    | setFlag h flag =>
      obtain ⟨held, rfl⟩ := applyF_setFlag step
      exact set start (allowed _ (by simp)) held
    | reset h flags arg =>
      obtain ⟨held, rfl⟩ := applyF_reset step
      exact reset start (allowed _ (by simp)) held

theorem invariants_runF {handleDb : UInt256 → Option Bytes}
    {stateDb : StateDb → String → Option Bytes} {es : List FlagEvent} {rh : UInt256}
    (run : (init handleDb stateDb).runF L r es = some s)
    (no_drop : ∀ id, FlagEvent.storage (.call (.dropHandle id)) ∈ es → id.rootHash ≠ rh) :
    s.Wf ∧ s.CallsOnRoot ∧ s.Kept rh ∧ s.Undropped rh :=
  runF_preserves (P := fun s => s.Wf ∧ s.CallsOnRoot ∧ s.Kept rh ∧ s.Undropped rh)
    (Q := fun e => ∀ id, e = .storage (.call (.dropHandle id)) → id.rootHash ≠ rh)
    (fun ⟨wf, onRoot, kept, undropped⟩ allowed step =>
      have other := fun id same => allowed id (by rw [same])
      ⟨wf.step step, onRoot.step wf step, kept.step wf step other, undropped.step other step⟩)
    (fun ⟨wf, onRoot, kept, undropped⟩ _ _ =>
      ⟨wf.setMeta _ _, onRoot.setMeta _ _, kept.setMeta _ _, undropped.setMeta _ _⟩)
    (fun ⟨wf, onRoot, kept, undropped⟩ _ _ =>
      ⟨wf.setMeta _ _, onRoot.setMeta _ _, kept.setMeta _ _, undropped.setMeta _ _⟩)
    ⟨wf_init _ _, callsOnRoot_init, kept_init, undropped_init⟩
    (fun _ mem id same => no_drop id (same ▸ mem)) run

theorem runF_handle_id {es : List FlagEvent} (run : s.runF L r es = some s') {h : Nat}
    (lt : h < s.heap.length) : (s'.handle h).id = (s.handle h).id :=
  (runF_preserves (P := fun s1 => h < s1.heap.length ∧ (s1.handle h).id = (s.handle h).id)
    (Q := fun _ => True)
    (fun ⟨lt, same⟩ _ step =>
      ⟨Nat.lt_of_lt_of_le lt (step_handle step).1, ((step_handle step).2.1 h lt).trans same⟩)
    (fun ⟨lt, same⟩ _ _ => ⟨by simpa [setFlag] using lt, by simpa [setFlag] using same⟩)
    (fun ⟨lt, same⟩ _ _ => ⟨by simpa [reset] using lt, by simpa [reset] using same⟩)
    ⟨lt, rfl⟩ (fun _ _ => trivial) run).2

/-! ### A flag set reports once -/

/-- `create_handle` of a masterchain block run to its end: the caller holds handle `0`, whose
    save is queued. -/
def createSample : List FlagEvent :=
  [.storage (.call (.createHandle masterchainSample.1 masterchainSample.2)), .storage (.tick 0),
    .storage (.tick 0)]

/-- Over every interleaving from a fresh storage in which callers also set and reset flags
    through the handles they hold, with no `drop_handle` for a root hash: while a handle of it is alive, the
    storer's next step leaves the record of the root hash alone or writes that handle's id and
    current meta. So every flag set through the live handle, also after its `save_handle`, is in
    every record of the root hash written while it lives. -/
theorem storer_writes_live_handle {handleDb : UInt256 → Option Bytes}
    {stateDb : StateDb → String → Option Bytes} {es : List FlagEvent} {rh : UInt256}
    (run : (init handleDb stateDb).runF L r es = some s)
    (no_drop : ∀ id, FlagEvent.storage (.call (.dropHandle id)) ∈ es → id.rootHash ≠ rh)
    {h : Nat} (live : 0 < s.strong h) (root : (s.handle h).id.rootHash = rh)
    (store : s.apply L .store = some s') :
    s'.handleDb rh = s.handleDb rh ∨
      s'.handleDb rh = some (serialize L (s.handle h).id (s.handle h).meta) := by
  obtain ⟨-, -, kept, undropped⟩ := invariants_runF run no_drop
  rcases step_record store rh with same | ⟨y, queued, same, write⟩ | ⟨id, queued, dropped, -⟩
  · exact .inl same
  · -- the handle saved is alive, so it is the cached one: `h`
    obtain rfl : y = h := Option.some.inj
      ((kept.live_cached y (queued_strong_pos queued) same).symm.trans (kept.live_cached h live root))
    exact .inr write
  · exact absurd dropped (undropped.no_drop_job id queued)

/-- The caller sets a flag after `create_handle` has queued the save, and resets another. -/
def flagAfterSave : List FlagEvent :=
  createSample ++ [.setFlag 0 flagApplied, .reset 0 flagNext1 false]

theorem storer_writes_live_handle_flag_after_save :
    ∃ s s', (init (fun _ => none) fun _ _ => none).runF plainLib clearFlags
        flagAfterSave = some s ∧
      (∀ id, FlagEvent.storage (.call (.dropHandle id)) ∈ flagAfterSave →
        id.rootHash ≠ masterchainSample.1.rootHash) ∧
      0 < s.strong 0 ∧ (s.handle 0).id.rootHash = masterchainSample.1.rootHash ∧
      s.apply plainLib .store = some s' ∧
      (s'.handleDb masterchainSample.1.rootHash = s.handleDb masterchainSample.1.rootHash ∨
        s'.handleDb masterchainSample.1.rootHash =
          some (serialize plainLib (s.handle 0).id (s.handle 0).meta)) := by
  have no_drop : ∀ id, FlagEvent.storage (.call (.dropHandle id)) ∈ flagAfterSave →
      id.rootHash ≠ masterchainSample.1.rootHash := by
    simp [flagAfterSave, createSample]
  exact ⟨_, _, rfl, no_drop, by decide, rfl, rfl, @storer_writes_live_handle plainLib _ _
    clearFlags (fun _ => none) (fun _ _ => none) flagAfterSave _ rfl no_drop 0
    (by decide) rfl rfl⟩

/-! ### A persisted flag stays -/

/-- A flag persisted for `rh`: nothing drops `rh`, its record and every live handle of it carry
    the flag, and no call about it inserts a handle without the flag. -/
structure FlagKept (L : Lib) (rh : UInt256) (flag : UInt32) (s : Storage)
    extends s.Undropped rh : Prop where
  record : ∃ id meta, s.handleDb rh = some (serialize L id meta) ∧ meta.hasFlag flag = true
  live : ∀ x, 0 < s.strong x → (s.handle x).id.rootHash = rh →
    (s.handle x).meta.hasFlag flag = true
  calls_ok : ∀ (t : Nat) (api : Api) (pc : Pc), s.calls[t]? = some (api, pc) →
    api.rootHash? = some rh → FlagOk flag pc

theorem FlagOk.exec {flag : UInt32} (meta_keeps : L.KeepsFlag flag) {rh : UInt256}
    (record : ∃ id meta, s.handleDb rh = some (serialize L id meta) ∧ meta.hasFlag flag = true)
    {pc : Pc} (carried : s.OnRoot (some rh) pc) : FlagOk flag (s.exec L pc).2 := by
  cases pc
  case loadRead id r =>
    obtain rfl : rh = id.rootHash := Option.some.inj carried
    obtain ⟨id0, meta, stored, flagged⟩ := record
    cases r
    case false =>
      rcases dec : deserialize L id (serialize L id0 meta) with e | ⟨m, differs⟩ <;>
        simp only [Storage.exec, stored, dec, Bool.false_eq_true, ↓reduceIte]
      · trivial
      · obtain ⟨rest, decoded⟩ := deserialize_meta L dec
        exact BlockMeta.hasFlag_setFlags_of_hasFlag _ (meta_keeps _ _ _ _ decoded flagged)
    case true =>
      rcases dec : deserializeNonchecked L id (serialize L id0 meta) with e | ⟨m, id'⟩ <;>
        simp only [Storage.exec, stored, dec, ↓reduceIte]
      · trivial
      · obtain ⟨rest, decoded⟩ := deserializeNonchecked_meta L dec
        exact meta_keeps _ _ _ _ decoded flagged
  all_goals simp only [Storage.exec]; (repeat' split) <;> trivial

theorem FlagKept.step {flag : UInt32} (meta_keeps : L.KeepsFlag flag) {rh : UInt256} (wf : s.Wf)
    (onRoot : s.CallsOnRoot) (kept : s.FlagKept L rh flag) {e : Event}
    (keeps : KeepsFlags rh (.storage e)) (step : s.apply L e = some s') : s'.FlagKept L rh flag where
  toUndropped := kept.toUndropped.step (fun id same => by subst same; exact keeps) step
  record := by
    obtain ⟨id, meta, stored, flagged⟩ := kept.record
    rcases step_record step rh with same | ⟨y, queued, root, write⟩ | ⟨id', queued, root, -⟩
    · exact ⟨id, meta, same.trans stored, flagged⟩
    · exact ⟨_, _, write, kept.live y (queued_strong_pos queued) root⟩
    · exact absurd root (kept.no_drop_job id' queued)
  live x pos root := by
    rcases step_live_root wf onRoot step pos root with ⟨old, root, -, same_meta⟩ |
      ⟨t, api, pc, hc, -, about, insert⟩
    · rw [same_meta]
      exact kept.live x old root
    · -- a new live handle comes from an insert step of a call about `rh`
      rcases insert with rfl | ⟨r, rfl⟩
      · exact (kept.calls_ok t api _ hc about).elim
      · exact kept.calls_ok t api _ hc about
  calls_ok t api pc hc about := by
    rcases step_calls step hc with old | ⟨rfl, -, rfl⟩ | ⟨rfl, pc0, old, -, rfl, rfl⟩
    · exact kept.calls_ok t api pc old about
    · cases api <;> simp only [Api.rootHash?, Option.some.injEq, reduceCtorEq] at about
      case createHandle id' m => exact absurd about keeps
      all_goals trivial
    · exact FlagOk.exec meta_keeps kept.record (about ▸ onRoot t api pc0 old)

theorem FlagKept.setMeta {rh : UInt256} {flag : UInt32} (kept : s.FlagKept L rh flag) {h : Nat}
    {meta : BlockMeta}
    (keep : 0 < s.strong h → (s.handle h).id.rootHash = rh → meta.hasFlag flag = true) :
    (s.setMeta h meta).FlagKept L rh flag :=
  ⟨kept.toUndropped.setMeta h meta, kept.record,
    fun x pos root => by
      simp only [setMeta_strong, setMeta_handle_id] at pos root
      exact setMeta_hasFlag s (fun same => keep (same ▸ pos) (same ▸ root)) (kept.live x pos root),
    kept.calls_ok⟩

theorem FlagKept.runF (reset_keeps : r.KeepsOthers) {flag : UInt32} (meta_keeps : L.KeepsFlag flag)
    {rh : UInt256} {es : List FlagEvent} (run : s.runF L r es = some s') (wf : s.Wf)
    (onRoot : s.CallsOnRoot) (kept : s.FlagKept L rh flag) (keeps : ∀ e ∈ es, KeepsFlags rh e)
    (no_reset : ∀ h flags arg, FlagEvent.reset h flags arg ∈ es →
      (s'.handle h).id.rootHash = rh → flags &&& flag = 0) :
    s'.FlagKept L rh flag := by
  induction es generalizing s with
  | nil => cases run; exact kept
  | cons e es ih =>
    obtain ⟨s1, step, rest⟩ := runF_cons_eq_some.mp run
    have next : s1.Wf ∧ s1.CallsOnRoot ∧ s1.FlagKept L rh flag := by
      cases e with
      | storage e =>
        exact ⟨wf.step step, onRoot.step wf step,
          kept.step meta_keeps wf onRoot (keeps _ (List.mem_cons_self _ _)) step⟩
      | setFlag h g =>
        obtain ⟨-, rfl⟩ := applyF_setFlag step
        exact ⟨wf.setMeta _ _, onRoot.setMeta _ _, kept.setMeta fun pos root =>
          BlockMeta.hasFlag_setFlags_of_hasFlag _ (kept.live h pos root)⟩
      | reset h flags arg =>
        obtain ⟨held, rfl⟩ := applyF_reset step
        have lt := client_allocated wf held
        refine ⟨wf.setMeta _ _, onRoot.setMeta _ _, kept.setMeta fun pos root =>
          reset_keeps _ _ _ _ (kept.live h pos root) (no_reset h flags arg (List.mem_cons_self _ _) ?_)⟩
        rw [runF_handle_id rest (by simpa [reset] using lt)]
        simpa [reset] using root
    exact ih rest next.1 next.2.1 next.2.2 (fun e mem => keeps e (List.mem_cons_of_mem _ mem))
      (fun h flags arg mem => no_reset h flags arg (List.mem_cons_of_mem _ mem))

/-- Once the storer writes a record of a root hash from a handle that carries a flag, at a moment
    when no call about the root hash is at its insert step, the flag stays persisted over every
    continuation without `drop_handle` or `create_handle` for the root hash and without a reset
    of the flag on a handle of it: whatever loads, `Drop`s, `set_flag`s, other resets and storer
    steps run, every record of the root hash carries the flag, and so does every live handle of
    it. The meta codec keeps the flag, and `BlockMeta::reset` keeps the flags it is not given. -/
theorem persisted_flag_stays (reset_keeps : r.KeepsOthers) {flag : UInt32}
    (meta_keeps : L.KeepsFlag flag)
    {handleDb : UInt256 → Option Bytes} {stateDb : StateDb → String → Option Bytes}
    {es0 es : List FlagEvent} {s0 s1 s2 : Storage} {rh : UInt256}
    (before : (init handleDb stateDb).runF L r es0 = some s0)
    (no_drop_before : ∀ id, FlagEvent.storage (.call (.dropHandle id)) ∈ es0 → id.rootHash ≠ rh)
    {y : Nat} {rest : List StoreJob} (next : s0.queue = .saveHandle y :: rest)
    (root : (s0.handle y).id.rootHash = rh) (flagged : (s0.handle y).meta.hasFlag flag = true)
    (no_insert : ∀ c ∈ s0.calls, c.1.rootHash? = some rh → c.2.inserts = false)
    (store : s0.apply L .store = some s1) (run : s1.runF L r es = some s2)
    (keeps : ∀ e ∈ es, KeepsFlags rh e)
    (no_reset : ∀ h flags arg, FlagEvent.reset h flags arg ∈ es →
      (s2.handle h).id.rootHash = rh → flags &&& flag = 0) :
    (∃ id meta, s2.handleDb rh = some (serialize L id meta) ∧ meta.hasFlag flag = true) ∧
    ∀ x, 0 < s2.strong x → (s2.handle x).id.rootHash = rh →
      (s2.handle x).meta.hasFlag flag = true := by
  obtain ⟨wf0, onRoot0, kept0, undropped0⟩ := invariants_runF before no_drop_before
  have kept1 : s1.FlagKept L rh flag := by
    obtain ⟨job, rest', queue, rfl⟩ := apply_store store
    obtain ⟨rfl, rfl⟩ := List.cons.inj (queue.symm.trans next)
    have queued : StoreJob.saveHandle y ∈ s0.queue := next ▸ List.mem_cons_self _ _
    refine ⟨undropped0.step (fun _ same => by cases same) store,
      ⟨(s0.handle y).id, (s0.handle y).meta, ?_, flagged⟩, fun x pos root' => ?_,
      fun t api pc hc about => FlagOk.of_inserts (no_insert _ (List.getElem?_mem hc) about)⟩
    · rw [← root]
      exact Function.update_same _ _ _
    · -- a handle alive after the write was alive before, so it is the cached one: `y`
      rcases step_live store pos with old | ⟨-, id', meta', -, grow, -⟩
      · obtain rfl : x = y := Option.some.inj ((kept0.live_cached x old root').symm.trans
          (kept0.live_cached y (queued_strong_pos queued) root))
        exact flagged
      · simp [storeJob] at grow
  have kept2 := kept1.runF reset_keeps meta_keeps run (wf0.step store) (onRoot0.step wf0 store)
    keeps no_reset
  exact ⟨kept2.record, kept2.live⟩

/-- A block is created and a flag set on its handle after `create_handle` queued the save. -/
def flagBeforeStore : List FlagEvent := createSample ++ [.setFlag 0 flagData]

/-- After the write the handle is released and dropped; a load by root hash reads the record
    back, sets another flag, resets a third and saves. -/
def reloadAndSave : List FlagEvent :=
  [.storage (.release 0), .storage (.drop 0),
    .storage (.call (.loadHandleByRootHash masterchainSample.1.rootHash)), .storage (.tick 1),
    .storage (.tick 1), .storage (.tick 1), .storage (.tick 1), .setFlag 1 flagProof,
    .reset 1 flagNext1 false, .storage (.call (.saveHandle 1)), .storage (.tick 2), .storage .store]

theorem persisted_flag_stays_after_reload :
    ∃ s0 s1 s2, (init (fun _ => none) fun _ _ => none).runF plainLib clearFlags flagBeforeStore =
        some s0 ∧
      s0.queue = [.saveHandle 0] ∧
      (s0.handle 0).id.rootHash = masterchainSample.1.rootHash ∧
      (s0.handle 0).meta.hasFlag flagData = true ∧
      s0.apply plainLib .store = some s1 ∧ s1.runF plainLib clearFlags reloadAndSave = some s2 ∧
      ((∃ id meta, s2.handleDb masterchainSample.1.rootHash = some (serialize plainLib id meta) ∧
        meta.hasFlag flagData = true) ∧
      ∀ x, 0 < s2.strong x → (s2.handle x).id.rootHash = masterchainSample.1.rootHash →
        (s2.handle x).meta.hasFlag flagData = true) := by
  have keeps : ∀ e ∈ reloadAndSave, KeepsFlags masterchainSample.1.rootHash e := by
    simp [reloadAndSave, KeepsFlags]
  have no_reset : ∀ h flags arg, FlagEvent.reset h flags arg ∈ reloadAndSave →
      flags &&& flagData = 0 := by
    simp only [reloadAndSave, List.mem_cons, FlagEvent.reset.injEq, reduceCtorEq,
      List.mem_singleton, false_or, List.not_mem_nil, or_false, and_imp]
    rintro _ _ _ - rfl -; rfl
  have meta_keeps : plainLib.KeepsFlag flagData := fun meta rest m rest' decoded set => by
    rw [plainLib_meta_round_trip] at decoded; cases decoded; exact set
  exact ⟨_, _, _, rfl, rfl, rfl, rfl, rfl, rfl,
    @persisted_flag_stays plainLib clearFlags clearFlags_keepsOthers flagData meta_keeps
      (fun _ => none) (fun _ _ => none) flagBeforeStore reloadAndSave _ _ _ _ rfl
      (by simp [flagBeforeStore, createSample]) 0 [] rfl rfl rfl (by decide) rfl rfl keeps
      fun h flags arg mem _ => no_reset h flags arg mem⟩

/-- A load that read the record before a flag was set and saved can bring the flag's absence
    back: the block is created, saved and its handle dropped; one load reads the record and waits
    before its insert; a second load inserts, sets `FLAG_DATA` and saves. -/
def staleBeforeStore : List FlagEvent :=
  createSample ++ [.storage .store, .storage (.release 0), .storage (.drop 0),
    .storage (.call (.loadHandleById masterchainSample.1)), .storage (.tick 1), .storage (.tick 1),
    .storage (.tick 1), .storage (.call (.loadHandleById masterchainSample.1)), .storage (.tick 2),
    .storage (.tick 2), .storage (.tick 2), .storage (.tick 2), .setFlag 1 flagData,
    .storage (.call (.saveHandle 1)), .storage (.tick 3)]

/-- After the flagged record is written, the second handle is released and dropped; the waiting
    load inserts the meta it read, sets `FLAG_PROOF` and saves. -/
def staleAfterStore : List FlagEvent :=
  [.storage (.release 1), .storage (.drop 1), .storage (.tick 1), .setFlag 2 flagProof,
    .storage (.call (.saveHandle 2)), .storage (.tick 4), .storage .store]

theorem stale_load_drops_flag :
    ∃ s0 s1 s2, (init (fun _ => none) fun _ _ => none).runF plainLib clearFlags staleBeforeStore =
        some s0 ∧
      s0.queue = [.saveHandle 1] ∧ (s0.handle 1).meta.hasFlag flagData = true ∧
      s0.calls[1]? = some (.loadHandleById masterchainSample.1,
        .loadInsert masterchainSample.1 false ⟨flagHasFullId, 0⟩) ∧
      s0.apply plainLib .store = some s1 ∧ s1.runF plainLib clearFlags staleAfterStore = some s2 ∧
      (∀ e ∈ staleAfterStore, KeepsFlags masterchainSample.1.rootHash e) ∧
      ∃ meta, s2.handleDb masterchainSample.1.rootHash =
        some (serialize plainLib masterchainSample.1 meta) ∧ meta.hasFlag flagData = false :=
  ⟨_, _, _, rfl, rfl, rfl, rfl, rfl, rfl, by simp [staleAfterStore, KeepsFlags], _, rfl, rfl⟩

end Storage

end BlockHandleDb
