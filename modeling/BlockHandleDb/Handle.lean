import BlockHandleDb.Types

/-!
`BlockHandle::set_masterchain_ref_seq_no`. The atomic update of the stored number lives in
`block_meta.rs`, outside these sources, so it is a parameter; whether a nonzero number can be
overwritten is decided by the update alone.
-/
namespace BlockHandleDb

/-- An atomic update of the stored number: what it stores, from the number it finds and the
    argument. -/
abbrev RefSeqNoUpdate := UInt32 → UInt32 → UInt32

/-- `AtomicU32::swap`. -/
def swapUpdate : RefSeqNoUpdate := fun _ v => v

/-- `compare_exchange(0, v)`: a number is stored only over zero. -/
def setOnceUpdate : RefSeqNoUpdate := fun cur v => if cur = 0 then v else cur

/-- What the error of `set_masterchain_ref_seq_no` reports: "INTERNAL ERROR: set different
    masterchain ref seqno for block {id}: {prev} -> {new}". -/
structure RefSeqNoMismatch where
  id : BlockIdExt
  prev : UInt32
  new : UInt32
  deriving DecidableEq

/-- `BlockHandle::set_masterchain_ref_seq_no`: the meta after the call, and its result. -/
def setMasterchainRefSeqNo (update : RefSeqNoUpdate) (id : BlockIdExt) (meta : BlockMeta)
    (v : UInt32) : BlockMeta × Except RefSeqNoMismatch Bool :=
  let prev := meta.masterchainRefSeqNo
  ({ meta with masterchainRefSeqNo := update prev v },
    if prev = 0 then .ok true else if prev = v then .ok false else .error ⟨id, prev, v⟩)

/-- `BlockHandle::masterchain_ref_seq_no`. -/
def masterchainRefSeqNo (id : BlockIdExt) (meta : BlockMeta) : UInt32 :=
  if id.shardId.isMasterchain then id.seqNo else meta.masterchainRefSeqNo

/-- Calls in the order their updates take effect: the meta after them and their results. -/
def setRun (update : RefSeqNoUpdate) (id : BlockIdExt) :
    BlockMeta → List UInt32 → BlockMeta × List (Except RefSeqNoMismatch Bool)
  | meta, [] => (meta, [])
  | meta, v :: vs =>
    let step := setMasterchainRefSeqNo update id meta v
    let rest := setRun update id step.1 vs
    (rest.1, step.2 :: rest.2)

theorem setOnce_keeps_nonzero (id : BlockIdExt) (meta : BlockMeta) (v : UInt32)
    (set : meta.masterchainRefSeqNo ≠ 0) :
    (setMasterchainRefSeqNo setOnceUpdate id meta v).1 = meta ∧
    (setMasterchainRefSeqNo setOnceUpdate id meta v).2 =
      if meta.masterchainRefSeqNo = v then .ok false
      else .error ⟨id, meta.masterchainRefSeqNo, v⟩ := by
  simp [setMasterchainRefSeqNo, setOnceUpdate, set]

theorem setOnce_run_keeps_nonzero (id : BlockIdExt) (meta : BlockMeta) (vs : List UInt32)
    (set : meta.masterchainRefSeqNo ≠ 0) : (setRun setOnceUpdate id meta vs).1 = meta := by
  induction vs with
  | nil => rfl
  | cons v vs ih =>
    simp only [setRun, (setOnce_keeps_nonzero id meta v set).1, ih]

/-- A block of workchain 0. -/
def sampleShardBlock : BlockIdExt := ⟨default, 1, default, default⟩

-- With a swap instead, a call that fails still overwrites the number: a block's number `5` is
-- replaced by `7`, and the call that did it returns the error.
example :
    setRun swapUpdate sampleShardBlock ⟨0, 0⟩ [5, 7] =
      (⟨0, 7⟩, [.ok true, .error ⟨sampleShardBlock, 5, 7⟩]) ∧
    masterchainRefSeqNo sampleShardBlock ⟨0, 7⟩ = 7 :=
  ⟨rfl, rfl⟩

end BlockHandleDb
