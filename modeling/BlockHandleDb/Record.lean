import BlockHandleDb.Types

/-!
The handle record: `BlockHandle::serialize` and its three readers. A record is the meta and
the full id; the readers read the id only under `FLAG_HAS_FULL_ID`, and not in the same order.
-/
namespace BlockHandleDb

/-- `read_exact` of `n` bytes from a cursor: the bytes read and the bytes left. -/
def readBytes (n : Nat) (b : Bytes) : Except DecodeError (Bytes × Bytes) :=
  if n ≤ b.length then .ok (b.take n, b.drop n) else .error .eof

def readLeU32 (b : Bytes) : Except DecodeError (UInt32 × Bytes) := do
  let (x, b) ← readBytes 4 b
  pure (UInt32.ofNat (leValue x), b)

def readLeU64 (b : Bytes) : Except DecodeError (UInt64 × Bytes) := do
  let (x, b) ← readBytes 8 b
  pure (UInt64.ofNat (leValue x), b)

def readU256 (b : Bytes) : Except DecodeError (UInt256 × Bytes) :=
  if h : 32 ≤ b.length then .ok (⟨b.take 32, by simp [Nat.min_eq_left h]⟩, b.drop 32)
  else .error .eof

theorem readBytes_append (x r : Bytes) : readBytes x.length (x ++ r) = .ok (x, r) := by
  simp [readBytes]

@[simp] theorem readLeU32_append (x : UInt32) (r : Bytes) :
    readLeU32 (leU32 x ++ r) = .ok (x, r) := by
  have read := readBytes_append (leU32 x) r
  rw [length_leU32] at read
  simp [readLeU32, read, leU32_value, bind, Except.bind, pure, Except.pure]

@[simp] theorem readLeU64_append (x : UInt64) (r : Bytes) :
    readLeU64 (leU64 x ++ r) = .ok (x, r) := by
  have read := readBytes_append (leU64 x) r
  rw [length_leU64] at read
  simp [readLeU64, read, leU64_value, bind, Except.bind, pure, Except.pure]

@[simp] theorem readU256_append (u : UInt256) (r : Bytes) :
    readU256 (u.bytes ++ r) = .ok (u, r) := by
  simp [readU256, u.length_bytes]

@[simp] theorem readU256_bytes (u : UInt256) : readU256 u.bytes = .ok (u, []) := by
  simpa using readU256_append u []

theorem readLeU32_of_le {b : Bytes} (long : 4 ≤ b.length) :
    readLeU32 b = .ok (UInt32.ofNat (leValue (b.take 4)), b.drop 4) := by
  simp [readLeU32, readBytes, long, bind, Except.bind, pure, Except.pure]

theorem readLeU64_of_le {b : Bytes} (long : 8 ≤ b.length) :
    readLeU64 b = .ok (UInt64.ofNat (leValue (b.take 8)), b.drop 8) := by
  simp [readLeU64, readBytes, long, bind, Except.bind, pure, Except.pure]

theorem readU256_of_le {b : Bytes} (long : 32 ≤ b.length) : ∃ u, readU256 b = .ok (u, b.drop 32) :=
  ⟨_, dif_pos long⟩

theorem readLeU32_of_lt {b : Bytes} (short : b.length < 4) : readLeU32 b = .error .eof := by
  simp [readLeU32, readBytes, Nat.not_le.mpr short, bind, Except.bind]

theorem readLeU64_of_lt {b : Bytes} (short : b.length < 8) : readLeU64 b = .error .eof := by
  simp [readLeU64, readBytes, Nat.not_le.mpr short, bind, Except.bind]

theorem readU256_of_lt {b : Bytes} (short : b.length < 32) : readU256 b = .error .eof :=
  dif_neg (Nat.not_le.mpr short)

/-- A `Lib` to run the model with: the meta is its two words and an id its five fields,
    little-endian; every tagged prefix is accepted. -/
def plainLib : Lib where
  metaSerialize m := leU32 m.flags ++ leU32 m.masterchainRefSeqNo
  metaDeserialize b := do
    let (flags, b) ← readLeU32 b
    let (refSeqNo, b) ← readLeU32 b
    pure (⟨flags, refSeqNo⟩, b)
  withTaggedPrefix wc tag := .ok ⟨wc, tag⟩
  idSerialize id := leU32 id.shardId.workchainId.bits ++ (leU64 id.shardId.shardPrefixWithTag ++
    (leU32 id.seqNo ++ (id.rootHash.bytes ++ id.fileHash.bytes)))
  idDeserialize b := do
    let (wc, b) ← readLeU32 b
    let (tag, b) ← readLeU64 b
    let (seqNo, b) ← readLeU32 b
    let (rootHash, b) ← readU256 b
    let (fileHash, _) ← readU256 b
    pure ⟨⟨⟨wc⟩, tag⟩, seqNo, rootHash, fileHash⟩

theorem plainLib_meta_round_trip (m : BlockMeta) (rest : Bytes) :
    plainLib.metaDeserialize (plainLib.metaSerialize m ++ rest) = .ok (m, rest) := by
  simp [plainLib, bind, Except.bind, pure, Except.pure]

theorem plainLib_id_round_trip (id : BlockIdExt) :
    plainLib.idDeserialize (plainLib.idSerialize id) = .ok id := by
  simp [plainLib, bind, Except.bind, pure, Except.pure]

theorem plainLib_meta_reads_back (meta : BlockMeta) (rest : Bytes) :
    ∃ m, plainLib.metaDeserialize (plainLib.metaSerialize meta ++ rest) = .ok (m, rest) :=
  ⟨meta, plainLib_meta_round_trip meta rest⟩

/-- `with_tagged_prefix` accepts the tagged prefix of `shard`. -/
def Lib.Accepts (L : Lib) (shard : ShardIdent) : Prop :=
  ∃ shard', L.withTaggedPrefix shard.workchainId shard.shardPrefixWithTag = .ok shard'

theorem plainLib_accepts (shard : ShardIdent) : plainLib.Accepts shard := ⟨_, rfl⟩

variable (L : Lib)

/-- `BlockHandle::serialize`: the meta, then the full id whatever the flags say. -/
def serialize (id : BlockIdExt) (meta : BlockMeta) : Bytes :=
  L.metaSerialize meta ++ (leU32 id.shardId.workchainId.bits ++
    (leU64 id.shardId.shardPrefixWithTag ++ (leU32 id.seqNo ++ id.fileHash.bytes)))

/-- `BlockHandle::deserialize`: the meta, and whether the id written in the record
    differs from `id` (only a logged warning in the source). -/
def deserialize (id : BlockIdExt) (b : Bytes) : Except DecodeError (BlockMeta × Bool) := do
  let (meta, b) ← L.metaDeserialize b
  if meta.hasFullId then
    let (wc, b) ← readLeU32 b
    let (tag, b) ← readLeU64 b
    let shardId ← L.withTaggedPrefix ⟨wc⟩ tag
    let (seqNo, b) ← readLeU32 b
    let (fileHash, _) ← readU256 b
    let id2 : BlockIdExt := ⟨shardId, seqNo, id.rootHash, fileHash⟩
    pure (meta, id != id2)
  else
    pure (meta, false)

/-- `BlockHandle::deserialize_nonchecked`: a flagged record overwrites the id's shard,
    seqno and file hash. On an error the caller returns at once, so the partly written
    id of the source is never read. -/
def deserializeNonchecked (id : BlockIdExt) (b : Bytes) :
    Except DecodeError (BlockMeta × BlockIdExt) := do
  let (meta, b) ← L.metaDeserialize b
  if meta.hasFullId then
    let (wc, b) ← readLeU32 b
    let (tag, b) ← readLeU64 b
    let shardId ← L.withTaggedPrefix ⟨wc⟩ tag
    let (seqNo, b) ← readLeU32 b
    let (fileHash, _) ← readU256 b
    pure (meta, { id with shardId, seqNo, fileHash })
  else
    pure (meta, id)

/-- `BlockHandle::deserialize_full_id`: reads the whole suffix, then checks the shard. -/
def deserializeFullId (rootHash : UInt256) (b : Bytes) :
    Except DecodeError (Option BlockIdExt) := do
  let (meta, b) ← L.metaDeserialize b
  if meta.hasFullId then
    let (wc, b) ← readLeU32 b
    let (tag, b) ← readLeU64 b
    let (seqNo, b) ← readLeU32 b
    let (fileHash, _) ← readU256 b
    let shardId ← L.withTaggedPrefix ⟨wc⟩ tag
    pure (some ⟨shardId, seqNo, rootHash, fileHash⟩)
  else
    pure none

theorem rootHash_deserializeNonchecked {id id' : BlockIdExt} {b : Bytes} {meta : BlockMeta}
    (ok : deserializeNonchecked L id b = .ok (meta, id')) : id'.rootHash = id.rootHash := by
  simp only [deserializeNonchecked, bind, Except.bind, pure, Except.pure] at ok
  repeat' split at ok
  all_goals cases ok <;> rfl

theorem shard_deserializeNonchecked {id id' : BlockIdExt} {b : Bytes} {meta : BlockMeta}
    (ok : deserializeNonchecked L id b = .ok (meta, id')) :
    id'.shardId = id.shardId ∨ ∃ wc tag, L.withTaggedPrefix wc tag = .ok id'.shardId := by
  simp only [deserializeNonchecked, bind, Except.bind, pure, Except.pure] at ok
  repeat' split at ok
  all_goals cases ok
  all_goals first | exact .inl rfl | exact .inr ⟨_, _, by assumption⟩

theorem rootHash_deserializeFullId {rh : UInt256} {b : Bytes} {id : BlockIdExt}
    (ok : deserializeFullId L rh b = .ok (some id)) : id.rootHash = rh := by
  simp only [deserializeFullId, bind, Except.bind, pure, Except.pure] at ok
  repeat' split at ok
  all_goals cases ok <;> rfl

/-- A stored record decodes back: the full id when the meta carries `FLAG_HAS_FULL_ID`,
    nothing but the meta otherwise, and never an id mismatch. -/
theorem serialize_round_trip (id : BlockIdExt) (meta : BlockMeta)
    (meta_round_trip : ∀ rest, ∃ m, L.metaDeserialize (L.metaSerialize meta ++ rest) =
      .ok (m, rest) ∧ m.hasFullId = meta.hasFullId)
    (valid_shard :
      L.withTaggedPrefix id.shardId.workchainId id.shardId.shardPrefixWithTag = .ok id.shardId) :
    ∃ m, m.hasFullId = meta.hasFullId ∧
      deserializeFullId L id.rootHash (serialize L id meta) =
        .ok (if meta.hasFullId then some id else none) ∧
      deserializeNonchecked L (.ofRootHash id.rootHash) (serialize L id meta) =
        .ok (m, if meta.hasFullId then id else .ofRootHash id.rootHash) ∧
      deserialize L id (serialize L id meta) = .ok (m, false) := by
  obtain ⟨m, decoded, flag⟩ := meta_round_trip (leU32 id.shardId.workchainId.bits ++
    (leU64 id.shardId.shardPrefixWithTag ++ (leU32 id.seqNo ++ id.fileHash.bytes)))
  refine ⟨m, flag, ?_⟩
  cases full : meta.hasFullId <;>
    simp [deserializeFullId, deserializeNonchecked, deserialize, serialize, decoded, flag, full,
      valid_shard, bind, Except.bind, pure, Except.pure, BlockIdExt.ofRootHash]

theorem serialize_decodes
    (meta_ok : ∀ meta rest, ∃ m, L.metaDeserialize (L.metaSerialize meta ++ rest) = .ok (m, rest))
    {id : BlockIdExt} (accepted : L.Accepts id.shardId) (start : BlockIdExt) (meta : BlockMeta) :
    (deserialize L start (serialize L id meta)).isOk = true ∧
      (deserializeNonchecked L start (serialize L id meta)).isOk = true := by
  obtain ⟨m, decoded⟩ := meta_ok meta (leU32 id.shardId.workchainId.bits ++
    (leU64 id.shardId.shardPrefixWithTag ++ (leU32 id.seqNo ++ id.fileHash.bytes)))
  obtain ⟨shard, accepted⟩ := accepted
  cases full : m.hasFullId <;>
    simp [deserialize, deserializeNonchecked, serialize, decoded, accepted, bind, Except.bind,
      pure, Except.pure, Except.isOk, Except.toBool, full]

theorem deserializeNonchecked_serialize {id start : BlockIdExt} {meta : BlockMeta}
    (meta_round_trip : ∀ rest, ∃ m, L.metaDeserialize (L.metaSerialize meta ++ rest) =
      .ok (m, rest) ∧ m.hasFullId = meta.hasFullId)
    (valid_shard :
      L.withTaggedPrefix id.shardId.workchainId id.shardId.shardPrefixWithTag = .ok id.shardId)
    (full : meta.hasFullId = true) (root : start.rootHash = id.rootHash) :
    ∃ m, m.hasFullId = true ∧ deserializeNonchecked L start (serialize L id meta) = .ok (m, id) := by
  obtain ⟨m, decoded, flag⟩ := meta_round_trip (leU32 id.shardId.workchainId.bits ++
    (leU64 id.shardId.shardPrefixWithTag ++ (leU32 id.seqNo ++ id.fileHash.bytes)))
  refine ⟨m, flag.trans full, ?_⟩
  obtain ⟨shard, seqNo, rh, fileHash⟩ := id
  subst root
  simp [deserializeNonchecked, serialize, decoded, flag, full, valid_shard, bind, Except.bind, pure,
    Except.pure]

theorem deserialize_meta {id : BlockIdExt} {b : Bytes} {m : BlockMeta} {differs : Bool}
    (ok : deserialize L id b = .ok (m, differs)) : ∃ rest, L.metaDeserialize b = .ok (m, rest) := by
  simp only [deserialize, bind, Except.bind, pure, Except.pure] at ok
  rcases dec : L.metaDeserialize b with e | ⟨meta, rest⟩
  · simp [dec] at ok
  simp only [dec] at ok
  repeat' split at ok
  all_goals cases ok <;> exact ⟨rest, rfl⟩

theorem deserializeNonchecked_meta {id id' : BlockIdExt} {b : Bytes} {m : BlockMeta}
    (ok : deserializeNonchecked L id b = .ok (m, id')) :
    ∃ rest, L.metaDeserialize b = .ok (m, rest) := by
  simp only [deserializeNonchecked, bind, Except.bind, pure, Except.pure] at ok
  rcases dec : L.metaDeserialize b with e | ⟨meta, rest⟩
  · simp [dec] at ok
  simp only [dec] at ok
  repeat' split at ok
  all_goals cases ok <;> exact ⟨rest, rfl⟩

/-- Why a record does not read back: its meta does not decode, or the meta carries
    `FLAG_HAS_FULL_ID` and the rest is shorter than a full id or starts with a tagged shard
    prefix `with_tagged_prefix` rejects. -/
def Unreadable (b : Bytes) : Prop :=
  (∃ e, L.metaDeserialize b = .error e) ∨ ∃ meta r, L.metaDeserialize b = .ok (meta, r) ∧
    meta.hasFullId = true ∧ (r.length < 48 ∨ ∃ e, L.withTaggedPrefix
      ⟨UInt32.ofNat (leValue (r.take 4))⟩ (UInt64.ofNat (leValue ((r.drop 4).take 8))) = .error e)

theorem deserializeFullId_error_iff (rh : UInt256) (b : Bytes) :
    (∃ e, deserializeFullId L rh b = .error e) ↔ Unreadable L b := by
  simp only [deserializeFullId, Unreadable, bind, Except.bind, pure, Except.pure]
  rcases L.metaDeserialize b with e | ⟨meta, r⟩
  · simp
  simp only [reduceCtorEq, exists_false, Except.ok.injEq, Prod.mk.injEq, and_assoc,
    exists_and_left, exists_eq_left', false_or]
  cases flag : meta.hasFullId
  · simp
  simp only [true_and, ↓reduceIte]
  by_cases short4 : r.length < 4
  · simp [readLeU32_of_lt short4, show r.length < 48 by omega]
  simp only [readLeU32_of_le (Nat.le_of_not_lt short4)]
  by_cases short12 : r.length < 12
  · simp [readLeU64_of_lt (show (r.drop 4).length < 8 by simp; omega),
      show r.length < 48 by omega]
  simp only [readLeU64_of_le (show 8 ≤ (r.drop 4).length by simp; omega), List.drop_drop]
  by_cases short16 : r.length < 16
  · simp [readLeU32_of_lt (show (r.drop 12).length < 4 by simp; omega),
      show r.length < 48 by omega]
  simp only [readLeU32_of_le (show 4 ≤ (r.drop 12).length by simp; omega), List.drop_drop]
  by_cases short48 : r.length < 48
  · simp [readU256_of_lt (show (r.drop 16).length < 32 by simp; omega), short48]
  obtain ⟨u, read⟩ := readU256_of_le (show 32 ≤ (r.drop 16).length by simp; omega)
  cases L.withTaggedPrefix ⟨UInt32.ofNat (leValue (r.take 4))⟩
    (UInt64.ofNat (leValue ((r.drop 4).take 8))) <;> simp [read, short48]

theorem readers_agree (rh : UInt256) (start id : BlockIdExt) (hs : start.rootHash = rh)
    (hid : id.rootHash = rh) (b : Bytes) :
    (∃ e₁ e₂ e₃, deserializeFullId L rh b = .error e₁ ∧
      deserializeNonchecked L start b = .error e₂ ∧ deserialize L id b = .error e₃) ∨
    ∃ meta, (meta.hasFullId = false ∧ deserializeFullId L rh b = .ok none ∧
        deserializeNonchecked L start b = .ok (meta, start) ∧
        deserialize L id b = .ok (meta, false)) ∨
      ∃ full : BlockIdExt, meta.hasFullId = true ∧ full.rootHash = rh ∧
        deserializeFullId L rh b = .ok (some full) ∧
        deserializeNonchecked L start b = .ok (meta, full) ∧
        deserialize L id b = .ok (meta, id != full) := by
  simp only [deserializeFullId, deserializeNonchecked, deserialize, bind, Except.bind, pure,
    Except.pure]
  rcases L.metaDeserialize b with e | ⟨meta, r⟩
  · simp
  cases flag : meta.hasFullId
  · simp [flag]
  rcases read_wc : readLeU32 r with e | ⟨wc, r⟩
  · simp [flag, read_wc]
  rcases read_tag : readLeU64 r with e | ⟨tag, r⟩
  · simp [flag, read_wc, read_tag]
  rcases shard : L.withTaggedPrefix ⟨wc⟩ tag with e | shardId <;>
    rcases read_seqno : readLeU32 r with e' | ⟨seqNo, r⟩ <;>
    rcases read_hash : readU256 r with e'' | ⟨fileHash, r⟩ <;>
    simp [flag, read_wc, read_tag, shard, read_seqno, read_hash, hs, hid]
  exact ⟨meta, flag, ⟨shardId, seqNo, rh, fileHash⟩, rfl, rfl, ⟨rfl, rfl⟩, rfl, rfl⟩

/-- The three readers of one record fail on the same bytes, exactly when the record is unreadable,
    and otherwise agree: the same meta, and the full id of a flagged record is what
    `deserialize_nonchecked` rebuilds and what `deserialize` compares against. The failures may
    differ in kind, since `deserialize_full_id` checks the shard only after reading the whole
    suffix. -/
theorem record_readers_agree (rh : UInt256) (start id : BlockIdExt) (hs : start.rootHash = rh)
    (hid : id.rootHash = rh) (b : Bytes) :
    ((∃ e₁ e₂ e₃, deserializeFullId L rh b = .error e₁ ∧
      deserializeNonchecked L start b = .error e₂ ∧ deserialize L id b = .error e₃) ∧
      Unreadable L b) ∨
    ∃ meta, (meta.hasFullId = false ∧ deserializeFullId L rh b = .ok none ∧
        deserializeNonchecked L start b = .ok (meta, start) ∧
        deserialize L id b = .ok (meta, false)) ∨
      ∃ full : BlockIdExt, meta.hasFullId = true ∧ full.rootHash = rh ∧
        deserializeFullId L rh b = .ok (some full) ∧
        deserializeNonchecked L start b = .ok (meta, full) ∧
        deserialize L id b = .ok (meta, id != full) := by
  rcases readers_agree L rh start id hs hid b with ⟨e₁, e₂, e₃, full, rest⟩ | ok
  · exact .inl ⟨⟨e₁, e₂, e₃, full, rest⟩, (deserializeFullId_error_iff L rh b).mp ⟨e₁, full⟩⟩
  · exact .inr ok

/-- A masterchain block (workchain `-1`) with a flagged meta. -/
def masterchainSample : BlockIdExt × BlockMeta :=
  (⟨⟨masterchainId, 0x8000000000000000⟩, 1, default, default⟩, ⟨flagHasFullId, 0⟩)

theorem serialize_round_trip_masterchain :
    (∀ rest, ∃ m, plainLib.metaDeserialize (plainLib.metaSerialize masterchainSample.2 ++ rest) =
      .ok (m, rest) ∧ m.hasFullId = masterchainSample.2.hasFullId) ∧
    plainLib.withTaggedPrefix masterchainSample.1.shardId.workchainId
      masterchainSample.1.shardId.shardPrefixWithTag = .ok masterchainSample.1.shardId ∧
    ∃ m, m.hasFullId = masterchainSample.2.hasFullId ∧
      deserializeFullId plainLib masterchainSample.1.rootHash
        (serialize plainLib masterchainSample.1 masterchainSample.2) =
        .ok (if masterchainSample.2.hasFullId then some masterchainSample.1 else none) ∧
      deserializeNonchecked plainLib (.ofRootHash masterchainSample.1.rootHash)
        (serialize plainLib masterchainSample.1 masterchainSample.2) =
        .ok (m, if masterchainSample.2.hasFullId then masterchainSample.1
          else .ofRootHash masterchainSample.1.rootHash) ∧
      deserialize plainLib masterchainSample.1
        (serialize plainLib masterchainSample.1 masterchainSample.2) = .ok (m, false) :=
  have meta := fun rest => ⟨_, plainLib_meta_round_trip masterchainSample.2 rest, rfl⟩
  ⟨meta, rfl, serialize_round_trip plainLib _ _ meta rfl⟩

theorem record_readers_agree_masterchain :
    let id := masterchainSample.1
    let b := serialize plainLib id masterchainSample.2
    (BlockIdExt.ofRootHash id.rootHash).rootHash = id.rootHash ∧ id.rootHash = id.rootHash ∧
    (((∃ e₁ e₂ e₃, deserializeFullId plainLib id.rootHash b = .error e₁ ∧
      deserializeNonchecked plainLib (.ofRootHash id.rootHash) b = .error e₂ ∧
      deserialize plainLib id b = .error e₃) ∧ Unreadable plainLib b) ∨
    ∃ meta, (meta.hasFullId = false ∧ deserializeFullId plainLib id.rootHash b = .ok none ∧
        deserializeNonchecked plainLib (.ofRootHash id.rootHash) b =
          .ok (meta, .ofRootHash id.rootHash) ∧
        deserialize plainLib id b = .ok (meta, false)) ∨
      ∃ full : BlockIdExt, meta.hasFullId = true ∧ full.rootHash = id.rootHash ∧
        deserializeFullId plainLib id.rootHash b = .ok (some full) ∧
        deserializeNonchecked plainLib (.ofRootHash id.rootHash) b = .ok (meta, full) ∧
        deserialize plainLib id b = .ok (meta, id != full)) :=
  by intro id b; exact ⟨rfl, rfl, record_readers_agree plainLib id.rootHash (.ofRootHash _) id rfl rfl b⟩

end BlockHandleDb
