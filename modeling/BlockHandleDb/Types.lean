import Mathlib.Algebra.Group.Nat.Basic

/-!
Data of the block-handle storage: block ids, the handle meta and little-endian bytes. Rust's
`i32` is kept as its bits; what the sources call but do not contain is collected in `Lib`.
-/
namespace BlockHandleDb

abbrev Bytes := List UInt8

/-- The `w` bytes of `n`, least significant first (`to_le_bytes`). -/
def leBytes : Nat → Nat → Bytes
  | 0, _ => []
  | w + 1, n => UInt8.ofNat (n % 256) :: leBytes w (n / 256)

/-- The number whose little-endian bytes are `b` (`from_le_bytes`). -/
def leValue : Bytes → Nat
  | [] => 0
  | x :: b => x.toNat + 256 * leValue b

@[simp] theorem length_leBytes (w n : Nat) : (leBytes w n).length = w := by
  induction w generalizing n with
  | zero => rfl
  | succ w ih => simp [leBytes, ih]

theorem leValue_leBytes (w n : Nat) : leValue (leBytes w n) = n % 256 ^ w := by
  induction w generalizing n with
  | zero => simp [leBytes, leValue, Nat.mod_one]
  | succ w ih =>
    have byte : (UInt8.ofNat (n % 256)).toNat = n % 256 :=
      UInt8.toNat_ofNat_of_lt (Nat.mod_lt n (by decide))
    rw [leBytes, leValue, ih, byte, Nat.pow_succ, Nat.mul_comm (256 ^ w), Nat.mod_mul]

def leU32 (x : UInt32) : Bytes := leBytes 4 x.toNat

def leU64 (x : UInt64) : Bytes := leBytes 8 x.toNat

@[simp] theorem length_leU32 (x : UInt32) : (leU32 x).length = 4 := length_leBytes _ _

@[simp] theorem length_leU64 (x : UInt64) : (leU64 x).length = 8 := length_leBytes _ _

theorem leU32_value (x : UInt32) : UInt32.ofNat (leValue (leU32 x)) = x := by
  apply UInt32.eq_of_toBitVec_eq
  show BitVec.ofNat 32 (leValue (leU32 x)) = x.toBitVec
  have small : x.toBitVec.toNat < 256 ^ 4 := x.toBitVec.isLt
  rw [leU32, leValue_leBytes, UInt32.toNat, Nat.mod_eq_of_lt small, BitVec.ofNat_toNat,
    BitVec.setWidth_eq]

theorem leU64_value (x : UInt64) : UInt64.ofNat (leValue (leU64 x)) = x := by
  apply UInt64.eq_of_toBitVec_eq
  show BitVec.ofNat 64 (leValue (leU64 x)) = x.toBitVec
  have small : x.toBitVec.toNat < 256 ^ 8 := x.toBitVec.isLt
  rw [leU64, leValue_leBytes, UInt64.toNat, Nat.mod_eq_of_lt small, BitVec.ofNat_toNat,
    BitVec.setWidth_eq]

/-- `UInt256`: the 32 bytes `as_slice` writes and `read_u256` reads. -/
structure UInt256 where
  bytes : Bytes
  length_bytes : bytes.length = 32
  deriving DecidableEq

instance : Inhabited UInt256 := ⟨⟨List.replicate 32 0, rfl⟩⟩

/-- Rust `i32` as its two's-complement bits. -/
structure I32 where
  bits : UInt32
  deriving DecidableEq, Repr

/-- `MASTERCHAIN_ID`, that is `-1`. -/
def masterchainId : I32 := ⟨0xFFFFFFFF⟩

structure ShardIdent where
  workchainId : I32
  shardPrefixWithTag : UInt64
  deriving DecidableEq, Repr

/-- `ShardIdent::default()`: workchain 0, the full shard. -/
instance : Inhabited ShardIdent := ⟨⟨⟨0⟩, 0x8000000000000000⟩⟩

def ShardIdent.isMasterchain (s : ShardIdent) : Bool := s.workchainId == masterchainId

structure BlockIdExt where
  shardId : ShardIdent
  seqNo : UInt32
  rootHash : UInt256
  fileHash : UInt256
  deriving DecidableEq

instance : Inhabited BlockIdExt := ⟨⟨default, 0, default, default⟩⟩

/-- The id `load_handle_by_root_hash` starts from: the root hash, the rest default. -/
def BlockIdExt.ofRootHash (rh : UInt256) : BlockIdExt := { (default : BlockIdExt) with rootHash := rh }

@[simp] theorem BlockIdExt.rootHash_ofRootHash (rh : UInt256) :
    (BlockIdExt.ofRootHash rh).rootHash = rh := rfl

/-- The two words of `BlockMeta` the modelled code reads. -/
structure BlockMeta where
  flags : UInt32
  masterchainRefSeqNo : UInt32
  deriving DecidableEq, Repr, Inhabited

def flagData : UInt32 := 0x00000001
def flagProof : UInt32 := 0x00000002
def flagProofLink : UInt32 := 0x00000004
def flagState : UInt32 := 0x00000010
def flagPersistentState : UInt32 := 0x00000020
def flagNext1 : UInt32 := 0x00000040
def flagNext2 : UInt32 := 0x00000080
def flagPrev1 : UInt32 := 0x00000100
def flagPrev2 : UInt32 := 0x00000200
def flagApplied : UInt32 := 0x00000400
def flagKeyBlock : UInt32 := 0x00000800
def flagMovedToArchive : UInt32 := 0x00002000
def flagIsQueueUpdate : UInt32 := 0x00004000
def flagIsEmptyQueueUpdate : UInt32 := 0x00008000
def flagStateSaved : UInt32 := 0x00010000
def flagHasFullId : UInt32 := 0x00020000
def flagIsMesh : UInt32 := 0x00040000
/-- `FLAG_ARCHIVING`, one of the flags `BlockMeta` does not serialize. -/
def flagArchiving : UInt32 := 0x80000000

/-- `BlockMeta::set_flags`, an atomic `fetch_or` (its callers return the flags it saw
    before). -/
def BlockMeta.setFlags (m : BlockMeta) (flag : UInt32) : BlockMeta :=
  { m with flags := m.flags ||| flag }

/-- `(meta.flags() & flag) == flag`. -/
def BlockMeta.hasFlag (m : BlockMeta) (flag : UInt32) : Bool := m.flags &&& flag == flag

def BlockMeta.hasFullId (m : BlockMeta) : Bool := m.hasFlag flagHasFullId

theorem or_and_cancel (a f : UInt32) : (a ||| f) &&& f = f := by
  apply UInt32.eq_of_toBitVec_eq
  apply BitVec.eq_of_getLsbD_eq
  intro i
  show ((a.toBitVec ||| f.toBitVec) &&& f.toBitVec).getLsbD i = _
  rw [BitVec.getLsbD_and, BitVec.getLsbD_or]
  cases a.toBitVec.getLsbD i <;> cases f.toBitVec.getLsbD i <;> rfl

@[simp] theorem BlockMeta.hasFlag_setFlags (m : BlockMeta) (flag : UInt32) :
    (m.setFlags flag).hasFlag flag = true := by
  simp [hasFlag, setFlags, or_and_cancel]

theorem or_and_of_and {a g : UInt32} (f : UInt32) (set : a &&& g = g) : (a ||| f) &&& g = g := by
  apply UInt32.eq_of_toBitVec_eq
  apply BitVec.eq_of_getLsbD_eq
  intro i
  have bit : (a.toBitVec &&& g.toBitVec).getLsbD i = g.toBitVec.getLsbD i :=
    congrArg (fun x : UInt32 => x.toBitVec.getLsbD i) set
  show ((a.toBitVec ||| f.toBitVec) &&& g.toBitVec).getLsbD i = _
  rw [BitVec.getLsbD_and] at bit
  rw [BitVec.getLsbD_and, BitVec.getLsbD_or]
  cases ha : a.toBitVec.getLsbD i <;> cases hg : g.toBitVec.getLsbD i <;> simp_all

theorem BlockMeta.hasFlag_setFlags_of_hasFlag {m : BlockMeta} {g : UInt32} (flag : UInt32)
    (set : m.hasFlag g = true) : (m.setFlags flag).hasFlag g = true := by
  simp only [hasFlag, setFlags, beq_iff_eq] at set ⊢
  exact or_and_of_and flag set

/-- Why bytes do not decode: a read past their end, or a value a constructor rejects. -/
inductive DecodeError where
  | eof
  | invalid (reason : String)
  deriving DecidableEq, Repr

/-- What the storage calls but these sources do not contain: `BlockMeta`'s codec
    (`storage/src/types/block_meta.rs`), `ShardIdent::with_tagged_prefix` and
    `BlockIdExt`'s codec (`ever_block`). A decoder returns the bytes it leaves. -/
structure Lib where
  metaSerialize : BlockMeta → Bytes
  metaDeserialize : Bytes → Except DecodeError (BlockMeta × Bytes)
  withTaggedPrefix : I32 → UInt64 → Except DecodeError ShardIdent
  idSerialize : BlockIdExt → Bytes
  idDeserialize : Bytes → Except DecodeError BlockIdExt

end BlockHandleDb
