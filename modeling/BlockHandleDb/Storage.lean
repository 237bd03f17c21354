import Mathlib.Logic.Function.Basic
import BlockHandleDb.Record

/-!
`BlockHandleStorage` as a transition system. A call runs as atomic steps, any number at once;
handles live in a heap, a handle's strong count is the `Arc`s held, and `Drop` and the storer
are actors of their own. DB and channel operations always succeed.
-/
namespace BlockHandleDb

/-- One allocation of `BlockHandle`: its data and whether its `Drop` has run. -/
structure HandleObj where
  id : BlockIdExt
  meta : BlockMeta
  dropped : Bool

instance : Inhabited HandleObj := ⟨⟨default, default, false⟩⟩

/-- The two node-state DBs, which share `state_cache`. -/
inductive StateDb where
  | fullNode
  | validator
  deriving DecidableEq, Repr

inductive StoreJob where
  | saveHandle (handle : Nat)
  | dropHandle (id : BlockIdExt)
  | saveState (db : StateDb) (key : String) (id : BlockIdExt)
  | dropState (db : StateDb) (key : String)
  deriving DecidableEq

def StoreJob.saveFullNodeState (key : String) (id : BlockIdExt) : StoreJob :=
  .saveState .fullNode key id
def StoreJob.saveValidatorState (key : String) (id : BlockIdExt) : StoreJob :=
  .saveState .validator key id
def StoreJob.dropValidatorState (key : String) : StoreJob := .dropState .validator key
def StoreJob.dropFullNodeState (key : String) : StoreJob := .dropState .fullNode key

/-- The public functions of `BlockHandleStorage` that touch its maps. -/
inductive Api where
  | createHandle (id : BlockIdExt) (meta : BlockMeta)
  | loadHandleById (id : BlockIdExt)
  | loadHandleByRootHash (rootHash : UInt256)
  | loadFullBlockId (rootHash : UInt256)
  | saveHandle (handle : Nat)
  | dropHandle (id : BlockIdExt)
  | saveState (db : StateDb) (key : String) (id : BlockIdExt)
  | dropState (db : StateDb) (key : String)
  | loadState (db : StateDb) (key : String)
  deriving DecidableEq

def Api.saveFullNodeState (key : String) (id : BlockIdExt) : Api := .saveState .fullNode key id
def Api.saveValidatorState (key : String) (id : BlockIdExt) : Api := .saveState .validator key id
def Api.dropFullNodeState (key : String) : Api := .dropState .fullNode key
def Api.dropValidatorState (key : String) : Api := .dropState .validator key
def Api.loadFullNodeState (key : String) : Api := .loadState .fullNode key
def Api.loadValidatorState (key : String) : Api := .loadState .validator key

inductive Ret where
  | handle (h : Option Nat)
  | fullId (id : Option BlockIdExt)
  | state (id : Option BlockIdExt)
  | unit
  | error (e : DecodeError)
  deriving DecidableEq

/-- Where a call in flight stands: the atomic step it takes next. -/
inductive Pc where
  | createInsert (id : BlockIdExt) (meta : BlockMeta)
  | createSend (handle : Nat)
  | saveSend (handle : Nat)
  | loadGet (id : BlockIdExt) (rhOnly : Bool)
  | loadUpgrade (id : BlockIdExt) (rhOnly : Bool) (weak : Option Nat)
  | loadRead (id : BlockIdExt) (rhOnly : Bool)
  | loadInsert (id : BlockIdExt) (rhOnly : Bool) (meta : BlockMeta)
  | fullGet (rootHash : UInt256)
  | fullUpgrade (rootHash : UInt256) (weak : Option Nat)
  | fullRelease (handle : Nat)
  | fullRead (rootHash : UInt256)
  | dropRemove (id : BlockIdExt)
  | dropSend (id : BlockIdExt)
  | stateSave (db : StateDb) (key : String) (id : BlockIdExt)
  | stateSaveSend (db : StateDb) (key : String) (id : BlockIdExt)
  | stateDrop (db : StateDb) (key : String)
  | stateDropSend (db : StateDb) (key : String)
  | stateGet (db : StateDb) (key : String)
  | stateRead (db : StateDb) (key : String)
  | stateCreate (db : StateDb) (key : String) (id : BlockIdExt)
  | done (r : Ret)
  deriving DecidableEq

/-- The first step of each call; `create_handle` sets `FLAG_HAS_FULL_ID` before it. -/
def Api.start : Api → Pc
  | .createHandle id meta => .createInsert id (meta.setFlags flagHasFullId)
  | .loadHandleById id => .loadGet id false
  | .loadHandleByRootHash rh => .loadGet (.ofRootHash rh) true
  | .loadFullBlockId rh => .fullGet rh
  | .saveHandle h => .saveSend h
  | .dropHandle id => .dropRemove id
  | .saveState db key id => .stateSave db key id
  | .dropState db key => .stateDrop db key
  | .loadState db key => .stateGet db key

def Pc.isDone : Pc → Bool
  | .done _ => true
  | _ => false

/-- The `Arc` a call holds between two of its steps: `create_handle_and_store`'s `ret`
    before it is returned, the handle `save_handle` borrows, and the upgraded handle of
    `load_full_block_id` while its id is cloned. -/
def Pc.holds (h : Nat) : Pc → Bool
  | .createSend x | .saveSend x | .fullRelease x => x == h
  | _ => false

def StoreJob.holds (h : Nat) : StoreJob → Bool
  | .saveHandle x => x == h
  | _ => false

structure Storage where
  heap : List HandleObj
  handleCache : UInt256 → Option Nat
  handleDb : UInt256 → Option Bytes
  stateCache : String → Option BlockIdExt
  stateDb : StateDb → String → Option Bytes
  queue : List StoreJob
  clients : List Nat
  calls : List (Api × Pc)

/-- `BlockHandleStorage::with_dbs`: empty caches over the given DBs. -/
def Storage.init (handleDb : UInt256 → Option Bytes)
    (stateDb : StateDb → String → Option Bytes) : Storage :=
  ⟨[], fun _ => none, handleDb, fun _ => none, stateDb, [], [], []⟩

namespace Storage

def handle (s : Storage) (h : Nat) : HandleObj := s.heap.getD h default

/-- `Arc::strong_count`. -/
def strong (s : Storage) (h : Nat) : Nat :=
  s.clients.count h + s.queue.countP (StoreJob.holds h) + s.calls.countP (fun c => c.2.holds h)

/-- `Arc::new(BlockHandle::with_values(..))`: a new handle at the end of the heap. -/
def alloc (s : Storage) (id : BlockIdExt) (meta : BlockMeta) : Storage :=
  { s with heap := s.heap ++ [⟨id, meta, false⟩] }

/-- `add_counted_object_to_map` under a root hash with no entry: the new handle's `Weak`
    goes in. -/
def insert (s : Storage) (id : BlockIdExt) (meta : BlockMeta) : Storage :=
  { s.alloc id meta with
    handleCache := Function.update s.handleCache id.rootHash (some s.heap.length) }

/-- `handle_cache.remove(rh)`. -/
def removeEntry (s : Storage) (rh : UInt256) : Storage :=
  { s with handleCache := Function.update s.handleCache rh none }

def send (s : Storage) (job : StoreJob) : Storage := { s with queue := s.queue ++ [job] }

def give (s : Storage) (h : Nat) : Storage := { s with clients := s.clients ++ [h] }

def setState (s : Storage) (key : String) (id : Option BlockIdExt) : Storage :=
  { s with stateCache := Function.update s.stateCache key id }

variable (L : Lib)

/-- One atomic step of a call at `pc`: the new storage and the call's next step. -/
def exec (s : Storage) : Pc → Storage × Pc
  | .createInsert id meta =>
    -- `add_counted_object_to_map` inserts only under a root hash with no entry; a handle
    -- left out is dropped at once, born with no `Arc` and its `Drop` pending
    match s.handleCache id.rootHash with
    | none => (s.insert id meta, .createSend s.heap.length)
    | some _ => (s.alloc id meta, .done (.handle none))
  | .createSend h => ((s.send (.saveHandle h)).give h, .done (.handle (some h)))
  | .saveSend h => ((s.send (.saveHandle h)).give h, .done .unit)
  | .loadGet id rhOnly => (s, .loadUpgrade id rhOnly (s.handleCache id.rootHash))
  | .loadUpgrade id rhOnly weak =>
    match weak with
    | some h =>
      if 0 < s.strong h then (s.give h, .done (.handle (some h))) else (s, .loadRead id rhOnly)
    | none => (s, .loadRead id rhOnly)
  | .loadRead id rhOnly =>
    match s.handleDb id.rootHash with
    | none => (s, .done (.handle none))
    | some data =>
      if rhOnly then
        match deserializeNonchecked L id data with
        | .error e => (s, .done (.error e))
        | .ok (meta, id) => (s, .loadInsert id rhOnly meta)
      else
        match deserialize L id data with
        | .error e => (s, .done (.error e))
        | .ok (meta, _) => (s, .loadInsert id rhOnly (meta.setFlags flagHasFullId))
  | .loadInsert id rhOnly meta =>
    match s.handleCache id.rootHash with
    | none => ((s.insert id meta).give s.heap.length, .done (.handle (some s.heap.length)))
    | some _ => (s.alloc id meta, .loadGet id rhOnly)
  | .fullGet rh => (s, .fullUpgrade rh (s.handleCache rh))
  | .fullUpgrade rh weak =>
    match weak with
    | some h => if 0 < s.strong h then (s, .fullRelease h) else (s, .fullRead rh)
    | none => (s, .fullRead rh)
  | .fullRelease h => (s, .done (.fullId (some (s.handle h).id)))
  | .fullRead rh =>
    match s.handleDb rh with
    | none => (s, .done (.fullId none))
    | some data =>
      match deserializeFullId L rh data with
      | .error e => (s, .done (.error e))
      | .ok id => (s, .done (.fullId id))
  | .dropRemove id => (s.removeEntry id.rootHash, .dropSend id)
  | .dropSend id => (s.send (.dropHandle id), .done .unit)
  | .stateSave db key id => (s.setState key (some id), .stateSaveSend db key id)
  | .stateSaveSend db key id => (s.send (.saveState db key id), .done .unit)
  | .stateDrop db key => (s.setState key none, .stateDropSend db key)
  | .stateDropSend db key => (s.send (.dropState db key), .done .unit)
  | .stateGet db key =>
    match s.stateCache key with
    | some id => (s, .done (.state (some id)))
    | none => (s, .stateRead db key)
  | .stateRead db key =>
    match s.stateDb db key with
    | none => (s, .done (.state none))
    | some data =>
      match L.idDeserialize data with
      | .error e => (s, .done (.error e))
      | .ok id => (s, .stateCreate db key id)
  | .stateCreate _ key id => (s.setState key (some id), .done (.state (some id)))
  | .done r => (s, .done r)

/-- `lockfree::map::Map::remove_with`: drop the entry under `key` if `pred` holds of it. -/
def removeWith (m : UInt256 → Option Nat) (key : UInt256) (pred : Nat → Bool) :
    UInt256 → Option Nat :=
  match m key with
  | some h => if pred h then Function.update m key none else m
  | none => m

/-- `impl Drop for BlockHandle`: remove the handle's root hash from the cache if the
    entry there is dead. -/
def runDrop (s : Storage) (h : Nat) : Storage :=
  { s with
    handleCache := removeWith s.handleCache (s.handle h).id.rootHash (fun x => s.strong x == 0)
    heap := s.heap.set h { (s.handle h) with dropped := true } }

/-- One iteration of the storer loop in `with_dbs`. -/
def storeJob (s : Storage) : StoreJob → Storage
  | .saveHandle h =>
    { s with
      handleDb := Function.update s.handleDb (s.handle h).id.rootHash
        (some (serialize L (s.handle h).id (s.handle h).meta)) }
  | .dropHandle id => { s with handleDb := Function.update s.handleDb id.rootHash none }
  | .saveState db key id =>
    { s with
      stateDb := Function.update s.stateDb db
        (Function.update (s.stateDb db) key (some (L.idSerialize id))) }
  | .dropState db key =>
    { s with stateDb := Function.update s.stateDb db (Function.update (s.stateDb db) key none) }

/-- A handle whose last `Arc` is gone and whose `Drop` has not run yet. -/
def Dying (s : Storage) (h : Nat) : Prop :=
  h < s.heap.length ∧ s.strong h = 0 ∧ (s.handle h).dropped = false

instance (s : Storage) (h : Nat) : Decidable (s.Dying h) := inferInstanceAs (Decidable (_ ∧ _))

end Storage

/-- What can happen next: a caller starts a call or drops an `Arc` it holds, a call in
    flight takes a step, a `Drop` runs, or the storer takes the next job. -/
inductive Event where
  | call (api : Api)
  | tick (t : Nat)
  | release (h : Nat)
  | drop (h : Nat)
  | store
  deriving DecidableEq

namespace Storage

variable (L : Lib)

/-- Starting a call; `save_handle` borrows an `Arc` the caller holds. -/
def begin (s : Storage) (api : Api) : Option Storage :=
  match api with
  | .saveHandle h =>
    if h ∈ s.clients then
      some { s with clients := s.clients.erase h, calls := s.calls ++ [(api, api.start)] }
    else none
  | _ => some { s with calls := s.calls ++ [(api, api.start)] }

def apply (s : Storage) : Event → Option Storage
  | .call api => s.begin api
  | .tick t =>
    match s.calls[t]? with
    | some (api, pc) =>
      if pc.isDone then none
      else some { (s.exec L pc).1 with calls := s.calls.set t (api, (s.exec L pc).2) }
    | none => none
  | .release h => if h ∈ s.clients then some { s with clients := s.clients.erase h } else none
  | .drop h => if s.Dying h then some (s.runDrop h) else none
  | .store =>
    match s.queue with
    | [] => none
    | job :: rest => some ({ s with queue := rest }.storeJob L job)

def run (s : Storage) : List Event → Option Storage
  | [] => some s
  | e :: es => (s.apply L e).bind (run · es)

end Storage

/-- A state some interleaving reaches from a fresh storage over any DBs. -/
def Reachable (L : Lib) (s : Storage) : Prop :=
  ∃ handleDb stateDb es, (Storage.init handleDb stateDb).run L es = some s

end BlockHandleDb
