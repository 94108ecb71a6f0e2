import ProcessMonitor.Machine.Core.Chain
import ProcessMonitor.Machine.Core.Run
import ProcessMonitor.Model.LocGen.VtsAdapter

/-! # The room store of locgend

`room_store.c` over a heap of nodes. Reading through a freed pointer has no value, and neither has a loop
that goes on for more rounds than nodes were ever allocated. `calloc` returns any address that holds no live
node. Ids are compared as `strcmp` does, up to their terminating NUL.
-/

namespace ProcessMonitor.Model.LocGen

open Machine Machine.Posix

/-- `allocations` counts the nodes allocated so far. -/
structure RoomStore where
  heap : Heap Room
  gHead : Option ℕ
  allocations : ℕ

/-- `strcmp(...) == 0` -/
def sameStr (a b : Bytes) : Bool := cstr a = cstr b

/-- What `calloc` fills a `room_t` with. -/
def Room.zero : Room := ⟨[], [], .stopped⟩

namespace RoomStore

/-- It forgets the nodes there are. -/
def roomStoreInit (s : RoomStore) : RoomStore := { s with gHead := none }

/-- The loop of `room_store_deinit`. -/
def freeNodes : ℕ → Heap Room → Option ℕ → Option (Heap Room)
  | _, heap, none => some heap
  | 0, _, some _ => none
  | rounds + 1, heap, some n => do
    let cell ← heap n
    freeNodes rounds (Function.update heap n none) cell.next

def roomStoreDeinit (s : RoomStore) : Option RoomStore :=
  (freeNodes s.allocations s.heap s.gHead).map fun heap => { s with heap, gHead := none }

/-- The loop of `find_node`; a null result is `some none`. -/
def findFrom (heap : Heap Room) (id : Bytes) : ℕ → Option ℕ → Option (Option ℕ)
  | _, none => some none
  | 0, some _ => none
  | rounds + 1, some n => do
    let cell ← heap n
    if sameStr cell.value.id id then some (some n) else findFrom heap id rounds cell.next

def findNode (s : RoomStore) (id : Bytes) : Option (Option ℕ) := findFrom s.heap id s.allocations s.gHead

/-- `fresh` is what `calloc` returns, if it is called. -/
def roomStorePut (s : RoomStore) (r : Room) (fresh : ℕ) : Option (RoomStore × ℤ) := do
  match ← s.findNode r.id with
  | none =>
    if s.heap fresh = none then
      some (⟨Function.update s.heap fresh (some ⟨r, s.gHead⟩), some fresh, s.allocations + 1⟩, 0)
    else none
  | some n =>
    let cell ← s.heap n
    some ({ s with heap := Function.update s.heap n (some { cell with value := r }) }, 0)

/-- `*pp = next`, where a null `pp` stands for `&g_head` and any other for the `next` of that node. -/
def storeThrough (s : RoomStore) (pp : Option ℕ) (next : Option ℕ) : Option RoomStore :=
  match pp with
  | none => some { s with gHead := next }
  | some p => (s.heap p).map fun cell => { s with heap := Function.update s.heap p (some { cell with next }) }

/-- The loop of `room_store_del`. -/
def delFrom (s : RoomStore) (id : Bytes) : ℕ → Option ℕ → Option ℕ → Option (RoomStore × ℤ)
  | _, _, none => some (s, -1)
  | 0, _, some _ => none
  | rounds + 1, pp, some n => do
    let cell ← s.heap n
    if sameStr cell.value.id id then
      let s ← s.storeThrough pp cell.next
      some ({ s with heap := Function.update s.heap n none }, 0)
    else delFrom s id rounds (some n) cell.next

def roomStoreDel (s : RoomStore) (id : Bytes) : Option (RoomStore × ℤ) := s.delFrom id s.allocations none s.gHead

/-- The result, and what it writes to `*out`. -/
def roomStoreGet (s : RoomStore) (id : Bytes) : Option (ℤ × Option Room) := do
  match ← s.findNode id with
  | none => some (-1, none)
  | some n => (s.heap n).map fun cell => (0, some cell.value)

/-- `for(node_t *n=g_head;n;n=n->next) c++;` -/
def countFrom (heap : Heap Room) : ℕ → Option ℕ → Option ℕ
  | _, none => some 0
  | 0, some _ => none
  | rounds + 1, some n => do
    let cell ← heap n
    let c ← countFrom heap rounds cell.next
    some (c + 1)

/-- `for(node_t *n=g_head;n;n=n->next) arr[i++]=n->r;` -/
def fillFrom (heap : Heap Room) : ℕ → Option ℕ → ℕ → List Room → Option (List Room)
  | _, none, _, arr => some arr
  | 0, some _, _, _ => none
  | rounds + 1, some n, i, arr => do
    let cell ← heap n
    if i < arr.length then fillFrom heap rounds cell.next (i + 1) (arr.set i cell.value) else none

/-- `out->items`, all of the array, and `out->count`. -/
def roomStoreAll (s : RoomStore) : Option (ℤ × List Room × ℕ) := do
  let c ← countFrom s.heap s.allocations s.gHead
  let arr ← fillFrom s.heap s.allocations s.gHead 0 (List.replicate (if c ≠ 0 then c else 1) .zero)
  some (0, arr, c)

end RoomStore

inductive StoreCall
  | put (r : Room) (fresh : ℕ)
  | del (id : Bytes)
  | get (id : Bytes)
  | all
deriving DecidableEq, Repr

inductive StoreResult
  | put (ret : ℤ)
  | del (ret : ℤ)
  | get (ret : ℤ) (out : Option Room)
  | all (ret : ℤ) (items : List Room) (count : ℕ)
deriving DecidableEq, Repr

/-- A store with what the calls made on it returned. -/
structure StoreHistory where
  store : RoomStore
  results : List StoreResult

namespace StoreHistory

/-- After `room_store_init` in any state. -/
def start (s : RoomStore) : StoreHistory := ⟨s.roomStoreInit, []⟩

def call (s : StoreHistory) : StoreCall → Option StoreHistory
  | .put r fresh => (s.store.roomStorePut r fresh).map fun (store, ret) => ⟨store, s.results ++ [.put ret]⟩
  | .del id => (s.store.roomStoreDel id).map fun (store, ret) => ⟨store, s.results ++ [.del ret]⟩
  | .get id => (s.store.roomStoreGet id).map fun (ret, out) => { s with results := s.results ++ [.get ret out] }
  | .all =>
    s.store.roomStoreAll.map fun (ret, items, count) => { s with results := s.results ++ [.all ret items count] }

def machine : EventMachine StoreHistory StoreCall := ⟨call⟩

end StoreHistory

end ProcessMonitor.Model.LocGen
