import Mathlib.Data.List.Nodup

/-! # Singly linked lists in a heap

A heap maps addresses to live cells. A chain relates a first pointer to the addresses and values
met when following `next` down to the null pointer. The chain of a pointer is unique, and since it
ends it never meets an address twice, so a write or a release outside of it leaves it alone.
-/

namespace ProcessMonitor.Machine

/-- One allocated node: a value and the pointer to the next node. -/
structure Cell (α : Type*) where
  value : α
  next : Option ℕ
deriving DecidableEq, Repr

/-- Live cells by address; freed and never allocated addresses hold nothing. -/
abbrev Heap (α : Type*) := ℕ → Option (Cell α)

/-- The addresses and values reached from a pointer, down to the null pointer. -/
inductive Chain {α : Type*} (heap : Heap α) : Option ℕ → List (ℕ × α) → Prop
  | nil : Chain heap none []
  | cons {address : ℕ} {cell : Cell α} {rest : List (ℕ × α)} (read : heap address = some cell)
      (tail : Chain heap cell.next rest) : Chain heap (some address) ((address, cell.value) :: rest)

namespace Chain

variable {α : Type*} {heap : Heap α}

theorem unique {pointer : Option ℕ} {left right : List (ℕ × α)} (first : Chain heap pointer left)
    (second : Chain heap pointer right) : left = right := by
  induction first generalizing right with
  | nil => cases second; rfl
  | cons read _ ih =>
    cases second with
    | cons read' tail =>
      cases read.symm.trans read'
      rw [ih tail]

/-- Every suffix of a chain is the chain of its own first address. -/
theorem suffix {pointer : Option ℕ} {before after : List (ℕ × α)} {node : ℕ × α}
    (chain : Chain heap pointer (before ++ node :: after)) :
    Chain heap (some node.1) (node :: after) := by
  induction before generalizing pointer with
  | nil =>
    cases chain with
    | cons read tail => exact .cons read tail
  | cons first before ih =>
    cases chain with
    | cons _ tail => exact ih tail

/-- A chain that ends meets no address twice: the two suffixes would have to be equal. -/
theorem nodup {pointer : Option ℕ} {nodes : List (ℕ × α)} (chain : Chain heap pointer nodes) :
    (nodes.map Prod.fst).Nodup := by
  induction chain with
  | nil => exact List.nodup_nil
  | @cons address cell rest read tail ih =>
    refine List.nodup_cons.mpr ⟨?_, ih⟩
    intro member
    obtain ⟨node, nodeMember, same⟩ := List.mem_map.mp member
    obtain ⟨before, after, split⟩ := List.append_of_mem nodeMember
    have inner : Chain heap (some node.1) (node :: after) := (split ▸ tail).suffix
    rw [show node.1 = address from same] at inner
    have equal := congrArg List.length (inner.unique (.cons read tail))
    have lengths := congrArg List.length split
    simp only [List.length_append, List.length_cons] at equal lengths
    omega

/-- Every address of a chain is live. -/
theorem live {pointer : Option ℕ} {nodes : List (ℕ × α)} (chain : Chain heap pointer nodes) :
    ∀ node ∈ nodes, heap node.1 ≠ none := by
  induction chain with
  | nil => simp
  | cons read _ ih =>
    intro node member
    rcases List.mem_cons.mp member with rfl | member
    · exact fun freed => by simp [freed] at read
    · exact ih node member

/-- Writing or freeing an address outside the chain does not change it. -/
theorem update {pointer : Option ℕ} {nodes : List (ℕ × α)} (chain : Chain heap pointer nodes)
    {address : ℕ} (outside : address ∉ nodes.map Prod.fst) (cell : Option (Cell α)) :
    Chain (Function.update heap address cell) pointer nodes := by
  induction chain with
  | nil => exact .nil
  | @cons first firstCell rest read _ ih =>
    simp only [List.map_cons, List.mem_cons, not_or] at outside
    refine .cons ?_ (ih outside.2)
    rw [Function.update_of_ne (Ne.symm outside.1), read]

/-- The cell of a node in the chain, whose pointer is that of the rest. -/
theorem read {pointer : Option ℕ} {before after : List (ℕ × α)} {address : ℕ} {value : α}
    (chain : Chain heap pointer (before ++ (address, value) :: after)) :
    ∃ next, heap address = some ⟨value, next⟩ ∧ Chain heap next after := by
  cases chain.suffix with
  | @cons _ cell _ read tail => exact ⟨cell.next, read, tail⟩

/-- A fresh cell that points to the first one begins a longer chain. -/
theorem push {pointer : Option ℕ} {nodes : List (ℕ × α)} {fresh : ℕ} (chain : Chain heap pointer nodes)
    (free : heap fresh = none) (value : α) :
    Chain (Function.update heap fresh (some ⟨value, pointer⟩)) (some fresh) ((fresh, value) :: nodes) := by
  have outside : fresh ∉ nodes.map Prod.fst := by
    intro member
    obtain ⟨node, inside, rfl⟩ := List.mem_map.mp member
    exact chain.live node inside free
  exact @Chain.cons _ _ fresh ⟨value, pointer⟩ _ (Function.update_self ..) (chain.update outside _)

/-- A cell in the chain that is given another value, and a pointer to another chain, goes on with that. -/
theorem write {pointer next : Option ℕ} {before after rest : List (ℕ × α)} {address : ℕ} {value : α}
    (chain : Chain heap pointer (before ++ (address, value) :: after)) (other : Chain heap next rest)
    (outside : address ∉ rest.map Prod.fst) (new : α) :
    Chain (Function.update heap address (some ⟨new, next⟩)) pointer (before ++ (address, new) :: rest) := by
  induction before generalizing pointer with
  | nil =>
    cases chain with
    | cons => exact @Chain.cons _ _ address ⟨new, next⟩ _ (Function.update_self ..) (other.update outside _)
  | cons first before ih =>
    have distinct := chain.nodup
    rw [List.cons_append, List.map_cons, List.nodup_cons] at distinct
    have different : first.1 ≠ address := by
      intro same
      refine distinct.1 (List.mem_map.mpr ⟨(address, value), ?_, same.symm⟩)
      exact List.mem_append_right _ List.mem_cons_self
    cases chain with
    | cons read tail => exact .cons (by rw [Function.update_of_ne different, read]) (ih tail)

/-- Linking a fresh last cell behind the old last one extends the chain by its value. -/
theorem concat {pointer : Option ℕ} {nodes : List (ℕ × α)} {last fresh : ℕ} {cell : Cell α}
    {value : α} (chain : Chain heap pointer nodes)
    (atLast : (nodes.getLast?).map Prod.fst = some last) (readLast : heap last = some cell)
    (readFresh : heap fresh = some ⟨value, none⟩) (outside : fresh ∉ nodes.map Prod.fst) :
    Chain (Function.update heap last (some ⟨cell.value, some fresh⟩)) pointer
      (nodes ++ [(fresh, value)]) := by
  obtain ⟨⟨address, old⟩, atEnd, rfl⟩ := Option.map_eq_some_iff.mp atLast
  obtain ⟨before, rfl⟩ := List.getLast?_eq_some_iff.mp atEnd
  -- the last cell is written with the pointer to the chain of the fresh one
  have other : Chain heap (some fresh) [(fresh, value)] := .cons readFresh .nil
  have apart : address ∉ [(fresh, value)].map Prod.fst := by
    intro member
    have same : address = fresh := List.mem_singleton.mp member
    exact outside (by simp [same])
  obtain ⟨next, read, -⟩ := chain.read
  cases read.symm.trans readLast
  rw [List.append_assoc]
  exact chain.write other apart old

end Chain

/-- The live addresses are those of a list, each of them once: nothing is leaked and nothing has two owners. -/
structure Owned {α : Type*} (heap : Heap α) (used : List ℕ) : Prop where
  distinct : used.Nodup
  live : ∀ address, heap address ≠ none ↔ address ∈ used

namespace Owned

variable {α : Type*} {heap after : Heap α} {used others : List ℕ} {address : ℕ}

theorem perm (owned : Owned heap used) (same : used.Perm others) : Owned heap others :=
  ⟨same.nodup_iff.mp owned.distinct, fun address => (owned.live address).trans same.mem_iff⟩

/-- Only which addresses are live matters. -/
theorem congr (owned : Owned heap used) (same : ∀ address, after address = none ↔ heap address = none) :
    Owned after used :=
  ⟨owned.distinct, fun address => (not_congr (same address)).trans (owned.live address)⟩

theorem alloc (owned : Owned heap used) (fresh : heap address = none) (cell : Cell α) :
    Owned (Function.update heap address (some cell)) (address :: used) where
  distinct := List.nodup_cons.mpr ⟨fun member => (owned.live address).mpr member fresh, owned.distinct⟩
  live other := by
    by_cases same : other = address
    · simp [same]
    · rw [Function.update_of_ne same, owned.live other, List.mem_cons, or_iff_right same]

theorem free (owned : Owned heap (address :: used)) : Owned (Function.update heap address none) used where
  distinct := (List.nodup_cons.mp owned.distinct).2
  live other := by
    by_cases same : other = address
    · rw [same, Function.update_self]
      exact ⟨fun absent => absurd rfl absent, fun member => absurd member (List.nodup_cons.mp owned.distinct).1⟩
    · rw [Function.update_of_ne same, owned.live other, List.mem_cons, or_iff_right same]

end Owned

end ProcessMonitor.Machine
