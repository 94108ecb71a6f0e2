import Mathlib.Data.List.Basic
import Mathlib.Data.List.Nodup

/-! # Linearizable histories

A history lists the invocations and responses of numbered calls in the order they happen. It is
linearized by an order of effects: replayed on the sequential object, the effects give the recorded
results and the final state, every response is that of an effect, and a call answered before another
one starts also comes before it in the order. Calls that have not taken effect yet are left out.

A linearization is built along the run. The three rules below are the three things that can happen
to a call; the effect may be placed anywhere between its invocation and its response.
-/

namespace ProcessMonitor.Machine

variable {σ Op Ret : Type*}

/-- What an operation does to the state and what it returns. -/
abbrev SequentialObject (σ Op Ret : Type*) := σ → Op → σ × Ret

inductive CallEvent (Op Ret : Type*)
  | invoke (call : ℕ) (op : Op)
  | respond (call : ℕ) (ret : Ret)
deriving DecidableEq

/-- A call that has taken effect. -/
structure Effect (Op Ret : Type*) where
  call : ℕ
  op : Op
  ret : Ret

/-- Replaying the effects one after another gives their results and the final state. -/
def SequentialObject.Legal (object : SequentialObject σ Op Ret) : σ → List (Effect Op Ret) → σ → Prop
  | s, [], t => s = t
  | s, effect :: order, t =>
    effect.ret = (object s effect.op).2 ∧ Legal object (object s effect.op).1 order t

theorem SequentialObject.Legal.concat {object : SequentialObject σ Op Ret} {s t : σ}
    {order : List (Effect Op Ret)} (legal : object.Legal s order t) (call : ℕ) (op : Op) :
    object.Legal s (order ++ [⟨call, op, (object t op).2⟩]) (object t op).1 := by
  induction order generalizing s with
  | nil =>
    cases legal
    exact ⟨rfl, rfl⟩
  | cons effect order ih => exact ⟨legal.1, ih legal.2⟩

structure Linearizes (object : SequentialObject σ Op Ret) (initial final : σ)
    (history : List (CallEvent Op Ret)) (order : List (Effect Op Ret)) : Prop where
  legal : object.Legal initial order final
  once : (order.map Effect.call).Nodup
  invoked : ∀ effect ∈ order, .invoke effect.call effect.op ∈ history
  answered : ∀ call ret, .respond call ret ∈ history → ∃ op, ⟨call, op, ret⟩ ∈ order
  realTime : ∀ call ret, ∀ effect ∈ order,
    [.respond call ret, .invoke effect.call effect.op].Sublist history →
      [call, effect.call].Sublist (order.map Effect.call)

namespace Linearizes

variable {object : SequentialObject σ Op Ret} {initial final : σ} {history : List (CallEvent Op Ret)}
  {order : List (Effect Op Ret)}

theorem start (s : σ) : Linearizes object s s [] [] where
  legal := rfl
  once := List.nodup_nil
  invoked _ member := nomatch member
  answered _ _ member := nomatch member
  realTime _ _ _ member := nomatch member

/-- A pair of events inside a longer history lies before its end, or ends with the last event. -/
private theorem pair_sublist_concat {first second last : CallEvent Op Ret}
    (pair : [first, second].Sublist (history ++ [last])) :
    [first, second].Sublist history ∨ second = last := by
  obtain ⟨front, back, split, inHistory, inLast⟩ := List.sublist_append_iff.mp pair
  rcases List.sublist_singleton.mp inLast with rfl | rfl
  · rw [List.append_nil] at split
    exact .inl (split ▸ inHistory)
  · right
    have ends := congrArg List.getLast? split
    simpa using ends

/-- A new call starts. -/
theorem invoke (linearizes : Linearizes object initial final history order) {call : ℕ} (op : Op)
    (fresh : ∀ op, .invoke call op ∉ history) :
    Linearizes object initial final (history ++ [.invoke call op]) order where
  legal := linearizes.legal
  once := linearizes.once
  invoked effect member := List.mem_append_left _ (linearizes.invoked effect member)
  answered answer ret member := by
    rcases List.mem_append.mp member with older | new
    · exact linearizes.answered answer ret older
    · cases List.mem_singleton.mp new
  realTime answer ret effect member pair := by
    rcases pair_sublist_concat pair with older | new
    · exact linearizes.realTime answer ret effect member older
    · cases new
      exact absurd (linearizes.invoked effect member) (fresh effect.op)

/-- A started call takes effect now. -/
theorem effect (linearizes : Linearizes object initial final history order) {call : ℕ} {op : Op}
    (started : .invoke call op ∈ history) (pending : call ∉ order.map Effect.call) :
    Linearizes object initial (object final op).1 history
      (order ++ [⟨call, op, (object final op).2⟩]) where
  legal := linearizes.legal.concat call op
  once := by
    rw [List.map_append]
    apply List.Nodup.append linearizes.once (List.nodup_singleton call)
    exact List.disjoint_singleton.mpr pending
  invoked effect member := by
    rcases List.mem_append.mp member with older | new
    · exact linearizes.invoked effect older
    · rw [List.mem_singleton.mp new]
      exact started
  answered answer ret member := by
    obtain ⟨answerOp, older⟩ := linearizes.answered answer ret member
    exact ⟨answerOp, List.mem_append_left _ older⟩
  realTime answer ret effect member pair := by
    rw [List.map_append]
    rcases List.mem_append.mp member with older | new
    · exact (linearizes.realTime answer ret effect older pair).trans (List.sublist_append_left _ _)
    · -- The earlier call has been answered, so it is in the order already.
      rw [List.mem_singleton.mp new]
      obtain ⟨answerOp, older⟩ := linearizes.answered answer ret (pair.subset List.mem_cons_self)
      have before : [answer].Sublist (order.map Effect.call) :=
        List.singleton_sublist.mpr (List.mem_map.mpr ⟨_, older, rfl⟩)
      exact before.append (List.Sublist.refl _)

/-- A call that has taken effect is answered. -/
theorem respond (linearizes : Linearizes object initial final history order) {call : ℕ} {op : Op} {ret : Ret}
    (effective : ⟨call, op, ret⟩ ∈ order) :
    Linearizes object initial final (history ++ [.respond call ret]) order where
  legal := linearizes.legal
  once := linearizes.once
  invoked effect member := List.mem_append_left _ (linearizes.invoked effect member)
  answered answer answerRet member := by
    rcases List.mem_append.mp member with older | new
    · exact linearizes.answered answer answerRet older
    · cases List.mem_singleton.mp new
      exact ⟨op, effective⟩
  realTime answer answerRet effect member pair := by
    rcases pair_sublist_concat pair with older | new
    · exact linearizes.realTime answer answerRet effect member older
    · cases new

end Linearizes

end ProcessMonitor.Machine
