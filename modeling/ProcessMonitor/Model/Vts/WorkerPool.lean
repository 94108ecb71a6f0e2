import ProcessMonitor.Machine.Core.Linearizable
import ProcessMonitor.Machine.Core.Run
import ProcessMonitor.Model.Vts.ReqHandler

/-! # Workers that handle requests at the same time

`process_one` runs in any number of threads. A request is numbered when a worker starts on it; from
then on the scheduler picks, at each step, whose next critical section runs or whose reply is sent.
`req_handler_start` makes eight workers, so its runs are among those of this machine, which puts no
bound on how many requests are in progress.
-/

namespace ProcessMonitor.Model.Vts

open Machine Machine.Posix

/-- A request with what is left of its handler, nothing once its reply has been sent. -/
structure Job where
  payload : Bytes
  rest : Option Handler

/-- Requests are numbered by their place in `jobs`. `history` records when each one starts and is
answered, and `wire` the buffers its reply passes to `write_full`. -/
structure WorkerPool where
  shared : Shared
  jobs : List Job
  history : List (CallEvent Bytes Reply)
  wire : List (ℕ × List Bytes)

namespace WorkerPool

def start : WorkerPool := ⟨.start, [], [], []⟩

inductive Event
  | take (payload : Bytes)
  | act (request : ℕ)
  | send (request : ℕ)
deriving DecidableEq, Repr

variable (handler : Bytes → Handler)

def takeJob (p : WorkerPool) (payload : Bytes) : WorkerPool :=
  { p with
    jobs := p.jobs ++ [⟨payload, some (handler payload)⟩]
    history := p.history ++ [.invoke p.jobs.length payload] }

def actJob (p : WorkerPool) (request : ℕ) (payload : Bytes) (shared : Shared) (rest : Handler) : WorkerPool :=
  { p with shared, jobs := p.jobs.set request ⟨payload, some rest⟩ }

def sendJob (p : WorkerPool) (request : ℕ) (payload : Bytes) (r : Reply) : WorkerPool :=
  { p with
    jobs := p.jobs.set request ⟨payload, none⟩
    history := p.history ++ [.respond request r]
    wire := p.wire ++ [(request, r.segments)] }

def step (p : WorkerPool) : Event → Option WorkerPool
  | .take payload => some (p.takeJob handler payload)
  | .act request => do
    let job ← p.jobs[request]?
    let rest ← job.rest
    let (shared, rest) ← rest.act p.shared
    some (p.actJob request job.payload shared rest)
  | .send request => do
    let job ← p.jobs[request]?
    match job.rest with
    | some (.reply r) => some (p.sendJob request job.payload r)
    | _ => none

def machine : EventMachine WorkerPool Event := ⟨step handler⟩

variable {handler}

/-- What a step can do. -/
theorem step_cases {p next : WorkerPool} {event : Event} (success : p.step handler event = some next) :
    (∃ payload, event = .take payload ∧ next = p.takeJob handler payload) ∨
    (∃ request payload h shared rest, event = .act request ∧ p.jobs[request]? = some ⟨payload, some h⟩ ∧
      h.act p.shared = some (shared, rest) ∧ next = p.actJob request payload shared rest) ∨
    (∃ request payload r, event = .send request ∧ p.jobs[request]? = some ⟨payload, some (.reply r)⟩ ∧
      next = p.sendJob request payload r) := by
  cases event with
  | take payload =>
    cases success
    exact .inl ⟨payload, rfl, rfl⟩
  | act request =>
    obtain ⟨⟨payload, work⟩, found, success⟩ := Option.bind_eq_some_iff.mp success
    obtain ⟨h, rfl, success⟩ := Option.bind_eq_some_iff.mp success
    obtain ⟨⟨shared, rest⟩, acted, success⟩ := Option.bind_eq_some_iff.mp success
    cases success
    exact .inr (.inl ⟨request, payload, h, shared, rest, rfl, found, acted, rfl⟩)
  | send request =>
    obtain ⟨⟨payload, work⟩, found, success⟩ := Option.bind_eq_some_iff.mp success
    dsimp only at success
    split at success
    next r =>
      cases success
      exact .inr (.inr ⟨request, payload, r, rfl, found, rfl⟩)
    next => cases success

end WorkerPool

end ProcessMonitor.Model.Vts
