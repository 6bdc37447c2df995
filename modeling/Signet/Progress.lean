import Signet.Error
/-!
Long computations that an observer may watch and stop. A computation is a value: a result, or an
event and what follows it. Some events can be answered with a stop, others only announce what is
already done. No event depends on an earlier answer, so a stop only cuts the run short. Main
statements: `value_andThen`, `events_andThen` and `run_andThen` for two computations in a row, and
`value_of_run_eq_ok` and `run_fst_eq_value` for what an observer can change.
-/
namespace Signet

/-- What a long computation tells its observer. -/
inductive Event where
  -- the prime search goes on from this many steps of two behind its start
  | sieve (step : Nat)
  -- a round of the primality test is about to run
  | round (index : Nat)
  -- a prime was found
  | primeFound
  -- the trial run of a new key begins
  | selfTestBegin
  -- the trial run of a new key went well
  | selfTestEnd
deriving DecidableEq, Inhabited

/-- A computation that reports events. -/
inductive Monitored (α : Type) where
  -- the end of the computation
  | done (result : Except Error α)
  -- an event at which the observer may stop the computation
  | ask (event : Event) (rest : Unit → Monitored α)
  -- an event that the observer only hears of
  | tell (event : Event) (rest : Unit → Monitored α)

/-- Someone who hears events and answers each with whether to stop. -/
abbrev Observer (σ : Type) := σ → Event → Bool × σ

def Observer.recording {σ : Type} (observer : Observer σ) : Observer (σ × List Event) :=
  fun (s, heard) event =>
    let (stop, next) := observer s event
    (stop, next, event :: heard)

namespace Monitored

variable {α β σ : Type}

def andThen (m : Monitored α) (f : α → Monitored β) : Monitored β :=
  match m with
  | done (.ok a) => f a
  | done (.error e) => done (.error e)
  | ask event rest => ask event fun u => (rest u).andThen f
  | tell event rest => tell event fun u => (rest u).andThen f

instance : Monad Monitored where
  pure a := done (.ok a)
  bind := andThen

def ofExcept (result : Except Error α) : Monitored α := done result

/-- Runs a computation under an observer: its result, and what the observer ends with. -/
def run (observer : Observer σ) : Monitored α → σ → Except Error α × σ
  | done result, s => (result, s)
  | ask event rest, s =>
    let (stop, next) := observer s event
    if stop then (.error .cancelled, next) else (rest ()).run observer next
  | tell event rest, s => (rest ()).run observer (observer s event).2

/-- The result when nobody stops the computation. -/
def value : Monitored α → Except Error α
  | done result => result
  | ask _ rest => (rest ()).value
  | tell _ rest => (rest ()).value

def events : Monitored α → List Event
  | done _ => []
  | ask event rest => event :: (rest ()).events
  | tell event rest => event :: (rest ()).events

/-- A continuation hears nothing of the events before it and acts on the result alone. -/
theorem value_andThen (m : Monitored α) (f : α → Monitored β) :
    (m.andThen f).value = m.value.bind fun a => (f a).value := by
  induction m with
  | done result => cases result <;> rfl
  | ask event rest ih => exact ih ()
  | tell event rest ih => exact ih ()

/-- The events of a continuation come behind those of the computation, when it has a result. -/
theorem events_andThen (m : Monitored α) (f : α → Monitored β) :
    (m.andThen f).events =
      m.events ++ (match m.value with
        | .ok a => (f a).events
        | .error _ => []) := by
  induction m with
  | done result => cases result <;> rfl
  | ask event rest ih => exact congrArg (event :: ·) (ih ())
  | tell event rest ih => exact congrArg (event :: ·) (ih ())

/-- An observer passes from a computation to its continuation, unless there is an error. -/
theorem run_andThen (observer : Observer σ) (m : Monitored α) (f : α → Monitored β) (s : σ) :
    (m.andThen f).run observer s =
      match m.run observer s with
      | (.ok a, t) => (f a).run observer t
      | (.error e, t) => (.error e, t) := by
  induction m generalizing s with
  | done result => cases result <;> rfl
  | ask event rest ih =>
    rw [andThen, run, run]
    cases observer s event with
    | mk stop next => cases stop with
      | false => exact ih () next
      | true => rfl
  | tell event rest ih => exact ih () (observer s event).2

theorem value_bind (m : Monitored α) (f : α → Monitored β) :
    (m >>= f).value = m.value >>= fun a => (f a).value := value_andThen m f

/-- A result under an observer is the result when nobody stops the computation. -/
theorem value_of_run_eq_ok {observer : Observer σ} {m : Monitored α} {s t : σ} {a : α}
    (h : m.run observer s = (.ok a, t)) : m.value = .ok a := by
  induction m generalizing s with
  | done result => exact congrArg Prod.fst h
  | ask event rest ih =>
    rw [run] at h
    cases hstop : observer s event with
    | mk stop next =>
      rw [hstop] at h
      cases stop with
      | false => exact ih () h
      | true => cases congrArg Prod.fst h
  | tell event rest ih => exact ih () h

/-- An observer that never stops a computation changes nothing in its result. -/
theorem run_fst_eq_value {observer : Observer σ}
    (hobserver : ∀ s event, (observer s event).1 = false) (m : Monitored α) (s : σ) :
    (m.run observer s).1 = m.value := by
  induction m generalizing s with
  | done result => rfl
  | ask event rest ih =>
    have hstop := hobserver s event
    rw [run]
    cases hanswer : observer s event with
    | mk stop next =>
      rw [hanswer] at hstop
      rw [show stop = false from hstop]
      exact ih () next
  | tell event rest ih => exact ih () (observer s event).2

end Monitored
end Signet
