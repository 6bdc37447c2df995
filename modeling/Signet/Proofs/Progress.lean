import Mathlib
import Signet.Progress

/-! What an observer can do to a computation. A stop cuts the events short behind the one that it
answers, and nothing else that an observer says makes a difference. Main statements:
`Proper.cutShort` for any observer, and `Proper.cutShort_of_silent` for two of them. -/
namespace Signet

/-- Whether a stop is asked for. The other events come when all is done. -/
def Event.canStop : Event → Bool
  | .sieve _ | .round _ | .selfTestBegin => true
  | .primeFound | .selfTestEnd => false

namespace Observer

variable {σ : Type} (observer : Observer σ) (s : σ) (event : Event) (events : List Event)

/-- The observer that does not care. -/
def idle : Observer Unit := fun _ _ => (false, ())

theorem idle_silent (t : Unit) (event : Event) : (idle t event).1 = false := rfl

/-- What the observer is after it heard some events. -/
def after : σ := events.foldl (fun s event => (observer s event).2) s

/-- The observer, hearing these events, answers the one at place `i` with a stop, and may do so. -/
def StopsAt (i : ℕ) : Prop :=
  ∃ event, events[i]? = some event ∧ event.canStop = true ∧
    (observer (observer.after s (events.take i)) event).1 = true

theorem not_stopsAt_nil (i : ℕ) : ¬ observer.StopsAt s [] i := by
  rintro ⟨event, hevent, -⟩
  cases hevent

theorem stopsAt_cons_zero :
    observer.StopsAt s (event :: events) 0 ↔
      event.canStop = true ∧ (observer s event).1 = true := by
  constructor
  · rintro ⟨_, ⟨⟩, h⟩
    exact h
  · intro h
    exact ⟨event, rfl, h⟩

theorem stopsAt_cons_succ (i : ℕ) :
    observer.StopsAt s (event :: events) (i + 1) ↔
      observer.StopsAt (observer s event).2 events i := Iff.rfl

/-- Where the first of some events is not answered with a stop, only the others are left. -/
theorem exists_stopsAt_cons
    (hgoes : ¬ (event.canStop = true ∧ (observer s event).1 = true)) :
    (∃ i, observer.StopsAt s (event :: events) i) ↔
      ∃ i, observer.StopsAt (observer s event).2 events i := by
  constructor
  · rintro ⟨i, hi⟩
    cases i with
    | zero => exact absurd ((observer.stopsAt_cons_zero ..).mp hi) hgoes
    | succ i => exact ⟨i, (observer.stopsAt_cons_succ ..).mp hi⟩
  · rintro ⟨i, hi⟩
    exact ⟨i + 1, (observer.stopsAt_cons_succ ..).mpr hi⟩

end Observer

namespace Monitored

variable {α β σ : Type} (observer : Observer σ) (s : σ) (event : Event) (rest : Unit → Monitored α)

theorem run_ask :
    (ask event rest).run observer s =
      if (observer s event).1 then (.error .cancelled, (observer s event).2)
      else (rest ()).run observer (observer s event).2 := rfl

theorem run_tell :
    (tell event rest).run observer s = (rest ()).run observer (observer s event).2 := rfl

theorem ofExcept_ok_bind (a : α) (f : α → Monitored β) : (ofExcept (.ok a) >>= f) = f a := rfl

theorem run_bind (m : Monitored α) (f : α → Monitored β) :
    (m >>= f).run observer s =
      match m.run observer s with
      | (.ok a, t) => (f a).run observer t
      | (.error e, t) => (.error e, t) := run_andThen observer m f s

theorem recording_apply (before : List Event) :
    observer.recording (s, before) event =
      ((observer s event).1, (observer s event).2, event :: before) := rfl

/-- The events that an observer hears of a computation, in their order. -/
def heard (observer : Observer σ) (s : σ) (m : Monitored α) : List Event :=
  (m.run observer.recording (s, [])).2.2.reverse

/-- Taking the events down changes nothing else, and what was taken down before stays. -/
theorem run_recording (m : Monitored α) (before : List Event) :
    m.run observer.recording (s, before) =
      ((m.run observer s).1, (m.run observer s).2, (m.heard observer s).reverse ++ before) := by
  rw [heard, List.reverse_reverse]
  induction m generalizing s before with
  | done result => rfl
  | ask event rest ih =>
    rw [run_ask, run_ask, run_ask, recording_apply, recording_apply]
    by_cases hstop : (observer s event).1 = true
    · simp only [if_pos hstop]
      rfl
    · simp only [if_neg hstop]
      rw [ih (), ih () _ [event], List.append_assoc]
      rfl
  | tell event rest ih =>
    rw [run_tell, run_tell, run_tell, recording_apply, recording_apply]
    dsimp only
    rw [ih (), ih () _ [event], List.append_assoc]
    rfl

theorem heard_ask :
    (ask event rest).heard observer s =
      event :: if (observer s event).1 then []
        else (rest ()).heard observer (observer s event).2 := by
  rw [heard, run_ask, recording_apply]
  by_cases hstop : (observer s event).1 = true
  · simp only [if_pos hstop]
    rfl
  · simp only [if_neg hstop]
    rw [run_recording, List.reverse_append, List.reverse_reverse]
    rfl

theorem heard_tell :
    (tell event rest).heard observer s =
      event :: (rest ()).heard observer (observer s event).2 := by
  rw [heard, run_tell, recording_apply]
  dsimp only
  rw [run_recording, List.reverse_append, List.reverse_reverse]
  rfl

/-- An observer that never stops a computation hears it to its end. -/
theorem heard_eq_events (hsilent : ∀ s event, (observer s event).1 = false) (m : Monitored α) :
    m.heard observer s = m.events := by
  induction m generalizing s with
  | done result => rfl
  | ask event rest ih =>
    rw [heard_ask, hsilent, if_neg Bool.false_ne_true, ih]
    rfl
  | tell event rest ih =>
    rw [heard_tell, ih]
    rfl

/-- A computation that asks at the events made for it, and does not end as if it was stopped. -/
inductive Proper : Monitored α → Prop
  | done {result : Except Error α} (h : result ≠ .error .cancelled) : Proper (.done result)
  | ask {event : Event} {rest : Unit → Monitored α} (hcan : event.canStop = true)
      (hrest : ∀ u, Proper (rest u)) : Proper (.ask event rest)
  | tell {event : Event} {rest : Unit → Monitored α} (hcannot : event.canStop = false)
      (hrest : ∀ u, Proper (rest u)) : Proper (.tell event rest)

theorem Proper.pure (a : α) : Proper (Pure.pure a : Monitored α) := by
  refine .done ?_
  intro h
  cases h

theorem Proper.bind {m : Monitored α} (hm : m.Proper) {f : α → Monitored β}
    (hf : ∀ a, (f a).Proper) : (m >>= f).Proper := by
  induction hm with
  | @done result h =>
    cases result with
    | ok a => exact hf a
    | error e => exact .done fun he => h (congrArg _ (Except.error.inj he))
  | ask hcan _ ih => exact .ask hcan fun u => ih u
  | tell hcannot _ ih => exact .tell hcannot fun u => ih u

theorem Proper.value_ne_cancelled {m : Monitored α} (h : m.Proper) :
    m.value ≠ .error .cancelled := by
  induction h with
  | done h => exact h
  | ask _ _ ih => exact ih ()
  | tell _ _ ih => exact ih ()

/-- What an observer makes of a computation, beside all of its events and the result that it has
when nobody stops it. -/
structure CutShort (m : Monitored α) (observer : Observer σ) (s : σ) (full : List Event)
    (result : Except Error α) : Prop where
  heard_begins : m.heard observer s <+: full
  heard_of_first : ∀ i, observer.StopsAt s full i → (∀ j < i, ¬ observer.StopsAt s full j) →
    m.heard observer s = full.take (i + 1)
  heard_of_none : (∀ i, ¬ observer.StopsAt s full i) → m.heard observer s = full
  cancelled_iff : (m.run observer s).1 = .error .cancelled ↔
    ∃ i, observer.StopsAt s (m.heard observer s) i
  result_eq : (m.run observer s).1 ≠ .error .cancelled → (m.run observer s).1 = result

section Steps

variable {observer} {s} {event} {rest} {full : List Event} {result : Except Error α}

theorem cutShort_done (h : result ≠ .error .cancelled) :
    CutShort (done result) observer s [] result where
  heard_begins := List.prefix_refl _
  heard_of_first i hi := absurd hi (observer.not_stopsAt_nil s i)
  heard_of_none _ := rfl
  cancelled_iff := iff_of_false h fun ⟨i, hi⟩ => observer.not_stopsAt_nil s i hi
  result_eq _ := rfl

/-- A stop at the first event. -/
theorem cutShort_stop (hcan : event.canStop = true) (hstop : (observer s event).1 = true) :
    CutShort (ask event rest) observer s (event :: full) result := by
  have hheard : (ask event rest).heard observer s = [event] := by
    rw [heard_ask, if_pos hstop]
  have hrun : ((ask event rest).run observer s).1 = .error .cancelled := by
    rw [run_ask, if_pos hstop]
  have hfirst (events : List Event) : observer.StopsAt s (event :: events) 0 :=
    (observer.stopsAt_cons_zero s event events).mpr ⟨hcan, hstop⟩
  constructor
  case heard_begins =>
    rw [hheard]
    exact List.prefix_append [event] full
  case heard_of_first =>
    intro i _ hnone
    obtain rfl : i = 0 := by
      by_contra hpos
      exact hnone 0 (Nat.pos_of_ne_zero hpos) (hfirst full)
    exact hheard
  case heard_of_none =>
    intro hnone
    exact absurd (hfirst full) (hnone 0)
  case cancelled_iff =>
    rw [hheard]
    exact iff_of_true hrun ⟨0, hfirst []⟩
  case result_eq =>
    intro hgoes
    exact absurd hrun hgoes

/-- An event that does not stop the computation goes before what is heard of the rest. -/
theorem CutShort.cons {m m' : Monitored α}
    (h : CutShort m observer (observer s event).2 full result)
    (hgoes : ¬ (event.canStop = true ∧ (observer s event).1 = true))
    (hheard : m'.heard observer s = event :: m.heard observer (observer s event).2)
    (hrun : m'.run observer s = m.run observer (observer s event).2) :
    CutShort m' observer s (event :: full) result := by
  have hzero : ¬ observer.StopsAt s (event :: full) 0 :=
    mt (observer.stopsAt_cons_zero s event full).mp hgoes
  constructor
  case heard_begins =>
    rw [hheard]
    exact List.cons_prefix_cons.mpr ⟨rfl, h.heard_begins⟩
  case heard_of_first =>
    intro i hi hnone
    cases i with
    | zero => exact absurd hi hzero
    | succ i =>
      rw [hheard, List.take_succ_cons,
        h.heard_of_first i ((observer.stopsAt_cons_succ ..).mp hi)]
      intro j hj
      exact mt (observer.stopsAt_cons_succ ..).mpr (hnone (j + 1) (Nat.succ_lt_succ hj))
  case heard_of_none =>
    intro hnone
    rw [hheard, h.heard_of_none fun i => mt (observer.stopsAt_cons_succ ..).mpr (hnone (i + 1))]
  case cancelled_iff =>
    rw [hrun, hheard, observer.exists_stopsAt_cons s event _ hgoes]
    exact h.cancelled_iff
  case result_eq =>
    rw [hrun]
    exact h.result_eq

/-- An observer can do no more to a proper computation than stop it. -/
theorem Proper.cutShort {m : Monitored α} (h : m.Proper) (observer : Observer σ) (s : σ) :
    CutShort m observer s m.events m.value := by
  induction h generalizing s with
  | done h => exact cutShort_done h
  | @ask event rest hcan _ ih =>
    -- from here on the observer is the one that heard the event
    by_cases hstop : (observer s event).1 = true
    · exact cutShort_stop hcan hstop
    · refine (ih () (observer s event).2).cons (fun h => hstop h.2) ?_ ?_
      · rw [heard_ask, if_neg hstop]
      · rw [run_ask, if_neg hstop]
  | @tell event rest hcannot _ ih =>
    refine (ih () (observer s event).2).cons ?_ (heard_tell ..) (run_tell ..)
    rw [hcannot]
    exact fun h => Bool.false_ne_true h.1

/-- An observer that answers nothing it hears with a stop changes nothing in the result. -/
theorem Proper.fst_run_eq_value {m : Monitored α} (h : m.Proper) {observer : Observer σ} {s : σ}
    (hgoes : ∀ i, ¬ observer.StopsAt s (m.heard observer s) i) :
    (m.run observer s).1 = m.value := by
  have hcut := h.cutShort observer s
  exact hcut.result_eq (mt hcut.cancelled_iff.mp (not_exists.mpr hgoes))

/-- An observer that answers nothing it hears with a stop hears everything. -/
theorem Proper.heard_eq_events_of_goes {m : Monitored α} (h : m.Proper) {observer : Observer σ}
    {s : σ} (hgoes : ∀ i, ¬ observer.StopsAt s (m.heard observer s) i) :
    m.heard observer s = m.events := by
  classical
  have hcut := h.cutShort observer s
  apply hcut.heard_of_none
  by_contra hstops
  obtain ⟨i, hi⟩ := not_forall.mp hstops
  have hsome : ∃ i, observer.StopsAt s m.events i := ⟨i, not_not.mp hi⟩
  -- the first of all stops answers the last event that is heard
  have hfirst := hcut.heard_of_first _ (Nat.find_spec hsome) fun j hj => Nat.find_min hsome hj
  obtain ⟨event, hevent, hcan, hstop⟩ := Nat.find_spec hsome
  apply hgoes (Nat.find hsome)
  rw [hfirst]
  refine ⟨event, ?_, hcan, ?_⟩
  · rw [List.getElem?_take_of_lt (Nat.lt_succ_self _), hevent]
  · rwa [List.take_take, min_eq_left (Nat.le_succ _)]

/-- The events and the result in question are those of any observer that never stops. -/
theorem Proper.cutShort_of_silent {m : Monitored α} (h : m.Proper) {τ : Type}
    {silent : Observer τ} (hsilent : ∀ t event, (silent t event).1 = false) (t : τ)
    (observer : Observer σ) (s : σ) :
    CutShort m observer s (m.heard silent t) (m.run Observer.idle ()).1 := by
  rw [heard_eq_events silent t hsilent, run_fst_eq_value Observer.idle_silent]
  exact h.cutShort observer s

end Steps

end Monitored
end Signet
